import Coord.Lib.Lists
import Coord.Lib.Trace

/-!
# Revoked tokens and their deltas

The store of revoked token ids on a server, and a client that keeps its own set by asking for what was revoked since
the version it was last given. A revocation takes its version, adds the id to the exact set and records its event, each
on its own; a request reads the list of events and then the version.

Requests only read the store, so that further clients change nothing for this one.
-/

namespace Coord.Auth.Revocation

open Coord.Lib List

/-! ### The store -/

structure RevocationEvent where
  jti : String
  version : ℕ
  timestamp : ℤ
  deriving DecidableEq

/-- The exact set of revoked ids, the version counter and the latest events. -/
structure RevocationStore where
  revoked : List String
  version : ℕ
  recent : List RevocationEvent
  maxRecent : ℕ
  deriving DecidableEq

namespace RevocationStore

def new : RevocationStore := { revoked := [], version := 1, recent := [], maxRecent := 10000 }

/-- The counter's `fetch_add`; the version of the revocation is the new one. -/
def takeVersion (s : RevocationStore) : RevocationStore := { s with version := s.version + 1 }

def insertExact (s : RevocationStore) (jti : String) : RevocationStore :=
  { s with revoked := s.revoked.insert jti }

/-- The events that recording one more drops from the front. -/
def dropped (s : RevocationStore) : List RevocationEvent := s.recent.take (s.recent.length + 1 - s.maxRecent)

def record (s : RevocationStore) (event : RevocationEvent) : RevocationStore :=
  { s with recent := (s.recent ++ [event]).drop (s.recent.length + 1 - s.maxRecent) }

def getDeltaSince (s : RevocationStore) (since : ℕ) : List RevocationEvent :=
  s.recent.filter fun e => decide (since < e.version)

end RevocationStore

/-! ### Revocations and a client, interleaved -/

/-- Where a call of `revoke` stands. -/
inductive Phase where
  | counted
  | inserted
  | done
  deriving DecidableEq

structure Revoke where
  jti : String
  version : ℕ
  phase : Phase
  deriving DecidableEq

/-- The client's version and ids, what its open request has read, and the ids whose revocation was complete when its
last request began. -/
structure Client where
  since : ℕ
  received : List String
  request : Option (List RevocationEvent)
  due : List String
  deriving DecidableEq

structure World where
  store : RevocationStore
  calls : List Revoke
  client : Client
  deriving DecidableEq

namespace World

def start : World := { store := .new, calls := [], client := ⟨0, [], none, []⟩ }

def completed (w : World) : List String := (w.calls.filter fun c => c.phase == .done).map Revoke.jti

end World

inductive Action where
  /-- A call of `revoke` takes its version. -/
  | revoke (jti : String)
  /-- The call `i` adds its id to the exact set. -/
  | insert (i : ℕ)
  /-- The call `i` records its event and returns. -/
  | record (i : ℕ) (timestamp : ℤ)
  /-- The client's request reads the list. -/
  | readDelta
  /-- The request reads the version and is answered. -/
  | readVersion
  deriving DecidableEq

/-- One step; a request that is answered gives the ids and the version. -/
def step (w : World) : Action → World × Option (List String × ℕ)
  | .revoke jti =>
    ({ w with store := w.store.takeVersion, calls := w.calls ++ [⟨jti, w.store.version + 1, .counted⟩] }, none)
  | .insert i =>
    match w.calls[i]? with
    | some ⟨jti, version, .counted⟩ =>
      ({ w with store := w.store.insertExact jti, calls := w.calls.set i ⟨jti, version, .inserted⟩ }, none)
    | _ => (w, none)
  | .record i timestamp =>
    match w.calls[i]? with
    | some ⟨jti, version, .inserted⟩ =>
      ({ w with store := w.store.record ⟨jti, version, timestamp⟩, calls := w.calls.set i ⟨jti, version, .done⟩ }, none)
    | _ => (w, none)
  | .readDelta =>
    match w.client.request with
    | some _ => (w, none)
    | none =>
      ({ w with client :=
          { w.client with request := some (w.store.getDeltaSince w.client.since), due := w.completed } }, none)
  | .readVersion =>
    match w.client.request with
    | none => (w, none)
    | some events =>
      let jtis := events.map RevocationEvent.jti
      ({ w with client :=
          { w.client with since := w.store.version, received := w.client.received ++ jtis, request := none } },
        some (jtis, w.store.version))

/-- When the version is read no revocation is between its version and its event, and the list still gives the events
that were read; an event that is dropped is not above the client's version. -/
def Orderly (w : World) : Action → Prop
  | .readVersion => ∀ events ∈ w.client.request,
      (∀ c ∈ w.calls, c.phase = .done) ∧ events = w.store.getDeltaSince w.client.since
  | .record _ _ => ∀ e ∈ w.store.dropped, e.version ≤ w.client.since
  | _ => True

instance (w : World) (a : Action) : Decidable (Orderly w a) := by
  cases a <;> (unfold Orderly; infer_instance)

/-! ### The invariant -/

/-- What a client at its version has, and where the events above it are. -/
structure Inv (w : World) : Prop where
  room : 0 < w.store.maxRecent
  since_le : w.client.since ≤ w.store.version
  versions : ∀ c ∈ w.calls, c.version ≤ w.store.version
  pending : ∀ c ∈ w.calls, c.phase ≠ .done → w.client.since < c.version
  listed : ∀ c ∈ w.calls, c.phase = .done → w.client.since < c.version →
    ∃ e ∈ w.store.recent, e.jti = c.jti ∧ e.version = c.version
  received : ∀ c ∈ w.calls, c.version ≤ w.client.since → c.jti ∈ w.client.received
  due : ∀ jti ∈ w.client.due, ∃ c ∈ w.calls, c.phase = .done ∧ c.jti = jti
  answered : w.client.request = none → ∀ jti ∈ w.client.due, jti ∈ w.client.received

lemma inv_start : Inv .start := by
  constructor <;> simp [World.start, RevocationStore.new]

variable {w : World}

lemma inv_revoke (h : Inv w) (jti : String) : Inv (step w (.revoke jti)).1 := by
  have hv : w.client.since < w.store.version + 1 := Nat.lt_succ_of_le h.since_le
  refine ⟨h.room, h.since_le.trans (Nat.le_succ _), ?_, ?_, ?_, ?_, ?_, h.answered⟩
  · exact forall_mem_append_one (fun c hc => (h.versions c hc).trans (Nat.le_succ _)) le_rfl
  · exact forall_mem_append_one h.pending fun _ => hv
  · exact forall_mem_append_one h.listed fun hp => nomatch hp
  · exact forall_mem_append_one h.received fun hle => absurd hle hv.not_ge
  · intro j hj
    obtain ⟨c, hc, hd⟩ := h.due j hj
    exact ⟨c, mem_append_left _ hc, hd⟩

lemma mem_set_of_done {i : ℕ} {c old new : Revoke} (hi : w.calls[i]? = some old) (hold : old.phase ≠ .done)
    (hc : c ∈ w.calls) (hd : c.phase = .done) : c ∈ w.calls.set i new := by
  obtain ⟨k, hk, rfl⟩ := getElem_of_mem hc
  have hne : i ≠ k := by
    rintro rfl
    rw [getElem?_eq_getElem hk, Option.some.injEq] at hi
    exact hold (hi ▸ hd)
  exact mem_of_getElem? (by rw [getElem?_set_ne hne, getElem?_eq_getElem hk] : _ = some w.calls[k])

/-- A call that goes on: it keeps its id and its version, and the events that are still wanted stay listed. -/
lemma inv_set (h : Inv w) {i : ℕ} {jti : String} {version : ℕ} {old new : Phase} {store : RevocationStore}
    (hi : w.calls[i]? = some ⟨jti, version, old⟩) (hold : old ≠ .done) (hmax : store.maxRecent = w.store.maxRecent)
    (hver : store.version = w.store.version)
    (hkept : ∀ e ∈ w.store.recent, w.client.since < e.version → e ∈ store.recent)
    (hnew : new = .done → ∃ e ∈ store.recent, e.jti = jti ∧ e.version = version) :
    Inv { w with store := store, calls := w.calls.set i ⟨jti, version, new⟩ } := by
  have hmem : (⟨jti, version, old⟩ : Revoke) ∈ w.calls := mem_of_getElem? hi
  refine ⟨hmax ▸ h.room, hver ▸ h.since_le, ?_, ?_, ?_, ?_, ?_, h.answered⟩
  · intro c hc
    show c.version ≤ store.version
    rw [hver]
    rcases mem_or_eq_of_mem_set hc with hc | hc
    · exact h.versions c hc
    · rw [hc]; exact h.versions ⟨jti, version, old⟩ hmem
  · intro c hc hp
    rcases mem_or_eq_of_mem_set hc with hc | hc
    · exact h.pending c hc hp
    · rw [hc]; exact h.pending ⟨jti, version, old⟩ hmem hold
  · intro c hc hp hlt
    rcases mem_or_eq_of_mem_set hc with hc | rfl
    · obtain ⟨e, he, hj, hv⟩ := h.listed c hc hp hlt
      exact ⟨e, hkept e he (hv ▸ hlt), hj, hv⟩
    · exact hnew hp
  · intro c hc hle
    rcases mem_or_eq_of_mem_set hc with hc | rfl
    · exact h.received c hc hle
    · exact h.received ⟨jti, version, old⟩ hmem hle
  · intro j hj
    obtain ⟨c, hc, hd, hcj⟩ := h.due j hj
    exact ⟨c, mem_set_of_done hi hold hc hd, hd, hcj⟩

lemma inv_insert (h : Inv w) (i : ℕ) : Inv (step w (.insert i)).1 := by
  simp only [step]
  split
  · next jti version hi => exact inv_set h hi (by simp) rfl rfl (fun e he _ => he) (by simp)
  · exact h

lemma recent_record {s : RevocationStore} (hroom : 0 < s.maxRecent) (event : RevocationEvent) :
    (s.record event).recent = s.recent.drop (s.recent.length + 1 - s.maxRecent) ++ [event] :=
  drop_append_of_le_length (by omega)

lemma mem_record {s : RevocationStore} (hroom : 0 < s.maxRecent) {event e : RevocationEvent} (he : e ∈ s.recent)
    (hd : e ∉ s.dropped) : e ∈ (s.record event).recent := by
  rw [recent_record hroom]
  rw [← take_append_drop (s.recent.length + 1 - s.maxRecent) s.recent] at he
  exact mem_append_left _ ((mem_append.1 he).resolve_left hd)

lemma inv_record (h : Inv w) (i : ℕ) (timestamp : ℤ) (ho : Orderly w (.record i timestamp)) :
    Inv (step w (.record i timestamp)).1 := by
  simp only [step]
  split
  · next jti version hi =>
    refine inv_set h hi (by simp) rfl rfl (fun e he hlt => mem_record h.room he fun hd => hlt.not_ge (ho e hd))
      fun _ => ⟨⟨jti, version, timestamp⟩, ?_, rfl, rfl⟩
    rw [recent_record h.room]
    exact mem_append_right _ mem_cons_self
  · exact h

lemma mem_completed {jti : String} : jti ∈ w.completed ↔ ∃ c ∈ w.calls, c.phase = .done ∧ c.jti = jti := by
  simp [World.completed, and_assoc]

lemma inv_readDelta (h : Inv w) : Inv (step w .readDelta).1 := by
  simp only [step]
  split
  · exact h
  · exact ⟨h.room, h.since_le, h.versions, h.pending, h.listed, h.received, fun _ => mem_completed.1, by simp⟩

lemma inv_readVersion (h : Inv w) (ho : Orderly w .readVersion) : Inv (step w .readVersion).1 := by
  simp only [step]
  split
  · exact h
  next events hreq =>
  obtain ⟨hdone, rfl⟩ := ho events hreq
  have hall : ∀ c ∈ w.calls, c.jti ∈ w.client.received ++
      (w.store.getDeltaSince w.client.since).map RevocationEvent.jti := by
    intro c hc
    by_cases hle : c.version ≤ w.client.since
    · exact mem_append_left _ (h.received c hc hle)
    · obtain ⟨e, he, hj, hv⟩ := h.listed c hc (hdone c hc) (not_le.1 hle)
      refine mem_append_right _ (mem_map.2 ⟨e, mem_filter.2 ⟨he, ?_⟩, hj⟩)
      exact decide_eq_true (hv ▸ not_le.1 hle)
  refine ⟨h.room, le_rfl, h.versions, fun c hc hp => absurd (hdone c hc) hp, ?_, fun c hc _ => hall c hc, h.due, ?_⟩
  · intro c hc _ hlt
    exact absurd (h.versions c hc) (not_le.2 hlt)
  · intro _ jti hj
    obtain ⟨c, hc, -, rfl⟩ := h.due jti hj
    exact hall c hc

lemma inv_step (w : World) (a : Action) (ho : Orderly w a) (h : Inv w) : Inv (step w a).1 := by
  cases a with
  | revoke jti => exact inv_revoke h jti
  | insert i => exact inv_insert h i
  | record i timestamp => exact inv_record h i timestamp ho
  | readDelta => exact inv_readDelta h
  | readVersion => exact inv_readVersion h ho

/-! ### Runs -/

/-- **Deltas are complete in orderly runs**: once its request is answered, the client has every id whose revocation was
complete when the request began. -/
theorem delta_complete (actions : List Action) (h : Along step Orderly .start actions)
    (hidle : (exec step .start actions).client.request = none) :
    ∀ jti ∈ (exec step .start actions).client.due, jti ∈ (exec step .start actions).client.received :=
  (along_inv Inv Orderly inv_start h inv_step).1.answered hidle

/-- Two revocations, each asked for after it is complete. -/
def orderlyRun : List Action :=
  [.revoke "a", .insert 0, .record 0 5, .readDelta, .readVersion, .revoke "b", .insert 1, .record 1 6, .readDelta,
    .readVersion]

theorem delta_complete_orderlyRun :
    (Along step Orderly .start orderlyRun ∧ (exec step .start orderlyRun).client.due = ["a", "b"]) ∧
      ∀ jti ∈ (exec step .start orderlyRun).client.due, jti ∈ (exec step .start orderlyRun).client.received := by
  have hrun : Along step Orderly .start orderlyRun := by decide +kernel
  exact ⟨⟨hrun, by decide +kernel⟩, delta_complete orderlyRun hrun (by decide +kernel)⟩

/-- A request between the version of a revocation and its event: the client is given the version, and the event never.
-/
def lateRecord : List Action :=
  [.revoke "a", .readDelta, .readVersion, .insert 0, .record 0 5, .readDelta, .readVersion]

theorem delta_misses_late_record :
    (exec step .start lateRecord).client.request = none ∧ "a" ∈ (exec step .start lateRecord).client.due ∧
      "a" ∉ (exec step .start lateRecord).client.received ∧
      (exec step .start lateRecord).client.since = (exec step .start lateRecord).store.version := by
  decide +kernel

end Coord.Auth.Revocation
