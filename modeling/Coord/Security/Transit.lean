import Coord.Lib.Table
import Coord.Lib.Trace

/-!
# Single-use data keys

Agents encrypt data under fresh data keys. A data key, wrapped by a key material, is kept in the memory of the agent
and in a store that all agents share; a decryption takes it from the memory, where it fetches it from the store if it
has to, and then deletes it from the store. Rewrapping gives a data key another wrapping and another id. A call's
reads, its changes of the memory and its requests to the store are separate steps, and agents restart.

Ciphertexts and wrapped keys are terms: who has the data key can decrypt, and nobody else.
-/

namespace Coord.Security.Transit

open Coord.Lib List Option

abbrev Id := String
abbrev KekId := String

/-! ### Wrapped keys -/

/-- A data key wrapped under a material with a nonce. -/
structure DekPacket where
  dek : ℕ
  nonce : ℕ
  kek : KekId
  deriving DecidableEq

/-- An entry of a memory or of the store; `expiresAt = 0` is never, and the material's name may be missing. -/
structure DekEntry where
  packet : DekPacket
  expiresAt : ℕ
  kekId : Option KekId
  deriving DecidableEq

def DekEntry.isExpired (e : DekEntry) (now : ℕ) : Bool := e.expiresAt != 0 && decide (e.expiresAt ≤ now)

/-- A ciphertext: the ids in its header, the data key and the context it was made with, and the plaintext. -/
structure Sealed (P : Type) where
  dekId : Option Id
  kekId : Option KekId
  dek : ℕ
  context : String
  plaintext : P
  deriving DecidableEq

/-- The materials of an agent, the one it wraps with first, and the time to live of its data keys. -/
structure TransitConfig where
  primary : KekId
  historical : List KekId
  dekTtlSecs : ℕ
  deriving DecidableEq

/-- A named material is the only one that is tried; without a name all are. -/
def unwrapDek (cfg : TransitConfig) (packet : DekPacket) (kekHint : Option KekId) : Option ℕ :=
  match kekHint with
  | some kek => if kek ∈ cfg.primary :: cfg.historical ∧ packet.kek = kek then some packet.dek else none
  | none => if packet.kek ∈ cfg.primary :: cfg.historical then some packet.dek else none

lemma unwrapDek_eq_some {cfg : TransitConfig} {packet : DekPacket} {kekHint : Option KekId} {dek : ℕ}
    (h : unwrapDek cfg packet kekHint = some dek) : packet.dek = dek := by
  unfold unwrapDek at h
  split at h <;> split_ifs at h <;> simpa using h

/-! ### Calls -/

inductive Op (P : Type) where
  | encryptPersisted (dek nonce : ℕ) (plaintext : P) (context : String)
  | decryptPersisted (data : Sealed P) (dekId : Option Id) (context : String)
  | rewrapPersisted (oldDekId : Id) (nonce : ℕ)
  deriving DecidableEq

/-- Where a call stands: at the lookups of its ids, with a request to the store under way or with its answer, or with an
entry of the memory in its hands. -/
inductive Phase where
  | hydrate (ids : List Id)
  | fetch (id : Id) (rest : List Id)
  /-- The deletion of a record that was found expired. -/
  | reclaim (id : Id) (rest : List Id)
  | fill (id : Id) (entry : DekEntry) (rest : List Id)
  | holding (id : Id) (entry : DekEntry)
  /-- The deletion of the key that was used. -/
  | revoke (id : Id)
  | record (id : Id)
  | put (id : Id) (entry : DekEntry)
  /-- The deletion of the id that was replaced. -/
  | drop (id : Id)
  | finished (ok : Bool)
  deriving DecidableEq

structure Call (P : Type) where
  agent : ℕ
  op : Op P
  phase : Phase
  deriving DecidableEq

abbrev Deks := Table Id DekEntry

/-- An agent: its configuration and the data keys in its memory. -/
structure TransitService where
  config : TransitConfig
  dekStore : Deks

structure World (P : Type) where
  agents : List TransitService
  store : Deks
  calls : List (Call P)

def World.start (P : Type) (configs : List TransitConfig) : World P := ⟨configs.map (⟨·, Table.empty⟩), Table.empty, []⟩

/-- What comes of a request that changes the store: it is done; it is done and the answer is an error; it is not done.
-/
inductive Outcome where
  | done
  | lost
  | refused
  deriving DecidableEq

def Outcome.applied : Outcome → Bool
  | .refused => false
  | _ => true

inductive Action (P : Type) where
  | start (agent : ℕ) (op : Op P) (now : ℕ)
  /-- The call `i` makes its next step in the memory of its agent, or its next read of the store. -/
  | go (i now : ℕ)
  /-- The call's write or deletion is answered. -/
  | answer (i : ℕ) (outcome : Outcome)
  /-- A read of the store fails, or the caller goes away, with its request done or not. -/
  | giveUp (i : ℕ) (applied : Bool)
  | restart (agent : ℕ) (config : TransitConfig)
  | purgeLocalExpired (agent now : ℕ)
  | sweepExpired (id : Id) (now : ℕ)
  deriving DecidableEq

section

variable {P : Type} (computeDekId : DekPacket → Id)

def World.setDeks (w : World P) (agent : ℕ) (deks : Deks) : World P :=
  { w with agents := w.agents.modify agent fun s => { s with dekStore := deks } }

def World.goto (w : World P) (i : ℕ) (c : Call P) (phase : Phase) : World P :=
  { w with calls := w.calls.set i { c with phase } }

/-- The ids to look for: the one in the header and the one that was given. -/
def candidates (data : Sealed P) (dekId : Option Id) : List Id :=
  data.dekId.toList ++ dekId.toList.filter fun id => decide (data.dekId ≠ some id)

/-- The memory part of an encryption: the key's entry, to be kept under the id of its packet. -/
def encryptInner (cfg : TransitConfig) (dek nonce now : ℕ) : Id × DekEntry :=
  let packet : DekPacket := ⟨dek, nonce, cfg.primary⟩
  (computeDekId packet, ⟨packet, if cfg.dekTtlSecs = 0 then 0 else now + cfg.dekTtlSecs, some cfg.primary⟩)

/-- The entry with the key wrapped anew; it expires when the old one does. -/
def rewrapped (cfg : TransitConfig) (entry : DekEntry) (dek nonce : ℕ) : Id × DekEntry :=
  let packet : DekPacket := ⟨dek, nonce, cfg.primary⟩
  (computeDekId packet, ⟨packet, entry.expiresAt, some cfg.primary⟩)

/-- The id whose entry the call takes from the memory: of a decryption the first that is there. -/
def Call.idToTry (c : Call P) (deks : Deks) : Option Id :=
  match c.op with
  | .decryptPersisted data dekId _ => (candidates data dekId).find? fun id => deks.has id
  | .rewrapPersisted oldDekId _ => some oldDekId
  | .encryptPersisted _ _ _ _ => none

/-- With the entry in its hands the call unwraps the key. A decryption then removes the entry from the memory and
decrypts the data; a rewrapping replaces the entry. -/
def World.useEntry (w : World P) (i : ℕ) (c : Call P) (s : TransitService) (id : Id) (entry : DekEntry) (now : ℕ) :
    World P :=
  match c.op with
  | .decryptPersisted data _ context =>
    match unwrapDek s.config entry.packet (entry.kekId.or data.kekId) with
    | none => w.goto i c (.finished false)
    | some dek =>
      let w' := w.setDeks c.agent (s.dekStore.erase id)
      if dek = data.dek ∧ context = data.context then w'.goto i c (.revoke id) else w'.goto i c (.finished false)
  | .rewrapPersisted _ nonce =>
    if entry.isExpired now then w.goto i c (.finished false)
    else
      match unwrapDek s.config entry.packet entry.kekId with
      | none => w.goto i c (.finished false)
      | some dek =>
        let new := rewrapped computeDekId s.config entry dek nonce
        (w.setDeks c.agent ((s.dekStore.insert new.1 new.2).erase id)).goto i c (.record new.1)
  | .encryptPersisted _ _ _ _ => w.goto i c (.finished false)

/-- The next step of a call that does not wait for an answer of the store. -/
def World.advance (w : World P) (i : ℕ) (c : Call P) (s : TransitService) (now : ℕ) : World P :=
  match c.phase with
  | .hydrate [] =>
    match (c.idToTry s.dekStore).bind fun id => (s.dekStore.get id).map fun entry => (id, entry) with
    | some (id, entry) => w.goto i c (.holding id entry)
    | none => w.goto i c (.finished false)
  | .hydrate (id :: rest) =>
    if s.dekStore.has id then w.goto i c (.hydrate rest) else w.goto i c (.fetch id rest)
  | .fetch id rest =>
    match w.store.get id with
    | none => w.goto i c (.hydrate rest)
    | some entry => if entry.isExpired now then w.goto i c (.reclaim id rest) else w.goto i c (.fill id entry rest)
  | .fill id entry rest => (w.setDeks c.agent (s.dekStore.insert id entry)).goto i c (.hydrate rest)
  | .holding id entry => w.useEntry computeDekId i c s id entry now
  | .record id =>
    match s.dekStore.get id with
    | some entry => w.goto i c (.put id entry)
    | none => w.goto i c (.finished false)
  | _ => w

/-- The request that the call has under way, applied to the store. -/
def Phase.request (store : Deks) : Phase → Deks
  | .put id entry => store.insert id entry
  | .reclaim id _ => store.erase id
  | .revoke id => store.erase id
  | .drop id => store.erase id
  | _ => store

def World.request (w : World P) (c : Call P) (applied : Bool) : World P :=
  if applied then { w with store := c.phase.request w.store } else w

/-- What the call does with the answer to its request. -/
def World.answered (w : World P) (i : ℕ) (c : Call P) (s : TransitService) (ok : Bool) : World P × Option P :=
  match c.phase, c.op with
  -- a key whose deletion fails counts as not used: the plaintext is withheld
  | .revoke _, .decryptPersisted data _ _ => (w.goto i c (.finished ok), if ok then some data.plaintext else none)
  | .put id _, .encryptPersisted _ _ _ _ =>
    if ok then (w.goto i c (.finished true), none)
    else ((w.setDeks c.agent (s.dekStore.erase id)).goto i c (.finished false), none)
  | .put _ _, .rewrapPersisted oldDekId _ =>
    (w.goto i c (if ok then .drop oldDekId else .finished false), none)
  -- failed deletions of a replaced or an expired record are only logged
  | .drop _, .rewrapPersisted _ _ => (w.goto i c (.finished true), none)
  | .reclaim _ rest, _ => (w.goto i c (.hydrate rest), none)
  | _, _ => (w, none)

def Call.isFinished (c : Call P) : Bool :=
  match c.phase with
  | .finished _ => true
  | _ => false

/-- The call ends without success, unless it has ended. -/
def Call.abort (c : Call P) : Call P := if c.isFinished then c else { c with phase := .finished false }

/-- A call starts: an encryption registers its key, the other calls look for theirs. -/
def World.call (w : World P) (agent : ℕ) (op : Op P) (s : TransitService) (now : ℕ) : World P :=
  match op with
  | .encryptPersisted dek nonce _ _ =>
    let new := encryptInner computeDekId s.config dek nonce now
    { w.setDeks agent (s.dekStore.insert new.1 new.2) with calls := w.calls ++ [⟨agent, op, .record new.1⟩] }
  | .decryptPersisted data dekId _ =>
    { w with calls := w.calls ++ [⟨agent, op, .hydrate (candidates data dekId)⟩] }
  | .rewrapPersisted oldDekId _ => { w with calls := w.calls ++ [⟨agent, op, .hydrate [oldDekId]⟩] }

def World.callAt (w : World P) (i : ℕ) : Option (Call P × TransitService) :=
  (w.calls[i]?).bind fun c => (w.agents[c.agent]?).map fun s => (c, s)

/-- One step; the answer is the plaintext of a decryption that succeeds. -/
def step (w : World P) : Action P → World P × Option P
  | .start agent op now =>
    match w.agents[agent]? with
    | some s => (w.call computeDekId agent op s now, none)
    | none => (w, none)
  | .go i now =>
    match w.callAt i with
    | some (c, s) => (w.advance computeDekId i c s now, none)
    | none => (w, none)
  | .answer i outcome =>
    match w.callAt i with
    | some (c, s) => (w.request c outcome.applied).answered i c s (outcome == .done)
    | none => (w, none)
  | .giveUp i applied =>
    match w.callAt i with
    | some (c, _) => ({ w.request c applied with calls := w.calls.set i c.abort }, none)
    | none => (w, none)
  | .restart agent config =>
    ({ w with
      agents := w.agents.set agent ⟨config, Table.empty⟩
      calls := w.calls.map fun c => if c.agent = agent then c.abort else c }, none)
  | .purgeLocalExpired agent now =>
    ({ w with
      agents := w.agents.modify agent fun s =>
        { s with dekStore := s.dekStore.filter fun r => !r.2.isExpired now } }, none)
  | .sweepExpired id now =>
    match w.store.get id with
    | some entry => if entry.isExpired now then ({ w with store := w.store.erase id }, none) else (w, none)
    | none => (w, none)

end

/-! ### Copies of a data key -/

def InDeks (k : ℕ) (deks : Deks) : Prop := ∃ r ∈ deks.rows, r.2.packet.dek = k

instance (k : ℕ) (deks : Deks) : Decidable (InDeks k deks) := by unfold InDeks; infer_instance

section

variable {P : Type} {computeDekId : DekPacket → Id} {w w₀ : World P} {k : ℕ}

/-- The call has the data key in its hands: in an entry, or unwrapped, with the data decrypted. -/
def Call.hasCopy (k : ℕ) (c : Call P) : Bool :=
  match c.phase, c.op with
  | .fill _ entry _, _ => decide (entry.packet.dek = k)
  | .holding _ entry, _ => decide (entry.packet.dek = k)
  | .put _ entry, _ => decide (entry.packet.dek = k)
  | .revoke _, .decryptPersisted data _ _ => decide (data.dek = k)
  | _, _ => false

/-- A copy of the data key is left: in a memory, in the store or in the hands of a call. -/
def Held (w : World P) (k : ℕ) : Prop :=
  (∃ s ∈ w.agents, InDeks k s.dekStore) ∨ InDeks k w.store ∨ ∃ c ∈ w.calls, c.hasCopy k = true

variable {deks : Deks} {id : Id} {entry : DekEntry} {agent i now : ℕ} {c : Call P} {s : TransitService}

lemma InDeks.of_get (h : deks.get id = some entry) (hk : entry.packet.dek = k) : InDeks k deks :=
  ⟨(id, entry), Table.mem_rows.2 h, hk⟩

lemma InDeks.of_filter {p : Id × DekEntry → Bool} (h : InDeks k (deks.filter p)) : InDeks k deks := by
  obtain ⟨r, hr, hk⟩ := h
  exact ⟨r, (Table.mem_filter.1 hr).1, hk⟩

lemma InDeks.of_erase (h : InDeks k (deks.erase id)) : InDeks k deks := InDeks.of_filter h

lemma InDeks.of_insert (h : InDeks k (deks.insert id entry)) : InDeks k deks ∨ entry.packet.dek = k := by
  obtain ⟨r, hr, hk⟩ := h
  rcases Table.mem_insert.1 hr with rfl | ⟨hr, -⟩
  · exact .inr hk
  · exact .inl ⟨r, hr, hk⟩

lemma Held.of_setDeks (h : Held (w.setDeks agent deks) k) : Held w k ∨ InDeks k deks := by
  rcases h with ⟨s, hs, hk⟩ | h
  · obtain ⟨j, hj⟩ := mem_iff_getElem?.1 hs
    simp only [World.setDeks, getElem?_modify] at hj
    obtain ⟨s', hs', rfl⟩ := map_eq_some_iff.1 hj
    split_ifs at hk
    · exact .inr hk
    · exact .inl (.inl ⟨s', mem_of_getElem? hs', hk⟩)
  · exact .inl (.inr h)

lemma Held.of_set {calls : List (Call P)} (h : Held { w with calls := calls.set i c } k) :
    Held { w with calls } k ∨ c.hasCopy k = true := by
  rcases h with h | h | ⟨c', hc', hk⟩
  · exact .inl (.inl h)
  · exact .inl (.inr (.inl h))
  · rcases mem_or_eq_of_mem_set hc' with hc' | rfl
    · exact .inl (.inr (.inr ⟨c', hc', hk⟩))
    · exact .inr hk

lemma Held.of_goto {phase : Phase} (h : Held (w.goto i c phase) k) :
    Held w k ∨ Call.hasCopy k { c with phase } = true :=
  h.of_set

lemma Held.of_goto_of_eq_false {phase : Phase} (h : Held (w.goto i c phase) k)
    (hc : Call.hasCopy k { c with phase } = false) : Held w k :=
  h.of_goto.resolve_right (by simp [hc])

lemma Held.of_agent (hs : w.agents[agent]? = some s) (h : InDeks k s.dekStore) : Held w k :=
  .inl ⟨s, mem_of_getElem? hs, h⟩

lemma Held.of_call (hc : w.calls[i]? = some c) (h : c.hasCopy k = true) : Held w k :=
  .inr (.inr ⟨c, mem_of_getElem? hc, h⟩)

lemma callAt_eq_some : w.callAt i = some (c, s) ↔ w.calls[i]? = some c ∧ w.agents[c.agent]? = some s := by
  simp only [World.callAt, bind_eq_some_iff, map_eq_some_iff, Prod.mk.injEq]
  constructor
  · rintro ⟨_, hc, _, hs, rfl, rfl⟩
    exact ⟨hc, hs⟩
  · rintro ⟨hc, hs⟩
    exact ⟨c, hc, s, hs, rfl, rfl⟩

lemma hasCopy_abort (h : c.abort.hasCopy k = true) : c.hasCopy k = true := by
  unfold Call.abort at h
  split_ifs at h
  · exact h
  · simp [Call.hasCopy] at h

lemma Held.of_request {applied : Bool} (hc : w.calls[i]? = some c) (h : Held (w.request c applied) k) : Held w k := by
  unfold World.request at h
  split_ifs at h
  · rcases h with h | h | h
    · exact .inl h
    · change InDeks k (c.phase.request w.store) at h
      unfold Phase.request at h
      split at h
      · rename_i hp
        rcases h.of_insert with h | h
        · exact .inr (.inl h)
        · exact .of_call hc (by simpa [Call.hasCopy, hp] using h)
      all_goals first | exact .inr (.inl h.of_erase) | exact .inr (.inl h)
    · exact .inr (.inr h)
  · exact h

lemma Held.of_useEntry (hs : w.agents[c.agent]? = some s) (hentry : entry.packet.dek = k → Held w k)
    (h : Held (w.useEntry computeDekId i c s id entry now) k) : Held w k := by
  unfold World.useEntry at h
  split at h
  · rename_i data dekId context hop
    split at h
    · exact h.of_goto_of_eq_false rfl
    rename_i dek hdek
    have hmem : Held (w.setDeks c.agent (s.dekStore.erase id)) k → Held w k := fun h =>
      h.of_setDeks.elim (fun h => h) fun h => .of_agent hs h.of_erase
    simp only at h
    split_ifs at h with hd
    · rcases h.of_goto with h | h
      · exact hmem h
      · have hk : data.dek = k := by simpa [Call.hasCopy, hop] using h
        exact hentry ((unwrapDek_eq_some hdek).trans (hd.1.trans hk))
    · exact hmem (h.of_goto_of_eq_false rfl)
  · split_ifs at h
    · exact h.of_goto_of_eq_false rfl
    split at h
    · exact h.of_goto_of_eq_false rfl
    rename_i dek hdek
    rcases (h.of_goto_of_eq_false rfl).of_setDeks with h | h
    · exact h
    · rcases h.of_erase.of_insert with h | h
      · exact .of_agent hs h
      · exact hentry ((unwrapDek_eq_some hdek).trans h)
  · exact h.of_goto_of_eq_false rfl

lemma Held.of_advance (hc : w.calls[i]? = some c)
    (hs : w.agents[c.agent]? = some s) (h : Held (w.advance computeDekId i c s now) k) : Held w k := by
  unfold World.advance at h
  split at h
  · split at h
    · rename_i id entry heq
      obtain ⟨_, -, hmap⟩ := bind_eq_some_iff.1 heq
      obtain ⟨_, hget, hpair⟩ := map_eq_some_iff.1 hmap
      cases hpair
      exact h.of_goto.elim (fun h => h) fun h => .of_agent hs (.of_get hget (by simpa [Call.hasCopy] using h))
    · exact h.of_goto_of_eq_false rfl
  · split_ifs at h
    · exact h.of_goto_of_eq_false rfl
    · exact h.of_goto_of_eq_false rfl
  · split at h
    · exact h.of_goto_of_eq_false rfl
    rename_i entry hget
    split_ifs at h
    · exact h.of_goto_of_eq_false rfl
    · exact h.of_goto.elim (fun h => h) fun h => .inr (.inl (.of_get hget (by simpa [Call.hasCopy] using h)))
  · rename_i id entry rest hp
    rcases (h.of_goto_of_eq_false rfl).of_setDeks with h | h
    · exact h
    · rcases h.of_insert with h | h
      · exact .of_agent hs h
      · exact .of_call hc (by simpa [Call.hasCopy, hp] using h)
  · rename_i id entry hp
    exact h.of_useEntry hs fun hk => .of_call hc (by simpa [Call.hasCopy, hp] using hk)
  · split at h
    · rename_i hget
      exact h.of_goto.elim (fun h => h) fun h => .of_agent hs (.of_get hget (by simpa [Call.hasCopy] using h))
    · exact h.of_goto_of_eq_false rfl
  · exact h

lemma Held.of_answered {ok : Bool} (hs : w.agents[c.agent]? = some s)
    (h : Held (w.answered i c s ok).1 k) : Held w k := by
  unfold World.answered at h
  split at h
  · exact h.of_goto_of_eq_false rfl
  · split_ifs at h
    · exact h.of_goto_of_eq_false rfl
    · rcases (h.of_goto_of_eq_false rfl).of_setDeks with h | h
      · exact h
      · exact .of_agent hs h.of_erase
  · exact h.of_goto_of_eq_false (by split_ifs <;> rfl)
  · exact h.of_goto_of_eq_false rfl
  · exact h.of_goto_of_eq_false rfl
  · exact h

/-- The action starts an encryption under the data key. -/
def Action.Makes (k : ℕ) : Action P → Prop
  | .start _ (.encryptPersisted dek _ _ _) _ => dek = k
  | _ => False

lemma Held.of_append {agents : List TransitService}
    (h : Held { w with agents, calls := w.calls ++ [c] } k) (hc : c.hasCopy k = false) : Held { w with agents } k := by
  rcases h with h | h | ⟨c', hc', hk⟩
  · exact .inl h
  · exact .inr (.inl h)
  rcases mem_append.1 hc' with hc' | hc'
  · exact .inr (.inr ⟨c', hc', hk⟩)
  · rw [mem_singleton.1 hc', hc] at hk
    cases hk

lemma Held.of_start {op : Op P} (hs : w.agents[agent]? = some s)
    (h : Held (w.call computeDekId agent op s now) k) : Held w k ∨ Action.Makes k (.start agent op now) := by
  unfold World.call at h
  split at h
  · rcases (Held.of_append h rfl).of_setDeks with h | h
    · exact .inl h
    · rcases h.of_insert with h | h
      · exact .inl (.of_agent hs h)
      · exact .inr h
  · exact .inl (Held.of_append h rfl)
  · exact .inl (Held.of_append h rfl)

theorem held_step {a : Action P} (h : Held (step computeDekId w a).1 k) : Held w k ∨ a.Makes k := by
  cases a with
  | start agent op now =>
    simp only [step] at h
    split at h
    · rename_i s hs
      exact Held.of_start hs h
    · exact .inl h
  | go i now =>
    simp only [step] at h
    split at h
    · rename_i c s hcs
      obtain ⟨hc, hs⟩ := callAt_eq_some.1 hcs
      exact .inl (h.of_advance hc hs)
    · exact .inl h
  | answer i outcome =>
    simp only [step] at h
    split at h
    · rename_i c s hcs
      obtain ⟨hc, hs⟩ := callAt_eq_some.1 hcs
      have hs' : (w.request c outcome.applied).agents[c.agent]? = some s := by
        unfold World.request
        split_ifs <;> exact hs
      exact .inl ((h.of_answered hs').of_request hc)
    · exact .inl h
  | giveUp i applied =>
    simp only [step] at h
    split at h
    · rename_i c s hcs
      obtain ⟨hc, -⟩ := callAt_eq_some.1 hcs
      have hcalls : { w.request c applied with calls := w.calls } = w.request c applied := by
        unfold World.request
        split_ifs <;> rfl
      rcases h.of_set with h | h
      · exact .inl (Held.of_request hc (hcalls ▸ h))
      · exact .inl (.of_call hc (hasCopy_abort h))
    · exact .inl h
  | restart agent config =>
    refine .inl ?_
    rcases h with ⟨s, hs, hk⟩ | h | ⟨c, hc, hk⟩
    · rcases mem_or_eq_of_mem_set hs with hs | rfl
      · exact .inl ⟨s, hs, hk⟩
      · obtain ⟨r, hr, -⟩ := hk
        cases hr
    · exact .inr (.inl h)
    · obtain ⟨c', hc', rfl⟩ := mem_map.1 hc
      refine .inr (.inr ⟨c', hc', ?_⟩)
      split_ifs at hk
      · exact hasCopy_abort hk
      · exact hk
  | purgeLocalExpired agent now =>
    refine .inl ?_
    rcases h with ⟨s, hs, hk⟩ | h
    · obtain ⟨j, hj⟩ := mem_iff_getElem?.1 hs
      simp only [step, getElem?_modify] at hj
      obtain ⟨s', hs', rfl⟩ := map_eq_some_iff.1 hj
      refine .of_agent hs' ?_
      split_ifs at hk
      · exact hk.of_filter
      · exact hk
    · exact .inr h
  | sweepExpired id now =>
    simp only [step] at h
    split at h
    · split_ifs at h
      · exact .inl (h.imp_right (Or.imp_left InDeks.of_erase))
      · exact .inl h
    · exact .inl h

end

/-! ### Uses of a data key -/

section

variable {P : Type} {computeDekId : DekPacket → Id} {w : World P} {k : ℕ}

/-- The data key that the call is about, where the caller gives it. -/
def Op.dek : Op P → Option ℕ
  | .encryptPersisted dek _ _ _ => some dek
  | .decryptPersisted data _ _ => some data.dek
  | .rewrapPersisted _ _ => none

def Call.decrypted (c : Call P) : Option ℕ :=
  match c.phase, c.op with
  | .finished true, .decryptPersisted data _ _ => some data.dek
  | _, _ => none

/-- A decryption that is at the deletion of its key: the id and the key. -/
def Call.consuming (c : Call P) : Option (Id × ℕ) :=
  match c.phase, c.op with
  | .revoke id, .decryptPersisted data _ _ => some (id, data.dek)
  | _, _ => none

/-- Every data key is decrypted with by one call at most. -/
def DecryptedOnce (w : World P) : Prop :=
  ∀ (i j : ℕ) (c c' : Call P) (k : ℕ), w.calls[i]? = some c → w.calls[j]? = some c' → c.decrypted = some k →
    c'.decrypted = some k → i = j

/-- An encryption draws a data key that no call before it is about. -/
def FreshDek (w : World P) : Action P → Prop
  | .start _ (.encryptPersisted dek _ _ _) _ => ∀ c ∈ w.calls, c.op.dek ≠ some dek
  | _ => True

instance (w : World P) (a : Action P) : Decidable (FreshDek w a) := by
  unfold FreshDek
  split <;> infer_instance

/-- When the deletion of the key that a decryption used is answered, the record that it deletes is the last copy: none
is left in a memory, under another id or in the hands of another call. -/
def LastCopy (w : World P) : Action P → Prop
  | .answer i .done => ∀ c ∈ w.calls[i]?, ∀ x ∈ c.consuming, (∀ s ∈ w.agents, ¬ InDeks x.2 s.dekStore) ∧
      (∀ r ∈ w.store.rows, r.1 ≠ x.1 → r.2.packet.dek ≠ x.2) ∧ ∀ c' ∈ w.calls.eraseIdx i, c'.hasCopy x.2 = false
  | _ => True

instance (w : World P) (a : Action P) : Decidable (LastCopy w a) := by
  unfold LastCopy
  split <;> infer_instance

variable {c : Call P} {id : Id} {i : ℕ} {ok : Bool} {s : TransitService}

lemma Call.hasCopy_of_consuming (h : c.consuming = some (id, k)) : c.hasCopy k = true := by
  unfold Call.consuming at h
  unfold Call.hasCopy
  split at h
  · simp_all
  · cases h

lemma Call.dek_of_decrypted (h : c.decrypted = some k) : c.op.dek = some k := by
  unfold Call.decrypted at h
  split at h
  · simp_all [Op.dek]
  · cases h

/-- The call `i` alone has moved, and succeeds only by the answer to the deletion of its key. -/
def Moved (w w' : World P) (i : ℕ) (c : Call P) (ok : Bool) : Prop :=
  ∃ phase, w'.calls = w.calls.set i { c with phase } ∧
    ∀ k, Call.decrypted { c with phase } = some k → c.decrypted = some k ∨ ok = true ∧ ∃ id, c.consuming = some (id, k)

lemma moved_goto {w₀ : World P} (hw : w.calls = w₀.calls) {phase : Phase}
    (h : Call.decrypted { c with phase } = none) : Moved w₀ (w.goto i c phase) i c ok :=
  ⟨phase, by simp [World.goto, hw], fun k hk => by rw [h] at hk; cases hk⟩

lemma moved_refl (hc : w.calls[i]? = some c) : Moved w w i c ok := by
  obtain ⟨hi, rfl⟩ := List.getElem?_eq_some_iff.1 hc
  exact ⟨_, (set_getElem_self hi).symm, fun k hk => .inl hk⟩

lemma moved_useEntry {now : ℕ} {entry : DekEntry} :
    Moved w (w.useEntry computeDekId i c s id entry now) i c false := by
  unfold World.useEntry
  split
  · split
    · exact moved_goto rfl rfl
    · simp only
      split_ifs <;> exact moved_goto rfl rfl
  · split_ifs
    · exact moved_goto rfl rfl
    · split <;> exact moved_goto rfl rfl
  · exact moved_goto rfl rfl

lemma moved_advance {now : ℕ} (hc : w.calls[i]? = some c) :
    Moved w (w.advance computeDekId i c s now) i c false := by
  unfold World.advance
  split
  · split <;> exact moved_goto rfl rfl
  · split_ifs <;> exact moved_goto rfl rfl
  · split
    · exact moved_goto rfl rfl
    · split_ifs <;> exact moved_goto rfl rfl
  · exact moved_goto rfl rfl
  · exact moved_useEntry
  · split <;> exact moved_goto rfl rfl
  · exact moved_refl hc

lemma moved_answered (hc : w.calls[i]? = some c) : Moved w (w.answered i c s ok).1 i c ok := by
  unfold World.answered
  split
  · rename_i id data dekId context hp hop
    refine ⟨_, rfl, fun k hk => .inr ?_⟩
    cases ok with
    | false => simp [Call.decrypted] at hk
    | true => exact ⟨rfl, id, by simpa [Call.decrypted, Call.consuming, hp, hop] using hk⟩
  · rename_i hop
    split_ifs
    · exact moved_goto rfl (by simp [Call.decrypted, hop])
    · exact moved_goto rfl rfl
  · exact moved_goto rfl (by split_ifs <;> rfl)
  · rename_i hop
    exact moved_goto rfl (by simp [Call.decrypted, hop])
  · exact moved_goto rfl rfl
  · exact moved_refl hc

lemma Moved.decrypted {w' : World P} {j : ℕ} {c' : Call P} (h : Moved w w' i c ok)
    (hc : w.calls[i]? = some c) (hc' : w'.calls[j]? = some c') (hk : c'.decrypted = some k) :
    (∃ c, w.calls[j]? = some c ∧ c.decrypted = some k) ∨ (ok = true ∧ j = i ∧ ∃ id, c.consuming = some (id, k)) := by
  obtain ⟨phase, hcalls, hdec⟩ := h
  rcases getElem?_set_cases (hcalls ▸ hc') with ⟨rfl, rfl⟩ | ⟨-, hc'⟩
  · rcases hdec k hk with h | ⟨hok, h⟩
    · exact .inl ⟨c, hc, h⟩
    · exact .inr ⟨hok, rfl, h⟩
  · exact .inl ⟨c', hc', hk⟩

lemma decrypted_abort (h : c.abort.decrypted = some k) : c.decrypted = some k := by
  unfold Call.abort at h
  split_ifs at h
  · exact h
  · simp [Call.decrypted] at h

lemma decrypted_step {a : Action P} {j : ℕ} {c' : Call P} (hc' : (step computeDekId w a).1.calls[j]? = some c')
    (hk : c'.decrypted = some k) : (∃ c, w.calls[j]? = some c ∧ c.decrypted = some k) ∨
      ∃ c s id, a = .answer j .done ∧ w.callAt j = some (c, s) ∧ c.consuming = some (id, k) := by
  cases a with
  | start agent op now =>
    simp only [step] at hc'
    split at hc'
    · -- the new call is at its start
      obtain ⟨c, hcalls, hnone⟩ : ∃ c : Call P, (w.call computeDekId agent op ‹_› now).calls = w.calls ++ [c] ∧
          c.decrypted = none := by
        cases op <;> exact ⟨_, rfl, rfl⟩
      rw [hcalls] at hc'
      rcases getElem?_append_one hc' with hc' | ⟨-, rfl⟩
      · exact .inl ⟨c', hc', hk⟩
      · rw [hnone] at hk
        cases hk
    · exact .inl ⟨c', hc', hk⟩
  | go i now =>
    simp only [step] at hc'
    split at hc'
    · rename_i c s hcs
      have hc := (callAt_eq_some.1 hcs).1
      exact .inl (((moved_advance hc).decrypted hc hc' hk).resolve_right (by simp))
    · exact .inl ⟨c', hc', hk⟩
  | answer i outcome =>
    simp only [step] at hc'
    split at hc'
    · rename_i c s hcs
      have hc := (callAt_eq_some.1 hcs).1
      have hcalls : (w.request c outcome.applied).calls = w.calls := by
        unfold World.request
        split_ifs <;> rfl
      rcases (moved_answered (hcalls ▸ hc)).decrypted (hcalls ▸ hc) hc' hk with h | ⟨hok, rfl, id, hid⟩
      · exact .inl (hcalls ▸ h)
      · exact .inr ⟨c, s, id, by rw [eq_of_beq hok], hcs, hid⟩
    · exact .inl ⟨c', hc', hk⟩
  | giveUp i applied =>
    simp only [step] at hc'
    split at hc'
    · rename_i c s hcs
      have hc := (callAt_eq_some.1 hcs).1
      rcases getElem?_set_cases hc' with ⟨rfl, rfl⟩ | ⟨-, hc'⟩
      · exact .inl ⟨c, hc, decrypted_abort hk⟩
      · exact .inl ⟨c', hc', hk⟩
    · exact .inl ⟨c', hc', hk⟩
  | restart agent config =>
    simp only [step, getElem?_map] at hc'
    obtain ⟨c, hc, rfl⟩ := map_eq_some_iff.1 hc'
    refine .inl ⟨c, hc, ?_⟩
    split_ifs at hk
    · exact decrypted_abort hk
    · exact hk
  | purgeLocalExpired agent now => exact .inl ⟨c', hc', hk⟩
  | sweepExpired id now =>
    refine .inl ⟨c', ?_, hk⟩
    simp only [step] at hc'
    split at hc'
    · split_ifs at hc' <;> exact hc'
    · exact hc'

lemma not_held_of_lastCopy (hcs : w.callAt i = some (c, s))
    (hid : c.consuming = some (id, k)) (h : LastCopy w (.answer i .done)) :
    ¬ Held (step computeDekId w (.answer i .done)).1 k := by
  obtain ⟨hmem, hstore, hcalls⟩ := h c (callAt_eq_some.1 hcs).1 _ hid
  -- the step erases the record and ends the call
  have hstep : (step computeDekId w (.answer i .done)).1 =
      World.goto { w with store := w.store.erase id } i c (.finished true) := by
    obtain ⟨agent, op, phase⟩ := c
    simp only [step, hcs]
    unfold Call.consuming at hid
    split at hid
    · rename_i hp hop
      obtain rfl : phase = _ := hp
      obtain rfl : op = _ := hop
      obtain ⟨rfl, -⟩ := Prod.mk.inj (Option.some.inj hid)
      rfl
    · cases hid
  rw [hstep]
  rintro (⟨s', hs', hk⟩ | ⟨r, hr, hk⟩ | ⟨c', hc', hk⟩)
  · exact hmem s' hs' hk
  · obtain ⟨hr, hne⟩ := Table.mem_filter.1 hr
    exact hstore r hr (of_decide_eq_true hne) hk
  · obtain ⟨j, hj⟩ := mem_iff_getElem?.1 hc'
    rcases getElem?_set_cases hj with ⟨-, rfl⟩ | ⟨hij, hj⟩
    · simp [Call.hasCopy] at hk
    · have := hcalls c' (mem_eraseIdx_iff_getElem?.2 ⟨j, hij, hj⟩)
      rw [this] at hk
      cases hk

structure UseInv (w : World P) : Prop where
  once : DecryptedOnce w
  gone : ∀ c ∈ w.calls, ∀ k, c.decrypted = some k → ¬ Held w k

lemma useInv_start (configs : List TransitConfig) : UseInv (World.start P configs) where
  once := fun i j c c' k hc => by simp [World.start] at hc
  gone := fun c hc => by cases hc

lemma useInv_step {a : Action P} (h : UseInv w) (hfresh : FreshDek w a) (hlast : LastCopy w a) :
    UseInv (step computeDekId w a).1 where
  once := by
    intro i j c c' k hc hc' hk hk'
    -- a call that consumes the key holds it, so no call before it has decrypted with it
    have hheld : ∀ {i : ℕ} {c : Call P} {s : TransitService} {id : Id}, w.callAt i = some (c, s) →
        c.consuming = some (id, k) → Held w k := fun hcs hid =>
      .of_call (callAt_eq_some.1 hcs).1 (Call.hasCopy_of_consuming hid)
    rcases decrypted_step hc hk with ⟨d, hd, hdk⟩ | ⟨d, s, id, ha, hds, hid⟩ <;>
      rcases decrypted_step hc' hk' with ⟨d', hd', hdk'⟩ | ⟨d', s', id', ha', hds', hid'⟩
    · exact h.once i j d d' k hd hd' hdk hdk'
    · exact absurd (hheld hds' hid') (h.gone d (mem_of_getElem? hd) k hdk)
    · exact absurd (hheld hds hid) (h.gone d' (mem_of_getElem? hd') k hdk')
    · have := ha.symm.trans ha'
      cases this
      rfl
  gone := by
    intro c hc k hk hheld
    obtain ⟨j, hj⟩ := mem_iff_getElem?.1 hc
    rcases decrypted_step hj hk with ⟨d, hd, hdk⟩ | ⟨d, s, id, rfl, hds, hid⟩
    · rcases held_step hheld with hheld | hmakes
      · exact h.gone d (mem_of_getElem? hd) k hdk hheld
      unfold Action.Makes at hmakes
      split at hmakes
      · exact hfresh d (mem_of_getElem? hd) (hmakes ▸ Call.dek_of_decrypted hdk)
      · exact hmakes
    · exact not_held_of_lastCopy hds hid hlast hheld

end

/-! ### Runs -/

/-- The ids of the two wrappings in the runs below. -/
def idOfNonce (packet : DekPacket) : Id := if packet.nonce = 1 then "a" else "b"

def twoAgents : List TransitConfig := [⟨"kek", [], 3600⟩, ⟨"kek", [], 3600⟩]

/-- The ciphertext that an encryption under the key 7 gives. -/
def secret : Sealed String := ⟨some "a", some "kek", 7, "ctx", "secret"⟩

def encrypting : List (Action String) := [.start 0 (.encryptPersisted 7 1 "secret" "ctx") 0, .go 0 0, .answer 0 .done]

/-- The first agent restarts, the second rewraps the key and decrypts, and the first tries to. -/
def rewrappedRun : List (Action String) :=
  encrypting ++ [.restart 0 ⟨"kek", [], 3600⟩, .start 1 (.rewrapPersisted "a" 2) 1, .go 1 1, .go 1 1, .go 1 1, .go 1 1,
    .go 1 1, .go 1 1, .answer 1 .done, .answer 1 .done, .start 1 (.decryptPersisted secret (some "b") "ctx") 2, .go 2 2,
    .go 2 2, .go 2 2, .go 2 2, .go 2 2, .answer 2 .done,
      .start 0 (.decryptPersisted secret (some "b") "ctx") 3, .go 3 3,
    .go 3 3, .go 3 3, .go 3 3, .go 3 3]

/-- The second agent fetches the key from the store and decrypts; then the first decrypts from its memory. -/
def twoAgentsRun : List (Action String) :=
  encrypting ++ [.start 1 (.decryptPersisted secret none "ctx") 1, .go 1 1, .go 1 1, .go 1 1, .go 1 1, .go 1 1,
    .answer 1 .done, .start 0 (.decryptPersisted secret none "ctx") 2, .go 2 2, .go 2 2, .go 2 2, .answer 2 .done]

/-- Two calls read the entry before one of them removes it. -/
def twoCallsRun : List (Action String) :=
  encrypting ++ [.start 0 (.decryptPersisted secret none "ctx") 1, .start 0 (.decryptPersisted secret none "ctx") 1,
    .go 1 1, .go 1 1, .go 2 1, .go 2 1, .go 1 1, .answer 1 .done, .go 2 1, .answer 2 .done]

end Coord.Security.Transit
