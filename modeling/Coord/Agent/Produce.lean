import Coord.Lib.Trace
import Coord.Raft.TypeConfig

/-!
# Replicated messages

The leader of a topic takes the next sequence number and the next offset, writes the message with its entry of the
replication log, and pushes the entry to the followers in sync. Each read is a transaction of its own,
and so is the write.

sync
  and a key is used again after a success only.

The runs are those of one topic and its leader.
-/

namespace Coord.Agent.Produce

open Coord.Lib Function List

/-! ### Rows -/

/-- The key of a message's entry: `mq:publish:topic:partition:offset` and the time. -/
structure IdempotencyKey where
  partition : ℕ
  offset : ℕ
  timestampMs : ℕ
  deriving DecidableEq

structure ReplicationEntry where
  idempotencyKey : IdempotencyKey
  sequenceNum : ℕ
  partition : ℕ
  offset : ℕ
  payload : Bytes
  deriving DecidableEq

/-- The next offset of each partition, the messages, the replication log, the keys of the entries that were applied, the
last sequence number, and the offsets of the producers' keys with whether their table was ever made. -/
structure Rows where
  nextOffset : ℕ → ℕ
  messages : ℕ × ℕ → Option Bytes
  entries : ℕ → Option ReplicationEntry
  appliedKeys : List IdempotencyKey
  localSeq : ℕ
  idempotency : ℕ × Bytes → Option ℕ
  keyTable : Bool

namespace Rows

def empty : Rows := ⟨fun _ => 0, fun _ => none, fun _ => none, [], 0, fun _ => none, false⟩

def nextSequence (s : Rows) : ℕ := s.localSeq + 1

def writeReplBookkeepingTx (s : Rows) (e : ReplicationEntry) : Rows :=
  { s with
    entries := update s.entries e.sequenceNum (some e)
    appliedKeys := e.idempotencyKey :: s.appliedKeys
    localSeq := max s.localSeq e.sequenceNum }

/-- The message, the offset behind it and the bookkeeping. -/
def publish (s : Rows) (e : ReplicationEntry) : Rows :=
  { s with
    nextOffset := update s.nextOffset e.partition (max (s.nextOffset e.partition) (e.offset + 1))
    messages := update s.messages (e.partition, e.offset) (some e.payload) }.writeReplBookkeepingTx e

def replicatedPublishLocal (s : Rows) (e : ReplicationEntry) : Option Bytes → Rows
  | none => s.publish e
  | some key =>
    { s.publish e with
      idempotency := update s.idempotency (e.partition, key) (some e.offset)
      keyTable := true }

/-- A follower applies an entry, unless it has applied one with its key. -/
def applyMqPublish (s : Rows) (e : ReplicationEntry) : Rows :=
  if e.idempotencyKey ∈ s.appliedKeys then s else s.publish e

def Holds (s : Rows) (e : ReplicationEntry) : Prop :=
  s.entries e.sequenceNum = some e ∧ s.messages (e.partition, e.offset) = some e.payload

end Rows

/-! ### Calls -/

/-- Where a call stands; `members` are the followers that were in sync when it began to push, `todo` those it has not
pushed to, and `acked` those that have acknowledged. -/
inductive Phase (φ : Type) where
  | idle
  | started
  | checked
  | sequenced (seq : ℕ)
  | allocated (e : ReplicationEntry)
  | written (e : ReplicationEntry)
  | pushing (e : ReplicationEntry) (members todo acked : List φ)
  | replayed (offset : ℕ)
  | succeeded (e : ReplicationEntry) (members acked : List φ)
  | failed (e : Option ReplicationEntry)
  deriving DecidableEq

structure Call (φ : Type) where
  partition : ℕ
  payload : Bytes
  key : Option Bytes
  phase : Phase φ

/-- The entry that the call has written. -/
def Call.entry {φ : Type} (c : Call φ) : Option ReplicationEntry :=
  match c.phase with
  | .written e => some e
  | .pushing e .. => some e
  | .succeeded e .. => some e
  | .failed e => e
  | _ => none

/-- The call has a number that is not written yet. -/
def Call.allocating {φ : Type} (c : Call φ) : Bool :=
  match c.phase with
  | .sequenced _ => true
  | .allocated _ => true
  | _ => false

def Call.answer {φ : Type} (c : Call φ) : Option ℕ :=
  match c.phase with
  | .replayed offset => some offset
  | .succeeded e .. => some e.offset
  | _ => none

/-- The topic's settings and the number of replicas that a message needs. -/
structure Config where
  partitions : ℕ
  maxMessageSize : ℕ
  minIsr : ℕ

/-- A leader with its followers, those in sync, the number of its peers, and the calls. -/
structure World (ι φ : Type) where
  leader : Rows
  follower : φ → Rows
  isr : List φ
  peers : ℕ
  calls : ι → Call φ

def World.start {ι φ : Type} (keyTable : Bool) : World ι φ :=
  ⟨{ Rows.empty with keyTable }, fun _ => .empty, [], 0, fun _ => ⟨0, [], none, .idle⟩⟩

def effectiveMinIsr {ι φ : Type} (cfg : Config) (w : World ι φ) : ℕ := max (min cfg.minIsr (1 + w.peers)) 1

inductive Action (ι φ : Type) where
  | produce (i : ι) (partition : ℕ) (payload : Bytes) (key : Option Bytes)
  /-- The next step of a call, at a time; a push is acknowledged or not. -/
  | go (i : ι) (nowMs : ℕ) (ok : Bool)
  /-- An entry that was written arrives at a follower: late, again, or pulled by it. -/
  | arrive (i : ι) (f : φ)
  /-- A request fails: the storage, the quota, or the caller that goes away. -/
  | fail (i : ι)
  | membership (isr : List φ) (peers : ℕ)

section

variable {ι φ : Type} [DecidableEq ι] [DecidableEq φ]

def World.setPhase (w : World ι φ) (i : ι) (phase : Phase φ) : World ι φ :=
  { w with calls := update w.calls i { w.calls i with phase } }

def World.arrive (w : World ι φ) (f : φ) (e : ReplicationEntry) : World ι φ :=
  { w with follower := update w.follower f ((w.follower f).applyMqPublish e) }

/-- The next step of a call. -/
def World.advance (cfg : Config) (w : World ι φ) (i : ι) (nowMs : ℕ) (ok : Bool) : World ι φ :=
  let c := w.calls i
  match c.phase with
  | .started =>
    match c.key with
    | none => w.setPhase i .checked
    | some key =>
      -- a read of a table that was never made fails
      if w.leader.keyTable = false then w.setPhase i (.failed none)
      else
        match w.leader.idempotency (c.partition, key) with
        | some offset => w.setPhase i (.replayed offset)
        | none => w.setPhase i .checked
  | .checked => w.setPhase i (.sequenced w.leader.nextSequence)
  | .sequenced seq =>
    let offset := w.leader.nextOffset c.partition
    w.setPhase i (.allocated ⟨⟨c.partition, offset, nowMs⟩, seq, c.partition, offset, c.payload⟩)
  | .allocated e => { w with leader := w.leader.replicatedPublishLocal e c.key }.setPhase i (.written e)
  | .written e => w.setPhase i (.pushing e w.isr w.isr [])
  | .pushing e members (f :: todo) acked =>
    if ok then (w.arrive f e).setPhase i (.pushing e members todo (acked ++ [f]))
    else w.setPhase i (.pushing e members todo acked)
  | .pushing e members [] acked =>
    w.setPhase i (if effectiveMinIsr cfg w ≤ acked.length + 1 then .succeeded e members acked else .failed (some e))
  | _ => w

def step (cfg : Config) (w : World ι φ) : Action ι φ → World ι φ × Unit
  | .produce i partition payload key =>
    if (w.calls i).phase = .idle ∧ partition < cfg.partitions ∧ payload.length ≤ cfg.maxMessageSize then
      let call := ⟨partition, payload, key.filter fun k => decide (k ≠ []), .started⟩
      ({ w with calls := update w.calls i call }, ())
    else (w, ())
  | .go i nowMs ok => (w.advance cfg i nowMs ok, ())
  | .arrive i f =>
    match (w.calls i).entry with
    | some e => (w.arrive f e, ())
    | none => (w, ())
  | .fail i => if (w.calls i).answer = none then (w.setPhase i (.failed (w.calls i).entry), ()) else (w, ())
  | .membership isr peers => ({ w with isr := isr.dedup, peers }, ())

end

/-! ### What the rows hold -/

/-- The numbers of the entries differ. -/
def ReplicationEntry.Apart (e e' : ReplicationEntry) : Prop :=
  e.sequenceNum ≠ e'.sequenceNum ∧ (e.partition, e.offset) ≠ (e'.partition, e'.offset)

lemma ReplicationEntry.Apart.symm {e e' : ReplicationEntry} (h : e.Apart e') : e'.Apart e := ⟨h.1.symm, h.2.symm⟩

namespace Rows

variable {s : Rows} {e e' : ReplicationEntry}

lemma holds_publish : (s.publish e).Holds e := by
  simp [Holds, publish, writeReplBookkeepingTx]

lemma Holds.publish (h : s.Holds e) (ha : e.Apart e') : (s.publish e').Holds e := by
  simpa [Holds, Rows.publish, writeReplBookkeepingTx, update_of_ne ha.1, update_of_ne ha.2] using h

/-- The write of an entry `e` beside an entry `e'` that is there or is `e` itself. -/
lemma replicatedPublishLocal_spec (key : Option Bytes) (h : e' = e ∨ s.Holds e' ∧ e'.Apart e ∧
    e'.sequenceNum ≤ s.localSeq ∧ e'.offset < s.nextOffset e'.partition) :
    let s' := s.replicatedPublishLocal e key
    s'.Holds e' ∧ e'.sequenceNum ≤ s'.localSeq ∧ e'.offset < s'.nextOffset e'.partition := by
  have hp : (s.publish e).Holds e' ∧ e'.sequenceNum ≤ (s.publish e).localSeq ∧
      e'.offset < (s.publish e).nextOffset e'.partition := by
    obtain rfl | ⟨hold, ha, hseq, hoff⟩ := h
    · exact ⟨holds_publish, by simp [publish, writeReplBookkeepingTx]⟩
    · refine ⟨hold.publish ha, hseq.trans (le_max_left ..), ?_⟩
      simp only [publish, writeReplBookkeepingTx, update_apply]
      split
      · next hp => rw [hp] at hoff; omega
      · exact hoff
  cases key <;> exact hp

end Rows

/-- The entry is the call's, and its key has the offset. -/
def ReplicationEntry.Of {φ : Type} (e : ReplicationEntry) (c : Call φ) : Prop :=
  e.partition = c.partition ∧ e.payload = c.payload ∧
    e.idempotencyKey.partition = e.partition ∧ e.idempotencyKey.offset = e.offset

/-- The numbers of a call that are not written are the next ones. -/
def Call.Next {φ : Type} (c : Call φ) (s : Rows) : Prop :=
  match c.phase with
  | .sequenced seq => seq = s.localSeq + 1
  | .allocated e => e.Of c ∧ e.sequenceNum = s.localSeq + 1 ∧ e.offset = s.nextOffset e.partition
  | _ => True

/-- The followers that acknowledged are different members and hold the entry. -/
def Call.Acked {φ : Type} (c : Call φ) (follower : φ → Rows) : Prop :=
  match c.phase with
  | .pushing e members todo acked =>
    (acked ++ todo).Nodup ∧ (∀ f ∈ acked ++ todo, f ∈ members) ∧ ∀ f ∈ acked, (follower f).Holds e
  | .succeeded e members acked => acked.Nodup ∧ (∀ f ∈ acked, f ∈ members) ∧ ∀ f ∈ acked, (follower f).Holds e
  | _ => True

/-- The entry of a call is at the leader, its numbers below the next ones. -/
structure Call.Ok {φ : Type} (c : Call φ) (s : Rows) (follower : φ → Rows) : Prop where
  entry : ∀ e, c.entry = some e →
    e.Of c ∧ s.Holds e ∧ e.sequenceNum ≤ s.localSeq ∧ e.offset < s.nextOffset e.partition
  next : c.Next s
  acked : c.Acked follower

/-- What serial calls keep. -/
structure Inv {ι φ : Type} (w : World ι φ) : Prop where
  calls : ∀ i, (w.calls i).Ok w.leader w.follower
  apart : ∀ i j e e', (w.calls i).entry = some e → (w.calls j).entry = some e' → i ≠ j → e.Apart e'
  alone : ∀ i j, (w.calls i).allocating = true → (w.calls j).allocating = true → i = j
  applied : ∀ f, ∀ key ∈ (w.follower f).appliedKeys,
    ∃ i e, (w.calls i).entry = some e ∧ e.idempotencyKey = key ∧ (w.follower f).Holds e
  isr : w.isr.Nodup

section

variable {ι φ : Type} {w : World ι φ}

lemma inv_start (keyTable : Bool) : Inv (World.start keyTable : World ι φ) where
  calls _ := ⟨nofun, trivial, trivial⟩
  apart := by simp [World.start, Call.entry]
  alone := by simp [World.start, Call.allocating]
  applied := by simp [World.start, Rows.empty]
  isr := nodup_nil

variable {c : Call φ}

lemma Call.next_of_not_allocating {s : Rows} (h : c.allocating = false) : c.Next s := by
  unfold Call.Next Call.allocating at *
  cases hp : c.phase with
  | sequenced seq => simp [hp] at h
  | allocated e => simp [hp] at h
  | _ => trivial

lemma Call.Acked.of_holds {follower follower' : φ → Rows} (h : c.Acked follower)
    (hf : ∀ f e, c.entry = some e → (follower f).Holds e → (follower' f).Holds e) : c.Acked follower' := by
  unfold Call.Acked Call.entry at *
  cases hp : c.phase with
  | pushing e members todo acked =>
    simp only [hp] at h hf ⊢
    exact ⟨h.1, h.2.1, fun f hm => hf f e rfl (h.2.2 f hm)⟩
  | succeeded e members acked =>
    simp only [hp] at h hf ⊢
    exact ⟨h.1, h.2.1, fun f hm => hf f e rfl (h.2.2 f hm)⟩
  | _ => trivial

/-- How many of the followers are in sync. -/
def World.inSync [DecidableEq φ] (w : World ι φ) (fs : List φ) : ℕ := (fs.filter fun f => decide (f ∈ w.isr)).length

/-- The call has succeeded at the offset, with enough replicas that are in sync now. -/
def Call.secures [DecidableEq φ] (cfg : Config) (w : World ι φ) (partition offset : ℕ) (c : Call φ) : Bool :=
  match c.phase with
  | .succeeded e _ acked => e.partition = partition ∧ e.offset = offset ∧ effectiveMinIsr cfg w ≤ w.inSync acked + 1
  | _ => false

/-- The leader and enough of the followers that are in sync hold the entry of the offset. -/
def Replicated (cfg : Config) (w : World ι φ) (partition offset : ℕ) : Prop :=
  ∃ (i : ι) (e : ReplicationEntry) (holders : List φ), (w.calls i).entry = some e ∧ e.partition = partition ∧
    e.offset = offset ∧
    w.leader.Holds e ∧ holders.Nodup ∧ (∀ f ∈ holders, f ∈ w.isr ∧ (w.follower f).Holds e) ∧
      effectiveMinIsr cfg w ≤ holders.length + 1

lemma Inv.replicated [DecidableEq φ] {cfg : Config} {j : ι} {partition offset : ℕ} (h : Inv w)
    (hs : (w.calls j).secures cfg w partition offset = true) : Replicated cfg w partition offset := by
  have hacked := (h.calls j).acked
  cases hp : (w.calls j).phase with
  | succeeded e members acked =>
    simp only [Call.secures, Call.Acked, hp, decide_eq_true_eq] at hs hacked
    have he : (w.calls j).entry = some e := by simp [Call.entry, hp]
    refine ⟨j, e, acked.filter fun f => decide (f ∈ w.isr), he, hs.1, hs.2.1, ((h.calls j).entry e he).2.1,
      hacked.1.filter _, fun f hf => ?_, hs.2.2⟩
    rw [mem_filter, decide_eq_true_eq] at hf
    exact ⟨hf.2, hacked.2.2 f hf.1⟩
  | _ => simp [Call.secures, hp] at hs

variable [DecidableEq ι]

lemma answer_update {i j : ι} {offset : ℕ} (hb : (w.calls i).answer = none)
    (ha : (update w.calls j c i).answer = some offset) : i = j ∧ c.answer = some offset := by
  rw [update_apply] at ha
  split at ha
  · next hij => exact ⟨hij, ha⟩
  · rw [hb] at ha
    cases ha

variable {i : ι}

lemma Inv.setCall (h : Inv w) (he : c.entry = (w.calls i).entry)
    (hc : c.Ok w.leader w.follower) (halone : c.allocating = true → ∀ j, (w.calls j).allocating = true → j = i) :
    Inv { w with calls := update w.calls i c } := by
  have hentry (j : ι) : (update w.calls i c j).entry = (w.calls j).entry := by
    rw [update_apply]
    split
    · next hj => rw [hj, he]
    · rfl
  refine ⟨(forall_update_iff _ fun _ (c : Call φ) => c.Ok w.leader w.follower).2 ⟨hc, fun j _ => h.calls j⟩,
    fun j k e e' hj hk => h.apart j k e e' (hentry j ▸ hj) (hentry k ▸ hk), fun j k hj hk => ?_,
      fun f key hf => ?_, h.isr⟩
  · dsimp only at hj hk
    rw [update_apply] at hj hk
    split at hj <;> split at hk
    · next hji hki => rw [hji, hki]
    · next hji _ => rw [hji, halone hj k hk]
    · next _ hki => rw [hki, halone hk j hj]
    · exact h.alone j k hj hk
  · obtain ⟨j, e, hj, hrest⟩ := h.applied f key hf
    exact ⟨j, e, (hentry j).trans hj, hrest⟩

lemma Inv.setPhase (h : Inv w) {phase : Phase φ} (hc : c = { w.calls i with phase })
    (he : c.entry = (w.calls i).entry) (hacked : c.Acked w.follower) (hnext : c.Next w.leader)
    (halone : c.allocating = true → ∀ j, (w.calls j).allocating = true → j = i) : Inv (w.setPhase i phase) := by
  subst hc
  exact h.setCall he ⟨fun e hi => (h.calls i).entry e (he ▸ hi), hnext, hacked⟩ halone

variable {e : ReplicationEntry}

lemma Inv.applyMqPublish (h : Inv w) (hi : (w.calls i).entry = some e) (f : φ) :
    ((w.follower f).applyMqPublish e).Holds e ∧
      ∀ j e', (w.calls j).entry = some e' → (w.follower f).Holds e' → ((w.follower f).applyMqPublish e).Holds e' := by
  unfold Rows.applyMqPublish
  split
  · next hk =>
    refine ⟨?_, fun _ _ _ hold => hold⟩
    obtain ⟨j, e₁, hj, hkey, hold⟩ := h.applied f _ hk
    -- the key has the partition and the offset, so it is the key of one call
    by_cases hij : i = j
    · subst hij
      cases hi.symm.trans hj
      exact hold
    · obtain ⟨_, _, hp, ho⟩ := ((h.calls i).entry e hi).1
      obtain ⟨_, _, hp', ho'⟩ := ((h.calls j).entry e₁ hj).1
      have hne := (h.apart i j e e₁ hi hj hij).2
      rw [← hp, ← ho, ← hp', ← ho', hkey] at hne
      exact absurd rfl hne
  · refine ⟨Rows.holds_publish, fun j e' hj hold => ?_⟩
    by_cases hij : i = j
    · subst hij
      cases hi.symm.trans hj
      exact Rows.holds_publish
    · exact hold.publish (h.apart i j e e' hi hj hij).symm

lemma Inv.write (h : Inv w) (hi : (w.calls i).phase = .allocated e)
    (key : Option Bytes) : Inv ({ w with leader := w.leader.replicatedPublishLocal e key }.setPhase i (.written
      e)) := by
  have hnext := (h.calls i).next
  simp only [Call.Next, hi] at hnext
  obtain ⟨hof, hseq, hoff⟩ := hnext
  have hkept {j : ι} {e' : ReplicationEntry} (hj : (w.calls j).entry = some e') : e'.Apart e := by
    obtain ⟨-, -, hs, ho⟩ := (h.calls j).entry e' hj
    refine ⟨by omega, fun heq => ?_⟩
    rw [Prod.mk.injEq] at heq
    rw [heq.1, heq.2] at ho
    omega
  have hbefore {j : ι} (hj : j ≠ i) : (w.calls j).allocating = false :=
    Bool.eq_false_iff.2 fun ha => hj (h.alone j i ha (by simp [Call.allocating, hi]))
  set c : Call φ := { w.calls i with phase := .written e }
  have hentry {j : ι} {e' : ReplicationEntry} (hj : (update w.calls i c j).entry = some e') :
      j = i ∧ e' = e ∨ (w.calls j).entry = some e' := by
    rw [update_apply] at hj
    split at hj
    · next hji => exact .inl ⟨hji, (Option.some.inj hj).symm⟩
    · exact .inr hj
  refine ⟨(forall_update_iff _ fun _ (c : Call φ) => c.Ok _ w.follower).2
    ⟨⟨fun e' he' => ?_, trivial, trivial⟩, fun j hji =>
      ⟨fun e' hj => ?_, Call.next_of_not_allocating (hbefore hji), (h.calls j).acked⟩⟩,
    fun j k e₁ e₂ hj hk hjk => ?_, fun j k hj hk => ?_, fun f k hf => ?_, h.isr⟩
  · cases he'
    exact ⟨hof, Rows.replicatedPublishLocal_spec key (.inl rfl)⟩
  · obtain ⟨ho, hh, hs, hlt⟩ := (h.calls j).entry e' hj
    exact ⟨ho, Rows.replicatedPublishLocal_spec key (.inr ⟨hh, hkept hj, hs, hlt⟩)⟩
  · obtain ⟨rfl, rfl⟩ | hj' := hentry hj <;> obtain ⟨rfl, rfl⟩ | hk' := hentry hk
    · exact absurd rfl hjk
    · exact (hkept hk').symm
    · exact hkept hj'
    · exact h.apart j k e₁ e₂ hj' hk' hjk
  · have hne {j : ι} (hj : (update w.calls i c j).allocating = true) : False := by
      rw [update_apply] at hj
      split at hj
      · cases hj
      · next hji => simp [hbefore hji] at hj
    exact (hne hj).elim
  · obtain ⟨j, e', hj, hrest⟩ := h.applied f k hf
    have hji : j ≠ i := fun hji => by simp [hji, Call.entry, hi] at hj
    exact ⟨j, e', by simpa [World.setPhase, hji] using hj, hrest⟩

variable [DecidableEq φ]

lemma Inv.holds_arrive (h : Inv w) {i j : ι} {e e' : ReplicationEntry} (hi : (w.calls i).entry = some e)
    (hj : (w.calls j).entry = some e') {f g : φ} (hg : g = f ∧ e' = e ∨ (w.follower g).Holds e') :
    ((w.arrive f e).follower g).Holds e' := by
  by_cases hfg : g = f
  · subst hfg
    simp only [World.arrive, update_self]
    obtain ⟨-, rfl⟩ | hg := hg
    · exact (h.applyMqPublish hi g).1
    · exact (h.applyMqPublish hi g).2 j e' hj hg
  · simpa [World.arrive, hfg] using hg

lemma Inv.arrive (h : Inv w) (hi : (w.calls i).entry = some e) (f : φ) :
    Inv (w.arrive f e) := by
  refine { h with
    applied := fun g key hg => ?_
    calls := fun j => { h.calls j with
      acked := (h.calls j).acked.of_holds fun g e' hj hg => h.holds_arrive hi hj (.inr hg) } }
  have hkey : key ∈ (w.follower g).appliedKeys ∨ g = f ∧ e.idempotencyKey = key := by
    by_cases hfg : g = f
    · subst hfg
      simp only [World.arrive, update_self, Rows.applyMqPublish] at hg
      split at hg
      · exact .inl hg
      · exact (mem_cons.1 hg).elim (fun hk => .inr ⟨rfl, hk.symm⟩) .inl
    · simpa [World.arrive, hfg] using hg
  obtain hk | ⟨rfl, hk⟩ := hkey
  · obtain ⟨j, e', hj, hrest, hh⟩ := h.applied g key hk
    exact ⟨j, e', hj, hrest, h.holds_arrive hi hj (.inr hh)⟩
  · exact ⟨i, e, hi, hk, h.holds_arrive hi hi (.inl ⟨rfl, rfl⟩)⟩

/-- No call takes a sequence number while another has numbers that are not written. -/
def Serial (w : World ι φ) : Action ι φ → Prop
  | .go i .. => (w.calls i).phase = .checked → ∀ j, (w.calls j).allocating = false
  | _ => True

instance [Fintype ι] (w : World ι φ) : (a : Action ι φ) → Decidable (Serial w a)
  | .go .. => inferInstanceAs (Decidable (_ → _))
  | .produce .. | .arrive .. | .fail .. | .membership .. => isTrue trivial

theorem Inv.advance (cfg : Config) (h : Inv w) {nowMs : ℕ} {ok : Bool} (hs : Serial w (.go i nowMs ok)) :
    Inv (w.advance cfg i nowMs ok) := by
  have hnext := (h.calls i).next
  have hacked := (h.calls i).acked
  simp only [Call.Next, Call.Acked] at hnext hacked
  dsimp only [World.advance]
  cases hp : (w.calls i).phase with
  | started =>
    dsimp only
    split
    · exact h.setPhase rfl (by simp [Call.entry, hp]) trivial trivial nofun
    · split
      · exact h.setPhase rfl (by simp [Call.entry, hp]) trivial trivial nofun
      · split <;> exact h.setPhase rfl (by simp [Call.entry, hp]) trivial trivial nofun
  | checked =>
    refine h.setPhase rfl (by simp [Call.entry, hp]) trivial rfl fun _ j hj => ?_
    simp [hs hp j] at hj
  | sequenced seq =>
    rw [hp] at hnext
    exact h.setPhase rfl (by simp [Call.entry, hp]) trivial ⟨⟨rfl, rfl, rfl, rfl⟩, hnext, rfl⟩
      fun _ j hj => h.alone j i hj (by simp [Call.allocating, hp])
  | allocated e => exact h.write hp _
  | written e => exact h.setPhase rfl (by simp [Call.entry, hp]) ⟨h.isr, by simp, by simp⟩ trivial nofun
  | pushing e members todo acked =>
    have hi : (w.calls i).entry = some e := by simp [Call.entry, hp]
    rw [hp] at hacked
    obtain ⟨hnodup, hmem, hold⟩ := hacked
    cases todo with
    | nil =>
      simp only [append_nil] at hnodup hmem
      dsimp only
      split
      · exact h.setPhase rfl hi.symm ⟨hnodup, hmem, hold⟩ trivial nofun
      · exact h.setPhase rfl hi.symm trivial trivial nofun
    | cons f todo =>
      cases ok with
      | true =>
        refine (h.arrive hi f).setPhase rfl hi.symm
          ⟨by simpa using hnodup, by simpa using hmem, fun g hg => h.holds_arrive hi hi ?_⟩ trivial nofun
        rcases mem_append.1 hg with hg | hg
        · exact .inr (hold g hg)
        · exact .inl ⟨mem_singleton.1 hg, rfl⟩
      | false =>
        refine h.setPhase rfl hi.symm ⟨hnodup.sublist (by simp), fun g hg => hmem g ?_, hold⟩ trivial nofun
        exact List.Sublist.subset (by simp) hg
  | _ => exact h

lemma Inv.keeps (cfg : Config) (h : Inv w) {a : Action ι φ} (hs : Serial w a) : Inv (step cfg w a).1 := by
  cases a with
  | go i nowMs ok => exact h.advance cfg hs
  | produce i partition payload key =>
    simp only [step]
    split
    · next hi => exact h.setCall (by simp [Call.entry, hi.1]) ⟨nofun, trivial, trivial⟩ nofun
    · exact h
  | arrive i f =>
    simp only [step]
    split
    · next hi => exact h.arrive hi f
    · exact h
  | fail i =>
    simp only [step]
    split
    · exact h.setPhase rfl rfl trivial trivial nofun
    · exact h
  | membership isr peers => exact { h with isr := nodup_dedup isr }

/-- **Numbers of their own.**  After a serial run the acknowledged messages have different offsets and sequence numbers,
and each is stored at its offset. -/
theorem acknowledged_apart (cfg : Config) (keyTable : Bool) (as : List (Action ι φ))
    (h : Along (step cfg) Serial (World.start keyTable) as) {i : ι} {e : ReplicationEntry} {members acked : List φ}
    (hi : ((exec (step cfg) (World.start keyTable) as).calls i).phase = .succeeded e members acked) :
    let w := exec (step cfg) (World.start keyTable) as
    (e.partition = (w.calls i).partition ∧
      w.leader.messages ((w.calls i).partition, e.offset) = some (w.calls i).payload) ∧
    ∀ j e' members' acked', j ≠ i → (w.calls j).phase = .succeeded e' members' acked' →
      ((w.calls j).partition, e'.offset) ≠ ((w.calls i).partition, e.offset) ∧ e'.sequenceNum ≠ e.sequenceNum := by
  have hinv := (along_inv Inv Serial (inv_start _) h fun _ _ hs hw => hw.keeps cfg hs).1
  generalize exec (step cfg) (World.start keyTable) as = w at hi hinv
  have hei : (w.calls i).entry = some e := by simp [Call.entry, hi]
  obtain ⟨⟨hp, hpay, -⟩, hh, -⟩ := (hinv.calls i).entry e hei
  refine ⟨⟨hp, hp ▸ hpay ▸ hh.2⟩, fun j e' members' acked' hj hphase => ?_⟩
  have hej : (w.calls j).entry = some e' := by simp [Call.entry, hphase]
  obtain ⟨⟨hp', -⟩, -⟩ := (hinv.calls j).entry e' hej
  obtain ⟨hseq, hoff⟩ := hinv.apart j i e' e hej hei hj
  exact ⟨hp ▸ hp' ▸ hoff, hseq⟩

/-- Two calls, one after the other. -/
def oneByOne : List (Action Bool Unit) :=
  [.produce false 0 [1] none, .produce true 0 [2] none] ++ List.replicate 6 (.go false 0 true) ++
    List.replicate 6 (.go true 0 true)

theorem acknowledged_apart_one_by_one :
    let w := exec (step ⟨1, 8, 1⟩) (World.start true) oneByOne
    (w.calls false).answer = some 0 ∧ (w.calls true).answer = some 1 ∧
      w.leader.messages ((w.calls false).partition, 0) = some (w.calls false).payload ∧
        ((w.calls true).partition, 1) ≠ ((w.calls false).partition, 0) :=
  have h := acknowledged_apart ⟨1, 8, 1⟩ true oneByOne (by decide +kernel) (i := false) rfl
  ⟨rfl, rfl, h.1.2, (h.2 true _ [] [] nofun rfl).1⟩

/-- Two calls that read the numbers before either writes. -/
theorem acknowledged_same_offset :
    let w := exec (step ⟨1, 8, 1⟩) (World.start true : World Bool Unit) ([.produce false 0 [1] none,
      .produce true 0 [2] none] ++ (List.replicate 6 [.go false 0 true, .go true 0 true]).flatten)
    (w.calls false).answer = some 0 ∧ (w.calls true).answer = some 0 ∧
      (w.calls false).entry.map (·.sequenceNum) = some 1 ∧ (w.calls true).entry.map (·.sequenceNum) = some 1 ∧
        (w.calls false).payload = [1] ∧ w.leader.messages (0, 0) = some [2] := by
  decide +kernel

/-- When a call counts its acknowledgements, enough of those followers are in sync; and a key is used again only when a
call has succeeded at its offset, with enough followers that are in sync now. -/
def Settled (cfg : Config) (w : World ι φ) : Action ι φ → Prop
  | .go i .. =>
    match (w.calls i).phase with
    | .pushing _ _ [] acked => effectiveMinIsr cfg w ≤ acked.length + 1 → effectiveMinIsr cfg w ≤ w.inSync acked + 1
    | .started => ∀ key ∈ (w.calls i).key, ∀ offset ∈ w.leader.idempotency ((w.calls i).partition, key),
        ∃ j, (w.calls j).secures cfg w (w.calls i).partition offset = true
    | _ => True
  | _ => True

instance [Fintype ι] (cfg : Config) (w : World ι φ) (a : Action ι φ) : Decidable (Settled cfg w a) := by
  unfold Settled
  split
  · split <;> infer_instance
  · infer_instance

lemma Inv.secures_of_answer {cfg : Config} {a : Action ι φ} {offset : ℕ} (h : Inv w) (hs : Settled cfg w a)
    (hb : (w.calls i).answer = none) (ha : ((step cfg w a).1.calls i).answer = some offset) :
    ∃ j, ((step cfg w a).1.calls j).secures cfg (step cfg w a).1 ((step cfg w a).1.calls i).partition
      offset = true := by
  cases a with
  | go j nowMs ok =>
    dsimp only [step, World.advance] at ha ⊢
    cases hp : (w.calls j).phase with
    | started =>
      simp only [hp] at ha ⊢
      cases hk : (w.calls j).key with
      | none =>
        simp only [hk] at ha
        cases (answer_update hb ha).2
      | some key =>
        simp only [hk] at ha ⊢
        split at ha
        · cases (answer_update hb ha).2
        next ht =>
        rw [if_neg ht]
        cases hkey : w.leader.idempotency ((w.calls j).partition, key) with
        | none =>
          simp only [hkey] at ha
          cases (answer_update hb ha).2
        | some o =>
          -- the offset of the key is the one of a call that has succeeded
          simp only [hkey] at ha
          obtain ⟨rfl, ho⟩ := answer_update hb ha
          simp only [Settled, hp] at hs
          obtain ⟨k, hj⟩ := hs key hk o hkey
          have hki : k ≠ i := fun hki => by simp [hki, Call.secures, hp] at hj
          refine ⟨k, ?_⟩
          cases ho
          rw [show (w.setPhase i (.replayed offset)).calls k = w.calls k from update_of_ne hki _ _,
            show ((w.setPhase i (.replayed offset)).calls i).partition = (w.calls i).partition by simp [World.setPhase]]
          exact hj
    | pushing e members todo acked =>
      cases todo with
      | nil =>
        simp only [hp] at ha ⊢
        obtain ⟨rfl, ho⟩ := answer_update hb ha
        split at ho
        · next hle =>
          have hof := ((h.calls i).entry e (by simp [Call.entry, hp])).1
          cases ho
          rw [if_pos hle]
          simp only [Settled, hp] at hs
          refine ⟨i, ?_⟩
          simp only [World.setPhase, update_self, Call.secures, decide_eq_true_eq]
          exact ⟨hof.1, trivial, hs hle⟩
        · cases ho
      | cons f todo =>
        simp only [hp] at ha
        split at ha <;> cases (answer_update hb ha).2
    | _ =>
      simp only [hp] at ha
      first | cases (answer_update hb ha).2 | cases hb.symm.trans ha
  | produce j partition payload key =>
    simp only [step] at ha
    split at ha
    · cases (answer_update hb ha).2
    · cases hb.symm.trans ha
  | arrive j f =>
    simp only [step] at ha
    split at ha <;> cases hb.symm.trans ha
  | fail j =>
    simp only [step] at ha
    split at ha
    · cases (answer_update hb ha).2
    · cases hb.symm.trans ha
  | membership isr peers => cases hb.symm.trans ha

/-- A call with a key, whose push to the only follower is acknowledged or not, and its retry. -/
def retried (acked : Bool) : List (Action Bool Unit) :=
  [.membership [()] 1, .produce false 0 [1] (some [7])] ++ List.replicate 5 (.go false 0 true) ++
    [.go false 0 acked, .go false 0 true, .produce true 0 [1] (some [7]), .go true 0 true]

end

end Coord.Agent.Produce
