import Coord.Lib.Table

/-!
# Commands of the replicated log: the sequencer's part

The payloads that the system Region's log carries for the Commit Sequencer, and the decision it records.
Byte strings are lists of bytes with their lexicographic order, which is the order of the store's keys.
-/

namespace Coord

/-- A byte string; `≤` is the order in which the store iterates its keys. -/
abbrev Bytes := List (Fin 256)

instance neZeroByte : NeZero 256 := ⟨by decide⟩

instance lawfulBEqByte : LawfulBEq (Fin 256) := inferInstance

instance : LawfulBEq Bytes := inferInstance

def ascii (s : String) : Bytes := s.toList.map fun c => Fin.ofNat 256 c.toNat

namespace Raft

inductive SequencerMutation where
  | put (key value : Bytes) (leaseId : Option ℤ)
  | delete (key : Bytes)
  | deleteRange (start stop : Bytes)
  deriving DecidableEq

/-- The key of a point write; a range write has none. -/
def SequencerMutation.pointKey : SequencerMutation → Option Bytes
  | .put key _ _ => some key
  | .delete key => some key
  | .deleteRange _ _ => none

/-- The keys a mutation writes, deletes or range-deletes; an empty `stop` is no upper bound. -/
def SequencerMutation.Writes : SequencerMutation → Bytes → Prop
  | .put key _ _, k => k = key
  | .delete key, k => k = key
  | .deleteRange start stop, k => start ≤ k ∧ (stop = [] ∨ k < stop)

instance (m : SequencerMutation) (k : Bytes) : Decidable (m.Writes k) := by
  cases m <;> (unfold SequencerMutation.Writes; infer_instance)

/-- A range write has an upper bound, as the `Commit` call requires. -/
def SequencerMutation.Bounded : SequencerMutation → Prop
  | .deleteRange _ stop => stop ≠ []
  | _ => True

instance (m : SequencerMutation) : Decidable m.Bounded := by
  cases m <;> (unfold SequencerMutation.Bounded; infer_instance)

/-- A mutation is a point write, which writes its key only, or a range write. -/
lemma SequencerMutation.point_or_range (m : SequencerMutation) :
    (∃ key, m.pointKey = some key ∧ ∀ k, m.Writes k ↔ k = key) ∨ ∃ start stop, m = .deleteRange start stop := by
  cases m with
  | put key v l => exact Or.inl ⟨key, rfl, fun _ => Iff.rfl⟩
  | delete key => exact Or.inl ⟨key, rfl, fun _ => Iff.rfl⟩
  | deleteRange start stop => exact Or.inr ⟨start, stop, rfl⟩

/-- A transaction as the leader proposes it: `commitTs` is already allocated. -/
structure SequencerTxn where
  txnId : Bytes
  startTs : ℕ
  commitTs : ℕ
  requestId : Bytes
  readSet : List Bytes
  mutations : List SequencerMutation
  deriving DecidableEq

/-- The read predicate `[start, stop)`; an empty `stop` is no upper bound. -/
structure SequencerReadRange where
  start : Bytes
  stop : Bytes
  deriving DecidableEq

def SequencerReadRange.Reads (r : SequencerReadRange) (k : Bytes) : Prop :=
  r.start ≤ k ∧ (r.stop = [] ∨ k < r.stop)

structure SequencerTxnWithRanges where
  txn : SequencerTxn
  readRanges : List SequencerReadRange
  deriving DecidableEq

/-- The limits the leader writes into the command; `0` is no limit. -/
structure SequencerValidationLimits where
  maxReadSet : ℕ
  maxRange : ℕ
  deriving DecidableEq

inductive SequencerInvalid where
  | commitTsNotAboveStart
  | missingTxnId
  | readSetTooLarge
  | rangeScanExceeded
  deriving DecidableEq

inductive SequencerOutcome where
  | committed (commitTs : ℕ)
  | conflict (commitTs : ℕ) (conflictKey : Bytes) (conflictTs : ℕ)
  | duplicate (commitTs : ℕ)
  | outOfOrder (commitTs lastCommitTs : ℕ)
  | invalid (commitTs : ℕ) (reason : SequencerInvalid)
  deriving DecidableEq

/-- The commit timestamp of a committed candidate. -/
def SequencerOutcome.committedTs : SequencerOutcome → Option ℕ
  | .committed commitTs => some commitTs
  | _ => none

lemma SequencerOutcome.committedTs_eq_some {o : SequencerOutcome} {c : ℕ} :
    o.committedTs = some c ↔ o = .committed c := by
  cases o <;> simp [committedTs]

inductive SequencerOp where
  | validateAndCommit (txns : List SequencerTxn)
  | validateAndCommitWithRanges (txns : List SequencerTxnWithRanges) (limits : SequencerValidationLimits)
  deriving DecidableEq

end Raft

namespace Storage

structure SequencerDecision where
  txnId : Bytes
  requestId : Bytes
  startTs : ℕ
  commitTs : ℕ
  mutations : List Raft.SequencerMutation
  deriving DecidableEq

structure SequencerIntervalWrite where
  start : Bytes
  stop : Bytes
  commitTs : ℕ
  deriving DecidableEq

end Storage

end Coord
