import Coord.Storage.Kv

/-!
# Fences and watermarks

The safe-ts fence and the commit watermark of the system Region, the revision of a data Region raised without a
write, and the fence against direct writes that a Region carries while a range of it is moved.  The first three only
rise.  Each is guarded by the position of the log: an entry at or below the one recorded last does nothing.
-/

namespace Coord.Storage

namespace Store

def safeTsFence (s : Store) : ℕ := s.safeTsFenceRow.getD 0

def setSafeTsFence (s : Store) (fenceTs : ℕ) (applied : AppliedLogId) : Store × ℕ :=
  let prev := s.safeTsFence
  if s.appliedContains applied then (s, prev)
  else
    let effective := max prev fenceTs
    ({ s with
        safeTsFenceRow := if prev < effective then some effective else s.safeTsFenceRow
        lastApplied := some applied },
      effective)

def commitWatermark (s : Store) : ℕ := s.commitWatermarkRow.getD 0

def publishCommitWatermark (s : Store) (watermark : ℕ) (applied : AppliedLogId) : Store × ℕ :=
  let prev := s.commitWatermark
  if s.appliedContains applied then (s, prev)
  else
    let effective := max prev watermark
    ({ s with
        commitWatermarkRow := if prev < effective then some effective else s.commitWatermarkRow
        lastApplied := some applied },
      effective)

lemma commitWatermark_publish (s : Store) (watermark : ℕ) (applied : AppliedLogId) :
    (s.publishCommitWatermark watermark applied).1.commitWatermark = s.commitWatermark ∨
      (s.publishCommitWatermark watermark applied).1.commitWatermark = watermark := by
  unfold publishCommitWatermark
  dsimp only
  split
  · exact .inl rfl
  split
  · next hlt =>
    refine .inr ?_
    show max s.commitWatermark watermark = watermark
    omega
  · exact .inl rfl

/-- Raise the current revision of a v2 store to `commitTs` without writing a row. -/
def advanceCommitTsWatermark (mode : RevisionMode) (s : Store) (commitTs : ℕ) (applied : AppliedLogId) :
    Store × ℕ :=
  if s.appliedContains applied then (s, s.currentRevision mode)
  else
    let s := s.noteLogIndexRevision mode applied.index
    let current := s.currentRevision mode
    let effective := if mode = .commitTs then max current commitTs else current
    ({ s with
        currentRevisionRow := if current < effective then some effective else s.currentRevisionRow
        lastApplied := some applied },
      effective)

/-! ### The fence against direct writes -/

def fenceDirectWrites (s : Store) (start stop : Bytes) (opId : ℕ) (applied : AppliedLogId) : Store × ℕ :=
  if s.appliedContains applied then (s, (s.directWriteFence.map DirectWriteFence.opId).getD 0)
  else ({ s with directWriteFence := some ⟨start, stop, opId⟩, lastApplied := some applied }, opId)

/-- Only the operator that set the fence clears it, or operator `0`. -/
def clearDirectWriteFence (s : Store) (opId : ℕ) (applied : AppliedLogId) : Store :=
  if s.appliedContains applied then s
  else { s with
    directWriteFence := s.directWriteFence.filter fun fence => !decide (opId = 0 ∨ fence.opId = opId)
    lastApplied := some applied }

/-- Whether the fence is hit: by the key of a point write, or by a range write that meets it. -/
def directWriteFenceHit (s : Store) (key : Bytes) (stop : Option Bytes) : Option ℕ :=
  match s.directWriteFence with
  | none => none
  | some fence =>
    let hit := match stop with
      | none => inRange fence.startKey fence.endKey key
      | some stop =>
        !decide (stop ≠ [] ∧ stop ≤ key) && decide (fence.endKey = [] ∨ key < fence.endKey) &&
          decide (stop = [] ∨ fence.startKey < stop)
    if hit then some fence.opId else none

end Store

end Coord.Storage
