import Coord.Raft.StateMachine
import Coord.Storage.Revisions

/-!
# The footprint of a command

Which rows a command of the log can touch: the writes keep everything but the data tables, and of the other rows each
is written by its own commands.

* `moves_executeCommand` — what a command may do to the revision, the keys and the other rows;
* `Command.outside`, `outside_executeCommand` — no command touches a row outside its footprint;
* `commitLog_executeCommand` — the commands that write to the commit log;
* `applyEntry_cases`, `raises_applyEntry` — an entry is a command, or touches nothing; it does not lower the revision.
-/

namespace Coord.Raft

open Coord.Lib Coord.Storage Store

lemma map_ok {σ ε α β : Type} {f : σ × α → σ × β} {x : Except ε (σ × α)} {s : σ} {b : β} (h : x.map f = .ok (s, b))
    (hf : ∀ a, (f a).1 = a.1 := by exact fun _ => rfl) : ∃ a, x = .ok (s, a) := by
  obtain ⟨⟨t, a⟩, rfl, he⟩ := map_eq_ok h
  obtain rfl : t = s := (hf (t, a)).symm.trans (congrArg Prod.fst he)
  exact ⟨a, rfl⟩

section

variable {mode : RevisionMode} {s s' : Store} {applied : AppliedLogId} {o : Response × Option ChangeEvent}

variable {α : Type} {x : Except Error (Store × α)} {f : Store × α → Applied} {key : Bytes} {stop : Option Bytes}

lemma orRejected_ok (h : orRejected mode s applied (x.map f) = .ok (s', o))
    (hf : ∀ a, (f a).1 = a.1 := by exact fun _ => rfl) : s' = s.setLastApplied mode applied ∨ ∃ a, x = .ok (s', a) := by
  unfold orRejected at h
  split at h
  · cases h
    exact .inl rfl
  · exact .inr (map_ok h hf)

lemma unlessFenced_ok {x : Except Error Applied} (h : unlessFenced mode s applied key stop x = .ok (s', o)) :
    s' = s.setLastApplied mode applied ∧ s.directWriteFenceHit key stop ≠ none ∨
      s.directWriteFenceHit key stop = none ∧ x = .ok (s', o) := by
  unfold unlessFenced at h
  split at h
  · next hhit =>
    cases h
    exact .inl ⟨rfl, by simp [hhit]⟩
  · next hhit => exact .inr ⟨hhit, h⟩

lemma direct_ok (h : unlessFenced mode s applied key stop (orRejected mode s applied (x.map f)) = .ok (s', o))
    (hf : ∀ a, (f a).1 = a.1 := by exact fun _ => rfl) : s' = s.setLastApplied mode applied ∨ ∃ a, x = .ok (s', a) := by
  rcases unlessFenced_ok h with ⟨h, -⟩ | ⟨-, h⟩
  · exact .inl h
  · exact orRejected_ok h hf

end

/-- Blank the rows, outside the data tables, that the command may touch. -/
def Command.blank (t : Store) : Command → Store
  | .leaseV2 _ => { t with leasesV2 := Table.empty, leaseV2Requests := Table.empty }
  | .sequencer _ => { t with seq := SequencerRows.empty }
  | .applyCommitDecisions _ | .applyCommitDecisionsWithLog .. => { t with decisionApplied := none }
  | .commitLogShard _ => { t with shardTableRow := none }
  | .commitLogAppend .. =>
    { t with commitLogCursorRow := none, commitLogCountRow := none, commitLogShipped := Table.empty }
  | .trimCommitLogOutbox .. => { t with trimmedBeforeRow := none }
  | .regionMeta _ => { t with regionTableRow := none }
  | .importRange .. | .importRangePreserveHistory .. =>
    { t with compactedRevisionRow := none, decisionApplied := none, importHistoryFloors := [] }
  | .lease _ => { t with leases := Table.empty }
  | .auth _ => { t with auth := AuthRows.empty }
  | .compact _ => { t with compactedRevisionRow := none }
  | .pd _ => { t with pdOps := Table.empty, pdIntents := Table.empty, regionTableRow := none }
  | .tsoAllocate _ => { t with tsoHighWaterRow := none, tsoLastBatch := none }
  | .publishSafeTs _ => { t with safeTsFenceRow := none }
  | .publishCommitWatermark _ => { t with commitWatermarkRow := none }
  | .fenceDirectWrites .. | .clearDirectWriteFence _ => { t with directWriteFence := none }
  | _ => t

/-- The store without the rows the command may touch. -/
def Command.outside (cmd : Command) (s : Store) : Store := cmd.blank s.rest

def Command.writesLog : Command → Bool
  | .applyCommitDecisions _ | .applyCommitDecisionsWithLog .. | .commitLogAppend .. | .trimCommitLogOutbox .. => true
  | _ => false

lemma Command.blank_dropLog (cmd : Command) (t : Store) : cmd.blank t.dropLog = (cmd.blank t).dropLog := by
  cases cmd <;> rfl

/-- The commands on the rows of the system and the commit log. -/
def Command.isSystem : Command → Bool
  | .leaseV2 _ | .sequencer _ | .commitLogShard _ | .commitLogAppend .. | .trimCommitLogOutbox .. | .regionMeta _
  | .auth _ | .pd _ | .tsoAllocate _ | .publishSafeTs _ | .publishCommitWatermark _ | .advanceSafeTs _
  | .fenceDirectWrites .. | .clearDirectWriteFence _ => true
  | _ => false

section

variable {cfg : Config} {nowMs : ℤ} {s s' : Store} {cmd : Command} {applied : AppliedLogId}
  {o : Response × Option ChangeEvent}

section

variable (h : executeCommand cfg nowMs s cmd applied.index applied = .ok (s', o))
include h

/-- **What a command may do.** It raises the revision, touches no row outside its footprint, and keeps the keys if it is
of the system. -/
theorem moves_executeCommand :
    s.Moves (fun t => cmd.blank (bif cmd.writesLog then t.dropLog else t)) cmd.isSystem cfg.mode applied s' := by
  cases cmd with
  | put key value leaseId =>
    obtain ⟨_, ht⟩ := map_ok h
    exact moves_putAtKey ht
  | delete key =>
    obtain ⟨_, ht⟩ := map_ok h
    exact moves_deleteAtKey ht
  | deleteRange key rangeEnd =>
    obtain ⟨_, ht⟩ := map_ok h
    exact moves_deleteRangeAtKey ht
  | txn compares successOps failureOps =>
    simp only [executeCommand] at h
    split at h
    · cases h
      exact .refl
    · obtain ⟨_, ht⟩ := map_ok h
      exact moves_executeTxnAtRevision ht
  | putV2 key value leaseId commitTs =>
    rcases direct_ok h with rfl | ⟨_, ht⟩
    · exact moves_setLastApplied
    · exact moves_putAtCommitTs ht
  | deleteV2 key commitTs =>
    rcases direct_ok h with rfl | ⟨_, ht⟩
    · exact moves_setLastApplied
    · exact moves_deleteAtCommitTs ht
  | deleteRangeV2 key rangeEnd commitTs =>
    rcases direct_ok h with rfl | ⟨_, ht⟩
    · exact moves_setLastApplied
    · exact moves_deleteRangeAtCommitTs ht
  | deleteKeysByLease leaseId =>
    cases h
    exact moves_applyDeleteKeysByLease leaseId applied.index
  | deleteKeysByLeaseV2 leaseId commitTs =>
    rcases orRejected_ok h with rfl | ⟨_, ht⟩
    · exact moves_setLastApplied
    · exact moves_deleteKeysByLeaseAtCommitTs ht
  | objectStore op =>
    simp only [executeCommand] at h
    split at h
    · cases h
      exact moves_persistApplied (.inl rfl)
    · obtain ⟨_, ht⟩ := map_ok h
      obtain ⟨_, hinner⟩ := applyObjectStoreOp_ok ht
      exact moves_applyObjectStoreOpInner (.inl rfl) hinner
  | objectStoreV2 op =>
    simp only [executeCommand] at h
    split at h
    · cases h
      exact moves_setLastApplied
    · next hmode =>
      obtain ⟨_, ht⟩ := map_ok h
      unfold applyObjectStoreOpV2 at ht
      split at ht
      · cases ht
      · exact moves_applyObjectStoreOpInner (.inr (not_not.1 hmode)) ht
  | clearImportRange startKey endKey =>
    obtain ⟨_, ht⟩ := map_ok h
    exact moves_clearImportedRange ht
  | importRange startKey endKey rows watermark done =>
    obtain ⟨_, ht⟩ := map_ok h
    exact moves_applyRangeImport ht
  | importRangePreserveHistory startKey endKey rows watermark done =>
    obtain ⟨_, ht⟩ := map_ok h
    exact moves_applyRangeImport ht
  | tsoAllocate batchSize =>
    obtain ⟨_, ht⟩ := map_ok h
    exact moves_applyTsoAllocate ht
  | sequencer op =>
    cases h
    exact (moves_noteLogIndexRevision applied.index).record rfl (.inr rfl) (fun _ h => h) rfl fun _ => ⟨rfl, rfl⟩
  | leaseV2 op =>
    cases h
    exact moves_applyLeaseV2Op op applied.index
  | applyCommitDecisions decisions =>
    cases h
    exact moves_applyCommitDecisionsCore cfg.size _ 0
  | applyCommitDecisionsWithLog maxTxnBytes decisions =>
    cases h
    exact moves_applyCommitDecisionsCore cfg.size _ maxTxnBytes
  | commitLogShard op =>
    cases h
    exact moves_applyCommitLogShardOp op applied.index
  | commitLogAppend shardId startTs endTs maxTxnBytes records =>
    cases h
    exact moves_applyCommitLogAppend cfg.size shardId startTs endTs records maxTxnBytes applied.index
  | trimCommitLogOutbox throughTs maxRows =>
    cases h
    exact moves_trimCommitLogOutbox throughTs maxRows
  | regionMeta op =>
    obtain ⟨_, ht⟩ := map_ok h
    exact moves_applyRegionMetaOp ht
  | lease op =>
    cases h
    exact moves_applyLeaseOp op applied.index
  | auth op =>
    cases h
    exact moves_applyAuthOp nowMs op applied.index
  | compact target =>
    cases h
    exact moves_applyCompact target
  | pd op =>
    obtain ⟨_, ht⟩ := map_ok h
    exact moves_applyPdOp ht
  | publishSafeTs fenceTs =>
    cases h
    exact moves_setSafeTsFence fenceTs
  | publishCommitWatermark watermark =>
    cases h
    exact moves_publishCommitWatermark watermark
  | advanceSafeTs commitTs =>
    cases h
    exact moves_advanceCommitTsWatermark commitTs
  | fenceDirectWrites startKey endKey opId =>
    cases h
    exact moves_fenceDirectWrites startKey endKey opId
  | clearDirectWriteFence opId =>
    cases h
    exact moves_clearDirectWriteFence opId

theorem outside_executeCommand :
    cmd.outside s' = cmd.outside s := by
  have houter := (moves_executeCommand h).outer
  unfold Command.outside
  rw [rest_eq_dropLog, rest_eq_dropLog]
  cases hlog : cmd.writesLog with
  | true => simpa [hlog] using houter
  | false =>
    simp only [hlog, cond_false] at houter
    rw [cmd.blank_dropLog, cmd.blank_dropLog, houter]

/-- Only decisions, appended records and the trimming of the outbox write to the commit log. -/
theorem commitLog_executeCommand (hlog : cmd.writesLog = false) : s'.commitLog = s.commitLog := by
  have houter := (moves_executeCommand h).outer
  simp only [hlog, cond_false] at houter
  have hlog := congrArg commitLog houter
  cases cmd <;> exact hlog

end

end

variable {cfg : Config} {nowMs : ℤ} {s s' : Store}

/-- **An entry** is a command, or touches nothing but the position and the membership. -/
theorem applyEntry_cases {e : Entry} {r : Response} (h : applyEntry cfg nowMs s e = .ok (s', r)) :
    (∃ cmd o, e.payload = .normal cmd ∧ r = o.1 ∧
      executeCommand cfg nowMs s cmd e.logId.index e.logId = .ok (s', o)) ∨
      ∃ membership, s'.outer = { s.outer with membershipRow := membership } := by
  unfold applyEntry at h
  cases hp : e.payload with
  | membership config =>
    rw [hp] at h
    cases h
    exact .inr ⟨some ⟨e.logId, config⟩, (congrArg (fun t => { t with membershipRow := some ⟨e.logId, config⟩ })
      (@outer_setLastApplied cfg.mode s e.logId) : _)⟩
  | blank =>
    rw [hp] at h
    cases h
    exact .inr ⟨s.membershipRow, rfl⟩
  | normal cmd =>
    rw [hp] at h
    obtain ⟨⟨t, o⟩, ht, he⟩ := map_eq_ok h
    obtain rfl : t = s' := congrArg Prod.fst he
    exact .inl ⟨cmd, o, rfl, (congrArg Prod.snd he).symm, ht⟩

lemma auth_executeCommand {cmd : Command} {applied : AppliedLogId} {o : Response × Option ChangeEvent}
    (h : executeCommand cfg nowMs s cmd applied.index applied = .ok (s', o)) (hcmd : ∀ op, cmd ≠ .auth op) :
    s'.auth = s.auth := by
  have hout := outside_executeCommand h
  cases cmd with
  | auth op => exact absurd rfl (hcmd op)
  | _ => exact (congrArg Store.auth hout : _)

theorem raises_applyEntry {e : Entry} {o : Response}
    (h : applyEntry cfg nowMs s e = .ok (s', o)) : s.Raises cfg.mode e.logId s' := by
  unfold applyEntry at h
  split at h
  · obtain ⟨_, ht⟩ := map_ok h
    exact (moves_executeCommand ht).toRaises
  · cases h
    exact (@moves_setLastApplied cfg.mode e.logId s id true).toRaises.record rfl (.inl rfl) fun _ h => h
  · cases h
    exact .refl _ _ _

end Coord.Raft
