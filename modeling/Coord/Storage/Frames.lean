import Coord.Storage.Auth
import Coord.Storage.Decisions
import Coord.Storage.Lease
import Coord.Storage.ObjectStore
import Coord.Storage.Pd
import Coord.Storage.RangeMove
import Coord.Storage.Shards
import Coord.Storage.Watermarks

/-!
# What the operations leave alone

A write touches the key-value tables and the changelog, and moves the revision and the position in the log.
Decisions, appended records and the trimming of the outbox touch the commit log besides.  Everything else, the rows of
the system Region above all, is written by operations of its own.
-/

namespace Coord.Storage

open Coord.Lib (Table)

namespace Store

/-- The store without the tables a write touches, its revision and its position in the log. -/
def rest (s : Store) : Store :=
  { s with kv := Table.empty, kvMeta := Table.empty, changelog := Table.empty, commitLog := Table.empty,
           lastApplied := none, currentRevisionRow := none }

def outer (s : Store) : Store :=
  { s with kv := Table.empty, kvMeta := Table.empty, changelog := Table.empty, lastApplied := none,
           currentRevisionRow := none }

def dropLog (s : Store) : Store := { s with commitLog := Table.empty }

variable {mode : RevisionMode} {s s' : Store}

lemma rest_eq_dropLog : s.rest = s.outer.dropLog := rfl

lemma rest_of_outer (h : s'.outer = s.outer) : s'.rest = s.rest := by
  rw [rest_eq_dropLog, h, rest_eq_dropLog]

/-! ### Guards and single rows -/

@[simp] lemma outer_noteLogIndexRevision (revision : ℕ) : (s.noteLogIndexRevision mode revision).outer = s.outer := by
  unfold noteLogIndexRevision
  split <;> rfl

@[simp] lemma outer_setLastApplied (applied : AppliedLogId) : (s.setLastApplied mode applied).outer = s.outer :=
  outer_noteLogIndexRevision _

@[simp] lemma outer_writeDelete (key : Bytes) (revision : ℕ) : (s.writeDelete key revision).outer = s.outer := by
  unfold writeDelete
  split <;> rfl

@[simp] lemma outer_deleteKeys (keys : List Bytes) (revision : ℕ) : (s.deleteKeys keys revision).outer = s.outer := by
  unfold deleteKeys
  induction keys generalizing s with
  | nil => rfl
  | cons key keys ih => simpa using ih (s := s.writeDelete key revision)

/-! ### Decisions -/

@[simp] lemma outer_applyMutations (commitTs : ℕ) (ms : List Raft.SequencerMutation) :
    (s.applyMutations commitTs ms).1.outer = s.outer := by
  induction ms generalizing s with
  | nil => rfl
  | cons m ms ih =>
    have hm : (s.applyMutation commitTs m).1.outer = s.outer := by
      cases m with
      | put key value leaseId => rfl
      | delete key => exact outer_writeDelete key commitTs
      | deleteRange start stop => exact outer_deleteKeys _ commitTs
    exact (ih (s := (s.applyMutation commitTs m).1)).trans hm

section

variable (size : CommitRecord → ℕ) (maxTxnBytes : ℕ)
include size maxTxnBytes

lemma appendDecisionRecord_frame (s : Store) (view : DecisionView) (recordChanges : List CommitChange) :
    ∃ log, s.appendDecisionRecord size maxTxnBytes view recordChanges = { s with commitLog := log } := by
  unfold appendDecisionRecord
  split
  · exact ⟨s.commitLog, rfl⟩
  split
  · exact ⟨s.commitLog, rfl⟩
  dsimp only
  split
  · exact ⟨_, rfl⟩
  · exact ⟨s.commitLog, rfl⟩

lemma applyDecision_frame (s : Store) (view : DecisionView) :
    let t := (s.applyMutations view.commitTs view.mutations).1
    ∃ changelog log, s.applyDecision size maxTxnBytes view = { t with changelog := changelog, commitLog := log } ∧
      (changelog = t.changelog ∨ ∃ event, changelog = t.changelog.insert view.commitTs event) := by
  intro t
  unfold applyDecision
  dsimp only
  split
  · obtain ⟨log, h⟩ := appendDecisionRecord_frame size maxTxnBytes t view _
    exact ⟨_, log, h, .inl rfl⟩
  · obtain ⟨log, h⟩ := appendDecisionRecord_frame size maxTxnBytes
      { t with changelog := t.changelog.insert view.commitTs ⟨view.commitTs, _, .txn⟩ } view _
    exact ⟨_, log, h, .inr ⟨_, rfl⟩⟩

lemma rest_applyDecision (view : DecisionView) : (s.applyDecision size maxTxnBytes view).rest = s.rest := by
  obtain ⟨changelog, log, h, -⟩ := applyDecision_frame size maxTxnBytes s view
  rw [h]
  exact (rest_of_outer (@outer_applyMutations s view.commitTs view.mutations) : _)

theorem rest_applyDecisionLoop (views : List DecisionView)
    (l : DecisionLoop) : (applyDecisionLoop size maxTxnBytes l views).store.rest = l.store.rest := by
  fun_induction applyDecisionLoop size maxTxnBytes l views with
  | case1 | case3 | case4 => rfl
  | case2 _ _ _ _ _ ih | case5 _ _ _ _ _ _ _ ih => exact ih
  | case6 l view _ _ _ _ _ ih => exact ih.trans (rest_applyDecision size maxTxnBytes view)

end

/-! ### Moved ranges -/

/-- A row of a page is skipped, or it is newer than what is there and replaces it. -/
theorem importRow_ok {row : VersionedKv} {b : Bool} (h : s.importRow row = .ok (s', b)) :
    s' = s ∨ s' = { s with kv := s.kv.insert row.1 row.2.1, kvMeta := s.kvMeta.insert row.1 row.2.2 } ∧
      ∀ m₀, s.kvMeta.get row.1 = some m₀ → m₀.modRevision < row.2.2.modRevision := by
  unfold importRow at h
  dsimp only at h
  split at h
  · next hnone =>
    cases h
    exact .inr ⟨rfl, fun m₀ h₀ => by simp [hnone] at h₀⟩
  next existing hsome =>
  split at h
  · cases h
    exact .inl rfl
  split at h
  · split at h
    · cases h
    split at h
    · cases h
      exact .inl rfl
    · cases h
  · cases h
    refine .inr ⟨rfl, fun m₀ h₀ => ?_⟩
    obtain rfl : existing = m₀ := Option.some.inj (hsome.symm.trans h₀)
    omega

lemma applyRangeImport_cases {start stop : Bytes} {rows : List VersionedKv} {watermark : ℕ}
    {sealed done : Bool} {applied : AppliedLogId} {o : ℕ}
    (h : s.applyRangeImport mode start stop rows watermark sealed done applied = .ok (s', o)) :
    mode = .commitTs ∧ validateImport start stop watermark [] rows = .ok () ∧
      ∃ s₁, s.importRows 0 rows = .ok (s₁, o) ∧
        s' = { (if done then s₁.finishImport start stop watermark sealed (s.currentRevision mode) else s₁) with
          lastApplied := some applied } := by
  unfold applyRangeImport at h
  split at h
  · cases h
  next hmode =>
  split at h
  · cases h
  split at h
  · cases h
  next hvalid =>
  split at h
  · cases h
  · next s₁ o₁ himport =>
    cases h
    exact ⟨not_not.1 hmode, hvalid, s₁, himport, rfl⟩

/-! ### The system tables -/

/-- A lease operation writes the row of the lease and then deletes keys, mostly none. -/
theorem writeLeaseOp_eq (s : Store) (r : ℕ) (op : LeaseOp) :
    ∃ leases keys, s.writeLeaseOp r op = (Store.deleteKeys { s with leases := leases } keys r, keys) := by
  cases op with
  | grant id ttl deadlineWallMs =>
    simp only [writeLeaseOp]
    split
    · exact ⟨s.leases, [], rfl⟩
    · exact ⟨_, [], rfl⟩
  | keepAlive id deadlineWallMs =>
    simp only [writeLeaseOp]
    split
    · exact ⟨_, [], rfl⟩
    · exact ⟨s.leases, [], rfl⟩
  | revoke id deleteKeys =>
    simp only [writeLeaseOp]
    split
    · exact ⟨_, _, rfl⟩
    · exact ⟨_, [], rfl⟩

lemma writeLeaseV2Op_eq (s : Store) (op : LeaseV2Op) :
    ∃ leases requests, (s.writeLeaseV2Op op).1 = { s with leasesV2 := leases, leaseV2Requests := requests } := by
  cases op with
  | grant leaseId ttlSeconds grantedTs deadlineWallMs requestId =>
    simp only [writeLeaseV2Op, grantLeaseV2]
    split
    · exact ⟨_, _, rfl⟩
    · split <;> exact ⟨_, _, rfl⟩
  | keepAlive leaseId deadlineWallMs =>
    simp only [writeLeaseV2Op]
    split <;> exact ⟨_, _, rfl⟩
  | revoke leaseId commitTs expected requestId =>
    simp only [writeLeaseV2Op]
    split <;> exact ⟨_, _, rfl⟩

theorem writePdOp_eq {revision : ℕ} {op : PdOp} (h : s.writePdOp revision op = .ok s') :
    ∃ ops intents table, s' = { s with pdOps := ops, pdIntents := intents, regionTableRow := table } := by
  have hupdate : ∀ opId f, ∃ ops intents table, s.updatePdOp opId f =
      { s with pdOps := ops, pdIntents := intents, regionTableRow := table } := by
    intro opId f
    unfold updatePdOp
    split <;> exact ⟨_, _, _, rfl⟩
  cases op with
  | enqueue op requester proposedAtUnix =>
    cases h
    split <;> exact ⟨_, _, _, rfl⟩
  | claim opId nodeId claimedAtUnix =>
    cases h
    exact hupdate _ _
  | complete opId nodeId success error =>
    cases h
    exact hupdate _ _
  | requeue opId =>
    cases h
    exact hupdate _ _
  | recordIntent intent =>
    cases h
    split <;> exact ⟨_, _, _, rfl⟩
  | cutover opId =>
    simp only [writePdOp, cutover] at h
    split at h
    · cases h
      exact ⟨_, _, _, rfl⟩
    · split at h
      · cases h
      · cases h
        exact ⟨_, _, _, rfl⟩
  | clearIntent opId =>
    cases h
    exact ⟨_, _, _, rfl⟩

lemma applyPdOp_cases {op : PdOp} {revision : ℕ} {applied : AppliedLogId} {o : ApplyOutcome}
    (h : s.applyPdOp mode op revision applied = .ok (s', o)) :
    s' = s ∧ s.changelog.has revision = true ∨ s.changelog.has revision = false ∧ ∃ ops intents table,
      s' = writeChangelog { s.noteLogIndexRevision mode revision with
        pdOps := ops, pdIntents := intents, regionTableRow := table } ⟨revision, [], .put⟩ applied := by
  unfold applyPdOp at h
  split at h
  · next hhas =>
    cases h
    exact .inl ⟨rfl, hhas⟩
  · next hhas =>
    split at h
    · cases h
    · next s₁ hwrite =>
      cases h
      obtain ⟨ops, intents, table, rfl⟩ := writePdOp_eq hwrite
      exact .inr ⟨Bool.eq_false_iff.2 hhas, _, intents, table, rfl⟩

lemma outer_applyAuthOp (nowMs : ℤ) (op : AuthOp) (revision : ℕ) (applied : AppliedLogId) :
    (s.applyAuthOp mode nowMs op revision applied).1.outer =
      { s.outer with auth := if s.changelog.has revision then s.auth else s.auth.write nowMs op } := by
  have hnote := @outer_noteLogIndexRevision mode s revision
  have hauth : (s.noteLogIndexRevision mode revision).auth = s.auth := (congrArg Store.auth hnote : _)
  unfold applyAuthOp
  split
  · rfl
  · dsimp only
    rw [← hnote, hauth]
    rfl

end Store

/-! ### The end of a batch of decisions -/

/-- The rows and the cursor of a batch, once its loop has ended. -/
def finishDecisions (mode : RevisionMode) (s : Store) (r : ℕ) (applied : AppliedLogId) (l : Store.DecisionLoop) :
    Store :=
  let s₁ := if s.lastAppliedDecisionTs < l.through then { l.store with decisionApplied := some l.through } else l.store
  let effective := max l.current l.through
  let s₂ := if s₁.currentRevision mode < effective then { s₁ with currentRevisionRow := some effective } else s₁
  { s₂ with lastApplied := some applied }.noteLogIndexRevision mode r

lemma finishDecisions_eq {mode : RevisionMode} {s : Store} {l : Store.DecisionLoop} (r : ℕ) (applied : AppliedLogId)
    (hd : l.store.decisionApplied = s.decisionApplied) (hle : s.lastAppliedDecisionTs ≤ l.through) :
    ∃ cursor row, finishDecisions mode s r applied l = { l.store with
        decisionApplied := cursor, currentRevisionRow := row, lastApplied := some applied } ∧
      cursor.getD 0 = l.through ∧ (mode = .commitTs → (finishDecisions mode s r applied l).currentRevision .commitTs =
        max (l.store.currentRevision .commitTs) (max l.current l.through)) := by
  obtain ⟨cursor, hs, hcursor⟩ : ∃ cursor, (if s.lastAppliedDecisionTs < l.through then
      { l.store with decisionApplied := some l.through } else l.store) = { l.store with decisionApplied := cursor } ∧
      cursor.getD 0 = l.through := by
    split
    · exact ⟨_, rfl, rfl⟩
    · refine ⟨_, rfl, ?_⟩
      rw [hd]
      unfold Store.lastAppliedDecisionTs at *
      omega
  unfold finishDecisions Store.noteLogIndexRevision
  dsimp only
  rw [hs]
  by_cases hmode : mode = .logIndex
  · split_ifs <;> exact ⟨cursor, _, rfl, hcursor, fun h => by cases hmode.symm.trans h⟩
  rw [if_neg fun h => hmode h.1]
  split_ifs with hlt
  · refine ⟨cursor, _, rfl, hcursor, fun h => (max_eq_right ?_).symm⟩
    subst h
    exact hlt.le
  · refine ⟨cursor, _, rfl, hcursor, fun h => (max_eq_left ?_).symm⟩
    subst h
    exact not_lt.1 hlt

end Coord.Storage
