import Coord.Storage.KvHistory
import Coord.Storage.Revisions

/-!
# What the operations do to the rows

On a v2 store a write, a delete and a decision stamp the rows they touch above the current revision, a compaction
and the reset of an import drop rows, and a page of an import brings rows that are newer than what is there.  No other
operation touches a row.
-/

namespace Coord.Storage

open Coord.Lib (Table)
open Store

/-! ### The operations of a v2 store -/

@[simp] lemma Store.noteLogIndexRevision_commitTs (s : Store) (revision : ℕ) :
    s.noteLogIndexRevision .commitTs revision = s := by
  simp [noteLogIndexRevision]

section

variable {mode : RevisionMode} {s : Store} {applied : AppliedLogId} (k : Bytes)

@[simp] lemma row_noteLogIndexRevision (revision : ℕ) : (s.noteLogIndexRevision mode revision).row k = s.row k := by
  unfold noteLogIndexRevision
  split <;> rfl

@[simp] lemma row_setLastApplied : (s.setLastApplied mode applied).row k = s.row k := row_noteLogIndexRevision k _

@[simp] lemma row_persistApplied (revision : ℕ) : (s.persistApplied mode revision applied).row k = s.row k :=
  row_noteLogIndexRevision k _

end

variable {start stop : Bytes} {o : ApplyOutcome} {key : Bytes}

section

variable {s s' : Store} {applied : AppliedLogId}

lemma restamps_accepted {s₁ : Store} {r : ℕ} (hacc : s.acceptRevision .commitTs r .commitTs = .ok s₁)
    (hrev : s'.currentRevisionRow = s₁.currentRevisionRow)
    (hrow : ∀ k, s'.row k = s₁.row k ∨ Stamped r (s₁.row k) (s'.row k)) : Restamps s s' := by
  obtain ⟨hr, rfl⟩ := acceptRevision_ok (by simp) hacc
  have hcur : s'.currentRevision .commitTs = r := currentRevision_of_row hrev
  intro k
  rcases hrow k with h | h
  · exact .inl h
  · exact .inr ⟨r, hr, hcur.ge, h⟩

lemma pos_of_accepted {s₁ : Store} {r : ℕ} (hacc : s.acceptRevision .commitTs r .commitTs = .ok s₁) : 0 < r := by
  have := (acceptRevision_ok (by simp) hacc).1
  omega

variable {commitTs : ℕ}

lemma restamps_putAtKey {value : Bytes} {leaseId : Option ℤ}
    (h : s.putAtKey .commitTs key value leaseId commitTs applied .commitTs = .ok (s', o)) : Restamps s s' := by
  unfold putAtKey at h
  split at h
  · cases h
    exact restamps_of_rows fun _ => rfl
  · cases h
  split at h
  · cases h
  next s₁ hacc =>
  cases h
  refine restamps_accepted hacc rfl fun k => ?_
  have hrow := row_writePut s₁ commitTs k key value (leaseId.getD 0)
  change (s₁.writePut key value (leaseId.getD 0) commitTs).row k = s₁.row k ∨
    Stamped commitTs (s₁.row k) ((s₁.writePut key value (leaseId.getD 0) commitTs).row k)
  rw [hrow]
  split
  · exact .inr (stamped_putRow (pos_of_accepted hacc) _ _ _)
  · exact .inl rfl

theorem restamps_putAtCommitTs {value : Bytes} {leaseId : Option ℤ}
    (h : s.putAtCommitTs .commitTs key value leaseId commitTs applied = .ok (s', o)) : Restamps s s' := by
  unfold putAtCommitTs at h
  split_ifs at h
  exact restamps_putAtKey h

lemma restamps_deleteAtKey
    (h : s.deleteAtKey .commitTs key commitTs applied .commitTs = .ok (s', o)) : Restamps s s' := by
  unfold deleteAtKey at h
  split at h
  · cases h
    exact restamps_of_rows fun _ => rfl
  · cases h
  split at h
  · cases h
  next s₁ hacc =>
  cases h
  refine restamps_accepted hacc (rowsOnly_writeDelete key commitTs).revision fun k => ?_
  change (s₁.writeDelete key commitTs).row k = s₁.row k ∨
    Stamped commitTs (s₁.row k) ((s₁.writeDelete key commitTs).row k)
  rw [row_writeDelete]
  split
  · exact deleteRow_cases commitTs _
  · exact .inl rfl

lemma restamps_deleteAtCommitTs
    (h : s.deleteAtCommitTs .commitTs key commitTs applied = .ok (s', o)) : Restamps s s' := by
  unfold deleteAtCommitTs at h
  split_ifs at h
  exact restamps_deleteAtKey h

lemma deleteKeys_cases (s : Store) (keys : List Bytes) (r : ℕ) (k : Bytes) :
    (s.deleteKeys keys r).row k = s.row k ∨ Stamped r (s.row k) ((s.deleteKeys keys r).row k) := by
  rw [row_deleteKeys]
  split
  · exact deleteRow_cases r _
  · exact .inl rfl

lemma restamps_deleteRangeAtCommitTs {o : DeleteRangeOutcome}
    (h : s.deleteRangeAtCommitTs .commitTs start stop commitTs applied = .ok (s', o)) : Restamps s s' := by
  simp only [deleteRangeAtCommitTs, deleteRangeAtKey] at h
  split at h
  · cases h
  split at h
  · cases h
    exact restamps_of_rows fun _ => rfl
  · cases h
  · split at h
    · cases h
    · next s₁ hacc =>
      cases h
      exact restamps_accepted hacc (rowsOnly_deleteKeys _ commitTs).revision fun k =>
        deleteKeys_cases s₁ _ commitTs k

lemma restamps_deleteKeysByLeaseAtCommitTs {leaseId : ℤ} {o : ApplyOutcome × List Bytes}
    (h : s.deleteKeysByLeaseAtCommitTs .commitTs leaseId commitTs applied = .ok (s', o)) : Restamps s s' := by
  rcases deleteKeysByLeaseAtCommitTs_cases h with ⟨-, -, rfl⟩ | ⟨-, ⟨-, rfl⟩ | ⟨s₁, hacc, rfl⟩⟩
  · exact restamps_of_rows fun _ => rfl
  · exact restamps_of_rows fun _ => rfl
  have hhead := @rowsOnly_deleteKeys s (s.keysByLease leaseId) commitTs
  have hcur : (s.deleteKeys (s.keysByLease leaseId) commitTs).currentRevision .commitTs =
      s.currentRevision .commitTs := by
    simp only [currentRevision, hhead.revision]
  obtain ⟨hlt, rfl⟩ := @acceptRevision_ok .commitTs .commitTs _ _ _ (fun h => by cases h) hacc
  rw [hcur] at hlt
  intro k
  rcases deleteKeys_cases s (s.keysByLease leaseId) commitTs k with hrow | hrow
  · exact .inl hrow
  · exact .inr ⟨commitTs, hlt, le_rfl, hrow⟩

lemma restamps_applyObjectStoreOpV2 {env : ObjectEnv} {op : ObjectStoreOpV2} {o : ObjectApply}
    (h : s.applyObjectStoreOpV2 env .commitTs op applied = .ok (s', o)) : Restamps s s' := by
  unfold applyObjectStoreOpV2 at h
  split at h
  · cases h
  unfold applyObjectStoreOpInner at h
  split at h
  · cases h
    exact restamps_of_rows row_setLastApplied
  · rcases applyObjectStoreOpBody_cases h with ⟨rfl, -⟩ | rfl | ⟨m, hput⟩ | hdel
    · exact restamps_of_rows fun _ => rfl
    · exact restamps_of_rows fun k => row_persistApplied k _
    · exact restamps_putAtKey (putManifest_ok hput).choose_spec
    · exact restamps_deleteAtKey (deleteManifest_ok hdel).choose_spec

/-! ### Decisions -/

variable (size : CommitRecord → ℕ)

lemma row_applyDecision (maxTxnBytes : ℕ) (view : DecisionView) (k : Bytes) :
    (s.applyDecision size maxTxnBytes view).row k =
      view.mutations.foldl (mutateRow view.commitTs k) (s.row k) := by
  obtain ⟨changelog, log, h, -⟩ := applyDecision_frame size maxTxnBytes s view
  rw [← row_applyMutations, h]
  rfl

/-- The loop stamps a row above the revision it began with and not above the one it ends with. -/
lemma restamped_applyDecisionLoop (maxTxnBytes : ℕ) (views : List DecisionView)
    (l : Store.DecisionLoop) (k : Bytes) :
    l.current ≤ (applyDecisionLoop size maxTxnBytes l views).current ∧
      Restamped l.current (applyDecisionLoop size maxTxnBytes l views).current (l.store.row k)
        ((applyDecisionLoop size maxTxnBytes l views).store.row k) := by
  fun_induction applyDecisionLoop size maxTxnBytes l views with
  | case1 | case3 | case4 => exact ⟨le_rfl, .refl _ _ _⟩
  | case2 _ _ _ _ _ ih | case5 _ _ _ _ _ _ _ ih => exact ih
  | case6 l view _ _ _ _ hstep ih =>
    have hlt := lt_of_decisionStep_applied hstep
    have hone : Restamped l.current view.commitTs (l.store.row k)
        ((l.store.applyDecision size maxTxnBytes view).row k) := by
      rw [row_applyDecision]
      rcases mutateRows_cases (by omega : 0 < view.commitTs) k (l.store.row k) view.mutations with h | h
      · exact .inl h
      · exact .inr ⟨_, hlt, le_rfl, h⟩
    exact ⟨hlt.le.trans ih.1, hone.trans ih.2 hlt.le ih.1⟩

theorem restamps_applyCommitDecisionsCore (decisions : List DecisionView)
    (revision maxTxnBytes : ℕ) :
    Restamps s (s.applyCommitDecisionsCore size .commitTs decisions revision applied maxTxnBytes).1 := by
  intro k
  let l : DecisionLoop := ⟨s, s.currentRevision .commitTs, s.lastAppliedDecisionTs, 0, none⟩
  obtain ⟨-, hrow⟩ := restamped_applyDecisionLoop size maxTxnBytes decisions l k
  obtain ⟨cursor, row, heq, -, hrev⟩ := @finishDecisions_eq .commitTs s _ revision applied
    (congrArg decisionApplied (rest_applyDecisionLoop size maxTxnBytes decisions l) : _)
    (applyDecisionLoop_head size maxTxnBytes decisions l).2.2
  rw [heq] at hrev
  rw [show (s.applyCommitDecisionsCore size .commitTs decisions revision applied maxTxnBytes).1 = _ from heq, hrev rfl]
  exact hrow.mono ((le_max_left _ _).trans (le_max_right _ _))

/-! ### Rows that go -/

theorem row_applyCompact (revision : ℕ) (k : Bytes) : (s.applyCompact .commitTs revision applied).1.row k = s.row k ∨
      (s.applyCompact .commitTs revision applied).1.row k = (none, none) := by
  unfold applyCompact
  dsimp only
  split
  · exact .inl rfl
  rw [Store.noteLogIndexRevision_commitTs]
  simp only [Store.row, Table.get_filter]
  cases s.staleTombstone (min revision (s.currentRevision .commitTs)) k with
  | false => exact .inl (by cases s.kv.get k <;> cases s.kvMeta.get k <;> rfl)
  | true => exact .inr (by cases s.kv.get k <;> cases s.kvMeta.get k <;> rfl)

theorem row_clearImportedRange {o : ℕ}
    (h : s.clearImportedRange .commitTs start stop applied = .ok (s', o)) (k : Bytes) :
    s'.row k = if inRange start stop k = true ∧ (s.row k).1.isSome = true then (none, none) else s.row k := by
  cases h
  have hmem : k ∈ (s.kv.rows.filter fun r => inRange start stop r.1).map Prod.fst ↔
      inRange start stop k = true ∧ (s.row k).1.isSome = true := by
    simp only [List.mem_map, List.mem_filter, Store.row, Option.isSome_iff_exists, ← Table.mem_rows]
    constructor
    · rintro ⟨⟨j, v⟩, ⟨hrow, hin⟩, rfl⟩
      exact ⟨hin, v, hrow⟩
    · rintro ⟨hin, v, hrow⟩
      exact ⟨(k, v), ⟨hrow, hin⟩, rfl⟩
  by_cases hin : inRange start stop k = true ∧ (s.row k).1.isSome = true
  · rw [if_pos hin]
    simp only [Store.row, Table.get_foldl_erase, if_pos (hmem.2 hin)]
  · rw [if_neg hin]
    simp only [Store.row, Table.get_foldl_erase, if_neg (mt hmem.1 hin)]

end

/-! ### Imports -/

structure ImportRowOk (start stop : Bytes) (watermark : ℕ) (row : VersionedKv) : Prop where
  inRange : inRange start stop row.1 = true
  unreserved : reservedPrefix.isPrefixOf row.1 = false
  live : row.2.2.deleted = false
  mod_pos : 0 < row.2.2.modRevision
  mod_le : row.2.2.modRevision ≤ watermark
  create_pos : 0 < row.2.2.createRevision
  create_le : row.2.2.createRevision ≤ row.2.2.modRevision
  version_pos : 0 < row.2.2.version

variable {watermark : ℕ}

lemma validateImportRow_iff {seen : List Bytes} {row : VersionedKv} :
    validateImportRow start stop watermark seen row = .ok () ↔
      ImportRowOk start stop watermark row ∧ row.1 ∉ seen := by
  unfold validateImportRow
  dsimp only
  constructor
  · intro h
    split_ifs at h with h1 h2 h3 h4 h5 h6 h7
    exact ⟨⟨by simpa using h1, Bool.eq_false_iff.2 h2, by simpa using h4, by omega, by omega, by omega, by omega,
      by omega⟩, h3⟩
  · rintro ⟨h, hseen⟩
    have h5 : ¬ (row.2.2.modRevision = 0 ∨ watermark < row.2.2.modRevision) := by
      have := h.mod_pos
      have := h.mod_le
      omega
    have h6 : ¬ (row.2.2.createRevision = 0 ∨ row.2.2.modRevision < row.2.2.createRevision) := by
      have := h.create_pos
      have := h.create_le
      omega
    have h7 : ¬ row.2.2.version ≤ 0 := by
      have := h.version_pos
      omega
    simp [h.inRange, h.unreserved, hseen, h.live, h5, h6, h7]

variable {rows : List VersionedKv}

/-- **A page passes the checks** when every row does and no key comes twice. -/
theorem validateImport_iff {seen : List Bytes} :
    validateImport start stop watermark seen rows = .ok () ↔
      (∀ row ∈ rows, ImportRowOk start stop watermark row ∧ row.1 ∉ seen) ∧ (rows.map Prod.fst).Nodup := by
  induction rows generalizing seen with
  | nil => simp [validateImport]
  | cons row rows ih =>
    have hstep : validateImport start stop watermark seen (row :: rows) = .ok () ↔
        validateImportRow start stop watermark seen row = .ok () ∧
          validateImport start stop watermark (row.1 :: seen) rows = .ok () := by
      rw [validateImport]
      cases validateImportRow start stop watermark seen row <;> simp
    rw [hstep, validateImportRow_iff, ih]
    simp only [List.mem_cons, forall_eq_or_imp, List.map_cons, List.nodup_cons, List.mem_map, not_or, not_exists,
      not_and]
    constructor
    · rintro ⟨hrow, hrest, hnodup⟩
      exact ⟨⟨hrow, fun r hr => ⟨(hrest r hr).1, (hrest r hr).2.2⟩⟩, fun r hr => (hrest r hr).2.1, hnodup⟩
    · rintro ⟨⟨hrow, hrest⟩, hne, hnodup⟩
      exact ⟨hrow, fun r hr => ⟨(hrest r hr).1, hne r hr, (hrest r hr).2⟩, hnodup⟩

section

variable {s s' : Store} {applied : AppliedLogId}

/-- The row of `k` comes from one of the rows of the page, which is newer than what was there. -/
def ImportedFrom (rows : List VersionedKv) (k : Bytes) (old new : KeyRow) : Prop :=
  ∃ row ∈ rows, row.1 = k ∧ new = (some row.2.1, some row.2.2) ∧
    ∀ m₀, old.2 = some m₀ → m₀.modRevision < row.2.2.modRevision

lemma row_importRow {row : VersionedKv} {b : Bool} (h : s.importRow row = .ok (s', b)) (k : Bytes) :
    s'.row k = s.row k ∨ ImportedFrom [row] k (s.row k) (s'.row k) := by
  rcases importRow_ok h with rfl | ⟨rfl, hnew⟩
  · exact .inl rfl
  by_cases hk : k = row.1
  · subst hk
    exact .inr ⟨row, List.mem_singleton_self row, rfl, by simp [Store.row], hnew⟩
  · exact .inl (by simp [Store.row, Table.get_insert_ne _ _ hk])

lemma row_importRows {imported o : ℕ} (h : s.importRows imported rows = .ok (s', o))
    (k : Bytes) : s'.row k = s.row k ∨ ImportedFrom rows k (s.row k) (s'.row k) := by
  induction rows generalizing s imported with
  | nil =>
    cases h
    exact .inl rfl
  | cons row rows ih =>
    unfold importRows at h
    split at h
    · cases h
    next t b ht =>
    have hone := row_importRow ht k
    rcases ih h with hrest | ⟨row', hmem, hkey, hnew, hold⟩
    · rw [hrest]
      rcases hone with hone | ⟨row', hmem, hkey, hnew, hold⟩
      · exact .inl hone
      · exact .inr ⟨row', List.mem_cons.2 (.inl (List.mem_singleton.1 hmem)), hkey, hnew, hold⟩
    · refine .inr ⟨row', List.mem_cons_of_mem _ hmem, hkey, hnew, fun m₀ h₀ => ?_⟩
      rcases hone with hone | ⟨row₁, -, -, hnew₁, hold₁⟩
      · exact hold m₀ (hone ▸ h₀)
      · exact (hold₁ m₀ h₀).trans (hold row₁.2.2 (by rw [hnew₁]))

theorem applyRangeImport_ok {mode : RevisionMode} {sealed done : Bool} {o : ℕ}
    (h : s.applyRangeImport mode start stop rows watermark sealed done applied = .ok (s', o)) :
    (∀ row ∈ rows, ImportRowOk start stop watermark row) ∧ (rows.map Prod.fst).Nodup ∧
      (∀ k, s'.row k = s.row k ∨ ImportedFrom rows k (s.row k) (s'.row k)) ∧
      s'.currentRevision .commitTs =
        if sealed = true ∧ done = true then max (s.currentRevision .commitTs) watermark
        else s.currentRevision .commitTs := by
  obtain ⟨rfl, hvalid, s₁, himport, rfl⟩ := applyRangeImport_cases h
  obtain ⟨hok, hnodup⟩ := validateImport_iff.1 hvalid
  have hrow := row_importRows himport
  have hcur : s₁.currentRevision .commitTs = s.currentRevision .commitTs := by
    simp only [currentRevision, (rowsOnly_importRows himport).revision]
  refine ⟨fun row hr => (hok row hr).1, hnodup, ?_, ?_⟩
  · cases done <;> cases sealed <;> exact hrow
  · cases done <;> cases sealed <;> simp [finishImport, currentRevision] <;> exact hcur

end

lemma row_of_moves {blank : Store → Store} {mode : RevisionMode} {s s' : Store} {applied : AppliedLogId}
    (h : s.Moves blank true mode applied s') (k : Bytes) : s'.row k = s.row k := by
  obtain ⟨hkv, hmeta⟩ := h.rows rfl
  rw [Store.row, hkv, hmeta, Store.row]

end Coord.Storage
