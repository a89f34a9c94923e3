import Coord.Storage.Frames

/-!
# How the operations move the revision

No operation lowers the current revision, none moves the position in the log anywhere but to its own entry, and on a
v2 store a row of the changelog goes only once the revision has passed it.
-/

namespace Coord.Storage

open Coord.Lib.Table

namespace Store

/-- The position stays or becomes `applied`; the revision stays or becomes a recorded one that is not lower; what
leaves the changelog of a v2 store is below the revision. -/
structure Raises (mode : RevisionMode) (applied : AppliedLogId) (s s' : Store) : Prop where
  position : s'.lastApplied = s.lastApplied ∨ s'.lastApplied = some applied
  revision : s'.currentRevisionRow = s.currentRevisionRow ∨
    ∃ v, s'.currentRevisionRow = some v ∧ s.currentRevision mode ≤ v ∧ (mode = .logIndex → 0 < v)
  changelog : mode = .commitTs → ∀ c, s.changelog.has c = true →
    s'.changelog.has c = true ∨ c < s'.currentRevision .commitTs

variable {mode : RevisionMode} {applied : AppliedLogId} {s s₁ s' : Store}

lemma currentRevision_of_row {v : ℕ} (h : s.currentRevisionRow = some v) : s.currentRevision mode = v := by
  simp [currentRevision, h]

lemma Raises.refl (mode : RevisionMode) (applied : AppliedLogId) (s : Store) : Raises mode applied s s :=
  ⟨.inl rfl, .inl rfl, fun _ _ h => .inl h⟩

lemma Raises.record (h : Raises mode applied s s₁) (hrow : s'.currentRevisionRow = s₁.currentRevisionRow)
    (hpos : s'.lastApplied = s₁.lastApplied ∨ s'.lastApplied = some applied)
    (hlog : ∀ c, s₁.changelog.has c = true → s'.changelog.has c = true) : Raises mode applied s s' := by
  refine ⟨?_, hrow ▸ h.revision, fun hmode c hc => ?_⟩
  · rcases hpos with hpos | hpos
    · exact hpos ▸ h.position
    · exact .inr hpos
  · rcases h.changelog hmode c hc with hc | hc
    · exact .inl (hlog c hc)
    · simp only [currentRevision, hrow] at hc ⊢
      exact .inr hc

/-- Two stores with the same revision and position, the second with no row less in its changelog. -/
structure SameHead (s s' : Store) : Prop where
  revision : s'.currentRevisionRow = s.currentRevisionRow
  position : s'.lastApplied = s.lastApplied
  changelog : ∀ c, s.changelog.has c = true → s'.changelog.has c = true

lemma SameHead.trans (h : SameHead s s₁) (h' : SameHead s₁ s') : SameHead s s' :=
  ⟨h'.1.trans h.1, h'.2.trans h.2, fun c hc => h'.3 c (h.3 c hc)⟩

lemma Raises.of_sameHead (h : SameHead s s') : Raises mode applied s s' :=
  ⟨.inl h.2, .inl h.1, fun _ c hc => .inl (h.3 c hc)⟩

/-- What an operation may do to the store: the revision is raised, outside the data tables only what `blank` blanks is
touched, and an operation of the system keeps the keys. -/
structure Moves (blank : Store → Store) (system : Bool) (mode : RevisionMode) (applied : AppliedLogId)
    (s s' : Store) : Prop extends Raises mode applied s s' where
  outer : blank s'.outer = blank s.outer
  rows : system = true → s'.kv = s.kv ∧ s'.kvMeta = s.kvMeta

structure RowsOnly (s s' : Store) : Prop extends SameHead s s' where
  outer : s'.outer = s.outer

lemma RowsOnly.refl (s : Store) : RowsOnly s s := ⟨⟨rfl, rfl, fun _ h => h⟩, rfl⟩

lemma RowsOnly.trans (h : RowsOnly s s₁) (h' : RowsOnly s₁ s') : RowsOnly s s' :=
  ⟨h.toSameHead.trans h'.toSameHead, h'.outer.trans h.outer⟩

variable {blank : Store → Store} {system : Bool}

lemma Moves.refl : Moves blank system mode applied s s := ⟨.refl mode applied s, rfl, fun _ => ⟨rfl, rfl⟩⟩

lemma Moves.record (h : Moves blank system mode applied s s₁) (hrow : s'.currentRevisionRow = s₁.currentRevisionRow)
    (hpos : s'.lastApplied = s₁.lastApplied ∨ s'.lastApplied = some applied)
    (hlog : ∀ c, s₁.changelog.has c = true → s'.changelog.has c = true) (houter : blank s'.outer = blank s₁.outer)
    (hrows : system = true → s'.kv = s₁.kv ∧ s'.kvMeta = s₁.kvMeta) : Moves blank system mode applied s s' :=
  ⟨h.toRaises.record hrow hpos hlog, houter.trans h.outer, fun hs =>
    ⟨(hrows hs).1.trans (h.rows hs).1, (hrows hs).2.trans (h.rows hs).2⟩⟩

lemma Moves.andThen (h : Moves blank false mode applied s s₁) (h' : RowsOnly s₁ s') :
    Moves blank false mode applied s s' :=
  h.record h'.revision (.inl h'.position) h'.changelog (congrArg blank h'.outer) fun h => nomatch h

/-! ### Guards -/

lemma moves_noteLogIndexRevision (revision : ℕ) :
    Moves blank system mode applied s (s.noteLogIndexRevision mode revision) := by
  unfold noteLogIndexRevision
  split
  · next h =>
    obtain ⟨rfl, hlt⟩ := h
    exact ⟨⟨.inl rfl, .inr ⟨revision, rfl, hlt.le, fun _ => by omega⟩, fun h => nomatch h⟩, rfl, fun _ => ⟨rfl, rfl⟩⟩
  · exact .refl

lemma Raises.note (h : Raises mode applied s s₁) :
    Raises mode applied s ({ s₁ with lastApplied := some applied }.noteLogIndexRevision mode applied.index) := by
  have hrec : Raises mode applied s { s₁ with lastApplied := some applied } := h.record rfl (.inr rfl) fun _ h => h
  unfold noteLogIndexRevision
  split
  · next hlt =>
    obtain ⟨rfl, hlt⟩ := hlt
    refine ⟨.inr rfl, ?_, fun h => nomatch h⟩
    cases hrow : s₁.currentRevisionRow with
    | none => simp [currentRevision, hrow] at hlt
    | some v =>
      have hv : v < applied.index := by simpa [currentRevision, hrow] using hlt
      refine .inr ⟨applied.index, rfl, ?_, fun _ => by omega⟩
      rcases h.revision with h | ⟨w, h, hw, -⟩
      · rw [currentRevision_of_row (h.symm.trans hrow)]
        omega
      · have : w = v := Option.some.inj (h.symm.trans hrow)
        omega
  · exact hrec

lemma Moves.note (h : Moves blank system mode applied s s₁) :
    Moves blank system mode applied s
      ({ s₁ with lastApplied := some applied }.noteLogIndexRevision mode applied.index) := by
  refine ⟨h.toRaises.note, ?_, fun hs => ?_⟩
  · rw [outer_noteLogIndexRevision]
    exact h.outer
  · unfold noteLogIndexRevision
    split <;> exact h.rows hs

lemma moves_setLastApplied : Moves blank system mode applied s (s.setLastApplied mode applied) :=
  Moves.refl.note

variable {revision : ℕ}

lemma moves_persistApplied (hr : revision = applied.index ∨ mode = .commitTs) :
    Moves blank system mode applied s (s.persistApplied mode revision applied) := by
  rcases hr with rfl | rfl
  · exact moves_setLastApplied
  · have : s.persistApplied .commitTs revision applied = { s with lastApplied := some applied } := by
      simp [persistApplied, noteLogIndexRevision]
    exact this ▸ (Moves.refl (s := s)).record rfl (.inr rfl) (fun _ h => h) rfl fun _ => ⟨rfl, rfl⟩

lemma moves_acceptCommitTs (h : s.acceptCommitTs mode revision = .ok s') :
    Moves blank system mode applied s s' := by
  simp only [acceptCommitTs] at h
  split at h
  · cases h
  · cases h
    exact ⟨⟨.inl rfl, .inr ⟨revision, rfl, by omega, fun _ => by omega⟩, fun _ _ h => .inl h⟩, rfl, fun _ => ⟨rfl, rfl⟩⟩

variable {policy : RevisionPolicy}

lemma moves_acceptRevision
    (h : s.acceptRevision mode revision policy = .ok s') : Moves blank system mode applied s s' := by
  cases policy with
  | commitTs => exact moves_acceptCommitTs h
  | logIndex =>
    cases mode with
    | commitTs =>
      cases h
      exact .refl
    | logIndex =>
      simp only [acceptRevision, acceptLogIndexRevision] at h
      split at h
      · cases h
      · cases h
        exact ⟨⟨.inl rfl, .inr ⟨revision, rfl, by omega, fun _ => by omega⟩, fun _ _ h => .inl h⟩, rfl,
          fun _ => ⟨rfl, rfl⟩⟩

/-! ### Writes -/

lemma rowsOnly_writePut (key value : Bytes) (leaseId : ℤ) (revision : ℕ) :
    RowsOnly s (s.writePut key value leaseId revision) := ⟨⟨rfl, rfl, fun _ h => h⟩, rfl⟩

lemma rowsOnly_writeDelete (key : Bytes) (revision : ℕ) : RowsOnly s (s.writeDelete key revision) := by
  unfold writeDelete
  split <;> exact ⟨⟨rfl, rfl, fun _ h => h⟩, rfl⟩

lemma rowsOnly_writeTxnDelete (key : Bytes) (revision : ℕ) : RowsOnly s (s.writeTxnDelete key revision) := by
  unfold writeTxnDelete
  split <;> exact ⟨⟨rfl, rfl, fun _ h => h⟩, rfl⟩

lemma rowsOnly_deleteKeys (keys : List Bytes) (revision : ℕ) : RowsOnly s (s.deleteKeys keys revision) := by
  unfold deleteKeys
  induction keys generalizing s with
  | nil => exact .refl s
  | cons key keys ih => exact (rowsOnly_writeDelete key revision).trans ih

lemma rowsOnly_executeOps (revision : ℕ) (ops : List TxnOp) : RowsOnly s (s.executeOps revision ops).1 := by
  induction ops generalizing s with
  | nil => exact .refl s
  | cons op ops ih =>
    have hop : RowsOnly s (s.executeOp revision op).1 := by
      cases op with
      | put key value leaseId => exact rowsOnly_writePut key value _ revision
      | delete key => exact rowsOnly_writeTxnDelete key revision
      | range key rangeEnd limit => exact .refl s
    exact hop.trans (ih (s := (s.executeOp revision op).1))

variable {rows : List VersionedKv}

lemma rowsOnly_importRows {imported o : ℕ} (h : s.importRows imported rows = .ok (s', o)) : RowsOnly s s' := by
  induction rows generalizing s imported with
  | nil =>
    cases h
    exact .refl _
  | cons row rows ih =>
    unfold importRows at h
    split at h
    · cases h
    · next t b ht =>
      have hrow : RowsOnly s t := by
        rcases importRow_ok ht with rfl | ⟨rfl, -⟩ <;> exact ⟨⟨rfl, rfl, fun _ h => h⟩, rfl⟩
      exact hrow.trans (ih h)

lemma Moves.writeChangelog (h : Moves blank system mode applied s s₁) (event : ChangeEvent) :
    Moves blank system mode applied s (s₁.writeChangelog event applied) :=
  h.record rfl (.inr rfl) (fun _ h => has_insert event.revision event h) rfl fun _ => ⟨rfl, rfl⟩

variable {key start stop : Bytes} {commitTs : ℕ} {o : ApplyOutcome}

theorem moves_putAtKey {value : Bytes} {leaseId : Option ℤ}
    (h : s.putAtKey mode key value leaseId revision applied policy = .ok (s', o)) :
    Moves blank false mode applied s s' := by
  unfold putAtKey at h
  split at h
  · cases h
    exact .refl
  · cases h
  · split at h
    · cases h
    · next hacc =>
      cases h
      exact ((moves_acceptRevision hacc).andThen (rowsOnly_writePut key value _ revision)).writeChangelog _

theorem moves_deleteAtKey
    (h : s.deleteAtKey mode key revision applied policy = .ok (s', o)) : Moves blank false mode applied s s' := by
  unfold deleteAtKey at h
  split at h
  · cases h
    exact .refl
  · cases h
  · split at h
    · cases h
    · next hacc =>
      cases h
      exact ((moves_acceptRevision hacc).andThen (rowsOnly_writeDelete key revision)).writeChangelog _

lemma moves_deleteRangeAtKey
    {o : DeleteRangeOutcome} (h : s.deleteRangeAtKey mode start stop revision applied policy = .ok (s', o)) :
    Moves blank false mode applied s s' := by
  unfold deleteRangeAtKey at h
  dsimp only at h
  split at h
  · cases h
    exact .refl
  · cases h
  · split at h
    · cases h
    · next hacc =>
      cases h
      exact ((moves_acceptRevision hacc).andThen (rowsOnly_deleteKeys _ revision)).writeChangelog _

lemma moves_executeTxnAtRevision {compares : List TxnCompare} {successOps failureOps : List TxnOp} {o : TxnResult}
    (h : s.executeTxnAtRevision mode compares successOps failureOps revision applied = .ok (s', o)) :
    Moves blank false mode applied s s' := by
  unfold executeTxnAtRevision at h
  split at h
  · cases h
    exact .refl
  · split at h
    · cases h
    · next hacc =>
      cases h
      exact ((moves_acceptRevision hacc).andThen (rowsOnly_executeOps revision _)).writeChangelog _

lemma moves_putAtCommitTs {value : Bytes} {leaseId : Option ℤ}
    (h : s.putAtCommitTs mode key value leaseId commitTs applied = .ok (s', o)) :
    Moves blank false mode applied s s' := by
  unfold putAtCommitTs at h
  split_ifs at h
  exact moves_putAtKey h

lemma moves_deleteAtCommitTs
    (h : s.deleteAtCommitTs mode key commitTs applied = .ok (s', o)) : Moves blank false mode applied s s' := by
  unfold deleteAtCommitTs at h
  split_ifs at h
  exact moves_deleteAtKey h

lemma moves_deleteRangeAtCommitTs {o : DeleteRangeOutcome}
    (h : s.deleteRangeAtCommitTs mode start stop commitTs applied = .ok (s', o)) :
    Moves blank false mode applied s s' := by
  unfold deleteRangeAtCommitTs at h
  split_ifs at h
  exact moves_deleteRangeAtKey h

lemma moves_deleteKeysByLeaseAtCommitTs {leaseId : ℤ} {o : ApplyOutcome × List Bytes}
    (h : s.deleteKeysByLeaseAtCommitTs mode leaseId commitTs applied = .ok (s', o)) :
    Moves blank false mode applied s s' := by
  rcases deleteKeysByLeaseAtCommitTs_cases h with ⟨-, -, rfl⟩ | ⟨-, ⟨-, rfl⟩ | ⟨s₁, hacc, rfl⟩⟩
  · exact .refl
  · exact Moves.refl.record rfl (.inr rfl) (fun _ h => h) rfl fun _ => ⟨rfl, rfl⟩
  have hdel : RowsOnly s (s.deleteKeys (s.keysByLease leaseId) commitTs) := rowsOnly_deleteKeys _ commitTs
  have hrev : s.currentRevision mode = (s.deleteKeys (s.keysByLease leaseId) commitTs).currentRevision mode := by
    simp only [currentRevision, hdel.revision, hdel.position]
  have hr := (@moves_acceptCommitTs mode applied _ _ blank false _ hacc).writeChangelog
    ⟨commitTs, (s.keysByLease leaseId).map fun k => ⟨k, none⟩, .lease⟩
  exact ⟨⟨hdel.position ▸ hr.position, hdel.revision ▸ hrev ▸ hr.revision,
    fun hmode c hc => hr.changelog hmode c (hdel.changelog c hc)⟩, hdel.outer ▸ hr.outer, fun h => nomatch h⟩

/-! ### The object store -/

section

variable {env : ObjectEnv} {op : ObjectStoreOp} {revision : ℕ} {policy : RevisionPolicy} {o : ObjectApply}

lemma putManifest_ok {key : Bytes} {m : ObjectManifest}
    (h : s.putManifest env mode key m revision applied policy = .ok (s', o)) :
    ∃ out, s.putAtKey mode key (env.toBytes m) none revision applied policy = .ok (s', out) := by
  unfold putManifest putAtCommitTs at h
  cases policy with
  | logIndex =>
    dsimp only at h
    split at h
    · cases h
    · next out hput =>
      cases h
      exact ⟨out, hput⟩
  | commitTs =>
    dsimp only at h
    split at h
    · cases h
    · next out hput =>
      cases h
      split_ifs at hput
      exact ⟨out, hput⟩

lemma deleteManifest_ok {key : Bytes} (h : s.deleteManifest mode key revision applied policy = .ok (s', o)) :
    ∃ out, s.deleteAtKey mode key revision applied policy = .ok (s', out) := by
  unfold deleteManifest deleteAtCommitTs at h
  cases policy with
  | logIndex =>
    dsimp only at h
    split at h
    · cases h
    · next out hdel =>
      cases h
      exact ⟨out, hdel⟩
  | commitTs =>
    dsimp only at h
    split at h
    · cases h
    · next out hdel =>
      cases h
      split_ifs at hdel
      exact ⟨out, hdel⟩

lemma applyObjectStoreOpBody_cases (h : s.applyObjectStoreOpBody env mode op revision policy applied = .ok (s', o)) :
    s' = s ∧ s.changelog.has revision = true ∨ s' = s.persistApplied mode revision applied ∨
      (∃ m, s.putManifest env mode op.key m revision applied policy = .ok (s', o)) ∨
      s.deleteManifest mode op.key revision applied policy = .ok (s', o) := by
  have hnoop : ∀ {changed : Bool}, (Except.ok (s.persistApplied mode revision applied, ObjectApply.applied changed) :
      Except Error (Store × ObjectApply)) = .ok (s', o) → s' = s.persistApplied mode revision applied := by
    rintro changed h
    cases h
    rfl
  unfold applyObjectStoreOpBody at h
  dsimp only at h
  split at h
  · next hhas =>
    cases h
    exact .inl ⟨rfl, hhas⟩
  refine .inr ?_
  cases op with
  | begin bucket objectId totalSize startedAtUnix =>
    dsimp only at h
    split at h
    · exact .inl (hnoop h)
    · exact .inr (.inl ⟨_, h⟩)
  | chunk bucket objectId seq data nowUnix =>
    dsimp only at h
    split at h
    · cases h
    split at h
    · exact .inl (hnoop h)
    split at h
    · cases h
    · split at h
      · exact .inl (hnoop h)
      · exact .inr (.inl ⟨_, h⟩)
  | commit bucket objectId =>
    dsimp only at h
    split at h
    · exact .inl (hnoop h)
    split at h
    · cases h
    split at h
    · exact .inl (hnoop h)
    · split at h
      · exact .inl (hnoop h)
      · exact .inr (.inl ⟨_, h⟩)
  | delete bucket objectId => exact .inr (.inr h)

lemma moves_applyObjectStoreOpInner (hr : revision = applied.index ∨ mode = .commitTs)
    (h : s.applyObjectStoreOpInner env mode op revision policy applied = .ok (s', o)) :
    Moves blank false mode applied s s' := by
  unfold applyObjectStoreOpInner at h
  split at h
  · cases h
    exact moves_setLastApplied
  · rcases applyObjectStoreOpBody_cases h with ⟨rfl, -⟩ | rfl | ⟨m, hput⟩ | hdel
    · exact .refl
    · exact moves_persistApplied hr
    · exact moves_putAtKey (putManifest_ok hput).choose_spec
    · exact moves_deleteAtKey (deleteManifest_ok hdel).choose_spec

lemma applyObjectStoreOp_ok {changed : Bool} (h : s.applyObjectStoreOp env mode op revision applied = .ok (s',
    changed)) :
    ∃ o, s.applyObjectStoreOpInner env mode op revision .logIndex applied = .ok (s', o) := by
  unfold applyObjectStoreOp at h
  split at h
  · cases h
  · next heq =>
    cases h
    exact ⟨_, heq⟩
  · next heq =>
    cases h
    exact ⟨_, heq⟩

end

/-! ### Decisions -/

lemma sameHead_applyMutations (commitTs : ℕ) (ms : List Raft.SequencerMutation) :
    SameHead s (s.applyMutations commitTs ms).1 := by
  induction ms generalizing s with
  | nil => exact ⟨rfl, rfl, fun _ h => h⟩
  | cons m ms ih =>
    have hm : SameHead s (s.applyMutation commitTs m).1 := by
      cases m with
      | put key value leaseId => exact (rowsOnly_writePut key value _ commitTs).toSameHead
      | delete key => exact (rowsOnly_writeDelete key commitTs).toSameHead
      | deleteRange start stop => exact (rowsOnly_deleteKeys _ commitTs).toSameHead
    exact hm.trans (ih (s := (s.applyMutation commitTs m).1))

lemma sameHead_applyDecision (size : CommitRecord → ℕ) (maxTxnBytes : ℕ) (view : DecisionView) :
    SameHead s (s.applyDecision size maxTxnBytes view) := by
  have hm := @sameHead_applyMutations s view.commitTs view.mutations
  obtain ⟨changelog, log, h, hlog⟩ := applyDecision_frame size maxTxnBytes s view
  rw [h]
  refine ⟨hm.1, hm.2, fun c hc => ?_⟩
  rcases hlog with rfl | ⟨event, rfl⟩
  · exact hm.3 c hc
  · exact has_insert _ _ (hm.3 c hc)

lemma lt_of_decisionStep_applied {current : ℕ} {view : DecisionView}
    (h : decisionStep s current view = .applied) : current < view.commitTs := by
  unfold decisionStep at h
  split at h
  · split at h <;> cases h
  · split at h
    · split at h <;> cases h
    · omega

/-- The loop leaves the head of the store alone, and what it reports of the revision and the cursor only grows. -/
lemma applyDecisionLoop_head (size : CommitRecord → ℕ) (maxTxnBytes : ℕ) (views : List DecisionView)
    (l : DecisionLoop) :
    SameHead l.store (applyDecisionLoop size maxTxnBytes l views).store ∧
      l.current ≤ (applyDecisionLoop size maxTxnBytes l views).current ∧
      l.through ≤ (applyDecisionLoop size maxTxnBytes l views).through := by
  fun_induction applyDecisionLoop size maxTxnBytes l views with
  | case1 | case3 | case4 => exact ⟨⟨rfl, rfl, fun _ h => h⟩, le_rfl, le_rfl⟩
  | case2 _ _ _ _ _ ih => exact ih
  | case5 l view _ _ hts _ _ ih => exact ⟨ih.1, ih.2.1, (not_le.1 hts).le.trans ih.2.2⟩
  | case6 l view _ _ hts _ hstep ih =>
    exact ⟨(sameHead_applyDecision size maxTxnBytes view).trans ih.1,
      (lt_of_decisionStep_applied hstep).le.trans ih.2.1, (not_le.1 hts).le.trans ih.2.2⟩

lemma moves_applyCommitDecisionsCore (size : CommitRecord → ℕ) (decisions : List DecisionView)
    (maxTxnBytes : ℕ) :
    Moves (fun t => { t.dropLog with decisionApplied := none }) false mode applied s
      (s.applyCommitDecisionsCore size mode decisions applied.index applied maxTxnBytes).1 := by
  obtain ⟨hhead, hcur, -⟩ := applyDecisionLoop_head size maxTxnBytes decisions
    ⟨s, s.currentRevision mode, s.lastAppliedDecisionTs, 0, none⟩
  have hrest := rest_applyDecisionLoop size maxTxnBytes decisions
    ⟨s, s.currentRevision mode, s.lastAppliedDecisionTs, 0, none⟩
  unfold applyCommitDecisionsCore
  dsimp only at hhead hcur hrest ⊢
  generalize applyDecisionLoop size maxTxnBytes ⟨s, s.currentRevision mode, s.lastAppliedDecisionTs, 0, none⟩
    decisions = l at hhead hcur hrest ⊢
  refine Moves.note ?_
  -- the cursor is no part of the head
  obtain ⟨cursor, hcursor⟩ : ∃ cursor, (if s.lastAppliedDecisionTs < l.through then
      { l.store with decisionApplied := some l.through } else l.store) = { l.store with decisionApplied :=
        cursor } := by
    split
    · exact ⟨_, rfl⟩
    · exact ⟨_, rfl⟩
  rw [hcursor]
  have hout : ({ l.store with decisionApplied := cursor } : Store).outer.dropLog =
      { s.rest with decisionApplied := cursor } := by
    rw [← hrest]
    rfl
  refine ⟨?_, ?_, fun h => nomatch h⟩
  · split
    · exact ⟨.inl hhead.2, .inr ⟨_, rfl, by omega, fun _ => by omega⟩, fun _ c hc => .inl (hhead.3 c hc)⟩
    · exact .of_sameHead ⟨hhead.1, hhead.2, hhead.3⟩
  · split
    · exact (congrArg (fun t => { t with decisionApplied := none }) hout : _)
    · exact (congrArg (fun t => { t with decisionApplied := none }) hout : _)

/-! ### Compaction, moved ranges and the commit log -/

lemma moves_applyCompact (revision : ℕ) :
    Moves (fun t => { t with compactedRevisionRow := none }) false mode applied s
      (s.applyCompact mode revision applied).1 := by
  unfold applyCompact
  dsimp only
  split
  · exact .refl
  -- the store before its entry is recorded
  let compacted : Store := { s with
    changelog := s.changelog.filter fun r => !decide (r.1 < min revision (s.currentRevision mode))
    kv := s.kv.filter fun r => !s.staleTombstone (min revision (s.currentRevision mode)) r.1
    kvMeta := s.kvMeta.filter fun r => !s.staleTombstone (min revision (s.currentRevision mode)) r.1
    compactedRevisionRow := some (min revision (s.currentRevision mode)) }
  refine (⟨⟨.inl rfl, .inl rfl, ?_⟩, rfl, fun h => nomatch h⟩ : Moves (fun t => { t with compactedRevisionRow := none })
    false mode applied s compacted).note
  rintro rfl c hc
  obtain ⟨event, hevent⟩ := has_iff.1 hc
  by_cases hlt : c < min revision (s.currentRevision .commitTs)
  · have : compacted.currentRevision .commitTs = s.currentRevision .commitTs := rfl
    omega
  · refine .inl (has_iff.2 ⟨event, ?_⟩)
    exact (get_filter _ _ _).trans (by simp [hevent, hlt])

lemma moves_applyRangeImport {watermark : ℕ} {sealed done : Bool} {o : ℕ}
    (h : s.applyRangeImport mode start stop rows watermark sealed done applied = .ok (s', o)) :
    Moves (fun t => { t with compactedRevisionRow := none, decisionApplied := none, importHistoryFloors := [] })
      false mode applied s s' := by
  obtain ⟨rfl, -, s₁, himport, rfl⟩ := applyRangeImport_cases h
  have hrows := rowsOnly_importRows himport
  have hm : Moves (fun t => { t with
      compactedRevisionRow := none, decisionApplied := none, importHistoryFloors :=
        [] }) false .commitTs applied s s₁ :=
    Moves.refl.andThen hrows
  cases done with
  | false => exact hm.record rfl (.inr rfl) (fun _ h => h) rfl fun _ => ⟨rfl, rfl⟩
  | true =>
    cases sealed with
    | false => exact hm.record rfl (.inr rfl) (fun _ h => h) rfl fun _ => ⟨rfl, rfl⟩
    | true => exact ⟨⟨.inr rfl, .inr ⟨_, rfl, Nat.le_max_left _ _, fun h => nomatch h⟩, fun _ c hc =>
        .inl (hrows.changelog c hc)⟩, hm.outer, fun h => nomatch h⟩

lemma moves_clearImportedRange {o : ℕ}
    (h : s.clearImportedRange mode start stop applied = .ok (s', o)) : Moves blank false mode applied s s' := by
  unfold clearImportedRange at h
  split at h
  · cases h
  · cases h
    exact Moves.refl.record rfl (.inr rfl) (fun _ h => h) rfl fun h => nomatch h

lemma moves_trimCommitLogOutbox (throughTs maxRows : ℕ) :
    Moves (fun t => { t.dropLog with trimmedBeforeRow := none }) true mode applied s
      (s.trimCommitLogOutbox mode throughTs maxRows applied).1 := by
  unfold trimCommitLogOutbox
  dsimp only
  split
  · exact .refl
  · split
    · exact moves_setLastApplied
    · exact Moves.note ⟨.of_sameHead ⟨rfl, rfl, fun _ h => h⟩, rfl, fun _ => ⟨rfl, rfl⟩⟩

lemma moves_applyCommitLogAppend (size : CommitRecord → ℕ) (shardId startTs endTs : ℕ)
    (records : List CommitRecord) (maxTxnBytes revision : ℕ) :
    Moves (fun t => { t.dropLog with
        commitLogCursorRow := none, commitLogCountRow := none, commitLogShipped :=
          Lib.Table.empty }) true mode applied s
      (s.applyCommitLogAppend size mode shardId startTs endTs records maxTxnBytes revision applied).1 :=
  (moves_noteLogIndexRevision revision).record rfl (.inr rfl) (fun _ h => h) rfl fun _ => ⟨rfl, rfl⟩

/-! ### The system tables -/

lemma moves_applyLeaseOp (op : LeaseOp) (revision : ℕ) :
    Moves (fun t => { t with leases := Lib.Table.empty }) false mode applied s
      (s.applyLeaseOp mode op revision applied).1 := by
  unfold applyLeaseOp
  split
  · exact .refl
  obtain ⟨leases, keys, heq⟩ := writeLeaseOp_eq (s.noteLogIndexRevision mode revision) revision op
  rw [heq]
  refine Moves.writeChangelog (Moves.andThen ?_ (rowsOnly_deleteKeys keys revision)) _
  exact (moves_noteLogIndexRevision revision).record rfl (.inl rfl) (fun _ h => h) rfl fun _ => ⟨rfl, rfl⟩

lemma moves_applyDeleteKeysByLease (leaseId : ℤ) (revision : ℕ) :
    Moves blank false mode applied s (s.applyDeleteKeysByLease mode leaseId revision applied).1 := by
  unfold applyDeleteKeysByLease
  split
  · exact .refl
  · exact ((moves_noteLogIndexRevision revision).andThen (rowsOnly_deleteKeys _ revision)).writeChangelog _

lemma moves_applyLeaseV2Op (op : LeaseV2Op) (revision : ℕ) :
    Moves (fun t => { t with leasesV2 := Lib.Table.empty, leaseV2Requests := Lib.Table.empty }) true mode applied s
      (s.applyLeaseV2Op mode op revision applied).1 := by
  obtain ⟨leases, requests, heq⟩ := writeLeaseV2Op_eq (s.noteLogIndexRevision mode revision) op
  unfold applyLeaseV2Op
  dsimp only
  rw [heq]
  exact (moves_noteLogIndexRevision revision).record rfl (.inr rfl) (fun _ h => h) rfl fun _ => ⟨rfl, rfl⟩

lemma moves_applyAuthOp (nowMs : ℤ) (op : AuthOp) (revision : ℕ) :
    Moves (fun t => { t with auth := AuthRows.empty }) true mode applied s
      (s.applyAuthOp mode nowMs op revision applied).1 := by
  unfold applyAuthOp
  split
  · exact .refl
  · exact (moves_noteLogIndexRevision revision).record rfl (.inr rfl)
      (fun _ h => has_insert _ _ h) rfl fun _ => ⟨rfl, rfl⟩

lemma moves_applyPdOp {op : PdOp} (h : s.applyPdOp mode op revision applied = .ok (s', o)) :
    Moves (fun t => { t with pdOps := Lib.Table.empty, pdIntents := Lib.Table.empty, regionTableRow := none }) true
      mode applied s s' := by
  rcases applyPdOp_cases h with ⟨rfl, -⟩ | ⟨-, ops, intents, table, rfl⟩
  · exact .refl
  · exact (moves_noteLogIndexRevision revision).record rfl (.inr rfl)
      (fun _ h => has_insert _ _ h) rfl fun _ => ⟨rfl, rfl⟩

lemma moves_applyRegionMetaOp {op : RegionMetaOp} {o : RegionMetaOutcome}
    (h : s.applyRegionMetaOp op applied = .ok (s', o)) :
    Moves (fun t => { t with regionTableRow := none }) true mode applied s s' := by
  have hrec : ∀ row, Moves (fun t => { t with regionTableRow := none }) true mode applied s
      { s with regionTableRow := row, lastApplied := some applied } := fun row =>
    Moves.refl.record rfl (.inr rfl) (fun _ h => h) rfl fun _ => ⟨rfl, rfl⟩
  unfold applyRegionMetaOp at h
  split at h
  · cases h
  dsimp only at h
  split at h
  · cases h
    split <;> exact hrec _
  · cases h
    exact hrec _

lemma moves_applyTsoAllocate {batchSize revision : ℕ} {o : TsoBatchOutcome}
    (h : s.applyTsoAllocate mode batchSize revision applied = .ok (s', o)) :
    Moves (fun t => { t with tsoHighWaterRow := none, tsoLastBatch := none }) true mode applied s s' := by
  unfold applyTsoAllocate at h
  split at h
  · split at h
    · cases h
      exact .refl
    · cases h
      exact .refl
  · dsimp only at h
    split at h
    · cases h
    · cases h
      exact (moves_noteLogIndexRevision revision).record rfl (.inr rfl)
        (fun _ h => has_insert _ _ h) rfl fun _ => ⟨rfl, rfl⟩

lemma moves_applyCommitLogShardOp (op : CommitLogShardOp) (revision : ℕ) :
    Moves (fun t => { t with shardTableRow := none }) true mode applied s
      (s.applyCommitLogShardOp mode op revision applied).1 := by
  simp only [applyCommitLogShardOp]
  split <;>
    exact (moves_noteLogIndexRevision revision).record rfl (.inr rfl) (fun _ h => h) rfl fun _ => ⟨rfl, rfl⟩

/-! ### Fences and watermarks -/

lemma moves_setSafeTsFence (fenceTs : ℕ) :
    Moves (fun t => { t with safeTsFenceRow := none }) true mode applied s (s.setSafeTsFence fenceTs applied).1 := by
  unfold setSafeTsFence
  dsimp only
  split
  · exact .refl
  · exact Moves.refl.record rfl (.inr rfl) (fun _ h => h) rfl fun _ => ⟨rfl, rfl⟩

lemma moves_publishCommitWatermark (watermark : ℕ) :
    Moves (fun t => { t with commitWatermarkRow := none }) true mode applied s
      (s.publishCommitWatermark watermark applied).1 := by
  unfold publishCommitWatermark
  dsimp only
  split
  · exact .refl
  · exact Moves.refl.record rfl (.inr rfl) (fun _ h => h) rfl fun _ => ⟨rfl, rfl⟩

lemma moves_fenceDirectWrites (start stop : Bytes) (opId : ℕ) :
    Moves (fun t => { t with directWriteFence := none }) true mode applied s
      (s.fenceDirectWrites start stop opId applied).1 := by
  unfold fenceDirectWrites
  split
  · exact .refl
  · exact Moves.refl.record rfl (.inr rfl) (fun _ h => h) rfl fun _ => ⟨rfl, rfl⟩

lemma moves_clearDirectWriteFence (opId : ℕ) :
    Moves (fun t => { t with directWriteFence := none }) true mode applied s (s.clearDirectWriteFence opId
      applied) := by
  unfold clearDirectWriteFence
  split
  · exact .refl
  · exact Moves.refl.record rfl (.inr rfl) (fun _ h => h) rfl fun _ => ⟨rfl, rfl⟩

lemma moves_advanceCommitTsWatermark (commitTs : ℕ) :
    Moves blank true mode applied s (s.advanceCommitTsWatermark mode commitTs applied).1 := by
  unfold advanceCommitTsWatermark
  dsimp only
  split
  · exact .refl
  cases mode with
  | logIndex =>
    exact (moves_noteLogIndexRevision applied.index).record (if_neg (by simp)) (.inr rfl) (fun _ h => h) rfl
      fun _ => ⟨rfl, rfl⟩
  | commitTs =>
    have hnote : s.noteLogIndexRevision .commitTs applied.index = s := by simp [noteLogIndexRevision]
    rw [hnote]
    refine ⟨⟨.inr rfl, ?_, fun _ _ h => .inl h⟩, rfl, fun _ => ⟨rfl, rfl⟩⟩
    simp only [if_true]
    split
    · exact .inr ⟨_, rfl, Nat.le_max_left _ _, fun h => nomatch h⟩
    · exact .inl rfl

end Store

end Coord.Storage
