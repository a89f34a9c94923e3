import Coord.Raft.Footprint
import Coord.Storage.RowSteps

/-!
# What the entries of a v1 log do to the keys, and the events they give

An entry of a v1 log writes its changes at its own index and appends them to the changelog, or it leaves the keys alone,
or it compacts. The event for the watchers is made beside the changelog entry.
-/

namespace Coord.Raft

open Coord.Lib Coord.Lib.History Coord.Storage Store Bool

/-- The commands of a cluster without the v2 data plane. -/
def Command.onV1 : Command → Bool
  | .put .. | .delete .. | .deleteRange .. | .txn .. | .lease _ | .auth _ | .compact _ | .deleteKeysByLease _ | .pd _
  | .objectStore _ | .regionMeta _ | .tsoAllocate _ => true
  | _ => false

def Command.manifest : Command → Option Bytes
  | .objectStore op => some op.key
  | _ => none

/-- A change of the kind that the type says; the watchers take a transaction's changes for writes. -/
def Typed (event : ChangeEvent) : Prop :=
  match event.eventType with
  | .put | .txn => ∀ c ∈ event.changes, c.value.isSome = true
  | .delete | .lease => ∀ c ∈ event.changes, c.value = none

/-- The operation writes a value under a key that is not empty, or only reads. -/
def plainOp : TxnOp → Bool
  | .put key _ _ => decide (key ≠ [])
  | .delete _ => false
  | .range _ _ _ => true

/-- The branch that a transaction takes has no other operations. -/
def PlainTxn (s : Store) : Command → Prop
  | .txn compares successOps failureOps =>
    ∀ op ∈ if s.evaluateCompares compares then successOps else failureOps, plainOp op = true
  | _ => True

instance (s : Store) (cmd : Command) : Decidable (PlainTxn s cmd) := by
  cases cmd <;> (unfold PlainTxn; infer_instance)

/-- The event of a changelog entry: the entry itself; or none, when the entry has no changes or they are of the
manifest. -/
inductive Announced (cmd : Command) (entry : ChangeEvent) : Option ChangeEvent → Prop
  | event : Announced cmd entry (some entry)
  | silent (h : ∀ c ∈ entry.changes, some c.key = cmd.manifest) : Announced cmd entry none

/-- What a command at `r` does to the keys and the changelog, with its event. -/
inductive KvEffect (cmd : Command) (r : ℕ) (s s' : Store) : Option ChangeEvent → Prop
  | quiet (hkv : s'.kv = s.kv) (hmeta : s'.kvMeta = s.kvMeta) (hlog : s'.changelog = s.changelog)
      (hcut : s'.compactedRevision = s.compactedRevision)
      (hcur : s'.currentRevision .logIndex = s.currentRevision .logIndex ∨ s'.currentRevision .logIndex = r) :
      KvEffect cmd r s s' none
  | wrote {event : Option ChangeEvent} (entry : ChangeEvent) (hrev : entry.revision = r) (htyped : Typed entry)
      (hget : ∀ k, s'.get k = overwrite s.get (changePairs entry.changes) k) (hrows : s'.RowsHaveMeta)
      (hlog : s'.changelog = s.changelog.insert r entry) (hcut : s'.compactedRevision = s.compactedRevision)
      (hcur : s'.currentRevision .logIndex = r) (hevent : Announced cmd entry event) : KvEffect cmd r s s' event
  | compacted (effective : ℕ) (hlt : s.compactedRevision < effective)
      (hle : effective ≤ s.currentRevision .logIndex) (hget : s'.get = s.get) (hrows : s'.RowsHaveMeta)
      (hlog : s'.changelog = s.changelog.filter fun row => !decide (row.1 < effective))
      (hcut : s'.compactedRevision = effective)
      (hcur : s'.currentRevision .logIndex = s.currentRevision .logIndex ∨ s'.currentRevision .logIndex = r) :
      KvEffect cmd r s s' none

/-! ### Writes -/

/-- The store once the guard has let the index through. -/
def advanced (s : Store) (r : ℕ) : Store := { s with currentRevisionRow := some r }

section

variable {cmd : Command} {r : ℕ} {s s₁ s₂ : Store} {event : Option ChangeEvent} {changes : List KeyValueChange}

lemma kvEffect_wrote {t : EventType} (hw : Wrote s₁ s₂ r changes) (hkv : s₁.kv = s.kv) (hmeta : s₁.kvMeta = s.kvMeta)
    (hlog : s₁.changelog = s.changelog) (hcut : s₁.compactedRevisionRow = s.compactedRevisionRow)
    (hcur : s₁.currentRevisionRow = some r) (htyped : Typed ⟨r, changes, t⟩)
    (hevent : Announced cmd ⟨r, changes, t⟩ event) (applied : AppliedLogId) :
    KvEffect cmd r s (s₂.writeChangelog ⟨r, changes, t⟩ applied) event := by
  have hget : s₁.get = s.get := funext fun k => get_congr (by rw [hkv]) (by rw [hmeta])
  refine .wrote ⟨r, changes, t⟩ rfl htyped ?_ hw.rows ?_ ?_ ?_ hevent
  · intro k
    rw [← hget]
    exact hw.get k
  · change s₂.changelog.insert r _ = _
    rw [hw.frame, hlog]
  · change s₂.compactedRevisionRow.getD 0 = _
    rw [hw.frame, hcut]
    rfl
  · refine currentRevision_of_row ?_
    change s₂.currentRevisionRow = _
    rw [hw.frame]
    exact hcur

lemma kvEffect_advanced {t : EventType} (hw : Wrote (advanced s r) s₂ r changes) (htyped : Typed ⟨r, changes, t⟩)
    (hevent : Announced cmd ⟨r, changes, t⟩ event) (applied : AppliedLogId) :
    KvEffect cmd r s (s₂.writeChangelog ⟨r, changes, t⟩ applied) event :=
  kvEffect_wrote (s := s) hw rfl rfl rfl rfl rfl htyped hevent applied

lemma rows_advanced (h : s.RowsHaveMeta) (r : ℕ) : (advanced s r).RowsHaveMeta := h

lemma acceptLogIndex_ok (h : s.acceptRevision .logIndex r .logIndex = .ok s₁) : s₁ = advanced s r :=
  (acceptRevision_ok (fun _ => rfl) h).2

lemma typed_deletes {keys : List Bytes} {t : EventType} (ht : t = .delete ∨ t = .lease) :
    Typed ⟨r, keys.map fun k => ⟨k, none⟩, t⟩ := by
  rcases ht with rfl | rfl <;> (intro c hc; obtain ⟨k, -, rfl⟩ := List.mem_map.1 hc; rfl)

variable {applied : AppliedLogId}

section

variable (hrows : s.RowsHaveMeta) (hnew : s.changelog.has r = false)
include hrows hnew

lemma putAtKey_logIndex {key value : Bytes} {leaseId : Option ℤ} {o : ApplyOutcome}
    (h : s.putAtKey .logIndex key value leaseId r applied .logIndex = .ok (s₂, o)) :
    o = ⟨false⟩ ∧ ∀ {event : Option ChangeEvent}, Announced cmd ⟨r, [⟨key, some value⟩], .put⟩ event →
      KvEffect cmd r s s₂ event := by
  simp only [putAtKey, replayGuard, hnew, false_eq_true, if_false] at h
  split at h
  · cases h
  next s₁ hacc =>
  obtain rfl := acceptLogIndex_ok hacc
  cases h
  refine ⟨rfl, fun hevent => kvEffect_advanced (wrote_put (rows_advanced hrows r) key value _ r) ?_ hevent applied⟩
  · intro c hc
    rw [List.mem_singleton.1 hc]
    rfl

lemma deleteAtKey_logIndex {key : Bytes} {o : ApplyOutcome}
    (h : s.deleteAtKey .logIndex key r applied .logIndex = .ok (s₂, o)) :
    o = ⟨false⟩ ∧ ∀ {event : Option ChangeEvent}, Announced cmd ⟨r, [⟨key, none⟩], .delete⟩ event →
      KvEffect cmd r s s₂ event := by
  simp only [deleteAtKey, replayGuard, hnew, false_eq_true, if_false] at h
  split at h
  · cases h
  next s₁ hacc =>
  obtain rfl := acceptLogIndex_ok hacc
  cases h
  exact ⟨rfl, fun hevent => kvEffect_advanced (wrote_delete (rows_advanced hrows r) key r)
    (@typed_deletes r [key] .delete (.inl rfl)) hevent applied⟩

lemma deleteRangeAtKey_logIndex {start stop : Bytes} {o : DeleteRangeOutcome}
    (h : s.deleteRangeAtKey .logIndex start stop r applied .logIndex = .ok (s₂, o)) :
    o.replayed = false ∧ ∀ {event : Option ChangeEvent},
      Announced cmd ⟨r, o.deletedKeys.map fun k => ⟨k, none⟩, .delete⟩ event → KvEffect cmd r s s₂ event := by
  simp only [deleteRangeAtKey, replayGuard, hnew, false_eq_true, if_false] at h
  split at h
  · cases h
  next s₁ hacc =>
  obtain rfl := acceptLogIndex_ok hacc
  cases h
  exact ⟨rfl, fun hevent => kvEffect_advanced (wrote_deleteKeys (rows_advanced hrows r) _ r)
    (typed_deletes (.inl rfl)) hevent
    applied⟩

end

lemma executeOps_plain (ops : List TxnOp) (h : ∀ op ∈ ops, plainOp op = true) :
    txnChanges ops = (s.executeOps r ops).2.2 ∧ ∀ c ∈ (s.executeOps r ops).2.2, c.value.isSome = true := by
  induction ops generalizing s with
  | nil => exact ⟨rfl, fun c hc => by cases hc⟩
  | cons op ops ih =>
    have hop := h op List.mem_cons_self
    have hops : ∀ op ∈ ops, plainOp op = true := fun op hop => h op (List.mem_cons_of_mem _ hop)
    cases op with
    | put key value leaseId =>
      have hkey : key ≠ [] := of_decide_eq_true hop
      obtain ⟨heq, hsome⟩ := @ih (s.writePut key value (leaseId.getD 0) r) hops
      refine ⟨?_, ?_⟩
      · have hcons : txnChanges (.put key value leaseId :: ops) = ⟨key, some value⟩ :: txnChanges ops := by
          simp [txnChanges, hkey]
        rw [hcons, heq]
        rfl
      · rintro c (_ | ⟨_, hc⟩)
        · rfl
        · exact hsome c hc
    | delete key => cases hop
    | range key rangeEnd limit => exact @ih s hops

lemma executeTxn_logIndex {compares : List TxnCompare} {successOps failureOps : List TxnOp} {o : TxnResult}
    (hrows : s.RowsHaveMeta) (hnew : s.changelog.has r = false)
    (hplain : PlainTxn s (.txn compares successOps failureOps))
    (h : s.executeTxnAtRevision .logIndex compares successOps failureOps r applied = .ok (s₂, o)) :
    KvEffect cmd r s s₂ (some ⟨r, txnChanges (if o.succeeded then successOps else failureOps), .txn⟩) := by
  simp only [executeTxnAtRevision, hnew, false_eq_true, if_false] at h
  split at h
  · cases h
  next s₁ hacc =>
  obtain rfl := acceptLogIndex_ok hacc
  cases h
  -- the conditions are on the rows, which the guard has left alone
  have hcond : (advanced s r).evaluateCompares compares = s.evaluateCompares compares := rfl
  dsimp only
  rw [hcond]
  obtain ⟨heq, hsome⟩ := @executeOps_plain r (advanced s r) _ hplain
  rw [heq]
  refine kvEffect_advanced (wrote_ops (rows_advanced hrows r) _ r) ?_ .event applied
  exact hsome

/-! ### Leases and system rows -/

lemma note_advanced (hlt : s.currentRevision .logIndex < r) : s.noteLogIndexRevision .logIndex r = advanced s r := by
  simp [noteLogIndexRevision, hlt, advanced]

lemma kvEffect_system (hrows : s.RowsHaveMeta) (hkv : s₂.kv = s.kv) (hmeta : s₂.kvMeta = s.kvMeta)
    (hlog : s₂.changelog = s.changelog) (hcut : s₂.compactedRevisionRow = s.compactedRevisionRow)
    (hcur : s₂.currentRevisionRow = some r) : KvEffect cmd r s (s₂.writeChangelog ⟨r, [], .put⟩ applied) none := by
  have hrows₂ : s₂.RowsHaveMeta := by
    intro k hk
    rw [hkv]
    exact hrows k (by rwa [hmeta] at hk)
  have htyped : Typed ⟨r, [], .put⟩ := fun c hc => by cases hc
  exact kvEffect_wrote (.refl hrows₂ r) hkv hmeta hlog hcut hcur htyped (.silent fun c hc => by cases hc) applied

lemma applyLeaseOp_logIndex {op : LeaseOp} (hrows : s.RowsHaveMeta) (hnew : s.changelog.has r = false)
    (hlt : s.currentRevision .logIndex < r) :
    ∃ s' changes, s.applyLeaseOp .logIndex op r applied = (s', ⟨false⟩, changes) ∧
      KvEffect cmd r s s' (some ⟨r, changes, .lease⟩) := by
  obtain ⟨leases, keys, heq⟩ := writeLeaseOp_eq (advanced s r) r op
  have hl : Store.RowsHaveMeta { advanced s r with leases := leases } := hrows
  have heff : KvEffect cmd r s _ _ := kvEffect_wrote (s := s) (wrote_deleteKeys hl keys r) rfl rfl rfl rfl rfl
    (typed_deletes (.inr rfl)) .event applied
  refine ⟨_, _, ?_, heff⟩
  simp only [applyLeaseOp, hnew, false_eq_true, if_false, note_advanced hlt, heq]

lemma applyDeleteKeysByLease_logIndex {leaseId : ℤ} (hrows : s.RowsHaveMeta) (hnew : s.changelog.has r = false)
    (hlt : s.currentRevision .logIndex < r) :
    ∃ s' changes, s.applyDeleteKeysByLease .logIndex leaseId r applied = (s', ⟨false⟩, changes) ∧
      KvEffect cmd r s s' (some ⟨r, changes, .lease⟩) := by
  refine ⟨_, _, ?_, kvEffect_advanced (wrote_deleteKeys (rows_advanced hrows r) ((advanced s r).keysByLease leaseId) r)
    (typed_deletes (.inr rfl)) .event applied⟩
  simp only [applyDeleteKeysByLease, hnew, false_eq_true, if_false, note_advanced hlt,
    deleteKeysByLease]

/-! ### Compaction, objects and entries without rows -/

lemma currentRevision_setLastApplied (hr : applied.index = r) :
    (s.setLastApplied .logIndex applied).currentRevision .logIndex = s.currentRevision .logIndex ∨
      (s.setLastApplied .logIndex applied).currentRevision .logIndex = r := by
  subst hr
  unfold setLastApplied noteLogIndexRevision
  split
  · exact .inr rfl
  · cases hrow : s.currentRevisionRow with
    | some v => exact .inl (by simp [currentRevision, hrow])
    | none => exact .inr (by simp [currentRevision])

lemma setLastApplied_eq (s : Store) (applied : AppliedLogId) : ∃ row, s.setLastApplied .logIndex applied =
    { s with lastApplied := some applied, currentRevisionRow := row } := by
  unfold setLastApplied noteLogIndexRevision
  split
  · exact ⟨_, rfl⟩
  · exact ⟨s.currentRevisionRow, rfl⟩

lemma kvEffect_setLastApplied (hr : applied.index = r) :
    KvEffect cmd r s (s.setLastApplied .logIndex applied) none := by
  have hcur := @currentRevision_setLastApplied r s applied hr
  obtain ⟨row, hrow⟩ := setLastApplied_eq s applied
  rw [hrow] at hcur ⊢
  exact .quiet rfl rfl rfl rfl hcur

lemma applyCompact_logIndex {target : ℕ} (hrows : s.RowsHaveMeta) (hr : applied.index = r) :
    KvEffect cmd r s (s.applyCompact .logIndex target applied).1 none := by
  unfold applyCompact
  dsimp only
  split
  · exact .quiet rfl rfl rfl rfl (.inl rfl)
  next hne =>
  obtain ⟨-, hlt⟩ := not_or.1 hne
  -- the compacted store, before its entry is recorded
  set effective := min target (s.currentRevision .logIndex)
  set c : Store := { s with
    changelog := s.changelog.filter fun row => !decide (row.1 < effective)
    kv := s.kv.filter fun row => !s.staleTombstone effective row.1
    kvMeta := s.kvMeta.filter fun row => !s.staleTombstone effective row.1
    compactedRevisionRow := some effective }
  have hcompact := compacting_filter s effective
  change KvEffect cmd r s (c.setLastApplied .logIndex applied) none
  have hcur := @currentRevision_setLastApplied r c applied hr
  obtain ⟨row, hrow⟩ := setLastApplied_eq c applied
  rw [hrow] at hcur ⊢
  exact .compacted effective (not_le.1 hlt) (min_le_right _ _) hcompact.get_eq (hcompact.rowsHaveMeta hrows) rfl rfl
    hcur

/-- An object operation records its entry, or writes or deletes the manifest without an event. -/
lemma applyObjectStoreOp_logIndex {env : ObjectEnv} {op : ObjectStoreOp} {changed : Bool} (hrows : s.RowsHaveMeta)
    (hnew : s.changelog.has r = false) (hr : applied.index = r)
    (h : s.applyObjectStoreOp env .logIndex op r applied = .ok (s₂, changed)) :
    KvEffect (.objectStore op) r s s₂ none := by
  have hsilent : ∀ value t, Announced (.objectStore op) ⟨r, [⟨op.key, value⟩], t⟩ none := by
    intro value t
    refine .silent fun c hc => ?_
    rw [List.mem_singleton.1 hc]
    rfl
  obtain ⟨o, ho⟩ := applyObjectStoreOp_ok h
  unfold applyObjectStoreOpInner at ho
  split at ho
  · cases ho
    exact kvEffect_setLastApplied hr
  rcases applyObjectStoreOpBody_cases ho with ⟨rfl, hhas⟩ | rfl | ⟨m, hm⟩ | hd
  · rw [hnew] at hhas
    cases hhas
  · subst hr
    exact kvEffect_setLastApplied rfl
  · obtain ⟨_, hput⟩ := putManifest_ok hm
    exact (putAtKey_logIndex hrows hnew hput).2 (hsilent _ _)
  · obtain ⟨_, hdel⟩ := deleteManifest_ok hd
    exact (deleteAtKey_logIndex hrows hnew hdel).2 (hsilent _ _)

lemma kvEffect_position (hkv : s₂.kv = s.kv) (hmeta : s₂.kvMeta = s.kvMeta) (hlog : s₂.changelog = s.changelog)
    (hcut : s₂.compactedRevisionRow = s.compactedRevisionRow) (hcur : s₂.currentRevisionRow = s.currentRevisionRow)
    (hpos : s₂.lastApplied = some applied) (hr : applied.index = r) : KvEffect cmd r s s₂ none := by
  refine .quiet hkv hmeta hlog (congrArg (·.getD 0) hcut) ?_
  simp only [currentRevision, hcur, hpos]
  cases s.currentRevisionRow with
  | some v => exact .inl rfl
  | none => exact .inr hr

lemma applyRegionMetaOp_logIndex {op : RegionMetaOp} {o : RegionMetaOutcome} (hr : applied.index = r)
    (h : s.applyRegionMetaOp op applied = .ok (s₂, o)) : KvEffect cmd r s s₂ none := by
  unfold applyRegionMetaOp at h
  split at h
  · cases h
  dsimp only at h
  split at h
  · cases h
    split <;> exact kvEffect_position rfl rfl rfl rfl rfl rfl hr
  · cases h
    exact kvEffect_position rfl rfl rfl rfl rfl rfl hr

end

/-! ### Commands -/

theorem kvEffect_executeCommand {cfg : Config} {nowMs : ℤ} {s s' : Store} {cmd : Command} {applied : AppliedLogId}
    {answer : Response} {event : Option ChangeEvent} (hmode : cfg.mode = .logIndex) (hv1 : cmd.onV1 = true)
    (hplain : PlainTxn s cmd) (hrows : s.RowsHaveMeta) (hnew : s.changelog.has applied.index = false)
    (hlt : s.currentRevision .logIndex < applied.index)
    (h : executeCommand cfg nowMs s cmd applied.index applied = .ok (s', answer, event)) :
    KvEffect cmd applied.index s s' event := by
  cases cmd with
  | put key value leaseId =>
    obtain ⟨⟨t, o⟩, ht, he⟩ := map_eq_ok h
    obtain ⟨rfl, heff⟩ := putAtKey_logIndex hrows hnew (hmode ▸ ht)
    cases he
    exact heff .event
  | delete key =>
    obtain ⟨⟨t, o⟩, ht, he⟩ := map_eq_ok h
    obtain ⟨rfl, heff⟩ := deleteAtKey_logIndex hrows hnew (hmode ▸ ht)
    cases he
    exact heff .event
  | deleteRange key rangeEnd =>
    obtain ⟨⟨t, o⟩, ht, he⟩ := map_eq_ok h
    obtain ⟨ho, heff⟩ := deleteRangeAtKey_logIndex hrows hnew (hmode ▸ ht)
    dsimp only at he
    rw [ho] at he
    cases he
    exact heff .event
  | txn compares successOps failureOps =>
    simp only [executeCommand, hnew, false_eq_true, if_false] at h
    obtain ⟨⟨t, o⟩, ht, he⟩ := map_eq_ok h
    cases he
    exact executeTxn_logIndex hrows hnew hplain (hmode ▸ ht)
  | lease op =>
    obtain ⟨t, changes, heq, heff⟩ := @applyLeaseOp_logIndex (.lease op) _ s applied op hrows hnew hlt
    simp only [executeCommand, hmode, heq] at h
    cases h
    exact heff
  | auth op =>
    simp only [executeCommand, hmode, applyAuthOp, hnew, false_eq_true, if_false, note_advanced hlt] at h
    cases h
    exact kvEffect_system hrows rfl rfl rfl rfl rfl
  | compact target =>
    simp only [executeCommand, hmode] at h
    cases h
    exact applyCompact_logIndex hrows rfl
  | deleteKeysByLease leaseId =>
    obtain ⟨t, changes, heq, heff⟩ :=
      @applyDeleteKeysByLease_logIndex (.deleteKeysByLease leaseId) _ s applied leaseId hrows hnew hlt
    simp only [executeCommand, hmode, heq] at h
    cases h
    exact heff
  | pd op =>
    obtain ⟨⟨t, o⟩, ht, he⟩ := map_eq_ok h
    cases he
    rcases applyPdOp_cases ht with ⟨-, hhas⟩ | ⟨-, ops, intents, table, rfl⟩
    · rw [hnew] at hhas
      cases hhas
    · rw [hmode, note_advanced hlt]
      exact kvEffect_system hrows rfl rfl rfl rfl rfl
  | objectStore op =>
    simp only [executeCommand, hmode] at h
    obtain ⟨⟨t, o⟩, ht, he⟩ := map_eq_ok h
    cases he
    exact applyObjectStoreOp_logIndex hrows hnew rfl ht
  | regionMeta op =>
    obtain ⟨⟨t, o⟩, ht, he⟩ := map_eq_ok h
    cases he
    exact applyRegionMetaOp_logIndex rfl ht
  | tsoAllocate batchSize =>
    obtain ⟨⟨t, o⟩, ht, he⟩ := map_eq_ok h
    cases he
    simp only [applyTsoAllocate, hmode, hnew, false_eq_true, if_false, note_advanced hlt] at ht
    split at ht
    · cases ht
    · cases ht
      exact kvEffect_system hrows rfl rfl rfl rfl rfl
  | _ => cases hv1

end Coord.Raft
