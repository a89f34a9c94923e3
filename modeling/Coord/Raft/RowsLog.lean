import Coord.SplitMerge.ImportPages

/-!
# The modification revisions along a log

What the entries of a v2 Region's log do to the rows: a write stamps them above the current revision, an imported page
brings rows that are newer than what is there, a reset or a compaction drops rows, and nothing else touches them.
Between the pages of a split the rows are ahead of the revision, which the last page raises.
-/

namespace Coord.Raft

open Coord.Lib Coord.Storage

/-- The v1 commands, which are for Regions whose revision is the log index. -/
def Command.isV1 : Command → Bool
  | .put .. | .delete .. | .deleteRange .. | .txn .. | .lease _ | .deleteKeysByLease _ => true
  | _ => false

/-- The commands that stamp rows: v2 writes, lease cleanups and decisions. -/
def Command.stamps : Command → Bool
  | .putV2 .. | .deleteV2 .. | .deleteRangeV2 .. | .deleteKeysByLeaseV2 .. | .objectStoreV2 _
  | .applyCommitDecisions _ | .applyCommitDecisionsWithLog .. => true
  | _ => false

/-- The rows, the watermark and the two flags of a page of an import. -/
def Command.importPage : Command → Option (List VersionedKv × ℕ × Bool × Bool)
  | .importRange _ _ rows watermark done => some (rows, watermark, true, done)
  | .importRangePreserveHistory _ _ rows watermark done => some (rows, watermark, false, done)
  | _ => none

section

variable {cfg : Config} {nowMs : ℤ} {s s' : Store} {cmd : Command} {revision : ℕ} {applied : AppliedLogId}
  {o : Response × Option ChangeEvent}

lemma restamps_executeCommand (hmode : cfg.mode = .commitTs) (hcmd : cmd.stamps = true)
    (h : executeCommand cfg nowMs s cmd revision applied = .ok (s', o)) : Restamps s s' := by
  cases cmd with
  | putV2 key value leaseId commitTs =>
    rcases direct_ok h with rfl | ⟨_, ht⟩
    · exact restamps_of_rows row_setLastApplied
    · exact restamps_putAtCommitTs (hmode ▸ ht)
  | deleteV2 key commitTs =>
    rcases direct_ok h with rfl | ⟨_, ht⟩
    · exact restamps_of_rows row_setLastApplied
    · exact restamps_deleteAtCommitTs (hmode ▸ ht)
  | deleteRangeV2 key rangeEnd commitTs =>
    rcases direct_ok h with rfl | ⟨_, ht⟩
    · exact restamps_of_rows row_setLastApplied
    · exact restamps_deleteRangeAtCommitTs (hmode ▸ ht)
  | deleteKeysByLeaseV2 leaseId commitTs =>
    rcases orRejected_ok h with rfl | ⟨_, ht⟩
    · exact restamps_of_rows row_setLastApplied
    · exact restamps_deleteKeysByLeaseAtCommitTs (hmode ▸ ht)
  | objectStoreV2 op =>
    simp only [executeCommand, hmode, ne_eq, not_true_eq_false, if_false] at h
    obtain ⟨_, ht⟩ := map_ok h
    exact restamps_applyObjectStoreOpV2 ht
  | applyCommitDecisions decisions =>
    obtain rfl : (s.applyCommitDecisions cfg.size cfg.mode decisions revision applied).1 = s' :=
      congrArg Prod.fst (Except.ok.inj h)
    rw [hmode]
    exact restamps_applyCommitDecisionsCore _ _ _ _
  | applyCommitDecisionsWithLog maxTxnBytes decisions =>
    obtain rfl : (s.applyCommitDecisionsWithLog cfg.size cfg.mode decisions revision applied maxTxnBytes).1 =
        s' := congrArg Prod.fst (Except.ok.inj h)
    rw [hmode]
    exact restamps_applyCommitDecisionsCore _ _ _ _
  | _ => cases hcmd

lemma keeps_executeCommand (hmode : cfg.mode = .commitTs) (hv1 : cmd.isV1 = false) (hcmd : cmd.stamps = false)
    (himport : cmd.importPage = none) (h : executeCommand cfg nowMs s cmd applied.index applied = .ok (s', o))
      (k : Bytes) :
    s'.row k = s.row k ∨ s'.row k = (none, none) := by
  cases cmd with
  | compact target =>
    obtain rfl : (s.applyCompact cfg.mode target applied).1 = s' := congrArg Prod.fst (Except.ok.inj h)
    rw [hmode]
    exact row_applyCompact target k
  | clearImportRange startKey endKey =>
    obtain ⟨_, ht⟩ := map_ok h
    rw [hmode] at ht
    rw [row_clearImportedRange ht k]
    split
    · exact .inr rfl
    · exact .inl rfl
  | objectStore op =>
    simp only [executeCommand, hmode, if_true] at h
    obtain rfl : s.persistApplied .commitTs applied.index applied = s' := congrArg Prod.fst (Except.ok.inj h)
    exact .inl (row_persistApplied k applied.index)
  | importRange | importRangePreserveHistory => cases himport
  | put | delete | deleteRange | txn | lease | deleteKeysByLease => cases hv1
  | putV2 | deleteV2 | deleteRangeV2 | deleteKeysByLeaseV2 | objectStoreV2 | applyCommitDecisions
  | applyCommitDecisionsWithLog => cases hcmd
  | _ => exact .inl (row_of_moves (moves_executeCommand h) k)

lemma import_executeCommand {rows : List VersionedKv} {watermark : ℕ} {sealed done : Bool}
    (himport : cmd.importPage = some (rows, watermark, sealed, done))
    (h : executeCommand cfg nowMs s cmd revision applied = .ok (s', o)) :
    (∃ start stop, ∀ row ∈ rows, ImportRowOk start stop watermark row) ∧
      (∀ k, s'.row k = s.row k ∨ ImportedFrom rows k (s.row k) (s'.row k)) ∧
      s'.currentRevision .commitTs =
        if sealed = true ∧ done = true then max (s.currentRevision .commitTs) watermark
        else s.currentRevision .commitTs := by
  cases cmd with
  | importRange startKey endKey =>
    cases himport
    obtain ⟨_, ht⟩ := map_ok h
    obtain ⟨hok, -, hrow, hcur⟩ := applyRangeImport_ok ht
    exact ⟨⟨startKey, endKey, hok⟩, hrow, hcur⟩
  | importRangePreserveHistory startKey endKey =>
    cases himport
    obtain ⟨_, ht⟩ := map_ok h
    obtain ⟨hok, -, hrow, hcur⟩ := applyRangeImport_ok ht
    exact ⟨⟨startKey, endKey, hok⟩, hrow, hcur⟩
  | _ => cases himport

end

variable {cfg : Config} {nowMs : ℤ} {s s' : Store} {e : Entry} {o : Response}

lemma currentRevision_le_applyEntry (hmode : cfg.mode = .commitTs) (h : applyEntry cfg nowMs s e = .ok (s', o)) :
    s.currentRevision .commitTs ≤ s'.currentRevision .commitTs := by
  rcases (raises_applyEntry h).revision with hrow | ⟨v, hrow, hle, -⟩
  · simp only [Store.currentRevision, hrow, le_refl]
  · rw [Store.currentRevision_of_row hrow]
    exact hmode ▸ hle

/-! ### Entries -/

def Entry.command (e : Entry) : Option Command :=
  match e.payload with
  | .normal cmd => some cmd
  | _ => none

/-- What an entry may do to the row of a key: keep it, drop it, stamp it above the revision, or replace it with a
newer row of an imported page. -/
inductive RowMove (e : Entry) (s s' : Store) (k : Bytes) : Prop
  | same (h : s'.row k = s.row k)
  | dropped (h : s'.row k = (none, none))
  | stamped (cmd : Command) (hcmd : cmd ∈ e.command) (hs : cmd.stamps = true) (ts : ℕ)
      (hlo : s.currentRevision .commitTs < ts) (hhi : ts ≤ s'.currentRevision .commitTs)
      (h : Stamped ts (s.row k) (s'.row k))
  | imported (cmd : Command) (hcmd : cmd ∈ e.command) (rows : List VersionedKv) (watermark : ℕ)
      (sealPriorHistory done : Bool) (himport : cmd.importPage = some (rows, watermark, sealPriorHistory, done))
      (hok : ∃ start stop, ∀ row ∈ rows, ImportRowOk start stop watermark row)
      (h : ImportedFrom rows k (s.row k) (s'.row k))
      (hcur : s'.currentRevision .commitTs =
        if sealPriorHistory = true ∧ done = true then max (s.currentRevision .commitTs) watermark
        else s.currentRevision .commitTs)

theorem rowMove_applyEntry (hmode : cfg.mode = .commitTs) (hv1 : ∀ cmd ∈ e.command, cmd.isV1 = false)
    (h : applyEntry cfg nowMs s e = .ok (s', o)) (k : Bytes) : RowMove e s s' k := by
  unfold applyEntry at h
  cases hp : e.payload with
  | blank =>
    rw [hp] at h
    cases h
    exact .same rfl
  | membership config =>
    rw [hp] at h
    obtain rfl : ({ s.setLastApplied cfg.mode e.logId with membershipRow := some ⟨e.logId, config⟩ } : Store) = s' :=
      congrArg Prod.fst (Except.ok.inj h)
    exact .same (@row_setLastApplied cfg.mode _ _ k)
  | normal cmd =>
    rw [hp] at h
    obtain ⟨⟨t, o'⟩, ht, he⟩ := map_eq_ok h
    obtain rfl : t = s' := congrArg Prod.fst he
    have hcmd : cmd ∈ e.command := by rw [Entry.command, hp]; rfl
    cases himport : cmd.importPage with
    | some page =>
      obtain ⟨rows, watermark, sealed, done⟩ := page
      obtain ⟨hok, hrow, hcur⟩ := import_executeCommand himport ht
      rcases hrow k with hrow | hrow
      · exact .same hrow
      · exact .imported cmd hcmd rows watermark sealed done himport hok hrow hcur
    | none =>
      cases hs : cmd.stamps with
      | true =>
        rcases restamps_executeCommand hmode hs ht k with hrow | ⟨ts, hlo, hhi, hrow⟩
        · exact .same hrow
        · exact .stamped cmd hcmd hs ts hlo hhi hrow
      | false =>
        rcases keeps_executeCommand hmode (hv1 cmd hcmd) hs himport ht k with hrow | hrow
        · exact .same hrow
        · exact .dropped hrow

/-! ### Whole rows -/

/-- Every row of metadata has its value, and its revisions and its version are positive. -/
def RowsWhole (s : Store) : Prop :=
  ∀ k m, s.kvMeta.get k = some m →
    (s.kv.get k).isSome = true ∧ 0 < m.createRevision ∧ 0 < m.modRevision ∧ 0 < m.version

lemma RowsWhole.move (hs : RowsWhole s) (h : ∀ k, RowMove e s s' k) : RowsWhole s' := by
  intro k m hm
  change (s'.row k).1.isSome = true ∧ _
  have hm' : (s'.row k).2 = some m := hm
  cases h k with
  | same h =>
    rw [h] at hm' ⊢
    exact hs k m hm'
  | dropped h =>
    rw [h] at hm'
    cases hm'
  | stamped cmd hcmd hstamps ts hlo hhi h =>
    obtain ⟨m₁, hm₁, hmod, hold⟩ := h
    obtain rfl : m₁ = m := Option.some.inj (hm₁.symm.trans hm')
    rcases hold with ⟨-, hvalue, hcreate, hversion⟩ | ⟨m₀, hm₀, hcreate, hversion, hvalue⟩
    · exact ⟨hvalue, hcreate, by omega, hversion⟩
    · obtain ⟨h1, h2, h3, h4⟩ := hs k m₀ hm₀
      exact ⟨hvalue h1, by omega, by omega, by omega⟩
  | imported cmd hcmd rows watermark sealed done himport hok h hcur =>
    obtain ⟨row, hmem, -, hnew, -⟩ := h
    obtain ⟨start, stop, hok⟩ := hok
    rw [hnew] at hm' ⊢
    obtain rfl : row.2.2 = m := Option.some.inj hm'
    have := hok row hmem
    exact ⟨rfl, this.create_pos, this.mod_pos, this.version_pos⟩

theorem rowsWhole_log {clock : ℕ → ℤ} {s : Store} {log : List Entry} (hmode : cfg.mode = .commitTs)
    (hv1 : ∀ e ∈ log, ∀ cmd ∈ e.command, cmd.isV1 = false) (hs : RowsWhole s) :
    RowsWhole (applyEntries cfg clock s log).1 :=
  applyEntries_inv RowsWhole hs fun _ e he _ _ h hs => hs.move (rowMove_applyEntry hmode (hv1 e he) h)

lemma rowsWhole_empty : RowsWhole Store.empty := fun _ _ h => by cases h

/-! ### Modification revisions -/

/-- The watermark of a split's page that is not the last. -/
def Command.openWatermark : Command → ℕ
  | .importRange _ _ _ watermark false => watermark
  | _ => 0

/-- A store, and the highest watermark of the pages of splits that were not the last. -/
structure Importing where
  store : Store
  pinned : ℕ

/-- One entry; an entry that fails leaves the store as it was. -/
def importStep (cfg : Config) (clock : ℕ → ℤ) (r : Importing) (e : Entry) : Importing × Option Error :=
  match applyEntry cfg (clock e.logId.index) r.store e with
  | .error err => (r, some err)
  | .ok (s, _) => (⟨s, max r.pinned ((e.command.map Command.openWatermark).getD 0)⟩, none)

/-- What the callers see to: a v2 Region gets no v1 command, takes no write while a split into it is under way, and
merges rows up to a revision it has reached. -/
def Orderly (r : Importing) (e : Entry) : Prop :=
  ∀ cmd ∈ e.command, cmd.isV1 = false ∧ (cmd.stamps = true → r.pinned ≤ r.store.currentRevision .commitTs) ∧
    ∀ page ∈ cmd.importPage, page.2.2.1 = false → page.2.1 ≤ r.store.currentRevision .commitTs

instance (r : Importing) (e : Entry) : Decidable (Orderly r e) := by
  unfold Orderly
  infer_instance

/-- No row is ahead of the revision and of the open import. -/
def RowsReached (r : Importing) : Prop :=
  ∀ key m, r.store.kvMeta.get key = some m → m.modRevision ≤ max (r.store.currentRevision .commitTs) r.pinned

/-- What one entry may do to the modification revision of a row: the row is as it was, or it is newer than before and
reached by the revision or the open import after the entry. -/
lemma modRevision_applyEntry {r : Importing} {s' : Store}
    (hmode : cfg.mode = .commitTs) (horder : Orderly r e) (hinv : RowsReached r)
    (h : applyEntry cfg nowMs r.store e = .ok (s', o)) {key : Bytes} {m' : KvMetadata}
    (hm' : s'.kvMeta.get key = some m') :
    r.store.kvMeta.get key = some m' ∨
      (m'.modRevision ≤ max (s'.currentRevision .commitTs)
        (max r.pinned ((e.command.map Command.openWatermark).getD 0)) ∧
        ∀ m, r.store.kvMeta.get key = some m → m.modRevision ≤ m'.modRevision) := by
  have hle := currentRevision_le_applyEntry hmode h
  have hm : (s'.row key).2 = some m' := hm'
  cases rowMove_applyEntry hmode (fun cmd hcmd => (horder cmd hcmd).1) h key with
  | same hrow =>
    rw [hrow] at hm
    exact .inl hm
  | dropped hrow =>
    rw [hrow] at hm
    cases hm
  | stamped cmd hcmd hs ts hlo hhi hrow =>
    obtain ⟨m₁, hm₁, hmod, -⟩ := hrow
    obtain rfl : m₁ = m' := Option.some.inj (hm₁.symm.trans hm)
    refine .inr ⟨by omega, fun m hm => ?_⟩
    have := hinv key m hm
    have := (horder cmd hcmd).2.1 hs
    omega
  | imported cmd hcmd rows watermark sealed done himport hok hrow hcur =>
    obtain ⟨row, hmem, -, hnew, hold⟩ := hrow
    obtain ⟨start, stop, hok⟩ := hok
    rw [hnew] at hm
    obtain rfl : row.2.2 = m' := Option.some.inj hm
    refine .inr ⟨?_, fun m hm => (hold m hm).le⟩
    have hw := (hok row hmem).mod_le
    -- the last page of a split raises the revision, an earlier one is open, and a merge is behind the revision
    cases sealed with
    | false =>
      have := (horder cmd hcmd).2.2 _ himport rfl
      dsimp only at this
      omega
    | true =>
      cases done with
      | true =>
        simp only [and_self, if_true] at hcur
        omega
      | false =>
        have hopen : cmd.openWatermark = watermark := by
          cases cmd <;> cases himport
          rfl
        simp only [Option.mem_def.1 hcmd, Option.map_some, Option.getD_some, hopen]
        omega

lemma rowsReached_importStep {clock : ℕ → ℤ} {r : Importing}
    (hmode : cfg.mode = .commitTs) (horder : Orderly r e) (hinv : RowsReached r) :
    RowsReached (importStep cfg clock r e).1 := by
  unfold importStep
  split
  · exact hinv
  next s' o h =>
  intro key m' hm'
  rcases modRevision_applyEntry hmode horder hinv h hm' with hm | ⟨hle, -⟩
  · have := hinv key m' hm
    have := currentRevision_le_applyEntry hmode h
    dsimp only
    omega
  · exact hle

/-- **The modification revisions along a log.**  No row is ahead of the revision, or of the watermark of a split into
the Region that is under way, and no entry takes a row to a lower modification revision. -/
theorem modRevision_log {cfg : Config} {clock : ℕ → ℤ} {log : List Entry} (hmode : cfg.mode = .commitTs)
    (horder : Along (importStep cfg clock) Orderly ⟨Store.empty, 0⟩ log) :
    ∀ ev ∈ trace (importStep cfg clock) ⟨Store.empty, 0⟩ log, (∀ key m, ev.after.store.kvMeta.get key = some m →
        m.modRevision ≤ max (ev.after.store.currentRevision .commitTs) ev.after.pinned) ∧
      ∀ key m m', ev.before.store.kvMeta.get key = some m → ev.after.store.kvMeta.get key = some m' →
        m.modRevision ≤ m'.modRevision := by
  have h0 : RowsReached ⟨Store.empty, 0⟩ := fun key m hm => by cases hm
  have hrun := along_inv RowsReached Orderly h0 horder fun r e ho hi => rowsReached_importStep hmode ho hi
  intro ev hev
  obtain ⟨hbefore, ho, hafter⟩ := hrun.2 ev hev
  refine ⟨hafter, fun key m m' hm hm' => ?_⟩
  have hstep := (step_of_mem_trace _ hev).1
  unfold importStep at hstep
  split at hstep
  · have hsame : ev.before = ev.after := congrArg Prod.fst hstep
    rw [← hsame] at hm'
    exact (congrArg KvMetadata.modRevision (Option.some.inj (hm.symm.trans hm'))).le
  · next s' o h =>
    obtain rfl : s' = ev.after.store := congrArg (fun p => p.1.store) hstep
    rcases modRevision_applyEntry hmode ho hbefore h hm' with hsame | ⟨-, hold⟩
    · exact (congrArg KvMetadata.modRevision (Option.some.inj (hm.symm.trans hsame))).le
    · exact hold m hm

/-- The entries of a log that carries the commands. -/
def commandLog (cmds : List Command) : List Entry := cmds.mapIdx fun i cmd => ⟨⟨1, 1, i + 1⟩, .normal cmd⟩

def storeAfter (cmds : List Command) : Store := (applyEntries plainConfig (fun _ => 0) Store.empty (commandLog cmds)).1

/-- A split in two pages, a write to a row it brought, and a page of a merge. -/
def splitCommands : List Command :=
  [.importRange [] [] [([1], [7], .newKey 5 0)] 6 false, .importRange [] [] [([2], [8], .newKey 6 0)] 6 true,
    .putV2 [1] [9] none 10, .importRangePreserveHistory [3] [] [([3], [7], .newKey 8 0)] 10 true]

theorem modRevision_log_split :
    Along (importStep plainConfig fun _ => 0) Orderly ⟨Store.empty, 0⟩ (commandLog splitCommands) ∧
    ∀ ev ∈ trace (importStep plainConfig fun _ => 0) ⟨Store.empty, 0⟩ (commandLog splitCommands),
      (∀ key m, ev.after.store.kvMeta.get key = some m →
        m.modRevision ≤ max (ev.after.store.currentRevision .commitTs) ev.after.pinned) ∧
      ∀ key m m', ev.before.store.kvMeta.get key = some m → ev.after.store.kvMeta.get key = some m' →
        m.modRevision ≤ m'.modRevision :=
  ⟨by decide, modRevision_log rfl (by decide)⟩

/-- **Rows can be ahead of the revision.**  The first page of a split brings the row of revision `5` to a Region at
revision `0`.  A merge, which asks for equal decision cursors only, brings the row of revision `100` to a Region at
revision `50`, and a later write takes the row back to `60`. -/
theorem modRevision_import_fails : (∃ reset page rest,
      SplitMerge.splitImport (storeAfter [.putV2 [1] [7] none 5, .putV2 [2] [8] none 6]) [] [] 1 =
        .ok (reset :: page :: rest) ∧ ((storeAfter [reset, page]).kvMeta.get [1]).map KvMetadata.modRevision = some 5 ∧
      (storeAfter [reset, page]).currentRevision .commitTs = 0) ∧
    ∃ reset page,
      SplitMerge.mergeImport (storeAfter [.putV2 [2] [7] none 100]) (storeAfter [.putV2 [1] [8] none 50]) [2] [] 0 =
        some (.ok [reset, page]) ∧
      ((storeAfter [.putV2 [1] [8] none 50, reset, page]).kvMeta.get [2]).map KvMetadata.modRevision = some 100 ∧
      (storeAfter [.putV2 [1] [8] none 50, reset, page]).currentRevision .commitTs = 50 ∧
      ((storeAfter [.putV2 [1] [8] none 50, reset, page, .putV2 [2] [9] none 60]).kvMeta.get [2]).map
        KvMetadata.modRevision = some 60 :=
  ⟨⟨_, _, _, rfl, by decide, by decide⟩, _, _, rfl, by decide, by decide, by decide⟩

end Coord.Raft
