import Coord.Storage.VersionHistory

/-!
# What the changelog and the metadata tell of the past

`Hist` relates a store to what its keys held at the earlier revisions: the changelog represents it above the
compacted revision, and the metadata says of a key since when it is there and since when it is as it is.
-/

namespace Coord.Storage

open Coord.Lib Coord.Lib.History Store

/-! ### What the changelog and the metadata tell -/

def logOf (rows : List (ℕ × ChangeEvent)) : Log Bytes Bytes :=
  rows.flatMap fun r => stamp r.1 (changePairs r.2.changes)

/-- `past T k` is what a read saw of `k` at `T`.  The changelog tells it above the compacted revision, and the
metadata tells that a key was not there: without metadata, or before its creation. -/
structure Hist (mode : RevisionMode) (s : Store) (past : ℕ → Bytes → KeyView) : Prop where
  log : Represents s.writes (fun T k => (past T k).1) s.get s.compactedRevision (s.currentRevision mode)
  revisions : ∀ row ∈ s.changelog.rows, row.1 ≤ s.currentRevision mode
  stamped : ∀ row ∈ s.changelog.rows, row.2.revision = row.1
  rows : s.RowsHaveMeta
  modified : ∀ k m, s.kvMeta.get k = some m →
    m.createRevision ≤ m.modRevision ∧ m.modRevision ≤ s.currentRevision mode
  absent : ∀ k, s.kvMeta.get k = none → ∀ T, s.compactedRevision < T → T ≤ s.currentRevision mode → (past T k).1 = none
  before : ∀ k m, s.kvMeta.get k = some m → ∀ T, s.compactedRevision < T → T < m.createRevision → (past T k).1 = none
  since : ∀ k m, s.kvMeta.get k = some m → ∀ T, m.modRevision ≤ T → T ≤ s.currentRevision mode → (past T k).1 = s.get k
  floors : s.importHistoryFloors = []
  cursor : s.lastAppliedDecisionTs ≤ s.currentRevision mode
  sound : ∀ T k, T ≤ s.currentRevision mode → (past T k).Sound
  versions : mode = .commitTs → Recounts s.writes (fun T k => (past T k).2) (fun k => (s.view k).2) s.compactedRevision
    (s.currentRevision mode)

lemma hist_empty (mode : RevisionMode) : Hist mode Store.empty fun _ _ => (none, none) where
  log := ⟨List.Pairwise.nil, by simp [Store.writes, Store.empty], fun _ => rfl,
    by simp [Store.writes, Store.empty, lastUpTo], fun _ _ _ _ h => absurd rfl h⟩
  revisions := by simp [Store.empty]
  stamped := by simp [Store.empty]
  rows _ _ := rfl
  modified _ _ h := by cases h
  absent _ _ _ _ _ := rfl
  before _ _ h := by cases h
  since _ _ h := by cases h
  floors := rfl
  cursor := Nat.zero_le _
  sound _ _ _ _ h := by cases h
  versions _ := ⟨fun _ _ _ _ _ h => (nomatch h), fun _ _ _ _ _ h => (nomatch h), fun _ _ _ h => (nomatch h)⟩

section

variable {mode : RevisionMode} {s s' : Store} {past past' : ℕ → Bytes → KeyView}

/-- Another past that tells the same of the live keys, or the present at the current revision. -/
lemma Hist.congr_past (h : Hist mode s past) (heq : ∀ T, T ≤ s.currentRevision mode → ∀ k,
    (past T k).Stands (past' T k) ∨ (T = s.currentRevision mode ∧ past' T k = s.view k)) : Hist mode s past' := by
  have hval : ∀ T, T ≤ s.currentRevision mode → ∀ k, (past' T k).1 = (past T k).1 := by
    intro T hT k
    rcases heq T hT k with hst | ⟨rfl, hnow⟩
    · exact hst.value
    · rw [hnow]
      exact (h.log.present k).symm
  constructor
  · exact h.log.congr_val hval
  · exact h.revisions
  · exact h.stamped
  · exact h.rows
  · exact h.modified
  · intro k hk T h1 h2
    rw [hval T h2, h.absent k hk T h1 h2]
  · intro k m hm T h1 h2
    have hle := h.modified k m hm
    rw [hval T (by omega), h.before k m hm T h1 h2]
  · intro k m hm T h1 h2
    rw [hval T h2, h.since k m hm T h1 h2]
  · exact h.floors
  · exact h.cursor
  · intro T k hT
    rcases heq T hT k with hst | ⟨-, hnow⟩
    · exact hst.sound (h.sound T k hT)
    · rw [hnow]
      exact sound_view h.rows k
  · refine fun hmode => (h.versions hmode).congr_past h.log.le fun T hT k m hm hd => ?_
    rcases heq T hT k with hst | ⟨hcur, hnow⟩
    · exact .inl (hst.versions m hm hd)
    · exact .inr ⟨hcur, hnow ▸ hm⟩

lemma Store.view_congr (hkv : s'.kv = s.kv) (hm : s'.kvMeta = s.kvMeta) : s'.view = s.view := by
  funext k
  have hget : s'.get k = s.get k := get_congr (by rw [hkv]) (by rw [hm])
  rw [Store.view, Store.view, hget, hm]

lemma Hist.congr_store (h : Hist mode s past) (hkv : s'.kv = s.kv) (hm : s'.kvMeta = s.kvMeta)
    (hc : s'.changelog = s.changelog) (hlo : s'.compactedRevision = s.compactedRevision)
    (hhi : s'.currentRevision mode = s.currentRevision mode) (hf : s'.importHistoryFloors = s.importHistoryFloors)
    (hcur : s'.lastAppliedDecisionTs ≤ s.currentRevision mode) : Hist mode s' past := by
  have hget : s'.get = s.get := funext fun k => get_congr (by rw [hkv]) (by rw [hm])
  have hw : s'.writes = s.writes := by simp only [Store.writes, hc]
  constructor
  · rw [hw, hget, hlo, hhi]
    exact h.log
  · rw [hc, hhi]
    exact h.revisions
  · rw [hc]
    exact h.stamped
  · intro k hk
    rw [hkv]
    exact h.rows k (by rwa [hm] at hk)
  · rw [hm, hhi]
    exact h.modified
  · rw [hm, hlo, hhi]
    exact h.absent
  · rw [hm, hlo]
    exact h.before
  · rw [hm, hhi, hget]
    exact h.since
  · rw [hf]
    exact h.floors
  · rw [hhi]
    exact hcur
  · rw [hhi]
    exact h.sound
  · rw [hw, hlo, hhi, Store.view_congr hkv hm]
    exact h.versions

/-- The past after a step of the store from `s` to `s'`. -/
def extendTo (mode : RevisionMode) (past : ℕ → Bytes → KeyView) (s s' : Store) : ℕ → Bytes → KeyView :=
  extend past (s.currentRevision mode) s.view (s'.currentRevision mode) s'.view

/-- **A write**: the changes of a new revision, in the tables and in the changelog. -/
theorem Hist.write {s₀ s₁ : Store} {r : ℕ} {changes : List KeyValueChange} (h : Hist mode s past)
    (hr : s.currentRevision mode < r) (hw : Wrote s₀ s₁ r changes) (hcount : mode = .commitTs → Counted s₀ s₁ r changes)
    (hkv₀ : s₀.kv = s.kv) (hm₀ : s₀.kvMeta = s.kvMeta) (hkv : s'.kv = s₁.kv) (hm : s'.kvMeta = s₁.kvMeta)
    (hlog : s'.writes = s.writes ++ stamp r (changePairs changes))
    (hrev : ∀ row ∈ s'.changelog.rows, row.1 ≤ r ∧ row.2.revision = row.1)
    (hlo : s'.compactedRevision = s.compactedRevision) (hhi : s'.currentRevision mode = r)
    (hf : s'.importHistoryFloors = s.importHistoryFloors) (hd : s'.lastAppliedDecisionTs ≤ r) :
    Hist mode s' (extendTo mode past s s') := by
  have hget : s'.get = s₁.get := funext fun k => get_congr (by rw [hkv]) (by rw [hm])
  have hget₀ : s₀.get = s.get := funext fun k => get_congr (by rw [hkv₀]) (by rw [hm₀])
  have hrows : s'.RowsHaveMeta := fun k hk => by
    rw [hkv]
    exact hw.rows k (by rwa [hm] at hk)
  have hmeta : ∀ k, (s₁.kvMeta.get k = s.kvMeta.get k ∧ s₁.get k = s.get k) ∨
      MetaStep r (s.kvMeta.get k) (s₁.kvMeta.get k) := by
    intro k
    have := hw.metadata k
    rwa [hm₀, hget₀] at this
  have hval : ∀ T k, (extendTo mode past s s' T k).1 =
      if T < s.currentRevision mode then (past T k).1 else if T < r then s.get k else s₁.get k := by
    intro T k
    rw [← hget, ← hhi]
    exact congrFun (congrFun (apply_extend Prod.fst past _ s.view _ s'.view) T) k
  constructor
  · have := h.log.write hr (changePairs changes) s'.get fun k => by rw [hget, hw.get, hget₀]
    rw [hlog, hlo, hhi, extendTo, hhi, apply_extend]
    exact this
  · rw [hhi]
    exact fun row hrow => (hrev row hrow).1
  · exact fun row hrow => (hrev row hrow).2
  · exact hrows
  · intro k m hk
    rw [hm] at hk
    rw [hhi]
    rcases hmeta k with ⟨hsame, -⟩ | ⟨m', hm', hmod, hcreate⟩
    · have := h.modified k m (hsame ▸ hk)
      exact ⟨this.1, by omega⟩
    · obtain rfl : m' = m := Option.some.inj (hm'.symm.trans hk)
      rcases hcreate with ⟨-, hc⟩ | ⟨m₀, h0, hc⟩
      · omega
      · have := h.modified k m₀ h0
        omega
  · intro k hk T h1 h2
    rw [hm] at hk
    rw [hlo] at h1
    -- metadata is never removed by a write, so there was none before
    have hold : s.kvMeta.get k = none ∧ s₁.get k = s.get k := by
      rcases hmeta k with ⟨hsame, hg⟩ | ⟨m', hm', -⟩
      · exact ⟨hsame ▸ hk, hg⟩
      · rw [hm'] at hk
        cases hk
    have hnone := h.rows.get_of_none hold.1
    rw [hval]
    split
    · exact h.absent k hold.1 T h1 (by omega)
    · split
      · exact hnone
      · rw [hold.2, hnone]
  · intro k m hk T h1 h2
    rw [hm] at hk
    rw [hlo] at h1
    rw [hval]
    rcases hmeta k with ⟨hsame, -⟩ | ⟨m', hm', hmod, hcreate⟩
    · have hk₀ : s.kvMeta.get k = some m := hsame ▸ hk
      have := h.modified k m hk₀
      rw [if_pos (by omega)]
      exact h.before k m hk₀ T h1 h2
    · obtain rfl : m' = m := Option.some.inj (hm'.symm.trans hk)
      rcases hcreate with ⟨hnone, hc⟩ | ⟨m₀, h0, hc⟩
      · -- created by this write: the key was absent until now
        split
        · exact h.absent k hnone T h1 (by omega)
        · rw [if_pos (by omega)]
          exact h.rows.get_of_none hnone
      · have := h.modified k m₀ h0
        rw [if_pos (by omega)]
        exact h.before k m₀ h0 T h1 (by omega)
  · intro k m hk T h1 h2
    rw [hm] at hk
    rw [hhi] at h2
    rw [hval, hget]
    rcases hmeta k with ⟨hsame, hg⟩ | ⟨m', hm', hmod, -⟩
    · have hk₀ : s.kvMeta.get k = some m := hsame ▸ hk
      split
      · rw [h.since k m hk₀ T h1 (by omega), hg]
      · split
        · rw [hg]
        · rfl
    · obtain rfl : m' = m := Option.some.inj (hm'.symm.trans hk)
      rw [if_neg (by omega), if_neg (by omega)]
  · rw [hf, h.floors]
  · rw [hhi]
    exact hd
  · intro T k _
    simp only [extendTo, extend]
    split_ifs with h1
    · exact h.sound T k h1.le
    · exact sound_view h.rows k
    · exact sound_view hrows k
  · intro hmode
    rw [hlog, hlo, hhi, extendTo, hhi, apply_extend]
    refine (h.versions hmode).write h.log.le hr (changePairs changes) fun k => ?_
    rw [Store.view, Store.view, hm, ← hm₀]
    exact hcount hmode k

theorem Hist.tick (h : Hist mode s past) (hkv : s'.kv = s.kv) (hm : s'.kvMeta = s.kvMeta)
    (hc : s'.changelog = s.changelog)
    (hlo : s'.compactedRevision = s.compactedRevision) (hhi : s.currentRevision mode ≤ s'.currentRevision mode)
    (hf : s'.importHistoryFloors = s.importHistoryFloors) (hd : s'.decisionApplied = s.decisionApplied) :
    Hist mode s' (extendTo mode past s s') := by
  have hcur : s'.lastAppliedDecisionTs ≤ s.currentRevision mode := by
    rw [lastAppliedDecisionTs, hd]
    exact h.cursor
  rcases hhi.eq_or_lt with heq | hlt
  · refine (h.congr_store hkv hm hc hlo heq.symm hf hcur).congr_past fun T hT k => ?_
    rcases hT.eq_or_lt with rfl | hT
    · exact .inr ⟨rfl, by simp [extendTo, extend, heq]⟩
    · exact .inl (KeyView.stands_of_eq (if_pos (heq ▸ hT)))
  · -- a write without changes
    refine h.write hlt (Wrote.refl h.rows _) (fun _ => .refl s _) rfl rfl hkv hm ?_ ?_ hlo rfl hf (hcur.trans hhi)
    · simp [Store.writes, hc, changePairs, stamp]
    · exact fun row hrow => ⟨(h.revisions row (hc ▸ hrow)).trans hhi, h.stamped row (hc ▸ hrow)⟩

end

variable {r effective : ℕ} {s s' : Store}

lemma Store.writes_insert {event : ChangeEvent} (h : ∀ row ∈ s.changelog.rows, row.1 < r)
    (hc : s'.changelog = s.changelog.insert r event) :
    s'.writes = s.writes ++ stamp r (changePairs event.changes) := by
  simp [Store.writes, hc, Table.rows_insert_last event h, changePairs]

variable {mode : RevisionMode} {policy : RevisionPolicy}

lemma Store.acceptRevision_ok {s s₁ : Store} {r : ℕ}
    (hp : policy = .logIndex → mode = .logIndex) (h : s.acceptRevision mode r policy = .ok s₁) :
    s.currentRevision mode < r ∧ s₁ = { s with currentRevisionRow := some r } := by
  cases policy with
  | logIndex =>
    obtain rfl := hp rfl
    simp only [acceptRevision, acceptLogIndexRevision] at h
    split at h
    · cases h
    · next hlt => exact ⟨by omega, (Except.ok.inj h).symm⟩
  | commitTs =>
    simp only [acceptRevision, acceptCommitTs] at h
    split at h
    · cases h
    · next hlt => exact ⟨by omega, (Except.ok.inj h).symm⟩

variable {past : ℕ → Bytes → KeyView}

theorem Hist.accepted {s s₁ s₂ : Store} {changes : List KeyValueChange} (h : Hist mode s past)
    (hp : policy = .logIndex → mode = .logIndex) (hacc : s.acceptRevision mode r policy = .ok s₁)
    (hw : Wrote s₁ s₂ r changes) (hcount : mode = .commitTs → Counted s₁ s₂ r changes) (t : EventType)
    (applied : AppliedLogId) :
    Hist mode (s₂.writeChangelog ⟨r, changes, t⟩ applied)
      (extendTo mode past s (s₂.writeChangelog ⟨r, changes, t⟩ applied)) := by
  obtain ⟨hr, rfl⟩ := Store.acceptRevision_ok hp hacc
  have hlt : ∀ row ∈ s.changelog.rows, row.1 < r := fun row hrow => (h.revisions row hrow).trans_lt hr
  have hc : (s₂.writeChangelog ⟨r, changes, t⟩ applied).changelog = s.changelog.insert r ⟨r, changes, t⟩ := by
    rw [hw.frame]
    rfl
  refine h.write hr hw hcount rfl rfl rfl rfl (Store.writes_insert hlt hc) ?_ ?_ ?_ ?_ ?_
  · intro row hrow
    rw [hc] at hrow
    rcases Table.mem_insert.1 hrow with rfl | ⟨hrow, -⟩
    · exact ⟨le_rfl, rfl⟩
    · exact ⟨(hlt row hrow).le, h.stamped row hrow⟩
  · rw [hw.frame]
    rfl
  · rw [hw.frame]
    rfl
  · rw [hw.frame]
    rfl
  · have := h.cursor
    rw [hw.frame]
    simp only [writeChangelog, lastAppliedDecisionTs] at this ⊢
    omega

/-! ### Compaction -/

lemma Store.staleTombstone_iff {s : Store} {k : Bytes} :
    s.staleTombstone r k = true ↔ ∃ m, s.kvMeta.get k = some m ∧ m.deleted = true ∧ m.modRevision < r := by
  unfold staleTombstone
  cases s.kvMeta.get k <;> simp

/-- A store on the way of a compaction: a beginning of the changelog and some tombstones are dropped, all of revisions
below the effective one. -/
structure Compacting (effective : ℕ) (s s' : Store) : Prop where
  rest : s' = { s with changelog := s'.changelog, kv := s'.kv, kvMeta := s'.kvMeta }
  changelog : ∃ old, s.changelog.rows = old ++ s'.changelog.rows ∧ ∀ r ∈ old, r.1 < effective
  rows : ∀ k, (s'.kvMeta.get k = s.kvMeta.get k ∧ s'.kv.get k = s.kv.get k) ∨
    (s'.kvMeta.get k = none ∧ s'.kv.get k = none ∧ s.staleTombstone effective k = true)

lemma compacting_filter (s : Store) (effective : ℕ) :
    Compacting effective s { s with
      changelog := s.changelog.filter fun r => !decide (r.1 < effective)
      kv := s.kv.filter fun r => !s.staleTombstone effective r.1
      kvMeta := s.kvMeta.filter fun r => !s.staleTombstone effective r.1 } where
  rest := rfl
  changelog := ⟨s.changelog.rows.filter fun r => decide (r.1 < effective),
    (s.changelog.filter_append_filter_not (p := fun r => decide (r < effective)) fun a b hab hb => by
      simp only [decide_eq_true_eq] at hb ⊢
      omega).symm, fun r hr => by simpa using (List.mem_filter.1 hr).2⟩
  rows k := by
    simp only [Table.get_filter]
    cases hst : s.staleTombstone effective k with
    | false => exact .inl ⟨by cases s.kvMeta.get k <;> simp, by cases s.kv.get k <;> simp⟩
    | true => exact .inr ⟨by cases s.kvMeta.get k <;> simp, by cases s.kv.get k <;> simp, rfl⟩

lemma Compacting.get_eq (hc : Compacting effective s s') : s'.get = s.get := by
  funext k
  rcases hc.rows k with ⟨hm, hkv⟩ | ⟨-, hkv, hst⟩
  · exact get_congr hkv hm
  · obtain ⟨m, hm, hd, -⟩ := Store.staleTombstone_iff.1 hst
    rw [get_of_deleted hm hd]
    simp [Store.get, hkv]

lemma Compacting.rowsHaveMeta (hc : Compacting effective s s') (h : s.RowsHaveMeta) :
    s'.RowsHaveMeta := by
  intro k hk
  rcases hc.rows k with ⟨hm, hkv⟩ | ⟨-, hkv, -⟩
  · exact hkv.trans (h k (hm ▸ hk))
  · exact hkv

lemma Compacting.stands (hc : Compacting effective s s') (h : s.RowsHaveMeta) (k : Bytes) :
    KeyView.Stands (s'.view k) (s.view k) where
  value := congrFun hc.get_eq.symm k
  sound _ := sound_view h k
  versions m hm hd := by
    rcases hc.rows k with ⟨hsame, -⟩ | ⟨-, -, hst⟩
    · exact (congrArg unleased hsame).trans hm
    obtain ⟨m', hm', hd', -⟩ := Store.staleTombstone_iff.1 hst
    rw [Store.view, hm'] at hm
    cases hm
    rw [hd] at hd'
    cases hd'

/-- Once rows below `effective` are dropped, the store tells what was there from `effective` on. -/
theorem Hist.compact (h : Hist mode s past) (hc : Compacting effective s s') {lo : ℕ} (hlo : s.compactedRevision ≤ lo)
    (heff : effective ≤ lo + 1) : Hist mode { s' with compactedRevisionRow := some lo } past := by
  have hhi : ({ s' with compactedRevisionRow := some lo } : Store).currentRevision mode =
      s.currentRevision mode := by
    rw [hc.rest]
    rfl
  have hsome : ∀ k m, s'.kvMeta.get k = some m → s.kvMeta.get k = some m := by
    intro k m hk
    rcases hc.rows k with ⟨hm, -⟩ | ⟨hm, -⟩
    · rwa [hm] at hk
    · rw [hm] at hk
      cases hk
  have hlo' : ∀ {T}, ({ s' with compactedRevisionRow := some lo } : Store).compactedRevision < T →
    lo < T := fun hT => hT
  obtain ⟨old, hrows, hold⟩ := hc.changelog
  have hget := hc.get_eq
  have hwrites : s.writes = logOf old ++ s'.writes := by rw [Store.writes, hrows, List.flatMap_append, logOf]; rfl
  have holdLog : ∀ w ∈ logOf old, w.1 ≤ lo := by
    intro w hw
    obtain ⟨r, hr, hw⟩ := List.mem_flatMap.1 hw
    obtain ⟨c, -, rfl⟩ := List.mem_map.1 hw
    have := hold r hr
    show r.1 ≤ lo
    omega
  constructor
  · rw [hhi]
    show Represents s'.writes _ s'.get lo (s.currentRevision mode)
    rw [hget]
    exact (hwrites ▸ h.log).cut hlo holdLog
  · intro row hrow
    rw [hhi]
    exact h.revisions row (hrows ▸ List.mem_append_right _ hrow)
  · exact fun row hrow => h.stamped row (hrows ▸ List.mem_append_right _ hrow)
  · exact hc.rowsHaveMeta h.rows
  · rw [hhi]
    exact fun k m hk => h.modified k m (hsome k m hk)
  · intro k hk T h1 h2
    have := hlo' h1
    rw [hhi] at h2
    rcases hc.rows k with ⟨hm, -⟩ | ⟨-, -, hst⟩
    · exact h.absent k (hm ▸ hk) T (by omega) h2
    · obtain ⟨m, hm, hd, hmod⟩ := Store.staleTombstone_iff.1 hst
      rw [h.since k m hm T (by omega) h2, get_of_deleted hm hd]
  · intro k m hk T h1 h2
    have := hlo' h1
    exact h.before k m (hsome k m hk) T (by omega) h2
  · intro k m hk T h1 h2
    rw [hhi] at h2
    exact (h.since k m (hsome k m hk) T h1 h2).trans (congrFun hget k).symm
  · rw [show ({ s' with compactedRevisionRow := some lo } : Store).importHistoryFloors = s.importHistoryFloors by
      rw [hc.rest], h.floors]
  · rw [hhi, show ({ s' with compactedRevisionRow := some lo } : Store).lastAppliedDecisionTs =
      s.lastAppliedDecisionTs by rw [hc.rest]; rfl]
    exact h.cursor
  · rw [hhi]
    exact h.sound
  · intro hmode
    rw [hhi]
    refine (hwrites ▸ h.versions hmode).cut hlo holdLog fun k => ?_
    rcases hc.rows k with ⟨hm, -⟩ | ⟨hm, -, hst⟩
    · exact .inl (congrArg unleased hm)
    · obtain ⟨m, hm', hd, hmod⟩ := Store.staleTombstone_iff.1 hst
      exact .inr ⟨congrArg unleased hm, _, congrArg unleased hm', hd, Nat.lt_succ_iff.1 (hmod.trans_le heff)⟩

end Coord.Storage
