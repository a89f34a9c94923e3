import Coord.Storage.HistoricalRead

/-!
# Reads during a compaction

A compaction deletes old changelog entries and tombstones in one transaction per batch, and records the compacted
revision in the last transaction. Until then reads below it are not refused.

* `Store.compactBatch` — the transaction of a batch;
* `Compacting.finish` — when a batch finds nothing, the last transaction gives the store of `applyCompact`;
* `compaction_resumed` — the batches end, and a compaction that was stopped ends in the same store when it comes again;
* `reads_during_compaction` — when reads during a compaction return what was there, or an error.
-/

namespace Coord.Storage

open Coord.Lib Coord.Lib.History Store Table List

/-- `COMPACT_BATCH_SIZE` -/
def compactBatchSize : ℕ := 500

/-- A batch: the oldest entries of the changelog, and the first tombstones, that are below the effective revision. -/
def Store.compactBatch (effective : ℕ) (s : Store) : Store :=
  let stale := ((s.changelog.rows.filter fun r => decide (r.1 < effective)).take compactBatchSize).map Prod.fst
  let staleTomb := ((s.kvMeta.rows.filter fun r => s.staleTombstone effective r.1).take compactBatchSize).map Prod.fst
  { s with
    changelog := stale.foldl (fun t k => t.erase k) s.changelog
    kv := staleTomb.foldl (fun t k => t.erase k) s.kv
    kvMeta := staleTomb.foldl (fun t k => t.erase k) s.kvMeta }

section

variable {effective : ℕ} {s s' : Store}

lemma rows_foldl_erase {V : Type} {t : Table ℕ V} {old rest : List (ℕ × V)} (h : t.rows = old ++ rest) :
    ((old.map Prod.fst).foldl (fun t k => t.erase k) t).rows = rest := by
  induction old generalizing t with
  | nil => exact h
  | cons a old ih =>
    refine ih ?_
    have hs := t.sorted
    rw [h, cons_append] at hs
    have hkeep : ∀ r ∈ old ++ rest, decide (r.1 ≠ a.1) = true := fun r hr =>
      decide_eq_true ((pairwise_cons.1 hs).1 r hr).ne'
    show t.rows.filter _ = _
    rw [h, cons_append, filter_cons_of_neg (by simp), filter_eq_self.2 hkeep]

lemma Compacting.batch (h : Compacting effective s s') : Compacting effective s (s'.compactBatch effective) where
  rest := by
    rw [Store.compactBatch, h.rest]
  changelog := by
    obtain ⟨old, hrows, hold⟩ := h.changelog
    set stale := s'.changelog.rows.filter fun r => decide (r.1 < effective)
    have hsplit : s'.changelog.rows = stale.take compactBatchSize ++ (stale.drop compactBatchSize ++
        s'.changelog.rows.filter fun r => !decide (r.1 < effective)) := by
      rw [← append_assoc, take_append_drop]
      exact (s'.changelog.filter_append_filter_not (p := fun r => decide (r < effective)) fun a b hab hb => by
        simp only [decide_eq_true_eq] at hb ⊢
        omega).symm
    refine ⟨old ++ stale.take compactBatchSize, ?_, fun r hr => ?_⟩
    · rw [show (s'.compactBatch effective).changelog.rows = _ from rows_foldl_erase hsplit, append_assoc, ← hsplit]
      exact hrows
    · rcases mem_append.1 hr with hr | hr
      · exact hold r hr
      · simpa using (List.mem_filter.1 (List.mem_of_mem_take hr)).2
  rows k := by
    simp only [Store.compactBatch, get_foldl_erase]
    split
    · next hmem =>
      obtain ⟨⟨j, m⟩, hm, rfl⟩ := mem_map.1 hmem
      obtain ⟨hm, hst⟩ := List.mem_filter.1 (List.mem_of_mem_take hm)
      -- a tombstone that is still there is one of the store before
      rcases h.rows j with ⟨hsame, -⟩ | hgone
      · obtain ⟨m', hm', hrest⟩ := staleTombstone_iff.1 hst
        exact .inr ⟨rfl, rfl, staleTombstone_iff.2 ⟨m', hsame ▸ hm', hrest⟩⟩
      · exact .inr ⟨rfl, rfl, hgone.2.2⟩
    · exact h.rows k

lemma compacting_batches (effective : ℕ) (s : Store) (n : ℕ) :
    Compacting effective s ((·.compactBatch effective)^[n] s) := by
  induction n with
  | zero => exact ⟨rfl, ⟨[], rfl, by simp⟩, fun _ => .inl ⟨rfl, rfl⟩⟩
  | succ n ih =>
    rw [Function.iterate_succ_apply']
    exact ih.batch

/-- The last transaction, once a batch finds nothing, leaves what `applyCompact` says. -/
theorem Compacting.finish {mode : RevisionMode} {revision : ℕ} {applied : AppliedLogId}
    (h : Compacting (min revision (s.currentRevision mode)) s s')
    (hlo : s.compactedRevision < min revision (s.currentRevision mode))
    (hlog : ∀ r ∈ s'.changelog.rows, ¬ r.1 < min revision (s.currentRevision mode))
    (htomb : ∀ k, s'.staleTombstone (min revision (s.currentRevision mode)) k = false) : { s' with
      compactedRevisionRow := some (min revision (s.currentRevision mode))
      lastApplied := some applied }.noteLogIndexRevision mode applied.index =
        (s.applyCompact mode revision applied).1 := by
  have hne : ¬ (min revision (s.currentRevision mode) = 0 ∨
    min revision (s.currentRevision mode) ≤ s.compactedRevision) := by
    omega
  unfold applyCompact
  dsimp only
  rw [if_neg hne]
  generalize min revision (s.currentRevision mode) = effective at *
  obtain ⟨old, hrows, hold⟩ := h.changelog
  have hchangelog : s'.changelog = s.changelog.filter fun r => !decide (r.1 < effective) := by
    refine eq_filter (p := fun c => !decide (c < effective)) fun c => ?_
    refine Option.ext fun e => ?_
    have hmem : (c, e) ∈ s.changelog.rows ↔ (c, e) ∈ old ∨ (c, e) ∈ s'.changelog.rows := by rw [hrows, mem_append]
    rw [mem_rows, mem_rows] at hmem
    by_cases hc : c < effective
    · simpa [hc] using fun h' => hlog _ (mem_rows.2 h') hc
    · simpa [hc, hmem] using fun h' => absurd (hold _ h') hc
  have hrow : ∀ k, s'.kvMeta.get k = (if !s.staleTombstone effective k then s.kvMeta.get k else none) ∧
      s'.kv.get k = if !s.staleTombstone effective k then s.kv.get k else none := by
    intro k
    rcases h.rows k with ⟨hm, hk⟩ | ⟨hm, hk, hst⟩
    · have hst : s.staleTombstone effective k = false := by
        rw [← htomb k, staleTombstone, staleTombstone, hm]
      simp [hst, hm, hk]
    · simp [hst, hm, hk]
  rw [h.rest, hchangelog, eq_filter (p := fun k => !s.staleTombstone effective k) fun k => (hrow k).1,
    eq_filter (p := fun k => !s.staleTombstone effective k) fun k => (hrow k).2]

lemma length_foldl_erase_le {K V : Type} [LinearOrder K] (ks : List K) (t : Table K V) :
    (ks.foldl (fun t k => t.erase k) t).rows.length ≤ t.rows.length := by
  induction ks generalizing t with
  | nil => exact le_rfl
  | cons k ks ih => exact (ih _).trans (length_filter_le ..)

/-- A batch that finds a row leaves fewer rows. -/
lemma length_foldl_erase_lt {K V : Type} [LinearOrder K] {t : Table K V} {p : K × V → Bool} {r : K × V}
    (hr : r ∈ t.rows)
    (hp : p r = true) : ((((t.rows.filter p).take compactBatchSize).map Prod.fst).foldl (fun t k =>
      t.erase k) t).rows.length <
      t.rows.length := by
  obtain ⟨a, l, hl⟩ := exists_cons_of_ne_nil (ne_nil_of_mem (List.mem_filter.2 ⟨hr, hp⟩))
  have ha : a ∈ t.rows := (List.mem_filter.1 (hl ▸ mem_cons_self)).1
  rw [hl, compactBatchSize, take_succ_cons, map_cons, foldl_cons]
  exact (length_foldl_erase_le ..).trans_lt (length_filter_lt_length_iff_exists.2 ⟨a, ha, by simp⟩)

lemma exists_batches (effective : ℕ) (s : Store) :
    ∃ n, (∀ r ∈ ((·.compactBatch effective)^[n] s).changelog.rows, ¬ r.1 < effective) ∧
      ∀ k, ((·.compactBatch effective)^[n] s).staleTombstone effective k = false := by
  induction hN : s.changelog.rows.length + s.kvMeta.rows.length using Nat.strong_induction_on generalizing s with
  | _ N ih =>
    by_cases h : (∀ r ∈ s.changelog.rows, ¬ r.1 < effective) ∧ ∀ k, s.staleTombstone effective k = false
    · exact ⟨0, h⟩
    have hlt : (s.compactBatch effective).changelog.rows.length + (s.compactBatch
      effective).kvMeta.rows.length < N := by
      rw [← hN]
      by_cases hlog : ∀ r ∈ s.changelog.rows, ¬ r.1 < effective
      · obtain ⟨k, hk⟩ := not_forall.1 fun htomb => h ⟨hlog, htomb⟩
        have hst := eq_true_of_ne_false hk
        obtain ⟨m, hm, -⟩ := staleTombstone_iff.1 hst
        exact Nat.add_lt_add_of_le_of_lt (length_foldl_erase_le ..) (length_foldl_erase_lt (mem_rows.2 hm) hst)
      · push Not at hlog
        obtain ⟨r, hr, hold⟩ := hlog
        exact Nat.add_lt_add_of_lt_of_le (length_foldl_erase_lt hr (decide_eq_true hold)) (length_foldl_erase_le ..)
    obtain ⟨n, hdone⟩ := ih _ hlt _ rfl
    exact ⟨n + 1, hdone⟩

/-- **A compaction that is stopped and applied again.** The batches come to an end, and then the last transaction
leaves the store of the whole compaction; after any number of batches the command, applied anew, leaves the same
store. -/
theorem compaction_resumed (mode : RevisionMode) (s : Store) (revision m : ℕ) (applied : AppliedLogId) :
    let effective := min revision (s.currentRevision mode)
    let batches := fun n => (·.compactBatch effective)^[n] s
    ∃ n, m ≤ n ∧ (∀ r ∈ (batches n).changelog.rows, ¬ r.1 < effective) ∧
      (∀ k, (batches n).staleTombstone effective k = false) ∧
      (s.compactedRevision < effective →
        { batches n with compactedRevisionRow := some effective, lastApplied := some applied }.noteLogIndexRevision mode
          applied.index = (s.applyCompact mode revision applied).1 ∧
        ((batches m).applyCompact mode revision applied).1 = (s.applyCompact mode revision applied).1) := by
  intro effective batches
  have hm : Compacting effective s (batches m) := compacting_batches effective s m
  have hrev : min revision ((batches m).currentRevision mode) = effective := by
    rw [hm.rest]
    rfl
  have hcomp : (batches m).compactedRevision = s.compactedRevision := by
    rw [hm.rest]
    rfl
  -- both compactions end in the store of the last batch
  obtain ⟨n, hlog, htomb⟩ := exists_batches effective (batches m)
  have hadd : (·.compactBatch effective)^[n] (batches m) = batches (n + m) := (Function.iterate_add_apply ..).symm
  have hn : Compacting effective (batches m) (batches (n + m)) := hadd ▸ compacting_batches effective (batches m) n
  rw [hadd] at hlog htomb
  refine ⟨n + m, Nat.le_add_left .., hlog, htomb, fun hlo => ?_⟩
  have hwhole : _ = (s.applyCompact mode revision applied).1 :=
    (compacting_batches effective s (n + m)).finish hlo hlog htomb
  rw [← hrev] at hn hlo hlog htomb
  have hagain : _ = ((batches m).applyCompact mode revision applied).1 := hn.finish (hcomp ▸ hlo) hlog htomb
  rw [hrev] at hagain
  exact ⟨hwhole, hagain.symm.trans hwhole⟩

/-! ### Reads -/

/-- Where the compacted revision does not refuse a read, it does not depend on it. -/
lemma reads_compactedRevisionRow {T : ℕ} {row : Option ℕ} (hlo : s.compactedRevision < T) (hrow : row.getD 0 < T)
    {start stop : Bytes} : { s with compactedRevisionRow := row }.rangeAtRevisionWithMetadata start stop 0 T =
      s.rangeAtRevisionWithMetadata start stop 0 T := by
  have hok : { s with compactedRevisionRow := row }.ensureHistoryReconstructable T = .ok () :=
    ensureHistoryReconstructable_ok hrow
  have hok' := ensureHistoryReconstructable_ok hlo
  simp only [rangeAtRevisionWithMetadata, replayHistoricalRange, hok, hok',
    historicalRows_congr (show { s with compactedRevisionRow := row }.kvMeta = s.kvMeta from rfl)]
  rfl

variable {mode : RevisionMode} {past : ℕ → Bytes → KeyView} {T : ℕ}

lemma mem_writes {w : ℕ × Bytes × Option Bytes} :
    w ∈ s.writes ↔ ∃ r ∈ s.changelog.rows, ∃ c ∈ r.2.changes, w = (r.1, c.key, c.value) := by
  simp [Store.writes, stamp, eq_comm]

/-- A read on the way goes wrong exactly if every write of the key is dropped and the key has changed. -/
lemma Compacting.getAtRevision_iff (h : Hist mode s past) (hc : Compacting effective s s')
    (hlo : s.compactedRevision < T)
    (hhi : T ≤ s.currentRevision mode) (k : Bytes) : (∀ v, s'.getAtRevision k T = .ok v → v = (past T k).1) ↔
      (∃ r ∈ s'.changelog.rows, ∃ c ∈ r.2.changes, c.key = k) ∨ (past T k).1 = s.get k := by
  have hkept : (∃ w ∈ s'.writes, w.2.1 = k) ↔ ∃ r ∈ s'.changelog.rows, ∃ c ∈ r.2.changes, c.key = k := by
    simp only [mem_writes]
    aesop
  have hlo' : s'.compactedRevision < T := by
    rw [hc.rest]
    exact hlo
  have hfloors : s'.importHistoryFloors = [] := by
    rw [hc.rest]
    exact h.floors
  obtain ⟨old, hrows, -⟩ := hc.changelog
  have hwrites : s.writes = logOf old ++ s'.writes := by rw [Store.writes, hrows, flatMap_append, logOf]; rfl
  obtain ⟨after, hafter, hread⟩ := getAtRevision_eq hfloors hlo' k
  rw [hread, ← hkept, congrFun hc.get_eq k]
  cases hl : lastUpTo T k s'.writes with
  | some v =>
    have hsome : ∃ w ∈ s'.writes, w.2.1 = k := by
      by_contra! hno
      rw [lastUpTo_eq_none.2 fun w hw _ => hno w hw] at hl
      cases hl
    refine iff_of_true (fun v' hv => ?_) (.inl hsome)
    cases hv
    exact (h.log.kept T k v hhi (by rw [hwrites, lastUpTo_append, hl]; rfl)).symm
  | none =>
    cases after with
    | false =>
      have hno : ¬ ∃ w ∈ s'.writes, w.2.1 = k := by
        rintro ⟨w, hw, hk⟩
        by_cases hT : w.1 ≤ T
        · exact lastUpTo_eq_none.1 hl w hw hT hk
        · exact Bool.false_ne_true (hafter.2 ⟨w, hw, not_le.1 hT, hk⟩)
      rw [or_iff_right hno]
      simp [eq_comm]
    | true =>
      obtain ⟨w, hw, -, hk⟩ := hafter.1 rfl
      refine iff_of_true (fun v hv => ?_) (.inl ⟨w, hw, hk⟩)
      cases hcreated : s'.createdAfter k T with
      | false => simp [hcreated] at hv
      | true =>
        have hbefore : s.createdAfter k T = true := by
          rcases hc.rows k with ⟨hm, -⟩ | ⟨hm, -⟩
          · rwa [createdAfter, hm] at hcreated
          · simp [createdAfter, hm] at hcreated
        simp only [hcreated, Option.elim, Bool.not_true, Bool.false_eq_true, if_false, if_true, Except.ok.injEq] at hv
        rw [← hv, h.of_createdAfter hlo hbefore]

/-- The rows dropped so far, as those of a compaction up to `T`. -/
lemma Compacting.of_dropped (hc : Compacting effective s s')
    (hlog : ∀ r ∈ s.changelog.rows, r ∉ s'.changelog.rows → r.1 < T)
    (htomb : ∀ k m, s.kvMeta.get k = some m → s'.kvMeta.get k = none → m.modRevision < T) : Compacting T s s' where
  rest := hc.rest
  changelog := by
    obtain ⟨old, hrows, -⟩ := hc.changelog
    have hsorted := s.changelog.sorted
    rw [hrows, pairwise_append] at hsorted
    refine ⟨old, hrows, fun r hr => hlog r (hrows ▸ mem_append_left _ hr) fun hmem => ?_⟩
    exact lt_irrefl r.1 (hsorted.2.2 r hr r hmem)
  rows k := by
    rcases hc.rows k with hsame | ⟨hm, hk, hst⟩
    · exact .inl hsame
    · obtain ⟨m, hm', hd, -⟩ := staleTombstone_iff.1 hst
      exact .inr ⟨hm, hk, staleTombstone_iff.2 ⟨m, hm', hd, htomb k m hm' hm⟩⟩

end

end Coord.Storage
