import Coord.Storage.KvHistoryRuns

/-!
# Range reads at an earlier revision

The two historical reads of a store, compared with what a run held at the revision and with each other.

* `Lost`, `Reborn`, `Missed` — the three ways a key of the range is not told by the range read;
* `range_read_at_revision` — the range read is exact, and agrees with the single reads, just when no key is one of them.
-/

namespace Coord.Storage

open Coord.Lib Coord.Lib.History Store Table List

/-! ### What a range read should return -/

/-- The rows are those keys of the range that are live, in order, with their values. -/
def ExactRows (start stop : Bytes) (live : Bytes → Option Bytes) (rows : List (Bytes × Bytes × KvMetadata)) : Prop :=
  rows.Pairwise (fun a b => a.1 < b.1) ∧
    ∀ k v, (∃ m, (k, v, m) ∈ rows) ↔ inRange start stop k = true ∧ live k = some v

/-- The single reads of the range return what is live. -/
def SingleReadsExact (s : Store) (start stop : Bytes) (T : ℕ) (live : Bytes → Option Bytes) : Prop :=
  ∀ k, inRange start stop k = true → s.getAtRevision k T = .ok (live k)

/-- The range read succeeds, exactly, and so do the single reads. -/
def RangeReadExact (s : Store) (start stop : Bytes) (T : ℕ) (live : Bytes → Option Bytes) : Prop :=
  (∃ rows, s.rangeAtRevisionWithMetadata start stop 0 T = .ok rows ∧ ExactRows start stop live rows) ∧
    SingleReadsExact s start stop T live

/-- What the range read returns is exact and agrees with the single reads, and it succeeds whenever they do. -/
def RangeReadSound (s : Store) (start stop : Bytes) (T : ℕ) (live : Bytes → Option Bytes) : Prop :=
  (∀ rows, s.rangeAtRevisionWithMetadata start stop 0 T = .ok rows →
      ExactRows start stop live rows ∧ SingleReadsExact s start stop T live) ∧
    ((∀ k, inRange start stop k = true → ∃ v, s.getAtRevision k T = .ok v) →
      ∃ rows, s.rangeAtRevisionWithMetadata start stop 0 T = .ok rows)

/-- Written after `T`, with no write kept up to `T` and no proof that it was created since: neither read can tell. -/
def Lost (s : Store) (T : ℕ) (k : Bytes) : Prop :=
  lastUpTo T k s.writes = none ∧ WrittenAfter s.writes T k ∧ s.createdAfter k T = false

/-- Deleted by the last write kept up to `T` and written again after it, over metadata that is older. -/
def Reborn (s : Store) (T : ℕ) (k : Bytes) : Prop :=
  lastUpTo T k s.writes = some none ∧ WrittenAfter s.writes T k ∧ s.createdAfter k T = false

/-- The replay can tell every key of the range. -/
def Told (s : Store) (start stop : Bytes) (T : ℕ) : Prop := ∀ k, inRange start stop k = true → ¬ Lost s T k ∧
    ¬ Reborn s T k

/-- Live with no write kept, in a range without an end, which the scan of the live rows takes for empty. -/
def Missed (s : Store) (stop : Bytes) (T : ℕ) (k : Bytes) : Prop :=
  stop = [] ∧ lastUpTo T k s.writes = none ∧ ¬ WrittenAfter s.writes T k ∧ s.get k ≠ none

/-! ### The single read -/

lemma foldl_keyScan (k : Bytes) (isAfter : Bool) (changes : List KeyValueChange) (acc : Store.KeyScan) :
    changes.foldl (Store.KeyScan.change k isAfter) acc =
      if isAfter then { acc with writtenAfter := acc.writtenAfter || (lastChange k (changePairs changes)).isSome }
      else { acc with last := (lastChange k (changePairs changes)).or acc.last } := by
  induction changes generalizing acc with
  | nil => cases isAfter <;> simp [changePairs]
  | cons c cs ih =>
    rw [foldl_cons, ih]
    cases isAfter <;> by_cases hc : c.key = k <;>
      cases hl : lastChange k (changePairs cs) <;>
      simp [Store.KeyScan.change, changePairs, lastChange, hc] at hl ⊢ <;> simp [hl]

variable {k : Bytes} {log : Log Bytes Bytes} {h : Store.HistoricalRangeView}

lemma writtenAfter_stamp {r T : ℕ} {changes : List (Bytes × Option Bytes)} :
    WrittenAfter (stamp r changes) T k ↔ T < r ∧ lastChange k changes ≠ none := by
  rw [Ne, lastChange_eq_none]
  constructor
  · rintro ⟨w, hw, hlt, hk⟩
    obtain ⟨c, hc, rfl⟩ := mem_map.1 hw
    exact ⟨hlt, fun h => h c hc hk⟩
  · rintro ⟨hlt, h⟩
    push Not at h
    obtain ⟨c, hc, hk⟩ := h
    exact ⟨(r, c), mem_map_of_mem hc, hlt, hk⟩

variable {T : ℕ}

lemma writtenAfter_append {a b : Log Bytes Bytes} :
    WrittenAfter (a ++ b) T k ↔ WrittenAfter a T k ∨ WrittenAfter b T k := by
  simp only [WrittenAfter, mem_append, or_and_right, exists_or]

/-- **The scan for a key** finds its last write up to the target, and whether it was written after. -/
lemma scanKey_spec (k : Bytes) (T : ℕ) {rows : List (ℕ × ChangeEvent)} (hs : rows.Pairwise fun a b => a.1 < b.1)
    (acc : Store.KeyScan) : (scanKey k T acc rows).last = (lastUpTo T k (logOf rows)).or acc.last ∧
      ((scanKey k T acc rows).writtenAfter = true ↔
        acc.writtenAfter = true ∨ WrittenAfter (logOf rows) T k) := by
  induction rows generalizing acc with
  | nil => simp [scanKey, logOf, lastUpTo, WrittenAfter]
  | cons row rows ih =>
    obtain ⟨hrow, hs⟩ := pairwise_cons.1 hs
    have hlog : logOf (row :: rows) = stamp row.1 (changePairs row.2.changes) ++ logOf rows := rfl
    rw [hlog, lastUpTo_append, lastUpTo_stamp, writtenAfter_append, writtenAfter_stamp]
    simp only [scanKey, foldl_keyScan]
    by_cases hT : T < row.1
    · -- every later entry is after the target too
      have hnone : lastUpTo T k (logOf rows) = none := by
        rw [lastUpTo_eq_none]
        intro w hw hle
        obtain ⟨r, hr, hw⟩ := mem_flatMap.1 hw
        obtain ⟨c, -, rfl⟩ := mem_map.1 hw
        have := hrow r hr
        simp only at hle
        omega
      have hle : ¬ row.1 ≤ T := by omega
      simp only [hT, decide_true, if_true, hnone, hle, if_false, Bool.true_and]
      split
      · next hw =>
        simp only [Bool.or_eq_true, Option.isSome_iff_ne_none] at hw
        simp only [Option.or, true_and, Bool.or_eq_true, Option.isSome_iff_ne_none]
        tauto
      · next hw =>
        obtain ⟨h1, h2⟩ := ih hs { acc with
          writtenAfter := acc.writtenAfter || (lastChange k (changePairs row.2.changes)).isSome }
        rw [h1, h2, hnone]
        simp only [Option.or, true_and, Bool.or_eq_true, Option.isSome_iff_ne_none]
        tauto
    · have hle : row.1 ≤ T := by omega
      obtain ⟨h1, h2⟩ := ih hs { acc with last := (lastChange k (changePairs row.2.changes)).or acc.last }
      simp only [hT, decide_false, Bool.false_and, Bool.false_eq_true, if_false, hle, if_true, false_and, false_or]
      exact ⟨by rw [h1, Option.or_assoc], h2⟩

section

variable {mode : RevisionMode} {s : Store} {past : ℕ → Bytes → KeyView} {T : ℕ}

lemma Store.ensureAboveFloors_ok (hf : s.importHistoryFloors = []) (T : ℕ) (hits : ImportHistoryFloor → Bool) :
    s.ensureAboveFloors T hits = .ok () := by
  simp [ensureAboveFloors, hf]

lemma Store.ensureHistoryReconstructable_ok (hT : s.compactedRevision < T) :
    s.ensureHistoryReconstructable T = .ok () := by
  simp [ensureHistoryReconstructable, hT]

lemma Hist.of_createdAfter (h : Hist mode s past) (hlo : s.compactedRevision < T) {k : Bytes}
    (hc : s.createdAfter k T = true) : (past T k).1 = none := by
  cases hm : s.kvMeta.get k with
  | none => simp [createdAfter, hm] at hc
  | some m => exact h.before k m hm T hlo (by simpa [createdAfter, hm] using hc)

lemma Store.getAtRevision_eq (hf : s.importHistoryFloors = []) (hlo : s.compactedRevision < T) (k : Bytes) :
    ∃ after : Bool, (after = true ↔ WrittenAfter s.writes T k) ∧ s.getAtRevision k T = (lastUpTo T k s.writes).elim
      (if !after then .ok (s.get k) else if s.createdAfter k T then .ok none else .error (.keyHistoryUnavailable T
        k)) .ok := by
  obtain ⟨hlast, hafter⟩ := scanKey_spec k T s.changelog.sorted ⟨none, false⟩
  have hlast' : (scanKey k T ⟨none, false⟩ s.changelog.rows).last = lastUpTo T k s.writes := by
    rw [hlast, Option.or_none]
    rfl
  refine ⟨(scanKey k T ⟨none, false⟩ s.changelog.rows).writtenAfter, ?_, ?_⟩
  · rw [hafter]
    exact ⟨fun hw => hw.resolve_left Bool.false_ne_true, Or.inr⟩
  · cases ho : lastUpTo T k s.writes <;>
      simp only [Store.getAtRevision, Store.ensureHistoryReconstructable_ok hlo, Option.elim,
        ensureKeyImportHistoryAvailable, Store.ensureAboveFloors_ok hf, hlast', ho]

lemma Hist.getAtRevision (h : Hist mode s past) (hlo : s.compactedRevision < T) (hhi : T ≤ s.currentRevision mode)
    (k : Bytes) : (¬ Lost s T k → s.getAtRevision k T = .ok (past T k).1) ∧
      (Lost s T k → s.getAtRevision k T = .error (.keyHistoryUnavailable T k)) := by
  obtain ⟨after, hafter, hread⟩ := getAtRevision_eq h.floors hlo k
  rw [hread]
  cases hl : lastUpTo T k s.writes with
  | some v =>
    refine ⟨fun _ => ?_, fun hlost => ?_⟩
    · rw [h.log.kept T k v hhi hl]
      rfl
    · rw [hlost.1] at hl
      cases hl
  | none =>
    cases after with
    | true =>
      cases hc : s.createdAfter k T with
      | true =>
        refine ⟨fun _ => by simp [h.of_createdAfter hlo hc], fun hlost => ?_⟩
        rw [hlost.2.2] at hc
        cases hc
      | false => exact ⟨fun hno => absurd ⟨hl, hafter.1 rfl, hc⟩ hno, fun _ => by simp⟩
    | false =>
      have hw : ¬ WrittenAfter s.writes T k := fun hw => Bool.false_ne_true (hafter.2 hw)
      exact ⟨fun _ => by simp [h.log.unwritten hlo hhi hw], fun hlost => absurd hlost.2.1 hw⟩

end

/-! ### The replay of a range -/

/-- What the replay holds after the writes of `log`. -/
structure Replayed (start stop : Bytes) (T : ℕ) (h : Store.HistoricalRangeView) (log : Log Bytes Bytes) : Prop where
  view : ∀ k v, h.view.get k = some v ↔ inRange start stop k = true ∧ lastUpTo T k log = some (some v)
  changedAfter : ∀ k, k ∈ h.changedAfter ↔ inRange start stop k = true ∧ WrittenAfter log T k
  lastWrite : ∀ k, inRange start stop k = true → h.lastWrite.get k = lastRev T k log
  postEvents : ∀ k, inRange start stop k = true → (h.postEvents.get k).getD [] = eventsOf k (writesAfter T log)

lemma replayed_empty (start stop : Bytes) (T : ℕ) : Replayed start stop T .empty [] := by
  constructor <;> simp [Store.HistoricalRangeView.empty, lastUpTo, WrittenAfter, lastRev, eventsOf, writesAfter]

lemma lastUpTo_concat (T : ℕ) (k : Bytes) (log : Log Bytes Bytes) (w : ℕ × Bytes × Option Bytes) :
    lastUpTo T k (log ++ [w]) = if w.1 ≤ T ∧ w.2.1 = k then some w.2.2 else lastUpTo T k log := by
  rw [lastUpTo_append]
  by_cases h : w.1 ≤ T ∧ w.2.1 = k <;> simp [lastUpTo, h]

lemma writtenAfter_concat {w : ℕ × Bytes × Option Bytes} :
    WrittenAfter (log ++ [w]) T k ↔ WrittenAfter log T k ∨ (T < w.1 ∧ w.2.1 = k) := by
  rw [writtenAfter_append]
  simp [WrittenAfter]

lemma lastRev_concat (T : ℕ) (k : Bytes) (log : Log Bytes Bytes) (w : ℕ × Bytes × Option Bytes) :
    lastRev T k (log ++ [w]) = if w.1 ≤ T ∧ w.2.1 = k then some w.1 else lastRev T k log := by
  by_cases h : w.1 ≤ T ∧ w.2.1 = k <;> simp [lastRev, filter_append, h]

lemma eventsOf_concat (T : ℕ) (k : Bytes) (log : Log Bytes Bytes) (w : ℕ × Bytes × Option Bytes) :
    eventsOf k (writesAfter T (log ++ [w])) =
      if T < w.1 ∧ w.2.1 = k then eventsOf k (writesAfter T log) ++ [(w.1, w.2.2.isNone)]
      else eventsOf k (writesAfter T log) := by
  by_cases hT : T < w.1 <;> by_cases hk : w.2.1 = k <;> simp [eventsOf, writesAfter, filter_append, hT, hk]

variable {start stop : Bytes}

lemma Replayed.change (hr : Replayed start stop T h log) (r : ℕ) (c : KeyValueChange) :
    Replayed start stop T (h.change start stop (decide (T < r)) r c) (log ++ [(r, c.key, c.value)]) := by
  unfold Store.HistoricalRangeView.change
  by_cases hin : inRange start stop c.key = true
  · by_cases hT : T < r
    · -- a write after the target
      have hle : ¬ r ≤ T := by omega
      simp only [hin, Bool.not_true, Bool.false_eq_true, if_false, hT, decide_true, if_true]
      constructor
      · intro k v
        simp [lastUpTo_concat, hle, hr.view]
      · intro k
        simp only [mem_cons, hr.changedAfter, writtenAfter_concat, hT, true_and]
        constructor
        · rintro (rfl | ⟨h1, h2⟩)
          · exact ⟨hin, Or.inr rfl⟩
          · exact ⟨h1, Or.inl h2⟩
        · rintro ⟨h1, h2 | rfl⟩
          · exact Or.inr ⟨h1, h2⟩
          · exact Or.inl rfl
      · intro k hk
        simp [lastRev_concat, hle, hr.lastWrite k hk]
      · intro k hk
        rw [eventsOf_concat, get_insert]
        by_cases hck : c.key = k
        · subst hck
          simp [hT, hr.postEvents c.key hin]
        · simp [hck, Ne.symm hck, hr.postEvents k hk]
    · -- a write up to the target
      have hle : r ≤ T := by omega
      simp only [hin, Bool.not_true, Bool.false_eq_true, if_false, hT, decide_false]
      constructor
      · intro k v
        rw [lastUpTo_concat]
        by_cases hk : k = c.key
        · subst hk
          cases hv : c.value with
          | none => simp [hle, get_erase]
          | some w => simp [hle, hin]
        · have hk' : ¬ c.key = k := fun e => hk e.symm
          cases hv : c.value with
          | none => simp [hk', get_erase, hk, hr.view]
          | some w => simp [hk', get_insert_ne _ _ hk, hr.view]
      · intro k
        simp [hr.changedAfter, writtenAfter_concat, hT]
      · intro k hk
        rw [lastRev_concat, get_insert]
        by_cases hck : c.key = k
        · subst hck
          simp [hle]
        · simp [hck, Ne.symm hck, hr.lastWrite k hk]
      · intro k hk
        simp [hr.postEvents k hk, eventsOf_concat, hT]
  · -- a write outside the range says nothing of the keys in it
    have hne : ∀ k, inRange start stop k = true → ¬ c.key = k := fun k hk e => hin (e ▸ hk)
    simp only [hin, Bool.not_false, if_true]
    constructor
    · intro k v
      rw [hr.view, lastUpTo_concat]
      exact and_congr_right fun hk => by simp [hne k hk]
    · intro k
      rw [hr.changedAfter, writtenAfter_concat]
      exact and_congr_right fun hk => by simp [hne k hk]
    · intro k hk
      simp [lastRev_concat, hne k hk, hr.lastWrite k hk]
    · intro k hk
      simp [eventsOf_concat, hne k hk, hr.postEvents k hk]

lemma Replayed.changes (r : ℕ) (changes : List KeyValueChange) (hr : Replayed start stop T h log) :
    Replayed start stop T (changes.foldl (.change start stop (decide (T < r)) r) h)
      (log ++ stamp r (changePairs changes)) := by
  induction changes generalizing h log with
  | nil => simpa [changePairs, stamp] using hr
  | cons c cs ih => simpa [changePairs, stamp] using ih (hr.change r c)

lemma Replayed.rows {rows : List (ℕ × ChangeEvent)} (hrows : ∀ row ∈ rows, row.2.revision = row.1)
    (hr : Replayed start stop T h log) : Replayed start stop T (h.replay start stop T rows) (log ++ logOf rows) := by
  induction rows generalizing h log with
  | nil => simpa [logOf, Store.HistoricalRangeView.replay] using hr
  | cons row rows ih =>
    have := ih (fun row hrow => hrows row (mem_cons_of_mem _ hrow)) (hr.changes row.1 row.2.changes)
    rw [append_assoc] at this
    unfold Store.HistoricalRangeView.replay
    rw [foldl_cons, hrows row mem_cons_self]
    exact this

/-! ### Completing the view -/

lemma mem_rangeIn {s : Store} {start stop v : Bytes} :
    (k, v) ∈ s.rangeIn start stop 0 ↔ (start ≤ k ∧ k < stop) ∧ s.get k = some v := by
  simp only [rangeIn, takeLimit, if_true, Store.kvRows, mem_filter, mem_rows, decide_eq_true_eq,
    Bool.not_eq_true', Store.get]
  cases hkv : s.kv.get k <;> cases hd : s.isDeleted k <;> simp [and_comm]

lemma mem_historyCandidates {s : Store} {changedAfter : List Bytes} {o : Option Bytes} :
    (k, o) ∈ (s.historyCandidates start stop changedAfter).rows ↔ (∃ v, o = some v ∧ (k, v) ∈ s.rangeIn start stop 0) ∨
        (o = none ∧ k ∈ changedAfter ∧ ∀ v, (k, v) ∉ s.rangeIn start stop 0) := by
  rw [mem_rows]
  unfold historyCandidates
  by_cases hlive : ∃ v, (k, v) ∈ s.rangeIn start stop 0
  · obtain ⟨v, hv⟩ := hlive
    have huniq : ∀ w, (k, w) ∈ s.rangeIn start stop 0 → w = v := by
      intro w hw
      exact Option.some.inj ((mem_rangeIn.1 hw).2.symm.trans (mem_rangeIn.1 hv).2)
    rw [get_insertAll_of_mem (v := some v) ⟨(k, some v), mem_map.2 ⟨(k, v), hv, rfl⟩, rfl⟩ ?_]
    · constructor
      · intro ho
        exact Or.inl ⟨v, (Option.some.inj ho).symm, hv⟩
      · rintro (⟨w, rfl, hw⟩ | ⟨-, -, hno⟩)
        · rw [huniq w hw]
        · exact absurd hv (hno v)
    · intro row hrow hk
      obtain ⟨r, hr, rfl⟩ := mem_map.1 hrow
      obtain rfl : r.1 = k := hk
      exact congrArg some (huniq r.2 hr)
  · have hno : ∀ v, (k, v) ∉ s.rangeIn start stop 0 := fun v hv => hlive ⟨v, hv⟩
    rw [get_insertAll_of_not_mem ?_]
    · by_cases hc : k ∈ changedAfter
      · rw [get_insertAll_of_mem (v := none) ⟨(k, none), mem_map.2 ⟨k, hc, rfl⟩, rfl⟩ ?_]
        · constructor
          · intro ho
            exact Or.inr ⟨(Option.some.inj ho).symm, hc, hno⟩
          · rintro (⟨v, -, hv⟩ | ⟨rfl, -, -⟩)
            · exact absurd hv (hno v)
            · rfl
        · intro row hrow _
          obtain ⟨k', -, rfl⟩ := mem_map.1 hrow
          rfl
      · rw [get_insertAll_of_not_mem ?_]
        · simp [hno, hc]
        · rintro row hrow rfl
          obtain ⟨k', hk', rfl⟩ := mem_map.1 hrow
          exact hc hk'
    · rintro row hrow rfl
      obtain ⟨r, hr, rfl⟩ := mem_map.1 hrow
      exact hno r.2 hr

/-- One candidate: it gives its value to an unwritten key that the view has not, or lists a written one. -/
lemma fillCandidate_spec (s : Store) (T : ℕ) (changedAfter : List Bytes) (view : Table Bytes Bytes)
    (lost : List Bytes) (key : Bytes) (o : Option Bytes) (k : Bytes) :
    let step := s.fillCandidate T changedAfter (view, lost) (key, o)
    (step.1.get k = if k = key ∧ view.get k = none ∧ k ∉ changedAfter then o else view.get k) ∧
      (k ∈ step.2 ↔ k ∈ lost ∨ (k = key ∧ view.get k = none ∧ k ∈ changedAfter ∧ s.createdAfter k T = false)) := by
  by_cases hk : k = key
  · subst hk
    cases hg : view.get k <;> by_cases hca : k ∈ changedAfter <;> cases hcr : s.createdAfter k T <;> cases o <;>
      simp [fillCandidate, Table.has, hg, hca, hcr]
  · simp only [fillCandidate, hk, false_and, if_false, or_false]
    split
    · simp
    · split
      · cases o <;> simp [get_insert_ne _ _ hk]
      · split <;> simp [hk]

/-- **Completing the view** adds the live keys that were not written, and lists the keys it cannot tell. -/
lemma fill_spec (s : Store) (T : ℕ) (changedAfter : List Bytes) (rows : List (Bytes × Option Bytes))
    (hs : rows.Pairwise fun a b => a.1 < b.1) (view : Table Bytes Bytes) (lost : List Bytes) :
    let filled := rows.foldl (s.fillCandidate T changedAfter) (view, lost)
    (∀ k v, filled.1.get k = some v ↔
        view.get k = some v ∨ (view.get k = none ∧ k ∉ changedAfter ∧ (k, some v) ∈ rows)) ∧
      ∀ k, k ∈ filled.2 ↔ k ∈ lost ∨
        (view.get k = none ∧ k ∈ changedAfter ∧ s.createdAfter k T = false ∧ ∃ o, (k, o) ∈ rows) := by
  induction rows generalizing view lost with
  | nil => simp
  | cons c rows ih =>
    obtain ⟨hc, hrest⟩ := pairwise_cons.1 hs
    obtain ⟨key, o⟩ := c
    -- the keys are distinct: the rest of the candidates says nothing of this one
    have hfresh : ∀ o', (key, o') ∉ rows := fun o' ho => lt_irrefl key (hc (key, o') ho)
    have hstep := fillCandidate_spec s T changedAfter view lost key o
    obtain ⟨h1, h2⟩ := ih hrest (s.fillCandidate T changedAfter (view, lost) (key, o)).1
      (s.fillCandidate T changedAfter (view, lost) (key, o)).2
    refine ⟨fun k v => ?_, fun k => ?_⟩
    · rw [foldl_cons, h1, (hstep k).1]
      by_cases hk : k = key
      · subst hk
        cases hg : view.get k <;> by_cases hca : k ∈ changedAfter <;> simp [hca, hfresh, eq_comm]
      · simp [hk]
    · rw [foldl_cons, h2, (hstep k).1, (hstep k).2]
      by_cases hk : k = key
      · subst hk
        simp [hfresh]
      · simp [hk]

/-! ### The range read -/

section

variable {mode : RevisionMode} {s : Store} {past : ℕ → Bytes → KeyView} {T : ℕ} {start stop : Bytes}

lemma Hist.replayed (h : Hist mode s past) (start stop : Bytes) (T : ℕ) :
    Replayed start stop T (Store.HistoricalRangeView.empty.replay start stop T s.changelog.rows) s.writes :=
  (replayed_empty start stop T).rows h.stamped

variable {k : Bytes}

lemma inRange_of_lt (h : start ≤ k ∧ k < stop) : inRange start stop k = true := by
  simp [inRange, h]

/-- **The replay of a range** fails just when a key of the range is lost or reborn. -/
lemma Hist.replayHistoricalRange (h : Hist mode s past) (hlo : s.compactedRevision < T)
    (hhi : T ≤ s.currentRevision mode) (start stop : Bytes) :
    (∀ view, s.replayHistoricalRange start stop T = .ok view → Told s start stop T) ∧
      (Told s start stop T → ∃ view, s.replayHistoricalRange start stop T = .ok
            { Store.HistoricalRangeView.empty.replay start stop T s.changelog.rows with view := view } ∧
          ∀ k v, view.get k = some v ↔
            (inRange start stop k = true ∧ (past T k).1 = some v ∧ ¬ Missed s stop T k)) := by
  set r := Store.HistoricalRangeView.empty.replay start stop T s.changelog.rows with hr
  have hrep : Replayed start stop T r s.writes := h.replayed start stop T
  have hfill := fill_spec s T r.changedAfter (s.historyCandidates start stop r.changedAfter).rows
    (s.historyCandidates start stop r.changedAfter).sorted r.view []
  set filled := (s.historyCandidates start stop r.changedAfter).rows.foldl
    (s.fillCandidate T r.changedAfter) (r.view, []) with hfilled
  obtain ⟨hview, hlost⟩ := hfill
  have hnone : filled.2 = [] → s.replayHistoricalRange start stop T = .ok { r with view := filled.1 } := fun hl => by
    simp only [Store.replayHistoricalRange, Store.ensureHistoryReconstructable_ok hlo,
      ensureImportHistoryAvailable, Store.ensureAboveFloors_ok h.floors, ← hr, ← hfilled, hl]
  have hsome : ∀ first rest, filled.2 = first :: rest →
      s.replayHistoricalRange start stop T = .error (.rangeHistoryUnavailable T (rest.length + 1) first) :=
    fun first rest hl => by
      simp only [Store.replayHistoricalRange, Store.ensureHistoryReconstructable_ok hlo,
        ensureImportHistoryAvailable, Store.ensureAboveFloors_ok h.floors, ← hr, ← hfilled, hl]
  -- a key is listed when it was written after the target and the view has no value for it
  have hlisted : ∀ k, k ∈ filled.2 ↔ inRange start stop k = true ∧ (Lost s T k ∨ Reborn s T k) := by
    intro k
    rw [hlost k]
    have hnone : inRange start stop k = true →
        (r.view.get k = none ↔ lastUpTo T k s.writes = none ∨ lastUpTo T k s.writes = some none) := by
      intro hin
      rw [Option.eq_none_iff_forall_ne_some]
      constructor
      · intro hno
        rcases hl : lastUpTo T k s.writes with _ | (_ | v)
        · exact Or.inl rfl
        · exact Or.inr rfl
        · exact absurd ((hrep.view k v).2 ⟨hin, hl⟩) (hno v)
      · rintro hl v hv
        rcases hl with hl | hl <;> rw [((hrep.view k v).1 hv).2] at hl <;> simp at hl
    constructor
    · rintro (hk | ⟨hg, hca, hcr, -⟩)
      · simp at hk
      · obtain ⟨hin, hw⟩ := (hrep.changedAfter k).1 hca
        rcases (hnone hin).1 hg with hl | hl
        · exact ⟨hin, Or.inl ⟨hl, hw, hcr⟩⟩
        · exact ⟨hin, Or.inr ⟨hl, hw, hcr⟩⟩
    · rintro ⟨hin, hk⟩
      have hfacts : r.view.get k = none ∧ WrittenAfter s.writes T k ∧ s.createdAfter k T = false := by
        rcases hk with ⟨hl, hw, hcr⟩ | ⟨hl, hw, hcr⟩
        · exact ⟨(hnone hin).2 (Or.inl hl), hw, hcr⟩
        · exact ⟨(hnone hin).2 (Or.inr hl), hw, hcr⟩
      obtain ⟨hg, hw, hcr⟩ := hfacts
      have hca := (hrep.changedAfter k).2 ⟨hin, hw⟩
      refine Or.inr ⟨hg, hca, hcr, ?_⟩
      by_cases hlive : ∃ v, (k, v) ∈ s.rangeIn start stop 0
      · obtain ⟨v, hv⟩ := hlive
        exact ⟨some v, mem_historyCandidates.2 (Or.inl ⟨v, rfl, hv⟩)⟩
      · exact ⟨none, mem_historyCandidates.2 (Or.inr ⟨rfl, hca, fun v hv => hlive ⟨v, hv⟩⟩)⟩
  refine ⟨?_, ?_⟩
  · intro view hok k hin
    have hmem : k ∉ filled.2 := by
      cases hf : filled.2 with
      | nil => exact not_mem_nil
      | cons first rest => cases (hsome _ _ hf).symm.trans hok
    exact not_or.1 fun hk => hmem ((hlisted k).2 ⟨hin, hk⟩)
  · intro hno
    have hnil : filled.2 = [] := by
      refine eq_nil_iff_forall_not_mem.2 fun k hk => ?_
      obtain ⟨hin, hk⟩ := (hlisted k).1 hk
      exact hk.elim (hno k hin).1 (hno k hin).2
    refine ⟨filled.1, hnone hnil, fun k v => ?_⟩
    rw [hview k v]
    constructor
    · rintro (hv | ⟨hg, hca, hc⟩)
      · -- the last write kept is the value
        obtain ⟨hin, hl⟩ := (hrep.view k v).1 hv
        refine ⟨hin, h.log.kept T k _ hhi hl, fun hm => ?_⟩
        rw [hm.2.1] at hl
        cases hl
      · -- the key was not written since, and is as it is now
        obtain ⟨v', hv', hlive⟩ | ⟨hn, -⟩ := mem_historyCandidates.1 hc
        · cases hv'
          obtain ⟨hlt, hget⟩ := mem_rangeIn.1 hlive
          have hin := inRange_of_lt hlt
          have hw : ¬ WrittenAfter s.writes T k := fun hw => hca ((hrep.changedAfter k).2 ⟨hin, hw⟩)
          refine ⟨hin, (h.log.unwritten hlo hhi hw).trans hget, fun hm => ?_⟩
          exact not_lt_nil k (hm.1 ▸ hlt.2)
        · cases hn
    · rintro ⟨hin, hval, hmiss⟩
      rcases hl : lastUpTo T k s.writes with _ | o
      · by_cases hw : WrittenAfter s.writes T k
        · -- written since: the metadata would prove that it was not there
          cases hcr : s.createdAfter k T with
          | true =>
            rw [h.of_createdAfter hlo hcr] at hval
            cases hval
          | false => exact absurd ⟨hl, hw, hcr⟩ (hno k hin).1
        · have hget : s.get k = some v := (h.log.unwritten hlo hhi hw).symm.trans hval
          have hstop : stop ≠ [] := fun he => hmiss ⟨he, hl, hw, by simp [hget]⟩
          have hlt : start ≤ k ∧ k < stop := by simpa [inRange, hstop] using hin
          refine Or.inr ⟨?_, fun hca => hw ((hrep.changedAfter k).1 hca).2, ?_⟩
          · refine Option.eq_none_iff_forall_ne_some.2 fun v' hv' => ?_
            rw [((hrep.view k v').1 hv').2] at hl
            cases hl
          · exact mem_historyCandidates.2 (Or.inl ⟨v, rfl, mem_rangeIn.2 ⟨hlt, hget⟩⟩)
      · have := h.log.kept T k o hhi hl
        rw [hval] at this
        exact Or.inl ((hrep.view k v).2 ⟨hin, by rw [hl, ← this]⟩)

lemma effectiveAfter_nonneg (live : Bool) (events : List (ℕ × Bool)) : 0 ≤ effectiveAfter live events := by
  induction events generalizing live with
  | nil => simp [effectiveAfter]
  | cons e events ih =>
    have h1 := ih true
    have h2 := ih false
    unfold effectiveAfter
    split
    · split <;> omega
    · omega

lemma effectiveAfter_eq_zero {events : List (ℕ × Bool)} : effectiveAfter true events = 0 ↔ events = [] := by
  cases events with
  | nil => simp [effectiveAfter]
  | cons e events =>
    have h1 := effectiveAfter_nonneg true events
    have h2 := effectiveAfter_nonneg false events
    simp only [effectiveAfter, if_true, reduceCtorEq, iff_false]
    split <;> omega

lemma eventsOf_eq_nil {log : Log Bytes Bytes} : eventsOf k (writesAfter T log) = [] ↔ ¬ WrittenAfter log T k := by
  simp only [eventsOf, writesAfter, map_eq_nil_iff, filter_eq_nil_iff, mem_filter, decide_eq_true_eq,
    WrittenAfter, not_exists, and_imp, not_and]

lemma lastRev_eq_none {log : Log Bytes Bytes} : lastRev T k log = none ↔ lastUpTo T k log = none := by
  simp [lastRev, lastUpTo_eq_none]

def SameVersion (m m₀ : KvMetadata) : Prop :=
  m.version = m₀.version ∧ m.createRevision = m₀.createRevision ∧ m.modRevision = m₀.modRevision

/-- **The metadata** of a key that was live at the target can be told whenever its value can, and on a v2 store it is
what the key had. -/
lemma Hist.historicalMetadata (h : Hist mode s past) (hlo : s.compactedRevision < T)
    (hhi : T ≤ s.currentRevision mode) (view : Table Bytes Bytes) {v : Bytes} (hin : inRange start stop k = true)
    (hval : (past T k).1 = some v) (hlost : ¬ Lost s T k) :
    ∃ m, s.historicalMetadata
        { Store.HistoricalRangeView.empty.replay start stop T s.changelog.rows with view := view } T k = .ok m ∧
      (mode = .commitTs → ∃ m₀, (past T k).2 = some m₀ ∧ SameVersion m m₀) := by
  have hrep := h.replayed start stop T
  obtain ⟨m₀, hm₀, hd₀⟩ := h.sound T k hhi v hval
  cases hm : s.kvMeta.get k with
  | none =>
    rw [h.absent k hm T hlo hhi] at hval
    cases hval
  | some current =>
    have hcreate : ¬ T < current.createRevision := by
      intro hlt
      rw [h.before k current hm T hlo hlt] at hval
      cases hval
    -- the present metadata is that of the target, taken forward
    have hnow : mode = .commitTs →
        some { current with leaseId := 0 } = metaRun k (some m₀) (writesAfter T s.writes) := fun hmode => by
      rw [← (h.versions hmode).replay T k m₀ hlo hhi hm₀ hd₀, Store.view, hm, unleased, Option.map_some]
    simp only [Store.historicalMetadata, hm, effectiveAfter_eq_zero, hrep.postEvents k hin, hrep.lastWrite k hin]
    by_cases hw : WrittenAfter s.writes T k
    · have hne : eventsOf k (writesAfter T s.writes) ≠ [] := fun hnil => eventsOf_eq_nil.1 hnil hw
      have hl : lastRev T k s.writes ≠ none := by
        rw [Ne, lastRev_eq_none]
        intro hl
        cases hcr : s.createdAfter k T with
        | true =>
          rw [h.of_createdAfter hlo hcr] at hval
          cases hval
        | false => exact hlost ⟨hl, hw, hcr⟩
      obtain ⟨r, hr⟩ := Option.ne_none_iff_exists'.1 hl
      simp only [hne, hr, if_false, hcreate]
      refine ⟨_, rfl, fun hmode => ⟨m₀, hm₀, ?_, ?_, ?_⟩⟩
      all_goals
        obtain ⟨m', hm', hc', hv'⟩ := metaRun_version (k := k) m₀ (writesAfter T s.writes)
        rw [← hnow hmode] at hm'
        cases hm'
      · simp only [hd₀, Bool.not_false] at hv'
        simp only
        omega
      · exact hc'
      · exact ((h.versions hmode).modified T k m₀ r hhi hm₀ hd₀ hr).symm
    · -- nothing was written since, so the key is live now
      have hget : s.get k = some v := (h.log.unwritten hlo hhi hw).symm.trans hval
      have hd : current.deleted = false := by
        refine Bool.eq_false_iff.2 fun hd => ?_
        rw [get_of_deleted hm hd] at hget
        cases hget
      simp only [eventsOf_eq_nil.2 hw, if_true, hd, Bool.false_eq_true, if_false]
      refine ⟨_, rfl, fun hmode => ⟨m₀, hm₀, ?_⟩⟩
      have hun : ∀ w ∈ writesAfter T s.writes, w.2.1 ≠ k := by
        intro w hw' hk
        obtain ⟨hmem, hT⟩ := mem_filter.1 hw'
        exact hw ⟨w, hmem, by simpa using hT, hk⟩
      have hsame := hnow hmode
      rw [metaRun_untouched hun] at hsame
      cases hsame
      exact ⟨rfl, rfl, rfl⟩

lemma Store.historicalRows_congr {s s' : Store} (hm : s'.kvMeta = s.kvMeta) (h : HistoricalRangeView) (T : ℕ)
    (l : List (Bytes × Bytes)) : s'.historicalRows h T l = s.historicalRows h T l := by
  induction l with
  | nil => rfl
  | cons row l ih => simp only [historicalRows, Store.historicalMetadata, hm, ih]

variable {h : Store.HistoricalRangeView} {rows : List (Bytes × Bytes)}

lemma historicalRows_ok (hm : ∀ row ∈ rows, ∃ m, s.historicalMetadata h T row.1 = .ok m) :
    ∃ out, s.historicalRows h T rows = .ok out ∧ out.map (fun x => (x.1, x.2.1)) = rows := by
  induction rows with
  | nil => exact ⟨[], rfl, rfl⟩
  | cons row rows ih =>
    obtain ⟨m, hm₁⟩ := hm row mem_cons_self
    obtain ⟨out, hout, hmap⟩ := ih fun row hrow => hm row (mem_cons_of_mem _ hrow)
    obtain ⟨key, value⟩ := row
    exact ⟨(key, value, m) :: out, by simp [historicalRows, hm₁, hout], by simp [hmap]⟩

/-- **The range read** fails when a key of the range is lost or reborn; else it returns the keys that were live,
without those it misses. -/
lemma Hist.rangeRead (h : Hist mode s past) (hlo : s.compactedRevision < T) (hhi : T ≤ s.currentRevision mode)
    (start stop : Bytes) : (∀ rows, s.rangeAtRevisionWithMetadata start stop 0 T = .ok rows → Told s start stop T) ∧
      (Told s start stop T → ∃ rows, s.rangeAtRevisionWithMetadata start stop 0 T = .ok rows ∧
        rows.Pairwise (fun a b => a.1 < b.1) ∧
          ∀ k v, (∃ m, (k, v, m) ∈ rows) ↔
            inRange start stop k = true ∧ (past T k).1 = some v ∧ ¬ Missed s stop T k) := by
  obtain ⟨htold, hok⟩ := h.replayHistoricalRange hlo hhi start stop
  refine ⟨fun rows hread => ?_, fun hno => ?_⟩
  · cases hr : s.replayHistoricalRange start stop T with
    | error e => simp [rangeAtRevisionWithMetadata, hr] at hread
    | ok view => exact htold view hr
  · obtain ⟨view, hread, hview⟩ := hok hno
    have hmeta : ∀ row ∈ view.rows, ∃ m, s.historicalMetadata
        { Store.HistoricalRangeView.empty.replay start stop T s.changelog.rows with view := view } T row.1 = .ok m := by
      rintro ⟨k, v⟩ hrow
      obtain ⟨hin, hval, -⟩ := (hview k v).1 (mem_rows.1 hrow)
      obtain ⟨m, hm, -⟩ := h.historicalMetadata hlo hhi view hin hval (hno k hin).1
      exact ⟨m, hm⟩
    obtain ⟨rows, hrows, hmap⟩ := historicalRows_ok hmeta
    refine ⟨rows, ?_, ?_, fun k v => ?_⟩
    · simp only [rangeAtRevisionWithMetadata, hread, takeLimit, if_true, hrows]
    · have hsorted := view.sorted
      rw [← hmap] at hsorted
      exact (pairwise_map (f := fun x : Bytes × Bytes × KvMetadata => (x.1, x.2.1))).1 hsorted
    · rw [← hview k v, ← mem_rows, ← hmap, mem_map]
      constructor
      · rintro ⟨m, hm⟩
        exact ⟨(k, v, m), hm, rfl⟩
      · rintro ⟨⟨k', v', m⟩, hm, he⟩
        cases he
        exact ⟨m, hm⟩

variable {x : Bytes × Bytes × KvMetadata}

lemma mem_historicalRows {out : List (Bytes × Bytes × KvMetadata)} (hout : s.historicalRows h T rows = .ok out)
    (hx : x ∈ out) : (x.1, x.2.1) ∈ rows ∧ s.historicalMetadata h T x.1 = .ok x.2.2 := by
  induction rows generalizing out with
  | nil =>
    cases Except.ok.inj hout
    cases hx
  | cons row rows ih =>
    obtain ⟨key, value⟩ := row
    cases hm : s.historicalMetadata h T key with
    | error e => simp [historicalRows, hm] at hout
    | ok m =>
      cases hrest : s.historicalRows h T rows with
      | error e => simp [historicalRows, hm, hrest] at hout
      | ok rest =>
        simp only [historicalRows, hm, hrest, Except.ok.injEq] at hout
        subst hout
        rcases mem_cons.1 hx with rfl | hx
        · exact ⟨mem_cons_self, hm⟩
        · exact ⟨mem_cons_of_mem _ (ih hrest hx).1, (ih hrest hx).2⟩

lemma mem_of_mem_takeLimit {α : Type} {limit : ℕ} {l : List α} {x : α} (h : x ∈ takeLimit limit l) : x ∈ l := by
  unfold takeLimit at h
  split at h
  · exact h
  · exact mem_of_mem_take h

lemma Hist.versionsAt {past : ℕ → Bytes → KeyView} (h : Hist .commitTs s past) (hhi : T ≤ s.currentRevision .commitTs)
    {limit : ℕ} {rows : List (Bytes × Bytes × KvMetadata)}
    (hread : s.rangeAtRevisionWithMetadata start stop limit T = .ok rows) (hx : x ∈ rows) :
    ∃ m, (past T x.1).2 = some m ∧ SameVersion x.2.2 m := by
  cases hr : s.replayHistoricalRange start stop T with
  | error e => simp [rangeAtRevisionWithMetadata, hr] at hread
  | ok view =>
    have hlo : s.compactedRevision < T := by
      by_contra hno
      simp [Store.replayHistoricalRange, ensureHistoryReconstructable, not_lt.1 hno] at hr
    obtain ⟨htold, hok⟩ := h.replayHistoricalRange hlo hhi start stop
    have hno := htold view hr
    obtain ⟨view', hview', hvals⟩ := hok hno
    cases hr.symm.trans hview'
    simp only [rangeAtRevisionWithMetadata, hview'] at hread
    obtain ⟨hmem, hmeta⟩ := mem_historicalRows hread hx
    obtain ⟨hin, hval, -⟩ := (hvals _ _).1 (mem_rows.1 (mem_of_mem_takeLimit hmem))
    obtain ⟨m, hm, hsame⟩ := h.historicalMetadata hlo hhi view' hin hval (hno _ hin).1
    cases hm.symm.trans hmeta
    exact hsame rfl

end

/-! ### The theorem -/

section

variable {mode : RevisionMode} {s : Store} {past : ℕ → Bytes → KeyView} {T : ℕ} {start stop : Bytes}

variable (hist : Hist mode s past) (hlo : s.compactedRevision < T) (hhi : T ≤ s.currentRevision mode)
include hist hlo hhi

lemma Hist.singleReadsExact (hno : ∀ k, inRange start stop k = true → ¬ Lost s T k) :
    SingleReadsExact s start stop T (fun k => (past T k).1) :=
  fun k hin => (hist.getAtRevision hlo hhi k).1 (hno k hin)

lemma Hist.not_missed (hno : Told s start stop T)
    (hexact : ∀ rows, s.rangeAtRevisionWithMetadata start stop 0 T = .ok rows →
      ExactRows start stop (fun k => (past T k).1) rows)
    {k : Bytes} (hin : inRange start stop k = true) : ¬ Missed s stop T k := by
  intro hm
  obtain ⟨rows, hread, -, hrows⟩ := (hist.rangeRead hlo hhi start stop).2 hno
  obtain ⟨v, hv⟩ := Option.ne_none_iff_exists'.1 hm.2.2.2
  have hlive : (past T k).1 = some v := (hist.log.unwritten hlo hhi hm.2.2.1).trans hv
  have hmem := ((hexact rows hread).2 k v).2 ⟨hin, hlive⟩
  exact ((hrows k v).1 hmem).2.2 hm

lemma Hist.rangeReadExact
    (hno : ∀ k, inRange start stop k = true → ¬ Lost s T k ∧ ¬ Reborn s T k ∧ ¬ Missed s stop T k) :
    RangeReadExact s start stop T (fun k => (past T k).1) := by
  obtain ⟨rows, hread, hsorted, hrows⟩ :=
    (hist.rangeRead hlo hhi start stop).2 fun k hin => ⟨(hno k hin).1, (hno k hin).2.1⟩
  refine ⟨⟨rows, hread, hsorted, fun k v => ?_⟩, hist.singleReadsExact hlo hhi fun k hin => (hno k hin).1⟩
  rw [hrows k v]
  exact ⟨fun hk => ⟨hk.1, hk.2.1⟩, fun hk => ⟨hk.1, hk.2, (hno k hk.1).2.2⟩⟩

lemma Hist.rangeReadExact_iff : RangeReadExact s start stop T (fun k => (past T k).1) ↔
      ∀ k, inRange start stop k = true → ¬ Lost s T k ∧ ¬ Reborn s T k ∧ ¬ Missed s stop T k := by
  refine ⟨fun hex => ?_, hist.rangeReadExact hlo hhi⟩
  obtain ⟨⟨rows, hread, hrows⟩, -⟩ := hex
  have hno := (hist.rangeRead hlo hhi start stop).1 rows hread
  intro k hin
  refine ⟨(hno k hin).1, (hno k hin).2, hist.not_missed hlo hhi hno (fun rows' hread' => ?_) hin⟩
  obtain rfl : rows = rows' := Except.ok.inj (hread.symm.trans hread')
  exact hrows

lemma Hist.rangeReadSound_iff : RangeReadSound s start stop T (fun k => (past T k).1) ↔
      (∃ k, inRange start stop k = true ∧ Lost s T k) ∨
        ∀ k, inRange start stop k = true → ¬ Reborn s T k ∧ ¬ Missed s stop T k := by
  by_cases hlost : ∃ k, inRange start stop k = true ∧ Lost s T k
  · -- both reads fail at the lost key
    refine ⟨fun _ => Or.inl hlost, fun _ => ?_⟩
    obtain ⟨k, hin, hk⟩ := hlost
    refine ⟨fun rows hread => ?_, fun hall => ?_⟩
    · exact absurd hk ((hist.rangeRead hlo hhi start stop).1 rows hread k hin).1
    · obtain ⟨v, hv⟩ := hall k hin
      rw [(hist.getAtRevision hlo hhi k).2 hk] at hv
      cases hv
  · have hnl : ∀ k, inRange start stop k = true → ¬ Lost s T k := fun k hin hk => hlost ⟨k, hin, hk⟩
    have hsingle := hist.singleReadsExact hlo hhi hnl
    constructor
    · rintro ⟨hexact, hsucc⟩
      obtain ⟨rows, hread⟩ := hsucc fun k hin => ⟨_, hsingle k hin⟩
      exact Or.inr fun k hin => ((hist.rangeReadExact_iff hlo hhi).1
        ⟨⟨rows, hread, (hexact rows hread).1⟩, hsingle⟩ k hin).2
    · rintro (hk | hno)
      · exact absurd hk hlost
      · obtain ⟨⟨rows, hread, hrows⟩, -⟩ := hist.rangeReadExact hlo hhi fun k hin => ⟨hnl k hin, hno k hin⟩
        refine ⟨fun rows' hread' => ?_, fun _ => ⟨rows, hread⟩⟩
        obtain rfl : rows = rows' := Except.ok.inj (hread.symm.trans hread')
        exact ⟨hrows, hsingle⟩

end

/-- **Range reads at an earlier revision.**  After every run, at every revision above the compacted one and up to the
current one: the range read and the single reads return exactly what was live just when no key of the range is lost,
reborn or missed; and the range read is exact where it succeeds, and succeeds where the single reads do, just when a
key is lost, so that a single read fails too, or none is reborn or missed. -/
theorem range_read_at_revision (size : CommitRecord → ℕ) (mode : RevisionMode) (es : List KvEntry)
    (ho : Along (kvStep size mode) (InLogOrder mode) Store.empty es) (T : ℕ)
    (hlo : (exec (kvStep size mode) Store.empty es).compactedRevision < T)
    (hhi : T ≤ (exec (kvStep size mode) Store.empty es).currentRevision mode) (start stop : Bytes) :
    let s := exec (kvStep size mode) Store.empty es
    let live := (stateAt size mode T Store.empty es).get
    (RangeReadExact s start stop T live ↔
        ∀ k, inRange start stop k = true → ¬ Lost s T k ∧ ¬ Reborn s T k ∧ ¬ Missed s stop T k) ∧
      (RangeReadSound s start stop T live ↔ (∃ k, inRange start stop k = true ∧ Lost s T k) ∨
          ∀ k, inRange start stop k = true → ¬ Reborn s T k ∧ ¬ Missed s stop T k) := by
  intro s live
  have h : Hist mode s _ := hist_exec ho
  exact ⟨h.rangeReadExact_iff hlo hhi, h.rangeReadSound_iff hlo hhi⟩

def rebornRun : List KvEntry :=
  [⟨⟨1, 1, 1⟩, .put [1] [10] none⟩, ⟨⟨1, 1, 2⟩, .delete [1]⟩, ⟨⟨1, 1, 3⟩, .put [1] [11] none⟩]

/-- At revision `2` the single read of the key succeeds, as nothing else is in the range, and the range read fails. -/
theorem range_read_reborn_fails :
    let s := exec (kvStep (fun _ => 0) .logIndex) Store.empty rebornRun
    Along (kvStep (fun _ => 0) .logIndex) (InLogOrder .logIndex) Store.empty rebornRun ∧
      s.compactedRevision < 2 ∧ 2 ≤ s.currentRevision .logIndex ∧ inRange [1] [1, 0] [1] = true ∧
      s.getAtRevision [1] 2 = .ok none ∧
      (stateAt (fun _ => 0) .logIndex 2 Store.empty rebornRun).get [1] = none ∧
      s.rangeAtRevisionWithMetadata [1] [1, 0] 0 2 = .error (.rangeHistoryUnavailable 2 1 [1]) := by
  decide +kernel

/-- A run with a batch of decisions and a compaction, read at a revision between two decisions. -/
def decidedRun : List KvEntry :=
  [⟨⟨1, 1, 1⟩, .putV2 [1] [1] none 5⟩,
    ⟨⟨1, 1, 2⟩, .decisions [.plain ⟨10, [.put [1] [2] none]⟩, .plain ⟨20, [.put [2] [9] none]⟩] 100⟩,
    ⟨⟨1, 1, 3⟩, .compact 8⟩]

theorem range_read_decided :
    let s := exec (kvStep (fun _ => 0) .commitTs) Store.empty decidedRun
    let live := (stateAt (fun _ => 0) .commitTs 15 Store.empty decidedRun).get
    live [1] = some [2] ∧ live [2] = none ∧ (RangeReadExact s [1] [3] 15 live ↔
        ∀ k, inRange [1] [3] k = true → ¬ Lost s 15 k ∧ ¬ Reborn s 15 k ∧ ¬ Missed s [3] 15 k) := by
  refine ⟨by decide +kernel, by decide +kernel, ?_⟩
  exact (range_read_at_revision (fun _ => 0) .commitTs decidedRun (by decide +kernel) 15 (by decide +kernel)
    (by decide +kernel) [1] [3]).1

/-- **Metadata at an earlier revision.**  After every run of v2 writes and compactions, a row that the range read
returns at a revision has the version, the creation and the modification that its key had there. -/
theorem range_read_versions (size : CommitRecord → ℕ) (es : List KvEntry)
    (ho : Along (kvStep size .commitTs) (InLogOrder .commitTs) Store.empty es) (start stop : Bytes) (limit T : ℕ)
    (rows : List (Bytes × Bytes × KvMetadata))
    (hread : (exec (kvStep size .commitTs) Store.empty es).rangeAtRevisionWithMetadata start stop limit T = .ok rows) :
    ∀ row ∈ rows, ∃ m, (stateAt size .commitTs T Store.empty es).kvMeta.get row.1 = some m ∧
      row.2.2.version = m.version ∧ row.2.2.createRevision = m.createRevision ∧
        row.2.2.modRevision = m.modRevision := by
  intro row hrow
  set s := exec (kvStep size .commitTs) Store.empty es
  -- time may pass up to the revision: no read looks at the current one
  set s' : Store := { s with currentRevisionRow := some (max (s.currentRevision .commitTs) T) }
  have h : Hist .commitTs s' _ := (hist_exec ho).tick rfl rfl rfl rfl (le_max_left _ _) rfl rfl
  have hread' : s'.rangeAtRevisionWithMetadata start stop limit T = .ok rows := by
    simp only [rangeAtRevisionWithMetadata, Store.historicalRows_congr (show s'.kvMeta = s.kvMeta from rfl)]
    exact hread
  obtain ⟨m, hm, hsame⟩ := h.versionsAt (le_max_right _ _) hread' hrow
  have hpast : extendTo .commitTs (fun T => (stateAt size .commitTs T Store.empty es).view) s s' T row.1 =
      (stateAt size .commitTs T Store.empty es).view row.1 := by
    by_cases hT : T < s.currentRevision .commitTs
    · exact if_pos hT
    · rw [(stateAt_end (hist_empty .commitTs) ho).2 T (not_lt.1 hT)]
      exact (if_neg hT).trans (ite_self _)
  rw [hpast] at hm
  obtain ⟨m₀, hm₀, rfl⟩ := Option.map_eq_some_iff.1 hm
  exact ⟨m₀, hm₀, hsame⟩

/-- A key is deleted and put again, and its first write is compacted. -/
def recreatedRun : List KvEntry :=
  [⟨⟨1, 1, 1⟩, .putV2 [1] [1] none 5⟩, ⟨⟨1, 1, 2⟩, .deleteV2 [1] 7⟩,
    ⟨⟨1, 1, 3⟩, .decisions [.plain ⟨10, [.put [1] [2] none]⟩, .plain ⟨20, [.put [1] [3] none]⟩] 100⟩,
    ⟨⟨1, 1, 4⟩, .deleteV2 [1] 30⟩, ⟨⟨1, 1, 5⟩, .putV2 [1] [4] none 40⟩, ⟨⟨1, 1, 6⟩, .compact 8⟩]

theorem range_read_versions_recreated :
    (exec (kvStep (fun _ => 0) .commitTs) Store.empty recreatedRun).rangeAtRevisionWithMetadata [] [] 0 20 =
        .ok [([1], [3], ⟨4, 5, 20, 0, false⟩)] ∧
      ∃ m, (stateAt (fun _ => 0) .commitTs 20 Store.empty recreatedRun).kvMeta.get [1] = some m ∧
        4 = m.version ∧ 5 = m.createRevision ∧ 20 = m.modRevision := by
  have hread : (exec (kvStep (fun _ => 0) .commitTs) Store.empty recreatedRun).rangeAtRevisionWithMetadata [] [] 0 20 =
      .ok [([1], [3], ⟨4, 5, 20, 0, false⟩)] := by decide +kernel
  exact ⟨hread, range_read_versions (fun _ => 0) recreatedRun (by decide +kernel) [] [] 0 20 _ hread
    ([1], [3], ⟨4, 5, 20, 0, false⟩) (by simp)⟩

end Coord.Storage
