import Coord.Storage.Sequencer

/-!
# The sequencer's decisions are serializable

The three write indexes keep one timestamp for each key and each range write, so they forget the decisions;
the invariant `IndexInv` says what they still know of them: every mutation of every decision is covered by a
row at or above its commit timestamp.
-/

namespace Coord.Storage

open Coord.Lib Coord.Raft Table List

/-! ### Scans -/

lemma foldl_isSome {α β : Type} {f : Option β → α → Option β} (hkeep : ∀ b a, b.isSome → (f b a).isSome)
    {l : List α} {a : α} (ha : a ∈ l) (hit : ∀ b, (f b a).isSome) (b : Option β) : (l.foldl f b).isSome := by
  have hsome : ∀ (l : List α) (b : Option β), b.isSome → (l.foldl f b).isSome := by
    intro l
    induction l with
    | nil => exact fun b hb => hb
    | cons x l ih => exact fun b hb => ih _ (hkeep b x hb)
  induction l generalizing b with
  | nil => cases ha
  | cons x l ih =>
    rcases mem_cons.1 ha with rfl | ha
    · exact hsome l _ (hit b)
    · exact ih ha _

lemma bestIndexHit_isSome (b : Option SequencerIndexHit) (h : SequencerIndexHit) :
    (bestIndexHit b (some h)).isSome := by
  cases b with
  | none => rfl
  | some l => simp only [bestIndexHit]; split <;> rfl

variable {maxEntries startTs : ℕ} {st : SequencerRows} {k : Bytes} {w : SequencerIntervalWrite}

lemma takeLimit_eq {α : Type} {rows : List α}
    (h : ¬ (0 < maxEntries ∧ maxEntries < (takeLimit (fetchLimit maxEntries) rows).length)) :
    takeLimit (fetchLimit maxEntries) rows = rows := by
  unfold takeLimit fetchLimit at *
  by_cases h0 : maxEntries = 0
  · simp [h0]
  · rw [if_neg h0, if_neg (Nat.succ_ne_zero _)] at h ⊢
    rw [length_take] at h
    exact take_of_length_le (by omega)

variable {entries : List SequencerIntervalWrite}

lemma mem_of_intervalRows (h : sequencerIntervalRowsIn st maxEntries = some entries)
    (hw : st.intervalIndex.get k = some w) : w ∈ entries := by
  unfold sequencerIntervalRowsIn at h
  simp only at h
  split at h
  · cases h
  · next hn =>
    rw [takeLimit_eq hn] at h
    cases h
    exact mem_map.2 ⟨(k, w), mem_rows.2 hw, rfl⟩

lemma bestInterval_isSome (hw : w ∈ entries) (hts : startTs < w.commitTs) {p : SequencerIntervalWrite → Bool}
    (hp : p w = true) : (bestInterval entries startTs p).isSome := by
  unfold bestInterval
  refine foldl_isSome ?_ hw ?_ none
  · intro b a hb
    split
    · exact bestIndexHit_isSome _ _
    · exact hb
  · intro b
    rw [if_pos ⟨hts, hp⟩]
    exact bestIndexHit_isSome _ _

lemma laterRows_isSome {rows : List (Bytes × ℕ)} {r : Bytes × ℕ} (hr : r ∈ rows)
    (hts : startTs < r.2) : (rows.foldl (laterRow startTs) none).isSome := by
  refine foldl_isSome ?_ hr ?_ none
  · intro b a hb
    unfold laterRow
    split
    · exact hb
    · split
      · rfl
      · split <;> rfl
  · intro b
    unfold laterRow
    rw [if_neg (not_le.2 hts)]
    split
    · rfl
    · split <;> rfl

lemma intervalRange_ne_clear (hw : st.intervalIndex.get k = some w) {start stop : Bytes}
    (hts : startTs < w.commitTs) (h1 : stop = [] ∨ w.start < stop) (h2 : w.stop = [] ∨ start < w.stop) :
    sequencerIntervalRangeIn st start stop startTs maxEntries ≠ .clear := by
  unfold sequencerIntervalRangeIn
  cases hr : sequencerIntervalRowsIn st maxEntries with
  | none => simp
  | some entries =>
    have hsome := bestInterval_isSome (mem_of_intervalRows hr hw) hts
      (p := fun e => decide ((stop = [] ∨ e.start < stop) ∧ (e.stop = [] ∨ start < e.stop)))
      (decide_eq_true ⟨h1, h2⟩)
    obtain ⟨hit, hhit⟩ := Option.isSome_iff_exists.1 hsome
    simp only [hhit]
    simp

lemma rangeQuery_ne_clear {r : SequencerReadRange} (hr : r.Reads k)
    (h : (∃ ts, st.rangeIndex.get k = some ts ∧ startTs < ts) ∨
      ∃ j w, st.intervalIndex.get j = some w ∧ startTs < w.commitTs ∧ w.start ≤ k ∧ (w.stop = [] ∨ k < w.stop)) :
    sequencerRangeQueryIn st r.start r.stop startTs maxEntries ≠ .clear := by
  obtain ⟨hs, he⟩ := hr
  have hne : ¬ (r.stop ≠ [] ∧ r.stop ≤ r.start) := by
    rintro ⟨h1, h2⟩
    rcases he with he | he
    · exact h1 he
    · exact absurd (hs.trans_lt he) (not_lt.2 h2)
  unfold sequencerRangeQueryIn
  rw [if_neg hne]
  simp only
  split
  · simp
  next hlim =>
  rw [takeLimit_eq hlim]
  cases hb : (rangeIndexRows st r.start r.stop).foldl (laterRow startTs) none with
  | some hit => simp
  | none =>
    rcases h with ⟨ts, hk, hts⟩ | ⟨j, w, hw, hts, h1, h2⟩
    · -- the row of `k` itself is scanned, so the scan found something
      have hmem : (k, ts) ∈ rangeIndexRows st r.start r.stop :=
        List.mem_filter.2 ⟨mem_rows.2 hk, decide_eq_true ⟨hs, he⟩⟩
      have hsome := laterRows_isSome hmem hts
      rw [hb] at hsome
      cases hsome
    · refine intervalRange_ne_clear hw hts ?_ ?_
      · exact he.imp id fun he => h1.trans_lt he
      · exact h2.imp id fun h2 => hs.trans_lt h2

/-! ### What the indexes know of the decisions -/

variable {m : SequencerMutation}

section

variable (sequencerHash : HashDomain → List Bytes → Bytes)

/-- The indexes cover a mutation committed at `c`: its key, or its interval, has rows at or above `c`. -/
def Covered (st : SequencerRows) (c : ℕ) (m : SequencerMutation) : Prop :=
  (∀ k, m.pointKey = some k → (∃ ts, st.keyIndex.get (sequencerHash .key [k]) = some ts ∧ c ≤ ts) ∧
      ∃ ts, st.rangeIndex.get k = some ts ∧ c ≤ ts) ∧
  ∀ start stop, m = .deleteRange start stop →
    ∃ w, st.intervalIndex.get (sequencerHash .interval [start, stop]) = some w ∧
      w.start = start ∧ w.stop = stop ∧ c ≤ w.commitTs

/-- Every interval row stands under the digest of its own interval. -/
def DigestOk (st : SequencerRows) : Prop :=
  ∀ k w, st.intervalIndex.get k = some w → k = sequencerHash .interval [w.start, w.stop]

structure IndexInv (st : SequencerRows) : Prop where
  commitTs_le : ∀ c d, st.decisions.get c = some d → d.commitTs = c ∧ c ≤ st.last
  covered : ∀ c d, st.decisions.get c = some d → ∀ m ∈ d.mutations, Covered sequencerHash st c m
  digestOk : DigestOk sequencerHash st

lemma get_raise_of_some {t : Table Bytes ℕ} {j : Bytes} {a : ℕ} (h : t.get j = some a)
    (k : Bytes) (ts : ℕ) : ∃ b, (raise t k ts).get j = some b ∧ a ≤ b := by
  unfold raise
  split
  · next hlt =>
    by_cases hj : j = k
    · subst hj
      rw [h] at hlt
      exact ⟨ts, get_insert_self _ _ _, le_of_lt hlt⟩
    · exact ⟨a, by rw [get_insert_ne _ _ hj, h], le_rfl⟩
  · exact ⟨a, h, le_rfl⟩

variable {ts : ℕ} {st : SequencerRows}

lemma get_raise_self (hts : 0 < ts) (t : Table Bytes ℕ) (k : Bytes) :
    ∃ b, (raise t k ts).get k = some b ∧ ts ≤ b := by
  unfold raise
  split
  · exact ⟨ts, get_insert_self _ _ _, le_rfl⟩
  · next hlt =>
    cases hk : t.get k with
    | none => rw [hk] at hlt; exact absurd hts hlt
    | some b => rw [hk] at hlt; exact ⟨b, rfl, not_lt.1 hlt⟩

lemma indexMutation_point {k : Bytes} (hm : m.pointKey = some k) (ts : ℕ)
    (st : SequencerRows) : indexMutation sequencerHash ts st m =
      { st with keyIndex := raise st.keyIndex (sequencerHash .key [k]) ts
                rangeIndex := raise st.rangeIndex k ts } := by
  cases m with
  | put key v l => cases hm; rfl
  | delete key => cases hm; rfl
  | deleteRange a b => cases hm

variable {hash : HashDomain → List Bytes → Bytes}

lemma digestOk_indexMutation (h : DigestOk hash st) (ts : ℕ)
    (m : SequencerMutation) : DigestOk hash (indexMutation hash ts st m) := by
  cases m with
  | put key v l => exact h
  | delete key => exact h
  | deleteRange start stop =>
    simp only [indexMutation]
    split
    · intro k w hw
      rcases get_insert_cases hw with ⟨hk, rfl⟩ | ⟨-, hw⟩
      · exact hk
      · exact h k w hw
    · exact h

section

variable (hinj : Function.Injective (hash .interval))
include hinj

/-- What is covered stays covered.  Two intervals share a row only if they are the same interval. -/
theorem covered_indexMutation {c : ℕ} (h : Covered hash st c m) (ts : ℕ)
    (m' : SequencerMutation) : Covered hash (indexMutation hash ts st m') c m := by
  rcases m'.point_or_range with ⟨k', hk', -⟩ | ⟨a, b, rfl⟩
  · rw [indexMutation_point hash hk']
    refine ⟨fun k hk => ?_, h.2⟩
    obtain ⟨⟨a, ha, hca⟩, b, hb, hcb⟩ := h.1 k hk
    obtain ⟨a', ha', haa'⟩ := get_raise_of_some ha (hash .key [k']) ts
    obtain ⟨b', hb', hbb'⟩ := get_raise_of_some hb k' ts
    exact ⟨⟨a', ha', hca.trans haa'⟩, b', hb', hcb.trans hbb'⟩
  · simp only [indexMutation]
    split
    · next hlt =>
      refine ⟨h.1, fun start stop hm => ?_⟩
      obtain ⟨w, hw, hs, he, hc⟩ := h.2 start stop hm
      by_cases heq : hash .interval [start, stop] = hash .interval [a, b]
      · have hab := hinj heq
        simp only [List.cons.injEq, and_true] at hab
        rw [heq] at hw
        rw [hw] at hlt
        refine ⟨⟨a, b, ts⟩, ?_, hab.1.symm, hab.2.symm, hc.trans (le_of_lt hlt)⟩
        rw [heq]
        exact get_insert_self _ _ _
      · exact ⟨w, by rw [get_insert_ne _ _ heq, hw], hs, he, hc⟩
    · exact h

theorem indexMutation_covered (hts : 0 < ts) (hd : DigestOk hash st) (m : SequencerMutation) :
    Covered hash (indexMutation hash ts st m) ts m := by
  rcases m.point_or_range with ⟨k, hk, -⟩ | ⟨a, b, rfl⟩
  · rw [indexMutation_point hash hk]
    refine ⟨fun k' hk' => ?_, fun a b hm => ?_⟩
    · rw [hk] at hk'
      cases hk'
      exact ⟨get_raise_self hts _ _, get_raise_self hts _ _⟩
    · subst hm
      cases hk
  · refine ⟨fun k' hk' => (by cases hk'), fun start stop hm => ?_⟩
    cases hm
    simp only [indexMutation]
    split
    · exact ⟨⟨a, b, ts⟩, get_insert_self _ _ _, rfl, rfl, le_rfl⟩
    next hlt =>
    cases hw : st.intervalIndex.get (hash .interval [a, b]) with
    | none => rw [hw] at hlt; exact absurd hts hlt
    | some w =>
      rw [hw] at hlt
      have hab := hinj (hd _ w hw)
      simp only [List.cons.injEq, and_true] at hab
      exact ⟨w, rfl, hab.1.symm, hab.2.symm, not_lt.1 hlt⟩

lemma indexWrites_covered (hts : 0 < ts) (ms : List SequencerMutation) (hd : DigestOk hash st) :
    DigestOk hash (ms.foldl (indexMutation hash ts) st) ∧ (∀ c m, Covered hash st c m →
        Covered hash (ms.foldl (indexMutation hash ts) st) c m) ∧
      ∀ m ∈ ms, Covered hash (ms.foldl (indexMutation hash ts) st) ts m := by
  induction ms generalizing st with
  | nil => exact ⟨hd, fun _ _ h => h, by simp⟩
  | cons m ms ih =>
    obtain ⟨h1, h2, h3⟩ := ih (digestOk_indexMutation hd ts m)
    refine ⟨h1, fun c m' h => h2 c m' (covered_indexMutation hinj h ts m), fun m' hm' => ?_⟩
    rcases mem_cons.1 hm' with rfl | hm'
    · exact h2 ts m' (indexMutation_covered hinj hts hd m')
    · exact h3 m' hm'

end

lemma indexWrites_frame (ts : ℕ) (ms : List SequencerMutation) (st : SequencerRows) :
    (ms.foldl (indexMutation hash ts) st).decisions = st.decisions ∧
      (ms.foldl (indexMutation hash ts) st).txnIndex = st.txnIndex ∧
      (ms.foldl (indexMutation hash ts) st).requestIndex = st.requestIndex := by
  induction ms generalizing st with
  | nil => exact ⟨rfl, rfl, rfl⟩
  | cons m ms ih =>
    obtain ⟨h1, h2, h3⟩ := ih (indexMutation hash ts st m)
    rw [foldl_cons, h1, h2, h3]
    cases m with
    | put key v l => exact ⟨rfl, rfl, rfl⟩
    | delete key => exact ⟨rfl, rfl, rfl⟩
    | deleteRange start stop =>
      simp only [indexMutation]
      split <;> exact ⟨rfl, rfl, rfl⟩

end

/-! ### One candidate -/

section

variable {hash : HashDomain → List Bytes → Bytes}

variable {st : SequencerRows} {txn : SequencerTxn} {ranges : List SequencerReadRange}
  {limits : Option SequencerValidationLimits} {ts : ℕ}

theorem outcome_committed (h : sequencerOutcome hash st txn ranges limits = .committed ts) :
    ts = txn.commitTs ∧ txn.txnId ≠ [] ∧ alreadyDecided hash st txn = none ∧
      txn.startTs < txn.commitTs ∧ st.last < txn.commitTs ∧
      ∃ maxRange entries, (txn.readSet ≠ [] → sequencerIntervalRowsIn st maxRange = some entries) ∧
        pointConflict hash st entries txn.startTs txn.readSet = none ∧
        rangeConflict st txn.startTs maxRange ranges = .clear := by
  unfold sequencerOutcome at h
  split at h
  · cases h
  next hid =>
  split at h
  · cases h
  next hdec =>
  split at h
  · cases h
  next hstart =>
  split at h
  · cases h
  next hlast =>
  split at h
  · cases h
  unfold validateReads at h
  split at h
  · cases h
  next entries hentries =>
  split at h
  · cases h
  next hpoint =>
  split at h
  · cases h
  · cases h
  next hrange =>
  cases h
  refine ⟨rfl, hid, hdec, not_le.1 hstart, not_le.1 hlast, _, entries, fun hne => ?_, hpoint, hrange⟩
  rwa [if_neg hne] at hentries

lemma pointHit_of_conflict_none {startTs : ℕ} {readSet : List Bytes}
    (h : pointConflict hash st entries startTs readSet = none) {k : Bytes} (hk : k ∈ readSet) :
    pointHit hash st entries startTs k = none := by
  unfold pointConflict at h
  rw [findSome?_eq_none_iff] at h
  simpa using h k hk

lemma rangeQuery_of_conflict_clear {startTs : ℕ} {maxRange : ℕ}
    (h : rangeConflict st startTs maxRange ranges = .clear) :
    ∀ r ∈ ranges, sequencerRangeQueryIn st r.start r.stop startTs maxRange = .clear := by
  induction ranges with
  | nil => simp
  | cons r ranges ih =>
    unfold rangeConflict at h
    split at h
    · next hr =>
      intro r' hr'
      rcases mem_cons.1 hr' with rfl | hr'
      · exact hr
      · exact ih h r' hr'
    · next hne => exact absurd h hne

/-- **A committed candidate read nothing that was written after its snapshot.**  No decision after `startTs`
wrote a key of its read set or of its read predicates. -/
theorem reads_unwritten (hinv : IndexInv hash st)
    (h : sequencerOutcome hash st txn ranges limits = .committed ts) {c : ℕ}
    {d : SequencerDecision} (hd : st.decisions.get c = some d) (hc : txn.startTs < c)
    (hm : m ∈ d.mutations) (hstop : m.Bounded) {k : Bytes} (hw : m.Writes k) : k ∉ txn.readSet ∧ ∀ r ∈ ranges,
      ¬ r.Reads k := by
  obtain ⟨-, -, -, -, -, maxRange, entries, hentries, hpoint, hrange⟩ := outcome_committed h
  have hcov := hinv.covered c d hd m hm
  constructor
  · intro hk
    have hnone := pointHit_of_conflict_none hpoint hk
    unfold pointHit at hnone
    split at hnone
    · cases hnone
    next hfilter =>
    rw [Option.map_eq_none_iff] at hnone
    rcases m.point_or_range with ⟨k', hpk, hiff⟩ | ⟨a, b, rfl⟩
    · -- the digest row of the written key is above the snapshot
      obtain rfl := (hiff k).1 hw
      obtain ⟨⟨a, ha, hca⟩, -⟩ := hcov.1 k hpk
      rw [ha] at hfilter
      simp only [Option.filter_some, decide_eq_true_eq] at hfilter
      rw [if_pos (hc.trans_le hca)] at hfilter
      cases hfilter
    · obtain ⟨w, hrow, rfl, rfl, hcw⟩ := hcov.2 a b rfl
      have hlt : k < w.stop := hw.2.resolve_left hstop
      have hmem := mem_of_intervalRows (hentries (ne_nil_of_mem hk)) hrow
      have hsome := bestInterval_isSome hmem (hc.trans_le hcw)
        (p := fun e => decide (e.start ≤ k ∧ k < e.stop)) (decide_eq_true ⟨hw.1, hlt⟩)
      unfold sequencerIntervalPointHit at hnone
      rw [hnone] at hsome
      cases hsome
  · intro r hr hk
    refine absurd (rangeQuery_of_conflict_clear hrange r hr) (rangeQuery_ne_clear hk ?_)
    rcases m.point_or_range with ⟨k', hpk, hiff⟩ | ⟨a, b, rfl⟩
    · obtain rfl := (hiff k).1 hw
      obtain ⟨-, a, ha, hca⟩ := hcov.1 k hpk
      exact Or.inl ⟨a, ha, hc.trans_le hca⟩
    · obtain ⟨w, hrow, rfl, rfl, hcw⟩ := hcov.2 a b rfl
      exact Or.inr ⟨_, w, hrow, hc.trans_le hcw, hw⟩

lemma validateStep_cases (st : SequencerRows) (c : Candidate) :
    (sequencerOutcome hash st c.txn c.readRanges c.limits = .committed c.txn.commitTs ∧
      validateStep hash st c = (recordDecision hash st c.txn, .committed c.txn.commitTs)) ∨
    ∃ o, o.committedTs = none ∧ validateStep hash st c = (st, o) := by
  unfold validateStep sequencerValidateInTx
  cases h : sequencerOutcome hash st c.txn c.readRanges c.limits with
  | committed ts =>
    obtain ⟨rfl, -⟩ := outcome_committed h
    exact Or.inl ⟨rfl, rfl⟩
  | conflict a b d => exact Or.inr ⟨_, rfl, rfl⟩
  | duplicate a => exact Or.inr ⟨_, rfl, rfl⟩
  | outOfOrder a b => exact Or.inr ⟨_, rfl, rfl⟩
  | invalid a b => exact Or.inr ⟨_, rfl, rfl⟩

lemma recordDecision_decisions (st : SequencerRows) (txn : SequencerTxn) :
    (recordDecision hash st txn).decisions = st.decisions.insert txn.commitTs
      ⟨txn.txnId, txn.requestId, txn.startTs, txn.commitTs, txn.mutations⟩ :=
  (indexWrites_frame _ _ _).1

lemma recordDecision_last (st : SequencerRows) (txn : SequencerTxn) :
    (recordDecision hash st txn).last = txn.commitTs := rfl

lemma indexInv_recordDecision (hinj : Function.Injective (hash .interval))
    (hinv : IndexInv hash st) (hlast : st.last < txn.commitTs) :
    IndexInv hash (recordDecision hash st txn) := by
  -- the three indexes of the new rows are those of the index writes over the old ones
  set st₁ := { st with
    decisions := st.decisions.insert txn.commitTs
      ⟨txn.txnId, txn.requestId, txn.startTs, txn.commitTs, txn.mutations⟩
    txnIndex := st.txnIndex.insert (hash .txn [txn.txnId]) txn.commitTs
    requestIndex := if txn.requestId = [] then st.requestIndex
      else st.requestIndex.insert (hash .req [txn.txnId, txn.requestId]) txn.commitTs }
  have hd₁ : DigestOk hash st₁ := hinv.digestOk
  obtain ⟨h1, h2, h3⟩ := indexWrites_covered hinj (Nat.zero_lt_of_lt hlast) txn.mutations hd₁
  refine ⟨fun c d hd => ?_, fun c d hd m hm => ?_, h1⟩
  · rw [recordDecision_decisions] at hd
    rw [recordDecision_last]
    rcases get_insert_cases hd with ⟨hc, rfl⟩ | ⟨-, hd⟩
    · exact ⟨hc.symm, hc.le⟩
    · exact ⟨(hinv.commitTs_le c d hd).1, ((hinv.commitTs_le c d hd).2.trans_lt hlast).le⟩
  · rw [recordDecision_decisions] at hd
    rcases get_insert_cases hd with ⟨rfl, rfl⟩ | ⟨-, hd⟩
    · exact h3 m hm
    · exact h2 c m (hinv.covered c d hd m hm)

theorem indexInv_step (hinj : Function.Injective (hash .interval)) (st : SequencerRows) (c : Candidate)
    (hinv : IndexInv hash st) : IndexInv hash (validateStep hash st c).1 := by
  rcases @validateStep_cases hash st c with ⟨hc, he⟩ | ⟨o, -, he⟩
  · rw [he]
    exact indexInv_recordDecision hinj hinv (outcome_committed hc).2.2.2.2.1
  · rw [he]
    exact hinv

lemma indexInv_empty : IndexInv hash .empty :=
  ⟨fun _ _ h => (by cases h), fun _ _ h => (by cases h), fun _ _ h => (by cases h)⟩

/-! ### The idempotency indexes -/

lemma validateStep_outcome (st : SequencerRows) (c : Candidate) :
    (validateStep hash st c).2 = sequencerOutcome hash st c.txn c.readRanges c.limits := by
  unfold validateStep sequencerValidateInTx
  split <;> simp_all

lemma outcome_duplicate (h : sequencerOutcome hash st txn ranges limits = .duplicate ts) :
    alreadyDecided hash st txn = some ts := by
  unfold sequencerOutcome at h
  cases hd : alreadyDecided hash st txn with
  | some existing =>
    simp only [hd] at h
    split at h
    · cases h
    · cases h; rfl
  | none =>
    simp only [hd] at h
    unfold validateReads at h
    repeat' split at h
    all_goals cases h

variable (sequencerHash : HashDomain → List Bytes → Bytes) in
/-- The idempotency indexes hold the decisions' transactions and requests, and nothing else. -/
structure TxnIndexInv (st : SequencerRows) : Prop where
  commitTs_le : ∀ c d, st.decisions.get c = some d → c ≤ st.last
  indexed : ∀ c d, st.decisions.get c = some d → st.txnIndex.get (sequencerHash .txn [d.txnId]) = some c
  txn : ∀ h c, st.txnIndex.get h = some c → ∃ d, st.decisions.get c = some d ∧ h = sequencerHash .txn [d.txnId]
  req : ∀ h c, st.requestIndex.get h = some c →
    ∃ d, st.decisions.get c = some d ∧ h = sequencerHash .req [d.txnId, d.requestId]

lemma txnIndexInv_empty : TxnIndexInv hash .empty :=
  ⟨fun _ _ h => (by cases h), fun _ _ h => (by cases h), fun _ _ h => (by cases h), fun _ _ h => (by cases h)⟩

section

variable (h : TxnIndexInv hash st)
include h

lemma TxnIndexInv.unique {c c' : ℕ}
    {d d' : SequencerDecision} (hd : st.decisions.get c = some d) (hd' : st.decisions.get c' = some d')
    (ht : d.txnId = d'.txnId) : c = c' ∧ d = d' := by
  have h1 := h.indexed c d hd
  rw [ht, h.indexed c' d' hd'] at h1
  cases h1
  rw [hd] at hd'
  cases hd'
  exact ⟨rfl, rfl⟩

lemma TxnIndexInv.decided
    (htxn : Function.Injective (hash .txn)) (hreq : Function.Injective (hash .req))
    (hd : alreadyDecided hash st txn = some ts) :
    ∃ d, st.decisions.get ts = some d ∧ d.txnId = txn.txnId := by
  unfold alreadyDecided at hd
  split at hd
  · next existing hx =>
    cases hd
    obtain ⟨d, hd, he⟩ := h.txn _ _ hx
    have := htxn he
    simp only [List.cons.injEq, and_true] at this
    exact ⟨d, hd, this.symm⟩
  · split at hd
    · cases hd
    obtain ⟨d, hd, he⟩ := h.req _ _ hd
    have := hreq he
    simp only [List.cons.injEq, and_true] at this
    exact ⟨d, hd, this.1.symm⟩

lemma txnIndexInv_recordDecision
    (hnew : alreadyDecided hash st txn = none) (hlast : st.last < txn.commitTs) :
    TxnIndexInv hash (recordDecision hash st txn) := by
  have hidx : (recordDecision hash st txn).txnIndex =
      st.txnIndex.insert (hash .txn [txn.txnId]) txn.commitTs := (indexWrites_frame _ _ _).2.1
  have hreq : (recordDecision hash st txn).requestIndex = if txn.requestId = [] then st.requestIndex
      else st.requestIndex.insert (hash .req [txn.txnId, txn.requestId]) txn.commitTs :=
    (indexWrites_frame _ _ _).2.2
  have hnone : st.txnIndex.get (hash .txn [txn.txnId]) = none := by
    unfold alreadyDecided at hnew
    split at hnew
    · cases hnew
    · assumption
  -- an old decision is read under the new rows as before
  have hold : ∀ c d, st.decisions.get c = some d → (recordDecision hash st txn).decisions.get c = some d := by
    intro c d hd
    have hlt := (h.commitTs_le c d hd).trans_lt hlast
    rw [recordDecision_decisions, get_insert_ne _ _ hlt.ne, hd]
  refine ⟨fun c d hd => ?_, fun c d hd => ?_, fun k c hk => ?_, fun k c hk => ?_⟩
  · rw [recordDecision_last]
    rw [recordDecision_decisions] at hd
    rcases get_insert_cases hd with ⟨hc, -⟩ | ⟨-, hd⟩
    · exact hc.le
    · exact ((h.commitTs_le c d hd).trans_lt hlast).le
  · rw [recordDecision_decisions] at hd
    rw [hidx, get_insert]
    rcases get_insert_cases hd with ⟨hc, rfl⟩ | ⟨-, hd⟩
    · simp [hc]
    have hi := h.indexed c d hd
    split
    · next he => rw [he, hnone] at hi; cases hi
    · exact hi
  · rw [hidx] at hk
    rcases get_insert_cases hk with ⟨he, rfl⟩ | ⟨-, hk⟩
    · exact ⟨_, by rw [recordDecision_decisions]; exact get_insert_self _ _ _, he⟩
    · obtain ⟨d, hd, he⟩ := h.txn k c hk
      exact ⟨d, hold c d hd, he⟩
  · rw [hreq] at hk
    have hstored : ∀ c, st.requestIndex.get k = some c → ∃ d, (recordDecision hash st txn).decisions.get c
        = some d ∧ k = hash .req [d.txnId, d.requestId] := fun c hc => by
      obtain ⟨d, hd, he⟩ := h.req k c hc
      exact ⟨d, hold c d hd, he⟩
    split at hk
    · exact hstored c hk
    · rcases get_insert_cases hk with ⟨he, rfl⟩ | ⟨-, hk⟩
      · exact ⟨_, by rw [recordDecision_decisions]; exact get_insert_self _ _ _, he⟩
      · exact hstored c hk

lemma txnIndexInv_step (c : Candidate) :
    TxnIndexInv hash (validateStep hash st c).1 := by
  rcases @validateStep_cases hash st c with ⟨hc, he⟩ | ⟨o, -, he⟩
  · rw [he]
    obtain ⟨-, -, hnew, -, hlast, -⟩ := outcome_committed hc
    exact txnIndexInv_recordDecision h hnew hlast
  · rw [he]
    exact h

end

end

/-! ### A log of batches -/

section

variable {sequencerHash hash : HashDomain → List Bytes → Bytes}

/-- The batch boundaries do not matter: a log of batches is the run of all its candidates. -/
lemma applySequencerOps_eq (st : SequencerRows) (ops : List SequencerOp) :
    (applySequencerOps hash st ops).1 =
        exec (validateStep hash) st (ops.flatMap candidates) ∧
      (applySequencerOps hash st ops).2.flatten =
        (trace (validateStep hash) st (ops.flatMap candidates)).map (·.out) := by
  induction ops generalizing st with
  | nil => exact ⟨rfl, rfl⟩
  | cons op ops ih =>
    obtain ⟨h1, h2⟩ := ih (applySequencerOp hash st op).1
    simp only [applySequencerOps] at h1 h2 ⊢
    rw [flatMap_cons, exec_append, trace_append, map_append]
    simp only [exec_cons, trace, map_cons, flatten_cons, h1, h2]
    exact ⟨rfl, rfl⟩

/-- The decision of a committed event stays in the log, at or below the watermark. -/
def Decided (e : Event SequencerRows Candidate SequencerOutcome) (st : SequencerRows) : Prop :=
  ∀ c, e.out = .committed c → c ≤ st.last ∧ ∃ d, st.decisions.get c = some d ∧ d.mutations = e.act.txn.mutations

lemma decided_step {st : SequencerRows} {e : Event SequencerRows Candidate SequencerOutcome}
    (h : Decided e st) (c : Candidate) : Decided e (validateStep hash st c).1 := by
  rcases @validateStep_cases hash st c with ⟨hc, he⟩ | ⟨o, -, he⟩
  · rw [he]
    obtain ⟨-, -, -, -, hlast, -⟩ := outcome_committed hc
    intro c' hc'
    obtain ⟨hle, d, hd, hm⟩ := h c' hc'
    have hlt := hle.trans_lt hlast
    refine ⟨by rw [recordDecision_last]; exact hlt.le, d, ?_, hm⟩
    rw [recordDecision_decisions, get_insert_ne _ _ hlt.ne, hd]
  · rw [he]
    exact h

lemma decided_self (st : SequencerRows) (c : Candidate) :
    Decided ⟨st, c, (validateStep hash st c).2, (validateStep hash st c).1⟩
      (validateStep hash st c).1 := by
  rcases @validateStep_cases hash st c with ⟨-, he⟩ | ⟨o, ho, he⟩
  · rw [he]
    rintro c' hc'
    cases hc'
    refine ⟨le_rfl, ⟨c.txn.txnId, c.txn.requestId, c.txn.startTs, c.txn.commitTs, c.txn.mutations⟩, ?_, rfl⟩
    rw [recordDecision_decisions]
    exact get_insert_self _ _ _
  · rw [he]
    rintro c' rfl
    cases ho

lemma last_lt_of_committed {st : SequencerRows} {c : Candidate} {ts : ℕ}
    (h : (validateStep hash st c).2 = .committed ts) : st.last < ts ∧
      sequencerOutcome hash st c.txn c.readRanges c.limits = .committed ts := by
  rcases @validateStep_cases hash st c with ⟨hc, he⟩ | ⟨o, ho, he⟩
  · rw [he] at h
    cases h
    exact ⟨(outcome_committed hc).2.2.2.2.1, hc⟩
  · rw [he] at h
    simp only at h
    subst h
    cases ho

/-- **Serializability of the sequencer.**  Over every log of batches: a transaction committed at `c` with
snapshot `startTs` read no key that another transaction committed in between wrote, deleted or range-deleted;
the commit timestamps increase in log order; and an outcome other than `committed` leaves the decisions and the
three indexes as they were. -/
theorem sequencer_serializable (hinj : Function.Injective (sequencerHash .interval)) (ops : List SequencerOp)
    (hstop : ∀ op ∈ ops, ∀ c ∈ candidates op, ∀ m ∈ c.txn.mutations, m.Bounded) :
    let run := applySequencerOps sequencerHash .empty ops
    let tr := trace (validateStep sequencerHash) .empty (ops.flatMap candidates)
    (run.1 = exec (validateStep sequencerHash) .empty (ops.flatMap candidates) ∧ run.2.flatten = tr.map (·.out)) ∧
    (∀ e ∈ tr, ∀ e' ∈ tr, ∀ c c', e.out = .committed c → e'.out = .committed c' →
      e.act.txn.startTs < c' → c' < c → ∀ m ∈ e'.act.txn.mutations, ∀ k, m.Writes k →
        k ∉ e.act.txn.readSet ∧ ∀ r ∈ e.act.readRanges, ¬ r.Reads k) ∧
    (tr.filterMap (·.out.committedTs)).Pairwise (· < ·) ∧
    ∀ e ∈ tr, e.out.committedTs = none → e.after.decisions = e.before.decisions ∧
      e.after.keyIndex = e.before.keyIndex ∧ e.after.rangeIndex = e.before.rangeIndex ∧
      e.after.intervalIndex = e.before.intervalIndex := by
  intro run tr
  have hstep : ∀ st, ∀ c ∈ ops.flatMap candidates, IndexInv sequencerHash st →
      IndexInv sequencerHash (validateStep sequencerHash st c).1 := fun st c _ h => indexInv_step hinj st c h
  have hinv := trace_inv (IndexInv sequencerHash) indexInv_empty hstep
  have hpair : tr.Pairwise (fun e e' => Decided e e'.before) :=
    trace_pairwise (IndexInv sequencerHash) Decided indexInv_empty hstep
      (fun st c _ _ => decided_self st c) (fun e st c _ _ h => decided_step h c)
  have hpair' := pairwise_iff_getElem.1 hpair
  have hout : ∀ e ∈ tr, (validateStep sequencerHash e.before e.act) = (e.after, e.out) := fun e he =>
    (step_of_mem_trace _ he).1
  -- an event committed later in the log has the larger timestamp
  have hlt : ∀ e ∈ tr, ∀ e' ∈ tr, Decided e e'.before → ∀ c c', e.out = .committed c →
      e'.out = .committed c' → c < c' := by
    intro e _ e' he' hd c c' hc hc'
    have h := last_lt_of_committed (by rw [hout e' he']; exact hc')
    exact (hd c hc).1.trans_lt h.1
  refine ⟨applySequencerOps_eq _ ops, ?_, ?_, ?_⟩
  · intro e he e' he' c c' hc hc' hs hcc m hm k hw
    obtain ⟨i, hi, rfl⟩ := getElem_of_mem he
    obtain ⟨j, hj, rfl⟩ := getElem_of_mem he'
    rcases lt_trichotomy i j with hij | rfl | hij
    · exact absurd (hlt _ he _ he' (hpair' i j hi hj hij) c c' hc hc') (not_lt.2 hcc.le)
    · rw [hc] at hc'
      cases hc'
      exact absurd hcc (lt_irrefl _)
    · obtain ⟨-, d, hd, hdm⟩ := hpair' j i hj hi hij c' hc'
      have hcom := (last_lt_of_committed (by rw [hout _ he]; exact hc)).2
      obtain ⟨op, hop, hact⟩ := mem_flatMap.1 (step_of_mem_trace _ he').2
      exact reads_unwritten (hinv _ he).1 hcom hd hs (hdm ▸ hm) (hstop op hop _ hact m hm) hw
  · rw [pairwise_filterMap]
    refine List.Pairwise.imp_of_mem ?_ hpair
    intro e e' he he' hd c hc c' hc'
    exact hlt e he e' he' hd c c' (SequencerOutcome.committedTs_eq_some.1 hc)
      (SequencerOutcome.committedTs_eq_some.1 hc')
  · intro e he hnone
    have hstep' := hout e he
    rcases @validateStep_cases sequencerHash e.before e.act with ⟨-, hs⟩ | ⟨o, -, hs⟩
    · rw [hs, Prod.mk.injEq] at hstep'
      rw [← hstep'.2] at hnone
      cases hnone
    · rw [hs, Prod.mk.injEq] at hstep'
      rw [← hstep'.1]
      exact ⟨rfl, rfl, rfl, rfl⟩

/-! ### The hypotheses can be met -/

/-- A part before the digest of the rest: every byte is marked by `1`, and `0` ends the part. -/
def markPart : Bytes → Bytes → Bytes
  | [], rest => 0 :: rest
  | b :: p, rest => 1 :: b :: markPart p rest

def markedParts : List Bytes → Bytes
  | [] => []
  | p :: ps => markPart p (markedParts ps)

lemma markPart_inj {p q r s : Bytes} (h : markPart p r = markPart q s) : p = q ∧ r = s := by
  have h01 : (0 : Fin 256) ≠ 1 := by decide
  induction p generalizing q with
  | nil =>
    cases q with
    | nil => exact ⟨rfl, (List.cons.inj h).2⟩
    | cons c q => exact absurd (List.cons.inj h).1 h01
  | cons b p ih =>
    cases q with
    | nil => exact absurd (List.cons.inj h).1.symm h01
    | cons c q =>
      obtain ⟨hb, h⟩ := List.cons.inj (List.cons.inj h).2
      obtain ⟨rfl, rfl⟩ := ih h
      exact ⟨by rw [hb], rfl⟩

lemma markedParts_injective : Function.Injective markedParts := by
  intro ps
  have hne : ∀ p r, markPart p r ≠ [] := fun p r => by cases p <;> exact cons_ne_nil _ _
  induction ps with
  | nil =>
    intro qs h
    cases qs with
    | nil => rfl
    | cons q qs => exact absurd h.symm (hne _ _)
  | cons p ps ih =>
    intro qs h
    cases qs with
    | nil => exact absurd h (hne _ _)
    | cons q qs =>
      obtain ⟨rfl, hps⟩ := markPart_inj h
      rw [ih hps]

/-- A write of key `7`, a reader of `7` with the older snapshot, a range write, and a reader with a read
predicate, in two batches. -/
def sampleBatches : List SequencerOp :=
  [.validateAndCommit [⟨[1], 0, 2, [], [], [.put [7] [9] none]⟩, ⟨[2], 1, 3, [], [[7]], [.delete [8]]⟩],
   .validateAndCommitWithRanges [⟨⟨[3], 3, 4, [5], [[7]], [.deleteRange [7] [9]]⟩, []⟩,
     ⟨⟨[4], 3, 5, [], [], []⟩, [⟨[6], []⟩]⟩] ⟨10, 10⟩]

theorem sequencer_serializable_sampleBatches :
    Function.Injective markedParts ∧ (applySequencerOps (fun _ => markedParts) .empty sampleBatches).2 =
      [[.committed 2, .conflict 3 [7] 2], [.committed 4, .conflict 5 [7] 4]] ∧
    ((trace (validateStep fun _ => markedParts) .empty (sampleBatches.flatMap candidates)).filterMap
      (·.out.committedTs)).Pairwise (· < ·) :=
  ⟨markedParts_injective, by decide +kernel,
    (@sequencer_serializable (fun _ => markedParts) markedParts_injective sampleBatches
      (by decide +kernel)).2.2.1⟩

end

end Coord.Storage
