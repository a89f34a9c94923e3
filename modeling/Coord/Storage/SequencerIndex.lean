import Coord.Lib.Rising
import Coord.Storage.SequencerOcc

/-!
# The sequencer's indexes as derived data

The three validation indexes keep the last timestamp at which a key, or an interval, was written. They follow the
decision log, can be caught up from it in batches above one marker, and answer the read predicates.
-/

namespace Coord.Storage

open Coord.Lib Coord.Raft Table List

variable (sequencerHash : HashDomain → List Bytes → Bytes)

/-! ### Deciding once -/

section

/-- The transaction of a committed event is found by its digest. -/
def Indexed (e : Event SequencerRows Candidate SequencerOutcome) (st : SequencerRows) : Prop :=
  ∀ c, e.out = .committed c → e.act.txn.txnId ≠ [] ∧ st.txnIndex.get (sequencerHash .txn [e.act.txn.txnId]) = some c

variable {sequencerHash} {hash : HashDomain → List Bytes → Bytes}

lemma recordDecision_txnIndex (st : SequencerRows) (txn : SequencerTxn) :
    (recordDecision hash st txn).txnIndex =
      st.txnIndex.insert (hash .txn [txn.txnId]) txn.commitTs :=
  (indexWrites_frame _ _ _).2.1

lemma indexed_step {st : SequencerRows} {e : Event SequencerRows Candidate SequencerOutcome}
    (h : Indexed hash e st) (c : Candidate) :
    Indexed hash e (validateStep hash st c).1 := by
  rcases @validateStep_cases hash st c with ⟨hc, he⟩ | ⟨o, -, he⟩
  · intro ts hts
    obtain ⟨hid, hget⟩ := h ts hts
    refine ⟨hid, ?_⟩
    rw [he, recordDecision_txnIndex]
    -- a transaction with the same digest would have been a duplicate
    have hne : hash .txn [e.act.txn.txnId] ≠ hash .txn [c.txn.txnId] := by
      intro heq
      have hnew := (outcome_committed hc).2.2.1
      rw [alreadyDecided, ← heq, hget] at hnew
      cases hnew
    rw [get_insert_ne _ _ hne, hget]
  · rw [he]
    exact h

lemma indexed_self (st : SequencerRows) (c : Candidate) :
    Indexed hash ⟨st, c, (validateStep hash st c).2, (validateStep hash st c).1⟩
      (validateStep hash st c).1 := by
  rcases @validateStep_cases hash st c with ⟨hc, he⟩ | ⟨o, ho, he⟩
  · rw [he]
    rintro ts hts
    cases hts
    refine ⟨(outcome_committed hc).2.1, ?_⟩
    rw [recordDecision_txnIndex]
    exact get_insert_self _ _ _
  · rw [he]
    rintro ts rfl
    cases ho

/-- **A transaction is decided once.** Along every log of batches there is at most one decision for a transaction id,
and after it was committed every submission with that id reports its commit timestamp. -/
theorem one_decision_per_txn (ops : List SequencerOp) :
    let run := applySequencerOps sequencerHash .empty ops
    let tr := trace (validateStep sequencerHash) .empty (ops.flatMap candidates)
    (run.1 = exec (validateStep sequencerHash) .empty (ops.flatMap candidates) ∧ run.2.flatten = tr.map (·.out)) ∧
    (∀ e ∈ tr, ∀ c d c' d', e.after.decisions.get c = some d → e.after.decisions.get c' = some d' →
      d.txnId = d'.txnId → c = c') ∧
    tr.Pairwise fun e e' => ∀ c, e.out = .committed c → e'.act.txn.txnId = e.act.txn.txnId → e'.out = .duplicate c := by
  intro run tr
  have hstep : ∀ st, ∀ c ∈ ops.flatMap candidates, TxnIndexInv sequencerHash st →
      TxnIndexInv sequencerHash (validateStep sequencerHash st c).1 := fun st c _ h => txnIndexInv_step h c
  refine ⟨applySequencerOps_eq _ ops, fun e he c d c' d' hd hd' hid => ?_, ?_⟩
  · exact ((trace_inv (TxnIndexInv sequencerHash) txnIndexInv_empty hstep e he).2.unique hd hd' hid).1
  · have hpair : tr.Pairwise (fun e e' => Indexed sequencerHash e e'.before) :=
      trace_pairwise (TxnIndexInv sequencerHash) (Indexed sequencerHash) txnIndexInv_empty hstep
        (fun st c _ _ => indexed_self st c) (fun e st c _ _ h => indexed_step h c)
    refine hpair.imp_of_mem ?_
    intro e e' _ he' hidx c hc hid
    obtain ⟨hne, hget⟩ := hidx c hc
    obtain ⟨hout, -⟩ := step_of_mem_trace _ he'
    rw [show e'.out = (validateStep sequencerHash e'.before e'.act).2 by rw [hout], validateStep_outcome]
    simp [sequencerOutcome, alreadyDecided, hid, hne, hget]

end

/-! ### Catching up -/

/-- `SequencerIndexRebuild`: how far a catch-up went. -/
structure SequencerIndexRebuild where
  fromTs : ℕ
  toTs : ℕ
  decisions : ℕ
  keys : ℕ
  deriving DecidableEq

/-- `sequencer_index_last_ts`: the marker of all three indexes. -/
def SequencerRows.indexTs (st : SequencerRows) : ℕ := st.indexLastTs.getD 0

def SequencerRows.indexAll (st : SequencerRows) (ds : List SequencerDecision) : SequencerRows :=
  ds.foldl (sequencerIndexWritesInTx sequencerHash) st

/-- One batch of decisions, in a transaction of its own; the marker only advances. -/
def indexBatch (st : SequencerRows) (ds : List SequencerDecision) (lastTs : ℕ) : SequencerRows :=
  let st := st.indexAll sequencerHash ds
  if st.indexTs < lastTs then { st with indexLastTs := some lastTs } else st

/-- The loop of `catch_up_sequencer_index`, with fuel: the decisions above the marker, a batch at a time. A decision
under another's timestamp ends it with an error, and the batches before stay. -/
def catchUpLoop (batch last : ℕ) : ℕ → SequencerRows → ℕ → SequencerIndexRebuild →
    SequencerRows × Option SequencerIndexRebuild
  | 0, st, _, stats => (st, some stats)
  | fuel + 1, st, marker, stats =>
    if marker < last then
      let rows := (st.decisions.rows.filter fun r => decide (marker < r.1)).take batch
      match rows.getLast? with
      | none => (st, some stats)
      | some (lastTs, _) =>
        if rows.any fun r => decide (r.2.commitTs ≠ r.1) then (st, none)
        else
          let st := indexBatch sequencerHash st (rows.map Prod.snd) lastTs
          let stats := { stats with
            toTs := lastTs
            decisions := stats.decisions + rows.length
            keys := stats.keys + (rows.map fun r => r.2.mutations.length).sum }
          if rows.length < batch then (st, some stats) else catchUpLoop batch last fuel st lastTs stats
    else (st, some stats)

/-- Every round takes a decision, so that there are at most as many rounds as decisions. -/
def catchUpSequencerIndex (batch : ℕ) (st : SequencerRows) : SequencerRows × Option SequencerIndexRebuild :=
  catchUpLoop sequencerHash (max batch 1) st.last (st.decisions.rows.length + 1) st st.indexTs ⟨st.indexTs, st.indexTs,
    0, 0⟩

def SequencerRows.clearIndexes (st : SequencerRows) : SequencerRows :=
  { st with keyIndex := .empty, rangeIndex := .empty, intervalIndex := .empty, indexLastTs := none }

def rebuildSequencerValidationIndex (batch : ℕ) (st : SequencerRows) : SequencerRows × Option SequencerIndexRebuild :=
  catchUpSequencerIndex sequencerHash batch st.clearIndexes

/-! ### The writes of a decision -/

def keyWrites (d : SequencerDecision) : List (Bytes × ℕ) :=
  d.mutations.filterMap fun m => m.pointKey.map fun k => (sequencerHash .key [k], d.commitTs)

def rangeWrites (d : SequencerDecision) : List (Bytes × ℕ) :=
  d.mutations.filterMap fun m => m.pointKey.map fun k => (k, d.commitTs)

def intervalWrites (d : SequencerDecision) : List (Bytes × SequencerIntervalWrite) :=
  d.mutations.filterMap fun
    | .deleteRange start stop => some (sequencerHash .interval [start, stop], ⟨start, stop, d.commitTs⟩)
    | _ => none

section

variable {hash : HashDomain → List Bytes → Bytes}

lemma stamp_keyWrites (d : SequencerDecision) : ∀ w ∈ keyWrites hash d, w.2 = d.commitTs := by
  intro w hw
  obtain ⟨m, -, hm⟩ := mem_filterMap.1 hw
  obtain ⟨k, -, rfl⟩ := Option.map_eq_some_iff.1 hm
  rfl

variable {d : SequencerDecision}

lemma mem_rangeWrites {k : Bytes} {ts : ℕ} :
    (k, ts) ∈ rangeWrites d ↔ ts = d.commitTs ∧ ∃ m ∈ d.mutations, m.pointKey = some k := by
  simp only [rangeWrites, mem_filterMap, Option.map_eq_some_iff, Prod.mk.injEq]
  constructor
  · rintro ⟨m, hm, k', hk, rfl, rfl⟩
    exact ⟨rfl, m, hm, hk⟩
  · rintro ⟨rfl, m, hm, hk⟩
    exact ⟨m, hm, k, hk, rfl, rfl⟩

lemma mem_intervalWrites {k : Bytes} {w : SequencerIntervalWrite} : (k, w) ∈ intervalWrites hash d →
      w.commitTs = d.commitTs ∧ .deleteRange w.start w.stop ∈ d.mutations := by
  intro hw
  obtain ⟨m, hm, he⟩ := mem_filterMap.1 hw
  cases m with
  | put | delete => cases he
  | deleteRange start stop =>
    cases he
    exact ⟨rfl, hm⟩

variable (st : SequencerRows)

lemma indexWrites_eq (d : SequencerDecision) :
    sequencerIndexWritesInTx hash st d = { st with
        keyIndex := st.keyIndex.raiseAll id (keyWrites hash d)
        rangeIndex := st.rangeIndex.raiseAll id (rangeWrites d)
        intervalIndex := st.intervalIndex.raiseAll (·.commitTs) (intervalWrites hash d) } := by
  obtain ⟨txnId, requestId, startTs, ts, ms⟩ := d
  simp only [sequencerIndexWritesInTx, keyWrites, rangeWrites, intervalWrites]
  induction ms generalizing st with
  | nil => rfl
  | cons m ms ih =>
    rw [foldl_cons, ih]
    have hraise : ∀ (t : Table Bytes ℕ) k, raise t k ts = t.raiseBy id (k, ts) := by
      intro t k
      cases h : t.get k <;> simp [raise, raiseBy, rankOf, h]
    cases m with
    | put key v l => simp [indexMutation, hraise, SequencerMutation.pointKey, raiseAll]
    | delete key => simp [indexMutation, hraise, SequencerMutation.pointKey, raiseAll]
    | deleteRange start stop =>
      have hprev : ((st.intervalIndex.get (hash .interval [start, stop])).getD ⟨[], [], 0⟩).commitTs =
          rankOf SequencerIntervalWrite.commitTs (st.intervalIndex.get (hash .interval [start, stop])) := by
        cases st.intervalIndex.get (hash .interval [start, stop]) <;> rfl
      simp only [indexMutation, hprev, SequencerMutation.pointKey, raiseAll, filterMap_cons, Option.map_none,
        foldl_cons, raiseBy]
      split <;> rfl

lemma indexAll_eq (ds : List SequencerDecision) :
    st.indexAll hash ds = { st with
        keyIndex := st.keyIndex.raiseAll id (ds.flatMap (keyWrites hash))
        rangeIndex := st.rangeIndex.raiseAll id (ds.flatMap rangeWrites)
        intervalIndex := st.intervalIndex.raiseAll (·.commitTs) (ds.flatMap (intervalWrites hash)) } := by
  induction ds generalizing st with
  | nil => rfl
  | cons d ds ih =>
    rw [SequencerRows.indexAll, foldl_cons, ← SequencerRows.indexAll, ih, indexWrites_eq]
    simp only [flatMap_cons, raiseAll_append]

/-! ### The loop -/

lemma indexBatch_eq (ds : List SequencerDecision) (lastTs : ℕ) :
    ∃ m, indexBatch hash st ds lastTs = { st.indexAll hash ds with indexLastTs := m } := by
  unfold indexBatch
  dsimp only
  split
  · exact ⟨_, rfl⟩
  · exact ⟨_, rfl⟩

lemma catchUpLoop_eq {batch last : ℕ} (hb : 0 < batch) (fuel : ℕ) (st : SequencerRows) (marker : ℕ)
    (stats : SequencerIndexRebuild) (hkey : ∀ r ∈ st.decisions.rows, r.2.commitTs = r.1 ∧ r.1 ≤ last)
    (hfuel : (st.decisions.rows.filter fun r => decide (marker < r.1)).length ≤ fuel) :
    (catchUpLoop hash batch last fuel st marker stats).2.isSome = true ∧
    ∃ m, (catchUpLoop hash batch last fuel st marker stats).1 =
      { st.indexAll hash ((st.decisions.rows.filter fun r => decide (marker < r.1)).map Prod.snd) with
        indexLastTs := m } := by
  induction fuel generalizing st marker stats with
  | zero => exact ⟨rfl, st.indexLastTs, by rw [eq_nil_of_length_eq_zero (Nat.le_zero.1 hfuel)]; rfl⟩
  | succ fuel ih =>
    have hdone : (st.decisions.rows.filter fun r => decide (marker < r.1)) = [] → ∃ m, st =
        { st.indexAll hash ((st.decisions.rows.filter fun r => decide (marker < r.1)).map Prod.snd) with
          indexLastTs := m } := fun hnil => ⟨st.indexLastTs, by rw [hnil]; rfl⟩
    unfold catchUpLoop
    set later := st.decisions.rows.filter fun r => decide (marker < r.1)
    split
    · dsimp only
      split
      · next hnone =>
        refine ⟨rfl, hdone ?_⟩
        rcases take_eq_nil_iff.1 (getLast?_eq_none_iff.1 hnone) with h | h
        · omega
        · exact h
      next lastTs d hlast =>
      have hmem : (lastTs, d) ∈ later := List.mem_of_mem_take (mem_of_getLast? hlast)
      have hany : ((later.take batch).any fun r => decide (r.2.commitTs ≠ r.1)) = false := by
        refine any_eq_false.2 fun r hr => ?_
        simpa using (hkey r (List.mem_filter.1 (List.mem_of_mem_take hr)).1).1
      simp only [hany, Bool.false_eq_true, if_false]
      obtain ⟨m, hm⟩ := @indexBatch_eq hash st ((later.take batch).map Prod.snd) lastTs
      split
      · next hshort =>
        refine ⟨rfl, m, ?_⟩
        rw [hm, take_of_length_le]
        rw [length_take] at hshort
        omega
      have hrest : ((indexBatch hash st ((later.take batch).map Prod.snd) lastTs).decisions.rows.filter
          fun r => decide (lastTs < r.1)) = later.drop batch := by
        rw [hm, ← filter_lt_getLast (st.decisions.sorted.filter _) hlast, filter_filter, indexAll_eq]
        refine filter_congr fun r _ => ?_
        have hlt : marker < lastTs := by simpa using (List.mem_filter.1 hmem).2
        by_cases h : lastTs < r.1 <;> simp [h, hlt.trans]
      have hlen : later.length ≠ 0 := by
        rintro h0
        rw [eq_nil_of_length_eq_zero h0] at hmem
        cases hmem
      obtain ⟨hsome, m', hm'⟩ := ih (indexBatch hash st ((later.take batch).map Prod.snd) lastTs) lastTs _
        (by rw [hm, indexAll_eq]; exact hkey) (by rw [hrest, length_drop]; omega)
      refine ⟨hsome, m', ?_⟩
      have hsplit : later.map Prod.snd = (later.take batch).map Prod.snd ++ (later.drop batch).map Prod.snd := by
        rw [← map_append, take_append_drop]
      rw [hm', hrest, hm, hsplit]
      simp only [indexAll_eq, flatMap_append, raiseAll_append]
    · next hge =>
      refine ⟨rfl, hdone ?_⟩
      exact filter_eq_nil_iff.2 fun r hr => by simpa using (hkey r hr).2.trans (not_lt.1 hge)

end

/-! ### The indexes of the decision log -/

def SequencerRows.log (st : SequencerRows) : List SequencerDecision := st.decisions.rows.map Prod.snd

def SequencerRows.SameIndexes (st st' : SequencerRows) : Prop :=
  st.keyIndex = st'.keyIndex ∧ st.rangeIndex = st'.rangeIndex ∧ st.intervalIndex = st'.intervalIndex

/-- The indexes are those of the decision log, as the commits write them. -/
structure Followed (st : SequencerRows) : Prop where
  decisions : ∀ r ∈ st.decisions.rows, r.2.commitTs = r.1 ∧ r.1 ≤ st.last
  key : st.keyIndex = Table.empty.raiseAll id (st.log.flatMap (keyWrites sequencerHash))
  range : st.rangeIndex = Table.empty.raiseAll id (st.log.flatMap rangeWrites)
  interval : st.intervalIndex = Table.empty.raiseAll (·.commitTs) (st.log.flatMap (intervalWrites sequencerHash))

/-- The indexes are lost or lag behind: each row is as the log up to some point left it, and is missing for the empty
log. The marker is arbitrary. -/
structure Damaged (st st' : SequencerRows) : Prop where
  rest : st' = { st with
    keyIndex := st'.keyIndex
    rangeIndex := st'.rangeIndex
    intervalIndex := st'.intervalIndex
    indexLastTs := st'.indexLastTs }
  key : ∀ k, ∃ n, st'.keyIndex.get k =
    (Table.empty.raiseAll id ((st.log.take n).flatMap (keyWrites sequencerHash))).get k
  range : ∀ k, ∃ n, st'.rangeIndex.get k = (Table.empty.raiseAll id ((st.log.take n).flatMap rangeWrites)).get k
  interval : ∀ k, ∃ n, st'.intervalIndex.get k =
    (Table.empty.raiseAll (·.commitTs) ((st.log.take n).flatMap (intervalWrites sequencerHash))).get k

/-- No row with a timestamp up to `m` is missing. -/
structure KeptTo (m : ℕ) (st st' : SequencerRows) : Prop where
  key : ∀ k ts, st.keyIndex.get k = some ts → ts ≤ m → st'.keyIndex.get k = some ts
  range : ∀ k ts, st.rangeIndex.get k = some ts → ts ≤ m → st'.rangeIndex.get k = some ts
  interval : ∀ k w, st.intervalIndex.get k = some w → w.commitTs ≤ m → st'.intervalIndex.get k = some w

section

variable {sequencerHash} {hash : HashDomain → List Bytes → Bytes} {st st' : SequencerRows}

lemma followed_step (h : Followed hash st) (c : Candidate) :
    Followed hash (validateStep hash st c).1 := by
  rcases @validateStep_cases hash st c with ⟨hc, he⟩ | ⟨o, -, he⟩
  · have hlast := (outcome_committed hc).2.2.2.2.1
    have hrows : (recordDecision hash st c.txn).decisions.rows = st.decisions.rows ++ [(c.txn.commitTs,
        ⟨c.txn.txnId, c.txn.requestId, c.txn.startTs, c.txn.commitTs, c.txn.mutations⟩)] := by
      rw [recordDecision_decisions]
      exact rows_insert_last _ fun r hr => (h.decisions r hr).2.trans_lt hlast
    have hlog : (recordDecision hash st c.txn).log = st.log ++
        [⟨c.txn.txnId, c.txn.requestId, c.txn.startTs, c.txn.commitTs, c.txn.mutations⟩] := by
      rw [SequencerRows.log, hrows, map_append]
      rfl
    rw [he]
    refine ⟨fun r hr => ?_, ?_, ?_, ?_⟩
    · rw [recordDecision_last]
      rw [hrows] at hr
      rcases mem_append_one.1 hr with hr | rfl
      · exact ⟨(h.decisions r hr).1, ((h.decisions r hr).2.trans_lt hlast).le⟩
      · exact ⟨rfl, le_rfl⟩
    · rw [hlog, flatMap_append, raiseAll_append, ← h.key, recordDecision, indexWrites_eq]
      simp
    · rw [hlog, flatMap_append, raiseAll_append, ← h.range, recordDecision, indexWrites_eq]
      simp
    · rw [hlog, flatMap_append, raiseAll_append, ← h.interval, recordDecision, indexWrites_eq]
      simp
  · rw [he]
    exact h

lemma followed_run (ops : List SequencerOp) : Followed hash (applySequencerOps hash .empty ops).1 := by
  rw [(@applySequencerOps_eq hash _ ops).1]
  exact exec_inv (Followed hash) ⟨fun _ h => (by cases h), rfl, rfl, rfl⟩ fun st c _ h => followed_step h c

lemma catchUp_eq (h : Followed hash st) (hd : Damaged hash st st') (batch : ℕ) :
    (catchUpSequencerIndex hash batch st').2.isSome = true ∧
    ∃ m, (catchUpSequencerIndex hash batch st').1 =
      { st'.indexAll hash ((st.decisions.rows.filter fun r => decide (st'.indexTs < r.1)).map Prod.snd) with
        indexLastTs := m } := by
  have hdec : st'.decisions = st.decisions := by rw [hd.rest]
  have hlast : st'.last = st.last := by rw [SequencerRows.last, hd.rest, SequencerRows.last]
  rw [← hdec]
  refine catchUpLoop_eq (by omega) _ st' st'.indexTs _ ?_ ?_
  · rw [hdec, hlast]
    exact h.decisions
  · exact (length_filter_le _ _).trans (Nat.le_succ _)

lemma outcomes_marker (st : SequencerRows) (m : Option ℕ) (cs : List Candidate) :
    (trace (validateStep hash) { st with indexLastTs := m } cs).map (·.out) =
      (trace (validateStep hash) st cs).map (·.out) := by
  induction cs generalizing st m with
  | nil => rfl
  | cons c cs ih =>
    have hout : sequencerOutcome hash { st with indexLastTs := m } c.txn c.readRanges c.limits =
        sequencerOutcome hash st c.txn c.readRanges c.limits := by
      have hrange : rangeConflict { st with indexLastTs := m } = rangeConflict st := by
        funext startTs maxRange ranges
        induction ranges with
        | nil => rfl
        | cons r ranges ih =>
          simp only [rangeConflict, ih]
          rfl
      simp only [sequencerOutcome, validateReads, hrange]
      rfl
    have hnext : ∃ m', (validateStep hash { st with indexLastTs := m } c).1 =
        { (validateStep hash st c).1 with indexLastTs := m' } := by
      simp only [validateStep, sequencerValidateInTx, hout]
      split
      · exact ⟨some c.txn.commitTs, by simp [recordDecision, indexWrites_eq]⟩
      · exact ⟨m, rfl⟩
    obtain ⟨m', hm'⟩ := hnext
    simp only [trace, map_cons, validateStep_outcome, hout, hm', ih]

lemma catchUp_sameIndexes_iff (h : Followed hash st) (hd : Damaged hash st st') (batch : ℕ) :
    (catchUpSequencerIndex hash batch st').1.SameIndexes st ↔ KeptTo st'.indexTs st st' := by
  obtain ⟨-, m, hm⟩ := catchUp_eq h hd batch
  set old := (st.decisions.rows.filter fun r => decide (r.1 ≤ st'.indexTs)).map Prod.snd with hold
  set new := (st.decisions.rows.filter fun r => decide (st'.indexTs < r.1)).map Prod.snd with hnew
  have hlog : st.log = old ++ new := by
    have hsplit := st.decisions.filter_append_filter_not (p := fun c => decide (c ≤ st'.indexTs)) (by
      simp only [decide_eq_true_eq]
      omega)
    simp only [← decide_not, not_le] at hsplit
    rw [hold, hnew, ← map_append, hsplit]
    rfl
  have hle : ∀ d ∈ old, d.commitTs ≤ st'.indexTs := by
    intro d hmem
    obtain ⟨r, hr, rfl⟩ := mem_map.1 hmem
    obtain ⟨hr, hle⟩ := List.mem_filter.1 hr
    exact (h.decisions r hr).1.trans_le (of_decide_eq_true hle)
  have hlt : ∀ d ∈ new, st'.indexTs < d.commitTs := by
    intro d hmem
    obtain ⟨r, hr, rfl⟩ := mem_map.1 hmem
    obtain ⟨hr, hlt⟩ := List.mem_filter.1 hr
    exact (of_decide_eq_true hlt).trans_eq (h.decisions r hr).1.symm
  obtain ⟨hdrest, hdkey, hdrange, hdint⟩ := hd
  rw [hlog] at hdkey hdrange hdint
  have hkey := raiseAll_eq_iff id SequencerDecision.commitTs (keyWrites hash)
    stamp_keyWrites hle hlt hdkey
  have hrange := raiseAll_eq_iff id SequencerDecision.commitTs rangeWrites
    (fun d w hw => (mem_rangeWrites.1 hw).1) hle hlt hdrange
  have hint := raiseAll_eq_iff (·.commitTs) SequencerDecision.commitTs (intervalWrites hash)
    (fun d w hw => (mem_intervalWrites hw).1) hle hlt hdint
  rw [← hlog, ← h.key] at hkey
  rw [← hlog, ← h.range] at hrange
  rw [← hlog, ← h.interval] at hint
  rw [hm, indexAll_eq]
  exact ⟨fun hs => ⟨hkey.1 hs.1, hrange.1 hs.2.1, hint.1 hs.2.2⟩,
    fun hk => ⟨hkey.2 hk.key, hrange.2 hk.range, hint.2 hk.interval⟩⟩

/-- A rebuild starts without rows and without a marker, and no row stands at zero. -/
lemma Damaged.cleared (h : Followed hash st) (hd : Damaged hash st st') :
    Damaged hash st st'.clearIndexes ∧ KeptTo st'.clearIndexes.indexTs st st'.clearIndexes := by
  have hpos : ∀ {V : Type} {rank : V → ℕ} {ws : List (Bytes × V)} {k v},
      ((Table.empty : Table Bytes V).raiseAll rank ws).get k = some v → ¬ rank v ≤ 0 := by
    intro V rank ws k v hv
    rw [get_raiseAll] at hv
    exact not_le.2 (rank_pos_of_foldl_top (by simp) hv)
  refine ⟨⟨?_, fun _ => ⟨0, rfl⟩, fun _ => ⟨0, rfl⟩, fun _ => ⟨0, rfl⟩⟩, ?_, ?_, ?_⟩
  · conv_lhs => rw [hd.rest]
    rfl
  · intro k ts hts hle
    rw [h.key] at hts
    exact absurd hle (hpos hts)
  · intro k ts hts hle
    rw [h.range] at hts
    exact absurd hle (hpos hts)
  · intro k w hw hle
    rw [h.interval] at hw
    exact absurd hle (hpos hw)

/-- **Catching up and rebuilding.** Over every decision log, indexes whose rows are lost or lag behind, and every
batch size: catching up succeeds, and gives the indexes of the incremental path just when every row with a timestamp
up to the marker is still there; rebuilding always does. With the same indexes all later candidates have the same
outcomes. -/
theorem catch_up_exact_iff (ops : List SequencerOp) {st' : SequencerRows}
    (hd : Damaged sequencerHash (applySequencerOps sequencerHash .empty ops).1 st') (batch : ℕ) :
    let st := (applySequencerOps sequencerHash .empty ops).1
    let caughtUp := catchUpSequencerIndex sequencerHash batch st'
    let rebuilt := rebuildSequencerValidationIndex sequencerHash batch st'
    (caughtUp.2.isSome = true ∧ (caughtUp.1.SameIndexes st ↔ KeptTo st'.indexTs st st')) ∧
    (rebuilt.2.isSome = true ∧ rebuilt.1.SameIndexes st) ∧
    ∀ r, r = caughtUp.1 ∨ r = rebuilt.1 → r.SameIndexes st → ∀ cs,
      (trace (validateStep sequencerHash) r cs).map (·.out) = (trace (validateStep sequencerHash) st cs).map
        (·.out) := by
  intro st caughtUp rebuilt
  have h : Followed sequencerHash st := followed_run ops
  obtain ⟨hcleared, hkept⟩ := hd.cleared h
  refine ⟨⟨(catchUp_eq h hd batch).1, catchUp_sameIndexes_iff h hd batch⟩,
    ⟨(catchUp_eq h hcleared batch).1, (catchUp_sameIndexes_iff h hcleared batch).2 hkept⟩, ?_⟩
  have hrest : ∀ {t : SequencerRows}, Damaged sequencerHash st t →
      (catchUpSequencerIndex sequencerHash batch t).1.SameIndexes st →
      ∃ m, (catchUpSequencerIndex sequencerHash batch t).1 = { st with indexLastTs := m } := by
    intro t ht hsame
    obtain ⟨-, m, hm⟩ := catchUp_eq h ht batch
    rw [hm, indexAll_eq] at hsame ⊢
    obtain ⟨hk, hr, hi⟩ := hsame
    dsimp only at hk hr hi
    refine ⟨m, ?_⟩
    rw [hk, hr, hi, ht.rest]
  rintro r (rfl | rfl) hsame cs
  · obtain ⟨m, hm⟩ := hrest hd hsame
    rw [hm, outcomes_marker]
  · obtain ⟨m, hm⟩ := hrest hcleared hsame
    rw [show rebuilt.1 = _ from hm, outcomes_marker]

end

theorem catch_up_exact_cleared :
    let st := (applySequencerOps (fun _ => markedParts) .empty sampleBatches).1
    st.rangeIndex.get [7] = some 2 ∧
      (rebuildSequencerValidationIndex (fun _ => markedParts) 1 st.clearIndexes).1.SameIndexes st :=
  ⟨by decide +kernel, (@catch_up_exact_iff (fun _ => markedParts) sampleBatches _
    ⟨rfl, fun _ => ⟨0, rfl⟩, fun _ => ⟨0, rfl⟩, fun _ => ⟨0, rfl⟩⟩ 1).2.1.2⟩

/-- The ordered index is lost and the marker is not: catching up does nothing, and a read predicate over the lost
write, which is a conflict, is committed. -/
theorem catch_up_leaves_index_lost :
    let st := (applySequencerOps (fun _ => markedParts) .empty [.validateAndCommit [⟨[1], 0, 2, [], [],
      [.put [7] [9] none]⟩]]).1
    let lost := { st with rangeIndex := .empty }
    let reader : Candidate := ⟨⟨[2], 1, 3, [], [], []⟩, [⟨[6], []⟩], none⟩
    catchUpSequencerIndex (fun _ => markedParts) 10 lost = (lost, some ⟨2, 2, 0, 0⟩) ∧
      (validateStep (fun _ => markedParts) st reader).2 = .conflict 3 [7] 2 ∧
      (validateStep (fun _ => markedParts) lost reader).2 = .committed 3 := by
  decide +kernel

/-! ### Read predicates -/

/-- A read range meets a write: its key is read, or the intervals do, `write.start < read.end` and `read.start <
write.end`, with an empty end for no bound. -/
def ReadMeets (r : SequencerReadRange) : SequencerMutation → Prop
  | .put key _ _ => r.Reads key
  | .delete key => r.Reads key
  | .deleteRange start stop => (r.stop = [] ∨ r.start < r.stop) ∧ (r.stop = [] ∨ start < r.stop) ∧
      (stop = [] ∨ r.start < stop)

/-- A decision at `c`, after `startTs`, has a point write, or a range delete, that the range meets. -/
def WrittenAt (st : SequencerRows) (r : SequencerReadRange) (startTs : ℕ) (point : Bool) (c : ℕ) : Prop :=
  startTs < c ∧ ∃ d, st.decisions.get c = some d ∧ ∃ m ∈ d.mutations, m.pointKey.isSome = point ∧ ReadMeets r m

/-- The hit is the last of the timestamps, and there is one if there are any. -/
def Best (S : ℕ → Prop) : Option SequencerIndexHit → Prop
  | none => ∀ c, ¬ S c
  | some hit => IsGreatest {c | S c} hit.commitTs

lemma Best.of_bounds {S T : ℕ → Prop} {o : Option SequencerIndexHit} (h : Best S o) (hST : ∀ c, S c → T c)
    (hTS : ∀ c, T c → ∃ c', S c' ∧ c ≤ c') : Best T o := by
  cases o with
  | none =>
    intro c hc
    obtain ⟨c', hc', -⟩ := hTS c hc
    exact h c' hc'
  | some hit =>
    refine ⟨hST _ h.1, fun c hc => ?_⟩
    obtain ⟨c', hc', hle⟩ := hTS c hc
    exact hle.trans (h.2 hc')

lemma best_foldl {α : Type} {f : Option SequencerIndexHit → α → Option SequencerIndexHit} {S : α → Prop}
    {hit : α → SequencerIndexHit} (hskip : ∀ b a, ¬ S a → f b a = b)
    (htake : ∀ b a, S a → (f b a = some (hit a) ∧ ∀ x, b = some x → x.commitTs ≤ (hit a).commitTs) ∨
      ∃ x, b = some x ∧ f b a = some x ∧ (hit a).commitTs ≤ x.commitTs) (l : List α) :
    Best (fun c => ∃ a ∈ l, S a ∧ (hit a).commitTs = c) (l.foldl f none) := by
  induction l using reverseRecOn with
  | nil => exact fun c => by simp
  | append_singleton l a ih =>
    rw [foldl_append, foldl_cons, foldl_nil]
    by_cases ha : S a
    · rcases htake (l.foldl f none) a ha with ⟨hf, hle⟩ | ⟨x, hx, hf, hle⟩
      · rw [hf]
        refine ⟨⟨a, by simp, ha, rfl⟩, ?_⟩
        rintro c ⟨b, hb, hSb, rfl⟩
        rcases mem_append.1 hb with hb | hb
        · cases hx : l.foldl f none with
          | none =>
            rw [hx] at ih
            exact absurd ⟨b, hb, hSb, rfl⟩ (ih (hit b).commitTs)
          | some x =>
            rw [hx] at ih
            exact (ih.2 ⟨b, hb, hSb, rfl⟩).trans (hle x hx)
        · rw [mem_singleton.1 hb]
      · rw [hx] at ih
        rw [hf]
        obtain ⟨⟨b, hb, hSb, he⟩, hmax⟩ := ih
        refine ⟨⟨b, mem_append_left _ hb, hSb, he⟩, ?_⟩
        rintro c ⟨b', hb', hSb', rfl⟩
        rcases mem_append_one.1 hb' with hb' | rfl
        · exact hmax ⟨b', hb', hSb', rfl⟩
        · exact hle
    · rw [hskip _ a ha]
      refine ih.of_bounds (fun c => ?_) fun c => ?_
      · rintro ⟨b, hb, hSb, he⟩
        exact ⟨b, mem_append_left _ hb, hSb, he⟩
      · rintro ⟨b, hb, hSb, he⟩
        rcases mem_append.1 hb with hb | hb
        · exact ⟨c, ⟨b, hb, hSb, he⟩, le_rfl⟩
        · exact absurd (mem_singleton.1 hb ▸ hSb) ha

section

variable {sequencerHash} {st : SequencerRows}

lemma mem_log (h : Followed sequencerHash st) {d : SequencerDecision} (hd : d ∈ st.log) :
    st.decisions.get d.commitTs = some d := by
  obtain ⟨r, hr, rfl⟩ := mem_map.1 hd
  rw [(h.decisions r hr).1]
  exact mem_rows.1 hr

section

variable (h : Followed sequencerHash st) (hinv : IndexInv sequencerHash st) (r : SequencerReadRange)
include h hinv r

lemma best_point (startTs : ℕ) :
    Best (WrittenAt st r startTs true) ((rangeIndexRows st r.start r.stop).foldl (laterRow startTs) none) := by
  have hfold := @best_foldl _ (laterRow startTs) (fun row => startTs < row.2) (fun row => ⟨row.1, row.2⟩)
    (fun b a ha => by simp [laterRow, not_lt.1 ha]) (fun b a ha => ?_) (rangeIndexRows st r.start r.stop)
  · refine hfold.of_bounds (fun c => ?_) fun c => ?_
    · rintro ⟨⟨k, ts⟩, hrow, hts, rfl⟩
      obtain ⟨hrow, hin⟩ := List.mem_filter.1 hrow
      rw [mem_rows, h.range] at hrow
      obtain ⟨d, hd, hw⟩ := mem_flatMap.1 (mem_of_get_raiseAll hrow)
      obtain ⟨rfl, m, hm, hk⟩ := mem_rangeWrites.1 hw
      refine ⟨hts, d, mem_log h hd, m, hm, by simp [hk], ?_⟩
      have hreads : r.Reads k := by simpa [SequencerReadRange.Reads] using hin
      cases m with
      | put | delete =>
        cases hk
        exact hreads
      | deleteRange => cases hk
    · rintro ⟨hc, d, hd, m, hm, hpoint, hmeets⟩
      obtain ⟨k, hk⟩ := Option.isSome_iff_exists.1 hpoint
      obtain ⟨-, ts, hts, hle⟩ := (hinv.covered c d hd m hm).1 k hk
      have hreads : r.Reads k := by
        cases m with
        | put | delete =>
          cases hk
          exact hmeets
        | deleteRange => cases hk
      have hrow : (k, ts) ∈ rangeIndexRows st r.start r.stop :=
        List.mem_filter.2 ⟨mem_rows.2 hts, by simpa [SequencerReadRange.Reads] using hreads⟩
      exact ⟨ts, ⟨(k, ts), hrow, hc.trans_le hle, rfl⟩, hle⟩
  · have hlt : ¬ a.2 ≤ startTs := not_le.2 ha
    cases b with
    | none => exact .inl ⟨by simp [laterRow, hlt], by simp⟩
    | some x =>
      by_cases hx : x.commitTs < a.2
      · exact .inl ⟨by simp [laterRow, hlt, hx], by simpa using hx.le⟩
      · exact .inr ⟨x, rfl, by simp [laterRow, hlt, hx], not_lt.1 hx⟩

lemma best_interval (hr : r.stop = [] ∨ r.start < r.stop) (startTs : ℕ) :
    Best (WrittenAt st r startTs false) (bestInterval (st.intervalIndex.rows.map Prod.snd) startTs fun entry =>
      decide ((r.stop = [] ∨ entry.start < r.stop) ∧ (entry.stop = [] ∨ r.start < entry.stop))) := by
  have hfold := @best_foldl SequencerIntervalWrite (fun best entry =>
      if startTs < entry.commitTs ∧ decide ((r.stop = [] ∨ entry.start < r.stop) ∧
        (entry.stop = [] ∨ r.start < entry.stop)) = true then bestIndexHit best (some ⟨entry.start, entry.commitTs⟩)
      else best)
    (fun w => startTs < w.commitTs ∧ ((r.stop = [] ∨ w.start < r.stop) ∧ (w.stop = [] ∨ r.start < w.stop)))
    (fun w => ⟨w.start, w.commitTs⟩)
    (fun b a ha => by simp only [decide_eq_true_eq, if_neg ha]) (fun b a ha => ?_) (st.intervalIndex.rows.map Prod.snd)
  · refine hfold.of_bounds (fun c => ?_) fun c => ?_
    · rintro ⟨w, hw, ⟨hts, hmeets⟩, rfl⟩
      obtain ⟨⟨k, w⟩, hrow, rfl⟩ := mem_map.1 hw
      rw [mem_rows, h.interval] at hrow
      obtain ⟨d, hd, hw⟩ := mem_flatMap.1 (mem_of_get_raiseAll hrow)
      obtain ⟨hc, hm⟩ := mem_intervalWrites hw
      exact ⟨hts, d, hc ▸ mem_log h hd, _, hm, rfl, hr, hmeets⟩
    · rintro ⟨hc, d, hd, m, hm, hpoint, hmeets⟩
      rcases m.point_or_range with ⟨k, hk, -⟩ | ⟨a, b, rfl⟩
      · simp [hk] at hpoint
      · obtain ⟨w, hw, rfl, rfl, hle⟩ := (hinv.covered c d hd _ hm).2 a b rfl
        exact ⟨w.commitTs, ⟨w, mem_map.2 ⟨_, mem_rows.2 hw, rfl⟩, ⟨hc.trans_le hle, hmeets.2⟩, rfl⟩, hle⟩
  · simp only [decide_eq_true_eq, if_pos ha]
    cases b with
    | none => exact .inl ⟨rfl, by simp⟩
    | some x =>
      simp only [bestIndexHit]
      split
      · next hlt => exact .inl ⟨rfl, fun y hy => by cases hy; rcases hlt with hlt | hlt <;> omega⟩
      · next hlt => exact .inr ⟨x, rfl, rfl, not_lt.1 fun hx => hlt (.inl hx)⟩

/-- The point writes come first, and the interval writes are only looked at without one. -/
lemma rangeQuery_best (startTs : ℕ) :
    ∃ o o', sequencerRangeQueryIn st r.start r.stop startTs 0 = (o.or o').elim .clear .hit ∧
      Best (WrittenAt st r startTs true) o ∧ Best (WrittenAt st r startTs false) o' := by
  by_cases hr : r.stop = [] ∨ r.start < r.stop
  · refine ⟨_, _, ?_, best_point h hinv r startTs, best_interval h hinv r hr startTs⟩
    have hne : ¬ (r.stop ≠ [] ∧ r.stop ≤ r.start) := fun ⟨h1, h2⟩ => (not_lt.2 h2) (hr.resolve_left h1)
    simp only [sequencerRangeQueryIn, if_neg hne, fetchLimit, takeLimit, if_true, lt_irrefl, false_and, if_false,
      sequencerIntervalRangeIn, sequencerIntervalRowsIn]
    cases (rangeIndexRows st r.start r.stop).foldl (laterRow startTs) none with
    | some hit => rfl
    | none =>
      dsimp only [Option.none_or]
      cases bestInterval (st.intervalIndex.rows.map Prod.snd) startTs _ <;> rfl
  · -- nothing meets an empty range
    have hne : r.stop ≠ [] ∧ r.stop ≤ r.start := by
      simpa only [not_or, not_lt] using hr
    have hnone : ∀ point c, ¬ WrittenAt st r startTs point c := by
      rintro point c ⟨-, d, -, m, -, -, hmeets⟩
      cases m with
      | put key | delete key => exact absurd (hmeets.1.trans_lt (hmeets.2.resolve_left hne.1)) (not_lt.2 hne.2)
      | deleteRange => exact hr hmeets.1
    exact ⟨none, none, if_pos hne, hnone true, hnone false⟩

end

/-- **A query without a budget** is a hit just when a committed write after the snapshot meets the range; what it
reports is the last of them just when no range delete is later than all point writes there are. -/
theorem range_query_max_iff (hinj : Function.Injective (sequencerHash .interval)) (ops : List SequencerOp)
    (r : SequencerReadRange) (startTs : ℕ) :
    let st := (applySequencerOps sequencerHash .empty ops).1
    let answer := sequencerRangeQueryIn st r.start r.stop startTs 0
    ((∃ hit, answer = .hit hit) ↔ ∃ point c, WrittenAt st r startTs point c) ∧
    ((∀ hit, answer = .hit hit → IsGreatest {c | ∃ point, WrittenAt st r startTs point c} hit.commitTs) ↔
      ∀ c, WrittenAt st r startTs false c → (∃ c', WrittenAt st r startTs true c') →
        ∃ c', WrittenAt st r startTs true c' ∧ c ≤ c') := by
  intro st answer
  have hinv : IndexInv sequencerHash st := by
    rw [show st = _ from (@applySequencerOps_eq sequencerHash _ ops).1]
    exact exec_inv (IndexInv sequencerHash) indexInv_empty fun st c _ h => indexInv_step hinj st c h
  obtain ⟨o, o', hanswer, hpoint, hint⟩ := rangeQuery_best (followed_run ops) hinv r startTs
  rw [show answer = _ from hanswer]
  simp only [Bool.exists_bool]
  cases o with
  | some hit =>
    refine ⟨⟨fun _ => .inr ⟨_, hpoint.1⟩, fun _ => ⟨hit, rfl⟩⟩, fun hmax c hc _ => ?_, fun hcond hit' hhit => ?_⟩
    · exact ⟨_, hpoint.1, (hmax hit rfl).2 (.inl hc)⟩
    · cases hhit
      refine ⟨.inr hpoint.1, ?_⟩
      rintro c (hc | hc)
      · obtain ⟨c', hc', hle⟩ := hcond c hc ⟨_, hpoint.1⟩
        exact hle.trans (hpoint.2 hc')
      · exact hpoint.2 hc
  | none =>
    have hno : ∀ c, ¬ WrittenAt st r startTs true c := hpoint
    cases o' with
    | some hit =>
      refine ⟨⟨fun _ => .inl ⟨_, hint.1⟩, fun _ => ⟨hit, rfl⟩⟩, fun _ c _ ⟨c', hc'⟩ => absurd hc' (hno c'), ?_⟩
      rintro - hit' hhit
      cases hhit
      refine ⟨.inl hint.1, ?_⟩
      rintro c (hc | hc)
      · exact hint.2 hc
      · exact absurd hc (hno c)
    | none =>
      have hnone : ∀ c, ¬ WrittenAt st r startTs false c := hint
      simp [hno, hnone]

theorem range_query_sampleBatches :
    Function.Injective markedParts ∧
    ((∃ hit, sequencerRangeQueryIn (applySequencerOps (fun _ => markedParts) .empty sampleBatches).1 [6]
      [] 1 0 = .hit hit) ↔
      ∃ point c, WrittenAt (applySequencerOps (fun _ => markedParts) .empty sampleBatches).1 ⟨[6], []⟩ 1 point c) :=
  ⟨markedParts_injective, (@range_query_max_iff (fun _ => markedParts) markedParts_injective sampleBatches ⟨[6],
    []⟩ 1).1⟩

/-- The key `7` is put at `2` and deleted with its neighbours at `4`: the query reports `2`. -/
theorem range_query_reports_earlier :
    let st := (applySequencerOps (fun _ => markedParts) .empty sampleBatches).1
    sequencerRangeQueryIn st [6] [] 1 0 = .hit ⟨[7], 2⟩ ∧
      st.decisions.get 4 = some ⟨[3], [5], 3, 4, [.deleteRange [7] [9]]⟩ ∧
      ReadMeets ⟨[6], []⟩ (.deleteRange [7] [9]) :=
  ⟨by decide +kernel, by decide +kernel, .inl rfl, .inl rfl, .inr (by decide)⟩

end

end Coord.Storage
