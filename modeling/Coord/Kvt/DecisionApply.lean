import Coord.Storage.RegionTiling
import Coord.Storage.RowSteps

/-!
# The applier of commit decisions

Every Region gets the decision log of the system Region, each decision cut to the Region's keys, in batches from its
own cursor on.  A batch that comes again starts at or before the cursor, and what is not above the cursor is skipped.
The rows of a Region are those that the whole log would give one store.
-/

namespace Coord.Kvt.DecisionApply

open Coord.Lib Coord.Storage Store List
open Coord.Raft (SequencerMutation)

/-! ### Clipping -/

/-- The part of `[start, stop)` in the Region; an empty end is no upper bound on either side. -/
def clipRange (region : RegionMeta) (start stop : Bytes) : Option (Bytes × Bytes) :=
  let clipStart := max start region.startKey
  let clipEnd := if stop = [] then region.endKey
    else if region.endKey = [] then stop
    else min stop region.endKey
  if clipEnd = [] ∨ clipStart < clipEnd then some (clipStart, clipEnd) else none

def clipMutation (region : RegionMeta) : SequencerMutation → Option SequencerMutation
  | .put key value leaseId => if region.containsKey key then some (.put key value leaseId) else none
  | .delete key => if region.containsKey key then some (.delete key) else none
  | .deleteRange start stop => (clipRange region start stop).map fun r => .deleteRange r.1 r.2

/-- The size of a mutation, as the batches count it. -/
def mutationBytes : SequencerMutation → ℕ
  | .put key value _ => key.length + value.length + 24
  | .delete key => key.length + 16
  | .deleteRange start stop => start.length + stop.length + 32

def clipDecision (region : RegionMeta) (d : SequencerDecision) : CommitDecisionApplyLog where
  shardId := commitLogStagingShardId
  regionId := region.regionId
  commitTs := d.commitTs
  txnId := d.txnId
  startTs := d.startTs
  mutations := d.mutations.filterMap (clipMutation region)

/-- The loop over the decisions; the first is taken whatever its size. -/
def batchLoop (region : RegionMeta) (maxBytes : ℕ) (isFirst : Bool) (bytes : ℕ) :
    List SequencerDecision → List CommitDecisionApplyLog
  | [] => []
  | d :: rest =>
    let log := clipDecision region d
    let size := 24 + (log.mutations.map mutationBytes).sum
    if isFirst = false ∧ max maxBytes 1 < bytes + size then []
    else log :: batchLoop region maxBytes false (bytes + size) rest

def buildApplyBatch (decisions : List SequencerDecision) (region : RegionMeta) (batch maxBytes : ℕ) :
    List CommitDecisionApplyLog := batchLoop region maxBytes true 0 (decisions.take batch)

/-- The decisions after a timestamp, at least one of them. -/
def sequencerDecisionsAfter (log : List SequencerDecision) (afterTs limit : ℕ) : List SequencerDecision :=
  (log.filter fun d => decide (afterTs < d.commitTs)).take (max limit 1)

variable (region : RegionMeta)

lemma batchLoop_eq (maxBytes : ℕ) (isFirst : Bool) (bytes : ℕ) (ds : List SequencerDecision) :
    ∃ n, batchLoop region maxBytes isFirst bytes ds = (ds.take n).map (clipDecision region) := by
  induction ds generalizing isFirst bytes with
  | nil => exact ⟨0, rfl⟩
  | cons d ds ih =>
    rw [batchLoop]
    split
    · exact ⟨0, rfl⟩
    · obtain ⟨n, hn⟩ := ih false (bytes + (24 + ((clipDecision region d).mutations.map mutationBytes).sum))
      exact ⟨n + 1, by rw [hn]; rfl⟩

lemma buildApplyBatch_eq (log : List SequencerDecision) (region : RegionMeta) (afterTs batch maxBytes : ℕ) :
    ∃ n, buildApplyBatch (sequencerDecisionsAfter log afterTs batch) region batch maxBytes =
      (((log.filter fun d => decide (afterTs < d.commitTs)).take n).map (clipDecision region)) := by
  obtain ⟨n, hn⟩ := batchLoop_eq region maxBytes true 0
    ((sequencerDecisionsAfter log afterTs batch).take batch)
  refine ⟨min (min n batch) (max batch 1), ?_⟩
  rw [buildApplyBatch, hn, sequencerDecisionsAfter, take_take, take_take]

/-! ### One key -/

lemma inRange_iff {start stop k : Bytes} : inRange start stop k = true ↔ start ≤ k ∧ (stop = [] ∨ k < stop) :=
  decide_eq_true_iff

lemma clipEnd_iff (stop k : Bytes) :
    ((if stop = [] then region.endKey else if region.endKey = [] then stop else min stop region.endKey) = [] ∨
      k < if stop = [] then region.endKey else if region.endKey = [] then stop else min stop region.endKey) ↔
      (stop = [] ∨ k < stop) ∧ (region.endKey = [] ∨ k < region.endKey) := by
  by_cases hs : stop = []
  · simp [hs]
  by_cases he : region.endKey = []
  · simp [hs, he]
  · have hmin : min stop region.endKey ≠ [] := by
      rcases min_choice stop region.endKey with h | h <;> rw [h] <;> assumption
    simp [hs, he, hmin]

lemma inRange_clip {region : RegionMeta} {start stop k : Bytes} :
    (∃ r, clipRange region start stop = some r ∧ inRange r.1 r.2 k = true) ↔
      inRange start stop k = true ∧ region.containsKey k = true := by
  have hboth := clipEnd_iff region stop k
  have hmax : max start region.startKey ≤ k ↔ start ≤ k ∧ region.startKey ≤ k := max_le_iff
  simp only [clipRange, RegionMeta.containsKey, inRange_iff]
  generalize (if stop = [] then region.endKey
    else if region.endKey = [] then stop else min stop region.endKey) = clipEnd
    at hboth ⊢
  constructor
  · rintro ⟨r, hr, hstart, hend⟩
    split at hr
    · cases hr
      obtain ⟨h₁, h₂⟩ := hboth.1 hend
      exact ⟨⟨(hmax.1 hstart).1, h₁⟩, (hmax.1 hstart).2, h₂⟩
    · cases hr
  · rintro ⟨⟨h₁, h₂⟩, h₃, h₄⟩
    have hend := hboth.2 ⟨h₂, h₄⟩
    have hstart := hmax.2 ⟨h₁, h₃⟩
    refine ⟨_, if_pos ?_, hstart, hend⟩
    exact hend.imp id fun h => hstart.trans_lt h

/-- **A cut mutation** does to a key of the Region what the mutation does, and nothing to another key. -/
theorem mutateRow_clip (k : Bytes) (ts : ℕ) (row : KeyRow) (m : SequencerMutation) :
    ((clipMutation region m).map (mutateRow ts k row)).getD row =
      if region.containsKey k = true then mutateRow ts k row m else row := by
  cases m with
  | put key | delete key =>
    rw [clipMutation]
    by_cases hkey : k = key
    · subst hkey
      split <;> rfl
    · split <;> simp [mutateRow, hkey]
  | deleteRange start stop =>
    have hclip := @inRange_clip region start stop k
    cases hr : clipRange region start stop with
    | none =>
      have hout : ¬ (inRange start stop k = true ∧ region.containsKey k = true) := fun h => by
        obtain ⟨r, hr', -⟩ := hclip.2 h
        rw [hr] at hr'
        cases hr'
      simp only [clipMutation, hr, mutateRow]
      split_ifs with hk hin
      · exact absurd ⟨hin.1, hk⟩ hout
      all_goals rfl
    | some r =>
      have hiff : inRange r.1 r.2 k = true ↔ inRange start stop k = true ∧ region.containsKey k = true := by
        rw [← hclip, hr]
        simp
      by_cases hk : region.containsKey k = true <;> simp [clipMutation, hr, mutateRow, hiff, hk]

lemma foldl_filterMap_clip {region : RegionMeta} (f : KeyRow → SequencerMutation → KeyRow) (row : KeyRow)
    (ms : List SequencerMutation) : (ms.filterMap (clipMutation region)).foldl f row =
      ms.foldl (fun row m => ((clipMutation region m).map (f row)).getD row) row := by
  induction ms generalizing row with
  | nil => rfl
  | cons m ms ih =>
    cases hm : clipMutation region m with
    | none => simp [hm, ih]
    | some m' => simp [hm, ih]

def decideRow (k : Bytes) (row : KeyRow) (views : List DecisionView) : KeyRow :=
  views.foldl (fun row v => v.mutations.foldl (mutateRow v.commitTs k) row) row

/-- A decision as one store gets it, and as a Region gets it. -/
def wholeView (d : SequencerDecision) : DecisionView := .plain ⟨d.commitTs, d.mutations⟩

def clippedView (region : RegionMeta) (d : SequencerDecision) : DecisionView := .logged (clipDecision region d)

lemma decideRow_clip (k : Bytes) (row : KeyRow) (ds : List SequencerDecision) :
    decideRow k row (ds.map (clippedView region)) =
      if region.containsKey k = true then decideRow k row (ds.map wholeView) else row := by
  induction ds generalizing row with
  | nil => exact (ite_self _).symm
  | cons d ds ih =>
    have hd : ((clippedView region d).mutations).foldl (mutateRow d.commitTs k) row =
        if region.containsKey k = true then d.mutations.foldl (mutateRow d.commitTs k) row else row := by
      refine (foldl_filterMap_clip _ row d.mutations).trans ?_
      simp only [mutateRow_clip]
      split_ifs
      · rfl
      · exact foldl_fixed _
    refine (congrArg (decideRow k · (ds.map (clippedView region))) hd).trans ((ih _).trans ?_)
    split_ifs <;> rfl

/-! ### One batch -/

def cursorAfter (cursor : ℕ) (views : List DecisionView) : ℕ := views.foldl (fun c v => max c v.commitTs) cursor

/-- The loop stands at its cursor: nothing above it is in the changelog. -/
structure AtCursor (l : Store.DecisionLoop) : Prop where
  current : l.current = l.through
  changelog : ∀ ts, l.store.changelog.has ts = true → ts ≤ l.through
  previous : ∀ p ∈ l.previous, p ≤ l.through

section

variable {size : CommitRecord → ℕ} {maxTxnBytes : ℕ}

lemma changelog_deleteKeys (s : Store) (keys : List Bytes) (r : ℕ) :
    (s.deleteKeys keys r).changelog = s.changelog := by
  induction keys generalizing s with
  | nil => rfl
  | cons key keys ih =>
    have hkey : (s.writeDelete key r).changelog = s.changelog := by
      unfold writeDelete
      split <;> rfl
    exact (ih (s.writeDelete key r)).trans hkey

lemma changelog_applyMutations (s : Store) (ts : ℕ) (ms : List SequencerMutation) :
    (s.applyMutations ts ms).1.changelog = s.changelog := by
  induction ms generalizing s with
  | nil => rfl
  | cons m ms ih =>
    have hm : (s.applyMutation ts m).1.changelog = s.changelog := by
      cases m with
      | put key value leaseId => rfl
      | delete key => exact changelog_deleteKeys s [key] ts
      | deleteRange start stop => exact changelog_deleteKeys s _ ts
    exact (ih (s.applyMutation ts m).1).trans hm

lemma changelog_applyDecision {s : Store} {view : DecisionView} {ts : ℕ}
    (h : (s.applyDecision size maxTxnBytes view).changelog.has ts = true) :
    s.changelog.has ts = true ∨ ts = view.commitTs := by
  obtain ⟨changelog, log, heq, hlog⟩ := applyDecision_frame size maxTxnBytes s view
  rw [heq] at h
  rw [changelog_applyMutations] at hlog
  rcases hlog with rfl | ⟨event, rfl⟩
  · exact .inl h
  obtain ⟨e, he⟩ := Table.has_iff.1 h
  rcases Table.get_insert_cases he with ⟨hts, -⟩ | ⟨-, he⟩
  · exact .inr hts
  · exact .inl (Table.has_iff.2 ⟨e, he⟩)

lemma applyDecisionLoop_atCursor {l : Store.DecisionLoop} (hl : AtCursor l) {views : List DecisionView}
    (hsorted : views.Pairwise fun a b => a.commitTs < b.commitTs) :
    AtCursor (applyDecisionLoop size maxTxnBytes l views) ∧
      (applyDecisionLoop size maxTxnBytes l views).through = cursorAfter l.through views ∧
      ∀ k, (applyDecisionLoop size maxTxnBytes l views).store.row k =
        decideRow k (l.store.row k) (views.filter fun v => decide (l.through < v.commitTs)) := by
  induction views generalizing l with
  | nil => exact ⟨hl, rfl, fun k => rfl⟩
  | cons view views ih =>
    obtain ⟨hhead, htail⟩ := pairwise_cons.1 hsorted
    unfold applyDecisionLoop
    dsimp only
    split
    · next hle =>
      obtain ⟨h₁, h₂, h₃⟩ := ih hl htail
      refine ⟨h₁, ?_, fun k => ?_⟩
      · rw [h₂]
        exact congrArg (cursorAfter · views) (Nat.max_eq_left hle).symm
      · rw [h₃, filter_cons_of_neg (by simpa using hle)]
    next hgt =>
    have hgt : l.through < view.commitTs := not_le.1 hgt
    -- the decision is above the cursor, so neither the order nor the changelog holds it up
    have hprev : ¬ (l.previous.any fun p => decide (view.commitTs ≤ p)) = true := by
      intro h
      cases hp : l.previous with
      | none => simp [hp] at h
      | some p =>
        have := hl.previous p hp
        simp only [hp, Option.any_some, decide_eq_true_eq] at h
        omega
    have hstep : decisionStep l.store l.current view = .applied := by
      have hnone : l.store.changelog.get view.commitTs = none := by
        by_contra hsome
        obtain ⟨event, hevent⟩ := Option.ne_none_iff_exists'.1 hsome
        have := hl.changelog view.commitTs (Table.has_iff.2 ⟨event, hevent⟩)
        omega
      have hcur : ¬ view.commitTs ≤ l.current := by
        rw [hl.current]
        omega
      simp only [decisionStep, hnone, if_neg hcur]
    rw [if_neg hprev, hstep]
    dsimp only
    have hl₁ : AtCursor ⟨l.store.applyDecision size maxTxnBytes view, view.commitTs, view.commitTs, l.count + 1,
        some view.commitTs⟩ := by
      refine ⟨rfl, fun ts hts => ?_, fun p hp => (Option.some.inj hp).symm.le⟩
      rcases changelog_applyDecision hts with h | h
      · exact (hl.changelog ts h).trans hgt.le
      · exact h.le
    obtain ⟨h₁, h₂, h₃⟩ := ih hl₁ htail
    refine ⟨h₁, ?_, fun k => ?_⟩
    · rw [h₂]
      exact congrArg (cursorAfter · views) (Nat.max_eq_right hgt.le).symm
    · have hall : ∀ c, c ≤ view.commitTs → views.filter (fun v => decide (c < v.commitTs)) = views := fun c hc =>
        filter_eq_self.2 fun v hv => by simpa using hc.trans_lt (hhead v hv)
      rw [h₃, row_applyDecision, filter_cons_of_pos (by simpa using hgt), hall _ hgt.le, hall _ le_rfl]
      rfl

/-- A store that only decisions have written: its revision is its cursor. -/
structure Follows (s : Store) : Prop where
  revision : s.currentRevision .commitTs = s.lastAppliedDecisionTs
  changelog : ∀ ts, s.changelog.has ts = true → ts ≤ s.lastAppliedDecisionTs

lemma follows_empty : Follows Store.empty := ⟨rfl, fun _ h => nomatch h⟩

lemma applyCommitDecisionsCore_follows {s : Store} (hs : Follows s) {views : List DecisionView}
    (hsorted : views.Pairwise fun a b => a.commitTs < b.commitTs) (revision : ℕ) (applied : AppliedLogId) :
    Follows (s.applyCommitDecisionsCore size .commitTs views revision applied maxTxnBytes).1 ∧
      (s.applyCommitDecisionsCore size .commitTs views revision applied maxTxnBytes).1.lastAppliedDecisionTs =
        cursorAfter s.lastAppliedDecisionTs views ∧
      ∀ k, (s.applyCommitDecisionsCore size .commitTs views revision applied maxTxnBytes).1.row k =
        decideRow k (s.row k) (views.filter fun v => decide (s.lastAppliedDecisionTs < v.commitTs)) := by
  let l₀ : DecisionLoop := ⟨s, s.currentRevision .commitTs, s.lastAppliedDecisionTs, 0, none⟩
  have hl : AtCursor l₀ := ⟨hs.revision, hs.changelog, fun p hp => nomatch hp⟩
  obtain ⟨hat, hthrough, hrow⟩ := @applyDecisionLoop_atCursor size maxTxnBytes _ hl views hsorted
  obtain ⟨hhead, -, hle⟩ := applyDecisionLoop_head size maxTxnBytes views l₀
  obtain ⟨cursor, row, heq, hcursor, hrev⟩ := @finishDecisions_eq .commitTs s _ revision applied
    (congrArg decisionApplied (rest_applyDecisionLoop size maxTxnBytes views l₀) : _) hle
  have hnow : (applyDecisionLoop size maxTxnBytes l₀ views).store.currentRevision .commitTs =
      s.lastAppliedDecisionTs := by
    rw [← hs.revision]
    unfold currentRevision
    rw [hhead.revision]
  rw [heq, hat.current, hnow, max_self, max_eq_right hle] at hrev
  rw [show (s.applyCommitDecisionsCore size .commitTs views revision applied maxTxnBytes).1 = _ from heq]
  exact ⟨⟨(hrev rfl).trans hcursor.symm, fun ts hts => (hat.changelog ts hts).trans hcursor.ge⟩,
    hcursor.trans hthrough, hrow⟩

end

/-! ### Rounds -/

/-- In a sorted list, the elements up to the last of a segment that starts at or before `c` are those up to `c` and
the rest of the segment. -/
lemma filter_le_append {α : Type} (f : α → ℕ) {l : List α} (hl : l.Pairwise fun x y => f x < f y) {a c : ℕ}
    (hac : a ≤ c) (n : ℕ) :
    l.filter (fun x => decide (f x ≤ ((l.filter fun x => decide (a < f x)).take n).foldl (fun c x => max c (f x)) c)) =
      l.filter (fun x => decide (f x ≤ c)) ++
        ((l.filter fun x => decide (a < f x)).take n).filter fun x => decide (c < f x) := by
  have hsplit := hl.filter fun x => decide (a < f x)
  rw [← take_append_drop n (l.filter _), pairwise_append] at hsplit
  have hseg := fun x (hx : x ∈ (l.filter fun x => decide (a < f x)).take n) => (mem_filter.1 (mem_of_mem_take hx)).1
  obtain ⟨hc, hle, hmax⟩ := foldl_max_spec f ((l.filter fun x => decide (a < f x)).take n) c
  refine eq_of_mem_iff (hl.filter _) (pairwise_append.2 ⟨hl.filter _, hsplit.1.filter _, ?_⟩) fun x => ?_
  · simp only [mem_filter, decide_eq_true_eq]
    omega
  · simp only [mem_append, mem_filter, decide_eq_true_eq]
    refine ⟨fun ⟨hx, hxm⟩ => ?_, fun h => h.elim (fun h => ⟨h.1, h.2.trans hc⟩) fun h => ⟨hseg x h.1, hle x h.1⟩⟩
    by_cases hxc : f x ≤ c
    · exact .inl ⟨hx, hxc⟩
    -- the bound is in the segment, and what comes after the segment is above it
    obtain ⟨y, hy, hym⟩ := hmax.resolve_left (by omega)
    have hmem : x ∈ l.filter fun x => decide (a < f x) := mem_filter.2 ⟨hx, decide_eq_true (by omega)⟩
    rw [← take_append_drop n (l.filter _), mem_append] at hmem
    refine .inr ⟨hmem.resolve_right fun hdrop => ?_, by omega⟩
    have := hsplit.2.2 y hy x hdrop
    omega

/-- One round of the applier for a Region: where it reads the decision log from, its limits, and the entry of the
Region's log that carries the batch. -/
structure ApplyRound where
  afterTs : ℕ
  batch : ℕ
  maxBytes : ℕ
  maxTxnBytes : ℕ
  logId : AppliedLogId

section

variable (size : CommitRecord → ℕ) (log : List SequencerDecision) (region : RegionMeta)

def applyRound (s : Store) (r : ApplyRound) : Store × CommitDecisionApplyResult :=
  s.applyCommitDecisionsWithLog size .commitTs
    (buildApplyBatch (sequencerDecisionsAfter log r.afterTs r.batch) region r.batch r.maxBytes) r.logId.index r.logId
    r.maxTxnBytes

/-- A round reads from the cursor of the Region, or from an earlier one when it comes late or again. -/
def FromCursor (s : Store) (r : ApplyRound) : Prop := r.afterTs ≤ s.lastAppliedDecisionTs

instance (s : Store) (r : ApplyRound) : Decidable (FromCursor s r) :=
  inferInstanceAs (Decidable (_ ≤ _))

def decided (cursor : ℕ) : List SequencerDecision :=
  (log.filter fun d => decide (0 < d.commitTs)).filter fun d => decide (d.commitTs ≤ cursor)

/-- The rows of the Region are those of the decisions up to its cursor, cut to the Region. -/
structure Applied (s : Store) : Prop where
  follows : Follows s
  row : ∀ k, s.row k = decideRow k (none, none) ((decided log s.lastAppliedDecisionTs).map (clippedView region))

variable {size log region}

lemma applied_empty : Applied log region Store.empty where
  follows := follows_empty
  row k := by
    have hnil : decided log Store.empty.lastAppliedDecisionTs = [] := by
      refine filter_eq_nil_iff.2 fun d hd => ?_
      have hpos := (mem_filter.1 hd).2
      rw [decide_eq_true_eq] at hpos ⊢
      exact Nat.not_le.2 hpos
    rw [hnil]
    rfl

section

variable (hlog : log.Pairwise fun a b => a.commitTs < b.commitTs)
include hlog

lemma Applied.round {s : Store} {r : ApplyRound}
    (hs : Applied log region s) (hr : FromCursor s r) : Applied log region (applyRound size log region s r).1 := by
  obtain ⟨n, hbatch⟩ := buildApplyBatch_eq log region r.afterTs r.batch r.maxBytes
  -- decisions after a timestamp are positive
  have hpos : (log.filter fun d => decide (r.afterTs < d.commitTs)) =
      (log.filter fun d => decide (0 < d.commitTs)).filter fun d => decide (r.afterTs < d.commitTs) := by
    rw [filter_filter]
    refine filter_congr fun d _ => ?_
    rw [Bool.eq_iff_iff]
    simp only [Bool.and_eq_true, decide_eq_true_eq]
    omega
  set seg := ((log.filter fun d => decide (0 < d.commitTs)).filter fun d => decide (r.afterTs < d.commitTs)).take n
  have hpayload : (buildApplyBatch (sequencerDecisionsAfter log r.afterTs r.batch) region r.batch r.maxBytes).map
      DecisionView.logged = seg.map (clippedView region) := by
    rw [hbatch, hpos, map_map]
    rfl
  have hsub : seg.Sublist log :=
    (take_sublist _ _).trans (filter_sublist.trans filter_sublist)
  have hsorted : (seg.map (clippedView region)).Pairwise fun a b => a.commitTs < b.commitTs :=
    pairwise_map.2 (hlog.sublist hsub)
  obtain ⟨hfollows, hcursor, hrow⟩ := @applyCommitDecisionsCore_follows size r.maxTxnBytes s hs.follows _ hsorted
    r.logId.index r.logId
  have hstore : (applyRound size log region s r).1 =
      (s.applyCommitDecisionsCore size .commitTs (seg.map (clippedView region)) r.logId.index r.logId
        r.maxTxnBytes).1 := by
    rw [applyRound, applyCommitDecisionsWithLog, hpayload]
  rw [hstore]
  refine ⟨hfollows, fun k => ?_⟩
  have hafter : cursorAfter s.lastAppliedDecisionTs (seg.map (clippedView region)) =
      seg.foldl (fun c d => max c d.commitTs) s.lastAppliedDecisionTs := foldl_map
  have happend := filter_le_append SequencerDecision.commitTs
    (hlog.sublist (filter_sublist (p := fun d => decide (0 < d.commitTs)))) hr n
  rw [hrow k, hcursor, hafter, decided, happend, hs.row k, map_append]
  have hviews : (seg.map (clippedView region)).filter (fun v => decide (s.lastAppliedDecisionTs < v.commitTs)) =
      (seg.filter fun d => decide (s.lastAppliedDecisionTs < d.commitTs)).map (clippedView region) := by
    rw [filter_map]
    rfl
  rw [hviews]
  exact foldl_append.symm

variable {rounds : List ApplyRound}

theorem rows_rounds (hrounds : Along (applyRound size log region) FromCursor Store.empty rounds) :
    Applied log region (exec (applyRound size log region) Store.empty rounds) :=
  (along_inv (Applied log region) FromCursor applied_empty hrounds fun _ _ hr hs => hs.round hlog hr).1

lemma row_of_rounds (hrounds : Along (applyRound size log region) FromCursor Store.empty rounds)
    (hall : ∀ d ∈ log,
      d.commitTs ≤ (exec (applyRound size log region) Store.empty rounds).lastAppliedDecisionTs) (k : Bytes) :
    (exec (applyRound size log region) Store.empty rounds).row k =
      decideRow k (none, none) ((log.filter fun d => decide (0 < d.commitTs)).map (clippedView region)) := by
  rw [(rows_rounds hlog hrounds).row k, decided, filter_eq_self.2]
  intro d hd
  exact decide_eq_true (hall d (mem_filter.1 hd).1)

end

def wholeLog (size : CommitRecord → ℕ) (log : List SequencerDecision) (applied : AppliedLogId) : Store :=
  (Store.empty.applyCommitDecisions size .commitTs (log.map fun d => ⟨d.commitTs, d.mutations⟩) applied.index
    applied).1

lemma row_wholeLog (hlog : log.Pairwise fun a b => a.commitTs < b.commitTs) (applied : AppliedLogId) (k : Bytes) :
    (wholeLog size log applied).row k =
      decideRow k (none, none) ((log.filter fun d => decide (0 < d.commitTs)).map wholeView) := by
  have hviews : (log.map fun d => (⟨d.commitTs, d.mutations⟩ : CommitDecisionApply)).map DecisionView.plain =
      log.map wholeView := map_map
  have hsorted : (log.map wholeView).Pairwise fun a b => a.commitTs < b.commitTs := pairwise_map.2 hlog
  obtain ⟨-, -, hrow⟩ := @applyCommitDecisionsCore_follows size 0 Store.empty follows_empty _ hsorted
    applied.index applied
  rw [wholeLog, applyCommitDecisions, hviews, hrow k, filter_map]
  rfl

/-- **The Regions together hold what one store would**: a key's row in its Region, with its value, versions and
revisions, is the row that the whole log gives one store, and the other Regions have no row for the key. -/
theorem clipped_log_rows {size : CommitRecord → ℕ} {log : List SequencerDecision} {regions : List RegionMeta}
    (htiles : Tiles regions) (hne : regions ≠ []) (hlog : log.Pairwise fun a b => a.commitTs < b.commitTs)
    {rounds : RegionMeta → List ApplyRound}
    (hrounds : ∀ m ∈ regions, Along (applyRound size log m) FromCursor Store.empty (rounds m))
    (hall : ∀ m ∈ regions, ∀ d ∈ log,
      d.commitTs ≤ (exec (applyRound size log m) Store.empty (rounds m)).lastAppliedDecisionTs)
    (applied : AppliedLogId) (k : Bytes) :
    ∃ m ∈ regions, m.containsKey k = true ∧
      (exec (applyRound size log m) Store.empty (rounds m)).row k = (wholeLog size log applied).row k ∧
      ∀ m' ∈ regions, m' ≠ m → (exec (applyRound size log m') Store.empty (rounds m')).row k = (none, none) := by
  obtain ⟨m, hm, hkey, honly⟩ := htiles.existsUnique hne k
  refine ⟨m, hm, hkey, ?_, fun m' hm' hother => ?_⟩
  · rw [row_of_rounds hlog (hrounds m hm) (hall m hm), row_wholeLog hlog, decideRow_clip, if_pos hkey]
  · rw [row_of_rounds hlog (hrounds m' hm') (hall m' hm'), decideRow_clip, if_neg fun h => hother (honly m' hm' h)]

/-- Two Regions that meet at `m`. -/
def twoRegions : List RegionMeta :=
  [⟨1, [], [109], ⟨1, 1⟩, [], 0, 0⟩, ⟨2, [109], [], ⟨1, 1⟩, [], 0, 0⟩]

/-- A write on either side, then a delete from the first on and a write of the second again. -/
def acrossLog : List SequencerDecision :=
  [⟨[1], [], 1, 5, [.put [97] [1] none, .put [110] [2] none]⟩,
    ⟨[2], [], 6, 7, [.deleteRange [97] [], .put [110] [3] none]⟩]

/-- The first decision alone, and again with the second. -/
def twoRounds : List ApplyRound := [⟨0, 1, 1024, 0, ⟨1, 1, 1⟩⟩, ⟨0, 2, 1024, 0, ⟨1, 1, 2⟩⟩]

theorem clipped_log_rows_across :
    (∀ m ∈ twoRegions, Along (applyRound (fun _ => 0) acrossLog m) FromCursor Store.empty twoRounds) ∧
    ∃ m ∈ twoRegions, m.containsKey [110] = true ∧
      (exec (applyRound (fun _ => 0) acrossLog m) Store.empty twoRounds).row [110] =
        (wholeLog (fun _ => 0) acrossLog ⟨1, 1, 1⟩).row [110] ∧
      ∀ m' ∈ twoRegions, m' ≠ m →
        (exec (applyRound (fun _ => 0) acrossLog m') Store.empty twoRounds).row [110] = (none, none) :=
  ⟨by decide +kernel,
    @clipped_log_rows (fun _ => 0) acrossLog twoRegions (RegionTable.tiles_of_validate (t := ⟨1, twoRegions⟩)
      (by decide)) (by decide) (by decide) (fun _ => twoRounds) (by decide +kernel) (by decide +kernel) _ _⟩

end

end Coord.Kvt.DecisionApply
