import Coord.Approval.Bridge
import Coord.Approval.EngineRuns

/-!
# Votes

A branch passes by the votes of its seats.  The engine alone lets a round without approval seats pass; the commands that
the bridge gives never open one, so what has passed has an approval.

* `Fair`, `Seated` — what the bridge keeps of an aggregate;
* `Calm` — a change by which nobody votes and no branch passes;
* `Cast` — when a vote may be given;
* `follows_step` — what one command of the bridge does to the votes.
-/

namespace Coord.Approval

open Coord.Lib Table Option

/-! ### Policies -/

/-- No round meets the policy without an approval. -/
def JoinPolicy.Positive : JoinPolicy → Prop
  | .all | .any => True
  | .quorum n => 0 < n
  | .ratio num _ => 0 < num

variable {join : JoinPolicy}

lemma parseJoinPolicy_positive {s : Bytes} (h : parseJoinPolicy s = some join) : join.Positive := by
  unfold parseJoinPolicy at h
  split_ifs at h
  · cases h
    trivial
  · cases h
    trivial
  split at h
  · obtain ⟨n, -, hn⟩ := bind_eq_some_iff.1 h
    split_ifs at hn with h0
    cases hn
    exact Nat.pos_of_ne_zero h0
  · obtain ⟨rest, -, h⟩ := bind_eq_some_iff.1 h
    obtain ⟨p, -, h⟩ := bind_eq_some_iff.1 h
    obtain ⟨num, -, h⟩ := bind_eq_some_iff.1 h
    obtain ⟨den, -, h⟩ := bind_eq_some_iff.1 h
    split_ifs at h with h0
    cases h
    exact h0.1

lemma ApproveTask.positive (task : ApproveTask) : task.mode.Positive := by
  rcases task.parsed with h | ⟨s, h⟩
  · rw [h]
    trivial
  · exact parseJoinPolicy_positive h

lemma completedCount_of_passed {b : Branch} (hjoin : b.join.Positive) {approvals : List Task} (hne : approvals ≠ [])
    (h : verdict b approvals = some .passed) : 0 < completedCount approvals := by
  unfold verdict at h
  dsimp only at h
  split_ifs at h with hreject hall htotal hpasses
  · cases h
  · omega
  · cases hj : b.join with
    | all =>
      rw [hj] at hpasses
      cases hpasses
    | any =>
      rw [hj] at hpasses
      exact of_decide_eq_true hpasses
    | quorum n =>
      rw [hj] at hpasses hjoin
      exact lt_of_lt_of_le hjoin (of_decide_eq_true hpasses)
    | ratio num den =>
      rw [hj] at hpasses hjoin
      have hle : totalCount approvals * num ≤ completedCount approvals * den := of_decide_eq_true hpasses
      exact Nat.pos_of_mul_pos_right (lt_of_lt_of_le (Nat.mul_pos htotal hjoin) hle)
  · cases h

variable {t' : Task}

namespace Engine

/-! ### What the bridge keeps -/

def HasVote (e : Engine) (bid : Id) : Prop :=
  ∃ k t, e.tasks.get k = some t ∧ t.branchId = bid ∧ t.kind = .approval ∧ t.status = .completed ∧
    ∃ v ∈ t.votes, v.decision = .approve

/-- Nothing on the seat comes from the initiator. -/
def NotBy (t : Task) (initiator : Principal) : Prop :=
  (∀ v ∈ t.votes, v.actor ≠ initiator ∧ v.onBehalfOf ≠ some initiator) ∧
    ∀ d, t.delegation = some d → d.delegator ≠ initiator

/-- Thresholds are positive, seats have holders, a seat that has approved has a vote for it, and so has a branch that
has passed; where the node forbids it, nothing comes from the initiator. -/
structure Fair (e : Engine) : Prop where
  join : ∀ k b, e.branches.get k = some b → b.join.Positive
  held : ∀ k t, e.tasks.get k = some t → t.assignee ≠ none ∨ t.candidates ≠ []
  voted : ∀ k t, e.tasks.get k = some t → t.kind = .approval → t.status = .completed →
    ∃ v ∈ t.votes, v.decision = .approve
  passed : ∀ k b, e.branches.get k = some b → b.status = .completed → e.HasVote k
  own : ∀ k t b, e.tasks.get k = some t → e.branches.get t.branchId = some b → b.policy.allowSelfApprove = false →
    e.inst.initiator ≠ anonymous → NotBy t e.inst.initiator

def SeatOf (e : Engine) (rid : Id) : Prop := ∃ k t, e.tasks.get k = some t ∧ t.roundId = rid ∧ t.kind = .approval

def Seated (e : Engine) : Prop := ∀ k r, e.rounds.get k = some r → e.SeatOf k

/-! ### Changes without a vote -/

/-- The seat is the same with the same votes, and perhaps cancelled. -/
structure Kept (t t' : Task) : Prop where
  branchId : t'.branchId = t.branchId
  roundId : t'.roundId = t.roundId
  kind : t'.kind = t.kind
  assignee : t'.assignee = t.assignee
  candidates : t'.candidates = t.candidates
  delegation : t'.delegation = t.delegation
  votes : t'.votes = t.votes
  status : t'.status = t.status ∨ (t.status.isOpen = true ∧ t'.status = .cancelled)

lemma Kept.refl (t : Task) : Kept t t := ⟨rfl, rfl, rfl, rfl, rfl, rfl, rfl, .inl rfl⟩

lemma Kept.trans (t u w : Task) (h : Kept t u) (h' : Kept u w) : Kept t w where
  branchId := h'.branchId.trans h.branchId
  roundId := h'.roundId.trans h.roundId
  kind := h'.kind.trans h.kind
  assignee := h'.assignee.trans h.assignee
  candidates := h'.candidates.trans h.candidates
  delegation := h'.delegation.trans h.delegation
  votes := h'.votes.trans h.votes
  status := by
    rcases h.status with hs | ⟨ho, hs⟩
    · rw [← hs]
      exact h'.status
    · rcases h'.status with hs' | ⟨ho', -⟩
      · exact .inr ⟨ho, hs'.trans hs⟩
      · rw [hs] at ho'
        cases ho'

variable {t : Task} {rid : Id}

lemma Kept.completed (h : Kept t t') : t'.status = .completed ↔ t.status = .completed := by
  rcases h.status with hs | ⟨ho, hs⟩
  · rw [hs]
  rw [hs]
  constructor
  · intro hc
    cases hc
  · intro hc
    rw [hc] at ho
    cases ho

/-- Nobody votes, no row is new, and only the branches in `X` can pass. -/
structure Calm (X : Id → Prop) (e e' : Engine) : Prop where
  initiator : e'.inst.initiator = e.inst.initiator
  branches : ∀ k b', e'.branches.get k = some b' → ∃ b, e.branches.get k = some b ∧ b'.join = b.join ∧
    b'.policy = b.policy ∧
    (b'.status = .completed → b.status = .completed ∨ X k)
  rounds : ∀ k r', e'.rounds.get k = some r' → ∃ r, e.rounds.get k = some r
  tasks : e.tasks.Maps Kept e'.tasks

section

variable {X : Id → Prop} {e e' f : Engine}

lemma Calm.of_eq (hinitiator : e'.inst.initiator = e.inst.initiator) (hbranches : e'.branches = e.branches)
    (hrounds : ∀ k r', e'.rounds.get k = some r' → ∃ r, e.rounds.get k = some r) (htasks : e'.tasks = e.tasks) :
    Calm X e e' where
  initiator := hinitiator
  branches _ b' hb' := ⟨b', hbranches ▸ hb', rfl, rfl, .inl⟩
  rounds := hrounds
  tasks := htasks ▸ .refl Kept.refl _

lemma Calm.refl (e : Engine) : Calm X e e := .of_eq rfl rfl (fun _ r hr => ⟨r, hr⟩) rfl

lemma Calm.trans (h : Calm X e f) (h' : Calm X f e') : Calm X e e' where
  initiator := h'.initiator.trans h.initiator
  branches k b' hb' := by
    obtain ⟨c, hc, hjoin', hpolicy', hstatus'⟩ := h'.branches k b' hb'
    obtain ⟨b, hb, hjoin, hpolicy, hstatus⟩ := h.branches k c hc
    exact ⟨b, hb, hjoin'.trans hjoin, hpolicy'.trans hpolicy, fun hs => (hstatus' hs).elim hstatus .inr⟩
  rounds k r' hr' := by
    obtain ⟨s, hs⟩ := h'.rounds k r' hr'
    exact h.rounds k s hs
  tasks := h.tasks.trans Kept.trans h'.tasks

lemma HasVote.of_calm {bid : Id} (h : e.HasVote bid) (hc : Calm X e e') : e'.HasVote bid := by
  obtain ⟨k, t, ht, hbid, hkind, hstatus, v, hv, hd⟩ := h
  obtain ⟨t', ht', hkept⟩ := hc.tasks.forth k t ht
  exact ⟨k, t', ht', hkept.branchId.trans hbid, hkept.kind.trans hkind, hkept.completed.2 hstatus, v,
    hkept.votes ▸ hv, hd⟩

lemma SeatOf.of_calm {rid : Id} (h : e.SeatOf rid) (hc : Calm X e e') : e'.SeatOf rid := by
  obtain ⟨k, t, ht, hround, hkind⟩ := h
  obtain ⟨t', ht', hkept⟩ := hc.tasks.forth k t ht
  exact ⟨k, t', ht', hkept.roundId.trans hround, hkept.kind.trans hkind⟩

lemma Seated.of_calm (h : e.Seated) (hc : Calm X e e') : e'.Seated := fun k r' hr' => by
  obtain ⟨r, hr⟩ := hc.rounds k r' hr'
  exact (h k r hr).of_calm hc

lemma Fair.of_calm (h : e.Fair) (hc : Calm X e e') (hX : ∀ k, X k → e.HasVote k) : e'.Fair where
  join k b' hb' := by
    obtain ⟨b, hb, hjoin, -⟩ := hc.branches k b' hb'
    exact hjoin ▸ h.join k b hb
  held k t' ht' := by
    obtain ⟨t, ht, hkept⟩ := hc.tasks.back k t' ht'
    rw [hkept.assignee, hkept.candidates]
    exact h.held k t ht
  voted k t' ht' hkind hstatus := by
    obtain ⟨t, ht, hkept⟩ := hc.tasks.back k t' ht'
    rw [hkept.votes]
    exact h.voted k t ht (hkept.kind ▸ hkind) (hkept.completed.1 hstatus)
  passed k b' hb' hstatus := by
    obtain ⟨b, hb, -, -, hpassed⟩ := hc.branches k b' hb'
    exact ((hpassed hstatus).elim (h.passed k b hb) (hX k)).of_calm hc
  own k t' b' ht' hb' hoff hknown := by
    obtain ⟨t, ht, hkept⟩ := hc.tasks.back k t' ht'
    obtain ⟨b, hb, -, hpolicy, -⟩ := hc.branches _ b' hb'
    rw [hc.initiator] at hknown ⊢
    unfold NotBy
    rw [hkept.votes, hkept.delegation]
    exact h.own k t b ht (hkept.branchId ▸ hb) (hpolicy ▸ hoff) hknown

end

/-! ### What the helpers change -/

section

variable {X : Id → Prop}

lemma calm_cancelTasks (now : ℤ) (ids : List Id) (e : Engine) : Calm X e (cancelTasks now ids e).1 := by
  induction ids generalizing e with
  | nil => exact .refl e
  | cons id ids ih =>
    rw [cancelTasks]
    split
    · exact ih e
    next t ht =>
    split_ifs with ho
    · have hkept : Kept t { t with status := .cancelled, updatedAt := now } :=
        ⟨rfl, rfl, rfl, rfl, rfl, rfl, rfl, .inr ⟨ho, rfl⟩⟩
      have hcalm : Calm X e { e with tasks := e.tasks.insert id { t with status := .cancelled, updatedAt := now } } :=
        ⟨rfl, fun _ b hb => ⟨b, hb, rfl, rfl, .inl⟩, fun _ r hr => ⟨r, hr⟩, maps_insert Kept.refl ht hkept⟩
      exact hcalm.trans (ih _)
    · exact ih e

variable {e : Engine}

lemma calm_insert_round {k : Id} {r : Round} (hr : e.rounds.get k = some r) (r' : Round) :
    Calm X e { e with rounds := e.rounds.insert k r' } := by
  refine .of_eq rfl rfl (fun j s hs => ?_) rfl
  rw [get_insert] at hs
  split at hs
  · next hj => exact ⟨r, hj ▸ hr⟩
  · exact ⟨s, hs⟩

lemma calm_closeRounds (target : RoundStatus) (now : ℤ) (ids : List Id) (e : Engine) :
    Calm X e (closeRounds target now ids e).1 := by
  induction ids generalizing e with
  | nil => exact .refl e
  | cons id ids ih =>
    rw [closeRounds]
    split
    · exact ih e
    · next r hr => exact (calm_insert_round hr _).trans (ih _)

lemma calm_insert_branch {k : Id} {b b' : Branch} (hb : e.branches.get k = some b) (hjoin : b'.join = b.join)
    (hpolicy : b'.policy = b.policy) (hstatus : b'.status = .completed → b.status = .completed ∨ X k) :
    Calm X e { e with branches := e.branches.insert k b' } := by
  refine ⟨rfl, fun j c hc => ?_, fun _ r hr => ⟨r, hr⟩, .refl Kept.refl _⟩
  rw [get_insert] at hc
  split at hc
  · next hj =>
    cases hc
    exact ⟨b, hj ▸ hb, hjoin, hpolicy, fun hs => hj ▸ hstatus hs⟩
  · exact ⟨c, hc, rfl, rfl, .inl⟩

variable {target : BranchStatus}

lemma calm_setBranchStatus (e : Engine) (bid : Id) (htarget : target ≠ .completed) (now : ℤ) :
    Calm X e (e.setBranchStatus bid target now).1 := by
  unfold setBranchStatus
  split
  · exact .refl e
  · next b hb =>
    split_ifs
    · exact .refl e
    · exact calm_insert_branch hb rfl rfl fun hs => absurd hs htarget

lemma calm_closeBranch (hl : e.Linked) (bid : Id) (htarget : target = .completed → X bid)
    (now : ℤ) : Calm X e (e.closeBranch bid target now).1 := by
  unfold closeBranch
  split
  · exact .refl e
  next b hb =>
  have hid := (hl.branch bid b hb).1
  have hcalm : Calm X e
      { e with branches := e.branches.insert b.id { b with status := target, closedAt := some now } } :=
    @calm_insert_branch X e b.id b _ (hid ▸ hb) rfl rfl fun hs => .inr (hid ▸ htarget hs)
  dsimp only
  split_ifs
  · exact hcalm.trans (.of_eq rfl rfl (fun _ r hr => ⟨r, hr⟩) rfl)
  · exact hcalm

lemma calm_cancelBranches (htarget : target ≠ .completed) (now : ℤ) (bids : List Id) (e : Engine) :
    Calm X e (cancelBranches target now bids e).1 := by
  induction bids generalizing e with
  | nil => exact .refl e
  | cons bid bids ih =>
    exact (((calm_cancelTasks now _ e).trans (calm_closeRounds .cancelled now _ _)).trans
      (calm_setBranchStatus _ bid htarget now)).trans (ih _)

lemma calm_settle (hl : e.Linked) {rid : Id} {r : Round} (hr : e.rounds.get rid = some r) (round : Round)
    (hid : round.id = r.id) (target : RoundStatus) {branchTo : BranchStatus}
      (hX : branchTo = .completed → X round.branchId)
    (hro : r.status = .opened) (hbid : round.branchId = r.branchId) (event : Bytes) (now : ℤ) :
    Calm X e (e.settle rid round target branchTo event now).1 := by
  have hr' : e.rounds.get round.id = some r := by rw [hid, (hl.round rid r hr).1, hr]
  have hk : Keeps e
      { e with rounds := e.rounds.insert round.id { round with status := target, closedAt := some now } } :=
    Keeps.of_rounds (maps_insert Round.Step.refl hr' ⟨hid, hbid, fun hc => absurd hro hc⟩)
  refine ((calm_insert_round hr' _).trans (calm_cancelTasks now _ _)).trans (calm_closeBranch ?_ round.branchId hX now)
  exact (hl.of_keeps hk).of_keeps (keeps_cancelTasks now _ _)

end

variable {e : Engine} {r : Round}

lemma hasVote_of_completedCount (hl : e.Linked) (hf : e.Fair)
    (hr : e.rounds.get rid = some r) (h : 0 < Approval.completedCount (e.approvals rid)) : e.HasVote r.branchId := by
  obtain ⟨t, ht, hstatus⟩ := List.countP_pos_iff.1 h
  obtain ⟨hmem, hp⟩ := List.mem_filter.1 ht
  obtain ⟨hround, hkind⟩ := of_decide_eq_true hp
  obtain ⟨⟨k, u⟩, hrow, rfl⟩ := List.mem_map.1 hmem
  have hget := mem_rows.1 hrow
  obtain ⟨-, -, s, hs, hbranch⟩ := hl.task k u hget
  cases hr.symm.trans (hround ▸ hs)
  have hstatus : u.status = .completed := of_decide_eq_true hstatus
  exact ⟨k, u, hget, hbranch.symm, hkind, hstatus, hf.voted k u hget hkind hstatus⟩

lemma fair_recount (hl : e.Linked) (hf : e.Fair) (hseat : e.SeatOf rid) (now : ℤ) :
    (e.recount rid now).1.Fair ∧ ∃ X, Calm X e (e.recount rid now).1 := by
  unfold recount
  split
  · exact ⟨hf, fun _ => False, .refl e⟩
  next r hr =>
  split
  · exact ⟨hf, fun _ => False, .refl e⟩
  next hro =>
  split
  · exact ⟨hf, fun _ => False, .refl e⟩
  next b hb =>
  split
  · exact ⟨hf, fun _ => False, .refl e⟩
  have hid := (hl.round rid r hr).1
  dsimp only
  split
  · next hverdict =>
    have hne : e.approvals r.id ≠ [] := by
      obtain ⟨k, t, ht, hround, hkind⟩ := hseat
      exact List.ne_nil_of_mem (List.mem_filter.2 ⟨List.mem_map.2 ⟨(k, t), mem_rows.2 ht, rfl⟩,
        decide_eq_true ⟨hround.trans hid.symm, hkind⟩⟩)
    have hvote : e.HasVote r.branchId := hasVote_of_completedCount hl hf hr
      (hid ▸ completedCount_of_passed (hf.join _ b hb) hne hverdict)
    have hcalm : Calm (fun k => k = r.branchId) e (e.settle rid (e.countRound r) .passed .completed
        (ascii "com.china-workflow.approval.round.passed.v1") now).1 :=
      @calm_settle (fun k => k = r.branchId) e hl rid r hr (e.countRound r) rfl .passed .completed
        (fun _ => rfl) (not_not.1 hro)
        rfl _ now
    exact ⟨hf.of_calm hcalm fun k hk => hk ▸ hvote, _, hcalm⟩
  · have hcalm : Calm (fun _ => False) e (e.settle rid (e.countRound r) .rejected .rejected
        (ascii "com.china-workflow.approval.round.rejected.v1") now).1 :=
      calm_settle hl hr (e.countRound r) rfl .rejected (fun hs => by cases hs) (not_not.1 hro) rfl _ now
    exact ⟨hf.of_calm hcalm fun _ => False.elim, _, hcalm⟩
  · have hcalm : Calm (fun _ => False) e { e with rounds := e.rounds.insert r.id (e.countRound r) } :=
      calm_insert_round (hid.symm ▸ hr) _
    exact ⟨hf.of_calm hcalm fun _ => False.elim, _, hcalm⟩

/-! ### Seats and branches -/

/-- What `Fair` asks of a seat. -/
def FairSeat (e : Engine) (t : Task) : Prop :=
  (t.assignee ≠ none ∨ t.candidates ≠ []) ∧
  (t.kind = .approval → t.status = .completed → ∃ v ∈ t.votes, v.decision = .approve) ∧
  ∀ b, e.branches.get t.branchId = some b → b.policy.allowSelfApprove = false → e.inst.initiator ≠ anonymous →
    NotBy t e.inst.initiator

lemma Fair.insert_task (h : e.Fair) (ht : e.tasks.get t.id = some t) (ho : t.status.isOpen = true)
    (hseat : e.FairSeat t') : Fair { e with tasks := e.tasks.insert t.id t' } := by
  have hcases : ∀ k u, (e.tasks.insert t.id t').get k = some u → u = t' ∨ e.tasks.get k = some u := fun k u hu =>
    (get_insert_cases hu).imp And.right And.right
  refine ⟨h.join, fun k u hu => ?_, fun k u hu hkind hstatus => ?_, fun k b hb hstatus => ?_,
    fun k u b hu hb hoff hknown => ?_⟩
  · rcases hcases k u hu with rfl | hu
    exacts [hseat.1, h.held k u hu]
  · rcases hcases k u hu with rfl | hu
    exacts [hseat.2.1 hkind hstatus, h.voted k u hu hkind hstatus]
  · obtain ⟨j, u, hu, hbid, hkind, hcompleted, hvote⟩ := h.passed k b hb hstatus
    -- the seat that has approved is closed, so it is another one
    have hj : j ≠ t.id := by
      rintro rfl
      cases ht.symm.trans hu
      rw [hcompleted] at ho
      cases ho
    exact ⟨j, u, (get_insert_ne _ _ hj).trans hu, hbid, hkind, hcompleted, hvote⟩
  · rcases hcases k u hu with rfl | hu
    exacts [hseat.2.2 b hb hoff hknown, h.own k u b hu hb hoff hknown]

structure Fresh (t : Task) : Prop where
  held : t.assignee ≠ none ∨ t.candidates ≠ []
  status : t.status = .created
  votes : t.votes = []
  delegation : t.delegation = none

lemma Fair.of_grows {e' : Engine} (h : e.Fair) (hbranches : e'.branches = e.branches)
    (hinitiator : e'.inst.initiator = e.inst.initiator)
      (hg : e.tasks.Grows (fun _ t => Fresh t) e'.tasks) : e'.Fair := by
  refine ⟨hbranches ▸ h.join, fun k t ht => ?_, fun k t ht hkind hstatus => ?_, fun k b hb hstatus => ?_,
    fun k t b ht hb hoff hknown => ?_⟩
  · exact (hg.added k t ht).elim (h.held k t) Fresh.held
  · rcases hg.added k t ht with hold | hfresh
    · exact h.voted k t hold hkind hstatus
    · rw [hfresh.status] at hstatus
      cases hstatus
  · obtain ⟨j, u, hu, hrest⟩ := h.passed k b (hbranches ▸ hb) hstatus
    exact ⟨j, u, hg.keeps j u hu, hrest⟩
  · rw [hinitiator] at hknown ⊢
    rcases hg.added k t ht with hold | hfresh
    · exact h.own k t b hold (hbranches ▸ hb) hoff hknown
    refine ⟨fun v hv => ?_, fun d hd => ?_⟩
    · rw [hfresh.votes] at hv
      cases hv
    · rw [hfresh.delegation] at hd
      cases hd

lemma addSeats_cons (bid rid : Id) (deadline : Option ℤ) (now : ℤ) (s : SeatSpec) (seats : List SeatSpec) (e : Engine) :
    (addSeats bid rid deadline now (s :: seats) e).2.1 =
      (addSeats bid rid deadline now seats (addSeats bid rid deadline now [s] e).2.1).2.1 := by
  simp only [addSeats]
  split_ifs <;> rfl

lemma addSeats_one (hl : e.Linked) (bid rid : Id) (deadline : Option ℤ) (now : ℤ) (s : SeatSpec) :
    let e' := (addSeats bid rid deadline now [s] e).2.1
    e.tasks.Grows (fun _ t => Fresh t) e'.tasks ∧
      (s.kind = .approval → (s.assignee ≠ none ∨ s.candidates ≠ []) → e'.SeatOf rid) := by
  dsimp only [addSeats]
  split_ifs with hempty
  · exact ⟨.refl _ _, fun _ hheld => absurd hempty (by tauto)⟩
  have hfresh := get_next fun k t hk => (hl.task k t hk).2.1
  refine ⟨(grows_insert _ hfresh).mono fun k t h => ?_, fun hkind _ => ⟨_, _, get_insert_self _ _ _, rfl, hkind⟩⟩
  rw [h.2]
  exact ⟨by tauto, rfl, rfl, rfl⟩

lemma addSeats_fair {bid : Id} (hbid : r.branchId = bid) (hro : r.status = .opened) (deadline : Option ℤ)
    (now : ℤ) (seats : List SeatSpec) (hl : e.Linked) (h : e.Live) (hr : e.rounds.get rid = some r) :
    let e' := (addSeats bid rid deadline now seats e).2.1
    e.tasks.Grows (fun _ t => Fresh t) e'.tasks ∧
      ((∃ s ∈ seats, s.kind = .approval ∧ (s.assignee ≠ none ∨ s.candidates ≠ [])) → e'.SeatOf rid) := by
  induction seats generalizing e with
  | nil => exact ⟨.refl _ _, fun ⟨s, hs, _⟩ => (by cases hs)⟩
  | cons s seats ih =>
    obtain ⟨hg₁, hseat₁⟩ := addSeats_one hl bid rid deadline now s
    obtain ⟨hl₁, h₁, -, hrounds₁, -, -⟩ := addSeats_spec hbid hro deadline now [s] hl h hr
    obtain ⟨hg₂, hseat₂⟩ := ih hl₁ h₁ (hrounds₁ ▸ hr)
    rw [addSeats_cons]
    refine ⟨hg₁.trans hg₂, fun ⟨s', hs', hkind, hheld⟩ => ?_⟩
    rcases List.mem_cons.1 hs' with rfl | hs'
    · obtain ⟨k, t, ht, hround, hkind'⟩ := hseat₁ hkind hheld
      exact ⟨k, t, hg₂.keeps k t ht, hround, hkind'⟩
    · exact hseat₂ ⟨s', hs', hkind, hheld⟩

lemma fair_createBranch (hl : e.Linked) (hf : e.Fair) (node : Bytes) (parent : Option Id)
    (hjoin : join.Positive) (reject : RejectPolicy) (policy : ApprovalPolicy) (now : ℤ) :
    (e.createBranch node parent join reject policy now).2.1.Fair := by
  have hfresh := get_next fun k b hk => (hl.branch k b hk).2
  have hgrows : e.branches.Grows (fun _ b => b.join.Positive ∧ b.status = .opened)
      (e.createBranch node parent join reject policy now).2.1.branches :=
    (grows_insert _ hfresh).mono fun k b h => by
      rw [h.2]
      exact ⟨hjoin, rfl⟩
  refine ⟨fun k b hb => ?_, hf.held, hf.voted, fun k b hb hstatus => ?_, fun k t b ht hb hoff hknown => ?_⟩
  · exact (hgrows.added k b hb).elim (hf.join k b) And.left
  · rcases hgrows.added k b hb with hold | ⟨-, hopen⟩
    · exact hf.passed k b hold hstatus
    · rw [hopen] at hstatus
      cases hstatus
  · -- the branch of a seat was there before
    obtain ⟨-, -, r, hr, hbranch⟩ := hl.task k t ht
    obtain ⟨-, -, c, hc⟩ := hl.round _ r hr
    rw [hbranch] at hc
    cases (hgrows.keeps _ c hc).symm.trans hb
    exact hf.own k t b ht hc hoff hknown

/-! ### Commands -/

/-- Who may act on a seat: its delegate, its assignee, or a candidate while it has no assignee. -/
def Entitled (t : Task) (p : Principal) : Prop :=
  t.delegation.map Delegation.delegate = some p ∨ t.assignee = some p ∨ (t.assignee = none ∧ p ∈ t.candidates)

lemma actorCanAct_ok {actor : Principal} {onBehalfOf : Option Principal} (h : actorCanAct t actor = .ok onBehalfOf) :
    Entitled t actor ∧ ∀ p, onBehalfOf = some p → ∃ d, t.delegation = some d ∧ d.delegator = p := by
  unfold actorCanAct at h
  split at h
  · next d hd =>
    cases h
    obtain ⟨hd, hactor⟩ := filter_eq_some_iff.1 hd
    refine ⟨.inl ?_, fun p hp => ⟨d, hd, Option.some.inj hp⟩⟩
    rw [hd, map_some, of_decide_eq_true hactor]
  · split at h
    · next a ha =>
      split_ifs at h with hactor
      cases h
      exact ⟨.inr (.inl (hactor ▸ ha)), fun p hp => (by cases hp)⟩
    · next hnone =>
      split_ifs at h with hactor
      cases h
      exact ⟨.inr (.inr ⟨hnone, hactor⟩), fun p hp => (by cases hp)⟩

/-- The vote may be given on the seat `k`: the seat is open, its round too, and the voter is entitled to it. -/
def Cast (e : Engine) (k : Id) (v : VoteRecord) : Prop :=
  ∃ t r, e.tasks.get k = some t ∧ t.kind = .approval ∧ t.status.isOpen = true ∧ Entitled t v.actor ∧
    v.roundId = t.roundId ∧
    e.rounds.get t.roundId = some r ∧ r.status = .opened

/-- `e'` follows `e`: what the bridge keeps is kept, and every new vote is in `C`. -/
structure Follows (C : Id → VoteRecord → Prop) (e e' : Engine) : Prop where
  fair : e'.Fair
  seated : e'.Seated
  votes : ∀ k t' v, e'.tasks.get k = some t' → v ∈ t'.votes → (∃ t, e.tasks.get k = some t ∧ v ∈ t.votes) ∨ C k v

section

variable {C : Id → VoteRecord → Prop} {e f e' : Engine}

lemma Follows.refl (hf : e.Fair) (hs : e.Seated) : Follows C e e := ⟨hf, hs, fun _ t _ ht hv => .inl ⟨t, ht, hv⟩⟩

lemma Follows.mono {D : Id → VoteRecord → Prop} (h : Follows C e e') (hCD : ∀ k v, C k v → D k v) : Follows D e e' :=
  ⟨h.fair, h.seated, fun k t' v ht' hv => (h.votes k t' v ht' hv).imp id (hCD k v)⟩

lemma Calm.votes {X : Id → Prop} (hc : Calm X f e') (h : Follows C e f) (k : Id) (t' : Task) (v : VoteRecord)
    (ht' : e'.tasks.get k = some t') (hv : v ∈ t'.votes) : (∃ t, e.tasks.get k = some t ∧ v ∈ t.votes) ∨ C k v := by
  obtain ⟨t, ht, hkept⟩ := hc.tasks.back k t' ht'
  exact h.votes k t v ht (hkept.votes ▸ hv)

lemma Follows.calm (h : Follows C e f) (hc : Calm (fun _ => False) f e') : Follows C e e' :=
  ⟨h.fair.of_calm hc fun _ => False.elim, h.seated.of_calm hc, hc.votes h⟩

lemma Follows.recount (h : Follows C e f) (hl : f.Linked) {rid : Id} (hseat : f.SeatOf rid) (now : ℤ) :
    Follows C e (f.recount rid now).1 := by
  obtain ⟨hfair, X, hc⟩ := fair_recount hl h.fair hseat now
  exact ⟨hfair, h.seated.of_calm hc, hc.votes h⟩

lemma calm_touch (e : Engine) (now : ℤ) : Calm (fun _ => False) e (e.touch now) :=
  .of_eq rfl rfl (fun _ r hr => ⟨r, hr⟩) rfl

lemma calm_pushAudit (e : Engine) (now : ℤ) (action : Bytes) (branch : Option Id) (by_ : Principal) (detail : Bytes) :
    Calm (fun _ => False) e (e.pushAudit now action branch by_ detail) :=
  .of_eq rfl rfl (fun _ r hr => ⟨r, hr⟩) rfl

lemma Follows.insert_task (hf : e.Fair) (hs : e.Seated) {t : Task} (ht : e.tasks.get t.id = some t)
    (ho : t.status.isOpen = true) (hround : t'.roundId = t.roundId) (hkind : t'.kind = t.kind) (hseat : e.FairSeat t')
    (hvotes : ∀ v ∈ t'.votes, v ∈ t.votes ∨ C t.id v) : Follows C e { e with tasks := e.tasks.insert t.id t' } := by
  refine ⟨hf.insert_task ht ho hseat, fun k r hr => ?_, fun k u v hu hv => ?_⟩
  · obtain ⟨j, u, hu, hur, huk⟩ := hs k r hr
    by_cases hj : j = t.id
    · subst hj
      cases ht.symm.trans hu
      exact ⟨t.id, t', get_insert_self _ _ _, hround.trans hur, hkind.trans huk⟩
    · exact ⟨j, u, (get_insert_ne _ _ hj).trans hu, hur, huk⟩
  · rcases get_insert_cases hu with ⟨rfl, rfl⟩ | ⟨-, hu⟩
    · exact (hvotes v hv).imp (fun hv => ⟨t, ht, hv⟩) id
    · exact .inl ⟨u, hu, hv⟩

end

lemma latestAttempt_eq_some {node : Bytes} {b : Branch} (h : e.latestAttempt node = some b) :
    ∃ k, e.branches.get k = some b := by
  obtain ⟨⟨k, c⟩, hrow, rfl⟩ := List.mem_map.1 (List.mem_of_mem_filter (mem_of_lastMaxBy h))
  exact ⟨k, mem_rows.1 hrow⟩

/-- The initiator does not act on a seat of a node that forbids it. -/
def MayAct (e : Engine) (tid : Id) (actor : Principal) : Prop :=
  ∀ t b, e.tasks.get tid = some t → e.branches.get t.branchId = some b → b.policy.allowSelfApprove = false →
    e.inst.initiator ≠ anonymous → actor ≠ e.inst.initiator

def HasApprover (seats : List SeatSpec) : Prop :=
  ∃ s ∈ seats, s.kind = .approval ∧ (s.assignee ≠ none ∨ s.candidates ≠ [])

/-- Seats are added to an open round, which is counted then; with them it has an approval seat. -/
lemma follows_addSeats {C : Id → VoteRecord → Prop} {f : Engine} (hfair : f.Fair)
    (hvotes : ∀ k t v, f.tasks.get k = some t → v ∈ t.votes → (∃ t, e.tasks.get k = some t ∧ v ∈ t.votes) ∨ C k v)
    (hl : f.Linked) (hlive : f.Live) {rid bid : Id} (hr : f.rounds.get rid = some r) (hbid : r.branchId = bid)
    (hro : r.status = .opened) (hseated : ∀ k s, f.rounds.get k = some s → k ≠ rid → f.SeatOf k) {seats : List SeatSpec}
    (hseat : f.SeatOf rid ∨ HasApprover seats) (deadline : Option ℤ) (now : ℤ) :
    Follows C e ((addSeats bid rid deadline now seats f).2.1.recount rid now).1 := by
  obtain ⟨hl', -, -, hrounds, hbranches, hinst⟩ := addSeats_spec hbid hro deadline now seats hl hlive hr
  obtain ⟨hg, hnew⟩ := addSeats_fair hbid hro deadline now seats hl hlive hr
  have hkeep : ∀ {k : Id}, f.SeatOf k → (addSeats bid rid deadline now seats f).2.1.SeatOf k := by
    rintro k ⟨j, t, ht, hrest⟩
    exact ⟨j, t, hg.keeps j t ht, hrest⟩
  have hseat' := hseat.elim hkeep hnew
  have h' : Follows C e (addSeats bid rid deadline now seats f).2.1 := by
    refine ⟨hfair.of_grows hbranches (congrArg Instance.initiator hinst) hg, fun k s hk => ?_, fun k t v ht hv => ?_⟩
    · by_cases hkr : k = rid
      · exact hkr ▸ hseat'
      · exact hkeep (hseated k s (hrounds ▸ hk) hkr)
    · rcases hg.added k t ht with hold | hfresh
      · exact hvotes k t v hold hv
      · rw [hfresh.votes] at hv
        cases hv
  exact h'.recount hl' hseat' now

/-- What the bridge sees to before it gives a command. -/
def Admits (e : Engine) : Command → Prop
  | .enterBranch _ _ join _ _ => join.Positive
  | .openApproval _ seats _ => HasApprover seats
  | .approve tid actor _ | .reject tid actor _ | .delegate tid _ actor => e.MayAct tid actor
  | _ => True

/-- The command gives this vote on the seat `k`. -/
def Gives (c : Command) (k : Id) (v : VoteRecord) : Prop :=
  match c with
  | .approve tid actor comment => k = tid ∧ v.actor = actor ∧ v.decision = .approve ∧ v.comment = comment
  | .reject tid actor comment => k = tid ∧ v.actor = actor ∧ v.decision = .reject ∧ v.comment = comment
  | _ => False

section

variable {C : Id → VoteRecord → Prop} {e : Engine} (hi : Inv e) (hf : e.Fair) (hs : e.Seated)
include hi hf hs

variable {c : Command} {now : ℤ}

omit hi hs in
lemma SeatMove.fair {t : Task} (h : SeatMove e now c t t') (ha : e.Admits c)
    (ht : e.tasks.get t.id = some t) (ho : t.status.isOpen = true) : e.FairSeat t' := by
  have hown := fun b => hf.own t.id t b ht
  cases h with
  | claim => exact ⟨.inl (some_ne_none _), fun _ hst => (nomatch hst), hown⟩
  | @vote t actor decision comment onBehalfOf hkind hact =>
    refine ⟨.inl (by cases t.assignee <;> simp), fun _ hst => ?_,
      fun b hb hoff hknown => ⟨fun v hv => ?_, (hown b hb hoff hknown).2⟩⟩
    · refine ⟨_, List.mem_append_right _ List.mem_cons_self, ?_⟩
      cases decision with
      | approve => rfl
      | reject => cases hst
    · rcases mem_append_one.1 hv with hv | rfl
      · exact (hown b hb hoff hknown).1 v hv
      have hmay : e.MayAct t.id actor := by cases decision <;> exact ha
      refine ⟨hmay t b ht hb hoff hknown, fun hbehalf => ?_⟩
      obtain ⟨d, hd, hdel⟩ := (actorCanAct_ok hact).2 _ hbehalf
      exact (hown b hb hoff hknown).2 d hd hdel
  | acknowledge hkind =>
    exact ⟨.inl (by cases t.assignee <;> simp), fun hk _ => (nomatch hkind.symm.trans hk), hown⟩
  | transfer =>
    exact ⟨.inl (some_ne_none _), fun _ hst => (nomatch hst),
      fun b hb hoff hknown => ⟨(hown b hb hoff hknown).1, fun d hd => (nomatch hd)⟩⟩
  | delegate hassignee =>
    refine ⟨.inl (by rw [hassignee]; exact some_ne_none _), fun _ hst => ?_,
      fun b hb hoff hknown => ⟨(hown b hb hoff hknown).1, fun d hd => ?_⟩⟩
    · rw [show t.status = .completed from hst] at ho
      cases ho
    · cases hd
      exact ha t b ht hb hoff hknown
  | expire => exact ⟨hf.held t.id t ht, fun _ hst => (nomatch hst), hown⟩

omit hf hs in
lemma SeatMove.votes {t : Task} (h : SeatMove e now c t t')
    (ht : e.tasks.get t.id = some t) (ho : t.status.isOpen = true) (v : VoteRecord) (hv : v ∈ t'.votes) :
    v ∈ t.votes ∨ e.Cast t.id v ∧ Gives c t.id v := by
  cases h with
  | @vote t actor decision comment onBehalfOf hkind hact =>
    obtain ⟨r, hr, hro⟩ := hi.live.task t.id t ht ho
    refine (mem_append_one.1 hv).imp_right ?_
    rintro rfl
    refine ⟨⟨t, r, ht, hkind, ho, (actorCanAct_ok hact).1, rfl, hr, hro⟩, ?_⟩
    cases decision <;> exact ⟨rfl, rfl, rfl, rfl⟩
  | claim | acknowledge | transfer | delegate | expire => exact .inl hv

lemma follows_seat {out : Except ApprovalError (List Effect)} {e' : Engine}
    (h : SeatStep e now c out e') (ha : e.Admits c) : Follows (fun k v => e.Cast k v ∧ Gives c k v) e e' := by
  have hinsert : ∀ {t t' : Task}, e.tasks.get t.id = some t → t.status.isOpen = true → SeatMove e now c t t' →
      Follows (fun k v => e.Cast k v ∧ Gives c k v) e { e with tasks := e.tasks.insert t.id t' } := by
    intro t t' ht ho hmove
    have hstep := hmove.step ho
    exact Follows.insert_task hf hs ht ho hstep.roundId hstep.kind (hmove.fair hf ha ht ho) (hmove.votes hi ht ho)
  cases h with
  | error err => exact .refl hf hs
  | kept hrun ht ho hmove hw hne => exact (hinsert ht ho hmove).calm (calm_touch _ now)
  | @counted t t' effects hrun ht ho hmove hkind hne =>
    have hstep := hmove.step ho
    have hseat : SeatOf { e with tasks := e.tasks.insert t.id t' } t.roundId :=
      ⟨t.id, t', get_insert_self _ _ _, hstep.roundId, hstep.kind.trans hkind⟩
    exact ((hinsert ht ho hmove).recount (hi.linked.of_keeps (hmove.keeps ht ho)) hseat now).calm (calm_touch _ now)

variable (expected : ℕ) (bid : Id)

lemma follows_enterBranch (node : Bytes) (parent : Option Id) (hjoin : join.Positive)
    (reject : RejectPolicy) (policy : ApprovalPolicy) (now : ℤ) :
    Follows C e (e.enterBranch expected node parent join reject policy now).2 := by
  have hcreate : ∀ e₀ : Engine, e₀.Linked → Calm (fun _ => False) e e₀ → ∀ action branch by_ detail, Follows C e
      (((e₀.createBranch node parent join reject policy now).2.1.pushAudit now action branch by_ detail).touch
        now) := by
    intro e₀ hl hc action branch by_ detail
    have h₀ : Follows C e e₀ := (Follows.refl hf hs).calm hc
    have h₁ : Follows C e (e₀.createBranch node parent join reject policy now).2.1 :=
      ⟨fair_createBranch hl h₀.fair node parent hjoin reject policy now, h₀.seated, h₀.votes⟩
    exact (h₁.calm (calm_pushAudit _ now _ _ _ _)).calm (calm_touch _ now)
  unfold enterBranch
  split
  · exact .refl hf hs
  split
  · exact .refl hf hs
  dsimp only
  split_ifs
  · exact hcreate { e with inst := { e.inst with status := .running } }
      ⟨hi.linked.branch, hi.linked.round, hi.linked.task⟩ (.of_eq rfl rfl (fun _ r hr => ⟨r, hr⟩) rfl) _ _ _ _
  · exact hcreate e hi.linked (.refl e) _ _ _ _

lemma follows_openApproval {seats : List SeatSpec} (hseats : HasApprover seats)
    (deadline : Option ℤ) (now : ℤ) : Follows C e (e.openApproval expected bid seats deadline now).2 := by
  unfold openApproval
  split
  · exact .refl hf hs
  next b hcheck =>
  obtain ⟨-, hb, hbo, hbid⟩ := requireOpenBranch_ok hi.linked hcheck
  split_ifs with hsome
  · exact .refl hf hs
  have hnone : e.openRound bid = none := by
    rw [hbid] at hsome
    simpa using hsome
  rw [hbid]
  simp only [gen]
  rw [hb]
  dsimp only
  obtain ⟨hl₁, h₁, -⟩ := openRound_spec hi hb hbo hnone now (b.roundIds ++ [(e.newRound bid now).id])
  refine (@follows_addSeats e (e.newRound bid now) C _ ?_ ?_ hl₁ h₁ _ bid
    (get_insert_self _ _ _) rfl rfl (fun k s hk hkr => ?_) _ (.inr hseats) deadline now).calm (calm_touch _ now)
  · have hfair := hf.of_calm (@calm_insert_branch (fun _ => False) e bid b
      { b with roundIds := b.roundIds ++ [(e.newRound bid now).id] } hb rfl rfl .inl) fun _ => False.elim
    exact ⟨hfair.join, hfair.held, hfair.voted, hfair.passed, hfair.own⟩
  · exact fun _ t _ ht hv => .inl ⟨t, ht, hv⟩
  · rw [get_insert_ne _ _ hkr] at hk
    exact hs k s hk

lemma follows_addSign (seats : List SeatSpec) (by_ : Principal) (comment : Option Bytes)
    (now : ℤ) : Follows C e (e.addSign expected bid seats by_ comment now).2 := by
  unfold addSign
  split
  · exact .refl hf hs
  split
  · exact .refl hf hs
  next round hround =>
  obtain ⟨hr, hrb, hro⟩ := openRound_eq_some hi.linked hround
  have hadd : Follows C e ((addSeats _ round.id none now seats e).2.1.recount round.id now).1 :=
    follows_addSeats hf (fun _ t _ ht hv => .inl ⟨t, ht, hv⟩) hi.linked hi.live hr hrb hro (fun k s hk _ => hs k s hk)
      (.inl (hs _ _ hr)) none now
  exact (hadd.calm (calm_pushAudit _ now _ _ _ _)).calm (calm_touch _ now)

lemma follows_removeSign (ids : List Id) (by_ : Principal) (now : ℤ) :
    Follows C e (e.removeSign expected bid ids by_ now).2 := by
  unfold removeSign
  split
  · exact .refl hf hs
  split
  · exact .refl hf hs
  split
  · exact .refl hf hs
  split
  · exact .refl hf hs
  next round hround =>
  obtain ⟨hr, -, -⟩ := openRound_eq_some hi.linked hround
  split
  · exact .refl hf hs
  split
  · exact .refl hf hs
  have hcancel : Follows C e (cancelTasks now ids e).1 := (Follows.refl hf hs).calm (calm_cancelTasks now ids e)
  have hseat : (cancelTasks now ids e).1.SeatOf round.id :=
    (hs _ _ hr).of_calm (calm_cancelTasks (X := fun _ => False) now ids e)
  exact ((hcancel.recount (hi.linked.of_keeps (keeps_cancelTasks now ids e)) hseat now).calm (calm_pushAudit _ now _ _
    _ _)).calm
    (calm_touch _ now)

lemma follows_returnToNode (targetNode : Bytes) (by_ : Principal) (comment : Option Bytes)
    (now : ℤ) : Follows C e (e.returnToNode expected bid targetNode by_ comment now).2 := by
  unfold returnToNode
  split
  · exact .refl hf hs
  next b hcheck =>
  obtain ⟨-, hb, hbo, rfl⟩ := requireOpenBranch_ok hi.linked hcheck
  split
  · exact .refl hf hs
  split
  · exact .refl hf hs
  obtain ⟨ids, hids, hcover⟩ := cancelOpenRound_eq hi hb hbo now
  rw [hids]
  obtain ⟨hk, hq, -, -⟩ := shut_spec hi.linked hi.live hb hbo hcover (by decide : RoundStatus.superseded ≠ .opened)
    (by decide : BranchStatus.returned ≠ .opened) now
  have hshut : Follows C e (((cancelTasks now ids e).1.closeRoundsOfBranch b.id .superseded now).1.setBranchStatus b.id
      .returned now).1 := (((Follows.refl hf hs).calm (calm_cancelTasks now ids e)).calm (calm_closeRounds _ now _
        _)).calm
    (calm_setBranchStatus _ _ (by decide) now)
  dsimp only
  generalize (((cancelTasks now ids e).1.closeRoundsOfBranch b.id .superseded now).1.setBranchStatus b.id
    .returned now).1 = e₁ at hk hq hshut ⊢
  have hlatest : (((e₁.latestAttempt targetNode).map Branch.join).getD .all).Positive := by
    cases hb' : e₁.latestAttempt targetNode with
    | none => trivial
    | some c =>
      obtain ⟨k, hc⟩ := latestAttempt_eq_some hb'
      exact hshut.fair.join k c hc
  generalize e₁.latestAttempt targetNode = latest at hlatest ⊢
  obtain ⟨hk₂, -, -⟩ := hq.supersede latest now
  have hsuper : Follows C e (e₁.supersede latest now).1 := by
    cases latest with
    | some c => exact hshut.calm (calm_setBranchStatus _ _ (by decide) now)
    | none => exact hshut
  have hcreate : Follows C e ((e₁.supersede latest now).1.createBranch targetNode (latest.bind Branch.parentBranchId)
      ((latest.map Branch.join).getD .all) ((latest.map Branch.reject).getD .anyReject)
      ((latest.map Branch.policy).getD .default) now).2.1 :=
    ⟨fair_createBranch (hi.linked.of_keeps (hk.trans hk₂)) hsuper.fair _ _ hlatest _ _ now, hsuper.seated, hsuper.votes⟩
  exact hcreate.calm (.of_eq rfl rfl (fun _ r hr => ⟨r, hr⟩) rfl)

omit hi in
lemma follows_shutDown {branchTo : BranchStatus} (hbranchTo : branchTo ≠ .completed) (target : InstanceStatus)
    (action : Bytes) (by_ : Principal) (detail event : Bytes) (data : EventData) (now : ℤ) :
    Follows C e (e.shutDown branchTo target action by_ detail event data now).2 :=
  ((Follows.refl hf hs).calm (calm_cancelBranches hbranchTo now _ e)).calm (.of_eq rfl rfl (fun _ r hr => ⟨r, hr⟩) rfl)

omit hi in
lemma follows_withdraw (by_ : Principal) (now : ℤ) : Follows C e (e.withdraw expected by_ now).2 := by
  unfold withdraw
  split
  · exact .refl hf hs
  split
  · exact .refl hf hs
  · exact follows_shutDown hf hs (by decide) _ _ _ _ _ _ now

omit hi in
lemma follows_terminate (by_ : Principal) (reason : Bytes) (now : ℤ) :
    Follows C e (e.terminate expected by_ reason now).2 := by
  unfold terminate
  split
  · exact .refl hf hs
  · exact follows_shutDown hf hs (by decide) _ _ _ _ _ _ now

omit hi in
lemma follows_finish (now : ℤ) : Follows C e (e.finish expected now).2 := by
  unfold finish
  split
  · exact .refl hf hs
  split
  · exact .refl hf hs
  split
  · exact .refl hf hs
  split
  · exact .refl hf hs
  · exact (Follows.refl hf hs).calm (.of_eq rfl rfl (fun _ r hr => ⟨r, hr⟩) rfl)

end

/-- **One command of the bridge**: new votes are cast by the command, in a round that is open. -/
theorem follows_step (hi : Inv e) (hf : e.Fair) (hs : e.Seated) (r : Request) (ha : e.Admits r.command) :
    Follows (fun k v => e.Cast k v ∧ Gives r.command k v) e (e.step r).1 := by
  obtain ⟨expected, now, command⟩ := r
  cases command <;> dsimp only [step, approve, reject, Prod.swap]
  case enterBranch node parent join reject policy =>
    exact follows_enterBranch hi hf hs expected node parent ha reject policy now
  case openApproval branchId seats deadline => exact follows_openApproval hi hf hs expected branchId ha deadline now
  case addSign branchId seats by_ comment => exact follows_addSign hi hf hs expected branchId seats by_ comment now
  case removeSign branchId taskIds by_ => exact follows_removeSign hi hf hs expected branchId taskIds by_ now
  case claim taskId principal => exact follows_seat hi hf hs (seatStep_claim hi.linked expected taskId now principal) ha
  case approve taskId actor comment =>
    exact follows_seat hi hf hs (seatStep_vote hi.linked expected taskId now actor .approve comment) ha
  case reject taskId actor comment =>
    exact follows_seat hi hf hs (seatStep_vote hi.linked expected taskId now actor .reject comment) ha
  case acknowledge taskId actor =>
    exact follows_seat hi hf hs (seatStep_acknowledge hi.linked expected taskId now actor) ha
  case transfer taskId recipient by_ =>
    exact follows_seat hi hf hs (seatStep_transfer hi.linked expected taskId now recipient by_) ha
  case delegate taskId recipient by_ =>
    exact follows_seat hi hf hs (seatStep_delegate hi.linked expected taskId now recipient by_) ha
  case returnToNode branchId targetNode by_ comment =>
    exact follows_returnToNode hi hf hs expected branchId targetNode by_ comment now
  case withdraw by_ => exact follows_withdraw hf hs expected by_ now
  case terminate by_ reason => exact follows_terminate hf hs expected by_ reason now
  case finish => exact follows_finish hf hs expected now
  case expire taskId => exact follows_seat hi hf hs (seatStep_expire hi.linked expected taskId now) ha

end Engine

end Coord.Approval
