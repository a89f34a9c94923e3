import Coord.Approval.EngineInv
import Coord.Lib.Trace

/-!
# Runs of the approval engine

Every command, with any actor, target and time, either fails and changes nothing or takes a sound aggregate to a sound
one.

* `Evolves` — how an aggregate can change: rows stay, and what is closed stays closed;
* `StepOk` — what a command does: one lemma for each command, and `stepOk_step` for all;
* `engine_sound` — every state of every run, and every step of it.
-/

namespace Coord.Approval.Engine

open Coord.Lib Table List

structure Evolves (e e' : Engine) : Prop where
  id : e'.inst.id = e.inst.id
  initiator : e'.inst.initiator = e.inst.initiator
  branches : ∀ k b, e.branches.get k = some b → ∃ b', e'.branches.get k = some b' ∧ Branch.Step b b'
  rounds : ∀ k r, e.rounds.get k = some r → ∃ r', e'.rounds.get k = some r' ∧ Round.Step r r'
  tasks : ∀ k t, e.tasks.get k = some t → ∃ t', e'.tasks.get k = some t' ∧ Task.Step t t'

variable {e e' : Engine} {expected : ℕ} {bid k : Id} {t t' : Task} {now : ℤ} {b : Branch}

lemma Keeps.evolves (h : Keeps e e') : Evolves e e' :=
  ⟨h.id, h.initiator, h.branches.forth, h.rounds.forth, h.tasks.forth⟩

lemma Evolves.trans {f g : Engine} (h : Evolves e f) (h' : Evolves f g) : Evolves e g where
  id := h'.id.trans h.id
  initiator := h'.initiator.trans h.initiator
  branches k b hb := by
    obtain ⟨c, hc, hbc⟩ := h.branches k b hb
    obtain ⟨d, hd, hcd⟩ := h'.branches k c hc
    exact ⟨d, hd, hbc.trans _ _ _ hcd⟩
  rounds k r hr := by
    obtain ⟨s, hs, hrs⟩ := h.rounds k r hr
    obtain ⟨w, hw, hsw⟩ := h'.rounds k s hs
    exact ⟨w, hw, hrs.trans _ _ _ hsw⟩
  tasks k t ht := by
    obtain ⟨u, hu, htu⟩ := h.tasks k t ht
    obtain ⟨w, hw, huw⟩ := h'.tasks k u hu
    exact ⟨w, hw, htu.trans _ _ _ huw⟩

/-- Ids and references are right, what is open hangs together, and the open round is counted. -/
structure Inv (e : Engine) : Prop where
  linked : e.Linked
  live : e.Live
  counted : e.Counted

/-- The command changes nothing although it succeeds: none of the seats it takes away is open. -/
def Stays (e : Engine) : Command → Prop
  | .removeSign _ ids _ => ids ≠ [] ∧ ∀ id ∈ ids, ((e.tasks.get id).map fun t => t.status.isOpen).getD false = false
  | _ => False

/-- What a command does at `now`: nothing when it fails or stays, and a change with effects otherwise. -/
def StepOk (stays : Prop) (now : ℤ) (e : Engine) (out : Except ApprovalError (List Effect)) (e' : Engine) : Prop :=
  match out with
  | .error _ => e' = e
  | .ok effects => e.inst.status.isTerminal = false ∧ ((stays ∧ effects = [] ∧ e' = e) ∨
    (effects ≠ [] ∧ e'.inst.revision = e.inst.revision + 1 ∧ e'.inst.updatedAt = now ∧ Evolves e e' ∧ Inv e'))

variable {stays : Prop}

lemma guard_ok {u : Unit} (h : e.guard expected = .ok u) : e.inst.status.isTerminal = false := by
  unfold guard at h
  split_ifs at h with h1 h2
  simpa using h2

lemma Inv.touch (h : Inv e) (now : ℤ) : Inv (e.touch now) where
  linked := ⟨h.linked.branch, h.linked.round, h.linked.task⟩
  live := ⟨h.live.task, h.live.round, h.live.branch, h.live.oneBranch, h.live.oneRound, h.live.jumps⟩
  counted := h.counted

lemma Evolves.touch (h : Evolves e e') (now : ℤ) : Evolves e (e'.touch now) :=
  ⟨h.id, h.initiator, h.branches, h.rounds, h.tasks⟩

lemma Inv.pushAudit (h : Inv e) (now : ℤ) (action : Bytes) (branch : Option Id) (by_ : Principal)
    (detail : Bytes) : Inv (e.pushAudit now action branch by_ detail) where
  linked := ⟨h.linked.branch, h.linked.round, h.linked.task⟩
  live := ⟨h.live.task, h.live.round, h.live.branch, h.live.oneBranch, h.live.oneRound, h.live.jumps⟩
  counted := h.counted

lemma Evolves.pushAudit (h : Evolves e e') (now : ℤ) (action : Bytes) (branch : Option Id)
    (by_ : Principal) (detail : Bytes) : Evolves e (e'.pushAudit now action branch by_ detail) :=
  ⟨h.id, h.initiator, h.branches, h.rounds, h.tasks⟩

lemma Evolves.status (h : Evolves e e') (status : InstanceStatus) :
    Evolves e { e' with inst := { e'.inst with status := status } } :=
  ⟨h.id, h.initiator, h.branches, h.rounds, h.tasks⟩

/-! ### New rows -/

lemma Given.next {label : Bytes} {id : Id} (h : e.Given label id) (hid : e'.inst.id = e.inst.id)
    (hseq : e'.seq = e.seq + 1) : e'.Given label id := by
  obtain ⟨n, hn, rfl⟩ := h
  exact ⟨n, by omega, by rw [hid]⟩

lemma get_next {V : Type} {rows : Table Id V} {label : Bytes} (h : ∀ k v, rows.get k = some v → e.Given label k) :
    rows.get (idOf e.inst.id label (e.seq + 1)) = none := by
  cases hget : rows.get (idOf e.inst.id label (e.seq + 1)) with
  | none => rfl
  | some v =>
    obtain ⟨n, hn, he⟩ := h _ v hget
    have hnext := idOf_injective _ _ he
    omega

lemma Live.quiet (h : e.Live) (hb : ∀ k b, e.branches.get k = some b → b.status ≠ .opened) : e.Quiet := by
  have hround : ∀ k r, e.rounds.get k = some r → r.status ≠ .opened := by
    intro k r hr ho
    obtain ⟨b, hget, hbo⟩ := h.round k r hr ho
    exact hb _ b hget hbo
  refine ⟨fun k t ht => ?_, hround, hb⟩
  by_contra ho
  obtain ⟨r, hr, hro⟩ := h.task k t ht (by simpa using ho)
  exact hround _ r hr hro

lemma createBranch_spec (hl : e.Linked) (hq : e.Quiet) (hrun : e.inst.status.isTerminal = false)
    (hj : e.inst.jumpCount ≤ maxJumps) (node : Bytes) (parent : Option Id) (join : JoinPolicy) (reject : RejectPolicy)
    (policy : ApprovalPolicy) (now : ℤ) :
    let e' := (e.createBranch node parent join reject policy now).2.1
    Inv e' ∧ Evolves e e' ∧ e'.inst.revision = e.inst.revision ∧ e'.inst.jumpCount = e.inst.jumpCount ∧
      e'.inst.status = e.inst.status := by
  intro e'
  set id := idOf e.inst.id (ascii "branch") (e.seq + 1)
  have hfresh : e.branches.get id = none := get_next fun k b hk => (hl.branch k b hk).2
  have hgiven : e'.Given (ascii "branch") id := ⟨e.seq, Nat.lt_succ_self _, rfl⟩
  have hgrows : e.branches.Grows (fun k b => k = id ∧ b.id = id ∧ b.status = .opened) e'.branches :=
    (grows_insert _ hfresh).mono fun k b h => ⟨h.1, by rw [h.2], by rw [h.2]⟩
  have hopen : ∀ k b, e'.branches.get k = some b → b.status = .opened → k = id := by
    intro k b hk ho
    rcases hgrows.added k b hk with hold | ⟨rfl, -⟩
    · exact absurd ho (hq.branch k b hold)
    · rfl
  refine ⟨⟨⟨fun k b hk => ?_, fun k r hk => ?_, fun k t hk => ?_⟩, ⟨fun k t hk ho => ?_, fun k r hk ho => ?_,
    fun _ _ _ _ => hrun, fun k k' b b' hk hk' ho ho' => ?_, fun k k' r r' hk hk' ho ho' => ?_, hj⟩,
      fun k r b hk ho _ => ?_⟩,
    ⟨rfl, rfl, fun k b hk => ⟨b, hgrows.keeps k b hk, .refl b⟩, fun k r hk => ⟨r, hk, .refl r⟩,
      fun k t hk => ⟨t, hk, .refl t⟩⟩, rfl, rfl, rfl⟩
  · rcases hgrows.added k b hk with hold | ⟨rfl, hbid, -⟩
    · obtain ⟨hbid, hg⟩ := hl.branch k b hold
      exact ⟨hbid, hg.next rfl rfl⟩
    · exact ⟨hbid, hgiven⟩
  · obtain ⟨hrid, hg, b, hb⟩ := hl.round k r hk
    exact ⟨hrid, hg.next rfl rfl, b, hgrows.keeps _ b hb⟩
  · obtain ⟨htid, hg, hround⟩ := hl.task k t hk
    exact ⟨htid, hg.next rfl rfl, hround⟩
  · exact absurd ho (by rw [hq.task k t hk]; decide)
  · exact absurd ho (hq.round k r hk)
  · exact (hopen k b hk ho).trans (hopen k' b' hk' ho').symm
  · exact absurd ho (hq.round k r hk)
  · exact absurd ho (hq.round k r hk)

lemma addSeats_spec {rid : Id} {r : Round} (hbid : r.branchId = bid) (hro : r.status = .opened) (deadline : Option ℤ)
    (now : ℤ) (seats : List SeatSpec) (hl : e.Linked) (h : e.Live) (hr : e.rounds.get rid = some r) :
    let e' := (addSeats bid rid deadline now seats e).2.1
    e'.Linked ∧ e'.Live ∧ Evolves e e' ∧ e'.rounds = e.rounds ∧ e'.branches = e.branches ∧ e'.inst = e.inst := by
  induction seats generalizing e with
  | nil => exact ⟨hl, h, (Keeps.refl e).evolves, rfl, rfl, rfl⟩
  | cons s seats ih =>
    rw [addSeats]
    split_ifs with hempty
    · exact ih hl h hr
    set id := idOf e.inst.id (ascii "task") (e.seq + 1)
    set task : Task := {
      id := id
      branchId := bid
      roundId := rid
      kind := s.kind
      status := .created
      assignee := s.assignee
      candidates := s.candidates
      deadline := deadline
      delegation := none
      transferredFrom := []
      votes := []
      createdAt := now
      updatedAt := now }
    set e₁ : Engine := { e with seq := e.seq + 1, tasks := e.tasks.insert id task }
    have hgrows := grows_insert task (get_next fun k t hk => (hl.task k t hk).2.1)
    have hl₁ : e₁.Linked := by
      refine ⟨fun k b hk => ?_, fun k r hk => ?_, fun k t hk => ?_⟩
      · obtain ⟨hbid, hg⟩ := hl.branch k b hk
        exact ⟨hbid, hg.next rfl rfl⟩
      · obtain ⟨hrid, hg, hb⟩ := hl.round k r hk
        exact ⟨hrid, hg.next rfl rfl, hb⟩
      · rcases hgrows.added k t hk with hold | ⟨rfl, rfl⟩
        · obtain ⟨htid, hg, hround⟩ := hl.task k t hold
          exact ⟨htid, hg.next rfl rfl, hround⟩
        · exact ⟨rfl, ⟨e.seq, Nat.lt_succ_self _, rfl⟩, r, hr, hbid⟩
    have h₁ : e₁.Live := by
      refine ⟨fun k t hk ho => ?_, h.round, h.branch, h.oneBranch, h.oneRound, h.jumps⟩
      rcases hgrows.added k t hk with hold | ⟨rfl, rfl⟩
      · exact h.task k t hold ho
      · exact ⟨r, hr, hro⟩
    have hev : Evolves e e₁ := ⟨rfl, rfl, fun k b hk => ⟨b, hk, .refl b⟩, fun k r hk => ⟨r, hk, .refl r⟩,
      fun k t hk => ⟨t, hgrows.keeps k t hk, .refl t⟩⟩
    obtain ⟨hl₂, h₂, hev₂, hrounds, hbranches, hinst⟩ := ih hl₁ h₁ hr
    exact ⟨hl₂, h₂, hev.trans hev₂, hrounds, hbranches, hinst⟩

/-! ### Changed seats -/

lemma Live.of_tasks (h : e.Live) {tasks : Table Id Task}
    (ht : ∀ k t', tasks.get k = some t' → t'.status.isOpen = true →
      ∃ t, e.tasks.get k = some t ∧ t.status.isOpen = true ∧ t'.roundId = t.roundId) :
    { e with tasks }.Live where
  task k t' hk ho := by
    obtain ⟨t, hget, hto, hround⟩ := ht k t' hk ho
    rw [hround]
    exact h.task k t hget hto
  round := h.round
  branch := h.branch
  oneBranch := h.oneBranch
  oneRound := h.oneRound
  jumps := h.jumps

lemma Live.insert_task (h : e.Live) (hk : e.tasks.get k = some t)
    (ho : t.status.isOpen = true) (hround : t'.roundId = t.roundId) : { e with tasks := e.tasks.insert k t' }.Live := by
  refine h.of_tasks fun j u hj huo => ?_
  rcases get_insert_cases hj with ⟨rfl, rfl⟩ | ⟨-, hj⟩
  · exact ⟨t, hk, ho, hround⟩
  · exact ⟨u, hj, huo, rfl⟩

/-- How a seat counts: not at all, or as open, approved, rejected or gone. -/
def weight (rid : Id) (t : Task) : Option (Bool × Bool × Bool) :=
  if t.roundId = rid ∧ t.kind = .approval then
    some (!decide (t.status = .cancelled ∨ t.status = .expired), decide (t.status = .completed),
      decide (t.status = .rejected))
  else none

lemma countP_approvals (e : Engine) (rid : Id) (p : Task → Bool) (q : Bool × Bool × Bool → Bool)
    (hpq : ∀ t, t.roundId = rid ∧ t.kind = .approval → p t = (weight rid t).any q) :
    (e.approvals rid).countP p = e.tasks.rows.countP fun r => (weight rid r.2).any q := by
  rw [approvals, countP_filter, countP_map]
  refine countP_congr fun r _ => ?_
  by_cases hr : r.2.roundId = rid ∧ r.2.kind = .approval
  · simp [hr, hpq r.2 hr]
  · simp [hr, weight]

lemma countP_weight_insert (hk : e.tasks.get k = some t) {rid : Id}
    (hw : weight rid t' = weight rid t) (q : Bool × Bool × Bool → Bool) :
    (e.tasks.insert k t').rows.countP (fun r => (weight rid r.2).any q) =
      e.tasks.rows.countP fun r => (weight rid r.2).any q :=
  countP_insert_of_get hk (by rw [hw])

lemma Counted.insert_task (h : e.Counted) (hk : e.tasks.get k = some t)
    (hw : ∀ rid, weight rid t' = weight rid t) : { e with tasks := e.tasks.insert k t' }.Counted := by
  intro j r b hj ho hb
  obtain ⟨htotal, hcompleted, hrejected, hverdict⟩ := h j r b hj ho hb
  set e' : Engine := { e with tasks := e.tasks.insert k t' }
  have hcount : ∀ (p : Task → Bool) (q : Bool × Bool × Bool → Bool),
      (∀ t, t.roundId = r.id ∧ t.kind = .approval → p t = (weight r.id t).any q) →
      (e'.approvals r.id).countP p = (e.approvals r.id).countP p := by
    intro p q hpq
    rw [countP_approvals e' r.id p q hpq, countP_approvals e r.id p q hpq]
    exact countP_weight_insert hk (hw r.id) q
  have ht : Approval.totalCount (e'.approvals r.id) = Approval.totalCount (e.approvals r.id) :=
    hcount _ (fun w => w.1) fun t ht => by simp [weight, ht]
  have hc : Approval.completedCount (e'.approvals r.id) = Approval.completedCount (e.approvals r.id) :=
    hcount _ (fun w => w.2.1) fun t ht => by simp [weight, ht]
  have hr : Approval.rejectedCount (e'.approvals r.id) = Approval.rejectedCount (e.approvals r.id) :=
    hcount _ (fun w => w.2.2) fun t ht => by simp [weight, ht]
  have hnil : e'.approvals r.id = [] ↔ e.approvals r.id = [] := by
    have hlen := hcount (fun _ => true) (fun _ => true) fun t ht => by simp [weight, ht]
    simp only [countP_true] at hlen
    rw [← length_eq_zero_iff, hlen, length_eq_zero_iff]
  refine ⟨htotal.trans ht.symm, hcompleted.trans hc.symm, hrejected.trans hr.symm, ?_⟩
  rw [← hverdict]
  unfold verdict
  simp only [ht, hc, hr, hnil]

/-! ### The commands -/

lemma stepOk_error (err : ApprovalError) : StepOk stays now e (.error err) e := rfl

lemma stepOk_touch (hrun : e.inst.status.isTerminal = false) (hev : Evolves e e')
    (hrev : e'.inst.revision = e.inst.revision) (h : Inv e') {effects : List Effect} (hne : effects ≠ []) (now : ℤ) :
    StepOk stays now e (.ok effects) (e'.touch now) := by
  refine ⟨hrun, .inr ⟨hne, ?_, rfl, hev.touch now, h.touch now⟩⟩
  rw [touch, hrev]

lemma anyOpenBranch_eq_false (h : ¬ e.anyOpenBranch = true) (k : Id) (b : Branch)
    (hk : e.branches.get k = some b) : b.status ≠ .opened := fun ho =>
  h (any_eq_true.2 ⟨(k, b), mem_rows.2 hk, decide_eq_true ho⟩)

lemma append_cons_ne_nil {l l' : List Effect} {a : Effect} : l ++ a :: l' ≠ [] := by simp

lemma stepOk_enterBranch (h : Inv e) (expected : ℕ) (node : Bytes) (parent : Option Id) (join : JoinPolicy)
    (reject : RejectPolicy) (policy : ApprovalPolicy) (now : ℤ) :
    let a := e.enterBranch expected node parent join reject policy now
    StepOk stays now e (a.1.map Prod.snd) a.2 := by
  unfold enterBranch
  split
  · exact stepOk_error _
  next hguard =>
  have hrun := guard_ok hguard
  -- whatever the state before, the branch is created while nothing is open
  have hcreate : ∀ (e₀ : Engine) (started : List Effect), e₀.Linked → e₀.Quiet → e₀.inst.status.isTerminal = false →
      e₀.inst.jumpCount ≤ maxJumps → Evolves e e₀ → e₀.inst.revision = e.inst.revision →
      let c := e₀.createBranch node parent join reject policy now
      ∀ action branch by_ detail, StepOk stays now e (.ok (started ++ c.2.2))
        ((c.2.1.pushAudit now action branch by_ detail).touch now) := by
    intro e₀ started hl hq hrun₀ hj hev hrev c action branch by_ detail
    obtain ⟨hinv, hev', hrev', -⟩ := createBranch_spec hl hq hrun₀ hj node parent join reject policy now
    exact stepOk_touch hrun ((hev.trans hev').pushAudit now _ _ _ _) (hrev'.trans hrev) (hinv.pushAudit now _ _ _ _)
      append_cons_ne_nil now
  split_ifs with hopen hpending
  · exact stepOk_error _
  · have hquiet := h.live.quiet (anyOpenBranch_eq_false hopen)
    exact hcreate { e with inst := { e.inst with status := .running } } _
      ⟨h.linked.branch, h.linked.round, h.linked.task⟩ ⟨hquiet.task, hquiet.round, hquiet.branch⟩ rfl h.live.jumps
      ((Keeps.refl e).evolves.status .running) rfl _ _ _ _
  · exact hcreate e _ h.linked (h.live.quiet (anyOpenBranch_eq_false hopen)) hrun h.live.jumps (Keeps.refl e).evolves
      rfl
      _ _ _ _

lemma requireOpenBranch_ok (hl : e.Linked) (h : (e.guard expected >>= fun _ => e.requireOpenBranch bid) = .ok b) :
    e.inst.status.isTerminal = false ∧ e.branches.get bid = some b ∧ b.status = .opened ∧ b.id = bid := by
  obtain ⟨u, hguard, h⟩ := bind_eq_ok h
  unfold requireOpenBranch at h
  split at h
  · cases h
  · next c hc =>
    split_ifs at h with hopen
    cases h
    exact ⟨guard_ok hguard, hc, not_not.1 hopen, (hl.branch bid b hc).1⟩

lemma requireTask_ok {tid : Id} (hl : e.Linked) (h : (e.guard expected >>= fun _ => e.requireTask tid) = .ok t) :
    e.inst.status.isTerminal = false ∧ e.tasks.get tid = some t ∧ t.id = tid := by
  obtain ⟨u, hguard, h⟩ := bind_eq_ok h
  unfold requireTask at h
  split at h
  · cases h
  · next c hc =>
    cases h
    exact ⟨guard_ok hguard, hc, (hl.task tid t hc).1⟩

lemma openRound_eq_none (h : e.openRound bid = none) (k : Id) (r : Round)
    (hk : e.rounds.get k = some r) (hb : r.branchId = bid) : r.status ≠ .opened := by
  intro ho
  rw [openRound, Option.map_eq_none_iff, find?_eq_none] at h
  exact h (k, r) (mem_rows.2 hk) (decide_eq_true ⟨hb, ho⟩)

lemma openRound_eq_some (hl : e.Linked) {r : Round} (h : e.openRound bid = some r) :
    e.rounds.get r.id = some r ∧ r.branchId = bid ∧ r.status = .opened := by
  obtain ⟨⟨k, s⟩, hrow, rfl⟩ := Option.map_eq_some_iff.1 h
  have hget := mem_rows.1 (mem_of_find?_eq_some hrow)
  have hp : s.branchId = bid ∧ s.status = .opened := by simpa using find?_some hrow
  exact ⟨by rw [(hl.round k s hget).1]; exact hget, hp.1, hp.2⟩

/-- The round that `openApproval` opens. -/
def newRound (e : Engine) (bid : Id) (now : ℤ) : Round where
  id := idOf e.inst.id (ascii "round") (e.seq + 1)
  branchId := bid
  number := (e.rounds.rows.countP fun r => decide (r.2.branchId = bid)) + 1
  status := .opened
  totalCount := 0
  completedCount := 0
  rejectedCount := 0
  openedAt := now
  closedAt := none

/-- A round is opened in the open branch, which has none; the seats and the recount follow. -/
lemma openRound_spec (h : Inv e) (hb : e.branches.get bid = some b)
    (hbo : b.status = .opened) (hnone : e.openRound bid = none) (now : ℤ) (roundIds : List Id) :
    let round := e.newRound bid now
    let e' : Engine := { e with
      seq := e.seq + 1
      rounds := e.rounds.insert round.id round
      branches := e.branches.insert bid { b with roundIds := roundIds } }
    e'.Linked ∧ e'.Live ∧ Evolves e e' := by
  intro round e'
  have hl := h.linked
  have hfresh : e.rounds.get round.id = none := get_next fun k r hk => (hl.round k r hk).2.1
  have hgrows := grows_insert round hfresh
  have hmaps : e.branches.Maps (fun c c' => Branch.Step c c' ∧ c'.status = c.status) e'.branches :=
    maps_insert (fun c => ⟨.refl c, rfl⟩) hb ⟨⟨rfl, rfl, rfl, rfl, rfl, fun _ => .inl rfl⟩, rfl⟩
  -- no other round is open, as its branch would be the open one
  have hclosed : ∀ k r, e.rounds.get k = some r → r.status ≠ .opened := by
    intro k r hr hopen
    obtain ⟨c, hc, hco⟩ := h.live.round k r hr hopen
    exact openRound_eq_none hnone k r hr (h.live.oneBranch _ _ c b hc hb hco hbo) hopen
  have hopened : ∀ k r, e'.rounds.get k = some r → r.status = .opened → k = round.id ∧ r = round := by
    intro k r hr hopen
    rcases hgrows.added k r hr with hold | hnew
    · exact absurd hopen (hclosed k r hold)
    · exact hnew
  refine ⟨⟨fun k c hk => ?_, fun k r hk => ?_, fun k t hk => ?_⟩,
    ⟨fun k t hk ho => ?_, fun k r hk ho => ?_, fun k c hk ho => ?_,
    fun k k' c c' hk hk' ho ho' => ?_, fun k k' r r' hk hk' ho ho' => ?_, h.live.jumps⟩,
    ⟨rfl, rfl, fun k c hk => ?_, fun k r hk => ⟨r, hgrows.keeps k r hk, .refl r⟩, fun k t hk => ⟨t, hk, .refl t⟩⟩⟩
  · obtain ⟨c₀, hc₀, hs, -⟩ := hmaps.back k c hk
    obtain ⟨hcid, hg⟩ := hl.branch k c₀ hc₀
    exact ⟨hs.id.trans hcid, hg.next rfl rfl⟩
  · rcases hgrows.added k r hk with hold | ⟨rfl, rfl⟩
    · obtain ⟨hrid, hg, c, hc⟩ := hl.round k r hold
      obtain ⟨c', hc', -⟩ := hmaps.forth _ c hc
      exact ⟨hrid, hg.next rfl rfl, c', hc'⟩
    · exact ⟨rfl, ⟨e.seq, Nat.lt_succ_self _, rfl⟩, _, get_insert_self _ _ _⟩
  · obtain ⟨htid, hg, r, hr, hbr⟩ := hl.task k t hk
    exact ⟨htid, hg.next rfl rfl, r, hgrows.keeps _ r hr, hbr⟩
  · obtain ⟨r, hr, hro'⟩ := h.live.task k t hk ho
    exact absurd hro' (hclosed _ r hr)
  · obtain ⟨rfl, rfl⟩ := hopened k r hk ho
    exact ⟨{ b with roundIds := roundIds }, get_insert_self _ _ _, hbo⟩
  · obtain ⟨c₀, hc₀, -, hst⟩ := hmaps.back k c hk
    exact h.live.branch k c₀ hc₀ (hst ▸ ho)
  · obtain ⟨c₀, hc₀, -, hst⟩ := hmaps.back k c hk
    obtain ⟨c₁, hc₁, -, hst'⟩ := hmaps.back k' c' hk'
    exact h.live.oneBranch _ _ c₀ c₁ hc₀ hc₁ (hst ▸ ho) (hst' ▸ ho')
  · exact (hopened k r hk ho).1.trans (hopened k' r' hk' ho').1.symm
  · obtain ⟨c', hc', hs, -⟩ := hmaps.forth k c hk
    exact ⟨c', hc', hs⟩

lemma stepOk_openApproval (h : Inv e) (expected : ℕ) (bid : Id) (seats : List SeatSpec)
    (deadline : Option ℤ) (now : ℤ) :
    let a := e.openApproval expected bid seats deadline now
    StepOk stays now e (a.1.map fun r => r.2.2) a.2 := by
  unfold openApproval
  split
  · exact stepOk_error _
  next b hcheck =>
  obtain ⟨hrun, hb, hbo, hbid⟩ := requireOpenBranch_ok h.linked hcheck
  split_ifs with hsome
  · exact stepOk_error _
  have hnone : e.openRound bid = none := by
    rw [hbid] at hsome
    simpa using hsome
  rw [hbid]
  simp only [gen]
  rw [hb]
  obtain ⟨hl₁, h₁, hev₁⟩ := openRound_spec h hb hbo hnone now (b.roundIds ++ [(e.newRound bid now).id])
  obtain ⟨hl₂, h₂, hev₂, hrounds₂, -, hinst₂⟩ :=
    addSeats_spec (rfl : (e.newRound bid now).branchId = bid) rfl deadline now seats hl₁ h₁
    (get_insert_self _ _ _)
  have hr₂ := (congrArg (fun rounds => rounds.get (e.newRound bid now).id) hrounds₂).trans (get_insert_self _ _ _)
  obtain ⟨hk₃, h₃, hc₃, -⟩ := recount_spec hl₂ h₂ hr₂ rfl now
  exact stepOk_touch hrun ((hev₁.trans hev₂).trans hk₃.evolves)
    (hk₃.revision.trans (congrArg Instance.revision hinst₂)) ⟨hl₂.of_keeps hk₃, h₃, hc₃⟩ (cons_ne_nil _ _) now

lemma stepOk_addSign (h : Inv e) (expected : ℕ) (bid : Id) (seats : List SeatSpec) (by_ : Principal)
    (comment : Option Bytes) (now : ℤ) :
    let a := e.addSign expected bid seats by_ comment now
    StepOk stays now e (a.1.map Prod.snd) a.2 := by
  unfold addSign
  split
  · exact stepOk_error _
  next b hcheck =>
  obtain ⟨hrun, -, -, hbid⟩ := requireOpenBranch_ok h.linked hcheck
  split
  · exact stepOk_error _
  next round hround =>
  obtain ⟨hr, hrb, hro⟩ := openRound_eq_some h.linked hround
  obtain ⟨hl₁, h₁, hev₁, hrounds₁, -, hinst₁⟩ := addSeats_spec hrb hro none now seats h.linked h.live hr
  obtain ⟨hk₂, h₂, hc₂, hne, -⟩ := recount_spec hl₁ h₁ (hrounds₁ ▸ hr) hro now
  exact stepOk_touch hrun ((hev₁.trans hk₂.evolves).pushAudit now _ _ _ _)
    (hk₂.revision.trans (congrArg Instance.revision hinst₁)) (Inv.pushAudit ⟨hl₁.of_keeps hk₂, h₂, hc₂⟩ now _ _ _ _)
    (append_ne_nil_of_right_ne_nil _ hne) now

lemma Live.cancelTasks (h : e.Live) (now : ℤ) (ids : List Id) : (cancelTasks now ids e).1.Live := by
  obtain ⟨he, -, hopen⟩ := cancelTasks_spec now ids e
  rw [he]
  refine h.of_tasks fun k t hk ho => ?_
  exact ⟨t, (hopen k t hk ho).2, ho, rfl⟩

lemma stepOk_removeSign (h : Inv e) (expected : ℕ) (bid : Id) (ids : List Id) (by_ : Principal) (now : ℤ) :
    StepOk (e.Stays (.removeSign bid ids by_)) now e (e.removeSign expected bid ids by_ now).1
      (e.removeSign expected bid ids by_ now).2 := by
  unfold removeSign
  split
  · exact stepOk_error _
  next hguard =>
  have hrun := guard_ok hguard
  split
  · exact stepOk_error _
  split
  · exact stepOk_error _
  split
  · exact stepOk_error _
  next round hround =>
  obtain ⟨hr, -, hro⟩ := openRound_eq_some h.linked hround
  split
  · exact stepOk_error _
  split
  · next hidle =>
    refine ⟨hrun, .inl ⟨⟨hidle.1, fun id hid => ?_⟩, rfl, rfl⟩⟩
    have hall := hidle.2
    rw [Bool.not_eq_true, any_eq_false] at hall
    simpa using hall id hid
  · have hk₁ := keeps_cancelTasks now ids e
    have hl₁ := h.linked.of_keeps hk₁
    have hr₁ : (cancelTasks now ids e).1.rounds.get round.id = some round := by
      rw [(cancelTasks_spec now ids e).1]
      exact hr
    obtain ⟨hk₂, h₂, hc₂, hne, -⟩ := recount_spec hl₁ (h.live.cancelTasks now ids) hr₁ hro now
    exact stepOk_touch hrun ((hk₁.trans hk₂).evolves.pushAudit now _ _ _ _) (hk₁.trans hk₂).revision
      (Inv.pushAudit ⟨hl₁.of_keeps hk₂, h₂, hc₂⟩ now _ _ _ _) (append_ne_nil_of_right_ne_nil _ hne) now

/-! ### Commands on a seat -/

lemma weight_of_open (hround : t'.roundId = t.roundId) (hkind : t'.kind = t.kind)
    (ho : t.status.isOpen = true) (ho' : t'.status.isOpen = true) (rid : Id) : weight rid t' = weight rid t := by
  have hopen : ∀ {s : TaskStatus}, s.isOpen = true → (s ≠ .cancelled ∧ s ≠ .expired) ∧ s ≠ .completed ∧
    s ≠ .rejected := by
    intro s hs
    cases s <;> simp_all [TaskStatus.isOpen]
  obtain ⟨h1, h2, h3⟩ := hopen ho
  obtain ⟨h1', h2', h3'⟩ := hopen ho'
  simp only [weight, hround, hkind, h1, h2, h3, h1', h2', h3']

def decisionCommand : Decision → Id → Principal → Option Bytes → Command
  | .approve => .approve
  | .reject => .reject

/-- How a command on an open seat changes the seat. -/
inductive SeatMove (e : Engine) (now : ℤ) : Command → Task → Task → Prop
  | claim {t : Task} {principal : Principal} :
    SeatMove e now (.claim t.id principal) t { t with assignee := some principal, status := .claimed, updatedAt := now }
  | vote {t : Task} {actor : Principal} {decision : Decision} {comment : Option Bytes} {onBehalfOf : Option Principal}
      (hkind : t.kind = .approval) (hact : actorCanAct t actor = .ok onBehalfOf) :
    SeatMove e now (decisionCommand decision t.id actor comment) t { t with
      assignee := t.assignee.or (some actor)
      votes := t.votes ++ [⟨t.roundId, decision, actor, onBehalfOf, comment, now, e.actingService⟩]
      status := decision.status
      updatedAt := now }
  | acknowledge {t : Task} {actor : Principal} (hkind : t.kind = .readAck) :
    SeatMove e now (.acknowledge t.id actor) t
      { t with assignee := t.assignee.or (some actor), status := .completed, updatedAt := now }
  | transfer {t : Task} {recipient by_ source : Principal} :
    SeatMove e now (.transfer t.id recipient by_) t { t with
      transferredFrom := t.transferredFrom ++ [source]
      assignee := some recipient
      delegation := none
      status := .claimed
      updatedAt := now }
  | delegate {t : Task} {recipient by_ : Principal} (hassignee : t.assignee = some by_) :
    SeatMove e now (.delegate t.id recipient by_) t
      { t with delegation := some ⟨by_, recipient, now⟩, updatedAt := now }
  | expire {t : Task} : SeatMove e now (.expire t.id) t { t with status := .expired, updatedAt := now }

/-- What a command on a seat does: it fails, or changes an open seat, whose round is counted unless the seat counts as
before. -/
inductive SeatStep (e : Engine) (now : ℤ) (c : Command) : Except ApprovalError (List Effect) → Engine → Prop
  | error (err : ApprovalError) : SeatStep e now c (.error err) e
  | kept {t t' : Task} {effects : List Effect} (hrun : e.inst.status.isTerminal = false)
      (ht : e.tasks.get t.id = some t) (ho : t.status.isOpen = true) (hmove : SeatMove e now c t t')
      (hw : ∀ rid, weight rid t' = weight rid t) (hne : effects ≠ []) :
    SeatStep e now c (.ok effects) ({ e with tasks := e.tasks.insert t.id t' }.touch now)
  | counted {t t' : Task} {effects : List Effect} (hrun : e.inst.status.isTerminal = false)
      (ht : e.tasks.get t.id = some t) (ho : t.status.isOpen = true) (hmove : SeatMove e now c t t')
      (hkind : t.kind = .approval) (hne : effects ≠ []) :
    SeatStep e now c (.ok effects) (({ e with tasks := e.tasks.insert t.id t' }.recount t.roundId now).1.touch now)

variable {c : Command}

lemma SeatMove.step (h : SeatMove e now c t t') (ho : t.status.isOpen = true) : Task.Step t t' := by
  cases h <;> exact ⟨rfl, rfl, rfl, rfl, fun hc => absurd ho (by rw [hc]; decide)⟩

lemma SeatMove.keeps (h : SeatMove e now c t t') (ht : e.tasks.get t.id = some t)
    (ho : t.status.isOpen = true) : Keeps e { e with tasks := e.tasks.insert t.id t' } :=
  Keeps.of_tasks (maps_insert Task.Step.refl ht (h.step ho))

section

variable (hl : e.Linked) (expected : ℕ) (tid : Id) (now : ℤ)
include hl

lemma seatStep_claim (principal : Principal) :
    SeatStep e now (.claim tid principal) (e.claim expected tid principal now).1 (e.claim expected tid principal
      now).2 := by
  unfold claim
  split
  · exact .error _
  next t hcheck =>
  obtain ⟨hrun, ht, rfl⟩ := requireTask_ok hl hcheck
  split
  · exact .error _
  next ho =>
  have ho : t.status.isOpen = true := not_not.1 ho
  split
  · exact .error _
  split
  · exact .error _
  · exact .kept hrun ht ho .claim (weight_of_open rfl rfl ho rfl) (cons_ne_nil _ _)

lemma seatStep_vote (actor : Principal) (decision : Decision) (comment : Option Bytes) :
    SeatStep e now (decisionCommand decision tid actor comment) (e.vote expected tid actor decision comment now).1
      (e.vote expected tid actor decision comment now).2 := by
  unfold vote
  split
  · exact .error _
  next t hcheck =>
  obtain ⟨hrun, ht, rfl⟩ := requireTask_ok hl hcheck
  split
  · exact .error _
  next hkind =>
  have hkind : t.kind = .approval := not_not.1 hkind
  split
  · exact .error _
  next ho =>
  split
  · exact .error _
  next hact =>
  exact .counted hrun ht (not_not.1 ho) (.vote hkind hact) hkind append_cons_ne_nil

lemma seatStep_acknowledge (actor : Principal) :
    SeatStep e now (.acknowledge tid actor) (e.acknowledge expected tid actor now).1 (e.acknowledge expected tid actor
      now).2 := by
  unfold acknowledge
  split
  · exact .error _
  next t hcheck =>
  obtain ⟨hrun, ht, rfl⟩ := requireTask_ok hl hcheck
  split
  · exact .error _
  next hkind =>
  have hkind : t.kind = .readAck := not_not.1 hkind
  split
  · exact .error _
  next ho =>
  split
  · exact .error _
  -- no round counts a reader's seat
  · exact .kept hrun ht (not_not.1 ho) (.acknowledge hkind) (fun rid => by simp [weight, hkind]) (cons_ne_nil _ _)

lemma seatStep_transfer (recipient by_ : Principal) :
    SeatStep e now (.transfer tid recipient by_) (e.transfer expected tid recipient by_ now).1
      (e.transfer expected tid recipient by_ now).2 := by
  unfold transfer
  split
  · exact .error _
  next t hcheck =>
  obtain ⟨hrun, ht, rfl⟩ := requireTask_ok hl hcheck
  split
  · exact .error _
  next ho =>
  have ho : t.status.isOpen = true := not_not.1 ho
  split
  · exact .error _
  split
  · exact .error _
  · exact .kept hrun ht ho .transfer (weight_of_open rfl rfl ho rfl) append_cons_ne_nil

lemma seatStep_delegate (recipient by_ : Principal) :
    SeatStep e now (.delegate tid recipient by_) (e.delegate expected tid recipient by_ now).1
      (e.delegate expected tid recipient by_ now).2 := by
  unfold delegate
  split
  · exact .error _
  next t hcheck =>
  obtain ⟨hrun, ht, rfl⟩ := requireTask_ok hl hcheck
  split
  · exact .error _
  next ho =>
  have ho : t.status.isOpen = true := not_not.1 ho
  split
  · exact .error _
  next hassignee =>
  exact .kept hrun ht ho (.delegate (not_not.1 hassignee)) (weight_of_open rfl rfl ho ho) (cons_ne_nil _ _)

lemma seatStep_expire : SeatStep e now (.expire tid) (e.expire expected tid now).1 (e.expire expected tid now).2 := by
  unfold expire
  split
  · exact .error _
  next t hcheck =>
  obtain ⟨hrun, ht, rfl⟩ := requireTask_ok hl hcheck
  split
  · exact .error _
  next ho =>
  have ho : t.status.isOpen = true := not_not.1 ho
  split
  · exact .error _
  split
  · exact .error _
  split_ifs with hkind
  · exact .counted hrun ht ho .expire hkind (cons_ne_nil _ _)
  · exact .kept hrun ht ho .expire (fun rid => by simp [weight, hkind]) (cons_ne_nil _ _)

end

variable {out : Except ApprovalError (List Effect)}

lemma stepOk_seat (h : Inv e) (hs : SeatStep e now c out e') :
    StepOk stays now e out e' := by
  cases hs with
  | error err => exact stepOk_error err
  | @kept t t' effects hrun ht ho hmove hw hne =>
    have hk := hmove.keeps ht ho
    exact stepOk_touch hrun hk.evolves rfl
      ⟨h.linked.of_keeps hk, h.live.insert_task ht ho (hmove.step ho).roundId, h.counted.insert_task ht hw⟩ hne now
  | @counted t t' effects hrun ht ho hmove hkind hne =>
    have hk₁ := hmove.keeps ht ho
    have hl₁ := h.linked.of_keeps hk₁
    obtain ⟨r, hr, hro⟩ := h.live.task t.id t ht ho
    obtain ⟨hk₂, h₂, hc₂, -⟩ := recount_spec hl₁ (h.live.insert_task ht ho (hmove.step ho).roundId) hr hro now
    exact stepOk_touch hrun (hk₁.trans hk₂).evolves (hk₁.trans hk₂).revision ⟨hl₁.of_keeps hk₂, h₂, hc₂⟩ hne now

/-! ### Commands that close everything -/

lemma openBranches_eq (h : Inv e) : let ids := (e.branches.rows.filter fun r =>
    decide (r.2.status = .opened)).map fun r => r.2.id
    (ids = [] ∧ e.Quiet) ∨ ∃ bid b, ids = [bid] ∧ e.branches.get bid = some b ∧ b.status = .opened := by
  intro ids
  have hkeys : ids = (e.branches.rows.filter fun r => decide (r.2.status = .opened)).map Prod.fst :=
    map_congr_left fun r hr => (h.linked.branch r.1 r.2 (mem_rows.1 (mem_of_mem_filter hr))).1
  have hnodup : ids.Nodup := by
    rw [hkeys]
    exact e.branches.nodup_keys.sublist (filter_sublist.map _)
  have hopen : ∀ k ∈ ids, ∃ b, e.branches.get k = some b ∧ b.status = .opened := by
    rw [hkeys]
    intro k hk
    obtain ⟨row, hrow, rfl⟩ := List.mem_map.1 hk
    obtain ⟨hmem, hp⟩ := List.mem_filter.1 hrow
    exact ⟨row.2, mem_rows.1 hmem, of_decide_eq_true hp⟩
  match ids, hnodup, hopen with
  | [], _, _ =>
    refine .inl ⟨rfl, h.live.quiet fun k b hk ho => ?_⟩
    have hmem : k ∈ ([] : List Id) := by
      rw [hkeys]
      exact List.mem_map.2 ⟨(k, b), List.mem_filter.2 ⟨mem_rows.2 hk, decide_eq_true ho⟩, rfl⟩
    cases hmem
  | [bid], _, hopen =>
    obtain ⟨b, hb, hbo⟩ := hopen bid mem_cons_self
    exact .inr ⟨bid, b, rfl, hb, hbo⟩
  | bid :: bid' :: _, hnodup, hopen =>
    obtain ⟨b, hb, hbo⟩ := hopen bid mem_cons_self
    obtain ⟨b', hb', hbo'⟩ := hopen bid' (mem_cons_of_mem _ mem_cons_self)
    have hsame := h.live.oneBranch _ _ b b' hb hb' hbo hbo'
    rw [hsame] at hnodup
    exact absurd mem_cons_self (nodup_cons.1 hnodup).1

lemma cancelOpenBranches_spec (h : Inv e) {target : BranchStatus} (htarget : target ≠ .opened) (now : ℤ) :
    Keeps e (e.cancelOpenBranches target now).1 ∧ (e.cancelOpenBranches target now).1.Quiet ∧
      (e.cancelOpenBranches target now).1.inst = e.inst := by
  unfold cancelOpenBranches
  rcases openBranches_eq h with ⟨hids, hquiet⟩ | ⟨bid, b, hids, hb, hbo⟩
  · rw [hids]
    exact ⟨.refl e, hquiet, rfl⟩
  rw [hids]
  have hcover : ∀ k t, e.tasks.get k = some t → t.status.isOpen = true →
      k ∈ e.openTasks fun t => decide (t.branchId = bid) := by
    intro k t ht ho
    obtain ⟨r, hr, hro⟩ := h.live.task k t ht ho
    obtain ⟨c, hc, hco⟩ := h.live.round _ r hr hro
    obtain ⟨-, -, r', hr', hbr⟩ := h.linked.task k t ht
    cases hr.symm.trans hr'
    have hbranch : t.branchId = bid := hbr.symm.trans (h.live.oneBranch _ _ c b hc hb hco hbo)
    exact mem_openTasks h.linked ht (decide_eq_true hbranch) ho
  obtain ⟨hk, hq, hinst, -⟩ :=
    shut_spec h.linked h.live hb hbo hcover (by decide : RoundStatus.cancelled ≠ .opened) htarget now
  exact ⟨hk, hq, hinst⟩

lemma Quiet.inv_status (hq : e.Quiet) (hl : e.Linked) (hj : e.inst.jumpCount ≤ maxJumps)
    (status : InstanceStatus) : Inv { e with inst := { e.inst with status := status } } := by
  have hq' : { e with inst := { e.inst with status := status } }.Quiet := ⟨hq.task, hq.round, hq.branch⟩
  exact ⟨⟨hl.branch, hl.round, hl.task⟩, hq'.live hj, hq'.counted⟩

lemma stepOk_shutDown (h : Inv e) (hrun : e.inst.status.isTerminal = false) {branchTo : BranchStatus}
    (hbranchTo : branchTo ≠ .opened) (target : InstanceStatus) (action : Bytes) (by_ : Principal) (detail event : Bytes)
    (data : EventData) (now : ℤ) :
    StepOk stays now e (e.shutDown branchTo target action by_ detail event data now).1
      (e.shutDown branchTo target action by_ detail event data now).2 := by
  obtain ⟨hk, hq, hinst⟩ := cancelOpenBranches_spec h hbranchTo now
  have hinv := hq.inv_status (h.linked.of_keeps hk) (by rw [hinst]; exact h.live.jumps) target
  have hev := hk.evolves.status target
  exact stepOk_touch hrun (hev.pushAudit now _ _ _ _) hk.revision (hinv.pushAudit now _ _ _ _)
    append_cons_ne_nil now

lemma stepOk_withdraw (h : Inv e) (expected : ℕ) (by_ : Principal) (now : ℤ) :
    StepOk stays now e (e.withdraw expected by_ now).1 (e.withdraw expected by_ now).2 := by
  unfold withdraw
  split
  · exact stepOk_error _
  next hguard =>
  split
  · exact stepOk_error _
  · exact stepOk_shutDown h (guard_ok hguard) (by decide) _ _ _ _ _ _ _

lemma stepOk_terminate (h : Inv e) (expected : ℕ) (by_ : Principal) (reason : Bytes) (now : ℤ) :
    StepOk stays now e (e.terminate expected by_ reason now).1 (e.terminate expected by_ reason now).2 := by
  unfold terminate
  split
  · exact stepOk_error _
  next hguard =>
  exact stepOk_shutDown h (guard_ok hguard) (by decide) _ _ _ _ _ _ _

lemma stepOk_finish (h : Inv e) (expected : ℕ) (now : ℤ) :
    StepOk stays now e (e.finish expected now).1 (e.finish expected now).2 := by
  unfold finish
  split
  · exact stepOk_error _
  next hguard =>
  have hrun := guard_ok hguard
  split
  · exact stepOk_error _
  next hopen =>
  split
  · exact stepOk_error _
  next status hfinal =>
  split
  · next hsame =>
    -- the instance has not ended, and its status would be one that it ends with
    have hterminal : status.isTerminal = true := by
      unfold finalStatus at hfinal
      split at hfinal <;> cases hfinal <;> rfl
    rw [← hsame, hrun] at hterminal
    cases hterminal
  · have hinv := (h.live.quiet (anyOpenBranch_eq_false hopen)).inv_status h.linked h.live.jumps status
    have hev := (Keeps.refl e).evolves.status status
    exact stepOk_touch hrun hev rfl hinv (cons_ne_nil _ _) now

lemma cancelOpenRound_eq (h : Inv e) (hb : e.branches.get b.id = some b)
    (hbo : b.status = .opened) (now : ℤ) : ∃ ids, e.cancelOpenRound b.id now = cancelTasks now ids e ∧
      ∀ k t, e.tasks.get k = some t → t.status.isOpen = true → k ∈ ids := by
  unfold cancelOpenRound
  split
  · next round hround =>
    obtain ⟨hr, -, hro⟩ := openRound_eq_some h.linked hround
    refine ⟨_, rfl, fun k t ht ho => mem_openTasks h.linked ht (decide_eq_true ?_) ho⟩
    obtain ⟨s, hs, hso⟩ := h.live.task k t ht ho
    exact h.live.oneRound _ _ s round hs hr hso hro
  · next hnone =>
    refine ⟨[], rfl, fun k t ht ho => ?_⟩
    obtain ⟨s, hs, hso⟩ := h.live.task k t ht ho
    obtain ⟨c, hc, hco⟩ := h.live.round _ s hs hso
    exact absurd hso (openRound_eq_none hnone _ s hs (h.live.oneBranch _ _ c b hc hb hco hbo))

lemma Quiet.supersede (hq : e.Quiet) (latest : Option Branch) (now : ℤ) :
    Keeps e (e.supersede latest now).1 ∧ (e.supersede latest now).1.Quiet ∧
      (e.supersede latest now).1.inst = e.inst := by
  cases latest with
  | some c =>
    obtain ⟨he, hmaps, hopen⟩ := setBranchStatus_spec e c.id (by decide : BranchStatus.superseded ≠ .opened)
      (fun _ _ => .inr rfl) now
    rw [Engine.supersede, he]
    exact ⟨Keeps.of_branches hmaps, ⟨hq.task, hq.round, fun k b hk ho => hq.branch k b (hopen k b hk ho).2 ho⟩, rfl⟩
  | none => exact ⟨.refl e, hq, rfl⟩

lemma stepOk_returnToNode (h : Inv e) (expected : ℕ) (bid : Id) (targetNode : Bytes) (by_ : Principal)
    (comment : Option Bytes) (now : ℤ) :
    let a := e.returnToNode expected bid targetNode by_ comment now
    StepOk stays now e (a.1.map Prod.snd) a.2 := by
  unfold returnToNode
  split
  · exact stepOk_error _
  next b hcheck =>
  obtain ⟨hrun, hb, hbo, hbid⟩ := requireOpenBranch_ok h.linked hcheck
  subst hbid
  split
  · exact stepOk_error _
  split
  · exact stepOk_error _
  next hjump =>
  obtain ⟨ids, hids, hcover⟩ := cancelOpenRound_eq h hb hbo now
  rw [hids]
  obtain ⟨hk, hq, hinst, -⟩ := shut_spec h.linked h.live hb hbo hcover (by decide : RoundStatus.superseded ≠ .opened)
    (by decide : BranchStatus.returned ≠ .opened) now
  dsimp only
  generalize (((cancelTasks now ids e).1.closeRoundsOfBranch b.id .superseded now).1.setBranchStatus b.id
    .returned now).1 = e₁ at hk hq hinst ⊢
  generalize e₁.latestAttempt targetNode = latest
  obtain ⟨hk₂, hq₂, hinst₂⟩ := hq.supersede latest now
  have hkeeps := hk.trans hk₂
  rw [hinst] at hinst₂
  obtain ⟨hinv, hev, hrev, hjumps, -⟩ := createBranch_spec (h.linked.of_keeps hkeeps) hq₂ (by rw [hinst₂]; exact hrun)
    (by rw [hinst₂]; exact h.live.jumps) targetNode (latest.bind Branch.parentBranchId)
    ((latest.map Branch.join).getD .all) ((latest.map Branch.reject).getD .anyReject)
    ((latest.map Branch.policy).getD .default) now
  generalize (e₁.supersede latest now).1.createBranch targetNode (latest.bind Branch.parentBranchId)
    ((latest.map Branch.join).getD .all) ((latest.map Branch.reject).getD .anyReject)
    ((latest.map Branch.policy).getD .default) now = c at hinv hev hrev hjumps ⊢
  have hjump' : c.2.1.inst.jumpCount + 1 ≤ maxJumps := by
    rw [hjumps, hinst₂]
    omega
  have hev' := hkeeps.evolves.trans hev
  refine stepOk_touch hrun (.pushAudit ?_ now _ _ _ _) ?_ (.pushAudit ?_ now _ _ _ _) append_cons_ne_nil now
  · exact ⟨hev'.id, hev'.initiator, hev'.branches, hev'.rounds, hev'.tasks⟩
  · exact hrev.trans (congrArg Instance.revision hinst₂)
  · exact ⟨⟨hinv.linked.branch, hinv.linked.round, hinv.linked.task⟩,
      ⟨hinv.live.task, hinv.live.round, hinv.live.branch,
      hinv.live.oneBranch, hinv.live.oneRound, hjump'⟩, hinv.counted⟩

/-! ### Runs -/

theorem stepOk_step (h : Inv e) (r : Request) : StepOk (e.Stays r.command) r.now e (e.step r).2 (e.step r).1 := by
  obtain ⟨expected, now, command⟩ := r
  cases command <;> dsimp only [step, approve, reject, Prod.swap]
  case enterBranch node parent join reject policy =>
    exact stepOk_enterBranch h expected node parent join reject policy now
  case openApproval branchId seats deadline => exact stepOk_openApproval h expected branchId seats deadline now
  case addSign branchId seats by_ comment => exact stepOk_addSign h expected branchId seats by_ comment now
  case removeSign branchId taskIds by_ => exact stepOk_removeSign h expected branchId taskIds by_ now
  case claim taskId principal => exact stepOk_seat h (seatStep_claim h.linked expected taskId now principal)
  case approve taskId actor comment =>
    exact stepOk_seat h (seatStep_vote h.linked expected taskId now actor .approve comment)
  case reject taskId actor comment =>
    exact stepOk_seat h (seatStep_vote h.linked expected taskId now actor .reject comment)
  case acknowledge taskId actor => exact stepOk_seat h (seatStep_acknowledge h.linked expected taskId now actor)
  case transfer taskId recipient by_ =>
    exact stepOk_seat h (seatStep_transfer h.linked expected taskId now recipient by_)
  case delegate taskId recipient by_ =>
    exact stepOk_seat h (seatStep_delegate h.linked expected taskId now recipient by_)
  case returnToNode branchId targetNode by_ comment =>
    exact stepOk_returnToNode h expected branchId targetNode by_ comment now
  case withdraw by_ => exact stepOk_withdraw h expected by_ now
  case terminate by_ reason => exact stepOk_terminate h expected by_ reason now
  case finish => exact stepOk_finish h expected now
  case expire taskId => exact stepOk_seat h (seatStep_expire h.linked expected taskId now)

structure Sound (e : Engine) : Prop where
  oneBranch : ∀ k k' b b', e.branches.get k = some b → e.branches.get k' = some b' → b.status = .opened →
    b'.status = .opened → k = k'
  oneRound : ∀ k k' r r', e.rounds.get k = some r → e.rounds.get k' = some r' → r.branchId = r'.branchId →
    r.status = .opened → r'.status = .opened → k = k'
  seat : ∀ k t, e.tasks.get k = some t → t.status.isOpen = true → ∃ r, e.rounds.get t.roundId = some r ∧
    r.status = .opened
  round : ∀ k r, e.rounds.get k = some r → r.status = .opened →
    ∃ b, e.branches.get r.branchId = some b ∧ b.status = .opened ∧ e.CountsOf b r
  branch : ∀ k b, e.branches.get k = some b → b.status = .opened → e.inst.status.isTerminal = false
  jumps : e.inst.jumpCount ≤ maxJumps
  branchId : ∀ k b, e.branches.get k = some b → b.id = k ∧ e.rounds.get k = none ∧ e.tasks.get k = none
  roundId : ∀ k r, e.rounds.get k = some r → r.id = k ∧ e.tasks.get k = none
  taskId : ∀ k t, e.tasks.get k = some t → t.id = k

/-- What holds of a command: an error changes nothing, a success with effects is one revision, an instance that has
ended stays as it is, and so does a seat or a round that is closed.  A closed branch can only be superseded. -/
structure StepSound (e : Engine) (out : Except ApprovalError (List Effect)) (e' : Engine) : Prop where
  error : ∀ err, out = .error err → e' = e
  ok : ∀ effects, out = .ok effects → (effects = [] ∧ e' = e) ∨ (effects ≠ [] ∧ e'.inst.revision = e.inst.revision + 1)
  terminal : e.inst.status.isTerminal = true → e' = e ∧ ∃ err, out = .error err
  seat : ∀ k t, e.tasks.get k = some t → t.status.isOpen = false → e'.tasks.get k = some t
  round : ∀ k r, e.rounds.get k = some r → r.status ≠ .opened → e'.rounds.get k = some r
  branch : ∀ k b, e.branches.get k = some b → b.status ≠ .opened →
    ∃ b', e'.branches.get k = some b' ∧ (b'.status = b.status ∨ b'.status = .superseded)

lemma Inv.sound (h : Inv e) : e.Sound := by
  have hdisjoint : ∀ {label label' : Bytes} {k : Id}, label.head? ≠ label'.head? → label ≠ [] → label' ≠ [] →
      e.Given label k → e.Given label' k → False := by
    rintro label label' k hhead hl hl' ⟨m, -, rfl⟩ ⟨n, -, he⟩
    exact idOf_ne hhead hl hl' _ _ he
  refine ⟨h.live.oneBranch, fun k k' r r' hr hr' _ => h.live.oneRound k k' r r' hr hr', h.live.task,
    fun k r hr ho => ?_,
    h.live.branch, h.live.jumps, fun k b hb => ⟨(h.linked.branch k b hb).1, ?_, ?_⟩,
      fun k r hr => ⟨(h.linked.round k r hr).1, ?_⟩,
    fun k t ht => (h.linked.task k t ht).1⟩
  · obtain ⟨b, hb, hbo⟩ := h.live.round k r hr ho
    exact ⟨b, hb, hbo, h.counted k r b hr ho hb⟩
  · refine Option.eq_none_iff_forall_ne_some.2 fun r hr => ?_
    exact hdisjoint (by decide) (by decide) (by decide) (h.linked.branch k b hb).2 (h.linked.round k r hr).2.1
  · refine Option.eq_none_iff_forall_ne_some.2 fun t ht => ?_
    exact hdisjoint (by decide) (by decide) (by decide) (h.linked.branch k b hb).2 (h.linked.task k t ht).2.1
  · refine Option.eq_none_iff_forall_ne_some.2 fun t ht => ?_
    exact hdisjoint (by decide) (by decide) (by decide) (h.linked.round k r hr).2.1 (h.linked.task k t ht).2.1

lemma StepOk.sound (h : StepOk stays now e out e') :
    StepSound e out e' := by
  have hsame : e' = e → (∀ k t, e.tasks.get k = some t → t.status.isOpen = false → e'.tasks.get k = some t) ∧
      (∀ k r, e.rounds.get k = some r → r.status ≠ .opened → e'.rounds.get k = some r) ∧
      (∀ k b, e.branches.get k = some b → b.status ≠ .opened →
        ∃ b', e'.branches.get k = some b' ∧ (b'.status = b.status ∨ b'.status = .superseded)) := by
    rintro rfl
    exact ⟨fun _ _ ht _ => ht, fun _ _ hr _ => hr, fun _ b hb _ => ⟨b, hb, .inl rfl⟩⟩
  cases out with
  | error err =>
    obtain rfl : e' = e := h
    obtain ⟨hseat, hround, hbranch⟩ := hsame rfl
    exact ⟨fun _ _ => rfl, fun _ ho => (by cases ho), fun _ => ⟨rfl, err, rfl⟩, hseat, hround, hbranch⟩
  | ok effects =>
    obtain ⟨hrun, hcase⟩ := h
    have hterminal : e.inst.status.isTerminal = true → e' = e ∧ ∃ err : ApprovalError,
      Except.ok effects = Except.error err := by
      intro ht
      rw [hrun] at ht
      cases ht
    rcases hcase with ⟨-, rfl, rfl⟩ | ⟨hne, hrev, -, hev, -⟩
    · obtain ⟨hseat, hround, hbranch⟩ := hsame rfl
      exact ⟨fun _ ho => (by cases ho), fun _ ho => .inl ⟨(Except.ok.inj ho).symm, rfl⟩, hterminal, hseat,
        hround, hbranch⟩
    refine ⟨fun _ ho => (by cases ho), fun _ ho => .inr ⟨Except.ok.inj ho ▸ hne, hrev⟩, hterminal, fun k t ht hc => ?_,
      fun k r hr hc => ?_, fun k b hb hc => ?_⟩
    · obtain ⟨t', ht', hs⟩ := hev.tasks k t ht
      rw [ht', hs.closed hc]
    · obtain ⟨r', hr', hs⟩ := hev.rounds k r hr
      rw [hr', hs.closed hc]
    · obtain ⟨b', hb', hs⟩ := hev.branches k b hb
      exact ⟨b', hb', hs.closed hc⟩

lemma inv_start {spec : StartSpec} (h : start spec now = .ok e) : Inv e := by
  unfold start at h
  split at h
  · cases h
  split_ifs at h
  cases h
  refine ⟨⟨fun k b hb => ?_, fun k r hr => ?_, fun k t ht => ?_⟩,
    Quiet.live ⟨fun k t ht => ?_, fun k r hr => ?_, fun k b hb => ?_⟩
    (Nat.zero_le _), fun k r b hr => ?_⟩ <;> simp at *

lemma StepOk.inv (hi : Inv e) (h : StepOk stays now e out e') : Inv e' := by
  cases out with
  | error err => exact (show e' = e from h) ▸ hi
  | ok effects => exact h.2.elim (fun hc => hc.2.2 ▸ hi) fun hc => hc.2.2.2.2

/-- **Every run of the engine**, whatever the commands: its states are sound, and so are its steps. -/
theorem engine_sound {spec : StartSpec} {now : ℤ} {e₀ : Engine}
    (h : start spec now = .ok e₀) (requests : List Request) :
    (exec step e₀ requests).Sound ∧
    ∀ ev ∈ trace step e₀ requests, ev.before.Sound ∧ ev.after.Sound ∧ StepSound ev.before ev.out ev.after := by
  have hstep : ∀ e, ∀ r ∈ requests, Inv e → Inv (step e r).1 := fun e r _ hi => StepOk.inv hi (stepOk_step hi r)
  refine ⟨(exec_inv Inv (inv_start h) hstep).sound, fun ev hev => ?_⟩
  obtain ⟨hbefore, hafter⟩ := trace_inv Inv (inv_start h) hstep ev hev
  have hok := stepOk_step hbefore ev.act
  rw [(step_of_mem_trace step hev).1] at hok
  exact ⟨hbefore.sound, hafter.sound, hok.sound⟩

/-- An instance with two seats, of which one rejects. -/
def leaveSpec : StartSpec := ⟨ascii "i", ascii "ns", ascii "leave", ascii "1", ascii "h", ascii "ann"⟩

def leaveEngine : Engine := (start leaveSpec 0).toOption.get (by decide +kernel)

def leaveRequests : List Request :=
  [⟨0, 1, .enterBranch (ascii "boss") none .all .anyReject .default⟩,
    ⟨1, 2, .openApproval (ascii "i:branch-0001") [.approver (ascii "bob"), .approver (ascii "eve")] none⟩,
    ⟨2, 3, .reject (ascii "i:task-0003") (ascii "bob") none⟩,
    ⟨3, 4, .approve (ascii "i:task-0004") (ascii "eve") none⟩]

theorem engine_sound_leave : start leaveSpec 0 = .ok leaveEngine ∧ (exec step leaveEngine leaveRequests).Sound ∧
    (exec step leaveEngine leaveRequests).inst.status = .rejected := by
  have hstart : start leaveSpec 0 = .ok leaveEngine := by rfl
  exact ⟨hstart, (engine_sound hstart leaveRequests).1, by decide +kernel⟩

end Coord.Approval.Engine
