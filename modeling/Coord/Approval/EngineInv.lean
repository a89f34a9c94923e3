import Coord.Approval.Engine

/-!
# What every command of the approval engine keeps

The open seats, rounds and branches of an instance hang together: at most one branch is open, at most one round, and a
seat is open only in the open round.  Voting, adding and taking away seats, returns and deadlines all end in a recount,
which either gives the round its counts or closes everything that is open.
-/

namespace Coord.Approval

open Coord.Lib Table List

/-! ### Ids -/

lemma ofDigits_paddedNumber (n : ℕ) :
    Nat.ofDigits 10 ((paddedNumber n).reverse.map fun c => c.val - 48) = n := by
  have hdigits : ((Nat.digits 10 n).map fun d => Fin.ofNat 256 (48 + d)).map (fun c : Fin 256 => c.val - 48) =
      Nat.digits 10 n := by
    rw [map_map]
    refine (map_congr_left fun d hd => ?_).trans (map_id _)
    have hlt : d < 10 := Nat.digits_lt_base (by decide) hd
    simp only [Function.comp_apply, Fin.ofNat, id_eq]
    omega
  rw [paddedNumber, reverse_reverse, map_append, hdigits, map_replicate, Nat.ofDigits_append,
    Nat.ofDigits_digits]
  have hzero : ∀ m, Nat.ofDigits 10 (replicate m ((48 : Fin 256).val - 48)) = 0 := by
    intro m
    induction m with
    | zero => rfl
    | succ m ih =>
      rw [replicate_succ, Nat.ofDigits_cons, ih]
      rfl
  rw [hzero, Nat.mul_zero, Nat.add_zero]

lemma paddedNumber_injective : Function.Injective paddedNumber := by
  intro m n h
  rw [← ofDigits_paddedNumber m, h, ofDigits_paddedNumber]

lemma idOf_injective (instanceId label : Bytes) : Function.Injective (Engine.idOf instanceId label) := by
  intro m n h
  exact paddedNumber_injective (append_cancel_left h)

lemma idOf_ne {instanceId label label' : Bytes} (h : label.head? ≠ label'.head?) (hl : label ≠ []) (hl' : label' ≠ [])
    (m n : ℕ) : Engine.idOf instanceId label m ≠ Engine.idOf instanceId label' n := by
  intro he
  obtain ⟨a, l, rfl⟩ := exists_cons_of_ne_nil hl
  obtain ⟨b, l', rfl⟩ := exists_cons_of_ne_nil hl'
  simp only [Engine.idOf, append_assoc, append_cancel_left_eq, cons_append, List.cons.injEq] at he
  exact h (congrArg some he.1)

/-! ### References -/

namespace Engine

def Given (e : Engine) (label : Bytes) (id : Id) : Prop := ∃ n, n < e.seq ∧ id = idOf e.inst.id label (n + 1)

/-- Every row has its key as its id, which the engine has given, and refers to rows that are there. -/
structure Linked (e : Engine) : Prop where
  branch : ∀ k b, e.branches.get k = some b → b.id = k ∧ e.Given (ascii "branch") k
  round : ∀ k r, e.rounds.get k = some r → r.id = k ∧ e.Given (ascii "round") k ∧ ∃ b,
    e.branches.get r.branchId = some b
  task : ∀ k t, e.tasks.get k = some t → t.id = k ∧ e.Given (ascii "task") k ∧
    ∃ r, e.rounds.get t.roundId = some r ∧ r.branchId = t.branchId

/-- What is open, and what has to be open with it. -/
structure Live (e : Engine) : Prop where
  task : ∀ k t, e.tasks.get k = some t → t.status.isOpen = true → ∃ r, e.rounds.get t.roundId = some r ∧
    r.status = .opened
  round : ∀ k r, e.rounds.get k = some r → r.status = .opened → ∃ b, e.branches.get r.branchId = some b ∧
    b.status = .opened
  branch : ∀ k b, e.branches.get k = some b → b.status = .opened → e.inst.status.isTerminal = false
  oneBranch : ∀ k k' b b', e.branches.get k = some b → e.branches.get k' = some b' → b.status = .opened →
    b'.status = .opened → k = k'
  oneRound : ∀ k k' r r', e.rounds.get k = some r → e.rounds.get k' = some r' → r.status = .opened →
    r'.status = .opened → k = k'
  jumps : e.inst.jumpCount ≤ maxJumps

/-- The counts of a round are those of its seats, and they do not make a verdict. -/
def CountsOf (e : Engine) (b : Branch) (r : Round) : Prop :=
  r.totalCount = Approval.totalCount (e.approvals r.id) ∧
    r.completedCount = Approval.completedCount (e.approvals r.id) ∧
    r.rejectedCount = Approval.rejectedCount (e.approvals r.id) ∧ verdict b (e.approvals r.id) = none

def Counted (e : Engine) : Prop :=
  ∀ k r b, e.rounds.get k = some r → r.status = .opened → e.branches.get r.branchId = some b → e.CountsOf b r

structure Quiet (e : Engine) : Prop where
  task : ∀ k t, e.tasks.get k = some t → t.status.isOpen = false
  round : ∀ k r, e.rounds.get k = some r → r.status ≠ .opened
  branch : ∀ k b, e.branches.get k = some b → b.status ≠ .opened

lemma Quiet.live {e : Engine} (h : e.Quiet) (hj : e.inst.jumpCount ≤ maxJumps) : e.Live where
  task k t hk ho := absurd ho (by rw [h.task k t hk]; decide)
  round k r hk ho := absurd ho (h.round k r hk)
  branch k b hk ho := absurd ho (h.branch k b hk)
  oneBranch k _ b _ hk _ ho _ := absurd ho (h.branch k b hk)
  oneRound k _ r _ hk _ ho _ := absurd ho (h.round k r hk)
  jumps := hj

lemma Quiet.counted {e : Engine} (h : e.Quiet) : e.Counted := fun k r _ hk ho _ => absurd ho (h.round k r hk)

end Engine

/-! ### Changes that add no rows -/

/-- A seat stays the same seat, and a closed one stays as it is. -/
structure Task.Step (t t' : Task) : Prop where
  id : t'.id = t.id
  roundId : t'.roundId = t.roundId
  branchId : t'.branchId = t.branchId
  kind : t'.kind = t.kind
  closed : t.status.isOpen = false → t' = t

structure Round.Step (r r' : Round) : Prop where
  id : r'.id = r.id
  branchId : r'.branchId = r.branchId
  closed : r.status ≠ .opened → r' = r

/-- A closed branch can still be superseded by a later attempt at its node. -/
structure Branch.Step (b b' : Branch) : Prop where
  id : b'.id = b.id
  node : b'.node = b.node
  join : b'.join = b.join
  reject : b'.reject = b.reject
  policy : b'.policy = b.policy
  closed : b.status ≠ .opened → b'.status = b.status ∨ b'.status = .superseded

lemma Task.Step.refl (t : Task) : Task.Step t t := ⟨rfl, rfl, rfl, rfl, fun _ => rfl⟩

lemma Round.Step.refl (r : Round) : Round.Step r r := ⟨rfl, rfl, fun _ => rfl⟩

lemma Branch.Step.refl (b : Branch) : Branch.Step b b := ⟨rfl, rfl, rfl, rfl, rfl, fun _ => .inl rfl⟩

lemma Task.Step.trans (t u w : Task) (h : Task.Step t u) (h' : Task.Step u w) : Task.Step t w where
  id := h'.id.trans h.id
  roundId := h'.roundId.trans h.roundId
  branchId := h'.branchId.trans h.branchId
  kind := h'.kind.trans h.kind
  closed hc := by
    obtain rfl := h.closed hc
    exact h'.closed hc

lemma Round.Step.trans (r s w : Round) (h : Round.Step r s) (h' : Round.Step s w) : Round.Step r w where
  id := h'.id.trans h.id
  branchId := h'.branchId.trans h.branchId
  closed hc := by
    obtain rfl := h.closed hc
    exact h'.closed hc

lemma Branch.Step.trans (b c d : Branch) (h : Branch.Step b c) (h' : Branch.Step c d) : Branch.Step b d where
  id := h'.id.trans h.id
  node := h'.node.trans h.node
  join := h'.join.trans h.join
  reject := h'.reject.trans h.reject
  policy := h'.policy.trans h.policy
  closed hc := by
    rcases h.closed hc with hs | hs
    · exact (h'.closed (hs ▸ hc)).imp (fun hd => hd.trans hs) (fun hd => hd)
    · exact .inr ((h'.closed (by rw [hs]; decide)).elim (fun hd => hd.trans hs) (fun hd => hd))

lemma verdict_cases (b : Branch) (l : List Task) :
    verdict b l = none ∨ verdict b l = some .passed ∨ verdict b l = some .rejected := by
  unfold verdict
  dsimp only
  split_ifs <;> simp

variable {target : RoundStatus}

namespace Engine

/-- No row is added, none changes its place, and nothing closed is opened; the revision stays. -/
structure Keeps (e e' : Engine) : Prop where
  id : e'.inst.id = e.inst.id
  initiator : e'.inst.initiator = e.inst.initiator
  revision : e'.inst.revision = e.inst.revision
  jumps : e'.inst.jumpCount = e.inst.jumpCount
  seq : e'.seq = e.seq
  branches : e.branches.Maps Branch.Step e'.branches
  rounds : e.rounds.Maps Round.Step e'.rounds
  tasks : e.tasks.Maps Task.Step e'.tasks

lemma Keeps.refl (e : Engine) : Keeps e e :=
  ⟨rfl, rfl, rfl, rfl, rfl, .refl Branch.Step.refl _, .refl Round.Step.refl _, .refl Task.Step.refl _⟩

variable {e : Engine}

lemma Keeps.trans {f g : Engine} (h : Keeps e f) (h' : Keeps f g) : Keeps e g where
  id := h'.id.trans h.id
  initiator := h'.initiator.trans h.initiator
  revision := h'.revision.trans h.revision
  jumps := h'.jumps.trans h.jumps
  seq := h'.seq.trans h.seq
  branches := h.branches.trans Branch.Step.trans h'.branches
  rounds := h.rounds.trans Round.Step.trans h'.rounds
  tasks := h.tasks.trans Task.Step.trans h'.tasks

lemma Keeps.of_tasks {tasks : Table Id Task} (h : e.tasks.Maps Task.Step tasks) :
    Keeps e { e with tasks := tasks } :=
  ⟨rfl, rfl, rfl, rfl, rfl, .refl Branch.Step.refl _, .refl Round.Step.refl _, h⟩

lemma Keeps.of_rounds {rounds : Table Id Round} (h : e.rounds.Maps Round.Step rounds) :
    Keeps e { e with rounds := rounds } :=
  ⟨rfl, rfl, rfl, rfl, rfl, .refl Branch.Step.refl _, h, .refl Task.Step.refl _⟩

lemma Keeps.of_branches {branches : Table Id Branch} (h : e.branches.Maps Branch.Step branches) :
    Keeps e { e with branches := branches } :=
  ⟨rfl, rfl, rfl, rfl, rfl, h, .refl Round.Step.refl _, .refl Task.Step.refl _⟩

lemma Given.of_keeps {e' : Engine} (hk : Keeps e e') {label : Bytes} {id : Id} (h : e.Given label id) :
    e'.Given label id := by
  obtain ⟨n, hn, rfl⟩ := h
  exact ⟨n, by rw [hk.seq]; exact hn, by rw [hk.id]⟩

lemma Linked.of_keeps {e' : Engine} (h : e.Linked) (hk : Keeps e e') : e'.Linked where
  branch k b' hb' := by
    obtain ⟨b, hb, hs⟩ := hk.branches.back k b' hb'
    obtain ⟨hid, hg⟩ := h.branch k b hb
    exact ⟨hs.id.trans hid, hg.of_keeps hk⟩
  round k r' hr' := by
    obtain ⟨r, hr, hs⟩ := hk.rounds.back k r' hr'
    obtain ⟨hid, hg, b, hb⟩ := h.round k r hr
    obtain ⟨b', hb', -⟩ := hk.branches.forth _ b hb
    exact ⟨hs.id.trans hid, hg.of_keeps hk, b', by rw [hs.branchId]; exact hb'⟩
  task k t' ht' := by
    obtain ⟨t, ht, hs⟩ := hk.tasks.back k t' ht'
    obtain ⟨hid, hg, r, hr, hbr⟩ := h.task k t ht
    obtain ⟨r', hr', hsr⟩ := hk.rounds.forth _ r hr
    exact ⟨hs.id.trans hid, hg.of_keeps hk, r', by rw [hs.roundId]; exact hr', by rw [hsr.branchId, hbr, hs.branchId]⟩

/-! ### What the helpers change -/

section

variable {β : Type} {P : β → Prop} {old new : Table Id β} {id : Id} {ids : List Id}

/-- What is open afterwards is none of the ids, and was there before. -/
def Closes (P : β → Prop) (ids : List Id) (old new : Table Id β) : Prop :=
  ∀ k x, new.get k = some x → P x → k ∉ ids ∧ old.get k = some x

lemma Closes.nil (old : Table Id β) : Closes P [] old old := fun _ _ hk _ => ⟨not_mem_nil, hk⟩

lemma Closes.cons (h : Closes P ids old new) (hid : ∀ x, old.get id = some x → ¬ P x) :
    Closes P (id :: ids) old new := by
  intro k x hk hx
  obtain ⟨hmem, hget⟩ := h k x hk hx
  exact ⟨not_mem_cons_of_ne_of_not_mem (fun hkid => hid x (hkid ▸ hget) hx) hmem, hget⟩

lemma Closes.of_insert {y : β} (h : Closes P ids (old.insert id y) new) (hy : ¬ P y) :
    Closes P (id :: ids) old new := by
  intro k x hk hx
  obtain ⟨hmem, hget⟩ := h k x hk hx
  rcases get_insert_cases hget with ⟨-, rfl⟩ | ⟨hkid, hget⟩
  · exact absurd hx hy
  · exact ⟨not_mem_cons_of_ne_of_not_mem hkid hmem, hget⟩

end

lemma cancelTasks_spec (now : ℤ) (ids : List Id) (e : Engine) :
    (cancelTasks now ids e).1 = { e with tasks := (cancelTasks now ids e).1.tasks } ∧
    e.tasks.Maps Task.Step (cancelTasks now ids e).1.tasks ∧
    Closes (fun t => t.status.isOpen = true) ids e.tasks (cancelTasks now ids e).1.tasks := by
  induction ids generalizing e with
  | nil => exact ⟨rfl, .refl Task.Step.refl _, .nil _⟩
  | cons id ids ih =>
    rw [cancelTasks]
    split
    · next hnone =>
      obtain ⟨he, hmaps, hopen⟩ := ih e
      exact ⟨he, hmaps, hopen.cons fun t ht => by rw [hnone] at ht; cases ht⟩
    · next u hu =>
      split_ifs with huo
      · obtain ⟨he, hmaps, hopen⟩ :=
          ih { e with tasks := e.tasks.insert id { u with status := .cancelled, updatedAt := now } }
        have hstep : Task.Step u { u with status := .cancelled, updatedAt := now } :=
          ⟨rfl, rfl, rfl, rfl, fun hc => absurd huo (by rw [hc]; decide)⟩
        exact ⟨he, (maps_insert Task.Step.refl hu hstep).trans Task.Step.trans hmaps, hopen.of_insert nofun⟩
      · obtain ⟨he, hmaps, hopen⟩ := ih e
        exact ⟨he, hmaps, hopen.cons fun t ht => Option.some.inj (hu.symm.trans ht) ▸ huo⟩

lemma keeps_cancelTasks (now : ℤ) (ids : List Id) (e : Engine) : Keeps e (cancelTasks now ids e).1 := by
  obtain ⟨he, hmaps, -⟩ := cancelTasks_spec now ids e
  rw [he]
  exact Keeps.of_tasks hmaps

lemma closeRounds_spec (htarget : target ≠ .opened) (now : ℤ) {ids : List Id} (hnodup : ids.Nodup)
    {e : Engine} (hids : ∀ id ∈ ids, ∀ r, e.rounds.get id = some r → r.status = .opened) :
    (closeRounds target now ids e).1 = { e with rounds := (closeRounds target now ids e).1.rounds } ∧
    e.rounds.Maps Round.Step (closeRounds target now ids e).1.rounds ∧
    Closes (fun r => r.status = .opened) ids e.rounds (closeRounds target now ids e).1.rounds := by
  induction ids generalizing e with
  | nil => exact ⟨rfl, .refl Round.Step.refl _, .nil _⟩
  | cons id ids ih =>
    obtain ⟨hnot, hnodup⟩ := nodup_cons.1 hnodup
    rw [closeRounds]
    split
    · next hnone =>
      obtain ⟨he, hmaps, hopen⟩ := ih hnodup fun j hj => hids j (mem_cons_of_mem _ hj)
      exact ⟨he, hmaps, hopen.cons fun t ht => by rw [hnone] at ht; cases ht⟩
    next s hs =>
    have hso := hids id mem_cons_self s hs
    have hstep : Round.Step s { s with status := target, closedAt := some now } := ⟨rfl, rfl, fun hc => absurd hso hc⟩
    obtain ⟨he, hmaps, hopen⟩ := @ih hnodup
      { e with rounds := e.rounds.insert id { s with status := target, closedAt := some now } } fun j hj r hr => by
        have hji : j ≠ id := fun hji => hnot (hji ▸ hj)
        rw [get_insert_ne _ _ hji] at hr
        exact hids j (mem_cons_of_mem _ hj) r hr
    exact ⟨he, (maps_insert Round.Step.refl hs hstep).trans Round.Step.trans hmaps, hopen.of_insert htarget⟩

lemma closeRoundsOfBranch_spec (h : e.Linked) (bid : Id) (htarget : target ≠ .opened) (now : ℤ) :
    (e.closeRoundsOfBranch bid target now).1 = { e with rounds := (e.closeRoundsOfBranch bid target now).1.rounds } ∧
    e.rounds.Maps Round.Step (e.closeRoundsOfBranch bid target now).1.rounds ∧
    ∀ k r, (e.closeRoundsOfBranch bid target now).1.rounds.get k = some r → r.status = .opened →
      r.branchId ≠ bid ∧ e.rounds.get k = some r := by
  have hkeys : (e.rounds.rows.filter fun r => decide (r.2.branchId = bid ∧ r.2.status = .opened)).map (fun r =>
    r.2.id) =
      (e.rounds.rows.filter fun r => decide (r.2.branchId = bid ∧ r.2.status = .opened)).map Prod.fst :=
    map_congr_left fun r hr => (h.round r.1 r.2 (mem_rows.1 (mem_of_mem_filter hr))).1
  have hnodup : ((e.rounds.rows.filter fun r => decide (r.2.branchId = bid ∧
    r.2.status = .opened)).map Prod.fst).Nodup :=
    e.rounds.nodup_keys.sublist (filter_sublist.map _)
  unfold closeRoundsOfBranch
  rw [hkeys]
  obtain ⟨he, hmaps, hopen⟩ := closeRounds_spec htarget now hnodup (e := e) fun id hid r hr => by
    obtain ⟨row, hrow, rfl⟩ := List.mem_map.1 hid
    obtain ⟨hmem, hp⟩ := List.mem_filter.1 hrow
    cases (mem_rows.1 hmem).symm.trans hr
    exact (of_decide_eq_true hp).2
  refine ⟨he, hmaps, fun k r hk ho => ?_⟩
  obtain ⟨hnot, hget⟩ := hopen k r hk ho
  exact ⟨fun hb => hnot (List.mem_map.2 ⟨(k, r),
    List.mem_filter.2 ⟨mem_rows.2 hget, decide_eq_true ⟨hb, ho⟩⟩, rfl⟩), hget⟩

lemma setBranchStatus_spec (e : Engine) (bid : Id) {target : BranchStatus} (htarget : target ≠ .opened)
    (hbid : ∀ b, e.branches.get bid = some b → b.status = .opened ∨ target = .superseded) (now : ℤ) :
    (e.setBranchStatus bid target now).1 = { e with branches := (e.setBranchStatus bid target now).1.branches } ∧
    e.branches.Maps Branch.Step (e.setBranchStatus bid target now).1.branches ∧
    Closes (fun b => b.status = .opened) [bid] e.branches (e.setBranchStatus bid target now).1.branches := by
  unfold setBranchStatus
  split
  · next hnone =>
    exact ⟨rfl, .refl Branch.Step.refl _, (Closes.nil _).cons fun b hb => by rw [hnone] at hb; cases hb⟩
  next c hc =>
  split_ifs with hsame
  · refine ⟨rfl, .refl Branch.Step.refl _, (Closes.nil _).cons fun b hb ho => ?_⟩
    cases hc.symm.trans hb
    exact htarget (hsame.symm.trans ho)
  · have hstep : Branch.Step c { c with status := target, closedAt := c.closedAt.or (some now) } :=
      ⟨rfl, rfl, rfl, rfl, rfl, fun hcl => .inr ((hbid c hc).resolve_left hcl)⟩
    exact ⟨rfl, maps_insert Branch.Step.refl hc hstep, (Closes.nil _).of_insert htarget⟩

lemma closeBranch_spec (h : e.Linked) (bid : Id) {target : BranchStatus} (htarget : target ≠ .opened)
    (hbid : ∀ b, e.branches.get bid = some b → b.status = .opened) (now : ℤ) :
    Keeps e (e.closeBranch bid target now).1 ∧
    (e.closeBranch bid target now).1.tasks = e.tasks ∧ (e.closeBranch bid target now).1.rounds = e.rounds ∧
    Closes (fun b => b.status = .opened) [bid] e.branches (e.closeBranch bid target now).1.branches := by
  unfold closeBranch
  split
  · next hnone =>
    exact ⟨.refl e, rfl, rfl, (Closes.nil _).cons fun b hb => by rw [hnone] at hb; cases hb⟩
  next c hc =>
  obtain rfl := (h.branch bid c hc).1
  have hmaps : e.branches.Maps Branch.Step (e.branches.insert c.id { c with status := target, closedAt := some now }) :=
    maps_insert Branch.Step.refl hc ⟨rfl, rfl, rfl, rfl, rfl, fun hcl => absurd (hbid c hc) hcl⟩
  have hkeeps := Keeps.of_branches (e := e) hmaps
  split_ifs
  · exact ⟨⟨rfl, rfl, rfl, rfl, rfl, hkeeps.branches, hkeeps.rounds, hkeeps.tasks⟩, rfl, rfl,
      (Closes.nil _).of_insert htarget⟩
  · exact ⟨hkeeps, rfl, rfl, (Closes.nil _).of_insert htarget⟩

lemma mem_openTasks (h : e.Linked) {p : Task → Bool} {k : Id} {t : Task} (hk : e.tasks.get k = some t)
    (hp : p t = true) (ho : t.status.isOpen = true) : k ∈ e.openTasks p :=
  List.mem_map.2 ⟨(k, t), List.mem_filter.2 ⟨mem_rows.2 hk, by simp [hp, ho]⟩, (h.task k t hk).1⟩

/-! ### Closing everything that is open -/

/-- The open branch of an instance is shut: all open seats, its rounds and the branch itself. -/
lemma shut_spec (hl : e.Linked) (h : e.Live) {bid : Id} {b : Branch} (hb : e.branches.get bid = some b)
    (hbo : b.status = .opened) {ids : List Id}
    (hids : ∀ k t, e.tasks.get k = some t → t.status.isOpen = true → k ∈ ids) {rs : RoundStatus} (hrs : rs ≠ .opened)
    {bs : BranchStatus} (hbs : bs ≠ .opened) (now : ℤ) :
    let e₁ := (cancelTasks now ids e).1
    let e₂ := (e₁.closeRoundsOfBranch bid rs now).1
    let e₃ := (e₂.setBranchStatus bid bs now).1
    Keeps e e₃ ∧ e₃.Quiet ∧ e₃.inst = e.inst ∧ e₃.nodeAttempts = e.nodeAttempts := by
  intro e₁ e₂ e₃
  obtain ⟨he₁, hmaps₁, hopen₁⟩ := cancelTasks_spec now ids e
  have hk₁ : Keeps e e₁ := keeps_cancelTasks now ids e
  obtain ⟨he₂, hmaps₂, hopen₂⟩ := closeRoundsOfBranch_spec (hl.of_keeps hk₁) bid hrs now
  have hk₂ : Keeps e₁ e₂ := by
    change Keeps e₁ (e₁.closeRoundsOfBranch bid rs now).1
    rw [he₂]
    exact Keeps.of_rounds hmaps₂
  have hbranches : e₂.branches = e.branches := by rw [show e₂ = _ from he₂, show e₁ = _ from he₁]
  have hopened : ∀ c, e₂.branches.get bid = some c → c.status = .opened := by
    intro c hc
    rw [hbranches, hb] at hc
    cases hc
    exact hbo
  obtain ⟨he₃, hmaps₃, hopen₃⟩ := setBranchStatus_spec e₂ bid hbs (fun c hc => .inl (hopened c hc)) now
  have hk₃ : Keeps e₂ e₃ := by
    change Keeps e₂ (e₂.setBranchStatus bid bs now).1
    rw [he₃]
    exact Keeps.of_branches hmaps₃
  have hrounds₁ : e₁.rounds = e.rounds := by rw [show e₁ = _ from he₁]
  have htasks : e₃.tasks = e₁.tasks := by rw [show e₃ = _ from he₃, show e₂ = _ from he₂]
  have hrounds : e₃.rounds = e₂.rounds := by rw [show e₃ = _ from he₃]
  refine ⟨(hk₁.trans hk₂).trans hk₃, ⟨fun k t hk => ?_, fun k r hk ho => ?_, fun k c hk ho => ?_⟩, ?_, ?_⟩
  · rw [htasks] at hk
    by_contra ho
    have ho : t.status.isOpen = true := by simpa using ho
    obtain ⟨hnot, hget⟩ := hopen₁ k t hk ho
    exact hnot (hids k t hget ho)
  · rw [hrounds] at hk
    obtain ⟨hne, hget⟩ := hopen₂ k r hk ho
    obtain ⟨c, hc, hco⟩ := h.round k r (hrounds₁ ▸ hget) ho
    exact hne (h.oneBranch _ _ c b hc hb hco hbo)
  · obtain ⟨hne, hget⟩ := hopen₃ k c hk ho
    rw [hbranches] at hget
    exact hne (mem_singleton.2 (h.oneBranch _ _ c b hget hb ho hbo))
  · rw [show e₃ = _ from he₃, show e₂ = _ from he₂, show e₁ = _ from he₁]
  · rw [show e₃ = _ from he₃, show e₂ = _ from he₂, show e₁ = _ from he₁]

/-- A verdict closes the round, its seats and its branch, which are all that is open. -/
lemma settle_spec (hl : e.Linked) (h : e.Live) {rid : Id} {r : Round} (hr : e.rounds.get rid = some r)
    (hro : r.status = .opened) (round : Round) (hid : round.id = r.id) (hbid : round.branchId = r.branchId)
    (htarget : target ≠ .opened) {branchTo : BranchStatus} (hbranchTo : branchTo ≠ .opened) (event : Bytes) (now : ℤ) :
    Keeps e (e.settle rid round target branchTo event now).1 ∧
      (e.settle rid round target branchTo event now).1.Quiet := by
  have hrid : round.id = rid := hid.trans (hl.round rid r hr).1
  have hr' : e.rounds.get round.id = some r := by rw [hrid, hr]
  set e₁ : Engine := { e with rounds := e.rounds.insert round.id { round with status := target, closedAt := some now } }
  have hk₁ : Keeps e e₁ :=
    Keeps.of_rounds (maps_insert Round.Step.refl hr' ⟨hid, hbid, fun hc => absurd hro hc⟩)
  obtain ⟨he₂, hmaps₂, hopen₂⟩ := cancelTasks_spec now (e₁.openTasks fun t => decide (t.roundId = rid)) e₁
  set e₂ := (cancelTasks now (e₁.openTasks fun t => decide (t.roundId = rid)) e₁).1
  have hk₂ : Keeps e₁ e₂ := keeps_cancelTasks now _ e₁
  have hl₂ := (hl.of_keeps hk₁).of_keeps hk₂
  obtain ⟨b, hb, hbo⟩ := h.round rid r hr hro
  have hopened : ∀ c, e₂.branches.get round.branchId = some c → c.status = .opened := by
    intro c hc
    rw [he₂, hbid, show e₁.branches = e.branches from rfl, hb] at hc
    cases hc
    exact hbo
  obtain ⟨hk₃, htasks₃, hrounds₃, hopen₃⟩ := closeBranch_spec hl₂ round.branchId hbranchTo hopened now
  have hsettle : (e.settle rid round target branchTo event now).1 = (e₂.closeBranch round.branchId branchTo now).1 :=
    rfl
  rw [hsettle]
  refine ⟨(hk₁.trans hk₂).trans hk₃, fun k t hk => ?_, fun k s hk ho => ?_, fun k c hk ho => ?_⟩
  · rw [htasks₃] at hk
    by_contra ho
    have ho : t.status.isOpen = true := by simpa using ho
    obtain ⟨hnot, hget⟩ := hopen₂ k t hk ho
    obtain ⟨s, hs, hso⟩ := h.task k t hget ho
    have hround : t.roundId = rid := h.oneRound _ _ s r hs hr hso hro
    exact hnot (mem_openTasks (hl.of_keeps hk₁) hget (decide_eq_true hround) ho)
  · rw [hrounds₃, he₂] at hk
    rcases get_insert_cases hk with ⟨-, rfl⟩ | ⟨hkr, hk⟩
    · exact htarget ho
    · exact hkr ((h.oneRound _ _ s r hk hr ho hro).trans hrid.symm)
  · obtain ⟨hne, hget⟩ := hopen₃ k c hk ho
    rw [he₂] at hget
    exact hne (mem_singleton.2 ((h.oneBranch _ _ c b hget hb ho hbo).trans hbid.symm))

/-- **The recount of the open round**: its counts are right and make no verdict, or nothing is open. -/
theorem recount_spec (hl : e.Linked) (h : e.Live) {rid : Id} {r : Round} (hr : e.rounds.get rid = some r)
    (hro : r.status = .opened) (now : ℤ) :
    Keeps e (e.recount rid now).1 ∧ (e.recount rid now).1.Live ∧ (e.recount rid now).1.Counted ∧
      (e.recount rid now).2 ≠ [] ∧ ∀ b ∈ e.branches.get r.branchId, if verdict b (e.approvals r.id) = none then
        (e.recount rid now).1 = { e with rounds := e.rounds.insert r.id (e.countRound r) }
      else (e.recount rid now).1.Quiet := by
  obtain ⟨b, hb, hbo⟩ := h.round rid r hr hro
  have hquiet : ∀ {e' : Engine} {out : List Effect} {v}, verdict b (e.approvals r.id) = some v → Keeps e e' ∧ e'.Quiet →
      out ≠ [] → Keeps e e' ∧ e'.Live ∧ e'.Counted ∧ out ≠ [] ∧ ∀ c ∈ some b,
        if verdict c (e.approvals r.id) = none then
        e' = { e with rounds := e.rounds.insert r.id (e.countRound r) } else e'.Quiet := by
    rintro e' out v hv ⟨hk, hq⟩ hne
    exact ⟨hk, hq.live (by rw [hk.jumps]; exact h.jumps), hq.counted, hne, by rintro _ ⟨⟩; simpa [hv] using hq⟩
  rw [recount, hr]
  dsimp only
  rw [if_neg (not_not_intro hro), hb]
  dsimp only
  rw [if_neg (not_not_intro hbo)]
  split
  · next hv =>
    exact hquiet hv (settle_spec hl h hr hro (e.countRound r) rfl rfl (by decide : RoundStatus.passed ≠ .opened)
      (by decide : BranchStatus.completed ≠ .opened) (ascii "com.china-workflow.approval.round.passed.v1") now)
      (cons_ne_nil _ _)
  · next hv =>
    exact hquiet hv (settle_spec hl h hr hro (e.countRound r) rfl rfl (by decide : RoundStatus.rejected ≠ .opened)
      (by decide : BranchStatus.rejected ≠ .opened) (ascii "com.china-workflow.approval.round.rejected.v1") now)
      (cons_ne_nil _ _)
  next hpassed hrejected =>
  have hverdict : verdict b (e.approvals r.id) = none := by
    rcases verdict_cases b (e.approvals r.id) with hv | hv | hv
    · exact hv
    · exact absurd hv hpassed
    · exact absurd hv hrejected
  have hid : r.id = rid := (hl.round rid r hr).1
  have hr' : e.rounds.get r.id = some r := by rw [hid, hr]
  have hopen : ∀ k s, (e.rounds.insert r.id (e.countRound r)).get k = some s → s.status = .opened →
      k = r.id ∧ s = e.countRound r := by
    intro k s hk ho
    rcases get_insert_cases hk with hk | ⟨hkr, hk⟩
    · exact hk
    · exact absurd (h.oneRound _ _ s r hk hr' ho hro) hkr
  refine ⟨Keeps.of_rounds (maps_insert Round.Step.refl hr' ⟨rfl, rfl, fun hc => absurd hro hc⟩),
    ⟨fun k t hk ho => ?_, fun k s hk ho => ?_, h.branch, h.oneBranch, fun k k' s s' hk hk' ho ho' => ?_, h.jumps⟩,
    fun k s c hk ho hc => ?_, cons_ne_nil _ _, by rintro _ ⟨⟩; rw [if_pos hverdict]⟩
  · obtain ⟨s, hs, hso⟩ := h.task k t hk ho
    have hround : t.roundId = r.id := h.oneRound _ _ s r hs hr' hso hro
    exact ⟨e.countRound r, by rw [hround]; exact get_insert_self _ _ _, hro⟩
  · obtain ⟨-, rfl⟩ := hopen k s hk ho
    exact ⟨b, hb, hbo⟩
  · exact (hopen k s hk ho).1.trans (hopen k' s' hk' ho').1.symm
  · obtain ⟨-, rfl⟩ := hopen k s hk ho
    cases hb.symm.trans hc
    exact ⟨rfl, rfl, rfl, hverdict⟩

end Engine

end Coord.Approval
