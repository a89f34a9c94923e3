import Coord.Approval.Votes

/-!
# What an operation writes

An operation gives its instance one command or more, all at one time, each after the guards of the bridge.  So what it
wants to write is sound and fair when what it has read is, its votes are the vote of the command, and the instance has a
later revision with the time of the operation, unless it has taken away no seat.
-/

namespace Coord.Approval

open Coord.Lib Table List

variable {effects : List Effect} {seats : List SeatSpec}

namespace Engine

/-! ### Commands of the bridge -/

/-- What commands of the bridge make of an aggregate at one time: it stays sound and fair, it has a later revision with
that time, and its new votes are in `C`. -/
structure Led (C : Id → VoteRecord → Prop) (now : ℤ) (e e' : Engine) : Prop where
  inv : Inv e'
  follows : Follows C e e'
  evolves : Evolves e e'
  revision : e.inst.revision < e'.inst.revision
  time : e'.inst.updatedAt = now

section

variable {C : Id → VoteRecord → Prop} {now : ℤ} {e f e' : Engine}

lemma Led.mono {D : Id → VoteRecord → Prop} (h : Led C now e e') (hCD : ∀ k v, C k v → D k v) : Led D now e e' :=
  ⟨h.inv, h.follows.mono hCD, h.evolves, h.revision, h.time⟩

lemma Led.trans (h : Led C now e f) (h' : Led (fun _ _ => False) now f e') : Led C now e e' where
  inv := h'.inv
  follows := ⟨h'.follows.fair, h'.follows.seated, fun k t' v ht' hv => by
    obtain ⟨t, ht, hv⟩ := (h'.follows.votes k t' v ht' hv).resolve_right id
    exact h.follows.votes k t v ht hv⟩
  evolves := h.evolves.trans h'.evolves
  revision := h.revision.trans h'.revision
  time := h'.time

theorem stays_or_led (hi : Inv e) (hf : e.Fair) (hs : e.Seated) {c : Command} (ha : e.Admits c)
    (h : e.step ⟨e.inst.revision, now, c⟩ = (e', .ok effects)) :
    (e.Stays c ∧ e' = e) ∨ Led (fun k v => e.Cast k v ∧ Gives c k v) now e e' := by
  have hok := stepOk_step hi ⟨e.inst.revision, now, c⟩
  have hfollows := follows_step hi hf hs ⟨e.inst.revision, now, c⟩ ha
  rw [h] at hok hfollows
  obtain ⟨-, ⟨hst, -, he⟩ | ⟨-, hrev, htime, hev, hinv⟩⟩ := hok
  · exact .inl ⟨hst, he⟩
  · have hrev : e'.inst.revision = e.inst.revision + 1 := hrev
    exact .inr ⟨hinv, hfollows, hev, by omega, htime⟩

lemma led_step (hi : Inv e) (hf : e.Fair) (hs : e.Seated) {c : Command} (ha : e.Admits c)
    (hstays : ¬ e.Stays c) (h : e.step ⟨e.inst.revision, now, c⟩ = (e', .ok effects)) :
    Led (fun k v => e.Cast k v ∧ Gives c k v) now e e' :=
  (stays_or_led hi hf hs ha h).resolve_left fun hst => hstays hst.1

lemma Inv.setActingService (h : Inv e) (service : Option Principal) : Inv (e.setActingService service) where
  linked := ⟨h.linked.branch, h.linked.round, h.linked.task⟩
  live := ⟨h.live.task, h.live.round, h.live.branch, h.live.oneBranch, h.live.oneRound, h.live.jumps⟩
  counted := h.counted

lemma Fair.setActingService (h : e.Fair) (service : Option Principal) : (e.setActingService service).Fair :=
  ⟨h.join, h.held, h.voted, h.passed, h.own⟩

lemma Led.setActingService {service service' : Option Principal} (h : Led C now (e.setActingService service) f) :
    Led C now e (f.setActingService service') where
  inv := h.inv.setActingService _
  follows := ⟨h.follows.fair.setActingService _, h.follows.seated, h.follows.votes⟩
  evolves := ⟨h.evolves.id, h.evolves.initiator, h.evolves.branches, h.evolves.rounds, h.evolves.tasks⟩
  revision := h.revision
  time := h.time

end

lemma mayAct_of_guard {e : Engine} {actor : Principal} {tid : Id} {u : Unit}
    (h : e.guardSelfApprove actor tid = .ok u) :
    e.MayAct tid actor := by
  intro t b ht hb hoff hknown heq
  unfold guardSelfApprove at h
  rw [if_neg (by simp [hknown, heq]), ht, Option.bind_some, hb] at h
  dsimp only at h
  rw [if_neg (by simp [hoff])] at h
  cases h

lemma priorSeats_hasApprover {e : Engine} (hl : e.Linked) (hf : e.Fair) (hs : e.Seated) {node : Bytes}
    (h : e.priorSeats node = .ok seats) : HasApprover seats := by
  unfold priorSeats at h
  split at h
  · cases h
  next b _ =>
  dsimp only at h
  split_ifs at h with hne
  cases h
  obtain ⟨seat, hseat⟩ := exists_mem_of_ne_nil _ hne
  obtain ⟨t, ht, -⟩ := List.mem_map.1 hseat
  obtain ⟨hmem, hbranch⟩ := List.mem_filter.1 ht
  obtain ⟨⟨k, t⟩, hrow, rfl⟩ := List.mem_map.1 hmem
  obtain ⟨-, -, r, hr, hrb⟩ := hl.task k t (mem_rows.1 hrow)
  -- the round of any of its seats has an approval seat, which is a seat of the same branch
  obtain ⟨j, u, hu, hround, hkind⟩ := hs _ r hr
  obtain ⟨-, -, r', hr', hrb'⟩ := hl.task j u hu
  rw [hround, hr] at hr'
  cases hr'
  refine ⟨⟨u.assignee, u.candidates, u.kind⟩, List.mem_map.2 ⟨u, List.mem_filter.2 ⟨?_, ?_⟩, rfl⟩, hkind,
    hf.held j u hu⟩
  · exact List.mem_map.2 ⟨(j, u), mem_rows.2 hu, rfl⟩
  · exact decide_eq_true (hrb'.symm.trans (hrb.trans (of_decide_eq_true hbranch)))

end Engine

/-! ### What the bridge plans -/

lemma roleSeats_held {resolver : Resolver} {roles : List Bytes}
    (h : roleSeats resolver roles = .ok seats) : ∀ s ∈ seats, s.assignee ≠ none := by
  induction roles generalizing seats with
  | nil =>
    cases h
    simp
  | cons role roles ih =>
    unfold roleSeats at h
    split at h
    · cases h
    obtain ⟨rest, hrest, rfl⟩ := map_eq_ok h
    intro s hs
    rcases mem_append.1 hs with hs | hs
    · obtain ⟨p, -, rfl⟩ := List.mem_map.1 hs
      exact Option.some_ne_none p
    · exact ih hrest s hs

lemma resolveSeats_hasApprover {resolver : Resolver} {task : ApproveTask}
    (h : resolveSeats resolver task = .ok seats) : Engine.HasApprover seats := by
  unfold resolveSeats at h
  obtain ⟨approvers, -, h⟩ := bind_eq_ok h
  obtain ⟨pool, -, h⟩ := bind_eq_ok h
  obtain ⟨readers, -, h⟩ := bind_eq_ok h
  obtain ⟨roles, -, h⟩ := bind_eq_ok h
  obtain ⟨held, hheld, h⟩ := bind_eq_ok h
  have hpool : ∀ s ∈ (if pool = [] then [] else [SeatSpec.pool pool]), s.candidates ≠ [] := by
    intro s hs
    split_ifs at hs with hempty
    · cases hs
    · cases mem_singleton.1 hs
      exact hempty
  generalize (if pool = [] then [] else [SeatSpec.pool pool]) = pooled at h hpool
  dsimp only at h
  split_ifs at h with hany
  cases h
  obtain ⟨s, hs, hkind⟩ := any_eq_true.1 hany
  refine ⟨s, hs, of_decide_eq_true hkind, ?_⟩
  simp only [mem_append, List.mem_map] at hs
  rcases hs with ((⟨p, -, rfl⟩ | hs) | ⟨p, -, rfl⟩) | hs
  · exact .inl (Option.some_ne_none p)
  · exact .inr (hpool s hs)
  · exact .inl (Option.some_ne_none p)
  · exact .inl (roleSeats_held hheld s hs)

lemma Answer.effects_eq_ok {α : Type} {f : α → List Effect} {a : Answer α} {e' : Engine}
    (h : a.effects f = .ok (e', effects)) : ∃ x, a = (.ok x, e') ∧ effects = f x := by
  obtain ⟨out, e⟩ := a
  cases out with
  | error err => cases h
  | ok x =>
    cases h
    exact ⟨x, rfl, rfl⟩

/-- A command gives this vote on the seat `k`. -/
def ApprovalCommand.Gives (cmd : ApprovalCommand) (actor : Principal) (k : Id) (v : VoteRecord) : Prop :=
  match cmd with
  | .approve tid comment => k = tid ∧ v.actor = actor ∧ v.decision = .approve ∧ v.comment = comment
  | .reject tid comment => k = tid ∧ v.actor = actor ∧ v.decision = .reject ∧ v.comment = comment
  | _ => False

/-- The command takes away seats, and none of them is open. -/
def ApprovalCommand.Idle (cmd : ApprovalCommand) (e : Engine) : Prop :=
  match cmd with
  | .removeSign ids => ids ≠ [] ∧ ∀ id ∈ ids, ((e.tasks.get id).map fun t => t.status.isOpen).getD false = false
  | _ => False

instance (cmd : ApprovalCommand) (e : Engine) : Decidable (cmd.Idle e) := by
  unfold ApprovalCommand.Idle
  split <;> infer_instance

section

open Engine

variable {e e' : Engine} (hi : Inv e) (hf : e.Fair) (hs : e.Seated) {now : ℤ}
include hi hf hs

lemma led_openApproval {bid : Id} (hseats : HasApprover seats) {deadline : Option ℤ}
    {a : Id × List Id × List Effect} (h : e.openApproval e.inst.revision bid seats deadline now = (.ok a, e')) :
    Led (fun _ _ => False) now e e' := by
  have hstep : e.step ⟨e.inst.revision, now, .openApproval bid seats deadline⟩ = (e', .ok a.2.2) := by
    dsimp only [Engine.step]
    rw [h]
    rfl
  exact (led_step hi hf hs (c := .openApproval bid seats deadline) hseats id hstep).mono fun _ _ h => h.2

lemma led_answer (c : Command) (ha : e.Admits c) (hstays : ¬ e.Stays c) {f : List Effect → List Effect}
    (h : Answer.effects f (e.step ⟨e.inst.revision, now, c⟩).swap = .ok (e', effects)) :
    Led (fun k v => e.Cast k v ∧ Gives c k v) now e e' := by
  obtain ⟨x, hx, -⟩ := Answer.effects_eq_ok h
  exact led_step hi hf hs ha hstays (congrArg Prod.swap hx)

lemma led_applyCommand {actor : Principal} {cmd : ApprovalCommand}
    (h : applyCommand e actor cmd now = .ok (e', effects)) :
    (cmd.Idle e ∧ e' = e) ∨ Led (fun k v => e.Cast k v ∧ cmd.Gives actor k v) now e e' := by
  cases cmd with
  | approve tid comment =>
    obtain ⟨u, hguard, h⟩ := bind_eq_ok h
    exact .inr (led_answer hi hf hs (.approve tid actor comment) (mayAct_of_guard hguard) id h)
  | reject tid comment =>
    obtain ⟨u, hguard, h⟩ := bind_eq_ok h
    exact .inr (led_answer hi hf hs (.reject tid actor comment) (mayAct_of_guard hguard) id h)
  | acknowledge tid =>
    obtain ⟨u, -, h⟩ := bind_eq_ok h
    exact .inr (led_answer hi hf hs (.acknowledge tid actor) trivial id h)
  | addSign bid seats comment =>
    obtain ⟨u, -, h⟩ := bind_eq_ok h
    obtain ⟨x, hx, -⟩ := Answer.effects_eq_ok h
    have hstep : e.step ⟨e.inst.revision, now, .addSign bid seats actor comment⟩ = (e', .ok x.2) := by
      dsimp only [Engine.step]
      rw [hx]
      rfl
    exact .inr (led_step (c := .addSign bid seats actor comment) hi hf hs trivial id hstep)
  | removeSign ids =>
    obtain ⟨bid, -, h⟩ := bind_eq_ok h
    obtain ⟨u, -, h⟩ := bind_eq_ok h
    obtain ⟨x, hx, -⟩ := Answer.effects_eq_ok h
    have hstep : e.step ⟨e.inst.revision, now, .removeSign bid ids actor⟩ = (e', .ok x) := congrArg Prod.swap hx
    exact stays_or_led (c := .removeSign bid ids actor) hi hf hs trivial hstep
  | returnToNode bid targetNode comment =>
    obtain ⟨u, -, h⟩ := bind_eq_ok h
    obtain ⟨seats, hseats, h⟩ := bind_eq_ok h
    split at h
    · cases h
    next newBranch out f hreturn =>
    obtain ⟨x, hx, -⟩ := Answer.effects_eq_ok h
    have hstep : e.step ⟨e.inst.revision, now, .returnToNode bid targetNode actor comment⟩ = (f, .ok out) := by
      dsimp only [Engine.step]
      rw [hreturn]
      rfl
    have hled := led_step (c := .returnToNode bid targetNode actor comment) hi hf hs trivial id hstep
    have happrover : HasApprover seats := by
      cases hprior : e.priorSeats targetNode with
      | error err =>
        rw [hprior] at hseats
        cases hseats
      | ok prior =>
        rw [hprior] at hseats
        cases hseats
        exact priorSeats_hasApprover hi.linked hf hs hprior
    exact .inr (hled.trans (led_openApproval hled.inv hled.follows.fair hled.follows.seated happrover hx))
  | transfer tid recipient =>
    obtain ⟨u, -, h⟩ := bind_eq_ok h
    exact .inr (led_answer hi hf hs (.transfer tid recipient actor) trivial id h)
  | delegate tid recipient =>
    obtain ⟨u, hguard, h⟩ := bind_eq_ok h
    exact .inr (led_answer hi hf hs (.delegate tid recipient actor) (mayAct_of_guard hguard) id h)
  | withdraw =>
    exact .inr (led_answer hi hf hs (.withdraw actor) trivial id h)
  | terminate reason =>
    obtain ⟨u, -, h⟩ := bind_eq_ok h
    exact .inr (led_answer hi hf hs (.terminate actor reason) trivial id h)

lemma led_openNode {node : Bytes} {task : ApproveTask} (hseats : HasApprover seats)
    {deadline : Option ℤ} (h : openNode e node task seats deadline now = .ok (e', effects)) :
    Led (fun _ _ => False) now e e' := by
  unfold openNode at h
  split at h
  · cases h
  next bid out f henter =>
  obtain ⟨x, hx, -⟩ := Answer.effects_eq_ok h
  have hstep : e.step ⟨e.inst.revision, now, .enterBranch node none task.mode task.rejectPolicy
      ⟨task.allowSelfApprove, task.signAdmins⟩⟩ = (f, .ok out) := by
    dsimp only [Engine.step]
    rw [henter]
    rfl
  have hled := (led_step hi hf hs (show e.Admits (.enterBranch _ _ _ _ _) from task.positive) id hstep).mono
    fun _ _ h => (h.2 : False)
  exact hled.trans (led_openApproval hled.inv hled.follows.fair hled.follows.seated hseats hx)

lemma led_expireAll {ids : List Id} (hne : ids ≠ [])
    (h : expireAll now ids e = .ok (e', effects)) : Led (fun _ _ => False) now e e' := by
  induction ids generalizing e effects with
  | nil => exact absurd rfl hne
  | cons id ids ih =>
    obtain ⟨⟨f, out⟩, hf₁, h⟩ := bind_eq_ok h
    obtain ⟨⟨g, rest⟩, hg, h⟩ := bind_eq_ok h
    cases h
    obtain ⟨x, hx, -⟩ := Answer.effects_eq_ok hf₁
    have hled := (led_step (c := .expire id) hi hf hs trivial (fun h => h) (congrArg Prod.swap hx)).mono
      fun _ _ h => (h.2 : False)
    by_cases hids : ids = []
    · subst hids
      cases hg
      exact hled
    · exact hled.trans (ih hled.inv hled.follows.fair hled.follows.seated hids hg)

end

/-! ### Deadlines -/

section

open Engine

/-- The seats are marked as expired, and nothing is counted. -/
def expired (now : ℤ) (tasks : Table Id Task) (ids : List Id) : Table Id Task :=
  ids.foldl (fun tasks id => (tasks.get id).elim tasks fun t =>
    tasks.insert id { t with status := .expired, updatedAt := now }) tasks

/-- The open round of the instance has no verdict with these seats. -/
def NoVerdict (e : Engine) (tasks : Table Id Task) : Prop :=
  ∀ k r b, e.rounds.get k = some r → r.status = .opened → e.branches.get r.branchId = some b →
    verdict b ({ e with tasks }.approvals r.id) = none

/-- There is no verdict when the first few of the seats have expired, but not all of them. -/
def Undecided (now : ℤ) (ids : List Id) (e : Engine) : Prop :=
  ∀ n < ids.length, 0 < n → NoVerdict e (expired now e.tasks (ids.take n))

instance (e : Engine) (tasks : Table Id Task) : Decidable (NoVerdict e tasks) :=
  decidable_of_iff (∀ row ∈ e.rounds.rows, row.2.status = .opened → ∀ b ∈ e.branches.get row.2.branchId,
      verdict b ({ e with tasks }.approvals row.2.id) = none)
    ⟨fun h k r b hr ho hb => h (k, r) (mem_rows.2 hr) ho b hb,
      fun h row hrow ho b hb => h row.1 row.2 b (mem_rows.1 hrow) ho hb⟩

instance (now : ℤ) (ids : List Id) (e : Engine) : Decidable (Undecided now ids e) := by
  unfold Undecided
  infer_instance

variable {e : Engine} {now : ℤ}

/-- A recount that leaves the round open changes nothing about verdicts. -/
lemma noVerdict_congr {f : Engine} {r r' : Round} (hbranches : f.branches = e.branches)
    (hr : e.rounds.get r.id = some r)
    (hrounds : f.rounds = e.rounds.insert r.id r') (hid : r'.id = r.id) (hbid : r'.branchId = r.branchId)
    (hstatus : r'.status = r.status) (tasks : Table Id Task) : NoVerdict f tasks ↔ NoVerdict e tasks := by
  constructor
  · intro h k s c hs hso hc
    by_cases hkr : k = r.id
    · subst hkr
      cases hs.symm.trans hr
      have := h r.id r' c (by rw [hrounds, get_insert_self]) (hstatus.trans hso) (by rw [hbranches, hbid]; exact hc)
      rwa [hid] at this
    · exact h k s c (by rw [hrounds, get_insert_ne _ _ hkr]; exact hs) hso (by rw [hbranches]; exact hc)
  · intro h k s c hs hso hc
    rw [hrounds] at hs
    rw [hbranches] at hc
    rcases get_insert_cases hs with ⟨-, rfl⟩ | ⟨-, hs⟩
    · have := h r.id r c hr (hstatus ▸ hso) (hbid ▸ hc)
      rwa [← hid] at this
    · exact h k s c hs hso hc

/-- A due seat that is marked either leaves the round as it was, up to its counts, or settles everything. -/
lemma expire_due (hi : Inv e) {id : Id} {t : Task} (ht : e.tasks.get id = some t) (ho : t.status.isOpen = true)
    (hdue : (t.deadline.any fun d => decide (d ≤ now)) = true) :
    let tasks := e.tasks.insert id { t with status := .expired, updatedAt := now }
    ∃ out f, e.expire e.inst.revision id now = (.ok out, f) ∧
      (NoVerdict e tasks → f.tasks = tasks ∧ ∀ tasks', NoVerdict f tasks' ↔ NoVerdict e tasks') ∧
      (¬ NoVerdict e tasks → f.Quiet) := by
  intro tasks
  obtain ⟨r, hr, hro⟩ := hi.live.task id t ht ho
  obtain ⟨b, hb, hbo⟩ := hi.live.round _ r hr hro
  obtain ⟨d, hd, hle⟩ := (Option.any_eq_true _ _).1 hdue
  have hcheck : (e.guard e.inst.revision >>= fun _ => e.requireTask id) = .ok t := by
    simp [Engine.guard, hi.live.branch _ b hb hbo, requireTask, ht, Bind.bind, Except.bind]
  have hk : Keeps e { e with tasks } :=
    .of_tasks (maps_insert Task.Step.refl ht (SeatMove.expire.step (e := e) ho))
  have hinv : Inv (e.expire e.inst.revision id now).2 := StepOk.inv hi (stepOk_step hi ⟨_, now, .expire id⟩)
  rw [expire, hcheck] at hinv ⊢
  dsimp only at hinv ⊢
  rw [if_neg (not_not_intro ho), hd] at hinv ⊢
  dsimp only at hinv ⊢
  rw [if_neg (not_lt.2 (of_decide_eq_true hle)), ← hd] at hinv ⊢
  refine ⟨_, _, rfl, ?_⟩
  split_ifs at hinv ⊢
  · obtain ⟨-, -, -, -, hcount⟩ := recount_spec (hi.linked.of_keeps hk) (hi.live.insert_task ht ho rfl) hr hro now
    have hcount := hcount b hb
    have hid : r.id = t.roundId := (hi.linked.round _ r hr).1
    split_ifs at hcount with hnone
    · refine ⟨fun _ => ?_, fun hv => absurd (fun k s c hs hso hc => ?_) hv⟩
      · dsimp only [touch]
        rw [hcount]
        exact ⟨rfl, noVerdict_congr rfl (hid ▸ hr) rfl rfl rfl rfl⟩
      · cases hi.live.oneRound _ _ s r hs hr hso hro
        cases hs.symm.trans hr
        cases hb.symm.trans hc
        exact hnone
    · exact ⟨fun hv => absurd (hv _ r b hr hro hb) hnone, fun _ => ⟨hcount.task, hcount.round, hcount.branch⟩⟩
  · -- the counts do not see a seat that only gives advice
    exact ⟨fun _ => ⟨rfl, fun _ => Iff.rfl⟩, fun hv => absurd (fun k s c hs hso hc =>
      (hinv.counted k s c hs hso hc).2.2.2) hv⟩

lemma expire_open {id : Id} {out : List Effect} {f : Engine} (h : e.expire e.inst.revision id now = (.ok out, f)) :
    ∃ t, e.tasks.get id = some t ∧ t.status.isOpen = true := by
  unfold expire at h
  split at h
  · cases h
  next t hcheck =>
  obtain ⟨-, -, ht⟩ := bind_eq_ok hcheck
  by_cases ho : t.status.isOpen = true
  · refine ⟨t, ?_, ho⟩
    unfold requireTask at ht
    split at ht
    · cases ht
    · cases ht
      assumption
  · rw [if_pos ho] at h
    cases h

lemma expireAll_cons {id : Id} {ids : List Id} {out : List Effect} {f e' : Engine}
    (hf : e.expire e.inst.revision id now = (.ok out, f)) :
    (∃ effects, expireAll now (id :: ids) e = .ok (e', effects)) ↔ ∃ rest, expireAll now ids f = .ok (e', rest) := by
  constructor
  · rintro ⟨effects, h⟩
    obtain ⟨⟨g, out'⟩, hg, h⟩ := bind_eq_ok h
    obtain ⟨⟨g', rest⟩, hrest, h⟩ := bind_eq_ok h
    cases h
    obtain ⟨x, hx, -⟩ := Answer.effects_eq_ok hg
    cases hf.symm.trans hx
    exact ⟨rest, hrest⟩
  · rintro ⟨rest, h⟩
    refine ⟨out ++ rest, ?_⟩
    rw [expireAll, hf]
    simp [Answer.effects, h, Bind.bind, Except.bind]

/-- **The seats expire, one after the other, just when no verdict comes before the last of them.** -/
lemma expireAll_ok {ids : List Id} (hi : Inv e) (hnodup : ids.Nodup) (hdue : ∀ id ∈ ids, ∃ t, e.tasks.get id = some t ∧
      t.status.isOpen = true ∧ (t.deadline.any fun d => decide (d ≤ now)) = true) :
    ((∃ e' effects, expireAll now ids e = .ok (e', effects)) ↔ Undecided now ids e) ∧
      ∀ e' effects, expireAll now ids e = .ok (e', effects) →
        Closes (fun t => t.status.isOpen = true) ids e.tasks e'.tasks := by
  induction ids generalizing e with
  | nil =>
    refine ⟨⟨fun _ n hn => absurd hn (Nat.not_lt_zero n), fun _ => ⟨e, [], rfl⟩⟩, fun e' effects h => ?_⟩
    cases h
    exact .nil _
  | cons id ids ih =>
    obtain ⟨t, ht, ho, htdue⟩ := hdue id mem_cons_self
    obtain ⟨out, f, hf, hstays, hsettles⟩ := expire_due hi ht ho htdue
    set tasks := e.tasks.insert id { t with status := .expired, updatedAt := now }
    have hinv : Inv (e.expire e.inst.revision id now).2 := StepOk.inv hi (stepOk_step hi ⟨_, now, .expire id⟩)
    rw [hf] at hinv
    have hclosed : ∀ k u, f.tasks.get k = some u → u.status.isOpen = true → k ∉ [id] ∧ e.tasks.get k = some u := by
      by_cases hv : NoVerdict e tasks
      · rw [(hstays hv).1]
        exact (Closes.nil _).of_insert nofun
      · exact fun k u hu huo => absurd huo (by simp [(hsettles hv).task k u hu])
    have hmark : ∀ l, expired now e.tasks (id :: l) = expired now tasks l := fun l => by simp [expired, ht, tasks]
    by_cases hv : NoVerdict e tasks
    · obtain ⟨htasks, hsame⟩ := hstays hv
      have hrest := ih hinv (nodup_cons.1 hnodup).2 fun k hk => by
        rw [htasks, get_insert_ne _ _ fun h : k = id => (nodup_cons.1 hnodup).1 (h ▸ hk)]
        exact hdue k (mem_cons_of_mem _ hk)
      refine ⟨⟨fun ⟨e', effects, h⟩ n hlen hn => ?_, fun h => ?_⟩, fun e' effects h k u hu huo => ?_⟩
      · obtain ⟨rest, hg⟩ := (expireAll_cons hf).1 ⟨effects, h⟩
        obtain ⟨n, rfl⟩ := Nat.exists_eq_add_of_lt hn
        rw [Nat.zero_add, take_succ_cons, hmark]
        rcases n.eq_zero_or_pos with rfl | hpos
        · exact hv
        · exact (hsame _).1 (htasks ▸ hrest.1.1 ⟨e', rest, hg⟩ n (by simp at hlen; omega) hpos)
      · obtain ⟨e', rest, hg⟩ := hrest.1.2 fun n hlen hn => (hsame _).2 (by
          have := h (n + 1) (by simpa using hlen) n.succ_pos
          rwa [take_succ_cons, hmark, ← htasks] at this)
        exact ⟨e', (expireAll_cons hf).2 ⟨rest, hg⟩⟩
      · obtain ⟨rest, hg⟩ := (expireAll_cons hf).1 ⟨effects, h⟩
        obtain ⟨hnot, hu⟩ := hrest.2 e' rest hg k u hu huo
        obtain ⟨hne, hu⟩ := hclosed k u hu huo
        exact ⟨not_mem_cons_of_ne_of_not_mem (ne_of_not_mem_cons hne) hnot, hu⟩
    · -- everything is closed: only an empty rest goes through
      cases ids with
      | nil =>
        refine ⟨⟨fun _ n hlen hn => absurd hn (by simp at hlen; omega), fun _ => ⟨f, (expireAll_cons hf).2 ⟨[], rfl⟩⟩⟩,
          fun e' effects h => ?_⟩
        obtain ⟨rest, hg⟩ := (expireAll_cons hf).1 ⟨effects, h⟩
        cases hg
        exact hclosed
      | cons id' ids =>
        have hfail : ∀ e' effects, expireAll now (id :: id' :: ids) e ≠ .ok (e', effects) := by
          intro e' effects h
          obtain ⟨rest, hg⟩ := (expireAll_cons hf).1 ⟨effects, h⟩
          obtain ⟨⟨g, out'⟩, hg₁, -⟩ := bind_eq_ok hg
          obtain ⟨x, hx, -⟩ := Answer.effects_eq_ok hg₁
          obtain ⟨u, hu, huo⟩ := expire_open hx
          exact absurd huo (by simp [(hsettles hv).task _ u hu])
        refine ⟨⟨fun ⟨e', effects, h⟩ => absurd h (hfail e' effects), fun h => absurd ?_ hv⟩,
          fun e' effects h => absurd h (hfail e' effects)⟩
        have := h 1 (by simp) Nat.one_pos
        rwa [take_succ_cons, hmark] at this

/-- **Deadlines**: the seats that are due expire, and no open seat is due any more, just when the open round has no
verdict before the last of them has expired. -/
theorem expireAll_clears {spec : StartSpec} {t₀ : ℤ} {e₀ : Engine} (h : start spec t₀ = .ok e₀)
    (requests : List Request) (now : ℤ) : let e := exec step e₀ requests
    (∃ e' effects, expireAll now (dueTasks e now) e = .ok (e', effects) ∧ dueTasks e' now = []) ↔
      Undecided now (dueTasks e now) e := by
  intro e
  have hi : Inv e := exec_inv Inv (inv_start h) fun e r _ hi => StepOk.inv hi (stepOk_step hi r)
  have hmem : ∀ id ∈ dueTasks e now, ∃ t, e.tasks.get id = some t ∧ t.status.isOpen = true ∧
      (t.deadline.any fun d => decide (d ≤ now)) = true := by
    intro id hid
    obtain ⟨⟨k, u⟩, hu, rfl⟩ := List.mem_map.1 hid
    obtain ⟨hmem, hdue⟩ := List.mem_filter.1 hu
    have hu := mem_rows.1 hmem
    exact ⟨u, (congrArg _ (hi.linked.task k u hu).1).trans hu, Bool.and_eq_true_iff.1 hdue⟩
  have hnodup : (dueTasks e now).Nodup := by
    have hkeys : dueTasks e now = (e.tasks.rows.filter fun r => r.2.status.isOpen &&
        r.2.deadline.any fun d => decide (d ≤ now)).map Prod.fst :=
      map_congr_left fun r hr => (hi.linked.task r.1 r.2 (mem_rows.1 (mem_of_mem_filter hr))).1
    rw [hkeys]
    exact e.tasks.nodup_keys.sublist (filter_sublist.map _)
  obtain ⟨hiff, hcloses⟩ := expireAll_ok hi hnodup hmem
  refine ⟨fun ⟨e', effects, hok, _⟩ => hiff.1 ⟨e', effects, hok⟩, fun hund => ?_⟩
  obtain ⟨e', effects, hok⟩ := hiff.2 hund
  refine ⟨e', effects, hok, map_eq_nil_iff.2 (filter_eq_nil_iff.2 ?_)⟩
  rintro ⟨k, t⟩ hmem hdue
  obtain ⟨hnot, ht⟩ := hcloses e' effects hok k t (mem_rows.1 hmem) (Bool.and_eq_true_iff.1 hdue).1
  exact hnot (List.mem_map.2 ⟨(k, t), List.mem_filter.2 ⟨mem_rows.2 ht, hdue⟩, (hi.linked.task k t ht).1⟩)

/-- Three seats, of which half must agree. -/
def halfRequests : List Request :=
  [⟨0, 1, .enterBranch (ascii "boss") none (.ratio 1 2) .anyReject .default⟩,
    ⟨1, 2, .openApproval (ascii "i:branch-0001") [.approver (ascii "bob"), .approver (ascii "eve"),
      .approver (ascii "tom")] (some 9)⟩,
    ⟨2, 3, .approve (ascii "i:task-0003") (ascii "bob") none⟩]

theorem expireAll_half : let e := exec step leaveEngine halfRequests
    dueTasks e 9 = [ascii "i:task-0004", ascii "i:task-0005"] ∧ (expireAll 9 (dueTasks e 9) e).isOk = false := by
  decide +kernel

theorem expireAll_clears_half : let e := exec step leaveEngine (halfRequests.take 2)
    ∃ e' effects, expireAll 9 (dueTasks e 9) e = .ok (e', effects) ∧ dueTasks e' 9 = [] :=
  (expireAll_clears (rfl : start leaveSpec 0 = .ok leaveEngine) (halfRequests.take 2) 9).2 (by decide +kernel)

end

/-! ### Operations -/

namespace Operation

open Engine

/-- The operation gives this vote on the seat `k`. -/
def Gives (op : Operation) (k : Id) (v : VoteRecord) : Prop :=
  match op with
  | .command actor _ cmd _ => cmd.Gives actor k v
  | _ => False

/-- The operation takes away seats, and none of them is open. -/
def Idle (op : Operation) (e : Engine) : Prop :=
  match op with
  | .command _ _ cmd _ => cmd.Idle e
  | _ => False

instance (op : Operation) (e : Engine) : Decidable (op.Idle e) := by
  unfold Idle
  split <;> infer_instance

lemma propose_eq_ok {id : Id} {r : Except BridgeError (Engine × List Effect)} {outcome : Engine → Outcome}
    {p : Proposal}
    (h : propose id r outcome = .ok (.inr p)) : ∃ effects, r = .ok (p.engine, effects) ∧
      p.outcome = outcome p.engine := by
  unfold propose at h
  split at h
  · cases h
  next e effects =>
  split at h
  · cases h
  · cases h
    exact ⟨effects, rfl, rfl⟩

variable {op : Operation} {resolver : Resolver} {id : Id} {now : ℤ} {p : Proposal}

theorem led_plan {e : Engine} (hi : Inv e) (hf : e.Fair) (hs : e.Seated)
    (h : op.plan resolver id now (some e) = .ok (.inr p)) :
    (op.Idle e ∧ p.engine = e.setActingService none) ∨ Led (fun k v => e.Cast k v ∧ op.Gives k v) now e p.engine := by
  cases op with
  | ensureNodeOpen wf node task deadline =>
    simp only [plan] at h
    split at h
    · cases h
    next seats hseats =>
    split_ifs at h
    · cases h
    obtain ⟨effects, hr, -⟩ := propose_eq_ok h
    exact .inr ((led_openNode hi hf hs (resolveSeats_hasApprover hseats) hr).mono fun _ _ h => h.elim)
  | command actor service cmd key =>
    simp only [plan] at h
    obtain ⟨effects, hr, -⟩ := propose_eq_ok h
    obtain ⟨⟨f, out⟩, happly, hmap⟩ := map_eq_ok hr
    have hengine : p.engine = f.setActingService none := (congrArg Prod.fst hmap).symm
    rcases led_applyCommand (hi.setActingService service)
      (hf.setActingService service) hs happly with ⟨hidle, rfl⟩ | hled
    · exact .inl ⟨hidle, hengine⟩
    · rw [hengine]
      exact .inr hled.setActingService
  | expireDue =>
    simp only [plan] at h
    split_ifs at h with hdue
    · cases h
    obtain ⟨effects, hr, -⟩ := propose_eq_ok h
    exact .inr ((led_expireAll hi hf hs hdue hr).mono fun _ _ h => h.elim)
  | finishIfComplete =>
    simp only [plan] at h
    split_ifs at h
    · cases h
    obtain ⟨effects, hr, -⟩ := propose_eq_ok h
    exact .inr (led_answer hi hf hs .finish trivial (fun h => h) hr)
  | terminate actor reason =>
    simp only [plan] at h
    split at h
    · cases h
    obtain ⟨effects, hr, -⟩ := propose_eq_ok h
    exact .inr (led_answer hi hf hs (.terminate actor reason) trivial (fun h => h) hr)

lemma start_spec {spec : StartSpec} {e : Engine} (h : Engine.start spec now = .ok e) :
    e.Fair ∧ e.Seated ∧ e.inst.id = spec.id ∧ e.tasks = .empty := by
  unfold Engine.start at h
  split at h
  · cases h
  split_ifs at h
  cases h
  refine ⟨⟨fun k b hb => ?_, fun k t ht => ?_, fun k t ht => ?_, fun k b hb => ?_, fun k t b ht => ?_⟩,
    fun k r hr => ?_, rfl, rfl⟩ <;>
    simp at *

/-- **What an operation writes without a stored instance**: a new one, without votes. -/
theorem led_plan_none (h : op.plan resolver id now none = .ok (.inr p)) :
    Inv p.engine ∧ p.engine.Fair ∧ p.engine.Seated ∧ p.engine.inst.id = id ∧ p.engine.inst.updatedAt = now ∧
      ∀ k t, p.engine.tasks.get k = some t → t.votes = [] := by
  cases op with
  | ensureNodeOpen wf node task deadline =>
    simp only [plan] at h
    split at h
    · cases h
    next seats hseats =>
    split at h
    · cases h
    next e hstart =>
    obtain ⟨effects, hr, -⟩ := propose_eq_ok h
    obtain ⟨hf, hs, hid, hempty⟩ := start_spec hstart
    have hled := led_openNode (inv_start hstart) hf hs (resolveSeats_hasApprover hseats) hr
    refine ⟨hled.inv, hled.follows.fair, hled.follows.seated, hled.evolves.id.trans hid, hled.time, fun k t ht => ?_⟩
    refine eq_nil_iff_forall_not_mem.2 fun v hv => ?_
    obtain ⟨t₀, ht₀, -⟩ := (hled.follows.votes k t v ht hv).resolve_right (fun h => h)
    rw [hempty] at ht₀
    simp at ht₀
  | command | expireDue | finishIfComplete | terminate => cases h

end Operation

end Coord.Approval
