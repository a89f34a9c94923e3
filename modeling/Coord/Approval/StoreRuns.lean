import Coord.Approval.StoreInv

/-!
# Runs of the approval store

What holds in every run of the bridge over the store, and what holds when the calls tell their own writes apart.

* `votes_sound` — a node that is reported as passed has an approval, and every vote was given on an open seat of an open
  round by somebody who was entitled to it;
* `transitions_chained` — no update is lost, and what is stored is sound;
* `Careful` — calls on one instance that overlap have different times, a removal takes away a seat, and only a command
  with a key is sent again;
* `applied_once` — in such runs every outcome reported after a commit is one transition of its own.
-/

namespace Coord.Approval

open Coord.Lib Engine Option

/-! ### Votes -/

def Outcome.node : Outcome → Option NodeOutcome
  | .applied _ node _ | .expired _ node => node
  | .nodeOpened | .duplicate _ | .finished _ | .terminated => none

def Operation.nodes (op : Operation) (now : ℤ) (e : Engine) : List Id :=
  match op with
  | .command _ _ cmd _ => (commandBranch e cmd).toList
  | .expireDue => openBranchesOf e (dueTasks e now)
  | _ => []

lemma nodeOutcomeFor_passed {status : BranchStatus} (h : nodeOutcomeFor
    status = some .passed) : status = .completed := by
  cases status <;> first | rfl | cases h

lemma Operation.plan_passed {op : Operation} {resolver : Resolver} {id : Id} {now : ℤ} {before : Option Engine}
    {p : Proposal} (h : op.plan resolver id now before = .ok (.inr p)) (hnode : p.outcome.node = some .passed) :
    ∃ e k b, before = some e ∧ k ∈ op.nodes now e ∧ p.engine.branches.get k = some b ∧ b.status = .completed := by
  cases op with
  | ensureNodeOpen wf node task deadline =>
    have hopened : p.outcome = .nodeOpened := by
      simp only [plan] at h
      split at h
      · cases h
      split at h
      · split_ifs at h
        · cases h
        · exact (propose_eq_ok h).choose_spec.2
      · split at h
        · cases h
        · exact (propose_eq_ok h).choose_spec.2
    rw [hopened] at hnode
    cases hnode
  | command actor service cmd key =>
    cases before with
    | none => cases h
    | some e =>
      simp only [plan] at h
      obtain ⟨effects, -, houtcome⟩ := propose_eq_ok h
      rw [houtcome] at hnode
      obtain ⟨b, hb, hstatus⟩ := bind_eq_some_iff.1 hnode
      obtain ⟨k, hk, hb⟩ := bind_eq_some_iff.1 hb
      exact ⟨e, k, b, rfl, mem_toList.2 hk, hb, nodeOutcomeFor_passed hstatus⟩
  | expireDue =>
    cases before with
    | none => cases h
    | some e =>
      simp only [plan] at h
      split_ifs at h
      · cases h
      obtain ⟨effects, -, houtcome⟩ := propose_eq_ok h
      rw [houtcome] at hnode
      obtain ⟨b, hb, hstatus⟩ := List.exists_of_findSome?_eq_some hnode
      obtain ⟨k, hk, hb⟩ := List.mem_filterMap.1 hb
      exact ⟨e, k, b, rfl, hk, hb, nodeOutcomeFor_passed hstatus⟩
  | finishIfComplete =>
    cases before with
    | none => cases h
    | some e =>
      simp only [plan] at h
      split_ifs at h
      · cases h
      rw [(propose_eq_ok h).choose_spec.2] at hnode
      cases hnode
  | terminate actor reason =>
    cases before with
    | none => cases h
    | some e =>
      simp only [plan] at h
      split at h
      · cases h
      rw [(propose_eq_ok h).choose_spec.2] at hnode
      cases hnode

def Report.isApplied : Report → Bool
  | .committed (.applied ..) => true
  | _ => false

namespace System

/-- **Votes, in every run of the bridge.**  A node reported as passed is a branch with an approval that was cast; every
vote of an instance was cast, on an open seat of an open round, by somebody entitled to the seat, with the command that
gave it; and where the node forbids it, none comes from the initiator. -/
theorem votes_sound (steps : List Step) :
    let s := exec System.step System.start steps
    (∀ (i : ℕ) (c : Call) (o : Outcome), s.calls[i]? = some c → c.phase.report = some (.committed o) →
      o.node = some .passed → ∃ e₀ e k b j t v, s.Was c.id e₀ ∧ k ∈ c.op.nodes c.now e₀ ∧ s.Was c.id e ∧
        e.branches.get k = some b ∧ b.status = .completed ∧ e.tasks.get j = some t ∧ t.branchId = k ∧
          t.kind = .approval ∧
        t.status = .completed ∧ v ∈ t.votes ∧ v.decision = .approve ∧ s.CastIn c.id j v) ∧
    (∀ id row k t v, s.kv.instances id = some row → row.1.tasks.get k = some t → v ∈ t.votes → s.CastIn id k v) ∧
    (∀ id row k t b v, s.kv.instances id = some row → row.1.tasks.get k = some t →
      row.1.branches.get t.branchId = some b →
      b.policy.allowSelfApprove = false → row.1.inst.initiator ≠ anonymous → v ∈ t.votes →
      v.actor ≠ row.1.inst.initiator ∧ v.onBehalfOf ≠ some row.1.inst.initiator) := by
  intro s
  have h : s.Sane := sane_exec steps
  have hvotes : ∀ {id e}, s.Was id e → ∀ k t v, e.tasks.get k = some t → v ∈ t.votes → s.CastIn id k v := by
    rintro id e ⟨-, -, tr, htr, rfl, rfl⟩
    exact (h.log tr htr).votes
  refine ⟨fun i c o hc ho hnode => ?_, fun id row k t v hrow => hvotes (h.was hrow) k t v,
    fun id row k t b v hrow ht hb hoff
    hknown hv => ?_⟩
  · obtain ⟨before, p, hp, rfl, hwas⟩ := (h.call i c hc).committed o ho
    obtain ⟨e₀, k, b, rfl, hk, hb, hstatus⟩ := Operation.plan_passed hp.plan hnode
    obtain ⟨j, t, ht, hbranch, hkind, hcompleted, v, hv, hd⟩ := hwas.1.fair.passed k b hb hstatus
    exact ⟨e₀, p.engine, k, b, j, t, v, hp.was e₀ rfl, hk, hwas, hb, hstatus, ht, hbranch, hkind, hcompleted, hv, hd,
      hvotes hwas j t v ht hv⟩
  · exact ((h.was hrow).1.fair.own k t b ht hb hoff hknown).1 v hv

/-- **No update of an instance is lost**, in any run: a call planned each transition on what the last one of the
instance has left, and it leaves a sound engine; every stored one is sound. -/
theorem transitions_chained (steps : List Step) : let s := exec System.step System.start steps
    (∀ l tr l', s.log = l ++ tr :: l' → tr.before = latest l tr.id ∧ tr.after.Sound ∧
      ∃ c p, s.calls[tr.call]? = some c ∧ c.id = tr.id ∧
        c.op.plan c.resolver c.id c.now (latest l tr.id) = .ok (.inr p) ∧
        tr.after = p.engine ∧ tr.outcome = p.outcome) ∧
    ∀ id row, s.kv.instances id = some row → latest s.log id = some row.1 ∧ row.1.inst.id = id ∧ row.1.Sound := by
  intro s
  have h : s.Sane := sane_exec steps
  refine ⟨fun l tr l' hlog => ?_, fun id row hrow => ?_⟩
  · have htr := h.log tr (by simp [hlog])
    have hlast := h.chain l tr l' hlog
    obtain ⟨c, p, hc, hid, -, hplanned, hafter, houtcome⟩ := htr.call
    exact ⟨hlast, htr.good.inv.sound, c, p, hc, hid.symm, hlast ▸ hplanned.plan, hafter, houtcome⟩
  · obtain ⟨hgood, hid, -⟩ := h.was hrow
    rw [← h.instances id, hrow]
    exact ⟨rfl, hid, hgood.inv.sound⟩

/-! ### Transitions of a call -/

def mine (s : System) (i : ℕ) : List Transition := s.log.filter fun tr => decide (tr.call = i)

def Open (s : System) (w : Write) : Prop := instancePredicateHolds w.expected (s.kv.instances w.engine.inst.id) = true

/-- The call can still write: it has not reported, or a transaction of it is under way. -/
def active (c : Call) : Bool :=
  match c.phase with
  | .finished _ sent => sent.isSome
  | _ => true

def Wrote (s : System) (i : ℕ) (w : Write) : Prop := ∃ tr, s.mine i = [tr] ∧ tr.after = w.engine ∧
    tr.outcome = w.outcome

/-- A call tries its write: it has not written yet, or has and finds its key taken.  The row is as the call has read it,
or was changed by the call itself or at another time. -/
structure Attempt (s : System) (i : ℕ) (c : Call) (w : Write) : Prop where
  wrote : s.mine i = [] ∨ (s.Wrote i w ∧ c.op.key ≠ none ∧ ¬ s.Open w)
  row : ¬ s.Open w → ∃ row, s.kv.instances c.id = some row ∧
    ((∃ tr ∈ s.mine i, tr.after = row.1) ∨ row.1.inst.updatedAt ≠ c.now)
  time : w.engine.inst.updatedAt = c.now
  changed : s.Open w → ∀ row, s.kv.instances c.id = some row → row.1 ≠ w.engine

def CallOnce (s : System) (i : ℕ) (c : Call) : Prop :=
  match c.phase with
  | .loadIdem => s.mine i = [] ∨ ((∃ tr, s.mine i = [tr]) ∧ c.op.key ≠ none)
  | .load => s.mine i = []
  | .check w _ | .sequence w _ | .transact w _ _ => s.Attempt i c w
  | .present w _ _ _ | .record w _ _ _ _ => s.Attempt i c w ∧ s.Wrote i w
  | .finished report sent => (∀ o, report = .committed o → ∃ tr, s.mine i = [tr] ∧ tr.outcome = o) ∧
    ∀ w cur, sent = some (w, cur) → w.engine.inst.updatedAt = c.now ∧ (s.mine i = [] ∨ ¬ s.Open w)

/-- What the runs keep in which calls tell their writes apart. -/
structure Once (s : System) : Prop where
  sane : s.Sane
  times : ∀ (i j : ℕ) (c d : Call), s.calls[i]? = some c → s.calls[j]? = some d → i ≠ j → active c = true →
    active d = true →
    c.id = d.id → c.now ≠ d.now
  call : ∀ (i : ℕ) (c : Call), s.calls[i]? = some c → s.CallOnce i c

/-- What tells the writes of calls apart: calls on one instance that overlap have different times, a removal takes
away an open seat, and a transaction is sent again only with a key. -/
def Careful (s : System) : Step → Prop
  | .call id _ _ now => ∀ c ∈ s.calls, active c = true → c.id = id → c.now ≠ now
  | .read i => ∀ c ∈ s.calls[i]?, (c.phase matches .load) → ∀ row ∈ s.kv.instances c.id, ¬ c.op.Idle row.1
  | .deliver i => ∀ c ∈ s.calls[i]?, c.phase.report = none → c.op.key ≠ none
  | .transact _ | .fail .. | .outbox .. => True

instance (s : System) (a : Step) : Decidable (s.Careful a) := by
  unfold Careful
  split <;> infer_instance

section

variable {s s' : System} {i j : ℕ} {c d : Call} {w w' : Write} {cur : ℕ}

lemma mine_written_ne (h : i ≠ j) : (s.written i w cur).mine j = s.mine j := by
  have hcall : ¬ (s.transitionOf i w).call = j := h
  simp [mine, System.written, hcall]

lemma mine_written_self : (s.written i w cur).mine i = s.mine i ++ [s.transitionOf i w] := by
  have hcall : (s.transitionOf i w).call = i := rfl
  simp [mine, System.written, hcall]

lemma instances_written_ne {id : Id} (h : id ≠ w.engine.inst.id) :
    (s.written i w cur).kv.instances id = s.kv.instances id := by
  rw [System.written, Kv.puts_instances, Function.update_of_ne h]

lemma instances_written_self :
    (s.written i w cur).kv.instances w.engine.inst.id = some (w.engine, s.kv.revision + 1) := by
  rw [System.written, Kv.puts_instances, Function.update_self]

lemma not_open_written (h : s.Sane) (hw' : s.Loaded d w') (hid : w.engine.inst.id = d.id) :
    ¬ (s.written i w cur).Open w' := by
  unfold Open
  rw [hw'.id h, ← hid, instances_written_self]
  obtain ⟨row, p, -, rfl, hlater⟩ := hw'
  cases row with
  | none => simp [Call.writeOf, expectedOf, instancePredicateHolds]
  | some r =>
    obtain ⟨r', hr', hle, -⟩ := hlater r rfl
    have := h.revision _ r' hr'
    obtain ⟨e, n⟩ := r
    simp only [Call.writeOf, expectedOf, instancePredicateHolds, any_some, decide_eq_true_eq]
    simp only at hle
    omega

lemma open_of_compares (hcompares : s.kv.compares w cur = true) : s.Open w := (compares_predicate hcompares).1

lemma Attempt.mono (h : s.Attempt j d w') (hmine : s'.mine j = s.mine j) (hopen : s'.Open w' → s.Open w')
    (hrow : (s'.kv.instances d.id = s.kv.instances d.id ∧ (s.Open w' → s'.Open w')) ∨
      ∃ row, s'.kv.instances d.id = some row ∧ row.1.inst.updatedAt ≠ d.now) : s'.Attempt j d w' where
  wrote := by
    refine h.wrote.imp (fun hnil => hmine.trans hnil) fun ⟨hwrote, hkey, hnot⟩ => ⟨?_, hkey, fun ho => hnot (hopen ho)⟩
    unfold Wrote
    rw [hmine]
    exact hwrote
  row hnot := by
    rcases hrow with ⟨hsame, hback⟩ | ⟨row, hrow, htime⟩
    · rw [hsame, hmine]
      exact h.row fun ho => hnot (hback ho)
    · exact ⟨row, hrow, .inr htime⟩
  time := h.time
  changed ho row hrow' := by
    rcases hrow with ⟨hsame, -⟩ | ⟨row', hrow, htime⟩
    · exact h.changed (hopen ho) row (hsame ▸ hrow')
    · cases hrow.symm.trans hrow'
      intro heq
      rw [heq, h.time] at htime
      exact htime rfl

lemma CallOnce.mono (h : s.CallOnce j d) (hmine : s'.mine j = s.mine j)
    (hopen : ∀ w', d.phase.write = some w' → s'.Open w' → s.Open w')
    (hrow : ∀ w', d.phase.write = some w' → d.phase.report = none →
      (s'.kv.instances d.id = s.kv.instances d.id ∧ (s.Open w' → s'.Open w')) ∨
      ∃ row, s'.kv.instances d.id = some row ∧ row.1.inst.updatedAt ≠ d.now) : s'.CallOnce j d := by
  unfold CallOnce at h ⊢
  have hwrote : ∀ {w' : Write}, s.Wrote j w' → s'.Wrote j w' := by
    intro w' hw'
    unfold Wrote
    rw [hmine]
    exact hw'
  generalize d.phase = phase at h hopen hrow ⊢
  cases phase with
  | loadIdem | load =>
    rw [hmine]
    exact h
  | check w' _ | sequence w' _ | transact w' _ _ => exact h.mono hmine (hopen w' rfl) (hrow w' rfl rfl)
  | present w' _ _ _ | record w' _ _ _ _ => exact ⟨h.1.mono hmine (hopen w' rfl) (hrow w' rfl rfl), hwrote h.2⟩
  | finished report sent =>
    rw [hmine]
    refine ⟨h.1, fun w' cur' hsent => ⟨(h.2 w' cur' hsent).1, (h.2 w' cur' hsent).2.imp id fun hnot ho => hnot ?_⟩⟩
    exact hopen w' (by rw [hsent]; rfl) ho

lemma CallOnce.of_calls (h : s.CallOnce j d) (hinstances : s'.kv.instances = s.kv.instances) (hlog : s'.log = s.log) :
    s'.CallOnce j d := by
  have hopen : ∀ w', s'.Open w' ↔ s.Open w' := fun w' => by
    unfold Open
    rw [hinstances]
  refine h.mono (by unfold mine; rw [hlog]) (fun w' _ => (hopen w').1) fun w' _ _ =>
    .inl ⟨by rw [hinstances], (hopen w').2⟩

lemma active_of_report {c : Call} (h : c.phase.report = none) : active c = true := by
  unfold active
  cases hphase : c.phase with
  | finished report sent =>
    rw [hphase] at h
    cases h
  | _ => rfl

lemma Once.written (h : s.Once) (hc : s.calls[i]? = some c) (hw : s.Loaded c w) (hactive : active c = true)
    (htime : w.engine.inst.updatedAt = c.now) (hd : s.calls[j]? = some d) (hij : i ≠ j) :
    (s.written i w cur).CallOnce j d := by
  have hid := hw.id h.sane
  refine (h.call j d hd).mono (mine_written_ne hij) (fun w' hw' ho => ?_) fun w' hw' hreport => ?_
  · by_cases hsame : d.id = c.id
    · exact absurd ho (not_open_written h.sane ((h.sane.call j d hd).write w' hw') (hid.trans hsame.symm))
    · unfold Open at ho ⊢
      have hid' := ((h.sane.call j d hd).write w' hw').id h.sane
      rwa [instances_written_ne (by rw [hid', hid]; exact hsame)] at ho
  · by_cases hsame : d.id = c.id
    · refine .inr ⟨_, by rw [hsame, ← hid]; exact instances_written_self, ?_⟩
      rw [htime]
      exact h.times i j c d hc hd hij hactive (active_of_report hreport) hsame.symm
    · have hne : d.id ≠ w.engine.inst.id := by
        rw [hid]
        exact hsame
      refine .inl ⟨instances_written_ne hne, fun ho => ?_⟩
      have hid' := ((h.sane.call j d hd).write w' hw').id h.sane
      unfold Open at ho ⊢
      rwa [instances_written_ne (by rw [hid']; exact hne)]

end

/-! ### Reads -/

section

variable {s : System} {i : ℕ} {c : Call}

lemma callOnce_finish (report : Report) (hreport : ∀ o, report ≠ .committed o) : s.CallOnce i (c.finish report) :=
  ⟨fun o ho => absurd ho (hreport o), fun _ _ hsent => by cases hsent⟩

variable {w : Write}

lemma Attempt.again (h : s.Attempt i c w) : s.CallOnce i c.again := by
  unfold Call.again
  split_ifs
  · exact callOnce_finish _ fun _ h => by cases h
  · exact h.wrote.imp id fun ⟨⟨tr, htr, _⟩, hkey, _⟩ => ⟨⟨tr, htr⟩, hkey⟩

lemma Attempt.of_phase (h : s.Attempt i c w) (phase : Phase) : s.Attempt i { c with phase := phase } w :=
  ⟨h.wrote, h.row, h.time, h.changed⟩

lemma Attempt.proceed (h : s.Attempt i c w) (left : ℕ) (holds : Bool) : s.CallOnce i (c.proceed w left holds) := by
  unfold Call.proceed
  split_ifs
  · exact h.of_phase _
  · exact h.again

lemma Attempt.wrote_of_replay (h : s.Attempt i c w) (hid : w.engine.inst.id = c.id)
    (hreplay : replayMatches (s.kv.instances w.engine.inst.id) w.engine = true) : s.Wrote i w := by
  obtain ⟨row, hrow, heq⟩ := (any_eq_true _ _).1 hreplay
  rw [hid] at hrow
  have heq : row.1 = w.engine := of_decide_eq_true heq
  by_cases hopen : s.Open w
  · exact absurd heq (h.changed hopen row hrow)
  obtain ⟨row', hrow', hown⟩ := h.row hopen
  cases hrow.symm.trans hrow'
  rcases hown with ⟨tr, htr, -⟩ | htime
  · refine (h.wrote.resolve_left fun hnil => ?_).1
    rw [hnil] at htr
    cases htr
  · rw [heq, h.time] at htime
    exact absurd rfl htime

lemma attempt_load (h : s.Sane) (hmine : s.mine i = []) {p : Proposal}
    (hplan : c.op.plan c.resolver c.id c.now ((s.kv.instances c.id).map Prod.fst) = .ok (.inr p))
    (hidle : ∀ row, s.kv.instances c.id = some row → ¬ c.op.Idle row.1) :
    s.Attempt i c (c.writeOf (s.kv.instances c.id) p) := by
  have hp : s.Planned c ((s.kv.instances c.id).map Prod.fst) p := ⟨hplan, fun e he => by
    obtain ⟨row, hrow, rfl⟩ := map_eq_some_iff.1 he
    exact h.was hrow⟩
  have hopen : s.Open (c.writeOf (s.kv.instances c.id) p) := by
    unfold Open
    rw [show (c.writeOf (s.kv.instances c.id) p).engine.inst.id = c.id from (h.planned hp).2.1]
    exact (predicate_iff fun r hr => ⟨r, hr, .refl r⟩).2 rfl
  have hled : ∀ {row}, s.kv.instances c.id = some row →
      row.1.inst.revision < p.engine.inst.revision ∧ p.engine.inst.updatedAt = c.now := by
    intro row hrow
    rw [hrow] at hplan
    obtain ⟨hgood, -⟩ := h.was hrow
    rcases Operation.led_plan hgood.inv hgood.fair hgood.seated hplan with ⟨hi, -⟩ | hled
    · exact absurd hi (hidle row hrow)
    · exact ⟨hled.revision, hled.time⟩
  refine ⟨.inl hmine, fun hnot => absurd hopen hnot, ?_, fun _ row hrow (heq : row.1 = p.engine) => ?_⟩
  · change p.engine.inst.updatedAt = c.now
    cases hrow : s.kv.instances c.id with
    | none =>
      rw [hrow] at hplan
      exact (Operation.led_plan_none hplan).2.2.2.2.1
    | some row => exact (hled hrow).2
  · have := (hled hrow).1
    rw [heq] at this
    exact lt_irrefl _ this

lemma callOnce_read (h : s.Once) (hc : s.calls[i]? = some c) (hcareful : s.Careful (.read i)) :
    s.CallOnce i (c.read s.kv) := by
  have honce := h.call i c hc
  unfold CallOnce at honce
  unfold Call.read
  cases hphase : c.phase with
  | loadIdem =>
    rw [hphase] at honce
    dsimp only at honce ⊢
    split
    · exact callOnce_finish _ fun _ h => by cases h
    next hnone =>
    refine honce.resolve_right fun ⟨⟨tr, htr⟩, hkey⟩ => ?_
    -- the call has written before, so the record of its key is there
    have hmem : tr ∈ s.mine i := htr ▸ List.mem_cons_self
    obtain ⟨hlog, hcall⟩ := List.mem_filter.1 hmem
    obtain ⟨c', p, hc', hid, hkey', -⟩ := (h.sane.log tr hlog).call
    rw [of_decide_eq_true hcall, hc] at hc'
    cases hc'
    obtain ⟨key, hkeyeq⟩ := ne_none_iff_exists'.1 hkey
    have hsome := h.sane.idem tr hlog key (hkey'.trans hkeyeq)
    rw [hkeyeq, bind_some] at hnone
    rw [hid, hnone] at hsome
    cases hsome
  | load =>
    rw [hphase] at honce
    dsimp only at honce ⊢
    split
    · exact callOnce_finish _ fun _ h => by cases h
    · exact callOnce_finish _ fun _ h => by cases h
    next p hplan =>
    unfold Call.beginCommit
    split
    · exact callOnce_finish _ fun _ h => by cases h
    · refine (attempt_load h.sane honce hplan fun row hrow => ?_).of_phase _
      exact hcareful c hc (by rw [hphase]) row hrow
  | check w left =>
    rw [hphase] at honce
    cases left with
    | zero => exact honce.again
    | succ left =>
      dsimp only
      split_ifs with hreplay
      · have hid := ((h.sane.call i c hc).write w (by rw [hphase]; rfl)).id h.sane
        exact ⟨honce.of_phase _, honce.wrote_of_replay hid hreplay⟩
      · exact honce.proceed _ _
  | present w left holds todo =>
    rw [hphase] at honce
    obtain ⟨hattempt, hwrote⟩ := honce
    cases todo with
    | nil =>
      refine ⟨fun o ho => ?_, fun _ _ hsent => by cases hsent⟩
      cases ho
      obtain ⟨tr, htr, -, houtcome⟩ := hwrote
      exact ⟨tr, htr, houtcome⟩
    | cons ev todo =>
      dsimp only
      split
      · exact hattempt.proceed _ _
      · exact ⟨hattempt.of_phase _, hwrote⟩
  | record w left holds key todo =>
    rw [hphase] at honce
    obtain ⟨hattempt, hwrote⟩ := honce
    dsimp only
    split
    · exact hattempt.proceed _ _
    · exact ⟨hattempt.of_phase _, hwrote⟩
  | sequence w left =>
    rw [hphase] at honce
    exact Attempt.of_phase honce _
  | transact w left cur => exact h.call i c hc
  | finished report sent => exact h.call i c hc

end

/-! ### Steps -/

section

variable {s : System} {i : ℕ} {c c' : Call}

lemma once_setCall (hsane : (s.setCall i c').Sane)
    (htimes : ∀ (i j : ℕ) (c d : Call), s.calls[i]? = some c → s.calls[j]? = some d → i ≠ j → active c = true →
      active d = true → c.id = d.id → c.now ≠ d.now)
    (hothers : ∀ (j : ℕ) (d : Call), s.calls[j]? = some d → i ≠ j → s.CallOnce j d) (hc : s.calls[i]? = some c)
    (hsame : c.Same c') (honce : s.CallOnce i c') (hactive : active c' = true →
      active c = true) : (s.setCall i c').Once where
  sane := hsane
  times j k d f hd hf hjk hda hfa hid := by
    rcases getElem?_set_cases hd with ⟨rfl, rfl⟩ | ⟨hij, hd'⟩
    · rcases getElem?_set_cases hf with ⟨rfl, -⟩ | ⟨hik, hf'⟩
      · exact absurd rfl hjk
      · rw [hsame.now]
        exact htimes _ k c f hc hf' hik.symm (hactive hda) hfa (hsame.id.symm.trans hid)
    · rcases getElem?_set_cases hf with ⟨rfl, rfl⟩ | ⟨hik, hf'⟩
      · rw [hsame.now]
        exact htimes j _ d c hd' hc hjk hda (hactive hfa) (hid.trans hsame.id)
      · exact htimes j k d f hd' hf' hjk hda hfa hid
  call j d hd := by
    rcases getElem?_set_cases hd with ⟨rfl, rfl⟩ | ⟨hij, hd⟩
    · exact honce.of_calls rfl rfl
    · exact (hothers j d hd hij.symm).of_calls rfl rfl

lemma active_read (kv : Kv) (h : active (c.read kv) = true) : active c = true := by
  cases hphase : c.phase with
  | finished report sent =>
    have hread : c.read kv = c := by
      unfold Call.read
      rw [hphase]
    rwa [hread] at h
  | _ => exact active_of_report (by rw [hphase]; rfl)

lemma callOnce_failed (h : s.CallOnce i c) (err : Bytes) :
    s.CallOnce i (failed c err) ∧ (active (failed c err) = true → active c = true) := by
  cases hphase : c.phase with
  | finished report sent =>
    have hfailed : failed c err = c := by
      unfold failed
      rw [hphase]
    rw [hfailed]
    exact ⟨h, id⟩
  | transact w left cur =>
    unfold CallOnce at h
    rw [hphase] at h
    have hfailed : failed c err = { c with phase := .finished (.failed (.store err)) (some (w, cur)) } := by
      unfold failed sentBy
      rw [hphase]
    rw [hfailed]
    refine ⟨⟨fun o ho => (by cases ho), fun w' cur' hsent => ?_⟩, fun _ => active_of_report (by rw [hphase]; rfl)⟩
    cases hsent
    exact ⟨h.time, h.wrote.imp id fun hw => hw.2.2⟩
  | _ =>
    refine ⟨?_, fun _ => active_of_report (by rw [hphase]; rfl)⟩
    unfold failed sentBy
    rw [hphase]
    exact ⟨fun o ho => (by cases ho), fun _ _ hsent => (by cases hsent)⟩

lemma once_start : Once System.start where
  sane := sane_start
  times i j c d hc := by simp [System.start] at hc
  call i c hc := by simp [System.start] at hc

lemma Sane.mine_new (h : s.Sane) : s.mine s.calls.length = [] := by
  refine List.filter_eq_nil_iff.2 fun tr htr hcall => ?_
  obtain ⟨c, p, hc, -⟩ := (h.log tr htr).call
  rw [of_decide_eq_true hcall] at hc
  simp at hc

lemma callOnce_delivered (h : s.Sane) {w : Write} {cur : ℕ} (hw : s.Loaded c w) (honce : s.CallOnce i c)
    (hkey : c.phase.report = none → c.op.key ≠ none) (hsent : sentBy c = some (w, cur)) (hopen : s.Open w) :
    (s.written i w cur).CallOnce i c ∧ w.engine.inst.updatedAt = c.now ∧ active c = true := by
  have hid := hw.id h
  have hclosed : ¬ (s.written i w cur).Open w := not_open_written h hw hid
  unfold CallOnce at honce ⊢
  unfold sentBy at hsent
  unfold active
  cases hphase : c.phase with
  | transact w' left cur' =>
    rw [hphase] at hsent honce hkey
    cases hsent
    have hnil : s.mine i = [] := honce.wrote.resolve_right fun hwrote => hwrote.2.2 hopen
    have hmine : (s.written i w cur).mine i = [s.transitionOf i w] := by
      rw [mine_written_self, hnil]
      rfl
    refine ⟨⟨.inr ⟨⟨_, hmine, rfl, rfl⟩, hkey rfl, hclosed⟩, fun _ => ?_, honce.time,
      fun ho => absurd ho hclosed⟩, honce.time,
      rfl⟩
    exact ⟨_, hid ▸ instances_written_self, .inl ⟨_, hmine ▸ List.mem_cons_self, rfl⟩⟩
  | finished report sent =>
    rw [hphase] at hsent honce
    cases hsent
    obtain ⟨htime, hwrote⟩ := honce.2 w cur rfl
    have hnil : s.mine i = [] := hwrote.resolve_right fun hnot => hnot hopen
    refine ⟨⟨fun o ho => ?_, fun w' cur' hsent => ?_⟩, htime, rfl⟩
    · obtain ⟨tr, htr, -⟩ := honce.1 o ho
      cases hnil.symm.trans htr
    · cases hsent
      exact ⟨htime, .inr hclosed⟩
  | _ =>
    rw [hphase] at hsent
    cases hsent

lemma once_step (a : Step) (hcareful : s.Careful a) (h : s.Once) : (System.step s a).1.Once := by
  have hsane := sane_step h.sane a
  have hmoved := moved_step s a
  generalize (System.step s a).1 = s' at hsane hmoved
  cases hmoved with
  | same => exact h
  | call id resolver op now =>
    refine ⟨hsane, fun j k d f hd hf hjk hda hfa hid => ?_, fun j d hd => ?_⟩
    · rcases getElem?_append_one hd with hd | ⟨rfl, rfl⟩
      · rcases getElem?_append_one hf with hf | ⟨rfl, rfl⟩
        · exact h.times j k d f hd hf hjk hda hfa hid
        · exact hcareful d (List.mem_of_getElem? hd) hda hid
      · rcases getElem?_append_one hf with hf | ⟨rfl, rfl⟩
        · exact (hcareful f (List.mem_of_getElem? hf) hfa hid.symm).symm
        · exact absurd rfl hjk
    · rcases getElem?_append_one hd with hd | ⟨rfl, rfl⟩
      · exact (h.call j d hd).of_calls rfl rfl
      · exact .inl h.sane.mine_new
  | read i c hc =>
    exact once_setCall hsane h.times (fun j d hd _ => h.call j d hd) hc (callOk_read h.sane (h.sane.call i c hc)).2
      (callOnce_read h hc hcareful) (active_read s.kv)
  | applied i c w left cur hc hphase hcompares =>
    have hw := (h.sane.call i c hc).write w (by rw [hphase]; rfl)
    have hattempt : s.Attempt i c w := by
      have honce := h.call i c hc
      unfold CallOnce at honce
      rw [hphase] at honce
      exact honce
    have hactive : active c = true := active_of_report (by rw [hphase]; rfl)
    refine once_setCall hsane h.times (fun j d hd hij =>
      h.written hc hw hactive hattempt.time hd hij) hc (c.same_phase _) ?_
      fun _ => hactive
    refine ⟨fun o ho => ?_, fun _ _ hsent => by cases hsent⟩
    cases ho
    have hnil : s.mine i = [] := hattempt.wrote.resolve_right fun hwrote => hwrote.2.2 (open_of_compares hcompares)
    exact ⟨s.transitionOf i w, by rw [mine_written_self, hnil]; rfl, rfl⟩
  | refused i c w left cur hc hphase =>
    refine once_setCall hsane h.times (fun j d hd _ => h.call j d hd) hc (c.same_phase _) ?_
      fun _ => active_of_report (by rw [hphase]; rfl)
    have honce := h.call i c hc
    unfold CallOnce at honce
    rw [hphase] at honce
    exact Attempt.of_phase honce _
  | delivered i c w cur hc hsent hcompares =>
    have hw := (h.sane.call i c hc).write w (sentBy_write hsent)
    obtain ⟨honce, htime, hactive⟩ :=
      callOnce_delivered h.sane hw (h.call i c hc) (hcareful c hc) hsent (open_of_compares hcompares)
    refine ⟨hsane, h.times, fun j d hd => ?_⟩
    by_cases hij : i = j
    · subst hij
      cases hc.symm.trans hd
      exact honce
    · exact h.written hc hw hactive htime hd hij
  | failed i c err hc =>
    obtain ⟨honce, hactive⟩ := callOnce_failed (h.call i c hc) err
    exact once_setCall hsane h.times (fun j d hd _ => h.call j d hd) hc (callOk_failed (h.sane.call i c hc) err).2
      honce hactive
  | outbox revisions seqs ids records => exact ⟨hsane, h.times, fun j d hd => (h.call j d hd).of_calls rfl rfl⟩

end

/-- **Outcomes, in careful runs.**  A call that reports an outcome after a commit has made one transition, which is
the one it has planned, and leaves the record of its key; and no two transitions of an instance have the same key. -/
theorem applied_once {steps : List Step} (h : Along System.step Careful System.start steps) :
    let s := exec System.step System.start steps
    (∀ (i : ℕ) (c : Call) (o : Outcome), s.calls[i]? = some c → c.phase.report = some (.committed o) →
      ∃ tr p, s.mine i = [tr] ∧ tr.id = c.id ∧ tr.key = c.op.key ∧ tr.outcome = o ∧
        c.op.plan c.resolver c.id c.now tr.before = .ok (.inr p) ∧ tr.after = p.engine ∧ tr.outcome = p.outcome ∧
        ∀ key, c.op.key = some key → (s.kv.idem (idemKey c.id key)).isSome = true) ∧
    (s.log.Pairwise fun a b => ¬ (a.id = b.id ∧ a.key = b.key ∧ a.key ≠ none)) ∧
    (∀ id, (s.kv.instances id).map Prod.fst = latest s.log id) ∧
    ∀ l tr l', s.log = l ++ tr :: l' → tr.before = latest l tr.id := by
  intro s
  have hs : s.Once := (along_inv Once Careful once_start h fun t a hP ht => once_step a hP ht).1
  refine ⟨fun i c o hc ho => ?_, hs.sane.once, hs.sane.instances, hs.sane.chain⟩
  have honce := hs.call i c hc
  unfold CallOnce at honce
  cases hphase : c.phase with
  | finished report sent =>
    rw [hphase] at honce ho
    cases ho
    obtain ⟨tr, hmine, houtcome⟩ := honce.1 o rfl
    obtain ⟨hlog, hcall⟩ := List.mem_filter.1 (hmine ▸ List.mem_cons_self : tr ∈ s.mine i)
    obtain ⟨c', p, hc', hid, hkey, hplanned, hafter, hplan⟩ := (hs.sane.log tr hlog).call
    rw [of_decide_eq_true hcall, hc] at hc'
    cases hc'
    refine ⟨tr, p, hmine, hid, hkey, houtcome, hplanned.plan, hafter, hplan, fun key hkey' => ?_⟩
    rw [← hid]
    exact hs.sane.idem tr hlog key (hkey.trans hkey')
  | _ =>
    rw [hphase] at ho
    cases ho

/-! ### Two agents at the same time -/

def plainResolver : Resolver := ⟨fun _ => none, fun _ => none⟩

def leaveRef : WorkflowRef := ⟨ascii "ns", ascii "leave", ascii "1", some (ascii "h"), some (ascii "ann")⟩

def leaveTask : ApproveTask := ⟨[ascii "bob"], [], [], [], .all, true, [ascii "eve"], false, .inl rfl⟩

def addKim (key : String) (now : ℤ) : Step :=
  .call (ascii "i") plainResolver
    (.command (ascii "eve") none (.addSign (ascii "i:branch-0001") [.approver (ascii "kim")] none)
      (some (ascii key))) now

def opened : List Step :=
  [.call (ascii "i") plainResolver (.ensureNodeOpen leaveRef (ascii "boss") leaveTask none) 1, .read 0,
    .read 0, .read 0,
    .read 0, .transact 0]

/-- The same command twice in one millisecond, under two keys: the second finds in the row what it would write itself.
-/
def sameMillisecond : List Step :=
  opened ++ [addKim "k1" 5, addKim "k2" 5, .read 1, .read 2, .read 1, .read 2, .read 1, .read 1, .transact 1,
    .read 2, .read 2]

/-- Both report that the seat was added; it was added once, and the second key has no record. -/
theorem applied_without_transition :
    let s := exec System.step System.start sameMillisecond
    (∀ i ∈ [1, 2], ((s.calls[i]?).bind fun c => c.phase.report).any Report.isApplied = true) ∧
      s.log.map Transition.call = [0, 1] ∧ (s.kv.idem (idemKey (ascii "i") (ascii "k2"))).isNone = true := by
  decide +kernel

def laterMillisecond : List Step :=
  opened ++ [addKim "k1" 5, addKim "k2" 6, .read 1, .read 2, .read 1, .read 2, .read 1, .read 1, .transact 1,
    .read 2, .read 2]

theorem applied_once_later :
    let s := exec System.step System.start laterMillisecond
    Along System.step Careful System.start laterMillisecond ∧
      ((s.calls[1]?).bind fun c => c.phase.report).any Report.isApplied = true ∧ ∃ tr, s.mine 1 = [tr] := by
  intro s
  have h : Along System.step Careful System.start laterMillisecond := by decide +kernel
  have happlied : ((s.calls[1]?).bind fun c => c.phase.report).any Report.isApplied = true := by decide +kernel
  refine ⟨h, happlied, ?_⟩
  obtain ⟨report, hreport, hr⟩ := (any_eq_true _ _).1 happlied
  obtain ⟨c, hc, hreport⟩ := bind_eq_some_iff.1 hreport
  cases report with
  | committed o =>
    obtain ⟨tr, p, hmine, -⟩ := (applied_once h).1 1 c o hc hreport
    exact ⟨tr, hmine⟩
  | ended | failed => cases hr

end System

end Coord.Approval
