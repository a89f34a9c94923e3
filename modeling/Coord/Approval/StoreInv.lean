import Coord.Approval.Plans
import Coord.Approval.Store

/-!
# What every run of the store keeps

Whatever the calls and however their requests interleave, an instance is what its last transition has left, every
transition is what its call has planned from the instance as it was, and every vote was cast in one of them.
-/

namespace Coord.Approval

open Coord.Lib Engine List Option

/-! ### Transactions -/

lemma putEvents_frame (events : List OutboxEvent) (sequence : ℕ) (kv : Kv) :
    (Kv.putEvents events sequence kv).instances = kv.instances ∧ (Kv.putEvents events sequence kv).idem = kv.idem ∧
      (Kv.putEvents events sequence kv).revision = kv.revision := by
  induction events generalizing sequence kv with
  | nil => exact ⟨rfl, rfl, rfl⟩
  | cons ev events ih => exact ih (sequence + 1) _

variable (kv : Kv) (w : Write) (cur : ℕ)

lemma Kv.putBatch_frame (aggregate : Id) (events : List OutboxEvent) (cur : ℕ) :
    (kv.putBatch aggregate events cur).instances = kv.instances ∧ (kv.putBatch aggregate events cur).idem = kv.idem ∧
      (kv.putBatch aggregate events cur).revision = kv.revision := by
  unfold putBatch
  split_ifs
  · exact ⟨rfl, rfl, rfl⟩
  · exact putEvents_frame _ _ _

lemma Kv.puts_instances :
    (kv.puts w cur).instances = Function.update kv.instances w.engine.inst.id (some (w.engine, kv.revision + 1)) := by
  unfold puts
  cases w.idem <;> exact (putBatch_frame _ _ _ _).1

lemma Kv.puts_revision : (kv.puts w cur).revision = kv.revision + 1 := by
  unfold puts
  cases w.idem <;> exact (putBatch_frame _ _ _ _).2.2

lemma Kv.puts_idem (k : Bytes) : (kv.puts w cur).idem k =
      match w.idem with
      | none => kv.idem k
      | some rec => if k = idemKey w.engine.inst.id rec.key then some rec else kv.idem k := by
  unfold puts
  cases w.idem with
  | none => exact congrFun (putBatch_frame _ _ _ _).2.1 k
  | some rec =>
    dsimp only
    rw [(putBatch_frame _ _ _ _).2.1, Function.update_apply]

/-- The row is not older: it has a later revision, or is the same. -/
def Later (row row' : Engine × ℕ) : Prop := row.2 ≤ row'.2 ∧ (row'.2 = row.2 → row' = row)

lemma Later.refl (row : Engine × ℕ) : Later row row := ⟨le_rfl, fun _ => rfl⟩

lemma Later.trans {a b c : Engine × ℕ} (h : Later a b) (h' : Later b c) : Later a c := by
  refine ⟨h.1.trans h'.1, fun heq => ?_⟩
  have hb : c = b := h'.2 (le_antisymm (heq.trans_le h.1) h'.1)
  rw [hb] at heq ⊢
  exact h.2 heq

def Kv.Grows (kv kv' : Kv) : Prop :=
  ∀ id row, kv.instances id = some row → ∃ row', kv'.instances id = some row' ∧ Later row row'

lemma Kv.Grows.refl : kv.Grows kv := fun _ row h => ⟨row, h, .refl row⟩

lemma Kv.grows_puts {kv : Kv}
    (hrev : ∀ id row, kv.instances id = some row → row.2 ≤ kv.revision) (w : Write) (cur : ℕ) :
    kv.Grows (kv.puts w cur) := by
  intro id row h
  rw [puts_instances, Function.update_apply]
  split_ifs with hid
  · refine ⟨_, rfl, ?_, fun heq => ?_⟩
    · exact (hrev id row h).trans (Nat.le_succ _)
    · have := hrev id row h
      simp only at heq
      omega
  · exact ⟨row, h, .refl row⟩

/-- The predicate holds for the row that the commit was planned from, and for no later one. -/
lemma predicate_iff {row current : Option (Engine × ℕ)}
    (h : ∀ r, row = some r → ∃ r', current = some r' ∧ Later r r') :
    instancePredicateHolds (expectedOf row) current = true ↔ current = row := by
  cases row with
  | none =>
    cases current <;> simp [expectedOf, instancePredicateHolds]
  | some r =>
    obtain ⟨r', rfl, hlater⟩ := h r rfl
    obtain ⟨e, n⟩ := r
    simp only [expectedOf, instancePredicateHolds, any_some, decide_eq_true_eq, Option.some.injEq]
    exact ⟨fun hn => hlater.2 hn, fun hr => by rw [hr]⟩

/-! ### Transitions -/

/-- What the last transition of an instance has left. -/
def latest (log : List Transition) (id : Id) : Option Engine :=
  ((log.filter fun tr => decide (tr.id = id)).getLast?).map Transition.after

lemma latest_append (log : List Transition) (tr : Transition) (id : Id) :
    latest (log ++ [tr]) id = if tr.id = id then some tr.after else latest log id := by
  unfold latest
  rw [filter_append]
  split_ifs with h <;> simp [h]

lemma mem_of_latest {log : List Transition} {id : Id} {e : Engine} (h : latest log id = some e) :
    ∃ tr ∈ log, tr.id = id ∧ tr.after = e := by
  obtain ⟨tr, htr, rfl⟩ := map_eq_some_iff.1 h
  obtain ⟨hmem, hid⟩ := mem_filter.1 (mem_of_getLast? htr)
  exact ⟨tr, hmem, of_decide_eq_true hid, rfl⟩

structure Good (e : Engine) : Prop where
  inv : Inv e
  fair : e.Fair
  seated : e.Seated

structure Call.Same (c c' : Call) : Prop where
  id : c'.id = c.id
  resolver : c'.resolver = c.resolver
  op : c'.op = c.op
  now : c'.now = c.now

lemma Call.Same.refl (c : Call) : c.Same c := ⟨rfl, rfl, rfl, rfl⟩

lemma Call.same_phase (c : Call) (phase : Phase) : c.Same { c with phase := phase } := ⟨rfl, rfl, rfl, rfl⟩

/-- The write that a call is at, or has left to the service. -/
def Phase.write : Phase → Option Write
  | .loadIdem | .load => none
  | .check w _ | .present w _ _ _ | .record w _ _ _ _ | .sequence w _ | .transact w _ _ => some w
  | .finished _ sent => sent.map Prod.fst

/-- The write that a call has found in the row of its instance. -/
def Phase.replayed : Phase → Option Write
  | .present w _ _ _ | .record w _ _ _ _ => some w
  | _ => none

def Phase.report : Phase → Option Report
  | .finished report _ => some report
  | _ => none

namespace System

def Was (s : System) (id : Id) (e : Engine) : Prop := Good e ∧ e.inst.id = id ∧ ∃ tr ∈ s.log, tr.id = id ∧ tr.after = e

/-- The vote was cast in a transition of the instance, by the operation of its call. -/
def CastIn (s : System) (id : Id) (k : Id) (v : VoteRecord) : Prop :=
  ∃ tr ∈ s.log, ∃ e c, tr.id = id ∧ tr.before = some e ∧ s.calls[tr.call]? = some c ∧ e.Cast k v ∧ c.op.Gives k v

/-- The proposal is what the operation of a call plans from what the instance was. -/
structure Planned (s : System) (c : Call) (before : Option Engine) (p : Proposal) : Prop where
  plan : c.op.plan c.resolver c.id c.now before = .ok (.inr p)
  was : ∀ e, before = some e → s.Was c.id e

/-- A transition is what its call has planned, and its votes were cast. -/
structure Explained (s : System) (tr : Transition) : Prop where
  call : ∃ c p, s.calls[tr.call]? = some c ∧ tr.id = c.id ∧ tr.key = c.op.key ∧ s.Planned c tr.before p ∧
    tr.after = p.engine ∧ tr.outcome = p.outcome
  good : Good tr.after
  id : tr.after.inst.id = tr.id
  votes : ∀ k t v, tr.after.tasks.get k = some t → v ∈ t.votes → s.CastIn tr.id k v

/-- A call has planned the write from a row that the instance had. -/
def Loaded (s : System) (c : Call) (w : Write) : Prop :=
  ∃ row p, s.Planned c (row.map Prod.fst) p ∧ w = c.writeOf row p ∧
    ∀ r, row = some r → ∃ r', s.kv.instances c.id = some r' ∧ Later r r'

structure CallOk (s : System) (c : Call) : Prop where
  write : ∀ w, c.phase.write = some w → s.Loaded c w
  replayed : ∀ w, c.phase.replayed = some w → s.Was c.id w.engine
  committed : ∀ o, c.phase.report = some (.committed o) →
    ∃ before p, s.Planned c before p ∧ o = p.outcome ∧ s.Was c.id p.engine

structure Sane (s : System) : Prop where
  revision : ∀ id row, s.kv.instances id = some row → row.2 ≤ s.kv.revision
  instances : ∀ id, (s.kv.instances id).map Prod.fst = latest s.log id
  log : ∀ tr ∈ s.log, s.Explained tr
  chain : ∀ l tr l', s.log = l ++ tr :: l' → tr.before = latest l tr.id
  call : ∀ (i : ℕ) (c : Call), s.calls[i]? = some c → s.CallOk c
  idem : ∀ tr ∈ s.log, ∀ key, tr.key = some key → (s.kv.idem (idemKey tr.id key)).isSome = true
  once : s.log.Pairwise fun a b => ¬ (a.id = b.id ∧ a.key = b.key ∧ a.key ≠ none)

lemma sane_start : Sane System.start := by
  refine ⟨fun id row h => ?_, fun id => rfl, fun tr h => ?_, fun l tr l' h => ?_, fun i c h => ?_, fun tr h => ?_, .nil⟩
  · cases h
  · cases h
  · simp [System.start] at h
  · simp [System.start] at h
  · cases h

/-! ### Growing systems -/

/-- Transitions stay, calls stay what they were asked for, and rows get later. -/
structure Extends (s s' : System) : Prop where
  log : ∀ tr ∈ s.log, tr ∈ s'.log
  calls : ∀ (i : ℕ) (c : Call), s.calls[i]? = some c → ∃ c', s'.calls[i]? = some c' ∧ c.Same c'
  kv : s.kv.Grows s'.kv

lemma Extends.refl (s : System) : Extends s s := ⟨fun _ h => h, fun _ c hc => ⟨c, hc, .refl c⟩, .refl s.kv⟩

section

variable {s s' : System} (hx : Extends s s')
include hx

lemma Was.mono {id : Id} {e : Engine} (h : s.Was id e) : s'.Was id e := by
  obtain ⟨hgood, hid, tr, htr, hrest⟩ := h
  exact ⟨hgood, hid, tr, hx.log tr htr, hrest⟩

lemma CastIn.mono {id k : Id} {v : VoteRecord} (h : s.CastIn id k v) : s'.CastIn id k v := by
  obtain ⟨tr, htr, e, c, hid, hbefore, hc, hcast, hgives⟩ := h
  obtain ⟨c', hc', hsame⟩ := hx.calls _ c hc
  exact ⟨tr, hx.log tr htr, e, c', hid, hbefore, hc', hcast, hsame.op ▸ hgives⟩

lemma Planned.mono {c c' : Call} (hsame : c.Same c') {before : Option Engine} {p : Proposal}
    (h : s.Planned c before p) :
    s'.Planned c' before p where
  plan := by
    rw [hsame.op, hsame.resolver, hsame.id, hsame.now]
    exact h.plan
  was e he := by
    rw [hsame.id]
    exact (h.was e he).mono hx

lemma Explained.mono {tr : Transition} (h : s.Explained tr) : s'.Explained tr where
  call := by
    obtain ⟨c, p, hc, hid, hkey, hplanned, hrest⟩ := h.call
    obtain ⟨c', hc', hsame⟩ := hx.calls _ c hc
    exact ⟨c', p, hc', hid.trans hsame.id.symm, by rw [hsame.op]; exact hkey, hplanned.mono hx hsame, hrest⟩
  good := h.good
  id := h.id
  votes k t v ht hv := (h.votes k t v ht hv).mono hx

lemma Loaded.mono {c c' : Call} (hsame : c.Same c') {w : Write} (h : s.Loaded c w) : s'.Loaded c' w := by
  obtain ⟨row, p, hplanned, hw, hrow⟩ := h
  refine ⟨row, p, hplanned.mono hx hsame, ?_, fun r hr => ?_⟩
  · rw [hw, Call.writeOf, Call.writeOf, hsame.op]
  · obtain ⟨r', hr', hlater⟩ := hrow r hr
    obtain ⟨r'', hr'', hlater'⟩ := hx.kv _ r' hr'
    exact ⟨r'', hsame.id ▸ hr'', hlater.trans hlater'⟩

lemma CallOk.mono {c : Call} (h : s.CallOk c) : s'.CallOk c where
  write w hw := (h.write w hw).mono hx (.refl c)
  replayed w hw := (h.replayed w hw).mono hx
  committed o ho := by
    obtain ⟨before, p, hplanned, ho, hwas⟩ := h.committed o ho
    exact ⟨before, p, hplanned.mono hx (.refl c), ho, hwas.mono hx⟩

end

/-! ### Reads -/

section

variable {s : System} {c : Call}

lemma callOk_idle {c : Call} (hwrite : c.phase.write = none) (hreplayed : c.phase.replayed = none)
    (hreport : ∀ o, c.phase.report ≠ some (.committed o)) : s.CallOk c where
  write w hw := by cases hwrite.symm.trans hw
  replayed w hw := by cases hreplayed.symm.trans hw
  committed o ho := absurd ho (hreport o)

lemma callOk_finish (report : Report) (hreport : ∀ o, report ≠ .committed o) : s.CallOk (c.finish report) :=
  callOk_idle rfl rfl fun o ho => hreport o (Option.some.inj ho)

lemma callOk_again : s.CallOk c.again ∧ c.Same c.again := by
  unfold Call.again
  split_ifs
  · exact ⟨callOk_finish _ (fun _ h => by cases h), c.same_phase _⟩
  · exact ⟨callOk_idle rfl rfl fun _ h => (by cases h), ⟨rfl, rfl, rfl, rfl⟩⟩

variable {w : Write}

lemma callOk_write (h : s.Loaded c w) {phase : Phase} (hwrite : phase.write = some w)
    (hreplayed : phase.replayed = none) (hreport : phase.report = none) : s.CallOk { c with phase := phase } where
  write w' hw' := by
    cases hwrite.symm.trans hw'
    exact h.mono (.refl s) (c.same_phase phase)
  replayed w' hw' := by
    cases hreplayed.symm.trans hw'
  committed o ho := by
    cases hreport.symm.trans ho

lemma callOk_proceed (h : s.Loaded c w) (left : ℕ) (holds : Bool) :
    s.CallOk (c.proceed w left holds) ∧ c.Same (c.proceed w left holds) := by
  unfold Call.proceed
  split_ifs
  · exact ⟨callOk_write h rfl rfl rfl, c.same_phase _⟩
  · exact callOk_again

lemma callOk_replayed (h : s.Loaded c w) (hwas : s.Was c.id w.engine) {phase : Phase}
    (hwrite : phase.write = some w) (hreplayed : phase.replayed = some w) (hreport : phase.report = none) :
    s.CallOk { c with phase := phase } where
  write w' hw' := by
    cases hwrite.symm.trans hw'
    exact h.mono (.refl s) (c.same_phase phase)
  replayed w' hw' := by
    cases hreplayed.symm.trans hw'
    exact hwas
  committed o ho := by
    cases hreport.symm.trans ho

lemma Sane.was (h : s.Sane) {id : Id} {row : Engine × ℕ} (hrow : s.kv.instances id = some row) : s.Was id row.1 := by
  have hlatest := h.instances id
  rw [hrow] at hlatest
  obtain ⟨tr, htr, hid, hafter⟩ := mem_of_latest hlatest.symm
  have hex := h.log tr htr
  exact ⟨hafter ▸ hex.good, by rw [← hafter, hex.id, hid], tr, htr, hid, hafter⟩

/-- What an operation plans is sound and fair, and its votes were cast or are cast by it. -/
lemma Sane.planned (h : s.Sane) {before : Option Engine} {p : Proposal} (hp : s.Planned c before p) :
    Good p.engine ∧ p.engine.inst.id = c.id ∧ ∀ k t v, p.engine.tasks.get k = some t → v ∈ t.votes →
      s.CastIn c.id k v ∨ ∃ e, before = some e ∧ e.Cast k v ∧ c.op.Gives k v := by
  cases before with
  | none =>
    obtain ⟨hi, hf, hs, hid, -, hvotes⟩ := Operation.led_plan_none hp.plan
    refine ⟨⟨hi, hf, hs⟩, hid, fun k t v ht hv => ?_⟩
    rw [hvotes k t ht] at hv
    cases hv
  | some e =>
    obtain ⟨hgood, hid, tr, htr, htrid, hafter⟩ := hp.was e rfl
    have hold : ∀ k t v, e.tasks.get k = some t → v ∈ t.votes → s.CastIn c.id k v := by
      intro k t v ht hv
      rw [← htrid]
      exact (h.log tr htr).votes k t v (hafter ▸ ht) hv
    rcases Operation.led_plan hgood.inv hgood.fair hgood.seated hp.plan with ⟨-, heq⟩ | hled
    · rw [heq]
      exact ⟨⟨hgood.inv.setActingService none, hgood.fair.setActingService none, hgood.seated⟩, hid,
        fun k t v ht hv => .inl (hold k t v ht hv)⟩
    · refine ⟨⟨hled.inv, hled.follows.fair, hled.follows.seated⟩, hled.evolves.id.trans hid, fun k t v ht hv => ?_⟩
      rcases hled.follows.votes k t v ht hv with ⟨t₀, ht₀, hv₀⟩ | ⟨hcast, hgives⟩
      · exact .inl (hold k t₀ v ht₀ hv₀)
      · exact .inr ⟨e, rfl, hcast, hgives⟩

lemma Loaded.id (h : s.Sane) (hw : s.Loaded c w) : w.engine.inst.id = c.id := by
  obtain ⟨row, p, hp, rfl, -⟩ := hw
  exact (h.planned hp).2.1

lemma callOk_read (h : s.Sane) (hok : s.CallOk c) : s.CallOk (c.read s.kv) ∧ c.Same (c.read s.kv) := by
  have hfinish : ∀ report : Report, (∀ o, report ≠ .committed o) → s.CallOk (c.finish report) ∧
    c.Same (c.finish report) :=
    fun report hreport => ⟨callOk_finish report hreport, c.same_phase _⟩
  unfold Call.read
  split
  · -- the idempotency record
    split
    · exact hfinish _ fun _ h => by cases h
    · exact ⟨callOk_idle rfl rfl fun _ h => (by cases h), c.same_phase _⟩
  · -- the instance
    split
    · exact hfinish _ fun _ h => by cases h
    · exact hfinish _ fun _ h => by cases h
    next p hplan =>
    unfold Call.beginCommit
    split
    · exact hfinish _ fun _ h => by cases h
    refine ⟨callOk_write ⟨s.kv.instances c.id, p, ⟨hplan, fun e he => ?_⟩, rfl,
      fun r hr => ⟨r, hr, .refl r⟩⟩ rfl rfl rfl,
      c.same_phase _⟩
    obtain ⟨row, hrow, rfl⟩ := map_eq_some_iff.1 he
    exact h.was hrow
  · exact callOk_again
  · -- the row, before a transaction
    next w left hphase =>
    have hw := hok.write w (by rw [hphase]; rfl)
    dsimp only
    split_ifs with hreplay
    · refine ⟨callOk_replayed hw ?_ rfl rfl rfl, c.same_phase _⟩
      obtain ⟨row, hrow, heq⟩ := (any_eq_true _ _).1 hreplay
      rw [← of_decide_eq_true heq, ← hw.id h]
      exact h.was hrow
    · exact callOk_proceed hw _ _
  · next w _ _ hphase =>
    have hw := hok.write w (by rw [hphase]; rfl)
    have hwas := hok.replayed w (by rw [hphase]; rfl)
    obtain ⟨row, p, hp, rfl, -⟩ := hw
    refine ⟨⟨fun _ hw => (by cases hw), fun _ hw => (by cases hw), fun o ho => ?_⟩, c.same_phase _⟩
    cases ho
    exact ⟨_, p, hp.mono (.refl s) (c.same_phase _), rfl, hwas⟩
  · next w left holds ev todo hphase =>
    have hw := hok.write w (by rw [hphase]; rfl)
    split
    · exact callOk_proceed hw _ _
    · exact ⟨callOk_replayed hw (hok.replayed w (by rw [hphase]; rfl)) rfl rfl rfl, c.same_phase _⟩
  · next w left holds key todo hphase =>
    have hw := hok.write w (by rw [hphase]; rfl)
    split
    · exact callOk_proceed hw _ _
    · exact ⟨callOk_replayed hw (hok.replayed w (by rw [hphase]; rfl)) rfl rfl rfl, c.same_phase _⟩
  · next w left hphase => exact ⟨callOk_write (hok.write w (by rw [hphase]; rfl)) rfl rfl rfl, c.same_phase _⟩
  · exact ⟨hok, .refl c⟩
  · exact ⟨hok, .refl c⟩

end

/-! ### Steps -/

section

variable {s s' : System}

lemma Sane.of_calls (h : s.Sane) (hinstances : s'.kv.instances = s.kv.instances) (hidem : s'.kv.idem = s.kv.idem)
    (hrevision : s.kv.revision ≤ s'.kv.revision) (hlog : s'.log = s.log)
    (hsame : ∀ (i : ℕ) (c : Call), s.calls[i]? = some c → ∃ c', s'.calls[i]? = some c' ∧ c.Same c')
    (hcall : ∀ (i : ℕ) (c : Call), s'.calls[i]? = some c → s.CallOk c) : s'.Sane := by
  have hx : Extends s s' := ⟨hlog ▸ fun _ h => h, hsame,
    fun id row hrow => ⟨row, by rw [hinstances]; exact hrow, .refl row⟩⟩
  refine ⟨fun id row hrow => ?_, fun id => ?_, fun tr htr => ?_, fun l tr l' hl => ?_,
    fun i c hc => (hcall i c hc).mono hx,
    fun tr htr key hkey => ?_, ?_⟩
  · rw [hinstances] at hrow
    exact (h.revision id row hrow).trans hrevision
  · rw [hinstances, hlog]
    exact h.instances id
  · rw [hlog] at htr
    exact (h.log tr htr).mono hx
  · rw [hlog] at hl
    exact h.chain l tr l' hl
  · rw [hlog] at htr
    rw [hidem]
    exact h.idem tr htr key hkey
  · rw [hlog]
    exact h.once

variable {c : Call} {w : Write} {cur : ℕ}

lemma Sane.setCall (h : s.Sane) {i : ℕ} {c' : Call}
    (hc : s.calls[i]? = some c) (hsame : c.Same c') (hok : s.CallOk c') :
    (s.setCall i c').Sane := by
  refine h.of_calls rfl rfl le_rfl rfl (fun j d hd => ?_) fun j d hd => ?_
  · rcases getElem?_set_or hc hd with ⟨-, rfl, hset⟩ | hset
    · exact ⟨c', hset _, hsame⟩
    · exact ⟨d, hset _, .refl d⟩
  · rcases getElem?_set_cases hd with ⟨-, rfl⟩ | ⟨-, hd⟩
    · exact hok
    · exact h.call j d hd

def transitionOf (s : System) (i : ℕ) (w : Write) : Transition :=
  ⟨i, w.engine.inst.id, w.idem.map IdemRecord.key, (s.kv.instances w.engine.inst.id).map Prod.fst, w.engine, w.outcome⟩

def written (s : System) (i : ℕ) (w : Write) (cur : ℕ) : System :=
  ⟨s.kv.puts w cur, s.calls, s.log ++ [s.transitionOf i w]⟩

lemma commit_eq (s : System) (i : ℕ) (w : Write) (cur : ℕ) :
    s.commit i w cur = if s.kv.compares w cur then (true, s.written i w cur) else (false, s) := by
  unfold System.commit Kv.txn
  split_ifs with h <;> rfl

lemma compares_predicate {kv : Kv} (h : kv.compares w cur = true) :
    instancePredicateHolds w.expected (kv.instances w.engine.inst.id) = true ∧
      ∀ rec, w.idem = some rec → kv.idem (idemKey w.engine.inst.id rec.key) = none := by
  unfold Kv.compares at h
  simp only [Bool.and_eq_true] at h
  obtain ⟨⟨-, hpredicate⟩, hidem⟩ := h
  refine ⟨hpredicate, fun rec hrec => ?_⟩
  rw [hrec] at hidem
  simpa using hidem

lemma extends_written (h : s.Sane) (i : ℕ) (w : Write) (cur : ℕ) : Extends s (s.written i w cur) :=
  ⟨fun _ htr => mem_append_left _ htr, fun _ c hc => ⟨c, hc, .refl c⟩, Kv.grows_puts h.revision w cur⟩

lemma Loaded.row (h : s.Sane) (hw : s.Loaded c w)
    (hpredicate : instancePredicateHolds w.expected (s.kv.instances w.engine.inst.id) = true) :
    ∃ p, s.Planned c ((s.kv.instances c.id).map Prod.fst) p ∧ w = c.writeOf (s.kv.instances c.id) p := by
  have hid := hw.id h
  obtain ⟨row, p, hp, rfl, hlater⟩ := hw
  rw [hid] at hpredicate
  rw [(predicate_iff hlater).1 hpredicate]
  exact ⟨p, hp, rfl⟩

lemma Sane.written (h : s.Sane) {i : ℕ} (hc : s.calls[i]? = some c) (hw : s.Loaded c w)
    (hcompares : s.kv.compares w cur = true) : (s.written i w cur).Sane := by
  obtain ⟨hpredicate, hfree⟩ := compares_predicate hcompares
  have hid := hw.id h
  have hx := extends_written h i w cur
  obtain ⟨p, hp, rfl⟩ := hw.row h hpredicate
  obtain ⟨hgood, hpid, hvotes⟩ := h.planned hp
  set w := c.writeOf (s.kv.instances c.id) p with hwdef
  have hkey : (s.transitionOf i w).key = c.op.key := by
    simp [transitionOf, hwdef, Call.writeOf, Function.comp_def]
  have hbefore : (s.transitionOf i w).before = (s.kv.instances c.id).map Prod.fst := by
    simp only [transitionOf, hid]
  have hmem : s.transitionOf i w ∈ (s.written i w cur).log := mem_append_right _ mem_cons_self
  refine ⟨fun id row hrow => ?_, fun id => ?_, fun tr htr => ?_, fun l tr l' hl => ?_,
    fun j d hd => (h.call j d hd).mono hx,
    fun tr htr key hk => ?_, ?_⟩
  · rw [System.written, Kv.puts_instances, Function.update_apply] at hrow
    rw [System.written, Kv.puts_revision]
    split_ifs at hrow
    · cases hrow
      exact le_rfl
    · exact (h.revision id row hrow).trans (Nat.le_succ _)
  · rw [System.written, Kv.puts_instances, latest_append, Function.update_apply]
    by_cases hidw : id = w.engine.inst.id
    · rw [if_pos hidw, if_pos (show (s.transitionOf i w).id = id from hidw.symm)]
      rfl
    · rw [if_neg hidw, if_neg (fun heq : (s.transitionOf i w).id = id => hidw heq.symm)]
      exact h.instances id
  · rcases mem_append_one.1 htr with htr | rfl
    · exact (h.log tr htr).mono hx
    refine ⟨⟨c, p, hc, hid, hkey, ?_, rfl, rfl⟩, hgood, rfl, fun k t v ht hv => ?_⟩
    · rw [hbefore]
      exact hp.mono hx (.refl c)
    · rcases hvotes k t v ht hv with hcast | ⟨e, he, hcast, hgives⟩
      · rw [show (s.transitionOf i w).id = c.id from hid]
        exact hcast.mono hx
      · exact ⟨_, hmem, e, c, rfl, hbefore.trans he, hc, hcast, hgives⟩
  · rcases eq_nil_or_concat l' with rfl | ⟨l'', last, rfl⟩
    · obtain ⟨rfl, hlast⟩ := append_inj' hl rfl
      cases hlast
      rw [hbefore, h.instances, ← hid]
      rfl
    · rw [concat_eq_append, ← cons_append, ← append_assoc] at hl
      exact h.chain l tr l'' (append_inj' hl rfl).1
  · rw [System.written, Kv.puts_idem]
    rcases mem_append_one.1 htr with htr | rfl
    · have hsome := h.idem tr htr key hk
      split
      · exact hsome
      · split_ifs
        · rfl
        · exact hsome
    · obtain ⟨rec, hrec, rfl⟩ := map_eq_some_iff.1 hk
      rw [hrec]
      simp [transitionOf]
  · refine pairwise_append_one h.once fun a ha hab => ?_
    obtain ⟨hidab, hkeyab, hne⟩ := hab
    -- an earlier transition with the key would have left its record
    obtain ⟨key, hakey⟩ := ne_none_iff_exists'.1 hne
    obtain ⟨rec, hrec, rfl⟩ := map_eq_some_iff.1 (hkeyab.symm.trans hakey)
    have hsome := h.idem a ha _ hakey
    rw [hidab, show (s.transitionOf i w).id = w.engine.inst.id from rfl, hfree rec hrec] at hsome
    cases hsome

lemma sentBy_write (h : sentBy c = some (w, cur)) : c.phase.write = some w := by
  unfold sentBy at h
  split at h
  · next hphase =>
    cases h
    rw [hphase]
    rfl
  · next hphase =>
    rw [hphase, h]
    rfl
  · cases h

lemma callOk_failed (hok : s.CallOk c) (err : Bytes) : s.CallOk (failed c err) ∧ c.Same (failed c err) := by
  unfold failed
  split
  · exact ⟨hok, .refl c⟩
  · refine ⟨⟨fun w hw => ?_, fun w hw => (by cases hw), fun o ho => (by cases ho)⟩, c.same_phase _⟩
    obtain ⟨⟨w', cur⟩, hsent, rfl⟩ := map_eq_some_iff.1 hw
    exact (hok.write _ (sentBy_write hsent)).mono (.refl s) (c.same_phase _)

inductive Moved (s : System) : Step → System → Prop where
  | same (a : Step) : Moved s a s
  | call (id : Id) (resolver : Resolver) (op : Operation) (now : ℤ) :
    Moved s (.call id resolver op now) { s with calls := s.calls ++ [⟨id, resolver, op, now, 1, .loadIdem⟩] }
  | read (i : ℕ) (c : Call) (hc : s.calls[i]? = some c) : Moved s (.read i) (s.setCall i (c.read s.kv))
  | applied (i : ℕ) (c : Call) (w : Write) (left cur : ℕ) (hc : s.calls[i]? = some c)
      (hphase : c.phase = .transact w left cur)
    (hcompares : s.kv.compares w cur = true) :
    Moved s (.transact i) ((s.written i w cur).setCall i (c.finish (.committed w.outcome)))
  | refused (i : ℕ) (c : Call) (w : Write) (left cur : ℕ) (hc : s.calls[i]? = some c)
      (hphase : c.phase = .transact w left cur) :
    Moved s (.transact i) (s.setCall i { c with phase := .check w left })
  | delivered (i : ℕ) (c : Call) (w : Write) (cur : ℕ) (hc : s.calls[i]? = some c) (hsent : sentBy c = some (w, cur))
    (hcompares : s.kv.compares w cur = true) : Moved s (.deliver i) (s.written i w cur)
  | failed (i : ℕ) (c : Call) (err : Bytes) (hc : s.calls[i]? = some c) : Moved s (.fail i err)
      (s.setCall i (failed c err))
  | outbox (revisions : ℕ) (seqs : Id → ℕ) (ids : Bytes → Option (Id × ℕ)) (records : Id × ℕ → Option OutboxEvent) :
    Moved s (.outbox revisions seqs ids records)
      { s with kv := { s.kv with revision := s.kv.revision + revisions, seqs := seqs, ids := ids, records := records } }

lemma moved_step (s : System) (a : Step) : Moved s a (System.step s a).1 := by
  cases a with
  | call id resolver op now => exact .call id resolver op now
  | read i =>
    dsimp only [System.step]
    split
    · exact .same _
    · next c hc => exact .read i c hc
  | transact i =>
    dsimp only [System.step]
    split
    · next id resolver op now attempt w left cur hc =>
      by_cases hcompares : s.kv.compares w cur = true
      · rw [commit_eq, if_pos hcompares]
        exact .applied i ⟨id, resolver, op, now, attempt, .transact w left cur⟩ w left cur hc rfl hcompares
      · rw [commit_eq, if_neg hcompares]
        exact .refused i ⟨id, resolver, op, now, attempt, .transact w left cur⟩ w left cur hc rfl
    · exact .same _
  | deliver i =>
    dsimp only [System.step]
    split
    · exact .same _
    next w cur hsent =>
    obtain ⟨c, hc, hsent⟩ := bind_eq_some_iff.1 hsent
    by_cases hcompares : s.kv.compares w cur = true
    · rw [commit_eq, if_pos hcompares]
      exact .delivered i c w cur hc hsent hcompares
    · rw [commit_eq, if_neg hcompares]
      exact .same _
  | fail i err =>
    dsimp only [System.step]
    split
    · exact .same _
    · next c hc => exact .failed i c err hc
  | outbox revisions seqs ids records => exact .outbox revisions seqs ids records

theorem sane_step (h : s.Sane) (a : Step) : (System.step s a).1.Sane := by
  have hmoved := moved_step s a
  generalize (System.step s a).1 = s' at hmoved
  cases hmoved with
  | same => exact h
  | call id resolver op now =>
    refine h.of_calls rfl rfl le_rfl rfl (fun i c hc => ⟨c, getElem?_append_some hc _, .refl c⟩) fun i c hc => ?_
    rcases getElem?_append_one hc with hc | ⟨-, rfl⟩
    · exact h.call i c hc
    · exact callOk_idle rfl rfl fun _ ho => (by cases ho)
  | read i c hc =>
    obtain ⟨hok, hsame⟩ := callOk_read h (h.call i c hc)
    exact h.setCall hc hsame hok
  | applied i c w left cur hc hphase hcompares =>
    have hw := (h.call i c hc).write w (by rw [hphase]; rfl)
    refine (h.written hc hw hcompares).setCall hc (c.same_phase _) ?_
    obtain ⟨p, hp, hweq⟩ := hw.row h (compares_predicate hcompares).1
    obtain ⟨hgood, hpid, -⟩ := h.planned hp
    refine ⟨fun w hw => (by cases hw), fun w hw => (by cases hw), fun o ho => ?_⟩
    cases ho
    refine ⟨_, p, hp.mono (extends_written h i w cur) (c.same_phase _), by rw [hweq]; rfl, hgood, hpid, _,
      mem_append_right _ mem_cons_self, (hw.id h : _), by rw [hweq]; rfl⟩
  | refused i c w left cur hc hphase =>
    exact h.setCall hc (c.same_phase _) (callOk_write ((h.call i c hc).write w (by rw [hphase]; rfl)) rfl rfl rfl)
  | delivered i c w cur hc hsent hcompares =>
    exact h.written hc ((h.call i c hc).write w (sentBy_write hsent)) hcompares
  | failed i c err hc =>
    obtain ⟨hok, hsame⟩ := callOk_failed (h.call i c hc) err
    exact h.setCall hc hsame hok
  | outbox revisions seqs ids records =>
    exact h.of_calls rfl rfl (Nat.le_add_right _ _) rfl (fun i c hc => ⟨c, hc, .refl c⟩) h.call

end

theorem sane_exec (steps : List Step) : (exec System.step System.start steps).Sane :=
  exec_inv Sane sane_start fun _ a _ h => sane_step h a

end System

end Coord.Approval
