import Coord.Workflow.Outbox

/-!
# Fenced writes of drivers

A driver acquires the lease of an instance by creating the driver's row with a random token, and takes the revision of
the row as its epoch. Each of its writes compares both. Leases end at any time, and transactions arrive late or twice.
-/

namespace Coord.Workflow

open Coord.Lib List Function

variable {I : Type} {w : World I}

/-! ### Drivers' rows -/

/-- The driver's row has the guard's revision and token. -/
def Guard.Live (g : Guard) (rows : Rows I) : Prop :=
  ∃ d, rows.drivers g.inst = some d ∧ d.modRev = g.epoch ∧ d.token = g.token

variable {rows rows' : Rows I} {r : Request I} {g : Guard} {c : Call I}

lemma request_drivers (h : rows.request r = some rows') :
    rows'.revision = rows.revision + 1 ∧ (rows'.drivers = rows.drivers ∨
      ∃ inst token lease, r = .acquire inst token lease ∧ rows.drivers inst = none ∧
        rows'.drivers = update rows.drivers inst (some ⟨token, rows.revision + 1, lease⟩)) := by
  obtain ⟨hcmp, rfl⟩ := request_eq_some h
  refine ⟨rfl, ?_⟩
  cases r with
  | acquire inst token lease =>
    have hnone := hcmp (.driverVersionZero inst) (by simp [Request.compares])
    exact .inr ⟨inst, token, lease, rfl, Option.isNone_iff_eq_none.1 hnone, rfl⟩
  | append rec cur => exact .inl (foldl_outboxOps_frame [rec] (cur.getD 0 + 1) (rows.revision + 1) rows).2
  | commit inst value recs cur expected => exact .inl (foldl_outboxOps_frame _ _ _ _).2
  | fenced g value recs cur expected => exact .inl (foldl_outboxOps_frame _ _ _ _).2
  | rewrite rec oldPending again => cases again <;> exact .inl rfl
  | prune key rec => exact .inl rfl

/-- Every driver's row has a revision of the store that is not zero. -/
def RevisionsBounded (rows : Rows I) : Prop :=
  ∀ inst d, rows.drivers inst = some d → 0 < d.modRev ∧ d.modRev ≤ rows.revision

lemma revisionsBounded_request (hb : RevisionsBounded rows)
    (h : rows.request r = some rows') : RevisionsBounded rows' := by
  obtain ⟨hrev, hd⟩ := request_drivers h
  intro inst d hrow
  rw [hrev]
  rcases hd with hd | ⟨inst', token, lease, -, -, hd⟩
  · rw [hd] at hrow
    obtain ⟨h0, hle⟩ := hb inst d hrow
    exact ⟨h0, hle.trans (Nat.le_succ _)⟩
  · rw [hd, update_apply] at hrow
    split at hrow
    · cases hrow
      exact ⟨Nat.succ_pos _, le_rfl⟩
    · obtain ⟨h0, hle⟩ := hb inst d hrow
      exact ⟨h0, hle.trans (Nat.le_succ _)⟩

lemma revisionsBounded_revoke (hb : RevisionsBounded rows) (lease : ℤ) :
    RevisionsBounded (rows.revokeLease lease) := by
  intro inst d hrow
  obtain ⟨h0, hle⟩ := hb inst d (Option.filter_eq_some_iff.1 hrow).1
  exact ⟨h0, hle.trans (Nat.le_succ _)⟩

/-- A guard that is not live stays so: a new row has a later revision. -/
lemma not_live_request (hepoch : g.epoch ≤ rows.revision)
    (hlost : ¬ g.Live rows) (h : rows.request r = some rows') : ¬ g.Live rows' := by
  obtain ⟨-, hd | ⟨inst, token, lease, -, -, hd⟩⟩ := request_drivers h
  · rintro ⟨d, hrow, hlive⟩
    exact hlost ⟨d, hd ▸ hrow, hlive⟩
  · rintro ⟨d, hrow, hrev, htoken⟩
    rw [hd, update_apply] at hrow
    split at hrow
    · cases hrow
      simp only at hrev
      omega
    · exact hlost ⟨d, hrow, hrev, htoken⟩

lemma not_live_revoke (hlost : ¬ g.Live rows) (lease : ℤ) : ¬ g.Live (rows.revokeLease lease) := by
  rintro ⟨d, hrow, hlive⟩
  exact hlost ⟨d, (Option.filter_eq_some_iff.1 hrow).1, hlive⟩

lemma live_of_fenced {value : I} {recs : List OutboxRecord} {cur : Option ℕ}
    {expected : ℤ} (hepoch : 0 < g.epoch) (h : rows.request (.fenced g value recs cur expected) = some rows') :
    g.Live rows := by
  obtain ⟨hcmp, -⟩ := request_eq_some h
  have hrev := hcmp (.driverModRev g.inst g.epoch) (by simp [Request.compares, Guard.fenceCompares])
  have htoken := hcmp (.driverValue g.inst g.token) (by simp [Request.compares, Guard.fenceCompares])
  simp only [Rows.holds, decide_eq_true_eq] at hrev htoken
  cases hd : rows.drivers g.inst with
  | none =>
    rw [hd] at hrev
    simp at hrev
    omega
  | some d =>
    rw [hd] at hrev htoken
    exact ⟨d, hd, Int.ofNat_inj.1 hrev, htoken⟩

/-! ### Guards -/

/-- What the guards of a run have in common: an acquisition of theirs, an epoch that the store has reached, and that
only granted guards write. -/
structure LeaseInv (w : World I) : Prop where
  byCalls : SentByCalls w
  bounded : RevisionsBounded w.rows
  guards : ∀ c ∈ w.calls, ∀ g, c.phase = .finished (.guard (some g)) →
    c.op = .acquire g.inst g.token g.lease ∧ 0 < g.epoch ∧ g.epoch ≤ w.rows.revision
  commits : ∀ c ∈ w.calls, ∀ g value recs expected, c.op = .fencedCommit g value recs expected → w.granted g
  drivers : ∀ inst d, w.rows.drivers inst = some d → ∃ c ∈ w.calls, c.op = .acquire inst d.token d.lease

lemma leaseInv_start : LeaseInv (World.start I) where
  byCalls := fun _ hx => absurd hx not_mem_nil
  bounded := fun _ _ h => by cases h
  guards := fun _ hc => absurd hc not_mem_nil
  commits := fun _ hc => absurd hc not_mem_nil
  drivers := fun _ _ h => by cases h

variable {out : Option (Request I)}

lemma Call.Moves.finished {j : ℕ} {c' : Call I} {answer : Answer}
    (h : c.Moves w out j c') (hc : c.phase = .finished answer) : c'.phase = .finished answer := by
  cases h with
  | stay => exact hc
  | read => rw [Call.read, hc]; rfl
  | hear k b hk hb => rw [hc] at hk; cases hk
  | giveUp k hk => rw [hc] at hk; cases hk

lemma granted_step (h : w.granted g) (a : Action I) : (step w a).1.granted g := by
  obtain ⟨c, hc, hg⟩ := h
  obtain ⟨j, hj⟩ := mem_iff_getElem?.1 hc
  obtain ⟨c', hc', hmoves⟩ := step_calls hj a
  exact ⟨c', mem_of_getElem? hc', hmoves.finished hg⟩

lemma Call.after_guard {n : ℕ} {next : Next I} (h : (c.after n next).phase = .finished (.guard (some g))) :
    ∃ round, next = .goto round (.finished (.guard (some g))) := by
  cases next with
  | goto round phase => exact ⟨round, congrArg _ h⟩
  | send r => cases h

lemma Call.missing_ne_guard (c : Call I) (round : ℕ) (g : Guard) :
    c.missing ≠ .goto round (.finished (.guard (some g))) := by
  unfold Call.missing
  split
  · split <;> simp
  · split <;> simp
  · simp

lemma Call.present_ne_guard (c : Call I) (rec : OutboxRecord) (ids : List Id) (round : ℕ) (g : Guard) :
    c.present rec ids ≠ .goto round (.finished (.guard (some g))) := by
  unfold Call.present
  split
  · split <;> simp
  · simp
  · split <;> simp
  · simp

lemma Call.afterSequence_ne_guard (c : Call I) (cur : Option ℕ) (round : ℕ) (g : Guard) :
    c.afterSequence cur ≠ .goto round (.finished (.guard (some g))) := by
  unfold Call.afterSequence
  split <;> simp

lemma Call.hear_ne_guard (c : Call I) (b : Bool) (round : ℕ) (g : Guard) :
    c.hear b ≠ .goto round (.finished (.guard (some g))) := by
  unfold Call.hear
  split
  · split <;> simp
  · split <;> simp
  · split
    · simp
    · split
      · split <;> simp
      · simp
  · simp
  · simp
  · simp

lemma Call.read_guard {round : ℕ} (h : c.read rows = .goto round (.finished (.guard (some g)))) :
    c.phase = .finished (.guard (some g)) ∨
      c.op = .acquire g.inst g.token g.lease ∧ ∃ d, rows.drivers g.inst = some d ∧ d.modRev = g.epoch := by
  unfold Call.read at h
  split at h
  · exact .inl (Next.goto.inj h).2
  · split at h
    · exact absurd h (c.missing_ne_guard round g)
    · cases h
  · split at h
    · exact absurd h (c.missing_ne_guard round g)
    · exact absurd h (c.present_ne_guard _ _ round g)
  · exact absurd h (c.afterSequence_ne_guard _ round g)
  · split at h
    · next inst token lease hop =>
      split at h
      · cases h
      · next d hd =>
        have hg := Phase.finished.inj (Next.goto.inj h).2
        obtain rfl := Option.some.inj (Answer.guard.inj hg)
        exact .inr ⟨hop, d, hd, rfl⟩
    · cases h
  · exact .inl (Next.goto.inj h).2
  · exact .inl (Next.goto.inj h).2

lemma Call.Moves.guard {j : ℕ} {c' : Call I} (h : c.Moves w out j c') (hg : c'.phase = .finished (.guard (some g))) :
    c.phase = .finished (.guard (some g)) ∨
      c.op = .acquire g.inst g.token g.lease ∧ ∃ d, w.rows.drivers g.inst = some d ∧ d.modRev = g.epoch := by
  cases h with
  | stay => exact .inl hg
  | read =>
    obtain ⟨round, hread⟩ := Call.after_guard hg
    exact Call.read_guard hread
  | hear k b hk hb =>
    obtain ⟨round, hhear⟩ := Call.after_guard hg
    exact absurd hhear (c.hear_ne_guard b round g)
  | giveUp k hk => cases hg

lemma begin_ne_guard (op : Op I) (n : ℕ) (g : Guard) :
    ((⟨op, 0, .finished .failed⟩ : Call I).after n op.begin).phase ≠ .finished (.guard (some g)) := by
  intro h
  obtain ⟨round, hnext⟩ := Call.after_guard h
  unfold Op.begin at hnext
  split at hnext
  · cases hnext
  · cases hnext
  · cases hnext
  · split at hnext <;> cases hnext
  · cases hnext
  · cases hnext

lemma revision_step (w : World I) (a : Action I) : w.rows.revision ≤ (step w a).1.rows.revision := by
  rcases step_rows w a with ⟨hrows, -⟩ | ⟨i, r, -, hreq, -⟩ | ⟨lease, hrows, -⟩
  · rw [hrows]
  · rw [(request_drivers hreq).1]
    exact Nat.le_succ _
  · rw [hrows]
    exact Nat.le_succ _

lemma leaseInv_step (h : LeaseInv w) (a : Action I) : LeaseInv (step w a).1 where
  byCalls := sentByCalls_step h.byCalls a
  bounded := by
    rcases step_rows w a with ⟨hrows, -⟩ | ⟨i, r, -, hreq, -⟩ | ⟨lease, hrows, -⟩
    · rw [hrows]
      exact h.bounded
    · exact revisionsBounded_request h.bounded hreq
    · rw [hrows]
      exact revisionsBounded_revoke h.bounded lease
  guards := by
    intro c' hc' g hg
    rcases mem_step_calls hc' with ⟨j, c, hj, hmoves⟩ | ⟨op, -, -, rfl⟩
    · rw [hmoves.op_eq]
      rcases hmoves.guard hg with hold | ⟨hop, d, hd, hrev⟩
      · obtain ⟨hop, hpos, hle⟩ := h.guards c (mem_of_getElem? hj) g hold
        exact ⟨hop, hpos, hle.trans (revision_step w a)⟩
      · -- the epoch is the revision of a row
        obtain ⟨hpos, hle⟩ := h.bounded g.inst d hd
        rw [hrev] at hpos hle
        exact ⟨hop, hpos, hle.trans (revision_step w a)⟩
    · exact absurd hg (begin_ne_guard op _ g)
  commits := by
    intro c' hc' g value recs expected hop
    rcases mem_step_calls hc' with ⟨j, c, hj, hmoves⟩ | ⟨op, -, hmay, rfl⟩
    · rw [hmoves.op_eq] at hop
      exact granted_step (h.commits c (mem_of_getElem? hj) g value recs expected hop) a
    · rw [Call.after_op] at hop
      obtain rfl : op = .fencedCommit g value recs expected := hop
      exact granted_step hmay a
  drivers := by
    have hkeep : ∀ {op : Op I}, (∃ c ∈ w.calls, c.op = op) → ∃ c ∈ (step w a).1.calls, c.op = op := by
      rintro op ⟨c, hc, hop⟩
      obtain ⟨j, hj⟩ := mem_iff_getElem?.1 hc
      obtain ⟨c', hc', hmoves⟩ := step_calls hj a
      exact ⟨c', mem_of_getElem? hc', hmoves.op_eq.trans hop⟩
    intro inst d hd
    rcases step_rows w a with ⟨hrows, -⟩ | ⟨i, r, hsent, hreq, -⟩ | ⟨lease, hrows, -⟩
    · rw [hrows] at hd
      exact hkeep (h.drivers inst d hd)
    · rcases (request_drivers hreq).2 with hdr | ⟨inst', token, lease, rfl, -, hdr⟩
      · rw [hdr] at hd
        exact hkeep (h.drivers inst d hd)
      rw [hdr, update_apply] at hd
      split at hd
      · next heq =>
        subst heq
        cases hd
        obtain ⟨c, hc, hsends⟩ := h.byCalls _ hsent
        refine hkeep ⟨c, mem_of_getElem? hc, ?_⟩
        cases hop : c.op <;> rw [hop] at hsends <;> cases hsends
        rfl
      · exact hkeep (h.drivers inst d hd)
    · rw [hrows] at hd
      exact hkeep (h.drivers inst d (Option.filter_eq_some_iff.1 hd).1)

theorem lost_stays_lost (h : LeaseInv w) (hg : w.granted g) (hlost : ¬ g.Live w.rows) (a : Action I) :
    ¬ g.Live (step w a).1.rows := by
  obtain ⟨c, hc, hphase⟩ := hg
  obtain ⟨-, -, hepoch⟩ := h.guards c hc g hphase
  rcases step_rows w a with ⟨hrows, -⟩ | ⟨i, r, -, hreq, -⟩ | ⟨lease, hrows, -⟩
  · rw [hrows]
    exact hlost
  · exact not_live_request hepoch hlost hreq
  · rw [hrows]
    exact not_live_revoke hlost lease

/-! ### Writes -/

/-- The event is a fenced write of the guard that took effect. -/
def Writes (g : Guard) (e : Event (World I) (Action I) (Option (Request I))) : Prop :=
  ∃ value recs cur expected, e.out = some (.fenced g value recs cur expected)

variable {e : Event (World I) (Action I) (Option (Request I))}

lemma live_of_writes (h : LeaseInv e.before) (hs : step e.before e.act = (e.after, e.out)) (hw : Writes g e) :
    e.before.granted g ∧ g.Live e.before.rows := by
  obtain ⟨value, recs, cur, expected, hout⟩ := hw
  replace hout := (congrArg Prod.snd hs).trans hout
  rcases step_rows e.before e.act with ⟨-, -, hnone⟩ | ⟨i, r, hsent, hreq, -, hsome⟩ | ⟨lease, -, -, hnone⟩
  · cases hnone.symm.trans hout
  · cases hsome.symm.trans hout
    obtain ⟨c, hc, hsends⟩ := h.byCalls _ hsent
    have hgranted : e.before.granted g := by
      cases hop : c.op <;> rw [hop] at hsends <;> cases hsends
      exact h.commits c (mem_of_getElem? hc) _ _ _ _ hop
    obtain ⟨c', hc', hphase⟩ := hgranted
    exact ⟨⟨c', hc', hphase⟩, live_of_fenced (h.guards c' hc' g hphase).2.1 hreq⟩
  · cases hnone.symm.trans hout

lemma lost_pairwise (g : Guard) (actions : List (Action I)) :
    (trace step (World.start I) actions).Pairwise fun e e' =>
      e.after.granted g → ¬ g.Live e.after.rows → e'.before.granted g ∧ ¬ g.Live e'.before.rows :=
  trace_pairwise LeaseInv
    (fun e w => e.after.granted g → ¬ g.Live e.after.rows → w.granted g ∧ ¬ g.Live w.rows) leaseInv_start
    (fun _ a _ h => leaseInv_step h a) (fun _ _ _ _ hg hlost => ⟨hg, hlost⟩)
    (fun _ _ a _ h hq hg hlost => ⟨granted_step (hq hg hlost).1 a, lost_stays_lost h (hq hg hlost).1 (hq hg hlost).2 a⟩)

lemma granted_pairwise (g : Guard) (actions : List (Action I)) :
    (trace step (World.start I) actions).Pairwise fun e e' => Writes g e → e'.before.granted g :=
  trace_pairwise LeaseInv (fun e w => Writes g e → w.granted g) leaseInv_start (fun _ a _ h => leaseInv_step h a)
    (fun _ a _ h hw => granted_step (live_of_writes h rfl hw).1 a) (fun _ _ a _ _ hq hw => granted_step (hq hw) a)

lemma leaseInv_of_mem {actions : List (Action I)} (he : e ∈ trace step (World.start I) actions) : LeaseInv e.before :=
  (trace_inv LeaseInv leaseInv_start (fun _ a _ h => leaseInv_step h a) e he).1

/-! ### Tokens -/

def Op.token : Op I → Option String
  | acquire _ token _ => some token
  | _ => none

def Action.started : Action I → Option (Op I)
  | start op => some op
  | _ => none

/-- The token of an acquisition that starts, 128 random bits, is not the one of an earlier acquisition. -/
def FreshToken (w : World I) (a : Action I) : Prop :=
  ∀ op ∈ a.started, ∀ token ∈ op.token, ∀ op' ∈ w.ops, op'.token ≠ some token

instance (w : World I) (a : Action I) : Decidable (FreshToken w a) :=
  inferInstanceAs (Decidable (∀ op ∈ a.started, ∀ token ∈ op.token, ∀ op' ∈ w.ops, op'.token ≠ some token))

def TokensDistinct (w : World I) : Prop :=
  w.ops.Pairwise fun op op' => ∀ token ∈ op.token, op'.token ≠ some token

lemma tokensDistinct_start : TokensDistinct (World.start I) := List.Pairwise.nil

lemma tokensDistinct_step (a : Action I) (ha : FreshToken w a) (h : TokensDistinct w) :
    TokensDistinct (step w a).1 := by
  rcases step_ops w a with hops | ⟨op, rfl, hops⟩
  · rw [TokensDistinct, hops]
    exact h
  · rw [TokensDistinct, hops]
    exact pairwise_append_one h fun op' hop' token htoken heq => ha op rfl token heq op' hop' htoken

lemma call_eq_of_token (h : TokensDistinct w) {c₁ c₂ : Call I} (token : String) (h₁ : c₁ ∈ w.calls)
    (h₂ : c₂ ∈ w.calls) (ht₁ : c₁.op.token = some token) (ht₂ : c₂.op.token = some token) : c₁ = c₂ := by
  have hpair : w.calls.Pairwise fun c c' => ∀ token ∈ c.op.token, c'.op.token ≠ some token := pairwise_map.1 h
  have : Std.Symm fun c c' : Call I => ∀ token ∈ c.op.token, c'.op.token ≠ some token :=
    ⟨fun c c' hcc token ht ht' => hcc token ht' ht⟩
  by_contra hne
  exact hpair.forall h₁ h₂ hne token ht₁ ht₂

lemma guard_eq_of_token (h : LeaseInv w) (ht : TokensDistinct w) {g₁ g₂ : Guard} (h₁ : w.granted g₁)
    (h₂ : w.granted g₂) (htoken : g₁.token = g₂.token) : g₁ = g₂ := by
  obtain ⟨c₁, hc₁, hg₁⟩ := h₁
  obtain ⟨c₂, hc₂, hg₂⟩ := h₂
  have hop₁ := (h.guards c₁ hc₁ g₁ hg₁).1
  have hop₂ := (h.guards c₂ hc₂ g₂ hg₂).1
  obtain rfl := call_eq_of_token ht g₁.token hc₁ hc₂ (by rw [hop₁]; rfl) (by rw [hop₂, htoken]; rfl)
  exact Option.some.inj (Answer.guard.inj (Phase.finished.inj (hg₁.symm.trans hg₂)))

lemma lease_eq_of_live (h : LeaseInv w) (ht : TokensDistinct w) (hg : w.granted g) {d : Driver}
    (hd : w.rows.drivers g.inst = some d) (htoken : d.token = g.token) : d.lease = g.lease := by
  obtain ⟨c, hc, hphase⟩ := hg
  have hop := (h.guards c hc g hphase).1
  obtain ⟨c', hc', hop'⟩ := h.drivers g.inst d hd
  obtain rfl := call_eq_of_token ht g.token hc hc' (by rw [hop]; rfl) (by rw [hop', htoken]; rfl)
  exact (Op.acquire.inj (hop'.symm.trans hop)).2.2

/-- The end of the guard's lease and a new acquisition of its instance both mean that the guard is lost. -/
lemma lost_of_revoke_or_acquire (h : LeaseInv w) (ht : TokensDistinct w) {a : Action I} (hg : w.granted g)
    (hlost : a = .revoke g.lease ∨ ∃ token lease, (step w a).2 = some (.acquire g.inst token lease)) :
    ¬ g.Live (step w a).1.rows := by
  rcases hlost with rfl | ⟨token, lease, hout⟩
  · rintro ⟨d, hd, -, htoken⟩
    obtain ⟨hd, hlease⟩ := Option.filter_eq_some_iff.1 (show (w.rows.drivers g.inst).filter _ = some d from hd)
    simp [lease_eq_of_live h ht hg hd htoken] at hlease
  -- the row was free before, so the guard had been lost already
  refine lost_stays_lost h hg ?_ a
  rintro ⟨d, hd, -⟩
  rcases step_rows w a with ⟨-, -, hnone⟩ | ⟨i, r, -, hreq, -, hsome⟩ | ⟨_, -, -, hnone⟩
  · cases hnone.symm.trans hout
  · cases hsome.symm.trans hout
    have hfree := (request_eq_some hreq).1 (.driverVersionZero g.inst) (by simp [Request.compares])
    rw [Option.isNone_iff_eq_none.1 hfree] at hd
    cases hd
  · cases hnone.symm.trans hout

/-! ### The main theorem -/

/-- **Fenced writes of two guards do not mix, and a lost guard writes no more.** -/
theorem fenced_writes_ordered (actions : List (Action I)) (hfresh : Along step FreshToken (World.start I) actions) :
    (∀ g₁ g₂ : Guard, g₁ ≠ g₂ → g₁.inst = g₂.inst →
      (trace step (World.start I) actions).Pairwise (fun e e' => Writes g₁ e → ¬ Writes g₂ e') ∨
        (trace step (World.start I) actions).Pairwise (fun e e' => Writes g₂ e → ¬ Writes g₁ e')) ∧
      ∀ g : Guard, (trace step (World.start I) actions).Pairwise fun e e' => e.before.granted g →
        (e.act = .revoke g.lease ∨ ∃ token lease, e.out = some (.acquire g.inst token lease)) → ¬ Writes g e' := by
  have htokens : ∀ e ∈ trace step (World.start I) actions, TokensDistinct e.before := fun e he =>
    ((along_inv TokensDistinct FreshToken tokensDistinct_start hfresh fun _ a => tokensDistinct_step a).2 e he).1
  have hlive : ∀ e ∈ trace step (World.start I) actions, ∀ g, Writes g e →
      e.before.granted g ∧ g.Live e.before.rows := fun e he g =>
    live_of_writes (leaseInv_of_mem he) (step_of_mem_trace step he).1
  -- while another guard writes, a guard of the instance is lost
  have hother : ∀ g₁ g₂ : Guard, g₁ ≠ g₂ → g₁.inst = g₂.inst → (trace step (World.start I) actions).Pairwise
      fun e e' => Writes g₂ e → e.before.granted g₁ → ¬ Writes g₁ e' := by
    intro g₁ g₂ hne hinst
    refine (lost_pairwise g₁ actions).imp_of_mem fun {e e'} he he' hlost hw₂ hg₁ hw₁ => ?_
    have hs := (step_of_mem_trace step he).1
    have hinv := leaseInv_of_mem he
    obtain ⟨hg₂, d, hd, -, htoken⟩ := hlive e he g₂ hw₂
    have hlost₁ : ¬ g₁.Live e.before.rows := by
      rintro ⟨d', hd', -, htoken'⟩
      obtain rfl := Option.some.inj ((hinst ▸ hd').symm.trans hd)
      exact hne (guard_eq_of_token hinv (htokens e he) hg₁ hg₂ (htoken'.symm.trans htoken))
    have hafter := lost_stays_lost hinv hg₁ hlost₁ e.act
    have hgafter := granted_step hg₁ e.act
    rw [hs] at hafter hgafter
    exact (hlost hgafter hafter).2 (hlive e' he' g₁ hw₁).2
  refine ⟨fun g₁ g₂ hne hinst => ?_, fun g => ?_⟩
  · refine pairwise_of_no_return ?_ (granted_pairwise g₁ actions) (hother g₁ g₂ hne hinst)
      (granted_pairwise g₂ actions) (hother g₂ g₁ hne.symm hinst.symm)
    rintro e - ⟨_, _, _, _, h₁⟩ ⟨_, _, _, _, h₂⟩
    exact hne (Request.fenced.inj (Option.some.inj (h₁.symm.trans h₂))).1
  · refine (lost_pairwise g actions).imp_of_mem fun {e e'} he he' hlost hg hgone hw => ?_
    have hs := (step_of_mem_trace step he).1
    have hgafter := granted_step hg e.act
    rw [hs] at hgafter
    rw [← show (step e.before e.act).2 = e.out from congrArg Prod.snd hs] at hgone
    have hafter := lost_of_revoke_or_acquire (leaseInv_of_mem he) (htokens e he) hg hgone
    rw [hs] at hafter
    exact (hlost hgafter hafter).2 (hlive e' he' g hw).2

/-- One driver writes, its lease ends while a second write is on its way, and another driver takes over and writes; then
the second write of the first arrives. -/
def handover : List (Action ℕ) :=
  let g₁ : Guard := ⟨"order", "t1", 1, 7⟩
  let g₂ : Guard := ⟨"order", "t2", 4, 8⟩
  [.start (.acquire "order" "t1" 7), .deliver 0 true, .read 0, .start (.fencedCommit g₁ 10 [] 0), .deliver 1 true,
    .start (.fencedCommit g₁ 11 [] 2), .revoke 7, .start (.acquire "order" "t2" 8), .deliver 3 true, .read 3,
    .start (.fencedCommit g₂ 12 [] 2), .deliver 4 true, .deliver 2 true]

/-- In the handover both drivers write once, and the late write has no effect. -/
theorem fenced_writes_ordered_handover :
    Along step FreshToken (World.start ℕ) handover ∧
    (exec step (World.start ℕ) handover).history = [.acquire "order" "t1" 7, .fenced ⟨"order", "t1", 1, 7⟩ 10 [] none 0,
      .acquire "order" "t2" 8, .fenced ⟨"order", "t2", 4, 8⟩ 12 [] none 2] ∧
    ((trace step (World.start ℕ) handover).Pairwise
        (fun e e' => Writes ⟨"order", "t1", 1, 7⟩ e → ¬ Writes ⟨"order", "t2", 4, 8⟩ e') ∨
      (trace step (World.start ℕ) handover).Pairwise
        (fun e e' => Writes ⟨"order", "t2", 4, 8⟩ e → ¬ Writes ⟨"order", "t1", 1, 7⟩ e')) :=
  have hfresh : Along step FreshToken (World.start ℕ) handover := by decide +kernel
  ⟨hfresh, by decide +kernel,
    (fenced_writes_ordered handover hfresh).1 ⟨"order", "t1", 1, 7⟩ ⟨"order", "t2", 4, 8⟩ (by decide) rfl⟩

end Coord.Workflow
