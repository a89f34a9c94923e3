import Coord.Auth.Bootstrap

/-!
# One credential per bootstrap token

* `FreshTokens` — a token that is issued is new;
* `CaughtUp` — a node admits a token only when it has applied the whole log and no other node is at it;
* `LogInv` — the log against the proposals, and the tokens of views and calls against the log;
* `TokenInv` — the calls of a token, the nodes they wait on, and the nodes that would admit it again;
* `one_credential_per_token` — then a token gives one credential;
* `token_gives_two_credentials` — runs in which a new leader has not applied the command of the old one.
-/

namespace Coord.Auth.Bootstrap

open Coord.Lib Function List

/-! ### The log -/

/-- The commands do not issue one id or one hash both. -/
def AuthOp.Apart (op op' : AuthOp) : Prop := ∀ x ∈ op.issues, ∀ y ∈ op'.issues, x.1 ≠ y.1 ∧ x.2 ≠ y.2

/-- A token that is issued, a random id and a random secret, is not an earlier one. -/
def FreshTokens (c : Cluster) : Action → Prop
  | .issue id hash _ => ∀ x ∈ c.proposals, ∀ y ∈ x.1.issues, y.1 ≠ id ∧ y.2 ≠ hash
  | _ => True

instance (c : Cluster) (a : Action) : Decidable (FreshTokens c a) := by
  cases a <;> (unfold FreshTokens; infer_instance)

/-- The log against the proposals, and the tokens of views and calls against the log. -/
structure LogInv (c : Cluster) : Prop where
  bound : ∀ n, (c.nodes n).applied ≤ c.log.length
  apart : (c.proposals.map Prod.fst).Pairwise AuthOp.Apart
  committed : ∀ (p : ℕ) (op : AuthOp) (j : ℕ), c.proposals[p]? = some (op, some j) → c.log[j]? = some op
  proposed : ∀ op ∈ c.log, ∃ j, (op, some j) ∈ c.proposals
  known : ∀ x ∈ c.proposals, ∀ id, x.1.consumes = some id → ∃ hash, Issued c.log id hash
  logApart : c.log.Pairwise AuthOp.Apart
  order : InOrder c.log
  views : ∀ n id r, (c.nodes n).view id = some r → Issued (c.log.take (c.nodes n).applied) id r.hash
  calls : ∀ call ∈ c.calls, Issued c.log call.id call.hash

lemma logInv_start : LogInv Cluster.start where
  bound := fun _ => le_rfl
  apart := .nil
  committed := fun _ _ _ h => by cases h
  proposed := fun _ h => by cases h
  known := fun _ h => by cases h
  logApart := .nil
  order := .nil
  views := fun _ _ _ h => by cases h
  calls := fun _ h => by cases h

section

variable {c c' : Cluster} {a : Action}

instance : Std.Symm fun x y : AuthOp × Option ℕ => x.1.Apart y.1 :=
  ⟨fun _ _ h x hx y hy => ⟨(h y hy x hx).1.symm, (h y hy x hx).2.symm⟩⟩

variable {op : AuthOp} {n : ℕ} {log : List AuthOp}

lemma LogInv.apart_of_uncommitted (h : LogInv c) {p : ℕ} (hp : c.proposals[p]? = some (op, none)) :
    ∀ op' ∈ c.log, op'.Apart op := by
  intro op' hop'
  obtain ⟨j, hj⟩ := h.proposed op' hop'
  exact (pairwise_map.1 h.apart).forall hj (mem_of_getElem? hp) (by simp)

lemma logInv_commit (h : LogInv c) {p : ℕ} (hp : c.proposals[p]? = some (op, none)) :
    LogInv { c with log := c.log ++ [op], proposals := c.proposals.set p (op, some c.log.length) } := by
  have hlt := (List.getElem?_eq_some_iff.1 hp).1
  have hapart := h.apart_of_uncommitted hp
  have hsub : ∀ op' ∈ c.log, op' ∈ c.log ++ [op] := fun op' hop' => mem_append_left _ hop'
  -- the set of proposals stays as it is but for the place of this one
  have hfst : ∀ x ∈ c.proposals.set p (op, some c.log.length), ∃ y ∈ c.proposals, y.1 = x.1 := by
    intro x hx
    rcases mem_or_eq_of_mem_set hx with hx | rfl
    · exact ⟨x, hx, rfl⟩
    · exact ⟨_, mem_of_getElem? hp, rfl⟩
  refine ⟨fun n => ?_, ?_, fun q op' j hq => ?_, fun op' hop' => ?_, fun x hx id hid => ?_, ?_, ?_, fun n id r hr => ?_,
    fun call hcall => (h.calls call hcall).mono hsub⟩
  · rw [length_append]
    exact (h.bound n).trans (Nat.le_add_right _ _)
  · have hmap : (c.proposals.set p (op, some c.log.length)).map Prod.fst = c.proposals.map Prod.fst := by
      refine ext_getElem? fun q => ?_
      rw [getElem?_map, getElem?_map]
      by_cases hpq : p = q
      · subst hpq
        rw [getElem?_set_self hlt, hp]
        rfl
      · rw [getElem?_set_ne hpq]
    rw [hmap]
    exact h.apart
  · rcases getElem?_set_cases hq with ⟨-, hop⟩ | ⟨-, hq⟩
    · cases hop
      simp
    · have hj := h.committed q op' j hq
      rwa [getElem?_append_left (List.getElem?_eq_some_iff.1 hj).1]
  · rcases mem_append_one.1 hop' with hop' | rfl
    · obtain ⟨j, hj⟩ := h.proposed op' hop'
      obtain ⟨q, hq⟩ := mem_iff_getElem?.1 hj
      have hpq : p ≠ q := by
        rintro rfl
        cases hp.symm.trans hq
      exact ⟨j, mem_iff_getElem?.2 ⟨q, by rw [getElem?_set_ne hpq, hq]⟩⟩
    · exact ⟨c.log.length, mem_set hlt _⟩
  · obtain ⟨y, hy, hyx⟩ := hfst x hx
    obtain ⟨hash, hi⟩ := h.known y hy id (hyx ▸ hid)
    exact ⟨hash, hi.mono hsub⟩
  · exact pairwise_append_one h.logApart hapart
  · refine pairwise_append_one h.order fun op' hop' id hid x hx heq => ?_
    -- what is consumed was issued, so it is not issued now
    obtain ⟨j, hj⟩ := h.proposed op' hop'
    obtain ⟨hash, op₀, hop₀, hi₀⟩ := h.known _ hj id hid
    exact (hapart op₀ hop₀ _ hi₀ x hx).1 heq.symm
  · rw [List.take_append_of_le_length (h.bound n)]
    exact h.views n id r hr

lemma logInv_propose (h : LogInv c) (op : AuthOp) (hapart : ∀ x ∈ c.proposals, x.1.Apart op)
    (hknown : ∀ id, op.consumes = some id → ∃ hash, Issued c.log id hash) :
    LogInv { c with proposals := c.proposals ++ [(op, none)] } := by
  refine ⟨h.bound, ?_, fun p op' j hp => ?_, fun op' hop' => ?_, fun x hx id hid => ?_, h.logApart, h.order, h.views,
    h.calls⟩
  · rw [map_append]
    refine pairwise_append_one h.apart fun op' hop' => ?_
    obtain ⟨x, hx, rfl⟩ := mem_map.1 hop'
    exact hapart x hx
  · rcases getElem?_append_one hp with hp | ⟨-, heq⟩
    · exact h.committed p op' j hp
    · cases heq
  · obtain ⟨j, hj⟩ := h.proposed op' hop'
    exact ⟨j, mem_append_left _ hj⟩
  · rcases mem_append_one.1 hx with hx | rfl
    · exact h.known x hx id hid
    · exact hknown id hid

lemma logInv_setNode (h : LogInv c) (n : ℕ) (node : Node) (hbound : node.applied ≤ c.log.length)
    (hview : ∀ id r, node.view id = some r → Issued (c.log.take node.applied) id r.hash) :
    LogInv { c with nodes := update c.nodes n node } := by
  refine ⟨fun m => ?_, h.apart, h.committed, h.proposed, h.known, h.logApart, h.order, fun m => ?_, h.calls⟩
  all_goals
    simp only [update_apply]
    split
  exacts [hbound, h.bound m, hview, h.views m]

lemma logInv_setView (h : LogInv c) (n : ℕ) (view : Tokens)
    (hview : ∀ id r, view id = some r → Issued (c.log.take (c.nodes n).applied) id r.hash) :
    LogInv (c.setView n view) :=
  logInv_setNode h n _ (h.bound n) hview

lemma logInv_calls (h : LogInv c) {calls : List Call} (hcalls : ∀ call ∈ calls, Issued c.log call.id call.hash) :
    LogInv { c with calls } :=
  ⟨h.bound, h.apart, h.committed, h.proposed, h.known, h.logApart, h.order, h.views, hcalls⟩

lemma Issued.of_take {id hash : String} (h : Issued (log.take n) id hash) : Issued log id hash :=
  h.mono fun _ => mem_of_mem_take

lemma take_succ_of_getElem? (h : log[n]? = some op) : log.take (n + 1) = log.take n ++ [op] := by
  rw [take_add_one, h]
  rfl

lemma logInv_step (h : LogInv c) (ha : FreshTokens c a) : LogInv (step c a).1 := by
  have hset : ∀ {i : ℕ} {call : Call} {phase : Phase}, c.calls[i]? = some call →
      ∀ call' ∈ c.calls.set i { call with phase }, Issued c.log call'.id call'.hash := by
    intro i call phase hc call' hcall'
    rcases mem_or_eq_of_mem_set hcall' with hcall' | rfl
    · exact h.calls call' hcall'
    · exact h.calls call (mem_of_getElem? hc)
  generalize hc' : (step c a).1 = c'
  have heff := step_effect c a
  rw [hc'] at heff
  cases heff with
  | stay => exact h
  | issue id hash expiresAt hact =>
    subst hact
    refine logInv_propose h _ (fun x hx y hy z hz => ?_) nofun
    cases hz
    exact ha x hx y hy
  | revoke id => exact logInv_propose h _ (fun x _ y _ z hz => by cases hz) nofun
  | accept n hash id now r hact hsome hr hhash hfree =>
    have hi := h.views n id r hr
    have hview := logInv_setView h n
      (update (c.nodes n).view id (some { r with consumedAt := some now })) fun id' r' hr' => by
        rw [update_apply] at hr'
        split at hr'
        · next heq =>
          cases hr'
          exact heq ▸ hi
        · exact h.views n id' r' hr'
    have hprop := logInv_propose hview (.consumeBootstrapToken id now) (fun x _ y _ z hz => by cases hz)
      fun id' hid' => ⟨r.hash, (Option.some.inj hid') ▸ hi.of_take⟩
    exact logInv_calls hprop (forall_mem_append_one h.calls (hhash ▸ hi.of_take))
  | commit p op hp => exact logInv_commit h hp
  | apply n op hop =>
    refine logInv_setNode h n _ (List.getElem?_eq_some_iff.1 hop).1 fun id r hr => ?_
    rw [take_succ_of_getElem? hop]
    rcases issues_or_of_applyAuthOpToView hr with hi | ⟨r', hr', hhash⟩
    · exact ⟨op, mem_append_right _ (mem_singleton_self _), hi⟩
    · exact hhash ▸ (h.views n id r' hr').mono fun op hop => mem_append_left _ hop
  | answer i call p op j hc hw hp hj => exact logInv_calls h (hset hc)
  | fail i call p hc hw =>
    have hview := logInv_setView h call.node
      (revertBootstrapTokenConsumption (c.nodes call.node).view call.id call.now) fun id' r' hr' => by
        obtain ⟨r, hr, hhash⟩ := revert_hash hr'
        exact hhash ▸ h.views call.node id' r hr
    exact logInv_calls hview (hset hc)
  | restart n =>
    refine logInv_calls (logInv_setView h n _ fun id r hr => issued_of_rowsOf hr) fun call hcall => ?_
    obtain ⟨call₀, hcall₀, rfl⟩ := mem_map.1 hcall
    have := h.calls call₀ hcall₀
    unfold Call.stop
    split
    · split <;> exact this
    · exact this
  | install n k hact hle hk =>
    refine logInv_setNode h n _ hk fun id r hr => ?_
    exact (h.views n id r hr).mono fun op hop => (take_subset_take_left _ hle) hop

end

/-! ### Calls -/

/-- The node admits the token when it has applied the whole log and no call for the token is under way on another node,
and a snapshot does not hide a consume command from a view. -/
def CaughtUp (c : Cluster) : Action → Prop
  | .bootstrap n hash id now => (consumeBootstrapTokenAtomic (c.nodes n).view hash id now).isSome →
    (c.nodes n).applied = c.log.length ∧ ∀ call ∈ c.calls, call.id = id → call.phase = .issued ∨ call.phase = .failed ∨
      call.node = n
  | .install n k => ∀ op ∈ (c.log.take k).drop (c.nodes n).applied, op.consumes = none
  | _ => True

instance (c : Cluster) (a : Action) : Decidable (CaughtUp c a) := by
  cases a <;> (unfold CaughtUp; infer_instance)

/-- The node has applied a consume command for the token and would still admit it. -/
def Cluster.Open (c : Cluster) (n : ℕ) (id : String) : Prop :=
  Consumed (c.log.take (c.nodes n).applied) id ∧ ¬ Blocked (c.nodes n).view id

def Cluster.Waiting (c : Cluster) (n : ℕ) (id : String) : Prop :=
  ∃ call ∈ c.calls, call.id = id ∧ call.node = n ∧ ∃ p, call.phase = .waiting p

/-- The calls of a token: the node of a waiting one is blocked, at most one waits or has issued its credential, after
which every node that knows of it is blocked, and at most one node is open. -/
structure TokenInv (c : Cluster) : Prop where
  proposal : ∀ call ∈ c.calls, ∀ p, call.phase = .waiting p →
    ∃ m, c.proposals[p]? = some (.consumeBootstrapToken call.id call.now, m)
  known : ∀ n id, c.Waiting n id → ∃ hash, Issued (c.log.take (c.nodes n).applied) id hash
  blocked : ∀ n id, c.Waiting n id → Blocked (c.nodes n).view id
  single : ∀ (i j : ℕ) (call call' : Call), c.calls[i]? = some call → c.calls[j]? = some call' → call.id = call'.id →
    call.phase ≠ .failed → call'.phase ≠ .failed → i = j
  consumed : ∀ call ∈ c.calls, call.phase = .issued → Consumed c.log call.id
  closed : ∀ call ∈ c.calls, call.phase = .issued → ∀ n, ¬ c.Open n call.id
  opened : ∀ n m id, c.Open n id → c.Open m id ∨ c.Waiting m id → n = m

lemma tokenInv_start : TokenInv Cluster.start where
  proposal := fun _ h => by cases h
  known := fun _ _ ⟨_, h, _⟩ => by cases h
  blocked := fun _ _ ⟨_, h, _⟩ => by cases h
  single := fun _ _ _ _ h => by cases h
  consumed := fun _ h => by cases h
  closed := fun _ h => by cases h
  opened := fun _ _ _ h => by
    obtain ⟨op, hop, -⟩ := h.1
    simp [Cluster.start] at hop

section

variable {c c' : Cluster} {a : Action}

lemma TokenInv.of_calls_eq (h : TokenInv c) (hcalls : c'.calls = c.calls)
    (hprop : ∀ (p : ℕ) (op : AuthOp) (m : Option ℕ), c.proposals[p]? = some (op, m) → ∃ m',
      c'.proposals[p]? = some (op, m'))
    (hlog : ∀ op ∈ c.log, op ∈ c'.log) (hknown : ∀ n id hash, Issued (c.log.take (c.nodes n).applied) id hash →
      Issued (c'.log.take (c'.nodes n).applied) id hash)
    (hblocked : ∀ n id hash, Issued (c.log.take (c.nodes n).applied) id hash → Blocked (c.nodes n).view id →
      Blocked (c'.nodes n).view id) (hopen : ∀ n id, c'.Open n id → c.Open n id) : TokenInv c' := by
  have hwait : ∀ {n id}, c'.Waiting n id → c.Waiting n id := by
    rintro n id ⟨call, hcall, hrest⟩
    exact ⟨call, hcalls ▸ hcall, hrest⟩
  refine ⟨fun call hcall p hp => ?_, fun n id hw => ?_, fun n id hw => ?_, ?_, fun call hcall hi => ?_,
    fun call hcall hi n ho => ?_, fun n m id hn hm => ?_⟩
  · obtain ⟨m, hm⟩ := h.proposal call (hcalls ▸ hcall) p hp
    exact hprop p _ m hm
  · obtain ⟨hash, hi⟩ := h.known n id (hwait hw)
    exact ⟨hash, hknown n id hash hi⟩
  · obtain ⟨hash, hi⟩ := h.known n id (hwait hw)
    exact hblocked n id hash hi (h.blocked n id (hwait hw))
  · rw [hcalls]
    exact h.single
  · exact (h.consumed call (hcalls ▸ hcall) hi).mono hlog
  · exact h.closed call (hcalls ▸ hcall) hi n (hopen n _ ho)
  · exact h.opened n m id (hopen n id hn) (hm.imp (hopen m id) hwait)

variable {n p i : ℕ} {id : String} {op : AuthOp} {calls : List Call} {call : Call}

lemma Consumed.of_take {log : List AuthOp} (h : Consumed (log.take n) id) : Consumed log id :=
  h.mono fun _ => mem_of_mem_take

/-- A command that a node applies does not issue a token again that was issued or consumed before it. -/
lemma LogInv.issues_ne (h : LogInv c) {k : ℕ} (hop : c.log[k]? = some op)
    (hid : Consumed (c.log.take k) id ∨ ∃ hash, Issued (c.log.take k) id hash) (hash : String) :
    op.issues ≠ some (id, hash) := by
  intro hi
  have hmem : ∀ {op'}, op' ∈ c.log.take k → ∃ i, i < k ∧ c.log[i]? = some op' := by
    intro op' hop'
    obtain ⟨i, hi⟩ := mem_iff_getElem?.1 hop'
    rw [getElem?_take] at hi
    split at hi
    · next hlt => exact ⟨i, hlt, hi⟩
    · cases hi
  obtain ⟨hk, rfl⟩ := List.getElem?_eq_some_iff.1 hop
  rcases hid with ⟨op', hop', hc⟩ | ⟨hash', op', hop', hi'⟩
  · obtain ⟨i, hlt, hget⟩ := hmem hop'
    obtain ⟨hilt, rfl⟩ := List.getElem?_eq_some_iff.1 hget
    exact pairwise_iff_getElem.1 h.order i k hilt hk hlt id hc _ hi rfl
  · obtain ⟨i, hlt, hget⟩ := hmem hop'
    obtain ⟨hilt, rfl⟩ := List.getElem?_eq_some_iff.1 hget
    exact (pairwise_iff_getElem.1 h.logApart i k hilt hk hlt _ hi' _ hi).1 rfl

lemma tokenInv_propose (h : TokenInv c) (op : AuthOp) :
    TokenInv { c with proposals := c.proposals ++ [(op, none)] } := by
  refine h.of_calls_eq rfl (fun p op' m hp => ⟨m, ?_⟩) (fun _ h => h) (fun _ _ _ h => h) (fun _ _ _ _ h => h)
    fun _ _ h => h
  exact getElem?_append_some hp _

lemma tokenInv_commit (hl : LogInv c) (h : TokenInv c) (hp : c.proposals[p]? = some (op, none)) :
    TokenInv { c with log := c.log ++ [op], proposals := c.proposals.set p (op, some c.log.length) } := by
  have htake : ∀ n, (c.log ++ [op]).take (c.nodes n).applied = c.log.take (c.nodes n).applied :=
    fun n => List.take_append_of_le_length (hl.bound n)
  refine h.of_calls_eq rfl (fun q op' m hq => ?_) (fun op' hop' => mem_append_left _ hop') (fun n id hash hi => ?_)
    (fun _ _ _ _ hb => hb) fun n id ho => ?_
  · rcases getElem?_set_or hp hq with ⟨-, hop, hset⟩ | hset
    · cases hop
      exact ⟨_, hset _⟩
    · exact ⟨m, hset _⟩
  · simp only [htake]
    exact hi
  · simp only [Cluster.Open, htake] at ho
    exact ho

lemma TokenInv.setNode (h : TokenInv c) (node : Node)
    (hknown : ∀ id hash, Issued (c.log.take (c.nodes n).applied) id hash → Issued (c.log.take node.applied) id hash)
    (hblocked : ∀ id hash, Issued (c.log.take (c.nodes n).applied) id hash → Blocked (c.nodes n).view id →
      Blocked node.view id)
    (hopen : ∀ id, Consumed (c.log.take node.applied) id → ¬ Blocked node.view id → c.Open n id) :
    TokenInv { c with nodes := update c.nodes n node } := by
  refine h.of_calls_eq rfl (fun p op m hp => ⟨m, hp⟩) (fun _ h => h) (fun m => ?_) (fun m => ?_) fun m => ?_
  all_goals
    simp only [Cluster.Open, update_apply]
    split
  · next heq => exact heq ▸ hknown
  · exact fun _ _ hi => hi
  · next heq => exact heq ▸ hblocked
  · exact fun _ _ _ hb => hb
  · next heq => exact heq ▸ fun id ho => hopen id ho.1 ho.2
  · exact fun _ ho => ho

lemma tokenInv_apply (hl : LogInv c) (h : TokenInv c) (hop : c.log[(c.nodes n).applied]? = some op) :
    TokenInv { c with
      nodes := update c.nodes n ⟨applyAuthOpToView (c.nodes n).view op, (c.nodes n).applied + 1⟩ } := by
  have hblocked : ∀ {id}, Consumed (c.log.take (c.nodes n).applied) id ∨
      (∃ hash, Issued (c.log.take (c.nodes n).applied) id hash) → Blocked (c.nodes n).view id →
      Blocked (applyAuthOpToView (c.nodes n).view op) id := fun hid hb =>
    blocked_applyAuthOpToView hb (hl.issues_ne hop hid)
  refine h.setNode _ (fun id hash hi => ?_) (fun id hash hi hb => hblocked (.inr ⟨hash, hi⟩) hb) fun id hc hnb => ?_
  · rw [take_succ_of_getElem? hop]
    exact hi.mono fun op hop => mem_append_left _ hop
  · -- had the entry consumed the token, the view would be blocked now
    rw [take_succ_of_getElem? hop] at hc
    obtain ⟨op', hop', hcons⟩ := hc
    rcases mem_append_one.1 hop' with hop' | rfl
    · exact ⟨⟨op', hop', hcons⟩, fun hb => hnb (hblocked (.inl ⟨op', hop', hcons⟩) hb)⟩
    · exact absurd (blocked_of_consumes hcons _) hnb

lemma tokenInv_install (h : TokenInv c) {k : ℕ} (hle : (c.nodes n).applied ≤ k)
    (hnone : ∀ op ∈ (c.log.take k).drop (c.nodes n).applied, op.consumes = none) :
    TokenInv { c with nodes := update c.nodes n { c.nodes n with applied := k } } := by
  refine h.setNode _ (fun id hash hi => ?_) (fun id hash hi hb => hb) fun id ⟨op, hop, hcons⟩ hnb => ?_
  · exact hi.mono fun op hop => (take_subset_take_left _ hle) hop
  · refine ⟨⟨op, ?_, hcons⟩, hnb⟩
    rw [← take_append_drop (c.nodes n).applied (c.log.take k), take_take, min_eq_left hle] at hop
    rcases mem_append.1 hop with hop | hop
    · exact hop
    · cases hcons.symm.trans (hnone op hop)

lemma TokenInv.single_of (h : TokenInv c) (hget : ∀ (j : ℕ) (x : Call), calls[j]? = some x → x.phase ≠ .failed →
      ∃ y, c.calls[j]? = some y ∧ y.id = x.id ∧ y.phase ≠ .failed) (i j : ℕ) (x x' : Call) (hi : calls[i]? = some x)
    (hj : calls[j]? = some x') (hid : x.id = x'.id) (hx : x.phase ≠ .failed) (hx' : x'.phase ≠ .failed) : i = j := by
  obtain ⟨y, hy, hyid, hyp⟩ := hget i x hi hx
  obtain ⟨y', hy', hyid', hyp'⟩ := hget j x' hj hx'
  exact h.single i j y y' hy hy' (by rw [hyid, hyid', hid]) hyp hyp'

lemma mem_set_phase {phase : Phase} {x : Call} (hx : x ∈ calls.set i { call with phase }) :
    x = { call with phase } ∨ ∃ j, j ≠ i ∧ calls[j]? = some x := by
  obtain ⟨j, hj⟩ := mem_iff_getElem?.1 hx
  exact (getElem?_set_cases hj).imp And.right fun h => ⟨j, h⟩

lemma tokenInv_answer (hl : LogInv c) (h : TokenInv c) {j : ℕ}
    (hc : c.calls[i]? = some call) (hw : call.phase = .waiting p) (hp : c.proposals[p]? = some (op, some j)) :
    TokenInv { c with calls := c.calls.set i { call with phase := .issued } } := by
  have hmem := mem_of_getElem? hc
  have hwaiting : c.Waiting call.node call.id := ⟨call, hmem, rfl, rfl, p, hw⟩
  have hwait : ∀ {n id}, ({ c with calls := c.calls.set i { call with phase := .issued } } : Cluster).Waiting n id →
      c.Waiting n id := by
    rintro n id ⟨x, hx, hid, hn, q, hq⟩
    rcases mem_set_phase hx with rfl | ⟨k, -, hk⟩
    · cases hq
    · exact ⟨x, mem_of_getElem? hk, hid, hn, q, hq⟩
  refine ⟨fun x hx q hq => ?_, fun n id hx => h.known n id (hwait hx), fun n id hx => h.blocked n id (hwait hx),
    h.single_of fun k x hx hlive => ?_, fun x hx hi => ?_, fun x hx hi n ho => ?_,
    fun n m id hn hm => h.opened n m id hn (hm.imp_right hwait)⟩
  · rcases mem_set_phase hx with rfl | ⟨k, -, hk⟩
    · cases hq
    · exact h.proposal x (mem_of_getElem? hk) q hq
  · rcases getElem?_set_cases hx with ⟨rfl, rfl⟩ | ⟨-, hk⟩
    · exact ⟨call, hc, rfl, by rw [hw]; nofun⟩
    · exact ⟨x, hk, rfl, hlive⟩
  · rcases mem_set_phase hx with rfl | ⟨k, -, hk⟩
    · -- its own entry is in the log
      obtain ⟨m, hm⟩ := h.proposal call hmem p hw
      obtain ⟨rfl, -⟩ := Prod.mk.inj (Option.some.inj (hp.symm.trans hm))
      exact ⟨_, mem_of_getElem? (hl.committed p _ j hp), rfl⟩
    · exact h.consumed x (mem_of_getElem? hk) hi
  · rcases mem_set_phase hx with rfl | ⟨k, -, hk⟩
    · -- an open node would be the node of the call, which is blocked
      obtain rfl := h.opened n call.node call.id ho (.inr hwaiting)
      exact ho.2 (h.blocked _ _ hwaiting)
    · exact h.closed x (mem_of_getElem? hk) hi n ho

lemma tokenInv_fail (h : TokenInv c) (hc : c.calls[i]? = some call) (hw : call.phase = .waiting p) :
    TokenInv { c.setView call.node (revertBootstrapTokenConsumption (c.nodes call.node).view call.id call.now) with
      calls := c.calls.set i { call with phase := .failed } } := by
  have hwaiting : c.Waiting call.node call.id := ⟨call, mem_of_getElem? hc, rfl, rfl, p, hw⟩
  have hlive : call.phase ≠ .failed := by rw [hw]; nofun
  -- the other calls that wait or have issued a credential are for other tokens
  have hother : ∀ {j x}, j ≠ i → c.calls[j]? = some x → x.phase ≠ .failed → x.id ≠ call.id := by
    intro j x hne hj hx hid
    exact hne (h.single j i x call hj hc hid hx hlive)
  set c' : Cluster := { c.setView call.node (revertBootstrapTokenConsumption (c.nodes call.node).view call.id call.now)
    with
    calls := c.calls.set i { call with phase := .failed } }
  have happlied : ∀ m, (c'.nodes m).applied = (c.nodes m).applied := c.setView_applied call.node _
  have hview : ∀ m id, ¬ (m = call.node ∧ id = call.id) → (c'.nodes m).view id = (c.nodes m).view id := by
    intro m id hne
    rw [show (c'.nodes m).view = _ from c.setView_view call.node _ m]
    split
    · next hm =>
      subst hm
      exact revert_of_ne (fun hid => hne ⟨rfl, hid⟩) _
    · rfl
  have hblocked : ∀ {m id}, ¬ (m = call.node ∧ id = call.id) →
      (Blocked (c'.nodes m).view id ↔ Blocked (c.nodes m).view id) := by
    intro m id hne
    unfold Blocked
    rw [hview m id hne]
  have hopen : ∀ {m id}, ¬ (m = call.node ∧ id = call.id) → c'.Open m id → c.Open m id := by
    rintro m id hne ⟨hcons, hnb⟩
    rw [happlied] at hcons
    exact ⟨hcons, fun hb => hnb ((hblocked hne).2 hb)⟩
  have hwait : ∀ {n id}, c'.Waiting n id → c.Waiting n id ∧ id ≠ call.id := by
    rintro n id ⟨x, hx, hid, hn, q, hq⟩
    rcases mem_set_phase hx with rfl | ⟨k, hne, hk⟩
    · cases hq
    · exact ⟨⟨x, mem_of_getElem? hk, hid, hn, q, hq⟩, hid ▸ hother hne hk (by rw [hq]; nofun)⟩
  refine ⟨fun x hx q hq => ?_, fun n id hx => ?_, fun n id hx => ?_, h.single_of fun k x hx hlive => ?_,
    fun x hx hi => ?_, fun x hx hi n ho => ?_, fun n m id hn hm => ?_⟩
  · rcases mem_set_phase hx with rfl | ⟨k, -, hk⟩
    · cases hq
    · exact h.proposal x (mem_of_getElem? hk) q hq
  · rw [happlied]
    exact h.known n id (hwait hx).1
  · exact (hblocked fun hb => (hwait hx).2 hb.2).2 (h.blocked n id (hwait hx).1)
  · rcases getElem?_set_cases hx with ⟨-, rfl⟩ | ⟨-, hk⟩
    · exact absurd rfl hlive
    · exact ⟨x, hk, rfl, hlive⟩
  · rcases mem_set_phase hx with rfl | ⟨k, -, hk⟩
    · cases hi
    · exact h.consumed x (mem_of_getElem? hk) hi
  · rcases mem_set_phase hx with rfl | ⟨k, hne, hk⟩
    · cases hi
    · exact h.closed x (mem_of_getElem? hk) hi n
        (hopen (fun hb => hother hne hk (by rw [hi]; nofun) hb.2) ho)
  · by_cases hid : id = call.id
    · -- only the node of the call can have become open
      subst hid
      have hnode : ∀ {k}, c'.Open k call.id → k = call.node := by
        intro k hk
        by_contra hne
        exact hne (h.opened k call.node call.id (hopen (fun hb => hne hb.1) hk) (.inr hwaiting))
      rcases hm with hm | hm
      · rw [hnode hn, hnode hm]
      · exact absurd rfl (hwait hm).2
    · have hne : ∀ k, ¬ (k = call.node ∧ id = call.id) := fun k hb => hid hb.2
      exact h.opened n m id (hopen (hne n) hn) (hm.imp (hopen (hne m)) fun hw => (hwait hw).1)

lemma tokenInv_restart (hl : LogInv c) (h : TokenInv c) (n : ℕ) :
    TokenInv { c.setView n (rowsOf (c.log.take (c.nodes n).applied)) with calls := c.calls.map (Call.stop n) } := by
  set c' : Cluster := { c.setView n (rowsOf (c.log.take (c.nodes n).applied)) with
    calls := c.calls.map (Call.stop n) }
  have happlied : ∀ m, (c'.nodes m).applied = (c.nodes m).applied := c.setView_applied n _
  have hview : ∀ m, (c'.nodes m).view = if m = n then rowsOf (c.log.take (c.nodes n).applied) else (c.nodes m).view :=
    c.setView_view n _
  -- a call that still waits or has issued its credential is as it was, and does not wait on this node
  have hget : ∀ {j : ℕ} {x : Call}, c'.calls[j]? = some x → x.phase ≠ .failed →
      c.calls[j]? = some x ∧ ∀ p, x.phase = .waiting p → x.node ≠ n := by
    intro j x hx hlive
    rw [getElem?_map] at hx
    obtain ⟨y, hy, rfl⟩ := Option.map_eq_some_iff.1 hx
    unfold Call.stop at hlive ⊢
    split at hlive
    · split at hlive
      · exact absurd rfl hlive
      · next q hq hne =>
        rw [if_neg hne]
        exact ⟨hy, fun p _ => hne⟩
    · next hno =>
      refine ⟨hy, fun p hp => absurd hp (hno p)⟩
  have hmem : ∀ {x : Call}, x ∈ c'.calls → x.phase ≠ .failed → x ∈ c.calls ∧ ∀ p, x.phase = .waiting p →
    x.node ≠ n := by
    intro x hx hlive
    obtain ⟨j, hj⟩ := mem_iff_getElem?.1 hx
    obtain ⟨hj, hrest⟩ := hget hj hlive
    exact ⟨mem_of_getElem? hj, hrest⟩
  have hwait : ∀ {m id}, c'.Waiting m id → c.Waiting m id ∧ m ≠ n := by
    rintro m id ⟨x, hx, hid, rfl, q, hq⟩
    obtain ⟨hx, hne⟩ := hmem hx (by rw [hq]; nofun)
    exact ⟨⟨x, hx, hid, rfl, q, hq⟩, hne q hq⟩
  have hopen : ∀ {m id}, c'.Open m id → c.Open m id := by
    rintro m id ⟨hcons, hnb⟩
    rw [happlied] at hcons
    rw [hview] at hnb
    split at hnb
    · next heq =>
      subst heq
      exact absurd (blocked_rowsOf (hl.order.sublist (take_sublist _ _)) hcons) hnb
    · exact ⟨hcons, hnb⟩
  refine ⟨fun x hx q hq => ?_, fun m id hx => ?_, fun m id hx => ?_, h.single_of fun k x hx hlive => ?_,
    fun x hx hi => ?_, fun x hx hi m ho => ?_, fun m k id hm hk => ?_⟩
  · exact h.proposal x (hmem hx (by rw [hq]; nofun)).1 q hq
  · rw [happlied]
    exact h.known m id (hwait hx).1
  · rw [hview, if_neg (hwait hx).2]
    exact h.blocked m id (hwait hx).1
  · exact ⟨x, (hget hx hlive).1, rfl, hlive⟩
  · exact h.consumed x (hmem hx (by rw [hi]; nofun)).1 hi
  · exact h.closed x (hmem hx (by rw [hi]; nofun)).1 hi m (hopen ho)
  · exact h.opened m k id (hopen hm) (hk.imp hopen fun hw => (hwait hw).1)

lemma tokenInv_admit (hl : LogInv c) (h : TokenInv c) {hash : String} {now : ℕ} {r : TokenRecord}
    (hr : (c.nodes n).view id = some r) (hfree : r.consumedAt = none) (happ : (c.nodes n).applied = c.log.length)
    (halone : ∀ call ∈ c.calls, call.id = id → call.phase = .issued ∨ call.phase = .failed ∨ call.node = n) :
    TokenInv { c.setView n (update (c.nodes n).view id (some { r with consumedAt := some now })) with
      proposals := c.proposals ++ [(.consumeBootstrapToken id now, none)]
      calls := c.calls ++ [⟨n, id, hash, now, .waiting c.proposals.length⟩] } := by
  have hnb : ¬ Blocked (c.nodes n).view id := fun hb => by
    have := hb r hr
    rw [hfree] at this
    cases this
  -- the node knows the whole log, so it is open if the token was consumed
  have hsee : Consumed c.log id → c.Open n id := fun hcons => ⟨by rwa [happ, take_length], hnb⟩
  have hfailed : ∀ call ∈ c.calls, call.id = id → call.phase = .failed := by
    intro call hcall hid
    cases hph : call.phase with
    | issued => exact absurd (hid ▸ hsee (hid ▸ h.consumed call hcall hph)) (h.closed call hcall hph n)
    | failed => rfl
    | waiting p =>
      rcases halone call hcall hid with hi | hf | hn
      · cases hph.symm.trans hi
      · cases hph.symm.trans hf
      · exact absurd (h.blocked n id ⟨call, hcall, hid, hn, p, hph⟩) hnb
  set c' : Cluster := { c.setView n (update (c.nodes n).view id (some { r with consumedAt := some now })) with
    proposals := c.proposals ++ [(.consumeBootstrapToken id now, none)]
    calls := c.calls ++ [⟨n, id, hash, now, .waiting c.proposals.length⟩] }
  have happlied : ∀ m, (c'.nodes m).applied = (c.nodes m).applied := c.setView_applied n _
  have hview : ∀ m, (c'.nodes m).view = if m = n then update (c.nodes n).view id
      (some { r with consumedAt := some now }) else (c.nodes m).view := c.setView_view n _
  have hmarked : Blocked (c'.nodes n).view id := by
    intro r' hr'
    rw [hview, if_pos rfl, update_self] at hr'
    cases hr'
    rfl
  have hblocked : ∀ {m id'}, Blocked (c.nodes m).view id' → Blocked (c'.nodes m).view id' := by
    intro m id' hb
    by_cases htok : m = n ∧ id' = id
    · obtain ⟨rfl, rfl⟩ := htok
      exact hmarked
    intro r' hr'
    rw [hview] at hr'
    split at hr'
    · next heq =>
      subst heq
      rw [update_of_ne fun hid => htok ⟨rfl, hid⟩] at hr'
      exact hb r' hr'
    · exact hb r' hr'
  have hopen : ∀ {m id'}, c'.Open m id' → c.Open m id' := by
    rintro m id' ⟨hcons, hnb'⟩
    rw [happlied] at hcons
    exact ⟨hcons, fun hb => hnb' (hblocked hb)⟩
  have hwait : ∀ {m id'}, c'.Waiting m id' → c.Waiting m id' ∨ m = n ∧ id' = id := by
    rintro m id' ⟨x, hx, hid, hm, q, hq⟩
    rcases mem_append_one.1 hx with hx | rfl
    · exact .inl ⟨x, hx, hid, hm, q, hq⟩
    · exact .inr ⟨hm.symm, hid.symm⟩
  refine ⟨fun x hx q hq => ?_, fun m id' hx => ?_, fun m id' hx => ?_, fun i j x x' hi hj hid hx hx' => ?_,
    fun x hx hi => ?_, fun x hx hi m ho => ?_, fun m k id' hm hk => ?_⟩
  · rcases mem_append_one.1 hx with hx | rfl
    · obtain ⟨m, hm⟩ := h.proposal x hx q hq
      exact ⟨m, getElem?_append_some hm _⟩
    · obtain rfl := Phase.waiting.inj hq
      exact ⟨none, getElem?_concat_length⟩
  · rw [happlied]
    rcases hwait hx with hx | ⟨rfl, rfl⟩
    · exact h.known m id' hx
    · exact ⟨r.hash, hl.views m id' r hr⟩
  · rcases hwait hx with hx | ⟨rfl, rfl⟩
    · exact hblocked (h.blocked m id' hx)
    · exact hmarked
  · -- the calls for this token that were there have failed
    have hold : ∀ {i : ℕ} {x : Call}, c'.calls[i]? = some x → x.phase ≠ .failed →
        (c.calls[i]? = some x ∧ x.id ≠ id) ∨ i = c.calls.length ∧ x.id = id := by
      intro i x hi hlive
      rcases getElem?_append_one hi with hi | ⟨rfl, rfl⟩
      · exact .inl ⟨hi, fun hid => hlive (hfailed x (mem_of_getElem? hi) hid)⟩
      · exact .inr ⟨rfl, rfl⟩
    rcases hold hi hx with ⟨hi, hne⟩ | ⟨rfl, hxid⟩
    · rcases hold hj hx' with ⟨hj, -⟩ | ⟨-, hxid'⟩
      · exact h.single i j x x' hi hj hid hx hx'
      · exact absurd (hid.trans hxid') hne
    · rcases hold hj hx' with ⟨-, hne⟩ | ⟨rfl, -⟩
      · exact absurd (hid.symm.trans hxid) hne
      · rfl
  · rcases mem_append_one.1 hx with hx | rfl
    · exact h.consumed x hx hi
    · cases hi
  · rcases mem_append_one.1 hx with hx | rfl
    · exact h.closed x hx hi m (hopen ho)
    · cases hi
  · rcases hk with hk | hk
    · exact h.opened m k id' (hopen hm) (.inl (hopen hk))
    · rcases hwait hk with hk | ⟨rfl, rfl⟩
      · exact h.opened m k id' (hopen hm) (.inr hk)
      · exact h.opened m k id' (hopen hm) (.inl (hsee (hopen hm).1.of_take))

lemma tokenInv_step (hl : LogInv c) (h : TokenInv c) (ha : CaughtUp c a) : TokenInv (step c a).1 := by
  generalize hc' : (step c a).1 = c'
  have heff := step_effect c a
  rw [hc'] at heff
  cases heff with
  | stay => exact h
  | issue id hash expiresAt hact => exact tokenInv_propose h _
  | revoke id => exact tokenInv_propose h _
  | accept n hash id now r hact hsome hr hhash hfree =>
    subst hact
    obtain ⟨happ, halone⟩ := ha hsome
    exact tokenInv_admit hl h hr hfree happ halone
  | commit p op hp => exact tokenInv_commit hl h hp
  | apply n op hop => exact tokenInv_apply hl h hop
  | answer i call p op j hc hw hp hj => exact tokenInv_answer hl h hc hw hp
  | fail i call p hc hw => exact tokenInv_fail h hc hw
  | restart n => exact tokenInv_restart hl h n
  | install n k hact hle hk =>
    subst hact
    exact tokenInv_install h hle ha

end

/-! ### Runs -/

/-- **A token gives one credential** in runs in which the nodes that admit it are caught up. -/
theorem one_credential_per_token (actions : List Action) (hfresh : Along step FreshTokens Cluster.start actions)
    (hcaught : Along step CaughtUp Cluster.start actions) :
    ∀ (i j : ℕ) (call call' : Call), (exec step Cluster.start actions).calls[i]? = some call →
      (exec step Cluster.start actions).calls[j]? = some call' → call.phase = .issued → call'.phase = .issued →
      call.hash = call'.hash → i = j := by
  obtain ⟨hl, ht⟩ := (along_inv (fun c => LogInv c ∧ TokenInv c) (fun c a => FreshTokens c a ∧ CaughtUp c a)
    ⟨logInv_start, tokenInv_start⟩ ((along_and FreshTokens CaughtUp).2 ⟨hfresh, hcaught⟩)
    fun c a ha h => ⟨logInv_step h.1 ha.1, tokenInv_step h.1 h.2 ha.2⟩).1
  intro i j call call' hi hj hissued hissued' hhash
  refine ht.single i j call call' hi hj ?_ (by rw [hissued]; nofun) (by rw [hissued']; nofun)
  -- one hash was issued under one id
  obtain ⟨op, hop, hid⟩ := hl.calls call (mem_of_getElem? hi)
  obtain ⟨op', hop', hid'⟩ := hl.calls call' (mem_of_getElem? hj)
  have : Std.Symm AuthOp.Apart := ⟨fun _ _ h x hx y hy => ⟨(h y hy x hx).1.symm, (h y hy x hx).2.symm⟩⟩
  by_cases heq : op = op'
  · subst heq
    exact (Prod.mk.inj (Option.some.inj (hid.symm.trans hid'))).1
  · exact absurd hhash (hl.logApart.forall hop hop' heq _ hid _ hid').2

/-- A call times out although its command is committed and applied; the agent tries again and gets its credential. -/
def timedOut : List Action :=
  [.issue "b1" "h" 100, .commit 0, .apply 0, .apply 1, .bootstrap 0 "h" "b1" 5, .commit 1, .apply 0, .fail 0,
    .bootstrap 0 "h" "b1" 7, .commit 2, .apply 0, .answer 1, .apply 1, .apply 1, .bootstrap 1 "h" "b1" 8,
    .bootstrap 0 "h" "b1" 8]

theorem one_credential_per_token_timedOut :
    Along step FreshTokens Cluster.start timedOut ∧ Along step CaughtUp Cluster.start timedOut ∧
    ((exec step Cluster.start timedOut).calls.map Call.phase) = [.failed, .issued] ∧
    ∀ (i j : ℕ) (call call' : Call), (exec step Cluster.start timedOut).calls[i]? = some call →
      (exec step Cluster.start timedOut).calls[j]? = some call' → call.phase = .issued → call'.phase = .issued →
      call.hash = call'.hash → i = j :=
  have hfresh : Along step FreshTokens Cluster.start timedOut := by decide +kernel
  have hcaught : Along step CaughtUp Cluster.start timedOut := by decide +kernel
  ⟨hfresh, hcaught, by decide +kernel, one_credential_per_token timedOut hfresh hcaught⟩

/-- A leader issues a credential; a new leader that has not applied the command yet admits the token again. -/
def leaderChange : List Action :=
  [.issue "b1" "h" 100, .commit 0, .apply 0, .apply 1, .bootstrap 0 "h" "b1" 5, .commit 1, .apply 0, .answer 0,
    .bootstrap 1 "h" "b1" 6, .commit 2, .apply 1, .apply 1, .answer 1]

/-- A node that got the command with a snapshot admits the token again. -/
def snapshotInstalled : List Action :=
  [.issue "b1" "h" 100, .commit 0, .apply 0, .apply 1, .bootstrap 0 "h" "b1" 5, .commit 1, .apply 0, .answer 0,
    .install 1 2, .bootstrap 1 "h" "b1" 6, .commit 2, .apply 1, .answer 1]

/-- **One token, two credentials.** -/
theorem token_gives_two_credentials :
    ((exec step Cluster.start leaderChange).calls.map fun call => (call.hash, call.phase)) =
        [("h", .issued), ("h", .issued)] ∧
      ((exec step Cluster.start snapshotInstalled).calls.map fun call => (call.hash, call.phase)) =
        [("h", .issued), ("h", .issued)] := by
  decide +kernel

end Coord.Auth.Bootstrap
