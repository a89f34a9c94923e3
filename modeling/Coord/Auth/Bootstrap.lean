import Coord.Lib.Lists
import Coord.Lib.Trace

/-!
# Bootstrap tokens

An agent exchanges a bootstrap token for a credential once. A node checks the token in its own view and marks it there,
proposes a consume command to the replicated log, and issues the credential when the command is applied; when the
proposal fails or times out it takes the mark back. The log's entries are applied by each node in order, and the command
may be committed after all. A restarted node loads its view from the rows of the entries it has applied.
-/

namespace Coord.Auth.Bootstrap

open Coord.Lib Function

/-! ### Tokens -/

structure TokenRecord where
  hash : String
  expiresAt : ℕ
  consumedAt : Option ℕ
  deriving DecidableEq

namespace TokenRecord

def isConsumed (r : TokenRecord) : Bool := r.consumedAt.isSome

def isExpired (r : TokenRecord) (now : ℕ) : Bool := decide (r.expiresAt ≤ now)

def isUsable (r : TokenRecord) (now : ℕ) : Bool := !r.isConsumed && !r.isExpired now

end TokenRecord

/-- The commands of the log that are about bootstrap tokens. -/
inductive AuthOp where
  | issueBootstrapToken (id hash : String) (expiresAt : ℕ)
  | consumeBootstrapToken (id : String) (consumedAt : ℕ)
  | revokeBootstrapToken (id : String)
  deriving DecidableEq

abbrev Tokens := String → Option TokenRecord

/-- The record of the id, if there is one, is changed. -/
def Tokens.modify (tokens : Tokens) (id : String) (f : TokenRecord → TokenRecord) : Tokens :=
  update tokens id ((tokens id).map f)

/-- The rows after a command: an id is issued once, and a consumed token stays as it is. -/
def applyAuthOp (rows : Tokens) : AuthOp → Tokens
  | .issueBootstrapToken id hash expiresAt =>
    update rows id ((rows id).or (some ⟨hash, expiresAt, none⟩))
  | .consumeBootstrapToken id consumedAt =>
    rows.modify id fun r => if r.consumedAt.isNone then { r with consumedAt := some consumedAt } else r
  | .revokeBootstrapToken id => update rows id none

def applyAuthOpToView (view : Tokens) : AuthOp → Tokens
  | .issueBootstrapToken id hash expiresAt => update view id (some ⟨hash, expiresAt, none⟩)
  | .consumeBootstrapToken id consumedAt => view.modify id fun r => { r with consumedAt := some consumedAt }
  | .revokeBootstrapToken id => update view id none

def rowsOf (log : List AuthOp) : Tokens := log.foldl applyAuthOp fun _ => none

/-- The check and the mark of a token under the view's lock; `id` is the usable record of the hash that is found. -/
def consumeBootstrapTokenAtomic (view : Tokens) (hash id : String) (now : ℕ) : Option Tokens :=
  match view id with
  | some r =>
    if r.hash = hash ∧ r.isUsable now then some (update view id (some { r with consumedAt := some now }))
    else none
  | none => none

/-- The mark is taken back if it is the one that was made. -/
def revertBootstrapTokenConsumption (view : Tokens) (id : String) (expected : ℕ) : Tokens :=
  view.modify id fun r => if r.consumedAt = some expected then { r with consumedAt := none } else r

/-! ### The cluster -/

structure Node where
  view : Tokens
  applied : ℕ

/-- A call waits for its proposal, has issued its credential, or has failed. -/
inductive Phase where
  | waiting (p : ℕ)
  | issued
  | failed
  deriving DecidableEq

structure Call where
  node : ℕ
  id : String
  hash : String
  now : ℕ
  phase : Phase
  deriving DecidableEq

/-- The nodes, the committed log, the proposals with their place in the log once they are committed, and the calls. -/
structure Cluster where
  nodes : ℕ → Node
  log : List AuthOp
  proposals : List (AuthOp × Option ℕ)
  calls : List Call

def Cluster.start : Cluster := ⟨fun _ => ⟨fun _ => none, 0⟩, [], [], []⟩

inductive Action where
  | issue (id hash : String) (expiresAt : ℕ)
  | revoke (id : String)
  /-- A call on the node `n` with a token of this hash, found under `id`. -/
  | bootstrap (n : ℕ) (hash id : String) (now : ℕ)
  /-- The proposal `p` is committed, under whichever leader. -/
  | commit (p : ℕ)
  | apply (n : ℕ)
  /-- The call `i` is answered that its command was applied. -/
  | answer (i : ℕ)
  /-- The proposal of the call `i` fails or times out. -/
  | fail (i : ℕ)
  | restart (n : ℕ)
  /-- The node takes over the first `k` entries as a snapshot. -/
  | install (n k : ℕ)
  deriving DecidableEq

def Call.stop (n : ℕ) (call : Call) : Call :=
  match call.phase with
  | .waiting _ => if call.node = n then { call with phase := .failed } else call
  | _ => call

/-- One step; the answer is the hash of the token that a credential is issued for. -/
def step (c : Cluster) : Action → Cluster × Option String
  | .issue id hash expiresAt =>
    ({ c with proposals := c.proposals ++ [(.issueBootstrapToken id hash expiresAt, none)] }, none)
  | .revoke id => ({ c with proposals := c.proposals ++ [(.revokeBootstrapToken id, none)] }, none)
  | .bootstrap n hash id now =>
    match consumeBootstrapTokenAtomic (c.nodes n).view hash id now with
    | none => (c, none)
    | some view =>
      ({ c with
        nodes := update c.nodes n { c.nodes n with view }
        proposals := c.proposals ++ [(.consumeBootstrapToken id now, none)]
        calls := c.calls ++ [⟨n, id, hash, now, .waiting c.proposals.length⟩] }, none)
  | .commit p =>
    match c.proposals[p]? with
    | some (op, none) =>
      ({ c with log := c.log ++ [op], proposals := c.proposals.set p (op, some c.log.length) }, none)
    | _ => (c, none)
  | .apply n =>
    match c.log[(c.nodes n).applied]? with
    | some op =>
      ({ c with
        nodes := update c.nodes n ⟨applyAuthOpToView (c.nodes n).view op, (c.nodes n).applied + 1⟩ }, none)
    | none => (c, none)
  | .answer i =>
    match c.calls[i]? with
    | some ⟨n, id, hash, now, .waiting p⟩ =>
      match c.proposals[p]? with
      | some (_, some j) =>
        -- the answer carries the entry's revision, not what it did
        if j < (c.nodes n).applied then ({ c with calls := c.calls.set i ⟨n, id, hash, now, .issued⟩ }, some hash)
        else (c, none)
      | _ => (c, none)
    | _ => (c, none)
  | .fail i =>
    match c.calls[i]? with
    | some ⟨n, id, hash, now, .waiting _⟩ =>
      ({ c with
        nodes := update c.nodes n
          { c.nodes n with view := revertBootstrapTokenConsumption (c.nodes n).view id now }
        calls := c.calls.set i ⟨n, id, hash, now, .failed⟩ }, none)
    | _ => (c, none)
  | .restart n =>
    ({ c with
      nodes := update c.nodes n { c.nodes n with view := rowsOf (c.log.take (c.nodes n).applied) }
      calls := c.calls.map (Call.stop n) }, none)
  | .install n k =>
    if (c.nodes n).applied ≤ k ∧ k ≤ c.log.length then
      ({ c with nodes := update c.nodes n { c.nodes n with applied := k } }, none)
    else (c, none)

/-! ### Rows, views and the local check -/

/-- The token that a command issues, by id and hash. -/
def AuthOp.issues : AuthOp → Option (String × String)
  | issueBootstrapToken id hash _ => some (id, hash)
  | _ => none

def AuthOp.consumes : AuthOp → Option String
  | consumeBootstrapToken id _ => some id
  | _ => none

def Issued (log : List AuthOp) (id hash : String) : Prop := ∃ op ∈ log, op.issues = some (id, hash)

def Consumed (log : List AuthOp) (id : String) : Prop := ∃ op ∈ log, op.consumes = some id

/-- The view does not admit the token at any time. -/
def Blocked (view : Tokens) (id : String) : Prop := ∀ r, view id = some r → r.consumedAt.isSome

section

variable {view view' rows : Tokens} {op : AuthOp} {id : String} {log : List AuthOp}

lemma Issued.mono {log' : List AuthOp} {hash : String} (h : Issued log id hash) (hsub : ∀ op ∈ log, op ∈ log') :
    Issued log' id hash := by
  obtain ⟨op, hop, hi⟩ := h
  exact ⟨op, hsub op hop, hi⟩

lemma Consumed.mono {log' : List AuthOp} (h : Consumed log id) (hsub : ∀ op ∈ log, op ∈ log') : Consumed log' id := by
  obtain ⟨op, hop, hi⟩ := h
  exact ⟨op, hsub op hop, hi⟩

variable {id' : String} {r : TokenRecord}

lemma Tokens.modify_eq_some {f : TokenRecord → TokenRecord} (h : view.modify id f id' = some r) :
    (id' = id ∧ ∃ r', view id' = some r' ∧ f r' = r) ∨ id' ≠ id ∧ view id' = some r := by
  rw [Tokens.modify, update_apply] at h
  split at h
  · next heq =>
    subst heq
    exact .inl ⟨rfl, Option.map_eq_some_iff.1 h⟩
  · next hne => exact .inr ⟨hne, h⟩

lemma blocked_of_consumes (h : op.consumes = some id) (view : Tokens) : Blocked (applyAuthOpToView view op) id := by
  cases op with
  | consumeBootstrapToken id' consumedAt =>
    obtain rfl : id' = id := by simpa [AuthOp.consumes] using h
    intro r hr
    rcases Tokens.modify_eq_some hr with ⟨-, r', -, rfl⟩ | ⟨hne, -⟩
    · rfl
    · exact absurd rfl hne
  | issueBootstrapToken id' hash expiresAt => cases h
  | revokeBootstrapToken id' => cases h

theorem blocked_applyAuthOpToView (hb : Blocked view id) (hop : ∀ hash, op.issues ≠ some (id, hash)) :
    Blocked (applyAuthOpToView view op) id := by
  intro r hr
  cases op with
  | issueBootstrapToken id' hash expiresAt =>
    rw [applyAuthOpToView, update_of_ne fun heq => hop hash (by rw [heq]; rfl)] at hr
    exact hb r hr
  | consumeBootstrapToken id' consumedAt =>
    rcases Tokens.modify_eq_some hr with ⟨-, r', -, rfl⟩ | ⟨-, hr⟩
    · rfl
    · exact hb r hr
  | revokeBootstrapToken id' =>
    rw [applyAuthOpToView, update_apply] at hr
    split at hr
    · cases hr
    · exact hb r hr

lemma issues_or_of_applyAuthOpToView (h : applyAuthOpToView view op id = some r) :
    op.issues = some (id, r.hash) ∨ ∃ r', view id = some r' ∧ r'.hash = r.hash := by
  cases op with
  | issueBootstrapToken id' hash expiresAt =>
    rw [applyAuthOpToView, update_apply] at h
    split at h
    · next heq =>
      cases h
      exact .inl (by rw [heq]; rfl)
    · exact .inr ⟨r, h, rfl⟩
  | consumeBootstrapToken id' consumedAt =>
    rcases Tokens.modify_eq_some h with ⟨-, r', hr', rfl⟩ | ⟨-, hr⟩
    · exact .inr ⟨r', hr', rfl⟩
    · exact .inr ⟨r, hr, rfl⟩
  | revokeBootstrapToken id' =>
    rw [applyAuthOpToView, update_apply] at h
    split at h
    · cases h
    · exact .inr ⟨r, h, rfl⟩

lemma rowsOf_append (log : List AuthOp) (op : AuthOp) : rowsOf (log ++ [op]) = applyAuthOp (rowsOf log) op := by
  simp [rowsOf]

/-- What the rows have after a command: what they had, with the mark perhaps, or the token that the command issues. -/
lemma applyAuthOp_eq_some (h : applyAuthOp rows op id = some r) : op.issues = some (id, r.hash) ∨
      ∃ r', rows id = some r' ∧ r'.hash = r.hash ∧ (r'.consumedAt.isSome → r.consumedAt.isSome) ∧
        (op.consumes = some id → r.consumedAt.isSome) := by
  cases op with
  | issueBootstrapToken id' hash expiresAt =>
    rw [applyAuthOp, update_apply] at h
    split at h
    · next heq =>
      subst heq
      cases hrow : rows id with
      | some r' =>
        rw [hrow] at h
        obtain rfl := Option.some.inj h
        exact .inr ⟨r', rfl, rfl, fun hs => hs, nofun⟩
      | none =>
        rw [hrow] at h
        cases h
        exact .inl rfl
    · exact .inr ⟨r, h, rfl, fun hs => hs, nofun⟩
  | consumeBootstrapToken id' consumedAt =>
    rcases Tokens.modify_eq_some h with ⟨-, r', hr', rfl⟩ | ⟨hne, hr⟩
    · cases hmark : r'.consumedAt with
      | none => exact .inr ⟨r', hr', rfl, fun _ => rfl, fun _ => rfl⟩
      | some t =>
        have hsome : r'.consumedAt.isSome = true := by rw [hmark]; rfl
        exact .inr ⟨r', hr', rfl, fun _ => hsome, fun _ => hsome⟩
    · exact .inr ⟨r, hr, rfl, fun hs => hs, fun heq => absurd (Option.some.inj heq).symm hne⟩
  | revokeBootstrapToken id' =>
    rw [applyAuthOp, update_apply] at h
    split at h
    · cases h
    · exact .inr ⟨r, h, rfl, fun hs => hs, nofun⟩

lemma issued_of_rowsOf (h : rowsOf log id = some r) : Issued log id r.hash := by
  induction log using List.reverseRecOn generalizing r with
  | nil => cases h
  | append_singleton log op ih =>
    rw [rowsOf_append] at h
    rcases applyAuthOp_eq_some h with hi | ⟨r', hr', hhash, -⟩
    · exact ⟨op, List.mem_append_right _ (List.mem_singleton_self _), hi⟩
    · exact hhash ▸ (ih hr').mono fun op hop => List.mem_append_left _ hop

def InOrder (log : List AuthOp) : Prop :=
  log.Pairwise fun op op' => ∀ id ∈ op.consumes, ∀ x ∈ op'.issues, x.1 ≠ id

/-- The rows of a log in which a token was consumed do not admit it. -/
theorem blocked_rowsOf (ho : InOrder log) (hc : Consumed log id) : Blocked (rowsOf log) id := by
  induction log using List.reverseRecOn with
  | nil =>
    obtain ⟨op, hop, -⟩ := hc
    cases hop
  | append_singleton log op ih =>
    obtain ⟨ho', -, hlast⟩ := List.pairwise_append.1 ho
    rw [rowsOf_append]
    obtain ⟨op', hop', hcons⟩ := hc
    intro r hr
    rcases mem_append_one.1 hop' with hop' | rfl
    · rcases applyAuthOp_eq_some hr with hi | ⟨r', hr', -, hkeep, -⟩
      · -- the last command does not issue the token again
        exact absurd rfl (hlast op' hop' op (List.mem_singleton_self _) id hcons _ hi)
      · exact hkeep (ih ho' ⟨op', hop', hcons⟩ r' hr')
    · rcases applyAuthOp_eq_some hr with hi | ⟨-, -, -, -, hmark⟩
      · cases op' <;> simp [AuthOp.consumes, AuthOp.issues] at hcons hi
      · exact hmark hcons

lemma consume_eq_some {hash : String} {now : ℕ} (h : consumeBootstrapTokenAtomic view hash id now = some view') :
    ∃ r, view id = some r ∧ r.hash = hash ∧ r.consumedAt = none ∧
      view' = update view id (some { r with consumedAt := some now }) := by
  unfold consumeBootstrapTokenAtomic at h
  split at h
  · next r hr =>
    split at h
    · next hu =>
      refine ⟨r, hr, hu.1, ?_, (Option.some.inj h).symm⟩
      have := hu.2
      simp only [TokenRecord.isUsable, TokenRecord.isConsumed, Bool.and_eq_true, Bool.not_eq_true'] at this
      exact Option.not_isSome_iff_eq_none.1 (by simp [this.1])
    · cases h
  · cases h

lemma revert_of_ne (h : id' ≠ id) (expected : ℕ) :
    revertBootstrapTokenConsumption view id expected id' = view id' :=
  update_of_ne h _ _

lemma revert_hash {expected : ℕ} (h : revertBootstrapTokenConsumption view id expected id' = some r) :
    ∃ r', view id' = some r' ∧ r'.hash = r.hash := by
  rcases Tokens.modify_eq_some h with ⟨-, r', hr', rfl⟩ | ⟨-, hr⟩
  · refine ⟨r', hr', ?_⟩
    split <;> rfl
  · exact ⟨r, hr, rfl⟩

end

/-! ### What a step does -/

def Cluster.setView (c : Cluster) (n : ℕ) (view : Tokens) : Cluster :=
  { c with nodes := update c.nodes n { c.nodes n with view } }

@[simp] lemma Cluster.setView_applied (c : Cluster) (n : ℕ) (view : Tokens) (m : ℕ) :
    ((c.setView n view).nodes m).applied = (c.nodes m).applied := by
  simp only [Cluster.setView, update_apply]
  split
  · next h => rw [h]
  · rfl

lemma Cluster.setView_view (c : Cluster) (n : ℕ) (view : Tokens) (m : ℕ) :
    ((c.setView n view).nodes m).view = if m = n then view else (c.nodes m).view := by
  simp only [Cluster.setView, update_apply]
  split <;> rfl

inductive Effect (c : Cluster) (a : Action) : Cluster → Prop where
  | stay : Effect c a c
  | issue (id hash : String) (expiresAt : ℕ) (ha : a = .issue id hash expiresAt) :
    Effect c a { c with proposals := c.proposals ++ [(.issueBootstrapToken id hash expiresAt, none)] }
  | revoke (id : String) : Effect c a { c with proposals := c.proposals ++ [(.revokeBootstrapToken id, none)] }
  | accept (n : ℕ) (hash id : String) (now : ℕ) (r : TokenRecord) (ha : a = .bootstrap n hash id now)
    (hsome : (consumeBootstrapTokenAtomic (c.nodes n).view hash id now).isSome) (hr : (c.nodes n).view id = some r)
    (hhash : r.hash = hash) (hfree : r.consumedAt = none) :
    Effect c a
      { c.setView n (update (c.nodes n).view id (some { r with consumedAt := some now })) with
        proposals := c.proposals ++ [(.consumeBootstrapToken id now, none)]
        calls := c.calls ++ [⟨n, id, hash, now, .waiting c.proposals.length⟩] }
  | commit (p : ℕ) (op : AuthOp) (hp : c.proposals[p]? = some (op, none)) :
    Effect c a { c with log := c.log ++ [op], proposals := c.proposals.set p (op, some c.log.length) }
  | apply (n : ℕ) (op : AuthOp) (hop : c.log[(c.nodes n).applied]? = some op) :
    Effect c a
      { c with
        nodes := update c.nodes n ⟨applyAuthOpToView (c.nodes n).view op, (c.nodes n).applied + 1⟩ }
  | answer (i : ℕ) (call : Call) (p : ℕ) (op : AuthOp) (j : ℕ) (hc : c.calls[i]? = some call)
    (hw : call.phase = .waiting p) (hp : c.proposals[p]? = some (op, some j)) (hj : j < (c.nodes call.node).applied) :
    Effect c a { c with calls := c.calls.set i { call with phase := .issued } }
  | fail (i : ℕ) (call : Call) (p : ℕ) (hc : c.calls[i]? = some call) (hw : call.phase = .waiting p) :
    Effect c a
      { c.setView call.node (revertBootstrapTokenConsumption (c.nodes call.node).view call.id call.now) with
        calls := c.calls.set i { call with phase := .failed } }
  | restart (n : ℕ) :
    Effect c a { c.setView n (rowsOf (c.log.take (c.nodes n).applied)) with calls := c.calls.map (Call.stop n) }
  | install (n k : ℕ) (ha : a = .install n k) (hle : (c.nodes n).applied ≤ k) (hk : k ≤ c.log.length) :
    Effect c a { c with nodes := update c.nodes n { c.nodes n with applied := k } }

theorem step_effect (c : Cluster) (a : Action) : Effect c a (step c a).1 := by
  cases a with
  | issue id hash expiresAt => exact .issue id hash expiresAt rfl
  | revoke id => exact .revoke id
  | bootstrap n hash id now =>
    simp only [step]
    split
    · exact .stay
    · next view hview =>
      obtain ⟨r, hr, hhash, hfree, rfl⟩ := consume_eq_some hview
      exact .accept n hash id now r rfl (by rw [hview]; rfl) hr hhash hfree
  | commit p =>
    simp only [step]
    split
    · next op hp => exact .commit p op hp
    · exact .stay
  | apply n =>
    simp only [step]
    split
    · next op hop => exact .apply n op hop
    · exact .stay
  | answer i =>
    simp only [step]
    split
    · next n id hash now p hc =>
      split
      · next op j hp =>
        split
        · next hj => exact .answer i _ p op j hc rfl hp hj
        · exact .stay
      · exact .stay
    · exact .stay
  | fail i =>
    simp only [step]
    split
    · next n id hash now p hc => exact .fail i _ p hc rfl
    · exact .stay
  | restart n => exact .restart n
  | install n k =>
    simp only [step]
    split
    · next h => exact .install n k rfl h.1 h.2
    · exact .stay

end Coord.Auth.Bootstrap
