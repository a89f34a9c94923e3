import Coord.Kvt.DecisionApply
import Coord.Kvt.Txn
import Coord.Storage.SequencerIndex

/-!
# The `Commit` call

A `Commit` call checks its mutations, claims the session, proposes one candidate to the sequencer and answers
by the outcome.  The proposal is asynchronous: it lands later, or never, and the call may have failed meanwhile.
-/

namespace Coord.Kvt

open Coord.Lib Coord.Raft Coord.Storage Table

/-! ### Statuses -/

inductive Code where
  | invalidArgument | aborted | failedPrecondition | unavailable | internal
  deriving DecidableEq

/-- The codes of the trailer that the transaction calls attach. -/
inductive CoordErrorCode where
  | invalidArgument | txnNotFound | txnConflict | txnTooLarge | readSetTooLarge | failedPrecondition | unavailable
  deriving DecidableEq

structure Status where
  code : Code
  attached : Option CoordErrorCode
  message : String
  deriving DecidableEq

def invalidArgument (message : String) : Status := ⟨.invalidArgument, some .invalidArgument, message⟩

def txnSessionStatus : SessionError → Status
  | .notFound => ⟨.aborted, some .txnNotFound,
      "transaction session not found or expired; restart the transaction"⟩
  | .closed => ⟨.aborted, some .txnNotFound,
      "transaction is committing or committed; start a new transaction"⟩
  | .committed => ⟨.failedPrecondition, some .failedPrecondition,
      "transaction already committed with a different request_id; start a new transaction"⟩
  | .commitInProgress => ⟨.failedPrecondition, some .failedPrecondition,
      "transaction commit already in progress with another request_id"⟩
  | .readSetLimit .entries => ⟨.invalidArgument, some .readSetTooLarge,
      "transaction read set exceeds max_read_set; narrow the reads or split the transaction"⟩
  | .readSetLimit .rangeKeys => ⟨.invalidArgument, some .readSetTooLarge,
      "transaction range scan exceeds max_range keys; narrow the range or split the transaction"⟩
  | .draining => ⟨.unavailable, some .unavailable, "key range is draining for split; retry with backoff"⟩

/-- The wire carries timestamps as `i64`. -/
def tsToI64 (ts : ℕ) : Except Status ℕ :=
  if ts < 2 ^ 63 then .ok ts else .error ⟨.internal, none, "TSO exceeds i64 wire range"⟩

lemma tsToI64_ok {ts ts' : ℕ} (h : tsToI64 ts = .ok ts') : ts' = ts := by
  unfold tsToI64 at h
  split at h
  · cases h; rfl
  · cases h

/-! ### The request -/

inductive MutationOp where
  | unspecified | put | delete | deleteRange
  deriving DecidableEq

structure Mutation where
  op : MutationOp
  key : Bytes
  value : Bytes
  rangeEnd : Bytes
  leaseId : ℤ
  deriving DecidableEq

structure CommitRequest where
  txnId : Bytes
  requestId : Bytes
  mutations : List Mutation
  deriving DecidableEq

def validateMutation (m : Mutation) : Except Status SequencerMutation :=
  if m.leaseId < 0 then .error (invalidArgument "lease_id must be >= 0")
  else match m.op, m.rangeEnd with
  | .put, [] => .ok (.put m.key m.value (if m.leaseId ≠ 0 then some m.leaseId else none))
  | .delete, [] => .ok (.delete m.key)
  | .deleteRange, rangeEnd =>
    if rangeEnd = [] then .error (invalidArgument "DELETE_RANGE requires a non-empty range_end")
    else if rangeEnd ≤ m.key then .error (invalidArgument "DELETE_RANGE requires key < range_end")
    else .ok (.deleteRange m.key rangeEnd)
  | _, _ => .error (invalidArgument "invalid mutation: PUT/DELETE must be a single key (empty range_end)")

/-- The mutations in order, or the status of the first that has no valid shape. -/
def validateCommitMutations : List Mutation → Except Status (List SequencerMutation)
  | [] => .ok []
  | m :: ms =>
    match validateMutation m with
    | .error status => .error status
    | .ok mutation =>
      match validateCommitMutations ms with
      | .error status => .error status
      | .ok mutations => .ok (mutation :: mutations)

/-- What the call hands to the sequencer; the leader draws the commit timestamp. -/
structure CommitCandidate where
  txnId : Bytes
  startTs : ℕ
  requestId : Bytes
  readSet : List Bytes
  readRanges : List SequencerReadRange
  mutations : List SequencerMutation
  deriving DecidableEq

/-- The entry the leader proposes for the candidate. -/
def CommitCandidate.entry (c : CommitCandidate) (commitTs : ℕ) (limits : SequencerValidationLimits) :
    Candidate :=
  ⟨⟨c.txnId, c.startTs, commitTs, c.requestId, c.readSet, c.mutations⟩, c.readRanges, some limits⟩

def mutationBytes : SequencerMutation → ℕ
  | .put key value _ => key.length + value.length + 16
  | .delete key => key.length + 8
  | .deleteRange start stop => start.length + stop.length + 32

/-- The estimate of the candidate's size that the limit is compared with. -/
def CommitCandidate.wireBytes (c : CommitCandidate) : ℕ :=
  64 + c.txnId.length + c.requestId.length +
    ((c.readSet.map List.length).sum + (c.readRanges.map fun r => r.start.length + r.stop.length + 16).sum) +
    (c.mutations.map mutationBytes).sum

/-! ### The node -/

/-- A call in flight: what it proposed, whether its handler still waits, and the outcome once the proposal has
landed. -/
structure Call where
  request : CommitRequest
  candidate : CommitCandidate
  waiting : Bool
  outcome : Option SequencerOutcome
  deriving DecidableEq

structure Node where
  now : ℕ
  sessions : TxnTable
  rows : SequencerRows
  calls : Table ℕ Call
  deriving DecidableEq

def Node.start : Node := ⟨0, TxnTable.empty, SequencerRows.empty, Table.empty⟩

/-- What a call meets on the node: the answer of the capability gate and the routing epoch guard, the leases
(`none` is a live one), whether the sequencer is assembled, and the size limit. -/
structure CommitEnv where
  guard : Option Status
  requireLiveLease : ℤ → Option Status
  hasSequencer : Bool
  maxTxnBytes : ℕ

structure Answer where
  request : CommitRequest
  result : Except Status ℕ
  deriving DecidableEq

/-- The first lease of the mutations that is not live. -/
def deadLease (requireLiveLease : ℤ → Option Status) (mutations : List SequencerMutation) : Option Status :=
  mutations.findSome? fun
    | .put _ _ (some leaseId) => requireLiveLease leaseId
    | _ => none

def claim (n : Node) (req : CommitRequest) (env : CommitEnv) :
    TxnTable × Except Status (List SequencerMutation × CommitInput) :=
  match env.guard with
  | some status => (n.sessions, .error status)
  | none =>
    if req.txnId = [] then (n.sessions, .error (invalidArgument "txn_id must not be empty"))
    else match validateCommitMutations req.mutations with
    | .error status => (n.sessions, .error status)
    | .ok mutations =>
      match n.sessions.beginCommit req.txnId req.requestId n.now with
      | (sessions, .error err) => (sessions, .error (txnSessionStatus err))
      | (sessions, .ok input) => (sessions, .ok (mutations, input))

/-- The status with which the call gives the session back before it proposes anything. -/
def refusal (candidate : CommitCandidate) (env : CommitEnv) : Option Status :=
  match deadLease env.requireLiveLease candidate.mutations with
  | some status => some status
  | none =>
    if env.hasSequencer = false then
      some ⟨.failedPrecondition, some .failedPrecondition,
        "txn Commit requires the region0 Commit Sequencer (local assembly missing)"⟩
    else if env.maxTxnBytes < candidate.wireBytes then
      let limit := env.maxTxnBytes
      some ⟨.invalidArgument, some .txnTooLarge,
        s!"transaction write set exceeds max_txn_bytes ({limit}); split the transaction"⟩
    else none

def candidateOf (req : CommitRequest) (mutations : List SequencerMutation) (input : CommitInput) :
    CommitCandidate :=
  let parts := input.readSet.intoParts
  ⟨req.txnId, input.startTs, req.requestId, parts.1, parts.2, mutations⟩

/-- The call up to its proposal, which is in flight as the call `i`.  A request the session has already
answered is answered from it. -/
def commit (n : Node) (i : ℕ) (req : CommitRequest) (env : CommitEnv) : Node × Option Answer :=
  match claim n req env with
  | (sessions, .error status) => ({ n with sessions := sessions }, some ⟨req, .error status⟩)
  | (sessions, .ok (mutations, input)) =>
    match input.replay with
    | some commitTs => ({ n with sessions := sessions }, some ⟨req, tsToI64 commitTs⟩)
    | none =>
      match refusal (candidateOf req mutations input) env with
      | some status =>
        ({ n with sessions := sessions.cancelCommit req.txnId req.requestId }, some ⟨req, .error status⟩)
      | none =>
        let call : Call := ⟨req, candidateOf req mutations input, true, none⟩
        ({ n with sessions := sessions, calls := n.calls.insert i call }, none)

/-- The commit timestamp of an outcome that is answered with success. -/
def decidedTs : SequencerOutcome → Option ℕ
  | .committed commitTs => some commitTs
  | .duplicate commitTs => some commitTs
  | _ => none

def outcomeStatus : SequencerOutcome → Status
  | .conflict commitTs _ _ => ⟨.aborted, some .txnConflict,
      s!"transaction conflict at commit_ts {commitTs}; restart with a newer start_ts"⟩
  | .invalid _ .readSetTooLarge | .invalid _ .rangeScanExceeded => ⟨.invalidArgument, some .readSetTooLarge,
      "transaction read set exceeds the server limit"⟩
  | .invalid _ .commitTsNotAboveStart => ⟨.internal, none,
      "sequencer allocated commit_ts not above start_ts (TSO invariant breach)"⟩
  | .invalid _ .missingTxnId => invalidArgument "txn_id must not be empty"
  | .outOfOrder commitTs lastCommitTs => ⟨.internal, none,
      s!"commit_ts {commitTs} is not above the sequencer watermark {lastCommitTs}"⟩
  | .committed _ | .duplicate _ => ⟨.internal, none, "sequencer returned no outcome for the transaction"⟩

/-- The handler of a call has its outcome: it closes or gives back the session and answers. -/
def respond (n : Node) (call : Call) (outcome : SequencerOutcome) : TxnTable × Answer :=
  match decidedTs outcome with
  | some commitTs => (n.sessions.finishCommit call.request.txnId call.request.requestId commitTs,
      ⟨call.request, tsToI64 commitTs⟩)
  | none => (n.sessions.cancelCommit call.request.txnId call.request.requestId,
      ⟨call.request, .error (outcomeStatus outcome)⟩)

inductive Action where
  | tick (ms : ℕ)
  | begin (id : Bytes) (startTs : ℕ) (ttl : ℕ)
  | read (id : Bytes) (intent : ReadIntent) (maxReadSet : ℕ)
  | abort (id : Bytes)
  | purgeExpired
  | drain (range : ReadRange)
  | releaseDrain (range : ReadRange)
  /-- A request arrives; its proposal is known as `i`. -/
  | commit (i : ℕ) (req : CommitRequest) (env : CommitEnv)
  /-- The proposal `i` is applied, with what the leader wrote into it. -/
  | land (i : ℕ) (commitTs : ℕ) (limits : SequencerValidationLimits)
  /-- The handler of `i` gets the outcome. -/
  | respond (i : ℕ)
  /-- The handler of `i` gets a transport error or its timeout; the proposal may still land. -/
  | fail (i : ℕ) (status : Status)
  /-- The process restarts: the sessions and the handlers are gone, the proposals are not. -/
  | restart

section

variable (sequencerHash : HashDomain → List Bytes → Bytes)

def step (n : Node) : Action → Node × Option Answer
  | .tick ms => ({ n with now := n.now + ms }, none)
  | .begin id startTs ttl => ({ n with sessions := n.sessions.begin id startTs ttl n.now }, none)
  | .read id intent maxReadSet =>
    ({ n with sessions := (n.sessions.recordRead id intent maxReadSet n.now).1 }, none)
  | .abort id => ({ n with sessions := n.sessions.abort id }, none)
  | .purgeExpired => ({ n with sessions := n.sessions.sweep n.now }, none)
  | .drain range => ({ n with sessions := n.sessions.drain range }, none)
  | .releaseDrain range => ({ n with sessions := n.sessions.releaseDrain range }, none)
  | .commit i req env => commit n i req env
  | .land i commitTs limits =>
    match n.calls.get i with
    | some call =>
      match call.outcome with
      | some _ => (n, none)
      | none =>
        let landed := validateStep sequencerHash n.rows (call.candidate.entry commitTs limits)
        ({ n with rows := landed.1, calls := n.calls.insert i { call with outcome := some landed.2 } }, none)
    | none => (n, none)
  | .respond i =>
    match n.calls.get i with
    | some call =>
      match call.waiting, call.outcome with
      | true, some outcome =>
        let answered := respond n call outcome
        ({ n with sessions := answered.1, calls := n.calls.insert i { call with waiting := false } }, some answered.2)
      | _, _ => (n, none)
    | none => (n, none)
  | .fail i status =>
    match n.calls.get i with
    | some call =>
      if call.waiting = true then
        ({ n with sessions := n.sessions.cancelCommit call.request.txnId call.request.requestId
                  calls := n.calls.insert i { call with waiting := false } },
          some ⟨call.request, .error status⟩)
      else (n, none)
    | none => (n, none)
  | .restart =>
    ({ n with sessions := TxnTable.empty, calls := n.calls.mapVal fun call => { call with waiting := false } }, none)

/-! ### What the call may be answered with -/

variable {sequencerHash} {hash : HashDomain → List Bytes → Bytes}

/-- A session closed by a decision names one of its own transaction. -/
def Sound (rows : SequencerRows) (t : TxnTable) : Prop :=
  ∀ id session r ts, t.sessions.get id = some session → session.state = .committed r ts →
    ∃ d, rows.decisions.get ts = some d ∧ d.txnId = id

section

variable {rows : SequencerRows} {t : TxnTable}

section

variable (h : Sound rows t)
include h

lemma Sound.filter (p : Bytes × TxnSession → Bool) : Sound rows { t with sessions := t.sessions.filter p } := by
  intro id session r ts hs
  rw [get_filter] at hs
  exact h id session r ts (Option.filter_eq_some_iff.1 hs).1

lemma Sound.insert {id : Bytes} {session : TxnSession}
    (hs : ∀ r ts, session.state = .committed r ts → ∃ d, rows.decisions.get ts = some d ∧ d.txnId = id) :
    Sound rows { t with sessions := t.sessions.insert id session } := by
  intro id' session' r ts hs' hst
  rcases get_insert_cases hs' with ⟨rfl, rfl⟩ | ⟨-, hs'⟩
  · exact hs r ts hst
  · exact h id' session' r ts hs' hst

lemma Sound.dropExpired (id : Bytes) (now : ℕ) : Sound rows (t.dropExpired id now) := by
  unfold TxnTable.dropExpired
  split
  · split
    · exact h.filter _
    · exact h
  · exact h

lemma Sound.recordRead (id : Bytes) (intent : ReadIntent) (max now : ℕ) :
    Sound rows (t.recordRead id intent max now).1 := by
  have h' := h.dropExpired id now
  unfold TxnTable.recordRead
  simp only
  split
  · exact h'
  next session hs =>
  split
  · exact h'
  next hact =>
  rw [not_not] at hact
  split
  · exact h'
  · split
    · exact h'
    · exact h'.insert fun r ts hst => by simp [hact] at hst

lemma Sound.abort (id : Bytes) : Sound rows (t.abort id) := by
  unfold TxnTable.abort
  split
  · split
    · exact h.filter _
    · exact h
  · exact h

lemma Sound.cancelCommit (id requestId : Bytes) : Sound rows (t.cancelCommit id requestId) := by
  unfold TxnTable.cancelCommit
  split
  · split
    · exact h.insert fun r ts hst => by cases hst
    · exact h
  · exact h

lemma Sound.finishCommit {id requestId : Bytes} {commitTs : ℕ} {d : SequencerDecision}
    (hd : rows.decisions.get commitTs = some d) (hid : d.txnId = id) :
    Sound rows (t.finishCommit id requestId commitTs) := by
  unfold TxnTable.finishCommit
  split
  · split
    · refine h.insert fun r ts hst => ?_
      cases hst
      exact ⟨d, hd, hid⟩
    · exact h
  · exact h

/-- A claim keeps the sessions sound, and an answer it replays is that of a decision of the transaction. -/
lemma Sound.beginCommit (id requestId : Bytes) (now : ℕ) : Sound rows (t.beginCommit id requestId now).1 ∧
      ∀ input ts, (t.beginCommit id requestId now).2 = .ok input → input.replay = some ts →
        ∃ d, rows.decisions.get ts = some d ∧ d.txnId = id := by
  have h' := h.dropExpired id now
  unfold TxnTable.beginCommit
  simp only
  split
  · exact ⟨h', fun _ _ he => by cases he⟩
  next session hs =>
  split
  · next committedBy commitTs hst =>
    split
    · refine ⟨h', fun input ts hi hr => ?_⟩
      cases hi
      cases hr
      exact h' id session _ _ hs hst
    · exact ⟨h', fun _ _ he => by cases he⟩
  · split
    · exact ⟨h', fun _ _ he => by cases he⟩
    · exact ⟨h', fun input ts hi hr => by cases hi; cases hr⟩
  · exact ⟨h'.insert fun r ts hst => (by cases hst), fun input ts hi hr => (by cases hi; cases hr)⟩

lemma Sound.mono {rows' : SequencerRows}
    (hr : ∀ c d, rows.decisions.get c = some d → rows'.decisions.get c = some d) : Sound rows' t := by
  intro id session r ts hs hst
  obtain ⟨d, hd, hid⟩ := h id session r ts hs hst
  exact ⟨d, hr ts d hd, hid⟩

end

end

/-- The decision of the transaction, if there is one, has these mutations. -/
def DecidedWith (rows : SequencerRows) (txnId : Bytes) (mutations : List SequencerMutation) : Prop :=
  ∀ r ∈ rows.decisions.rows, r.2.txnId = txnId → r.2.mutations = mutations

/-- The proposals of the transaction that have not landed have these mutations. -/
def InFlightWith (calls : Table ℕ Call) (txnId : Bytes) (mutations : List SequencerMutation) : Prop :=
  ∀ r ∈ calls.rows, r.2.outcome = none → r.2.candidate.txnId = txnId → r.2.candidate.mutations = mutations

instance (rows : SequencerRows) (txnId : Bytes) (mutations : List SequencerMutation) :
    Decidable (DecidedWith rows txnId mutations) := by unfold DecidedWith; infer_instance

instance (calls : Table ℕ Call) (txnId : Bytes) (mutations : List SequencerMutation) :
    Decidable (InFlightWith calls txnId mutations) := by unfold InFlightWith; infer_instance

/-- A `Commit` whose claim succeeds asks for the mutations that the transaction has already been decided with,
or is proposed with. -/
def SameMutations (n : Node) : Action → Prop
  | .commit _ req env =>
    match (claim n req env).2 with
    | .ok (mutations, _) => DecidedWith n.rows req.txnId mutations ∧ InFlightWith n.calls req.txnId mutations
    | .error _ => True
  | _ => True

instance (n : Node) (a : Action) : Decidable (SameMutations n a) := by
  unfold SameMutations
  split
  · split <;> infer_instance
  · infer_instance

variable (sequencerHash) in
/-- What holds between the sessions, the calls and the decisions. -/
structure CommitInv (n : Node) : Prop where
  index : TxnIndexInv sequencerHash n.rows
  sound : Sound n.rows n.sessions
  request : ∀ i c, n.calls.get i = some c → c.candidate.txnId = c.request.txnId ∧
    validateCommitMutations c.request.mutations = .ok c.candidate.mutations
  decidedWith : ∀ i c, n.calls.get i = some c → c.outcome = none →
    DecidedWith n.rows c.candidate.txnId c.candidate.mutations
  inFlightWith : ∀ i c, n.calls.get i = some c → c.outcome = none →
    InFlightWith n.calls c.candidate.txnId c.candidate.mutations
  landed : ∀ i c o ts, n.calls.get i = some c → c.outcome = some o → decidedTs o = some ts →
    ∃ d, n.rows.decisions.get ts = some d ∧ d.txnId = c.candidate.txnId ∧ d.mutations = c.candidate.mutations

lemma commitInv_start : CommitInv hash .start :=
  ⟨txnIndexInv_empty, fun _ _ _ _ h => (by cases h), fun _ _ h => (by cases h), fun _ _ h => (by cases h),
    fun _ _ h => (by cases h), fun _ _ _ _ h => (by cases h)⟩

section

variable {n : Node} {i : ℕ} {c : Call}

section

variable (h : CommitInv hash n)
include h

lemma CommitInv.withSessions {t : TxnTable} (ht : Sound n.rows t) (now : ℕ) :
    CommitInv hash { n with now := now, sessions := t } :=
  ⟨h.index, ht, h.request, h.decidedWith, h.inFlightWith, h.landed⟩

lemma CommitInv.withCalls {calls : Table ℕ Call}
    (hc : ∀ i c, calls.get i = some c → ∃ c', n.calls.get i = some c' ∧ c.request = c'.request ∧
      c.candidate = c'.candidate ∧ c.outcome = c'.outcome) : CommitInv hash { n with calls := calls } := by
  refine ⟨h.index, h.sound, fun i c hi => ?_, fun i c hi ho => ?_, fun i c hi ho => ?_, fun i c o ts hi ho => ?_⟩
  · obtain ⟨c', hi', hr, hcand, -⟩ := hc i c hi
    rw [hr, hcand]
    exact h.request i c' hi'
  · obtain ⟨c', hi', -, hcand, hout⟩ := hc i c hi
    rw [hcand]
    exact h.decidedWith i c' hi' (hout ▸ ho)
  · obtain ⟨c', hi', -, hcand, hout⟩ := hc i c hi
    rw [hcand]
    rintro ⟨j, q⟩ hq hqo hqt
    obtain ⟨q', hq', -, hqcand, hqout⟩ := hc j q (mem_rows.1 hq)
    rw [hqcand] at hqt ⊢
    exact h.inFlightWith i c' hi' (hout ▸ ho) (j, q') (mem_rows.2 hq') (hqout ▸ hqo) hqt
  · obtain ⟨c', hi', -, hcand, hout⟩ := hc i c hi
    rw [hcand]
    exact h.landed i c' o ts hi' (hout ▸ ho)

lemma CommitInv.stopWaiting (hi : n.calls.get i = some c) (waiting : Bool) :
    CommitInv hash { n with calls := n.calls.insert i { c with waiting := waiting } } := by
  refine h.withCalls fun j c' hj => ?_
  rcases get_insert_cases hj with ⟨rfl, rfl⟩ | ⟨-, hj⟩
  · exact ⟨c, hi, rfl, rfl, rfl⟩
  · exact ⟨c', hj, rfl, rfl, rfl⟩

lemma CommitInv.propose (hout : c.outcome = none) (hreq : c.candidate.txnId = c.request.txnId ∧
      validateCommitMutations c.request.mutations = .ok c.candidate.mutations)
    (hdec : DecidedWith n.rows c.candidate.txnId c.candidate.mutations)
    (hfl : InFlightWith n.calls c.candidate.txnId c.candidate.mutations) :
    CommitInv hash { n with calls := n.calls.insert i c } := by
  have hget : ∀ {j c'}, (n.calls.insert i c).get j = some c' → c' = c ∨ n.calls.get j = some c' :=
    fun hj => (get_insert_cases hj).imp And.right And.right
  refine ⟨h.index, h.sound, fun j c' hj => ?_, fun j c' hj ho => ?_, fun j c' hj ho => ?_, fun j c' o ts hj ho => ?_⟩
  · rcases hget hj with rfl | hj
    · exact hreq
    · exact h.request j c' hj
  · rcases hget hj with rfl | hj
    · exact hdec
    · exact h.decidedWith j c' hj ho
  · rintro ⟨k, q⟩ hq hqo hqt
    -- the new proposal against itself, against an old one, and an old one against it
    rcases hget hj with rfl | hj' <;> rcases hget (mem_rows.1 hq) with rfl | hk
    · rfl
    · exact hfl (k, q) (mem_rows.2 hk) hqo hqt
    · exact (hfl (j, c') (mem_rows.2 hj') ho hqt.symm).symm
    · exact h.inFlightWith j c' hj' ho (k, q) (mem_rows.2 hk) hqo hqt
  · rcases hget hj with rfl | hj
    · rw [hout] at ho; cases ho
    · exact h.landed j c' o ts hj ho

end

/-- What landing does to the decisions: the old ones stay, and one of the candidate may be added. -/
lemma landed_decisions (h : TxnIndexInv hash n.rows) (c : CommitCandidate) (commitTs : ℕ)
    (limits : SequencerValidationLimits) :
    let rows := (validateStep hash n.rows (c.entry commitTs limits)).1
    (∀ ts d, n.rows.decisions.get ts = some d → rows.decisions.get ts = some d) ∧
      ∀ ts d, rows.decisions.get ts = some d →
        n.rows.decisions.get ts = some d ∨ (d.txnId = c.txnId ∧ d.mutations = c.mutations) := by
  intro rows
  rcases @validateStep_cases hash n.rows (c.entry commitTs limits) with ⟨hc, he⟩ | ⟨o, -, he⟩
  · obtain ⟨-, -, -, -, hlast, -⟩ := outcome_committed hc
    have hrows : rows.decisions = n.rows.decisions.insert commitTs
        ⟨c.txnId, c.requestId, c.startTs, commitTs, c.mutations⟩ := by
      simp only [rows, he, recordDecision_decisions]
      rfl
    refine ⟨fun ts d hd => ?_, fun ts d hd => ?_⟩
    · have hlt : ts < commitTs := (h.commitTs_le ts d hd).trans_lt hlast
      rw [hrows, get_insert_ne _ _ hlt.ne, hd]
    · rcases get_insert_cases (hrows ▸ hd) with ⟨-, rfl⟩ | ⟨-, hd⟩
      · exact Or.inr ⟨rfl, rfl⟩
      · exact Or.inl hd
  · have hrows : rows = n.rows := by simp only [rows, he]
    rw [hrows]
    exact ⟨fun _ _ hd => hd, fun _ _ hd => Or.inl hd⟩

/-- The decision an outcome answers with is the candidate's own or an older one of its transaction. -/
lemma landed_decided (h : TxnIndexInv hash n.rows) (htxn : Function.Injective (hash .txn))
    (hreq : Function.Injective (hash .req)) (c : CommitCandidate) {commitTs ts : ℕ}
    {limits : SequencerValidationLimits}
    (ho : decidedTs (validateStep hash n.rows (c.entry commitTs limits)).2 = some ts) :
    ∃ d, (validateStep hash n.rows (c.entry commitTs limits)).1.decisions.get ts = some d ∧
      d.txnId = c.txnId := by
  rcases @validateStep_cases hash n.rows (c.entry commitTs limits) with ⟨hc, he⟩ | ⟨o, hnone, he⟩
  · rw [he] at ho ⊢
    cases ho
    exact ⟨_, by rw [recordDecision_decisions]; exact get_insert_self _ _ _, rfl⟩
  · have hout := @validateStep_outcome hash n.rows (c.entry commitTs limits)
    rw [he] at ho hout ⊢
    simp only at ho hout
    cases o with
    | duplicate ts' => cases ho; exact h.decided htxn hreq (outcome_duplicate hout.symm)
    | committed => cases hnone
    | conflict | outOfOrder | invalid => cases ho

lemma CommitInv.land (h : CommitInv hash n) (htxn : Function.Injective (hash .txn))
    (hreq : Function.Injective (hash .req)) (hi : n.calls.get i = some c)
    (hc : c.outcome = none) (commitTs : ℕ) (limits : SequencerValidationLimits) :
    let landed := validateStep hash n.rows (c.candidate.entry commitTs limits)
    CommitInv hash
      { n with rows := landed.1, calls := n.calls.insert i { c with outcome := some landed.2 } } := by
  intro landed
  obtain ⟨hold, hnew⟩ := landed_decisions h.index c.candidate commitTs limits
  have hfl := h.inFlightWith i c hi hc
  -- a transaction proposed with the same mutations as `c` is decided with them
  have hdec : ∀ t m, DecidedWith n.rows t m → (c.candidate.txnId = t → c.candidate.mutations = m) →
      DecidedWith landed.1 t m := by
    rintro t m hd hm ⟨ts, d⟩ hr ht
    rcases hnew ts d (mem_rows.1 hr) with hd' | ⟨hid, hmut⟩
    · exact hd (ts, d) (mem_rows.2 hd') ht
    · rw [hmut]
      exact hm (hid ▸ ht)
  have hdeci : DecidedWith landed.1 c.candidate.txnId c.candidate.mutations :=
    hdec _ _ (h.decidedWith i c hi hc) fun _ => rfl
  have hget : ∀ {j c'}, (n.calls.insert i { c with outcome := some landed.2 }).get j = some c' →
      c' = { c with outcome := some landed.2 } ∨ n.calls.get j = some c' :=
    fun hj => (get_insert_cases hj).imp And.right And.right
  refine ⟨txnIndexInv_step h.index _, h.sound.mono hold, fun j c' hj => ?_, fun j c' hj ho => ?_,
    fun j c' hj ho => ?_, fun j c' o ts hj ho hts => ?_⟩
  · rcases hget hj with rfl | hj
    · exact h.request i c hi
    · exact h.request j c' hj
  · rcases hget hj with rfl | hj
    · cases ho
    · exact hdec _ _ (h.decidedWith j c' hj ho) fun ht =>
        h.inFlightWith j c' hj ho (i, c) (mem_rows.2 hi) hc ht
  · rcases hget hj with rfl | hj'
    · cases ho
    rintro ⟨k, q⟩ hq hqo hqt
    rcases hget (mem_rows.1 hq) with rfl | hk
    · cases hqo
    · exact h.inFlightWith j c' hj' ho (k, q) (mem_rows.2 hk) hqo hqt
  · rcases hget hj with rfl | hj
    · cases ho
      obtain ⟨d, hd, hid⟩ := landed_decided h.index htxn hreq c.candidate hts
      exact ⟨d, hd, hid, hdeci (ts, d) (mem_rows.2 hd) hid⟩
    · obtain ⟨d, hd, hid⟩ := h.landed j c' o ts hj ho hts
      exact ⟨d, hold ts d hd, hid⟩

lemma claim_spec (h : Sound n.rows n.sessions) (req : CommitRequest) (env : CommitEnv) :
    Sound n.rows (claim n req env).1 ∧ ∀ m input, (claim n req env).2 = .ok (m, input) →
      validateCommitMutations req.mutations = .ok m ∧ ∀ ts, input.replay = some ts →
        ∃ d, n.rows.decisions.get ts = some d ∧ d.txnId = req.txnId := by
  unfold claim
  split
  · exact ⟨h, fun _ _ he => by cases he⟩
  split
  · exact ⟨h, fun _ _ he => by cases he⟩
  split
  · exact ⟨h, fun _ _ he => by cases he⟩
  next m hm =>
  obtain ⟨h1, h2⟩ := h.beginCommit req.txnId req.requestId n.now
  split
  · next sessions err hb =>
    rw [hb] at h1
    exact ⟨h1, fun _ _ he => by cases he⟩
  · next sessions input hb =>
    rw [hb] at h1 h2
    refine ⟨h1, fun m' input' he => ?_⟩
    cases he
    exact ⟨hm, fun ts hr => h2 input ts rfl hr⟩

/-- The timestamp of the answer is that of a decision of the transaction with the mutations asked for. -/
def AnswersDecision (n : Node) (a : Answer) : Prop :=
  ∀ ts, a.result = .ok ts → ∃ d, n.rows.decisions.get ts = some d ∧ d.txnId = a.request.txnId ∧
    validateCommitMutations a.request.mutations = .ok d.mutations

lemma commit_spec (h : CommitInv hash n) (i : ℕ) (req : CommitRequest) (env : CommitEnv)
    (hsame : SameMutations n (.commit i req env)) :
    CommitInv hash (commit n i req env).1 ∧
      ∀ a, (commit n i req env).2 = some a → AnswersDecision (commit n i req env).1 a := by
  obtain ⟨hsound, hclaim⟩ := claim_spec h.sound req env
  simp only [SameMutations] at hsame
  unfold commit
  split
  · next sessions status hc =>
    rw [hc] at hsound
    refine ⟨h.withSessions hsound n.now, fun a ha ts hts => ?_⟩
    cases ha
    cases hts
  next sessions m input hc =>
  rw [hc] at hsound hclaim hsame
  obtain ⟨hm, hreplay⟩ := hclaim m input rfl
  obtain ⟨hdec, hfl⟩ := hsame
  split
  · next commitTs hr =>
    refine ⟨h.withSessions hsound n.now, fun a ha ts hts => ?_⟩
    cases ha
    obtain rfl := tsToI64_ok hts
    obtain ⟨d, hd, hid⟩ := hreplay ts hr
    exact ⟨d, hd, hid, by rw [hm, hdec (ts, d) (mem_rows.2 hd) hid]⟩
  · split
    · refine ⟨h.withSessions (hsound.cancelCommit _ _) n.now, fun a ha ts hts => ?_⟩
      cases ha
      cases hts
    · have h' := h.withSessions hsound n.now
      exact ⟨h'.propose rfl ⟨rfl, hm⟩ hdec hfl, fun a ha => by cases ha⟩

lemma respond_spec (h : CommitInv hash n) {call : Call} {outcome : SequencerOutcome}
    (hi : n.calls.get i = some call) (ho : call.outcome = some outcome) :
    Sound n.rows (respond n call outcome).1 ∧ AnswersDecision n (respond n call outcome).2 := by
  obtain ⟨hid', hm⟩ := h.request i call hi
  unfold respond
  split
  · next commitTs hts =>
    obtain ⟨d, hd, hid, hmut⟩ := h.landed i call outcome commitTs hi ho hts
    refine ⟨h.sound.finishCommit hd (hid.trans hid'), fun ts hok => ?_⟩
    obtain rfl := tsToI64_ok hok
    exact ⟨d, hd, hid.trans hid', by rw [hm, hmut]⟩
  · refine ⟨h.sound.cancelCommit _ _, fun ts hok => ?_⟩
    cases hok

lemma step_spec (htxn : Function.Injective (hash .txn)) (hreq : Function.Injective (hash .req))
    (h : CommitInv hash n) (a : Action) (hsame : SameMutations n a) :
    CommitInv hash (step hash n a).1 ∧
      ∀ ans, (step hash n a).2 = some ans → AnswersDecision (step hash n a).1 ans := by
  have silent : ∀ {n' : Node}, CommitInv hash n' →
      CommitInv hash n' ∧ ∀ ans, (none : Option Answer) = some ans → AnswersDecision n' ans :=
    fun h' => ⟨h', fun _ he => by cases he⟩
  cases a with
  | tick ms => exact silent (h.withSessions h.sound _)
  | begin id startTs ttl =>
    exact silent (h.withSessions ((h.sound.filter _).insert fun r ts hst => by cases hst) _)
  | read id intent max => exact silent (h.withSessions (h.sound.recordRead id intent max n.now) _)
  | abort id => exact silent (h.withSessions (h.sound.abort id) _)
  | purgeExpired => exact silent (h.withSessions (h.sound.filter _) _)
  | drain range => exact silent (h.withSessions (t := n.sessions.drain range) h.sound _)
  | releaseDrain range => exact silent (h.withSessions (t := n.sessions.releaseDrain range) h.sound _)
  | commit i req env => exact commit_spec h i req env hsame
  | land i commitTs limits =>
    simp only [step]
    split
    · next call hi =>
      split
      · exact silent h
      · next hout => exact silent (h.land htxn hreq hi hout commitTs limits)
    · exact silent h
  | respond i =>
    simp only [step]
    split
    · next call hi =>
      split
      · next outcome hw ho =>
        obtain ⟨hs, hans⟩ := respond_spec h hi ho
        refine ⟨(h.withSessions hs n.now).stopWaiting hi false, fun ans he => ?_⟩
        cases he
        exact hans
      · exact silent h
    · exact silent h
  | fail i status =>
    simp only [step]
    split
    · next call hi =>
      split
      · refine ⟨(h.withSessions (h.sound.cancelCommit _ _) n.now).stopWaiting hi false, fun ans he ts hts => ?_⟩
        cases he
        cases hts
      · exact silent h
    · exact silent h
  | restart =>
    have hempty : Sound n.rows TxnTable.empty := fun _ _ _ _ hs => by cases hs
    refine silent ((h.withSessions hempty n.now).withCalls fun i c hi => ?_)
    rw [get_mapVal] at hi
    obtain ⟨c', hc', rfl⟩ := Option.map_eq_some_iff.1 hi
    exact ⟨c', hc', rfl, rfl, rfl⟩

end

/-- **A successful `Commit` names its own decision.**  In every run in which a transaction is committed with
the mutations it was decided or proposed with before, an answered commit timestamp is that of the one decision
of the transaction, and the decision has exactly the mutations of the request. -/
theorem commit_success_decision (htxn : Function.Injective (sequencerHash .txn))
    (hreq : Function.Injective (sequencerHash .req)) (actions : List Action)
    (hsame : Along (step sequencerHash) SameMutations .start actions) :
    ∀ e ∈ trace (step sequencerHash) .start actions, ∀ req ts, e.out = some ⟨req, .ok ts⟩ →
      ∃ d, e.after.rows.decisions.get ts = some d ∧ d.txnId = req.txnId ∧
        validateCommitMutations req.mutations = .ok d.mutations ∧
        ∀ ts' d', e.after.rows.decisions.get ts' = some d' → d'.txnId = req.txnId → d' = d := by
  intro e he req ts hout
  obtain ⟨-, hall⟩ := along_inv (CommitInv sequencerHash) SameMutations commitInv_start hsame
    (fun n a ha hn => (step_spec htxn hreq hn a ha).1)
  obtain ⟨hbefore, hact, hafter⟩ := hall e he
  obtain ⟨hstep, -⟩ := step_of_mem_trace _ he
  have hans := (step_spec htxn hreq hbefore e.act hact).2
  rw [hstep] at hans
  obtain ⟨d, hd, hid, hm⟩ := hans _ hout ts rfl
  refine ⟨d, hd, hid, hm, fun ts' d' hd' hid' => ?_⟩
  exact (hafter.index.unique hd' hd (hid'.trans hid.symm)).2

/-! ### Retries with other mutations -/

/-- A node on which every lease is live and nothing is refused. -/
def openEnv : CommitEnv := ⟨none, fun _ => none, true, 1000⟩

/-- A request of the transaction `1` that puts `value` under the key `7`. -/
def putSeven (requestId value : Bytes) : CommitRequest := ⟨[1], requestId, [⟨.put, [7], value, [], 0⟩]⟩

/-- The transaction commits, but its handler gets a transport error; the client tries again as `retry`. -/
def retried (retry : CommitRequest) : List Action :=
  [.begin [1] 0 100, .commit 0 (putSeven [1] [1]) openEnv, .land 0 5 ⟨10, 10⟩,
    .fail 0 ⟨.unavailable, none, "timeout"⟩, .commit 1 retry openEnv, .land 1 6 ⟨10, 10⟩]

/-- The retry under a new request id, with another value: it is a duplicate and is answered with success. -/
theorem commit_success_other_mutations :
    ¬ ∀ actions, ∀ e ∈ trace (step fun _ => markedParts) .start actions, ∀ req ts,
      e.out = some ⟨req, .ok ts⟩ → ∃ d, e.after.rows.decisions.get ts = some d ∧ d.txnId = req.txnId ∧
        validateCommitMutations req.mutations = .ok d.mutations := by
  intro h
  have hout : (step (fun _ => markedParts)
      (exec (step fun _ => markedParts) .start (retried (putSeven [2] [2]))) (.respond 1)).2 =
        some ⟨putSeven [2] [2], .ok 5⟩ := by decide +kernel
  obtain ⟨d, hd, -, hm⟩ := h (retried (putSeven [2] [2]) ++ [.respond 1]) _
    (by rw [trace_append]; exact List.mem_append_right _ (List.mem_singleton.2 rfl)) _ _ hout
  have hget : (step (fun _ => markedParts)
      (exec (step fun _ => markedParts) .start (retried (putSeven [2] [2]))) (.respond 1)).1.rows.decisions.get 5 =
        some ⟨[1], [1], 0, 5, [.put [7] [1] none]⟩ := by decide +kernel
  rw [hget] at hd
  cases hd
  revert hm
  decide +kernel

/-- The retry with the same mutations is answered with the first decision's timestamp. -/
theorem commit_success_retried :
    (Function.Injective markedParts ∧ Along (step fun _ => markedParts) SameMutations .start
      (retried (putSeven [2] [1]) ++ [.respond 1])) ∧ (step (fun _ => markedParts)
      (exec (step fun _ => markedParts) .start (retried (putSeven [2] [1]))) (.respond 1)).2 =
        some ⟨putSeven [2] [1], .ok 5⟩ ∧
    ∃ d, (step (fun _ => markedParts)
      (exec (step fun _ => markedParts) .start (retried (putSeven [2] [1]))) (.respond 1)).1.rows.decisions.get 5 =
        some d ∧ validateCommitMutations (putSeven [2] [1]).mutations = .ok d.mutations := by
  have hsame : Along (step fun _ => markedParts) SameMutations .start
      (retried (putSeven [2] [1]) ++ [.respond 1]) := by decide +kernel
  have hout : (step (fun _ => markedParts)
      (exec (step fun _ => markedParts) .start (retried (putSeven [2] [1]))) (.respond 1)).2 =
        some ⟨putSeven [2] [1], .ok 5⟩ := by decide +kernel
  obtain ⟨d, hd, -, hm, -⟩ := @commit_success_decision (fun _ => markedParts) markedParts_injective
    markedParts_injective _ hsame _
    (by rw [trace_append]; exact List.mem_append_right _ (List.mem_singleton.2 rfl)) _ _ hout
  exact ⟨⟨markedParts_injective, hsame⟩, hout, d, hd, hm⟩

end

/-! ### What a committed transaction has read -/

open List DecisionApply

/-- Decisions that do not write a key can be left out. -/
lemma decideRow_filter {k : Bytes} {p : SequencerDecision → Bool} {ds : List SequencerDecision}
    (h : ∀ d ∈ ds, ¬ p d → ∀ m ∈ d.mutations, ¬ m.Writes k) (row : KeyRow) :
    decideRow k row ((ds.filter p).map wholeView) = decideRow k row (ds.map wholeView) := by
  rw [decideRow, decideRow, foldl_map, foldl_map, foldl_filter]
  refine foldl_ext _ _ _ fun row d hd => ?_
  split_ifs with hp
  · rfl
  refine ((foldl_ext _ _ row fun row m hm => ?_).trans (foldl_fixed _)).symm
  have hm := h d hd hp m hm
  cases m with
  | put key | delete key => exact if_neg hm
  | deleteRange start stop => exact if_neg fun hin => hm (inRange_iff.1 hin.1)

/-- **A committed transaction has read current rows**: what it read is the same with the decisions up to its snapshot,
or up to any later time, as with all that come before its own. -/
theorem reads_current {hash : HashDomain → List Bytes → Bytes} (hinj : Function.Injective (hash .interval))
    (ops : List SequencerOp) (c : Candidate) (ts : ℕ) : let st := (applySequencerOps hash .empty ops).1
    (∀ d ∈ st.log, ∀ m ∈ d.mutations, m.Bounded) → (validateStep hash st c).2 = .committed ts →
      ∀ k, (k ∈ c.txn.readSet ∨ ∃ r ∈ c.readRanges, r.Reads k) → ∀ x, c.txn.startTs ≤ x → ∀ size applied,
        (wholeLog size (st.log.filter fun d => d.commitTs ≤ x) applied).row k =
          (wholeLog size st.log applied).row k := by
  intro st hstop hcom k hread x hx _ _
  have hf : Followed hash st := followed_run ops
  have hinv : IndexInv hash st := by
    rw [show st = _ from (applySequencerOps_eq _ ops).1]
    exact exec_inv (IndexInv hash) indexInv_empty fun st c _ => indexInv_step hinj st c
  have hlog : st.log.Pairwise fun a b => a.commitTs < b.commitTs := by
    refine pairwise_map.2 (st.decisions.sorted.imp_of_mem fun ha hb hab => ?_)
    rwa [(hf.decisions _ ha).1, (hf.decisions _ hb).1]
  rw [row_wholeLog (hlog.sublist filter_sublist), row_wholeLog hlog, filter_comm]
  refine decideRow_filter (fun d hd hp m hm hw => ?_) _
  obtain ⟨r, hr, rfl⟩ := mem_map.1 (mem_filter.1 hd).1
  rw [(hf.decisions r hr).1, decide_eq_true_eq] at hp
  obtain ⟨hpoint, hrange⟩ := reads_unwritten hinv (last_lt_of_committed hcom).2 (mem_rows.1 hr) (by omega) hm
    (hstop _ (mem_map_of_mem hr) m hm) hw
  rcases hread with hk | ⟨r', hr', hk⟩
  · exact hpoint hk
  · exact hrange r' hr' hk

theorem reads_current_sampleBatches : (wholeLog (fun _ => 0)
      ((applySequencerOps (fun _ => markedParts) .empty sampleBatches).1.log.filter fun d => d.commitTs ≤ 5)
        ⟨1, 1, 1⟩).row [7] =
        (some [9], some ⟨2, 2, 4, 0, true⟩) :=
  (reads_current markedParts_injective sampleBatches ⟨⟨[5], 4, 6, [], [[7]], []⟩, [], none⟩ 6 (by decide +kernel)
    (by decide +kernel) [7] (.inl (by simp)) 5 (by decide) _ _).trans (by decide +kernel)

end Coord.Kvt
