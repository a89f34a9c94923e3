import Coord.Approval.Bridge

/-!
# The approval store, and calls under way

The store keeps each instance in one row of the key-value service, with the events of its commits and the idempotency
records of its commands.  A call of the bridge reads an instance, plans its write, and commits it in one transaction
that compares the revision it has read; when that fails it reads again.  Between any two requests of a call other
calls, of this agent or of others, take their steps, and so do the other writers of the outbox.  A request can fail,
and a transaction can take effect although its answer is lost.
-/

namespace Coord.Approval

/-- What a commit expects of the row of its instance. -/
inductive ExpectedRev where
  | createOnly
  | exact (n : ℕ)
  deriving DecidableEq

/-- What a commit expects that was planned from a row. -/
def expectedOf : Option (Engine × ℕ) → ExpectedRev
  | none => .createOnly
  | some (_, rev) => .exact rev

/-- What a command has answered, under the key it was given. -/
structure IdemRecord where
  key : Bytes
  response : Response
  deriving DecidableEq

def idemKey (instanceId key : Bytes) : Bytes := instanceId ++ ascii "/" ++ key

/-- The rows of the service: the instances, each with the revision of its last write, the idempotency records, and the
outbox with its counters, its index by event id and its records. -/
structure Kv where
  revision : ℕ
  instances : Id → Option (Engine × ℕ)
  idem : Bytes → Option IdemRecord
  seqs : Id → ℕ
  ids : Bytes → Option (Id × ℕ)
  records : Id × ℕ → Option OutboxEvent

def Kv.empty : Kv := ⟨0, fun _ => none, fun _ => none, fun _ => 0, fun _ => none, fun _ => none⟩

/-! ### Commits -/

/-- What a commit writes, what it expects, and what is reported after it. -/
structure Write where
  engine : Engine
  events : List OutboxEvent
  expected : ExpectedRev
  idem : Option IdemRecord
  outcome : Outcome

def ensureExpectedRevAllowed (expected : ExpectedRev) : Except BridgeError Unit :=
  if expected = .exact 0 then
    .error (.store (ascii "approval commit: Exact(0) is reserved; use CreateOnly for first writes"))
  else .ok ()

/-- The events belong to the instance, and no two have the same id. -/
def ensureEventAggregatesMatch (engine : Engine) : List Bytes → List OutboxEvent → Except BridgeError Unit
  | _, [] => .ok ()
  | seen, ev :: events =>
    if ev.aggregateId ≠ engine.inst.id then .error (.store (ascii "approval commit: event aggregate_id mismatch"))
    else if ev.id ∈ seen then .error (.store (ascii "approval commit: duplicate event id in batch"))
    else ensureEventAggregatesMatch engine (ev.id :: seen) events

/-- The row that has been read satisfies what the commit expects. -/
def instancePredicateHolds (expected : ExpectedRev) (current : Option (Engine × ℕ)) : Bool :=
  match expected with
  | .createOnly => current.isNone
  | .exact n => current.any fun row => decide (row.2 = n)

/-- The row that has been read is what the commit would write. -/
def replayMatches (current : Option (Engine × ℕ)) (engine : Engine) : Bool :=
  current.any fun row => decide (row.1 = engine)

/-- The events of a commit, numbered from `sequence` on. -/
def Kv.putEvents : List OutboxEvent → ℕ → Kv → Kv
  | [], _, kv => kv
  | ev :: events, sequence, kv =>
    putEvents events (sequence + 1) { kv with
      ids := Function.update kv.ids ev.id (some (ev.aggregateId, sequence))
      records := Function.update kv.records (ev.aggregateId, sequence) (some ev) }

/-- A batch of events after the `cur` events that the aggregate has. -/
def Kv.putBatch (kv : Kv) (aggregate : Id) (events : List OutboxEvent) (cur : ℕ) : Kv :=
  if events = [] then kv
  else putEvents events (cur + 1) { kv with seqs := Function.update kv.seqs aggregate (cur + events.length) }

/-- The comparisons of a commit's transaction: the counter and the ids of the events, the instance, and the key. -/
def Kv.compares (kv : Kv) (w : Write) (cur : ℕ) : Bool :=
  (w.events.isEmpty || decide (kv.seqs w.engine.inst.id = cur)) &&
    w.events.all (fun ev => (kv.ids ev.id).isNone) &&
    instancePredicateHolds w.expected (kv.instances w.engine.inst.id) &&
    w.idem.all fun rec => (kv.idem (idemKey w.engine.inst.id rec.key)).isNone

def Kv.puts (kv : Kv) (w : Write) (cur : ℕ) : Kv :=
  let written := { kv with
    revision := kv.revision + 1
    instances := Function.update kv.instances w.engine.inst.id (some (w.engine, kv.revision + 1)) }.putBatch
      w.engine.inst.id w.events cur
  match w.idem with
  | none => written
  | some rec => { written with idem := Function.update written.idem (idemKey w.engine.inst.id rec.key) (some rec) }

/-- A commit's transaction: all its writes, or none. -/
def Kv.txn (kv : Kv) (w : Write) (cur : ℕ) : Bool × Kv :=
    if kv.compares w cur then (true, kv.puts w cur) else (false, kv)

/-! ### Calls -/

def maxCommitAttempts : ℕ := 3

def commitRetryLimit : ℕ := 8

/-- What a call returns: without a commit, after one, or an error. -/
inductive Report where
  | ended (outcome : Outcome)
  | committed (outcome : Outcome)
  | failed (err : BridgeError)
  deriving DecidableEq

/-- How far a call has come: what it does next, with the rounds of its commit that are left.  `holds` is whether the
row was as expected when the commit read it.  `sent` is the transaction that a failed call has sent, which can still
take effect. -/
inductive Phase where
  | loadIdem
  | load
  | check (w : Write) (left : ℕ)
  | present (w : Write) (left : ℕ) (holds : Bool) (todo : List OutboxEvent)
  | record (w : Write) (left : ℕ) (holds : Bool) (key : Id × ℕ) (todo : List OutboxEvent)
  | sequence (w : Write) (left : ℕ)
  | transact (w : Write) (left : ℕ) (cur : ℕ)
  | finished (report : Report) (sent : Option (Write × ℕ))

/-- A call of the bridge; `attempt` counts the commits it has tried. -/
structure Call where
  id : Id
  resolver : Resolver
  op : Operation
  now : ℤ
  attempt : ℕ
  phase : Phase

namespace Call

def finish (c : Call) (report : Report) : Call := { c with phase := .finished report none }

/-- What a call reports when others were always faster. -/
def staleText (c : Call) : Bytes :=
  match c.op with
  | .ensureNodeOpen _ node _ _ => ascii "ensure_node_open " ++ node
  | .command .. => ascii "command on " ++ c.id
  | .expireDue => ascii "expire_due on " ++ c.id
  | .finishIfComplete => ascii "finish_if_complete " ++ c.id
  | .terminate .. => ascii "terminate " ++ c.id

/-- The commit was refused: the call starts again, or gives up. -/
def again (c : Call) : Call :=
  if maxCommitAttempts ≤ c.attempt then c.finish (.failed (.stale c.staleText))
  else { c with attempt := c.attempt + 1, phase := .loadIdem }

/-- The row was not what the commit would write, or its events were not all there. -/
def proceed (c : Call) (w : Write) (left : ℕ) (holds : Bool) : Call :=
  if holds then { c with phase := .sequence w left } else c.again

/-- The write that has been planned is committed: first it is checked. -/
def beginCommit (c : Call) (w : Write) : Call :=
  match ensureExpectedRevAllowed w.expected >>= fun _ => ensureEventAggregatesMatch w.engine [] w.events with
  | .error err => c.finish (.failed err)
  | .ok () => { c with phase := .check w commitRetryLimit }

/-- The write of a proposal that was planned from a row. -/
def writeOf (c : Call) (row : Option (Engine × ℕ)) (p : Proposal) : Write where
  engine := p.engine
  events := p.events
  expected := expectedOf row
  idem := c.op.key.map fun key => ⟨key, responseFor p.engine⟩
  outcome := p.outcome

/-- The next read of a call, with what the call does after it. -/
def read (kv : Kv) (c : Call) : Call :=
  match c.phase with
  | .loadIdem =>
    match c.op.key.bind fun key => kv.idem (idemKey c.id key) with
    | some rec => c.finish (.ended (.duplicate rec.response))
    | none => { c with phase := .load }
  | .load =>
    match c.op.plan c.resolver c.id c.now ((kv.instances c.id).map Prod.fst) with
    | .error err => c.finish (.failed err)
    | .ok (.inl outcome) => c.finish (.ended outcome)
    | .ok (.inr p) => c.beginCommit (c.writeOf (kv.instances c.id) p)
  | .check _ 0 => c.again
  | .check w (left + 1) =>
    let current := kv.instances w.engine.inst.id
    let holds := instancePredicateHolds w.expected current
    if replayMatches current w.engine then { c with phase := .present w left holds w.events } else c.proceed w left
      holds
  | .present w _ _ [] => c.finish (.committed w.outcome)
  | .present w left holds (ev :: todo) =>
    match kv.ids ev.id with
    | none => c.proceed w left holds
    | some key => { c with phase := .record w left holds key todo }
  | .record w left holds key todo =>
    match kv.records key with
    | none => c.proceed w left holds
    | some _ => { c with phase := .present w left holds todo }
  | .sequence w left => { c with phase := .transact w left (kv.seqs w.engine.inst.id) }
  | .transact .. | .finished .. => c

end Call

/-! ### The system -/

/-- A commit that has taken effect: the call it was made by, with the instance before and after it. -/
structure Transition where
  call : ℕ
  id : Id
  key : Option Bytes
  before : Option Engine
  after : Engine
  outcome : Outcome

/-- The service with the calls that were ever made.  `log` are the commits that have taken effect; no step reads it. -/
structure System where
  kv : Kv
  calls : List Call
  log : List Transition

def System.start : System := ⟨.empty, [], []⟩

/-- What happens next: a call is made, or the call `i` reads; its transaction takes effect and is answered, or takes
effect without an answer; its request fails; or the other writers of the outbox change it. -/
inductive Step where
  | call (id : Id) (resolver : Resolver) (op : Operation) (now : ℤ)
  | read (i : ℕ)
  | transact (i : ℕ)
  | deliver (i : ℕ)
  | fail (i : ℕ) (err : Bytes)
  | outbox (revisions : ℕ) (seqs : Id → ℕ) (ids : Bytes → Option (Id × ℕ)) (records : Id × ℕ → Option OutboxEvent)

namespace System

/-- The transaction of the call `i` takes effect. -/
def commit (s : System) (i : ℕ) (w : Write) (cur : ℕ) : Bool × System :=
  let (ok, kv) := s.kv.txn w cur
  (ok, { s with
    kv := kv
    log := if ok then
        s.log ++ [⟨i, w.engine.inst.id, w.idem.map IdemRecord.key,
          (s.kv.instances w.engine.inst.id).map Prod.fst, w.engine,
          w.outcome⟩]
      else s.log })

/-- The call `i` goes on as `c`. -/
def setCall (s : System) (i : ℕ) (c : Call) : System := { s with calls := s.calls.set i c }

def sentBy (c : Call) : Option (Write × ℕ) :=
  match c.phase with
  | .transact w _ cur => some (w, cur)
  | .finished _ sent => sent
  | _ => none

def failed (c : Call) (err : Bytes) : Call :=
  match c.phase with
  | .finished .. => c
  | _ => { c with phase := .finished (.failed (.store err)) (sentBy c) }

def step (s : System) : Step → System × Unit
  | .call id resolver op now => ({ s with calls := s.calls ++ [⟨id, resolver, op, now, 1, .loadIdem⟩] }, ())
  | .read i =>
    match s.calls[i]? with
    | none => (s, ())
    | some c => (s.setCall i (c.read s.kv), ())
  | .transact i =>
    match s.calls[i]? with
    | some ⟨id, resolver, op, now, attempt, .transact w left cur⟩ =>
      let (ok, s) := s.commit i w cur
      let c : Call := ⟨id, resolver, op, now, attempt, .check w left⟩
      (s.setCall i (if ok then c.finish (.committed w.outcome) else c), ())
    | _ => (s, ())
  | .deliver i =>
    match s.calls[i]?.bind sentBy with
    | none => (s, ())
    | some (w, cur) => ((s.commit i w cur).2, ())
  | .fail i err =>
    match s.calls[i]? with
    | none => (s, ())
    | some c => (s.setCall i (failed c err), ())
  | .outbox revisions seqs ids records =>
    ({ s with kv :=
        { s.kv with revision := s.kv.revision + revisions, seqs := seqs, ids := ids, records := records } }, ())

end System

end Coord.Approval
