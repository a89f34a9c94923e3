import Coord.Approval.Engine

/-!
# The approval bridge

The bridge is the one path on which approval instances are written.  It opens the nodes of a workflow, decides who may
give a command, and turns the effects of the engine into events.  What it does to an instance that it has read is here;
reading and writing it is in the store.
-/

namespace Coord.Approval

inductive BridgeError where
  | notFound (text : Bytes)
  | notAuthorized (text : Bytes)
  | invalidTransition (text : Bytes)
  | invalidArgument (text : Bytes)
  | stale (text : Bytes)
  | store (text : Bytes)
  deriving DecidableEq

def BridgeError.ofApproval : ApprovalError → BridgeError
  | .notFound x => .notFound x
  | .invalidTransition x => .invalidTransition x
  | .notAuthorized x => .notAuthorized x
  | .invalidArgument x => .invalidArgument x
  | .staleRevision expected actual => .stale (ascii "expected " ++ decimal expected ++ ascii ", actual " ++ decimal
      actual)

/-! ### Nodes -/

/-- A decimal number of 32 bits, perhaps with a plus sign. -/
def parseU32 (s : Bytes) : Option ℕ :=
  let digits := if s.head? = some 43 then s.tail else s
  if digits ≠ [] ∧ digits.all (fun c => decide (48 ≤ c ∧ c ≤ 57)) then
    let n := digits.foldl (fun acc c => 10 * acc + (c.val - 48)) 0
    if n < 2 ^ 32 then some n else none
  else none

/-- What follows `start`, when `s` begins with it. -/
def afterStart (start s : Bytes) : Option Bytes := if start.isPrefixOf s then some (s.drop start.length) else none

def splitSlash (s : Bytes) : Option (Bytes × Bytes) :=
  if 47 ∈ s then some (s.takeWhile (· ≠ 47), (s.dropWhile (· ≠ 47)).tail) else none

/-- The `mode` of a node; thresholds of zero, which every round would meet, are refused. -/
def parseJoinPolicy (s : Bytes) : Option JoinPolicy :=
  if s = ascii "all" then some .all
  else if s = ascii "any" then some .any
  else match afterStart (ascii "quorum:") s with
  | some n => (parseU32 n).bind fun n => if n = 0 then none else some (.quorum n)
  | none => (afterStart (ascii "ratio:") s).bind fun rest => (splitSlash rest).bind fun p =>
    (parseU32 p.1).bind fun num => (parseU32 p.2).bind fun den => if 0 < num ∧
      0 < den then some (.ratio num den) else none

/-- What an expression in the list of a seat's holders gives. -/
inductive SeatValue where
  | text (principal : Principal)
  | list (items : List (Option Principal))
  | other
  deriving DecidableEq

/-- A node of a definition that has been parsed: its mode is the default, or was accepted by the parser. -/
structure ApproveTask where
  approvers : List Bytes
  pool : List Bytes
  readers : List Bytes
  roles : List Bytes
  mode : JoinPolicy
  veto : Bool
  signAdmins : List Principal
  allowSelfApprove : Bool
  parsed : mode = .all ∨ ∃ s, parseJoinPolicy s = some mode

def ApproveTask.rejectPolicy (task : ApproveTask) : RejectPolicy := if task.veto then .anyReject else .onExhausted

/-- The values of expressions in the context of an instance, and the holders of roles.  A literal has no value. -/
structure Resolver where
  evaluate : Bytes → Option (Except Bytes SeatValue)
  resolve : Bytes → Option (List Principal)

section

variable (resolver : Resolver)

def expandEntries (source : Bytes) : List Bytes → Except BridgeError (List Principal)
  | [] => .ok []
  | entry :: entries =>
    let invalid := BridgeError.invalidArgument (ascii "approve." ++ source)
    match resolver.evaluate entry with
    | none => (expandEntries source entries).map (entry :: ·)
    | some (.error e) => .error (.invalidArgument (ascii "approve." ++ source ++ ascii ": " ++ e))
    | some (.ok (.text p)) => (expandEntries source entries).map (p :: ·)
    | some (.ok (.list items)) =>
      if items.any Option.isNone then .error invalid
      else (expandEntries source entries).map (items.reduceOption ++ ·)
    | some (.ok .other) => .error invalid

/-- One source of seats; a source that names nobody is refused. -/
def expandSource (source : Bytes) (entries : List Bytes) : Except BridgeError (List Principal) :=
  if entries = [] then .ok []
  else match expandEntries resolver source entries with
  | .error e => .error e
  | .ok principals =>
    if principals = [] ∨ [] ∈ principals then .error (.invalidArgument (ascii "approve." ++ source)) else .ok principals

def roleSeats : List Bytes → Except BridgeError (List SeatSpec)
  | [] => .ok []
  | role :: roles =>
    match resolver.resolve role with
    | none => .error (.invalidArgument (ascii "approve.role." ++ role))
    | some principals => (roleSeats roles).map (principals.map SeatSpec.approver ++ ·)

/-- The seats of a node; a node that nobody can approve is refused, as its round would pass at once. -/
def resolveSeats (task : ApproveTask) : Except BridgeError (List SeatSpec) := do
  let approvers ← expandSource resolver (ascii "approvers") task.approvers
  let pool ← expandSource resolver (ascii "pool") task.pool
  let readers ← expandSource resolver (ascii "readers") task.readers
  let roles ← expandSource resolver (ascii "roles") task.roles
  let held ← roleSeats resolver roles
  let seats := approvers.map SeatSpec.approver ++ (if pool = [] then [] else [SeatSpec.pool pool]) ++
    readers.map SeatSpec.reader ++ held
  if seats.any fun s => decide (s.kind = .approval) then .ok seats
  else .error (.invalidArgument (ascii "approve seats"))

end

/-! ### Commands of users -/

inductive ApprovalCommand where
  | approve (taskId : Id) (comment : Option Bytes)
  | reject (taskId : Id) (comment : Option Bytes)
  | acknowledge (taskId : Id)
  | addSign (branchId : Id) (seats : List SeatSpec) (comment : Option Bytes)
  | removeSign (taskIds : List Id)
  | returnToNode (branchId : Id) (targetNode : Bytes) (comment : Option Bytes)
  | transfer (taskId : Id) (recipient : Principal)
  | delegate (taskId : Id) (recipient : Principal)
  | withdraw
  | terminate (reason : Bytes)
  deriving DecidableEq

def systemActor : Principal := ascii "system"

/-- The initiator of an instance that nobody is known to have started. -/
def anonymous : Principal := ascii "anonymous"

namespace Engine

/-- The initiator does not vote on their own instance, unless the node lets them. -/
def guardSelfApprove (e : Engine) (actor : Principal) (taskId : Id) : Except BridgeError Unit :=
  if e.inst.initiator = anonymous ∨ e.inst.initiator ≠ actor then .ok ()
  else match (e.tasks.get taskId).bind fun t => e.branches.get t.branchId with
  | none => .ok ()
  | some b =>
    if b.policy.allowSelfApprove then .ok ()
    else .error (.notAuthorized (actor ++ ascii " cannot approve a node they initiated"))

def guardSignAdmin (e : Engine) (actor : Principal) (branchId : Id) : Except BridgeError Unit :=
  match e.branches.get branchId with
  | none => .error (.notFound branchId)
  | some b =>
    if actor ∈ b.policy.signAdmins ∨ e.inst.initiator = actor then .ok ()
    else .error (.notAuthorized (actor ++ ascii " is not a sign admin of " ++ branchId))

def guardReturnToNode (e : Engine) (actor : Principal) (branchId : Id) : Except BridgeError Unit :=
  match e.branches.get branchId with
  | none => .error (.notFound branchId)
  | some b =>
    if actor ∈ b.policy.signAdmins ∨ e.inst.initiator = actor then .ok ()
    else if e.tasks.rows.any fun r => decide (r.2.branchId = b.id ∧ r.2.status.isOpen = true ∧
        (r.2.assignee = some actor ∨ actor ∈ r.2.candidates ∨
          r.2.delegation.map Delegation.delegate = some actor)) then .ok ()
    else .error (.notAuthorized (actor ++ ascii " holds no open seat on " ++ branchId))

def guardTerminate (e : Engine) (actor : Principal) : Except BridgeError Unit :=
  if actor = systemActor then .ok ()
  else if e.branches.rows.any fun r => decide (actor ∈ r.2.policy.signAdmins) then .ok ()
  else .error (.notAuthorized (actor ++ ascii " is not a sign admin"))

/-- The branch of the seats to take away: that of the first, or the open one when none is named. -/
def branchOfTasks (e : Engine) (taskIds : List Id) : Except BridgeError Id :=
  match taskIds with
  | first :: _ =>
    match e.tasks.get first with
    | none => .error (.notFound first)
    | some t => .ok t.branchId
  | [] =>
    match e.branches.rows.find? fun r => decide (r.2.status = .opened) with
    | some r => .ok r.2.id
    | none => .error (.invalidTransition (ascii "no open branch"))

def priorSeats (e : Engine) (targetNode : Bytes) : Except ApprovalError (List SeatSpec) :=
  match e.latestAttempt targetNode with
  | none => .error (.invalidTransition (ascii "return target has no prior seats"))
  | some b =>
    let seats := ((e.tasks.rows.map Prod.snd).filter fun t => decide (t.branchId = b.id)).map fun t =>
      (⟨t.assignee, t.candidates, t.kind⟩ : SeatSpec)
    if seats = [] then .error (.invalidTransition (ascii "return target has no prior seats")) else .ok seats

end Engine

/-- The effects of an answer, with the aggregate after it; an error drops what was changed. -/
def Answer.effects {α : Type} (f : α → List Effect) (a : Answer α) : Except BridgeError (Engine × List Effect) :=
  match a with
  | (.error e, _) => .error (.ofApproval e)
  | (.ok x, e) => .ok (e, f x)

/-- A command of a user: first the guards of the bridge, then the engine. -/
def applyCommand (e : Engine) (actor : Principal) (cmd : ApprovalCommand)
    (now : ℤ) : Except BridgeError (Engine × List Effect) :=
  let expected := e.inst.revision
  match cmd with
  | .approve taskId comment => do
    e.guardSelfApprove actor taskId
    (e.approve expected taskId actor comment now).effects id
  | .reject taskId comment => do
    e.guardSelfApprove actor taskId
    (e.reject expected taskId actor comment now).effects id
  | .acknowledge taskId => do
    e.guardSelfApprove actor taskId
    (e.acknowledge expected taskId actor now).effects id
  | .transfer taskId recipient => do
    e.guardSelfApprove actor taskId
    (e.transfer expected taskId recipient actor now).effects id
  | .delegate taskId recipient => do
    e.guardSelfApprove actor taskId
    (e.delegate expected taskId recipient actor now).effects id
  | .addSign branchId seats comment => do
    e.guardSignAdmin actor branchId
    (e.addSign expected branchId seats actor comment now).effects Prod.snd
  | .removeSign taskIds => do
    let branchId ← e.branchOfTasks taskIds
    e.guardSignAdmin actor branchId
    (e.removeSign expected branchId taskIds actor now).effects id
  | .returnToNode branchId targetNode comment => do
    e.guardReturnToNode actor branchId
    let seats ← (e.priorSeats targetNode).mapError BridgeError.ofApproval
    match e.returnToNode expected branchId targetNode actor comment now with
    | (.error err, _) => .error (.ofApproval err)
    | (.ok (newBranch, out), e) =>
      -- the new attempt is opened with its seats, so that it cannot be left without any
      (e.openApproval e.inst.revision newBranch seats none now).effects fun a => out ++ a.2.2
  | .withdraw => (e.withdraw expected actor now).effects id
  | .terminate reason => do
    e.guardTerminate actor
    (e.terminate expected actor reason now).effects id

/-! ### Reports -/

inductive NodeOutcome where
  | passed
  | rejected
  deriving DecidableEq

inductive ApprovalOutcome where
  | completed
  | rejected
  | cancelled
  | terminated
  deriving DecidableEq

def nodeOutcomeFor : BranchStatus → Option NodeOutcome
  | .completed => some .passed
  | .rejected => some .rejected
  | _ => none

def terminalOutcome : InstanceStatus → Option ApprovalOutcome
  | .completed => some .completed
  | .rejected => some .rejected
  | .cancelled => some .cancelled
  | .terminated => some .terminated
  | .pending | .running | .faulted => none

def statusLabel : InstanceStatus → Bytes
  | .pending => ascii "PENDING"
  | .running => ascii "RUNNING"
  | .completed => ascii "COMPLETED"
  | .rejected => ascii "REJECTED"
  | .terminated => ascii "TERMINATED"
  | .cancelled => ascii "CANCELLED"
  | .faulted => ascii "FAULTED"

structure Response where
  instanceId : Id
  status : Bytes
  deriving DecidableEq

def responseFor (e : Engine) : Response := ⟨e.inst.id, statusLabel e.inst.status⟩

def commandBranch (e : Engine) : ApprovalCommand → Option Id
  | .approve taskId _ | .reject taskId _ | .acknowledge taskId | .transfer taskId _ | .delegate taskId _ =>
    (e.tasks.get taskId).map Task.branchId
  | .addSign branchId _ _ | .returnToNode branchId _ _ => some branchId
  | .removeSign taskIds => (e.branchOfTasks taskIds).toOption
  | .withdraw | .terminate _ => none

/-! ### Events -/

structure OutboxEvent where
  id : Bytes
  aggregateId : Id
  name : Bytes
  data : EventData
  deriving DecidableEq

def approvalEventTypes : List Bytes :=
  [ascii "com.china-workflow.instance.returned.v1", ascii "com.china-workflow.instance.cancelled.v1",
    ascii "com.china-workflow.instance.terminated.v1", ascii "com.china-workflow.instance.completed.v1",
    ascii "com.china-workflow.instance.rejected.v1", ascii "com.china-workflow.approval.round.passed.v1",
    ascii "com.china-workflow.approval.round.rejected.v1"]

/-- The events among the effects, numbered in their order; a name outside the catalogue is refused. -/
def recordsFrom (approvalId : Id) (revAfter : ℕ) : ℕ → List Effect → Except BridgeError (List OutboxEvent)
  | _, [] => .ok []
  | n, .event name data :: effects =>
    if name ∈ approvalEventTypes then
      (recordsFrom approvalId revAfter (n + 1) effects).map
        (⟨approvalId ++ ascii ":" ++ decimal revAfter ++ ascii ":" ++ decimal n, approvalId, name, data⟩ :: ·)
    else .error (.invalidArgument name)
  | n, _ :: effects => recordsFrom approvalId revAfter n effects

def effectsToRecords (approvalId : Id) (effects : List Effect) (revAfter : ℕ) : Except BridgeError (List OutboxEvent) :=
  recordsFrom approvalId revAfter 0 effects

/-! ### Operations -/

/-- A node of a workflow is entered, and its first round opened. -/
def openNode (e : Engine) (node : Bytes) (task : ApproveTask) (seats : List SeatSpec) (deadline : Option ℤ) (now : ℤ) :
    Except BridgeError (Engine × List Effect) :=
  match e.enterBranch e.inst.revision node none task.mode task.rejectPolicy ⟨task.allowSelfApprove,
    task.signAdmins⟩ now with
  | (.error err, _) => .error (.ofApproval err)
  | (.ok (branchId, out), e) => (e.openApproval e.inst.revision branchId seats deadline now).effects fun a =>
      out ++ a.2.2

/-- The seats whose deadline has come expire one after the other. -/
def expireAll (now : ℤ) : List Id → Engine → Except BridgeError (Engine × List Effect)
  | [], e => .ok (e, [])
  | taskId :: taskIds, e => do
    let (e, out) ← (e.expire e.inst.revision taskId now).effects id
    let (e, rest) ← expireAll now taskIds e
    .ok (e, out ++ rest)

def dueTasks (e : Engine) (now : ℤ) : List Id :=
  (e.tasks.rows.filter fun r => r.2.status.isOpen && r.2.deadline.any fun d => decide (d ≤ now)).map fun r => r.2.id

def openBranchesOf (e : Engine) (taskIds : List Id) : List Id :=
  ((taskIds.filterMap e.tasks.get).filter fun t => (e.branches.get t.branchId).any fun b =>
    decide (b.status = .opened)).map
    Task.branchId

/-- The part of a workflow instance that an approval instance is started from. -/
structure WorkflowRef where
  definitionNs : Bytes
  definitionName : Bytes
  definitionVersion : Bytes
  definitionHash : Option Bytes
  initiator : Option Principal
  deriving DecidableEq

inductive Operation where
  | ensureNodeOpen (wf : WorkflowRef) (node : Bytes) (task : ApproveTask) (deadline : Option ℤ)
  | command (actor : Principal) (service : Option Principal) (cmd : ApprovalCommand) (key : Option Bytes)
  | expireDue
  | finishIfComplete
  | terminate (actor : Principal) (reason : Bytes)

def Operation.key : Operation → Option Bytes
  | .command _ _ _ key => key
  | _ => none

inductive Outcome where
  | nodeOpened
  | applied (response : Response) (node : Option NodeOutcome) (terminal : Option ApprovalOutcome)
  | duplicate (response : Response)
  | expired (count : ℕ) (node : Option NodeOutcome)
  | finished (terminal : Option ApprovalOutcome)
  | terminated
  deriving DecidableEq

/-- What an operation wants to write, with what it will report then. -/
structure Proposal where
  engine : Engine
  events : List OutboxEvent
  outcome : Outcome
  deriving DecidableEq

namespace Operation

variable (resolver : Resolver) (approvalId : Id) (now : ℤ)

def propose (r : Except BridgeError (Engine × List Effect)) (outcome : Engine → Outcome) :
    Except BridgeError (Outcome ⊕ Proposal) :=
  match r with
  | .error err => .error err
  | .ok (e, effects) =>
    match effectsToRecords approvalId effects e.inst.revision with
    | .error err => .error err
    | .ok events => .ok (.inr ⟨e, events, outcome e⟩)

/-- What an operation does with the instance that it has read: it ends, or it wants to write. -/
def plan (op : Operation) (stored : Option Engine) : Except BridgeError (Outcome ⊕ Proposal) :=
  match op with
  | .ensureNodeOpen wf node task deadline =>
    match resolveSeats resolver task with
    | .error err => .error err
    | .ok seats =>
      match stored with
      | some e =>
        if e.branches.rows.any fun r => decide (r.2.node = node ∧ r.2.status = .opened) then .ok (.inl .nodeOpened)
        else propose approvalId (openNode e node task seats deadline now) fun _ => .nodeOpened
      | none =>
        match Engine.start ⟨approvalId, wf.definitionNs, wf.definitionName, wf.definitionVersion,
          wf.definitionHash.getD [], wf.initiator.getD anonymous⟩ now with
        | .error err => .error (.ofApproval err)
        | .ok e => propose approvalId (openNode e node task seats deadline now) fun _ => .nodeOpened
  | .command actor service cmd _ =>
    match stored with
    | none => .error (.notFound approvalId)
    | some e =>
      let applied := (applyCommand (e.setActingService service) actor cmd now).map fun r =>
        (r.1.setActingService none, r.2)
      propose approvalId applied fun e' => .applied (responseFor e')
        (((commandBranch e cmd).bind e'.branches.get).bind fun b => nodeOutcomeFor b.status)
          (terminalOutcome e'.inst.status)
  | .expireDue =>
    match stored with
    | none => .error (.notFound approvalId)
    | some e =>
      let due := dueTasks e now
      if due = [] then .ok (.inl (.expired 0 none))
      else propose approvalId (expireAll now due e) fun e' => .expired due.length
        (((openBranchesOf e due).filterMap e'.branches.get).findSome? fun b => nodeOutcomeFor b.status)
  | .finishIfComplete =>
    match stored with
    | none => .error (.notFound approvalId)
    | some e =>
      if e.inst.status = .completed ∨ e.anyOpenBranch = true ∨
        e.finalStatus ≠ some .completed then .ok (.inl (.finished none))
      else propose approvalId ((e.finish e.inst.revision now).effects id) fun e' =>
        .finished (terminalOutcome e'.inst.status)
  | .terminate actor reason =>
    match stored with
    | none => .error (.notFound approvalId)
    | some e =>
      match e.guardTerminate actor with
      | .error err => .error err
      | .ok () => propose approvalId ((e.terminate e.inst.revision actor reason now).effects id) fun _ => .terminated

end Operation

end Coord.Approval
