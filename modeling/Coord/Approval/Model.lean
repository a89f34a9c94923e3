import Coord.Raft.TypeConfig

/-!
# Approval instances: the data

An approval instance has branches, the runs of its nodes; a branch has rounds of votes, and a round has seats.  Texts
are their UTF-8 bytes, whose order is the order of the maps.

* `Instance`, `Branch`, `Task`, `Round` — the entities and their states;
* `Effect` — what a command changed, and the events it emits;
* `ApprovalError` — why a command is refused.
-/

namespace Coord.Approval

/-- The id of an instance, a branch, a seat or a round. -/
abbrev Id := Bytes

/-- Who starts an instance, votes, or is asked to. -/
abbrev Principal := Bytes

def approvalEngineVersion : Bytes := ascii "v2"

/-! ### Instances -/

inductive InstanceStatus where
  | pending
  | running
  | completed
  | rejected
  | terminated
  | cancelled
  | faulted
  deriving DecidableEq

namespace InstanceStatus

def isTerminal : InstanceStatus → Bool
  | completed | rejected | terminated | cancelled | faulted => true
  | pending | running => false

def debug : InstanceStatus → Bytes
  | pending => ascii "Pending"
  | running => ascii "Running"
  | completed => ascii "Completed"
  | rejected => ascii "Rejected"
  | terminated => ascii "Terminated"
  | cancelled => ascii "Cancelled"
  | faulted => ascii "Faulted"

end InstanceStatus

structure AuditEntry where
  at_ : ℤ
  action : Bytes
  branch : Option Id
  by_ : Principal
  detail : Bytes
  actingService : Option Principal
  deriving DecidableEq

structure ReturnRecord where
  fromNode : Bytes
  toNode : Bytes
  by_ : Principal
  comment : Option Bytes
  at_ : ℤ
  deriving DecidableEq

/-- The root of the aggregate; `revision` goes up with every change. -/
structure Instance where
  id : Id
  definitionNs : Bytes
  definitionName : Bytes
  definitionVersion : Bytes
  definitionHash : Bytes
  engineVersion : Bytes
  initiator : Principal
  status : InstanceStatus
  rootBranchId : Option Id
  revision : ℕ
  jumpCount : ℕ
  audit : List AuditEntry
  returns : List ReturnRecord
  createdAt : ℤ
  updatedAt : ℤ
  deriving DecidableEq

/-! ### Branches -/

inductive BranchStatus where
  | opened
  | completed
  | rejected
  | returned
  | superseded
  | cancelled
  | terminated
  deriving DecidableEq

def BranchStatus.debug : BranchStatus → Bytes
  | opened => ascii "Open"
  | completed => ascii "Completed"
  | rejected => ascii "Rejected"
  | returned => ascii "Returned"
  | superseded => ascii "Superseded"
  | cancelled => ascii "Cancelled"
  | terminated => ascii "Terminated"

/-- When a branch passes: all approve, any does, `n` do, or the share `num / den` does. -/
inductive JoinPolicy where
  | all
  | any
  | quorum (n : ℕ)
  | ratio (num den : ℕ)
  deriving DecidableEq

/-- When a branch fails: at the first rejection, or once all have voted. -/
inductive RejectPolicy where
  | anyReject
  | onExhausted
  deriving DecidableEq

structure ApprovalPolicy where
  allowSelfApprove : Bool
  signAdmins : List Principal
  deriving DecidableEq

def ApprovalPolicy.default : ApprovalPolicy := ⟨false, []⟩

structure Branch where
  id : Id
  instanceId : Id
  parentBranchId : Option Id
  node : Bytes
  attempt : ℕ
  status : BranchStatus
  join : JoinPolicy
  reject : RejectPolicy
  policy : ApprovalPolicy
  roundIds : List Id
  createdAt : ℤ
  closedAt : Option ℤ
  deriving DecidableEq

/-! ### Seats -/

inductive TaskKind where
  | approval
  | readAck
  deriving DecidableEq

inductive TaskStatus where
  | created
  | claimed
  | completed
  | rejected
  | cancelled
  | expired
  deriving DecidableEq

namespace TaskStatus

/-- Only an open seat can be voted on, assigned or taken away. -/
def isOpen : TaskStatus → Bool
  | created | claimed => true
  | completed | rejected | cancelled | expired => false

def debug : TaskStatus → Bytes
  | created => ascii "Created"
  | claimed => ascii "Claimed"
  | completed => ascii "Completed"
  | rejected => ascii "Rejected"
  | cancelled => ascii "Cancelled"
  | expired => ascii "Expired"

end TaskStatus

structure Delegation where
  delegator : Principal
  delegate : Principal
  grantedAt : ℤ
  deriving DecidableEq

inductive Decision where
  | approve
  | reject
  deriving DecidableEq

structure VoteRecord where
  roundId : Id
  decision : Decision
  actor : Principal
  onBehalfOf : Option Principal
  comment : Option Bytes
  at_ : ℤ
  actingService : Option Principal
  deriving DecidableEq

structure Task where
  id : Id
  branchId : Id
  roundId : Id
  kind : TaskKind
  status : TaskStatus
  assignee : Option Principal
  candidates : List Principal
  deadline : Option ℤ
  delegation : Option Delegation
  transferredFrom : List Principal
  votes : List VoteRecord
  createdAt : ℤ
  updatedAt : ℤ
  deriving DecidableEq

structure SeatSpec where
  assignee : Option Principal
  candidates : List Principal
  kind : TaskKind
  deriving DecidableEq

namespace SeatSpec

def approver (p : Principal) : SeatSpec := ⟨some p, [], .approval⟩

def reader (p : Principal) : SeatSpec := ⟨some p, [], .readAck⟩

def pool (candidates : List Principal) : SeatSpec := ⟨none, candidates, .approval⟩

end SeatSpec

/-! ### Rounds -/

inductive RoundStatus where
  | opened
  | passed
  | rejected
  | superseded
  | cancelled
  deriving DecidableEq

/-- A round of votes in a branch; it keeps the counts only. -/
structure Round where
  id : Id
  branchId : Id
  number : ℕ
  status : RoundStatus
  totalCount : ℕ
  completedCount : ℕ
  rejectedCount : ℕ
  openedAt : ℤ
  closedAt : Option ℤ
  deriving DecidableEq

/-! ### Effects and errors -/

inductive AssignKind where
  | claim
  | transfer
  | delegate
  deriving DecidableEq

inductive EventValue where
  | text (t : Bytes)
  | number (n : ℕ)
  deriving DecidableEq

abbrev EventData := List (Bytes × EventValue)

inductive Effect where
  | instanceStatus (before after : InstanceStatus)
  | branchCreated (id : Id) (node : Bytes) (attempt : ℕ)
  | branchStatus (id : Id) (before after : BranchStatus)
  | taskCreated (id branch round : Id) (kind : TaskKind) (assignee : Option Principal) (candidates : List Principal)
  | taskStatus (id : Id) (before after : TaskStatus)
  | taskAssigned (id : Id) (assignee : Principal) (kind : AssignKind)
  | roundOpened (id branch : Id) (number : ℕ)
  | roundCounted (id : Id) (total completed rejected : ℕ)
  | roundStatus (id : Id) (before after : RoundStatus)
  | event (name : Bytes) (data : EventData)
  deriving DecidableEq

inductive ApprovalError where
  | notFound (text : Bytes)
  | invalidTransition (text : Bytes)
  | notAuthorized (text : Bytes)
  | invalidArgument (text : Bytes)
  | staleRevision (expected actual : ℕ)
  deriving DecidableEq

/-! ### The aggregate -/

/-- The instance with all its entities; `nodeAttempts` counts the entries into each node, `seq` the ids given so far,
and `actingService` is the service that acts for the user while a command runs. -/
structure Engine where
  inst : Instance
  branches : Lib.Table Id Branch
  tasks : Lib.Table Id Task
  rounds : Lib.Table Id Round
  nodeAttempts : Lib.Table Bytes ℕ
  seq : ℕ
  actingService : Option Principal
  deriving DecidableEq

end Coord.Approval
