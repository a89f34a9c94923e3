import Coord.Approval.Model

/-!
# The approval engine

The commands on an approval instance.  A command checks the expected revision and the state of what it names, changes
the aggregate, and answers with what it changed.  Time and the id of the instance are given by the caller.
-/

namespace Coord.Approval

/-- How often an instance can be returned to a node. -/
def maxJumps : ℕ := 20

/-- A longer instance id would not fit the keys of the store. -/
def maxInstanceIdLen : ℕ := 128

structure StartSpec where
  id : Bytes
  definitionNs : Bytes
  definitionName : Bytes
  definitionVersion : Bytes
  definitionHash : Bytes
  initiator : Principal
  deriving DecidableEq

/-- The fields that must not be empty, with their names. -/
def StartSpec.required (spec : StartSpec) : List (Bytes × Bytes) :=
  [(ascii "id", spec.id), (ascii "definition_ns", spec.definitionNs), (ascii "definition_name", spec.definitionName),
    (ascii "definition_version", spec.definitionVersion), (ascii "definition_hash", spec.definitionHash),
    (ascii "initiator", spec.initiator)]

def paddedNumber (n : ℕ) : Bytes :=
  let digits := (Nat.digits 10 n).map fun d => Fin.ofNat 256 (48 + d)
  (digits ++ List.replicate (4 - digits.length) 48).reverse

def decimal (n : ℕ) : Bytes := ascii (toString n)

/-- The last of the elements with the greatest key. -/
def lastMaxBy {α β : Type} [LE β] [DecidableLE β] (key : α → β) (l : List α) : Option α :=
  l.foldl (fun best a =>
    match best with
    | none => some a
    | some b => if key b ≤ key a then some a else some b) none

lemma mem_of_lastMaxBy {α β : Type} [LE β] [DecidableLE β] {key : α → β} {l : List α} {a : α}
    (h : lastMaxBy key l = some a) : a ∈ l := by
  suffices hfold : ∀ (l : List α) (best : Option α), l.foldl (fun best a => match best with
      | none => some a
      | some b => if key b ≤ key a then some a else some b) best = some a → a ∈ l ∨ best = some a from
    (hfold l none h).resolve_right (by simp)
  intro l
  induction l with
  | nil => exact fun best h => .inr h
  | cons x l ih =>
    intro best h
    rcases ih _ h with hmem | hbest
    · exact .inl (List.mem_cons_of_mem _ hmem)
    · cases best with
      | none => exact .inl (Option.some.inj hbest ▸ List.mem_cons_self)
      | some b =>
        dsimp only at hbest
        split_ifs at hbest
        · exact .inl (Option.some.inj hbest ▸ List.mem_cons_self)
        · exact .inr hbest

/-- The answer of a command, and the aggregate after it. -/
abbrev Answer (α : Type) := Except ApprovalError α × Engine

namespace Engine

def start (spec : StartSpec) (now : ℤ) : Except ApprovalError Engine :=
  match spec.required.find? fun p => decide (p.2 = []) with
  | some p => .error (.invalidArgument p.1)
  | none =>
    -- a slash would be a level of its own in the keys of the store
    if 47 ∈ spec.id ∨ maxInstanceIdLen < spec.id.length then .error (.invalidArgument (ascii "id"))
    else .ok {
      inst := {
        id := spec.id
        definitionNs := spec.definitionNs
        definitionName := spec.definitionName
        definitionVersion := spec.definitionVersion
        definitionHash := spec.definitionHash
        engineVersion := approvalEngineVersion
        initiator := spec.initiator
        status := .pending
        rootBranchId := none
        revision := 0
        jumpCount := 0
        audit := []
        returns := []
        createdAt := now
        updatedAt := now }
      branches := .empty
      tasks := .empty
      rounds := .empty
      nodeAttempts := .empty
      seq := 0
      actingService := none }

def setActingService (self : Engine) (service : Option Principal) : Engine := { self with actingService := service }

/-! ### Helpers -/

/-- The `n`-th id, with the label of its kind. -/
def idOf (instanceId label : Bytes) (n : ℕ) : Id := instanceId ++ ascii ":" ++ label ++ ascii "-" ++ paddedNumber n

def gen (self : Engine) (label : Bytes) : Id × Engine :=
  (idOf self.inst.id label (self.seq + 1), { self with seq := self.seq + 1 })

def touch (self : Engine) (now : ℤ) : Engine :=
  { self with inst := { self.inst with revision := self.inst.revision + 1, updatedAt := now } }

def guard (self : Engine) (expected : ℕ) : Except ApprovalError Unit :=
  if self.inst.revision ≠ expected then .error (.staleRevision expected self.inst.revision)
  else if self.inst.status.isTerminal then .error (.invalidTransition (ascii "instance is " ++ self.inst.status.debug))
  else .ok ()

def pushAudit (self : Engine) (now : ℤ) (action : Bytes) (branch : Option Id) (by_ : Principal)
    (detail : Bytes) : Engine :=
  { self with inst := { self.inst with audit := self.inst.audit ++ [⟨now, action, branch, by_, detail,
    self.actingService⟩] } }

def anyOpenBranch (self : Engine) : Bool := self.branches.rows.any fun r => decide (r.2.status = .opened)

def openRound (self : Engine) (branchId : Id) : Option Round :=
  (self.rounds.rows.find? fun r => decide (r.2.branchId = branchId ∧ r.2.status = .opened)).map Prod.snd

def createBranch (self : Engine) (node : Bytes) (parent : Option Id) (join : JoinPolicy) (reject : RejectPolicy)
    (policy : ApprovalPolicy) (now : ℤ) : Id × Engine × List Effect :=
  let attempt := (self.nodeAttempts.get node).getD 0 + 1
  let (id, self) := { self with nodeAttempts := self.nodeAttempts.insert node attempt }.gen (ascii "branch")
  let branch : Branch := {
    id := id
    instanceId := self.inst.id
    parentBranchId := parent
    node := node
    attempt := attempt
    status := .opened
    join := join
    reject := reject
    policy := policy
    roundIds := []
    createdAt := now
    closedAt := none }
  (id, { self with
    branches := self.branches.insert id branch
    inst := { self.inst with rootBranchId := self.inst.rootBranchId.or (some id) } },
    [.branchCreated id node attempt])

/-- Seats for a round; a seat with neither an assignee nor candidates is left out. -/
def addSeats (branchId roundId : Id) (deadline : Option ℤ) (now : ℤ) : List SeatSpec → Engine →
    List Id × Engine × List Effect
  | [], self => ([], self, [])
  | s :: seats, self =>
    if s.assignee = none ∧ s.candidates = [] then addSeats branchId roundId deadline now seats self
    else
      let (tid, self) := self.gen (ascii "task")
      let task : Task := {
        id := tid
        branchId := branchId
        roundId := roundId
        kind := s.kind
        status := .created
        assignee := s.assignee
        candidates := s.candidates
        deadline := deadline
        delegation := none
        transferredFrom := []
        votes := []
        createdAt := now
        updatedAt := now }
      let (ids, self, out) :=
        addSeats branchId roundId deadline now seats { self with tasks := self.tasks.insert tid task }
      (tid :: ids, self, .taskCreated tid branchId roundId s.kind s.assignee s.candidates :: out)

def cancelTasks (now : ℤ) : List Id → Engine → Engine × List Effect
  | [], self => (self, [])
  | id :: ids, self =>
    match self.tasks.get id with
    | none => cancelTasks now ids self
    | some t =>
      if t.status.isOpen then
        let (self, out) := cancelTasks now ids
          { self with tasks := self.tasks.insert id { t with status := .cancelled, updatedAt := now } }
        (self, .taskStatus id t.status .cancelled :: out)
      else cancelTasks now ids self

/-- The ids of the open seats that satisfy `p`. -/
def openTasks (self : Engine) (p : Task → Bool) : List Id :=
  ((self.tasks.rows.filter fun r => p r.2 && r.2.status.isOpen).map fun r => r.2.id)

def cancelPendingTasks (self : Engine) (roundId : Id) (now : ℤ) : Engine × List Effect :=
  cancelTasks now (self.openTasks fun t => decide (t.roundId = roundId)) self

def closeRounds (target : RoundStatus) (now : ℤ) : List Id → Engine → Engine × List Effect
  | [], self => (self, [])
  | id :: ids, self =>
    match self.rounds.get id with
    | none => closeRounds target now ids self
    | some r =>
      let (self, out) := closeRounds target now ids
        { self with rounds := self.rounds.insert id { r with status := target, closedAt := some now } }
      (self, .roundStatus id r.status target :: out)

/-- All open rounds of a branch are closed, without a verdict. -/
def closeRoundsOfBranch (self : Engine) (branchId : Id) (target : RoundStatus) (now : ℤ) : Engine × List Effect :=
  closeRounds target now ((self.rounds.rows.filter fun r => decide (r.2.branchId = branchId ∧ r.2.status = .opened)).map
    fun r => r.2.id) self

/-- A branch is closed without a verdict; the time of its closing is written once. -/
def setBranchStatus (self : Engine) (branchId : Id) (target : BranchStatus) (now : ℤ) : Engine × List Effect :=
  match self.branches.get branchId with
  | none => (self, [])
  | some b =>
    if b.status = target then (self, [])
    else ({ self with branches :=
        self.branches.insert branchId { b with status := target, closedAt := b.closedAt.or (some now) } },
      [.branchStatus b.id b.status target])

/-- A branch is closed with a verdict; when a root branch is rejected, so is the instance. -/
def closeBranch (self : Engine) (branchId : Id) (target : BranchStatus) (now : ℤ) : Engine × List Effect :=
  match self.branches.get branchId with
  | none => (self, [])
  | some b =>
    let closed := { self with branches := self.branches.insert b.id { b with status := target, closedAt := some now } }
    if b.parentBranchId = none ∧ target = .rejected ∧ self.inst.status ≠ .rejected then
      ({ closed with inst := { self.inst with status := .rejected } },
        [.branchStatus b.id b.status target, .instanceStatus self.inst.status .rejected,
          .event (ascii "com.china-workflow.instance.rejected.v1") [(ascii "instance_id", .text self.inst.id)]])
    else (closed, [.branchStatus b.id b.status target])

/-- Each open branch is cancelled, with its seats and rounds. -/
def cancelBranches (target : BranchStatus) (now : ℤ) : List Id → Engine → Engine × List Effect
  | [], self => (self, [])
  | bid :: bids, self =>
    let (self, tasksOut) := cancelTasks now (self.openTasks fun t => decide (t.branchId = bid)) self
    let (self, roundsOut) := self.closeRoundsOfBranch bid .cancelled now
    let (self, branchOut) := self.setBranchStatus bid target now
    let (self, out) := cancelBranches target now bids self
    (self, tasksOut ++ roundsOut ++ branchOut ++ out)

def cancelOpenBranches (self : Engine) (target : BranchStatus) (now : ℤ) : Engine × List Effect :=
  cancelBranches target now ((self.branches.rows.filter fun r => decide (r.2.status = .opened)).map fun r =>
    r.2.id) self

end Engine

/-! ### The verdict of a round -/

def Engine.approvals (self : Engine) (roundId : Id) : List Task :=
  (self.tasks.rows.map Prod.snd).filter fun t => decide (t.roundId = roundId ∧ t.kind = .approval)

def totalCount (approvals : List Task) : ℕ :=
  approvals.countP fun t => !decide (t.status = .cancelled ∨ t.status = .expired)

def completedCount (approvals : List Task) : ℕ := approvals.countP fun t => decide (t.status = .completed)

def rejectedCount (approvals : List Task) : ℕ := approvals.countP fun t => decide (t.status = .rejected)

def JoinPolicy.passes (join : JoinPolicy) (total completed : ℕ) : Bool :=
  match join with
  | .all => false
  | .any => decide (1 ≤ completed)
  | .quorum n => decide (n ≤ completed)
  | .ratio num den => decide (total * num ≤ completed * den)

/-- The verdict, if there is one.  A round that never had an approval seat passes; one that lost them all stays open. -/
def verdict (branch : Branch) (approvals : List Task) : Option RoundStatus :=
  let total := totalCount approvals
  let completed := completedCount approvals
  let rejected := rejectedCount approvals
  if branch.reject = .anyReject ∧ 0 < rejected then some .rejected
  else if approvals = [] then some .passed
  else if 0 < total ∧ total ≤ completed then some .passed
  else if 0 < total then
    if branch.join.passes total completed then some .passed
    else if total ≤ completed + rejected then some .rejected
    else none
  else none

def Decision.status : Decision → TaskStatus
  | .approve => .completed
  | .reject => .rejected

namespace Engine

/-- A round gets its verdict: its open seats are cancelled and its branch is closed. -/
def settle (self : Engine) (roundId : Id) (round : Round) (target : RoundStatus) (branchTo : BranchStatus)
    (event : Bytes) (now : ℤ) : Engine × List Effect :=
  let (settled, tasksOut) := Engine.cancelPendingTasks
    { self with rounds := self.rounds.insert round.id { round with status := target, closedAt := some now } } roundId now
  let (settled, branchOut) := settled.closeBranch round.branchId branchTo now
  (settled, .roundStatus round.id .opened target :: tasksOut ++ branchOut ++
    [.event event [(ascii "instance_id", .text self.inst.id), (ascii "branch_id", .text round.branchId),
      (ascii "round_id", .text round.id), (ascii "total", .number round.totalCount),
      (ascii "completed", .number round.completedCount), (ascii "rejected", .number round.rejectedCount)]])

def countRound (self : Engine) (round : Round) : Round :=
  { round with
    totalCount := Approval.totalCount (self.approvals round.id)
    completedCount := Approval.completedCount (self.approvals round.id)
    rejectedCount := Approval.rejectedCount (self.approvals round.id) }

/-- The counts of an open round, and what follows from them. -/
def recount (self : Engine) (roundId : Id) (now : ℤ) : Engine × List Effect :=
  match self.rounds.get roundId with
  | none => (self, [])
  | some round =>
    if round.status ≠ .opened then (self, [])
    else match self.branches.get round.branchId with
    | none => (self, [])
    | some branch =>
      if branch.status ≠ .opened then (self, [])
      else
        let counted := self.countRound round
        let out := .roundCounted round.id counted.totalCount counted.completedCount counted.rejectedCount
        match verdict branch (self.approvals round.id) with
        | some .passed =>
          let (self, settled) := self.settle roundId counted .passed .completed
            (ascii "com.china-workflow.approval.round.passed.v1") now
          (self, out :: settled)
        | some .rejected =>
          let (self, settled) := self.settle roundId counted .rejected .rejected
            (ascii "com.china-workflow.approval.round.rejected.v1") now
          (self, out :: settled)
        | _ => ({ self with rounds := self.rounds.insert round.id counted }, [out])

/-! ### Checks -/

def requireOpenBranch (self : Engine) (branchId : Id) : Except ApprovalError Branch :=
  match self.branches.get branchId with
  | none => .error (.notFound branchId)
  | some b =>
    if b.status ≠ .opened then .error (.invalidTransition (ascii "branch " ++ b.id ++ ascii " is " ++ b.status.debug))
    else .ok b

def requireTask (self : Engine) (taskId : Id) : Except ApprovalError Task :=
  match self.tasks.get taskId with
  | none => .error (.notFound taskId)
  | some t => .ok t

/-- A seat that is not open: what is wrong with it. -/
def notOpen (t : Task) : ApprovalError := .invalidTransition (ascii "task " ++ t.id ++ ascii " is " ++ t.status.debug)

/-- Who may act on a seat: its delegate, its assignee, or a candidate while it has no assignee.  A delegate acts for the
one who delegated. -/
def actorCanAct (t : Task) (actor : Principal) : Except ApprovalError (Option Principal) :=
  match t.delegation.filter fun d => decide (d.delegate = actor) with
  | some d => .ok (some d.delegator)
  | none =>
    match t.assignee with
    | some a =>
      if a = actor then .ok none
      else .error (.notAuthorized (ascii "task " ++ t.id ++ ascii " is assigned to another"))
    | none =>
      if actor ∈ t.candidates then .ok none
      else .error (.notAuthorized (ascii "task " ++ t.id ++ ascii " is not open to " ++ actor))

/-! ### Commands -/

/-- A node is entered; there is one open branch at most. -/
def enterBranch (self : Engine) (expected : ℕ) (node : Bytes) (parent : Option Id) (join : JoinPolicy)
    (reject : RejectPolicy) (policy : ApprovalPolicy) (now : ℤ) : Answer (Id × List Effect) :=
  match self.guard expected with
  | .error e => (.error e, self)
  | .ok () =>
    if self.anyOpenBranch then (.error (.invalidTransition (ascii "another branch is open")), self)
    else
      let (self, started) :=
        if self.inst.status = .pending then
          ({ self with inst := { self.inst with status := .running } }, [.instanceStatus .pending .running])
        else (self, [])
      let (id, self, out) := self.createBranch node parent join reject policy now
      let attempt := ((self.branches.get id).map Branch.attempt).getD 0
      let self := self.pushAudit now (ascii "enter_branch") (some id) (ascii "engine")
        (ascii "node=" ++ node ++ ascii " attempt=" ++ decimal attempt)
      (.ok (id, started ++ out), self.touch now)

/-- A round of votes is opened in a branch that has none. -/
def openApproval (self : Engine) (expected : ℕ) (branchId : Id) (seats : List SeatSpec) (deadline : Option ℤ)
    (now : ℤ) :
    Answer (Id × List Id × List Effect) :=
  match self.guard expected >>= fun _ => self.requireOpenBranch branchId with
  | .error e => (.error e, self)
  | .ok branch =>
    if (self.openRound branch.id).isSome then
      (.error (.invalidTransition (ascii "round already open; use add_sign for more seats")), self)
    else
      let number := (self.rounds.rows.countP fun r => decide (r.2.branchId = branch.id)) + 1
      let (rid, self) := self.gen (ascii "round")
      let round : Round := {
        id := rid
        branchId := branch.id
        number := number
        status := .opened
        totalCount := 0
        completedCount := 0
        rejectedCount := 0
        openedAt := now
        closedAt := none }
      let self := { self with rounds := self.rounds.insert rid round }
      match self.branches.get branchId with
      | none => (.error (.notFound branchId), self)
      | some b =>
        let self := { self with branches := self.branches.insert branchId { b with roundIds := b.roundIds ++ [rid] } }
        let (ids, self, seatsOut) := addSeats branch.id rid deadline now seats self
        let (self, out) := self.recount rid now
        (.ok (rid, ids, .roundOpened rid branch.id number :: seatsOut ++ out), self.touch now)

/-- Seats are added to the open round of a branch. -/
def addSign (self : Engine) (expected : ℕ) (branchId : Id) (seats : List SeatSpec) (by_ : Principal)
    (comment : Option Bytes) (now : ℤ) : Answer (List Id × List Effect) :=
  match self.guard expected >>= fun _ => self.requireOpenBranch branchId with
  | .error e => (.error e, self)
  | .ok branch =>
    match self.openRound branch.id with
    | none => (.error (.invalidTransition (ascii "no open round to add seats")), self)
    | some round =>
      let (ids, self, seatsOut) := addSeats branch.id round.id none now seats self
      let (self, out) := self.recount round.id now
      let self := self.pushAudit now (ascii "add_sign") (some branch.id) by_
        (ascii "seats=" ++ decimal ids.length ++ ascii " comment=" ++ comment.getD [])
      (.ok (ids, seatsOut ++ out), self.touch now)

/-- The targets of `removeSign` are seats of the open round. -/
def checkTargets (self : Engine) (roundId : Id) : List Id → Except ApprovalError Unit
  | [] => .ok ()
  | tid :: tids =>
    match self.tasks.get tid with
    | none => .error (.notFound tid)
    | some t =>
      if t.roundId ≠ roundId then
        .error (.invalidArgument (ascii "task " ++ t.id ++ ascii " is not in the open round"))
      else self.checkTargets roundId tids

/-- Open seats are taken away; seats that are no longer open are skipped. -/
def removeSign (self : Engine) (expected : ℕ) (branchId : Id) (taskIds : List Id) (by_ : Principal) (now : ℤ) :
    Answer (List Effect) :=
  match self.guard expected with
  | .error e => (.error e, self)
  | .ok () =>
    if ¬ taskIds.Nodup then (.error (.invalidArgument (ascii "task_ids")), self)
    else match self.requireOpenBranch branchId with
    | .error e => (.error e, self)
    | .ok branch =>
      match self.openRound branch.id with
      | none => (.error (.invalidTransition (ascii "no open round to remove seats")), self)
      | some round =>
        match self.checkTargets round.id taskIds with
        | .error e => (.error e, self)
        | .ok () =>
          if taskIds ≠ [] ∧ ¬ taskIds.any (fun tid => ((self.tasks.get tid).map fun t =>
            t.status.isOpen).getD false) then
            (.ok [], self)
          else
            let (self, cancelled) := cancelTasks now taskIds self
            let (self, out) := self.recount round.id now
            let self := self.pushAudit now (ascii "remove_sign") (some branch.id) by_
              (ascii "seats=" ++ decimal cancelled.length)
            (.ok (cancelled ++ out), self.touch now)

def claim (self : Engine) (expected : ℕ) (taskId : Id) (principal : Principal) (now : ℤ) : Answer (List Effect) :=
  match self.guard expected >>= fun _ => self.requireTask taskId with
  | .error e => (.error e, self)
  | .ok t =>
    if ¬ t.status.isOpen then (.error (notOpen t), self)
    else if t.assignee.isSome then
      (.error (.invalidTransition (ascii "task " ++ t.id ++ ascii " already assigned")), self)
    else if principal ∉ t.candidates then
      (.error (.notAuthorized (principal ++ ascii " is not a candidate of " ++ t.id)), self)
    else
      let self := { self with
        tasks := self.tasks.insert t.id { t with assignee := some principal, status := .claimed, updatedAt := now } }
      (.ok [.taskAssigned t.id principal .claim, .taskStatus t.id .created .claimed], self.touch now)

/-- A vote; the seat is closed by it, and a seat without an assignee goes to the voter. -/
def vote (self : Engine) (expected : ℕ) (taskId : Id) (actor : Principal) (decision : Decision) (comment : Option Bytes)
    (now : ℤ) : Answer (List Effect) :=
  match self.guard expected >>= fun _ => self.requireTask taskId with
  | .error e => (.error e, self)
  | .ok t =>
    if t.kind ≠ .approval then
      (.error (.invalidTransition (ascii "task " ++ t.id ++ ascii " is not an approval task")), self)
    else if ¬ t.status.isOpen then (.error (notOpen t), self)
    else match actorCanAct t actor with
    | .error e => (.error e, self)
    | .ok onBehalfOf =>
      let record : VoteRecord := ⟨t.roundId, decision, actor, onBehalfOf, comment, now, self.actingService⟩
      let voted := { t with
        assignee := t.assignee.or (some actor)
        votes := t.votes ++ [record]
        status := decision.status
        updatedAt := now }
      let claimed := if t.assignee = none then [.taskAssigned t.id actor .claim] else []
      let (self, out) := { self with tasks := self.tasks.insert t.id voted }.recount t.roundId now
      (.ok (claimed ++ .taskStatus t.id t.status decision.status :: out), self.touch now)

def approve (self : Engine) (expected : ℕ) (taskId : Id) (actor : Principal) (comment : Option Bytes) (now : ℤ) :
    Answer (List Effect) := self.vote expected taskId actor .approve comment now

def reject (self : Engine) (expected : ℕ) (taskId : Id) (actor : Principal) (comment : Option Bytes) (now : ℤ) :
    Answer (List Effect) := self.vote expected taskId actor .reject comment now

/-- A reader has read; no round counts it. -/
def acknowledge (self : Engine) (expected : ℕ) (taskId : Id) (actor : Principal) (now : ℤ) : Answer (List Effect) :=
  match self.guard expected >>= fun _ => self.requireTask taskId with
  | .error e => (.error e, self)
  | .ok t =>
    if t.kind ≠ .readAck then
      (.error (.invalidTransition (ascii "task " ++ t.id ++ ascii " is not a read-ack task")), self)
    else if ¬ t.status.isOpen then (.error (notOpen t), self)
    else match actorCanAct t actor with
    | .error e => (.error e, self)
    | .ok _ =>
      let read := { t with assignee := t.assignee.or (some actor), status := .completed, updatedAt := now }
      (.ok [.taskStatus t.id t.status .completed], { self with tasks := self.tasks.insert t.id read }.touch now)

/-- Who a seat is transferred from: its assignee, or a candidate while it has none. -/
def transferSource (t : Task) (by_ : Principal) : Except ApprovalError Principal :=
  match t.assignee with
  | some a =>
    if a = by_ then .ok a
    else .error (.notAuthorized (by_ ++ ascii " is not the assignee (" ++ a ++ ascii ") of " ++ t.id))
  | none =>
    if by_ ∈ t.candidates then .ok by_
    else .error (.notAuthorized (by_ ++ ascii " is not a candidate of " ++ t.id))

/-- A seat is given to another; a delegation ends with it. -/
def transfer (self : Engine) (expected : ℕ) (taskId : Id) (recipient by_ : Principal)
    (now : ℤ) : Answer (List Effect) :=
  match self.guard expected >>= fun _ => self.requireTask taskId with
  | .error e => (.error e, self)
  | .ok t =>
    if ¬ t.status.isOpen then (.error (notOpen t), self)
    else if t.kind ≠ .approval then
      (.error (.invalidTransition (ascii "only approval tasks can be transferred")), self)
    else match transferSource t by_ with
    | .error e => (.error e, self)
    | .ok source =>
      let moved := { t with
        transferredFrom := t.transferredFrom ++ [source]
        assignee := some recipient
        delegation := none
        status := .claimed
        updatedAt := now }
      let claimed := if t.status = .created then [.taskStatus t.id .created .claimed] else []
      (.ok (claimed ++ [.taskAssigned t.id recipient .transfer]),
        { self with tasks := self.tasks.insert t.id moved }.touch now)

def delegate (self : Engine) (expected : ℕ) (taskId : Id) (recipient by_ : Principal)
    (now : ℤ) : Answer (List Effect) :=
  match self.guard expected >>= fun _ => self.requireTask taskId with
  | .error e => (.error e, self)
  | .ok t =>
    if ¬ t.status.isOpen then (.error (notOpen t), self)
    else if t.assignee ≠ some by_ then
      (.error (.notAuthorized (ascii "only the assignee can delegate task " ++ t.id)), self)
    else
      let delegated : Task := { t with delegation := some ⟨by_, recipient, now⟩, updatedAt := now }
      (.ok [.taskAssigned t.id recipient .delegate], { self with tasks := self.tasks.insert t.id delegated }.touch now)

def latestAttempt (self : Engine) (node : Bytes) : Option Branch :=
  lastMaxBy Branch.attempt ((self.branches.rows.map Prod.snd).filter fun b => decide (b.node = node))

/-- The open seats of the open round of a branch are cancelled. -/
def cancelOpenRound (self : Engine) (branchId : Id) (now : ℤ) : Engine × List Effect :=
  match self.openRound branchId with
  | some round => self.cancelPendingTasks round.id now
  | none => (self, [])

def supersede (self : Engine) (latest : Option Branch) (now : ℤ) : Engine × List Effect :=
  match latest with
  | some b => self.setBranchStatus b.id .superseded now
  | none => (self, [])

/-- The instance goes back to a node it has been at: the open branch is closed, the last attempt at the node is
superseded, and a new one is opened with its policies. -/
def returnToNode (self : Engine) (expected : ℕ) (branchId : Id) (targetNode : Bytes) (by_ : Principal)
    (comment : Option Bytes) (now : ℤ) : Answer (Id × List Effect) :=
  match self.guard expected >>= fun _ => self.requireOpenBranch branchId with
  | .error e => (.error e, self)
  | .ok branch =>
    if ¬ self.nodeAttempts.has targetNode then
      (.error (.invalidArgument (ascii "target node " ++ targetNode ++
        ascii " is not in the reached-node whitelist")), self)
    else if maxJumps ≤ self.inst.jumpCount then
      (.error (.invalidArgument (ascii "jump limit " ++ decimal maxJumps ++ ascii " reached")), self)
    else
      let (self, tasksOut) := self.cancelOpenRound branch.id now
      let (self, roundsOut) := self.closeRoundsOfBranch branch.id .superseded now
      let (self, branchOut) := self.setBranchStatus branch.id .returned now
      let latest := self.latestAttempt targetNode
      let (self, latestOut) := self.supersede latest now
      let (newId, self, newOut) := self.createBranch targetNode (latest.bind Branch.parentBranchId)
        ((latest.map Branch.join).getD .all) ((latest.map Branch.reject).getD .anyReject)
        ((latest.map Branch.policy).getD .default) now
      let record : ReturnRecord := ⟨branch.node, targetNode, by_, comment, now⟩
      let self := { self with
        inst := { self.inst with jumpCount := self.inst.jumpCount + 1, returns := self.inst.returns ++ [record] } }
      let self := self.pushAudit now (ascii "return_to_node")
        (some branch.id) by_ (branch.node ++ ascii " -> " ++ targetNode)
      let event := .event (ascii "com.china-workflow.instance.returned.v1")
        [(ascii "instance_id", .text self.inst.id), (ascii "from_node", .text branch.node),
          (ascii "to_node", .text targetNode), (ascii "jump_count", .number self.inst.jumpCount)]
      (.ok (newId, tasksOut ++ roundsOut ++ branchOut ++ latestOut ++ newOut ++ [event]), self.touch now)

/-- Everything open is cancelled, and the instance ends. -/
def shutDown (self : Engine) (branchTo : BranchStatus) (target : InstanceStatus) (action : Bytes) (by_ : Principal)
    (detail event : Bytes) (data : EventData) (now : ℤ) : Answer (List Effect) :=
  let status := self.inst.status
  let (self, out) := self.cancelOpenBranches branchTo now
  let self := { self with inst := { self.inst with status := target } }
  let self := self.pushAudit now action none by_ detail
  (.ok (out ++ [.instanceStatus status target, .event event data]), self.touch now)

def withdraw (self : Engine) (expected : ℕ) (by_ : Principal) (now : ℤ) : Answer (List Effect) :=
  match self.guard expected with
  | .error e => (.error e, self)
  | .ok () =>
    if self.inst.initiator ≠ by_ then (.error (.notAuthorized (by_ ++ ascii " is not the initiator")), self)
    else self.shutDown .cancelled .cancelled (ascii "withdraw") by_ []
      (ascii "com.china-workflow.instance.cancelled.v1") [(ascii "instance_id", .text self.inst.id)] now

/-- The instance is ended by an administrator; who may do so is not decided here. -/
def terminate (self : Engine) (expected : ℕ) (by_ : Principal) (reason : Bytes) (now : ℤ) : Answer (List Effect) :=
  match self.guard expected with
  | .error e => (.error e, self)
  | .ok () =>
    self.shutDown .terminated .terminated (ascii "terminate") by_ reason
      (ascii "com.china-workflow.instance.terminated.v1")
      [(ascii "instance_id", .text self.inst.id), (ascii "reason", .text reason)] now

/-- What the instance ends with: the state of the root branch that was entered last. -/
def finalStatus (self : Engine) : Option InstanceStatus :=
  match (lastMaxBy Branch.createdAt ((self.branches.rows.map Prod.snd).filter fun b =>
    decide (b.parentBranchId = none))).map
    Branch.status with
  | some .completed => some .completed
  | some .rejected => some .rejected
  | _ => none

/-- The definition has no further node: the instance ends. -/
def finish (self : Engine) (expected : ℕ) (now : ℤ) : Answer (List Effect) :=
  match self.guard expected with
  | .error e => (.error e, self)
  | .ok () =>
    if self.anyOpenBranch then (.error (.invalidTransition (ascii "open branch remains")), self)
    else match self.finalStatus with
    | none => (.error (.invalidTransition (ascii "no completed branch to finish")), self)
    | some next =>
      if self.inst.status = next then (.ok [], self)
      else
        let name := if next = .completed then ascii "com.china-workflow.instance.completed.v1"
          else ascii "com.china-workflow.instance.rejected.v1"
        (.ok [.instanceStatus self.inst.status next, .event name [(ascii "instance_id", .text self.inst.id)]],
          { self with inst := { self.inst with status := next } }.touch now)

/-- A seat whose deadline has passed is no longer counted. -/
def expire (self : Engine) (expected : ℕ) (taskId : Id) (now : ℤ) : Answer (List Effect) :=
  match self.guard expected >>= fun _ => self.requireTask taskId with
  | .error e => (.error e, self)
  | .ok t =>
    if ¬ t.status.isOpen then (.error (notOpen t), self)
    else match t.deadline with
    | none => (.error (.invalidArgument (ascii "task " ++ t.id ++ ascii " has no deadline")), self)
    | some d =>
      if now < d then
        (.error (.invalidArgument (ascii "task " ++ t.id ++ ascii " deadline " ++ ascii (toString d) ++
          ascii " not reached at " ++ ascii (toString now))), self)
      else
        let self := { self with tasks := self.tasks.insert taskId { t with status := .expired, updatedAt := now } }
        let (self, out) := if t.kind = .approval then self.recount t.roundId now else (self, [])
        (.ok (.taskStatus taskId t.status .expired :: out), self.touch now)

end Engine

/-! ### Runs -/

inductive Command where
  | enterBranch (node : Bytes) (parent : Option Id) (join : JoinPolicy) (reject : RejectPolicy)
      (policy : ApprovalPolicy)
  | openApproval (branchId : Id) (seats : List SeatSpec) (deadline : Option ℤ)
  | addSign (branchId : Id) (seats : List SeatSpec) (by_ : Principal) (comment : Option Bytes)
  | removeSign (branchId : Id) (taskIds : List Id) (by_ : Principal)
  | claim (taskId : Id) (principal : Principal)
  | approve (taskId : Id) (actor : Principal) (comment : Option Bytes)
  | reject (taskId : Id) (actor : Principal) (comment : Option Bytes)
  | acknowledge (taskId : Id) (actor : Principal)
  | transfer (taskId : Id) (recipient by_ : Principal)
  | delegate (taskId : Id) (recipient by_ : Principal)
  | returnToNode (branchId : Id) (targetNode : Bytes) (by_ : Principal) (comment : Option Bytes)
  | withdraw (by_ : Principal)
  | terminate (by_ : Principal) (reason : Bytes)
  | finish
  | expire (taskId : Id)
  deriving DecidableEq

/-- A command with the revision it expects and its time. -/
structure Request where
  expected : ℕ
  now : ℤ
  command : Command
  deriving DecidableEq

/-- One command: the aggregate after it, and its effects. -/
def Engine.step (self : Engine) (r : Request) : Engine × Except ApprovalError (List Effect) :=
  match r.command with
  | .enterBranch node parent join reject policy =>
    let (answer, self) := self.enterBranch r.expected node parent join reject policy r.now
    (self, answer.map Prod.snd)
  | .openApproval branchId seats deadline =>
    let (answer, self) := self.openApproval r.expected branchId seats deadline r.now
    (self, answer.map fun a => a.2.2)
  | .addSign branchId seats by_ comment =>
    let (answer, self) := self.addSign r.expected branchId seats by_ comment r.now
    (self, answer.map Prod.snd)
  | .removeSign branchId taskIds by_ => (self.removeSign r.expected branchId taskIds by_ r.now).swap
  | .claim taskId principal => (self.claim r.expected taskId principal r.now).swap
  | .approve taskId actor comment => (self.approve r.expected taskId actor comment r.now).swap
  | .reject taskId actor comment => (self.reject r.expected taskId actor comment r.now).swap
  | .acknowledge taskId actor => (self.acknowledge r.expected taskId actor r.now).swap
  | .transfer taskId recipient by_ => (self.transfer r.expected taskId recipient by_ r.now).swap
  | .delegate taskId recipient by_ => (self.delegate r.expected taskId recipient by_ r.now).swap
  | .returnToNode branchId targetNode by_ comment =>
    let (answer, self) := self.returnToNode r.expected branchId targetNode by_ comment r.now
    (self, answer.map Prod.snd)
  | .withdraw by_ => (self.withdraw r.expected by_ r.now).swap
  | .terminate by_ reason => (self.terminate r.expected by_ reason r.now).swap
  | .finish => (self.finish r.expected r.now).swap
  | .expire taskId => (self.expire r.expected taskId r.now).swap

end Coord.Approval
