import Coord.Storage.RegionTable

/-!
# Records of the system tables

The values kept for leases, for users, roles and sessions, and for the operators of the placement driver, with the
transitions of an operator in its queue.

* `LeaseRecord`, `LeaseV2Record` — the two lease tables;
* `AuthUserRecord`, `AuthRoleRecord`, … — the rows under `/_sys/auth/`;
* `PdQueueEntry`, `PdIntent` — the operator queue and the split and merge journal.
-/

namespace Coord.Storage

/-! ### Leases -/

structure LeaseRecord where
  ttl : ℤ
  deadlineWallMs : ℤ
  keepaliveRevision : ℕ
  deriving DecidableEq

/-- A lease whose cleanup takes a commit timestamp; a revoked one stays in the table. -/
structure LeaseV2Record where
  ttl : ℤ
  grantedTs : ℕ
  deadlineWallMs : ℤ
  revoked : Bool
  revokedCommitTs : ℕ
  grantRequestId : Bytes
  deriving DecidableEq

/-! ### Users, roles and tokens -/

structure AuthUserRecord where
  name : Text
  passwordHash : Bytes
  roles : List Text
  deriving DecidableEq

structure AuthPermissionRecord where
  permType : ℕ
  keyPrefix : Bytes
  rangeEnd : Bytes
  deriving DecidableEq

structure AuthGrantRecord where
  capabilityId : Text
  scope : Text
  deriving DecidableEq

structure AuthRoleRecord where
  name : Text
  permissions : List AuthPermissionRecord
  capabilityGrants : List AuthGrantRecord
  highSensitive : Bool
  deriving DecidableEq

structure AuthRevocationRecord where
  jti : Text
  revokedAt : ℤ
  deriving DecidableEq

structure AuthSessionRecord where
  username : Text
  expiresAtUnix : ℕ
  isRefresh : Bool
  deriving DecidableEq

/-- A bootstrap token; a consumed one is kept with the time. -/
structure AuthBootstrapTokenRecord where
  id : Text
  hashHex : Text
  label : Text
  createdBy : Text
  createdAtUnix : ℕ
  expiresAtUnix : ℕ
  consumedAtUnix : Option ℕ
  deriving DecidableEq

/-! ### Operators -/

inductive Operator where
  | addPeer (regionId : RegionId) (nodeId : ℕ) (raftAddr : Text)
  | removePeer (regionId : RegionId) (nodeId : ℕ)
  | transferLeader (regionId : RegionId) (toNode : ℕ)
  | splitRegion (regionId : RegionId) (splitKey : Bytes) (newRegionId : RegionId)
  | mergeRegion (left right : RegionId)
  deriving DecidableEq

inductive OperatorStatus where
  | pending | running | success
  | failed (error : Text)
  | cancelled
  deriving DecidableEq

structure PdQueueEntry where
  opId : ℕ
  op : Operator
  status : OperatorStatus
  requester : ℕ
  claimedBy : ℕ
  proposedAtUnix : ℤ
  claimedAtUnix : ℤ
  error : Text
  deriving DecidableEq

namespace PdQueueEntry

def newPending (opId : ℕ) (op : Operator) (requester : ℕ) (proposedAtUnix : ℤ) : PdQueueEntry :=
  ⟨opId, op, .pending, requester, 0, proposedAtUnix, 0, []⟩

def isPending (e : PdQueueEntry) : Bool := decide (e.status = .pending)

def isRunning (e : PdQueueEntry) : Bool := decide (e.status = .running)

def isTerminal (e : PdQueueEntry) : Bool :=
  match e.status with
  | .success | .failed _ | .cancelled => true
  | .pending | .running => false

def tryClaim (e : PdQueueEntry) (nodeId : ℕ) (claimedAtUnix : ℤ) : Option PdQueueEntry :=
  if e.isPending then
    some { e with status := .running, claimedBy := nodeId, claimedAtUnix := claimedAtUnix }
  else none

/-- Only the node that claimed a running operator completes it. -/
def tryComplete (e : PdQueueEntry) (nodeId : ℕ) (success : Bool) (error : Text) : Option PdQueueEntry :=
  if e.isRunning && decide (e.claimedBy = nodeId) then
    some { e with
      status := if success then .success else .failed error
      error := if success then [] else error }
  else none

def tryRequeue (e : PdQueueEntry) : Option PdQueueEntry :=
  if e.isRunning then some { e with status := .pending, claimedBy := 0, claimedAtUnix := 0, error := [] }
  else none

end PdQueueEntry

inductive CutoverReject where
  | tableMoved (version expected : ℕ)
  | table (error : RegionTableError)
  deriving DecidableEq

inductive IntentPhase where
  | prepared
  | applied (tableVersion : ℕ)
  | rejected (reason : CutoverReject)
  deriving DecidableEq

structure PdIntent where
  opId : ℕ
  owner : ℕ
  plan : SplitMergePlan
  phase : IntentPhase
  deriving DecidableEq

/-! ### Timestamps -/

/-- The last batch of timestamps, with the log entry that took it. -/
structure TsoBatchRecord where
  revision : ℕ
  startTs : ℕ
  endTs : ℕ
  deriving DecidableEq

end Coord.Storage
