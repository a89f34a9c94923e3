import Coord.Storage.CommitLog
import Coord.Storage.Records
import Coord.Storage.Sequencer

/-!
# The store of a Region

The tables one Region's state machine writes, one field for each family of rows, and the guards every write goes
through.  A revision is the raft log index on a v1 store and the commit timestamp on a v2 store.
-/

namespace Coord.Storage

open Coord.Lib (Table)

inductive EventType where
  | put | delete | txn | lease
  deriving DecidableEq

/-- The change of one key; no value is a delete. -/
structure KeyValueChange where
  key : Bytes
  value : Option Bytes
  deriving DecidableEq

/-- An entry of the changelog: everything one write changed. -/
structure ChangeEvent where
  revision : ℕ
  changes : List KeyValueChange
  eventType : EventType
  deriving DecidableEq

structure KvMetadata where
  version : ℤ
  createRevision : ℕ
  modRevision : ℕ
  leaseId : ℤ
  deleted : Bool
  deriving DecidableEq

namespace KvMetadata

def newKey (revision : ℕ) (leaseId : ℤ) : KvMetadata := ⟨1, revision, revision, leaseId, false⟩

/-- A write over a key, deleted or not: the create revision stays. -/
def update (m : KvMetadata) (revision : ℕ) (leaseId : ℤ) : KvMetadata :=
  ⟨m.version + 1, m.createRevision, revision, leaseId, false⟩

def markDeleted (m : KvMetadata) (revision : ℕ) : KvMetadata :=
  ⟨m.version + 1, m.createRevision, revision, m.leaseId, true⟩

end KvMetadata

structure AppliedLogId where
  term : ℕ
  nodeId : ℕ
  index : ℕ
  deriving DecidableEq

/-- The members of the raft group and the entry that set them; the configuration is the encoded one. -/
structure StoredMembership where
  logId : AppliedLogId
  config : Bytes
  deriving DecidableEq

inductive RevisionMode where
  | logIndex | commitTs
  deriving DecidableEq

inductive RevisionPolicy where
  | logIndex | commitTs
  deriving DecidableEq

/-- `[startKey, endKey)` is closed to direct writes; an empty `endKey` is no upper bound. -/
structure DirectWriteFence where
  startKey : Bytes
  endKey : Bytes
  opId : ℕ
  deriving DecidableEq

/-- Below `watermark` the history of an imported range is not kept. -/
structure ImportHistoryFloor where
  startKey : Bytes
  endKey : Bytes
  watermark : ℕ
  deriving DecidableEq

/-- The rows under `/_sys/auth/`. -/
structure AuthRows where
  /-- `/_sys/auth/user/{name}` -/
  users : Table Text AuthUserRecord
  /-- `/_sys/auth/role/{role}` -/
  roles : Table Text AuthRoleRecord
  /-- `/_sys/auth/revoked/{jti}` -/
  revoked : Table Text AuthRevocationRecord
  /-- `/_sys/auth/sessions/{hash}` -/
  sessions : Table Text AuthSessionRecord
  /-- `/_sys/auth/bootstrap/{id}` -/
  bootstrap : Table Text AuthBootstrapTokenRecord
  deriving DecidableEq

def AuthRows.empty : AuthRows := ⟨Table.empty, Table.empty, Table.empty, Table.empty, Table.empty⟩

/-- The tables of one Region; the rows of the system Region and of the shard groups are empty elsewhere. -/
structure Store where
  /-- `/kv/{key}` -/
  kv : Table Bytes Bytes
  /-- `/_kv_meta/{key}` -/
  kvMeta : Table Bytes KvMetadata
  /-- `/_changelog/{revision}` -/
  changelog : Table ℕ ChangeEvent
  /-- the commit log, by shard, commit timestamp and Region -/
  commitLog : Table CommitLogKey CommitRecord
  /-- `/_sys/seq/` -/
  seq : SequencerRows
  /-- `/_sys/kv_t/decision_applied` -/
  decisionApplied : Option ℕ
  /-- `/_sys/kv_t/direct_write_fence` -/
  directWriteFence : Option DirectWriteFence
  /-- `/_sys/kv_t/import_history_floors` -/
  importHistoryFloors : List ImportHistoryFloor
  /-- `/_sys/kv_t/safe_ts_fence` -/
  safeTsFenceRow : Option ℕ
  /-- `/_lease/{id}` -/
  leases : Table ℤ LeaseRecord
  /-- `/_leasev2/{id}` -/
  leasesV2 : Table ℤ LeaseV2Record
  /-- `/_leasev2req/{request_id}` -/
  leaseV2Requests : Table Bytes ℤ
  auth : AuthRows
  /-- `/_pd/ops/{op_id}` -/
  pdOps : Table ℕ PdQueueEntry
  /-- `/_pd/intents/{op_id}` -/
  pdIntents : Table ℕ PdIntent
  /-- `/_sys/pd/regions` -/
  regionTableRow : Option RegionTable
  /-- `/_sys/tso/high_water` -/
  tsoHighWaterRow : Option ℕ
  /-- `/_sys/tso/last_batch` -/
  tsoLastBatch : Option TsoBatchRecord
  /-- `/_sys/commit_log/shards` -/
  shardTableRow : Option CommitLogShardTable
  /-- `/_sys/commit_log/watermark` -/
  commitWatermarkRow : Option ℕ
  /-- `/_sys/commit_log/cursor` -/
  commitLogCursorRow : Option ℕ
  /-- `/_sys/commit_log/count` -/
  commitLogCountRow : Option ℕ
  /-- `/_sys/commit_log/shipped/{region}` -/
  commitLogShipped : Table ℕ ℕ
  /-- `/_meta/commit_log_trimmed_before` -/
  trimmedBeforeRow : Option ℕ
  /-- `/_meta/membership` -/
  membershipRow : Option StoredMembership
  /-- `/_meta/last_applied` -/
  lastApplied : Option AppliedLogId
  /-- `/_meta/current_revision` -/
  currentRevisionRow : Option ℕ
  /-- `/_meta/compacted_revision` -/
  compactedRevisionRow : Option ℕ
  deriving DecidableEq

def Store.empty : Store where
  kv := Table.empty
  kvMeta := Table.empty
  changelog := Table.empty
  commitLog := Table.empty
  seq := SequencerRows.empty
  decisionApplied := none
  directWriteFence := none
  importHistoryFloors := []
  safeTsFenceRow := none
  leases := Table.empty
  leasesV2 := Table.empty
  leaseV2Requests := Table.empty
  auth := AuthRows.empty
  pdOps := Table.empty
  pdIntents := Table.empty
  regionTableRow := none
  tsoHighWaterRow := none
  tsoLastBatch := none
  shardTableRow := none
  commitWatermarkRow := none
  commitLogCursorRow := none
  commitLogCountRow := none
  commitLogShipped := Table.empty
  trimmedBeforeRow := none
  membershipRow := none
  lastApplied := none
  currentRevisionRow := none
  compactedRevisionRow := none

/-- Why a call fails; the arguments are those the message prints. -/
inductive Error where
  | commitTsZero
  | commitRejected (commitTs currentRevision : ℕ)
  | revisionCompacted (revision oldest : ℕ)
  | importHistoryUnavailable (revision floor : ℕ)
  | keyHistoryUnavailable (revision : ℕ) (key : Bytes)
  | rangeHistoryUnavailable (revision : ℕ) (keys : ℕ) (first : Bytes)
  | historicalMetadataMissing (key : Bytes) (revision : ℕ)
  | historicalDeleteMissing (key : Bytes) (revision : ℕ)
  | historicalWriteMissing (key : Bytes) (revision : ℕ)
  | historicalCreateAfter (key : Bytes) (revision createRevision : ℕ)
  | tsoOverflow
  | importNeedsCommitTs
  | importWatermarkZero
  | importKeyOutside (key start stop : Bytes)
  | importReservedPrefix (key : Bytes)
  | importDuplicateKey (key : Bytes)
  | importDeletedRow
  | importModRevision (modRevision watermark : ℕ)
  | importCreateRevision (createRevision : ℕ)
  | importVersion
  | importMissingValue (key : Bytes)
  | importDifferentValue (key : Bytes) (modRevision : ℕ)
  | exportRevisionAdvanced (expected current : ℕ)
  | exportMissingValue (key : Bytes)
  | objectCommitTsZero
  | noChunkStore
  | corruptManifest
  | snapshotVersion (version : ℕ)
  | snapshotRegresses (revision current : ℕ)
  | regionTable (error : RegionTableError)
  deriving DecidableEq

namespace Store

/-! ### Revisions -/

/-- The current revision; a v1 store without the row falls back to the applied index. -/
def currentRevision (mode : RevisionMode) (s : Store) : ℕ :=
  match s.currentRevisionRow with
  | some revision => revision
  | none =>
    match mode with
    | .logIndex => (s.lastApplied.map AppliedLogId.index).getD 0
    | .commitTs => 0

def compactedRevision (s : Store) : ℕ := s.compactedRevisionRow.getD 0

def lastAppliedDecisionTs (s : Store) : ℕ := s.decisionApplied.getD 0

/-- The v1 guard: on a v2 store a log index is no revision, and nothing happens. -/
def acceptLogIndexRevision (mode : RevisionMode) (s : Store) (revision : ℕ) : Except Error Store :=
  match mode with
  | .commitTs => .ok s
  | .logIndex =>
    if revision ≤ s.currentRevision mode then .error (.commitRejected revision (s.currentRevision mode))
    else .ok { s with currentRevisionRow := some revision }

def acceptCommitTs (mode : RevisionMode) (s : Store) (commitTs : ℕ) : Except Error Store :=
  if commitTs ≤ s.currentRevision mode then .error (.commitRejected commitTs (s.currentRevision mode))
  else .ok { s with currentRevisionRow := some commitTs }

def acceptRevision (mode : RevisionMode) (s : Store) (revision : ℕ) : RevisionPolicy → Except Error Store
  | .logIndex => s.acceptLogIndexRevision mode revision
  | .commitTs => s.acceptCommitTs mode revision

/-- An internal entry of a v1 store raises the revision to its log index; it never lowers it. -/
def noteLogIndexRevision (mode : RevisionMode) (s : Store) (revision : ℕ) : Store :=
  if mode = .logIndex ∧ s.currentRevision .logIndex < revision then
    { s with currentRevisionRow := some revision }
  else s

def setLastApplied (mode : RevisionMode) (s : Store) (applied : AppliedLogId) : Store :=
  { s with lastApplied := some applied }.noteLogIndexRevision mode applied.index

/-- The entry, or a later one, is already recorded. -/
def appliedContains (s : Store) (applied : AppliedLogId) : Bool :=
  (s.lastApplied.map fun last => decide (applied.index ≤ last.index)).getD false

/-- `setLastApplied` with the revision given apart from the entry. -/
def persistApplied (mode : RevisionMode) (s : Store) (revision : ℕ) (applied : AppliedLogId) : Store :=
  { s with lastApplied := some applied }.noteLogIndexRevision mode revision

end Store

end Coord.Storage
