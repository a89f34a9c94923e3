import Coord.Raft.TypeConfig

/-!
# The commit log: records and shards

A commit record is what one transaction changed in one Region.  The records are kept under their shard, commit
timestamp and Region; the shard table of the system Region divides the commit timestamps into half-open intervals,
of which only the last may be unbounded.
-/

namespace Coord.Storage

open Coord.Lib (Table)
open Coord.Raft (SequencerMutation)

/-! ### Records -/

/-- The value a change replaced, with its metadata. -/
structure CommitPrevValue where
  value : Bytes
  createRevision : ℕ
  modRevision : ℕ
  version : ℤ
  leaseId : ℤ
  deriving DecidableEq

/-- The change of one key; no value is a tombstone. -/
structure CommitChange where
  key : Bytes
  value : Option Bytes
  prev : Option CommitPrevValue
  deriving DecidableEq

/-- What a transaction changed in a Region; `txnBytes` counts its write set in the clear. -/
structure CommitRecord where
  shardId : ℕ
  commitTs : ℕ
  txnId : Bytes
  startTs : ℕ
  regionId : ℕ
  txnBytes : ℕ
  changes : List CommitChange
  deriving DecidableEq

/-- The shard of the records that have not been shipped yet. -/
def commitLogStagingShardId : ℕ := 1

def commitLogMaxFrameBytes : ℕ := 64 * 1024 * 1024

def mutationWriteBytes : SequencerMutation → ℕ
  | .put key value _ => key.length + value.length + 16
  | .delete key => key.length + 8
  | .deleteRange start stop => start.length + stop.length + 32

def CommitRecord.txnWriteBytes (mutations : List SequencerMutation) : ℕ := (mutations.map mutationWriteBytes).sum

inductive CommitRecordError where
  | shardIdZero
  | commitTsZero
  | emptyTxnId
  | writeSetTooLarge (txnBytes maxTxnBytes : ℕ)
  | payloadTooLarge (payload : ℕ)
  | conflicting (shardId : ℕ) (commitTs : ℕ) (regionId : ℕ)
  deriving DecidableEq

/-- The checks of the encoder; `size` is the length of the serialised payload. -/
def CommitRecord.encode (size : CommitRecord → ℕ) (r : CommitRecord) (maxTxnBytes : ℕ) :
    Except CommitRecordError CommitRecord :=
  if r.shardId = 0 then .error .shardIdZero
  else if r.commitTs = 0 then .error .commitTsZero
  else if r.txnId = [] then .error .emptyTxnId
  else if maxTxnBytes < r.txnBytes then .error (.writeSetTooLarge r.txnBytes maxTxnBytes)
  else if commitLogMaxFrameBytes < size r then .error (.payloadTooLarge (size r))
  else .ok r

/-- The key of a record, in the order the store iterates: shard, commit timestamp, Region. -/
abbrev CommitLogKey := ℕ ×ₗ ℕ ×ₗ ℕ

def commitLogKey (shardId commitTs regionId : ℕ) : CommitLogKey := toLex (shardId, toLex (commitTs, regionId))

def commitLogKeyTs (k : CommitLogKey) : ℕ := (ofLex (ofLex k).2).1

def CommitRecord.key (r : CommitRecord) : CommitLogKey := commitLogKey r.shardId r.commitTs r.regionId

inductive CommitLogAppend where
  | inserted | duplicate
  deriving DecidableEq

/-- Write a record unless it is there; another record under its key is never replaced. -/
def appendCommitRecord (size : CommitRecord → ℕ) (log : Table CommitLogKey CommitRecord) (r : CommitRecord)
    (maxTxnBytes : ℕ) : Except CommitRecordError (Table CommitLogKey CommitRecord × CommitLogAppend) :=
  match r.encode size maxTxnBytes with
  | .error e => .error e
  | .ok encoded =>
    match log.get r.key with
    | some existing =>
      if existing = r then .ok (log, .duplicate)
      else .error (.conflicting r.shardId r.commitTs r.regionId)
    | none => .ok (log.insert r.key encoded, .inserted)

/-! ### Shards -/

/-- A shard `[startTs, endTs)`; `endTs = 0` is no bound yet. -/
structure CommitLogShardMeta where
  shardId : ℕ
  startTs : ℕ
  endTs : ℕ
  openedAtMs : ℕ
  endedAtMs : ℕ
  sealedAtMs : ℕ
  deriving DecidableEq

def CommitLogShardMeta.covers (m : CommitLogShardMeta) (ts : ℕ) : Bool :=
  decide (m.startTs ≤ ts ∧ (m.endTs = 0 ∨ ts < m.endTs))

inductive ShardTableError where
  | firstStartsAtZero
  | shardMissing (shardId : ℕ)
  | notLatest (shardId latest : ℕ)
  | endNotAboveStart (shardId : ℕ) (endTs startTs : ℕ)
  | sealWithoutEnd (shardId : ℕ)
  | gcNotBoundary (throughTs : ℕ)
  | gcUnsealed (shardId : ℕ)
  | startsAtZero (shardId : ℕ)
  | idsNotConsecutive (expected shardId : ℕ)
  | emptyShard (shardId : ℕ) (endTs startTs : ℕ)
  | unboundedInside (shardId : ℕ)
  | gapOrOverlap (shardId : ℕ) (endTs : ℕ) (next : ℕ) (startTs : ℕ)
  | watermarkNotBoundary (gcBeforeTs : ℕ)
  deriving DecidableEq

/-- The shards in id order; every record below `gcBeforeTs` has been reclaimed. -/
structure CommitLogShardTable where
  shards : List CommitLogShardMeta
  gcBeforeTs : ℕ
  deriving DecidableEq

namespace CommitLogShardTable

def default : CommitLogShardTable := ⟨[], 0⟩

def covering (t : CommitLogShardTable) (ts : ℕ) : Option CommitLogShardMeta := t.shards.find? (·.covers ts)

def latest (t : CommitLogShardTable) : Option CommitLogShardMeta := t.shards.getLast?

/-- Open an unbounded shard where the last one ends; nothing happens while the last one is unbounded. -/
def «open» (t : CommitLogShardTable) (firstStartTs : ℕ) (nowMs : ℕ) :
    Except ShardTableError (CommitLogShardTable × Bool) :=
  match t.latest with
  | some last =>
    if last.endTs = 0 then .ok (t, false)
    else .ok ({ t with shards := t.shards ++ [⟨last.shardId + 1, last.endTs, 0, nowMs, 0, 0⟩] }, true)
  | none =>
    if firstStartTs = 0 then .error .firstStartsAtZero
    else .ok ({ t with shards := t.shards ++ [⟨1, firstStartTs, 0, nowMs, 0, 0⟩] }, true)

/-- Bound the last shard; a bound is never changed. -/
def setEnd (t : CommitLogShardTable) (shardId : ℕ) (endTs : ℕ) (nowMs : ℕ) :
    Except ShardTableError (CommitLogShardTable × Bool) :=
  match t.latest with
  | none => .error (.shardMissing shardId)
  | some last =>
    if last.shardId ≠ shardId then .error (.notLatest shardId last.shardId)
    else if last.endTs ≠ 0 then .ok (t, false)
    else if endTs ≤ last.startTs then .error (.endNotAboveStart shardId endTs last.startTs)
    else .ok ({ t with shards := t.shards.dropLast ++ [{ last with endTs := endTs, endedAtMs := nowMs }] }, true)

/-- Seal a bounded shard: the first one with the id. -/
def «seal» (t : CommitLogShardTable) (shardId nowMs : ℕ) : Except ShardTableError (CommitLogShardTable × Bool) :=
  match t.shards.findIdx? fun m => decide (m.shardId = shardId) with
  | none => .error (.shardMissing shardId)
  | some index =>
    match t.shards[index]? with
    | none => .error (.shardMissing shardId)
    | some m =>
      if m.endTs = 0 then .error (.sealWithoutEnd shardId)
      else if m.sealedAtMs ≠ 0 then .ok (t, false)
      else .ok ({ t with shards := t.shards.set index { m with sealedAtMs := nowMs } }, true)

def isReclaimed (t : CommitLogShardTable) (m : CommitLogShardMeta) : Bool :=
  decide (m.endTs ≠ 0 ∧ m.endTs ≤ t.gcBeforeTs)

def liveShards (t : CommitLogShardTable) : List CommitLogShardMeta := t.shards.filter fun m => !t.isReclaimed m

/-- Move the reclaim watermark to the end of a shard, when every shard up to it is sealed. -/
def advanceGc (t : CommitLogShardTable) (throughTs : ℕ) :
    Except ShardTableError (CommitLogShardTable × Bool) :=
  if throughTs = 0 ∨ throughTs ≤ t.gcBeforeTs then .ok (t, false)
  else if ¬ t.shards.any (fun m => decide (m.endTs = throughTs)) then .error (.gcNotBoundary throughTs)
  else match t.shards.find? fun m => decide (m.endTs ≠ 0 ∧ m.endTs ≤ throughTs ∧ m.sealedAtMs = 0) with
  | some unsealed => .error (.gcUnsealed unsealed.shardId)
  | none => .ok ({ t with gcBeforeTs := throughTs }, true)

/-- The checks on the shard at `index`, with the shard after it. -/
def validateShard (index : ℕ) (m : CommitLogShardMeta) (next : Option CommitLogShardMeta) :
    Except ShardTableError Unit :=
  if m.startTs = 0 then .error (.startsAtZero m.shardId)
  else if m.shardId ≠ index + 1 then .error (.idsNotConsecutive (index + 1) m.shardId)
  else if m.endTs ≠ 0 ∧ m.endTs ≤ m.startTs then .error (.emptyShard m.shardId m.endTs m.startTs)
  else match next with
  | none => .ok ()
  | some n =>
    if m.endTs = 0 then .error (.unboundedInside m.shardId)
    else if n.startTs ≠ m.endTs then .error (.gapOrOverlap m.shardId m.endTs n.shardId n.startTs)
    else .ok ()

def validateShards (index : ℕ) : List CommitLogShardMeta → Except ShardTableError Unit
  | [] => .ok ()
  | m :: rest =>
    match validateShard index m rest.head? with
    | .error e => .error e
    | .ok () => validateShards (index + 1) rest

def validate (t : CommitLogShardTable) : Except ShardTableError Unit :=
  match validateShards 0 t.shards with
  | .error e => .error e
  | .ok () =>
    if t.gcBeforeTs ≠ 0 ∧ ¬ t.shards.any (fun m => decide (m.endTs = t.gcBeforeTs)) then
      .error (.watermarkNotBoundary t.gcBeforeTs)
    else .ok ()

end CommitLogShardTable

/-- A shard may be reclaimed: sealed, passed by the watermark, and past its retention. -/
def gcDue (m : CommitLogShardMeta) (watermark : ℕ) (nowMs retentionSecs : ℕ) : Bool :=
  decide (m.endTs ≠ 0 ∧ m.sealedAtMs ≠ 0 ∧ m.endTs ≤ watermark ∧ m.sealedAtMs + retentionSecs * 1000 ≤ nowMs)

/-- The end of the run of due shards after the reclaimed ones. -/
def gcBoundary (t : CommitLogShardTable) (watermark : ℕ) (nowMs retentionSecs : ℕ) : Option ℕ :=
  go none t.shards
where
  go (through : Option ℕ) : List CommitLogShardMeta → Option ℕ
    | [] => through
    | m :: rest =>
      if t.isReclaimed m then go through rest
      else if gcDue m watermark nowMs retentionSecs then go (some m.endTs) rest
      else through

end Coord.Storage
