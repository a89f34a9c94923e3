import Coord.Storage.Kv

/-!
# Shards of the commit log: the table, the appended records, the outbox

The system Region keeps the table of shards, a shard group appends the records shipped to it, and a data Region trims
the records of its outbox that have been reclaimed.

* `applyCommitLogShardOp` — an operation on the table; a refused one leaves it as it is;
* `applyCommitLogAppend` — a batch of records, with the cursor, the count and what each Region has shipped;
* `trimCommitLogOutbox` — the outbox below a timestamp, a bounded number of rows at a time;
* `commitRecordsAt`, `commitRecordsAfter` — the two reads.
-/

namespace Coord.Storage

open Coord.Lib (Table)

inductive CommitLogShardOp where
  | «open» (startTs openedAtMs : ℕ)
  | setEnd (shardId endTs nowMs : ℕ)
  | «seal» (shardId nowMs : ℕ)
  | gc (throughTs : ℕ)
  deriving DecidableEq

structure CommitLogAppendResult where
  inserted : ℕ
  duplicates : ℕ
  rejected : ℕ
  cursorTs : ℕ
  deriving DecidableEq

structure CommitLogTrimResult where
  trimmedBefore : ℕ
  removed : ℕ
  deriving DecidableEq

def CommitLogShardOp.run (t : CommitLogShardTable) :
    CommitLogShardOp → Except ShardTableError (CommitLogShardTable × Bool)
  | .open startTs openedAtMs => t.open startTs openedAtMs
  | .setEnd shardId endTs nowMs => t.setEnd shardId endTs nowMs
  | .seal shardId nowMs => t.seal shardId nowMs
  | .gc throughTs => t.advanceGc throughTs

namespace Store

/-! ### The table -/

def shardTable (s : Store) : CommitLogShardTable := s.shardTableRow.getD .default

def applyCommitLogShardOp (mode : RevisionMode) (s : Store) (op : CommitLogShardOp) (revision : ℕ)
    (applied : AppliedLogId) : Store × List CommitLogShardMeta :=
  let s := { s.noteLogIndexRevision mode revision with lastApplied := some applied }
  match op.run s.shardTable with
  | .ok (table, true) => ({ s with shardTableRow := some table }, table.shards)
  | .ok (table, false) => (s, table.shards)
  | .error _ => (s, s.shardTable.shards)

/-! ### Appended records -/

structure AppendLoop where
  log : Table CommitLogKey CommitRecord
  result : CommitLogAppendResult
  shipped : Table ℕ ℕ

/-- One record: outside the shard's interval or refused by the log it only counts. -/
def appendStep (size : CommitRecord → ℕ) (shardId startTs endTs maxTxnBytes : ℕ) (l : AppendLoop)
    (record : CommitRecord) : AppendLoop :=
  if record.shardId ≠ shardId ∨ record.commitTs < startTs ∨ (endTs ≠ 0 ∧ endTs ≤ record.commitTs) then
    { l with result := { l.result with rejected := l.result.rejected + 1 } }
  else
    let cursorTs := max l.result.cursorTs record.commitTs
    let shipped := l.shipped.insert record.regionId
      (max ((l.shipped.get record.regionId).getD record.commitTs) record.commitTs)
    match appendCommitRecord size l.log record maxTxnBytes with
    | .ok (log, .inserted) =>
      ⟨log, { l.result with inserted := l.result.inserted + 1, cursorTs := cursorTs }, shipped⟩
    | .ok (log, .duplicate) =>
      ⟨log, { l.result with duplicates := l.result.duplicates + 1, cursorTs := cursorTs }, shipped⟩
    | .error _ => { l with result := { l.result with rejected := l.result.rejected + 1 } }

def raiseShipped (t : Table ℕ ℕ) (r : ℕ × ℕ) : Table ℕ ℕ :=
  if (t.get r.1).getD 0 < r.2 then t.insert r.1 r.2 else t

def commitLogCursor (s : Store) : ℕ := s.commitLogCursorRow.getD 0

def commitLogRecordCount (s : Store) : ℕ := s.commitLogCountRow.getD 0

def commitLogShippedThrough (s : Store) (regionId : ℕ) : ℕ := (s.commitLogShipped.get regionId).getD 0

def applyCommitLogAppend (size : CommitRecord → ℕ) (mode : RevisionMode) (s : Store)
    (shardId startTs endTs : ℕ) (records : List CommitRecord) (maxTxnBytes : ℕ) (revision : ℕ)
    (applied : AppliedLogId) : Store × CommitLogAppendResult :=
  let s := s.noteLogIndexRevision mode revision
  let l := records.foldl (appendStep size shardId startTs endTs maxTxnBytes)
    ⟨s.commitLog, ⟨0, 0, 0, s.commitLogCursor⟩, Table.empty⟩
  let count := if 0 < l.result.inserted then some (s.commitLogRecordCount + l.result.inserted)
    else s.commitLogCountRow
  let cursor := if s.commitLogCursor < l.result.cursorTs then some l.result.cursorTs else s.commitLogCursorRow
  ({ s with
      commitLog := l.log
      commitLogCountRow := count
      commitLogCursorRow := cursor
      commitLogShipped := l.shipped.rows.foldl raiseShipped s.commitLogShipped
      lastApplied := some applied },
    l.result)

/-! ### Reads -/

/-- The records of a commit timestamp, by Region. -/
def commitRecordsAt (s : Store) (shardId commitTs : ℕ) : List CommitRecord :=
  (s.commitLog.rows.filter fun r =>
    decide (commitLogKey shardId commitTs 0 ≤ r.1 ∧ r.1 < commitLogKey shardId (commitTs + 1) 0)).map Prod.snd

/-- The records of a shard above `afterTs`, in order; the limit may cut a commit timestamp apart. -/
def commitRecordsAfter (s : Store) (shardId afterTs limit : ℕ) : List CommitRecord :=
  (takeLimit limit (s.commitLog.rows.filter fun r =>
    decide (commitLogKey shardId (afterTs + 1) 0 ≤ r.1 ∧ r.1 < commitLogKey (shardId + 1) 0 0))).map Prod.snd

/-! ### The outbox -/

def commitLogTrimmedBefore (s : Store) : ℕ := s.trimmedBeforeRow.getD 0

/-- Remove records of the outbox below `throughTs`, at most `maxRows` of them.  The watermark moves to the first
record left. -/
def trimCommitLogOutbox (mode : RevisionMode) (s : Store) (throughTs maxRows : ℕ) (applied : AppliedLogId) :
    Store × CommitLogTrimResult :=
  let previous := s.commitLogTrimmedBefore
  if s.appliedContains applied then (s, ⟨previous, 0⟩)
  else if throughTs ≤ previous then (s.setLastApplied mode applied, ⟨previous, 0⟩)
  else
    let limit := max maxRows 1
    let rows := (s.commitLog.rows.filter fun r => decide (commitLogKey commitLogStagingShardId 0 0 ≤ r.1 ∧
      r.1 < commitLogKey commitLogStagingShardId throughTs 0)).take (limit + 1)
    let removed := rows.take limit
    let trimmedBefore := max previous ((rows[limit]?.map fun r => commitLogKeyTs r.1).getD throughTs)
    let s' : Store := { s with
      commitLog := removed.foldl (fun t r => t.erase r.1) s.commitLog
      trimmedBeforeRow := if previous < trimmedBefore then some trimmedBefore else s.trimmedBeforeRow }
    (s'.setLastApplied mode applied, ⟨trimmedBefore, removed.length⟩)

end Store

end Coord.Storage
