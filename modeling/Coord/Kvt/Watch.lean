import Coord.Storage.Shards

/-!
# The watch coordinator

A watch reads the shards of the commit log in the order of the commit timestamps, up to the watermark of the node, and
carries its position as a shard and a timestamp.  A poll gathers one batch: the table comes first, the watermark is
computed after it, and every read of records sees the shard's group as it is by then.
-/

namespace Coord.Kvt.Watch

open Coord.Storage

/-! ### Positions, filters and events -/

/-- What is read up to `commitTs` in a shard; shard `0` is before the first one, and timestamp `0` before the start of
the shard. -/
structure WatchCursor where
  shardId : ℕ
  commitTs : ℕ
  deriving DecidableEq

def WatchCursor.beginning : WatchCursor := ⟨0, 0⟩

inductive EventKindFilter where
  | all | putsOnly | deletesOnly
  deriving DecidableEq

/-- Both keys empty is every key, an empty `rangeEnd` the one key, and else `[key, rangeEnd)`. -/
structure WatchFilter where
  key : Bytes
  rangeEnd : Bytes
  kind : EventKindFilter
  prevKv : Bool
  deriving DecidableEq

def WatchFilter.all : WatchFilter := ⟨[], [], .all, false⟩

inductive WatchError where
  | rangeNotAscending (rangeEnd key : Bytes)
  | startAndCursor
  | cursorUnavailable (shardId : ℕ)
  | historyUnavailable (requested : ℕ) (oldestAvailable : WatchCursor)
  | watermarkUnavailable
  | noRecords (shardId commitTs : ℕ)
  | storage (shardId : ℕ)
  deriving DecidableEq

def WatchFilter.validate (f : WatchFilter) : Except WatchError Unit :=
  if f.rangeEnd ≠ [] ∧ f.rangeEnd ≤ f.key then .error (.rangeNotAscending f.rangeEnd f.key) else .ok ()

def WatchFilter.keyMatches (f : WatchFilter) (key : Bytes) : Bool :=
  if f.key = [] ∧ f.rangeEnd = [] then true
  else if f.rangeEnd = [] then decide (key = f.key)
  else decide (f.key ≤ key ∧ key < f.rangeEnd)

def WatchFilter.changeMatches (f : WatchFilter) (c : CommitChange) : Bool :=
  (match f.kind with
    | .all => true
    | .putsOnly => c.value.isSome
    | .deletesOnly => c.value.isNone) && f.keyMatches c.key

/-- A transaction, with what it changed in all its Regions. -/
structure WatchEvent where
  commitTs : ℕ
  changes : List CommitChange
  deriving DecidableEq

/-- The changes so far, and the keys that an earlier record has. -/
def mergeRecord (f : WatchFilter) (acc : List CommitChange × List Bytes) (record : CommitRecord) :
    List CommitChange × List Bytes :=
  let kept := record.changes.filter fun c => f.changeMatches c && !acc.2.contains c.key
  (acc.1 ++ kept.map fun c => if f.prevKv then c else { c with prev := none }, acc.2 ++ kept.map CommitChange.key)

/-- The records of a timestamp as one event.  A key that two records have was applied in both halves of a split, and
the first record counts. -/
def WatchEvent.fromRecords (commitTs : ℕ) (records : List CommitRecord) (f : WatchFilter) : Option WatchEvent :=
  let changes := (records.foldl (mergeRecord f) ([], [])).1
  if changes = [] then none else some ⟨commitTs, changes⟩

def changeBytes (c : CommitChange) : ℕ :=
  c.key.length + (c.value.map List.length).getD 0 + (c.prev.map fun p => p.value.length + 8).getD 0 + 8

def WatchEvent.wireBytes (e : WatchEvent) : ℕ := 8 + (e.changes.map changeBytes).sum

/-! ### Batches -/

structure WatchLimits where
  maxChanges : ℕ
  maxBytes : ℕ
  deriving DecidableEq

structure BatchBuilder where
  events : List WatchEvent
  changes : ℕ
  bytes : ℕ
  deriving DecidableEq

def BatchBuilder.new : BatchBuilder := ⟨[], 0, 0⟩

def BatchBuilder.tryPush (limits : WatchLimits) (b : BatchBuilder) (e : WatchEvent) : Option BatchBuilder :=
  if b.events ≠ [] ∧
      (limits.maxChanges < b.changes + e.changes.length ∨ limits.maxBytes < b.bytes + e.wireBytes) then none
  else some ⟨b.events ++ [e], b.changes + e.changes.length, b.bytes + e.wireBytes⟩

structure WatchBatch where
  events : List WatchEvent
  cursor : WatchCursor
  watermark : ℕ
  sealed : Bool
  hasMore : Bool
  oldestAvailable : WatchCursor
  deriving DecidableEq

/-- Where a watch begins: at `startRevision`, which is the first timestamp it wants, after the watermark when that is
`0`, or at a position it was given before. -/
structure WatchStart where
  startRevision : ℕ
  startCursor : Option WatchCursor
  deriving DecidableEq

def WatchStart.validate (s : WatchStart) : Except WatchError Unit :=
  if s.startCursor.isSome ∧ s.startRevision ≠ 0 then .error .startAndCursor else .ok ()

/-! ### Positions in the table -/

/-- The largest timestamp of a shard that may be read. -/
def readBound (m : CommitLogShardMeta) (watermark : ℕ) : ℕ :=
  if m.endTs = 0 then watermark else min watermark (m.endTs - 1)

def mayCross (m : CommitLogShardMeta) (watermark : ℕ) : Bool :=
  decide (m.endTs ≠ 0 ∧ m.sealedAtMs ≠ 0 ∧ m.endTs ≤ watermark)

/-- The position of "read up to `ts`". -/
def positionBefore (t : CommitLogShardTable) (ts : ℕ) : WatchCursor :=
  if ts = 0 ∨ t.shards = [] then .beginning
  else match t.covering ts with
    | none => .beginning
    | some m => if ts < m.startTs then ⟨m.shardId, 0⟩ else ⟨m.shardId, ts⟩

def oldestAvailable (t : CommitLogShardTable) : WatchCursor :=
  if t.gcBeforeTs = 0 then .beginning else positionBefore t (t.gcBeforeTs - 1)

def firstUnread (t : CommitLogShardTable) (c : WatchCursor) : ℕ :=
  match t.shards.find? fun m => decide (m.shardId = c.shardId) with
  | some m => if c.commitTs < m.startTs then m.startTs else c.commitTs + 1
  | none => c.commitTs + 1

def ensureAvailable (t : CommitLogShardTable) (c : WatchCursor) : Except WatchError Unit :=
  if t.gcBeforeTs = 0 ∨ t.gcBeforeTs ≤ firstUnread t c then .ok ()
  else .error (.historyUnavailable (firstUnread t c) (oldestAvailable t))

/-- The shard of a position, by its place in the table, and the timestamp that is read. -/
def resolvePosition (t : CommitLogShardTable) (c : WatchCursor) : Except WatchError (ℕ × ℕ) :=
  if t.shards = [] then (if c.shardId = 0 then .ok (0, c.commitTs) else .error (.cursorUnavailable c.shardId))
  else if c.shardId = 0 then .ok (0, c.commitTs)
  else match t.shards.findIdx? (fun m => decide (m.shardId = c.shardId)) with
    | none => .error (.cursorUnavailable c.shardId)
    | some index =>
      match t.shards[index]? with
      | none => .error (.cursorUnavailable c.shardId)
      | some m =>
        if c.commitTs = 0 ∨ c.commitTs < m.startTs then .ok (index, m.startTs - 1)
        else if m.endTs ≠ 0 ∧ m.endTs ≤ c.commitTs then
          -- the shard has been bounded below the position since
          match t.shards.findIdx? (fun z => z.covers c.commitTs) with
          | some cover => .ok (cover, c.commitTs)
          | none => .ok (index, c.commitTs)
        else .ok (index, c.commitTs)

/-! ### Polls -/

/-- What a call reads: the table, the watermark that is computed next, the group of a shard at each read of records,
and the table once more when the call has failed. -/
structure WatchView where
  table : CommitLogShardTable
  watermark : Option ℕ
  shard : ℕ → ℕ → Option Store
  fresh : Option CommitLogShardTable

inductive ScanOutcome where
  | done (after : ℕ)
  | full (after : ℕ)
  deriving DecidableEq

section

variable (limits : WatchLimits) (filter : WatchFilter) (v : WatchView)

/-- The events of a shard in `(after, bound]`.  The next record gives the timestamp, and a second read all records of
it.  Every round reads a later timestamp, so that `bound - after` and one more rounds are enough; `i` counts the
reads. -/
def scanShard (m : CommitLogShardMeta) (bound : ℕ) :
    ℕ → ℕ → ℕ → BatchBuilder → Except WatchError (ScanOutcome × BatchBuilder × ℕ)
  | 0, i, after, b => .ok (.done after, b, i)
  | rounds + 1, i, after, b =>
    match v.shard i m.shardId with
    | none => .error (.storage m.shardId)
    | some s =>
      match (s.commitRecordsAfter m.shardId after 1).head? with
      | none => .ok (.done after, b, i + 1)
      | some first =>
        if bound < first.commitTs then .ok (.done after, b, i + 1)
        else
          match v.shard (i + 1) m.shardId with
          | none => .error (.storage m.shardId)
          | some s =>
            let records := s.commitRecordsAt m.shardId first.commitTs
            if records = [] then .error (.noRecords m.shardId first.commitTs)
            else
              match WatchEvent.fromRecords first.commitTs records filter with
              | none => scanShard m bound rounds (i + 2) first.commitTs b
              | some event =>
                match b.tryPush limits event with
                | none => .ok (.full after, b, i + 2)
                | some b => scanShard m bound rounds (i + 2) first.commitTs b

structure PollEnd where
  shard : CommitLogShardMeta
  after : ℕ
  builder : BatchBuilder
  full : Bool

def readShard (watermark i after : ℕ) (b : BatchBuilder) (m : CommitLogShardMeta) :
    Except WatchError (ScanOutcome × BatchBuilder × ℕ) :=
  let after := max after (m.startTs - 1)
  let bound := readBound m watermark
  if after < bound then scanShard limits filter v m bound (bound - after + 1) i after b else .ok (.done after, b, i)

/-- The loop over the shards, from `m` on; it goes on to the next shard from its start. -/
def pollLoop (watermark i after : ℕ) (b : BatchBuilder) (m : CommitLogShardMeta) (rest : List CommitLogShardMeta) :
    Except WatchError PollEnd :=
  match readShard limits filter v watermark i after b m with
  | .error e => .error e
  | .ok (.full after, b, _) => .ok ⟨m, after, b, true⟩
  | .ok (.done after, b, i) =>
    match rest with
    | [] => .ok ⟨m, after, b, false⟩
    | next :: rest =>
      if mayCross m watermark then pollLoop watermark i (next.startTs - 1) b next rest
      else .ok ⟨m, after, b, false⟩

/-- The position at the end of the loop; before the start of its shard it has timestamp `0`. -/
def PollEnd.cursor (e : PollEnd) : WatchCursor :=
  if e.after < e.shard.startTs then ⟨e.shard.shardId, 0⟩ else ⟨e.shard.shardId, e.after⟩

def pollWithTable (c : WatchCursor) : Except WatchError WatchBatch := do
  filter.validate
  ensureAvailable v.table c
  let watermark ← v.watermark.elim (.error .watermarkUnavailable) .ok
  if v.table.shards = [] then
    return ⟨[], c, watermark, false, false, oldestAvailable v.table⟩
  let (index, after) ← resolvePosition v.table c
  match v.table.shards.drop index with
  | [] => .error (.cursorUnavailable c.shardId)
  | m :: rest =>
    let e ← pollLoop limits filter v watermark 0 after .new m rest
    return ⟨e.builder.events, e.cursor, watermark, decide (e.shard.sealedAtMs ≠ 0), e.full, oldestAvailable v.table⟩

/-- One batch from the position on.  When the call fails because the history was reclaimed meanwhile, that is what it
reports. -/
def poll (c : WatchCursor) : Except WatchError WatchBatch :=
  match pollWithTable limits filter v c with
  | .ok batch => .ok batch
  | .error e =>
    match v.fresh with
    | none => .error e
    | some t => do
      ensureAvailable t c
      .error e

def start (s : WatchStart) : Except WatchError WatchCursor := do
  s.validate
  let c ← match s.startCursor with
    | some c => (resolvePosition v.table c).map fun _ => c
    | none =>
      if s.startRevision = 0 then
        v.watermark.elim (.error .watermarkUnavailable) fun watermark => .ok (positionBefore v.table watermark)
      else .ok (positionBefore v.table (s.startRevision - 1))
  ensureAvailable v.table c
  return c

end

end Coord.Kvt.Watch
