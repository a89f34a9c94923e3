import Coord.Kvt.DecisionApply
import Coord.Raft.ShardTableLog

/-!
# Shipping commit records, and the watermark

A Region that applies a decision puts its commit record into its outbox.  The leader of a shard ships the records of
its interval into the shard's group, and the watermark of a node is the timestamp up to which nothing is under way: no
decision that a Region still has to apply, and no record that a shard still has to get.  Both procedures read rows one
after the other, and anything may happen in between.
-/

namespace Coord.Kvt.Shipping

open Coord.Lib Coord.Storage Coord.Raft Function

/-! ### The watermark -/

structure CommitWatermarkState where
  watermark : ℕ
  inFlight : ℕ
  minInFlightTs : Option ℕ
  deriving DecidableEq

/-- One below the earliest timestamp under way, and never above the last decision. -/
def commitWatermark (decisionLastTs : ℕ) (inFlight : List ℕ) : CommitWatermarkState where
  watermark := match inFlight.min? with
    | some ts => min (ts - 1) decisionLastTs
    | none => decisionLastTs
  inFlight := inFlight.length
  minInFlightTs := inFlight.min?

/-- The next decision of a Region, when it is above the Region's cursor. -/
def pendingDecision (lastAppliedTs : ℕ) (nextDecisionTs : Option ℕ) : Option ℕ :=
  nextDecisionTs.filter fun ts => decide (lastAppliedTs < ts)

/-- The next record of an outbox, when it is in the interval of the shard. -/
def unshippedRecord (startTs endTs : ℕ) (nextOutboxTs : Option ℕ) : Option ℕ :=
  nextOutboxTs.filter fun ts => decide (startTs ≤ ts ∧ (endTs = 0 ∨ ts < endTs))

/-! ### Shipments -/

def shipBatchRecords : ℕ := 256

def shipBatchTxnBytes : ℕ := 8 * 1024 * 1024

/-- The loop of `splitShipBatches`; a first record is taken whatever its size. -/
def splitLoop (current : List CommitRecord) (bytes : ℕ) : List CommitRecord → List (List CommitRecord)
  | [] => if current = [] then [] else [current]
  | r :: rest =>
    if current ≠ [] ∧ shipBatchTxnBytes < bytes + r.txnBytes then current :: splitLoop [r] r.txnBytes rest
    else splitLoop (current ++ [r]) (bytes + r.txnBytes) rest

def splitShipBatches (records : List CommitRecord) : List (List CommitRecord) := splitLoop [] 0 records

def relabel (shardId : ℕ) (r : CommitRecord) : CommitRecord := { r with shardId := shardId }

/-- The records of an outbox for a shard, after those the shard has. -/
def shipRecords (m : CommitLogShardMeta) (floor : ℕ) (outbox : Store) : List CommitRecord :=
  ((outbox.commitRecordsAfter commitLogStagingShardId (max floor (m.startTs - 1)) shipBatchRecords).filter
    fun r => m.covers r.commitTs).map (relabel m.shardId)

/-- A shipment under way: the shard as the leader has read it, the Region, and the batches left. -/
structure ShipTask where
  shard : CommitLogShardMeta
  regionId : ℕ
  maxTxnBytes : ℕ
  batches : List (List CommitRecord)

/-! ### Computing the watermark -/

/-- How far the reads of `local_watermark` have come.  A cursor or a floor that has been read waits for the read that
goes with it; before the outboxes of a shard its group is assembled, which has no Region. -/
inductive ScanPhase where
  | regions
  | table (regions : List ℕ)
  | cursors (regions : List ℕ) (table : CommitLogShardTable) (todo : List ℕ) (applied : Option ℕ)
  | outboxes (regions : List ℕ) (table : CommitLogShardTable) (todo : List (CommitLogShardMeta × Option ℕ))
    (shipped : Option ℕ)

structure WatermarkScan where
  decisionLast : ℕ
  inFlight : List ℕ
  phase : ScanPhase

/-! ### The node -/

/-- The stores of a node: the system Region, the data Regions and the groups of the shards; the Regions and groups it
runs, the shipments and the watermarks under way, and the watermarks it has computed.  `records` are the records that
the outboxes ever held; no step reads it. -/
structure Pipeline where
  system : Store
  region : ℕ → Store
  shard : ℕ → Store
  assembled : List ℕ
  groups : List ℕ
  ships : List ShipTask
  scans : List WatermarkScan
  watermarks : List ℕ
  records : List CommitRecord

def Pipeline.start : Pipeline := ⟨Store.empty, fun _ => Store.empty, fun _ => Store.empty, [], [], [], [], [], []⟩

def Pipeline.table (p : Pipeline) : CommitLogShardTable := p.system.shardTable

/-- The decisions of the system Region, in order. -/
def Pipeline.decisions (p : Pipeline) : List SequencerDecision := p.system.seq.decisions.rows.map Prod.snd

inductive Step where
  | system (nowMs : ℤ) (e : Entry)
  | publish (watermark : ℕ) (logId : AppliedLogId)
  | region (regionId : ℕ) (nowMs : ℤ) (e : Entry)
  | applyDecisions (region : RegionMeta) (afterTs batch maxBytes maxTxnBytes : ℕ) (logId : AppliedLogId)
  | trim (regionId throughTs maxRows : ℕ) (logId : AppliedLogId)
  | beginShip (shard : CommitLogShardMeta) (regionId floor maxTxnBytes : ℕ)
  | ship (i : ℕ) (logId : AppliedLogId)
  | ensureRuntime (shardId : ℕ)
  | gcLocal (shardId : ℕ)
  | beginScan
  | scan (i : ℕ)
  | attach (regionId : ℕ)
  | retire (regionId : ℕ)

section

variable (cfg : Config)

/-- The command of an entry writes to the commit log. -/
def writesLog (e : Entry) : Bool :=
  match e.payload with
  | .normal cmd => cmd.writesLog
  | _ => false

def publishes (e : Entry) : Bool :=
  match e.payload with
  | .normal (.publishCommitWatermark _) => true
  | _ => false

/-- The store after an entry; one that fails leaves it. -/
def applied (s : Store) (nowMs : ℤ) (e : Entry) : Store :=
  match applyEntry cfg nowMs s e with
  | .error _ => s
  | .ok (s, _) => s

/-- Whether the leader may have read the shard so: it is in the table, perhaps bounded since. -/
def Pipeline.knows (p : Pipeline) (m : CommitLogShardMeta) : Bool :=
  p.table.shards.any fun z => decide (z.shardId = m.shardId ∧ z.startTs = m.startTs ∧ (m.endTs = 0 ∨ m.endTs = z.endTs))

/-- The groups of the node once it runs that of the shard.  A new group takes its peers from a Region that the node
runs: without one, or when the shard is gone, it fails. -/
def Pipeline.ensureRuntime (p : Pipeline) (shardId : ℕ) : Option (List ℕ) :=
  if shardId ∈ p.groups then some p.groups
  else if p.assembled ≠ [] ∧ shardId ∈ p.table.liveShards.map CommitLogShardMeta.shardId then
    some (p.groups ++ [shardId])
  else none

/-- One read of `local_watermark`, with the groups after it; a watermark once all are done, and `none` when a group
cannot be assembled. -/
def scanStep (p : Pipeline) (s : WatermarkScan) : Option (List ℕ × (WatermarkScan ⊕ CommitWatermarkState)) :=
  match s.phase with
  | .regions => some (p.groups, .inl { s with phase := .table p.assembled })
  | .table regions => some (p.groups, .inl { s with phase := .cursors regions p.table regions none })
  | .cursors regions table [] _ =>
    let todo := table.liveShards.flatMap fun m => (m, none) :: regions.map fun r => (m, some r)
    some (p.groups, .inl { s with phase := .outboxes regions table todo none })
  | .cursors regions table (r :: todo) none =>
    some (p.groups, .inl { s with
      phase := .cursors regions table (r :: todo) (some (p.region r).lastAppliedDecisionTs) })
  | .cursors regions table (_ :: todo) (some applied) =>
    let next := ((DecisionApply.sequencerDecisionsAfter p.decisions applied 1).head?).map SequencerDecision.commitTs
    some (p.groups, .inl { s with
      inFlight := s.inFlight ++ (pendingDecision applied next).toList
      phase := .cursors regions table todo none })
  | .outboxes _ _ [] _ => some (p.groups, .inr (commitWatermark s.decisionLast s.inFlight))
  | .outboxes regions table ((m, none) :: todo) _ =>
    (p.ensureRuntime m.shardId).map fun groups => (groups, .inl { s with phase := .outboxes regions table todo none })
  | .outboxes regions table ((m, some r) :: todo) none =>
    let shipped := (p.shard m.shardId).commitLogShippedThrough r
    some (p.groups, .inl { s with phase := .outboxes regions table ((m, some r) :: todo) (some shipped) })
  | .outboxes regions table ((m, some r) :: todo) (some shipped) =>
    let next := (((p.region r).commitRecordsAfter commitLogStagingShardId (max shipped (m.startTs - 1)) 1).head?).map
      CommitRecord.commitTs
    some (p.groups, .inl { s with
      inFlight := s.inFlight ++ (unshippedRecord m.startTs m.endTs next).toList
      phase := .outboxes regions table todo none })

def step (p : Pipeline) : Step → Pipeline × Option ℕ
  | .system nowMs e => if publishes e then (p, none) else ({ p with system := applied cfg p.system nowMs e }, none)
  | .publish watermark logId =>
    if watermark ∈ p.watermarks then ({ p with system := (p.system.publishCommitWatermark watermark logId).1 }, none)
    else (p, none)
  | .region r nowMs e =>
    if writesLog e then (p, none)
    else ({ p with region := update p.region r (applied cfg (p.region r) nowMs e) }, none)
  | .applyDecisions region afterTs batch maxBytes maxTxnBytes logId =>
    if region.regionId ∈ p.assembled then
      let s := ((p.region region.regionId).applyCommitDecisionsWithLog cfg.size cfg.mode
        (DecisionApply.buildApplyBatch (DecisionApply.sequencerDecisionsAfter p.decisions afterTs batch) region batch
          maxBytes) logId.index logId maxTxnBytes).1
      ({ p with
          region := update p.region region.regionId s
          records := p.records ++ s.commitLog.rows.map Prod.snd }, none)
    else (p, none)
  | .trim r throughTs maxRows logId =>
    if throughTs ≤ p.table.gcBeforeTs then
      let s := ((p.region r).trimCommitLogOutbox cfg.mode throughTs maxRows logId).1
      ({ p with region := update p.region r s }, none)
    else (p, none)
  | .beginShip m r floor maxTxnBytes =>
    if p.knows m = true ∧ floor ≤ (p.shard m.shardId).commitLogShippedThrough r then
      ({ p with ships := p.ships ++ [⟨m, r, maxTxnBytes, splitShipBatches (shipRecords m floor (p.region r))⟩] }, none)
    else (p, none)
  | .ship i logId =>
    match p.ships[i]? with
    | none => (p, none)
    | some t =>
      match t.batches with
      | [] => (p, none)
      | batch :: rest =>
        let s := ((p.shard t.shard.shardId).applyCommitLogAppend cfg.size cfg.mode t.shard.shardId t.shard.startTs
          t.shard.endTs batch t.maxTxnBytes logId.index logId).1
        ({ p with
            shard := update p.shard t.shard.shardId s
            ships := p.ships.set i { t with batches := rest } }, none)
  | .ensureRuntime shardId => ({ p with groups := (p.ensureRuntime shardId).getD p.groups }, none)
  | .gcLocal shardId =>
    if shardId ∈ p.table.liveShards.map CommitLogShardMeta.shardId then (p, none)
    else ({ p with groups := p.groups.filter fun m => decide (m ≠ shardId) }, none)
  | .beginScan => ({ p with scans := p.scans ++ [⟨p.system.seq.last, [], .regions⟩] }, none)
  | .scan i =>
    match p.scans[i]? with
    | none => (p, none)
    | some s =>
      match scanStep p s with
      | none => ({ p with scans := p.scans.eraseIdx i }, none)
      | some (groups, .inl s) => ({ p with groups := groups, scans := p.scans.set i s }, none)
      | some (groups, .inr w) =>
        ({ p with
            groups := groups
            scans := p.scans.eraseIdx i
            watermarks := p.watermarks ++ [w.watermark] }, some w.watermark)
  | .attach r => ({ p with assembled := if r ∈ p.assembled then p.assembled else p.assembled ++ [r] }, none)
  | .retire r => ({ p with assembled := p.assembled.filter fun r' => decide (r' ≠ r) }, none)

end

end Coord.Kvt.Shipping
