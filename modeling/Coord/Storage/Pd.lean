import Coord.Storage.Kv

/-!
# The placement driver, the Region table and the timestamp oracle

What the system Region's log does to the operator queue, to the split and merge journal, to the Region table and to
the timestamps.  A cutover writes the table and the phase of its intent in one entry.
-/

namespace Coord.Storage

inductive PdOp where
  | enqueue (op : Operator) (requester : ℕ) (proposedAtUnix : ℤ)
  | claim (opId nodeId : ℕ) (claimedAtUnix : ℤ)
  | complete (opId nodeId : ℕ) (success : Bool) (error : Text)
  | requeue (opId : ℕ)
  | recordIntent (intent : PdIntent)
  | cutover (opId : ℕ)
  | clearIntent (opId : ℕ)
  deriving DecidableEq

inductive RegionMetaOp where
  | init (regions : List RegionMeta)
  | apply (changes : List RegionChange)
  deriving DecidableEq

/-- The operation on a table, with whether it changed it. -/
def RegionMetaOp.run (table : RegionTable) : RegionMetaOp → Except RegionTableError (RegionTable × Bool)
  | .init regions => table.init regions
  | .apply changes => table.apply changes

inductive RegionMetaOutcome where
  | applied (version : ℕ)
  | rejected (reason : RegionTableError)
  deriving DecidableEq

structure TsoBatchOutcome where
  startTs : ℕ
  endTs : ℕ
  replayed : Bool
  deriving DecidableEq

def pdQueueMaxTerminal : ℕ := 512

namespace Store

/-! ### The queue and the journal -/

/-- The Region table; a row that breaks the invariant of the table is not read. -/
def regionTable (s : Store) : Except Error RegionTable :=
  match s.regionTableRow with
  | none => .ok .default
  | some table =>
    match table.validate with
    | .error e => .error (.regionTable e)
    | .ok () => .ok table

/-- Rewrite a queued operator, unless `f` refuses. -/
def updatePdOp (s : Store) (opId : ℕ) (f : PdQueueEntry → Option PdQueueEntry) : Store :=
  match (s.pdOps.get opId).bind f with
  | some e => { s with pdOps := s.pdOps.insert opId e }
  | none => s

/-- The table and the phase after the cutover of a prepared intent. -/
def cutoverPhase (table : RegionTable) (plan : SplitMergePlan) : Option RegionTable × IntentPhase :=
  if table.version ≠ plan.expectedTableVersion then
    (none, .rejected (.tableMoved table.version plan.expectedTableVersion))
  else match table.apply plan.changes with
  | .ok (table, _) => (some table, .applied table.version)
  | .error e => (none, .rejected (.table e))

def cutover (s : Store) (opId : ℕ) : Except Error Store :=
  match (s.pdIntents.get opId).filter fun intent => decide (intent.phase = .prepared) with
  | none => .ok s
  | some intent =>
    match s.regionTable with
    | .error e => .error e
    | .ok table =>
      let (table, phase) := cutoverPhase table intent.plan
      .ok { s with
        regionTableRow := table.orElse fun _ => s.regionTableRow
        pdIntents := s.pdIntents.insert opId { intent with phase := phase } }

/-- The rows of an operation of the queue or the journal.  An operator already waiting or running is not queued
again, and the first intent of an operator stays. -/
def writePdOp (s : Store) (revision : ℕ) : PdOp → Except Error Store
  | .enqueue op requester proposedAtUnix => .ok <|
    if s.pdOps.rows.any fun r => (r.2.isPending || r.2.isRunning) && decide (r.2.op = op) then s
    else { s with pdOps := s.pdOps.insert revision (.newPending revision op requester proposedAtUnix) }
  | .claim opId nodeId claimedAtUnix => .ok (s.updatePdOp opId fun e => e.tryClaim nodeId claimedAtUnix)
  | .complete opId nodeId success error => .ok (s.updatePdOp opId fun e => e.tryComplete nodeId success error)
  | .requeue opId => .ok (s.updatePdOp opId fun e => e.tryRequeue)
  | .recordIntent intent => .ok <|
    if s.pdIntents.has intent.opId then s else { s with pdIntents := s.pdIntents.insert intent.opId intent }
  | .cutover opId => s.cutover opId
  | .clearIntent opId => .ok { s with pdIntents := s.pdIntents.erase opId }

/-- Drop the oldest finished operators above the bound. -/
def trimTerminal (s : Store) : Store :=
  let terminal := (s.pdOps.rows.filter fun r => r.2.isTerminal).map Prod.fst
  let excess := terminal.take (terminal.length - pdQueueMaxTerminal)
  { s with pdOps := excess.foldl (fun t opId => t.erase opId) s.pdOps }

def applyPdOp (mode : RevisionMode) (s : Store) (op : PdOp) (revision : ℕ) (applied : AppliedLogId) :
    Except Error (Store × ApplyOutcome) :=
  if s.changelog.has revision then .ok (s, ⟨true⟩)
  else match (s.noteLogIndexRevision mode revision).writePdOp revision op with
  | .error e => .error e
  | .ok s => .ok (s.trimTerminal.writeChangelog ⟨revision, [], .put⟩ applied, ⟨false⟩)

/-! ### The Region table -/

/-- A refused batch leaves the table as it was, and the entry is recorded all the same. -/
def applyRegionMetaOp (s : Store) (op : RegionMetaOp) (applied : AppliedLogId) :
    Except Error (Store × RegionMetaOutcome) :=
  match s.regionTable with
  | .error e => .error e
  | .ok table =>
    let s := { s with lastApplied := some applied }
    match op.run table with
    | .ok (table, changed) =>
      .ok (if changed then { s with regionTableRow := some table } else s, .applied table.version)
    | .error e => .ok (s, .rejected e)

/-! ### Timestamps -/

/-- The first timestamp that has not been handed out. -/
def tsoHighWater (s : Store) : ℕ := s.tsoHighWaterRow.getD 1

def applyTsoAllocate (mode : RevisionMode) (s : Store) (batchSize : ℕ) (revision : ℕ) (applied : AppliedLogId) :
    Except Error (Store × TsoBatchOutcome) :=
  if s.changelog.has revision then
    match s.tsoLastBatch.filter fun rec => decide (rec.revision = revision) with
    | some rec => .ok (s, ⟨rec.startTs, rec.endTs, true⟩)
    | none => .ok (s, ⟨s.tsoHighWater, s.tsoHighWater, true⟩)
  else
    let s := s.noteLogIndexRevision mode revision
    let startTs := s.tsoHighWater
    let endTs := startTs + max batchSize 1
    if 2 ^ 64 ≤ endTs then .error .tsoOverflow
    else
      let s := { s with tsoHighWaterRow := some endTs, tsoLastBatch := some ⟨revision, startTs, endTs⟩ }
      .ok (s.writeChangelog ⟨revision, [], .put⟩ applied, ⟨startTs, endTs, false⟩)

end Store

end Coord.Storage
