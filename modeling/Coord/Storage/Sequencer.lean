import Coord.Raft.TypeConfig
import Coord.Lib.Trace

/-!
# The Commit Sequencer of the system Region

The sequencer's rows under `/_sys/seq/` and what applying a batch does to them: every candidate is validated
against the decisions made so far and, when nothing it read was written after its snapshot, becomes the next
decision.  The decisions are not searched: three indexes keep the largest commit timestamp of every key
(by digest, and in key order) and of every range write.
-/

namespace Coord.Storage

open Coord.Lib Coord.Raft

/-- The domains `sequencer_hash` separates. -/
inductive HashDomain where
  | txn | req | key | interval
  deriving DecidableEq

structure SequencerRows where
  /-- `/_sys/seq/decision/{commit_ts}` -/
  decisions : Table ℕ SequencerDecision
  /-- `/_sys/seq/last_commit_ts` -/
  lastCommitTs : Option ℕ
  /-- `/_sys/seq/txn/{hash}` -/
  txnIndex : Table Bytes ℕ
  /-- `/_sys/seq/req/{hash}` -/
  requestIndex : Table Bytes ℕ
  /-- `/_sys/seq/vidx/{hash}` -/
  keyIndex : Table Bytes ℕ
  /-- `/_sys/seq/ridx/{key}` -/
  rangeIndex : Table Bytes ℕ
  /-- `/_sys/seq/iidx/{hash}` -/
  intervalIndex : Table Bytes SequencerIntervalWrite
  /-- `/_sys/seq/vidx_last_ts` -/
  indexLastTs : Option ℕ
  deriving DecidableEq

def SequencerRows.empty : SequencerRows where
  decisions := Table.empty
  lastCommitTs := none
  txnIndex := Table.empty
  requestIndex := Table.empty
  keyIndex := Table.empty
  rangeIndex := Table.empty
  intervalIndex := Table.empty
  indexLastTs := none

/-- `sequencer_last_commit_ts`: a missing row is `0`. -/
def SequencerRows.last (st : SequencerRows) : ℕ := st.lastCommitTs.getD 0

structure SequencerIndexHit where
  key : Bytes
  commitTs : ℕ
  deriving DecidableEq

inductive SequencerRangeQuery where
  | hit (h : SequencerIndexHit)
  | clear
  | exceeded (scanned : ℕ)
  deriving DecidableEq

/-- At most `limit` rows, as `iter_range_limited` gives; `0` is no limit. -/
def takeLimit {α : Type} (limit : ℕ) (rows : List α) : List α := if limit = 0 then rows else rows.take limit

/-- The number of rows fetched to notice that a scan exceeds its budget. -/
def fetchLimit (maxEntries : ℕ) : ℕ := if maxEntries = 0 then 0 else maxEntries + 1

/-- The larger commit timestamp; at equal timestamps the smaller key. -/
def bestIndexHit : Option SequencerIndexHit → Option SequencerIndexHit → Option SequencerIndexHit
  | none, hit => hit
  | hit, none => hit
  | some left, some right =>
    if left.commitTs < right.commitTs ∨ (right.commitTs = left.commitTs ∧ right.key < left.key) then some right
    else some left

/-- The interval rows, or `none` when they exceed the budget. -/
def sequencerIntervalRowsIn (st : SequencerRows) (maxEntries : ℕ) : Option (List SequencerIntervalWrite) :=
  let rows := takeLimit (fetchLimit maxEntries) st.intervalIndex.rows
  if 0 < maxEntries ∧ maxEntries < rows.length then none else some (rows.map Prod.snd)

/-- The best of the interval rows after `startTs` that satisfy `p`. -/
def bestInterval (entries : List SequencerIntervalWrite) (startTs : ℕ)
    (p : SequencerIntervalWrite → Bool) : Option SequencerIndexHit :=
  entries.foldl (fun best entry =>
    if startTs < entry.commitTs ∧ p entry = true then bestIndexHit best (some ⟨entry.start, entry.commitTs⟩)
    else best) none

/-- The best interval row after `startTs` that contains `key`. -/
def sequencerIntervalPointHit (entries : List SequencerIntervalWrite) (key : Bytes) (startTs : ℕ) :
    Option SequencerIndexHit :=
  bestInterval entries startTs fun entry => decide (entry.start ≤ key ∧ key < entry.stop)

/-- Whether `[start, stop)` meets an interval row after `startTs`; an empty end is no upper bound. -/
def sequencerIntervalRangeIn (st : SequencerRows) (start stop : Bytes) (startTs : ℕ)
    (maxEntries : ℕ) : SequencerRangeQuery :=
  match sequencerIntervalRowsIn st maxEntries with
  | none => .exceeded maxEntries
  | some entries =>
    match bestInterval entries startTs fun entry =>
        decide ((stop = [] ∨ entry.start < stop) ∧ (entry.stop = [] ∨ start < entry.stop)) with
    | some hit => .hit hit
    | none => .clear

/-- The rows of the ordered index in `[start, stop)`. -/
def rangeIndexRows (st : SequencerRows) (start stop : Bytes) : List (Bytes × ℕ) :=
  st.rangeIndex.rows.filter (fun r => decide (start ≤ r.1 ∧ (stop = [] ∨ r.1 < stop)))

/-- The scan of the ordered index: the first row with the largest timestamp after `startTs`. -/
def laterRow (startTs : ℕ) (best : Option SequencerIndexHit) (row : Bytes × ℕ) :
    Option SequencerIndexHit :=
  if row.2 ≤ startTs then best
  else match best with
    | none => some ⟨row.1, row.2⟩
    | some hit => if hit.commitTs < row.2 then some ⟨row.1, row.2⟩ else some hit

/-- Whether `[start, stop)` was written after `startTs`. -/
def sequencerRangeQueryIn (st : SequencerRows) (start stop : Bytes) (startTs : ℕ)
    (maxEntries : ℕ) : SequencerRangeQuery :=
  if stop ≠ [] ∧ stop ≤ start then .clear
  else
    let rows := takeLimit (fetchLimit maxEntries) (rangeIndexRows st start stop)
    if 0 < maxEntries ∧ maxEntries < rows.length then .exceeded maxEntries
    else match rows.foldl (laterRow startTs) none with
      | some hit => .hit hit
      | none => sequencerIntervalRangeIn st start stop startTs maxEntries

section

-- `sequencer_hash`: the SHA-256 digest of the domain and the length-prefixed parts
variable (sequencerHash : HashDomain → List Bytes → Bytes)

/-- Raise the timestamp stored under `k`; it never falls. -/
def raise (t : Table Bytes ℕ) (k : Bytes) (ts : ℕ) : Table Bytes ℕ :=
  if (t.get k).getD 0 < ts then t.insert k ts else t

def indexMutation (commitTs : ℕ) (st : SequencerRows) : SequencerMutation → SequencerRows
  | .put key _ _ =>
    { st with keyIndex := raise st.keyIndex (sequencerHash .key [key]) commitTs
              rangeIndex := raise st.rangeIndex key commitTs }
  | .delete key =>
    { st with keyIndex := raise st.keyIndex (sequencerHash .key [key]) commitTs
              rangeIndex := raise st.rangeIndex key commitTs }
  | .deleteRange start stop =>
    let indexKey := sequencerHash .interval [start, stop]
    let prev := (st.intervalIndex.get indexKey).getD ⟨[], [], 0⟩
    if prev.commitTs < commitTs then
      { st with intervalIndex := st.intervalIndex.insert indexKey ⟨start, stop, commitTs⟩ }
    else st

def sequencerIndexWritesInTx (st : SequencerRows) (decision : SequencerDecision) : SequencerRows :=
  decision.mutations.foldl (indexMutation sequencerHash decision.commitTs) st

/-- A write of `key` after the snapshot: the digest index first, then the interval rows. -/
def pointHit (st : SequencerRows) (intervalEntries : List SequencerIntervalWrite) (startTs : ℕ)
    (key : Bytes) : Option ℕ :=
  match (st.keyIndex.get (sequencerHash .key [key])).filter (fun writeTs => decide (startTs < writeTs)) with
  | some writeTs => some writeTs
  | none => (sequencerIntervalPointHit intervalEntries key startTs).map (·.commitTs)

/-- The first point read that was written after the snapshot, with the write's timestamp. -/
def pointConflict (st : SequencerRows) (intervalEntries : List SequencerIntervalWrite) (startTs : ℕ)
    (readSet : List Bytes) : Option (Bytes × ℕ) :=
  readSet.findSome? fun key => (pointHit sequencerHash st intervalEntries startTs key).map fun ts => (key, ts)

/-- The first read predicate whose query is not clear, and its answer. -/
def rangeConflict (st : SequencerRows) (startTs : ℕ) (maxRange : ℕ) :
    List SequencerReadRange → SequencerRangeQuery
  | [] => .clear
  | range :: ranges =>
    match sequencerRangeQueryIn st range.start range.stop startTs maxRange with
    | .clear => rangeConflict st startTs maxRange ranges
    | other => other

/-- The rows after the decision of `txn` is recorded. -/
def recordDecision (st : SequencerRows) (txn : SequencerTxn) : SequencerRows :=
  let decision : SequencerDecision := ⟨txn.txnId, txn.requestId, txn.startTs, txn.commitTs, txn.mutations⟩
  let st := { st with
    decisions := st.decisions.insert txn.commitTs decision
    txnIndex := st.txnIndex.insert (sequencerHash .txn [txn.txnId]) txn.commitTs
    requestIndex := if txn.requestId = [] then st.requestIndex
      else st.requestIndex.insert (sequencerHash .req [txn.txnId, txn.requestId]) txn.commitTs }
  { sequencerIndexWritesInTx sequencerHash st decision with
    indexLastTs := some txn.commitTs
    lastCommitTs := some txn.commitTs }

/-- The commit timestamp under which the transaction, or its request, was already decided. -/
def alreadyDecided (st : SequencerRows) (txn : SequencerTxn) : Option ℕ :=
  match st.txnIndex.get (sequencerHash .txn [txn.txnId]) with
  | some existing => some existing
  | none =>
    if txn.requestId = [] then none
    else st.requestIndex.get (sequencerHash .req [txn.txnId, txn.requestId])

/-- The outcome of a candidate whose reads have to be checked. -/
def validateReads (st : SequencerRows) (txn : SequencerTxn) (readRanges : List SequencerReadRange)
    (maxRange : ℕ) : SequencerOutcome :=
  match (if txn.readSet = [] then some [] else sequencerIntervalRowsIn st maxRange) with
  | none => .invalid txn.commitTs .rangeScanExceeded
  | some intervalEntries =>
    match pointConflict sequencerHash st intervalEntries txn.startTs txn.readSet with
    | some (key, ts) => .conflict txn.commitTs key ts
    | none =>
      match rangeConflict st txn.startTs maxRange readRanges with
      | .hit hit => .conflict txn.commitTs hit.key hit.commitTs
      | .exceeded _ => .invalid txn.commitTs .rangeScanExceeded
      | .clear => .committed txn.commitTs

/-- `sequencer_validate_in_tx` without its writes: the outcome of one candidate.  The order of the checks is
the source's: idempotency before the timestamps, the limits before the reads. -/
def sequencerOutcome (st : SequencerRows) (txn : SequencerTxn) (readRanges : List SequencerReadRange)
    (limits : Option SequencerValidationLimits) : SequencerOutcome :=
  if txn.txnId = [] then .invalid txn.commitTs .missingTxnId
  else match alreadyDecided sequencerHash st txn with
  | some existing => .duplicate existing
  | none =>
    if txn.commitTs ≤ txn.startTs then .invalid txn.commitTs .commitTsNotAboveStart
    else if txn.commitTs ≤ st.last then .outOfOrder txn.commitTs st.last
    else if ∃ l ∈ limits, 0 < l.maxReadSet ∧ l.maxReadSet < txn.readSet.length + readRanges.length then
      .invalid txn.commitTs .readSetTooLarge
    else validateReads sequencerHash st txn readRanges ((limits.map (·.maxRange)).getD 0)

/-- One candidate: the rows after it and its outcome.  Only a committed candidate writes. -/
def sequencerValidateInTx (st : SequencerRows) (txn : SequencerTxn) (readRanges : List SequencerReadRange)
    (limits : Option SequencerValidationLimits) : SequencerRows × SequencerOutcome :=
  match sequencerOutcome sequencerHash st txn readRanges limits with
  | .committed ts => (recordDecision sequencerHash st txn, .committed ts)
  | other => (st, other)

end

/-- A candidate with what its batch says about it. -/
structure Candidate where
  txn : SequencerTxn
  readRanges : List SequencerReadRange
  limits : Option SequencerValidationLimits
  deriving DecidableEq

/-- The candidates of a batch, in order; the older command has no read predicates and no limits. -/
def candidates : SequencerOp → List Candidate
  | .validateAndCommit txns => txns.map fun txn => ⟨txn, [], none⟩
  | .validateAndCommitWithRanges txns limits => txns.map fun entry => ⟨entry.txn, entry.readRanges, some limits⟩

section

variable (sequencerHash : HashDomain → List Bytes → Bytes)

def validateStep (st : SequencerRows) (c : Candidate) : SequencerRows × SequencerOutcome :=
  sequencerValidateInTx sequencerHash st c.txn c.readRanges c.limits

/-- `apply_sequencer_op`: the candidates of the batch one after the other, each seeing the writes of those
before it, with their outcomes in the same order. -/
def applySequencerOp (st : SequencerRows) (op : SequencerOp) : SequencerRows × List SequencerOutcome :=
  (exec (validateStep sequencerHash) st (candidates op),
    (trace (validateStep sequencerHash) st (candidates op)).map (·.out))

def applySequencerOps (st : SequencerRows) (ops : List SequencerOp) :
    SequencerRows × List (List SequencerOutcome) :=
  (exec (applySequencerOp sequencerHash) st ops, (trace (applySequencerOp sequencerHash) st ops).map (·.out))

end

end Coord.Storage
