import Coord.Storage.Store

/-!
# Reads and writes of the key-value tables

A delete marks the metadata and leaves the value row; compaction removes the rows of old tombstones together with
the old changelog.  Every write appends one changelog entry at its revision, and a revision already in the changelog
is a replay.  A batch of the source's own transaction fails as a whole, so a failed call leaves the store as it was.
-/

namespace Coord.Storage

open Coord.Lib (Table)

structure ApplyOutcome where
  replayed : Bool
  deriving DecidableEq

structure DeleteRangeOutcome where
  deletedKeys : List Bytes
  replayed : Bool
  deriving DecidableEq

structure CompactOutcome where
  deletedChangelog : ℕ
  deletedTombstones : ℕ
  deriving DecidableEq

namespace Store

/-! ### Current reads -/

/-- Whether the metadata of a key marks it deleted; a key without metadata is not. -/
def isDeleted (s : Store) (key : Bytes) : Bool := ((s.kvMeta.get key).map KvMetadata.deleted).getD false

def get (s : Store) (key : Bytes) : Option Bytes :=
  match s.kv.get key with
  | some data => if s.isDeleted key then none else some data
  | none => none

/-- The value rows of `[start, stop)`.  An empty `stop` ends the scan at once: its internal key is the bare prefix
of the value rows. -/
def kvRows (s : Store) (start stop : Bytes) : List (Bytes × Bytes) :=
  s.kv.rows.filter fun r => decide (start ≤ r.1 ∧ r.1 < stop)

def rangeIn (s : Store) (start stop : Bytes) (limit : ℕ) : List (Bytes × Bytes) :=
  takeLimit limit ((s.kvRows start stop).filter fun r => !s.isDeleted r.1)

def rangeHasLiveKeys (s : Store) (start stop : Bytes) : Bool := !(s.rangeIn start stop 1).isEmpty

/-- The tombstones of a range that were set at `revision`; here an empty `stop` is no upper bound. -/
def countDeletedAtRevision (s : Store) (start stop : Bytes) (revision : ℕ) : ℕ :=
  (s.kvMeta.rows.filter fun r => inRange start stop r.1 && r.2.deleted && decide (r.2.modRevision = revision)).length

/-! ### Writes of one key -/

def writePut (s : Store) (key value : Bytes) (leaseId : ℤ) (revision : ℕ) : Store :=
  let m := match s.kvMeta.get key with
    | some m => m.update revision leaseId
    | none => .newKey revision leaseId
  { s with kv := s.kv.insert key value, kvMeta := s.kvMeta.insert key m }

def writeDelete (s : Store) (key : Bytes) (revision : ℕ) : Store :=
  match (s.kvMeta.get key).filter fun m => !m.deleted with
  | some m => { s with kvMeta := s.kvMeta.insert key (m.markDeleted revision) }
  | none => s

/-- Append a changelog entry and record the log entry. -/
def writeChangelog (s : Store) (event : ChangeEvent) (applied : AppliedLogId) : Store :=
  { s with changelog := s.changelog.insert event.revision event, lastApplied := some applied }

/-- The replay guard of a v2 write: the entry at its revision must be the write itself. -/
def replayGuard (mode : RevisionMode) (s : Store) (revision : ℕ) (policy : RevisionPolicy)
    (same : ChangeEvent → Bool) : Option (Except Error Unit) :=
  match policy with
  | .commitTs => (s.changelog.get revision).map fun event =>
      if same event then .ok () else .error (.commitRejected revision (s.currentRevision mode))
  | .logIndex => if s.changelog.has revision then some (.ok ()) else none

def putAtKey (mode : RevisionMode) (s : Store) (key value : Bytes) (leaseId : Option ℤ) (revision : ℕ)
    (applied : AppliedLogId) (policy : RevisionPolicy) : Except Error (Store × ApplyOutcome) :=
  match s.replayGuard mode revision policy fun event => decide (event.changes = [⟨key, some value⟩]) with
  | some (.ok ()) => .ok (s, ⟨true⟩)
  | some (.error e) => .error e
  | none =>
    match s.acceptRevision mode revision policy with
    | .error e => .error e
    | .ok s =>
      let s := s.writePut key value (leaseId.getD 0) revision
      .ok (s.writeChangelog ⟨revision, [⟨key, some value⟩], .put⟩ applied, ⟨false⟩)

def putAtCommitTs (mode : RevisionMode) (s : Store) (key value : Bytes) (leaseId : Option ℤ) (commitTs : ℕ)
    (applied : AppliedLogId) : Except Error (Store × ApplyOutcome) :=
  if commitTs = 0 then .error .commitTsZero else s.putAtKey mode key value leaseId commitTs applied .commitTs

/-- A delete always takes its revision, also of a key that is not there. -/
def deleteAtKey (mode : RevisionMode) (s : Store) (key : Bytes) (revision : ℕ) (applied : AppliedLogId)
    (policy : RevisionPolicy) : Except Error (Store × ApplyOutcome) :=
  match s.replayGuard mode revision policy fun event => decide (event.changes = [⟨key, none⟩]) with
  | some (.ok ()) => .ok (s, ⟨true⟩)
  | some (.error e) => .error e
  | none =>
    match s.acceptRevision mode revision policy with
    | .error e => .error e
    | .ok s => .ok ((s.writeDelete key revision).writeChangelog ⟨revision, [⟨key, none⟩], .delete⟩ applied, ⟨false⟩)

def deleteAtCommitTs (mode : RevisionMode) (s : Store) (key : Bytes) (commitTs : ℕ) (applied : AppliedLogId) :
    Except Error (Store × ApplyOutcome) :=
  if commitTs = 0 then .error .commitTsZero else s.deleteAtKey mode key commitTs applied .commitTs

/-! ### Range deletes -/

/-- The keys of the rows that are live: they have metadata, and it is not a tombstone. -/
def liveKeys (s : Store) (rows : List (Bytes × Bytes)) : List Bytes :=
  (rows.map Prod.fst).filter fun k => ((s.kvMeta.get k).filter fun m => !m.deleted).isSome

def deleteKeys (s : Store) (keys : List Bytes) (revision : ℕ) : Store :=
  keys.foldl (fun s k => s.writeDelete k revision) s

def deleteRangeAtKey (mode : RevisionMode) (s : Store) (start stop : Bytes) (revision : ℕ)
    (applied : AppliedLogId) (policy : RevisionPolicy) : Except Error (Store × DeleteRangeOutcome) :=
  let same : ChangeEvent → Bool := fun event =>
    (event.changes.all fun c => c.value.isNone && inRange start stop c.key) &&
      !s.rangeHasLiveKeys start stop && decide (s.countDeletedAtRevision start stop revision = event.changes.length)
  match s.replayGuard mode revision policy same with
  | some (.ok ()) => .ok (s, ⟨[], true⟩)
  | some (.error e) => .error e
  | none =>
    match s.acceptRevision mode revision policy with
    | .error e => .error e
    | .ok s =>
      let deletedKeys := s.liveKeys (s.kvRows start stop)
      let s := s.deleteKeys deletedKeys revision
      .ok (s.writeChangelog ⟨revision, deletedKeys.map fun k => ⟨k, none⟩, .delete⟩ applied, ⟨deletedKeys, false⟩)

def deleteRangeAtCommitTs (mode : RevisionMode) (s : Store) (start stop : Bytes) (commitTs : ℕ)
    (applied : AppliedLogId) : Except Error (Store × DeleteRangeOutcome) :=
  if commitTs = 0 then .error .commitTsZero else s.deleteRangeAtKey mode start stop commitTs applied .commitTs

end Store

/-! ### Transactions -/

inductive CompareTarget where
  | version | value | modRevision | createRevision
  deriving DecidableEq

inductive CompareOp where
  | equal | greater | less | notEqual
  deriving DecidableEq

inductive CompareValue where
  | version (v : ℤ)
  | value (v : Bytes)
  | modRevision (v : ℤ)
  | createRevision (v : ℤ)
  deriving DecidableEq

/-- Values of different kinds are neither below nor above one another. -/
def CompareValue.lt : CompareValue → CompareValue → Bool
  | .version a, .version b => decide (a < b)
  | .value a, .value b => decide (a < b)
  | .modRevision a, .modRevision b => decide (a < b)
  | .createRevision a, .createRevision b => decide (a < b)
  | _, _ => false

def CompareValue.compare (a b : CompareValue) : CompareOp → Bool
  | .equal => decide (a = b)
  | .notEqual => !decide (a = b)
  | .greater => b.lt a
  | .less => a.lt b

structure TxnCompare where
  key : Bytes
  target : CompareTarget
  op : CompareOp
  targetValue : CompareValue
  deriving DecidableEq

inductive TxnOp where
  | put (key value : Bytes) (leaseId : Option ℤ)
  | delete (key : Bytes)
  | range (key rangeEnd : Bytes) (limit : ℤ)
  deriving DecidableEq

inductive TxnOpResponse where
  | put (revision : ℕ)
  | delete (revision : ℕ)
  | range (kvs : List (Bytes × Bytes)) (count : ℕ) (revision : ℕ)
  deriving DecidableEq

structure TxnResult where
  succeeded : Bool
  revision : ℕ
  responses : List TxnOpResponse
  deriving DecidableEq

/-- Whether `(key, rangeEnd)` names one key: no end, or the key itself. -/
def isSingleKey (key rangeEnd : Bytes) : Bool := decide (rangeEnd = [] ∨ rangeEnd = key)

namespace Store

/-- One condition; a deleted key counts as absent, and a target value of another kind never matches. -/
def evaluateCompare (s : Store) (c : TxnCompare) : Bool :=
  let m := (s.kvMeta.get c.key).filter fun m => !m.deleted
  match c.target, c.targetValue with
  | .version, .version _ => CompareValue.compare (.version ((m.map KvMetadata.version).getD 0)) c.targetValue c.op
  | .value, .value _ => CompareValue.compare (.value ((s.get c.key).getD [])) c.targetValue c.op
  | .modRevision, .modRevision _ =>
    CompareValue.compare (.modRevision ((m.map KvMetadata.modRevision).getD 0)) c.targetValue c.op
  | .createRevision, .createRevision _ =>
    CompareValue.compare (.createRevision ((m.map KvMetadata.createRevision).getD 0)) c.targetValue c.op
  | _, _ => false

def evaluateCompares (s : Store) (compares : List TxnCompare) : Bool := compares.all s.evaluateCompare

/-- The delete of a transaction: a key that has metadata is marked again, deleted or not. -/
def writeTxnDelete (s : Store) (key : Bytes) (revision : ℕ) : Store :=
  match s.kvMeta.get key with
  | some m => { s with kvMeta := s.kvMeta.insert key (m.markDeleted revision) }
  | none => s

def txnRange (s : Store) (key rangeEnd : Bytes) (limit : ℤ) : List (Bytes × Bytes) :=
  let rows := if isSingleKey key rangeEnd then ((s.kv.get key).map fun v => (key, v)).toList
    else s.kvRows key rangeEnd
  takeLimit limit.toNat (rows.filter fun r => !s.isDeleted r.1)

def executeOp (s : Store) (revision : ℕ) : TxnOp → Store × TxnOpResponse × Option KeyValueChange
  | .put key value leaseId =>
    (s.writePut key value (leaseId.getD 0) revision, .put revision, some ⟨key, some value⟩)
  | .delete key => (s.writeTxnDelete key revision, .delete revision, some ⟨key, none⟩)
  | .range key rangeEnd limit =>
    let kvs := s.txnRange key rangeEnd limit
    (s, .range kvs kvs.length revision, none)

def executeOps (s : Store) (revision : ℕ) :
    List TxnOp → Store × List TxnOpResponse × List KeyValueChange
  | [] => (s, [], [])
  | op :: ops =>
    let (s, response, change) := s.executeOp revision op
    let (s, responses, changes) := s.executeOps revision ops
    (s, response :: responses, change.toList ++ changes)

def executeTxnAtRevision (mode : RevisionMode) (s : Store) (compares : List TxnCompare)
    (successOps failureOps : List TxnOp) (revision : ℕ) (applied : AppliedLogId) :
    Except Error (Store × TxnResult) :=
  if s.changelog.has revision then .ok (s, ⟨false, revision, []⟩)
  else match s.acceptRevision mode revision .logIndex with
  | .error e => .error e
  | .ok s =>
    let succeeded := s.evaluateCompares compares
    let (s, responses, changes) := s.executeOps revision (if succeeded then successOps else failureOps)
    .ok (s.writeChangelog ⟨revision, changes, .txn⟩ applied, ⟨succeeded, revision, responses⟩)

/-! ### Compaction -/

/-- A tombstone set before `revision`. -/
def staleTombstone (s : Store) (revision : ℕ) (key : Bytes) : Bool :=
  match s.kvMeta.get key with
  | some m => m.deleted && decide (m.modRevision < revision)
  | none => false

/-- Drop the changelog below the revision, clamped to the current one, and the tombstones set before it.  The
source does it in batches until none is left. -/
def applyCompact (mode : RevisionMode) (s : Store) (revision : ℕ) (applied : AppliedLogId) :
    Store × CompactOutcome :=
  let effective := min revision (s.currentRevision mode)
  if effective = 0 ∨ effective ≤ s.compactedRevision then (s, ⟨0, 0⟩)
  else
    let s' : Store := { s with
      changelog := s.changelog.filter fun r => !decide (r.1 < effective)
      kv := s.kv.filter fun r => !s.staleTombstone effective r.1
      kvMeta := s.kvMeta.filter fun r => !s.staleTombstone effective r.1
      compactedRevisionRow := some effective
      lastApplied := some applied }
    (s'.noteLogIndexRevision mode applied.index, ⟨(s.changelog.rows.filter fun r => decide (r.1 < effective)).length,
        (s.kvMeta.rows.filter fun r => s.staleTombstone effective r.1).length⟩)

/-! ### Reads at an earlier revision -/

/-- Nothing at or below the compacted revision can be read. -/
def ensureHistoryReconstructable (s : Store) (target : ℕ) : Except Error Unit :=
  if target ≤ s.compactedRevision then .error (.revisionCompacted target (s.compactedRevision + 1)) else .ok ()

/-- The first floor above `target` that `hits` selects. -/
def ensureAboveFloors (s : Store) (target : ℕ) (hits : ImportHistoryFloor → Bool) : Except Error Unit :=
  match s.importHistoryFloors.find? fun f => decide (target < f.watermark) && hits f with
  | some f => .error (.importHistoryUnavailable target f.watermark)
  | none => .ok ()

/-- Two half-open ranges meet; an empty end is no upper bound. -/
def rangesIntersect (aStart aEnd bStart bEnd : Bytes) : Bool :=
  decide ((bEnd = [] ∨ aStart < bEnd) ∧ (aEnd = [] ∨ bStart < aEnd))

def ensureImportHistoryAvailable (s : Store) (start stop : Bytes) (target : ℕ) : Except Error Unit :=
  s.ensureAboveFloors target fun f => rangesIntersect start stop f.startKey f.endKey

def ensureKeyImportHistoryAvailable (s : Store) (key : Bytes) (target : ℕ) : Except Error Unit :=
  s.ensureAboveFloors target fun f => inRange f.startKey f.endKey key

/-- The metadata says that the key was created after `target`. -/
def createdAfter (s : Store) (key : Bytes) (target : ℕ) : Bool :=
  ((s.kvMeta.get key).map fun m => decide (target < m.createRevision)).getD false

/-- What the scan for one key has seen: the last write at or before the target, and whether one came after. -/
structure KeyScan where
  last : Option (Option Bytes)
  writtenAfter : Bool
  deriving DecidableEq

def KeyScan.change (key : Bytes) (isAfter : Bool) (acc : KeyScan) (c : KeyValueChange) : KeyScan :=
  if c.key ≠ key then acc
  else if isAfter then { acc with writtenAfter := true }
  else { acc with last := some c.value }

/-- The scan of the changelog for one key; it stops at the first write after the target. -/
def scanKey (key : Bytes) (target : ℕ) (acc : KeyScan) : List (ℕ × ChangeEvent) → KeyScan
  | [] => acc
  | r :: rest =>
    let isAfter := decide (target < r.1)
    let acc := r.2.changes.foldl (KeyScan.change key isAfter) acc
    if isAfter && acc.writtenAfter then acc else scanKey key target acc rest

def getAtRevision (s : Store) (key : Bytes) (target : ℕ) : Except Error (Option Bytes) :=
  match s.ensureHistoryReconstructable target with
  | .error e => .error e
  | .ok () =>
    match s.ensureKeyImportHistoryAvailable key target with
    | .error e => .error e
    | .ok () =>
      let scan := scanKey key target ⟨none, false⟩ s.changelog.rows
      match scan.last with
      | some value => .ok value
      | none =>
        -- no write kept up to the target: the key is as it is now, unless it was written since
        if !scan.writtenAfter then .ok (s.get key)
        else if s.createdAfter key target then .ok none
        else .error (.keyHistoryUnavailable target key)

structure HistoricalRangeView where
  view : Table Bytes Bytes
  changedAfter : List Bytes
  lastWrite : Table Bytes ℕ
  postEvents : Table Bytes (List (ℕ × Bool))
  deriving DecidableEq

def HistoricalRangeView.empty : HistoricalRangeView := ⟨Table.empty, [], Table.empty, Table.empty⟩

def HistoricalRangeView.change (start stop : Bytes) (isAfter : Bool) (revision : ℕ)
    (h : HistoricalRangeView) (c : KeyValueChange) : HistoricalRangeView :=
  if !inRange start stop c.key then h
  else if isAfter then
    let events := (h.postEvents.get c.key).getD [] ++ [(revision, c.value.isNone)]
    { h with changedAfter := c.key :: h.changedAfter, postEvents := h.postEvents.insert c.key events }
  else
    let view := match c.value with
      | some v => h.view.insert c.key v
      | none => h.view.erase c.key
    { h with view := view, lastWrite := h.lastWrite.insert c.key revision }

def HistoricalRangeView.replay (start stop : Bytes) (target : ℕ) (h : HistoricalRangeView)
    (rows : List (ℕ × ChangeEvent)) : HistoricalRangeView :=
  rows.foldl (fun h r => r.2.changes.foldl (.change start stop (decide (target < r.1)) r.2.revision) h) h

/-- The keys the replay may have missed: those written after the target, and those live now with their value. -/
def historyCandidates (s : Store) (start stop : Bytes) (changedAfter : List Bytes) : Table Bytes (Option Bytes) :=
  (Table.empty.insertAll (changedAfter.map fun k => (k, none))).insertAll
    ((s.rangeIn start stop 0).map fun r => (r.1, some r.2))

/-- Complete the view with a candidate, or list it as lost.  The test is on the view alone: a key whose last write
up to the target is a delete is not in it either. -/
def fillCandidate (s : Store) (target : ℕ) (changedAfter : List Bytes)
    (acc : Table Bytes Bytes × List Bytes) (c : Bytes × Option Bytes) : Table Bytes Bytes × List Bytes :=
  if acc.1.has c.1 then acc
  else if c.1 ∉ changedAfter then
    match c.2 with
    | some value => (acc.1.insert c.1 value, acc.2)
    | none => acc
  else if s.createdAfter c.1 target then acc
  else (acc.1, acc.2 ++ [c.1])

def replayHistoricalRange (s : Store) (start stop : Bytes) (target : ℕ) :
    Except Error HistoricalRangeView :=
  match s.ensureHistoryReconstructable target with
  | .error e => .error e
  | .ok () =>
    match s.ensureImportHistoryAvailable start stop target with
    | .error e => .error e
    | .ok () =>
      let h := HistoricalRangeView.empty.replay start stop target s.changelog.rows
      let filled := (s.historyCandidates start stop h.changedAfter).rows.foldl
        (s.fillCandidate target h.changedAfter) (h.view, [])
      match filled.2 with
      | first :: rest => .error (.rangeHistoryUnavailable target (rest.length + 1) first)
      | [] => .ok { h with view := filled.1 }

/-- The writes after the target that took effect, from a key that exists at the target. -/
def effectiveAfter : Bool → List (ℕ × Bool) → ℤ
  | _, [] => 0
  | live, (_, isDelete) :: rest =>
    if isDelete then (if live then 1 + effectiveAfter false rest else effectiveAfter false rest)
    else 1 + effectiveAfter true rest

def historicalMetadata (s : Store) (h : HistoricalRangeView) (target : ℕ) (key : Bytes) :
    Except Error KvMetadata :=
  match s.kvMeta.get key with
  | none => .error (.historicalMetadataMissing key target)
  | some current =>
    let effective := effectiveAfter true ((h.postEvents.get key).getD [])
    if effective = 0 then
      if current.deleted then .error (.historicalDeleteMissing key target) else .ok current
    else match h.lastWrite.get key with
    | none => .error (.historicalWriteMissing key target)
    | some modRevision =>
      if target < current.createRevision then .error (.historicalCreateAfter key target current.createRevision)
      else .ok ⟨current.version - effective, current.createRevision, modRevision, current.leaseId, false⟩

def historicalRows (s : Store) (h : HistoricalRangeView) (target : ℕ) :
    List (Bytes × Bytes) → Except Error (List (Bytes × Bytes × KvMetadata))
  | [] => .ok []
  | (key, value) :: rest =>
    match s.historicalMetadata h target key with
    | .error e => .error e
    | .ok m =>
      match s.historicalRows h target rest with
      | .error e => .error e
      | .ok rows => .ok ((key, value, m) :: rows)

def rangeAtRevisionWithMetadata (s : Store) (start stop : Bytes) (limit : ℕ) (target : ℕ) :
    Except Error (List (Bytes × Bytes × KvMetadata)) :=
  match s.replayHistoricalRange start stop target with
  | .error e => .error e
  | .ok h => s.historicalRows h target (takeLimit limit h.view.rows)

end Store

end Coord.Storage
