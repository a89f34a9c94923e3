import Coord.Storage.Kv

/-!
# Moving a range between Regions

A range is exported page by page at one revision, with the metadata of every row, and imported by entries of the
receiving Region's log.  The last page of a split raises the revision, the compacted revision and the decision cursor
of the new Region to the watermark of the export; that of a merge records how far back the range has no history.
-/

namespace Coord.Storage

abbrev VersionedKv := Bytes × Bytes × KvMetadata

structure RangeSnapshotPage where
  rows : List VersionedKv
  nextAfter : Option Bytes
  revision : ℕ
  deriving DecidableEq

/-- `/_`, the prefix of the store's own keys. -/
def reservedPrefix : Bytes := [47, 95]

namespace Store

/-! ### Export -/

/-- The rows of live keys; a live key without a value is an error. -/
def exportRows (s : Store) : List (Bytes × KvMetadata) → Except Error (List VersionedKv)
  | [] => .ok []
  | (key, m) :: rest =>
    match s.kv.get key with
    | none => .error (.exportMissingValue key)
    | some value =>
      match s.exportRows rest with
      | .error e => .error e
      | .ok rows => .ok ((key, value, m) :: rows)

/-- A page of `[start, stop)` after the key `after`, which the page before ended with.  An empty page needs no
revision. -/
def exportRangePage (mode : RevisionMode) (s : Store) (start stop : Bytes) (after : Option Bytes) (limit : ℕ)
    (expectedRevision : Option ℕ) : Except Error RangeSnapshotPage :=
  let lower := match after.filter fun a => decide (start ≤ a) with
    | some a => a ++ [0]
    | none => start
  let revision := s.currentRevision mode
  if stop ≠ [] ∧ stop ≤ lower then .ok ⟨[], none, revision⟩
  else match expectedRevision.filter fun expected => decide (expected ≠ revision) with
  | some expected => .error (.exportRevisionAdvanced expected revision)
  | none =>
    let live := s.kvMeta.rows.filter fun r => inRange lower stop r.1 && !r.2.deleted
    match s.exportRows (takeLimit limit live) with
    | .error e => .error e
    | .ok rows =>
      let hasMore := decide (0 < limit ∧ limit < live.length)
      .ok ⟨rows, if hasMore then rows.getLast?.map Prod.fst else none, revision⟩

/-! ### Import -/

/-- The checks on one row of a page, with the keys before it. -/
def validateImportRow (start stop : Bytes) (watermark : ℕ) (seen : List Bytes) (row : VersionedKv) :
    Except Error Unit :=
  let key := row.1
  let m := row.2.2
  if inRange start stop key = false then .error (.importKeyOutside key start stop)
  else if reservedPrefix.isPrefixOf key then .error (.importReservedPrefix key)
  else if key ∈ seen then .error (.importDuplicateKey key)
  else if m.deleted then .error .importDeletedRow
  else if m.modRevision = 0 ∨ watermark < m.modRevision then .error (.importModRevision m.modRevision watermark)
  else if m.createRevision = 0 ∨ m.modRevision < m.createRevision then
    .error (.importCreateRevision m.createRevision)
  else if m.version ≤ 0 then .error .importVersion
  else .ok ()

def validateImport (start stop : Bytes) (watermark : ℕ) (seen : List Bytes) :
    List VersionedKv → Except Error Unit
  | [] => .ok ()
  | row :: rest =>
    match validateImportRow start stop watermark seen row with
    | .error e => .error e
    | .ok () => validateImport start stop watermark (row.1 :: seen) rest

/-- One row: a newer row stays, and the same revision must carry the same value. -/
def importRow (s : Store) (row : VersionedKv) : Except Error (Store × Bool) :=
  let key := row.1
  let value := row.2.1
  let m := row.2.2
  let written : Store := { s with kv := s.kv.insert key value, kvMeta := s.kvMeta.insert key m }
  match s.kvMeta.get key with
  | none => .ok (written, true)
  | some existing =>
    if m.modRevision < existing.modRevision then .ok (s, false)
    else if existing.modRevision = m.modRevision then
      match s.kv.get key with
      | none => .error (.importMissingValue key)
      | some plaintext => if plaintext = value then .ok (s, false) else .error (.importDifferentValue key m.modRevision)
    else .ok (written, true)

def importRows (s : Store) (imported : ℕ) : List VersionedKv → Except Error (Store × ℕ)
  | [] => .ok (s, imported)
  | row :: rest =>
    match s.importRow row with
    | .error e => .error e
    | .ok (s, written) => s.importRows (if written then imported + 1 else imported) rest

def raiseFloor (start stop : Bytes) (watermark : ℕ) : List ImportHistoryFloor → List ImportHistoryFloor
  | [] => [⟨start, stop, watermark⟩]
  | f :: rest =>
    if f.startKey = start ∧ f.endKey = stop then { f with watermark := max f.watermark watermark } :: rest
    else f :: raiseFloor start stop watermark rest

def finishImport (s : Store) (start stop : Bytes) (watermark : ℕ) (sealPriorHistory : Bool)
    (currentBefore : ℕ) : Store :=
  if sealPriorHistory then
    let targetRevision := max currentBefore watermark
    { s with
      currentRevisionRow := some targetRevision
      compactedRevisionRow := some (min (max s.compactedRevision watermark) targetRevision)
      decisionApplied := some (max s.lastAppliedDecisionTs watermark) }
  else { s with importHistoryFloors := raiseFloor start stop watermark s.importHistoryFloors }

def applyRangeImport (mode : RevisionMode) (s : Store) (start stop : Bytes) (rows : List VersionedKv)
    (watermark : ℕ) (sealPriorHistory done : Bool) (applied : AppliedLogId) : Except Error (Store × ℕ) :=
  if mode ≠ .commitTs then .error .importNeedsCommitTs
  else if watermark = 0 ∧ rows ≠ [] then .error .importWatermarkZero
  else match validateImport start stop watermark [] rows with
  | .error e => .error e
  | .ok () =>
    match s.importRows 0 rows with
    | .error e => .error e
    | .ok (s', imported) =>
      let s' := if done then
          s'.finishImport start stop watermark sealPriorHistory (s.currentRevision mode)
        else s'
      .ok ({ s' with lastApplied := some applied }, imported)

/-- Remove every row of a range, with no trace in the changelog. -/
def clearImportedRange (mode : RevisionMode) (s : Store) (start stop : Bytes) (applied : AppliedLogId) :
    Except Error (Store × ℕ) :=
  if mode ≠ .commitTs then .error .importNeedsCommitTs
  else
    let stale := (s.kv.rows.filter fun r => inRange start stop r.1).map Prod.fst
    .ok ({ s with
        kv := stale.foldl (fun t key => t.erase key) s.kv
        kvMeta := stale.foldl (fun t key => t.erase key) s.kvMeta
        lastApplied := some applied },
      stale.length)

end Store

end Coord.Storage
