import Coord.Raft.Footprint
import Coord.Storage.RowSteps

/-!
# Moving a range from one Region to another

The driver of a split or a merge clears the range on the receiving side, exports the range of the source page by page
and proposes every page to the receiver.  The first page pins the revision; a merge pins it before the first page.
-/

namespace Coord.SplitMerge

open Coord.Storage Coord.Raft

/-- A page as the driver proposes it: a split seals the history before it, a merge keeps the receiver's. -/
def importCommand (sealPriorHistory : Bool) (start stop : Bytes) (rows : List VersionedKv) (watermark : ℕ)
    (done : Bool) : Command :=
  if sealPriorHistory then .importRange start stop rows watermark done
  else .importRangePreserveHistory start stop rows watermark done

section

variable (mode : RevisionMode) (source : Store) (start stop : Bytes) (pageSize : ℕ) (sealPriorHistory : Bool)

/-- The loop over the pages after the key `after`; every page moves it on, so `fuel` bounds the pages. -/
def importLoop : ℕ → Option Bytes → Option ℕ → Except Error (List Command)
  | 0, _, _ => .ok []
  | fuel + 1, after, watermark =>
    match source.exportRangePage mode start stop after pageSize watermark with
    | .error e => .error e
    | .ok page =>
      let pinned := watermark.getD page.revision
      let done := page.nextAfter.isNone
      let command := importCommand sealPriorHistory start stop page.rows pinned done
      if done then .ok [command]
      else match importLoop fuel page.nextAfter (some pinned) with
      | .error e => .error e
      | .ok commands => .ok (command :: commands)

/-- The commands of one attempt, in the order the receiver gets them. -/
def importPages (expectedRevision : Option ℕ) : Except Error (List Command) :=
  match importLoop mode source start stop pageSize sealPriorHistory (source.kvMeta.rows.length + 1) none
      expectedRevision with
  | .error e => .error e
  | .ok commands => .ok (.clearImportRange start stop :: commands)

end

/-- A split pins the revision of its first page; a merge pins the donor's revision, if it has one, before it. -/
def rangeImport (source : Store) (start stop : Bytes) (pageSize : ℕ) (sealPriorHistory : Bool) :
    Except Error (List Command) :=
  let pin := source.currentRevision .commitTs
  importPages .commitTs source start stop pageSize sealPriorHistory
    (if sealPriorHistory = false ∧ 0 < pin then some pin else none)

def splitImport (source : Store) (start stop : Bytes) (pageSize : ℕ) : Except Error (List Command) :=
  rangeImport source start stop pageSize true

/-- A merge asks that the two Regions have applied the same decisions. -/
def mergeImport (donor receiver : Store) (start stop : Bytes) (pageSize : ℕ) : Option (Except Error (List Command)) :=
  if donor.lastAppliedDecisionTs = receiver.lastAppliedDecisionTs then
    some (rangeImport donor start stop pageSize false)
  else none

end Coord.SplitMerge
