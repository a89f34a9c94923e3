import Coord.Raft.TypeConfig

/-!
# The Region table of the system Region

One row of the system Region holds the whole table: the Regions in key order, tiling the key space.  A change
batch is applied as a whole or not at all, and a split or merge is such a batch together with the table version
it was computed from.
-/

namespace Coord.Storage

/-- A Rust `String`, as its UTF-8 bytes. -/
abbrev Text := Bytes

abbrev RegionId := ℕ

structure RegionEpoch where
  confVer : ℕ
  version : ℕ
  deriving DecidableEq

inductive PeerRole where
  | voter | learner
  deriving DecidableEq

structure Peer where
  nodeId : ℕ
  raftAddr : Text
  role : PeerRole
  deriving DecidableEq

structure RegionMeta where
  regionId : RegionId
  startKey : Bytes
  endKey : Bytes
  epoch : RegionEpoch
  peers : List Peer
  approximateSize : ℕ
  approximateKeys : ℕ
  deriving DecidableEq

/-- `[start, stop)` contains `key`; an empty `stop` is no upper bound. -/
def inRange (start stop key : Bytes) : Bool := decide (start ≤ key ∧ (stop = [] ∨ key < stop))

def RegionMeta.containsKey (m : RegionMeta) (key : Bytes) : Bool := inRange m.startKey m.endKey key

inductive RegionChange where
  | add (region : RegionMeta)
  | update (region : RegionMeta)
  | remove (regionId : RegionId) (expectedEpoch : RegionEpoch)
  deriving DecidableEq

/-- Why a table or a change is refused; the arguments are those the message prints.  The refusals of `validate`
are storage errors in the source, the others invalid arguments. -/
inductive RegionTableError where
  | versionZeroNotEmpty
  | noRegion
  | headNotEmpty (regionId : RegionId) (startKey : Bytes)
  | regionIdZero
  | duplicateId (regionId : RegionId)
  | invalidEpoch (regionId : RegionId) (epoch : RegionEpoch)
  | emptyRange (regionId : RegionId)
  | headInside
  | boundedTail (regionId : RegionId) (endKey : Bytes)
  | unboundedInside (regionId : RegionId)
  | notContiguous (regionId : RegionId) (endKey : Bytes) (next : RegionId) (startKey : Bytes)
  | alreadyExists (regionId : RegionId)
  | startNotBeforeEnd (regionId : RegionId)
  | cannotUpdate (regionId : RegionId)
  | cannotRemove (regionId : RegionId)
  | staleEpoch (regionId : RegionId) (current expected : RegionEpoch)
  | updateChangesId
  | epochRegresses (regionId : RegionId) (old new : RegionEpoch)
  | epochNotIncreased (regionId : RegionId)
  | needsVersionBump (regionId : RegionId)
  | needsConfVerBump (regionId : RegionId)
  deriving DecidableEq

/-- Version `0` is the table that has not been seeded. -/
structure RegionTable where
  version : ℕ
  regions : List RegionMeta
  deriving DecidableEq

namespace RegionTable

def default : RegionTable := ⟨0, []⟩

def get (t : RegionTable) (regionId : RegionId) : Option RegionMeta :=
  t.regions.find? fun m => decide (m.regionId = regionId)

/-- The Region that holds `key`: the last one that starts at or before it. -/
def route (t : RegionTable) (key : Bytes) : Option RegionMeta :=
  ((t.regions.takeWhile fun m => decide (m.startKey ≤ key)).getLast?).filter (·.containsKey key)

/-- The checks on one Region, with the ids before it (none for the first) and the Region after it. -/
def validateRegion (seen : List RegionId) (m : RegionMeta) (next : Option RegionMeta) :
    Except RegionTableError Unit :=
  if m.regionId = 0 then .error .regionIdZero
  else if m.regionId ∈ seen then .error (.duplicateId m.regionId)
  else if m.epoch.confVer = 0 ∨ m.epoch.version = 0 then .error (.invalidEpoch m.regionId m.epoch)
  else if m.endKey ≠ [] ∧ m.endKey ≤ m.startKey then .error (.emptyRange m.regionId)
  else if seen = [] ∧ m.startKey ≠ [] then .error .headInside
  else match next with
  | none => if m.endKey ≠ [] then .error (.boundedTail m.regionId m.endKey) else .ok ()
  | some n =>
    if m.endKey = [] then .error (.unboundedInside m.regionId)
    else if m.endKey ≠ n.startKey then .error (.notContiguous m.regionId m.endKey n.regionId n.startKey)
    else .ok ()

def validateRegions (seen : List RegionId) : List RegionMeta → Except RegionTableError Unit
  | [] => .ok ()
  | m :: rest =>
    match validateRegion seen m rest.head? with
    | .error e => .error e
    | .ok () => validateRegions (m.regionId :: seen) rest

def validate (t : RegionTable) : Except RegionTableError Unit :=
  if t.version = 0 then (if t.regions ≠ [] then .error .versionZeroNotEmpty else .ok ())
  else match t.regions with
  | [] => .error .noRegion
  | first :: _ =>
    if first.startKey ≠ [] then .error (.headNotEmpty first.regionId first.startKey)
    else validateRegions [] t.regions

/-- A range change needs a new version, a member change a new `confVer`; neither may fall. -/
def checkUpdateEpoch (old new : RegionMeta) : Except RegionTableError Unit :=
  if new.regionId ≠ old.regionId then .error .updateChangesId
  else if new.epoch.confVer < old.epoch.confVer ∨ new.epoch.version < old.epoch.version then
    .error (.epochRegresses new.regionId old.epoch new.epoch)
  else if new.epoch = old.epoch then .error (.epochNotIncreased new.regionId)
  else if (new.startKey ≠ old.startKey ∨ new.endKey ≠ old.endKey) ∧ new.epoch.version ≤ old.epoch.version then
    .error (.needsVersionBump new.regionId)
  else if new.peers ≠ old.peers ∧ new.epoch.confVer ≤ old.epoch.confVer then
    .error (.needsConfVerBump new.regionId)
  else .ok ()

def applyOne (regions : List RegionMeta) : RegionChange → Except RegionTableError (List RegionMeta)
  | .add m =>
    match regions.find? fun r => decide (r.regionId = m.regionId) with
    | some existing => if existing = m then .ok regions else .error (.alreadyExists m.regionId)
    | none =>
      if m.endKey ≤ m.startKey ∧ m.endKey ≠ [] then .error (.startNotBeforeEnd m.regionId)
      else .ok (regions ++ [m])
  | .update m =>
    match regions.findIdx? fun r => decide (r.regionId = m.regionId) with
    | none => .error (.cannotUpdate m.regionId)
    | some index =>
      match regions[index]? with
      | none => .error (.cannotUpdate m.regionId)  -- `findIdx?` is in bounds
      | some old =>
        match checkUpdateEpoch old m with
        | .error e => .error e
        | .ok () => .ok (regions.set index m)
  | .remove regionId expectedEpoch =>
    match regions.findIdx? fun r => decide (r.regionId = regionId) with
    | none => .error (.cannotRemove regionId)
    | some index =>
      match regions[index]? with
      | none => .error (.cannotRemove regionId)
      | some old =>
        if old.epoch ≠ expectedEpoch then .error (.staleEpoch regionId old.epoch expectedEpoch)
        else .ok (regions.eraseIdx index)

def applyAll (regions : List RegionMeta) : List RegionChange → Except RegionTableError (List RegionMeta)
  | [] => .ok regions
  | c :: cs =>
    match applyOne regions c with
    | .error e => .error e
    | .ok regions => applyAll regions cs

def sortRegions (regions : List RegionMeta) : List RegionMeta :=
  regions.insertionSort fun a b => a.startKey ≤ b.startKey

/-- Seed the table, with whether it changed; a seeded table stays as it is. -/
def init (t : RegionTable) (regions : List RegionMeta) : Except RegionTableError (RegionTable × Bool) :=
  if t.version ≠ 0 then .ok (t, false)
  else
    let next : RegionTable := ⟨1, sortRegions regions⟩
    match next.validate with
    | .error e => .error e
    | .ok () => .ok (next, true)

/-- A batch of changes, as a whole, with whether the table changed. -/
def apply (t : RegionTable) (changes : List RegionChange) : Except RegionTableError (RegionTable × Bool) :=
  if changes = [] then .ok (t, false)
  else match applyAll t.regions changes with
  | .error e => .error e
  | .ok regions =>
    -- the new list is validated under the old version, which is raised afterwards
    match (RegionTable.mk t.version (sortRegions regions)).validate with
    | .error e => .error e
    | .ok () => .ok (⟨t.version + 1, sortRegions regions⟩, true)

end RegionTable

/-! ### Plans -/

inductive SplitMergeKind where
  | split | merge
  deriving DecidableEq

structure SplitMergePlan where
  kind : SplitMergeKind
  sourceRegion : RegionId
  targetRegion : Option RegionId
  changes : List RegionChange
  expectedTableVersion : ℕ
  deriving DecidableEq

/-- `/obj/`, the reserved object space `[/obj/, /obj0)`. -/
def objectPrefix : Bytes := [47, 111, 98, 106, 47]

def objectSpaceEnd : Bytes := [47, 111, 98, 106, 48]

def keyInObjectSpace (key : Bytes) : Bool := objectPrefix.isPrefixOf key

end Coord.Storage
