import Coord.Raft.TypeConfig

/-!
# Transaction sessions of a coordinating node

The sessions live in the memory of one node and are not replicated.  A session collects the read set of its
transaction while it is `active`; a commit freezes it (`committing`) and, once decided, keeps the answer for the
same request (`committed`).
-/

namespace Coord.Kvt

open Coord.Lib

/-! ### Read sets -/

/-- The read predicate `[start, stop)`; `stop ≤ start` reads nothing. -/
structure ReadRange where
  start : Bytes
  stop : Bytes
  deriving DecidableEq

namespace ReadRange

/-- The order of the source's `Ord`: by start, then by end. -/
def lex (r : ReadRange) : Bytes ×ₗ Bytes := toLex (r.start, r.stop)

def isEmpty (r : ReadRange) : Bool := decide (r.stop ≤ r.start)

def contains (r : ReadRange) (key : Bytes) : Bool := !r.isEmpty && decide (r.start ≤ key ∧ key < r.stop)

def covers (r other : ReadRange) : Bool := !r.isEmpty && decide (r.start ≤ other.start ∧ other.stop ≤ r.stop)

def overlapsOrAdjacent (r other : ReadRange) : Bool :=
  !r.isEmpty && !other.isEmpty && decide (r.start ≤ other.stop ∧ other.start ≤ r.stop)

/-- Whether the drained range holds `key`; an empty `stop` of a drain is no upper bound. -/
def drains (drain : ReadRange) (key : Bytes) : Bool :=
  decide (drain.start ≤ key ∧ (drain.stop = [] ∨ key < drain.stop))

/-- Whether a non-empty read predicate meets the drained range. -/
def meetsDrain (read drain : ReadRange) : Bool :=
  decide (drain.start < read.stop ∧ (drain.stop = [] ∨ read.start < drain.stop))

end ReadRange

structure ReadSet where
  points : Table Bytes Unit
  ranges : List ReadRange
  emptyRanges : Table (Bytes ×ₗ Bytes) Unit
  deriving DecidableEq

namespace ReadSet

def empty : ReadSet := ⟨Table.empty, [], Table.empty⟩

/-- The number of entries that count against the limit. -/
def len (s : ReadSet) : ℕ := s.points.rows.length + s.ranges.length + s.emptyRanges.rows.length

/-- Add a point read, unless it is already covered; `none` is over the limit. -/
def tryAddPoint (s : ReadSet) (key : Bytes) (max : ℕ) : Option ReadSet :=
  if s.points.has key = true ∨ s.ranges.any (·.contains key) = true then some s
  else if max ≤ s.len then none
  else some { s with points := s.points.insert key () }

/-- Extend the last merged range, or open the next; the merged ranges are held last first. -/
def mergeRange : List ReadRange → ReadRange → List ReadRange
  | [], range => [range]
  | last :: merged, range =>
    if range.start ≤ last.stop then ⟨last.start, if last.stop < range.stop then range.stop else last.stop⟩ :: merged
    else range :: last :: merged

/-- Sort and merge the ranges and drop the points they cover. -/
def mergeRanges (s : ReadSet) : ReadSet :=
  let sorted := s.ranges.insertionSort fun a b => a.lex ≤ b.lex
  let ranges := (sorted.foldl mergeRange []).reverse
  { s with ranges := ranges, points := s.points.filter fun p => !ranges.any (·.contains p.1) }

/-- Add a range read; a predicate that reads nothing is kept apart. -/
def tryAddRange (s : ReadSet) (start stop : Bytes) (max : ℕ) : Option ReadSet :=
  let range : ReadRange := ⟨start, stop⟩
  if range.isEmpty = true then
    if s.emptyRanges.has range.lex = true then some s
    else if max ≤ s.len then none
    else some { s with emptyRanges := s.emptyRanges.insert range.lex () }
  else if s.ranges.any (·.covers range) = true then some s
  else if s.ranges.any (·.overlapsOrAdjacent range) = false ∧ max ≤ s.len then none
  else some (mergeRanges { s with ranges := s.ranges ++ [range] })

/-- The form the sequencer takes: the point keys, and the range predicates with the empty ones last. -/
def intoParts (s : ReadSet) : List Bytes × List Raft.SequencerReadRange :=
  (s.points.keys, s.ranges.map (fun r => ⟨r.start, r.stop⟩) ++
    s.emptyRanges.keys.map fun r => ⟨(ofLex r).1, (ofLex r).2⟩)

/-- Whether the reads meet a drained range; a bounded one with its end at or before its start holds no key. -/
def intersectsDrain (s : ReadSet) (drain : ReadRange) : Bool :=
  if drain.stop ≠ [] ∧ drain.stop ≤ drain.start then false
  else s.points.keys.any (fun key => drain.drains key) || s.ranges.any (·.meetsDrain drain)

end ReadSet

/-- What a `Read` adds. -/
inductive ReadIntent where
  | point (key : Bytes)
  | range (start stop : Bytes)
  deriving DecidableEq

def ReadIntent.intersectsDrain (drain : ReadRange) : ReadIntent → Bool
  | .point key => drain.drains key
  | .range start stop => !(ReadRange.mk start stop).isEmpty && (ReadRange.mk start stop).meetsDrain drain

/-! ### Sessions -/

/-- Which limit a read broke: the entries of the read set, or the keys of one range read. -/
inductive ReadSetLimit where
  | entries
  | rangeKeys
  deriving DecidableEq

inductive SessionError where
  | notFound
  | closed
  | committed
  | commitInProgress
  | readSetLimit (limit : ReadSetLimit)
  | draining
  deriving DecidableEq

inductive SessionState where
  | active
  | committing (requestId : Bytes)
  | committed (requestId : Bytes) (commitTs : ℕ)
  deriving DecidableEq

structure TxnSession where
  startTs : ℕ
  expiresAt : ℕ
  readSet : ReadSet
  state : SessionState
  deriving DecidableEq

/-- The session table; `drains` are the ranges a split or merge is draining. -/
structure TxnTable where
  sessions : Table Bytes TxnSession
  drains : List ReadRange
  deriving DecidableEq

/-- What `Commit` starts from; `replay` is the answer the same request already got. -/
structure CommitInput where
  startTs : ℕ
  readSet : ReadSet
  replay : Option ℕ
  deriving DecidableEq

namespace TxnTable

def empty : TxnTable := ⟨Table.empty, []⟩

def sweep (t : TxnTable) (now : ℕ) : TxnTable :=
  { t with sessions := t.sessions.filter fun r => decide (now < r.2.expiresAt) }

/-- `begin`, with the id it drew. -/
def begin (t : TxnTable) (id : Bytes) (startTs : ℕ) (ttl now : ℕ) : TxnTable :=
  let t := t.sweep now
  { t with sessions := t.sessions.insert id ⟨startTs, now + ttl, ReadSet.empty, .active⟩ }

/-- The table without the session `id` if it has expired. -/
def dropExpired (t : TxnTable) (id : Bytes) (now : ℕ) : TxnTable :=
  match t.sessions.get id with
  | some session => if session.expiresAt ≤ now then { t with sessions := t.sessions.erase id } else t
  | none => t

/-- Record a read before the data is read: only an active session outside the drained ranges takes it. -/
def recordRead (t : TxnTable) (id : Bytes) (intent : ReadIntent) (maxReadSet now : ℕ) :
    TxnTable × Except SessionError ℕ :=
  let t := t.dropExpired id now
  match t.sessions.get id with
  | none => (t, .error .notFound)
  | some session =>
    if session.state ≠ .active then (t, .error .closed)
    else if t.drains.any (fun drain => intent.intersectsDrain drain) = true then (t, .error .draining)
    else
      let added := match intent with
        | .point key => session.readSet.tryAddPoint key maxReadSet
        | .range start stop => session.readSet.tryAddRange start stop maxReadSet
      match added with
      | none => (t, .error (.readSetLimit .entries))
      | some readSet =>
        ({ t with sessions := t.sessions.insert id { session with readSet := readSet } }, .ok session.startTs)

/-- Drop an active session; one that is committing or committed stays. -/
def abort (t : TxnTable) (id : Bytes) : TxnTable :=
  match t.sessions.get id with
  | some session => if session.state = .active then { t with sessions := t.sessions.erase id } else t
  | none => t

/-- Mark a range as draining; every guard has its own mark. -/
def drain (t : TxnTable) (range : ReadRange) : TxnTable := { t with drains := t.drains ++ [range] }

def releaseDrain (t : TxnTable) (range : ReadRange) : TxnTable := { t with drains := t.drains.erase range }

def beginCommit (t : TxnTable) (id requestId : Bytes) (now : ℕ) :
    TxnTable × Except SessionError CommitInput :=
  let t := t.dropExpired id now
  match t.sessions.get id with
  | none => (t, .error .notFound)
  | some session =>
    match session.state with
    | .committed committedBy commitTs =>
      if committedBy = requestId then (t, .ok ⟨session.startTs, session.readSet, some commitTs⟩)
      else (t, .error .committed)
    | .committing claimedBy =>
      if claimedBy ≠ requestId then (t, .error .commitInProgress)
      else (t, .ok ⟨session.startTs, session.readSet, none⟩)
    | .active =>
      ({ t with sessions := t.sessions.insert id { session with state := .committing requestId } },
        .ok ⟨session.startTs, session.readSet, none⟩)

/-- The decision is recorded: keep its timestamp for the same request and release the read set. -/
def finishCommit (t : TxnTable) (id requestId : Bytes) (commitTs : ℕ) : TxnTable :=
  match t.sessions.get id with
  | some session =>
    if session.state = .committing requestId then
      let session := { session with state := .committed requestId commitTs, readSet := ReadSet.empty }
      { t with sessions := t.sessions.insert id session }
    else t
  | none => t

/-- The commit did not return a decision: release the session. -/
def cancelCommit (t : TxnTable) (id requestId : Bytes) : TxnTable :=
  match t.sessions.get id with
  | some session =>
    if session.state = .committing requestId then
      { t with sessions := t.sessions.insert id { session with state := .active } }
    else t
  | none => t

end TxnTable

end Coord.Kvt
