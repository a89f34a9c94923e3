import Coord.Auth.WatchAccess
import Coord.Raft.ChangeEvents
import Coord.Raft.Snapshot

/-!
# The v1 watch of a node

A node applies its log and hands the event of every entry to the watchers. A watch reads the current revision, is
registered, replays the changelog up to the revision it read, and then forwards the events that were queued for it.
These are separate steps, and entries are applied between them.

The node is one without the v2 data plane: v1 watches are refused on the others.
-/

namespace Coord.Watch

open Coord.Lib Coord.Lib.History Coord.Storage Coord.Raft Coord.Auth

/-! ### Events -/

inductive WatchEventType where
  | put | delete | bufferOverflow | historyUnavailable
  deriving DecidableEq

/-- An event for a watcher; the source wraps it into a list of one. -/
structure WatchEvent where
  eventType : WatchEventType
  kvs : List KeyValueChange
  revision : ℕ
  deriving DecidableEq

/-- What the client receives; a key without a value has the empty one. -/
structure WatchResponse where
  eventType : WatchEventType
  kvs : List (Bytes × Bytes)
  revision : ℕ
  deriving DecidableEq

def watchEventType : EventType → WatchEventType
  | .put => .put
  | .delete => .delete
  | .txn => .put
  | .lease => .delete

/-- The changes of the watched keys; nothing if there are none. -/
def WatchEvent.ofChange (key rangeEnd : Bytes) (event : ChangeEvent) : Option WatchEvent :=
  let matching := event.changes.filter fun c => keyMatches c.key key rangeEnd
  if matching = [] then none else some ⟨watchEventType event.eventType, matching, event.revision⟩

def convertWatchEventToResponse (event : WatchEvent) : WatchResponse :=
  ⟨event.eventType, event.kvs.map fun c => (c.key, c.value.getD []), event.revision⟩

def bufferOverflow : WatchResponse := ⟨.bufferOverflow, [], 0⟩

def historyUnavailable : WatchResponse := ⟨.historyUnavailable, [], 0⟩

/-! ### Watchers -/

/-- Where a watch stands: it has read the current revision; it is registered; its start is above the compacted
revision; it replays the events it has read into a channel; it forwards what is in the channel; it forwards the queue,
having looked at the overflow flag or not; it has ended. -/
inductive Phase where
  | captured
  | subscribed
  | checked
  | replaying (todo : List ChangeEvent) (sent : List WatchEvent)
  | draining (sent : List WatchEvent)
  | live (looked : Bool)
  | closed
  deriving DecidableEq

structure Watcher where
  key : Bytes
  rangeEnd : Bytes
  startRevision : ℕ
  watermarkRev : ℕ
  phase : Phase
  queue : List WatchEvent
  overflow : Bool
  delivered : List WatchResponse
  deriving DecidableEq

/-- The settings of a node; the queue of a watcher is not of size `0`. -/
structure WatchConfig where
  raft : Raft.Config
  watchBuffer : ℕ
  maxSubscribers : ℕ
  objectEnabled : Bool
  watchBuffer_pos : 0 < watchBuffer

def historyCapacity : ℕ := 256

namespace Watcher

def eventOf (c : Watcher) (event : ChangeEvent) : Option WatchEvent :=
  WatchEvent.ofChange c.key c.rangeEnd event

def registered (c : Watcher) : Bool :=
  match c.phase with
  | .captured => false
  | .closed => false
  | _ => true

/-- The event goes into the queue; if the queue is full, it is dropped and the flag set. -/
def dispatch (buffer : ℕ) (event : ChangeEvent) (c : Watcher) : Watcher :=
  if c.registered then
    match c.eventOf event with
    | none => c
    | some e => if c.queue.length < buffer then { c with queue := c.queue ++ [e] } else { c with overflow := true }
  else c

def deliver (c : Watcher) (r : WatchResponse) (phase : Phase) : Watcher :=
  { c with delivered := c.delivered ++ [r], phase }

def told (c : Watcher) : Bool :=
  c.delivered.any fun r => decide (r.eventType = .bufferOverflow ∨ r.eventType = .historyUnavailable)

/-- The next step of the watch on a node with the store `s` and so many subscribers. -/
def advance (cfg : WatchConfig) (s : Store) (subscribers : ℕ) (c : Watcher) : Watcher :=
  match c.phase with
  | .captured => { c with phase := if subscribers < cfg.maxSubscribers then .subscribed else .closed }
  | .subscribed =>
    if c.startRevision = 0 then { c with phase := .live false }
    else if c.startRevision ≤ s.compactedRevision then c.deliver historyUnavailable (.live false)
    else { c with phase := .checked }
  | .checked =>
    let events := (s.changelog.rows.filter fun row => decide (c.startRevision ≤ row.1)).map Prod.snd
    { c with phase := .replaying events [] }
  | .replaying [] sent => { c with phase := .draining sent }
  | .replaying (event :: todo) sent =>
    if c.watermarkRev < event.revision then { c with phase := .draining sent }
    else
      match c.eventOf event with
      | none => { c with phase := .replaying todo sent }
      | some e =>
        -- nobody takes from the channel before the replay is over: if it is full, the replay blocks
        if sent.length < historyCapacity then { c with phase := .replaying todo (sent ++ [e]) } else c
  | .draining [] => { c with phase := .live false }
  | .draining (e :: sent) => c.deliver (convertWatchEventToResponse e) (.draining sent)
  | .live false =>
    if c.overflow then { c.deliver bufferOverflow (.live true) with overflow := false }
    else { c with phase := .live true }
  | .live true =>
    match c.queue with
    | [] => c
    | e :: queue =>
      -- what is not above the watermark was replayed
      if e.revision ≤ c.watermarkRev then { c with queue, phase := .live false }
      else { c.deliver (convertWatchEventToResponse e) (.live false) with queue }
  | .closed => c

/-- The changelog cannot be read; the events that were replayed so far are dropped. -/
def readFails (c : Watcher) : Watcher :=
  match c.phase with
  | .subscribed => c.deliver historyUnavailable (.live false)
  | .checked => c.deliver historyUnavailable (.live false)
  | _ => c

end Watcher

/-! ### Nodes -/

/-- A node: its store, the stores it had before, newest first, the index it has applied, the event that waits for its
dispatch, and the watchers. -/
structure World where
  store : Store
  past : List Store
  lastIndex : ℕ
  pending : Option ChangeEvent
  watchers : List Watcher

def World.start : World := ⟨Store.empty, [], 0, none, []⟩

def World.currentRevision (w : World) : ℕ := w.store.currentRevision .logIndex

/-- The store when it stood at `T`. -/
def World.stateAt (w : World) (T : ℕ) : Store :=
  ((w.store :: w.past).find? fun s => decide (s.currentRevision .logIndex ≤ T)).getD Store.empty

inductive Action where
  /-- The next entry of the log, on a node whose clock reads `nowMs`. -/
  | apply (entry : Entry) (nowMs : ℤ)
  | dispatch
  | watch (key rangeEnd : Bytes) (startRevision : ℕ)
  | go (i : ℕ)
  | readFails (i : ℕ)
  | close (i : ℕ)
  | installSnapshot (data : SnapshotData)

def applyEvent (cfg : Raft.Config) (nowMs : ℤ) (s : Store) (e : Entry) : Except Error (Store × Option ChangeEvent) :=
  match e.payload with
  | .normal cmd => (executeCommand cfg nowMs s cmd e.logId.index e.logId).map fun r => (r.1, r.2.2)
  | .membership config => .ok ({ s.setLastApplied cfg.mode e.logId with membershipRow := some ⟨e.logId, config⟩ }, none)
  | .blank => .ok (s, none)

/-- The entry carries a command that is proposed without the v2 data plane. -/
def onV1 (e : Entry) : Bool :=
  match e.payload with
  | .normal cmd => cmd.onV1
  | _ => true

/-- The request touches the keys of the object store; without an end it is the key that counts. -/
def rangeTouchesObjectSpace (start stop : Bytes) : Bool :=
  if stop = [] ∨ stop = start then keyInObjectSpace start
  else !decide (stop ≤ objectPrefix) && !decide (objectSpaceEnd ≤ start)

/-- One step. Entries come in the order of the log, each once the event of the one before is dispatched. -/
def step (cfg : WatchConfig) (w : World) : Action → World × Unit
  | .apply e nowMs =>
    if w.pending = none ∧ w.lastIndex < e.logId.index ∧ onV1 e then
      match applyEvent cfg.raft nowMs w.store e with
      | .ok (s, event) =>
        ({ w with store := s, past := w.store :: w.past, lastIndex := e.logId.index, pending := event }, ())
      | .error _ => (w, ())
    else (w, ())
  | .dispatch =>
    match w.pending with
    | some event =>
      ({ w with watchers := w.watchers.map (Watcher.dispatch cfg.watchBuffer event), pending := none }, ())
    | none => (w, ())
  | .watch key rangeEnd startRevision =>
    if cfg.objectEnabled && rangeTouchesObjectSpace key rangeEnd then (w, ())
    else
      let c : Watcher := ⟨key, rangeEnd, startRevision, w.currentRevision, .captured, [], false, []⟩
      ({ w with watchers := w.watchers ++ [c] }, ())
  | .go i =>
    ({ w with watchers := w.watchers.modify i (Watcher.advance cfg w.store (w.watchers.countP Watcher.registered)) },
      ())
  | .readFails i => ({ w with watchers := w.watchers.modify i Watcher.readFails }, ())
  | .close i => ({ w with watchers := w.watchers.modify i fun c => { c with phase := .closed } }, ())
  | .installSnapshot data =>
    match w.store.importSnapshotData .logIndex data with
    | .ok s => ({ w with store := s, past := w.store :: w.past, lastIndex := data.appliedIndex }, ())
    | .error _ => (w, ())

/-! ### What a client makes of the events -/

def WatchResponse.fold (view : Bytes → Option Bytes) (r : WatchResponse) : Bytes → Option Bytes :=
  match r.eventType with
  | .put => overwrite view (r.kvs.map fun kv => (kv.1, some kv.2))
  | .delete => overwrite view (r.kvs.map fun kv => (kv.1, none))
  | _ => view

/-- The revision that the client starts from: the one it asked for, or the latest. -/
def Watcher.base (c : Watcher) : ℕ := if c.startRevision = 0 then c.watermarkRev else c.startRevision

/-- Folding the responses over the watched keys at the start gives them as the store had them at `T`. -/
def Mirrors (w : World) (c : Watcher) (responses : List WatchResponse) (T : ℕ) : Prop :=
  ∀ k, keyMatches k c.key c.rangeEnd = true →
    responses.foldl WatchResponse.fold (w.stateAt c.base).get k = (w.stateAt T).get k

def CaughtUp (w : World) (c : Watcher) : Prop :=
  w.pending = none ∧ c.queue = [] ∧ c.overflow = false ∧ ∃ looked, c.phase = .live looked

/-- What was delivered to the watcher gives the store's keys after every revision that it has reached, and those of now
once nothing is left to deliver. -/
def Follows (w : World) (c : Watcher) : Prop :=
  (∀ T, c.base ≤ T → (∃ r ∈ c.delivered, T ≤ r.revision) →
    Mirrors w c (c.delivered.filter fun r => decide (r.revision ≤ T)) T) ∧
  (CaughtUp w c → c.base ≤ w.currentRevision → Mirrors w c c.delivered w.currentRevision)

end Coord.Watch
