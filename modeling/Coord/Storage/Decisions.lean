import Coord.Storage.Kv

/-!
# Applying commit decisions to a Region

A batch of decisions, cut to the keys of the Region, is applied in one transaction of the store: each decision's
mutations at its commit timestamp, with the commit record beside them when the batch carries the record's metadata.
The cursor is the last decision applied; the loop stops in front of a decision it cannot place.
-/

namespace Coord.Storage

open Coord.Lib (Table)
open Coord.Raft (SequencerMutation)

structure CommitDecisionApply where
  commitTs : ℕ
  mutations : List SequencerMutation
  deriving DecidableEq

structure CommitDecisionApplyLog where
  shardId : ℕ
  regionId : ℕ
  commitTs : ℕ
  txnId : Bytes
  startTs : ℕ
  mutations : List SequencerMutation
  deriving DecidableEq

inductive DecisionView where
  | plain (decision : CommitDecisionApply)
  | logged (decision : CommitDecisionApplyLog)
  deriving DecidableEq

namespace DecisionView

def commitTs : DecisionView → ℕ
  | .plain d => d.commitTs
  | .logged d => d.commitTs

def mutations : DecisionView → List SequencerMutation
  | .plain d => d.mutations
  | .logged d => d.mutations

def log : DecisionView → Option CommitDecisionApplyLog
  | .plain _ => none
  | .logged d => some d

end DecisionView

structure CommitDecisionApplyResult where
  throughTs : ℕ
  decisions : ℕ
  deriving DecidableEq

/-- Whether a change is what a mutation writes; no change is evidence of a range write. -/
def changeMatches (c : KeyValueChange) : SequencerMutation → Bool
  | .put key value _ => decide (c = ⟨key, some value⟩)
  | .delete key => decide (c = ⟨key, none⟩)
  | .deleteRange _ _ => false

/-- The entry is the replay of the mutations; never so when one of them is a range write. -/
def eventMatchesMutations (event : ChangeEvent) (mutations : List SequencerMutation) : Bool :=
  !(mutations.any fun m => m.pointKey.isNone) &&
    decide (event.changes.length = mutations.length) &&
    (event.changes.zip mutations).all fun p => changeMatches p.1 p.2

namespace Store

/-- The value a change replaces; a deleted key has none. -/
def commitPrevValue (s : Store) (key : Bytes) : Option CommitPrevValue :=
  match s.kvMeta.get key with
  | none => none
  | some m =>
    if m.deleted then none
    else (s.kv.get key).map fun value => ⟨value, m.createRevision, m.modRevision, m.version, m.leaseId⟩

/-- The rows a range mutation reaches; here an empty `stop` is no upper bound. -/
def mutationRows (s : Store) (start stop : Bytes) : List (Bytes × Bytes) :=
  s.kv.rows.filter fun r => inRange start stop r.1

/-- One mutation at `commitTs`: the store, the changes for the changelog and those for the commit record. -/
def applyMutation (s : Store) (commitTs : ℕ) :
    SequencerMutation → Store × List KeyValueChange × List CommitChange
  | .put key value leaseId =>
    (s.writePut key value (leaseId.getD 0) commitTs, [⟨key, some value⟩], [⟨key, some value, s.commitPrevValue key⟩])
  | .delete key => (s.writeDelete key commitTs, [⟨key, none⟩], [⟨key, none, s.commitPrevValue key⟩])
  | .deleteRange start stop =>
    let keys := s.liveKeys (s.mutationRows start stop)
    (s.deleteKeys keys commitTs, keys.map fun k => ⟨k, none⟩, keys.map fun k => ⟨k, none, s.commitPrevValue k⟩)

def applyMutations (s : Store) (commitTs : ℕ) :
    List SequencerMutation → Store × List KeyValueChange × List CommitChange
  | [] => (s, [], [])
  | m :: ms =>
    let (s, changes, recordChanges) := s.applyMutation commitTs m
    let (s, moreChanges, moreRecordChanges) := s.applyMutations commitTs ms
    (s, changes ++ moreChanges, recordChanges ++ moreRecordChanges)

/-- The commit record of a decision; one that cannot be written is left out, and the decision goes on. -/
def appendDecisionRecord (size : CommitRecord → ℕ) (maxTxnBytes : ℕ) (s : Store) (view : DecisionView)
    (recordChanges : List CommitChange) : Store :=
  match view.log with
  | none => s
  | some log =>
    if recordChanges = [] then s
    else
      let record : CommitRecord := ⟨log.shardId, log.commitTs, log.txnId, log.startTs, log.regionId,
        min (CommitRecord.txnWriteBytes log.mutations) (2 ^ 32 - 1), recordChanges⟩
      match appendCommitRecord size s.commitLog record maxTxnBytes with
      | .ok (commitLog, _) => { s with commitLog := commitLog }
      | .error _ => s

/-- The rows of a decision that is applied: its mutations, its changelog entry unless it changes nothing, and its
record. -/
def applyDecision (size : CommitRecord → ℕ) (maxTxnBytes : ℕ) (s : Store) (view : DecisionView) : Store :=
  let (s, changes, recordChanges) := s.applyMutations view.commitTs view.mutations
  let s := if changes = [] then s
    else { s with changelog := s.changelog.insert view.commitTs ⟨view.commitTs, changes, .txn⟩ }
  s.appendDecisionRecord size maxTxnBytes view recordChanges

structure DecisionLoop where
  store : Store
  current : ℕ
  through : ℕ
  count : ℕ
  previous : Option ℕ

/-- What the loop does with a decision above the cursor: skip it as a replay, apply it, or stop. -/
inductive DecisionStep where
  | replayed | applied | stop
  deriving DecidableEq

def decisionStep (s : Store) (current : ℕ) (view : DecisionView) : DecisionStep :=
  match s.changelog.get view.commitTs with
  | some event => if eventMatchesMutations event view.mutations then .replayed else .stop
  | none =>
    if view.commitTs ≤ current then (if view.mutations = [] then .replayed else .stop)
    else .applied

def applyDecisionLoop (size : CommitRecord → ℕ) (maxTxnBytes : ℕ) (l : DecisionLoop) :
    List DecisionView → DecisionLoop
  | [] => l
  | view :: rest =>
    let ts := view.commitTs
    if ts ≤ l.through then applyDecisionLoop size maxTxnBytes l rest
    else if l.previous.any fun p => decide (ts ≤ p) then l
    else match decisionStep l.store l.current view with
    | .stop => { l with previous := some ts }
    | .replayed =>
      applyDecisionLoop size maxTxnBytes ⟨l.store, l.current, ts, l.count + 1, some ts⟩ rest
    | .applied =>
      applyDecisionLoop size maxTxnBytes
        ⟨l.store.applyDecision size maxTxnBytes view, ts, ts, l.count + 1, some ts⟩ rest

def applyCommitDecisionsCore (size : CommitRecord → ℕ) (mode : RevisionMode) (s : Store)
    (decisions : List DecisionView) (revision : ℕ) (applied : AppliedLogId) (maxTxnBytes : ℕ) :
    Store × CommitDecisionApplyResult :=
  let cursor := s.lastAppliedDecisionTs
  let l := applyDecisionLoop size maxTxnBytes ⟨s, s.currentRevision mode, cursor, 0, none⟩ decisions
  let s := if cursor < l.through then { l.store with decisionApplied := some l.through } else l.store
  let effective := max l.current l.through
  let s := if s.currentRevision mode < effective then { s with currentRevisionRow := some effective } else s
  ({ s with lastApplied := some applied }.noteLogIndexRevision mode revision, ⟨l.through, l.count⟩)

def applyCommitDecisions (size : CommitRecord → ℕ) (mode : RevisionMode) (s : Store)
    (decisions : List CommitDecisionApply) (revision : ℕ) (applied : AppliedLogId) :
    Store × CommitDecisionApplyResult :=
  s.applyCommitDecisionsCore size mode (decisions.map .plain) revision applied 0

def applyCommitDecisionsWithLog (size : CommitRecord → ℕ) (mode : RevisionMode) (s : Store)
    (decisions : List CommitDecisionApplyLog) (revision : ℕ) (applied : AppliedLogId) (maxTxnBytes : ℕ) :
    Store × CommitDecisionApplyResult :=
  s.applyCommitDecisionsCore size mode (decisions.map .logged) revision applied maxTxnBytes

end Store

end Coord.Storage
