import Coord.Storage.Auth
import Coord.Storage.Decisions
import Coord.Storage.Lease
import Coord.Storage.ObjectStore
import Coord.Storage.Pd
import Coord.Storage.RangeMove
import Coord.Storage.Shards
import Coord.Storage.Watermarks

/-!
# The replicated state machine of a Region

Every Region, the system Region included, applies its log with the same function: a command, the log id of its entry
and the wall clock of the node give the store after it, the answer to the proposer and the event for the watchers.
An error stops the state machine; whatever a client can cause is an answer instead.
-/

namespace Coord.Raft

open Coord.Storage

inductive Command where
  | put (key value : Bytes) (leaseId : Option ℤ)
  | delete (key : Bytes)
  | deleteRange (key rangeEnd : Bytes)
  | txn (compares : List TxnCompare) (successOps failureOps : List TxnOp)
  | lease (op : LeaseOp)
  | auth (op : AuthOp)
  | compact (revision : ℕ)
  | deleteKeysByLease (leaseId : ℤ)
  | pd (op : PdOp)
  | objectStore (op : ObjectStoreOp)
  | tsoAllocate (batchSize : ℕ)
  | putV2 (key value : Bytes) (leaseId : Option ℤ) (commitTs : ℕ)
  | deleteV2 (key : Bytes) (commitTs : ℕ)
  | deleteRangeV2 (key rangeEnd : Bytes) (commitTs : ℕ)
  | advanceSafeTs (commitTs : ℕ)
  | publishSafeTs (fenceTs : ℕ)
  | leaseV2 (op : LeaseV2Op)
  | deleteKeysByLeaseV2 (leaseId : ℤ) (commitTs : ℕ)
  | sequencer (op : SequencerOp)
  | applyCommitDecisions (decisions : List CommitDecisionApply)
  | applyCommitDecisionsWithLog (maxTxnBytes : ℕ) (decisions : List CommitDecisionApplyLog)
  | commitLogShard (op : CommitLogShardOp)
  | commitLogAppend (shardId startTs endTs maxTxnBytes : ℕ) (records : List CommitRecord)
  | publishCommitWatermark (watermark : ℕ)
  | regionMeta (op : RegionMetaOp)
  | importRange (startKey endKey : Bytes) (rows : List VersionedKv) (watermark : ℕ) (done : Bool)
  | importRangePreserveHistory (startKey endKey : Bytes) (rows : List VersionedKv) (watermark : ℕ) (done : Bool)
  | clearImportRange (startKey endKey : Bytes)
  | objectStoreV2 (op : ObjectStoreOpV2)
  | fenceDirectWrites (startKey endKey : Bytes) (opId : ℕ)
  | clearDirectWriteFence (opId : ℕ)
  | trimCommitLogOutbox (throughTs maxRows : ℕ)
  deriving DecidableEq

inductive Response where
  | put (revision : ℕ)
  | delete (revision : ℕ)
  | deleteRange (revision deleted : ℕ)
  | txn (succeeded : Bool) (revision : ℕ) (responses : List TxnOpResponse)
  | lease (revision : ℕ)
  | auth (revision : ℕ)
  | objectStore (revision : ℕ) (ok : Bool)
  | compact (compactedRevision : ℕ)
  | tso (startTs endTs : ℕ)
  | commitRejected (commitTs currentRevision : ℕ)
  | safeTsAdvanced (revision : ℕ)
  | safeTsPublished (fenceTs : ℕ)
  | leaseV2 (result : LeaseV2Apply)
  | sequencer (outcomes : List SequencerOutcome)
  | commitDecisionsApplied (throughTs decisions : ℕ)
  | commitLogShard (shards : List CommitLogShardMeta)
  | commitLogAppend (result : CommitLogAppendResult)
  | commitWatermarkPublished (watermark : ℕ)
  | regionMeta (outcome : RegionMetaOutcome)
  | importRange (imported watermark : ℕ)
  | importRangeCleared (cleared : ℕ)
  | directWritesFenced (opId : ℕ)
  | directWriteFenceCleared (opId : ℕ)
  | commitLogOutboxTrimmed (trimmedBefore removed : ℕ)
  deriving DecidableEq

/-- What a command leaves: the store, the answer and the event. -/
abbrev Applied := Store × Response × Option ChangeEvent

/-- The Region's configuration, and the third-party functions the state machine calls. -/
structure Config where
  mode : RevisionMode
  size : CommitRecord → ℕ
  sequencerHash : HashDomain → List Bytes → Bytes
  objects : ObjectEnv

/-- A v2 Region with no chunk store, every record of size `0` and every digest empty. -/
def plainConfig : Config where
  mode := .commitTs
  size := fun _ => 0
  sequencerHash := fun _ _ => []
  objects := ⟨none, id, fun _ => [], fun _ => none⟩

/-! ### Commands -/

def writeEvent (o : ApplyOutcome) (event : ChangeEvent) : Option ChangeEvent := if o.replayed then none else some event

/-- The keys a transaction's event names; a read and an empty key have none. -/
def txnChanges (ops : List TxnOp) : List KeyValueChange :=
  (ops.map fun op => match op with
    | .put key value _ => ⟨key, some value⟩
    | .delete key => ⟨key, none⟩
    | .range _ _ _ => ⟨[], none⟩).filter fun c => decide (c.key ≠ [])

section

variable (mode : RevisionMode) (s : Store) (applied : AppliedLogId)

/-- A write whose timestamp came too late is answered, and its entry recorded. -/
def orRejected : Except Error Applied → Except Error Applied
  | .error (.commitRejected commitTs currentRevision) =>
    .ok (s.setLastApplied mode applied, .commitRejected commitTs currentRevision, none)
  | other => other

/-- A direct write that hits the fence is answered, and its entry recorded. -/
def unlessFenced (key : Bytes) (stop : Option Bytes) (write : Except Error Applied) : Except Error Applied :=
  match s.directWriteFenceHit key stop with
  | some opId => .ok (s.setLastApplied mode applied, .directWritesFenced opId, none)
  | none => write

def executePut (key value : Bytes) (revision : ℕ) (r : Except Error (Store × ApplyOutcome)) : Except Error Applied :=
  r.map fun r => (r.1, .put revision, writeEvent r.2 ⟨revision, [⟨key, some value⟩], .put⟩)

def executeDelete (key : Bytes) (revision : ℕ) (r : Except Error (Store × ApplyOutcome)) : Except Error Applied :=
  r.map fun r => (r.1, .delete revision, writeEvent r.2 ⟨revision, [⟨key, none⟩], .delete⟩)

def executeDeleteRange (revision : ℕ) (r : Except Error (Store × DeleteRangeOutcome)) : Except Error Applied :=
  r.map fun r => (r.1, .deleteRange revision r.2.deletedKeys.length,
    writeEvent ⟨r.2.replayed⟩ ⟨revision, r.2.deletedKeys.map fun k => ⟨k, none⟩, .delete⟩)

end

/-- One command: `revision` is the index of its entry, `nowMs` the wall clock of the node. -/
def executeCommand (cfg : Config) (nowMs : ℤ) (s : Store) (cmd : Command) (revision : ℕ) (applied : AppliedLogId) :
    Except Error Applied :=
  let mode := cfg.mode
  match cmd with
  | .put key value leaseId =>
    executePut key value revision (s.putAtKey mode key value leaseId revision applied .logIndex)
  | .delete key => executeDelete key revision (s.deleteAtKey mode key revision applied .logIndex)
  | .deleteRange key rangeEnd =>
    executeDeleteRange revision (s.deleteRangeAtKey mode key rangeEnd revision applied .logIndex)
  | .txn compares successOps failureOps =>
    if s.changelog.has revision then .ok (s, .txn false revision [], none)
    else (s.executeTxnAtRevision mode compares successOps failureOps revision applied).map fun r =>
      (r.1, .txn r.2.succeeded r.2.revision r.2.responses,
        some ⟨revision, txnChanges (if r.2.succeeded then successOps else failureOps), .txn⟩)
  | .leaseV2 op =>
    let (s, result) := s.applyLeaseV2Op mode op revision applied
    .ok (s, .leaseV2 result, none)
  | .deleteKeysByLeaseV2 leaseId commitTs =>
    orRejected mode s applied <|
      (s.deleteKeysByLeaseAtCommitTs mode leaseId commitTs applied).map fun r =>
        (r.1, .deleteRange commitTs r.2.2.length,
          if r.2.1.replayed ∨ r.2.2 = [] then none else some ⟨commitTs, r.2.2.map fun k => ⟨k, none⟩, .lease⟩)
  | .sequencer op =>
    let s := s.noteLogIndexRevision mode revision
    let (seq, outcomes) := applySequencerOp cfg.sequencerHash s.seq op
    .ok ({ s with seq := seq, lastApplied := some applied }, .sequencer outcomes, none)
  | .applyCommitDecisions decisions =>
    let (s, result) := s.applyCommitDecisions cfg.size mode decisions revision applied
    .ok (s, .commitDecisionsApplied result.throughTs result.decisions, none)
  | .applyCommitDecisionsWithLog maxTxnBytes decisions =>
    let (s, result) := s.applyCommitDecisionsWithLog cfg.size mode decisions revision applied maxTxnBytes
    .ok (s, .commitDecisionsApplied result.throughTs result.decisions, none)
  | .commitLogShard op =>
    let (s, shards) := s.applyCommitLogShardOp mode op revision applied
    .ok (s, .commitLogShard shards, none)
  | .commitLogAppend shardId startTs endTs maxTxnBytes records =>
    let (s, result) :=
      s.applyCommitLogAppend cfg.size mode shardId startTs endTs records maxTxnBytes revision applied
    .ok (s, .commitLogAppend result, none)
  | .trimCommitLogOutbox throughTs maxRows =>
    let (s, result) := s.trimCommitLogOutbox mode throughTs maxRows applied
    .ok (s, .commitLogOutboxTrimmed result.trimmedBefore result.removed, none)
  | .regionMeta op => (s.applyRegionMetaOp op applied).map fun r => (r.1, .regionMeta r.2, none)
  | .importRange startKey endKey rows watermark done =>
    (s.applyRangeImport mode startKey endKey rows watermark true done applied).map fun r =>
      (r.1, .importRange r.2 watermark, none)
  | .importRangePreserveHistory startKey endKey rows watermark done =>
    (s.applyRangeImport mode startKey endKey rows watermark false done applied).map fun r =>
      (r.1, .importRange r.2 watermark, none)
  | .clearImportRange startKey endKey =>
    (s.clearImportedRange mode startKey endKey applied).map fun r => (r.1, .importRangeCleared r.2, none)
  | .lease op =>
    let (s, outcome, changes) := s.applyLeaseOp mode op revision applied
    .ok (s, .lease revision, writeEvent outcome ⟨revision, changes, .lease⟩)
  | .auth op => .ok ((s.applyAuthOp mode nowMs op revision applied).1, .auth revision, none)
  | .compact target =>
    let effective := min target (s.currentRevision mode)
    .ok ((s.applyCompact mode target applied).1, .compact effective, none)
  | .deleteKeysByLease leaseId =>
    let (s, outcome, changes) := s.applyDeleteKeysByLease mode leaseId revision applied
    .ok (s, .deleteRange revision changes.length, writeEvent outcome ⟨revision, changes, .lease⟩)
  | .pd op => (s.applyPdOp mode op revision applied).map fun r => (r.1, .put revision, none)
  | .objectStore op =>
    if mode = .commitTs then .ok (s.persistApplied mode revision applied, .objectStore revision false, none)
    else (s.applyObjectStoreOp cfg.objects mode op revision applied).map fun r =>
      (r.1, .objectStore revision r.2, none)
  | .objectStoreV2 op =>
    if mode ≠ .commitTs then
      let s := s.setLastApplied mode applied
      .ok (s, .commitRejected op.commitTs (s.currentRevision mode), none)
    else (s.applyObjectStoreOpV2 cfg.objects mode op applied).map fun r =>
      (r.1, match r.2 with
        | .applied changed => .objectStore op.commitTs changed
        | .rejected commitTs currentRevision => .commitRejected commitTs currentRevision, none)
  | .tsoAllocate batchSize =>
    (s.applyTsoAllocate mode batchSize revision applied).map fun r => (r.1, .tso r.2.startTs r.2.endTs, none)
  | .publishSafeTs fenceTs =>
    let (s, effective) := s.setSafeTsFence fenceTs applied
    .ok (s, .safeTsPublished effective, none)
  | .publishCommitWatermark watermark =>
    let (s, effective) := s.publishCommitWatermark watermark applied
    .ok (s, .commitWatermarkPublished effective, none)
  | .advanceSafeTs commitTs =>
    let (s, effective) := s.advanceCommitTsWatermark mode commitTs applied
    .ok (s, .safeTsAdvanced effective, none)
  | .fenceDirectWrites startKey endKey opId =>
    let (s, effective) := s.fenceDirectWrites startKey endKey opId applied
    .ok (s, .directWritesFenced effective, none)
  | .clearDirectWriteFence opId =>
    .ok (s.clearDirectWriteFence opId applied, .directWriteFenceCleared opId, none)
  | .putV2 key value leaseId commitTs =>
    unlessFenced mode s applied key none <| orRejected mode s applied <|
      executePut key value commitTs (s.putAtCommitTs mode key value leaseId commitTs applied)
  | .deleteV2 key commitTs =>
    unlessFenced mode s applied key none <| orRejected mode s applied <|
      executeDelete key commitTs (s.deleteAtCommitTs mode key commitTs applied)
  | .deleteRangeV2 key rangeEnd commitTs =>
    unlessFenced mode s applied key (some rangeEnd) <| orRejected mode s applied <|
      executeDeleteRange commitTs (s.deleteRangeAtCommitTs mode key rangeEnd commitTs applied)

/-! ### Entries -/

inductive EntryPayload where
  | normal (cmd : Command)
  | membership (config : Bytes)
  | blank
  deriving DecidableEq

structure Entry where
  logId : AppliedLogId
  payload : EntryPayload
  deriving DecidableEq

/-- The store after one entry; the revision of a command is its log index. -/
def applyEntry (cfg : Config) (nowMs : ℤ) (s : Store) (e : Entry) : Except Error (Store × Response) :=
  match e.payload with
  | .normal cmd => (executeCommand cfg nowMs s cmd e.logId.index e.logId).map fun r => (r.1, r.2.1)
  | .membership config =>
    .ok ({ s.setLastApplied cfg.mode e.logId with membershipRow := some ⟨e.logId, config⟩ }, .put 0)
  | .blank => .ok (s, .put 0)

/-! ### Runs -/

section

-- `clock i` is what the wall clock of the node reads while it applies entry `i`
variable (cfg : Config) (clock : ℕ → ℤ)

/-- The store after the entries.  An error stops the state machine. -/
def applyEntries (s : Store) : List Entry → Store × Option Error
  | [] => (s, none)
  | e :: es =>
    match applyEntry cfg (clock e.logId.index) s e with
    | .error err => (s, some err)
    | .ok (s, _) => applyEntries s es

/-- Every entry meets `P` in the store it is applied to. -/
def AlongLog (P : Store → Entry → Prop) (s : Store) : List Entry → Prop
  | [] => True
  | e :: es => P s e ∧
    match applyEntry cfg (clock e.logId.index) s e with
    | .error _ => True
    | .ok (s, _) => AlongLog P s es

instance AlongLog.decidable (P : Store → Entry → Prop) [∀ s e, Decidable (P s e)] :
    ∀ (s : Store) (es : List Entry), Decidable (AlongLog cfg clock P s es)
  | _, [] => isTrue trivial
  | s, e :: es =>
    @instDecidableAnd _ _ _ (match applyEntry cfg (clock e.logId.index) s e with
      | .error _ => isTrue trivial
      | .ok (s, _) => AlongLog.decidable P s es)

/-- The state machine of a node: its store, and what it keeps in memory. -/
structure Node where
  store : Store
  lastApplied : Option AppliedLogId
  lastMembership : Option StoredMembership
  deriving DecidableEq

/-- The loop of `apply`, with the last command of the batch so far. -/
def applyLoop (n : Node) (lastNormal : Option AppliedLogId) : List Entry → Node × Option Error
  | [] => ({ n with lastApplied := lastNormal.orElse fun _ => n.lastApplied }, none)
  | e :: es =>
    match applyEntry cfg (clock e.logId.index) n.store e with
    | .error err => (n, some err)
    | .ok (s, _) =>
      match e.payload with
      | .normal _ => applyLoop { n with store := s } (some e.logId) es
      | .membership config => applyLoop ⟨s, some e.logId, some ⟨e.logId, config⟩⟩ lastNormal es
      | .blank => applyLoop { n with store := s } lastNormal es

def applyBatch (n : Node) (entries : List Entry) : Node × Option Error := applyLoop cfg clock n none entries

def applyBatches (n : Node) : List (List Entry) → Node × Option Error
  | [] => (n, none)
  | b :: bs =>
    match applyBatch cfg clock n b with
    | (n, some err) => (n, some err)
    | (n, none) => applyBatches n bs

variable {cfg clock} {s : Store} {es : List Entry}

lemma applyEntries_inv (I : Store → Prop) (h0 : I s)
    (hstep : ∀ s, ∀ e ∈ es, ∀ s' r, applyEntry cfg (clock e.logId.index) s e = .ok (s', r) → I s → I s') :
    I (applyEntries cfg clock s es).1 := by
  induction es generalizing s with
  | nil => exact h0
  | cons e es ih =>
    unfold applyEntries
    split
    · exact h0
    · next s' r h =>
      exact ih (hstep s e List.mem_cons_self s' r h h0)
        fun s e he => hstep s e (List.mem_cons_of_mem _ he)

variable {P : Store → Entry → Prop}

lemma applyEntries_along_inv (I : Store → Prop) (h0 : I s)
    (hP : AlongLog cfg clock P s es)
    (hstep : ∀ s e s' r, applyEntry cfg (clock e.logId.index) s e = .ok (s', r) → P s e → I s → I s') :
    I (applyEntries cfg clock s es).1 := by
  induction es generalizing s with
  | nil => exact h0
  | cons e es ih =>
    obtain ⟨he, hes⟩ := hP
    unfold applyEntries
    split
    · exact h0
    · next s' r h =>
      rw [h] at hes
      exact ih (hstep s e s' r h he h0) hes

lemma AlongLog.append {s' : Store} {fs : List Entry}
    (hP : AlongLog cfg clock P s (es ++ fs)) (h : applyEntries cfg clock s es = (s', none)) :
    AlongLog cfg clock P s' fs := by
  induction es generalizing s with
  | nil =>
    cases h
    exact hP
  | cons e es ih =>
    obtain ⟨-, hes⟩ := hP
    unfold applyEntries at h
    split at h
    · cases h
    · next hstep =>
      rw [hstep] at hes
      exact ih hes h

lemma applyEntries_append (s : Store) (es fs : List Entry) :
    applyEntries cfg clock s (es ++ fs) =
      match applyEntries cfg clock s es with
      | (s, some err) => (s, some err)
      | (s, none) => applyEntries cfg clock s fs := by
  induction es generalizing s with
  | nil => rfl
  | cons e es ih =>
    simp only [List.cons_append, applyEntries]
    cases h : applyEntry cfg (clock e.logId.index) s e with
    | error err => rfl
    | ok r => exact ih r.1

lemma applyLoop_store (n : Node) (lastNormal : Option AppliedLogId) (es : List Entry) :
    ((applyLoop cfg clock n lastNormal es).1.store, (applyLoop cfg clock n lastNormal es).2) =
      applyEntries cfg clock n.store es := by
  induction es generalizing n lastNormal with
  | nil => rfl
  | cons e es ih =>
    unfold applyLoop applyEntries
    cases h : applyEntry cfg (clock e.logId.index) n.store e with
    | error err => rfl
    | ok r =>
      cases e.payload with
      | normal cmd => exact ih _ _
      | membership config => exact ih _ _
      | blank => exact ih _ _

/-- **Batches do not matter**: what is persisted depends on the entries alone. -/
lemma applyBatches_store (n : Node) (bs : List (List Entry)) :
    ((applyBatches cfg clock n bs).1.store, (applyBatches cfg clock n bs).2) =
      applyEntries cfg clock n.store bs.flatten := by
  induction bs generalizing n with
  | nil => rfl
  | cons b bs ih =>
    have hb := @applyLoop_store cfg clock n none b
    rw [List.flatten_cons, applyEntries_append, ← hb]
    unfold applyBatches applyBatch
    rcases applyLoop cfg clock n none b with ⟨n', _ | err⟩
    · exact ih n'
    · rfl

end

end Coord.Raft
