import Coord.Storage.Store

/-!
# Snapshots

A snapshot carries the rows of the store picked by the prefixes of their keys; installing one clears the tables and
inserts what the snapshot carries.

* `Row`, `Row.internalKey` — every row the store keeps in its first table, under its key;
* `exportSnapshotData`, `importSnapshotData` — the two directions;
* `Domain` — the prefixes, and which rows each of them picks;
* `importSnapshotData_export` — what is left of a store that went through a snapshot.
-/

namespace Coord.Storage

open Coord.Lib (Table)
open Store

/-! ### The rows of the first table -/

/-- A row of the table that holds the values and all the system rows. -/
inductive Row where
  | kv (key value : Bytes)
  | lease (id : ℤ) (record : LeaseRecord)
  | leaseV2 (id : ℤ) (record : LeaseV2Record)
  | leaseV2Req (requestId : Bytes) (id : ℤ)
  | authUser (name : Text) (record : AuthUserRecord)
  | authRole (role : Text) (record : AuthRoleRecord)
  | authRevoked (jti : Text) (record : AuthRevocationRecord)
  | authSession (hashHex : Text) (record : AuthSessionRecord)
  | authBootstrap (id : Text) (record : AuthBootstrapTokenRecord)
  | pdOp (opId : ℕ) (entry : PdQueueEntry)
  | pdIntent (opId : ℕ) (intent : PdIntent)
  | regionTable (table : RegionTable)
  | tsoHighWater (ts : ℕ)
  | tsoLastBatch (batch : TsoBatchRecord)
  | seqDecision (commitTs : ℕ) (decision : SequencerDecision)
  | seqLastCommitTs (ts : ℕ)
  | seqTxn (hash : Bytes) (ts : ℕ)
  | seqRequest (hash : Bytes) (ts : ℕ)
  | seqKeyIndex (hash : Bytes) (ts : ℕ)
  | seqRangeIndex (key : Bytes) (ts : ℕ)
  | seqIntervalIndex (hash : Bytes) (write : SequencerIntervalWrite)
  | seqIndexLastTs (ts : ℕ)
  | decisionApplied (ts : ℕ)
  | directWriteFence (fence : DirectWriteFence)
  | importHistoryFloors (floors : List ImportHistoryFloor)
  | safeTsFence (ts : ℕ)
  | shardTable (table : CommitLogShardTable)
  | commitWatermark (ts : ℕ)
  | commitLogCursor (ts : ℕ)
  | commitLogCount (count : ℕ)
  | commitLogShipped (regionId ts : ℕ)

/-- `u64::to_be_bytes` -/
def beBytes (n : ℕ) : Bytes := [56, 48, 40, 32, 24, 16, 8, 0].map fun shift => Fin.ofNat 256 (n / 2 ^ shift)

/-- `i64::to_be_bytes` -/
def beBytesInt (n : ℤ) : Bytes := beBytes (n % 2 ^ 64).toNat

def Row.internalKey : Row → Bytes
  | .kv key _ => ascii "/kv/" ++ key
  | .lease id _ => ascii "/_lease/" ++ beBytesInt id
  | .leaseV2 id _ => ascii "/_leasev2/" ++ beBytesInt id
  | .leaseV2Req requestId _ => ascii "/_leasev2req/" ++ requestId
  | .authUser name _ => ascii "/_sys/auth/user/" ++ name
  | .authRole role _ => ascii "/_sys/auth/role/" ++ role
  | .authRevoked jti _ => ascii "/_sys/auth/revoked/" ++ jti
  | .authSession hashHex _ => ascii "/_sys/auth/sessions/" ++ hashHex
  | .authBootstrap id _ => ascii "/_sys/auth/bootstrap/" ++ id
  | .pdOp opId _ => ascii "/_pd/ops/" ++ beBytes opId
  | .pdIntent opId _ => ascii "/_pd/intents/" ++ beBytes opId
  | .regionTable _ => ascii "/_sys/pd/regions"
  | .tsoHighWater _ => ascii "/_sys/tso/high_water"
  | .tsoLastBatch _ => ascii "/_sys/tso/last_batch"
  | .seqDecision commitTs _ => ascii "/_sys/seq/decision/" ++ beBytes commitTs
  | .seqLastCommitTs _ => ascii "/_sys/seq/last_commit_ts"
  | .seqTxn hash _ => ascii "/_sys/seq/txn/" ++ hash
  | .seqRequest hash _ => ascii "/_sys/seq/req/" ++ hash
  | .seqKeyIndex hash _ => ascii "/_sys/seq/vidx/" ++ hash
  | .seqRangeIndex key _ => ascii "/_sys/seq/ridx/" ++ key
  | .seqIntervalIndex hash _ => ascii "/_sys/seq/iidx/" ++ hash
  | .seqIndexLastTs _ => ascii "/_sys/seq/vidx_last_ts"
  | .decisionApplied _ => ascii "/_sys/kv_t/decision_applied"
  | .directWriteFence _ => ascii "/_sys/kv_t/direct_write_fence"
  | .importHistoryFloors _ => ascii "/_sys/kv_t/import_history_floors"
  | .safeTsFence _ => ascii "/_sys/kv_t/safe_ts_fence"
  | .shardTable _ => ascii "/_sys/commit_log/shards"
  | .commitWatermark _ => ascii "/_sys/commit_log/watermark"
  | .commitLogCursor _ => ascii "/_sys/commit_log/cursor"
  | .commitLogCount _ => ascii "/_sys/commit_log/count"
  | .commitLogShipped regionId _ => ascii "/_sys/commit_log/shipped/" ++ beBytes regionId

namespace Store

/-- The rows under `/_sys/kv_t/`. -/
def kvtRows (s : Store) : List Row :=
  s.decisionApplied.toList.map .decisionApplied ++ s.directWriteFence.toList.map .directWriteFence ++
  s.safeTsFenceRow.toList.map .safeTsFence ++
  (if s.importHistoryFloors = [] then [] else [s.importHistoryFloors]).map .importHistoryFloors

/-- The rows under `/_sys/pd/` and `/_sys/tso/`. -/
def controlRows (s : Store) : List Row :=
  s.regionTableRow.toList.map .regionTable ++ s.tsoHighWaterRow.toList.map .tsoHighWater ++
  s.tsoLastBatch.toList.map .tsoLastBatch

/-- The rows under `/_sys/seq/`. -/
def sequencerRows (s : Store) : List Row :=
  s.seq.decisions.rows.map (fun r => .seqDecision r.1 r.2) ++ s.seq.lastCommitTs.toList.map .seqLastCommitTs ++
  s.seq.txnIndex.rows.map (fun r => .seqTxn r.1 r.2) ++ s.seq.requestIndex.rows.map (fun r => .seqRequest r.1 r.2) ++
  s.seq.keyIndex.rows.map (fun r => .seqKeyIndex r.1 r.2) ++
  s.seq.rangeIndex.rows.map (fun r => .seqRangeIndex r.1 r.2) ++
  s.seq.intervalIndex.rows.map (fun r => .seqIntervalIndex r.1 r.2) ++
  s.seq.indexLastTs.toList.map .seqIndexLastTs

/-- The rows under `/_sys/commit_log/`. -/
def commitLogRows (s : Store) : List Row :=
  s.shardTableRow.toList.map .shardTable ++ s.commitWatermarkRow.toList.map .commitWatermark ++
  s.commitLogCursorRow.toList.map .commitLogCursor ++ s.commitLogCountRow.toList.map .commitLogCount ++
  s.commitLogShipped.rows.map (fun r => .commitLogShipped r.1 r.2)

def systemRows (s : Store) : List Row := s.kvtRows ++ s.controlRows ++ s.sequencerRows ++ s.commitLogRows

/-- The rows under `/_sys/auth/`. -/
def authRows (s : Store) : List Row :=
  s.auth.users.rows.map (fun r => .authUser r.1 r.2) ++ s.auth.roles.rows.map (fun r => .authRole r.1 r.2) ++
  s.auth.revoked.rows.map (fun r => .authRevoked r.1 r.2) ++
  s.auth.sessions.rows.map (fun r => .authSession r.1 r.2) ++
  s.auth.bootstrap.rows.map (fun r => .authBootstrap r.1 r.2)

/-- The rows under `/_pd/`. -/
def pdRows (s : Store) : List Row :=
  s.pdOps.rows.map (fun r => .pdOp r.1 r.2) ++ s.pdIntents.rows.map (fun r => .pdIntent r.1 r.2)

def tableRows (s : Store) : List Row :=
  s.kv.rows.map (fun r => .kv r.1 r.2) ++ s.leases.rows.map (fun r => .lease r.1 r.2) ++
  s.leasesV2.rows.map (fun r => .leaseV2 r.1 r.2) ++ s.leaseV2Requests.rows.map (fun r => .leaseV2Req r.1 r.2) ++
  s.authRows ++ s.pdRows ++ s.systemRows

/-- The rows whose key begins with `p`. -/
def iterPrefix (s : Store) (p : Bytes) : List Row := s.tableRows.filter fun r => p.isPrefixOf r.internalKey

def insertRow (s : Store) : Row → Store
  | .kv key value => { s with kv := s.kv.insert key value }
  | .lease id record => { s with leases := s.leases.insert id record }
  | .leaseV2 id record => { s with leasesV2 := s.leasesV2.insert id record }
  | .leaseV2Req requestId id => { s with leaseV2Requests := s.leaseV2Requests.insert requestId id }
  | .authUser name record => { s with auth := { s.auth with users := s.auth.users.insert name record } }
  | .authRole role record => { s with auth := { s.auth with roles := s.auth.roles.insert role record } }
  | .authRevoked jti record => { s with auth := { s.auth with revoked := s.auth.revoked.insert jti record } }
  | .authSession hash record => { s with auth := { s.auth with sessions := s.auth.sessions.insert hash record } }
  | .authBootstrap id record => { s with auth := { s.auth with bootstrap := s.auth.bootstrap.insert id record } }
  | .pdOp opId entry => { s with pdOps := s.pdOps.insert opId entry }
  | .pdIntent opId intent => { s with pdIntents := s.pdIntents.insert opId intent }
  | .regionTable table => { s with regionTableRow := some table }
  | .tsoHighWater ts => { s with tsoHighWaterRow := some ts }
  | .tsoLastBatch batch => { s with tsoLastBatch := some batch }
  | .seqDecision ts decision => { s with seq := { s.seq with decisions := s.seq.decisions.insert ts decision } }
  | .seqLastCommitTs ts => { s with seq := { s.seq with lastCommitTs := some ts } }
  | .seqTxn hash ts => { s with seq := { s.seq with txnIndex := s.seq.txnIndex.insert hash ts } }
  | .seqRequest hash ts => { s with seq := { s.seq with requestIndex := s.seq.requestIndex.insert hash ts } }
  | .seqKeyIndex hash ts => { s with seq := { s.seq with keyIndex := s.seq.keyIndex.insert hash ts } }
  | .seqRangeIndex key ts => { s with seq := { s.seq with rangeIndex := s.seq.rangeIndex.insert key ts } }
  | .seqIntervalIndex hash w =>
    { s with seq := { s.seq with intervalIndex := s.seq.intervalIndex.insert hash w } }
  | .seqIndexLastTs ts => { s with seq := { s.seq with indexLastTs := some ts } }
  | .decisionApplied ts => { s with decisionApplied := some ts }
  | .directWriteFence fence => { s with directWriteFence := some fence }
  | .importHistoryFloors floors => { s with importHistoryFloors := floors }
  | .safeTsFence ts => { s with safeTsFenceRow := some ts }
  | .shardTable table => { s with shardTableRow := some table }
  | .commitWatermark ts => { s with commitWatermarkRow := some ts }
  | .commitLogCursor ts => { s with commitLogCursorRow := some ts }
  | .commitLogCount count => { s with commitLogCountRow := some count }
  | .commitLogShipped regionId ts => { s with commitLogShipped := s.commitLogShipped.insert regionId ts }

def insertRows (s : Store) (rows : List Row) : Store := rows.foldl insertRow s

end Store

/-! ### Export and import -/

structure SnapshotData where
  version : ℕ
  lastIncludedIndex : ℕ
  lastIncludedTerm : ℕ
  nextRevision : ℕ
  appliedIndex : ℕ
  appliedTerm : ℕ
  appliedNodeId : ℕ
  kvPairs : List (Bytes × Bytes)
  kvMetadata : List (Bytes × KvMetadata)
  authEntries : List Row
  leaseEntries : List Row
  compactedRevision : ℕ
  currentRevision : ℕ
  pdEntries : List Row
  sysEntries : List Row
  changelogEntries : List (ℕ × ChangeEvent)
  commitLogEntries : List (CommitLogKey × CommitRecord)

def SnapshotData.currentVersion : ℕ := 7

/-- The user's key and value of a row under `/kv/`. -/
def Row.userPair : Row → Option (Bytes × Bytes)
  | .kv key value => some (key, value)
  | _ => none

namespace Store

def exportSnapshotData (mode : RevisionMode) (s : Store) (lastIncludedIndex lastIncludedTerm : ℕ) : SnapshotData :=
  let appliedIndex := (s.lastApplied.map AppliedLogId.index).getD lastIncludedIndex
  { version := SnapshotData.currentVersion
    lastIncludedIndex := lastIncludedIndex
    lastIncludedTerm := lastIncludedTerm
    nextRevision := appliedIndex + 1
    appliedIndex := appliedIndex
    appliedTerm := (s.lastApplied.map AppliedLogId.term).getD 0
    appliedNodeId := (s.lastApplied.map AppliedLogId.nodeId).getD 0
    kvPairs := (s.iterPrefix (ascii "/kv/")).filterMap Row.userPair
    kvMetadata := s.kvMeta.rows
    authEntries := s.iterPrefix (ascii "/_sys/auth/")
    leaseEntries := s.iterPrefix (ascii "/_lease/")
    compactedRevision := s.compactedRevisionRow.getD 0
    currentRevision := s.currentRevisionRow.getD (match mode with
      | .logIndex => appliedIndex
      | .commitTs => 0)
    pdEntries := s.iterPrefix (ascii "/_pd/")
    sysEntries := (s.iterPrefix (ascii "/_sys/")).filter fun r => !(ascii "/_sys/auth/").isPrefixOf r.internalKey
    changelogEntries := s.changelog.rows
    commitLogEntries := s.commitLog.rows }

/-- The store with its tables cleared; the rows of the meta table stay. -/
def cleared (s : Store) : Store :=
  { Store.empty with
    trimmedBeforeRow := s.trimmedBeforeRow
    membershipRow := s.membershipRow
    lastApplied := s.lastApplied
    currentRevisionRow := s.currentRevisionRow
    compactedRevisionRow := s.compactedRevisionRow }

/-- The rows of a snapshot, written into a store. -/
def loadRows (s : Store) (data : SnapshotData) : Store :=
  let s := s.insertRows (data.kvPairs.map fun r => .kv r.1 r.2)
  let s := { s with kvMeta := s.kvMeta.insertAll data.kvMetadata }
  let s := (((s.insertRows data.authEntries).insertRows data.leaseEntries).insertRows data.pdEntries).insertRows
    data.sysEntries
  { s with
    changelog := s.changelog.insertAll data.changelogEntries
    commitLog := s.commitLog.insertAll data.commitLogEntries }

def importSnapshotData (mode : RevisionMode) (s : Store) (data : SnapshotData) : Except Error Store :=
  if data.version ≠ SnapshotData.currentVersion then .error (.snapshotVersion data.version)
  else if data.currentRevision < s.currentRevision mode then
    .error (.snapshotRegresses data.currentRevision (s.currentRevision mode))
  else
    .ok { s.cleared.loadRows data with
      trimmedBeforeRow := none
      lastApplied := some ⟨data.appliedTerm, data.appliedNodeId, data.appliedIndex⟩
      compactedRevisionRow := if 0 < data.compactedRevision then some data.compactedRevision else none
      currentRevisionRow := if 0 < data.currentRevision then some data.currentRevision else none }

end Store

/-! ### Which rows a prefix picks -/

/-- The families of rows, by the prefix of their keys. -/
inductive Domain where
  | kv | lease | leaseV2 | leaseV2Req | auth | pd | system
  deriving DecidableEq

def Row.domain : Row → Domain
  | .kv .. => .kv
  | .lease .. => .lease
  | .leaseV2 .. => .leaseV2
  | .leaseV2Req .. => .leaseV2Req
  | .authUser .. | .authRole .. | .authRevoked .. | .authSession .. | .authBootstrap .. => .auth
  | .pdOp .. | .pdIntent .. => .pd
  | _ => .system

/-- The scans of a snapshot, row by row: each prefix picks the rows of its domains. -/
lemma prefix_domain (r : Row) : (ascii "/kv/").isPrefixOf r.internalKey = decide (r.domain = .kv) ∧
    (ascii "/_lease/").isPrefixOf r.internalKey = decide (r.domain = .lease) ∧
    (ascii "/_sys/auth/").isPrefixOf r.internalKey = decide (r.domain = .auth) ∧
    (ascii "/_pd/").isPrefixOf r.internalKey = decide (r.domain = .pd) ∧
    (ascii "/_sys/").isPrefixOf r.internalKey = decide (r.domain = .auth ∨ r.domain = .system) := by
  cases r <;> exact ⟨rfl, rfl, rfl, rfl, rfl⟩

namespace Store

variable (s : Store)

def rowsOf : Domain → List Row
  | .kv => s.kv.rows.map fun r => .kv r.1 r.2
  | .lease => s.leases.rows.map fun r => .lease r.1 r.2
  | .leaseV2 => s.leasesV2.rows.map fun r => .leaseV2 r.1 r.2
  | .leaseV2Req => s.leaseV2Requests.rows.map fun r => .leaseV2Req r.1 r.2
  | .auth => s.authRows
  | .pd => s.pdRows
  | .system => s.systemRows

lemma domain_of_mem (d : Domain) : ∀ r ∈ s.rowsOf d, r.domain = d := by
  cases d <;>
    simp only [rowsOf, authRows, pdRows, systemRows, kvtRows, controlRows, sequencerRows, commitLogRows,
      List.forall_mem_append, List.forall_mem_map, Row.domain, implies_true, and_true]

lemma filter_tableRows (p : Row → Bool) (q : Domain → Bool) (h : ∀ r, p r = q r.domain) :
    s.tableRows.filter p = [.kv, .lease, .leaseV2, .leaseV2Req, .auth, .pd, .system].flatMap fun d =>
      if q d then s.rowsOf d else [] := by
  have hd : ∀ d, (s.rowsOf d).filter p = if q d then s.rowsOf d else [] := by
    intro d
    split
    · next hq =>
      exact List.filter_eq_self.2 fun r hr => by rw [h, s.domain_of_mem d r hr, hq]
    · next hq =>
      exact List.filter_eq_nil_iff.2 fun r hr => by rw [h, s.domain_of_mem d r hr]; exact hq
  simp only [List.flatMap_cons, List.flatMap_nil, ← hd, ← List.filter_append, List.append_nil]
  simp only [tableRows, rowsOf, List.append_assoc]

lemma iterPrefix_eq {p : Bytes} (d : Domain) (h : ∀ r : Row, p.isPrefixOf r.internalKey = decide (r.domain = d)) :
    s.iterPrefix p = s.rowsOf d :=
  (s.filter_tableRows _ (fun d' => decide (d' = d)) h).trans (by cases d <;> simp)

lemma iterPrefix_kv : s.iterPrefix (ascii "/kv/") = s.rowsOf .kv :=
  s.iterPrefix_eq .kv fun r => (prefix_domain r).1

lemma iterPrefix_lease : s.iterPrefix (ascii "/_lease/") = s.rowsOf .lease :=
  s.iterPrefix_eq .lease fun r => (prefix_domain r).2.1

lemma iterPrefix_auth : s.iterPrefix (ascii "/_sys/auth/") = s.rowsOf .auth :=
  s.iterPrefix_eq .auth fun r => (prefix_domain r).2.2.1

lemma iterPrefix_pd : s.iterPrefix (ascii "/_pd/") = s.rowsOf .pd :=
  s.iterPrefix_eq .pd fun r => (prefix_domain r).2.2.2.1

lemma iterPrefix_sys :
    ((s.iterPrefix (ascii "/_sys/")).filter fun r => !(ascii "/_sys/auth/").isPrefixOf r.internalKey) =
      s.rowsOf .system := by
  unfold iterPrefix
  rw [List.filter_filter]
  refine (s.filter_tableRows _ (fun d => decide (d = .system)) fun r => ?_).trans (by simp)
  rw [(prefix_domain r).2.2.1, (prefix_domain r).2.2.2.2]
  cases r.domain <;> rfl

end Store

/-! ### Putting the rows back -/

namespace Store

variable {K V A : Type} [LinearOrder K] (t s : Store)

lemma insertRows_append (a b : List Row) : t.insertRows (a ++ b) = (t.insertRows a).insertRows b :=
  List.foldl_append

lemma insertRows_table (f : K → V → Row) (slot : Lib.Slot Store (Table K V))
    (h : ∀ s k v, insertRow s (f k v) = slot.put s ((slot.get s).insert k v)) (t : Store) (l : List (K × V)) :
    t.insertRows (l.map fun r => f r.1 r.2) = slot.put t ((slot.get t).insertAll l) :=
  slot.foldl_insert (fun s r => h s r.1 r.2) t l

lemma insertRows_option (f : A → Row) (slot : Lib.Slot Store (Option A))
    (h : ∀ s a, insertRow s (f a) = slot.put s (some a)) (t : Store) (o : Option A) :
    t.insertRows (o.toList.map f) = slot.put t (o.or (slot.get t)) := slot.foldl_set h t o

lemma insertRows_kv (l : List (Bytes × Bytes)) :
    t.insertRows (l.map fun r => .kv r.1 r.2) = { t with kv := t.kv.insertAll l } :=
  insertRows_table .kv (.mk Store.kv fun s a => { s with kv := a }) (fun _ _ _ => rfl) t l

lemma insertRows_leases (l : List (ℤ × LeaseRecord)) :
    t.insertRows (l.map fun r => .lease r.1 r.2) = { t with leases := t.leases.insertAll l } :=
  insertRows_table .lease (.mk Store.leases fun s a => { s with leases := a }) (fun _ _ _ => rfl) t l

lemma insertRows_authRows (h : t.auth = .empty) :
    t.insertRows s.authRows = { t with auth := s.auth } := by
  have users := insertRows_table .authUser (.mk (·.auth.users) fun s a => { s with auth.users := a }) fun _ _ _ => rfl
  have roles := insertRows_table .authRole (.mk (·.auth.roles) fun s a => { s with auth.roles := a }) fun _ _ _ => rfl
  have revoked := insertRows_table .authRevoked (.mk (·.auth.revoked) fun s a => { s with auth.revoked := a })
    fun _ _ _ => rfl
  have sessions := insertRows_table .authSession (.mk (·.auth.sessions) fun s a => { s with auth.sessions := a })
    fun _ _ _ => rfl
  have bootstrap := insertRows_table .authBootstrap (.mk (·.auth.bootstrap) fun s a => { s with auth.bootstrap := a })
    fun _ _ _ => rfl
  simp only [authRows, insertRows_append, users, roles, revoked, sessions, bootstrap, h, AuthRows.empty,
    Table.insertAll_rows]

lemma insertRows_pdRows (hops : t.pdOps = .empty) (hintents : t.pdIntents = .empty) :
    t.insertRows s.pdRows = { t with pdOps := s.pdOps, pdIntents := s.pdIntents } := by
  have ops := insertRows_table .pdOp (.mk Store.pdOps fun s a => { s with pdOps := a }) fun _ _ _ => rfl
  have intents := insertRows_table .pdIntent (.mk pdIntents fun s a => { s with pdIntents := a }) fun _ _ _ => rfl
  simp only [pdRows, insertRows_append, ops, intents, hops, hintents, Table.insertAll_rows]

lemma insertRows_sequencerRows (h : t.seq = .empty) :
    t.insertRows s.sequencerRows = { t with seq := s.seq } := by
  have decisions := insertRows_table .seqDecision (.mk (·.seq.decisions) fun s a => { s with seq.decisions := a })
    fun _ _ _ => rfl
  have lastCommitTs := insertRows_option .seqLastCommitTs (.mk (·.seq.lastCommitTs) fun s a =>
    { s with seq.lastCommitTs := a })
    fun _ _ => rfl
  have txnIndex := insertRows_table .seqTxn (.mk (·.seq.txnIndex) fun s a => { s with seq.txnIndex := a })
    fun _ _ _ => rfl
  have requestIndex := insertRows_table .seqRequest (.mk (·.seq.requestIndex) fun s a =>
    { s with seq.requestIndex := a })
    fun _ _ _ => rfl
  have keyIndex := insertRows_table .seqKeyIndex (.mk (·.seq.keyIndex) fun s a => { s with seq.keyIndex := a })
    fun _ _ _ => rfl
  have rangeIndex := insertRows_table .seqRangeIndex (.mk (·.seq.rangeIndex) fun s a => { s with seq.rangeIndex := a })
    fun _ _ _ => rfl
  have intervalIndex := insertRows_table .seqIntervalIndex (.mk (·.seq.intervalIndex) fun s a =>
    { s with seq.intervalIndex := a })
    fun _ _ _ => rfl
  have indexLastTs := insertRows_option .seqIndexLastTs (.mk (·.seq.indexLastTs) fun s a =>
    { s with seq.indexLastTs := a })
    fun _ _ => rfl
  simp only [sequencerRows, insertRows_append, decisions, lastCommitTs, txnIndex, requestIndex, keyIndex, rangeIndex,
    intervalIndex, indexLastTs, h, SequencerRows.empty, Table.insertAll_rows, Option.or_none]

lemma insertRows_kvtRows (hcursor : t.decisionApplied = none) (hfence : t.directWriteFence = none)
    (hfloors : t.importHistoryFloors = []) (hsafe : t.safeTsFenceRow = none) :
    t.insertRows s.kvtRows = { t with
      decisionApplied := s.decisionApplied
      directWriteFence := s.directWriteFence
      importHistoryFloors := s.importHistoryFloors
      safeTsFenceRow := s.safeTsFenceRow } := by
  have cursor := insertRows_option .decisionApplied (.mk decisionApplied fun s a => { s with decisionApplied := a })
    fun _ _ => rfl
  have fence := insertRows_option .directWriteFence (.mk directWriteFence fun s a => { s with directWriteFence := a })
    fun _ _ => rfl
  have safeTs := insertRows_option .safeTsFence (.mk safeTsFenceRow fun s a => { s with safeTsFenceRow := a })
    fun _ _ => rfl
  have floors : ∀ t : Store, t.importHistoryFloors = [] →
      t.insertRows ((if s.importHistoryFloors = [] then [] else [s.importHistoryFloors]).map .importHistoryFloors) =
        { t with importHistoryFloors := s.importHistoryFloors } := by
    intro t ht
    split
    · next h => rw [h, ← ht]; rfl
    · rfl
  simp only [kvtRows, insertRows_append, cursor, fence, safeTs, hcursor, hfence, hsafe, Option.or_none]
  exact floors _ hfloors

lemma insertRows_controlRows (htable : t.regionTableRow = none) (hwater : t.tsoHighWaterRow = none)
    (hbatch : t.tsoLastBatch = none) :
    t.insertRows s.controlRows = { t with
      regionTableRow := s.regionTableRow
      tsoHighWaterRow := s.tsoHighWaterRow
      tsoLastBatch := s.tsoLastBatch } := by
  have table := insertRows_option .regionTable (.mk regionTableRow fun s a => { s with regionTableRow := a })
    fun _ _ => rfl
  have highWater := insertRows_option .tsoHighWater (.mk tsoHighWaterRow fun s a => { s with tsoHighWaterRow := a })
    fun _ _ => rfl
  have batch := insertRows_option .tsoLastBatch (.mk tsoLastBatch fun s a => { s with tsoLastBatch := a })
    fun _ _ => rfl
  simp only [controlRows, insertRows_append, table, highWater, batch, htable, hwater, hbatch, Option.or_none]

lemma insertRows_commitLogRows (hshards : t.shardTableRow = none)
    (hwatermark : t.commitWatermarkRow = none) (hcursor : t.commitLogCursorRow = none)
    (hcount : t.commitLogCountRow = none) (hshipped : t.commitLogShipped = .empty) :
    t.insertRows s.commitLogRows = { t with
      shardTableRow := s.shardTableRow
      commitWatermarkRow := s.commitWatermarkRow
      commitLogCursorRow := s.commitLogCursorRow
      commitLogCountRow := s.commitLogCountRow
      commitLogShipped := s.commitLogShipped } := by
  have shards := insertRows_option .shardTable (.mk shardTableRow fun s a => { s with shardTableRow := a })
    fun _ _ => rfl
  have watermark := insertRows_option .commitWatermark (.mk commitWatermarkRow fun s a =>
    { s with commitWatermarkRow := a })
    fun _ _ => rfl
  have cursor := insertRows_option .commitLogCursor (.mk commitLogCursorRow fun s a =>
    { s with commitLogCursorRow := a })
    fun _ _ => rfl
  have count := insertRows_option .commitLogCount (.mk commitLogCountRow fun s a => { s with commitLogCountRow := a })
    fun _ _ => rfl
  have shipped := insertRows_table .commitLogShipped (.mk commitLogShipped fun s a => { s with commitLogShipped := a })
    fun _ _ _ => rfl
  simp only [commitLogRows, insertRows_append, shards, watermark, cursor, count, shipped, hshards, hwatermark, hcursor,
    hcount, hshipped, Option.or_none, Table.insertAll_rows]

/-- What a store that went through a snapshot keeps: everything but the v2 leases and their request ids.  The rows
of the meta table are those of the target, or follow from what the snapshot says of the source. -/
def throughSnapshot (mode : RevisionMode) (s t : Store) (lastIncludedIndex : ℕ) : Store :=
  let applied := s.lastApplied.getD ⟨0, 0, lastIncludedIndex⟩
  let current := { s with lastApplied := some applied }.currentRevision mode
  { s with
    leasesV2 := .empty
    leaseV2Requests := .empty
    trimmedBeforeRow := none
    membershipRow := t.membershipRow
    lastApplied := some applied
    currentRevisionRow := if 0 < current then some current else none
    compactedRevisionRow := if 0 < s.compactedRevision then some s.compactedRevision else none }

/-- The families of the snapshot one after the other, each into a store that has none of its rows yet. -/
lemma insertRows_cleared (s t : Store) (kv : Table Bytes Bytes) (kvMeta : Table Bytes KvMetadata) :
    ((({ t.cleared with kv := kv, kvMeta := kvMeta }.insertRows (s.rowsOf .auth)).insertRows
        (s.rowsOf .lease)).insertRows (s.rowsOf .pd)).insertRows (s.rowsOf .system) =
      { s with
        kv := kv
        kvMeta := kvMeta
        changelog := .empty
        commitLog := .empty
        leasesV2 := .empty
        leaseV2Requests := .empty
        trimmedBeforeRow := t.trimmedBeforeRow
        membershipRow := t.membershipRow
        lastApplied := t.lastApplied
        currentRevisionRow := t.currentRevisionRow
        compactedRevisionRow := t.compactedRevisionRow } := by
  simp only [rowsOf, systemRows, insertRows_append, cleared, Store.empty]
  rw [insertRows_authRows _ s rfl]
  dsimp only
  rw [insertRows_leases]
  dsimp only
  rw [insertRows_pdRows _ s rfl rfl]
  dsimp only
  rw [insertRows_kvtRows _ s rfl rfl rfl rfl]
  dsimp only
  rw [insertRows_controlRows _ s rfl rfl rfl]
  dsimp only
  rw [insertRows_sequencerRows _ s rfl]
  dsimp only
  rw [insertRows_commitLogRows _ s rfl rfl rfl rfl rfl, Table.insertAll_rows]

lemma loadRows_export (mode : RevisionMode) (s t : Store) (index term : ℕ) :
    t.cleared.loadRows (s.exportSnapshotData mode index term) = { s with
        leasesV2 := .empty
        leaseV2Requests := .empty
        trimmedBeforeRow := t.trimmedBeforeRow
        membershipRow := t.membershipRow
        lastApplied := t.lastApplied
        currentRevisionRow := t.currentRevisionRow
        compactedRevisionRow := t.compactedRevisionRow } := by
  have hpairs : (s.rowsOf .kv).filterMap Row.userPair = s.kv.rows := by
    simp [rowsOf, List.filterMap_map, Function.comp_def, Row.userPair]
  have hempty : t.cleared.kv = .empty ∧ t.cleared.kvMeta = .empty := ⟨rfl, rfl⟩
  simp only [loadRows, exportSnapshotData, iterPrefix_kv, iterPrefix_auth, iterPrefix_lease, iterPrefix_pd,
    iterPrefix_sys, hpairs, insertRows_kv, insertRows_cleared, hempty, Table.insertAll_rows]

theorem importSnapshotData_export (mode : RevisionMode) (s t : Store) (index term : ℕ)
    (h : t.currentRevision mode ≤ s.currentRevision mode) :
    t.importSnapshotData mode (s.exportSnapshotData mode index term) =
      .ok (s.throughSnapshot mode t index) := by
  have hcurrent : (s.exportSnapshotData mode index term).currentRevision =
      { s with lastApplied := some (s.lastApplied.getD ⟨0, 0, index⟩) }.currentRevision mode := by
    unfold exportSnapshotData currentRevision
    cases s.currentRevisionRow <;> cases s.lastApplied <;> cases mode <;> rfl
  have hle : s.currentRevision mode ≤
      { s with lastApplied := some (s.lastApplied.getD ⟨0, 0, index⟩) }.currentRevision mode := by
    unfold currentRevision
    cases s.currentRevisionRow <;> cases s.lastApplied <;> cases mode <;> simp
  have happlied : (⟨(s.exportSnapshotData mode index term).appliedTerm,
      (s.exportSnapshotData mode index term).appliedNodeId,
      (s.exportSnapshotData mode index term).appliedIndex⟩ : AppliedLogId) =
      s.lastApplied.getD ⟨0, 0, index⟩ := by
    unfold exportSnapshotData
    cases s.lastApplied <;> rfl
  have hversion : (s.exportSnapshotData mode index term).version =
    SnapshotData.currentVersion := rfl
  have hcompacted : (s.exportSnapshotData mode index term).compactedRevision =
    s.compactedRevision := rfl
  unfold importSnapshotData
  rw [if_neg (not_not.2 hversion), if_neg (by omega), loadRows_export, hcurrent, happlied, hcompacted]
  rfl

end Store

end Coord.Storage
