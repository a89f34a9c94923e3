import Coord.Storage.Kv

/-!
# Leases

Leases are granted, kept alive and revoked in the system Region; the keys bound to a lease are deleted in every
Region by a command of its own.  The v1 operations leave a changelog entry at their log index, which is how a replay
is noticed; the v2 operations leave none, and only the v2 cleanup takes a commit timestamp.
-/

namespace Coord.Storage

inductive LeaseOp where
  | grant (id ttl deadlineWallMs : ℤ)
  | keepAlive (id deadlineWallMs : ℤ)
  | revoke (id : ℤ) (deleteKeys : Bool)
  deriving DecidableEq

inductive LeaseV2Op where
  | grant (leaseId ttlSeconds : ℤ) (grantedTs : ℕ) (deadlineWallMs : ℤ) (requestId : Bytes)
  | keepAlive (leaseId deadlineWallMs : ℤ)
  | revoke (leaseId : ℤ) (commitTs : ℕ) (expectedDeadlineWallMs : ℤ) (requestId : Bytes)
  deriving DecidableEq

inductive LeaseV2Apply where
  | grant (leaseId : ℤ) (grantedTs : ℕ) (ttl : ℤ) (created : Bool)
  | keepAlive (ok : Bool)
  | revoke (commitTs : ℕ)
  deriving DecidableEq

namespace Store

/-! ### v1 -/

/-- The live keys bound to a lease, found by their metadata. -/
def keysByLease (s : Store) (leaseId : ℤ) : List Bytes :=
  (s.kvMeta.rows.filter fun r => decide (r.2.leaseId = leaseId) && !r.2.deleted).map Prod.fst

/-- Mark the keys bound to a lease deleted, and list them. -/
def deleteKeysByLease (s : Store) (leaseId : ℤ) (revision : ℕ) : Store × List Bytes :=
  (s.deleteKeys (s.keysByLease leaseId) revision, s.keysByLease leaseId)

/-- The rows of a v1 lease operation, and the keys it deletes.  A grant never replaces a lease. -/
def writeLeaseOp (s : Store) (revision : ℕ) : LeaseOp → Store × List Bytes
  | .grant id ttl deadlineWallMs =>
    match s.leases.get id with
    | some _ => (s, [])
    | none => ({ s with leases := s.leases.insert id ⟨ttl, deadlineWallMs, revision⟩ }, [])
  | .keepAlive id deadlineWallMs =>
    match s.leases.get id with
    | some record => ({ s with leases := s.leases.insert id ⟨record.ttl, deadlineWallMs, revision⟩ }, [])
    | none => (s, [])
  | .revoke id deleteKeys =>
    let s := { s with leases := s.leases.erase id }
    if deleteKeys then s.deleteKeysByLease id revision else (s, [])

def applyLeaseOp (mode : RevisionMode) (s : Store) (op : LeaseOp) (revision : ℕ) (applied : AppliedLogId) :
    Store × ApplyOutcome × List KeyValueChange :=
  if s.changelog.has revision then (s, ⟨true⟩, [])
  else
    let (s, deleted) := (s.noteLogIndexRevision mode revision).writeLeaseOp revision op
    let changes := deleted.map fun k => ⟨k, none⟩
    (s.writeChangelog ⟨revision, changes, .lease⟩ applied, ⟨false⟩, changes)

def applyDeleteKeysByLease (mode : RevisionMode) (s : Store) (leaseId : ℤ) (revision : ℕ)
    (applied : AppliedLogId) : Store × ApplyOutcome × List KeyValueChange :=
  if s.changelog.has revision then (s, ⟨true⟩, [])
  else
    let (s, deleted) := (s.noteLogIndexRevision mode revision).deleteKeysByLease leaseId revision
    let changes := deleted.map fun k => ⟨k, none⟩
    (s.writeChangelog ⟨revision, changes, .lease⟩ applied, ⟨false⟩, changes)

/-! ### v2 -/

/-- The lease an earlier grant with the same request id made. -/
def grantedBy (s : Store) (requestId : Bytes) : Option (ℤ × LeaseV2Record) :=
  if requestId = [] then none
  else match s.leaseV2Requests.get requestId with
  | none => none
  | some existingId => (s.leasesV2.get existingId).map fun record => (existingId, record)

/-- The record keeps at most the first 65535 bytes of the request id. -/
def grantLeaseV2 (s : Store) (leaseId ttlSeconds : ℤ) (grantedTs : ℕ) (deadlineWallMs : ℤ) (requestId : Bytes) :
    Store × LeaseV2Apply :=
  match s.grantedBy requestId with
  | some (existingId, record) => (s, .grant existingId record.grantedTs record.ttl true)
  | none =>
    match s.leasesV2.get leaseId with
    | some record =>
      let sameRequest := decide (requestId ≠ [] ∧ record.grantRequestId = requestId)
      (s, .grant leaseId record.grantedTs record.ttl sameRequest)
    | none =>
      let record : LeaseV2Record := ⟨ttlSeconds, grantedTs, deadlineWallMs, false, 0, requestId.take (2 ^ 16 - 1)⟩
      ({ s with
          leasesV2 := s.leasesV2.insert leaseId record
          leaseV2Requests := if requestId = [] then s.leaseV2Requests else s.leaseV2Requests.insert requestId leaseId },
        .grant leaseId grantedTs ttlSeconds true)

/-- The revoked record, or nothing to do: the lease is gone, was kept alive past the expected deadline, or was
revoked at this timestamp or a later one. -/
def revokedRecord (record : LeaseV2Record) (commitTs : ℕ) (expectedDeadlineWallMs : ℤ) : Option LeaseV2Record :=
  if !record.revoked then
    if expectedDeadlineWallMs ≠ 0 ∧ expectedDeadlineWallMs < record.deadlineWallMs then none
    else some { record with revoked := true, revokedCommitTs := commitTs }
  else if record.revokedCommitTs < commitTs then some { record with revokedCommitTs := commitTs }
  else none

def writeLeaseV2Op (s : Store) : LeaseV2Op → Store × LeaseV2Apply
  | .grant leaseId ttlSeconds grantedTs deadlineWallMs requestId =>
    s.grantLeaseV2 leaseId ttlSeconds grantedTs deadlineWallMs requestId
  | .keepAlive leaseId deadlineWallMs =>
    match (s.leasesV2.get leaseId).filter fun record => !record.revoked with
    | some record =>
      ({ s with leasesV2 := s.leasesV2.insert leaseId { record with deadlineWallMs := deadlineWallMs } },
        .keepAlive true)
    | none => (s, .keepAlive false)
  | .revoke leaseId commitTs expectedDeadlineWallMs _ =>
    match (s.leasesV2.get leaseId).bind fun record => revokedRecord record commitTs expectedDeadlineWallMs with
    | some record => ({ s with leasesV2 := s.leasesV2.insert leaseId record }, .revoke commitTs)
    | none => (s, .revoke 0)

/-- No changelog entry: the operation is applied again when its entry is. -/
def applyLeaseV2Op (mode : RevisionMode) (s : Store) (op : LeaseV2Op) (revision : ℕ) (applied : AppliedLogId) :
    Store × LeaseV2Apply :=
  let (s, result) := (s.noteLogIndexRevision mode revision).writeLeaseV2Op op
  ({ s with lastApplied := some applied }, result)

/-- The cleanup of a lease at a commit timestamp.  It is refused as a whole while a direct-write fence stands; with
no bound key it takes no timestamp. -/
def deleteKeysByLeaseAtCommitTs (mode : RevisionMode) (s : Store) (leaseId : ℤ) (commitTs : ℕ)
    (applied : AppliedLogId) : Except Error (Store × ApplyOutcome × List Bytes) :=
  if commitTs = 0 then .error .commitTsZero
  else match s.changelog.get commitTs with
  | some event =>
    if event.eventType = .lease then .ok (s, ⟨true⟩, [])
    else .error (.commitRejected commitTs (s.currentRevision mode))
  | none =>
    if s.directWriteFence.isSome then .error (.commitRejected commitTs (s.currentRevision mode))
    else
      let (s', deleted) := s.deleteKeysByLease leaseId commitTs
      if deleted = [] then .ok ({ s with lastApplied := some applied }, ⟨false⟩, [])
      else match s'.acceptCommitTs mode commitTs with
      | .error e => .error e
      | .ok s' =>
        .ok (s'.writeChangelog ⟨commitTs, deleted.map fun k => ⟨k, none⟩, .lease⟩ applied, ⟨false⟩, deleted)

lemma deleteKeysByLeaseAtCommitTs_cases {mode : RevisionMode} {s s' : Store} {leaseId : ℤ} {commitTs : ℕ}
    {applied : AppliedLogId} {o : ApplyOutcome × List Bytes}
    (h : s.deleteKeysByLeaseAtCommitTs mode leaseId commitTs applied = .ok (s', o)) :
    (∃ event, s.changelog.get commitTs = some event ∧ s' = s) ∨
    s.changelog.get commitTs = none ∧ (s.keysByLease leaseId = [] ∧ s' = { s with lastApplied := some applied } ∨
        ∃ s₁, (s.deleteKeys (s.keysByLease leaseId) commitTs).acceptCommitTs mode commitTs = .ok s₁ ∧
          s' = s₁.writeChangelog ⟨commitTs, (s.keysByLease leaseId).map fun k => ⟨k, none⟩, .lease⟩ applied) := by
  unfold deleteKeysByLeaseAtCommitTs at h
  split at h
  · cases h
  split at h
  · next event hget =>
    split at h
    · cases h
      exact .inl ⟨event, hget, rfl⟩
    · cases h
  · next hget =>
    split at h
    · cases h
    dsimp only at h
    split at h
    · next hnil =>
      cases h
      exact .inr ⟨hget, .inl ⟨hnil, rfl⟩⟩
    · split at h
      · cases h
      · next s₁ hacc =>
        cases h
        exact .inr ⟨hget, .inr ⟨s₁, hacc, rfl⟩⟩

end Store

end Coord.Storage
