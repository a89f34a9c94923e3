import Coord.Storage.Kv

/-!
# The object store

An object is a manifest in the key-value tables, under `/obj/m/{bucket}/{object_id}`, and chunk files beside them.
The entries of the log carry the chunks; what they do to the manifest is modelled here, the files are not.  A
conflict is an answer, never an error of the log.
-/

namespace Coord.Storage

inductive ObjectStoreOp where
  | begin (bucket objectId : Bytes) (totalSize : ℕ) (startedAtUnix : ℤ)
  | chunk (bucket objectId : Bytes) (seq : ℕ) (data : Bytes) (nowUnix : ℤ)
  | commit (bucket objectId : Bytes)
  | delete (bucket objectId : Bytes)
  deriving DecidableEq

structure ObjectStoreOpV2 where
  op : ObjectStoreOp
  commitTs : ℕ
  deriving DecidableEq

structure ChunkRec where
  seq : ℕ
  len : ℕ
  sha256 : Bytes
  deriving DecidableEq

/-- `totalSize = 0` is an unknown length until the commit. -/
structure ObjectManifest where
  totalSize : ℕ
  size : ℕ
  chunks : List ChunkRec
  committed : Bool
  createRevision : ℕ
  lastRevision : ℕ
  startedAtUnix : ℤ
  lastWriteAtUnix : ℤ
  deriving DecidableEq

def ObjectManifest.creating (totalSize revision : ℕ) (startedAtUnix : ℤ) : ObjectManifest :=
  ⟨totalSize, 0, [], false, revision, revision, startedAtUnix, startedAtUnix⟩

structure ObjectLimits where
  chunkSize : ℕ
  maxObjectSize : ℕ
  deriving DecidableEq

/-- What the object store takes from outside: the limits of the chunk store, if the node has one, the digest of a
chunk, and the encoding of a manifest. -/
structure ObjectEnv where
  limits : Option ObjectLimits
  sha256 : Bytes → Bytes
  toBytes : ObjectManifest → Bytes
  fromBytes : Bytes → Option ObjectManifest

/-- `/obj/m/` -/
def manifestPrefix : Bytes := objectPrefix ++ [109, 47]

def manifestKey (bucket objectId : Bytes) : Bytes := manifestPrefix ++ bucket ++ [47] ++ objectId

def ObjectStoreOp.key : ObjectStoreOp → Bytes
  | .begin bucket objectId _ _ => manifestKey bucket objectId
  | .chunk bucket objectId _ _ _ => manifestKey bucket objectId
  | .commit bucket objectId => manifestKey bucket objectId
  | .delete bucket objectId => manifestKey bucket objectId

inductive ObjectApply where
  | applied (changed : Bool)
  | rejected (commitTs currentRevision : ℕ)
  deriving DecidableEq

/-- The manifest after a chunk, or nothing when the chunk is out of order, out of bounds or too late. -/
def ObjectManifest.addChunk (env : ObjectEnv) (limits : ObjectLimits) (m : ObjectManifest) (seq : ℕ) (data : Bytes)
    (nowUnix : ℤ) (revision : ℕ) : Option ObjectManifest :=
  let bound := if m.totalSize = 0 then limits.maxObjectSize else m.totalSize
  if m.committed then none
  else if seq ≠ m.chunks.length then none
  else if data = [] ∨ limits.chunkSize < data.length then none
  else if bound < m.size + data.length ∨ limits.maxObjectSize < m.totalSize then none
  else some { m with
    size := m.size + data.length
    chunks := m.chunks ++ [⟨seq, data.length, env.sha256 data⟩]
    lastRevision := revision
    lastWriteAtUnix := nowUnix }

/-- The manifest after the commit: an unknown length becomes the length received. -/
def ObjectManifest.finish (m : ObjectManifest) (revision : ℕ) : Option ObjectManifest :=
  if m.chunks = [] then none
  else if m.totalSize ≠ 0 ∧ m.size ≠ m.totalSize then none
  else some { m with
    totalSize := if m.totalSize = 0 then m.size else m.totalSize
    committed := true
    lastRevision := revision }

namespace Store

section

variable (env : ObjectEnv) (mode : RevisionMode)

def putManifest (s : Store) (key : Bytes) (m : ObjectManifest) (revision : ℕ) (applied : AppliedLogId)
    (policy : RevisionPolicy) : Except Error (Store × ObjectApply) :=
  match (match policy with
      | .logIndex => s.putAtKey mode key (env.toBytes m) none revision applied .logIndex
      | .commitTs => s.putAtCommitTs mode key (env.toBytes m) none revision applied) with
  | .error e => .error e
  | .ok (s, _) => .ok (s, .applied true)

def deleteManifest (s : Store) (key : Bytes) (revision : ℕ) (applied : AppliedLogId) (policy : RevisionPolicy) :
    Except Error (Store × ObjectApply) :=
  let «exists» := (s.get key).isSome
  match (match policy with
      | .logIndex => s.deleteAtKey mode key revision applied .logIndex
      | .commitTs => s.deleteAtCommitTs mode key revision applied) with
  | .error e => .error e
  | .ok (s, _) => .ok (s, .applied «exists»)

def applyObjectStoreOpBody (s : Store) (op : ObjectStoreOp) (revision : ℕ) (policy : RevisionPolicy)
    (applied : AppliedLogId) : Except Error (Store × ObjectApply) :=
  let noop (changed : Bool) : Except Error (Store × ObjectApply) :=
    .ok (s.persistApplied mode revision applied, .applied changed)
  if s.changelog.has revision then .ok (s, .applied false)
  else match op with
  | .begin _ _ totalSize startedAtUnix =>
    if (s.get op.key).isSome then noop false
    else s.putManifest env mode op.key (.creating totalSize revision startedAtUnix) revision applied policy
  | .chunk _ _ seq data nowUnix =>
    match env.limits with
    | none => .error .noChunkStore
    | some limits =>
      match s.get op.key with
      | none => noop false
      | some raw =>
        match env.fromBytes raw with
        | none => .error .corruptManifest
        | some m =>
          match m.addChunk env limits seq data nowUnix revision with
          | none => noop false
          | some m => s.putManifest env mode op.key m revision applied policy
  | .commit _ _ =>
    match s.get op.key with
    | none => noop false
    | some raw =>
      match env.fromBytes raw with
      | none => .error .corruptManifest
      | some m =>
        -- a commit tried again is a success
        if m.committed then noop true
        else match m.finish revision with
        | none => noop false
        | some m => s.putManifest env mode op.key m revision applied policy
  | .delete _ _ => s.deleteManifest mode op.key revision applied policy

/-- A revision that is too old is an answer, and the entry is recorded. -/
def applyObjectStoreOpInner (s : Store) (op : ObjectStoreOp) (revision : ℕ) (policy : RevisionPolicy)
    (applied : AppliedLogId) : Except Error (Store × ObjectApply) :=
  match s.applyObjectStoreOpBody env mode op revision policy applied with
  | .error (.commitRejected commitTs currentRevision) =>
    .ok (s.setLastApplied mode applied, .rejected commitTs currentRevision)
  | other => other

def applyObjectStoreOp (s : Store) (op : ObjectStoreOp) (revision : ℕ) (applied : AppliedLogId) :
    Except Error (Store × Bool) :=
  match s.applyObjectStoreOpInner env mode op revision .logIndex applied with
  | .error e => .error e
  | .ok (s, .applied changed) => .ok (s, changed)
  | .ok (s, .rejected _ _) => .ok (s, false)

def applyObjectStoreOpV2 (s : Store) (op : ObjectStoreOpV2) (applied : AppliedLogId) :
    Except Error (Store × ObjectApply) :=
  if op.commitTs = 0 then .error .objectCommitTsZero
  else s.applyObjectStoreOpInner env mode op.op op.commitTs .commitTs applied

end

end Store

end Coord.Storage
