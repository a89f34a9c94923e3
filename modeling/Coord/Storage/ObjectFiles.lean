import Coord.Storage.KvRuns
import Coord.Storage.Revisions

/-!
# Objects and their chunk files

A chunk is written to its file before the manifest records it, and a deleted object loses its files after its manifest.
The two are separate effects: the manifest can be refused after the file is there, the node can stop in between, and
files can stay behind.
-/

namespace Coord.Storage

open Coord.Lib Store

/-! ### Files -/

/-- The chunk files of a node, by the directory of the object and the number of the chunk. -/
abbrev ChunkFiles := Bytes → ℕ → Option Bytes

/-- The directory of an object has the digest of its manifest key as its name. -/
def ObjectEnv.objectDir (env : ObjectEnv) (key : Bytes) : Bytes := env.sha256 key

def ChunkFiles.writeChunk (files : ChunkFiles) (dir : Bytes) (seq : ℕ) (data : Bytes) : ChunkFiles :=
  Function.update files dir (Function.update (files dir) seq (some data))

/-- The files of an object are removed, but for those that are `kept` because the removal fails. -/
def ChunkFiles.deleteObjectFiles (files : ChunkFiles) (dir : Bytes) (kept : ℕ → Bool) : ChunkFiles :=
  Function.update files dir fun seq => if kept seq then files dir seq else none

/-- What the disk does while an entry is applied: it refuses the chunk, or the node stops after the chunk and before the
manifest, or files stay behind. -/
inductive Disk where
  | works
  | refuses
  | stops
  | leaves (kept : ℕ → Bool)

def Disk.kept : Disk → ℕ → Bool
  | .leaves kept => kept
  | _ => fun _ => false

structure ObjectNode where
  store : Store
  files : ChunkFiles

def ObjectNode.start : ObjectNode := ⟨Store.empty, fun _ _ => none⟩

/-- An entry of the log: an operation, in v2 form with its timestamp. -/
structure ObjectEntry where
  op : ObjectStoreOp
  commitTs : Option ℕ
  applied : AppliedLogId
  disk : Disk

section

variable (env : ObjectEnv) (mode : RevisionMode)

/-- The chunk file that an operation writes, before the manifest: the chunk is the next one and within its bounds. -/
def Store.chunkFile (s : Store) (op : ObjectStoreOp) (revision : ℕ) : Option (ℕ × Bytes) :=
  if s.changelog.has revision then none
  else match op, env.limits with
    | .chunk bucket objectId seq data nowUnix, some limits =>
      (((s.get (manifestKey bucket objectId)).bind env.fromBytes).bind fun m =>
        m.addChunk env limits seq data nowUnix revision).map fun _ => (seq, data)
    | _, _ => none

/-- Whether a delete removes files: the object was there, and the node has a chunk store. -/
def removesFiles (op : ObjectStoreOp) (outcome : ObjectApply) : Bool :=
  match op with
  | .delete _ _ => env.limits.isSome && decide (outcome = .applied true)
  | _ => false

def ObjectNode.applyManifest (n : ObjectNode) (op : ObjectStoreOp) (revision : ℕ) (policy : RevisionPolicy)
    (applied : AppliedLogId) (kept : ℕ → Bool) : ObjectNode × Option (Except Error ObjectApply) :=
  match n.store.applyObjectStoreOpInner env mode op revision policy applied with
  | .error e => (n, some (.error e))
  | .ok (s, outcome) =>
    (⟨s, if removesFiles env op outcome then n.files.deleteObjectFiles (env.objectDir op.key) kept else n.files⟩,
      some (.ok outcome))

/-- One operation with its files; no answer when the node stops. -/
def ObjectNode.apply (n : ObjectNode) (op : ObjectStoreOp) (revision : ℕ) (policy : RevisionPolicy)
    (applied : AppliedLogId) (disk : Disk) : ObjectNode × Option (Except Error ObjectApply) :=
  match n.store.chunkFile env op revision with
  | none => n.applyManifest env mode op revision policy applied disk.kept
  | some (seq, data) =>
    let written : ObjectNode := { n with files := n.files.writeChunk (env.objectDir op.key) seq data }
    match disk with
    | .refuses => (n, none)
    | .stops => (written, none)
    | _ => written.applyManifest env mode op revision policy applied disk.kept

def objectStep (n : ObjectNode) (e : ObjectEntry) : ObjectNode × Option (Except Error ObjectApply) :=
  match e.commitTs with
  | none => n.apply env mode e.op e.applied.index .logIndex e.applied e.disk
  | some commitTs =>
    if commitTs = 0 then (n, some (.error .objectCommitTsZero))
    else n.apply env mode e.op commitTs .commitTs e.applied e.disk

end

/-! ### What an operation does to the manifests -/

variable {key : Bytes}

section

variable {env : ObjectEnv} {mode : RevisionMode} {s s' : Store} {op : ObjectStoreOp} {revision : ℕ}
    {policy : RevisionPolicy}
  {applied : AppliedLogId} {o : ObjectApply}

/-- The manifest that an operation writes, from the one that is there. -/
inductive NextManifest (env : ObjectEnv) (s : Store) (revision : ℕ) : ObjectStoreOp → ObjectManifest → Prop where
  | created {bucket objectId : Bytes} {totalSize : ℕ} {startedAtUnix : ℤ}
    (hnone : s.get (manifestKey bucket objectId) = none) :
    NextManifest env s revision (.begin bucket objectId totalSize startedAtUnix)
      (.creating totalSize revision startedAtUnix)
  | added {bucket objectId data raw : Bytes} {seq : ℕ} {nowUnix : ℤ} {limits : ObjectLimits} {m m' : ObjectManifest}
    (hlimits : env.limits = some limits) (hraw : s.get (manifestKey bucket objectId) = some raw)
    (hm : env.fromBytes raw = some m) (hm' : m.addChunk env limits seq data nowUnix revision = some m')
    (hfile : s.chunkFile env (.chunk bucket objectId seq data nowUnix) revision = some (seq, data)) :
    NextManifest env s revision (.chunk bucket objectId seq data nowUnix) m'
  | finished {bucket objectId raw : Bytes} {m m' : ObjectManifest}
      (hraw : s.get (manifestKey bucket objectId) = some raw)
    (hm : env.fromBytes raw = some m) (hopen : ¬ m.committed = true) (hm' : m.finish revision = some m') :
    NextManifest env s revision (.commit bucket objectId) m'

lemma get_acceptRevision {s₁ : Store} (h : s.acceptRevision mode revision policy = .ok s₁) :
    s₁.kv = s.kv ∧ s₁.kvMeta = s.kvMeta :=
  (moves_acceptRevision h : Store.Moves id true mode ⟨0, 0, 0⟩ s s₁).rows rfl

lemma Store.RowsHaveMeta.congr (hs : s.RowsHaveMeta) (hkv : s'.kv = s.kv) (hm : s'.kvMeta = s.kvMeta) :
    s'.RowsHaveMeta := by
  intro k hk
  rw [hm] at hk
  rw [hkv]
  exact hs k hk

lemma Wrote.one {s₁ : Store} {v : Option Bytes} (h : Wrote s₁ s' revision [⟨key, v⟩]) (hkv : s₁.kv = s.kv)
    (hm : s₁.kvMeta = s.kvMeta) : s'.RowsHaveMeta ∧ ∀ k, s'.get k = if key = k then v else s.get k := by
  refine ⟨h.rows, fun k => ?_⟩
  rw [h.get, overwrite_change]
  exact if_congr Iff.rfl rfl (get_congr (by rw [hkv]) (by rw [hm]))

lemma replayGuard_new (hnew : s.changelog.has revision = false) (same : ChangeEvent → Bool) :
    s.replayGuard mode revision policy same = none := by
  have hget : s.changelog.get revision = none := by
    simpa [Table.has] using hnew
  cases policy <;> simp [replayGuard, hnew, hget]

section

variable (hs : s.RowsHaveMeta) (hnew : s.changelog.has revision = false)
include hs hnew

lemma putAtKey_new {value : Bytes} {leaseId : Option ℤ} {out : ApplyOutcome}
    (h : s.putAtKey mode key value leaseId revision applied policy = .ok (s', out)) :
    s'.RowsHaveMeta ∧ ∀ k, s'.get k = if key = k then some value else s.get k := by
  unfold putAtKey at h
  rw [replayGuard_new hnew] at h
  dsimp only at h
  split at h
  · cases h
  · next s₁ hacc =>
    cases h
    obtain ⟨hkv, hm⟩ := get_acceptRevision hacc
    exact (wrote_put (hs.congr hkv hm) key value (leaseId.getD 0) revision).one hkv hm

lemma deleteAtKey_new {out : ApplyOutcome} (h : s.deleteAtKey mode key revision applied policy = .ok (s', out)) :
    s'.RowsHaveMeta ∧ ∀ k, s'.get k = if key = k then none else s.get k := by
  unfold deleteAtKey at h
  rw [replayGuard_new hnew] at h
  dsimp only at h
  split at h
  · cases h
  · next s₁ hacc =>
    cases h
    obtain ⟨hkv, hm⟩ := get_acceptRevision hacc
    exact (wrote_delete (hs.congr hkv hm) key revision).one hkv hm

lemma putManifest_new {m : ObjectManifest} (h : s.putManifest env mode key m revision applied policy = .ok (s', o)) :
    s'.RowsHaveMeta ∧ ∀ k, s'.get k = if key = k then some (env.toBytes m) else s.get k := by
  obtain ⟨_, hput⟩ := putManifest_ok h
  exact putAtKey_new hs hnew hput

lemma deleteManifest_new (h : s.deleteManifest mode key revision applied policy = .ok (s', o)) :
    s'.RowsHaveMeta ∧ ∀ k, s'.get k = if key = k then none else s.get k := by
  obtain ⟨_, hdel⟩ := deleteManifest_ok h
  exact deleteAtKey_new hs hnew hdel

end

inductive ManifestEffect (env : ObjectEnv) (s : Store) (op : ObjectStoreOp) (revision : ℕ) (s' : Store)
    (o : ObjectApply) :
    Prop where
  | same (hget : ∀ k, s'.get k = s.get k) (hfiles : removesFiles env op o = false)
  | put (m : ObjectManifest) (hnext : NextManifest env s revision op m)
    (hget : ∀ k, s'.get k = if op.key = k then some (env.toBytes m) else s.get k)
      (hfiles : removesFiles env op o = false)
  | deleted (bucket objectId : Bytes) (hop : op = .delete bucket objectId)
    (hget : ∀ k, s'.get k = if op.key = k then none else s.get k)

lemma rows_noteLogIndexRevision (s : Store) (revision : ℕ) :
    (s.noteLogIndexRevision mode revision).kv = s.kv ∧ (s.noteLogIndexRevision mode revision).kvMeta = s.kvMeta := by
  unfold noteLogIndexRevision
  split <;> exact ⟨rfl, rfl⟩

lemma effect_recorded (hs : s.RowsHaveMeta) (hfiles : removesFiles env op o = false) (index : ℕ) :
    let s' := { s with lastApplied := some applied }.noteLogIndexRevision mode index
    s'.RowsHaveMeta ∧ ManifestEffect env s op revision s' o := by
  obtain ⟨hkv, hm⟩ := @rows_noteLogIndexRevision mode { s with lastApplied := some applied } index
  exact ⟨hs.congr hkv hm, .same (fun k => get_congr (congrArg (Table.get · k) hkv)
    (congrArg (Table.get · k) hm)) hfiles⟩

lemma effect_body (hs : s.RowsHaveMeta)
    (h : s.applyObjectStoreOpBody env mode op revision policy applied = .ok (s', o)) :
    s'.RowsHaveMeta ∧ ManifestEffect env s op revision s' o := by
  have hnoop : ∀ {changed : Bool}, removesFiles env op (.applied changed) = false →
      (Except.ok (s.persistApplied mode revision applied, ObjectApply.applied changed) :
        Except Error (Store × ObjectApply)) = .ok (s', o) → s'.RowsHaveMeta ∧
          ManifestEffect env s op revision s' o := by
    intro changed hfiles h
    cases h
    exact effect_recorded hs hfiles revision
  have hput : ∀ {m : ObjectManifest}, s.changelog.has revision = false → removesFiles env op o = false →
      NextManifest env s revision op m → s.putManifest env mode op.key m revision applied policy = .ok (s', o) →
      s'.RowsHaveMeta ∧ ManifestEffect env s op revision s' o := by
    intro m hnew hfiles hnext h
    obtain ⟨hrows, hget⟩ := putManifest_new hs hnew h
    exact ⟨hrows, .put m hnext hget hfiles⟩
  unfold applyObjectStoreOpBody at h
  dsimp only at h
  split at h
  · cases h
    exact ⟨hs, .same (fun _ => rfl) (by cases op <;> simp [removesFiles])⟩
  next hnew =>
  have hnew : s.changelog.has revision = false := by simpa using hnew
  cases op with
  | begin bucket objectId totalSize startedAtUnix =>
    dsimp only at h
    split at h
    · exact hnoop rfl h
    · next hnone => exact hput hnew rfl (.created (by simpa [ObjectStoreOp.key] using hnone)) h
  | chunk bucket objectId seq data nowUnix =>
    dsimp only at h
    split at h
    · cases h
    next limits hlimits =>
    split at h
    · exact hnoop rfl h
    next raw hraw =>
    split at h
    · cases h
    next m hm =>
    split at h
    · exact hnoop rfl h
    next m' hm' =>
    refine hput hnew rfl (.added hlimits hraw hm hm' ?_) h
    rw [ObjectStoreOp.key] at hraw
    simp [Store.chunkFile, hnew, hlimits, hraw, hm, hm']
  | commit bucket objectId =>
    dsimp only at h
    split at h
    · exact hnoop rfl h
    next raw hraw =>
    split at h
    · cases h
    next m hm =>
    split at h
    · exact hnoop rfl h
    next hopen =>
    split at h
    · exact hnoop rfl h
    next m' hm' => exact hput hnew rfl (.finished hraw hm hopen hm') h
  | delete bucket objectId =>
    obtain ⟨hrows, hget⟩ := deleteManifest_new hs hnew h
    exact ⟨hrows, .deleted bucket objectId rfl hget⟩

lemma effect_inner (hs : s.RowsHaveMeta)
    (h : s.applyObjectStoreOpInner env mode op revision policy applied = .ok (s', o)) :
    s'.RowsHaveMeta ∧ ManifestEffect env s op revision s' o := by
  unfold applyObjectStoreOpInner at h
  split at h
  · cases h
    exact effect_recorded hs (by cases op <;> simp [removesFiles]) applied.index
  · exact effect_body hs h

end

/-! ### Manifests -/

/-- The chunks are numbered from `0` on, the size is the sum of their lengths and within the declared and the configured
bound, and a committed object has its declared size. -/
structure ObjectManifest.WellFormed (env : ObjectEnv) (m : ObjectManifest) : Prop where
  seqs : m.chunks.map ChunkRec.seq = List.range m.chunks.length
  size : m.size = (m.chunks.map ChunkRec.len).sum
  declared : m.totalSize ≠ 0 → m.size ≤ m.totalSize
  configured : m.size ≤ (env.limits.map ObjectLimits.maxObjectSize).getD 0
  committed : m.committed = true → m.size = m.totalSize

/-- The files of a directory hold what the manifest records. -/
def ChunkFiles.Holds (env : ObjectEnv) (files : ChunkFiles) (dir : Bytes) (m : ObjectManifest) : Prop :=
  ∀ rec ∈ m.chunks, ∃ data, files dir rec.seq = some data ∧ data.length = rec.len ∧ env.sha256 data = rec.sha256

section

variable {env : ObjectEnv} {m m' : ObjectManifest} {files : ChunkFiles} {dir data : Bytes} {seq revision : ℕ}
    {nowUnix : ℤ}
  {limits : ObjectLimits}

lemma wellFormed_creating (env : ObjectEnv) (totalSize revision : ℕ) (startedAtUnix : ℤ) :
    (ObjectManifest.creating totalSize revision startedAtUnix).WellFormed env where
  seqs := rfl
  size := rfl
  declared _ := Nat.zero_le _
  configured := Nat.zero_le _
  committed h := by cases h

lemma addChunk_eq_some (h : m.addChunk env limits seq data nowUnix revision = some m') :
    m.committed = false ∧ seq = m.chunks.length ∧
      m.size + data.length ≤ (if m.totalSize = 0 then limits.maxObjectSize else m.totalSize) ∧
      m.totalSize ≤ limits.maxObjectSize ∧
      m' = { m with
        size := m.size + data.length
        chunks := m.chunks ++ [⟨seq, data.length, env.sha256 data⟩]
        lastRevision := revision
        lastWriteAtUnix := nowUnix } := by
  unfold ObjectManifest.addChunk at h
  dsimp only at h
  generalize (if m.totalSize = 0 then limits.maxObjectSize else m.totalSize) = bound at h ⊢
  split_ifs at h with hcommitted hseq hdata hbound
  cases h
  exact ⟨by simpa using hcommitted, not_not.1 hseq, by omega, by omega, rfl⟩

lemma ObjectManifest.WellFormed.addChunk (hm : m.WellFormed env) (hlimits : env.limits = some limits)
    (h : m.addChunk env limits seq data nowUnix revision = some m') : m'.WellFormed env := by
  obtain ⟨hopen, rfl, hbound, hmax, rfl⟩ := addChunk_eq_some h
  refine ⟨?_, ?_, fun hdeclared => ?_, ?_, fun hc => ?_⟩
  · simp [hm.seqs, List.range_succ]
  · simp [hm.size]
  · simpa [hdeclared] using hbound
  · rw [hlimits]
    split_ifs at hbound
    · exact hbound
    · exact hbound.trans hmax
  · simp [hopen] at hc

lemma ObjectManifest.WellFormed.finish (hm : m.WellFormed env)
    (h : m.finish revision = some m') : m'.WellFormed env := by
  unfold ObjectManifest.finish at h
  split_ifs at h with hchunks hsize <;> cases h
  · exact ⟨hm.seqs, hm.size, fun _ => le_rfl, hm.configured, fun _ => rfl⟩
  next hdeclared =>
  have hsame : m.size = m.totalSize := by
    by_contra hne
    exact hsize ⟨hdeclared, hne⟩
  exact ⟨hm.seqs, hm.size, hm.declared, hm.configured, fun _ => hsame⟩

lemma finish_chunks (h : m.finish revision = some m') : m'.chunks = m.chunks := by
  unfold ObjectManifest.finish at h
  split_ifs at h <;> cases h <;> rfl

lemma writeChunk_self : files.writeChunk dir seq data dir seq = some data := by simp [ChunkFiles.writeChunk]

lemma writeChunk_of_ne {dir' : Bytes} {seq' : ℕ} (h : dir' = dir → seq' ≠ seq) :
    files.writeChunk dir seq data dir' seq' = files dir' seq' := by
  unfold ChunkFiles.writeChunk
  by_cases hdir : dir' = dir
  · subst hdir
    rw [Function.update_self, Function.update_of_ne (h rfl)]
  · rw [Function.update_of_ne hdir]

lemma deleteObjectFiles_of_ne {dir' : Bytes} {kept : ℕ → Bool} (h : dir' ≠ dir) :
    files.deleteObjectFiles dir kept dir' = files dir' := Function.update_of_ne h _ _

lemma ChunkFiles.Holds.of_eq {files' : ChunkFiles} (h : files.Holds env dir m)
    (heq : ∀ rec ∈ m.chunks, files' dir rec.seq = files dir rec.seq) : files'.Holds env dir m := by
  intro rec hrec
  obtain ⟨data, hdata, hlen, hsha⟩ := h rec hrec
  exact ⟨data, (heq rec hrec).trans hdata, hlen, hsha⟩

lemma ObjectManifest.WellFormed.seq_lt (hm : m.WellFormed env) {rec : ChunkRec} (hrec : rec ∈ m.chunks) :
    rec.seq < m.chunks.length := by
  have hmem := List.mem_map_of_mem (f := ChunkRec.seq) hrec
  rwa [hm.seqs, List.mem_range] at hmem

lemma ChunkFiles.Holds.writeChunk (hm : m.WellFormed env) (h : files.Holds env dir m)
    (hm' : m.addChunk env limits seq data nowUnix revision = some m') :
    (files.writeChunk dir seq data).Holds env dir m ∧ (files.writeChunk dir seq data).Holds env dir m' := by
  obtain ⟨-, rfl, -, -, rfl⟩ := addChunk_eq_some hm'
  have hold : (files.writeChunk dir m.chunks.length data).Holds env dir m :=
    h.of_eq fun rec hrec => writeChunk_of_ne fun _ => (hm.seq_lt hrec).ne
  exact ⟨hold, forall_mem_append_one hold ⟨data, writeChunk_self, rfl, rfl⟩⟩

end

/-! ### Steps -/

/-- Every row is a well-formed manifest of one of the objects, and its files hold it. -/
structure ObjectNode.Sound (env : ObjectEnv) (keys : Set Bytes) (n : ObjectNode) : Prop where
  rows : n.store.RowsHaveMeta
  key : ∀ key raw, n.store.get key = some raw → key ∈ keys
  manifest : ∀ key raw, n.store.get key = some raw →
    ∃ m, env.fromBytes raw = some m ∧ m.WellFormed env ∧ n.files.Holds env (env.objectDir key) m

lemma sound_start (env : ObjectEnv) (keys : Set Bytes) : ObjectNode.start.Sound env keys where
  rows _ _ := rfl
  key _ _ h := by cases h
  manifest _ _ h := by cases h

section

variable {env : ObjectEnv} {mode : RevisionMode} {keys : Set Bytes} {n : ObjectNode} {op : ObjectStoreOp} {revision : ℕ}
  {policy : RevisionPolicy} {applied : AppliedLogId} {seq : ℕ} {data : Bytes}

lemma chunkFile_eq_some {s : Store} (h : s.chunkFile env op revision = some (seq, data)) :
    ∃ raw m m' limits nowUnix, s.get op.key = some raw ∧ env.fromBytes raw = some m ∧
      m.addChunk env limits seq data nowUnix revision = some m' := by
  unfold Store.chunkFile at h
  split_ifs at h
  split at h
  · next bucket objectId seq' data' nowUnix limits hlimits =>
    obtain ⟨m', hm', hsame⟩ := Option.map_eq_some_iff.1 h
    cases hsame
    obtain ⟨m, hm, hm'⟩ := Option.bind_eq_some_iff.1 hm'
    obtain ⟨raw, hraw, hm⟩ := Option.bind_eq_some_iff.1 hm
    exact ⟨raw, m, m', limits, nowUnix, hraw, hm, hm'⟩
  · cases h

lemma ObjectNode.Sound.writeChunk (h : n.Sound env keys) (hdirs : keys.InjOn env.objectDir) (hkey : op.key ∈ keys)
    (hfile : n.store.chunkFile env op revision = some (seq, data)) :
    ObjectNode.Sound env keys { n with files := n.files.writeChunk (env.objectDir op.key) seq data } where
  rows := h.rows
  key := h.key
  manifest key raw hraw := by
    obtain ⟨m, hm, hwf, hholds⟩ := h.manifest key raw hraw
    refine ⟨m, hm, hwf, ?_⟩
    by_cases hsame : key = op.key
    · subst hsame
      obtain ⟨raw', m₁, m', limits, nowUnix, hraw', hm₁, hm'⟩ := chunkFile_eq_some hfile
      cases hraw.symm.trans hraw'
      cases hm.symm.trans hm₁
      exact (hholds.writeChunk hwf hm').1
    · refine hholds.of_eq fun rec _ => writeChunk_of_ne fun hdir => ?_
      exact absurd (hdirs (h.key key raw hraw) hkey hdir) hsame

/-- The manifest that an operation writes is well formed, and its files hold it once the chunk file is there. -/
lemma ObjectNode.Sound.next (h : n.Sound env keys) {m : ObjectManifest} (hnext : NextManifest env n.store revision op m)
    (hfile : ∀ seq data, n.store.chunkFile env op revision = some (seq, data) →
      n.files (env.objectDir op.key) seq = some data) :
    m.WellFormed env ∧ n.files.Holds env (env.objectDir op.key) m := by
  cases hnext with
  | created => exact ⟨wellFormed_creating _ _ _ _, fun rec hrec => by cases hrec⟩
  | added hlimits hraw hm hm' hchunk =>
    obtain ⟨m₀, hm₀, hwf, hholds⟩ := h.manifest _ _ hraw
    cases hm.symm.trans hm₀
    refine ⟨hwf.addChunk hlimits hm', fun rec hrec => ?_⟩
    obtain ⟨-, rfl, -, -, rfl⟩ := addChunk_eq_some hm'
    rcases mem_append_one.1 hrec with hrec | rfl
    · exact hholds rec hrec
    · exact ⟨_, hfile _ _ hchunk, rfl, rfl⟩
  | finished hraw hm hopen hm' =>
    obtain ⟨m₀, hm₀, hwf, hholds⟩ := h.manifest _ _ hraw
    cases hm.symm.trans hm₀
    refine ⟨hwf.finish hm', fun rec hrec => hholds rec ?_⟩
    rwa [finish_chunks hm'] at hrec

lemma ObjectNode.Sound.applyManifest (hcodec : ∀ m, env.fromBytes (env.toBytes m) = some m) (h : n.Sound env keys)
    (hdirs : keys.InjOn env.objectDir) (hkey : op.key ∈ keys)
    (hfile : ∀ seq data, n.store.chunkFile env op revision = some (seq, data) →
      n.files (env.objectDir op.key) seq = some data) (kept : ℕ → Bool) :
    (n.applyManifest env mode op revision policy applied kept).1.Sound env keys := by
  unfold ObjectNode.applyManifest
  split
  · exact h
  next s' o hinner =>
  obtain ⟨hrows, heffect⟩ := effect_inner h.rows hinner
  cases heffect with
  | same hget hfiles =>
    rw [hfiles]
    refine ⟨hrows, fun key raw hraw => h.key key raw (hget key ▸ hraw), fun key raw hraw => ?_⟩
    exact h.manifest key raw (hget key ▸ hraw)
  | put m hnext hget hfiles =>
    rw [hfiles]
    obtain ⟨hwf, hholds⟩ := h.next hnext hfile
    refine ⟨hrows, fun key raw hraw => ?_, fun key raw hraw => ?_⟩ <;>
      simp only [hget key] at hraw <;> split_ifs at hraw with hsame
    · exact hsame ▸ hkey
    · exact h.key key raw hraw
    · cases hraw
      subst hsame
      exact ⟨m, hcodec m, hwf, hholds⟩
    · exact h.manifest key raw hraw
  | deleted bucket objectId hop hget =>
    refine ⟨hrows, fun key raw hraw => ?_, fun key raw hraw => ?_⟩ <;>
      simp only [hget key] at hraw <;> split_ifs at hraw with hsame
    · exact h.key key raw hraw
    · obtain ⟨m, hm, hwf, hholds⟩ := h.manifest key raw hraw
      refine ⟨m, hm, hwf, ?_⟩
      -- the files of the object alone are removed
      dsimp only
      split_ifs
      · refine hholds.of_eq fun rec _ => congrFun (deleteObjectFiles_of_ne fun hdir => hsame ?_) rec.seq
        exact hdirs hkey (h.key key raw hraw) hdir.symm
      · exact hholds

lemma sound_step (hcodec : ∀ m, env.fromBytes (env.toBytes m) = some m)
    (hdirs : keys.InjOn env.objectDir) (e : ObjectEntry)
    (hkey : e.op.key ∈ keys) (h : n.Sound env keys) : (objectStep env mode n e).1.Sound env keys := by
  have happly : ∀ revision policy, (n.apply env mode e.op revision policy e.applied e.disk).1.Sound env keys := by
    intro revision policy
    unfold ObjectNode.apply
    split
    · next hnone =>
      exact h.applyManifest hcodec hdirs hkey (fun seq data hfile => by cases hnone.symm.trans hfile) _
    next seq data hfile =>
    have hwritten := h.writeChunk hdirs hkey hfile
    dsimp only
    split
    · exact h
    · exact hwritten
    · refine hwritten.applyManifest hcodec hdirs hkey (fun seq' data' hfile' => ?_) _
      cases hfile.symm.trans hfile'
      exact writeChunk_self
  unfold objectStep
  split
  · exact happly _ _
  · split_ifs
    · exact h
    · exact happly _ _

def ObjectStoreOp.deletes (op : ObjectStoreOp) (key : Bytes) : Bool :=
  match op with
  | .delete bucket objectId => decide (manifestKey bucket objectId = key)
  | _ => false

lemma NextManifest.key_ne {s : Store} {m m' : ObjectManifest} {raw : Bytes} (hnext : NextManifest env s revision op m')
    (hraw : s.get key = some raw) (hm : env.fromBytes raw = some m)
      (hcommitted : m.committed = true) : op.key ≠ key := by
  rintro rfl
  cases hnext with
  | created hnone => cases hnone.symm.trans hraw
  | added hlimits hraw' hm₀ hm' hchunk =>
    cases hraw.symm.trans hraw'
    cases hm.symm.trans hm₀
    rw [(addChunk_eq_some hm').1] at hcommitted
    cases hcommitted
  | finished hraw' hm₀ hopen hm' =>
    cases hraw.symm.trans hraw'
    cases hm.symm.trans hm₀
    exact hopen hcommitted

/-- **A committed object.**  An entry that does not delete it leaves its manifest. -/
lemma committed_step {raw : Bytes} {m : ObjectManifest} (hm : env.fromBytes raw = some m)
    (hcommitted : m.committed = true)
    (e : ObjectEntry) (hkeep : e.op.deletes key = false) (h : n.store.RowsHaveMeta ∧ n.store.get key = some raw) :
    (objectStep env mode n e).1.store.RowsHaveMeta ∧ (objectStep env mode n e).1.store.get key = some raw := by
  have hmanifest : ∀ n : ObjectNode, n.store.RowsHaveMeta ∧ n.store.get key = some raw → ∀ revision policy kept,
      (n.applyManifest env mode e.op revision policy e.applied kept).1.store.RowsHaveMeta ∧
        (n.applyManifest env mode e.op revision policy e.applied kept).1.store.get key = some raw := by
    rintro n ⟨hrows, hraw⟩ revision policy kept
    unfold ObjectNode.applyManifest
    split
    · exact ⟨hrows, hraw⟩
    next s' o hinner =>
    obtain ⟨hrows, heffect⟩ := effect_inner hrows hinner
    refine ⟨hrows, ?_⟩
    cases heffect with
    | same hget => exact (hget key).trans hraw
    | put m' hnext hget => exact (hget key).trans ((if_neg (hnext.key_ne hraw hm hcommitted)).trans hraw)
    | deleted bucket objectId hop hget =>
      rw [hop] at hkeep hget
      exact (hget key).trans ((if_neg (of_decide_eq_false hkeep)).trans hraw)
  have happly : ∀ revision policy, (n.apply env mode e.op revision policy e.applied e.disk).1.store.RowsHaveMeta ∧
      (n.apply env mode e.op revision policy e.applied e.disk).1.store.get key = some raw := by
    intro revision policy
    unfold ObjectNode.apply
    split
    · exact hmanifest n h _ _ _
    next seq data _ =>
    dsimp only
    split
    · exact h
    · exact h
    · exact hmanifest ⟨n.store, n.files.writeChunk (env.objectDir e.op.key) seq data⟩ h _ _ _
  unfold objectStep
  split
  · exact happly _ _
  · split_ifs
    · exact h
    · exact happly _ _

end

/-! ### Runs -/

/-- The fields of a manifest, one after the other. -/
def ObjectManifest.fields (m : ObjectManifest) : ℕ × ℕ × List (ℕ × ℕ × Bytes) × Bool × ℕ × ℕ × ℤ × ℤ :=
  (m.totalSize, m.size, m.chunks.map fun rec => (rec.seq, rec.len, rec.sha256), m.committed, m.createRevision,
    m.lastRevision,
    m.startedAtUnix, m.lastWriteAtUnix)

def ObjectManifest.ofFields : ℕ × ℕ × List (ℕ × ℕ × Bytes) × Bool × ℕ × ℕ × ℤ × ℤ → ObjectManifest
  | (totalSize, size, chunks, committed, createRevision, lastRevision, startedAtUnix, lastWriteAtUnix) =>
    ⟨totalSize, size, chunks.map fun rec => ⟨rec.1, rec.2.1, rec.2.2⟩, committed, createRevision, lastRevision,
      startedAtUnix,
      lastWriteAtUnix⟩

/-- A manifest is as many bytes as its number, and a digest is the data itself. -/
def unaryEnv : ObjectEnv where
  limits := some ⟨4, 8⟩
  sha256 := id
  toBytes m := List.replicate (Encodable.encode m.fields) 0
  fromBytes raw := (Encodable.decode raw.length).map ObjectManifest.ofFields

lemma unaryEnv_codec (m : ObjectManifest) : unaryEnv.fromBytes (unaryEnv.toBytes m) = some m := by
  have hfields : Encodable.decode (Encodable.encode m.fields) = some m.fields := Encodable.encodek _
  simp only [unaryEnv, List.length_replicate, hfields, Option.map_some]
  simp [ObjectManifest.fields, ObjectManifest.ofFields, Function.comp_def]

/-- An object is written in two chunks and committed; the first chunk of another comes too early, and its delete leaves
files. -/
def twoObjects : List ObjectEntry :=
  [⟨.begin [1] [1] 3 0, some 5, ⟨1, 0, 1⟩, .works⟩, ⟨.chunk [1] [1] 0 [7, 8] 0, some 6, ⟨1, 0, 2⟩, .stops⟩,
    ⟨.chunk [1] [1] 0 [7, 8] 0, some 6, ⟨1, 0, 2⟩, .works⟩, ⟨.chunk [1] [2] 0 [9] 0, some 7, ⟨1, 0, 3⟩, .works⟩,
    ⟨.chunk [1] [1] 1 [9] 0, some 4, ⟨1, 0, 4⟩, .works⟩, ⟨.chunk [1] [1] 1 [9] 0, some 8, ⟨1, 0, 5⟩, .works⟩,
    ⟨.commit [1] [1], some 9, ⟨1, 0, 6⟩, .works⟩, ⟨.delete [1] [2], some 10, ⟨1, 0, 7⟩, .leaves fun _ => true⟩]

end Coord.Storage
