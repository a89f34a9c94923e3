import Coord.Lib.History
import Coord.Storage.Decisions

/-!
# Runs of writes on one store

Runs of writes, deletes, range deletes, transactions, decisions and compactions on one store.  What a key holds at a
revision is what the store returned for it when it stood there.

* `stateAt` — the store of a run when it stood at a revision;
* `Wrote` — what the changes of one revision do to the values and the metadata.
-/

namespace Coord.Storage

open Coord.Lib Coord.Lib.History Store Table

/-! ### Runs -/

/-- What an entry of the log does to the key-value tables.  The first four are the v1 commands, whose revision is
the log index. -/
inductive KvOp where
  | put (key value : Bytes) (leaseId : Option ℤ)
  | delete (key : Bytes)
  | deleteRange (start stop : Bytes)
  | txn (compares : List TxnCompare) (successOps failureOps : List TxnOp)
  | putV2 (key value : Bytes) (leaseId : Option ℤ) (commitTs : ℕ)
  | deleteV2 (key : Bytes) (commitTs : ℕ)
  | deleteRangeV2 (start stop : Bytes) (commitTs : ℕ)
  | decisions (views : List DecisionView) (maxTxnBytes : ℕ)
  | compact (revision : ℕ)
  | noRows
  deriving DecidableEq

/-- The mode whose stores an operation is for; the v2 gate keeps the v1 commands from a v2 store. -/
def KvOp.mode : KvOp → Option RevisionMode
  | .put .. | .delete .. | .deleteRange .. | .txn .. => some .logIndex
  | .putV2 .. | .deleteV2 .. | .deleteRangeV2 .. | .decisions .. => some .commitTs
  | .compact .. | .noRows => none

structure KvEntry where
  applied : AppliedLogId
  op : KvOp
  deriving DecidableEq

/-- The store after a call, and its error; a failed call leaves the store as it was. -/
def settle {α : Type} (s : Store) : Except Error (Store × α) → Store × Option Error
  | .ok r => (r.1, none)
  | .error e => (s, some e)

section

variable (size : CommitRecord → ℕ) (mode : RevisionMode)

def kvStep (s : Store) (e : KvEntry) : Store × Option Error :=
  match e.op with
  | .put key value leaseId => settle s (s.putAtKey mode key value leaseId e.applied.index e.applied .logIndex)
  | .delete key => settle s (s.deleteAtKey mode key e.applied.index e.applied .logIndex)
  | .deleteRange start stop => settle s (s.deleteRangeAtKey mode start stop e.applied.index e.applied .logIndex)
  | .txn compares successOps failureOps =>
    settle s (s.executeTxnAtRevision mode compares successOps failureOps e.applied.index e.applied)
  | .putV2 key value leaseId commitTs => settle s (s.putAtCommitTs mode key value leaseId commitTs e.applied)
  | .deleteV2 key commitTs => settle s (s.deleteAtCommitTs mode key commitTs e.applied)
  | .deleteRangeV2 start stop commitTs => settle s (s.deleteRangeAtCommitTs mode start stop commitTs e.applied)
  | .decisions views maxTxnBytes =>
    ((s.applyCommitDecisionsCore size mode views e.applied.index e.applied maxTxnBytes).1, none)
  | .compact revision => ((s.applyCompact mode revision e.applied).1, none)
  | .noRows => (s.setLastApplied mode e.applied, none)

/-- Entries come in the order of the log, and are commands of the store's mode. -/
def InLogOrder (s : Store) (e : KvEntry) : Prop :=
  (∀ a ∈ s.lastApplied, a.index < e.applied.index) ∧ ∀ m ∈ e.op.mode, m = mode

instance (s : Store) (e : KvEntry) : Decidable (InLogOrder mode s e) := by
  unfold InLogOrder
  infer_instance

/-- A batch of decisions passes the revisions between them: its prefixes are where it can be cut. -/
def KvEntry.cuts (e : KvEntry) : List KvEntry :=
  match e.op with
  | .decisions views maxTxnBytes => views.inits.map fun p => { e with op := .decisions p maxTxnBytes }
  | _ => []

/-- The store within the step `e` when it stood at `T`. -/
def within (T : ℕ) (s : Store) (e : KvEntry) : Store :=
  (((e.cuts.map fun c => (kvStep size mode s c).1).filter
    fun s' => decide (s'.currentRevision mode ≤ T)).getLast?).getD s

/-- The store of the run when it stood at `T`: before the first step that moves the current revision past it. -/
def stateAt (T : ℕ) (s : Store) : List KvEntry → Store
  | [] => s
  | e :: es =>
    let s' := (kvStep size mode s e).1
    if s'.currentRevision mode ≤ T then stateAt T s' es else within size mode T s e

end

/-! ### What the changes of one revision do -/

def Store.writes (s : Store) : Log Bytes Bytes :=
  s.changelog.rows.flatMap fun r => stamp r.1 (r.2.changes.map fun c => (c.key, c.value))

def changePairs (changes : List KeyValueChange) : List (Bytes × Option Bytes) :=
  changes.map fun c => (c.key, c.value)

@[simp] lemma changePairs_append (a b : List KeyValueChange) :
    changePairs (a ++ b) = changePairs a ++ changePairs b := List.map_append

def Store.RowsHaveMeta (s : Store) : Prop := ∀ k, s.kvMeta.get k = none → s.kv.get k = none

/-- What a write at `r` does to the metadata of a key: nothing, or a new modification over the old creation. -/
def MetaStep (r : ℕ) (old new : Option KvMetadata) : Prop :=
  ∃ m, new = some m ∧ m.modRevision = r ∧
    ((old = none ∧ m.createRevision = r) ∨ ∃ m₀, old = some m₀ ∧ m.createRevision = m₀.createRevision)

/-- `s'` is `s` after the changes at `r`, before they are in the changelog. -/
structure Wrote (s s' : Store) (r : ℕ) (changes : List KeyValueChange) : Prop where
  frame : s' = { s with kv := s'.kv, kvMeta := s'.kvMeta }
  rows : s'.RowsHaveMeta
  get : ∀ k, s'.get k = overwrite s.get (changePairs changes) k
  metadata : ∀ k, (s'.kvMeta.get k = s.kvMeta.get k ∧ s'.get k = s.get k) ∨
    MetaStep r (s.kvMeta.get k) (s'.kvMeta.get k)

variable {s : Store} {k : Bytes}

lemma overwrite_change (key : Bytes) (v : Option Bytes) :
    overwrite s.get (changePairs [⟨key, v⟩]) k = if key = k then v else s.get k := overwrite_singleton ..

lemma Wrote.refl (hs : s.RowsHaveMeta) (r : ℕ) : Wrote s s r [] where
  frame := rfl
  rows := hs
  get _ := rfl
  metadata _ := Or.inl ⟨rfl, rfl⟩

lemma MetaStep.trans {r : ℕ} {a b c : Option KvMetadata} (h : MetaStep r a b) (h' : MetaStep r b c) :
    MetaStep r a c := by
  obtain ⟨m, rfl, -, hm⟩ := h
  obtain ⟨m', rfl, hmod, hm'⟩ := h'
  have hcreate : m'.createRevision = m.createRevision := by
    rcases hm' with ⟨hn, -⟩ | ⟨m₀, h0, hc⟩
    · cases hn
    · cases h0
      exact hc
  refine ⟨m', rfl, hmod, ?_⟩
  rcases hm with ⟨ha, hc⟩ | ⟨m₀, ha, hc⟩
  · exact Or.inl ⟨ha, hcreate.trans hc⟩
  · exact Or.inr ⟨m₀, ha, hcreate.trans hc⟩

lemma Wrote.trans {s₁ s₂ : Store} {r : ℕ} {a b : List KeyValueChange} (h : Wrote s s₁ r a)
    (h' : Wrote s₁ s₂ r b) : Wrote s s₂ r (a ++ b) where
  frame := by rw [h'.frame, h.frame]
  rows := h'.rows
  get k := by
    have hfun : s₁.get = overwrite s.get (changePairs a) := funext h.get
    rw [h'.get, hfun, changePairs_append, overwrite_append]
  metadata k := by
    rcases h.metadata k with ⟨hm, hg⟩ | hm <;> rcases h'.metadata k with ⟨hm', hg'⟩ | hm'
    · exact Or.inl ⟨hm'.trans hm, hg'.trans hg⟩
    · exact Or.inr (hm ▸ hm')
    · exact Or.inr (hm' ▸ hm)
    · exact Or.inr (hm.trans hm')

lemma Store.get_congr {s' : Store} (hkv : s'.kv.get k = s.kv.get k)
    (hm : s'.kvMeta.get k = s.kvMeta.get k) : s'.get k = s.get k := by
  unfold Store.get isDeleted
  rw [hkv, hm]

lemma wrote_put (hs : s.RowsHaveMeta) (key value : Bytes) (leaseId : ℤ) (r : ℕ) :
    Wrote s (s.writePut key value leaseId r) r [⟨key, some value⟩] where
  frame := rfl
  rows := by
    intro k hk
    simp only [writePut, get_insert] at hk ⊢
    by_cases h : k = key
    · simp [h] at hk
    · simpa [h] using hs k (by simpa [h] using hk)
  get k := by
    rw [overwrite_change]
    by_cases h : key = k
    · subst h
      cases hm : s.kvMeta.get key <;>
        simp [Store.get, writePut, isDeleted, hm, KvMetadata.newKey, KvMetadata.update]
    · rw [if_neg h]
      exact Store.get_congr (get_insert_ne _ _ (Ne.symm h)) (get_insert_ne _ _ (Ne.symm h))
  metadata k := by
    by_cases h : k = key
    · subst h
      refine Or.inr ?_
      cases hm : s.kvMeta.get k with
      | none => exact ⟨.newKey r leaseId, by simp [writePut, hm], rfl, Or.inl ⟨rfl, rfl⟩⟩
      | some m => exact ⟨m.update r leaseId, by simp [writePut, hm], rfl, Or.inr ⟨m, rfl, rfl⟩⟩
    · refine Or.inl ⟨get_insert_ne _ _ h, ?_⟩
      exact Store.get_congr (get_insert_ne _ _ h) (get_insert_ne _ _ h)

lemma wrote_mark (hs : s.RowsHaveMeta) {key : Bytes} {m : KvMetadata} (hm : s.kvMeta.get key = some m) (r : ℕ) :
    Wrote s { s with kvMeta := s.kvMeta.insert key (m.markDeleted r) } r [⟨key, none⟩] where
  frame := rfl
  rows := by
    intro k hk
    by_cases h : k = key
    · simp [h] at hk
    · exact hs k (by simpa [get_insert, h] using hk)
  get k := by
    rw [overwrite_change]
    by_cases h : key = k
    · subst h
      simp only [if_true, Store.get, isDeleted, get_insert_self, KvMetadata.markDeleted]
      cases s.kv.get key <;> rfl
    · rw [if_neg h]
      exact Store.get_congr rfl (get_insert_ne _ _ (Ne.symm h))
  metadata k := by
    by_cases h : k = key
    · subst h
      exact Or.inr ⟨_, get_insert_self _ _ _, rfl, Or.inr ⟨m, hm, rfl⟩⟩
    · exact Or.inl ⟨get_insert_ne _ _ h, Store.get_congr rfl (get_insert_ne _ _ h)⟩

lemma wrote_absent (hs : s.RowsHaveMeta) {key : Bytes} (hk : s.get key = none) (r : ℕ) :
    Wrote s s r [⟨key, none⟩] where
  frame := rfl
  rows := hs
  get k := by
    rw [overwrite_change]
    by_cases h : key = k
    · subst h
      simpa using hk
    · rw [if_neg h]
  metadata _ := Or.inl ⟨rfl, rfl⟩

lemma Store.RowsHaveMeta.get_of_none (hs : s.RowsHaveMeta) (h : s.kvMeta.get k = none) : s.get k = none := by
  simp [Store.get, hs k h]

lemma Store.get_of_deleted {m : KvMetadata} (h : s.kvMeta.get k = some m)
    (hd : m.deleted = true) : s.get k = none := by
  cases hkv : s.kv.get k <;> simp [Store.get, isDeleted, h, hd, hkv]

lemma wrote_delete (hs : s.RowsHaveMeta) (key : Bytes) (r : ℕ) :
    Wrote s (s.writeDelete key r) r [⟨key, none⟩] := by
  unfold writeDelete
  cases hm : s.kvMeta.get key with
  | none => exact wrote_absent hs (hs.get_of_none hm) r
  | some m =>
    by_cases hd : m.deleted = true
    · simpa [Option.filter, hd] using wrote_absent hs (Store.get_of_deleted hm hd) r
    · simpa [Option.filter, hd] using wrote_mark hs hm r

lemma wrote_txnDelete (hs : s.RowsHaveMeta) (key : Bytes) (r : ℕ) :
    Wrote s (s.writeTxnDelete key r) r [⟨key, none⟩] := by
  unfold writeTxnDelete
  cases hm : s.kvMeta.get key with
  | none => exact wrote_absent hs (hs.get_of_none hm) r
  | some m => exact wrote_mark hs hm r

lemma wrote_deleteKeys (hs : s.RowsHaveMeta) (keys : List Bytes) (r : ℕ) :
    Wrote s (s.deleteKeys keys r) r (keys.map fun k => ⟨k, none⟩) := by
  induction keys generalizing s with
  | nil => exact Wrote.refl hs r
  | cons k keys ih =>
    have h := wrote_delete hs k r
    exact h.trans (ih h.rows)

lemma wrote_ops (hs : s.RowsHaveMeta) (ops : List TxnOp) (r : ℕ) :
    Wrote s (s.executeOps r ops).1 r (s.executeOps r ops).2.2 := by
  induction ops generalizing s with
  | nil => exact Wrote.refl hs r
  | cons op ops ih =>
    cases op with
    | put key value leaseId =>
      have h := wrote_put hs key value (leaseId.getD 0) r
      exact h.trans (ih h.rows)
    | delete key =>
      have h := wrote_txnDelete hs key r
      exact h.trans (ih h.rows)
    | range key rangeEnd limit => exact ih hs

lemma wrote_mutations (hs : s.RowsHaveMeta) (r : ℕ) (ms : List Raft.SequencerMutation) :
    Wrote s (s.applyMutations r ms).1 r (s.applyMutations r ms).2.1 := by
  induction ms generalizing s with
  | nil => exact Wrote.refl hs r
  | cons m ms ih =>
    have h : Wrote s (s.applyMutation r m).1 r (s.applyMutation r m).2.1 := by
      cases m with
      | put key value leaseId => exact wrote_put hs key value _ r
      | delete key => exact wrote_delete hs key r
      | deleteRange start stop => exact wrote_deleteKeys hs _ r
    exact h.trans (ih h.rows)

end Coord.Storage
