import Coord.Storage.KvRows
import Coord.Storage.KvRuns

/-!
# The operations of a transaction

A transaction has its own put and delete. Its put is the one of the top level; its delete marks a key that is deleted
already once more, where the delete of the top level leaves it alone.

Its conditions look at the value rows as they are stored, also where a barrier encrypts them.

reads.
-/

namespace Coord.Storage

open Coord.Lib (Table)
open Option
open Store

/-! ### Rows -/

def txnDeleteRow (r : ℕ) (row : KeyRow) : KeyRow := (row.1, row.2.map fun m => m.markDeleted r)

/-- The row of `k` after an operation at `r`, with the delete as it is in a transaction or at the top level. -/
def opRow (delete : ℕ → KeyRow → KeyRow) (r : ℕ) (k : Bytes) (row : KeyRow) : TxnOp → KeyRow
  | .put key value leaseId => if k = key then putRow value (leaseId.getD 0) r row else row
  | .delete key => if k = key then delete r row else row
  | .range .. => row

lemma row_writeTxnDelete (s : Store) (r : ℕ) (k key : Bytes) :
    (s.writeTxnDelete key r).row k = if k = key then txnDeleteRow r (s.row k) else s.row k := by
  unfold writeTxnDelete
  by_cases hk : k = key
  · subst hk
    cases hm : s.kvMeta.get k <;> simp [Store.row, txnDeleteRow, hm]
  · cases hm : s.kvMeta.get key <;> simp [Store.row, hk, Table.get_insert_ne _ _ hk]

theorem row_executeOps (s : Store) (r : ℕ) (k : Bytes) (ops : List TxnOp) :
    (s.executeOps r ops).1.row k = ops.foldl (opRow txnDeleteRow r k) (s.row k) := by
  induction ops generalizing s with
  | nil => rfl
  | cons op ops ih =>
    have hop : (s.executeOp r op).1.row k = opRow txnDeleteRow r k (s.row k) op := by
      cases op with
      | put key value leaseId => exact row_writePut s r k key value _
      | delete key => exact row_writeTxnDelete s r k key
      | range key rangeEnd limit => rfl
    rw [List.foldl_cons, ← hop, ← ih]
    rfl

/-! ### One by one -/

namespace Store

def topLevel (mode : RevisionMode) (r : ℕ) (applied : AppliedLogId) (s : Store) : TxnOp → Store
  | .put key value leaseId => (settle s (s.putAtKey mode key value leaseId r applied .logIndex)).1
  | .delete key => (settle s (s.deleteAtKey mode key r applied .logIndex)).1
  | .range .. => s

/-- The operations as commands of their own at `r`, each on the rows the others left, in a store whose changelog and
revision are those the transaction finds. -/
def oneByOne (mode : RevisionMode) (r : ℕ) (applied : AppliedLogId) (s : Store) (ops : List TxnOp) : Store :=
  ops.foldl (fun t op => topLevel mode r applied { s with kv := t.kv, kvMeta := t.kvMeta } op) s

end Store

section

variable {mode : RevisionMode} {s s₁ : Store} {r : ℕ} {applied : AppliedLogId}

lemma acceptRevision_rows (hacc : s.acceptRevision mode r .logIndex = .ok s₁) :
    ∃ row, ∀ kv kvMeta, { s with kv := kv, kvMeta := kvMeta }.acceptRevision mode r .logIndex =
      .ok { s with kv := kv, kvMeta := kvMeta, currentRevisionRow := row } := by
  cases mode with
  | commitTs => exact ⟨s.currentRevisionRow, fun _ _ => rfl⟩
  | logIndex =>
    simp only [acceptRevision, acceptLogIndexRevision] at hacc ⊢
    split at hacc
    · cases hacc
    · next hle => exact ⟨some r, fun _ _ => if_neg hle⟩

lemma row_topLevel (hnew : s.changelog.has r = false) (hacc : s.acceptRevision mode r .logIndex = .ok s₁) (k : Bytes)
    (t : Store) (op : TxnOp) : (Store.topLevel mode r applied { s with kv := t.kv, kvMeta := t.kvMeta } op).row k =
      opRow deleteRow r k (t.row k) op := by
  obtain ⟨row, hacc'⟩ := acceptRevision_rows hacc
  cases op with
  | put key value leaseId =>
    simp only [Store.topLevel, putAtKey, replayGuard, hnew, Bool.false_eq_true, if_false, hacc', settle]
    exact row_writePut { s with kv := t.kv, kvMeta := t.kvMeta, currentRevisionRow := row } r k key value _
  | delete key =>
    simp only [Store.topLevel, deleteAtKey, replayGuard, hnew, Bool.false_eq_true, if_false, hacc', settle]
    exact row_writeDelete { s with kv := t.kv, kvMeta := t.kvMeta, currentRevisionRow := row } r k key
  | range key rangeEnd limit => rfl

lemma row_oneByOne (hnew : s.changelog.has r = false) (hacc : s.acceptRevision mode r .logIndex = .ok s₁) (k : Bytes)
    (ops : List TxnOp) : (s.oneByOne mode r applied ops).row k = ops.foldl (opRow deleteRow r k) (s.row k) := by
  have hfold : ∀ t : Store, (ops.foldl (fun t op =>
      Store.topLevel mode r applied { s with kv := t.kv, kvMeta := t.kvMeta } op) t).row k =
      ops.foldl (opRow deleteRow r k) (t.row k) := by
    induction ops with
    | nil => exact fun _ => rfl
    | cons op ops ih =>
      intro t
      rw [List.foldl_cons, List.foldl_cons, ih, row_topLevel hnew hacc]
  exact hfold s

end

/-! ### Deletes of keys deleted already -/

/-- How many of the operations delete `k` when it is deleted already. -/
def deadDeletes (r : ℕ) (k : Bytes) : KeyRow → List TxnOp → ℕ
  | _, [] => 0
  | row, op :: ops => (if op = .delete k ∧ (row.2.any fun m => m.deleted) = true then 1 else 0) +
      deadDeletes r k (opRow txnDeleteRow r k row op) ops

/-- `a` is `b`, or `b` with a version that is ahead by `n` and another modification revision. -/
structure Behind (n : ℕ) (b a : KeyRow) : Prop where
  same : n = 0 → a = b
  value : a.1 = b.1
  absent : b.2 = none → a.2 = none ∧ n = 0
  version : ∀ m, b.2 = some m → ∃ m', a.2 = some m' ∧ m'.deleted = m.deleted ∧ m'.version = m.version + n ∧
    m'.createRevision = m.createRevision ∧ m'.leaseId = m.leaseId

lemma Behind.refl (row : KeyRow) : Behind 0 row row :=
  ⟨fun _ => rfl, rfl, fun h => ⟨h, rfl⟩, fun m h => ⟨m, h, rfl, by simp, rfl, rfl⟩⟩

lemma Behind.eq_iff {n : ℕ} {a b : KeyRow} (h : Behind n b a) : a = b ↔ n = 0 := by
  refine ⟨?_, h.same⟩
  rintro rfl
  cases hm : a.2 with
  | none => exact (h.absent hm).2
  | some m =>
    obtain ⟨m', hm', -, hv, -⟩ := h.version m hm
    obtain rfl : m = m' := Option.some.inj (hm.symm.trans hm')
    omega

section

variable {r : ℕ} {k : Bytes} {n : ℕ} {a b : KeyRow}

lemma Behind.put (h : Behind n b a) (value : Bytes) (leaseId : ℤ) :
    Behind n (putRow value leaseId r b) (putRow value leaseId r a) := by
  refine ⟨fun hn => by rw [h.same hn], rfl, fun hb => (by cases hb), fun m hm => ?_⟩
  cases hb : b.2 with
  | none =>
    obtain ⟨ha, rfl⟩ := h.absent hb
    rw [h.same rfl]
    exact ⟨m, hm, rfl, by simp, rfl, rfl⟩
  | some m₀ =>
    obtain ⟨m₁, ha, -, hv, hc, -⟩ := h.version m₀ hb
    simp only [putRow, hb, map_some, getD_some, Option.some.injEq] at hm
    subst hm
    refine ⟨m₁.update r leaseId, by simp [putRow, ha], rfl, ?_, hc, rfl⟩
    simp only [KvMetadata.update, hv]
    omega

lemma Behind.delete (h : Behind n b a) :
    Behind (n + if (a.2.any fun m => m.deleted) = true then 1 else 0) (deleteRow r b) (txnDeleteRow r a) := by
  cases hb : b.2 with
  | none =>
    obtain ⟨ha, rfl⟩ := h.absent hb
    obtain rfl := h.same rfl
    simpa [ha, deleteRow, txnDeleteRow] using Behind.refl (a.1, none)
  | some m =>
    obtain ⟨m', ha, hd, hv, hc, hl⟩ := h.version m hb
    simp only [ha, any_some, deleteRow, txnDeleteRow, hb, map_some]
    cases hdel : m.deleted with
    | false =>
      rw [hdel] at hd
      simp only [hd, Bool.false_eq_true, if_false, Nat.add_zero]
      refine ⟨fun hn => ?_, h.value, fun h => (by cases h), ?_⟩
      · rw [h.same hn, hb] at ha
        rw [h.value, Option.some.inj ha]
      · rintro _ ⟨⟩
        exact ⟨_, rfl, rfl, by simp only [KvMetadata.markDeleted, hv]; omega, hc, hl⟩
    | true =>
      rw [hdel] at hd
      simp only [hd, if_true]
      refine ⟨fun hn => by omega, h.value, fun h => (by cases h), ?_⟩
      rintro _ ⟨⟩
      exact ⟨_, rfl, hdel.symm, by simp only [KvMetadata.markDeleted, hv]; push_cast; omega, hc, hl⟩

/-- **The version is ahead** by the deletes of `k` when it was deleted already. -/
theorem behind_ops (h : Behind n b a) (ops : List TxnOp) :
    Behind (n + deadDeletes r k a ops) (ops.foldl (opRow deleteRow r k) b) (ops.foldl (opRow txnDeleteRow r k) a) := by
  induction ops generalizing n a b with
  | nil => exact h
  | cons op ops ih =>
    simp only [List.foldl_cons, deadDeletes, ← Nat.add_assoc]
    refine ih ?_
    cases op with
    | put key value leaseId =>
      simp only [opRow, reduceCtorEq, false_and, if_false, Nat.add_zero]
      split
      · exact h.put value _
      · exact h
    | delete key =>
      by_cases hk : key = k
      · subst hk
        simpa [opRow] using h.delete
      · simpa [opRow, hk, Ne.symm hk] using h
    | range key rangeEnd limit => simpa [opRow] using h

end

/-! ### The theorem -/

/-- **A transaction and its operations one by one.** The rows are the same just when no operation deletes a key that is
deleted already. -/
theorem executeTxn_row_iff {mode : RevisionMode} {s s' : Store} {compares : List TxnCompare}
    {successOps failureOps : List TxnOp} {r : ℕ} {applied : AppliedLogId} {o : TxnResult}
    (hnew : s.changelog.has r = false)
    (h : s.executeTxnAtRevision mode compares successOps failureOps r applied = .ok (s', o)) :
    let ops := if s.evaluateCompares compares then successOps else failureOps
    (∀ k, s'.row k = (s.oneByOne mode r applied ops).row k) ↔ ∀ k, deadDeletes r k (s.row k) ops = 0 := by
  intro ops
  simp only [executeTxnAtRevision, hnew, Bool.false_eq_true, if_false] at h
  split at h
  · cases h
  next s₁ hacc =>
  cases h
  obtain ⟨row, hacc'⟩ := acceptRevision_rows hacc
  obtain rfl : s₁ = { s with currentRevisionRow := row } := Except.ok.inj (hacc.symm.trans (hacc' s.kv s.kvMeta))
  refine forall_congr' fun k => ?_
  have hrow : (executeOps { s with currentRevisionRow := row } r ops).1.row k =
      ops.foldl (opRow txnDeleteRow r k) (s.row k) := row_executeOps _ r k ops
  rw [row_oneByOne hnew hacc]
  have := (behind_ops (r := r) (k := k) (Behind.refl (s.row k)) ops).eq_iff
  rw [Nat.zero_add] at this
  rw [← this, ← hrow]
  rfl

def deletedKey : Store :=
  Lib.exec (kvStep (fun _ => 0) .logIndex) Store.empty [⟨⟨1, 1, 1⟩, .put [1] [10] none⟩, ⟨⟨1, 1, 2⟩, .delete [1]⟩]

theorem executeTxn_rows_reput :
    let ops : List TxnOp := [.put [1] [11] none, .delete [1]]
    ∃ s' o, deletedKey.executeTxnAtRevision .logIndex [] ops [] 3 ⟨1, 1, 3⟩ = .ok (s', o) ∧
      ∀ k, s'.row k = (deletedKey.oneByOne .logIndex 3 ⟨1, 1, 3⟩ ops).row k := by
  intro ops
  obtain ⟨s', o, h⟩ : ∃ s' o, deletedKey.executeTxnAtRevision .logIndex [] ops [] 3 ⟨1, 1, 3⟩ = .ok (s', o) :=
    ⟨_, _, rfl⟩
  refine ⟨s', o, h, (executeTxn_row_iff (by decide +kernel) h).2 fun k => ?_⟩
  by_cases hk : k = [1]
  · subst hk
    decide +kernel
  · simp [ops, evaluateCompares, deadDeletes, opRow, hk, Ne.symm hk]

/-- **A transaction deletes a deleted key again**: the version and the modification revision move, where the delete of
the top level leaves them. -/
theorem executeTxn_deletes_twice :
    ∃ s' o, deletedKey.executeTxnAtRevision .logIndex [] [.delete [1]] [] 3 ⟨1, 1, 3⟩ = .ok (s', o) ∧
      s'.row [1] = (some [10], some ⟨3, 1, 3, 0, true⟩) ∧
      (deletedKey.oneByOne .logIndex 3 ⟨1, 1, 3⟩ [.delete [1]]).row [1] = (some [10], some ⟨2, 1, 2, 0, true⟩) :=
  ⟨_, _, rfl, by decide +kernel, by decide +kernel⟩

/-! ### Conditions on values -/

/-- The storage barrier: with whatever nonce it encrypts, it decrypts again. -/
structure Barrier where
  encrypt (nonce value : Bytes) : Bytes
  decrypt : Bytes → Option Bytes
  decrypt_encrypt : ∀ nonce value, decrypt (encrypt nonce value) = some value

def encryptValue (barrier : Option Barrier) (nonce value : Bytes) : Bytes :=
  (barrier.map fun b => b.encrypt nonce value).getD value

/-- A row of less than 32 bytes is a plaintext from before the barrier. -/
def decryptValue (barrier : Option Barrier) (data : Bytes) : Option Bytes :=
  match barrier with
  | some b => if 32 ≤ data.length then b.decrypt data else some data
  | none => some data

/-- The read of a key, with `none` for a row that does not decrypt. -/
def Store.getDecrypted (barrier : Option Barrier) (s : Store) (key : Bytes) : Option (Option Bytes) :=
  match s.get key with
  | none => some none
  | some data => if data = [] then some (some []) else (decryptValue barrier data).map some

/-- The row of the key is stored as it reads: there is no live one, no barrier, or the barrier gives it back as it is.
-/
def StoredPlain (barrier : Option Barrier) (s : Store) (key : Bytes) : Prop :=
  ∀ b ∈ barrier, ∀ data ∈ s.get key, data.length < 32 ∨ b.decrypt data = some data

/-- **Conditions on the value of a key** give the answer that comparing the value of a read gives, whatever the
operand and the comparison, just when its row is stored as it reads. -/
theorem value_compare_iff (barrier : Option Barrier) (s : Store) (key : Bytes) :
    (∀ op operand, ∃ v, s.getDecrypted barrier key = some v ∧ s.evaluateCompare ⟨key, .value, op, .value operand⟩ =
      CompareValue.compare (.value (v.getD [])) (.value operand) op) ↔ StoredPlain barrier s key := by
  cases hget : s.get key with
  | none => simp [Store.getDecrypted, evaluateCompare, StoredPlain, hget]
  | some data =>
    simp only [Store.getDecrypted, evaluateCompare, StoredPlain, hget, getD_some, mem_def,
      Option.some.injEq, forall_eq']
    constructor
    · -- the stored bytes as the operand
      intro h b hb
      obtain ⟨v, hv, heq⟩ := h .equal data
      subst hb
      by_cases hlong : 32 ≤ data.length
      · have hne : data ≠ [] := by rintro rfl; simp at hlong
        simp only [hne, if_false, decryptValue, hlong, if_true, map_eq_some_iff] at hv
        obtain ⟨w, hw, rfl⟩ := hv
        have : w = data := by simpa [CompareValue.compare] using heq
        exact .inr (this ▸ hw)
      · exact .inl (by omega)
    · intro h op operand
      refine ⟨some data, ?_, rfl⟩
      split
      · next hnil => rw [hnil]
      · cases barrier with
        | none => rfl
        | some b =>
          rcases h b rfl with hshort | hdec
          · simp [decryptValue, hshort]
          · simp [decryptValue, hdec]

/-- A barrier that writes 32 bytes of the nonce in front of the value. -/
def prefixBarrier : Barrier where
  encrypt nonce value := List.replicate 32 (nonce.headD 0) ++ value
  decrypt data := some (data.drop 32)
  decrypt_encrypt _ _ := by simp

/-- **A condition on an encrypted value compares the ciphertext**: the value reads back, and is not equal to itself. -/
theorem value_compare_ciphertext :
    let s := Store.empty.writePut [1] (encryptValue (some prefixBarrier) [] [7]) 0 1
    s.getDecrypted (some prefixBarrier) [1] = some (some [7]) ∧
      s.evaluateCompare ⟨[1], .value, .equal, .value [7]⟩ = false ∧
      CompareValue.compare (.value [7]) (.value [7]) .equal = true := by
  decide +kernel

end Coord.Storage
