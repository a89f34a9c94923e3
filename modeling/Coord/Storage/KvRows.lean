import Coord.Storage.Decisions

/-!
# The row of a key

The value and the metadata of a key are its row.  What a write does to it depends on the row alone.

* `row_writePut`, `row_writeDelete`, `row_applyMutations` — the row of a key after each write;
* `Stamped`, `Restamped` — a row written or deleted at a revision.
-/

namespace Coord.Storage

open Coord.Lib (Table)
open Store
open Coord.Raft (SequencerMutation)

abbrev KeyRow := Option Bytes × Option KvMetadata

def Store.row (s : Store) (k : Bytes) : KeyRow := (s.kv.get k, s.kvMeta.get k)

lemma Store.row_congr {s s' : Store} (hkv : s'.kv = s.kv) (hm : s'.kvMeta = s.kvMeta) (k : Bytes) :
    s'.row k = s.row k := by
  rw [Store.row, Store.row, hkv, hm]

/-! ### Writes -/

/-- The row with `value` written at `r`. -/
def putRow (value : Bytes) (leaseId : ℤ) (r : ℕ) (row : KeyRow) : KeyRow :=
  (some value, some ((row.2.map fun m => m.update r leaseId).getD (.newKey r leaseId)))

/-- The row deleted at `r`, if it is live. -/
def deleteRow (r : ℕ) (row : KeyRow) : KeyRow := (row.1, row.2.map fun m => if m.deleted then m else m.markDeleted r)

lemma deleteRow_deleteRow (r : ℕ) (row : KeyRow) : deleteRow r (deleteRow r row) = deleteRow r row := by
  obtain ⟨v, m⟩ := row
  cases m with
  | none => rfl
  | some m => cases h : m.deleted <;> simp [deleteRow, h, KvMetadata.markDeleted]

section

variable (s : Store) (r : ℕ) (k : Bytes)

theorem row_writePut (key value : Bytes) (leaseId : ℤ) :
    (s.writePut key value leaseId r).row k = if k = key then putRow value leaseId r (s.row k) else s.row k := by
  by_cases h : k = key
  · subst h
    cases hm : s.kvMeta.get k <;> simp [Store.row, writePut, putRow, hm]
  · simp [Store.row, writePut, Table.get_insert_ne _ _ h, h]

theorem row_writeDelete (key : Bytes) :
    (s.writeDelete key r).row k = if k = key then deleteRow r (s.row k) else s.row k := by
  cases hm : s.kvMeta.get key with
  | none =>
    have hs : s.writeDelete key r = s := by simp [writeDelete, hm]
    rw [hs]
    split
    · next h => simp [h, Store.row, deleteRow, hm]
    · rfl
  | some m =>
    cases hd : m.deleted with
    | true =>
      have hs : s.writeDelete key r = s := by simp [writeDelete, hm, hd, Option.filter]
      rw [hs]
      split
      · next h => simp [h, Store.row, deleteRow, hm, hd]
      · rfl
    | false =>
      have hs : s.writeDelete key r = { s with kvMeta := s.kvMeta.insert key (m.markDeleted r) } := by
        simp [writeDelete, hm, hd, Option.filter]
      rw [hs]
      split
      · next h => simp [h, Store.row, deleteRow, hm, hd]
      · next h => simp [Store.row, Table.get_insert_ne _ _ h]

lemma row_deleteKeys (keys : List Bytes) :
    (s.deleteKeys keys r).row k = if k ∈ keys then deleteRow r (s.row k) else s.row k := by
  induction keys generalizing s with
  | nil => rfl
  | cons key keys ih =>
    have hstep : (s.deleteKeys (key :: keys) r).row k = ((s.writeDelete key r).deleteKeys keys r).row k := rfl
    rw [hstep, ih, row_writeDelete]
    by_cases hk : k = key <;> by_cases hmem : k ∈ keys <;> simp_all [deleteRow_deleteRow]

lemma mem_liveKeys (p : Bytes → Bool) :
    k ∈ s.liveKeys (s.kv.rows.filter fun row => p row.1) ↔
      p k = true ∧ (s.kv.get k).isSome = true ∧ ∃ m, s.kvMeta.get k = some m ∧ m.deleted = false := by
  have hrow : (∃ v, (k, v) ∈ s.kv.rows) ↔ (s.kv.get k).isSome = true := by
    simp only [Table.mem_rows, Option.isSome_iff_exists]
  have hlive : ((s.kvMeta.get k).filter fun m => !m.deleted).isSome = true ↔
      ∃ m, s.kvMeta.get k = some m ∧ m.deleted = false := by
    rw [Option.isSome_iff_exists]
    simp [Option.filter_eq_some_iff]
  rw [liveKeys, List.mem_filter, hlive, ← hrow, ← and_assoc]
  refine and_congr_left fun _ => ?_
  constructor
  · intro h
    obtain ⟨⟨j, v⟩, hmem, rfl⟩ := List.mem_map.1 h
    obtain ⟨hmem, hp⟩ := List.mem_filter.1 hmem
    exact ⟨hp, v, hmem⟩
  · rintro ⟨hp, v, hmem⟩
    exact List.mem_map.2 ⟨(k, v), List.mem_filter.2 ⟨hmem, hp⟩, rfl⟩

lemma row_deleteLive (p : Bytes → Bool) : (s.deleteKeys (s.liveKeys (s.kv.rows.filter fun row => p row.1)) r).row k =
      if p k = true ∧ (s.row k).1.isSome = true then deleteRow r (s.row k) else s.row k := by
  rw [row_deleteKeys]
  by_cases hp : p k = true ∧ (s.row k).1.isSome = true
  · rw [if_pos hp]
    split
    · rfl
    next hk =>
    -- the key has no metadata, or is deleted already
    rw [mem_liveKeys] at hk
    have hno : ¬ ∃ m, s.kvMeta.get k = some m ∧ m.deleted = false := fun hm => hk ⟨hp.1, hp.2, hm⟩
    cases hm : s.kvMeta.get k with
    | none => simp [Store.row, deleteRow, hm]
    | some m =>
      have hd : m.deleted = true := by
        by_contra hd
        exact hno ⟨m, hm, by simpa using hd⟩
      simp [Store.row, deleteRow, hm, hd]
  · rw [if_neg hp, if_neg]
    intro hk
    obtain ⟨h1, h2, -⟩ := (mem_liveKeys s k p).1 hk
    exact hp ⟨h1, h2⟩

end

/-- The row of `k` after a mutation at `ts`. -/
def mutateRow (ts : ℕ) (k : Bytes) (row : KeyRow) : SequencerMutation → KeyRow
  | .put key value leaseId => if k = key then putRow value (leaseId.getD 0) ts row else row
  | .delete key => if k = key then deleteRow ts row else row
  | .deleteRange start stop => if inRange start stop k = true ∧ row.1.isSome = true then deleteRow ts row else row

lemma row_applyMutation (s : Store) (ts : ℕ) (k : Bytes) (m : SequencerMutation) :
    (s.applyMutation ts m).1.row k = mutateRow ts k (s.row k) m := by
  cases m with
  | put key value leaseId => exact row_writePut s ts k key value _
  | delete key => exact row_writeDelete s ts k key
  | deleteRange start stop => exact row_deleteLive s ts k (inRange start stop)

/-- **The row of a key after a decision** depends on the row before it alone. -/
theorem row_applyMutations (s : Store) (ts : ℕ) (k : Bytes) (ms : List SequencerMutation) :
    (s.applyMutations ts ms).1.row k = ms.foldl (mutateRow ts k) (s.row k) := by
  induction ms generalizing s with
  | nil => rfl
  | cons m ms ih => rw [List.foldl_cons, ← row_applyMutation, ← ih]; rfl

/-! ### Stamps -/

/-- `new` is `old` written or deleted at `r`. -/
def Stamped (r : ℕ) (old new : KeyRow) : Prop :=
  ∃ m, new.2 = some m ∧ m.modRevision = r ∧
    ((old.2 = none ∧ new.1.isSome = true ∧ 0 < m.createRevision ∧ 0 < m.version) ∨
      ∃ m₀, old.2 = some m₀ ∧ m.createRevision = m₀.createRevision ∧ m₀.version < m.version ∧
        (old.1.isSome = true → new.1.isSome = true))

lemma Stamped.trans {r r' : ℕ} {a b c : KeyRow} (h : Stamped r a b) (h' : Stamped r' b c) : Stamped r' a c := by
  obtain ⟨m, hm, -, hold⟩ := h
  obtain ⟨m', hm', hmod, hnew⟩ := h'
  obtain ⟨hcreate, hversion, hvalue⟩ :
      m'.createRevision = m.createRevision ∧ m.version < m'.version ∧ (b.1.isSome = true → c.1.isSome = true) := by
    rcases hnew with ⟨hnone, -⟩ | ⟨m₀, h₀, hrest⟩
    · rw [hm] at hnone
      cases hnone
    · obtain rfl : m = m₀ := Option.some.inj (hm.symm.trans h₀)
      exact hrest
  refine ⟨m', hm', hmod, ?_⟩
  rcases hold with ⟨hnone, hb, hc, hv⟩ | ⟨m₀, h₀, hc, hv, hb⟩
  · exact .inl ⟨hnone, hvalue hb, by omega, by omega⟩
  · exact .inr ⟨m₀, h₀, by omega, by omega, fun ha => hvalue (hb ha)⟩

lemma stamped_putRow {r : ℕ} (hr : 0 < r) (value : Bytes) (leaseId : ℤ) (row : KeyRow) :
    Stamped r row (putRow value leaseId r row) := by
  obtain ⟨v, m⟩ := row
  cases m with
  | none => exact ⟨_, rfl, rfl, .inl ⟨rfl, rfl, hr, Int.one_pos⟩⟩
  | some m => exact ⟨_, rfl, rfl, .inr ⟨m, rfl, rfl, Int.lt_succ m.version, fun _ => rfl⟩⟩

lemma deleteRow_cases (r : ℕ) (row : KeyRow) : deleteRow r row = row ∨ Stamped r row (deleteRow r row) := by
  obtain ⟨v, m⟩ := row
  cases m with
  | none => exact .inl rfl
  | some m =>
    cases hd : m.deleted with
    | true => simp [deleteRow, hd]
    | false =>
      refine .inr ⟨m.markDeleted r, by simp [deleteRow, hd], rfl, .inr ⟨m, rfl, rfl, ?_, fun h => h⟩⟩
      simp only [KvMetadata.markDeleted]
      omega

lemma mutateRow_cases {ts : ℕ} (hts : 0 < ts) (k : Bytes) (row : KeyRow) (m : SequencerMutation) :
    mutateRow ts k row m = row ∨ Stamped ts row (mutateRow ts k row m) := by
  cases m with
  | put key value leaseId =>
    rw [mutateRow]
    split
    · exact .inr (stamped_putRow hts _ _ _)
    · exact .inl rfl
  | delete key =>
    rw [mutateRow]
    split
    · exact deleteRow_cases ts row
    · exact .inl rfl
  | deleteRange start stop =>
    rw [mutateRow]
    split
    · exact deleteRow_cases ts row
    · exact .inl rfl

lemma mutateRows_cases {ts : ℕ} (hts : 0 < ts) (k : Bytes) (row : KeyRow) (ms : List SequencerMutation) :
    ms.foldl (mutateRow ts k) row = row ∨ Stamped ts row (ms.foldl (mutateRow ts k) row) := by
  induction ms generalizing row with
  | nil => exact .inl rfl
  | cons m ms ih =>
    rw [List.foldl_cons]
    rcases mutateRow_cases hts k row m with h | h
    · rw [h]
      exact ih row
    · rcases ih (mutateRow ts k row m) with h' | h'
      · rw [h']
        exact .inr h
      · exact .inr (h.trans h')

/-- The row stays, or is stamped with a revision above `lo` and not above `hi`. -/
def Restamped (lo hi : ℕ) (old new : KeyRow) : Prop := new = old ∨ ∃ r, lo < r ∧ r ≤ hi ∧ Stamped r old new

lemma Restamped.refl (lo hi : ℕ) (row : KeyRow) : Restamped lo hi row row := .inl rfl

lemma Restamped.mono {lo hi hi' : ℕ} {old new : KeyRow} (h : Restamped lo hi old new) (hle : hi ≤ hi') :
    Restamped lo hi' old new := by
  rcases h with h | ⟨r, hlo, hhi, h⟩
  · exact .inl h
  · exact .inr ⟨r, hlo, hhi.trans hle, h⟩

lemma Restamped.trans {lo mid hi : ℕ} {a b c : KeyRow} (h : Restamped lo mid a b) (h' : Restamped mid hi b c)
    (hlo : lo ≤ mid) (hhi : mid ≤ hi) : Restamped lo hi a c := by
  rcases h' with rfl | ⟨r', hlo', hhi', h'⟩
  · exact h.mono hhi
  · rcases h with rfl | ⟨r, -, -, h⟩
    · exact .inr ⟨r', by omega, hhi', h'⟩
    · exact .inr ⟨r', by omega, hhi', h.trans h'⟩

/-- Every row stays, or is stamped above the revision before and not above the revision after. -/
def Restamps (s s' : Store) : Prop :=
  ∀ k, Restamped (s.currentRevision .commitTs) (s'.currentRevision .commitTs) (s.row k) (s'.row k)

lemma restamps_of_rows {s s' : Store} (h : ∀ k, s'.row k = s.row k) : Restamps s s' := fun k => .inl (h k)

end Coord.Storage
