import Coord.Lib.Lists

/-!
# Ordered tables

A table is a list of rows in strictly increasing key order: the rows are the order in which an ordered
store iterates, and the order is a field, so a table with a key twice cannot be built.

* `get`, `insert`, `erase`, `filter`, `insertAll` — the operations;
* `get_insert`, `get_erase`, `get_filter` — what a read sees after each of them;
* `mem_rows` — a row is iterated exactly when it is read;
* `ext_get` — two tables that read alike are equal;
* `Grows` — a table that only got new rows.
-/

namespace Coord.Lib

open List

/-- A table: its rows in strictly increasing key order. -/
structure Table (K V : Type) [LinearOrder K] where
  rows : List (K × V)
  sorted : rows.Pairwise (fun a b => a.1 < b.1)

namespace Table

variable {K V W : Type} [LinearOrder K]

instance [DecidableEq V] : DecidableEq (Table K V) := fun s t =>
  decidable_of_iff (s.rows = t.rows) ⟨fun h => by cases s; cases t; cases h; rfl, fun h => h ▸ rfl⟩

def empty : Table K V := ⟨[], List.Pairwise.nil⟩

instance : Inhabited (Table K V) := ⟨empty⟩

/-- The value stored under `k`. -/
def get (t : Table K V) (k : K) : Option V := (t.rows.find? (fun r => decide (r.1 = k))).map Prod.snd

/-- Whether a row is stored under `k`. -/
def has (t : Table K V) (k : K) : Bool := (t.get k).isSome

/-- The rows that satisfy `p`. -/
def filter (t : Table K V) (p : K × V → Bool) : Table K V := ⟨t.rows.filter p, t.sorted.filter _⟩

/-- The table without the row of `k`. -/
def erase (t : Table K V) (k : K) : Table K V := t.filter (fun r => decide (r.1 ≠ k))

/-- The table with `v` stored under `k`, whatever was stored there. -/
def insert (t : Table K V) (k : K) (v : V) : Table K V where
  rows := t.rows.filter (fun r => decide (r.1 < k)) ++ (k, v) :: t.rows.filter (fun r => decide (k < r.1))
  sorted := by
    refine List.pairwise_append.2 ⟨t.sorted.filter _, ?_, ?_⟩
    · refine List.pairwise_cons.2 ⟨?_, t.sorted.filter _⟩
      intro r hr
      simpa using (List.mem_filter.1 hr).2
    · intro a ha b hb
      have hak : a.1 < k := by simpa using (List.mem_filter.1 ha).2
      rcases List.mem_cons.1 hb with rfl | hb
      · exact hak
      · exact hak.trans (by simpa using (List.mem_filter.1 hb).2)

def mapVal (t : Table K V) (f : V → W) : Table K W where
  rows := t.rows.map fun r => (r.1, f r.2)
  sorted := List.pairwise_map.2 t.sorted

/-- The rows of `l` inserted one after the other. -/
def insertAll (t : Table K V) (l : List (K × V)) : Table K V := l.foldl (fun t r => t.insert r.1 r.2) t

def keys (t : Table K V) : List K := t.rows.map Prod.fst

/-! ### Rows and reads -/

variable {t u : Table K V} {k j : K} {v : V} {p : K × V → Bool} {R : V → V → Prop}

theorem mem_rows : (k, v) ∈ t.rows ↔ t.get k = some v := by
  obtain ⟨l, hl⟩ := t
  simp only [get]
  induction l with
  | nil => simp
  | cons r l ih =>
    obtain ⟨hr, hl'⟩ := pairwise_cons.1 hl
    by_cases h : r.1 = k
    · -- the head is the row of `k`, and no later row has its key
      subst h
      simp only [find?_cons, decide_true, Option.map_some, Option.some.injEq, mem_cons]
      constructor
      · rintro (h | h)
        · rw [← h]
        · exact absurd (hr _ h) (lt_irrefl _)
      · rintro rfl
        exact Or.inl rfl
    · have hne : (k, v) ≠ r := fun e => h (by rw [← e])
      simp only [find?_cons, decide_eq_false h, mem_cons, hne, false_or]
      exact ih hl'

lemma get_eq_none : t.get k = none ↔ ∀ v, (k, v) ∉ t.rows := by
  constructor
  · intro h v hv
    rw [mem_rows.1 hv] at h
    cases h
  · intro h
    cases hg : t.get k with
    | none => rfl
    | some v => exact absurd (mem_rows.2 hg) (h v)

/-- **Extensionality.**  Tables that read alike are equal. -/
theorem ext_get {s : Table K V} (h : ∀ k, s.get k = t.get k) : s = t := by
  have hmem : ∀ r, r ∈ s.rows ↔ r ∈ t.rows := fun r => by rw [mem_rows, mem_rows, h]
  have hrows : s.rows = t.rows := eq_of_mem_iff s.sorted t.sorted hmem
  cases s
  cases t
  cases hrows
  rfl

/-! ### Reads after the operations -/

@[simp] lemma get_empty (k : K) : (empty : Table K V).get k = none := rfl

@[simp] lemma rows_empty : (empty : Table K V).rows = [] := rfl

lemma mem_insert {r : K × V} : r ∈ (t.insert k v).rows ↔ r = (k, v) ∨ (r ∈ t.rows ∧ r.1 ≠ k) := by
  simp only [insert, mem_append, mem_cons, List.mem_filter, decide_eq_true_eq]
  constructor
  · rintro (⟨h, hlt⟩ | h | ⟨h, hlt⟩)
    · exact Or.inr ⟨h, hlt.ne⟩
    · exact Or.inl h
    · exact Or.inr ⟨h, hlt.ne'⟩
  · rintro (h | ⟨h, hne⟩)
    · exact Or.inr (Or.inl h)
    · rcases lt_or_gt_of_ne hne with hlt | hlt
      · exact Or.inl ⟨h, hlt⟩
      · exact Or.inr (Or.inr ⟨h, hlt⟩)

lemma rows_insert_last (v : V) (h : ∀ r ∈ t.rows, r.1 < k) : (t.insert k v).rows = t.rows ++ [(k, v)] := by
  have hlt : t.rows.filter (fun r => decide (r.1 < k)) = t.rows :=
    filter_eq_self.2 fun r hr => by simpa using h r hr
  have hgt : t.rows.filter (fun r => decide (k < r.1)) = [] :=
    filter_eq_nil_iff.2 fun r hr => by simpa using (h r hr).le
  simp [insert, hlt, hgt]

theorem get_insert (t : Table K V) (k : K) (v : V) (j : K) :
    (t.insert k v).get j = if j = k then some v else t.get j := by
  refine Option.ext fun w => ?_
  rw [← mem_rows, mem_insert]
  split
  · next h => subst h; simp [eq_comm]
  · next h => simp [h, mem_rows]

@[simp] lemma get_insert_self (t : Table K V) (k : K) (v : V) : (t.insert k v).get k = some v := by
  rw [get_insert, if_pos rfl]

lemma get_insert_ne (t : Table K V) (v : V) (h : j ≠ k) : (t.insert k v).get j = t.get j := by
  rw [get_insert, if_neg h]

lemma get_insert_cases {w : V} (h : (t.insert k v).get j = some w) : j = k ∧ w = v ∨ j ≠ k ∧ t.get j = some w := by
  rw [get_insert] at h
  split at h
  · next hj => exact .inl ⟨hj, (Option.some.inj h).symm⟩
  · next hj => exact .inr ⟨hj, h⟩

lemma mem_filter {r : K × V} : r ∈ (t.filter p).rows ↔ r ∈ t.rows ∧ p r = true := List.mem_filter

theorem get_filter (t : Table K V) (p : K × V → Bool) (k : K) :
    (t.filter p).get k = (t.get k).filter (fun v => p (k, v)) := by
  refine Option.ext fun v => ?_
  rw [← mem_rows, mem_filter, mem_rows]
  simp [Option.filter_eq_some_iff]

lemma eq_filter {p : K → Bool} (h : ∀ k, u.get k = if p k then t.get k else none) :
    u = t.filter fun r => p r.1 := by
  refine ext_get fun k => ?_
  rw [h, get_filter]
  cases hp : p k <;> cases t.get k <;> simp [hp, Option.filter]

theorem get_erase (t : Table K V) (k j : K) : (t.erase k).get j = if j = k then none else t.get j := by
  unfold erase
  rw [get_filter]
  split
  · next h => subst h; cases t.get j <;> simp
  · next h => cases t.get j <;> simp [h]

lemma get_foldl_erase (t : Table K V) (keys : List K) (j : K) :
    (keys.foldl (fun t k => t.erase k) t).get j = if j ∈ keys then none else t.get j := by
  induction keys generalizing t with
  | nil => rfl
  | cons k keys ih =>
    rw [foldl_cons, ih, get_erase]
    by_cases hk : j = k <;> by_cases hmem : j ∈ keys <;> simp [hk, hmem]

/-- The rows of an initial stretch of the keys, and the others. -/
lemma filter_append_filter_not (t : Table K V) {p : K → Bool} (hp : ∀ a b, a < b → p b = true → p a = true) :
    (t.rows.filter fun r => p r.1) ++ (t.rows.filter fun r => !p r.1) = t.rows := by
  obtain ⟨l, hl⟩ := t
  induction l with
  | nil => rfl
  | cons a l ih =>
    obtain ⟨ha, hl⟩ := pairwise_cons.1 hl
    cases hpa : p a.1 with
    | true => simpa [hpa] using ih hl
    | false =>
      have hnil : (l.filter fun r => p r.1) = [] :=
        filter_eq_nil_iff.2 fun r hr h => by simp [hp _ _ (ha r hr) h] at hpa
      have hrest := ih hl
      simp only [hnil, nil_append] at hrest
      simp [hpa, hnil, hrest]

lemma get_mapVal (t : Table K V) (f : V → W) (k : K) : (t.mapVal f).get k = (t.get k).map f := by
  simp only [get, mapVal, find?_map, Option.map_map]
  rfl

lemma has_iff : t.has k = true ↔ ∃ v, t.get k = some v := by
  unfold has
  rw [Option.isSome_iff_exists]

lemma get_insertAll_of_not_mem {l : List (K × V)} (h : ∀ r ∈ l, r.1 ≠ k) : (t.insertAll l).get k = t.get k := by
  induction l generalizing t with
  | nil => rfl
  | cons r l ih =>
    have hr := h r mem_cons_self
    exact (ih fun r hr => h r (mem_cons_of_mem _ hr)).trans (get_insert_ne t r.2 hr.symm)

lemma get_insertAll_of_mem {l : List (K × V)} (hm : ∃ r ∈ l, r.1 = k)
    (h : ∀ r ∈ l, r.1 = k → r.2 = v) : (t.insertAll l).get k = some v := by
  induction l generalizing t with
  | nil => simp at hm
  | cons r l ih =>
    have hl : ∀ r ∈ l, r.1 = k → r.2 = v := fun r hr => h r (mem_cons_of_mem _ hr)
    by_cases hmem : ∃ r ∈ l, r.1 = k
    · exact ih hmem hl
    have hne : ∀ r ∈ l, r.1 ≠ k := fun r hr hk => hmem ⟨r, hr, hk⟩
    obtain ⟨r', hr', hk⟩ := hm
    obtain rfl : r' = r := (mem_cons.1 hr').resolve_right fun hr' => hne r' hr' hk
    have hv : r'.2 = v := h r' mem_cons_self hk
    refine (get_insertAll_of_not_mem (t := t.insert r'.1 r'.2) hne).trans ?_
    rw [← hk, ← hv, get_insert_self]

lemma exists_get_insert {a : V} (h : t.get j = some a) (k : K) (v : V) : ∃ b, (t.insert k v).get j = some b := by
  by_cases hj : j = k
  · exact ⟨v, by rw [hj, get_insert_self]⟩
  · exact ⟨a, by rw [get_insert_ne _ _ hj, h]⟩

lemma has_insert (k : K) (v : V) (h : t.has j = true) : (t.insert k v).has j = true := by
  obtain ⟨a, ha⟩ := has_iff.1 h
  exact has_iff.2 (exists_get_insert ha k v)

lemma nodup_keys (t : Table K V) : t.keys.Nodup :=
  List.Pairwise.map _ (fun _ _ h => ne_of_lt h) t.sorted

lemma insertAll_rows (t : Table K V) : (empty : Table K V).insertAll t.rows = t := by
  refine ext_get fun k => ?_
  cases h : t.get k with
  | none => exact get_insertAll_of_not_mem fun r hr hk => get_eq_none.1 h r.2 (hk ▸ hr)
  | some v =>
    refine get_insertAll_of_mem ⟨(k, v), mem_rows.2 h, rfl⟩ ?_
    rintro r hr rfl
    exact Option.some.inj ((mem_rows.1 hr).symm.trans h)

/-! ### Growth -/

/-- `t'` has the rows of `t`, and every other row of it meets `P`. -/
structure Grows (P : K → V → Prop) (t t' : Table K V) : Prop where
  keeps : ∀ k v, t.get k = some v → t'.get k = some v
  added : ∀ k v, t'.get k = some v → t.get k = some v ∨ P k v

lemma Grows.refl (P : K → V → Prop) (t : Table K V) : Grows P t t := ⟨fun _ _ h => h, fun _ _ h => .inl h⟩

lemma Grows.trans {P : K → V → Prop} {w : Table K V} (h : Grows P t u) (h' : Grows P u w) : Grows P t w where
  keeps k v hk := h'.keeps k v (h.keeps k v hk)
  added k v hk := (h'.added k v hk).elim (fun hu => h.added k v hu) .inr

lemma Grows.mono {P Q : K → V → Prop} {t t' : Table K V} (h : Grows P t t') (hPQ : ∀ k v, P k v → Q k v) :
    Grows Q t t' := ⟨h.keeps, fun k v hk => (h.added k v hk).imp id (hPQ k v)⟩

lemma grows_insert (v : V) (h : t.get k = none) : Grows (fun j w => j = k ∧ w = v) t (t.insert k v) where
  keeps j w hj := by
    rw [get_insert_ne t v fun hjk => by rw [hjk, h] at hj; cases hj]
    exact hj
  added j w hj := by
    exact (get_insert_cases hj).symm.imp_left And.right

/-! ### Changed rows -/

/-- `t'` has the keys of `t`, each with a value that is related to the one in `t`. -/
structure Maps (R : V → V → Prop) (t t' : Table K V) : Prop where
  forth : ∀ k v, t.get k = some v → ∃ v', t'.get k = some v' ∧ R v v'
  back : ∀ k v', t'.get k = some v' → ∃ v, t.get k = some v ∧ R v v'

lemma Maps.refl (hR : ∀ v, R v v) (t : Table K V) : Maps R t t :=
  ⟨fun _ v h => ⟨v, h, hR v⟩, fun _ v h => ⟨v, h, hR v⟩⟩

lemma Maps.trans (hR : ∀ u v w, R u v → R v w → R u w) {w : Table K V} (h : Maps R t u)
    (h' : Maps R u w) : Maps R t w where
  forth k a ha := by
    obtain ⟨b, hb, hab⟩ := h.forth k a ha
    obtain ⟨c, hc, hbc⟩ := h'.forth k b hb
    exact ⟨c, hc, hR a b c hab hbc⟩
  back k c hc := by
    obtain ⟨b, hb, hbc⟩ := h'.back k c hc
    obtain ⟨a, ha, hab⟩ := h.back k b hb
    exact ⟨a, ha, hR a b c hab hbc⟩

lemma maps_insert (hR : ∀ v, R v v) {v' : V} (h : t.get k = some v) (hv : R v v') : Maps R t (t.insert k v') where
  forth j w hj := by
    by_cases hjk : j = k
    · subst hjk
      cases h.symm.trans hj
      exact ⟨v', get_insert_self t j v', hv⟩
    · exact ⟨w, by rw [get_insert_ne t v' hjk, hj], hR w⟩
  back j w hj := by
    rcases get_insert_cases hj with ⟨rfl, rfl⟩ | ⟨-, hj⟩
    · exact ⟨v, h, hv⟩
    · exact ⟨w, hj, hR w⟩

/-- A replaced row is where the old one was. -/
lemma rows_insert_of_get (h : t.get k = some v) (v' : V) :
    (t.insert k v').rows = t.rows.map fun r => if r.1 = k then (k, v') else r := by
  have hfst : ∀ r : K × V, (if r.1 = k then (k, v') else r).1 = r.1 := fun r => by
    split
    · next hr => exact hr.symm
    · rfl
  refine eq_of_mem_iff (t.insert k v').sorted (pairwise_map.2 (t.sorted.imp fun hab => ?_)) fun r => ?_
  · rw [hfst, hfst]
    exact hab
  · rw [mem_insert, mem_map]
    constructor
    · rintro (rfl | ⟨hr, hne⟩)
      · exact ⟨(k, v), mem_rows.2 h, if_pos rfl⟩
      · exact ⟨r, hr, if_neg hne⟩
    · rintro ⟨r, hr, rfl⟩
      split
      · exact .inl rfl
      · next hne => exact .inr ⟨hr, hne⟩

lemma length_insert (h : t.get k = none) (v : V) : (t.insert k v).rows.length = t.rows.length + 1 := by
  have hall : t.rows.filter (fun r => decide (r.1 ≠ k)) = t.rows :=
    filter_eq_self.2 fun r hr => decide_eq_true fun hk => get_eq_none.1 h r.2 (hk ▸ hr)
  have hsplit := filter_split (p := fun r => r.1 ≠ k) (q := fun r => r.1 < k) (r := fun r => k < r.1) t.sorted
    (fun _ => ne_iff_lt_or_gt) fun _ _ => lt_trans
  have hlen := congrArg List.length (hall.symm.trans hsplit)
  rw [length_append] at hlen
  rw [hlen, insert, length_append, length_cons]
  rfl

lemma countP_insert_of_get {v' : V} (h : t.get k = some v)
    (hp : p (k, v') = p (k, v)) : (t.insert k v').rows.countP p = t.rows.countP p := by
  rw [rows_insert_of_get h, countP_map]
  refine countP_congr fun r hr => ?_
  by_cases hk : r.1 = k
  · have hv : r = (k, v) := Prod.ext hk (Option.some.inj ((mem_rows.1 hr).symm.trans (hk ▸ h)))
    simp [hk, hp, ← hv]
  · simp [hk]

end Table

/-! ### Rows inside a larger state -/

/-- A component of a state that can be read and replaced. -/
structure Slot (S A : Type) where
  get : S → A
  put : S → A → S
  get_put : ∀ s a, get (put s a) = a := by intros; rfl
  put_put : ∀ s a b, put (put s a) b = put s b := by intros; rfl
  put_get : ∀ s, put s (get s) = s := by intros; rfl

namespace Slot

variable {S R K V A : Type} [LinearOrder K]

/-- Inserting the rows of a table that the state holds, one after the other. -/
lemma foldl_insert (slot : Slot S (Table K V)) {ins : S → R → S} {row : K × V → R}
    (hins : ∀ s r, ins s (row r) = slot.put s ((slot.get s).insert r.1 r.2)) (s : S) (l : List (K × V)) :
    (l.map row).foldl ins s = slot.put s ((slot.get s).insertAll l) := by
  induction l generalizing s with
  | nil => exact (slot.put_get s).symm
  | cons r l ih =>
    simp only [map_cons, foldl_cons, hins]
    rw [ih, slot.get_put, slot.put_put]
    rfl

/-- The same for a row that is there at most once. -/
lemma foldl_set (slot : Slot S (Option A)) {ins : S → R → S} {row : A → R}
    (hins : ∀ s a, ins s (row a) = slot.put s (some a)) (s : S) (o : Option A) :
    (o.toList.map row).foldl ins s = slot.put s (o.or (slot.get s)) := by
  cases o with
  | none => exact (slot.put_get s).symm
  | some a => exact hins s a

end Slot

/-! ### Outcomes -/

section

variable {ε α β : Type} {x : Except ε α} {b : β}

lemma bind_eq_ok {f : α → Except ε β} (h : x >>= f = .ok b) : ∃ a, x = .ok a ∧ f a = .ok b := by
  cases x with
  | error err => cases h
  | ok a => exact ⟨a, rfl, h⟩

lemma map_eq_ok {f : α → β} (h : x.map f = .ok b) : ∃ a, x = .ok a ∧ f a = b := by
  cases x with
  | error err => cases h
  | ok a => exact ⟨a, rfl, Except.ok.inj h⟩

end

end Coord.Lib
