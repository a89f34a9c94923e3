import Coord.Lib.Table

/-!
# Rows that only rise

A table whose rows have a rank and are only replaced by rows of a larger one, so that writes may be made again.

* `top`, `Table.raiseBy` — one write;
* `get_raiseAll` — the row of a key is the top of the values written there;
* `foldl_top_replay`, `Table.raiseAll_eq_iff` — a stretch of stamped entries written again from a mark on, over rows as
  earlier points left them, gives the rows of all entries just when every row up to the mark is there.
-/

namespace Coord.Lib

open List

section

variable {V : Type} (rank : V → ℕ)

def rankOf (o : Option V) : ℕ := (o.map rank).getD 0

/-- The value of the larger rank, and at equal ranks the one that is there. -/
def top (o : Option V) (v : V) : Option V := if rankOf rank o < rank v then some v else o

variable {rank}

lemma rank_le_top (o : Option V) (v : V) :
    rankOf rank o ≤ rankOf rank (top rank o v) ∧ rank v ≤ rankOf rank (top rank o v) := by
  unfold top
  split
  · next h => exact ⟨h.le, le_rfl⟩
  · next h => exact ⟨le_rfl, not_lt.1 h⟩

variable {o : Option V} {vs : List V}

lemma mem_of_foldl_top {v : V} (h : vs.foldl (top rank) o = some v) : o = some v ∨ v ∈ vs := by
  induction vs generalizing o with
  | nil => exact .inl h
  | cons a vs ih =>
    rcases ih h with h | h
    · unfold top at h
      split at h
      · cases h
        exact .inr mem_cons_self
      · exact .inl h
    · exact .inr (mem_cons_of_mem _ h)

lemma rank_pos_of_foldl_top (ho : ∀ a, o = some a → 0 < rank a) {v : V}
    (h : vs.foldl (top rank) o = some v) : 0 < rank v := by
  induction vs generalizing o with
  | nil => exact ho v h
  | cons a vs ih =>
    refine ih (fun b hb => ?_) h
    unfold top at hb
    split at hb
    · next hlt =>
      cases hb
      exact Nat.zero_lt_of_lt hlt
    · exact ho b hb

lemma rank_le_foldl_top (o : Option V) (vs : List V) :
    rankOf rank o ≤ rankOf rank (vs.foldl (top rank) o) ∧ ∀ v ∈ vs, rank v ≤ rankOf rank (vs.foldl (top rank) o) := by
  induction vs generalizing o with
  | nil => exact ⟨le_rfl, by simp⟩
  | cons a vs ih =>
    obtain ⟨hold, hvs⟩ := ih (top rank o a)
    have hstep := @rank_le_top V rank o a
    refine ⟨hstep.1.trans hold, fun v hv => ?_⟩
    rcases mem_cons.1 hv with rfl | hv
    · exact hstep.2.trans hold
    · exact hvs v hv

lemma foldl_top_of_le (h : ∀ v ∈ vs, rank v ≤ rankOf rank o) : vs.foldl (top rank) o = o := by
  induction vs with
  | nil => rfl
  | cons a vs ih =>
    have ha : top rank o a = o := if_neg (not_lt.2 (h a mem_cons_self))
    rw [foldl_cons, ha]
    exact ih fun v hv => h v (mem_cons_of_mem _ hv)

lemma rankOf_foldl_le {m : ℕ} (h : ∀ v ∈ vs, rank v ≤ m) : rankOf rank (vs.foldl (top rank) none) ≤ m := by
  cases hv : vs.foldl (top rank) none with
  | none => exact Nat.zero_le m
  | some v =>
    rcases mem_of_foldl_top hv with h' | hmem
    · cases h'
    · exact h v hmem

/-- The values above `m` taken again, over what some initial stretch of all values left. -/
theorem foldl_top_replay {p q old new : List V} {m : ℕ} (h : p ++ q = old ++ new) (hold : ∀ v ∈ old, rank v ≤ m)
    (hnew : ∀ v ∈ new, m < rank v) :
    new.foldl (top rank) (p.foldl (top rank) none) = (old ++ new).foldl (top rank) none ↔
      ∀ v, (old ++ new).foldl (top rank) none = some v → rank v ≤ m → p.foldl (top rank) none = some v := by
  cases new with
  | nil =>
    rw [append_nil] at h ⊢
    refine ⟨fun heq v hv _ => heq.trans hv, fun hkept => ?_⟩
    rw [foldl_nil]
    cases hv : old.foldl (top rank) none with
    | some v =>
      refine hkept v hv ?_
      have := rankOf_foldl_le hold
      rwa [hv] at this
    | none =>
      -- no value at all, as one would have a rank above nothing
      cases hp : p.foldl (top rank) none with
      | none => rfl
      | some v =>
        have hstay : q.foldl (top rank) (some v) = none := by rw [← hp, ← foldl_append, h, hv]
        have hnone : ∀ (q : List V) (v : V), q.foldl (top rank) (some v) ≠ none := by
          intro q
          induction q with
          | nil => simp
          | cons a q ih =>
            intro v
            simp only [foldl_cons, top]
            split <;> exact ih _
        exact absurd hstay (hnone q v)
  | cons a new =>
    -- the row of all values is above the mark, so nothing is asked of the initial stretch
    have hright : ∀ v, (old ++ a :: new).foldl (top rank) none = some v → ¬ rank v ≤ m := by
      intro v hv
      have := (@rank_le_foldl_top V rank none (old ++ a :: new)).2 a (by simp)
      rw [hv] at this
      exact not_le.2 ((hnew a mem_cons_self).trans_le this)
    refine ⟨fun _ v hv hle => absurd hle (hright v hv), fun _ => ?_⟩
    rcases append_eq_append_iff.1 h with ⟨r, hr, -⟩ | ⟨r, rfl, hr⟩
    · -- the first value above the mark replaces whatever was there
      have hp : ∀ v ∈ p, rank v ≤ m := fun v hv => hold v (hr ▸ mem_append_left _ hv)
      have htop : ∀ {o : Option V}, rankOf rank o ≤ m → top rank o a = some a := fun ho =>
        if_pos (ho.trans_lt (hnew a mem_cons_self))
      rw [foldl_append, foldl_cons, foldl_cons, htop (rankOf_foldl_le hp), htop (rankOf_foldl_le hold)]
    · -- the initial stretch goes beyond the mark, and is taken again without effect
      have hagain : r.foldl (top rank) ((old ++ r).foldl (top rank) none) = (old ++ r).foldl (top rank) none :=
        foldl_top_of_le fun v hv => (rank_le_foldl_top none (old ++ r)).2 v (mem_append_right _ hv)
      rw [hr, foldl_append, hagain, ← append_assoc, ← foldl_append]

end

namespace Table

variable {K V : Type} [LinearOrder K] (rank : V → ℕ)

/-- Write a row unless one of at least its rank is there. -/
def raiseBy (t : Table K V) (w : K × V) : Table K V := if rankOf rank (t.get w.1) < rank w.2 then t.insert w.1 w.2
    else t

def raiseAll (t : Table K V) (ws : List (K × V)) : Table K V := ws.foldl (raiseBy rank) t

lemma raiseAll_append (t : Table K V) (ws ws' : List (K × V)) :
    t.raiseAll rank (ws ++ ws') = (t.raiseAll rank ws).raiseAll rank ws' :=
  foldl_append

def valuesAt (k : K) (ws : List (K × V)) : List V := (ws.filter fun w => decide (w.1 = k)).map Prod.snd

variable {rank}

lemma get_raiseBy (t : Table K V) (w : K × V) (k : K) :
    (t.raiseBy rank w).get k = if w.1 = k then top rank (t.get k) w.2 else t.get k := by
  unfold raiseBy top
  by_cases hk : w.1 = k
  · subst hk
    split <;> simp
  · rw [if_neg hk]
    split
    · exact get_insert_ne _ _ (Ne.symm hk)
    · rfl

theorem get_raiseAll (t : Table K V) (ws : List (K × V)) (k : K) :
    (t.raiseAll rank ws).get k = (valuesAt k ws).foldl (top rank) (t.get k) := by
  induction ws generalizing t with
  | nil => rfl
  | cons w ws ih =>
    rw [raiseAll, foldl_cons, ← raiseAll, ih, get_raiseBy]
    by_cases hk : w.1 = k <;> simp [valuesAt, hk]

lemma mem_of_get_raiseAll {ws : List (K × V)} {k : K} {v : V} (h : (empty.raiseAll rank ws).get k = some v) :
    (k, v) ∈ ws := by
  rw [get_raiseAll] at h
  rcases mem_of_foldl_top h with h | h
  · cases h
  · obtain ⟨⟨k', v'⟩, hw, rfl⟩ := mem_map.1 h
    obtain ⟨hw, hk⟩ := List.mem_filter.1 hw
    exact of_decide_eq_true hk ▸ hw

variable (rank) in
/-- **Writing again from a mark.** Every row of `t` is as some initial stretch of the entries left it. Writing the
entries stamped above `m` over it gives the table of all entries just when no row stamped up to `m` is missing. -/
theorem raiseAll_eq_iff {D : Type} (stamp : D → ℕ) (writes : D → List (K × V))
    (hrank : ∀ d, ∀ w ∈ writes d, rank w.2 = stamp d) {old new : List D} {m : ℕ} (hold : ∀ d ∈ old, stamp d ≤ m)
    (hnew : ∀ d ∈ new, m < stamp d) {t : Table K V}
    (ht : ∀ k, ∃ n, t.get k = (empty.raiseAll rank (((old ++ new).take n).flatMap writes)).get k) :
    t.raiseAll rank (new.flatMap writes) = empty.raiseAll rank ((old ++ new).flatMap writes) ↔
      ∀ k v, (empty.raiseAll rank ((old ++ new).flatMap writes)).get k = some v → rank v ≤ m → t.get k = some v := by
  have hstamp : ∀ {k v} {ds : List D}, v ∈ valuesAt k (ds.flatMap writes) → ∃ d ∈ ds, rank v = stamp d := by
    intro k v ds hv
    obtain ⟨w, hw, rfl⟩ := mem_map.1 hv
    obtain ⟨d, hd, hw⟩ := List.mem_flatMap.1 (List.mem_filter.1 hw).1
    exact ⟨d, hd, hrank d w hw⟩
  have happend : ∀ (k) (ds es : List D),
      valuesAt k ((ds ++ es).flatMap writes) = valuesAt k (ds.flatMap writes) ++ valuesAt k (es.flatMap writes) := by
    intro k ds es
    simp [valuesAt]
  have hrow : ∀ k, (t.raiseAll rank (new.flatMap writes)).get k = (empty.raiseAll rank ((old ++ new).flatMap
    writes)).get k ↔
      ∀ v, (empty.raiseAll rank ((old ++ new).flatMap writes)).get k = some v → rank v ≤ m → t.get k = some v := by
    intro k
    obtain ⟨n, hn⟩ := ht k
    simp only [hn, get_raiseAll, get_empty, happend k old new]
    refine foldl_top_replay (q := valuesAt k (((old ++ new).drop n).flatMap writes)) ?_ ?_ ?_
    · rw [← happend, take_append_drop, happend]
    · intro v hv
      obtain ⟨d, hd, he⟩ := hstamp hv
      exact he.trans_le (hold d hd)
    · intro v hv
      obtain ⟨d, hd, he⟩ := hstamp hv
      exact (hnew d hd).trans_eq he.symm
  constructor
  · intro heq k
    exact (hrow k).1 (by rw [heq])
  · intro hkept
    exact ext_get fun k => (hrow k).2 (hkept k)

end Table

end Coord.Lib
