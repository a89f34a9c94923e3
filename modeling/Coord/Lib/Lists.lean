import Mathlib

/-!
# Lists whose entries are changed in place, and sorted lists
-/

namespace Coord.Lib

open List

variable {α : Type} {f : α → α} {l : List α} {i : ℕ} {j : ℕ} {x a : α}

lemma getElem?_modify_cases (h : (l.modify i f)[j]? = some x) :
    (j = i ∧ ∃ a, l[i]? = some a ∧ x = f a) ∨ j ≠ i ∧ l[j]? = some x := by
  rw [getElem?_modify] at h
  obtain ⟨a, ha, rfl⟩ := Option.map_eq_some_iff.1 h
  split
  · next hij => exact .inl ⟨hij.symm, a, hij ▸ ha, rfl⟩
  · next hij => exact .inr ⟨Ne.symm hij, ha⟩

lemma mem_modify (h : x ∈ l.modify i f) : x ∈ l ∨ ∃ a, l[i]? = some a ∧ x = f a := by
  obtain ⟨j, hj⟩ := mem_iff_getElem?.1 h
  exact (getElem?_modify_cases hj).symm.imp (fun h => mem_of_getElem? h.2) And.right

lemma getElem?_modify_of_ne (h : j ≠ i) : (l.modify i f)[j]? = l[j]? := by
  simp [Ne.symm h]

lemma getElem?_set_cases {b : α} (h : (l.set i b)[j]? = some a) : j = i ∧ a = b ∨ j ≠ i ∧ l[j]? = some a := by
  rw [getElem?_set] at h
  split_ifs at h with hij
  · exact .inl ⟨hij.symm, (Option.some.inj h).symm⟩
  · exact .inr ⟨Ne.symm hij, h⟩

lemma getElem?_set_or {c : α} (hi : l[i]? = some a) (hj : l[j]? = some c) :
    (i = j ∧ c = a ∧ ∀ b, (l.set i b)[j]? = some b) ∨ ∀ b, (l.set i b)[j]? = some c := by
  by_cases hij : i = j
  · subst hij
    have hlt : i < l.length := (List.getElem?_eq_some_iff.1 hi).1
    exact .inl ⟨rfl, Option.some.inj (hj.symm.trans hi), fun _ => getElem?_set_self hlt⟩
  · exact .inr fun _ => (getElem?_set_ne hij).trans hj

lemma getElem?_append_some (h : l[i]? = some a) (l' : List α) : (l ++ l')[i]? = some a :=
  (List.getElem?_append_left (List.getElem?_eq_some_iff.1 h).1).trans h

lemma getElem?_append_one (h : (l ++ [x])[i]? = some a) : l[i]? = some a ∨ i = l.length ∧ a = x := by
  rw [getElem?_append] at h
  split at h
  · exact .inl h
  next hge =>
  obtain ⟨hlt, hx⟩ := List.getElem?_eq_some_iff.1 h
  have hi : i = l.length := by simp only [length_singleton] at hlt; omega
  subst hi
  exact .inr ⟨rfl, by simpa using hx.symm⟩

lemma mem_append_one : a ∈ l ++ [x] ↔ a ∈ l ∨ a = x := by simp

lemma forall_mem_append_one {P : α → Prop} (h : ∀ a ∈ l, P a) (hx : P x) : ∀ a ∈ l ++ [x], P a :=
  fun a ha => (mem_append_one.1 ha).elim (h a) fun heq => heq ▸ hx

lemma pairwise_append_one {R : α → α → Prop} (h : l.Pairwise R) (hx : ∀ a ∈ l, R a x) : (l ++ [x]).Pairwise R :=
  pairwise_append.2 ⟨h, pairwise_singleton _ _, fun a ha _ hb => mem_singleton.1 hb ▸ hx a ha⟩

lemma foldl_max_spec (f : α → ℕ) (l : List α) (c : ℕ) :
    let m := l.foldl (fun c x => max c (f x)) c
    c ≤ m ∧ (∀ x ∈ l, f x ≤ m) ∧ (m = c ∨ ∃ x ∈ l, f x = m) := by
  induction l generalizing c with
  | nil => exact ⟨le_rfl, by simp, .inl rfl⟩
  | cons x l ih =>
    obtain ⟨hle, hall, hm⟩ := ih (max c (f x))
    obtain ⟨hc, hx⟩ := max_le_iff.1 hle
    refine ⟨hc, forall_mem_cons.2 ⟨hx, hall⟩, ?_⟩
    rcases hm with hm | ⟨y, hy, hm⟩
    · refine (max_choice c (f x)).imp hm.trans fun hmax => ⟨x, mem_cons_self, (hm.trans hmax).symm⟩
    · exact .inr ⟨y, mem_cons_of_mem _ hy, hm⟩

section

variable {β : Type} [Preorder β] {key : α → β} {l l' : List α}

/-- Lists in strictly increasing order with the same members are equal. -/
lemma eq_of_mem_iff (h : l.Pairwise fun a b => key a < key b) (h' : l'.Pairwise fun a b => key a < key b)
    (hmem : ∀ a, a ∈ l ↔ a ∈ l') : l = l' := by
  have hanti : Std.Antisymm fun a b => key a < key b := ⟨fun a b hab hba => absurd hba hab.asymm⟩
  have hirrefl : Std.Irrefl fun a b => key a < key b := ⟨fun a => lt_irrefl (key a)⟩
  exact h.eq_of_mem_iff h' hmem

lemma filter_split {p q r : α → Prop} [DecidablePred p] [DecidablePred q] [DecidablePred r]
    (hs : l.Pairwise fun a b => key a < key b) (hp : ∀ a, p a ↔ q a ∨ r a) (hlt : ∀ a b, q a → r b → key a < key b) :
    (l.filter fun a => decide (p a)) = (l.filter fun a => decide (q a)) ++ l.filter fun a => decide (r a) := by
  refine eq_of_mem_iff (hs.filter _) (pairwise_append.2 ⟨hs.filter _, hs.filter _, ?_⟩) fun a => ?_
  · simp only [mem_filter, decide_eq_true_eq]
    exact fun a ha b hb => hlt a b ha.2 hb.2
  · simp only [mem_append, mem_filter, decide_eq_true_eq, hp, and_or_left]

/-- What is left after the first `n` elements are those above the last of them. -/
lemma filter_lt_getLast [DecidableLT β] (hs : l.Pairwise fun a b => key a < key b) {n : ℕ} {last : α}
    (h : (l.take n).getLast? = some last) : l.filter (fun a => decide (key last < key a)) = l.drop n := by
  obtain ⟨init, hinit⟩ := getLast?_eq_some_iff.1 h
  have hsplit := pairwise_append.1 ((take_append_drop n l).symm ▸ hs)
  have htake := pairwise_append.1 (hinit ▸ hsplit.1)
  refine eq_of_mem_iff (hs.filter _) hsplit.2.1 fun a => ?_
  rw [mem_filter, decide_eq_true_eq]
  refine ⟨fun ⟨ha, hlt⟩ => ?_, fun ha => ⟨mem_of_mem_drop ha, hsplit.2.2 last (mem_of_getLast? h) a ha⟩⟩
  rw [← take_append_drop n l, mem_append, hinit] at ha
  refine ha.resolve_left fun hmem => ?_
  rcases mem_append_one.1 hmem with hmem | rfl
  · exact (htake.2.2 a hmem last (mem_singleton_self last)).asymm hlt
  · exact lt_irrefl _ hlt

end

end Coord.Lib
