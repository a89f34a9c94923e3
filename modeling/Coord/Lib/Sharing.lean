import Mathlib

/-!
# Counting the polynomials behind a few shares

Over a finite field, the polynomials `c₁ X + … + cₘ Xᵐ` that take given values at given points other than zero.  With
every coefficient allowed, their number depends on how many points there are and on nothing else.  Without the
coefficient zero, it depends on the values.

* `evalAt` — the values at the points, as an additive map of the coefficients;
* `card_evalAt_eq` — the number of coefficients with given values at up to `m` points;
* `card_nonzeroSums`, `card_nonzero_evalAt` — the number of non-zero coefficients with a given value at one point;
* `exists_card_nonzero_ne` — at any points that number is not the same for all values.
-/

namespace Coord.Lib

open Finset

variable {F ι : Type} [Field F]

/-- The values of `∑ c j * X ^ (j + 1)` at the points. -/
def evalAt {m : ℕ} (x : ι → F) : (Fin m → F) →+ (ι → F) where
  toFun c i := ∑ j, c j * x i ^ ((j : ℕ) + 1)
  map_zero' := by
    funext i
    simp
  map_add' c d := by
    funext i
    simp [add_mul, sum_add_distrib]

variable {m : ℕ}

lemma evalAt_apply (x : ι → F) (c : Fin m → F) (i : ι) : evalAt x c i = ∑ j, c j * x i ^ ((j : ℕ) + 1) := rfl

lemma evalAt_surjective [Fintype ι] [DecidableEq ι] {x : ι → F} (hinj : Function.Injective x)
    (hzero : ∀ i, x i ≠ 0) (hm : Fintype.card ι ≤ m) : Function.Surjective (evalAt (m := m) x) := by
  intro v
  set f := Lagrange.interpolate univ x fun i => v i / x i with hf
  have hdeg : f.degree < m := by
    refine (Lagrange.degree_interpolate_lt _ hinj.injOn).trans_le ?_
    exact_mod_cast hm
  have hnat : f.natDegree < m ∨ f = 0 := by
    by_cases hf0 : f = 0
    · exact .inr hf0
    · exact .inl ((Polynomial.natDegree_lt_iff_degree_lt hf0).2 hdeg)
  refine ⟨fun j => f.coeff j, funext fun i => ?_⟩
  have heval : f.eval (x i) = ∑ j ∈ range m, f.coeff j * x i ^ j := by
    rcases hnat with hlt | h0
    · exact Polynomial.eval_eq_sum_range' hlt (x i)
    · simp [h0]
  calc ∑ j : Fin m, f.coeff j * x i ^ ((j : ℕ) + 1)
      = (∑ j ∈ range m, f.coeff j * x i ^ j) * x i := by
        rw [Fin.sum_univ_eq_sum_range fun j => f.coeff j * x i ^ (j + 1), sum_mul]
        exact sum_congr rfl fun j _ => by ring
    _ = v i := by
        rw [← heval, hf, Lagrange.eval_interpolate_at_node _ hinj.injOn (mem_univ i), div_mul_cancel₀ _ (hzero i)]

/-- **How many coefficients give the values**: the same number for all values. -/
theorem card_evalAt_eq [Fintype F] [DecidableEq F] [Fintype ι] [DecidableEq ι] {x : ι → F}
    (hinj : Function.Injective x) (hzero : ∀ i, x i ≠ 0) (hm : Fintype.card ι ≤ m) (v : ι → F) :
    #{c : Fin m → F | evalAt x c = v} = Fintype.card F ^ (m - Fintype.card ι) := by
  have hsurj := evalAt_surjective hinj hzero hm
  have hsame : ∀ w, #{c : Fin m → F | evalAt x c = w} = #{c : Fin m → F | evalAt x c = v} := by
    intro w
    obtain ⟨a, ha⟩ := hsurj (v - w)
    refine card_bij (fun c _ => c + a) (fun c hc => ?_) (fun c _ d _ h => add_right_cancel h) (fun c hc => ?_)
    · rw [mem_filter] at hc ⊢
      refine ⟨mem_univ _, ?_⟩
      rw [map_add, hc.2, ha]
      abel
    · rw [mem_filter] at hc
      refine ⟨c - a, ?_, sub_add_cancel c a⟩
      rw [mem_filter]
      refine ⟨mem_univ _, ?_⟩
      rw [map_sub, hc.2, ha]
      abel
  have htotal : Fintype.card F ^ m = Fintype.card F ^ Fintype.card ι * #{c : Fin m → F | evalAt x c = v} := by
    calc Fintype.card F ^ m = #(univ : Finset (Fin m → F)) := by simp
      _ = ∑ w : ι → F, #{c : Fin m → F | evalAt x c = w} := by
        rw [card_eq_sum_card_fiberwise fun c _ => mem_univ (evalAt x c)]
      _ = Fintype.card F ^ Fintype.card ι * #{c : Fin m → F | evalAt x c = v} := by
        rw [sum_congr rfl fun w _ => hsame w]
        simp
  have hpos : 0 < Fintype.card F ^ Fintype.card ι := pow_pos Fintype.card_pos _
  refine Nat.eq_of_mul_eq_mul_left hpos ?_
  rw [← htotal, ← pow_add, Nat.add_sub_cancel' hm]

/-! ### Without zero -/

section

variable [Fintype F] [DecidableEq F]

/-- The families of `m` non-zero elements with the sum `v`. -/
def nonzeroSums (m : ℕ) (v : F) : Finset (Fin m → F) := {c | (∀ j, c j ≠ 0) ∧ ∑ j, c j = v}

lemma mem_nonzeroSums {v : F} {c : Fin m → F} : c ∈ nonzeroSums m v ↔ (∀ j, c j ≠ 0) ∧ ∑ j, c j = v := by
  rw [nonzeroSums, mem_filter, and_iff_right (mem_univ _)]

lemma card_nonzeroSums_succ (m : ℕ) (v : F) :
    #(nonzeroSums (m + 1) v) = ∑ d ∈ univ.erase (0 : F), #(nonzeroSums m (v - d)) := by
  rw [card_eq_sum_card_fiberwise (s := nonzeroSums (m + 1) v) (t := univ.erase (0 : F)) (f := fun c => c 0) fun c hc =>
    mem_coe.2 (mem_erase.2 ⟨(mem_nonzeroSums.1 hc).1 0, mem_univ _⟩)]
  refine sum_congr rfl fun d hd => ?_
  have hd : d ≠ 0 := (mem_erase.1 hd).1
  refine card_bij (fun c _ => Fin.tail c) (fun c hc => ?_) (fun a ha b hb h => ?_) (fun c hc => ?_)
  · obtain ⟨hc, h0⟩ := mem_filter.1 hc
    obtain ⟨hne, hsum⟩ := mem_nonzeroSums.1 hc
    refine mem_nonzeroSums.2 ⟨fun j => hne j.succ, ?_⟩
    rw [Fin.sum_univ_succ, h0] at hsum
    rw [← hsum, add_sub_cancel_left]
    rfl
  · rw [← Fin.cons_self_tail a, ← Fin.cons_self_tail b, (mem_filter.1 ha).2, (mem_filter.1 hb).2, h]
  · obtain ⟨hne, hsum⟩ := mem_nonzeroSums.1 hc
    refine ⟨Fin.cons d c, mem_filter.2 ⟨mem_nonzeroSums.2 ⟨fun j => ?_, ?_⟩, rfl⟩, rfl⟩
    · refine Fin.cases ?_ (fun j => ?_) j
      · exact hd
      · exact hne j
    · rw [Fin.sum_univ_succ]
      simp [hsum]

/-- **How many families there are**: not the same number for zero as for the other sums. -/
theorem card_nonzeroSums (m : ℕ) (v : F) : (Fintype.card F : ℤ) * #(nonzeroSums m v) =
      (Fintype.card F - 1) ^ m + (if v = 0 then (Fintype.card F : ℤ) - 1 else -1) * (-1) ^ m := by
  induction m generalizing v with
  | zero =>
    have hzero : nonzeroSums 0 v = if v = 0 then univ else ∅ := by
      ext c
      rw [mem_nonzeroSums]
      split
      · next hv => exact ⟨fun _ => mem_univ c, fun _ => ⟨fun j => j.elim0, by rw [hv]; rfl⟩⟩
      · next hv => simp [Ne.symm hv]
    rw [hzero]
    split <;> simp
  | succ m ih =>
    have hterm : ∀ d ∈ univ.erase (0 : F), (Fintype.card F : ℤ) * #(nonzeroSums m (v - d)) =
        (Fintype.card F - 1) ^ m - (-1) ^ m + (if d = v then (Fintype.card F : ℤ) * (-1) ^ m else 0) := by
      intro d _
      rw [ih]
      by_cases hdv : d = v
      · rw [if_pos (by rw [hdv, sub_self]), if_pos hdv]
        ring
      · rw [if_neg (sub_ne_zero.2 (Ne.symm hdv)), if_neg hdv]
        ring
    rw [card_nonzeroSums_succ]
    push_cast
    rw [mul_sum, sum_congr rfl hterm, sum_add_distrib, sum_const, sum_ite_eq']
    have hcard : ((univ.erase (0 : F)).card : ℤ) = Fintype.card F - 1 := by
      rw [card_erase_of_mem (mem_univ _), card_univ, Nat.cast_sub Fintype.card_pos]
      rfl
    rw [nsmul_eq_mul, hcard]
    by_cases hv : v = 0
    · rw [if_neg (by simp [hv]), if_pos hv]
      ring
    · rw [if_pos (mem_erase.2 ⟨hv, mem_univ _⟩), if_neg hv]
      ring

theorem card_nonzero_evalAt (m : ℕ) {x : F} (hx : x ≠ 0) (v : F) :
    #{c : Fin m → F | (∀ j, c j ≠ 0) ∧ ∑ j, c j * x ^ ((j : ℕ) + 1) = v} = #(nonzeroSums m v) := by
  have hpow : ∀ j : Fin m, x ^ ((j : ℕ) + 1) ≠ 0 := fun j => pow_ne_zero _ hx
  refine card_bij (fun c _ j => c j * x ^ ((j : ℕ) + 1)) (fun c hc => ?_) (fun a _ b _ h => ?_) (fun c hc => ?_)
  · obtain ⟨-, hne, hsum⟩ := mem_filter.1 hc
    exact mem_nonzeroSums.2 ⟨fun j => mul_ne_zero (hne j) (hpow j), hsum⟩
  · exact funext fun j => mul_right_cancel₀ (hpow j) (congrFun h j)
  · obtain ⟨hne, hsum⟩ := mem_nonzeroSums.1 hc
    refine ⟨fun j => c j / x ^ ((j : ℕ) + 1), mem_filter.2 ⟨mem_univ _, fun j => div_ne_zero (hne j) (hpow j), ?_⟩, ?_⟩
    · rw [← hsum]
      exact sum_congr rfl fun j _ => div_mul_cancel₀ _ (hpow j)
    · exact funext fun j => div_mul_cancel₀ _ (hpow j)

lemma card_nonzeroSums_ne (m : ℕ) : #(nonzeroSums m (0 : F)) ≠ #(nonzeroSums m (1 : F)) := by
  intro h
  have h0 := card_nonzeroSums m (0 : F)
  have h1 := card_nonzeroSums m (1 : F)
  rw [if_pos rfl, h] at h0
  rw [if_neg one_ne_zero] at h1
  have hpow : (-1 : ℤ) ^ m ≠ 0 := pow_ne_zero _ (by norm_num)
  have hcard : (Fintype.card F : ℤ) ≠ 0 := by exact_mod_cast Fintype.card_ne_zero
  have hzero : (Fintype.card F : ℤ) * (-1) ^ m = 0 := by linear_combination h1 - h0
  exact (mul_ne_zero hcard hpow) hzero

/-- **The values tell something**: at any points, with at least one, there are values for which the number of non-zero
coefficients changes when all of them are moved by one. -/
theorem exists_card_nonzero_ne [Fintype ι] [DecidableEq ι] {x : ι → F} {i : ι} (hx : x i ≠ 0) :
    ∃ v : ι → F, #{c : Fin m → F | (∀ j, c j ≠ 0) ∧ evalAt x c = v} ≠
      #{c : Fin m → F | (∀ j, c j ≠ 0) ∧ evalAt x c = v + 1} := by
  by_contra hsame
  have hsame : ∀ v : ι → F, #{c : Fin m → F | (∀ j, c j ≠ 0) ∧ evalAt x c = v} =
      #{c : Fin m → F | (∀ j, c j ≠ 0) ∧ evalAt x c = v + 1} := fun v => by
    by_contra hne
    exact hsame ⟨v, hne⟩
  -- summed over the values at the other points, the numbers are those of the one point
  have hsum : ∀ a : F, ∑ v : ι → F with v i = a, #{c : Fin m → F | (∀ j, c j ≠ 0) ∧ evalAt x c = v} =
      #(nonzeroSums m a) := by
    intro a
    rw [← card_nonzero_evalAt m hx, card_eq_sum_card_fiberwise (t := {v : ι → F | v i = a}) (f := evalAt x) fun c hc =>
      mem_coe.2 (mem_filter.2 ⟨mem_univ _, (mem_filter.1 hc).2.2⟩)]
    refine sum_congr rfl fun v hv => ?_
    have hv : v i = a := (mem_filter.1 hv).2
    congr 1
    ext c
    simp only [mem_filter, mem_univ, true_and]
    constructor
    · rintro ⟨hne, rfl⟩
      exact ⟨⟨hne, hv⟩, rfl⟩
    · rintro ⟨⟨hne, -⟩, h⟩
      exact ⟨hne, h⟩
  refine card_nonzeroSums_ne (F := F) m ?_
  rw [← hsum, ← hsum]
  refine sum_bij (fun v _ => v + 1) (fun v hv => ?_) (fun v _ w _ h => add_right_cancel h) (fun v hv => ?_)
    fun v _ => hsame v
  · have hv : v i = 0 := (mem_filter.1 hv).2
    exact mem_filter.2 ⟨mem_univ _, by simp [hv]⟩
  · have hv : v i = 1 := (mem_filter.1 hv).2
    exact ⟨v - 1, mem_filter.2 ⟨mem_univ _, by simp [hv]⟩, sub_add_cancel v 1⟩

end

end Coord.Lib
