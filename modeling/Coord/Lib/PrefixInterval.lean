import Mathlib

/-!
# The words with a given prefix as an interval

Words over a linear order, compared lexicographically. The words that start with `p` are the interval from `p` to
`prefixSucc p`, the word that has its last letter which is not the greatest one raised, and nothing behind it.

* `NextLetter` — what is asked of the raising of a letter;
* `prefixSucc` — the end of the interval of a prefix, if it has one;
* `isPrefix_iff_of_succ`, `isPrefix_iff_of_no_succ` — the words with a prefix are its interval.
-/

namespace Coord.Lib

variable {α : Type} [LinearOrder α]

/-- `next a` is the least letter above `a`, and there is none when it fails. -/
structure NextLetter (next : α → Option α) : Prop where
  lt_iff : ∀ {a b : α}, next a = some b → ∀ c, c < b ↔ c ≤ a
  greatest : ∀ {a : α}, next a = none → ∀ c, c ≤ a

/-- The least word above every word that starts with `p`. -/
def prefixSucc (next : α → Option α) : List α → Option (List α)
  | [] => none
  | a :: p =>
    match prefixSucc next p with
    | some s => some (a :: s)
    | none => (next a).map fun b => [b]

lemma cons_le_cons_iff_lex (a b : α) (p k : List α) : a :: p ≤ b :: k ↔ a < b ∨ a = b ∧ p ≤ k := by
  rw [← not_lt, List.cons_lt_cons_iff, ← not_lt]
  rcases lt_trichotomy a b with h | rfl | h
  · simp [h, h.not_gt, h.ne']
  · simp
  · simp [h, h.not_gt, h.ne']

variable {next : α → Option α} (hnext : NextLetter next)

include hnext in
theorem isPrefix_iff_of_no_succ {p : List α} (h : prefixSucc next p = none) (k : List α) : p <+: k ↔ p ≤ k := by
  induction p generalizing k with
  | nil => simpa using not_lt.1 (List.not_lt_nil k)
  | cons a p ih =>
    unfold prefixSucc at h
    cases hp : prefixSucc next p with
    | some s => simp [hp] at h
    | none =>
      have ha : next a = none := by simpa [hp] using h
      cases k with
      | nil => simp
      | cons c k =>
        rw [List.cons_prefix_cons, cons_le_cons_iff_lex, ih hp]
        have hc : ¬ a < c := not_lt.2 (hnext.greatest ha c)
        simp [hc]

include hnext in
/-- **The words that start with `p` are those from `p` to below `prefixSucc p`.** -/
theorem isPrefix_iff_of_succ {p s : List α} (h : prefixSucc next p = some s) (k : List α) :
    p <+: k ↔ p ≤ k ∧ k < s := by
  induction p generalizing k s with
  | nil => simp [prefixSucc] at h
  | cons a p ih =>
    unfold prefixSucc at h
    cases k with
    | nil => simp
    | cons c k =>
      rw [List.cons_prefix_cons, cons_le_cons_iff_lex]
      cases hp : prefixSucc next p with
      | some t =>
        obtain rfl : a :: t = s := by simpa [hp] using h
        rw [List.cons_lt_cons_iff, ih hp]
        constructor
        · rintro ⟨rfl, hle, hlt⟩
          exact ⟨.inr ⟨rfl, hle⟩, .inr ⟨rfl, hlt⟩⟩
        · rintro ⟨hac | ⟨rfl, hle⟩, hca | ⟨hca, hlt⟩⟩
          · exact absurd hac hca.not_gt
          · exact absurd hca hac.ne'
          · exact absurd hca (lt_irrefl _)
          · exact ⟨rfl, hle, hlt⟩
      | none =>
        -- the rest of the prefix has no successor, so its first letter is raised
        obtain ⟨b, hb, rfl⟩ : ∃ b, next a = some b ∧ [b] = s := by simpa [hp] using h
        have hlt : c :: k < [b] ↔ c ≤ a := by
          rw [List.cons_lt_cons_iff, ← hnext.lt_iff hb]
          have hnil : ¬ k < [] := List.not_lt_nil k
          simp [hnil]
        rw [hlt, isPrefix_iff_of_no_succ hnext hp]
        constructor
        · rintro ⟨rfl, hle⟩
          exact ⟨.inr ⟨rfl, hle⟩, le_rfl⟩
        · rintro ⟨hac | ⟨rfl, hle⟩, hca⟩
          · exact absurd hca hac.not_ge
          · exact ⟨rfl, hle⟩

end Coord.Lib
