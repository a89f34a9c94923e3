import Mathlib

/-!
# Half-open intervals in a row

A list of intervals `[lo, hi)` over a linear order, each starting where the one before ends; one value of the order,
read as an end, stands for "no upper bound".

* `Ends`, `Ends.Covers`, `Ends.Chain` — the ends of an interval, its points, and intervals in a row;
* `Chain.unique`, `Chain.exists_covers` — in a row no point is covered twice, and with an open end none is missed;
* `Chain.getLast?_takeWhile` — the interval of a point is the last one that starts at or before it;
* `chain_concat`, `Chain.set` — one more interval at the end, and another one in the place of one.
-/

namespace Coord.Lib

open List

/-- Where an interval starts and ends; the end `top` is no upper bound. -/
structure Ends (α K : Type) where
  lo : α → K
  hi : α → K
  top : K

namespace Ends

variable {α K : Type} [LinearOrder K] {e : Ends α K}

def Covers (e : Ends α K) (a : α) (k : K) : Prop := e.lo a ≤ k ∧ (e.hi a = e.top ∨ k < e.hi a)

/-- Non-empty intervals in a row from `start` on; only the last may be unbounded. -/
def Chain (e : Ends α K) : K → List α → Prop
  | _, [] => True
  | start, a :: rest =>
    e.lo a = start ∧ (e.hi a = e.top ∨ e.lo a < e.hi a) ∧ (rest ≠ [] → e.hi a ≠ e.top) ∧ Chain e (e.hi a) rest

variable {start k : K} {l : List α} {a : α}

section

variable (h : e.Chain start l)
include h

lemma Chain.start_le : ∀ a ∈ l, start ≤ e.lo a := by
  induction l generalizing start with
  | nil => simp
  | cons b rest ih =>
    obtain ⟨hlo, hne, hopen, hrest⟩ := h
    intro a ha
    rcases mem_cons.1 ha with rfl | ha
    · exact hlo.ge
    · have hend : e.lo b < e.hi b := hne.resolve_left (hopen (ne_nil_of_mem ha))
      exact hlo ▸ hend.le.trans (ih hrest a ha)

lemma Chain.pairwise : l.Pairwise fun a b => e.hi a ≠ e.top ∧ e.hi a ≤ e.lo b := by
  induction l generalizing start with
  | nil => exact List.Pairwise.nil
  | cons a rest ih =>
    obtain ⟨-, -, hopen, hrest⟩ := h
    exact pairwise_cons.2 ⟨fun b hb => ⟨hopen (ne_nil_of_mem hb), hrest.start_le b hb⟩, ih hrest⟩

lemma Chain.disjoint : l.Pairwise fun a b => ∀ k, e.Covers a k → ¬ e.Covers b k := by
  refine h.pairwise.imp fun hab k hak hbk => ?_
  obtain ⟨hopen, hle⟩ := hab
  exact absurd ((hak.2.resolve_left hopen).trans_le (hle.trans hbk.1)) (lt_irrefl k)

/-- **No point is covered twice.** -/
theorem Chain.unique {b : α} (ha : a ∈ l) (hb : b ∈ l) (hak : e.Covers a k) (hbk : e.Covers b k) : a = b := by
  induction l generalizing start with
  | nil => cases ha
  | cons c rest ih =>
    have hdisj := (pairwise_cons.1 h.disjoint).1
    rcases mem_cons.1 ha with rfl | ha' <;> rcases mem_cons.1 hb with rfl | hb'
    · rfl
    · exact absurd hbk (hdisj b hb' k hak)
    · exact absurd hak (hdisj a ha' k hbk)
    · exact ih h.2.2.2 ha' hb'

lemma Chain.covers_lo : ∀ a ∈ l, e.Covers a (e.lo a) := by
  induction l generalizing start with
  | nil => simp
  | cons b rest ih =>
    intro a ha
    rcases mem_cons.1 ha with rfl | ha
    · exact ⟨le_rfl, h.2.1⟩
    · exact ih h.2.2.2 a ha

lemma Chain.hi_le {z : α} (ha : a ∈ l) (hz : z ∈ l)
    (htop : e.hi z ≠ e.top) (hlt : e.lo a < e.hi z) : e.hi a ≠ e.top ∧ e.hi a ≤ e.hi z := by
  rcases lt_or_ge (e.lo a) (e.lo z) with haz | hza
  · -- the start of `z` is not in `a`
    have hnot : ¬ e.Covers a (e.lo z) := fun hc => by
      rw [h.unique ha hz hc (h.covers_lo z hz)] at haz
      exact lt_irrefl _ haz
    have hends : ¬ (e.hi a = e.top ∨ e.lo z < e.hi a) := fun hc => hnot ⟨haz.le, hc⟩
    have hlo := (h.covers_lo z hz).2.resolve_left htop
    exact ⟨fun hc => hends (.inl hc), (not_lt.1 fun hc => hends (.inr hc)).trans hlo.le⟩
  · rw [h.unique ha hz (h.covers_lo a ha) ⟨hza, .inr hlt⟩]
    exact ⟨htop, le_rfl⟩

/-- Only the last interval is unbounded. -/
lemma Chain.getLast?_of_top (ha : a ∈ l) (htop : e.hi a = e.top) : l.getLast? = some a := by
  obtain ⟨pre, post, rfl⟩ := append_of_mem ha
  have hpost : post = [] := by
    cases post with
    | nil => rfl
    | cons b rest =>
      have hpair := (pairwise_append.1 h.pairwise).2.1
      exact absurd htop ((pairwise_cons.1 hpair).1 b mem_cons_self).1
  rw [hpost, getLast?_append]
  rfl

theorem Chain.set {i : ℕ} {b : α} (ha : l[i]? = some a)
    (hlo : e.lo b = e.lo a) (hhi : e.hi b = e.hi a) : e.Chain start (l.set i b) := by
  induction l generalizing start i with
  | nil => exact h
  | cons c rest ih =>
    obtain ⟨hc, hne, hopen, hrest⟩ := h
    cases i with
    | zero =>
      obtain rfl : c = a := by simpa using ha
      rw [set_cons_zero]
      exact ⟨hlo.trans hc, by rwa [hlo, hhi], by rwa [hhi], by rwa [hhi]⟩
    | succ i =>
      rw [set_cons_succ]
      refine ⟨hc, hne, fun hnil => hopen fun hrow => hnil ?_, ih hrest (by simpa using ha)⟩
      rw [hrow]
      rfl

/-- **No point is missed** before the end of an interval. -/
theorem Chain.exists_covers {z : α} (hz : z ∈ l)
    (hend : e.hi z = e.top ∨ k < e.hi z) (hk : start ≤ k) : ∃ a ∈ l, e.Covers a k := by
  induction l generalizing start with
  | nil => cases hz
  | cons a rest ih =>
    obtain ⟨hlo, -, -, hrest⟩ := h
    by_cases hka : e.hi a = e.top ∨ k < e.hi a
    · exact ⟨a, mem_cons_self, hlo ▸ hk, hka⟩
    · have hz' : z ∈ rest := (mem_cons.1 hz).resolve_left fun hza => hka (hza ▸ hend)
      obtain ⟨c, hc, hck⟩ := ih hrest hz' (not_lt.1 fun hlt => hka (.inr hlt))
      exact ⟨c, mem_cons_of_mem _ hc, hck⟩

/-- The interval of a point is the last one that starts at or before it. -/
theorem Chain.getLast?_takeWhile (ha : a ∈ l)
    (hak : e.Covers a k) : (l.takeWhile fun b => decide (e.lo b ≤ k)).getLast? = some a := by
  induction l generalizing start with
  | nil => cases ha
  | cons b rest ih =>
    obtain ⟨hlo, hne, hopen, hrest⟩ := id h
    rcases mem_cons.1 ha with rfl | ha
    · -- the next interval, if any, starts after the point
      have hnil : rest.takeWhile (fun b => decide (e.lo b ≤ k)) = [] := by
        cases rest with
        | nil => rfl
        | cons c rest =>
          have hlt : k < e.lo c := hrest.1 ▸ hak.2.resolve_left (hopen (cons_ne_nil _ _))
          rw [takeWhile_cons_of_neg (by simpa using hlt)]
      rw [takeWhile_cons_of_pos (by simpa using hak.1), hnil]
      rfl
    · have hbk : e.lo b ≤ k := hlo ▸ (h.start_le a (mem_cons_of_mem _ ha)).trans hak.1
      have hlast := ih hrest ha
      rw [takeWhile_cons_of_pos (by simpa using hbk)]
      rw [getLast?_cons, hlast]
      rfl

end

theorem chain_concat : e.Chain start (l ++ [a]) ↔ e.Chain start l ∧ (∀ z, l.getLast? = some z → e.hi z ≠ e.top) ∧
      e.lo a = (l.getLast?.map e.hi).getD start ∧ (e.hi a = e.top ∨ e.lo a < e.hi a) := by
  induction l generalizing start with
  | nil => simp [Chain]
  | cons b rest ih =>
    cases rest with
    | nil => simp [Chain]; tauto
    | cons c rest =>
      have hlast : (b :: c :: rest).getLast? = (c :: rest).getLast? := getLast?_cons_cons
      have hsome : ((c :: rest).getLast?.map e.hi).getD (e.hi b) = ((c :: rest).getLast?.map e.hi).getD start := by
        rw [getLast?_cons]
        rfl
      have hcons : ∀ l : List α, l ≠ [] → (e.Chain start (b :: l) ↔
          e.lo b = start ∧ (e.hi b = e.top ∨ e.lo b < e.hi b) ∧ e.hi b ≠ e.top ∧ e.Chain (e.hi b) l) := by
        intro l hl
        simp [Chain, hl]
      rw [hlast, ← hsome, cons_append, hcons _ (by simp), hcons _ (by simp), ih]
      tauto

end Ends

end Coord.Lib
