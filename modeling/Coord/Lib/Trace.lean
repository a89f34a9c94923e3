import Mathlib

/-!
# Runs of a step function

A step function takes a state and an action to a state and an answer.  `exec` is the state after a list of
actions and `trace` the list of what happened: every action with the states around it and its answer.

* `exec_inv`, `trace_inv` — an invariant of every step holds in every state of a run;
* `Along`, `along_inv` — the same for the runs whose actions all meet a condition where they are taken;
* `trace_pairwise` — what an event establishes and every step keeps holds before every later event;
* `pairwise_of_no_return` — two kinds of events that do not alternate are in order.
-/

namespace Coord.Lib

open List

/-- One step of a run: the state before, the action, its answer and the state after. -/
structure Event (S A O : Type) where
  before : S
  act : A
  out : O
  after : S

section

variable {S A O : Type} (step : S → A → S × O)

def exec : S → List A → S
  | s, [] => s
  | s, a :: as => exec (step s a).1 as

def trace : S → List A → List (Event S A O)
  | _, [] => []
  | s, a :: as => ⟨s, a, (step s a).2, (step s a).1⟩ :: trace (step s a).1 as

variable (s : S) (I : S → Prop) (P : S → A → Prop)

@[simp] lemma exec_nil : exec step s [] = s := rfl

@[simp] lemma exec_cons (a : A) (as : List A) : exec step s (a :: as) = exec step (step s a).1 as := rfl

@[simp] lemma trace_nil : trace step s [] = [] := rfl

lemma exec_append (as bs : List A) : exec step s (as ++ bs) = exec step (exec step s as) bs := by
  induction as generalizing s with
  | nil => rfl
  | cons a as ih => simp [ih]

lemma trace_append (as bs : List A) :
    trace step s (as ++ bs) = trace step s as ++ trace step (exec step s as) bs := by
  induction as generalizing s with
  | nil => rfl
  | cons a as ih => simp [trace, ih]

variable {s : S} {as : List A}

lemma step_of_mem_trace {e : Event S A O} (h : e ∈ trace step s as) :
    step e.before e.act = (e.after, e.out) ∧ e.act ∈ as := by
  induction as generalizing s with
  | nil => cases h
  | cons a as ih =>
    rcases mem_cons.1 h with rfl | h
    · exact ⟨rfl, mem_cons_self ..⟩
    · exact ⟨(ih h).1, mem_cons_of_mem _ (ih h).2⟩

variable {step}

/-- **The invariant rule.**  What holds at the start and is kept by every action of the run holds at its end. -/
theorem exec_inv (h0 : I s) (hstep : ∀ t, ∀ a ∈ as, I t → I (step t a).1) : I (exec step s as) := by
  induction as generalizing s with
  | nil => exact h0
  | cons a as ih =>
    exact ih (hstep s a (mem_cons_self ..) h0) fun t b hb => hstep t b (mem_cons_of_mem _ hb)

theorem trace_inv (h0 : I s)
    (hstep : ∀ t, ∀ a ∈ as, I t → I (step t a).1) : ∀ e ∈ trace step s as, I e.before ∧ I e.after := by
  induction as generalizing s with
  | nil => simp
  | cons a as ih =>
    have h1 := hstep s a (mem_cons_self ..) h0
    intro e he
    rcases mem_cons.1 he with rfl | he
    · exact ⟨h0, h1⟩
    · exact ih h1 (fun t b hb => hstep t b (mem_cons_of_mem _ hb)) e he

/-- Every action of the run meets `P` in the state it is taken in. -/
def Along (step : S → A → S × O) (P : S → A → Prop) : S → List A → Prop
  | _, [] => True
  | s, a :: as => P s a ∧ Along step P (step s a).1 as

instance (step : S → A → S × O) (P : S → A → Prop) [∀ s a, Decidable (P s a)] :
    ∀ (s : S) (as : List A), Decidable (Along step P s as)
  | _, [] => isTrue trivial
  | s, a :: as => @instDecidableAnd _ _ _ (instDecidableAlong step P (step s a).1 as)

theorem along_inv (h0 : I s)
    (hP : Along step P s as) (hstep : ∀ t a, P t a → I t → I (step t a).1) :
    I (exec step s as) ∧ ∀ e ∈ trace step s as, I e.before ∧ P e.before e.act ∧ I e.after := by
  induction as generalizing s with
  | nil => exact ⟨h0, by simp⟩
  | cons a as ih =>
    have h1 := hstep s a hP.1 h0
    obtain ⟨h2, h3⟩ := ih h1 hP.2
    refine ⟨h2, fun e he => ?_⟩
    rcases mem_cons.1 he with rfl | he
    · exact ⟨h0, hP.1, h1⟩
    · exact h3 e he

lemma along_append {bs : List A} :
    Along step P s (as ++ bs) ↔ Along step P s as ∧ Along step P (exec step s as) bs := by
  induction as generalizing s with
  | nil => simp [Along]
  | cons a as ih => simp [Along, ih, and_assoc]

lemma along_and (Q : S → A → Prop) :
    Along step (fun t a => P t a ∧ Q t a) s as ↔ Along step P s as ∧ Along step Q s as := by
  induction as generalizing s with
  | nil => simp [Along]
  | cons a as ih => simp only [Along, ih, and_and_and_comm]

/-- **Once established, kept.**  If every event establishes its `Q` and every action of the run keeps it, then
`Q` of an event holds before every later one. -/
theorem trace_pairwise (Q : Event S A O → S → Prop) (h0 : I s)
    (hstep : ∀ t, ∀ a ∈ as, I t → I (step t a).1)
    (hest : ∀ t, ∀ a ∈ as, I t → Q ⟨t, a, (step t a).2, (step t a).1⟩ (step t a).1)
    (hkeep : ∀ e t, ∀ a ∈ as, I t → Q e t → Q e (step t a).1) :
    (trace step s as).Pairwise (fun e e' => Q e e'.before) := by
  induction as generalizing s with
  | nil => exact List.Pairwise.nil
  | cons a as ih =>
    have hmem : ∀ b ∈ as, b ∈ a :: as := fun b hb => mem_cons_of_mem _ hb
    have h1 := hstep s a (mem_cons_self ..) h0
    refine pairwise_cons.2 ⟨?_, ih h1 (fun t b hb => hstep t b (hmem b hb))
      (fun t b hb => hest t b (hmem b hb)) (fun e t b hb => hkeep e t b (hmem b hb))⟩
    intro e' he'
    set e : Event S A O := ⟨s, a, (step s a).2, (step s a).1⟩
    have hq : Q e (step s a).1 := hest s a (mem_cons_self ..) h0
    have hall := trace_inv (fun t => I t ∧ Q e t) ⟨h1, hq⟩
      (fun t b hb ht => ⟨hstep t b (hmem b hb) ht.1, hkeep e t b (hmem b hb) ht.1 ht.2⟩)
    exact (hall e' he').1.2

end

/-- **No return.**  If no `P` follows a `Q` that follows a `P`, and no `Q` follows a `P` that follows a `Q`, then all of
the one kind precede all of the other. -/
theorem pairwise_of_no_return {α : Type} {l : List α} {P Q A B : α → Prop} (hne : ∀ x ∈ l, P x → ¬ Q x)
    (hA : l.Pairwise fun x y => P x → A y) (hP : l.Pairwise fun x y => Q x → A x → ¬ P y)
    (hB : l.Pairwise fun x y => Q x → B y) (hQ : l.Pairwise fun x y => P x → B x → ¬ Q y) :
    l.Pairwise (fun x y => P x → ¬ Q y) ∨ l.Pairwise (fun x y => Q x → ¬ P y) := by
  by_cases hPQ : l.Pairwise (fun x y => P x → ¬ Q y)
  · exact .inl hPQ
  refine .inr ?_
  rw [pairwise_iff_getElem] at *
  push Not at hPQ
  obtain ⟨i, j, hi, hj, hij, hPi, hQj⟩ := hPQ
  intro i' j' hi' hj' hij' hQi' hPj'
  have hAj := hA i j hi hj hij hPi
  have hBj' := hB i' j' hi' hj' hij' hQi'
  rcases Nat.lt_trichotomy j j' with h | rfl | h
  · exact hP j j' hj hj' h hQj hAj hPj'
  · exact hne _ (getElem_mem hj) hPj' hQj
  · exact hQ j' j hj' hj h hPj' hBj' hQj

end Coord.Lib
