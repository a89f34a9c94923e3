import Mathlib

/-!
# Reading the past from a log that is cut

A map changes over revisions and a log keeps its writes from some revision on.  `Represents` says what such a log
still tells: the last write kept up to a revision is the value there, and above the cut a value that is not the
present one has a write after it.

* `Represents.write`, `Represents.cut` — the log keeps telling it when it grows, and when its beginning is dropped;
* `Represents.unwritten` — a key without a write after a revision is as it is now.
-/

namespace Coord.Lib.History

open List

variable {K V : Type} [DecidableEq K]

/-- Writes with their revisions, oldest first; no value is a delete. -/
abbrev Log (K V : Type) := List (ℕ × K × Option V)

/-- The last write of `k` up to `T`. -/
def lastUpTo (T : ℕ) (k : K) : Log K V → Option (Option V)
  | [] => none
  | w :: log => (lastUpTo T k log).or (if w.1 ≤ T ∧ w.2.1 = k then some w.2.2 else none)

/-- The last of the changes to `k`. -/
def lastChange (k : K) : List (K × Option V) → Option (Option V)
  | [] => none
  | c :: cs => (lastChange k cs).or (if c.1 = k then some c.2 else none)

/-- `k` is written after `T`. -/
def WrittenAfter (log : Log K V) (T : ℕ) (k : K) : Prop := ∃ w ∈ log, T < w.1 ∧ w.2.1 = k

/-- A map after changes, the later ones over the earlier ones. -/
def overwrite (now : K → Option V) (changes : List (K × Option V)) (k : K) : Option V :=
  (lastChange k changes).getD (now k)

def stamp (r : ℕ) (changes : List (K × Option V)) : Log K V := changes.map fun c => (r, c)

/-! ### Changes -/

variable (now : K → Option V) (k : K)

@[simp] lemma lastChange_nil : lastChange k ([] : List (K × Option V)) = none := rfl

lemma lastChange_append (a b : List (K × Option V)) :
    lastChange k (a ++ b) = (lastChange k b).or (lastChange k a) := by
  induction a with
  | nil => simp
  | cons c a ih => simp [lastChange, ih, Option.or_assoc]

lemma lastChange_eq_none {k : K} {changes : List (K × Option V)} :
    lastChange k changes = none ↔ ∀ c ∈ changes, c.1 ≠ k := by
  induction changes with
  | nil => simp
  | cons c cs ih => simp [lastChange, ih, and_comm]

@[simp] lemma overwrite_nil : overwrite now [] k = now k := rfl

lemma overwrite_append (a b : List (K × Option V)) (k : K) :
    overwrite now (a ++ b) k = overwrite (overwrite now a) b k := by
  simp only [overwrite, lastChange_append]
  cases lastChange k b <;> simp

lemma overwrite_singleton (c : K × Option V) (k : K) :
    overwrite now [c] k = if c.1 = k then c.2 else now k := by
  by_cases h : c.1 = k <;> simp [overwrite, lastChange, h]

/-! ### Logs -/

lemma lastUpTo_append (T : ℕ) (k : K) (a b : Log K V) :
    lastUpTo T k (a ++ b) = (lastUpTo T k b).or (lastUpTo T k a) := by
  induction a with
  | nil => simp [lastUpTo]
  | cons w a ih => simp [lastUpTo, ih, Option.or_assoc]

lemma lastUpTo_stamp (T : ℕ) (k : K) (r : ℕ) (changes : List (K × Option V)) :
    lastUpTo T k (stamp r changes) = if r ≤ T then lastChange k changes else none := by
  unfold stamp
  induction changes with
  | nil => simp [lastUpTo]
  | cons c cs ih =>
    by_cases h : r ≤ T
    · simp [lastUpTo, lastChange, ih, h]
    · simp [lastUpTo, ih, h]

lemma lastUpTo_congr {T T' : ℕ} {k : K} {log : Log K V} (h : ∀ w ∈ log, w.1 ≤ T ↔ w.1 ≤ T') :
    lastUpTo T k log = lastUpTo T' k log := by
  induction log with
  | nil => rfl
  | cons w log ih =>
    have hw := h w mem_cons_self
    simp [lastUpTo, ih fun w hw => h w (mem_cons_of_mem _ hw), hw]

lemma lastUpTo_eq_none {T : ℕ} {k : K} {log : Log K V} :
    lastUpTo T k log = none ↔ ∀ w ∈ log, w.1 ≤ T → w.2.1 ≠ k := by
  induction log with
  | nil => simp [lastUpTo]
  | cons w log ih =>
    simp only [lastUpTo, Option.or_eq_none_iff, ih, forall_mem_cons]
    by_cases hw : w.1 ≤ T <;> simp [hw, and_comm]

/-- What the log tells of the map `val` up to the revision `hi`, where it is `now`; the log is cut at `lo`. -/
structure Represents (log : Log K V) (val : ℕ → K → Option V) (now : K → Option V) (lo hi : ℕ) : Prop where
  sorted : log.Pairwise fun a b => a.1 ≤ b.1
  le : ∀ w ∈ log, w.1 ≤ hi
  present : ∀ k, val hi k = now k
  kept : ∀ T k v, T ≤ hi → lastUpTo T k log = some v → val T k = v
  moved : ∀ T k, lo < T → T ≤ hi → val T k ≠ now k → WrittenAfter log T k

/-- The map over time when it is `now` from `hi` on and `now'` from `r` on. -/
def extend {W : Type} (val : ℕ → K → W) (hi : ℕ) (now : K → W) (r : ℕ) (now' : K → W) (T : ℕ) (k : K) : W :=
  if T < hi then val T k else if T < r then now k else now' k

omit [DecidableEq K] in
lemma apply_extend {W X : Type} (f : W → X) (val : ℕ → K → W) (hi : ℕ) (now : K → W) (r : ℕ) (now' : K → W) :
    (fun T k => f (extend val hi now r now' T k)) =
      extend (fun T k => f (val T k)) hi (fun k => f (now k)) r fun k => f (now' k) := by
  funext T k
  unfold extend
  split_ifs <;> rfl

namespace Represents

variable {log : Log K V} {val : ℕ → K → Option V} {now : K → Option V} {lo hi : ℕ}

theorem unwritten (h : Represents log val now lo hi) {T : ℕ} {k : K} (hlo : lo < T) (hhi : T ≤ hi)
    (hw : ¬ WrittenAfter log T k) : val T k = now k :=
  not_not.1 fun hne => hw (h.moved T k hlo hhi hne)

lemma congr_val (h : Represents log val now lo hi) {val' : ℕ → K → Option V}
    (heq : ∀ T, T ≤ hi → ∀ k, val' T k = val T k) : Represents log val' now lo hi where
  sorted := h.sorted
  le := h.le
  present k := by rw [heq hi le_rfl, h.present]
  kept T k v hT hlast := by rw [heq T hT, h.kept T k v hT hlast]
  moved T k hlo hT hne := h.moved T k hlo hT (by rwa [heq T hT] at hne)

/-- Changes at a new revision; without changes, time passes. -/
theorem write (h : Represents log val now lo hi) {r : ℕ} (hr : hi < r) (changes : List (K × Option V))
    (now' : K → Option V) (hnow : ∀ k, now' k = overwrite now changes k) :
    Represents (log ++ stamp r changes) (extend val hi now r now') now' lo r where
  sorted := by
    refine pairwise_append.2 ⟨h.sorted, ?_, ?_⟩
    · exact pairwise_map.2 (pairwise_of_forall fun _ _ => le_rfl)
    · intro a ha b hb
      obtain ⟨c, -, rfl⟩ := mem_map.1 hb
      exact (h.le a ha).trans hr.le
  le := by
    intro w hw
    rcases mem_append.1 hw with hw | hw
    · exact (h.le w hw).trans hr.le
    · obtain ⟨c, -, rfl⟩ := mem_map.1 hw
      exact le_rfl
  present := by
    intro k
    simp [extend, not_lt.2 hr.le]
  kept := by
    intro T k v hT hlast
    rw [lastUpTo_append, lastUpTo_stamp] at hlast
    -- from `hi` on, the old log tells the present
    have hold : ∀ v, hi ≤ T → lastUpTo T k log = some v → now k = v := by
      intro v hiT hlog
      rw [← h.present]
      refine h.kept hi k v le_rfl ?_
      rw [← hlog]
      exact lastUpTo_congr fun w hw => ⟨fun h1 => h1.trans hiT, fun _ => h.le w hw⟩
    by_cases hTr : r ≤ T
    · have hhi : ¬ T < hi := by omega
      have hlt : ¬ T < r := by omega
      simp only [hTr, if_true] at hlast
      simp only [extend, hhi, hlt, if_false, hnow, overwrite]
      cases hc : lastChange k changes with
      | some v' => simpa [hc] using hlast
      | none => exact hold v (by omega) (by simpa [hc] using hlast)
    · have hlt : T < r := by omega
      have hlog : lastUpTo T k log = some v := by simpa [hTr] using hlast
      by_cases hTh : T < hi
      · simpa [extend, hTh] using h.kept T k v hTh.le hlog
      · simpa [extend, hTh, hlt] using hold v (by omega) hlog
  moved := by
    intro T k hlo hT hne
    by_cases hTr : T < r
    · by_cases hc : lastChange k changes = none
      · -- the key does not change, so the old log has the write
        have hsame : now' k = now k := by simp [hnow, overwrite, hc]
        by_cases hTh : T < hi
        · have hne' : val T k ≠ now k := by simpa [extend, hTh, hsame] using hne
          obtain ⟨w, hw, hlt, hk⟩ := h.moved T k hlo hTh.le hne'
          exact ⟨w, mem_append_left _ hw, hlt, hk⟩
        · exact absurd (by simp [extend, hTh, hTr, hsame]) hne
      · obtain ⟨c, hc, hk⟩ : ∃ c ∈ changes, c.1 = k := by
          by_contra hno
          exact hc (lastChange_eq_none.2 fun c hcm hck => hno ⟨c, hcm, hck⟩)
        exact ⟨(r, c), mem_append_right _ (mem_map_of_mem hc), hTr, hk⟩
    · have hhi : ¬ T < hi := by omega
      exact absurd (by simp [extend, hhi, hTr]) hne

theorem cut {old : Log K V} (h : Represents (old ++ log) val now lo hi) {lo' : ℕ} (hlo : lo ≤ lo')
    (hold : ∀ w ∈ old, w.1 ≤ lo') : Represents log val now lo' hi where
  sorted := (pairwise_append.1 h.sorted).2.1
  le w hw := h.le w (mem_append_right _ hw)
  present := h.present
  kept T k v hT hlast := h.kept T k v hT (by simp [lastUpTo_append, hlast])
  moved := by
    intro T k hlo' hT hne
    obtain ⟨w, hw, hlt, hk⟩ := h.moved T k (by omega) hT hne
    rcases mem_append.1 hw with hw | hw
    · have := hold w hw
      omega
    · exact ⟨w, hw, hlt, hk⟩

end Represents

end Coord.Lib.History
