import Coord.Lib.PrefixInterval
import Coord.Raft.TypeConfig

/-!
# The middle of a key range

Where a Region is to be cut, and where its keys are sampled, is the byte-wise average of its two ends.

* `midKey` — the average, with the carry going to the later bytes;
* `Apart` — what the ends of a range have to be like;
* `midKey_between_iff` — then, and only then, it lies inside the range.
-/

namespace Coord.Storage

open Coord.Lib List

/-- The bytes of the average; a missing byte of the end counts as `0xFF`. -/
def midLoop : ℕ → ℕ → Bytes → Bytes → Bytes
  | 0, _, _, _ => []
  | n + 1, carry, start, stop =>
    let sum := (start.headD 0).val + (stop.headD 0xFF).val + carry
    Fin.ofNat 256 (sum / 2) :: midLoop n (sum % 2 * 256) start.tail stop.tail

/-- The last byte, raised by one if that does not overflow. -/
def raiseLast (key : Bytes) : Bytes :=
  key.dropLast ++ (key.getLast?.map fun b => if b = 0xFF then b else b + 1).toList

def midKey (start stop : Bytes) : Bytes :=
  if start = [] ∧ stop = [] then [0x80]
  else if stop = [] ∨ stop = [0xFF] then
    -- no upper bound
    if start < [0x80] then [0x80] else start ++ [0x80]
  else
    let mid := midLoop (max start.length stop.length) 0 start stop
    if mid ≤ start then raiseLast mid else mid

/-- What follows where the end is one above the start: the half of that one does not overflow at the first place where
it is not lost to `0xFF` and `0`. -/
def Room : Bytes → Bytes → Prop
  | [], [] => False
  | [], _ :: _ => True
  | s :: _, [] => s = 0
  | s :: start, e :: stop => if s = 0xFF ∧ e = 0 then Room start stop else s.val + e.val < 256

/-- Where they first differ, the end is two above the start, or one and there is room behind; or the start is over
there, and the rest of the end is not all zeros. -/
def Apart : Bytes → Bytes → Prop
  | _, [] => False
  | [], e :: stop => 0 < e.val ∨ Apart [] stop
  | s :: start, e :: stop => s = e ∧ Apart start stop ∨ s.val + 2 ≤ e.val ∨ s.val + 1 = e.val ∧ Room start stop

lemma raise_cons_midLoop (b : Fin 256) {n carry : ℕ} (hn : n ≠ 0) (start stop : Bytes) :
    raiseLast (b :: midLoop n carry start stop) = b :: raiseLast (midLoop n carry start stop) := by
  obtain ⟨n, rfl⟩ := Nat.exists_eq_succ_of_ne_zero hn
  rfl

/-- A byte below that of the start stays at most the start when the last byte is raised. -/
lemma raiseLast_le_of_lt {b s : Fin 256} (hb : b < s) (key start : Bytes) : raiseLast (b :: key) ≤ s :: start := by
  cases key with
  | nil =>
    have hne : b ≠ 0xFF := ne_of_lt (hb.trans_le (Fin.le_last s))
    have hraise : raiseLast [b] = [b + 1] := by simp [raiseLast, hne]
    rw [hraise]
    rcases (show b + 1 ≤ s by omega).lt_or_eq with hlt | rfl
    · exact (cons_lt_cons_iff.2 (.inl hlt) : [b + 1] < s :: start).le
    · exact (cons_le_cons_iff_lex ..).2 (.inr ⟨rfl, not_lt.1 (not_lt_nil _)⟩)
  | cons a key =>
    exact (cons_lt_cons_iff.2 (.inl hb) : b :: raiseLast (a :: key) < s :: start).le

/-- The bytes after the place where the end is one above the start. -/
lemma midLoop_carry {start stop : Bytes} {n : ℕ} (hn : max start.length stop.length = n) :
    (Room start stop → start < midLoop n 256 start stop) ∧
    (¬ Room start stop → n ≠ 0 → midLoop n 256 start stop ≤ start ∧ raiseLast (midLoop n 256 start stop) ≤ start) := by
  induction start generalizing stop n with
  | nil =>
    cases stop with
    | nil => exact ⟨False.elim, fun _ h => absurd hn.symm h⟩
    | cons e stop =>
      subst hn
      exact ⟨fun _ => nil_lt_cons _ _, fun h => absurd trivial h⟩
  | cons s start ih =>
    obtain ⟨n, rfl⟩ : ∃ m, n = m + 1 := Nat.exists_eq_succ_of_ne_zero (by rw [← hn, length_cons]; omega)
    have hs := s.isLt
    cases stop with
    | nil =>
      refine ⟨fun h => ?_, fun h _ => ?_⟩
      · obtain rfl : s = 0 := h
        have hstep : midLoop (n + 1) 256 (0 :: start) [] = 0xFF :: midLoop n 256 start [] := by simp [midLoop]
        rw [hstep]
        exact cons_lt_cons_iff.2 (.inl (by decide))
      · have hpos : s.val ≠ 0 := fun h0 => h (Fin.ext h0)
        have hlt : Fin.ofNat 256 ((s.val + 255 + 256) / 2) < s := by
          rw [Fin.lt_def, Fin.val_ofNat]
          omega
        exact ⟨(cons_lt_cons_iff.2 (.inl hlt)).le, raiseLast_le_of_lt hlt _ _⟩
    | cons e stop =>
      have he := e.isLt
      rw [Room]
      split_ifs with hlost
      · obtain ⟨rfl, rfl⟩ := hlost
        obtain ⟨hroom, hnone⟩ := @ih stop n (by simp only [length_cons] at hn; omega)
        have hstep : midLoop (n + 1) 256 (0xFF :: start) (0 :: stop) = 0xFF :: midLoop n 256 start stop := by
          simp [midLoop]
        rw [hstep]
        refine ⟨fun h => cons_lt_cons_iff.2 (.inr ⟨rfl, hroom h⟩), fun h _ => ?_⟩
        by_cases hn : n = 0
        · subst hn
          exact ⟨(cons_le_cons_iff_lex ..).2 (.inr ⟨rfl, not_lt.1 (not_lt_nil _)⟩),
            (cons_le_cons_iff_lex ..).2 (.inr ⟨rfl, not_lt.1 (not_lt_nil _)⟩)⟩
        · obtain ⟨hle, hraise⟩ := hnone h hn
          rw [raise_cons_midLoop _ hn]
          exact ⟨(cons_le_cons_iff_lex ..).2 (.inr ⟨rfl, hle⟩), (cons_le_cons_iff_lex ..).2 (.inr ⟨rfl, hraise⟩)⟩
      · refine ⟨fun h => cons_lt_cons_iff.2 (.inl ?_), fun h _ => ?_⟩
        · have hkeep : ¬ (s.val = 255 ∧ e.val = 0) := fun hse => hlost ⟨Fin.ext hse.1, Fin.ext hse.2⟩
          show s < Fin.ofNat 256 ((s.val + e.val + 256) / 2)
          rw [Fin.lt_def, Fin.val_ofNat]
          omega
        · have hlt : Fin.ofNat 256 ((s.val + e.val + 256) / 2) < s := by
            rw [Fin.lt_def, Fin.val_ofNat]
            omega
          exact ⟨(cons_lt_cons_iff.2 (.inl hlt)).le, raiseLast_le_of_lt hlt _ _⟩

lemma midLoop_nil_lt_iff {stop : Bytes} : midLoop stop.length 0 [] stop < stop ↔ Apart [] stop := by
  induction stop with
  | nil => exact iff_of_false (lt_irrefl _) id
  | cons e stop ih =>
    have he := e.isLt
    by_cases hpos : 0 < e.val
    · refine iff_of_true (cons_lt_cons_iff.2 (.inl ?_)) (.inl hpos)
      show Fin.ofNat 256 ((0 + e.val + 0) / 2) < e
      rw [Fin.lt_def, Fin.val_ofNat]
      omega
    · obtain rfl : e = 0 := Fin.ext (by simpa using hpos)
      have hstep : midLoop (stop.length + 1) 0 [] (0 :: stop) = 0 :: midLoop stop.length 0 [] stop := by simp [midLoop]
      rw [length_cons, hstep, cons_lt_cons_iff, ih]
      simp [Apart]

/-- **Where the ends are bytes**, the average with its last byte raised lies inside just when the ends are apart. -/
lemma midLoop_inside_iff {start stop : Bytes} {n : ℕ} (hn : max start.length stop.length = n) (hlt : start < stop) :
    let mid := if midLoop n 0 start stop ≤ start then raiseLast (midLoop n 0 start stop) else midLoop n 0 start stop
    (start < mid ∧ mid < stop) ↔ Apart start stop := by
  induction start generalizing stop n with
  | nil =>
    cases stop with
    | nil => cases hlt
    | cons e stop =>
      obtain rfl : (e :: stop).length = n := by simpa using hn
      have hpos : [] < midLoop (e :: stop).length 0 [] (e :: stop) := nil_lt_cons _ _
      dsimp only
      rw [if_neg (not_le.2 hpos), midLoop_nil_lt_iff]
      exact and_iff_right hpos
  | cons s start ih =>
    obtain ⟨e, stop, rfl⟩ := exists_cons_of_ne_nil (l := stop) (by rintro rfl; cases hlt)
    obtain ⟨n, rfl⟩ : ∃ m, n = m + 1 := Nat.exists_eq_succ_of_ne_zero (by rw [← hn, length_cons]; omega)
    have hn' : max start.length stop.length = n := by simp only [length_cons] at hn; omega
    have hs := s.isLt
    have he := e.isLt
    have hstep : midLoop (n + 1) 0 (s :: start) (e :: stop) = Fin.ofNat 256 ((s.val + e.val + 0) / 2) ::
      midLoop n ((s.val + e.val + 0) % 2 * 256) start stop := rfl
    rw [hstep]
    rcases cons_lt_cons_iff.1 hlt with hse | ⟨rfl, hrest⟩
    · rw [Fin.lt_def] at hse
      by_cases htwo : s.val + 2 ≤ e.val
      · refine iff_of_true ?_ (.inr (.inl htwo))
        have hlo : s < Fin.ofNat 256 ((s.val + e.val + 0) / 2) := by rw [Fin.lt_def, Fin.val_ofNat]; omega
        have hhi : Fin.ofNat 256 ((s.val + e.val + 0) / 2) < e := by rw [Fin.lt_def, Fin.val_ofNat]; omega
        rw [if_neg (not_le.2 (cons_lt_cons_iff.2 (.inl hlo)))]
        exact ⟨cons_lt_cons_iff.2 (.inl hlo), cons_lt_cons_iff.2 (.inl hhi)⟩
      · have hone : s.val + 1 = e.val := by omega
        have hhead : Fin.ofNat 256 ((s.val + e.val + 0) / 2) = s := by
          ext
          rw [Fin.val_ofNat]
          omega
        have hcarry : (s.val + e.val + 0) % 2 * 256 = 256 := by omega
        rw [hhead, hcarry]
        obtain ⟨hroom, hnone⟩ := midLoop_carry hn'
        have hapart : Apart (s :: start) (e :: stop) ↔ Room start stop := by
          have hne : s ≠ e := fun h => by rw [h] at hone; omega
          simp [Apart, hne, htwo, hone]
        rw [hapart]
        by_cases h : Room start stop
        · have hlo : s :: start < s :: midLoop n 256 start stop := cons_lt_cons_iff.2 (.inr ⟨rfl, hroom h⟩)
          rw [if_neg (not_le.2 hlo)]
          exact iff_of_true ⟨hlo, cons_lt_cons_iff.2 (.inl hse)⟩ h
        · refine iff_of_false ?_ h
          by_cases hn0 : n = 0
          · -- both keys end here, and the last byte is raised to that of the end
            subst hn0
            obtain ⟨hstart, hstop⟩ := Nat.max_eq_zero_iff.1 hn'
            obtain rfl := length_eq_zero_iff.1 hstart
            obtain rfl := length_eq_zero_iff.1 hstop
            have hne : s ≠ 0xFF := fun h => by rw [h] at hone; exact absurd hone he.ne'
            have hsucc : s + 1 = e := by omega
            simp [midLoop, raiseLast, hne, hsucc]
          · obtain ⟨hle, hraise⟩ := hnone h hn0
            rw [if_pos ((cons_le_cons_iff_lex ..).2 (.inr ⟨rfl, hle⟩)), raise_cons_midLoop _ hn0]
            exact fun hin => not_lt.2 ((cons_le_cons_iff_lex ..).2 (.inr ⟨rfl, hraise⟩)) hin.1
    · have hhead : Fin.ofNat 256 ((s.val + s.val + 0) / 2) = s := by
        ext
        rw [Fin.val_ofNat]
        omega
      have hcarry : (s.val + s.val + 0) % 2 * 256 = 0 := by omega
      have hn0 : n ≠ 0 := by
        rintro rfl
        obtain rfl := length_eq_zero_iff.1 (Nat.max_eq_zero_iff.1 hn').2
        exact not_lt_nil _ hrest
      have hle : s :: midLoop n 0 start stop ≤ s :: start ↔ midLoop n 0 start stop ≤ start := by
        simp [cons_le_cons_iff_lex]
      have happly := apply_ite (s :: ·) (midLoop n 0 start stop ≤ start)
      dsimp only at happly ⊢
      rw [hhead, hcarry, raise_cons_midLoop _ hn0, if_congr hle rfl rfl, ← happly, cons_lt_cons_iff, cons_lt_cons_iff]
      simpa [Apart] using ih hn' hrest

lemma lt_append_singleton (key : Bytes) (b : Fin 256) : key < key ++ [b] := by
  induction key with
  | nil => exact nil_lt_cons _ _
  | cons a key ih => exact cons_lt_cons_iff.2 (.inr ⟨rfl, ih⟩)

/-- **The middle of a range lies inside it** just when the range has no upper bound, ends at `0xFF`, or has its ends
apart. -/
theorem midKey_between_iff {start stop : Bytes} (hlt : stop = [] ∨ start < stop) :
    (start < midKey start stop ∧ (stop = [] ∨ midKey start stop < stop)) ↔
      stop = [] ∨ stop = [0xFF] ∨ Apart start stop := by
  by_cases hopen : stop = [] ∨ stop = [0xFF]
  · refine iff_of_true ?_ (or_assoc.1 (.inl hopen))
    unfold midKey
    split_ifs with hempty hlow
    · rw [hempty.1]
      exact ⟨nil_lt_cons _ _, .inl hempty.2⟩
    · refine ⟨hlow, hopen.imp_right fun h => ?_⟩
      rw [h]
      decide
    · refine ⟨lt_append_singleton start _, hopen.imp_right fun h => ?_⟩
      subst h
      cases start with
      | nil => exact absurd (nil_lt_cons _ _) hlow
      | cons s start =>
        -- a key below `0xFF` has its first byte below it
        rcases cons_lt_cons_iff.1 (hlt.resolve_left nofun) with hs | ⟨-, hs⟩
        · exact cons_lt_cons_iff.2 (.inl hs)
        · exact absurd hs (not_lt_nil _)
  · obtain ⟨hne, hff⟩ := not_or.1 hopen
    have hmid := midLoop_inside_iff rfl (hlt.resolve_left hne)
    simpa only [midKey, hne, hff, and_false, or_self, if_false, false_or] using hmid

/-- The ends `[0x61, 0]` and `[0x62, 0x80]` have room, `[0x61, 0xFF]` and `[0x62, 1]` do not. -/
theorem midKey_between_iff_letters :
    (([0x61, 0] : Bytes) < midKey [0x61, 0] [0x62, 0x80] ∧ midKey [0x61, 0] [0x62, 0x80] < [0x62, 0x80]) ∧
    ¬ (([0x61, 0xFF] : Bytes) < midKey [0x61, 0xFF] [0x62, 1] ∧ midKey [0x61, 0xFF] [0x62, 1] < [0x62, 1]) := by
  have hyes := (@midKey_between_iff [0x61, 0] [0x62, 0x80] (.inr (by decide))).2
    (.inr (.inr (.inr (.inr ⟨rfl, show 0 + 0x80 < 256 by decide⟩))))
  refine ⟨⟨hyes.1, hyes.2.resolve_left nofun⟩, fun hin => ?_⟩
  have hno := (@midKey_between_iff [0x61, 0xFF] [0x62, 1] (.inr (by decide))).1 ⟨hin.1, .inr hin.2⟩
  simp [Apart, Room] at hno

/-- With `[0x61, 0]` in between, the middle is the end; with `[0x61, 0xFF, 0]`, it is below the start. -/
theorem midKey_outside : (([0x61] : Bytes) < [0x61, 0] ∧ ([0x61, 0] : Bytes) < [0x62] ∧ midKey [0x61] [0x62] = [0x62]) ∧
    ([0x61, 0xFF] : Bytes) < [0x61, 0xFF, 0] ∧ ([0x61, 0xFF, 0] : Bytes) < [0x62] ∧
      midKey [0x61, 0xFF] [0x62] < [0x61, 0xFF] := by
  decide

end Coord.Storage
