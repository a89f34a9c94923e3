import Mathlib

/-!
# Arithmetic of GF(2^8)

The bytes with addition `xor` and the multiplication of polynomials over GF(2) modulo `x^8 + x^4 + x^3 + x + 1`, as
the shift-and-xor loop and the power `x^254` compute them.  The laws of a field come from one fact: the product is
additive in both factors, so two such expressions agree when they agree on the eight powers of two.
-/

namespace Coord.Security.Gf256

abbrev U8 := BitVec 8

/-- Addition is `xor`. -/
def add (a b : U8) : U8 := a ^^^ b

/-- Multiplication by `x`: a shift, reduced when the top bit falls out. -/
def double (a : U8) : U8 := if a &&& 0x80 ≠ 0 then a <<< 1 ^^^ 0x1B else a <<< 1

/-- The rounds of the multiplication, with the product so far. -/
def mulRounds : ℕ → U8 → U8 → U8 → U8
  | 0, _, _, p => p
  | n + 1, a, b, p => mulRounds n (double a) (b >>> 1) (if b &&& 1 ≠ 0 then p ^^^ a else p)

def mul (a b : U8) : U8 := mulRounds 8 a b 0

/-- The inverse as `x^254`. -/
def inv (x : U8) : Option U8 :=
  if x = 0 then none
  else
    let x2 := mul x x
    let x4 := mul x2 x2
    let x8 := mul x4 x4
    let x16 := mul x8 x8
    let x32 := mul x16 x16
    let x64 := mul x32 x32
    let x128 := mul x64 x64
    some (mul (mul (mul (mul (mul (mul x128 x64) x32) x16) x8) x4) x2)

/-- Division; there is none by `0`. -/
def div (a b : U8) : Option U8 :=
  if b = 0 then none
  else if a = 0 then some 0
  else (inv b).map (mul a)

/-! ### The product is additive -/

variable (a b : U8)

lemma xor_xor_xor_comm (c d : U8) : (a ^^^ b) ^^^ (c ^^^ d) = (a ^^^ c) ^^^ (b ^^^ d) := by ac_rfl

lemma double_xor : double (a ^^^ b) = double a ^^^ double b := by
  have hdouble : ∀ a, double a = a <<< 1 ^^^ (if a.getLsbD 7 then 0x1B else 0) := by decide +kernel
  have hreduce : ∀ x y : Bool, (if (x ^^ y) then (0x1B : U8) else 0) =
      (if x then 0x1B else 0) ^^^ (if y then 0x1B else 0) := by decide
  rw [hdouble, hdouble, hdouble, BitVec.getLsbD_xor, BitVec.shiftLeft_xor_distrib, hreduce, xor_xor_xor_comm]

lemma mulRounds_xor_left (n : ℕ) (a a' b p p' : U8) :
    mulRounds n (a ^^^ a') b (p ^^^ p') = mulRounds n a b p ^^^ mulRounds n a' b p' := by
  induction n generalizing a a' b p p' with
  | zero => rfl
  | succ n ih =>
    simp only [mulRounds, double_xor]
    split
    · rw [xor_xor_xor_comm, ih]
    · rw [ih]

lemma and_one_ne_zero_iff : b &&& 1 ≠ 0 ↔ b.getLsbD 0 = true := by
  revert b
  decide +kernel

lemma mulRounds_xor_right (n : ℕ) (a b b' p p' : U8) :
    mulRounds n a (b ^^^ b') (p ^^^ p') = mulRounds n a b p ^^^ mulRounds n a b' p' := by
  induction n generalizing a b b' p p' with
  | zero => rfl
  | succ n ih =>
    simp only [mulRounds, and_one_ne_zero_iff, BitVec.getLsbD_xor, BitVec.ushiftRight_xor_distrib, ← ih]
    congr 1
    cases b.getLsbD 0 <;> cases b'.getLsbD 0
    · rfl
    · show p ^^^ p' ^^^ a = p ^^^ (p' ^^^ a)
      ac_rfl
    · show p ^^^ p' ^^^ a = p ^^^ a ^^^ p'
      ac_rfl
    · show p ^^^ p' = p ^^^ a ^^^ (p' ^^^ a)
      rw [xor_xor_xor_comm, BitVec.xor_self, BitVec.xor_zero]

lemma mul_xor_left (a' b : U8) : mul (a ^^^ a') b = mul a b ^^^ mul a' b := mulRounds_xor_left 8 a a' b 0 0

lemma mul_xor_right (b' : U8) : mul a (b ^^^ b') = mul a b ^^^ mul a b' := mulRounds_xor_right 8 a b b' 0 0

/-- The power `x^i`, for `i < 8`. -/
def bit (i : ℕ) : U8 := 1#8 <<< i

/-- The sum of the powers in a byte, of those of a list. -/
def sumBits (b : U8) (l : List ℕ) : U8 := l.foldr (fun i acc => (if b.getLsbD i then bit i else 0) ^^^ acc) 0

lemma eq_sumBits : b = sumBits b (List.range 8) := by
  revert b
  decide +kernel

theorem eq_of_additive {f g : U8 → U8} (hf : ∀ a b, f (a ^^^ b) = f a ^^^ f b) (hg : ∀ a b, g (a ^^^ b) = g a ^^^ g b)
    (h : ∀ i : Fin 8, f (bit i) = g (bit i)) (b : U8) : f b = g b := by
  have hzero : ∀ {f : U8 → U8}, (∀ a b, f (a ^^^ b) = f a ^^^ f b) → f 0 = 0 := by
    intro f hf
    have h0 := hf 0 0
    rwa [BitVec.xor_self, BitVec.xor_self] at h0
  -- along the list of bits, the two functions agree on every partial sum
  have hsum : ∀ l : List ℕ, (∀ i ∈ l, i < 8) → f (sumBits b l) = g (sumBits b l) := by
    intro l hl
    induction l with
    | nil => exact (hzero hf).trans (hzero hg).symm
    | cons i l ih =>
      rw [sumBits, List.foldr_cons, hf, hg, ← sumBits, ih fun j hj => hl j (List.mem_cons_of_mem _ hj)]
      congr 1
      split
      · exact h ⟨i, hl i List.mem_cons_self⟩
      · exact (hzero hf).trans (hzero hg).symm
  rw [eq_sumBits b]
  exact hsum (List.range 8) fun i hi => List.mem_range.1 hi

/-! ### The laws of a field -/

lemma mul_comm : mul a b = mul b a := by
  refine eq_of_additive (f := fun b => mul a b) (g := fun b => mul b a) (mul_xor_right a)
    (fun b b' => mul_xor_left b b' a) (fun i => ?_) b
  exact eq_of_additive (f := fun a => mul a (bit i)) (g := fun a => mul (bit i) a)
    (fun a a' => mul_xor_left a a' _) (mul_xor_right _) (by revert i; decide +kernel) a

lemma mul_assoc (c : U8) : mul (mul a b) c = mul a (mul b c) := by
  refine eq_of_additive (f := fun c => mul (mul a b) c) (g := fun c => mul a (mul b c)) (mul_xor_right _)
    (fun c c' => by simp only [mul_xor_right]) (fun i => ?_) c
  refine eq_of_additive (f := fun b => mul (mul a b) (bit i)) (g := fun b => mul a (mul b (bit i)))
    (fun b b' => by simp only [mul_xor_right, mul_xor_left]) (fun b b' => by simp only [mul_xor_right, mul_xor_left])
    (fun j => ?_) b
  exact eq_of_additive (f := fun a => mul (mul a (bit j)) (bit i))
    (g := fun a => mul a (mul (bit j) (bit i)))
    (fun a a' => by simp only [mul_xor_left]) (fun a a' => by simp only [mul_xor_left])
    (by revert i j; decide +kernel) a

lemma mul_one : mul a 1 = a :=
  eq_of_additive (f := fun a => mul a 1) (g := id) (fun a a' => mul_xor_left a a' 1) (fun _ _ => rfl)
    (by decide +kernel) a

lemma mul_zero : mul a 0 = 0 :=
  eq_of_additive (f := fun a => mul a 0) (g := fun _ => 0) (fun a a' => mul_xor_left a a' 0) (fun _ _ => rfl)
    (by decide +kernel) a

lemma square_xor : mul (a ^^^ b) (a ^^^ b) = mul a a ^^^ mul b b := by
  rw [mul_xor_left, mul_xor_right, mul_xor_right, mul_comm b a, xor_xor_xor_comm,
    BitVec.xor_comm (mul a b) (mul b b), xor_xor_xor_comm (mul a a), BitVec.xor_self, BitVec.xor_zero]

/-! ### The field -/

@[ext]
structure Byte where
  val : U8
  deriving DecidableEq

namespace Byte

instance : Zero Byte := ⟨⟨0⟩⟩

instance : One Byte := ⟨⟨1⟩⟩

instance : Add Byte := ⟨fun a b => ⟨add a.val b.val⟩⟩

instance : Neg Byte := ⟨fun a => a⟩

instance : Mul Byte := ⟨fun a b => ⟨mul a.val b.val⟩⟩

instance : CommRing Byte where
  nsmul := nsmulRec
  zsmul := zsmulRec
  add_assoc a b c := Byte.ext (BitVec.xor_assoc a.val b.val c.val)
  zero_add a := Byte.ext BitVec.zero_xor
  add_zero a := Byte.ext BitVec.xor_zero
  neg_add_cancel a := Byte.ext BitVec.xor_self
  add_comm a b := Byte.ext (BitVec.xor_comm a.val b.val)
  mul_assoc a b c := Byte.ext (mul_assoc a.val b.val c.val)
  mul_comm a b := Byte.ext (mul_comm a.val b.val)
  one_mul a := Byte.ext ((mul_comm 1 a.val).trans (mul_one a.val))
  mul_one a := Byte.ext (mul_one a.val)
  zero_mul a := Byte.ext ((mul_comm 0 a.val).trans (mul_zero a.val))
  mul_zero a := Byte.ext (mul_zero a.val)
  left_distrib a b c := Byte.ext (mul_xor_right a.val b.val c.val)
  right_distrib a b c := Byte.ext (mul_xor_left a.val b.val c.val)

variable (a b : Byte)

@[simp] lemma val_add : (a + b).val = add a.val b.val := rfl

@[simp] lemma val_mul : (a * b).val = mul a.val b.val := rfl

@[simp] lemma val_zero : (0 : Byte).val = 0 := rfl

@[simp] lemma mk_zero : (⟨0#8⟩ : Byte) = 0 := rfl

@[simp] lemma val_one : (1 : Byte).val = 1 := rfl

lemma sub_eq_add : a - b = a + b := sub_eq_add_neg a b

lemma square_add : (a + b) ^ 2 = a ^ 2 + b ^ 2 := by
  simp only [pow_two]
  exact Byte.ext (square_xor a.val b.val)

/-- Squaring eight times is additive and the identity on the basis. -/
lemma pow_card : a ^ 256 = a := by
  have hpow : ∀ a : Byte, a ^ 256 = (((((((a ^ 2) ^ 2) ^ 2) ^ 2) ^ 2) ^ 2) ^ 2) ^ 2 := fun a => by ring
  refine Byte.ext (eq_of_additive (f := fun a => (Byte.mk a ^ 256).val) (g := id) (fun a b => ?_)
    (fun _ _ => rfl) ?_ a.val)
  · have hadd : Byte.mk (a ^^^ b) = ⟨a⟩ + ⟨b⟩ := rfl
    simp only [hadd, hpow, square_add]
    rfl
  · simp only [hpow, pow_two]
    decide +kernel

lemma eq_zero_or_one_of_square {a : Byte} (h : a * a = a) : a = 0 ∨ a = 1 := by
  have hbytes : ∀ a : U8, mul a a = a → a = 0 ∨ a = 1 := by decide +kernel
  exact (hbytes a.val (congrArg Byte.val h)).imp Byte.ext Byte.ext

lemma mul_pow_eq_one {a : Byte} (ha : a ≠ 0) : a * a ^ 254 = 1 := by
  have hsquare : (a * a ^ 254) * (a * a ^ 254) = a * a ^ 254 := by
    calc (a * a ^ 254) * (a * a ^ 254) = a ^ 256 * a ^ 254 := by ring
      _ = a * a ^ 254 := by rw [pow_card]
  rcases eq_zero_or_one_of_square hsquare with h0 | h1
  · refine absurd ?_ ha
    calc a = a ^ 256 := (pow_card a).symm
      _ = (a * a ^ 254) * a := by ring
      _ = 0 := by rw [h0, zero_mul]
  · exact h1

lemma inv_val (ha : a ≠ 0) : inv a.val = some (a ^ 254).val := by
  have hne : a.val ≠ 0 := fun h => ha (Byte.ext h)
  have hpow : a ^ 254 = (((((((((((((a ^ 2) ^ 2) ^ 2) ^ 2) ^ 2) ^ 2) ^ 2) * ((((((a ^ 2) ^ 2) ^ 2) ^ 2) ^ 2) ^ 2)) *
      (((((a ^ 2) ^ 2) ^ 2) ^ 2) ^ 2)) * ((((a ^ 2) ^ 2) ^ 2) ^ 2)) * (((a ^ 2) ^ 2) ^ 2)) * ((a ^ 2) ^ 2)) * a ^ 2) := by
    ring
  rw [inv, if_neg hne, hpow]
  simp only [pow_two, val_mul]

instance : Field Byte where
  inv a := a ^ 254
  exists_pair_ne := ⟨0, 1, by decide⟩
  mul_inv_cancel a ha := mul_pow_eq_one ha
  inv_zero := by decide +kernel
  nnqsmul := _
  nnqsmul_def := fun _ _ => rfl
  qsmul := _
  qsmul_def := fun _ _ => rfl

lemma div_val (hb : b ≠ 0) : div a.val b.val = some (a / b).val := by
  have hne : b.val ≠ 0 := fun h => hb (Byte.ext h)
  rw [div, if_neg hne, inv_val b hb]
  split
  · next h0 =>
    rw [show a = 0 from Byte.ext h0, zero_div]
    rfl
  · rw [div_eq_mul_inv]
    rfl

end Byte

end Coord.Security.Gf256
