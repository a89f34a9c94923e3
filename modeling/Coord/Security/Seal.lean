import Coord.Lib.Sharing
import Coord.Security.Gf256

/-!
# Shamir's secret sharing of the root key

Each byte of the root key is the constant term of a polynomial over GF(2^8) of its own; a share is a point of all of
them.  What the source draws from the system's generator is a list of draws here, and a draw that is missing stops the
split: `none`.
-/

namespace Coord.Security

open Gf256 (U8 Byte)
open List hiding Vector getElem?_eq_getElem map_cons map_map mem_range sum_range_succ toList_toArray
open BitVec Option Finset Polynomial

abbrev rootKeyLen : ℕ := 32

abbrev RootKey := Vector U8 rootKeyLen

inductive SealError where
  | nZero
  | thresholdOutOfRange (k n : U8)
  | insufficientShares (given need : ℕ)
  | incompatibleShares (threshold total threshold' total' : U8)
  | duplicateX (x index index' : U8)
  | divisionByZero
  | shareLength (length : ℕ)
  | unsupportedVersion (version : U8)
  | checksumMismatch
  | invalidIndex (index total : U8)
  | invalidThreshold (threshold total : U8)
  | zeroX
  deriving DecidableEq

structure Share where
  index : U8
  threshold : U8
  total : U8
  x : U8
  y : RootKey
  deriving DecidableEq

/-! ### The binary format -/

def shareVersion : U8 := 1

/-- Version, index, threshold, total, `x`, the bytes and the checksum. -/
def shareBytesLen : ℕ := 1 + 1 + 1 + 1 + 1 + rootKeyLen + 4

section

-- the digest is SHA-256
variable (digest : List U8 → Vector U8 32)

def computeChecksum (data : List U8) : List U8 := (digest data).toList.take 4

def Share.body (s : Share) : List U8 := [shareVersion, s.index, s.threshold, s.total, s.x] ++ s.y.toList

def Share.toBytes (s : Share) : List U8 := s.body ++ computeChecksum digest s.body

def Share.fromBytes (bytes : List U8) : Except SealError Share :=
  if bytes.length ≠ shareBytesLen then .error (.shareLength bytes.length)
  else
    let version := bytes.getD 0 0
    if version ≠ shareVersion then .error (.unsupportedVersion version)
    else
      let index := bytes.getD 1 0
      let threshold := bytes.getD 2 0
      let total := bytes.getD 3 0
      let x := bytes.getD 4 0
      let y : RootKey := Vector.ofFn fun i : Fin rootKeyLen => bytes.getD (5 + i) 0
      if bytes.drop (5 + rootKeyLen) ≠ computeChecksum digest (bytes.take (5 + rootKeyLen)) then
        .error .checksumMismatch
      else if index = 0 ∨ total < index then .error (.invalidIndex index total)
      else if threshold = 0 ∨ total < threshold then .error (.invalidThreshold threshold total)
      else if x = 0 then .error .zeroX
      else .ok ⟨index, threshold, total, x, y⟩

end

/-! ### Splitting -/

/-- The outcomes of `next_u32`, in order. -/
abbrev Draws := List (BitVec 32)

/-- The rounds of the shuffle, from position `i - 1` down. -/
def shuffle : ℕ → Array U8 → Draws → Option (Array U8 × Draws)
  | 0, xs, draws => some (xs, draws)
  | _ + 1, _, [] => none
  | i + 1, xs, draw :: draws => shuffle i (xs.swapIfInBounds i (draw.toNat % (i + 1))) draws

/-- `n` coordinates that are not zero: the head of a shuffle of `1..=255`. -/
def generateXCoordinates (n : ℕ) (draws : Draws) : Option (List U8 × Draws) :=
  (shuffle n ((List.range 255).map fun i => BitVec.ofNat 8 (i + 1)).toArray draws).map fun r => (r.1.toList.take n, r.2)

def nextCoefficient : Draws → Option (U8 × Draws)
  | [] => none
  | draw :: draws => if draw.setWidth 8 = 0 then nextCoefficient draws else some (draw.setWidth 8, draws)

def nextCoefficients : ℕ → Draws → Option (List U8 × Draws)
  | 0, draws => some ([], draws)
  | n + 1, draws => do
    let (c, draws) ← nextCoefficient draws
    let (cs, draws) ← nextCoefficients n draws
    some (c :: cs, draws)

/-- The coefficients of the polynomial of each byte, below the threshold; the byte is the constant term. -/
def polynomials (k : ℕ) : List U8 → Draws → Option (List (List U8) × Draws)
  | [], draws => some ([], draws)
  | byte :: secret, draws => do
    let (cs, draws) ← nextCoefficients (k - 1) draws
    let (polys, draws) ← polynomials k secret draws
    some ((byte :: cs) :: polys, draws)

def evaluatePolynomial (coeffs : List U8) (degree : ℕ) (x : U8) : U8 :=
  (List.range degree).reverse.foldl (fun result i => Gf256.add (Gf256.mul result x) (coeffs.getD i 0)) 0

def makeShare (n k : U8) (coeffs : List (List U8)) (x : U8) (position : ℕ) : Share :=
  ⟨BitVec.ofNat 8 (position + 1), k, n, x,
    Vector.ofFn fun b : Fin rootKeyLen => evaluatePolynomial (coeffs.getD b []) k.toNat x⟩

def splitSecret (secret : RootKey) (n k : U8) (draws : Draws) : Except SealError (Option (List Share)) :=
  if n = 0 then .error .nZero
  else if k = 0 ∨ n < k then .error (.thresholdOutOfRange k n)
  else .ok <| do
    let (xs, draws) ← generateXCoordinates n.toNat draws
    let (coeffs, _) ← polynomials k.toNat secret.toList draws
    some (xs.zipIdx.map fun p => makeShare n k coeffs p.1 p.2)

/-! ### Recovery -/

def duplicateX : List Share → Option (Share × Share)
  | [] => none
  | s :: rest =>
    match rest.find? fun s' => decide (s.x = s'.x) with
    | some s' => some (s, s')
    | none => duplicateX rest

def xAt (used : List Share) (j : ℕ) : U8 := ((used[j]?).map Share.x).getD 0

/-- The value of the share at a position, for a byte of the key. -/
def yAt (used : List Share) (j : ℕ) (b : Fin rootKeyLen) : U8 := ((used[j]?).map fun s => s.y[b]).getD 0

/-- Numerator and denominator of the basis polynomial `i` at zero. -/
def lagrangeFraction (used : List Share) (k i : ℕ) : U8 × U8 :=
  (List.range k).foldl (fun p j => if i = j then p
    else (Gf256.mul p.1 (xAt used j), Gf256.mul p.2 (Gf256.add (xAt used i) (xAt used j)))) (1, 1)

def lagrangeBasis (used : List Share) (k : ℕ) : Option (List U8) :=
  (List.range k).mapM fun i => Gf256.div (lagrangeFraction used k i).1 (lagrangeFraction used k i).2

def recoverSecret (shares : List Share) : Except SealError RootKey :=
  match shares with
  | [] => .error (.insufficientShares 0 1)
  | first :: rest =>
    match rest.find? fun s => decide (s.threshold ≠ first.threshold ∨ s.total ≠ first.total) with
    | some s => .error (.incompatibleShares first.threshold first.total s.threshold s.total)
    | none =>
      let k := first.threshold.toNat
      if shares.length < k then .error (.insufficientShares shares.length k)
      else match duplicateX shares with
      | some (s, s') => .error (.duplicateX s.x s.index s'.index)
      | none =>
        let used := shares.take k
        match lagrangeBasis used k with
        | none => .error .divisionByZero
        | some basis => .ok <| Vector.ofFn fun b =>
          (List.range k).foldl (fun acc i => Gf256.add acc (Gf256.mul (basis.getD i 0) (yAt used i b))) 0

/-! ### The format, read back -/

structure Share.WellFormed (s : Share) : Prop where
  index : s.index ≠ 0 ∧ s.index ≤ s.total
  threshold : s.threshold ≠ 0 ∧ s.threshold ≤ s.total
  x : s.x ≠ 0

lemma Share.length_body (s : Share) : s.body.length = 5 + rootKeyLen := by simp [body, rootKeyLen]

lemma Share.body_getD (s : Share) (rest : List U8) (i : Fin rootKeyLen) :
    (s.body ++ rest).getD (5 + i) 0 = s.y[i] := by
  have hlt : 5 + (i : ℕ) < s.body.length := by rw [s.length_body]; omega
  rw [getD_eq_getElem?_getD, getElem?_append_left hlt, Share.body, getElem?_append_right (by simp)]
  simp

lemma Share.fromBytes_toBytes (digest : List U8 → Vector U8 32) {s : Share} (h : s.WellFormed) :
    fromBytes digest (s.toBytes digest) = .ok s := by
  have hlen : (s.toBytes digest).length = shareBytesLen := by
    simp [toBytes, length_body, computeChecksum, shareBytesLen]
  have hdrop : (s.toBytes digest).drop (5 + rootKeyLen) = computeChecksum digest s.body :=
    drop_left' s.length_body
  have htake : (s.toBytes digest).take (5 + rootKeyLen) = s.body := take_left' s.length_body
  have hy : (Vector.ofFn fun i : Fin rootKeyLen => (s.toBytes digest).getD (5 + i) 0) = s.y := by
    refine Vector.ext fun i hi => ?_
    rw [Vector.getElem_ofFn]
    exact s.body_getD _ ⟨i, hi⟩
  have hindex : ¬ (s.index = 0 ∨ s.total < s.index) := not_or.2 ⟨h.index.1, BitVec.not_lt.2 h.index.2⟩
  have hthreshold : ¬ (s.threshold = 0 ∨ s.total < s.threshold) :=
    not_or.2 ⟨h.threshold.1, BitVec.not_lt.2 h.threshold.2⟩
  unfold fromBytes
  rw [if_neg (not_not.2 hlen)]
  dsimp only
  rw [hdrop, htake, hy]
  have hhead : ∀ i, i < 5 → (s.toBytes digest).getD i 0 =
      [shareVersion, s.index, s.threshold, s.total, s.x].getD i 0 := by
    intro i hi
    rw [toBytes, getD_eq_getElem?_getD, getElem?_append_left (by rw [length_body]; omega), body,
      getElem?_append_left hi, ← getD_eq_getElem?_getD]
  rw [hhead 0 (by decide), hhead 1 (by decide), hhead 2 (by decide), hhead 3 (by decide), hhead 4 (by decide)]
  simp only [getD_cons_zero, getD_cons_succ, ne_eq, not_true, if_false, hindex, hthreshold, h.x]

/-! ### The coordinates -/

variable {draws draws' : Draws} {k : ℕ} {used shares : List Share} {n : U8}

lemma shuffle_perm {i : ℕ} {xs xs' : Array U8} (h : shuffle i xs draws = some (xs', draws')) :
    xs'.toList.Perm xs.toList := by
  induction i generalizing xs draws with
  | zero =>
    cases h
    exact List.Perm.refl _
  | succ i ih =>
    cases draws with
    | nil => cases h
    | cons draw draws =>
      have hswap : (xs.swapIfInBounds i (draw.toNat % (i + 1))).toList.Perm xs.toList := by
        unfold Array.swapIfInBounds
        split
        · split
          · exact (Array.swap_perm _ _).toList
          · exact List.Perm.refl _
        · exact List.Perm.refl _
      exact (ih h).trans hswap

lemma exists_shuffle {i : ℕ} (xs : Array U8) (h : i ≤ draws.length) :
    ∃ xs', shuffle i xs draws = some (xs', draws.drop i) := by
  induction i generalizing xs draws with
  | zero => exact ⟨xs, rfl⟩
  | succ i ih =>
    cases draws with
    | nil => cases h
    | cons draw draws => exact ih _ (Nat.le_of_succ_le_succ h)

lemma generateXCoordinates_ok {n : ℕ} (hn : n ≤ 255) {xs : List U8}
    (h : generateXCoordinates n draws = some (xs, draws')) : xs.length = n ∧ xs.Nodup ∧ ∀ x ∈ xs, x ≠ 0 := by
  obtain ⟨⟨ys, ds⟩, hys, he⟩ := map_eq_some_iff.1 h
  cases he
  have hperm := shuffle_perm hys
  rw [List.toList_toArray] at hperm
  have hnat : ∀ i ∈ List.range 255, (BitVec.ofNat 8 (i + 1)).toNat = i + 1 := by
    intro i hi
    have := List.mem_range.1 hi
    rw [toNat_ofNat, Nat.mod_eq_of_lt (by omega)]
  have hnodup : ((List.range 255).map fun i => BitVec.ofNat 8 (i + 1)).Nodup := by
    refine nodup_range.map_on fun i hi j hj hij => ?_
    have := congrArg BitVec.toNat hij
    rw [hnat i hi, hnat j hj] at this
    omega
  have hzero : ∀ x ∈ (List.range 255).map fun i => BitVec.ofNat 8 (i + 1), x ≠ 0 := by
    rintro x hx rfl
    obtain ⟨i, hi, h0⟩ := mem_map.1 hx
    have := hnat i hi
    rw [h0] at this
    exact absurd this (by simp)
  refine ⟨?_, (hperm.nodup_iff.2 hnodup).sublist (take_sublist _ _), fun x hx => ?_⟩
  · have hlen := hperm.length_eq
    simp only [length_map, length_range] at hlen
    rw [length_take, hlen, Nat.min_eq_left hn]
  · exact hzero x (hperm.mem_iff.1 (mem_of_mem_take hx))

/-! ### The polynomials -/

def Draws.usable (draws : Draws) : ℕ := draws.countP fun draw => decide (draw.setWidth 8 ≠ 0)

lemma exists_nextCoefficient (h : 0 < draws.usable) :
    ∃ c rest, nextCoefficient draws = some (c, rest) ∧ Draws.usable rest + 1 = draws.usable := by
  induction draws with
  | nil => cases h
  | cons draw draws ih =>
    unfold nextCoefficient
    by_cases hzero : draw.setWidth 8 = 0
    · have hskip : Draws.usable (draw :: draws) = Draws.usable draws := countP_cons_of_neg (by simp [hzero])
      rw [if_pos hzero, hskip]
      exact ih (hskip ▸ h)
    · rw [if_neg hzero]
      exact ⟨_, _, rfl, (countP_cons_of_pos (by simpa using hzero)).symm⟩

lemma exists_nextCoefficients {n : ℕ} {draws : Draws} (h : n ≤ draws.usable) :
    ∃ cs rest, nextCoefficients n draws = some (cs, rest) ∧ Draws.usable rest + n = draws.usable := by
  induction n generalizing draws with
  | zero => exact ⟨[], draws, rfl, rfl⟩
  | succ n ih =>
    obtain ⟨c, draws₁, hc, hu⟩ := exists_nextCoefficient (Nat.lt_of_lt_of_le (Nat.succ_pos n) h)
    obtain ⟨cs, rest, hcs, hu'⟩ := @ih draws₁ (by omega)
    refine ⟨c :: cs, rest, ?_, by omega⟩
    simp only [nextCoefficients, hc, bind_eq_bind, bind_some, hcs]

lemma exists_polynomials {k : ℕ} {secret : List U8} {draws : Draws} (h : secret.length * (k - 1) ≤ draws.usable) :
    ∃ r, polynomials k secret draws = some r := by
  induction secret generalizing draws with
  | nil => exact ⟨_, rfl⟩
  | cons byte secret ih =>
    rw [length_cons, Nat.succ_mul] at h
    obtain ⟨cs, rest, hcs, hu⟩ := @exists_nextCoefficients (k - 1) draws (by omega)
    obtain ⟨r, hr⟩ := @ih rest (by omega)
    refine ⟨((byte :: cs) :: r.1, r.2), ?_⟩
    simp only [polynomials, hcs, bind_eq_bind, bind_some, hr]

lemma polynomials_ok {secret : List U8} {polys : List (List U8)}
    (h : polynomials k secret draws = some (polys, draws')) (b : ℕ) (byte : U8) (hb : secret[b]? = some byte) :
    (polys.getD b []).getD 0 0 = byte := by
  induction secret generalizing draws polys draws' b with
  | nil => cases hb
  | cons first secret ih =>
    simp only [polynomials, bind_eq_bind, bind_eq_some_iff] at h
    obtain ⟨⟨cs, ds⟩, -, ⟨polys', ds'⟩, hpolys, he⟩ := h
    cases he
    cases b with
    | zero =>
      cases hb
      rfl
    | succ b => exact ih hpolys b hb

open Polynomial in
/-- A list of coefficients as a polynomial over the field. -/
noncomputable def toPolynomial (coeffs : List U8) (k : ℕ) : Byte[X] := ∑ i : Fin k, C ⟨coeffs.getD i 0⟩ * X ^ (i : ℕ)

lemma evaluatePolynomial_succ (c : U8) (cs : List U8) (k : ℕ) (x : U8) :
    evaluatePolynomial (c :: cs) (k + 1) x = Gf256.add (Gf256.mul (evaluatePolynomial cs k x) x) c := by
  simp only [evaluatePolynomial, range_succ_eq_map, reverse_cons, foldl_append, foldl_cons,
    foldl_nil, getD_cons_zero, ← map_reverse, foldl_map, Nat.succ_eq_add_one, getD_cons_succ]

lemma evaluatePolynomial_nil (k : ℕ) (x : U8) : evaluatePolynomial [] k x = 0 := by
  have hzero : ∀ l : List ℕ,
      l.foldl (fun result i => Gf256.add (Gf256.mul result x) (([] : List U8).getD i 0)) 0 = 0 := by
    intro l
    induction l with
    | nil => rfl
    | cons i l ih =>
      have hstep : Gf256.add (Gf256.mul 0 x) (([] : List U8).getD i 0) = 0 := by
        rw [Gf256.mul_comm, Gf256.mul_zero, getD_nil]
        rfl
      rw [foldl_cons, hstep, ih]
  exact hzero _

variable (coeffs : List U8)

lemma evaluatePolynomial_eq (k : ℕ) (x : U8) :
    (⟨evaluatePolynomial coeffs k x⟩ : Byte) = (toPolynomial coeffs k).eval ⟨x⟩ := by
  simp only [toPolynomial, eval_finsetSum, eval_mul, eval_C, eval_pow,
    eval_X]
  induction k generalizing coeffs with
  | zero => rfl
  | succ k ih =>
    rw [Fin.sum_univ_succ]
    cases coeffs with
    | nil =>
      rw [evaluatePolynomial_nil]
      simp
    | cons c cs =>
      have hstep : (⟨evaluatePolynomial (c :: cs) (k + 1) x⟩ : Byte) = ⟨evaluatePolynomial cs k x⟩ * ⟨x⟩ + ⟨c⟩ :=
        Gf256.Byte.ext (evaluatePolynomial_succ c cs k x)
      rw [hstep, ih cs, sum_mul, add_comm]
      simp [pow_succ, mul_assoc]

lemma degree_toPolynomial_lt (k : ℕ) : (toPolynomial coeffs k).degree < k :=
  degree_sum_fin_lt _

lemma eval_zero_toPolynomial (hk : 0 < k) :
    (toPolynomial coeffs k).eval 0 = ⟨coeffs.getD 0 0⟩ := by
  obtain ⟨k, rfl⟩ := Nat.exists_eq_succ_of_ne_zero (Nat.ne_of_gt hk)
  simp [toPolynomial, eval_finsetSum, Fin.sum_univ_succ]

/-! ### Interpolation -/

/-- **Interpolation at zero**: the value of a polynomial there, from its values at enough points. -/
lemma eval_zero_eq_sum {F ι : Type} [Field F] [DecidableEq ι] {s : Finset ι} {v : ι → F} {f : Polynomial F}
    (hv : Set.InjOn v s) (hf : f.degree < s.card) :
    f.eval 0 = ∑ i ∈ s, (∏ j ∈ s.erase i, v j / (v j - v i)) * f.eval (v i) := by
  conv_lhs => rw [Lagrange.eq_interpolate hv hf]
  rw [Lagrange.interpolate_apply, eval_finsetSum]
  refine sum_congr rfl fun i _ => ?_
  rw [eval_mul, eval_C, mul_comm, Lagrange.basis, eval_prod]
  congr 1
  refine prod_congr rfl fun j _ => ?_
  rw [Lagrange.basisDivisor, eval_mul, eval_C, eval_sub, eval_X,
    eval_C, zero_sub, div_eq_inv_mul, ← neg_sub (v i) (v j), inv_neg, neg_mul_comm]

lemma lagrangeFraction_eq (used : List Share) (k i : ℕ) :
    (⟨(lagrangeFraction used k i).1⟩ : Byte) = ∏ j ∈ (Finset.range k).erase i, ⟨xAt used j⟩ ∧
    (⟨(lagrangeFraction used k i).2⟩ : Byte) = ∏ j ∈ (Finset.range k).erase i, (⟨xAt used i⟩ + ⟨xAt used j⟩) := by
  induction k with
  | zero => exact ⟨rfl, rfl⟩
  | succ k ih =>
    obtain ⟨hnum, hden⟩ := ih
    unfold lagrangeFraction at hnum hden ⊢
    rw [range_succ, foldl_append, foldl_cons, foldl_nil, range_add_one]
    by_cases hik : i = k
    · subst hik
      have hnot : i ∉ Finset.range i := by simp
      rw [if_pos rfl, erase_insert hnot]
      rw [erase_eq_of_notMem hnot] at hnum hden
      exact ⟨hnum, hden⟩
    · have hnot : k ∉ (Finset.range k).erase i := by simp
      rw [if_neg hik, erase_insert_of_ne (Ne.symm hik), prod_insert hnot, prod_insert hnot,
        ← hnum, ← hden, mul_comm, mul_comm (⟨xAt used i⟩ + ⟨xAt used k⟩ : Byte)]
      exact ⟨rfl, rfl⟩

lemma mapM_eq_some {α β : Type} {f : α → Option β} {g : α → β} {l : List α} (h : ∀ a ∈ l, f a = some (g a)) :
    l.mapM f = some (l.map g) := by
  induction l with
  | nil => rfl
  | cons a l ih =>
    rw [mapM_cons, h a mem_cons_self, ih fun b hb => h b (mem_cons_of_mem _ hb)]
    rfl

/-- The factor of a share in the interpolation at zero. -/
noncomputable def lagrangeFactor (used : List Share) (k i : ℕ) : Byte :=
  ∏ j ∈ (Finset.range k).erase i, (⟨xAt used j⟩ : Byte) / (⟨xAt used j⟩ - ⟨xAt used i⟩)

/-- **With distinct coordinates every basis polynomial has a value at zero**, the one of the interpolation. -/
lemma lagrangeBasis_eq (hinj : Set.InjOn (xAt used) (Finset.range k)) :
    lagrangeBasis used k = some ((List.range k).map fun i => (lagrangeFactor used k i).val) := by
  refine mapM_eq_some fun i hi => ?_
  obtain ⟨hnum, hden⟩ := lagrangeFraction_eq used k i
  have hi' : i ∈ Finset.range k := mem_range.2 (List.mem_range.1 hi)
  have hne : ∏ j ∈ (Finset.range k).erase i, ((⟨xAt used i⟩ : Byte) + ⟨xAt used j⟩) ≠ 0 := by
    refine prod_ne_zero_iff.2 fun j hj hzero => ?_
    obtain ⟨hji, hj⟩ := mem_erase.1 hj
    rw [← Gf256.Byte.sub_eq_add, sub_eq_zero] at hzero
    exact hji (hinj hj hi' (congrArg Gf256.Byte.val hzero).symm)
  have hdiv := Gf256.Byte.div_val ⟨(lagrangeFraction used k i).1⟩ ⟨(lagrangeFraction used k i).2⟩ (hden ▸ hne)
  have hquot : (⟨(lagrangeFraction used k i).1⟩ : Byte) / ⟨(lagrangeFraction used k i).2⟩ =
    lagrangeFactor used k i := by
    rw [hnum, hden, lagrangeFactor, ← prod_div_distrib]
    refine prod_congr rfl fun j _ => ?_
    rw [Gf256.Byte.sub_eq_add, add_comm]
  rw [hdiv, hquot]

lemma foldl_add_eq (f : ℕ → Byte) (k : ℕ) :
    (List.range k).foldl (fun acc i => Gf256.add acc (f i).val) 0 = (∑ i ∈ Finset.range k, f i).val := by
  induction k with
  | zero => rfl
  | succ k ih =>
    rw [range_succ, foldl_append, foldl_cons, foldl_nil, ih, sum_range_succ]
    rfl

lemma duplicateX_eq_none (h : (shares.map Share.x).Nodup) : duplicateX shares = none := by
  induction shares with
  | nil => rfl
  | cons s rest ih =>
    rw [List.map_cons, nodup_cons] at h
    have hnone : rest.find? (fun s' => decide (s.x = s'.x)) = none := by
      refine find?_eq_none.2 fun s' hs' heq => h.1 ?_
      rw [of_decide_eq_true heq]
      exact mem_map_of_mem hs'
    rw [duplicateX, hnone]
    exact ih h.2

lemma xAt_eq_getElem {j : ℕ} (hj : j < used.length) : xAt used j = used[j].x := by
  rw [xAt, List.getElem?_eq_getElem hj]
  rfl

lemma xAt_injOn (h : (used.map Share.x).Nodup) : Set.InjOn (xAt used) (Finset.range used.length) := by
  intro i hi j hj hij
  have hi' : i < used.length := by simpa using hi
  have hj' : j < used.length := by simpa using hj
  rw [xAt_eq_getElem hi', xAt_eq_getElem hj'] at hij
  have hil : i < (used.map Share.x).length := by simpa using hi
  have hjl : j < (used.map Share.x).length := by simpa using hj
  have hmap : (used.map Share.x)[i] = (used.map Share.x)[j] := by
    rw [getElem_map, getElem_map, hij]
  exact h.getElem_inj_iff.1 hmap

/-! ### The shares give the key back -/

lemma foldl_points (hk : 0 < k) (hlen : used.length = k)
    (hinj : Set.InjOn (xAt used) (Finset.range k)) {coeffs : List U8} {b : Fin rootKeyLen}
    (hpoint : ∀ s ∈ used, s.y[b] = evaluatePolynomial coeffs k s.x) :
    (List.range k).foldl (fun acc i => Gf256.add acc (Gf256.mul
      (((List.range k).map fun i => (lagrangeFactor used k i).val).getD i 0) (yAt used i b))) 0 = coeffs.getD 0 0 := by
  have hterm : ∀ i ∈ Finset.range k, (⟨yAt used i b⟩ : Byte) = (toPolynomial coeffs k).eval ⟨xAt used i⟩ := by
    intro i hi
    have hi' : i < used.length := hlen ▸ mem_range.1 hi
    rw [← evaluatePolynomial_eq, xAt_eq_getElem hi', ← hpoint _ (getElem_mem hi'), yAt,
      List.getElem?_eq_getElem hi']
    rfl
  have hfold : (List.range k).foldl (fun acc i => Gf256.add acc (Gf256.mul
      (((List.range k).map fun i => (lagrangeFactor used k i).val).getD i 0) (yAt used i b))) 0 =
      (List.range k).foldl (fun acc i => Gf256.add acc (lagrangeFactor used k i * ⟨yAt used i b⟩).val) 0 := by
    refine foldl_ext _ _ _ fun acc i hi => ?_
    rw [getD_eq_getElem?_getD, getElem?_map, getElem?_range (List.mem_range.1 hi)]
    rfl
  have hinj' : Set.InjOn (fun i => (⟨xAt used i⟩ : Byte)) (Finset.range k) := fun i hi j hj hij =>
    hinj hi hj (congrArg Gf256.Byte.val hij)
  have hdeg : (toPolynomial coeffs k).degree < (Finset.range k).card := by
    rw [card_range]
    exact degree_toPolynomial_lt _ _
  have hzero := eval_zero_eq_sum hinj' hdeg
  rw [eval_zero_toPolynomial _ hk] at hzero
  rw [hfold, foldl_add_eq, sum_congr rfl fun i hi => by rw [hterm i hi]]
  exact (congrArg Gf256.Byte.val hzero).symm

/-- **Enough points of the polynomials of a key give the key**, whichever they are and in whatever order. -/
lemma recoverSecret_of_points {k : U8} {secret : RootKey} (coeffs : ℕ → List U8)
    (hk : k ≠ 0) (hgroup : ∀ s ∈ shares, s.threshold = k ∧ s.total = n) (hlen : k.toNat ≤ shares.length)
    (hnodup : (shares.map Share.x).Nodup)
    (hpoint : ∀ s ∈ shares, ∀ b : Fin rootKeyLen, s.y[b] = evaluatePolynomial (coeffs b) k.toNat s.x)
    (hconst : ∀ b : Fin rootKeyLen, (coeffs b).getD 0 0 = secret[b]) : recoverSecret shares = .ok secret := by
  have hpos : 0 < k.toNat := Nat.pos_of_ne_zero fun h => hk (eq_of_toNat_eq h)
  cases shares with
  | nil => exact absurd hlen (not_le.2 hpos)
  | cons first rest =>
    obtain ⟨hthreshold, htotal⟩ := hgroup first mem_cons_self
    have hsame : rest.find? (fun s => decide (s.threshold ≠ first.threshold ∨ s.total ≠ first.total)) = none := by
      refine find?_eq_none.2 fun s hs hne => ?_
      obtain ⟨hs1, hs2⟩ := hgroup s (mem_cons_of_mem _ hs)
      rcases of_decide_eq_true hne with hne | hne
      · exact hne (hs1.trans hthreshold.symm)
      · exact hne (hs2.trans htotal.symm)
    -- the first `k` shares are used
    have hused : ((first :: rest).take k.toNat).length = k.toNat := by rw [length_take, Nat.min_eq_left hlen]
    have hinj : Set.InjOn (xAt ((first :: rest).take k.toNat)) (Finset.range k.toNat) := by
      have h := xAt_injOn (hnodup.sublist ((take_sublist k.toNat (first :: rest)).map Share.x))
      rwa [hused] at h
    unfold recoverSecret
    dsimp only
    rw [hsame]
    dsimp only
    rw [hthreshold, if_neg (not_lt.2 hlen), duplicateX_eq_none hnodup]
    dsimp only
    rw [lagrangeBasis_eq hinj]
    refine congrArg Except.ok (Vector.ext fun b hb => ?_)
    rw [Vector.getElem_ofFn]
    have hbyte := foldl_points hpos hused hinj fun s hs => hpoint s (mem_of_mem_take hs) ⟨b, hb⟩
    exact hbyte.trans (hconst ⟨b, hb⟩)

lemma splitSecret_ok {secret : RootKey} {k : U8}
    (h : splitSecret secret n k draws = .ok (some shares)) : k ≠ 0 ∧ k ≤ n ∧ shares.length = n.toNat ∧
      (∀ s ∈ shares, s.WellFormed ∧ s.threshold = k ∧ s.total = n) ∧ (shares.map Share.x).Nodup ∧
      ∃ coeffs : List (List U8),
        (∀ s ∈ shares, ∀ b : Fin rootKeyLen, s.y[b] = evaluatePolynomial (coeffs.getD b []) k.toNat s.x) ∧
        ∀ b : Fin rootKeyLen, (coeffs.getD b []).getD 0 0 = secret[b] := by
  unfold splitSecret at h
  split_ifs at h with hn hk
  obtain ⟨hk, hkn⟩ := not_or.1 hk
  have hkn := BitVec.not_lt.1 hkn
  simp only [Except.ok.injEq, bind_eq_bind, bind_eq_some_iff] at h
  obtain ⟨⟨xs, draws₁⟩, hxs, ⟨coeffs, draws₂⟩, hcoeffs, he⟩ := h
  dsimp only at hcoeffs he
  cases he
  obtain ⟨hlen, hnodup, hzero⟩ := generateXCoordinates_ok (by have := n.isLt; omega) hxs
  have hx : (xs.zipIdx.map fun p => makeShare n k coeffs p.1 p.2).map Share.x = xs := by
    rw [List.map_map]
    exact zipIdx_map_fst 0 xs
  refine ⟨hk, hkn, by simp [hlen], ?_, by rwa [hx], coeffs, ?_, ?_⟩
  · intro s hs
    obtain ⟨⟨x, i⟩, hp, rfl⟩ := mem_map.1 hs
    obtain ⟨-, hi, hxi⟩ := mem_zipIdx hp
    have hi' : i + 1 ≤ n.toNat := by omega
    have hmod : (BitVec.ofNat 8 (i + 1)).toNat = i + 1 := by
      have := n.isLt
      rw [toNat_ofNat, Nat.mod_eq_of_lt (by omega)]
    refine ⟨⟨⟨fun h0 => ?_, ?_⟩, ⟨hk, hkn⟩, hzero x ?_⟩, rfl, rfl⟩
    · have := congrArg BitVec.toNat h0
      simp only [makeShare] at this
      rw [hmod] at this
      simp at this
    · rw [le_def]
      exact hmod ▸ hi'
    · rw [hxi]
      exact getElem_mem _
  · intro s hs b
    obtain ⟨⟨x, i⟩, -, rfl⟩ := mem_map.1 hs
    exact Vector.getElem_ofFn _
  · intro b
    exact polynomials_ok hcoeffs b _ (by simp)

/-- A split within its bounds returns as soon as the draws suffice: one for each coordinate, and then one whose low byte
is not zero for each coefficient. -/
lemma exists_splitSecret (secret : RootKey) {k : U8} (hk : k ≠ 0) (hkn : k ≤ n)
    (hxs : n.toNat ≤ draws.length) (hcoeffs : rootKeyLen * (k.toNat - 1) ≤ Draws.usable (draws.drop n.toNat)) :
    ∃ shares, splitSecret secret n k draws = .ok (some shares) := by
  have hn : n ≠ 0 := by
    rintro rfl
    exact hk (le_zero_iff.1 hkn)
  obtain ⟨xs, hshuffle⟩ := exists_shuffle ((List.range 255).map fun i => BitVec.ofNat 8 (i + 1)).toArray hxs
  obtain ⟨⟨coeffs, rest⟩, hpolys⟩ :=
    @exists_polynomials k.toNat secret.toList (draws.drop n.toNat) (by simpa using hcoeffs)
  refine ⟨(xs.toList.take n.toNat).zipIdx.map fun p => makeShare n k coeffs p.1 p.2, ?_⟩
  rw [splitSecret, if_neg hn, if_neg (not_or.2 ⟨hk, BitVec.not_lt.2 hkn⟩)]
  simp only [generateXCoordinates, hshuffle, map_some, bind_eq_bind, bind_some, hpolys]

/-- **The shares give the key back.**  For every key, bounds and draws: the split returns when the draws suffice, and
whenever it returns, any list of at least `k` of its shares with distinct coordinates recovers the key, and every share
is read back from its serialisation. -/
theorem recoverSecret_splitSecret (digest : List U8 → Vector U8 32) (secret : RootKey) (n k : U8)
    (hk : 1 ≤ k.toNat) (hkn : k.toNat ≤ n.toNat) (draws : Draws) :
    (n.toNat ≤ draws.length → rootKeyLen * (k.toNat - 1) ≤ Draws.usable (draws.drop n.toNat) →
      ∃ shares, splitSecret secret n k draws = .ok (some shares)) ∧
    ∀ shares, splitSecret secret n k draws = .ok (some shares) → shares.length = n.toNat ∧
      (∀ given : List Share, (∀ s ∈ given, s ∈ shares) → (given.map Share.x).Nodup → k.toNat ≤ given.length →
        recoverSecret given = .ok secret) ∧
      ∀ s ∈ shares, Share.fromBytes digest (s.toBytes digest) = .ok s := by
  have hk' : k ≠ 0 := by
    rintro rfl
    exact absurd hk (by decide)
  refine ⟨exists_splitSecret secret hk' (le_def.2 hkn), fun shares h => ?_⟩
  obtain ⟨-, -, hlen, hgroup, -, coeffs, hpoint, hconst⟩ := splitSecret_ok h
  refine ⟨hlen, fun given hsub hnodup hgiven => ?_, fun s hs => Share.fromBytes_toBytes digest (hgroup s hs).1⟩
  exact recoverSecret_of_points (fun b => coeffs.getD b []) hk' (fun s hs => (hgroup s (hsub s hs)).2) hgiven hnodup
    (fun s hs => hpoint s (hsub s hs)) hconst

/-- A key of zeros with every draw `1`, in two of three shares. -/
theorem recoverSecret_splitSecret_two_of_three :
    ∃ shares, splitSecret (Vector.replicate 32 0) 3 2 (List.replicate 64 1) = .ok (some shares) ∧
      recoverSecret (shares.drop 1) = .ok (Vector.replicate 32 0) := by
  obtain ⟨hret, hok⟩ := recoverSecret_splitSecret (fun _ => Vector.replicate 32 0) (Vector.replicate 32 0) 3 2
    (by decide) (by decide) (replicate 64 1)
  obtain ⟨shares, h⟩ := hret (by decide) (by decide)
  obtain ⟨-, -, -, -, hnodup, -⟩ := splitSecret_ok h
  obtain ⟨hlen, hrecover, -⟩ := hok shares h
  refine ⟨shares, h, hrecover _ (fun s hs => mem_of_mem_drop hs) ?_ ?_⟩
  · exact hnodup.sublist ((drop_sublist 1 shares).map Share.x)
  · rw [length_drop, hlen]
    decide

end Coord.Security

/-!
# What fewer shares than the threshold tell

The coefficients that a split can draw are the non-zero ones.  If it could draw every byte, then every key would go
with any few shares in the same number of ways.  Without the zero the numbers are not the same: a single share makes
the key byte that equals its own byte more or less likely than the others.

* `drawable_iff` — the coefficients that the draws can give;
* `choices`, `allChoices` — in how many ways a key goes with given shares;
* `choices_of_few_shares` — the same number over all bytes, and not over the non-zero ones.
-/

namespace Coord.Security

open Finset Coord.Lib Option Fintype
open Gf256 (U8 Byte)

namespace Gf256.Byte

def equivFin : Byte ≃ Fin 256 where
  toFun a := a.val.toFin
  invFun i := ⟨BitVec.ofFin i⟩
  left_inv _ := rfl
  right_inv _ := rfl

instance : Fintype Byte := Fintype.ofEquiv _ equivFin.symm

lemma card : Fintype.card Byte = 256 := (Fintype.card_congr equivFin).trans (Fintype.card_fin 256)

end Gf256.Byte

/-! ### The coefficients that can be drawn -/

def drawOf (c : U8) : BitVec 32 := c.setWidth 32

lemma nextCoefficient_drawOf {c : U8} (hc : c ≠ 0) (draws : Draws) :
    nextCoefficient (drawOf c :: draws) = some (c, draws) := by
  have hlow : (drawOf c).setWidth 8 = c := by simp [drawOf]
  rw [nextCoefficient, hlow, if_neg hc]

lemma nextCoefficient_ne_zero {draws rest : Draws} {c : U8} (h : nextCoefficient draws = some (c, rest)) : c ≠ 0 := by
  induction draws with
  | nil => cases h
  | cons draw draws ih =>
    rw [nextCoefficient] at h
    split at h
    · exact ih h
    · next hne =>
      cases h
      exact hne

lemma nextCoefficients_ok {n : ℕ} {draws rest : Draws} {cs : List U8} (h : nextCoefficients n draws = some (cs, rest)) :
    cs.length = n ∧ ∀ c ∈ cs, c ≠ 0 := by
  induction n generalizing draws cs rest with
  | zero =>
    cases h
    exact ⟨rfl, by simp⟩
  | succ n ih =>
    simp only [nextCoefficients, bind_eq_bind, bind_eq_some_iff] at h
    obtain ⟨⟨c, draws₁⟩, hc, ⟨cs', draws₂⟩, hcs, he⟩ := h
    cases he
    obtain ⟨hlen, hne⟩ := ih hcs
    refine ⟨by rw [List.length_cons, hlen], fun c' hc' => ?_⟩
    rcases List.mem_cons.1 hc' with rfl | hc'
    · exact nextCoefficient_ne_zero hc
    · exact hne c' hc'

lemma nextCoefficients_drawOf {cs : List U8} (hne : ∀ c ∈ cs, c ≠ 0) (rest : Draws) :
    nextCoefficients cs.length (cs.map drawOf ++ rest) = some (cs, rest) := by
  induction cs with
  | nil => rfl
  | cons c cs ih =>
    have hc := nextCoefficient_drawOf (hne c List.mem_cons_self) (cs.map drawOf ++ rest)
    have hcs := ih fun c' hc' => hne c' (List.mem_cons_of_mem _ hc')
    simp only [List.map_cons, List.cons_append, List.length_cons, nextCoefficients, hc, hcs, bind_eq_bind,
      bind_some]

/-- A polynomial for a byte: the byte, and `k - 1` coefficients that meet `P`. -/
def PolyFor (k : ℕ) (P : U8 → Prop) (byte : U8) (poly : List U8) : Prop :=
  ∃ cs : List U8, poly = byte :: cs ∧ cs.length = k - 1 ∧ ∀ c ∈ cs, P c

variable {k : ℕ} {secret : RootKey} {shares : List Share} {coeffs : List (List U8)}

/-- **The polynomials that the draws can give**: those with no coefficient zero above the constant term. -/
theorem drawable_iff {secret : List U8} : (∃ draws rest, polynomials k secret draws = some (coeffs, rest)) ↔
      List.Forall₂ (PolyFor k fun c => c ≠ 0) secret coeffs := by
  constructor
  · rintro ⟨draws, rest, h⟩
    induction secret generalizing draws coeffs rest with
    | nil =>
      cases h
      exact .nil
    | cons byte secret ih =>
      simp only [polynomials, bind_eq_bind, bind_eq_some_iff] at h
      obtain ⟨⟨cs, draws₁⟩, hcs, ⟨polys, draws₂⟩, hpolys, he⟩ := h
      cases he
      exact .cons ⟨cs, rfl, nextCoefficients_ok hcs⟩ (ih _ _ hpolys)
  · intro h
    have hall : ∃ draws, ∀ rest, polynomials k secret (draws ++ rest) = some (coeffs, rest) := by
      induction h with
      | nil => exact ⟨[], fun _ => rfl⟩
      | @cons byte poly secret polys hpoly _ ih =>
        obtain ⟨cs, rfl, hlen, hne⟩ := hpoly
        obtain ⟨draws, hdraws⟩ := ih
        refine ⟨cs.map drawOf ++ draws, fun rest => ?_⟩
        have hcs := nextCoefficients_drawOf hne (draws ++ rest)
        rw [hlen] at hcs
        simp only [polynomials, List.append_assoc, hcs, hdraws, bind_eq_bind, bind_some]
    obtain ⟨draws, hdraws⟩ := hall
    exact ⟨_, [], hdraws []⟩

/-! ### Ways to choose -/

def Fits (k : ℕ) (coeffs : List (List U8)) (shares : List Share) : Prop :=
  ∀ s ∈ shares, ∀ b : Fin rootKeyLen, evaluatePolynomial (coeffs.getD b []) k s.x = s.y[b]

/-- In how many ways the split can draw coefficients with which the key gives the shares. -/
noncomputable def choices (k : ℕ) (secret : RootKey) (shares : List Share) : ℕ :=
  Set.ncard {coeffs | (∃ draws rest, polynomials k secret.toList draws = some (coeffs, rest)) ∧ Fits k coeffs shares}

noncomputable def allChoices (k : ℕ) (secret : RootKey) (shares : List Share) : ℕ :=
  Set.ncard {coeffs | List.Forall₂ (PolyFor k fun _ => True) secret.toList coeffs ∧ Fits k coeffs shares}

/-- The polynomials with the key as constant terms. -/
def coeffsOf {m : ℕ} (secret : RootKey) (c : Fin rootKeyLen → Fin m → Byte) : List (List U8) :=
  List.ofFn fun b => secret[b] :: List.ofFn fun j => (c b j).val

lemma getD_coeffsOf {m : ℕ} (secret : RootKey) (c : Fin rootKeyLen → Fin m → Byte) (b : Fin rootKeyLen) :
    (coeffsOf secret c).getD b [] = secret[b] :: List.ofFn fun j => (c b j).val := by
  have hb : (b : ℕ) < (coeffsOf secret c).length := by
    rw [coeffsOf, List.length_ofFn]
    exact b.isLt
  rw [List.getD_eq_getElem _ _ hb]
  exact List.getElem_ofFn hb

lemma coeffsOf_injective {m : ℕ} (secret : RootKey) : Function.Injective (coeffsOf (m := m) secret) := by
  intro c d h
  funext b j
  have hb := getD_coeffsOf secret c b
  rw [h, getD_coeffsOf] at hb
  have hlist := List.ofFn_injective (List.cons.inj hb).2
  exact (Gf256.Byte.ext (congrFun hlist j)).symm

lemma forall₂_iff_coeffsOf {P : U8 → Prop} :
    List.Forall₂ (PolyFor k P) secret.toList coeffs ↔
      ∃ c : Fin rootKeyLen → Fin (k - 1) → Byte, (∀ b j, P (c b j).val) ∧ coeffsOf secret c = coeffs := by
  rw [List.forall₂_iff_get]
  constructor
  · rintro ⟨hlen, h⟩
    rw [Vector.length_toList] at hlen
    have hpoly : ∀ b : Fin rootKeyLen, PolyFor k P secret[b] (coeffs.get ⟨b, by omega⟩) := fun b => by
      have := h b (by simp) (by omega)
      simpa using this
    choose cs hcs hlencs hP using hpoly
    refine ⟨fun b j => ⟨(cs b).get ⟨j, by rw [hlencs]; exact j.isLt⟩⟩, fun b j => hP b _ (List.get_mem _ _), ?_⟩
    refine List.ext_get (by simp [coeffsOf, hlen]) fun b hb hb' => ?_
    have hb32 : b < rootKeyLen := by simpa [coeffsOf] using hb
    have hlist : List.ofFn (fun j : Fin (k - 1) => (cs ⟨b, hb32⟩).get ⟨j, by rw [hlencs]; exact j.isLt⟩) =
      cs ⟨b, hb32⟩ := by
      refine List.ext_get (by simp [hlencs]) fun j hj hj' => ?_
      simp
    have hget := hcs ⟨b, hb32⟩
    simp only [coeffsOf, List.get_ofFn]
    rw [hget, ← hlist]
    rfl
  · rintro ⟨c, hP, rfl⟩
    refine ⟨by simp [coeffsOf], fun b hb hb' => ?_⟩
    have hb32 : b < rootKeyLen := by simpa [coeffsOf] using hb'
    refine ⟨List.ofFn fun j => (c ⟨b, hb32⟩ j).val, ?_, by simp, fun x hx => ?_⟩
    · rw [List.get_eq_getElem, List.get_eq_getElem, Vector.getElem_toList]
      exact List.getElem_ofFn hb'
    · obtain ⟨j, rfl⟩ := List.mem_ofFn.1 hx
      exact hP _ j

/-! ### Counting -/

lemma evaluatePolynomial_coeffsOf (hk : 1 ≤ k) (secret : RootKey) (c : Fin rootKeyLen → Fin (k - 1) → Byte)
    (x : U8) (b : Fin rootKeyLen) : (⟨evaluatePolynomial ((coeffsOf secret c).getD b []) k x⟩ : Byte) =
      ⟨secret[b]⟩ + ∑ j, c b j * (⟨x⟩ : Byte) ^ ((j : ℕ) + 1) := by
  obtain ⟨m, rfl⟩ := Nat.exists_eq_add_of_le' hk
  rw [getD_coeffsOf, evaluatePolynomial_eq, toPolynomial]
  simp only [Polynomial.eval_finsetSum, Polynomial.eval_mul, Polynomial.eval_C, Polynomial.eval_pow, Polynomial.eval_X]
  rw [Fin.sum_univ_succ]
  simp only [Fin.val_zero, List.getD_cons_zero, pow_zero, mul_one, Fin.val_succ, List.getD_cons_succ]
  congr 1
  refine Finset.sum_congr rfl fun j _ => ?_
  congr 1
  rw [List.getD_eq_getElem _ _ (by rw [List.length_ofFn]; exact j.isLt), List.getElem_ofFn]
  rfl

/-- The points of the shares, and their values for a byte without the byte of the key. -/
def pointOf (shares : List Share) (i : Fin shares.length) : Byte := ⟨(shares.get i).x⟩

def valueOf (secret : RootKey) (shares : List Share) (b : Fin rootKeyLen) (i : Fin shares.length) : Byte :=
  ⟨(shares.get i).y[b]⟩ - ⟨secret[b]⟩

lemma fits_iff (hk : 1 ≤ k) {c : Fin rootKeyLen → Fin (k - 1) → Byte} :
    Fits k (coeffsOf secret c) shares ↔ ∀ b, evalAt (pointOf shares) (c b) = valueOf secret shares b := by
  have hshare : ∀ (s : Share) (b : Fin rootKeyLen), evaluatePolynomial ((coeffsOf secret c).getD b []) k s.x = s.y[b] ↔
      ∑ j, c b j * (⟨s.x⟩ : Byte) ^ ((j : ℕ) + 1) = ⟨s.y[b]⟩ - ⟨secret[b]⟩ := by
    intro s b
    have heval := evaluatePolynomial_coeffsOf hk secret c s.x b
    constructor
    · intro h
      rw [h] at heval
      rw [heval, add_sub_cancel_left]
    · intro h
      rw [h, add_sub_cancel] at heval
      exact congrArg Gf256.Byte.val heval
  constructor
  · intro h b
    funext i
    exact (hshare _ b).1 (h _ (List.get_mem shares i) b)
  · intro h s hs b
    obtain ⟨i, rfl⟩ := List.get_of_mem hs
    exact (hshare _ b).2 (congrFun (h b) i)

/-- The coefficients of one byte that fit the shares. -/
def fitting (k : ℕ) (P : U8 → Prop) [DecidablePred P] (secret : RootKey) (shares : List Share) (b : Fin rootKeyLen) :
    Finset (Fin (k - 1) → Byte) :=
  {c | (∀ j, P (c j).val) ∧ evalAt (pointOf shares) c = valueOf secret shares b}

lemma mem_fitting {P : U8 → Prop} [DecidablePred P]
    {b : Fin rootKeyLen} {c : Fin (k - 1) → Byte} : c ∈ fitting k P secret shares b ↔ (∀ j, P (c j).val) ∧
      ∀ s ∈ shares, ∑ j, c j * (⟨s.x⟩ : Byte) ^ ((j : ℕ) + 1) = ⟨s.y[b]⟩ - ⟨secret[b]⟩ := by
  rw [fitting, mem_filter, and_iff_right (mem_univ _)]
  refine and_congr_right fun _ => ⟨fun h s hs => ?_, fun h => funext fun i => h _ (List.get_mem shares i)⟩
  obtain ⟨i, rfl⟩ := List.get_of_mem hs
  exact congrFun h i

/-- **Byte by byte**: the ways to choose the coefficients are the ways for each byte. -/
lemma ncard_coeffs (hk : 1 ≤ k) (P : U8 → Prop) [DecidablePred P] (secret : RootKey) (shares : List Share) :
    Set.ncard {coeffs | List.Forall₂ (PolyFor k P) secret.toList coeffs ∧ Fits k coeffs shares} =
      ∏ b, #(fitting k P secret shares b) := by
  have himage : {coeffs | List.Forall₂ (PolyFor k P) secret.toList coeffs ∧ Fits k coeffs shares} =
      Set.image (coeffsOf (m := k - 1) secret) (piFinset (fitting k P secret shares)) := by
    ext coeffs
    simp only [Set.mem_ofPred_eq, Set.mem_image, mem_coe, mem_piFinset, fitting, mem_filter, mem_univ, true_and]
    constructor
    · rintro ⟨hpoly, hfits⟩
      obtain ⟨c, hP, rfl⟩ := forall₂_iff_coeffsOf.1 hpoly
      exact ⟨c, fun b => ⟨hP b, (fits_iff hk).1 hfits b⟩, rfl⟩
    · rintro ⟨c, hc, rfl⟩
      exact ⟨forall₂_iff_coeffsOf.2 ⟨c, fun b => (hc b).1, rfl⟩, (fits_iff hk).2 fun b => (hc b).2⟩
  rw [himage, Set.ncard_image_of_injective _ (coeffsOf_injective secret), Set.ncard_coe_finset, card_piFinset]

lemma choices_eq (hk : 1 ≤ k) (secret : RootKey) (shares : List Share) :
    choices k secret shares = ∏ b, #(fitting k (fun c => c ≠ 0) secret shares b) := by
  rw [← ncard_coeffs hk, choices]
  simp only [drawable_iff]

lemma allChoices_eq (hk : 1 ≤ k) (secret : RootKey) (shares : List Share) :
    allChoices k secret shares = ∏ b, #(fitting k (fun _ => True) secret shares b) := (ncard_coeffs hk _ _ _)

lemma val_ne_zero {x : Byte} : x.val ≠ 0 ↔ x ≠ 0 := by
  rw [ne_eq, ne_eq, Gf256.Byte.ext_iff]
  rfl

lemma pointOf_injective (hdistinct : (shares.map Share.x).Nodup) : Function.Injective (pointOf shares) := by
  intro i j h
  have hx : (shares.get i).x = (shares.get j).x := congrArg Gf256.Byte.val h
  have hi : (i : ℕ) < (shares.map Share.x).length := by simp
  have hj : (j : ℕ) < (shares.map Share.x).length := by simp
  have heq : (shares.map Share.x)[(i : ℕ)] = (shares.map Share.x)[(j : ℕ)] := by simpa using hx
  exact Fin.ext (hdistinct.getElem_inj_iff.1 heq)

lemma pointOf_ne_zero (hzero : ∀ s ∈ shares, s.x ≠ 0) (i : Fin shares.length) : pointOf shares i ≠ 0 :=
    val_ne_zero.1 (hzero _ (List.get_mem shares i))

/-- Were every byte a coefficient, the shares would go with every key in the same number of ways. -/
lemma allChoices_of_few (hdistinct : (shares.map Share.x).Nodup)
    (hzero : ∀ s ∈ shares, s.x ≠ 0) (hfew : shares.length < k) (secret : RootKey) :
    allChoices k secret shares = 256 ^ (rootKeyLen * (k - 1 - shares.length)) := by
  have hbyte : ∀ b, #(fitting k (fun _ => True) secret shares b) = 256 ^ (k - 1 - shares.length) := by
    intro b
    have hcard := card_evalAt_eq (m := k - 1) (pointOf_injective hdistinct) (pointOf_ne_zero hzero)
      (by rw [Fintype.card_fin]; omega) (valueOf secret shares b)
    rw [Fintype.card_fin, Byte.card] at hcard
    rw [← hcard, fitting]
    simp only [implies_true, true_and]
  rw [allChoices_eq (by omega), prod_congr rfl fun b _ => hbyte b, prod_const, card_univ, Fintype.card_fin, ← pow_mul,
    mul_comm]

lemma choices_le_allChoices (hk : 1 ≤ k) (secret : RootKey) (shares : List Share) :
    choices k secret shares ≤ allChoices k secret shares := by
  rw [choices_eq hk, allChoices_eq hk]
  refine prod_le_prod' fun b _ => card_le_card fun c hc => ?_
  rw [fitting, mem_filter] at hc ⊢
  exact ⟨mem_univ _, fun _ => trivial, hc.2.2⟩

lemma card_fitting_singleton {share : Share} (hzero : share.x ≠ 0) (secret : RootKey) (b : Fin rootKeyLen) :
    (256 : ℤ) * #(fitting k (fun c => c ≠ 0) secret [share] b) =
      255 ^ (k - 1) + (if secret[b] = share.y[b] then 255 else -1) * (-1) ^ (k - 1) := by
  have hpoint : (⟨share.x⟩ : Byte) ≠ 0 := val_ne_zero.1 hzero
  have hfit : fitting k (fun c => c ≠ 0) secret [share] b =
      ({c | (∀ j, c j ≠ 0) ∧ ∑ j : Fin (k - 1), c j * (⟨share.x⟩ : Byte) ^ ((j : ℕ) + 1) =
        ⟨share.y[b]⟩ - ⟨secret[b]⟩} : Finset _) := by
    ext c
    simp only [mem_fitting, List.mem_singleton, forall_eq, mem_filter, mem_univ, true_and, val_ne_zero]
  have hsums := card_nonzeroSums (k - 1) ((⟨share.y[b]⟩ : Byte) - ⟨secret[b]⟩)
  rw [hfit, card_nonzero_evalAt _ hpoint]
  rw [Byte.card, Nat.cast_ofNat] at hsums
  rw [hsums]
  have hsub : (⟨share.y[b]⟩ : Byte) - ⟨secret[b]⟩ = 0 ↔ secret[b] = share.y[b] := by
    rw [sub_eq_zero, Gf256.Byte.ext_iff, eq_comm]
  simp only [hsub]
  norm_num

lemma choices_singleton (hk : 1 ≤ k) {share : Share} (hzero : share.x ≠ 0) (secret : RootKey) :
    (256 : ℤ) ^ rootKeyLen * choices k secret [share] =
      ∏ b : Fin rootKeyLen, (255 ^ (k - 1) + (if secret[b] = share.y[b] then 255 else -1) * (-1) ^ (k - 1)) := by
  rw [choices_eq hk, Nat.cast_prod, ← prod_congr rfl fun b _ => card_fitting_singleton hzero secret b, prod_mul_distrib,
    prod_const, card_univ, Fintype.card_fin]

lemma choices_nil (hk : 1 ≤ k) (secret : RootKey) : choices k secret [] = 255 ^ (rootKeyLen * (k - 1)) := by
  have hbyte : ∀ b, #(fitting k (fun c => c ≠ 0) secret [] b) = 255 ^ (k - 1) := by
    intro b
    have hpi : fitting k (fun c => c ≠ 0) secret [] b = piFinset fun _ => univ.erase (0 : Byte) := by
      ext c
      simp only [mem_fitting, List.not_mem_nil, false_implies, implies_true, and_true, val_ne_zero, mem_piFinset,
        mem_erase, mem_univ]
    rw [hpi, card_piFinset_const, card_erase_of_mem (mem_univ _), card_univ, Byte.card]
  rw [choices_eq hk, prod_congr rfl fun b _ => hbyte b, prod_const, card_univ, Fintype.card_fin, ← pow_mul, mul_comm]

def constantKey (byte : U8) : RootKey := Vector.replicate rootKeyLen byte

/-- The shares with other values, the same for all bytes. -/
def withValues (shares : List Share) (v : Fin shares.length → Byte) : List Share :=
  List.ofFn fun i => { shares.get i with y := constantKey (v i).val }

/-- The values can be such that two keys go with them in different numbers of ways. -/
lemma exists_choices_ne (hk : 1 ≤ k) (hne : shares ≠ []) (hzero : ∀ s ∈ shares, s.x ≠ 0) :
    ∃ given : List Share, given.map Share.x = shares.map Share.x ∧
      ∃ secret secret', choices k secret given ≠ choices k secret' given := by
  have hpos : 0 < shares.length := List.length_pos_iff.2 hne
  obtain ⟨v, hv⟩ := exists_card_nonzero_ne (m := k - 1) (pointOf_ne_zero hzero ⟨0, hpos⟩)
  have hbyte : ∀ (byte : Byte) (b : Fin rootKeyLen),
      fitting k (fun c => c ≠ 0) (constantKey byte.val) (withValues shares v) b =
        ({c | (∀ j, c j ≠ 0) ∧ evalAt (pointOf shares) c = fun i => v i - byte} : Finset _) := by
    intro byte b
    ext c
    simp only [mem_fitting, withValues, List.forall_mem_ofFn_iff, constantKey, mem_filter, mem_univ, true_and,
      val_ne_zero, funext_iff, evalAt_apply, pointOf, Fin.getElem_fin, Vector.getElem_replicate]
  have hkey : ∀ byte : Byte, choices k (constantKey byte.val) (withValues shares v) =
      #{c : Fin (k - 1) → Byte | (∀ j, c j ≠ 0) ∧ evalAt (pointOf shares) c = fun i => v i - byte} ^ rootKeyLen := by
    intro byte
    rw [choices_eq hk, prod_congr rfl fun b _ => congrArg card (hbyte byte b), prod_const, card_univ, Fintype.card_fin]
  refine ⟨withValues shares v, ?_, constantKey (0 : Byte).val, constantKey (1 : Byte).val, fun h => hv ?_⟩
  · rw [withValues, List.map_ofFn]
    exact List.ofFn_getElem_eq_map shares Share.x
  · rw [hkey, hkey] at h
    have hroot := Nat.pow_left_injective (by decide : rootKeyLen ≠ 0) h
    simp only [sub_zero] at hroot
    exact hroot

/-- **What fewer shares than the threshold tell.**  With every byte as a coefficient, each key would go with them in the
same number of ways, and there are never more ways for the split.  With no share the split has as many ways for each
key.  With one share a byte of the key that is the byte of the share has one way more, or less, than any other byte; and
wherever the shares are, their values can be such that two keys go with them in different numbers of ways. -/
theorem choices_of_few_shares {k : ℕ} (hk : 2 ≤ k) {shares : List Share} (hdistinct : (shares.map Share.x).Nodup)
    (hzero : ∀ s ∈ shares, s.x ≠ 0) (hfew : shares.length < k) :
    (∀ secret, allChoices k secret shares = 256 ^ (rootKeyLen * (k - 1 - shares.length))) ∧
    (∀ secret, choices k secret shares ≤ allChoices k secret shares) ∧
    (shares = [] → ∀ secret, choices k secret shares = 255 ^ (rootKeyLen * (k - 1))) ∧
    (∀ share, shares = [share] → ∀ secret, (256 : ℤ) ^ rootKeyLen * choices k secret shares =
      ∏ b : Fin rootKeyLen, (255 ^ (k - 1) + (if secret[b] = share.y[b] then 255 else -1) * (-1) ^ (k - 1))) ∧
    (shares ≠ [] → ∃ given : List Share, given.map Share.x = shares.map Share.x ∧
      ∃ secret secret', choices k secret given ≠ choices k secret' given) := by
  have hk1 : 1 ≤ k := by omega
  refine ⟨allChoices_of_few hdistinct hzero hfew, fun secret => choices_le_allChoices hk1 secret shares, ?_, ?_,
    fun hne => exists_choices_ne hk1 hne hzero⟩
  · rintro rfl secret
    exact choices_nil hk1 secret
  · rintro share rfl secret
    exact choices_singleton hk1 (hzero share (List.mem_singleton_self _)) secret

/-- A share that a split of the key of ones gives, with the threshold two. -/
def zeroShare : Share := ⟨1, 2, 2, 1, constantKey 0⟩

/-- The split never draws the zero that would take the key of zeros to this share. -/
theorem choices_zeroShare :
    ((splitSecret (constantKey 1) 2 2 ([1, 0] ++ List.replicate 32 1)).toOption.bind id).map List.head? =
      some (some zeroShare) ∧ [zeroShare].length < 2 ∧
    choices 2 (constantKey 0) [zeroShare] = 0 ∧ choices 2 (constantKey 1) [zeroShare] = 1 := by
  have hzero : zeroShare.x ≠ 0 := by decide
  have hzeros := choices_singleton (k := 2) (by decide) hzero (constantKey 0)
  have hones := choices_singleton (k := 2) (by decide) hzero (constantKey 1)
  refine ⟨by decide +kernel, by decide, ?_, ?_⟩
  · simpa [zeroShare, constantKey] using hzeros
  · simpa [zeroShare, constantKey] using hones

theorem choices_of_few_shares_zeroShare : (zeroShare.x ≠ 0 ∧ [zeroShare].length < 3) ∧
    allChoices 3 (constantKey 0) [zeroShare] = 256 ^ 32 := by
  refine ⟨by decide, ?_⟩
  exact (choices_of_few_shares (k := 3) (by decide) (by decide) (by decide) (by decide)).1 (constantKey 0)

end Coord.Security
