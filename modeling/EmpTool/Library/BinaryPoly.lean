import EmpTool.Library.Binary
import Mathlib.Algebra.Polynomial.Div
import Mathlib.Algebra.Polynomial.Monic
import Mathlib.Algebra.Polynomial.Reverse
import Mathlib.Algebra.Polynomial.Degree.Lemmas
import Mathlib.Algebra.Field.ZMod

open Binary Polynomial

namespace BinaryPoly

def scalar (b : Bool) : ZMod 2 := if b then 1 else 0

@[simp] theorem scalar_false : scalar false = 0 := rfl

@[simp] theorem scalar_true : scalar true = 1 := rfl

theorem scalar_xor (a b : Bool) : scalar (a ^^ b) = scalar a + scalar b := by
  cases a <;> cases b <;> decide

theorem scalar_and (a b : Bool) : scalar (a && b) = scalar a * scalar b := by
  cases a <;> cases b <;> decide

theorem scalar_injective : Function.Injective scalar := by decide

theorem scalar_foldl_xor (f : Nat → Bool) (n : Nat) :
    scalar ((List.range n).foldl (fun acc j => acc ^^ f j) false) =
      ∑ j ∈ Finset.range n, scalar (f j) := by
  induction n with
  | zero => rfl
  | succ n ih => simp [List.range_succ, Finset.sum_range_succ, scalar_xor, ih]

theorem add_self (p : (ZMod 2)[X]) : p + p = 0 := CharTwo.add_self_eq_zero p

variable {m n : Nat}

-- bit `i` of the word is the coefficient of `X ^ i`
noncomputable def toPoly (x : BitVec n) : (ZMod 2)[X] :=
  ∑ i ∈ Finset.range n, C (scalar (x.getLsbD i)) * X ^ i

@[simp] theorem coeff_toPoly (x : BitVec n) (i : Nat) :
    (toPoly x).coeff i = scalar (x.getLsbD i) := by
  simp only [toPoly, finsetSum_coeff, coeff_C_mul, coeff_X_pow, mul_ite, mul_one, mul_zero]
  rw [Finset.sum_ite_eq]
  split
  case isTrue _ => rfl
  case isFalse h => rw [BitVec.getLsbD_of_ge x i (by simpa using h), scalar_false]

theorem toPoly_injective : Function.Injective (toPoly (n := n)) := by
  intro x y h
  apply BitVec.eq_of_getLsbD_eq
  intro i _
  apply scalar_injective
  rw [← coeff_toPoly, ← coeff_toPoly, h]

theorem degree_toPoly_lt (x : BitVec n) : (toPoly x).degree < n := by
  rw [degree_lt_iff_coeff_zero]
  intro i hi
  rw [coeff_toPoly, BitVec.getLsbD_of_ge x i hi, scalar_false]

theorem natDegree_toPoly_le (x : BitVec m) (hm : m = n + 1) : (toPoly x).natDegree ≤ n := by
  rw [natDegree_le_iff_coeff_eq_zero]
  intro i hi
  rw [coeff_toPoly, BitVec.getLsbD_of_ge x i (by omega), scalar_false]

theorem toPoly_xor (x y : BitVec n) : toPoly (x ^^^ y) = toPoly x + toPoly y := by
  ext i
  rw [coeff_add, coeff_toPoly, coeff_toPoly, coeff_toPoly, BitVec.getLsbD_xor, scalar_xor]

def xorSum (count : Nat) (f : Nat → BitVec n) : BitVec n :=
  (List.range count).foldl (fun acc i => acc ^^^ f i) 0

theorem xorSum_succ (count : Nat) (f : Nat → BitVec n) :
    xorSum (count + 1) f = xorSum count f ^^^ f count := by
  rw [xorSum, List.range_succ, List.foldl_append, List.foldl_cons, List.foldl_nil, xorSum]

theorem toPoly_zero : toPoly (0 : BitVec n) = 0 := by
  simp [toPoly]

theorem toPoly_xorSum (count : Nat) (f : Nat → BitVec n) :
    toPoly (xorSum count f) = ∑ i ∈ Finset.range count, toPoly (f i) := by
  induction count with
  | zero => exact toPoly_zero
  | succ count ih => rw [xorSum_succ, toPoly_xor, ih, Finset.sum_range_succ]

theorem toPoly_append (hi : BitVec m) (lo : BitVec n) :
    toPoly (hi ++ lo) = toPoly lo + X ^ n * toPoly hi := by
  ext i
  rw [coeff_add, coeff_X_pow_mul', coeff_toPoly, coeff_toPoly, BitVec.getLsbD_append]
  by_cases h : i < n
  · rw [if_pos h, if_neg (by omega), add_zero]
  · rw [if_neg h, if_pos (by omega), coeff_toPoly,
      BitVec.getLsbD_of_ge lo i (by omega), scalar_false, zero_add]

@[irreducible] noncomputable def joined (lo hi : BitVec n) : (ZMod 2)[X] :=
  toPoly lo + X ^ n * toPoly hi

theorem joined_xor (lo hi lo' hi' : BitVec n) :
    joined (lo ^^^ lo') (hi ^^^ hi') = joined lo hi + joined lo' hi' := by
  rw [joined, toPoly_xor, toPoly_xor, joined, joined]
  ring

theorem joined_zero : joined (0 : BitVec n) 0 = 0 := by
  rw [joined, toPoly_zero, mul_zero, add_zero]

theorem toPoly_shiftLeft (x : BitVec n) {k : Nat} (hk : k ≤ n) :
    X ^ k * toPoly x = toPoly (x <<< k) + X ^ n * toPoly (x >>> (n - k)) := by
  ext i
  rw [coeff_add, coeff_X_pow_mul', coeff_X_pow_mul']
  simp only [coeff_toPoly, BitVec.getLsbD_shiftLeft, BitVec.getLsbD_ushiftRight]
  by_cases hn : i < n
  · rw [if_neg (by omega : ¬ n ≤ i), add_zero, decide_eq_true hn, Bool.true_and]
    by_cases hki : k ≤ i
    · rw [if_pos hki, decide_eq_false (by omega), Bool.not_false, Bool.true_and]
    · rw [if_neg hki, decide_eq_true (by omega), Bool.not_true, Bool.false_and, scalar_false]
  · rw [if_pos (by omega), if_pos (by omega), decide_eq_false hn, Bool.false_and, Bool.false_and,
      scalar_false, zero_add]
    congr 2
    omega

theorem joined_shift {k : Nat} (hk : k ≤ n) (x : BitVec n) :
    joined (x <<< k) (x >>> (n - k)) = X ^ k * toPoly x := by
  rw [joined, toPoly_shiftLeft x hk]

theorem joined_shiftLeft {k : Nat} (hk : k ≤ n) {lo hi : BitVec n} (hout : hi >>> (n - k) = 0) :
    joined (lo <<< k) (lo >>> (n - k) ^^^ hi <<< k) = X ^ k * joined lo hi := by
  have hhi := toPoly_shiftLeft hi hk
  rw [hout, toPoly_zero, mul_zero, add_zero] at hhi
  rw [joined, joined, toPoly_xor, ← hhi, mul_add (X ^ k), toPoly_shiftLeft lo hk]
  ring

theorem toPoly_reverse (x : BitVec m) (hm : m = n + 1) :
    toPoly x.reverse = reflect n (toPoly x) := by
  subst hm
  ext i
  rw [coeff_toPoly, coeff_reflect, coeff_toPoly, BitVec.getLsbD_reverse]
  by_cases hi : i ≤ n
  · rw [revAt_le hi, BitVec.getMsbD, decide_eq_true (by omega), Bool.true_and]
    congr 2
  · rw [revAt_eq_self_of_lt (by omega), BitVec.getMsbD, decide_eq_false (by omega),
      BitVec.getLsbD_of_ge x i (by omega), Bool.false_and]

-- carry-less product: bit `i` is the parity of the products of weight `i`
def clmul (a : BitVec m) (b : BitVec n) : BitVec (m + n) :=
  vecOf (m + n) fun i =>
    (List.range (i + 1)).foldl (fun acc j => acc ^^ (a.getLsbD j && b.getLsbD (i - j))) false

theorem toPoly_clmul (a : BitVec m) (b : BitVec n) :
    toPoly (clmul a b) = toPoly a * toPoly b := by
  ext i
  rw [coeff_mul, Finset.Nat.sum_antidiagonal_eq_sum_range_succ_mk, coeff_toPoly, clmul]
  rw [getLsbD_vecOf]
  by_cases hi : i < m + n
  · rw [decide_eq_true hi, Bool.true_and, scalar_foldl_xor]
    exact Finset.sum_congr rfl fun j _ => by rw [scalar_and, coeff_toPoly, coeff_toPoly]
  · rw [decide_eq_false hi, Bool.false_and, scalar_false, eq_comm]
    apply Finset.sum_eq_zero
    intro j _
    rw [coeff_toPoly, coeff_toPoly]
    by_cases hm : j < m
    · rw [BitVec.getLsbD_of_ge b (i - j) (by omega), scalar_false, mul_zero]
    · rw [BitVec.getLsbD_of_ge a j (by omega), scalar_false, zero_mul]

theorem toPoly_twoPow {k : Nat} (hk : k < n) : toPoly (BitVec.twoPow n k) = X ^ k := by
  ext i
  rw [coeff_toPoly, coeff_X_pow, BitVec.getLsbD_twoPow, decide_eq_true hk, Bool.true_and]
  by_cases hi : i = k
  · rw [if_pos hi, decide_eq_true hi.symm, scalar_true]
  · rw [if_neg hi, decide_eq_false (Ne.symm hi), scalar_false]

noncomputable def modulus (tail : BitVec n) : (ZMod 2)[X] := X ^ n + toPoly tail

theorem modulus_monic (tail : BitVec n) : (modulus tail).Monic := by
  unfold modulus
  exact monic_X_pow_add (degree_toPoly_lt tail)

theorem degree_modulus (tail : BitVec n) : (modulus tail).degree = n := by
  have h : (toPoly tail).degree < (X ^ n : (ZMod 2)[X]).degree := by
    simpa only [degree_X_pow] using degree_toPoly_lt tail
  unfold modulus
  exact (degree_add_eq_left_of_degree_lt h).trans (degree_X_pow n)

theorem toPoly_mod (x tail : BitVec n) : toPoly x %ₘ modulus tail = toPoly x := by
  rw [modByMonic_eq_self_iff (modulus_monic tail), degree_modulus]
  exact degree_toPoly_lt x

theorem toPoly_eq_mod {x tail : BitVec n} {p q : (ZMod 2)[X]}
    (h : toPoly x + modulus tail * q = p) : toPoly x = p %ₘ modulus tail := by
  rw [← h, add_modByMonic, self_mul_modByMonic (modulus_monic tail), add_zero, toPoly_mod]

theorem sum_mod (f : Nat → (ZMod 2)[X]) (tail : BitVec n) (count : Nat) :
    ∑ i ∈ Finset.range count, f i %ₘ modulus tail =
      (∑ i ∈ Finset.range count, f i) %ₘ modulus tail := by
  induction count with
  | zero => exact (zero_modByMonic (modulus tail)).symm
  | succ count ih => rw [Finset.sum_range_succ, ih, Finset.sum_range_succ, add_modByMonic]

theorem mul_mod_left (p q : (ZMod 2)[X]) (tail : BitVec n) :
    (p %ₘ modulus tail * q) %ₘ modulus tail = (p * q) %ₘ modulus tail := by
  have hself : p %ₘ modulus tail %ₘ modulus tail = p %ₘ modulus tail :=
    (modByMonic_eq_self_iff (modulus_monic tail)).mpr (degree_modByMonic_lt p (modulus_monic tail))
  rw [mul_modByMonic, hself, ← mul_modByMonic]

end BinaryPoly
