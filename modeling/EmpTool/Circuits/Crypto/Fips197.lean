import EmpTool.Library.BinaryPoly
import EmpTool.Library.Recurrence
import Mathlib.Algebra.Polynomial.Monic
import Mathlib.Logic.Function.Iterate
import Mathlib.Tactic.ComputeDegree
import Mathlib.Tactic.LinearCombination

namespace EmpTool.Circuits.Fips197

open Binary BinaryPoly Polynomial Recurrence

abbrev Byte := BitVec 8

def xtime (b : Byte) : Byte := if b.msb then b <<< 1 ^^^ 0x1b else b <<< 1

def mulFrom (a b : Byte) (i : Nat) : Nat → Byte
  | 0 => 0
  | n + 1 => (if b.getLsbD i then a else 0) ^^^ mulFrom (xtime a) b (i + 1) n

def mul (a b : Byte) : Byte := mulFrom a b 0 8

def bytes : List Byte := (List.range 256).map (BitVec.ofNat 8)

-- zero, which has no inverse, is mapped to itself
def inv (a : Byte) : Byte := (bytes.find? fun b => mul a b == 1).getD 0

def affine (b : Byte) : Byte :=
  vecOf 8 fun i => b.getLsbD i ^^ b.getLsbD ((i + 4) % 8) ^^ b.getLsbD ((i + 5) % 8) ^^
    b.getLsbD ((i + 6) % 8) ^^ b.getLsbD ((i + 7) % 8) ^^ (0x63 : Byte).getLsbD i

def sbox (b : Byte) : Byte := affine (inv b)

-- the columns of the state follow each other
abbrev State := Vector Byte 16

namespace State

def entry (s : State) (r c : Fin 4) : Byte := s[4 * c.val + r.val]

def build (f : Fin 4 → Fin 4 → Byte) : State :=
  Vector.ofFn fun j => f ⟨j % 4, by omega⟩ ⟨j / 4, by omega⟩

end State

open State

abbrev Quad := Vector Byte 4

def quadXor (v w : Quad) : Quad := Vector.zipWith (· ^^^ ·) v w

def subBytes (s : State) : State := build fun r c => sbox (s.entry r c)

def shiftRows (s : State) : State := build fun r c => s.entry r (c + r)

def mixColumns (s : State) : State := build fun r c =>
  mul 2 (s.entry r c) ^^^ mul 3 (s.entry (r + 1) c) ^^^ s.entry (r + 2) c ^^^ s.entry (r + 3) c

def addRoundKey (w : List Quad) (round : Nat) (s : State) : State := build fun r c =>
  s.entry r c ^^^ (w.getD (4 * round + c) default)[r]

def rotWord (w : Quad) : Quad := Vector.ofFn fun b => w[b + 1]

def subWord (w : Quad) : Quad := Vector.ofFn fun b => sbox w[b]

def rcon (i : Nat) : Quad := Vector.ofFn fun b => if b = 0 then xtime^[i - 1] 1 else 0

def nextWord (i : Nat) (fourBack back : Quad) : Quad :=
  quadXor fourBack (if i % 4 = 0 then quadXor (subWord (rotWord back)) (rcon (i / 4)) else back)

def expand (key : Nat → Quad) (i : Nat) (w : List Quad) : Quad :=
  if i < 4 then key i else nextWord i (w.getD (i - 4) default) (w.getD (i - 1) default)

def keyExpansion (key : Vector Byte 16) : List Quad :=
  grow (expand fun i => Vector.ofFn fun b => key[Fin.ofNat 16 (4 * i + b)]) 44

def cipher (w : List Quad) (plaintext : State) : State :=
  let s := addRoundKey w 0 plaintext
  let s := (List.range 9).foldl
    (fun s i => addRoundKey w (i + 1) (mixColumns (shiftRows (subBytes s)))) s
  addRoundKey w 10 (shiftRows (subBytes s))

def aes128 (key plaintext : Vector Byte 16) : Vector Byte 16 := cipher (keyExpansion key) plaintext

-- `x^8 + x^4 + x^3 + x + 1`
def tail : Byte := 0x1b

theorem toPoly_tail : toPoly tail = X ^ 4 + X ^ 3 + X + 1 := by
  have h : tail = BitVec.twoPow 8 4 ^^^ BitVec.twoPow 8 3 ^^^ BitVec.twoPow 8 1 ^^^
    BitVec.twoPow 8 0 := rfl
  rw [h, toPoly_xor, toPoly_xor, toPoly_xor, toPoly_twoPow (by decide), toPoly_twoPow (by decide),
    toPoly_twoPow (by decide), toPoly_twoPow (by decide), pow_one, pow_zero]

theorem toPoly_xtime (b : Byte) : toPoly (xtime b) = (X * toPoly b) %ₘ modulus tail := by
  have hshift := toPoly_shiftLeft b (by decide : 1 ≤ 8)
  rw [pow_one] at hshift
  have htop : toPoly (b >>> 7) = C (scalar b.msb) := by
    ext i
    rw [coeff_toPoly, coeff_C, BitVec.getLsbD_ushiftRight, BitVec.msb_eq_getLsbD_last]
    by_cases hi : i = 0
    · rw [if_pos hi, hi]
    · rw [if_neg hi, BitVec.getLsbD_of_ge b _ (by omega), scalar_false]
  rw [xtime]
  split
  case isTrue hmsb =>
    apply toPoly_eq_mod (q := 1)
    rw [htop, hmsb, scalar_true, map_one] at hshift
    rw [hshift, show (0x1b : Byte) = tail from rfl, toPoly_xor, modulus]
    linear_combination toPoly tail * (CharTwo.two_eq_zero : (2 : (ZMod 2)[X]) = 0)
  case isFalse hmsb =>
    rw [Bool.not_eq_true] at hmsb
    rw [htop, hmsb, scalar_false, map_zero, mul_zero, add_zero] at hshift
    rw [hshift, toPoly_mod]

theorem toPoly_mulFrom (a b : Byte) (i n : Nat) :
    toPoly (mulFrom a b i n) =
      (toPoly a * ∑ j ∈ Finset.range n, C (scalar (b.getLsbD (i + j))) * X ^ j) %ₘ modulus tail := by
  induction n generalizing a i with
  | zero => simp [mulFrom, toPoly]
  | succ n ih =>
    have hbit : toPoly (if b.getLsbD i then a else 0) = toPoly a * C (scalar (b.getLsbD i)) := by
      split
      case isTrue h => rw [h, scalar_true, map_one, mul_one]
      case isFalse h => simp [h, toPoly]
    have hsum : ∑ j ∈ Finset.range (n + 1), C (scalar (b.getLsbD (i + j))) * (X : (ZMod 2)[X]) ^ j =
        C (scalar (b.getLsbD i)) +
          X * ∑ j ∈ Finset.range n, C (scalar (b.getLsbD (i + 1 + j))) * X ^ j := by
      rw [Finset.sum_range_succ', Finset.mul_sum, add_comm, pow_zero, mul_one, add_zero]
      refine congrArg (C (scalar (b.getLsbD i)) + ·) (Finset.sum_congr rfl fun j _ => ?_)
      rw [show i + (j + 1) = i + 1 + j by omega]
      ring
    have hlow : (toPoly a * C (scalar (b.getLsbD i))) %ₘ modulus tail =
        toPoly a * C (scalar (b.getLsbD i)) := by rw [← hbit, toPoly_mod]
    rw [mulFrom, toPoly_xor, ih, hbit, toPoly_xtime, mul_mod_left, hsum, mul_add, add_modByMonic,
      hlow, mul_comm X, mul_assoc]

theorem toPoly_mul (a b : Byte) : toPoly (mul a b) = (toPoly a * toPoly b) %ₘ modulus tail := by
  rw [mul, toPoly_mulFrom]
  simp only [Nat.zero_add, toPoly]

theorem xtime_xor (a b : Byte) : xtime (a ^^^ b) = xtime a ^^^ xtime b := by
  apply toPoly_injective
  rw [toPoly_xor, toPoly_xtime, toPoly_xtime, toPoly_xtime, toPoly_xor, mul_add, add_modByMonic]

theorem two_mul (b : Byte) : mul 2 b = xtime b := by
  have h : toPoly (2 : Byte) = X ^ 1 := toPoly_twoPow (n := 8) (k := 1) (by decide)
  apply toPoly_injective
  rw [toPoly_mul, toPoly_xtime, h, pow_one]

theorem three_mul (b : Byte) : mul 3 b = xtime b ^^^ b := by
  have h : toPoly (3 : Byte) = X + 1 := by
    rw [show (3 : Byte) = BitVec.twoPow 8 1 ^^^ BitVec.twoPow 8 0 from rfl, toPoly_xor,
      toPoly_twoPow (by decide), toPoly_twoPow (by decide), pow_one, pow_zero]
  apply toPoly_injective
  rw [toPoly_mul, h, add_mul, one_mul, add_modByMonic, toPoly_mod, toPoly_xor, toPoly_xtime]

theorem eq_of_mul_eq_one {a b b' : Byte} (h : mul a b = 1) (h' : mul a b' = 1) : b = b' := by
  have hone : toPoly (1 : Byte) = 1 :=
    (toPoly_twoPow (n := 8) (k := 0) (by decide)).trans (pow_zero X)
  apply toPoly_injective
  calc toPoly b
      = (toPoly (mul a b') * toPoly b) %ₘ modulus tail := by rw [h', hone, one_mul, toPoly_mod]
    _ = (toPoly a * toPoly b' * toPoly b) %ₘ modulus tail := by rw [toPoly_mul, mul_mod_left]
    _ = (toPoly a * toPoly b * toPoly b') %ₘ modulus tail := by rw [mul_right_comm]
    _ = (toPoly (mul a b) * toPoly b') %ₘ modulus tail := by rw [toPoly_mul, mul_mod_left]
    _ = toPoly b' := by rw [h, hone, one_mul, toPoly_mod]

theorem mem_bytes (b : Byte) : b ∈ bytes :=
  List.mem_map.mpr ⟨b.toNat, List.mem_range.mpr b.isLt, by rw [BitVec.ofNat_toNat, BitVec.setWidth_eq]⟩

theorem inv_eq {a b : Byte} (h : mul a b = 1) : inv a = b := by
  obtain ⟨b', hfind⟩ : ∃ b', bytes.find? (fun b => mul a b == 1) = some b' := by
    rw [← Option.isSome_iff_exists, List.find?_isSome]
    exact ⟨b, mem_bytes b, beq_iff_eq.mpr h⟩
  have hb' := List.find?_some hfind
  rw [inv, hfind]
  exact eq_of_mul_eq_one (beq_iff_eq.mp hb') h

theorem inv_zero : inv 0 = 0 := by decide +kernel

theorem getLsbD_xtime (b : Byte) {i : Nat} (hi : i < 8) :
    (xtime b).getLsbD i =
      ((!decide (i < 1) && b.getLsbD (i - 1)) ^^ (b.getLsbD 7 && (0x1b : Byte).getLsbD i)) := by
  have hshift : (b <<< 1).getLsbD i = (!decide (i < 1) && b.getLsbD (i - 1)) := by
    rw [BitVec.getLsbD_shiftLeft, decide_eq_true hi, Bool.true_and]
  have hmsb : b.msb = b.getLsbD 7 := BitVec.msb_eq_getLsbD_last b
  rw [xtime, hmsb]
  split
  case isTrue h => rw [BitVec.getLsbD_xor, hshift, h, Bool.true_and]
  case isFalse h => rw [hshift, eq_false_of_ne_true h, Bool.false_and, Bool.xor_false]

theorem grow_expand {key w : Nat → Quad} {n : Nat}
    (h : ∀ i < n, w i = if i < 4 then key i else nextWord i (w (i - 4)) (w (i - 1))) :
    grow (expand key) n = (List.range n).map w := by
  apply grow_eq
  intro i hi
  rw [h i hi, expand]
  by_cases hlow : i < 4
  · rw [if_pos hlow, if_pos hlow]
  · rw [if_neg hlow, if_neg hlow, getD_map_range w (by omega), getD_map_range w (by omega)]

end EmpTool.Circuits.Fips197
