import EmpTool.Library.BinaryPoly
import Mathlib.Tactic.LinearCombination

namespace EmpTool.Crypto

open BinaryPoly Polynomial

abbrev M128i := BitVec 128

namespace M128i

def lane (x : M128i) (j : Nat) : BitVec 32 := x.extractLsb' (32 * j) 32

def ofLanes (f : Nat → BitVec 32) : M128i := f 3 ++ f 2 ++ f 1 ++ f 0

def half (x : M128i) (high : Bool) : BitVec 64 := x.extractLsb' (if high then 64 else 0) 64

def setrEpi32 (a b c d : BitVec 32) : M128i := d ++ c ++ b ++ a

def srliEpi32 (x : M128i) (k : Nat) : M128i := ofLanes fun j => x.lane j >>> k

def slliEpi32 (x : M128i) (k : Nat) : M128i := ofLanes fun j => x.lane j <<< k

def srliSi128 (x : M128i) (bytes : Nat) : M128i := x >>> (8 * bytes)

def slliSi128 (x : M128i) (bytes : Nat) : M128i := x <<< (8 * bytes)

-- two bits of the immediate name the source of each lane
def shuffleEpi32 (x : M128i) (imm : Nat) : M128i :=
  ofLanes fun j => x.lane (imm / 4 ^ j % 4)

def andnotSi128 (x y : M128i) : M128i := ~~~x &&& y

-- bits 0 and 4 of the immediate choose the halves
def clmulepi64Si128 (x y : M128i) (imm : Nat) : M128i :=
  clmul (x.half (imm.testBit 0)) (y.half (imm.testBit 4))

theorem getLsbD_ofLanes (f : Nat → BitVec 32) {i : Nat} (hi : i < 128) :
    (ofLanes f).getLsbD i = (f (i / 32)).getLsbD (i % 32) := by
  simp only [ofLanes, BitVec.getLsbD_append]
  have hlane : i / 32 = 0 ∨ i / 32 = 1 ∨ i / 32 = 2 ∨ i / 32 = 3 := by omega
  rcases hlane with h | h | h | h
  · rw [h, if_pos (by omega)]
    congr 1
    omega
  · rw [h, if_neg (by omega), if_pos (by omega)]
    congr 1
    omega
  · rw [h, if_neg (by omega), if_neg (by omega), if_pos (by omega)]
    congr 1
    omega
  · rw [h, if_neg (by omega), if_neg (by omega), if_neg (by omega)]
    congr 1
    omega

theorem getLsbD_lane (x : M128i) (j i : Nat) :
    (x.lane j).getLsbD i = (decide (i < 32) && x.getLsbD (32 * j + i)) := by
  rw [lane, BitVec.getLsbD_extractLsb']

theorem getLsbD_srliEpi32 (x : M128i) (k : Nat) {i : Nat} (hi : i < 128) :
    (x.srliEpi32 k).getLsbD i = (decide (i % 32 + k < 32) && x.getLsbD (i + k)) := by
  rw [srliEpi32, getLsbD_ofLanes _ hi, BitVec.getLsbD_ushiftRight, getLsbD_lane]
  congr 2
  · rw [Nat.add_comm]
  · omega

theorem getLsbD_slliEpi32 (x : M128i) (k : Nat) {i : Nat} (hi : i < 128) :
    (x.slliEpi32 k).getLsbD i = (decide (k ≤ i % 32) && x.getLsbD (i - k)) := by
  rw [slliEpi32, getLsbD_ofLanes _ hi, BitVec.getLsbD_shiftLeft, getLsbD_lane,
    decide_eq_true (Nat.mod_lt i (by decide)), Bool.true_and]
  by_cases hk : k ≤ i % 32
  · rw [decide_eq_false (by omega), decide_eq_true (by omega), decide_eq_true hk, Bool.not_false,
      Bool.true_and, Bool.true_and]
    congr 1
    omega
  · rw [decide_eq_true (by omega), decide_eq_false hk, Bool.not_true, Bool.false_and,
      Bool.false_and]

theorem getLsbD_crossing (x : M128i) {k : Nat} (hk : k ≤ 32) {i : Nat} (hi : i < 128) :
    ((x.srliEpi32 (32 - k)).slliSi128 4).getLsbD i =
      (decide (i % 32 < k ∧ 32 ≤ i) && x.getLsbD (i - k)) := by
  rw [slliSi128, BitVec.getLsbD_shiftLeft, getLsbD_srliEpi32 x _ (by omega)]
  have hcross : 32 ≤ i → i - 8 * 4 + (32 - k) = i - k := by omega
  grind

-- a lane shift and the bits that cross into the next lane make a shift of the register
theorem shiftLeft_lanes (x : M128i) {k : Nat} (hk : k ≤ 32) :
    x.slliEpi32 k ^^^ (x.srliEpi32 (32 - k)).slliSi128 4 = x <<< k := by
  apply BitVec.eq_of_getLsbD_eq
  intro i hi
  rw [BitVec.getLsbD_xor, getLsbD_slliEpi32 x k hi, getLsbD_crossing x hk hi,
    BitVec.getLsbD_shiftLeft]
  grind

theorem shiftLeft_lanes_or (x : M128i) {k : Nat} (hk : k ≤ 32) :
    x.slliEpi32 k ||| (x.srliEpi32 (32 - k)).slliSi128 4 = x <<< k := by
  apply BitVec.eq_of_getLsbD_eq
  intro i hi
  rw [BitVec.getLsbD_or, getLsbD_slliEpi32 x k hi, getLsbD_crossing x hk hi,
    BitVec.getLsbD_shiftLeft]
  grind

theorem srliEpi32_top (x : M128i) {k : Nat} (hk : k ≤ 32) :
    x.srliEpi32 (32 - k) >>> 96 = x >>> (128 - k) := by
  apply BitVec.eq_of_getLsbD_eq
  intro i _
  rw [BitVec.getLsbD_ushiftRight, BitVec.getLsbD_ushiftRight]
  by_cases hi : 96 + i < 128
  · rw [getLsbD_srliEpi32 x _ hi, show 96 + i + (32 - k) = 128 - k + i by omega]
    by_cases hin : i < k
    · rw [decide_eq_true (by omega), Bool.true_and]
    · rw [BitVec.getLsbD_of_ge x (128 - k + i) (by omega), Bool.and_false]
  · rw [BitVec.getLsbD_of_ge _ (96 + i) (by omega), BitVec.getLsbD_of_ge _ (128 - k + i) (by omega)]

theorem getLsbD_shuffleEpi32 (x : M128i) {i : Nat} (hi : i < 128) :
    (x.shuffleEpi32 147).getLsbD i = x.getLsbD ((i + 96) % 128) := by
  have hlane : i / 32 = 0 ∨ i / 32 = 1 ∨ i / 32 = 2 ∨ i / 32 = 3 := by omega
  rw [shuffleEpi32, getLsbD_ofLanes _ hi, getLsbD_lane, decide_eq_true (Nat.mod_lt i (by decide)),
    Bool.true_and]
  congr 1
  rcases hlane with h | h | h | h <;> rw [h] <;> omega

theorem getLsbD_lowLane (i : Nat) :
    (setrEpi32 0xffffffff 0 0 0).getLsbD i = decide (i < 32) := by
  have hones : (0xffffffff : BitVec 32) = BitVec.allOnes 32 := rfl
  rw [setrEpi32, hones]
  simp only [BitVec.getLsbD_append, BitVec.getLsbD_allOnes, BitVec.ofNat_eq_ofNat,
    BitVec.getLsbD_zero, ite_self]
  by_cases hi : i < 32 <;> simp [hi]

-- the mask picks the bits that leave the register, its complement those that cross a lane
theorem and_shuffle (x : M128i) :
    setrEpi32 0xffffffff 0 0 0 &&& x.shuffleEpi32 147 = x >>> 96 := by
  apply BitVec.eq_of_getLsbD_eq
  intro i hi
  rw [BitVec.getLsbD_and, getLsbD_lowLane, getLsbD_shuffleEpi32 x hi, BitVec.getLsbD_ushiftRight]
  by_cases hlow : i < 32
  · rw [decide_eq_true hlow, Bool.true_and]
    congr 1
    omega
  · rw [decide_eq_false hlow, Bool.false_and, BitVec.getLsbD_of_ge x (96 + i) (by omega)]

theorem andnot_shuffle (x : M128i) :
    (setrEpi32 0xffffffff 0 0 0).andnotSi128 (x.shuffleEpi32 147) = x.slliSi128 4 := by
  apply BitVec.eq_of_getLsbD_eq
  intro i hi
  rw [andnotSi128, slliSi128, BitVec.getLsbD_and, BitVec.getLsbD_not, getLsbD_lowLane,
    getLsbD_shuffleEpi32 x hi, BitVec.getLsbD_shiftLeft, decide_eq_true hi, Bool.true_and]
  by_cases hlow : i < 32
  · rw [decide_eq_true hlow]
    rfl
  · rw [decide_eq_false hlow]
    congr 2
    omega

theorem slliSi128_xor (x y : M128i) (b : Nat) :
    (x ^^^ y).slliSi128 b = x.slliSi128 b ^^^ y.slliSi128 b := BitVec.shiftLeft_xor_distrib x y _

theorem getLsbD_reverse_of_lt (x : M128i) {i : Nat} (hi : i < 128) :
    x.reverse.getLsbD i = x.getLsbD (127 - i) := by
  rw [BitVec.getLsbD_reverse, BitVec.getMsbD, decide_eq_true hi, Bool.true_and]

theorem reverse_xor (x y : M128i) : (x ^^^ y).reverse = x.reverse ^^^ y.reverse := by
  apply BitVec.eq_of_getLsbD_eq
  intro i hi
  rw [BitVec.getLsbD_xor, getLsbD_reverse_of_lt _ hi, getLsbD_reverse_of_lt _ hi,
    getLsbD_reverse_of_lt _ hi, BitVec.getLsbD_xor]

theorem reverse_srliEpi32 (x : M128i) (k : Nat) :
    (x.srliEpi32 k).reverse = slliEpi32 x.reverse k := by
  apply BitVec.eq_of_getLsbD_eq
  intro i hi
  rw [getLsbD_reverse_of_lt _ hi, getLsbD_srliEpi32 x k (by omega), getLsbD_slliEpi32 _ k hi,
    getLsbD_reverse_of_lt x (by omega)]
  have hin : k ≤ i % 32 → 127 - i + k = 127 - (i - k) := by omega
  grind

theorem reverse_slliEpi32 (x : M128i) (k : Nat) :
    (x.slliEpi32 k).reverse = srliEpi32 x.reverse k := by
  rw [← BitVec.reverse_reverse_eq (x := srliEpi32 x.reverse k), reverse_srliEpi32,
    BitVec.reverse_reverse_eq]

theorem reverse_srliSi128 (x : M128i) (b : Nat) :
    (x.srliSi128 b).reverse = slliSi128 x.reverse b := by
  apply BitVec.eq_of_getLsbD_eq
  intro i hi
  rw [getLsbD_reverse_of_lt _ hi, srliSi128, slliSi128, BitVec.getLsbD_ushiftRight,
    BitVec.getLsbD_shiftLeft, decide_eq_true hi, Bool.true_and]
  by_cases hb : i < 8 * b
  · rw [decide_eq_true hb, BitVec.getLsbD_of_ge x _ (by omega)]
    rfl
  · rw [decide_eq_false hb, getLsbD_reverse_of_lt x (by omega), Bool.not_false, Bool.true_and]
    congr 1
    omega

theorem reverse_slliSi128 (x : M128i) (b : Nat) :
    (x.slliSi128 b).reverse = srliSi128 x.reverse b := by
  rw [← BitVec.reverse_reverse_eq (x := srliSi128 x.reverse b), reverse_srliSi128,
    BitVec.reverse_reverse_eq]

end M128i

open M128i

-- the two instruction sets read the halves named by `hi_lo` and `lo_hi` the other way round
inductive ClmulLane
  | pclmul
  | neon

namespace ClmulLane

def clmulLoLo (_ : ClmulLane) (a b : M128i) : M128i := a.clmulepi64Si128 b 0x00

def clmulHiHi (_ : ClmulLane) (a b : M128i) : M128i := a.clmulepi64Si128 b 0x11

def clmulHiLo : ClmulLane → M128i → M128i → M128i
  | pclmul, a, b => a.clmulepi64Si128 b 0x10
  | neon, a, b => clmul (a.half true) (b.half false)

def clmulLoHi : ClmulLane → M128i → M128i → M128i
  | pclmul, a, b => a.clmulepi64Si128 b 0x01
  | neon, a, b => clmul (a.half false) (b.half true)

end ClmulLane

def mul128 (lane : ClmulLane) (a b : M128i) : M128i × M128i :=
  let p00 := lane.clmulLoLo a b
  let p11 := lane.clmulHiHi a b
  let p10 := lane.clmulHiLo a b
  let p01 := lane.clmulLoHi a b
  let mid := p10 ^^^ p01
  (p00 ^^^ mid.slliSi128 8, p11 ^^^ mid.srliSi128 8)

def reduceReflect (tmp3 tmp6 : M128i) : M128i :=
  let tmp7 := tmp3.srliEpi32 31
  let tmp8 := tmp6.srliEpi32 31
  let tmp3 := tmp3.slliEpi32 1
  let tmp6 := tmp6.slliEpi32 1
  let tmp9 := tmp7.srliSi128 12
  let tmp8 := tmp8.slliSi128 4
  let tmp7 := tmp7.slliSi128 4
  let tmp3 := tmp3 ||| tmp7
  let tmp6 := tmp6 ||| tmp8
  let tmp6 := tmp6 ||| tmp9
  let tmp7 := tmp3.slliEpi32 31
  let tmp8 := tmp3.slliEpi32 30
  let tmp9 := tmp3.slliEpi32 25
  let tmp7 := tmp7 ^^^ tmp8
  let tmp7 := tmp7 ^^^ tmp9
  let tmp8 := tmp7.srliSi128 4
  let tmp7 := tmp7.slliSi128 12
  let tmp3 := tmp3 ^^^ tmp7
  let tmp2 := tmp3.srliEpi32 1
  let tmp4 := tmp3.srliEpi32 2
  let tmp5 := tmp3.srliEpi32 7
  let tmp2 := tmp2 ^^^ tmp4
  let tmp2 := tmp2 ^^^ tmp5
  let tmp2 := tmp2 ^^^ tmp8
  let tmp3 := tmp3 ^^^ tmp2
  tmp6 ^^^ tmp3

def reduce (tmp3 tmp6 : M128i) : M128i :=
  let xmmMask := setrEpi32 0xffffffff 0x0 0x0 0x0
  let tmp7 := tmp6.srliEpi32 31
  let tmp8 := tmp6.srliEpi32 30
  let tmp9 := tmp6.srliEpi32 25
  let tmp7 := tmp7 ^^^ tmp8
  let tmp7 := tmp7 ^^^ tmp9
  let tmp8 := tmp7.shuffleEpi32 147
  let tmp7 := xmmMask &&& tmp8
  let tmp8 := xmmMask.andnotSi128 tmp8
  let tmp3 := tmp3 ^^^ tmp8
  let tmp6 := tmp6 ^^^ tmp7
  let tmp10 := tmp6.slliEpi32 1
  let tmp3 := tmp3 ^^^ tmp10
  let tmp11 := tmp6.slliEpi32 2
  let tmp3 := tmp3 ^^^ tmp11
  let tmp12 := tmp6.slliEpi32 7
  let tmp3 := tmp3 ^^^ tmp12
  tmp3 ^^^ tmp6

def gfmul (lane : ClmulLane) (a b : M128i) : M128i :=
  let r := mul128 lane a b
  reduce r.1 r.2

def gfmulReflect (lane : ClmulLane) (a b : M128i) : M128i :=
  let r := mul128 lane a b
  reduceReflect r.1 r.2

def carry (x : M128i) : M128i := x >>> 127 ^^^ x >>> 126 ^^^ x >>> 121

def fold (x : M128i) : M128i := x ^^^ x <<< 1 ^^^ x <<< 2 ^^^ x <<< 7

theorem getLsbD_carry (x : M128i) {i : Nat} (hi : 7 ≤ i) : (carry x).getLsbD i = false := by
  simp only [carry, BitVec.getLsbD_xor, BitVec.getLsbD_ushiftRight]
  rw [BitVec.getLsbD_of_ge x (127 + i) (by omega), BitVec.getLsbD_of_ge x (126 + i) (by omega),
    BitVec.getLsbD_of_ge x (121 + i) (by omega)]
  rfl

theorem srliEpi32_carry (x : M128i) {k : Nat} (hk : k ≤ 7) :
    (x ^^^ carry x).srliEpi32 (32 - k) = x.srliEpi32 (32 - k) := by
  apply BitVec.eq_of_getLsbD_eq
  intro i hi
  rw [getLsbD_srliEpi32 _ _ hi, getLsbD_srliEpi32 _ _ hi, BitVec.getLsbD_xor,
    getLsbD_carry x (by omega), Bool.xor_false]

theorem shiftRight_carry (x : M128i) {k : Nat} (hk : k ≤ 7) :
    (x ^^^ carry x) >>> (128 - k) = x >>> (128 - k) := by
  apply BitVec.eq_of_getLsbD_eq
  intro i _
  rw [BitVec.getLsbD_ushiftRight, BitVec.getLsbD_ushiftRight, BitVec.getLsbD_xor,
    getLsbD_carry x (by omega), Bool.xor_false]

theorem reduce_eq (lo hi : M128i) : reduce lo hi = lo ^^^ fold (hi ^^^ carry hi) := by
  have hcarry : (hi.srliEpi32 31 ^^^ hi.srliEpi32 30 ^^^ hi.srliEpi32 25) >>> 96 = carry hi := by
    rw [BitVec.ushiftRight_xor_distrib, BitVec.ushiftRight_xor_distrib,
      srliEpi32_top hi (k := 1) (by decide), srliEpi32_top hi (k := 2) (by decide),
      srliEpi32_top hi (k := 7) (by decide), carry]
  have hshift (k : Nat) (hk : k ≤ 7) : (hi ^^^ carry hi) <<< k =
      (hi ^^^ carry hi).slliEpi32 k ^^^ (hi.srliEpi32 (32 - k)).slliSi128 4 := by
    rw [← shiftLeft_lanes _ (by omega), srliEpi32_carry hi hk]
  have hgroup (l h a b c x y z : M128i) : l ^^^ (x ^^^ y ^^^ z) ^^^ a ^^^ b ^^^ c ^^^ h =
      l ^^^ (h ^^^ (a ^^^ x) ^^^ (b ^^^ y) ^^^ (c ^^^ z)) := by ac_rfl
  rw [fold, hshift 1 (by decide), hshift 2 (by decide), hshift 7 (by decide)]
  simp only [reduce, and_shuffle, andnot_shuffle, slliSi128_xor, Nat.reduceSub]
  rw [hcarry, hgroup]

theorem toPoly_fold_carry (x : M128i) :
    toPoly (fold (x ^^^ carry x)) =
      (1 + X + X ^ 2 + X ^ 7) * toPoly (x ^^^ carry x) + X ^ 128 * toPoly (carry x) := by
  have hshift (k : Nat) (hk : k ≤ 7) : toPoly ((x ^^^ carry x) <<< k) =
      X ^ k * toPoly (x ^^^ carry x) + X ^ 128 * toPoly (x >>> (128 - k)) := by
    rw [toPoly_shiftLeft _ (by omega : k ≤ 128), shiftRight_carry x hk, add_assoc, BinaryPoly.add_self,
      add_zero]
  have hcarry : toPoly (carry x) = toPoly (x >>> 127) + toPoly (x >>> 126) + toPoly (x >>> 121) := by
    rw [carry, toPoly_xor, toPoly_xor]
  rw [fold, toPoly_xor, toPoly_xor, toPoly_xor, hshift 1 (by decide), hshift 2 (by decide),
    hshift 7 (by decide), hcarry]
  ring

def tail : M128i := 0x87

theorem toPoly_tail : toPoly tail = X ^ 7 + X ^ 2 + X + 1 := by
  have h : tail = BitVec.twoPow 128 7 ^^^ BitVec.twoPow 128 2 ^^^ BitVec.twoPow 128 1 ^^^
    BitVec.twoPow 128 0 := rfl
  rw [h, toPoly_xor, toPoly_xor, toPoly_xor, toPoly_twoPow (by decide), toPoly_twoPow (by decide),
    toPoly_twoPow (by decide), toPoly_twoPow (by decide), pow_one, pow_zero]

-- the quotient is the high word with its carry folded in
theorem toPoly_reduce (lo hi : M128i) :
    toPoly (reduce lo hi) = (toPoly lo + X ^ 128 * toPoly hi) %ₘ modulus tail := by
  have hdiv : toPoly (reduce lo hi) + modulus tail * toPoly (hi ^^^ carry hi) =
      toPoly lo + X ^ 128 * toPoly hi := by
    rw [reduce_eq, toPoly_xor, toPoly_fold_carry, toPoly_xor, modulus, toPoly_tail]
    generalize (X : (ZMod 2)[X]) ^ 128 = y
    linear_combination ((1 + X + X ^ 2 + X ^ 7) * (toPoly hi + toPoly (carry hi)) +
      y * toPoly (carry hi)) * (CharTwo.two_eq_zero : (2 : (ZMod 2)[X]) = 0)
  exact toPoly_eq_mod hdiv

theorem toPoly_halves (x : M128i) :
    toPoly x = toPoly (x.half false) + X ^ 64 * toPoly (x.half true) := by
  have hx : x = x.half true ++ x.half false := by
    apply BitVec.eq_of_getLsbD_eq
    intro i hi
    rw [BitVec.getLsbD_append, half, half, BitVec.getLsbD_extractLsb', BitVec.getLsbD_extractLsb']
    by_cases hlow : i < 64
    · simp [hlow]
    · simp [hlow, show i - 64 < 64 by omega, show 64 + (i - 64) = i by omega]
  exact (congrArg toPoly hx).trans (toPoly_append _ _)

theorem toPoly_clmulepi64Si128 (x y : M128i) (imm : Nat) :
    toPoly (x.clmulepi64Si128 y imm) =
      toPoly (x.half (imm.testBit 0)) * toPoly (y.half (imm.testBit 4)) := toPoly_clmul _ _

theorem toPoly_cross (lane : ClmulLane) (a b : M128i) :
    toPoly (lane.clmulHiLo a b ^^^ lane.clmulLoHi a b) =
      toPoly (a.half false) * toPoly (b.half true) +
        toPoly (a.half true) * toPoly (b.half false) := by
  rw [toPoly_xor]
  cases lane with
  | pclmul =>
    exact congrArg₂ (· + ·) (toPoly_clmulepi64Si128 a b 0x10) (toPoly_clmulepi64Si128 a b 0x01)
  | neon =>
    rw [add_comm]
    exact congrArg₂ (· + ·) (toPoly_clmul _ _) (toPoly_clmul _ _)

theorem toPoly_mul128 (lane : ClmulLane) (a b : M128i) :
    toPoly (mul128 lane a b).1 + X ^ 128 * toPoly (mul128 lane a b).2 = toPoly a * toPoly b := by
  have hlo : toPoly (lane.clmulLoLo a b) = toPoly (a.half false) * toPoly (b.half false) :=
    toPoly_clmulepi64Si128 a b 0x00
  have hhi : toPoly (lane.clmulHiHi a b) = toPoly (a.half true) * toPoly (b.half true) :=
    toPoly_clmulepi64Si128 a b 0x11
  have hmid := toPoly_shiftLeft (lane.clmulHiLo a b ^^^ lane.clmulLoHi a b) (by decide : 64 ≤ 128)
  rw [toPoly_cross, show 128 - 64 = 64 from rfl] at hmid
  have hsq : (X : (ZMod 2)[X]) ^ 128 = X ^ 64 * X ^ 64 := pow_add X 64 64
  simp only [mul128, slliSi128, srliSi128, Nat.reduceMul]
  rw [toPoly_xor (lane.clmulLoLo a b), toPoly_xor (lane.clmulHiHi a b), hlo, hhi, toPoly_halves a,
    toPoly_halves b]
  rw [hsq] at hmid ⊢
  linear_combination -hmid

theorem toPoly_gfmul (lane : ClmulLane) (a b : M128i) :
    toPoly (gfmul lane a b) = (toPoly a * toPoly b) %ₘ modulus tail := by
  rw [gfmul, toPoly_reduce, toPoly_mul128]

theorem reverse_reduceReflect (lo hi : M128i) :
    (reduceReflect lo hi).reverse =
      reduce (hi <<< 1 ||| lo >>> 127).reverse (lo <<< 1).reverse := by
  have hlo : lo.slliEpi32 1 ||| (lo.srliEpi32 31).slliSi128 4 = lo <<< 1 :=
    shiftLeft_lanes_or lo (by decide)
  have hhi : hi.slliEpi32 1 ||| (hi.srliEpi32 31).slliSi128 4 = hi <<< 1 :=
    shiftLeft_lanes_or hi (by decide)
  have htop : (lo.srliEpi32 31).srliSi128 12 = lo >>> 127 := srliEpi32_top lo (k := 1) (by decide)
  have hgroup (h x a b c y : M128i) :
      h ^^^ (x ^^^ (a ^^^ b ^^^ c ^^^ y)) = h ^^^ y ^^^ a ^^^ b ^^^ c ^^^ x := by ac_rfl
  simp only [reduceReflect, reduce, hlo, hhi, htop, and_shuffle, andnot_shuffle, reverse_xor,
    reverse_srliEpi32, reverse_slliEpi32, reverse_srliSi128, reverse_slliSi128]
  rw [hgroup]
  rfl

theorem toPoly_reversed (lo hi : M128i) {p : (ZMod 2)[X]}
    (hp : toPoly lo + X ^ 128 * toPoly hi = p) (hdeg : p.natDegree ≤ 254) :
    toPoly (hi <<< 1 ||| lo >>> 127).reverse + X ^ 128 * toPoly (lo <<< 1).reverse =
      reflect 254 p := by
  have hcoeff (i : Nat) : p.coeff i =
      scalar (if i < 128 then lo.getLsbD i else hi.getLsbD (i - 128)) := by
    rw [← hp, ← toPoly_append, coeff_toPoly, BitVec.getLsbD_append]
  have htop : hi.getLsbD 127 = false := by
    apply scalar_injective
    rw [scalar_false, ← coeff_eq_zero_of_natDegree_lt (show p.natDegree < 255 by omega), hcoeff 255]
    rfl
  ext i
  rw [coeff_add, coeff_X_pow_mul', coeff_toPoly, coeff_reflect]
  rcases lt_trichotomy i 127 with h | rfl | h
  · rw [if_neg (by omega), revAt_le (by omega), hcoeff, if_neg (by omega), add_zero,
      getLsbD_reverse_of_lt _ (by omega), BitVec.getLsbD_or, BitVec.getLsbD_shiftLeft,
      BitVec.getLsbD_ushiftRight, BitVec.getLsbD_of_ge lo _ (by omega), decide_eq_true (by omega),
      decide_eq_false (by omega), Bool.or_false, show 127 - i - 1 = 254 - i - 128 by omega]
    rfl
  · rw [if_neg (by omega), revAt_le (by omega), hcoeff, if_pos (by omega), add_zero,
      getLsbD_reverse_of_lt _ (by omega), BitVec.getLsbD_or, BitVec.getLsbD_shiftLeft,
      BitVec.getLsbD_ushiftRight]
    rfl
  · rw [if_pos (by omega), BitVec.getLsbD_of_ge _ i (by omega), scalar_false, zero_add, coeff_toPoly]
    by_cases hlast : i ≤ 255
    · rw [getLsbD_reverse_of_lt _ (by omega), BitVec.getLsbD_shiftLeft, decide_eq_true (by omega),
        Bool.true_and]
      by_cases hzero : i = 255
      · subst hzero
        rw [revAt_eq_self_of_lt (by omega), hcoeff, if_neg (by omega), htop]
        rfl
      · rw [revAt_le (by omega), hcoeff, if_pos (by omega), decide_eq_false (by omega),
          Bool.not_false, Bool.true_and, show 127 - (i - 128) - 1 = 254 - i by omega]
    · rw [revAt_eq_self_of_lt (by omega), hcoeff, if_neg (by omega),
        BitVec.getLsbD_of_ge _ _ (by omega), BitVec.getLsbD_of_ge _ _ (by omega)]

theorem gfmulReflect_eq (lane : ClmulLane) (a b : M128i) :
    gfmulReflect lane a b = (gfmul lane a.reverse b.reverse).reverse := by
  have ha : (toPoly a).natDegree ≤ 127 := natDegree_toPoly_le a rfl
  have hb : (toPoly b).natDegree ≤ 127 := natDegree_toPoly_le b rfl
  have hmul : reflect 254 (toPoly a * toPoly b) = toPoly a.reverse * toPoly b.reverse := by
    rw [toPoly_reverse a rfl, toPoly_reverse b rfl, ← reflect_mul _ _ ha hb]
  have hrev : (gfmulReflect lane a b).reverse = gfmul lane a.reverse b.reverse := by
    apply toPoly_injective
    rw [toPoly_gfmul, gfmulReflect, reverse_reduceReflect, toPoly_reduce,
      toPoly_reversed _ _ (toPoly_mul128 lane a b) (natDegree_mul_le_of_le ha hb), hmul]
  rw [← hrev, BitVec.reverse_reverse_eq]

theorem modulus_tail : modulus tail = X ^ 128 + X ^ 7 + X ^ 2 + X + 1 := by
  rw [modulus, toPoly_tail]
  generalize (X : (ZMod 2)[X]) ^ 128 = y
  ring

-- multiplication, reduction of a double-width value, and the reflected multiplication
theorem gf128_exact :
    (∀ lane a b, toPoly (gfmul lane a b) = (toPoly a * toPoly b) %ₘ (X ^ 128 + X ^ 7 + X ^ 2 + X + 1)) ∧
    (∀ lo hi, toPoly (reduce lo hi) =
      (toPoly lo + toPoly hi * X ^ 128) %ₘ (X ^ 128 + X ^ 7 + X ^ 2 + X + 1)) ∧
    ∀ lane a b, gfmulReflect lane a b = (gfmul lane a.reverse b.reverse).reverse := by
  rw [← modulus_tail]
  refine ⟨toPoly_gfmul, fun lo hi => ?_, gfmulReflect_eq⟩
  rw [toPoly_reduce, mul_comm]

end EmpTool.Crypto
