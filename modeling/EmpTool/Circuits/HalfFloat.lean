import EmpTool.Library.BinaryFloat
import Mathlib.Data.Nat.Bitwise

namespace EmpTool.Circuits

open BinaryFloat

def roundUp (h rem half : BitVec 32) : BitVec 32 :=
  if rem > half ∨ (rem = half ∧ h &&& 1 ≠ 0) then h + 1 else h

def empFloatToHalf (x : BitVec 32) : BitVec 16 :=
  let sign := (x >>> 16) &&& 0x8000
  let fexp := (x >>> 23) &&& 0xFF
  let mant := x &&& 0x7FFFFF
  if fexp = 0xFF then
    (sign ||| 0x7C00 ||| (if mant ≠ 0 then 0x200 else 0) ||| (mant >>> 13)).setWidth 16
  else
    let e : Int := fexp.toNat - 127 + 15
    if e ≥ 0x1F then (sign ||| 0x7C00).setWidth 16
    else if e ≤ 0 then
      if e < -10 then sign.setWidth 16
      else
        let mant := mant ||| 0x800000
        let shift := (14 - e).toNat
        let h := mant >>> shift
        let rem := mant &&& (((1 : BitVec 32) <<< shift) - 1)
        let half := (1 : BitVec 32) <<< (shift - 1)
        (sign ||| roundUp h rem half).setWidth 16
    else
      let h := sign ||| (BitVec.ofInt 32 e <<< 10) ||| (mant >>> 13)
      let rem := mant &&& 0x1FFF
      (roundUp h rem 0x1000).setWidth 16

-- the loop of a subnormal, which needs at most ten turns
def normalize : Nat → BitVec 32 × Int → BitVec 32 × Int
  | 0, s => s
  | fuel + 1, (mant, e) =>
    if mant &&& 0x400 ≠ 0 then (mant, e) else normalize fuel (mant <<< 1, e - 1)

def empHalfToFloat (h : BitVec 16) : BitVec 32 :=
  let h := h.setWidth 32
  let sign := (h &&& 0x8000) <<< 16
  let exp := (h >>> 10) &&& 0x1F
  let mant := h &&& 0x3FF
  if exp = 0 then
    if mant = 0 then sign
    else
      let s := normalize 10 (mant, 127 - 15 + 1)
      let mant := s.1 &&& 0x3FF
      sign ||| (BitVec.ofInt 32 s.2 <<< 23) ||| (mant <<< 13)
  else if exp = 0x1F then sign ||| 0x7F800000 ||| (mant <<< 13)
  else sign ||| ((exp - 15 + 127) <<< 23) ||| (mant <<< 13)

def binary16 : Format := ⟨5, 10, by decide⟩

def binary32 : Format := ⟨8, 23, by decide⟩

-- `h` is the half closest to `x`, the even one of two; from 65520 on it is an infinity
structure RoundedHalf (x : BitVec 32) (h : BitVec 16) : Prop where
  notNaN : ¬ binary16.IsNaN h.toNat
  sign : binary16.negative h.toNat = binary32.negative x.toNat
  infinite : ¬ binary16.IsFinite h.toNat ↔
    ¬ binary32.IsFinite x.toNat ∨ 65520 ≤ |binary32.finite x.toNat|
  nearest : binary16.IsFinite h.toNat → ∀ k : BitVec 16, binary16.IsFinite k.toNat →
    |binary16.finite h.toNat - binary32.finite x.toNat| ≤
        |binary16.finite k.toNat - binary32.finite x.toNat| ∧
      (|binary16.finite k.toNat - binary32.finite x.toNat| =
          |binary16.finite h.toNat - binary32.finite x.toNat| →
        binary16.finite k.toNat ≠ binary16.finite h.toNat → Even h.toNat)

section Bits

theorem and_mask (x : BitVec 32) {k : Nat} (hk : k < 32) :
    (x &&& BitVec.ofNat 32 (2 ^ k - 1)).toNat = x.toNat % 2 ^ k := by
  have hpow : 2 ^ k < 2 ^ 32 := Nat.pow_lt_pow_right (by decide) hk
  rw [BitVec.toNat_and, BitVec.toNat_ofNat, Nat.mod_eq_of_lt (by omega),
    Nat.and_two_pow_sub_one_eq_mod]

theorem or_place {a b : BitVec 32} {q k : Nat} (ha : a.toNat = q * 2 ^ k) (hb : b.toNat < 2 ^ k) :
    (a ||| b).toNat = q * 2 ^ k + b.toNat := by
  rw [BitVec.toNat_or, ha, Nat.mul_comm, Nat.two_pow_add_eq_or_of_lt hb]

theorem shiftLeft_place {a : BitVec 32} {k : Nat} (ha : a.toNat * 2 ^ k < 2 ^ 32) :
    (a <<< k).toNat = a.toNat * 2 ^ k := by
  rw [BitVec.toNat_shiftLeft, Nat.shiftLeft_eq, Nat.mod_eq_of_lt ha]

theorem and_bit (x : BitVec 32) {k : Nat} (hk : k < 32) :
    (x &&& BitVec.ofNat 32 (2 ^ k)).toNat = x.toNat / 2 ^ k % 2 * 2 ^ k := by
  have hpow : 2 ^ k < 2 ^ 32 := Nat.pow_lt_pow_right (by decide) hk
  rw [BitVec.toNat_and, BitVec.toNat_ofNat, Nat.mod_eq_of_lt hpow, Nat.and_two_pow,
    Nat.toNat_testBit]

theorem toNat_roundUp {h rem half : BitVec 32} (hh : h.toNat + 1 < 2 ^ 32) :
    (roundUp h rem half).toNat =
      if half.toNat < rem.toNat ∨ (rem.toNat = half.toNat ∧ h.toNat % 2 = 1) then h.toNat + 1
      else h.toNat := by
  have hbit := and_mask h (k := 1) (by decide)
  have hodd : h &&& 1 ≠ 0 ↔ h.toNat % 2 = 1 := by
    rw [ne_eq, ← BitVec.toNat_inj]
    show ¬ (h &&& BitVec.ofNat 32 (2 ^ 1 - 1)).toNat = 0 ↔ _
    rw [hbit]
    omega
  simp only [roundUp, hodd, gt_iff_lt, BitVec.lt_def, ← BitVec.toNat_inj]
  split
  case isTrue _ => exact (BitVec.toNat_add h 1).trans (Nat.mod_eq_of_lt hh)
  case isFalse _ => rfl

theorem pack_toNat (s : Bool) (n : Nat) : binary16.pack s n = s.toNat * 2 ^ 15 + n := rfl

theorem setWidth_pack {v : BitVec 32} {s : Bool} {n : Nat} (hv : v.toNat = s.toNat * 2 ^ 15 + n)
    (hn : n < 2 ^ 15) : (v.setWidth 16).toNat = binary16.pack s n := by
  have hs := Bool.toNat_le s
  rw [BitVec.toNat_setWidth, hv, pack_toNat, Nat.mod_eq_of_lt (by omega)]

structure Fields (x : BitVec 32) (s : Bool) (e m : Nat) : Prop where
  sign : ((x >>> 16) &&& 0x8000).toNat = s.toNat * 2 ^ 15
  fexp : ((x >>> 23) &&& 0xFF).toNat = e
  mant : (x &&& 0x7FFFFF).toNat = m

theorem fields (x : BitVec 32) : Fields x (binary32.negative x.toNat)
    (binary32.magnitude x.toNat / 2 ^ 23) (binary32.magnitude x.toNat % 2 ^ 23) where
  sign := by
    have hsign : (binary32.negative x.toNat).toNat = x.toNat / 2 ^ 31 % 2 := Nat.toNat_testBit _ _
    have hbit := and_bit (x >>> 16) (k := 15) (by decide)
    rw [BitVec.toNat_ushiftRight, Nat.shiftRight_eq_div_pow, Nat.div_div_eq_div_mul] at hbit
    rw [hsign]
    exact hbit
  fexp := by
    have hmask := and_mask (x >>> 23) (k := 8) (by decide)
    have hmagnitude : binary32.magnitude x.toNat = x.toNat % 2 ^ 31 := rfl
    rw [BitVec.toNat_ushiftRight, Nat.shiftRight_eq_div_pow] at hmask
    rw [hmagnitude]
    exact hmask.trans (by omega)
  mant := by
    have hmask := and_mask x (k := 23) (by decide)
    have hmagnitude : binary32.magnitude x.toNat = x.toNat % 2 ^ 31 := rfl
    rw [hmagnitude]
    exact hmask.trans (by omega)

end Bits

section Narrowing

def halfMagnitude (n : Nat) : Nat :=
  let e := n / 2 ^ 23
  let m := n % 2 ^ 23
  if 143 ≤ e then 0x7C00
  else if e < 102 then 0
  else if e ≤ 112 then roundOff (2 ^ 23 + m) (126 - e)
  else roundOff (n - 112 * 2 ^ 23) 13

theorem roundOff_le {q k b : Nat} (hq : q < b * 2 ^ k) : roundOff q k ≤ b := by
  have hdiv : q / 2 ^ k < b := (Nat.div_lt_iff_lt_mul (Nat.two_pow_pos k)).mpr hq
  unfold roundOff
  split <;> omega

theorem subnormal_pack {sign mant : BitVec 32} {s : Bool} {m shift : Nat}
    (hsign : sign.toNat = s.toNat * 2 ^ 15) (hmant : mant.toNat = m) (hm : m < 2 ^ 23)
    (hlow : 14 ≤ shift) (hhigh : shift ≤ 24) :
    ((sign ||| roundUp ((mant ||| 0x800000) >>> shift)
      ((mant ||| 0x800000) &&& (((1 : BitVec 32) <<< shift) - 1))
      ((1 : BitVec 32) <<< (shift - 1))).setWidth 16).toNat =
      binary16.pack s (roundOff (2 ^ 23 + m) shift) := by
  have hbound : (2 ^ 23 + m) < 2 ^ 10 * 2 ^ shift := by
    have hpow := Nat.pow_le_pow_right (by decide : 2 > 0) hlow
    omega
  have hone (k : Nat) (hk : k ≤ 24) : ((1 : BitVec 32) <<< k).toNat = 2 ^ k := by
    have hpow := Nat.pow_le_pow_right (by decide : 2 > 0) hk
    have h := shiftLeft_place (a := 1) (k := k) (by
      show 1 * 2 ^ k < 2 ^ 32
      omega)
    exact h.trans (Nat.one_mul _)
  have hmask : ((1 : BitVec 32) <<< shift) - 1 = BitVec.ofNat 32 (2 ^ shift - 1) := by
    have hpow := Nat.pow_le_pow_right (by decide : 2 > 0) hhigh
    have hpos := Nat.two_pow_pos shift
    apply BitVec.eq_of_toNat_eq
    rw [BitVec.toNat_sub, hone shift hhigh, BitVec.toNat_ofNat]
    show (2 ^ 32 - 1 + 2 ^ shift) % 2 ^ 32 = _
    omega
  have hmantissa : (mant ||| 0x800000).toNat = 2 ^ 23 + m := by
    have h := or_place (a := 0x800000) (q := 1) (k := 23) rfl (hmant ▸ hm)
    rw [BitVec.or_comm, h, hmant, Nat.one_mul]
  have hquotient : ((mant ||| 0x800000) >>> shift).toNat = (2 ^ 23 + m) / 2 ^ shift := by
    rw [BitVec.toNat_ushiftRight, Nat.shiftRight_eq_div_pow, hmantissa]
  have hsmall : (2 ^ 23 + m) / 2 ^ shift < 2 ^ 10 :=
    (Nat.div_lt_iff_lt_mul (Nat.two_pow_pos _)).mpr hbound
  have hround : (roundUp ((mant ||| 0x800000) >>> shift)
      ((mant ||| 0x800000) &&& (((1 : BitVec 32) <<< shift) - 1))
      ((1 : BitVec 32) <<< (shift - 1))).toNat =
      roundOff (2 ^ 23 + m) shift := by
    rw [toNat_roundUp (by omega), hmask, and_mask _ (by omega), hmantissa, hquotient,
      hone _ (by omega)]
    rfl
  have hle := roundOff_le hbound
  refine setWidth_pack ?_ (Nat.lt_of_le_of_lt hle (by decide))
  rw [or_place hsign (by omega), hround]

theorem normal_pack {sign mant : BitVec 32} {s : Bool} {e m : Nat}
    (hsign : sign.toNat = s.toNat * 2 ^ 15) (hmant : mant.toNat = m) (hm : m < 2 ^ 23)
    (hlow : 112 < e) (hhigh : e < 143) :
    ((roundUp (sign ||| (BitVec.ofInt 32 ((e : Int) - 127 + 15) <<< 10) ||| (mant >>> 13))
      (mant &&& 0x1FFF) 0x1000).setWidth 16).toNat =
      binary16.pack s (roundOff (e * 2 ^ 23 + m - 112 * 2 ^ 23) 13) := by
  have hs := Bool.toNat_le s
  have hbound : e * 2 ^ 23 + m - 112 * 2 ^ 23 < 31 * 2 ^ 10 * 2 ^ 13 := by omega
  have hexponent : (BitVec.ofInt 32 ((e : Int) - 127 + 15)).toNat = e - 112 := by
    rw [BitVec.toNat_ofInt]
    omega
  have hshift : (BitVec.ofInt 32 ((e : Int) - 127 + 15) <<< 10).toNat = (e - 112) * 2 ^ 10 := by
    rw [shiftLeft_place (by omega), hexponent]
  have hmantissa : (mant >>> 13).toNat = m / 2 ^ 13 := by
    rw [BitVec.toNat_ushiftRight, Nat.shiftRight_eq_div_pow, hmant]
  have hhigh : (sign ||| (BitVec.ofInt 32 ((e : Int) - 127 + 15) <<< 10)).toNat =
      (s.toNat * 2 ^ 5 + (e - 112)) * 2 ^ 10 := by
    rw [or_place hsign (by omega), hshift]
    omega
  have hh := or_place hhigh (b := mant >>> 13) (by omega)
  have hrem : (mant &&& 0x1FFF).toNat = m % 2 ^ 13 := hmant ▸ and_mask mant (k := 13) (by decide)
  have hhalf : (0x1000 : BitVec 32).toNat = 2 ^ 12 := rfl
  have hquotient : (e * 2 ^ 23 + m - 112 * 2 ^ 23) / 2 ^ 13 = (e - 112) * 2 ^ 10 + m / 2 ^ 13 := by
    omega
  have hremainder : (e * 2 ^ 23 + m - 112 * 2 ^ 23) % 2 ^ 13 = m % 2 ^ 13 := by omega
  have hparity : ((s.toNat * 2 ^ 5 + (e - 112)) * 2 ^ 10 + m / 2 ^ 13) % 2 =
      ((e - 112) * 2 ^ 10 + m / 2 ^ 13) % 2 := by omega
  have hle := roundOff_le hbound
  refine setWidth_pack ?_ (by omega)
  rw [toNat_roundUp (by omega), hh, hmantissa, hrem, hhalf, hparity, roundOff, hquotient,
    hremainder]
  split <;> omega

theorem empFloatToHalf_pack {x : BitVec 32} (hx : ¬ binary32.IsNaN x.toNat) :
    (empFloatToHalf x).toNat = binary16.pack (binary32.negative x.toNat)
      (halfMagnitude (binary32.magnitude x.toNat)) := by
  obtain ⟨hsign, hfexp, hmant⟩ := fields x
  have hle : binary32.magnitude x.toNat ≤ 255 * 2 ^ 23 := Nat.le_of_not_lt hx
  generalize binary32.magnitude x.toNat = n at *
  generalize binary32.negative x.toNat = s at *
  unfold empFloatToHalf halfMagnitude
  simp only []
  generalize (x >>> 16) &&& 0x8000 = sign at *
  generalize (x >>> 23) &&& 0xFF = fexp at *
  generalize x &&& 0x7FFFFF = mant at *
  have hinfinite : ((sign ||| 0x7C00).setWidth 16).toNat = binary16.pack s 0x7C00 :=
    setWidth_pack (or_place hsign (by decide)) (by decide)
  have hm : n % 2 ^ 23 < 2 ^ 23 := Nat.mod_lt n (by decide)
  split
  case isTrue h =>
    have he : n / 2 ^ 23 = 255 := by rw [← hfexp, h]; rfl
    have hzero : mant = 0 := by
      apply BitVec.eq_of_toNat_eq
      rw [hmant]
      show _ = 0
      omega
    have hnone : ¬ mant ≠ 0 := not_not.mpr hzero
    rw [if_neg hnone, if_pos (show 143 ≤ n / 2 ^ 23 by omega), hzero]
    simpa using hinfinite
  case isFalse h =>
    rw [hfexp]
    split
    case isTrue _ =>
      rw [if_pos (by omega)]
      exact hinfinite
    case isFalse _ =>
      rw [if_neg (by omega : ¬ 143 ≤ n / 2 ^ 23)]
      split
      case isTrue _ =>
        split
        case isTrue _ =>
          rw [if_pos (by omega)]
          exact setWidth_pack (hsign.trans (Nat.add_zero _).symm) (by decide)
        case isFalse _ =>
          rw [if_neg (by omega), if_pos (by omega)]
          have hshift : (14 - (((n / 2 ^ 23 : Nat) : Int) - 127 + 15)).toNat =
              126 - n / 2 ^ 23 := by omega
          rw [hshift]
          exact subnormal_pack hsign hmant hm (by omega) (by omega)
      case isFalse _ =>
        rw [if_neg (by omega), if_neg (by omega)]
        have hn : n / 2 ^ 23 * 2 ^ 23 + n % 2 ^ 23 = n := Nat.div_add_mod' n _
        have hpack := normal_pack (e := n / 2 ^ 23) hsign hmant hm (by omega) (by omega)
        rwa [hn] at hpack

theorem unit_half : binary16.unit = (2 ^ 125 : Nat) * binary32.unit := by
  norm_num [Format.unit, Format.bias, binary16, binary32]

theorem nearest_tiny {n : Nat} (hn : n < 102 * 2 ^ 23) :
    Nearest binary16.grid (binary32.grid n) 0 := by
  have hu := binary32.unit_pos
  have hbound : scaled 23 n < 2 ^ 124 := by
    have h := scaled_strictMono 23 hn
    rw [← Nat.add_zero (102 * 2 ^ 23), scaled_fields (by decide) (by decide)] at h
    exact h
  have hlt : ((scaled 23 n : Nat) : ℚ) * binary32.unit < (2 ^ 124 : Nat) * binary32.unit :=
    mul_lt_mul_of_pos_right (Nat.cast_lt.mpr hbound) hu
  have hone : binary16.grid 1 = 2 * ((2 ^ 124 : Nat) * binary32.unit) := by
    rw [Format.grid, scaled_of_lt (by decide), unit_half, Nat.cast_one, one_mul, ← mul_assoc]
    norm_num
  have hgrid : binary32.grid n < (2 ^ 124 : Nat) * binary32.unit := hlt
  refine nearest_lower binary16.grid_strictMono ?_ ?_ fun htie => ?_
  · rw [binary16.grid_zero]
    exact binary32.grid_nonneg n
  · rw [binary16.grid_zero, Nat.zero_add, hone]
    linarith
  · rw [binary16.grid_zero, Nat.zero_add, hone] at htie
    linarith

theorem nearest_subnormal {e m : Nat} (hm : m < 2 ^ 23) (hlow : 102 ≤ e) (hhigh : e ≤ 112) :
    Nearest binary16.grid (binary32.grid (e * 2 ^ 23 + m)) (roundOff (2 ^ 23 + m) (126 - e)) := by
  have hbound : 2 ^ 23 + m < 2 ^ 10 * 2 ^ (126 - e) := by
    have hpow := Nat.pow_le_pow_right (by decide : 2 > 0) (by omega : 14 ≤ 126 - e)
    omega
  have hq : (2 ^ 23 + m) / 2 ^ (126 - e) < 2 ^ binary16.fraction :=
    (Nat.div_lt_iff_lt_mul (Nat.two_pow_pos _)).mpr hbound
  have hexponent : 2 ^ 125 = 2 ^ (126 - e) * 2 ^ (e - 1) := by
    rw [← Nat.pow_add, (by omega : 126 - e + (e - 1) = 125)]
  refine nearest_narrowed (j := e - 1) unit_half (by omega) ?_ ?_
  · rw [Nat.div_eq_of_lt hq]
    omega
  · rw [scaled_of_lt hq, hexponent, ← Nat.mul_assoc, ← Nat.add_mul, Nat.div_add_mod']
    exact scaled_fields (by omega) hm

theorem nearest_normal {e m : Nat} (hm : m < 2 ^ 23) (hlow : 112 < e) :
    Nearest binary16.grid (binary32.grid (e * 2 ^ 23 + m))
      (roundOff (e * 2 ^ 23 + m - 112 * 2 ^ 23) 13) := by
  have hquotient : (e * 2 ^ 23 + m - 112 * 2 ^ 23) / 2 ^ 13 = (e - 112) * 2 ^ 10 + m / 2 ^ 13 := by
    omega
  have hremainder : (e * 2 ^ 23 + m - 112 * 2 ^ 23) % 2 ^ 13 = m % 2 ^ 13 := by omega
  have hfraction : m / 2 ^ 13 < 2 ^ binary16.fraction := by
    show m / 2 ^ 13 < 2 ^ 10
    omega
  refine nearest_narrowed (j := e - 1) unit_half (by decide) ?_ ?_
  · show (e * 2 ^ 23 + m - 112 * 2 ^ 23) / 2 ^ 13 / 2 ^ 10 - 1 + 125 = 13 + (e - 1)
    omega
  · rw [hquotient, hremainder]
    have hexponent : 2 ^ (e - 112 - 1) * 2 ^ 125 = 2 ^ 13 * 2 ^ (e - 1) := by
      rw [← Nat.pow_add, ← Nat.pow_add, (by omega : e - 112 - 1 + 125 = 13 + (e - 1))]
    have hmantissa : 2 ^ 23 + m = (2 ^ 10 + m / 2 ^ 13) * 2 ^ 13 + m % 2 ^ 13 := by omega
    have htarget : scaled 10 ((e - 112) * 2 ^ 10 + m / 2 ^ 13) =
        (2 ^ 10 + m / 2 ^ 13) * 2 ^ (e - 112 - 1) := scaled_fields (by omega) hfraction
    have hsource : scaled 23 (e * 2 ^ 23 + m) = (2 ^ 23 + m) * 2 ^ (e - 1) :=
      scaled_fields (by omega) hm
    show scaled 23 (e * 2 ^ 23 + m) = scaled 10 ((e - 112) * 2 ^ 10 + m / 2 ^ 13) * 2 ^ 125 + _
    rw [hsource, htarget, Nat.mul_assoc, hexponent, ← Nat.mul_assoc, ← Nat.add_mul, ← hmantissa]

theorem halfMagnitude_nearest {n : Nat} (hn : n / 2 ^ 23 < 143) :
    Nearest binary16.grid (binary32.grid n) (halfMagnitude n) := by
  have hm : n % 2 ^ 23 < 2 ^ 23 := Nat.mod_lt n (by decide)
  have hsplit : n / 2 ^ 23 * 2 ^ 23 + n % 2 ^ 23 = n := Nat.div_add_mod' n _
  unfold halfMagnitude
  simp only []
  rw [if_neg (by omega)]
  split
  case isTrue h => exact nearest_tiny (by omega)
  case isFalse hlow =>
    split
    case isTrue hhigh =>
      have h := nearest_subnormal hm (Nat.le_of_not_lt hlow) hhigh
      rwa [hsplit] at h
    case isFalse hhigh =>
      have h := nearest_normal hm (Nat.lt_of_not_le hhigh)
      rwa [hsplit] at h

theorem halfMagnitude_of_ge {n : Nat} (hn : 143 ≤ n / 2 ^ 23) : halfMagnitude n = 0x7C00 := by
  unfold halfMagnitude
  simp only []
  rw [if_pos hn]

theorem grid_largest : binary16.grid 0x7BFF = 65504 := by
  norm_num [Format.grid, scaled, Format.unit, Format.bias, binary16]

theorem grid_infinity : binary16.grid 0x7C00 = 65536 := by
  norm_num [Format.grid, scaled, Format.unit, Format.bias, binary16]

theorem grid_single_high : binary32.grid (143 * 2 ^ 23) = 65536 := by
  norm_num [Format.grid, scaled, Format.unit, Format.bias, binary32]

theorem halfMagnitude_le (n : Nat) : halfMagnitude n ≤ 0x7C00 := by
  by_cases hn : n / 2 ^ 23 < 143
  · have hgrid : binary32.grid n ≤ binary16.grid 0x7C00 := by
      rw [grid_infinity, ← grid_single_high]
      exact binary32.grid_le_iff.mpr (by omega)
    exact (halfMagnitude_nearest hn).mono binary16.grid_strictMono
      (nearest_self binary16.grid_strictMono _) hgrid
  · exact (halfMagnitude_of_ge (Nat.le_of_not_lt hn)).le

theorem halfMagnitude_overflow (n : Nat) :
    halfMagnitude n = 0x7C00 ↔ 65520 ≤ binary32.grid n := by
  by_cases hn : n / 2 ^ 23 < 143
  · have hnearest := halfMagnitude_nearest hn
    have hpair : binary16.grid 0x7BFF < binary16.grid 0x7C00 :=
      binary16.grid_strictMono (by decide)
    constructor
    · intro h
      rw [h] at hnearest
      have hclose := (closer_iff hpair).mp (hnearest.le 0x7BFF)
      rw [grid_largest, grid_infinity] at hclose
      linarith
    · intro h
      have htie : Nearest binary16.grid 65520 (0x7BFF + 1) := by
        refine nearest_upper binary16.grid_strictMono ?_ ?_ fun _ => by decide
        · norm_num [grid_infinity]
        · norm_num [grid_largest, grid_infinity]
      exact Nat.le_antisymm (halfMagnitude_le n) (htie.mono binary16.grid_strictMono hnearest h)
  · have hgrid := binary32.grid_le_iff.mpr (by omega : 143 * 2 ^ 23 ≤ n)
    rw [grid_single_high] at hgrid
    exact iff_of_true (halfMagnitude_of_ge (Nat.le_of_not_lt hn)) (by linarith)

theorem halfMagnitude_mono {n n' : Nat} (hn : n ≤ n') : halfMagnitude n ≤ halfMagnitude n' := by
  by_cases hn' : n' / 2 ^ 23 < 143
  · exact (halfMagnitude_nearest (by omega)).mono binary16.grid_strictMono
      (halfMagnitude_nearest hn') (binary32.grid_le_iff.mpr hn)
  · rw [halfMagnitude_of_ge (Nat.le_of_not_lt hn')]
    exact halfMagnitude_le n

end Narrowing

section Widening

theorem normalize_spec {fuel : Nat} {mant : BitVec 32} {e : Int} (hlt : mant.toNat < 2 ^ 11)
    (hfuel : 2 ^ 10 ≤ mant.toNat * 2 ^ fuel) :
    ∃ j ≤ fuel, (normalize fuel (mant, e)).2 = e - j ∧
      (normalize fuel (mant, e)).1.toNat = mant.toNat * 2 ^ j ∧
      2 ^ 10 ≤ mant.toNat * 2 ^ j ∧ mant.toNat * 2 ^ j < 2 ^ 11 := by
  induction fuel generalizing mant e with
  | zero => exact ⟨0, le_rfl, (Int.sub_zero e).symm, (Nat.mul_one _).symm, hfuel, by omega⟩
  | succ fuel ih =>
    have hbit : mant &&& 0x400 ≠ 0 ↔ 2 ^ 10 ≤ mant.toNat := by
      have hplace := and_bit mant (k := 10) (by decide)
      rw [ne_eq, ← BitVec.toNat_inj]
      show ¬ (mant &&& BitVec.ofNat 32 (2 ^ 10)).toNat = 0 ↔ _
      rw [hplace]
      omega
    unfold normalize
    split
    case isTrue h =>
      have htop := hbit.mp h
      exact ⟨0, Nat.zero_le _, (Int.sub_zero e).symm, (Nat.mul_one _).symm, by omega, by omega⟩
    case isFalse h =>
      have hsmall : mant.toNat < 2 ^ 10 := Nat.lt_of_not_le fun hle => h (hbit.mpr hle)
      have hdouble : (mant <<< 1).toNat = mant.toNat * 2 := shiftLeft_place (by omega)
      obtain ⟨j, hj, hexponent, hmant, hlow, hhigh⟩ :=
        @ih (mant <<< 1) (e - 1) (by omega) (by
          rw [hdouble, Nat.mul_assoc, ← Nat.pow_succ']
          exact hfuel)
      have hpow : mant.toNat * 2 ^ (j + 1) = (mant <<< 1).toNat * 2 ^ j := by
        rw [hdouble, Nat.mul_assoc, ← Nat.pow_succ']
      rw [← hpow] at hmant hlow hhigh
      exact ⟨j + 1, by omega, by rw [hexponent]; omega, hmant, hlow, hhigh⟩

theorem compose_fields {sign exp mant : BitVec 32} {s : Bool}
    (hsign : sign.toNat = s.toNat * 2 ^ 31) (hexp : exp.toNat < 2 ^ 8)
    (hmant : mant.toNat < 2 ^ 10) :
    (sign ||| (exp <<< 23) ||| (mant <<< 13)).toNat =
      binary32.pack s (exp.toNat * 2 ^ 23 + mant.toNat * 2 ^ 13) := by
  have hshift : (exp <<< 23).toNat = exp.toNat * 2 ^ 23 := shiftLeft_place (by omega)
  have hshift' : (mant <<< 13).toNat = mant.toNat * 2 ^ 13 := shiftLeft_place (by omega)
  have hhigh : (sign ||| (exp <<< 23)).toNat = (s.toNat * 2 ^ 8 + exp.toNat) * 2 ^ 23 := by
    rw [or_place hsign (by omega), hshift]
    omega
  have hpack : binary32.pack s (exp.toNat * 2 ^ 23 + mant.toNat * 2 ^ 13) =
      s.toNat * 2 ^ 31 + (exp.toNat * 2 ^ 23 + mant.toNat * 2 ^ 13) := rfl
  rw [or_place hhigh (by omega), hshift', hpack]
  omega

structure Widened (n w : Nat) : Prop where
  infinite : n = 0x7C00 → w = 0x7F800000
  finite : n < 0x7C00 → w < 143 * 2 ^ 23 ∧ scaled 23 w = scaled 10 n * 2 ^ 125

theorem widened_subnormal {f j : Nat} (hj : j ≤ 10) (hlow : 2 ^ 10 ≤ f * 2 ^ j)
    (hhigh : f * 2 ^ j < 2 ^ 11) (hf : f < 2 ^ 10) :
    Widened f ((113 - j) * 2 ^ 23 + f * 2 ^ j % 2 ^ 10 * 2 ^ 13) where
  infinite := by omega
  finite _ := by
    have hpow : 2 ^ j * 2 ^ 13 * 2 ^ (113 - j - 1) = 2 ^ 125 := by
      rw [← Nat.pow_add, ← Nat.pow_add, (by omega : j + 13 + (113 - j - 1) = 125)]
    have hmantissa : 2 ^ 23 + f * 2 ^ j % 2 ^ 10 * 2 ^ 13 = f * 2 ^ j * 2 ^ 13 := by omega
    refine ⟨by omega, ?_⟩
    rw [scaled_fields (by omega) (by omega), hmantissa, scaled_of_lt hf, Nat.mul_assoc f,
      Nat.mul_assoc f, hpow]

theorem widened_fraction {m : Nat} (hm : m < 2 ^ 10) : m * 2 ^ 13 < 2 ^ 23 := by omega

theorem widened_normal {e m : Nat} (he : 0 < e) (he' : e < 31) (hm : m < 2 ^ 10) :
    Widened (e * 2 ^ 10 + m) ((e + 112) * 2 ^ 23 + m * 2 ^ 13) := by
  have hbound : (e + 112) * 2 ^ 23 + m * 2 ^ 13 < 143 * 2 ^ 23 := by omega
  have hmantissa : 2 ^ 23 + m * 2 ^ 13 = (2 ^ 10 + m) * 2 ^ 13 := by omega
  have hpow : 2 ^ 13 * 2 ^ (e + 112 - 1) = 2 ^ (e - 1) * 2 ^ 125 := by
    rw [(by omega : e + 112 - 1 = (e - 1) + 112), Nat.pow_add]
    generalize 2 ^ (e - 1) = p
    omega
  refine ⟨by omega, fun _ => ⟨hbound, ?_⟩⟩
  rw [scaled_fields (Nat.succ_pos _) (widened_fraction hm), scaled_fields he hm, hmantissa,
    Nat.mul_assoc, hpow, Nat.mul_assoc]

theorem half_fields {h : BitVec 16} :
    ((h.setWidth 32 &&& 0x8000) <<< 16).toNat = (binary16.negative h.toNat).toNat * 2 ^ 31 ∧
      ((h.setWidth 32 >>> 10) &&& 0x1F).toNat = binary16.magnitude h.toNat / 2 ^ 10 ∧
      (h.setWidth 32 &&& 0x3FF).toNat = binary16.magnitude h.toNat % 2 ^ 10 := by
  have hH : (h.setWidth 32).toNat = h.toNat := BitVec.toNat_setWidth_of_le (by decide)
  have hlt := h.isLt
  have hs : (binary16.negative h.toNat).toNat = h.toNat / 2 ^ 15 % 2 := Nat.toNat_testBit _ _
  have hn : binary16.magnitude h.toNat = h.toNat % 2 ^ 15 := rfl
  have hplace := and_bit (h.setWidth 32) (k := 15) (by decide)
  have hfield := and_mask (h.setWidth 32 >>> 10) (k := 5) (by decide)
  have hrest := and_mask (h.setWidth 32) (k := 10) (by decide)
  rw [BitVec.toNat_ushiftRight, Nat.shiftRight_eq_div_pow] at hfield
  refine ⟨?_, hfield.trans (by rw [hH, hn]; omega), hrest.trans (by rw [hH, hn]; omega)⟩
  have hbit : (h.setWidth 32 &&& 0x8000).toNat = h.toNat / 2 ^ 15 % 2 * 2 ^ 15 := hH ▸ hplace
  rw [shiftLeft_place (by omega), hbit, hs]
  omega

theorem compose_subnormal {sign mant : BitVec 32} {s : Bool}
    (hsign : sign.toNat = s.toNat * 2 ^ 31) (hpos : mant.toNat ≠ 0) (hmant : mant.toNat < 2 ^ 10) :
    ∃ w, Widened mant.toNat w ∧
      (sign ||| (BitVec.ofInt 32 (normalize 10 (mant, 127 - 15 + 1)).2 <<< 23) |||
        (((normalize 10 (mant, 127 - 15 + 1)).1 &&& 0x3FF) <<< 13)).toNat = binary32.pack s w := by
  obtain ⟨j, hj, hcount, hvalue, hlow, hhigh⟩ := @normalize_spec 10 mant (127 - 15 + 1)
    (by omega) (by omega)
  generalize normalize 10 (mant, 127 - 15 + 1) = r at *
  have hE : (BitVec.ofInt 32 r.2).toNat = 113 - j := by
    rw [hcount, BitVec.toNat_ofInt]
    omega
  have hM : (r.1 &&& 0x3FF).toNat = mant.toNat * 2 ^ j % 2 ^ 10 :=
    hvalue ▸ and_mask r.1 (k := 10) (by decide)
  have hpack := @compose_fields sign (BitVec.ofInt 32 r.2) (r.1 &&& 0x3FF) s hsign (by omega)
    (by omega)
  rw [hE, hM] at hpack
  exact ⟨_, widened_subnormal hj hlow hhigh hmant, hpack⟩

theorem compose_normal {sign exp mant : BitVec 32} {s : Bool}
    (hsign : sign.toNat = s.toNat * 2 ^ 31) (he : 0 < exp.toNat) (he' : exp.toNat < 31)
    (hmant : mant.toNat < 2 ^ 10) :
    ∃ w, Widened (exp.toNat * 2 ^ 10 + mant.toNat) w ∧
      (sign ||| ((exp - 15 + 127) <<< 23) ||| (mant <<< 13)).toNat = binary32.pack s w := by
  have hE : (exp - 15 + 127).toNat = exp.toNat + 112 := by
    rw [BitVec.toNat_add, BitVec.toNat_sub]
    show ((2 ^ 32 - 15 + exp.toNat) % 2 ^ 32 + 127) % 2 ^ 32 = _
    omega
  have hpack := @compose_fields sign (exp - 15 + 127) mant s hsign (by omega) hmant
  rw [hE] at hpack
  exact ⟨_, widened_normal he he' hmant, hpack⟩

theorem compose_infinite {sign mant : BitVec 32} {s : Bool}
    (hsign : sign.toNat = s.toNat * 2 ^ 31) (hmant : mant.toNat = 0) :
    (sign ||| 0x7F800000 ||| (mant <<< 13)).toNat = binary32.pack s 0x7F800000 := by
  have hpack := @compose_fields sign 0xFF mant s hsign (by decide) (by omega)
  rw [hmant] at hpack
  exact hpack

theorem widened_zero : Widened 0 0 where
  infinite h := absurd h (by decide)
  finite _ := ⟨by norm_num, rfl⟩

theorem empHalfToFloat_pack {h : BitVec 16} (hh : ¬ binary16.IsNaN h.toNat) :
    ∃ w, Widened (binary16.magnitude h.toNat) w ∧
      (empHalfToFloat h).toNat = binary32.pack (binary16.negative h.toNat) w := by
  have hle : binary16.magnitude h.toNat ≤ 31 * 2 ^ 10 := Nat.le_of_not_lt hh
  obtain ⟨hsign, hexp, hmant⟩ := @half_fields h
  unfold empHalfToFloat
  simp only []
  generalize (h.setWidth 32 &&& 0x8000) <<< 16 = sign at *
  generalize (h.setWidth 32 >>> 10) &&& 0x1F = exp at *
  generalize h.setWidth 32 &&& 0x3FF = mant at *
  generalize binary16.magnitude h.toNat = n at *
  generalize binary16.negative h.toNat = s at *
  have hsplit : exp.toNat * 2 ^ 10 + mant.toNat = n := by omega
  have hlow : mant.toNat < 2 ^ 10 := by omega
  split
  case isTrue hzero =>
    have hn : mant.toNat = n := by rw [← hsplit, hzero]; exact (Nat.zero_add _).symm
    split
    case isTrue hnil =>
      have hnone : n = 0 := by rw [← hn, hnil]; rfl
      rw [hnone]
      exact ⟨0, widened_zero, hsign.trans (Nat.add_zero _).symm⟩
    case isFalse hnil =>
      rw [← hn]
      exact compose_subnormal hsign (fun h => hnil (BitVec.eq_of_toNat_eq h)) hlow
  case isFalse hzero =>
    have he : exp.toNat ≠ 0 := fun h => hzero (BitVec.eq_of_toNat_eq h)
    split
    case isTrue htop =>
      have he' : exp.toNat = 31 := by rw [htop]; rfl
      exact ⟨0x7F800000, ⟨fun _ => rfl, by omega⟩, compose_infinite hsign (by omega)⟩
    case isFalse htop =>
      have he' : exp.toNat ≠ 31 := fun h => htop (BitVec.eq_of_toNat_eq h)
      rw [← hsplit]
      exact compose_normal hsign (Nat.pos_of_ne_zero he) (by omega) hlow

theorem Widened.bound {n w : Nat} (h : Widened n w) (hn : n ≤ 0x7C00) : w ≤ 0x7F800000 := by
  rcases Nat.lt_or_eq_of_le hn with hlt | heq
  · have hw := (h.finite hlt).1
    omega
  · exact (h.infinite heq).le

theorem Widened.grid {n w : Nat} (h : Widened n w) (hn : n < 0x7C00) :
    binary32.grid w = binary16.grid n := by
  have hscaled : scaled binary32.fraction w = scaled binary16.fraction n * 2 ^ 125 :=
    (h.finite hn).2
  rw [Format.grid, Format.grid, hscaled, unit_half, Nat.cast_mul, mul_assoc]

theorem Widened.halfMagnitude {n w : Nat} (h : Widened n w) (hn : n ≤ 0x7C00) :
    halfMagnitude w = n := by
  rcases Nat.lt_or_eq_of_le hn with hlt | heq
  · have hbinade : w / 2 ^ 23 < 143 := (Nat.div_lt_iff_lt_mul (by decide)).mpr (h.finite hlt).1
    have hnearest := halfMagnitude_nearest hbinade
    rw [h.grid hlt] at hnearest
    exact hnearest.unique binary16.grid_strictMono (nearest_self binary16.grid_strictMono n)
  · rw [h.infinite heq, heq]
    rfl

end Widening

theorem empFloatToHalf_rounded {x : BitVec 32} (hx : ¬ binary32.IsNaN x.toNat) :
    RoundedHalf x (empFloatToHalf x) := by
  have hle := halfMagnitude_le (binary32.magnitude x.toNat)
  have hlt : halfMagnitude (binary32.magnitude x.toNat) < 2 ^ binary16.width :=
    Nat.lt_of_le_of_lt hle (by decide)
  have hpack := empFloatToHalf_pack hx
  have hmagnitude : binary16.magnitude (empFloatToHalf x).toNat =
      halfMagnitude (binary32.magnitude x.toNat) := by
    rw [hpack, binary16.magnitude_pack _ hlt]
  have habs : |binary32.finite x.toNat| = binary32.grid (binary32.magnitude x.toNat) := by
    have hnonneg := binary32.grid_nonneg (binary32.magnitude x.toNat)
    unfold Format.finite
    split
    case isTrue _ => rw [abs_neg, abs_of_nonneg hnonneg]
    case isFalse _ => exact abs_of_nonneg hnonneg
  have hover := halfMagnitude_overflow (binary32.magnitude x.toNat)
  have hlimit : binary16.infinity = 0x7C00 := rfl
  refine ⟨?_, ?_, ?_, ?_⟩
  · unfold Format.IsNaN
    rw [hmagnitude, hlimit]
    omega
  · rw [hpack, binary16.negative_pack _ hlt]
  · unfold Format.IsFinite
    rw [hmagnitude, hlimit, habs, ← hover]
    constructor
    · intro h
      exact Or.inr (by omega)
    · rintro (h | h)
      · have hinfinite : binary32.infinity = 255 * 2 ^ 23 := rfl
        have htop := halfMagnitude_of_ge (by omega : 143 ≤ binary32.magnitude x.toNat / 2 ^ 23)
        omega
      · omega
  · intro hfinite k _
    unfold Format.IsFinite at hfinite
    rw [hmagnitude, hlimit] at hfinite
    have hbinade : binary32.magnitude x.toNat / 2 ^ 23 < 143 := by
      by_contra hbig
      have htop := halfMagnitude_of_ge (Nat.le_of_not_lt hbig)
      omega
    rw [hpack]
    exact nearest_signed (halfMagnitude_nearest hbinade) hlt

theorem key_pack (F : Format) (s : Bool) {n : Nat} (hn : n < 2 ^ F.width) :
    F.key (F.pack s n) = if s then -(n : Int) else n := by
  rw [Format.key, F.negative_pack s hn, F.magnitude_pack s hn]

theorem empFloatToHalf_mono {x x' : BitVec 32} (hx : ¬ binary32.IsNaN x.toNat)
    (hx' : ¬ binary32.IsNaN x'.toNat) (hle : binary32.value x.toNat ≤ binary32.value x'.toNat) :
    binary16.value (empFloatToHalf x).toNat ≤ binary16.value (empFloatToHalf x').toNat := by
  have hlt (n : Nat) : halfMagnitude n < 2 ^ binary16.width :=
    Nat.lt_of_le_of_lt (halfMagnitude_le n) (by decide)
  have hzero : halfMagnitude 0 = 0 := rfl
  rw [binary32.value_le_iff hx hx'] at hle
  rw [binary16.value_le_iff (empFloatToHalf_rounded hx).notNaN (empFloatToHalf_rounded hx').notNaN,
    empFloatToHalf_pack hx, empFloatToHalf_pack hx', key_pack _ _ (hlt _), key_pack _ _ (hlt _)]
  unfold Format.key at hle
  generalize binary32.magnitude x.toNat = n at *
  generalize binary32.magnitude x'.toNat = n' at *
  cases hs : binary32.negative x.toNat with
  | false =>
    rw [hs, if_neg Bool.false_ne_true] at hle
    cases hs' : binary32.negative x'.toNat with
    | false =>
      rw [hs', if_neg Bool.false_ne_true] at hle
      have hmono := halfMagnitude_mono (Int.ofNat_le.mp hle)
      simp only [Bool.false_eq_true, if_false, Nat.cast_le]
      exact hmono
    | true =>
      rw [hs', if_pos rfl] at hle
      obtain ⟨rfl, rfl⟩ : n = 0 ∧ n' = 0 := by omega
      rw [hzero]
      rfl
  | true =>
    rw [hs, if_pos rfl] at hle
    cases hs' : binary32.negative x'.toNat with
    | false =>
      rw [if_pos rfl, if_neg Bool.false_ne_true]
      omega
    | true =>
      rw [hs', if_pos rfl] at hle
      have hmono := halfMagnitude_mono (by omega : n' ≤ n)
      rw [if_pos rfl, if_pos rfl]
      omega

theorem empHalfToFloat_exact {h : BitVec 16} (hh : ¬ binary16.IsNaN h.toNat) :
    ¬ binary32.IsNaN (empHalfToFloat h).toNat ∧
      binary32.value (empHalfToFloat h).toNat = binary16.value h.toNat ∧
      empFloatToHalf (empHalfToFloat h) = h := by
  obtain ⟨w, hw, hpack⟩ := empHalfToFloat_pack hh
  have hn : binary16.magnitude h.toNat ≤ 0x7C00 := Nat.le_of_not_lt hh
  have hbound := hw.bound hn
  have hlt : w < 2 ^ binary32.width := Nat.lt_of_le_of_lt hbound (by decide)
  have hnegative := hpack ▸ binary32.negative_pack (binary16.negative h.toNat) hlt
  have hmagnitude := hpack ▸ binary32.magnitude_pack (binary16.negative h.toNat) hlt
  have hnaN : ¬ binary32.IsNaN (empHalfToFloat h).toNat := by
    unfold Format.IsNaN
    rw [hmagnitude]
    exact Nat.not_lt.mpr hbound
  refine ⟨hnaN, ?_, ?_⟩
  · unfold Format.value Format.finite
    rw [hnegative, hmagnitude]
    rcases Nat.lt_or_eq_of_le hn with hfinite | hinfinite
    · have hwide : w < binary32.infinity := by
        have hsmall := (hw.finite hfinite).1
        have hinf : binary32.infinity = 255 * 2 ^ 23 := rfl
        omega
      have hnarrow : binary16.magnitude h.toNat < binary16.infinity := hfinite
      rw [if_pos hwide, if_pos hnarrow, hw.grid hfinite]
    · have htop := hw.infinite hinfinite
      rw [htop, hinfinite]
      rfl
  · apply BitVec.eq_of_toNat_eq
    rw [empFloatToHalf_pack hnaN, hnegative, hmagnitude, hw.halfMagnitude hn]
    exact binary16.pack_fields h.isLt

theorem half_conversion_correctly_rounded :
    (∀ x : BitVec 32, ¬ binary32.IsNaN x.toNat → RoundedHalf x (empFloatToHalf x)) ∧
    (∀ x x' : BitVec 32, ¬ binary32.IsNaN x.toNat → ¬ binary32.IsNaN x'.toNat →
      binary32.value x.toNat ≤ binary32.value x'.toNat →
      binary16.value (empFloatToHalf x).toNat ≤ binary16.value (empFloatToHalf x').toNat) ∧
    ∀ h : BitVec 16, ¬ binary16.IsNaN h.toNat →
      ¬ binary32.IsNaN (empHalfToFloat h).toNat ∧
      binary32.value (empHalfToFloat h).toNat = binary16.value h.toNat ∧
      empFloatToHalf (empHalfToFloat h) = h :=
  ⟨fun _ => empFloatToHalf_rounded, fun _ _ => empFloatToHalf_mono, fun _ => empHalfToFloat_exact⟩

theorem half_conversion_correctly_rounded_samples :
    RoundedHalf 0x477FF000 (empFloatToHalf 0x477FF000) ∧
    binary16.value (empFloatToHalf 0x3F800000).toNat ≤
      binary16.value (empFloatToHalf 0x40000000).toNat ∧
    empFloatToHalf (empHalfToFloat 0x3C00) = 0x3C00 := by
  have hle : binary32.value (0x3F800000 : BitVec 32).toNat ≤
      binary32.value (0x40000000 : BitVec 32).toNat :=
    (binary32.value_le_iff (by decide) (by decide)).mpr (by decide)
  exact ⟨half_conversion_correctly_rounded.1 0x477FF000 (by decide),
    half_conversion_correctly_rounded.2.1 0x3F800000 0x40000000 (by decide) (by decide) hle,
    (half_conversion_correctly_rounded.2.2 0x3C00 (by decide)).2.2⟩

end EmpTool.Circuits
