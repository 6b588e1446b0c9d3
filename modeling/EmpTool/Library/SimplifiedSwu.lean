import Mathlib.NumberTheory.LegendreSymbol.QuadraticChar.Basic
import Mathlib.Tactic.FieldSimp
import Mathlib.Tactic.LinearCombination

namespace SimplifiedSwu

section Curve

variable {F : Type} [Field F] {A B Z t : F}

def weierstrass (A B x : F) : F := x ^ 3 + A * x + B

open Classical in
-- the exceptional parameters make the denominator vanish
noncomputable def candidate (A B Z t : F) : F :=
  if t ^ 2 + t = 0 then B / (Z * A) else -B / A * (1 + (t ^ 2 + t)⁻¹)

-- the second candidate takes the value of the first one times a cube
theorem weierstrass_mul_candidate (hA : A ≠ 0) (ht : t ^ 2 + t ≠ 0) :
    weierstrass A B (t * candidate A B Z t) = t ^ 3 * weierstrass A B (candidate A B Z t) := by
  have hline : A * candidate A B Z t = -B * (1 + (t ^ 2 + t)⁻¹) := by
    rw [candidate, if_neg ht]
    field_simp
  have hinverse : (t ^ 2 + t) * (t ^ 2 + t)⁻¹ = 1 := mul_inv_cancel₀ ht
  rw [weierstrass, weierstrass]
  linear_combination (t - t ^ 3) * hline - B * (1 - t) * hinverse

open Classical in
noncomputable def mappedX (A B Z u : F) : F :=
  if IsSquare (weierstrass A B (candidate A B Z (Z * u ^ 2))) then candidate A B Z (Z * u ^ 2)
  else Z * u ^ 2 * candidate A B Z (Z * u ^ 2)

end Curve

section Squares

variable {F : Type} [Field F]

theorem ne_zero_of_not_isSquare {c : F} (hc : ¬ IsSquare c) : c ≠ 0 := by
  rintro rfl
  exact hc IsSquare.zero

variable [Fintype F] [DecidableEq F] {A B Z u : F}

theorem isSquare_mul_of_not {a b : F} (ha : ¬ IsSquare a) (hb : ¬ IsSquare b) :
    IsSquare (a * b) := by
  have hchar {c : F} (hc : ¬ IsSquare c) : quadraticChar F c = -1 :=
    quadraticChar_neg_one_iff_not_isSquare.mpr hc
  have hne := mul_ne_zero (ne_zero_of_not_isSquare ha) (ne_zero_of_not_isSquare hb)
  rw [← quadraticChar_one_iff_isSquare hne, map_mul, hchar ha, hchar hb, neg_mul_neg, one_mul]

theorem isSquare_second (hA : A ≠ 0) (hZ : ¬ IsSquare Z)
    (hexceptional : IsSquare (weierstrass A B (B / (Z * A))))
    (hfirst : ¬ IsSquare (weierstrass A B (candidate A B Z (Z * u ^ 2)))) :
    IsSquare (weierstrass A B (Z * u ^ 2 * candidate A B Z (Z * u ^ 2))) := by
  have ht : (Z * u ^ 2) ^ 2 + Z * u ^ 2 ≠ 0 := by
    intro h
    rw [candidate, if_pos h] at hfirst
    exact hfirst hexceptional
  have hgroup : (Z * u ^ 2) ^ 3 * weierstrass A B (candidate A B Z (Z * u ^ 2)) =
      Z * weierstrass A B (candidate A B Z (Z * u ^ 2)) * (Z * u ^ 3) ^ 2 := by ring
  rw [weierstrass_mul_candidate hA ht, hgroup]
  exact (isSquare_mul_of_not hZ hfirst).mul (IsSquare.sq _)

theorem isSquare_mappedX (hA : A ≠ 0) (hZ : ¬ IsSquare Z)
    (hexceptional : IsSquare (weierstrass A B (B / (Z * A)))) (u : F) :
    IsSquare (weierstrass A B (mappedX A B Z u)) := by
  unfold mappedX
  split
  case isTrue h => exact h
  case isFalse h => exact isSquare_second hA hZ hexceptional h

end Squares

section Roots

variable {p : Nat} [Fact p.Prime]

structure Residue (p : Nat) (a : Int) (v : ZMod p) : Prop where
  nonneg : 0 ≤ a
  lt : a < p
  cast : (a : ZMod p) = v

theorem residue_emod {a : Int} {v : ZMod p} (h : (a : ZMod p) = v) : Residue p (a % p) v where
  nonneg := Int.emod_nonneg a (by exact_mod_cast (Fact.out : p.Prime).ne_zero)
  lt := Int.emod_lt_of_pos a (by exact_mod_cast (Fact.out : p.Prime).pos)
  cast := (ZMod.intCast_mod a p).trans h

theorem intCast_eq_iff {a b : Int} : (a : ZMod p) = b ↔ a % p = b % p :=
  ZMod.intCast_eq_intCast_iff' a b p

theorem Residue.unique {a b : Int} {v : ZMod p} (ha : Residue p a v) (hb : Residue p b v) :
    a = b := by
  have hmod := intCast_eq_iff.mp (ha.cast.trans hb.cast.symm)
  rwa [Int.emod_eq_of_lt ha.nonneg ha.lt, Int.emod_eq_of_lt hb.nonneg hb.lt] at hmod

theorem residue_zero : Residue p 0 0 where
  nonneg := le_rfl
  lt := by exact_mod_cast (Fact.out : p.Prime).pos
  cast := Int.cast_zero

theorem Residue.eq_zero_iff {a : Int} {v : ZMod p} (ha : Residue p a v) : a = 0 ↔ v = 0 := by
  constructor
  · rintro rfl
    rw [← ha.cast, Int.cast_zero]
  · rintro rfl
    exact ha.unique residue_zero

theorem Residue.sub {a : Int} {v : ZMod p} (ha : Residue p a v) (hv : v ≠ 0) :
    Residue p (p - a) (-v) where
  nonneg := by
    have := ha.lt
    omega
  lt := by
    have hne : a ≠ 0 := fun h => hv (ha.eq_zero_iff.mp h)
    have := ha.nonneg
    omega
  cast := by rw [Int.cast_sub, Int.cast_natCast, ZMod.natCast_self, zero_sub, ha.cast]

theorem Residue.root_unique (hodd : p % 2 = 1) {a b : Int} {v w : ZMod p} (ha : Residue p a v)
    (hb : Residue p b w) (hsquare : v ^ 2 = w ^ 2) (hparity : a % 2 = b % 2) : a = b := by
  rcases sq_eq_sq_iff_eq_or_eq_neg.mp hsquare with rfl | rfl
  · exact ha.unique hb
  · by_cases hw : w = 0
    · rw [hw, neg_zero] at ha
      rw [hw] at hb
      exact ha.unique hb
    · have hsum := ha.unique (hb.sub hw)
      omega

end Roots

end SimplifiedSwu
