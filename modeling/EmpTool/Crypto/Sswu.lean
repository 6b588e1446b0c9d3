import EmpTool.Library.SimplifiedSwu
import EmpTool.Runtime.Error

namespace EmpTool.Crypto

open SimplifiedSwu

-- the calls of the big number library; `none` is a failure
structure Bignum where
  new : Bool
  copy : Int → Option Int
  sub : Int → Int → Option Int
  modAdd : Int → Int → Int → Option Int
  modMul : Int → Int → Int → Option Int
  modSqr : Int → Int → Option Int
  modInverse : Int → Int → Option Int
  modSqrt : Int → Int → Option Int

theorem ok_bind {α β : Type} (a : α) (f : α → Except String β) :
    (Except.ok a : Except String α) >>= f = f a := rfl

def bnIsBitSet (a : Int) (n : Nat) : Bool := a.natAbs.testBit n

section Map

variable (bn : Bignum) (u p A B Z : Int)

def denominator : Option (Int × Int) := do
  let u2 ← bn.modSqr u p
  let t ← bn.modMul Z u2 p
  let tmp ← bn.modSqr t p
  let tv1 ← bn.modAdd tmp t p
  return (t, tv1)

def firstX (tv1 : Int) : Except String Int := do
  if tv1 = 0 then
    let tmp ← expectingSome (bn.modMul Z A p) "SSWU: BN_mod_mul (Z*A)"
    let tmp ← expectingSome (bn.modInverse tmp p) "SSWU: Z*A not invertible"
    expectingSome (bn.modMul B tmp p) "SSWU: BN_mod_mul (x1=B/(Z*A))"
  else
    expecting bn.new "SSWU: BN_new"
    let inv ← expectingSome (bn.modInverse tv1 p) "SSWU: tv1 not invertible"
    let (onePlus, negB) ← expectingSome (do
      let onePlus ← bn.modAdd 1 inv p
      let negB ← bn.sub p B
      return (onePlus, negB)) "SSWU: BN_mod_add/sub (else-branch)"
    let Ainv ← expectingSome (bn.modInverse A p) "SSWU: A not invertible"
    expectingSome (do
      let tmp ← bn.modMul negB Ainv p
      bn.modMul tmp onePlus p) "SSWU: BN_mod_mul (x1)"

def curveValue (x1 : Int) : Option Int := do
  let tmp ← bn.modSqr x1 p
  let gx ← bn.modMul tmp x1 p
  let tmp ← bn.modMul A x1 p
  let gx ← bn.modAdd gx tmp p
  bn.modAdd gx B p

def sgn0Correction (y : Int) : Except String Int :=
  if bnIsBitSet u 0 ≠ bnIsBitSet y 0 then expectingSome (bn.sub p y) "SSWU: BN_sub (sgn0)"
  else pure y

def mapToCurveSswuP256 : Except String (Int × Int) := do
  expecting bn.new "SSWU: BN_new"
  let (t, tv1) ← expectingSome (denominator bn u p Z) "SSWU: BN_mod_* (t/tv1)"
  let x1 ← firstX bn p A B Z tv1
  let gx ← expectingSome (curveValue bn p A B x1) "SSWU: BN_mod_* (gx1)"
  let (xOut, y) ←
    match bn.modSqrt gx p with
    | some y => do
      let xOut ← expectingSome (bn.copy x1) "SSWU: BN_copy x_out"
      pure (xOut, y)
    | none => do
      let (x1, gx) ← expectingSome (do
        let x1 ← bn.modMul t x1 p
        let gx ← curveValue bn p A B x1
        return (x1, gx)) "SSWU: BN_mod_* (gx2)"
      let y ← expectingSome (bn.modSqrt gx p) "H2C SSWU: neither candidate square"
      let xOut ← expectingSome (bn.copy x1) "SSWU: BN_copy x_out"
      pure (xOut, y)
  let y ← sgn0Correction bn u p y
  let yOut ← expectingSome (bn.copy y) "SSWU: BN_copy y_out"
  pure (xOut, yOut)

end Map

-- exact arithmetic; the residues are the least ones
structure Bignum.Exact (bn : Bignum) (p : Int) : Prop where
  new : bn.new = true
  copy : ∀ a, bn.copy a = some a
  sub : ∀ a b, bn.sub a b = some (a - b)
  modAdd : ∀ a b, bn.modAdd a b p = some ((a + b) % p)
  modMul : ∀ a b, bn.modMul a b p = some (a * b % p)
  modSqr : ∀ a, bn.modSqr a p = some (a * a % p)
  modInverse : ∀ a, IsCoprime a p → ∃ b, bn.modInverse a p = some b ∧ a * b % p = 1 % p
  modSqrt_isSome : ∀ a, (bn.modSqrt a p).isSome ↔ ∃ r : Int, r * r % p = a % p
  modSqrt_root : ∀ a r, bn.modSqrt a p = some r → 0 ≤ r ∧ r < p ∧ r * r % p = a % p

def searchResidue (p : Int) (test : Int → Bool) : Option Int :=
  ((List.range p.toNat).map Int.ofNat).find? test

def bignumBySearch : Bignum where
  new := true
  copy a := some a
  sub a b := some (a - b)
  modAdd a b p := some ((a + b) % p)
  modMul a b p := some (a * b % p)
  modSqr a p := some (a * a % p)
  modInverse a p := searchResidue p fun b => a * b % p = 1 % p
  modSqrt a p := searchResidue p fun r => r * r % p = a % p

theorem searchResidue_some {p r : Int} {test : Int → Bool} (h : searchResidue p test = some r) :
    0 ≤ r ∧ r < p ∧ test r = true := by
  obtain ⟨n, hn, rfl⟩ := List.mem_map.mp (List.mem_of_find?_eq_some h)
  have hlt := List.mem_range.mp hn
  exact ⟨Int.natCast_nonneg n, by simpa using Int.lt_toNat.mp hlt, List.find?_some h⟩

theorem searchResidue_isSome {p : Int} {test : Int → Bool} :
    (searchResidue p test).isSome ↔ ∃ r, (0 ≤ r ∧ r < p) ∧ test r = true := by
  constructor
  · intro h
    obtain ⟨r, hr⟩ := Option.isSome_iff_exists.mp h
    obtain ⟨hlow, hhigh, htest⟩ := searchResidue_some hr
    exact ⟨r, ⟨hlow, hhigh⟩, htest⟩
  · rintro ⟨r, ⟨hlow, hhigh⟩, htest⟩
    have hmem : r.toNat ∈ List.range p.toNat := List.mem_range.mpr (by omega)
    exact List.find?_isSome.mpr
      ⟨r, List.mem_map.mpr ⟨r.toNat, hmem, Int.toNat_of_nonneg hlow⟩, htest⟩

theorem bignumBySearch_exact {p : Int} (hp : 0 < p) : bignumBySearch.Exact p where
  new := rfl
  copy _ := rfl
  sub _ _ := rfl
  modAdd _ _ := rfl
  modMul _ _ := rfl
  modSqr _ := rfl
  modInverse a ha := by
    obtain ⟨v, w, hvw⟩ := ha
    have hresidue : a * (v % p) % p = 1 % p := by
      have hmul : a * v = 1 + p * -w := by linear_combination hvw
      rw [Int.mul_emod, Int.emod_emod, ← Int.mul_emod, hmul, Int.add_mul_emod_self_left]
    have hsome : (bignumBySearch.modInverse a p).isSome :=
      searchResidue_isSome.mpr ⟨v % p, ⟨Int.emod_nonneg v hp.ne', Int.emod_lt_of_pos v hp⟩,
        decide_eq_true hresidue⟩
    obtain ⟨b, hb⟩ := Option.isSome_iff_exists.mp hsome
    exact ⟨b, hb, of_decide_eq_true (searchResidue_some hb).2.2⟩
  modSqrt_isSome a := by
    refine searchResidue_isSome.trans
      ⟨fun ⟨r, _, hr⟩ => ⟨r, of_decide_eq_true hr⟩, fun ⟨r, hr⟩ => ?_⟩
    refine ⟨r % p, ⟨Int.emod_nonneg r hp.ne', Int.emod_lt_of_pos r hp⟩, decide_eq_true ?_⟩
    rw [← Int.mul_emod, hr]
  modSqrt_root a r hr := by
    obtain ⟨hlow, hhigh, htest⟩ := searchResidue_some hr
    exact ⟨hlow, hhigh, of_decide_eq_true htest⟩

section Exact

variable {p : Nat} [Fact p.Prime] {bn : Bignum} (h : bn.Exact p) {u A B Z : Int}
include h

theorem denominator_exact : ∃ t tv1, denominator bn u p Z = some (t, tv1) ∧
    Residue p t (Z * u ^ 2) ∧ Residue p tv1 ((Z * u ^ 2) ^ 2 + Z * u ^ 2) := by
  refine ⟨_, _, by simp only [denominator, h.modSqr, h.modMul, h.modAdd]; rfl,
    residue_emod ?_, residue_emod ?_⟩
  · push_cast
    ring
  · push_cast
    ring

theorem curveValue_exact (x : Int) : ∃ gx, curveValue bn p A B x = some gx ∧
    Residue p gx (weierstrass A B x) := by
  refine ⟨_, by simp only [curveValue, h.modSqr, h.modMul, h.modAdd]; rfl, residue_emod ?_⟩
  rw [weierstrass]
  push_cast
  ring

theorem modInverse_exact {a : Int} (ha : (a : ZMod p) ≠ 0) :
    ∃ b, bn.modInverse a p = some b ∧ (b : ZMod p) = (a : ZMod p)⁻¹ := by
  have hprime : Prime (p : Int) := Nat.prime_iff_prime_int.mp Fact.out
  have hcoprime : IsCoprime a p := by
    refine (hprime.coprime_iff_not_dvd.mpr fun hdvd => ha ?_).symm
    exact (ZMod.intCast_zmod_eq_zero_iff_dvd a p).mpr hdvd
  obtain ⟨b, hb, hmul⟩ := h.modInverse a hcoprime
  have hone : (a : ZMod p) * b = 1 := by
    rw [← Int.cast_mul, intCast_eq_iff.mpr hmul, Int.cast_one]
  exact ⟨b, hb, eq_inv_of_mul_eq_one_right hone⟩

theorem firstX_exact {tv1 : Int} {t : ZMod p} (htv1 : Residue p tv1 (t ^ 2 + t))
    (hA : (A : ZMod p) ≠ 0) (hZ : (Z : ZMod p) ≠ 0) :
    ∃ x1, firstX bn p A B Z tv1 = .ok x1 ∧ Residue p x1 (candidate (A : ZMod p) B Z t) := by
  unfold firstX candidate
  by_cases hzero : t ^ 2 + t = 0
  · rw [if_pos (htv1.eq_zero_iff.mpr hzero), if_pos hzero]
    have hZA : ((Z * A % p : Int) : ZMod p) ≠ 0 := by
      push_cast
      exact mul_ne_zero hZ hA
    obtain ⟨b, hb, hinverse⟩ := modInverse_exact h hZA
    refine ⟨_, by simp only [h.modMul, expectingSome_some, ok_bind, hb]; rfl, residue_emod ?_⟩
    push_cast at hinverse ⊢
    rw [hinverse]
    ring
  · rw [if_neg fun hnil => hzero (htv1.eq_zero_iff.mp hnil), if_neg hzero]
    have htv1' : (tv1 : ZMod p) ≠ 0 := htv1.cast ▸ hzero
    obtain ⟨b, hb, hinverse⟩ := modInverse_exact h htv1'
    obtain ⟨c, hc, hinverse'⟩ := modInverse_exact h hA
    refine ⟨_, by
      simp only [h.new, h.modAdd, h.modMul, h.sub, hb, hc, expectingSome, expecting]; rfl,
      residue_emod ?_⟩
    push_cast
    rw [hinverse, hinverse', htv1.cast, ZMod.natCast_self]
    ring

theorem modSqrt_exact {a : Int} {v : ZMod p} (ha : Residue p a v) :
    (¬ IsSquare v ∧ bn.modSqrt a p = none) ∨
      ∃ r w, bn.modSqrt a p = some r ∧ Residue p r w ∧ w ^ 2 = v := by
  have hsquare : (∃ r : Int, r * r % p = a % p) ↔ IsSquare v := by
    rw [← ha.cast]
    constructor
    · rintro ⟨r, hr⟩
      exact ⟨r, by rw [← Int.cast_mul, intCast_eq_iff.mpr hr]⟩
    · rintro ⟨w, hw⟩
      obtain ⟨r, rfl⟩ := ZMod.intCast_surjective w
      exact ⟨r, intCast_eq_iff.mp (by rw [Int.cast_mul, hw])⟩
  cases hroot : bn.modSqrt a p with
  | none =>
    refine Or.inl ⟨fun hv => ?_, rfl⟩
    have hsome := (h.modSqrt_isSome a).mpr (hsquare.mpr hv)
    rw [hroot] at hsome
    exact nomatch hsome
  | some r =>
    obtain ⟨hlow, hhigh, hmul⟩ := h.modSqrt_root a r hroot
    refine Or.inr ⟨r, r, rfl, ⟨hlow, hhigh, rfl⟩, ?_⟩
    rw [sq, ← Int.cast_mul, intCast_eq_iff.mpr hmul, ha.cast]

theorem sgn0Correction_exact (hodd : p % 2 = 1) {y : Int} {w : ZMod p} (hy : Residue p y w)
    (hw : w ≠ 0) :
    ∃ y' w', sgn0Correction bn u p y = .ok y' ∧ Residue p y' w' ∧ w' ^ 2 = w ^ 2 ∧
      y' % 2 = u % 2 := by
  have hbit (a : Int) : bnIsBitSet a 0 = decide (a % 2 = 1) := by
    rw [bnIsBitSet, Nat.testBit_zero]
    exact decide_eq_decide.mpr (by omega)
  simp only [sgn0Correction, hbit, h.sub]
  split
  case isTrue hne =>
    refine ⟨p - y, -w, rfl, hy.sub hw, neg_sq w, ?_⟩
    rw [ne_eq, decide_eq_decide] at hne
    omega
  case isFalse heq =>
    refine ⟨y, w, rfl, hy, rfl, ?_⟩
    rw [ne_eq, decide_eq_decide, not_not] at heq
    omega

theorem mapToCurveSswuP256_exact (hodd : p % 2 = 1) (hA : (A : ZMod p) ≠ 0)
    (hZ : ¬ IsSquare (Z : ZMod p))
    (hexceptional : IsSquare (weierstrass (A : ZMod p) B (B / (Z * A))))
    (hy : ∀ x : ZMod p, weierstrass (A : ZMod p) B x ≠ 0) :
    ∃ x y w, mapToCurveSswuP256 bn u p A B Z = .ok (x, y) ∧
      Residue p x (mappedX (A : ZMod p) B Z u) ∧ Residue p y w ∧
      w ^ 2 = weierstrass (A : ZMod p) B (mappedX (A : ZMod p) B Z u) ∧ y % 2 = u % 2 := by
  obtain ⟨t, tv1, hden, ht, htv1⟩ := denominator_exact h (u := u) (Z := Z)
  obtain ⟨x1, hfirst, hx1⟩ := firstX_exact h (B := B) htv1 hA (ne_zero_of_not_isSquare hZ)
  obtain ⟨gx, hgx, hvalue⟩ := curveValue_exact h (A := A) (B := B) x1
  have hroot (w : ZMod p) (hw : w ^ 2 = weierstrass (A : ZMod p) B (mappedX (A : ZMod p) B Z u)) :
      w ≠ 0 := by
    rintro rfl
    rw [sq, zero_mul] at hw
    exact hy _ hw.symm
  rw [hx1.cast] at hvalue
  unfold mapToCurveSswuP256
  simp only [h.new, expecting, if_true, hden, hfirst, hgx, h.copy, expectingSome_some, ok_bind]
  rcases modSqrt_exact h hvalue with ⟨hnone, hsqrt⟩ | ⟨r, w, hsqrt, hr, hw⟩
  · have hmapped : mappedX (A : ZMod p) B Z u =
        Z * u ^ 2 * candidate (A : ZMod p) B Z (Z * u ^ 2) := if_neg hnone
    have hx2 : Residue p (t * x1 % p) (mappedX (A : ZMod p) B Z u) :=
      residue_emod (by rw [hmapped, Int.cast_mul, ht.cast, hx1.cast])
    obtain ⟨gx2, hgx2, hvalue2⟩ := curveValue_exact h (A := A) (B := B) (t * x1 % p)
    rw [hx2.cast] at hvalue2
    rcases modSqrt_exact h hvalue2 with ⟨hnone2, _⟩ | ⟨r, w, hsqrt2, hr, hw⟩
    · exact absurd (isSquare_mappedX hA hZ hexceptional _) hnone2
    · obtain ⟨y, w', hsign, hresidue, hsame, hparity⟩ :=
        sgn0Correction_exact h (u := u) hodd hr (hroot w hw)
      refine ⟨t * x1 % p, y, w', ?_, hx2, hresidue, hsame.trans hw, hparity⟩
      have hsecond : (do
          let x1 ← bn.modMul t x1 p
          let gx ← curveValue bn p A B x1
          return (x1, gx)) = some (t * x1 % p, gx2) := by
        rw [h.modMul]
        show (curveValue bn p A B (t * x1 % p) >>= _) = _
        rw [hgx2]
        rfl
      simp only [hsqrt, hsecond, expectingSome_some, ok_bind, hsqrt2]
      show (sgn0Correction bn u p r >>= _) = _
      rw [hsign]
      rfl
  · have hmapped : mappedX (A : ZMod p) B Z u = candidate (A : ZMod p) B Z (Z * u ^ 2) :=
      if_pos ⟨w, by rw [← hw, sq]⟩
    rw [← hmapped] at hx1 hw
    obtain ⟨y, w', hsign, hresidue, hsame, hparity⟩ :=
      sgn0Correction_exact h (u := u) hodd hr (hroot w hw)
    refine ⟨x1, y, w', ?_, hx1, hresidue, hsame.trans hw, hparity⟩
    simp only [hsqrt]
    show (sgn0Correction bn u p r >>= _) = _
    rw [hsign]
    rfl

end Exact

theorem sswu_total_on_curve_canonical (p : Nat) [Fact p.Prime] (hp : p % 4 = 3) (A B Z : Int)
    (hA : (A : ZMod p) ≠ 0) (hZ : ¬ IsSquare (Z : ZMod p))
    (hexceptional : IsSquare (weierstrass (A : ZMod p) B (B / (Z * A))))
    (hy : ∀ x : ZMod p, weierstrass (A : ZMod p) B x ≠ 0) (u : Int) :
    ∃ x y : Int, (∀ bn : Bignum, bn.Exact p → mapToCurveSswuP256 bn u p A B Z = .ok (x, y)) ∧
      y ^ 2 % p = (x ^ 3 + A * x + B) % p ∧ (0 ≤ x ∧ x < p) ∧ (0 ≤ y ∧ y < p) ∧ y % 2 = u % 2 := by
  have hodd : p % 2 = 1 := by omega
  have hpos : (0 : Int) < p := by omega
  obtain ⟨x, y, w, _, hx, hw, hroot, hparity⟩ := mapToCurveSswuP256_exact (u := u)
    (bignumBySearch_exact hpos) hodd hA hZ hexceptional hy
  refine ⟨x, y, fun bn h => ?_, ?_, ⟨hx.nonneg, hx.lt⟩, ⟨hw.nonneg, hw.lt⟩, hparity⟩
  · obtain ⟨x', y', w', hrun, hx', hw', hroot', hparity'⟩ :=
      mapToCurveSswuP256_exact (u := u) h hodd hA hZ hexceptional hy
    rw [hrun, hx'.unique hx,
      hw'.root_unique hodd hw (hroot'.trans hroot.symm) (hparity'.trans hparity.symm)]
  · apply intCast_eq_iff.mp
    push_cast
    rw [hw.cast, hx.cast, hroot, weierstrass]

instance fact_prime_seven : Fact (Nat.Prime 7) := ⟨by decide⟩

theorem sswu_total_on_curve_canonical_seven : 7 % 4 = 3 ∧
    ∃ x y : Int, mapToCurveSswuP256 bignumBySearch 5 7 1 6 3 = .ok (x, y) ∧
      y ^ 2 % 7 = (x ^ 3 + x + 6) % 7 ∧ y % 2 = 1 := by
  have hquotient : (((6 : Int) : ZMod 7)) / (((3 : Int) : ZMod 7) * ((1 : Int) : ZMod 7)) = 2 := by
    rw [div_eq_iff (by decide)]
    decide
  obtain ⟨x, y, hrun, hcurve, _, _, hparity⟩ := sswu_total_on_curve_canonical 7 (by decide) 1 6 3
    (by decide) (by decide) (by rw [hquotient]; exact ⟨3, by decide⟩) (by decide) 5
  rw [Int.one_mul] at hcurve
  exact ⟨by decide, x, y, hrun bignumBySearch (bignumBySearch_exact (by decide)), hcurve, hparity⟩

end EmpTool.Crypto
