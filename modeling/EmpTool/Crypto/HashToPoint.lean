import EmpTool.Crypto.ExpandMessage
import EmpTool.Crypto.P256
import Mathlib.AlgebraicGeometry.EllipticCurve.Affine.Point

namespace EmpTool.Crypto

open SimplifiedSwu

structure BignumInput extends Bignum where
  setWord : Nat → Option Int
  bin2bn : List UInt8 → Option Int
  mod : Int → Int → Option Int

-- the calls on the group's curve; every object of the library is a point of it
structure EcLibrary (Point : Type) where
  new : Bool
  getCurve : Option (Int × Int × Int)
  setAffineCoordinates : Int → Int → Option Point
  add : Point → Point → Option Point
  isOnCurve : Point → Bool

def nidX962Prime256v1 : Int := 415

structure EcGroup where
  curveNid : Int
  supported : curveNid = nidX962Prime256v1

namespace EcGroup

variable {Point : Type} (evp : Evp) (bn : BignumInput) (ec : EcLibrary Point)

def construct (curveNid : Int) : Except String EcGroup :=
  if h : curveNid = nidX962Prime256v1 then .ok ⟨curveNid, h⟩
  else .error "ECGroup: only NID_X9_62_prime256v1 (P-256) is supported"

-- `count = 2`, `L = 48`
def hashToFieldP256 (p : Int) (msg dst : List UInt8) : Except String (Int × Int) := do
  let buf ← expandMessageXmdSha256 evp 96 msg dst
  let u0 ← expectingSome (bn.bin2bn (buf.take 48)) "hash_to_field: BN_bin2bn u0"
  let u0 ← expectingSome (bn.mod u0 p) "hash_to_field: BN_mod u0"
  let u1 ← expectingSome (bn.bin2bn (buf.drop 48)) "hash_to_field: BN_bin2bn u1"
  let u1 ← expectingSome (bn.mod u1 p) "hash_to_field: BN_mod u1"
  pure (u0, u1)

-- neither call's result is looked at
def sswuZForCurve (p curveNid : Int) : Except String Int :=
  if curveNid = nidX962Prime256v1 then
    let z := (bn.setWord 10).getD 0
    .ok ((bn.sub p z).getD z)
  else .error "hash_to_point: unsupported curve (no SSWU Z table entry)"

def hashToPoint (g : EcGroup) (msg dst : List UInt8) : Except String Point := do
  expecting ec.new "Point: EC_POINT_new"
  expecting bn.new "hash_to_point: BN_new"
  let (p, A, B) ← expectingSome ec.getCurve "hash_to_point: EC_GROUP_get_curve"
  let Z ← sswuZForCurve bn p g.curveNid
  let (u0, u1) ← hashToFieldP256 evp bn p msg dst
  let (x0, y0) ← mapToCurveSswuP256 bn.toBignum u0 p A B Z
  let (x1, y1) ← mapToCurveSswuP256 bn.toBignum u1 p A B Z
  expecting ec.new "hash_to_point: EC_POINT_new"
  let (Q0, Q1) ← expectingSome (do
    let Q0 ← ec.setAffineCoordinates x0 y0
    let Q1 ← ec.setAffineCoordinates x1 y1
    return (Q0, Q1)) "hash_to_point: EC_POINT_set_affine_coordinates"
  let out ← expectingSome (ec.add Q0 Q1) "H2C ADD"
  expecting (ec.isOnCurve out) "H2C result not on curve"
  pure out

end EcGroup

def os2ip (bytes : List UInt8) : Nat := bytes.foldl (fun n b => 256 * n + b.toNat) 0

structure BignumInput.Exact (bn : BignumInput) (p : Int) : Prop extends bn.toBignum.Exact p where
  setWord : ∀ w, bn.setWord w = some (w : Int)
  bin2bn : ∀ bytes, bn.bin2bn bytes = some (os2ip bytes : Int)
  mod : ∀ a, bn.mod a p = some (a % p)

section Curve

variable {p : Nat} [Fact p.Prime]

def shortCurve (p : Nat) (A B : Int) : WeierstrassCurve.Affine (ZMod p) := ⟨0, 0, 0, A, B⟩

structure EcLibrary.Exact {Point : Type} (ec : EcLibrary Point) (A B : Int)
    (point : Point → (shortCurve p A B).Point) : Prop where
  new : ec.new = true
  getCurve : ec.getCurve = some ((p : Int), A, B)
  setAffineCoordinates : ∀ (x y : Int) (h : (shortCurve p A B).Nonsingular x y),
    0 ≤ x → x < p → 0 ≤ y → y < p →
      ∃ Q, ec.setAffineCoordinates x y = some Q ∧ point Q = .some x y h
  add : ∀ Q R, ∃ S, ec.add Q R = some S ∧ point S = point Q + point R
  isOnCurve : ∀ Q, ec.isOnCurve Q = true

-- the constants of the suite, with `Z = -10`
structure SswuSuite (p : Nat) [Fact p.Prime] (A B : Int) : Prop where
  odd : p % 2 = 1
  A_ne : (A : ZMod p) ≠ 0
  nonsquare : ¬ IsSquare (((p : Int) - 10 : Int) : ZMod p)
  exceptional : IsSquare (weierstrass (A : ZMod p) B (B / (((p : Int) - 10 : Int) * A)))
  noRoot : ∀ x : ZMod p, weierstrass (A : ZMod p) B x ≠ 0

def MapsTo (A B u : Int) (Q : (shortCurve p A B).Point) : Prop :=
  ∃ x y h, Q = .some x y h ∧ x = mappedX (A : ZMod p) B ((p : Int) - 10 : Int) u ∧
    (y.val : Int) % 2 = u % 2

variable {A B : Int}

theorem equation_shortCurve {x y : ZMod p} :
    (shortCurve p A B).Equation x y ↔ y ^ 2 = weierstrass (A : ZMod p) B x := by
  rw [WeierstrassCurve.Affine.equation_iff, weierstrass]
  simp [shortCurve]

theorem SswuSuite.two_ne (suite : SswuSuite p A B) : (2 : ZMod p) ≠ 0 := by
  intro h
  have hdvd : p ∣ 2 := (ZMod.natCast_eq_zero_iff 2 p).mp (by exact_mod_cast h)
  have hle := Nat.le_of_dvd (by decide) hdvd
  have htwo := (Fact.out : p.Prime).two_le
  have hodd := suite.odd
  omega

theorem nonsingular_shortCurve (suite : SswuSuite p A B) {x y : ZMod p}
    (h : y ^ 2 = weierstrass (A : ZMod p) B x) : (shortCurve p A B).Nonsingular x y := by
  rw [WeierstrassCurve.Affine.nonsingular_iff']
  refine ⟨equation_shortCurve.mpr h, Or.inr ?_⟩
  have hy : y ≠ 0 := by
    rintro rfl
    rw [sq, zero_mul] at h
    exact suite.noRoot x h.symm
  simpa [shortCurve] using ⟨suite.two_ne, hy⟩

theorem residue_val (y : ZMod p) : Residue p y.val y where
  nonneg := Int.natCast_nonneg _
  lt := by exact_mod_cast y.val_lt
  cast := by simp

theorem MapsTo.unique (suite : SswuSuite p A B) {u : Int} {Q Q' : (shortCurve p A B).Point}
    (h : MapsTo A B u Q) (h' : MapsTo A B u Q') : Q = Q' := by
  obtain ⟨x, y, hxy, rfl, hx, hy⟩ := h
  obtain ⟨x', y', hxy', rfl, hx', hy'⟩ := h'
  have hsame : x = x' := hx.trans hx'.symm
  subst hsame
  have hsquare : y ^ 2 = y' ^ 2 := (equation_shortCurve.mp hxy.1).trans
    (equation_shortCurve.mp hxy'.1).symm
  have hval := (residue_val y).root_unique suite.odd (residue_val y') hsquare (hy.trans hy'.symm)
  obtain rfl := ZMod.val_injective p (Int.ofNat_inj.mp hval)
  rfl

variable {bn : BignumInput} {Point : Type} {ec : EcLibrary Point}
  {point : Point → (shortCurve p A B).Point}

theorem mapped_point (suite : SswuSuite p A B) (hbn : bn.Exact p) (hec : ec.Exact A B point)
    (u : Int) : ∃ x y Q, mapToCurveSswuP256 bn.toBignum u p A B ((p : Int) - 10) = .ok (x, y) ∧
      ec.setAffineCoordinates x y = some Q ∧ MapsTo A B u (point Q) := by
  obtain ⟨x, y, w, hmap, hx, hw, hroot, hparity⟩ := mapToCurveSswuP256_exact hbn.toExact suite.odd
    suite.A_ne suite.nonsquare (by exact_mod_cast suite.exceptional) suite.noRoot
  rw [← hw.cast, ← hx.cast] at hroot
  have hcurve := nonsingular_shortCurve suite hroot
  obtain ⟨Q, hQ, hpoint⟩ := hec.setAffineCoordinates x y hcurve hx.nonneg hx.lt hw.nonneg hw.lt
  refine ⟨x, y, Q, hmap, hQ, x, y, hcurve, hpoint, hx.cast, ?_⟩
  rw [ZMod.val_intCast, Int.emod_eq_of_lt hw.nonneg hw.lt, hparity]

variable {H : List UInt8 → List UInt8} {msg dst : List UInt8}

def fieldBytes (H : List UInt8 → List UInt8) (msg dst : List UInt8) : List UInt8 :=
  xmdBytes H (xmdFirst H 96 msg dst) dst 3

omit [Fact (Nat.Prime p)] in
theorem hashToFieldP256_eq (hH : ∀ x, (H x).length = 32) (hdst : dst.length ≤ 255)
    (hbn : bn.Exact p) : EcGroup.hashToFieldP256 (Evp.ofHash H) bn p msg dst =
      .ok (os2ip ((fieldBytes H msg dst).take 48) % p, os2ip ((fieldBytes H msg dst).drop 48) % p) := by
  have hexpand : expandMessageXmdSha256 (Evp.ofHash H) 96 msg dst = .ok (fieldBytes H msg dst) := by
    have hlen : (fieldBytes H msg dst).length = 96 := length_xmdBytes hH 3
    rw [expandMessage_eq hH (by decide) hdst]
    change Except.ok ((fieldBytes H msg dst).take 96) = _
    rw [← hlen, List.take_length]
  unfold EcGroup.hashToFieldP256
  rw [hexpand]
  simp only [ok_bind, hbn.bin2bn, hbn.mod, expectingSome_some]
  rfl

theorem hash_to_point_adds_mapped_points (suite : SswuSuite p A B) (hH : ∀ x, (H x).length = 32)
    (hbn : bn.Exact p) (hec : ec.Exact A B point) (g : EcGroup) (msg dst : List UInt8)
    (hdst : dst.length ≤ 255) :
    ∃ out Q0 Q1, g.hashToPoint (Evp.ofHash H) bn ec msg dst = .ok out ∧ point out = Q0 + Q1 ∧
      (∀ Q, MapsTo A B (os2ip ((fieldBytes H msg dst).take 48) % p : Int) Q ↔ Q = Q0) ∧
      ∀ Q, MapsTo A B (os2ip ((fieldBytes H msg dst).drop 48) % p : Int) Q ↔ Q = Q1 := by
  obtain ⟨x0, y0, Q0, hmap0, hQ0, hto0⟩ := mapped_point suite hbn hec
    (os2ip ((fieldBytes H msg dst).take 48) % p)
  obtain ⟨x1, y1, Q1, hmap1, hQ1, hto1⟩ := mapped_point suite hbn hec
    (os2ip ((fieldBytes H msg dst).drop 48) % p)
  obtain ⟨out, hadd, hpoint⟩ := hec.add Q0 Q1
  refine ⟨out, point Q0, point Q1, ?_, hpoint, fun Q => ⟨fun h => h.unique suite hto0, ?_⟩,
    fun Q => ⟨fun h => h.unique suite hto1, ?_⟩⟩
  · have hz : EcGroup.sswuZForCurve bn p g.curveNid = .ok ((p : Int) - 10) := by
      simp only [EcGroup.sswuZForCurve, if_pos g.supported, hbn.setWord, hbn.sub, Option.getD_some]
      rfl
    have hpair : (do
        let Q0 ← ec.setAffineCoordinates x0 y0
        let Q1 ← ec.setAffineCoordinates x1 y1
        return (Q0, Q1)) = some (Q0, Q1) := by
      rw [hQ0, hQ1]
      rfl
    unfold EcGroup.hashToPoint
    simp only [hec.new, hbn.new, expecting, if_true, ok_bind, hec.getCurve, expectingSome_some, hz,
      hashToFieldP256_eq hH hdst hbn, hmap0, hmap1, hpair, hadd, hec.isOnCurve]
    rfl
  · rintro rfl
    exact hto0
  · rintro rfl
    exact hto1

def bignumInputBySearch : BignumInput where
  toBignum := bignumBySearch
  setWord w := some w
  bin2bn bytes := some (os2ip bytes)
  mod a p := some (a % p)

theorem bignumInputBySearch_exact : bignumInputBySearch.Exact p where
  toExact := bignumBySearch_exact (by exact_mod_cast (Fact.out : p.Prime).pos)
  setWord _ := rfl
  bin2bn _ := rfl
  mod _ := rfl

instance (x y : ZMod p) : Decidable ((shortCurve p A B).Equation x y) :=
  decidable_of_iff _ equation_shortCurve.symm

instance (x y : ZMod p) : Decidable ((shortCurve p A B).Nonsingular x y) :=
  decidable_of_iff _ ((shortCurve p A B).nonsingular_iff' x y).symm

def affineLibrary (p : Nat) [Fact p.Prime] (A B : Int) : EcLibrary (shortCurve p A B).Point where
  new := true
  getCurve := some ((p : Int), A, B)
  setAffineCoordinates x y :=
    if h : (shortCurve p A B).Nonsingular (x : ZMod p) y then some (.some _ _ h) else none
  add Q R := some (Q + R)
  isOnCurve _ := true

theorem affineLibrary_exact : (affineLibrary p A B).Exact A B id where
  new := rfl
  getCurve := rfl
  setAffineCoordinates _ _ h _ _ _ _ := ⟨_, dif_pos h, rfl⟩
  add _ _ := ⟨_, rfl, rfl⟩
  isOnCurve _ := rfl

theorem p256_suite : SswuSuite P256.modulus P256.a P256.b where
  odd := by decide +kernel
  A_ne := by exact_mod_cast P256.a_ne
  nonsquare := by
    have hz : ((P256.modulus : Int) - 10 : Int) = P256.z := by decide +kernel
    rw [hz]
    exact_mod_cast P256.z_not_isSquare
  exceptional := by
    have hz : ((P256.modulus : Int) - 10 : Int) = P256.z := by decide +kernel
    rw [hz]
    exact_mod_cast P256.exceptional_isSquare
  noRoot x := by exact_mod_cast P256.weierstrass_ne_zero x

end Curve

def countingHash (x : List UInt8) : List UInt8 := List.replicate 32 (UInt8.ofNat x.length)

theorem hash_to_point_adds_mapped_points_p256 :
    ∃ out, EcGroup.hashToPoint (Evp.ofHash countingHash) bignumInputBySearch
        (affineLibrary P256.modulus P256.a P256.b) ⟨nidX962Prime256v1, rfl⟩ [1, 2, 3] [81, 85] =
          .ok out ∧
      ∃ Q0 Q1, out = Q0 + Q1 ∧
        MapsTo P256.a P256.b
          (os2ip ((fieldBytes countingHash [1, 2, 3] [81, 85]).take 48) % P256.modulus) Q0 := by
  obtain ⟨out, Q0, Q1, hrun, hsum, h0, -⟩ := hash_to_point_adds_mapped_points p256_suite
    (fun _ => List.length_replicate) bignumInputBySearch_exact affineLibrary_exact
    ⟨nidX962Prime256v1, rfl⟩ [1, 2, 3] [81, 85] (by decide)
  exact ⟨out, hrun, Q0, Q1, hsum, (h0 Q0).mpr rfl⟩

section Tags

open Separation

variable {Point : Type} (bn : BignumInput) (ec : EcLibrary Point) (g : EcGroup)

theorem readsOnly_hashToPoint (msg dst : List UInt8) :
    ReadsOnly (tagged dst) fun H => g.hashToPoint (Evp.ofHash H) bn ec msg dst := by
  refine (readsOnly_const _ _).bind fun _ => ?_
  refine (readsOnly_const _ _).bind fun _ => ?_
  refine (readsOnly_const _ _).bind fun (p, A, B) => ?_
  refine (readsOnly_const _ _).bind fun Z => ?_
  refine ReadsOnly.bind ?_ fun (u0, u1) => readsOnly_const _ _
  exact (readsOnly_expandMessage 96 msg dst).bind fun buf => readsOnly_const _ _

theorem hash_to_point_tags_independent (F : List UInt8 → List UInt8 → List UInt8) :
    (∃ H : List UInt8 → List UInt8, (∀ x, ∃ dst, H x = F dst x) ∧ ∀ dst msg,
      g.hashToPoint (Evp.ofHash H) bn ec msg dst =
        g.hashToPoint (Evp.ofHash (F dst)) bn ec msg dst ∧
      ∀ outLen, expandMessageXmdSha256 (Evp.ofHash H) outLen msg dst =
        expandMessageXmdSha256 (Evp.ofHash (F dst)) outLen msg dst) ∧
    ∀ dst dst' msg msg' : List UInt8, dst.length ≤ 255 → dst'.length ≤ 255 →
      ∀ outLen ≤ 65535, ∀ outLen' ≤ 65535,
        zPad ++ msg ++ lIBStr outLen ++ [0] ++ dstPrime dst =
          zPad ++ msg' ++ lIBStr outLen' ++ [0] ++ dstPrime dst' →
        msg = msg' ∧ outLen = outLen' ∧ dst = dst' := by
  refine ⟨?_, fun dst dst' msg msg' hdst hdst' n hn n' hn' h => xmd_input_inj hn hn' hdst hdst' h⟩
  obtain ⟨H, hpart, hH⟩ := exists_joint tagged_disjoint F
  exact ⟨H, hpart, fun dst msg => ⟨hH dst _ (readsOnly_hashToPoint bn ec g msg dst),
    fun outLen => hH dst _ (readsOnly_expandMessage outLen msg dst)⟩⟩

end Tags

end EmpTool.Crypto
