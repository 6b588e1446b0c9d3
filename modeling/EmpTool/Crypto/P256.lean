import EmpTool.Library.ModularPower
import EmpTool.Library.SimplifiedSwu
import Mathlib.Tactic.NormNum.Prime

namespace EmpTool.Crypto.P256

open ModularPower SimplifiedSwu

-- the curve of `NID_X9_62_prime256v1`
def modulus : Nat := 2 ^ 256 - 2 ^ 224 + 2 ^ 192 + 2 ^ 96 - 1

def a : Nat := modulus - 3

def b : Nat := 0x5ac635d8aa3a93e7b3ebbd55769886bc651d06b0cc53b0f63bce3c3e27d2604b

def z : Nat := modulus - 10

def knownPrimes : List Nat :=
  [2, 3, 5, 7, 11, 17, 23, 53, 173, 197, 257, 641, 1531, 2411, 3677, 18169, 65537, 78283, 490463,
    704251, 6700417, 204061199]

def certificates : List Certificate :=
  [⟨34282281433, 17, [2, 2, 2, 3, 7, 204061199]⟩,
    ⟨66417393611, 6, [2, 5, 53, 173, 197, 3677]⟩,
    ⟨11290956913871, 13, [2, 5, 17, 66417393611]⟩,
    ⟨46076956964474543, 5, [2, 23, 18169, 78283, 704251]⟩,
    ⟨774023187263532362759620327192479577272145303, 3,
      [2, 3, 3, 2411, 34282281433, 11290956913871, 46076956964474543]⟩,
    ⟨835945042244614951780389953367877943453916927241, 11,
      [2, 2, 2, 3, 3, 3, 5, 774023187263532362759620327192479577272145303]⟩,
    ⟨modulus, 6, [2, 3, 5, 5, 17, 257, 641, 1531, 65537, 490463, 6700417,
      835945042244614951780389953367877943453916927241]⟩]

theorem knownPrimes_prime : ∀ q ∈ knownPrimes, q.Prime := by
  simp only [knownPrimes, List.forall_mem_cons]
  norm_num

theorem modulus_prime : modulus.Prime := by
  have hchain : chain 256 knownPrimes certificates = true := by decide +kernel
  have hlast : certificates[6] ∈ certificates := List.getElem_mem _
  exact prime_of_chain knownPrimes_prime hchain _ hlast

instance fact_prime_modulus : Fact (Nat.Prime modulus) := ⟨modulus_prime⟩

theorem modulus_bits : modulus < 2 ^ 256 := by decide +kernel

theorem cast_eq {m n : Nat} (h : m % modulus = n % modulus) : (m : ZMod modulus) = n :=
  (ZMod.natCast_eq_natCast_iff' m n modulus).mpr h

theorem cast_ne_zero {n : Nat} (h : n % modulus ≠ 0) : (n : ZMod modulus) ≠ 0 := by
  rw [Ne, ZMod.natCast_eq_zero_iff]
  exact fun hdvd => h (Nat.mod_eq_zero_of_dvd hdvd)

theorem a_ne : (a : ZMod modulus) ≠ 0 := cast_ne_zero (by decide +kernel)

theorem z_ne : (z : ZMod modulus) ≠ 0 := cast_ne_zero (by decide +kernel)

theorem z_not_isSquare : ¬ IsSquare (z : ZMod modulus) :=
  @not_isSquare_of_powMod z 256 modulus _ z_ne
    (Nat.lt_of_le_of_lt (Nat.div_le_self _ _) modulus_bits) (by decide +kernel)

-- the abscissa `b / (z * a)`, and a root of the cubic's value there
def exceptionalX : Nat :=
  74703601957397362287352587393959705516025038863550323175665808372750477554212

def exceptionalY : Nat :=
  6501495017824578668815466053538685894748441653268928328498100493089435342678

theorem exceptional_isSquare :
    IsSquare (weierstrass (a : ZMod modulus) b (b / (z * a))) := by
  have hx : (b : ZMod modulus) / (z * a) = exceptionalX := by
    rw [div_eq_iff (mul_ne_zero z_ne a_ne)]
    exact_mod_cast @cast_eq b (exceptionalX * (z * a)) (by decide +kernel)
  refine ⟨exceptionalY, ?_⟩
  rw [hx, weierstrass]
  exact_mod_cast @cast_eq (exceptionalX ^ 3 + a * exceptionalX + b) (exceptionalY * exceptionalY)
    (by decide +kernel)

-- `x ^ modulus - x` has an inverse modulo `x ^ 3 + a * x + b`
def inverse : Remainder :=
  ⟨76626890310466861426869089647039036757962535851890885406097439786770458211455,
    74462945259064871768191128030512052509059297803194871526163573358218695456204,
    34768139465301476436978405170953382516735956999154666452188405812258086013549⟩

theorem weierstrass_ne_zero (x : ZMod modulus) : weierstrass (a : ZMod modulus) b x ≠ 0 := by
  intro hzero
  have hA : ((3 + a : Nat) : ZMod modulus) = 0 := @cast_eq (3 + a) 0 (by decide +kernel)
  have hB : ((modulus - b + b : Nat) : ZMod modulus) = 0 :=
    @cast_eq (modulus - b + b) 0 (by decide +kernel)
  refine Remainder.no_root (u := 3) (v := modulus - b) modulus_bits inverse (by decide +kernel) x ?_
  push_cast at hA hB ⊢
  rw [weierstrass] at hzero
  linear_combination hzero - x * hA - hB

end EmpTool.Crypto.P256
