import Mathlib.Data.List.Prime
import Mathlib.NumberTheory.LegendreSymbol.Basic
import Mathlib.NumberTheory.LucasPrimality

namespace ModularPower

section Power

variable {T R : Type*} [Monoid R]

-- square and multiply over the low `bits` bits of the exponent
def power (mul : T → T → T) (one t : T) : (bits n : Nat) → T
  | 0, _ => one
  | bits + 1, n =>
    let r := power mul one t bits (n / 2)
    if n % 2 = 1 then mul (mul r r) t else mul r r

theorem power_spec {mul : T → T → T} {one : T} (value : T → R)
    (hmul : ∀ a b, value (mul a b) = value a * value b) (hone : value one = 1) (t : T) {bits n : Nat}
    (hn : n < 2 ^ bits) : value (power mul one t bits n) = value t ^ n := by
  induction bits generalizing n with
  | zero =>
    obtain rfl : n = 0 := by omega
    rw [pow_zero]
    exact hone
  | succ bits ih =>
    have hhalf := @ih (n / 2) (by omega)
    have hsquare : value (mul (power mul one t bits (n / 2)) (power mul one t bits (n / 2))) =
        value t ^ (2 * (n / 2)) := by
      rw [hmul, hhalf, ← pow_add, two_mul]
    rw [power]
    split
    case isTrue hodd =>
      rw [hmul, hsquare, ← pow_succ]
      congr 1
      omega
    case isFalse heven =>
      rw [hsquare]
      congr 1
      omega

end Power

def powMod (m a bits n : Nat) : Nat := power (fun x y => x * y % m) 1 a bits n % m

variable {m a bits n : Nat}

theorem cast_powMod (hn : n < 2 ^ bits) : (powMod m a bits n : ZMod m) = (a : ZMod m) ^ n := by
  rw [powMod, ZMod.natCast_mod]
  exact power_spec (fun x : Nat => (x : ZMod m))
    (fun x y => by rw [ZMod.natCast_mod, Nat.cast_mul]) Nat.cast_one a hn

theorem pow_eq_one_iff_powMod (hm : 1 < m) (hn : n < 2 ^ bits) :
    (a : ZMod m) ^ n = 1 ↔ powMod m a bits n = 1 := by
  have hlt : powMod m a bits n < m := Nat.mod_lt _ (by omega)
  rw [← cast_powMod hn, ← Nat.cast_one, ZMod.natCast_eq_natCast_iff', Nat.mod_eq_of_lt hlt,
    Nat.mod_eq_of_lt hm]

-- `a` has order `p - 1`, which is the product of the primes `factors`
def certified (p a bits : Nat) (factors : List Nat) : Bool :=
  1 < p && p ≤ 2 ^ bits && factors.prod == p - 1 && powMod p a bits (p - 1) == 1 &&
    factors.all fun q => powMod p a bits ((p - 1) / q) != 1

theorem prime_of_certified {p : Nat} {factors : List Nat} (hprimes : ∀ q ∈ factors, q.Prime)
    (h : certified p a bits factors = true) : p.Prime := by
  simp only [certified, Bool.and_eq_true, decide_eq_true_eq, beq_iff_eq, List.all_eq_true,
    bne_iff_ne] at h
  obtain ⟨⟨⟨⟨hp, hbits⟩, hprod⟩, hone⟩, hne⟩ := h
  refine lucas_primality p a ((pow_eq_one_iff_powMod hp (by omega)).mpr hone) fun q hq hdvd => ?_
  rw [← hprod] at hdvd
  obtain ⟨r, hr, hqr⟩ := (Prime.dvd_prod_iff hq.prime).mp hdvd
  obtain rfl := (Nat.prime_dvd_prime_iff_eq hq (hprimes r hr)).mp hqr
  have hle := Nat.div_le_self (p - 1) q
  exact fun hroot => hne q hr ((pow_eq_one_iff_powMod hp (by omega)).mp hroot)

structure Certificate where
  p : Nat
  a : Nat
  factors : List Nat

-- each certificate rests on numbers certified before it
def chain (bits : Nat) : List Nat → List Certificate → Bool
  | _, [] => true
  | known, c :: cs => c.factors.all known.contains && certified c.p c.a bits c.factors &&
      chain bits (c.p :: known) cs

theorem prime_of_chain {known : List Nat} {cs : List Certificate}
    (hknown : ∀ q ∈ known, q.Prime) (h : chain bits known cs = true) : ∀ c ∈ cs, c.p.Prime := by
  induction cs generalizing known with
  | nil => exact fun c hc => absurd hc List.not_mem_nil
  | cons c cs ih =>
    simp only [chain, Bool.and_eq_true, List.all_eq_true, List.contains_iff_mem] at h
    obtain ⟨⟨hfactors, hcertified⟩, hrest⟩ := h
    have hprime := prime_of_certified (fun q hq => hknown q (hfactors q hq)) hcertified
    rw [List.forall_mem_cons]
    exact ⟨hprime, ih (List.forall_mem_cons.mpr ⟨hprime, hknown⟩) hrest⟩

theorem not_isSquare_of_powMod {p : Nat} [Fact p.Prime] (hne : (a : ZMod p) ≠ 0)
    (hbits : p / 2 < 2 ^ bits) (h : powMod p a bits (p / 2) ≠ 1) : ¬ IsSquare (a : ZMod p) := by
  rw [ZMod.euler_criterion p hne, pow_eq_one_iff_powMod (Fact.out : p.Prime).one_lt hbits]
  exact h

-- `c0 + c1 * x + c2 * x ^ 2`, the remainder of a polynomial by a cubic
structure Remainder where
  c0 : Nat
  c1 : Nat
  c2 : Nat
  deriving DecidableEq

namespace Remainder

variable (m u v : Nat)

-- the cubic is `x ^ 3 - u * x - v`
def mul (s t : Remainder) : Remainder where
  c0 := (s.c0 * t.c0 + v * (s.c1 * t.c2 + s.c2 * t.c1)) % m
  c1 := (s.c0 * t.c1 + s.c1 * t.c0 + u * (s.c1 * t.c2 + s.c2 * t.c1) + v * (s.c2 * t.c2)) % m
  c2 := (s.c0 * t.c2 + s.c1 * t.c1 + s.c2 * t.c0 + u * (s.c2 * t.c2)) % m

-- `x ^ m - x`
def frobenius (bits : Nat) : Remainder :=
  let s := power (mul m u v) ⟨1, 0, 0⟩ ⟨0, 1, 0⟩ bits m
  { s with c1 := s.c1 + (m - 1) }

variable {m u v}

def value (x : ZMod m) (s : Remainder) : ZMod m := s.c0 + s.c1 * x + s.c2 * x ^ 2

theorem value_mul {x : ZMod m} (hx : x ^ 3 = u * x + v) (s t : Remainder) :
    (s.mul m u v t).value x = s.value x * t.value x := by
  simp only [value, mul, ZMod.natCast_mod]
  push_cast
  linear_combination -(s.c1 * t.c2 + s.c2 * t.c1 + s.c2 * t.c2 * x : ZMod m) * hx

-- a root is fixed by the Frobenius map, whose difference with it has an inverse here
theorem no_root {p : Nat} [Fact p.Prime] (hbits : p < 2 ^ bits) (inverse : Remainder)
    (h : inverse.mul p u v (frobenius p u v bits) = ⟨1, 0, 0⟩) (x : ZMod p) :
    x ^ 3 ≠ u * x + v := by
  intro hx
  have hone : value x ⟨1, 0, 0⟩ = 1 := by simp [value]
  have hpower := power_spec (value x) (value_mul hx) hone ⟨0, 1, 0⟩ hbits
  have hroot : value x ⟨0, 1, 0⟩ = x := by simp [value]
  rw [hroot, ZMod.pow_card] at hpower
  have hzero : value x (frobenius p u v bits) = 0 := by
    have hpos : 1 ≤ p := (Fact.out : p.Prime).one_lt.le
    rw [frobenius, value]
    push_cast [hpos]
    rw [value] at hpower
    linear_combination hpower + x * ZMod.natCast_self p
  have hunit := value_mul hx inverse (frobenius p u v bits)
  rw [h, hone, hzero, mul_zero] at hunit
  exact one_ne_zero hunit

end Remainder

end ModularPower
