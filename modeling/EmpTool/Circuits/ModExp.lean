import EmpTool.Circuits.UnsignedInt
import Mathlib.Data.Nat.Sqrt

namespace EmpTool.Circuits

open Binary Kernel
open EmpTool.Ir (GateOps clearCtx)

variable {Wire : Type} [Inhabited Wire] {n M : Nat}

namespace UIntT

variable (c : GateOps Wire)

def modExpStep (p : UIntT Wire M) (q : UIntT Wire n) (s : UIntT Wire n × UIntT Wire n) (i : Nat) :
    UIntT Wire n × UIntT Wire n :=
  let tmp := mod c (mul c s.2 s.1) q
  (mod c (mul c s.1 s.1) q, select c s.2 (p.wire i) tmp)

def modExp (base : UIntT Wire n) (p : UIntT Wire M) (q : UIntT Wire n) : UIntT Wire n :=
  ((List.range M).foldl (modExpStep c p q) (base, constant c 1)).2

end UIntT

section Numbers

variable (P b p q : Nat)

def wrapStep (s : Nat × Nat) (i : Nat) : Nat × Nat :=
  (s.1 * s.1 % P % q, if p.testBit i then s.2 * s.1 % P % q else s.2)

def wrapSteps (M : Nat) : Nat × Nat := (List.range M).foldl (wrapStep P p q) (b, 1)

theorem wrapSteps_succ (M : Nat) :
    wrapSteps P b p q (M + 1) = wrapStep P p q (wrapSteps P b p q M) M := by
  rw [wrapSteps, List.range_succ, List.foldl_append]
  rfl

-- the base that bit `i` of the exponent multiplies by: the first one is not reduced
def residue : Nat → Nat
  | 0 => b
  | i + 1 => b ^ 2 ^ (i + 1) % q

def partialPower (i : Nat) : Nat := if p % 2 ^ i = 0 then 1 else b ^ (p % 2 ^ i) % q

-- no square and no product that the exponent calls for reaches `P`
structure NoWrap : Prop where
  square : ∀ i, 2 ^ (i + 1) ≤ p → residue b q i * residue b q i < P
  product : ∀ i, p.testBit i = true → partialPower b p q i * residue b q i < P

theorem residue_mod (i : Nat) : residue b q i % q = b ^ 2 ^ i % q := by
  cases i with
  | zero => rw [residue, Nat.pow_zero, Nat.pow_one]
  | succ i => exact Nat.mod_mod _ _

theorem partialPower_mod (i : Nat) : partialPower b p q i % q = b ^ (p % 2 ^ i) % q := by
  unfold partialPower
  split
  case isTrue h => rw [h, Nat.pow_zero]
  case isFalse => exact Nat.mod_mod _ _

variable {P b p q}

theorem wrapSteps_fits (h : q ∣ P ∨ NoWrap P b p q) (i : Nat) :
    (2 ^ i ≤ p → (wrapSteps P b p q i).1 = residue b q i) ∧
      (wrapSteps P b p q i).2 = partialPower b p q i := by
  have reduced {x : Nat} (hx : q ∣ P ∨ x < P) : x % P % q = x % q := by
    rcases hx with hd | hlt
    · exact Nat.mod_mod_of_dvd x hd
    · rw [Nat.mod_eq_of_lt hlt]
  induction i with
  | zero => exact ⟨fun _ => rfl, by simp [wrapSteps, partialPower, Nat.mod_one]⟩
  | succ i ih =>
    obtain ⟨hbase, hres⟩ := ih
    rw [wrapSteps_succ, wrapStep]
    constructor
    · intro hp
      have hpi : 2 ^ i ≤ p := Nat.le_trans (Nat.pow_le_pow_right (by decide) (Nat.le_succ i)) hp
      dsimp only
      rw [hbase hpi, reduced (h.imp_right fun hw => hw.square i hp), Nat.mul_mod, residue_mod,
        ← Nat.mul_mod, ← Nat.pow_add, ← Nat.mul_two, ← Nat.pow_succ]
      rfl
    · dsimp only
      rw [hres]
      have hbits := mod_two_pow_succ p i
      cases hbit : p.testBit i with
      | false =>
        rw [if_neg Bool.false_ne_true, partialPower, partialPower, hbits, hbit, Bool.toNat_false,
          Nat.mul_zero, Nat.add_zero]
      | true =>
        have hpi := Nat.ge_two_pow_of_testBit hbit
        have hpos := Nat.two_pow_pos i
        rw [if_pos rfl, hbase hpi, reduced (h.imp_right fun hw => hw.product i hbit), Nat.mul_mod,
          partialPower_mod, residue_mod, ← Nat.mul_mod, ← Nat.pow_add, partialPower, hbits, hbit,
          Bool.toNat_true, Nat.mul_one, if_neg (by omega)]

theorem wrapSteps_correct_iff (hq : q ≠ 0) (h : q ∣ P ∨ NoWrap P b p q) (hp : p < 2 ^ M) :
    (wrapSteps P b p q M).2 = b ^ p % q ↔ ¬(q = 1 ∧ p = 0) := by
  rw [(wrapSteps_fits h M).2, partialPower, Nat.mod_eq_of_lt hp]
  by_cases hz : p = 0
  · rw [if_pos hz, hz, Nat.pow_zero]
    by_cases h1 : q = 1
    · simp [h1]
    · have hmod : 1 % q = 1 := Nat.mod_eq_of_lt (by omega)
      simp [hmod, h1]
  · simp [hz]

theorem exists_wrapping_square (hn : 2 ≤ n) :
    ∃ b, b < 2 ^ n ∧ 2 ^ n ≤ b * b ∧ b * b < 2 * 2 ^ n := by
  let s := Nat.sqrt (2 ^ n - 1)
  have hpow : 2 ^ n = 4 * 2 ^ (n - 2) := by
    rw [show (4 : Nat) = 2 ^ 2 from rfl, ← Nat.pow_add]
    congr 1
    omega
  have hle : s * s ≤ 2 ^ n - 1 := Nat.sqrt_le _
  have hlt : 2 ^ n - 1 < (s + 1) * (s + 1) := Nat.lt_succ_sqrt _
  have hpos := Nat.two_pow_pos (n - 2)
  have hs : 2 * s < 2 ^ n := by
    by_contra hge
    have hmul : 2 ^ n * 2 ^ n ≤ (2 * s) * (2 * s) := Nat.mul_le_mul (by omega) (by omega)
    have hfour : (2 * s) * (2 * s) = 4 * (s * s) := by
      rw [Nat.mul_mul_mul_comm]
    have hbig : 4 * 2 ^ n ≤ 2 ^ n * 2 ^ n := Nat.mul_le_mul_right _ (by omega)
    omega
  have hexpand : (s + 1) * (s + 1) = s * s + 2 * s + 1 := by
    rw [Nat.add_mul, Nat.mul_add]
    omega
  exact ⟨s + 1, by omega, by omega, by omega⟩

end Numbers

variable (c : PlainContext Wire)

theorem modExp_toNat (hn : 0 < n) (base : UIntT Wire n) (p : UIntT Wire M) (q : UIntT Wire n) :
    (UIntT.modExp c.toGateOps base p q).toNat c =
      (wrapSteps (2 ^ n) (base.toNat c) (p.toNat c) (q.toNat c) M).2 := by
  have upto (k : Nat) (hk : k ≤ M) :
      let s := (List.range k).foldl (UIntT.modExpStep c.toGateOps p q)
        (base, UIntT.constant c.toGateOps 1)
      let t := wrapSteps (2 ^ n) (base.toNat c) (p.toNat c) (q.toNat c) k
      s.1.toNat c = t.1 ∧ s.2.toNat c = t.2 := by
    induction k with
    | zero =>
      refine ⟨rfl, (UIntT.toNat_constant c 1).trans ?_⟩
      exact Nat.mod_eq_of_lt (Nat.one_lt_two_pow (by omega))
    | succ k ih =>
      obtain ⟨hbase, hres⟩ := ih (by omega)
      rw [List.range_succ, List.foldl_append, wrapSteps_succ]
      constructor
      · exact (Word.toNat_divRem c _ _).trans (by rw [UIntT.mul, Word.toNat_mul, hbase]; rfl)
      · refine (Word.toNat_select c _ _ _).trans ?_
        rw [UIntT.mod, Word.toNat_divRem, UIntT.mul, Word.toNat_mul, hbase, hres,
          Word.value_wire_testBit c p (by omega)]
        rfl
  exact (upto M (Nat.le_refl M)).2

def literal (n v : Nat) : UIntT Wire n := Word.fill fun i => c.publicBit (v.testBit i)

theorem toNat_literal {v : Nat} (hv : v < 2 ^ n) : (literal c n v).toNat c = v := by
  rw [literal, Word.toNat_fill]
  simp only [PlainContext.num, c.value_publicBit]
  rw [natOf_testBit, Nat.mod_eq_of_lt hv]

theorem wrapSteps_two {P b q : Nat} (hq : 0 < q) (hqP : q ≤ P) (k : Nat) :
    (wrapSteps P b 2 q (k + 2)).2 = b * b % P % q := by
  induction k with
  | zero =>
    have hlt : b * b % P % q < q := Nat.mod_lt _ hq
    have hfirst : wrapSteps P b 2 q 1 = (b * b % P % q, 1) := rfl
    have hbit : Nat.testBit 2 1 = true := by decide
    rw [wrapSteps_succ, hfirst, wrapStep, hbit, if_pos rfl]
    dsimp only
    rw [Nat.one_mul, Nat.mod_eq_of_lt (Nat.lt_of_lt_of_le hlt hqP), Nat.mod_eq_of_lt hlt]
  | succ k ih =>
    have hbit : Nat.testBit 2 (k + 2) = false := by
      apply Nat.testBit_lt_two_pow
      calc 2 < 2 ^ 2 := by decide
        _ ≤ 2 ^ (k + 2) := Nat.pow_le_pow_right (by decide) (by omega)
    rw [wrapSteps_succ, wrapStep, hbit, if_neg Bool.false_ne_true, ih]

theorem noWrap_of_le_one {P b p q : Nat} (hb : b < P) (hp : p ≤ 1) : NoWrap P b p q where
  square i hi := by
    have := Nat.one_lt_two_pow (n := i + 1) (by omega)
    omega
  product i hi := by
    have hle := Nat.ge_two_pow_of_testBit hi
    obtain rfl : i = 0 := by
      by_contra hne
      have := Nat.one_lt_two_pow hne
      omega
    simpa [partialPower, residue, Nat.mod_one] using hb

def ModExpCorrect (base : UIntT Wire n) (p : UIntT Wire M) (q : UIntT Wire n) : Prop :=
  (UIntT.modExp c.toGateOps base p q).toNat c = base.toNat c ^ p.toNat c % q.toNat c

theorem mod_exp_correct_iff (hn : 0 < n) (hM : 0 < M) (q : UIntT Wire n) (hq : q.toNat c ≠ 0) :
    (∀ (base : UIntT Wire n) (p : UIntT Wire M),
      q.toNat c ∣ 2 ^ n ∨ NoWrap (2 ^ n) (base.toNat c) (p.toNat c) (q.toNat c) →
        (ModExpCorrect c base p q ↔ ¬(q.toNat c = 1 ∧ p.toNat c = 0))) ∧
    ((∀ (base : UIntT Wire n) (p : UIntT Wire M), ModExpCorrect c base p q) ↔
      q.toNat c ≠ 1 ∧ (M = 1 ∨ q.toNat c ∣ 2 ^ n)) := by
  have hqlt := q.toNat_lt c
  have fits (base : UIntT Wire n) (p : UIntT Wire M)
      (h : q.toNat c ∣ 2 ^ n ∨ NoWrap (2 ^ n) (base.toNat c) (p.toNat c) (q.toNat c)) :
      ModExpCorrect c base p q ↔ ¬(q.toNat c = 1 ∧ p.toNat c = 0) := by
    rw [ModExpCorrect, modExp_toNat c hn]
    exact wrapSteps_correct_iff hq h (p.toNat_lt c)
  refine ⟨fits, fun hall => ⟨fun h1 => ?_, ?_⟩, fun ⟨h1, hor⟩ base p => ?_⟩
  · -- the modulus 1 with the exponent 0
    have hzero := toNat_literal c (n := M) (v := 0) (Nat.two_pow_pos M)
    exact (fits (literal c n 0) (literal c M 0) (Or.inl (h1 ▸ Nat.one_dvd _))).mp (hall _ _)
      ⟨h1, hzero⟩
  · by_contra hno
    obtain ⟨hM1, hdvd⟩ := not_or.mp hno
    obtain ⟨k, rfl⟩ : ∃ k, M = k + 2 := ⟨M - 2, by omega⟩
    have hn2 : 2 ≤ n := by
      by_contra hlt
      obtain rfl : n = 1 := by omega
      have hq1 : q.toNat c = 1 := by omega
      exact hdvd (by rw [hq1]; exact Nat.one_dvd _)
    obtain ⟨b, hb, hle, hlt⟩ := exists_wrapping_square hn2
    have htwo : 2 < 2 ^ (k + 2) := by
      calc 2 < 2 ^ 2 := by decide
        _ ≤ 2 ^ (k + 2) := Nat.pow_le_pow_right (by decide) (by omega)
    have h := hall (literal c n b) (literal c (k + 2) 2)
    rw [ModExpCorrect, modExp_toNat c hn, toNat_literal c hb, toNat_literal c htwo,
      wrapSteps_two (by omega) hqlt.le, Nat.pow_two] at h
    -- the square loses exactly one `2 ^ n`
    have hwrap : b * b % 2 ^ n = b * b - 2 ^ n := by
      rw [Nat.mod_eq_sub_mod hle, Nat.mod_eq_of_lt (by omega)]
    rw [hwrap] at h
    have hsub := (Nat.modEq_iff_dvd' (Nat.sub_le (b * b) (2 ^ n))).mp h
    rw [Nat.sub_sub_self hle] at hsub
    exact hdvd hsub
  · refine (fits base p ?_).mpr fun h => h1 h.1
    rcases hor with rfl | hdvd
    · have := p.toNat_lt c
      exact Or.inr (noWrap_of_le_one (base.toNat_lt c) (by omega))
    · exact Or.inl hdvd

-- 16 ^ 2 mod 7 over eight bits: the square 256 wraps to 0
theorem mod_exp_wraps :
    (UIntT.modExp clearCtx (literal clearContext 8 16) (literal clearContext 2 2)
        (literal clearContext 8 7)).toNat clearContext = 0 ∧
      ¬ModExpCorrect clearContext (literal clearContext 8 16) (literal clearContext 2 2)
        (literal clearContext 8 7) := by
  have h16 := toNat_literal clearContext (n := 8) (v := 16) (by decide)
  have h2 := toNat_literal clearContext (n := 2) (v := 2) (by decide)
  have h7 := toNat_literal clearContext (n := 8) (v := 7) (by decide)
  have hval := modExp_toNat clearContext (by decide) (literal clearContext 8 16)
    (literal clearContext 2 2) (literal clearContext 8 7)
  have hzero : (wrapSteps (2 ^ 8) 16 2 7 2).2 = 0 := by decide
  rw [h16, h2, h7, hzero] at hval
  refine ⟨hval, fun h => ?_⟩
  rw [ModExpCorrect, h16, h2, h7] at h
  exact absurd (hval.symm.trans h) (by decide)

theorem mod_exp_correct_iff_seven :
    (∀ (base : UIntT UInt8 8) (p : UIntT UInt8 2),
      7 ∣ 2 ^ 8 ∨ NoWrap (2 ^ 8) (base.toNat clearContext) (p.toNat clearContext) 7 →
        (ModExpCorrect clearContext base p (literal clearContext 8 7) ↔
          ¬((7 : Nat) = 1 ∧ p.toNat clearContext = 0))) ∧
    ((∀ (base : UIntT UInt8 8) (p : UIntT UInt8 2),
        ModExpCorrect clearContext base p (literal clearContext 8 7)) ↔
      7 ≠ 1 ∧ ((2 : Nat) = 1 ∨ 7 ∣ 2 ^ 8)) := by
  have h7 := toNat_literal clearContext (n := 8) (v := 7) (by decide)
  have h := mod_exp_correct_iff clearContext (n := 8) (M := 2) (by decide) (by decide)
    (literal clearContext 8 7) (by rw [h7]; decide)
  rwa [h7] at h

end EmpTool.Circuits
