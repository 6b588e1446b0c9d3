import Mathlib.Data.Nat.Bitwise
import Mathlib.Algebra.Ring.Nat

namespace Binary

def natOf (n : Nat) (f : Nat → Bool) : Nat := Nat.ofBits fun i : Fin n => f i

@[simp] theorem natOf_zero (f : Nat → Bool) : natOf 0 f = 0 := rfl

theorem natOf_succ (n : Nat) (f : Nat → Bool) :
    natOf (n + 1) f = (f 0).toNat + 2 * natOf n fun i => f (i + 1) := by
  rw [natOf, Nat.ofBits_succ, Nat.add_comm]
  rfl

theorem natOf_lt (n : Nat) (f : Nat → Bool) : natOf n f < 2 ^ n := Nat.ofBits_lt_two_pow _

theorem natOf_congr {n : Nat} {f g : Nat → Bool} (h : ∀ i < n, f i = g i) :
    natOf n f = natOf n g := by
  unfold natOf
  congr
  funext i
  exact h i i.isLt

theorem natOf_add (m n : Nat) (f : Nat → Bool) :
    natOf (m + n) f = natOf m f + 2 ^ m * natOf n fun i => f (m + i) := by
  induction m generalizing f with
  | zero => simp
  | succ m ih =>
    have hshift (i : Nat) : m + i + 1 = m + 1 + i := by omega
    rw [Nat.succ_add, natOf_succ, ih, natOf_succ, Nat.pow_succ']
    simp only [hshift]
    rw [Nat.mul_add, Nat.mul_assoc, Nat.add_assoc]

theorem natOf_succ' (n : Nat) (f : Nat → Bool) :
    natOf (n + 1) f = natOf n f + 2 ^ n * (f n).toNat := by
  rw [natOf_add, natOf_succ]
  simp

theorem testBit_natOf (n : Nat) (f : Nat → Bool) (i : Nat) :
    (natOf n f).testBit i = (decide (i < n) && f i) := by
  rw [natOf, Nat.testBit_ofBits]
  split
  case isTrue h => rw [decide_eq_true h, Bool.true_and]
  case isFalse h => rw [decide_eq_false h, Bool.false_and]

theorem natOf_testBit (n x : Nat) : natOf n x.testBit = x % 2 ^ n := Nat.ofBits_testBit x n

theorem mod_two_pow_succ (x n : Nat) :
    x % 2 ^ (n + 1) = x % 2 ^ n + 2 ^ n * (x.testBit n).toNat := by
  rw [← natOf_testBit, ← natOf_testBit, natOf_succ']

theorem two_pow_le_iff (v i : Nat) : 2 ^ i ≤ v ↔ 2 ^ (i + 1) ≤ v ∨ v.testBit i = true := by
  constructor
  · intro hle
    by_cases hnext : 2 ^ (i + 1) ≤ v
    · exact Or.inl hnext
    · exact Or.inr (Nat.testBit_of_two_pow_le_and_two_pow_add_one_gt hle (Nat.not_le.mp hnext))
  · rintro (hle | hbit)
    · exact Nat.le_trans (Nat.pow_le_pow_right (by decide) (Nat.le_succ i)) hle
    · exact Nat.ge_two_pow_of_testBit hbit

theorem natOf_inj {n : Nat} {f g : Nat → Bool} : natOf n f = natOf n g ↔ ∀ i < n, f i = g i := by
  constructor
  · intro h i hi
    have hbit := congrArg (fun x => x.testBit i) h
    simpa only [testBit_natOf, decide_eq_true hi, Bool.true_and] using hbit
  · exact natOf_congr

theorem natOf_false (n : Nat) : natOf n (fun _ => false) = 0 := by
  induction n with
  | zero => rfl
  | succ n ih => rw [natOf_succ', ih]; rfl

theorem natOf_eq_zero {n : Nat} {f : Nat → Bool} : natOf n f = 0 ↔ ∀ i < n, f i = false := by
  rw [← natOf_false n, natOf_inj]

theorem natOf_mod {m n : Nat} (h : m ≤ n) (f : Nat → Bool) : natOf n f % 2 ^ m = natOf m f := by
  obtain ⟨k, rfl⟩ := Nat.exists_eq_add_of_le h
  rw [natOf_add, Nat.add_mul_mod_self_left, Nat.mod_eq_of_lt (natOf_lt m f)]

theorem natOf_div {m n : Nat} (h : m ≤ n) (f : Nat → Bool) :
    natOf n f / 2 ^ m = natOf (n - m) fun i => f (m + i) := by
  obtain ⟨k, rfl⟩ := Nat.exists_eq_add_of_le h
  rw [natOf_add, Nat.add_mul_div_left _ _ (Nat.two_pow_pos m), Nat.div_eq_of_lt (natOf_lt m f),
    Nat.zero_add, Nat.add_sub_cancel_left]

theorem le_natOf {m n : Nat} (h : m ≤ n) (f : Nat → Bool) :
    2 ^ m ≤ natOf n f ↔ ∃ i, m ≤ i ∧ i < n ∧ f i = true := by
  have hdiv : 2 ^ m ≤ natOf n f ↔ natOf (n - m) (fun i => f (m + i)) ≠ 0 := by
    rw [← natOf_div h, Nat.ne_zero_iff_zero_lt, Nat.div_pos_iff]
    exact ⟨fun h => ⟨Nat.two_pow_pos m, h⟩, fun h => h.2⟩
  rw [hdiv, Ne, natOf_eq_zero, not_forall]
  constructor
  · rintro ⟨i, hi⟩
    simp only [Classical.not_imp, Bool.not_eq_false] at hi
    exact ⟨m + i, by omega, by omega, hi.2⟩
  · rintro ⟨i, hm, hn, hi⟩
    refine ⟨i - m, ?_⟩
    simp only [Classical.not_imp, Bool.not_eq_false, Nat.add_sub_cancel' hm]
    exact ⟨by omega, hi⟩

def vecOf (n : Nat) (f : Nat → Bool) : BitVec n := BitVec.ofNat n (natOf n f)

theorem getLsbD_vecOf (n : Nat) (f : Nat → Bool) (i : Nat) :
    (vecOf n f).getLsbD i = (decide (i < n) && f i) := by
  rw [vecOf, BitVec.getLsbD_ofNat, testBit_natOf, ← Bool.and_assoc, Bool.and_self]

theorem getLsbD_vecOf_of_lt {n : Nat} (f : Nat → Bool) {i : Nat} (hi : i < n) :
    (vecOf n f).getLsbD i = f i := by
  rw [getLsbD_vecOf, decide_eq_true hi, Bool.true_and]

end Binary
