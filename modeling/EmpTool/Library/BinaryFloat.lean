import Mathlib.Algebra.Order.Ring.Rat
import Mathlib.Algebra.Order.Ring.Abs
import Mathlib.Algebra.Ring.Parity
import Mathlib.Order.WithBotTop
import Mathlib.Tactic.IntervalCases
import Mathlib.Tactic.Linarith
import Mathlib.Tactic.Positivity
import Mathlib.Tactic.Ring

namespace BinaryFloat

section Nearest

variable {g : Nat → ℚ} {x x' : ℚ} {n n' : Nat}

-- of two places equally close the even one is taken
structure Nearest (g : Nat → ℚ) (x : ℚ) (n : Nat) : Prop where
  le : ∀ k, |g n - x| ≤ |g k - x|
  even : ∀ k, |g k - x| = |g n - x| → k ≠ n → Even n

theorem closer_iff {a b : ℚ} (hab : a < b) : |b - x| ≤ |a - x| ↔ a + b ≤ 2 * x := by
  have ha := abs_cases (a - x)
  have hb := abs_cases (b - x)
  constructor
  · intro h
    rcases ha with ha | ha <;> rcases hb with hb | hb <;> linarith
  · intro h
    rcases ha with ha | ha <;> rcases hb with hb | hb <;> linarith

theorem closer_iff' {a b : ℚ} (hab : a < b) : |a - x| ≤ |b - x| ↔ 2 * x ≤ a + b := by
  have hmirror := @closer_iff (-x) (-b) (-a) (neg_lt_neg hab)
  rw [neg_sub_neg, neg_sub_neg, abs_sub_comm x a, abs_sub_comm x b] at hmirror
  rw [hmirror]
  constructor
  · intro h
    linarith
  · intro h
    linarith

theorem Nearest.mono (hg : StrictMono g) (h : Nearest g x n) (h' : Nearest g x' n') (hx : x ≤ x') :
    n ≤ n' := by
  by_contra hlt
  have hgrid : g n' < g n := hg (by omega)
  have hlow := (closer_iff hgrid).mp (h.le n')
  have hhigh := (closer_iff' hgrid).mp (h'.le n)
  obtain rfl : x' = x := by linarith
  have htie : |g n' - x'| = |g n - x'| := le_antisymm (h'.le n) (h.le n')
  have heven := h.even n' htie (by omega)
  have heven' := h'.even n htie.symm (by omega)
  -- the place after `n'` is odd, so it lies strictly between the two
  have hnext : n' + 1 < n := by
    rcases heven with ⟨a, ha⟩
    rcases heven' with ⟨b, hb⟩
    omega
  have hbetween := (closer_iff (hg hnext)).mp (h.le (n' + 1))
  have hstep : g n' < g (n' + 1) := hg (Nat.lt_succ_self n')
  linarith

theorem Nearest.unique (hg : StrictMono g) (h : Nearest g x n) (h' : Nearest g x n') : n = n' :=
  Nat.le_antisymm (h.mono hg h' le_rfl) (h'.mono hg h le_rfl)

theorem nearest_self (hg : StrictMono g) (n : Nat) : Nearest g (g n) n where
  le k := by
    rw [sub_self, abs_zero]
    exact abs_nonneg _
  even k hk hne := by
    rw [sub_self, abs_zero, abs_eq_zero, sub_eq_zero] at hk
    exact absurd (hg.injective hk) hne

theorem nearest_lower (hg : StrictMono g) (hlow : g n ≤ x) (hclose : 2 * x ≤ g n + g (n + 1))
    (htie : 2 * x = g n + g (n + 1) → Even n) : Nearest g x n where
  le k := by
    rcases Nat.lt_trichotomy k n with hk | rfl | hk
    · exact (closer_iff (hg hk)).mpr (by linarith [hg hk])
    · exact le_rfl
    · have hnext := hg.monotone (Nat.succ_le_of_lt hk)
      exact (closer_iff' (hg hk)).mpr (hclose.trans (by linarith))
  even k hk hne := by
    rcases Nat.lt_or_gt_of_ne hne with hlt | hgt
    · have := (closer_iff' (hg hlt)).mp hk.le
      linarith [hg hlt]
    · have hnext := hg.monotone (Nat.succ_le_of_lt hgt)
      have := (closer_iff (hg hgt)).mp hk.le
      exact htie (by linarith)

theorem nearest_upper (hg : StrictMono g) (hhigh : x ≤ g (n + 1)) (hclose : g n + g (n + 1) ≤ 2 * x)
    (htie : 2 * x = g n + g (n + 1) → ¬ Even n) : Nearest g x (n + 1) where
  le k := by
    rcases Nat.lt_trichotomy k (n + 1) with hk | rfl | hk
    · have hprev := hg.monotone (Nat.le_of_lt_succ hk)
      exact (closer_iff (hg hk)).mpr (by linarith)
    · exact le_rfl
    · exact (closer_iff' (hg hk)).mpr (by linarith [hg hk])
  even k hk hne := by
    rcases Nat.lt_or_gt_of_ne hne with hlt | hgt
    · have hprev := hg.monotone (Nat.le_of_lt_succ hlt)
      have := (closer_iff' (hg hlt)).mp hk.le
      exact Nat.even_add_one.mpr (htie (by linarith))
    · have := (closer_iff (hg hgt)).mp hk.le
      linarith [hg hgt]

-- drop `k` bits; a half goes to the even quotient
def roundOff (q k : Nat) : Nat :=
  if 2 ^ (k - 1) < q % 2 ^ k ∨ (q % 2 ^ k = 2 ^ (k - 1) ∧ q / 2 ^ k % 2 = 1) then q / 2 ^ k + 1
  else q / 2 ^ k

theorem nearest_roundOff (hg : StrictMono g) {q k : Nat} (hk : 0 < k) {u : ℚ} (hu : 0 < u)
    (hstep : g (q / 2 ^ k + 1) = g (q / 2 ^ k) + (2 ^ k : Nat) * u)
    (hx : x = g (q / 2 ^ k) + (q % 2 ^ k : Nat) * u) : Nearest g x (roundOff q k) := by
  have hpow : 2 ^ k = 2 * 2 ^ (k - 1) := by
    rw [← Nat.pow_succ', Nat.succ_eq_add_one, Nat.sub_add_cancel hk]
  have hrem : q % 2 ^ k < 2 ^ k := Nat.mod_lt q (Nat.two_pow_pos k)
  have hupper : ((q % 2 ^ k : Nat) : ℚ) * u ≤ (2 ^ k : Nat) * u :=
    mul_le_mul_of_nonneg_right (Nat.cast_le.mpr hrem.le) hu.le
  have htwice : ((2 ^ k : Nat) : ℚ) * u = 2 * (((2 ^ (k - 1) : Nat) : ℚ) * u) := by
    rw [hpow, Nat.cast_mul, Nat.cast_two, mul_assoc]
  have hnonneg : 0 ≤ ((q % 2 ^ k : Nat) : ℚ) * u := mul_nonneg (Nat.cast_nonneg _) hu.le
  have hparity : ¬ Even (q / 2 ^ k) ↔ q / 2 ^ k % 2 = 1 := Nat.not_even_iff
  unfold roundOff
  split
  case isTrue hround =>
    have hle : ((2 ^ (k - 1) : Nat) : ℚ) * u ≤ (q % 2 ^ k : Nat) * u :=
      mul_le_mul_of_nonneg_right (Nat.cast_le.mpr (by omega)) hu.le
    refine nearest_upper hg (by rw [hstep, hx]; linarith) (by rw [hstep, hx]; linarith)
      fun htie => ?_
    have hequal : ((q % 2 ^ k : Nat) : ℚ) * u = (2 ^ (k - 1) : Nat) * u := by
      rw [hstep, hx] at htie
      linarith
    have hexact := Nat.cast_injective (mul_right_cancel₀ hu.ne' hequal)
    rw [hparity]
    omega
  case isFalse hround =>
    have hle : ((q % 2 ^ k : Nat) : ℚ) * u ≤ (2 ^ (k - 1) : Nat) * u :=
      mul_le_mul_of_nonneg_right (Nat.cast_le.mpr (by omega)) hu.le
    refine nearest_lower hg (by rw [hx]; linarith) (by rw [hstep, hx]; linarith) fun htie => ?_
    have hequal : ((q % 2 ^ k : Nat) : ℚ) * u = (2 ^ (k - 1) : Nat) * u := by
      rw [hstep, hx] at htie
      linarith
    have hexact := Nat.cast_injective (mul_right_cancel₀ hu.ne' hequal)
    by_contra hodd
    exact hround (Or.inr ⟨hexact, hparity.mp hodd⟩)

end Nearest

structure Format where
  exponent : Nat
  fraction : Nat
  exponent_pos : 0 < exponent

def scaled (m n : Nat) : Nat :=
  if n / 2 ^ m = 0 then n % 2 ^ m else (2 ^ m + n % 2 ^ m) * 2 ^ (n / 2 ^ m - 1)

theorem scaled_of_lt {m n : Nat} (hn : n < 2 ^ m) : scaled m n = n := by
  rw [scaled, if_pos (Nat.div_eq_of_lt hn), Nat.mod_eq_of_lt hn]

theorem scaled_fields {m e f : Nat} (he : 0 < e) (hf : f < 2 ^ m) :
    scaled m (e * 2 ^ m + f) = (2 ^ m + f) * 2 ^ (e - 1) := by
  have hpos := Nat.two_pow_pos m
  have hdiv : (e * 2 ^ m + f) / 2 ^ m = e := by
    rw [Nat.add_comm, Nat.add_mul_div_right _ _ hpos, Nat.div_eq_of_lt hf, Nat.zero_add]
  have hmod : (e * 2 ^ m + f) % 2 ^ m = f := by
    rw [Nat.add_comm, Nat.add_mul_mod_self_right, Nat.mod_eq_of_lt hf]
  rw [scaled, hdiv, hmod, if_neg (by omega)]

-- the next magnitude is one unit of the binade away, also across the carry into the exponent
theorem scaled_succ (m n : Nat) : scaled m (n + 1) = scaled m n + 2 ^ (n / 2 ^ m - 1) := by
  have hpos := Nat.two_pow_pos m
  have hsplit : n / 2 ^ m * 2 ^ m + n % 2 ^ m = n := Nat.div_add_mod' n (2 ^ m)
  have hrem : n % 2 ^ m < 2 ^ m := Nat.mod_lt n hpos
  generalize n / 2 ^ m = e at *
  generalize n % 2 ^ m = f at *
  subst hsplit
  rcases Nat.eq_zero_or_pos e with rfl | he
  · rw [Nat.zero_mul, Nat.zero_add, scaled_of_lt hrem]
    rcases Nat.lt_or_ge (f + 1) (2 ^ m) with hf | hf
    · rw [scaled_of_lt hf, Nat.pow_zero]
    · have hcarry : f + 1 = 1 * 2 ^ m + 0 := by omega
      rw [hcarry, scaled_fields Nat.one_pos hpos]
      omega
  · rw [scaled_fields he hrem]
    rcases Nat.lt_or_ge (f + 1) (2 ^ m) with hf | hf
    · rw [Nat.add_assoc, scaled_fields he hf, ← Nat.add_assoc, Nat.succ_mul]
    · have hcarry : e * 2 ^ m + f + 1 = (e + 1) * 2 ^ m + 0 := by
        rw [Nat.succ_mul]
        omega
      have hdouble : 2 ^ e = 2 * 2 ^ (e - 1) := by
        rw [← Nat.pow_succ', Nat.succ_eq_add_one, Nat.sub_add_cancel he]
      rw [hcarry, scaled_fields (Nat.succ_pos e) hpos, Nat.succ_sub_one, hdouble, Nat.add_zero]
      calc 2 ^ m * (2 * 2 ^ (e - 1)) = (2 ^ m + 2 ^ m) * 2 ^ (e - 1) := by ring
        _ = (2 ^ m + (f + 1)) * 2 ^ (e - 1) := by rw [Nat.le_antisymm hf hrem]
        _ = (2 ^ m + f) * 2 ^ (e - 1) + 2 ^ (e - 1) := by rw [← Nat.add_assoc, Nat.succ_mul]

theorem scaled_strictMono (m : Nat) : StrictMono (scaled m) := by
  refine strictMono_nat_of_lt_succ fun n => ?_
  rw [scaled_succ]
  exact Nat.lt_add_of_pos_right (Nat.two_pow_pos _)

namespace Format

variable (F : Format)

def width : Nat := F.exponent + F.fraction

def infinity : Nat := (2 ^ F.exponent - 1) * 2 ^ F.fraction

def bias : Nat := 2 ^ (F.exponent - 1) - 1

def unit : ℚ := 1 / 2 ^ (F.bias - 1 + F.fraction)

def grid (n : Nat) : ℚ := scaled F.fraction n * F.unit

def negative (bits : Nat) : Bool := bits.testBit F.width

def magnitude (bits : Nat) : Nat := bits % 2 ^ F.width

def IsNaN (bits : Nat) : Prop := F.infinity < F.magnitude bits

def IsFinite (bits : Nat) : Prop := F.magnitude bits < F.infinity

instance (bits : Nat) : Decidable (F.IsNaN bits) :=
  inferInstanceAs (Decidable (F.infinity < F.magnitude bits))

instance (bits : Nat) : Decidable (F.IsFinite bits) :=
  inferInstanceAs (Decidable (F.magnitude bits < F.infinity))

def finite (bits : Nat) : ℚ :=
  if F.negative bits then -F.grid (F.magnitude bits) else F.grid (F.magnitude bits)

def value (bits : Nat) : WithBot (WithTop ℚ) :=
  if F.magnitude bits < F.infinity then (F.finite bits : ℚ)
  else if F.negative bits then ⊥ else (⊤ : WithTop ℚ)

def pack (negative : Bool) (magnitude : Nat) : Nat := negative.toNat * 2 ^ F.width + magnitude

variable {F}

theorem unit_pos : 0 < F.unit := by
  unfold unit
  positivity

theorem grid_strictMono : StrictMono F.grid := fun _ _ h =>
  mul_lt_mul_of_pos_right (Nat.cast_lt.mpr (scaled_strictMono F.fraction h)) unit_pos

theorem grid_zero : F.grid 0 = 0 := by
  rw [grid, scaled_of_lt (Nat.two_pow_pos _), Nat.cast_zero, zero_mul]

theorem grid_nonneg (n : Nat) : 0 ≤ F.grid n := by
  rw [← F.grid_zero]
  exact grid_strictMono.monotone (Nat.zero_le n)

theorem infinity_pos : 0 < F.infinity := by
  have hpow : 1 < 2 ^ F.exponent := Nat.one_lt_two_pow F.exponent_pos.ne'
  exact Nat.mul_pos (by omega) (Nat.two_pow_pos _)

theorem negative_pack (s : Bool) {n : Nat} (hn : n < 2 ^ F.width) :
    F.negative (F.pack s n) = s := by
  rw [negative, pack, Nat.mul_comm, Nat.testBit_two_pow_mul_add _ hn, if_neg (lt_irrefl _),
    Nat.sub_self]
  cases s <;> rfl

theorem magnitude_pack (s : Bool) {n : Nat} (hn : n < 2 ^ F.width) :
    F.magnitude (F.pack s n) = n := by
  rw [magnitude, pack, Nat.add_comm, Nat.add_mul_mod_self_right, Nat.mod_eq_of_lt hn]

theorem pack_fields {bits : Nat} (hbits : bits < 2 ^ (F.width + 1)) :
    F.pack (F.negative bits) (F.magnitude bits) = bits := by
  have hsign : (F.negative bits).toNat = bits / 2 ^ F.width := by
    have hlt : bits / 2 ^ F.width < 2 := by
      rw [Nat.div_lt_iff_lt_mul (Nat.two_pow_pos _), ← Nat.pow_succ']
      exact hbits
    rw [negative, Nat.testBit_eq_decide_div_mod_eq, Nat.mod_eq_of_lt hlt]
    interval_cases bits / 2 ^ F.width <;> rfl
  rw [pack, hsign, magnitude, Nat.div_add_mod']

theorem grid_le_iff {m n : Nat} : F.grid m ≤ F.grid n ↔ m ≤ n := grid_strictMono.le_iff_le

def key (bits : Nat) : Int :=
  if F.negative bits then -(F.magnitude bits : Int) else F.magnitude bits

theorem finite_le_iff (a b : Nat) : F.finite a ≤ F.finite b ↔ F.key a ≤ F.key b := by
  unfold key finite
  generalize F.magnitude a = m
  generalize F.magnitude b = n
  have hm := F.grid_nonneg m
  have hn := F.grid_nonneg n
  cases F.negative a with
  | false =>
    cases F.negative b with
    | false => simp only [Bool.false_eq_true, if_false, grid_le_iff, Nat.cast_le]
    | true =>
      rw [if_neg Bool.false_ne_true, if_pos rfl, if_neg Bool.false_ne_true, if_pos rfl]
      constructor
      · intro h
        have hzero : m ≤ 0 := F.grid_le_iff.mp (by rw [grid_zero]; linarith)
        have hzero' : n ≤ 0 := F.grid_le_iff.mp (by rw [grid_zero]; linarith)
        omega
      · intro h
        obtain ⟨rfl, rfl⟩ : m = 0 ∧ n = 0 := by omega
        rw [grid_zero, neg_zero]
  | true =>
    cases F.negative b with
    | false =>
      rw [if_pos rfl, if_neg Bool.false_ne_true, if_pos rfl, if_neg Bool.false_ne_true]
      exact ⟨fun _ => by omega, fun _ => by linarith⟩
    | true => simp only [if_true, neg_le_neg_iff, grid_le_iff, Nat.cast_le]

theorem value_le_iff {a b : Nat} (ha : ¬ F.IsNaN a) (hb : ¬ F.IsNaN b) :
    F.value a ≤ F.value b ↔ F.key a ≤ F.key b := by
  have hpos := F.infinity_pos
  have hfinite := F.finite_le_iff a b
  unfold IsNaN at ha hb
  unfold value
  by_cases hm : F.magnitude a < F.infinity
  · rw [if_pos hm]
    by_cases hn : F.magnitude b < F.infinity
    · rw [if_pos hn, ← hfinite]
      simp
    · rw [if_neg hn]
      unfold key
      cases F.negative a <;> cases F.negative b <;> simp <;> omega
  · rw [if_neg hm]
    by_cases hn : F.magnitude b < F.infinity
    · rw [if_pos hn]
      unfold key
      cases F.negative a <;> cases F.negative b <;> simp <;> omega
    · rw [if_neg hn]
      unfold key
      cases F.negative a <;> cases F.negative b <;> simp <;> omega

theorem width_pos : 0 < F.width := Nat.add_pos_left F.exponent_pos _

theorem even_pack (s : Bool) (n : Nat) : Even (F.pack s n) ↔ Even n := by
  have htwo : Even (2 ^ F.width) := even_two.pow_of_ne_zero F.width_pos.ne'
  rw [pack, Nat.even_add, iff_true_left (htwo.mul_left _)]

end Format

section Conversion

variable {S T : Format} {x n k : Nat}

theorem abs_sub_same (s : Bool) (a b : ℚ) :
    |(if s then -a else a) - (if s then -b else b)| = |a - b| := by
  cases s with
  | false => rfl
  | true => rw [if_pos rfl, if_pos rfl, neg_sub_neg, abs_sub_comm]

theorem abs_sub_opposite {s t : Bool} (hst : s ≠ t) {a b : ℚ} (ha : 0 ≤ a) (hb : 0 ≤ b) :
    |(if s then -a else a) - (if t then -b else b)| = a + b := by
  cases s with
  | false =>
    obtain rfl : t = true := by simpa using hst
    rw [if_neg Bool.false_ne_true, if_pos rfl, sub_neg_eq_add, abs_of_nonneg (add_nonneg ha hb)]
  | true =>
    obtain rfl : t = false := by simpa using hst
    rw [if_pos rfl, if_neg Bool.false_ne_true, ← neg_add', abs_neg,
      abs_of_nonneg (add_nonneg ha hb)]

-- the closest magnitude with the sign of `x` is the closest of all patterns of either sign
theorem nearest_signed (h : Nearest T.grid (S.grid (S.magnitude x)) n) (hn : n < 2 ^ T.width) :
    |T.finite (T.pack (S.negative x) n) - S.finite x| ≤ |T.finite k - S.finite x| ∧
      (|T.finite k - S.finite x| = |T.finite (T.pack (S.negative x) n) - S.finite x| →
        T.finite k ≠ T.finite (T.pack (S.negative x) n) → Even (T.pack (S.negative x) n)) := by
  have hx := S.grid_nonneg (S.magnitude x)
  have hk := T.grid_nonneg (T.magnitude k)
  unfold Format.finite
  rw [T.negative_pack _ hn, T.magnitude_pack _ hn, abs_sub_same, T.even_pack]
  by_cases hsign : T.negative k = S.negative x
  · rw [hsign, abs_sub_same]
    refine ⟨h.le _, fun htie hne => h.even _ htie ?_⟩
    rintro rfl
    exact hne rfl
  · rw [abs_sub_opposite hsign hk hx]
    have hzero := h.le 0
    rw [T.grid_zero, zero_sub, abs_neg, abs_of_nonneg hx] at hzero
    refine ⟨by linarith, fun htie hne => ?_⟩
    have hknil : T.grid (T.magnitude k) = 0 := by linarith
    rw [hknil, zero_add] at htie
    refine h.even 0 ?_ ?_
    · rw [T.grid_zero, zero_sub, abs_neg, abs_of_nonneg hx, ← htie]
    · rintro rfl
      simp [hknil, T.grid_zero] at hne

theorem nearest_narrowed {d q k j : Nat} (hunit : T.unit = (2 ^ d : Nat) * S.unit) (hk : 0 < k)
    (hbinade : q / 2 ^ k / 2 ^ T.fraction - 1 + d = k + j)
    (hscaled : scaled S.fraction n = scaled T.fraction (q / 2 ^ k) * 2 ^ d + q % 2 ^ k * 2 ^ j) :
    Nearest T.grid (S.grid n) (roundOff q k) := by
  have hu : 0 < ((2 ^ j : Nat) : ℚ) * S.unit :=
    mul_pos (Nat.cast_pos.mpr (Nat.two_pow_pos j)) S.unit_pos
  refine nearest_roundOff T.grid_strictMono hk hu ?_ ?_
  · have hpow : 2 ^ (q / 2 ^ k / 2 ^ T.fraction - 1) * 2 ^ d = 2 ^ k * 2 ^ j := by
      rw [← Nat.pow_add, hbinade, Nat.pow_add]
    unfold Format.grid
    rw [scaled_succ, hunit, Nat.cast_add, add_mul, ← mul_assoc, ← mul_assoc, ← mul_assoc,
      ← Nat.cast_mul, ← Nat.cast_mul, ← Nat.cast_mul, hpow]
  · unfold Format.grid
    rw [hscaled, hunit]
    push_cast
    ring

end Conversion

end BinaryFloat
