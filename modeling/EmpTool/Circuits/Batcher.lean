import EmpTool.Library.Network
import Mathlib.Algebra.Ring.Int.Defs
import Mathlib.Algebra.Ring.Nat

namespace EmpTool.Circuits.Batcher

open Network

-- the lengths are those of vectors in memory, so no `size_t` sum or product wraps
section Schedule

def column (n p k j : Nat) : List (Nat × Nat) :=
  ((List.range (min k (n - (j + k)))).filter
    fun i => (i + j) / (2 * p) = (i + j + k) / (2 * p)).map fun i => (i + j, i + j + k)

def columns (n p k j : Nat) : List (Nat × Nat) :=
  if 0 < k ∧ j + k < n then column n p k j ++ columns n p k (j + 2 * k) else []
termination_by n - j

def passes (n p k : Nat) : List (Nat × Nat) :=
  if 1 ≤ k then columns n p k (k % p) ++ passes n p (k / 2) else []

def rounds (n p : Nat) : List (Nat × Nat) :=
  if 0 < p ∧ p < n then passes n p p ++ rounds n (p * 2) else []
termination_by n - p

end Schedule

end EmpTool.Circuits.Batcher

namespace EmpTool.Circuits

def batcherNetwork (n : Nat) : List (Nat × Nat) := Batcher.rounds n 1

namespace Batcher

open Network

theorem mem_column {n p k j a b : Nat} : (a, b) ∈ column n p k j ↔
    b = a + k ∧ b < n ∧ a / (2 * p) = b / (2 * p) ∧ ∃ i < k, a = j + i := by
  simp only [column, List.mem_map, List.mem_filter, List.mem_range, decide_eq_true_iff,
    Prod.mk.injEq]
  constructor
  · rintro ⟨i, ⟨hi, hblock⟩, rfl, rfl⟩
    exact ⟨rfl, by omega, hblock, i, by omega, Nat.add_comm i j⟩
  · rintro ⟨rfl, hn, hblock, i, hi, rfl⟩
    rw [Nat.add_comm j i] at hn hblock ⊢
    exact ⟨i, ⟨by omega, hblock⟩, rfl, rfl⟩

theorem mem_columns {n p k j a b : Nat} : (a, b) ∈ columns n p k j ↔
    b = a + k ∧ b < n ∧ a / (2 * p) = b / (2 * p) ∧ ∃ t, ∃ i < k, a = j + 2 * k * t + i := by
  fun_induction columns n p k j with
  | case1 j h ih =>
    rw [List.mem_append, ih, mem_column]
    constructor
    · rintro (⟨hb, hn, hblock, i, hi, ha⟩ | ⟨hb, hn, hblock, t, i, hi, ha⟩)
      · exact ⟨hb, hn, hblock, 0, i, hi, ha⟩
      · refine ⟨hb, hn, hblock, t + 1, i, hi, ?_⟩
        rw [Nat.mul_succ]
        omega
    · rintro ⟨hb, hn, hblock, t, i, hi, ha⟩
      cases t with
      | zero => exact Or.inl ⟨hb, hn, hblock, i, hi, ha⟩
      | succ t =>
        refine Or.inr ⟨hb, hn, hblock, t, i, hi, ?_⟩
        rw [Nat.mul_succ] at ha
        omega
  | case2 j h =>
    refine iff_of_false List.not_mem_nil ?_
    rintro ⟨hb, hn, _, t, i, hi, ha⟩
    exact h ⟨by omega, by omega⟩

theorem column_apart (n p k j : Nat) : (column n p k j).Pairwise Apart := by
  rw [column, List.pairwise_map]
  have hlt : (List.range (min k (n - (j + k)))).Pairwise fun a b => a < b ∧ b < k := by
    refine List.pairwise_lt_range.imp_of_mem fun _ hb hab => ⟨hab, ?_⟩
    have := List.mem_range.mp hb
    omega
  refine (hlt.filter _).imp fun h => ?_
  simp only [Apart]
  omega

theorem columns_apart (n p k j : Nat) : (columns n p k j).Pairwise Apart := by
  fun_induction columns n p k j with
  | case1 j h ih =>
    refine List.pairwise_append.mpr ⟨column_apart n p k j, ih, ?_⟩
    rintro ⟨a, b⟩ hc ⟨a', b'⟩ hc'
    obtain ⟨hb, _, _, i, hi, ha⟩ := mem_column.mp hc
    obtain ⟨hb', _, _, t, i', hi', ha'⟩ := mem_columns.mp hc'
    simp only [Apart]
    omega
  | case2 j h => exact List.Pairwise.nil

theorem columns_inside (n p k j : Nat) : Inside n (columns n p k j) := by
  rintro ⟨a, b⟩ hc
  obtain ⟨hb, hn, -⟩ := mem_columns.mp hc
  exact ⟨by omega, hn⟩

theorem passes_inside (n p k : Nat) : Inside n (passes n p k) := by
  fun_induction passes n p k with
  | case1 k h ih => exact List.forall_mem_append.mpr ⟨columns_inside n p k _, ih⟩
  | case2 k h => exact nofun

theorem rounds_inside (n p : Nat) : Inside n (rounds n p) := by
  fun_induction rounds n p with
  | case1 p h ih => exact List.forall_mem_append.mpr ⟨passes_inside n p p, ih⟩
  | case2 p h => exact nofun

def Low (p k a : Nat) : Prop :=
  a / (2 * p) = (a + k) / (2 * p) ∧ ∃ t, ∃ i < k, a = k % p + 2 * k * t + i

theorem block_inj {n u v r s : Nat} (hr : r < n) (hs : s < n) (h : n * u + r = n * v + s) :
    u = v ∧ r = s := by
  have hdiv (w x : Nat) (hx : x < n) : (n * w + x) / n = w ∧ (n * w + x) % n = x := by
    rw [Nat.mul_add_div (by omega), Nat.div_eq_of_lt hx, Nat.mul_add_mod, Nat.mod_eq_of_lt hx]
    exact ⟨rfl, rfl⟩
  obtain ⟨hu, hr'⟩ := hdiv u r hr
  obtain ⟨hv, hs'⟩ := hdiv v s hs
  exact ⟨by rw [← hu, h, hv], by rw [← hr', h, hs']⟩

theorem Low.ne_high {p k a a' : Nat} (h : Low p k a) (h' : Low p k a') : a ≠ a' + k := by
  obtain ⟨_, t, i, hi, rfl⟩ := h
  obtain ⟨_, t', i', hi', rfl⟩ := h'
  intro heq
  have := (block_inj (n := 2 * k) (u := t) (v := t') (r := i) (s := i' + k) (by omega) (by omega)
    (by omega)).2
  omega

section Pass

def Tail (n : Nat) (b : Nat → Bool) : Prop := ∀ m, n ≤ m → b m = true

variable {n p k : Nat} {b : Nat → Bool}

theorem min_eq_false (x y : Bool) : min x y = false ↔ x = false ∨ y = false := by
  cases x <;> cases y <;> decide

theorem max_eq_false (x y : Bool) : max x y = false ↔ x = false ∧ y = false := by
  cases x <;> cases y <;> decide

theorem Tail.run {net : List (Nat × Nat)} (h : Inside n net) (htail : Tail n b) :
    Tail n (run id net b) := by
  intro m hm
  rw [run_of_ne id fun c hc => ?_]
  · exact htail m hm
  · have := h c hc
    omega

theorem columns_low (htail : Tail n b) {a : Nat} (h : Low p k a) :
    (run id (columns n p k (k % p)) b a = false ↔ b a = false ∨ b (a + k) = false) ∧
      (run id (columns n p k (k % p)) b (a + k) = false ↔ b a = false ∧ b (a + k) = false) := by
  by_cases hn : a + k < n
  · have hc : (a, a + k) ∈ columns n p k (k % p) := mem_columns.mpr ⟨rfl, hn, h⟩
    obtain ⟨hlow, hhigh⟩ := run_layer (columns_apart n p k _) hc b
    exact ⟨hlow ▸ min_eq_false _ _, hhigh ▸ max_eq_false _ _⟩
  · -- the partner would lie beyond the vector, where only ones are
    have hone := htail (a + k) (Nat.not_lt.mp hn)
    have hhigh := htail.run (columns_inside n p k (k % p)) (a + k) (Nat.not_lt.mp hn)
    have hlow : run id (columns n p k (k % p)) b a = b a := by
      refine run_of_ne id (fun c hc => ?_) b
      obtain ⟨hb, hlt, hlow⟩ := mem_columns.mp hc
      rw [hb] at hlow
      exact ⟨fun heq => by omega, fun heq => h.ne_high hlow (heq.trans hb)⟩
    rw [hlow, hhigh, hone]
    simp

theorem columns_other {m : Nat} (hlow : ¬Low p k m) (hhigh : ∀ a, m = a + k → ¬Low p k a) :
    run id (columns n p k (k % p)) b m = b m := by
  refine run_of_ne id (fun c hc => ?_) b
  obtain ⟨hb, -, h⟩ := mem_columns.mp hc
  rw [hb] at h
  exact ⟨fun heq => hlow (heq ▸ h), fun heq => hhigh c.1 (heq.trans hb) h⟩

end Pass

section Share

def share (z r k : Nat) : Nat := (z + (k - 1 - r)) / k

theorem mul_add_div_of_lt {n x : Nat} (w : Nat) (hx : x < n) : (n * w + x) / n = w := by
  rw [Nat.mul_add_div (by omega), Nat.div_eq_of_lt hx, Nat.add_zero]

theorem share_self {z r p : Nat} (hz : z ≤ p) (hr : r < p) :
    share z r p = if r < z then 1 else 0 := by
  unfold share
  split
  case isTrue h =>
    have heq : z + (p - 1 - r) = p * 1 + (z - 1 - r) := by omega
    rw [heq, mul_add_div_of_lt 1 (by omega)]
  case isFalse h => exact Nat.div_eq_of_lt (by omega)

theorem share_one (z : Nat) : share z 0 1 = z := by
  rw [share, Nat.div_one]
  omega

theorem share_le {z r k q : Nat} (hk : 0 < k) (hz : z ≤ k * q) : share z r k ≤ q := by
  calc share z r k ≤ (k * q + (k - 1)) / k := Nat.div_le_div_right (by omega)
    _ = q := mul_add_div_of_lt q (by omega)

theorem share_double {z r k : Nat} (hr : r < k) :
    share z r (2 * k) = share z (k + r) (2 * k) ∧ share z r k = 2 * share z (k + r) (2 * k) ∨
      share z r (2 * k) = share z (k + r) (2 * k) + 1 ∧
        share z r k = 2 * share z (k + r) (2 * k) + 1 := by
  obtain ⟨y, hy⟩ : ∃ y, y = z + (k - 1 - r) := ⟨_, rfl⟩
  have heven : share z r (2 * k) = (y + k) / (2 * k) := by
    rw [share]
    congr 1
    omega
  have hodd : share z (k + r) (2 * k) = y / (2 * k) := by
    rw [share]
    congr 1
    omega
  have hmod : y % (2 * k) < 2 * k := Nat.mod_lt _ (by omega)
  have hsplit : y = 2 * k * (y / (2 * k)) + y % (2 * k) := (Nat.div_add_mod y (2 * k)).symm
  have hone : share z r k = y / k := by rw [share, hy]
  obtain ⟨t, ht⟩ : ∃ t, t = y / (2 * k) := ⟨_, rfl⟩
  have hdouble : 2 * k * t = k * (2 * t) := by rw [Nat.mul_comm 2 k, Nat.mul_assoc]
  rw [heven, hodd, hone, ← ht]
  rw [← ht] at hsplit
  by_cases hhalf : y % (2 * k) < k
  · have h1 : y + k = 2 * k * t + (y % (2 * k) + k) := by omega
    have h2 : y = k * (2 * t) + y % (2 * k) := by omega
    refine Or.inl ⟨?_, ?_⟩
    · rw [h1, mul_add_div_of_lt t (by omega)]
    · rw [h2, mul_add_div_of_lt (2 * t) (by omega)]
  · have h1 : y + k = 2 * k * (t + 1) + (y % (2 * k) - k) := by
      rw [Nat.mul_succ]
      omega
    have h2 : y = k * (2 * t + 1) + (y % (2 * k) - k) := by
      rw [Nat.mul_succ]
      omega
    refine Or.inr ⟨?_, ?_⟩
    · rw [h1, mul_add_div_of_lt (t + 1) (by omega)]
    · rw [h2, mul_add_div_of_lt (2 * t + 1) (by omega)]

end Share

def BlocksSorted (p : Nat) (b : Nat → Bool) : Prop :=
  ∀ B, ∃ z ≤ p, ∀ x < p, b (p * B + x) = false ↔ x < z

def BlocksMerging (p k : Nat) (b : Nat → Bool) : Prop :=
  ∀ B, ∃ z0 ≤ p, ∃ z1 ≤ p, ∀ s r, r < k → k * s + r < 2 * p →
    (b (2 * p * B + (k * s + r)) = false ↔ s < share z0 r k + share z1 r k)

section Merge

variable {n p k : Nat} {b : Nat → Bool}

theorem BlocksMerging.sorted (h : BlocksMerging p 1 b) : BlocksSorted (2 * p) b := by
  intro B
  obtain ⟨z0, h0, z1, h1, hb⟩ := h B
  refine ⟨z0 + z1, by omega, fun x hx => ?_⟩
  have := hb x 0 Nat.one_pos (by omega)
  rwa [share_one, share_one, Nat.one_mul, Nat.add_zero] at this

theorem BlocksSorted.first_pass (htail : Tail n b) (h : BlocksSorted p b) :
    BlocksMerging p p (run id (columns n p p (p % p)) b) := by
  intro B
  obtain ⟨z0, h0, hb0⟩ := h (2 * B)
  obtain ⟨z1, h1, hb1⟩ := h (2 * B + 1)
  refine ⟨z0, h0, z1, h1, fun s r hr hs => ?_⟩
  have hlow : Low p p (2 * p * B + r) := by
    refine ⟨?_, B, r, hr, by rw [Nat.mod_self]; omega⟩
    rw [Nat.add_assoc, mul_add_div_of_lt B (by omega), mul_add_div_of_lt B (by omega)]
  have hleft : b (2 * p * B + r) = false ↔ r < z0 := by
    rw [← hb0 r hr, Nat.mul_comm 2 p, Nat.mul_assoc]
  have hright : b (2 * p * B + r + p) = false ↔ r < z1 := by
    have heq : 2 * p * B + r + p = p * (2 * B + 1) + r := by
      rw [Nat.mul_succ, Nat.mul_comm 2 p, Nat.mul_assoc]
      omega
    rw [← hb1 r hr, heq]
  obtain ⟨hmin, hmax⟩ := columns_low htail hlow
  rw [hleft, hright] at hmin hmax
  rw [share_self h0 hr, share_self h1 hr]
  have hs2 : s < 2 := by
    by_contra hge
    have := Nat.mul_le_mul_left p (Nat.not_lt.mp hge)
    omega
  obtain rfl | rfl : s = 0 ∨ s = 1 := by omega
  · rw [Nat.mul_zero, Nat.zero_add, hmin]
    split <;> split <;> omega
  · rw [Nat.mul_one, Nat.add_comm p r, ← Nat.add_assoc, hmax]
    split <;> split <;> omega

theorem place_eq {q : Nat} (hq : 2 * p = 2 * k * q) (B t r : Nat) :
    2 * p * B + (2 * k * t + r) = 2 * k * (q * B + t) + r := by
  rw [Nat.mul_add, ← Nat.mul_assoc, ← hq, Nat.add_assoc]

theorem low_iff {q : Nat} (hkp : k < p) (hq : 2 * p = 2 * k * q) {B t r : Nat} (hr : r < 2 * k)
    (ht : 2 * k * t + r < 2 * p) :
    Low p k (2 * p * B + (2 * k * t + r)) ↔ k ≤ r ∧ 2 * k * t + r + k < 2 * p := by
  have hin : (2 * p * B + (2 * k * t + r)) / (2 * p) = B := mul_add_div_of_lt B ht
  constructor
  · rintro ⟨hblock, t', i, hi, heq⟩
    rw [Nat.mod_eq_of_lt hkp, place_eq hq] at heq
    have hkr := (block_inj (n := 2 * k) (u := q * B + t) (v := t') (s := k + i) hr (by omega)
      (by omega)).2
    refine ⟨by omega, ?_⟩
    by_contra hge
    have hnext : B + 1 ≤ (2 * p * B + (2 * k * t + r) + k) / (2 * p) := by
      rw [Nat.le_div_iff_mul_le (by omega), Nat.mul_comm (B + 1), Nat.mul_succ]
      omega
    omega
  · rintro ⟨hkr, hlt⟩
    refine ⟨?_, q * B + t, r - k, by omega, ?_⟩
    · rw [hin, Nat.add_assoc, mul_add_div_of_lt B (by omega)]
    · rw [Nat.mod_eq_of_lt hkp, place_eq hq]
      omega

theorem Low.lt_of_high {q : Nat} (hkp : k < p) (hq : 2 * p = 2 * k * q) {B t r a : Nat}
    (hr : r < 2 * k) (ha : 2 * p * B + (2 * k * t + r) = a + k) (h : Low p k a) : r < k := by
  obtain ⟨_, t', i, hi, rfl⟩ := h
  rw [Nat.mod_eq_of_lt hkp, place_eq hq] at ha
  have := (block_inj (n := 2 * k) (u := q * B + t) (v := t' + 1) (s := i) hr (by omega)
    (by rw [Nat.mul_succ]; omega)).2
  omega

theorem columns_even {q : Nat} (hkp : k < p) (hq : 2 * p = 2 * k * q) (htail : Tail n b)
    {B t r : Nat} (hr : r < k) (ht : 2 * k * t + r < 2 * p) :
    run id (columns n p k (k % p)) b (2 * p * B + (2 * k * t + r)) = false ↔
      b (2 * p * B + (2 * k * t + r)) = false ∧
        ∀ u, t = u + 1 → b (2 * p * B + (2 * k * u + (k + r))) = false := by
  cases t with
  | zero =>
    -- the first place of the block has no partner below it
    rw [columns_other]
    · exact (and_iff_left nofun).symm
    · rw [low_iff hkp hq (by omega) ht]
      omega
    · intro a ha ⟨hblock, _⟩
      have hhigh := mul_add_div_of_lt B ht
      rw [← ha, hhigh] at hblock
      have := Nat.div_mul_le_self a (2 * p)
      rw [hblock, Nat.mul_comm B] at this
      omega
  | succ t =>
    have hstep : 2 * k * (t + 1) + r = 2 * k * t + (k + r) + k := by
      rw [Nat.mul_succ]
      omega
    have hlow := (low_iff (B := B) (r := k + r) hkp hq (by omega) (by omega)).mpr
      ⟨by omega, hstep ▸ ht⟩
    have hmax := (columns_low htail hlow).2
    rw [Nat.add_assoc, ← hstep] at hmax
    rw [hmax, and_comm]
    refine and_congr_right fun _ => ⟨fun h u hu => ?_, fun h => h t rfl⟩
    rwa [← Nat.succ.inj hu]

theorem columns_odd {q : Nat} (hkp : k < p) (hq : 2 * p = 2 * k * q) (htail : Tail n b)
    {B t r : Nat} (hr : r < k) (ht : 2 * k * t + (k + r) < 2 * p) :
    run id (columns n p k (k % p)) b (2 * p * B + (2 * k * t + (k + r))) = false ↔
      b (2 * p * B + (2 * k * t + (k + r))) = false ∨
        2 * k * (t + 1) + r < 2 * p ∧ b (2 * p * B + (2 * k * (t + 1) + r)) = false := by
  have hstep : 2 * k * t + (k + r) + k = 2 * k * (t + 1) + r := by
    rw [Nat.mul_succ]
    omega
  have hlow := low_iff (B := B) (r := k + r) hkp hq (by omega) ht
  rw [hstep] at hlow
  by_cases hnext : 2 * k * (t + 1) + r < 2 * p
  · have hmin := (columns_low htail (hlow.mpr ⟨by omega, hnext⟩)).1
    rw [Nat.add_assoc, hstep] at hmin
    rw [hmin, and_iff_right hnext]
  · rw [columns_other]
    · exact (or_iff_left fun h => hnext h.1).symm
    · rw [hlow]
      omega
    · intro a ha h
      have := h.lt_of_high hkp hq (by omega) ha
      omega

theorem BlocksMerging.next_pass (hk : 0 < k) (hkp : k < p) (hdvd : 2 * k ∣ p) (htail : Tail n b)
    (h : BlocksMerging p (2 * k) b) : BlocksMerging p k (run id (columns n p k (k % p)) b) := by
  intro B
  obtain ⟨z0, h0, z1, h1, hb⟩ := h B
  obtain ⟨q, rfl⟩ := hdvd
  have hq : 2 * (2 * k * q) = 2 * k * (2 * q) := Nat.mul_left_comm 2 (2 * k) q
  refine ⟨z0, h0, z1, h1, fun s r hr hs => ?_⟩
  have heven (t : Nat) (ht : 2 * k * t + r < 2 * (2 * k * q)) := hb t r (by omega) ht
  have hodd (t : Nat) (ht : 2 * k * t + (k + r) < 2 * (2 * k * q)) := hb t (k + r) (by omega) ht
  have hd0 := share_double (z := z0) hr
  have hd1 := share_double (z := z1) hr
  have hdouble (t : Nat) : k * (2 * t) = 2 * k * t := by rw [Nat.mul_comm 2 k, Nat.mul_assoc]
  obtain ⟨t, rfl | rfl⟩ : ∃ t, s = 2 * t ∨ s = 2 * t + 1 := ⟨s / 2, by omega⟩
  · rw [hdouble] at hs ⊢
    rw [columns_even hkp hq htail hr hs, heven t hs]
    cases t with
    | zero =>
      rw [and_iff_left nofun]
      omega
    | succ t =>
      have hbelow : 2 * k * t + (k + r) < 2 * (2 * k * q) := by
        rw [Nat.mul_succ] at hs
        omega
      have hall : (∀ u, t + 1 = u + 1 →
          b (2 * (2 * k * q) * B + (2 * k * u + (k + r))) = false) ↔
          t < share z0 (k + r) (2 * k) + share z1 (k + r) (2 * k) := by
        rw [← hodd t hbelow]
        exact ⟨fun h => h t rfl, fun h u hu => by rwa [← Nat.succ.inj hu]⟩
      rw [hall]
      omega
  · have hplace : k * (2 * t + 1) + r = 2 * k * t + (k + r) := by
      rw [Nat.mul_succ, hdouble]
      omega
    rw [hplace] at hs ⊢
    rw [columns_odd hkp hq htail hr hs, hodd t hs]
    by_cases hnext : 2 * k * (t + 1) + r < 2 * (2 * k * q)
    · rw [and_iff_right hnext, heven (t + 1) hnext]
      omega
    · -- the even column ends with the block
      have hlast : 2 * q ≤ t + 1 := by
        by_contra hlt
        have := Nat.mul_le_mul_left (2 * k) (Nat.succ_le_of_lt (Nat.not_le.mp hlt))
        rw [Nat.mul_succ] at this
        omega
      have hE0 := share_le (r := r) (by omega : 0 < 2 * k) h0
      have hE1 := share_le (r := r) (by omega : 0 < 2 * k) h1
      rw [or_iff_left fun h => hnext h.1]
      omega

theorem BlocksMerging.passes {e f : Nat} (hf : f ≤ e) (htail : Tail n b)
    (h : BlocksMerging (2 ^ e) (2 ^ f) b) :
    BlocksMerging (2 ^ e) 1 (run id (passes n (2 ^ e) (2 ^ f / 2)) b) := by
  induction f generalizing b with
  | zero =>
    rw [Batcher.passes, if_neg (by decide)]
    exact h
  | succ f ih =>
    have hhalf : 2 ^ (f + 1) / 2 = 2 ^ f := by rw [Nat.pow_succ, Nat.mul_div_cancel _ Nat.two_pos]
    have hlt : 2 ^ f < 2 ^ e := Nat.pow_lt_pow_right (by decide) (by omega)
    rw [Nat.pow_succ'] at h
    have hdvd : 2 * 2 ^ f ∣ 2 ^ e := by
      rw [← Nat.pow_succ']
      exact Nat.pow_dvd_pow 2 hf
    have hstep := h.next_pass (Nat.two_pow_pos f) hlt hdvd htail
    rw [hhalf, Batcher.passes, if_pos Nat.one_le_two_pow, run_append]
    exact ih (by omega) (htail.run (columns_inside n _ _ _)) hstep

theorem BlocksSorted.passes {e : Nat} (htail : Tail n b) (h : BlocksSorted (2 ^ e) b) :
    BlocksSorted (2 ^ e * 2) (run id (passes n (2 ^ e) (2 ^ e)) b) := by
  have hmerge := (h.first_pass htail).passes le_rfl (htail.run (columns_inside n _ _ _))
  rw [Batcher.passes, if_pos Nat.one_le_two_pow, run_append, Nat.mul_comm]
  exact hmerge.sorted

theorem blocksSorted_one (b : Nat → Bool) : BlocksSorted (2 ^ 0) b := by
  intro B
  refine ⟨(!b B).toNat, Bool.toNat_le _, fun x hx => ?_⟩
  obtain rfl : x = 0 := Nat.lt_one_iff.mp hx
  rw [Nat.pow_zero, Nat.one_mul, Nat.add_zero]
  cases b B <;> decide

theorem BlocksSorted.ordered (hn : n ≤ p) (h : BlocksSorted p b) : Ordered n b := by
  obtain ⟨z, _, hz⟩ := h 0
  rw [Nat.mul_zero] at hz
  intro i j hij hj
  have hi := hz i (by omega)
  have hj' := hz j (by omega)
  rw [Nat.zero_add] at hi hj'
  rw [Bool.le_iff_imp]
  intro htrue
  by_contra hfalse
  rw [Bool.not_eq_true, hj'] at hfalse
  rw [hi.mpr (by omega)] at htrue
  exact Bool.false_ne_true htrue

theorem BlocksSorted.rounds {e : Nat} (htail : Tail n b) (h : BlocksSorted (2 ^ e) b) :
    Ordered n (run id (rounds n (2 ^ e)) b) := by
  obtain ⟨p, hp⟩ : ∃ p, p = 2 ^ e := ⟨_, rfl⟩
  rw [← hp] at h ⊢
  fun_induction Batcher.rounds n p generalizing e b with
  | case1 p hlt ih =>
    subst hp
    rw [run_append]
    exact ih (htail.run (passes_inside n _ _)) (h.passes htail) (Nat.pow_succ ..).symm
  | case2 p hge =>
    have := Nat.two_pow_pos e
    exact h.ordered (by omega)

end Merge

end Batcher

theorem batcherNetwork_inside (n : Nat) : Network.Inside n (batcherNetwork n) :=
  Batcher.rounds_inside n 1

theorem batcherNetwork_zero : batcherNetwork 0 = [] := by
  rw [batcherNetwork, Batcher.rounds, if_neg (by decide)]

theorem batcherNetwork_orders {α : Type*} [LinearOrder α] (n : Nat) (x : Nat → α) :
    Network.Ordered n (Network.run id (batcherNetwork n) x) := by
  refine Network.zero_one (batcherNetwork_inside n) (fun b htail => ?_) x
  exact (Batcher.blocksSorted_one b).rounds htail

example : batcherNetwork 5 =
    [(0, 1), (2, 3), (0, 2), (1, 3), (1, 2), (0, 4), (2, 4), (1, 2), (3, 4)] := by
  simp +decide [batcherNetwork, Batcher.rounds, Batcher.passes, Batcher.columns, Batcher.column]

end EmpTool.Circuits
