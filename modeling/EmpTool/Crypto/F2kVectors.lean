import EmpTool.Crypto.F2k
import EmpTool.Runtime.Error
import Mathlib.Tactic.IntervalCases

namespace EmpTool.Crypto

open BinaryPoly M128i Polynomial

structure ClmulTiers where
  vpclmul256 : Bool
  vpclmul512 : Bool

-- lane `j` of a vector register holds one block
abbrev Lanes := Nat → M128i

namespace ClmulLane

def loadu (mem : Nat → M128i) (p : Nat) : Lanes := fun j => mem (p + j)

def foldToXmm : (n : Nat) → Lanes → M128i
  | 4, v => (v 0 ^^^ v 2) ^^^ (v 1 ^^^ v 3)
  | 2, v => v 0 ^^^ v 1
  | _, v => v 0

end ClmulLane

section InnerProduct

variable (lane : ClmulLane)

structure Products where
  lo : Lanes
  hi : Lanes
  mid : Lanes

def Products.zero : Products := ⟨fun _ => 0, fun _ => 0, fun _ => 0⟩

def Products.add (s : Products) (av bv : Lanes) : Products where
  lo j := s.lo j ^^^ lane.clmulLoLo (av j) (bv j)
  hi j := s.hi j ^^^ lane.clmulHiHi (av j) (bv j)
  mid j := s.mid j ^^^ (lane.clmulHiLo (av j) (bv j) ^^^ lane.clmulLoHi (av j) (bv j))

structure Drained where
  lo : M128i
  hi : M128i
  i : Nat

def innPrdtDrainLanes (n : Nat) (a b : Nat → M128i) (sz : Nat) (d : Drained) : Drained :=
  let tiles := (sz - d.i) / n
  let s := (List.range tiles).foldl (fun s t =>
    s.add lane (ClmulLane.loadu a (d.i + t * n)) (ClmulLane.loadu b (d.i + t * n))) Products.zero
  let lo := fun j => s.lo j ^^^ (s.mid j).slliSi128 8
  let hi := fun j => s.hi j ^^^ (s.mid j).srliSi128 8
  ⟨d.lo ^^^ ClmulLane.foldToXmm n lo, d.hi ^^^ ClmulLane.foldToXmm n hi, d.i + tiles * n⟩

def vectorInnPrdtSumNoRed (tiers : ClmulTiers) (a b : Nat → M128i) (sz : Nat) : M128i × M128i :=
  let d : Drained := ⟨0, 0, 0⟩
  let d := if tiers.vpclmul512 then innPrdtDrainLanes lane 4 a b sz d else d
  let d := if tiers.vpclmul256 then innPrdtDrainLanes lane 2 a b sz d else d
  let d := innPrdtDrainLanes lane 1 a b sz d
  (d.lo, d.hi)

def vectorInnPrdtSumRed (tiers : ClmulTiers) (a b : Nat → M128i) (sz : Nat) : M128i :=
  let loHi := vectorInnPrdtSumNoRed lane tiers a b sz
  reduce loHi.1 loHi.2

end InnerProduct

section Unreduced

variable {lane : ClmulLane} {a b : Nat → M128i}

theorem toPoly_reduce_joined (lo hi : M128i) :
    toPoly (reduce lo hi) = joined lo hi %ₘ modulus tail := by
  rw [toPoly_reduce, joined]

noncomputable def Products.value (s : Products) (j : Nat) : (ZMod 2)[X] :=
  joined (s.lo j ^^^ (s.mid j).slliSi128 8) (s.hi j ^^^ (s.mid j).srliSi128 8)

theorem Products.value_zero (j : Nat) : Products.zero.value j = 0 := by
  have hlow : (0 : M128i) ^^^ (0 : M128i).slliSi128 8 = 0 := by decide
  have hhigh : (0 : M128i) ^^^ (0 : M128i).srliSi128 8 = 0 := by decide
  rw [Products.value, Products.zero, hlow, hhigh, joined_zero]

theorem Products.value_add (s : Products) (av bv : Lanes) (j : Nat) :
    (s.add lane av bv).value j = s.value j + toPoly (av j) * toPoly (bv j) := by
  have hright (x y : M128i) : (x ^^^ y).srliSi128 8 = x.srliSi128 8 ^^^ y.srliSi128 8 :=
    BitVec.ushiftRight_xor_distrib x y _
  have hgroup (x y z w : M128i) : x ^^^ y ^^^ (z ^^^ w) = x ^^^ z ^^^ (y ^^^ w) := by ac_rfl
  have hproduct : joined (mul128 lane (av j) (bv j)).1 (mul128 lane (av j) (bv j)).2 =
      toPoly (av j) * toPoly (bv j) := by
    rw [joined, toPoly_mul128]
  rw [← hproduct, Products.value, Products.value, ← joined_xor]
  simp only [Products.add, mul128, slliSi128_xor, hright, hgroup]

theorem Products.value_foldl (i n tiles j : Nat) :
    ((List.range tiles).foldl (fun s t => s.add lane (ClmulLane.loadu a (i + t * n))
        (ClmulLane.loadu b (i + t * n))) Products.zero).value j =
      ∑ t ∈ Finset.range tiles, toPoly (a (i + t * n + j)) * toPoly (b (i + t * n + j)) := by
  induction tiles with
  | zero => exact Products.value_zero j
  | succ tiles ih =>
    rw [List.range_succ, List.foldl_append, List.foldl_cons, List.foldl_nil, Products.value_add, ih,
      Finset.sum_range_succ]
    rfl

theorem joined_foldToXmm {n : Nat} (hn : n = 1 ∨ n = 2 ∨ n = 4) (lo hi : Lanes) :
    joined (ClmulLane.foldToXmm n lo) (ClmulLane.foldToXmm n hi) =
      ∑ j ∈ Finset.range n, joined (lo j) (hi j) := by
  rcases hn with rfl | rfl | rfl
  · rw [Finset.sum_range_one]
    rfl
  · rw [Finset.sum_range_succ, Finset.sum_range_one]
    exact joined_xor (lo 0) (hi 0) (lo 1) (hi 1)
  · rw [Finset.sum_range_succ, Finset.sum_range_succ, Finset.sum_range_succ, Finset.sum_range_one]
    simp only [ClmulLane.foldToXmm, joined_xor]
    ring

theorem sum_tiles (f : Nat → (ZMod 2)[X]) (n tiles : Nat) :
    ∑ j ∈ Finset.range n, ∑ t ∈ Finset.range tiles, f (t * n + j) =
      ∑ k ∈ Finset.range (tiles * n), f k := by
  rw [Finset.sum_comm]
  induction tiles with
  | zero => simp
  | succ tiles ih => rw [Finset.sum_range_succ, ih, Nat.succ_mul, Finset.sum_range_add]

theorem drained_value {n : Nat} (hn : n = 1 ∨ n = 2 ∨ n = 4) (sz : Nat) (d : Drained) :
    joined (innPrdtDrainLanes lane n a b sz d).lo (innPrdtDrainLanes lane n a b sz d).hi =
      joined d.lo d.hi + ∑ k ∈ Finset.range ((sz - d.i) / n * n),
        toPoly (a (d.i + k)) * toPoly (b (d.i + k)) := by
  generalize htiles : (sz - d.i) / n = tiles
  have hsum := sum_tiles (fun k => toPoly (a (d.i + k)) * toPoly (b (d.i + k))) n tiles
  simp only [innPrdtDrainLanes, htiles]
  rw [joined_xor, joined_foldToXmm hn, ← hsum]
  congr 1
  refine Finset.sum_congr rfl fun j _ => ?_
  simp only [← Nat.add_assoc]
  exact Products.value_foldl d.i n tiles j

structure Drained.Upto (a b : Nat → M128i) (sz : Nat) (d : Drained) : Prop where
  le : d.i ≤ sz
  value : joined d.lo d.hi = ∑ k ∈ Finset.range d.i, toPoly (a k) * toPoly (b k)

theorem Drained.Upto.drain {n sz : Nat} {d : Drained} (h : d.Upto a b sz)
    (hn : n = 1 ∨ n = 2 ∨ n = 4) : (innPrdtDrainLanes lane n a b sz d).Upto a b sz where
  le := by
    have hcursor : (innPrdtDrainLanes lane n a b sz d).i = d.i + (sz - d.i) / n * n := rfl
    have hle := h.le
    have hdiv := Nat.div_mul_le_self (sz - d.i) n
    omega
  value := by
    have hcursor : (innPrdtDrainLanes lane n a b sz d).i = d.i + (sz - d.i) / n * n := rfl
    rw [drained_value hn, h.value, hcursor, Finset.sum_range_add]

theorem Drained.Upto.drain_ite {n sz : Nat} {d : Drained} (h : d.Upto a b sz)
    (hn : n = 1 ∨ n = 2 ∨ n = 4) (available : Bool) :
    (if available then innPrdtDrainLanes lane n a b sz d else d).Upto a b sz := by
  cases available with
  | true => exact h.drain hn
  | false => exact h

theorem Drained.Upto.drain_all {sz : Nat} {d : Drained} (h : d.Upto a b sz) :
    joined (innPrdtDrainLanes lane 1 a b sz d).lo (innPrdtDrainLanes lane 1 a b sz d).hi =
      ∑ k ∈ Finset.range sz, toPoly (a k) * toPoly (b k) := by
  have hone := @Drained.Upto.drain lane a b 1 sz d h (Or.inl rfl)
  have hcursor : (innPrdtDrainLanes lane 1 a b sz d).i = sz := by
    have hle := h.le
    show d.i + (sz - d.i) / 1 * 1 = sz
    omega
  rw [hone.value, hcursor]

theorem vectorInnPrdtSumRed_eq (lane : ClmulLane) (tiers : ClmulTiers) (a b : Nat → M128i)
    (sz : Nat) :
    vectorInnPrdtSumRed lane tiers a b sz = xorSum sz fun i => gfmul lane (a i) (b i) := by
  have hstart : Drained.Upto a b sz ⟨0, 0, 0⟩ := ⟨Nat.zero_le _, joined_zero⟩
  have hfour := @Drained.Upto.drain_ite lane a b 4 sz _ hstart (by decide) tiers.vpclmul512
  have htwo := @Drained.Upto.drain_ite lane a b 2 sz _ hfour (by decide) tiers.vpclmul256
  have hall := @Drained.Upto.drain_all lane a b sz _ htwo
  apply toPoly_injective
  rw [vectorInnPrdtSumRed, toPoly_reduce_joined, vectorInnPrdtSumNoRed, hall, toPoly_xorSum]
  simp only [toPoly_gfmul, sum_mod]

end Unreduced

section FourWay

def selectMask128 (b : Bool) : M128i := if b then BitVec.allOnes 128 else 0

def accumulate (f : Nat → M128i) (i : Nat) (r : Nat → M128i) : Nat → M128i :=
  let r := Function.update r 0 (r 0 ^^^ f i)
  let r := Function.update r 1 (r 1 ^^^ f (i + 1))
  let r := Function.update r 2 (r 2 ^^^ f (i + 2))
  Function.update r 3 (r 3 ^^^ f (i + 3))

def vectorInnPrdtSumRedBits (a : Nat → M128i) (b : Nat → UInt8) (sz : Nat) : M128i :=
  let f := fun i => a i &&& selectMask128 (b i != 0)
  let r := (List.range (sz / 4)).foldl (fun r t => accumulate f (4 * t) r) fun _ => 0
  let r := (List.range' (sz / 4 * 4) (sz - sz / 4 * 4)).foldl
    (fun r i => Function.update r 0 (r 0 ^^^ f i)) r
  (r 0 ^^^ r 1) ^^^ (r 2 ^^^ r 3)

def vectorSelfXor (data : Nat → M128i) (sz : Nat) : M128i :=
  let res := (List.range (sz / 4)).foldl (fun res t => accumulate data (4 * t) res) fun _ => 0
  let res := (List.range (sz - sz / 4 * 4)).foldl
    (fun res j => Function.update res j (data (sz / 4 * 4 + j) ^^^ res j)) res
  (res 0 ^^^ res 1) ^^^ (res 2 ^^^ res 3)

def total (r : Nat → M128i) : M128i := (r 0 ^^^ r 1) ^^^ (r 2 ^^^ r 3)

theorem total_update (r : Nat → M128i) {j : Nat} (hj : j < 4) (x : M128i) :
    total (Function.update r j (r j ^^^ x)) = total r ^^^ x := by
  unfold total
  interval_cases j
  · simp only [Function.update_self, ne_eq, OfNat.ofNat_ne_zero, one_ne_zero, not_false_eq_true,
      Function.update_of_ne]
    ac_rfl
  · simp
    ac_rfl
  · simp
    ac_rfl
  · simp
    ac_rfl

theorem total_accumulate (f : Nat → M128i) (t : Nat) (r : Nat → M128i)
    (h : total r = xorSum (4 * t) f) :
    total (accumulate f (4 * t) r) = xorSum (4 * (t + 1)) f := by
  rw [accumulate, total_update _ (by decide), total_update _ (by decide),
    total_update _ (by decide), total_update _ (by decide), h, Nat.mul_succ]
  simp only [xorSum_succ]

theorem total_quads (f : Nat → M128i) (quads : Nat) :
    total ((List.range quads).foldl (fun r t => accumulate f (4 * t) r) fun _ => 0) =
      xorSum (4 * quads) f := by
  induction quads with
  | zero => exact (by decide : total (fun _ => 0) = 0)
  | succ quads ih =>
    rw [List.range_succ, List.foldl_append]
    exact total_accumulate f quads _ ih

theorem total_rest (f : Nat → M128i) (place : Nat → Nat) {start count : Nat}
    (hplace : ∀ j < count, place j < 4) {r : Nat → M128i} (h : total r = xorSum start f) :
    total ((List.range count).foldl (fun r j =>
        Function.update r (place j) (r (place j) ^^^ f (start + j))) r) =
      xorSum (start + count) f := by
  induction count with
  | zero => exact h
  | succ count ih =>
    rw [List.range_succ, List.foldl_append, List.foldl_cons, List.foldl_nil,
      total_update _ (hplace count (Nat.lt_succ_self count)), ih fun j hj => hplace j (by omega),
      ← Nat.add_assoc, xorSum_succ]

theorem and_selectMask128 (x : M128i) (b : Bool) :
    x &&& selectMask128 b = if b then x else 0 := by
  cases b with
  | true => exact BitVec.and_allOnes
  | false => exact BitVec.and_zero

theorem vectorInnPrdtSumRedBits_eq (a : Nat → M128i) (b : Nat → UInt8) (sz : Nat) :
    vectorInnPrdtSumRedBits a b sz = xorSum sz fun i => if b i ≠ 0 then a i else 0 := by
  have hmask (i : Nat) : a i &&& selectMask128 (b i != 0) = if b i ≠ 0 then a i else 0 := by
    rw [and_selectMask128]
    simp only [bne_iff_ne]
  have hall : sz / 4 * 4 + (sz - sz / 4 * 4) = sz := by omega
  have hquads := total_quads (fun i => if b i ≠ 0 then a i else 0) (sz / 4)
  rw [Nat.mul_comm 4] at hquads
  have hrest := total_rest _ (fun _ => 0) (fun _ (_ : _ < sz - sz / 4 * 4) => Nat.succ_pos 3) hquads
  rw [hall] at hrest
  rw [← hrest, vectorInnPrdtSumRedBits, List.range'_eq_map_range, List.foldl_map]
  simp only [hmask, total]

theorem vectorSelfXor_eq (data : Nat → M128i) (sz : Nat) :
    vectorSelfXor data sz = xorSum sz data := by
  have hall : sz / 4 * 4 + (sz - sz / 4 * 4) = sz := by omega
  have hquads := total_quads data (sz / 4)
  rw [Nat.mul_comm 4] at hquads
  have hrest := total_rest data (fun j => j) (fun j (hj : j < sz - sz / 4 * 4) => by omega) hquads
  rw [hall] at hrest
  rw [← hrest, vectorSelfXor]
  simp only [BitVec.xor_comm (data _), total]

end FourWay

section Coefficients

def store (i : Nat) (x : M128i) (coeff : Nat → M128i) : Nat → M128i := Function.update coeff i x

variable (lane : ClmulLane)

def coeffBatch (multiplier : M128i) (i : Nat) (coeff : Nat → M128i) : Nat → M128i :=
  let coeff := store i (gfmul lane (coeff (i - 4)) multiplier) coeff
  let coeff := store (i + 1) (gfmul lane (coeff (i - 3)) multiplier) coeff
  let coeff := store (i + 2) (gfmul lane (coeff (i - 2)) multiplier) coeff
  store (i + 3) (gfmul lane (coeff (i - 1)) multiplier) coeff

def uniHashCoeffGen (coeff : Nat → M128i) (seed : M128i) (sz : Int) :
    Except String (Nat → M128i) := do
  expecting (0 < sz) "uni_hash_coeff_gen: size must be positive"
  let sz := sz.toNat
  let coeff := store 0 seed coeff
  if sz = 1 then return coeff
  let coeff := store 1 (gfmul lane seed seed) coeff
  if sz = 2 then return coeff
  let coeff := store 2 (gfmul lane (coeff 1) seed) coeff
  if sz = 3 then return coeff
  let multiplier := gfmul lane (coeff 2) seed
  let coeff := store 3 multiplier coeff
  if sz = 4 then return coeff
  let coeff := (List.range ((sz - 4) / 4)).foldl
    (fun coeff t => coeffBatch lane multiplier (4 + 4 * t) coeff) coeff
  let remainder := sz % 4
  if remainder ≠ 0 then
    return (List.range' (sz - remainder) remainder).foldl
      (fun coeff i => store i (gfmul lane (coeff (i - 1)) seed) coeff) coeff
  return coeff

variable {seed : M128i} {old coeff : Nat → M128i} {n : Nat}

def IsPower (seed : M128i) (e : Nat) (x : M128i) : Prop :=
  toPoly x = toPoly seed ^ e %ₘ modulus tail

theorem isPower_one (seed : M128i) : IsPower seed 1 seed := by
  rw [IsPower, pow_one, toPoly_mod]

theorem IsPower.mul (lane : ClmulLane) {x y : M128i} {d e : Nat} (hx : IsPower seed d x)
    (hy : IsPower seed e y) : IsPower seed (d + e) (gfmul lane x y) := by
  unfold IsPower at *
  rw [toPoly_gfmul, hx, mul_mod_left, hy, mul_comm, mul_mod_left, mul_comm, pow_add]

structure Powers (seed : M128i) (old : Nat → M128i) (n : Nat) (coeff : Nat → M128i) : Prop where
  power : ∀ i < n, IsPower seed (i + 1) (coeff i)
  rest : ∀ i, n ≤ i → coeff i = old i

theorem Powers.store {x : M128i} (h : Powers seed old n coeff) (hx : IsPower seed (n + 1) x) :
    Powers seed old (n + 1) (store n x coeff) where
  power i hi := by
    by_cases hlast : i = n
    · subst hlast
      rwa [Crypto.store, Function.update_self]
    · rw [Crypto.store, Function.update_of_ne hlast]
      exact h.power i (by omega)
  rest i hi := by
    rw [Crypto.store, Function.update_of_ne (by omega)]
    exact h.rest i (by omega)

theorem Powers.next (lane : ClmulLane) {k e : Nat} {x : M128i} (h : Powers seed old n coeff)
    (hk : k < n) (hx : IsPower seed e x) (he : k + 1 + e = n + 1) :
    Powers seed old (n + 1) (Crypto.store n (gfmul lane (coeff k) x) coeff) :=
  h.store (he ▸ (h.power k hk).mul lane hx)

theorem Powers.batch (lane : ClmulLane) {x : M128i} (h : Powers seed old n coeff) (hn : 4 ≤ n)
    (hx : IsPower seed 4 x) : Powers seed old (n + 4) (coeffBatch lane x n coeff) := by
  have h₁ := h.next lane (k := n - 4) (by omega) hx (by omega)
  have h₂ := h₁.next lane (k := n - 3) (by omega) hx (by omega)
  have h₃ := h₂.next lane (k := n - 2) (by omega) hx (by omega)
  exact h₃.next lane (by omega) hx (by omega)

theorem Powers.batches (lane : ClmulLane) {x : M128i} (h : Powers seed old 4 coeff)
    (hx : IsPower seed 4 x) (count : Nat) : Powers seed old (4 + 4 * count)
      ((List.range count).foldl (fun coeff t => coeffBatch lane x (4 + 4 * t) coeff) coeff) := by
  induction count with
  | zero => exact h
  | succ count ih =>
    rw [List.range_succ, List.foldl_append]
    exact ih.batch lane (by omega) hx

theorem Powers.tail (lane : ClmulLane) (h : Powers seed old n coeff) (hn : 0 < n) (count : Nat) :
    Powers seed old (n + count) ((List.range' n count).foldl
      (fun coeff i => Crypto.store i (gfmul lane (coeff (i - 1)) seed) coeff) coeff) := by
  induction count with
  | zero => exact h
  | succ count ih =>
    rw [List.range'_concat, List.foldl_append, Nat.one_mul]
    exact ih.next lane (by omega) (isPower_one seed) (by omega)

theorem uniHashCoeffGen_powers (lane : ClmulLane) (coeff : Nat → M128i) (seed : M128i) {sz : Nat}
    (hsz : 0 < sz) :
    ∃ coeff', uniHashCoeffGen lane coeff seed sz = .ok coeff' ∧ Powers seed coeff sz coeff' := by
  have hone := isPower_one seed
  have hstart : Powers seed coeff 0 coeff :=
    ⟨fun i hi => absurd hi (Nat.not_lt_zero i), fun _ _ => rfl⟩
  have h₁ := hstart.store hone
  have h₂ := h₁.store (hone.mul lane hone)
  have h₃ := h₂.next lane (k := 1) (by decide) hone rfl
  have hfour := (h₃.power 2 (by decide)).mul lane hone
  have h₄ := h₃.store hfour
  have hcheck : expecting (0 < (sz : Int)) "uni_hash_coeff_gen: size must be positive" = .ok () :=
    expecting_eq_ok.mpr (by omega)
  unfold uniHashCoeffGen
  rw [hcheck]
  show ∃ coeff', (if sz = 1 then _ else _ : Except String (Nat → M128i)) = _ ∧ _
  split
  case isTrue h =>
    subst h
    exact ⟨_, rfl, h₁⟩
  show ∃ coeff', (if sz = 2 then _ else _ : Except String (Nat → M128i)) = _ ∧ _
  split
  case isTrue h =>
    subst h
    exact ⟨_, rfl, h₂⟩
  show ∃ coeff', (if sz = 3 then _ else _ : Except String (Nat → M128i)) = _ ∧ _
  split
  case isTrue h =>
    subst h
    exact ⟨_, rfl, h₃⟩
  show ∃ coeff', (if sz = 4 then _ else _ : Except String (Nat → M128i)) = _ ∧ _
  split
  case isTrue h =>
    subst h
    exact ⟨_, rfl, h₄⟩
  have hbatches := h₄.batches lane hfour ((sz - 4) / 4)
  show ∃ coeff', (if sz % 4 ≠ 0 then _ else _ : Except String (Nat → M128i)) = _ ∧ _
  have hcut : 4 + 4 * ((sz - 4) / 4) = sz - sz % 4 := by omega
  rw [hcut] at hbatches
  split
  case isTrue h =>
    have htail := hbatches.tail lane (by omega) (sz % 4)
    have hall : sz - sz % 4 + sz % 4 = sz := by omega
    rw [hall] at htail
    exact ⟨_, rfl, htail⟩
  case isFalse h =>
    have hall : sz - sz % 4 = sz := by omega
    rw [hall] at hbatches
    exact ⟨_, rfl, hbatches⟩

end Coefficients

section Packing

def slliEpi64 (x : M128i) (k : Nat) : M128i := (x.half true <<< k) ++ (x.half false <<< k)

def srliEpi64 (x : M128i) (k : Nat) : M128i := (x.half true >>> k) ++ (x.half false >>> k)

def gfPackBit (data : Nat → M128i) (start : Nat) (combined : M128i × M128i) (B : Nat) :
    M128i × M128i :=
  let d := data (start + B)
  let s := slliEpi64 d B
  let c := srliEpi64 d (64 - B)
  (combined.1 ^^^ (s ^^^ c.slliSi128 8), combined.2 ^^^ c.srliSi128 8)

def placeAt (off : Nat) (combined acc : M128i × M128i) : M128i × M128i :=
  if off = 0 then (acc.1 ^^^ combined.1, acc.2 ^^^ combined.2)
  else
    (acc.1 ^^^ combined.1.slliSi128 off,
      acc.2 ^^^ (combined.1.srliSi128 (16 - off) ^^^ combined.2.slliSi128 off))

def gfPackByte (off : Nat) (data : Nat → M128i) (acc : M128i × M128i) : M128i × M128i :=
  placeAt off ((List.range' 1 7).foldl (gfPackBit data (off * 8)) (data (off * 8), 0)) acc

def setEpi64 (counts : List Nat) (q : Nat) : Nat := counts.reverse.getD q 0

def sllvEpi64 (v : Lanes) (counts : Nat → Nat) : Lanes := fun j =>
  ((v j).half true <<< counts (2 * j + 1)) ++ ((v j).half false <<< counts (2 * j))

def srlvEpi64 (v : Lanes) (counts : Nat → Nat) : Lanes := fun j =>
  ((v j).half true >>> counts (2 * j + 1)) ++ ((v j).half false >>> counts (2 * j))

def gfPackShifts (n : Nat) (data : Nat → M128i) (start : Nat) (combined : Nat → M128i × M128i)
    (counts : (List Nat × List Nat) × Nat) : Nat → M128i × M128i :=
  let d := ClmulLane.loadu data (start + counts.2 * n)
  let s := sllvEpi64 d (setEpi64 counts.1.1)
  let c := srlvEpi64 d (setEpi64 counts.1.2)
  fun j => ((combined j).1 ^^^ (s j ^^^ (c j).slliSi128 8), (combined j).2 ^^^ (c j).srliSi128 8)

def gfPackGroup (n : Nat) (counts : List (List Nat × List Nat)) (off : Nat) (data : Nat → M128i)
    (acc : Nat → M128i × M128i) : Nat → M128i × M128i :=
  let combined := counts.zipIdx.foldl (gfPackShifts n data (off * 8)) fun _ => (0, 0)
  fun j => placeAt off (combined j) (acc j)

def avx512Counts : List (List Nat × List Nat) :=
  [([3, 3, 2, 2, 1, 1, 0, 0], [61, 61, 62, 62, 63, 63, 64, 64]),
    ([7, 7, 6, 6, 5, 5, 4, 4], [57, 57, 58, 58, 59, 59, 60, 60])]

def avx2Counts : List (List Nat × List Nat) :=
  [([1, 1, 0, 0], [63, 63, 64, 64]), ([3, 3, 2, 2], [61, 61, 62, 62]),
    ([5, 5, 4, 4], [59, 59, 60, 60]), ([7, 7, 6, 6], [57, 57, 58, 58])]

def packingGroups (n : Nat) (counts : List (List Nat × List Nat)) (data : Nat → M128i) : M128i :=
  let acc := (List.range 16).foldl (fun acc off => gfPackGroup n counts off data acc)
    fun _ => (0, 0)
  reduce (ClmulLane.foldToXmm n fun j => (acc j).1) (ClmulLane.foldToXmm n fun j => (acc j).2)

inductive PackTier
  | avx512
  | avx2
  | scalar

def packing (tier : PackTier) (data : Nat → M128i) : M128i :=
  match tier with
  | .avx512 => packingGroups 4 avx512Counts data
  | .avx2 => packingGroups 2 avx2Counts data
  | .scalar =>
    let acc := (List.range 16).foldl (fun acc off => gfPackByte off data acc) (0, 0)
    reduce acc.1 acc.2

theorem getLsbD_slliEpi64 (x : M128i) (k : Nat) {i : Nat} (hi : i < 128) :
    (slliEpi64 x k).getLsbD i = (decide (k ≤ i % 64) && x.getLsbD (i - k)) := by
  rw [slliEpi64, BitVec.getLsbD_append]
  by_cases hlow : i < 64
  · rw [if_pos hlow, BitVec.getLsbD_shiftLeft, half, BitVec.getLsbD_extractLsb']
    grind
  · rw [if_neg hlow, BitVec.getLsbD_shiftLeft, half, BitVec.getLsbD_extractLsb']
    have hsource : k ≤ i - 64 → 64 + (i - 64 - k) = i - k := by omega
    grind

theorem getLsbD_srliEpi64 (x : M128i) (k : Nat) {i : Nat} (hi : i < 128) :
    (srliEpi64 x k).getLsbD i = (decide (i % 64 + k < 64) && x.getLsbD (i + k)) := by
  rw [srliEpi64, BitVec.getLsbD_append]
  by_cases hlow : i < 64
  · rw [if_pos hlow, BitVec.getLsbD_ushiftRight, half, BitVec.getLsbD_extractLsb']
    grind
  · rw [if_neg hlow, BitVec.getLsbD_ushiftRight, half, BitVec.getLsbD_extractLsb']
    have hsource : 64 + (k + (i - 64)) = i + k := by omega
    grind

theorem shiftLeft_quadwords (x : M128i) {k : Nat} (hk : k ≤ 64) :
    slliEpi64 x k ^^^ (srliEpi64 x (64 - k)).slliSi128 8 = x <<< k := by
  apply BitVec.eq_of_getLsbD_eq
  intro i hi
  rw [BitVec.getLsbD_xor, getLsbD_slliEpi64 x k hi, slliSi128, BitVec.getLsbD_shiftLeft,
    getLsbD_srliEpi64 x _ (by omega), BitVec.getLsbD_shiftLeft]
  have hcross : 64 ≤ i → i - 8 * 8 + (64 - k) = i - k := by omega
  grind

theorem shiftRight_quadwords (x : M128i) {k : Nat} (hk : k ≤ 64) :
    (srliEpi64 x (64 - k)).srliSi128 8 = x >>> (128 - k) := by
  apply BitVec.eq_of_getLsbD_eq
  intro i _
  rw [srliSi128, BitVec.getLsbD_ushiftRight, BitVec.getLsbD_ushiftRight]
  by_cases hi : 8 * 8 + i < 128
  · rw [getLsbD_srliEpi64 x _ hi, show 8 * 8 + i + (64 - k) = 128 - k + i by omega]
    by_cases hin : i < k
    · rw [decide_eq_true (by omega), Bool.true_and]
    · rw [BitVec.getLsbD_of_ge x (128 - k + i) (by omega), Bool.and_false]
  · rw [BitVec.getLsbD_of_ge _ (8 * 8 + i) (by omega),
      BitVec.getLsbD_of_ge _ (128 - k + i) (by omega)]

structure Combined (v : (ZMod 2)[X]) (lo hi : M128i) : Prop where
  value : joined lo hi = v
  high : ∀ i, 7 ≤ i → hi.getLsbD i = false

variable {v : (ZMod 2)[X]} {lo hi : M128i} {data : Nat → M128i}

theorem Combined.zero : Combined 0 0 0 := ⟨joined_zero, fun _ _ => BitVec.getLsbD_zero⟩

theorem Combined.block (d : M128i) : Combined (toPoly d) d 0 where
  value := by rw [joined, toPoly_zero, mul_zero, add_zero]
  high _ _ := BitVec.getLsbD_zero

theorem Combined.add (h : Combined v lo hi) (d : M128i) {k : Nat} (hk : k ≤ 7) :
    Combined (v + X ^ k * toPoly d)
      (lo ^^^ (slliEpi64 d k ^^^ (srliEpi64 d (64 - k)).slliSi128 8))
      (hi ^^^ (srliEpi64 d (64 - k)).srliSi128 8) where
  value := by
    rw [shiftLeft_quadwords d (by omega), shiftRight_quadwords d (by omega), joined_xor, h.value,
      joined_shift (by omega)]
  high i hi := by
    rw [shiftRight_quadwords d (by omega), BitVec.getLsbD_xor, h.high i hi,
      BitVec.getLsbD_ushiftRight, BitVec.getLsbD_of_ge d _ (by omega)]
    rfl

theorem Combined.shift (h : Combined v lo hi) {off : Nat} (hoff : off < 16) :
    joined (lo.slliSi128 off) (lo.srliSi128 (16 - off) ^^^ hi.slliSi128 off) =
      X ^ (8 * off) * v := by
  have hbytes : 8 * (16 - off) = 128 - 8 * off := by omega
  have hout : hi >>> (128 - 8 * off) = 0 := by
    apply BitVec.eq_of_getLsbD_eq
    intro i _
    rw [BitVec.getLsbD_ushiftRight, h.high _ (by omega)]
    exact BitVec.getLsbD_zero.symm
  rw [slliSi128, slliSi128, srliSi128, hbytes, joined_shiftLeft (by omega) hout, h.value]

theorem joined_placeAt {combined : M128i × M128i} (h : Combined v combined.1 combined.2) {off : Nat}
    (hoff : off < 16) (acc : M128i × M128i) :
    joined (placeAt off combined acc).1 (placeAt off combined acc).2 =
      joined acc.1 acc.2 + X ^ (8 * off) * v := by
  unfold placeAt
  split
  case isTrue hzero => rw [joined_xor, h.value, hzero, Nat.mul_zero, pow_zero, one_mul]
  case isFalse _ => rw [joined_xor, h.shift hoff]

theorem combined_bits (start count : Nat) (hcount : count ≤ 7) :
    Combined (∑ k ∈ Finset.range (1 + count), X ^ k * toPoly (data (start + k)))
      ((List.range' 1 count).foldl (gfPackBit data start) (data start, 0)).1
      ((List.range' 1 count).foldl (gfPackBit data start) (data start, 0)).2 := by
  induction count with
  | zero =>
    rw [Nat.add_zero, Finset.sum_range_one, pow_zero, one_mul]
    exact Combined.block _
  | succ count ih =>
    rw [List.range'_concat, List.foldl_append, Nat.one_mul, ← Nat.add_assoc, Finset.sum_range_succ]
    exact (ih (by omega)).add _ (by omega)

def CountsFit (n : Nat) (counts : (List Nat × List Nat) × Nat) : Prop :=
  ∀ j < n, counts.2 * n + j ≤ 7 ∧ ∀ e < 2,
    setEpi64 counts.1.1 (2 * j + e) = counts.2 * n + j ∧
      setEpi64 counts.1.2 (2 * j + e) = 64 - (counts.2 * n + j)

theorem combined_shifts {n start j : Nat} (hj : j < n) {l : List ((List Nat × List Nat) × Nat)}
    (hl : ∀ counts ∈ l, CountsFit n counts) {combined : Nat → M128i × M128i}
    (h : Combined v (combined j).1 (combined j).2) :
    Combined (v + (l.map fun counts =>
        X ^ (counts.2 * n + j) * toPoly (data (start + counts.2 * n + j))).sum)
      (l.foldl (gfPackShifts n data start) combined j).1
      (l.foldl (gfPackShifts n data start) combined j).2 := by
  induction l generalizing v combined with
  | nil =>
    rw [List.map_nil, List.sum_nil, add_zero]
    exact h
  | cons counts l ih =>
    obtain ⟨hbit, hcounts⟩ := hl counts List.mem_cons_self j hj
    have hstep := h.add (data (start + counts.2 * n + j)) hbit
    rw [List.map_cons, List.sum_cons, ← add_assoc, List.foldl_cons]
    refine ih (fun counts hcounts => hl counts (List.mem_cons_of_mem _ hcounts)) ?_
    have heven := hcounts 0 (by decide)
    have hodd := hcounts 1 (by decide)
    rw [Nat.add_zero] at heven
    simp only [gfPackShifts, sllvEpi64, srlvEpi64, heven, hodd]
    exact hstep

theorem foldl_bytes (value : Nat → (ZMod 2)[X]) (step : Nat → M128i × M128i → M128i × M128i)
    (hstep : ∀ off < 16, ∀ acc, joined (step off acc).1 (step off acc).2 =
      joined acc.1 acc.2 + X ^ (8 * off) * value off) {count : Nat} (hcount : count ≤ 16) :
    joined ((List.range count).foldl (fun acc off => step off acc) (0, 0)).1
        ((List.range count).foldl (fun acc off => step off acc) (0, 0)).2 =
      ∑ off ∈ Finset.range count, X ^ (8 * off) * value off := by
  induction count with
  | zero => exact joined_zero
  | succ count ih =>
    rw [List.range_succ, List.foldl_append, List.foldl_cons, List.foldl_nil,
      hstep count (by omega), ih (by omega), Finset.sum_range_succ]

theorem sum_placed (m : Nat) : ∑ off ∈ Finset.range m,
      X ^ (8 * off) * ∑ k ∈ Finset.range 8, X ^ k * toPoly (data (off * 8 + k)) =
    ∑ i ∈ Finset.range (m * 8), X ^ i * toPoly (data i) := by
  rw [← sum_tiles, Finset.sum_comm]
  refine Finset.sum_congr rfl fun off _ => ?_
  rw [Finset.mul_sum]
  refine Finset.sum_congr rfl fun k _ => ?_
  rw [← mul_assoc, ← pow_add, Nat.mul_comm 8]

theorem toPoly_packing_scalar (data : Nat → M128i) : toPoly (packing .scalar data) =
    (∑ i ∈ Finset.range 128, X ^ i * toPoly (data i)) %ₘ modulus tail := by
  rw [packing, toPoly_reduce_joined, foldl_bytes _ (fun off acc => gfPackByte off data acc)
    (fun off hoff acc => joined_placeAt (combined_bits (off * 8) 7 (by decide)) hoff acc)
    (by decide : 16 ≤ 16), sum_placed]

theorem sum_zipIdx (f : Nat → (ZMod 2)[X]) (counts : List (List Nat × List Nat)) :
    (counts.zipIdx.map fun c => f c.2).sum = ∑ t ∈ Finset.range counts.length, f t := by
  have hplaces : counts.zipIdx.map (fun c => f c.2) = (counts.zipIdx.map Prod.snd).map f := by
    rw [List.map_map]
    rfl
  rw [hplaces, List.zipIdx_map_snd, ← List.range_eq_range']
  rfl

theorem groups_lane (n : Nat) (counts : List (List Nat × List Nat)) (data : Nat → M128i) (j : Nat)
    (offs : List Nat) (acc : Nat → M128i × M128i) :
    offs.foldl (fun acc off => gfPackGroup n counts off data acc) acc j =
      offs.foldl (fun acc off =>
        placeAt off (counts.zipIdx.foldl (gfPackShifts n data (off * 8)) (fun _ => (0, 0)) j) acc)
        (acc j) := by
  induction offs generalizing acc with
  | nil => rfl
  | cons off offs ih => exact ih _

theorem toPoly_packingGroups {n : Nat} (hn : n = 1 ∨ n = 2 ∨ n = 4)
    {counts : List (List Nat × List Nat)} (hfit : ∀ c ∈ counts.zipIdx, CountsFit n c)
    (hlength : counts.length * n = 8) (data : Nat → M128i) : toPoly (packingGroups n counts data) =
    (∑ i ∈ Finset.range 128, X ^ i * toPoly (data i)) %ₘ modulus tail := by
  have hlane (j : Nat) (hj : j < n) := foldl_bytes _
    (fun off acc => placeAt off
      (counts.zipIdx.foldl (gfPackShifts n data (off * 8)) (fun _ => (0, 0)) j) acc)
    (fun off hoff acc => joined_placeAt (combined_shifts hj hfit Combined.zero) hoff acc)
    (by decide : 16 ≤ 16)
  have hgroup (off : Nat) : ∑ j ∈ Finset.range n, (counts.zipIdx.map fun c =>
        X ^ (c.2 * n + j) * toPoly (data (off * 8 + c.2 * n + j))).sum =
      ∑ k ∈ Finset.range 8, X ^ k * toPoly (data (off * 8 + k)) := by
    have hall := sum_tiles (fun k => X ^ k * toPoly (data (off * 8 + k))) n counts.length
    rw [hlength] at hall
    rw [← hall]
    refine Finset.sum_congr rfl fun j _ => ?_
    rw [← sum_zipIdx]
    simp only [← Nat.add_assoc]
  rw [packingGroups, toPoly_reduce_joined, joined_foldToXmm hn, ← sum_placed 16]
  have hlanes (j : Nat) (hj : j ∈ Finset.range n) :
      joined ((List.range 16).foldl (fun acc off => gfPackGroup n counts off data acc)
          (fun _ => (0, 0)) j).1
        ((List.range 16).foldl (fun acc off => gfPackGroup n counts off data acc)
          (fun _ => (0, 0)) j).2 =
      ∑ off ∈ Finset.range 16, X ^ (8 * off) * (counts.zipIdx.map fun c =>
        X ^ (c.2 * n + j) * toPoly (data (off * 8 + c.2 * n + j))).sum := by
    rw [groups_lane, hlane j (Finset.mem_range.mp hj)]
    simp only [zero_add]
  refine congrArg (fun p => p %ₘ modulus tail) ?_
  rw [Finset.sum_congr rfl hlanes, Finset.sum_comm]
  simp only [← Finset.mul_sum, hgroup]

theorem toPoly_packing (tier : PackTier) (data : Nat → M128i) : toPoly (packing tier data) =
    (∑ i ∈ Finset.range 128, X ^ i * toPoly (data i)) %ₘ modulus tail := by
  cases tier with
  | avx512 =>
    have hfit : ∀ c ∈ avx512Counts.zipIdx, CountsFit 4 c := by
      unfold CountsFit
      decide
    exact toPoly_packingGroups (Or.inr (Or.inr rfl)) hfit rfl data
  | avx2 =>
    have hfit : ∀ c ∈ avx2Counts.zipIdx, CountsFit 2 c := by
      unfold CountsFit
      decide
    exact toPoly_packingGroups (Or.inr (Or.inl rfl)) hfit rfl data
  | scalar => exact toPoly_packing_scalar data

end Packing

theorem gf_vector_kernels_exact :
    (∀ lane tiers a b sz,
      vectorInnPrdtSumRed lane tiers a b sz = xorSum sz fun i => gfmul lane (a i) (b i)) ∧
    (∀ a b sz, vectorInnPrdtSumRedBits a b sz = xorSum sz fun i => if b i ≠ 0 then a i else 0) ∧
    (∀ lane coeff seed (sz : Nat), 0 < sz →
      ∃ coeff', uniHashCoeffGen lane coeff seed sz = .ok coeff' ∧
        (∀ i < sz, toPoly (coeff' i) =
          toPoly seed ^ (i + 1) %ₘ (X ^ 128 + X ^ 7 + X ^ 2 + X + 1)) ∧
        ∀ i, sz ≤ i → coeff' i = coeff i) ∧
    (∀ tier data, toPoly (packing tier data) =
      (∑ i ∈ Finset.range 128, toPoly (data i) * X ^ i) %ₘ (X ^ 128 + X ^ 7 + X ^ 2 + X + 1)) ∧
    ∀ data sz, vectorSelfXor data sz = xorSum sz data := by
  rw [← modulus_tail]
  refine ⟨vectorInnPrdtSumRed_eq, vectorInnPrdtSumRedBits_eq, fun lane coeff seed sz hsz => ?_,
    fun tier data => ?_, vectorSelfXor_eq⟩
  · obtain ⟨coeff', hrun, hpowers⟩ := uniHashCoeffGen_powers lane coeff seed hsz
    exact ⟨coeff', hrun, hpowers.power, hpowers.rest⟩
  · rw [toPoly_packing, Finset.sum_congr rfl fun i _ => mul_comm _ _]

theorem gf_vector_kernels_exact_five :
    0 < 5 ∧ ∃ coeff', uniHashCoeffGen .pclmul (fun _ => 0) 2 (5 : Nat) = .ok coeff' ∧
      coeff' 5 = 0 := by
  obtain ⟨coeff', hrun, _, hrest⟩ :=
    gf_vector_kernels_exact.2.2.1 .pclmul (fun _ => 0) 2 5 (by decide)
  exact ⟨by decide, coeff', hrun, hrest 5 (Nat.le_refl 5)⟩

end EmpTool.Crypto
