import EmpTool.Library.Binary
import Mathlib.Tactic.IntervalCases

open Binary

namespace Simd

-- a register is its bytes, the lowest first
abbrev Reg := Nat → UInt8

def bit (x : Nat → UInt8) (i : Nat) : Bool := (x (i / 8)).toNat.testBit (i % 8)

def byteOf (f : Nat → Bool) : UInt8 := UInt8.ofNat (natOf 8 f)

section Bits

theorem testBit_byteOf (f : Nat → Bool) {k : Nat} (hk : k < 8) :
    (byteOf f).toNat.testBit k = f k := by
  rw [byteOf, UInt8.toNat_ofNat', Nat.mod_eq_of_lt (natOf_lt 8 f), testBit_natOf, decide_eq_true hk,
    Bool.true_and]

theorem byte_eq {x y : UInt8} (h : ∀ k < 8, x.toNat.testBit k = y.toNat.testBit k) : x = y := by
  apply UInt8.toNat_inj.mp
  rw [← Nat.mod_eq_of_lt x.toNat_lt, ← Nat.mod_eq_of_lt y.toNat_lt, ← natOf_testBit,
    ← natOf_testBit]
  exact natOf_congr h

theorem bit_at (x : Nat → UInt8) (p : Nat) {k : Nat} (hk : k < 8) :
    bit x (8 * p + k) = (x p).toNat.testBit k := by
  have hplace : (8 * p + k) / 8 = p := by omega
  rw [bit, hplace, Nat.mul_add_mod, Nat.mod_eq_of_lt hk]

theorem testBit_ofNat (v : Nat) {k : Nat} (hk : k < 8) :
    (UInt8.ofNat v).toNat.testBit k = v.testBit k := by
  rw [UInt8.toNat_ofNat', Nat.testBit_mod_two_pow, decide_eq_true hk, Bool.true_and]

end Bits

section Moves

variable {α β : Type}

def unpack (w : Nat) (high : Bool) (a b : Nat → α) : Nat → α := fun p =>
  (if p % 16 / w % 2 = 0 then a else b)
    (p / 16 * 16 + ((if high then 8 else 0) + p % 16 / (2 * w) * w + p % 16 % w))

def shuffleI64x2 (a b : Nat → α) (imm : Nat) : Nat → α := fun p =>
  (if p / 16 < 2 then a else b) (16 * (imm >>> (2 * (p / 16)) % 4) + p % 16)

-- bit 6 of an index is the operand
def permutex2varEpi8 (a : Nat → α) (idx : Nat → UInt8) (b : Nat → α) : Nat → α := fun p =>
  (if (idx p).toNat / 64 % 2 = 0 then a else b) ((idx p).toNat % 64)

def inserti32x4 (a b : Nat → α) (lane : Nat) : Nat → α := fun p =>
  if p / 16 = lane then b (p % 16) else a p

-- the bytes above the lowest lane are whatever the wider register held
def castsi128Si512 (held a : Nat → α) : Nat → α := fun p => if p < 16 then a p else held p

def extracti128 (a : Nat → α) (lane : Nat) : Nat → α := fun p => a (16 * lane + p)

theorem unpack_comp (g : α → β) (w : Nat) (high : Bool) (a b : Nat → α) :
    unpack w high (g ∘ a) (g ∘ b) = g ∘ unpack w high a b := by
  funext p
  simp only [unpack, Function.comp]
  split <;> rfl

theorem shuffleI64x2_comp (g : α → β) (a b : Nat → α) (imm : Nat) :
    shuffleI64x2 (g ∘ a) (g ∘ b) imm = g ∘ shuffleI64x2 a b imm := by
  funext p
  simp only [shuffleI64x2, Function.comp]
  split <;> rfl

-- a network that only moves bytes, seen on the places they come from
theorem moved_at (network : ∀ γ : Type, (Nat → Nat → γ) → Nat → Nat → γ)
    (hcomp : ∀ (γ δ : Type) (g : γ → δ) (r : Nat → Nat → γ),
      network δ (fun j => g ∘ r j) = fun j => g ∘ network γ r j) (r : Nat → Nat → α) (j p : Nat) :
    network α r j p = r (network (Nat × Nat) Prod.mk j p).1 (network (Nat × Nat) Prod.mk j p).2 :=
  congrFun (congrFun (hcomp (Nat × Nat) α (fun q => r q.1 q.2) Prod.mk) j) p

end Moves

section Instructions

def quadword (x : Reg) (j : Nat) : BitVec 64 := vecOf 64 fun i => bit x (64 * j + i)

def ofQuadwords (f : Nat → BitVec 64) : Reg := fun p =>
  byteOf fun k => (f (p / 8)).getLsbD (8 * (p % 8) + k)

def slliEpi64 (x : Reg) (k : Nat) : Reg := ofQuadwords fun j => quadword x j <<< k

def movemask (n : Nat) (x : Reg) : Nat := natOf n fun p => bit x (8 * p + 7)

def set1Epi64 (v : BitVec 64) : Reg := ofQuadwords fun _ => v

def parity (v : Nat) : Bool := (List.range 8).foldl (fun s k => s ^^ v.testBit k) false

-- bit `i` of a byte is the parity of the byte and byte `7 - i` of the matrix in its quadword
def gf2p8affineEpi64Epi8 (x a : Reg) (imm : Nat) : Reg := fun p =>
  byteOf fun i => parity ((a (8 * (p / 8) + (7 - i)) &&& x p).toNat) ^^ imm.testBit i

theorem getLsbD_quadword (x : Reg) (j : Nat) {i : Nat} (hi : i < 64) :
    (quadword x j).getLsbD i = bit x (64 * j + i) := by
  rw [quadword, getLsbD_vecOf_of_lt _ hi]

theorem bit_ofQuadwords (f : Nat → BitVec 64) (i : Nat) :
    bit (ofQuadwords f) i = (f (i / 64)).getLsbD (i % 64) := by
  have hword : i / 8 / 8 = i / 64 := by omega
  have hplace : 8 * (i / 8 % 8) + i % 8 = i % 64 := by omega
  rw [bit, ofQuadwords, testBit_byteOf _ (Nat.mod_lt i (by decide)), hword, hplace]

theorem bit_slliEpi64 (x : Reg) (k i : Nat) :
    bit (slliEpi64 x k) i = (decide (k ≤ i % 64) && bit x (i - k)) := by
  have hlt : i % 64 < 64 := Nat.mod_lt i (by decide)
  rw [slliEpi64, bit_ofQuadwords, BitVec.getLsbD_shiftLeft, decide_eq_true hlt, Bool.true_and]
  by_cases hk : k ≤ i % 64
  · have hsource : 64 * (i / 64) + (i % 64 - k) = i - k := by omega
    rw [getLsbD_quadword x _ (by omega), hsource, decide_eq_false (by omega), decide_eq_true hk,
      Bool.not_false]
  · rw [decide_eq_true (by omega), decide_eq_false hk, Bool.not_true, Bool.false_and,
      Bool.false_and]

theorem testBit_movemask (n : Nat) (x : Reg) {p : Nat} (hp : p < n) :
    (movemask n x).testBit p = bit x (8 * p + 7) := by
  rw [movemask, testBit_natOf, decide_eq_true hp, Bool.true_and]

theorem parity_single {v b : Nat} {x : Bool} (hb : b < 8)
    (hv : ∀ k < 8, v.testBit k = (decide (k = b) && x)) : parity v = x := by
  simp only [parity, List.range, List.range.loop, List.foldl_cons, List.foldl_nil]
  rw [hv 0 (by decide), hv 1 (by decide), hv 2 (by decide), hv 3 (by decide), hv 4 (by decide),
    hv 5 (by decide), hv 6 (by decide), hv 7 (by decide)]
  interval_cases b <;> cases x <;> rfl

theorem identity_getLsbD : ∀ b < 8, ∀ k < 8,
    (0x8040201008040201#64).getLsbD (8 * b + k) = decide (k = b) := by
  decide

-- with the data as the matrix, the identity's bytes pick its bits: rows and columns change places
theorem bit_affine_identity (a : Reg) (u : Nat) {b i : Nat} (hb : b < 8) (hi : i < 8) :
    bit (gf2p8affineEpi64Epi8 (set1Epi64 0x8040201008040201#64) a 0) (8 * (8 * u + b) + i) =
      bit a (8 * (8 * u + (7 - i)) + b) := by
  have hword : (8 * u + b) / 8 = u := by omega
  rw [bit_at _ _ hi, gf2p8affineEpi64Epi8, testBit_byteOf _ hi, Nat.zero_testBit, Bool.xor_false,
    hword, bit_at _ _ hb]
  refine parity_single hb fun k hk => ?_
  have hplace : (8 * (8 * u + b) + k) % 64 = 8 * b + k := by omega
  rw [UInt8.toNat_and, Nat.testBit_and, ← bit_at (set1Epi64 _) _ hk, set1Epi64, bit_ofQuadwords,
    hplace, identity_getLsbD b hb k hk, Bool.and_comm]
  by_cases hkb : k = b
  · rw [hkb]
  · rw [decide_eq_false hkb, Bool.false_and, Bool.false_and]

end Instructions

section DeltaSwap

variable {w : Nat}

def deltaSwap (x mask : BitVec w) (s : Nat) : BitVec w :=
  let t := (x ^^^ (x >>> s)) &&& mask
  x ^^^ t ^^^ (t <<< s)

def deltaSource (mask : BitVec w) (s i : Nat) : Nat :=
  if mask.getLsbD i then i + s else if s ≤ i ∧ mask.getLsbD (i - s) then i - s else i

theorem getLsbD_deltaSwap (x : BitVec w) {mask : BitVec w} {s i : Nat} (hi : i < w)
    (hmask : ∀ j < w, mask.getLsbD j → mask.getLsbD (j + s) = false) :
    (deltaSwap x mask s).getLsbD i = x.getLsbD (deltaSource mask s i) := by
  rw [deltaSwap, BitVec.getLsbD_xor, BitVec.getLsbD_xor, BitVec.getLsbD_shiftLeft,
    decide_eq_true hi, Bool.true_and, deltaSource]
  simp only [BitVec.getLsbD_and, BitVec.getLsbD_xor, BitVec.getLsbD_ushiftRight]
  by_cases hlow : s ≤ i
  · have hsum : s + (i - s) = i := by omega
    rw [decide_eq_false (Nat.not_lt.mpr hlow), Bool.not_false, Bool.true_and, hsum]
    cases hhigh : mask.getLsbD (i - s) with
    | true =>
      have hfree := hmask (i - s) (by omega) hhigh
      rw [Nat.sub_add_cancel hlow] at hfree
      rw [hfree]
      cases x.getLsbD i <;> simp [hlow]
    | false =>
      cases mask.getLsbD i <;> simp [Nat.add_comm]
  · rw [decide_eq_true (Nat.lt_of_not_le hlow), Bool.not_true, Bool.false_and]
    cases mask.getLsbD i <;> simp [hlow, Nat.add_comm]

end DeltaSwap

section Network

def unpackRound (d : Nat) (x : Nat → Reg) : Nat → Reg := fun r =>
  unpack d (r % 2 = 1) (x (2 * d * (r / (2 * d)) + r % (2 * d) / 2))
    (x (2 * d * (r / (2 * d)) + r % (2 * d) / 2 + d))

def roundSource (d : Nat) (r : Nat × Nat) : Nat × Nat :=
  (2 * d * (r.1 / (2 * d)) + r.1 % (2 * d) / 2 + (if r.2 / d % 2 = 0 then 0 else d),
    (if r.1 % 2 = 1 then 8 else 0) + r.2 / (2 * d) * d + r.2 % d)

theorem unpackRound_at (d : Nat) (x : Nat → Reg) (r : Nat) {q : Nat} (hq : q < 16) (l : Nat) :
    unpackRound d x r (16 * l + q) =
      x (roundSource d (r, q)).1 (16 * l + (roundSource d (r, q)).2) := by
  have hlane : (16 * l + q) / 16 * 16 = 16 * l := by omega
  have hplace : (16 * l + q) % 16 = q := by omega
  rw [unpackRound, unpack, hlane, hplace, roundSource]
  simp only [decide_eq_true_eq]
  split
  case isTrue _ => rw [Nat.add_zero]
  case isFalse _ => rfl

def transpose16 (m : Nat → Reg) : Nat → Reg :=
  let t := unpackRound 1 m
  let u := unpackRound 2 t
  let v := unpackRound 4 u
  unpackRound 8 v

theorem roundSource_lt {d : Nat} (hd : d = 1 ∨ d = 2 ∨ d = 4 ∨ d = 8) :
    ∀ r < 16, ∀ q < 16, (roundSource d (r, q)).1 < 16 ∧ (roundSource d (r, q)).2 < 16 := by
  rcases hd with rfl | rfl | rfl | rfl <;> decide

theorem roundSource_transposes : ∀ r < 16, ∀ q < 16,
    roundSource 1 (roundSource 2 (roundSource 4 (roundSource 8 (r, q)))) = (q, r) := by
  decide

theorem transpose16_at (m : Nat → Reg) {r q : Nat} (hr : r < 16) (hq : q < 16) (l : Nat) :
    transpose16 m r (16 * l + q) = m q (16 * l + r) := by
  obtain ⟨hr₈, hq₈⟩ := @roundSource_lt 8 (by decide) r hr q hq
  obtain ⟨hr₄, hq₄⟩ := @roundSource_lt 4 (by decide) _ hr₈ _ hq₈
  obtain ⟨hr₂, hq₂⟩ := @roundSource_lt 2 (by decide) _ hr₄ _ hq₄
  have hall := roundSource_transposes r hr q hq
  rw [transpose16, unpackRound_at 8 _ r hq, unpackRound_at 4 _ _ hq₈, unpackRound_at 2 _ _ hq₄,
    unpackRound_at 1 _ _ hq₂]
  show m (roundSource 1 (roundSource 2 (roundSource 4 (roundSource 8 (r, q))))).1
    (16 * l + (roundSource 1 (roundSource 2 (roundSource 4 (roundSource 8 (r, q))))).2) = _
  rw [hall]

end Network

end Simd
