import EmpTool.Circuits.UnsignedInt
import Mathlib.Data.Nat.Size

namespace EmpTool.Circuits

open Binary Kernel
open EmpTool.Ir (GateOps clearCtx)

section Operators

variable {Wire : Type} [Inhabited Wire] {n : Nat} (c : GateOps Wire)

namespace UIntT

def popcount (R : Nat) (x : UIntT Wire n) : UIntT Wire R :=
  (List.range n).foldl (fun acc i => add c acc ((constant c 0).set 0 (x.wire i))) (constant c 0)

-- the result width is a constant expression, so an undefined shift in it does not compile
def hammingWeight (x : UIntT Wire n) : Except String (Σ R, UIntT Wire R) := do
  let R ← bitsFor n
  pure ⟨R, popcount c R x⟩

def smear (x : UIntT Wire n) : UIntT Wire n :=
  (List.range (n - 1)).foldr
    (fun i sat => sat.set i (orGate c (sat.wire (i + 1)) (sat.wire i))) x

def leadingZeros (x : UIntT Wire n) : Except String (Σ R, UIntT Wire R) :=
  let sat := smear c x
  hammingWeight c (Word.fill fun i => c.notGate (sat.wire i) : UIntT Wire n)

def Runtime.hammingWeight (x : RuntimeWord Wire) : Except String (RuntimeWord Wire) := do
  let width ← bitsFor x.width
  let acc ← constant c width 0
  (List.range x.width).foldlM (fun acc i => do
    let b ← constant c width 0
    add c acc (b.set 0 (x.word.wire i))) acc

end UIntT

end Operators

section BitsFor

theorem bitsForFrom_ok {n : Nat} (hn : n < 2 ^ 30) (left : Nat) (hl : left < 30) :
    ∃ R, bitsForFrom n (left + 2) = .ok R ∧ n < 2 ^ R ∧ 29 - left < R := by
  induction left with
  | zero =>
    refine ⟨30, ?_, hn, by omega⟩
    have hbit : ¬intBit (31 - (0 + 1)) ≤ n := by
      have : intBit (31 - (0 + 1)) = 2 ^ 30 := rfl
      omega
    rw [bitsForFrom, if_neg hbit]
  | succ left ih =>
    rw [bitsForFrom]
    split
    case isTrue _ =>
      obtain ⟨R, hR, hlt, hle⟩ := ih (by omega)
      exact ⟨R, hR, hlt, by omega⟩
    case isFalse hbit =>
      refine ⟨_, rfl, ?_, by omega⟩
      rw [intBit, if_neg (by omega)] at hbit
      exact_mod_cast Int.not_le.mp hbit

theorem bitsFor_ok {n : Nat} (hn : n < 2 ^ 30) : ∃ R, bitsFor n = .ok R ∧ n < 2 ^ R ∧ 1 ≤ R := by
  obtain ⟨R, hR, hlt, hle⟩ := bitsForFrom_ok hn 29 (by decide)
  exact ⟨R, hR, hlt, by omega⟩

-- `1 << 31` is negative, so no shift count below the width of `int` ends the loop
theorem bitsForFrom_error {n : Nat} (hn : 2 ^ 30 ≤ n) (left : Nat) (hl : left ≤ 31) :
    bitsForFrom n left = .error "shift count out of range" := by
  induction left with
  | zero => rfl
  | succ left ih =>
    have hbit : intBit (31 - left) ≤ n := by
      unfold intBit
      split
      case isTrue _ => omega
      case isFalse hne =>
        have hle : 2 ^ (31 - left) ≤ 2 ^ 30 := Nat.pow_le_pow_right (by decide) (by omega)
        exact_mod_cast Nat.le_trans hle hn
    rw [bitsForFrom, if_pos hbit]
    exact ih (by omega)

theorem bitsFor_error {n : Nat} (hn : 2 ^ 30 ≤ n) :
    bitsFor n = .error "shift count out of range" := bitsForFrom_error hn 31 (by decide)

end BitsFor

section Numbers

def bitCount (n v : Nat) : Nat := (List.range n).countP v.testBit

def zeroRun (n v : Nat) : Nat := if v = 0 then n else n - 1 - v.log2

theorem bitCount_le (n v : Nat) : bitCount n v ≤ n := by
  calc (List.range n).countP v.testBit ≤ (List.range n).length := List.countP_le_length
    _ = n := List.length_range

theorem countP_le_range (s n : Nat) : (List.range n).countP (fun i => decide (s ≤ i)) = n - s := by
  induction n with
  | zero => rw [Nat.zero_sub]; rfl
  | succ n ih =>
    rw [List.range_succ, List.countP_append, ih, List.countP_singleton]
    by_cases hs : s ≤ n
    · rw [decide_eq_true hs, if_pos rfl]
      omega
    · rw [decide_eq_false hs, if_neg Bool.false_ne_true]
      omega

theorem zeroRun_eq (n v : Nat) : zeroRun n v = n - v.size := by
  unfold zeroRun
  split
  case isTrue h => rw [h, Nat.size_zero, Nat.sub_zero]
  case isFalse h =>
    have hsize : v.size = v.log2 + 1 := by
      apply Nat.le_antisymm
      · exact Nat.size_le.mpr Nat.lt_log2_self
      · exact Nat.lt_size.mpr (Nat.log2_self_le h)
    omega

theorem countP_below_eq_zeroRun (n v : Nat) :
    (List.range n).countP (fun i => !decide (2 ^ i ≤ v)) = zeroRun n v := by
  rw [zeroRun_eq, ← countP_le_range]
  apply List.countP_congr
  intro i _
  rw [Bool.not_eq_true', decide_eq_false_iff_not, decide_eq_true_iff, Nat.not_le, Nat.size_le]

end Numbers

variable {Wire : Type} [Inhabited Wire] {n R : Nat} (c : PlainContext Wire)

namespace UIntT

theorem toNat_addend (hR : 1 ≤ R) (a : Wire) :
    (((constant c.toGateOps 0 : UIntT Wire R).set 0 a).toNat c) = (c.value a).toNat := by
  obtain ⟨r, rfl⟩ : ∃ r, R = r + 1 := ⟨R - 1, by omega⟩
  have hzero : (constant c.toGateOps 0 : UIntT Wire (r + 1)).toNat c = 0 := by
    rw [toNat_constant]
    exact Nat.zero_mod _
  have hrest (i : Nat) (hi : i < r) :
      c.value (((constant c.toGateOps 0 : UIntT Wire (r + 1)).set 0 a).wire (i + 1)) = false := by
    rw [Word.wire_set _ _ _ (by omega), if_neg (by omega), Word.value_wire_testBit c _ (by omega),
      hzero, Nat.zero_testBit]
  rw [Word.toNat, PlainContext.num, natOf_succ, natOf_congr hrest, natOf_false, Nat.mul_zero,
    Nat.add_zero, Word.wire_set _ _ _ (by omega), if_pos rfl]

theorem toNat_popcount (hR : 1 ≤ R) (x : UIntT Wire n) :
    (popcount c.toGateOps R x).toNat c = bitCount n (x.toNat c) % 2 ^ R := by
  have upto (k : Nat) (hk : k ≤ n) :
      ((List.range k).foldl (fun acc i => add c.toGateOps acc
        ((constant c.toGateOps 0 : UIntT Wire R).set 0 (x.wire i)))
        (constant c.toGateOps 0)).toNat c = bitCount k (x.toNat c) % 2 ^ R := by
    induction k with
    | zero => exact toNat_constant c 0
    | succ k ih =>
      rw [List.range_succ, List.foldl_append, List.foldl_cons, List.foldl_nil, add,
        Word.toNat_add, ih (by omega), toNat_addend c hR, Nat.mod_add_mod,
        Word.value_wire_testBit c x (by omega), bitCount, bitCount, List.range_succ,
        List.countP_append, List.countP_singleton]
      cases (x.toNat c).testBit k <;> rfl
  exact upto n le_rfl

theorem value_smear (x : UIntT Wire n) {i : Nat} (hi : i < n) :
    c.value ((smear c.toGateOps x).wire i) = decide (2 ^ i ≤ x.toNat c) := by
  have downFrom (m : Nat) (hm : m < n) (s : UIntT Wire n)
      (hdone : ∀ i, m ≤ i → i < n → c.value (s.wire i) = decide (2 ^ i ≤ x.toNat c))
      (hrest : ∀ i < m, s.wire i = x.wire i) : ∀ i < n, c.value (((List.range m).foldr
        (fun i sat => sat.set i (orGate c.toGateOps (sat.wire (i + 1)) (sat.wire i))) s).wire i) =
          decide (2 ^ i ≤ x.toNat c) := by
    induction m generalizing s with
    | zero => exact fun i hi => hdone i (Nat.zero_le i) hi
    | succ m ih =>
      rw [List.range_succ, List.foldr_append, List.foldr_cons, List.foldr_nil]
      refine ih (by omega) _ (fun i hmi hi => ?_) (fun i him => ?_)
      · rw [Word.wire_set _ _ _ hi]
        split
        case isTrue hmi =>
          subst hmi
          rw [value_orGate, hdone (m + 1) le_rfl hm, hrest m (Nat.lt_succ_self m),
            Word.value_wire_testBit c x hi, Bool.eq_iff_iff, Bool.or_eq_true, decide_eq_true_iff,
            decide_eq_true_iff]
          exact (two_pow_le_iff _ _).symm
        case isFalse hne => exact hdone i (by omega) hi
      · rw [Word.wire_set _ _ _ (by omega), if_neg (by omega)]
        exact hrest i (by omega)
  refine downFrom (n - 1) (by omega) x (fun i hle hlt => ?_) (fun i _ => rfl) i hi
  obtain rfl : i = n - 1 := by omega
  have hbound : ¬2 ^ (n - 1 + 1) ≤ x.toNat c := by
    rw [Nat.sub_add_cancel (by omega)]
    exact Nat.not_le.mpr (x.toNat_lt c)
  rw [Word.value_wire_testBit c x hlt, Bool.eq_iff_iff, decide_eq_true_iff, two_pow_le_iff]
  exact (or_iff_right hbound).symm

theorem bitCount_unsmeared (x : UIntT Wire n) :
    bitCount n ((Word.fill fun i => c.notGate ((smear c.toGateOps x).wire i) :
      UIntT Wire n).toNat c) = zeroRun n (x.toNat c) := by
  rw [bitCount, ← countP_below_eq_zeroRun]
  apply List.countP_congr
  intro i hi
  have hin := List.mem_range.mp hi
  rw [← Word.value_wire_testBit c _ hin, Word.wire_fill _ hin, c.value_notGate, value_smear c x hin]

theorem hammingWeight_ok {x : UIntT Wire n} (hn : n < 2 ^ 30) :
    ∃ R r, bitsFor n = .ok R ∧ n < 2 ^ R ∧ hammingWeight c.toGateOps x = .ok ⟨R, r⟩ ∧
      r.toNat c = bitCount n (x.toNat c) := by
  obtain ⟨R, hR, hlt, hpos⟩ := bitsFor_ok hn
  refine ⟨R, popcount c.toGateOps R x, hR, hlt, by rw [hammingWeight, hR]; rfl, ?_⟩
  rw [toNat_popcount c hpos]
  exact Nat.mod_eq_of_lt (Nat.lt_of_le_of_lt (bitCount_le n _) hlt)

theorem runtime_hammingWeight_eq {x : RuntimeWord Wire} (hR : bitsFor x.width = .ok R)
    (hpos : 1 ≤ R) :
    Runtime.hammingWeight c.toGateOps x = .ok ⟨R, hpos, popcount c.toGateOps R x.word⟩ := by
  have hconst : Runtime.constant c.toGateOps R 0 = .ok ⟨R, hpos, constant c.toGateOps 0⟩ :=
    RuntimeWord.construct_eq _ hpos _
  let body (acc : RuntimeWord Wire) (i : Nat) : Except String (RuntimeWord Wire) := do
    let b ← Runtime.constant c.toGateOps R 0
    Runtime.add c.toGateOps acc (b.set 0 (x.word.wire i))
  have step (acc : UIntT Wire R) (i : Nat) : body ⟨R, hpos, acc⟩ i =
      .ok ⟨R, hpos, add c.toGateOps acc ((constant c.toGateOps 0).set 0 (x.word.wire i))⟩ :=
    bind_eq_ok.mpr ⟨_, hconst, RuntimeWord.binary_eq _ _ hpos _ _⟩
  have upto (l : List Nat) (acc : UIntT Wire R) : l.foldlM body ⟨R, hpos, acc⟩ =
      .ok ⟨R, hpos, l.foldl (fun acc i => add c.toGateOps acc
        ((constant c.toGateOps 0).set 0 (x.word.wire i))) acc⟩ := by
    induction l generalizing acc with
    | nil => rfl
    | cons i l ih =>
      rw [List.foldlM_cons, step]
      exact ih _
  calc Runtime.hammingWeight c.toGateOps x
      = Runtime.constant c.toGateOps R 0 >>= fun acc => (List.range x.width).foldlM body acc := by
        rw [Runtime.hammingWeight, hR]
        rfl
    _ = (List.range x.width).foldlM body ⟨R, hpos, constant c.toGateOps 0⟩ := by
        rw [hconst]
        rfl
    _ = _ := upto _ _

theorem hammingWeight_error (x : RuntimeWord Wire) (hw : 2 ^ 30 ≤ x.width) :
    hammingWeight c.toGateOps x.word = .error "shift count out of range" ∧
      leadingZeros c.toGateOps x.word = .error "shift count out of range" ∧
        Runtime.hammingWeight c.toGateOps x = .error "shift count out of range" := by
  have hbits := bitsFor_error hw
  refine ⟨?_, ?_, ?_⟩
  · rw [hammingWeight, hbits]
    rfl
  · rw [leadingZeros, hammingWeight, hbits]
    rfl
  · rw [Runtime.hammingWeight, hbits]
    rfl

end UIntT

structure BitCountsExact (x : RuntimeWord Wire) : Prop where
  popcount : ∀ R, 1 ≤ R →
    (UIntT.popcount c.toGateOps R x.word).toNat c = bitCount x.width (x.word.toNat c) % 2 ^ R
  hammingWeight : ∃ R r, bitsFor x.width = .ok R ∧ x.width < 2 ^ R ∧
    UIntT.hammingWeight c.toGateOps x.word = .ok ⟨R, r⟩ ∧
      r.toNat c = bitCount x.width (x.word.toNat c)
  leadingZeros : ∃ R r, UIntT.leadingZeros c.toGateOps x.word = .ok ⟨R, r⟩ ∧
    r.toNat c = zeroRun x.width (x.word.toNat c)
  runtime : ∃ r, bitsFor x.width = .ok r.width ∧
    UIntT.Runtime.hammingWeight c.toGateOps x = .ok r ∧
      r.word.toNat c = bitCount x.width (x.word.toNat c)

theorem bit_counts_exact_iff :
    (∀ (n R : Nat) (x : UIntT Wire n), 1 ≤ R →
      (UIntT.popcount c.toGateOps R x).toNat c = bitCount n (x.toNat c) % 2 ^ R) ∧
    ∀ x : RuntimeWord Wire, BitCountsExact c x ↔ x.width < 2 ^ 30 := by
  refine ⟨fun n R x hR => UIntT.toNat_popcount c hR x, fun x => ⟨fun h => ?_, fun hw => ?_⟩⟩
  · by_contra hw
    obtain ⟨R, r, -, -, hr, -⟩ := h.hammingWeight
    rw [(UIntT.hammingWeight_error c x (by omega)).1] at hr
    exact nomatch hr
  · obtain ⟨R, hR, hlt, hpos⟩ := bitsFor_ok hw
    have hcount := UIntT.toNat_popcount c hpos x.word
    rw [Nat.mod_eq_of_lt (Nat.lt_of_le_of_lt (bitCount_le _ _) hlt)] at hcount
    refine ⟨fun R hR => UIntT.toNat_popcount c hR x.word, UIntT.hammingWeight_ok c hw, ?_, ?_⟩
    · obtain ⟨R, r, -, -, hr, hv⟩ := UIntT.hammingWeight_ok c (x := Word.fill fun i =>
        c.notGate ((UIntT.smear c.toGateOps x.word).wire i)) hw
      exact ⟨R, r, hr, hv.trans (UIntT.bitCount_unsmeared c x.word)⟩
    · exact ⟨_, hR, UIntT.runtime_hammingWeight_eq c hR hpos, hcount⟩

theorem bit_counts_exact_iff_nibble :
    (UIntT.popcount clearCtx 1 (nibble 13).word).toNat clearContext = 1 ∧
      BitCountsExact clearContext (nibble 13) := by
  have h := (bit_counts_exact_iff clearContext).1 4 1 (nibble 13).word le_rfl
  exact ⟨h.trans (by decide), ((bit_counts_exact_iff clearContext).2 (nibble 13)).mpr (by decide)⟩

theorem bit_counts_of_wide_word :
    ∃ x : RuntimeWord UInt8, x.width = 2 ^ 30 ∧
      UIntT.Runtime.hammingWeight clearCtx x = .error "shift count out of range" ∧
        ¬BitCountsExact clearContext x := by
  let x : RuntimeWord UInt8 := ⟨2 ^ 30, by decide, Word.fill fun _ => 1⟩
  have herror := (UIntT.hammingWeight_error clearContext x le_rfl).2.2
  refine ⟨x, rfl, herror, fun h => ?_⟩
  obtain ⟨r, -, hr, -⟩ := h.runtime
  exact nomatch herror.symm.trans hr

end EmpTool.Circuits
