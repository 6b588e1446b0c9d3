import EmpTool.Circuits.UnsignedInt

namespace EmpTool.Circuits

open Arrays Kernel
open EmpTool.Ir (GateOps clearCtx)

namespace IntT

section Operators

variable {Wire : Type} [Inhabited Wire] {n : Nat} (c : GateOps Wire)

def constant (v : Int64) : IntT Wire n :=
  Word.fill fun i => c.publicBit (bitOfWord v.toUInt64 (if i < 64 then i else 63))

def add (a b : IntT Wire n) : IntT Wire n := Word.add c a b

def sub (a b : IntT Wire n) : IntT Wire n := Word.sub c a b

def mul (a b : IntT Wire n) : IntT Wire n := Word.mul c a b

def zeros : IntT Wire n := Word.fill fun _ => c.publicBit false

def neg (a : IntT Wire n) : IntT Wire n := sub c (zeros c) a

def select (x : IntT Wire n) (sel : Wire) (t : IntT Wire n) : IntT Wire n :=
  Word.select c x sel t

def signBit (a : IntT Wire n) : Wire := a.wire (n - 1)

def lt (a b : IntT Wire n) : Wire :=
  let ub := lessThan c a.wire b.wire n
  let sa := signBit a
  let sb := signBit b
  let diff := c.xorGate sa sb
  mux c diff sa ub

def gt (a b : IntT Wire n) : Wire := lt c b a

def le (a b : IntT Wire n) : Wire := c.notGate (gt c a b)

def ge (a b : IntT Wire n) : Wire := c.notGate (lt c a b)

def magnitude (a : IntT Wire n) : IntT Wire n := select c a (signBit a) (neg c a)

def div (a b : IntT Wire n) : IntT Wire n :=
  let uq := Word.divQuot c (magnitude c a) (magnitude c b)
  select c uq (c.xorGate (signBit a) (signBit b)) (neg c uq)

def mod (a b : IntT Wire n) : IntT Wire n :=
  let ur := Word.divRem c (magnitude c a) (magnitude c b)
  select c ur (signBit a) (neg c ur)

namespace Runtime

def widths : String := "Int_T: operands have different runtime widths"

def constant (width : Int) (v : Int64) : Except String (RuntimeWord Wire) :=
  RuntimeWord.construct "Int_T: runtime width must be >= 1" width fun _ => IntT.constant c v

def div (a b : RuntimeWord Wire) : Except String (RuntimeWord Wire) :=
  RuntimeWord.binary widths (fun _ => IntT.div c) a b

def mod (a b : RuntimeWord Wire) : Except String (RuntimeWord Wire) :=
  RuntimeWord.binary widths (fun _ => IntT.mod c) a b

def lt (a b : RuntimeWord Wire) : Except String Wire :=
  RuntimeWord.compare widths (fun _ => IntT.lt c) a b

def gt (a b : RuntimeWord Wire) : Except String Wire := lt c b a

def le (a b : RuntimeWord Wire) : Except String Wire := c.notGate <$> gt c a b

def ge (a b : RuntimeWord Wire) : Except String Wire := c.notGate <$> lt c a b

def select (x : RuntimeWord Wire) (sel : Wire) (t : RuntimeWord Wire) :
    Except String (RuntimeWord Wire) :=
  RuntimeWord.binary widths (fun _ x t => IntT.select c x sel t) x t

end Runtime

end Operators

variable {Wire : Type} [Inhabited Wire] {n : Nat} (c : PlainContext Wire)

theorem value_signBit (hn : 0 < n) (a : IntT Wire n) :
    c.value (signBit a) = (a.toBitVec c).msb := by
  rw [signBit, BitVec.msb_eq_getLsbD_last, Word.value_wire c a (by omega)]

@[simp] theorem toBitVec_neg (a : IntT Wire n) :
    (neg c.toGateOps a).toBitVec c = -a.toBitVec c := by
  have hzero : (zeros c.toGateOps : IntT Wire n).toBitVec c = 0#n := by
    apply Word.toBitVec_eq_of_wires
    intro i hi
    rw [zeros, Word.wire_fill _ hi, c.value_publicBit, BitVec.getLsbD_zero]
  rw [neg, sub, Word.toBitVec_sub, hzero, BitVec.zero_sub]

theorem toBitVec_magnitude (hn : 0 < n) (a : IntT Wire n) :
    (magnitude c.toGateOps a).toBitVec c =
      if (a.toBitVec c).msb then -a.toBitVec c else a.toBitVec c := by
  rw [magnitude, select, Word.toBitVec_select, value_signBit c hn, toBitVec_neg]

theorem toBitVec_div (hn : 0 < n) (a b : IntT Wire n) :
    (div c.toGateOps a b).toBitVec c = (a.toBitVec c).smtSDiv (b.toBitVec c) := by
  rw [div, select, Word.toBitVec_select, toBitVec_neg, Word.toBitVec_divQuot,
    toBitVec_magnitude c hn, toBitVec_magnitude c hn, c.value_xorGate, value_signBit c hn,
    value_signBit c hn, BitVec.smtSDiv_eq]
  cases (a.toBitVec c).msb <;> cases (b.toBitVec c).msb <;> rfl

theorem toBitVec_mod (hn : 0 < n) (a b : IntT Wire n) :
    (mod c.toGateOps a b).toBitVec c = (a.toBitVec c).srem (b.toBitVec c) := by
  rw [mod, select, Word.toBitVec_select, toBitVec_neg, Word.toBitVec_divRem,
    toBitVec_magnitude c hn, toBitVec_magnitude c hn, value_signBit c hn, BitVec.srem_eq]
  cases (a.toBitVec c).msb <;> cases (b.toBitVec c).msb <;> rfl

theorem value_lt (hn : 0 < n) (a b : IntT Wire n) :
    c.value (lt c.toGateOps a b) = decide (a.toInt c < b.toInt c) := by
  have hult : c.value (lessThan c.toGateOps a.wire b.wire n) = (a.toBitVec c).ult (b.toBitVec c) := by
    rw [BitVec.ult_eq_decide, Word.toNat_toBitVec, Word.toNat_toBitVec]
    exact lessThan_value c _ _ hn
  have hslt : decide (a.toInt c < b.toInt c) = (a.toBitVec c).slt (b.toBitVec c) := rfl
  rw [lt, value_mux, hult, c.value_xorGate, value_signBit c hn, value_signBit c hn, hslt]
  by_cases hmsb : (a.toBitVec c).msb = (b.toBitVec c).msb
  · rw [hmsb, Bool.xor_self, if_neg Bool.false_ne_true, BitVec.slt_eq_ult_of_msb_eq hmsb]
  · rw [if_pos (Bool.xor_iff_ne.mpr hmsb), BitVec.slt_eq_not_ult_of_msb_neq hmsb,
      BitVec.ult_eq_msb_of_msb_neq hmsb, Bool.eq_not_of_ne hmsb]

end IntT

theorem smtUDiv_mul_add_umod {n : Nat} (x y : BitVec n) : x.smtUDiv y * y + x % y = x := by
  by_cases hy : y = 0#n
  · rw [hy, BitVec.mul_zero, BitVec.umod_zero, BitVec.zero_add]
  · apply BitVec.eq_of_toNat_eq
    rw [BitVec.smtUDiv_eq, if_neg hy, BitVec.toNat_add, BitVec.toNat_mul, BitVec.toNat_udiv,
      BitVec.toNat_umod, Nat.mod_add_mod, Nat.div_add_mod', Nat.mod_eq_of_lt x.isLt]

theorem smtSDiv_mul_add_srem {n : Nat} (x y : BitVec n) : x.smtSDiv y * y + x.srem y = x := by
  rw [BitVec.smtSDiv_eq, BitVec.srem_eq]
  cases x.msb <;> cases y.msb
  case false.false => exact smtUDiv_mul_add_umod x y
  case false.true =>
    show -(x.smtUDiv (-y)) * y + x % -y = x
    rw [BitVec.neg_mul, ← BitVec.mul_neg, smtUDiv_mul_add_umod]
  case true.false =>
    show -((-x).smtUDiv y) * y + -(-x % y) = x
    rw [BitVec.neg_mul, ← BitVec.sub_eq_add_neg, ← BitVec.neg_add, smtUDiv_mul_add_umod,
      BitVec.neg_neg]
  case true.true =>
    show (-x).smtUDiv (-y) * y + -(-x % -y) = x
    have h := smtUDiv_mul_add_umod (-x) (-y)
    rw [BitVec.mul_neg] at h
    calc (-x).smtUDiv (-y) * y + -(-x % -y)
        = -(-((-x).smtUDiv (-y) * y) + -x % -y) := by
          rw [BitVec.neg_add, BitVec.neg_neg, BitVec.sub_eq_add_neg]
      _ = x := by rw [h, BitVec.neg_neg]

theorem smtSDiv_of_ne_zero {n : Nat} {x y : BitVec n} (hy : y ≠ 0#n) : x.smtSDiv y = x.sdiv y := by
  have hny : -y ≠ 0#n := fun h => hy (BitVec.neg_eq_zero_iff.mp h)
  rw [BitVec.smtSDiv_eq, BitVec.sdiv_eq, BitVec.smtUDiv_eq, BitVec.smtUDiv_eq, BitVec.smtUDiv_eq,
    BitVec.smtUDiv_eq, if_neg hy, if_neg hny, if_neg hy, if_neg hny]
  rfl

structure SignedQuotRem (n : Nat) (a b q r : Int) : Prop where
  quotient : b ≠ 0 → ¬(a = -2 ^ (n - 1) ∧ b = -1) → q = a.tdiv b
  remainder : r = a.tmod b
  sign : (0 ≤ a → 0 ≤ r) ∧ (a ≤ 0 → r ≤ 0)
  identity : (q * b + r) % 2 ^ n = a % 2 ^ n

structure SignedOrder (a b : Int) (lt gt le ge : Bool) : Prop where
  lt : lt = decide (a < b)
  gt : gt = decide (a > b)
  le : le = decide (a ≤ b)
  ge : ge = decide (a ≥ b)

theorem signedQuotRem_bitVec {n : Nat} (hn : 0 < n) (x y : BitVec n) :
    SignedQuotRem n x.toInt y.toInt (x.smtSDiv y).toInt (x.srem y).toInt where
  quotient hy hxy := by
    have hy0 : y ≠ 0#n := fun h => hy (by rw [h, BitVec.toInt_zero])
    have hmin : x ≠ BitVec.intMin n ∨ y ≠ -1#n := by
      by_contra! h
      refine hxy ⟨?_, ?_⟩
      · rw [h.1, BitVec.toInt_intMin_of_pos hn]
      · rw [h.2, BitVec.neg_one_eq_allOnes, BitVec.toInt_allOnes, if_pos hn]
    rw [smtSDiv_of_ne_zero hy0, BitVec.toInt_sdiv_of_ne_or_ne x y hmin]
  remainder := BitVec.toInt_srem x y
  sign := by
    rw [BitVec.toInt_srem]
    refine ⟨Int.tmod_nonneg _, fun h => ?_⟩
    have := Int.tmod_nonneg y.toInt (a := -x.toInt) (by omega)
    rw [Int.neg_tmod] at this
    omega
  identity := by
    have h := congrArg BitVec.toInt (smtSDiv_mul_add_srem x y)
    rw [BitVec.toInt_add, BitVec.toInt_mul, Int.bmod_add_bmod] at h
    have hpow : ((2 ^ n : Nat) : Int) = 2 ^ n := Nat.cast_pow 2 n
    rw [← hpow, ← Int.bmod_emod, h]

variable {Wire : Type} [Inhabited Wire] (c : PlainContext Wire)

theorem signedQuotRem_word {n : Nat} (hn : 0 < n) (a b : IntT Wire n) :
    SignedQuotRem n (a.toInt c) (b.toInt c) ((IntT.div c.toGateOps a b).toInt c)
      ((IntT.mod c.toGateOps a b).toInt c) := by
  have h := signedQuotRem_bitVec hn (a.toBitVec c) (b.toBitVec c)
  rwa [← IntT.toBitVec_div c hn, ← IntT.toBitVec_mod c hn] at h

theorem signedOrder_word {n : Nat} (hn : 0 < n) (a b : IntT Wire n) :
    SignedOrder (a.toInt c) (b.toInt c) (c.value (IntT.lt c.toGateOps a b))
      (c.value (IntT.gt c.toGateOps a b)) (c.value (IntT.le c.toGateOps a b))
      (c.value (IntT.ge c.toGateOps a b)) where
  lt := IntT.value_lt c hn a b
  gt := IntT.value_lt c hn b a
  le := by
    rw [IntT.le, c.value_notGate, IntT.gt, IntT.value_lt c hn, ← decide_not]
    exact decide_eq_decide.mpr Int.not_lt
  ge := by
    rw [IntT.ge, c.value_notGate, IntT.value_lt c hn, ← decide_not]
    exact decide_eq_decide.mpr Int.not_lt

theorem signed_division_and_order :
    (∀ (n : Nat), 0 < n → ∀ a b : IntT Wire n,
      SignedQuotRem n (a.toInt c) (b.toInt c) ((IntT.div c.toGateOps a b).toInt c)
        ((IntT.mod c.toGateOps a b).toInt c) ∧
      SignedOrder (a.toInt c) (b.toInt c) (c.value (IntT.lt c.toGateOps a b))
        (c.value (IntT.gt c.toGateOps a b)) (c.value (IntT.le c.toGateOps a b))
        (c.value (IntT.ge c.toGateOps a b))) ∧
    ∀ a b : RuntimeWord Wire, a.width = b.width →
      (∃ q r : RuntimeWord Wire, IntT.Runtime.div c.toGateOps a b = .ok q ∧
        IntT.Runtime.mod c.toGateOps a b = .ok r ∧ q.width = a.width ∧ r.width = a.width ∧
        SignedQuotRem a.width (a.word.toInt c) (b.word.toInt c) (q.word.toInt c)
          (r.word.toInt c)) ∧
      ∃ lt gt le ge : Wire, IntT.Runtime.lt c.toGateOps a b = .ok lt ∧
        IntT.Runtime.gt c.toGateOps a b = .ok gt ∧ IntT.Runtime.le c.toGateOps a b = .ok le ∧
        IntT.Runtime.ge c.toGateOps a b = .ok ge ∧
        SignedOrder (a.word.toInt c) (b.word.toInt c) (c.value lt) (c.value gt) (c.value le)
          (c.value ge) := by
  constructor
  · intro n hn a b
    exact ⟨signedQuotRem_word c hn a b, signedOrder_word c hn a b⟩
  · rintro ⟨n, pos, a⟩ ⟨_, _, b⟩ rfl
    constructor
    · exact ⟨_, _, RuntimeWord.binary_eq _ _ pos a b, RuntimeWord.binary_eq _ _ pos a b, rfl, rfl,
        signedQuotRem_word c pos a b⟩
    · have hlt := RuntimeWord.compare_eq IntT.Runtime.widths (fun _ => IntT.lt c.toGateOps) pos a b
      have hgt := RuntimeWord.compare_eq IntT.Runtime.widths (fun _ => IntT.lt c.toGateOps) pos b a
      exact ⟨_, _, _, _, hlt, hgt, congrArg (c.notGate <$> ·) hgt, congrArg (c.notGate <$> ·) hlt,
        signedOrder_word c pos a b⟩

theorem signed_division_and_order_nibbles :
    (nibble 8).word.toInt clearContext = -8 ∧ (nibble 3).word.toInt clearContext = 3 ∧
      SignedQuotRem 4 ((nibble 8).word.toInt clearContext) ((nibble 3).word.toInt clearContext)
        ((IntT.div clearCtx (nibble 8).word (nibble 3).word).toInt clearContext)
        ((IntT.mod clearCtx (nibble 8).word (nibble 3).word).toInt clearContext) :=
  ⟨by decide, by decide, ((signed_division_and_order clearContext).1 4 (by decide) (nibble 8).word
    (nibble 3).word).1⟩

end EmpTool.Circuits
