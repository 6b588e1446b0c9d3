import Mathlib.Algebra.Ring.Int.Defs
import Mathlib.Algebra.Ring.Nat

namespace EmpTool.Crypto

structure Block where
  high : UInt64
  low : UInt64
  deriving DecidableEq, Repr

def makeBlock (high low : UInt64) : Block := ⟨high, low⟩

def zeroBlock : Block := makeBlock 0 0

def allOneBlock : Block := makeBlock 0xFFFFFFFFFFFFFFFF 0xFFFFFFFFFFFFFFFF

def selectMask (b : Bool) : Block := if b then allOneBlock else zeroBlock

namespace Block

def xor (a b : Block) : Block := ⟨a.high ^^^ b.high, a.low ^^^ b.low⟩

def and (a b : Block) : Block := ⟨a.high &&& b.high, a.low &&& b.low⟩

instance : XorOp Block := ⟨xor⟩

instance : AndOp Block := ⟨and⟩

def getLSB (x : Block) : Bool := x.low &&& 1 == 1

-- `_mm_shuffle_epi32(a, 78)` swaps the two quadwords
def swapHalves (a : Block) : Block := ⟨a.low, a.high⟩

def sigma (a : Block) : Block :=
  a.swapHalves ^^^ (a &&& makeBlock 0xFFFFFFFFFFFFFFFF 0)

def add64 (a b : Block) : Block := ⟨a.high + b.high, a.low + b.low⟩

theorem ext {a b : Block} (hh : a.high = b.high) (hl : a.low = b.low) : a = b := by
  cases a
  cases b
  simp_all

@[simp] theorem xor_low (a b : Block) : (a ^^^ b).low = a.low ^^^ b.low := rfl

theorem xor_assoc (a b c : Block) : a ^^^ b ^^^ c = a ^^^ (b ^^^ c) :=
  ext (UInt64.xor_assoc _ _ _) (UInt64.xor_assoc _ _ _)

theorem xor_comm (a b : Block) : a ^^^ b = b ^^^ a :=
  ext (UInt64.xor_comm _ _) (UInt64.xor_comm _ _)

instance : Std.Associative fun a b : Block => a ^^^ b := ⟨xor_assoc⟩

instance : Std.Commutative fun a b : Block => a ^^^ b := ⟨xor_comm⟩

theorem xor_left_comm (a b c : Block) : a ^^^ (b ^^^ c) = b ^^^ (a ^^^ c) := by
  rw [← xor_assoc, xor_comm a b, xor_assoc]

@[simp] theorem xor_zero (a : Block) : a ^^^ zeroBlock = a :=
  ext UInt64.xor_zero UInt64.xor_zero

@[simp] theorem zero_xor (a : Block) : zeroBlock ^^^ a = a := by
  rw [xor_comm, xor_zero]

@[simp] theorem xor_self (a : Block) : a ^^^ a = zeroBlock :=
  ext UInt64.xor_self UInt64.xor_self

@[simp] theorem xor_self_left (a b : Block) : a ^^^ (a ^^^ b) = b := by
  rw [← xor_assoc, xor_self, zero_xor]

@[simp] theorem selectMask_false_and (x : Block) : selectMask false &&& x = zeroBlock :=
  ext UInt64.zero_and UInt64.zero_and

@[simp] theorem selectMask_true_and (x : Block) : selectMask true &&& x = x := by
  apply ext
  · exact UInt64.neg_one_and
  · exact UInt64.neg_one_and

theorem getLSB_eq_testBit (a : Block) : a.getLSB = a.low.toNat.testBit 0 := by
  have h : (a.low &&& 1).toNat = a.low.toNat % 2 := by
    rw [UInt64.toNat_and]
    exact Nat.and_one_is_mod _
  apply Bool.eq_iff_iff.mpr
  rw [getLSB, beq_iff_eq, Nat.testBit_zero, decide_eq_true_iff, ← h, ← UInt64.toNat_inj]
  rfl

theorem getLSB_xor (a b : Block) : (a ^^^ b).getLSB = (a.getLSB ^^ b.getLSB) := by
  rw [getLSB_eq_testBit, getLSB_eq_testBit, getLSB_eq_testBit, xor_low, UInt64.toNat_xor,
    Nat.testBit_xor]

theorem add64_makeBlock (g d : UInt64) : (makeBlock g 0).add64 (makeBlock d 0) = makeBlock (g + d) 0 :=
  rfl

end Block

end EmpTool.Crypto
