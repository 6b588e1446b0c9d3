import EmpTool.Circuits.Word

namespace EmpTool.Circuits

open Arrays Kernel
open EmpTool.Ir (GateOps clearCtx)

namespace UIntT

variable {Wire : Type} [Inhabited Wire] {n : Nat} (c : GateOps Wire)

def constant (v : UInt64) : UIntT Wire n :=
  Word.fill fun i => c.publicBit (if i < 64 then bitOfWord v i else false)

def add (a b : UIntT Wire n) : UIntT Wire n := Word.add c a b

def sub (a b : UIntT Wire n) : UIntT Wire n := Word.sub c a b

def mul (a b : UIntT Wire n) : UIntT Wire n := Word.mul c a b

def div (a b : UIntT Wire n) : UIntT Wire n := Word.divQuot c a b

def mod (a b : UIntT Wire n) : UIntT Wire n := Word.divRem c a b

def eq (a b : UIntT Wire n) : Wire := Word.equal c a b

def ne (a b : UIntT Wire n) : Wire := c.notGate (eq c a b)

def lt (a b : UIntT Wire n) : Wire := Word.below c a b

def gt (a b : UIntT Wire n) : Wire := lt c b a

def le (a b : UIntT Wire n) : Wire := c.notGate (gt c a b)

def ge (a b : UIntT Wire n) : Wire := c.notGate (lt c a b)

def select (x : UIntT Wire n) (sel : Wire) (t : UIntT Wire n) : UIntT Wire n :=
  Word.select c x sel t

def shl (x : UIntT Wire n) (s : Int) : Except String (UIntT Wire n) := do
  expecting (0 ≤ s) "UInt_T::operator<<: shift amount must be >= 0"
  pure (Word.shiftLeft c x s.toNat)

def shr (x : UIntT Wire n) (s : Int) : Except String (UIntT Wire n) := do
  expecting (0 ≤ s) "UInt_T::operator>>: shift amount must be >= 0"
  pure (Word.shiftRight (c.publicBit false) x s.toNat)

namespace Runtime

def widths : String := "UInt_T: operands have different runtime widths"

def constant (width : Int) (v : UInt64) : Except String (RuntimeWord Wire) :=
  RuntimeWord.construct "UInt_T: runtime width must be >= 1" width fun _ => UIntT.constant c v

def add (a b : RuntimeWord Wire) : Except String (RuntimeWord Wire) :=
  RuntimeWord.binary widths (fun _ => UIntT.add c) a b

def div (a b : RuntimeWord Wire) : Except String (RuntimeWord Wire) :=
  RuntimeWord.binary widths (fun _ => UIntT.div c) a b

def mod (a b : RuntimeWord Wire) : Except String (RuntimeWord Wire) :=
  RuntimeWord.binary widths (fun _ => UIntT.mod c) a b

def lt (a b : RuntimeWord Wire) : Except String Wire :=
  RuntimeWord.compare widths (fun _ => UIntT.lt c) a b

def select (x : RuntimeWord Wire) (sel : Wire) (t : RuntimeWord Wire) :
    Except String (RuntimeWord Wire) :=
  RuntimeWord.binary widths (fun _ x t => UIntT.select c x sel t) x t

end Runtime

theorem toNat_constant (c : PlainContext Wire) (v : UInt64) :
    (constant c.toGateOps v : UIntT Wire n).toNat c = v.toNat % 2 ^ n := by
  rw [constant, Word.toNat_fill, ← Binary.natOf_testBit]
  refine Binary.natOf_congr fun i _ => ?_
  rw [c.value_publicBit]
  split
  case isTrue hi => exact bitOfWord_eq v hi
  case isFalse hi =>
    have hle : 2 ^ 64 ≤ 2 ^ i := Nat.pow_le_pow_right (by decide) (by omega)
    exact (Nat.testBit_lt_two_pow (Nat.lt_of_lt_of_le v.toNat_lt hle)).symm

end UIntT

section Division

structure QuotRem (n a b q r : Nat) : Prop where
  exact : b ≠ 0 → q = a / b ∧ r = a % b
  saturated : b = 0 → q = 2 ^ n - 1 ∧ r = a

theorem quotRem_of_eq {n a b q r : Nat} (hq : q = quotient n a b) (hr : r = a % b) :
    QuotRem n a b q r where
  exact hb := ⟨by rw [hq, quotient, if_neg hb], hr⟩
  saturated hb := ⟨by rw [hq, quotient, if_pos hb], by rw [hr, hb, Nat.mod_zero]⟩

variable {Wire ν : Type} [Inhabited Wire] [DecidableEq ν] (c : PlainContext Wire)

theorem restoring_division_exact :
    (∀ (vquot vrem op1 op2 : Ptr ν) (n : Nat) (m : Mem ν Wire), vquot.Apart n vrem →
      let m' := divFull c.toGateOps (some vquot) (some vrem) op1 op2 n m
      QuotRem n (c.num n (m.get op1)) (c.num n (m.get op2)) (c.num n (m'.get vquot))
        (c.num n (m'.get vrem))) ∧
    (∀ (vquot vrem op1 op2 : Ptr ν) (n : Nat) (m : Mem ν Wire), ∃ q r,
      QuotRem n (c.num n (m.get op1)) (c.num n (m.get op2)) q r ∧
        Writes c vquot n q m (divFull c.toGateOps (some vquot) none op1 op2 n m) ∧
        Writes c vrem n r m (divFull c.toGateOps none (some vrem) op1 op2 n m)) ∧
    (∀ (n : Nat) (a b : UIntT Wire n), QuotRem n (a.toNat c) (b.toNat c)
      ((UIntT.div c.toGateOps a b).toNat c) ((UIntT.mod c.toGateOps a b).toNat c)) ∧
    ∀ a b : RuntimeWord Wire, a.width = b.width → ∃ q r : RuntimeWord Wire,
      UIntT.Runtime.div c.toGateOps a b = .ok q ∧ UIntT.Runtime.mod c.toGateOps a b = .ok r ∧
        q.width = a.width ∧ r.width = a.width ∧
        QuotRem a.width (a.word.toNat c) (b.word.toNat c) (q.word.toNat c) (r.word.toNat c) := by
  refine ⟨?_, ?_, ?_, ?_⟩
  · intro vquot vrem op1 op2 n m hapart m'
    obtain ⟨hq, hr⟩ := divFull_both c op1 op2 m hapart
    exact quotRem_of_eq hq hr
  · intro vquot vrem op1 op2 n m
    exact ⟨_, _, quotRem_of_eq rfl rfl, divFull_quotient c vquot op1 op2 n m,
      divFull_remainder c vrem op1 op2 n m⟩
  · intro n a b
    exact quotRem_of_eq (Word.toNat_divQuot c a b) (Word.toNat_divRem c a b)
  · rintro ⟨n, pos, a⟩ ⟨_, _, b⟩ rfl
    exact ⟨_, _, RuntimeWord.binary_eq _ _ pos a b, RuntimeWord.binary_eq _ _ pos a b, rfl, rfl,
      quotRem_of_eq (Word.toNat_divQuot c a b) (Word.toNat_divRem c a b)⟩

def nibble (v : Nat) : RuntimeWord UInt8 :=
  ⟨4, by decide, Word.fill fun i => if v.testBit i then 1 else 0⟩

theorem restoring_division_exact_nibbles :
    (nibble 13).word.toNat clearContext = 13 ∧ (nibble 0).word.toNat clearContext = 0 ∧
      ∃ q r : RuntimeWord UInt8, UIntT.Runtime.div clearCtx (nibble 13) (nibble 0) = .ok q ∧
        UIntT.Runtime.mod clearCtx (nibble 13) (nibble 0) = .ok r ∧ q.width = 4 ∧ r.width = 4 ∧
        QuotRem 4 ((nibble 13).word.toNat clearContext) ((nibble 0).word.toNat clearContext)
          (q.word.toNat clearContext) (r.word.toNat clearContext) :=
  ⟨by decide, by decide,
    (restoring_division_exact (ν := Unit) clearContext).2.2.2 (nibble 13) (nibble 0) rfl⟩

end Division

end EmpTool.Circuits
