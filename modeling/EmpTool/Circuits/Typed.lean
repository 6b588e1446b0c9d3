import EmpTool.Circuits.ClearCodec
import EmpTool.Circuits.Operators
import EmpTool.Library.TypedProgram

namespace EmpTool.Circuits

open Kernel TypedProgram
open EmpTool.Ir (GateOps)

-- the `N` of a fixed-width type, or the validated width of a runtime value
structure Width where
  n : Nat
  pos : 1 ≤ n

inductive Kind where
  | unsigned
  | signed

namespace Kind

def flip : Kind → Kind
  | unsigned => signed
  | signed => unsigned

def Clear : Kind → Type
  | unsigned => UInt64
  | signed => Int64

def leftMessage : Kind → String
  | unsigned => "UInt_T::operator<<: shift amount must be >= 0"
  | signed => "Int_T::operator<<: shift amount must be >= 0"

def rightMessage : Kind → String
  | unsigned => "UInt_T::operator>>: shift amount must be >= 0"
  | signed => "Int_T::operator>>: shift amount must be >= 0"

def widthsMessage : Kind → String
  | unsigned => UIntT.Runtime.widths
  | signed => IntT.Runtime.widths

def widthMessage : Kind → String
  | unsigned => "UInt_T: runtime width must be >= 1"
  | signed => "Int_T: runtime width must be >= 1"

end Kind

inductive Ty where
  | bit
  | bits (n : Nat)
  | int (k : Kind) (w : Width)
  | dyn (k : Kind)

def Ty.Val (Wire : Type) : Ty → Type
  | bit => Wire
  | bits n => Word Wire n
  | int _ w => Word Wire w.n
  | dyn _ => RuntimeWord Wire

def Ty.Meaning : Ty → Type
  | bit => Bool
  | bits n => BitVec n
  | int _ w => BitVec w.n
  | dyn _ => (w : Width) × BitVec w.n

inductive BitBinary where
  | and
  | xor
  | or
  | eq
  | ne

inductive BitwiseOp where
  | and
  | xor
  | or

inductive Arith where
  | add
  | sub
  | mul
  | div
  | mod
  | bitwise (f : BitwiseOp)

inductive Comparison where
  | eq
  | ne
  | lt
  | gt
  | le
  | ge

inductive Unary : Kind → Type where
  | not {k : Kind} : Unary k
  | neg : Unary .signed
  | shl {k : Kind} (s : Int) : Unary k
  | shr {k : Kind} (s : Int) : Unary k
  | rotl (s : Int) : Unary .unsigned
  | rotr (s : Int) : Unary .unsigned

inductive Op : List Ty → Ty → Type where
  | bitConst (v : Bool) : Op [] .bit
  | bitBinary (f : BitBinary) : Op [.bit, .bit] .bit
  | bitNot : Op [.bit] .bit
  | bitSelect : Op [.bit, .bit, .bit] .bit
  | bitsConst {n : Nat} (v : Vector Bool n) : Op [] (.bits n)
  | bitsBinary {n : Nat} (f : BitwiseOp) : Op [.bits n, .bits n] (.bits n)
  | bitsNot {n : Nat} : Op [.bits n] (.bits n)
  | bitsEq {n : Nat} : Op [.bits n, .bits n] .bit
  | bitsNe {n : Nat} : Op [.bits n, .bits n] .bit
  | bitsSelect {n : Nat} : Op [.bits n, .bit, .bits n] (.bits n)
  | bitsShl {n : Nat} (s : Int) : Op [.bits n] (.bits n)
  | bitsShr {n : Nat} (s : Int) : Op [.bits n] (.bits n)
  | bitsSlice {n : Nat} (lo len : Nat) (h : lo + len ≤ n) : Op [.bits n] (.bits len)
  | bitsConcat {m n : Nat} : Op [.bits m, .bits n] (.bits (m + n))
  | bitsGet {n : Nat} (i : Nat) (h : i < n) : Op [.bits n] .bit
  | asUint (w : Width) : Op [.bits w.n] (.int .unsigned w)
  | const (k : Kind) (w : Width) (v : k.Clear) : Op [] (.int k w)
  | arith {k : Kind} {w : Width} (f : Arith) : Op [.int k w, .int k w] (.int k w)
  | unary {k : Kind} {w : Width} (f : Unary k) : Op [.int k w] (.int k w)
  | compare {k : Kind} {w : Width} (f : Comparison) : Op [.int k w, .int k w] .bit
  | select {k : Kind} {w : Width} : Op [.int k w, .bit, .int k w] (.int k w)
  | shlSecret {k : Kind} {w : Width} : Op [.int k w, .int .unsigned w] (.int k w)
  | shrSecret {k : Kind} {w : Width} : Op [.int k w, .int .unsigned w] (.int k w)
  | popcount {w : Width} (r : Width) : Op [.int .unsigned w] (.int .unsigned r)
  | leadingZeros {w : Width} (r : Width) (h : bitsFor w.n = .ok r.n) :
      Op [.int .unsigned w] (.int .unsigned r)
  | slice {w : Width} (lo : Nat) (v : Width) (h : lo + v.n ≤ w.n) :
      Op [.int .unsigned w] (.int .unsigned v)
  | concat {w v : Width} (r : Width) (h : r.n = w.n + v.n) :
      Op [.int .unsigned w, .int .unsigned v] (.int .unsigned r)
  | extend {k : Kind} {w : Width} (v : Width) (h : w.n ≤ v.n) : Op [.int k w] (.int k v)
  | trunc {k : Kind} {w : Width} (v : Width) (h : v.n ≤ w.n) : Op [.int k w] (.int k v)
  | get {k : Kind} {w : Width} (i : Nat) (h : i < w.n) : Op [.int k w] .bit
  | cast {k : Kind} {w : Width} : Op [.int k w] (.int k.flip w)
  | toDynamic {w : Width} : Op [.int .unsigned w] (.dyn .unsigned)
  | toFixed (w : Width) : Op [.dyn .unsigned] (.int .unsigned w)
  | dynConst (k : Kind) (width : Int) (v : k.Clear) : Op [] (.dyn k)
  | dynArith {k : Kind} (f : Arith) : Op [.dyn k, .dyn k] (.dyn k)
  | dynUnary {k : Kind} (f : Unary k) : Op [.dyn k] (.dyn k)
  | dynCompare {k : Kind} (f : Comparison) : Op [.dyn k, .dyn k] .bit
  | dynSelect {k : Kind} : Op [.dyn k, .bit, .dyn k] (.dyn k)
  | dynResize {k : Kind} (m : Int) : Op [.dyn k] (.dyn k)
  | dynCast {k : Kind} : Op [.dyn k] (.dyn k.flip)

section Operators

variable {Wire : Type} [Inhabited Wire] {n : Nat} (c : GateOps Wire)

def BitBinary.apply : BitBinary → Wire → Wire → Wire
  | and, a, b => c.andGate a b
  | xor, a, b => c.xorGate a b
  | or, a, b => c.xorGate (c.xorGate a b) (c.andGate a b)
  | eq, a, b => c.notGate (c.xorGate a b)
  | ne, a, b => c.xorGate a b

def BitwiseOp.apply : BitwiseOp → Word Wire n → Word Wire n → Word Wire n
  | and => Word.bitAnd c
  | xor => Word.bitXor c
  | or => Word.bitOr c

def Arith.apply : Kind → Arith → Word Wire n → Word Wire n → Word Wire n
  | .unsigned, add => UIntT.add c
  | .signed, add => IntT.add c
  | .unsigned, sub => UIntT.sub c
  | .signed, sub => IntT.sub c
  | .unsigned, mul => UIntT.mul c
  | .signed, mul => IntT.mul c
  | .unsigned, div => UIntT.div c
  | .signed, div => IntT.div c
  | .unsigned, mod => UIntT.mod c
  | .signed, mod => IntT.mod c
  | _, bitwise f => f.apply c

def Comparison.apply : Kind → Comparison → Word Wire n → Word Wire n → Wire
  | .unsigned, eq, a, b => UIntT.eq c a b
  | .signed, eq, a, b => Word.equal c a b
  | .unsigned, ne, a, b => UIntT.ne c a b
  | .signed, ne, a, b => c.notGate (Word.equal c a b)
  | .unsigned, lt, a, b => UIntT.lt c a b
  | .signed, lt, a, b => IntT.lt c a b
  | .unsigned, gt, a, b => UIntT.gt c a b
  | .signed, gt, a, b => IntT.gt c a b
  | .unsigned, le, a, b => UIntT.le c a b
  | .signed, le, a, b => IntT.le c a b
  | .unsigned, ge, a, b => UIntT.ge c a b
  | .signed, ge, a, b => IntT.ge c a b

def shiftLeftBy : Kind → Word Wire n → Int → Except String (Word Wire n)
  | .unsigned => UIntT.shl c
  | .signed => IntT.shl c

def shiftRightBy : Kind → Word Wire n → Int → Except String (Word Wire n)
  | .unsigned => UIntT.shr c
  | .signed => IntT.shr

def Unary.apply {k : Kind} : Unary k → Word Wire n → Except String (Word Wire n)
  | not, x => .ok (x.bitNot c)
  | neg, x => .ok (IntT.neg c x)
  | shl s, x => shiftLeftBy c k x s
  | shr s, x => shiftRightBy c k x s
  | rotl s, x => .ok (x.rotlBy s)
  | rotr s, x => .ok (x.rotrBy s)

def constantOf (n : Nat) : (k : Kind) → k.Clear → Word Wire n
  | .unsigned, v => UIntT.constant c v
  | .signed, v => IntT.constant c v

def extension (x : Word Wire n) : Kind → Wire
  | .unsigned => c.publicBit false
  | .signed => IntT.signBit x

def Op.apply : {Δ : List Ty} → {τ : Ty} → Op Δ τ → Tuple (Ty.Val Wire) Δ →
    Except String (τ.Val Wire)
  | _, _, bitConst v, _ => .ok (c.publicBit v)
  | _, _, bitBinary f, .cons a (.cons b .nil) => .ok (f.apply c a b)
  | _, _, bitNot, .cons a .nil => .ok (c.notGate a)
  | _, _, bitSelect, .cons a (.cons sel (.cons t .nil)) => .ok (mux c sel t a : Wire)
  | _, _, bitsConst v, _ => .ok (Word.fill fun i => c.publicBit (v[i]?.getD false))
  | _, _, bitsBinary f, .cons a (.cons b .nil) => .ok (f.apply c a b)
  | _, _, bitsNot, .cons a .nil => .ok (Word.bitNot c a)
  | _, _, bitsEq, .cons a (.cons b .nil) => .ok (Word.equal c a b : Wire)
  | _, _, bitsNe, .cons a (.cons b .nil) => .ok (c.notGate (Word.equal c a b) : Wire)
  | _, _, bitsSelect, .cons x (.cons sel (.cons t .nil)) => .ok (Word.select c x sel t)
  | _, _, bitsShl s, .cons x .nil => do
      expecting (0 ≤ s) "BitVec_T::operator<<: shift amount must be >= 0"
      pure (Word.shiftLeft c x s.toNat)
  | _, _, bitsShr s, .cons x .nil => do
      expecting (0 ≤ s) "BitVec_T::operator>>: shift amount must be >= 0"
      pure (Word.shiftRight (c.publicBit false) x s.toNat)
  | _, _, bitsSlice lo len _, .cons x .nil => .ok (Word.slice x lo len)
  | _, _, bitsConcat, .cons lo (.cons hi .nil) => .ok (Word.concat lo _ hi)
  | _, _, bitsGet i _, .cons x .nil => .ok (Word.wire x i : Wire)
  | _, _, asUint _, .cons x .nil => .ok x
  | _, _, const k w v, _ => .ok (constantOf c w.n k v)
  | _, _, @arith k _ f, .cons a (.cons b .nil) => .ok (f.apply c k a b)
  | _, _, unary f, .cons a .nil => f.apply c a
  | _, _, @compare k _ f, .cons a (.cons b .nil) => .ok (f.apply c k a b : Wire)
  | _, _, select, .cons x (.cons sel (.cons t .nil)) => .ok (Word.select c x sel t)
  | _, _, @shlSecret .unsigned _, .cons x (.cons s .nil) => .ok (UIntT.shlSecret c x s)
  | _, _, @shlSecret .signed _, .cons x (.cons s .nil) => .ok (IntT.shlSecret c x s)
  | _, _, @shrSecret .unsigned _, .cons x (.cons s .nil) => .ok (UIntT.shrSecret c x s)
  | _, _, @shrSecret .signed _, .cons x (.cons s .nil) => .ok (IntT.shrSecret c x s)
  | _, _, popcount r, .cons x .nil => .ok (UIntT.popcount c r.n x)
  | _, _, leadingZeros r _, .cons x .nil =>
      .ok (UIntT.popcount c r.n (Word.bitNot c (UIntT.smear c x)))
  | _, _, slice lo v _, .cons x .nil => .ok (Word.slice x lo v.n)
  | _, _, concat r _, .cons lo (.cons hi .nil) => .ok (Word.concat lo r.n hi)
  | _, _, @extend k _ v _, .cons x .nil => .ok (Word.resize (extension c x k) v.n x)
  | _, _, trunc v _, .cons x .nil => .ok (Word.slice x 0 v.n)
  | _, _, get i _, .cons x .nil => .ok (Word.wire x i : Wire)
  | _, _, cast, .cons x .nil => .ok x
  | _, _, @toDynamic w, .cons x .nil => .ok ⟨w.n, w.pos, x⟩
  | _, _, toFixed w, .cons x .nil => .ok (Word.resize (c.publicBit false) w.n (RuntimeWord.word x))
  | _, _, dynConst k width v, _ =>
      RuntimeWord.construct k.widthMessage width fun n => constantOf c n k v
  | _, _, @dynArith k f, .cons a (.cons b .nil) =>
      RuntimeWord.binary k.widthsMessage (fun _ => f.apply c k) a b
  | _, _, dynUnary f, .cons a .nil => do
      let y ← f.apply c (RuntimeWord.word a)
      pure ⟨a.width, a.pos, y⟩
  | _, _, @dynCompare k f, .cons a (.cons b .nil) =>
      (RuntimeWord.compare k.widthsMessage (fun _ => f.apply c k) a b : Except String Wire)
  | _, _, @dynSelect k, .cons x (.cons sel (.cons t .nil)) =>
      RuntimeWord.binary k.widthsMessage (fun _ x t => Word.select c x sel t) x t
  | _, _, @dynResize k m, .cons x .nil =>
      RuntimeWord.construct k.widthMessage m fun n =>
        Word.resize (extension c (RuntimeWord.word x) k) n (RuntimeWord.word x)
  | _, _, dynCast, .cons x .nil => .ok x

end Operators

section Meanings

variable {n : Nat}

def BitBinary.denote : BitBinary → Bool → Bool → Bool
  | and, a, b => a && b
  | xor, a, b => a ^^ b
  | or, a, b => a || b
  | eq, a, b => a == b
  | ne, a, b => a != b

def BitwiseOp.denote : BitwiseOp → BitVec n → BitVec n → BitVec n
  | and, a, b => a &&& b
  | xor, a, b => a ^^^ b
  | or, a, b => a ||| b

-- quotients and remainders of the SMT-LIB theory of bit-vectors
def Arith.denote : Kind → Arith → BitVec n → BitVec n → BitVec n
  | _, add, a, b => a + b
  | _, sub, a, b => a - b
  | _, mul, a, b => a * b
  | .unsigned, div, a, b => a.smtUDiv b
  | .signed, div, a, b => a.smtSDiv b
  | .unsigned, mod, a, b => a % b
  | .signed, mod, a, b => a.srem b
  | _, bitwise f, a, b => f.denote a b

def numberOf : Kind → BitVec n → Int
  | .unsigned, x => x.toNat
  | .signed, x => x.toInt

def Comparison.denote (k : Kind) : Comparison → BitVec n → BitVec n → Bool
  | eq, a, b => decide (numberOf k a = numberOf k b)
  | ne, a, b => decide (numberOf k a ≠ numberOf k b)
  | lt, a, b => decide (numberOf k a < numberOf k b)
  | gt, a, b => decide (numberOf k a > numberOf k b)
  | le, a, b => decide (numberOf k a ≤ numberOf k b)
  | ge, a, b => decide (numberOf k a ≥ numberOf k b)

def rightShift : Kind → BitVec n → Nat → BitVec n
  | .unsigned, x, s => x >>> s
  | .signed, x, s => x.sshiftRight s

def Unary.denote {k : Kind} : Unary k → BitVec n → Except String (BitVec n)
  | not, x => .ok (~~~x)
  | neg, x => .ok (-x)
  | shl s, x => do
      expecting (0 ≤ s) k.leftMessage
      pure (x <<< s.toNat)
  | shr s, x => do
      expecting (0 ≤ s) k.rightMessage
      pure (rightShift k x s.toNat)
  | rotl s, x => .ok (x.rotateLeft (s % n).toNat)
  | rotr s, x => .ok (x.rotateRight (s % n).toNat)

def valueOf (n : Nat) : (k : Kind) → k.Clear → BitVec n
  | .unsigned, v => BitVec.ofNat n v.toNat
  | .signed, v => BitVec.ofInt n v.toInt

def widen (m : Nat) : Kind → BitVec n → BitVec m
  | .unsigned, x => x.setWidth m
  | .signed, x => x.signExtend m

def vectorValue (v : Vector Bool n) : BitVec n :=
  BitVec.ofNat n (Binary.natOf n fun i => v[i]?.getD false)

theorem one_le_toNat {m : Int} (h : 1 ≤ m) : 1 ≤ m.toNat := by omega

namespace Ty.Meaning

def sized (message : String) (m : Int) (f : (n : Nat) → BitVec n) :
    Except String ((w : Width) × BitVec w.n) :=
  if h : 1 ≤ m then .ok ⟨⟨m.toNat, one_le_toNat h⟩, f m.toNat⟩ else .error message

def matching (message : String) (a b : (w : Width) × BitVec w.n) : Except String (BitVec a.1.n) :=
  if b.1.n = a.1.n then .ok (b.2.setWidth a.1.n) else .error message

end Ty.Meaning

def Op.denote : {Δ : List Ty} → {τ : Ty} → Op Δ τ → Tuple Ty.Meaning Δ → Except String τ.Meaning
  | _, _, bitConst v, _ => .ok v
  | _, _, bitBinary f, .cons a (.cons b .nil) => .ok (f.denote a b)
  | _, _, bitNot, .cons a .nil => .ok (Bool.not a)
  | _, _, bitSelect, .cons a (.cons sel (.cons t .nil)) => .ok (bif sel then t else a)
  | _, _, bitsConst v, _ => .ok (vectorValue v)
  | _, _, bitsBinary f, .cons a (.cons b .nil) => .ok (f.denote a b)
  | _, _, bitsNot, .cons a .nil => .ok (BitVec.not a)
  | _, _, bitsEq, .cons a (.cons b .nil) => .ok (Comparison.eq.denote .unsigned a b)
  | _, _, bitsNe, .cons a (.cons b .nil) => .ok (Comparison.ne.denote .unsigned a b)
  | _, _, bitsSelect, .cons x (.cons sel (.cons t .nil)) => .ok (bif sel then t else x)
  | _, _, bitsShl s, .cons x .nil => do
      expecting (0 ≤ s) "BitVec_T::operator<<: shift amount must be >= 0"
      pure (BitVec.shiftLeft x s.toNat)
  | _, _, bitsShr s, .cons x .nil => do
      expecting (0 ≤ s) "BitVec_T::operator>>: shift amount must be >= 0"
      pure (BitVec.ushiftRight x s.toNat)
  | _, _, bitsSlice lo len _, .cons x .nil => .ok (BitVec.extractLsb' lo len x)
  | _, _, @bitsConcat m n, .cons lo (.cons hi .nil) =>
      .ok (BitVec.setWidth (m + n) (BitVec.append hi lo))
  | _, _, bitsGet i _, .cons x .nil => .ok (BitVec.getLsbD x i)
  | _, _, asUint _, .cons x .nil => .ok x
  | _, _, const k w v, _ => .ok (valueOf w.n k v)
  | _, _, @arith k _ f, .cons a (.cons b .nil) => .ok (f.denote k a b)
  | _, _, unary f, .cons a .nil => f.denote a
  | _, _, @compare k _ f, .cons a (.cons b .nil) => .ok (f.denote k a b)
  | _, _, select, .cons x (.cons sel (.cons t .nil)) => .ok (bif sel then t else x)
  | _, _, shlSecret, .cons x (.cons s .nil) => .ok (BitVec.shiftLeft x (BitVec.toNat s))
  | _, _, @shrSecret k _, .cons x (.cons s .nil) => .ok (rightShift k x (BitVec.toNat s))
  | _, _, @popcount w r, .cons x .nil => .ok (BitVec.ofNat r.n (bitCount w.n (BitVec.toNat x)))
  | _, _, @leadingZeros w r _, .cons x .nil => .ok (BitVec.ofNat r.n (zeroRun w.n (BitVec.toNat x)))
  | _, _, slice lo v _, .cons x .nil => .ok (BitVec.extractLsb' lo v.n x)
  | _, _, concat r _, .cons lo (.cons hi .nil) => .ok (BitVec.setWidth r.n (BitVec.append hi lo))
  | _, _, @extend k _ v _, .cons x .nil => .ok (widen v.n k x)
  | _, _, trunc v _, .cons x .nil => .ok (BitVec.setWidth v.n x)
  | _, _, get i _, .cons x .nil => .ok (BitVec.getLsbD x i)
  | _, _, cast, .cons x .nil => .ok x
  | _, _, @toDynamic w, .cons x .nil => .ok ⟨w, x⟩
  | _, _, toFixed w, .cons x .nil => .ok (BitVec.setWidth w.n (Sigma.snd x))
  | _, _, dynConst k width v, _ => Ty.Meaning.sized k.widthMessage width fun n => valueOf n k v
  | _, _, @dynArith k f, .cons a (.cons b .nil) => do
      let y ← Ty.Meaning.matching k.widthsMessage a b
      pure ⟨a.1, f.denote k a.2 y⟩
  | _, _, dynUnary f, .cons a .nil => do
      let y ← f.denote (Sigma.snd a)
      pure ⟨a.1, y⟩
  | _, _, @dynCompare k f, .cons a (.cons b .nil) => do
      let y ← Ty.Meaning.matching k.widthsMessage a b
      pure (f.denote k a.2 y)
  | _, _, @dynSelect k, .cons x (.cons sel (.cons t .nil)) => do
      let y ← Ty.Meaning.matching k.widthsMessage x t
      pure ⟨x.1, bif sel then y else x.2⟩
  | _, _, @dynResize k m, .cons x .nil =>
      Ty.Meaning.sized k.widthMessage m fun n => widen n k (Sigma.snd x)
  | _, _, dynCast, .cons x .nil => .ok x

end Meanings

variable {Wire : Type} [Inhabited Wire] {n : Nat} (c : PlainContext Wire)

def Ty.meaning : (τ : Ty) → τ.Val Wire → τ.Meaning
  | bit, a => c.value a
  | bits _, x => Word.toBitVec c x
  | int _ _, x => Word.toBitVec c x
  | dyn _, x => ⟨⟨RuntimeWord.width x, RuntimeWord.pos x⟩, (RuntimeWord.word x).toBitVec c⟩

omit [Inhabited Wire] in
theorem BitBinary.value_apply (f : BitBinary) (a b : Wire) :
    c.value (f.apply c.toGateOps a b) = f.denote (c.value a) (c.value b) := by
  cases f <;> simp only [apply, denote, c.value_andGate, c.value_xorGate, c.value_notGate] <;>
    cases c.value a <;> cases c.value b <;> rfl

theorem BitwiseOp.toBitVec_apply (f : BitwiseOp) (a b : Word Wire n) :
    (f.apply c.toGateOps a b).toBitVec c = f.denote (a.toBitVec c) (b.toBitVec c) := by
  cases f with
  | and => exact Word.toBitVec_bitAnd c a b
  | xor => exact Word.toBitVec_bitXor c a b
  | or => exact Word.toBitVec_bitOr c a b

theorem Arith.toBitVec_apply (hn : 0 < n) (k : Kind) (f : Arith) (a b : Word Wire n) :
    (f.apply c.toGateOps k a b).toBitVec c = f.denote k (a.toBitVec c) (b.toBitVec c) := by
  cases f with
  | add => cases k <;> exact Word.toBitVec_add c a b
  | sub => cases k <;> exact Word.toBitVec_sub c a b
  | mul => cases k <;> exact Word.toBitVec_mul c a b
  | div =>
    cases k with
    | unsigned => exact Word.toBitVec_divQuot c a b
    | signed => exact IntT.toBitVec_div c hn a b
  | mod =>
    cases k with
    | unsigned => exact Word.toBitVec_divRem c a b
    | signed => exact IntT.toBitVec_mod c hn a b
  | bitwise f => cases k <;> exact f.toBitVec_apply c a b

theorem value_equal_numbers (k : Kind) (a b : Word Wire n) :
    c.value (a.equal c.toGateOps b) =
      decide (numberOf k (a.toBitVec c) = numberOf k (b.toBitVec c)) := by
  rw [Word.value_equal, decide_eq_decide, ← Word.toNat_toBitVec, ← Word.toNat_toBitVec]
  cases k with
  | unsigned => exact Int.natCast_inj.symm
  | signed => exact BitVec.toNat_inj.trans BitVec.toInt_inj.symm

theorem value_below_numbers (hn : 0 < n) (k : Kind) (a b : Word Wire n) :
    c.value (Comparison.lt.apply c.toGateOps k a b) =
      decide (numberOf k (a.toBitVec c) < numberOf k (b.toBitVec c)) := by
  cases k with
  | unsigned =>
    refine (Word.value_below c a b hn).trans ?_
    rw [decide_eq_decide, ← Word.toNat_toBitVec, ← Word.toNat_toBitVec]
    exact Int.ofNat_lt.symm
  | signed => exact IntT.value_lt c hn a b

theorem Comparison.value_apply (hn : 0 < n) (k : Kind) (f : Comparison) (a b : Word Wire n) :
    c.value (f.apply c.toGateOps k a b) = f.denote k (a.toBitVec c) (b.toBitVec c) := by
  have heq := value_equal_numbers c k a b
  have hlt := value_below_numbers c hn k a b
  have hgt := value_below_numbers c hn k b a
  have negated {w : Wire} {p : Prop} [Decidable p] (h : c.value w = decide p) :
      c.value (c.notGate w) = decide ¬p := by
    rw [c.value_notGate, h, decide_not]
  cases f with
  | eq => cases k <;> exact heq
  | ne => cases k <;> exact negated heq
  | lt => exact hlt
  | gt => cases k <;> exact hgt
  | le =>
    have hle : c.value (c.notGate (Comparison.lt.apply c.toGateOps k b a)) =
        decide (numberOf k (a.toBitVec c) ≤ numberOf k (b.toBitVec c)) :=
      (negated hgt).trans (decide_eq_decide.mpr Int.not_lt)
    cases k <;> exact hle
  | ge =>
    have hge : c.value (c.notGate (Comparison.lt.apply c.toGateOps k a b)) =
        decide (numberOf k (b.toBitVec c) ≤ numberOf k (a.toBitVec c)) :=
      (negated hlt).trans (decide_eq_decide.mpr Int.not_lt)
    cases k <;> exact hge

theorem map_expecting {α β : Type} (p : Prop) [Decidable p] (message : String) {f : α → β}
    {x : Except String α} {y : Except String β} (h : x.map f = y) :
    (do expecting p message; x : Except String α).map f = (do expecting p message; y) := by
  rw [← h, expecting]
  split <;> rfl

theorem map_checked {α β : Type} (p : Prop) [Decidable p] (message : String) {f : α → β} {a : α}
    {b : β} (h : f a = b) : (do expecting p message; pure a : Except String α).map f =
      (do expecting p message; pure b : Except String β) :=
  map_expecting p message (congrArg Except.ok h)

theorem Unary.map_apply {k : Kind} (f : Unary k) (x : Word Wire n) :
    (f.apply c.toGateOps x).map (Word.toBitVec c) = f.denote (x.toBitVec c) := by
  cases f with
  | not => exact congrArg Except.ok (Word.toBitVec_bitNot c x)
  | neg => exact congrArg Except.ok (IntT.toBitVec_neg c x)
  | shl s =>
    have hshift := Word.toBitVec_shiftLeft c x s.toNat
    cases k <;> exact map_checked _ _ hshift
  | shr s =>
    cases k with
    | unsigned => exact map_checked _ _ (Word.toBitVec_shiftRight c x s.toNat)
    | signed => exact map_checked _ _ (IntT.toBitVec_arithmeticRight c x s.toNat)
  | rotl s => exact congrArg Except.ok (by rw [Word.rotlBy_eq, Word.toBitVec_rotl])
  | rotr s => exact congrArg Except.ok (by rw [Word.rotrBy_eq, Word.toBitVec_rotr])

theorem IntT.toBitVec_constant (v : Int64) :
    (IntT.constant c.toGateOps v : IntT Wire n).toBitVec c = BitVec.ofInt n v.toInt := by
  apply Word.toBitVec_eq_of_wires
  intro i hi
  change _ = (v.toBitVec.signExtend n).getLsbD i
  rw [IntT.constant, Word.wire_fill _ hi, c.value_publicBit, BitVec.getLsbD_signExtend,
    decide_eq_true hi, Bool.true_and, bitOfWord_toBitVec _ (by split <;> omega)]
  split
  case isTrue => rfl
  case isFalse => exact (BitVec.msb_eq_getLsbD_last _).symm

theorem toBitVec_constantOf (n : Nat) (k : Kind) (v : k.Clear) :
    (constantOf c.toGateOps n k v).toBitVec c = valueOf n k v := by
  cases k with
  | unsigned =>
    apply Word.toBitVec_eq
    exact (UIntT.toNat_constant c v).trans (BitVec.toNat_ofNat _ _).symm
  | signed => exact IntT.toBitVec_constant c v

theorem toBitVec_extension (hn : 0 < n) (m : Nat) (k : Kind) (x : Word Wire n) :
    (x.resize (extension c.toGateOps x k) m).toBitVec c = widen m k (x.toBitVec c) := by
  cases k with
  | unsigned => exact Word.toBitVec_resize_zero c m x
  | signed => exact Word.toBitVec_resize_sign c hn m x

theorem toBitVec_vector (v : Vector Bool n) :
    (Word.fill fun i => c.publicBit (v[i]?.getD false) : Word Wire n).toBitVec c =
      vectorValue v := by
  apply Word.toBitVec_eq_of_wires
  intro i hi
  rw [Word.wire_fill _ hi, c.value_publicBit, vectorValue, BitVec.getLsbD_ofNat, decide_eq_true hi,
    Bool.true_and, Binary.testBit_natOf, decide_eq_true hi, Bool.true_and]

theorem map_sized {message : String} {m : Int} {word : (n : Nat) → Word Wire n}
    {f : (n : Nat) → BitVec n} (h : ∀ n, (word n).toBitVec c = f n) (k : Kind) :
    (RuntimeWord.construct message m word).map (Ty.meaning c (.dyn k)) =
      Ty.Meaning.sized message m f := by
  unfold RuntimeWord.construct Ty.Meaning.sized
  split
  case isTrue =>
    rw [← h]
    rfl
  case isFalse => rfl

theorem map_sameWidth (message : String) (k : Kind) (a b : RuntimeWord Wire) :
    (RuntimeWord.sameWidth message a b).map (Word.toBitVec c) =
      Ty.Meaning.matching message (Ty.meaning c (.dyn k) a) (Ty.meaning c (.dyn k) b) := by
  obtain ⟨m, hm, x⟩ := a
  obtain ⟨n, hn, y⟩ := b
  unfold RuntimeWord.sameWidth Ty.Meaning.matching
  by_cases h : n = m
  · subst h
    rw [dif_pos rfl]
    exact (congrArg Except.ok (BitVec.setWidth_eq _).symm).trans (if_pos rfl).symm
  · rw [dif_neg h]
    exact (if_neg h).symm

theorem map_unary {k : Kind} (f : Unary k) (a : RuntimeWord Wire) :
    (do let y ← f.apply c.toGateOps a.word; pure ⟨a.width, a.pos, y⟩ :
      Except String (RuntimeWord Wire)).map (Ty.meaning c (.dyn k)) =
    (do let y ← f.denote (a.word.toBitVec c); pure ⟨⟨a.width, a.pos⟩, y⟩ :
      Except String (Ty.Meaning (.dyn k))) := by
  rw [← f.map_apply]
  cases f.apply c.toGateOps a.word <;> rfl

theorem map_binary (message : String) (k : Kind)
    {op : (n : Nat) → Word Wire n → Word Wire n → Word Wire n}
    {f : (n : Nat) → BitVec n → BitVec n → BitVec n}
    (h : ∀ n, 0 < n → ∀ x y, (op n x y).toBitVec c = f n (x.toBitVec c) (y.toBitVec c))
    (a b : RuntimeWord Wire) :
    (RuntimeWord.binary message op a b).map (Ty.meaning c (.dyn k)) = (do
      let y ← Ty.Meaning.matching message (Ty.meaning c (.dyn k) a) (Ty.meaning c (.dyn k) b)
      pure ⟨(Ty.meaning c (.dyn k) a).1, f _ (Ty.meaning c (.dyn k) a).2 y⟩) := by
  rw [RuntimeWord.binary, ← map_sameWidth]
  cases RuntimeWord.sameWidth message a b with
  | error message => rfl
  | ok y =>
    have hop := h a.width a.pos a.word y
    exact congrArg (fun z => Except.ok (⟨⟨a.width, a.pos⟩, z⟩ : Ty.Meaning (.dyn k))) hop

theorem map_compare (message : String) (k : Kind)
    {op : (n : Nat) → Word Wire n → Word Wire n → Wire}
    {f : (n : Nat) → BitVec n → BitVec n → Bool}
    (h : ∀ n, 0 < n → ∀ x y, c.value (op n x y) = f n (x.toBitVec c) (y.toBitVec c))
    (a b : RuntimeWord Wire) :
    (RuntimeWord.compare message op a b).map c.value = (do
      let y ← Ty.Meaning.matching message (Ty.meaning c (.dyn k) a) (Ty.meaning c (.dyn k) b)
      pure (f _ (Ty.meaning c (.dyn k) a).2 y)) := by
  rw [RuntimeWord.compare, ← map_sameWidth]
  cases RuntimeWord.sameWidth message a b with
  | error message => rfl
  | ok y => exact congrArg Except.ok (h a.width a.pos a.word y)

theorem toBitVec_ofNat {x : Word Wire n} {v : Nat} (h : x.toNat c = v % 2 ^ n) :
    x.toBitVec c = BitVec.ofNat n v := by
  apply Word.toBitVec_eq
  exact h.trans (BitVec.toNat_ofNat v n).symm

theorem toBitVec_popcount {R : Nat} (hR : 1 ≤ R) (x : Word Wire n) :
    (UIntT.popcount c.toGateOps R x).toBitVec c =
      BitVec.ofNat R (bitCount n (x.toBitVec c).toNat) := by
  apply toBitVec_ofNat
  rw [UIntT.toNat_popcount c hR, Word.toNat_toBitVec]

theorem toBitVec_leadingZeros {R : Nat} (hR : 1 ≤ R) (x : Word Wire n) :
    (UIntT.popcount c.toGateOps R
      (Word.bitNot c.toGateOps (UIntT.smear c.toGateOps x))).toBitVec c =
      BitVec.ofNat R (zeroRun n (x.toBitVec c).toNat) := by
  apply toBitVec_ofNat
  rw [UIntT.toNat_popcount c hR, Word.toNat_toBitVec]
  exact congrArg (· % 2 ^ R) (UIntT.bitCount_unsmeared c x)

theorem toBitVec_select_cond (x : Word Wire n) (sel : Wire) (t : Word Wire n) :
    (x.select c.toGateOps sel t).toBitVec c =
      bif c.value sel then t.toBitVec c else x.toBitVec c :=
  (Word.toBitVec_select c x sel t).trans (Bool.cond_eq_ite _ _ _).symm

theorem Op.map_apply {Δ : List Ty} {τ : Ty} (o : Op Δ τ) (args : Tuple (Ty.Val Wire) Δ) :
    (o.apply c.toGateOps args).map (Ty.meaning c τ) = o.denote (args.map (Ty.meaning c)) := by
  match o, args with
  | bitConst v, .nil => exact congrArg Except.ok (c.value_publicBit v)
  | bitBinary f, .cons a (.cons b .nil) => exact congrArg Except.ok (f.value_apply c a b)
  | bitNot, .cons a .nil => exact congrArg Except.ok (c.value_notGate a)
  | bitSelect, .cons a (.cons sel (.cons t .nil)) =>
    exact congrArg Except.ok ((value_mux c sel t a).trans (Bool.cond_eq_ite _ _ _).symm)
  | bitsConst v, .nil => exact congrArg Except.ok (toBitVec_vector c v)
  | bitsBinary f, .cons a (.cons b .nil) => exact congrArg Except.ok (f.toBitVec_apply c a b)
  | bitsNot, .cons a .nil => exact congrArg Except.ok (Word.toBitVec_bitNot c a)
  | bitsEq, .cons a (.cons b .nil) =>
    exact congrArg Except.ok (value_equal_numbers c .unsigned a b)
  | bitsNe, .cons a (.cons b .nil) =>
    have hne : c.value (c.notGate (Word.equal c.toGateOps a b)) =
        decide
          ¬numberOf .unsigned (Word.toBitVec c a) = numberOf .unsigned (Word.toBitVec c b) := by
      rw [c.value_notGate, value_equal_numbers c .unsigned a b, decide_not]
    exact congrArg Except.ok hne
  | bitsSelect, .cons x (.cons sel (.cons t .nil)) =>
    exact congrArg Except.ok (toBitVec_select_cond c x sel t)
  | bitsShl s, .cons x .nil =>
    exact map_checked _ _ (Word.toBitVec_shiftLeft c x s.toNat)
  | bitsShr s, .cons x .nil =>
    exact map_checked _ _ (Word.toBitVec_shiftRight c x s.toNat)
  | bitsSlice lo len h, .cons x .nil => exact congrArg Except.ok (Word.toBitVec_slice c x h)
  | bitsConcat, .cons lo (.cons hi .nil) =>
    exact congrArg Except.ok (Word.toBitVec_concat c rfl lo hi)
  | bitsGet i h, .cons x .nil => exact congrArg Except.ok (Word.value_wire c x h)
  | asUint w, .cons x .nil => rfl
  | const k w v, .nil => exact congrArg Except.ok (toBitVec_constantOf c w.n k v)
  | @arith k w f, .cons a (.cons b .nil) =>
    exact congrArg Except.ok (f.toBitVec_apply c w.pos k a b)
  | unary f, .cons a .nil => exact f.map_apply c a
  | @compare k w f, .cons a (.cons b .nil) =>
    exact congrArg Except.ok (f.value_apply c w.pos k a b)
  | select, .cons x (.cons sel (.cons t .nil)) =>
    exact congrArg Except.ok (toBitVec_select_cond c x sel t)
  | @shlSecret .unsigned w, .cons x (.cons s .nil) =>
    have hs := congrArg (BitVec.shiftLeft (Word.toBitVec c x)) (Word.toNat_toBitVec c s).symm
    exact congrArg Except.ok ((UIntT.toBitVec_shlSecret c x s).trans hs)
  | @shlSecret .signed w, .cons x (.cons s .nil) =>
    have hs := congrArg (BitVec.shiftLeft (Word.toBitVec c x)) (Word.toNat_toBitVec c s).symm
    exact congrArg Except.ok ((IntT.toBitVec_shlSecret c x s).trans hs)
  | @shrSecret .unsigned w, .cons x (.cons s .nil) =>
    have hs := congrArg (rightShift .unsigned (Word.toBitVec c x)) (Word.toNat_toBitVec c s).symm
    exact congrArg Except.ok ((UIntT.toBitVec_shrSecret c x s).trans hs)
  | @shrSecret .signed w, .cons x (.cons s .nil) =>
    have hs := congrArg (rightShift .signed (Word.toBitVec c x)) (Word.toNat_toBitVec c s).symm
    exact congrArg Except.ok ((IntT.toBitVec_shrSecret c x s).trans hs)
  | popcount r, .cons x .nil => exact congrArg Except.ok (toBitVec_popcount c r.pos x)
  | leadingZeros r h, .cons x .nil => exact congrArg Except.ok (toBitVec_leadingZeros c r.pos x)
  | slice lo v h, .cons x .nil => exact congrArg Except.ok (Word.toBitVec_slice c x h)
  | concat r h, .cons lo (.cons hi .nil) =>
    exact congrArg Except.ok (Word.toBitVec_concat c h lo hi)
  | @extend k w v h, .cons x .nil => exact congrArg Except.ok (toBitVec_extension c w.pos v.n k x)
  | trunc v h, .cons x .nil => exact congrArg Except.ok (Word.toBitVec_trunc c x h)
  | get i h, .cons x .nil => exact congrArg Except.ok (Word.value_wire c x h)
  | cast, .cons x .nil => rfl
  | toDynamic, .cons x .nil => rfl
  | toFixed w, .cons x .nil =>
    exact congrArg Except.ok (Word.toBitVec_resize_zero c w.n (RuntimeWord.word x))
  | dynConst k width v, .nil => exact map_sized c (fun n => toBitVec_constantOf c n k v) k
  | @dynArith k f, .cons a (.cons b .nil) =>
    exact map_binary c k.widthsMessage k (fun n hn => f.toBitVec_apply c hn k) a b
  | dynUnary f, .cons a .nil => exact map_unary c f a
  | @dynCompare k f, .cons a (.cons b .nil) =>
    exact map_compare c k.widthsMessage k (fun n hn => f.value_apply c hn k) a b
  | @dynSelect k, .cons x (.cons sel (.cons t .nil)) =>
    refine @map_binary Wire _ c k.widthsMessage k (fun _ x t => Word.select c.toGateOps x sel t)
      (fun _ x t => bif c.value sel then t else x) (fun n _ x t => ?_) x t
    exact toBitVec_select_cond c x sel t
  | @dynResize k m, .cons x .nil =>
    exact map_sized c (fun n => toBitVec_extension c (RuntimeWord.pos x) n k (RuntimeWord.word x)) k
  | dynCast, .cons x .nil => rfl

end EmpTool.Circuits
