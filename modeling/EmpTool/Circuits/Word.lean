import EmpTool.Circuits.Division
import EmpTool.Runtime.Error

namespace EmpTool.Circuits

open Arrays Binary Kernel
open EmpTool.Ir (GateOps)

-- the wires of a `UInt_T` or an `Int_T`, lowest bit first
structure Word (Wire : Type) (n : Nat) where
  w : Vector Wire n

abbrev UIntT := Word

abbrev IntT := Word

namespace Word

variable {Wire : Type} [Inhabited Wire] {n : Nat}

def wire (x : Word Wire n) (i : Nat) : Wire := x.w[i]?.getD default

def fill (f : Nat → Wire) : Word Wire n := ⟨Vector.ofFn fun i => f i⟩

@[simp] theorem wire_fill (f : Nat → Wire) {i : Nat} (hi : i < n) :
    (fill f : Word Wire n).wire i = f i := by
  simp [wire, fill, hi]

def set (x : Word Wire n) (i : Nat) (a : Wire) : Word Wire n := ⟨x.w.setIfInBounds i a⟩

theorem wire_set (x : Word Wire n) (i : Nat) (a : Wire) {j : Nat} (hj : j < n) :
    (x.set i a).wire j = if i = j then a else x.wire j := by
  rw [wire, set, Vector.getElem?_setIfInBounds]
  split
  case isTrue hij => rw [if_pos (hij ▸ hj)]; rfl
  case isFalse _ => rfl

variable (c : GateOps Wire)

def add (a b : Word Wire n) : Word Wire n :=
  fill (rippleAdd c ⟨.op1, 0⟩ ⟨.op2, 0⟩ ⟨.dest, 0⟩ n (load a.wire b.wire) .dest)

def sub (a b : Word Wire n) : Word Wire n :=
  fill (rippleSub c ⟨.op1, 0⟩ ⟨.op2, 0⟩ ⟨.dest, 0⟩ n (load a.wire b.wire) .dest)

def mul (a b : Word Wire n) : Word Wire n :=
  fill (mulFull c ⟨.dest, 0⟩ ⟨.op1, 0⟩ ⟨.op2, 0⟩ n (load a.wire b.wire) .dest)

def divQuot (a b : Word Wire n) : Word Wire n :=
  fill (divFull c (some ⟨.dest, 0⟩) none ⟨.op1, 0⟩ ⟨.op2, 0⟩ n (load a.wire b.wire) .dest)

def divRem (a b : Word Wire n) : Word Wire n :=
  fill (divFull c none (some ⟨.dest, 0⟩) ⟨.op1, 0⟩ ⟨.op2, 0⟩ n (load a.wire b.wire) .dest)

def equal (a b : Word Wire n) : Wire := Kernel.equal c a.wire b.wire n

def below (a b : Word Wire n) : Wire := Kernel.lessThan c a.wire b.wire n

def select (x : Word Wire n) (sel : Wire) (t : Word Wire n) : Word Wire n :=
  fill fun i => mux c sel (t.wire i) (x.wire i)

def shiftLeft (x : Word Wire n) (s : Nat) : Word Wire n :=
  fill fun i => if s ≤ i then x.wire (i - s) else c.publicBit false

def shiftRight (filler : Wire) (x : Word Wire n) (s : Nat) : Word Wire n :=
  let s := if s > n then n else s
  fill fun i => if i + s < n then x.wire (i + s) else filler

theorem wire_shiftRight (filler : Wire) (x : Word Wire n) (s : Nat) {i : Nat} (hi : i < n) :
    (x.shiftRight filler s).wire i = if i + s < n then x.wire (i + s) else filler := by
  rw [shiftRight, wire_fill _ hi]
  by_cases hs : s > n
  · rw [if_pos hs, if_neg (by omega), if_neg (by omega)]
  · rw [if_neg hs]

end Word

namespace Word

variable {Wire : Type} [Inhabited Wire] {n : Nat} (c : PlainContext Wire)

def toNat (x : Word Wire n) : Nat := c.num n x.wire

def toBitVec (x : Word Wire n) : BitVec n := BitVec.ofNat n (x.toNat c)

def toInt (x : Word Wire n) : Int := (x.toBitVec c).toInt

theorem toNat_lt (x : Word Wire n) : x.toNat c < 2 ^ n := num_lt c n _

@[simp] theorem toNat_toBitVec (x : Word Wire n) : (x.toBitVec c).toNat = x.toNat c := by
  rw [toBitVec, BitVec.toNat_ofNat, Nat.mod_eq_of_lt (x.toNat_lt c)]

theorem toBitVec_eq {x : Word Wire n} {v : BitVec n} (h : x.toNat c = v.toNat) :
    x.toBitVec c = v := by
  apply BitVec.eq_of_toNat_eq
  rw [toNat_toBitVec, h]

@[simp] theorem toNat_fill (f : Nat → Wire) : (fill f : Word Wire n).toNat c = c.num n f :=
  num_congr c fun _ hi => by rw [wire_fill f hi]

theorem getLsbD_toBitVec (x : Word Wire n) (i : Nat) :
    (x.toBitVec c).getLsbD i = (decide (i < n) && c.value (x.wire i)) := by
  rw [BitVec.getLsbD, toNat_toBitVec]
  exact testBit_natOf n (fun i => c.value (x.wire i)) i

theorem value_wire (x : Word Wire n) {i : Nat} (hi : i < n) :
    c.value (x.wire i) = (x.toBitVec c).getLsbD i := by
  rw [getLsbD_toBitVec, decide_eq_true hi, Bool.true_and]

theorem value_wire_testBit (x : Word Wire n) {i : Nat} (hi : i < n) :
    c.value (x.wire i) = (x.toNat c).testBit i := (testBit_num c hi x.wire).symm

theorem toBitVec_eq_of_wires {x : Word Wire n} {v : BitVec n}
    (h : ∀ i < n, c.value (x.wire i) = v.getLsbD i) : x.toBitVec c = v := by
  apply BitVec.eq_of_getLsbD_eq
  intro i hi
  rw [← value_wire c x hi, h i hi]

theorem toNat_of_writes {v : Nat} {m m' : Mem Local Wire} (h : Writes c ⟨.dest, 0⟩ n v m m') :
    (fill (m' .dest) : Word Wire n).toNat c = v := by
  rw [toNat_fill, ← num_zero_offset, h.num]

@[simp] theorem toBitVec_add (a b : Word Wire n) :
    (a.add c.toGateOps b).toBitVec c = a.toBitVec c + b.toBitVec c := by
  apply toBitVec_eq
  have h := (addFull_writes c ⟨.dest, 0⟩ ⟨.op1, 0⟩ ⟨.op2, 0⟩ false none
    (Ptr.trails_of_ne (n := n) (by decide) 0 0) (Ptr.trails_of_ne (by decide) 0 0)
    (load a.wire b.wire)).1
  rw [BitVec.toNat_add, toNat_toBitVec, toNat_toBitVec]
  rw [num_zero_offset, num_zero_offset] at h
  exact toNat_of_writes c h

theorem toNat_add (a b : Word Wire n) :
    (a.add c.toGateOps b).toNat c = (a.toNat c + b.toNat c) % 2 ^ n := by
  rw [← toNat_toBitVec, toBitVec_add, BitVec.toNat_add, toNat_toBitVec, toNat_toBitVec]

@[simp] theorem toBitVec_sub (a b : Word Wire n) :
    (a.sub c.toGateOps b).toBitVec c = a.toBitVec c - b.toBitVec c := by
  apply toBitVec_eq
  have h := (subFull_writes c ⟨.dest, 0⟩ ⟨.op1, 0⟩ ⟨.op2, 0⟩ false none
    (Ptr.trails_of_ne (n := n) (by decide) 0 0) (Ptr.trails_of_ne (by decide) 0 0)
    (load a.wire b.wire)).1
  have hb := b.toNat_lt c
  rw [num_zero_offset, num_zero_offset] at h
  have hnum := toNat_of_writes c h
  rw [BitVec.toNat_sub, toNat_toBitVec, toNat_toBitVec, Nat.add_comm, ← Nat.add_sub_assoc hb.le]
  exact hnum

@[simp] theorem toBitVec_mul (a b : Word Wire n) :
    (a.mul c.toGateOps b).toBitVec c = a.toBitVec c * b.toBitVec c := by
  apply toBitVec_eq
  have h := mulFull_writes c ⟨.dest, 0⟩ ⟨.op1, 0⟩ ⟨.op2, 0⟩ n (load a.wire b.wire)
  rw [num_zero_offset, num_zero_offset] at h
  rw [BitVec.toNat_mul, toNat_toBitVec, toNat_toBitVec]
  exact toNat_of_writes c h

theorem toNat_mul (a b : Word Wire n) :
    (a.mul c.toGateOps b).toNat c = a.toNat c * b.toNat c % 2 ^ n := by
  rw [← toNat_toBitVec, toBitVec_mul, BitVec.toNat_mul, toNat_toBitVec, toNat_toBitVec]

theorem toNat_divQuot (a b : Word Wire n) :
    (a.divQuot c.toGateOps b).toNat c = quotient n (a.toNat c) (b.toNat c) := by
  have h := divFull_quotient c ⟨.dest, 0⟩ ⟨.op1, 0⟩ ⟨.op2, 0⟩ n (load a.wire b.wire)
  rw [num_zero_offset, num_zero_offset] at h
  exact toNat_of_writes c h

theorem toNat_divRem (a b : Word Wire n) :
    (a.divRem c.toGateOps b).toNat c = a.toNat c % b.toNat c := by
  have h := divFull_remainder c ⟨.dest, 0⟩ ⟨.op1, 0⟩ ⟨.op2, 0⟩ n (load a.wire b.wire)
  rw [num_zero_offset, num_zero_offset] at h
  exact toNat_of_writes c h

@[simp] theorem toBitVec_divQuot (a b : Word Wire n) :
    (a.divQuot c.toGateOps b).toBitVec c = (a.toBitVec c).smtUDiv (b.toBitVec c) := by
  apply toBitVec_eq
  have hzero : b.toBitVec c = 0#n ↔ b.toNat c = 0 := by
    rw [← BitVec.toNat_inj, toNat_toBitVec, BitVec.toNat_ofNat, Nat.zero_mod]
  rw [toNat_divQuot, BitVec.smtUDiv_eq, quotient]
  by_cases hb : b.toNat c = 0
  · rw [if_pos hb, if_pos (hzero.mpr hb), BitVec.toNat_allOnes]
  · rw [if_neg hb, if_neg (mt hzero.mp hb), BitVec.toNat_udiv, toNat_toBitVec, toNat_toBitVec]

@[simp] theorem toBitVec_divRem (a b : Word Wire n) :
    (a.divRem c.toGateOps b).toBitVec c = a.toBitVec c % b.toBitVec c := by
  apply toBitVec_eq
  rw [toNat_divRem, BitVec.toNat_umod, toNat_toBitVec, toNat_toBitVec]

@[simp] theorem toBitVec_select (x : Word Wire n) (sel : Wire) (t : Word Wire n) :
    (x.select c.toGateOps sel t).toBitVec c =
      if c.value sel then t.toBitVec c else x.toBitVec c := by
  apply toBitVec_eq_of_wires
  intro i hi
  rw [select, wire_fill _ hi, value_mux]
  split <;> exact value_wire c _ hi

theorem toNat_select (x : Word Wire n) (sel : Wire) (t : Word Wire n) :
    (x.select c.toGateOps sel t).toNat c = if c.value sel then t.toNat c else x.toNat c := by
  rw [← toNat_toBitVec, toBitVec_select]
  split <;> exact toNat_toBitVec c _

@[simp] theorem toBitVec_shiftLeft (x : Word Wire n) (s : Nat) :
    (x.shiftLeft c.toGateOps s).toBitVec c = x.toBitVec c <<< s := by
  apply toBitVec_eq_of_wires
  intro i hi
  rw [shiftLeft, wire_fill _ hi, BitVec.getLsbD_shiftLeft, decide_eq_true hi, Bool.true_and]
  by_cases hs : s ≤ i
  · rw [if_pos hs, decide_eq_false (Nat.not_lt.mpr hs), value_wire c x (by omega)]
    rfl
  · rw [if_neg hs, decide_eq_true (Nat.not_le.mp hs), c.value_publicBit]
    rfl

@[simp] theorem toBitVec_shiftRight (x : Word Wire n) (s : Nat) :
    (x.shiftRight (c.publicBit false) s).toBitVec c = x.toBitVec c >>> s := by
  apply toBitVec_eq_of_wires
  intro i hi
  rw [wire_shiftRight _ _ _ hi, BitVec.getLsbD_ushiftRight, Nat.add_comm i s]
  by_cases hs : s + i < n
  · rw [if_pos hs, value_wire c x hs]
  · rw [if_neg hs, BitVec.getLsbD_of_ge _ _ (Nat.not_lt.mp hs), c.value_publicBit]

theorem value_below (a b : Word Wire n) (hn : 0 < n) :
    c.value (a.below c.toGateOps b) = decide (a.toNat c < b.toNat c) :=
  lessThan_value c _ _ hn

theorem value_equal (a b : Word Wire n) :
    c.value (a.equal c.toGateOps b) = decide (a.toNat c = b.toNat c) :=
  equal_value c _ _ n

end Word

def bitOfWord (v : UInt64) (i : Nat) : Bool := (v >>> UInt64.ofNat i) &&& 1 ≠ 0

theorem bitOfWord_eq (v : UInt64) {i : Nat} (hi : i < 64) : bitOfWord v i = v.toNat.testBit i := by
  have hshift : (UInt64.ofNat i).toNat % 64 = i := by
    rw [UInt64.toNat_ofNat']
    omega
  have hand : ((v >>> UInt64.ofNat i) &&& 1).toNat = v.toNat >>> i % 2 := by
    rw [UInt64.toNat_and, UInt64.toNat_shiftRight, hshift]
    exact Nat.and_one_is_mod _
  rw [bitOfWord, Nat.testBit, Bool.eq_iff_iff, decide_eq_true_iff, Ne, ← UInt64.toNat_inj, hand,
    Nat.and_comm, Nat.and_one_is_mod, bne_iff_ne]
  rfl

-- a runtime-width value: the width is validated when it is constructed
structure RuntimeWord (Wire : Type) where
  width : Nat
  pos : 1 ≤ width
  word : Word Wire width

namespace RuntimeWord

variable {Wire : Type}

def sameWidth (message : String) (a b : RuntimeWord Wire) : Except String (Word Wire a.width) :=
  if h : b.width = a.width then .ok (h ▸ b.word) else .error message

def binary (message : String)
    (op : (n : Nat) → Word Wire n → Word Wire n → Word Wire n) (a b : RuntimeWord Wire) :
    Except String (RuntimeWord Wire) := do
  let o ← sameWidth message a b
  pure ⟨a.width, a.pos, op a.width a.word o⟩

def compare (message : String) (op : (n : Nat) → Word Wire n → Word Wire n → Wire)
    (a b : RuntimeWord Wire) : Except String Wire := do
  let o ← sameWidth message a b
  pure (op a.width a.word o)

def construct (message : String) (width : Int) (word : (n : Nat) → Word Wire n) :
    Except String (RuntimeWord Wire) :=
  if h : 1 ≤ width then .ok ⟨width.toNat, by omega, word width.toNat⟩ else .error message

def set (x : RuntimeWord Wire) (i : Nat) (a : Wire) : RuntimeWord Wire :=
  ⟨x.width, x.pos, x.word.set i a⟩

theorem construct_eq (message : String) {n : Nat} (pos : 1 ≤ n) (word : (n : Nat) → Word Wire n) :
    construct message n word = .ok ⟨n, pos, word n⟩ := by
  rw [construct, dif_pos (by omega)]
  rfl

theorem binary_eq (message : String) (op : (n : Nat) → Word Wire n → Word Wire n → Word Wire n)
    {n : Nat} (pos : 1 ≤ n) (a b : Word Wire n) :
    binary message op ⟨n, pos, a⟩ ⟨n, pos, b⟩ = .ok ⟨n, pos, op n a b⟩ := by
  simp [binary, sameWidth]

theorem compare_eq (message : String) (op : (n : Nat) → Word Wire n → Word Wire n → Wire)
    {n : Nat} (pos : 1 ≤ n) (a b : Word Wire n) :
    compare message op ⟨n, pos, a⟩ ⟨n, pos, b⟩ = .ok (op n a b) := by
  simp [compare, sameWidth]

end RuntimeWord

end EmpTool.Circuits
