import EmpTool.Circuits.BitCounting
import EmpTool.Circuits.Bitwise
import EmpTool.Circuits.Shifts

namespace EmpTool.Circuits

open Binary Kernel
open EmpTool.Ir (GateOps)

namespace Word

section Operators

variable {Wire : Type} [Inhabited Wire] {m n : Nat} (c : GateOps Wire)

def bitOr (a b : Word Wire n) : Word Wire n := fill fun i => orGate c (a.wire i) (b.wire i)

def concat (lo : Word Wire m) (r : Nat) (hi : Word Wire n) : Word Wire r :=
  fill fun i => if i < m then lo.wire i else hi.wire (i - m)

def resize (filler : Wire) (m : Nat) (x : Word Wire n) : Word Wire m :=
  fill fun i => if i < n then x.wire i else filler

-- the remainders of C++ truncate
def rotlBy (x : Word Wire n) (s : Int) : Word Wire n :=
  let s := (s.tmod n + n).tmod n
  fill fun i => x.wire (((i - s).tmod n + n).tmod n).toNat

def rotrBy (x : Word Wire n) (s : Int) : Word Wire n :=
  let s := (s.tmod n + n).tmod n
  fill fun i => x.wire ((i + s).tmod n).toNat

end Operators

variable {Wire : Type} [Inhabited Wire] {m n : Nat} (c : PlainContext Wire)

@[simp] theorem toBitVec_bitOr (a b : Word Wire n) :
    (a.bitOr c.toGateOps b).toBitVec c = a.toBitVec c ||| b.toBitVec c := by
  apply toBitVec_eq_of_wires
  intro i hi
  rw [bitOr, wire_fill _ hi, value_orGate, BitVec.getLsbD_or, value_wire c a hi, value_wire c b hi]

@[simp] theorem toBitVec_bitNot (a : Word Wire n) :
    (a.bitNot c.toGateOps).toBitVec c = ~~~a.toBitVec c := by
  apply toBitVec_eq_of_wires
  intro i hi
  rw [bitNot, wire_fill _ hi, c.value_notGate, BitVec.getLsbD_not, decide_eq_true hi, Bool.true_and,
    value_wire c a hi]

theorem toBitVec_concat {r : Nat} (hr : r = m + n) (lo : Word Wire m) (hi : Word Wire n) :
    (lo.concat r hi).toBitVec c = (hi.toBitVec c ++ lo.toBitVec c).setWidth r := by
  apply toBitVec_eq_of_wires
  intro i hir
  rw [concat, wire_fill _ hir, BitVec.getLsbD_setWidth, decide_eq_true hir, Bool.true_and,
    BitVec.getLsbD_append]
  split
  case isTrue h => exact value_wire c lo h
  case isFalse h => exact value_wire c hi (by omega)

@[simp] theorem toBitVec_resize_zero (m : Nat) (x : Word Wire n) :
    (x.resize (c.publicBit false) m).toBitVec c = (x.toBitVec c).setWidth m := by
  apply toBitVec_eq_of_wires
  intro i hi
  rw [resize, wire_fill _ hi, BitVec.getLsbD_setWidth, decide_eq_true hi, Bool.true_and]
  split
  case isTrue h => exact value_wire c x h
  case isFalse h => rw [c.value_publicBit, BitVec.getLsbD_of_ge _ _ (Nat.not_lt.mp h)]

theorem toBitVec_resize_sign (hn : 0 < n) (m : Nat) (x : Word Wire n) :
    (x.resize (IntT.signBit x) m).toBitVec c = (x.toBitVec c).signExtend m := by
  apply toBitVec_eq_of_wires
  intro i hi
  rw [resize, wire_fill _ hi, BitVec.getLsbD_signExtend, decide_eq_true hi, Bool.true_and]
  split
  case isTrue h => exact value_wire c x h
  case isFalse => exact IntT.value_signBit c hn x

theorem toBitVec_slice (x : Word Wire m) {offset n : Nat} (h : offset + n ≤ m) :
    (x.slice offset n).toBitVec c = (x.toBitVec c).extractLsb' offset n := by
  apply toBitVec_eq_of_wires
  intro i hi
  rw [wire_slice x offset hi, BitVec.getLsbD_extractLsb', decide_eq_true hi, Bool.true_and]
  exact value_wire c x (by omega)

theorem toBitVec_trunc (x : Word Wire m) {n : Nat} (h : n ≤ m) :
    (x.slice 0 n).toBitVec c = (x.toBitVec c).setWidth n := by
  apply toBitVec_eq_of_wires
  intro i hi
  rw [wire_slice x 0 hi, BitVec.getLsbD_setWidth, decide_eq_true hi, Bool.true_and, Nat.zero_add]
  exact value_wire c x (by omega)

@[simp] theorem toBitVec_rotl (x : Word Wire n) (s : Nat) :
    (x.rotl s).toBitVec c = (x.toBitVec c).rotateLeft s := by
  apply toBitVec_eq_of_wires
  intro i hi
  have hs : s % n < n := Nat.mod_lt s (by omega)
  rw [rotl, wire_fill _ hi, BitVec.getLsbD_rotateLeft, value_wire c x (Nat.mod_lt _ (by omega))]
  by_cases hw : i < s % n
  · rw [decide_eq_true hw, cond_true, Nat.mod_eq_of_lt (by omega)]
    congr 1
    omega
  · rw [decide_eq_false hw, cond_false, decide_eq_true hi, Bool.true_and,
      show i + n - s % n = i - s % n + n by omega, Nat.add_mod_right, Nat.mod_eq_of_lt (by omega)]

theorem wrap_tmod (a : Int) {n : Int} (hn : 0 < n) : (a.tmod n + n).tmod n = a % n := by
  have hlow : -n < a.tmod n := Int.lt_tmod_of_pos a hn
  have hsame : a.tmod n % n = a % n := by
    rw [Int.tmod_def, Int.sub_mul_emod_self_left]
  rw [Int.tmod_eq_emod_of_nonneg (by omega), Int.add_emod_right, hsame]

theorem rotlBy_eq (x : Word Wire n) (s : Int) : x.rotlBy s = x.rotl (s % n).toNat := by
  apply ext_wire
  intro i hi
  have hn : (0 : Int) < n := by omega
  have hlow := Int.emod_nonneg s hn.ne'
  have hlt := Int.emod_lt_of_pos s hn
  obtain ⟨k, hk⟩ := Int.eq_ofNat_of_zero_le hlow
  have hkn : k < n := by omega
  have hpos : (i : Int) - k = ((i + n - k : Nat) : Int) - n := by omega
  rw [rotlBy, rotl, wire_fill _ hi, wire_fill _ hi, wrap_tmod _ hn, wrap_tmod _ hn, hk,
    Int.toNat_natCast, Nat.mod_eq_of_lt hkn, hpos, Int.sub_emod_right, ← Int.natCast_emod,
    Int.toNat_natCast]

theorem rotrBy_eq (x : Word Wire n) (s : Int) : x.rotrBy s = x.rotr (s % n).toNat := by
  apply ext_wire
  intro i hi
  have hn : (0 : Int) < n := by omega
  have hlow := Int.emod_nonneg s hn.ne'
  have hlt := Int.emod_lt_of_pos s hn
  obtain ⟨k, hk⟩ := Int.eq_ofNat_of_zero_le hlow
  have hkn : k < n := by omega
  rw [rotrBy, rotr, wire_fill _ hi, wire_fill _ hi, wrap_tmod _ hn, hk, Int.toNat_natCast,
    Nat.mod_eq_of_lt hkn, Int.tmod_eq_emod_of_nonneg (by omega), ← Int.natCast_add,
    ← Int.natCast_emod, Int.toNat_natCast]

end Word

end EmpTool.Circuits
