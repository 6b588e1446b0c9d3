import EmpTool.Circuits.UnsignedInt

namespace EmpTool.Circuits

open Binary
open EmpTool.Ir (GateOps)

namespace Word

variable {Wire : Type} [Inhabited Wire] {m n : Nat}

instance : Inhabited (Word Wire n) := ⟨fill fun _ => default⟩

theorem ext_wire {x y : Word Wire n} (h : ∀ i < n, x.wire i = y.wire i) : x = y := by
  obtain ⟨v⟩ := x
  obtain ⟨w⟩ := y
  congr 1
  ext i hi
  have hi' := h i hi
  simpa only [wire, Vector.getElem?_eq_getElem hi, Option.getD_some] using hi'

-- `x + offset`, read as an array of `n` wires
def slice (x : Word Wire m) (offset n : Nat) : Word Wire n := fill fun k => x.wire (offset + k)

def store (x : Word Wire n) (offset : Nat) (y : Word Wire m) : Word Wire n :=
  fill fun i => if offset ≤ i ∧ i < offset + m then y.wire (i - offset) else x.wire i

def byte (x : Word Wire n) (b : Nat) : Word Wire 8 := x.slice (b * 8) 8

def fillBytes (f : Nat → Word Wire 8) : Word Wire n := fill fun i => (f (i / 8)).wire (i % 8)

def scatter (x : Word Wire n) (count : Nat) (index : Nat → Nat) (value : Nat → Wire) : Word Wire n :=
  (List.range count).foldl (fun x t => x.set (index t) (value t)) x

theorem wire_slice (x : Word Wire m) (offset : Nat) {i : Nat} (hi : i < n) :
    (x.slice offset n).wire i = x.wire (offset + i) := wire_fill _ hi

theorem wire_store (x : Word Wire n) (offset : Nat) (y : Word Wire m) {i : Nat} (hi : i < n) :
    (x.store offset y).wire i =
      if offset ≤ i ∧ i < offset + m then y.wire (i - offset) else x.wire i := wire_fill _ hi

theorem wire_byte (x : Word Wire n) (b : Nat) {k : Nat} (hk : k < 8) :
    (x.byte b).wire k = x.wire (b * 8 + k) := wire_slice x _ hk

theorem byte_fillBytes (f : Nat → Word Wire 8) {b : Nat} (hb : b * 8 + 8 ≤ n) :
    (fillBytes f : Word Wire n).byte b = f b := by
  apply ext_wire
  intro k hk
  rw [wire_byte _ _ hk, fillBytes, wire_fill _ (by omega)]
  congr 2 <;> omega

theorem slice_store_other (x : Word Wire n) (y : Word Wire m) {k offset offset' : Nat}
    (hin : offset' + k ≤ n) (h : offset' + k ≤ offset ∨ offset + m ≤ offset') :
    (x.store offset y).slice offset' k = x.slice offset' k := by
  apply ext_wire
  intro i hi
  rw [wire_slice _ _ hi, wire_slice _ _ hi, wire_store _ _ _ (by omega), if_neg (by omega)]

theorem wire_scatter (x : Word Wire n) {count : Nat} {index : Nat → Nat} (value : Nat → Wire)
    (hinj : ∀ s < count, ∀ t < count, index s = index t → s = t) {t : Nat} (ht : t < count)
    (hin : index t < n) : (x.scatter count index value).wire (index t) = value t := by
  induction count with
  | zero => exact absurd ht (Nat.not_lt_zero t)
  | succ count ih =>
    rw [scatter, List.range_succ, List.foldl_concat, wire_set _ _ _ hin]
    by_cases hlast : t = count
    · rw [if_pos (by rw [hlast]), hlast]
    · have hne : index count ≠ index t := fun h =>
        hlast (hinj count (Nat.lt_succ_self count) t ht h).symm
      rw [if_neg hne]
      exact ih (fun s hs t ht => hinj s (Nat.lt_succ_of_lt hs) t (Nat.lt_succ_of_lt ht)) (by omega)

theorem byte_slice (x : Word Wire m) {o b : Nat} (hb : b * 8 + 8 ≤ n) :
    (x.slice (o * 8) n).byte b = x.byte (o + b) := by
  apply ext_wire
  intro k hk
  rw [wire_byte _ _ hk, wire_byte _ _ hk, wire_slice _ _ (by omega)]
  congr 1
  omega

theorem byte_store_same (x : Word Wire n) (y : Word Wire m) {o b : Nat} (hb : b * 8 + 8 ≤ m)
    (hn : (o + b) * 8 + 8 ≤ n) : (x.store (o * 8) y).byte (o + b) = y.byte b := by
  apply ext_wire
  intro k hk
  rw [wire_byte _ _ hk, wire_byte _ _ hk, wire_store _ _ _ (by omega), if_pos (by omega)]
  congr 1
  omega

theorem byte_store_other (x : Word Wire n) (y : Word Wire m) {o b : Nat} (hn : b * 8 + 8 ≤ n)
    (h : b * 8 + 8 ≤ o * 8 ∨ o * 8 + m ≤ b * 8) : (x.store (o * 8) y).byte b = x.byte b :=
  slice_store_other x y hn h

variable (c : GateOps Wire)

def bitXor (a b : Word Wire n) : Word Wire n := fill fun i => c.xorGate (a.wire i) (b.wire i)

def bitAnd (a b : Word Wire n) : Word Wire n := fill fun i => c.andGate (a.wire i) (b.wire i)

def bitNot (a : Word Wire n) : Word Wire n := fill fun i => c.notGate (a.wire i)

theorem byte_bitXor (a b : Word Wire n) {j : Nat} (hj : j * 8 + 8 ≤ n) :
    (a.bitXor c b).byte j = (a.byte j).bitXor c (b.byte j) := by
  apply ext_wire
  intro k hk
  rw [wire_byte _ _ hk, bitXor, bitXor, wire_fill _ (by omega), wire_fill _ hk, wire_byte _ _ hk,
    wire_byte _ _ hk]

def rotr (x : Word Wire n) (s : Nat) : Word Wire n := fill fun i => x.wire ((i + s % n) % n)

def rotl (x : Word Wire n) (s : Nat) : Word Wire n := fill fun i => x.wire ((i + n - s % n) % n)

end Word

namespace Word

variable {Wire : Type} [Inhabited Wire] {m n : Nat} (c : PlainContext Wire)

@[simp] theorem toBitVec_bitXor (a b : Word Wire n) :
    (a.bitXor c.toGateOps b).toBitVec c = a.toBitVec c ^^^ b.toBitVec c := by
  apply toBitVec_eq_of_wires
  intro i hi
  rw [bitXor, wire_fill _ hi, c.value_xorGate, BitVec.getLsbD_xor, value_wire c a hi,
    value_wire c b hi]

@[simp] theorem toBitVec_bitAnd (a b : Word Wire n) :
    (a.bitAnd c.toGateOps b).toBitVec c = a.toBitVec c &&& b.toBitVec c := by
  apply toBitVec_eq_of_wires
  intro i hi
  rw [bitAnd, wire_fill _ hi, c.value_andGate, BitVec.getLsbD_and, value_wire c a hi,
    value_wire c b hi]

@[simp] theorem toBitVec_rotr (x : Word Wire n) (s : Nat) :
    (x.rotr s).toBitVec c = (x.toBitVec c).rotateRight s := by
  apply toBitVec_eq_of_wires
  intro i hi
  have hs : s % n < n := Nat.mod_lt s (by omega)
  rw [rotr, wire_fill _ hi, BitVec.getLsbD_rotateRight, value_wire c x (Nat.mod_lt _ (by omega))]
  by_cases hw : i < n - s % n
  · rw [decide_eq_true hw, cond_true, Nat.mod_eq_of_lt (by omega), Nat.add_comm]
  · rw [decide_eq_false hw, cond_false, decide_eq_true hi, Bool.true_and, Nat.mod_eq_sub_mod (by omega),
      Nat.mod_eq_of_lt (by omega)]
    congr 1
    omega

end Word

end EmpTool.Circuits
