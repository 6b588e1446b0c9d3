import EmpTool.Circuits.Bitwise
import EmpTool.Circuits.Crypto.Fips197
import Mathlib.Tactic.IntervalCases

namespace EmpTool.Circuits.Crypto

open Binary Fips197
open EmpTool.Ir (GateOps)

variable {Wire : Type} [Inhabited Wire]

-- the formulas take their bits highest first, so both ends are flipped
def aesSbox (c : GateOps Wire) (uLsb : Word Wire 8) : Word Wire 8 :=
  let x := c.xorGate
  let an := c.andGate
  let nt := c.notGate
  let u := fun i => uLsb.wire (7 - i)
  let t1 := x (u 3) (u 5)
  let t2 := x (u 0) (u 6)
  let t3 := x (u 0) (u 3)
  let t4 := x (u 0) (u 5)
  let t5 := x (u 1) (u 2)
  let t6 := x t5 (u 7)
  let t7 := x t6 (u 3)
  let t8 := x t2 t1
  let t9 := x t6 (u 0)
  let t10 := x t6 (u 6)
  let t11 := x t10 t4
  let t12 := x (u 4) t8
  let t13 := x t12 (u 5)
  let t14 := x t12 (u 1)
  let t15 := x t13 (u 7)
  let t16 := x t13 t5
  let t17 := x t14 t3
  let t18 := x (u 7) t17
  let t19 := x t16 t17
  let t20 := x t16 t4
  let t21 := x t5 t17
  let t22 := x t2 t21
  let t23 := x (u 0) t21
  let t24 := an t8 t13
  let t25 := an t11 t15
  let t27 := an t7 (u 7)
  let t29 := an t2 t21
  let t30 := an t10 t6
  let t32 := an t9 t18
  let t34 := an t3 t17
  let t35 := an t1 t19
  let t37 := an t4 t16
  let t26 := x t25 t24
  let t28 := x t27 t24
  let t31 := x t30 t29
  let t33 := x t32 t29
  let t36 := x t35 t34
  let t38 := x t37 t34
  let t39 := x t26 t14
  let t40 := x t28 t38
  let t41 := x t31 t36
  let t42 := x t33 t38
  let t43 := x t39 t36
  let t44 := x t40 t20
  let t45 := x t41 t22
  let t46 := x t42 t23
  let t47 := x t43 t44
  let t48 := an t43 t45
  let t49 := x t46 t48
  let t50 := an t47 t49
  let t51 := x t50 t44
  let t52 := x t45 t46
  let t53 := x t44 t48
  let t54 := an t53 t52
  let t55 := x t54 t46
  let t56 := x t45 t55
  let t57 := x t49 t55
  let t58 := an t46 t57
  let t59 := x t58 t56
  let t60 := x t49 t58
  let t61 := an t51 t60
  let t62 := x t47 t61
  let t63 := x t62 t59
  let t64 := x t51 t55
  let t65 := x t51 t62
  let t66 := x t55 t59
  let t67 := x t64 t63
  let t68 := an t66 t13
  let t69 := an t59 t15
  let t70 := an t55 (u 7)
  let t71 := an t65 t21
  let t72 := an t62 t6
  let t73 := an t51 t18
  let t74 := an t64 t17
  let t75 := an t67 t19
  let t76 := an t63 t16
  let t77 := an t66 t8
  let t78 := an t59 t11
  let t79 := an t55 t7
  let t80 := an t65 t2
  let t81 := an t62 t10
  let t82 := an t51 t9
  let t83 := an t64 t3
  let t84 := an t67 t1
  let t85 := an t63 t4
  let t86 := x t83 t84
  let t87 := x t78 t86
  let t88 := x t77 t87
  let t89 := x t68 t70
  let t90 := x t69 t68
  let t91 := x t71 t72
  let t92 := x t80 t89
  let t93 := x t75 t91
  let t94 := x t76 t92
  let t95 := x t93 t94
  let t96 := x t91 t90
  let t97 := x t71 t73
  let t98 := x t81 t86
  let t99 := x t89 t97
  let t100 := x t74 t93
  let t101 := x t82 t95
  let t102 := x t98 t99
  let t103 := x t83 t100
  let t104 := x t87 t79
  let t105 := x t101 t103
  let s0 := x t88 t100
  let s3 := x t88 t96
  let s1 := nt (x s3 t100)
  let s2 := nt (x t105 t85)
  let s4 := x t99 s3
  let s5 := x t104 t101
  let s6 := nt (x t95 t102)
  let s7 := nt (x t80 t102)
  ⟨#v[s7, s6, s5, s4, s3, s2, s1, s0]⟩

def aesXtime (c : GateOps Wire) (inp : Word Wire 8) : Word Wire 8 :=
  let m := inp.wire 7
  ⟨#v[m, c.xorGate (inp.wire 0) m, inp.wire 1, c.xorGate (inp.wire 2) m, c.xorGate (inp.wire 3) m,
    inp.wire 4, inp.wire 5, inp.wire 6]⟩

def boolOps : GateOps Bool where
  publicBit v := v
  andGate := and
  xorGate := xor
  notGate := not

theorem wire_mk (v : Vector Wire 8) {i : Nat} (hi : i < 8) : (⟨v⟩ : Word Wire 8).wire i = v[i] := by
  rw [Word.wire, Vector.getElem?_eq_getElem hi, Option.getD_some]

def bitWires (b : Byte) : Word Bool 8 := Word.fill b.getLsbD

def clearSbox (b : Byte) : Byte := vecOf 8 (aesSbox boolOps (bitWires b)).wire

theorem value_aesSbox (c : PlainContext Wire) (u : Word Wire 8) {i : Nat} (hi : i < 8) :
    c.value ((aesSbox c.toGateOps u).wire i) =
      (aesSbox boolOps (bitWires (u.toBitVec c))).wire i := by
  have hu (j : Nat) (hj : j < 8) : (bitWires (u.toBitVec c)).wire j = c.value (u.wire j) := by
    rw [bitWires, Word.wire_fill _ hj, Word.value_wire c u hj]
  simp only [aesSbox, wire_mk _ hi]
  interval_cases i
  all_goals
    simp (disch := decide) only [Vector.getElem_mk, List.getElem_toArray, List.getElem_cons_zero,
      List.getElem_cons_succ, c.value_xorGate, c.value_andGate, c.value_notGate, boolOps, hu]

def affineInv (b : Byte) : Byte :=
  vecOf 8 fun i => b.getLsbD ((i + 2) % 8) ^^ b.getLsbD ((i + 5) % 8) ^^ b.getLsbD ((i + 7) % 8) ^^
    (0x05 : Byte).getLsbD i

theorem clearSbox_inverts : ∀ b : Byte, b ≠ 0 → mul b (affineInv (clearSbox b)) = 1 := by
  decide +kernel

theorem affine_affineInv : ∀ b : Byte, affine (affineInv b) = b := by decide +kernel

theorem clearSbox_zero : clearSbox 0 = affine 0 := by decide +kernel

theorem clearSbox_eq (b : Byte) : clearSbox b = sbox b := by
  by_cases hb : b = 0
  · rw [hb, sbox, inv_zero, clearSbox_zero]
  · rw [sbox, inv_eq (clearSbox_inverts b hb), affine_affineInv]

theorem toBitVec_aesSbox (c : PlainContext Wire) (u : Word Wire 8) :
    (aesSbox c.toGateOps u).toBitVec c = sbox (u.toBitVec c) := by
  rw [← clearSbox_eq]
  apply Word.toBitVec_eq_of_wires
  intro i hi
  rw [value_aesSbox c u hi, clearSbox, getLsbD_vecOf_of_lt _ hi]

theorem toBitVec_aesXtime (c : PlainContext Wire) (u : Word Wire 8) :
    (aesXtime c.toGateOps u).toBitVec c = xtime (u.toBitVec c) := by
  apply Word.toBitVec_eq_of_wires
  intro i hi
  rw [getLsbD_xtime _ hi, aesXtime, wire_mk _ hi]
  interval_cases i <;> simp (disch := omega) [Word.value_wire]

end EmpTool.Circuits.Crypto
