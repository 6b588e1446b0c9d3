import EmpTool.Circuits.Bitwise
import EmpTool.Circuits.Crypto.Fips202

namespace EmpTool.Circuits.Crypto

open Binary Fips202 Word
open EmpTool.Ir (GateOps)

variable {Wire : Type} [Inhabited Wire]

def keccakRho : List (List Nat) :=
  [[0, 1, 62, 28, 27], [36, 44, 6, 55, 20], [3, 10, 43, 25, 39], [41, 45, 15, 21, 8],
    [18, 2, 61, 56, 14]]

def keccakRc : List UInt64 :=
  [0x0000000000000001, 0x0000000000008082, 0x800000000000808a,
    0x8000000080008000, 0x000000000000808b, 0x0000000080000001,
    0x8000000080008081, 0x8000000000008009, 0x000000000000008a,
    0x0000000000000088, 0x0000000080008009, 0x000000008000000a,
    0x000000008000808b, 0x800000000000008b, 0x8000000000008089,
    0x8000000000008003, 0x8000000000008002, 0x8000000000000080,
    0x000000000000800a, 0x800000008000000a, 0x8000000080008081,
    0x8000000000008080, 0x0000000080000001, 0x8000000080008008]

def keccakLane (x y : Nat) : Nat := 5 * y + x

abbrev Lanes (Wire : Type) := Word (Word Wire 64) 25

namespace Lanes

def lane (A : Lanes Wire) (x y : Nat) : Word Wire 64 := A.wire (keccakLane x y)

def build (f : Nat → Nat → Word Wire 64) : Lanes Wire := fill fun l => f (l % 5) (l / 5)

theorem lane_build (f : Nat → Nat → Word Wire 64) {x y : Nat} (hx : x < 5) (hy : y < 5) :
    (build f).lane x y = f x y := by
  have hmod : (5 * y + x) % 5 = x := by omega
  have hdiv : (5 * y + x) / 5 = y := by omega
  rw [lane, keccakLane, build, wire_fill _ (by omega), hmod, hdiv]

end Lanes

open Lanes

section

variable (c : GateOps Wire)

def keccakTheta (A : Lanes Wire) : Lanes Wire :=
  let C : Word (Word Wire 64) 5 := fill fun x =>
    ((((A.lane x 0).bitXor c (A.lane x 1)).bitXor c (A.lane x 2)).bitXor c (A.lane x 3)).bitXor c
      (A.lane x 4)
  let D : Word (Word Wire 64) 5 := fill fun x =>
    (C.wire ((x + 4) % 5)).bitXor c ((C.wire ((x + 1) % 5)).rotl 1)
  build fun x y => (A.lane x y).bitXor c (D.wire x)

def keccakRhoPi (A : Lanes Wire) : Lanes Wire :=
  let B : Lanes Wire := fill fun _ => default
  B.scatter 25 (fun t => keccakLane (t % 5) ((2 * (t / 5) + 3 * (t % 5)) % 5))
    fun t => (A.lane (t / 5) (t % 5)).rotl ((keccakRho.getD (t % 5) []).getD (t / 5) 0)

def keccakChi (A : Lanes Wire) : Lanes Wire :=
  build fun x y => (A.lane x y).bitXor c
    (((A.lane ((x + 1) % 5) y).bitNot c).bitAnd c (A.lane ((x + 2) % 5) y))

def keccakIota (r : Nat) (A : Lanes Wire) : Lanes Wire :=
  A.set 0 ((A.wire 0).bitXor c (UIntT.constant c (keccakRc.getD r 0)))

def keccakF1600 (A : Lanes Wire) : Lanes Wire :=
  (List.range 24).foldl (fun A r => keccakIota c r (keccakChi c (keccakRhoPi (keccakTheta c A)))) A

end

variable (c : PlainContext Wire)

def lanesState (A : Lanes Wire) : State :=
  Vector.ofFn fun i => c.value ((A.wire (i / 64)).wire (i % 64))

theorem bit_lanesState (A : Lanes Wire) (x y : Fin 5) (z : Fin 64) :
    (lanesState c A).bit x y z = c.value ((A.lane x y).wire z) := by
  have hdiv : (64 * (5 * y.val + x.val) + z.val) / 64 = 5 * y.val + x.val := by omega
  have hmod : (64 * (5 * y.val + x.val) + z.val) % 64 = z.val := by omega
  simp only [State.bit, lanesState, Vector.getElem_ofFn, hdiv, hmod]
  rfl

theorem lanesState_eq_build {A : Lanes Wire} {f : Fin 5 → Fin 5 → Fin 64 → Bool}
    (h : ∀ x y z, c.value ((A.lane x.val y.val).wire z.val) = f x y z) :
    lanesState c A = State.build f := by
  apply Vector.ext
  intro i hi
  have hlane : 5 * (i / 64 / 5) + i / 64 % 5 = i / 64 := by omega
  rw [lanesState, State.build, Vector.getElem_ofFn, Vector.getElem_ofFn, ← h, lane, keccakLane]
  simp only [hlane]

theorem value_bitXor {n : Nat} (a b : Word Wire n) {i : Nat} (hi : i < n) :
    c.value ((a.bitXor c.toGateOps b).wire i) = (c.value (a.wire i) ^^ c.value (b.wire i)) := by
  rw [bitXor, wire_fill _ hi, c.value_xorGate]

theorem value_rotl {n : Nat} (a : Word Wire n) (s : Nat) {i : Nat} (hi : i < n) :
    c.value ((a.rotl s).wire i) = c.value (a.wire ((n - s % n + i) % n)) := by
  have hs : s % n < n := Nat.mod_lt s (by omega)
  rw [rotl, wire_fill _ hi]
  congr 3
  omega

theorem lanesState_theta (A : Lanes Wire) :
    lanesState c (keccakTheta c.toGateOps A) = theta (lanesState c A) := by
  apply lanesState_eq_build
  intro x y z
  have hleft : (x - 1).val = (x.val + 4) % 5 := by omega
  have hcolumn (i : Nat) (hi : i < 5) {j : Nat} (hj : j < 64) :
      c.value ((((((A.lane i 0).bitXor c.toGateOps (A.lane i 1)).bitXor c.toGateOps
        (A.lane i 2)).bitXor c.toGateOps (A.lane i 3)).bitXor c.toGateOps (A.lane i 4)).wire j) =
          parity (lanesState c A) ⟨i, hi⟩ ⟨j, hj⟩ := by
    simp only [value_bitXor c _ _ hj, parity, bit_lanesState]
    rfl
  rw [keccakTheta, lane_build _ x.isLt y.isLt, value_bitXor c _ _ z.isLt, bit_lanesState,
    wire_fill _ x.isLt, value_bitXor c _ _ z.isLt, value_rotl c _ _ z.isLt,
    wire_fill _ (Nat.mod_lt _ (by decide)), wire_fill _ (Nat.mod_lt _ (by decide)),
    hcolumn _ (Nat.mod_lt _ (by decide)) z.isLt,
    hcolumn _ (Nat.mod_lt _ (by decide)) (Nat.mod_lt _ (by decide))]
  congr 3
  exact Fin.ext hleft.symm

theorem keccakRho_eq : ∀ x y : Fin 5, (keccakRho.getD y []).getD x 0 = offset x y % 64 := by decide

theorem rhoPi_inj {s t : Nat} (hs : s < 25) (ht : t < 25)
    (h : keccakLane (s % 5) ((2 * (s / 5) + 3 * (s % 5)) % 5) =
      keccakLane (t % 5) ((2 * (t / 5) + 3 * (t % 5)) % 5)) : s = t := by
  rw [keccakLane, keccakLane] at h
  omega

theorem lanesState_rhoPi (A : Lanes Wire) :
    lanesState c (keccakRhoPi A) = pi (rho (lanesState c A)) := by
  apply lanesState_eq_build
  intro x y z
  have hfrom : (x + 3 * y).val = (x.val + 3 * y.val) % 5 := by omega
  obtain ⟨t, ht⟩ : ∃ t, t = 5 * ((x.val + 3 * y.val) % 5) + x.val := ⟨_, rfl⟩
  have hmod : t % 5 = x.val := by omega
  have hdiv : t / 5 = (x + 3 * y).val := by omega
  have hindex : keccakLane x y = keccakLane (t % 5) ((2 * (t / 5) + 3 * (t % 5)) % 5) := by
    rw [keccakLane, keccakLane, hmod]
    omega
  rw [keccakRhoPi, lane, hindex, wire_scatter _ _ (fun s hs t ht => rhoPi_inj hs ht) (by omega)
    (by rw [← hindex, keccakLane]; omega), value_rotl c _ _ z.isLt, rho, State.bit_build,
    bit_lanesState, hdiv, hmod, keccakRho_eq, Nat.mod_mod]
  congr 2

theorem lanesState_chi (A : Lanes Wire) :
    lanesState c (keccakChi c.toGateOps A) = chi (lanesState c A) := by
  apply lanesState_eq_build
  intro x y z
  have hone : (x + 1).val = (x.val + 1) % 5 := Fin.val_add x 1
  have htwo : (x + 2).val = (x.val + 2) % 5 := Fin.val_add x 2
  rw [keccakChi, lane_build _ x.isLt y.isLt, value_bitXor c _ _ z.isLt, bitAnd, wire_fill _ z.isLt,
    c.value_andGate, bitNot, wire_fill _ z.isLt, c.value_notGate, bit_lanesState, bit_lanesState,
    bit_lanesState, hone, htwo, Bool.xor_true]

theorem keccakRc_eq : ∀ r < 24, ∀ z < 64,
    (keccakRc.getD r 0).toNat.testBit z = roundConstant r z := by decide +kernel

theorem lanesState_iota (A : Lanes Wire) {r : Nat} (hr : r < 24) :
    lanesState c (keccakIota c.toGateOps r A) = iota r (lanesState c A) := by
  apply lanesState_eq_build
  intro x y z
  rw [keccakIota, lane, wire_set _ _ _ (by rw [keccakLane]; omega)]
  by_cases hzero : x = 0 ∧ y = 0
  · obtain ⟨rfl, rfl⟩ := hzero
    have hconstant : c.value ((UIntT.constant c.toGateOps (keccakRc.getD r 0) : Word Wire 64).wire z) =
        roundConstant r z := by
      rw [UIntT.constant, wire_fill _ z.isLt, if_pos z.isLt, c.value_publicBit,
        bitOfWord_eq _ z.isLt, keccakRc_eq r hr z z.isLt]
    have hlane : 0 = keccakLane (0 : Fin 5) (0 : Fin 5) := rfl
    rw [if_pos hlane, value_bitXor c _ _ z.isLt, hconstant, if_pos ⟨rfl, rfl⟩, bit_lanesState]
    rfl
  · have hne : 0 ≠ keccakLane x y := by
      rw [keccakLane]
      omega
    rw [if_neg hne, if_neg hzero, bit_lanesState]
    rfl

theorem lanesState_keccakF1600 (A : Lanes Wire) :
    lanesState c (keccakF1600 c.toGateOps A) = keccakF (lanesState c A) := by
  have hrounds (n : Nat) (hn : n ≤ 24) :
      lanesState c ((List.range n).foldl (fun A r => keccakIota c.toGateOps r
        (keccakChi c.toGateOps (keccakRhoPi (keccakTheta c.toGateOps A)))) A) =
      (List.range n).foldl (fun s ir => iota ir (chi (pi (rho (theta s))))) (lanesState c A) := by
    induction n with
    | zero => rfl
    | succ n ih =>
      rw [List.range_succ, List.foldl_concat, List.foldl_concat, lanesState_iota c _ (by omega),
        lanesState_chi, lanesState_rhoPi, lanesState_theta, ih (by omega)]
  exact hrounds 24 (by decide)

end EmpTool.Circuits.Crypto
