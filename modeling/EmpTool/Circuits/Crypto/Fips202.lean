import EmpTool.Library.Recurrence
import Mathlib.Algebra.Ring.Nat
import Mathlib.Data.List.GetD
import Mathlib.Logic.Function.Iterate

namespace EmpTool.Circuits.Fips202

-- the bit string of a state: lane `(x, y)` is its `5 * y + x`-th word
abbrev State := Vector Bool 1600

namespace State

def bit (s : State) (x y : Fin 5) (z : Fin 64) : Bool := s[64 * (5 * y.val + x.val) + z.val]

def build (f : Fin 5 → Fin 5 → Fin 64 → Bool) : State :=
  Vector.ofFn fun i => f ⟨i / 64 % 5, by omega⟩ ⟨i / 64 / 5, by omega⟩ ⟨i % 64, by omega⟩

@[simp] theorem bit_build (f : Fin 5 → Fin 5 → Fin 64 → Bool) (x y : Fin 5) (z : Fin 64) :
    (build f).bit x y z = f x y z := by
  have hword : (64 * (5 * y.val + x.val) + z.val) / 64 = 5 * y.val + x.val := by omega
  have hbit : (64 * (5 * y.val + x.val) + z.val) % 64 = z.val := by omega
  have hmod : (5 * y.val + x.val) % 5 = x.val := by omega
  have hdiv : (5 * y.val + x.val) / 5 = y.val := by omega
  simp only [bit, build, Vector.getElem_ofFn, hword, hbit, hmod, hdiv]

end State

open State

def parity (s : State) (x : Fin 5) (z : Fin 64) : Bool :=
  s.bit x 0 z ^^ s.bit x 1 z ^^ s.bit x 2 z ^^ s.bit x 3 z ^^ s.bit x 4 z

def theta (s : State) : State :=
  build fun x y z => s.bit x y z ^^ (parity s (x - 1) z ^^ parity s (x + 1) (z - 1))

-- the lanes in the order in which they are rotated
def trajectory : Nat → Fin 5 × Fin 5
  | 0 => (1, 0)
  | t + 1 => ((trajectory t).2, 2 * (trajectory t).1 + 3 * (trajectory t).2)

-- the lane `(0, 0)`, which is never reached, is not rotated
def offset (x y : Fin 5) : Nat :=
  match (List.range 24).find? fun t => trajectory t == (x, y) with
  | some t => (t + 1) * (t + 2) / 2
  | none => 0

def rho (s : State) : State := build fun x y z => s.bit x y (z - Fin.ofNat 64 (offset x y))

def pi (s : State) : State := build fun x y z => s.bit (x + 3 * y) x z

def chi (s : State) : State :=
  build fun x y z => s.bit x y z ^^ ((s.bit (x + 1) y z ^^ true) && s.bit (x + 2) y z)

-- one step of the shift register, whose bits are numbered from the left
def shiftRegister (r : List Bool) : List Bool :=
  let r := false :: r
  let top := r.getD 8 false
  (r.mapIdx fun i b => if i = 0 ∨ i = 4 ∨ i = 5 ∨ i = 6 then b ^^ top else b).take 8

def rc (t : Nat) : Bool :=
  (shiftRegister^[t % 255] [true, false, false, false, false, false, false, false]).getD 0 false

def roundConstant (ir z : Nat) : Bool :=
  (List.range 7).any fun j => decide (z = 2 ^ j - 1) && rc (j + 7 * ir)

def iota (ir : Nat) (s : State) : State :=
  build fun x y z =>
    if x = 0 ∧ y = 0 then s.bit x y z ^^ roundConstant ir z else s.bit x y z

def keccakF (s : State) : State :=
  (List.range 24).foldl (fun s ir => iota ir (chi (pi (rho (theta s))))) s

def rate : Nat := 1088

-- `pad10*1`, with the least number of zeros that fills the last block
def pad (m : List Bool) : List Bool :=
  m ++ [true] ++ List.replicate ((2 * rate - 2 - m.length % rate) % rate) false ++ [true]

def addBits (s : State) (p : List Bool) (i r : Nat) : State :=
  Vector.ofFn fun k : Fin 1600 => s[k] ^^ (decide (k < r) && p.getD (rate * i + k) false)

def xorBlock (s : State) (p : List Bool) (i : Nat) : State := addBits s p i rate

def absorb (p : List Bool) (blocks : Nat) : State :=
  (List.range blocks).foldl (fun s i => keccakF (xorBlock s p i)) (Vector.replicate 1600 false)

-- the digest fits in one block of output
def sha3_256 (m : List Bool) : List Bool :=
  let p := pad (m ++ [false, true])
  (absorb p (p.length / rate)).toList.take 256

theorem getD_pad (m : List Bool) (i : Nat) :
    (pad (m ++ [false, true])).getD i false =
      if i < m.length then m.getD i false
      else decide (i = m.length + 1 ∨ i = m.length + 2 ∨
        i = m.length + 3 + (2 * rate - 2 - (m.length + 2) % rate) % rate) := by
  have hlen : (m ++ [false, true]).length = m.length + 2 := by simp
  rw [pad, hlen]
  generalize (2 * rate - 2 - (m.length + 2) % rate) % rate = z
  simp only [List.append_assoc]
  by_cases hmsg : i < m.length
  · rw [if_pos hmsg, List.getD_append _ _ _ _ hmsg]
  · obtain ⟨j, rfl⟩ := Nat.exists_eq_add_of_le (Nat.not_lt.mp hmsg)
    rw [if_neg hmsg, List.getD_append_right _ _ _ _ (by omega), Nat.add_sub_cancel_left]
    match j with
    | 0 =>
      rw [decide_eq_false (by omega)]
      rfl
    | 1 => simp
    | 2 => simp
    | j + 3 =>
      have htail : ([false, true] ++ ([true] ++ (List.replicate z false ++ [true]))).getD (j + 3) false =
          (List.replicate z false ++ [true]).getD j false := rfl
      rw [htail]
      by_cases hj : j < z
      · rw [List.getD_append _ _ _ _ (by rw [List.length_replicate]; exact hj),
          List.getD_replicate false hj, decide_eq_false (by omega)]
      · rw [List.getD_append_right _ _ _ _ (by rw [List.length_replicate]; omega),
          List.length_replicate]
        by_cases hlast : j = z
        · rw [hlast, Nat.sub_self, decide_eq_true (by omega)]
          rfl
        · rw [List.getD_eq_default _ _ (by rw [List.length_singleton]; omega),
            decide_eq_false (by omega)]

theorem length_pad (m : List Bool) :
    (pad (m ++ [false, true])).length =
      m.length + 4 + (2 * rate - 2 - (m.length + 2) % rate) % rate := by
  have hlen : (m ++ [false, true]).length = m.length + 2 := by simp
  rw [pad, hlen, List.length_append, List.length_append, List.length_append, hlen,
    List.length_replicate, List.length_singleton]
  omega

theorem getElem_addBits (s : State) (p : List Bool) (i r : Nat) {k : Nat} (hk : k < 1600) :
    (addBits s p i r)[k] = (s[k] ^^ (decide (k < r) && p.getD (rate * i + k) false)) :=
  Vector.getElem_ofFn hk

theorem addBits_zero (s : State) (p : List Bool) (i : Nat) : addBits s p i 0 = s := by
  apply Vector.ext
  intro k hk
  rw [getElem_addBits s p i 0 hk, decide_eq_false (Nat.not_lt_zero k), Bool.false_and,
    Bool.xor_false]

theorem absorb_succ (p : List Bool) (blocks : Nat) :
    absorb p (blocks + 1) = keccakF (xorBlock (absorb p blocks) p blocks) := by
  rw [absorb, List.range_succ, List.foldl_concat]
  rfl

end EmpTool.Circuits.Fips202
