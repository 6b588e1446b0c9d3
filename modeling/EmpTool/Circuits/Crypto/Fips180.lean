import EmpTool.Library.Binary
import EmpTool.Library.Recurrence
import Mathlib.Data.List.GetD

namespace EmpTool.Circuits.Fips180

open Binary Recurrence

structure Octet (α : Type) where
  a : α
  b : α
  c : α
  d : α
  e : α
  f : α
  g : α
  h : α
  deriving DecidableEq

namespace Octet

variable {α β γ : Type}

def map (φ : α → β) (s : Octet α) : Octet β :=
  ⟨φ s.a, φ s.b, φ s.c, φ s.d, φ s.e, φ s.f, φ s.g, φ s.h⟩

def zipWith (φ : α → β → γ) (s : Octet α) (t : Octet β) : Octet γ :=
  ⟨φ s.a t.a, φ s.b t.b, φ s.c t.c, φ s.d t.d, φ s.e t.e, φ s.f t.f, φ s.g t.g, φ s.h t.h⟩

def toList (s : Octet α) : List α := [s.a, s.b, s.c, s.d, s.e, s.f, s.g, s.h]

theorem toList_map (φ : α → β) (s : Octet α) : (s.map φ).toList = s.toList.map φ := rfl

end Octet

abbrev Word32 := BitVec 32

def ch (x y z : Word32) : Word32 := (x &&& y) ^^^ (~~~x &&& z)

def maj (x y z : Word32) : Word32 := (x &&& y) ^^^ (x &&& z) ^^^ (y &&& z)

def bsig0 (x : Word32) : Word32 := x.rotateRight 2 ^^^ x.rotateRight 13 ^^^ x.rotateRight 22

def bsig1 (x : Word32) : Word32 := x.rotateRight 6 ^^^ x.rotateRight 11 ^^^ x.rotateRight 25

def ssig0 (x : Word32) : Word32 := x.rotateRight 7 ^^^ x.rotateRight 18 ^^^ x >>> 3

def ssig1 (x : Word32) : Word32 := x.rotateRight 17 ^^^ x.rotateRight 19 ^^^ x >>> 10

-- the largest `r` below `2 ^ bits` with `r ^ k ≤ n`, from its highest bit down
def rootFrom (k n : Nat) (r : Nat) : Nat → Nat
  | 0 => r
  | bits + 1 => rootFrom k n (if (r + 2 ^ bits) ^ k ≤ n then r + 2 ^ bits else r) bits

def isPrime (n : Nat) : Bool := 2 ≤ n && (List.range n).all fun d => d < 2 || n % d ≠ 0

-- the first 64 primes are those below 312
def primes : List Nat := (List.range 312).filter isPrime

def rootFraction (k p : Nat) : Word32 := BitVec.ofNat 32 (rootFrom k (p * 2 ^ (32 * k)) 0 40)

def roundConstant (t : Nat) : Word32 := rootFraction 3 (primes.getD t 0)

def initialHash : Octet Word32 :=
  (⟨2, 3, 5, 7, 11, 13, 17, 19⟩ : Octet Nat).map (rootFraction 2)

def scheduleWord (block : Nat → Word32) (t : Nat) (w : List Word32) : Word32 :=
  if t < 16 then block t
  else ssig1 (w.getD (t - 2) 0) + w.getD (t - 7) 0 + ssig0 (w.getD (t - 15) 0) + w.getD (t - 16) 0

def round (k w : Word32) (s : Octet Word32) : Octet Word32 :=
  let t1 := s.h + bsig1 s.e + ch s.e s.f s.g + k + w
  let t2 := bsig0 s.a + maj s.a s.b s.c
  ⟨t1 + t2, s.a, s.b, s.c, s.d + t1, s.e, s.f, s.g⟩

def compress (hash : Octet Word32) (block : Nat → Word32) : Octet Word32 :=
  let w := grow (scheduleWord block) 64
  hash.zipWith (· + ·)
    ((List.range 64).foldl (fun s t => round (roundConstant t) (w.getD t 0) s) hash)

-- a bit string lists the highest bit of a word first
def bitsOf {n : Nat} (v : BitVec n) : List Bool := (List.range n).map fun i => v.getLsbD (n - 1 - i)

def zeros (length : Nat) : Nat := (959 - length % 512) % 512

def pad (m : List Bool) : List Bool :=
  m ++ [true] ++ List.replicate (zeros m.length) false ++ bitsOf (BitVec.ofNat 64 m.length)

def wordAt (m : List Bool) (i : Nat) : Word32 := vecOf 32 fun b => m.getD (32 * i + (31 - b)) false

def sha256 (m : List Bool) : List Bool :=
  let p := pad m
  let hash := (List.range (p.length / 512)).foldl
    (fun hash i => compress hash fun j => wordAt p (16 * i + j)) initialHash
  hash.toList.flatMap bitsOf

theorem zeros_spec (l : Nat) : zeros l < 512 ∧ (l + 1 + zeros l) % 512 = 448 := by
  rw [zeros]
  omega

theorem length_bitsOf {n : Nat} (v : BitVec n) : (bitsOf v).length = n := by
  rw [bitsOf, List.length_map, List.length_range]

theorem getD_bitsOf {n : Nat} (v : BitVec n) {i : Nat} (hi : i < n) :
    (bitsOf v).getD i false = v.getLsbD (n - 1 - i) := getD_map_range _ hi false

theorem length_pad (m : List Bool) : (pad m).length = m.length + 1 + zeros m.length + 64 := by
  simp only [pad, List.length_append, List.length_singleton, List.length_replicate, length_bitsOf]

theorem getD_pad_front (m : List Bool) {i : Nat} (hi : i < m.length + 1 + zeros m.length) :
    (pad m).getD i false = if i < m.length then m.getD i false else decide (i = m.length) := by
  rw [pad, List.append_assoc, List.append_assoc]
  by_cases hmsg : i < m.length
  · rw [if_pos hmsg, List.getD_append _ _ _ _ hmsg]
  · obtain ⟨j, rfl⟩ := Nat.exists_eq_add_of_le (Nat.not_lt.mp hmsg)
    rw [if_neg hmsg, List.getD_append_right _ _ _ _ (by omega), Nat.add_sub_cancel_left]
    cases j with
    | zero =>
      rw [decide_eq_true (Nat.add_zero _)]
      rfl
    | succ j =>
      have hj : j < zeros m.length := by omega
      rw [decide_eq_false (by omega), List.singleton_append, List.getD_cons_succ,
        List.getD_append _ _ _ _ (by rw [List.length_replicate]; exact hj),
        List.getD_replicate false hj]

theorem getD_pad_length (m : List Bool) {i : Nat} (hi : m.length + 1 + zeros m.length ≤ i)
    (hi' : i < m.length + 1 + zeros m.length + 64) :
    (pad m).getD i false =
      (BitVec.ofNat 64 m.length).getLsbD (63 - (i - (m.length + 1 + zeros m.length))) := by
  have hlen : (m ++ [true] ++ List.replicate (zeros m.length) false).length =
      m.length + 1 + zeros m.length := by simp; omega
  rw [pad, List.getD_append_right _ _ _ _ (by omega), hlen, getD_bitsOf _ (by omega)]

theorem compress_congr (hash : Octet Word32) {block block' : Nat → Word32}
    (h : ∀ j < 16, block j = block' j) : compress hash block = compress hash block' := by
  have hschedule : scheduleWord block = scheduleWord block' := by
    funext t w
    rw [scheduleWord, scheduleWord]
    split
    case isTrue ht => exact h t ht
    case isFalse _ => rfl
  rw [compress, compress, hschedule]

theorem length_flatMap_bitsOf (l : List Word32) : (l.flatMap bitsOf).length = 32 * l.length := by
  induction l with
  | nil => rfl
  | cons v l ih =>
    rw [List.flatMap_cons, List.length_append, ih, length_bitsOf, List.length_cons]
    omega

theorem getD_flatMap_bitsOf (l : List Word32) {i : Nat} (hi : i < 32 * l.length) :
    (l.flatMap bitsOf).getD i false = (l.getD (i / 32) 0).getLsbD (31 - i % 32) := by
  induction l generalizing i with
  | nil => exact absurd hi (Nat.not_lt_zero i)
  | cons v l ih =>
    rw [List.length_cons] at hi
    rw [List.flatMap_cons]
    by_cases hlow : i < 32
    · rw [List.getD_append _ _ _ _ (by rw [length_bitsOf]; exact hlow), getD_bitsOf v hlow,
        Nat.div_eq_of_lt hlow, Nat.mod_eq_of_lt hlow]
      rfl
    · have hdiv : i / 32 = (i - 32) / 32 + 1 := by omega
      have hmod : (i - 32) % 32 = i % 32 := by omega
      rw [List.getD_append_right _ _ _ _ (by rw [length_bitsOf]; omega), length_bitsOf,
        ih (by omega), hdiv, hmod, List.getD_cons_succ]

end EmpTool.Circuits.Fips180
