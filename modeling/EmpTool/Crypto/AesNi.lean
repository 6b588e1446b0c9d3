import EmpTool.Circuits.Crypto.Fips197
import EmpTool.Runtime.Bits

namespace EmpTool.Crypto

open Bits Circuits.Fips197

structure AesKey where
  rdKey : Nat → Block

namespace AesNi

-- byte `4 * c + r` of a register is row `r` of column `c`
def stateOf (b : Block) : State := Vector.ofFn fun j => (blockBytes b j).toBitVec

def blockOfState (s : State) : Block := blockOfBytes fun j => UInt8.ofBitVec (s[j]?.getD 0)

section Instructions

def aesenc (s k : Block) : Block :=
  blockOfState (mixColumns (subBytes (shiftRows (stateOf s)))) ^^^ k

def aesenclast (s k : Block) : Block := blockOfState (subBytes (shiftRows (stateOf s))) ^^^ k

-- `vaeseq_u8` adds the key first
def aese (s k : Block) : Block := blockOfState (subBytes (shiftRows (stateOf (s ^^^ k))))

def aesmc (s : Block) : Block := blockOfState (mixColumns (stateOf s))

end Instructions

def column (b : Block) (c : Nat) : Quad := Vector.ofFn fun r => (blockBytes b (4 * c + r)).toBitVec

def roundWord (kk : AesKey) (i : Nat) : Quad := column (kk.rdKey (i / 4)) (i % 4)

def roundWords (kk : AesKey) : List Quad := (List.range 44).map (roundWord kk)

def encrypt (kk : AesKey) (x : Block) : Block := blockOfState (cipher (roundWords kk) (stateOf x))

section States

theorem stateOf_blockOfState (s : State) : stateOf (blockOfState s) = s := by
  apply Vector.ext
  intro j hj
  rw [stateOf, Vector.getElem_ofFn, blockOfState, blockBytes_blockOfBytes _ hj,
    Vector.getElem?_eq_getElem hj]
  rfl

theorem entry_stateOf (b : Block) (r c : Fin 4) :
    (stateOf b).entry r c = (blockBytes b (4 * c + r)).toBitVec := by
  rw [State.entry, stateOf, Vector.getElem_ofFn]

theorem byteAt64_xor (x y : UInt64) (j : Nat) :
    byteAt64 (x ^^^ y) j = byteAt64 x j ^^^ byteAt64 y j := by
  apply UInt8.toBitVec_inj.mp
  simp only [byteAt64, UInt8.toBitVec_xor, UInt64.toBitVec_toUInt8, UInt64.toBitVec_shiftRight,
    UInt64.toBitVec_xor, BitVec.ushiftRight_eq', BitVec.ushiftRight_xor_distrib,
    BitVec.setWidth_xor]

theorem blockBytes_xor (a b : Block) (j : Nat) :
    blockBytes (a ^^^ b) j = blockBytes a j ^^^ blockBytes b j := by
  rw [blockBytes, blockBytes, blockBytes]
  split
  · exact byteAt64_xor a.low b.low j
  · exact byteAt64_xor a.high b.high (j - 8)

theorem block_eq_of_bytes {a b : Block} (h : ∀ j < 16, blockBytes a j = blockBytes b j) : a = b :=
  block_eq_of_lane fun t ht => by
    rw [← bitAt_blockBytes a ht, ← bitAt_blockBytes b ht, bitAt, bitAt, h _ (by omega)]

theorem blockOfState_stateOf (b : Block) : blockOfState (stateOf b) = b :=
  block_eq_of_bytes fun j hj => by
    rw [blockOfState, blockBytes_blockOfBytes _ hj, Vector.getElem?_eq_getElem hj, stateOf,
      Vector.getElem_ofFn]
    rfl

theorem state_ext {s s' : State} (h : ∀ r c, s.entry r c = s'.entry r c) : s = s' := by
  apply Vector.ext
  intro j hj
  have hentry := h ⟨j % 4, by omega⟩ ⟨j / 4, by omega⟩
  simpa only [State.entry, Nat.div_add_mod] using hentry

@[simp] theorem entry_build (f : Fin 4 → Fin 4 → Byte) (r c : Fin 4) :
    (State.build f).entry r c = f r c := by
  have hr : (4 * c.val + r.val) % 4 = r.val := by omega
  have hc : (4 * c.val + r.val) / 4 = c.val := by omega
  simp only [State.entry, State.build, Vector.getElem_ofFn, hr, hc]

end States

section Rounds

theorem subBytes_shiftRows (s : State) : subBytes (shiftRows s) = shiftRows (subBytes s) :=
  state_ext fun r c => by simp only [subBytes, shiftRows, entry_build]

theorem addRoundKey_roundWords (kk : AesKey) {round : Nat} (hround : round < 11) (x : Block) :
    addRoundKey (roundWords kk) round (stateOf x) = stateOf (x ^^^ kk.rdKey round) := by
  apply state_ext
  intro r c
  have hword : (roundWords kk).getD (4 * round + c) default = roundWord kk (4 * round + c) :=
    Recurrence.getD_map_range _ (by omega) _
  have hkey : (4 * round + c.val) / 4 = round := by omega
  have hcolumn : (4 * round + c.val) % 4 = c.val := by omega
  rw [addRoundKey, entry_build, hword, roundWord, column, entry_stateOf, entry_stateOf,
    blockBytes_xor, UInt8.toBitVec_xor, hkey, hcolumn]
  simp

variable (kk : AesKey)

def rounds (x : Block) : Block :=
  aesenclast ((List.range' 1 9).foldl (fun x r => aesenc x (kk.rdKey r)) (x ^^^ kk.rdKey 0))
    (kk.rdKey 10)

def armRounds (x : Block) : Block :=
  aese ((List.range 9).foldl (fun x r => aesmc (aese x (kk.rdKey r))) x) (kk.rdKey 9) ^^^
    kk.rdKey 10

theorem stateOf_aesenc (x : Block) {round : Nat} (hround : round < 11) :
    stateOf (aesenc x (kk.rdKey round)) =
      addRoundKey (roundWords kk) round (mixColumns (shiftRows (subBytes (stateOf x)))) := by
  rw [aesenc, ← addRoundKey_roundWords kk hround, stateOf_blockOfState, subBytes_shiftRows]

theorem stateOf_aesenclast (x : Block) {round : Nat} (hround : round < 11) :
    stateOf (aesenclast x (kk.rdKey round)) =
      addRoundKey (roundWords kk) round (shiftRows (subBytes (stateOf x))) := by
  rw [aesenclast, ← addRoundKey_roundWords kk hround, stateOf_blockOfState, subBytes_shiftRows]

theorem stateOf_middle (x : Block) {n : Nat} (hn : n ≤ 9) :
    stateOf ((List.range' 1 n).foldl (fun x r => aesenc x (kk.rdKey r)) (x ^^^ kk.rdKey 0)) =
      (List.range n).foldl (fun s i =>
        addRoundKey (roundWords kk) (i + 1) (mixColumns (shiftRows (subBytes s))))
        (addRoundKey (roundWords kk) 0 (stateOf x)) := by
  induction n with
  | zero => exact (addRoundKey_roundWords kk (by decide) x).symm
  | succ n ih =>
    rw [List.range'_concat, List.foldl_append, List.range_succ, List.foldl_append, ← ih (by omega)]
    simp only [List.foldl_cons, List.foldl_nil, Nat.one_mul, Nat.add_comm 1 n]
    exact stateOf_aesenc kk _ (by omega)

theorem rounds_eq (x : Block) : rounds kk x = encrypt kk x := by
  rw [← blockOfState_stateOf (rounds kk x), rounds, stateOf_aesenclast kk _ (by decide),
    stateOf_middle kk x (Nat.le_refl 9)]
  rfl

theorem aesmc_aese (x k k' : Block) : aesmc (aese x k) ^^^ k' = aesenc (x ^^^ k) k' := by
  rw [aesmc, aese, stateOf_blockOfState, aesenc]

-- the Arm loop is one key addition behind
theorem arm_middle (x : Block) (n : Nat) :
    (List.range n).foldl (fun x r => aesmc (aese x (kk.rdKey r))) x ^^^ kk.rdKey n =
      (List.range' 1 n).foldl (fun x r => aesenc x (kk.rdKey r)) (x ^^^ kk.rdKey 0) := by
  induction n with
  | zero => rfl
  | succ n ih =>
    rw [List.range'_concat, List.foldl_append, List.range_succ, List.foldl_append, ← ih]
    simp only [List.foldl_cons, List.foldl_nil, Nat.one_mul, Nat.add_comm 1 n, aesmc_aese]

theorem armRounds_eq (x : Block) : armRounds kk x = rounds kk x := by
  rw [armRounds, rounds, ← arm_middle, aesenclast, aese]

end Rounds

end AesNi

end EmpTool.Crypto
