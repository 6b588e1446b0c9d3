import EmpTool.Circuits.Bitwise
import EmpTool.Circuits.Crypto.Fips180
import Mathlib.Tactic.IntervalCases

namespace EmpTool.Circuits.Crypto

open Binary Fips180 Recurrence Word
open EmpTool.Ir (GateOps)

variable {Wire : Type} [Inhabited Wire]

def sha256K : List UInt32 :=
  [0x428a2f98, 0x71374491, 0xb5c0fbcf, 0xe9b5dba5, 0x3956c25b, 0x59f111f1, 0x923f82a4, 0xab1c5ed5,
    0xd807aa98, 0x12835b01, 0x243185be, 0x550c7dc3, 0x72be5d74, 0x80deb1fe, 0x9bdc06a7, 0xc19bf174,
    0xe49b69c1, 0xefbe4786, 0x0fc19dc6, 0x240ca1cc, 0x2de92c6f, 0x4a7484aa, 0x5cb0a9dc, 0x76f988da,
    0x983e5152, 0xa831c66d, 0xb00327c8, 0xbf597fc7, 0xc6e00bf3, 0xd5a79147, 0x06ca6351, 0x14292967,
    0x27b70a85, 0x2e1b2138, 0x4d2c6dfc, 0x53380d13, 0x650a7354, 0x766a0abb, 0x81c2c92e, 0x92722c85,
    0xa2bfe8a1, 0xa81a664b, 0xc24b8b70, 0xc76c51a3, 0xd192e819, 0xd6990624, 0xf40e3585, 0x106aa070,
    0x19a4c116, 0x1e376c08, 0x2748774c, 0x34b0bcb5, 0x391c0cb3, 0x4ed8aa4a, 0x5b9cca4f, 0x682e6ff3,
    0x748f82ee, 0x78a5636f, 0x84c87814, 0x8cc70208, 0x90befffa, 0xa4506ceb, 0xbef9a3f7, 0xc67178f2]

def sha256H0 : Octet UInt32 :=
  ⟨0x6a09e667, 0xbb67ae85, 0x3c6ef372, 0xa54ff53a,
    0x510e527f, 0x9b05688c, 0x1f83d9ab, 0x5be0cd19⟩

section

variable (c : GateOps Wire)

def sha256Constant (v : UInt32) : Word Wire 32 := UIntT.constant c v.toUInt64

def sha256Ch (x y z : Word Wire 32) : Word Wire 32 := z.bitXor c (x.bitAnd c (y.bitXor c z))

def sha256Maj (x y z : Word Wire 32) : Word Wire 32 :=
  (x.bitAnd c y).bitXor c (z.bitAnd c (x.bitXor c y))

def sha256Bsig0 (x : Word Wire 32) : Word Wire 32 :=
  ((x.rotr 2).bitXor c (x.rotr 13)).bitXor c (x.rotr 22)

def sha256Bsig1 (x : Word Wire 32) : Word Wire 32 :=
  ((x.rotr 6).bitXor c (x.rotr 11)).bitXor c (x.rotr 25)

def sha256Ssig0 (x : Word Wire 32) : Word Wire 32 :=
  ((x.rotr 7).bitXor c (x.rotr 18)).bitXor c (x.shiftRight (c.publicBit false) 3)

def sha256Ssig1 (x : Word Wire 32) : Word Wire 32 :=
  ((x.rotr 17).bitXor c (x.rotr 19)).bitXor c (x.shiftRight (c.publicBit false) 10)

def sha256ScheduleWord (block : Nat → Word Wire 32) (t : Nat) (w : List (Word Wire 32)) :
    Word Wire 32 :=
  if t < 16 then block t
  else
    (((sha256Ssig1 c (w.getD (t - 2) default)).add c (w.getD (t - 7) default)).add c
      (sha256Ssig0 c (w.getD (t - 15) default))).add c (w.getD (t - 16) default)

def sha256Round (k w : Word Wire 32) (s : Octet (Word Wire 32)) : Octet (Word Wire 32) :=
  let t1 := (((s.h.add c (sha256Bsig1 c s.e)).add c (sha256Ch c s.e s.f s.g)).add c k).add c w
  let t2 := (sha256Bsig0 c s.a).add c (sha256Maj c s.a s.b s.c)
  ⟨t1.add c t2, s.a, s.b, s.c, s.d.add c t1, s.e, s.f, s.g⟩

def sha256Compress (state : Octet (Word Wire 32)) (block : Nat → Word Wire 32) :
    Octet (Word Wire 32) :=
  let w := grow (sha256ScheduleWord c block) 64
  state.zipWith (Word.add c) ((List.range 64).foldl (fun s t =>
    sha256Round c (sha256Constant c (sha256K.getD t 0)) (w.getD t default) s) state)

def sha256WordBitIndex (word b : Nat) : Nat := 8 * (4 * word + 3 - b / 8) + b % 8

def sha256Total (L : Nat) : Nat := (L + 1 + 64 + 511) / 512 * 512

-- bit `k` of byte `t` of the length, highest byte first
def lengthBit (L t k : Nat) : Bool :=
  bitOfWord (UInt64.ofNat L >>> UInt64.ofNat (8 * (7 - t)) &&& 0xff) k

def sha256Pad {L : Nat} (inp : Word Wire L) : Word Wire (sha256Total L) :=
  let P : Word Wire (sha256Total L) := fill fun _ => c.publicBit false
  let P := P.store 0 inp
  let P := P.set (L + 7) (c.publicBit true)
  let lenpos := sha256Total L - 64
  fill fun i =>
    if lenpos ≤ i ∧ lengthBit L ((i - lenpos) / 8) ((i - lenpos) % 8) then c.publicBit true
    else P.wire i

def sha256Wires {n : Nat} (inp : Word Wire (8 * n)) : Word Wire 256 :=
  let P := sha256Pad c inp
  let nblocks := sha256Total (8 * n) / 512
  let state := (List.range nblocks).foldl (fun state blk =>
    sha256Compress c state fun j => fill fun b => P.wire (blk * 512 + sha256WordBitIndex j b))
    (sha256H0.map (sha256Constant c))
  let out : Word Wire 256 := fill fun _ => default
  out.scatter 256 (fun t => sha256WordBitIndex (t / 32) (t % 32))
    fun t => (state.toList.getD (t / 32) default).wire (t % 32)

end

variable (c : PlainContext Wire)

theorem toBitVec_sha256Ch (x y z : Word Wire 32) :
    (sha256Ch c.toGateOps x y z).toBitVec c = ch (x.toBitVec c) (y.toBitVec c) (z.toBitVec c) := by
  rw [sha256Ch, toBitVec_bitXor, toBitVec_bitAnd, toBitVec_bitXor, ch]
  apply BitVec.eq_of_getLsbD_eq
  intro i hi
  simp only [BitVec.getLsbD_xor, BitVec.getLsbD_and, BitVec.getLsbD_not, hi, decide_true,
    Bool.true_and]
  cases (x.toBitVec c).getLsbD i <;> cases (y.toBitVec c).getLsbD i <;>
    cases (z.toBitVec c).getLsbD i <;> rfl

theorem toBitVec_sha256Maj (x y z : Word Wire 32) :
    (sha256Maj c.toGateOps x y z).toBitVec c =
      maj (x.toBitVec c) (y.toBitVec c) (z.toBitVec c) := by
  rw [sha256Maj, toBitVec_bitXor, toBitVec_bitAnd, toBitVec_bitAnd, toBitVec_bitXor, maj]
  apply BitVec.eq_of_getLsbD_eq
  intro i _
  simp only [BitVec.getLsbD_xor, BitVec.getLsbD_and]
  cases (x.toBitVec c).getLsbD i <;> cases (y.toBitVec c).getLsbD i <;>
    cases (z.toBitVec c).getLsbD i <;> rfl

theorem toBitVec_sha256Constant (v : UInt32) :
    (sha256Constant c.toGateOps v).toBitVec c = v.toBitVec := by
  rw [sha256Constant, toBitVec, UIntT.toNat_constant]
  apply BitVec.eq_of_toNat_eq
  simp

theorem toBitVec_scheduleWord (block : Nat → Word Wire 32) (t : Nat) (w : List (Word Wire 32))
    (ht : w.length = t) :
    (sha256ScheduleWord c.toGateOps block t w).toBitVec c =
      scheduleWord (fun j => (block j).toBitVec c) t (w.map (toBitVec c)) := by
  rw [sha256ScheduleWord, scheduleWord]
  split
  case isTrue _ => rfl
  case isFalse h =>
    have hget (j : Nat) (hj : j < t) : (w.map (toBitVec c)).getD j 0 = (w.getD j default).toBitVec c :=
      getD_map_of_lt _ (by omega) _ _
    rw [hget _ (by omega), hget _ (by omega), hget _ (by omega), hget _ (by omega)]
    simp only [toBitVec_add, sha256Ssig0, sha256Ssig1, toBitVec_bitXor, toBitVec_rotr,
      toBitVec_shiftRight, ssig0, ssig1]

theorem map_sha256Round (k w : Word Wire 32) (s : Octet (Word Wire 32)) :
    (sha256Round c.toGateOps k w s).map (toBitVec c) =
      Fips180.round (k.toBitVec c) (w.toBitVec c) (s.map (toBitVec c)) := by
  simp only [sha256Round, Fips180.round, Octet.map, toBitVec_add, toBitVec_sha256Ch, toBitVec_sha256Maj,
    sha256Bsig0, sha256Bsig1, toBitVec_bitXor, toBitVec_rotr, bsig0, bsig1]

theorem sha256K_eq : ∀ t < 64, (sha256K.getD t 0).toBitVec = roundConstant t := by decide +kernel

theorem sha256H0_eq : sha256H0.map UInt32.toBitVec = initialHash := by decide +kernel

theorem map_sha256Compress (state : Octet (Word Wire 32)) (block : Nat → Word Wire 32) :
    (sha256Compress c.toGateOps state block).map (toBitVec c) =
      compress (state.map (toBitVec c)) fun j => (block j).toBitVec c := by
  have hw := map_grow (toBitVec c) (toBitVec_scheduleWord c block) 64
  have hrounds (n : Nat) (hn : n ≤ 64) :
      ((List.range n).foldl (fun s t => sha256Round c.toGateOps
        (sha256Constant c.toGateOps (sha256K.getD t 0))
        ((grow (sha256ScheduleWord c.toGateOps block) 64).getD t default) s) state).map (toBitVec c) =
      (List.range n).foldl (fun s t => Fips180.round (roundConstant t)
        ((grow (scheduleWord fun j => (block j).toBitVec c) 64).getD t 0) s)
        (state.map (toBitVec c)) := by
    induction n with
    | zero => rfl
    | succ n ih =>
      have hget := getD_map_of_lt (toBitVec c) (i := n)
        (l := grow (sha256ScheduleWord c.toGateOps block) 64) (by rw [length_grow]; omega) default 0
      rw [hw] at hget
      rw [List.range_succ, List.foldl_concat, List.foldl_concat, map_sha256Round, ih (by omega),
        toBitVec_sha256Constant, sha256K_eq n (by omega), hget]
  have hzip (s t : Octet (Word Wire 32)) : (s.zipWith (Word.add c.toGateOps) t).map (toBitVec c) =
      (s.map (toBitVec c)).zipWith (· + ·) (t.map (toBitVec c)) := by
    simp only [Octet.map, Octet.zipWith, toBitVec_add]
  rw [sha256Compress, hzip, hrounds 64 (by decide)]
  rfl

-- the bit string of an array of bytes, each given lowest bit first
def msbFirst {N : Nat} (x : Word Wire N) : List Bool :=
  (List.range N).map fun i => c.value (x.wire (i / 8 * 8 + (7 - i % 8)))

theorem length_msbFirst {N : Nat} (x : Word Wire N) : (msbFirst c x).length = N := by
  rw [msbFirst, List.length_map, List.length_range]

theorem getD_msbFirst {N : Nat} (x : Word Wire N) {i : Nat} (hi : i < N) :
    (msbFirst c x).getD i false = c.value (x.wire (i / 8 * 8 + (7 - i % 8))) :=
  getD_map_range _ hi false

theorem lengthBit_eq (L : Nat) {t k : Nat} (ht : t < 8) (hk : k < 8) :
    lengthBit L t k = (BitVec.ofNat 64 L).getLsbD (8 * (7 - t) + k) := by
  have hshift : (UInt64.ofNat (8 * (7 - t))).toNat % 64 = 8 * (7 - t) := by
    rw [UInt64.toNat_ofNat']
    omega
  have hmask : (0xff : Nat).testBit k = true := by interval_cases k <;> rfl
  rw [lengthBit, bitOfWord_eq _ (by omega), UInt64.toNat_and, UInt64.toNat_shiftRight, hshift,
    Nat.testBit_and, Nat.testBit_shiftRight, UInt64.toNat_ofNat', BitVec.getLsbD,
    BitVec.toNat_ofNat]
  exact (congrArg _ hmask).trans (Bool.and_true _)

theorem sha256Total_eq (L : Nat) : sha256Total L = L + 1 + zeros L + 64 := by
  rw [sha256Total, zeros]
  omega

theorem value_sha256Front {n : Nat} (inp : Word Wire (8 * n)) {i : Nat}
    (hi : i < sha256Total (8 * n)) :
    c.value ((((fill fun _ => c.publicBit false : Word Wire (sha256Total (8 * n))).store 0
      inp).set (8 * n + 7) (c.publicBit true)).wire (i / 8 * 8 + (7 - i % 8))) =
        if i < 8 * n then (msbFirst c inp).getD i false else decide (i = 8 * n) := by
  have hmul : sha256Total (8 * n) % 8 = 0 := by rw [sha256Total]; omega
  rw [wire_set _ _ _ (by omega), wire_store _ _ _ (by omega), wire_fill _ (by omega)]
  by_cases hmsg : i < 8 * n
  · rw [if_neg (by omega), if_pos (by omega), if_pos hmsg, getD_msbFirst c inp hmsg, Nat.sub_zero]
  · rw [if_neg hmsg]
    by_cases hone : i = 8 * n
    · rw [if_pos (by omega), c.value_publicBit, decide_eq_true hone]
    · rw [if_neg (by omega), if_neg (by omega), c.value_publicBit, decide_eq_false hone]

theorem value_sha256Pad {n : Nat} (inp : Word Wire (8 * n)) {i : Nat}
    (hi : i < sha256Total (8 * n)) :
    c.value ((sha256Pad c.toGateOps inp).wire (i / 8 * 8 + (7 - i % 8))) =
      (pad (msbFirst c inp)).getD i false := by
  have hlen := length_msbFirst c inp
  have hpad : zeros (msbFirst c inp).length = zeros (8 * n) := by rw [hlen]
  have htotal := sha256Total_eq (8 * n)
  have hzeros := (zeros_spec (8 * n)).2
  have hfront := value_sha256Front c inp hi
  rw [sha256Pad, wire_fill _ (by omega)]
  by_cases hlength : sha256Total (8 * n) - 64 ≤ i
  · obtain ⟨o, rfl⟩ := Nat.exists_eq_add_of_le hlength
    have hbyte : (sha256Total (8 * n) - 64 + o) / 8 * 8 +
        (7 - (sha256Total (8 * n) - 64 + o) % 8) - (sha256Total (8 * n) - 64) =
          o / 8 * 8 + (7 - o % 8) := by omega
    have hindex : 8 * (7 - (o / 8 * 8 + (7 - o % 8)) / 8) + (o / 8 * 8 + (7 - o % 8)) % 8 =
        63 - (sha256Total (8 * n) - 64 + o - (8 * n + 1 + zeros (8 * n))) := by omega
    rw [getD_pad_length _ (by omega) (by omega), hpad, hlen, hbyte,
      lengthBit_eq _ (by omega) (Nat.mod_lt _ (by decide)), hindex]
    split
    case isTrue h => rw [h.2, c.value_publicBit]
    case isFalse h =>
      have hbit := fun hb => h ⟨by omega, hb⟩
      rw [hfront, if_neg (by omega), decide_eq_false (by omega), eq_false_of_ne_true hbit]
  · rw [if_neg (by omega), hfront, getD_pad_front _ (by omega), hlen]

theorem toBitVec_block {n : Nat} (inp : Word Wire (8 * n)) {blk j : Nat}
    (hblk : blk < sha256Total (8 * n) / 512) (hj : j < 16) :
    (fill fun b => (sha256Pad c.toGateOps inp).wire (blk * 512 + sha256WordBitIndex j b) :
      Word Wire 32).toBitVec c = wordAt (pad (msbFirst c inp)) (16 * blk + j) := by
  apply toBitVec_eq_of_wires
  intro b hb
  have htotal : sha256Total (8 * n) % 512 = 0 := by rw [sha256Total]; omega
  have hindex : blk * 512 + sha256WordBitIndex j b =
      (32 * (16 * blk + j) + (31 - b)) / 8 * 8 + (7 - (32 * (16 * blk + j) + (31 - b)) % 8) := by
    rw [sha256WordBitIndex]
    omega
  rw [wire_fill _ hb, hindex, value_sha256Pad c inp (by omega), wordAt, getLsbD_vecOf_of_lt _ hb]

theorem map_sha256Chain {n : Nat} (inp : Word Wire (8 * n)) {blocks : Nat}
    (hblocks : blocks ≤ sha256Total (8 * n) / 512) :
    ((List.range blocks).foldl (fun state blk => sha256Compress c.toGateOps state fun j =>
      fill fun b => (sha256Pad c.toGateOps inp).wire (blk * 512 + sha256WordBitIndex j b))
      (sha256H0.map (sha256Constant c.toGateOps))).map (toBitVec c) =
    (List.range blocks).foldl (fun hash i => compress hash fun j =>
      wordAt (pad (msbFirst c inp)) (16 * i + j)) initialHash := by
  induction blocks with
  | zero =>
    rw [← sha256H0_eq]
    simp only [List.range_zero, List.foldl_nil, Octet.map, toBitVec_sha256Constant]
  | succ blocks ih =>
    rw [List.range_succ, List.foldl_concat, List.foldl_concat, map_sha256Compress, ih (by omega)]
    exact compress_congr _ fun j hj => toBitVec_block c inp (by omega) hj

theorem sha256WordBitIndex_inj {s t : Nat} (hs : s < 256) (ht : t < 256)
    (h : sha256WordBitIndex (s / 32) (s % 32) = sha256WordBitIndex (t / 32) (t % 32)) : s = t := by
  rw [sha256WordBitIndex, sha256WordBitIndex] at h
  omega

theorem msbFirst_digest (out : Word Wire 256) (state : Octet (Word Wire 32)) :
    msbFirst c (out.scatter 256 (fun t => sha256WordBitIndex (t / 32) (t % 32))
      fun t => (state.toList.getD (t / 32) default).wire (t % 32)) =
        (state.map (toBitVec c)).toList.flatMap bitsOf := by
  have hlen : (state.map (toBitVec c)).toList.length = 8 := rfl
  have hwords : state.toList.length = 8 := rfl
  apply List.ext_getElem (by rw [length_msbFirst, length_flatMap_bitsOf, hlen])
  intro i h1 h2
  rw [← List.getD_eq_getElem _ false h1, ← List.getD_eq_getElem _ false h2]
  rw [length_msbFirst] at h1
  have hindex : i / 8 * 8 + (7 - i % 8) = sha256WordBitIndex ((32 * (i / 32) + (31 - i % 32)) / 32)
      ((32 * (i / 32) + (31 - i % 32)) % 32) := by
    rw [sha256WordBitIndex]
    omega
  have hword : (32 * (i / 32) + (31 - i % 32)) / 32 = i / 32 := by omega
  have hbit : (32 * (i / 32) + (31 - i % 32)) % 32 = 31 - i % 32 := by omega
  rw [getD_msbFirst c _ h1, getD_flatMap_bitsOf _ (by omega), hindex,
    wire_scatter _ _ (fun s hs t ht => sha256WordBitIndex_inj hs ht) (by omega) (by omega), hword,
    hbit, value_wire c _ (by omega), Octet.toList_map, getD_map_of_lt _ (by omega)]

theorem sha256_circuit_exact {n : Nat} (inp : Word Wire (8 * n)) :
    msbFirst c (sha256Wires c.toGateOps inp) = sha256 (msbFirst c inp) := by
  have hpad : (pad (msbFirst c inp)).length = sha256Total (8 * n) := by
    rw [length_pad, length_msbFirst, sha256Total_eq]
  rw [sha256, hpad, ← map_sha256Chain c inp (le_refl _), ← msbFirst_digest]
  rfl

end EmpTool.Circuits.Crypto
