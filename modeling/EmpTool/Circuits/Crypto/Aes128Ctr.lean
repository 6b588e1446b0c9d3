import EmpTool.Circuits.Crypto.Aes128

namespace EmpTool.Circuits.Crypto

open Binary Fips197 Word
open EmpTool.Ir (GateOps)

variable {Wire : Type} [Inhabited Wire]

section

variable (c : GateOps Wire)

-- the counter sits in bytes 8 to 15, highest byte first; its last carry is dropped
def ctrIncBe64 (block : Word Wire 128) (delta : UInt64) : Word Wire 128 :=
  if delta = 0 then block
  else
    let ctr : UIntT Wire 64 := fillBytes fun b => block.byte (15 - b)
    let ctr := UIntT.add c ctr (UIntT.constant c delta)
    fillBytes fun j => if 8 ≤ j then ctr.byte (15 - j) else block.byte j

-- `done` bits of `out` are written; the counter is not advanced past the last block
def ctrLoop {L : Nat} (roundKeys : Word Wire 1408) (inp : Word Wire L) (done : Nat)
    (counter : Word Wire 128) (out : Word Wire L) : Word Wire L :=
  if done < L then
    let ks := aes128EncryptBlock c counter roundKeys
    let blk := min 128 (L - done)
    let out := out.store done ((inp.slice done blk).bitXor c (ks.slice 0 blk))
    let counter := if done + blk < L then ctrIncBe64 c counter 1 else counter
    ctrLoop roundKeys inp (done + blk) counter out
  else out
termination_by L - done

def aes128Ctr {L : Nat} (key iv : Word Wire 128) (inp : Word Wire L) (startChunk : UInt64) :
    Word Wire L :=
  let roundKeys := aes128KeySchedule c key
  ctrLoop c roundKeys inp 0 (ctrIncBe64 c iv startChunk) (fill fun _ => default)

end

def counterOf (block : State) : BitVec 64 :=
  block[8] ++ block[9] ++ block[10] ++ block[11] ++ block[12] ++ block[13] ++ block[14] ++ block[15]

def counterBlock (iv : State) (n : Nat) : State :=
  Vector.ofFn fun j : Fin 16 =>
    if j.val < 8 then iv[j] else (counterOf iv + BitVec.ofNat 64 n).extractLsb' (8 * (15 - j)) 8

def keystream (key iv : State) (startChunk i : Nat) : Bool :=
  (aes128 key (counterBlock iv (startChunk + i / 128)))[i % 128 / 8].getLsbD (i % 8)

theorem getLsbD_counterOf (block : State) {i : Nat} (hi : i < 64) :
    (counterOf block).getLsbD i = block[15 - i / 8].getLsbD (i % 8) := by
  obtain ⟨b, k, hk, rfl⟩ : ∃ b k, k < 8 ∧ i = 8 * b + k := ⟨i / 8, i % 8, by omega, by omega⟩
  have hdiv : (8 * b + k) / 8 = b := by omega
  have hmod : (8 * b + k) % 8 = k := by omega
  simp only [counterOf, BitVec.getLsbD_append, hdiv, hmod]
  have hb : b < 8 := by omega
  interval_cases b <;> simp (disch := omega) only [if_pos, if_neg] <;> congr 1 <;> omega

theorem getElem_counterBlock_low (iv : State) (n : Nat) {j : Nat} (hj : j < 8) :
    (counterBlock iv n)[j] = iv[j] := by
  rw [counterBlock, Vector.getElem_ofFn, if_pos hj]
  rfl

theorem getElem_counterBlock_high (iv : State) (n : Nat) {j : Nat} (hj : 8 ≤ j) (hj' : j < 16) :
    (counterBlock iv n)[j] = (counterOf iv + BitVec.ofNat 64 n).extractLsb' (8 * (15 - j)) 8 := by
  rw [counterBlock, Vector.getElem_ofFn, if_neg (Nat.not_lt.mpr hj)]

theorem counterOf_counterBlock (iv : State) (n : Nat) :
    counterOf (counterBlock iv n) = counterOf iv + BitVec.ofNat 64 n := by
  apply BitVec.eq_of_getLsbD_eq
  intro i hi
  rw [getLsbD_counterOf _ hi, getElem_counterBlock_high _ _ (by omega), BitVec.getLsbD_extractLsb',
    decide_eq_true (Nat.mod_lt i (by decide)), Bool.true_and]
  congr 1
  omega

theorem counterBlock_counterBlock (iv : State) (m n : Nat) :
    counterBlock (counterBlock iv m) n = counterBlock iv (m + n) := by
  apply Vector.ext
  intro j hj
  by_cases hlow : j < 8
  · rw [getElem_counterBlock_low _ _ hlow, getElem_counterBlock_low _ _ hlow,
      getElem_counterBlock_low _ _ hlow]
  · rw [getElem_counterBlock_high _ _ (by omega) hj, getElem_counterBlock_high _ _ (by omega) hj,
      counterOf_counterBlock, BitVec.add_assoc, BitVec.ofNat_add]

theorem counterBlock_zero (iv : State) : counterBlock iv 0 = iv := by
  apply Vector.ext
  intro j hj
  by_cases hlow : j < 8
  · rw [getElem_counterBlock_low _ _ hlow]
  · rw [getElem_counterBlock_high _ _ (by omega) hj, BitVec.add_zero]
    apply BitVec.eq_of_getLsbD_eq
    intro k hk
    rw [BitVec.getLsbD_extractLsb', decide_eq_true hk, Bool.true_and, getLsbD_counterOf _ (by omega)]
    have hdiv : 15 - (8 * (15 - j) + k) / 8 = j := by omega
    have hmod : (8 * (15 - j) + k) % 8 = k := by omega
    simp only [hdiv, hmod]

theorem counterBlock_mod (iv : State) (n : Nat) : counterBlock iv (n % 2 ^ 64) = counterBlock iv n := by
  have h : BitVec.ofNat 64 (n % 2 ^ 64) = BitVec.ofNat 64 n := BitVec.eq_of_toNat_eq (by simp)
  rw [counterBlock, counterBlock, h]

variable (c : PlainContext Wire)

theorem getElem_blockOf (x : Word Wire 128) {j : Nat} (hj : j < 16) :
    (blockOf c x)[j] = (x.byte j).toBitVec c := by
  rw [blockOf, Vector.getElem_ofFn]

theorem value_blockOf (x : Word Wire 128) {i : Nat} (hi : i < 128) :
    c.value (x.wire i) = (blockOf c x)[i / 8].getLsbD (i % 8) := by
  have hk : i % 8 < 8 := Nat.mod_lt i (by decide)
  rw [getElem_blockOf c x (by omega), ← value_wire c _ hk, wire_byte _ _ hk, Nat.div_add_mod']

theorem toBitVec_counter (block : Word Wire 128) :
    (fillBytes fun b => block.byte (15 - b) : Word Wire 64).toBitVec c =
      counterOf (blockOf c block) := by
  apply toBitVec_eq_of_wires
  intro i hi
  have hk : i % 8 < 8 := Nat.mod_lt i (by decide)
  rw [fillBytes, wire_fill _ hi, getLsbD_counterOf _ hi, getElem_blockOf c _ (by omega),
    value_wire c _ hk]

theorem toBitVec_byte {n : Nat} (x : Word Wire n) {b : Nat} (hb : b * 8 + 8 ≤ n) :
    (x.byte b).toBitVec c = (x.toBitVec c).extractLsb' (8 * b) 8 := by
  apply toBitVec_eq_of_wires
  intro k hk
  rw [wire_byte _ _ hk, value_wire c _ (by omega), BitVec.getLsbD_extractLsb', decide_eq_true hk,
    Bool.true_and, Nat.mul_comm]

theorem blockOf_ctrIncBe64 (block : Word Wire 128) (delta : UInt64) :
    blockOf c (ctrIncBe64 c.toGateOps block delta) = counterBlock (blockOf c block) delta.toNat := by
  rw [ctrIncBe64]
  split
  case isTrue h => rw [h, UInt64.toNat_zero, counterBlock_zero]
  case isFalse _ =>
    have hdelta : (UIntT.constant c.toGateOps delta : UIntT Wire 64).toBitVec c =
        BitVec.ofNat 64 delta.toNat := by
      rw [toBitVec, UIntT.toNat_constant, Nat.mod_eq_of_lt delta.toNat_lt]
    apply Vector.ext
    intro j hj
    rw [getElem_blockOf c _ hj, byte_fillBytes _ (by omega)]
    by_cases hlow : j < 8
    · rw [if_neg (by omega), getElem_counterBlock_low _ _ hlow, getElem_blockOf c _ hj]
    · rw [if_pos (by omega), getElem_counterBlock_high _ _ (by omega) hj, toBitVec_byte c _ (by omega),
        UIntT.add, toBitVec_add, toBitVec_counter, hdelta]

theorem value_ctrLoop {L : Nat} (roundKeys : Word Wire 1408) (inp : Word Wire L) (iv : State)
    (blocks done : Nat) (counter : Word Wire 128) (out : Word Wire L)
    (hdone : done < L → done = 128 * blocks)
    (hcounter : done < L → blockOf c counter = counterBlock iv blocks)
    {i : Nat} (hi : i < L) :
    c.value ((ctrLoop c.toGateOps roundKeys inp done counter out).wire i) =
      if i < done then c.value (out.wire i)
      else (c.value (inp.wire i) ^^
        (cipher (keyWords c roundKeys) (counterBlock iv (i / 128)))[i % 128 / 8].getLsbD (i % 8)) := by
  rw [ctrLoop]
  split
  case isFalse hend => rw [if_pos (by omega)]
  case isTrue hlt =>
    have hblocks := hdone hlt
    rw [value_ctrLoop roundKeys inp iv (blocks + 1) (done + min 128 (L - done)) _ _ (by omega)
      (fun hmore => ?_) hi, wire_store _ _ _ hi]
    · by_cases hold : i < done
      · rw [if_pos (by omega), if_neg (by omega), if_pos hold]
      by_cases hnew : i < done + min 128 (L - done)
      · have hdiv : i / 128 = blocks := by omega
        have hmod : i - done = i % 128 := by omega
        have hks : i % 128 < 128 := Nat.mod_lt i (by decide)
        rw [if_pos hnew, if_pos (by omega), if_neg hold, bitXor, wire_fill _ (by omega),
          c.value_xorGate, wire_slice _ _ (by omega), wire_slice _ _ (by omega), hmod, Nat.zero_add,
          value_blockOf c _ hks, hdiv, ← hcounter hlt]
        simp only [blockOf_encryptBlock]
        rw [show done + i % 128 = i by omega, Nat.mod_mod_of_dvd i (by decide : 8 ∣ 128)]
      · rw [if_neg hnew, if_neg hold]
    · rw [if_pos hmore, blockOf_ctrIncBe64, hcounter hlt, counterBlock_counterBlock]
      rfl
termination_by L - done
decreasing_by omega

theorem value_aes128Ctr {L : Nat} (key iv : Word Wire 128) (inp : Word Wire L) (startChunk : UInt64)
    {i : Nat} (hi : i < L) :
    c.value ((aes128Ctr c.toGateOps key iv inp startChunk).wire i) =
      (c.value (inp.wire i) ^^
        keystream (blockOf c key) (blockOf c iv) startChunk.toNat i) := by
  have hloop := value_ctrLoop c (aes128KeySchedule c.toGateOps key) inp
    (counterBlock (blockOf c iv) startChunk.toNat) 0 0 (ctrIncBe64 c.toGateOps iv startChunk)
    (fill fun _ => default) (fun _ => rfl)
    (fun _ => by rw [blockOf_ctrIncBe64, counterBlock_zero]) hi
  rw [aes128Ctr, hloop, if_neg (Nat.not_lt_zero i), keyWords_keySchedule, counterBlock_counterBlock]
  rfl

theorem keystream_add (key iv : State) (startChunk : UInt64) (m i : Nat) :
    keystream key iv startChunk.toNat (128 * m + i) =
      keystream key iv (startChunk + UInt64.ofNat m).toNat i := by
  have hdiv : (128 * m + i) / 128 = m + i / 128 := by omega
  have hmod : (128 * m + i) % 128 = i % 128 := by omega
  have hbit : (128 * m + i) % 8 = i % 8 := by omega
  have hsum : ((startChunk + UInt64.ofNat m).toNat + i / 128) % 2 ^ 64 =
      (startChunk.toNat + (m + i / 128)) % 2 ^ 64 := by
    rw [UInt64.toNat_add, UInt64.toNat_ofNat']
    omega
  rw [keystream, keystream, ← counterBlock_mod, hdiv, ← hsum, counterBlock_mod]
  simp only [hmod, hbit]

theorem aes_circuits_exact :
    (∀ plaintext key : Word Wire 128, blockOf c (aes128Encrypt c.toGateOps plaintext key) =
      aes128 (blockOf c key) (blockOf c plaintext)) ∧
    (∀ (L : Nat) (key iv : Word Wire 128) (inp : Word Wire L) (startChunk : UInt64) (i : Fin L),
      c.value ((aes128Ctr c.toGateOps key iv inp startChunk).wire i) =
        (c.value (inp.wire i) ^^
          (aes128 (blockOf c key) (counterBlock (blockOf c iv)
            (startChunk.toNat + i / 128)))[i.val % 128 / 8].getLsbD (i % 8))) ∧
    ∀ (m n : Nat) (key iv : Word Wire 128) (inp : Word Wire (128 * m + n)) (startChunk : UInt64)
      (i : Fin (128 * m + n)),
      c.value ((aes128Ctr c.toGateOps key iv inp startChunk).wire i) =
        if i.val < 128 * m then
          c.value ((aes128Ctr c.toGateOps key iv (inp.slice 0 (128 * m)) startChunk).wire i)
        else
          c.value ((aes128Ctr c.toGateOps key iv (inp.slice (128 * m) n)
            (startChunk + UInt64.ofNat m)).wire (i - 128 * m)) := by
  refine ⟨aes128Encrypt_eq c, fun L key iv inp startChunk i => ?_,
    fun m n key iv inp startChunk i => ?_⟩
  · exact value_aes128Ctr c key iv inp startChunk i.isLt
  · rw [value_aes128Ctr c key iv inp startChunk i.isLt]
    split
    case isTrue hlow =>
      rw [value_aes128Ctr c key iv _ startChunk hlow, wire_slice _ _ hlow, Nat.zero_add]
    case isFalse hhigh =>
      have hi : 128 * m + (i.val - 128 * m) = i.val := by omega
      rw [value_aes128Ctr c key iv _ _ (by omega), wire_slice _ _ (by omega), ← keystream_add, hi]

end EmpTool.Circuits.Crypto
