import EmpTool.Io.Channel
import EmpTool.Library.Binary

namespace EmpTool.Io

open Binary Bits Memory

def packedByte (v : Nat → Bool) (n j : Nat) : UInt8 :=
  UInt8.ofNat (natOf 8 fun k => decide (8 * j + k < n) && v (8 * j + k))

def packed (v : Nat → Bool) (n : Nat) : List UInt8 := slice (packedByte v n) 0 ((n + 7) / 8)

def boolBatches (n : Nat) : List Nat :=
  (List.range ((n + ioBoolChunkSize - 1) / ioBoolChunkSize)).map fun c =>
    min (n - ioBoolChunkSize * c) ioBoolChunkSize

def boolChunks (v : Nat → Bool) (n : Nat) : List (List UInt8) :=
  (List.range ((n + ioBoolChunkSize - 1) / ioBoolChunkSize)).map fun c =>
    packed (fun i => v (ioBoolChunkSize * c + i)) (min (n - ioBoolChunkSize * c) ioBoolChunkSize)

section Packing

variable (v : Nat → Bool)

theorem bitAt_packedByte (n i : Nat) : bitAt (packedByte v n) i = (decide (i < n) && v i) := by
  have hk : i % 8 < 8 := Nat.mod_lt i (by decide)
  rw [bitAt, packedByte, UInt8.toNat_ofNat_of_lt' (natOf_lt 8 _), testBit_natOf,
    decide_eq_true hk, Bool.true_and, Nat.div_add_mod]

@[simp] theorem length_packed (n : Nat) : (packed v n).length = (n + 7) / 8 := length_slice _ _ _

theorem slice_eq_packed {bytes : Nat → UInt8} {n : Nat}
    (h : ∀ i < 8 * ((n + 7) / 8), bitAt bytes i = (decide (i < n) && v i)) :
    slice bytes 0 ((n + 7) / 8) = packed v n := by
  refine slice_congr fun j hj => byte_eq_of_bitAt fun k hk => ?_
  rw [h _ (by omega), bitAt_packedByte]

theorem slice_packed_prefix {m n : Nat} (hle : m ≤ n) (hm : m % 8 = 0) :
    slice (packedByte v n) 0 ((m + 7) / 8) = packed v m := by
  refine slice_eq_packed v fun i hi => ?_
  rw [bitAt_packedByte, decide_eq_true (by omega), decide_eq_true (by omega)]

theorem slice_packed_suffix {m n : Nat} (hle : m ≤ n) (hm : m % 8 = 0) :
    slice (packedByte v n) ((m + 7) / 8) ((n - m + 7) / 8) =
      packed (fun i => v (m + i)) (n - m) := by
  refine slice_congr fun j _ => byte_eq_of_bitAt fun k _ => ?_
  have hpos : 8 * ((m + 7) / 8 + j) + k = m + (8 * (0 + j) + k) := by omega
  have hlt : m + (8 * (0 + j) + k) < n ↔ 8 * (0 + j) + k < n - m := by omega
  rw [bitAt_packedByte, bitAt_packedByte, hpos, decide_eq_decide.mpr hlt]

theorem packed_append {m n : Nat} (hle : m ≤ n) (hcut : m % 8 = 0 ∨ m = n) :
    packed v m ++ packed (fun i => v (m + i)) (n - m) = packed v n := by
  rcases hcut with hm | rfl
  · have hsplit : (n + 7) / 8 = (m + 7) / 8 + (n - m + 7) / 8 := by omega
    have happ := slice_append (packedByte v n) 0 ((m + 7) / 8) ((n - m + 7) / 8)
    rw [Nat.zero_add, slice_packed_prefix v hle hm, slice_packed_suffix v hle hm, ← hsplit] at happ
    exact happ
  · have hnil : packed (fun i => v (m + i)) 0 = [] := rfl
    rw [Nat.sub_self, hnil, List.append_nil]

theorem chunk_cut (n : Nat) : min n ioBoolChunkSize % 8 = 0 ∨ min n ioBoolChunkSize = n := by
  unfold ioBoolChunkSize
  omega

theorem range_chunks {n : Nat} (hn : 0 < n) :
    List.range ((n + ioBoolChunkSize - 1) / ioBoolChunkSize) =
      0 :: (List.range ((n - min n ioBoolChunkSize + ioBoolChunkSize - 1) / ioBoolChunkSize)).map
        Nat.succ := by
  have hcount : (n + ioBoolChunkSize - 1) / ioBoolChunkSize =
      (n - min n ioBoolChunkSize + ioBoolChunkSize - 1) / ioBoolChunkSize + 1 := by
    unfold ioBoolChunkSize
    omega
  rw [hcount, List.range_succ_eq_map]

theorem next_chunk (n c : Nat) :
    n - ioBoolChunkSize * (c + 1) = n - min n ioBoolChunkSize - ioBoolChunkSize * c := by
  unfold ioBoolChunkSize
  omega

theorem boolBatches_step {n : Nat} (hn : 0 < n) :
    boolBatches n = min n ioBoolChunkSize :: boolBatches (n - min n ioBoolChunkSize) := by
  rw [boolBatches, range_chunks hn, List.map_cons, List.map_map, Nat.mul_zero, Nat.sub_zero,
    boolBatches]
  simp only [Function.comp_def, Nat.succ_eq_add_one, next_chunk]

theorem boolChunks_step {n : Nat} (hn : 0 < n) :
    boolChunks v n = packed v (min n ioBoolChunkSize) ::
      boolChunks (fun i => v (min n ioBoolChunkSize + i)) (n - min n ioBoolChunkSize) := by
  rw [boolChunks, range_chunks hn, List.map_cons, List.map_map, Nat.mul_zero, Nat.sub_zero,
    boolChunks]
  simp only [Function.comp_def, Nat.succ_eq_add_one, next_chunk, Nat.zero_add]
  refine congrArg _ (List.map_congr_left fun c hc => ?_)
  -- another chunk follows, so this one is full
  have hfull : min n ioBoolChunkSize = ioBoolChunkSize := by
    rw [List.mem_range] at hc
    unfold ioBoolChunkSize at *
    omega
  have hpos (i : Nat) :
      ioBoolChunkSize * (c + 1) + i = ioBoolChunkSize + (ioBoolChunkSize * c + i) := by
    rw [Nat.mul_succ]
    omega
  simp only [hfull, hpos]

theorem flatten_boolChunks (n : Nat) : (boolChunks v n).flatten = packed v n := by
  induction n using Nat.strongRecOn generalizing v with
  | ind n ih =>
    rcases Nat.eq_zero_or_pos n with rfl | hn
    · rfl
    · have hbatch : 0 < min n ioBoolChunkSize := by
        unfold ioBoolChunkSize
        omega
      rw [boolChunks_step v hn, List.flatten_cons, ih _ (by omega),
        packed_append v (Nat.min_le_left _ _) (chunk_cut n)]

theorem lengths_boolChunks (n : Nat) :
    (boolChunks v n).map List.length = (boolBatches n).map fun batch => (batch + 7) / 8 := by
  simp only [boolChunks, boolBatches, List.map_map, Function.comp_def, length_packed]

theorem sum_batches (n : Nat) : (boolBatches n).sum = n := by
  induction n using Nat.strongRecOn with
  | ind n ih =>
    rcases Nat.eq_zero_or_pos n with rfl | hn
    · rfl
    · have hbatch : 0 < min n ioBoolChunkSize := by
        unfold ioBoolChunkSize
        omega
      rw [boolBatches_step hn, List.sum_cons, ih _ (by omega)]
      omega

-- whatever the buffer held, the cleared byte and the packed bits leave exactly the packed bytes
theorem pack_chunk (avx2 : Bool) (buf : Nat → UInt8) (n : Nat) :
    ∃ buf', boolsToBits avx2 (clearTail n buf) v n = .ok buf' ∧
      slice buf' 0 ((n + 7) / 8) = packed v n := by
  obtain ⟨buf', hok, hbits⟩ := boolsToBits_ok avx2 (clearTail n buf) v n
  refine ⟨buf', hok, slice_eq_packed v fun i hi => ?_⟩
  rw [hbits]
  by_cases hin : i < n
  · rw [if_pos hin, decide_eq_true hin, Bool.true_and]
  · have hlast : i / 8 = (n + 7) / 8 - 1 := by omega
    have hpart : n % 8 ≠ 0 := by omega
    rw [if_neg hin, decide_eq_false hin, Bool.false_and, bitAt, clearTail, if_pos hpart, hlast,
      Function.update_self]
    exact Nat.zero_testBit _

theorem unpack_chunk {n : Nat} (bools : Nat → Bool) (buf : Nat → UInt8) {got : List UInt8}
    (hgot : got = packed v n) :
    ∃ out, bitsToBools bools (storeRange got.length 0 (fun i => got.getD i 0) buf) n = .ok out ∧
      ∀ i, out i = if i < n then v i else bools i := by
  obtain ⟨out, hok, hbits⟩ :=
    bitsToBools_ok bools (storeRange got.length 0 (fun i => got.getD i 0) buf) n
  refine ⟨out, hok, fun i => ?_⟩
  rw [hbits]
  split
  case isFalse => rfl
  case isTrue hi =>
    have hlen : i / 8 < (n + 7) / 8 := by omega
    have hbyte : storeRange got.length 0 (fun i => got.getD i 0) buf (i / 8) =
        packedByte v n (i / 8) := by
      have hat : i / 8 < got.length := by
        rw [hgot, length_packed]
        exact hlen
      rw [storeRange_front hat, hgot, List.getD_eq_getElem _ _ (by rw [length_packed]; exact hlen)]
      simp [packed, slice]
    have hpacked := bitAt_packedByte v n i
    rw [decide_eq_true hi, Bool.true_and] at hpacked
    rw [bitAt, hbyte]
    exact hpacked

end Packing

end EmpTool.Io
