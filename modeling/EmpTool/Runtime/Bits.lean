import EmpTool.Crypto.Block
import EmpTool.Library.Memory
import EmpTool.Runtime.Error
import Mathlib.Data.Nat.Bitwise

namespace EmpTool.Bits

open Memory

def movemask (width : Nat) (lanes : Nat → Bool) : UInt32 :=
  UInt32.ofNat (Nat.ofBits fun i : Fin width => lanes i)

-- the compare marks the bytes that are zero, so the mask is complemented
def bytesToBits32 (avx2 : Bool) (bools : Nat → Bool) : UInt32 :=
  if avx2 then ~~~movemask 32 fun i => !bools i
  else ~~~(movemask 16 (fun i => !bools i) ||| movemask 16 (fun i => !bools (16 + i)) <<< 16)

def byteAt (bits : UInt32) (j : Nat) : UInt8 := (bits >>> UInt32.ofNat (8 * j)).toUInt8

def bits32ToBytes (bits : UInt32) (i : Nat) : Bool :=
  min (byteAt bits (i / 8) &&& 1 <<< UInt8.ofNat (i % 8)) 1 ≠ 0

def bitAt (mem : Nat → UInt8) (i : Nat) : Bool := (mem (i / 8)).toNat.testBit (i % 8)

def load32 (mem : Nat → UInt8) (a : Nat) : UInt32 :=
  UInt32.ofNat (Nat.ofBits fun k : Fin 32 => bitAt mem (8 * a + k))

def putBit (out : Nat → UInt8) (i : Nat) (bit : Bool) : Nat → UInt8 :=
  let mask : UInt8 := 1 <<< UInt8.ofNat (i % 8)
  Function.update out (i / 8)
    (out (i / 8) &&& ~~~mask ||| (if bit then 1 else 0) <<< UInt8.ofNat (i % 8))

def takeBit (inp : Nat → UInt8) (i : Nat) : Bool :=
  (inp (i / 8) >>> UInt8.ofNat (i % 8)) &&& 1 ≠ 0

def boolsToBits (avx2 : Bool) (out : Nat → UInt8) (bools : Nat → Bool) (len : Int) :
    Except String (Nat → UInt8) := do
  expecting (0 ≤ len) "bools_to_bits: negative bit count"
  let len := len.toNat
  let full32 := len / 32
  let out := (List.range full32).foldl (fun out i =>
    storeRange 4 (i * 4) (byteAt (bytesToBits32 avx2 fun k => bools (i * 32 + k))) out) out
  pure ((List.range' (full32 * 32) (len - full32 * 32)).foldl
    (fun out i => putBit out i (bools i)) out)

def bitsToBools (bools : Nat → Bool) (inp : Nat → UInt8) (len : Int) :
    Except String (Nat → Bool) := do
  expecting (0 ≤ len) "bits_to_bools: negative bit count"
  let len := len.toNat
  let full32 := len / 32
  let bools := (List.range full32).foldl (fun bools i =>
    storeRange 32 (i * 32) (bits32ToBytes (load32 inp (i * 4))) bools) bools
  pure ((List.range' (full32 * 32) (len - full32 * 32)).foldl
    (fun bools i => Function.update bools i (takeBit inp i)) bools)

section Words

theorem nat_eq_of_testBit {w a b : Nat} (ha : a < 2 ^ w) (hb : b < 2 ^ w)
    (h : ∀ i < w, a.testBit i = b.testBit i) : a = b := by
  apply Nat.eq_of_testBit_eq
  intro i
  by_cases hi : i < w
  · exact h i hi
  · have hle : 2 ^ w ≤ 2 ^ i := Nat.pow_le_pow_right (by decide) (by omega)
    rw [Nat.testBit_lt_two_pow (Nat.lt_of_lt_of_le ha hle),
      Nat.testBit_lt_two_pow (Nat.lt_of_lt_of_le hb hle)]

theorem byte_eq_of_bitAt {a b : Nat → UInt8} {i j : Nat}
    (h : ∀ k < 8, bitAt a (8 * i + k) = bitAt b (8 * j + k)) : a i = b j := by
  refine UInt8.toNat_inj.mp (nat_eq_of_testBit (a i).toNat_lt (b j).toNat_lt fun k hk => ?_)
  have hbit := h k hk
  have hi : (8 * i + k) / 8 = i := by omega
  have hj : (8 * j + k) / 8 = j := by omega
  rwa [bitAt, bitAt, hi, hj, Nat.mul_add_mod, Nat.mul_add_mod, Nat.mod_eq_of_lt hk] at hbit

theorem word_eq_of_testBit {v w : UInt64}
    (h : ∀ t < 64, v.toNat.testBit t = w.toNat.testBit t) : v = w :=
  UInt64.toNat_inj.mp (nat_eq_of_testBit v.toNat_lt w.toNat_lt h)

theorem testBit_movemask {width : Nat} (hw : width ≤ 32) (lanes : Nat → Bool) (i : Nat) :
    (movemask width lanes).toNat.testBit i = (decide (i < width) && lanes i) := by
  have hlt : (Nat.ofBits fun i : Fin width => lanes i) < 2 ^ 32 :=
    Nat.lt_of_lt_of_le (Nat.ofBits_lt_two_pow _) (Nat.pow_le_pow_right (by decide) hw)
  rw [movemask, UInt32.toNat_ofNat_of_lt' hlt, Nat.testBit_ofBits]
  by_cases hi : i < width
  · simp [hi]
  · simp [hi]

theorem testBit_not (x : UInt32) {i : Nat} (hi : i < 32) :
    (~~~x).toNat.testBit i = !x.toNat.testBit i := by
  rw [← UInt32.toNat_toBitVec, UInt32.toBitVec_not, BitVec.testBit_toNat, BitVec.getLsbD_not,
    ← UInt32.toNat_toBitVec x, BitVec.testBit_toNat]
  simp [hi]

theorem bytesToBits32_testBit (avx2 : Bool) (bools : Nat → Bool) {i : Nat} (hi : i < 32) :
    (bytesToBits32 avx2 bools).toNat.testBit i = bools i := by
  cases avx2 with
  | true =>
    simp only [bytesToBits32, if_true]
    rw [testBit_not _ hi, testBit_movemask (Nat.le_refl 32)]
    simp [hi]
  | false =>
    have hsixteen : (16 : UInt32).toNat % 32 = 16 := rfl
    simp only [bytesToBits32, Bool.false_eq_true, if_false]
    rw [testBit_not _ hi, UInt32.toNat_or, Nat.testBit_or, UInt32.toNat_shiftLeft, hsixteen,
      Nat.testBit_mod_two_pow, Nat.testBit_shiftLeft, testBit_movemask (by decide),
      testBit_movemask (by decide)]
    by_cases hlow : i < 16
    · have hnot : ¬ 16 ≤ i := by omega
      simp [hlow, hnot]
    · have hge : 16 ≤ i := by omega
      have hsub : 16 + (i - 16) = i := by omega
      have hhigh : i - 16 < 16 := by omega
      simp [hlow, hge, hi, hsub, hhigh]

theorem byteAt_testBit (x : UInt32) {j k : Nat} (hj : j < 4) (hk : k < 8) :
    (byteAt x j).toNat.testBit k = x.toNat.testBit (8 * j + k) := by
  have hshift : (UInt32.ofNat (8 * j)).toNat % 32 = 8 * j := by
    rw [UInt32.toNat_ofNat']
    omega
  rw [byteAt, UInt32.toNat_toUInt8, UInt32.toNat_shiftRight, hshift, Nat.testBit_mod_two_pow,
    Nat.testBit_shiftRight]
  simp [hk]

theorem toNat_shiftLeft_one {k : Nat} (hk : k < 8) :
    ((1 : UInt8) <<< UInt8.ofNat k).toNat = 2 ^ k := by
  have hshift : (UInt8.ofNat k).toNat % 8 = k := by
    rw [UInt8.toNat_ofNat']
    omega
  have hlt : 2 ^ k < 2 ^ 8 := Nat.pow_lt_pow_right (by decide) hk
  rw [UInt8.toNat_shiftLeft, hshift, UInt8.toNat_one, Nat.one_shiftLeft, Nat.mod_eq_of_lt hlt]

theorem and_shiftLeft_ne_zero (x : UInt8) {k : Nat} (hk : k < 8) :
    x &&& 1 <<< UInt8.ofNat k ≠ 0 ↔ x.toNat.testBit k = true := by
  rw [ne_eq, ← UInt8.toNat_inj, UInt8.toNat_and, toNat_shiftLeft_one hk, Nat.and_two_pow]
  have hpos := Nat.two_pow_pos k
  cases x.toNat.testBit k with
  | false => simp
  | true => simp

theorem min_one_ne_zero (x : UInt8) : min x 1 ≠ 0 ↔ x ≠ 0 := by
  rw [UInt8.min_def]
  split
  · exact Iff.rfl
  case isFalse h =>
    refine iff_of_true (by decide) fun hx => h ?_
    rw [hx]
    decide

theorem bits32ToBytes_eq (x : UInt32) {i : Nat} (hi : i < 32) :
    bits32ToBytes x i = x.toNat.testBit i := by
  have hk : i % 8 < 8 := Nat.mod_lt i (by decide)
  have hb := byteAt_testBit x (j := i / 8) (k := i % 8) (by omega) hk
  rw [Nat.div_add_mod] at hb
  apply Bool.eq_iff_iff.mpr
  rw [bits32ToBytes, decide_eq_true_iff, min_one_ne_zero, and_shiftLeft_ne_zero _ hk, hb]

theorem load32_testBit (mem : Nat → UInt8) (a : Nat) {i : Nat} (hi : i < 32) :
    (load32 mem a).toNat.testBit i = bitAt mem (8 * a + i) := by
  rw [load32, UInt32.toNat_ofNat_of_lt' (Nat.ofBits_lt_two_pow _), Nat.testBit_ofBits_lt _ _ hi]

theorem takeBit_eq (mem : Nat → UInt8) (i : Nat) : takeBit mem i = bitAt mem i := by
  have hshift : (UInt8.ofNat (i % 8)).toNat % 8 = i % 8 := by
    rw [UInt8.toNat_ofNat']
    omega
  apply Bool.eq_iff_iff.mpr
  rw [takeBit, decide_eq_true_iff, ne_eq, ← UInt8.toNat_inj, UInt8.toNat_and,
    UInt8.toNat_shiftRight, hshift, UInt8.toNat_one, Nat.and_one_is_mod, UInt8.toNat_zero, bitAt,
    Nat.testBit_eq_decide_div_mod_eq, decide_eq_true_iff, Nat.shiftRight_eq_div_pow]
  omega

theorem testBit_not8 (x : UInt8) {i : Nat} (hi : i < 8) :
    (~~~x).toNat.testBit i = !x.toNat.testBit i := by
  rw [← UInt8.toNat_toBitVec, UInt8.toBitVec_not, BitVec.testBit_toNat, BitVec.getLsbD_not,
    ← UInt8.toNat_toBitVec x, BitVec.testBit_toNat]
  simp [hi]

theorem bitAt_putBit (out : Nat → UInt8) (i : Nat) (bit : Bool) (j : Nat) :
    bitAt (putBit out i bit) j = if j = i then bit else bitAt out j := by
  have hk : i % 8 < 8 := Nat.mod_lt i (by decide)
  have hl : j % 8 < 8 := Nat.mod_lt j (by decide)
  by_cases hword : j / 8 = i / 8
  · have hput : (((if bit then 1 else 0 : UInt8)) <<< UInt8.ofNat (i % 8)).toNat =
        if bit then 2 ^ (i % 8) else 0 := by
      cases bit with
      | true => exact toNat_shiftLeft_one hk
      | false => simp
    have hpos : j = i ↔ i % 8 = j % 8 := by omega
    rw [bitAt, putBit, hword, Function.update_self, UInt8.toNat_or, Nat.testBit_or,
      UInt8.toNat_and, Nat.testBit_and, testBit_not8 _ hl, toNat_shiftLeft_one hk,
      Nat.testBit_two_pow, hput, bitAt, hword]
    by_cases hji : i % 8 = j % 8
    · rw [if_pos (hpos.mpr hji)]
      cases bit <;> simp [hji]
    · rw [if_neg fun h => hji (hpos.mp h)]
      cases bit <;> simp [hji]
  · have hne : j ≠ i := fun h => hword (by rw [h])
    rw [if_neg hne, bitAt, putBit, Function.update_of_ne hword, bitAt]

end Words

section Loops

theorem bitAt_words (avx2 : Bool) (out : Nat → UInt8) (bools : Nat → Bool) (full32 i : Nat) :
    bitAt ((List.range full32).foldl (fun out i => storeRange 4 (i * 4)
      (byteAt (bytesToBits32 avx2 fun k => bools (i * 32 + k))) out) out) i =
      if i < full32 * 32 then bools i else bitAt out i := by
  have hstep : (fun out i => storeRange 4 (i * 4)
      (byteAt (bytesToBits32 avx2 fun k => bools (i * 32 + k))) out) =
      fun out t => storeRange 4 (0 + t * 4) (fun j => byteAt
        (bytesToBits32 avx2 fun k => bools ((t * 4 + j) / 4 * 32 + k)) ((t * 4 + j) % 4)) out := by
    funext out t
    rw [Nat.zero_add]
    refine storeRange_congr fun j hj => ?_
    have hdiv : (t * 4 + j) / 4 = t := by omega
    have hmod : (t * 4 + j) % 4 = j := by omega
    rw [hdiv, hmod]
  rw [hstep, @foldl_storeRange UInt8 4 full32 0
    (fun a => byteAt (bytesToBits32 avx2 fun k => bools (a / 4 * 32 + k)) (a % 4)) out]
  by_cases hi : i < full32 * 32
  · have hb : (i / 8 : Nat) < full32 * 4 := by omega
    have hbit : 8 * (i / 8 % 4) + i % 8 < 32 := by omega
    have hpos : i / 8 / 4 * 32 + (8 * (i / 8 % 4) + i % 8) = i := by omega
    rw [if_pos hi, bitAt, storeRange_front hb, byteAt_testBit _ (by omega) (by omega),
      bytesToBits32_testBit avx2 _ hbit, hpos]
  · rw [if_neg hi, bitAt, storeRange_off (by omega), bitAt]

theorem foldl_range'_read {σ α : Type} {read : σ → Nat → α} {write : σ → Nat → σ} {value : Nat → α}
    (hwrite : ∀ s i j, read (write s i) j = if j = i then value i else read s j) (s : σ)
    (start count j : Nat) :
    read ((List.range' start count).foldl write s) j =
      if start ≤ j ∧ j < start + count then value j else read s j := by
  induction count generalizing start s with
  | zero => exact (if_neg (by omega)).symm
  | succ count ih =>
    rw [List.range'_succ, List.foldl_cons, ih, hwrite]
    by_cases hj : j = start
    · subst hj
      rw [if_neg (by omega), if_pos rfl, if_pos (by omega)]
    · rw [if_neg hj]
      by_cases hin : start + 1 ≤ j ∧ j < start + 1 + count
      · rw [if_pos hin, if_pos (by omega)]
      · rw [if_neg hin, if_neg (by omega)]

theorem bitAt_tail (out : Nat → UInt8) (bools : Nat → Bool) (start count : Nat) (i : Nat) :
    bitAt ((List.range' start count).foldl (fun out i => putBit out i (bools i)) out) i =
      if start ≤ i ∧ i < start + count then bools i else bitAt out i :=
  foldl_range'_read (fun out i j => bitAt_putBit out i (bools i) j) out start count i

theorem ite_words {α : Type} (len i : Nat) (a b : α) :
    (if len / 32 * 32 ≤ i ∧ i < len / 32 * 32 + (len - len / 32 * 32) then a
      else if i < len / 32 * 32 then a else b) = if i < len then a else b := by
  have hdiv := Nat.div_add_mod len 32
  by_cases hlt : i < len
  · rw [if_pos hlt]
    by_cases hword : i < len / 32 * 32
    · rw [if_neg (by omega), if_pos hword]
    · rw [if_pos (by omega)]
  · rw [if_neg hlt, if_neg (by omega), if_neg (by omega)]

theorem boolsToBits_ok (avx2 : Bool) (out : Nat → UInt8) (bools : Nat → Bool) (len : Nat) :
    ∃ out', boolsToBits avx2 out bools len = .ok out' ∧
      ∀ i, bitAt out' i = if i < len then bools i else bitAt out i := by
  refine ⟨_, bind_eq_ok.mpr ⟨(), expecting_eq_ok.mpr (Int.natCast_nonneg len), rfl⟩, fun i => ?_⟩
  rw [Int.toNat_natCast, bitAt_tail, bitAt_words, ite_words]

theorem words_bools (bools : Nat → Bool) (inp : Nat → UInt8) (full32 : Nat) (i : Nat) :
    (List.range full32).foldl (fun bools i =>
      storeRange 32 (i * 32) (bits32ToBytes (load32 inp (i * 4))) bools) bools i =
      if i < full32 * 32 then bitAt inp i else bools i := by
  have hstep : (fun bools i => storeRange 32 (i * 32) (bits32ToBytes (load32 inp (i * 4))) bools) =
      fun bools t => storeRange 32 (0 + t * 32) (fun j => bitAt inp (t * 32 + j)) bools := by
    funext bools t
    rw [Nat.zero_add]
    refine storeRange_congr fun j hj => ?_
    have hpos : 8 * (t * 4) + j = t * 32 + j := by omega
    rw [bits32ToBytes_eq _ hj, load32_testBit _ _ hj, hpos]
  rw [hstep, foldl_storeRange]
  by_cases hi : i < full32 * 32
  · rw [if_pos hi, storeRange_front hi]
  · rw [if_neg hi, storeRange_off (by omega)]

theorem tail_bools (bools : Nat → Bool) (inp : Nat → UInt8) (start count : Nat) (i : Nat) :
    (List.range' start count).foldl
      (fun bools i => Function.update bools i (takeBit inp i)) bools i =
      if start ≤ i ∧ i < start + count then bitAt inp i else bools i := by
  have htake : ∀ (bools : Nat → Bool) (i j : Nat),
      Function.update bools i (takeBit inp i) j = if j = i then bitAt inp i else bools j := by
    intro bools i j
    rw [Function.update_apply, takeBit_eq]
  exact @foldl_range'_read (Nat → Bool) Bool (fun bools i => bools i) _ _ htake bools start count i

theorem bitsToBools_ok (bools : Nat → Bool) (inp : Nat → UInt8) (len : Nat) :
    ∃ bools', bitsToBools bools inp len = .ok bools' ∧
      ∀ i, bools' i = if i < len then bitAt inp i else bools i := by
  refine ⟨_, bind_eq_ok.mpr ⟨(), expecting_eq_ok.mpr (Int.natCast_nonneg len), rfl⟩, fun i => ?_⟩
  rw [Int.toNat_natCast, tail_bools, words_bools, ite_words]

end Loops

section Blocks

open EmpTool.Crypto

def load64 (mem : Nat → UInt8) (a : Nat) : UInt64 :=
  UInt64.ofNat (Nat.ofBits fun k : Fin 64 => bitAt mem (8 * a + k))

def blockOfBytes (mem : Nat → UInt8) : Block := ⟨load64 mem 8, load64 mem 0⟩

def byteAt64 (x : UInt64) (j : Nat) : UInt8 := (x >>> UInt64.ofNat (8 * j)).toUInt8

def blockBytes (b : Block) (j : Nat) : UInt8 :=
  if j < 8 then byteAt64 b.low j else byteAt64 b.high (j - 8)

def lane (b : Block) (t : Nat) : Bool :=
  if t < 64 then b.low.toNat.testBit t else b.high.toNat.testBit (t - 64)

-- `r` is what the uninitialised local holds
def boolToBlock (avx2 : Bool) (r : Block) (data : Nat → Bool) : Except String Block := do
  let bytes ← boolsToBits avx2 (blockBytes r) data 128
  pure (blockOfBytes bytes)

theorem load64_testBit (mem : Nat → UInt8) (a : Nat) {i : Nat} (hi : i < 64) :
    (load64 mem a).toNat.testBit i = bitAt mem (8 * a + i) := by
  rw [load64, UInt64.toNat_ofNat_of_lt' (Nat.ofBits_lt_two_pow _), Nat.testBit_ofBits_lt _ _ hi]

theorem lane_blockOfBytes (mem : Nat → UInt8) {t : Nat} (ht : t < 128) :
    lane (blockOfBytes mem) t = bitAt mem t := by
  rw [lane, blockOfBytes]
  by_cases hlow : t < 64
  · rw [if_pos hlow, load64_testBit _ _ hlow]
    congr 1
    omega
  · rw [if_neg hlow, load64_testBit _ _ (by omega)]
    congr 1
    omega

theorem byteAt64_testBit (x : UInt64) {j k : Nat} (hj : j < 8) (hk : k < 8) :
    (byteAt64 x j).toNat.testBit k = x.toNat.testBit (8 * j + k) := by
  have hshift : (UInt64.ofNat (8 * j)).toNat % 64 = 8 * j := by
    rw [UInt64.toNat_ofNat']
    omega
  rw [byteAt64, UInt64.toNat_toUInt8, UInt64.toNat_shiftRight, hshift, Nat.testBit_mod_two_pow,
    Nat.testBit_shiftRight]
  simp [hk]

theorem bitAt_blockBytes (b : Block) {t : Nat} (ht : t < 128) :
    bitAt (blockBytes b) t = lane b t := by
  have hk : t % 8 < 8 := Nat.mod_lt t (by decide)
  rw [bitAt, blockBytes, lane]
  by_cases hlow : t < 64
  · rw [if_pos (by omega), if_pos hlow, byteAt64_testBit _ (by omega) hk, Nat.div_add_mod]
  · have hpos : 8 * (t / 8 - 8) + t % 8 = t - 64 := by omega
    rw [if_neg (by omega), if_neg hlow, byteAt64_testBit _ (by omega) hk, hpos]

theorem block_eq_of_lane {a b : Block} (h : ∀ t < 128, lane a t = lane b t) : a = b := by
  apply Block.ext
  · apply word_eq_of_testBit
    intro t ht
    have hlane := h (64 + t) (by omega)
    rwa [lane, lane, if_neg (by omega), if_neg (by omega), Nat.add_sub_cancel_left] at hlane
  · apply word_eq_of_testBit
    intro t ht
    have hlane := h t (by omega)
    rwa [lane, lane, if_pos ht, if_pos ht] at hlane

theorem blockBytes_blockOfBytes (mem : Nat → UInt8) {j : Nat} (hj : j < 16) :
    blockBytes (blockOfBytes mem) j = mem j :=
  byte_eq_of_bitAt fun k hk => by
    rw [bitAt_blockBytes _ (by omega), lane_blockOfBytes _ (by omega)]

theorem boolToBlock_ok (avx2 : Bool) (r : Block) (data : Nat → Bool) :
    ∃ b, boolToBlock avx2 r data = .ok b ∧ ∀ t < 128, lane b t = data t := by
  obtain ⟨bytes, hok, hbits⟩ := boolsToBits_ok avx2 (blockBytes r) data 128
  refine ⟨blockOfBytes bytes, bind_eq_ok.mpr ⟨bytes, hok, rfl⟩, fun t ht => ?_⟩
  rw [lane_blockOfBytes _ ht, hbits, if_pos ht]

theorem bitsToBools_block (bools : Nat → Bool) (b : Block) :
    ∃ bools', bitsToBools bools (blockBytes b) 128 = .ok bools' ∧
      ∀ t < 128, bools' t = lane b t := by
  obtain ⟨bools', hok, hbits⟩ := bitsToBools_ok bools (blockBytes b) 128
  refine ⟨bools', hok, fun t ht => ?_⟩
  rw [hbits, if_pos ht, bitAt_blockBytes b ht]

end Blocks

end EmpTool.Bits
