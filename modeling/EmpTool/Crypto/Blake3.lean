import EmpTool.Library.Memory
import EmpTool.Library.SubtreeStack
import EmpTool.Runtime.Error

namespace EmpTool.Crypto.Blake3

open Memory SubtreeStack

abbrev Bytes := List UInt8

abbrev Words := List UInt32

theorem length_drop_lt {n : Nat} (hn : 0 < n) {input : Bytes} (h : n ≤ input.length) :
    (input.drop n).length < input.length := by
  rw [List.length_drop]
  omega

theorem length_take_lt {n : Nat} {input : Bytes} (h : n < input.length) :
    (input.take n).length < input.length := by
  rw [List.length_take]
  omega

def blockBytes : Nat := 64

def chunkBytes : Nat := 1024

theorem blockBytes_pos : 0 < blockBytes := Nat.succ_pos 63

theorem chunkBytes_pos : 0 < chunkBytes := Nat.succ_pos 1023

def maxDepth : Nat := 54

def chunkStart : UInt8 := 1

def chunkEnd : UInt8 := 2

def parentFlag : UInt8 := 4

def rootFlag : UInt8 := 8

def keyedHash : UInt8 := 16

def deriveKeyContext : UInt8 := 32

def deriveKeyMaterial : UInt8 := 64

def iv : Words :=
  [0x6A09E667, 0xBB67AE85, 0x3C6EF372, 0xA54FF53A, 0x510E527F, 0x9B05688C, 0x1F83D9AB, 0x5BE0CD19]

def msgSchedule : List (List Nat) :=
  [[0, 1, 2, 3, 4, 5, 6, 7, 8, 9, 10, 11, 12, 13, 14, 15],
    [2, 6, 3, 10, 7, 0, 4, 13, 1, 11, 12, 5, 9, 14, 15, 8],
    [3, 4, 10, 12, 13, 2, 7, 14, 6, 5, 9, 0, 11, 15, 8, 1],
    [10, 7, 12, 9, 14, 3, 13, 15, 4, 0, 11, 2, 5, 8, 1, 6],
    [12, 13, 9, 11, 15, 10, 14, 8, 7, 2, 5, 3, 0, 1, 6, 4],
    [9, 14, 11, 5, 8, 12, 15, 1, 13, 3, 0, 10, 2, 6, 4, 7],
    [11, 15, 5, 0, 1, 9, 8, 6, 14, 10, 2, 12, 3, 4, 7, 13]]

section Compress

def load32 (src : Bytes) (a : Nat) : UInt32 :=
  (src.getD a 0).toUInt32 ||| (src.getD (a + 1) 0).toUInt32 <<< 8 |||
    (src.getD (a + 2) 0).toUInt32 <<< 16 ||| (src.getD (a + 3) 0).toUInt32 <<< 24

def store32 (w : UInt32) : Bytes :=
  [w.toUInt8, (w >>> 8).toUInt8, (w >>> 16).toUInt8, (w >>> 24).toUInt8]

def loadWords (n : Nat) (src : Bytes) : Words := (List.range n).map fun i => load32 src (4 * i)

def storeCvWords (cv : Words) : Bytes := (List.range 8).flatMap fun i => store32 (cv.getD i 0)

def rotr32 (w c : UInt32) : UInt32 := (w >>> c) ||| (w <<< (32 - c))

def g (a b c d : Nat) (x y : UInt32) (state : Words) : Words :=
  let state := state.set a (state.getD a 0 + state.getD b 0 + x)
  let state := state.set d (rotr32 (state.getD d 0 ^^^ state.getD a 0) 16)
  let state := state.set c (state.getD c 0 + state.getD d 0)
  let state := state.set b (rotr32 (state.getD b 0 ^^^ state.getD c 0) 12)
  let state := state.set a (state.getD a 0 + state.getD b 0 + y)
  let state := state.set d (rotr32 (state.getD d 0 ^^^ state.getD a 0) 8)
  let state := state.set c (state.getD c 0 + state.getD d 0)
  state.set b (rotr32 (state.getD b 0 ^^^ state.getD c 0) 7)

def roundFn (msg : Words) (state : Words) (round : Nat) : Words :=
  let m (i : Nat) := msg.getD ((msgSchedule.getD round []).getD i 0) 0
  let state := g 0 4 8 12 (m 0) (m 1) state
  let state := g 1 5 9 13 (m 2) (m 3) state
  let state := g 2 6 10 14 (m 4) (m 5) state
  let state := g 3 7 11 15 (m 6) (m 7) state
  let state := g 0 5 10 15 (m 8) (m 9) state
  let state := g 1 6 11 12 (m 10) (m 11) state
  let state := g 2 7 8 13 (m 12) (m 13) state
  g 3 4 9 14 (m 14) (m 15) state

def counterLow (counter : UInt64) : UInt32 := counter.toUInt32

def counterHigh (counter : UInt64) : UInt32 := (counter >>> 32).toUInt32

def compressPre (cv : Words) (block : Bytes) (blockLen : Nat) (counter : UInt64) (flags : UInt8) :
    Words :=
  let state := cv.take 8 ++ iv.take 4 ++
    [counterLow counter, counterHigh counter, UInt32.ofNat blockLen, flags.toUInt32]
  (List.range 7).foldl (roundFn (loadWords 16 block)) state

def compressInPlace (cv : Words) (block : Bytes) (blockLen : Nat) (counter : UInt64)
    (flags : UInt8) : Words :=
  let state := compressPre cv block blockLen counter flags
  (List.range 8).map fun i => state.getD i 0 ^^^ state.getD (i + 8) 0

def compressXof (cv : Words) (block : Bytes) (blockLen : Nat) (counter : UInt64) (flags : UInt8) :
    Bytes :=
  let state := compressPre cv block blockLen counter flags
  ((List.range 8).flatMap fun i => store32 (state.getD i 0 ^^^ state.getD (i + 8) 0)) ++
    ((List.range 8).flatMap fun i => store32 (state.getD (i + 8) 0 ^^^ cv.getD i 0))

def xofMany (cv : Words) (block : Bytes) (blockLen : Nat) (counter : UInt64) (flags : UInt8)
    (outBlocks : Nat) : Bytes :=
  (List.range outBlocks).flatMap fun i =>
    compressXof cv block blockLen (counter + UInt64.ofNat i) flags

def hashOneLoop (counter : UInt64) (flags flagsEnd : UInt8) : Nat → Bytes → Words → UInt8 → Words
  | 0, _, cv, _ => cv
  | blocks + 1, input, cv, blockFlags =>
    let blockFlags := if blocks + 1 = 1 then blockFlags ||| flagsEnd else blockFlags
    hashOneLoop counter flags flagsEnd blocks (input.drop blockBytes)
      (compressInPlace cv (input.take blockBytes) blockBytes counter blockFlags) flags

def hashOne (blocks : Nat) (key : Words) (counter : UInt64) (flags flagsStart flagsEnd : UInt8)
    (input : Bytes) : Bytes :=
  storeCvWords (hashOneLoop counter flags flagsEnd blocks input key (flags ||| flagsStart))

def hashMany (blocks : Nat) (key : Words) (incrementCounter : Bool)
    (flags flagsStart flagsEnd : UInt8) : UInt64 → List Bytes → List Bytes
  | _, [] => []
  | counter, input :: inputs =>
    hashOne blocks key counter flags flagsStart flagsEnd input ::
      hashMany blocks key incrementCounter flags flagsStart flagsEnd
        (if incrementCounter then counter + 1 else counter) inputs

end Compress

section Output

structure Output where
  inputCv : Words
  counter : UInt64
  block : Bytes
  blockLen : Nat
  flags : UInt8

def outputChainingValue (o : Output) : Bytes :=
  storeCvWords (compressInPlace o.inputCv o.block o.blockLen o.counter o.flags)

def outputRootBytes (o : Output) (seek : UInt64) (outLen : Nat) : Bytes :=
  if outLen = 0 then []
  else
    let outputBlockCounter := seek / 64
    let offsetWithinBlock := (seek % 64).toNat
    let (out, outputBlockCounter, outLen) :=
      if offsetWithinBlock ≠ 0 then
        let wideBuf := compressXof o.inputCv o.block o.blockLen outputBlockCounter
          (o.flags ||| rootFlag)
        let availableBytes := 64 - offsetWithinBlock
        let bytes := if outLen > availableBytes then availableBytes else outLen
        ((wideBuf.drop offsetWithinBlock).take bytes, outputBlockCounter + 1, outLen - bytes)
      else ([], outputBlockCounter, outLen)
    let out := out ++ xofMany o.inputCv o.block o.blockLen outputBlockCounter
      (o.flags ||| rootFlag) (outLen / 64)
    let outputBlockCounter := outputBlockCounter + UInt64.ofNat (outLen / 64)
    let outLen := outLen % 64
    if outLen ≠ 0 then
      out ++ (compressXof o.inputCv o.block o.blockLen outputBlockCounter
        (o.flags ||| rootFlag)).take outLen
    else out

def parentOutput (block : Bytes) (key : Words) (flags : UInt8) : Output :=
  ⟨key, 0, block, blockBytes, flags ||| parentFlag⟩

end Output

section Chunk

structure ChunkState where
  cv : Words
  chunkCounter : UInt64
  buf : Bytes
  bufLen : Nat
  blocksCompressed : Nat
  flags : UInt8

def chunkStateInit (key : Words) (flags : UInt8) : ChunkState :=
  ⟨key, 0, List.replicate blockBytes 0, 0, 0, flags⟩

def chunkStateReset (self : ChunkState) (key : Words) (chunkCounter : UInt64) : ChunkState :=
  { self with
    cv := key
    chunkCounter := chunkCounter
    blocksCompressed := 0
    buf := List.replicate blockBytes 0
    bufLen := 0 }

def chunkStateLen (self : ChunkState) : Nat := blockBytes * self.blocksCompressed + self.bufLen

def chunkStateFillBuf (self : ChunkState) (input : Bytes) : ChunkState × Nat :=
  let take := blockBytes - self.bufLen
  let take := if take > input.length then input.length else take
  ({ self with
      buf := self.buf.take self.bufLen ++ input.take take ++ self.buf.drop (self.bufLen + take)
      bufLen := self.bufLen + take }, take)

def chunkStateMaybeStartFlag (self : ChunkState) : UInt8 :=
  if self.blocksCompressed = 0 then chunkStart else 0

def chunkStateCompress (self : ChunkState) (block : Bytes) : ChunkState :=
  { self with
    cv := compressInPlace self.cv block blockBytes self.chunkCounter
      (self.flags ||| chunkStateMaybeStartFlag self)
    blocksCompressed := (self.blocksCompressed + 1) % 2 ^ 8 }

def chunkStateBlocks (self : ChunkState) (input : Bytes) : ChunkState × Bytes :=
  if h : input.length > blockBytes then
    have := length_drop_lt blockBytes_pos (Nat.le_of_lt h)
    chunkStateBlocks (chunkStateCompress self (input.take blockBytes)) (input.drop blockBytes)
  else (self, input)
termination_by input.length
decreasing_by assumption

def chunkStateUpdate (self : ChunkState) (input : Bytes) : ChunkState :=
  let (self, input) :=
    if self.bufLen > 0 then
      let (self, take) := chunkStateFillBuf self input
      let input := input.drop take
      if input.length > 0 then
        ({ chunkStateCompress self self.buf with
            bufLen := 0
            buf := List.replicate blockBytes 0 }, input)
      else (self, input)
    else (self, input)
  let (self, input) := chunkStateBlocks self input
  (chunkStateFillBuf self input).1

def chunkStateOutput (self : ChunkState) : Output :=
  ⟨self.cv, self.chunkCounter, self.buf, self.bufLen,
    self.flags ||| chunkStateMaybeStartFlag self ||| chunkEnd⟩

end Chunk

section Subtree

def roundDownToPowerOf2 (x : Nat) : Nat := 2 ^ (x ||| 1).log2

def leftSubtreeLen (inputLen : Nat) : Nat :=
  roundDownToPowerOf2 ((inputLen - 1) / chunkBytes) * chunkBytes

def chunksArray (input : Bytes) : List Bytes :=
  if h : input.length ≥ chunkBytes then
    have := length_drop_lt chunkBytes_pos h
    input :: chunksArray (input.drop chunkBytes)
  else []
termination_by input.length
decreasing_by assumption

def compressChunksParallel (input : Bytes) (key : Words) (chunkCounter : UInt64) (flags : UInt8) :
    List Bytes :=
  let chunks := chunksArray input
  let inputPosition := chunkBytes * chunks.length
  let out := hashMany (chunkBytes / blockBytes) key true flags chunkStart chunkEnd chunkCounter
    chunks
  if input.length > inputPosition then
    let counter := chunkCounter + UInt64.ofNat chunks.length
    let chunkState := { chunkStateInit key flags with chunkCounter := counter }
    let chunkState := chunkStateUpdate chunkState (input.drop inputPosition)
    out ++ [outputChainingValue (chunkStateOutput chunkState)]
  else out

def parentsArray : List Bytes → List Bytes
  | left :: right :: rest => (left ++ right) :: parentsArray rest
  | _ => []

def compressParentsParallel (childChainingValues : List Bytes) (key : Words) (flags : UInt8) :
    List Bytes :=
  let parents := parentsArray childChainingValues
  let out := hashMany 1 key false (flags ||| parentFlag) 0 0 0 parents
  if childChainingValues.length > 2 * parents.length then
    out ++ [childChainingValues.getD (2 * parents.length) []]
  else out

def writeCvs (a : Nat) (cvs : List Bytes) (cvArray : Nat → Bytes) : Nat → Bytes :=
  storeRange cvs.length a (fun i => cvs.getD i []) cvArray

theorem hashMany_length (blocks : Nat) (key : Words) (incrementCounter : Bool)
    (flags flagsStart flagsEnd : UInt8) (counter : UInt64) (inputs : List Bytes) :
    (hashMany blocks key incrementCounter flags flagsStart flagsEnd counter inputs).length =
      inputs.length := by
  induction inputs generalizing counter with
  | nil => rfl
  | cons input inputs ih => rw [hashMany, List.length_cons, ih, List.length_cons]

theorem parentsArray_length (cvs : List Bytes) : (parentsArray cvs).length = cvs.length / 2 := by
  induction cvs using parentsArray.induct with
  | case1 left right rest ih =>
    rw [parentsArray, List.length_cons, ih, List.length_cons, List.length_cons]
    omega
  | case2 cvs h =>
    match cvs with
    | [] => simp [parentsArray]
    | [cv] => simp [parentsArray]
    | left :: right :: rest => exact absurd rfl (h left right rest)

theorem compressParentsParallel_length (cvs : List Bytes) (key : Words) (flags : UInt8) :
    (compressParentsParallel cvs key flags).length = (cvs.length + 1) / 2 := by
  rw [compressParentsParallel]
  split
  case isTrue h =>
    rw [parentsArray_length] at h
    rw [List.length_append, hashMany_length, parentsArray_length, List.length_singleton]
    omega
  case isFalse h =>
    rw [parentsArray_length] at h
    rw [hashMany_length, parentsArray_length]
    omega

theorem compressParentsParallel_lt (key : Words) (flags : UInt8) {cvs : List Bytes}
    (h : cvs.length > 2) : (compressParentsParallel cvs key flags).length < cvs.length := by
  rw [compressParentsParallel_length]
  omega

-- the degrees the dispatcher knows: 1, 4, 8 and 16
structure SimdDegree where
  log2 : Nat
  le : log2 ≤ 4

def SimdDegree.lanes (simd : SimdDegree) : Nat := 2 ^ simd.log2

def maxSimdDegreeOr2 (simd : SimdDegree) : Nat := if simd.lanes > 2 then simd.lanes else 2

theorem lor_one (x : Nat) : x ||| 1 = 2 * (x / 2) + 1 := by
  apply Nat.eq_of_testBit_eq
  intro i
  cases i with
  | zero => simp
  | succ i =>
    have hhalf : (2 * (x / 2) + 1) / 2 = x / 2 := by omega
    rw [Nat.testBit_or, Nat.testBit_succ, Nat.testBit_succ, Nat.testBit_succ, hhalf]
    simp

theorem roundDownToPowerOf2_eq {x : Nat} (hx : 0 < x) : roundDownToPowerOf2 x = 2 ^ x.log2 := by
  have hlow := Nat.log2_self_le (n := x) (by omega)
  have hhigh := Nat.lt_log2_self (n := x)
  rw [roundDownToPowerOf2, lor_one, (Nat.log2_eq_iff (by omega)).mpr]
  rw [Nat.pow_succ] at hhigh ⊢
  -- `x | 1` has the same highest bit, also when that is bit 0
  rcases Nat.eq_zero_or_pos x.log2 with hz | hz
  · rw [hz] at hlow hhigh ⊢
    omega
  · obtain ⟨k, hk⟩ := Nat.exists_eq_add_of_lt hz
    rw [Nat.zero_add] at hk
    rw [hk, Nat.pow_succ] at hlow hhigh ⊢
    omega

def chunkCount (inputLen : Nat) : Nat := (inputLen - 1) / chunkBytes + 1

theorem leftSubtreeLen_eq {inputLen : Nat} (h : chunkBytes < inputLen) :
    leftSubtreeLen inputLen = leftLeaves (chunkCount inputLen) * chunkBytes := by
  have hpos : 0 < (inputLen - 1) / chunkBytes := Nat.div_pos (by omega) chunkBytes_pos
  rw [leftSubtreeLen, roundDownToPowerOf2_eq hpos, leftLeaves, chunkCount, Nat.add_sub_cancel]

theorem one_lt_chunkCount {inputLen : Nat} (h : chunkBytes < inputLen) :
    1 < chunkCount inputLen := by
  have hpos : 0 < (inputLen - 1) / chunkBytes := Nat.div_pos (by omega) chunkBytes_pos
  rw [chunkCount]
  omega

theorem leftSubtreeLen_pos (inputLen : Nat) : 0 < leftSubtreeLen inputLen :=
  Nat.mul_pos (Nat.two_pow_pos _) chunkBytes_pos

theorem leftSubtreeLen_lt {inputLen : Nat} (h : chunkBytes < inputLen) :
    leftSubtreeLen inputLen < inputLen := by
  have hlt := leftLeaves_lt (one_lt_chunkCount h)
  have hmul := Nat.div_mul_le_self (inputLen - 1) chunkBytes
  have hle : leftLeaves (chunkCount inputLen) ≤ (inputLen - 1) / chunkBytes := by
    rw [chunkCount] at hlt ⊢
    omega
  have hbytes := Nat.mul_le_mul_right chunkBytes hle
  rw [leftSubtreeLen_eq h]
  omega

theorem chunkBytes_le_lanes (simd : SimdDegree) : chunkBytes ≤ simd.lanes * chunkBytes :=
  Nat.le_mul_of_pos_left _ (Nat.two_pow_pos _)

def compressSubtreeWide (simd : SimdDegree) (input : Bytes) (key : Words) (chunkCounter : UInt64)
    (flags : UInt8) : List Bytes :=
  if h : input.length ≤ simd.lanes * chunkBytes then
    compressChunksParallel input key chunkCounter flags
  else
    let leftInputLen := leftSubtreeLen input.length
    have hlong := Nat.lt_of_le_of_lt (chunkBytes_le_lanes simd) (Nat.lt_of_not_le h)
    have := length_drop_lt (leftSubtreeLen_pos _) (Nat.le_of_lt (leftSubtreeLen_lt hlong))
    have := length_take_lt (leftSubtreeLen_lt hlong)
    let rightChunkCounter := chunkCounter + UInt64.ofNat (leftInputLen / chunkBytes)
    let degree := if leftInputLen > chunkBytes ∧ simd.lanes = 1 then 2 else simd.lanes
    let left := compressSubtreeWide simd (input.take leftInputLen) key chunkCounter flags
    let right := compressSubtreeWide simd (input.drop leftInputLen) key rightChunkCounter flags
    let cvArray := writeCvs degree right (writeCvs 0 left fun _ => [])
    if left.length = 1 then slice cvArray 0 2
    else compressParentsParallel (slice cvArray 0 (left.length + right.length)) key flags
termination_by input.length
decreasing_by all_goals assumption

def condenseCvs (key : Words) (flags : UInt8) (cvArray : List Bytes) : List Bytes :=
  if h : cvArray.length > 2 then
    have := compressParentsParallel_lt key flags h
    condenseCvs key flags (compressParentsParallel cvArray key flags)
  else cvArray
termination_by cvArray.length

def compressSubtreeToParentNode (simd : SimdDegree) (input : Bytes) (key : Words)
    (chunkCounter : UInt64) (flags : UInt8) : Bytes × Bytes :=
  let cvArray := condenseCvs key flags (compressSubtreeWide simd input key chunkCounter flags)
  (cvArray.getD 0 [], cvArray.getD 1 [])

end Subtree

section Subtrees

theorem half_lt_of_mask {subtreeLen countSoFar : Nat}
    (h : (subtreeLen - 1) &&& countSoFar ≠ 0) : subtreeLen / 2 < subtreeLen := by
  have hpos : subtreeLen ≠ 0 := fun hz => h (by rw [hz, Nat.zero_sub, Nat.zero_and])
  omega

end Subtrees

section Hasher

structure Hasher where
  key : Words
  chunk : ChunkState
  -- `cv_stack[cv_stack_len - 1]` first
  cvStack : List Bytes

def hasherInitBase (key : Words) (flags : UInt8) : Hasher := ⟨key, chunkStateInit key flags, []⟩

def hasherInit : Hasher := hasherInitBase iv 0

def hasherInitKeyed (key : Bytes) : Hasher := hasherInitBase (loadWords 8 key) keyedHash

def popcnt (x : UInt64) : Nat := ones x.toNat

def mergeCvs (key : Words) (flags : UInt8) (postMergeStackLen : Nat) :
    List Bytes → Except String (List Bytes)
  | [] => pure []
  | [cv] => if 1 > postMergeStackLen then throw "cv_stack underflow" else pure [cv]
  | right :: left :: rest =>
    if rest.length + 2 > postMergeStackLen then
      mergeCvs key flags postMergeStackLen
        (outputChainingValue (parentOutput (left ++ right) key flags) :: rest)
    else pure (right :: left :: rest)
termination_by cvs => cvs.length

def hasherMergeCvStack (self : Hasher) (totalLen : UInt64) : Except String Hasher := do
  let cvStack ← mergeCvs self.key self.chunk.flags (popcnt totalLen) self.cvStack
  pure { self with cvStack := cvStack }

def hasherPushCv (self : Hasher) (newCv : Bytes) (chunkCounter : UInt64) :
    Except String Hasher := do
  let self ← hasherMergeCvStack self chunkCounter
  if self.cvStack.length < maxDepth + 1 then pure { self with cvStack := newCv :: self.cvStack }
  else throw "cv_stack overflow"

def shrinkSubtreeLen (countSoFar subtreeLen : Nat) : Nat :=
  if h : (subtreeLen - 1) &&& countSoFar ≠ 0 then
    have := half_lt_of_mask h
    shrinkSubtreeLen countSoFar (subtreeLen / 2)
  else subtreeLen
termination_by subtreeLen

theorem shrinkSubtreeLen_spec (countSoFar k : Nat) :
    ∃ j ≤ k, shrinkSubtreeLen countSoFar (2 ^ k) = 2 ^ j ∧ 2 ^ j ∣ countSoFar ∧
      ∀ i ≤ k, 2 ^ i ∣ countSoFar → i ≤ j := by
  induction k with
  | zero =>
    refine ⟨0, Nat.le_refl 0, ?_, Nat.one_dvd _, fun i hi _ => hi⟩
    rw [shrinkSubtreeLen, dif_neg]
    simp
  | succ k ih =>
    rw [shrinkSubtreeLen]
    split
    case isTrue h =>
      obtain ⟨j, hj, hlen, hdvd, hmax⟩ := ih
      have hhalf : 2 ^ (k + 1) / 2 = 2 ^ k := by rw [Nat.pow_succ, Nat.mul_div_cancel _ Nat.two_pos]
      refine ⟨j, Nat.le_succ_of_le hj, by simpa only [hhalf] using hlen, hdvd, fun i hi hd => ?_⟩
      rcases Nat.lt_or_eq_of_le hi with hlt | rfl
      · exact hmax i (Nat.le_of_lt_succ hlt) hd
      · rw [ne_eq, Nat.and_comm, Nat.and_two_pow_sub_one_eq_mod] at h
        exact absurd (Nat.mod_eq_zero_of_dvd hd) h
    case isFalse h =>
      rw [not_not, Nat.and_comm, Nat.and_two_pow_sub_one_eq_mod] at h
      exact ⟨k + 1, Nat.le_refl _, rfl, Nat.dvd_of_mod_eq_zero h, fun i hi _ => hi⟩

def nextSubtreeLen (chunkCounter : UInt64) (inputLen : Nat) : Nat :=
  shrinkSubtreeLen (chunkCounter * 1024).toNat (roundDownToPowerOf2 inputLen)

theorem nextSubtreeLen_spec (chunkCounter : UInt64) {inputLen : Nat} (h : chunkBytes < inputLen) :
    ∃ j ≤ inputLen.log2, nextSubtreeLen chunkCounter inputLen = 2 ^ j ∧
      2 ^ j ∣ (chunkCounter * 1024).toNat ∧
      ∀ i ≤ inputLen.log2, 2 ^ i ∣ (chunkCounter * 1024).toNat → i ≤ j := by
  rw [nextSubtreeLen, roundDownToPowerOf2_eq (by omega)]
  exact shrinkSubtreeLen_spec _ _

theorem nextSubtreeLen_bounds (chunkCounter : UInt64) {inputLen : Nat}
    (h : chunkBytes < inputLen) :
    0 < nextSubtreeLen chunkCounter inputLen ∧ nextSubtreeLen chunkCounter inputLen ≤ inputLen := by
  obtain ⟨j, hj, hlen, -⟩ := nextSubtreeLen_spec chunkCounter h
  have hlog := Nat.log2_self_le (n := inputLen) (by omega)
  have hmono := Nat.pow_le_pow_right Nat.two_pos hj
  rw [hlen]
  exact ⟨Nat.two_pow_pos j, hmono.trans hlog⟩

def hasherPushSubtree (simd : SimdDegree) (self : Hasher) (input : Bytes) (subtreeLen : Nat) :
    Except String Hasher := do
  let subtreeChunks := UInt64.ofNat (subtreeLen / chunkBytes)
  let self ←
    if subtreeLen ≤ chunkBytes then do
      let chunkState := { chunkStateInit self.key self.chunk.flags with
        chunkCounter := self.chunk.chunkCounter }
      let chunkState := chunkStateUpdate chunkState (input.take subtreeLen)
      hasherPushCv self (outputChainingValue (chunkStateOutput chunkState))
        chunkState.chunkCounter
    else do
      let cvPair := compressSubtreeToParentNode simd (input.take subtreeLen) self.key
        self.chunk.chunkCounter self.chunk.flags
      let self ← hasherPushCv self cvPair.1 self.chunk.chunkCounter
      hasherPushCv self cvPair.2 (self.chunk.chunkCounter + subtreeChunks / 2)
  pure { self with
    chunk := { self.chunk with chunkCounter := self.chunk.chunkCounter + subtreeChunks } }

def hasherUpdateSubtrees (simd : SimdDegree) (self : Hasher) (input : Bytes) :
    Except String Hasher := do
  if h : input.length > chunkBytes then
    let subtreeLen := nextSubtreeLen self.chunk.chunkCounter input.length
    have := nextSubtreeLen_bounds self.chunk.chunkCounter h
    have := length_drop_lt this.1 this.2
    let self ← hasherPushSubtree simd self input subtreeLen
    hasherUpdateSubtrees simd self (input.drop subtreeLen)
  else if input.length > 0 then
    hasherMergeCvStack { self with chunk := chunkStateUpdate self.chunk input }
      self.chunk.chunkCounter
  else pure self
termination_by input.length
decreasing_by assumption

def hasherUpdateBase (simd : SimdDegree) (self : Hasher) (input : Bytes) :
    Except String Hasher := do
  if input.length = 0 then pure self
  else if chunkStateLen self.chunk > 0 then
    let take := chunkBytes - chunkStateLen self.chunk
    let take := if take > input.length then input.length else take
    let self := { self with chunk := chunkStateUpdate self.chunk (input.take take) }
    let input := input.drop take
    if input.length > 0 then
      let chunkCv := outputChainingValue (chunkStateOutput self.chunk)
      let self ← hasherPushCv self chunkCv self.chunk.chunkCounter
      hasherUpdateSubtrees simd
        { self with chunk := chunkStateReset self.chunk self.key (self.chunk.chunkCounter + 1) }
        input
    else pure self
  else hasherUpdateSubtrees simd self input

def rollUpStack (key : Words) (flags : UInt8) : Output → List Bytes → Output
  | output, [] => output
  | output, left :: rest =>
    rollUpStack key flags (parentOutput (left ++ outputChainingValue output) key flags) rest

def hasherFinalizeSeek (self : Hasher) (seek : UInt64) (outLen : Nat) : Except String Bytes := do
  if outLen = 0 then pure []
  else if self.cvStack.length = 0 then
    pure (outputRootBytes (chunkStateOutput self.chunk) seek outLen)
  else if chunkStateLen self.chunk > 0 then
    pure (outputRootBytes (rollUpStack self.key self.chunk.flags (chunkStateOutput self.chunk)
      self.cvStack) seek outLen)
  else
    match self.cvStack with
    | right :: left :: rest =>
      pure (outputRootBytes (rollUpStack self.key self.chunk.flags
        (parentOutput (left ++ right) self.key self.chunk.flags) rest) seek outLen)
    | _ => throw "cv_stack underflow"

def hasherFinalize (self : Hasher) (outLen : Nat) : Except String Bytes :=
  hasherFinalizeSeek self 0 outLen

def hasherReset (self : Hasher) : Hasher :=
  { self with chunk := chunkStateReset self.chunk self.key 0, cvStack := [] }

def hasherInitDeriveKeyRaw (simd : SimdDegree) (context : Bytes) : Except String Hasher := do
  let contextHasher := hasherInitBase iv deriveKeyContext
  let contextHasher ← hasherUpdateBase simd contextHasher context
  let contextKey ← hasherFinalize contextHasher 32
  pure (hasherInitBase (loadWords 8 contextKey) deriveKeyMaterial)

end Hasher

end EmpTool.Crypto.Blake3
