import EmpTool.Crypto.Blake3

namespace EmpTool.Crypto.Blake3

def padBlock (bytes : Bytes) : Bytes := bytes ++ List.replicate (blockBytes - bytes.length) 0

-- the last block of a chunk is left for its output
def chunkNode (flags : UInt8) (counter : UInt64) (start : UInt8) (cv : Words) (bytes : Bytes) :
    Output :=
  if h : bytes.length > blockBytes then
    have := length_drop_lt blockBytes_pos (Nat.le_of_lt h)
    chunkNode flags counter 0
      (compressInPlace cv (bytes.take blockBytes) blockBytes counter (flags ||| start))
      (bytes.drop blockBytes)
  else ⟨cv, counter, padBlock bytes, bytes.length, flags ||| start ||| chunkEnd⟩
termination_by bytes.length
decreasing_by assumption

theorem chunkNode_long {flags : UInt8} {counter : UInt64} {start : UInt8} {cv : Words}
    {bytes : Bytes} (h : blockBytes < bytes.length) :
    chunkNode flags counter start cv bytes =
      chunkNode flags counter 0
        (compressInPlace cv (bytes.take blockBytes) blockBytes counter (flags ||| start))
        (bytes.drop blockBytes) := by
  rw [chunkNode, dif_pos h]

theorem chunkNode_short {flags : UInt8} {counter : UInt64} {start : UInt8} {cv : Words}
    {bytes : Bytes} (h : bytes.length ≤ blockBytes) :
    chunkNode flags counter start cv bytes =
      ⟨cv, counter, padBlock bytes, bytes.length, flags ||| start ||| chunkEnd⟩ := by
  rw [chunkNode, dif_neg (by omega)]

def withBuffer (self : ChunkState) (bytes : Bytes) : ChunkState :=
  { self with buf := padBlock bytes, bufLen := bytes.length }

def absorb (self : ChunkState) (bytes : Bytes) : ChunkState :=
  if h : bytes.length > blockBytes then
    have := length_drop_lt blockBytes_pos (Nat.le_of_lt h)
    absorb (chunkStateCompress self (bytes.take blockBytes)) (bytes.drop blockBytes)
  else withBuffer self bytes
termination_by bytes.length
decreasing_by assumption

section Absorb

variable {self : ChunkState} {bytes : Bytes}

theorem absorb_long (h : blockBytes < bytes.length) :
    absorb self bytes =
      absorb (chunkStateCompress self (bytes.take blockBytes)) (bytes.drop blockBytes) := by
  rw [absorb, dif_pos h]

theorem absorb_short (h : bytes.length ≤ blockBytes) :
    absorb self bytes = withBuffer self bytes := by
  rw [absorb, dif_neg (by omega)]

theorem chunkStateBlocks_long (h : blockBytes < bytes.length) :
    chunkStateBlocks self bytes =
      chunkStateBlocks (chunkStateCompress self (bytes.take blockBytes))
        (bytes.drop blockBytes) := by
  rw [chunkStateBlocks, dif_pos h]

theorem chunkStateBlocks_short (h : bytes.length ≤ blockBytes) :
    chunkStateBlocks self bytes = (self, bytes) := by
  rw [chunkStateBlocks, dif_neg (by omega)]

theorem padBlock_nil : padBlock [] = List.replicate blockBytes 0 := by
  rw [padBlock, List.nil_append, List.length_nil, Nat.sub_zero]

theorem fillBuf_eq {t : Nat} (ht : t = min (blockBytes - self.bufLen) bytes.length) :
    chunkStateFillBuf self bytes =
      ({ self with
          buf := self.buf.take self.bufLen ++ bytes.take t ++ self.buf.drop (self.bufLen + t)
          bufLen := self.bufLen + t }, t) := by
  have htake : (if blockBytes - self.bufLen > bytes.length then bytes.length
      else blockBytes - self.bufLen) = t := by
    split
    case isTrue => omega
    case isFalse => omega
  simp only [chunkStateFillBuf, htake]

theorem fillBuf_withBuffer {pending : Bytes} (h : pending.length + bytes.length ≤ blockBytes) :
    chunkStateFillBuf (withBuffer self pending) bytes =
      (withBuffer self (pending ++ bytes), bytes.length) := by
  have hrest : blockBytes - pending.length - bytes.length =
      blockBytes - (pending.length + bytes.length) := by omega
  rw [@fillBuf_eq _ _ bytes.length (by simp only [withBuffer]; omega)]
  simp [withBuffer, padBlock, List.drop_append, hrest]

theorem fillBuf_overfull {pending : Bytes} (hp : pending.length ≤ blockBytes)
    (h : blockBytes ≤ pending.length + bytes.length) :
    chunkStateFillBuf (withBuffer self pending) bytes =
      ({ self with buf := (pending ++ bytes).take blockBytes, bufLen := blockBytes },
        blockBytes - pending.length) := by
  have hlen : pending.length + (blockBytes - pending.length) = blockBytes := by omega
  rw [@fillBuf_eq _ _ (blockBytes - pending.length) (by simp only [withBuffer]; omega)]
  simp [withBuffer, padBlock, List.take_append, List.take_of_length_le hp, hlen]

theorem blocks_fill (self : ChunkState) (bytes : Bytes) :
    (chunkStateFillBuf (chunkStateBlocks (withBuffer self []) bytes).1
      (chunkStateBlocks (withBuffer self []) bytes).2).1 = absorb self bytes := by
  induction self, bytes using absorb.induct with
  | case1 self bytes h _ ih =>
    rw [absorb_long h, chunkStateBlocks_long h]
    exact ih
  | case2 self bytes h =>
    have hshort : bytes.length ≤ blockBytes := by omega
    rw [absorb_short hshort, chunkStateBlocks_short hshort]
    rw [fillBuf_withBuffer (by simpa using hshort), List.nil_append]

theorem update_withBuffer_nil (self : ChunkState) (bytes : Bytes) :
    chunkStateUpdate (withBuffer self []) bytes = absorb self bytes := by
  rw [← blocks_fill]
  rfl

theorem chunkStateUpdate_absorb (self : ChunkState) (bytes more : Bytes) :
    chunkStateUpdate (absorb self bytes) more = absorb self (bytes ++ more) := by
  induction self, bytes using absorb.induct with
  | case1 self bytes h _ ih =>
    have hlong : blockBytes < (bytes ++ more).length := by
      rw [List.length_append]
      omega
    rw [absorb_long h, absorb_long hlong, ih, List.take_append_of_le_length (by omega),
      List.drop_append_of_le_length (by omega)]
  | case2 self bytes h =>
    have hshort : bytes.length ≤ blockBytes := by omega
    rw [absorb_short hshort]
    match bytes with
    | [] => exact update_withBuffer_nil self more
    | b :: bs =>
      have hpending : (withBuffer self (b :: bs)).bufLen > 0 := Nat.succ_pos _
      by_cases hfit : (b :: bs).length + more.length ≤ blockBytes
      · have hjoined : (b :: bs ++ more).length ≤ blockBytes := by rwa [List.length_append]
        rw [absorb_short hjoined, chunkStateUpdate, if_pos hpending, fillBuf_withBuffer hfit]
        simp only [List.drop_length, List.length_nil, Nat.lt_irrefl, gt_iff_lt, if_false]
        rw [chunkStateBlocks_short (Nat.zero_le _),
          fillBuf_withBuffer (by simpa using hjoined), List.append_nil]
      · have hmore : 0 < (more.drop (blockBytes - (b :: bs).length)).length := by
          rw [List.length_drop]
          omega
        have hrest : (b :: bs ++ more).drop blockBytes =
            more.drop (blockBytes - (b :: bs).length) := by
          rw [List.drop_append, List.drop_eq_nil_of_le hshort, List.nil_append]
        rw [absorb_long (by rw [List.length_append]; omega), hrest, chunkStateUpdate,
          if_pos hpending, fillBuf_overfull hshort (by omega), ← blocks_fill]
        simp only [gt_iff_lt, if_pos hmore]
        rw [withBuffer, padBlock_nil]
        rfl

theorem absorb_frame (self : ChunkState) (bytes : Bytes) :
    (absorb self bytes).chunkCounter = self.chunkCounter ∧
      (absorb self bytes).flags = self.flags := by
  induction self, bytes using absorb.induct with
  | case1 self bytes h _ ih =>
    rw [absorb_long h]
    exact ih
  | case2 self bytes h =>
    rw [absorb_short (Nat.le_of_not_lt h)]
    exact ⟨rfl, rfl⟩

-- sixteen blocks make a chunk, so the one-byte count of a chunk never wraps
theorem chunkStateLen_absorb (self : ChunkState) (bytes : Bytes)
    (h : blockBytes * self.blocksCompressed + bytes.length ≤ chunkBytes) :
    chunkStateLen (absorb self bytes) = blockBytes * self.blocksCompressed + bytes.length := by
  induction self, bytes using absorb.induct with
  | case1 self bytes hlong _ ih =>
    have hcount : (self.blocksCompressed + 1) % 2 ^ 8 = self.blocksCompressed + 1 := by
      rw [blockBytes, chunkBytes] at h
      exact Nat.mod_eq_of_lt (by omega)
    simp only [chunkStateCompress, hcount, List.length_drop] at ih
    rw [absorb_long hlong, chunkStateCompress, hcount, ih (by rw [Nat.mul_succ]; omega),
      Nat.mul_succ]
    omega
  | case2 self bytes hshort =>
    rw [absorb_short (Nat.le_of_not_lt hshort)]
    rfl

theorem chunkStateOutput_absorb (self : ChunkState) (bytes : Bytes)
    (h : blockBytes * self.blocksCompressed + bytes.length ≤ chunkBytes) :
    chunkStateOutput (absorb self bytes) =
      chunkNode self.flags self.chunkCounter (chunkStateMaybeStartFlag self) self.cv bytes := by
  induction self, bytes using absorb.induct with
  | case1 self bytes hlong _ ih =>
    have hcount : (self.blocksCompressed + 1) % 2 ^ 8 = self.blocksCompressed + 1 := by
      rw [blockBytes, chunkBytes] at h
      exact Nat.mod_eq_of_lt (by omega)
    have hstart : chunkStateMaybeStartFlag (chunkStateCompress self (bytes.take blockBytes)) = 0 :=
      if_neg (by rw [chunkStateCompress, hcount]; exact Nat.succ_ne_zero _)
    have hfit : blockBytes * (chunkStateCompress self (bytes.take blockBytes)).blocksCompressed +
        (bytes.drop blockBytes).length ≤ chunkBytes := by
      rw [chunkStateCompress, hcount, List.length_drop, Nat.mul_succ]
      omega
    rw [absorb_long hlong, chunkNode_long hlong, ih hfit, hstart]
    rfl
  | case2 self bytes hshort =>
    have hle := Nat.le_of_not_lt hshort
    rw [absorb_short hle, chunkNode_short hle]
    rfl

end Absorb

section Leaf

variable (key : Words) (flags : UInt8)

def leafNode (counter : Nat) (bytes : Bytes) : Output :=
  chunkNode flags (UInt64.ofNat counter) chunkStart key bytes

def chunkAt (counter : UInt64) : ChunkState :=
  { chunkStateInit key flags with chunkCounter := counter }

variable {key flags}

theorem chunkAt_withBuffer (counter : UInt64) :
    chunkAt key flags counter = withBuffer (chunkAt key flags counter) [] := by
  rw [withBuffer, padBlock_nil]
  rfl

theorem update_chunkAt (counter : UInt64) (bytes : Bytes) :
    chunkStateUpdate (chunkAt key flags counter) bytes =
      absorb (chunkAt key flags counter) bytes := by
  rw [← update_withBuffer_nil, ← chunkAt_withBuffer]

theorem output_chunkAt (counter : Nat) {bytes : Bytes} (h : bytes.length ≤ chunkBytes) :
    chunkStateOutput (absorb (chunkAt key flags (UInt64.ofNat counter)) bytes) =
      leafNode key flags counter bytes :=
  chunkStateOutput_absorb _ bytes (by simpa [chunkAt, chunkStateInit] using h)

theorem leaf_chunkAt (counter : Nat) {bytes : Bytes} (h : bytes.length ≤ chunkBytes) :
    chunkStateOutput (chunkStateUpdate (chunkAt key flags (UInt64.ofNat counter)) bytes) =
      leafNode key flags counter bytes := by
  rw [update_chunkAt, output_chunkAt counter h]

theorem len_chunkAt (counter : UInt64) {bytes : Bytes} (h : bytes.length ≤ chunkBytes) :
    chunkStateLen (absorb (chunkAt key flags counter) bytes) = bytes.length := by
  rw [chunkStateLen_absorb]
  · simp [chunkAt, chunkStateInit]
  · simpa [chunkAt, chunkStateInit] using h

theorem reset_absorb (counter counter' : UInt64) (bytes : Bytes) :
    chunkStateReset (absorb (chunkAt key flags counter) bytes) key counter' =
      chunkAt key flags counter' := by
  rw [chunkStateReset, (absorb_frame _ _).2]
  rfl

end Leaf

section HashMany

variable {key : Words} {flags : UInt8}

theorem storeCvWords_length (cv : Words) : (storeCvWords cv).length = 32 := by
  simp [storeCvWords, store32]

theorem outputChainingValue_length (o : Output) : (outputChainingValue o).length = 32 :=
  storeCvWords_length _

theorem hashOneLoop_chunk (counter : UInt64) (start : UInt8) (blocks : Nat) (cv : Words)
    {input : Bytes} (h : blockBytes * (blocks + 1) ≤ input.length) :
    storeCvWords (hashOneLoop counter flags chunkEnd (blocks + 1) input cv (flags ||| start)) =
      outputChainingValue (chunkNode flags counter start cv
        (input.take (blockBytes * (blocks + 1)))) := by
  induction blocks generalizing cv start input with
  | zero =>
    have hlen : (input.take blockBytes).length = blockBytes := List.length_take_of_le (by omega)
    rw [Nat.zero_add, Nat.mul_one, chunkNode_short (Nat.le_of_eq hlen), hashOneLoop, if_pos rfl,
      hashOneLoop, outputChainingValue, padBlock, hlen, Nat.sub_self, List.replicate_zero,
      List.append_nil]
  | succ blocks ih =>
    have hlen : (input.take (blockBytes * (blocks + 1 + 1))).length =
        blockBytes * (blocks + 1 + 1) := List.length_take_of_le h
    have hlong : blockBytes < (input.take (blockBytes * (blocks + 1 + 1))).length := by
      have hpos := blockBytes_pos
      rw [hlen, Nat.mul_succ, Nat.mul_succ]
      omega
    have hrest : blockBytes * (blocks + 1) ≤ (input.drop blockBytes).length := by
      rw [List.length_drop]
      rw [Nat.mul_succ] at h
      omega
    have hfirst : min blockBytes (blockBytes * (blocks + 1 + 1)) = blockBytes := by
      rw [Nat.mul_succ]
      omega
    have htail : blockBytes * (blocks + 1 + 1) - blockBytes = blockBytes * (blocks + 1) := by
      rw [Nat.mul_succ, Nat.add_sub_cancel]
    rw [hashOneLoop, if_neg (by omega), chunkNode_long hlong, List.take_take, hfirst,
      List.drop_take, htail, ← ih 0 _ hrest, UInt8.or_zero]

theorem hashOne_chunk (counter : Nat) {input : Bytes} (h : chunkBytes ≤ input.length) :
    hashOne (chunkBytes / blockBytes) key (UInt64.ofNat counter) flags chunkStart chunkEnd input =
      outputChainingValue (leafNode key flags counter (input.take chunkBytes)) :=
  hashOneLoop_chunk (UInt64.ofNat counter) chunkStart 15 key h

theorem hashOne_parent {left right : Bytes} (hl : left.length = 32) (hr : right.length = 32) :
    hashOne 1 key 0 (flags ||| parentFlag) 0 0 (left ++ right) =
      outputChainingValue (parentOutput (left ++ right) key flags) := by
  have hlen : (left ++ right).length = blockBytes := by
    rw [List.length_append, hl, hr, blockBytes]
  rw [hashOne, hashOneLoop, if_pos rfl, hashOneLoop, UInt8.or_zero, UInt8.or_zero,
    List.take_of_length_le (Nat.le_of_eq hlen)]
  rfl

end HashMany

end EmpTool.Crypto.Blake3
