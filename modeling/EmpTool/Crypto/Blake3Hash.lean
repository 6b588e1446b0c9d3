import EmpTool.Crypto.Blake3Stream
import EmpTool.Crypto.Digests

namespace EmpTool.Crypto.Blake3

open Memory

-- `HashT<HashOption::blake3>`
structure HashBlake3 where
  st : Hasher
  buf : Nat → UInt8
  bufLen : Nat

namespace HashBlake3

variable (simd : SimdDegree)

def construct (raw : Nat → UInt8) : HashBlake3 := ⟨hasherInit, raw, 0⟩

def update (bytes : Bytes) (h : HashBlake3) : Except String HashBlake3 := do
  let st ← hasherUpdateBase simd h.st bytes
  pure { h with st := st }

def flushBuf (h : HashBlake3) : Except String HashBlake3 := do
  if h.bufLen ≠ 0 then
    let h ← h.update simd (slice h.buf 0 h.bufLen)
    pure { h with bufLen := 0 }
  else pure h

def put (data : Nat → UInt8) (nbyte : Int) (h : HashBlake3) : Except String HashBlake3 := do
  expecting (0 ≤ nbyte) "Hash::put: negative byte count"
  let nbyte := nbyte.toNat
  if nbyte = 0 then pure h
  else
    let h ← if nbyte > bufBytes - h.bufLen then h.flushBuf simd else pure h
    if nbyte ≥ bufBytes then h.update simd (slice data 0 nbyte)
    else
      pure { h with
        buf := storeRange nbyte h.bufLen data h.buf
        bufLen := h.bufLen + nbyte }

def putBlock (blk : Nat → Block) (nblock : Int) (h : HashBlake3) : Except String HashBlake3 := do
  expecting (0 ≤ nblock) "Hash::put_block: negative block count"
  expecting (nblock ≤ (2 ^ 63 - 1) / 16) "Hash::put_block: byte count overflow"
  put simd (fun i => Bits.blockBytes (blk (i / 16)) (i % 16)) (16 * nblock) h

def digest (resetAfter : Bool) (h : HashBlake3) : Except String (HashBlake3 × Bytes) := do
  let h ← h.flushBuf simd
  let out ← hasherFinalize h.st digestSize
  pure (if resetAfter then { h with st := hasherReset h.st } else h, out)

def reset (h : HashBlake3) : HashBlake3 := { h with st := hasherReset h.st, bufLen := 0 }

def hashOnce (data : Nat → UInt8) (nbyte : Int) : Except String Bytes := do
  expecting (0 ≤ nbyte) "Hash::hash_once: negative byte count"
  let st ← hasherUpdateBase simd hasherInit (slice data 0 nbyte.toNat)
  hasherFinalize st digestSize

def run : HashT.Op → HashBlake3 → Except String (HashBlake3 × List Bytes)
  | .put data nbyte, h => do
    let h ← h.put simd data nbyte
    pure (h, [])
  | .putBlock blk nblock, h => do
    let h ← h.putBlock simd blk nblock
    pure (h, [])
  | .digest resetAfter, h => do
    let (h, out) ← h.digest simd resetAfter
    pure (h, [out])
  | .reset, h => pure (h.reset, [])

def runOps : List HashT.Op → HashBlake3 → Except String (HashBlake3 × List Bytes)
  | [], h => pure (h, [])
  | op :: ops, h => do
    let (h, out) ← run simd op h
    let (h, outs) ← runOps ops h
    pure (h, out ++ outs)

end HashBlake3

def Holds (bytes : Bytes) (st : Hasher) : Prop :=
  ∀ rest, Absorbed iv 0 (bytes ++ rest) bytes.length st

def blake3Hash : HashFunction := fun _ bytes => rootStream (hashTree iv 0 bytes)

section Holds

variable {bytes : Bytes} {st : Hasher}

theorem holds_init : Holds [] hasherInit := fun _ => absorbed_init

theorem Holds.reset_holds (h : Holds bytes st) : Holds [] (hasherReset st) := by
  rw [absorbed_reset (h [])]
  exact holds_init

theorem Holds.update (h : Holds bytes st) (simd : SimdDegree) {input : Bytes}
    (hlen : (bytes ++ input).length < 2 ^ 64) :
    ∃ st', hasherUpdateBase simd st input = .ok st' ∧ Holds (bytes ++ input) st' := by
  have step (rest : Bytes) : ∃ st', hasherUpdateBase simd st input = .ok st' ∧
      Absorbed iv 0 (bytes ++ input ++ rest) (bytes ++ input).length st' := by
    have habs := h (input ++ rest)
    rw [← List.append_assoc] at habs
    have hin : input <+: (bytes ++ input ++ rest).drop bytes.length := by
      rw [List.append_assoc, List.drop_left]
      exact List.prefix_append input rest
    rw [List.length_append] at hlen ⊢
    exact hasherUpdateBase_absorbs habs hin (by simp only [List.length_append]; omega) hlen
  obtain ⟨st', hrun, -⟩ := step []
  refine ⟨st', hrun, fun rest => ?_⟩
  obtain ⟨st'', hrun', habs⟩ := step rest
  rwa [Except.ok.inj (hrun.symm.trans hrun')]

theorem Holds.finalize (h : Holds bytes st) (n : Nat) :
    hasherFinalize st n = .ok (slice (blake3Hash .blake3 bytes) 0 n) := by
  have habs := h []
  rw [List.append_nil] at habs
  exact habs.finalize 0 n

end Holds

namespace HashBlake3

structure Refines (a : HashT) (c : HashBlake3) : Prop where
  st : Holds a.absorbed c.st
  buf : c.buf = a.buf
  bufLen : c.bufLen = a.bufLen

variable {a : HashT} {c : HashBlake3}

theorem refines_construct (raw : Nat → UInt8) : Refines (HashT.construct raw) (construct raw) :=
  ⟨holds_init, rfl, rfl⟩

theorem Refines.update (h : Refines a c) (simd : SimdDegree) {bytes : Bytes}
    (hlen : (a.absorbed ++ bytes).length < 2 ^ 64) :
    ∃ c', c.update simd bytes = .ok c' ∧ Refines (a.update bytes) c' := by
  obtain ⟨st, hrun, hst⟩ := h.st.update simd hlen
  refine ⟨{ c with st := st }, ?_, hst, h.buf, h.bufLen⟩
  rw [HashBlake3.update, hrun]
  rfl

theorem Refines.flushBuf (h : Refines a c) (simd : SimdDegree)
    (hlen : a.transcript.length < 2 ^ 64) :
    ∃ c', c.flushBuf simd = .ok c' ∧ Refines a.flushBuf c' := by
  rw [HashBlake3.flushBuf, HashT.flushBuf, h.bufLen, h.buf]
  split
  case isTrue hpending =>
    obtain ⟨c', hrun, hc⟩ := h.update simd hlen
    refine ⟨{ c' with bufLen := 0 }, ?_, hc.st, hc.buf, rfl⟩
    rw [hrun]
    rfl
  case isFalse => exact ⟨c, rfl, h⟩

theorem Refines.store (h : Refines a c) (data : Nat → UInt8) (nbyte : Nat) :
    Refines (a.store data nbyte) { c with
      buf := storeRange nbyte c.bufLen data c.buf
      bufLen := c.bufLen + nbyte } := by
  refine ⟨h.st, ?_, ?_⟩
  · rw [h.buf, h.bufLen]
    rfl
  · rw [h.bufLen]
    rfl

theorem absorbed_le_transcript (a : HashT) : a.absorbed.length ≤ a.transcript.length := by
  rw [HashT.transcript, List.length_append]
  omega

theorem Refines.put (h : Refines a c) (simd : SimdDegree) {data : Nat → UInt8} {nbyte : Int}
    (hn : 0 ≤ nbyte)
    (hlen : (a.transcript ++ slice data 0 nbyte.toNat).length < 2 ^ 64) :
    ∃ a' c', a.put data nbyte = .ok a' ∧ c.put simd data nbyte = .ok c' ∧ Refines a' c' := by
  have hcheck : expecting (0 ≤ nbyte) "Hash::put: negative byte count" = .ok () := if_pos hn
  rw [List.length_append] at hlen
  rw [HashT.put, HashBlake3.put, hcheck]
  by_cases hz : nbyte.toNat = 0
  · exact ⟨a, c, by simp [hz], by simp [hz], h⟩
  · have rest {a₁ : HashT} {c₁ : HashBlake3} (href : Refines a₁ c₁)
        (hle : a₁.absorbed.length ≤ a.transcript.length) :
        ∃ c', (if nbyte.toNat ≥ bufBytes then c₁.update simd (slice data 0 nbyte.toNat)
            else pure { c₁ with
              buf := storeRange nbyte.toNat c₁.bufLen data c₁.buf
              bufLen := c₁.bufLen + nbyte.toNat }) = .ok c' ∧
          Refines (if nbyte.toNat ≥ bufBytes then a₁.update (slice data 0 nbyte.toNat)
            else a₁.store data nbyte.toNat) c' := by
      split
      case isTrue => exact href.update simd (by rw [List.length_append]; omega)
      case isFalse => exact ⟨_, rfl, href.store data nbyte.toNat⟩
    -- the pending bytes go first when the new ones do not fit beside them
    by_cases hover : nbyte.toNat > bufBytes - a.bufLen
    · obtain ⟨c₁, hrun, href⟩ := h.flushBuf simd (by omega)
      obtain ⟨c', hc, href'⟩ := rest href (Nat.le_of_eq (congrArg _ a.flushBuf_absorbed))
      refine ⟨_, c', ?_, ?_, href'⟩
      · simp only [bind, Except.bind, if_neg hz, if_pos hover]
        rfl
      · simp only [bind, Except.bind, if_neg hz, h.bufLen, if_pos hover, hrun]
        exact hc
    · obtain ⟨c', hc, href'⟩ := rest h (absorbed_le_transcript a)
      refine ⟨_, c', ?_, ?_, href'⟩
      · simp only [bind, Except.bind, if_neg hz, if_neg hover]
        rfl
      · rw [← h.bufLen] at hover
        simp only [bind, Except.bind, if_neg hz, if_neg hover, pure, Except.pure]
        exact hc

theorem Refines.putBlock (h : Refines a c) (simd : SimdDegree) {blk : Nat → Block} {nblock : Int}
    (hop : (HashT.Op.putBlock blk nblock).Admissible)
    (hlen : ((HashT.Op.putBlock blk nblock).since a.transcript).length < 2 ^ 64) :
    ∃ a' c', a.putBlock blk nblock = .ok a' ∧ c.putBlock simd blk nblock = .ok c' ∧
      Refines a' c' := by
  have hbytes : 0 ≤ 16 * nblock := by
    have hcount := hop.1
    omega
  obtain ⟨a', c', ha, hc, href⟩ := h.put simd hbytes hlen
  refine ⟨a', c', ?_, ?_, href⟩
  · rw [HashT.putBlock]
    simp only [bind_eq_ok, expecting_eq_ok]
    exact ⟨(), hop.1, (), hop.2, ha⟩
  · rw [HashBlake3.putBlock]
    simp only [bind_eq_ok, expecting_eq_ok]
    exact ⟨(), hop.1, (), hop.2, hc⟩

theorem Refines.digest (h : Refines a c) (simd : SimdDegree)
    (hlen : a.transcript.length < 2 ^ 64) (resetAfter : Bool) :
    ∃ c', c.digest simd resetAfter =
        .ok (c', slice (a.digest blake3Hash .blake3 resetAfter).2 0 digestSize) ∧
      Refines (a.digest blake3Hash .blake3 resetAfter).1 c' := by
  obtain ⟨c₁, hrun, href⟩ := h.flushBuf simd hlen
  rw [HashBlake3.digest, hrun]
  simp only [bind, Except.bind, href.st.finalize]
  cases resetAfter with
  | false => exact ⟨c₁, rfl, href⟩
  | true => exact ⟨_, rfl, href.st.reset_holds, href.buf, href.bufLen⟩

theorem Refines.reset (h : Refines a c) : Refines a.reset c.reset :=
  ⟨h.st.reset_holds, h.buf, rfl⟩

theorem Refines.run (h : Refines a c) (simd : SimdDegree) {op : HashT.Op} (hop : op.Admissible)
    (htranscript : a.transcript.length < 2 ^ 64)
    (hlen : (op.since a.transcript).length < 2 ^ 64) :
    ∃ a' c' outs, op.run blake3Hash .blake3 a = .ok (a', outs) ∧
      HashBlake3.run simd op c = .ok (c', outs.map fun out => slice out 0 digestSize) ∧
      Refines a' c' := by
  cases op with
  | put data nbyte =>
    obtain ⟨a', c', ha, hc, href⟩ := h.put simd hop hlen
    refine ⟨a', c', [], ?_, ?_, href⟩
    · rw [HashT.Op.run, ha]
      rfl
    · rw [HashBlake3.run, hc]
      rfl
  | putBlock blk nblock =>
    obtain ⟨a', c', ha, hc, href⟩ := h.putBlock simd hop hlen
    refine ⟨a', c', [], ?_, ?_, href⟩
    · rw [HashT.Op.run, ha]
      rfl
    · rw [HashBlake3.run, hc]
      rfl
  | digest resetAfter =>
    obtain ⟨c', hc, href⟩ := h.digest simd htranscript resetAfter
    refine ⟨_, c', _, rfl, ?_, href⟩
    rw [HashBlake3.run, hc]
    rfl
  | reset => exact ⟨_, _, [], rfl, rfl, h.reset⟩

end HashBlake3

-- no more than 2^64 - 1 bytes between two resets
def Fits (bytes : Bytes) : List HashT.Op → Prop
  | [] => True
  | op :: ops => (op.since bytes).length < 2 ^ 64 ∧ Fits (op.since bytes) ops

def onceDigests (simd : SimdDegree) (bytes : Bytes) :
    List HashT.Op → List (Except String Bytes)
  | [] => []
  | .digest resetAfter :: ops =>
    HashBlake3.hashOnce simd (fun i => bytes.getD i 0) bytes.length ::
      onceDigests simd ((HashT.Op.digest resetAfter).since bytes) ops
  | op :: ops => onceDigests simd (op.since bytes) ops

theorem hashOnce_eq (simd : SimdDegree) {bytes : Bytes} (hlen : bytes.length < 2 ^ 64) :
    HashBlake3.hashOnce simd (fun i => bytes.getD i 0) bytes.length =
      .ok (slice (blake3Hash .blake3 bytes) 0 digestSize) := by
  obtain ⟨st, hrun, hst⟩ := holds_init.update simd hlen
  have hcheck : expecting (0 ≤ (bytes.length : Int)) "Hash::hash_once: negative byte count" =
      .ok () := if_pos (Int.natCast_nonneg _)
  rw [HashBlake3.hashOnce, hcheck, Int.toNat_natCast, slice_getD]
  simp only [bind, Except.bind, hrun]
  exact hst.finalize digestSize

theorem hashT_onceDigests (simd : SimdDegree) {bytes : Bytes} {ops : List HashT.Op}
    (hbytes : bytes.length < 2 ^ 64) (hfits : Fits bytes ops) :
    (HashT.onceDigests blake3Hash .blake3 bytes ops).map
        (fun out => out.map fun d => slice d 0 digestSize) = onceDigests simd bytes ops := by
  induction ops generalizing bytes with
  | nil => rfl
  | cons op ops ih =>
    have hrest := ih hfits.1 hfits.2
    cases op with
    | digest resetAfter =>
      rw [HashT.onceDigests, onceDigests, hashOnce_eq simd hbytes, HashT.hashOnceOf_eq,
        List.map_cons, hrest]
      rfl
    | put data nbyte => exact hrest
    | putBlock blk nblock => exact hrest
    | reset => exact hrest

theorem runOps_refines {simd : SimdDegree} {ops : List HashT.Op} (hops : ∀ op ∈ ops, op.Admissible)
    {bytes : Bytes} (hbytes : bytes.length < 2 ^ 64) (hfits : Fits bytes ops) {a : HashT}
    {c : HashBlake3} (habs : HashT.Absorbing bytes a) (h : HashBlake3.Refines a c) :
    ∃ a' c' outs, HashT.runOps blake3Hash .blake3 ops a = .ok (a', outs) ∧
      HashBlake3.runOps simd ops c = .ok (c', outs.map fun out => slice out 0 digestSize) ∧
      HashBlake3.Refines a' c' := by
  induction ops generalizing bytes a c with
  | nil => exact ⟨a, c, [], rfl, rfl, h⟩
  | cons op ops ih =>
    have hop := hops op List.mem_cons_self
    rw [← habs.transcript] at hfits hbytes
    obtain ⟨a₁, c₁, out, ha, hc, h₁⟩ := h.run simd hop hbytes hfits.1
    obtain ⟨a₂, out₂, ha₂, habs₁, -⟩ := @HashT.Absorbing.op blake3Hash .blake3 _ _ habs op hop
    obtain ⟨rfl, -⟩ := Prod.mk.inj (Except.ok.inj (ha.symm.trans ha₂))
    rw [habs.transcript] at hfits
    obtain ⟨a', c', outs, hra, hrc, h'⟩ :=
      ih (fun o ho => hops o (List.mem_cons_of_mem _ ho)) hfits.1 hfits.2 habs₁ h₁
    refine ⟨a', c', out ++ outs, ?_, ?_, h'⟩
    · simp only [HashT.runOps, bind_eq_ok, pure_eq_ok]
      exact ⟨_, ha, _, hra, rfl⟩
    · simp only [HashBlake3.runOps, bind_eq_ok, pure_eq_ok]
      exact ⟨_, hc, _, hrc, by rw [List.map_append]⟩

theorem blake3_hash_refines (simd simd' : SimdDegree) (raw : Nat → UInt8) (ops : List HashT.Op)
    (hops : ∀ op ∈ ops, op.Admissible) (hfits : Fits [] ops) :
    ∃ a c outs, HashT.runOps blake3Hash .blake3 ops (HashT.construct raw) = .ok (a, outs) ∧
      HashBlake3.runOps simd ops (HashBlake3.construct raw) =
        .ok (c, outs.map fun out => slice out 0 digestSize) ∧
      (outs.map fun out => .ok (slice out 0 digestSize)) = onceDigests simd' [] ops := by
  have hzero : ([] : Bytes).length < 2 ^ 64 := Nat.two_pow_pos 64
  obtain ⟨a, c, outs, ha, hc, -⟩ := @runOps_refines simd ops hops [] hzero hfits _ _
    (HashT.absorbing_construct raw) (HashBlake3.refines_construct raw)
  obtain ⟨a', outs', ha', -, honce⟩ :=
    @HashT.Absorbing.ops blake3Hash .blake3 _ _ (HashT.absorbing_construct raw) ops hops
  obtain ⟨-, rfl⟩ := Prod.mk.inj (Except.ok.inj (ha.symm.trans ha'))
  refine ⟨a, c, outs, ha, hc, ?_⟩
  rw [← hashT_onceDigests simd' hzero hfits, ← honce, List.map_map]
  rfl

theorem blake3_hash_refines_mixedOps :
    ∃ a c outs, HashT.runOps blake3Hash .blake3 HashT.mixedOps (HashT.construct fun _ => 0) =
        .ok (a, outs) ∧
      HashBlake3.runOps fourLanes HashT.mixedOps (HashBlake3.construct fun _ => 0) =
        .ok (c, outs.map fun out => slice out 0 digestSize) ∧
      (outs.map fun out => .ok (slice out 0 digestSize)) =
        onceDigests ⟨0, Nat.zero_le 4⟩ [] HashT.mixedOps := by
  refine blake3_hash_refines fourLanes ⟨0, Nat.zero_le 4⟩ (fun _ => 0) HashT.mixedOps
    (fun op hop => ?_) ?_
  · simp only [HashT.mixedOps, List.mem_cons, List.not_mem_nil, or_false] at hop
    rcases hop with rfl | rfl | rfl | rfl | rfl | rfl | rfl | rfl <;> simp [HashT.Op.Admissible]
  · simp [HashT.mixedOps, Fits, HashT.Op.since]

end EmpTool.Crypto.Blake3
