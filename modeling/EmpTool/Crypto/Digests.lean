import EmpTool.Crypto.Hash
import EmpTool.Runtime.Bits

namespace EmpTool.Crypto.HashT

open Bits Memory

def putBlock (blk : Nat → Block) (nblock : Int) (h : HashT) : Except String HashT := do
  expecting (0 ≤ nblock) "Hash::put_block: negative block count"
  expecting (nblock ≤ (2 ^ 63 - 1) / 16) "Hash::put_block: byte count overflow"
  put (fun i => blockBytes (blk (i / 16)) (i % 16)) (16 * nblock) h

def reset (h : HashT) : HashT := { h with absorbed := [], bufLen := 0 }

-- the constructor leaves `buf_` as it finds it
def construct (raw : Nat → UInt8) : HashT := { buf := raw }

inductive Op where
  | put (data : Nat → UInt8) (nbyte : Int)
  | putBlock (blk : Nat → Block) (nblock : Int)
  | digest (resetAfter : Bool)
  | reset

section Program

variable (hash : HashFunction) (opt : HashOption)

def Op.run (op : Op) (h : HashT) : Except String (HashT × List (Nat → UInt8)) :=
  match op with
  | .put data nbyte => do
    let h ← h.put data nbyte
    pure (h, [])
  | .putBlock blk nblock => do
    let h ← h.putBlock blk nblock
    pure (h, [])
  | .digest resetAfter =>
    let (h, out) := h.digest hash opt resetAfter
    pure (h, [out])
  | .reset => pure (h.reset, [])

def runOps : List Op → HashT → Except String (HashT × List (Nat → UInt8))
  | [], h => pure (h, [])
  | op :: ops, h => do
    let (h, out) ← op.run hash opt h
    let (h, outs) ← runOps ops h
    pure (h, out ++ outs)

end Program

def Op.Admissible : Op → Prop
  | .put _ nbyte => 0 ≤ nbyte
  | .putBlock _ nblock => 0 ≤ nblock ∧ nblock ≤ (2 ^ 63 - 1) / 16
  | .digest _ => True
  | .reset => True

section Reference

def Op.since (bytes : List UInt8) : Op → List UInt8
  | .put data nbyte => bytes ++ slice data 0 nbyte.toNat
  | .putBlock blk nblock =>
    bytes ++ slice (fun i => blockBytes (blk (i / 16)) (i % 16)) 0 (16 * nblock).toNat
  | .digest true => []
  | .digest false => bytes
  | .reset => []

variable (hash : HashFunction) (opt : HashOption)

def hashOnceOf (bytes : List UInt8) : Except String (Nat → UInt8) :=
  hashOnce hash opt (fun i => bytes.getD i 0) bytes.length

def onceDigests (bytes : List UInt8) : List Op → List (Except String (Nat → UInt8))
  | [] => []
  | .digest resetAfter :: ops =>
    hashOnceOf hash opt bytes :: onceDigests ((Op.digest resetAfter).since bytes) ops
  | op :: ops => onceDigests (op.since bytes) ops

theorem hashOnceOf_eq (bytes : List UInt8) : hashOnceOf hash opt bytes = .ok (hash opt bytes) := by
  have hslice : slice (fun i => bytes.getD i 0) 0 bytes.length = bytes := slice_getD bytes 0
  unfold hashOnceOf hashOnce
  simp only [bind_eq_ok, expecting_eq_ok, pure_eq_ok, Int.toNat_natCast, hslice]
  exact ⟨(), Int.natCast_nonneg _, trivial⟩

end Reference

structure Absorbing (bytes : List UInt8) (h : HashT) : Prop where
  transcript : h.transcript = bytes
  bufLen_le : h.bufLen ≤ bufBytes

theorem absorbing_construct (raw : Nat → UInt8) : Absorbing [] (construct raw) :=
  ⟨rfl, Nat.zero_le _⟩

theorem absorbing_reset (h : HashT) : Absorbing [] h.reset := ⟨rfl, Nat.zero_le _⟩

theorem put_bufLen {data : Nat → UInt8} {nbyte : Int} {h h' : HashT} (hle : h.bufLen ≤ bufBytes)
    (hput : put data nbyte h = .ok h') : h'.bufLen ≤ bufBytes := by
  simp only [put, bind_eq_ok, expecting_eq_ok] at hput
  obtain ⟨_, _, hput⟩ := hput
  split at hput
  case isTrue =>
    rw [pure_eq_ok] at hput
    exact hput ▸ hle
  case isFalse =>
    rw [pure_eq_ok] at hput
    rw [← hput]
    have hflushed := flushBuf_bufLen h
    split
    case isTrue =>
      show HashT.bufLen (if _ then _ else _) ≤ bufBytes
      split
      · omega
      · exact hle
    case isFalse hsmall =>
      show HashT.bufLen (if _ then _ else _) + _ ≤ bufBytes
      split
      · omega
      · omega

variable {hash : HashFunction} {opt : HashOption} {bytes : List UInt8} {h : HashT}

theorem Absorbing.put (habs : Absorbing bytes h) (data : Nat → UInt8) {nbyte : Int}
    (hn : 0 ≤ nbyte) :
    ∃ h', h.put data nbyte = .ok h' ∧ Absorbing (bytes ++ slice data 0 nbyte.toNat) h' := by
  obtain ⟨h', hput⟩ := put_ok data hn h
  refine ⟨h', hput, ?_, put_bufLen habs.bufLen_le hput⟩
  rw [put_transcript hput, habs.transcript]

theorem Absorbing.putBlock (habs : Absorbing bytes h) (blk : Nat → Block) {nblock : Int}
    (hop : (Op.putBlock blk nblock).Admissible) :
    ∃ h', h.putBlock blk nblock = .ok h' ∧
      Absorbing ((Op.putBlock blk nblock).since bytes) h' := by
  have hbytes : 0 ≤ 16 * nblock := by
    have hcount := hop.1
    omega
  obtain ⟨h', hput, habs'⟩ := habs.put (fun i => blockBytes (blk (i / 16)) (i % 16)) hbytes
  refine ⟨h', ?_, habs'⟩
  unfold HashT.putBlock
  simp only [bind_eq_ok, expecting_eq_ok]
  exact ⟨(), hop.1, (), hop.2, hput⟩

theorem Absorbing.digest (habs : Absorbing bytes h) (resetAfter : Bool) :
    Absorbing ((Op.digest resetAfter).since bytes) (h.digest hash opt resetAfter).1 ∧
      (h.digest hash opt resetAfter).2 = hash opt bytes := by
  have hlen := flushBuf_bufLen h
  have hall := (flushBuf_transcript h).trans habs.transcript
  have hout : (h.digest hash opt resetAfter).2 = hash opt bytes := by
    rw [← habs.transcript, ← flushBuf_absorbed]
    rfl
  refine ⟨?_, hout⟩
  cases resetAfter with
  | true =>
    refine ⟨?_, ?_⟩
    · show [] ++ slice h.flushBuf.buf 0 h.flushBuf.bufLen = []
      rw [hlen, slice_zero, List.nil_append]
    · show h.flushBuf.bufLen ≤ bufBytes
      omega
  | false =>
    refine ⟨hall, ?_⟩
    show h.flushBuf.bufLen ≤ bufBytes
    omega

theorem Absorbing.op (habs : Absorbing bytes h) {op : Op} (hop : op.Admissible) :
    ∃ h' out, op.run hash opt h = .ok (h', out) ∧ Absorbing (op.since bytes) h' ∧
      ∀ ops, onceDigests hash opt bytes (op :: ops) =
        out.map .ok ++ onceDigests hash opt (op.since bytes) ops := by
  cases op with
  | put data nbyte =>
    obtain ⟨h', hput, habs'⟩ := habs.put data hop
    refine ⟨h', [], ?_, habs', fun _ => rfl⟩
    simp only [Op.run, hput]
    rfl
  | putBlock blk nblock =>
    obtain ⟨h', hput, habs'⟩ := habs.putBlock blk hop
    refine ⟨h', [], ?_, habs', fun _ => rfl⟩
    simp only [Op.run, hput]
    rfl
  | digest resetAfter =>
    obtain ⟨habs', hout⟩ := @Absorbing.digest hash opt _ _ habs resetAfter
    refine ⟨_, _, rfl, habs', fun ops => ?_⟩
    rw [onceDigests, hashOnceOf_eq, ← hout]
    rfl
  | reset => exact ⟨h.reset, [], rfl, absorbing_reset h, fun _ => rfl⟩

theorem Absorbing.ops (habs : Absorbing bytes h) {ops : List Op}
    (hops : ∀ op ∈ ops, op.Admissible) :
    ∃ h' outs, runOps hash opt ops h = .ok (h', outs) ∧ h'.bufLen ≤ bufBytes ∧
      outs.map .ok = onceDigests hash opt bytes ops := by
  induction ops generalizing h bytes with
  | nil => exact ⟨h, [], rfl, habs.bufLen_le, rfl⟩
  | cons op ops ih =>
    obtain ⟨h₁, out, hrun, habs₁, honce⟩ :=
      @Absorbing.op hash opt _ _ habs op (hops op List.mem_cons_self)
    obtain ⟨h₂, outs, hruns, hlen, houts⟩ :=
      ih habs₁ fun op hmem => hops op (List.mem_cons_of_mem _ hmem)
    refine ⟨h₂, out ++ outs, ?_, hlen, ?_⟩
    · simp only [runOps, bind_eq_ok, pure_eq_ok]
      exact ⟨_, hrun, _, hruns, rfl⟩
    · rw [honce, List.map_append, houts]

theorem streaming_equals_hash_once (hash : HashFunction) (opt : HashOption) (raw : Nat → UInt8)
    (ops : List Op) (hops : ∀ op ∈ ops, op.Admissible) :
    ∃ h digests, runOps hash opt ops (construct raw) = .ok (h, digests) ∧ h.bufLen ≤ bufBytes ∧
      digests.map .ok = onceDigests hash opt [] ops :=
  (absorbing_construct raw).ops hops

def countingHash : HashFunction := fun _ bytes i => UInt8.ofNat (bytes.length + i)

-- a snapshot between two puts, a large put past the buffer, a reset that drops one byte
def mixedOps : List Op :=
  [.put (fun _ => 1) 3, .digest false, .putBlock (fun _ => zeroBlock) 1, .put (fun _ => 2) 8192,
    .digest true, .put (fun _ => 3) 1, .reset, .digest true]

theorem streaming_equals_hash_once_mixedOps :
    ∃ h digests, runOps countingHash .sha256 mixedOps (construct fun _ => 0) = .ok (h, digests) ∧
      h.bufLen ≤ bufBytes ∧
      digests.map .ok = onceDigests countingHash .sha256 [] mixedOps := by
  refine streaming_equals_hash_once countingHash .sha256 (fun _ => 0) mixedOps fun op hop => ?_
  simp only [mixedOps, List.mem_cons, List.not_mem_nil, or_false] at hop
  rcases hop with rfl | rfl | rfl | rfl | rfl | rfl | rfl | rfl <;> simp [Op.Admissible]

end EmpTool.Crypto.HashT
