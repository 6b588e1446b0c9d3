import EmpTool.Library.Memory
import EmpTool.Runtime.Error

namespace EmpTool.Crypto

open Memory

inductive HashOption where
  | sha256
  | blake3
  deriving DecidableEq, Repr

-- a backend is any function of the bytes it has absorbed
abbrev HashFunction := HashOption → List UInt8 → Nat → UInt8

def digestSize : Nat := 32

def bufBytes : Nat := 8192

structure HashT where
  absorbed : List UInt8 := []
  buf : Nat → UInt8 := fun _ => 0
  bufLen : Nat := 0

namespace HashT

def update (bytes : List UInt8) (h : HashT) : HashT := { h with absorbed := h.absorbed ++ bytes }

def flushBuf (h : HashT) : HashT :=
  if h.bufLen ≠ 0 then { h.update (slice h.buf 0 h.bufLen) with bufLen := 0 } else h

def store (data : Nat → UInt8) (nbyte : Nat) (h : HashT) : HashT :=
  { h with buf := storeRange nbyte h.bufLen data h.buf, bufLen := h.bufLen + nbyte }

def put (data : Nat → UInt8) (nbyte : Int) (h : HashT) : Except String HashT := do
  expecting (0 ≤ nbyte) "Hash::put: negative byte count"
  let nbyte := nbyte.toNat
  if nbyte = 0 then pure h
  else
    let h := if nbyte > bufBytes - h.bufLen then h.flushBuf else h
    pure (if nbyte ≥ bufBytes then h.update (slice data 0 nbyte) else h.store data nbyte)

def digest (hash : HashFunction) (opt : HashOption) (resetAfter : Bool) (h : HashT) :
    HashT × (Nat → UInt8) :=
  let h := h.flushBuf
  (if resetAfter then { h with absorbed := [] } else h, hash opt h.absorbed)

def hashOnce (hash : HashFunction) (opt : HashOption) (data : Nat → UInt8) (nbyte : Int) :
    Except String (Nat → UInt8) := do
  expecting (0 ≤ nbyte) "Hash::hash_once: negative byte count"
  pure (hash opt (slice data 0 nbyte.toNat))

def transcript (h : HashT) : List UInt8 := h.absorbed ++ slice h.buf 0 h.bufLen

theorem flushBuf_absorbed (h : HashT) : h.flushBuf.absorbed = h.transcript := by
  unfold flushBuf transcript
  split
  case isTrue => rfl
  case isFalse hz =>
    have hzero : h.bufLen = 0 := by omega
    rw [hzero, slice_zero, List.append_nil]

theorem flushBuf_bufLen (h : HashT) : h.flushBuf.bufLen = 0 := by
  unfold flushBuf
  split
  case isTrue => rfl
  case isFalse hz => omega

@[simp] theorem flushBuf_transcript (h : HashT) : h.flushBuf.transcript = h.transcript := by
  rw [transcript, flushBuf_bufLen, slice_zero, List.append_nil, flushBuf_absorbed]

theorem update_transcript {h : HashT} (hz : h.bufLen = 0) (bytes : List UInt8) :
    (h.update bytes).transcript = h.transcript ++ bytes := by
  simp [transcript, update, hz]

theorem store_transcript (data : Nat → UInt8) (nbyte : Nat) (h : HashT) :
    (h.store data nbyte).transcript = h.transcript ++ slice data 0 nbyte := by
  have hkeep : slice (storeRange nbyte h.bufLen data h.buf) 0 h.bufLen = slice h.buf 0 h.bufLen :=
    slice_storeRange_before (by omega) data h.buf
  have hnew := slice_storeRange nbyte h.bufLen data h.buf
  rw [transcript, transcript, List.append_assoc, ← hkeep, ← hnew]
  congr 1
  have happ := slice_append (storeRange nbyte h.bufLen data h.buf) 0 h.bufLen nbyte
  rw [Nat.zero_add] at happ
  exact happ.symm

theorem put_transcript {data : Nat → UInt8} {nbyte : Int} {h h' : HashT}
    (hput : put data nbyte h = .ok h') :
    h'.transcript = h.transcript ++ slice data 0 nbyte.toNat := by
  simp only [put, bind_eq_ok, expecting_eq_ok] at hput
  obtain ⟨_, _, hput⟩ := hput
  split at hput
  case isTrue hz =>
    rw [pure_eq_ok] at hput
    rw [← hput, hz, slice_zero, List.append_nil]
  case isFalse hz =>
    rw [pure_eq_ok] at hput
    rw [← hput]
    split
    case isTrue hlarge =>
      -- an input as large as the buffer never fits beside what is pending
      by_cases hfit : nbyte.toNat > bufBytes - h.bufLen
      · rw [if_pos hfit, update_transcript (flushBuf_bufLen h), flushBuf_transcript]
      · have hempty : h.bufLen = 0 := by
          unfold bufBytes at *
          omega
        rw [if_neg hfit, update_transcript hempty]
    case isFalse hsmall =>
      rw [store_transcript]
      split
      · rw [flushBuf_transcript]
      · rfl

theorem put_ok (data : Nat → UInt8) {nbyte : Int} (hn : 0 ≤ nbyte) (h : HashT) :
    ∃ h', put data nbyte h = .ok h' := by
  unfold put
  by_cases hz : nbyte.toNat = 0
  · exact ⟨h, by simp [hz, hn]⟩
  · simp only [bind_eq_ok, expecting_eq_ok, if_neg hz, pure_eq_ok]
    exact ⟨_, (), hn, rfl⟩

theorem digest_snapshot (hash : HashFunction) (opt : HashOption) (h : HashT) :
    (h.digest hash opt false).2 = hash opt h.transcript ∧
      (h.digest hash opt false).1.transcript = h.transcript := by
  simp [digest, flushBuf_absorbed]

end HashT

end EmpTool.Crypto
