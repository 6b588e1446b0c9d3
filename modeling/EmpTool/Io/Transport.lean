import EmpTool.Io.Channel

namespace EmpTool.Io

open Memory Process

-- one endpoint's traffic with its transport: the bytes it has handed over, whether stdio has
-- been flushed since, how many of them are sure to have left the process, and the bytes read
structure Transport where
  handed : List UInt8 := []
  flushed : Bool := true
  pushed : Nat := 0
  arrived : List UInt8 := []

namespace Transport

def write (impl : Implementation) (bytes : List UInt8) (t : Transport) : Transport :=
  match impl with
  | .net => { t with handed := t.handed ++ bytes, flushed := false }
  | .tls => { t with handed := t.handed ++ bytes, pushed := (t.handed ++ bytes).length }

def flush (t : Transport) : Transport := { t with flushed := true, pushed := t.handed.length }

def answer (impl : Implementation) (t : Transport) : (r : Request) → r.Reply → Transport
  | .write bytes, (n : Nat) => t.write impl (bytes.take n)
  | .fflush, _ => t.flush
  | .read, none => t
  | .read, some chunk => { t with arrived := t.arrived ++ chunk }

def hand (impl : Implementation) (bytes : List UInt8) (t : Transport) : Transport :=
  if bytes = [] then t else t.write impl bytes

theorem write_write (impl : Implementation) (a b : List UInt8) (t : Transport) :
    (t.write impl a).write impl b = t.write impl (a ++ b) := by
  cases impl with
  | net => simp [write]
  | tls => simp [write]

theorem hand_write (impl : Implementation) (a b : List UInt8) (t : Transport) :
    (t.write impl a).hand impl b = t.write impl (a ++ b) := by
  unfold hand
  split
  case isTrue hb => rw [hb, List.append_nil]
  case isFalse => exact write_write impl a b t

@[simp] theorem write_handed (impl : Implementation) (bytes : List UInt8) (t : Transport) :
    (t.write impl bytes).handed = t.handed ++ bytes := by
  cases impl with
  | net => rfl
  | tls => rfl

@[simp] theorem write_arrived (impl : Implementation) (bytes : List UInt8) (t : Transport) :
    (t.write impl bytes).arrived = t.arrived := by
  cases impl with
  | net => rfl
  | tls => rfl

@[simp] theorem hand_nil (impl : Implementation) (t : Transport) : t.hand impl [] = t := rfl

@[simp] theorem hand_handed (impl : Implementation) (bytes : List UInt8) (t : Transport) :
    (t.hand impl bytes).handed = t.handed ++ bytes := by
  unfold hand
  split
  case isTrue hb => rw [hb, List.append_nil]
  case isFalse => exact write_handed impl bytes t

@[simp] theorem hand_arrived (impl : Implementation) (bytes : List UInt8) (t : Transport) :
    (t.hand impl bytes).arrived = t.arrived := by
  unfold hand
  split
  · rfl
  · exact write_arrived impl bytes t

end Transport

namespace Request

def Allowed : (r : Request) → r.Reply → Prop
  | .write bytes, (n : Nat) => n ≤ bytes.length
  | .fflush, _ => True
  | .read, none => True
  | .read, some chunk => chunk.length ≤ networkStagingBufferSize

def Positive : (r : Request) → r.Reply → Prop
  | .write bytes, (n : Nat) => bytes ≠ [] → 0 < n
  | .fflush, _ => True
  | .read, none => False
  | .read, some chunk => 0 < chunk.length

end Request

def channelErrors (impl : Implementation) : List String :=
  [impl.negativeSend, impl.negativeRecv, impl.writeError, impl.readError, impl.peerClosed,
    "IOChannel::get_send_digest: enable_fs first", "IOChannel::get_recv_digest: enable_fs first",
    "IOChannel::get_digest: enable_fs first", "IOChannel::send_data: negative byte count",
    "IOChannel::send_data: send counter overflow", "IOChannel::recv_data: negative byte count",
    "IOChannel::recv_data: receive counter overflow", "IOChannel::send_block: negative block count",
    "IOChannel::send_block: byte count overflow", "IOChannel::recv_block: negative block count",
    "IOChannel::recv_block: byte count overflow", "IOChannel::send_bool: negative bit count",
    "IOChannel::recv_bool: negative bit count"]

-- `lossy` tells whether the link may break, `reading` what is promised whenever the endpoint
-- reads from its transport
def contract (impl : Implementation) (lossy : Bool) (reading : Transport → Endpoint → Prop) :
    Contract Endpoint Request Request.Reply Transport where
  allowed r reply := r.Allowed reply ∧ (lossy = true ∨ r.Positive reply)
  answer := Transport.answer impl
  calling t e r := match r with
    | .write bytes => bytes ≠ []
    | .fflush => True
    | .read => reading t e
  failing message := lossy = true ∧ message ∈ channelErrors impl

namespace Endpoint

def staged (e : Endpoint) : List UInt8 := slice e.sendBuf 0 e.sendPtr

def unread (e : Endpoint) : List UInt8 := slice e.recvBuf e.recvPtr (e.recvFill - e.recvPtr)

theorem staged_eq_nil {e : Endpoint} : e.staged = [] ↔ e.sendPtr = 0 := by
  rw [← List.length_eq_zero_iff, staged, length_slice]

theorem staged_of_zero {e : Endpoint} (h : e.sendPtr = 0) : e.staged = [] :=
  staged_eq_nil.mpr h

theorem unread_of_drained {e : Endpoint} (h : e.recvPtr = e.recvFill) : e.unread = [] := by
  rw [unread, h, Nat.sub_self, slice_zero]

end Endpoint

structure Coherent (impl : Implementation) (t : Transport) (e : Endpoint) : Prop where
  sendPtr_le : e.sendPtr ≤ networkStagingBufferSize
  recvPtr_le : e.recvPtr ≤ e.recvFill
  recvFill_le : e.recvFill ≤ networkStagingBufferSize
  clean : e.sendDirty = false → e.sendPtr = 0 ∧ t.flushed = true
  pushed_le : t.pushed ≤ t.handed.length
  settled : t.flushed = true → t.pushed = t.handed.length
  tls_flushed : impl = .tls → t.flushed = true

section Coherence

variable {impl : Implementation} {t : Transport}

theorem hand_pushed_le (bytes : List UInt8) (h : t.pushed ≤ t.handed.length) :
    (t.hand impl bytes).pushed ≤ (t.hand impl bytes).handed.length := by
  unfold Transport.hand
  split
  · exact h
  · cases impl with
    | net =>
      simp only [Transport.write, List.length_append]
      omega
    | tls => exact Nat.le_refl _

theorem hand_settled (bytes : List UInt8) (h : t.flushed = true → t.pushed = t.handed.length)
    (hf : (t.hand impl bytes).flushed = true) :
    (t.hand impl bytes).pushed = (t.hand impl bytes).handed.length := by
  unfold Transport.hand at hf ⊢
  split
  case isTrue hb =>
    rw [if_pos hb] at hf
    exact h hf
  case isFalse hb =>
    rw [if_neg hb] at hf
    cases impl with
    | net => exact absurd hf Bool.false_ne_true
    | tls => rfl

theorem hand_tls_flushed (bytes : List UInt8) (h : impl = .tls → t.flushed = true)
    (hi : impl = .tls) : (t.hand impl bytes).flushed = true := by
  subst hi
  unfold Transport.hand
  split
  · exact h rfl
  · exact h rfl

end Coherence

end EmpTool.Io
