import EmpTool.Crypto.Hash
import EmpTool.Library.Process
import EmpTool.Runtime.Bits

namespace EmpTool.Io

open Bits Crypto Memory Process
open Process.Action (check modify ofExcept request)

inductive Implementation where
  | net
  | tls
  deriving DecidableEq, Repr

def networkStagingBufferSize : Nat := 1024 * 32

def ioBoolChunkSize : Nat := 8 * 1024

-- a call that the loops of the source only retry (EINTR, WANT_READ, WANT_WRITE) is no answer yet
inductive Request where
  | write (bytes : List UInt8)
  | fflush
  | read

-- how many bytes were taken, or the bytes read: none for a hard error, empty for a closed peer
def Request.Reply : Request → Type
  | .write _ => Nat
  | .fflush => Unit
  | .read => Option (List UInt8)

inductive Dir where
  | none
  | send
  | recv
  deriving DecidableEq, Repr

structure FsState where
  opt : HashOption
  send : HashT := {}
  recv : HashT := {}

-- `sent` and `received` list the buffers of the completed calls; the code never looks at them
structure IOChannel where
  sendCounter : UInt64 := 0
  recvCounter : UInt64 := 0
  rounds : UInt64 := 0
  lastDir : Dir := .none
  fs : Option FsState := none
  fsSendFirst : Bool := false
  sent : List (List UInt8) := []
  received : List (List UInt8) := []

-- `dest` is the part of the caller's buffer that the receive in progress has filled
structure Endpoint where
  base : IOChannel := {}
  isServer : Bool := false
  flushesCount : UInt64 := 0
  sendBuf : Nat → UInt8 := fun _ => 0
  sendPtr : Nat := 0
  sendDirty : Bool := false
  recvBuf : Nat → UInt8 := fun _ => 0
  recvPtr : Nat := 0
  recvFill : Nat := 0
  dest : List UInt8 := []

-- `stack` is what an uninitialised buffer holds
structure Platform where
  implementation : Implementation
  avx2 : Bool := false
  stack : Nat → UInt8 := fun _ => 0

abbrev ChannelM (α : Type) := Action Endpoint Request Request.Reply α

namespace Implementation

def negativeSend : Implementation → String
  | .net => "NetIO::send_data: negative len"
  | .tls => "TLSIO::send_data: negative len"

def negativeRecv : Implementation → String
  | .net => "NetIO::recv_data: negative len"
  | .tls => "TLSIO::recv_data: negative len"

def writeError : Implementation → String
  | .net => "net_send_data (peer closed or write error)"
  | .tls => "TLSIO: SSL_write_ex"

def readError : Implementation → String
  | .net => "net_recv_data (peer closed or read error)"
  | .tls => "TLSIO: SSL_read_ex"

def peerClosed : Implementation → String
  | .net => "net_recv_data (peer closed or read error)"
  | .tls => "TLSIO: recv_data: peer closed"

-- `send_raw` of NetIO and `ssl_write_all` of TLSIO: the argument is what is still to write, and
-- each accepted write takes a byte, so as many passes as bytes are enough
def sendLoop (impl : Implementation) : Nat → List UInt8 → ChannelM Unit
  | 0, rest => check (rest = []) "send_raw: unreachable"
  | fuel + 1, rest =>
    if rest = [] then pure ()
    else do
      let res : Nat ← request (Request.write rest)
      check (0 < res) impl.writeError
      impl.sendLoop fuel (rest.drop res)

def sendRaw (impl : Implementation) (bytes : List UInt8) : ChannelM Unit :=
  impl.sendLoop bytes.length bytes

def drainStaged (impl : Implementation) : ChannelM Unit := do
  let e ← Action.get
  if e.sendPtr ≠ 0 then do
    impl.sendRaw (slice e.sendBuf 0 e.sendPtr)
    modify fun e => { e with sendPtr := 0 }
  else pure ()

def flushStream : Implementation → ChannelM Unit
  | .net => request Request.fflush
  | .tls => pure ()

def flushUnlocked (impl : Implementation) : ChannelM Unit := do
  let e ← Action.get
  if e.sendDirty then do
    modify fun e => { e with flushesCount := e.flushesCount + 1 }
    impl.drainStaged
    impl.flushStream
    modify fun e => { e with sendDirty := false }
  else pure ()

def stage (data : Nat → UInt8) (len : Nat) (e : Endpoint) : Endpoint :=
  { e with sendBuf := storeRange len e.sendPtr data e.sendBuf, sendPtr := e.sendPtr + len }

def stageOrSend (impl : Implementation) (data : Nat → UInt8) (len : Nat) : ChannelM Unit := do
  let e ← Action.get
  if len ≤ networkStagingBufferSize - e.sendPtr then modify (stage data len)
  else do
    impl.drainStaged
    impl.sendRaw (slice data 0 len)

def sendDataInternal (impl : Implementation) (data : Nat → UInt8) (len : Int) : ChannelM Unit := do
  check (0 ≤ len) impl.negativeSend
  if len = 0 then pure ()
  else do
    impl.stageOrSend data len.toNat
    modify fun e => { e with sendDirty := true }

def refill (impl : Implementation) : ChannelM Unit := do
  let e ← Action.get
  if e.recvPtr = e.recvFill then do
    let reply : Option (List UInt8) ← request Request.read
    match reply with
    | none => check False impl.readError
    | some chunk => do
      check (0 < chunk.length) impl.peerClosed
      modify fun e =>
        { e with
          recvBuf := storeRange chunk.length 0 (fun i => chunk.getD i 0) e.recvBuf
          recvPtr := 0
          recvFill := chunk.length }
  else pure ()

def copyOut (len : Nat) (e : Endpoint) : Endpoint :=
  let take := min (e.recvFill - e.recvPtr) (len - e.dest.length)
  { e with dest := e.dest ++ slice e.recvBuf e.recvPtr take, recvPtr := e.recvPtr + take }

-- every pass delivers a byte, so as many passes as bytes are enough
def recvLoop (impl : Implementation) (len : Nat) : Nat → ChannelM Unit
  | 0 => do
    let e ← Action.get
    check (len ≤ e.dest.length) "recv_data_internal: unreachable"
  | fuel + 1 => do
    let e ← Action.get
    if e.dest.length < len then do
      impl.refill
      modify (copyOut len)
      impl.recvLoop len fuel
    else pure ()

def recvDataInternal (impl : Implementation) (len : Int) : ChannelM Unit := do
  check (0 ≤ len) impl.negativeRecv
  if len = 0 then pure ()
  else do
    impl.flushUnlocked
    modify fun e => { e with dest := [] }
    impl.recvLoop len.toNat len.toNat

-- TLSIO leaves the client's byte to the next flush
def syncTail : Implementation → ChannelM Unit
  | .net => flushUnlocked .net
  | .tls => pure ()

def sync (impl : Implementation) : ChannelM Unit := do
  let e ← Action.get
  if e.isServer then do
    impl.sendDataInternal (fun _ => 0) 1
    impl.recvDataInternal 1
  else do
    impl.recvDataInternal 1
    let e ← Action.get
    impl.sendDataInternal (fun i => e.dest.getD i 0) 1
    impl.syncTail

end Implementation

namespace IOChannel

def enter (dir : Dir) (b : IOChannel) : IOChannel :=
  if b.lastDir ≠ dir then { b with rounds := b.rounds + 1, lastDir := dir } else b

def countSent (bytes : Nat) (b : IOChannel) : IOChannel :=
  { b with sendCounter := b.sendCounter + UInt64.ofNat bytes }

def countReceived (bytes : Nat) (b : IOChannel) : IOChannel :=
  { b with recvCounter := b.recvCounter + UInt64.ofNat bytes }

def absorbSent (data : Nat → UInt8) (nbyte : Int) (b : IOChannel) : Except String IOChannel :=
  match b.fs with
  | none => pure b
  | some st => do
    let send ← st.send.put data nbyte
    pure { b with fs := some { st with send := send } }

def absorbReceived (data : Nat → UInt8) (nbyte : Int) (b : IOChannel) : Except String IOChannel :=
  match b.fs with
  | none => pure b
  | some st => do
    let recv ← st.recv.put data nbyte
    pure { b with fs := some { st with recv := recv } }

def requireFs (message : String) (b : IOChannel) : Except String FsState :=
  match b.fs with
  | none => .error message
  | some st => .ok st

end IOChannel

def onBase (f : IOChannel → IOChannel) (e : Endpoint) : Endpoint := { e with base := f e.base }

-- the buffer counts as sent, or received, when the call is over
def logSent (bytes : List UInt8) (b : IOChannel) : IOChannel := { b with sent := b.sent ++ [bytes] }

def logReceived (bytes : List UInt8) (b : IOChannel) : IOChannel :=
  { b with received := b.received ++ [bytes] }

def enableFs (opt : HashOption) (sendFirst : Bool) : ChannelM Unit := do
  let e ← Action.get
  check (e.base.fs.isNone) "IOChannel::enable_fs: called twice"
  modify (onBase fun b => { b with fs := some { opt := opt }, fsSendFirst := sendFirst })

def getSendDigest (hash : HashFunction) : ChannelM Block := do
  let e ← Action.get
  let st ← ofExcept (e.base.requireFs "IOChannel::get_send_digest: enable_fs first")
  let (send, buf) := st.send.digest hash st.opt false
  modify (onBase fun b => { b with fs := some { st with send := send } })
  pure (blockOfBytes buf)

def getRecvDigest (hash : HashFunction) : ChannelM Block := do
  let e ← Action.get
  let st ← ofExcept (e.base.requireFs "IOChannel::get_recv_digest: enable_fs first")
  let (recv, buf) := st.recv.digest hash st.opt false
  modify (onBase fun b => { b with fs := some { st with recv := recv } })
  pure (blockOfBytes buf)

variable (p : Platform) (hash : HashFunction)

def getDigest : ChannelM Block := do
  let e ← Action.get
  let st ← ofExcept (e.base.requireFs "IOChannel::get_digest: enable_fs first")
  let (send, sendDigest) := st.send.digest hash st.opt false
  let buf := storeRange digestSize (if e.base.fsSendFirst then 0 else digestSize) sendDigest p.stack
  let (recv, recvDigest) := st.recv.digest hash st.opt false
  let buf := storeRange digestSize (if e.base.fsSendFirst then digestSize else 0) recvDigest buf
  let out ← ofExcept (HashT.hashOnce hash st.opt buf (2 * digestSize))
  modify (onBase fun b => { b with fs := some { st with send := send, recv := recv } })
  pure (blockOfBytes out)

def sendData (data : Nat → UInt8) (nbyte : Int) : ChannelM Unit := do
  check (0 ≤ nbyte) "IOChannel::send_data: negative byte count"
  if nbyte = 0 then pure ()
  else do
    let e ← Action.get
    check (nbyte.toNat ≤ 2 ^ 64 - 1 - e.base.sendCounter.toNat)
      "IOChannel::send_data: send counter overflow"
    modify (onBase fun b => (b.countSent nbyte.toNat).enter .send)
    let e ← Action.get
    let b ← ofExcept (e.base.absorbSent data nbyte)
    modify (onBase fun _ => b)
    p.implementation.sendDataInternal data nbyte
    modify (onBase (logSent (slice data 0 nbyte.toNat)))

def recvData (nbyte : Int) : ChannelM Unit := do
  check (0 ≤ nbyte) "IOChannel::recv_data: negative byte count"
  if nbyte = 0 then pure ()
  else do
    let e ← Action.get
    check (nbyte.toNat ≤ 2 ^ 64 - 1 - e.base.recvCounter.toNat)
      "IOChannel::recv_data: receive counter overflow"
    modify (onBase fun b => (b.countReceived nbyte.toNat).enter .recv)
    p.implementation.recvDataInternal nbyte
    let e ← Action.get
    let b ← ofExcept (e.base.absorbReceived (fun i => e.dest.getD i 0) nbyte)
    modify (onBase fun _ => logReceived e.dest b)

def sendBlock (data : Nat → Block) (nblock : Int) : ChannelM Unit := do
  check (0 ≤ nblock) "IOChannel::send_block: negative block count"
  check (nblock ≤ (2 ^ 63 - 1) / 16) "IOChannel::send_block: byte count overflow"
  sendData p (fun i => blockBytes (data (i / 16)) (i % 16)) (nblock * 16)

def recvBlock (nblock : Int) : ChannelM Unit := do
  check (0 ≤ nblock) "IOChannel::recv_block: negative block count"
  check (nblock ≤ (2 ^ 63 - 1) / 16) "IOChannel::recv_block: byte count overflow"
  recvData p (nblock * 16)

def clearTail (batch : Nat) (buf : Nat → UInt8) : Nat → UInt8 :=
  if batch % 8 ≠ 0 then Function.update buf ((batch + 7) / 8 - 1) 0 else buf

-- each pass packs at least one bool, so as many passes as bools are enough
def sendBoolLoop : Nat → (data : Nat → Bool) → (length : Nat) → (buf : Nat → UInt8) → ChannelM Unit
  | 0, _, length, _ => check (length = 0) "send_bool: unreachable"
  | fuel + 1, data, length, buf =>
    if 0 < length then do
      let batch := min length ioBoolChunkSize
      let buf ← ofExcept (boolsToBits p.avx2 (clearTail batch buf) data batch)
      sendData p buf ((batch + 7) / 8 : Nat)
      sendBoolLoop fuel (fun i => data (batch + i)) (length - batch) buf
    else pure ()

def sendBool (data : Nat → Bool) (length : Int) : ChannelM Unit := do
  check (0 ≤ length) "IOChannel::send_bool: negative bit count"
  sendBoolLoop p length.toNat data length.toNat p.stack

def recvBoolLoop : Nat → (start length : Nat) → (data : Nat → Bool) → (buf : Nat → UInt8) →
    ChannelM (Nat → Bool)
  | 0, _, length, data, _ => do
    check (length = 0) "recv_bool: unreachable"
    pure data
  | fuel + 1, start, length, data, buf =>
    if 0 < length then do
      let batch := min length ioBoolChunkSize
      recvData p ((batch + 7) / 8 : Nat)
      let e ← Action.get
      let buf := storeRange e.dest.length 0 (fun i => e.dest.getD i 0) buf
      let bools ← ofExcept (bitsToBools (fun i => data (start + i)) buf batch)
      recvBoolLoop fuel (start + batch) (length - batch) (storeRange batch start bools data) buf
    else pure data

def recvBool (data : Nat → Bool) (length : Int) : ChannelM (Nat → Bool) := do
  check (0 ≤ length) "IOChannel::recv_bool: negative bit count"
  recvBoolLoop p length.toNat 0 length.toNat data p.stack

inductive Call where
  | sendData (data : Nat → UInt8) (nbyte : Int)
  | recvData (nbyte : Int)
  | sendBlock (data : Nat → Block) (nblock : Int)
  | recvBlock (nblock : Int)
  | sendBool (data : Nat → Bool) (length : Int)
  | recvBool (data : Nat → Bool) (length : Int)
  | flush
  | getSendDigest
  | getRecvDigest
  | getDigest

def Call.perform : Call → ChannelM Unit
  | .sendData data nbyte => Io.sendData p data nbyte
  | .recvData nbyte => Io.recvData p nbyte
  | .sendBlock data nblock => Io.sendBlock p data nblock
  | .recvBlock nblock => Io.recvBlock p nblock
  | .sendBool data length => Io.sendBool p data length
  | .recvBool data length => do
    let _ ← Io.recvBool p data length
    pure ()
  | .flush => p.implementation.flushUnlocked
  | .getSendDigest => do
    let _ ← Io.getSendDigest hash
    pure ()
  | .getRecvDigest => do
    let _ ← Io.getRecvDigest hash
    pure ()
  | .getDigest => do
    let _ ← Io.getDigest p hash
    pure ()

end EmpTool.Io
