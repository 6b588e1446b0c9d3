import EmpTool.Crypto.AesCtr
import EmpTool.Runtime.Bits

namespace EmpTool.Crypto

open Bits Memory

-- AES under one key is a permutation of the blocks
structure Cipher (AesKey : Type) extends Aes AesKey where
  injective : ∀ kk, Function.Injective (encrypt kk)

def aesBatchSize : Nat := 64

structure Prg (AesKey : Type) where
  counter : UInt64
  aes : AesKey
  key : Block
  buffer : Nat → UInt64
  ptr : Nat

abbrev PrgM (AesKey : Type) := StateT (Prg AesKey) (Except String)

namespace Prg

def blocksOf (mem : Nat → UInt8) (i : Nat) : Block := blockOfBytes fun k => mem (16 * i + k)

def bytesOf (mem : Nat → Block) (j : Nat) : UInt8 := blockBytes (mem (j / 16)) (j % 16)

def blocksOfWords (words : Nat → UInt64) (i : Nat) : Block := ⟨words (2 * i + 1), words (2 * i)⟩

def wordsOf (mem : Nat → Block) (w : Nat) : UInt64 :=
  if w % 2 = 0 then (mem (w / 2)).low else (mem (w / 2)).high

section Calls

variable {AesKey : Type} (cipher : Cipher AesKey) (tiers : Tiers)

def reseed (seed : Block) (id : UInt64) (p : Prg AesKey) : Prg AesKey :=
  let v := seed ^^^ makeBlock 0 id
  { p with key := v, aes := cipher.schedule v, counter := 0 }

-- the constructor's `int` id is widened to the 64 bits that `reseed` takes
def idWord (id : Int32) : UInt64 := id.toInt64.toUInt64

-- `raw` is the storage the object is built in: only `counter` and `ptr` have initialisers
def construct (raw : Prg AesKey) (seed : Block) (id : Int32) : Prg AesKey :=
  reseed cipher seed (idWord id) { raw with counter := 0, ptr := 32 }

def seek (blockCounter : UInt64) : PrgM AesKey Unit :=
  modify fun p => { p with counter := blockCounter, ptr := 32 }

-- each pass fills at least one block, so as many passes as blocks are enough
def randomBlockLoop : Nat → (dst nblocks : Nat) → (Nat → Block) → PrgM AesKey (Nat → Block)
  | 0, _, _, data => pure data
  | fuel + 1, dst, nblocks, data =>
    if nblocks = 0 then pure data
    else do
      let n := min nblocks aesBatchSize
      let p ← get
      let data ← paraCtrEnc cipher.toAes tiers dst (signedCounter p.counter) p.aes n data
      set { p with counter := p.counter + UInt64.ofNat n }
      randomBlockLoop fuel (dst + n) (nblocks - n) data

def randomBlock (addr : Nat) (data : Nat → Block) (nblocks : Int) :
    PrgM AesKey (Nat → Block) := do
  expecting (0 ≤ nblocks) "PRG::random_block: negative block count"
  if nblocks = 0 then pure data
  else do
    expecting (addr % 16 = 0) "PRG::random_block: data must be 16-byte aligned"
    randomBlockLoop cipher tiers nblocks.toNat 0 nblocks.toNat data

def randomTail (nbytes : Nat) (data : Nat → UInt8) : PrgM AesKey (Nat → UInt8) :=
  if nbytes % 16 ≠ 0 then do
    let extra ← randomBlock cipher tiers 0 (fun _ => zeroBlock) 1
    pure (storeRange (nbytes % 16) (nbytes / 16 * 16) (bytesOf extra) data)
  else pure data

def randomData (addr : Nat) (data : Nat → UInt8) (nbytes : Int) : PrgM AesKey (Nat → UInt8) := do
  expecting (0 ≤ nbytes) "PRG::random_data: negative byte count"
  if nbytes = 0 then pure data
  else do
    expecting (addr % 16 = 0)
      "PRG::random_data: data must be 16-byte aligned; use random_data_unaligned"
    let n := nbytes.toNat
    let blocks ← randomBlock cipher tiers addr (blocksOf data) (n / 16 : Nat)
    randomTail cipher tiers n (storeRange (n / 16 * 16) 0 (bytesOf blocks) data)

-- `last` is the end of the caller's buffer
def randomRest (last : Nat) : Nat → (remaining : Nat) → (Nat → UInt8) → PrgM AesKey (Nat → UInt8)
  | 0, _, data => pure data
  | fuel + 1, remaining, data =>
    if 0 < remaining then do
      let tmp ← randomBlock cipher tiers 0 (fun _ => zeroBlock) 1
      let bytesToCopy := min remaining 16
      randomRest last fuel (remaining - bytesToCopy)
        (storeRange bytesToCopy (last - remaining) (bytesOf tmp) data)
    else pure data

def randomDataUnaligned (addr : Nat) (data : Nat → UInt8) (nbytes : Int) :
    PrgM AesKey (Nat → UInt8) := do
  expecting (0 ≤ nbytes) "PRG::random_data_unaligned: negative byte count"
  if nbytes = 0 then pure data
  else if nbytes ≤ 2 * 16 then do
    let n := nbytes.toNat
    let tmp ← randomBlock cipher tiers 0 (fun _ => zeroBlock) ((n + 16 - 1) / 16 : Nat)
    pure (storeRange n 0 (bytesOf tmp) data)
  else do
    let n := nbytes.toNat
    -- `std::align` skips to the next block boundary
    let skew := (16 - addr % 16) % 16
    let size := 16 * ((n - skew) / 16)
    let chopped := n - size
    let aligned ← randomData cipher tiers (addr + skew) (fun j => data (skew + j))
      (n - chopped : Nat)
    let data := storeRange (n - chopped) skew aligned data
    let data := storeRange (n - chopped) 0 (fun j => data (skew + j)) data
    randomRest cipher tiers n chopped chopped data

def loadTail (bytes : Nat → UInt8) (a count : Nat) : UInt32 :=
  load32 (fun k => if k < a + count then bytes k else 0) a

def unpackBools (bitsPass produced : Nat) (bytes : Nat → UInt8) (data : Nat → Bool) :
    Nat → Bool :=
  let full32 := bitsPass / 32
  let data := (List.range full32).foldl (fun data i =>
    storeRange 32 (produced + i * 32) (bits32ToBytes (load32 bytes (i * 4))) data) data
  let tailBits := bitsPass - full32 * 32
  let b32 := loadTail bytes (full32 * 4) ((tailBits + 7) / 8)
  storeRange tailBits (produced + full32 * 32)
    (fun i => b32 >>> UInt32.ofNat i &&& 1 ≠ 0) data

def randomBoolLoop (length : Nat) : Nat → (produced : Nat) → (buf : Nat → Block) →
    (Nat → Bool) → PrgM AesKey (Nat → Bool)
  | 0, _, _, data => pure data
  | fuel + 1, produced, buf, data =>
    if produced < length then do
      let bitsPass := min (length - produced) (16 * 128)
      let buf ← randomBlock cipher tiers 0 buf ((bitsPass + 127) / 128 : Nat)
      randomBoolLoop length fuel (produced + bitsPass) buf
        (unpackBools bitsPass produced (bytesOf buf) data)
    else pure data

def randomBool (data : Nat → Bool) (length : Int) : PrgM AesKey (Nat → Bool) := do
  expecting (0 ≤ length) "PRG::random_bool: negative bit count"
  randomBoolLoop cipher tiers length.toNat length.toNat 0 (fun _ => zeroBlock) data

def refill : PrgM AesKey Unit := do
  let p ← get
  if p.ptr = 32 then do
    let blocks ← randomBlock cipher tiers 0 (blocksOfWords p.buffer) 16
    modify fun p => { p with buffer := wordsOf blocks, ptr := 0 }
  else pure ()

def next : PrgM AesKey UInt64 := do
  refill cipher tiers
  let p ← get
  set { p with ptr := p.ptr + 1 }
  pure (p.buffer p.ptr)

end Calls

inductive Call where
  | randomBlock (addr : Nat) (data : Nat → Block) (nblocks : Int)
  | randomData (addr : Nat) (data : Nat → UInt8) (nbytes : Int)
  | randomDataUnaligned (addr : Nat) (data : Nat → UInt8) (nbytes : Int)
  | randomBool (data : Nat → Bool) (length : Int)
  | next
  | seek (blockCounter : UInt64)

inductive Result where
  | blocks (data : Nat → Block)
  | bytes (data : Nat → UInt8)
  | bools (data : Nat → Bool)
  | word (w : UInt64)
  | none

variable {AesKey : Type} (cipher : Cipher AesKey) (tiers : Tiers)

def Call.perform : Call → PrgM AesKey Result
  | .randomBlock addr data nblocks => .blocks <$> Prg.randomBlock cipher tiers addr data nblocks
  | .randomData addr data nbytes => .bytes <$> Prg.randomData cipher tiers addr data nbytes
  | .randomDataUnaligned addr data nbytes =>
    .bytes <$> Prg.randomDataUnaligned cipher tiers addr data nbytes
  | .randomBool data length => .bools <$> Prg.randomBool cipher tiers data length
  | .next => .word <$> Prg.next cipher tiers
  | .seek blockCounter => (fun _ => .none) <$> Prg.seek blockCounter

def runCalls (calls : List Call) : PrgM AesKey (List Result) :=
  calls.mapM (Call.perform cipher tiers)

def outputs (calls : List Call) (p : Prg AesKey) : Except String (List Result) :=
  (runCalls cipher tiers calls).run' p

end Prg

end EmpTool.Crypto
