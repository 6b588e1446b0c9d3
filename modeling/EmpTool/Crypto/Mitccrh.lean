import EmpTool.Crypto.AesTiles
import EmpTool.Runtime.Error

namespace EmpTool.Crypto

open Memory

structure BatchSize where
  count : Nat
  pos : 0 < count
  int : count < 2 ^ 31

structure Mitccrh (AesKey : Type) where
  scheduledKey : Nat → AesKey
  keys : Nat → Block
  keyUsed : Int
  startPoint : Block
  gid : UInt64
  scheduledBucket : UInt64
  laneGid0 : UInt64

namespace Mitccrh

variable {AesKey : Type} (aes : Aes AesKey) (tiers : Tiers) (batchSize : BatchSize)
  (reuseShift : Fin 32)

def noBucket : UInt64 := ~~~0

def bucketOf (gid : UInt64) : UInt64 := gid >>> UInt64.ofNat reuseShift.val

def setS (sin : Block) (m : Mitccrh AesKey) : Mitccrh AesKey :=
  { m with
    startPoint := sin
    gid := 0
    keyUsed := batchSize.count
    scheduledBucket := noBucket
    laneGid0 := 0 }

def aesOptKeySchedule (numKeys : Nat) (userKey : Nat → Block) (keys : Nat → AesKey) :
    Nat → AesKey :=
  storeRange numKeys 0 (fun i => aes.schedule (userKey i)) keys

def scheduleBuckets (numKeys : Nat) (bucket : Nat → UInt64) (m : Mitccrh AesKey) :
    Mitccrh AesKey :=
  let keys := storeRange numKeys 0 (fun i => m.startPoint ^^^ makeBlock (bucket i) 0) m.keys
  { m with
    keys := keys
    scheduledKey := aesOptKeySchedule aes numKeys keys m.scheduledKey }

def rekey (m : Mitccrh AesKey) : Mitccrh AesKey :=
  if reuseShift.val = 0 then
    scheduleBuckets aes batchSize.count (fun i => m.gid + UInt64.ofNat i) m
  else
    let first := bucketOf reuseShift m.gid
    let last := bucketOf reuseShift (m.gid + UInt64.ofNat batchSize.count - 1)
    if first = last then
      if first ≠ m.scheduledBucket then
        { scheduleBuckets aes 1 (fun _ => first) m with scheduledBucket := first }
      else m
    else
      { scheduleBuckets aes batchSize.count
          (fun i => bucketOf reuseShift (m.gid + UInt64.ofNat i)) m with
        scheduledBucket := noBucket }

def renewKs (m : Mitccrh AesKey) : Mitccrh AesKey :=
  let m := rekey aes batchSize reuseShift { m with laneGid0 := m.gid }
  { m with
    gid := m.gid + UInt64.ofNat batchSize.count
    keyUsed := 0 }

def renewKsAt (gid : UInt64) (m : Mitccrh AesKey) : Mitccrh AesKey :=
  renewKs aes batchSize reuseShift { m with gid := gid }

def consume (tile : MemTile AesKey Block) (K H dst src : Nat) (m : Mitccrh AesKey)
    (mem : Nat → Block) : Except String (Mitccrh AesKey × (Nat → Block)) := do
  let reach ← addInt m.keyUsed K
  let m := if reach > batchSize.count then renewKs aes batchSize reuseShift m else m
  let g0 := m.laneGid0 + UInt64.ofInt m.keyUsed
  let mem :=
    if 0 < reuseShift.val ∧ m.scheduledBucket ≠ noBucket then
      paraEncMemTilesImpl tile tiers 1 (K * H) dst src m.scheduledKey
        (fun _ => makeBlock g0 0) mem
    else
      paraEncMemTilesImpl tile tiers K H dst src (fun k => m.scheduledKey (m.keyUsed.toNat + k))
        (fun k => makeBlock (g0 + UInt64.ofNat k) 0) mem
  let used ← addInt m.keyUsed K
  pure ({ m with keyUsed := used }, mem)

def hashCir (K H out inp : Nat) (m : Mitccrh AesKey) (mem : Nat → Block) :
    Except String (Mitccrh AesKey × (Nat → Block)) :=
  consume aes tiers batchSize reuseShift (aesMemXorSigmaTweakTile aes tiers H) K H out inp m mem

def hash (K H out inp : Nat) (m : Mitccrh AesKey) (mem : Nat → Block) :
    Except String (Mitccrh AesKey × (Nat → Block)) :=
  consume aes tiers batchSize reuseShift (aesMemXorInputTweakTile aes tiers H) K H out inp m mem

end Mitccrh

end EmpTool.Crypto
