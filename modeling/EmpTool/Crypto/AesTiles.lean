import EmpTool.Crypto.Block
import EmpTool.Library.Memory

namespace EmpTool.Crypto

open Memory

structure Aes (AesKey : Type) where
  schedule : Block → AesKey
  encrypt : AesKey → Block → Block

structure Tiers where
  vaes256 : Bool
  vaes512 : Bool

abbrev Vec := Nat → Block

-- lane `j` of a vector register holds one block, whatever the register's width
namespace Lane

def broadcast (k : Block) : Vec := fun _ => k

def load (mem : Nat → Block) (p : Nat) : Vec := fun j => mem (p + j)

def store (n p : Nat) (v : Vec) (mem : Nat → Block) : Nat → Block := storeRange n p v mem

def xorv (a b : Vec) : Vec := fun j => a j ^^^ b j

def sigma (a : Vec) : Vec := fun j => (a j).sigma

def add64 (a b : Vec) : Vec := fun j => (a j).add64 (b j)

def laneOffsets (span b0 : Nat) : Vec :=
  fun j => makeBlock (UInt64.ofNat ((b0 + j) / span)) 0

end Lane

section Kernel

variable {AesKey : Type} (aes : Aes AesKey) (tiers : Tiers)

def encryptLanes (kk : AesKey) (v : Vec) : Vec := fun j => aes.encrypt kk (v j)

-- the 512-bit path loads every tile of a group before it stores the first
def aesTilesSrc (n nTiles : Nat) (src : (Nat → Block) → Nat → Vec)
    (store : Nat → Vec → Vec → (Nat → Block) → Nat → Block) (kk : AesKey) (mem : Nat → Block) :
    Nat → Block :=
  if tiers.vaes512 && n == 4 && decide (1 < nTiles) && decide (nTiles ≤ 4) then
    (List.range nTiles).foldl
      (fun m t => store t (encryptLanes aes kk (src mem t)) (src mem t) m) mem
  else
    (List.range nTiles).foldl (fun m t => store t (encryptLanes aes kk (src m t)) (src m t) m) mem

theorem aesTilesSrc_eq {n nTiles dst base : Nat} {src : (Nat → Block) → Nat → Vec}
    {store : Nat → Vec → Vec → (Nat → Block) → Nat → Block} {kk : AesKey}
    (plain : Nat → Block → Block) (out : Block → Block → Block)
    (hsrc : ∀ mem t j, src mem t j = plain (t * n + j) (mem (base + t * n + j)))
    (hstore : ∀ t x pt mem,
      store t x pt mem = storeRange n (dst + t * n) (fun j => out (x j) (pt j)) mem)
    (h : Separate (nTiles * n) dst base) (mem : Nat → Block) :
    aesTilesSrc aes tiers n nTiles src store kk mem =
      mapRange (fun b x => out (aes.encrypt kk (plain b x)) (plain b x)) (nTiles * n) dst base
        mem := by
  rw [aesTilesSrc]
  split
  · rw [mapRange, ← foldl_storeRange]
    simp only [hstore, hsrc, encryptLanes, Nat.add_assoc]
  · refine foldl_mapRange h (fun t m => store t (encryptLanes aes kk (src m t)) (src m t) m) ?_ mem
    intro t _ m
    simp only [hstore, hsrc, encryptLanes, mapRange]

theorem aesTilesSrc_congr {n nTiles : Nat}
    {src src' : (Nat → Block) → Nat → Vec} {store : Nat → Vec → Vec → (Nat → Block) → Nat → Block}
    {kk : AesKey} (h : ∀ mem, ∀ t < nTiles, src mem t = src' mem t) {mem : Nat → Block} :
    aesTilesSrc aes tiers n nTiles src store kk mem =
      aesTilesSrc aes tiers n nTiles src' store kk mem := by
  rw [aesTilesSrc, aesTilesSrc]
  split
  · exact List.foldl_ext _ _ _ fun m t ht => by rw [h mem t (List.mem_range.mp ht)]
  · exact List.foldl_ext _ _ _ fun m t ht => by rw [h m t (List.mem_range.mp ht)]

end Kernel

abbrev MemTile (AesKey Aux : Type) :=
  (n nTiles dst src : Nat) → AesKey → (off : Nat) → Aux → (Nat → Block) → Nat → Block

section Tiles

variable {AesKey : Type} (aes : Aes AesKey) (tiers : Tiers)

def aesMemXorTweakTile (input : Vec → Vec) (span : Nat) : MemTile AesKey Block :=
  fun n nTiles dst src kk off tb =>
    let base := Lane.broadcast tb
    aesTilesSrc aes tiers n nTiles
      (fun mem t => Lane.xorv (input (Lane.load mem (src + t * n)))
        (Lane.add64 base (Lane.laneOffsets span (off + t * n))))
      (fun t x pt => Lane.store n (dst + t * n) (Lane.xorv x pt)) kk

def aesMemXorInputTweakTile (span : Nat) : MemTile AesKey Block :=
  aesMemXorTweakTile aes tiers id span

def aesMemXorSigmaTweakTile (span : Nat) : MemTile AesKey Block :=
  aesMemXorTweakTile aes tiers Lane.sigma span

end Tiles

section Grouping

variable {AesKey Aux : Type} (tile : MemTile AesKey Aux)

def applyGrouped (n : Nat) : (nTiles dst src : Nat) → AesKey → (off : Nat) → Aux →
    (Nat → Block) → Nat → Block
  | nTiles + 5, dst, src, kk, off, aux, mem =>
    applyGrouped n (nTiles + 1) (dst + 4 * n) (src + 4 * n) kk (off + 4 * n) aux
      (tile n 4 dst src kk off aux mem)
  | 0, _, _, _, _, _, mem => mem
  | nTiles + 1, dst, src, kk, off, aux, mem => tile n (nTiles + 1) dst src kk off aux mem

def paraEncKey (tiers : Tiers) (numEncs pd ps : Nat) (kk : AesKey) (aux : Aux)
    (mem : Nat → Block) : Nat → Block :=
  let w4 := if tiers.vaes512 then 4 else 0
  let n4 := if tiers.vaes512 then numEncs / 4 else 0
  let w2 := if tiers.vaes256 then 2 else 0
  let n2 := if tiers.vaes256 then (numEncs - n4 * w4) / 2 else 0
  let n1 := numEncs - n4 * w4 - n2 * w2
  let mem := if 0 < n4 then applyGrouped tile 4 n4 pd ps kk 0 aux mem else mem
  let mem := if 0 < n2 then
    tile 2 n2 (pd + n4 * w4) (ps + n4 * w4) kk (n4 * w4) aux mem else mem
  if 0 < n1 then
    tile 1 n1 (pd + n4 * w4 + n2 * w2) (ps + n4 * w4 + n2 * w2) kk (n4 * w4 + n2 * w2) aux mem
  else mem

def paraEncMemTilesImpl (tiers : Tiers) (numKeys numEncs dst src : Nat) (keys : Nat → AesKey)
    (aux : Nat → Aux) (mem : Nat → Block) : Nat → Block :=
  (List.range numKeys).foldl (fun mem k =>
    paraEncKey tile tiers numEncs (dst + k * numEncs) (src + k * numEncs) (keys k) (aux k) mem) mem

end Grouping

section Spec

variable {AesKey Aux : Type}

def Blockwise (f : AesKey → Aux → Nat → Block → Block) (tile : MemTile AesKey Aux) : Prop :=
  ∀ n nTiles dst src kk off aux mem, Separate (nTiles * n) dst src →
    tile n nTiles dst src kk off aux mem =
      mapRange (fun b => f kk aux (off + b)) (nTiles * n) dst src mem

def tweakBlock (aes : Aes AesKey) (pre : Block → Block) (span : Nat) (kk : AesKey) (tb : Block)
    (b : Nat) (x : Block) : Block :=
  let y := pre x ^^^ tb.add64 (makeBlock (UInt64.ofNat (b / span)) 0)
  aes.encrypt kk y ^^^ y

theorem aesMemXorTweakTile_blockwise (aes : Aes AesKey) (tiers : Tiers) {input : Vec → Vec}
    {pre : Block → Block} (hinput : ∀ v j, input v j = pre (v j)) (span : Nat) :
    Blockwise (tweakBlock aes pre span) (aesMemXorTweakTile aes tiers input span) := by
  intro n nTiles dst src kk off tb mem h
  simp only [aesMemXorTweakTile]
  refine aesTilesSrc_eq aes tiers
    (fun b x => pre x ^^^ tb.add64 (makeBlock (UInt64.ofNat ((off + b) / span)) 0))
    (fun x y => x ^^^ y) ?_ ?_ h mem
  · intro mem t j
    simp only [Lane.xorv, Lane.add64, Lane.broadcast, Lane.laneOffsets, Lane.load, hinput,
      Nat.add_assoc]
  · intro t x pt mem
    rfl

variable {f : AesKey → Aux → Nat → Block → Block} {tile : MemTile AesKey Aux}

theorem Blockwise.applyGrouped (hf : Blockwise f tile) (n : Nat) (kk : AesKey) (aux : Aux)
    {nTiles dst src off : Nat} (h : Separate (nTiles * n) dst src) (mem : Nat → Block) :
    applyGrouped tile n nTiles dst src kk off aux mem =
      mapRange (fun b => f kk aux (off + b)) (nTiles * n) dst src mem := by
  induction nTiles using Nat.strongRecOn generalizing dst src off mem with
  | ind nTiles ih =>
    rcases Nat.lt_or_ge 4 nTiles with hg | hg
    · obtain ⟨rest, rfl⟩ : ∃ rest, nTiles = rest + 5 := ⟨nTiles - 5, by omega⟩
      have hn : (rest + 5) * n = 4 * n + (rest + 1) * n := by
        rw [← Nat.add_mul, Nat.add_comm 4]
      rw [hn] at h ⊢
      rw [Crypto.applyGrouped, ih _ (by omega) (h.shift (Nat.le_refl _)),
        hf _ _ _ _ _ _ _ _ (h.take (Nat.le_add_right _ _)), ← mapRange_append h]
      simp only [Nat.add_assoc]
    · rcases nTiles with - | rest
      · rw [Crypto.applyGrouped, Nat.zero_mul, mapRange_zero]
      · rw [Crypto.applyGrouped, hf _ _ _ _ _ _ _ _ h]
        intro k hk
        omega

theorem Blockwise.extend (hf : Blockwise f tile) {w n dst src m : Nat} (kk : AesKey) (aux : Aux)
    (h : Separate (m + n * w) dst src) (mem : Nat → Block) :
    (if 0 < n then tile w n (dst + m) (src + m) kk m aux (mapRange (f kk aux) m dst src mem)
      else mapRange (f kk aux) m dst src mem) = mapRange (f kk aux) (m + n * w) dst src mem := by
  split
  · rw [hf _ _ _ _ _ _ _ _ (h.shift (Nat.le_refl _)), mapRange_append h]
  · have hn : n = 0 := by omega
    rw [hn, Nat.zero_mul, Nat.add_zero]

theorem lane_share (available : Bool) (blocks w : Nat) :
    (if available then blocks / w else 0) * (if available then w else 0) =
        (if available then blocks / w else 0) * w ∧
      (if available then blocks / w else 0) * w ≤ blocks := by
  cases available with
  | false => simp
  | true => simpa using Nat.div_mul_le_self blocks w

theorem Blockwise.paraEncKey (hf : Blockwise f tile) (tiers : Tiers) {numEncs pd ps : Nat}
    (kk : AesKey) (aux : Aux) (h : Separate numEncs pd ps) (mem : Nat → Block) :
    paraEncKey tile tiers numEncs pd ps kk aux mem = mapRange (f kk aux) numEncs pd ps mem := by
  simp only [Crypto.paraEncKey]
  have h4 := lane_share tiers.vaes512 numEncs 4
  rw [h4.1]
  generalize (if tiers.vaes512 then numEncs / 4 else 0) = n4 at h4 ⊢
  have h2 := lane_share tiers.vaes256 (numEncs - n4 * 4) 2
  rw [h2.1]
  generalize (if tiers.vaes256 then (numEncs - n4 * 4) / 2 else 0) = n2 at h2 ⊢
  have upto : n4 * 4 + n2 * 2 ≤ numEncs := by omega
  have first : (if 0 < n4 then Crypto.applyGrouped tile 4 n4 pd ps kk 0 aux mem else mem) =
      mapRange (f kk aux) (n4 * 4) pd ps mem := by
    split
    · rw [hf.applyGrouped 4 kk aux (h.take h4.2)]
      simp only [Nat.zero_add]
    · have hz : n4 = 0 := by omega
      rw [hz, Nat.zero_mul, mapRange_zero]
  have all : numEncs = n4 * 4 + n2 * 2 + (numEncs - n4 * 4 - n2 * 2) * 1 := by omega
  rw [first, hf.extend kk aux (h.take upto), Nat.add_assoc pd, Nat.add_assoc ps,
    hf.extend kk aux (all ▸ h), ← all]

theorem Blockwise.paraEnc (hf : Blockwise f tile) (tiers : Tiers) {numKeys numEncs dst src : Nat}
    (keys : Nat → AesKey) (aux : Nat → Aux) (h : Separate (numKeys * numEncs) dst src)
    (mem : Nat → Block) :
    paraEncMemTilesImpl tile tiers numKeys numEncs dst src keys aux mem =
      mapRange (fun b => f (keys (b / numEncs)) (aux (b / numEncs)) (b % numEncs))
        (numKeys * numEncs) dst src mem := by
  refine foldl_mapRange h (fun k mem => Crypto.paraEncKey tile tiers numEncs (dst + k * numEncs)
    (src + k * numEncs) (keys k) (aux k) mem) ?_ mem
  intro k hk mem
  have hle : k * numEncs + numEncs ≤ numKeys * numEncs := by
    rw [← Nat.succ_mul]
    exact Nat.mul_le_mul_right _ hk
  rw [hf.paraEncKey tiers _ _ (h.shift hle)]
  refine mapRange_congr fun j hj x => ?_
  rw [stride_div k hj, stride_mod k hj]

end Spec

end EmpTool.Crypto
