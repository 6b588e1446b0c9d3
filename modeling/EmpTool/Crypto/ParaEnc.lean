import EmpTool.Crypto.AesCtr
import EmpTool.Crypto.KeySchedule

namespace EmpTool.Crypto

open AesNi Memory

def Lane.aesenc (s k : Vec) : Vec := fun j => AesNi.aesenc (s j) (k j)

def Lane.aesenclast (s k : Vec) : Vec := fun j => AesNi.aesenclast (s j) (k j)

section Kernel

variable (aarch64 : Bool) (tiers : Tiers)

def laneRounds (rk : Nat → Vec) (pt : Vec) : Vec :=
  let x := Lane.xorv pt (rk 0)
  let x := (List.range' 1 9).foldl (fun x r => Lane.aesenc x (rk r)) x
  Lane.aesenclast x (rk 10)

def armLaneRounds (rk : Nat → Vec) (pt : Vec) : Vec :=
  let x := (List.range 9).foldl (fun x r j => aesmc (aese (x j) (rk r j))) pt
  let x := fun j => aese (x j) (rk 9 j)
  Lane.xorv x (rk 10)

-- `aes_tiles_src` with its rounds; in the first branch a group of tiles goes round by round
def aesTilesRounds (n nTiles : Nat) (src : (Nat → Block) → Nat → Vec)
    (store : Nat → Vec → Vec → (Nat → Block) → Nat → Block) (kk : AesKey) (mem : Nat → Block) :
    Nat → Block :=
  if nTiles = 0 then mem
  else
    let rk := fun r => Lane.broadcast (kk.rdKey r)
    if tiers.vaes512 && n == 4 && decide (1 < nTiles) && decide (nTiles ≤ 4) then
      let pt := fun t => src mem t
      let x := fun t => Lane.xorv (pt t) (rk 0)
      let x := (List.range' 1 9).foldl (fun x r =>
        (List.range nTiles).foldl (fun x t => Function.update x t (Lane.aesenc (x t) (rk r))) x) x
      (List.range nTiles).foldl (fun mem t =>
        store t (Lane.aesenclast (x t) (rk 10)) (pt t) mem) mem
    else
      (List.range nTiles).foldl (fun mem t =>
        let pt := src mem t
        if aarch64 && n == 1 then store t (armLaneRounds rk pt) pt mem
        else store t (laneRounds rk pt) pt mem) mem

def aesTiles : MemTile AesKey Unit := fun n nTiles dst src kk _ _ =>
  aesTilesRounds aarch64 tiers n nTiles (fun mem t => Lane.load mem (src + t * n))
    (fun t x _ => Lane.store n (dst + t * n) x) kk

def aesTilesXor (input : Vec → Vec) : MemTile AesKey Unit := fun n nTiles dst src kk _ _ =>
  aesTilesRounds aarch64 tiers n nTiles (fun mem t => input (Lane.load mem (src + t * n)))
    (fun t x pt => Lane.store n (dst + t * n) (Lane.xorv x pt)) kk

def aesMemPlainTile : MemTile AesKey Unit := aesTiles aarch64 tiers

def aesMemXorInputTile : MemTile AesKey Unit := aesTilesXor aarch64 tiers id

def aesMemXorSigmaTile : MemTile AesKey Unit := aesTilesXor aarch64 tiers Lane.sigma

end Kernel

section Ladders

variable (tiers : Tiers) (tile : MemTile AesKey Unit)

structure MemTileOp where
  pd : Nat
  ps : Nat
  mem : Nat → Block

def MemTileOp.run (kk : AesKey) (w : Nat) (op : MemTileOp) : MemTileOp where
  pd := op.pd + w
  ps := op.ps + w
  mem := paraEncMemTilesImpl tile tiers 1 w op.pd op.ps (fun _ => kk) (fun _ => ()) op.mem

def paraEncMemTilesRuntimeImpl (dst src : Nat) (keys : Nat → AesKey) (K N : Nat)
    (mem : Nat → Block) : Nat → Block :=
  (List.range K).foldl (fun mem k =>
    (drainTiles tiers (MemTileOp.run tiers tile (keys k)) N
      ⟨dst + k * N, src + k * N, mem⟩).mem) mem

end Ladders

section Callers

variable (aarch64 : Bool) (tiers : Tiers)

def paraEncImpl (numKeys numEncs dst src : Nat) (keys : Nat → AesKey) (mem : Nat → Block) :
    Nat → Block :=
  paraEncMemTilesImpl (aesMemPlainTile aarch64 tiers) tiers numKeys numEncs dst src keys
    (fun _ => ()) mem

def paraEncRuntimeImpl (dst src : Nat) (keys : Nat → AesKey) (K N : Nat) (mem : Nat → Block) :
    Nat → Block :=
  paraEncMemTilesRuntimeImpl tiers (aesMemPlainTile aarch64 tiers) dst src keys K N mem

structure Ccrh where
  aes : AesKey

namespace Ccrh

-- `raw` is the storage the round keys are written to
def construct (raw : AesKey) (key : Block) : Ccrh := ⟨aesSetEncryptKey key raw⟩

def h (c : Ccrh) (x : Block) : Block :=
  paraEncMemTilesImpl (aesMemXorInputTile aarch64 tiers) tiers 1 1 0 0 (fun _ => c.aes)
    (fun _ => ()) (fun _ => x.sigma) 0

def hBlocks (c : Ccrh) (n out inp : Nat) (mem : Nat → Block) : Nat → Block :=
  paraEncMemTilesImpl (aesMemXorSigmaTile aarch64 tiers) tiers 1 n out inp (fun _ => c.aes)
    (fun _ => ()) mem

def hn (c : Ccrh) (out inp : Nat) (length : Int) (mem : Nat → Block) : Nat → Block :=
  if length ≤ 0 then mem
  else
    (drainTiles tiers (MemTileOp.run tiers (aesMemXorSigmaTile aarch64 tiers) c.aes) length.toNat
      ⟨out, inp, mem⟩).mem

end Ccrh

end Callers

def aesNi : Aes AesKey where
  schedule b := aesSetEncryptKey b ⟨fun _ => zeroBlock⟩
  encrypt := encrypt

theorem aesNi_encrypt : aesNi.encrypt = encrypt := rfl

section Rounds

variable {aarch64 : Bool} {tiers : Tiers}

theorem foldl_at {ι α : Type} (g : Nat → ι → α → α) (rounds : List Nat) (x : ι → α) (i : ι) :
    rounds.foldl (fun x r i => g r i (x i)) x i = rounds.foldl (fun y r => g r i y) (x i) := by
  induction rounds generalizing x with
  | nil => rfl
  | cons r rounds ih => rw [List.foldl_cons, ih, List.foldl_cons]

theorem foldl_update_below {α : Type} (f : α → α) (n : Nat) (x : Nat → α) :
    (List.range n).foldl (fun x t => Function.update x t (f (x t))) x =
      fun t => if t < n then f (x t) else x t := by
  induction n with
  | zero => rfl
  | succ n ih =>
    rw [List.range_succ, List.foldl_append, ih]
    funext t
    simp only [List.foldl_cons, List.foldl_nil, Nat.lt_irrefl, if_false]
    rcases Nat.lt_trichotomy t n with ht | rfl | ht
    · rw [Function.update_of_ne (Nat.ne_of_lt ht), if_pos ht, if_pos (Nat.lt_succ_of_lt ht)]
    · rw [Function.update_self, if_pos (Nat.lt_succ_self t)]
    · rw [Function.update_of_ne (Nat.ne_of_gt ht), if_neg (by omega), if_neg (by omega)]

theorem middle_at (kk : AesKey) (pt : Vec) (j : Nat) :
    (List.range' 1 9).foldl (fun x r => Lane.aesenc x (Lane.broadcast (kk.rdKey r)))
        (Lane.xorv pt (Lane.broadcast (kk.rdKey 0))) j =
      (List.range' 1 9).foldl (fun x r => AesNi.aesenc x (kk.rdKey r)) (pt j ^^^ kk.rdKey 0) :=
  foldl_at (fun r (_ : Nat) x => AesNi.aesenc x (kk.rdKey r)) (List.range' 1 9)
    (Lane.xorv pt (Lane.broadcast (kk.rdKey 0))) j

theorem laneRounds_eq (kk : AesKey) (pt : Vec) :
    laneRounds (fun r => Lane.broadcast (kk.rdKey r)) pt = encryptLanes aesNi kk pt := by
  funext j
  rw [laneRounds, Lane.aesenclast, middle_at]
  exact rounds_eq kk (pt j)

theorem armLaneRounds_eq (kk : AesKey) (pt : Vec) :
    armLaneRounds (fun r => Lane.broadcast (kk.rdKey r)) pt = encryptLanes aesNi kk pt := by
  funext j
  have hmiddle := foldl_at (fun r (_ : Nat) x => aesmc (aese x (kk.rdKey r))) (List.range 9) pt j
  show aese (List.foldl (fun x r j => aesmc (aese (x j) (kk.rdKey r))) pt (List.range 9) j)
    (kk.rdKey 9) ^^^ kk.rdKey 10 = _
  rw [hmiddle]
  exact (armRounds_eq kk (pt j)).trans (rounds_eq kk (pt j))

theorem grouped_at (rk : Nat → Vec) (rounds : List Nat) (x : Nat → Vec) {nTiles t : Nat}
    (ht : t < nTiles) :
    rounds.foldl (fun x r => (List.range nTiles).foldl
        (fun x t => Function.update x t (Lane.aesenc (x t) (rk r))) x) x t =
      rounds.foldl (fun y r => Lane.aesenc y (rk r)) (x t) := by
  induction rounds generalizing x with
  | nil => rfl
  | cons r rounds ih =>
    rw [List.foldl_cons, ih, foldl_update_below fun v => Lane.aesenc v (rk r), List.foldl_cons]
    simp only [if_pos ht]

theorem aesTilesRounds_eq (n nTiles : Nat) (src : (Nat → Block) → Nat → Vec)
    (store : Nat → Vec → Vec → (Nat → Block) → Nat → Block) (kk : AesKey) (mem : Nat → Block) :
    aesTilesRounds aarch64 tiers n nTiles src store kk mem =
      aesTilesSrc aesNi tiers n nTiles src store kk mem := by
  unfold aesTilesRounds aesTilesSrc
  by_cases hz : nTiles = 0
  · subst hz
    rw [if_pos rfl]
    split <;> rfl
  · rw [if_neg hz]
    split
    case isTrue =>
      refine List.foldl_ext _ _ _ fun m t ht => ?_
      rw [← laneRounds_eq, laneRounds, grouped_at _ _ _ (List.mem_range.mp ht)]
    case isFalse =>
      refine List.foldl_ext _ _ _ fun m t _ => ?_
      simp only [armLaneRounds_eq, laneRounds_eq, ite_self]

end Rounds

section Blocks

variable {aarch64 : Bool} {tiers : Tiers}

def xorBack (pre : Block → Block) (kk : AesKey) (x : Block) : Block := encrypt kk (pre x) ^^^ pre x

theorem aesTiles_blockwise :
    Blockwise (fun kk _ _ x => encrypt kk x) (aesMemPlainTile aarch64 tiers) := by
  intro n nTiles dst src kk off aux mem h
  rw [aesMemPlainTile, aesTiles, aesTilesRounds_eq]
  refine (aesTilesSrc_eq aesNi tiers (fun _ x => x) (fun x _ => x) ?_ ?_ h mem).trans ?_
  · intro mem t j
    rfl
  · intro t x pt mem
    rfl
  · simp only [aesNi_encrypt]

theorem aesTilesXor_blockwise {input : Vec → Vec} {pre : Block → Block}
    (hinput : ∀ v j, input v j = pre (v j)) :
    Blockwise (fun kk _ _ => xorBack pre kk) (aesTilesXor aarch64 tiers input) := by
  intro n nTiles dst src kk off aux mem h
  rw [aesTilesXor, aesTilesRounds_eq]
  refine (aesTilesSrc_eq aesNi tiers (fun _ x => pre x) (fun x y => x ^^^ y) ?_ ?_ h mem).trans ?_
  · intro mem t j
    exact hinput _ _
  · intro t x pt mem
    rfl
  · rw [aesNi_encrypt]
    rfl

theorem inputTile_blockwise :
    Blockwise (fun kk _ _ => xorBack id kk) (aesMemXorInputTile aarch64 tiers) :=
  aesTilesXor_blockwise fun _ _ => rfl

theorem sigmaTile_blockwise :
    Blockwise (fun kk _ _ => xorBack Block.sigma kk) (aesMemXorSigmaTile aarch64 tiers) :=
  aesTilesXor_blockwise fun _ _ => rfl

variable {f : AesKey → Block → Block} {tile : MemTile AesKey Unit}

theorem staticTiles (hf : Blockwise (fun kk _ _ => f kk) tile) {numKeys numEncs dst src : Nat}
    (keys : Nat → AesKey) (h : Separate (numKeys * numEncs) dst src) (mem : Nat → Block) :
    paraEncMemTilesImpl tile tiers numKeys numEncs dst src keys (fun _ => ()) mem =
      mapRange (fun b => f (keys (b / numEncs))) (numKeys * numEncs) dst src mem :=
  hf.paraEnc tiers keys (fun _ => ()) h mem

theorem oneKeyTiles (hf : Blockwise (fun kk _ _ => f kk) tile) {n dst src : Nat} (kk : AesKey)
    (h : Separate n dst src) (mem : Nat → Block) :
    paraEncMemTilesImpl tile tiers 1 n dst src (fun _ => kk) (fun _ => ()) mem =
      mapRange (fun _ => f kk) n dst src mem := by
  rw [← Nat.one_mul n] at h
  rw [staticTiles hf _ h, Nat.one_mul]

def MemTileOp.passed (f : AesKey → Block → Block) (kk : AesKey) (op : MemTileOp) (m : Nat) :
    MemTileOp where
  pd := op.pd + m
  ps := op.ps + m
  mem := mapRange (fun _ => f kk) m op.pd op.ps op.mem

theorem run_passed (hf : Blockwise (fun kk _ _ => f kk) tile) (kk : AesKey) (op : MemTileOp)
    {m w : Nat} (h : Separate (m + w) op.pd op.ps) :
    MemTileOp.run tiers tile kk w (op.passed f kk m) = op.passed f kk (m + w) := by
  simp only [MemTileOp.run, MemTileOp.passed, MemTileOp.mk.injEq]
  refine ⟨Nat.add_assoc _ _ _, Nat.add_assoc _ _ _, ?_⟩
  rw [oneKeyTiles hf kk (h.shift (Nat.le_refl _))]
  exact mapRange_append h op.mem

theorem drained (hf : Blockwise (fun kk _ _ => f kk) tile) (kk : AesKey) {n : Nat} (op : MemTileOp)
    (h : Separate n op.pd op.ps) :
    (drainTiles tiers (MemTileOp.run tiers tile kk) n op).mem =
      mapRange (fun _ => f kk) n op.pd op.ps op.mem := by
  have hstart : op.passed f kk 0 = op := by
    cases op
    simp [MemTileOp.passed, mapRange_zero]
  have hdone := @drainTiles_done tiers _ (MemTileOp.run tiers tile kk) (op.passed f kk) n
    fun m w hm => run_passed hf kk op (h.take hm)
  rw [hstart] at hdone
  rw [hdone]
  rfl

theorem runtimeTiles (hf : Blockwise (fun kk _ _ => f kk) tile) {K N dst src : Nat}
    (keys : Nat → AesKey) (h : Separate (K * N) dst src) (mem : Nat → Block) :
    paraEncMemTilesRuntimeImpl tiers tile dst src keys K N mem =
      mapRange (fun b => f (keys (b / N))) (K * N) dst src mem := by
  refine foldl_mapRange h (fun k mem => (drainTiles tiers (MemTileOp.run tiers tile (keys k)) N
    ⟨dst + k * N, src + k * N, mem⟩).mem) ?_ mem
  intro k hk mem
  have hle : k * N + N ≤ K * N := by
    rw [← Nat.succ_mul]
    exact Nat.mul_le_mul_right _ hk
  rw [drained hf (keys k) _ (h.shift hle)]
  refine mapRange_congr fun j hj x => ?_
  rw [stride_div k hj]

def aes128Block (key x : Block) : Block :=
  blockOfState (Circuits.Fips197.aes128 (stateOf key) (stateOf x))

theorem encrypt_construct (raw : AesKey) (key x : Block) :
    encrypt (Ccrh.construct raw key).aes x = aes128Block key x := by
  rw [encrypt, Ccrh.construct, aesSetEncryptKey, roundWords_schedule Nat.zero_lt_one]
  rfl

def ccrhBlock (key x : Block) : Block := aes128Block key x.sigma ^^^ x.sigma

theorem xorBack_construct (raw : AesKey) (key x : Block) :
    xorBack Block.sigma (Ccrh.construct raw key).aes x = ccrhBlock key x := by
  rw [xorBack, encrypt_construct, ccrhBlock]

variable {raw : AesKey} {key : Block}

theorem ccrh_hBlocks {n out inp : Nat} (h : Separate n out inp) (mem : Nat → Block) :
    (Ccrh.construct raw key).hBlocks aarch64 tiers n out inp mem =
      mapRange (fun _ => ccrhBlock key) n out inp mem := by
  rw [Ccrh.hBlocks, oneKeyTiles sigmaTile_blockwise _ h]
  exact mapRange_congr fun _ _ x => xorBack_construct raw key x

theorem ccrh_hn {n out inp : Nat} (h : Separate n out inp) (mem : Nat → Block) :
    (Ccrh.construct raw key).hn aarch64 tiers out inp n mem =
      mapRange (fun _ => ccrhBlock key) n out inp mem := by
  unfold Ccrh.hn
  split
  case isTrue hnone =>
    have hz : n = 0 := by omega
    rw [hz, mapRange_zero]
  case isFalse =>
    have hpass := @drained tiers _ _ (@sigmaTile_blockwise aarch64 tiers)
      (Ccrh.construct raw key).aes n ⟨out, inp, mem⟩ h
    rw [Int.toNat_natCast, hpass]
    exact mapRange_congr fun _ _ x => xorBack_construct raw key x

theorem ccrh_h (x : Block) :
    (Ccrh.construct raw key).h aarch64 tiers x = ccrhBlock key x := by
  have hone : Separate 1 0 0 := Or.inl rfl
  rw [Ccrh.h, oneKeyTiles inputTile_blockwise _ hone]
  exact xorBack_construct raw key x

end Blocks

theorem tiled_aes_blockwise (aarch64 : Bool) (tiers : Tiers) :
    (∀ (keys : Nat → AesKey) (K N dst src : Nat) (mem : Nat → Block), Separate (K * N) dst src →
      (∀ k < K, ∀ i < N,
        paraEncRuntimeImpl aarch64 tiers dst src keys K N mem (dst + (k * N + i)) =
          encrypt (keys k) (mem (src + (k * N + i)))) ∧
      (∀ a, a < dst ∨ dst + K * N ≤ a →
        paraEncRuntimeImpl aarch64 tiers dst src keys K N mem a = mem a) ∧
      paraEncImpl aarch64 tiers K N dst src keys mem =
        paraEncRuntimeImpl aarch64 tiers dst src keys K N mem) ∧
    ∀ (raw : AesKey) (key : Block) (n out inp : Nat) (mem : Nat → Block), Separate n out inp →
      let ccrh := Ccrh.construct raw key
      (∀ i < n, ccrh.hn aarch64 tiers out inp n mem (out + i) =
        aes128Block key (mem (inp + i)).sigma ^^^ (mem (inp + i)).sigma) ∧
      (∀ a, a < out ∨ out + n ≤ a → ccrh.hn aarch64 tiers out inp n mem a = mem a) ∧
      ccrh.hBlocks aarch64 tiers n out inp mem = ccrh.hn aarch64 tiers out inp n mem ∧
      ∀ i < n, ccrh.h aarch64 tiers (mem (inp + i)) =
        ccrh.hn aarch64 tiers out inp n mem (out + i) := by
  refine ⟨fun keys K N dst src mem h => ?_, fun raw key n out inp mem h => ?_⟩
  · have hruntime : paraEncRuntimeImpl aarch64 tiers dst src keys K N mem =
        mapRange (fun b => encrypt (keys (b / N))) (K * N) dst src mem :=
      runtimeTiles aesTiles_blockwise keys h mem
    have hstatic : paraEncImpl aarch64 tiers K N dst src keys mem =
        mapRange (fun b => encrypt (keys (b / N))) (K * N) dst src mem :=
      staticTiles aesTiles_blockwise keys h mem
    refine ⟨fun k hk i hi => ?_, fun a ha => ?_, hstatic.trans hruntime.symm⟩
    · have hin : k * N + i < K * N := by
        have hle := Nat.mul_le_mul_right N (Nat.succ_le_of_lt hk)
        rw [Nat.succ_mul] at hle
        omega
      rw [hruntime, mapRange_at hin, stride_div k hi]
    · rw [hruntime, mapRange, storeRange_off ha]
  · refine ⟨fun i hi => ?_, fun a ha => ?_, ?_, fun i hi => ?_⟩
    · rw [ccrh_hn h, mapRange_at hi, ccrhBlock]
    · rw [ccrh_hn h, mapRange, storeRange_off ha]
    · rw [ccrh_hn h, ccrh_hBlocks h]
    · rw [ccrh_hn h, ccrh_h, mapRange_at hi]

def blankKey : AesKey := ⟨fun _ => zeroBlock⟩

def numberedKeys (k : Nat) : AesKey := aesSetEncryptKey (makeBlock 0 (UInt64.ofNat k)) blankKey

def numberedBlocks (a : Nat) : Block := makeBlock 5 (UInt64.ofNat a)

-- six blocks to a place of their own, and five in place
theorem tiled_aes_blockwise_numberedBlocks :
    paraEncRuntimeImpl false ⟨true, true⟩ 0 6 numberedKeys 2 3 numberedBlocks 4 =
        encrypt (numberedKeys 1) (numberedBlocks 10) ∧
      paraEncRuntimeImpl false ⟨true, true⟩ 0 6 numberedKeys 2 3 numberedBlocks 6 =
        numberedBlocks 6 ∧
      (Ccrh.construct blankKey (makeBlock 1 2)).hn true ⟨false, false⟩ 7 7 5 numberedBlocks 11 =
        aes128Block (makeBlock 1 2) (numberedBlocks 11).sigma ^^^ (numberedBlocks 11).sigma := by
  obtain ⟨htiles, -⟩ := tiled_aes_blockwise false ⟨true, true⟩
  obtain ⟨-, hccrh⟩ := tiled_aes_blockwise true ⟨false, false⟩
  obtain ⟨hblocks, hrest, -⟩ := htiles numberedKeys 2 3 0 6 numberedBlocks (Or.inr (Or.inl le_rfl))
  have hhash := (hccrh blankKey (makeBlock 1 2) 5 7 7 numberedBlocks (Or.inl rfl)).1 4 (by decide)
  exact ⟨hblocks 1 (by decide) 1 (by decide), hrest 6 (by decide), hhash⟩

end EmpTool.Crypto
