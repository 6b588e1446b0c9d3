import EmpTool.Runtime.Transpose
import Mathlib.Tactic.Ring

namespace EmpTool.Transpose

open Memory Simd

section Model

structure Patterns where
  patA : Nat → UInt8
  patB : Nat → UInt8
  p0 : Nat → UInt8
  p1 : Nat → UInt8

def makePatterns : Patterns :=
  let p : Patterns := ⟨fun _ => 0, fun _ => 0, fun _ => 0, fun _ => 0⟩
  let p := (List.range 8).foldl (fun p u =>
    (List.range 8).foldl (fun p k =>
      { p with
        patA := Function.update p.patA (8 * u + (7 - k)) (UInt8.ofNat (k * 16 + u))
        patB := Function.update p.patB (8 * u + (7 - k)) (UInt8.ofNat (k * 16 + 8 + u)) }) p) p
  (List.range 4).foldl (fun p b =>
    (List.range 16).foldl (fun p s =>
      let lane := (if s ≥ 8 then 64 else 0) + 8 * (s % 8)
      { p with
        p0 := Function.update p.p0 (16 * b + s) (UInt8.ofNat (lane + b))
        p1 := Function.update p.p1 (16 * b + s) (UInt8.ofNat (lane + b + 4)) }) p) p

def identityWords : Reg := set1Epi64 0x8040201008040201#64

def slabRow (inp : Mem) (bpr t s k : Nat) : Reg :=
  loadu inp (8 * s * bpr * 16 + t * 16 + k * bpr * 16)

-- `held` is what the lanes above the lowest one hold before rows are put there
def fourRows (held : Reg) (row : Nat → Reg) : Reg :=
  let r := inserti32x4 (castsi128Si512 held (row 0)) (row 1) 1
  let r := inserti32x4 r (row 2) 2
  inserti32x4 r (row 3) 3

def gfniBlocks (held : Reg) (row : Nat → Reg) (pat : Nat → UInt8) : Reg :=
  gf2p8affineEpi64Epi8 identityWords
    (permutex2varEpi8 (fourRows held row) pat (fourRows held fun k => row (k + 4))) 0

def perm : List Nat := [0, 2, 1, 3, 4, 6, 5, 7]

def qwordNetwork {α : Type} (r : Nat → Nat → α) : Nat → Nat → α :=
  let t0 := fun j => unpack 8 (j % 2 = 1) (r (j / 2 * 2)) (r (j / 2 * 2 + 1))
  let t1 := fun j => shuffleI64x2 (t0 (j / 4 * 4 + j % 4 / 2)) (t0 (j / 4 * 4 + j % 4 / 2 + 2))
    (if j % 2 = 0 then 0x88 else 0xdd)
  fun j => shuffleI64x2 (t1 (j % 4)) (t1 (j % 4 + 4)) (if j < 4 then 0x88 else 0xdd)

def gfniTransQword8 (r : Nat → Reg) : Nat → Reg :=
  (List.range 8).foldl (fun r' j => Function.update r' (perm.getD j 0) (qwordNetwork r j)) r

def bothGroups (r : Nat → Reg) : Nat → Reg := fun j =>
  if j < 8 then gfniTransQword8 r j else gfniTransQword8 (fun i => r (i + 8)) (j - 8)

def emitGroups (p : Patterns) (r : Nat → Reg) (first dst : Nat) (out : Mem) : Mem :=
  (List.range 8).foldl (fun out u =>
    storeRange 64 (dst + (8 * (u + first) + 4) * 16) (permutex2varEpi8 (r u) p.p1 (r (u + 8)))
      (storeRange 64 (dst + (8 * (u + first) + 0) * 16) (permutex2varEpi8 (r u) p.p0 (r (u + 8)))
        out)) out

def gfniTransEmitTile (p : Patterns) (a bq : Nat → Reg) (dst : Nat) (out : Mem) : Mem :=
  emitGroups p (bothGroups bq) 8 dst (emitGroups p (bothGroups a) 0 dst out)

def gfniTile (held : Reg) (rows : Nat → Nat → Reg) (dst : Nat) : Mem → Mem :=
  gfniTransEmitTile makePatterns (fun s => gfniBlocks held (rows s) makePatterns.patA)
    (fun s => gfniBlocks held (rows s) makePatterns.patB) dst

def sseTransN128Gfni (held : Reg) (out inp : Mem) (ncols : Nat) : Mem :=
  let bpr := ncols / 128
  let out := (List.range (bpr / 2)).foldl (fun out i =>
    let t := 2 * i
    let row := fun lane s k => extracti128 (slabRow inp bpr t s k) lane
    gfniTile held (row 1) ((t + 1) * 128 * 16) (gfniTile held (row 0) (t * 128 * 16) out)) out
  (List.range' (bpr / 2 * 2) (bpr - bpr / 2 * 2)).foldl (fun out t =>
    gfniTile held (slabRow inp bpr t) (t * 128 * 16) out) out

def zipTree {α : Type} (r : Nat → Nat → α) : Nat → Nat → α :=
  let a := fun j => unpack 1 (4 ≤ j) (r (2 * (j % 4))) (r (2 * (j % 4) + 1))
  let b := fun j =>
    let pair := j / 2 % 2 * 4 + j / 4 * 2
    unpack 2 (j % 2 = 1) (a pair) (a (pair + 1))
  fun j => unpack 4 (j % 2 = 1) (b (j / 2)) (b (j / 2 + 4))

def gfniPairs (row : Nat → Reg) (i : Nat) : Reg :=
  gf2p8affineEpi64Epi8 identityWords (zipTree (fun k => row (7 - k)) i) 0

def bitTranspose8x8 (x : BitVec 64) : BitVec 64 :=
  deltaSwap (deltaSwap (deltaSwap x 0x00AA00AA00AA00AA#64 7) 0x0000CCCC0000CCCC#64 14)
    0x00000000F0F0F0F0#64 28

def bitTranspose8x8X2 (x : Reg) : Reg := ofQuadwords fun j => bitTranspose8x8 (quadword x j)

def neonPairs (row : Nat → Reg) (i : Nat) : Reg := bitTranspose8x8X2 (zipTree row i)

-- `n` tiles side by side: `16 * n` bytes of the stage for each pair of blocks of each slab
def stageBlocks (n : Nat) (pairs : (Nat → Reg) → Nat → Reg) (inp : Mem) (bpr t : Nat)
    (stage : Mem) : Mem :=
  (List.range 16).foldl (fun stage s =>
    (List.range 8).foldl (fun stage i =>
      storeRange (16 * n) ((i * 16 + s) * (16 * n)) (pairs (slabRow inp bpr t s) i) stage) stage)
    stage

def storeStaged (n : Nat) (stage : Mem) (t : Nat) (out : Mem) : Mem :=
  (List.range 8).foldl (fun out i =>
    let m := transpose16 fun s => loadu stage (i * 16 * (16 * n) + s * (16 * n))
    (List.range 16).foldl (fun out r =>
      (List.range n).foldl (fun out l =>
        storeRange 16 ((t + l) * 128 * 16 + (16 * i + r) * 16) (extracti128 (m r) l) out) out)
      out) out

def stagedTiles (n : Nat) (pairs : (Nat → Reg) → Nat → Reg) (inp : Mem) (bpr t : Nat)
    (s : Mem × Mem) : Mem × Mem :=
  let stage := stageBlocks n pairs inp bpr t s.1
  (stage, storeStaged n stage t s.2)

def sseTransN128Gfni256 (stage out inp : Mem) (ncols : Nat) : Mem :=
  let bpr := ncols / 128
  let out := ((List.range (bpr / 2)).foldl (fun s i =>
    stagedTiles 2 gfniPairs inp bpr (2 * i) s) (stage, out)).2
  (List.range' (bpr / 2 * 2) (bpr - bpr / 2 * 2)).foldl (fun out t =>
    (List.range 8).foldl (fun out rrIdx =>
      sseTransN128OneTileSse2 inp bpr (rrIdx * 16) t rrIdx out) out) out

def sseTransN128Neon (stage out inp : Mem) (ncols : Nat) : Mem :=
  let bpr := ncols / 128
  ((List.range bpr).foldl (fun s t => stagedTiles 1 neonPairs inp bpr t s) (stage, out)).2

inductive Tier where
  | gfni512 | gfni256 | avx512bw | avx2 | sse2 | neon | generic
deriving DecidableEq, Repr

def sseTransN128 (tier : Tier) (held tmp : Reg) (stage out inp : Mem) (ncols : Nat) :
    Except String Mem := do
  expecting (ncols % 128 = 0) "sse_trans_n128: ncols must be a multiple of 128"
  match tier with
  | .gfni512 => return sseTransN128Gfni held out inp ncols
  | .gfni256 => return sseTransN128Gfni256 stage out inp ncols
  | .avx512bw => return sseTransN128Avx512bw out inp ncols
  | .avx2 => return sseTransN128Avx2 out inp ncols
  | .sse2 => return sseTransN128Sse2 out inp ncols
  | .neon => return sseTransN128Neon stage out inp ncols
  | .generic => sseTrans tmp out inp 128 ncols

end Model

section Tables

theorem patA_at : ∀ u < 8, ∀ k < 8,
    (makePatterns.patA (8 * u + (7 - k))).toNat = 16 * k + (0 + u) := by
  decide +kernel

theorem patB_at : ∀ u < 8, ∀ k < 8,
    (makePatterns.patB (8 * u + (7 - k))).toNat = 16 * k + (8 + u) := by
  decide +kernel

theorem p0_at : ∀ b < 4, ∀ s < 16,
    (makePatterns.p0 (16 * b + s)).toNat = 64 * (s / 8) + (8 * (s % 8) + (0 + b)) := by
  decide +kernel

theorem p1_at : ∀ b < 4, ∀ s < 16,
    (makePatterns.p1 (16 * b + s)).toNat = 64 * (s / 8) + (8 * (s % 8) + (4 + b)) := by
  decide +kernel

end Tables

section Bits

variable {inp : Mem} {ncols : Nat}

theorem bit_loadu (inp : Mem) (a i : Nat) : bit (loadu inp a) i = bit inp (8 * a + i) := by
  have hbyte : (8 * a + i) / 8 = a + i / 8 := by omega
  rw [bit, bit, hbyte, Nat.mul_add_mod]
  rfl

theorem bit_extracti128 (a : Reg) (l i : Nat) : bit (extracti128 a l) i = bit a (128 * l + i) := by
  have hbyte : (128 * l + i) / 8 = 16 * l + i / 8 := by omega
  have hplace : (128 * l + i) % 8 = i % 8 := by omega
  rw [bit, bit, hbyte, hplace]
  rfl

theorem bit_slabRow (inp : Mem) (hcols : ncols % 128 = 0) (t s k i : Nat) :
    bit (slabRow inp (ncols / 128) t s k) i = bit inp ((8 * s + k) * ncols + (128 * t + i)) := by
  obtain ⟨bpr, rfl⟩ : 128 ∣ ncols := Nat.dvd_of_mod_eq_zero hcols
  rw [slabRow, bit_loadu, Nat.mul_div_cancel_left bpr (by decide)]
  congr 1
  ring

theorem column_byte {c s : Nat} {v : UInt8} (hs : s < 16)
    (hv : ∀ k < 8, v.toNat.testBit k = bit inp ((8 * s + k) * ncols + c)) :
    v = transposed inp 128 ncols (16 * c + s) := by
  refine byte_eq fun k hk => ?_
  rw [hv k hk, Nat.mul_comm 16 c]
  exact (@bit_transposed inp 128 ncols c s k hs hk).symm

end Bits

section Gather

theorem fourRows_at (held : Reg) (row : Nat → Reg) {k q : Nat} (hk : k < 4) (hq : q < 16) :
    fourRows held row (16 * k + q) = row k q := by
  have hlane : (16 * k + q) / 16 = k := by omega
  have hplace : (16 * k + q) % 16 = q := by omega
  simp only [fourRows, inserti32x4, castsi128Si512, hlane, hplace]
  interval_cases k
  · simp [hq]
  · rfl
  · rfl
  · rfl

theorem gather_at (held : Reg) (row : Nat → Reg) {pat : Nat → UInt8} {p k q : Nat} (hk : k < 8)
    (hq : q < 16) (hpat : (pat p).toNat = 16 * k + q) :
    permutex2varEpi8 (fourRows held row) pat (fourRows held fun k => row (k + 4)) p = row k q := by
  rw [permutex2varEpi8, hpat]
  by_cases hlow : k < 4
  · have hplace : (16 * k + q) % 64 = 16 * k + q := by omega
    rw [if_pos (by omega), hplace, fourRows_at held row hlow hq]
  · have hplace : (16 * k + q) % 64 = 16 * (k - 4) + q := by omega
    rw [if_neg (by omega), hplace, fourRows_at held _ (by omega) hq, Nat.sub_add_cancel (by omega)]

-- the pattern's reversal of the rows and the affine map's reversal of the bits cancel
theorem bit_gfniBlocks (held : Reg) (row : Nat → Reg) {pat : Nat → UInt8} {u q b k : Nat}
    (hq : q < 16) (hb : b < 8) (hk : k < 8) (hpat : (pat (8 * u + (7 - k))).toNat = 16 * k + q) :
    bit (gfniBlocks held row pat) (8 * (8 * u + b) + k) = bit (row k) (8 * q + b) := by
  rw [gfniBlocks, identityWords, bit_affine_identity _ u hb hk, bit_at _ _ hb,
    gather_at held row hk hq hpat, bit_at _ _ hb]

end Gather

section Qwords

theorem qwordNetwork_comp {α β : Type} (g : α → β) (r : Nat → Nat → α) :
    qwordNetwork (fun j => g ∘ r j) = fun j => g ∘ qwordNetwork r j := by
  funext j
  simp only [qwordNetwork, unpack_comp, shuffleI64x2_comp]

theorem qwordNetwork_at (r : Nat → Reg) (j p : Nat) :
    qwordNetwork r j p = r (qwordNetwork Prod.mk j p).1 (qwordNetwork Prod.mk j p).2 :=
  moved_at (fun γ => @qwordNetwork γ) (fun _ _ => qwordNetwork_comp) r j p

theorem qwordNetwork_places : ∀ j < 8, ∀ s < 8, ∀ b < 8,
    qwordNetwork Prod.mk j (8 * s + b) = (s, 8 * perm.getD j 0 + b) := by
  decide +kernel

theorem perm_perm : ∀ j < 8, perm.getD j 0 < 8 ∧ perm.getD (perm.getD j 0) 0 = j := by
  decide

theorem gfniTransQword8_perm (r : Nat → Reg) {j : Nat} (hj : j < 8) :
    gfniTransQword8 r (perm.getD j 0) = qwordNetwork r j := by
  interval_cases j <;> rfl

theorem gfniTransQword8_at (r : Nat → Reg) {u s b : Nat} (hu : u < 8) (hs : s < 8) (hb : b < 8) :
    gfniTransQword8 r u (8 * s + b) = r s (8 * u + b) := by
  obtain ⟨hlt, hback⟩ := perm_perm u hu
  have hregister := gfniTransQword8_perm r hlt
  rw [hback] at hregister
  rw [hregister, qwordNetwork_at, qwordNetwork_places _ hlt s hs b hb, hback]

theorem bothGroups_low (r : Nat → Reg) {u s b : Nat} (hu : u < 8) (hs : s < 8) (hb : b < 8) :
    bothGroups r u (8 * s + b) = r s (8 * u + b) := by
  rw [bothGroups, if_pos hu, gfniTransQword8_at r hu hs hb]

theorem bothGroups_high (r : Nat → Reg) {u s b : Nat} (hu : u < 8) (hs : s < 8) (hb : b < 8) :
    bothGroups r (u + 8) (8 * s + b) = r (s + 8) (8 * u + b) := by
  rw [bothGroups, if_neg (by omega), Nat.add_sub_cancel, gfniTransQword8_at _ hu hs hb]

theorem slabs_at (r : Nat → Reg) {pat : Nat → UInt8} {p u s b : Nat} (hu : u < 8) (hs : s < 16)
    (hb : b < 8) (hpat : (pat p).toNat = 64 * (s / 8) + (8 * (s % 8) + b)) :
    permutex2varEpi8 (bothGroups r u) pat (bothGroups r (u + 8)) p = r s (8 * u + b) := by
  have hplace : (64 * (s / 8) + (8 * (s % 8) + b)) % 64 = 8 * (s % 8) + b := by omega
  have hlt : s % 8 < 8 := Nat.mod_lt s (by decide)
  rw [permutex2varEpi8, hpat, hplace]
  by_cases hlow : s < 8
  · rw [if_pos (by omega), bothGroups_low r hu hlt hb, Nat.mod_eq_of_lt hlow]
  · have hslab : s % 8 + 8 = s := by omega
    rw [if_neg (by omega), bothGroups_high r hu hlt hb, hslab]

end Qwords

section Tiles

variable {inp : Mem} {ncols : Nat}

def Tiles (t n a : Nat) : Prop := 2048 * t ≤ a ∧ a < 2048 * (t + n)

def SlabBlocks (inp : Mem) (ncols t first : Nat) (r : Nat → Reg) : Prop :=
  ∀ s < 16, ∀ u < 8, ∀ b < 8,
    r s (8 * u + b) = transposed inp 128 ncols (16 * (128 * t + (8 * (u + first) + b)) + s)

theorem storeGroup_fills {r : Nat → Reg} {first t u h : Nat} {pat : Nat → UInt8}
    (hr : SlabBlocks inp ncols t first r) (hu : u < 8) (hh : h ≤ 4)
    (hpat : ∀ b < 4, ∀ s < 16,
      (pat (16 * b + s)).toNat = 64 * (s / 8) + (8 * (s % 8) + (h + b))) :
    Fills (transposed inp 128 ncols)
      (fun a => t * 128 * 16 + (8 * (u + first) + h) * 16 ≤ a ∧
        a < t * 128 * 16 + (8 * (u + first) + h) * 16 + 64)
      (storeRange 64 (t * 128 * 16 + (8 * (u + first) + h) * 16)
        (permutex2varEpi8 (bothGroups r u) pat (bothGroups r (u + 8)))) := by
  refine fills_storeRange fun i hi => ?_
  have hslab : i % 16 < 16 := Nat.mod_lt i (by decide)
  have hindex := hpat (i / 16) (by omega) (i % 16) hslab
  rw [Nat.div_add_mod i 16] at hindex
  rw [slabs_at r hu hslab (by omega) hindex, hr _ hslab u hu _ (by omega)]
  congr 1
  omega

theorem emitGroups_fills {r : Nat → Reg} {first t : Nat} (hr : SlabBlocks inp ncols t first r) :
    Fills (transposed inp 128 ncols)
      (fun a => 2048 * t + 128 * first ≤ a ∧ a < 2048 * t + 128 * first + 1024)
      (emitGroups makePatterns (bothGroups r) first (t * 128 * 16)) := by
  refine (fills_range fun u hu => (storeGroup_fills hr hu (by decide) p0_at).comp
    (storeGroup_fills hr hu (by decide) p1_at)).congr fun a => ?_
  constructor
  · rintro ⟨hlow, hhigh⟩
    refine ⟨(a - (2048 * t + 128 * first)) / 128, by omega, ?_⟩
    omega
  · rintro ⟨u, hu, ha | ha⟩
    · omega
    · omega

theorem gfniBlocks_slabs (held : Reg) {rows : Nat → Nat → Reg} {first t : Nat}
    {pat : Nat → UInt8} (hfirst : first ≤ 8)
    (hrows : ∀ s k i, bit (rows s k) i = bit inp ((8 * s + k) * ncols + (128 * t + i)))
    (hpat : ∀ u < 8, ∀ k < 8, (pat (8 * u + (7 - k))).toNat = 16 * k + (first + u)) :
    SlabBlocks inp ncols t first fun s => gfniBlocks held (rows s) pat := by
  intro s hs u hu b hb
  refine column_byte hs fun k hk => ?_
  have hcolumn : 8 * (first + u) + b = 8 * (u + first) + b := by rw [Nat.add_comm first u]
  rw [← bit_at _ _ hk, bit_gfniBlocks held _ (by omega) hb hk (hpat u hu k hk), hrows, hcolumn]

theorem gfniTile_fills (held : Reg) {rows : Nat → Nat → Reg} {t : Nat}
    (hrows : ∀ s k i, bit (rows s k) i = bit inp ((8 * s + k) * ncols + (128 * t + i))) :
    Fills (transposed inp 128 ncols) (Tiles t 1) (gfniTile held rows (t * 128 * 16)) := by
  have hlow := emitGroups_fills (gfniBlocks_slabs held (Nat.zero_le 8) hrows patA_at)
  have hhigh := emitGroups_fills (gfniBlocks_slabs held (Nat.le_refl 8) hrows patB_at)
  refine (hlow.comp hhigh).congr fun a => ?_
  unfold Tiles
  omega

theorem sseTransN128Gfni_fills (held : Reg) (inp : Mem) (hcols : ncols % 128 = 0) :
    Fills (transposed inp 128 ncols) (fun a => a < ncols * 16)
      fun out => sseTransN128Gfni held out inp ncols := by
  have hlane (t lane s k i : Nat) :
      bit (extracti128 (slabRow inp (ncols / 128) t s k) lane) i =
        bit inp ((8 * s + k) * ncols + (128 * (t + lane) + i)) := by
    rw [bit_extracti128, bit_slabRow inp hcols, Nat.mul_add, Nat.add_assoc]
  have hpairs := fills_range (n := ncols / 128 / 2) fun d _ =>
    (gfniTile_fills held (hlane (2 * d) 0)).comp (gfniTile_fills held (hlane (2 * d) 1))
  have htail := fills_foldl (List.range' (ncols / 128 / 2 * 2) (ncols / 128 - ncols / 128 / 2 * 2))
    fun t _ => gfniTile_fills held (bit_slabRow inp hcols t)
  refine (hpairs.comp htail).congr fun a => ?_
  unfold Tiles
  simp only [List.mem_range'_1]
  constructor
  · intro ha
    by_cases hpair : a / 2048 < ncols / 128 / 2 * 2
    · exact Or.inl ⟨a / 4096, by omega, by omega⟩
    · exact Or.inr ⟨a / 2048, by omega, by omega⟩
  · rintro (⟨d, hd, ha⟩ | ⟨t, ht, ha⟩)
    · omega
    · omega

end Tiles

section Pairs

theorem zipTree_comp {α β : Type} (g : α → β) (r : Nat → Nat → α) :
    zipTree (fun j => g ∘ r j) = fun j => g ∘ zipTree r j := by
  funext j
  simp only [zipTree, unpack_comp]

theorem zipTree_at (r : Nat → Reg) (j p : Nat) :
    zipTree r j p = r (zipTree Prod.mk j p).1 (zipTree Prod.mk j p).2 :=
  moved_at (fun γ => @zipTree γ) (fun _ _ => zipTree_comp) r j p

theorem zipTree_places : ∀ l < 2, ∀ i < 8, ∀ h < 2, ∀ k < 8,
    zipTree Prod.mk i (8 * (2 * l + h) + k) = (k, 16 * l + 2 * i + h) := by
  decide +kernel

theorem bit_zipTree (r : Nat → Reg) {l i h k b : Nat} (hl : l < 2) (hi : i < 8) (hh : h < 2)
    (hk : k < 8) (hb : b < 8) :
    bit (zipTree r i) (8 * (8 * (2 * l + h) + k) + b) =
      bit (r k) (8 * (16 * l + 2 * i) + (8 * h + b)) := by
  have hplace : 8 * (16 * l + 2 * i) + (8 * h + b) = 8 * (16 * l + 2 * i + h) + b := by omega
  rw [bit_at _ _ hb, zipTree_at, zipTree_places l hl i hi h hh k hk, hplace, bit_at _ _ hb]

def PairsExact (pairs : (Nat → Reg) → Nat → Reg) : Prop :=
  ∀ row, ∀ l < 2, ∀ i < 8, ∀ h < 2, ∀ b < 8, ∀ k < 8,
    bit (pairs row i) (8 * (8 * (2 * l + h) + b) + k) =
      bit (row k) (8 * (16 * l + 2 * i) + (8 * h + b))

theorem gfniPairs_exact : PairsExact gfniPairs := by
  intro row l hl i hi h hh b hb k hk
  have hrow : 7 - (7 - k) = k := by omega
  rw [gfniPairs, identityWords, bit_affine_identity _ _ hb hk,
    bit_zipTree _ hl hi hh (by omega) hb, hrow]

theorem deltaSource_places : ∀ b < 8, ∀ k < 8,
    let i₃ := deltaSource 0x00000000F0F0F0F0#64 28 (8 * b + k)
    let i₂ := deltaSource 0x0000CCCC0000CCCC#64 14 i₃
    i₃ < 64 ∧ i₂ < 64 ∧ deltaSource 0x00AA00AA00AA00AA#64 7 i₂ = 8 * k + b := by
  decide +kernel

theorem masks_disjoint :
    (∀ j < 64, (0x00AA00AA00AA00AA#64).getLsbD j →
      (0x00AA00AA00AA00AA#64).getLsbD (j + 7) = false) ∧
    (∀ j < 64, (0x0000CCCC0000CCCC#64).getLsbD j →
      (0x0000CCCC0000CCCC#64).getLsbD (j + 14) = false) ∧
    ∀ j < 64, (0x00000000F0F0F0F0#64).getLsbD j →
      (0x00000000F0F0F0F0#64).getLsbD (j + 28) = false := by
  decide +kernel

theorem getLsbD_bitTranspose8x8 (x : BitVec 64) {b k : Nat} (hb : b < 8) (hk : k < 8) :
    (bitTranspose8x8 x).getLsbD (8 * b + k) = x.getLsbD (8 * k + b) := by
  obtain ⟨h₃, h₂, hplace⟩ := deltaSource_places b hb k hk
  obtain ⟨hmask₁, hmask₂, hmask₃⟩ := masks_disjoint
  rw [bitTranspose8x8, getLsbD_deltaSwap _ (by omega) hmask₃, getLsbD_deltaSwap _ h₃ hmask₂,
    getLsbD_deltaSwap _ h₂ hmask₁, hplace]

theorem neonPairs_exact : PairsExact neonPairs := by
  intro row l hl i hi h hh b hb k hk
  have hword : (8 * (8 * (2 * l + h) + b) + k) / 64 = 2 * l + h := by omega
  have hplace : (8 * (8 * (2 * l + h) + b) + k) % 64 = 8 * b + k := by omega
  have hsource : 64 * (2 * l + h) + (8 * k + b) = 8 * (8 * (2 * l + h) + k) + b := by omega
  rw [neonPairs, bitTranspose8x8X2, bit_ofQuadwords, hword, hplace, getLsbD_bitTranspose8x8 _ hb hk,
    getLsbD_quadword _ _ (by omega), hsource, bit_zipTree row hl hi hh hk hb]

end Pairs

section Staged

variable {inp : Mem} {ncols n t : Nat}

def staged (inp : Mem) (ncols n t : Nat) : Mem := fun a =>
  transposed inp 128 ncols (16 * (128 * (t + a % (16 * n) / 16) +
    (16 * (a / (16 * n) / 16) + a % 16)) + a / (16 * n) % 16)

theorem staged_at {i s j : Nat} (hs : s < 16) (hj : j < 16 * n) :
    staged inp ncols n t ((i * 16 + s) * (16 * n) + j) =
      transposed inp 128 ncols (16 * (128 * (t + j / 16) + (16 * i + j % 16)) + s) := by
  have hplace : ((i * 16 + s) * (16 * n) + j) % 16 = j % 16 := by
    rw [Nat.mul_left_comm, Nat.mul_add_mod]
  have hslab : (i * 16 + s) % 16 = s := by omega
  have hpair : (i * 16 + s) / 16 = i := by omega
  rw [staged, stride_div _ hj, stride_mod _ hj, hplace, hslab, hpair]

theorem pairs_byte {pairs : (Nat → Reg) → Nat → Reg} (hpairs : PairsExact pairs)
    (hcols : ncols % 128 = 0) {i s j : Nat} (hi : i < 8) (hs : s < 16) (hj : j < 32) :
    pairs (slabRow inp (ncols / 128) t s) i j =
      transposed inp 128 ncols (16 * (128 * (t + j / 16) + (16 * i + j % 16)) + s) := by
  refine column_byte hs fun k hk => ?_
  have hbyte : 8 * (2 * (j / 16) + j % 16 / 8) + j % 8 = j := by omega
  have hbit := hpairs (slabRow inp (ncols / 128) t s) (j / 16) (by omega) i hi (j % 16 / 8)
    (by omega) (j % 8) (Nat.mod_lt j (by decide)) k hk
  rw [hbyte, bit_at _ _ hk, bit_slabRow inp hcols] at hbit
  rw [hbit]
  congr 2
  omega

theorem stageBlocks_fills {pairs : (Nat → Reg) → Nat → Reg} (hpairs : PairsExact pairs)
    (hcols : ncols % 128 = 0) (hn : n ≤ 2) :
    Fills (staged inp ncols n t) (fun a => a < 128 * (16 * n))
      (stageBlocks n pairs inp (ncols / 128) t) := by
  refine (fills_range fun s hs => fills_range fun i hi => fills_storeRange fun j hj =>
    (pairs_byte hpairs hcols hi hs (by omega)).trans (staged_at hs hj).symm).congr fun a => ?_
  rcases Nat.eq_zero_or_pos n with rfl | hpos
  · omega
  have hsplit := Nat.div_add_mod' a (16 * n)
  have hlt := Nat.mod_lt a (by omega : 0 < 16 * n)
  constructor
  · intro ha
    have hunit : a / (16 * n) < 128 := (Nat.div_lt_iff_lt_mul (by omega)).mpr ha
    have hindex : a / (16 * n) / 16 * 16 + a / (16 * n) % 16 = a / (16 * n) :=
      Nat.div_add_mod' _ 16
    refine ⟨a / (16 * n) % 16, Nat.mod_lt _ (by decide), a / (16 * n) / 16, by omega, ?_⟩
    rw [hindex]
    omega
  · rintro ⟨s, hs, i, hi, hlow, hhigh⟩
    have hunit : (i * 16 + s + 1) * (16 * n) ≤ 128 * (16 * n) :=
      Nat.mul_le_mul_right _ (by omega)
    rw [Nat.succ_mul] at hunit
    omega

theorem storeStaged_fills {stage : Mem}
    (hstage : ∀ a < 128 * (16 * n), stage a = staged inp ncols n t a) :
    Fills (transposed inp 128 ncols) (Tiles t n) (storeStaged n stage t) := by
  have hrow (i : Nat) (hi : i < 8) (r : Nat) (hr : r < 16) (l : Nat) (hl : l < n) (q : Nat)
      (hq : q < 16) : extracti128 (transpose16 (fun s =>
        loadu stage (i * 16 * (16 * n) + s * (16 * n))) r) l q =
      transposed inp 128 ncols ((t + l) * 128 * 16 + (16 * i + r) * 16 + q) := by
    have hlane : 16 * l + r < 16 * n := by omega
    have hunit : (i * 16 + q + 1) * (16 * n) ≤ 128 * (16 * n) :=
      Nat.mul_le_mul_right _ (by omega)
    have hplace : i * 16 * (16 * n) + q * (16 * n) + (16 * l + r) =
        (i * 16 + q) * (16 * n) + (16 * l + r) := by rw [Nat.add_mul]
    have htile : (16 * l + r) / 16 = l := by omega
    have hoffset : (16 * l + r) % 16 = r := by omega
    rw [Nat.succ_mul] at hunit
    rw [extracti128, transpose16_at _ hr hq, loadu, hplace, hstage _ (by omega), staged_at hq hlane,
      htile, hoffset]
    congr 1
    omega
  refine (fills_range fun i hi => fills_range fun r hr => fills_range fun l hl =>
    fills_storeRange fun q hq => hrow i hi r hr l hl q hq).congr fun a => ?_
  unfold Tiles
  constructor
  · rintro ⟨hlow, hhigh⟩
    exact ⟨a % 2048 / 256, by omega, a % 256 / 16, by omega, a / 2048 - t, by omega, by omega⟩
  · rintro ⟨i, hi, r, hr, l, hl, ha⟩
    omega

theorem stagedTiles_fills {pairs : (Nat → Reg) → Nat → Reg} (hpairs : PairsExact pairs)
    (hcols : ncols % 128 = 0) (hn : n ≤ 2) (stage : Mem) :
    Fills (transposed inp 128 ncols) (Tiles t n)
      fun out => (stagedTiles n pairs inp (ncols / 128) t (stage, out)).2 := by
  have hstage := (@stageBlocks_fills inp ncols n t pairs hpairs hcols hn).inside stage
  have htiles := storeStaged_fills hstage
  exact htiles

theorem sseTransN128Gfni256_fills (stage inp : Mem) (hcols : ncols % 128 = 0) :
    Fills (transposed inp 128 ncols) (fun a => a < ncols * 16)
      fun out => sseTransN128Gfni256 stage out inp ncols := by
  have hpairs := fills_foldl_state (List.range (ncols / 128 / 2))
    (fun d _ s => @stagedTiles_fills inp ncols 2 (2 * d) gfniPairs gfniPairs_exact hcols le_rfl s)
    stage
  have htail := fills_foldl (List.range' (ncols / 128 / 2 * 2) (ncols / 128 - ncols / 128 / 2 * 2))
    fun t _ => fills_range fun rrIdx hstrip =>
      sseTransN128OneTileSse2_fills inp hcols hstrip t
  refine (hpairs.comp htail).congr fun a => ?_
  unfold Tiles Strip
  simp only [List.mem_range, List.mem_range'_1]
  constructor
  · intro ha
    by_cases hpair : a / 2048 < ncols / 128 / 2 * 2
    · exact Or.inl ⟨a / 4096, by omega, by omega⟩
    · exact Or.inr ⟨a / 2048, by omega, a % 16 / 2, by omega, by omega, rfl⟩
  · rintro (⟨d, hd, ha⟩ | ⟨t, ht, rrIdx, hstrip, hcolumn, hrow⟩)
    · omega
    · omega

theorem sseTransN128Neon_fills (stage inp : Mem) (hcols : ncols % 128 = 0) :
    Fills (transposed inp 128 ncols) (fun a => a < ncols * 16)
      fun out => sseTransN128Neon stage out inp ncols := by
  have htiles := fills_foldl_state (List.range (ncols / 128))
    (fun t _ s => @stagedTiles_fills inp ncols 1 t neonPairs neonPairs_exact hcols (by decide) s)
    stage
  refine htiles.congr fun a => ?_
  unfold Tiles
  simp only [List.mem_range]
  constructor
  · intro ha
    exact ⟨a / 2048, by omega, by omega⟩
  · rintro ⟨t, ht, ha⟩
    omega

end Staged

section Exact

variable {ncols : Nat}

theorem sseTransN128_agrees (tier : Tier) (held tmp : Reg) (stage out inp : Mem)
    (hcols : ncols % 128 = 0) :
    sseTransN128 tier held tmp stage out inp ncols = sseTrans tmp out inp 128 ncols := by
  obtain ⟨f, hrun, hf⟩ := @sseTrans_fills 128 ncols tmp inp rfl (by omega)
  have hcheck : expecting (ncols % 128 = 0) "sse_trans_n128: ncols must be a multiple of 128" =
      .ok () := expecting_eq_ok.mpr hcols
  have hsame {g : Mem → Mem} (hg : Fills (transposed inp 128 ncols) (fun a => a < ncols * 16) g) :
      Except.ok (g out) = sseTrans tmp out inp 128 ncols := by
    rw [hrun, hg.unique hf]
  unfold sseTransN128
  rw [hcheck]
  cases tier with
  | gfni512 => exact hsame (sseTransN128Gfni_fills held inp hcols)
  | gfni256 => exact hsame (sseTransN128Gfni256_fills stage inp hcols)
  | avx512bw => exact hsame (sseTransN128Wide_fills inp hcols 4)
  | avx2 => exact hsame (sseTransN128Wide_fills inp hcols 2)
  | sse2 => exact hsame (sseTransN128Sse2_fills inp hcols)
  | neon => exact hsame (sseTransN128Neon_fills stage inp hcols)
  | generic => rfl

theorem gfni_and_neon_transposes_exact (held : Reg) (stage out inp : Mem) (ncols : Nat)
    (hcols : ncols % 128 = 0) :
    (∀ r < 128, ∀ c < ncols,
      bit (sseTransN128Gfni held out inp ncols) (c * 128 + r) = bit inp (r * ncols + c) ∧
      bit (sseTransN128Gfni256 stage out inp ncols) (c * 128 + r) = bit inp (r * ncols + c) ∧
      bit (sseTransN128Neon stage out inp ncols) (c * 128 + r) = bit inp (r * ncols + c)) ∧
    ∀ a, ncols * 16 ≤ a →
      sseTransN128Gfni held out inp ncols a = out a ∧
      sseTransN128Gfni256 stage out inp ncols a = out a ∧
      sseTransN128Neon stage out inp ncols a = out a := by
  have hgfni := sseTransN128Gfni_fills held inp hcols
  have hgfni256 := sseTransN128Gfni256_fills stage inp hcols
  have hneon := sseTransN128Neon_fills stage inp hcols
  constructor
  · intro r hr c hc
    have hbits := @transposed_bits inp 128 ncols _ rfl hgfni out r c hr hc
    have hbits256 := @transposed_bits inp 128 ncols _ rfl hgfni256 out r c hr hc
    have hbitsNeon := @transposed_bits inp 128 ncols _ rfl hneon out r c hr hc
    exact ⟨hbits, hbits256, hbitsNeon⟩
  · intro a ha
    exact ⟨hgfni.outside out a (Nat.not_lt.mpr ha), hgfni256.outside out a (Nat.not_lt.mpr ha),
      hneon.outside out a (Nat.not_lt.mpr ha)⟩

theorem gfni_and_neon_transposes_exact_squares :
    (∀ r < 128, ∀ c < 384,
      bit (sseTransN128Gfni (fun _ => 1) (fun _ => 0) (fun a => UInt8.ofNat (a * a)) 384)
        (c * 128 + r) = bit (fun a => UInt8.ofNat (a * a)) (r * 384 + c) ∧
      bit (sseTransN128Gfni256 (fun _ => 1) (fun _ => 0) (fun a => UInt8.ofNat (a * a)) 384)
        (c * 128 + r) = bit (fun a => UInt8.ofNat (a * a)) (r * 384 + c) ∧
      bit (sseTransN128Neon (fun _ => 1) (fun _ => 0) (fun a => UInt8.ofNat (a * a)) 384)
        (c * 128 + r) = bit (fun a => UInt8.ofNat (a * a)) (r * 384 + c)) ∧
    ∀ a, 384 * 16 ≤ a →
      sseTransN128Gfni (fun _ => 1) (fun _ => 0) (fun a => UInt8.ofNat (a * a)) 384 a = 0 ∧
      sseTransN128Gfni256 (fun _ => 1) (fun _ => 0) (fun a => UInt8.ofNat (a * a)) 384 a = 0 ∧
      sseTransN128Neon (fun _ => 1) (fun _ => 0) (fun a => UInt8.ofNat (a * a)) 384 a = 0 :=
  gfni_and_neon_transposes_exact (fun _ => 1) (fun _ => 1) (fun _ => 0)
    (fun a => UInt8.ofNat (a * a)) 384 (by decide)

end Exact

end EmpTool.Transpose
