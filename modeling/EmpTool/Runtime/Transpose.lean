import EmpTool.Library.Fills
import EmpTool.Library.Simd
import EmpTool.Runtime.Error

namespace EmpTool.Transpose

open Memory Simd

abbrev Mem := Nat → UInt8

section Model

def loadU16Unaligned (src : Mem) (a : Nat) : Nat := (src a).toNat + 256 * (src (a + 1)).toNat

def storeLow (n dst value : Nat) : Mem → Mem :=
  storeRange n dst fun h => UInt8.ofNat (value >>> (8 * h))

def storeU16Unaligned (dst value : Nat) : Mem → Mem := storeLow 2 dst value

def storeByte (dst value : Nat) : Mem → Mem := storeLow 1 dst value

def loadu (inp : Mem) (a : Nat) : Reg := fun p => inp (a + p)

-- a matrix in memory has fewer than 2 ^ 64 bits, so no product wraps
def inpIndex (ncols x y : Nat) : Nat := x * ncols / 8 + y / 8

def outIndex (nrows x y : Nat) : Nat := y * nrows / 8 + x / 8

def peel (store : Nat → Reg → Mem → Mem) : Nat → Reg × Mem → Reg × Mem
  | 0, s => s
  | i + 1, (vec, out) => peel store i (slliEpi64 vec 1, store i vec out)

def sseTrans16x16Byte (m : Nat → Reg) : Nat → Reg := transpose16 m

def avx2Trans16x16ByteX2 (m : Nat → Reg) : Nat → Reg := transpose16 m

def avx512Trans16x16ByteX4 (m : Nat → Reg) : Nat → Reg := transpose16 m

def storeTiles (n : Nat) (m : Nat → Reg) (bprOut colByte off : Nat) (out : Mem) : Mem :=
  (List.range 16).foldl (fun out j =>
    (peel (fun b x out =>
      let mask := movemask (16 * n) x
      (List.range n).foldl (fun out l =>
        storeU16Unaligned (((colByte + 16 * l + j) * 8 + b) * bprOut + off)
          (mask >>> (16 * l)) out) out) 8 (m j, out)).2) out

def sseTransFast (inp : Mem) (nrows ncols : Nat) (out : Mem) : Mem :=
  let bprIn := ncols / 8
  let bprOut := nrows / 8
  (List.range (nrows / 16)).foldl (fun out s =>
    let rr := 16 * s
    (List.range (bprIn / 16)).foldl (fun out d =>
      let colByte := 16 * d
      let m := fun r => loadu inp ((rr + r) * bprIn + colByte)
      storeTiles 1 (sseTrans16x16Byte m) bprOut colByte (rr / 8) out) out) out

def sseTransBlocks (inp : Mem) (nrows ncols : Nat) (out : Mem) : Mem :=
  (List.range (nrows / 16)).foldl (fun out s =>
    let rr := 16 * s
    (List.range (ncols / 8)).foldl (fun out d =>
      let cc := 8 * d
      let vec : Reg := fun k => inp (inpIndex ncols (rr + k) cc)
      (peel (fun i vec out =>
        storeU16Unaligned (outIndex nrows rr (cc + i)) (movemask 16 vec) out) 8 (vec, out)).2)
      out) out

def storeHalves (nrows rr cc i : Nat) (x : Reg) (out : Mem) : Mem :=
  let h := movemask 16 x
  storeByte (outIndex nrows rr (cc + i + 8)) (h >>> 8)
    (storeByte (outIndex nrows rr (cc + i)) h out)

def pairBytes (inp : Mem) (ncols rr cc : Nat) (tmp : Reg) : Reg := fun k =>
  if k < 8 then UInt8.ofNat (loadU16Unaligned inp (inpIndex ncols (rr + k) cc))
  else if k < 16 then
    UInt8.ofNat (loadU16Unaligned inp (inpIndex ncols (rr + (k - 8)) cc) >>> 8)
  else tmp k

def sseTransPairs (inp : Mem) (nrows ncols rr : Nat) (s : Reg × Mem) : Reg × Mem :=
  (List.range (ncols / 16)).foldl (fun s d =>
    let cc := 16 * d
    peel (storeHalves nrows rr cc) 8 (pairBytes inp ncols rr cc s.1, s.2)) s

def sseTransWords (inp : Mem) (nrows ncols rr : Nat) (out : Mem) : Mem :=
  (List.range (ncols / 16)).foldl (fun out d =>
    let cc := 16 * d
    let vec : Reg := fun k =>
      UInt8.ofNat (loadU16Unaligned inp (inpIndex ncols (rr + k / 2) cc) >>> (8 * (k % 2)))
    (peel (storeHalves nrows rr cc) 8 (vec, out)).2) out

-- the upper half is left as it was
def lastBytes (inp : Mem) (ncols rr cc : Nat) (tmp : Reg) : Reg := fun k =>
  if k < 8 then inp (inpIndex ncols (rr + k) cc) else tmp k

def sseTransLast (inp : Mem) (nrows ncols rr cc : Nat) (s : Reg × Mem) : Mem :=
  (peel (fun i x out => storeByte (outIndex nrows rr (cc + i)) (movemask 16 x) out) 8
    (lastBytes inp ncols rr cc s.1, s.2)).2

-- `tmp` is what the union holds before it is written
def sseTrans (tmp : Reg) (out inp : Mem) (nrows ncols : Nat) : Except String Mem := do
  expecting (nrows % 8 = 0 ∧ ncols % 8 = 0) "sse_trans: dimensions must be multiples of 8"
  if nrows % 16 = 0 ∧ ncols % 128 = 0 then return sseTransFast inp nrows ncols out
  let out := sseTransBlocks inp nrows ncols out
  let rr := nrows / 16 * 16
  if rr = nrows then return out
  let s :=
    if (ncols % 8 = 0 ∧ ncols % 16 ≠ 0) ∨ (nrows % 8 = 0 ∧ nrows % 16 ≠ 0) then
      sseTransPairs inp nrows ncols rr (tmp, out)
    else (tmp, sseTransWords inp nrows ncols rr out)
  let cc := ncols / 16 * 16
  if cc = ncols then return s.2
  return sseTransLast inp nrows ncols rr cc s

def sseTransN128OneTileSse2 (inp : Mem) (bprInBlocks rr colBlock rrIdx : Nat) (out : Mem) : Mem :=
  let m := fun r => loadu inp (16 * ((rr + r) * bprInBlocks + colBlock))
  storeTiles 1 (sseTrans16x16Byte m) 16 (16 * colBlock) (rrIdx * 2) out

def sseTransN128Sse2 (out inp : Mem) (ncols : Nat) : Mem :=
  let bprInBlocks := ncols / 128
  (List.range 8).foldl (fun out rrIdx =>
    let rr := rrIdx * 16
    (List.range bprInBlocks).foldl (fun out colBlock =>
      sseTransN128OneTileSse2 inp bprInBlocks rr colBlock rrIdx out) out) out

def sseTransN128Wide (n : Nat) (trans : (Nat → Reg) → Nat → Reg) (out inp : Mem) (ncols : Nat) :
    Mem :=
  let bprInBlocks := ncols / 128
  let groups := bprInBlocks / n
  let tailStart := groups * n
  (List.range 8).foldl (fun out rrIdx =>
    let rr := rrIdx * 16
    let out := (List.range groups).foldl (fun out cb =>
      let colBlock := cb * n
      let m := fun r => loadu inp (16 * ((rr + r) * bprInBlocks + colBlock))
      storeTiles n (trans m) 16 (16 * colBlock) (rrIdx * 2) out) out
    (List.range' tailStart (bprInBlocks - tailStart)).foldl (fun out colBlock =>
      sseTransN128OneTileSse2 inp bprInBlocks rr colBlock rrIdx out) out) out

def sseTransN128Avx2 : Mem → Mem → Nat → Mem := sseTransN128Wide 2 avx2Trans16x16ByteX2

def sseTransN128Avx512bw : Mem → Mem → Nat → Mem := sseTransN128Wide 4 avx512Trans16x16ByteX4

end Model

section Target

variable {inp : Mem} {nrows ncols : Nat}

-- bit `k` of byte `y` of column `c` is the input's bit in row `8 * y + k`
def transposed (inp : Mem) (nrows ncols : Nat) : Mem := fun a =>
  byteOf fun k => bit inp ((8 * (a % (nrows / 8)) + k) * ncols + a / (nrows / 8))

def Place (nrows c off n a : Nat) : Prop :=
  a / (nrows / 8) = c ∧ off ≤ a % (nrows / 8) ∧ a % (nrows / 8) < off + n

theorem place_iff {c off n a : Nat} (h : off + n ≤ nrows / 8) :
    Place nrows c off n a ↔
      c * (nrows / 8) + off ≤ a ∧ a < c * (nrows / 8) + off + n := by
  have hsplit := Nat.div_add_mod' a (nrows / 8)
  unfold Place
  constructor
  · rintro ⟨rfl, hlow, hhigh⟩
    omega
  · rintro ⟨hlow, hhigh⟩
    have hcolumn : a / (nrows / 8) = c :=
      Nat.div_eq_of_lt_le (by omega) (by rw [Nat.succ_mul]; omega)
    rw [hcolumn] at hsplit
    omega

theorem inside_iff {a : Nat} : a < ncols * (nrows / 8) ↔
    a / (nrows / 8) < ncols ∧ a % (nrows / 8) < nrows / 8 := by
  rcases Nat.eq_zero_or_pos (nrows / 8) with hnil | hpos
  · rw [hnil, Nat.mul_zero, Nat.mod_zero]
    exact iff_of_false (Nat.not_lt_zero a) fun h => Nat.not_lt_zero a h.2
  · rw [← Nat.div_lt_iff_lt_mul hpos]
    exact ⟨fun h => ⟨h, Nat.mod_lt a hpos⟩, fun h => h.1⟩

theorem bit_transposed {c y k : Nat} (hy : y < nrows / 8) (hk : k < 8) :
    (transposed inp nrows ncols (c * (nrows / 8) + y)).toNat.testBit k =
      bit inp ((8 * y + k) * ncols + c) := by
  rw [transposed, testBit_byteOf _ hk, stride_div c hy, stride_mod c hy]

theorem storeLow_fills {c off n value : Nat} (h : off + n ≤ nrows / 8)
    (hbits : ∀ k < 8 * n, value.testBit k = bit inp ((8 * off + k) * ncols + c)) :
    Fills (transposed inp nrows ncols) (Place nrows c off n)
      (storeLow n (c * (nrows / 8) + off) value) := by
  refine (fills_storeRange fun i hi => byte_eq fun k hk => ?_).congr fun a => place_iff h
  have hrow : 8 * (off + i) + k = 8 * off + (8 * i + k) := by omega
  rw [testBit_ofNat _ hk, Nat.testBit_shiftRight, hbits _ (by omega), Nat.add_assoc,
    bit_transposed (by omega) hk, hrow]

-- after `8 - i` shifts bit `8 - i` of every byte is at the place of its bit 0
theorem peel_fills {store : Nat → Reg → Mem → Mem} {target : Mem} {region : Nat → Nat → Prop}
    {x vec : Reg} {n : Nat} (hn : n ≤ 8)
    (hvec : ∀ p, ∀ b < n, bit vec (8 * p + b + (8 - n)) = bit x (8 * p + b))
    (hstore : ∀ i < n, ∀ y, (∀ p, bit y (8 * p + 7) = bit x (8 * p + i)) →
      Fills target (region i) (store i y)) :
    Fills target (fun a => ∃ i < n, region i a) fun out => (peel store n (vec, out)).2 := by
  induction n generalizing vec with
  | zero => exact fills_nothing.congr fun a => by simp
  | succ n ih =>
    have htop (p : Nat) : bit vec (8 * p + 7) = bit x (8 * p + n) := by
      have hplace : 8 * p + n + (8 - (n + 1)) = 8 * p + 7 := by omega
      rw [← hvec p n (Nat.lt_succ_self n), hplace]
    have hnext (p b : Nat) (hb : b < n) :
        bit (slliEpi64 vec 1) (8 * p + b + (8 - n)) = bit x (8 * p + b) := by
      have hplace : 8 * p + b + (8 - n) - 1 = 8 * p + b + (8 - (n + 1)) := by omega
      rw [bit_slliEpi64, decide_eq_true (by omega), Bool.true_and, hplace,
        hvec p b (Nat.lt_succ_of_lt hb)]
    have hlast := hstore n (Nat.lt_succ_self n) vec htop
    have hrest := ih (by omega) hnext fun i hi => hstore i (Nat.lt_succ_of_lt hi)
    refine (hlast.comp hrest).congr fun a => ?_
    constructor
    · rintro ⟨i, hi, ha⟩
      rcases Nat.lt_succ_iff_lt_or_eq.mp hi with hlt | rfl
      · exact Or.inr ⟨i, hlt, ha⟩
      · exact Or.inl ha
    · rintro (ha | ⟨i, hi, ha⟩)
      · exact ⟨n, Nat.lt_succ_self n, ha⟩
      · exact ⟨i, Nat.lt_succ_of_lt hi, ha⟩

theorem peel_all (target : Mem) (region : Nat → Nat → Prop) (store : Nat → Reg → Mem → Mem)
    (x : Reg) (hstore : ∀ i < 8, ∀ y, (∀ p, bit y (8 * p + 7) = bit x (8 * p + i)) →
      Fills target (region i) (store i y)) :
    Fills target (fun a => ∃ i < 8, region i a) fun out => (peel store 8 (x, out)).2 :=
  peel_fills le_rfl (fun _ _ _ => rfl) hstore

theorem storeTiles_fills (inp : Mem) (nrows ncols n colByte off : Nat) (m : Nat → Reg)
    (hoff : off + 2 ≤ nrows / 8)
    (hm : ∀ j < 16, ∀ l < n, ∀ k < 16, ∀ b < 8, bit (m j) (8 * (16 * l + k) + b) =
      bit inp ((8 * off + k) * ncols + ((colByte + 16 * l + j) * 8 + b))) :
    Fills (transposed inp nrows ncols)
      (fun a => (8 * colByte ≤ a / (nrows / 8) ∧ a / (nrows / 8) < 8 * colByte + 128 * n) ∧
        off ≤ a % (nrows / 8) ∧ a % (nrows / 8) < off + 2)
      (storeTiles n m (nrows / 8) colByte off) := by
  have hcolumn (j : Nat) (hj : j < 16) := peel_all (transposed inp nrows ncols)
    (fun b a => ∃ l < n, Place nrows ((colByte + 16 * l + j) * 8 + b) off 2 a)
    (fun b x out => (List.range n).foldl (fun out l =>
      storeU16Unaligned (((colByte + 16 * l + j) * 8 + b) * (nrows / 8) + off)
        (movemask (16 * n) x >>> (16 * l)) out) out)
    (m j) fun b hb y hy => fills_range fun l hl => storeLow_fills hoff fun k hk => by
      rw [Nat.testBit_shiftRight, testBit_movemask _ _ (by omega), hy,
        hm j hj l hl k (by omega) b hb]
  refine (fills_range hcolumn).congr fun a => ?_
  constructor
  · rintro ⟨⟨hlow, hhigh⟩, hrow⟩
    refine ⟨(a / (nrows / 8) / 8 - colByte) % 16, Nat.mod_lt _ (by decide), a / (nrows / 8) % 8,
      Nat.mod_lt _ (by decide), (a / (nrows / 8) / 8 - colByte) / 16, by omega, by omega, hrow⟩
  · rintro ⟨j, hj, b, hb, l, hl, hplace, hrow⟩
    exact ⟨by omega, hrow⟩

theorem bit_transpose16 {base : Nat → Nat} {j k b : Nat} (hj : j < 16) (hk : k < 16) (hb : b < 8)
    (l : Nat) : bit (transpose16 (fun r => loadu inp (base r)) j) (8 * (16 * l + k) + b) =
      bit inp (8 * (base k + (16 * l + j)) + b) := by
  rw [bit_at _ _ hb, bit_at _ _ hb, transpose16_at _ hj hk]
  rfl

end Target

section Fast

variable (inp : Mem) {nrows ncols : Nat}

theorem sseTransFast_fills (hrows : nrows % 16 = 0) (hcols : ncols % 128 = 0) :
    Fills (transposed inp nrows ncols) (fun a => a < ncols * (nrows / 8))
      (sseTransFast inp nrows ncols) := by
  have hW : nrows / 8 = 2 * (nrows / 16) := by omega
  have htile (s : Nat) (hs : s < nrows / 16) (d : Nat) (hd : d < ncols / 8 / 16) :=
    storeTiles_fills inp nrows ncols 1 (16 * d) (16 * s / 8) (sseTrans16x16Byte fun r =>
        loadu inp ((16 * s + r) * (ncols / 8) + 16 * d)) (by omega) fun j hj l hl k hk b hb => by
      have hstride : (16 * s + k) * ncols = 8 * ((16 * s + k) * (ncols / 8)) := by
        rw [Nat.mul_left_comm, (by omega : 8 * (ncols / 8) = ncols)]
      have hrow : 8 * (16 * s / 8) = 16 * s := by omega
      rw [sseTrans16x16Byte, bit_transpose16 hj hk hb, hrow, hstride]
      congr 1
      omega
  refine (fills_range fun s hs => fills_range fun d hd => htile s hs d hd).congr fun a => ?_
  rw [inside_iff]
  constructor
  · rintro ⟨hcolumn, hrow⟩
    exact ⟨a % (nrows / 8) / 2, by omega, a / (nrows / 8) / 128, by omega, by omega, by omega⟩
  · rintro ⟨s, hs, d, hd, hcolumn, hrow⟩
    omega

end Fast

section Blocks

variable {inp : Mem} {nrows ncols : Nat}

theorem outIndex_eq (hrows : nrows % 8 = 0) (x y : Nat) :
    outIndex nrows x y = y * (nrows / 8) + x / 8 := by
  rw [outIndex, Nat.mul_div_assoc y (Nat.dvd_of_mod_eq_zero hrows)]

theorem inpIndex_bits (hcols : ncols % 8 = 0) (x : Nat) {y : Nat} (hy : y % 8 = 0) :
    8 * inpIndex ncols x y = x * ncols + y := by
  have hcancel := Nat.mul_div_cancel' ((Nat.dvd_of_mod_eq_zero hcols).mul_left x)
  rw [inpIndex]
  omega

theorem bit_row (hcols : ncols % 8 = 0) {x y p b : Nat} (hy : y % 8 = 0) (hb : b < 8) {v : Reg}
    (hv : v p = inp (inpIndex ncols x y)) : bit v (8 * p + b) = bit inp (x * ncols + (y + b)) := by
  rw [bit_at _ _ hb, hv, ← bit_at _ _ hb, inpIndex_bits hcols x hy, Nat.add_assoc]

theorem sseTransBlocks_fills (inp : Mem) (hrows : nrows % 8 = 0) (hcols : ncols % 8 = 0) :
    Fills (transposed inp nrows ncols)
      (fun a => a / (nrows / 8) < ncols ∧ a % (nrows / 8) < 2 * (nrows / 16))
      (sseTransBlocks inp nrows ncols) := by
  have hblock (s : Nat) (hs : s < nrows / 16) (d : Nat) :=
    peel_all (transposed inp nrows ncols) (fun i => Place nrows (8 * d + i) (16 * s / 8) 2)
      (fun i vec out => storeU16Unaligned (outIndex nrows (16 * s) (8 * d + i))
        (movemask 16 vec) out)
      (fun k => inp (inpIndex ncols (16 * s + k) (8 * d))) fun i hi y hy => by
        rw [outIndex_eq hrows]
        refine storeLow_fills (by omega) fun k hk => ?_
        have hrow : 8 * (16 * s / 8) = 16 * s := by omega
        rw [testBit_movemask _ _ (by omega), hy, hrow]
        exact bit_row hcols (x := 16 * s + k) (Nat.mul_mod_right 8 d) hi rfl
  refine (fills_range fun s hs => fills_range fun d _ => hblock s hs d).congr fun a => ?_
  constructor
  · rintro ⟨hcolumn, hrow⟩
    exact ⟨a % (nrows / 8) / 2, by omega, a / (nrows / 8) / 8, by omega, a / (nrows / 8) % 8,
      Nat.mod_lt _ (by decide), by omega, by omega, by omega⟩
  · rintro ⟨s, hs, d, hd, i, hi, hcolumn, hrow⟩
    omega

end Blocks

section Rest

variable {inp : Mem} {nrows ncols rr : Nat}

theorem ofNat_loadU16 (src : Mem) (a : Nat) : UInt8.ofNat (loadU16Unaligned src a) = src a := by
  apply UInt8.toNat_inj.mp
  rw [UInt8.toNat_ofNat', loadU16Unaligned, Nat.add_mul_mod_self_left,
    Nat.mod_eq_of_lt (src a).toNat_lt]

theorem ofNat_loadU16_high (src : Mem) (a : Nat) :
    UInt8.ofNat (loadU16Unaligned src a >>> 8) = src (a + 1) := by
  have hlow := (src a).toNat_lt
  have hhigh := (src (a + 1)).toNat_lt
  apply UInt8.toNat_inj.mp
  rw [UInt8.toNat_ofNat', loadU16Unaligned, Nat.shiftRight_eq_div_pow]
  omega

theorem storeHalves_fills (hrows : nrows % 8 = 0) (hrr : rr % 8 = 0) (hlast : rr + 8 ≤ nrows)
    {cc i : Nat} {y : Reg}
    (hlow : ∀ k < 8, bit y (8 * k + 7) = bit inp ((rr + k) * ncols + (cc + i)))
    (hhigh : ∀ k < 8, bit y (8 * (8 + k) + 7) = bit inp ((rr + k) * ncols + (cc + i + 8))) :
    Fills (transposed inp nrows ncols)
      (fun a => Place nrows (cc + i) (rr / 8) 1 a ∨ Place nrows (cc + i + 8) (rr / 8) 1 a)
      (storeHalves nrows rr cc i y) := by
  have hrow : 8 * (rr / 8) = rr := by omega
  unfold storeHalves
  simp only [outIndex_eq hrows]
  refine (storeLow_fills (by omega) fun k hk => ?_).comp (storeLow_fills (by omega) fun k hk => ?_)
  · rw [testBit_movemask _ _ (by omega), hrow, hlow k (by omega)]
  · rw [Nat.testBit_shiftRight, testBit_movemask _ _ (by omega), hrow, hhigh k (by omega)]

theorem sseTransPairs_fills (inp : Mem) (hrows : nrows % 8 = 0) (hcols : ncols % 8 = 0)
    (hrr : rr % 8 = 0) (hlast : rr + 8 ≤ nrows) (tmp : Reg) :
    Fills (transposed inp nrows ncols)
      (fun a => a / (nrows / 8) < ncols / 16 * 16 ∧ a % (nrows / 8) = rr / 8)
      fun out => (sseTransPairs inp nrows ncols rr (tmp, out)).2 := by
  have hblock (d : Nat) (tmp : Reg) := peel_all (transposed inp nrows ncols)
    (fun i a =>
      Place nrows (16 * d + i) (rr / 8) 1 a ∨ Place nrows (16 * d + i + 8) (rr / 8) 1 a)
    (storeHalves nrows rr (16 * d)) (pairBytes inp ncols rr (16 * d) tmp)
    fun i hi y hy => storeHalves_fills hrows hrr hlast
      (fun k hk => by
        have hbyte : pairBytes inp ncols rr (16 * d) tmp k =
            inp (inpIndex ncols (rr + k) (16 * d)) := by
          rw [pairBytes, if_pos hk, ofNat_loadU16]
        rw [hy]
        exact bit_row hcols (by omega) hi hbyte)
      (fun k hk => by
        have hbyte : pairBytes inp ncols rr (16 * d) tmp (8 + k) =
            inp (inpIndex ncols (rr + k) (16 * d) + 1) := by
          rw [pairBytes, if_neg (by omega), if_pos (by omega), ofNat_loadU16_high,
            Nat.add_sub_cancel_left]
        have hplace := inpIndex_bits hcols (rr + k) (by omega : 16 * d % 8 = 0)
        rw [hy, bit_at _ _ hi, hbyte, ← bit_at _ _ hi, Nat.mul_add, hplace]
        congr 1
        omega)
  refine (fills_foldl_state (List.range (ncols / 16)) (fun d _ s => hblock d s) tmp).congr
    fun a => ?_
  · simp only [List.mem_range, Place]
    constructor
    · rintro ⟨hcolumn, hrow⟩
      refine ⟨a / (nrows / 8) / 16, by omega, a / (nrows / 8) % 8, Nat.mod_lt _ (by decide), ?_⟩
      omega
    · rintro ⟨d, hd, i, hi, ⟨hcolumn, hrow⟩ | ⟨hcolumn, hrow⟩⟩
      · omega
      · omega

theorem sseTransLast_fills (inp : Mem) (hrows : nrows % 8 = 0) (hcols : ncols % 8 = 0)
    (hrr : rr % 8 = 0) (hlast : rr + 8 ≤ nrows) {cc : Nat} (hcc : cc % 8 = 0) (tmp : Reg) :
    Fills (transposed inp nrows ncols)
      (fun a => (cc ≤ a / (nrows / 8) ∧ a / (nrows / 8) < cc + 8) ∧ a % (nrows / 8) = rr / 8)
      fun out => sseTransLast inp nrows ncols rr cc (tmp, out) := by
  have hrow : 8 * (rr / 8) = rr := by omega
  have hblock := peel_all (transposed inp nrows ncols)
    (fun i => Place nrows (cc + i) (rr / 8) 1)
    (fun i x out => storeByte (outIndex nrows rr (cc + i)) (movemask 16 x) out)
    (lastBytes inp ncols rr cc tmp) fun i hi y hy => by
      rw [outIndex_eq hrows]
      refine storeLow_fills (by omega) fun k hk => ?_
      have hbyte : lastBytes inp ncols rr cc tmp k = inp (inpIndex ncols (rr + k) cc) :=
        if_pos (by omega)
      rw [testBit_movemask _ _ (by omega), hrow, hy]
      exact bit_row hcols hcc hi hbyte
  refine hblock.congr fun a => ?_
  constructor
  · rintro ⟨hcolumn, hrow⟩
    exact ⟨a / (nrows / 8) - cc, by omega, by omega, by omega, by omega⟩
  · rintro ⟨i, hi, hcolumn, hrow⟩
    omega

-- with an odd number of rows of bytes the last one is left for the pairs and the final block
theorem sseTrans_run (tmp : Reg) (out inp : Mem) (hrows : nrows % 8 = 0) (hcols : ncols % 8 = 0) :
    sseTrans tmp out inp nrows ncols = .ok (
      if nrows % 16 = 0 ∧ ncols % 128 = 0 then sseTransFast inp nrows ncols out
      else if nrows / 16 * 16 = nrows then sseTransBlocks inp nrows ncols out
      else
        let s := sseTransPairs inp nrows ncols (nrows / 16 * 16)
          (tmp, sseTransBlocks inp nrows ncols out)
        if ncols / 16 * 16 = ncols then s.2
        else sseTransLast inp nrows ncols (nrows / 16 * 16) (ncols / 16 * 16) s) := by
  have hcheck : expecting (nrows % 8 = 0 ∧ ncols % 8 = 0)
      "sse_trans: dimensions must be multiples of 8" = .ok () := expecting_eq_ok.mpr ⟨hrows, hcols⟩
  unfold sseTrans
  rw [hcheck]
  by_cases hfast : nrows % 16 = 0 ∧ ncols % 128 = 0
  · simp only [if_pos hfast]
    rfl
  · by_cases heven : nrows / 16 * 16 = nrows
    · simp only [if_neg hfast, if_pos heven]
      rfl
    · have hodd : (ncols % 8 = 0 ∧ ncols % 16 ≠ 0) ∨ (nrows % 8 = 0 ∧ nrows % 16 ≠ 0) :=
        Or.inr ⟨hrows, by omega⟩
      simp only [if_neg hfast, if_neg heven, if_pos hodd]
      split
      case isTrue hdone => rfl
      case isFalse hmore => rfl

theorem sseTrans_fills (tmp : Reg) (inp : Mem) (hrows : nrows % 8 = 0) (hcols : ncols % 8 = 0) :
    ∃ f, (∀ out, sseTrans tmp out inp nrows ncols = .ok (f out)) ∧
      Fills (transposed inp nrows ncols) (fun a => a < ncols * (nrows / 8)) f := by
  refine ⟨_, fun out => sseTrans_run tmp out inp hrows hcols, ?_⟩
  have hblocks := sseTransBlocks_fills inp hrows hcols
  by_cases hfast : nrows % 16 = 0 ∧ ncols % 128 = 0
  · simp only [if_pos hfast]
    exact sseTransFast_fills inp hfast.1 hfast.2
  by_cases heven : nrows / 16 * 16 = nrows
  · simp only [if_neg hfast, if_pos heven]
    refine hblocks.congr fun a => ?_
    rw [inside_iff]
    omega
  have hstrip : nrows / 16 * 16 % 8 = 0 := by omega
  have hend : nrows / 16 * 16 + 8 ≤ nrows := by omega
  have hboth := hblocks.comp (sseTransPairs_fills inp hrows hcols hstrip hend tmp)
  by_cases hdone : ncols / 16 * 16 = ncols
  · simp only [if_neg hfast, if_neg heven, if_pos hdone]
    refine hboth.congr fun a => ?_
    rw [inside_iff]
    omega
  · simp only [if_neg hfast, if_neg heven, if_neg hdone]
    have hcc : ncols / 16 * 16 % 8 = 0 := by omega
    have hlast (s : Reg) := sseTransLast_fills inp hrows hcols hstrip hend hcc s
    refine (hboth.comp_state hlast).congr fun a => ?_
    rw [inside_iff]
    omega

end Rest

section Narrow

variable (inp : Mem) {ncols : Nat}

def Strip (rrIdx colBlock n a : Nat) : Prop :=
  (128 * colBlock ≤ a / 16 ∧ a / 16 < 128 * (colBlock + n)) ∧ a % 16 / 2 = rrIdx

theorem tiles_fills (hcols : ncols % 128 = 0) {rrIdx : Nat} (hstrip : rrIdx < 8)
    (n colBlock : Nat) :
    Fills (transposed inp 128 ncols) (Strip rrIdx colBlock n)
      (storeTiles n (transpose16 fun r =>
        loadu inp (16 * ((rrIdx * 16 + r) * (ncols / 128) + colBlock))) 16 (16 * colBlock)
        (rrIdx * 2)) := by
  have htiles := storeTiles_fills inp 128 ncols n (16 * colBlock) (rrIdx * 2)
    (transpose16 fun r => loadu inp (16 * ((rrIdx * 16 + r) * (ncols / 128) + colBlock)))
    (by omega) fun j hj l hl k hk b hb => by
      have hstride : (rrIdx * 16 + k) * ncols = 128 * ((rrIdx * 16 + k) * (ncols / 128)) := by
        rw [Nat.mul_left_comm, (by omega : 128 * (ncols / 128) = ncols)]
      have hrow : 8 * (rrIdx * 2) = rrIdx * 16 := by omega
      rw [bit_transpose16 hj hk hb, hrow, hstride]
      congr 1
      omega
  refine htiles.congr fun a => ?_
  rw [Strip]
  omega

theorem sseTransN128OneTileSse2_fills (hcols : ncols % 128 = 0) {rrIdx : Nat} (hstrip : rrIdx < 8)
    (colBlock : Nat) :
    Fills (transposed inp 128 ncols) (Strip rrIdx colBlock 1)
      (sseTransN128OneTileSse2 inp (ncols / 128) (rrIdx * 16) colBlock rrIdx) :=
  tiles_fills inp hcols hstrip 1 colBlock

theorem sseTransN128Sse2_fills (hcols : ncols % 128 = 0) :
    Fills (transposed inp 128 ncols) (fun a => a < ncols * 16)
      fun out => sseTransN128Sse2 out inp ncols := by
  have hstrips := fills_range (n := 8) fun rrIdx hstrip => fills_range (n := ncols / 128)
    fun colBlock _ => sseTransN128OneTileSse2_fills inp hcols hstrip colBlock
  refine hstrips.congr fun a => ?_
  unfold Strip
  constructor
  · intro ha
    exact ⟨a % 16 / 2, by omega, a / 16 / 128, by omega, by omega⟩
  · rintro ⟨rrIdx, hstrip, colBlock, hblock, hcolumn, hrow⟩
    omega

theorem sseTransN128Wide_fills (hcols : ncols % 128 = 0) (n : Nat) :
    Fills (transposed inp 128 ncols) (fun a => a < ncols * 16)
      fun out => sseTransN128Wide n transpose16 out inp ncols := by
  have hstrips := fills_range (n := 8) fun rrIdx hstrip =>
    (fills_range (n := ncols / 128 / n) fun cb _ =>
      tiles_fills inp hcols hstrip n (cb * n)).comp
    (fills_foldl (List.range' (ncols / 128 / n * n) (ncols / 128 - ncols / 128 / n * n))
      fun colBlock _ => sseTransN128OneTileSse2_fills inp hcols hstrip colBlock)
  refine hstrips.congr fun a => ?_
  unfold Strip
  simp only [List.mem_range'_1]
  have hgroups := Nat.div_mul_le_self (ncols / 128) n
  constructor
  · intro ha
    refine ⟨a % 16 / 2, by omega, ?_⟩
    by_cases htail : ncols / 128 / n * n ≤ a / 16 / 128
    · exact Or.inr ⟨a / 16 / 128, by omega, by omega, rfl⟩
    · have hpos : 0 < n := Nat.pos_of_ne_zero fun hnil => by
        rw [hnil, Nat.mul_zero] at htail
        exact htail (Nat.zero_le _)
      have hgroup : a / 16 / 128 / n < ncols / 128 / n :=
        (Nat.div_lt_iff_lt_mul hpos).mpr (Nat.lt_of_not_le htail)
      have hsplit := Nat.div_add_mod' (a / 16 / 128) n
      have hlane := Nat.mod_lt (a / 16 / 128) hpos
      exact Or.inl ⟨a / 16 / 128 / n, hgroup, by omega, rfl⟩
  · rintro ⟨rrIdx, hstrip, ⟨cb, hcb, hcolumn, hrow⟩ | ⟨colBlock, hblock, hcolumn, hrow⟩⟩
    · have hwhole : (cb + 1) * n ≤ ncols / 128 / n * n := Nat.mul_le_mul_right n hcb
      rw [Nat.succ_mul] at hwhole
      omega
    · omega

end Narrow

section Exact

variable {inp : Mem} {nrows ncols : Nat}

theorem transposed_bits {f : Mem → Mem} (hrows : nrows % 8 = 0)
    (hf : Fills (transposed inp nrows ncols) (fun a => a < ncols * (nrows / 8)) f) (out : Mem)
    {r c : Nat} (hr : r < nrows) (hc : c < ncols) :
    bit (f out) (c * nrows + r) = bit inp (r * ncols + c) := by
  have hplace : c * nrows + r = 8 * (c * (nrows / 8) + r / 8) + r % 8 := by
    rw [Nat.mul_add, Nat.mul_left_comm, (by omega : 8 * (nrows / 8) = nrows)]
    omega
  have hrow : 8 * (r / 8) + r % 8 = r := Nat.div_add_mod r 8
  have hlt : r % 8 < 8 := Nat.mod_lt r (by decide)
  have hin : c * (nrows / 8) + r / 8 < ncols * (nrows / 8) := by
    have hcolumns : (c + 1) * (nrows / 8) ≤ ncols * (nrows / 8) := Nat.mul_le_mul_right _ hc
    rw [Nat.succ_mul] at hcolumns
    omega
  rw [hplace, bit_at _ _ hlt, hf.inside out _ hin, bit_transposed (by omega) hlt, hrow]

theorem bit_matrix_transpose_exact (tmp : Reg) (out inp : Mem) (nrows ncols : Nat)
    (hrows : nrows % 8 = 0) (hcols : ncols % 8 = 0) :
    (∃ result, sseTrans tmp out inp nrows ncols = .ok result ∧
      (∀ r < nrows, ∀ c < ncols, bit result (c * nrows + r) = bit inp (r * ncols + c)) ∧
      ∀ a, ncols * nrows / 8 ≤ a → result a = out a) ∧
    (ncols % 128 = 0 →
      sseTrans tmp out inp 128 ncols = .ok (sseTransN128Sse2 out inp ncols) ∧
      sseTrans tmp out inp 128 ncols = .ok (sseTransN128Avx2 out inp ncols) ∧
      sseTrans tmp out inp 128 ncols = .ok (sseTransN128Avx512bw out inp ncols)) := by
  constructor
  · obtain ⟨f, hrun, hf⟩ := sseTrans_fills tmp inp hrows hcols
    refine ⟨f out, hrun out, fun r hr c hc => transposed_bits hrows hf out hr hc, fun a ha => ?_⟩
    rw [Nat.mul_div_assoc ncols (Nat.dvd_of_mod_eq_zero hrows)] at ha
    exact hf.outside out a (Nat.not_lt.mpr ha)
  · intro hwide
    obtain ⟨f, hrun, hf⟩ := @sseTrans_fills 128 ncols tmp inp rfl hcols
    have hsse2 := hf.unique (sseTransN128Sse2_fills inp hwide) out
    have havx2 := hf.unique (sseTransN128Wide_fills inp hwide 2) out
    have havx512bw := hf.unique (sseTransN128Wide_fills inp hwide 4) out
    rw [hrun, hsse2]
    exact ⟨rfl, congrArg Except.ok (hsse2.symm.trans havx2),
      congrArg Except.ok (hsse2.symm.trans havx512bw)⟩

-- 24 rows of 136 columns take the blocks, the pairs and the final block, 640 columns the tails
theorem bit_matrix_transpose_exact_squares :
    (∃ result, sseTrans (fun _ => 0) (fun _ => 0) (fun a => UInt8.ofNat (a * a)) 24 136 =
        .ok result ∧
      (∀ r < 24, ∀ c < 136,
        bit result (c * 24 + r) = bit (fun a => UInt8.ofNat (a * a)) (r * 136 + c)) ∧
      ∀ a, 136 * 24 / 8 ≤ a → result a = 0) ∧
    sseTrans (fun _ => 0) (fun _ => 0) (fun a => UInt8.ofNat (a * a)) 128 640 =
      .ok (sseTransN128Sse2 (fun _ => 0) (fun a => UInt8.ofNat (a * a)) 640) ∧
    sseTrans (fun _ => 0) (fun _ => 0) (fun a => UInt8.ofNat (a * a)) 128 640 =
      .ok (sseTransN128Avx2 (fun _ => 0) (fun a => UInt8.ofNat (a * a)) 640) ∧
    sseTrans (fun _ => 0) (fun _ => 0) (fun a => UInt8.ofNat (a * a)) 128 640 =
      .ok (sseTransN128Avx512bw (fun _ => 0) (fun a => UInt8.ofNat (a * a)) 640) :=
  ⟨(bit_matrix_transpose_exact (fun _ => 0) (fun _ => 0) (fun a => UInt8.ofNat (a * a)) 24 136
      (by decide) (by decide)).1,
    (bit_matrix_transpose_exact (fun _ => 0) (fun _ => 0) (fun a => UInt8.ofNat (a * a)) 128 640
      (by decide) (by decide)).2 (by decide)⟩

end Exact

end EmpTool.Transpose
