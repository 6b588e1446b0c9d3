import EmpTool.Crypto.Blake3Chunk

namespace EmpTool.Crypto.Blake3

open Memory SubtreeStack

section Parents

variable (key : Words) (flags : UInt8)

def parentNode (left right : Bytes) : Output := parentOutput (left ++ right) key flags

theorem short_cases {cvs : List Bytes}
    (h : ∀ left right rest, cvs = left :: right :: rest → False) : cvs = [] ∨ ∃ cv, cvs = [cv] := by
  cases cvs with
  | nil => exact Or.inl rfl
  | cons cv cvs =>
    cases cvs with
    | nil => exact Or.inr ⟨cv, rfl⟩
    | cons right rest => exact (h cv right rest rfl).elim

theorem hashMany_parents {cvs : List Bytes} (h : ∀ cv ∈ cvs, cv.length = 32) (rest : List Bytes) :
    hashMany 1 key false (flags ||| parentFlag) 0 0 0 (parentsArray cvs) ++ rest =
      pairUp outputChainingValue (parentNode key flags) (cvs.take (2 * (cvs.length / 2))) ++
        rest := by
  congr 1
  induction cvs using parentsArray.induct with
  | case1 left right tail ih =>
    have hl := h left (by simp)
    have hr := h right (by simp)
    have htail := ih fun cv hcv => h cv (by simp [hcv])
    have hlen : 2 * ((left :: right :: tail).length / 2) = 2 * (tail.length / 2) + 1 + 1 := by
      simp only [List.length_cons]
      omega
    rw [parentsArray, hashMany, hashOne_parent hl hr, hlen, List.take_succ_cons,
      List.take_succ_cons, pairUp, ← htail]
    rfl
  | case2 cvs hshort =>
    rcases short_cases hshort with rfl | ⟨cv, rfl⟩
    · simp [parentsArray, hashMany, pairUp]
    · simp [parentsArray, hashMany, pairUp]

theorem compressParentsParallel_eq {cvs : List Bytes} (h : ∀ cv ∈ cvs, cv.length = 32) :
    compressParentsParallel cvs key flags =
      pairUp outputChainingValue (parentNode key flags) cvs := by
  have hpairs : (cvs.take (2 * (cvs.length / 2))).length = 2 * (cvs.length / 2) := by
    rw [List.length_take]
    omega
  have hsplit := pairUp_append outputChainingValue (parentNode key flags) (cvs.length / 2) hpairs
    (cvs.drop (2 * (cvs.length / 2)))
  rw [List.take_append_drop] at hsplit
  rw [hsplit, ← hashMany_parents key flags h, compressParentsParallel, parentsArray_length]
  split
  case isTrue hodd =>
    have hlast : cvs.drop (2 * (cvs.length / 2)) = [cvs.getD (2 * (cvs.length / 2)) []] := by
      rw [List.drop_eq_getElem_cons hodd, List.drop_eq_nil_of_le (by omega),
        List.getD_eq_getElem?_getD, List.getElem?_eq_getElem hodd, Option.getD_some]
    rw [hlast, pairUp_singleton]
  case isFalse heven =>
    rw [List.drop_eq_nil_of_le (Nat.le_of_not_lt heven), pairUp, List.append_nil]
    simp

theorem length_of_mem_pairUp {cvs : List Bytes} (h : ∀ cv ∈ cvs, cv.length = 32) :
    ∀ cv ∈ pairUp outputChainingValue (parentNode key flags) cvs, cv.length = 32 := by
  induction cvs using pairUp.induct with
  | case1 left right rest ih =>
    intro cv hcv
    rw [pairUp] at hcv
    rcases List.mem_cons.mp hcv with rfl | hcv
    · exact outputChainingValue_length _
    · exact ih (fun cv hcv => h cv (by simp [hcv])) cv hcv
  | case2 cvs hshort =>
    rcases short_cases hshort with rfl | ⟨cv, rfl⟩
    · simp [pairUp]
    · simpa using h

theorem condenseCvs_step {cvs : List Bytes} (h : 2 < cvs.length) :
    condenseCvs key flags cvs =
      condenseCvs key flags (compressParentsParallel cvs key flags) := by
  rw [condenseCvs, dif_pos h]

theorem condenseCvs_eq {cvs : List Bytes} (h : ∀ cv ∈ cvs, cv.length = 32) :
    condenseCvs key flags cvs = condense outputChainingValue (parentNode key flags) cvs := by
  induction cvs using condenseCvs.induct key flags with
  | case1 cvs hlong _ ih =>
    rw [compressParentsParallel_eq key flags h] at ih
    rw [condenseCvs_step key flags hlong, compressParentsParallel_eq key flags h,
      condense_step _ _ hlong, ih (length_of_mem_pairUp key flags h)]
  | case2 cvs hshort =>
    rw [condenseCvs, dif_neg hshort, condense_of_le _ _ (Nat.le_of_not_lt hshort)]

end Parents

section Chunks

variable {key : Words} {flags : UInt8}

def chunkOf (input : Bytes) (i : Nat) : Bytes := (input.drop (chunkBytes * i)).take chunkBytes

theorem chunkOf_drop (input : Bytes) (m i : Nat) :
    chunkOf (input.drop (chunkBytes * m)) i = chunkOf input (m + i) := by
  rw [chunkOf, chunkOf, List.drop_drop, Nat.mul_add]

theorem chunkOf_succ (input : Bytes) (i : Nat) :
    chunkOf (input.drop chunkBytes) i = chunkOf input (i + 1) := by
  have h := chunkOf_drop input 1 i
  rwa [Nat.mul_one, Nat.add_comm 1 i] at h

theorem chunkOf_take {m i : Nat} (h : i < m) (input : Bytes) :
    chunkOf (input.take (chunkBytes * m)) i = chunkOf input i := by
  have hfit := Nat.mul_le_mul_left chunkBytes h
  rw [Nat.mul_succ] at hfit
  rw [chunkOf, chunkOf, List.drop_take, List.take_take, Nat.min_eq_left (by omega)]

theorem div_chunkBytes {input : Bytes} (h : chunkBytes ≤ input.length) :
    input.length / chunkBytes = (input.drop chunkBytes).length / chunkBytes + 1 := by
  rw [List.length_drop, ← Nat.add_div_right _ chunkBytes_pos, Nat.sub_add_cancel h]

theorem chunksArray_long {input : Bytes} (h : chunkBytes ≤ input.length) :
    chunksArray input = input :: chunksArray (input.drop chunkBytes) := by
  rw [chunksArray, dif_pos h]

theorem chunksArray_short {input : Bytes} (h : input.length < chunkBytes) :
    chunksArray input = [] := by
  rw [chunksArray, dif_neg (by omega)]

theorem chunksArray_length (input : Bytes) :
    (chunksArray input).length = input.length / chunkBytes := by
  induction input using chunksArray.induct with
  | case1 input h _ ih => rw [chunksArray_long h, List.length_cons, ih, div_chunkBytes h]
  | case2 input h =>
    have hlt := Nat.lt_of_not_le h
    rw [chunksArray_short hlt, Nat.div_eq_of_lt hlt, List.length_nil]

theorem hashMany_chunks (lo : Nat) (input : Bytes) :
    hashMany (chunkBytes / blockBytes) key true flags chunkStart chunkEnd (UInt64.ofNat lo)
        (chunksArray input) =
      (List.range (input.length / chunkBytes)).map fun i =>
        outputChainingValue (leafNode key flags (lo + i) (chunkOf input i)) := by
  induction input using chunksArray.induct generalizing lo with
  | case1 input h _ ih =>
    have hnext : UInt64.ofNat lo + 1 = UInt64.ofNat (lo + 1) := (UInt64.ofNat_add lo 1).symm
    rw [chunksArray_long h, div_chunkBytes h, hashMany, hashOne_chunk lo h, if_pos rfl, hnext, ih,
      List.range_succ_eq_map, List.map_cons, List.map_map]
    refine congrArg₂ List.cons rfl (List.map_congr_left fun i _ => ?_)
    rw [Function.comp_apply, chunkOf_succ, Nat.succ_eq_add_one, Nat.add_assoc, Nat.add_comm 1 i]
  | case2 input h =>
    have hlt := Nat.lt_of_not_le h
    rw [chunksArray_short hlt, Nat.div_eq_of_lt hlt]
    rfl

theorem chunkCount_of_mod {n : Nat} (h : 0 < n % chunkBytes) :
    chunkCount n = n / chunkBytes + 1 := by
  have hdiv := Nat.div_add_mod n chunkBytes
  have hlt := Nat.mod_lt n chunkBytes_pos
  have hlast : (n - 1) / chunkBytes = n / chunkBytes := by
    apply (Nat.div_eq_iff chunkBytes_pos).mpr
    rw [Nat.mul_comm]
    omega
  rw [chunkCount, hlast]

theorem chunkCount_of_dvd {n : Nat} (hpos : 0 < n) (h : n % chunkBytes = 0) :
    chunkCount n = n / chunkBytes := by
  obtain ⟨q, rfl⟩ := Nat.dvd_of_mod_eq_zero h
  have hq : 0 < q := Nat.pos_of_mul_pos_left hpos
  obtain ⟨r, rfl⟩ := Nat.exists_eq_add_of_lt hq
  have hlast : (chunkBytes * (0 + r + 1) - 1) / chunkBytes = r := by
    apply (Nat.div_eq_iff chunkBytes_pos).mpr
    rw [Nat.zero_add, Nat.mul_succ, Nat.mul_comm]
    have hb := chunkBytes_pos
    omega
  rw [chunkCount, hlast, Nat.mul_div_cancel_left _ chunkBytes_pos, Nat.zero_add]

theorem compressChunksParallel_eq (lo : Nat) {input : Bytes} (hpos : 0 < input.length) :
    compressChunksParallel input key (UInt64.ofNat lo) flags =
      (List.range (chunkCount input.length)).map fun i =>
        outputChainingValue (leafNode key flags (lo + i) (chunkOf input i)) := by
  have hdiv := Nat.div_add_mod input.length chunkBytes
  have hmod := Nat.mod_lt input.length chunkBytes_pos
  rw [compressChunksParallel, hashMany_chunks, chunksArray_length]
  split
  case isTrue hrest =>
    have hshort : (input.drop (chunkBytes * (input.length / chunkBytes))).length ≤ chunkBytes := by
      rw [List.length_drop]
      omega
    have hlast := @leaf_chunkAt key flags (lo + input.length / chunkBytes) _ hshort
    rw [chunkCount_of_mod (by omega), List.range_succ, List.map_append, List.map_singleton,
      ← UInt64.ofNat_add, chunkOf, List.take_of_length_le hshort, ← hlast]
    rfl
  case isFalse hrest =>
    rw [chunkCount_of_dvd hpos (by omega)]

end Chunks

section Wide

variable {key : Words} {flags : UInt8} {simd : SimdDegree}

def levels (simd : SimdDegree) : Nat := max simd.log2 1

theorem maxSimdDegreeOr2_eq (simd : SimdDegree) : maxSimdDegreeOr2 simd = 2 ^ levels simd := by
  rw [maxSimdDegreeOr2, SimdDegree.lanes, levels]
  by_cases h : simd.log2 ≤ 1
  · have hle := Nat.pow_le_pow_right Nat.two_pos h
    rw [if_neg (by omega), Nat.max_eq_right h, Nat.pow_one]
  · have hlt := Nat.pow_lt_pow_right (a := 2) (by omega) (Nat.lt_of_not_le h)
    rw [if_pos (by omega), Nat.max_eq_left (by omega)]

variable (key flags simd) in
structure Wide (leaf : Nat → Output) (n lo : Nat) (cvs : List Bytes) : Prop where
  bytes : ∀ cv ∈ cvs, cv.length = 32
  row : Row leaf outputChainingValue (parentNode key flags) (levels simd) n lo cvs
  full : ∀ k, n = 2 ^ k → cvs.length = 2 ^ min k (levels simd)
  split : 1 < n → ∃ j ls rs, cvs = ls ++ rs ∧ ls.length = 2 ^ j ∧ rs ≠ [] ∧
    Row leaf outputChainingValue (parentNode key flags) j (leftLeaves n) lo ls ∧
    Row leaf outputChainingValue (parentNode key flags) j (n - leftLeaves n)
      (lo + leftLeaves n) rs

theorem wide_leaves (leaf : Nat → Output) {n : Nat} (hpos : 0 < n)
    (hn : n ≤ 2 ^ levels simd) (lo : Nat) : Wide key flags simd leaf n lo
      ((List.range n).map fun i => outputChainingValue (leaf (lo + i))) where
  bytes cv hcv := by
    obtain ⟨i, -, rfl⟩ := List.mem_map.mp hcv
    exact outputChainingValue_length _
  row := row_leaves hpos hn lo
  full k hk := by
    rw [hk, Nat.pow_le_pow_iff_right (by omega)] at hn
    rw [List.length_map, List.length_range, hk, Nat.min_eq_left hn]
  split hn := by
    have hlt := leftLeaves_lt hn
    have hle := le_two_leftLeaves n
    have hsplit : leftLeaves n + (n - leftLeaves n) = n := by omega
    have hright : n - leftLeaves n ≤ 2 ^ (n - 1).log2 := by
      rw [leftLeaves] at hle ⊢
      omega
    refine ⟨(n - 1).log2, _, _, ?_, ?_, ?_, row_leaves (leftLeaves_pos n) (Nat.le_refl _) lo,
      row_leaves (by omega) hright (lo + leftLeaves n)⟩
    · conv_lhs => rw [← hsplit]
      rw [List.range_add, List.map_append, List.map_map]
      simp only [Function.comp_def, Nat.add_assoc]
    · rw [List.length_map, List.length_range, leftLeaves]
    · rw [ne_eq, List.map_eq_nil_iff, List.range_eq_nil]
      omega

theorem slice_writeCvs (left right : List Bytes) (cvArray : Nat → Bytes) :
    slice (writeCvs left.length right (writeCvs 0 left cvArray)) 0 (left.length + right.length) =
      left ++ right := by
  rw [← slice_append, Nat.zero_add, writeCvs, slice_storeRange, slice_getD,
    slice_storeRange_before (by omega), writeCvs, slice_storeRange, slice_getD]

theorem Wide.merge {leaf : Nat → Output} {k m lo : Nat} {left right : List Bytes}
    (hleft : Wide key flags simd leaf (2 ^ k) lo left) (hwide : left.length = 2 ^ levels simd)
    (hk : levels simd ≤ k) (hm : 0 < m) (hle : m ≤ 2 ^ k)
    (hright : Wide key flags simd leaf m (lo + 2 ^ k) right) :
    Wide key flags simd leaf (2 ^ k + m) lo
      (compressParentsParallel (left ++ right) key flags) := by
  obtain ⟨d, hd⟩ := Nat.exists_eq_add_of_lt (Nat.lt_of_lt_of_le Nat.one_pos
    (Nat.le_max_right simd.log2 1) : 0 < levels simd)
  rw [Nat.zero_add] at hd
  have hbytes : ∀ cv ∈ left ++ right, cv.length = 32 := fun cv hcv =>
    (List.mem_append.mp hcv).elim (hleft.bytes cv) (hright.bytes cv)
  have hl := hleft.row
  have hr := hright.row
  rw [hd] at hl hr hwide
  have hhalf : left.length = 2 * 2 ^ d := by rw [hwide, Nat.pow_succ']
  have hpairs := pairUp_append outputChainingValue (parentNode key flags) (2 ^ d) hhalf right
  have hfull : (pairUp outputChainingValue (parentNode key flags) left).length = 2 ^ d := by
    rw [pairUp_length, hhalf]
    omega
  rw [compressParentsParallel_eq key flags hbytes]
  refine ⟨length_of_mem_pairUp key flags hbytes, ?_, ?_, ?_⟩
  · rw [hpairs, hd]
    exact hl.pairUp.append hfull hm hle hr.pairUp
  · intro a ha
    have hlow : 2 ^ k < 2 ^ a := by omega
    have hhigh : 2 ^ a ≤ 2 ^ (k + 1) := by
      rw [Nat.pow_succ]
      omega
    rw [Nat.pow_lt_pow_iff_right (by omega)] at hlow
    rw [Nat.pow_le_pow_iff_right (by omega)] at hhigh
    have hak : a = k + 1 := by omega
    have hmk : m = 2 ^ k := by
      rw [hak, Nat.pow_succ] at ha
      omega
    have hlen := hright.full k hmk
    rw [Nat.min_eq_right hk, hd] at hlen
    rw [hpairs, List.length_append, hfull, pairUp_length, hlen, hak, hd,
      Nat.min_eq_right (by omega), Nat.pow_succ]
    omega
  · intro _
    refine ⟨d, _, _, hpairs, hfull, ?_, ?_, ?_⟩
    · exact hr.pairUp.ne_nil
    · rw [leftLeaves_add hm hle]
      exact hl.pairUp
    · rw [leftLeaves_add hm hle, Nat.add_sub_cancel_left]
      exact hr.pairUp

theorem compressSubtreeWide_large {input : Bytes} (h : simd.lanes * chunkBytes < input.length)
    (chunkCounter : UInt64) :
    compressSubtreeWide simd input key chunkCounter flags =
      let leftInputLen := leftSubtreeLen input.length
      let degree := if leftInputLen > chunkBytes ∧ simd.lanes = 1 then 2 else simd.lanes
      let left := compressSubtreeWide simd (input.take leftInputLen) key chunkCounter flags
      let right := compressSubtreeWide simd (input.drop leftInputLen) key
        (chunkCounter + UInt64.ofNat (leftInputLen / chunkBytes)) flags
      let cvArray := writeCvs degree right (writeCvs 0 left fun _ => [])
      if left.length = 1 then slice cvArray 0 2
      else compressParentsParallel (slice cvArray 0 (left.length + right.length)) key flags := by
  rw [compressSubtreeWide, dif_neg (by omega)]

theorem chunkCount_le {n m : Nat} (hpos : 0 < n) (h : n ≤ m * chunkBytes) : chunkCount n ≤ m := by
  have hlt : n - 1 < chunkBytes * m := by
    rw [Nat.mul_comm]
    omega
  exact Nat.div_lt_of_lt_mul hlt

theorem lt_chunkCount {n m : Nat} (h : m * chunkBytes < n) : m < chunkCount n :=
  Nat.lt_succ_of_le ((Nat.le_div_iff_mul_le chunkBytes_pos).mpr (by omega))

theorem chunkCount_mul {m : Nat} (hm : 0 < m) : chunkCount (chunkBytes * m) = m := by
  rw [chunkCount_of_dvd (Nat.mul_pos chunkBytes_pos hm) (Nat.mul_mod_right _ _),
    Nat.mul_div_cancel_left _ chunkBytes_pos]

theorem chunkCount_sub {n m : Nat} (h : chunkBytes * m < n) :
    chunkCount (n - chunkBytes * m) = chunkCount n - m := by
  have hsub : n - chunkBytes * m - 1 = n - 1 - chunkBytes * m := by omega
  have hle : m ≤ (n - 1) / chunkBytes := by
    apply (Nat.le_div_iff_mul_le chunkBytes_pos).mpr
    rw [Nat.mul_comm]
    omega
  rw [chunkCount, chunkCount, hsub, Nat.sub_mul_div]
  omega

theorem lanes_le_levels (simd : SimdDegree) : simd.lanes ≤ 2 ^ levels simd :=
  Nat.pow_le_pow_right Nat.two_pos (Nat.le_max_left _ _)

theorem two_le_levels (simd : SimdDegree) : 2 ≤ 2 ^ levels simd :=
  Nat.pow_le_pow_right (i := 1) Nat.two_pos (Nat.le_max_right _ _)

theorem degree_eq (simd : SimdDegree) :
    (if simd.lanes = 1 then 2 else simd.lanes) = 2 ^ levels simd := by
  rw [levels, SimdDegree.lanes]
  rcases Nat.eq_zero_or_pos simd.log2 with hz | hpos
  · rw [hz]
    rfl
  · have hlt := Nat.pow_lt_pow_right (a := 2) (by omega) hpos
    rw [if_neg (by omega), Nat.max_eq_left hpos]

theorem Wide.join {leaf : Nat → Output} {k m lo : Nat} {left right : List Bytes}
    (hleft : Wide key flags simd leaf (2 ^ k) lo left) (hm : 0 < m) (hle : m ≤ 2 ^ k)
    (hright : Wide key flags simd leaf m (lo + 2 ^ k) right) (hlanes : simd.lanes < 2 ^ k + m) :
    let degree := if chunkBytes * 2 ^ k > chunkBytes ∧ simd.lanes = 1 then 2 else simd.lanes
    let cvArray := writeCvs degree right (writeCvs 0 left fun _ => [])
    Wide key flags simd leaf (2 ^ k + m) lo
      (if left.length = 1 then slice cvArray 0 2
      else compressParentsParallel (slice cvArray 0 (left.length + right.length)) key flags) := by
  intro degree cvArray
  have hcount := hleft.full k rfl
  have hbytes := chunkBytes_pos
  have hslice (h : degree = left.length) :
      slice cvArray 0 (left.length + right.length) = left ++ right := by
    rw [← slice_writeCvs left right fun _ => [], ← h]
  rcases Nat.eq_zero_or_pos k with rfl | hk
  · have hone : m = 1 := by
      rw [Nat.pow_zero] at hle
      omega
    have hlane : simd.lanes = 1 := by
      have hpos : 0 < simd.lanes := Nat.two_pow_pos _
      rw [Nat.pow_zero] at hlanes
      omega
    have hdegree : degree = 1 := by
      simp only [degree, Nat.pow_zero, Nat.mul_one]
      rw [if_neg (fun h => Nat.lt_irrefl _ h.1), hlane]
    subst hone
    have hcount' := hright.full 0 rfl
    rw [Nat.zero_min, Nat.pow_zero] at hcount hcount'
    have hboth := hslice (hdegree.trans hcount.symm)
    rw [hcount, hcount', hleft.row.singleton hcount, hright.row.singleton hcount'] at hboth
    rw [if_pos hcount, hboth]
    simpa [List.range_succ] using
      @wide_leaves key flags simd leaf 2 (Nat.succ_pos 1) (two_le_levels simd) lo
  · have hlevels : levels simd ≤ k := by
      have hlt : 2 ^ simd.log2 < 2 ^ (k + 1) := by
        rw [SimdDegree.lanes] at hlanes
        rw [Nat.pow_succ]
        omega
      rw [Nat.pow_lt_pow_iff_right (by omega)] at hlt
      rw [levels]
      omega
    have hlong : chunkBytes * 2 ^ k > chunkBytes := by
      have hpow := Nat.pow_le_pow_right (n := 2) Nat.two_pos hk
      have hmul := Nat.mul_le_mul_left chunkBytes hpow
      omega
    have hdegree : degree = 2 ^ levels simd := by
      simp only [degree, hlong, true_and]
      exact degree_eq simd
    have htwo := two_le_levels simd
    rw [Nat.min_eq_right hlevels] at hcount
    rw [if_neg (by omega), hslice (hdegree.trans hcount.symm)]
    exact hleft.merge hcount hlevels hm hle hright

theorem compressSubtreeWide_wide {leaf : Nat → Output} (lo : Nat) {input : Bytes}
    (hpos : 0 < input.length)
    (hleaf : ∀ i < chunkCount input.length,
      leaf (lo + i) = leafNode key flags (lo + i) (chunkOf input i)) :
    Wide key flags simd leaf (chunkCount input.length) lo
      (compressSubtreeWide simd input key (UInt64.ofNat lo) flags) := by
  induction hn : input.length using Nat.strong_induction_on generalizing lo input with
  | h n ih =>
    subst hn
    by_cases hsmall : input.length ≤ simd.lanes * chunkBytes
    · have hcount := chunkCount_le hpos hsmall
      have hleaves : ∀ i ∈ List.range (chunkCount input.length),
          outputChainingValue (leafNode key flags (lo + i) (chunkOf input i)) =
            outputChainingValue (leaf (lo + i)) := fun i hi => by
        rw [hleaf i (List.mem_range.mp hi)]
      rw [compressSubtreeWide, dif_pos hsmall, compressChunksParallel_eq lo hpos,
        List.map_congr_left hleaves]
      exact wide_leaves leaf (Nat.succ_pos _) (hcount.trans (lanes_le_levels simd)) lo
    · have hlarge := Nat.lt_of_not_le hsmall
      have hlong := Nat.lt_of_le_of_lt (chunkBytes_le_lanes simd) hlarge
      have hlanes := lt_chunkCount hlarge
      have hhalf := le_two_leftLeaves (chunkCount input.length)
      have hleaves := leftLeaves_lt (one_lt_chunkCount hlong)
      have hlen := leftSubtreeLen_eq hlong
      have hlt := leftSubtreeLen_lt hlong
      obtain ⟨k, hk⟩ : ∃ k, leftLeaves (chunkCount input.length) = 2 ^ k := ⟨_, rfl⟩
      have hpow := Nat.two_pow_pos k
      rw [hk] at hhalf hleaves
      rw [hk, Nat.mul_comm] at hlen
      rw [hlen] at hlt
      have htake : (input.take (chunkBytes * 2 ^ k)).length = chunkBytes * 2 ^ k :=
        List.length_take_of_le (Nat.le_of_lt hlt)
      have hdrop : chunkCount (input.drop (chunkBytes * 2 ^ k)).length =
          chunkCount input.length - 2 ^ k := by
        rw [List.length_drop, chunkCount_sub hlt]
      have hbytes := Nat.mul_pos chunkBytes_pos hpow
      have hleft := @ih _ (length_take_lt hlt) lo (input.take (chunkBytes * 2 ^ k))
        (by rwa [htake]) (fun i hi => ?_) rfl
      have hright := @ih _ (length_drop_lt hbytes (Nat.le_of_lt hlt)) (lo + 2 ^ k)
        (input.drop (chunkBytes * 2 ^ k)) (by rw [List.length_drop]; omega) (fun i hi => ?_) rfl
      · rw [htake, chunkCount_mul hpow] at hleft
        rw [hdrop, UInt64.ofNat_add] at hright
        have hjoin := hleft.join (by omega) (by omega) hright (by omega)
        rw [Nat.add_sub_of_le (Nat.le_of_lt hleaves)] at hjoin
        rw [compressSubtreeWide_large hlarge]
        simp only [hlen, Nat.mul_div_cancel_left _ chunkBytes_pos]
        exact hjoin
      · rw [hdrop] at hi
        rw [Nat.add_assoc, hleaf _ (by omega), chunkOf_drop]
      · rw [htake, chunkCount_mul hpow] at hi
        rw [hleaf i (by omega), chunkOf_take hi]

theorem compressSubtreeToParentNode_eq {leaf : Nat → Output} (lo : Nat) {input : Bytes}
    (hlong : chunkBytes < input.length)
    (hleaf : ∀ i < chunkCount input.length,
      leaf (lo + i) = leafNode key flags (lo + i) (chunkOf input i)) :
    compressSubtreeToParentNode simd input key (UInt64.ofNat lo) flags =
      (outputChainingValue (tree leaf outputChainingValue (parentNode key flags)
          (leftLeaves (chunkCount input.length)) lo),
        outputChainingValue (tree leaf outputChainingValue (parentNode key flags)
          (chunkCount input.length - leftLeaves (chunkCount input.length))
          (lo + leftLeaves (chunkCount input.length)))) := by
  have hwide := @compressSubtreeWide_wide key flags simd leaf lo input (by omega) hleaf
  obtain ⟨j, ls, rs, hcvs, hlen, hne, hl, hr⟩ := hwide.split (one_lt_chunkCount hlong)
  rw [compressSubtreeToParentNode, condenseCvs_eq key flags hwide.bytes, hcvs,
    hl.condense hlen hr hne]
  rfl

-- the callee's array of `MAX_SIMD_DEGREE_OR_2` chaining values is large enough
theorem compressSubtreeWide_length {input : Bytes} (hpos : 0 < input.length) (lo : Nat) :
    (compressSubtreeWide simd input key (UInt64.ofNat lo) flags).length ≤
      maxSimdDegreeOr2 simd := by
  have hwide := @compressSubtreeWide_wide key flags simd
    (fun i => leafNode key flags i (chunkOf input (i - lo))) lo input hpos
    (fun i _ => by rw [Nat.add_sub_cancel_left])
  rw [maxSimdDegreeOr2_eq]
  exact hwide.row.1

theorem compress_subtree_any_degree (key : Words) (flags : UInt8) (simd : SimdDegree) (lo : Nat)
    (input : Bytes) (hlong : chunkBytes < input.length) :
    let root := tree (fun i => leafNode key flags i (chunkOf input (i - lo))) outputChainingValue
      (parentNode key flags)
    let n := chunkCount input.length
    (compressSubtreeWide simd input key (UInt64.ofNat lo) flags).length ≤ maxSimdDegreeOr2 simd ∧
      compressSubtreeToParentNode simd input key (UInt64.ofNat lo) flags =
        (outputChainingValue (root (leftLeaves n) lo),
          outputChainingValue (root (n - leftLeaves n) (lo + leftLeaves n))) :=
  ⟨compressSubtreeWide_length (by omega) lo, compressSubtreeToParentNode_eq lo hlong
    fun i _ => by rw [Nat.add_sub_cancel_left]⟩

theorem compress_subtree_any_degree_three_chunks :
    let input := List.replicate 3000 7
    let root := tree (fun i => leafNode iv 0 i (chunkOf input (i - 4))) outputChainingValue
      (parentNode iv 0)
    let n := chunkCount input.length
    (compressSubtreeWide ⟨0, Nat.zero_le 4⟩ input iv (UInt64.ofNat 4) 0).length ≤
        maxSimdDegreeOr2 ⟨0, Nat.zero_le 4⟩ ∧
      compressSubtreeToParentNode ⟨0, Nat.zero_le 4⟩ input iv (UInt64.ofNat 4) 0 =
        (outputChainingValue (root (leftLeaves n) 4),
          outputChainingValue (root (n - leftLeaves n) (4 + leftLeaves n))) :=
  compress_subtree_any_degree iv 0 ⟨0, Nat.zero_le 4⟩ 4 (List.replicate 3000 7)
    (by rw [List.length_replicate, chunkBytes]; omega)

end Wide

end EmpTool.Crypto.Blake3
