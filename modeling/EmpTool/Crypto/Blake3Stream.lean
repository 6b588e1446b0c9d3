import EmpTool.Crypto.Blake3Tree
import Mathlib.Data.List.Infix

namespace EmpTool.Crypto.Blake3

open Memory SubtreeStack

section Root

def rootStream (o : Output) (i : Nat) : UInt8 :=
  (compressXof o.inputCv o.block o.blockLen (UInt64.ofNat (i / 64)) (o.flags ||| rootFlag)).getD
    (i % 64) 0

theorem compressXof_length (cv : Words) (block : Bytes) (blockLen : Nat) (counter : UInt64)
    (flags : UInt8) : (compressXof cv block blockLen counter flags).length = 64 := by
  simp [compressXof, store32]

theorem compressXof_slice (o : Output) (b : Nat) :
    compressXof o.inputCv o.block o.blockLen (UInt64.ofNat b) (o.flags ||| rootFlag) =
      slice (rootStream o) (64 * b) 64 := by
  have hlen := compressXof_length o.inputCv o.block o.blockLen (UInt64.ofNat b)
    (o.flags ||| rootFlag)
  conv_lhs => rw [← slice_getD (compressXof _ _ _ _ _) 0, hlen]
  refine slice_congr fun i hi => ?_
  have hdiv : (64 * b + i) / 64 = b := by omega
  have hmod : (64 * b + i) % 64 = i := by omega
  rw [rootStream, hdiv, hmod, Nat.zero_add]

theorem xofMany_slice (o : Output) (b n : Nat) :
    xofMany o.inputCv o.block o.blockLen (UInt64.ofNat b) (o.flags ||| rootFlag) n =
      slice (rootStream o) (64 * b) (64 * n) := by
  induction n with
  | zero => rfl
  | succ n ih =>
    rw [xofMany] at ih ⊢
    rw [List.range_succ, List.flatMap_append, ih, List.flatMap_singleton, ← UInt64.ofNat_add,
      compressXof_slice, Nat.mul_add, slice_append, Nat.mul_succ]

theorem slice_drop_take (mem : Nat → UInt8) (a n k m : Nat) (h : k + m ≤ n) :
    ((slice mem a n).drop k).take m = slice mem (a + k) m := by
  have hk : n = k + m + (n - (k + m)) := by omega
  rw [hk, ← slice_append, ← slice_append, List.append_assoc, List.drop_left' (length_slice _ _ _),
    List.take_left' (length_slice _ _ _)]

theorem aligned_blocks (o : Output) (out : Bytes) (b n : Nat) :
    (if n % 64 ≠ 0 then
      out ++ xofMany o.inputCv o.block o.blockLen (UInt64.ofNat b) (o.flags ||| rootFlag)
          (n / 64) ++
        (compressXof o.inputCv o.block o.blockLen (UInt64.ofNat b + UInt64.ofNat (n / 64))
          (o.flags ||| rootFlag)).take (n % 64)
    else
      out ++ xofMany o.inputCv o.block o.blockLen (UInt64.ofNat b) (o.flags ||| rootFlag)
        (n / 64)) = out ++ slice (rootStream o) (64 * b) n := by
  have hsplit := slice_append (rootStream o) (64 * b) (64 * (n / 64)) (n % 64)
  rw [Nat.div_add_mod] at hsplit
  rw [xofMany_slice, ← UInt64.ofNat_add, compressXof_slice, ← hsplit]
  split
  case isTrue =>
    have hlast := slice_drop_take (rootStream o) (64 * (b + n / 64)) 64 0 (n % 64) (by omega)
    rw [List.drop_zero, Nat.add_zero] at hlast
    rw [hlast, Nat.mul_add, List.append_assoc]
  case isFalse hz =>
    rw [not_not.mp hz, slice_zero, List.append_nil]

theorem outputRootBytes_eq (o : Output) (seek : UInt64) (outLen : Nat) :
    outputRootBytes o seek outLen = slice (rootStream o) seek.toNat outLen := by
  have hdiv := Nat.div_add_mod seek.toNat 64
  have hmod := Nat.mod_lt seek.toNat (Nat.succ_pos 63)
  have hblock : seek / 64 = UInt64.ofNat (seek.toNat / 64) := by
    apply UInt64.toNat_inj.mp
    have hlt := seek.toNat_lt
    rw [UInt64.toNat_div, UInt64.toNat_ofNat', Nat.mod_eq_of_lt (by omega)]
    rfl
  have hoffset : (seek % 64).toNat = seek.toNat % 64 := UInt64.toNat_mod seek 64
  rw [outputRootBytes]
  split
  case isTrue hz => rw [hz, slice_zero]
  case isFalse =>
    simp only [hblock, hoffset]
    by_cases hz : seek.toNat % 64 = 0
    · rw [if_neg (not_not.mpr hz)]
      simp only [aligned_blocks]
      rw [hz, Nat.add_zero] at hdiv
      rw [hdiv, List.nil_append]
    · have htake : (if outLen > 64 - seek.toNat % 64 then 64 - seek.toNat % 64 else outLen) =
          min outLen (64 - seek.toNat % 64) := by
        split
        case isTrue => omega
        case isFalse => omega
      have hnext : UInt64.ofNat (seek.toNat / 64) + 1 = UInt64.ofNat (seek.toNat / 64 + 1) :=
        (UInt64.ofNat_add _ 1).symm
      rw [if_pos hz, htake]
      simp only [hnext, aligned_blocks, compressXof_slice]
      rw [slice_drop_take _ _ _ _ _ (by omega), hdiv]
      rcases Nat.le_total outLen (64 - seek.toNat % 64) with hle | hle
      · rw [Nat.min_eq_left hle, Nat.sub_self, slice_zero, List.append_nil]
      · have hstart : 64 * (seek.toNat / 64 + 1) = seek.toNat + (64 - seek.toNat % 64) := by omega
        rw [Nat.min_eq_right hle, hstart, slice_append, Nat.add_sub_of_le hle]

end Root

section Roll

variable (key : Words) (flags : UInt8)

theorem rollUpStack_eq (o : Output) (cvs : List Bytes) :
    rollUpStack key flags o cvs = rollUp outputChainingValue (parentNode key flags) o cvs := by
  induction cvs generalizing o with
  | nil => rfl
  | cons left rest ih => exact ih _

theorem mergeCvs_eq (target : Nat) {cvs : List Bytes} (h : cvs = [] ∨ 0 < target) :
    mergeCvs key flags target cvs =
      .ok (mergeTo outputChainingValue (parentNode key flags) target cvs) := by
  induction cvs using mergeCvs.induct key flags target with
  | case1 =>
    rw [mergeCvs, mergeTo_of_le _ _ (Nat.zero_le _)]
    rfl
  | case2 cv hz => exact absurd (h.resolve_left (List.cons_ne_nil _ _)) (by omega)
  | case3 cv hz =>
    rw [mergeCvs, if_neg hz, mergeTo_of_le _ _ (Nat.le_of_not_lt hz)]
    rfl
  | case4 right left rest hlong ih =>
    rw [mergeCvs, if_pos hlong, mergeTo_step _ _ hlong]
    exact ih (Or.inr (h.resolve_left (List.cons_ne_nil _ _)))
  | case5 right left rest hshort =>
    rw [mergeCvs, if_neg hshort, mergeTo_of_le _ _ (Nat.le_of_not_lt hshort)]
    rfl

end Roll

section Invariant

variable (key : Words) (flags : UInt8)

def msgLeaf (msg : Bytes) (i : Nat) : Output := leafNode key flags i (chunkOf msg i)

def msgTree (msg : Bytes) (n lo : Nat) : Output :=
  tree (msgLeaf key flags msg) outputChainingValue (parentNode key flags) n lo

def msgStack (msg : Bytes) (n : Nat) : List Bytes :=
  stack (msgLeaf key flags msg) outputChainingValue (parentNode key flags) 0 n

def hashTree (msg : Bytes) : Output := msgTree key flags msg (chunkCount msg.length) 0

def Pushed (msg : Bytes) (n : Nat) (cvs : List Bytes) : Prop :=
  ∃ m k, 2 ^ k ∣ m ∧ n = m + 2 ^ k ∧
    cvs = outputChainingValue (msgTree key flags msg (2 ^ k) m) :: msgStack key flags msg m

def Mergeable (msg : Bytes) (n : Nat) (cvs : List Bytes) : Prop :=
  (cvs = [] ∨ 0 < n) ∧
    mergeTo outputChainingValue (parentNode key flags) (ones n) cvs = msgStack key flags msg n

structure Boundary (msg : Bytes) (n : Nat) (h : Hasher) : Prop where
  keyed : h.key = key
  chunk : h.chunk = chunkAt key flags (UInt64.ofNat n)
  cvStack : Mergeable key flags msg n h.cvStack

structure Partial (msg : Bytes) (n pos : Nat) (h : Hasher) : Prop where
  keyed : h.key = key
  first : chunkBytes * n < pos
  last : pos ≤ chunkBytes * (n + 1)
  chunk : h.chunk = absorb (chunkAt key flags (UInt64.ofNat n))
    ((msg.take pos).drop (chunkBytes * n))
  cvStack : h.cvStack = msgStack key flags msg n

-- two subtrees at least stay unmerged while no byte follows them
def Whole (msg : Bytes) (n : Nat) (h : Hasher) : Prop :=
  Boundary key flags msg n h ∧ (n = 0 ∨ ∃ m k, 0 < m ∧ 2 ^ k ∣ m ∧ n = m + 2 ^ k ∧
    h.cvStack = outputChainingValue (msgTree key flags msg (2 ^ k) m) :: msgStack key flags msg m)

def Absorbed (msg : Bytes) (pos : Nat) (h : Hasher) : Prop :=
  (∃ n, pos = chunkBytes * n ∧ Whole key flags msg n h) ∨ ∃ n, Partial key flags msg n pos h

variable {key flags} {msg : Bytes}

theorem msgStack_length (n : Nat) : (msgStack key flags msg n).length = ones n :=
  stack_length _ _ _ 0 n

theorem Mergeable.stack (n : Nat) : Mergeable key flags msg n (msgStack key flags msg n) := by
  refine ⟨?_, mergeTo_of_le _ _ (Nat.le_of_eq (msgStack_length n))⟩
  rcases Nat.eq_zero_or_pos n with rfl | hn
  · exact Or.inl (stack_zero _ _ _ 0)
  · exact Or.inr hn

theorem Pushed.mergeable {n : Nat} {cvs : List Bytes} (h : Pushed key flags msg n cvs) :
    Mergeable key flags msg n cvs := by
  obtain ⟨m, k, ⟨q, rfl⟩, rfl, rfl⟩ := h
  have hpos := Nat.two_pow_pos k
  have hsum : 2 ^ k * q + 2 ^ k = 2 ^ k * (q + 1) := (Nat.mul_succ _ _).symm
  refine ⟨Or.inr (by omega), ?_⟩
  rw [hsum, ones_shift, msgStack, msgStack, stack_shift, stack_shift, msgTree, Nat.mul_comm]
  exact mergeTo_push _ _ _ k q

theorem popcnt_ofNat {n : Nat} (hn : n < 2 ^ maxDepth) : popcnt (UInt64.ofNat n) = ones n := by
  have hlt : n < 2 ^ 64 := hn.trans (by decide)
  rw [popcnt, UInt64.toNat_ofNat', Nat.mod_eq_of_lt hlt]

theorem hasherMergeCvStack_eq {h : Hasher} {n : Nat} (hn : n < 2 ^ maxDepth)
    (hkey : h.key = key) (hflags : h.chunk.flags = flags)
    (hcvs : Mergeable key flags msg n h.cvStack) :
    hasherMergeCvStack h (UInt64.ofNat n) = .ok { h with cvStack := msgStack key flags msg n } := by
  rw [hasherMergeCvStack, popcnt_ofNat hn, hkey, hflags,
    mergeCvs_eq key flags _ (hcvs.1.imp_right ones_pos), hcvs.2]
  rfl

theorem hasherPushCv_eq {h : Hasher} {n : Nat} (hn : n < 2 ^ maxDepth) (hkey : h.key = key)
    (hflags : h.chunk.flags = flags) (hcvs : Mergeable key flags msg n h.cvStack) (newCv : Bytes) :
    hasherPushCv h newCv (UInt64.ofNat n) =
      .ok { h with cvStack := newCv :: msgStack key flags msg n } := by
  have hroom : (msgStack key flags msg n).length < maxDepth + 1 := by
    rw [msgStack_length]
    exact Nat.lt_succ_of_le (ones_le hn)
  rw [hasherPushCv, hasherMergeCvStack_eq hn hkey hflags hcvs]
  simp only [bind, Except.bind, if_pos hroom]
  rfl

theorem hashTree_chunks (n : Nat) (hn : chunkCount msg.length = n) :
    hashTree key flags msg = msgTree key flags msg n 0 := by
  rw [hashTree, hn]

theorem rollUp_msgStack {m k : Nat} (h : 2 ^ k ∣ m) :
    rollUp outputChainingValue (parentNode key flags) (msgTree key flags msg (2 ^ k) m)
      (msgStack key flags msg m) = msgTree key flags msg (m + 2 ^ k) 0 := by
  obtain ⟨q, rfl⟩ := h
  rw [msgStack, stack_shift, msgTree, Nat.mul_comm]
  exact rollUp_stack _ _ _ (Nat.two_pow_pos k) (Nat.le_refl _) q

theorem chunkOf_prefix {input rest : Bytes} (hin : input <+: rest) {i : Nat}
    (h : chunkBytes * (i + 1) ≤ input.length) : chunkOf input i = chunkOf rest i := by
  obtain ⟨after, rfl⟩ := hin
  rw [Nat.mul_succ] at h
  rw [chunkOf, chunkOf, List.drop_append_of_le_length (by omega), List.take_append_of_le_length]
  rw [List.length_drop]
  omega

theorem nextSubtreeLen_chunks {n : Nat} (hn : n < 2 ^ maxDepth) {inputLen : Nat}
    (hlong : chunkBytes < inputLen) :
    ∃ k, nextSubtreeLen (UInt64.ofNat n) inputLen = chunkBytes * 2 ^ k ∧ 2 ^ k ∣ n := by
  obtain ⟨j, hj, hlen, hdvd, hmax⟩ := nextSubtreeLen_spec (UInt64.ofNat n) hlong
  have hbytes : chunkBytes = 2 ^ 10 := rfl
  have hcount : (UInt64.ofNat n * 1024).toNat = 2 ^ 10 * n := by
    have hlt : n < 2 ^ 54 := hn
    have hten : (1024 : UInt64).toNat = 2 ^ 10 := rfl
    rw [UInt64.toNat_mul, UInt64.toNat_ofNat', Nat.mod_eq_of_lt (hlt.trans (by decide)), hten,
      Nat.mul_comm, Nat.mod_eq_of_lt (by omega)]
  have hten : 10 ≤ inputLen.log2 := by
    rw [hbytes] at hlong
    exact (Nat.le_log2 (by omega)).mpr (Nat.le_of_lt hlong)
  rw [hcount] at hdvd hmax
  have hle := hmax 10 hten (Nat.dvd_mul_right _ _)
  have hpow : 2 ^ j = 2 ^ 10 * 2 ^ (j - 10) := by rw [← Nat.pow_add, Nat.add_sub_of_le hle]
  refine ⟨j - 10, by rw [hlen, hpow, hbytes], ?_⟩
  rw [hpow] at hdvd
  exact Nat.dvd_of_mul_dvd_mul_left (by decide) hdvd

theorem subtree_leaves {n k : Nat} {input : Bytes}
    (hin : input <+: msg.drop (chunkBytes * n)) (hlen : input.length = chunkBytes * 2 ^ k) :
    ∀ i < chunkCount input.length,
      msgLeaf key flags msg (n + i) = leafNode key flags (n + i) (chunkOf input i) := by
  intro i hi
  have hpos := Nat.two_pow_pos k
  rw [hlen, chunkCount_mul hpos] at hi
  rw [msgLeaf, chunkOf_prefix hin (hlen ▸ Nat.mul_le_mul_left _ hi), chunkOf_drop]

def advanced (h : Hasher) (cvs : List Bytes) (chunks : Nat) : Hasher :=
  { h with
    cvStack := cvs
    chunk := { h.chunk with chunkCounter := h.chunk.chunkCounter + UInt64.ofNat chunks } }

theorem Boundary.advanced {h : Hasher} {n chunks : Nat} (hb : Boundary key flags msg n h)
    {cvs : List Bytes} (hcvs : Mergeable key flags msg (n + chunks) cvs) :
    Boundary key flags msg (n + chunks) (advanced h cvs chunks) where
  keyed := hb.keyed
  chunk := by
    rw [Blake3.advanced, hb.chunk, UInt64.ofNat_add]
    rfl
  cvStack := hcvs

theorem Boundary.eta {h : Hasher} {n : Nat} (hb : Boundary key flags msg n h) :
    ∃ cvs, h = ⟨key, chunkAt key flags (UInt64.ofNat n), cvs⟩ ∧ Mergeable key flags msg n cvs := by
  obtain ⟨key', chunk, cvs⟩ := h
  have hkey : key' = key := hb.keyed
  have hchunk : chunk = chunkAt key flags (UInt64.ofNat n) := hb.chunk
  exact ⟨cvs, by rw [hkey, hchunk], hb.cvStack⟩

theorem msgTree_one (n : Nat) : msgTree key flags msg 1 n = msgLeaf key flags msg n :=
  tree_one _ _ _ n

theorem hasherPushSubtree_chunk {simd : SimdDegree} {h : Hasher} {n : Nat} {input : Bytes}
    (hb : Boundary key flags msg n h) (hn : n < 2 ^ maxDepth)
    (hin : input <+: msg.drop (chunkBytes * n)) (hfit : chunkBytes ≤ input.length) :
    hasherPushSubtree simd h input chunkBytes =
      .ok (advanced h (outputChainingValue (msgTree key flags msg 1 n) :: msgStack key flags msg n)
        1) := by
  have hlen : (input.take chunkBytes).length = chunkBytes := List.length_take_of_le hfit
  have hnode : chunkStateOutput (chunkStateUpdate (chunkAt key flags (UInt64.ofNat n))
      (input.take chunkBytes)) = msgTree key flags msg 1 n := by
    have hchunk := chunkOf_prefix hin (i := 0) hfit
    rw [chunkOf_drop] at hchunk
    rw [leaf_chunkAt n (Nat.le_of_eq hlen), msgTree_one, msgLeaf]
    exact congrArg _ hchunk
  have hcounter : (chunkStateUpdate (chunkAt key flags (UInt64.ofNat n))
      (input.take chunkBytes)).chunkCounter = UInt64.ofNat n := by
    rw [update_chunkAt, (absorb_frame _ _).1]
    rfl
  obtain ⟨cvs, rfl, hcvs⟩ := hb.eta
  have hpush := @hasherPushCv_eq key flags msg ⟨key, chunkAt key flags (UInt64.ofNat n), cvs⟩ n hn
    rfl rfl hcvs (outputChainingValue (msgTree key flags msg 1 n))
  rw [hasherPushSubtree, if_pos (Nat.le_refl _), Nat.div_self chunkBytes_pos]
  change (hasherPushCv _ (outputChainingValue (chunkStateOutput
      (chunkStateUpdate (chunkAt key flags (UInt64.ofNat n)) _)))
    (chunkStateUpdate (chunkAt key flags (UInt64.ofNat n)) _).chunkCounter >>= _) = _
  rw [hnode, hcounter, hpush]
  rfl

theorem hasherPushSubtree_pair {simd : SimdDegree} {h : Hasher} {n k : Nat} {input : Bytes}
    (hb : Boundary key flags msg n h) (hk : 2 ^ (k + 1) ∣ n)
    (hn : n + 2 ^ (k + 1) ≤ 2 ^ maxDepth) (hin : input <+: msg.drop (chunkBytes * n))
    (hfit : chunkBytes * 2 ^ (k + 1) ≤ input.length) :
    hasherPushSubtree simd h input (chunkBytes * 2 ^ (k + 1)) =
      .ok (advanced h (outputChainingValue (msgTree key flags msg (2 ^ k) (n + 2 ^ k)) ::
        msgStack key flags msg (n + 2 ^ k)) (2 ^ (k + 1))) := by
  have hpow := Nat.two_pow_pos k
  have hsum : 2 ^ (k + 1) = 2 ^ k + 2 ^ k := by
    rw [Nat.pow_succ]
    omega
  have hlen : (input.take (chunkBytes * 2 ^ (k + 1))).length = chunkBytes * 2 ^ (k + 1) :=
    List.length_take_of_le hfit
  have hlong : chunkBytes < chunkBytes * 2 ^ (k + 1) := by
    have hmul := Nat.mul_le_mul_left chunkBytes (Nat.one_le_two_pow (n := k))
    have hbytes := chunkBytes_pos
    rw [hsum, Nat.mul_add]
    omega
  have hleaf := @subtree_leaves key flags msg n (k + 1) _
    ((List.take_prefix (chunkBytes * 2 ^ (k + 1)) input).trans hin) hlen
  have hpair : compressSubtreeToParentNode simd (input.take (chunkBytes * 2 ^ (k + 1))) key
      (UInt64.ofNat n) flags =
        (outputChainingValue (msgTree key flags msg (2 ^ k) n),
          outputChainingValue (msgTree key flags msg (2 ^ k) (n + 2 ^ k))) := by
    have htop := @compressSubtreeToParentNode_eq key flags simd _ n _ (by rwa [hlen]) hleaf
    rw [hlen, chunkCount_mul (Nat.two_pow_pos _), hsum, leftLeaves_add hpow (Nat.le_refl _),
      Nat.add_sub_cancel, ← hsum] at htop
    exact htop
  obtain ⟨cvs, rfl, hcvs⟩ := hb.eta
  have hfirst := @hasherPushCv_eq key flags msg ⟨key, chunkAt key flags (UInt64.ofNat n), cvs⟩ n
    (by omega) rfl rfl hcvs (outputChainingValue (msgTree key flags msg (2 ^ k) n))
  have hleft : Pushed key flags msg (n + 2 ^ k)
      (outputChainingValue (msgTree key flags msg (2 ^ k) n) :: msgStack key flags msg n) :=
    ⟨n, k, (Nat.pow_dvd_pow 2 (Nat.le_succ k)).trans hk, rfl, rfl⟩
  have hhalf : UInt64.ofNat n + UInt64.ofNat (2 ^ (k + 1)) / 2 = UInt64.ofNat (n + 2 ^ k) := by
    have hwide : 2 ^ (k + 1) < 2 ^ 64 :=
      Nat.lt_of_le_of_lt (by omega) (by decide : 2 ^ maxDepth < 2 ^ 64)
    have htwo : (2 : UInt64).toNat = 2 := rfl
    rw [UInt64.ofNat_add]
    congr 1
    apply UInt64.toNat_inj.mp
    rw [UInt64.toNat_div, UInt64.toNat_ofNat', UInt64.toNat_ofNat', Nat.mod_eq_of_lt hwide, htwo,
      Nat.mod_eq_of_lt (by omega)]
    omega
  have hsecond := @hasherPushCv_eq key flags msg
    ⟨key, chunkAt key flags (UInt64.ofNat n),
      outputChainingValue (msgTree key flags msg (2 ^ k) n) :: msgStack key flags msg n⟩
    (n + 2 ^ k) (by omega) rfl rfl hleft.mergeable
    (outputChainingValue (msgTree key flags msg (2 ^ k) (n + 2 ^ k)))
  rw [← hhalf] at hsecond
  rw [hasherPushSubtree, if_neg (by omega), Nat.mul_div_cancel_left _ chunkBytes_pos]
  change (hasherPushCv _ (compressSubtreeToParentNode simd _ key (UInt64.ofNat n) flags).1
    (UInt64.ofNat n) >>= _) = _
  rw [hpair, hfirst]
  change (hasherPushCv ⟨key, chunkAt key flags (UInt64.ofNat n), _⟩
    (compressSubtreeToParentNode simd _ key (UInt64.ofNat n) flags).2
    (UInt64.ofNat n + UInt64.ofNat (2 ^ (k + 1)) / 2) >>= _) = _
  rw [hpair, hsecond]
  rfl

theorem hasherPushSubtree_boundary {simd : SimdDegree} {h : Hasher} {n k : Nat} {input : Bytes}
    (hb : Boundary key flags msg n h) (hk : 2 ^ k ∣ n) (hn : n + 2 ^ k ≤ 2 ^ maxDepth)
    (hin : input <+: msg.drop (chunkBytes * n)) (hfit : chunkBytes * 2 ^ k ≤ input.length) :
    ∃ h', hasherPushSubtree simd h input (chunkBytes * 2 ^ k) = .ok h' ∧
      Boundary key flags msg (n + 2 ^ k) h' ∧ (k = 0 ∨ Whole key flags msg (n + 2 ^ k) h') := by
  cases k with
  | zero =>
    rw [Nat.pow_zero, Nat.mul_one] at *
    have hpushed : Pushed key flags msg (n + 1)
        (outputChainingValue (msgTree key flags msg 1 n) :: msgStack key flags msg n) :=
      ⟨n, 0, hk, rfl, rfl⟩
    exact ⟨_, hasherPushSubtree_chunk hb (by omega) hin hfit, hb.advanced hpushed.mergeable,
      Or.inl rfl⟩
  | succ k =>
    have hpow := Nat.two_pow_pos k
    have hsum : n + 2 ^ (k + 1) = n + 2 ^ k + 2 ^ k := by
      rw [Nat.pow_succ]
      omega
    have hdvd : 2 ^ k ∣ n + 2 ^ k :=
      Nat.dvd_add ((Nat.pow_dvd_pow 2 (Nat.le_succ k)).trans hk) (Nat.dvd_refl _)
    have hpushed : Pushed key flags msg (n + 2 ^ (k + 1))
        (outputChainingValue (msgTree key flags msg (2 ^ k) (n + 2 ^ k)) ::
          msgStack key flags msg (n + 2 ^ k)) :=
      ⟨n + 2 ^ k, k, hdvd, hsum, rfl⟩
    have hboundary := hb.advanced hpushed.mergeable
    exact ⟨_, hasherPushSubtree_pair hb hk hn hin hfit, hboundary,
      Or.inr ⟨hboundary, Or.inr ⟨n + 2 ^ k, k, by omega, hdvd, hsum, rfl⟩⟩⟩

theorem prefix_slice {input : Bytes} {pos : Nat} (hin : input <+: msg.drop pos) :
    (msg.take (pos + input.length)).drop pos = input := by
  rw [List.drop_take, Nat.add_sub_cancel_left]
  exact (List.prefix_iff_eq_take.mp hin).symm

theorem prefix_drop {input : Bytes} {pos : Nat} (hin : input <+: msg.drop pos) (m : Nat) :
    input.drop m <+: msg.drop (pos + m) := by
  rw [← List.drop_drop]
  exact hin.drop m

theorem chunks_bound {n len : Nat} (h : chunkBytes * n + len < 2 ^ 64) : n < 2 ^ maxDepth := by
  have hbytes : chunkBytes * n = 2 ^ 10 * n := rfl
  have hdepth : 2 ^ maxDepth = 2 ^ 54 := rfl
  omega

theorem hasherUpdateSubtrees_absorbs {simd : SimdDegree} {h : Hasher} {n : Nat} {input : Bytes}
    (hb : Boundary key flags msg n h) (hwhole : input = [] → Whole key flags msg n h)
    (hin : input <+: msg.drop (chunkBytes * n)) (hlen : chunkBytes * n + input.length < 2 ^ 64) :
    ∃ h', hasherUpdateSubtrees simd h input = .ok h' ∧
      Absorbed key flags msg (chunkBytes * n + input.length) h' := by
  induction hl : input.length using Nat.strong_induction_on generalizing h n input with
  | h len ih =>
    subst hl
    have hn := chunks_bound hlen
    have hcounter : h.chunk.chunkCounter = UInt64.ofNat n := by
      rw [hb.chunk]
      rfl
    rw [hasherUpdateSubtrees]
    split
    case isTrue hlong =>
      obtain ⟨k, hnext, hdvd⟩ := nextSubtreeLen_chunks hn hlong
      have hbounds := nextSubtreeLen_bounds (UInt64.ofNat n) hlong
      rw [hnext] at hbounds
      have hdepth : n + 2 ^ k ≤ 2 ^ maxDepth := by
        have hbytes : chunkBytes * n = 2 ^ 10 * n := rfl
        have hsize : chunkBytes * 2 ^ k = 2 ^ 10 * 2 ^ k := rfl
        have hmax : 2 ^ maxDepth = 2 ^ 54 := rfl
        omega
      obtain ⟨h', hpush, hb', hwhole'⟩ :=
        @hasherPushSubtree_boundary key flags msg simd h n k input hb hdvd hdepth hin hbounds.2
      have hrest : input.drop (chunkBytes * 2 ^ k) <+: msg.drop (chunkBytes * (n + 2 ^ k)) := by
        rw [Nat.mul_add]
        exact prefix_drop hin _
      have htotal : chunkBytes * (n + 2 ^ k) + (input.drop (chunkBytes * 2 ^ k)).length =
          chunkBytes * n + input.length := by
        rw [List.length_drop, Nat.mul_add]
        omega
      obtain ⟨h'', hrun, habs⟩ := ih _ (length_drop_lt hbounds.1 hbounds.2) hb' (fun hnil => by
        refine hwhole'.resolve_left fun hk => ?_
        have hempty := congrArg List.length hnil
        rw [List.length_drop, hk, Nat.pow_zero, Nat.mul_one, List.length_nil] at hempty
        omega) hrest (by omega) rfl
      rw [htotal] at habs
      refine ⟨h'', ?_, habs⟩
      simp only [hcounter, hnext, hpush, bind, Except.bind]
      exact hrun
    case isFalse hshort =>
      split
      case isTrue hpos =>
        obtain ⟨cvs, rfl, hcvs⟩ := hb.eta
        have hfill : chunkStateUpdate (chunkAt key flags (UInt64.ofNat n)) input =
            absorb (chunkAt key flags (UInt64.ofNat n))
              ((msg.take (chunkBytes * n + input.length)).drop (chunkBytes * n)) := by
          rw [update_chunkAt, prefix_slice hin]
        have hmerge := @hasherMergeCvStack_eq key flags msg
          ⟨key, absorb (chunkAt key flags (UInt64.ofNat n))
            ((msg.take (chunkBytes * n + input.length)).drop (chunkBytes * n)), cvs⟩ n hn rfl
          (absorb_frame _ _).2 hcvs
        refine ⟨⟨key, absorb (chunkAt key flags (UInt64.ofNat n))
          ((msg.take (chunkBytes * n + input.length)).drop (chunkBytes * n)),
          msgStack key flags msg n⟩, ?_, Or.inr ⟨n, rfl, by omega, ?_, rfl, rfl⟩⟩
        · simp only [hfill]
          exact hmerge
        · rw [Nat.mul_succ]
          omega
      case isFalse hz =>
        have hnil := List.eq_nil_of_length_eq_zero (Nat.eq_zero_of_not_pos hz)
        exact ⟨h, rfl, Or.inl ⟨n, by rw [hnil]; rfl, hwhole hnil⟩⟩

theorem slice_extend {a pos t : Nat} (ha : a ≤ pos) (hpos : pos ≤ msg.length) :
    (msg.take pos).drop a ++ (msg.drop pos).take t = (msg.take (pos + t)).drop a := by
  have hle : a ≤ (msg.take pos).length := by rwa [List.length_take_of_le hpos]
  rw [List.take_add, List.drop_append_of_le_length hle]

theorem slice_chunk (n : Nat) :
    (msg.take (chunkBytes * (n + 1))).drop (chunkBytes * n) = chunkOf msg n := by
  rw [chunkOf, List.drop_take, Nat.mul_succ, Nat.add_sub_cancel_left]

theorem chunkOf_length_le (i : Nat) : (chunkOf msg i).length ≤ chunkBytes :=
  List.length_take_le _ _

theorem Partial.pending_le {h : Hasher} {n pos : Nat} (hp : Partial key flags msg n pos h) :
    ((msg.take pos).drop (chunkBytes * n)).length ≤ chunkBytes := by
  have hlast := hp.last
  rw [Nat.mul_succ] at hlast
  rw [List.length_drop, List.length_take]
  omega

theorem Partial.chunkStateLen {h : Hasher} {n pos : Nat} (hp : Partial key flags msg n pos h)
    (hpos : pos ≤ msg.length) : chunkStateLen h.chunk = pos - chunkBytes * n := by
  rw [hp.chunk, len_chunkAt _ hp.pending_le, List.length_drop, List.length_take_of_le hpos]

theorem chunkStateLen_chunkAt (counter : UInt64) : chunkStateLen (chunkAt key flags counter) = 0 :=
  rfl

theorem hasherPushCv_chunk {n : Nat} (hn : n < 2 ^ maxDepth) :
    hasherPushCv ⟨key, absorb (chunkAt key flags (UInt64.ofNat n)) (chunkOf msg n),
        msgStack key flags msg n⟩
      (outputChainingValue (chunkStateOutput
        (absorb (chunkAt key flags (UInt64.ofNat n)) (chunkOf msg n)))) (UInt64.ofNat n) =
      .ok ⟨key, absorb (chunkAt key flags (UInt64.ofNat n)) (chunkOf msg n),
        outputChainingValue (msgTree key flags msg 1 n) :: msgStack key flags msg n⟩ := by
  rw [output_chunkAt n (chunkOf_length_le n), msgTree_one]
  exact hasherPushCv_eq hn rfl (absorb_frame _ _).2 (Mergeable.stack n) _

theorem boundary_reset (n : Nat) : Boundary key flags msg (n + 1)
    ⟨key, chunkAt key flags (UInt64.ofNat (n + 1)),
      outputChainingValue (msgTree key flags msg 1 n) :: msgStack key flags msg n⟩ where
  keyed := rfl
  chunk := rfl
  cvStack := Pushed.mergeable ⟨n, 0, Nat.one_dvd n, rfl, rfl⟩

theorem hasherUpdateBase_fill {simd : SimdDegree} {h : Hasher} {input : Bytes} {t : Nat}
    (hne : input.length ≠ 0) (hpos : chunkStateLen h.chunk > 0)
    (ht : t = min input.length (chunkBytes - chunkStateLen h.chunk)) :
    hasherUpdateBase simd h input =
      let chunk := chunkStateUpdate h.chunk (input.take t)
      if (input.drop t).length > 0 then do
        let self ← hasherPushCv { h with chunk := chunk }
          (outputChainingValue (chunkStateOutput chunk)) chunk.chunkCounter
        hasherUpdateSubtrees simd
          { self with chunk := chunkStateReset self.chunk self.key (self.chunk.chunkCounter + 1) }
          (input.drop t)
      else pure { h with chunk := chunk } := by
  have htake : (if chunkBytes - chunkStateLen h.chunk > input.length then input.length
      else chunkBytes - chunkStateLen h.chunk) = t := by
    split
    case isTrue => omega
    case isFalse => omega
  rw [hasherUpdateBase, if_neg hne, if_pos hpos]
  simp only [htake]

theorem hasherUpdateBase_partial {simd : SimdDegree} {h : Hasher} {n pos : Nat} {input : Bytes}
    (hp : Partial key flags msg n pos h) (hin : input <+: msg.drop pos) (hpos : pos ≤ msg.length)
    (hlen : pos + input.length < 2 ^ 64) (hne : input.length ≠ 0) :
    ∃ h', hasherUpdateBase simd h input = .ok h' ∧
      Absorbed key flags msg (pos + input.length) h' := by
  have hfirst := hp.first
  have hlast := hp.last
  have hchunkLen := hp.chunkStateLen hpos
  obtain ⟨key', chunk, cvs⟩ := h
  obtain rfl : key' = key := hp.keyed
  obtain rfl : chunk = _ := hp.chunk
  obtain rfl : cvs = _ := hp.cvStack
  rw [Nat.mul_succ] at hlast
  have hfill {t : Nat} (ht : t ≤ input.length) :
      (msg.take pos).drop (chunkBytes * n) ++ input.take t =
        (msg.take (pos + t)).drop (chunkBytes * n) := by
    rw [← slice_extend (Nat.le_of_lt hfirst) hpos, List.prefix_iff_eq_take.mp hin, List.take_take,
      Nat.min_eq_left ht]
  have hroom : chunkBytes * (n + 1) - pos = chunkBytes - (pos - chunkBytes * n) := by
    rw [Nat.mul_succ]
    omega
  rcases Nat.lt_or_ge (chunkBytes * (n + 1) - pos) input.length with hlt | hge
  · have hreach : pos + (chunkBytes * (n + 1) - pos) = chunkBytes * (n + 1) := by
      rw [Nat.mul_succ]
      omega
    have hfull := hfill (Nat.le_of_lt hlt)
    rw [hreach, slice_chunk] at hfull
    have hrest : 0 < (input.drop (chunkBytes * (n + 1) - pos)).length := by
      rw [List.length_drop]
      omega
    have htotal : chunkBytes * (n + 1) + (input.drop (chunkBytes * (n + 1) - pos)).length =
        pos + input.length := by
      rw [List.length_drop]
      omega
    have hprefix := prefix_drop hin (chunkBytes * (n + 1) - pos)
    rw [hreach] at hprefix
    have hmore : input.drop (chunkBytes * (n + 1) - pos) ≠ [] := List.length_pos_iff.mp hrest
    obtain ⟨h', hrun, habs⟩ := @hasherUpdateSubtrees_absorbs key' flags msg simd _ _ _
      (boundary_reset n) (fun hnil => absurd hnil hmore) hprefix (by omega)
    rw [htotal] at habs
    refine ⟨h', ?_, habs⟩
    have hdepth : n < 2 ^ maxDepth := @chunks_bound n 0 (by omega)
    have hpush := @hasherPushCv_chunk key' flags msg n hdepth
    rw [hasherUpdateBase_fill (t := chunkBytes * (n + 1) - pos) hne (by rw [hchunkLen]; omega)
      (by rw [hchunkLen]; omega)]
    simp only [chunkStateUpdate_absorb, hfull, if_pos hrest, (absorb_frame _ _).1]
    change hasherPushCv ⟨key', _, _⟩ _ (UInt64.ofNat n) >>= _ = _
    rw [hpush]
    change hasherUpdateSubtrees simd ⟨key', chunkStateReset _ key' _, _⟩ _ = _
    rw [reset_absorb, (absorb_frame _ _).1]
    change hasherUpdateSubtrees simd ⟨key', chunkAt key' flags (UInt64.ofNat n + 1), _⟩ _ = _
    rw [show UInt64.ofNat n + 1 = UInt64.ofNat (n + 1) from (UInt64.ofNat_add n 1).symm]
    exact hrun
  · have hfull := hfill (Nat.le_refl input.length)
    rw [List.take_length] at hfull
    rw [hasherUpdateBase_fill (t := input.length) hne (by rw [hchunkLen]; omega)
      (by rw [hchunkLen]; omega)]
    simp only [chunkStateUpdate_absorb, List.take_length, hfull, List.drop_length, List.length_nil,
      gt_iff_lt, Nat.lt_irrefl, if_false]
    refine ⟨_, rfl, Or.inr ⟨n, rfl, by omega, by omega, rfl, rfl⟩⟩

theorem hasherUpdateBase_absorbs {simd : SimdDegree} {h : Hasher} {pos : Nat} {input : Bytes}
    (ha : Absorbed key flags msg pos h) (hin : input <+: msg.drop pos) (hpos : pos ≤ msg.length)
    (hlen : pos + input.length < 2 ^ 64) :
    ∃ h', hasherUpdateBase simd h input = .ok h' ∧
      Absorbed key flags msg (pos + input.length) h' := by
  by_cases hz : input.length = 0
  · exact ⟨h, by rw [hasherUpdateBase, if_pos hz]; rfl, by rwa [hz, Nat.add_zero]⟩
  · rcases ha with ⟨n, rfl, hb, -⟩ | ⟨n, hp⟩
    · rw [hasherUpdateBase, if_neg hz, hb.chunk,
        if_neg (by rw [chunkStateLen_chunkAt]; exact Nat.lt_irrefl 0)]
      exact hasherUpdateSubtrees_absorbs hb (fun hnil => absurd (congrArg List.length hnil) hz)
        hin hlen
    · exact hasherUpdateBase_partial hp hin hpos hlen hz

theorem Partial.finalize {h : Hasher} {n : Nat} (hp : Partial key flags msg n msg.length h)
    (seek : UInt64) {outLen : Nat} (hout : outLen ≠ 0) :
    hasherFinalizeSeek h seek outLen =
      .ok (outputRootBytes (hashTree key flags msg) seek outLen) := by
  have hfirst := hp.first
  have hlast := hp.last
  have hchunkLen := hp.chunkStateLen (Nat.le_refl _)
  have hcount : chunkCount msg.length = n + 1 := by
    have hq : (msg.length - 1) / chunkBytes = n := by
      apply (Nat.div_eq_iff chunkBytes_pos).mpr
      rw [Nat.mul_succ] at hlast
      rw [Nat.mul_comm]
      omega
    rw [chunkCount, hq]
  have hnode : chunkStateOutput h.chunk = msgTree key flags msg 1 n := by
    rw [hp.chunk, output_chunkAt n hp.pending_le, msgTree_one, msgLeaf, ← slice_chunk,
      List.take_of_length_le (Nat.le_refl _), List.take_of_length_le hlast]
  have hflags : h.chunk.flags = flags := by
    rw [hp.chunk, (absorb_frame _ _).2]
    rfl
  have hroll := @rollUp_msgStack key flags msg n 0 (Nat.one_dvd n)
  rw [hashTree_chunks _ hcount, hasherFinalizeSeek, if_neg hout]
  split
  case isTrue hempty =>
    have hz : n = 0 := by
      rw [hp.cvStack, msgStack_length] at hempty
      exact Nat.eq_zero_of_not_pos fun hn => absurd (ones_pos hn) (by omega)
    rw [hnode, hz]
    rfl
  case isFalse hstack =>
    rw [if_pos (by omega), hp.keyed, hflags, hnode, hp.cvStack, rollUpStack_eq]
    rw [Nat.pow_zero] at hroll
    rw [hroll]
    rfl

theorem Whole.finalize {h : Hasher} {n : Nat} (hw : Whole key flags msg n h)
    (hlen : msg.length = chunkBytes * n) (seek : UInt64) {outLen : Nat} (hout : outLen ≠ 0) :
    hasherFinalizeSeek h seek outLen =
      .ok (outputRootBytes (hashTree key flags msg) seek outLen) := by
  obtain ⟨hb, hn⟩ := hw
  have hflags : h.chunk.flags = flags := by
    rw [hb.chunk]
    rfl
  rw [hasherFinalizeSeek, if_neg hout]
  rcases hn with rfl | ⟨m, k, hm, hdvd, rfl, hcvs⟩
  · have hnil : msg = [] := List.eq_nil_of_length_eq_zero hlen
    have hempty : h.cvStack.length = 0 := by
      rcases hb.cvStack.1 with hz | hz
      · rw [hz, List.length_nil]
      · exact absurd hz (Nat.lt_irrefl 0)
    have hnode := @output_chunkAt key flags 0 [] (Nat.zero_le _)
    rw [absorb_short (Nat.zero_le _), ← chunkAt_withBuffer] at hnode
    subst hnil
    rw [if_pos hempty, hb.chunk, hnode, hashTree_chunks 1 rfl, msgTree_one]
    rfl
  · have hpos := Nat.two_pow_pos k
    have hcount : chunkCount msg.length = m + 2 ^ k := by
      rw [hlen, chunkCount_mul (by omega)]
    have hroll := @rollUp_msgStack key flags msg m k hdvd
    have hones := ones_pos hm
    rw [← @msgStack_length key flags msg m] at hones
    obtain ⟨left, rest, hstack⟩ := List.exists_cons_of_length_pos hones
    rw [hstack] at hcvs hroll
    have htwo : h.cvStack.length ≠ 0 := by
      rw [hcvs]
      exact Nat.succ_ne_zero _
    have hzero : ¬ chunkStateLen h.chunk > 0 := by
      rw [hb.chunk, chunkStateLen_chunkAt]
      exact Nat.lt_irrefl 0
    rw [if_neg htwo, if_neg hzero, hashTree_chunks _ hcount, ← hroll, hcvs, hb.keyed, hflags]
    simp only [rollUpStack_eq]
    rfl

theorem Absorbed.finalize {h : Hasher} (ha : Absorbed key flags msg msg.length h) (seek : UInt64)
    (outLen : Nat) :
    hasherFinalizeSeek h seek outLen =
      .ok (slice (rootStream (hashTree key flags msg)) seek.toNat outLen) := by
  rw [← outputRootBytes_eq]
  by_cases hout : outLen = 0
  · rw [hasherFinalizeSeek, if_pos hout, outputRootBytes, if_pos hout]
    rfl
  · rcases ha with ⟨n, hlen, hw⟩ | ⟨n, hp⟩
    · exact hw.finalize hlen seek hout
    · exact hp.finalize seek hout

theorem absorbed_init : Absorbed key flags msg 0 (hasherInitBase key flags) :=
  Or.inl ⟨0, rfl, ⟨rfl, rfl, Or.inl rfl, by
    rw [mergeTo_of_le _ _ (Nat.zero_le _), msgStack, stack_zero]
    rfl⟩, Or.inl rfl⟩

theorem absorbed_reset {pos : Nat} {h : Hasher} (ha : Absorbed key flags msg pos h) :
    hasherReset h = hasherInitBase key flags := by
  rcases ha with ⟨n, -, hb, -⟩ | ⟨n, hp⟩
  · rw [hasherReset, hb.keyed, hb.chunk]
    rfl
  · rw [hasherReset, hp.keyed, hp.chunk, reset_absorb]
    rfl

end Invariant

section Run

variable (simd : SimdDegree) (key : Words) (flags : UInt8)

def fourLanes : SimdDegree := ⟨2, Nat.le_add_left 2 2⟩

theorem hasherInitDeriveKeyRaw_eq (context : Bytes) (hlen : context.length < 2 ^ 64) :
    hasherInitDeriveKeyRaw simd context =
      .ok (hasherInitBase (loadWords 8
        (slice (rootStream (hashTree iv deriveKeyContext context)) 0 32)) deriveKeyMaterial) := by
  have hall : context <+: context.drop 0 := List.prefix_rfl
  obtain ⟨h, hrun, habs⟩ := @hasherUpdateBase_absorbs iv deriveKeyContext context simd _ 0 context
    absorbed_init hall (Nat.zero_le _) (by omega)
  rw [Nat.zero_add] at habs
  rw [hasherInitDeriveKeyRaw, hrun]
  simp only [hasherFinalize, habs.finalize, bind, Except.bind]
  rfl

end Run

end EmpTool.Crypto.Blake3
