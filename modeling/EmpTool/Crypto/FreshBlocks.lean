import EmpTool.Crypto.AesPermutation
import EmpTool.Crypto.Stream

namespace EmpTool.Crypto.Prg

open AesNi Memory

def Call.isSeek : Call → Bool
  | .seek _ => true
  | _ => false

def Cursor.total : Cursor → List Call → Nat
  | _, [] => 0
  | cur, c :: calls => cur.taken c + total (cur.after c) calls

def Call.blocks : Call → Result → List Block
  | .randomBlock _ _ nblocks, .blocks data => slice data 0 nblocks.toNat
  | _, _ => []

def blocksOut (calls : List Call) (results : List Result) : List Block :=
  (List.zipWith Call.blocks calls results).flatten

theorem position_after {cur : Cursor} {c : Call} (hc : c.isSeek = false) :
    (cur.after c).position = cur.position + UInt64.ofNat (cur.taken c) := by
  cases c with
  | next =>
    simp only [Cursor.after, Cursor.refilled, Cursor.taken]
    split
    · rfl
    · exact (UInt64.add_zero _).symm
  | seek => cases hc
  | _ => rfl

-- a run that never seeks counts up, so its last block decides
theorem fits_of_total {calls : List Call} (hcalls : ∀ c ∈ calls, c.isSeek = false) (cur : Cursor)
    (h : signedCounter cur.position + cur.total calls < 2 ^ 63) : cur.Fits calls := by
  induction calls generalizing cur with
  | nil => exact trivial
  | cons c calls ih =>
    rw [List.forall_mem_cons] at hcalls
    have htotal : cur.total (c :: calls) = cur.taken c + (cur.after c).total calls := rfl
    have hfirst : signedCounter cur.position + cur.taken c < 2 ^ 63 := by omega
    refine ⟨hfirst, ih hcalls.2 (cur.after c) ?_⟩
    rw [position_after hcalls.1, signedCounter_add hfirst]
    omega

section Stream

variable {AesKey : Type} {cipher : Cipher AesKey} {key : Block}

theorem blocks_result (cur : Cursor) (c : Call) {P : Nat} (hpos : cur.position = UInt64.ofNat P) :
    c.blocks (cur.result (stream cipher key) c) = [] ∨
      c.blocks (cur.result (stream cipher key) c) =
        (List.range' P (cur.taken c)).map (stream cipher key 0) := by
  cases c with
  | randomBlock addr data nblocks =>
    refine Or.inr ?_
    simp only [Cursor.result, Call.blocks, Cursor.taken, slice_storeRange]
    rw [slice, List.range'_eq_map_range, List.map_map]
    refine List.map_congr_left fun i _ => ?_
    have hshift := @keystream_add _ cipher.toAes (cipher.schedule key) 0 P i
    rw [UInt64.zero_add, ← hpos] at hshift
    rw [Nat.zero_add]
    exact hshift
  | _ => exact Or.inl rfl

theorem blocksOut_results {calls : List Call} (hcalls : ∀ c ∈ calls, c.isSeek = false)
    (cur : Cursor) {P : Nat} (hpos : cur.position = UInt64.ofNat P) :
    ∃ is : List Nat, blocksOut calls (cur.results (stream cipher key) calls) =
        is.map (stream cipher key 0) ∧ is.Pairwise (· < ·) ∧
      ∀ i ∈ is, P ≤ i ∧ i < P + cur.total calls := by
  induction calls generalizing cur P with
  | nil => exact ⟨[], rfl, List.Pairwise.nil, fun i hi => absurd hi List.not_mem_nil⟩
  | cons c calls ih =>
    rw [List.forall_mem_cons] at hcalls
    have hnext : (cur.after c).position = UInt64.ofNat (P + cur.taken c) := by
      rw [position_after hcalls.1, hpos, UInt64.ofNat_add]
    obtain ⟨is, his, hsorted, hrange⟩ := ih hcalls.2 _ hnext
    have htotal : cur.total (c :: calls) = cur.taken c + (cur.after c).total calls := rfl
    have hout : blocksOut (c :: calls) (cur.results (stream cipher key) (c :: calls)) =
        c.blocks (cur.result (stream cipher key) c) ++ is.map (stream cipher key 0) := by
      rw [← his]
      rfl
    rcases blocks_result cur c hpos with hnone | hsome
    · refine ⟨is, by rw [hout, hnone, List.nil_append], hsorted, fun i hi => ?_⟩
      have hi := hrange i hi
      omega
    · refine ⟨List.range' P (cur.taken c) ++ is, by rw [hout, hsome, List.map_append], ?_, ?_⟩
      · refine List.pairwise_append.mpr ⟨List.pairwise_lt_range', hsorted, fun i hi j hj => ?_⟩
        have hi := List.mem_range'_1.mp hi
        have hj := hrange j hj
        omega
      · intro i hi
        rcases List.mem_append.mp hi with hi | hi
        · have hi := List.mem_range'_1.mp hi
          omega
        · have hi := hrange i hi
          omega

end Stream

theorem stream_aes (key : Block) (i : Nat) :
    stream aesCipher key 0 i = aes128Block key (makeBlock 0 (UInt64.ofNat i)) := by
  rw [stream, keystream, UInt64.zero_add]
  exact encrypt_construct _ key _

theorem stream_injective {key : Block} {i j : Nat} (hi : i < 2 ^ 64) (hj : j < 2 ^ 64)
    (h : stream aesCipher key 0 i = stream aesCipher key 0 j) : i = j := by
  have hlow := congrArg Block.low (encrypt_injective (aesCipher.schedule key) h)
  have hnat := congrArg UInt64.toNat hlow
  simp only [makeBlock, UInt64.zero_add] at hnat
  rwa [UInt64.toNat_ofNat_of_lt' hi, UInt64.toNat_ofNat_of_lt' hj] at hnat

theorem random_blocks_never_repeat (tiers : Tiers) (raw : Prg AesKey) (seed : Block)
    (id : Int32) (calls : List Call) (hcalls : ∀ c ∈ calls, c.Accepted)
    (hseek : ∀ c ∈ calls, c.isSeek = false) (hfew : (Cursor.start 0).total calls < 2 ^ 63) :
    ∃ results p, runCalls aesCipher tiers calls (construct aesCipher raw seed id) =
        .ok (results, p) ∧
      (blocksOut calls results).Nodup ∧
      ∀ b ∈ blocksOut calls results, ∃ i < (Cursor.start 0).total calls,
        b = aes128Block (seed ^^^ makeBlock 0 (idWord id)) (makeBlock 0 (UInt64.ofNat i)) := by
  obtain ⟨p, hrun, -⟩ := Follows.runCalls tiers hcalls (follows_construct raw seed id)
  have hzero : signedCounter (Cursor.start 0).position = 0 := rfl
  have hfits : (Cursor.start 0).Fits calls := fits_of_total hseek _ (by omega)
  rw [if_pos hfits] at hrun
  obtain ⟨is, his, hsorted, hrange⟩ := @blocksOut_results _ aesCipher
    (seed ^^^ makeBlock 0 (idWord id)) calls hseek (Cursor.start 0) 0 rfl
  have hlt : ∀ i ∈ is, i < (Cursor.start 0).total calls := fun i hi => by
    have hi := (hrange i hi).2
    rwa [Nat.zero_add] at hi
  refine ⟨_, p, hrun, ?_, ?_⟩
  · rw [his]
    refine (List.nodup_map_iff_inj_on (hsorted.imp fun h => Nat.ne_of_lt h)).mpr ?_
    intro i hi j hj heq
    have hi := hlt i hi
    have hj := hlt j hj
    exact stream_injective (by omega) (by omega) heq
  · intro b hb
    rw [his] at hb
    obtain ⟨i, hi, rfl⟩ := List.mem_map.mp hb
    exact ⟨i, hlt i hi, stream_aes _ i⟩

def mixedDraws : List Call :=
  [.randomBlock 16 (fun _ => zeroBlock) 3, .next, .randomData 32 (fun _ => 0) 17, .next,
    .randomBool (fun _ => false) 129, .randomBlock 0 (fun _ => zeroBlock) 70]

theorem random_blocks_never_repeat_mixedDraws :
    ∃ results p, runCalls aesCipher ⟨true, false⟩ mixedDraws
        (construct aesCipher ⟨0, ⟨fun _ => zeroBlock⟩, zeroBlock, fun _ => 0, 0⟩ ⟨7, 11⟩ 2) =
          .ok (results, p) ∧
      (blocksOut mixedDraws results).Nodup := by
  obtain ⟨results, p, hrun, hnodup, -⟩ := random_blocks_never_repeat ⟨true, false⟩
    ⟨0, ⟨fun _ => zeroBlock⟩, zeroBlock, fun _ => 0, 0⟩ ⟨7, 11⟩ 2 mixedDraws (by decide) (by decide)
    (by decide)
  exact ⟨results, p, hrun, hnodup⟩

end EmpTool.Crypto.Prg
