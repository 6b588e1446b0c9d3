import EmpTool.Crypto.Prg
import EmpTool.Library.TwoRun

namespace EmpTool.Crypto.Prg

open Memory TwoRun

variable {AesKey : Type} {cipher : Cipher AesKey} {tiers : Tiers}

-- the next `n` blocks stay below position `2 ^ 63` of the fill's signed counter
def Fits (p : Prg AesKey) (n : Nat) : Prop := signedCounter p.counter + n < 2 ^ 63

instance (p : Prg AesKey) (n : Nat) : Decidable (p.Fits n) :=
  inferInstanceAs (Decidable (signedCounter p.counter + n < 2 ^ 63))

def advance (p : Prg AesKey) (n : Nat) : Prg AesKey :=
  { p with counter := p.counter + UInt64.ofNat n }

theorem fits_zero (p : Prg AesKey) : p.Fits 0 := by
  have hbounds := signedCounter_bounds p.counter
  unfold Fits
  omega

theorem Fits.of_le {p : Prg AesKey} {m n : Nat} (h : p.Fits n) (hle : m ≤ n) : p.Fits m := by
  unfold Fits at h ⊢
  omega

theorem fits_add {p : Prg AesKey} {m : Nat} (h : p.Fits m) (n : Nat) :
    p.Fits (m + n) ↔ (p.advance m).Fits n := by
  have hnext : signedCounter (p.advance m).counter = signedCounter p.counter + m :=
    signedCounter_add h
  unfold Fits
  rw [hnext]
  omega

theorem advance_zero (p : Prg AesKey) : p.advance 0 = p := by
  cases p
  simp [advance]

theorem advance_advance (p : Prg AesKey) (m n : Nat) :
    (p.advance m).advance n = p.advance (m + n) := by
  simp only [advance, UInt64.ofNat_add, UInt64.add_assoc]

theorem fill_eq (p : Prg AesKey) (dst n : Nat) (data : Nat → Block) :
    paraCtrEnc cipher.toAes tiers dst (signedCounter p.counter) p.aes n data =
      if p.Fits n then .ok (storeRange n dst (keystream cipher.toAes p.aes p.counter) data)
      else .error "signed int overflow" := by
  have hbounds := signedCounter_bounds p.counter
  rw [paraCtrEnc_eq hbounds.1 hbounds.2, counterWord_signedCounter]
  rfl

-- the induction is on the passes left: each batch is one fill, and its counter starts where the
-- one before it ended
theorem randomBlockLoop_eq :
    ∀ {fuel dst n : Nat} (data : Nat → Block) (p : Prg AesKey), n ≤ fuel →
      randomBlockLoop cipher tiers fuel dst n data p =
        if p.Fits n then
          .ok (storeRange n dst (keystream cipher.toAes p.aes p.counter) data, p.advance n)
        else .error "signed int overflow" := by
  intro fuel
  induction fuel with
  | zero =>
    intro dst n data p hn
    have hz : n = 0 := by omega
    subst hz
    rw [if_pos p.fits_zero, storeRange_zero, advance_zero]
    rfl
  | succ fuel ih =>
    intro dst n data p hn
    unfold randomBlockLoop
    by_cases hz : n = 0
    · subst hz
      rw [if_pos rfl, if_pos p.fits_zero, storeRange_zero, advance_zero]
      rfl
    rw [if_neg hz]
    have hbatch : 0 < min n aesBatchSize := by
      unfold aesBatchSize
      omega
    have hsplit : min n aesBatchSize + (n - min n aesBatchSize) = n := by omega
    show ((liftM (paraCtrEnc cipher.toAes tiers dst (signedCounter p.counter) p.aes
      (min n aesBatchSize) data) : PrgM AesKey _) >>= fun data' =>
        set (p.advance (min n aesBatchSize)) >>= fun _ => randomBlockLoop cipher tiers fuel
          (dst + min n aesBatchSize) (n - min n aesBatchSize) data') p = _
    rw [fill_eq]
    by_cases hfirst : p.Fits (min n aesBatchSize)
    · have hdata : storeRange (n - min n aesBatchSize) (dst + min n aesBatchSize)
          (keystream cipher.toAes p.aes (p.counter + UInt64.ofNat (min n aesBatchSize)))
          (storeRange (min n aesBatchSize) dst (keystream cipher.toAes p.aes p.counter) data) =
          storeRange n dst (keystream cipher.toAes p.aes p.counter) data := by
        rw [← hsplit, ← storeRange_append, hsplit]
        exact storeRange_congr fun i _ => keystream_add p.aes p.counter _ i
      have hrest := @ih (dst + min n aesBatchSize) (n - min n aesBatchSize)
        (storeRange (min n aesBatchSize) dst (keystream cipher.toAes p.aes p.counter) data)
        (p.advance (min n aesBatchSize)) (by omega)
      have hwhole : p.Fits n ↔ (p.advance (min n aesBatchSize)).Fits (n - min n aesBatchSize) := by
        rw [← fits_add hfirst, hsplit]
      rw [if_pos hfirst]
      refine hrest.trans ?_
      by_cases hall : p.Fits n
      · rw [if_pos hall, if_pos (hwhole.mp hall), advance_advance, hsplit]
        exact congrArg (fun d => Except.ok (d, p.advance n)) hdata
      · rw [if_neg hall, if_neg (mt hwhole.mpr hall)]
    · rw [if_neg hfirst, if_neg fun hall => hfirst (hall.of_le (Nat.min_le_left _ _))]
      rfl

structure Streaming (R : Prg AesKey → Prg AesKey → Prop) : Prop where
  counter : ∀ {p q}, R p q → p.counter = q.counter
  aes : ∀ {p q}, R p q → p.aes = q.aes
  advance : ∀ {p q}, R p q → ∀ c, R { p with counter := c } { q with counter := c }

section Streaming

variable {R : Prg AesKey → Prg AesKey → Prop} (hR : Streaming R)
include hR

theorem randomBlock_respects (addr : Nat) (data : Nat → Block) (nblocks : Int) :
    Respects R (randomBlock cipher tiers addr data nblocks) := by
  refine respects_bind (respects_lift _) fun _ => respects_ite (respects_pure data) ?_
  refine respects_bind (respects_lift _) fun _ => ?_
  intro p q h
  have hadvance := hR.advance h (q.counter + UInt64.ofNat nblocks.toNat)
  have hfits : p.Fits nblocks.toNat ↔ q.Fits nblocks.toNat := by
    rw [Fits, Fits, hR.counter h]
  rw [randomBlockLoop_eq data p (Nat.le_refl _), randomBlockLoop_eq data q (Nat.le_refl _)]
  by_cases hq : q.Fits nblocks.toNat
  · rw [if_pos hq, if_pos (hfits.mpr hq), advance, advance, hR.counter h]
    refine ⟨?_, hadvance⟩
    rw [hR.aes h]
  · rw [if_neg hq, if_neg (mt hfits.mp hq)]
    exact rfl

theorem randomTail_respects (nbytes : Nat) (data : Nat → UInt8) :
    Respects R (randomTail cipher tiers nbytes data) := by
  refine respects_ite ?_ (respects_pure data)
  exact respects_bind (randomBlock_respects hR _ _ _) fun _ => respects_pure _

theorem randomData_respects (addr : Nat) (data : Nat → UInt8) (nbytes : Int) :
    Respects R (randomData cipher tiers addr data nbytes) := by
  refine respects_bind (respects_lift _) fun _ => respects_ite (respects_pure data) ?_
  refine respects_bind (respects_lift _) fun _ => ?_
  exact respects_bind (randomBlock_respects hR _ _ _) fun _ => randomTail_respects hR _ _

theorem randomRest_respects (last fuel : Nat) :
    ∀ (remaining : Nat) (data : Nat → UInt8),
      Respects R (randomRest cipher tiers last fuel remaining data) := by
  induction fuel with
  | zero => exact fun _ data => respects_pure data
  | succ fuel ih =>
    intro remaining data
    refine respects_ite ?_ (respects_pure data)
    exact respects_bind (randomBlock_respects hR _ _ _) fun _ => ih _ _

theorem randomDataUnaligned_respects (addr : Nat) (data : Nat → UInt8) (nbytes : Int) :
    Respects R (randomDataUnaligned cipher tiers addr data nbytes) := by
  refine respects_bind (respects_lift _) fun _ => respects_ite (respects_pure data) ?_
  refine respects_ite ?_ ?_
  · exact respects_bind (randomBlock_respects hR _ _ _) fun _ => respects_pure _
  · exact respects_bind (randomData_respects hR _ _ _) fun _ => randomRest_respects hR _ _ _ _

theorem randomBoolLoop_respects (length fuel : Nat) :
    ∀ (produced : Nat) (buf : Nat → Block) (data : Nat → Bool),
      Respects R (randomBoolLoop cipher tiers length fuel produced buf data) := by
  induction fuel with
  | zero => exact fun _ _ data => respects_pure data
  | succ fuel ih =>
    intro produced buf data
    refine respects_ite ?_ (respects_pure data)
    exact respects_bind (randomBlock_respects hR _ _ _) fun _ => ih _ _ _

theorem randomBool_respects (data : Nat → Bool) (length : Int) :
    Respects R (randomBool cipher tiers data length) :=
  respects_bind (respects_lift _) fun _ => randomBoolLoop_respects hR _ _ _ _ _

-- only `operator()` and `seek` touch the buffered words
theorem perform_respects {c : Call} (hnext : c = .next → Respects R (next cipher tiers))
    (hseek : ∀ blockCounter, c = .seek blockCounter → Respects R (seek blockCounter)) :
    Respects R (c.perform cipher tiers) := by
  cases c with
  | randomBlock addr data nblocks =>
    exact respects_map _ (randomBlock_respects hR addr data nblocks)
  | randomData addr data nbytes => exact respects_map _ (randomData_respects hR addr data nbytes)
  | randomDataUnaligned addr data nbytes =>
    exact respects_map _ (randomDataUnaligned_respects hR addr data nbytes)
  | randomBool data length => exact respects_map _ (randomBool_respects hR data length)
  | next => exact respects_map _ (hnext rfl)
  | seek blockCounter => exact respects_map _ (hseek blockCounter rfl)

end Streaming

def freshWords (cipher : Cipher AesKey) (p : Prg AesKey) : Nat → UInt64 :=
  wordsOf (storeRange 16 0 (keystream cipher.toAes p.aes p.counter) (blocksOfWords p.buffer))

theorem refill_of_empty {p : Prg AesKey} (h : p.ptr = 32) :
    refill cipher tiers p =
      if p.Fits 16 then
        .ok ((), { p with
          counter := p.counter + 16
          buffer := freshWords cipher p
          ptr := 0 })
      else .error "signed int overflow" := by
  have hfill := @randomBlockLoop_eq AesKey cipher tiers 16 0 16 (blocksOfWords p.buffer) p
    (Nat.le_refl 16)
  by_cases hfits : p.Fits 16
  · rw [if_pos hfits] at hfill ⊢
    simp [refill, h, randomBlock, bind, StateT.bind, Except.bind, get, getThe, MonadStateOf.get,
      StateT.get, expecting, hfill, modify, modifyGet, MonadStateOf.modifyGet, StateT.modifyGet,
      liftM, monadLift, MonadLift.monadLift, StateT.lift, pure, Except.pure, freshWords, advance]
  · rw [if_neg hfits] at hfill ⊢
    simp [refill, h, randomBlock, bind, StateT.bind, Except.bind, get, getThe, MonadStateOf.get,
      StateT.get, expecting, hfill, liftM, monadLift, MonadLift.monadLift, StateT.lift, pure,
      Except.pure]

theorem refill_of_more {p : Prg AesKey} (h : p.ptr ≠ 32) :
    refill cipher tiers p = .ok ((), p) := by
  show (if p.ptr = 32 then _ else _ : PrgM AesKey Unit) p = _
  rw [if_neg h]
  rfl

def refilled (cipher : Cipher AesKey) (p : Prg AesKey) : Prg AesKey :=
  if p.ptr = 32 then
    { p with counter := p.counter + 16, buffer := freshWords cipher p, ptr := 0 }
  else p

def nextBlocks (p : Prg AesKey) : Nat := if p.ptr = 32 then 16 else 0

theorem refill_eq (p : Prg AesKey) :
    refill cipher tiers p =
      if p.Fits p.nextBlocks then .ok ((), refilled cipher p)
      else .error "signed int overflow" := by
  unfold nextBlocks refilled
  by_cases h : p.ptr = 32
  · rw [if_pos h, if_pos h]
    exact refill_of_empty h
  · rw [if_neg h, if_neg h, if_pos p.fits_zero]
    exact refill_of_more h

theorem next_eq (p : Prg AesKey) :
    next cipher tiers p =
      if p.Fits p.nextBlocks then
        .ok ((refilled cipher p).buffer (refilled cipher p).ptr,
          { refilled cipher p with ptr := (refilled cipher p).ptr + 1 })
      else .error "signed int overflow" := by
  show (refill cipher tiers p >>= fun r => _) = _
  rw [refill_eq]
  split
  · rfl
  · rfl

theorem perform_next {p : Prg AesKey} (h : p.Fits p.nextBlocks) :
    Call.perform cipher tiers .next p =
      .ok (.word ((refilled cipher p).buffer (refilled cipher p).ptr),
        { refilled cipher p with ptr := (refilled cipher p).ptr + 1 }) := by
  show (next cipher tiers p >>= fun r => pure (Result.word r.1, r.2)) = _
  rw [next_eq, if_pos h]
  rfl

theorem runCalls_cons {c : Call} {p p' : Prg AesKey} {r : Result}
    (h : c.perform cipher tiers p = .ok (r, p')) (calls : List Call) :
    runCalls cipher tiers (c :: calls) p =
      (runCalls cipher tiers calls p').map fun rest => (r :: rest.1, rest.2) := by
  rw [runCalls, List.mapM_cons]
  show (c.perform cipher tiers p >>= fun r => _) = _
  rw [h]
  show (runCalls cipher tiers calls p' >>= fun rest => pure (r :: rest.1, rest.2)) = _
  cases runCalls cipher tiers calls p' with
  | error m => rfl
  | ok rest => rfl

theorem freshWords_congr {p q : Prg AesKey} (hc : p.counter = q.counter) (ha : p.aes = q.aes)
    {i : Nat} (hi : i < 32) : freshWords cipher p i = freshWords cipher q i := by
  have hblock : ∀ b : Nat → Block,
      storeRange 16 0 (keystream cipher.toAes p.aes p.counter) b (i / 2) =
        keystream cipher.toAes p.aes p.counter (i / 2) :=
    fun _ => storeRange_front (by omega)
  rw [freshWords, freshWords, wordsOf, wordsOf, ← hc, ← ha, hblock, hblock]

structure Alike (p q : Prg AesKey) : Prop where
  counter : p.counter = q.counter
  aes : p.aes = q.aes
  ptr : p.ptr = q.ptr
  ptr_le : p.ptr ≤ 32
  buffer : ∀ i, p.ptr ≤ i → i < 32 → p.buffer i = q.buffer i

theorem alike_streaming : Streaming (@Alike AesKey) where
  counter h := h.counter
  aes h := h.aes
  advance h _ := ⟨rfl, h.aes, h.ptr, h.ptr_le, h.buffer⟩

theorem Alike.refilled {p q : Prg AesKey} (h : Alike p q) :
    Alike (refilled cipher p) (refilled cipher q) ∧ (refilled cipher p).ptr < 32 := by
  have hptr := h.ptr
  have hle := h.ptr_le
  unfold Prg.refilled
  by_cases hp : p.ptr = 32
  · rw [if_pos hp, if_pos (hptr ▸ hp)]
    refine ⟨⟨?_, h.aes, rfl, Nat.zero_le _, fun i _ hi => ?_⟩, Nat.zero_lt_succ _⟩
    · show p.counter + 16 = q.counter + 16
      rw [h.counter]
    · exact freshWords_congr h.counter h.aes hi
  · rw [if_neg hp, if_neg (hptr ▸ hp)]
    exact ⟨h, by omega⟩

theorem next_respects : Respects Alike (next cipher tiers) := by
  intro p q h
  obtain ⟨hr, hlt⟩ := @Alike.refilled AesKey cipher p q h
  have hfits : p.Fits p.nextBlocks ↔ q.Fits q.nextBlocks := by
    rw [Fits, Fits, nextBlocks, nextBlocks, h.counter, h.ptr]
  rw [next_eq, next_eq]
  by_cases hq : q.Fits q.nextBlocks
  · rw [if_pos hq, if_pos (hfits.mpr hq)]
    refine ⟨?_, hr.counter, hr.aes, ?_, hlt, fun i hi hi' => hr.buffer i (Nat.le_of_succ_le hi) hi'⟩
    · rw [← hr.ptr]
      exact hr.buffer _ (Nat.le_refl _) hlt
    · show _ + 1 = _ + 1
      rw [hr.ptr]
  · rw [if_neg hq, if_neg (mt hfits.mp hq)]
    exact rfl

theorem seek_respects (blockCounter : UInt64) :
    Respects Alike (seek blockCounter : PrgM AesKey Unit) := by
  intro p q h
  refine ⟨rfl, rfl, h.aes, rfl, Nat.le_refl _, fun i hi hi' => ?_⟩
  exact absurd hi' (Nat.not_lt.mpr hi)

theorem runCalls_respects (calls : List Call) : Respects Alike (runCalls cipher tiers calls) :=
  respects_mapM (fun _ => perform_respects alike_streaming (fun _ => next_respects)
    fun blockCounter _ => seek_respects blockCounter) calls

theorem outputs_alike {p q : Prg AesKey} (h : Alike p q) (calls : List Call) :
    outputs cipher tiers calls p = outputs cipher tiers calls q := by
  have hrun := @runCalls_respects AesKey cipher tiers calls p q h
  show Prod.fst <$> runCalls cipher tiers calls p = Prod.fst <$> runCalls cipher tiers calls q
  revert hrun
  cases runCalls cipher tiers calls p with
  | error m =>
    cases runCalls cipher tiers calls q with
    | error m' => exact fun hrun => congrArg Except.error hrun
    | ok r' => exact fun hrun => hrun.elim
  | ok r =>
    cases runCalls cipher tiers calls q with
    | error m' => exact fun hrun => hrun.elim
    | ok r' => exact fun hrun => congrArg Except.ok hrun.1

-- a word and then one block: the block tells how much of the stream the word used up
def probe : List Call := [.next, .randomBlock 0 (fun _ => zeroBlock) 1]

theorem outputs_probe {p : Prg AesKey} (hp : p.counter = 0) :
    ∃ w, outputs cipher tiers probe p =
      .ok [.word w, .blocks (storeRange 1 0 (keystream cipher.toAes (refilled cipher p).aes
        (refilled cipher p).counter) fun _ => zeroBlock)] := by
  have hnext := @next_eq AesKey cipher tiers p
  have hblock := @randomBlockLoop_eq AesKey cipher tiers 1 0 1 (fun _ => zeroBlock)
    { refilled cipher p with ptr := (refilled cipher p).ptr + 1 } (Nat.le_refl 1)
  have hfits : p.Fits p.nextBlocks := by
    rw [Fits, hp, nextBlocks]
    split
    · decide
    · decide
  have hroom : Fits { refilled cipher p with ptr := (refilled cipher p).ptr + 1 } 1 := by
    show signedCounter (refilled cipher p).counter + 1 < 2 ^ 63
    unfold refilled
    split
    · show signedCounter (p.counter + 16) + 1 < 2 ^ 63
      rw [hp]
      decide
    · rw [hp]
      decide
  rw [if_pos hfits] at hnext
  rw [if_pos hroom] at hblock
  refine ⟨(refilled cipher p).buffer (refilled cipher p).ptr, ?_⟩
  show Prod.fst <$> (probe.mapM (Call.perform cipher tiers)) p = _
  simp [probe, Call.perform, bind, StateT.bind, Except.bind, Functor.map, StateT.map, Except.map,
    hnext, hblock, randomBlock, expecting, liftM, monadLift, MonadLift.monadLift, StateT.lift,
    pure, Except.pure]
  rfl

def wordsSinceSeek : Nat → List Call → Nat
  | n, [] => n
  | n, .next :: calls => wordsSinceSeek (n + 1) calls
  | _, .seek _ :: calls => wordsSinceSeek 0 calls
  | n, _ :: calls => wordsSinceSeek n calls

def ptrAfter (n : Nat) : Nat := if n % 32 = 0 then 32 else n % 32

def Standing (n : Nat) (p q : Prg AesKey) : Prop := p = q ∧ p.ptr = ptrAfter n

theorem standing_streaming (n : Nat) : Streaming (@Standing AesKey n) where
  counter h := congrArg Prg.counter h.1
  aes h := congrArg Prg.aes h.1
  advance h c := by
    obtain ⟨rfl, hptr⟩ := h
    exact ⟨rfl, hptr⟩

theorem ptrAfter_eq_iff (n : Nat) : ptrAfter n = 32 ↔ n % 32 = 0 := by
  unfold ptrAfter
  split <;> omega

theorem next_ptr {n : Nat} {p : Prg AesKey} (h : p.ptr = ptrAfter n) :
    (refilled cipher p).ptr + 1 = ptrAfter (n + 1) := by
  unfold refilled
  split
  case isTrue hp =>
    have hn := (ptrAfter_eq_iff n).mp (h ▸ hp)
    show 0 + 1 = ptrAfter (n + 1)
    unfold ptrAfter
    split <;> omega
  case isFalse hp =>
    have hn : n % 32 ≠ 0 := fun hz => hp (h.trans ((ptrAfter_eq_iff n).mpr hz))
    rw [h, ptrAfter, if_neg hn, ptrAfter]
    split <;> omega

theorem standing_run {α : Type} {n : Nat} {x : PrgM AesKey α} {p p' : Prg AesKey} {a : α}
    (hx : Respects (Standing n) x) (h : p.ptr = ptrAfter n) (hrun : x p = .ok (a, p')) :
    p'.ptr = ptrAfter n := by
  have hagree := hx p p ⟨rfl, h⟩
  rw [hrun] at hagree
  exact hagree.2.2

theorem perform_ptr {n : Nat} {p p' : Prg AesKey} {c : Call} {r : Result}
    (h : p.ptr = ptrAfter n) (hrun : c.perform cipher tiers p = .ok (r, p')) :
    p'.ptr = ptrAfter (wordsSinceSeek n [c]) := by
  cases c with
  | next =>
    by_cases hfits : p.Fits p.nextBlocks
    · rw [perform_next hfits] at hrun
      cases hrun
      exact next_ptr h
    · have hnext := @next_eq AesKey cipher tiers p
      rw [if_neg hfits] at hnext
      simp [Call.perform, Functor.map, StateT.map, bind, Except.bind, hnext] at hrun
  | seek blockCounter =>
    cases hrun
    rfl
  | _ =>
    refine standing_run (perform_respects (standing_streaming n) ?_ ?_) h hrun
    · exact fun hc => nomatch hc
    · exact fun _ hc => nomatch hc

theorem wordsSinceSeek_cons (n : Nat) (c : Call) (calls : List Call) :
    wordsSinceSeek n (c :: calls) = wordsSinceSeek (wordsSinceSeek n [c]) calls := by
  cases c <;> rfl

theorem runCalls_ptr {calls : List Call} :
    ∀ {n : Nat} {p p' : Prg AesKey} {results : List Result}, p.ptr = ptrAfter n →
      runCalls cipher tiers calls p = .ok (results, p') →
      p'.ptr = ptrAfter (wordsSinceSeek n calls) := by
  induction calls with
  | nil =>
    intro n p p' results h hrun
    cases hrun
    exact h
  | cons c calls ih =>
    intro n p p' results h hrun
    rw [runCalls, List.mapM_cons] at hrun
    change (c.perform cipher tiers p >>= fun r => _) = _ at hrun
    cases hc : c.perform cipher tiers p with
    | error m =>
      rw [hc] at hrun
      cases hrun
    | ok r =>
      rw [hc] at hrun
      change (runCalls cipher tiers calls r.2 >>= fun r' => _) = _ at hrun
      cases hcalls : runCalls cipher tiers calls r.2 with
      | error m =>
        rw [hcalls] at hrun
        cases hrun
      | ok r' =>
        rw [hcalls] at hrun
        cases hrun
        rw [wordsSinceSeek_cons]
        exact ih (perform_ptr h hc) hcalls

theorem history_ptr {raw p : Prg AesKey} {seed : Block} {id : Int32} {history : List Call}
    {results : List Result}
    (h : runCalls cipher tiers history (construct cipher raw seed id) = .ok (results, p)) :
    p.ptr = ptrAfter (wordsSinceSeek 0 history) :=
  runCalls_ptr rfl h

theorem alike_reseed {p : Prg AesKey} (h : p.ptr = 32) (raw : Prg AesKey) (seed : Block)
    (id : Int32) : Alike (reseed cipher seed (idWord id) p) (construct cipher raw seed id) := by
  refine ⟨rfl, rfl, h, Nat.le_of_eq h, fun i hi hi' => ?_⟩
  change p.ptr ≤ i at hi
  omega

theorem probe_tells {p : Prg AesKey} (h : p.ptr ≠ 32) (raw : Prg AesKey) (seed : Block)
    (id : Int32) :
    outputs cipher tiers probe (reseed cipher seed (idWord id) p) ≠
      outputs cipher tiers probe (construct cipher raw seed id) := by
  intro heq
  obtain ⟨w, hw⟩ := @outputs_probe AesKey cipher tiers (reseed cipher seed (idWord id) p) rfl
  obtain ⟨w', hw'⟩ := @outputs_probe AesKey cipher tiers (construct cipher raw seed id) rfl
  rw [hw, hw'] at heq
  have hold : refilled cipher (reseed cipher seed (idWord id) p) =
      reseed cipher seed (idWord id) p := if_neg h
  have hfresh : (refilled cipher (construct cipher raw seed id)).counter = 16 := rfl
  have haes : (refilled cipher (construct cipher raw seed id)).aes =
      (reseed cipher seed (idWord id) p).aes := rfl
  rw [hold, hfresh, haes] at heq
  injection heq with hlist
  injection hlist with _ hlist
  injection hlist with hblocks _
  injection hblocks with hblocks
  have hfirst := congrFun hblocks 0
  rw [storeRange_front Nat.zero_lt_one, storeRange_front Nat.zero_lt_one] at hfirst
  have hcounter := congrArg Block.low (cipher.injective _ hfirst)
  change (0 : UInt64) + UInt64.ofNat 0 = 16 + UInt64.ofNat 0 at hcounter
  exact absurd hcounter (by decide)

theorem reseed_like_fresh_iff (cipher : Cipher AesKey) (tiers : Tiers) (raw raw' : Prg AesKey)
    (seed₀ : Block) (id₀ : Int32) (history : List Call) (results : List Result) (p : Prg AesKey)
    (hhistory : runCalls cipher tiers history (construct cipher raw seed₀ id₀) =
      .ok (results, p)) (seed : Block) (id : Int32) :
    (∀ later, outputs cipher tiers later (reseed cipher seed (idWord id) p) =
      outputs cipher tiers later (construct cipher raw' seed id)) ↔
      wordsSinceSeek 0 history % 32 = 0 := by
  rw [← ptrAfter_eq_iff, ← history_ptr hhistory]
  refine ⟨fun hall => ?_, fun hptr later => outputs_alike (alike_reseed hptr raw' seed id) later⟩
  by_contra hptr
  exact probe_tells hptr raw' seed id (hall probe)

def sampleCipher : Cipher Block where
  schedule := id
  encrypt key x := key ^^^ x
  injective key x y h := by
    have hxor := congrArg (key ^^^ ·) h
    simpa using hxor

def sampleTiers : Tiers := ⟨true, true⟩

def samplePrg : Prg Block :=
  construct sampleCipher ⟨0, zeroBlock, zeroBlock, fun _ => 0, 0⟩ zeroBlock 0

theorem perform_next_samplePrg :
    Call.perform sampleCipher sampleTiers .next samplePrg =
      .ok (.word ((refilled sampleCipher samplePrg).buffer 0),
        { refilled sampleCipher samplePrg with ptr := 1 }) :=
  perform_next (by decide)

theorem reseed_like_fresh_iff_afterSeek :
    ∃ results p, runCalls sampleCipher sampleTiers [.next, .seek 3] samplePrg = .ok (results, p) ∧
      ∀ later, outputs sampleCipher sampleTiers later (reseed sampleCipher ⟨7, 11⟩ (idWord 2) p) =
        outputs sampleCipher sampleTiers later (construct sampleCipher samplePrg ⟨7, 11⟩ 2) := by
  have hrun := runCalls_cons perform_next_samplePrg [.seek 3]
  refine ⟨_, _, hrun, ?_⟩
  exact (reseed_like_fresh_iff sampleCipher sampleTiers _ samplePrg zeroBlock 0
    [.next, .seek 3] _ _ hrun ⟨7, 11⟩ 2).mpr rfl

theorem reseed_keeps_buffered_words :
    ∃ results p, runCalls sampleCipher sampleTiers [.next] samplePrg = .ok (results, p) ∧
      ¬ ∀ later,
        outputs sampleCipher sampleTiers later (reseed sampleCipher ⟨7, 11⟩ (idWord 2) p) =
          outputs sampleCipher sampleTiers later (construct sampleCipher samplePrg ⟨7, 11⟩ 2) := by
  refine ⟨_, _, runCalls_cons perform_next_samplePrg [], fun hall => ?_⟩
  refine probe_tells ?_ samplePrg ⟨7, 11⟩ 2 (hall probe)
  decide

end EmpTool.Crypto.Prg
