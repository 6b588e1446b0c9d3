import EmpTool.Crypto.AesTiles
import EmpTool.Runtime.Error
import Mathlib.Logic.Function.Iterate

namespace EmpTool.Crypto

open Memory

-- the bits of a signed counter, as `_mm_set_epi64x` takes them
def counterWord (counter : Int) : UInt64 := (Int64.ofInt counter).toUInt64

-- the cast of the generator's counter to the `int64_t` of the fill
def signedCounter (counter : UInt64) : Int := counter.toInt64.toInt

-- the sums of the lower lanes are in range when the last lane's is
def Lane.ctrXorTweak (n : Nat) (b0 : Int) (slot : Nat) (tw : Vec) : Except String Vec := do
  let _ ← addInt64 b0 (n * slot + (n - 1) : Nat)
  pure fun j => makeBlock 0 (counterWord (b0 + (n * slot + j : Nat))) ^^^ tw j

section Fill

variable {AesKey : Type} (aes : Aes AesKey) (tiers : Tiers)

def aesCtrFillLane (n w dst : Nat) (counter : Int) (kk : AesKey) (mem : Nat → Block) :
    Except String (Nat → Block) := do
  let pts ← (List.range (w / n)).mapM fun t =>
    Lane.ctrXorTweak n counter t (Lane.broadcast zeroBlock)
  pure (aesTilesSrc aes tiers n (w / n) (fun _ t => pts.getD t (Lane.broadcast zeroBlock))
    (fun t x _ => Lane.store n (dst + t * n) x) kk mem)

def aesCtrFill (w dst : Nat) (counter : Int) (kk : AesKey) (mem : Nat → Block) :
    Except String (Nat → Block) :=
  if tiers.vaes512 ∧ w % 4 = 0 then aesCtrFillLane aes tiers 4 w dst counter kk mem
  else if tiers.vaes256 ∧ w % 2 = 0 then aesCtrFillLane aes tiers 2 w dst counter kk mem
  else aesCtrFillLane aes tiers 1 w dst counter kk mem

-- `counter` is an `int64_t`
structure CtrFillOp where
  dst : Nat
  counter : Int
  mem : Nat → Block

def CtrFillOp.run (kk : AesKey) (w : Nat) (op : CtrFillOp) : Except String CtrFillOp := do
  let mem ← aesCtrFill aes tiers w op.dst op.counter kk op.mem
  let counter ← addInt64 op.counter w
  pure { dst := op.dst + w, counter := counter, mem := mem }

def drainTiles {Op : Type} (run : Nat → Op → Op) (n : Nat) (op : Op) : Op :=
  let op := if tiers.vaes512 then (run 16)^[n / 16] op else op
  let n := if tiers.vaes512 then n % 16 else n
  let op := (run 8)^[n / 8] op
  let n := n % 8
  let op := if 4 ≤ n then run 4 op else op
  let n := if 4 ≤ n then n - 4 else n
  let op := if 2 ≤ n then run 2 op else op
  let n := if 2 ≤ n then n - 2 else n
  if 1 ≤ n then run 1 op else op

def paraCtrEnc (dst : Nat) (counter : Int) (kk : AesKey) (n : Nat) (mem : Nat → Block) :
    Except String (Nat → Block) :=
  CtrFillOp.mem <$> drainTiles tiers (fun w op => op >>= CtrFillOp.run aes tiers kk w) n
    (.ok ⟨dst, counter, mem⟩)

end Fill

section Ladder

variable {tiers : Tiers} {Op : Type} {run : Nat → Op → Op} {done : Nat → Op} {n : Nat}

theorem iterate_done (hrun : ∀ m w, m + w ≤ n → run w (done m) = done (m + w)) {w k m : Nat}
    (hm : m + k * w ≤ n) : (run w)^[k] (done m) = done (m + k * w) := by
  induction k generalizing m with
  | zero => rw [Function.iterate_zero_apply, Nat.zero_mul, Nat.add_zero]
  | succ k ih =>
    have hw : m + (k + 1) * w = m + w + k * w := by
      rw [Nat.succ_mul]
      omega
    rw [hw] at hm ⊢
    rw [Function.iterate_succ_apply, hrun m w (by omega), ih hm]

-- the loops and branches keep `r`, the blocks that are left
theorem drainTiles_done (hrun : ∀ m w, m + w ≤ n → run w (done m) = done (m + w)) :
    drainTiles tiers run n (done 0) = done n := by
  have hloop (w : Nat) {r : Nat} (hr : r ≤ n) :
      (run w)^[r / w] (done (n - r)) = done (n - r % w) := by
    have hdiv := Nat.div_add_mod' r w
    have hleft : n - r % w = n - r + r / w * w := by omega
    rw [hleft]
    exact iterate_done hrun (by omega)
  have hbranch (w : Nat) {r : Nat} (hr : r ≤ n) :
      (if w ≤ r then run w (done (n - r)) else done (n - r)) =
        done (n - if w ≤ r then r - w else r) := by
    split
    case isTrue hw =>
      have hleft : n - (r - w) = n - r + w := by omega
      rw [hleft]
      exact hrun _ _ (by omega)
    case isFalse => rfl
  have hwide : (if tiers.vaes512 then (run 16)^[n / 16] (done 0) else done 0) =
      done (n - if tiers.vaes512 then n % 16 else n) := by
    have hfirst := hloop 16 (Nat.le_refl n)
    rw [Nat.sub_self] at hfirst
    cases tiers.vaes512 with
    | true => exact hfirst
    | false => exact congrArg done (Nat.sub_self n).symm
  have hleft : (if tiers.vaes512 then n % 16 else n) ≤ n := by
    split
    · exact Nat.mod_le n 16
    · exact Nat.le_refl n
  simp only [drainTiles, hwide]
  generalize (if tiers.vaes512 then n % 16 else n) = r at hleft ⊢
  rw [hloop 8 hleft]
  have hlt : r % 8 < 8 := Nat.mod_lt r (by decide)
  have hle : r % 8 ≤ n := Nat.le_trans (Nat.mod_le r 8) hleft
  generalize r % 8 = r at hlt hle ⊢
  rw [hbranch 4 hle]
  have hlt : (if 4 ≤ r then r - 4 else r) < 4 := by split <;> omega
  have hle : (if 4 ≤ r then r - 4 else r) ≤ n := by split <;> omega
  generalize (if 4 ≤ r then r - 4 else r) = r at hlt hle ⊢
  rw [hbranch 2 hle]
  have hlt : (if 2 ≤ r then r - 2 else r) < 2 := by split <;> omega
  have hle : (if 2 ≤ r then r - 2 else r) ≤ n := by split <;> omega
  generalize (if 2 ≤ r then r - 2 else r) = r at hlt hle ⊢
  have hnone : (if 1 ≤ r then r - 1 else r) = 0 := by split <;> omega
  rw [hbranch 1 hle, hnone, Nat.sub_zero]

end Ladder

section Spec

variable {AesKey : Type}

def keystream (aes : Aes AesKey) (kk : AesKey) (counter : UInt64) (i : Nat) : Block :=
  aes.encrypt kk (makeBlock 0 (counter + UInt64.ofNat i))

variable {aes : Aes AesKey} {tiers : Tiers}

theorem keystream_add (kk : AesKey) (counter : UInt64) (m i : Nat) :
    keystream aes kk (counter + UInt64.ofNat m) i = keystream aes kk counter (m + i) := by
  rw [keystream, keystream, UInt64.ofNat_add, UInt64.add_assoc]

theorem counterWord_add (counter : Int) (n : Nat) :
    counterWord (counter + n) = counterWord counter + UInt64.ofNat n := by
  rw [counterWord, Int64.ofInt_add, Int64.toUInt64_add, Int64.ofInt_eq_ofNat,
    Int64.toUInt64_ofNat', counterWord]

theorem signedCounter_bounds (c : UInt64) : -2 ^ 63 ≤ signedCounter c ∧ signedCounter c < 2 ^ 63 :=
  ⟨c.toInt64.le_toInt, c.toInt64.toInt_lt⟩

@[simp] theorem counterWord_signedCounter (c : UInt64) : counterWord (signedCounter c) = c := by
  rw [counterWord, signedCounter, Int64.ofInt_toInt, UInt64.toUInt64_toInt64]

theorem signedCounter_add {c : UInt64} {n : Nat} (h : signedCounter c + n < 2 ^ 63) :
    signedCounter (c + UInt64.ofNat n) = signedCounter c + n := by
  have hlow := (signedCounter_bounds c).1
  have hword : c + UInt64.ofNat n = counterWord (signedCounter c + n) := by
    rw [counterWord_add, counterWord_signedCounter]
  rw [hword, signedCounter, counterWord, Int64.toInt64_toUInt64,
    Int64.toInt_ofInt_of_le (by omega) h]

variable {counter : Int}

theorem ctrXorTweaks_eq (hlow : -2 ^ 63 ≤ counter) (hhigh : counter < 2 ^ 63) {n : Nat}
    (hn : 0 < n) (k : Nat) :
    (List.range k).mapM (fun t => Lane.ctrXorTweak n counter t (Lane.broadcast zeroBlock)) =
      if counter + (k * n : Nat) ≤ 2 ^ 63 then
        .ok ((List.range k).map fun t j =>
          makeBlock 0 (counterWord counter + UInt64.ofNat (t * n + j)))
      else .error "signed int overflow" := by
  induction k with
  | zero =>
    rw [if_pos (by omega)]
    rfl
  | succ k ih =>
    have hnext : (k + 1) * n = n * k + (n - 1) + 1 := by
      rw [Nat.succ_mul, Nat.mul_comm]
      omega
    rw [List.range_succ, List.mapM_append, ih, Nat.mul_comm k n, hnext]
    by_cases hfit : counter + (n * k + (n - 1) + 1 : Nat) ≤ 2 ^ 63
    · rw [if_pos (by omega), if_pos hfit, List.map_append]
      have hlane : Lane.ctrXorTweak n counter k (Lane.broadcast zeroBlock) =
          .ok fun j => makeBlock 0 (counterWord counter + UInt64.ofNat (k * n + j)) := by
        rw [Lane.ctrXorTweak, addInt64_count hlow, if_pos (by omega)]
        refine congrArg Except.ok (funext fun j => ?_)
        rw [← counterWord_add, Nat.mul_comm k n]
        exact Block.xor_zero _
      rw [List.mapM_cons, hlane]
      rfl
    · rw [if_neg hfit]
      split
      case isTrue =>
        have hlane : Lane.ctrXorTweak n counter k (Lane.broadcast zeroBlock) =
            .error "signed int overflow" := by
          rw [Lane.ctrXorTweak, addInt64_count hlow, if_neg (by omega)]
          rfl
        rw [List.mapM_cons, hlane]
        rfl
      case isFalse => rfl

theorem aesCtrFillLane_eq (hlow : -2 ^ 63 ≤ counter) (hhigh : counter < 2 ^ 63) {n w : Nat}
    (hn : 0 < n) (hw : w / n * n = w) (dst : Nat) (kk : AesKey) (mem : Nat → Block) :
    aesCtrFillLane aes tiers n w dst counter kk mem =
      if counter + w ≤ 2 ^ 63 then .ok (storeRange w dst (keystream aes kk (counterWord counter)) mem)
      else .error "signed int overflow" := by
  rw [aesCtrFillLane, ctrXorTweaks_eq hlow hhigh hn, hw]
  split
  case isFalse => rfl
  case isTrue =>
    refine congrArg Except.ok ?_
    have hfill := @aesTilesSrc_eq AesKey aes tiers n (w / n) dst dst
      (fun _ t j => makeBlock 0 (counterWord counter + UInt64.ofNat (t * n + j)))
      (fun t x _ => Lane.store n (dst + t * n) x) kk
      (fun b _ => makeBlock 0 (counterWord counter + UInt64.ofNat b)) (fun x _ => x)
      (fun _ _ _ => rfl) (fun _ _ _ _ => rfl) (Or.inl rfl) mem
    rw [hw] at hfill
    refine Eq.trans (aesTilesSrc_congr aes tiers fun _ t ht => ?_) hfill
    simp [List.getD, ht]

theorem aesCtrFill_eq (hlow : -2 ^ 63 ≤ counter) (hhigh : counter < 2 ^ 63) (w dst : Nat)
    (kk : AesKey) (mem : Nat → Block) :
    aesCtrFill aes tiers w dst counter kk mem =
      if counter + w ≤ 2 ^ 63 then .ok (storeRange w dst (keystream aes kk (counterWord counter)) mem)
      else .error "signed int overflow" := by
  unfold aesCtrFill
  split
  case isTrue h => exact aesCtrFillLane_eq hlow hhigh (by decide) (by omega) dst kk mem
  case isFalse =>
    split
    case isTrue h => exact aesCtrFillLane_eq hlow hhigh (by decide) (by omega) dst kk mem
    case isFalse => exact aesCtrFillLane_eq hlow hhigh (by decide) (by omega) dst kk mem

def CtrFillOp.filled (aes : Aes AesKey) (kk : AesKey) (op : CtrFillOp) (m : Nat) :
    Except String CtrFillOp :=
  if op.counter + m < 2 ^ 63 then
    .ok {
      dst := op.dst + m
      counter := op.counter + m
      mem := storeRange m op.dst (keystream aes kk (counterWord op.counter)) op.mem }
  else .error "signed int overflow"

theorem filled_zero (kk : AesKey) {op : CtrFillOp} (hhigh : op.counter < 2 ^ 63) :
    op.filled aes kk 0 = .ok op := by
  rw [CtrFillOp.filled, if_pos (by omega), storeRange_zero]
  simp

theorem run_filled (kk : AesKey) {op : CtrFillOp} (hlow : -2 ^ 63 ≤ op.counter) (m w : Nat) :
    op.filled aes kk m >>= CtrFillOp.run aes tiers kk w = op.filled aes kk (m + w) := by
  have hsum : op.counter + (m + w : Nat) = op.counter + m + w := by omega
  by_cases hm : op.counter + m < 2 ^ 63
  · rw [CtrFillOp.filled, if_pos hm, CtrFillOp.filled, hsum]
    change CtrFillOp.run aes tiers kk w _ = _
    simp only [CtrFillOp.run]
    rw [aesCtrFill_eq (by omega) hm, addInt64_count (by omega)]
    by_cases hfit : op.counter + m + w < 2 ^ 63
    · rw [if_pos (by omega), if_pos hfit, if_pos hfit]
      refine congrArg Except.ok ?_
      rw [CtrFillOp.mk.injEq]
      refine ⟨Nat.add_assoc _ _ _, rfl, ?_⟩
      rw [← storeRange_append m w, counterWord_add]
      exact storeRange_congr fun i _ => keystream_add kk (counterWord op.counter) m i
    · rw [if_neg hfit, if_neg hfit]
      split
      · rfl
      · rfl
  · rw [CtrFillOp.filled, if_neg hm, CtrFillOp.filled, if_neg (by omega)]
    rfl

theorem drainTiles_filled (kk : AesKey) (n : Nat) {op : CtrFillOp} (hlow : -2 ^ 63 ≤ op.counter)
    (hhigh : op.counter < 2 ^ 63) :
    drainTiles tiers (fun w op => op >>= CtrFillOp.run aes tiers kk w) n (.ok op) =
      op.filled aes kk n := by
  have hdrain := @drainTiles_done tiers _ (fun w op => op >>= CtrFillOp.run aes tiers kk w)
    (op.filled aes kk) n fun m w _ => run_filled kk hlow m w
  rwa [filled_zero kk hhigh] at hdrain

theorem paraCtrEnc_eq (hlow : -2 ^ 63 ≤ counter) (hhigh : counter < 2 ^ 63) (dst : Nat)
    (kk : AesKey) (n : Nat) (mem : Nat → Block) :
    paraCtrEnc aes tiers dst counter kk n mem =
      if counter + n < 2 ^ 63 then
        .ok (storeRange n dst (keystream aes kk (counterWord counter)) mem)
      else .error "signed int overflow" := by
  rw [paraCtrEnc, drainTiles_filled kk n hlow hhigh, CtrFillOp.filled]
  split
  · rfl
  · rfl

end Spec

end EmpTool.Crypto
