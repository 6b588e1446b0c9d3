import EmpTool.Crypto.Reseeding

namespace EmpTool.Crypto.Prg

open Bits Memory

variable {AesKey : Type} {cipher : Cipher AesKey} {tiers : Tiers}

def position (p : Prg AesKey) : UInt64 := p.counter

def forkAt (blockCounter : UInt64) (p : Prg AesKey) : Prg AesKey :=
  { p with counter := blockCounter, ptr := 32 }

def bitsOf (blocks : Nat → Block) (i : Nat) : Bool := bitAt (bytesOf blocks) i

def littleEndianWord (blocks : Nat → Block) (w : Nat) : UInt64 := load64 (bytesOf blocks) (8 * w)

def Call.Accepted : Call → Prop
  | .randomBlock addr _ nblocks => 0 ≤ nblocks ∧ (nblocks = 0 ∨ addr % 16 = 0)
  | .randomData addr _ nbytes => 0 ≤ nbytes ∧ (nbytes = 0 ∨ addr % 16 = 0)
  | .randomDataUnaligned _ _ nbytes => 0 ≤ nbytes
  | .randomBool _ length => 0 ≤ length
  | .next => True
  | .seek _ => True

instance : DecidablePred Call.Accepted
  | .randomBlock addr _ nblocks => inferInstanceAs (Decidable (0 ≤ nblocks ∧ (_ ∨ addr % 16 = 0)))
  | .randomData addr _ nbytes => inferInstanceAs (Decidable (0 ≤ nbytes ∧ (_ ∨ addr % 16 = 0)))
  | .randomDataUnaligned _ _ nbytes => inferInstanceAs (Decidable (0 ≤ nbytes))
  | .randomBool _ length => inferInstanceAs (Decidable (0 ≤ length))
  | .next => inferInstanceAs (Decidable True)
  | .seek _ => inferInstanceAs (Decidable True)

-- where a reader stands: the next block, and the last refill with the words used of it
structure Cursor where
  position : UInt64
  refill : UInt64
  used : Nat

namespace Cursor

def start (blockCounter : UInt64) : Cursor := ⟨blockCounter, blockCounter, 32⟩

def skip (cur : Cursor) (blocks : Nat) : Cursor :=
  { cur with position := cur.position + UInt64.ofNat blocks }

def refilled (cur : Cursor) : Cursor :=
  if cur.used = 32 then ⟨cur.position + UInt64.ofNat 16, cur.position, 0⟩ else cur

def taken (cur : Cursor) : Call → Nat
  | .randomBlock _ _ nblocks => nblocks.toNat
  | .randomData _ _ nbytes | .randomDataUnaligned _ _ nbytes => (nbytes.toNat + 15) / 16
  | .randomBool _ length => (length.toNat + 127) / 128
  | .next => if cur.used = 32 then 16 else 0
  | .seek _ => 0

def after (cur : Cursor) : Call → Cursor
  | .randomBlock _ _ nblocks => cur.skip nblocks.toNat
  | .randomData _ _ nbytes => cur.skip ((nbytes.toNat + 15) / 16)
  | .randomDataUnaligned _ _ nbytes => cur.skip ((nbytes.toNat + 15) / 16)
  | .randomBool _ length => cur.skip ((length.toNat + 127) / 128)
  | .next => { cur.refilled with used := cur.refilled.used + 1 }
  | .seek blockCounter => start blockCounter

def result (stream : UInt64 → Nat → Block) (cur : Cursor) : Call → Result
  | .randomBlock _ data nblocks => .blocks (storeRange nblocks.toNat 0 (stream cur.position) data)
  | .randomData _ data nbytes =>
    .bytes (storeRange nbytes.toNat 0 (bytesOf (stream cur.position)) data)
  | .randomDataUnaligned _ data nbytes =>
    .bytes (storeRange nbytes.toNat 0 (bytesOf (stream cur.position)) data)
  | .randomBool data length =>
    .bools (storeRange length.toNat 0 (bitsOf (stream cur.position)) data)
  | .next => .word (littleEndianWord (stream cur.refilled.refill) cur.refilled.used)
  | .seek _ => .none

def results (stream : UInt64 → Nat → Block) : Cursor → List Call → List Result
  | _, [] => []
  | cur, c :: calls => cur.result stream c :: results stream (cur.after c) calls

def run (cur : Cursor) (calls : List Call) : Cursor := calls.foldl after cur

-- no call's blocks cross position `2 ^ 63`
def Fits : Cursor → List Call → Prop
  | _, [] => True
  | cur, c :: calls =>
    signedCounter cur.position + cur.taken c < 2 ^ 63 ∧ Fits (cur.after c) calls

instance decidableFits : (cur : Cursor) → (calls : List Call) → Decidable (cur.Fits calls)
  | _, [] => isTrue trivial
  | cur, c :: calls =>
    have := decidableFits (cur.after c) calls
    inferInstanceAs (Decidable (signedCounter cur.position + cur.taken c < 2 ^ 63 ∧ _))

end Cursor

section Draws

variable {α β : Type}

def ahead (cipher : Cipher AesKey) (p : Prg AesKey) : Nat → Block :=
  keystream cipher.toAes p.aes p.counter

def Draws (x : PrgM AesKey α) (p : Prg AesKey) (n : Nat) (a : α) : Prop :=
  x p = if p.Fits n then .ok (a, p.advance n) else .error "signed int overflow"

theorem ahead_advance (p : Prg AesKey) (m i : Nat) :
    ahead cipher (p.advance m) i = ahead cipher p (m + i) :=
  keystream_add p.aes p.counter m i

theorem bytes_ahead_advance (p : Prg AesKey) (m j : Nat) :
    bytesOf (ahead cipher (p.advance m)) j = bytesOf (ahead cipher p) (16 * m + j) := by
  have hdiv : (16 * m + j) / 16 = m + j / 16 := by omega
  rw [bytesOf, bytesOf, ahead_advance, hdiv, Nat.mul_add_mod]

theorem bits_ahead_advance (p : Prg AesKey) (m i : Nat) :
    bitsOf (ahead cipher (p.advance m)) i = bitsOf (ahead cipher p) (128 * m + i) := by
  have hdiv : (128 * m + i) / 8 = 16 * m + i / 8 := by omega
  have hmod : (128 * m + i) % 8 = i % 8 := by omega
  rw [bitsOf, bitsOf, bitAt, bitAt, bytes_ahead_advance, hdiv, hmod]

theorem bytesOf_stored {n : Nat} (v mem : Nat → Block) {j : Nat} (hj : j < 16 * n) :
    bytesOf (storeRange n 0 v mem) j = bytesOf v j := by
  rw [bytesOf, storeRange_front (by omega), bytesOf]

theorem bitsOf_stored {n : Nat} (v mem : Nat → Block) {i : Nat} (hi : i < 128 * n) :
    bitsOf (storeRange n 0 v mem) i = bitsOf v i := by
  rw [bitsOf, bitAt, bytesOf_stored _ _ (by omega), bitsOf, bitAt]

theorem draws_pure (p : Prg AesKey) (a : α) : Draws (pure a) p 0 a := by
  rw [Draws, if_pos p.fits_zero, advance_zero]
  rfl

theorem draws_bind {x : PrgM AesKey α} {f : α → PrgM AesKey β} {p : Prg AesKey} {m n : Nat} {a : α}
    {b : β} (hx : Draws x p m a) (hf : Draws (f a) (p.advance m) n b) :
    Draws (x >>= f) p (m + n) b := by
  unfold Draws at hx hf ⊢
  show (x p >>= fun r => f r.1 r.2) = _
  by_cases hm : p.Fits m
  · have hsame := fits_add hm n
    rw [if_pos hm] at hx
    rw [hx]
    refine hf.trans ?_
    rw [advance_advance]
    by_cases hall : p.Fits (m + n)
    · rw [if_pos hall, if_pos (hsame.mp hall)]
    · rw [if_neg hall, if_neg (mt hsame.mpr hall)]
  · rw [if_neg hm] at hx
    rw [hx, if_neg fun hall => hm (hall.of_le (Nat.le_add_right m n))]
    rfl

theorem draws_map {x : PrgM AesKey α} {p : Prg AesKey} {n : Nat} {a : α} (f : α → β)
    (hx : Draws x p n a) : Draws (f <$> x) p n (f a) := by
  unfold Draws at hx ⊢
  show (x p >>= fun r => pure (f r.1, r.2)) = _
  rw [hx]
  split
  · rfl
  · rfl

theorem draws_check {c : Prop} [Decidable c] {msg : String} {x : PrgM AesKey α} {p : Prg AesKey}
    {n : Nat} {a : α} (hc : c) (hx : Draws x p n a) :
    Draws (liftM (expecting c msg) >>= fun _ => x) p n a := by
  have hok : expecting c msg = .ok () := expecting_eq_ok.mpr hc
  rw [hok]
  exact hx

theorem draws_ite {c : Prop} [Decidable c] {x y : PrgM AesKey α} {p : Prg AesKey} {n : Nat} {a : α}
    (hx : c → Draws x p n a) (hy : ¬ c → Draws y p n a) : Draws (if c then x else y) p n a := by
  split
  case isTrue h => exact hx h
  case isFalse h => exact hy h

end Draws

section Calls

theorem randomBlock_draws {addr n : Nat} (haddr : n = 0 ∨ addr % 16 = 0) (data : Nat → Block)
    (p : Prg AesKey) :
    Draws (randomBlock cipher tiers addr data n) p n (storeRange n 0 (ahead cipher p) data) := by
  refine draws_check (Int.natCast_nonneg n) (draws_ite (fun hz => ?_) fun hz => ?_)
  · have hzero : n = 0 := by omega
    subst hzero
    rw [storeRange_zero]
    exact draws_pure p data
  · exact draws_check (haddr.resolve_left (by omega)) (randomBlockLoop_eq data p (Nat.le_refl _))

theorem localBlocks_draws (n : Nat) (data : Nat → Block) (p : Prg AesKey) :
    Draws (randomBlock cipher tiers 0 data n) p n (storeRange n 0 (ahead cipher p) data) :=
  randomBlock_draws (Or.inr rfl) data p

theorem copied_block {k dst m : Nat} (hk : k ≤ 16) (p : Prg AesKey) (data : Nat → UInt8) :
    storeRange k dst
        (bytesOf (storeRange 1 0 (ahead cipher (p.advance m)) fun _ => zeroBlock)) data =
      storeRange k dst (fun j => bytesOf (ahead cipher p) (16 * m + j)) data :=
  storeRange_congr fun j hj => by rw [bytesOf_stored _ _ (by omega), bytes_ahead_advance]

theorem randomTail_draws (n : Nat) (data : Nat → UInt8) (p : Prg AesKey) :
    Draws (randomTail cipher tiers n data) (p.advance (n / 16)) ((n % 16 + 15) / 16)
      (storeRange (n % 16) (n / 16 * 16) (fun j => bytesOf (ahead cipher p) (n / 16 * 16 + j))
        data) := by
  refine draws_ite (fun hpart => ?_) fun hwhole => ?_
  · have hone : (n % 16 + 15) / 16 = 1 + 0 := by omega
    rw [hone, Nat.mul_comm (n / 16) 16, ← copied_block (by omega) p data, Nat.mul_comm 16 (n / 16)]
    exact draws_bind (localBlocks_draws 1 _ _) (draws_pure _ _)
  · have hzero : n % 16 = 0 := by omega
    rw [hzero, storeRange_zero]
    exact draws_pure _ _

theorem randomData_draws {addr n : Nat} (haddr : n = 0 ∨ addr % 16 = 0) (data : Nat → UInt8)
    (p : Prg AesKey) :
    Draws (randomData cipher tiers addr data n) p ((n + 15) / 16)
      (storeRange n 0 (bytesOf (ahead cipher p)) data) := by
  refine draws_check (Int.natCast_nonneg n) (draws_ite (fun hz => ?_) fun hz => ?_)
  · have hzero : n = 0 := by omega
    subst hzero
    rw [storeRange_zero]
    exact draws_pure p data
  · have haligned := haddr.resolve_left (by omega)
    have hcount : (n + 15) / 16 = n / 16 + (n % 16 + 15) / 16 := by omega
    have htail := @randomTail_draws AesKey cipher tiers n
      (storeRange (n / 16 * 16) 0 (bytesOf (storeRange (n / 16) 0 (ahead cipher p) (blocksOf data)))
        data) p
    have hbulk : storeRange (n / 16 * 16) 0
        (bytesOf (storeRange (n / 16) 0 (ahead cipher p) (blocksOf data))) data =
        storeRange (n / 16 * 16) 0 (bytesOf (ahead cipher p)) data :=
      storeRange_congr fun j hj => bytesOf_stored _ _ (by omega)
    have hwhole := storeRange_append (n / 16 * 16) (n % 16) 0 (bytesOf (ahead cipher p)) data
    rw [Nat.zero_add, Nat.div_add_mod'] at hwhole
    rw [hbulk, hwhole, ← hbulk] at htail
    rw [hcount]
    exact draws_check haligned (draws_bind (randomBlock_draws (Or.inr haligned) _ p) htail)

theorem randomRest_draws {last : Nat} :
    ∀ {fuel remaining : Nat} (data : Nat → UInt8) (p : Prg AesKey), remaining ≤ fuel →
      remaining ≤ last →
      Draws (randomRest cipher tiers last fuel remaining data) p ((remaining + 15) / 16)
        (storeRange remaining (last - remaining) (bytesOf (ahead cipher p)) data) := by
  intro fuel
  induction fuel with
  | zero =>
    intro remaining data p hfuel _
    have hzero : remaining = 0 := by omega
    subst hzero
    rw [storeRange_zero]
    exact draws_pure p data
  | succ fuel ih =>
    intro remaining data p hfuel hlast
    refine draws_ite (fun hpos => ?_) fun hz => ?_
    · have hcount : (remaining + 15) / 16 = 1 + (remaining - min remaining 16 + 15) / 16 := by omega
      have hsplit : min remaining 16 + (remaining - min remaining 16) = remaining := by omega
      have hnext : last - (remaining - min remaining 16) = last - remaining + min remaining 16 := by
        omega
      have hfirst := @copied_block AesKey cipher (min remaining 16) (last - remaining) 0
        (Nat.min_le_right _ _) p data
      simp only [advance_zero, Nat.mul_zero, Nat.zero_add] at hfirst
      have hrest := ih (storeRange (min remaining 16) (last - remaining) (bytesOf (ahead cipher p))
        data) (p.advance 1) (by omega : remaining - min remaining 16 ≤ fuel) (by omega)
      have happend := storeRange_append (min remaining 16) (remaining - min remaining 16)
        (last - remaining) (bytesOf (ahead cipher p)) data
      rw [hsplit] at happend
      have hbytes : storeRange (remaining - min remaining 16) (last - (remaining - min remaining 16))
          (bytesOf (ahead cipher (p.advance 1)))
          (storeRange (min remaining 16) (last - remaining) (bytesOf (ahead cipher p)) data) =
          storeRange remaining (last - remaining) (bytesOf (ahead cipher p)) data := by
        rw [hnext, ← happend]
        -- a last partial block leaves nothing to follow it
        refine storeRange_congr fun j hj => ?_
        have hfull : min remaining 16 = 16 := by omega
        rw [bytes_ahead_advance, hfull]
      rw [hbytes, ← hfirst] at hrest
      rw [hcount]
      exact draws_bind (localBlocks_draws 1 _ p) hrest
    · have hzero : remaining = 0 := by omega
      subst hzero
      rw [storeRange_zero]
      exact draws_pure p data

theorem window_moved {n size skew : Nat} (hfit : skew + size ≤ n) (w data : Nat → UInt8) :
    storeRange (n - size) size (fun j => w (size + j))
        (storeRange size 0
          (fun j => storeRange size skew (storeRange size 0 w fun j => data (skew + j)) data (skew + j))
          (storeRange size skew (storeRange size 0 w fun j => data (skew + j)) data)) =
      storeRange n 0 w data := by
  have hwindow : storeRange size skew (storeRange size 0 w fun j => data (skew + j)) data =
      storeRange size skew w data :=
    storeRange_congr fun j hj => storeRange_front hj
  have hfront : storeRange size 0 (fun j => storeRange size skew w data (skew + j))
      (storeRange size skew w data) = storeRange size 0 w (storeRange size skew w data) :=
    storeRange_congr fun j hj => storeRange_at hj
  have happend := storeRange_append size (n - size) 0 w (storeRange size skew w data)
  rw [Nat.zero_add, Nat.add_sub_cancel' (by omega)] at happend
  rw [hwindow, hfront, happend, storeRange_over (Nat.zero_le skew) (by omega)]

theorem randomDataUnaligned_draws (addr n : Nat) (data : Nat → UInt8) (p : Prg AesKey) :
    Draws (randomDataUnaligned cipher tiers addr data n) p ((n + 15) / 16)
      (storeRange n 0 (bytesOf (ahead cipher p)) data) := by
  refine draws_check (Int.natCast_nonneg n) (draws_ite (fun hz => ?_) fun hz =>
    draws_ite (fun hsmall => ?_) fun hlarge => ?_)
  · have hzero : n = 0 := by omega
    subst hzero
    rw [storeRange_zero]
    exact draws_pure p data
  · have hbytes : storeRange n 0 (bytesOf (storeRange ((n + 15) / 16) 0 (ahead cipher p)
        fun _ => zeroBlock)) data = storeRange n 0 (bytesOf (ahead cipher p)) data :=
      storeRange_congr fun j hj => bytesOf_stored _ _ (by omega)
    rw [← hbytes]
    have hblocks := @localBlocks_draws AesKey cipher tiers ((n + 15) / 16) (fun _ => zeroBlock) p
    exact draws_bind (f := fun tmp => pure (storeRange n 0 (bytesOf tmp) data)) hblocks
      (draws_pure _ _)
  · have hn : 32 < n := by omega
    have halign : (addr + (16 - addr % 16) % 16) % 16 = 0 := by omega
    simp only [Int.toNat_natCast]
    have hskew : (16 - addr % 16) % 16 < 16 := Nat.mod_lt _ (by decide)
    generalize (16 - addr % 16) % 16 = skew at halign hskew ⊢
    have hfit : skew + 16 * ((n - skew) / 16) ≤ n := by omega
    generalize (n - skew) / 16 = k at hfit ⊢
    have hsize : n - (n - 16 * k) = 16 * k := by omega
    have hwhole : (16 * k + 15) / 16 = k := by omega
    have hcount : (n + 15) / 16 = k + (n - 16 * k + 15) / 16 := by omega
    have hbulk := @randomData_draws AesKey cipher tiers (addr + skew) (16 * k) (Or.inr halign)
      (fun j => data (skew + j)) p
    have hrest := fun mem => @randomRest_draws AesKey cipher tiers n (n - 16 * k) (n - 16 * k) mem
      (p.advance k) (Nat.le_refl _) (Nat.sub_le _ _)
    simp only [hsize, funext (bytes_ahead_advance p k)] at hrest
    rw [hwhole] at hbulk
    rw [hsize, hcount, ← window_moved hfit]
    exact draws_bind hbulk (hrest _)

theorem tail_bit (bytes : Nat → UInt8) (a : Nat) {count i : Nat} (hi : i < 8 * count)
    (hlt : i < 32) :
    decide (loadTail bytes a count >>> UInt32.ofNat i &&& 1 ≠ 0) = bitAt bytes (8 * a + i) := by
  have hshift : (UInt32.ofNat i).toNat % 32 = i := by
    rw [UInt32.toNat_ofNat']
    omega
  have hread := load32_testBit (fun k => if k < a + count then bytes k else 0) a hlt
  have hin : (8 * a + i) / 8 < a + count := by omega
  rw [bitAt, if_pos hin] at hread
  apply Bool.eq_iff_iff.mpr
  rw [decide_eq_true_iff, ne_eq, ← UInt32.toNat_inj, UInt32.toNat_and, UInt32.toNat_shiftRight,
    hshift, UInt32.toNat_one, Nat.and_one_is_mod, UInt32.toNat_zero, bitAt, ← hread, loadTail,
    Nat.testBit_eq_decide_div_mod_eq, decide_eq_true_iff, Nat.shiftRight_eq_div_pow]
  omega

theorem unpackBools_eq (bitsPass produced : Nat) (bytes : Nat → UInt8) (data : Nat → Bool) :
    unpackBools bitsPass produced bytes data = storeRange bitsPass produced (bitAt bytes) data := by
  have hwords : (fun data i => storeRange 32 (produced + i * 32)
      (bits32ToBytes (load32 bytes (i * 4))) data) =
      fun data t => storeRange 32 (produced + t * 32) (fun j => bitAt bytes (t * 32 + j)) data := by
    funext data t
    refine storeRange_congr fun j hj => ?_
    have hpos : 8 * (t * 4) + j = t * 32 + j := by omega
    rw [bits32ToBytes_eq _ hj, load32_testBit _ _ hj, hpos]
  have htail (data : Nat → Bool) : storeRange (bitsPass - bitsPass / 32 * 32)
      (produced + bitsPass / 32 * 32)
      (fun i => decide (loadTail bytes (bitsPass / 32 * 4)
        ((bitsPass - bitsPass / 32 * 32 + 7) / 8) >>> UInt32.ofNat i &&& 1 ≠ 0)) data =
      storeRange (bitsPass - bitsPass / 32 * 32) (produced + bitsPass / 32 * 32)
        (fun i => bitAt bytes (bitsPass / 32 * 32 + i)) data := by
    refine storeRange_congr fun i hi => ?_
    have hpos : 8 * (bitsPass / 32 * 4) + i = bitsPass / 32 * 32 + i := by omega
    rw [tail_bit _ _ (by omega) (by omega), hpos]
  have hwhole : bitsPass / 32 * 32 + (bitsPass - bitsPass / 32 * 32) = bitsPass := by omega
  rw [unpackBools, hwords, foldl_storeRange, htail, storeRange_append, hwhole]

theorem randomBoolLoop_draws {length : Nat} :
    ∀ {fuel produced : Nat} (buf : Nat → Block) (data : Nat → Bool) (p : Prg AesKey),
      length - produced ≤ fuel →
      Draws (randomBoolLoop cipher tiers length fuel produced buf data) p
        ((length - produced + 127) / 128)
        (storeRange (length - produced) produced (bitsOf (ahead cipher p)) data) := by
  intro fuel
  induction fuel with
  | zero =>
    intro produced buf data p hfuel
    have hzero : length - produced = 0 := by omega
    rw [hzero, storeRange_zero]
    exact draws_pure p data
  | succ fuel ih =>
    intro produced buf data p hfuel
    refine draws_ite (fun hmore => ?_) fun hdone => ?_
    · generalize hpass : min (length - produced) (16 * 128) = pass
      have hcount : (length - produced + 127) / 128 =
          (pass + 127) / 128 + (length - (produced + pass) + 127) / 128 := by omega
      have hsplit : pass + (length - (produced + pass)) = length - produced := by omega
      have hbits : unpackBools pass produced
          (bytesOf (storeRange ((pass + 127) / 128) 0 (ahead cipher p) buf)) data =
          storeRange pass produced (bitsOf (ahead cipher p)) data := by
        rw [unpackBools_eq]
        exact storeRange_congr fun i hi => bitsOf_stored _ _ (by omega)
      have hrest := ih (storeRange ((pass + 127) / 128) 0 (ahead cipher p) buf)
        (storeRange pass produced (bitsOf (ahead cipher p)) data) (p.advance ((pass + 127) / 128))
        (by omega : length - (produced + pass) ≤ fuel)
      have happend : storeRange (length - (produced + pass)) (produced + pass)
          (bitsOf (ahead cipher (p.advance ((pass + 127) / 128))))
          (storeRange pass produced (bitsOf (ahead cipher p)) data) =
          storeRange (length - produced) produced (bitsOf (ahead cipher p)) data := by
        rw [← hsplit, ← storeRange_append]
        -- only a full pass has another one behind it
        refine storeRange_congr fun i hi => ?_
        have hfull : 128 * ((pass + 127) / 128) = pass := by omega
        rw [bits_ahead_advance, hfull]
      rw [happend, ← hbits] at hrest
      rw [hcount]
      exact draws_bind (localBlocks_draws _ _ p) hrest
    · have hzero : length - produced = 0 := by omega
      rw [hzero, storeRange_zero]
      exact draws_pure p data

theorem randomBool_draws (n : Nat) (data : Nat → Bool) (p : Prg AesKey) :
    Draws (randomBool cipher tiers data n) p ((n + 127) / 128)
      (storeRange n 0 (bitsOf (ahead cipher p)) data) :=
  draws_check (Int.natCast_nonneg n) (randomBoolLoop_draws _ data p (Nat.le_refl n))

end Calls

section Words

theorem bitAt_bytesOf (blocks : Nat → Block) (i : Nat) :
    bitAt (bytesOf blocks) i = lane (blocks (i / 128)) (i % 128) := by
  have hblock : i / 8 / 16 = i / 128 := by omega
  have hbyte : i % 128 / 8 = i / 8 % 16 := by omega
  have hbit : i % 128 % 8 = i % 8 := by omega
  rw [← bitAt_blockBytes _ (Nat.mod_lt i (by decide)), bitAt, bitAt, bytesOf, hblock, hbyte, hbit]

theorem wordsOf_eq (blocks : Nat → Block) (w : Nat) :
    wordsOf blocks w = littleEndianWord blocks w := by
  apply word_eq_of_testBit
  intro i hi
  have hblock : (8 * (8 * w) + i) / 128 = w / 2 := by omega
  rw [littleEndianWord, load64_testBit _ _ hi, bitAt_bytesOf, hblock, wordsOf, lane]
  split
  case isTrue heven =>
    have hpos : (8 * (8 * w) + i) % 128 = i := by omega
    rw [hpos, if_pos hi]
  case isFalse hodd =>
    have hpos : (8 * (8 * w) + i) % 128 = i + 64 := by omega
    rw [hpos, if_neg (by omega), Nat.add_sub_cancel]

theorem freshWords_eq (p : Prg AesKey) {w : Nat} (hw : w < 32) :
    freshWords cipher p w = littleEndianWord (ahead cipher p) w := by
  rw [freshWords, wordsOf, storeRange_front (by omega), ← wordsOf_eq, wordsOf]
  rfl

end Words

def stream (cipher : Cipher AesKey) (key : Block) : UInt64 → Nat → Block :=
  keystream cipher.toAes (cipher.schedule key)

structure Follows (cipher : Cipher AesKey) (key : Block) (cur : Cursor) (p : Prg AesKey) : Prop where
  seed : p.key = key
  aes : p.aes = cipher.schedule key
  counter : p.counter = cur.position
  ptr : p.ptr = cur.used
  used_le : cur.used ≤ 32
  words : ∀ w, cur.used ≤ w → w < 32 →
    p.buffer w = littleEndianWord (stream cipher key cur.refill) w

section Follows

variable {key : Block} {cur : Cursor} {p : Prg AesKey}

theorem Follows.ahead_eq (h : Follows cipher key cur p) :
    ahead cipher p = stream cipher key cur.position := by
  rw [ahead, h.aes, h.counter, stream]

theorem Follows.skip (h : Follows cipher key cur p) (n : Nat) :
    Follows cipher key (cur.skip n) (p.advance n) where
  seed := h.seed
  aes := h.aes
  counter := congrArg (· + UInt64.ofNat n) h.counter
  ptr := h.ptr
  used_le := h.used_le
  words := h.words

theorem Follows.refilled (h : Follows cipher key cur p) :
    Follows cipher key cur.refilled (Prg.refilled cipher p) ∧ cur.refilled.used < 32 := by
  unfold Cursor.refilled Prg.refilled
  have hptr := h.ptr
  by_cases hempty : cur.used = 32
  · rw [if_pos hempty, if_pos (hptr.trans hempty)]
    refine ⟨⟨h.seed, h.aes, congrArg (· + UInt64.ofNat 16) h.counter, rfl, Nat.zero_le _, ?_⟩,
      Nat.zero_lt_succ _⟩
    intro w _ hw
    show freshWords cipher p w = _
    rw [freshWords_eq p hw, h.ahead_eq]
  · rw [if_neg hempty, if_neg (hptr.trans_ne hempty)]
    exact ⟨h, Nat.lt_of_le_of_ne h.used_le hempty⟩

theorem Follows.seek (h : Follows cipher key cur p) (blockCounter : UInt64) :
    Follows cipher key (Cursor.start blockCounter) (forkAt blockCounter p) where
  seed := h.seed
  aes := h.aes
  counter := rfl
  ptr := rfl
  used_le := Nat.le_refl _
  words := fun _ hle hlt => absurd hlt (Nat.not_lt.mpr hle)

theorem Follows.fits (h : Follows cipher key cur p) (n : Nat) :
    p.Fits n ↔ signedCounter cur.position + n < 2 ^ 63 := by
  rw [Prg.Fits, h.counter]

theorem Follows.draws {x : PrgM AesKey Result} {n : Nat} {r : Result} (h : Follows cipher key cur p)
    (hx : Draws x p n r) : ∃ p', x p = (if signedCounter cur.position + n < 2 ^ 63 then .ok (r, p')
      else .error "signed int overflow") ∧ Follows cipher key (cur.skip n) p' := by
  refine ⟨p.advance n, ?_, h.skip n⟩
  rw [hx]
  simp only [h.fits n]

theorem Follows.perform (tiers : Tiers) (h : Follows cipher key cur p) {c : Call}
    (hc : c.Accepted) :
    ∃ p', c.perform cipher tiers p = (if signedCounter cur.position + cur.taken c < 2 ^ 63 then
        .ok (cur.result (stream cipher key) c, p') else .error "signed int overflow") ∧
      Follows cipher key (cur.after c) p' := by
  cases c with
  | randomBlock addr data nblocks =>
    obtain ⟨n, rfl⟩ := Int.eq_ofNat_of_zero_le hc.1
    have hdraws := @randomBlock_draws AesKey cipher tiers addr n
      (hc.2.imp_left Int.ofNat_eq_zero.mp) data p
    rw [h.ahead_eq] at hdraws
    exact h.draws (draws_map Result.blocks hdraws)
  | randomData addr data nbytes =>
    obtain ⟨n, rfl⟩ := Int.eq_ofNat_of_zero_le hc.1
    have hdraws := @randomData_draws AesKey cipher tiers addr n
      (hc.2.imp_left Int.ofNat_eq_zero.mp) data p
    rw [h.ahead_eq] at hdraws
    exact h.draws (draws_map Result.bytes hdraws)
  | randomDataUnaligned addr data nbytes =>
    obtain ⟨n, rfl⟩ := Int.eq_ofNat_of_zero_le hc
    have hdraws := @randomDataUnaligned_draws AesKey cipher tiers addr n data p
    rw [h.ahead_eq] at hdraws
    exact h.draws (draws_map Result.bytes hdraws)
  | randomBool data length =>
    obtain ⟨n, rfl⟩ := Int.eq_ofNat_of_zero_le hc
    have hdraws := @randomBool_draws AesKey cipher tiers n data p
    rw [h.ahead_eq] at hdraws
    exact h.draws (draws_map Result.bools hdraws)
  | next =>
    obtain ⟨hr, hlt⟩ := h.refilled
    have hword := hr.words _ (Nat.le_refl _) hlt
    have hnext := @next_eq AesKey cipher tiers p
    have hblocks : p.nextBlocks = cur.taken .next := by
      rw [nextBlocks, h.ptr, Cursor.taken]
    rw [hr.ptr, hword] at hnext
    simp only [h.fits, hblocks] at hnext
    refine ⟨{ Prg.refilled cipher p with ptr := cur.refilled.used + 1 }, ?_, ?_⟩
    · show (Prg.next cipher tiers p >>= fun r => pure (Result.word r.1, r.2)) = _
      rw [hnext]
      split
      · rfl
      · rfl
    · exact ⟨hr.seed, hr.aes, hr.counter, rfl, hlt, fun w hw => hr.words w (Nat.le_of_succ_le hw)⟩
  | seek blockCounter =>
    refine ⟨forkAt blockCounter p, ?_, h.seek blockCounter⟩
    have hnone : cur.taken (.seek blockCounter) = 0 := rfl
    rw [hnone, if_pos ((h.fits 0).mp p.fits_zero)]
    rfl

theorem Follows.runCalls (tiers : Tiers) {calls : List Call} (hcalls : ∀ c ∈ calls, c.Accepted) :
    ∀ {cur : Cursor} {p : Prg AesKey}, Follows cipher key cur p →
      ∃ p', runCalls cipher tiers calls p = (if cur.Fits calls then
          .ok (cur.results (stream cipher key) calls, p') else .error "signed int overflow") ∧
        Follows cipher key (cur.run calls) p' := by
  induction calls with
  | nil => exact fun h => ⟨_, rfl, h⟩
  | cons c calls ih =>
    intro cur p h
    obtain ⟨p₁, hfirst, h₁⟩ := h.perform tiers (hcalls c (List.mem_cons_self ..))
    obtain ⟨p₂, hrest, h₂⟩ := ih (fun c hc => hcalls c (List.mem_cons_of_mem _ hc)) h₁
    refine ⟨p₂, ?_, h₂⟩
    by_cases hc : signedCounter cur.position + cur.taken c < 2 ^ 63
    · rw [if_pos hc] at hfirst
      rw [runCalls_cons hfirst, hrest]
      by_cases hfits : (cur.after c).Fits calls
      · rw [if_pos hfits, if_pos (show cur.Fits (c :: calls) from ⟨hc, hfits⟩)]
        rfl
      · rw [if_neg hfits, if_neg fun hall : cur.Fits (c :: calls) => hfits hall.2]
        rfl
    · rw [if_neg hc] at hfirst
      rw [if_neg fun hall : cur.Fits (c :: calls) => hc hall.1, Prg.runCalls, List.mapM_cons]
      change (c.perform cipher tiers p >>= fun r => _) = _
      rw [hfirst]
      rfl

theorem Follows.outputs (h : Follows cipher key cur p) {calls : List Call}
    (hcalls : ∀ c ∈ calls, c.Accepted) :
    outputs cipher tiers calls p = if cur.Fits calls then
      .ok (cur.results (stream cipher key) calls) else .error "signed int overflow" := by
  obtain ⟨p', hrun, -⟩ := Follows.runCalls tiers hcalls h
  show Prod.fst <$> Prg.runCalls cipher tiers calls p = _
  rw [hrun]
  split
  · rfl
  · rfl

end Follows

theorem follows_construct (raw : Prg AesKey) (seed : Block) (id : Int32) :
    Follows cipher (seed ^^^ makeBlock 0 (idWord id)) (Cursor.start 0)
      (construct cipher raw seed id) :=
  ⟨rfl, rfl, rfl, rfl, Nat.le_refl _, fun _ hle hlt => absurd hlt (Nat.not_lt.mpr hle)⟩

theorem prg_reads_one_stream (cipher : Cipher AesKey) (tiers : Tiers) (raw : Prg AesKey)
    (seed : Block) (id : Int32) (calls : List Call) (hcalls : ∀ c ∈ calls, c.Accepted) :
    ((Cursor.start 0).Fits calls →
      ∃ p, runCalls cipher tiers calls (construct cipher raw seed id) =
          .ok ((Cursor.start 0).results (stream cipher (seed ^^^ makeBlock 0 (idWord id))) calls,
            p) ∧
        p.position = ((Cursor.start 0).run calls).position ∧
        p.key = seed ^^^ makeBlock 0 (idWord id) ∧
        ∀ (blockCounter : UInt64) (later : List Call), (∀ c ∈ later, c.Accepted) →
          (Cursor.start blockCounter).Fits later →
          outputs cipher tiers later (forkAt blockCounter p) =
            .ok ((Cursor.start blockCounter).results (stream cipher p.key) later) ∧
          outputs cipher tiers (.seek blockCounter :: later) p =
            .ok (.none :: (Cursor.start blockCounter).results (stream cipher p.key) later) ∧
          ∀ raw' : Prg AesKey,
            outputs cipher tiers (.seek blockCounter :: later) (construct cipher raw' p.key 0) =
              .ok (.none :: (Cursor.start blockCounter).results (stream cipher p.key) later)) ∧
    (¬ (Cursor.start 0).Fits calls →
      runCalls cipher tiers calls (construct cipher raw seed id) =
        .error "signed int overflow") := by
  obtain ⟨p, hrun, hp⟩ := Follows.runCalls tiers hcalls (follows_construct raw seed id)
  refine ⟨fun hfits => ?_, fun hfits => by rw [hrun, if_neg hfits]⟩
  rw [if_pos hfits] at hrun
  refine ⟨p, hrun, hp.counter, hp.seed, fun blockCounter later hlater hroom => ?_⟩
  have hseek : ∀ c ∈ Call.seek blockCounter :: later, c.Accepted :=
    List.forall_mem_cons.mpr ⟨trivial, hlater⟩
  have hjump (cur : Cursor) : cur.Fits (.seek blockCounter :: later) :=
    ⟨(signedCounter_bounds cur.position).2.trans_eq' (Int.add_zero _).symm, hroom⟩
  rw [hp.seed]
  have hforked : outputs cipher tiers later (forkAt blockCounter p) = _ :=
    (hp.seek blockCounter).outputs hlater
  have hlaterRun : outputs cipher tiers (.seek blockCounter :: later) p = _ := hp.outputs hseek
  rw [if_pos hroom] at hforked
  rw [if_pos (hjump _)] at hlaterRun
  refine ⟨hforked, hlaterRun, fun raw' => ?_⟩
  have hfresh := @follows_construct AesKey cipher raw' (seed ^^^ makeBlock 0 (idWord id)) 0
  have hzero : makeBlock 0 (idWord 0) = zeroBlock := by decide
  rw [hzero, Block.xor_zero] at hfresh
  have hfreshRun : outputs cipher tiers (.seek blockCounter :: later) _ = _ := hfresh.outputs hseek
  rwa [if_pos (hjump _)] at hfreshRun

def sampleCalls : List Call :=
  [.randomDataUnaligned 3 (fun _ => 0) 45, .next, .randomBool (fun _ => false) 130, .next,
    .seek 1, .randomBlock 32 (fun _ => zeroBlock) 2, .randomData 16 (fun _ => 0) 17]

theorem prg_reads_one_stream_sampleCalls :
    ∃ p, runCalls sampleCipher sampleTiers sampleCalls (construct sampleCipher samplePrg ⟨7, 11⟩ 2) =
        .ok ((Cursor.start 0).results (stream sampleCipher ⟨7, 9⟩) sampleCalls, p) ∧
      p.position = 5 := by
  obtain ⟨p, hrun, hposition, -⟩ := (prg_reads_one_stream sampleCipher sampleTiers samplePrg
    ⟨7, 11⟩ 2 sampleCalls (by decide)).1 (by decide)
  exact ⟨p, hrun, hposition⟩

-- two blocks from the greatest value of the signed counter
def farCalls : List Call := [.seek 0x7FFFFFFFFFFFFFFF, .randomBlock 0 (fun _ => zeroBlock) 2]

theorem farthest_fill_overflows :
    (∀ c ∈ farCalls, c.Accepted) ∧
      runCalls sampleCipher sampleTiers farCalls samplePrg = .error "signed int overflow" ∧
      ¬ ∀ calls : List Call, (∀ c ∈ calls, c.Accepted) → ∃ p,
        runCalls sampleCipher sampleTiers calls samplePrg =
          .ok ((Cursor.start 0).results (stream sampleCipher samplePrg.key) calls, p) := by
  have haccepted : ∀ c ∈ farCalls, c.Accepted := by decide
  obtain ⟨p, hrun, -⟩ := Follows.runCalls sampleTiers haccepted
    (@follows_construct Block sampleCipher samplePrg zeroBlock 0)
  rw [if_neg (by decide)] at hrun
  refine ⟨haccepted, hrun, fun hall => ?_⟩
  obtain ⟨p', hrun'⟩ := hall farCalls haccepted
  exact absurd (hrun.symm.trans hrun') nofun

end EmpTool.Crypto.Prg
