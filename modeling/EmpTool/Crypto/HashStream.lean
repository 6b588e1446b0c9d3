import EmpTool.Crypto.Mitccrh

namespace EmpTool.Crypto.Mitccrh

open Memory

section Buckets

variable (reuseShift : Fin 32)

theorem bucketOf_toNat (g : UInt64) :
    (bucketOf reuseShift g).toNat = g.toNat / 2 ^ reuseShift.val := by
  have hs : (UInt64.ofNat reuseShift.val).toNat % 64 = reuseShift.val := by
    rw [UInt64.toNat_ofNat']
    omega
  rw [bucketOf, UInt64.toNat_shiftRight, hs, Nat.shiftRight_eq_div_pow]

variable {reuseShift}

theorem bucketOf_zero (h : reuseShift.val = 0) (g : UInt64) : bucketOf reuseShift g = g := by
  apply UInt64.toNat_inj.mp
  rw [bucketOf_toNat, h, Nat.pow_zero, Nat.div_one]

theorem bucketOf_ne_noBucket (h : reuseShift.val ≠ 0) (g : UInt64) :
    bucketOf reuseShift g ≠ noBucket := by
  intro he
  have hn := congrArg UInt64.toNat he
  have two : 2 ^ 1 ≤ 2 ^ reuseShift.val := Nat.pow_le_pow_right (by omega) (by omega)
  have hlt : g.toNat / 2 ^ reuseShift.val ≤ g.toNat / 2 := Nat.div_le_div_left two (by omega)
  have hg := g.toNat_lt
  rw [bucketOf_toNat, noBucket] at hn
  have hv : (~~~0 : UInt64).toNat = 2 ^ 64 - 1 := by decide
  omega

theorem toNat_add_ofNat (g : UInt64) (i : Nat) :
    (g + UInt64.ofNat i).toNat = (g.toNat + i) % 2 ^ 64 := by
  rw [UInt64.toNat_add, UInt64.toNat_ofNat', Nat.add_mod_mod]

theorem last_toNat (g : UInt64) (batchSize : BatchSize) :
    (g + UInt64.ofNat batchSize.count - 1).toNat = (g.toNat + batchSize.count - 1) % 2 ^ 64 := by
  have hpos := batchSize.pos
  have one : (1 : UInt64).toNat = 1 := rfl
  rw [UInt64.toNat_sub, toNat_add_ofNat, one]
  omega

-- a batch that wraps past 2^64 ends in a bucket far below the one it starts in
theorem batch_no_wrap {g : UInt64} {batchSize : BatchSize}
    (h : bucketOf reuseShift g = bucketOf reuseShift (g + UInt64.ofNat batchSize.count - 1)) :
    g.toNat + batchSize.count - 1 < 2 ^ 64 := by
  have hn := congrArg UInt64.toNat h
  rw [bucketOf_toNat, bucketOf_toNat, last_toNat] at hn
  have hg := g.toNat_lt
  have hint := batchSize.int
  have width : 2 ^ reuseShift.val ≤ 2 ^ 31 := Nat.pow_le_pow_right (by omega) (by omega)
  have high : g.toNat / 2 ^ 31 ≤ g.toNat / 2 ^ reuseShift.val :=
    Nat.div_le_div_left width (Nat.two_pow_pos _)
  have low := Nat.div_le_self ((g.toNat + batchSize.count - 1) % 2 ^ 64) (2 ^ reuseShift.val)
  omega

theorem bucketOf_uniform {g : UInt64} {batchSize : BatchSize}
    (h : bucketOf reuseShift g = bucketOf reuseShift (g + UInt64.ofNat batchSize.count - 1))
    {i : Nat} (hi : i < batchSize.count) :
    bucketOf reuseShift (g + UInt64.ofNat i) = bucketOf reuseShift g := by
  have hw := batch_no_wrap h
  have hn := congrArg UInt64.toNat h
  rw [bucketOf_toNat, bucketOf_toNat, last_toNat, Nat.mod_eq_of_lt hw] at hn
  apply UInt64.toNat_inj.mp
  rw [bucketOf_toNat, bucketOf_toNat, toNat_add_ofNat, Nat.mod_eq_of_lt (by omega)]
  apply Nat.le_antisymm
  · rw [hn]
    exact Nat.div_le_div_right (by omega)
  · exact Nat.div_le_div_right (by omega)

end Buckets

section Schedule

variable {AesKey : Type} (aes : Aes AesKey) (batchSize : BatchSize) (reuseShift : Fin 32)

def bucketKey (S : Block) (gid : UInt64) : AesKey :=
  aes.schedule (S ^^^ makeBlock (bucketOf reuseShift gid) 0)

def Uniform (m : Mitccrh AesKey) : Prop := 0 < reuseShift.val ∧ m.scheduledBucket ≠ noBucket

instance (m : Mitccrh AesKey) : Decidable (Uniform reuseShift m) :=
  inferInstanceAs (Decidable (_ ∧ _))

def laneKey (m : Mitccrh AesKey) (i : Nat) : AesKey :=
  if Uniform reuseShift m then m.scheduledKey 0 else m.scheduledKey i

structure Keyed (S : Block) (m : Mitccrh AesKey) : Prop where
  start : m.startPoint = S
  cached : Uniform reuseShift m →
    m.scheduledKey 0 = aes.schedule (S ^^^ makeBlock m.scheduledBucket 0)

structure Scheduled (S : Block) (m : Mitccrh AesKey) : Prop extends Keyed aes reuseShift S m where
  used : 0 ≤ m.keyUsed ∧ m.keyUsed ≤ batchSize.count
  ahead : m.keyUsed < batchSize.count → m.gid = m.laneGid0 + UInt64.ofNat batchSize.count
  covers : m.keyUsed < batchSize.count → ∀ i < batchSize.count,
    laneKey reuseShift m i = bucketKey aes reuseShift S (m.laneGid0 + UInt64.ofNat i)

theorem setS_scheduled (S : Block) (m : Mitccrh AesKey) :
    Scheduled aes batchSize reuseShift S (setS batchSize S m) where
  start := rfl
  cached h := absurd rfl h.2
  used := ⟨Int.natCast_nonneg _, Int.le_refl _⟩
  ahead h := absurd h (Int.lt_irrefl _)
  covers h := absurd h (Int.lt_irrefl _)

theorem scheduleBuckets_key {numKeys : Nat} {bucket : Nat → UInt64} {m : Mitccrh AesKey} {i : Nat}
    (hi : i < numKeys) :
    (scheduleBuckets aes numKeys bucket m).scheduledKey i =
      aes.schedule (m.startPoint ^^^ makeBlock (bucket i) 0) := by
  simp only [scheduleBuckets, aesOptKeySchedule, storeRange_front hi]

theorem rekey_frame (m : Mitccrh AesKey) :
    (rekey aes batchSize reuseShift m).startPoint = m.startPoint ∧
      (rekey aes batchSize reuseShift m).gid = m.gid ∧
      (rekey aes batchSize reuseShift m).laneGid0 = m.laneGid0 := by
  simp only [rekey]
  split
  · exact ⟨rfl, rfl, rfl⟩
  · split
    · split
      · exact ⟨rfl, rfl, rfl⟩
      · exact ⟨rfl, rfl, rfl⟩
    · exact ⟨rfl, rfl, rfl⟩

variable {aes reuseShift}

theorem laneKey_of_not_uniform {m : Mitccrh AesKey} (h : ¬ Uniform reuseShift m) (i : Nat) :
    laneKey reuseShift m i = m.scheduledKey i :=
  if_neg h

theorem Keyed.laneKey {S : Block} {m : Mitccrh AesKey} (h : Keyed aes reuseShift S m)
    (hu : Uniform reuseShift m) (i : Nat) :
    laneKey reuseShift m i = aes.schedule (S ^^^ makeBlock m.scheduledBucket 0) := by
  rw [Mitccrh.laneKey, if_pos hu, h.cached hu]

theorem Keyed.covers_bucket {S : Block} {m : Mitccrh AesKey} (h : Keyed aes reuseShift S m)
    (hr : reuseShift.val ≠ 0) (hb : m.scheduledBucket = bucketOf reuseShift m.gid)
    (hlast : bucketOf reuseShift m.gid =
      bucketOf reuseShift (m.gid + UInt64.ofNat batchSize.count - 1))
    {i : Nat} (hi : i < batchSize.count) :
    Mitccrh.laneKey reuseShift m i = bucketKey aes reuseShift S (m.gid + UInt64.ofNat i) := by
  have hu : Uniform reuseShift m := ⟨by omega, hb ▸ bucketOf_ne_noBucket hr m.gid⟩
  rw [h.laneKey hu, bucketKey, bucketOf_uniform hlast hi, hb]

theorem rekey_keyed {S : Block} {m : Mitccrh AesKey} (h : Keyed aes reuseShift S m) :
    Keyed aes reuseShift S (rekey aes batchSize reuseShift m) ∧
      ∀ i < batchSize.count, laneKey reuseShift (rekey aes batchSize reuseShift m) i =
        bucketKey aes reuseShift S (m.gid + UInt64.ofNat i) := by
  simp only [rekey]
  split
  case isTrue hz =>
    have hu (m' : Mitccrh AesKey) : ¬ Uniform reuseShift m' := fun hu => by
      have := hu.1
      omega
    refine ⟨⟨h.start, fun hc => absurd hc (hu _)⟩, fun i hi => ?_⟩
    rw [laneKey_of_not_uniform (hu _), scheduleBuckets_key aes hi, h.start, bucketKey,
      bucketOf_zero hz]
  case isFalse hr =>
    split
    case isTrue hlast =>
      have fresh : Keyed aes reuseShift S { scheduleBuckets aes 1
          (fun _ => bucketOf reuseShift m.gid) m with
          scheduledBucket := bucketOf reuseShift m.gid } :=
        ⟨h.start, fun _ => by rw [scheduleBuckets_key aes Nat.one_pos, h.start]⟩
      split
      · exact ⟨fresh, fun i hi => fresh.covers_bucket batchSize hr rfl hlast hi⟩
      case isFalse hc =>
        exact ⟨h, fun i hi => h.covers_bucket batchSize hr (not_not.mp hc).symm hlast hi⟩
    case isFalse =>
      have hu (m' : Mitccrh AesKey) (hm : m'.scheduledBucket = noBucket) :
          ¬ Uniform reuseShift m' := fun hu => hu.2 hm
      refine ⟨⟨h.start, fun hc => absurd hc (hu _ rfl)⟩, fun i hi => ?_⟩
      rw [laneKey_of_not_uniform (hu _ rfl), scheduleBuckets_key aes hi, h.start, bucketKey]

theorem renewKs_frame (m : Mitccrh AesKey) :
    (renewKs aes batchSize reuseShift m).keyUsed = 0 ∧
      (renewKs aes batchSize reuseShift m).laneGid0 = m.gid ∧
      (renewKs aes batchSize reuseShift m).gid = m.gid + UInt64.ofNat batchSize.count := by
  obtain ⟨-, hgid, hlane⟩ := rekey_frame aes batchSize reuseShift { m with laneGid0 := m.gid }
  exact ⟨rfl, hlane, congrArg (· + UInt64.ofNat batchSize.count) hgid⟩

theorem renewKs_scheduled {S : Block} {m : Mitccrh AesKey} (h : Keyed aes reuseShift S m) :
    Scheduled aes batchSize reuseShift S (renewKs aes batchSize reuseShift m) := by
  have hk : Keyed aes reuseShift S { m with laneGid0 := m.gid } := ⟨h.start, h.cached⟩
  obtain ⟨hkeyed, hcovers⟩ := rekey_keyed batchSize hk
  obtain ⟨hused, hlane, hgid⟩ := @renewKs_frame _ aes batchSize reuseShift m
  refine ⟨⟨hkeyed.start, hkeyed.cached⟩, ?_, fun _ => ?_, fun _ i hi => ?_⟩
  · rw [hused]
    exact ⟨Int.le_refl 0, Int.natCast_nonneg _⟩
  · rw [hgid, hlane]
  · rw [hlane]
    exact hcovers i hi

end Schedule

section Consume

variable {AesKey : Type} (aes : Aes AesKey) (tiers : Tiers) (batchSize : BatchSize)
  (reuseShift : Fin 32)

def reference (pre : Block → Block) (S : Block) (gid : UInt64) (x : Block) : Block :=
  let y := pre x ^^^ makeBlock gid 0
  y ^^^ aes.encrypt (bucketKey aes reuseShift S gid) y

def nextGid (K : Nat) (m : Mitccrh AesKey) : UInt64 :=
  if m.keyUsed + K > batchSize.count then m.gid else m.laneGid0 + UInt64.ofInt m.keyUsed

def ready (K : Nat) (m : Mitccrh AesKey) : Mitccrh AesKey :=
  if m.keyUsed + K > batchSize.count then renewKs aes batchSize reuseShift m else m

variable {aes batchSize reuseShift}

theorem ofInt_natCast (u : Nat) : UInt64.ofInt u = UInt64.ofNat u := by
  apply UInt64.toNat_inj.mp
  rw [UInt64.ofInt, UInt64.toNat_ofNat', UInt64.toNat_ofNat']
  omega

theorem ready_spec {S : Block} {m : Mitccrh AesKey} (h : Scheduled aes batchSize reuseShift S m)
    {K : Nat} (hK : K ≤ batchSize.count) :
    ∃ u : Nat, (ready aes batchSize reuseShift K m).keyUsed = u ∧ u + K ≤ batchSize.count ∧
      (ready aes batchSize reuseShift K m).laneGid0 + UInt64.ofNat u =
        nextGid batchSize K m ∧
      Scheduled aes batchSize reuseShift S (ready aes batchSize reuseShift K m) := by
  rw [ready, nextGid]
  split
  · obtain ⟨hused, hlane, -⟩ := @renewKs_frame _ aes batchSize reuseShift m
    refine ⟨0, hused, by omega, ?_, renewKs_scheduled batchSize h.toKeyed⟩
    rw [hlane]
    exact UInt64.add_zero _
  case isFalse hfit =>
    have hu := h.used
    obtain ⟨u, hu'⟩ := Int.eq_ofNat_of_zero_le hu.1
    rw [hu'] at hfit ⊢
    exact ⟨u, rfl, by omega, by rw [ofInt_natCast], h⟩

theorem tweakBlock_eq (pre : Block → Block) (span : Nat) (kk : AesKey) (g : UInt64) (b : Nat)
    (x : Block) :
    tweakBlock aes pre span kk (makeBlock g 0) b x =
      (pre x ^^^ makeBlock (g + UInt64.ofNat (b / span)) 0) ^^^
        aes.encrypt kk (pre x ^^^ makeBlock (g + UInt64.ofNat (b / span)) 0) := by
  simp only [tweakBlock, Block.add64_makeBlock, Block.xor_comm (aes.encrypt kk _)]

theorem paraEnc_scheduled {S : Block} {m : Mitccrh AesKey}
    (h : Scheduled aes batchSize reuseShift S m) {K H u dst src : Nat} (hu : m.keyUsed = u)
    (hfit : u + K ≤ batchSize.count) {pre : Block → Block} {tile : MemTile AesKey Block}
    (htile : Blockwise (tweakBlock aes pre H) tile) (hsep : Separate (K * H) dst src)
    (mem : Nat → Block) :
    (if Uniform reuseShift m then
      paraEncMemTilesImpl tile tiers 1 (K * H) dst src m.scheduledKey
        (fun _ => makeBlock (m.laneGid0 + UInt64.ofInt m.keyUsed) 0) mem
    else
      paraEncMemTilesImpl tile tiers K H dst src (fun k => m.scheduledKey (m.keyUsed.toNat + k))
        (fun k => makeBlock (m.laneGid0 + UInt64.ofInt m.keyUsed + UInt64.ofNat k) 0) mem) =
      mapRange (fun b => reference aes reuseShift pre S
        (m.laneGid0 + UInt64.ofNat u + UInt64.ofNat (b / H))) (K * H) dst src mem := by
  have lane {b : Nat} (hb : b < K * H) :
      laneKey reuseShift m (u + b / H) =
        bucketKey aes reuseShift S (m.laneGid0 + UInt64.ofNat u + UInt64.ofNat (b / H)) := by
    have hd : b / H < K := Nat.div_lt_of_lt_mul (Nat.mul_comm K H ▸ hb)
    have hpos : 0 < K := Nat.zero_lt_of_lt hd
    rw [UInt64.add_assoc, ← UInt64.ofNat_add]
    exact h.covers (by omega) _ (by omega)
  rw [hu, ofInt_natCast, Int.toNat_natCast]
  split
  case isTrue hun =>
    rw [htile.paraEnc tiers _ _ (by rwa [Nat.one_mul]), Nat.one_mul]
    refine mapRange_congr fun b hb x => ?_
    rw [Nat.div_eq_of_lt hb, Nat.mod_eq_of_lt hb, tweakBlock_eq, reference, ← lane hb, laneKey,
      if_pos hun]
  case isFalse hun =>
    rw [htile.paraEnc tiers _ _ hsep]
    refine mapRange_congr fun b hb x => ?_
    have hH : 0 < H := Nat.pos_of_ne_zero fun hz => by simp [hz] at hb
    have zero : b % H / H = 0 := Nat.div_eq_of_lt (Nat.mod_lt b hH)
    rw [tweakBlock_eq, zero, reference, ← lane hb, laneKey_of_not_uniform hun]
    rw [show UInt64.ofNat 0 = 0 from rfl, UInt64.add_zero]

theorem consume_ok {S : Block} {m : Mitccrh AesKey} (h : Scheduled aes batchSize reuseShift S m)
    {K H dst src : Nat} (hK : K ≤ batchSize.count) (hint : m.keyUsed + K < 2 ^ 31)
    {pre : Block → Block} {tile : MemTile AesKey Block}
    (htile : Blockwise (tweakBlock aes pre H) tile) (hsep : Separate (K * H) dst src)
    (mem : Nat → Block) :
    consume aes tiers batchSize reuseShift tile K H dst src m mem =
      .ok ({ ready aes batchSize reuseShift K m with
          keyUsed := (ready aes batchSize reuseShift K m).keyUsed + K },
        mapRange (fun b => reference aes reuseShift pre S
          (nextGid batchSize K m + UInt64.ofNat (b / H))) (K * H) dst src mem) := by
  obtain ⟨u, hu, hfit, hgid, hsched⟩ := ready_spec h hK
  have first : addInt m.keyUsed K = .ok (m.keyUsed + K) := by
    have hused := h.used
    exact addInt_ok.mpr ⟨by omega, rfl⟩
  have last : addInt (ready aes batchSize reuseShift K m).keyUsed K =
      .ok ((ready aes batchSize reuseShift K m).keyUsed + K) := by
    have hcount := batchSize.int
    exact addInt_ok.mpr ⟨by omega, rfl⟩
  rw [← hgid, ← paraEnc_scheduled tiers hsched hu hfit htile hsep mem, consume, first]
  simp only [bind, Except.bind]
  rw [← ready, last]
  rfl

theorem Scheduled.advance {S : Block} {m : Mitccrh AesKey}
    (h : Scheduled aes batchSize reuseShift S m) {K : Nat}
    (hfit : m.keyUsed + K ≤ batchSize.count) :
    Scheduled aes batchSize reuseShift S { m with keyUsed := m.keyUsed + K } where
  start := h.start
  cached := h.cached
  used := ⟨Int.add_nonneg h.used.1 (Int.natCast_nonneg K), hfit⟩
  ahead (hlt : m.keyUsed + K < batchSize.count) := h.ahead (by omega)
  covers (hlt : m.keyUsed + K < batchSize.count) := h.covers (by omega)

theorem sigma_blockwise (span : Nat) :
    Blockwise (tweakBlock aes Block.sigma span) (aesMemXorSigmaTweakTile aes tiers span) :=
  aesMemXorTweakTile_blockwise aes tiers (fun _ _ => rfl) span

end Consume

section Position

variable {AesKey : Type} (aes : Aes AesKey) (tiers : Tiers) (batchSize : BatchSize)
  (reuseShift : Fin 32)

inductive Positioned (S : Block) : UInt64 → Mitccrh AesKey → Prop
  | setS (m : Mitccrh AesKey) : Positioned S 0 (setS batchSize S m)
  | renewKs {g : UInt64} {m : Mitccrh AesKey} (gid : UInt64) (h : Positioned S g m) :
      Positioned S gid (renewKsAt aes batchSize reuseShift gid m)

structure At (K : Nat) (S : Block) (g : UInt64) (m : Mitccrh AesKey) : Prop
    extends Scheduled aes batchSize reuseShift S m where
  aligned : (K : Int) ∣ m.keyUsed
  next : nextGid batchSize K m = g

variable {aes batchSize reuseShift}

theorem Positioned.at {K : Nat} (hpos : 0 < K) (hK : K ∣ batchSize.count) {S : Block} {g : UInt64}
    {m : Mitccrh AesKey} (h : Positioned aes batchSize reuseShift S g m) :
    At aes batchSize reuseShift K S g m := by
  induction h with
  | setS m =>
    refine ⟨setS_scheduled aes batchSize reuseShift S m, Int.natCast_dvd_natCast.mpr hK, ?_⟩
    exact if_pos (by simp only [Mitccrh.setS]; omega)
  | @renewKs g m gid h ih =>
    have hk : Keyed aes reuseShift S { m with gid := gid } := ⟨ih.start, ih.cached⟩
    obtain ⟨hused, hlane, -⟩ := @renewKs_frame _ aes batchSize reuseShift { m with gid := gid }
    have hle := Nat.le_of_dvd batchSize.pos hK
    refine ⟨renewKs_scheduled batchSize hk, ?_, ?_⟩
    · rw [renewKsAt, hused]
      exact Int.dvd_zero _
    · rw [nextGid, renewKsAt, hused, hlane, if_neg (by omega)]
      exact UInt64.add_zero gid

theorem At.ready_aligned {K : Nat} {S : Block} {g : UInt64} {m : Mitccrh AesKey}
    (h : At aes batchSize reuseShift K S g m) :
    (K : Int) ∣ (ready aes batchSize reuseShift K m).keyUsed := by
  rw [ready]
  split
  · rw [(@renewKs_frame _ aes batchSize reuseShift m).1]
    exact Int.dvd_zero _
  · exact h.aligned

theorem At.consume {K H : Nat} (hpos : 0 < K) (hK : K ∣ batchSize.count)
    (hint : batchSize.count + K < 2 ^ 31) {S : Block} {g : UInt64} {m : Mitccrh AesKey}
    (h : At aes batchSize reuseShift K S g m) {dst src : Nat} {pre : Block → Block}
    {tile : MemTile AesKey Block} (htile : Blockwise (tweakBlock aes pre H) tile)
    (hsep : Separate (K * H) dst src) (mem : Nat → Block) :
    ∃ m', consume aes tiers batchSize reuseShift tile K H dst src m mem =
        .ok (m', mapRange (fun b => reference aes reuseShift pre S (g + UInt64.ofNat (b / H)))
          (K * H) dst src mem) ∧
      At aes batchSize reuseShift K S (g + UInt64.ofNat K) m' := by
  have hle := Nat.le_of_dvd batchSize.pos hK
  have hused := h.used
  obtain ⟨u, hu, hfit, hgid, hsched⟩ := ready_spec h.toScheduled hle
  refine ⟨_, h.next ▸ consume_ok tiers h.toScheduled hle (by omega) htile hsep mem, ?_⟩
  have aligned : K ∣ u + K := by
    have hr := h.ready_aligned
    rw [hu, Int.natCast_dvd_natCast] at hr
    exact Nat.dvd_add hr (Nat.dvd_refl K)
  refine ⟨hsched.advance (by omega), ?_, ?_⟩
  · change (K : Int) ∣ (ready aes batchSize reuseShift K m).keyUsed + K
    rw [hu]
    exact_mod_cast aligned
  · have reached : (ready aes batchSize reuseShift K m).laneGid0 + UInt64.ofNat (u + K) =
        g + UInt64.ofNat K := by
      rw [UInt64.ofNat_add, ← UInt64.add_assoc, hgid, h.next]
    rw [nextGid]
    split
    case isTrue hover =>
      -- a multiple of `K` less than `K` below the end of the batch is the end
      have full : u + K = batchSize.count := by
        have hrest : batchSize.count - (u + K) < K := by
          change (ready aes batchSize reuseShift K m).keyUsed + K + K > batchSize.count at hover
          omega
        have hzero := Nat.eq_zero_of_dvd_of_lt (Nat.dvd_sub hK aligned) hrest
        omega
      rw [hsched.ahead (by omega), ← full, reached]
    case isFalse =>
      rw [hu, ← Int.natCast_add, ofInt_natCast, reached]

theorem At.hashCir {K H : Nat} (hpos : 0 < K) (hK : K ∣ batchSize.count)
    (hint : batchSize.count + K < 2 ^ 31) {S : Block} {g : UInt64} {m : Mitccrh AesKey}
    (h : At aes batchSize reuseShift K S g m) {out inp : Nat}
    (hsep : Separate (K * H) out inp) (mem : Nat → Block) :
    ∃ m', hashCir aes tiers batchSize reuseShift K H out inp m mem =
        .ok (m', mapRange
          (fun b => reference aes reuseShift Block.sigma S (g + UInt64.ofNat (b / H)))
          (K * H) out inp mem) ∧
      At aes batchSize reuseShift K S (g + UInt64.ofNat K) m' :=
  h.consume tiers hpos hK hint (sigma_blockwise tiers H) hsep mem

end Position

end EmpTool.Crypto.Mitccrh
