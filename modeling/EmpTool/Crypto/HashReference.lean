import EmpTool.Crypto.HashStream

namespace EmpTool.Crypto.Mitccrh

open Memory

structure Call where
  sigma : Bool
  K : Nat
  H : Nat
  dst : Nat
  src : Nat

inductive Op
  | setS (sin : Block)
  | renewKs (gid : UInt64)
  | hash (call : Call)

section Program

variable {AesKey : Type} (aes : Aes AesKey) (tiers : Tiers) (batchSize : BatchSize)
  (reuseShift : Fin 32)

def Op.run (op : Op) (m : Mitccrh AesKey) (mem : Nat → Block) :
    Except String (Mitccrh AesKey × (Nat → Block)) :=
  match op with
  | .setS sin => pure (Mitccrh.setS batchSize sin m, mem)
  | .renewKs gid => pure (renewKsAt aes batchSize reuseShift gid m, mem)
  | .hash c =>
    if c.sigma then hashCir aes tiers batchSize reuseShift c.K c.H c.dst c.src m mem
    else Mitccrh.hash aes tiers batchSize reuseShift c.K c.H c.dst c.src m mem

def runOps : List Op → Mitccrh AesKey → (Nat → Block) →
    Except String (Mitccrh AesKey × (Nat → Block))
  | [], m, mem => pure (m, mem)
  | op :: ops, m, mem => do
    let (m, mem) ← op.run aes tiers batchSize reuseShift m mem
    runOps ops m mem

structure Call.Admissible (c : Call) : Prop where
  divides : c.K ∣ batchSize.count
  int : batchSize.count + c.K < 2 ^ 31
  separate : Separate (c.K * c.H) c.dst c.src

instance (c : Call) : Decidable (c.Admissible batchSize) :=
  decidable_of_iff (c.K ∣ batchSize.count ∧ batchSize.count + c.K < 2 ^ 31 ∧
      (c.dst = c.src ∨ c.dst + c.K * c.H ≤ c.src ∨ c.src + c.K * c.H ≤ c.dst))
    ⟨fun h => ⟨h.1, h.2.1, h.2.2⟩, fun h => ⟨h.divides, h.int, h.separate⟩⟩

def Op.Admissible : Op → Prop
  | .setS _ => True
  | .renewKs _ => True
  | .hash c => c.Admissible batchSize

instance : (op : Op) → Decidable (op.Admissible batchSize)
  | .setS _ => isTrue trivial
  | .renewKs _ => isTrue trivial
  | .hash c => inferInstanceAs (Decidable (c.Admissible batchSize))

end Program

structure Stream where
  startPoint : Block
  origin : UInt64
  used : Nat

namespace Stream

variable (batchSize : BatchSize)

def gid (r : Stream) (offset : Nat) : UInt64 := r.origin + UInt64.ofNat offset

def first (K : Nat) (r : Stream) : Nat :=
  if r.used % batchSize.count + K ≤ batchSize.count then r.used
  else (r.used / batchSize.count + 1) * batchSize.count

def laneGid (K k : Nat) (r : Stream) : UInt64 := r.gid (r.first batchSize K + k)

def step (r : Stream) : Op → Stream
  | .setS sin => ⟨sin, 0, 0⟩
  | .renewKs gid => ⟨r.startPoint, gid, 0⟩
  | .hash c => { r with used := r.first batchSize c.K + c.K }

def after (ops : List Op) (r : Stream) : Stream := ops.foldl (step batchSize) r

theorem after_cons {op : Op} {ops : List Op} {r : Stream} :
    r.after batchSize (op :: ops) = (r.step batchSize op).after batchSize ops :=
  rfl

def lanes (r : Stream) : List Call → List Nat
  | [] => []
  | c :: calls =>
    (List.range c.K).map (r.first batchSize c.K + ·) ++ (r.step batchSize (.hash c)).lanes calls

end Stream

section Reference

variable {AesKey : Type} (aes : Aes AesKey) (batchSize : BatchSize) (reuseShift : Fin 32)

def Call.pre (c : Call) : Block → Block := if c.sigma then Block.sigma else id

def Op.reference (op : Op) (r : Stream) (mem : Nat → Block) : Nat → Block :=
  match op with
  | .setS _ => mem
  | .renewKs _ => mem
  | .hash c =>
    mapRange (fun b => Mitccrh.reference aes reuseShift c.pre r.startPoint
      (r.laneGid batchSize c.K (b / c.H))) (c.K * c.H) c.dst c.src mem

def referenceRun : List Op → Stream → (Nat → Block) → Nat → Block
  | [], _, mem => mem
  | op :: ops, r, mem =>
    referenceRun ops (r.step batchSize op) (op.reference aes batchSize reuseShift r mem)

end Reference

section Refinement

variable {AesKey : Type} (aes : Aes AesKey) (batchSize : BatchSize) (reuseShift : Fin 32)

structure Tracks (r : Stream) (m : Mitccrh AesKey) : Prop
    extends Scheduled aes batchSize reuseShift r.startPoint m where
  within : m.keyUsed < batchSize.count →
    m.keyUsed = (r.used % batchSize.count : Nat) ∧
      m.laneGid0 + UInt64.ofNat (r.used % batchSize.count) = r.gid r.used
  full : m.keyUsed = batchSize.count → batchSize.count ∣ r.used ∧ m.gid = r.gid r.used

variable {aes batchSize reuseShift}

theorem setS_tracks (S : Block) (m : Mitccrh AesKey) :
    Tracks aes batchSize reuseShift ⟨S, 0, 0⟩ (setS batchSize S m) where
  toScheduled := setS_scheduled aes batchSize reuseShift S m
  within h := absurd h (Int.lt_irrefl _)
  full _ := ⟨Nat.dvd_zero _, rfl⟩

theorem renewKsAt_tracks {S : Block} {m : Mitccrh AesKey} (h : Keyed aes reuseShift S m)
    (gid : UInt64) :
    Tracks aes batchSize reuseShift ⟨S, gid, 0⟩ (renewKsAt aes batchSize reuseShift gid m) := by
  have hk : Keyed aes reuseShift S { m with gid := gid } := ⟨h.start, h.cached⟩
  obtain ⟨hused, hlane, -⟩ := @renewKs_frame _ aes batchSize reuseShift { m with gid := gid }
  have hpos := batchSize.pos
  refine ⟨renewKs_scheduled batchSize hk, fun _ => ?_, fun hfull => ?_⟩
  · rw [renewKsAt, hused, hlane, Nat.zero_mod]
    exact ⟨rfl, rfl⟩
  · rw [renewKsAt, hused] at hfull
    omega

theorem gid_add (r : Stream) (a b : Nat) : r.gid (a + b) = r.gid a + UInt64.ofNat b := by
  rw [Stream.gid, UInt64.ofNat_add, ← UInt64.add_assoc, Stream.gid]

theorem first_of_fits {r : Stream} {K : Nat}
    (h : r.used % batchSize.count + K ≤ batchSize.count) : r.first batchSize K = r.used :=
  if_pos h

theorem first_of_over {r : Stream} {K : Nat}
    (h : batchSize.count < r.used % batchSize.count + K) :
    r.first batchSize K = r.used - r.used % batchSize.count + batchSize.count := by
  have hd := Nat.div_add_mod r.used batchSize.count
  rw [Stream.first, if_neg (by omega), Nat.succ_mul, Nat.mul_comm]
  omega

theorem used_le_first (r : Stream) (K : Nat) : r.used ≤ r.first batchSize K := by
  have hm := Nat.mod_lt r.used batchSize.pos
  by_cases h : r.used % batchSize.count + K ≤ batchSize.count
  · rw [first_of_fits h]
  · rw [first_of_over (by omega)]
    omega

theorem Tracks.keyUsed_mod {r : Stream} {m : Mitccrh AesKey}
    (h : Tracks aes batchSize reuseShift r m) :
    m.keyUsed = (r.used % batchSize.count : Nat) ∨
      m.keyUsed = batchSize.count ∧ r.used % batchSize.count = 0 := by
  have hle := h.used.2
  by_cases hlt : m.keyUsed < batchSize.count
  · exact Or.inl (h.within hlt).1
  · have heq : m.keyUsed = batchSize.count := by omega
    exact Or.inr ⟨heq, Nat.mod_eq_zero_of_dvd (h.full heq).1⟩

theorem Tracks.nextGid_eq {r : Stream} {m : Mitccrh AesKey}
    (h : Tracks aes batchSize reuseShift r m) {K : Nat} (hpos : 0 < K)
    (hK : K ≤ batchSize.count) :
    nextGid batchSize K m = r.gid (r.first batchSize K) := by
  have hcount := batchSize.pos
  rcases Int.lt_or_eq_of_le h.used.2 with hlt | heq
  · obtain ⟨hused, hlane⟩ := h.within hlt
    have hmod : r.used % batchSize.count ≤ r.used := Nat.mod_le _ _
    rw [nextGid, hused]
    split
    case isTrue hover =>
      rw [first_of_over (by omega), h.ahead hlt, gid_add]
      have base : m.laneGid0 = r.gid (r.used - r.used % batchSize.count) := by
        apply (UInt64.add_left_inj (UInt64.ofNat (r.used % batchSize.count))).mp
        rw [hlane, ← gid_add, Nat.sub_add_cancel hmod]
      rw [base]
    case isFalse hfit =>
      rw [first_of_fits (by omega), ofInt_natCast, hlane]
  · obtain ⟨hdvd, hgid⟩ := h.full heq
    rw [nextGid, if_pos (by omega), hgid, first_of_fits]
    rw [Nat.mod_eq_zero_of_dvd hdvd, Nat.zero_add]
    exact hK

theorem Tracks.ready_keyUsed {r : Stream} {m : Mitccrh AesKey}
    (h : Tracks aes batchSize reuseShift r m) {K : Nat} (hpos : 0 < K)
    (hK : K ≤ batchSize.count) :
    (ready aes batchSize reuseShift K m).keyUsed =
      (r.first batchSize K % batchSize.count : Nat) := by
  have renewed := (@renewKs_frame _ aes batchSize reuseShift m).1
  rw [ready]
  rcases h.keyUsed_mod with hused | ⟨hfull, hzero⟩
  · split
    case isTrue hover =>
      rw [renewed, Stream.first, if_neg (by omega), Nat.mul_mod_left]
      rfl
    case isFalse hfit =>
      rw [hused, first_of_fits (by omega)]
  · rw [if_pos (by omega), renewed, first_of_fits (by omega), hzero]
    rfl

theorem Tracks.advance {r : Stream} {m : Mitccrh AesKey}
    (h : Tracks aes batchSize reuseShift r m) {K : Nat} (hpos : 0 < K)
    (hK : K ≤ batchSize.count) :
    Tracks aes batchSize reuseShift { r with used := r.first batchSize K + K }
      { ready aes batchSize reuseShift K m with
        keyUsed := (ready aes batchSize reuseShift K m).keyUsed + K } := by
  obtain ⟨u, hu, hfit, hgid, hsched⟩ := ready_spec h.toScheduled hK
  have hmod := h.ready_keyUsed hpos hK
  have hmod' : r.first batchSize K % batchSize.count = u := by omega
  rw [h.nextGid_eq hpos hK] at hgid
  have reached : (ready aes batchSize reuseShift K m).laneGid0 + UInt64.ofNat (u + K) =
      r.gid (r.first batchSize K + K) := by
    rw [gid_add, ← hgid, UInt64.ofNat_add, UInt64.add_assoc]
  refine ⟨hsched.advance (by omega), fun hlt => ?_, fun heq => ?_⟩
  · change (ready aes batchSize reuseShift K m).keyUsed + K < batchSize.count at hlt
    have hsum : (r.first batchSize K + K) % batchSize.count = u + K := by
      rw [Nat.add_mod, hmod', Nat.mod_eq_of_lt (b := batchSize.count) (a := K) (by omega)]
      exact Nat.mod_eq_of_lt (by omega)
    refine ⟨?_, ?_⟩
    · change (ready aes batchSize reuseShift K m).keyUsed + K = _
      rw [hsum, hu]
      rfl
    · rw [hsum]
      exact reached
  · change (ready aes batchSize reuseShift K m).keyUsed + K = batchSize.count at heq
    have hend : u + K = batchSize.count := by omega
    refine ⟨?_, ?_⟩
    · have hd := Nat.div_add_mod (r.first batchSize K) batchSize.count
      refine ⟨r.first batchSize K / batchSize.count + 1, ?_⟩
      change r.first batchSize K + K = _
      rw [Nat.mul_succ]
      omega
    · change (ready aes batchSize reuseShift K m).gid = r.gid (r.first batchSize K + K)
      rw [hsched.ahead (by omega), ← hend, reached]

theorem input_blockwise (tiers : Tiers) (span : Nat) :
    Blockwise (tweakBlock aes id span) (aesMemXorInputTweakTile aes tiers span) :=
  aesMemXorTweakTile_blockwise aes tiers (fun _ _ => rfl) span

theorem Op.run_tracks (tiers : Tiers) {op : Op} (hop : op.Admissible batchSize) {r : Stream}
    {m : Mitccrh AesKey} (h : Tracks aes batchSize reuseShift r m) (mem : Nat → Block) :
    ∃ m', op.run aes tiers batchSize reuseShift m mem =
        .ok (m', op.reference aes batchSize reuseShift r mem) ∧
      Tracks aes batchSize reuseShift (r.step batchSize op) m' := by
  cases op with
  | setS sin => exact ⟨_, rfl, setS_tracks sin m⟩
  | renewKs gid => exact ⟨_, rfl, renewKsAt_tracks h.toKeyed gid⟩
  | hash c =>
    obtain ⟨hdvd, hint, hsep⟩ := hop
    have hpos := Nat.pos_of_dvd_of_pos hdvd batchSize.pos
    have hK := Nat.le_of_dvd batchSize.pos hdvd
    have hused := h.used
    refine ⟨_, ?_, h.advance hpos hK⟩
    have consumed {tile : MemTile AesKey Block} (htile : Blockwise (tweakBlock aes c.pre c.H) tile) :=
      consume_ok tiers h.toScheduled hK (by omega) htile hsep mem
    simp only [h.nextGid_eq hpos hK, ← gid_add] at consumed
    simp only [Op.run, Op.reference, Stream.laneGid]
    split
    case isTrue hs =>
      refine consumed ?_
      rw [Call.pre, if_pos hs]
      exact sigma_blockwise tiers c.H
    case isFalse hs =>
      refine consumed ?_
      rw [Call.pre, if_neg hs]
      exact input_blockwise tiers c.H

theorem runOps_tracks (tiers : Tiers) {ops : List Op} (hops : ∀ op ∈ ops, op.Admissible batchSize)
    {r : Stream} {m : Mitccrh AesKey} (h : Tracks aes batchSize reuseShift r m)
    (mem : Nat → Block) :
    ∃ m', runOps aes tiers batchSize reuseShift ops m mem =
      .ok (m', referenceRun aes batchSize reuseShift ops r mem) := by
  induction ops generalizing r m mem with
  | nil => exact ⟨m, rfl⟩
  | cons op ops ih =>
    obtain ⟨m₁, hstep, h₁⟩ := Op.run_tracks tiers (hops op List.mem_cons_self) h mem
    obtain ⟨m', hrun⟩ := ih (fun o ho => hops o (List.mem_cons_of_mem op ho)) h₁ _
    refine ⟨m', ?_⟩
    simp only [runOps, hstep, bind, Except.bind]
    exact hrun

end Refinement

section Lanes

variable {batchSize : BatchSize}

theorem used_le_lanes (r : Stream) (calls : List Call) {a : Nat}
    (ha : a ∈ r.lanes batchSize calls) : r.used ≤ a := by
  induction calls generalizing r with
  | nil => simp [Stream.lanes] at ha
  | cons c calls ih =>
    have hfirst := @used_le_first batchSize r c.K
    rcases List.mem_append.mp ha with ha | ha
    · obtain ⟨k, -, rfl⟩ := List.mem_map.mp ha
      omega
    · have hnext : r.first batchSize c.K + c.K ≤ a := ih _ ha
      omega

theorem lanes_increasing (r : Stream) (calls : List Call) :
    (r.lanes batchSize calls).Pairwise (· < ·) := by
  induction calls generalizing r with
  | nil => exact .nil
  | cons c calls ih =>
    refine List.pairwise_append.mpr ⟨?_, ih _, fun a ha b hb => ?_⟩
    · refine List.pairwise_map.mpr (List.pairwise_lt_range.imp ?_)
      intro a b hab
      omega
    · obtain ⟨k, hk, rfl⟩ := List.mem_map.mp ha
      have hk := List.mem_range.mp hk
      have hnext : r.first batchSize c.K + c.K ≤ b := used_le_lanes _ _ hb
      omega

theorem gid_lt {r : Stream} {a b : Nat} (hab : a < b) (hwrap : r.origin.toNat + b < 2 ^ 64) :
    r.gid a < r.gid b := by
  rw [UInt64.lt_iff_toNat_lt, Stream.gid, Stream.gid, toNat_add_ofNat, toNat_add_ofNat]
  rw [Nat.mod_eq_of_lt hwrap, Nat.mod_eq_of_lt (by omega)]
  omega

-- with one `K` the batch never has a remainder to skip
theorem first_of_dvd {r : Stream} {K : Nat} (hK : K ∣ batchSize.count) (hr : K ∣ r.used) :
    r.first batchSize K = r.used := by
  apply first_of_fits
  have hmod : K ∣ r.used % batchSize.count := (Nat.dvd_mod_iff hK).mpr hr
  have hlt := Nat.mod_lt r.used batchSize.pos
  have hgap := Nat.le_of_dvd (by omega) (Nat.dvd_sub hK hmod)
  omega

end Lanes

def Op.position : Op → Option UInt64
  | .setS _ => some 0
  | .renewKs gid => some gid
  | .hash _ => none

theorem step_position (batchSize : BatchSize) (r : Stream) {op : Op} {s : UInt64}
    (h : op.position = some s) :
    (r.step batchSize op).origin = s ∧ (r.step batchSize op).used = 0 := by
  cases op with
  | setS sin => exact ⟨Option.some.inj h, rfl⟩
  | renewKs gid => exact ⟨Option.some.inj h, rfl⟩
  | hash c => cases h

theorem after_calls {batchSize : BatchSize} {K : Nat} (hK : K ∣ batchSize.count)
    {calls : List Call} (hcalls : ∀ c ∈ calls, c.K = K) {r : Stream} (hr : K ∣ r.used) :
    r.after batchSize (calls.map .hash) = { r with used := r.used + calls.length * K } := by
  induction calls generalizing r with
  | nil => simp [Stream.after]
  | cons c calls ih =>
    have hc := hcalls c List.mem_cons_self
    have hstep : r.step batchSize (.hash c) = { r with used := r.used + K } := by
      simp only [Stream.step, hc, first_of_dvd hK hr]
    have hrest := ih (fun d hd => hcalls d (List.mem_cons_of_mem c hd))
      (r := { r with used := r.used + K }) (Nat.dvd_add hr (Nat.dvd_refl K))
    rw [List.map_cons, Stream.after, List.foldl_cons, hstep, ← Stream.after, hrest,
      List.length_cons, Nat.succ_mul]
    simp only [Nat.add_assoc, Nat.add_comm K]

theorem after_append (batchSize : BatchSize) (r : Stream) (xs ys : List Op) :
    r.after batchSize (xs ++ ys) = (r.after batchSize xs).after batchSize ys :=
  List.foldl_append

theorem laneGid_of_uniform {batchSize : BatchSize} {K : Nat} (hK : K ∣ batchSize.count)
    {calls : List Call} (hcalls : ∀ c ∈ calls, c.K = K) {r : Stream} (hr : r.used = 0) (k : Nat) :
    (r.after batchSize (calls.map .hash)).laneGid batchSize K k =
      r.origin + UInt64.ofNat (calls.length * K + k) := by
  have hstart : K ∣ r.used := hr ▸ Nat.dvd_zero K
  have hdvd : K ∣ r.used + calls.length * K := Nat.dvd_add hstart (Nat.dvd_mul_left K _)
  rw [after_calls hK hcalls hstart, Stream.laneGid, first_of_dvd hK hdvd, hr, Nat.zero_add,
    Stream.gid]

theorem mitccrh_implements_reference {AesKey : Type} (aes : Aes AesKey) (tiers : Tiers)
    (batchSize : BatchSize) (reuseShift : Fin 32) (S : Block) (ops : List Op)
    (hops : ∀ op ∈ ops, op.Admissible batchSize) (m : Mitccrh AesKey) (r : Stream)
    (mem : Nat → Block) :
    (∃ m', runOps aes tiers batchSize reuseShift (.setS S :: ops) m mem =
      .ok (m', referenceRun aes batchSize reuseShift (.setS S :: ops) r mem)) ∧
    ∀ (before : List Op) (op : Op) (calls : List Call) (rest : List Op) (s : UInt64),
      .setS S :: ops = before ++ op :: (calls.map .hash ++ rest) → op.position = some s →
      ((r.after batchSize (before ++ [op])).lanes batchSize calls).Pairwise (fun a b => a < b ∧
        (s.toNat + b < 2 ^ 64 → s + UInt64.ofNat a < s + UInt64.ofNat b)) ∧
      ∀ K, (∀ c ∈ calls, c.K = K) → ∀ j < calls.length, ∀ k < K,
        (r.after batchSize (before ++ op :: (calls.take j).map .hash)).laneGid batchSize K k =
          s + UInt64.ofNat (j * K + k) := by
  refine ⟨runOps_tracks tiers hops (setS_tracks S m) mem, ?_⟩
  intro before op calls rest s hsplit hposition
  obtain ⟨horigin, hused⟩ := step_position batchSize (r.after batchSize before) hposition
  refine ⟨?_, fun K hcalls j hj k hk => ?_⟩
  · refine (lanes_increasing _ calls).imp fun {a b} hab => ⟨hab, fun hwrap => ?_⟩
    exact gid_lt (r := ⟨S, s, 0⟩) hab hwrap
  · have hmem : Op.hash calls[j] ∈ Op.setS S :: ops := by
      rw [hsplit]
      simp
    have hadm : calls[j].Admissible batchSize := by
      rcases List.mem_cons.mp hmem with he | he
      · cases he
      · exact hops _ he
    have hK : K ∣ batchSize.count := hcalls _ (List.getElem_mem hj) ▸ hadm.divides
    have htake : ∀ c ∈ calls.take j, c.K = K := fun c hc => hcalls c (List.mem_of_mem_take hc)
    have hlane := laneGid_of_uniform hK htake hused k
    rwa [horigin, List.length_take_of_le (Nat.le_of_lt hj), ← Stream.after_cons,
      ← after_append] at hlane

def mixingAes : Aes Block := ⟨id, fun key x => key ^^^ x.sigma⟩

def constructed (batchSize : BatchSize) : Mitccrh Block :=
  ⟨fun _ => zeroBlock, fun _ => zeroBlock, batchSize.count, zeroBlock, 0, noBucket, 0⟩

def eightLanes : BatchSize := ⟨8, Nat.succ_pos _, by decide⟩

def mixedCalls : List Op :=
  [.hash ⟨true, 2, 2, 16, 0⟩, .hash ⟨false, 8, 1, 16, 16⟩, .renewKs 5, .hash ⟨true, 4, 1, 0, 0⟩,
    .hash ⟨true, 4, 2, 8, 0⟩, .setS (makeBlock 3 7), .hash ⟨false, 1, 3, 0, 4⟩]

theorem mitccrh_implements_reference_mixedCalls :
    (∃ m', runOps mixingAes ⟨true, false⟩ eightLanes 3 (.setS (makeBlock 9 2) :: mixedCalls)
        (constructed eightLanes) (fun a => makeBlock 0 (UInt64.ofNat a)) =
      .ok (m', referenceRun mixingAes eightLanes 3 (.setS (makeBlock 9 2) :: mixedCalls)
        ⟨zeroBlock, 0, 0⟩ (fun a => makeBlock 0 (UInt64.ofNat a)))) ∧
    (Stream.after eightLanes (.setS (makeBlock 9 2) :: mixedCalls.take 4)
      ⟨zeroBlock, 0, 0⟩).laneGid eightLanes 4 3 = 12 := by
  obtain ⟨hrun, hlanes⟩ := mitccrh_implements_reference mixingAes ⟨true, false⟩ eightLanes 3
    (makeBlock 9 2) mixedCalls (by decide) (constructed eightLanes) ⟨zeroBlock, 0, 0⟩
    (fun a => makeBlock 0 (UInt64.ofNat a))
  exact ⟨hrun, (hlanes (.setS (makeBlock 9 2) :: mixedCalls.take 2) (.renewKs 5)
    [⟨true, 4, 1, 0, 0⟩, ⟨true, 4, 2, 8, 0⟩] (mixedCalls.drop 5) 5 rfl rfl).2 4 (by simp) 1
    (by decide) 3 (by decide)⟩

theorem widest_pos : 0 < 2 ^ 31 - 2 := by decide

theorem widest_lt : 2 ^ 31 - 2 < 2 ^ 31 := by decide

def widestPair : BatchSize := ⟨2 ^ 31 - 2, widest_pos, widest_lt⟩

theorem mitccrh_widest_call_overflows :
    2 ∣ widestPair.count ∧ Separate (2 * 1) 0 0 ∧
      runOps mixingAes ⟨true, true⟩ widestPair 3
        [.setS zeroBlock, .hash ⟨true, 2, 1, 0, 0⟩] (constructed widestPair)
        (fun _ => zeroBlock) = .error "signed int overflow" :=
  ⟨by decide, Or.inl rfl, rfl⟩

end EmpTool.Crypto.Mitccrh
