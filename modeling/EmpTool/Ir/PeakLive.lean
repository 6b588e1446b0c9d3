import EmpTool.Ir.Compaction
import EmpTool.Ir.Liveness
import Mathlib.Data.Finset.Lattice.Fold
import Mathlib.Data.Finset.Range
import Mathlib.Order.Lattice.Nat

namespace EmpTool.Ir

open StraightLine

structure LiveCounter where
  active : UInt64
  peak : UInt64

section Counter

variable (isOutput : UInt32 → Bool) (live : LivenessStats)

def keepWire (w : UInt32) : Bool := 0 ≤ live.lastUse w || isOutput w

def decrements (gi : Nat) (w : UInt32) : Bool := !isOutput w && live.lastUse w = gi

def release (gi : Nat) (w : UInt32) (active : UInt64) : UInt64 :=
  if decrements isOutput live gi w then active - 1 else active

def produce (g : Gate) (active : UInt64) : UInt64 :=
  if keepWire isOutput live g.out then active + 1 else active

def releaseFirst (gi : Nat) (g : Gate) (active : UInt64) : UInt64 :=
  if !g.isConst then release isOutput live gi g.in0 active else active

def releaseSecond (gi : Nat) (g : Gate) (active : UInt64) : UInt64 :=
  if !g.isConst && !g.isNot && g.in1 ≠ g.in0 then release isOutput live gi g.in1 active
  else active

def peakGate (gi : Nat) (g : Gate) (s : LiveCounter) : LiveCounter :=
  { active := releaseSecond isOutput live gi g
      (releaseFirst isOutput live gi g (produce isOutput live g s.active))
    peak := max s.peak (s.active + 1) }

def peakGates : Nat → List Gate → LiveCounter → LiveCounter
  | _, [], s => s
  | gi, g :: gs, s => peakGates (gi + 1) gs (peakGate isOutput live gi g s)

def countInputs (n : UInt32) : UInt64 :=
  (wireIds n).foldl (fun active w => if keepWire isOutput live w then active + 1 else active) 0

end Counter

def outputMask (p : BooleanProgram) : UInt32 → Bool := Table.mark (fun _ => false) p.outputs

def counterAt (dense : BooleanProgram) (live : LivenessStats) (k : Nat) : LiveCounter :=
  let active := countInputs (outputMask dense) live dense.numInputs
  peakGates (outputMask dense) live 0 (dense.gates.take k) ⟨active, active⟩

def peakLiveWires (dense : BooleanProgram) (live : LivenessStats) : UInt64 :=
  (counterAt dense live dense.gates.length).peak

def liveWires (p : BooleanProgram) (k : Nat) : Finset UInt32 :=
  ((wireIds p.numInputs).toFinset ∪ written p k).filter fun w =>
    w ∈ p.outputs ∨ ReadFrom p.gates k w

structure NoUnderflow (p : BooleanProgram) (live : LivenessStats) (k : Nat) (g : Gate) : Prop where
  first : g.isConst = false → decrements (outputMask p) live k g.in0 = true →
    0 < produce (outputMask p) live g (counterAt p live k).active
  second : g.isConst = false → g.isNot = false → g.in1 ≠ g.in0 →
    decrements (outputMask p) live k g.in1 = true → 0 < releaseFirst (outputMask p) live k g
      (produce (outputMask p) live g (counterAt p live k).active)

structure PeakExact (p : BooleanProgram) (live : LivenessStats) : Prop where
  no_underflow : ∀ k g, p.gates[k]? = some g → NoUnderflow p live k g
  active_eq : ∀ k ≤ p.gates.length, (counterAt p live k).active.toNat = (liveWires p k).card
  peak_eq : (peakLiveWires p live).toNat = max (liveWires p 0).card
    ((Finset.range p.gates.length).sup fun k => (liveWires p k).card + 1)

section Steps

variable {p : BooleanProgram} {live : LivenessStats} (hl : Liveness p live)

theorem outputMask_iff (w : UInt32) : outputMask p w = true ↔ w ∈ p.outputs := by
  rw [outputMask, Table.mark_iff]
  simp

theorem mem_liveWires {k : Nat} {w : UInt32} : w ∈ liveWires p k ↔
    (w < p.numInputs ∨ w ∈ written p k) ∧ (w ∈ p.outputs ∨ ReadFrom p.gates k w) := by
  rw [liveWires, Finset.mem_filter, Finset.mem_union, List.mem_toFinset, mem_wireIds]

include hl

theorem keepWire_iff (w : UInt32) :
    keepWire (outputMask p) live w = true ↔ w ∈ p.outputs ∨ ReadFrom p.gates 0 w := by
  rw [keepWire, Bool.or_eq_true, outputMask_iff, decide_eq_true_iff, ← hl.read_from, or_comm]
  rfl

theorem decrements_iff (k : Nat) (w : UInt32) : decrements (outputMask p) live k w = true ↔
    w ∉ p.outputs ∧ ReadFrom p.gates k w ∧ ¬ ReadFrom p.gates (k + 1) w := by
  rw [decrements, Bool.and_eq_true, Bool.not_eq_true', ← Bool.not_eq_true, outputMask_iff,
    decide_eq_true_iff, hl.last_use_eq]

omit hl in
theorem release_card {k : Nat} {w : UInt32} {a : UInt64} {S : Finset UInt32}
    (ha : a.toNat = S.card) (hw : decrements (outputMask p) live k w = true → w ∈ S) :
    (decrements (outputMask p) live k w = true → 0 < a) ∧
      (release (outputMask p) live k w a).toNat =
        (S.filter fun v => ¬ (v = w ∧ decrements (outputMask p) live k v = true)).card := by
  have hpos (h : decrements (outputMask p) live k w = true) : 0 < a := by
    rw [UInt64.lt_iff_toNat_lt, ha, UInt64.toNat_zero]
    exact Finset.card_pos.mpr ⟨w, hw h⟩
  refine ⟨hpos, ?_⟩
  rw [release]
  split
  case isTrue h =>
    have herase : (S.filter fun v => ¬ (v = w ∧ decrements (outputMask p) live k v = true)) =
        S.erase w := by
      ext v
      rw [Finset.mem_filter, Finset.mem_erase, and_comm]
      refine and_congr_left fun _ => ⟨fun hno he => hno ⟨he, he ▸ h⟩, fun hne hboth => hne hboth.1⟩
    have hone : (1 : UInt64) ≤ a := by
      have := UInt64.lt_iff_toNat_lt.mp (hpos h)
      rw [UInt64.le_iff_toNat_le]
      exact this
    rw [herase, Finset.card_erase_of_mem (hw h), UInt64.toNat_sub_of_le _ _ hone, ha]
    rfl
  case isFalse h =>
    rw [ha]
    congr 1
    refine (Finset.filter_true_of_mem fun v _ => ?_).symm
    rintro ⟨rfl, hv⟩
    exact h hv

end Steps

section Gates

variable {p : BooleanProgram} {live : LivenessStats} {k : Nat} {g : Gate}

-- the live wires while gate `k` is evaluated, its own result among them unless it is dead
def liveDuring (p : BooleanProgram) (k : Nat) : Finset UInt32 :=
  ((wireIds p.numInputs).toFinset ∪ written p (k + 1)).filter fun w =>
    w ∈ p.outputs ∨ ReadFrom p.gates k w

theorem mem_liveDuring {w : UInt32} : w ∈ liveDuring p k ↔
    (w < p.numInputs ∨ w ∈ written p (k + 1)) ∧ (w ∈ p.outputs ∨ ReadFrom p.gates k w) := by
  rw [liveDuring, Finset.mem_filter, Finset.mem_union, List.mem_toFinset, mem_wireIds]

theorem release_operands {a : UInt64} {S : Finset UInt32} (ha : a.toNat = S.card)
    (hS : ∀ w ∈ g.reads, decrements (outputMask p) live k w = true → w ∈ S) :
    ((g.isConst = false → decrements (outputMask p) live k g.in0 = true → 0 < a) ∧
      (g.isConst = false → g.isNot = false → g.in1 ≠ g.in0 →
        decrements (outputMask p) live k g.in1 = true →
        0 < releaseFirst (outputMask p) live k g a)) ∧
    (releaseSecond (outputMask p) live k g (releaseFirst (outputMask p) live k g a)).toNat =
      (S.filter fun v => ¬ (v ∈ g.reads ∧ decrements (outputMask p) live k v = true)).card := by
  cases hc : g.isConst with
  | true =>
    rw [Gate.reads_of_const hc]
    simp [releaseSecond, releaseFirst, hc, ha]
  | false =>
    have hin0 : g.in0 ∈ g.reads := by
      cases hn : g.isNot with
      | true => rw [Gate.reads_of_not hn]; exact List.mem_singleton_self _
      | false => rw [Gate.reads_of_binary hc hn]; exact List.mem_cons_self
    obtain ⟨hpos, hfirst⟩ := release_card ha (hS _ hin0)
    have hrelease : releaseFirst (outputMask p) live k g a =
        release (outputMask p) live k g.in0 a := by rw [releaseFirst, hc]; rfl
    rw [hrelease]
    cases hn : g.isNot with
    | true =>
      rw [Gate.reads_of_not hn]
      simpa [releaseSecond, hc, hn, hfirst] using hpos
    | false =>
      rw [Gate.reads_of_binary hc hn]
      by_cases hne : g.in1 = g.in0
      · simpa [releaseSecond, hc, hn, hne, hfirst] using hpos
      · -- the second operand is another live wire, still counted after the first release
        obtain ⟨hpos', hsecond⟩ := release_card (w := g.in1) hfirst fun hdec =>
          Finset.mem_filter.mpr ⟨hS _ (by rw [Gate.reads_of_binary hc hn]; simp) hdec,
            fun h => hne h.1⟩
        have hboth : releaseSecond (outputMask p) live k g
            (release (outputMask p) live k g.in0 a) =
              release (outputMask p) live k g.in1 (release (outputMask p) live k g.in0 a) := by
          simp [releaseSecond, hc, hn, hne]
        refine ⟨⟨fun _ => hpos, fun _ _ _ => hpos'⟩, ?_⟩
        rw [hboth, hsecond, Finset.filter_filter]
        congr 1
        ext v
        simp only [Finset.mem_filter, List.mem_cons, List.not_mem_nil, or_false]
        tauto

variable (hg : p.gates[k]? = some g) (hv : Valid p) (hd : p.wireReuse = .none)
  (hl : Liveness p live)

include hg hv

omit hg in
theorem liveDuring_lt {w : UInt32} (hw : w ∈ liveDuring p k) : w < p.numWires := by
  rcases (mem_liveDuring.mp hw).1 with hin | hwritten
  · exact UInt32.lt_of_lt_of_le hin hv.inputs_le
  · obtain ⟨i, g', -, hi, rfl⟩ := mem_written.mp hwritten
    exact (hv.range g' (List.mem_of_getElem? hi)).2

omit hg in
theorem card_liveDuring_lt : (liveDuring p k).card < 2 ^ 32 := by
  have hsub : liveDuring p k ⊆ (wireIds p.numWires).toFinset := fun w hw => by
    rw [List.mem_toFinset, mem_wireIds]
    exact liveDuring_lt hv hw
  have hlen : (wireIds p.numWires).length = p.numWires.toNat := by simp [wireIds]
  calc (liveDuring p k).card ≤ (wireIds p.numWires).toFinset.card := Finset.card_le_card hsub
    _ ≤ (wireIds p.numWires).length := List.toFinset_card_le _
    _ = p.numWires.toNat := hlen
    _ < 2 ^ 32 := p.numWires.toNat_lt

include hd hl

theorem produce_card {a : UInt64} (ha : a.toNat = (liveWires p k).card) :
    (produce (outputMask p) live g a).toNat = (liveDuring p k).card := by
  have hold : ∀ w, w ∈ liveDuring p k ↔
      w ∈ liveWires p k ∨ w = g.out ∧ (w ∈ p.outputs ∨ ReadFrom p.gates k w) := by
    intro w
    rw [mem_liveDuring, mem_liveWires, written_succ hg, Finset.mem_insert]
    tauto
  have hkeep : keepWire (outputMask p) live g.out = true ↔
      g.out ∈ p.outputs ∨ ReadFrom p.gates k g.out := by
    rw [keepWire_iff hl, readFrom_out hg hv hd]
  have hroom : (liveDuring p k).card < 2 ^ 32 := card_liveDuring_lt hv
  rw [produce]
  split
  case isTrue h =>
    have hinsert : liveDuring p k = insert g.out (liveWires p k) := by
      ext w
      rw [hold, Finset.mem_insert, or_comm]
      exact or_congr_left ⟨fun h => h.1, fun he => ⟨he, he ▸ hkeep.mp h⟩⟩
    have hnew : g.out ∉ liveWires p k := by
      rw [mem_liveWires]
      rintro ⟨hin | hwritten, -⟩
      · exact absurd hin (UInt32.not_lt.mpr (hv.range g (List.mem_of_getElem? hg)).1)
      · exact not_written hg hv hd hwritten
    rw [hinsert, Finset.card_insert_of_notMem hnew] at hroom ⊢
    rw [UInt64.toNat_add, ha]
    exact Nat.mod_eq_of_lt (Nat.lt_trans hroom (by decide))
  case isFalse h =>
    have hsame : liveDuring p k = liveWires p k := by
      ext w
      rw [hold]
      exact ⟨fun h' => h'.elim id fun ⟨he, hw⟩ => absurd (hkeep.mpr (he ▸ hw)) h, Or.inl⟩
    rw [hsame, ha]

omit hv hd in
theorem liveWires_succ : liveWires p (k + 1) = (liveDuring p k).filter fun v =>
    ¬ (v ∈ g.reads ∧ decrements (outputMask p) live k v = true) := by
  ext w
  rw [Finset.mem_filter, mem_liveDuring, mem_liveWires, decrements_iff hl, readFrom_succ hg]
  tauto

theorem peakGate_spec {s : LiveCounter} (ha : s.active.toNat = (liveWires p k).card) :
    ((g.isConst = false → decrements (outputMask p) live k g.in0 = true →
        0 < produce (outputMask p) live g s.active) ∧
      (g.isConst = false → g.isNot = false → g.in1 ≠ g.in0 →
        decrements (outputMask p) live k g.in1 = true →
        0 < releaseFirst (outputMask p) live k g (produce (outputMask p) live g s.active))) ∧
    (peakGate (outputMask p) live k g s).active.toNat = (liveWires p (k + 1)).card ∧
    (peakGate (outputMask p) live k g s).peak.toNat =
      max s.peak.toNat ((liveWires p k).card + 1) := by
  obtain ⟨hpos, hactive⟩ := release_operands (g := g) (produce_card hg hv hd hl ha)
    fun w hw hdec => by
      obtain ⟨hno, hread, -⟩ := (decrements_iff hl k w).mp hdec
      refine mem_liveDuring.mpr ⟨(reads_written hg hv hw).imp id fun h => ?_, Or.inr hread⟩
      rw [written_succ hg]
      exact Finset.mem_insert_of_mem h
  refine ⟨hpos, ?_, ?_⟩
  · rw [liveWires_succ hg hl]
    exact hactive
  · have hroom : (liveWires p k).card < 2 ^ 32 := by
      refine Nat.lt_of_le_of_lt (Finset.card_le_card fun w hw => ?_) (card_liveDuring_lt (k := k) hv)
      obtain ⟨hw, hlive⟩ := mem_liveWires.mp hw
      refine mem_liveDuring.mpr ⟨hw.imp id fun h => ?_, hlive⟩
      rw [written_succ hg]
      exact Finset.mem_insert_of_mem h
    have hnext : (s.active + 1).toNat = (liveWires p k).card + 1 := by
      rw [UInt64.toNat_add, ha]
      exact Nat.mod_eq_of_lt (Nat.lt_of_le_of_lt hroom (by decide))
    rw [← hnext]
    exact UInt64.toNat_max _ _

end Gates

theorem foldl_count {α : Type} (P : α → Bool) (xs : List α) (a : UInt64)
    (h : a.toNat + xs.length < 2 ^ 64) :
    (xs.foldl (fun a x => if P x then a + 1 else a) a).toNat = a.toNat + xs.countP P := by
  induction xs generalizing a with
  | nil => rfl
  | cons x xs ih =>
    rw [List.length_cons] at h
    rw [List.foldl_cons, List.countP_cons]
    cases P x with
    | false => exact ih a (by omega)
    | true =>
      have hnext : (a + 1).toNat = a.toNat + 1 := by
        rw [UInt64.toNat_add, UInt64.toNat_one]
        exact Nat.mod_eq_of_lt (by omega)
      rw [if_pos rfl, if_pos rfl, ih _ (by omega), hnext]
      omega

theorem peakGates_append (isOutput : UInt32 → Bool) (live : LivenessStats) (gs hs : List Gate)
    (k : Nat) (s : LiveCounter) : peakGates isOutput live k (gs ++ hs) s =
      peakGates isOutput live (k + gs.length) hs (peakGates isOutput live k gs s) := by
  induction gs generalizing k s with
  | nil => rfl
  | cons g gs ih =>
    rw [List.cons_append, peakGates, ih, peakGates, List.length_cons, Nat.add_right_comm,
      Nat.add_assoc]

section Runs

variable {p : BooleanProgram} {live : LivenessStats}

theorem counterAt_succ {k : Nat} {g : Gate} (hg : p.gates[k]? = some g) :
    counterAt p live (k + 1) = peakGate (outputMask p) live k g (counterAt p live k) := by
  have hk : (p.gates.take k).length = k :=
    List.length_take_of_le (Nat.le_of_lt (List.getElem?_eq_some_iff.mp hg).1)
  rw [counterAt, List.take_add_one, hg, peakGates_append, hk, Nat.zero_add]
  rfl

theorem countInputs_card (hl : Liveness p live) :
    (countInputs (outputMask p) live p.numInputs).toNat = (liveWires p 0).card := by
  have hlen : (wireIds p.numInputs).length = p.numInputs.toNat := by simp [wireIds]
  have hlt := p.numInputs.toNat_lt
  have hset : liveWires p 0 =
      ((wireIds p.numInputs).filter (keepWire (outputMask p) live)).toFinset := by
    ext w
    rw [mem_liveWires, List.mem_toFinset, List.mem_filter, mem_wireIds, keepWire_iff hl,
      written_zero]
    simp
  rw [countInputs, foldl_count _ _ _ (by rw [hlen, UInt64.toNat_zero]; omega), hset,
    List.toFinset_card_of_nodup ((nodup_wireIds _).filter _), List.countP_eq_length_filter,
    UInt64.toNat_zero, Nat.zero_add]

theorem counterAt_spec (hv : Valid p) (hd : p.wireReuse = .none) (hl : Liveness p live) {k : Nat}
    (hk : k ≤ p.gates.length) : (counterAt p live k).active.toNat = (liveWires p k).card ∧
      (counterAt p live k).peak.toNat = max (liveWires p 0).card
        ((Finset.range k).sup fun i => (liveWires p i).card + 1) := by
  induction k with
  | zero =>
    refine ⟨countInputs_card hl, ?_⟩
    rw [Finset.range_zero, Finset.sup_empty]
    exact (countInputs_card hl).trans (Nat.max_eq_left (Nat.zero_le _)).symm
  | succ k ih =>
    obtain ⟨hactive, hpeak⟩ := ih (by omega)
    have hg := List.getElem?_eq_getElem (Nat.lt_of_succ_le hk)
    obtain ⟨-, hactive', hpeak'⟩ := peakGate_spec hg hv hd hl hactive
    rw [counterAt_succ hg]
    refine ⟨hactive', ?_⟩
    rw [hpeak', hpeak, Finset.range_add_one, Finset.sup_insert]
    exact (max_assoc _ _ _).trans (congrArg _ (max_comm _ _))

end Runs

theorem peak_live_wires_exact {p : BooleanProgram} (hv : validateProgram p = .ok ())
    (hd : p.wireReuse = .none) : ∃ live, livenessPass p = .ok live ∧ PeakExact p live := by
  have valid := validateProgram_ok_iff.mp hv
  obtain ⟨live, hlive, hl⟩ := livenessPass_liveness valid hd
  refine ⟨live, hlive, fun k g hg => ?_, fun k hk => (counterAt_spec valid hd hl hk).1,
    (counterAt_spec valid hd hl (Nat.le_refl _)).2⟩
  have hk := (List.getElem?_eq_some_iff.mp hg).1
  obtain ⟨⟨hfirst, hsecond⟩, -⟩ :=
    peakGate_spec hg valid hd hl (counterAt_spec valid hd hl hk.le).1
  exact ⟨hfirst, hsecond⟩

theorem peak_live_wires_exact_denseSample :
    ∃ live, livenessPass denseSample = .ok live ∧ PeakExact denseSample live :=
  peak_live_wires_exact (by rfl) rfl

example : ((livenessPass denseSample).toOption.map (peakLiveWires denseSample)) = some 3 := by rfl

end EmpTool.Ir
