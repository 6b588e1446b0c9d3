import EmpTool.Ir.Compaction
import EmpTool.Ir.Liveness
import EmpTool.Library.Pool
import Mathlib.Data.Finset.Lattice.Fold
import Mathlib.Data.Finset.Range
import Mathlib.Order.Lattice.Nat

namespace EmpTool.Ir

open StraightLine

-- program outputs, and for `Linear` all And outputs
def pinned (p : BooleanProgram) (target : WireReuse) : Finset UInt32 :=
  p.outputs.toFinset ∪
    if target = .linear then ((p.gates.filter Gate.isAnd).map Gate.out).toFinset else ∅

-- among the results of the first `j` gates the ones whose id gate `k` cannot have
def held (p : BooleanProgram) (target : WireReuse) (j k : Nat) : Finset UInt32 :=
  (written p j).filter fun w =>
    w ∉ pinned p target ∧ (¬ ReadFrom p.gates 0 w ∨ ReadFrom p.gates k w)

theorem mem_held {p : BooleanProgram} {target : WireReuse} {j k : Nat} {w : UInt32} :
    w ∈ held p target j k ↔ w ∈ written p j ∧ w ∉ pinned p target ∧
      (¬ ReadFrom p.gates 0 w ∨ ReadFrom p.gates k w) := Finset.mem_filter

theorem persistMask_iff {p : BooleanProgram} (hv : Valid p) (target : WireReuse) (w : UInt32) :
    persistMask p target w = true ↔ w < p.numInputs ∨ w ∈ pinned p target := by
  rw [persistMask, hv.filter_outputs, pinned, Finset.mem_union, List.mem_toFinset]
  split <;> simp [Table.mark_iff, mem_wireIds, or_assoc]

section Counting

variable {p : BooleanProgram} {target : WireReuse} {k : Nat} {g : Gate}
  (hg : p.gates[k]? = some g) (hv : Valid p) (hd : p.wireReuse = .none)

include hg hv hd

omit hd in
theorem out_persists : persistMask p target g.out = decide (g.out ∈ pinned p target) := by
  have hge := (hv.range g (List.mem_of_getElem? hg)).1
  have hnot : ¬ g.out < p.numInputs := UInt32.not_lt.mpr hge
  rw [Bool.eq_iff_iff, persistMask_iff hv, decide_eq_true_iff]
  exact ⟨fun h => h.resolve_left hnot, Or.inr⟩

theorem held_assign : held p target (k + 1) k =
    if g.out ∈ pinned p target then held p target k k
    else insert g.out (held p target k k) := by
  have hown := (readFrom_out hg hv hd).mp
  ext w
  rw [mem_held, written_succ hg, Finset.mem_insert]
  split
  case isTrue hpin =>
    rw [mem_held]
    refine ⟨fun ⟨hw, hno, hread⟩ => ⟨hw.resolve_left fun he => hno (he ▸ hpin), hno, hread⟩,
      fun ⟨hw, h⟩ => ⟨Or.inr hw, h⟩⟩
  case isFalse hpin =>
    rw [Finset.mem_insert, mem_held]
    constructor
    · rintro ⟨rfl | hw, h⟩
      · exact Or.inl rfl
      · exact Or.inr ⟨hw, h⟩
    · rintro (rfl | ⟨hw, h⟩)
      · exact ⟨Or.inl rfl, hpin, not_or_of_imp hown⟩
      · exact ⟨Or.inr hw, h⟩

theorem card_held_assign : (held p target (k + 1) k).card =
    (held p target k k).card + if g.out ∈ pinned p target then 0 else 1 := by
  rw [held_assign hg hv hd]
  split
  · rfl
  · refine Finset.card_insert_of_notMem fun hw => ?_
    exact not_written hg hv hd (mem_held.mp hw).1

theorem card_pinned_assign : (written p (k + 1) ∩ pinned p target).card =
    (written p k ∩ pinned p target).card + if g.out ∈ pinned p target then 1 else 0 := by
  have hnew := not_written hg hv hd
  rw [written_succ hg]
  split
  case isTrue hpin =>
    rw [Finset.insert_inter_of_mem hpin]
    exact Finset.card_insert_of_notMem fun hw => hnew (Finset.mem_of_mem_inter_left hw)
  case isFalse hpin => rw [Finset.insert_inter_of_notMem hpin, Nat.add_zero]

-- what gate `k` returns to the freelist is what leaves the held wires
omit hd in
theorem card_held_release {live : LivenessStats} (hl : Liveness p live) :
    (held p target (k + 1) k).card = (held p target (k + 1) (k + 1)).card +
      (freesTable p live.lastUse (persistMask p target) k).length := by
  obtain ⟨hnodup, hfree⟩ := freesTable_spec p live.lastUse (persistMask p target) k
  have hsplit := Finset.card_filter_add_card_filter_not (s := held p target (k + 1) k)
    fun w => ¬ ReadFrom p.gates 0 w ∨ ReadFrom p.gates (k + 1) w
  have hkept : (held p target (k + 1) k).filter (fun w =>
      ¬ ReadFrom p.gates 0 w ∨ ReadFrom p.gates (k + 1) w) = held p target (k + 1) (k + 1) := by
    ext w
    rw [Finset.mem_filter, mem_held, mem_held]
    refine ⟨fun ⟨⟨hw, hno, _⟩, h⟩ => ⟨hw, hno, h⟩, fun ⟨hw, hno, h⟩ => ⟨⟨hw, hno, ?_⟩, h⟩⟩
    exact h.imp id fun hr => (readFrom_succ hg w).mpr (Or.inr hr)
  have hfreed : (held p target (k + 1) k).filter (fun w =>
      ¬ (¬ ReadFrom p.gates 0 w ∨ ReadFrom p.gates (k + 1) w)) =
        (freesTable p live.lastUse (persistMask p target) k).toFinset := by
    ext w
    rw [Finset.mem_filter, mem_held, List.mem_toFinset, mem_freesTable, hl.last_use_eq, not_or,
      not_not]
    constructor
    · rintro ⟨⟨hw, hno, hread⟩, hzero, hlater⟩
      refine ⟨?_, ⟨hread.resolve_left (not_not.mpr hzero), hlater⟩, ?_⟩
      · obtain ⟨i, g', -, hi, rfl⟩ := mem_written.mp hw
        exact (hv.range g' (List.mem_of_getElem? hi)).2
      · obtain ⟨i, g', -, hi, rfl⟩ := mem_written.mp hw
        rw [out_persists hi hv, decide_eq_false hno]
    · rintro ⟨-, ⟨hread, hlater⟩, hno⟩
      have hnot : ¬ (w < p.numInputs ∨ w ∈ pinned p target) := by
        rw [← persistMask_iff hv, hno]
        exact Bool.false_ne_true
      rw [not_or] at hnot
      have hnow : w ∈ g.reads := ((readFrom_succ hg w).mp hread).resolve_right hlater
      have hw := (reads_written hg hv hnow).resolve_left hnot.1
      refine ⟨⟨?_, hnot.2, Or.inr hread⟩, ?_, hlater⟩
      · rw [written_succ hg]
        exact Finset.mem_insert_of_mem hw
      · exact hread.mono (Nat.zero_le k)
  rw [← hsplit, hkept, hfreed, List.toFinset_card_of_nodup hnodup]

end Counting

structure Pooled (base : Nat) (s : Pool) (a : Allocator) : Prop where
  next_eq : a.next.toNat = base + s.slots
  free_eq : a.freelist.length = s.free

section Allocation

variable {base : Nat} {s : Pool} {a : Allocator} (hroom : a.next.toNat + 1 < 2 ^ 32)

include hroom

theorem alloc_next_le (b : Bool) : (a.alloc b).2.next.toNat ≤ a.next.toNat + 1 := by
  have hnext := toNat_succ hroom
  rw [Allocator.alloc]
  split
  · split
    · exact Nat.le_succ _
    · exact Nat.le_of_eq hnext
  · exact Nat.le_of_eq hnext

theorem Pooled.alloc_persist (h : Pooled base s a) : Pooled (base + 1) s (a.alloc true).2 := by
  have hnew : Pooled (base + 1) s { a with next := a.next + 1 } :=
    ⟨by dsimp only; rw [toNat_succ hroom, h.next_eq]; omega, h.free_eq⟩
  rw [Allocator.alloc]
  split <;> exact hnew

theorem Pooled.alloc_take (h : Pooled base s a) : Pooled base s.take (a.alloc false).2 := by
  have hfree := h.free_eq
  have hnext := h.next_eq
  rw [Allocator.alloc, Pool.take]
  cases heq : a.freelist with
  | nil =>
    rw [heq, List.length_nil] at hfree
    rw [if_pos hfree.symm]
    refine ⟨?_, rfl⟩
    change (a.next + 1).toNat = base + (s.slots + 1)
    rw [toNat_succ hroom, hnext]
    omega
  | cons id rest =>
    rw [heq, List.length_cons] at hfree
    rw [if_neg (by omega)]
    refine ⟨hnext, ?_⟩
    change rest.length = s.free - 1
    omega

theorem Pooled.compactGate (h : Pooled base s a) (persist : UInt32 → Bool)
    (frees : Nat → List UInt32) (k : Nat) (g : Gate) :
    Pooled (base + if persist g.out then 1 else 0)
      ((if persist g.out then s else s.take).give (frees k).length)
      (compactGate persist frees k g a).2 := by
  have halloc : Pooled (base + if persist g.out then 1 else 0)
      (if persist g.out then s else s.take) (a.alloc (persist g.out)).2 := by
    cases persist g.out with
    | true => exact h.alloc_persist hroom
    | false => exact h.alloc_take hroom
  refine ⟨halloc.next_eq, ?_⟩
  simp only [EmpTool.Ir.compactGate, foldl_cons_map, List.length_append, List.length_reverse,
    List.length_map, halloc.free_eq, Pool.give]
  omega

end Allocation

def Counted (p : BooleanProgram) (target : WireReuse) (k : Nat) (a : Allocator) : Prop :=
  ∃ s, Pooled (p.numInputs.toNat + (written p k ∩ pinned p target).card) s a ∧
    Pool.Peaked (held p target k k).card
      ((Finset.range k).sup fun i => (held p target (i + 1) i).card) s

section Runs

variable {p : BooleanProgram} {target : WireReuse} {live : LivenessStats} {k : Nat}
  (hv : Valid p) (hd : p.wireReuse = .none) (hl : Liveness p live)

include hv hd hl

theorem Counted.compactGate {a : Allocator} (h : Counted p target k a) {g : Gate}
    (hg : p.gates[k]? = some g) (hroom : a.next.toNat + 1 < 2 ^ 32) :
    Counted p target (k + 1) (compactGate (persistMask p target)
      (freesTable p live.lastUse (persistMask p target)) k g a).2 := by
  obtain ⟨s, hpool, hpeak⟩ := h
  have hstep := hpool.compactGate hroom (persistMask p target)
    (freesTable p live.lastUse (persistMask p target)) k g
  rw [out_persists hg hv] at hstep
  have hassign : (held p target (k + 1) k).card = _ := card_held_assign hg hv hd
  have hpinned : (written p (k + 1) ∩ pinned p target).card = _ := card_pinned_assign hg hv hd
  have hrelease : (held p target (k + 1) k).card = _ := card_held_release hg hv hl
  have hsup : ((Finset.range (k + 1)).sup fun i => (held p target (i + 1) i).card) =
      max ((Finset.range k).sup fun i => (held p target (i + 1) i).card)
        (held p target (k + 1) k).card := by
    rw [Finset.range_add_one, Finset.sup_insert, sup_comm]
  refine ⟨_, by rw [hpinned, ← Nat.add_assoc]; simpa using hstep, Pool.Peaked.give ?_⟩
  rw [← hrelease, hsup, hassign]
  by_cases hpin : g.out ∈ pinned p target
  · rw [if_pos hpin, if_pos hpin]
    exact hpeak.keep
  · rw [if_neg hpin, if_neg hpin]
    exact hpeak.take

theorem Counted.compactGates (gs : List Gate) {a : Allocator} (h : Counted p target k a)
    (hgs : p.gates.drop k = gs) (hk : k + gs.length = p.gates.length)
    (hroom : a.next.toNat + gs.length < 2 ^ 32) :
    Counted p target p.gates.length (compactGates (persistMask p target)
      (freesTable p live.lastUse (persistMask p target)) k gs a).2 := by
  induction gs generalizing k a with
  | nil =>
    obtain rfl : k = p.gates.length := hk
    exact h
  | cons g gs ih =>
    rw [List.length_cons] at hk hroom
    have hg : p.gates[k]? = some g := by
      rw [← Nat.add_zero k, ← List.getElem?_drop, hgs]
      rfl
    have hnext := alloc_next_le (a := a) (by omega) (persistMask p target g.out)
    have hrest : p.gates.drop (k + 1) = gs := by
      rw [← List.drop_drop, hgs]
      rfl
    exact ih (h.compactGate hv hd hl hg (by omega)) hrest (by omega)
      (Nat.lt_of_le_of_lt (Nat.add_le_add_right hnext _) (by omega))

omit hv hd hl in
theorem counted_start (target : WireReuse) :
    Counted p target 0 ⟨(numberInputs p.numInputs fun _ => 4294967295).1,
      (numberInputs p.numInputs fun _ => 4294967295).2, []⟩ := by
  refine ⟨⟨0, 0⟩, ⟨?_, rfl⟩, ?_⟩
  · rw [(numberInputs_spec p.numInputs _).1, written_zero, Finset.empty_inter]
    rfl
  · have hempty : held p target 0 0 = ∅ := by
      rw [held, written_zero, Finset.filter_empty]
    rw [hempty]
    exact Pool.peaked_empty

theorem renumber_numWires : (renumber p target live).prog.numWires.toNat =
    p.numInputs.toNat + (written p p.gates.length ∩ pinned p target).card +
      (Finset.range p.gates.length).sup fun g => (held p target (g + 1) g).card := by
  have hend := (counted_start target).compactGates hv hd hl p.gates rfl (Nat.zero_add _)
    (start_room hv hd _)
  obtain ⟨ngs, b, hrun, hren⟩ := renumber_run hv hd target live
  rw [hrun] at hend
  obtain ⟨s, hpool, hpeak⟩ := hend
  rw [hren, ← hpeak.peak_eq]
  exact hpool.next_eq

omit hl in
theorem makeCompact_numWires (ht : target ≠ .none) : ∃ r, makeCompact p target = .ok r ∧
    r.prog.numWires.toNat =
      p.numInputs.toNat + (written p p.gates.length ∩ pinned p target).card +
        (Finset.range p.gates.length).sup fun g => (held p target (g + 1) g).card := by
  obtain ⟨live, hlive, hl⟩ := livenessPass_liveness hv hd
  obtain ⟨r, hr, -⟩ := makeCompact_spec hv hd ht
  exact ⟨r, hr, makeCompact_eq hlive hr ▸ renumber_numWires hv hd hl⟩

end Runs

section Comparison

variable {p : BooleanProgram} {target : WireReuse}

theorem written_subset {i j : Nat} (h : i ≤ j) : written p i ⊆ written p j := by
  intro w hw
  obtain ⟨k, g, hk, hg, hout⟩ := mem_written.mp hw
  exact mem_written.mpr ⟨k, g, by omega, hg, hout⟩

theorem pinned_full_subset : pinned p .full ⊆ pinned p .linear := by
  intro w hw
  rw [pinned, if_neg (by decide), Finset.union_empty] at hw
  exact Finset.mem_union_left _ hw

-- unpinning a wire moves it from the pinned count to at most one held wire per gate
theorem full_le_linear :
    (written p p.gates.length ∩ pinned p .full).card +
        ((Finset.range p.gates.length).sup fun g => (held p .full (g + 1) g).card) ≤
      (written p p.gates.length ∩ pinned p .linear).card +
        (Finset.range p.gates.length).sup fun g => (held p .linear (g + 1) g).card := by
  let unpinned := written p p.gates.length ∩ (pinned p .linear \ pinned p .full)
  have hpinned : (written p p.gates.length ∩ pinned p .linear).card =
      (written p p.gates.length ∩ pinned p .full).card + unpinned.card := by
    rw [← Finset.card_union_of_disjoint]
    · rw [← Finset.inter_union_distrib_left, Finset.union_sdiff_of_subset pinned_full_subset]
    · exact Finset.disjoint_sdiff.mono Finset.inter_subset_right Finset.inter_subset_right
  have hheld (g : Nat) (hg : g < p.gates.length) :
      (held p .full (g + 1) g).card ≤ (held p .linear (g + 1) g).card + unpinned.card := by
    refine Nat.le_trans (Finset.card_le_card fun w hw => ?_) (Finset.card_union_le _ _)
    obtain ⟨hw, hno, hread⟩ := mem_held.mp hw
    rw [Finset.mem_union, mem_held]
    by_cases hpin : w ∈ pinned p .linear
    · exact Or.inr (Finset.mem_inter.mpr
        ⟨written_subset (by omega) hw, Finset.mem_sdiff.mpr ⟨hpin, hno⟩⟩)
    · exact Or.inl ⟨hw, hpin, hread⟩
  rw [hpinned, Nat.add_assoc]
  refine Nat.add_le_add_left (Finset.sup_le fun g hg => ?_) _
  calc (held p .full (g + 1) g).card
      ≤ (held p .linear (g + 1) g).card + unpinned.card := hheld g (Finset.mem_range.mp hg)
    _ ≤ ((Finset.range p.gates.length).sup fun g => (held p .linear (g + 1) g).card) +
          unpinned.card :=
        Nat.add_le_add_right
          (Finset.le_sup (f := fun g => (held p .linear (g + 1) g).card) hg) _
    _ = _ := Nat.add_comm _ _

theorem slots_le_gates : (written p p.gates.length ∩ pinned p target).card +
    ((Finset.range p.gates.length).sup fun g => (held p target (g + 1) g).card) ≤
      p.gates.length := by
  have hwritten : (written p p.gates.length).card ≤ p.gates.length := by
    refine Nat.le_trans (List.toFinset_card_le _) ?_
    rw [List.length_map, List.take_length]
  have hsplit := Finset.card_inter_add_card_sdiff (written p p.gates.length) (pinned p target)
  refine Nat.le_trans (Nat.add_le_add_left (Finset.sup_le fun g hg => ?_) _)
    (hsplit.trans_le hwritten)
  refine Finset.card_le_card fun w hw => ?_
  obtain ⟨hw, hno, -⟩ := mem_held.mp hw
  have hle : g + 1 ≤ p.gates.length := Finset.mem_range.mp hg
  exact Finset.mem_sdiff.mpr ⟨written_subset hle hw, hno⟩

end Comparison

theorem more_reuse_fewer_slots {p : BooleanProgram} (hv : validateProgram p = .ok ())
    (hd : p.wireReuse = .none) :
    ∃ full linear, makeCompact p .full = .ok full ∧ makeCompact p .linear = .ok linear ∧
      full.prog.numWires ≤ linear.prog.numWires ∧ linear.prog.numWires ≤ p.numWires := by
  have valid := validateProgram_ok_iff.mp hv
  obtain ⟨full, hfull, hslots⟩ := makeCompact_numWires valid hd (by decide : WireReuse.full ≠ .none)
  obtain ⟨linear, hlinear, hslots'⟩ :=
    makeCompact_numWires valid hd (by decide : WireReuse.linear ≠ .none)
  refine ⟨full, linear, hfull, hlinear, ?_, ?_⟩
  · rw [UInt32.le_iff_toNat_le, hslots, hslots', Nat.add_assoc, Nat.add_assoc]
    exact Nat.add_le_add_left full_le_linear _
  · have hcount := valid.dense_count hd
    have hle := UInt32.le_iff_toNat_le.mp valid.inputs_le
    have hgates : (written p p.gates.length ∩ pinned p .linear).card + _ ≤ _ := slots_le_gates
    rw [UInt32.le_iff_toNat_le, hslots']
    omega

theorem more_reuse_fewer_slots_denseSample :
    ∃ full linear, makeCompact denseSample .full = .ok full ∧
      makeCompact denseSample .linear = .ok linear ∧
      full.prog.numWires ≤ linear.prog.numWires ∧ linear.prog.numWires ≤ denseSample.numWires :=
  more_reuse_fewer_slots (by rfl) rfl

section Optimality

variable (p : BooleanProgram) (target : WireReuse)

def inUse (g : Nat) : Finset UInt32 :=
  (written p (g + 1)).filter fun w =>
    w ∉ pinned p target ∧ (p.gates[g]?.map Gate.out = some w ∨ ReadFrom p.gates g w)

def peakInUse : Nat := (Finset.range p.gates.length).sup fun g => (inUse p target g).card

def deadBefore (g : Nat) : Finset UInt32 :=
  (written p g).filter fun w => w ∉ pinned p target ∧ ¬ ReadFrom p.gates 0 w

variable {p target}

theorem card_held (hv : Valid p) (hd : p.wireReuse = .none) {g : Nat} (hg : g < p.gates.length) :
    (held p target (g + 1) g).card = (inUse p target g).card + (deadBefore p target g).card := by
  have hget := List.getElem?_eq_getElem hg
  rw [← Finset.card_union_of_disjoint]
  · congr 1
    ext w
    rw [Finset.mem_union, mem_held, inUse, deadBefore, Finset.mem_filter, Finset.mem_filter,
      written_succ hget, hget, Option.map_some, Option.some.injEq, Finset.mem_insert]
    have hown := (readFrom_out hget hv hd).mp
    constructor
    · rintro ⟨hw, hno, hread⟩
      by_cases hout : p.gates[g].out = w
      · exact Or.inl ⟨hw, hno, Or.inl hout⟩
      · have hold := hw.resolve_left (Ne.symm hout)
        exact hread.elim (fun h => Or.inr ⟨hold, hno, h⟩) fun h => Or.inl ⟨hw, hno, Or.inr h⟩
    · rintro (⟨hw, hno, rfl | hread⟩ | ⟨hw, hno, hdead⟩)
      · exact ⟨hw, hno, not_or_of_imp hown⟩
      · exact ⟨hw, hno, Or.inr hread⟩
      · exact ⟨Or.inr hw, hno, Or.inl hdead⟩
  · refine Finset.disjoint_left.mpr fun w huse hdead => ?_
    rw [inUse, Finset.mem_filter, hget, Option.map_some, Option.some.injEq] at huse
    obtain ⟨hw, -, hnever⟩ := Finset.mem_filter.mp hdead
    rcases huse.2.2 with rfl | hread
    · exact not_written hget hv hd hw
    · exact hnever (hread.mono (Nat.zero_le g))

theorem compaction_recycles_iff (hv : validateProgram p = .ok ()) (hd : p.wireReuse = .none)
    (ht : target = .linear ∨ target = .full) : ∃ r, makeCompact p target = .ok r ∧
      (r.prog.numWires.toNat = p.numInputs.toNat +
          (written p p.gates.length ∩ pinned p target).card + peakInUse p target ↔
        ∀ g < p.gates.length,
          (inUse p target g).card + (deadBefore p target g).card ≤ peakInUse p target) := by
  have valid := validateProgram_ok_iff.mp hv
  have hne : target ≠ .none := by rcases ht with rfl | rfl <;> simp
  obtain ⟨r, hr, hslots⟩ := makeCompact_numWires valid hd hne
  refine ⟨r, hr, ?_⟩
  have hle : peakInUse p target ≤
      (Finset.range p.gates.length).sup fun g => (held p target (g + 1) g).card :=
    Finset.sup_mono_fun fun g hg => by
      rw [card_held valid hd (Finset.mem_range.mp hg)]
      exact Nat.le_add_right _ _
  rw [hslots, Nat.add_right_inj]
  constructor
  · intro hsup g hg
    rw [← card_held valid hd hg, ← hsup]
    exact Finset.le_sup (f := fun g => (held p target (g + 1) g).card) (Finset.mem_range.mpr hg)
  · intro hpeak
    refine Nat.le_antisymm (Finset.sup_le fun g hg => ?_) hle
    rw [card_held valid hd (Finset.mem_range.mp hg)]
    exact hpeak g (Finset.mem_range.mp hg)

theorem compaction_recycles_iff_denseSample : ∃ r, makeCompact denseSample .full = .ok r ∧
    (r.prog.numWires.toNat = denseSample.numInputs.toNat +
        (written denseSample 3 ∩ pinned denseSample .full).card + peakInUse denseSample .full ↔
      ∀ g < 3, (inUse denseSample .full g).card + (deadBefore denseSample .full g).card ≤
        peakInUse denseSample .full) :=
  compaction_recycles_iff (by rfl) rfl (Or.inr rfl)

-- gate 0 is never read, so its slot is not handed out again
def deadSample : BooleanProgram where
  numWires := 4
  numInputs := 1
  gates := [⟨0, 0, 1, .not⟩, ⟨0, 0, 2, .not⟩, ⟨2, 0, 3, .not⟩]
  outputs := [3]

theorem compaction_keeps_dead_slot :
    validateProgram deadSample = .ok () ∧ deadSample.wireReuse = .none ∧
      ((makeCompact deadSample .full).toOption.map fun r => r.prog.numWires) = some 4 ∧
      deadSample.numInputs.toNat + (written deadSample 3 ∩ pinned deadSample .full).card +
        peakInUse deadSample .full = 3 :=
  ⟨by rfl, rfl, by rfl, by decide⟩

end Optimality

end EmpTool.Ir
