import EmpTool.Ir.Compaction

namespace EmpTool.Ir

open StraightLine

theorem Allocator.alloc_persist (a : Allocator) : (a.alloc true).1 = a.next := by
  rw [Allocator.alloc]
  split <;> rfl

section Assignment

variable {n : UInt32} {persist : UInt32 → Bool} {lastUse : UInt32 → Int}
  {frees : Nat → List UInt32}

structure SlotsAssigned (persist : UInt32 → Bool) (D : Set UInt32) (a : Allocator)
    (gs ngs : List Gate) (b : Allocator) : Prop where
  nid_eq : ∀ w ∈ D, b.nid w = a.nid w
  renamed : ngs = gs.map fun g => g.rename b.nid (b.nid g.out)
  fresh : ∀ g ∈ gs, persist g.out = true → a.next ≤ b.nid g.out
  pinned : ∀ w ∈ gateShape.defined D gs, persist w = true → ∀ g ∈ gs,
    b.nid g.out = b.nid w → g.out = w
  no_self : ∀ g ∈ gs, ∀ w ∈ g.reads, b.nid w ≠ b.nid g.out

theorem compactGates_slots (hp : ∀ w, w < n → persist w = true)
    (hfree : ∀ k, ∀ w ∈ frees k, lastUse w = k ∧ persist w = false)
    (hnodup : ∀ k, (frees k).Nodup) (gs : List Gate) {k : Nat} {D D' : Set UInt32} {a : Allocator}
    (h : Allocated n persist lastUse k D D' a) (hs : gateShape.Scoped D gs)
    (hf : gateShape.Fresh D gs) (hl : LastUse lastUse k gs)
    (hnext : a.next.toNat + gs.length < 2 ^ 32) :
    SlotsAssigned persist D a gs (compactGates persist frees k gs a).1
      (compactGates persist frees k gs a).2 := by
  induction gs generalizing k D D' a with
  | nil => exact ⟨fun _ _ => rfl, rfl, nofun, fun _ _ _ => nofun, nofun⟩
  | cons g gs ih =>
    simp only [List.length_cons] at hnext
    obtain ⟨out, b, hg, hnid, ht, hb⟩ :=
      h.compactGate hp hfree hnodup hs.1 hf.1 hl.2.1 (by omega)
    have hle := ht.le_next
    have hge := ht.next_le
    have hlt := ht.out_lt
    simp only at hle hge hlt
    have rest := ih hb hs.2 hf.2 hl.2.2 (by omega)
    obtain ⟨ngs, c, hc⟩ : ∃ ngs c, compactGates persist frees (k + 1) gs b = (ngs, c) :=
      ⟨_, _, rfl⟩
    rw [hc] at rest
    dsimp only at rest
    have hcons : compactGates persist frees k (g :: gs) a = (g.rename a.nid out :: ngs, c) := by
      simp only [compactGates, hg, hc]
    rw [hcons]
    dsimp only
    have hout : c.nid g.out = out := by
      rw [rest.nid_eq _ (Set.mem_insert _ _), hnid, Function.update_self]
    have hold : ∀ w ∈ D, c.nid w = a.nid w := fun w hw => by
      have hne : w ≠ g.out := fun he => hf.1 (by rwa [he] at hw)
      rw [rest.nid_eq _ (Set.mem_insert_of_mem _ hw), hnid, Function.update_of_ne hne]
    refine ⟨hold, ?_, ?_, ?_, ?_⟩
    · have hren := Gate.rename_congr (g := g) (fun w hw => hold w (hs.1 w hw)) out
      rw [List.map_cons, hout, hren, ← rest.renamed]
    · refine List.forall_mem_cons.mpr ⟨fun hpers => ?_, fun g' hg' hpers => ?_⟩
      · have halloc : out = (a.alloc (persist g.out)).1 := (congrArg (fun x => x.1.out) hg).symm
        rw [hout, halloc, hpers, Allocator.alloc_persist]
        exact UInt32.le_refl _
      · exact UInt32.le_trans (UInt32.le_iff_toNat_le.mpr hle) (rest.fresh g' hg' hpers)
    · intro w hw hpers
      rw [Shape.defined_cons] at hw
      refine List.forall_mem_cons.mpr ⟨fun heq => ?_, rest.pinned w hw hpers⟩
      rw [hout] at heq
      rcases hw with (rfl | hD) | hlater
      · rfl
      · rw [hold w hD] at heq
        exact absurd heq.symm (ht.out_dead w ⟨hD, Or.inl hpers⟩)
      · -- a pinned slot of a later gate is above all slots handed out before
        obtain ⟨g', hg', rfl⟩ := List.mem_map.mp hlater
        have habove : b.next ≤ out := by
          rw [heq]
          exact rest.fresh g' hg' hpers
        exact absurd habove (UInt32.not_le.mpr hlt)
    · refine List.forall_mem_cons.mpr ⟨fun w hw => ?_, rest.no_self⟩
      rw [hout, hold w (hs.1 w hw)]
      exact ht.out_dead w ⟨hs.1 w hw, Or.inr (hl.1 w hw)⟩

end Assignment

def Writes (id : UInt32) (g : Gate) : Bool := g.out = id

structure CompactStructure (p : BooleanProgram) (target : WireReuse) (r : CompactResult) :
    Prop where
  and_once : target = .linear → ∀ g ∈ r.prog.gates, g.isAnd = true →
    r.prog.gates.countP (Writes g.out) = 1
  no_self : ∀ g ∈ r.prog.gates, g.out ∉ g.reads
  no_input : ∀ id, id < r.prog.numInputs → ∀ g ∈ r.prog.gates, g.out ≠ id
  output_once : ∀ id ∈ r.prog.outputs, r.prog.gates.countP (Writes id) ≤ 1
  renamed : r.prog.gates = p.gates.map fun g => g.rename r.nid (r.nid g.out)

theorem persistMask_ands {p : BooleanProgram} :
    ∀ g ∈ p.gates, g.isAnd = true → persistMask p .linear g.out = true := by
  intro g hg hand
  rw [persistMask, if_pos rfl, Table.mark_iff]
  exact Or.inr (List.mem_map_of_mem (List.mem_filter.mpr ⟨hg, hand⟩))

theorem SlotsAssigned.writes_once {persist : UInt32 → Bool} {D : Set UInt32} {a b : Allocator}
    {gs ngs : List Gate} (h : SlotsAssigned persist D a gs ngs b) (hf : gateShape.Fresh D gs)
    {w : UInt32} (hw : w ∈ gateShape.defined D gs) (hpers : persist w = true) :
    ngs.countP (Writes (b.nid w)) ≤ 1 := by
  have hnodup : (gs.map Gate.out).Nodup := (Shape.fresh_iff.mp hf).2
  calc ngs.countP (Writes (b.nid w))
      = gs.countP fun g => decide (b.nid g.out = b.nid w) := by
        rw [h.renamed, List.countP_map]
        rfl
    _ ≤ gs.countP fun g => decide (g.out = w) :=
        List.countP_mono_left fun g hg heq => by
          rw [decide_eq_true_iff] at heq ⊢
          exact h.pinned w hw hpers g hg heq
    _ = (gs.map Gate.out).count w := by
        rw [List.count, List.countP_map]
        rfl
    _ ≤ 1 := List.nodup_iff_count_le_one.mp hnodup w

theorem make_compact_structure {p : BooleanProgram} (hv : validateProgram p = .ok ())
    (hd : p.wireReuse = .none) {target : WireReuse} (ht : target = .linear ∨ target = .full) :
    ∃ r, makeCompact p target = .ok r ∧ CompactStructure p target r := by
  have valid := validateProgram_ok_iff.mp hv
  have hne : target ≠ .none := by rcases ht with rfl | rfl <;> simp
  obtain ⟨r, hr, -, -, hvr, -⟩ := makeCompact_spec valid hd hne
  refine ⟨r, hr, ?_⟩
  obtain ⟨live, hlive, hlu⟩ := livenessPass_spec valid hd
  obtain rfl := makeCompact_eq hlive hr
  have hfrees := freesTable_spec p live.lastUse (persistMask p target)
  have H := compactGates_slots (persistMask_inputs p target) (fun k => (hfrees k).2)
    (fun k => (hfrees k).1) p.gates
    (start_allocated p.numInputs (persistMask p target) live.lastUse fun _ => 4294967295)
    valid.well_scoped (valid.single hd) hlu (start_room valid hd _)
  obtain ⟨ngs, b, hc, hren⟩ := renumber_run valid hd target live
  rw [hc] at H
  dsimp only at H
  rw [hren] at hvr ⊢
  have hgate (g : Gate) (hg : g ∈ ngs) :
      ∃ g' ∈ p.gates, g = g'.rename b.nid (b.nid g'.out) := by
    obtain ⟨g', hg', rfl⟩ := List.mem_map.mp (H.renamed ▸ hg)
    exact ⟨g', hg', rfl⟩
  refine ⟨fun hlin g hg hand => ?_, fun g hg hself => ?_, fun id hid g hg heq => ?_,
    fun id hid => ?_, H.renamed⟩
  · obtain ⟨g', hg', rfl⟩ := hgate g hg
    subst hlin
    have hdef : g'.out ∈ gateShape.defined p.inputs p.gates := Or.inr (List.mem_map_of_mem hg')
    have hone := H.writes_once (valid.single hd) hdef (persistMask_ands g' hg' hand)
    have hpos : 0 < ngs.countP (Writes (b.nid g'.out)) :=
      List.countP_pos_iff.mpr ⟨_, hg, decide_eq_true rfl⟩
    exact Nat.le_antisymm hone hpos
  · obtain ⟨g', hg', rfl⟩ := hgate g hg
    rw [Gate.rename_reads, Gate.rename_out] at hself
    obtain ⟨w, hw, heq⟩ := List.mem_map.mp hself
    exact H.no_self g' hg' w hw heq
  · exact absurd (heq ▸ hid) (UInt32.not_lt.mpr (hvr.range g hg).1)
  · obtain ⟨w, hw, rfl⟩ := List.mem_map.mp hid
    exact H.writes_once (valid.single hd) (valid.outputs_defined w hw)
      (persistMask_outputs valid target w hw)

theorem make_compact_structure_denseSample :
    ∃ r, makeCompact denseSample .linear = .ok r ∧ CompactStructure denseSample .linear r :=
  make_compact_structure (by rfl) rfl (Or.inl rfl)

end EmpTool.Ir
