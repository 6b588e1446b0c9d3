import EmpTool.Ir.Execute

namespace EmpTool.Ir

open StraightLine

def renumberGate (loc : UInt32 → UInt32) (g : Gate) : Gate := g.rename loc (loc g.out)

theorem renumberGate_renaming (loc : UInt32 → UInt32) :
    Renaming gateShape gateShape loc (renumberGate loc) where
  reads g := Gate.rename_reads loc _ g
  out _ := rfl

def renumbered (ins : List UInt32) (live : List Gate) (outs : List UInt32) (loc : UInt32 → UInt32) :
    BooleanProgram where
  numWires := UInt32.ofNat (ins.length + live.length)
  numInputs := UInt32.ofNat ins.length
  gates := live.map (renumberGate loc)
  outputs := outs.map loc

structure Numbering (ins : List UInt32) (live : List Gate) (loc : UInt32 → UInt32) : Prop where
  nodup : (ins ++ live.map Gate.out).Nodup
  fits : ins.length + live.length < 2 ^ 32
  numbered : ∀ k w, (ins ++ live.map Gate.out)[k]? = some w → loc w = UInt32.ofNat k
  well_scoped : gateShape.Scoped {w | w ∈ ins} live

namespace Numbering

variable {ins : List UInt32} {live : List Gate} {loc : UInt32 → UInt32} (h : Numbering ins live loc)

theorem mem_defined {w : UInt32} :
    w ∈ gateShape.defined {w | w ∈ ins} live ↔ w ∈ ins ++ live.map Gate.out := by
  rw [List.mem_append]
  rfl

include h

theorem index {w : UInt32} (hw : w ∈ ins ++ live.map Gate.out) :
    ∃ k, (ins ++ live.map Gate.out)[k]? = some w ∧ k < ins.length + live.length ∧
      (loc w).toNat = k := by
  obtain ⟨k, hk⟩ := List.mem_iff_getElem?.mp hw
  have hlt : k < ins.length + live.length := by
    simpa using (List.getElem?_eq_some_iff.mp hk).1
  refine ⟨k, hk, hlt, ?_⟩
  rw [h.numbered k w hk]
  exact toNat_ofNat (Nat.lt_trans hlt h.fits)

theorem injOn : Set.InjOn loc (gateShape.defined {w | w ∈ ins} live) := by
  intro v hv w hw heq
  obtain ⟨i, hi, -, hli⟩ := h.index (mem_defined.mp hv)
  obtain ⟨j, hj, -, hlj⟩ := h.index (mem_defined.mp hw)
  obtain rfl : i = j := by rw [← hli, ← hlj, heq]
  exact Option.some.inj (hi.symm.trans hj)

theorem fresh : gateShape.Fresh {w | w ∈ ins} live := by
  have hn := List.nodup_append.mp h.nodup
  exact Shape.fresh_iff.mpr
    ⟨fun g hg hi => hn.2.2 _ hi _ (List.mem_map_of_mem hg) rfl, hn.2.1⟩

theorem inputs_image (outs : List UInt32) :
    (renumbered ins live outs loc).inputs = loc '' {w | w ∈ ins} := by
  have hn : (UInt32.ofNat ins.length).toNat = ins.length := toNat_ofNat (by have := h.fits; omega)
  ext x
  simp only [BooleanProgram.inputs, renumbered, Set.mem_ofPred_eq, UInt32.lt_iff_toNat_lt, hn,
    Set.mem_image]
  constructor
  · intro hx
    refine ⟨ins[x.toNat], List.getElem_mem hx, ?_⟩
    rw [h.numbered x.toNat _ (by rw [List.getElem?_append_left hx]; simp [hx]), UInt32.ofNat_toNat]
  · rintro ⟨w, hw, rfl⟩
    obtain ⟨k, hk⟩ := List.mem_iff_getElem?.mp hw
    have hlt := (List.getElem?_eq_some_iff.mp hk).1
    rw [h.numbered k w (by rw [List.getElem?_append_left hlt, hk]),
      toNat_ofNat (by have := h.fits; omega)]
    exact hlt

theorem valid {outs : List UInt32} (ho : ∀ w ∈ outs, w ∈ ins ++ live.map Gate.out) :
    Valid (renumbered ins live outs loc) := by
  have hfits := h.fits
  have hn : (UInt32.ofNat ins.length).toNat = ins.length := toNat_ofNat (by omega)
  have hw : (UInt32.ofNat (ins.length + live.length)).toNat = ins.length + live.length :=
    toNat_ofNat hfits
  have hdef := h.inputs_image outs
  have fresh := (renumberGate_renaming loc).fresh_image h.fresh h.injOn
  rw [← hdef] at fresh
  constructor
  · rw [UInt32.le_iff_toNat_le]
    simp only [renumbered, hn, hw]
    omega
  · intro _
    simp only [renumbered, hn, hw, List.length_map]
    omega
  · exact fun hr => absurd rfl hr
  · intro g hg
    obtain ⟨g, -, rfl⟩ := List.mem_map.mp hg
    exact Gate.rename_canonical _ _ _
  · intro g hg
    constructor
    · exact UInt32.not_lt.mp ((Shape.fresh_iff.mp fresh).1 g hg)
    · obtain ⟨g', hg', rfl⟩ := List.mem_map.mp hg
      obtain ⟨k, -, hk, hl⟩ := h.index (List.mem_append_right _ (List.mem_map_of_mem hg'))
      rw [UInt32.lt_iff_toNat_lt]
      simp only [renumbered, renumberGate, Gate.rename_out, hw]
      omega
  · rw [hdef]
    exact (renumberGate_renaming loc).scoped_image h.well_scoped
  · exact fun _ => fresh
  · intro x hx
    obtain ⟨w, hw, rfl⟩ := List.mem_map.mp hx
    rw [hdef]
    rcases List.mem_append.mp (ho w hw) with hi | hi
    · exact Or.inl (Set.mem_image_of_mem loc hi)
    · right
      have := (renumberGate_renaming loc).map_out live
      change loc w ∈ (live.map (renumberGate loc)).map gateShape.out
      rw [this]
      exact List.mem_map_of_mem hi

theorem evaluate {Wire : Type} [Inhabited Wire] {outs : List UInt32}
    (ho : ∀ w ∈ outs, w ∈ ins ++ live.map Gate.out) (ops : GateOps Wire) {sol : UInt32 → Wire}
    (hsol : (gateMachine ops).Solves sol live) :
    (renumbered ins live outs loc).evaluate ops (ins.map sol) = outs.map sol := by
  have start : Agrees {w | w ∈ ins} loc sol (inputEnv (ins.map sol)) := by
    intro w hw
    obtain ⟨k, hk⟩ := List.mem_iff_getElem?.mp hw
    have hlt := (List.getElem?_eq_some_iff.mp hk).1
    rw [h.numbered k w (by rw [List.getElem?_append_left hlt, hk]), inputEnv,
      toNat_ofNat (by have := h.fits; omega)]
    simp [hk]
  have run := Renaming.run_solution (M := gateMachine ops) (N := gateMachine ops)
    (renumberGate_renaming loc) (fun g e => gateMachine_rename ops loc _ g e) hsol h.well_scoped
    h.injOn start
  rw [BooleanProgram.evaluate]
  simp only [renumbered, List.map_map]
  refine List.map_congr_left fun w hw => ?_
  exact run w (mem_defined.mpr (ho w hw))

end Numbering

end EmpTool.Ir
