import EmpTool.Ir.Uncompaction
import Mathlib.Data.List.Perm.Subperm

namespace EmpTool.Ir

open StraightLine

def EmittedInOrder (p : BooleanProgram) : Prop := (p.gates.map Gate.out).IsChain (· ≤ ·)

instance (p : BooleanProgram) : Decidable (EmittedInOrder p) :=
  inferInstanceAs (Decidable (List.IsChain _ _))

theorem eq_range'_of_ascending {n : Nat} {l : List Nat} (h : l.Pairwise (· < ·))
    (hr : ∀ x ∈ l, n ≤ x ∧ x < n + l.length) : l = List.range' n l.length := by
  have hnodup : l.Nodup := h.imp Nat.ne_of_lt
  have hsub : l ⊆ List.range' n l.length := fun x hx => List.mem_range'_1.mpr (hr x hx)
  have hperm : l.Perm (List.range' n l.length) :=
    (List.Nodup.subperm hnodup hsub).perm_of_length_le (by rw [List.length_range'])
  exact hperm.eq_of_pairwise (fun x y _ _ hxy hyx => absurd hxy (Nat.lt_asymm hyx)) h
    List.pairwise_lt_range'

theorem outsFrom_iff {n : UInt32} {gs : List Gate} :
    OutsFrom n gs ↔ gs.map (fun g => g.out.toNat) = List.range' n.toNat gs.length := by
  rw [List.ext_getElem?_iff]
  constructor
  · intro h i
    rw [List.getElem?_map]
    by_cases hi : i < gs.length
    · rw [List.getElem?_range' hi, Nat.one_mul, List.getElem?_eq_getElem hi, Option.map_some,
        h i _ (List.getElem?_eq_getElem hi)]
    · rw [List.getElem?_eq_none (by omega), List.getElem?_eq_none (by simp; omega)]
      rfl
  · intro h i g hg
    have hi := (List.getElem?_eq_some_iff.mp hg).1
    have hout := h i
    rw [List.getElem?_map, hg, List.getElem?_range' hi, Nat.one_mul] at hout
    exact Option.some.inj hout

theorem outsFrom_iff_inOrder {p : BooleanProgram} (hv : Valid p) (hd : p.wireReuse = .none) :
    OutsFrom p.numInputs p.gates ↔ EmittedInOrder p := by
  have hcount := hv.dense_count hd
  have hnodup : (p.gates.map Gate.out).Nodup := (Shape.fresh_iff.mp (hv.single hd)).2
  rw [outsFrom_iff, EmittedInOrder, List.isChain_iff_pairwise]
  constructor
  · intro h
    have hlt : (p.gates.map fun g => g.out.toNat).Pairwise (· < ·) := by
      rw [h]
      exact List.pairwise_lt_range'
    exact List.pairwise_map.mpr ((List.pairwise_map.mp hlt).imp fun h => Nat.le_of_lt h)
  · intro h
    have hlt : (p.gates.map fun g => g.out.toNat).Pairwise (· < ·) := by
      refine List.pairwise_map.mpr ((List.pairwise_map.mp (h.and hnodup)).imp ?_)
      rintro g g' ⟨hle, hne⟩
      exact UInt32.lt_iff_toNat_lt.mp (UInt32.lt_of_le_of_ne hle hne)
    have hlen : (p.gates.map fun g => g.out.toNat).length = p.gates.length := List.length_map _
    have hrange := eq_range'_of_ascending (n := p.numInputs.toNat) hlt fun x hx => by
      obtain ⟨g, hg, rfl⟩ := List.mem_map.mp hx
      obtain ⟨hge, hout⟩ := hv.range g hg
      rw [UInt32.le_iff_toNat_le] at hge
      rw [UInt32.lt_iff_toNat_lt] at hout
      omega
    rwa [hlen] at hrange

theorem Gate.rename_self {g : Gate} (hc : g.Canonical) : g.rename (fun w => w) g.out = g := by
  rcases g with ⟨in0, in1, o, op⟩
  cases op <;> simp_all [Gate.rename, Gate.Canonical, Gate.isConst, Gate.isNot]

theorem uncompactGates_self (gs : List Gate) {D : Set UInt32} {cur : UInt32 → UInt32}
    {next : UInt32} (hs : gateShape.Scoped D gs) (hc : ∀ g ∈ gs, g.Canonical)
    (hnum : Numbered next gs) (hcur : ∀ w ∈ D, cur w = w) :
    ∃ cur', uncompactGates gs cur next = (gs, cur', next + UInt32.ofNat gs.length) ∧
      ∀ w ∈ gateShape.defined D gs, cur' w = w := by
  induction gs generalizing D cur next with
  | nil => exact ⟨cur, by simp [uncompactGates], by simpa using hcur⟩
  | cons g gs ih =>
    obtain ⟨rfl, hnum⟩ := hnum
    have hkeep : g.rename cur g.out = g := by
      rw [Gate.rename_congr (fun w hw => hcur w (hs.1 w hw))]
      exact Gate.rename_self (hc g List.mem_cons_self)
    have hstep : ∀ w ∈ insert g.out D, Function.update cur g.out g.out w = w := by
      intro w hw
      by_cases hwo : w = g.out
      · rw [hwo, Function.update_self]
      · rw [Function.update_of_ne hwo, hcur w (hw.resolve_left hwo)]
    obtain ⟨cur', hrest, hcur'⟩ := ih hs.2 (fun g' hg' => hc g' (List.mem_cons_of_mem g hg')) hnum
      hstep
    refine ⟨cur', ?_, ?_⟩
    · rw [uncompactGates, hrest, hkeep, List.length_cons, Nat.add_comm gs.length,
        UInt32.ofNat_add, ← UInt32.add_assoc]
      rfl
    · rw [Shape.defined_cons]
      exact hcur'

theorem uncompact_self {p : BooleanProgram} (hv : Valid p) (hd : p.wireReuse = .none)
    (hnum : OutsFrom p.numInputs p.gates) : uncompact p = .ok p := by
  have hcount := hv.dense_count hd
  have hle := UInt32.le_iff_toNat_le.mp hv.inputs_le
  have hlt := p.numWires.toNat_lt
  obtain ⟨cur, hstart, own⟩ := numberInputs_start p.numInputs
  obtain ⟨cur', hgates, hcur'⟩ := uncompactGates_self p.gates hv.well_scoped hv.canonical
    (numbered_of_outs hnum) own
  have houts : p.outputs.map cur' = p.outputs :=
    (List.map_congr_left fun w hw => hcur' w (hv.outputs_defined w hw)).trans (List.map_id _)
  have hwires : p.numInputs + UInt32.ofNat p.gates.length = p.numWires := by
    rw [← UInt32.toNat_inj, UInt32.toNat_add, UInt32.toNat_ofNat']
    omega
  have hp : (⟨p.numWires, p.numInputs, .none, p.gates, p.outputs⟩ : BooleanProgram) = p := by
    rw [← hd]
  simp only [uncompact, validateProgram_ok_iff.mpr hv, bind, Except.bind]
  simp only [hstart, hgates, houts, hwires, hp, validateProgram_ok_iff.mpr hv]
  rfl

theorem dense_canonical_iff {p : BooleanProgram} (hv : validateProgram p = .ok ())
    (hd : p.wireReuse = .none) :
    (∀ i g, p.gates[i]? = some g → g.out.toNat = p.numInputs.toNat + i) ∧ uncompact p = .ok p ↔
      EmittedInOrder p := by
  have valid := validateProgram_ok_iff.mp hv
  rw [← outsFrom_iff_inOrder valid hd]
  exact ⟨fun h => h.1, fun h => ⟨h, uncompact_self valid hd h⟩⟩

theorem dense_canonical_iff_denseSample :
    (∀ i g, denseSample.gates[i]? = some g → g.out.toNat = denseSample.numInputs.toNat + i) ∧
      uncompact denseSample = .ok denseSample :=
  (dense_canonical_iff (by rfl) rfl).mpr (by decide)

def swappedSample : BooleanProgram where
  numWires := 3
  numInputs := 1
  gates := [⟨0, 0, 2, .not⟩, ⟨0, 0, 1, .not⟩]
  outputs := [2]

def renumberedSample : BooleanProgram :=
  { swappedSample with gates := [⟨0, 0, 1, .not⟩, ⟨0, 0, 2, .not⟩], outputs := [1] }

theorem dense_ids_out_of_order :
    validateProgram swappedSample = .ok () ∧ swappedSample.wireReuse = .none ∧
      ¬ (∀ i g, swappedSample.gates[i]? = some g →
        g.out.toNat = swappedSample.numInputs.toNat + i) ∧
      uncompact swappedSample ≠ .ok swappedSample := by
  have hmoved : uncompact swappedSample = .ok renumberedSample := by rfl
  refine ⟨by rfl, rfl, fun h => ?_, fun h => ?_⟩
  · exact absurd (h 0 ⟨0, 0, 2, .not⟩ rfl) (by decide)
  · rw [hmoved] at h
    exact absurd (Except.ok.inj h) (by decide)

end EmpTool.Ir
