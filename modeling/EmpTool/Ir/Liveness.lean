import EmpTool.Ir.Transform
import Mathlib.Data.Finset.Card
import Mathlib.Data.Finset.Dedup

namespace EmpTool.Ir

open StraightLine

def ReadFrom (gs : List Gate) (k : Nat) (w : UInt32) : Prop := ∃ g ∈ gs.drop k, w ∈ g.reads

instance (gs : List Gate) (k : Nat) (w : UInt32) : Decidable (ReadFrom gs k w) :=
  inferInstanceAs (Decidable (∃ g ∈ gs.drop k, w ∈ g.reads))

theorem readFrom_iff_getElem? {gs : List Gate} {k : Nat} {w : UInt32} :
    ReadFrom gs k w ↔ ∃ i g, k ≤ i ∧ gs[i]? = some g ∧ w ∈ g.reads := by
  constructor
  · rintro ⟨g, hg, hw⟩
    obtain ⟨i, hi⟩ := List.mem_iff_getElem?.mp hg
    exact ⟨k + i, g, Nat.le_add_right k i, by rwa [List.getElem?_drop] at hi, hw⟩
  · rintro ⟨i, g, hk, hi, hw⟩
    refine ⟨g, List.mem_iff_getElem?.mpr ⟨i - k, ?_⟩, hw⟩
    rwa [List.getElem?_drop, Nat.add_sub_cancel' hk]

theorem readFrom_succ {gs : List Gate} {k : Nat} {g : Gate} (hg : gs[k]? = some g) (w : UInt32) :
    ReadFrom gs k w ↔ w ∈ g.reads ∨ ReadFrom gs (k + 1) w := by
  obtain ⟨hk, rfl⟩ := List.getElem?_eq_some_iff.mp hg
  rw [ReadFrom, List.drop_eq_getElem_cons hk, List.exists_mem_cons_iff]
  rfl

theorem ReadFrom.mono {gs : List Gate} {i j : Nat} {w : UInt32} (h : ReadFrom gs j w)
    (hij : i ≤ j) : ReadFrom gs i w := by
  obtain ⟨k, g, hk, hg⟩ := readFrom_iff_getElem?.mp h
  exact readFrom_iff_getElem?.mpr ⟨k, g, Nat.le_trans hij hk, hg⟩

theorem unread_upto {gs : List Gate} {k : Nat} {D : Set UInt32}
    (hs : gateShape.Scoped D gs) {g : Gate} (hg : gs[k]? = some g)
    (hf : gateShape.Fresh D gs) : ¬ ∃ i h, i ≤ k ∧ gs[i]? = some h ∧ g.out ∈ h.reads := by
  induction gs generalizing k D with
  | nil => simp at hg
  | cons g' gs ih =>
    rintro ⟨i, h, hik, hi, hr⟩
    cases k with
    | zero =>
      obtain rfl : i = 0 := by omega
      cases hg
      cases hi
      exact hf.1 (hs.1 _ hr)
    | succ k =>
      cases i with
      | zero =>
        cases hi
        exact hf.2.out_notMem _ (Set.mem_insert_of_mem _ (hs.1 _ hr))
          (List.mem_map_of_mem (List.mem_of_getElem? hg))
      | succ i => exact ih hs.2 hg hf.2 ⟨i, h, by omega, hi, hr⟩

theorem LastUse.getElem {lastUse : UInt32 → Int} {gs : List Gate} {k : Nat}
    (h : LastUse lastUse k gs) {i : Nat} {g : Gate} (hi : gs[i]? = some g) :
    (∀ w ∈ g.reads, (k + i : Int) ≤ lastUse w) ∧ ∀ w, lastUse w = (k + i : Int) → w ∈ g.reads := by
  induction gs generalizing k i with
  | nil => simp at hi
  | cons g' gs ih =>
    obtain ⟨hle, hmem, hrest⟩ := h
    cases i with
    | zero =>
      cases hi
      simpa using ⟨hle, hmem⟩
    | succ i =>
      have hcast : ((k : Int) + (i + 1 : Nat)) = ((k + 1 : Nat) : Int) + i := by omega
      rw [hcast]
      exact ih hrest hi

theorem livenessGates_lt (gs : List Gate) (k : Nat) (s : LivenessStats)
    (h : ∀ w, s.lastUse w < k) (w : UInt32) :
    (livenessGates k gs s).lastUse w < (k + gs.length : Nat) := by
  induction gs generalizing k s with
  | nil => exact h w
  | cons g gs ih =>
    have hlen : k + (g :: gs).length = k + 1 + gs.length := by
      rw [List.length_cons]
      omega
    rw [hlen]
    refine ih (k + 1) (livenessGate s k g) fun v => ?_
    rw [livenessGate_lastUse]
    have := h v
    split <;> omega

theorem livenessGate_firstDef (s : LivenessStats) (gi : Nat) (g : Gate) :
    (livenessGate s gi g).firstDef = Function.update s.firstDef g.out gi := by
  unfold livenessGate
  split
  · rfl
  · dsimp only
    split <;> rfl

theorem livenessGates_firstDef (gs : List Gate) (k : Nat) (s : LivenessStats) {D : Set UInt32}
    (hf : gateShape.Fresh D gs) (w : UInt32) :
    (w ∉ gs.map Gate.out → (livenessGates k gs s).firstDef w = s.firstDef w) ∧
      ∀ i g, gs[i]? = some g → g.out = w → (livenessGates k gs s).firstDef w = (k + i : Nat) := by
  induction gs generalizing k s D with
  | nil => exact ⟨fun _ => rfl, fun i g hi => by simp at hi⟩
  | cons g gs ih =>
    obtain ⟨hkeep, hdef⟩ := ih (k + 1) (livenessGate s k g) hf.2
    rw [livenessGates]
    constructor
    · intro hw
      rw [List.map_cons, List.mem_cons, not_or] at hw
      rw [hkeep hw.2, livenessGate_firstDef, Function.update_of_ne hw.1]
    · intro i g' hi hout
      cases i with
      | zero =>
        cases hi
        have hlater : w ∉ gs.map Gate.out :=
          hout ▸ hf.2.out_notMem g.out (Set.mem_insert _ _)
        rw [hkeep hlater, livenessGate_firstDef, hout, Function.update_self, Nat.add_zero]
      | succ i =>
        rw [hdef i g' hi hout]
        omega

structure Liveness (p : BooleanProgram) (live : LivenessStats) : Prop where
  last_use : LastUse live.lastUse 0 p.gates
  read_from : ∀ (k : Nat) w, (k : Int) ≤ live.lastUse w ↔ ReadFrom p.gates k w
  producer : ∀ w (i : Nat), live.firstDef w = i ↔ p.gates[i]?.map Gate.out = some w

theorem livenessPass_liveness {p : BooleanProgram} (hv : Valid p) (hd : p.wireReuse = .none) :
    ∃ live, livenessPass p = .ok live ∧ Liveness p live := by
  have hlast := livenessGates_spec p.gates 0 ⟨fun _ => -1, fun _ => -1⟩ (by simp)
  have hlt := livenessGates_lt p.gates 0 ⟨fun _ => -1, fun _ => -1⟩ (by simp)
  have hdef := livenessGates_firstDef p.gates 0 ⟨fun _ => -1, fun _ => -1⟩ (hv.single hd)
  refine ⟨_, livenessPass_eq hv hd, hlast, fun k w => ?_, fun w i => ?_⟩
  · rw [readFrom_iff_getElem?]
    constructor
    · intro hk
      have hw := hlt w
      obtain ⟨i, hi⟩ := Int.eq_ofNat_of_zero_le (Int.le_trans (Int.natCast_nonneg k) hk)
      have hin : i < p.gates.length := by omega
      have hget := List.getElem?_eq_getElem hin
      exact ⟨i, _, by omega, hget, (hlast.getElem hget).2 w (by omega)⟩
    · rintro ⟨i, g, hk, hi, hr⟩
      have := (hlast.getElem hi).1 w hr
      omega
  · constructor
    · intro hi
      by_cases hw : w ∈ p.gates.map Gate.out
      · obtain ⟨g, hg, rfl⟩ := List.mem_map.mp hw
        obtain ⟨j, hj⟩ := List.mem_iff_getElem?.mp hg
        have := (hdef g.out).2 j g hj rfl
        obtain rfl : i = j := by omega
        rw [hj]
        rfl
      · have := (hdef w).1 hw
        dsimp only at this
        omega
    · intro hi
      obtain ⟨g, hg, hout⟩ := Option.map_eq_some_iff.mp hi
      rw [(hdef w).2 i g hg hout, Nat.zero_add]

theorem Liveness.last_use_eq {p : BooleanProgram} {live : LivenessStats} (h : Liveness p live)
    (k : Nat) (w : UInt32) :
    live.lastUse w = k ↔ ReadFrom p.gates k w ∧ ¬ ReadFrom p.gates (k + 1) w := by
  rw [← h.read_from, ← h.read_from]
  omega

theorem mem_freesTable {p : BooleanProgram} {lastUse : UInt32 → Int} {persist : UInt32 → Bool}
    {k : Nat} {w : UInt32} :
    w ∈ freesTable p lastUse persist k ↔
      w < p.numWires ∧ lastUse w = k ∧ persist w = false := by
  rw [freesTable, Table.group_apply, List.mem_filter, decide_eq_true_iff, mem_wireIds]
  refine and_congr_right fun _ => ?_
  constructor
  · intro hkey
    split at hkey
    case isTrue h =>
      have := Option.some.inj hkey
      exact ⟨by omega, h.2⟩
    case isFalse => cases hkey
  · rintro ⟨hk, hno⟩
    rw [if_pos ⟨by omega, hno⟩, hk, Int.toNat_natCast]

def written (p : BooleanProgram) (k : Nat) : Finset UInt32 := ((p.gates.take k).map Gate.out).toFinset

theorem mem_written {p : BooleanProgram} {k : Nat} {w : UInt32} :
    w ∈ written p k ↔ ∃ i g, i < k ∧ p.gates[i]? = some g ∧ g.out = w := by
  rw [written, List.mem_toFinset, List.mem_map]
  constructor
  · rintro ⟨g, hg, hout⟩
    obtain ⟨i, hi⟩ := List.mem_iff_getElem?.mp hg
    rw [List.getElem?_take] at hi
    split at hi
    case isTrue hik => exact ⟨i, g, hik, hi, hout⟩
    case isFalse => cases hi
  · rintro ⟨i, g, hik, hi, hout⟩
    exact ⟨g, List.mem_iff_getElem?.mpr ⟨i, by rw [List.getElem?_take, if_pos hik, hi]⟩, hout⟩

section Written

variable {p : BooleanProgram} {k : Nat} {g : Gate} (hg : p.gates[k]? = some g)

@[simp] theorem written_zero (p : BooleanProgram) : written p 0 = ∅ := by
  simp [written]

include hg

theorem written_succ : written p (k + 1) = insert g.out (written p k) := by
  rw [written, List.take_add_one, hg]
  ext w
  simp [written]

variable (hv : Valid p)

include hv

theorem not_written (hd : p.wireReuse = .none) : g.out ∉ written p k := by
  intro hw
  obtain ⟨i, g', hik, hi, hout⟩ := mem_written.mp hw
  have hnodup : (p.gates.map Gate.out).Nodup := (Shape.fresh_iff.mp (hv.single hd)).2
  have hsame : (p.gates.map Gate.out)[i]? = (p.gates.map Gate.out)[k]? := by
    rw [List.getElem?_map, List.getElem?_map, hi, hg, Option.map_some, Option.map_some, hout]
  have hlt : i < (p.gates.map Gate.out).length := by
    rw [List.length_map]
    exact (List.getElem?_eq_some_iff.mp hi).1
  exact absurd ((List.getElem?_inj hlt hnodup).mp hsame) (Nat.ne_of_lt hik)

theorem reads_written {w : UInt32} (hw : w ∈ g.reads) : w < p.numInputs ∨ w ∈ written p k := by
  obtain ⟨hk, rfl⟩ := List.getElem?_eq_some_iff.mp hg
  have hscoped := hv.well_scoped
  rw [← List.take_append_drop k p.gates, List.drop_eq_getElem_cons hk, Shape.scoped_append]
    at hscoped
  refine (hscoped.2.1 w hw).imp id fun hmem => ?_
  rw [written, List.mem_toFinset]
  exact hmem

theorem readFrom_out (hd : p.wireReuse = .none) :
    ReadFrom p.gates 0 g.out ↔ ReadFrom p.gates k g.out := by
  refine ⟨fun hr => ?_, fun hr => hr.mono (Nat.zero_le k)⟩
  obtain ⟨i, h, -, hi, hw⟩ := readFrom_iff_getElem?.mp hr
  refine readFrom_iff_getElem?.mpr ⟨i, h, ?_, hi, hw⟩
  by_contra hlt
  exact unread_upto hv.well_scoped hg (hv.single hd) ⟨i, h, by omega, hi, hw⟩

end Written

end EmpTool.Ir
