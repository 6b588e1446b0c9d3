import EmpTool.Session.ChunkedSession
import Mathlib.Data.Set.Card

namespace EmpTool.Session

open Ir

noncomputable def handleCount (wires : Nat → Option UInt32) (id : UInt32) : Nat :=
  {h | wires h = some id}.ncard

theorem handleCount_update {wires : Nat → Option UInt32} (hf : {h | wires h ≠ none}.Finite)
    (h : Nat) (v : Option UInt32) (id : UInt32) :
    (handleCount (Function.update wires h v) id : Int) =
      handleCount wires id + (if v = some id then 1 else 0) - if wires h = some id then 1 else 0 := by
  have hfin : {x | wires x = some id}.Finite := hf.subset fun x hx => by simp_all
  have hrest : {x | Function.update wires h v x = some id} =
      if v = some id then insert h ({x | wires x = some id} \ {h})
      else {x | wires x = some id} \ {h} := by
    ext x
    cases Nat.decEq x h with
    | isTrue hx => subst hx; split <;> simp_all
    | isFalse hx => split <;> simp_all
  have hdiff : (({x | wires x = some id} \ {h}).ncard : Int) =
      {x | wires x = some id}.ncard - if wires h = some id then 1 else 0 := by
    split
    · rename_i hw
      have := Set.ncard_sdiff_singleton_add_one (a := h) hw hfin
      omega
    · rename_i hw
      rw [Set.sdiff_singleton_eq_self (by simpa using hw)]
      omega
  rw [handleCount, hrest]
  split
  · rw [Set.ncard_insert_of_notMem (by simp) (hfin.subset Set.sdiff_subset)]
    simp only [handleCount, Nat.cast_add, hdiff]
    omega
  · simp only [handleCount, hdiff]
    omega

theorem finite_update {wires : Nat → Option UInt32} (hf : {h | wires h ≠ none}.Finite) (h : Nat)
    (v : Option UInt32) : {x | Function.update wires h v x ≠ none}.Finite := by
  refine (hf.insert h).subset fun x hx => ?_
  cases Nat.decEq x h with
  | isTrue heq => exact Or.inl heq
  | isFalse hne => exact Or.inr (by simpa [hne] using hx)

def held (v : Option UInt32) (id : UInt32) : Int := if v = some id ∧ id ≠ 0 then 1 else 0

theorem held_bounds (v : Option UInt32) (id : UInt32) : 0 ≤ held v id ∧ held v id ≤ 1 := by
  rw [held]
  split
  · exact ⟨Int.zero_le_ofNat 1, Int.le_refl 1⟩
  · exact ⟨Int.le_refl 0, Int.zero_le_ofNat 1⟩

@[simp] theorem held_none (id : UInt32) : held none id = 0 :=
  if_neg nofun

@[simp] theorem held_moved (id : UInt32) : held (some 0) id = 0 :=
  if_neg fun h => h.2 (Option.some.inj h.1).symm

theorem held_some (i id : UInt32) : held (some i) id = if id = i ∧ i ≠ 0 then 1 else 0 := by
  by_cases h : id = i
  · simp [held, h]
  · simp [held, h, Ne.symm h]

-- the count of an id is the number of wires that hold it; the null id is not counted
def Counted (rc : UInt32 → Int) (wires : Nat → Option UInt32) : Prop :=
  ∀ id, rc id = if id = 0 then 0 else (handleCount wires id : Int)

namespace Counted

variable {rc : UInt32 → Int} {wires : Nat → Option UInt32} (h : Counted rc wires)

include h

theorem nonneg (id : UInt32) : 0 ≤ rc id := by
  rw [h]
  split
  case isTrue h0 => rfl
  case isFalse h0 => exact Int.natCast_nonneg _

theorem eq_zero {id : UInt32} (hfree : id ≠ 0 → ∀ x, wires x ≠ some id) : rc id = 0 := by
  rw [h]
  split
  case isTrue h0 => rfl
  case isFalse h0 =>
    have hempty : {x | wires x = some id} = ∅ :=
      Set.eq_empty_iff_forall_notMem.mpr (hfree h0)
    rw [handleCount, hempty, Set.ncard_empty]
    rfl

theorem pos_iff (hf : {x | wires x ≠ none}.Finite) {id : UInt32} (h0 : id ≠ 0) :
    0 < rc id ↔ ∃ x, wires x = some id := by
  have hfin : {x | wires x = some id}.Finite := hf.subset fun x hx => by simp_all
  rw [h, if_neg h0, handleCount, Int.natCast_pos]
  exact Set.ncard_pos hfin

theorem update (hf : {x | wires x ≠ none}.Finite) {rc' : UInt32 → Int} (x : Nat)
    (v : Option UInt32) (hrc : ∀ id, rc' id = rc id + held v id - held (wires x) id) :
    Counted rc' (Function.update wires x v) := by
  intro id
  have hcount := handleCount_update hf x v id
  rw [hrc, h]
  split
  case isTrue h0 => simp [held, h0]
  case isFalse h0 =>
    simp only [held, h0, ne_eq, not_false_eq_true, and_true]
    omega

-- the source lets go of its id as the destination takes it, so no count rises
theorem transfer (hf : {x | wires x ≠ none}.Finite) {rc' : UInt32 → Int} {dst src : Nat}
    {id : UInt32} (hs : wires src = some id) (hne : dst ≠ src)
    (hrc : ∀ x, rc' x = rc x - held (wires dst) x) :
    Counted rc' (Function.update (Function.update wires dst (some id)) src (some 0)) := by
  have first := h.update hf src (some 0) fun x => rfl
  have second : Counted rc' _ :=
    first.update (finite_update hf src (some 0)) dst (some id) fun x => by
      rw [Function.update_of_ne hne, hrc, hs, held_moved]
      omega
  rw [Function.update_comm hne.symm] at second
  exact second

end Counted

namespace ChunkRecorderCtx

theorem adjust_ok (d : Int) {c : ChunkRecorderCtx} {id : UInt32} (h0 : -2 ^ 31 ≤ c.rc id + d)
    (h1 : c.rc id + d < 2 ^ 31) :
    (if id = 0 then pure c else do
      let n ← addInt (c.rc id) d
      pure { c with rc := Function.update c.rc id n } : Except String ChunkRecorderCtx) =
      .ok { c with rc := fun x => c.rc x + if x = id ∧ id ≠ 0 then d else 0 } := by
  split
  · rename_i h
    simp [h, pure, Except.pure]
  · rename_i h
    simp only [bind_eq_ok, addInt_ok, pure_eq_ok]
    refine ⟨_, ⟨⟨h0, h1⟩, rfl⟩, ?_⟩
    congr 1
    funext x
    rw [Function.update_apply]
    split <;> simp_all

theorem pin_ok {c : ChunkRecorderCtx} {id : UInt32} (h0 : 0 ≤ c.rc id) (h1 : c.rc id + 1 < 2 ^ 31) :
    c.pin id = .ok { c with rc := fun x => c.rc x + if x = id ∧ id ≠ 0 then 1 else 0 } :=
  adjust_ok 1 (by omega) (by omega)

theorem unpin_ok {c : ChunkRecorderCtx} {id : UInt32} (h0 : 0 ≤ c.rc id)
    (h1 : c.rc id < 2 ^ 31) :
    c.unpin id = .ok { c with rc := fun x => c.rc x - if x = id ∧ id ≠ 0 then 1 else 0 } := by
  refine (adjust_ok (-1) (by omega) (by omega)).trans ?_
  congr 2
  funext x
  split <;> rfl

theorem count_cons_pinned {id : UInt32} (h : id ≠ 0) (ids : List UInt32) (x : UInt32) :
    ((id :: ids).count x : Int) = ids.count x + if x = id ∧ id ≠ 0 then 1 else 0 := by
  rw [List.count_cons]
  by_cases hx : x = id
  · simp [hx, h]
  · simp [hx, Ne.symm hx]

theorem pinAll_ok (ids : List UInt32) {c : ChunkRecorderCtx} (h0 : ∀ id ∈ ids, id ≠ 0)
    (h1 : ∀ id ∈ ids, 0 ≤ c.rc id ∧ c.rc id + ids.count id < 2 ^ 31) :
    pinAll ids c = .ok { c with rc := fun x => c.rc x + ids.count x } := by
  induction ids generalizing c with
  | nil => simp [pinAll, pure, Except.pure]
  | cons id ids ih =>
    rw [List.forall_mem_cons] at h0
    have hid := h1 id (by simp)
    rw [List.count_cons_self] at hid
    rw [pinAll, pin_ok hid.1 (by omega)]
    refine (ih h0.2 fun x hx => ?_).trans ?_
    · have hx := h1 x (List.mem_cons_of_mem id hx)
      rw [count_cons_pinned h0.1] at hx
      simp only
      by_cases hp : x = id ∧ id ≠ 0
      · rw [if_pos hp] at hx ⊢
        omega
      · rw [if_neg hp] at hx ⊢
        omega
    · congr 2
      funext x
      rw [count_cons_pinned h0.1]
      simp only
      omega

theorem unpinAll_ok (ids : List UInt32) {c : ChunkRecorderCtx} (h0 : ∀ id ∈ ids, id ≠ 0)
    (h1 : ∀ id ∈ ids, (ids.count id : Int) ≤ c.rc id ∧ c.rc id < 2 ^ 31) :
    unpinAll ids c = .ok { c with rc := fun x => c.rc x - ids.count x } := by
  induction ids generalizing c with
  | nil => simp [unpinAll, pure, Except.pure]
  | cons id ids ih =>
    rw [List.forall_mem_cons] at h0
    have hid := h1 id (by simp)
    rw [List.count_cons_self] at hid
    rw [unpinAll, unpin_ok (by omega) hid.2]
    refine (ih h0.2 fun x hx => ?_).trans ?_
    · have hx := h1 x (List.mem_cons_of_mem id hx)
      rw [count_cons_pinned h0.1] at hx
      simp only
      by_cases hp : x = id ∧ id ≠ 0
      · rw [if_pos hp] at hx ⊢
        omega
      · rw [if_neg hp] at hx ⊢
        omega
    · congr 2
      funext x
      rw [count_cons_pinned h0.1]
      simp only
      omega

theorem pinAll_unpinAll (ids : List UInt32) {c : ChunkRecorderCtx} (h0 : ∀ id ∈ ids, id ≠ 0)
    (h1 : ∀ id ∈ ids, 0 ≤ c.rc id ∧ c.rc id + ids.count id < 2 ^ 31) :
    pinAll ids c >>= unpinAll ids = .ok c := by
  rw [pinAll_ok ids h0 h1]
  refine (unpinAll_ok ids h0 fun id hid => ?_).trans ?_
  · have := h1 id hid
    simp only
    omega
  · simp

end ChunkRecorderCtx

end EmpTool.Session
