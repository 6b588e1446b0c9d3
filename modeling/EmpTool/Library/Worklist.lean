import Mathlib.Algebra.Ring.Int.Defs
import Mathlib.Algebra.Ring.Nat
import Mathlib.Data.List.Basic
import Mathlib.Logic.Function.Basic

namespace Worklist

variable {ι ν : Type*}

section Reach

variable (owner : ι → Option ν) (succ : ν → List ι)

inductive Reach (roots : List ι) : ν → Prop
  | root {w : ι} {v : ν} (hw : w ∈ roots) (hv : owner w = some v) : Reach roots v
  | step {u v : ν} {w : ι} (hu : Reach roots u) (hw : w ∈ succ u) (hv : owner w = some v) :
      Reach roots v

structure Invariant (roots stack : List ι) (seen : ν → Bool) : Prop where
  seen_reach : ∀ v, seen v = true → Reach owner succ roots v
  stack_reach : ∀ w ∈ stack, ∀ v, owner w = some v → Reach owner succ roots v
  closed : ∀ u, seen u = true → ∀ w ∈ succ u, ∀ v, owner w = some v → seen v = true ∨ w ∈ stack
  rooted : ∀ w ∈ roots, ∀ v, owner w = some v → seen v = true ∨ w ∈ stack

variable {owner succ}

theorem Invariant.complete {roots : List ι} {seen : ν → Bool}
    (h : Invariant owner succ roots [] seen) {v : ν} (hv : Reach owner succ roots v) :
    seen v = true := by
  induction hv with
  | root hw hv => exact (h.rooted _ hw _ hv).resolve_right List.not_mem_nil
  | step _ hw hv ih => exact (h.closed _ ih _ hw _ hv).resolve_right List.not_mem_nil

theorem Invariant.skip {roots stack : List ι} {seen : ν → Bool} {w : ι}
    (h : Invariant owner succ roots (w :: stack) seen)
    (hw : ∀ v, owner w = some v → seen v = true) : Invariant owner succ roots stack seen :=
  have settled {x : ι} {v : ν} (hx : owner x = some v) (hs : seen v = true ∨ x ∈ w :: stack) :
      seen v = true ∨ x ∈ stack := by
    rcases hs with hs | hs
    · exact Or.inl hs
    · rcases List.mem_cons.mp hs with rfl | hs
      · exact Or.inl (hw v hx)
      · exact Or.inr hs
  { seen_reach := h.seen_reach
    stack_reach := fun x hx => h.stack_reach x (List.mem_cons_of_mem _ hx)
    closed := fun u hu x hx v hv => settled hv (h.closed u hu x hx v hv)
    rooted := fun x hx v hv => settled hv (h.rooted x hx v hv) }

end Reach

section Search

variable [DecidableEq ν] (owner : ι → Option ν) (succ : ν → List ι)

def search : Nat → List ι → (ν → Bool) → ν → Bool
  | 0, _, seen => seen
  | _ + 1, [], seen => seen
  | fuel + 1, w :: stack, seen =>
      match owner w with
      | none => search fuel stack seen
      | some v =>
          if seen v then search fuel stack seen
          else search fuel ((succ v).reverse ++ stack) (Function.update seen v true)

variable {owner succ}

theorem Invariant.visit {roots stack : List ι} {seen : ν → Bool} {w : ι} {v : ν}
    (h : Invariant owner succ roots (w :: stack) seen) (hw : owner w = some v) :
    Invariant owner succ roots ((succ v).reverse ++ stack) (Function.update seen v true) := by
  have hv : Reach owner succ roots v := h.stack_reach w (List.mem_cons_self ..) v hw
  have moved {x : ι} {u : ν} (hx : owner x = some u) (hs : seen u = true ∨ x ∈ w :: stack) :
      Function.update seen v true u = true ∨ x ∈ (succ v).reverse ++ stack := by
    rw [Function.update_apply]
    rcases hs with hs | hs
    · left
      split <;> simp_all
    · rcases List.mem_cons.mp hs with rfl | hs
      · rw [hw] at hx
        simp_all
      · exact Or.inr (List.mem_append_right _ hs)
  constructor
  · intro u hu
    rw [Function.update_apply] at hu
    split at hu
    · simp_all
    · exact h.seen_reach u hu
  · intro x hx u hu
    rcases List.mem_append.mp hx with hx | hx
    · exact .step hv (List.mem_reverse.mp hx) hu
    · exact h.stack_reach x (List.mem_cons_of_mem _ hx) u hu
  · intro u hu x hx t ht
    rw [Function.update_apply] at hu
    split at hu
    · rename_i heq
      subst heq
      exact Or.inr (List.mem_append_left _ (List.mem_reverse.mpr hx))
    · exact moved ht (h.closed u hu x hx t ht)
  · intro x hx u hu
    exact moved hu (h.rooted x hx u hu)

theorem unseen_visit {nodes : List ν} {seen : ν → Bool} {v : ν} (hv : v ∈ nodes)
    (hs : seen v = false) :
    nodes.countP (fun u => !Function.update seen v true u) + 1 ≤ nodes.countP fun u => !seen u := by
  have mono (l : List ν) :
      l.countP (fun u => !Function.update seen v true u) ≤ l.countP fun u => !seen u := by
    apply List.countP_mono_left
    intro u _ hu
    rw [Function.update_apply] at hu
    split at hu <;> simp_all
  obtain ⟨pre, post, rfl⟩ := List.append_of_mem hv
  have hpre := mono pre
  have hpost := mono post
  simp only [List.countP_append, List.countP_cons, Function.update_self, hs, Bool.not_true,
    Bool.not_false]
  simp only [Bool.false_eq_true, if_false, if_true]
  omega

theorem search_spec (nodes : List ν) (b : Nat) (hnodes : ∀ w v, owner w = some v → v ∈ nodes)
    (hb : ∀ v, (succ v).length ≤ b) {roots : List ι} (fuel : Nat) {stack : List ι}
    {seen : ν → Bool} (h : Invariant owner succ roots stack seen)
    (hfuel : stack.length + b * nodes.countP (fun u => !seen u) ≤ fuel) (v : ν) :
    search owner succ fuel stack seen v = true ↔ Reach owner succ roots v := by
  induction fuel generalizing stack seen with
  | zero =>
    obtain rfl : stack = [] := List.eq_nil_of_length_eq_zero (by omega)
    exact ⟨h.seen_reach v, h.complete⟩
  | succ fuel ih =>
    cases stack with
    | nil => exact ⟨h.seen_reach v, h.complete⟩
    | cons w stack =>
      simp only [List.length_cons] at hfuel
      simp only [search]
      cases hw : owner w with
      | none => exact ih (h.skip fun v hv => by simp [hw] at hv) (by omega)
      | some u =>
        simp only
        split
        · rename_i hu
          refine ih (h.skip fun v hv => ?_) (by omega)
          rw [hw] at hv
          exact Option.some.inj hv ▸ hu
        · rename_i hu
          refine ih (h.visit hw) ?_
          have hless := unseen_visit (hnodes w u hw) (Bool.eq_false_iff.mpr hu)
          have hmul := Nat.mul_le_mul_left b hless
          have hsucc := hb u
          rw [Nat.mul_add, Nat.mul_one] at hmul
          simp only [List.length_append, List.length_reverse]
          omega

end Search

section Flood

variable [DecidableEq ι] (succ : ι → List ι)

inductive Closure (roots : List ι) : ι → Prop
  | root {w : ι} (hw : w ∈ roots) : Closure roots w
  | step {u w : ι} (hu : Closure roots u) (hw : w ∈ succ u) : Closure roots w

-- a node is marked when it is pushed, so it is pushed once
def visit (s : List ι × (ι → Bool)) (v : ι) : List ι × (ι → Bool) :=
  if s.2 v then s else (v :: s.1, Function.update s.2 v true)

def flood : Nat → List ι × (ι → Bool) → ι → Bool
  | 0, s => s.2
  | _ + 1, ([], seen) => seen
  | fuel + 1, (w :: stack, seen) => flood fuel ((succ w).foldl visit (stack, seen))

structure Flooded (roots : List ι) (s : List ι × (ι → Bool)) : Prop where
  sound : ∀ w, s.2 w = true → Closure succ roots w
  on_stack : ∀ w ∈ s.1, s.2 w = true
  closed : ∀ u, s.2 u = true → u ∉ s.1 → ∀ w ∈ succ u, s.2 w = true
  rooted : ∀ w ∈ roots, s.2 w = true

variable {succ}

theorem foldl_visit_seen (vs : List ι) (s : List ι × (ι → Bool)) (w : ι) :
    (vs.foldl visit s).2 w = true ↔ s.2 w = true ∨ w ∈ vs := by
  induction vs generalizing s with
  | nil => simp
  | cons v vs ih =>
    have hvisit : (visit s v).2 w = true ↔ s.2 w = true ∨ w = v := by
      rw [visit]
      split
      case isTrue hv => exact ⟨Or.inl, fun h => h.elim id fun he => he ▸ hv⟩
      case isFalse hv =>
        dsimp only
        rw [Function.update_apply]
        split
        case isTrue he => exact ⟨fun _ => Or.inr he, fun _ => rfl⟩
        case isFalse he => exact ⟨Or.inl, fun h => h.resolve_right he⟩
    rw [List.foldl_cons, ih, hvisit, List.mem_cons, or_assoc]

theorem foldl_visit_stack (vs : List ι) (s : List ι × (ι → Bool)) (w : ι) :
    w ∈ (vs.foldl visit s).1 ↔ w ∈ s.1 ∨ w ∈ vs ∧ s.2 w = false := by
  induction vs generalizing s with
  | nil => simp
  | cons v vs ih =>
    rw [List.foldl_cons, ih, visit]
    split
    case isTrue hv =>
      have hne : s.2 w = false → w ≠ v := fun hw he => by
        rw [he, hv] at hw
        cases hw
      rw [List.mem_cons]
      exact ⟨fun h => h.imp id fun h => ⟨Or.inr h.1, h.2⟩,
        fun h => h.imp id fun h => ⟨h.1.resolve_left (hne h.2), h.2⟩⟩
    case isFalse hv =>
      rw [Bool.not_eq_true] at hv
      dsimp only
      rw [Function.update_apply, List.mem_cons, List.mem_cons]
      by_cases he : w = v
      · simp [he, hv]
      · simp [he]

theorem foldl_visit_room (nodes : List ι) (vs : List ι) (hvs : ∀ v ∈ vs, v ∈ nodes)
    (s : List ι × (ι → Bool)) :
    (vs.foldl visit s).1.length + nodes.countP (fun u => !(vs.foldl visit s).2 u) ≤
      s.1.length + nodes.countP fun u => !s.2 u := by
  induction vs generalizing s with
  | nil => exact Nat.le_refl _
  | cons v vs ih =>
    obtain ⟨hv, hvs⟩ := List.forall_mem_cons.mp hvs
    rw [List.foldl_cons]
    refine Nat.le_trans (ih hvs (visit s v)) ?_
    rw [visit]
    split
    case isTrue => exact Nat.le_refl _
    case isFalse hs =>
      have hless := unseen_visit hv (Bool.not_eq_true _ ▸ hs)
      dsimp only [List.length_cons]
      omega

theorem flooded_start (roots : List ι) :
    Flooded succ roots (roots.foldl visit ([], fun _ => false)) := by
  have hseen (w : ι) := foldl_visit_seen roots ([], fun _ => false) w
  have hstack (w : ι) := foldl_visit_stack roots ([], fun _ => false) w
  simp only [Bool.false_eq_true, false_or] at hseen
  simp only [List.not_mem_nil, false_or, and_true] at hstack
  refine ⟨fun w hw => .root ((hseen w).mp hw), fun w hw => (hseen w).mpr ((hstack w).mp hw),
    fun u hu hnot => ?_, fun w hw => (hseen w).mpr hw⟩
  exact absurd ((hstack u).mpr ((hseen u).mp hu)) hnot

theorem Flooded.pop {roots stack : List ι} {seen : ι → Bool} {w : ι}
    (h : Flooded succ roots (w :: stack, seen)) :
    Flooded succ roots ((succ w).foldl visit (stack, seen)) := by
  have hw : seen w = true := h.on_stack w List.mem_cons_self
  have hseen (v : ι) := foldl_visit_seen (succ w) (stack, seen) v
  have hstack (v : ι) := foldl_visit_stack (succ w) (stack, seen) v
  dsimp only at hseen hstack
  refine ⟨fun v hv => ?_, fun v hv => (hseen v).mpr ?_, fun u hu hnot v hv => (hseen v).mpr ?_,
    fun v hv => (hseen v).mpr (Or.inl (h.rooted v hv))⟩
  · rcases (hseen v).mp hv with hv | hv
    · exact h.sound v hv
    · exact .step (h.sound w hw) hv
  · rcases (hstack v).mp hv with hv | hv
    · exact Or.inl (h.on_stack v (List.mem_cons_of_mem w hv))
    · exact Or.inr hv.1
  · rw [hstack, not_or] at hnot
    by_cases hsu : seen u = true
    · -- `u` is the popped node, or its operands were marked before
      by_cases huw : u = w
      · exact Or.inr (huw ▸ hv)
      · have hold : u ∉ w :: stack := by
          rw [List.mem_cons, not_or]
          exact ⟨huw, hnot.1⟩
        exact Or.inl (h.closed u hsu hold v hv)
    · have hnew := ((hseen u).mp hu).resolve_left hsu
      exact absurd ⟨hnew, Bool.not_eq_true _ ▸ hsu⟩ hnot.2

omit [DecidableEq ι] in
theorem Flooded.complete {roots : List ι} {seen : ι → Bool} (h : Flooded succ roots ([], seen))
    (w : ι) : seen w = true ↔ Closure succ roots w := by
  refine ⟨h.sound w, fun hw => ?_⟩
  induction hw with
  | root hw => exact h.rooted _ hw
  | step _ hw ih => exact h.closed _ ih List.not_mem_nil _ hw

theorem flood_spec (nodes : List ι) {roots : List ι}
    (hnodes : ∀ u, Closure succ roots u → ∀ w ∈ succ u, w ∈ nodes) (fuel : Nat)
    {s : List ι × (ι → Bool)} (h : Flooded succ roots s)
    (hfuel : s.1.length + nodes.countP (fun u => !s.2 u) ≤ fuel) (w : ι) :
    flood succ fuel s w = true ↔ Closure succ roots w := by
  induction fuel generalizing s with
  | zero =>
    obtain ⟨stack, seen⟩ := s
    obtain rfl : stack = [] := List.eq_nil_of_length_eq_zero (by dsimp only at hfuel; omega)
    exact h.complete w
  | succ fuel ih =>
    obtain ⟨_ | ⟨v, stack⟩, seen⟩ := s
    · exact h.complete w
    · have hv := h.sound v (h.on_stack v List.mem_cons_self)
      have hroom := foldl_visit_room nodes (succ v) (hnodes v hv) (stack, seen)
      dsimp only [List.length_cons] at hfuel hroom
      exact ih h.pop (by omega)

end Flood

end Worklist
