import EmpTool.Library.Memory
import Mathlib.Logic.Basic

namespace Memory

variable {α ι : Type} {target : Nat → α} {R S : Nat → Prop}

structure Fills (target : Nat → α) (R : Nat → Prop) (step : (Nat → α) → Nat → α) : Prop where
  inside : ∀ mem a, R a → step mem a = target a
  outside : ∀ mem a, ¬ R a → step mem a = mem a

theorem fills_nothing : Fills target (fun _ => False) fun mem => mem where
  inside _ _ h := h.elim
  outside _ _ _ := rfl

theorem Fills.congr {step : (Nat → α) → Nat → α} (h : Fills target R step)
    (hregion : ∀ a, S a ↔ R a) : Fills target S step where
  inside mem a ha := h.inside mem a ((hregion a).mp ha)
  outside mem a ha := h.outside mem a fun hR => ha ((hregion a).mpr hR)

theorem Fills.unique {f g : (Nat → α) → Nat → α} (hf : Fills target R f) (hg : Fills target R g)
    (mem : Nat → α) : f mem = g mem := by
  funext a
  by_cases hR : R a
  · rw [hf.inside mem a hR, hg.inside mem a hR]
  · rw [hf.outside mem a hR, hg.outside mem a hR]

theorem Fills.comp_state {σ : Type} {f : (Nat → α) → σ × (Nat → α)} {g : σ → (Nat → α) → Nat → α}
    (hf : Fills target R fun mem => (f mem).2) (hg : ∀ s, Fills target S (g s)) :
    Fills target (fun a => R a ∨ S a) fun mem => g (f mem).1 (f mem).2 where
  inside mem a ha := by
    by_cases hS : S a
    · exact (hg _).inside _ a hS
    · rw [(hg _).outside _ a hS]
      exact hf.inside mem a (ha.resolve_right hS)
  outside mem a ha := by
    rw [(hg _).outside _ a fun hS => ha (Or.inr hS)]
    exact hf.outside mem a fun hR => ha (Or.inl hR)

theorem Fills.comp {f g : (Nat → α) → Nat → α} (hf : Fills target R f) (hg : Fills target S g) :
    Fills target (fun a => R a ∨ S a) fun mem => g (f mem) :=
  Fills.comp_state (f := fun mem => ((), f mem)) hf fun _ => hg

theorem fills_storeRange {n dst : Nat} {v : Nat → α} (h : ∀ i < n, v i = target (dst + i)) :
    Fills target (fun a => dst ≤ a ∧ a < dst + n) (storeRange n dst v) where
  inside mem a ha := by
    rw [storeRange, if_pos ha, h _ (by omega), Nat.add_sub_cancel' ha.1]
  outside mem a ha := if_neg ha

theorem fills_foldl {region : ι → Nat → Prop} {step : ι → (Nat → α) → Nat → α} (l : List ι)
    (h : ∀ i ∈ l, Fills target (region i) (step i)) :
    Fills target (fun a => ∃ i ∈ l, region i a) fun mem =>
      l.foldl (fun mem i => step i mem) mem := by
  induction l with
  | nil =>
    refine fills_nothing.congr fun a => ?_
    simp only [List.not_mem_nil, false_and, exists_false]
  | cons i l ih =>
    have hrest := ih fun j hj => h j (List.mem_cons_of_mem i hj)
    refine ((h i List.mem_cons_self).comp hrest).congr fun a => ?_
    simp only [List.mem_cons, exists_eq_or_imp]

theorem fills_foldl_state {σ : Type} {region : ι → Nat → Prop}
    {step : ι → σ × (Nat → α) → σ × (Nat → α)} (l : List ι)
    (h : ∀ i ∈ l, ∀ s, Fills target (region i) fun mem => (step i (s, mem)).2) (s : σ) :
    Fills target (fun a => ∃ i ∈ l, region i a) fun mem =>
      (l.foldl (fun s i => step i s) (s, mem)).2 := by
  have hboth (mem : Nat → α) (a : Nat) :
      ((∃ i ∈ l, region i a) → (l.foldl (fun s i => step i s) (s, mem)).2 a = target a) ∧
      ((¬ ∃ i ∈ l, region i a) → (l.foldl (fun s i => step i s) (s, mem)).2 a = mem a) := by
    induction l generalizing s mem with
    | nil =>
      constructor
      · rintro ⟨i, hi, _⟩
        exact absurd hi List.not_mem_nil
      · exact fun _ => rfl
    | cons i l ih =>
      have hfirst := h i List.mem_cons_self s
      obtain ⟨hin, hout⟩ := ih (fun j hj => h j (List.mem_cons_of_mem i hj)) (step i (s, mem)).1
        (step i (s, mem)).2
      simp only [List.mem_cons, exists_eq_or_imp, List.foldl_cons]
      by_cases hrest : ∃ j ∈ l, region j a
      · exact ⟨fun _ => hin hrest, fun hno => absurd (Or.inr hrest) hno⟩
      · constructor
        · intro hcover
          exact (hout hrest).trans (hfirst.inside mem a (hcover.resolve_right hrest))
        · intro hno
          exact (hout hrest).trans (hfirst.outside mem a fun hi => hno (Or.inl hi))
  exact ⟨fun mem a => (hboth mem a).1, fun mem a => (hboth mem a).2⟩

theorem fills_range {region : Nat → Nat → Prop} {step : Nat → (Nat → α) → Nat → α} {n : Nat}
    (h : ∀ i < n, Fills target (region i) (step i)) :
    Fills target (fun a => ∃ i < n, region i a) fun mem =>
      (List.range n).foldl (fun mem i => step i mem) mem := by
  refine (fills_foldl (List.range n) fun i hi => h i (List.mem_range.mp hi)).congr fun a => ?_
  simp only [List.mem_range]

end Memory
