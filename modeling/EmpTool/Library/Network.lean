import Mathlib.Data.List.Nodup
import Mathlib.Data.List.Range
import Mathlib.Logic.Equiv.Basic
import Mathlib.Order.Lattice

namespace Network

variable {α β γ : Type*} [LinearOrder α] [LinearOrder γ]

def exchange (key : β → α) (x : Nat → β) (c : Nat × Nat) : Nat → β :=
  if key (x c.2) < key (x c.1) then x ∘ Equiv.swap c.1 c.2 else x

def run (key : β → α) (net : List (Nat × Nat)) (x : Nat → β) : Nat → β :=
  net.foldl (exchange key) x

def Inside (n : Nat) (net : List (Nat × Nat)) : Prop := ∀ c ∈ net, c.1 < n ∧ c.2 < n

def Ordered (n : Nat) (x : Nat → α) : Prop := ∀ i j, i ≤ j → j < n → x i ≤ x j

def Apart (c d : Nat × Nat) : Prop := c.1 ≠ d.1 ∧ c.1 ≠ d.2 ∧ c.2 ≠ d.1 ∧ c.2 ≠ d.2

theorem run_append (key : β → α) (net net' : List (Nat × Nat)) (x : Nat → β) :
    run key (net ++ net') x = run key net' (run key net x) := List.foldl_append

section Exchange

theorem exchange_of_lt {key : β → α} {x : Nat → β} {c : Nat × Nat}
    (h : key (x c.2) < key (x c.1)) : exchange key x c = x ∘ Equiv.swap c.1 c.2 := if_pos h

theorem exchange_of_le {key : β → α} {x : Nat → β} {c : Nat × Nat}
    (h : key (x c.1) ≤ key (x c.2)) : exchange key x c = x := if_neg (not_lt.mpr h)

theorem exchange_left (key : β → α) (x : Nat → β) (c : Nat × Nat) :
    exchange key x c c.1 = if key (x c.2) < key (x c.1) then x c.2 else x c.1 := by
  unfold exchange
  split
  case isTrue _ => exact congrArg x (Equiv.swap_apply_left _ _)
  case isFalse _ => rfl

theorem exchange_right (key : β → α) (x : Nat → β) (c : Nat × Nat) :
    exchange key x c c.2 = if key (x c.2) < key (x c.1) then x c.1 else x c.2 := by
  unfold exchange
  split
  case isTrue _ => exact congrArg x (Equiv.swap_apply_right _ _)
  case isFalse _ => rfl

theorem exchange_fst (x : Nat → α) (c : Nat × Nat) :
    exchange id x c c.1 = min (x c.1) (x c.2) := by
  rw [exchange_left, min_comm, min_def_lt]
  rfl

theorem exchange_snd (x : Nat → α) (c : Nat × Nat) :
    exchange id x c c.2 = max (x c.1) (x c.2) := by
  rw [exchange_right, max_comm, max_def_lt]
  rfl

theorem exchange_of_ne (key : β → α) (x : Nat → β) {c : Nat × Nat} {m : Nat} (h1 : m ≠ c.1)
    (h2 : m ≠ c.2) : exchange key x c m = x m := by
  unfold exchange
  split
  case isTrue _ => rw [Function.comp_apply, Equiv.swap_apply_of_ne_of_ne h1 h2]
  case isFalse _ => rfl

omit [LinearOrder γ] in
theorem comp_exchange (key : β → α) (f : γ → β) (x : Nat → γ) (c : Nat × Nat) :
    f ∘ exchange (key ∘ f) x c = exchange key (f ∘ x) c := by
  rcases lt_or_ge (key (f (x c.2))) (key (f (x c.1))) with h | h
  · rw [exchange_of_lt (x := x) h, exchange_of_lt (x := f ∘ x) h]
    rfl
  · rw [exchange_of_le (x := x) h, exchange_of_le (x := f ∘ x) h]

theorem exchange_monotone {f : α → γ} (hf : Monotone f) (x : Nat → α) (c : Nat × Nat) :
    exchange id (f ∘ x) c = f ∘ exchange id x c := by
  rcases lt_or_ge (x c.2) (x c.1) with hx | hx
  · rw [exchange_of_lt (x := x) hx]
    rcases lt_or_ge (f (x c.2)) (f (x c.1)) with hfx | hfx
    · rw [exchange_of_lt (x := f ∘ x) hfx]
      rfl
    · -- through `f` the two places look alike
      rw [exchange_of_le (x := f ∘ x) hfx]
      have heq : f (x c.1) = f (x c.2) := le_antisymm hfx (hf hx.le)
      funext m
      simp only [Function.comp_apply, Equiv.swap_apply_def]
      split_ifs with h1 h2
      · rw [h1, heq]
      · rw [h2, heq]
      · rfl
  · rw [exchange_of_le (x := x) hx, exchange_of_le (x := f ∘ x) (hf hx)]

theorem swap_lt_iff {n i j : Nat} (hi : i < n) (hj : j < n) (m : Nat) :
    Equiv.swap i j m < n ↔ m < n := by
  rw [Equiv.swap_apply_def]
  split_ifs with h1 h2
  · exact iff_of_true hj (h1 ▸ hi)
  · exact iff_of_true hi (h2 ▸ hj)
  · exact Iff.rfl

theorem exchange_perm (key : β → α) {n : Nat} (x : Nat → β) {c : Nat × Nat} (h1 : c.1 < n)
    (h2 : c.2 < n) : ((List.range n).map (exchange key x c)).Perm ((List.range n).map x) := by
  unfold exchange
  split
  case isFalse _ => exact List.Perm.refl _
  case isTrue _ =>
    have hswap : ((List.range n).map (Equiv.swap c.1 c.2)).Perm (List.range n) := by
      refine (List.perm_ext_iff_of_nodup ?_ List.nodup_range).mpr fun m => ?_
      · exact List.nodup_range.map (Equiv.injective _)
      · rw [List.mem_map, List.mem_range, ← swap_lt_iff h1 h2]
        constructor
        · rintro ⟨a, ha, rfl⟩
          rw [Equiv.swap_apply_self]
          exact List.mem_range.mp ha
        · exact fun h => ⟨_, List.mem_range.mpr h, Equiv.swap_apply_self _ _ m⟩
    rw [← List.map_map]
    exact hswap.map x

end Exchange

omit [LinearOrder γ] in
theorem comp_run (key : β → α) (f : γ → β) (net : List (Nat × Nat)) (x : Nat → γ) :
    f ∘ run (key ∘ f) net x = run key net (f ∘ x) := by
  induction net generalizing x with
  | nil => rfl
  | cons c net ih => rw [run, List.foldl_cons, ← run, ih, comp_exchange]; rfl

theorem run_monotone {f : α → γ} (hf : Monotone f) (net : List (Nat × Nat)) (x : Nat → α) :
    run id net (f ∘ x) = f ∘ run id net x := by
  induction net generalizing x with
  | nil => rfl
  | cons c net ih => rw [run, List.foldl_cons, ← run, exchange_monotone hf, ih]; rfl

theorem run_perm (key : β → α) {n : Nat} {net : List (Nat × Nat)} (h : Inside n net)
    (x : Nat → β) : ((List.range n).map (run key net x)).Perm ((List.range n).map x) := by
  induction net generalizing x with
  | nil => exact List.Perm.refl _
  | cons c net ih =>
    obtain ⟨hc, hnet⟩ := List.forall_mem_cons.mp h
    exact (ih hnet _).trans (exchange_perm key x hc.1 hc.2)

theorem run_of_ne (key : β → α) {net : List (Nat × Nat)} {m : Nat}
    (h : ∀ c ∈ net, m ≠ c.1 ∧ m ≠ c.2) (x : Nat → β) : run key net x m = x m := by
  induction net generalizing x with
  | nil => rfl
  | cons c net ih =>
    obtain ⟨hc, hnet⟩ := List.forall_mem_cons.mp h
    exact (ih hnet _).trans (exchange_of_ne key x hc.1 hc.2)

theorem run_layer {net : List (Nat × Nat)} (h : net.Pairwise Apart) {c : Nat × Nat} (hc : c ∈ net)
    (x : Nat → α) :
    run id net x c.1 = min (x c.1) (x c.2) ∧ run id net x c.2 = max (x c.1) (x c.2) := by
  induction net generalizing x with
  | nil => exact nomatch hc
  | cons d net ih =>
    obtain ⟨hd, hnet⟩ := List.pairwise_cons.mp h
    rw [run, List.foldl_cons, ← run]
    rcases List.mem_cons.mp hc with rfl | hc
    · rw [run_of_ne id fun e he => ⟨(hd e he).1, (hd e he).2.1⟩,
        run_of_ne id fun e he => ⟨(hd e he).2.2.1, (hd e he).2.2.2⟩]
      exact ⟨exchange_fst x c, exchange_snd x c⟩
    · obtain ⟨h11, h12, h21, h22⟩ := hd c hc
      have hih := ih hnet hc (exchange id x d)
      rwa [exchange_of_ne id x h11.symm h21.symm, exchange_of_ne id x h12.symm h22.symm] at hih

theorem run_congr (key : β → α) {n : Nat} {net : List (Nat × Nat)} (h : Inside n net)
    {x y : Nat → β} (hxy : ∀ m < n, x m = y m) : ∀ m < n, run key net x m = run key net y m := by
  induction net generalizing x y with
  | nil => exact hxy
  | cons c net ih =>
    obtain ⟨⟨h1, h2⟩, hnet⟩ := List.forall_mem_cons.mp h
    refine ih hnet fun m hm => ?_
    rcases lt_or_ge (key (x c.2)) (key (x c.1)) with hlt | hle
    · have hlt' := hlt
      rw [hxy _ h1, hxy _ h2] at hlt'
      rw [exchange_of_lt hlt, exchange_of_lt hlt']
      exact hxy _ ((swap_lt_iff h1 h2 m).mpr hm)
    · have hle' := hle
      rw [hxy _ h1, hxy _ h2] at hle'
      rw [exchange_of_le hle, exchange_of_le hle']
      exact hxy m hm

-- it is enough to order the bits, and those with only ones beyond the places in use
theorem zero_one {n : Nat} {net : List (Nat × Nat)} (hnet : Inside n net)
    (h : ∀ b : Nat → Bool, (∀ m, n ≤ m → b m = true) → Ordered n (run id net b)) (x : Nat → α) :
    Ordered n (run id net x) := by
  intro i j hij hj
  let f (a : α) : Bool := decide (run id net x i ≤ a)
  have hf : Monotone f := fun a a' haa hle => by
    rw [decide_eq_true_iff] at hle ⊢
    exact hle.trans haa
  let b (m : Nat) : Bool := if m < n then f (x m) else true
  have hb (m : Nat) (hm : m < n) : run id net b m = f (run id net x m) := by
    have hbelow : ∀ m < n, b m = (f ∘ x) m := fun m hm => if_pos hm
    rw [run_congr id hnet hbelow m hm, run_monotone hf]
    rfl
  have hi : f (run id net x i) = true := decide_eq_true le_rfl
  have hle := h b (fun m hm => if_neg (not_lt.mpr hm)) i j hij hj
  rw [hb i (lt_of_le_of_lt hij hj), hb j hj, hi] at hle
  exact of_decide_eq_true (Bool.eq_true_of_true_le hle)

theorem foldlM_run {σ ε : Type*} {R : σ → (Nat → β) → Prop} {step : σ → Nat × Nat → Except ε σ}
    (key : β → α) {net : List (Nat × Nat)}
    (hstep : ∀ s x, ∀ c ∈ net, R s x → ∃ s', step s c = .ok s' ∧ R s' (exchange key x c)) {s : σ}
    {x : Nat → β} (h : R s x) : ∃ s', net.foldlM step s = .ok s' ∧ R s' (run key net x) := by
  induction net generalizing s x with
  | nil => exact ⟨s, rfl, h⟩
  | cons c net ih =>
    obtain ⟨s1, h1, hR1⟩ := hstep s x c List.mem_cons_self h
    obtain ⟨s2, h2, hR2⟩ := ih (fun s x d hd => hstep s x d (List.mem_cons_of_mem c hd)) hR1
    refine ⟨s2, ?_, hR2⟩
    rw [List.foldlM_cons, h1]
    exact h2

end Network
