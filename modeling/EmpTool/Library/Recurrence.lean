import Mathlib.Data.List.Range

namespace Recurrence

variable {α β : Type}

def grow (next : Nat → List α → α) : Nat → List α
  | 0 => []
  | n + 1 =>
    let w := grow next n
    w ++ [next n w]

@[simp] theorem length_grow (next : Nat → List α → α) (n : Nat) : (grow next n).length = n := by
  induction n with
  | zero => rfl
  | succ n ih => rw [grow, List.length_append, ih, List.length_singleton]

theorem getD_map_range (w : Nat → α) {i n : Nat} (hi : i < n) (d : α) :
    ((List.range n).map w).getD i d = w i := by
  rw [List.getD_eq_getElem?_getD, List.getElem?_map, List.getElem?_range hi]
  rfl

theorem getD_map_of_lt (φ : α → β) {l : List α} {i : Nat} (hi : i < l.length) (a : α) (b : β) :
    (l.map φ).getD i b = φ (l.getD i a) := by
  rw [List.getD_eq_getElem?_getD, List.getD_eq_getElem?_getD, List.getElem?_map,
    List.getElem?_eq_getElem hi]
  rfl

theorem grow_eq {next : Nat → List α → α} {w : Nat → α} {n : Nat}
    (h : ∀ i < n, w i = next i ((List.range i).map w)) : grow next n = (List.range n).map w := by
  induction n with
  | zero => rfl
  | succ n ih =>
    rw [grow, ih fun i hi => h i (Nat.lt_succ_of_lt hi), List.range_succ, List.map_append,
      List.map_singleton, h n (Nat.lt_succ_self n)]

theorem map_grow {next : Nat → List α → α} {next' : Nat → List β → β} (φ : α → β)
    (h : ∀ i l, l.length = i → φ (next i l) = next' i (l.map φ)) (n : Nat) :
    (grow next n).map φ = grow next' n := by
  induction n with
  | zero => rfl
  | succ n ih => rw [grow, grow, List.map_append, ih, List.map_singleton,
      h n _ (length_grow next n), ih]

end Recurrence
