import Mathlib.Algebra.Ring.Int.Defs
import Mathlib.Algebra.Ring.Nat
import Mathlib.Data.List.Induction
import Mathlib.Logic.Function.Basic

namespace Table

variable {κ α : Type*} [DecidableEq κ]

def mark (t : κ → Bool) (ks : List κ) : κ → Bool :=
  ks.foldl (fun t k => Function.update t k true) t

theorem mark_iff (t : κ → Bool) (ks : List κ) (k : κ) :
    mark t ks k = true ↔ t k = true ∨ k ∈ ks := by
  induction ks generalizing t with
  | nil => simp [mark]
  | cons a ks ih =>
    change mark (Function.update t a true) ks k = true ↔ _
    rw [ih]
    by_cases h : k = a
    · simp [h]
    · simp [h]

def group (key : α → Option κ) (xs : List α) : κ → List α :=
  xs.foldl (fun t x => match key x with
    | none => t
    | some k => Function.update t k (t k ++ [x])) fun _ => []

theorem group_apply (key : α → Option κ) (xs : List α) (k : κ) :
    group key xs k = xs.filter fun x => key x = some k := by
  have acc (t : κ → List α) :
      (xs.foldl (fun t x => match key x with
        | none => t
        | some k => Function.update t k (t k ++ [x])) t) k =
      t k ++ xs.filter fun x => key x = some k := by
    induction xs generalizing t with
    | nil => simp
    | cons x xs ih =>
      rw [List.foldl_cons, ih]
      cases hx : key x with
      | none => simp [hx]
      | some k' =>
        by_cases hk : k = k'
        · simp [hk, hx]
        · simp [hk, hx, Ne.symm hk]
  simpa [group] using acc fun _ => []

def index (key : α → κ) (xs : List α) : κ → Option Nat :=
  xs.zipIdx.foldl (fun t x => Function.update t (key x.1) (some x.2)) fun _ => none

theorem index_append (key : α → κ) (xs : List α) (x : α) :
    index key (xs ++ [x]) = Function.update (index key xs) (key x) (some xs.length) := by
  simp [index, List.zipIdx_append]

theorem index_eq_some {key : α → κ} {xs : List α} (h : (xs.map key).Nodup) {k : κ} {i : Nat} :
    index key xs k = some i ↔ xs[i]?.map key = some k := by
  induction xs using List.reverseRecOn with
  | nil => simp [index]
  | append_singleton xs x ih =>
    rw [List.map_append, List.nodup_append] at h
    have ih := ih h.1
    have hx (j : Nat) (hj : xs[j]?.map key = some (key x)) : False := by
      obtain ⟨y, hy, hk⟩ := Option.map_eq_some_iff.mp hj
      exact h.2.2 _ (List.mem_map_of_mem (List.mem_of_getElem? hy)) _ (by simp) hk
    rw [index_append, Function.update_apply, List.getElem?_append]
    split
    · rename_i hk
      subst hk
      split
      · rename_i hi
        exact ⟨fun he => by simp at he; omega, fun hj => (hx i hj).elim⟩
      · rename_i hi
        rw [Option.some.injEq]
        constructor
        · rintro rfl
          simp
        · intro hj
          obtain ⟨y, hy, -⟩ := Option.map_eq_some_iff.mp hj
          have := (List.getElem?_eq_some_iff.mp hy).1
          simp only [List.length_singleton] at this
          omega
    · rename_i hk
      rw [ih]
      split
      · rfl
      · rename_i hi
        rw [List.getElem?_eq_none (by omega)]
        refine ⟨fun he => by simp at he, fun hj => ?_⟩
        obtain ⟨y, hy, hky⟩ := Option.map_eq_some_iff.mp hj
        obtain rfl : y = x := by simpa using List.mem_of_getElem? hy
        exact absurd hky.symm hk

def write (t : κ → α) (ks : List κ) (vs : List α) : κ → α :=
  (ks.zip vs).foldl (fun t x => Function.update t x.1 x.2) t

theorem write_cons (t : κ → α) (k : κ) (ks : List κ) (v : α) (vs : List α) :
    write t (k :: ks) (v :: vs) = write (Function.update t k v) ks vs := rfl

theorem write_of_notMem {t : κ → α} {ks : List κ} {k : κ} (h : k ∉ ks) (vs : List α) :
    write t ks vs k = t k := by
  induction ks generalizing t vs with
  | nil => rfl
  | cons a ks ih =>
    rw [List.mem_cons, not_or] at h
    cases vs with
    | nil => rfl
    | cons v vs => rw [write_cons, ih h.2, Function.update_of_ne h.1]

theorem map_write (t : κ → α) {ks : List κ} (hn : ks.Nodup) {vs : List α}
    (hl : ks.length = vs.length) : ks.map (write t ks vs) = vs := by
  induction ks generalizing t vs with
  | nil => exact (List.eq_nil_of_length_eq_zero hl.symm).symm
  | cons a ks ih =>
    cases vs with
    | nil => simp at hl
    | cons v vs =>
      rw [List.nodup_cons] at hn
      rw [List.map_cons, write_cons, ih _ hn.2 (by simpa using hl), write_of_notMem hn.1,
        Function.update_self]

theorem ite_mem_cons (f : κ → α) (k a : κ) (ks : List κ) (y : α) :
    (if k ∈ ks then f k else if k = a then f a else y) = if k ∈ a :: ks then f k else y := by
  by_cases hk : k ∈ ks
  · rw [if_pos hk, if_pos (List.mem_cons_of_mem a hk)]
  · by_cases ha : k = a
    · rw [if_neg hk, if_pos ha, if_pos (List.mem_cons.mpr (Or.inl ha)), ha]
    · rw [if_neg hk, if_neg ha, if_neg (by simp [hk, ha])]

theorem write_map (t : κ → α) (ks : List κ) (f : κ → α) (k : κ) :
    write t ks (ks.map f) k = if k ∈ ks then f k else t k := by
  induction ks generalizing t with
  | nil => rfl
  | cons a ks ih =>
    rw [List.map_cons, write_cons, ih, Function.update_apply, ite_mem_cons]

theorem comp_write {β : Type*} (f : α → β) (t : κ → α) (ks : List κ) (vs : List α) (k : κ) :
    f (write t ks vs k) = write (fun k => f (t k)) ks (vs.map f) k := by
  induction ks generalizing t vs with
  | nil => rfl
  | cons a ks ih =>
    cases vs with
    | nil => rfl
    | cons v vs =>
      rw [List.map_cons, write_cons, write_cons, ih]
      congr 1
      funext x
      exact Function.apply_update (fun _ => f) t a v x

theorem write_mem (t : κ → α) {ks : List κ} {vs : List α} (hl : ks.length = vs.length) {k : κ}
    (hk : k ∈ ks) : write t ks vs k ∈ vs := by
  induction ks generalizing t vs with
  | nil => cases hk
  | cons a ks ih =>
    cases vs with
    | nil => simp at hl
    | cons v vs =>
      rw [write_cons]
      by_cases htail : k ∈ ks
      · exact List.mem_cons_of_mem v (ih _ (by simpa using hl) htail)
      · rw [write_of_notMem htail, (List.mem_cons.mp hk).resolve_right htail, Function.update_self]
        exact List.mem_cons_self

theorem write_congr {t t' : κ → α} {ks : List κ} {vs : List α} (hl : ks.length = vs.length) {k : κ}
    (h : k ∉ ks → t k = t' k) : write t ks vs k = write t' ks vs k := by
  induction ks generalizing t t' vs with
  | nil => exact h List.not_mem_nil
  | cons a ks ih =>
    cases vs with
    | nil => simp at hl
    | cons v vs =>
      rw [write_cons, write_cons]
      refine ih (by simpa using hl) fun hk => ?_
      rw [Function.update_apply, Function.update_apply]
      split
      · rfl
      · rename_i hne
        exact h (by simp [hne, hk])

def assign (t : κ → Option α) (ks : List κ) (vs : List α) : κ → Option α :=
  (ks.zip vs).foldl (fun t x => Function.update t x.1 (some x.2)) t

theorem assign_eq_write (t : κ → Option α) (ks : List κ) (vs : List α) :
    assign t ks vs = write t ks (vs.map some) := by
  rw [assign, write, List.zip_map_right, List.foldl_map]
  rfl

theorem assign_cons (t : κ → Option α) (k : κ) (ks : List κ) (v : α) (vs : List α) :
    assign t (k :: ks) (v :: vs) = assign (Function.update t k (some v)) ks vs := rfl

theorem assign_map (t : κ → Option α) (ks : List κ) (f : κ → α) (k : κ) :
    assign t ks (ks.map f) k = if k ∈ ks then some (f k) else t k := by
  rw [assign_eq_write, List.map_map, write_map]
  rfl

theorem assign_of_notMem {t : κ → Option α} {ks : List κ} {k : κ} (h : k ∉ ks) (vs : List α) :
    assign t ks vs k = t k := by
  rw [assign_eq_write, write_of_notMem h]

theorem map_assign (t : κ → Option α) {ks : List κ} (hn : ks.Nodup) {vs : List α}
    (hl : ks.length = vs.length) : ks.map (assign t ks vs) = vs.map some := by
  rw [assign_eq_write, map_write t hn (by simpa using hl)]

end Table
