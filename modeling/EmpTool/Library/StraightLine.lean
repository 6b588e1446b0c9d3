import Mathlib.Algebra.Ring.Int.Defs
import Mathlib.Algebra.Ring.Nat
import Mathlib.Data.List.Nodup
import Mathlib.Data.Set.Function
import Mathlib.Logic.Function.Basic
import Mathlib.Tactic.Tauto

namespace StraightLine

structure Shape (I ι : Type*) where
  reads : I → List ι
  out : I → ι

structure Machine (I ι W : Type*) extends Shape I ι where
  value : I → (ι → W) → W
  value_congr : ∀ {i : I} {e e' : ι → W}, (∀ w ∈ reads i, e w = e' w) → value i e = value i e'

variable {I J ι κ W : Type*}

namespace Shape

variable (S : Shape I ι)

def Scoped : Set ι → List I → Prop
  | _, [] => True
  | D, i :: is => (∀ w ∈ S.reads i, w ∈ D) ∧ Scoped (insert (S.out i) D) is

def Fresh : Set ι → List I → Prop
  | _, [] => True
  | D, i :: is => S.out i ∉ D ∧ Fresh (insert (S.out i) D) is

def defined (D : Set ι) (is : List I) : Set ι := {w | w ∈ D ∨ w ∈ is.map S.out}

@[simp] theorem defined_nil (D : Set ι) : S.defined D [] = D := by simp [defined]

theorem defined_cons (D : Set ι) (i : I) (is : List I) :
    S.defined D (i :: is) = S.defined (insert (S.out i) D) is := by
  ext w
  simp only [defined, List.map_cons, List.mem_cons, Set.mem_ofPred_eq, Set.mem_insert_iff]
  tauto

theorem defined_append (D : Set ι) (is js : List I) :
    S.defined D (is ++ js) = S.defined (S.defined D is) js := by
  ext w
  simp only [defined, List.map_append, List.mem_append, Set.mem_ofPred_eq]
  tauto

theorem subset_defined (D : Set ι) (is : List I) : D ⊆ S.defined D is := fun _ h => Or.inl h

theorem scoped_append (D : Set ι) (is js : List I) :
    S.Scoped D (is ++ js) ↔ S.Scoped D is ∧ S.Scoped (S.defined D is) js := by
  induction is generalizing D with
  | nil => simp [Scoped]
  | cons i is ih => simp only [List.cons_append, Scoped, ih, defined_cons, and_assoc]

theorem Scoped.mono {S : Shape I ι} {D D' : Set ι} {is : List I} (h : S.Scoped D is)
    (hD : D ⊆ D') : S.Scoped D' is := by
  induction is generalizing D D' with
  | nil => trivial
  | cons i is ih => exact ⟨fun w hw => hD (h.1 w hw), ih h.2 (Set.insert_subset_insert hD)⟩

theorem fresh_append (D : Set ι) (is js : List I) :
    S.Fresh D (is ++ js) ↔ S.Fresh D is ∧ S.Fresh (S.defined D is) js := by
  induction is generalizing D with
  | nil => simp [Fresh]
  | cons i is ih => simp only [List.cons_append, Fresh, ih, defined_cons, and_assoc]

theorem Fresh.out_notMem {S : Shape I ι} {D : Set ι} {is : List I} (h : S.Fresh D is) :
    ∀ w ∈ D, w ∉ is.map S.out := by
  induction is generalizing D with
  | nil => simp
  | cons i is ih =>
    intro w hw hm
    rcases List.mem_cons.mp hm with rfl | hm
    · exact h.1 hw
    · exact ih h.2 w (Set.mem_insert_of_mem _ hw) hm

theorem fresh_iff {S : Shape I ι} {D : Set ι} {is : List I} :
    S.Fresh D is ↔ (∀ i ∈ is, S.out i ∉ D) ∧ (is.map S.out).Nodup := by
  induction is generalizing D with
  | nil => simp [Fresh]
  | cons i is ih =>
    simp only [Fresh, ih, List.forall_mem_cons, List.map_cons, List.nodup_cons, Set.mem_insert_iff,
      not_or, List.mem_map, not_exists, not_and]
    constructor
    · rintro ⟨hi, his, hn⟩
      exact ⟨⟨hi, fun j hj => (his j hj).2⟩, fun j hj => (his j hj).1, hn⟩
    · rintro ⟨⟨hi, his⟩, hne, hn⟩
      exact ⟨hi, fun j hj => ⟨hne j hj, his j hj⟩, hn⟩

theorem scoped_filter {S : Shape I ι} {D D' : Set ι} {is : List I} {P : I → Bool}
    (hs : S.Scoped D is) (hD : ∀ i ∈ is, P i = true → ∀ w ∈ S.reads i, w ∈ D → w ∈ D')
    (hP : ∀ i ∈ is, P i = true → ∀ j ∈ is, S.out j ∈ S.reads i → P j = true) :
    S.Scoped D' (is.filter P) := by
  induction is generalizing D D' with
  | nil => trivial
  | cons i is ih =>
    have rest : ∀ j ∈ is, P j = true → ∀ k ∈ is, S.out k ∈ S.reads j → P k = true :=
      fun j hj hPj k hk => hP j (List.mem_cons_of_mem _ hj) hPj k (List.mem_cons_of_mem _ hk)
    cases hi : P i with
    | true =>
      rw [List.filter_cons_of_pos hi]
      refine ⟨fun w hw => hD i (by simp) hi w hw (hs.1 w hw), ih hs.2 ?_ rest⟩
      intro j hj hPj w hw hwD
      rcases hwD with rfl | hwD
      · exact Set.mem_insert _ _
      · exact Set.mem_insert_of_mem _ (hD j (List.mem_cons_of_mem _ hj) hPj w hw hwD)
    | false =>
      rw [List.filter_cons_of_neg (by simp [hi])]
      refine ih hs.2 ?_ rest
      intro j hj hPj w hw hwD
      rcases hwD with rfl | hwD
      · -- a kept instruction reads `i`'s result, so `i` is kept as well
        have hk := hP j (List.mem_cons_of_mem _ hj) hPj i (by simp) hw
        rw [hi] at hk
        cases hk
      · exact hD j (List.mem_cons_of_mem _ hj) hPj w hw hwD

theorem Scoped.reads_mem {S : Shape I ι} {D : Set ι} {is : List I} (h : S.Scoped D is)
    {i : I} (hi : i ∈ is) {w : ι} (hw : w ∈ S.reads i) : w ∈ S.defined D is := by
  obtain ⟨pre, post, rfl⟩ := List.append_of_mem hi
  rw [scoped_append] at h
  rw [defined_append]
  exact S.subset_defined _ _ (h.2.1 w hw)

end Shape

namespace Machine

variable [DecidableEq ι] [DecidableEq κ] (M : Machine I ι W) (N : Machine J κ W)

def exec (e : ι → W) (i : I) : ι → W := Function.update e (M.out i) (M.value i e)

def run (is : List I) (e : ι → W) : ι → W := is.foldl M.exec e

@[simp] theorem run_nil (e : ι → W) : M.run [] e = e := rfl

@[simp] theorem run_cons (i : I) (is : List I) (e : ι → W) :
    M.run (i :: is) e = M.run is (M.exec e i) := rfl

theorem run_append (is js : List I) (e : ι → W) :
    M.run (is ++ js) e = M.run js (M.run is e) := by simp [run]

theorem exec_out (e : ι → W) (i : I) : M.exec e i (M.out i) = M.value i e := by simp [exec]

theorem exec_of_ne {e : ι → W} {i : I} {w : ι} (h : w ≠ M.out i) : M.exec e i w = e w := by
  simp [exec, h]

theorem run_frame {is : List I} {w : ι} (h : w ∉ is.map M.out) (e : ι → W) :
    M.run is e w = e w := by
  induction is generalizing e with
  | nil => rfl
  | cons i is ih =>
    simp only [List.map_cons, List.mem_cons, not_or] at h
    rw [run_cons, ih h.2, M.exec_of_ne h.1]

theorem exec_congr {D : Set ι} {e e' : ι → W} (h : ∀ w ∈ D, e w = e' w) {i : I}
    (hr : ∀ w ∈ M.reads i, w ∈ D) :
    ∀ w ∈ insert (M.out i) D, M.exec e i w = M.exec e' i w := by
  intro w hw
  by_cases hout : w = M.out i
  · subst hout
    rw [exec_out, exec_out]
    exact M.value_congr fun v hv => h v (hr v hv)
  · rw [M.exec_of_ne hout, M.exec_of_ne hout]
    exact h w (hw.resolve_left hout)

theorem run_congr {D : Set ι} {is : List I} {e e' : ι → W} (hs : M.Scoped D is)
    (h : ∀ w ∈ D, e w = e' w) : ∀ w ∈ M.defined D is, M.run is e w = M.run is e' w := by
  induction is generalizing D e e' with
  | nil => simpa using h
  | cons i is ih =>
    rw [Shape.defined_cons]
    exact ih hs.2 (M.exec_congr h hs.1)

def Solves (e : ι → W) (is : List I) : Prop := ∀ i ∈ is, e (M.out i) = M.value i e

theorem run_solves {D : Set ι} {is : List I} (hs : M.Scoped D is) (hf : M.Fresh D is)
    (e : ι → W) : M.Solves (M.run is e) is := by
  induction is generalizing D e with
  | nil => simp [Solves]
  | cons i is ih =>
    intro j hj
    rcases List.mem_cons.mp hj with rfl | hj
    · -- the instruction's own operands and result survive the rest of the run
      have keep : ∀ w ∈ insert (M.out j) D, M.run is (M.exec e j) w = M.exec e j w :=
        fun w hw => M.run_frame (hf.2.out_notMem w hw) _
      rw [run_cons, keep _ (Set.mem_insert _ _), exec_out]
      apply M.value_congr
      intro w hw
      have hD := hs.1 w hw
      have hne : w ≠ M.out j := fun h => hf.1 (h ▸ hD)
      rw [keep w (Set.mem_insert_of_mem _ hD), M.exec_of_ne hne]
    · exact ih hs.2 hf.2 _ j hj

end Machine

def Agrees (L : Set ι) (loc : ι → κ) (e : ι → W) (e' : κ → W) : Prop :=
  ∀ w ∈ L, e' (loc w) = e w

theorem Agrees.exec [DecidableEq ι] [DecidableEq κ] {M : Machine I ι W} {N : Machine J κ W}
    {L L' : Set ι} {loc loc' : ι → κ} {e : ι → W} {e' : κ → W} {i : I} {j : J}
    (h : Agrees L loc e e') (hr : ∀ w ∈ M.reads i, w ∈ L)
    (hv : N.value j e' = M.value i (e' ∘ loc)) (hout : loc' (M.out i) = N.out j)
    (hL : ∀ w ∈ L', w ≠ M.out i → w ∈ L ∧ loc' w = loc w ∧ loc w ≠ N.out j) :
    Agrees L' loc' (M.exec e i) (N.exec e' j) := by
  intro w hw
  by_cases heq : w = M.out i
  · subst heq
    rw [hout, N.exec_out, M.exec_out, hv]
    exact M.value_congr fun v hv' => h v (hr v hv')
  · obtain ⟨hwL, hloc, hne⟩ := hL w hw heq
    rw [hloc, N.exec_of_ne hne, M.exec_of_ne heq]
    exact h w hwL

structure Renaming (S : Shape I ι) (T : Shape J κ) (loc : ι → κ) (f : I → J) : Prop where
  reads : ∀ i, T.reads (f i) = (S.reads i).map loc
  out : ∀ i, T.out (f i) = loc (S.out i)

namespace Renaming

variable {S : Shape I ι} {T : Shape J κ} {loc : ι → κ} {f : I → J} (h : Renaming S T loc f)

include h in
theorem map_out (is : List I) : (is.map f).map T.out = (is.map S.out).map loc := by
  simp [h.out]

include h in
theorem scoped_image {D : Set ι} {is : List I} (hs : S.Scoped D is) :
    T.Scoped (loc '' D) (is.map f) := by
  induction is generalizing D with
  | nil => trivial
  | cons i is ih =>
    refine ⟨fun w hw => ?_, ?_⟩
    · rw [h.reads] at hw
      obtain ⟨v, hv, rfl⟩ := List.mem_map.mp hw
      exact Set.mem_image_of_mem loc (hs.1 v hv)
    · rw [h.out, ← Set.image_insert_eq]
      exact ih hs.2

include h in
theorem fresh_image {D : Set ι} {is : List I} (hf : S.Fresh D is)
    (hinj : Set.InjOn loc (S.defined D is)) : T.Fresh (loc '' D) (is.map f) := by
  rw [Shape.fresh_iff] at hf ⊢
  have hout (i : I) (hi : i ∈ is) : S.out i ∈ S.defined D is := Or.inr (List.mem_map_of_mem hi)
  constructor
  · intro j hj hm
    obtain ⟨i, hi, rfl⟩ := List.mem_map.mp hj
    rw [h.out] at hm
    obtain ⟨w, hw, heq⟩ := hm
    exact hf.1 i hi (hinj (Or.inl hw) (hout i hi) heq ▸ hw)
  · rw [h.map_out]
    refine hf.2.map_on fun a ha b hb => hinj (Or.inr ha) (Or.inr hb)

theorem run_solution [DecidableEq ι] [DecidableEq κ] {M : Machine I ι W} {N : Machine J κ W}
    {loc : ι → κ} {f : I → J} (h : Renaming M.toShape N.toShape loc f)
    (hv : ∀ i e, N.value (f i) e = M.value i (e ∘ loc)) {sol : ι → W} {D : Set ι} {is : List I}
    (hsol : M.Solves sol is) (hs : M.Scoped D is) (hinj : Set.InjOn loc (M.defined D is))
    {e : κ → W} (he : Agrees D loc sol e) :
    Agrees (M.defined D is) loc sol (N.run (is.map f) e) := by
  induction is generalizing D e with
  | nil => simpa using he
  | cons i is ih =>
    rw [Shape.defined_cons] at hinj ⊢
    have hi : N.value (f i) e = sol (M.out i) := by
      rw [hv, hsol i (by simp)]
      exact M.value_congr fun w hw => he w (hs.1 w hw)
    refine ih (fun j hj => hsol j (by simp [hj])) hs.2 hinj fun w hw => ?_
    by_cases heq : loc w = N.out (f i)
    · have hwi : w = M.out i :=
        hinj (Or.inl hw) (Or.inl (Set.mem_insert _ _)) (heq.trans (h.out i))
      rw [heq, Machine.exec_out, hi, hwi]
    · rw [Machine.exec_of_ne _ heq]
      have hne : w ≠ M.out i := fun hwi => heq (by rw [hwi, h.out])
      exact he w (hw.resolve_left hne)

end Renaming

end StraightLine
