import Mathlib.Algebra.Ring.Nat
import Mathlib.Logic.Function.Basic

namespace Arrays

variable {ν α σ : Type}

-- a memory of named arrays, and a pointer into one of them
abbrev Mem (ν α : Type) := ν → Nat → α

structure Ptr (ν : Type) where
  array : ν
  offset : Nat := 0

namespace Ptr

def shift (p : Ptr ν) (i : Nat) : Ptr ν := { p with offset := p.offset + i }

-- writing `p` upwards never overtakes reading `q` upwards
def Trails (n : Nat) (p q : Ptr ν) : Prop :=
  p.array = q.array → p.offset ≤ q.offset ∨ q.offset + n ≤ p.offset

def Apart (n : Nat) (p q : Ptr ν) : Prop :=
  p.array = q.array → p.offset + n ≤ q.offset ∨ q.offset + n ≤ p.offset

theorem trails_refl (n : Nat) (p : Ptr ν) : Trails n p p := fun _ => Or.inl (Nat.le_refl _)

theorem trails_of_ne {n : Nat} {a b : ν} (h : a ≠ b) (x y : Nat) : Trails n ⟨a, x⟩ ⟨b, y⟩ :=
  fun he => absurd he h

end Ptr

namespace Mem

def get (m : Mem ν α) (p : Ptr ν) (i : Nat) : α := m p.array (p.offset + i)

variable [DecidableEq ν]

def set (m : Mem ν α) (p : Ptr ν) (i : Nat) (v : α) : Mem ν α :=
  fun a x => if a = p.array ∧ x = p.offset + i then v else m a x

theorem set_of_ne {m : Mem ν α} {a b : ν} (h : b ≠ a) (x i : Nat) (v : α) :
    m.set ⟨a, x⟩ i v b = m b := by
  funext y
  exact if_neg fun hy => h hy.1

theorem set_zero (m : Mem ν α) (a : ν) (i : Nat) (v : α) :
    m.set ⟨a, 0⟩ i v a = Function.update (m a) i v := by
  funext y
  by_cases hy : y = i
  · rw [hy, Function.update_self, set, if_pos ⟨rfl, (Nat.zero_add i).symm⟩]
  · rw [Function.update_of_ne hy, set, if_neg fun h => hy (h.2.trans (Nat.zero_add i))]

def store (m : Mem ν α) (p : Ptr ν) (n : Nat) (f : Nat → α) : Mem ν α :=
  fun a x => if a = p.array ∧ p.offset ≤ x ∧ x < p.offset + n then f (x - p.offset) else m a x

theorem store_zero (m : Mem ν α) (p : Ptr ν) (f : Nat → α) : m.store p 0 f = m := by
  funext a x
  exact if_neg (by omega)

theorem store_congr {m : Mem ν α} {p : Ptr ν} {n : Nat} {f g : Nat → α} (h : ∀ i < n, f i = g i) :
    m.store p n f = m.store p n g := by
  funext a x
  by_cases hx : a = p.array ∧ p.offset ≤ x ∧ x < p.offset + n
  · rw [store, store, if_pos hx, if_pos hx, h _ (by omega)]
  · rw [store, store, if_neg hx, if_neg hx]

theorem store_succ (m : Mem ν α) (p : Ptr ν) (n : Nat) (f : Nat → α) :
    m.store p (n + 1) f = (m.store p n f).set p n (f n) := by
  funext a x
  simp only [store, set]
  by_cases hx : a = p.array ∧ x = p.offset + n
  · rw [if_pos hx, if_pos ⟨hx.1, by omega, by omega⟩]
    congr 1
    omega
  · rw [if_neg hx]
    by_cases hs : a = p.array ∧ p.offset ≤ x ∧ x < p.offset + n
    · rw [if_pos hs, if_pos ⟨hs.1, hs.2.1, by omega⟩]
    · rw [if_neg hs, if_neg]
      rintro ⟨ha, hle, hlt⟩
      have hne : x ≠ p.offset + n := fun hxe => hx ⟨ha, hxe⟩
      exact hs ⟨ha, hle, by omega⟩

theorem get_store {m : Mem ν α} {p : Ptr ν} {n : Nat} {f : Nat → α} {i : Nat} (hi : i < n) :
    (m.store p n f).get p i = f i := by
  rw [get, store, if_pos ⟨rfl, by omega, by omega⟩, Nat.add_sub_cancel_left]

theorem store_of_ne {m : Mem ν α} {a b : ν} (h : b ≠ a) {x n : Nat} {f : Nat → α} :
    m.store ⟨a, x⟩ n f b = m b := by
  funext i
  exact if_neg fun hx => h hx.1

theorem get_store_of_trails {m : Mem ν α} {p q : Ptr ν} {n k : Nat} {f : Nat → α}
    (h : p.Trails n q) {i : Nat} (hk : k ≤ i) (hi : i < n) :
    (m.store p k f).get q i = m.get q i := by
  refine if_neg fun hx => ?_
  have := h hx.1.symm
  omega

end Mem

section Sweep

variable (step : α → α → σ → α × σ)

def carry (a b : Nat → α) (s : σ) : Nat → σ
  | 0 => s
  | i + 1 => (step (a i) (b i) (carry a b s i)).2

def output (a b : Nat → α) (s : σ) (i : Nat) : α := (step (a i) (b i) (carry step a b s i)).1

variable [DecidableEq ν] (dest op1 op2 : Ptr ν)

def sweep : Nat → Nat → σ → Mem ν α → Mem ν α × σ
  | 0, _, s, m => (m, s)
  | n + 1, i, s, m =>
      let r := step (m.get op1 i) (m.get op2 i) s
      sweep n (i + 1) r.2 (m.set dest i r.1)

theorem sweep_eq {n : Nat} {op1 op2 : Ptr ν} (h1 : dest.Trails n op1) (h2 : dest.Trails n op2)
    {k : Nat} (hk : k ≤ n) (s : σ) (m : Mem ν α) :
    sweep step dest op1 op2 k 0 s m =
      (m.store dest k (output step (m.get op1) (m.get op2) s),
        carry step (m.get op1) (m.get op2) s k) := by
  -- after `i` elements the memory is the first `i` outputs over the original operands
  have upto (j i : Nat) (hij : i + j = k) :
      sweep step dest op1 op2 j i (carry step (m.get op1) (m.get op2) s i)
        (m.store dest i (output step (m.get op1) (m.get op2) s)) =
      (m.store dest k (output step (m.get op1) (m.get op2) s),
        carry step (m.get op1) (m.get op2) s k) := by
    induction j generalizing i with
    | zero =>
      obtain rfl : i = k := by omega
      rfl
    | succ j ih =>
      rw [sweep, Mem.get_store_of_trails h1 (Nat.le_refl i) (by omega),
        Mem.get_store_of_trails h2 (Nat.le_refl i) (by omega)]
      have hnext := ih (i + 1) (by omega)
      rw [Mem.store_succ] at hnext
      exact hnext
  have := upto k 0 (Nat.zero_add k)
  rwa [Mem.store_zero] at this

end Sweep

end Arrays
