import Mathlib.Algebra.Ring.Nat

-- a pool that hands out a returned slot when it has one, and makes a new slot otherwise
structure Pool where
  slots : Nat
  free : Nat

namespace Pool

def take (s : Pool) : Pool := if s.free = 0 then ⟨s.slots + 1, 0⟩ else ⟨s.slots, s.free - 1⟩

def give (n : Nat) (s : Pool) : Pool := ⟨s.slots, s.free + n⟩

structure Peaked (used peak : Nat) (s : Pool) : Prop where
  used_eq : s.slots = used + s.free
  peak_eq : s.slots = peak

theorem peaked_empty : Peaked 0 0 ⟨0, 0⟩ := ⟨rfl, rfl⟩

variable {s : Pool} {used peak : Nat}

theorem Peaked.keep (h : Peaked used peak s) : Peaked used (max peak used) s := by
  have hle : used ≤ peak := by
    have := h.used_eq
    have := h.peak_eq
    omega
  rw [Nat.max_eq_left hle]
  exact h

theorem Peaked.take (h : Peaked used peak s) : Peaked (used + 1) (max peak (used + 1)) s.take := by
  obtain ⟨hused, hpeak⟩ := h
  rw [Pool.take]
  split
  case isTrue hfree =>
    -- all slots are out, so the new one sets a new peak
    exact ⟨by dsimp only; omega, by dsimp only; omega⟩
  case isFalse hfree => exact ⟨by dsimp only; omega, by dsimp only; omega⟩

theorem Peaked.give {n : Nat} (h : Peaked (used + n) peak s) : Peaked used peak (s.give n) := by
  obtain ⟨hused, hpeak⟩ := h
  exact ⟨by dsimp only [Pool.give]; omega, hpeak⟩

end Pool
