import Mathlib.Algebra.Ring.Int.Defs
import Mathlib.Algebra.Ring.Nat
import Mathlib.Data.List.Forall2

namespace Codec

abbrev Reader (α : Type) := StateT (List UInt8) (Except String) α

variable {α β : Type}

def Reads (r : Reader α) (bs : List UInt8) (a : α) (rest : List UInt8) : Prop :=
  r.run bs = .ok (a, rest)

theorem reads_pure {a b : α} {bs rest : List UInt8} :
    Reads (pure a) bs b rest ↔ a = b ∧ bs = rest := by
  rw [Reads, StateT.run_pure, ← Prod.mk.injEq]
  exact iff_of_eq (Except.ok.injEq ..)

theorem reads_bind {r : Reader α} {f : α → Reader β} {bs rest : List UInt8} {b : β} :
    Reads (r >>= f) bs b rest ↔ ∃ a mid, Reads r bs a mid ∧ Reads (f a) mid b rest := by
  simp only [Reads, StateT.run_bind]
  cases h : r.run bs with
  | error e => exact ⟨nofun, fun ⟨_, _, h, _⟩ => nomatch h⟩
  | ok x =>
    obtain ⟨a, mid⟩ := x
    exact ⟨fun h => ⟨a, mid, rfl, h⟩, fun ⟨_, _, h, hb⟩ => by cases h; exact hb⟩

theorem reads_lift {x : Except String α} {bs rest : List UInt8} {a : α} :
    Reads (StateT.lift x) bs a rest ↔ x = .ok a ∧ bs = rest := by
  cases x with
  | error e => exact ⟨nofun, fun h => nomatch h.1⟩
  | ok b => exact reads_pure.trans (and_congr_left' (by simp))

theorem reads_get {bs rest bs' : List UInt8} :
    Reads get bs bs' rest ↔ bs = bs' ∧ bs = rest := reads_pure (a := bs)

theorem reads_set {bs rest bs' : List UInt8} {u : PUnit} :
    Reads (set bs') bs u rest ↔ bs' = rest := by
  rw [Reads, StateT.run_set]
  exact (iff_of_eq (Except.ok.injEq ..)).trans (by simp)

theorem reads_map {r : Reader α} {f : α → β} {bs rest : List UInt8} {b : β} :
    Reads (f <$> r) bs b rest ↔ ∃ a, Reads r bs a rest ∧ f a = b := by
  rw [map_eq_pure_bind, reads_bind]
  simp only [reads_pure]
  exact ⟨fun ⟨a, _, h, ha, hm⟩ => ⟨a, hm ▸ h, ha⟩, fun ⟨a, h, ha⟩ => ⟨a, rest, h, ha, rfl⟩⟩

def Spells (R : α → List UInt8 → Prop) (r : Reader α) : Prop :=
  ∀ bs a rest, Reads r bs a rest ↔ ∃ front, R a front ∧ bs = front ++ rest

def many (r : Reader α) : Nat → Reader (List α)
  | 0 => pure []
  | n + 1 => do
      let a ← r
      let as ← many r n
      pure (a :: as)

theorem Spells.many {R : α → List UInt8 → Prop} {r : Reader α} (h : Spells R r) (n : Nat) :
    Spells (fun as front => as.length = n ∧
      ∃ fronts, List.Forall₂ R as fronts ∧ front = fronts.flatten) (Codec.many r n) := by
  induction n with
  | zero =>
    intro bs as rest
    simp only [Codec.many, reads_pure]
    constructor
    · rintro ⟨rfl, rfl⟩
      exact ⟨[], ⟨rfl, [], .nil, rfl⟩, rfl⟩
    · rintro ⟨_, ⟨hl, fronts, hR, rfl⟩, rfl⟩
      obtain rfl := List.eq_nil_of_length_eq_zero hl
      cases hR
      exact ⟨rfl, rfl⟩
  | succ n ih =>
    intro bs as rest
    simp only [Codec.many, reads_bind, reads_pure, h _ _ _, ih _ _ _]
    constructor
    · rintro ⟨a, _, ⟨f, hf, rfl⟩, as', _, ⟨_, ⟨hl, fronts, hR, rfl⟩, rfl⟩, rfl, rfl⟩
      exact ⟨f ++ fronts.flatten, ⟨by simp [hl], f :: fronts, .cons hf hR, by simp⟩, by simp⟩
    · rintro ⟨_, ⟨hl, fronts, hR, rfl⟩, rfl⟩
      cases hR with
      | nil => simp at hl
      | @cons a f as' fronts hf hR =>
        exact ⟨a, fronts.flatten ++ rest, ⟨f, hf, by simp⟩, as', rest,
          ⟨fronts.flatten, ⟨by simpa using hl, fronts, hR, rfl⟩, rfl⟩, rfl, rfl⟩

end Codec
