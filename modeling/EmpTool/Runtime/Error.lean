import Mathlib.Algebra.Ring.Int.Defs
import Mathlib.Algebra.Ring.Nat

namespace EmpTool

-- a check over a list visits the list, also where the element type could be enumerated
instance (priority := high) decidableForallMem {α : Type} (xs : List α) (p : α → Prop)
    [DecidablePred p] : Decidable (∀ x ∈ xs, p x) :=
  List.decidableBAll p xs

instance (priority := high) decidableForallSome {α : Type} (o : Option α) (p : α → Prop)
    [DecidablePred p] : Decidable (∀ x ∈ o, p x) :=
  match o with
  | none => isTrue nofun
  | some a => decidable_of_iff (p a) (by simp)

def expecting (condition : Prop) [Decidable condition] (message : String) : Except String Unit :=
  if condition then .ok () else .error message

@[simp] theorem expecting_eq_ok {c : Prop} [Decidable c] {message : String} {u : Unit} :
    expecting c message = .ok u ↔ c := by
  simp [expecting]

def expectingSome {α : Type} (o : Option α) (message : String) : Except String α :=
  match o with
  | some a => .ok a
  | none => .error message

@[simp] theorem expectingSome_some {α : Type} (a : α) (message : String) :
    expectingSome (some a) message = .ok a := rfl

@[simp] theorem bind_eq_ok {α β : Type} {x : Except String α} {f : α → Except String β} {b : β} :
    x >>= f = .ok b ↔ ∃ a, x = .ok a ∧ f a = .ok b := by
  rcases x with m | a
  · exact ⟨nofun, fun ⟨_, h, _⟩ => nomatch h⟩
  · exact ⟨fun h => ⟨a, rfl, h⟩, fun ⟨_, h, hb⟩ => Except.ok.inj h ▸ hb⟩

@[simp] theorem map_eq_ok {α β : Type} {x : Except String α} {f : α → β} {b : β} :
    f <$> x = .ok b ↔ ∃ a, x = .ok a ∧ f a = b := by
  rcases x with m | a
  · exact ⟨nofun, fun ⟨_, h, _⟩ => nomatch h⟩
  · exact ⟨fun h => ⟨a, rfl, Except.ok.inj h⟩, fun ⟨_, h, hb⟩ => by rw [h, ← hb]; rfl⟩

@[simp] theorem pure_eq_ok {α : Type} {a b : α} : (pure a : Except String α) = .ok b ↔ a = b :=
  Except.ok.injEq a b ▸ Iff.rfl

-- signed `int` overflow is undefined in the source, so a sum outside the type has no result
def addInt (a b : Int) : Except String Int := do
  expecting (-2 ^ 31 ≤ a + b ∧ a + b < 2 ^ 31) "signed int overflow"
  pure (a + b)

theorem addInt_ok {a b c : Int} :
    addInt a b = .ok c ↔ (-2 ^ 31 ≤ a + b ∧ a + b < 2 ^ 31) ∧ a + b = c := by
  simp [addInt]

def addInt64 (a b : Int) : Except String Int := do
  expecting (-2 ^ 63 ≤ a + b ∧ a + b < 2 ^ 63) "signed int overflow"
  pure (a + b)

theorem addInt64_count {a : Int} (ha : -2 ^ 63 ≤ a) (n : Nat) :
    addInt64 a n = if a + n < 2 ^ 63 then .ok (a + n) else .error "signed int overflow" := by
  have hlow : -2 ^ 63 ≤ a + n := by omega
  by_cases hfit : a + n < 2 ^ 63
  · rw [if_pos hfit, addInt64, expecting, if_pos ⟨hlow, hfit⟩]
    rfl
  · rw [if_neg hfit, addInt64, expecting, if_neg fun h => hfit h.2]
    rfl

end EmpTool
