
-- a computation that either meets its postcondition or stops with an allowed error
variable {ε α β : Type}

def Checked (stops : ε → Prop) (P : α → Prop) : Except ε α → Prop
  | .ok a => P a
  | .error e => stops e

namespace Checked

variable {stops : ε → Prop} {P : α → Prop} {Q : β → Prop}

theorem pure {a : α} (h : P a) : Checked stops P (Pure.pure a) := h

theorem bind {x : Except ε α} {f : α → Except ε β} (hx : Checked stops P x)
    (hf : ∀ a, P a → Checked stops Q (f a)) : Checked stops Q (x >>= f) := by
  cases x with
  | error e => exact hx
  | ok a => exact hf a hx

theorem mono {P' : α → Prop} {x : Except ε α} (hx : Checked stops P x) (h : ∀ a, P a → P' a) :
    Checked stops P' x := by
  cases x with
  | error e => exact hx
  | ok a => exact h a hx

theorem of_eq_ok {x : Except ε α} {a : α} (hx : x = .ok a) (h : P a) : Checked stops P x := by
  rw [hx]
  exact h

end Checked
