import Mathlib.Logic.Basic

namespace Process

-- a process stops at each request it makes, with its state at that point and what it does with
-- the reply
inductive Proc (σ ρ : Type) (Reply : ρ → Type) (α : Type) where
  | ret (s : σ) (a : α)
  | fail (message : String)
  | call (s : σ) (request : ρ) (resume : Reply request → Proc σ ρ Reply α)

variable {σ ρ τ α β : Type} {Reply : ρ → Type}

def Proc.bind : Proc σ ρ Reply α → (α → σ → Proc σ ρ Reply β) → Proc σ ρ Reply β
  | .ret s a, f => f a s
  | .fail message, _ => .fail message
  | .call s request resume, f => .call s request fun reply => (resume reply).bind f

def Action (σ ρ : Type) (Reply : ρ → Type) (α : Type) := σ → Proc σ ρ Reply α

instance : Monad (Action σ ρ Reply) where
  pure a := fun s => .ret s a
  bind x f := fun s => (x s).bind f

namespace Action

def get : Action σ ρ Reply σ := fun s => .ret s s

def modify (f : σ → σ) : Action σ ρ Reply Unit := fun s => .ret (f s) ()

def request (r : ρ) : Action σ ρ Reply (Reply r) := fun s => .call s r fun reply => .ret s reply

def check (condition : Prop) [Decidable condition] (message : String) : Action σ ρ Reply Unit :=
  fun s => if condition then .ret s () else .fail message

def ofExcept (x : Except String α) : Action σ ρ Reply α :=
  fun s => match x with
    | .ok a => .ret s a
    | .error message => .fail message

end Action

-- what the surroundings may reply, what they then look like, and what is promised to them
structure Contract (σ ρ : Type) (Reply : ρ → Type) (τ : Type) where
  allowed : (r : ρ) → Reply r → Prop
  answer : τ → (r : ρ) → Reply r → τ
  calling : τ → σ → ρ → Prop
  failing : String → Prop

def Proc.Meets (C : Contract σ ρ Reply τ) (post : τ → σ → α → Prop) :
    τ → Proc σ ρ Reply α → Prop
  | t, .ret s a => post t s a
  | _, .fail message => C.failing message
  | t, .call s r resume =>
    C.calling t s r ∧ ∀ reply, C.allowed r reply → (resume reply).Meets C post (C.answer t r reply)

theorem Proc.Meets.mono {C : Contract σ ρ Reply τ} {post post' : τ → σ → α → Prop}
    (hpost : ∀ t s a, post t s a → post' t s a) {p : Proc σ ρ Reply α} {t : τ}
    (h : p.Meets C post t) : p.Meets C post' t := by
  induction p generalizing t with
  | ret s a => exact hpost t s a h
  | fail message => exact h
  | call s r resume ih => exact ⟨h.1, fun reply hreply => ih reply (h.2 reply hreply)⟩

theorem Proc.Meets.weaken {C : Contract σ ρ Reply τ} {post : τ → σ → α → Prop}
    {calling : τ → σ → ρ → Prop} (hcalling : ∀ t s r, C.calling t s r → calling t s r)
    {p : Proc σ ρ Reply α} {t : τ} (h : p.Meets C post t) :
    p.Meets { C with calling := calling } post t := by
  induction p generalizing t with
  | ret s a => exact h
  | fail message => exact h
  | call s r resume ih =>
    exact ⟨hcalling t s r h.1, fun reply hreply => ih reply (h.2 reply hreply)⟩

theorem Proc.Meets.bind {C : Contract σ ρ Reply τ} {mid : τ → σ → α → Prop}
    {post : τ → σ → β → Prop} {p : Proc σ ρ Reply α} {f : α → σ → Proc σ ρ Reply β} {t : τ}
    (h : p.Meets C mid t) (hf : ∀ t s a, mid t s a → (f a s).Meets C post t) :
    (p.bind f).Meets C post t := by
  induction p generalizing t with
  | ret s a => exact hf t s a h
  | fail message => exact h
  | call s r resume ih => exact ⟨h.1, fun reply hreply => ih reply (h.2 reply hreply)⟩

section Rules

variable {C : Contract σ ρ Reply τ} {post : τ → σ → β → Prop} {t : τ} {s : σ}

theorem meets_bind {mid : τ → σ → α → Prop} {x : Action σ ρ Reply α}
    {f : α → Action σ ρ Reply β} (hx : (x s).Meets C mid t)
    (hf : ∀ t s a, mid t s a → (f a s).Meets C post t) : ((x >>= f) s).Meets C post t :=
  Proc.Meets.bind hx hf

theorem meets_pure {a : β} (h : post t s a) :
    ((pure a : Action σ ρ Reply β) s).Meets C post t := h

theorem meets_get {f : σ → Action σ ρ Reply β} (h : (f s s).Meets C post t) :
    ((Action.get >>= f) s).Meets C post t := h

theorem meets_modify {g : σ → σ} {f : Unit → Action σ ρ Reply β}
    (h : (f () (g s)).Meets C post t) : ((Action.modify g >>= f) s).Meets C post t := h

theorem meets_ok {a : α} {x : Except String α} {f : α → Action σ ρ Reply β} (hx : x = .ok a)
    (h : (f a s).Meets C post t) : ((Action.ofExcept x >>= f) s).Meets C post t := by
  subst hx
  exact h

theorem meets_check {condition : Prop} [Decidable condition] {message : String}
    {f : Unit → Action σ ρ Reply β} (hfail : ¬condition → C.failing message)
    (h : condition → (f () s).Meets C post t) :
    ((Action.check condition message >>= f) s).Meets C post t := by
  show (Proc.bind (if condition then .ret s () else .fail message) f).Meets C post t
  split
  case isTrue hc => exact h hc
  case isFalse hc => exact hfail hc

theorem meets_ite {condition : Prop} [Decidable condition] {x y : Action σ ρ Reply β}
    (hx : condition → (x s).Meets C post t) (hy : ¬condition → (y s).Meets C post t) :
    ((if condition then x else y) s).Meets C post t := by
  split
  case isTrue hc => exact hx hc
  case isFalse hc => exact hy hc

theorem meets_request {r : ρ} {f : Reply r → Action σ ρ Reply β} (hcall : C.calling t s r)
    (h : ∀ reply, C.allowed r reply → (f reply s).Meets C post (C.answer t r reply)) :
    ((Action.request r >>= f) s).Meets C post t :=
  ⟨hcall, h⟩

end Rules

end Process
