namespace TypedProgram

section Contexts

variable {Ty : Type} {Val Val' : Ty → Type} {Γ Δ : List Ty} {τ : Ty}

inductive Var : List Ty → Ty → Type where
  | zero {Γ : List Ty} {τ : Ty} : Var (τ :: Γ) τ
  | succ {Γ : List Ty} {τ σ : Ty} (x : Var Γ τ) : Var (σ :: Γ) τ

inductive Tuple (Val : Ty → Type) : List Ty → Type where
  | nil : Tuple Val []
  | cons {τ : Ty} {Γ : List Ty} (a : Val τ) (as : Tuple Val Γ) : Tuple Val (τ :: Γ)

namespace Tuple

def get : {Γ : List Ty} → Tuple Val Γ → Var Γ τ → Val τ
  | _, .cons a _, .zero => a
  | _, .cons _ as, .succ x => as.get x

def map (f : ∀ τ, Val τ → Val' τ) : {Γ : List Ty} → Tuple Val Γ → Tuple Val' Γ
  | _, .nil => .nil
  | _, .cons a as => .cons (f _ a) (as.map f)

def select (as : Tuple Val Γ) : {Δ : List Ty} → Tuple (Var Γ) Δ → Tuple Val Δ
  | _, .nil => .nil
  | _, .cons x xs => .cons (as.get x) (as.select xs)

variable (f : ∀ τ, Val τ → Val' τ)

@[simp] theorem get_map (as : Tuple Val Γ) (x : Var Γ τ) : (as.map f).get x = f τ (as.get x) := by
  induction as with
  | nil => cases x
  | cons a as ih =>
    cases x with
    | zero => rfl
    | succ x => exact ih x

@[simp] theorem select_map (as : Tuple Val Γ) (xs : Tuple (Var Γ) Δ) :
    (as.map f).select xs = (as.select xs).map f := by
  induction xs with
  | nil => rfl
  | cons x xs ih => simp only [select, map, get_map, ih]

end Tuple

end Contexts

structure Signature where
  Ty : Type
  Op : List Ty → Ty → Type
  Open : Ty → Prop
  Request : Ty → Type
  Clear : Ty → Type

-- a host that computes on values it cannot see, except for those it has revealed
inductive Host (S : Signature) (α : Type) : List S.Ty → Type where
  | done {Γ : List S.Ty} (a : α) : Host S α Γ
  | op {Γ Δ : List S.Ty} {τ : S.Ty} (o : S.Op Δ τ) (args : Tuple (Var Γ) Δ)
      (rest : Host S α (τ :: Γ)) : Host S α Γ
  | input {Γ : List S.Ty} {τ : S.Ty} (h : S.Open τ) (owner : Int) (v : S.Request τ)
      (rest : Host S α (τ :: Γ)) : Host S α Γ
  | reveal {Γ : List S.Ty} {τ : S.Ty} (h : S.Open τ) (x : Var Γ τ) (recipient : Int)
      (rest : Option (S.Clear τ) → Host S α Γ) : Host S α Γ

structure Machine (S : Signature) where
  Val : S.Ty → Type
  op : {Δ : List S.Ty} → {τ : S.Ty} → S.Op Δ τ → Tuple Val Δ → Except String (Val τ)
  input : {τ : S.Ty} → S.Open τ → Int → S.Request τ → Except String (Val τ)
  reveal : {τ : S.Ty} → S.Open τ → Val τ → Int → Except String (Option (S.Clear τ))

namespace Machine

variable {S : Signature} {α : Type}

def run (M : Machine S) : {Γ : List S.Ty} → Host S α Γ → Tuple M.Val Γ → Except String α
  | _, .done a, _ => .ok a
  | _, .op o args rest, vs => do
      let a ← M.op o (vs.select args)
      M.run rest (.cons a vs)
  | _, .input h owner v rest, vs => do
      let a ← M.input h owner v
      M.run rest (.cons a vs)
  | _, .reveal h x recipient rest, vs => do
      let r ← M.reveal h (vs.get x) recipient
      M.run (rest r) vs

-- `f` reads the values of `M` as values of `N`, failures included
structure Refines (M N : Machine S) (f : ∀ τ, M.Val τ → N.Val τ) : Prop where
  op : ∀ {Δ : List S.Ty} {τ : S.Ty} (o : S.Op Δ τ) (args : Tuple M.Val Δ),
    (M.op o args).map (f τ) = N.op o (args.map f)
  input : ∀ {τ : S.Ty} (h : S.Open τ) (owner : Int) (v : S.Request τ),
    (M.input h owner v).map (f τ) = N.input h owner v
  reveal : ∀ {τ : S.Ty} (h : S.Open τ) (a : M.Val τ) (recipient : Int),
    M.reveal h a recipient = N.reveal h (f τ a) recipient

theorem bind_of_map {V W : Type} {f : V → W} {x : Except String V} {y : Except String W}
    (hxy : x.map f = y) {k : V → Except String α} {k' : W → Except String α}
    (hk : ∀ a, k a = k' (f a)) : x >>= k = y >>= k' := by
  subst hxy
  cases x with
  | error message => rfl
  | ok a => exact hk a

theorem Refines.run {M N : Machine S} {f : ∀ τ, M.Val τ → N.Val τ} (h : Refines M N f)
    {Γ : List S.Ty} (host : Host S α Γ) (vs : Tuple M.Val Γ) :
    M.run host vs = N.run host (vs.map f) := by
  induction host with
  | done a => rfl
  | op o args rest ih =>
    refine bind_of_map ?_ fun a => ih (.cons a vs)
    rw [Tuple.select_map]
    exact h.op o (vs.select args)
  | input ho owner v rest ih => exact bind_of_map (h.input ho owner v) fun a => ih (.cons a vs)
  | reveal ho x recipient rest ih =>
    have hr := h.reveal ho (vs.get x) recipient
    rw [← Tuple.get_map f vs x] at hr
    change M.reveal ho (vs.get x) recipient >>= _ = N.reveal ho ((vs.map f).get x) recipient >>= _
    rw [hr]
    exact bind_congr fun r => ih r vs

end Machine

end TypedProgram
