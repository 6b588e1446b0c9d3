import EmpTool.Runtime.PoolSteps

namespace EmpTool.TestMode

open Crypto

section Trees

mutual

def Action.uses (bad : Action → Bool) : Action → Bool
  | .enqueue body => bad (.enqueue body) || bodyUses bad body
  | .scope lane body => bad (.scope lane body) || bodyUses bad body
  | .construct => bad .construct
  | .randScalar => bad .randScalar
  | .reset => bad .reset
  | .destroyPool => bad .destroyPool

def bodyUses (bad : Action → Bool) : List Action → Bool
  | [] => false
  | a :: body => a.uses bad || bodyUses bad body

end

def Action.isRandScalar : Action → Bool
  | .randScalar => true
  | _ => false

def Action.isReset : Action → Bool
  | .reset => true
  | _ => false

def Action.isScope : Action → Bool
  | .scope _ _ => true
  | _ => false

def Action.spawned? : Action → Option (List Action)
  | .enqueue body => some body
  | _ => none

def spawns (body : List Action) : List (List Action) := body.filterMap Action.spawned?

def bodyAt : List Action → List Nat → Option (List Action)
  | body, [] => some body
  | body, ordinal :: path => (spawns body)[ordinal]?.bind fun child => bodyAt child path

-- the lane of a task, from the enqueue ordinals that lead to it
def laneOf (path : List Nat) : UInt64 :=
  path.foldl (fun lane ordinal => childLane lane (UInt64.ofNat ordinal)) 0

theorem laneOf_child (path : List Nat) (ordinal : Nat) :
    laneOf (path ++ [ordinal]) = childLane (laneOf path) (UInt64.ofNat ordinal) := by
  rw [laneOf, List.foldl_append, List.foldl_cons, List.foldl_nil, ← laneOf]

theorem laneOf_ne_zero {path : List Nat} (h : path ≠ []) : laneOf path ≠ 0 := by
  rcases List.eq_nil_or_concat path with hnil | ⟨parent, ordinal, rfl⟩
  · exact absurd hnil h
  · rw [List.concat_eq_append, laneOf_child]
    exact childLane_ne_zero _ _

theorem bodyAt_child (body : List Action) (path : List Nat) (ordinal : Nat) :
    bodyAt body (path ++ [ordinal]) = (bodyAt body path).bind fun b => (spawns b)[ordinal]? := by
  induction path generalizing body with
  | nil => simp [bodyAt]
  | cons k path ih => simp only [List.cons_append, bodyAt, ih, Option.bind_assoc]

theorem uses_of_mem {bad : Action → Bool} {body : List Action} (h : bodyUses bad body = false)
    {a : Action} (ha : a ∈ body) : a.uses bad = false := by
  induction body with
  | nil => cases ha
  | cons b body ih =>
    rw [bodyUses, Bool.or_eq_false_iff] at h
    rcases List.mem_cons.mp ha with rfl | ha
    · exact h.1
    · exact ih h.2 ha

theorem bad_of_mem {bad : Action → Bool} {body : List Action} (h : bodyUses bad body = false)
    {a : Action} (ha : a ∈ body) : bad a = false := by
  have huses := uses_of_mem h ha
  cases a <;> simp only [Action.uses, Bool.or_eq_false_iff] at huses <;> simp [huses]

theorem bodyAt_uses {bad : Action → Bool} {body child : List Action} {path : List Nat}
    (h : bodyUses bad body = false) (hat : bodyAt body path = some child) :
    bodyUses bad child = false := by
  induction path generalizing body with
  | nil =>
    cases hat
    exact h
  | cons ordinal path ih =>
    obtain ⟨b, hb, hat⟩ := Option.bind_eq_some_iff.mp hat
    refine ih ?_ hat
    obtain ⟨a, ha, hab⟩ := List.mem_filterMap.mp (List.mem_of_getElem? hb)
    have huses := uses_of_mem h ha
    cases a with
    | enqueue body =>
      cases hab
      rw [Action.uses, Bool.or_eq_false_iff] at huses
      exact huses.2
    | _ => cases hab

end Trees

section Reference

variable {AesKey : Type} (m : Machine AesKey)

inductive Sampled : Prg AesKey → Nat → Prg AesKey → Prop
  | accept {p p' : Prg AesKey} {n : Nat}
    (hdraw : drawCandidate m p = .ok (n, p')) (hn : n < m.order) :
    Sampled p n p'
  | retry {p p' q : Prg AesKey} {n k : Nat}
    (hdraw : drawCandidate m p = .ok (k, p')) (hk : m.order ≤ k)
    (hrest : Sampled p' n q) : Sampled p n q

structure Account (AesKey : Type) where
  seeds : Nat
  prg : Option (Prg AesKey)
  obtained : List Obtained
  spawned : Nat

def Account.generator (lane : UInt64) (a : Account AesKey) : Prg AesKey :=
  a.prg.getD (m.prg ⟨lane, UInt64.ofNat a.seeds⟩)

def Account.seedsWithGenerator (a : Account AesKey) : Nat :=
  if a.prg.isSome then a.seeds else a.seeds + 1

-- what a body obtains that has a lane and a thread to itself; the newest action stands first
inductive Performs (lane : UInt64) : List Action → Account AesKey → Prop
  | start : Performs lane [] ⟨0, none, [], 0⟩
  | construct {done : List Action} {a : Account AesKey} (h : Performs lane done a) :
    Performs lane (.construct :: done) { a with
      seeds := a.seeds + 1
      obtained := a.obtained ++ [.seed ⟨lane, UInt64.ofNat a.seeds⟩] }
  | enqueue {done : List Action} {a : Account AesKey} (body : List Action)
    (h : Performs lane done a) :
    Performs lane (.enqueue body :: done) { a with spawned := a.spawned + 1 }
  | destroyPool {done : List Action} {a : Account AesKey} (h : Performs lane done a) :
    Performs lane (.destroyPool :: done) a
  | randScalar {done : List Action} {a : Account AesKey} {n : Nat} {p : Prg AesKey}
    (h : Performs lane done a) (hsample : Sampled m (a.generator m lane) n p) :
    Performs lane (.randScalar :: done) { a with
      seeds := a.seedsWithGenerator
      prg := some p
      obtained := a.obtained ++ [.scalar n] }

variable {m}

theorem account_seeded {lane : UInt64} {a : Account AesKey} {p : Prg AesKey}
    (h : a.prg = some p) : a.seedsWithGenerator = a.seeds ∧ a.generator m lane = p := by
  rw [Account.seedsWithGenerator, Account.generator, h]
  exact ⟨rfl, rfl⟩

theorem account_unseeded {lane : UInt64} {a : Account AesKey} (h : a.prg = none) :
    a.seedsWithGenerator = a.seeds + 1 ∧
      a.generator m lane = m.prg ⟨lane, UInt64.ofNat a.seeds⟩ := by
  rw [Account.seedsWithGenerator, Account.generator, h]
  exact ⟨rfl, rfl⟩

theorem sampled_unique {p q : Prg AesKey} {n : Nat} (h : Sampled m p n q) :
    ∀ {n' : Nat} {q' : Prg AesKey}, Sampled m p n' q' → n = n' ∧ q = q' := by
  induction h with
  | accept hdraw hn =>
    intro n' q' h'
    cases h' with
    | accept hdraw' hn' =>
      rw [hdraw] at hdraw'
      cases hdraw'
      exact ⟨rfl, rfl⟩
    | retry hdraw' hk' hrest' =>
      rw [hdraw] at hdraw'
      cases hdraw'
      exact absurd hn (Nat.not_lt.mpr hk')
  | retry hdraw hk hrest ih =>
    intro n' q' h'
    cases h' with
    | accept hdraw' hn' =>
      rw [hdraw] at hdraw'
      cases hdraw'
      exact absurd hn' (Nat.not_lt.mpr hk)
    | retry hdraw' hk' hrest' =>
      rw [hdraw] at hdraw'
      cases hdraw'
      exact ih hrest'

theorem performs_unique {lane : UInt64} {done : List Action} {a : Account AesKey}
    (h : Performs m lane done a) : ∀ {b : Account AesKey}, Performs m lane done b → a = b := by
  induction h with
  | start =>
    intro b hb
    cases hb
    rfl
  | construct h ih =>
    intro b hb
    cases hb with
    | construct hb => rw [ih hb]
  | enqueue body h ih =>
    intro b hb
    cases hb with
    | enqueue _ hb => rw [ih hb]
  | destroyPool h ih =>
    intro b hb
    cases hb with
    | destroyPool hb => exact ih hb
  | randScalar h hsample ih =>
    intro b hb
    cases hb with
    | randScalar hb hsample' =>
      have heq := ih hb
      subst heq
      obtain ⟨rfl, rfl⟩ := sampled_unique hsample hsample'
      rfl

theorem performs_prefix {lane : UInt64} {later done : List Action} {b : Account AesKey}
    (h : Performs m lane (later ++ done) b) :
    ∃ a, Performs m lane done a ∧ a.obtained <+: b.obtained := by
  induction later generalizing b with
  | nil => exact ⟨b, h, List.prefix_refl _⟩
  | cons x later ih =>
    cases h with
    | construct h =>
      obtain ⟨a, ha, hprefix⟩ := ih h
      exact ⟨a, ha, hprefix.trans (List.prefix_append _ _)⟩
    | enqueue body h =>
      obtain ⟨a, ha, hprefix⟩ := ih h
      exact ⟨a, ha, hprefix⟩
    | destroyPool h => exact ih h
    | randScalar h hsample =>
      obtain ⟨a, ha, hprefix⟩ := ih h
      exact ⟨a, ha, hprefix.trans (List.prefix_append _ _)⟩

-- an account only grows: what the longer one holds at a place, the shorter one holds there too
theorem performs_agree {lane : UInt64} {later done : List Action} {a b : Account AesKey}
    (ha : Performs m lane done a) (hb : Performs m lane (later ++ done) b) {nth : Nat}
    {what what' : Obtained} (hwhat : a.obtained[nth]? = some what)
    (hwhat' : b.obtained[nth]? = some what') : what = what' := by
  obtain ⟨a', ha', rest, hprefix⟩ := performs_prefix hb
  cases performs_unique ha ha'
  obtain ⟨hlt, -⟩ := List.getElem?_eq_some_iff.mp hwhat
  rw [← hprefix, List.getElem?_append_left hlt, hwhat] at hwhat'
  exact Option.some.inj hwhat'

theorem performs_seeds {lane : UInt64} {done : List Action} {a : Account AesKey}
    (h : Performs m lane done a) (hscalar : .randScalar ∉ done) :
    a.obtained = (List.range a.seeds).map fun j => .seed ⟨lane, UInt64.ofNat j⟩ := by
  induction h with
  | start => rfl
  | construct h ih =>
    rw [List.range_succ, List.map_append, ← ih fun hmem => hscalar (List.mem_cons_of_mem _ hmem)]
    rfl
  | enqueue body h ih => exact ih fun hmem => hscalar (List.mem_cons_of_mem _ hmem)
  | destroyPool h ih => exact ih fun hmem => hscalar (List.mem_cons_of_mem _ hmem)
  | randScalar h hsample ih => exact absurd List.mem_cons_self hscalar

end Reference

end EmpTool.TestMode
