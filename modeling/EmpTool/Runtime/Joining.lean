import EmpTool.Library.Await
import Mathlib.Data.List.GetD

namespace EmpTool.Joining

open Process Await

section Model

variable {T : Type}

-- `res` is known by the numbers of the tasks whose futures it holds
abbrev Join (T : Type) := Action (List Nat) Nat fun _ => T

def getAll : List Nat → Join T Unit
  | [] => pure ()
  | v :: rest => do
    let _ ← Action.request v
    getAll rest

-- the future of a `std::async` task waits for it when it is destroyed, that of a pool's task
-- does not
def destroy (waits : Nat → Bool) (v : Nat) : Join T Unit :=
  if waits v then do
    let _ ← Action.request v
    pure ()
  else pure ()

def destroyAll (waits : Nat → Bool) : List Nat → Join T Unit
  | [] => pure ()
  | v :: rest => do
    destroy waits v
    destroyAll waits rest

def clear (waits : Nat → Bool) : Join T Unit := do
  let res ← Action.get
  destroyAll waits res
  Action.modify fun _ => []

def joinNclean (waits : Nat → Bool) : Join T Unit := do
  let res ← Action.get
  getAll res
  clear waits

-- `cheat = cheat || v.get()` asks for nothing once `cheat` is set
def orAll (cheat : Bool) : List Nat → Join Bool Bool
  | [] => pure cheat
  | v :: rest => do
    let cheat ← if cheat then pure true else Action.request v
    orAll cheat rest

def joinNcleanCheat (waits : Nat → Bool) : Join Bool Bool := do
  let res ← Action.get
  let cheat ← orAll false res
  clear waits
  pure cheat

def start {α : Type} (call : Join T α) (n : Nat) : Config (List Nat) Nat (fun _ => T) α where
  done _ := false
  caller := call (List.range n)

end Model

section Barrier

variable {T α : Type}

structure Barrier (result : Nat → T) (call : Join T α) (n : Nat) (value : α) : Prop where
  waited : ∀ moves res a, (run result moves (start call n)).caller = .ret res a →
    ∀ task < n, (run result moves (start call n)).done task = true
  returned : ∀ moves res a, (run result moves (start call n)).caller = .ret res a →
    a = value ∧ res = []
  returns : ∀ moves, (∀ task < n, (run result moves (start call n)).done task = true) →
    ∃ k res a, (run result (moves ++ List.replicate k .advance) (start call n)).caller = .ret res a

end Barrier

section Rules

variable {T : Type} {result : Nat → T} {asks known : Nat → Prop} {waits : Nat → Bool}

theorem getAll_meets {s : List Nat} (l : List Nat) (hasks : ∀ v ∈ l, asks v) :
    (getAll l s).Meets (contract result asks)
      (fun t s' _ => s' = s ∧ (∀ v, known v → t v) ∧ ∀ v ∈ l, t v) known := by
  induction l generalizing known with
  | nil => exact ⟨rfl, fun _ h => h, nofun⟩
  | cons v rest ih =>
    rw [List.forall_mem_cons] at hasks
    refine meets_request hasks.1 fun reply _ => (ih hasks.2).mono fun t s' _ h => ?_
    obtain ⟨hs, hold, hrest⟩ := h
    refine ⟨hs, fun w hw => hold w (Or.inl hw), ?_⟩
    rw [List.forall_mem_cons]
    exact ⟨hold v (Or.inr rfl), hrest⟩

theorem destroy_meets {s : List Nat} (v : Nat) (hasks : waits v = true → asks v) :
    (destroy waits v s).Meets (contract result asks)
      (fun t s' _ => s' = s ∧ (∀ w, known w → t w) ∧ (waits v = true → t v)) known := by
  rw [destroy]
  split
  case isTrue hwaits =>
    refine meets_request (hasks hwaits) fun reply _ => ?_
    exact ⟨rfl, fun w hw => Or.inl hw, fun _ => Or.inr rfl⟩
  case isFalse hwaits => exact ⟨rfl, fun _ h => h, fun h => absurd h hwaits⟩

theorem destroyAll_meets {s : List Nat} (l : List Nat)
    (hasks : ∀ v ∈ l, waits v = true → asks v) :
    (destroyAll waits l s).Meets (contract result asks)
      (fun t s' _ => s' = s ∧ (∀ v, known v → t v) ∧ ∀ v ∈ l, waits v = true → t v) known := by
  induction l generalizing known s with
  | nil => exact ⟨rfl, fun _ h => h, nofun⟩
  | cons v rest ih =>
    rw [List.forall_mem_cons] at hasks
    refine meets_bind (destroy_meets v hasks.1) fun t s' _ hv => ?_
    obtain ⟨rfl, hold, hv⟩ := hv
    refine (ih hasks.2).mono fun t' s'' _ hrest => ?_
    obtain ⟨rfl, hkept, hrest⟩ := hrest
    refine ⟨rfl, fun w hw => hkept w (hold w hw), ?_⟩
    rw [List.forall_mem_cons]
    exact ⟨fun h => hkept v (hv h), hrest⟩

theorem clear_meets {s : List Nat} (hasks : ∀ v ∈ s, waits v = true → asks v) :
    (clear waits s).Meets (contract result asks)
      (fun t s' _ => s' = [] ∧ (∀ v, known v → t v) ∧ ∀ v ∈ s, waits v = true → t v) known := by
  refine meets_get (meets_bind (destroyAll_meets s hasks) fun t s' _ hkept => ?_)
  exact ⟨rfl, hkept.2⟩

theorem joinNclean_meets (l : List Nat) :
    (joinNclean waits l).Meets (contract result (· ∈ l))
      (fun t s' a => (a = () ∧ s' = []) ∧ ∀ v ∈ l, t v) fun _ => False := by
  refine meets_get (meets_bind (getAll_meets l fun v hv => hv) fun t s' _ hget => ?_)
  obtain ⟨rfl, -, hall⟩ := hget
  refine (clear_meets fun v hv _ => hv).mono fun t' s'' _ hclear => ?_
  obtain ⟨rfl, hkept, -⟩ := hclear
  exact ⟨⟨rfl, rfl⟩, fun v hv => hkept v (hall v hv)⟩

end Rules

section Reduction

variable {result : Nat → Bool} {asks known : Nat → Prop} {waits : Nat → Bool}

def Reached (result : Nat → Bool) (l : List Nat) (v : Nat) : Prop :=
  ∃ before after, l = before ++ v :: after ∧ ∀ u ∈ before, result u = false

theorem reached_head (v : Nat) (rest : List Nat) : Reached result (v :: rest) v :=
  ⟨[], rest, rfl, nofun⟩

theorem Reached.tail {v w : Nat} {rest : List Nat} (hv : result v = false)
    (h : Reached result rest w) : Reached result (v :: rest) w := by
  obtain ⟨before, after, hl, hbefore⟩ := h
  refine ⟨v :: before, after, by rw [hl]; rfl, ?_⟩
  rw [List.forall_mem_cons]
  exact ⟨hv, hbefore⟩

theorem Reached.eq_or_tail {v w : Nat} {rest : List Nat} (h : Reached result (v :: rest) w) :
    w = v ∨ result v = false ∧ Reached result rest w := by
  obtain ⟨before, after, hl, hbefore⟩ := h
  cases before with
  | nil =>
    rw [List.nil_append, List.cons.injEq] at hl
    exact Or.inl hl.1.symm
  | cons u before =>
    rw [List.cons_append, List.cons.injEq] at hl
    rw [List.forall_mem_cons] at hbefore
    obtain ⟨rfl, hl⟩ := hl
    exact Or.inr ⟨hbefore.1, before, after, hl, hbefore.2⟩

theorem orAll_meets {cheat : Bool} {s : List Nat} (l : List Nat)
    (hasks : cheat = false → ∀ v, Reached result l v → asks v) :
    (orAll cheat l s).Meets (contract result asks)
      (fun t s' a => (s' = s ∧ a = (cheat || l.any result)) ∧ (∀ v, known v → t v) ∧
        (cheat = false → ∀ v, Reached result l v → t v)) known := by
  induction l generalizing cheat known with
  | nil =>
    refine ⟨⟨rfl, (Bool.or_false cheat).symm⟩, fun _ h => h, fun _ v h => ?_⟩
    obtain ⟨before, after, hl, -⟩ := h
    exact absurd hl.symm (List.append_ne_nil_of_right_ne_nil before (List.cons_ne_nil v after))
  | cons v rest ih =>
    cases cheat with
    | true =>
      have hrest := @ih known true fun h => Bool.noConfusion h
      exact hrest.mono fun t s' a h => ⟨h.1, h.2.1, fun h => Bool.noConfusion h⟩
    | false =>
      refine meets_request (hasks rfl v (reached_head v rest)) fun reply hreply => ?_
      subst hreply
      refine (ih fun hv w hw => hasks rfl w (hw.tail hv)).mono fun t s' a h => ?_
      obtain ⟨⟨hs, ha⟩, hold, hrest⟩ := h
      refine ⟨⟨hs, by rw [ha, List.any_cons, Bool.false_or]⟩, fun w hw => hold w (Or.inl hw),
        fun _ w hw => ?_⟩
      rcases hw.eq_or_tail with rfl | ⟨hv, hw⟩
      · exact hold w (Or.inr rfl)
      · exact hrest hv w hw

-- the futures that the call waits for: the loop asks for some, their destructors for others
def Waited (result : Nat → Bool) (waits : Nat → Bool) (l : List Nat) (v : Nat) : Prop :=
  Reached result l v ∨ v ∈ l ∧ waits v = true

theorem joinNcleanCheat_meets (l : List Nat) :
    (joinNcleanCheat waits l).Meets (contract result (Waited result waits l))
      (fun t s' a => (a = l.any result ∧ s' = []) ∧ ∀ v, Waited result waits l v → t v)
      fun _ => False := by
  refine meets_get (meets_bind (orAll_meets l fun _ v hv => Or.inl hv) fun t s' a hor => ?_)
  obtain ⟨⟨rfl, ha⟩, -, hreached⟩ := hor
  refine meets_bind (clear_meets fun v hv hw => Or.inr ⟨hv, hw⟩) fun t' s'' _ hclear => ?_
  obtain ⟨rfl, hkept, hwaits⟩ := hclear
  refine ⟨⟨ha, rfl⟩, fun v hv => ?_⟩
  rcases hv with hv | ⟨hv, hw⟩
  · exact hkept v (hreached rfl v hv)
  · exact hwaits v hv hw

end Reduction

section Barriers

theorem barrier_of_meets {T α : Type} {result : Nat → T} {call : Join T α} {n : Nat} {value : α}
    {asks : Nat → Prop} (hasks : ∀ task, asks task → task < n)
    (hmeets : (call (List.range n)).Meets (contract result asks)
      (fun t s a => (a = value ∧ s = []) ∧ ∀ task ∈ List.range n, t task) fun _ => False) :
    Barrier result call n value where
  waited moves res a hreturned task htask := by
    obtain ⟨known, hpost, hdone⟩ := run_returned (c := start call n) hmeets hreturned
    exact hdone task (hpost.2 task (List.mem_range.mpr htask))
  returned moves res a hreturned := by
    obtain ⟨known, hpost, -⟩ := run_returned (c := start call n) hmeets hreturned
    exact hpost.1
  returns moves hall := by
    obtain ⟨known, hstill, -⟩ := run_meets (c := start call n) moves hmeets fun _ h => h.elim
    obtain ⟨k, res, a, hrun⟩ :=
      advances_return (fun task h => hall task (hasks task h)) _ hstill
    refine ⟨k, res, a, ?_⟩
    rw [run_append]
    exact congrArg Config.caller hrun

theorem joinNclean_barrier {T : Type} (result : Nat → T) (waits : Nat → Bool) (n : Nat) :
    Barrier result (joinNclean waits) n () :=
  barrier_of_meets (fun _ h => List.mem_range.mp h) (joinNclean_meets (List.range n))

theorem reached_range {result : Nat → Bool} {n v : Nat} :
    Reached result (List.range n) v ↔ v < n ∧ ∀ u < v, result u = false := by
  constructor
  · intro h
    obtain ⟨before, after, hl, hbefore⟩ := h
    have hlength : before.length < n := by
      have := congrArg List.length hl
      rw [List.length_range, List.length_append, List.length_cons] at this
      omega
    have hv : v = before.length := by
      have := congrArg (·[before.length]?) hl
      simpa [hlength] using this.symm
    refine ⟨hv ▸ hlength, fun u hu => hbefore u ?_⟩
    have hu' := congrArg (·[u]?) hl
    simp only [List.getElem?_append_left (hv ▸ hu), List.getElem?_range (by omega : u < n)] at hu'
    exact List.mem_of_getElem? hu'.symm
  · rintro ⟨hv, hfalse⟩
    refine ⟨List.range v, (List.range n).drop (v + 1), ?_, fun u hu => ?_⟩
    · have hdrop := List.drop_eq_getElem_cons (l := List.range n) (by simpa using hv)
      have htake : (List.range n).take v = List.range v := by
        rw [List.take_range, Nat.min_eq_left (Nat.le_of_lt hv)]
      rw [List.getElem_range] at hdrop
      rw [← hdrop, ← htake, List.take_append_drop]
    · exact hfalse u (List.mem_range.mp hu)

theorem waited_range {result waits : Nat → Bool} {n v : Nat} :
    Waited result waits (List.range n) v ↔
      v < n ∧ ((∀ u < v, result u = false) ∨ waits v = true) := by
  rw [Waited, reached_range, List.mem_range, ← and_or_left]

theorem true_mem_take {results : List Bool} {i : Nat} (hi : i < results.length) :
    true ∈ results.take i ↔ ¬∀ u < i, results.getD u false = false := by
  rw [List.mem_take_iff_getElem]
  constructor
  · rintro ⟨u, hu, htrue⟩ hfalse
    have := hfalse u (by omega)
    rw [List.getD_eq_getElem results false (by omega), htrue] at this
    exact Bool.noConfusion this
  · intro hsome
    rw [not_forall] at hsome
    obtain ⟨u, hu⟩ := hsome
    rw [Classical.not_imp, Bool.not_eq_false] at hu
    refine ⟨u, by omega, ?_⟩
    rw [← List.getD_eq_getElem results false]
    exact hu.2

theorem any_getD (results : List Bool) :
    (List.range results.length).any (fun i => results.getD i false) = results.or := by
  have hmap : (List.range results.length).map (fun i => results.getD i false) = results := by
    refine List.ext_getElem (by simp) fun i hi hi' => ?_
    rw [List.getElem_map, List.getElem_range, List.getD_eq_getElem _ _ hi']
  calc (List.range results.length).any (fun i => results.getD i false)
      = ((List.range results.length).map fun i => results.getD i false).any id := by
        rw [List.any_map]
        rfl
    _ = results.or := by rw [hmap, List.or]

theorem joinNcleanCheat_returned {waits : Nat → Bool} {results : List Bool}
    {moves : List (Move Nat)} {res : List Nat} {cheat : Bool}
    (hreturned : (run (fun i => results.getD i false) moves
      (start (joinNcleanCheat waits) results.length)).caller = .ret res cheat) :
    cheat = results.or ∧ res = [] := by
  have hmeets := @joinNcleanCheat_meets (fun i => results.getD i false) waits
    (List.range results.length)
  obtain ⟨known, hpost, -⟩ :=
    run_returned (c := start (joinNcleanCheat waits) results.length) hmeets hreturned
  exact ⟨by rw [hpost.1.1, any_getD], hpost.1.2⟩

theorem joinNcleanCheat_barrier_iff (waits : Nat → Bool) (results : List Bool) :
    Barrier (fun i => results.getD i false) (joinNcleanCheat waits) results.length results.or ↔
      ∀ i < results.length, true ∈ results.take i → waits i = true := by
  have hmeets := @joinNcleanCheat_meets (fun i => results.getD i false) waits
    (List.range results.length)
  constructor
  · intro hbarrier i hi htrue
    by_contra hwaits
    -- every task but this one completes, and the caller goes on as long as it can
    let others := (List.range results.length).filter (· ≠ i)
    have hready : ∀ task, Waited (fun i => results.getD i false) waits
        (List.range results.length) task → (decide (task ∈ others) || false) = true := by
      intro task htask
      rw [waited_range] at htask
      have hne : task ≠ i := by
        rintro rfl
        exact htask.2.elim ((true_mem_take hi).mp htrue) hwaits
      simp [others, htask.1, hne]
    obtain ⟨k, res, a, hrun⟩ := advances_return hready _ hmeets
    have hjoined : run (fun i => results.getD i false)
        (others.map .complete ++ List.replicate k .advance)
        (start (joinNcleanCheat waits) results.length) =
        ⟨fun t => decide (t ∈ others) || false, .ret res a⟩ := by
      rw [run_append, run_completes]
      exact hrun
    have hdone := hbarrier.waited _ res a (congrArg Config.caller hjoined) i hi
    rw [hjoined] at hdone
    simp [others] at hdone
  · intro hwaits
    refine barrier_of_meets (fun task h => (waited_range.mp h).1) (hmeets.mono ?_)
    rintro t s a ⟨⟨ha, hs⟩, hall⟩
    refine ⟨⟨by rw [ha, any_getD], hs⟩, fun task htask => hall task ?_⟩
    rw [List.mem_range] at htask
    by_cases htrue : true ∈ results.take task
    · exact waited_range.mpr ⟨htask, Or.inr (hwaits task htask htrue)⟩
    · rw [true_mem_take htask, not_not] at htrue
      exact waited_range.mpr ⟨htask, Or.inl htrue⟩

theorem joinNcleanCheat_passes_over :
    let result := fun i => [true, false].getD i false
    let joined := run result [.complete 0, .advance] (start (joinNcleanCheat fun _ => false) 2)
    joined.caller = .ret [] true ∧ joined.done 1 = false ∧
      ¬Barrier result (joinNcleanCheat fun _ => false) 2 true := by
  refine ⟨rfl, rfl, fun hbarrier => ?_⟩
  have hdone := hbarrier.waited [.complete 0, .advance] [] true rfl 1 (by decide)
  exact Bool.noConfusion hdone

end Barriers

end EmpTool.Joining
