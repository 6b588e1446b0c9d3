import EmpTool.Runtime.PoolSteps

namespace EmpTool.TestMode

def Event.drewLane0 : Event → Option Nat
  | .obtained t _ _ (.seed s) => if s.lane = 0 then some t else none
  | .seeded t _ s => if s.lane = 0 then some t else none
  | _ => none

def Exclusive (log : List Event) : Prop :=
  ∀ before between after, log = before ++ (between ++ after) → .reset ∉ between →
    ∀ e ∈ between, ∀ e' ∈ between, ∀ t t', e.drewLane0 = some t → e'.drewLane0 = some t' → t = t'

-- whoever drew from lane 0 since the last reset is its owner
def Held (token : Nat → UInt64) (owner : UInt64) (log : List Event) : Prop :=
  ∀ before since, log = before ++ since → .reset ∉ since →
    ∀ e ∈ since, ∀ t, e.drewLane0 = some t → owner = token t

theorem snoc_eq_append {α : Type} {xs ys zs : List α} {a : α} (h : xs ++ [a] = ys ++ zs) :
    zs = [] ∨ ∃ zs', zs = zs' ++ [a] ∧ xs = ys ++ zs' := by
  rcases List.eq_nil_or_concat zs with rfl | ⟨zs', b, rfl⟩
  · exact Or.inl rfl
  · rw [List.concat_eq_append, ← List.append_assoc] at h
    obtain ⟨hxs, hab⟩ := List.append_inj' h rfl
    cases hab
    exact Or.inr ⟨zs', List.concat_eq_append, hxs⟩

section Snoc

variable {token : Nat → UInt64} {owner : UInt64} {log : List Event} {e : Event}

theorem held_of_unowned (hheld : Held token 0 log) (hzero : ∀ t, token t ≠ 0) :
    Held token owner log := by
  intro before since hlog hsince d hd t hdrew
  exact absurd (hheld before since hlog hsince d hd t hdrew).symm (hzero t)

theorem held_snoc (hold : e ≠ .reset → Held token owner log)
    (hnew : ∀ t, e.drewLane0 = some t → owner = token t) : Held token owner (log ++ [e]) := by
  intro before since hlog hsince d hd t hdrew
  rcases snoc_eq_append hlog with rfl | ⟨since', rfl, hlog'⟩
  · cases hd
  · rw [List.mem_append, not_or, List.mem_singleton] at hsince
    rcases List.mem_append.mp hd with hd | hd
    · exact hold (fun he => hsince.2 he.symm) before since' hlog' hsince.1 d hd t hdrew
    · cases List.mem_singleton.mp hd
      exact hnew t hdrew

theorem exclusive_snoc (hzero : ∀ t, token t ≠ 0) (hexcl : Exclusive log)
    (hheld : Held token owner log)
    (hnew : ∀ t, e.drewLane0 = some t → owner = 0 ∨ owner = token t)
    (htoken : ∀ t, e.drewLane0 = some t → ∀ d ∈ log, ∀ u, d.drewLane0 = some u →
      token u = token t → u = t) : Exclusive (log ++ [e]) := by
  -- the newest event meets the older ones of its stretch only through the owner
  have hmeet : ∀ before since, log = before ++ since → .reset ∉ since → ∀ d ∈ since, ∀ t t',
      d.drewLane0 = some t → e.drewLane0 = some t' → t = t' := by
    intro before since hlog hsince d hd t t' hdrew hdrew'
    have howner := hheld before since hlog hsince d hd t hdrew
    have hown := (hnew t' hdrew').resolve_left (howner ▸ hzero t)
    have hmem : d ∈ log := hlog ▸ List.mem_append_right before hd
    exact htoken t' hdrew' d hmem t hdrew (howner.symm.trans hown)
  intro before between after hlog hbetween d hd d' hd' t t' hdrew hdrew'
  rcases snoc_eq_append hlog with hnil | ⟨rest, hrest, hlog'⟩
  · rw [(List.append_eq_nil_iff.mp hnil).1] at hd
    cases hd
  rcases snoc_eq_append hrest.symm with rfl | ⟨after', rfl, hrest'⟩
  · rw [List.append_nil] at hrest
    subst hrest
    rw [List.mem_append, not_or] at hbetween
    rcases List.mem_append.mp hd with hd | hd <;> rcases List.mem_append.mp hd' with hd' | hd'
    · exact hexcl before rest [] (by rw [List.append_nil]; exact hlog') hbetween.1 d hd d' hd' t t'
        hdrew hdrew'
    · cases List.mem_singleton.mp hd'
      exact hmeet before rest hlog' hbetween.1 d hd t t' hdrew hdrew'
    · cases List.mem_singleton.mp hd
      exact (hmeet before rest hlog' hbetween.1 d' hd' t' t hdrew' hdrew).symm
    · cases List.mem_singleton.mp hd
      cases List.mem_singleton.mp hd'
      exact Option.some.inj (hdrew.symm.trans hdrew')
  · exact hexcl before between after' (hrest' ▸ hlog') hbetween d hd d' hd' t t' hdrew hdrew'

end Snoc

structure OneOwner (active : Nat → Prop) (token : Nat → UInt64) (g : Shared) : Prop where
  exclusive : Exclusive g.log
  held : Held token g.owner g.log
  drawn : ∀ e ∈ g.log, ∀ t, e.drewLane0 = some t → active t

section Draws

variable {active : Nat → Prop} {token : Nat → UInt64} {g : Shared} {t : Nat} {e : Event}

theorem drawn_snoc {log : List Event} (h : ∀ d ∈ log, ∀ u, d.drewLane0 = some u → active u)
    (he : ∀ u, e.drewLane0 = some u → active u) :
    ∀ d ∈ log ++ [e], ∀ u, d.drewLane0 = some u → active u := by
  intro d hd
  rcases List.mem_append.mp hd with hd | hd
  · exact h d hd
  · cases List.mem_singleton.mp hd
    exact he

theorem oneOwner_quiet (hzero : ∀ t, token t ≠ 0) (h : OneOwner active token g)
    {owner : UInt64} (he : e.drewLane0 = none) (howner : e ≠ .reset → owner = g.owner) :
    OneOwner active token ({ g with owner := owner }.record e) := by
  have hnone : ∀ u, e.drewLane0 ≠ some u := fun u hu => nomatch he.symm.trans hu
  refine ⟨exclusive_snoc hzero h.exclusive h.held (fun u hu => absurd hu (hnone u))
    fun u hu => absurd hu (hnone u), held_snoc (fun hne => ?_) fun u hu => absurd hu (hnone u),
    drawn_snoc h.drawn fun u hu => absurd hu (hnone u)⟩
  show Held token owner g.log
  rw [howner hne]
  exact h.held

theorem oneOwner_draw (hzero : ∀ t, token t ≠ 0)
    (htoken : ∀ t u, active t → active u → token t = token u → t = u) (ht : active t)
    (h : OneOwner active token g) {s s' : TestSeedTls} {seed : TestSeed} {owner : UInt64}
    (hdraw : nextTestSeed (token t) g.owner s = .ok (seed, owner, s'))
    (he : e.drewLane0 = if seed.lane = 0 then some t else none) :
    OneOwner active token ({ g with owner := owner }.record e) := by
  obtain ⟨rfl, -, hlane0, hlane⟩ := nextTestSeed_ok hdraw
  by_cases hz : s.lane = 0
  · obtain ⟨hown, rfl⟩ := hlane0 hz
    rw [if_pos hz] at he
    have honly : ∀ u, e.drewLane0 = some u → u = t :=
      fun u hu => (Option.some.inj (he.symm.trans hu)).symm
    refine ⟨exclusive_snoc hzero h.exclusive h.held ?_ ?_, held_snoc (fun _ => ?_) ?_,
      drawn_snoc h.drawn fun u hu => honly u hu ▸ ht⟩
    · exact fun u hu => honly u hu ▸ hown
    · exact fun u hu d hd v hv htok =>
        htoken v u (h.drawn d hd v hv) (honly u hu ▸ ht) htok
    · rcases hown with hown | hown
      · exact held_of_unowned (hown ▸ h.held) hzero
      · exact hown ▸ h.held
    · exact fun u hu => honly u hu ▸ rfl
  · rw [if_neg hz] at he
    exact oneOwner_quiet hzero h he fun _ => hlane hz

end Draws

variable {AesKey : Type} {m : Machine AesKey} {active : Nat → Prop}

theorem oneOwner_step
    (htoken : ∀ t u, active t → active u → m.token t = m.token u → t = u) {t : Nat}
    (ht : active t) {g g' : Shared} {th th' : Thread AesKey} (hstep : Step m t g th g' th')
    (h : OneOwner active m.token g) : OneOwner active m.token g' := by
  have hzero : ∀ t, m.token t ≠ 0 := fun t => thisThreadToken_ne_zero _
  cases hstep with
  | draw seed owner tls hp hdraw => exact oneOwner_draw hzero htoken ht h hdraw rfl
  | seed epoch seed owner tls hp hdraw => exact oneOwner_draw hzero htoken ht h hdraw rfl
  | accept p p' n hp hprg hdraw hn => exact oneOwner_quiet hzero h rfl fun _ => rfl
  | release hp => exact oneOwner_quiet hzero h rfl fun hne => absurd rfl hne
  | _ => exact ⟨h.exclusive, h.held, h.drawn⟩

theorem exclusive_run {schedule : List Nat}
    (htoken : ∀ t ∈ schedule, ∀ u ∈ schedule, m.token t = m.token u → t = u)
    (program : Nat → Option (List Action)) : Exclusive (m.run schedule program).shared.log := by
  have hupholds : Interleaving.Upholds (threadStep m) (· ∈ schedule)
      (OneOwner (· ∈ schedule) m.token) (fun _ _ _ => True) (fun _ => True) :=
    { earlier := fun _ _ _ _ => trivial
      shared := fun _ _ _ ht hG _ _ =>
        oneOwner_step (fun t u ht hu => htoken t ht u hu) ht threadStep_step hG
      own := fun _ _ _ _ _ _ _ => trivial
      other := fun _ _ _ _ _ _ _ _ => trivial }
  have hstart : OneOwner (· ∈ schedule) m.token startShared := by
    refine ⟨fun before between after hlog _ e he => ?_, fun before since hlog _ e he => ?_, nofun⟩
    · rw [(List.append_eq_nil_iff.mp (List.append_eq_nil_iff.mp hlog.symm).2).1] at he
      cases he
    · rw [(List.append_eq_nil_iff.mp hlog.symm).2] at he
      cases he
  exact (Interleaving.run_upholds hupholds (fun _ ht => ht) hstart (fun _ => trivial)
    fun _ => trivial).1.exclusive

end EmpTool.TestMode
