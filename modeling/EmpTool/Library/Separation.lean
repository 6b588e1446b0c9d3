import Mathlib.Data.Set.Pairwise.Basic
import Mathlib.Data.List.Basic

-- computations that ask a function only where their own name allows
namespace Separation

variable {ι α β γ δ : Type}

def ReadsOnly (S : Set α) (f : (α → β) → γ) : Prop :=
  ∀ H H' : α → β, (∀ x ∈ S, H x = H' x) → f H = f H'

theorem readsOnly_const (S : Set α) (c : γ) : ReadsOnly S fun _ : α → β => c := fun _ _ _ => rfl

theorem readsOnly_query {S : Set α} {x : α} (hx : x ∈ S) : ReadsOnly S fun H : α → β => H x :=
  fun _ _ h => h x hx

-- what is asked later may depend on what was answered
theorem ReadsOnly.andThen {S : Set α} {f : (α → β) → γ} {g : γ → (α → β) → δ}
    (hf : ReadsOnly S f) (hg : ∀ c, ReadsOnly S (g c)) : ReadsOnly S fun H => g (f H) H := by
  intro H H' h
  have hsame : f H = f H' := hf H H' h
  exact (hg (f H) H H' h).trans (congrArg (fun c => g c H') hsame)

theorem ReadsOnly.map {S : Set α} {f : (α → β) → γ} (hf : ReadsOnly S f) (g : γ → δ) :
    ReadsOnly S fun H => g (f H) :=
  hf.andThen fun c => readsOnly_const S (g c)

theorem ReadsOnly.bind {ε : Type} {S : Set α} {f : (α → β) → Except ε γ}
    {g : γ → (α → β) → Except ε δ} (hf : ReadsOnly S f) (hg : ∀ c, ReadsOnly S (g c)) :
    ReadsOnly S fun H => f H >>= fun c => g c H := by
  refine @ReadsOnly.andThen α β _ _ S f (fun r H => r >>= fun c => g c H) hf fun r => ?_
  cases r with
  | error e => exact readsOnly_const S (Except.error e)
  | ok c => exact hg c

theorem exists_joint [Nonempty ι] {S : ι → Set α}
    (hdisj : ∀ i j x, x ∈ S i → x ∈ S j → i = j) (F : ι → α → β) :
    ∃ H : α → β, (∀ x, ∃ i, H x = F i x) ∧
      ∀ i {γ : Type} (f : (α → β) → γ), ReadsOnly (S i) f → f H = f (F i) := by
  have hchoice (x : α) : ∃ b : β, (∃ i, b = F i x) ∧ ∀ i, x ∈ S i → b = F i x := by
    by_cases h : ∃ i, x ∈ S i
    · obtain ⟨i, hi⟩ := h
      exact ⟨F i x, ⟨i, rfl⟩, fun j hj => by rw [hdisj i j x hi hj]⟩
    · exact ⟨F (Classical.arbitrary ι) x, ⟨_, rfl⟩, fun i hi => absurd ⟨i, hi⟩ h⟩
  choose H hpart hH using hchoice
  exact ⟨H, hpart, fun i _ f hf => hf H (F i) fun x hx => hH x i hx⟩

end Separation
