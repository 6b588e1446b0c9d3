import Mathlib.Data.List.Basic

namespace Framing

variable {α β : Type}

def SelfDelimiting (P : α → Prop) (enc : α → List β) : Prop :=
  ∀ ⦃a b : α⦄, P a → P b → ∀ r s : List β, enc a ++ r = enc b ++ s → a = b ∧ r = s

theorem selfDelimiting_of_header {P : α → Prop} {header payload : α → List β} {n : Nat}
    (hsize : ∀ a, (header a).length = n)
    (hlength : ∀ ⦃a b⦄, P a → P b → header a = header b → (payload a).length = (payload b).length)
    (hinj : ∀ ⦃a b⦄, P a → P b → header a = header b → payload a = payload b → a = b) :
    SelfDelimiting P fun a => header a ++ payload a := by
  intro a b ha hb r s h
  simp only [List.append_assoc] at h
  obtain ⟨hheader, hrest⟩ := List.append_inj h ((hsize a).trans (hsize b).symm)
  obtain ⟨hpayload, hr⟩ := List.append_inj hrest (hlength ha hb hheader)
  exact ⟨hinj ha hb hheader hpayload, hr⟩

theorem SelfDelimiting.flatMap_inj {P : α → Prop} {enc : α → List β} (h : SelfDelimiting P enc)
    (hne : ∀ a, enc a ≠ []) {as bs : List α} (ha : ∀ a ∈ as, P a) (hb : ∀ b ∈ bs, P b)
    (heq : as.flatMap enc = bs.flatMap enc) : as = bs := by
  induction as generalizing bs with
  | nil =>
    cases bs with
    | nil => rfl
    | cons b bs => exact absurd (List.append_eq_nil_iff.mp heq.symm).1 (hne b)
  | cons a as ih =>
    cases bs with
    | nil => exact absurd (List.append_eq_nil_iff.mp heq).1 (hne a)
    | cons b bs =>
      simp only [List.flatMap_cons, List.forall_mem_cons] at heq ha hb
      obtain ⟨rfl, hrest⟩ := h ha.1 hb.1 _ _ heq
      rw [ih ha.2 hb.2 hrest]

end Framing
