import EmpTool.Io.Fifo

namespace EmpTool.Io

open Crypto Process

-- two endpoints joined by reliable links; `ahead` counts what stdio pushes out on its own
structure Duplex where
  party : Bool → Party
  ahead : Bool → Nat

inductive Move where
  | step (side : Bool) (ev : Event)
  | drain (side : Bool) (n : Nat)

namespace Duplex

def handed (d : Duplex) (s : Bool) : List UInt8 := (d.party s).transport.handed

def arrived (d : Duplex) (s : Bool) : List UInt8 := (d.party s).transport.arrived

def wire (d : Duplex) (s : Bool) : List UInt8 :=
  (d.handed s).take (max (d.party s).transport.pushed (d.ahead s))

end Duplex

-- a link delivers what was put on it, in order, and never fails
def Event.Delivered (arrived wire : List UInt8) (ev : Event) : Bool :=
  match ev with
  | .wrote n => 0 < n
  | .read none => false
  | .read (some chunk) => 0 < chunk.length && (arrived ++ chunk).isPrefixOf wire
  | _ => true

def Duplex.step (p : Bool → Platform) (hash : HashFunction) (d : Duplex) : Move → Option Duplex
  | .step s ev =>
    if ev.Delivered (d.arrived s) (d.wire !s) then
      ((d.party s).step (p s) hash ev).map fun party =>
        { d with party := Function.update d.party s party }
    else none
  | .drain s n =>
    if n ≤ (d.handed s).length then
      some { d with ahead := Function.update d.ahead s (max (d.ahead s) n) }
    else none

def Duplex.run (p : Bool → Platform) (hash : HashFunction) (d : Duplex) (moves : List Move) :
    Option Duplex :=
  moves.foldlM (Duplex.step p hash) d

theorem delivered_positive {arrived wire : List UInt8} {ev : Event}
    (h : ev.Delivered arrived wire = true) : ev.Positive := by
  cases ev with
  | call c => trivial
  | wrote n => simpa [Event.Delivered, Event.Positive] using h
  | flushed => trivial
  | read reply =>
    cases reply with
    | none => exact absurd h Bool.false_ne_true
    | some chunk =>
      simp only [Event.Delivered, Bool.and_eq_true, decide_eq_true_iff] at h
      exact h.1
  | returned => trivial

theorem delivered_read {arrived wire chunk : List UInt8}
    (h : (Event.read (some chunk)).Delivered arrived wire = true) : arrived ++ chunk <+: wire := by
  simp only [Event.Delivered, Bool.and_eq_true, List.isPrefixOf_iff_prefix] at h
  exact h.2

section Growth

structure Transport.Grows (t t' : Transport) : Prop where
  handed : t.handed <+: t'.handed
  pushed : t.pushed ≤ t'.pushed
  pushed_le : t'.pushed ≤ t'.handed.length

theorem Transport.answer_grows {impl : Implementation} {t : Transport} {r : Request}
    {reply : r.Reply} (h : t.pushed ≤ t.handed.length) :
    t.Grows (t.answer impl r reply) := by
  cases r with
  | write bytes =>
    cases impl with
    | net =>
      refine ⟨List.prefix_append _ _, Nat.le_refl _, ?_⟩
      simp only [answer, write, List.length_append]
      omega
    | tls =>
      refine ⟨List.prefix_append _ _, ?_, Nat.le_refl _⟩
      simp only [answer, write, List.length_append]
      omega
  | fflush => exact ⟨List.prefix_refl _, h, Nat.le_refl _⟩
  | read =>
    cases reply with
    | none => exact ⟨List.prefix_refl _, Nat.le_refl _, h⟩
    | some chunk => exact ⟨List.prefix_refl _, Nat.le_refl _, h⟩

variable {p : Platform} {hash : HashFunction}

theorem Party.step_transport {party party' : Party} {ev : Event}
    (hle : party.transport.pushed ≤ party.transport.handed.length)
    (hstep : party.step p hash ev = some party') :
    party.transport.Grows party'.transport ∧
      (party'.transport.arrived = party.transport.arrived ∨
        ∃ chunk, ev = .read (some chunk) ∧
          party'.transport.arrived = party.transport.arrived ++ chunk) := by
  have hsame : party.transport.Grows party.transport :=
    ⟨List.prefix_refl _, Nat.le_refl _, hle⟩
  unfold Party.step at hstep
  split at hstep
  case h_1 t e c =>
    cases hstep
    exact ⟨hsame, Or.inl rfl⟩
  case h_2 t e u =>
    cases hstep
    exact ⟨hsame, Or.inl rfl⟩
  case h_3 _ t e r resume =>
    obtain ⟨reply, hreply, rfl⟩ := Option.map_eq_some_iff.mp hstep
    refine ⟨Transport.answer_grows hle, ?_⟩
    cases r with
    | write bytes => exact Or.inl (Transport.write_arrived _ _ _)
    | fflush => exact Or.inl rfl
    | read =>
      cases reply with
      | none => exact Or.inl rfl
      | some chunk =>
        refine Or.inr ⟨chunk, ?_, rfl⟩
        cases ev with
        | call c => cases hreply
        | wrote n => cases hreply
        | flushed => cases hreply
        | returned => cases hreply
        | read reply' =>
          cases reply' with
          | none => cases hreply
          | some chunk' =>
            simp only [Event.reply] at hreply
            split at hreply
            · cases hreply
              rfl
            · cases hreply
  case h_4 => cases hstep

end Growth

namespace Duplex

structure Linked (d : Duplex) : Prop where
  pushed_le : ∀ s, (d.party s).transport.pushed ≤ (d.handed s).length
  arrived : ∀ s, d.arrived s <+: d.wire !s

theorem wire_grows {d d' : Duplex} {s : Bool}
    (ht : (d.party s).transport.Grows (d'.party s).transport) (ha : d.ahead s ≤ d'.ahead s) :
    d.wire s <+: d'.wire s := by
  have hmax : max (d.party s).transport.pushed (d.ahead s) ≤
      max (d'.party s).transport.pushed (d'.ahead s) := by
    have := ht.pushed
    omega
  refine List.prefix_take_iff.mpr ⟨(List.take_prefix _ _).trans ht.handed, ?_⟩
  exact (List.length_take_le _ _).trans hmax

variable {p : Bool → Platform} {hash : HashFunction}

theorem Linked.step {d d' : Duplex} {m : Move} (h : d.Linked) (hstep : d.step p hash m = some d') :
    d'.Linked := by
  cases m with
  | step s ev =>
    simp only [Duplex.step] at hstep
    split at hstep
    case isTrue hdel =>
      obtain ⟨party, hparty, rfl⟩ := Option.map_eq_some_iff.mp hstep
      obtain ⟨hgrows, hread⟩ := Party.step_transport (h.pushed_le s) hparty
      have hall : ∀ s', (d.party s').transport.Grows
          (Function.update d.party s party s').transport := by
        intro s'
        by_cases hs : s' = s
        · subst hs
          rw [Function.update_self]
          exact hgrows
        · rw [Function.update_of_ne hs]
          exact ⟨List.prefix_refl _, Nat.le_refl _, h.pushed_le s'⟩
      refine ⟨fun s' => (hall s').pushed_le, fun s' => ?_⟩
      have hwire : d.wire (!s') <+: wire ⟨Function.update d.party s party, d.ahead⟩ (!s') :=
        wire_grows (hall _) (Nat.le_refl _)
      by_cases hs : s' = s
      · subst hs
        rcases hread with hsame | ⟨chunk, rfl, hmore⟩
        · refine List.IsPrefix.trans ?_ hwire
          show (Function.update d.party s' party s').transport.arrived <+: _
          rw [Function.update_self, hsame]
          exact h.arrived s'
        · refine List.IsPrefix.trans ?_ hwire
          show (Function.update d.party s' party s').transport.arrived <+: _
          rw [Function.update_self, hmore]
          exact delivered_read hdel
      · refine List.IsPrefix.trans ?_ hwire
        show (Function.update d.party s party s').transport.arrived <+: _
        rw [Function.update_of_ne hs]
        exact h.arrived s'
    case isFalse => cases hstep
  | drain s n =>
    simp only [Duplex.step] at hstep
    split at hstep
    case isTrue =>
      cases hstep
      refine ⟨h.pushed_le, fun s' => (h.arrived s').trans (wire_grows ?_ ?_)⟩
      · exact ⟨List.prefix_refl _, Nat.le_refl _, h.pushed_le _⟩
      · by_cases hs : (!s') = s
        · rw [hs]
          simp only [Function.update_self]
          exact Nat.le_max_left _ _
        · simp only [Function.update_of_ne hs]
          exact Nat.le_refl _
    case isFalse => cases hstep

theorem upholds_step {lossy : Bool} {reading post : Bool → Transport → Endpoint → Prop}
    {d d' : Duplex} {m : Move}
    (h : ∀ s, (d.party s).Upholds (p s).implementation lossy (reading s) (post s))
    (hcall : ∀ s c t e, m = .step s (.call c) → post s t e →
      (c.perform (p s) hash e).Meets (contract (p s).implementation lossy (reading s))
        (fun t e _ => post s t e) t)
    (hstep : d.step p hash m = some d') (s : Bool) :
    (d'.party s).Upholds (p s).implementation lossy (reading s) (post s) := by
  cases m with
  | step s' ev =>
    simp only [Duplex.step] at hstep
    split at hstep
    case isTrue hdel =>
      obtain ⟨party, hparty, rfl⟩ := Option.map_eq_some_iff.mp hstep
      by_cases hs : s = s'
      · subst hs
        show (Function.update d.party s party s).Upholds _ _ _ _
        rw [Function.update_self]
        refine Party.Upholds.step (h s) (Or.inr (delivered_positive hdel)) ?_ hparty
        intro c t e hc
        exact hcall s c t e (by rw [hc])
      · show (Function.update d.party s' party s).Upholds _ _ _ _
        rw [Function.update_of_ne hs]
        exact h s
    case isFalse => cases hstep
  | drain s' n =>
    simp only [Duplex.step] at hstep
    split at hstep
    case isTrue =>
      cases hstep
      exact h s
    case isFalse => cases hstep

theorem run_invariant {Inv : Duplex → Prop} {moves : List Move}
    (hinv : ∀ d d' m, m ∈ moves → Inv d → d.step p hash m = some d' → Inv d') {d d' : Duplex}
    (h : Inv d) (hrun : d.run p hash moves = some d') : Inv d' := by
  induction moves generalizing d with
  | nil =>
    cases hrun
    exact h
  | cons m moves ih =>
    obtain ⟨next, hstep, hrest⟩ := Option.bind_eq_some_iff.mp hrun
    refine ih (fun d d' m' hm => hinv d d' m' (List.mem_cons_of_mem _ hm)) ?_ hrest
    exact hinv d next m List.mem_cons_self h hstep

end Duplex

end EmpTool.Io
