import EmpTool.Garbling.HalfGate
import EmpTool.Library.StraightLine

namespace EmpTool.Garbling

open Crypto StraightLine

-- `f` applied to the byte at the block's lowest address
def withByte0 (f : UInt8 → UInt8) (x : Block) : Block :=
  { x with low := x.low &&& 0xFFFFFFFFFFFFFF00 ||| (f x.low.toUInt8).toUInt64 }

def clearLSB : Block → Block := withByte0 fun b => b &&& 0xfe

def setLSB : Block → Block := withByte0 fun b => b ||| 0x01

section PrivacyFree

variable {AesKey : Type} (aes : Aes AesKey) (key : AesKey)

def labelHash (x : Block) (idx : UInt64) : Block :=
  let mask := x.sigma ^^^ makeBlock (2 * idx) 0
  aes.encrypt key mask ^^^ mask

def privacyFreeGarble (la0 a1 lb0 _b1 _delta : Block) (idx : UInt64) : Block × Block :=
  let hla0 := clearLSB (labelHash aes key la0 idx)
  let ha1 := setLSB (labelHash aes key a1 idx)
  let tmp := hla0 ^^^ ha1
  (hla0, tmp ^^^ lb0)

def privacyFreeEval (a b table : Block) (idx : UInt64) : Block :=
  let ha := labelHash aes key a idx
  if a.getLSB then setLSB ha ^^^ table ^^^ b else clearLSB ha

inductive LabelGate (ι : Type) where
  | and (a b out : ι) (idx : UInt64)
  | xor (a b out : ι)

namespace LabelGate

variable {ι : Type}

def reads : LabelGate ι → List ι
  | and a b _ _ => [a, b]
  | xor a b _ => [a, b]

def out : LabelGate ι → ι
  | and _ _ o _ => o
  | xor _ _ o => o

def shape : Shape (LabelGate ι) ι where
  reads := reads
  out := out

def truth (e : ι → Bool) : LabelGate ι → Bool
  | and a b _ _ => e a && e b
  | xor a b _ => e a ^^ e b

end LabelGate

variable {ι : Type} [DecidableEq ι]

def truthCircuit (gates : List (LabelGate ι)) (e : ι → Bool) : ι → Bool :=
  gates.foldl (fun e g => Function.update e g.out (g.truth e)) e

def garbleCircuit (delta : Block) : List (LabelGate ι) → (ι → Block) → List Block × (ι → Block)
  | [], zero => ([], zero)
  | .and a b o idx :: gates, zero =>
    let (w, table) := privacyFreeGarble aes key (zero a) (zero a ^^^ delta) (zero b)
      (zero b ^^^ delta) delta idx
    let (tables, zero) := garbleCircuit delta gates (Function.update zero o w)
    (table :: tables, zero)
  | .xor a b o :: gates, zero =>
    garbleCircuit delta gates (Function.update zero o (zero a ^^^ zero b))

def evalCircuit : List (LabelGate ι) → List Block → (ι → Block) → Option (ι → Block)
  | [], _, labels => some labels
  | .and _ _ _ _ :: _, [], _ => none
  | .and a b o idx :: gates, table :: tables, labels =>
    evalCircuit gates tables
      (Function.update labels o (privacyFreeEval aes key (labels a) (labels b) table idx))
  | .xor a b o :: gates, tables, labels =>
    evalCircuit gates tables (Function.update labels o (labels a ^^^ labels b))

end PrivacyFree

theorem getLSB_withByte0 (f : UInt8 → UInt8) (x : Block) :
    (withByte0 f x).getLSB = (f x.low.toUInt8).toNat.testBit 0 := by
  rw [Block.getLSB_eq_testBit, withByte0, UInt64.toNat_or, UInt64.toNat_and, Nat.testBit_or,
    Nat.testBit_and, UInt8.toNat_toUInt64]
  simp

@[simp] theorem getLSB_clearLSB (x : Block) : (clearLSB x).getLSB = false := by
  rw [clearLSB, getLSB_withByte0, UInt8.toNat_and, Nat.testBit_and]
  simp

section Correctness

variable {AesKey : Type} (aes : Aes AesKey) (key : AesKey) {delta : Block}
  (hd : delta.getLSB = true)

-- a wire's zero-label has a clear lowest bit and the evaluator holds the label of the truth value
structure Holds (delta zero label' : Block) (value : Bool) : Prop where
  zero_lsb : zero.getLSB = false
  label_eq : label' = label delta zero value

include hd

theorem Holds.label_lsb {zero l : Block} {value : Bool} (h : Holds delta zero l value) :
    l.getLSB = value := by
  rw [h.label_eq, getLSB_label hd, h.zero_lsb, Bool.false_xor]

theorem Holds.and {za la zb lb : Block} {a b : Bool} (ha : Holds delta za la a)
    (hb : Holds delta zb lb b) (idx : UInt64) :
    Holds delta (privacyFreeGarble aes key za (za ^^^ delta) zb (zb ^^^ delta) delta idx).1
      (privacyFreeEval aes key la lb
        (privacyFreeGarble aes key za (za ^^^ delta) zb (zb ^^^ delta) delta idx).2 idx)
      (a && b) := by
  refine ⟨getLSB_clearLSB _, ?_⟩
  rw [privacyFreeEval, ha.label_lsb hd]
  cases a with
  | false =>
    have hla : la = za := by rw [ha.label_eq, label, Block.selectMask_false_and, Block.xor_zero]
    rw [if_neg Bool.false_ne_true, hla, Bool.false_and, label, Block.selectMask_false_and,
      Block.xor_zero]
    rfl
  | true =>
    have hla : la = za ^^^ delta := by rw [ha.label_eq, label, Block.selectMask_true_and]
    rw [if_pos rfl, hla, hb.label_eq, Bool.true_and, privacyFreeGarble, label, label]
    simp [Block.xor_assoc, Block.xor_comm, Block.xor_left_comm]

omit hd in
theorem Holds.xor {za la zb lb : Block} {a b : Bool} (ha : Holds delta za la a)
    (hb : Holds delta zb lb b) : Holds delta (za ^^^ zb) (la ^^^ lb) (a ^^ b) := by
  refine ⟨by rw [Block.getLSB_xor, ha.zero_lsb, hb.zero_lsb]; rfl, ?_⟩
  rw [ha.label_eq, hb.label_eq, label, label, label, ← mask_xor]
  ac_rfl

variable {ι : Type} [DecidableEq ι]

def HoldsOn (delta : Block) (D : Set ι) (zero labels : ι → Block) (e : ι → Bool) : Prop :=
  ∀ w ∈ D, Holds delta (zero w) (labels w) (e w)

omit hd in
theorem HoldsOn.update {D : Set ι} {zero labels : ι → Block} {e : ι → Bool}
    (h : HoldsOn delta D zero labels e) {o : ι} {z l : Block} {v : Bool} (ho : Holds delta z l v) :
    HoldsOn delta (insert o D) (Function.update zero o z) (Function.update labels o l)
      (Function.update e o v) := by
  intro w hw
  by_cases hwo : w = o
  · rw [hwo, Function.update_self, Function.update_self, Function.update_self]
    exact ho
  · rw [Function.update_of_ne hwo, Function.update_of_ne hwo, Function.update_of_ne hwo]
    exact h w (hw.resolve_left hwo)

theorem circuit_holds (gates : List (LabelGate ι)) {D : Set ι} {zero labels : ι → Block}
    {e : ι → Bool} (hs : LabelGate.shape.Scoped D gates) (h : HoldsOn delta D zero labels e) :
    ∃ labels', evalCircuit aes key gates (garbleCircuit aes key delta gates zero).1 labels =
        some labels' ∧
      HoldsOn delta (LabelGate.shape.defined D gates)
        (garbleCircuit aes key delta gates zero).2 labels' (truthCircuit gates e) := by
  induction gates generalizing D zero labels e with
  | nil => exact ⟨labels, rfl, by rw [Shape.defined_nil]; exact h⟩
  | cons g gates ih =>
    rw [Shape.defined_cons]
    cases g with
    | and a b o idx =>
      have ha := h a (hs.1 a List.mem_cons_self)
      have hb := h b (hs.1 b (List.mem_cons_of_mem a List.mem_cons_self))
      exact ih hs.2 (h.update (ha.and aes key hd hb idx))
    | xor a b o =>
      have ha := h a (hs.1 a List.mem_cons_self)
      have hb := h b (hs.1 b (List.mem_cons_of_mem a List.mem_cons_self))
      exact ih hs.2 (h.update (ha.xor hb))

theorem privacy_free_circuit_correct (gates : List (LabelGate ι)) {inputs : Set ι}
    (hs : LabelGate.shape.Scoped inputs gates) {zero labels : ι → Block} {e : ι → Bool}
    (hz : ∀ w ∈ inputs, (zero w).getLSB = false)
    (hl : ∀ w ∈ inputs, labels w = label delta (zero w) (e w)) :
    ∃ labels', evalCircuit aes key gates (garbleCircuit aes key delta gates zero).1 labels =
        some labels' ∧
      ∀ w ∈ LabelGate.shape.defined inputs gates,
        ((garbleCircuit aes key delta gates zero).2 w).getLSB = false ∧
        labels' w = label delta ((garbleCircuit aes key delta gates zero).2 w)
          (truthCircuit gates e w) ∧
        (labels' w).getLSB = truthCircuit gates e w := by
  obtain ⟨labels', heval, hholds⟩ :=
    circuit_holds aes key hd gates hs fun w hw => ⟨hz w hw, hl w hw⟩
  refine ⟨labels', heval, fun w hw => ?_⟩
  have hw := hholds w hw
  exact ⟨hw.zero_lsb, hw.label_eq, hw.label_lsb hd⟩

end Correctness

def circuitSample : List (LabelGate Nat) := [.and 0 1 2 5, .xor 2 0 3, .and 3 2 4 6]

theorem privacy_free_circuit_correct_circuitSample :
    ∃ labels', evalCircuit sampleAes zeroBlock circuitSample
        (garbleCircuit sampleAes zeroBlock (makeBlock 6 1) circuitSample
          fun _ => makeBlock 3 4).1 (fun _ => makeBlock 3 4 ^^^ makeBlock 6 1) = some labels' ∧
      ∀ w ∈ LabelGate.shape.defined {w | w < 2} circuitSample,
        ((garbleCircuit sampleAes zeroBlock (makeBlock 6 1) circuitSample
          fun _ => makeBlock 3 4).2 w).getLSB = false ∧
        labels' w = label (makeBlock 6 1) ((garbleCircuit sampleAes zeroBlock (makeBlock 6 1)
          circuitSample fun _ => makeBlock 3 4).2 w)
            (truthCircuit circuitSample (fun _ => true) w) ∧
        (labels' w).getLSB = truthCircuit circuitSample (fun _ => true) w :=
  privacy_free_circuit_correct sampleAes zeroBlock (by decide) circuitSample
    (by simp [circuitSample, Shape.Scoped, LabelGate.shape, LabelGate.reads, LabelGate.out])
    (fun _ _ => by decide) (fun _ _ => by decide)

end EmpTool.Garbling
