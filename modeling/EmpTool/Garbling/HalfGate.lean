import EmpTool.Crypto.HashStream

namespace EmpTool.Garbling

open Crypto Memory

section Gates

variable {AesKey : Type} (aes : Aes AesKey) (tiers : Tiers) (batchSize : BatchSize)
  (reuseShift : Fin 32)

def frame (blocks : List Block) : Nat → Block := fun a => blocks.getD a zeroBlock

structure Table where
  row0 : Block
  row1 : Block

-- `in` occupies the frame's first blocks and `H` those right after it
def halfgatesGarble (la0 a1 lb0 b1 delta : Block) (mitccrh : Mitccrh AesKey) :
    Except String (Block × Table × Mitccrh AesKey) := do
  let pa := la0.getLSB
  let pb := lb0.getLSB
  let (mitccrh, mem) ←
    mitccrh.hashCir aes tiers batchSize reuseShift 2 2 4 0 (frame [la0, a1, lb0, b1])
  let hla0 := mem 4
  let ha1 := mem 5
  let hlb0 := mem 6
  let hb1 := mem 7
  let row0 := hla0 ^^^ ha1 ^^^ (selectMask pb &&& delta)
  let w0 := hla0 ^^^ (selectMask pa &&& row0)
  let tmp := hlb0 ^^^ hb1
  let row1 := tmp ^^^ la0
  let w0 := w0 ^^^ (hlb0 ^^^ (selectMask pb &&& tmp))
  pure (w0, ⟨row0, row1⟩, mitccrh)

def halfgatesEval (a b : Block) (table : Table) (mitccrh : Mitccrh AesKey) :
    Except String (Block × Mitccrh AesKey) := do
  let sa := a.getLSB
  let sb := b.getLSB
  let (mitccrh, mem) ← mitccrh.hashCir aes tiers batchSize reuseShift 2 1 2 0 (frame [a, b])
  let w := mem 2 ^^^ mem 3
  let w := w ^^^ (selectMask sa &&& table.row0)
  let w := w ^^^ (selectMask sb &&& table.row1)
  let w := w ^^^ (selectMask sb &&& a)
  pure (w, mitccrh)

def label (delta zero : Block) (value : Bool) : Block := zero ^^^ (selectMask value &&& delta)

structure AndGate where
  la0 : Block
  lb0 : Block
  a : Bool
  b : Bool

def garbleGates (delta : Block) : List AndGate → Mitccrh AesKey →
    Except String (List (Block × Table) × Mitccrh AesKey)
  | [], m => pure ([], m)
  | g :: gates, m => do
    let (w0, table, m) ← halfgatesGarble aes tiers batchSize reuseShift g.la0 (g.la0 ^^^ delta)
      g.lb0 (g.lb0 ^^^ delta) delta m
    let (rest, m) ← garbleGates delta gates m
    pure ((w0, table) :: rest, m)

def evalGates : List (Block × Block × Table) → Mitccrh AesKey →
    Except String (List Block × Mitccrh AesKey)
  | [], m => pure ([], m)
  | (a, b, table) :: gates, m => do
    let (w, m) ← halfgatesEval aes tiers batchSize reuseShift a b table m
    let (rest, m) ← evalGates gates m
    pure (w :: rest, m)

end Gates

section HalfGates

variable (h0 h1 : Block → Block) (delta la0 lb0 : Block)

def garbledOutput : Block × Table :=
  let row0 := h0 la0 ^^^ h0 (la0 ^^^ delta) ^^^ (selectMask lb0.getLSB &&& delta)
  let tmp := h1 lb0 ^^^ h1 (lb0 ^^^ delta)
  (h0 la0 ^^^ (selectMask la0.getLSB &&& row0) ^^^
    (h1 lb0 ^^^ (selectMask lb0.getLSB &&& tmp)), ⟨row0, tmp ^^^ la0⟩)

def evaluatedOutput (a b : Block) (table : Table) : Block :=
  h0 a ^^^ h1 b ^^^ (selectMask a.getLSB &&& table.row0) ^^^
    (selectMask b.getLSB &&& table.row1) ^^^ (selectMask b.getLSB &&& a)

theorem getLSB_label {delta : Block} (hd : delta.getLSB = true) (zero : Block) (value : Bool) :
    (label delta zero value).getLSB = (zero.getLSB ^^ value) := by
  cases value with
  | false => simp [label]
  | true => simp [label, Block.getLSB_xor, hd]

theorem generator_half (pa pb a : Bool) (row0 : Block)
    (hrow : row0 = h0 la0 ^^^ h0 (la0 ^^^ delta) ^^^ (selectMask pb &&& delta)) :
    h0 (label delta la0 a) ^^^ (selectMask (pa ^^ a) &&& row0) =
      h0 la0 ^^^ (selectMask pa &&& row0) ^^^ (selectMask (a && pb) &&& delta) := by
  subst hrow
  cases a with
  | false => simp [label]
  | true =>
    cases pa with
    | false => simp [label, Block.xor_assoc, Block.xor_comm, Block.xor_left_comm]
    | true => simp [label, Block.xor_assoc, Block.xor_comm, Block.xor_left_comm]

theorem evaluator_half (pb a b : Bool) (tmp : Block)
    (htmp : tmp = h1 lb0 ^^^ h1 (lb0 ^^^ delta)) :
    h1 (label delta lb0 b) ^^^ (selectMask (pb ^^ b) &&& (tmp ^^^ la0)) ^^^
        (selectMask (pb ^^ b) &&& label delta la0 a) =
      h1 lb0 ^^^ (selectMask pb &&& tmp) ^^^ (selectMask (a && (pb ^^ b)) &&& delta) := by
  subst htmp
  cases b with
  | false =>
    cases pb with
    | false => simp [label]
    | true => simp [label, Block.xor_assoc, Block.xor_comm, Block.xor_left_comm]
  | true =>
    cases pb with
    | false => simp [label, Block.xor_assoc, Block.xor_comm, Block.xor_left_comm]
    | true => simp [label, Block.xor_comm]

theorem mask_xor (p q : Bool) :
    (selectMask p &&& delta) ^^^ (selectMask q &&& delta) = selectMask (p ^^ q) &&& delta := by
  cases p <;> cases q <;> simp

variable {delta}

theorem evaluated_eq_label (hd : delta.getLSB = true) (a b : Bool) :
    evaluatedOutput h0 h1 (label delta la0 a) (label delta lb0 b)
        (garbledOutput h0 h1 delta la0 lb0).2 =
      label delta (garbledOutput h0 h1 delta la0 lb0).1 (a && b) := by
  have gen := generator_half h0 delta la0 la0.getLSB lb0.getLSB a _ rfl
  have eval := evaluator_half h1 delta la0 lb0 lb0.getLSB a b _ rfl
  have both : (a && b) = ((a && lb0.getLSB) ^^ (a && (lb0.getLSB ^^ b))) := by
    cases a <;> cases b <;> cases lb0.getLSB <;> rfl
  have out (w : Block) : label delta w (a && b) = w ^^^ ((selectMask (a && lb0.getLSB) &&& delta) ^^^
      (selectMask (a && (lb0.getLSB ^^ b)) &&& delta)) := by
    rw [label, both, mask_xor]
  rw [out]
  simp only [evaluatedOutput, garbledOutput, getLSB_label hd]
  calc _ = (h0 (label delta la0 a) ^^^ (selectMask (la0.getLSB ^^ a) &&& (h0 la0 ^^^
          h0 (la0 ^^^ delta) ^^^ (selectMask lb0.getLSB &&& delta)))) ^^^
        (h1 (label delta lb0 b) ^^^ (selectMask (lb0.getLSB ^^ b) &&&
          (h1 lb0 ^^^ h1 (lb0 ^^^ delta) ^^^ la0)) ^^^
        (selectMask (lb0.getLSB ^^ b) &&& label delta la0 a)) := by
        ac_rfl
    _ = _ := by
      rw [gen, eval]
      ac_rfl

end HalfGates

section Runs

open Mitccrh

variable {AesKey : Type} {aes : Aes AesKey} {batchSize : BatchSize} {reuseShift : Fin 32}
  {S : Block} {g : UInt64} {m : Mitccrh AesKey}

def gateHash (aes : Aes AesKey) (reuseShift : Fin 32) (S : Block) (g : UInt64) (lane : Nat) :
    Block → Block :=
  reference aes reuseShift Block.sigma S (g + UInt64.ofNat lane)

theorem halfgatesGarble_ok (tiers : Tiers) (heven : 2 ∣ batchSize.count)
    (hint : batchSize.count + 2 < 2 ^ 31) (h : At aes batchSize reuseShift 2 S g m)
    (delta la0 lb0 : Block) :
    ∃ m', halfgatesGarble aes tiers batchSize reuseShift la0 (la0 ^^^ delta) lb0 (lb0 ^^^ delta)
        delta m =
        .ok ((garbledOutput (gateHash aes reuseShift S g 0) (gateHash aes reuseShift S g 1)
            delta la0 lb0).1,
          (garbledOutput (gateHash aes reuseShift S g 0) (gateHash aes reuseShift S g 1)
            delta la0 lb0).2, m') ∧
      At aes batchSize reuseShift 2 S (g + UInt64.ofNat 2) m' := by
  have sep : Separate (2 * 2) 4 0 := Or.inr (Or.inr (by decide))
  obtain ⟨m', hrun, hat⟩ := h.hashCir tiers (by decide) heven hint sep
    (frame [la0, la0 ^^^ delta, lb0, lb0 ^^^ delta])
  refine ⟨m', ?_, hat⟩
  rw [halfgatesGarble, hrun]
  rfl

theorem halfgatesEval_ok (tiers : Tiers) (heven : 2 ∣ batchSize.count)
    (hint : batchSize.count + 2 < 2 ^ 31) (h : At aes batchSize reuseShift 2 S g m)
    (a b : Block) (table : Table) :
    ∃ m', halfgatesEval aes tiers batchSize reuseShift a b table m =
        .ok (evaluatedOutput (gateHash aes reuseShift S g 0) (gateHash aes reuseShift S g 1)
            a b table, m') ∧
      At aes batchSize reuseShift 2 S (g + UInt64.ofNat 2) m' := by
  have sep : Separate (2 * 1) 2 0 := Or.inr (Or.inr (by decide))
  obtain ⟨m', hrun, hat⟩ := h.hashCir tiers (by decide) heven hint sep (frame [a, b])
  refine ⟨m', ?_, hat⟩
  rw [halfgatesEval, hrun]
  rfl

def evalInputs (delta : Block) (gates : List AndGate) (garbled : List (Block × Table)) :
    List (Block × Block × Table) :=
  List.zipWith (fun g out => (label delta g.la0 g.a, label delta g.lb0 g.b, out.2)) gates garbled

def gateLabels (delta : Block) (gates : List AndGate) (garbled : List (Block × Table)) :
    List Block :=
  List.zipWith (fun g out => label delta out.1 (g.a && g.b)) gates garbled

section Parties

variable {garbler evaluator : BatchSize} (tg te : Tiers) (hg : 2 ∣ garbler.count)
  (he : 2 ∣ evaluator.count) (hgi : garbler.count + 2 < 2 ^ 31)
  (hei : evaluator.count + 2 < 2 ^ 31) {delta : Block} (hd : delta.getLSB = true)
  {mg me : Mitccrh AesKey}

include hg he hgi hei hd

theorem gate_step (gate : AndGate) (hmg : At aes garbler reuseShift 2 S g mg)
    (hme : At aes evaluator reuseShift 2 S g me) :
    ∃ (out : Block × Table) (mg' me' : Mitccrh AesKey),
      halfgatesGarble aes tg garbler reuseShift gate.la0 (gate.la0 ^^^ delta) gate.lb0
        (gate.lb0 ^^^ delta) delta mg = .ok (out.1, out.2, mg') ∧
      halfgatesEval aes te evaluator reuseShift (label delta gate.la0 gate.a)
        (label delta gate.lb0 gate.b) out.2 me =
        .ok (label delta out.1 (gate.a && gate.b), me') ∧
      At aes garbler reuseShift 2 S (g + UInt64.ofNat 2) mg' ∧
      At aes evaluator reuseShift 2 S (g + UInt64.ofNat 2) me' := by
  obtain ⟨mg', hgarble, hmg'⟩ := halfgatesGarble_ok tg hg hgi hmg delta gate.la0 gate.lb0
  obtain ⟨me', heval, hme'⟩ := halfgatesEval_ok te he hei hme (label delta gate.la0 gate.a)
    (label delta gate.lb0 gate.b)
    (garbledOutput (gateHash aes reuseShift S g 0) (gateHash aes reuseShift S g 1) delta
      gate.la0 gate.lb0).2
  rw [evaluated_eq_label _ _ _ _ hd] at heval
  exact ⟨_, mg', me', hgarble, heval, hmg', hme'⟩

theorem gates_run (gates : List AndGate) (hmg : At aes garbler reuseShift 2 S g mg)
    (hme : At aes evaluator reuseShift 2 S g me) :
    ∃ garbled mg' me', garbleGates aes tg garbler reuseShift delta gates mg = .ok (garbled, mg') ∧
      garbled.length = gates.length ∧
      evalGates aes te evaluator reuseShift (evalInputs delta gates garbled) me =
        .ok (gateLabels delta gates garbled, me') := by
  induction gates generalizing g mg me with
  | nil => exact ⟨[], mg, me, rfl, rfl, rfl⟩
  | cons gate gates ih =>
    obtain ⟨out, mg₁, me₁, hgarble, heval, hmg₁, hme₁⟩ :=
      gate_step tg te hg he hgi hei hd gate hmg hme
    obtain ⟨garbled, mg', me', hgs, hlen, hes⟩ := ih hmg₁ hme₁
    refine ⟨out :: garbled, mg', me', ?_, congrArg (· + 1) hlen, ?_⟩
    · simp only [garbleGates, hgarble, hgs, bind, Except.bind]
      rfl
    · change (evalGates aes te evaluator reuseShift ((_, _, out.2) :: evalInputs delta gates garbled)
        me) = .ok (label delta out.1 (gate.a && gate.b) :: gateLabels delta gates garbled, me')
      simp only [evalGates, heval, hes, bind, Except.bind]
      rfl

theorem halfgates_sequence_correct (gates : List AndGate)
    (hmg : Positioned aes garbler reuseShift S g mg)
    (hme : Positioned aes evaluator reuseShift S g me) :
    ∃ garbled mg' me', garbleGates aes tg garbler reuseShift delta gates mg = .ok (garbled, mg') ∧
      garbled.length = gates.length ∧
      evalGates aes te evaluator reuseShift (evalInputs delta gates garbled) me =
        .ok (gateLabels delta gates garbled, me') :=
  gates_run tg te hg he hgi hei hd gates (hmg.at (by decide) hg) (hme.at (by decide) he)

end Parties

def sampleAes : Aes Block := ⟨id, fun key x => (key ^^^ x).sigma⟩

def unset : Mitccrh Block := ⟨fun _ => zeroBlock, fun _ => zeroBlock, 0, zeroBlock, 0, 0, 0⟩

def gatesSample : List AndGate :=
  [⟨makeBlock 3 4, makeBlock 5 7, true, true⟩, ⟨makeBlock 1 1, makeBlock 9 2, true, false⟩,
    ⟨makeBlock 3 4, makeBlock 3 4, false, true⟩, ⟨makeBlock 8 6, makeBlock 2 5, true, true⟩]

theorem halfgates_sequence_correct_gatesSample :
    ∃ garbled mg' me',
      garbleGates sampleAes ⟨true, true⟩ ⟨8, by decide, by decide⟩ 2 (makeBlock 6 1) gatesSample
        (renewKsAt sampleAes ⟨8, by decide, by decide⟩ 2 5
          (setS ⟨8, by decide, by decide⟩ (makeBlock 11 12) unset)) = .ok (garbled, mg') ∧
      garbled.length = gatesSample.length ∧
      evalGates sampleAes ⟨false, false⟩ ⟨2, by decide, by decide⟩ 2
        (evalInputs (makeBlock 6 1) gatesSample garbled)
        (renewKsAt sampleAes ⟨2, by decide, by decide⟩ 2 5
          (setS ⟨2, by decide, by decide⟩ (makeBlock 11 12) unset)) =
        .ok (gateLabels (makeBlock 6 1) gatesSample garbled, me') :=
  halfgates_sequence_correct ⟨true, true⟩ ⟨false, false⟩ (by decide) (by decide) (by decide)
    (by decide) (by decide) gatesSample (.renewKs 5 (.setS unset)) (.renewKs 5 (.setS unset))

def widestEven : BatchSize := ⟨2 ^ 31 - 2, by decide, by decide⟩

theorem halfgates_widest_batch_overflows :
    2 ∣ widestEven.count ∧ (makeBlock 6 1).getLSB = true ∧
      Positioned sampleAes widestEven 3 zeroBlock 0 (setS widestEven zeroBlock unset) ∧
      garbleGates sampleAes ⟨true, true⟩ widestEven 3 (makeBlock 6 1) gatesSample
        (setS widestEven zeroBlock unset) = .error "signed int overflow" :=
  ⟨by decide, by decide, .setS unset, rfl⟩

end Runs

end EmpTool.Garbling
