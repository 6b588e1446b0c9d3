import EmpTool.Frontend.Recording
import EmpTool.Ir.InterpretCtx

namespace EmpTool.Frontend

open Ir

def recordSource (numInputs : UInt32) (calls : List Call) (outs : List Ref) :
    Except String BooleanProgram := do
  let (inw, rc) ← makeRecArg numInputs.toNat {}
  let (results, rc) ← issueCalls RecordCtx.context [inw] calls [] rc
  let (prog, _) ← RecordCtx.finish (outs.map (Ref.get [inw] results)) rc
  pure prog

def digestSource (numInputs : UInt32) (calls : List Call) : Except String UInt64 := do
  let (base, d) ← DigestCtx.externalInput numInputs.toNat {}
  let inw := (List.range numInputs.toNat).map fun i => base + UInt32.ofNat i
  let (_, d) ← issueCalls DigestCtx.context [inw] calls [] d
  pure d.digest

def countSource (inw : List UInt8) (calls : List Call) : CountCtx :=
  (issueCalls CountCtx.context [inw] calls [] {}).2

structure Tallied (gs : List Gate) (k : CountCtx) : Prop where
  ands : k.ands = gs.countP Gate.isAnd
  xors : k.xors = gs.countP Gate.isXor
  nots : k.nots = gs.countP Gate.isNot
  consts : k.consts = gs.countP Gate.isConst

def tally (op : Op) (k : CountCtx) : CountCtx :=
  match op with
  | .and => { k with ands := k.ands + 1 }
  | .xor => { k with xors := k.xors + 1 }
  | .not => { k with nots := k.nots + 1 }
  | .const0 | .const1 => { k with consts := k.consts + 1 }

theorem Tallied.push {gs : List Gate} {k : CountCtx} (h : Tallied gs k) (g : Gate) :
    Tallied (gs ++ [g]) (tally g.op k) := by
  obtain ⟨ha, hx, hn, hc⟩ := h
  rcases g with ⟨in0, in1, out, op⟩
  cases op <;>
    constructor <;> simp [tally, ha, hx, hn, hc, Gate.isAnd, Gate.isXor, Gate.isNot, Gate.isConst]

structure InSync (c : RecordCtx) (d : DigestCtx) (k : CountCtx) : Prop where
  next : d.nextId = c.nextId
  consts : d.constWire = c.constWire
  digest : d.digest = digestProgram (recorded c)
  seen : ∀ v, k.seen v = (c.constWire v).isSome
  tallied : Tallied c.prog.gates k

theorem digestProgram_emit (p : BooleanProgram) (g : Gate) :
    digestProgram (p.emit g) = digestGate (digestProgram p) g := by
  simp only [digestProgram, BooleanProgram.emit, List.foldl_append, List.foldl_cons, List.foldl_nil]

theorem record_inv {c c' : RecordCtx} {a b o : UInt32} {op : Op}
    (h : RecordCtx.record a b op c = .ok (o, c')) :
    c.nextId ≠ 0xFFFFFFFF ∧ c.nextId = o ∧ pushed c ⟨a, b, c.nextId, op⟩ = c' := by
  simp only [RecordCtx.record, RecordCtx.alloc, bind_eq_ok, expecting_eq_ok, pure_eq_ok] at h
  obtain ⟨_, ⟨_, hne, rfl⟩, he⟩ := h
  exact ⟨hne, congrArg Prod.fst he, congrArg Prod.snd he⟩

theorem publicBit_inv {c c' : RecordCtx} {v : Bool} {o : UInt32} (hv : c.constWire v = none)
    (h : RecordCtx.publicBit v c = .ok (o, c')) :
    c.nextId ≠ 0xFFFFFFFF ∧ c.nextId = o ∧
      { pushed c (constGate v c.nextId) with
        constWire := Function.update c.constWire v (some c.nextId) } = c' := by
  simp only [RecordCtx.publicBit, hv, RecordCtx.alloc, bind_eq_ok, expecting_eq_ok,
    pure_eq_ok] at h
  obtain ⟨_, ⟨_, hne, rfl⟩, he⟩ := h
  exact ⟨hne, congrArg Prod.fst he, congrArg Prod.snd he⟩

section Sync

variable {c : RecordCtx} {d : DigestCtx} {k : CountCtx} (h : InSync c d k)

include h

theorem InSync.emit (hne : c.nextId ≠ 0xFFFFFFFF) (g : Gate) (ho : g.out = c.nextId) :
    DigestCtx.emit (digestOp g.op) g.in0.toUInt64 g.in1.toUInt64 d =
      .ok (c.nextId, { d with
        nextId := (pushed c g).nextId
        digest := digestProgram (recorded (pushed c g)) }) := by
  have hd : d.nextId ≠ 0xFFFFFFFF := h.next ▸ hne
  have hdig : digestProgram (recorded (pushed c g)) =
      [digestOp g.op, g.in0.toUInt64, g.in1.toUInt64, d.nextId.toUInt64].foldl digestMix d.digest := by
    rw [recorded_pushed, digestProgram_emit, digestGate, ← h.digest, ho, h.next]
  rw [hdig]
  refine bind_eq_ok.mpr ⟨(), expecting_eq_ok.mpr hd, ?_⟩
  rw [h.next]
  rfl

theorem InSync.gate {a b o : UInt32} {op : Op} {c' : RecordCtx}
    (hrec : RecordCtx.record a b op c = .ok (o, c')) :
    ∃ d', DigestCtx.emit (digestOp op) a.toUInt64 b.toUInt64 d = .ok (o, d') ∧
      InSync c' d' (tally op k) := by
  obtain ⟨hne, rfl, rfl⟩ := record_inv hrec
  refine ⟨_, h.emit hne ⟨a, b, c.nextId, op⟩ rfl, rfl, h.consts, rfl, fun v => ?_,
    h.tallied.push _⟩
  cases op <;> exact h.seen v

theorem InSync.publicBit {v : Bool} {o : UInt32} {c' : RecordCtx}
    (hrec : RecordCtx.publicBit v c = .ok (o, c')) :
    ∃ d', DigestCtx.publicBit v d = .ok (o, d') ∧ InSync c' d' (CountCtx.publicBit v k).2 := by
  cases hv : c.constWire v with
  | some w =>
    have hk : k.seen v = true := by rw [h.seen, hv]; rfl
    simp only [RecordCtx.publicBit, hv, pure_eq_ok] at hrec
    cases hrec
    refine ⟨d, ?_, ?_⟩
    · simp only [DigestCtx.publicBit, h.consts, hv]
      rfl
    · simpa only [CountCtx.publicBit, hk, if_true] using h
  | none =>
    have hk : k.seen v = false := by rw [h.seen, hv]; rfl
    obtain ⟨hne, rfl, rfl⟩ := publicBit_inv hv hrec
    have hemit := h.emit hne (constGate v c.nextId) rfl
    have hop : digestOp (constGate v c.nextId).op = 3 + if v then 1 else 0 := by cases v <;> rfl
    rw [hop] at hemit
    refine ⟨{ nextId := (pushed c (constGate v c.nextId)).nextId
              digest := digestProgram (recorded (pushed c (constGate v c.nextId)))
              constWire := Function.update d.constWire v (some c.nextId) }, ?_, rfl,
      congrArg (Function.update · v (some c.nextId)) h.consts, rfl, fun u => ?_, ?_⟩
    · have hdv : d.constWire v = none := h.consts ▸ hv
      simp only [DigestCtx.publicBit, hdv]
      exact bind_eq_ok.mpr ⟨_, hemit, rfl⟩
    · simp only [CountCtx.publicBit, hk, Bool.false_eq_true, if_false, Function.update_apply]
      split
      · rfl
      · exact h.seen u
    · have hpush := h.tallied.push (constGate v c.nextId)
      simp only [CountCtx.publicBit, hk, Bool.false_eq_true, if_false]
      cases v <;> exact ⟨hpush.ands, hpush.xors, hpush.nots, hpush.consts⟩

theorem InSync.issue {call : Call} {args : List (List UInt32)} {results : List UInt32} {o : UInt32}
    {c' : RecordCtx} (hrec : call.issue RecordCtx.context args results c = .ok (o, c'))
    (cargs : List (List UInt8)) (cresults : List UInt8) :
    ∃ d', call.issue DigestCtx.context args results d = .ok (o, d') ∧
      InSync c' d' (call.issue CountCtx.context cargs cresults k).2 := by
  cases call with
  | publicBit v => exact h.publicBit hrec
  | andGate a b =>
    obtain ⟨d', hd, hsync⟩ := @InSync.gate c d k h _ _ o .and c' hrec
    exact ⟨d', hd, hsync⟩
  | xorGate a b =>
    obtain ⟨d', hd, hsync⟩ := @InSync.gate c d k h _ _ o .xor c' hrec
    exact ⟨d', hd, hsync⟩
  | notGate a =>
    obtain ⟨d', hd, hsync⟩ := @InSync.gate c d k h _ 0 o .not c' hrec
    exact ⟨d', hd, hsync⟩

theorem InSync.issueCalls {calls : List Call} {args : List (List UInt32)}
    {results results' : List UInt32} {c' : RecordCtx}
    (hrec : Frontend.issueCalls RecordCtx.context args calls results c = .ok (results', c'))
    (cargs : List (List UInt8)) (cresults : List UInt8) :
    ∃ d', Frontend.issueCalls DigestCtx.context args calls results d = .ok (results', d') ∧
      InSync c' d' (Frontend.issueCalls CountCtx.context cargs calls cresults k).2 := by
  induction calls generalizing c d k results cresults with
  | nil =>
    cases hrec
    exact ⟨d, rfl, h⟩
  | cons call calls ih =>
    obtain ⟨⟨o, c₁⟩, hcall, hrest⟩ := bind_eq_ok.mp hrec
    obtain ⟨d₁, hd, h₁⟩ := h.issue hcall cargs cresults
    obtain ⟨d', hds, h'⟩ := ih h₁ hrest (cresults ++ [(call.issue CountCtx.context cargs cresults k).1])
    exact ⟨d', bind_eq_ok.mpr ⟨_, hd, hds⟩, h'⟩

end Sync

theorem external_inSync {numInputs : UInt32} (hpos : 0 < numInputs) :
    ∃ d, DigestCtx.externalInput numInputs.toNat {} = .ok (0, d) ∧
      InSync (reserved {} numInputs.toNat) d {} := by
  have hn := UInt32.lt_iff_toNat_lt.mp hpos
  have hlt := numInputs.toNat_lt
  have hroom : numInputs.toNat ≤ (0xFFFFFFFF - 0 : UInt32).toNat := by
    change numInputs.toNat ≤ 4294967295
    omega
  refine ⟨_, bind_eq_ok.mpr ⟨(), expecting_eq_ok.mpr (Nat.ne_of_gt hn),
    bind_eq_ok.mpr ⟨(), expecting_eq_ok.mpr hroom, rfl⟩⟩, ?_, rfl, ?_, fun _ => rfl,
    rfl, rfl, rfl, rfl⟩
  · exact UInt32.zero_add _
  · have hwide : UInt64.ofNat numInputs.toNat = (UInt32.ofNat numInputs.toNat).toUInt64 := by
      rw [UInt32.ofNat_toNat, ← UInt64.toNat_inj, UInt32.toNat_toUInt64, UInt64.toNat_ofNat']
      omega
    simp only [DigestCtx.mix, hwide, digestProgram, recorded, reserved, List.foldl_nil]

theorem interpreting_contexts_agree (numInputs : UInt32) (hpos : 0 < numInputs)
    (calls : List Call) (hcalls : CallsInScope [numInputs.toNat] 0 calls)
    (hroom : numInputs.toNat + newIds (fun _ => false) calls ≤ 2 ^ 32 - 1) (outs : List Ref)
    (houts : ∀ r ∈ outs, r.InScope [numInputs.toNat] calls.length) (inw : List UInt8) :
    ∃ prog, recordSource numInputs calls outs = .ok prog ∧
      digestSource numInputs calls = .ok (digestProgram prog) ∧
      (countSource inw calls).ands = (countPass prog).numAnd ∧
      (countSource inw calls).xors = (countPass prog).numXor ∧
      (countSource inw calls).nots = (countPass prog).numNot ∧
      (countSource inw calls).consts = (countPass prog).numConst := by
  have hn := UInt32.lt_iff_toNat_lt.mp hpos
  obtain ⟨d₀, hdigest, sync⟩ := external_inSync hpos
  have hext := @externalInput_ok {} rfl numInputs.toNat 0 hn (by omega)
  rw [Nat.zero_add] at hext
  have hids : ∀ w ∈ (List.range numInputs.toNat).map fun i => 0 + UInt32.ofNat i,
      w < (reserved {} numInputs.toNat).nextId := by
    rw [List.forall_mem_map]
    intro i hi
    have hi := List.mem_range.mp hi
    have hlt := numInputs.toNat_lt
    change 0 + UInt32.ofNat i < UInt32.ofNat numInputs.toNat
    rw [UInt32.zero_add, UInt32.ofNat_toNat, UInt32.lt_iff_toNat_lt, toNat_ofNat (by omega)]
    exact hi
  have hstart : Recording (reserved {} numInputs.toNat) := ⟨.start rfl rfl rfl, nofun⟩
  generalize hinw : ((List.range numInputs.toNat).map fun i => 0 + UInt32.ofNat i) = ids at hids
  have hwidth : [ids].map List.length = [numInputs.toNat] := by simp [← hinw]
  obtain ⟨results, c, hrun, all⟩ := @hstart.issueCalls _ [ids] [] calls
    (hwidth ▸ hcalls) (by simpa using hids) (by
      change (UInt32.ofNat numInputs.toNat).toNat + newIds (fun _ => false) calls ≤ 2 ^ 32 - 1
      rwa [UInt32.ofNat_toNat])
  obtain ⟨d, hstream, sync⟩ := sync.issueCalls hrun [inw] []
  have hlt : ∀ w ∈ [ids].flatten ++ results, w < c.nextId := by
    rw [List.forall_mem_append]
    refine ⟨fun w hw => UInt32.lt_of_lt_of_le (hids w (by simpa using hw)) all.grown.next_le,
      all.results_lt⟩
  have hlen : results.length = calls.length := by rw [all.length, List.length_nil, Nat.zero_add]
  have valid : Valid (finished c (outs.map (Ref.get [ids] results))) := by
    refine (all.grown.recording.dense.withOutputs _).valid ?_
    rw [List.forall_mem_map]
    intro r hr
    refine hlt _ (Ref.get_mem ?_)
    rw [hwidth, hlen]
    exact houts r hr
  have hfinish : RecordCtx.finish (outs.map (Ref.get [ids] results)) c =
      .ok (finished c (outs.map (Ref.get [ids] results)),
        { c with prog := finished c (outs.map (Ref.get [ids] results)) }) :=
    bind_eq_ok.mpr ⟨(), validateProgram_ok_iff.mpr valid, rfl⟩
  have hdigest' : d.digest = digestProgram (finished c (outs.map (Ref.get [ids] results))) :=
    sync.digest
  obtain ⟨hands, hxors, hnots, hconsts⟩ := foldl_countGate c.prog.gates
    { numWire := c.nextId.toNat
      numGate := (finished c (outs.map (Ref.get [ids] results))).numGate.toNat
      numInputBits := c.numInputs.toNat
      numOutputBits := (finished c (outs.map (Ref.get [ids] results))).totalOutputBits.toNat }
  refine ⟨finished c (outs.map (Ref.get [ids] results)), ?_, ?_, ?_, ?_, ?_, ?_⟩
  · refine bind_eq_ok.mpr ⟨_, bind_eq_ok.mpr ⟨_, hext, rfl⟩, ?_⟩
    simp only [hinw, show UInt32.ofNat 0 = 0 from rfl]
    exact bind_eq_ok.mpr ⟨_, hrun, bind_eq_ok.mpr ⟨_, hfinish, rfl⟩⟩
  · refine bind_eq_ok.mpr ⟨_, hdigest, ?_⟩
    simp only [hinw]
    refine bind_eq_ok.mpr ⟨_, hstream, ?_⟩
    rw [← hdigest']
    rfl
  · exact sync.tallied.ands.trans ((Nat.zero_add _).symm.trans hands.symm)
  · exact sync.tallied.xors.trans ((Nat.zero_add _).symm.trans hxors.symm)
  · exact sync.tallied.nots.trans ((Nat.zero_add _).symm.trans hnots.symm)
  · exact sync.tallied.consts.trans ((Nat.zero_add _).symm.trans hconsts.symm)

def repeatedConstants : List Call :=
  [.publicBit true, .andGate (.arg 0 0) (.arg 0 1), .publicBit true, .xorGate (.result 1) (.result 2),
    .publicBit false, .notGate (.result 3), .publicBit false]

theorem interpreting_contexts_agree_repeatedConstants :
    ∃ prog, recordSource 2 repeatedConstants [.result 5] = .ok prog ∧
      digestSource 2 repeatedConstants = .ok (digestProgram prog) ∧
      (countPass prog).numAnd = 1 ∧ (countPass prog).numConst = 2 := by
  obtain ⟨prog, hrec, hdig, hands, -, -, hconsts⟩ := interpreting_contexts_agree 2 (by decide)
    repeatedConstants (by decide) (by decide) [.result 5] (by decide) [0, 0]
  exact ⟨prog, hrec, hdig, hands.symm, hconsts.symm⟩

end EmpTool.Frontend
