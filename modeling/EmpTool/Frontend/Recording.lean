import EmpTool.Frontend.CircuitFn
import EmpTool.Ir.Dense
import Mathlib.Algebra.Order.BigOperators.Group.List
import Mathlib.Algebra.Order.Group.Nat
import Mathlib.Data.List.GetD

namespace EmpTool.Frontend

open Ir StraightLine

def Call.ids (seen : Bool → Bool) : Call → Nat
  | .publicBit v => if seen v then 0 else 1
  | .andGate _ _ | .xorGate _ _ | .notGate _ => 1

def Call.note (seen : Bool → Bool) : Call → Bool → Bool
  | .publicBit v => Function.update seen v true
  | .andGate _ _ | .xorGate _ _ | .notGate _ => seen

def newIds : (Bool → Bool) → List Call → Nat
  | _, [] => 0
  | seen, call :: calls => call.ids seen + newIds (call.note seen) calls

section Recorder

def recorded (c : RecordCtx) : BooleanProgram :=
  { c.prog with numWires := c.nextId, numInputs := c.numInputs }

def finished (c : RecordCtx) (outputs : List UInt32) : BooleanProgram :=
  { c.prog with numWires := c.nextId, numInputs := c.numInputs, outputs }

def noted (c : RecordCtx) (v : Bool) : Bool := (c.constWire v).isSome

structure Recording (c : RecordCtx) : Prop where
  dense : Dense (recorded c)
  const_mem : ∀ v o, c.constWire v = some o → constGate v o ∈ c.prog.gates

structure Extends (c c' : RecordCtx) : Prop where
  recording : Recording c'
  inputs : c'.numInputs = c.numInputs
  next_le : c.nextId ≤ c'.nextId
  values : ∀ {Wire : Type} [Inhabited Wire] (ops : GateOps Wire) (inputs : List Wire) (w : UInt32),
    w < c.nextId → (recorded c').values ops inputs w = (recorded c).values ops inputs w

theorem Recording.extends_self {c : RecordCtx} (h : Recording c) : Extends c c :=
  ⟨h, rfl, UInt32.le_rfl, fun _ _ _ _ => rfl⟩

theorem Extends.trans {a b c : RecordCtx} (h : Extends a b) (h' : Extends b c) : Extends a c :=
  ⟨h'.recording, h'.inputs.trans h.inputs, UInt32.le_trans h.next_le h'.next_le,
    fun ops inputs w hw => (h'.values ops inputs w (UInt32.lt_of_lt_of_le hw h.next_le)).trans
      (h.values ops inputs w hw)⟩

variable {c : RecordCtx} (h : Recording c)

def pushed (c : RecordCtx) (g : Gate) : RecordCtx :=
  { c with inputsClosed := true, nextId := c.nextId + 1 }.pushGate g

theorem recorded_pushed (c : RecordCtx) (g : Gate) : recorded (pushed c g) = (recorded c).emit g :=
  rfl

theorem alloc_ok (hroom : c.nextId.toNat + 1 ≤ 2 ^ 32 - 1) : RecordCtx.alloc c =
    .ok (c.nextId, { c with inputsClosed := true, nextId := c.nextId + 1 }) := by
  have hne : c.nextId ≠ 0xFFFFFFFF := fun he => by
    rw [he] at hroom
    simp only [UInt32.reduceToNat] at hroom
    omega
  simp only [RecordCtx.alloc, bind_eq_ok, expecting_eq_ok, pure_eq_ok]
  exact ⟨(), hne, trivial⟩

include h

theorem Recording.extends_pushed {g : Gate} (hroom : c.nextId.toNat + 1 ≤ 2 ^ 32 - 1) (hc : g.Canonical)
    (ho : g.out = c.nextId) (hr : ∀ w ∈ g.reads, w < c.nextId) :
    Extends c (pushed c g) := by
  have hnext := toNat_succ (x := c.nextId) (by omega)
  refine ⟨⟨?_, fun v o hv => List.mem_append_left _ (h.const_mem v o hv)⟩, rfl, ?_, ?_⟩
  · exact h.dense.emit (by change c.nextId.toNat + 1 < 2 ^ 32; omega) hc ho hr
  · rw [UInt32.le_iff_toNat_le]
    change c.nextId.toNat ≤ (c.nextId + 1).toNat
    omega
  · intro Wire _ ops inputs w hw
    rw [recorded_pushed]
    exact (BooleanProgram.emit_values ho ops inputs).1 w hw

theorem Recording.wireValue_const {v : Bool} {o : UInt32} (ho : c.constWire v = some o)
    {Wire : Type} [Inhabited Wire] (ops : GateOps Wire) (inputs : List Wire) :
    o < c.nextId ∧ (recorded c).values ops inputs o = ops.publicBit v := by
  have hg := h.const_mem v o ho
  have hdef : o ∈ gateShape.defined (recorded c).inputs (recorded c).gates :=
    Or.inr (List.mem_map_of_mem hg)
  rw [h.dense.defined] at hdef
  have hsol := (gateMachine ops).run_solves h.dense.well_scoped h.dense.fresh (inputEnv inputs)
  refine ⟨hdef, (hsol _ hg).trans ?_⟩
  cases v <;> rfl

omit h in
theorem pushed_value {g : Gate} (ho : g.out = c.nextId) {Wire : Type} [Inhabited Wire]
    (ops : GateOps Wire) (inputs : List Wire) :
    (recorded (pushed c g)).values ops inputs c.nextId =
      (gateMachine ops).value g ((recorded c).values ops inputs) := by
  rw [recorded_pushed]
  exact (BooleanProgram.emit_values ho ops inputs).2

omit h in
theorem pushed_next (g : Gate) (hroom : c.nextId.toNat + 1 ≤ 2 ^ 32 - 1) :
    (pushed c g).nextId.toNat = c.nextId.toNat + 1 ∧ c.nextId < (pushed c g).nextId := by
  have hnext : (pushed c g).nextId.toNat = c.nextId.toNat + 1 := toNat_succ (by omega)
  refine ⟨hnext, ?_⟩
  rw [UInt32.lt_iff_toNat_lt]
  omega

end Recorder

section Calls

theorem lookup_arg {V : Type} {args : List (List V)} {i j : Nat}
    (h : j < (args.map List.length).getD i 0) : ∃ arg, args[i]? = some arg ∧ j < arg.length := by
  rw [List.getD_eq_getElem?_getD, List.getElem?_map] at h
  cases harg : args[i]? with
  | none => simp [harg] at h
  | some arg => exact ⟨arg, rfl, by simpa [harg] using h⟩

theorem Ref.get_map {V W : Type} [Inhabited V] [Inhabited W] (f : V → W) {args : List (List V)}
    {results : List V} {r : Ref} (h : r.InScope (args.map List.length) results.length) :
    r.get (args.map (List.map f)) (results.map f) = f (r.get args results) := by
  cases r with
  | arg i j =>
    obtain ⟨arg, harg, hj⟩ := lookup_arg h
    simp [Ref.get, harg, hj]
  | result k =>
    have hk : k < results.length := h
    simp [Ref.get, hk]

theorem Ref.get_mem {V : Type} [Inhabited V] {args : List (List V)} {results : List V} {r : Ref}
    (h : r.InScope (args.map List.length) results.length) :
    r.get args results ∈ args.flatten ++ results := by
  cases r with
  | arg i j =>
    obtain ⟨arg, harg, hj⟩ := lookup_arg h
    refine List.mem_append_left _ (List.mem_flatten.mpr ⟨arg, List.mem_of_getElem? harg, ?_⟩)
    simp [Ref.get, harg, hj]
  | result k =>
    have hk : k < results.length := h
    refine List.mem_append_right _ ?_
    simp [Ref.get, hk]

structure Issued (c : RecordCtx) (args : List (List UInt32)) (results : List UInt32) (call : Call)
    (o : UInt32) (c' : RecordCtx) : Prop where
  grown : Extends c c'
  out_lt : o < c'.nextId
  next : c'.nextId.toNat = c.nextId.toNat + call.ids (noted c)
  noted : noted c' = call.note (noted c)
  value : ∀ {Wire : Type} [Inhabited Wire] (ops : GateOps Wire) (inputs : List Wire),
    (recorded c').values ops inputs o = call.issue (m := Id) ops.context
      (args.map (List.map ((recorded c).values ops inputs)))
      (results.map ((recorded c).values ops inputs))

variable {c : RecordCtx} {args : List (List UInt32)} {results : List UInt32}

theorem record_ok {c : RecordCtx} (hroom : c.nextId.toNat + 1 ≤ 2 ^ 32 - 1) (a b : UInt32)
    (op : Op) :
    RecordCtx.record a b op c = .ok (c.nextId, pushed c ⟨a, b, c.nextId, op⟩) := by
  simp only [RecordCtx.record, alloc_ok hroom]
  rfl

theorem Recording.issued_cached (h : Recording c) {v : Bool} {o : UInt32}
    (hv : c.constWire v = some o) : Issued c args results (.publicBit v) o c where
  grown := h.extends_self
  out_lt := (h.wireValue_const hv clearCtx []).1
  next := by simp [Call.ids, noted, hv]
  noted := by
    funext u
    simp only [Call.note, Function.update_apply]
    split
    · rename_i hu
      rw [Frontend.noted, hu, hv]
      rfl
    · rfl
  value ops inputs := (h.wireValue_const hv ops inputs).2

theorem Recording.issued_const (h : Recording c) {v : Bool} (hv : c.constWire v = none)
    (hroom : c.nextId.toNat + 1 ≤ 2 ^ 32 - 1) :
    Issued c args results (.publicBit v) c.nextId { pushed c (constGate v c.nextId) with
      constWire := Function.update c.constWire v (some c.nextId) } := by
  have hids : (Call.publicBit v).ids (noted c) = 1 := by simp [Call.ids, noted, hv]
  have hcanon : (constGate v c.nextId).Canonical := by cases v <;> exact ⟨rfl, rfl⟩
  have hreads : ∀ w ∈ (constGate v c.nextId).reads, w < c.nextId := by
    cases v <;> simp [constGate, Gate.reads]
  have grown := h.extends_pushed hroom hcanon rfl hreads
  have hnext := pushed_next (constGate v c.nextId) hroom
  refine ⟨⟨⟨grown.recording.dense, fun u o hu => ?_⟩, grown.inputs, grown.next_le, grown.values⟩,
    hnext.2, by rw [hids]; exact hnext.1, ?_, ?_⟩
  · simp only [Function.update_apply] at hu
    split at hu
    · rename_i huv
      rw [huv, ← Option.some.inj hu]
      exact List.mem_append_right _ (List.mem_singleton.mpr rfl)
    · exact grown.recording.const_mem u o hu
  · funext u
    simp only [Call.note, noted, Function.update_apply]
    split <;> rfl
  · intro Wire _ ops inputs
    refine (pushed_value (g := constGate v c.nextId) rfl ops inputs).trans ?_
    cases v <;> rfl

theorem Recording.issued_gate (h : Recording c) (hroom : c.nextId.toNat + 1 ≤ 2 ^ 32 - 1)
    {call : Call} (hids : call.ids (noted c) = 1) (hnote : call.note (noted c) = noted c)
    {a b : UInt32} {op : Op} (hc : (⟨a, b, c.nextId, op⟩ : Gate).Canonical)
    (hr : ∀ w ∈ (⟨a, b, c.nextId, op⟩ : Gate).reads, w < c.nextId)
    (hvalue : ∀ {Wire : Type} [Inhabited Wire] (ops : GateOps Wire) (inputs : List Wire),
      (gateMachine ops).value ⟨a, b, c.nextId, op⟩ ((recorded c).values ops inputs) =
        call.issue (m := Id) ops.context
          (args.map (List.map ((recorded c).values ops inputs)))
          (results.map ((recorded c).values ops inputs))) :
    Issued c args results call c.nextId (pushed c ⟨a, b, c.nextId, op⟩) where
  grown := h.extends_pushed hroom hc rfl hr
  out_lt := (pushed_next _ hroom).2
  next := by rw [hids, (pushed_next _ hroom).1]
  noted := hnote.symm
  value ops inputs := (pushed_value rfl ops inputs).trans (hvalue ops inputs)

theorem Recording.issue (h : Recording c) {call : Call}
    (hscope : ∀ r ∈ call.refs, r.InScope (args.map List.length) results.length)
    (hlt : ∀ w ∈ args.flatten ++ results, w < c.nextId)
    (hroom : c.nextId.toNat + call.ids (noted c) ≤ 2 ^ 32 - 1) :
    ∃ o c', call.issue RecordCtx.context args results c = .ok (o, c') ∧
      Issued c args results call o c' := by
  have bound {r : Ref} (hr : r ∈ call.refs) : r.get args results < c.nextId :=
    hlt _ (Ref.get_mem (hscope r hr))
  cases call with
  | publicBit v =>
    cases hv : c.constWire v with
    | some o =>
      refine ⟨o, c, ?_, h.issued_cached hv⟩
      simp only [Call.issue, RecordCtx.context, RecordCtx.publicBit, hv]
      rfl
    | none =>
      have hids : (Call.publicBit v).ids (noted c) = 1 := by simp [Call.ids, noted, hv]
      rw [hids] at hroom
      refine ⟨_, _, ?_, h.issued_const hv hroom⟩
      simp only [Call.issue, RecordCtx.context, RecordCtx.publicBit, hv, alloc_ok hroom]
      rfl
  | andGate a b =>
    rw [Call.refs, List.forall_mem_cons, List.forall_mem_singleton] at hscope
    refine ⟨_, _, record_ok hroom _ _ .and, h.issued_gate hroom rfl rfl trivial
      (List.forall_mem_cons.mpr ⟨bound (by simp [Call.refs]),
        List.forall_mem_singleton.mpr (bound (by simp [Call.refs]))⟩) ?_⟩
    intro Wire _ ops inputs
    simp only [Call.issue, Ref.get_map _ hscope.1, Ref.get_map _ hscope.2]
    rfl
  | xorGate a b =>
    rw [Call.refs, List.forall_mem_cons, List.forall_mem_singleton] at hscope
    refine ⟨_, _, record_ok hroom _ _ .xor, h.issued_gate hroom rfl rfl trivial
      (List.forall_mem_cons.mpr ⟨bound (by simp [Call.refs]),
        List.forall_mem_singleton.mpr (bound (by simp [Call.refs]))⟩) ?_⟩
    intro Wire _ ops inputs
    simp only [Call.issue, Ref.get_map _ hscope.1, Ref.get_map _ hscope.2]
    rfl
  | notGate a =>
    rw [Call.refs, List.forall_mem_singleton] at hscope
    refine ⟨_, _, record_ok hroom _ 0 .not, h.issued_gate hroom rfl rfl rfl
      (List.forall_mem_singleton.mpr (bound (by simp [Call.refs]))) ?_⟩
    intro Wire _ ops inputs
    simp only [Call.issue, Ref.get_map _ hscope]
    rfl

theorem Extends.map_values {c' : RecordCtx} (h : Extends c c') {ids : List UInt32}
    (hlt : ∀ w ∈ ids, w < c.nextId) {Wire : Type} [Inhabited Wire] (ops : GateOps Wire)
    (inputs : List Wire) : ids.map ((recorded c').values ops inputs) =
      ids.map ((recorded c).values ops inputs) :=
  List.map_congr_left fun w hw => h.values ops inputs w (hlt w hw)

structure IssuedAll (c : RecordCtx) (args : List (List UInt32)) (results : List UInt32)
    (calls : List Call) (results' : List UInt32) (c' : RecordCtx) : Prop where
  grown : Extends c c'
  results_lt : ∀ w ∈ results', w < c'.nextId
  length : results'.length = results.length + calls.length
  value : ∀ {Wire : Type} [Inhabited Wire] (ops : GateOps Wire) (inputs : List Wire),
    results'.map ((recorded c').values ops inputs) = issueCalls (m := Id) ops.context
      (args.map (List.map ((recorded c).values ops inputs))) calls
      (results.map ((recorded c).values ops inputs))

theorem Recording.issueCalls (h : Recording c) {calls : List Call}
    (hscope : CallsInScope (args.map List.length) results.length calls)
    (hlt : ∀ w ∈ args.flatten ++ results, w < c.nextId)
    (hroom : c.nextId.toNat + newIds (noted c) calls ≤ 2 ^ 32 - 1) :
    ∃ results' c', Frontend.issueCalls RecordCtx.context args calls results c =
        .ok (results', c') ∧ IssuedAll c args results calls results' c' := by
  induction calls generalizing c results with
  | nil =>
    rw [List.forall_mem_append] at hlt
    exact ⟨results, c, rfl, h.extends_self, hlt.2, rfl, fun _ _ => rfl⟩
  | cons call calls ih =>
    simp only [newIds] at hroom
    obtain ⟨o, c₁, hcall, issued⟩ := h.issue hscope.1 hlt (by omega)
    have hstep : ∀ w ∈ args.flatten ++ (results ++ [o]), w < c₁.nextId := by
      rw [← List.append_assoc, List.forall_mem_append, List.forall_mem_singleton]
      exact ⟨fun w hw => UInt32.lt_of_lt_of_le (hlt w hw) issued.grown.next_le, issued.out_lt⟩
    obtain ⟨results', c', hrest, all⟩ := @ih c₁ (results ++ [o]) issued.grown.recording
      (by rw [List.length_append, List.length_singleton]; exact hscope.2) hstep
      (by rw [issued.noted, issued.next]; omega)
    refine ⟨results', c', ?_, issued.grown.trans all.grown, all.results_lt, ?_, ?_⟩
    · exact bind_eq_ok.mpr ⟨_, hcall, hrest⟩
    · simp only [all.length, List.length_append, List.length_cons, List.length_nil]
      omega
    · intro Wire _ ops inputs
      rw [List.forall_mem_append] at hlt
      have hargs : args.map (List.map ((recorded c₁).values ops inputs)) =
          args.map (List.map ((recorded c).values ops inputs)) :=
        List.map_congr_left fun arg harg => issued.grown.map_values
          (fun w hw => hlt.1 w (List.mem_flatten.mpr ⟨arg, harg, hw⟩)) ops inputs
      rw [all.value, hargs, List.map_append, issued.grown.map_values hlt.2, List.map_singleton,
        issued.value]
      rfl

end Calls

section Arguments

def reserved (c : RecordCtx) (k : Nat) : RecordCtx :=
  { c with nextId := UInt32.ofNat k, numInputs := UInt32.ofNat k }

theorem externalInput_ok {c : RecordCtx} (hopen : c.inputsClosed = false) {width k : Nat}
    (hpos : 0 < width) (hroom : k + width ≤ 2 ^ 32 - 1) :
    RecordCtx.externalInput width (reserved c k) = .ok (UInt32.ofNat k, reserved c (k + width)) := by
  have hk : (0xFFFFFFFF - UInt32.ofNat k).toNat = 2 ^ 32 - 1 - k := by
    rw [UInt32.toNat_sub_of_le]
    · rw [toNat_ofNat (by omega)]
      rfl
    · rw [UInt32.le_iff_toNat_le, toNat_ofNat (by omega)]
      simp only [UInt32.reduceToNat]
      omega
  simp only [RecordCtx.externalInput, reserved, bind_eq_ok, expecting_eq_ok, pure_eq_ok, hk,
    UInt32.ofNat_add]
  exact ⟨(), expecting_eq_ok.mpr hopen, (), by omega, (), by omega, (), by omega, trivial⟩

theorem makeRecArg_ok {c : RecordCtx} (hopen : c.inputsClosed = false) {width k : Nat}
    (hpos : 0 < width) (hroom : k + width ≤ 2 ^ 32 - 1) :
    makeRecArg width (reserved c k) =
      .ok ((List.range' k width).map UInt32.ofNat, reserved c (k + width)) := by
  refine bind_eq_ok.mpr ⟨_, externalInput_ok hopen hpos hroom, ?_⟩
  rw [List.range'_eq_map_range, List.map_map]
  simp only [Function.comp_def, UInt32.ofNat_add]
  rfl

theorem makeRecArgs_ok {c : RecordCtx} (hopen : c.inputsClosed = false) {widths : List Nat} {k : Nat}
    (hpos : ∀ w ∈ widths, 0 < w) (hroom : k + widths.sum ≤ 2 ^ 32 - 1) :
    ∃ args, makeRecArgs widths (reserved c k) = .ok (args, reserved c (k + widths.sum)) ∧
      args.map List.length = widths ∧
      args.flatten = (List.range' k widths.sum).map UInt32.ofNat := by
  induction widths generalizing k with
  | nil => exact ⟨[], rfl, rfl, rfl⟩
  | cons width widths ih =>
    rw [List.forall_mem_cons] at hpos
    rw [List.sum_cons] at hroom ⊢
    have hfirst := makeRecArg_ok hopen hpos.1 (by omega : k + width ≤ 2 ^ 32 - 1)
    obtain ⟨args, hargs, hlens, hflat⟩ := @ih (k + width) hpos.2 (by omega)
    refine ⟨(List.range' k width).map UInt32.ofNat :: args, ?_, ?_, ?_⟩
    · rw [← Nat.add_assoc]
      exact bind_eq_ok.mpr ⟨_, hfirst, bind_eq_ok.mpr ⟨_, hargs, rfl⟩⟩
    · simp [hlens]
    · rw [List.flatten_cons, hflat, ← List.map_append, List.range'_append_1]

theorem args_values {args : List (List UInt32)} {widths : List Nat}
    (hlens : args.map List.length = widths)
    (hflat : args.flatten = (List.range' 0 widths.sum).map UInt32.ofNat)
    (hroom : widths.sum < 2 ^ 32) {Wire : Type} [Inhabited Wire] {vals : List (List Wire)}
    (hvals : vals.map List.length = widths) :
    args.map (List.map (inputEnv vals.flatten)) = vals := by
  refine (List.eq_iff_flatten_eq).mpr ⟨?_, ?_⟩
  · rw [← List.map_flatten, hflat, List.map_map]
    have hlen : vals.flatten.length = widths.sum := by rw [List.length_flatten, hvals]
    refine List.ext_getElem (by simp [hlen]) fun i hi hi' => ?_
    have hlt : i < 2 ^ 32 := by omega
    simp only [List.getElem_map, List.getElem_range', Function.comp_apply, inputEnv, zero_add,
      one_mul, toNat_ofNat hlt]
    exact List.getD_eq_getElem _ _ hi'
  · rw [hvals, ← hlens, List.map_map]
    simp

end Arguments

theorem Circuit.construct_ok {widths : List Nat} {returns : Nat} {p : BooleanProgram} (hv : Valid p)
    (hin : p.numInputs.toNat = widths.sum) (hout : p.outputs.length = returns)
    (hr : returns < 2 ^ 32) :
    Circuit.construct widths returns ⟨p, ⟨widths.map UInt32.ofNat, UInt32.ofNat returns⟩⟩ =
      .ok ⟨⟨p, ⟨widths.map UInt32.ofNat, UInt32.ofNat returns⟩⟩⟩ := by
  have hlt := p.numInputs.toNat_lt
  have hwidths : (widths.map UInt32.ofNat).map UInt32.toNat = widths := by
    rw [List.map_map]
    refine (List.map_congr_left fun w hw => ?_).trans (List.map_id widths)
    exact toNat_ofNat (Nat.lt_of_le_of_lt (List.le_sum_of_mem hw) (by omega))
  have hbits : (CircuitSignature.mk (widths.map UInt32.ofNat) (UInt32.ofNat returns)).totalInputBits =
      widths.sum := by
    rw [CircuitSignature.totalInputBits, hwidths, Nat.mod_eq_of_lt (by omega)]
  simp only [Circuit.construct, validateArtifact, bind_eq_ok, expecting_eq_ok, pure_eq_ok, hbits]
  refine ⟨(), ⟨(), validateProgram_ok_iff.mpr hv, (), by omega, (), hin.symm, ?_⟩, (), by simp, (), ?_,
    (), trivial, trivial⟩
  · rw [toNat_ofNat hr, hout]
  · intro x hx
    rw [List.zip_map'] at hx
    obtain ⟨w, -, rfl⟩ := List.mem_map.mp hx
    rfl

structure BodyRecorded {widths : List Nat} (body : Body widths) (ids : List (List UInt32))
    (results : List UInt32) (c : RecordCtx) : Prop where
  lengths : ids.map List.length = widths
  windows : ids.flatten = (List.range' 0 widths.sum).map UInt32.ofNat
  ids_lt : ∀ w ∈ ids.flatten, w < (reserved {} widths.sum).nextId
  all : IssuedAll (reserved {} widths.sum) ids [] body.calls results c

section Compile

variable {widths : List Nat} (body : Body widths)

theorem record_body (hpos : ∀ w ∈ widths, 0 < w)
    (hroom : widths.sum + newIds (fun _ => false) body.calls ≤ 2 ^ 32 - 1) :
    ∃ ids results c, makeRecArgs widths {} = .ok (ids, reserved {} widths.sum) ∧
      issueCalls RecordCtx.context ids body.calls [] (reserved {} widths.sum) =
        .ok (results, c) ∧ BodyRecorded body ids results c := by
  have hsum : (UInt32.ofNat widths.sum).toNat = widths.sum := toNat_ofNat (by omega)
  obtain ⟨ids, hids, hlens, hflat⟩ := makeRecArgs_ok (c := {}) rfl (k := 0) hpos (by omega)
  rw [Nat.zero_add] at hids
  have hwindow : ∀ w ∈ ids.flatten, w < (reserved {} widths.sum).nextId := by
    rw [hflat, List.forall_mem_map]
    intro k hk
    have hk := List.mem_range'_1.mp hk
    change UInt32.ofNat k < UInt32.ofNat widths.sum
    rw [UInt32.lt_iff_toNat_lt, hsum, toNat_ofNat (by omega)]
    omega
  have hstart : Recording (reserved {} widths.sum) := ⟨.start rfl rfl rfl, nofun⟩
  obtain ⟨results, c, hcalls, all⟩ := @hstart.issueCalls _ ids [] body.calls
    (by rw [hlens]; exact body.calls_in_scope) (by rw [List.append_nil]; exact hwindow) (by
      change (UInt32.ofNat widths.sum).toNat + newIds (fun _ => false) body.calls ≤ 2 ^ 32 - 1
      rw [hsum]
      exact hroom)
  exact ⟨ids, results, c, hids, hcalls, hlens, hflat, hwindow, all⟩

variable {body} {ids : List (List UInt32)} {results : List UInt32} {c : RecordCtx}
  (h : BodyRecorded body ids results c)

include h

theorem BodyRecorded.in_scope : ∀ r ∈ body.returns, r.InScope (ids.map List.length) results.length := by
  rw [h.lengths, h.all.length, List.length_nil, Nat.zero_add]
  exact body.returns_in_scope

theorem BodyRecorded.lt_next : ∀ w ∈ ids.flatten ++ results, w < c.nextId := by
  rw [List.forall_mem_append]
  exact ⟨fun w hw => UInt32.lt_of_lt_of_le (h.ids_lt w hw) h.all.grown.next_le, h.all.results_lt⟩

theorem BodyRecorded.program_valid :
    Valid (finished c (body.returns.map (Ref.get ids results))) := by
  refine (h.all.grown.recording.dense.withOutputs _).valid ?_
  rw [List.forall_mem_map]
  exact fun r hr => h.lt_next _ (Ref.get_mem (h.in_scope r hr))

theorem BodyRecorded.evaluate (hsum : widths.sum < 2 ^ 32) {Wire : Type} [Inhabited Wire]
    (ops : GateOps Wire) {args : List (List Wire)} (hargs : args.map List.length = widths) :
    (body.returns.map (Ref.get ids results)).map ((recorded c).values ops args.flatten) =
      body.apply (m := Id) ops.context args := by
  have hstart : (recorded (reserved {} widths.sum)).values ops args.flatten =
      inputEnv args.flatten := rfl
  have hlive : ids.map (List.map ((recorded c).values ops args.flatten)) = args := by
    refine Eq.trans (List.map_congr_left fun id hid => ?_)
      (args_values h.lengths h.windows hsum hargs)
    rw [← hstart]
    exact h.all.grown.map_values
      (fun w hw => h.ids_lt w (List.mem_flatten.mpr ⟨id, hid, hw⟩)) ops args.flatten
  have hresults := h.all.value ops args.flatten
  rw [hstart, args_values h.lengths h.windows hsum hargs, List.map_nil] at hresults
  rw [List.map_map]
  refine (List.map_congr_left fun r hr => ?_).trans rfl
  have hget := Ref.get_map ((recorded c).values ops args.flatten) (h.in_scope r hr)
  rw [hlive, hresults] at hget
  exact hget.symm

end Compile

theorem compile_run_eq_live {widths : List Nat} (hpos : ∀ w ∈ widths, 0 < w) (body : Body widths)
    (hroom : widths.sum + newIds (fun _ => false) body.calls ≤ 2 ^ 32 - 1) :
    ∃ c, compile body = .ok c ∧ validateProgram c.artifact.program = .ok () ∧
      ∀ {Wire : Type} [Inhabited Wire] (ops : GateOps Wire) (args : List (List Wire)),
        args.map List.length = widths →
        run (m := Id) ops.context c args = .ok (body.apply (m := Id) ops.context args) ∧
        executeProgram (m := Id) ops.context c.artifact.program args.flatten =
          .ok (body.apply (m := Id) ops.context args) := by
  obtain ⟨ids, results, c, hargs, hcalls, rec⟩ := record_body body hpos hroom
  have hsum : (UInt32.ofNat widths.sum).toNat = widths.sum := toNat_ofNat (by omega)
  have valid := rec.program_valid
  have hin : c.numInputs = UInt32.ofNat widths.sum := rec.all.grown.inputs
  have hbits : c.numInputs.toNat = widths.sum := by rw [hin, hsum]
  have hret := body.return_width
  have hcons := Circuit.construct_ok valid hbits (List.length_map _) (by omega)
  refine ⟨⟨⟨finished c _, ⟨widths.map UInt32.ofNat, UInt32.ofNat body.returns.length⟩⟩⟩, ?_,
    validateProgram_ok_iff.mpr valid, fun {Wire} _ ops args hlens => ?_⟩
  · refine bind_eq_ok.mpr ⟨_, hargs, bind_eq_ok.mpr ⟨_, bind_eq_ok.mpr ⟨_, hcalls, rfl⟩, ?_⟩⟩
    exact bind_eq_ok.mpr ⟨_, bind_eq_ok.mpr ⟨_, validateProgram_ok_iff.mpr valid, rfl⟩, hcons⟩
  · have hwidth : args.flatten.length = widths.sum := by rw [List.length_flatten, hlens]
    have hexec := executeProgram_eq valid ops (hwidth.trans hbits.symm)
    have heval : (finished c (body.returns.map (Ref.get ids results))).evaluate ops args.flatten =
      body.apply (m := Id) ops.context args := rec.evaluate (by omega) ops hlens
    rw [heval] at hexec
    refine ⟨?_, hexec⟩
    simp only [run, bind_eq_ok, expecting_eq_ok]
    refine ⟨(), ?_, (), ?_, hexec⟩
    · rw [List.length_map, ← hlens, List.length_map]
    · rw [hwidth]
      exact hin.symm

def bodySample : Body [2, 1] where
  calls := [.publicBit true, .andGate (.arg 0 0) (.arg 1 0), .publicBit true,
    .xorGate (.result 1) (.result 2), .publicBit false, .notGate (.result 3)]
  returns := [.result 5, .arg 0 1, .result 0, .result 2]
  calls_in_scope := by decide
  returns_in_scope := by decide
  return_width := by decide

theorem compile_run_eq_live_bodySample :
    ∃ c, compile bodySample = .ok c ∧ validateProgram c.artifact.program = .ok () ∧
      run (m := Id) clearCtx.context c [[1, 0], [1]] = .ok [1, 0, 1, 1] := by
  obtain ⟨c, hc, hv, hrun⟩ := compile_run_eq_live (by decide) bodySample (by decide)
  exact ⟨c, hc, hv, (hrun clearCtx [[1, 0], [1]] rfl).1⟩

end EmpTool.Frontend
