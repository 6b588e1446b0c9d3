import EmpTool.Frontend.Recording
import EmpTool.Ir.Analysis
import EmpTool.Ir.EmpbcLayout

namespace EmpTool.Frontend

open Ir

def compileAt (level : WireReuse) {widths : List Nat} (body : Body widths) :
    Except String Circuit := do
  let dense ← compile body
  let r ← makeCompact dense.artifact.program level
  Circuit.construct widths body.returns.length ⟨r.prog, dense.artifact.signature⟩

def compileLinear {widths : List Nat} (body : Body widths) : Except String Circuit :=
  compileAt .linear body

section Order

structure Ordered (c : RecordCtx) : Prop where
  next : c.nextId.toNat = c.numInputs.toNat + c.prog.gates.length
  outs : OutsFrom c.numInputs c.prog.gates

variable {c c' : RecordCtx}

theorem Ordered.pushed (h : Ordered c) (hroom : c.nextId ≠ 0xFFFFFFFF) {g : Gate}
    (ho : g.out = c.nextId) : Ordered (pushed c g) := by
  have hlt : c.nextId.toNat < 2 ^ 32 - 1 := by
    have hmax := c.nextId.toNat_lt
    refine Nat.lt_of_le_of_ne (by omega) fun he => hroom (UInt32.toNat_inj.mp ?_)
    rw [he]
    rfl
  have hnext : (c.nextId + 1).toNat = c.nextId.toNat + 1 := toNat_succ (by omega)
  have hlen : (c.prog.gates ++ [g]).length = c.prog.gates.length + 1 := by simp
  refine ⟨?_, fun i g' hi => ?_⟩
  · change (c.nextId + 1).toNat = c.numInputs.toNat + (c.prog.gates ++ [g]).length
    rw [hnext, hlen, h.next, Nat.add_assoc]
  · change (c.prog.gates ++ [g])[i]? = some g' at hi
    change g'.out.toNat = c.numInputs.toNat + i
    rcases Nat.lt_or_ge i c.prog.gates.length with hlt | hge
    · rw [List.getElem?_append_left hlt] at hi
      exact h.outs i g' hi
    · have hi' : i = c.prog.gates.length := by
        have := (List.getElem?_eq_some_iff.mp hi).1
        omega
      rw [List.getElem?_append_right hge, hi', Nat.sub_self] at hi
      cases hi
      rw [ho, h.next, hi']

theorem Ordered.record (h : Ordered c) {a b o : UInt32} {op : Op}
    (hc : RecordCtx.record a b op c = .ok (o, c')) : Ordered c' := by
  simp only [RecordCtx.record, RecordCtx.alloc, bind_eq_ok, expecting_eq_ok, pure_eq_ok] at hc
  obtain ⟨_, ⟨_, hroom, rfl⟩, hpush⟩ := hc
  cases hpush
  exact h.pushed hroom rfl

theorem Ordered.publicBit (h : Ordered c) {v : Bool} {o : UInt32}
    (hc : RecordCtx.publicBit v c = .ok (o, c')) : Ordered c' := by
  unfold RecordCtx.publicBit at hc
  split at hc
  · cases hc
    exact h
  · simp only [RecordCtx.alloc, bind_eq_ok, expecting_eq_ok, pure_eq_ok] at hc
    obtain ⟨_, ⟨_, hroom, rfl⟩, hpush⟩ := hc
    cases hpush
    have hp := h.pushed hroom (g := constGate v c.nextId) rfl
    exact ⟨hp.next, hp.outs⟩

theorem Ordered.issue (h : Ordered c) {args : List (List UInt32)} {results : List UInt32}
    {call : Call} {o : UInt32}
    (hc : call.issue RecordCtx.context args results c = .ok (o, c')) : Ordered c' := by
  cases call with
  | publicBit v => exact h.publicBit hc
  | andGate a b => exact h.record hc
  | xorGate a b => exact h.record hc
  | notGate a => exact h.record hc

theorem Ordered.issueCalls {args : List (List UInt32)} {calls : List Call}
    {results results' : List UInt32} (h : Ordered c)
    (hc : issueCalls RecordCtx.context args calls results c = .ok (results', c')) : Ordered c' := by
  induction calls generalizing c results with
  | nil =>
    cases hc
    exact h
  | cons call calls ih =>
    obtain ⟨⟨o, c₁⟩, hcall, hrest⟩ := bind_eq_ok.mp hc
    exact ih (h.issue hcall) hrest

end Order

structure Compiled {widths : List Nat} (body : Body widths) (c : Circuit) : Prop where
  valid : Valid c.artifact.program
  dense : c.artifact.program.wireReuse = .none
  in_order : OutsFrom c.artifact.program.numInputs c.artifact.program.gates
  num_inputs : c.artifact.program.numInputs.toNat = widths.sum
  num_outputs : c.artifact.program.outputs.length = body.returns.length
  signature : c.artifact.signature = ⟨widths.map UInt32.ofNat, UInt32.ofNat body.returns.length⟩
  evaluate : ∀ {Wire : Type} [Inhabited Wire] (ops : GateOps Wire) (args : List (List Wire)),
    args.map List.length = widths →
      c.artifact.program.evaluate ops args.flatten = body.apply (m := Id) ops.context args

section Types

variable {widths : List Nat} {returns : Nat} {a : CircuitArtifact} {c : Circuit}

theorem zip_all_eq {α : Type} {as bs : List α} (hlen : as.length = bs.length) :
    (∀ x ∈ as.zip bs, x.1 = x.2) ↔ as = bs := by
  constructor
  · intro h
    refine List.ext_getElem hlen fun i hi hi' => ?_
    have hzip : i < (as.zip bs).length := by
      rw [List.length_zip]
      omega
    have hpair := h _ (List.getElem_mem hzip)
    rwa [List.getElem_zip] at hpair
  · rintro rfl x hx
    rw [List.zip_eq_zipWith, List.zipWith_self] at hx
    obtain ⟨y, -, rfl⟩ := List.mem_map.mp hx
    rfl

theorem Circuit.construct_iff : Circuit.construct widths returns a = .ok c ↔
    validateArtifact a = .ok () ∧
      a.signature = ⟨widths.map UInt32.ofNat, UInt32.ofNat returns⟩ ∧ c = ⟨a⟩ := by
  simp only [Circuit.construct, bind_eq_ok, expecting_eq_ok, pure_eq_ok]
  have hsig : a.signature = ⟨widths.map UInt32.ofNat, UInt32.ofNat returns⟩ ↔
      a.signature.argWidths = widths.map UInt32.ofNat ∧
        a.signature.returnWidth = UInt32.ofNat returns :=
    ⟨fun h => h ▸ ⟨rfl, rfl⟩, fun h => by
      rcases hs : a.signature with ⟨argWidths, returnWidth⟩
      rw [hs] at h
      rw [← h.1, ← h.2]⟩
  rw [hsig]
  constructor
  · rintro ⟨⟨⟩, hvalid, _, harity, _, hzip, _, hret, rfl⟩
    have hlen : a.signature.argWidths.length = (widths.map UInt32.ofNat).length := by
      rw [harity, List.length_map]
    exact ⟨hvalid, ⟨(zip_all_eq hlen).mp hzip, hret⟩, rfl⟩
  · rintro ⟨hvalid, ⟨hargs, hret⟩, rfl⟩
    have hlen : a.signature.argWidths.length = (widths.map UInt32.ofNat).length := by rw [hargs]
    exact ⟨(), hvalid, (), by rw [hlen, List.length_map], (), (zip_all_eq hlen).mpr hargs, (), hret,
      rfl⟩

theorem ofNat_injOn {ws ws' : List Nat} (hws : ∀ w ∈ ws, w < 2 ^ 32) (hws' : ∀ w ∈ ws', w < 2 ^ 32)
    (h : ws.map UInt32.ofNat = ws'.map UInt32.ofNat) : ws = ws' := by
  have back {l : List Nat} (hl : ∀ w ∈ l, w < 2 ^ 32) :
      (l.map UInt32.ofNat).map UInt32.toNat = l := by
    rw [List.map_map]
    exact (List.map_congr_left fun w hw => toNat_ofNat (hl w hw)).trans (List.map_id _)
  rw [← back hws, h, back hws']

end Types

section Compile

variable {widths : List Nat} (hpos : ∀ w ∈ widths, 0 < w) (body : Body widths)
  (hroom : widths.sum + newIds (fun _ => false) body.calls ≤ 2 ^ 32 - 1)

include hpos hroom

theorem compile_spec : ∃ c, compile body = .ok c ∧ Compiled body c := by
  obtain ⟨ids, results, c, hargs, hcalls, rec⟩ := record_body body hpos hroom
  have hsum : (UInt32.ofNat widths.sum).toNat = widths.sum := toNat_ofNat (by omega)
  have valid := rec.program_valid
  have hin : c.numInputs = UInt32.ofNat widths.sum := rec.all.grown.inputs
  have hbits : c.numInputs.toNat = widths.sum := by rw [hin, hsum]
  have hret := body.return_width
  have hcons := Circuit.construct_ok valid hbits (List.length_map _) (by omega)
  have hordered : Ordered (reserved {} widths.sum) := ⟨rfl, fun i g hi => absurd hi (by simp [reserved])⟩
  refine ⟨⟨⟨finished c _, ⟨widths.map UInt32.ofNat, UInt32.ofNat body.returns.length⟩⟩⟩, ?_, valid,
    rec.all.grown.recording.dense.mode, (hordered.issueCalls hcalls).outs, hbits,
    List.length_map _, rfl, fun ops args hlens => rec.evaluate (by omega) ops hlens⟩
  refine bind_eq_ok.mpr ⟨_, hargs, bind_eq_ok.mpr ⟨_, bind_eq_ok.mpr ⟨_, hcalls, rfl⟩, ?_⟩⟩
  exact bind_eq_ok.mpr ⟨_, bind_eq_ok.mpr ⟨_, validateProgram_ok_iff.mpr valid, rfl⟩, hcons⟩

theorem compileAt_spec {level : WireReuse} (hlevel : level ≠ .none) :
    ∃ dense c, compile body = .ok dense ∧ Compiled body dense ∧ compileAt level body = .ok c ∧
      c.artifact.signature = dense.artifact.signature ∧ Valid c.artifact.program ∧
      c.artifact.program.wireReuse = level ∧
      uncompact c.artifact.program = .ok dense.artifact.program ∧
      ∀ {Wire : Type} [Inhabited Wire] (ops : GateOps Wire) (inputs : List Wire),
        c.artifact.program.evaluate ops inputs = dense.artifact.program.evaluate ops inputs := by
  obtain ⟨dense, hdense, hc⟩ := compile_spec hpos body hroom
  obtain ⟨r, hr, hback⟩ := uncompact_makeCompact hc.valid hc.dense hc.in_order hlevel
  obtain ⟨r', hr', hmode, hin, hvalid, heval⟩ := makeCompact_spec hc.valid hc.dense hlevel
  rw [hr] at hr'
  cases hr'
  obtain ⟨-, -, hshape⟩ := uncompact_ok hback
  have hlen : r.prog.outputs.length = body.returns.length :=
    hshape.outputs.symm.trans hc.num_outputs
  have hret := body.return_width
  have hcons := Circuit.construct_ok hvalid (hin ▸ hc.num_inputs) hlen (by omega)
  rw [← hc.signature] at hcons
  refine ⟨dense, ⟨⟨r.prog, dense.artifact.signature⟩⟩, hdense, hc, ?_, rfl, hvalid, hmode, hback,
    heval⟩
  exact bind_eq_ok.mpr ⟨_, hdense, bind_eq_ok.mpr ⟨_, hr, hcons⟩⟩

end Compile

theorem Compiled.run {widths : List Nat} {body : Body widths} {dense c : Circuit}
    (hc : Compiled body dense) (hsig : c.artifact.signature = dense.artifact.signature)
    (hvalid : Valid c.artifact.program)
    (hin : c.artifact.program.numInputs = dense.artifact.program.numInputs)
    {Wire : Type} [Inhabited Wire] (ops : GateOps Wire) {args : List (List Wire)}
    (heval : c.artifact.program.evaluate ops args.flatten =
      dense.artifact.program.evaluate ops args.flatten)
    (hargs : args.map List.length = widths) :
    run (m := Id) ops.context c args = .ok (body.apply (m := Id) ops.context args) := by
  have hwidth : args.flatten.length = c.artifact.program.numInputs.toNat := by
    rw [List.length_flatten, hargs, hin, hc.num_inputs]
  have hexec := executeProgram_eq hvalid ops hwidth
  rw [heval, hc.evaluate ops args hargs] at hexec
  simp only [Frontend.run, bind_eq_ok, expecting_eq_ok]
  refine ⟨(), ?_, (), ?_, hexec⟩
  · rw [hsig, hc.signature, List.length_map, ← hargs, List.length_map]
  · rw [hwidth, UInt32.ofNat_toNat]

theorem saved_loads {p : BooleanProgram} (hv : Valid p) (hg : p.gates.length < 2 ^ 32)
    (ho : p.outputs.length < 2 ^ 32) : ∃ bytes, saveEmpbc p = .ok bytes ∧ loadEmpbc bytes = .ok p := by
  have hsave {iw : Nat} (hw : iw = 2 ∨ iw = 4) (hiw : iw = 2 → p.numWires.toNat < 2 ^ 16) :
      loadEmpbc (Empbc.putProgram iw p) = .ok p :=
    Empbc.loadEmpbc_iff.mpr ⟨hv, _, _, Empbc.encodes_putProgram hv hg ho hw hiw⟩
  refine ⟨_, by rw [saveEmpbc, validateProgram_ok_iff.mpr hv]; rfl, hsave ?_ ?_⟩
  · split
    · exact Or.inl rfl
    · exact Or.inr rfl
  · split
    case isTrue hle => exact fun _ => Nat.lt_succ_of_le (UInt32.le_iff_toNat_le.mp hle)
    case isFalse => exact fun h => absurd h (by decide)

theorem artifact_round_trip {widths : List Nat} (hpos : ∀ w ∈ widths, 0 < w) (body : Body widths)
    (hroom : widths.sum + newIds (fun _ => false) body.calls ≤ 2 ^ 32 - 1) (level : WireReuse)
    (hlevel : level ≠ .none) :
    ∃ dense c bytes loaded, compile body = .ok dense ∧ compileAt level body = .ok c ∧
      saveEmpbc c.artifact.program = .ok bytes ∧ loadEmpbc bytes = .ok loaded ∧
      loaded.wireReuse = level ∧ uncompact loaded = .ok dense.artifact.program ∧
      analyzeProgram loaded =
        (analyzeProgram dense.artifact.program).map (ProgramStats.storedAs loaded) ∧
      (∀ widths' returns' c', (∀ w ∈ widths', w < 2 ^ 31) → returns' < 2 ^ 31 →
        (Circuit.construct widths' returns' ⟨loaded, c.artifact.signature⟩ = .ok c' ↔
          widths' = widths ∧ returns' = body.returns.length ∧ c' = c)) ∧
      ∀ {Wire : Type} [Inhabited Wire] (ops : GateOps Wire) (args : List (List Wire)),
        args.map List.length = widths →
        run (m := Id) ops.context c args = .ok (body.apply (m := Id) ops.context args) := by
  obtain ⟨dense, c, hdense, hc, hat, hsig, hvalid, hmode, hback, heval⟩ :=
    compileAt_spec hpos body hroom hlevel
  obtain ⟨-, -, hshape⟩ := uncompact_ok hback
  have hret := body.return_width
  have hgates := gates_lt hc.valid hc.dense
  obtain ⟨bytes, hsave, hload⟩ := saved_loads hvalid (by rw [← hshape.gates]; omega)
    (by rw [← hshape.outputs, hc.num_outputs]; omega)
  refine ⟨dense, c, bytes, c.artifact.program, hdense, hat, hsave, hload, hmode, hback,
    analyzeProgram_uncompact (hmode ▸ hlevel) hback, fun widths' returns' c' hwidths' hreturns' => ?_,
    fun ops args hargs => hc.run hsig hvalid hshape.inputs.symm ops (heval ops _) hargs⟩
  have hvalidate : validateArtifact c.artifact = .ok () := by
    have hinputs : c.artifact.program.numInputs.toNat = widths.sum := hshape.inputs ▸ hc.num_inputs
    obtain ⟨hv, -⟩ := Circuit.construct_iff.mp (Circuit.construct_ok hvalid hinputs
      (hshape.outputs.symm.trans hc.num_outputs) (by omega))
    rw [← hc.signature, ← hsig] at hv
    exact hv
  have hsame := hsig.trans hc.signature
  rw [Circuit.construct_iff, and_iff_right hvalidate]
  constructor
  · rintro ⟨htypes, rfl⟩
    injection hsame.symm.trans htypes with hargs hreturn
    have hwide : ∀ w ∈ widths, w < 2 ^ 32 := fun w hw =>
      Nat.lt_of_le_of_lt (List.le_sum_of_mem hw) (by omega)
    refine ⟨(ofNat_injOn hwide (fun w hw => ?_) hargs).symm, ?_, rfl⟩
    · have := hwidths' w hw
      omega
    · have hnat := congrArg UInt32.toNat hreturn
      rw [toNat_ofNat (by omega), toNat_ofNat (by omega)] at hnat
      exact hnat.symm
  · rintro ⟨rfl, rfl, rfl⟩
    exact ⟨hsame, rfl⟩

theorem artifact_round_trip_bodySample :
    ∃ dense c bytes loaded, compile bodySample = .ok dense ∧ compileAt .linear bodySample = .ok c ∧
      saveEmpbc c.artifact.program = .ok bytes ∧ loadEmpbc bytes = .ok loaded ∧
      uncompact loaded = .ok dense.artifact.program ∧
      run (m := Id) clearCtx.context c [[1, 0], [1]] = .ok [1, 0, 1, 1] := by
  obtain ⟨dense, c, bytes, loaded, hdense, hc, hsave, hload, -, hback, -, -, hrun⟩ :=
    artifact_round_trip (by decide) bodySample (by decide) .linear (by decide)
  exact ⟨dense, c, bytes, loaded, hdense, hc, hsave, hload, hback, hrun clearCtx [[1, 0], [1]] rfl⟩

end EmpTool.Frontend
