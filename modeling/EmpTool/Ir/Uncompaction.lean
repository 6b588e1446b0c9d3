import EmpTool.Ir.Compaction
import EmpTool.Ir.Dense

namespace EmpTool.Ir

open StraightLine

theorem insert_lt_succ {n : UInt32} (h : n.toNat + 1 < 2 ^ 32) :
    insert n {w | w < n} = {w | w < n + 1} := by
  ext w
  simp only [Set.mem_insert_iff, Set.mem_ofPred_eq, UInt32.lt_iff_toNat_lt, toNat_succ h,
    ← UInt32.toNat_inj]
  omega

def OutsFrom (n : UInt32) (gs : List Gate) : Prop :=
  ∀ i g, gs[i]? = some g → g.out.toNat = n.toNat + i

instance (n : UInt32) (gs : List Gate) : Decidable (OutsFrom n gs) :=
  decidable_of_iff (∀ x ∈ gs.zipIdx, x.1.out.toNat = n.toNat + x.2)
    ⟨fun h i g hi => h (g, i) (List.mk_mem_zipIdx_iff_getElem?.mpr hi),
      fun h x hx => h x.2 x.1 (List.mem_zipIdx_iff_getElem?.mp hx)⟩

structure Uncompacted (D : Set UInt32) (next : UInt32) (gs ngs : List Gate)
    (cur' : UInt32 → UInt32) (next' : UInt32) : Prop where
  current : ∀ w ∈ gateShape.defined D gs, cur' w < next'
  next_eq : next'.toNat = next.toNat + gs.length
  length_eq : ngs.length = gs.length
  outs : OutsFrom next ngs
  canonical : ∀ g ∈ ngs, g.Canonical
  well_scoped : gateShape.Scoped {w | w < next} ngs
  fresh : gateShape.Fresh {w | w < next} ngs
  defined : gateShape.defined {w | w < next} ngs = {w | w < next'}

theorem current_step {D : Set UInt32} {cur : UInt32 → UInt32} {next : UInt32}
    (hcur : ∀ w ∈ D, cur w < next) (hroom : next.toNat + 1 < 2 ^ 32) {o : UInt32} :
    ∀ w ∈ insert o D, Function.update cur o next w < next + 1 := by
  have hlt : next < next + 1 := by
    rw [UInt32.lt_iff_toNat_lt, toNat_succ hroom]
    omega
  intro w hw
  by_cases he : w = o
  · rw [he, Function.update_self]
    exact hlt
  · rw [Function.update_of_ne he]
    exact UInt32.lt_trans (hcur w (hw.resolve_left he)) hlt

theorem uncompactGates_spec (gs : List Gate) {D : Set UInt32} {cur : UInt32 → UInt32}
    {next : UInt32} (hs : gateShape.Scoped D gs) (hcur : ∀ w ∈ D, cur w < next)
    (hroom : next.toNat + gs.length < 2 ^ 32) :
    Uncompacted D next gs (uncompactGates gs cur next).1 (uncompactGates gs cur next).2.1
      (uncompactGates gs cur next).2.2 := by
  induction gs generalizing D cur next with
  | nil =>
    exact ⟨by simpa [uncompactGates] using hcur, rfl, rfl, by simp [uncompactGates, OutsFrom],
      by simp [uncompactGates], trivial, trivial, Shape.defined_nil _ _⟩
  | cons g gs ih =>
    simp only [List.length_cons] at hroom
    have hnext : (next + 1).toNat = next.toNat + 1 := toNat_succ (by omega)
    obtain ⟨h1, h2, h3, h4, h5, h6, h7, h8⟩ := ih hs.2 (current_step hcur (by omega)) (by omega)
    rw [← insert_lt_succ (by omega)] at h6 h7 h8
    refine ⟨?_, ?_, congrArg (· + 1) h3, ?_, ?_, ⟨?_, h6⟩, ⟨UInt32.lt_irrefl _, h7⟩, ?_⟩
    · rw [Shape.defined_cons]
      exact h1
    · rw [List.length_cons]
      exact h2.trans (by omega)
    · intro i ng hi
      cases i with
      | zero =>
        cases hi
        rfl
      | succ i =>
        have := h4 i ng hi
        omega
    · exact List.forall_mem_cons.mpr ⟨Gate.rename_canonical _ _ _, h5⟩
    · intro w hw
      rw [gateShape_reads, Gate.rename_reads] at hw
      obtain ⟨v, hv, rfl⟩ := List.mem_map.mp hw
      exact hcur v (hs.1 v hv)
    · change gateShape.defined _ (g.rename cur next :: _) = _
      rw [Shape.defined_cons]
      exact h8

section Runs

variable {m : Type → Type} [Monad m] [LawfulMonad m] {Wire : Type}
  (ctx : BooleanContext m Wire)

theorem uncompactGates_run (gs : List Gate) {D : Set UInt32} {cur : UInt32 → UInt32}
    {next : UInt32} (hs : gateShape.Scoped D gs) (hcur : ∀ w ∈ D, cur w < next)
    (hroom : next.toNat + gs.length < 2 ^ 32) {e e' : UInt32 → Wire} (he : Agrees D cur e e')
    {outs : List UInt32} (ho : ∀ w ∈ outs, w ∈ gateShape.defined D gs) :
    (fun a => (outs.map (uncompactGates gs cur next).2.1).map a) <$>
        ctx.runGates (uncompactGates gs cur next).1 e' =
      (fun a => outs.map a) <$> ctx.runGates gs e := by
  induction gs generalizing D cur next e e' with
  | nil =>
    simp only [uncompactGates, BooleanContext.runGates, map_pure, List.map_map]
    have hmap : outs.map (e' ∘ cur) = outs.map e :=
      List.map_congr_left fun w hw => he w (by simpa using ho w hw)
    rw [hmap]
  | cons g gs ih =>
    simp only [List.length_cons] at hroom
    have hnext : (next + 1).toNat = next.toNat + 1 := toNat_succ (by omega)
    have step (v : Wire) : Agrees (insert g.out D) (Function.update cur g.out next)
        (Function.update e g.out v) (Function.update e' next v) := by
      intro w hw
      by_cases hg : w = g.out
      · rw [hg, Function.update_self, Function.update_self, Function.update_self]
      · have hD := hw.resolve_left hg
        rw [Function.update_of_ne hg, Function.update_of_ne hg,
          Function.update_of_ne (UInt32.ne_of_lt (hcur w hD)), he w hD]
    have hvalue : ctx.gate (g.rename cur next) e' = ctx.gate g e := by
      rw [ctx.gate_rename]
      exact ctx.gate_congr fun w hw => he w (hs.1 w hw)
    simp only [uncompactGates, BooleanContext.runGates, Gate.rename_out, map_bind, hvalue]
    refine bind_congr fun v => ih hs.2 ?_ (by omega) (step v) ?_
    · exact current_step hcur (by omega)
    · rwa [Shape.defined_cons] at ho

variable [Inhabited Wire]

theorem executeProgram_run {p : BooleanProgram} (hv : Valid p) {inputs : List Wire}
    (hin : inputs.length = p.numInputs.toNat) :
    executeProgram ctx p inputs =
      .ok ((fun e => p.outputs.map e) <$> ctx.runGates p.gates (inputEnv inputs)) := by
  obtain ⟨run, hrun, hobs⟩ := execute_observed ctx hv hin {}
  have hout := congrArg (Prod.fst <$> ·) hobs
  simp only [Functor.map_map] at hout
  simp only [executeProgram, executeProgramIn, hrun, bind, Except.bind, pure, Except.pure,
    Functor.map_map, hout]

omit [LawfulMonad m] in
theorem executeProgram_length (p : BooleanProgram) {inputs : List Wire}
    (hin : inputs.length ≠ p.numInputs.toNat) :
    executeProgram ctx p inputs = .error "execute_program: input count != program num_inputs" := by
  simp only [executeProgram, executeProgramIn, Circuit.executeProgram, expecting, if_neg hin, bind,
    Except.bind]

end Runs

theorem numberInputs_start (n : UInt32) :
    ∃ cur, numberInputs n (fun _ => 4294967295) = (cur, n) ∧ ∀ w, w < n → cur w = w := by
  obtain ⟨hnext, hcur⟩ := numberInputs_spec n fun _ => 4294967295
  exact ⟨_, Prod.ext rfl hnext, fun w hw => (hcur w).trans (if_pos hw)⟩

theorem uncompact_spec {src : BooleanProgram} (hv : Valid src)
    (hroom : src.numInputs.toNat + src.gates.length < 2 ^ 32) :
    ∃ d, uncompact src = .ok d ∧ Valid d ∧ d.wireReuse = .none ∧ d.numInputs = src.numInputs ∧
      d.gates.length = src.gates.length ∧
      OutsFrom src.numInputs d.gates ∧
      ∀ {m : Type → Type} [Monad m] [LawfulMonad m] {Wire : Type} [Inhabited Wire]
        (ctx : BooleanContext m Wire) (inputs : List Wire),
        executeProgram ctx d inputs = executeProgram ctx src inputs := by
  obtain ⟨cur, hnum, own⟩ := numberInputs_start src.numInputs
  have start : ∀ w ∈ src.inputs, cur w < src.numInputs := fun w hw => (own w hw).symm ▸ hw
  have spec := uncompactGates_spec src.gates hv.well_scoped start hroom
  have same {Wire : Type} (e : UInt32 → Wire) : Agrees src.inputs cur e e :=
    fun w hw => congrArg e (own w hw)
  have run {m : Type → Type} [Monad m] [LawfulMonad m] {Wire : Type} [Inhabited Wire]
      (ctx : BooleanContext m Wire) (inputs : List Wire) :=
    uncompactGates_run ctx src.gates hv.well_scoped start hroom (same (inputEnv inputs))
      hv.outputs_defined
  obtain ⟨ngs, cur', next', hr⟩ : ∃ ngs cur' next',
      uncompactGates src.gates cur src.numInputs = (ngs, cur', next') := ⟨_, _, _, rfl⟩
  simp only [hr] at spec run
  have dense : Dense ⟨next', src.numInputs, .none, ngs, src.outputs.map cur'⟩ :=
    ⟨rfl, spec.length_eq ▸ spec.next_eq, spec.canonical, spec.well_scoped, spec.fresh,
      spec.defined⟩
  have valid := dense.valid fun w hw => by
    obtain ⟨v, hv', rfl⟩ := List.mem_map.mp hw
    exact spec.current v (hv.outputs_defined v hv')
  refine ⟨_, ?_, valid, rfl, rfl, spec.length_eq, spec.outs, fun ctx inputs => ?_⟩
  · simp only [uncompact, validateProgram_ok_iff.mpr hv, hnum, hr, bind, Except.bind]
    rw [validateProgram_ok_iff.mpr valid]
    rfl
  · by_cases hin : inputs.length = src.numInputs.toNat
    · rw [executeProgram_run ctx valid hin, executeProgram_run ctx hv hin, run ctx inputs]
    · rw [executeProgram_length ctx src hin]
      exact executeProgram_length ctx _ hin

theorem Gate.rename_rename {g : Gate} (hc : g.Canonical) {nid cur : UInt32 → UInt32}
    (hr : ∀ w ∈ g.reads, cur (nid w) = w) (out : UInt32) :
    (g.rename nid out).rename cur g.out = g := by
  rcases g with ⟨in0, in1, o, op⟩
  cases op <;> simp_all [Gate.rename, Gate.reads, Gate.Canonical, Gate.isConst, Gate.isNot]

section Inverse

variable {n : UInt32} {persist : UInt32 → Bool} {lastUse : UInt32 → Int}
  {frees : Nat → List UInt32}
  (hp : ∀ w, w < n → persist w = true)
  (hfree : ∀ k, ∀ w ∈ frees k, lastUse w = k ∧ persist w = false)
  (hnodup : ∀ k, (frees k).Nodup)

def Numbered : UInt32 → List Gate → Prop
  | _, [] => True
  | next, g :: gs => g.out = next ∧ Numbered (next + 1) gs

def Tracked (persist : UInt32 → Bool) (lastUse : UInt32 → Int) (k : Nat) (D : Set UInt32)
    (nid cur : UInt32 → UInt32) : Prop :=
  ∀ w ∈ Live persist lastUse k D, cur (nid w) = w

-- the slot just taken holds no live wire, so every live wire is still the occupant of its slot
theorem Tracked.step {k : Nat} {D : Set UInt32} {a a' : Allocator} {cur : UInt32 → UInt32}
    (h : Tracked persist lastUse k D a.nid cur) {o out : UInt32}
    (ht : Took n persist lastUse k D a out a') :
    Tracked persist lastUse (k + 1) (insert o D) (Function.update a.nid o out)
      (Function.update cur out o) := by
  intro w hw
  by_cases hwo : w = o
  · rw [hwo, Function.update_self, Function.update_self]
  · have hlive := live_insert hwo (live_succ hw)
    rw [Function.update_of_ne hwo, Function.update_of_ne (ht.out_dead w hlive), h w hlive]

include hp hfree hnodup in
theorem uncompactGates_compactGates (gs : List Gate) {k : Nat} {D D' : Set UInt32} {a : Allocator}
    (h : Allocated n persist lastUse k D D' a) (hs : gateShape.Scoped D gs)
    (hf : gateShape.Fresh D gs) (hl : LastUse lastUse k gs)
    (hnext : a.next.toNat + gs.length < 2 ^ 32) (hc : ∀ g ∈ gs, g.Canonical) {next : UInt32}
    (hnum : Numbered next gs) {cur : UInt32 → UInt32}
    (htr : Tracked persist lastUse k D a.nid cur) :
    ∃ cur', uncompactGates (compactGates persist frees k gs a).1 cur next =
        (gs, cur', next + UInt32.ofNat gs.length) ∧
      Tracked persist lastUse (k + gs.length) (gateShape.defined D gs)
        (compactGates persist frees k gs a).2.nid cur' := by
  induction gs generalizing k D D' a next cur with
  | nil => exact ⟨cur, by simp [compactGates, uncompactGates], by simpa [compactGates] using htr⟩
  | cons g gs ih =>
    obtain ⟨rfl, hnum⟩ := hnum
    simp only [List.length_cons] at hnext
    obtain ⟨out, b, hg, hnid, ht, hb⟩ :=
      h.compactGate hp hfree hnodup hs.1 hf.1 hl.2.1 (by omega)
    have hge := ht.next_le
    simp only at hge
    have hback : (g.rename a.nid out).rename cur g.out = g :=
      Gate.rename_rename (hc g List.mem_cons_self)
        (fun w hw => htr w ⟨hs.1 w hw, Or.inr (hl.1 w hw)⟩) out
    have hstep := htr.step ht (o := g.out)
    rw [← hnid] at hstep
    obtain ⟨cur', hrest, htr'⟩ := ih hb hs.2 hf.2 hl.2.2 (by omega)
      (fun g' hg' => hc g' (List.mem_cons_of_mem g hg')) hnum hstep
    have hcons : compactGates persist frees k (g :: gs) a =
        (g.rename a.nid out :: (compactGates persist frees (k + 1) gs b).1,
          (compactGates persist frees (k + 1) gs b).2) := by
      simp only [compactGates, hg]
    refine ⟨cur', ?_, ?_⟩
    · simp only [hcons, uncompactGates, Gate.rename_out]
      rw [hback, hrest, List.length_cons, Nat.add_comm gs.length, UInt32.ofNat_add,
        ← UInt32.add_assoc]
      rfl
    · have hk : k + (g :: gs).length = k + 1 + gs.length := by
        simp only [List.length_cons]
        omega
      rw [hk, hcons, Shape.defined_cons]
      exact htr'

end Inverse

theorem numbered_of_outs {gs : List Gate} {next : UInt32} (h : OutsFrom next gs) :
    Numbered next gs := by
  induction gs generalizing next with
  | nil => trivial
  | cons g gs ih =>
    have head := h 0 g rfl
    refine ⟨UInt32.toNat_inj.mp head, ih fun i g' hi => ?_⟩
    have later : g'.out.toNat = next.toNat + (i + 1) := h (i + 1) g' hi
    have hlt := g'.out.toNat_lt
    rw [later, toNat_succ (by omega)]
    omega

theorem uncompact_makeCompact {p : BooleanProgram} (hv : Valid p) (hd : p.wireReuse = .none)
    (hnum : OutsFrom p.numInputs p.gates)
    {target : WireReuse} (ht : target ≠ .none) :
    ∃ r, makeCompact p target = .ok r ∧ uncompact r.prog = .ok p := by
  obtain ⟨r, hr, -, -, hvr, -⟩ := makeCompact_spec hv hd ht
  refine ⟨r, hr, ?_⟩
  obtain ⟨live, hlive, hlast⟩ := livenessPass_spec hv hd
  have hprog := makeCompact_eq hlive hr
  have hcount := hv.dense_count hd
  have hle := UInt32.le_iff_toNat_le.mp hv.inputs_le
  have hlt := p.numWires.toNat_lt
  obtain ⟨cur, hstart, own⟩ := numberInputs_start p.numInputs
  have hfrees := freesTable_spec p live.lastUse (persistMask p target)
  have allocated :=
    start_allocated p.numInputs (persistMask p target) live.lastUse fun _ => 4294967295
  rw [hstart] at allocated
  have tracked : Tracked (persistMask p target) live.lastUse 0 {w | w < p.numInputs} cur cur := by
    intro w hw
    have hw' : w < p.numInputs := hw.1
    rw [own w hw', own w hw']
  obtain ⟨cur', hback, htracked⟩ := uncompactGates_compactGates (persistMask_inputs p target)
    (fun k => (hfrees k).2) (fun k => (hfrees k).1) p.gates allocated hv.well_scoped (hv.single hd)
    hlast (by simp only; omega) hv.canonical (numbered_of_outs hnum) tracked
  obtain ⟨ngs, b, hc⟩ : ∃ ngs b, compactGates (persistMask p target)
      (freesTable p live.lastUse (persistMask p target)) 0 p.gates ⟨cur, p.numInputs, []⟩ =
        (ngs, b) := ⟨_, _, rfl⟩
  rw [hc] at hback htracked
  have hren : r.prog = ⟨b.next, p.numInputs, target, ngs, p.outputs.map b.nid⟩ := by
    simp only [hprog, renumber, hv.take_numGate hd, hstart, hc]
  have houts : (p.outputs.map b.nid).map cur' = p.outputs := by
    rw [List.map_map]
    refine (List.map_congr_left fun w hw => ?_).trans (List.map_id _)
    exact htracked w ⟨hv.outputs_defined w hw, Or.inl (persistMask_outputs hv target w hw)⟩
  have hwires : p.numInputs + UInt32.ofNat p.gates.length = p.numWires := by
    rw [← UInt32.toNat_inj, UInt32.toNat_add, UInt32.toNat_ofNat']
    omega
  have hp : (⟨p.numWires, p.numInputs, .none, p.gates, p.outputs⟩ : BooleanProgram) = p := by
    rw [← hd]
  simp only [uncompact, validateProgram_ok_iff.mpr hvr, bind, Except.bind]
  simp only [hren, hstart, hback, houts, hwires, hp, validateProgram_ok_iff.mpr hv]
  rfl

theorem uncompact_inverts_make_compact :
    (∀ src : BooleanProgram, validateProgram src = .ok () →
      src.wireReuse = .linear ∨ src.wireReuse = .full →
      src.numInputs.toNat + src.gates.length < 2 ^ 32 →
      ∃ d, uncompact src = .ok d ∧ d.wireReuse = .none ∧ d.gates.length = src.gates.length ∧
        OutsFrom src.numInputs d.gates ∧
        ∀ {m : Type → Type} [Monad m] [LawfulMonad m] {Wire : Type} [Inhabited Wire]
          (ctx : BooleanContext m Wire) (inputs : List Wire),
          executeProgram ctx d inputs = executeProgram ctx src inputs) ∧
    ∀ p : BooleanProgram, validateProgram p = .ok () → p.wireReuse = .none →
      OutsFrom p.numInputs p.gates → ∀ target : WireReuse, target = .linear ∨ target = .full →
      ∃ r, makeCompact p target = .ok r ∧ uncompact r.prog = .ok p := by
  refine ⟨fun src hv _ hroom => ?_, fun p hv hd hnum target ht => ?_⟩
  · obtain ⟨d, hd, -, hmode, -, hlen, houts, hrun⟩ :=
      uncompact_spec (validateProgram_ok_iff.mp hv) hroom
    exact ⟨d, hd, hmode, hlen, houts, hrun⟩
  · have hne : target ≠ .none := by rcases ht with rfl | rfl <;> simp
    exact uncompact_makeCompact (validateProgram_ok_iff.mp hv) hd hnum hne

theorem uncompact_inverts_make_compact_samples :
    (∃ d, uncompact reuseSample = .ok d ∧ d.wireReuse = .none ∧
      executeProgram (m := Id) clearCtx.context d [1, 1] =
        executeProgram clearCtx.context reuseSample [1, 1]) ∧
    ∃ r, makeCompact denseSample .full = .ok r ∧ uncompact r.prog = .ok denseSample := by
  refine ⟨?_, ?_⟩
  · obtain ⟨d, hd, hmode, -, -, hrun⟩ :=
      uncompact_inverts_make_compact.1 reuseSample (by rfl) (Or.inl rfl) (by decide)
    exact ⟨d, hd, hmode, hrun clearCtx.context [1, 1]⟩
  · exact uncompact_inverts_make_compact.2 denseSample (by rfl) rfl (by decide) .full (Or.inr rfl)

end EmpTool.Ir
