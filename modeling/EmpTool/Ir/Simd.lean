import EmpTool.Ir.Scheduling
import EmpTool.Runtime.Bits

namespace EmpTool.Ir

open EmpTool.Crypto EmpTool.Bits StraightLine

instance : Inhabited Block := ⟨zeroBlock⟩

section Model

variable (avx2 debug : Bool) (stale : Nat → Nat → Block) (ctx : BulkBooleanContext Id Block)
  (p : BooleanProgram) (plan : ScheduledPlan) (inp : Nat → Bool) (N : Nat)

def packInputs (ni base lanes : Nat) : Except String (List Block) :=
  (List.range ni).mapM fun i =>
    boolToBlock avx2 (stale base i) fun t => decide (t < lanes) && inp ((base + t) * ni + i)

def unpackLanes (no base lanes o : Nat) (bits : Nat → Bool) (out : Nat → Bool) : Nat → Bool :=
  (List.range lanes).foldl (fun out t => Function.update out ((base + t) * no + o) (bits t)) out

def unpackOutputs (no base lanes : Nat) (outw : List Block) (out : Nat → Bool) :
    Except String (Nat → Bool) :=
  (List.range no).foldlM (fun out o => do
    let bits ← bitsToBools (fun _ => false) (blockBytes (outw.getD o default)) 128
    pure (unpackLanes no base lanes o bits out)) out

def simdBatch (s : (Nat → Bool) × ProgramWorkspace Block) (base : Nat) :
    Except String ((Nat → Bool) × ProgramWorkspace Block) := do
  let ni := p.numInputs.toNat
  let no := (UInt32.ofNat p.outputs.length).toNat
  let lanes := min 128 (N - base)
  let inbuf ← packInputs avx2 stale inp ni base lanes
  let (outw, ws) ← scheduledExecuteProgramIn (m := Id) ctx debug p plan inbuf s.2
  let out ← unpackOutputs no base lanes outw s.1
  pure (out, ws)

-- the last `base += 128` steps to `N` or past it
def batchBases : Except String (List Nat) := do
  let batches := (N + 127) / 128
  expecting (128 * batches < 2 ^ 63) "signed int overflow"
  pure ((List.range batches).map (128 * ·))

def simdExecuteProgram (out : Nat → Bool) (ws : ProgramWorkspace Block) :
    Except String ((Nat → Bool) × ProgramWorkspace Block) := do
  let bases ← batchBases N
  bases.foldlM (simdBatch avx2 debug stale ctx p plan inp N) (out, ws)

end Model

structure GateOps.Hom {W W' : Type} (ops : GateOps W) (ops' : GateOps W') (φ : W → W') : Prop where
  publicBit : ∀ v, φ (ops.publicBit v) = ops'.publicBit v
  andGate : ∀ a b, φ (ops.andGate a b) = ops'.andGate (φ a) (φ b)
  xorGate : ∀ a b, φ (ops.xorGate a b) = ops'.xorGate (φ a) (φ b)
  notGate : ∀ a, φ (ops.notGate a) = ops'.notGate (φ a)

namespace GateOps.Hom

variable {W W' : Type} {ops : GateOps W} {ops' : GateOps W'} {φ : W → W'} (h : ops.Hom ops' φ)

include h

theorem value (g : Gate) (e : UInt32 → W) :
    φ ((gateMachine ops).value g e) = (gateMachine ops').value g (φ ∘ e) := by
  rcases g with ⟨in0, in1, out, op⟩
  cases op with
  | and => exact h.andGate _ _
  | xor => exact h.xorGate _ _
  | not => exact h.notGate _
  | const0 => exact h.publicBit false
  | const1 => exact h.publicBit true

theorem run (gs : List Gate) (e : UInt32 → W) :
    φ ∘ (gateMachine ops).run gs e = (gateMachine ops').run gs (φ ∘ e) := by
  induction gs generalizing e with
  | nil => rfl
  | cons g gs ih =>
    have hexec : φ ∘ (gateMachine ops).exec e g = (gateMachine ops').exec (φ ∘ e) g := by
      funext w
      by_cases hw : w = g.out
      · subst hw
        exact (congrArg φ ((gateMachine ops).exec_out e g)).trans ((h.value g e).trans
          ((gateMachine ops').exec_out (φ ∘ e) g).symm)
      · rw [Function.comp_apply, (gateMachine ops).exec_of_ne hw, (gateMachine ops').exec_of_ne hw]
        rfl
    rw [Machine.run_cons, ih, hexec, Machine.run_cons]

theorem evaluate [Inhabited W] [Inhabited W'] (hdef : φ default = default) (p : BooleanProgram)
    (inputs : List W) :
    (p.evaluate ops inputs).map φ = p.evaluate ops' (inputs.map φ) := by
  have henv : φ ∘ inputEnv inputs = inputEnv (inputs.map φ) := by
    funext w
    simp only [inputEnv, Function.comp_apply, List.getD_eq_getElem?_getD, List.getElem?_map]
    cases inputs[w.toNat]? with
    | none => exact hdef
    | some v => rfl
  rw [BooleanProgram.evaluate, List.map_map, h.run, henv, BooleanProgram.evaluate]

end GateOps.Hom

theorem mapM_ok {α β : Type} {f : α → Except String β} {P : α → β → Prop} {xs : List α}
    (h : ∀ x ∈ xs, ∃ y, f x = .ok y ∧ P x y) :
    ∃ ys, xs.mapM f = .ok ys ∧ List.Forall₂ P xs ys := by
  induction xs with
  | nil => exact ⟨[], rfl, .nil⟩
  | cons x xs ih =>
    obtain ⟨y, hy, hP⟩ := h x List.mem_cons_self
    obtain ⟨ys, hys, hPs⟩ := ih fun z hz => h z (List.mem_cons_of_mem x hz)
    refine ⟨y :: ys, ?_, .cons hP hPs⟩
    rw [List.mapM_cons, hy, hys]
    rfl

section Loops

theorem packInputs_ok (avx2 : Bool) (stale : Nat → Nat → Block) (inp : Nat → Bool)
    (ni base : Nat) {lanes : Nat} (hl : lanes ≤ 128) :
    ∃ inbuf, packInputs avx2 stale inp ni base lanes = .ok inbuf ∧ inbuf.length = ni ∧
      ∀ t < lanes, inbuf.map (lane · t) = (List.range ni).map fun i => inp ((base + t) * ni + i) := by
  obtain ⟨inbuf, hok, hall⟩ := mapM_ok
    fun i (_ : i ∈ List.range ni) => boolToBlock_ok avx2 (stale base i)
      fun t => decide (t < lanes) && inp ((base + t) * ni + i)
  refine ⟨inbuf, hok, by rw [← hall.length_eq, List.length_range], fun t ht => ?_⟩
  have heq : List.Forall₂ (· = ·) ((List.range ni).map fun i => inp ((base + t) * ni + i))
      (inbuf.map (lane · t)) := by
    rw [List.forall₂_map_left_iff, List.forall₂_map_right_iff]
    refine hall.imp fun i b hb => ?_
    rw [hb t (by omega), decide_eq_true ht, Bool.true_and]
  rw [List.forall₂_eq_eq_eq] at heq
  exact heq.symm

theorem unpackLanes_apply {no o : Nat} (ho : o < no) (base lanes : Nat) (bits out : Nat → Bool)
    (a : Nat) :
    unpackLanes no base lanes o bits out a =
      if (base * no ≤ a ∧ a < (base + lanes) * no) ∧ a % no = o then bits (a / no - base)
      else out a := by
  have hpos : 0 < no := by omega
  have at_index (t : Nat) : a = (base + t) * no + o ↔ a / no = base + t ∧ a % no = o := by
    constructor
    · rintro rfl
      exact ⟨Memory.stride_div _ ho, Memory.stride_mod _ ho⟩
    · rintro ⟨hd, hm⟩
      rw [← hd, ← hm, Nat.mul_comm, Nat.div_add_mod]
  simp only [← Nat.le_div_iff_mul_le hpos, ← Nat.div_lt_iff_lt_mul hpos]
  induction lanes with
  | zero => exact (if_neg (by omega)).symm
  | succ lanes ih =>
    rw [unpackLanes, List.range_succ, List.foldl_append, ← unpackLanes]
    simp only [List.foldl_cons, List.foldl_nil]
    rw [Function.update_apply, ih]
    by_cases hat : a = (base + lanes) * no + o
    · obtain ⟨hd, hm⟩ := (at_index lanes).mp hat
      rw [if_pos hat, if_pos (by omega), hd, Nat.add_sub_cancel_left]
    · rw [if_neg hat]
      rw [at_index] at hat
      by_cases hin : (base ≤ a / no ∧ a / no < base + lanes) ∧ a % no = o
      · rw [if_pos hin, if_pos (by omega)]
      · rw [if_neg hin, if_neg (by omega)]

theorem unpackOutputs_upto {no base lanes : Nat} (hl : lanes ≤ 128) (outw : List Block)
    (out : Nat → Bool) {k : Nat} (hk : k ≤ no) :
    ∃ out', (List.range k).foldlM (fun out o => do
        let bits ← bitsToBools (fun _ => false) (blockBytes (outw.getD o default)) 128
        pure (unpackLanes no base lanes o bits out)) out = Except.ok out' ∧
      ∀ a, out' a = if (base * no ≤ a ∧ a < (base + lanes) * no) ∧ a % no < k then
        lane (outw.getD (a % no) default) (a / no - base) else out a := by
  induction k with
  | zero => exact ⟨out, rfl, fun a => (if_neg (by omega)).symm⟩
  | succ k ih =>
    obtain ⟨out₁, hrun, hout⟩ := ih (by omega)
    obtain ⟨bits, hok, hbits⟩ := bitsToBools_block (fun _ => false) (outw.getD k default)
    refine ⟨unpackLanes no base lanes k bits out₁, ?_, fun a => ?_⟩
    · rw [List.range_succ, List.foldlM_append, hrun]
      simp only [List.foldlM_cons, List.foldlM_nil, hok, bind, Except.bind, pure, Except.pure]
    · have hpos : 0 < no := by omega
      rw [unpackLanes_apply (by omega), hout]
      by_cases hin : base * no ≤ a ∧ a < (base + lanes) * no
      · have hdiv : a / no - base < 128 := by
          have := (Nat.div_lt_iff_lt_mul hpos).mpr hin.2
          omega
        by_cases hm : a % no = k
        · rw [if_pos ⟨hin, hm⟩, if_pos ⟨hin, by omega⟩, hbits _ hdiv, hm]
        · rw [if_neg fun h => hm h.2]
          by_cases hlt : a % no < k
          · rw [if_pos ⟨hin, hlt⟩, if_pos ⟨hin, by omega⟩]
          · rw [if_neg fun h => hlt h.2, if_neg fun h => by omega]
      · rw [if_neg fun h => hin h.1, if_neg fun h => hin h.1, if_neg fun h => hin h.1]

theorem unpackOutputs_ok (no base : Nat) {lanes : Nat} (hl : lanes ≤ 128) (outw : List Block)
    (out : Nat → Bool) :
    ∃ out', unpackOutputs no base lanes outw out = .ok out' ∧
      ∀ a, out' a = if base * no ≤ a ∧ a < (base + lanes) * no then
        lane (outw.getD (a % no) default) (a / no - base) else out a := by
  obtain ⟨out', hrun, hout⟩ := @unpackOutputs_upto no base lanes hl outw out no (Nat.le_refl no)
  refine ⟨out', hrun, fun a => ?_⟩
  rw [hout]
  by_cases hin : base * no ≤ a ∧ a < (base + lanes) * no
  · have hpos : 0 < no := Nat.pos_of_ne_zero fun hz => by simp [hz] at hin
    rw [if_pos ⟨hin, Nat.mod_lt a hpos⟩, if_pos hin]
  · rw [if_neg fun h => hin h.1, if_neg hin]

end Loops

def LaneWise (ops : GateOps Block) (laneOps : Nat → GateOps Bool) : Prop :=
  ∀ t < 128, ops.Hom (laneOps t) (lane · t)

def instanceInputs (p : BooleanProgram) (inp : Nat → Bool) (t : Nat) : List Bool :=
  (List.range p.numInputs.toNat).map fun i => inp (t * p.numInputs.toNat + i)

def instanceOutput (p : BooleanProgram) (laneOps : Nat → GateOps Bool) (inp : Nat → Bool)
    (t o : Nat) : Bool :=
  (p.evaluate (laneOps (t % 128)) (instanceInputs p inp t)).getD o false

section Batches

variable {p : BooleanProgram} (hv : Valid p) (hd : p.wireReuse = .none)
  (hdepth : p.andDepth < 2 ^ 31 - 1) {ops : GateOps Block} {laneOps : Nat → GateOps Bool}
  (hl : LaneWise ops laneOps) (avx2 debug : Bool) (stale : Nat → Nat → Block) (inp : Nat → Bool)

theorem lane_default (t : Nat) : lane default t = false := by
  change lane zeroBlock t = false
  rw [lane]
  split
  · exact Nat.zero_testBit t
  · exact Nat.zero_testBit _

include hl in
theorem lane_evaluate {inbuf : List Block} {t : Nat} (ht : t < 128) (o : Nat) :
    lane ((p.evaluate ops inbuf).getD o default) t =
      (p.evaluate (laneOps t) (inbuf.map (lane · t))).getD o false := by
  rw [← (hl t ht).evaluate (lane_default t) p inbuf, List.getD_eq_getElem?_getD,
    List.getD_eq_getElem?_getD, List.getElem?_map]
  cases (p.evaluate ops inbuf)[o]? with
  | none => exact lane_default t
  | some b => rfl

include hv hd hdepth hl in
theorem simdBatch_ok {N k : Nat} (hk : 128 * k < N) (out : Nat → Bool)
    (ws : ProgramWorkspace Block) :
    ∃ out' ws', simdBatch avx2 debug stale ops.bulkContext p p.levelPlan inp N (out, ws) (128 * k) =
        .ok (out', ws') ∧
      ∀ a, out' a = if 128 * k * (UInt32.ofNat p.outputs.length).toNat ≤ a ∧
          a < min (128 * k + 128) N * (UInt32.ofNat p.outputs.length).toNat then
        instanceOutput p laneOps inp (a / (UInt32.ofNat p.outputs.length).toNat)
          (a % (UInt32.ofNat p.outputs.length).toNat)
        else out a := by
  generalize hno : (UInt32.ofNat p.outputs.length).toNat = no
  have hlanes : min 128 (N - 128 * k) ≤ 128 := Nat.min_le_left _ _
  have hstop : 128 * k + min 128 (N - 128 * k) = min (128 * k + 128) N := by omega
  obtain ⟨inbuf, hpack, hlen, hbuf⟩ :=
    packInputs_ok avx2 stale inp p.numInputs.toNat (128 * k) hlanes
  obtain ⟨ws', hrun⟩ := scheduledExecute_eq hv hd hdepth ops hlen ws debug
  obtain ⟨out', hunpack, hout⟩ :=
    unpackOutputs_ok no (128 * k) hlanes (p.evaluate ops inbuf) out
  refine ⟨out', ws', ?_, fun a => ?_⟩
  · simp only [simdBatch, hpack, hrun, hno, hunpack, bind, Except.bind]
    rfl
  · rw [hout, hstop]
    split
    case isFalse => rfl
    case isTrue hin =>
      have hpos : 0 < no := Nat.pos_of_ne_zero fun hz => by simp [hz] at hin
      have hlow := (Nat.le_div_iff_mul_le hpos).mpr hin.1
      have hhigh := (Nat.div_lt_iff_lt_mul hpos).mpr hin.2
      have ht : a / no - 128 * k < min 128 (N - 128 * k) := by omega
      have hmod : a / no % 128 = a / no - 128 * k := by omega
      have hsum : 128 * k + (a / no - 128 * k) = a / no := by omega
      rw [lane_evaluate hl (by omega), hbuf _ ht, hsum, instanceOutput, hmod]
      rfl

include hv hd hdepth hl in
theorem simdBatches_ok {N B : Nat} (hB : ∀ k < B, 128 * k < N) (out : Nat → Bool)
    (ws : ProgramWorkspace Block) :
    ∃ out' ws', ((List.range B).map (128 * ·)).foldlM
        (simdBatch avx2 debug stale ops.bulkContext p p.levelPlan inp N) (out, ws) =
        .ok (out', ws') ∧
      ∀ a, out' a = if a < min (128 * B) N * (UInt32.ofNat p.outputs.length).toNat then
        instanceOutput p laneOps inp (a / (UInt32.ofNat p.outputs.length).toNat)
          (a % (UInt32.ofNat p.outputs.length).toNat)
        else out a := by
  induction B with
  | zero =>
    refine ⟨out, ws, rfl, fun a => (if_neg ?_).symm⟩
    rw [Nat.mul_zero, Nat.zero_min, Nat.zero_mul]
    exact Nat.not_lt_zero a
  | succ B ih =>
    have hbase : 128 * B < N := hB B (by omega)
    obtain ⟨out₁, ws₁, hrun, hout₁⟩ := ih fun k hk => hB k (by omega)
    obtain ⟨out', ws', hstep, hout⟩ :=
      simdBatch_ok hv hd hdepth hl avx2 debug stale inp hbase out₁ ws₁
    refine ⟨out', ws', ?_, fun a => ?_⟩
    · rw [List.range_succ, List.map_append, List.foldlM_append, hrun]
      simp only [List.map_cons, List.map_nil, List.foldlM_cons, List.foldlM_nil, hstep, bind,
        Except.bind, pure, Except.pure]
    · have hmin : min (128 * B) N = 128 * B := by omega
      have hmul : 128 * (B + 1) = 128 * B + 128 := by omega
      rw [hout, hout₁, hmin, hmul]
      generalize (UInt32.ofNat p.outputs.length).toNat = no
      have hle : 128 * B * no ≤ min (128 * B + 128) N * no := Nat.mul_le_mul_right no (by omega)
      by_cases hnow : 128 * B * no ≤ a ∧ a < min (128 * B + 128) N * no
      · rw [if_pos hnow, if_pos hnow.2]
      · rw [if_neg hnow]
        by_cases hbefore : a < 128 * B * no
        · rw [if_pos hbefore, if_pos (by omega)]
        · rw [if_neg hbefore, if_neg (by omega)]

include hv hd hdepth hl in
theorem simdExecuteProgram_ok {N : Nat} (hN : N ≤ 2 ^ 63 - 128) (out : Nat → Bool)
    (ws : ProgramWorkspace Block) :
    ∃ out' ws', simdExecuteProgram avx2 debug stale ops.bulkContext p p.levelPlan inp N out ws =
        .ok (out', ws') ∧
      ∀ a, out' a = if a < N * (UInt32.ofNat p.outputs.length).toNat then
        instanceOutput p laneOps inp (a / (UInt32.ofNat p.outputs.length).toNat)
          (a % (UInt32.ofNat p.outputs.length).toNat)
        else out a := by
  obtain ⟨out', ws', hrun, hout⟩ := simdBatches_ok hv hd hdepth hl avx2 debug stale inp
    (N := N) (B := (N + 127) / 128) (fun k hk => by omega) out ws
  have hbases : batchBases N = .ok ((List.range ((N + 127) / 128)).map (128 * ·)) :=
    bind_eq_ok.mpr ⟨(), expecting_eq_ok.mpr (by omega), rfl⟩
  have hmin : min (128 * ((N + 127) / 128)) N = N := by omega
  refine ⟨out', ws', bind_eq_ok.mpr ⟨_, hbases, hrun⟩, fun a => ?_⟩
  rw [hout, hmin]

end Batches

section Scalar

variable (p : BooleanProgram) (ops : GateOps Block) (laneOps : Nat → GateOps Bool)
  (avx2 debug : Bool) (stale : Nat → Nat → Block) (inp : Nat → Bool) (N : Nat)
  (ws : ProgramWorkspace Block)

def WritesScalarOutputs (out out' : Nat → Bool) : Prop :=
  (∀ t < N, ∃ outs : List Bool,
    executeProgram (m := Id) (laneOps (t % 128)).context p (instanceInputs p inp t) = .ok outs ∧
    ∀ o < p.outputs.length, outs[o]? = some (out' (t * p.outputs.length + o))) ∧
  ∀ a, N * p.outputs.length ≤ a → out' a = out a

def SimdMatchesScalar : Prop :=
  ∃ plan, makeScheduledPlan p = .ok plan ∧ ∀ out, ∃ out' ws',
    simdExecuteProgram avx2 debug stale ops.bulkContext p plan inp N out ws = .ok (out', ws') ∧
    WritesScalarOutputs p laneOps inp N out out'

variable {p ops laneOps N}

theorem scalar_run (hv : Valid p) (t : Nat) :
    ∃ outs : List Bool,
      executeProgram (m := Id) (laneOps (t % 128)).context p (instanceInputs p inp t) = .ok outs ∧
      ∀ o < p.outputs.length, outs[o]? = some (instanceOutput p laneOps inp t o) := by
  have hlen : (instanceInputs p inp t).length = p.numInputs.toNat := by
    rw [instanceInputs, List.length_map, List.length_range]
  refine ⟨_, executeProgram_eq hv _ hlen, fun o ho => ?_⟩
  have hout : o < (p.evaluate (laneOps (t % 128)) (instanceInputs p inp t)).length := by
    rwa [BooleanProgram.evaluate, List.length_map]
  rw [instanceOutput, List.getD_eq_getElem?_getD, List.getElem?_eq_getElem hout]
  rfl

theorem writesScalarOutputs_iff (hv : Valid p) {out out' : Nat → Bool} :
    WritesScalarOutputs p laneOps inp N out out' ↔
      ∀ a, out' a = if a < N * p.outputs.length then
        instanceOutput p laneOps inp (a / p.outputs.length) (a % p.outputs.length) else out a := by
  constructor
  · rintro ⟨hwritten, hframe⟩ a
    split
    case isFalse ha => exact hframe a (Nat.not_lt.mp ha)
    case isTrue ha =>
      have hpos : 0 < p.outputs.length := Nat.pos_of_ne_zero fun hz => by simp [hz] at ha
      have ho := Nat.mod_lt a hpos
      obtain ⟨outs, hrun, hget⟩ := hwritten _ ((Nat.div_lt_iff_lt_mul hpos).mpr ha)
      obtain ⟨outs', hrun', hget'⟩ := @scalar_run p laneOps inp hv (a / p.outputs.length)
      rw [hrun] at hrun'
      cases hrun'
      have hsame := (hget _ ho).symm.trans (hget' _ ho)
      rw [Nat.div_add_mod'] at hsame
      exact Option.some.inj hsame
  · intro h
    refine ⟨fun t ht => ?_, fun a ha => (h a).trans (if_neg (Nat.not_lt.mpr ha))⟩
    obtain ⟨outs, hrun, hget⟩ := @scalar_run p laneOps inp hv t
    refine ⟨outs, hrun, fun o ho => ?_⟩
    have hdiv := Memory.stride_div t ho
    have hmod := Memory.stride_mod t ho
    have hlt : t * p.outputs.length + o < N * p.outputs.length := by
      have hrow : (t + 1) * p.outputs.length ≤ N * p.outputs.length :=
        Nat.mul_le_mul_right _ ht
      rw [Nat.succ_mul] at hrow
      omega
    rw [hget o ho, h, if_pos hlt, hdiv, hmod]

variable (hv : Valid p) (hd : p.wireReuse = .none) (hl : LaneWise ops laneOps)

include hv hd hl

theorem SimdMatchesScalar.necessary
    (h : SimdMatchesScalar p ops laneOps avx2 debug stale inp N ws) :
    p.andDepth < 2 ^ 31 - 1 ∧ N ≤ 2 ^ 63 - 128 ∧ (N = 0 ∨ p.outputs.length < 2 ^ 32) := by
  obtain ⟨plan, hplan, hall⟩ := h
  obtain ⟨hdepth, rfl⟩ := (makeScheduledPlan_ok hv hd).mp hplan
  have hN : N ≤ 2 ^ 63 - 128 := by
    obtain ⟨out', ws', hrun, -⟩ := hall fun _ => false
    obtain ⟨bases, hbases, -⟩ := bind_eq_ok.mp hrun
    obtain ⟨_, hfits, -⟩ := bind_eq_ok.mp hbases
    have := expecting_eq_ok.mp hfits
    omega
  refine ⟨hdepth, hN, ?_⟩
  by_contra hno
  obtain ⟨hzero, hbig⟩ := not_or.mp hno
  -- the last element of the last instance lies beyond the truncated layout
  obtain ⟨out', ws', hrun, hwrites⟩ :=
    hall fun _ => !instanceOutput p laneOps inp (N - 1) (p.outputs.length - 1)
  obtain ⟨out₁, ws₁, hrun₁, hout₁⟩ := simdExecuteProgram_ok hv hd hdepth hl avx2 debug stale inp
    hN (fun _ => !instanceOutput p laneOps inp (N - 1) (p.outputs.length - 1)) ws
  rw [hrun] at hrun₁
  cases hrun₁
  obtain ⟨M, rfl⟩ := Nat.exists_eq_succ_of_ne_zero hzero
  have hdiv := @Memory.stride_div p.outputs.length (p.outputs.length - 1) M (by omega)
  have hmod := @Memory.stride_mod p.outputs.length (p.outputs.length - 1) M (by omega)
  have hinside : M * p.outputs.length + (p.outputs.length - 1) <
      (M + 1) * p.outputs.length := by
    rw [Nat.succ_mul]
    omega
  have hbeyond : ¬ M * p.outputs.length + (p.outputs.length - 1) <
      (M + 1) * (UInt32.ofNat p.outputs.length).toNat := by
    have hlt := (UInt32.ofNat p.outputs.length).toNat_lt
    have hrows : M * (UInt32.ofNat p.outputs.length).toNat ≤ M * p.outputs.length :=
      Nat.mul_le_mul_left M (by omega)
    rw [Nat.succ_mul]
    omega
  have hlast := (writesScalarOutputs_iff inp hv).mp hwrites
    (M * p.outputs.length + (p.outputs.length - 1))
  rw [if_pos hinside, hdiv, hmod, hout₁, if_neg hbeyond, Nat.succ_sub_one] at hlast
  exact Bool.not_ne_self _ hlast

theorem simdMatchesScalar_of (hdepth : p.andDepth < 2 ^ 31 - 1) (hN : N ≤ 2 ^ 63 - 128)
    (hno : N = 0 ∨ p.outputs.length < 2 ^ 32) :
    SimdMatchesScalar p ops laneOps avx2 debug stale inp N ws := by
  refine ⟨_, (makeScheduledPlan_ok hv hd).mpr ⟨hdepth, rfl⟩, fun out => ?_⟩
  obtain ⟨out', ws', hrun, hout⟩ :=
    simdExecuteProgram_ok hv hd hdepth hl avx2 debug stale inp hN out ws
  refine ⟨out', ws', hrun, (writesScalarOutputs_iff inp hv).mpr fun a => ?_⟩
  rcases hno with rfl | hno
  · simpa using hout a
  · rw [UInt32.toNat_ofNat_of_lt' hno] at hout
    exact hout a

end Scalar

theorem simd_execute_iff (p : BooleanProgram) (hv : validateProgram p = .ok ())
    (hd : p.wireReuse = .none) (ops : GateOps Block) (laneOps : Nat → GateOps Bool)
    (hl : LaneWise ops laneOps) (avx2 debug : Bool) (stale : Nat → Nat → Block) (inp : Nat → Bool)
    (N : Nat) (ws : ProgramWorkspace Block) :
    SimdMatchesScalar p ops laneOps avx2 debug stale inp N ws ↔
      AndDepthBelow p (2 ^ 31 - 1) ∧ N ≤ 2 ^ 63 - 128 ∧ (N = 0 ∨ p.outputs.length < 2 ^ 32) := by
  have valid := validateProgram_ok_iff.mp hv
  rw [andDepthBelow_iff valid hd]
  constructor
  · exact SimdMatchesScalar.necessary avx2 debug stale inp ws valid hd hl
  · rintro ⟨hdepth, hN, hno⟩
    exact simdMatchesScalar_of avx2 debug stale inp ws valid hd hl hdepth hN hno

def bitslicedClearCtx : GateOps Block where
  publicBit := selectMask
  andGate a b := a &&& b
  xorGate a b := a ^^^ b
  notGate a := a ^^^ allOneBlock

def boolOps : GateOps Bool where
  publicBit v := v
  andGate a b := a && b
  xorGate a b := a ^^ b
  notGate a := !a

theorem lane_and (a b : Block) (t : Nat) : lane (a &&& b) t = (lane a t && lane b t) := by
  change lane ⟨a.high &&& b.high, a.low &&& b.low⟩ t = _
  simp only [lane, UInt64.toNat_and, Nat.testBit_and]
  split <;> rfl

theorem lane_xor (a b : Block) (t : Nat) : lane (a ^^^ b) t = (lane a t ^^ lane b t) := by
  change lane ⟨a.high ^^^ b.high, a.low ^^^ b.low⟩ t = _
  simp only [lane, UInt64.toNat_xor, Nat.testBit_xor]
  split <;> rfl

theorem lane_allOneBlock {t : Nat} (ht : t < 128) : lane allOneBlock t = true := by
  change (if t < 64 then (2 ^ 64 - 1).testBit t else (2 ^ 64 - 1).testBit (t - 64)) = true
  rw [Nat.testBit_two_pow_sub_one, Nat.testBit_two_pow_sub_one]
  split
  case isTrue h => exact decide_eq_true h
  case isFalse h => exact decide_eq_true (by omega)

theorem bitslicedClearCtx_laneWise : LaneWise bitslicedClearCtx fun _ => boolOps := by
  intro t ht
  refine ⟨fun v => ?_, fun a b => lane_and a b t, fun a b => lane_xor a b t, fun a => ?_⟩
  · cases v with
    | false => exact lane_default t
    | true => exact lane_allOneBlock ht
  · change lane (a ^^^ allOneBlock) t = !lane a t
    rw [lane_xor, lane_allOneBlock ht, Bool.xor_true]

theorem simd_execute_iff_andChain :
    SimdMatchesScalar (andChain 2) bitslicedClearCtx (fun _ => boolOps) true true
      (fun _ _ => zeroBlock) (fun t => t % 3 = 0) 200 {} :=
  (simd_execute_iff (andChain 2) rfl rfl bitslicedClearCtx (fun _ => boolOps)
    bitslicedClearCtx_laneWise true true (fun _ _ => zeroBlock) (fun t => t % 3 = 0) 200 {}).mpr
    ⟨(andDepthBelow_iff (andChain_valid (by decide)) rfl).mpr (by decide), by decide,
      Or.inr (by decide)⟩

def manyOutputs : BooleanProgram where
  numWires := 1
  numInputs := 1
  outputs := List.replicate (2 ^ 32) 0

theorem manyOutputs_valid : Valid manyOutputs where
  inputs_le := UInt32.le_refl _
  dense_count _ := rfl
  reuse_count hr := absurd rfl hr
  canonical g hg := absurd hg List.not_mem_nil
  range g hg := absurd hg List.not_mem_nil
  well_scoped := trivial
  single _ := trivial
  outputs_defined w hw := by
    have hlt : (0 : UInt32) < manyOutputs.numInputs := by decide
    rw [List.eq_of_mem_replicate hw]
    exact Or.inl hlt

theorem simd_execute_truncates_manyOutputs :
    validateProgram manyOutputs = .ok () ∧ manyOutputs.wireReuse = .none ∧
      AndDepthBelow manyOutputs (2 ^ 31) ∧ LaneWise bitslicedClearCtx (fun _ => boolOps) ∧
      ¬ SimdMatchesScalar manyOutputs bitslicedClearCtx (fun _ => boolOps) true false
        (fun _ _ => zeroBlock) (fun _ => true) 1 {} := by
  have hdepth : manyOutputs.andDepth = 0 := rfl
  refine ⟨validateProgram_ok_iff.mpr manyOutputs_valid, rfl, ?_, bitslicedClearCtx_laneWise, ?_⟩
  · rw [andDepthBelow_iff manyOutputs_valid rfl, hdepth]
    decide
  · intro h
    obtain ⟨-, -, hno⟩ := SimdMatchesScalar.necessary true false _ _ _ manyOutputs_valid rfl
      bitslicedClearCtx_laneWise h
    have hlen : manyOutputs.outputs.length = 2 ^ 32 := List.length_replicate
    omega

end EmpTool.Ir
