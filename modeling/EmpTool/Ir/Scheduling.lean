import EmpTool.Ir.Levels
import EmpTool.Ir.Schedule

namespace EmpTool.Ir

open StraightLine

variable {Wire : Type} [Inhabited Wire]

theorem gather_eq (s : Slots Wire) (gs : List Gate) (ws : ProgramWorkspace Wire) :
    gs.foldl (gatherAnd s) ws =
      { ws with
        ba := ws.ba ++ (gs.filter Gate.isAnd).map fun g => s.get g.in0
        bb := ws.bb ++ (gs.filter Gate.isAnd).map fun g => s.get g.in1
        bouts := ws.bouts ++ (gs.filter Gate.isAnd).map Gate.out } := by
  induction gs generalizing ws with
  | nil => simp
  | cons g gs ih =>
    rw [List.foldl_cons, ih]
    by_cases hg : g.op = .and
    · simp [gatherAnd, hg, Gate.isAnd]
    · simp [gatherAnd, hg, Gate.isAnd]

theorem get_scatter (sol : UInt32 → Wire) (os : List UInt32) (s : Slots Wire)
    (h : ∀ o ∈ os, o.toNat < s.wires.length) :
    (scatter os (os.map sol) s).wires.length = s.wires.length ∧
      ∀ w, (scatter os (os.map sol) s).get w = if w ∈ os then sol w else s.get w := by
  induction os generalizing s with
  | nil => simp [scatter]
  | cons o os ih =>
    rw [List.forall_mem_cons] at h
    obtain ⟨hlen, hget⟩ := ih (s.write o (sol o)) (by simpa using h.2)
    refine ⟨by simpa [scatter] using hlen, fun w => ?_⟩
    have hcons : (scatter (o :: os) ((o :: os).map sol) s).get w =
        if w ∈ os then sol w else (s.write o (sol o)).get w := by simpa [scatter] using hget w
    rw [hcons, Slots.get_write h.1, Function.update_apply, Table.ite_mem_cons]

theorem bucketGates_group (p : BooleanProgram) (level : UInt32 → Int) (lv : Int) :
    bucketGates p (Table.group (fun gi => some (level (p.gates.getD gi {}).out))
      (List.range p.gates.length) lv) = p.gates.filter fun g => level g.out = lv := by
  have hall : (List.range p.gates.length).map (fun gi => p.gates.getD gi {}) = p.gates := by
    refine List.ext_getElem (by simp) fun i h _ => ?_
    have hi : i < p.gates.length := by simpa using h
    simp [hi]
  rw [bucketGates, Table.group_apply]
  conv_rhs => rw [← hall, List.filter_map]
  congr 1
  apply List.filter_congr
  simp

def andBatch (p : BooleanProgram) (bucket : List Nat) : List Nat :=
  bucket.filter fun gi => (p.gates.getD gi {}).isAnd

def nonemptyBatches (p : BooleanProgram) (buckets : List (List Nat)) : List (List Nat) :=
  (buckets.map (andBatch p)).filter fun batch => !batch.isEmpty

def batchOperands (p : BooleanProgram) (env : UInt32 → Wire) (batch : List Nat) :
    List Wire × List Wire :=
  ((bucketGates p batch).map fun g => env g.in0, (bucketGates p batch).map fun g => env g.in1)

theorem filter_isAnd_bucketGates (p : BooleanProgram) (bucket : List Nat) :
    (bucketGates p bucket).filter Gate.isAnd = bucketGates p (andBatch p bucket) := by
  rw [bucketGates, List.filter_map]
  rfl

section Correct

variable (ops : GateOps Wire) {p : BooleanProgram} {sol : UInt32 → Wire} {level : UInt32 → Nat}
  (hsol : (gateMachine ops).Solves sol p.gates) (hlevel : levelMachine.Solves level p.gates)

theorem get_write_correct (sol : UInt32 → Wire) {s : Slots Wire} {o : UInt32} (ho : o.toNat < s.wires.length)
    (w : UInt32) : (s.write o (sol o)).get w = if w = o then sol w else s.get w := by
  rw [Slots.get_write ho, Function.update_apply]
  split <;> simp_all

theorem replayLinear_cons (g : Gate) (gs : List Gate) (s : Slots Wire) :
    replayLinear (m := Id) ops.bulkContext (g :: gs) s =
      replayLinear (m := Id) ops.bulkContext gs
        (if g.isAnd then s else s.write g.out ((gateMachine ops).value g s.get)) := by
  rcases g with ⟨in0, in1, out, op⟩
  cases op <;> rfl

include hsol hlevel in
theorem replayLinear_correct (lv : Nat) (gs : List Gate) {D : Set UInt32} {s : Slots Wire}
    (hscope : gateShape.Scoped D gs) (hmem : ∀ g ∈ gs, g ∈ p.gates)
    (hlen : ∀ g ∈ gs, g.out.toNat < s.wires.length)
    (hD : ∀ w ∈ D, level w ≤ lv → s.get w = sol w)
    (hlow : ∀ g ∈ gs, level g.out < lv → s.get g.out = sol g.out)
    (hand : ∀ g ∈ gs, g.isAnd → level g.out = lv → s.get g.out = sol g.out) :
    ∃ s', replayLinear (m := Id) ops.bulkContext (gs.filter fun g => level g.out = lv) s = s' ∧
      s'.wires.length = s.wires.length ∧ (∀ w, s.get w = sol w → s'.get w = sol w) ∧
      ∀ w ∈ gateShape.defined D gs, level w ≤ lv → s'.get w = sol w := by
  induction gs generalizing D s with
  | nil => exact ⟨s, rfl, rfl, fun w h => h, by simpa using hD⟩
  | cons g gs ih =>
    rw [List.forall_mem_cons] at hmem hlen hlow hand
    rw [Shape.defined_cons]
    have skip (hout : level g.out ≤ lv → s.get g.out = sol g.out) :
        ∃ s', replayLinear (m := Id) ops.bulkContext (gs.filter fun g => level g.out = lv) s = s' ∧
          s'.wires.length = s.wires.length ∧ (∀ w, s.get w = sol w → s'.get w = sol w) ∧
          ∀ w ∈ gateShape.defined (insert g.out D) gs, level w ≤ lv → s'.get w = sol w := by
      refine ih hscope.2 hmem.2 hlen.2 ?_ hlow.2 hand.2
      rintro w (rfl | hw) hle
      · exact hout hle
      · exact hD w hw hle
    cases Nat.decEq (level g.out) lv with
    | isFalse hne =>
      rw [List.filter_cons_of_neg (by simpa using hne)]
      exact skip fun hle => hlow.1 (by omega)
    | isTrue heq =>
      rw [List.filter_cons_of_pos (by simpa using heq), replayLinear_cons]
      cases hg : g.isAnd with
      | true => exact skip fun _ => hand.1 hg heq
      | false =>
        have hout : level g.out = gateLevel g level := hlevel g hmem.1
        have hval : (gateMachine ops).value g s.get = sol g.out := by
          rw [← gateShape_out, ← gateMachine_toShape ops, hsol g hmem.1]
          refine (gateMachine ops).value_congr fun w hw => hD w (hscope.1 w hw) ?_
          have hle := level_read_le hw level
          omega
        simp only [Bool.false_eq_true, if_false, hval]
        have write := get_write_correct sol hlen.1
        have kept (w : UInt32) (hw : s.get w = sol w) : (s.write g.out (sol g.out)).get w = sol w := by
          rw [write w]
          split
          · rfl
          · exact hw
        have grown : ∀ w ∈ insert g.out D, level w ≤ lv →
            (s.write g.out (sol g.out)).get w = sol w := by
          rintro w (rfl | hw) hle
          · rw [write, if_pos rfl]
          · exact kept w (hD w hw hle)
        obtain ⟨s', hrun, hl, hkeep, hdef⟩ := ih hscope.2 hmem.2 (by simpa using hlen.2) grown
          (fun g' hg' h => kept _ (hlow.2 g' hg' h))
          (fun g' hg' ha h => kept _ (hand.2 g' hg' ha h))
        exact ⟨s', hrun, by simpa using hl, fun w hw => hkeep w (kept w hw), hdef⟩

include hlevel in
theorem level_read_lt {g : Gate} (hg : g ∈ p.gates) (ha : g.isAnd) {w : UInt32}
    (hw : w ∈ g.reads) : level w < level g.out := by
  have hout : level g.out = gateLevel g level := hlevel g hg
  have hle := level_read_le hw level
  rw [if_pos ha] at hle
  omega

theorem mem_andBatch {lv : Nat} {bucket : List Nat}
    (hb : bucketGates p bucket = p.gates.filter fun g => level g.out = lv) {g : Gate} :
    g ∈ (bucketGates p bucket).filter Gate.isAnd ↔ g ∈ p.gates ∧ g.isAnd ∧ level g.out = lv := by
  rw [hb]
  simp only [List.mem_filter, decide_eq_true_eq]
  exact ⟨fun h => ⟨h.1.1, h.2, h.1.2⟩, fun h => ⟨⟨h.1, h.2.2⟩, h.2.1⟩⟩

include hsol hlevel in
theorem andBatch_values {lv : Nat} {s : Slots Wire} {batch : List Gate}
    (hbatch : ∀ g ∈ batch, g ∈ p.gates ∧ g.isAnd ∧ level g.out = lv)
    (hreads : ∀ g ∈ p.gates, ∀ w ∈ g.reads, level w < lv → s.get w = sol w) :
    List.zipWith ops.andGate (batch.map fun g => s.get g.in0) (batch.map fun g => s.get g.in1) =
      (batch.map Gate.out).map sol := by
  rw [List.zipWith_map, List.zipWith_self, List.map_map]
  refine List.map_congr_left fun g hg => ?_
  obtain ⟨hg, ha, hl⟩ := hbatch g hg
  have hread (w : UInt32) (hw : w ∈ g.reads) : s.get w = sol w :=
    hreads g hg w hw (hl ▸ level_read_lt hlevel hg ha hw)
  rw [Function.comp_apply, ← gateShape_out, ← gateMachine_toShape ops, hsol g hg]
  rw [← (gateMachine ops).value_congr hread]
  obtain ⟨in0, in1, out, op⟩ := g
  cases op with
  | and => rfl
  | xor | not | const0 | const1 => cases ha

include hsol hlevel in
theorem replayAnds_correct {lv : Nat} {bucket : List Nat} (r : Replay Wire)
    (hb : bucketGates p bucket = p.gates.filter fun g => level g.out = lv)
    (hlen : ∀ g ∈ p.gates, g.out.toNat < r.slots.wires.length)
    (hreads : ∀ g ∈ p.gates, ∀ w ∈ g.reads, level w < lv → r.slots.get w = sol w) :
    ∃ r', replayAnds (m := Id) ops.bulkContext p bucket r = r' ∧
      r'.slots.wires.length = r.slots.wires.length ∧
      (∀ w, r.slots.get w = sol w → r'.slots.get w = sol w) ∧
      ∀ g ∈ p.gates, g.isAnd → level g.out = lv → r'.slots.get g.out = sol g.out := by
  have hvalues := andBatch_values ops hsol hlevel (fun g => (mem_andBatch hb).mp) hreads
  obtain ⟨hsl, hsget⟩ := get_scatter sol
    (((bucketGates p bucket).filter Gate.isAnd).map Gate.out) r.slots (by
      intro o ho
      obtain ⟨g, hg, rfl⟩ := List.mem_map.mp ho
      exact hlen g ((mem_andBatch hb).mp hg).1)
  have hin (g : Gate) (hg : g ∈ p.gates) (ha : g.isAnd) (hl : level g.out = lv) :
      g ∈ (bucketGates p bucket).filter Gate.isAnd := (mem_andBatch hb).mpr ⟨hg, ha, hl⟩
  simp only [replayAnds, gather_eq, List.nil_append]
  cases hnil : (bucketGates p bucket).filter Gate.isAnd with
  | nil =>
    refine ⟨_, rfl, rfl, fun w hw => hw, fun g hg ha hl => ?_⟩
    have hg := hin g hg ha hl
    rw [hnil] at hg
    cases hg
  | cons a as =>
    rw [hnil] at hvalues hsl hsget hin
    have hrun : (ops.bulkContext (m := Id)).andMany ((a :: as).map fun g => r.slots.get g.in0)
        ((a :: as).map fun g => r.slots.get g.in1) = ((a :: as).map Gate.out).map sol := hvalues
    simp only [hrun]
    refine ⟨_, rfl, hsl, fun w hw => ?_, fun g hg ha hl => ?_⟩
    · refine (hsget w).trans ?_
      split
      · rfl
      · exact hw
    · refine (hsget g.out).trans ?_
      rw [if_pos (List.mem_map_of_mem (hin g hg ha hl))]

variable (p sol level) in
structure ReadyBelow (lv : Nat) (r : Replay Wire) : Prop where
  length : ∀ g ∈ p.gates, g.out.toNat < r.slots.wires.length
  inputs : ∀ w ∈ p.inputs, r.slots.get w = sol w
  below : ∀ w ∈ gateShape.defined p.inputs p.gates, level w < lv → r.slots.get w = sol w

theorem count_andBatch {lv gi : Nat} :
    (andBatch p (Table.group (fun gi => some (level (p.gates.getD gi {}).out : Int))
        (List.range p.gates.length) lv)).count gi =
      if p.gates[gi]?.any fun g => g.isAnd && level g.out = lv then 1 else 0 := by
  rw [andBatch, Table.group_apply, List.filter_filter, List.Nodup.count (List.Pairwise.filter _ List.nodup_range)]
  cases hg : p.gates[gi]? with
  | none =>
    rw [List.getElem?_eq_none_iff] at hg
    simp [hg]
  | some g =>
    obtain ⟨hlt, hgi⟩ := List.getElem?_eq_some_iff.mp hg
    simp [hlt, hgi]

theorem count_nonemptyBatches (n gi : Nat) :
    (nonemptyBatches p ((List.range n).map fun lv : Nat =>
      Table.group (fun gi => some (level (p.gates.getD gi {}).out : Int))
        (List.range p.gates.length) lv)).flatten.count gi =
      if p.gates[gi]?.any fun g => g.isAnd && level g.out < n then 1 else 0 := by
  rw [nonemptyBatches, List.flatten_filter_not_isEmpty]
  induction n with
  | zero => cases p.gates[gi]? <;> simp
  | succ n ih =>
    rw [List.range_succ, List.map_append, List.map_append, List.flatten_append, List.count_append, ih]
    simp only [List.map_cons, List.map_nil, List.flatten_singleton, count_andBatch]
    cases p.gates[gi]? with
    | none => rfl
    | some g =>
      simp only [Option.any_some, Bool.and_eq_true, decide_eq_true_eq]
      cases g.isAnd with
      | false => simp
      | true =>
        simp only [true_and]
        rcases Nat.lt_trichotomy (level g.out) n with hl | hl | hl
        · rw [if_pos hl, if_neg (by omega), if_pos (by omega)]
        · rw [if_neg (by omega), if_pos hl, if_pos (by omega)]
        · rw [if_neg (by omega), if_neg (by omega), if_neg (by omega)]

section Levels

variable {plan : ScheduledPlan}
  (hplan : plan.bucket = Table.group (fun gi => some (level (p.gates.getD gi {}).out : Int))
    (List.range p.gates.length))

include hplan in
theorem bucketGates_plan (lv : Nat) :
    bucketGates p (plan.bucket lv) = p.gates.filter fun g => level g.out = lv := by
  rw [hplan, bucketGates_group p (fun w => (level w : Int))]
  exact List.filter_congr fun g _ => decide_eq_decide.mpr Int.ofNat_inj

include hsol hlevel hplan in
theorem replayLevel_ready (hv : Valid p) {lv : Nat} {r : Replay Wire}
    (h : ReadyBelow p sol level lv r) :
    ReadyBelow p sol level (lv + 1) (replayLevel (m := Id) ops.bulkContext p plan r lv) := by
  have hb := bucketGates_plan hplan lv
  obtain ⟨r', hr', hl1, hkeep1, hands⟩ := replayAnds_correct ops hsol hlevel r hb h.length
    fun g hg w hw => h.below w (hv.well_scoped.reads_mem hg hw)
  obtain ⟨s', hs', hl2, hkeep2, hdef⟩ := replayLinear_correct ops hsol hlevel lv p.gates
    hv.well_scoped (fun g hg => hg) (by simpa [hl1] using h.length)
    (fun w hw _ => hkeep1 w (h.inputs w hw))
    (fun g hg hlt => hkeep1 _ (h.below _ (Or.inr (List.mem_map_of_mem hg)) hlt)) hands
  have hrun : replayLevel (m := Id) ops.bulkContext p plan r lv = { r' with slots := s' } := by
    simp only [replayLevel, hb]
    rw [hr']
    exact congrArg (fun s => ({ r' with slots := s } : Replay Wire)) hs'
  rw [hrun]
  exact ⟨by simpa [hl1, hl2] using h.length, fun w hw => hkeep2 w (hkeep1 w (h.inputs w hw)),
    fun w hw hlt => hdef w hw (by omega)⟩

include hsol hlevel hplan in
theorem replay_ready (hv : Valid p) {r : Replay Wire} (h : ReadyBelow p sol level 0 r) (n : Nat) :
    ReadyBelow p sol level n (((List.range n).map Int.ofNat).foldlM (m := Id)
      (replayLevel ops.bulkContext p plan) r) := by
  induction n with
  | zero => exact h
  | succ n ih =>
    rw [List.range_succ, List.map_append, List.foldlM_append]
    exact replayLevel_ready ops hsol hlevel hplan hv ih

section Observed

variable {m : Type → Type} [Monad m] [LawfulMonad m] (issue : List Wire × List Wire → m Unit)

theorem replayLinear_observed (gs : List Gate) (s : Slots Wire) :
    replayLinear (ops.observedContext issue) gs s =
      pure (replayLinear (m := Id) ops.bulkContext gs s) := by
  induction gs generalizing s with
  | nil => rfl
  | cons g gs ih =>
    rw [replayLinear_cons, ← ih]
    rcases g with ⟨in0, in1, out, op⟩
    cases op with
    | and => exact pure_bind _ _
    | xor | not | const0 | const1 =>
      simp only [replayLinear, GateOps.observedContext, GateOps.context, map_pure, pure_bind]
      rfl

theorem replayAnds_observed (bucket : List Nat) (r : Replay Wire) :
    replayAnds (ops.observedContext issue) p bucket r = (do
      forM ((nonemptyBatches p [bucket]).map (batchOperands p r.slots.get)) issue
      pure (replayAnds (m := Id) ops.bulkContext p bucket r)) := by
  simp only [replayAnds, gather_eq, List.nil_append, filter_isAnd_bucketGates, nonemptyBatches,
    List.map_cons, List.map_nil]
  cases hbatch : andBatch p bucket with
  | nil => exact (pure_bind () fun _ => pure _).symm
  | cons gi gis =>
    rw [List.filter_cons_of_pos rfl, List.filter_nil, List.map_cons, List.map_nil, List.forM_cons,
      List.forM_nil, bind_assoc, pure_bind]
    refine (bind_assoc _ _ _).trans (bind_congr fun _ => ?_)
    exact pure_bind _ _

include hlevel hplan in
theorem replayLevel_observed (hv : Valid p) {lv : Nat} {r : Replay Wire}
    (h : ReadyBelow p sol level lv r) :
    replayLevel (ops.observedContext issue) p plan r lv = (do
      forM ((nonemptyBatches p [plan.bucket lv]).map (batchOperands p sol)) issue
      pure (replayLevel (m := Id) ops.bulkContext p plan r lv)) := by
  have hb := bucketGates_plan hplan lv
  have hoperands : ∀ batch ∈ nonemptyBatches p [plan.bucket lv],
      batchOperands p r.slots.get batch = batchOperands p sol batch := by
    intro batch hbatch
    obtain rfl : batch = andBatch p (plan.bucket lv) := by
      simpa [nonemptyBatches] using (List.mem_filter.mp hbatch).1
    have hreads (g : Gate) (hg : g ∈ bucketGates p (andBatch p (plan.bucket lv))) :
        r.slots.get g.in0 = sol g.in0 ∧ r.slots.get g.in1 = sol g.in1 := by
      rw [← filter_isAnd_bucketGates, mem_andBatch hb] at hg
      have hread (w : UInt32) (hw : w ∈ g.reads) : r.slots.get w = sol w :=
        h.below w (hv.well_scoped.reads_mem hg.1 hw)
          (hg.2.2 ▸ level_read_lt hlevel hg.1 hg.2.1 hw)
      have hop : g.op = .and := by simpa [Gate.isAnd] using hg.2.1
      exact ⟨hread _ (by simp [Gate.reads, hop]), hread _ (by simp [Gate.reads, hop])⟩
    exact congrArg₂ Prod.mk (List.map_congr_left fun g hg => (hreads g hg).1)
      (List.map_congr_left fun g hg => (hreads g hg).2)
  simp only [replayLevel, replayAnds_observed, List.map_congr_left hoperands, replayLinear_observed,
    bind_assoc, pure_bind]
  rfl

theorem nonemptyBatches_append (buckets buckets' : List (List Nat)) :
    nonemptyBatches p (buckets ++ buckets') =
      nonemptyBatches p buckets ++ nonemptyBatches p buckets' := by
  rw [nonemptyBatches, List.map_append, List.filter_append]
  rfl

include hsol hlevel hplan in
theorem replay_observed (hv : Valid p) {r : Replay Wire} (h : ReadyBelow p sol level 0 r) (n : Nat) :
    ((List.range n).map Int.ofNat).foldlM (replayLevel (ops.observedContext issue) p plan) r = (do
      forM ((nonemptyBatches p ((List.range n).map fun lv : Nat => plan.bucket lv)).map
        (batchOperands p sol)) issue
      pure (((List.range n).map Int.ofNat).foldlM (m := Id)
        (replayLevel ops.bulkContext p plan) r)) := by
  induction n with
  | zero => exact (pure_bind () fun _ => pure r).symm
  | succ n ih =>
    have ready := replay_ready ops hsol hlevel hplan hv h n
    have hlast := replayLevel_observed ops hlevel hplan issue hv ready
    rw [List.range_succ, List.map_append, List.foldlM_append, ih, List.map_append,
      nonemptyBatches_append, List.map_append, List.forM_append]
    simp only [List.map_cons, List.map_nil, List.foldlM_cons, List.foldlM_nil, bind_assoc, pure_bind,
      bind_pure]
    rw [List.foldlM_append]
    exact bind_congr fun _ => hlast

end Observed

end Levels

end Correct

theorem forM_append_run {α : Type} (xs log : List α) :
    (forM xs fun x => (modify (· ++ [x]) : StateM (List α) Unit)).run log = ((), log ++ xs) := by
  induction xs generalizing log with
  | nil =>
    rw [List.append_nil]
    rfl
  | cons x xs ih =>
    rw [List.append_cons]
    exact ih (log ++ [x])

def BooleanProgram.levelPlan (p : BooleanProgram) : ScheduledPlan where
  bucket := Table.group (fun gi => some (p.level (p.gates.getD gi {}).out : Int))
    (List.range p.gates.length)
  depth := p.andDepth
  numInputs := p.numInputs
  numWires := p.numWires
  numGates := p.gates.length
  digest := digestProgram p

theorem makeScheduledPlan_ok {p : BooleanProgram} (hv : Valid p) (hd : p.wireReuse = .none)
    {plan : ScheduledPlan} :
    makeScheduledPlan p = .ok plan ↔ p.andDepth < 2 ^ 31 - 1 ∧ p.levelPlan = plan := by
  simp only [makeScheduledPlan, bind_eq_ok, schedulePass_ok hv hd, pure_eq_ok]
  constructor
  · rintro ⟨_, ⟨h, rfl⟩, rfl⟩
    exact ⟨h, rfl⟩
  · rintro ⟨h, rfl⟩
    exact ⟨_, ⟨h, rfl⟩, rfl⟩

theorem start_ready {p : BooleanProgram} (hv : Valid p) {inputs : List Wire}
    (hin : inputs.length = p.numInputs.toNat) (ops : GateOps Wire) (ws : ProgramWorkspace Wire) :
    ReadyBelow p ((gateMachine ops).run p.gates (inputEnv inputs)) p.level 0
      { slots := Slots.start p inputs ws.scratch, ws } where
  length g hg :=
    Nat.lt_of_lt_of_le (UInt32.lt_iff_toNat_lt.mp (hv.range g hg).2) (Slots.start_length ws.scratch)
  inputs w hw := by
    have hkept : w ∉ p.gates.map Gate.out := by
      intro hm
      obtain ⟨g, hg, rfl⟩ := List.mem_map.mp hm
      exact UInt32.not_le.mpr hw (hv.range g hg).1
    rw [Slots.start_get hv.inputs_le hin ws.scratch w hw]
    exact ((gateMachine ops).run_frame hkept _).symm
  below w _ hlt := absurd hlt (Nat.not_lt_zero _)

section Runs

variable {p : BooleanProgram}

theorem scheduledExecute_levelPlan {m : Type → Type} [Monad m] (ctx : BulkBooleanContext m Wire)
    (hd : p.wireReuse = .none) (hdepth : p.andDepth < 2 ^ 31 - 1) {inputs : List Wire}
    (hin : inputs.length = p.numInputs.toNat) (ws : ProgramWorkspace Wire) (debug : Bool) :
    scheduledExecuteProgramIn ctx debug p p.levelPlan inputs ws =
      .ok ((fun r => (p.outputs.map r.slots.get, { r.ws with
          scratch := ⟨r.slots.wires⟩
          out := p.outputs.map r.slots.get })) <$>
        ((List.range (p.andDepth + 1)).map Int.ofNat).foldlM (replayLevel ctx p p.levelPlan)
          { slots := Slots.start p inputs ws.scratch, ws }) := by
  have hloop : levelLoop p.levelPlan.depth =
      .ok ((List.range (p.andDepth + 1)).map Int.ofNat) := by
    have hadd : addInt p.andDepth 1 = .ok ((p.andDepth : Int) + 1) :=
      addInt_ok.mpr ⟨by omega, rfl⟩
    have hstop : ((p.andDepth : Int) + 1).toNat = p.andDepth + 1 := by omega
    simp only [levelLoop, BooleanProgram.levelPlan, bind_eq_ok, pure_eq_ok]
    exact ⟨_, hadd, by rw [hstop]⟩
  simp only [scheduledExecuteProgramIn, requireDense, bind_eq_ok, expecting_eq_ok, pure_eq_ok]
  exact ⟨(), hd, (), hin, (), ⟨rfl, rfl, rfl⟩, (), Or.inr rfl, _, hloop, rfl⟩

def BooleanProgram.levelBatches (p : BooleanProgram) : List (List Nat) :=
  nonemptyBatches p ((List.range (p.andDepth + 1)).map fun lv : Nat => p.levelPlan.bucket lv)

def BooleanProgram.operands (p : BooleanProgram) (ops : GateOps Wire) (inputs : List Wire) :
    List Nat → List Wire × List Wire :=
  batchOperands p ((gateMachine ops).run p.gates (inputEnv inputs))

theorem count_levelBatches (gi : Nat) :
    p.levelBatches.flatten.count gi = if p.gates[gi]?.any Gate.isAnd then 1 else 0 := by
  refine (count_nonemptyBatches (p.andDepth + 1) gi).trans ?_
  cases p.gates[gi]? with
  | none => rfl
  | some g =>
    have hlt : p.level g.out < p.andDepth + 1 := Nat.lt_succ_of_le (level_le_andDepth p g.out)
    simp only [Option.any_some, hlt, decide_true, Bool.and_true]

variable (hv : Valid p) (hd : p.wireReuse = .none) (hdepth : p.andDepth < 2 ^ 31 - 1)
  (ops : GateOps Wire) {inputs : List Wire} (hin : inputs.length = p.numInputs.toNat)
  (ws : ProgramWorkspace Wire) (debug : Bool)

include hv hd hdepth hin

theorem scheduledExecute_eq :
    ∃ ws', scheduledExecuteProgramIn (m := Id) ops.bulkContext debug p p.levelPlan inputs ws =
      .ok (p.evaluate ops inputs, ws') := by
  have hsol := (gateMachine ops).run_solves hv.well_scoped (hv.single hd) (inputEnv inputs)
  have ready := @replay_ready _ _ ops _ _ _ hsol (hv.level_solves hd) p.levelPlan rfl hv _
    (start_ready hv hin ops ws) (p.andDepth + 1)
  refine ⟨_, (scheduledExecute_levelPlan _ hd hdepth hin ws debug).trans
    (congrArg Except.ok (Prod.ext (List.map_congr_left fun w hw => ?_) rfl))⟩
  exact ready.below w (hv.outputs_defined w hw) (Nat.lt_succ_of_le (level_le_andDepth p w))

-- every And batch is one and_many call, on the operands of its gates in the scalar run
theorem scheduledExecute_observed {m : Type → Type} [Monad m] [LawfulMonad m]
    (issue : List Wire × List Wire → m Unit) {res : List Wire × ProgramWorkspace Wire}
    (hrun : scheduledExecuteProgramIn (m := Id) ops.bulkContext debug p p.levelPlan inputs ws =
      .ok res) :
    scheduledExecuteProgramIn (ops.observedContext issue) debug p p.levelPlan inputs ws =
      .ok (do
        forM (p.levelBatches.map (p.operands ops inputs)) issue
        pure res) := by
  have hsol := (gateMachine ops).run_solves hv.well_scoped (hv.single hd) (inputEnv inputs)
  rw [scheduledExecute_levelPlan _ hd hdepth hin] at hrun
  rw [scheduledExecute_levelPlan _ hd hdepth hin, replay_observed ops hsol (hv.level_solves hd) rfl
    issue hv (start_ready hv hin ops ws), ← Except.ok.inj hrun, map_bind]
  simp only [map_pure]
  rfl

theorem scheduledExecute_logged {res : List Wire × ProgramWorkspace Wire}
    (hrun : scheduledExecuteProgramIn (m := Id) ops.bulkContext debug p p.levelPlan inputs ws =
      .ok res) :
    ∃ run, scheduledExecuteProgramIn ops.loggedContext debug p p.levelPlan inputs ws = .ok run ∧
      run.run [] = (res, p.levelBatches.map (p.operands ops inputs)) := by
  refine ⟨_, scheduledExecute_observed hv hd hdepth ops hin ws debug _ hrun, ?_⟩
  rw [StateT.run_bind, forM_append_run]
  rfl

end Runs

theorem scheduled_execute_iff_depth (p : BooleanProgram) (hv : validateProgram p = .ok ())
    (hd : p.wireReuse = .none) (ops : GateOps Wire) (inputs : List Wire)
    (hin : inputs.length = p.numInputs.toNat) (ws : ProgramWorkspace Wire) (debug : Bool) :
    (∃ plan outs ws' run, ∃ batches : List (List Nat), makeScheduledPlan p = .ok plan ∧
      scheduledExecuteProgramIn (m := Id) ops.bulkContext debug p plan inputs ws =
        .ok (outs, ws') ∧
      executeProgram (m := Id) ops.context p inputs = .ok outs ∧
      scheduledExecuteProgramIn ops.loggedContext debug p plan inputs ws = .ok run ∧
      run.run [] = ((outs, ws'), batches.map (p.operands ops inputs)) ∧
      ∀ gi, batches.flatten.count gi = if p.gates[gi]?.any Gate.isAnd then 1 else 0) ↔
    AndDepthBelow p (2 ^ 31 - 1) := by
  have valid := validateProgram_ok_iff.mp hv
  rw [andDepthBelow_iff valid hd]
  constructor
  · rintro ⟨plan, _, _, _, _, hplan, -⟩
    exact ((makeScheduledPlan_ok valid hd).mp hplan).1
  · intro hdepth
    have hplan := (makeScheduledPlan_ok valid hd).mpr ⟨hdepth, rfl⟩
    obtain ⟨ws', hrun⟩ := scheduledExecute_eq valid hd hdepth ops hin ws debug
    obtain ⟨run, hlogged, hlog⟩ := scheduledExecute_logged valid hd hdepth ops hin ws debug hrun
    exact ⟨_, _, ws', run, p.levelBatches, hplan, hrun, executeProgram_eq valid ops hin, hlogged,
      hlog, count_levelBatches⟩

def andChain (n : Nat) : BooleanProgram where
  numWires := UInt32.ofNat (n + 1)
  numInputs := 1
  gates := (List.range n).map fun i => ⟨UInt32.ofNat i, UInt32.ofNat i, UInt32.ofNat (i + 1), .and⟩
  outputs := [UInt32.ofNat n]

theorem andChain_gates_succ (n : Nat) : (andChain (n + 1)).gates = (andChain n).gates ++
    [⟨UInt32.ofNat n, UInt32.ofNat n, UInt32.ofNat (n + 1), .and⟩] := by
  simp [andChain, List.range_succ]

theorem andChain_level {n : Nat} (h : n + 1 < 2 ^ 32) (w : UInt32) :
    (andChain n).level w = if w.toNat ≤ n then w.toNat else 0 := by
  induction n generalizing w with
  | zero =>
    simp only [BooleanProgram.level, andChain, List.range_zero, List.map_nil, Machine.run_nil]
    split <;> omega
  | succ n ih =>
    have ih := fun w => ih (by omega) w
    have hn : (UInt32.ofNat n).toNat = n := toNat_ofNat (by omega)
    have hn' : (UInt32.ofNat (n + 1)).toNat = n + 1 := toNat_ofNat (by omega)
    simp only [BooleanProgram.level] at ih ⊢
    rw [andChain_gates_succ, Machine.run_append, Machine.run_cons, Machine.run_nil, exec_level,
      Function.update_apply]
    simp only [gateLevel, ih, hn, ← UInt32.toNat_inj, hn', Nat.le_refl, if_true, Nat.max_self]
    by_cases hw : w.toNat = n + 1
    · rw [if_pos hw, if_pos (by omega), hw, Nat.add_comm]
    · rw [if_neg hw]
      by_cases hle : w.toNat ≤ n
      · rw [if_pos hle, if_pos (by omega)]
      · rw [if_neg hle, if_neg (by omega)]

theorem andChain_andDepth {n : Nat} (h : n + 1 < 2 ^ 32) : (andChain n).andDepth = n := by
  apply Nat.le_antisymm
  · have hle := maxLevel_le (andChain n).gates (fun _ => Nat.zero_le 0)
    have hlen : (andChain n).gates.length = n := by simp [andChain]
    rwa [hlen, Nat.zero_add] at hle
  · have hle := level_le_andDepth (andChain n) (UInt32.ofNat n)
    rwa [andChain_level h, toNat_ofNat (by omega), if_pos (Nat.le_refl n)] at hle

theorem andChain_defined {n : Nat} (h : n + 1 < 2 ^ 32) (w : UInt32) :
    w ∈ gateShape.defined (andChain n).inputs (andChain n).gates ↔ w.toNat ≤ n := by
  have hin : w ∈ (andChain n).inputs ↔ w.toNat = 0 := by
    simp [BooleanProgram.inputs, andChain, UInt32.lt_iff_toNat_lt]
  have hmem : w ∈ (andChain n).gates.map Gate.out ↔ ∃ i < n, w = UInt32.ofNat (i + 1) := by
    simp [andChain, eq_comm]
  rw [Shape.defined, Set.mem_ofPred_eq, hin]
  change _ ∨ w ∈ (andChain n).gates.map Gate.out ↔ _
  rw [hmem]
  constructor
  · rintro (hw | ⟨i, hi, rfl⟩)
    · omega
    · rw [toNat_ofNat (by omega)]
      omega
  · intro hw
    cases hk : w.toNat with
    | zero => exact Or.inl rfl
    | succ k => exact Or.inr ⟨k, by omega, by rw [← hk, UInt32.ofNat_toNat]⟩

theorem andChain_ssa {n : Nat} (h : n + 1 < 2 ^ 32) :
    gateShape.Scoped (andChain n).inputs (andChain n).gates ∧
      gateShape.Fresh (andChain n).inputs (andChain n).gates := by
  induction n with
  | zero => exact ⟨trivial, trivial⟩
  | succ n ih =>
    have hdef := andChain_defined (n := n) (by omega)
    have ih := ih (by omega)
    have hin : (andChain (n + 1)).inputs = (andChain n).inputs := rfl
    rw [andChain_gates_succ, hin, Shape.scoped_append, Shape.fresh_append]
    refine ⟨⟨ih.1, fun w hw => ?_, trivial⟩, ih.2, ?_, trivial⟩
    · rw [hdef]
      obtain rfl : w = UInt32.ofNat n := by simpa [Gate.reads] using hw
      rw [toNat_ofNat (by omega)]
    · rw [hdef, gateShape_out, toNat_ofNat (by omega)]
      omega

theorem andChain_valid {n : Nat} (h : n + 1 < 2 ^ 32) : Valid (andChain n) where
  inputs_le := by
    rw [UInt32.le_iff_toNat_le]
    simp only [andChain]
    rw [toNat_ofNat h]
    exact Nat.succ_le_succ (Nat.zero_le n)
  dense_count _ := by
    simp only [andChain, List.length_map, List.length_range]
    rw [toNat_ofNat h]
    rfl
  reuse_count hr := absurd rfl hr
  canonical g hg := by
    obtain ⟨i, -, rfl⟩ := List.mem_map.mp hg
    trivial
  range g hg := by
    obtain ⟨i, hi, rfl⟩ := List.mem_map.mp hg
    have hi := List.mem_range.mp hi
    rw [UInt32.le_iff_toNat_le, UInt32.lt_iff_toNat_lt]
    simp only [andChain]
    rw [toNat_ofNat h, toNat_ofNat (by omega), UInt32.toNat_one]
    omega
  well_scoped := (andChain_ssa h).1
  single _ := (andChain_ssa h).2
  outputs_defined w hw := by
    obtain rfl : w = UInt32.ofNat n := by simpa [andChain] using hw
    rw [andChain_defined h, toNat_ofNat (by omega)]

theorem scheduled_execute_iff_depth_andChain :
    ∃ plan outs ws' run, ∃ batches : List (List Nat), makeScheduledPlan (andChain 2) = .ok plan ∧
      scheduledExecuteProgramIn (m := Id) clearCtx.bulkContext true (andChain 2) plan [1] {} =
        .ok (outs, ws') ∧
      executeProgram (m := Id) clearCtx.context (andChain 2) [1] = .ok outs ∧
      scheduledExecuteProgramIn clearCtx.loggedContext true (andChain 2) plan [1] {} = .ok run ∧
      run.run [] = ((outs, ws'), batches.map ((andChain 2).operands clearCtx [1])) ∧
      ∀ gi, batches.flatten.count gi = if (andChain 2).gates[gi]?.any Gate.isAnd then 1 else 0 :=
  (scheduled_execute_iff_depth (andChain 2) rfl rfl clearCtx [1] rfl {} true).mpr
    ((andDepthBelow_iff (andChain_valid (by decide)) rfl).mpr (by decide))

theorem scheduled_execute_overflows_andChain :
    validateProgram (andChain (2 ^ 31 - 1)) = .ok () ∧
      (andChain (2 ^ 31 - 1)).wireReuse = .none ∧ AndDepthBelow (andChain (2 ^ 31 - 1)) (2 ^ 31) ∧
      ∀ plan, makeScheduledPlan (andChain (2 ^ 31 - 1)) ≠ .ok plan := by
  have hvalid : Valid (andChain (2 ^ 31 - 1)) := andChain_valid (by decide)
  have hdepth : (andChain (2 ^ 31 - 1)).andDepth = 2 ^ 31 - 1 := andChain_andDepth (by decide)
  refine ⟨validateProgram_ok_iff.mpr hvalid, rfl, ?_, fun plan hplan => ?_⟩
  · rw [andDepthBelow_iff hvalid rfl, hdepth]
    decide
  · have hlt := ((makeScheduledPlan_ok hvalid rfl).mp hplan).1
    rw [hdepth] at hlt
    exact Nat.lt_irrefl _ hlt

end EmpTool.Ir
