import EmpTool.Ir.Passes

namespace EmpTool.Ir

open StraightLine

inductive AndPath (gs : List Gate) : Nat → UInt32 → Prop
  | start (w : UInt32) : AndPath gs 0 w
  | through {k : Nat} {g : Gate} {w : UInt32} (hg : g ∈ gs) (hw : w ∈ g.reads)
      (path : AndPath gs k w) : AndPath gs (if g.isAnd then k + 1 else k) g.out

def AndDepthBelow (p : BooleanProgram) (n : Nat) : Prop :=
  ∀ k w, AndPath p.gates k w → k < n

def gateLevel (g : Gate) (level : UInt32 → Nat) : Nat :=
  match g.op with
  | .const0 | .const1 => 0
  | .not => level g.in0
  | .xor => max (level g.in0) (level g.in1)
  | .and => 1 + max (level g.in0) (level g.in1)

def levelMachine : Machine Gate UInt32 Nat where
  toShape := gateShape
  value := gateLevel
  value_congr {g e e'} h := by
    rcases g with ⟨in0, in1, out, op⟩
    cases op <;> simp_all [gateLevel, Gate.reads]

@[simp] theorem levelMachine_toShape : levelMachine.toShape = gateShape := rfl

theorem exec_level (level : UInt32 → Nat) (g : Gate) :
    levelMachine.exec level g = Function.update level g.out (gateLevel g level) := rfl

def BooleanProgram.level (p : BooleanProgram) : UInt32 → Nat := levelMachine.run p.gates fun _ => 0

def maxLevel : List Gate → (UInt32 → Nat) → Nat
  | [], _ => 0
  | g :: gs, level => max (gateLevel g level) (maxLevel gs (levelMachine.exec level g))

def BooleanProgram.andDepth (p : BooleanProgram) : Nat := maxLevel p.gates fun _ => 0

theorem level_read_le {g : Gate} {w : UInt32} (hw : w ∈ g.reads) (level : UInt32 → Nat) :
    level w + (if g.isAnd then 1 else 0) ≤ gateLevel g level := by
  rcases g with ⟨in0, in1, out, op⟩
  cases op with
  | const0 | const1 => simp [Gate.reads] at hw
  | not =>
    have hw : w = in0 := by simpa [Gate.reads] using hw
    simp [gateLevel, Gate.isAnd, hw]
  | and | xor =>
    have hw : w = in0 ∨ w = in1 := by simpa [Gate.reads] using hw
    rcases hw with rfl | rfl
    · simp [gateLevel, Gate.isAnd, Nat.add_comm]
    · simp [gateLevel, Gate.isAnd, Nat.add_comm]

theorem level_attained (g : Gate) (level : UInt32 → Nat) :
    gateLevel g level = 0 ∨
      ∃ w ∈ g.reads, gateLevel g level = (if g.isAnd then level w + 1 else level w) := by
  rcases g with ⟨in0, in1, out, op⟩
  cases op with
  | const0 | const1 => exact Or.inl rfl
  | not => exact Or.inr ⟨in0, by simp [Gate.reads], by simp [gateLevel, Gate.isAnd]⟩
  | and | xor =>
    right
    rcases Nat.le_total (level in0) (level in1) with hle | hle
    · exact ⟨in1, by simp [Gate.reads], by simp [gateLevel, Gate.isAnd, hle, Nat.add_comm]⟩
    · exact ⟨in0, by simp [Gate.reads], by simp [gateLevel, Gate.isAnd, hle, Nat.add_comm]⟩

theorem andPath_le {gs : List Gate} {level : UInt32 → Nat} (h : levelMachine.Solves level gs)
    {k : Nat} {w : UInt32} (path : AndPath gs k w) : k ≤ level w := by
  induction path with
  | start w => exact Nat.zero_le _
  | @through k g w hg hw path ih =>
    have hle := level_read_le hw level
    have hout : level g.out = gateLevel g level := h g hg
    rw [hout]
    split <;> simp_all <;> omega

theorem andPath_gate {gs : List Gate} {g : Gate} (hg : g ∈ gs) {level : UInt32 → Nat}
    (h : ∀ w, AndPath gs (level w) w) : AndPath gs (gateLevel g level) g.out := by
  rcases level_attained g level with h0 | ⟨v, hv, hlv⟩
  · rw [h0]
    exact .start _
  · rw [hlv]
    exact .through hg hv (h v)

theorem andPath_exec {gs : List Gate} {g : Gate} (hg : g ∈ gs) {level : UInt32 → Nat}
    (h : ∀ w, AndPath gs (level w) w) : ∀ w, AndPath gs (levelMachine.exec level g w) w := by
  intro w
  rw [exec_level]
  cases decEq w g.out with
  | isTrue heq =>
    rw [heq, Function.update_self]
    exact andPath_gate hg h
  | isFalse hne =>
    rw [Function.update_of_ne hne]
    exact h w

theorem andPath_maxLevel {all gs : List Gate} (hsub : ∀ g ∈ gs, g ∈ all) {level : UInt32 → Nat}
    (h : ∀ w, AndPath all (level w) w) : ∃ w, AndPath all (maxLevel gs level) w := by
  induction gs generalizing level with
  | nil => exact ⟨0, .start 0⟩
  | cons g gs ih =>
    rw [List.forall_mem_cons] at hsub
    obtain ⟨w, hw⟩ := ih hsub.2 (andPath_exec hsub.1 h)
    rw [maxLevel]
    rcases Nat.le_total (gateLevel g level) (maxLevel gs (levelMachine.exec level g)) with hle | hle
    · exact ⟨w, by rwa [Nat.max_eq_right hle]⟩
    · exact ⟨g.out, by rw [Nat.max_eq_left hle]; exact andPath_gate hsub.1 h⟩

theorem run_le_maxLevel (gs : List Gate) (level : UInt32 → Nat) (w : UInt32) :
    levelMachine.run gs level w ≤ max (level w) (maxLevel gs level) := by
  induction gs generalizing level with
  | nil => exact Nat.le_max_left _ _
  | cons g gs ih =>
    have hexec : levelMachine.exec level g w ≤ max (level w) (gateLevel g level) := by
      rw [exec_level, Function.update_apply]
      split <;> omega
    have ih := ih (levelMachine.exec level g)
    rw [Machine.run_cons, maxLevel]
    omega

theorem maxLevel_le (gs : List Gate) {level : UInt32 → Nat} {b : Nat} (h : ∀ w, level w ≤ b) :
    maxLevel gs level ≤ b + gs.length := by
  induction gs generalizing level b with
  | nil => exact Nat.zero_le _
  | cons g gs ih =>
    have hg : gateLevel g level ≤ b + 1 := by
      rcases level_attained g level with h0 | ⟨w, -, hw⟩
      · omega
      · have := h w
        split at hw <;> omega
    have ih := @ih (levelMachine.exec level g) (b + 1) fun w => by
      rw [exec_level, Function.update_apply]
      have := h w
      split <;> omega
    simp only [maxLevel, List.length_cons]
    omega

theorem level_le_andDepth (p : BooleanProgram) (w : UInt32) : p.level w ≤ p.andDepth := by
  simpa [BooleanProgram.level, BooleanProgram.andDepth] using run_le_maxLevel p.gates (fun _ => 0) w

theorem Valid.level_solves {p : BooleanProgram} (hv : Valid p) (hd : p.wireReuse = .none) :
    levelMachine.Solves p.level p.gates :=
  levelMachine.run_solves hv.well_scoped (hv.single hd) _

theorem andDepthBelow_iff {p : BooleanProgram} (hv : Valid p) (hd : p.wireReuse = .none) {n : Nat} :
    AndDepthBelow p n ↔ p.andDepth < n := by
  constructor
  · intro h
    obtain ⟨w, path⟩ := andPath_maxLevel (fun g hg => hg) (fun w => AndPath.start w)
    exact h _ w path
  · intro h k w path
    calc k ≤ p.level w := andPath_le (hv.level_solves hd) path
      _ ≤ p.andDepth := level_le_andDepth p w
      _ < n := h

theorem scheduleLevel_ok {level : UInt32 → Nat} (h : ∀ w, level w < 2 ^ 31) {g : Gate} {lv : Int} :
    scheduleLevel (fun w => (level w : Int)) g = .ok lv ↔
      gateLevel g level < 2 ^ 31 ∧ (gateLevel g level : Int) = lv := by
  rcases g with ⟨in0, in1, out, op⟩
  have h0 := h in0
  have h1 := h in1
  cases op <;> simp only [scheduleLevel, gateLevel, addInt_ok, pure_eq_ok] <;> omega

theorem scheduleGates_ok (gs : List Gate) {level : UInt32 → Nat} (h : ∀ w, level w < 2 ^ 31)
    {d : Nat} (hd : d < 2 ^ 31) {r : (UInt32 → Int) × Int} :
    scheduleGates gs (fun w => (level w : Int)) d = .ok r ↔
      maxLevel gs level < 2 ^ 31 ∧
        (fun w => (levelMachine.run gs level w : Int), ((max d (maxLevel gs level) : Nat) : Int)) = r := by
  induction gs generalizing level d with
  | nil => simp [scheduleGates, maxLevel]
  | cons g gs ih =>
    simp only [scheduleGates, bind_eq_ok, scheduleLevel_ok h, maxLevel, Machine.run_cons]
    have hupd : Function.update (fun w => (level w : Int)) g.out (gateLevel g level : Int) =
        fun w => (levelMachine.exec level g w : Int) := by
      funext w
      rw [exec_level, Function.update_apply, Function.update_apply]
      split <;> rfl
    have hnext (hlv : gateLevel g level < 2 ^ 31) (w : UInt32) :
        levelMachine.exec level g w < 2 ^ 31 := by
      rw [exec_level, Function.update_apply]
      split
      · exact hlv
      · exact h w
    have hmax : max (d : Int) (gateLevel g level) = ((max d (gateLevel g level) : Nat) : Int) := by
      omega
    have hassoc : max (max d (gateLevel g level)) (maxLevel gs (levelMachine.exec level g)) =
        max d (max (gateLevel g level) (maxLevel gs (levelMachine.exec level g))) := by
      omega
    constructor
    · rintro ⟨_, ⟨hlv, rfl⟩, hrest⟩
      rw [hupd, hmax, ih (hnext hlv) (by omega), hassoc] at hrest
      exact ⟨by omega, hrest.2⟩
    · rintro ⟨hlt, hr⟩
      have hlv : gateLevel g level < 2 ^ 31 := by omega
      refine ⟨_, ⟨hlv, rfl⟩, ?_⟩
      rw [hupd, hmax, ih (hnext hlv) (by omega), hassoc]
      exact ⟨by omega, hr⟩

theorem schedulePass_ok {p : BooleanProgram} (hv : Valid p) (hd : p.wireReuse = .none)
    {s : ScheduleStats} :
    schedulePass p = .ok s ↔ p.andDepth < 2 ^ 31 - 1 ∧
      { wireLevel := fun w => (p.level w : Int)
        levels.andGateIndices := Table.group (fun gi =>
          if (p.gates.getD gi {}).isAnd then some (p.level (p.gates.getD gi {}).out : Int) else none)
          (List.range p.numGate.toNat)
        levels.depth := p.andDepth } = s := by
  have gates {r : (UInt32 → Int) × Int} : scheduleGates p.gates (fun _ => 0) 0 = .ok r ↔
      p.andDepth < 2 ^ 31 ∧ (fun w => (p.level w : Int), ((max 0 p.andDepth : Nat) : Int)) = r :=
    scheduleGates_ok p.gates (fun _ => Nat.two_pow_pos 31) (Nat.two_pow_pos 31)
  simp only [schedulePass, requireDense, hv.take_numGate hd, bind_eq_ok, expecting_eq_ok, gates,
    addInt_ok, pure_eq_ok, Nat.zero_max]
  constructor
  · rintro ⟨_, -, _, ⟨-, rfl⟩, _, ⟨h, -⟩, rfl⟩
    exact ⟨by omega, rfl⟩
  · rintro ⟨h, rfl⟩
    exact ⟨(), hd, _, ⟨by omega, rfl⟩, _, ⟨by omega, rfl⟩, rfl⟩

end EmpTool.Ir
