import EmpTool.Ir.Execute
import EmpTool.Ir.Passes
import EmpTool.Library.Table
import Mathlib.Data.List.Nodup

namespace EmpTool.Ir

open StraightLine

def numberInputs (n : UInt32) (table : UInt32 → UInt32) : (UInt32 → UInt32) × UInt32 :=
  (List.range n.toNat).foldl (fun s i => (Function.update s.1 (UInt32.ofNat i) s.2, s.2 + 1))
    (table, 0)

theorem numberInputs_spec (n : UInt32) (table : UInt32 → UInt32) :
    (numberInputs n table).2 = n ∧
      ∀ w, (numberInputs n table).1 w = if w < n then w else table w := by
  have upto (k : Nat) (hk : k < 2 ^ 32) :
      let s := (List.range k).foldl
        (fun s i => (Function.update s.1 (UInt32.ofNat i) s.2, s.2 + 1)) (table, (0 : UInt32))
      s.2 = UInt32.ofNat k ∧ ∀ w, s.1 w = if w.toNat < k then w else table w := by
    induction k with
    | zero => simp
    | succ k ih =>
      obtain ⟨hnext, hmap⟩ := ih (by omega)
      rw [List.range_succ, List.foldl_append]
      refine ⟨by simp [hnext], fun w => ?_⟩
      have hk' : (UInt32.ofNat k).toNat = k := toNat_ofNat (by omega)
      simp only [List.foldl_cons, List.foldl_nil, hnext]
      by_cases hw : w = UInt32.ofNat k
      · subst hw; simp [hk']
      · have hne : w.toNat ≠ k := fun h => hw (by rw [← h, UInt32.ofNat_toNat])
        rw [Function.update_of_ne hw, hmap w]
        by_cases hlt : w.toNat < k
        · rw [if_pos hlt, if_pos (by omega)]
        · rw [if_neg hlt, if_neg (by omega)]
  obtain ⟨hnext, hmap⟩ := upto n.toNat n.toNat_lt
  refine ⟨by rw [numberInputs, hnext, UInt32.ofNat_toNat], fun w => ?_⟩
  simp only [numberInputs, hmap, UInt32.lt_iff_toNat_lt]

def wireIds (n : UInt32) : List UInt32 := (List.range n.toNat).map UInt32.ofNat

theorem mem_wireIds {n w : UInt32} : w ∈ wireIds n ↔ w < n := by
  simp only [wireIds, List.mem_map, List.mem_range, UInt32.lt_iff_toNat_lt]
  constructor
  · rintro ⟨i, hi, rfl⟩
    have := n.toNat_lt
    rwa [toNat_ofNat (by omega)]
  · exact fun h => ⟨w.toNat, h, UInt32.ofNat_toNat⟩

theorem nodup_wireIds (n : UInt32) : (wireIds n).Nodup := by
  refine List.Nodup.map_on ?_ List.nodup_range
  intro i hi j hj h
  have := n.toNat_lt
  simp only [List.mem_range] at hi hj
  have h := congrArg UInt32.toNat h
  rwa [toNat_ofNat (by omega), toNat_ofNat (by omega)] at h

structure CompactResult where
  prog : BooleanProgram
  nid : UInt32 → UInt32

structure Allocator where
  nid : UInt32 → UInt32
  next : UInt32
  freelist : List UInt32

def Allocator.alloc (a : Allocator) (persist : Bool) : UInt32 × Allocator :=
  match a.freelist with
  | id :: rest => if !persist then (id, { a with freelist := rest })
      else (a.next, { a with next := a.next + 1 })
  | [] => (a.next, { a with next := a.next + 1 })

def persistMask (dense : BooleanProgram) (target : WireReuse) : UInt32 → Bool :=
  let persist := Table.mark (fun _ => false) (wireIds dense.numInputs)
  let persist := Table.mark persist (dense.outputs.filter fun w => w < dense.numWires)
  if target = .linear then Table.mark persist ((dense.gates.filter Gate.isAnd).map Gate.out)
  else persist

def freesTable (dense : BooleanProgram) (lastUse : UInt32 → Int) (persist : UInt32 → Bool) :
    Nat → List UInt32 :=
  Table.group (fun w => if 0 ≤ lastUse w ∧ persist w = false then some (lastUse w).toNat else none)
    (wireIds dense.numWires)

def compactGate (persist : UInt32 → Bool) (frees : Nat → List UInt32) (gi : Nat) (g : Gate)
    (a : Allocator) : Gate × Allocator :=
  let (out, a) := a.alloc (persist g.out)
  let nid := Function.update a.nid g.out out
  (g.rename nid out,
    { a with nid := nid, freelist := (frees gi).foldl (fun fl w => nid w :: fl) a.freelist })

def compactGates (persist : UInt32 → Bool) (frees : Nat → List UInt32) :
    Nat → List Gate → Allocator → List Gate × Allocator
  | _, [], a => ([], a)
  | gi, g :: gs, a =>
      let (ng, a) := compactGate persist frees gi g a
      let (ngs, a) := compactGates persist frees (gi + 1) gs a
      (ng :: ngs, a)

def renumber (dense : BooleanProgram) (target : WireReuse) (live : LivenessStats) :
    CompactResult :=
  let persist := persistMask dense target
  let frees := freesTable dense live.lastUse persist
  let (nid, next) := numberInputs dense.numInputs fun _ => 4294967295
  let (gates, a) := compactGates persist frees 0 (dense.gates.take dense.numGate.toNat)
    ⟨nid, next, []⟩
  { prog :=
      { numWires := a.next
        numInputs := dense.numInputs
        wireReuse := target
        gates := gates
        outputs := dense.outputs.map a.nid }
    nid := a.nid }

def makeCompact (dense : BooleanProgram) (target : WireReuse := .full) :
    Except String CompactResult := do
  expecting (target ≠ .none)
    "make_compact: target must be WireReuse::Linear or WireReuse::Full"
  expecting (dense.wireReuse = .none)
    "make_compact: input must be a dense (WireReuse::None) program"
  validateProgram dense
  let live ← livenessPass dense
  let r := renumber dense target live
  validateProgram r.prog
  pure r

def uncompactGates : List Gate → (UInt32 → UInt32) → UInt32 →
    List Gate × (UInt32 → UInt32) × UInt32
  | [], cur, next => ([], cur, next)
  | g :: gs, cur, next =>
      let (ngs, cur', next') := uncompactGates gs (Function.update cur g.out next) (next + 1)
      (g.rename cur next :: ngs, cur', next')

def uncompact (src : BooleanProgram) : Except String BooleanProgram := do
  validateProgram src
  let (cur, next) := numberInputs src.numInputs fun _ => 4294967295
  let (gates, cur, next) := uncompactGates src.gates cur next
  let d : BooleanProgram :=
    { numWires := next
      numInputs := src.numInputs
      wireReuse := .none
      gates := gates
      outputs := src.outputs.map cur }
  validateProgram d
  pure d

end EmpTool.Ir
