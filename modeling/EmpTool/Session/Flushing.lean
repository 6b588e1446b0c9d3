import EmpTool.Ir.Renumber
import EmpTool.Session.FlushPlan
import Mathlib.Data.List.Perm.Subperm

namespace EmpTool.Session

open Ir StraightLine

structure Recorded (gs : List Gate) : Prop where
  increasing : gs.Pairwise fun g h => g.out < h.out
  reads_lt : ∀ g ∈ gs, ∀ w ∈ g.reads, w < g.out
  out_lt : ∀ g ∈ gs, g.out.toNat < 2 ^ 32 - 1

def foreign (gs : List Gate) : Set UInt32 := {w | w ∉ gs.map Gate.out}

inductive Needed (gs : List Gate) (keep : List UInt32) : Gate → Prop
  | root {g : Gate} (hg : g ∈ gs) (hk : g.out ∈ keep) : Needed gs keep g
  | operand {g h : Gate} (hh : Needed gs keep h) (hg : g ∈ gs) (hr : g.out ∈ h.reads) :
      Needed gs keep g

theorem Needed.mem {gs : List Gate} {keep : List UInt32} {g : Gate} (h : Needed gs keep g) :
    g ∈ gs := by
  cases h with
  | root hg _ => exact hg
  | operand _ hg _ => exact hg

section Recorded

variable {gs : List Gate} (hr : Recorded gs)

include hr

theorem Recorded.nodup_out : (gs.map Gate.out).Nodup :=
  List.pairwise_map.mpr (hr.increasing.imp fun h => UInt32.ne_of_lt h)

theorem Recorded.fresh : gateShape.Fresh (foreign gs) gs :=
  Shape.fresh_iff.mpr ⟨fun _ hg hf => hf (List.mem_map_of_mem hg), hr.nodup_out⟩

theorem Recorded.well_scoped : gateShape.Scoped (foreign gs) gs := by
  have upto (hs : List Gate) (D : Set UInt32) (hi : hs.Pairwise fun g h => g.out < h.out)
      (hl : ∀ g ∈ hs, ∀ w ∈ g.reads, w < g.out)
      (hD : ∀ g ∈ hs, ∀ w ∈ g.reads, w ∈ D ∨ w ∈ hs.map Gate.out) : gateShape.Scoped D hs := by
    induction hs generalizing D with
    | nil => trivial
    | cons g hs ih =>
      rw [List.pairwise_cons] at hi
      rw [List.forall_mem_cons] at hl hD
      have later (w : UInt32) (hw : w ∈ hs.map Gate.out) : g.out < w := by
        obtain ⟨h, hh, rfl⟩ := List.mem_map.mp hw
        exact hi.1 h hh
      refine ⟨fun w hw => ?_, ih _ hi.2 hl.2 fun h hh w hw => ?_⟩
      · have hlt := hl.1 w hw
        rcases hD.1 w hw with hin | hin
        · exact hin
        · rcases List.mem_cons.mp hin with rfl | hin
          · exact absurd hlt (UInt32.lt_irrefl _)
          · exact absurd (UInt32.lt_trans hlt (later w hin)) (UInt32.lt_irrefl _)
      · rcases hD.2 h hh w hw with hin | hin
        · exact Or.inl (Set.mem_insert_of_mem _ hin)
        · rcases List.mem_cons.mp hin with rfl | hin
          · exact Or.inl (Set.mem_insert _ _)
          · exact Or.inr hin
  exact upto gs _ hr.increasing hr.reads_lt fun g hg w hw => (em _).symm

theorem Recorded.toGate_iff {w : UInt32} {i : Nat} :
    wireToGate gs w = some i ↔ gs[i]?.map Gate.out = some w :=
  Table.index_eq_some hr.nodup_out

theorem Recorded.toGate_out {g : Gate} {i : Nat} (hg : gs[i]? = some g) :
    wireToGate gs g.out = some i := by
  rw [hr.toGate_iff, hg]
  rfl

theorem Recorded.toGate_isSome {w : UInt32} : (wireToGate gs w).isSome ↔ w ∈ gs.map Gate.out := by
  rw [Option.isSome_iff_exists]
  simp only [hr.toGate_iff, Option.map_eq_some_iff, List.mem_map]
  constructor
  · rintro ⟨i, g, hg, rfl⟩
    exact ⟨g, List.mem_of_getElem? hg, rfl⟩
  · rintro ⟨g, hg, rfl⟩
    obtain ⟨i, hi⟩ := List.mem_iff_getElem?.mp hg
    exact ⟨i, g, hi, rfl⟩

theorem Recorded.toGate_none {w : UInt32} : wireToGate gs w = none ↔ w ∈ foreign gs := by
  rw [← Option.not_isSome_iff_eq_none, hr.toGate_isSome]
  rfl

end Recorded

theorem pushOperands_eq (g : Gate) : pushOperands g = g.reads := by
  rcases g with ⟨in0, in1, out, op⟩
  cases op <;> rfl

section Needed

variable {gs : List Gate} (hr : Recorded gs) (keep : List UInt32)

include hr

theorem reach_needed {i : Nat} (h : Worklist.Reach (wireToGate gs)
      (fun gi => pushOperands (gs.getD gi {})) (keep.filter fun id => (wireToGate gs id).isSome) i) :
    ∃ g, gs[i]? = some g ∧ Needed gs keep g := by
  have owned {w : UInt32} {j : Nat} (hw : wireToGate gs w = some j) :
      ∃ g, gs[j]? = some g ∧ g ∈ gs ∧ g.out = w := by
    rw [hr.toGate_iff, Option.map_eq_some_iff] at hw
    obtain ⟨g, hg, ho⟩ := hw
    exact ⟨g, hg, List.mem_of_getElem? hg, ho⟩
  induction h with
  | root hw hv =>
    obtain ⟨g, hg, hm, rfl⟩ := owned hv
    exact ⟨g, hg, .root hm (List.mem_of_mem_filter hw)⟩
  | @step u v w _ hw hv ih =>
    obtain ⟨h, hu, hh⟩ := ih
    obtain ⟨g, hg, hm, rfl⟩ := owned hv
    have hd : gs.getD u {} = h := by simp [hu]
    rw [pushOperands_eq, hd] at hw
    exact ⟨g, hg, .operand hh hm hw⟩

theorem needed_reach {i : Nat} {g : Gate} (hg : gs[i]? = some g) (h : Needed gs keep g) :
    Worklist.Reach (wireToGate gs) (fun gi => pushOperands (gs.getD gi {}))
      (keep.filter fun id => (wireToGate gs id).isSome) i := by
  induction h generalizing i with
  | root _ hk =>
    refine .root (List.mem_filter.mpr ⟨hk, ?_⟩) (hr.toGate_out hg)
    rw [hr.toGate_out hg]
    rfl
  | @operand g h hh _ hread ih =>
    obtain ⟨j, hj⟩ := List.mem_iff_getElem?.mp hh.mem
    refine .step (ih hj) ?_ (hr.toGate_out hg)
    have hd : gs.getD j {} = h := by simp [hj]
    rw [pushOperands_eq, hd]
    exact hread

theorem neededTable_iff {i : Nat} {g : Gate} (hg : gs[i]? = some g) :
    neededTable gs keep i = true ↔ Needed gs keep g := by
  have hspec : neededTable gs keep i = true ↔ Worklist.Reach (wireToGate gs)
      (fun gi => pushOperands (gs.getD gi {})) (keep.filter fun id => (wireToGate gs id).isSome) i := by
    refine Worklist.search_spec (List.range gs.length) 2 ?_ ?_ _ ?_ ?_ i
    · intro w v hw
      rw [hr.toGate_iff, Option.map_eq_some_iff] at hw
      obtain ⟨g, hg, -⟩ := hw
      exact List.mem_range.mpr (List.getElem?_eq_some_iff.mp hg).1
    · intro v
      rw [pushOperands_eq]
      rcases gs.getD v {} with ⟨in0, in1, out, op⟩
      cases op <;> simp [Gate.reads]
    · exact ⟨by simp, fun w hw v hv => .root (List.mem_reverse.mp hw) hv, by simp,
        fun w hw v _ => Or.inr (List.mem_reverse.mpr hw)⟩
    · simp
  rw [hspec]
  constructor
  · intro h
    obtain ⟨g', hg', hn⟩ := reach_needed hr keep h
    rw [hg] at hg'
    exact Option.some.inj hg' ▸ hn
  · exact needed_reach hr keep hg

theorem neededGates_eq : neededGates gs (neededTable gs keep) =
    gs.filter fun g => (wireToGate gs g.out).any (neededTable gs keep) := by
  have hzip : gs.zipIdx.filter (fun x => neededTable gs keep x.2) =
      gs.zipIdx.filter ((fun g => (wireToGate gs g.out).any (neededTable gs keep)) ∘ Prod.fst) := by
    apply List.filter_congr
    rintro ⟨g, i⟩ hx
    have hg : gs[i]? = some g := by simpa using List.mem_zipIdx_iff_getElem?.mp hx
    simp [hr.toGate_out hg]
  rw [neededGates, hzip, ← List.filter_map, List.zipIdx_map_fst]

theorem mem_neededGates {g : Gate} :
    g ∈ neededGates gs (neededTable gs keep) ↔ g ∈ gs ∧ Needed gs keep g := by
  rw [neededGates_eq hr, List.mem_filter]
  refine and_congr_right fun hg => ?_
  obtain ⟨i, hi⟩ := List.mem_iff_getElem?.mp hg
  simp [hr.toGate_out hi, neededTable_iff hr keep hi]

theorem neededGates_sublist : (neededGates gs (neededTable gs keep)).Sublist gs := by
  rw [neededGates_eq hr]
  exact List.filter_sublist

end Needed

section Scan

variable (toGate : UInt32 → Option Nat) (mat : UInt32 → Bool)

structure Scanned (rs : List UInt32) (s : InputScan) : Prop where
  nodup : s.inputIds.Nodup
  mem : ∀ w, w ∈ s.inputIds ↔ w ∈ rs ∧ toGate w = none ∧ mat w = true
  numbered : ∀ j w, s.inputIds[j]? = some w → s.remap w = some (UInt32.ofNat j)
  unnumbered : ∀ w, w ∉ s.inputIds → s.remap w = none
  ok : s.ok = true ↔ ∀ w ∈ rs, toGate w = none → mat w = true

variable {toGate mat}

theorem Scanned.remap_isSome {rs : List UInt32} {s : InputScan} (h : Scanned toGate mat rs s)
    (w : UInt32) : (s.remap w).isSome ↔ w ∈ s.inputIds := by
  constructor
  · intro hs
    by_contra hn
    rw [h.unnumbered w hn] at hs
    cases hs
  · intro hw
    obtain ⟨j, hj⟩ := List.mem_iff_getElem?.mp hw
    rw [h.numbered j w hj]
    rfl

theorem Scanned.pass {rs : List UInt32} {s : InputScan} (h : Scanned toGate mat rs s) {v : UInt32}
    (hv : toGate v = none → v ∈ s.inputIds) : Scanned toGate mat (rs ++ [v]) s where
  nodup := h.nodup
  mem w := by
    rw [h.mem, List.mem_append, List.mem_singleton]
    constructor
    · exact fun hw => ⟨Or.inl hw.1, hw.2⟩
    · rintro ⟨hw | rfl, hg, hm⟩
      · exact ⟨hw, hg, hm⟩
      · exact (h.mem w).mp (hv hg)
  numbered := h.numbered
  unnumbered := h.unnumbered
  ok := by
    rw [h.ok, List.forall_mem_append, List.forall_mem_singleton]
    exact ⟨fun hok => ⟨hok, fun hg => ((h.mem v).mp (hv hg)).2.2⟩, fun hok => hok.1⟩

theorem Scanned.reject {rs : List UInt32} {s : InputScan} (h : Scanned toGate mat rs s)
    {v : UInt32} (hv : toGate v = none) (hm : mat v = false) :
    Scanned toGate mat (rs ++ [v]) { s with ok := false } where
  nodup := h.nodup
  mem w := by
    rw [h.mem, List.mem_append, List.mem_singleton]
    constructor
    · exact fun hw => ⟨Or.inl hw.1, hw.2⟩
    · rintro ⟨hw | rfl, hg, hw'⟩
      · exact ⟨hw, hg, hw'⟩
      · rw [hm] at hw'
        cases hw'
  numbered := h.numbered
  unnumbered := h.unnumbered
  ok := by
    rw [List.forall_mem_append, List.forall_mem_singleton]
    constructor
    · intro hok
      cases hok
    · intro hok
      rw [hok.2 hv] at hm
      cases hm

theorem Scanned.admit {rs : List UInt32} {s : InputScan} (h : Scanned toGate mat rs s)
    {v : UInt32} (hv : toGate v = none) (hm : mat v = true) (hs : v ∉ s.inputIds) :
    Scanned toGate mat (rs ++ [v]) { s with
      remap := Function.update s.remap v (some (UInt32.ofNat s.inputIds.length))
      inputIds := s.inputIds ++ [v] } where
  nodup := by
    refine List.nodup_append.mpr ⟨h.nodup, List.nodup_singleton v, ?_⟩
    intro a ha b hb
    rw [List.mem_singleton.mp hb]
    exact fun he => hs (he ▸ ha)
  mem w := by
    rw [List.mem_append, List.mem_singleton, h.mem, List.mem_append, List.mem_singleton]
    constructor
    · rintro (hw | rfl)
      · exact ⟨Or.inl hw.1, hw.2⟩
      · exact ⟨Or.inr rfl, hv, hm⟩
    · rintro ⟨hw | rfl, hg⟩
      · exact Or.inl ⟨hw, hg⟩
      · exact Or.inr rfl
  numbered j w hj := by
    simp only [Function.update_apply]
    simp only [List.getElem?_append] at hj
    split at hj
    · have hw : w ≠ v := fun he => hs (he ▸ List.mem_of_getElem? hj)
      rw [if_neg hw]
      exact h.numbered j w hj
    · have hw : w = v := by simpa using List.mem_of_getElem? hj
      have hl := (List.getElem?_eq_some_iff.mp hj).1
      simp only [List.length_singleton] at hl
      rw [if_pos hw]
      congr 2
      omega
  unnumbered w hw := by
    rw [List.mem_append, List.mem_singleton, not_or] at hw
    exact (Function.update_of_ne hw.2 _ _).trans (h.unnumbered w hw.1)
  ok := by
    rw [h.ok, List.forall_mem_append, List.forall_mem_singleton]
    exact ⟨fun hok => ⟨hok, fun _ => hm⟩, fun hok => hok.1⟩

theorem Scanned.noteInput {rs : List UInt32} {s : InputScan} (h : Scanned toGate mat rs s)
    (v : UInt32) : Scanned toGate mat (rs ++ [v]) (noteInput toGate mat s v) := by
  unfold Session.noteInput
  split
  case isTrue hv =>
    refine h.pass fun hg => ?_
    rw [hg] at hv
    cases hv
  case isFalse hv =>
    rw [Option.not_isSome_iff_eq_none] at hv
    split
    case isTrue hs => exact h.pass fun _ => (h.remap_isSome v).mp hs
    case isFalse hs =>
      rw [h.remap_isSome] at hs
      split
      case isTrue hm => exact h.reject hv (by simpa using hm)
      case isFalse hm => exact h.admit hv (by simpa using hm) hs

theorem Scanned.noteInputs {pre : List UInt32} {s : InputScan} (h : Scanned toGate mat pre s)
    (rs : List UInt32) :
    Scanned toGate mat (pre ++ rs) (rs.foldl (Session.noteInput toGate mat) s) := by
  induction rs generalizing pre s with
  | nil => simpa using h
  | cons v rs ih => simpa using ih (h.noteInput v)

theorem noteGate_eq (s : InputScan) (g : Gate) :
    noteGate toGate mat s g = g.reads.foldl (noteInput toGate mat) s := by
  rcases g with ⟨in0, in1, out, op⟩
  cases op <;> rfl

variable (toGate mat) in
theorem scanned_gates (live : List Gate) :
    Scanned toGate mat (live.flatMap Gate.reads) (live.foldl (noteGate toGate mat) {}) := by
  have hfold : live.foldl (noteGate toGate mat) {} =
      (live.flatMap Gate.reads).foldl (noteInput toGate mat) {} := by
    rw [List.foldl_flatMap]
    congr 1
    funext s g
    exact noteGate_eq s g
  have start : Scanned toGate mat [] {} := ⟨by simp, by simp, by simp, by simp, by simp⟩
  rw [hfold]
  simpa using start.noteInputs (live.flatMap Gate.reads)

end Scan

structure CompactedTo (live : List Gate) (s t : Compaction) : Prop where
  cid : t.cid = s.cid + UInt32.ofNat live.length
  numbered : ∀ i g, live[i]? = some g → t.remap g.out = some (s.cid + UInt32.ofNat i)
  kept : ∀ w, w ∉ live.map Gate.out → t.remap w = s.remap w
  gates : t.gates = s.gates ++
    live.map fun g => g.rename (fun w => (t.remap w).getD 0) ((t.remap g.out).getD 0)

theorem compactNeeded_spec {live : List Gate} {D : Set UInt32} (hs : gateShape.Scoped D live)
    (hf : gateShape.Fresh D live) (s : Compaction) :
    CompactedTo live s (live.foldl compactNeeded s) := by
  induction live generalizing D s with
  | nil => exact ⟨by simp, by simp, fun _ _ => rfl, by simp⟩
  | cons g live ih =>
    have rest := ih hs.2 hf.2 (compactNeeded s g)
    rw [List.foldl_cons]
    generalize live.foldl compactNeeded (compactNeeded s g) = t at rest ⊢
    have hlater (w : UInt32) (hw : w ∈ insert g.out D) :
        t.remap w = (compactNeeded s g).remap w :=
      rest.kept w (hf.2.out_notMem w hw)
    have hout : t.remap g.out = some s.cid := by
      rw [hlater g.out (Set.mem_insert _ _)]
      simp [compactNeeded]
    refine ⟨?_, fun i h hi => ?_, fun w hw => ?_, ?_⟩
    · rw [rest.cid]
      simp [compactNeeded, UInt32.add_assoc, UInt32.add_comm 1]
    · cases i with
      | zero =>
        obtain rfl : g = h := by simpa using hi
        simpa using hout
      | succ i =>
        rw [rest.numbered i h (by simpa using hi)]
        simp [compactNeeded, UInt32.add_assoc, UInt32.add_comm 1]
    · rw [List.map_cons, List.mem_cons, not_or] at hw
      rw [rest.kept w hw.2]
      simp [compactNeeded, hw.1]
    · rw [rest.gates]
      have hg : g.rename (fun w => ((Function.update s.remap g.out (some s.cid)) w).getD 0) s.cid =
          g.rename (fun w => (t.remap w).getD 0) s.cid := by
        refine Gate.rename_congr (fun w hw => ?_) _
        rw [hlater w (Set.mem_insert_of_mem _ (hs.1 w hw))]
        rfl
      simp only [compactNeeded, hg, hout, List.map_cons, List.append_assoc, List.singleton_append,
        Option.getD_some]

theorem emitOutputs_eq (toGate : UInt32 → Option Nat) (emitted keep : List UInt32) :
    emitOutputs toGate emitted keep = emitted ++
      ((keep.filter fun id => (toGate id).isSome).filter fun id => id ∉ emitted).eraseDups := by
  induction keep generalizing emitted with
  | nil => simp [emitOutputs]
  | cons id keep ih =>
    rw [emitOutputs]
    cases hid : toGate id with
    | none => simp [ih, hid]
    | some gi =>
      simp only [Option.isNone_some, Bool.false_eq_true, if_false]
      split
      · rename_i hm
        simp [ih, hid, hm]
      · rename_i hm
        rw [ih, List.append_assoc]
        simp [hid, hm, List.eraseDups_cons]
        congr 1
        apply List.filter_congr
        intro x _
        rw [beq_eq_decide, Bool.and_comm (!decide (x ∈ emitted)), Bool.and_assoc]

theorem length_lt_of_nodup {ids : List UInt32} (hn : ids.Nodup)
    (hlt : ∀ w ∈ ids, w.toNat < 2 ^ 32 - 1) : ids.length < 2 ^ 32 := by
  have hmap : (ids.map UInt32.toNat).Nodup := hn.map fun _ _ h => UInt32.toNat_inj.mp h
  have hsub : ids.map UInt32.toNat ⊆ List.range (2 ^ 32 - 1) := by
    intro k hk
    obtain ⟨w, hw, rfl⟩ := List.mem_map.mp hk
    exact List.mem_range.mpr (hlt w hw)
  have hle := (hmap.subperm hsub).length_le
  rw [List.length_map, List.length_range] at hle
  omega

def flushLive (gs : List Gate) (keep : List UInt32) : List Gate :=
  neededGates gs (neededTable gs keep)

def flushScan (gs : List Gate) (keep : List UInt32) (mat : UInt32 → Bool) : InputScan :=
  (flushLive gs keep).foldl (noteGate (wireToGate gs) mat) {}

def flushCompaction (gs : List Gate) (keep : List UInt32) (mat : UInt32 → Bool) : Compaction :=
  (flushLive gs keep).foldl compactNeeded
    { remap := (flushScan gs keep mat).remap
      cid := UInt32.ofNat (flushScan gs keep mat).inputIds.length }

def flushLoc (gs : List Gate) (keep : List UInt32) (mat : UInt32 → Bool) (w : UInt32) : UInt32 :=
  ((flushCompaction gs keep mat).remap w).getD 0

section Plan

variable {gs : List Gate} (hr : Recorded gs) (keep : List UInt32) (mat : UInt32 → Bool)

theorem flushScan_scanned : Scanned (wireToGate gs) mat ((flushLive gs keep).flatMap Gate.reads)
    (flushScan gs keep mat) :=
  scanned_gates _ _ _

include hr

theorem mem_flushLive {g : Gate} : g ∈ flushLive gs keep ↔ Needed gs keep g :=
  (mem_neededGates hr keep).trans ⟨And.right, fun h => ⟨h.mem, h⟩⟩

theorem mem_inputIds {w : UInt32} : w ∈ (flushScan gs keep mat).inputIds ↔
    (∃ g, Needed gs keep g ∧ w ∈ g.reads) ∧ w ∈ foreign gs ∧ mat w = true := by
  rw [(flushScan_scanned keep mat).mem, hr.toGate_none]
  simp only [List.mem_flatMap, mem_flushLive hr]

theorem planFlush_ok_iff : (planFlush gs keep mat).ok = true ↔
    ∀ g, Needed gs keep g → ∀ w ∈ g.reads, w ∈ foreign gs → mat w = true := by
  refine (flushScan_scanned keep mat).ok.trans ?_
  simp only [List.mem_flatMap, mem_flushLive hr, hr.toGate_none]
  exact ⟨fun h g hg w hw => h w ⟨g, hg, hw⟩, fun h w ⟨g, hg, hw⟩ => h g hg w hw⟩

theorem flushLive_scoped (hok : (planFlush gs keep mat).ok = true) :
    gateShape.Scoped {w | w ∈ (flushScan gs keep mat).inputIds} (flushLive gs keep) := by
  have hclosed := (planFlush_ok_iff hr keep mat).mp hok
  have hP {g : Gate} (hg : g ∈ gs) :
      (wireToGate gs g.out).any (neededTable gs keep) = true ↔ Needed gs keep g := by
    obtain ⟨i, hi⟩ := List.mem_iff_getElem?.mp hg
    simp [hr.toGate_out hi, neededTable_iff hr keep hi]
  rw [flushLive, neededGates_eq hr]
  refine Shape.scoped_filter hr.well_scoped ?_ ?_
  · intro g hg hPg w hw hf
    have hn := (hP hg).mp hPg
    exact (mem_inputIds hr keep mat).mpr ⟨⟨g, hn, hw⟩, hf, hclosed g hn w hw hf⟩
  · intro g hg hPg h hh hread
    exact (hP hh).mpr (.operand ((hP hg).mp hPg) hh hread)

theorem flushIds_nodup :
    ((flushScan gs keep mat).inputIds ++ (flushLive gs keep).map Gate.out).Nodup := by
  refine List.nodup_append.mpr ⟨(flushScan_scanned keep mat).nodup, ?_, ?_⟩
  · exact hr.nodup_out.sublist ((neededGates_sublist hr keep).map _)
  · rintro v hv w hw rfl
    obtain ⟨g, hg, rfl⟩ := List.mem_map.mp hw
    exact ((mem_inputIds hr keep mat).mp hv).2.1
      (List.mem_map_of_mem ((mem_flushLive hr keep).mp hg).mem)

theorem flushIds_fit :
    (flushScan gs keep mat).inputIds.length + (flushLive gs keep).length < 2 ^ 32 := by
  have hlen := length_lt_of_nodup (flushIds_nodup hr keep mat) ?_
  · simpa using hlen
  · intro w hw
    rcases List.mem_append.mp hw with hw | hw
    · obtain ⟨⟨g, hg, hw⟩, -⟩ := (mem_inputIds hr keep mat).mp hw
      have hlt := UInt32.lt_iff_toNat_lt.mp (hr.reads_lt g hg.mem w hw)
      have hout := hr.out_lt g hg.mem
      omega
    · obtain ⟨g, hg, rfl⟩ := List.mem_map.mp hw
      exact hr.out_lt g ((mem_flushLive hr keep).mp hg).mem

theorem flushCompaction_spec (hok : (planFlush gs keep mat).ok = true) :
    CompactedTo (flushLive gs keep)
      { remap := (flushScan gs keep mat).remap
        cid := UInt32.ofNat (flushScan gs keep mat).inputIds.length }
      (flushCompaction gs keep mat) := by
  have hn := List.nodup_append.mp (flushIds_nodup hr keep mat)
  exact compactNeeded_spec (flushLive_scoped hr keep mat hok) (Shape.fresh_iff.mpr
    ⟨fun g hg hi => hn.2.2 _ hi _ (List.mem_map_of_mem hg) rfl, hn.2.1⟩) _

theorem planFlush_numbering (hok : (planFlush gs keep mat).ok = true) :
    Numbering (flushScan gs keep mat).inputIds (flushLive gs keep) (flushLoc gs keep mat) where
  nodup := flushIds_nodup hr keep mat
  fits := flushIds_fit hr keep mat
  well_scoped := flushLive_scoped hr keep mat hok
  numbered k w hk := by
    have compact := flushCompaction_spec hr keep mat hok
    have hn := List.nodup_append.mp (flushIds_nodup hr keep mat)
    rw [List.getElem?_append] at hk
    split at hk
    · have hw : w ∉ (flushLive gs keep).map Gate.out := fun hw =>
        hn.2.2 _ (List.mem_of_getElem? hk) _ hw rfl
      rw [flushLoc, compact.kept w hw]
      simp only [(flushScan_scanned keep mat).numbered k w hk, Option.getD_some]
    · rename_i hlt
      rw [List.getElem?_map, Option.map_eq_some_iff] at hk
      obtain ⟨g, hg, rfl⟩ := hk
      rw [flushLoc, compact.numbered _ g hg, Option.getD_some, ← UInt32.ofNat_add]
      congr 1
      omega

theorem planFlush_prog (hok : (planFlush gs keep mat).ok = true) :
    (planFlush gs keep mat).prog = renumbered (flushScan gs keep mat).inputIds (flushLive gs keep)
      (planFlush gs keep mat).outputIds (flushLoc gs keep mat) := by
  have compact := flushCompaction_spec hr keep mat hok
  have hgates : (flushCompaction gs keep mat).gates =
      (flushLive gs keep).map (renumberGate (flushLoc gs keep mat)) := compact.gates
  have hcid : (flushCompaction gs keep mat).cid =
      UInt32.ofNat ((flushScan gs keep mat).inputIds.length + (flushLive gs keep).length) := by
    rw [compact.cid, UInt32.ofNat_add]
  rw [renumbered, ← hgates, ← hcid]
  rfl

theorem planFlush_outputIds : (planFlush gs keep mat).outputIds =
    (keep.filter fun id => id ∈ gs.map Gate.out).eraseDups := by
  have h := emitOutputs_eq (wireToGate gs) [] keep
  have hf : keep.filter (fun id => (wireToGate gs id).isSome) =
      keep.filter fun id => id ∈ gs.map Gate.out :=
    List.filter_congr fun w _ => by
      rw [Bool.eq_iff_iff, hr.toGate_isSome, decide_eq_true_iff]
  refine h.trans ?_
  simp [hf]

theorem outputIds_live : ∀ w ∈ (planFlush gs keep mat).outputIds,
    w ∈ (flushScan gs keep mat).inputIds ++ (flushLive gs keep).map Gate.out := by
  intro w hw
  rw [planFlush_outputIds hr, List.mem_eraseDups, List.mem_filter, decide_eq_true_iff] at hw
  obtain ⟨g, hg, rfl⟩ := List.mem_map.mp hw.2
  exact List.mem_append_right _ (List.mem_map_of_mem ((mem_flushLive hr keep).mpr (.root hg hw.1)))

theorem planFlush_valid (hok : (planFlush gs keep mat).ok = true) :
    Valid (planFlush gs keep mat).prog := by
  rw [planFlush_prog hr keep mat hok]
  exact (planFlush_numbering hr keep mat hok).valid (outputIds_live hr keep mat)

theorem planFlush_executes {Wire : Type} [Inhabited Wire] (ops : GateOps Wire)
    (val : UInt32 → Wire) (hok : (planFlush gs keep mat).ok = true) :
    executeProgram (m := Id) ops.context (planFlush gs keep mat).prog
        ((planFlush gs keep mat).inputIds.map val) =
      .ok ((planFlush gs keep mat).outputIds.map ((gateMachine ops).run gs val)) := by
  have hsol := (gateMachine ops).run_solves hr.well_scoped hr.fresh val
  have hlive : (gateMachine ops).Solves ((gateMachine ops).run gs val) (flushLive gs keep) :=
    fun g hg => hsol g ((mem_flushLive hr keep).mp hg).mem
  have hins : (planFlush gs keep mat).inputIds.map val =
      (flushScan gs keep mat).inputIds.map ((gateMachine ops).run gs val) := by
    refine List.map_congr_left fun w hw => ?_
    exact ((gateMachine ops).run_frame ((mem_inputIds hr keep mat).mp hw).2.1 val).symm
  have number := planFlush_numbering hr keep mat hok
  have hnum : (UInt32.ofNat (flushScan gs keep mat).inputIds.length).toNat =
      (flushScan gs keep mat).inputIds.length := toNat_ofNat (by have := number.fits; omega)
  rw [executeProgram_eq (planFlush_valid hr keep mat hok) ops, hins, planFlush_prog hr keep mat hok,
    number.evaluate (outputIds_live hr keep mat) ops hlive]
  rw [planFlush_prog hr keep mat hok, List.length_map]
  exact hnum.symm

end Plan

structure EliminatesDeadCode (gs : List Gate) (keep : List UInt32) (mat : UInt32 → Bool)
    (plan : FlushPlan) : Prop where
  valid : validateProgram plan.prog = .ok ()
  dense : plan.prog.wireReuse = .none
  canonical : ∀ i g, plan.prog.gates[i]? = some g → g.out.toNat = plan.prog.numInputs.toNat + i
  gates : ∃ (live : List Gate) (loc : UInt32 → UInt32), live.Sublist gs ∧ (∀ g, g ∈ live ↔ Needed gs keep g) ∧
    plan.prog.gates = live.map fun g => g.rename loc (loc g.out)
  inputs_nodup : plan.inputIds.Nodup
  inputs : ∀ w ∈ plan.inputIds, mat w = true ∧ w ∉ gs.map Gate.out
  outputs : plan.outputIds = (keep.filter fun id => id ∈ gs.map Gate.out).eraseDups
  evaluates : ∀ {Wire : Type} [Inhabited Wire] (ops : GateOps Wire) (val : UInt32 → Wire),
    executeProgram (m := Id) ops.context plan.prog (plan.inputIds.map val) =
      .ok (plan.outputIds.map ((gateMachine ops).run gs val))

theorem plan_flush_eliminates_dead_code (gs : List Gate) (hr : Recorded gs)
    (_ : gs.length < 2 ^ 31) (keep : List UInt32) (mat : UInt32 → Bool) :
    ((planFlush gs keep mat).ok = true →
      EliminatesDeadCode gs keep mat (planFlush gs keep mat)) ∧
    ((planFlush gs keep mat).ok = false ↔
      ∃ g, Needed gs keep g ∧ ∃ w ∈ g.reads, w ∉ gs.map Gate.out ∧ mat w = false) := by
  constructor
  · intro hok
    have number := planFlush_numbering hr keep mat hok
    have prog := planFlush_prog hr keep mat hok
    refine ⟨validateProgram_ok_iff.mpr (planFlush_valid hr keep mat hok), by rw [prog]; rfl, ?_,
      ⟨flushLive gs keep, flushLoc gs keep mat, neededGates_sublist hr keep,
        fun g => mem_flushLive hr keep, by rw [prog]; rfl⟩,
      (flushScan_scanned keep mat).nodup, fun w hw => ?_, planFlush_outputIds hr keep mat,
      fun ops val => planFlush_executes hr keep mat ops val hok⟩
    · intro i g hg
      have hfits := number.fits
      rw [prog] at hg ⊢
      simp only [renumbered, List.getElem?_map, Option.map_eq_some_iff] at hg
      obtain ⟨h, hi, rfl⟩ := hg
      have hlt := (List.getElem?_eq_some_iff.mp hi).1
      have hidx : ((flushScan gs keep mat).inputIds ++ (flushLive gs keep).map Gate.out)[
          (flushScan gs keep mat).inputIds.length + i]? = some h.out := by
        rw [List.getElem?_append_right (Nat.le_add_right _ _), Nat.add_sub_cancel_left,
          List.getElem?_map, hi]
        rfl
      simp only [renumberGate, Gate.rename_out, renumbered, number.numbered _ _ hidx]
      rw [toNat_ofNat (by omega), toNat_ofNat (by omega)]
    · obtain ⟨-, hf, hm⟩ := (mem_inputIds hr keep mat).mp hw
      exact ⟨hm, hf⟩
  · rw [← Bool.not_eq_true, planFlush_ok_iff hr keep mat]
    simp only [not_forall, Bool.not_eq_true, exists_prop]
    rfl

def chunkSample : List Gate :=
  [⟨1, 2, 4, .and⟩, ⟨1, 3, 5, .and⟩, ⟨0, 0, 6, .const1⟩, ⟨4, 6, 7, .xor⟩]

theorem chunkSample_recorded : Recorded chunkSample := by
  constructor <;> decide

theorem plan_flush_eliminates_dead_code_chunkSample :
    (planFlush chunkSample [7, 9, 7] (· < 4)).ok = true ∧
      EliminatesDeadCode chunkSample [7, 9, 7] (· < 4) (planFlush chunkSample [7, 9, 7] (· < 4)) :=
  ⟨rfl, (plan_flush_eliminates_dead_code chunkSample chunkSample_recorded (by decide) [7, 9, 7]
    (· < 4)).1 rfl⟩

end EmpTool.Session
