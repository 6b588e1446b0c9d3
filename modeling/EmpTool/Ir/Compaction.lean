import EmpTool.Ir.Transform

namespace EmpTool.Ir

open StraightLine

theorem foldl_cons_map {α β : Type} (f : α → β) (xs : List α) (l : List β) :
    xs.foldl (fun l x => f x :: l) l = (xs.map f).reverse ++ l := by
  induction xs generalizing l with
  | nil => rfl
  | cons x xs ih => simp [ih]

section Allocation

variable (n : UInt32) (persist : UInt32 → Bool) (lastUse : UInt32 → Int)

def Live (k : Nat) (D : Set UInt32) : Set UInt32 :=
  {w | w ∈ D ∧ (persist w = true ∨ (k : Int) ≤ lastUse w)}

structure Allocated (k : Nat) (D D' : Set UInt32) (a : Allocator) : Prop where
  inj : ∀ v ∈ Live persist lastUse k D, ∀ w ∈ Live persist lastUse k D, a.nid v = a.nid w → v = w
  free_nodup : a.freelist.Nodup
  free_dead : ∀ w ∈ Live persist lastUse k D, a.nid w ∉ a.freelist
  free_range : ∀ id ∈ a.freelist, n ≤ id ∧ id < a.next
  nid_lt : ∀ w ∈ D, a.nid w < a.next
  nid_mem : ∀ w ∈ D, a.nid w ∈ D'
  nid_ge : ∀ w ∈ D, n ≤ w → n ≤ a.nid w
  n_le : n ≤ a.next

structure Took (k : Nat) (D : Set UInt32) (a : Allocator) (out : UInt32) (a' : Allocator) :
    Prop where
  nid_eq : a'.nid = a.nid
  le_next : a.next.toNat ≤ a'.next.toNat
  next_le : a'.next.toNat ≤ a.next.toNat + 1
  out_ge : n ≤ out
  out_lt : out < a'.next
  out_free : out ∉ a'.freelist
  free_sub : ∀ id ∈ a'.freelist, id ∈ a.freelist
  free_nodup : a'.freelist.Nodup
  out_dead : ∀ w ∈ Live persist lastUse k D, a.nid w ≠ out

variable {n persist lastUse} {k : Nat} {D D' : Set UInt32} {a : Allocator}

theorem Allocated.take_next (h : Allocated n persist lastUse k D D' a)
    (hnext : a.next.toNat + 1 < 2 ^ 32) :
    Took n persist lastUse k D a a.next { a with next := a.next + 1 } where
  nid_eq := rfl
  le_next := by simp only [toNat_succ hnext]; omega
  next_le := by simp only [toNat_succ hnext]; omega
  out_ge := h.n_le
  out_lt := by
    rw [UInt32.lt_iff_toNat_lt, toNat_succ hnext]
    omega
  out_free := fun hm => UInt32.lt_irrefl _ (h.free_range _ hm).2
  free_sub := fun _ hm => hm
  free_nodup := h.free_nodup
  out_dead := fun w hw => UInt32.ne_of_lt (h.nid_lt w hw.1)

theorem Allocated.take_free (h : Allocated n persist lastUse k D D' a) {id : UInt32}
    {rest : List UInt32} (hf : a.freelist = id :: rest) :
    Took n persist lastUse k D a id { a with freelist := rest } := by
  have hnd := h.free_nodup
  rw [hf] at hnd
  have hid : id ∈ a.freelist := by simp [hf]
  obtain ⟨hnot, hrest⟩ := List.nodup_cons.mp hnd
  refine ⟨rfl, Nat.le_refl _, Nat.le_succ _, (h.free_range id hid).1, (h.free_range id hid).2,
    hnot, fun x hx => ?_, hrest, fun w hw he => ?_⟩
  · rw [hf]
    exact List.mem_cons_of_mem _ hx
  · exact h.free_dead w hw (he ▸ hid)

theorem Allocated.alloc (h : Allocated n persist lastUse k D D' a)
    (hnext : a.next.toNat + 1 < 2 ^ 32) (b : Bool) :
    Took n persist lastUse k D a (a.alloc b).1 (a.alloc b).2 := by
  rcases hf : a.freelist with _ | ⟨id, rest⟩
  · simpa only [Allocator.alloc, hf] using h.take_next hnext
  · cases b with
    | false => simpa [Allocator.alloc, hf] using h.take_free hf
    | true => simpa [Allocator.alloc, hf] using h.take_next hnext

theorem live_insert {w o : UInt32} (hne : w ≠ o) (hw : w ∈ Live persist lastUse k (insert o D)) :
    w ∈ Live persist lastUse k D :=
  ⟨hw.1.resolve_left hne, hw.2⟩

theorem live_succ {w : UInt32} (hw : w ∈ Live persist lastUse (k + 1) D) :
    w ∈ Live persist lastUse k D := by
  refine ⟨hw.1, hw.2.imp id fun h => ?_⟩
  omega

theorem Allocated.assign (h : Allocated n persist lastUse k D D' a) {o out : UInt32}
    {a' : Allocator} (hfresh : o ∉ D) (ht : Took n persist lastUse k D a out a') :
    Allocated n persist lastUse k (insert o D) (insert out D')
      { a' with nid := Function.update a.nid o out } := by
  have keep : ∀ w, w ≠ o → Function.update a.nid o out w = a.nid w := fun w hw =>
    Function.update_of_ne hw _ _
  have old : ∀ w ∈ D, Function.update a.nid o out w = a.nid w := fun w hw =>
    keep w fun he => hfresh (he ▸ hw)
  have self : Function.update a.nid o out o = out := Function.update_self ..
  have le_next : a.next ≤ a'.next := UInt32.le_iff_toNat_le.mpr ht.le_next
  refine ⟨?_, ht.free_nodup, ?_, ?_, ?_, ?_, ?_, UInt32.le_trans h.n_le le_next⟩
  · intro v hv w hw (he : Function.update a.nid o out v = Function.update a.nid o out w)
    by_cases hvo : v = o <;> by_cases hwo : w = o
    · rw [hvo, hwo]
    · rw [hvo, self, keep w hwo] at he
      exact absurd he.symm (ht.out_dead w (live_insert hwo hw))
    · rw [hwo, self, keep v hvo] at he
      exact absurd he (ht.out_dead v (live_insert hvo hv))
    · rw [keep v hvo, keep w hwo] at he
      exact h.inj v (live_insert hvo hv) w (live_insert hwo hw) he
  · intro w hw (hm : Function.update a.nid o out w ∈ a'.freelist)
    by_cases hwo : w = o
    · rw [hwo, self] at hm
      exact ht.out_free hm
    · rw [keep w hwo] at hm
      exact h.free_dead w (live_insert hwo hw) (ht.free_sub _ hm)
  · intro id hid
    obtain ⟨hge, hlt⟩ := h.free_range id (ht.free_sub id hid)
    exact ⟨hge, UInt32.lt_of_lt_of_le hlt le_next⟩
  · rintro w (rfl | hw)
    · simp only [self]
      exact ht.out_lt
    · simp only [old w hw]
      exact UInt32.lt_of_lt_of_le (h.nid_lt w hw) le_next
  · rintro w (rfl | hw)
    · simp only [self]
      exact Set.mem_insert _ _
    · simp only [old w hw]
      exact Set.mem_insert_of_mem _ (h.nid_mem w hw)
  · rintro w (rfl | hw) hn
    · simp only [self]
      exact ht.out_ge
    · simp only [old w hw]
      exact h.nid_ge w hw hn

-- a wire last read at `k` is no longer live at `k + 1`, so its id may be handed out again
theorem Allocated.release (h : Allocated n persist lastUse k D D' a) {fs : List UInt32}
    (hnodup : fs.Nodup)
    (hfs : ∀ w ∈ fs, w ∈ D ∧ n ≤ w ∧ lastUse w = k ∧ persist w = false) :
    Allocated n persist lastUse (k + 1) D D'
      { a with freelist := (fs.map a.nid).reverse ++ a.freelist } := by
  have live : ∀ w ∈ fs, w ∈ Live persist lastUse k D := fun w hw =>
    ⟨(hfs w hw).1, Or.inr (hfs w hw).2.2.1.ge⟩
  refine ⟨?_, ?_, ?_, ?_, h.nid_lt, h.nid_mem, h.nid_ge, h.n_le⟩
  · exact fun v hv w hw he => h.inj v (live_succ hv) w (live_succ hw) he
  · rw [List.nodup_append', List.nodup_reverse]
    refine ⟨hnodup.map_on fun v hv w hw he => ?_, h.free_nodup, ?_⟩
    · exact h.inj v (live v hv) w (live w hw) he
    · intro id hid hid'
      obtain ⟨w, hw, rfl⟩ := List.mem_map.mp (List.mem_reverse.mp hid)
      exact h.free_dead w (live w hw) hid'
  · intro w hw hm
    rcases List.mem_append.mp hm with hm | hm
    · obtain ⟨v, hv, he⟩ := List.mem_map.mp (List.mem_reverse.mp hm)
      obtain rfl := h.inj v (live v hv) w (live_succ hw) he
      obtain ⟨-, -, hlast, hpv⟩ := hfs v hv
      rcases hw.2 with hpw | hlw
      · rw [hpv] at hpw
        exact Bool.false_ne_true hpw
      · omega
    · exact h.free_dead w (live_succ hw) hm
  · intro id hid
    rcases List.mem_append.mp hid with hid | hid
    · obtain ⟨w, hw, rfl⟩ := List.mem_map.mp (List.mem_reverse.mp hid)
      obtain ⟨hD, hn, -⟩ := hfs w hw
      exact ⟨h.nid_ge w hD hn, h.nid_lt w hD⟩
    · exact h.free_range id hid

variable {frees : Nat → List UInt32} {g : Gate}
  (hp : ∀ w, w < n → persist w = true)
  (hfree : ∀ k, ∀ w ∈ frees k, lastUse w = k ∧ persist w = false)
  (hnodup : ∀ k, (frees k).Nodup)

include hp hfree in
theorem freed_reads (hr : ∀ w ∈ g.reads, w ∈ D) (hlast : ∀ w, lastUse w = k → w ∈ g.reads)
    {w : UInt32} (hw : w ∈ frees k) :
    w ∈ insert g.out D ∧ n ≤ w ∧ lastUse w = k ∧ persist w = false := by
  obtain ⟨hl, hpw⟩ := hfree k w hw
  refine ⟨Set.mem_insert_of_mem _ (hr w (hlast w hl)), ?_, hl, hpw⟩
  by_contra hlt
  have hpers := hp w (UInt32.not_le.mp hlt)
  rw [hpw] at hpers
  exact Bool.false_ne_true hpers

include hp hfree hnodup in
theorem Allocated.compactGate (h : Allocated n persist lastUse k D D' a)
    (hr : ∀ w ∈ g.reads, w ∈ D) (hfresh : g.out ∉ D)
    (hlast : ∀ w, lastUse w = k → w ∈ g.reads) (hnext : a.next.toNat + 1 < 2 ^ 32) :
    ∃ out b, compactGate persist frees k g a = (g.rename a.nid out, b) ∧
      b.nid = Function.update a.nid g.out out ∧ Took n persist lastUse k D a out
        { b with nid := a.nid, freelist := (a.alloc (persist g.out)).2.freelist } ∧
      Allocated n persist lastUse (k + 1) (insert g.out D) (insert out D') b := by
  have ht := h.alloc hnext (persist g.out)
  obtain ⟨out, a', hout⟩ : ∃ out a', a.alloc (persist g.out) = (out, a') := ⟨_, _, rfl⟩
  rw [hout] at ht
  dsimp only at ht
  have hren : g.rename (Function.update a.nid g.out out) out = g.rename a.nid out := by
    apply Gate.rename_congr
    intro w hw
    have hne : w ≠ g.out := fun he => hfresh (he ▸ hr w hw)
    rw [Function.update_of_ne hne]
  refine ⟨out, { nid := Function.update a.nid g.out out, next := a'.next
                 freelist := ((frees k).map (Function.update a.nid g.out out)).reverse ++
                   a'.freelist }, ?_, rfl, ?_, ?_⟩
  · simp only [EmpTool.Ir.compactGate, hout, ht.nid_eq, hren, foldl_cons_map]
  · simp only [hout, ← ht.nid_eq]
    exact ht
  · exact (h.assign hfresh ht).release (hnodup k) fun w hw => freed_reads hp hfree hr hlast hw

variable (n persist lastUse) in
structure Compacted (k : Nat) (D D' : Set UInt32) (a : Allocator) (gs ngs : List Gate)
    (b : Allocator) : Prop where
  allocated : Allocated n persist lastUse (k + gs.length) (gateShape.defined D gs)
    (gateShape.defined D' ngs) b
  well_scoped : gateShape.Scoped D' ngs
  canonical : ∀ g ∈ ngs, g.Canonical
  range : ∀ g ∈ ngs, n ≤ g.out ∧ g.out < b.next
  le_next : a.next.toNat ≤ b.next.toNat
  next_le : b.next.toNat ≤ a.next.toNat + gs.length
  length_eq : ngs.length = gs.length
  agrees : ∀ {Wire : Type} (ops : GateOps Wire) (e e' : UInt32 → Wire),
    Agrees (Live persist lastUse k D) a.nid e e' →
    Agrees (Live persist lastUse (k + gs.length) (gateShape.defined D gs)) b.nid
      ((gateMachine ops).run gs e) ((gateMachine ops).run ngs e')

include hp hfree hnodup in
theorem compactGates_spec (gs : List Gate) {k : Nat} {D D' : Set UInt32} {a : Allocator}
    (h : Allocated n persist lastUse k D D' a) (hs : gateShape.Scoped D gs)
    (hf : gateShape.Fresh D gs) (hl : LastUse lastUse k gs)
    (hnext : a.next.toNat + gs.length < 2 ^ 32) :
    Compacted n persist lastUse k D D' a gs
      (compactGates persist frees k gs a).1 (compactGates persist frees k gs a).2 := by
  induction gs generalizing k D D' a with
  | nil => exact ⟨by simpa [compactGates] using h, trivial, by simp [compactGates],
      by simp [compactGates], Nat.le_refl _, Nat.le_refl _, rfl, fun ops e e' h => by
        simpa [compactGates] using h⟩
  | cons g gs ih =>
    simp only [List.length_cons] at hnext
    obtain ⟨out, b, hg, hnid, ht, hb⟩ :=
      h.compactGate hp hfree hnodup hs.1 hf.1 hl.2.1 (by omega)
    have hle := ht.le_next
    have hge := ht.next_le
    simp only at hle hge
    have rest := ih hb hs.2 hf.2 hl.2.2 (by omega)
    obtain ⟨ngs, c, hc⟩ : ∃ ngs c, compactGates persist frees (k + 1) gs b = (ngs, c) :=
      ⟨_, _, rfl⟩
    rw [hc] at rest
    dsimp only at rest
    have hcons : compactGates persist frees k (g :: gs) a = (g.rename a.nid out :: ngs, c) := by
      simp only [compactGates, hg, hc]
    have hk : k + (g :: gs).length = k + 1 + gs.length := by simp only [List.length_cons]; omega
    rw [hcons]
    refine ⟨?_, ⟨?_, rest.well_scoped⟩, ?_, ?_, ?_, ?_, ?_, ?_⟩
    · rw [hk, Shape.defined_cons, Shape.defined_cons]
      exact rest.allocated
    · intro w hw
      rw [gateShape_reads, Gate.rename_reads] at hw
      obtain ⟨v, hv, rfl⟩ := List.mem_map.mp hw
      exact h.nid_mem v (hs.1 v hv)
    · simpa using ⟨Gate.rename_canonical _ _ _, rest.canonical⟩
    · have hlt : out < c.next :=
        UInt32.lt_of_lt_of_le ht.out_lt (UInt32.le_iff_toNat_le.mpr rest.le_next)
      simpa using ⟨⟨ht.out_ge, hlt⟩, rest.range⟩
    · exact Nat.le_trans hle rest.le_next
    · have := rest.next_le
      simp only [List.length_cons]
      omega
    · simp [rest.length_eq]
    · intro Wire ops e e' hag
      rw [hk, Shape.defined_cons, Machine.run_cons, Machine.run_cons]
      apply rest.agrees
      refine hag.exec ?_ (gateMachine_rename ops a.nid out g e') ?_ ?_
      · exact fun w hw => ⟨hs.1 w hw, Or.inr (hl.1 w hw)⟩
      · simp only [hnid]
        exact Function.update_self _ _ _
      · intro w hw hne
        have hlive := live_insert hne (live_succ hw)
        refine ⟨hlive, ?_, ht.out_dead w hlive⟩
        rw [hnid]
        exact Function.update_of_ne hne _ _

end Allocation

theorem persistMask_inputs (dense : BooleanProgram) (target : WireReuse) :
    ∀ w, w < dense.numInputs → persistMask dense target w = true := by
  intro w hw
  have hm := mem_wireIds.mpr hw
  unfold persistMask
  split <;> simp [Table.mark_iff, hm]

theorem persistMask_outputs {dense : BooleanProgram} (hv : Valid dense) (target : WireReuse) :
    ∀ w ∈ dense.outputs, persistMask dense target w = true := by
  intro w hw
  rw [persistMask, hv.filter_outputs]
  split <;> simp [Table.mark_iff, hw]

theorem freesTable_spec (dense : BooleanProgram) (lastUse : UInt32 → Int) (persist : UInt32 → Bool)
    (k : Nat) : (freesTable dense lastUse persist k).Nodup ∧
      ∀ w ∈ freesTable dense lastUse persist k, lastUse w = k ∧ persist w = false := by
  rw [freesTable, Table.group_apply]
  refine ⟨(nodup_wireIds _).filter _, fun w hw => ?_⟩
  have hkey := (List.mem_filter.mp hw).2
  simp only [decide_eq_true_eq] at hkey
  split at hkey
  · next h => exact ⟨by have := Option.some.inj hkey; omega, h.2⟩
  · exact absurd hkey (by simp)

theorem start_allocated (n : UInt32) (persist : UInt32 → Bool) (lastUse : UInt32 → Int)
    (table : UInt32 → UInt32) :
    Allocated n persist lastUse 0 {w | w < n} {w | w < n}
      ⟨(numberInputs n table).1, (numberInputs n table).2, []⟩ := by
  obtain ⟨hnext, hnid⟩ := numberInputs_spec n table
  have own : ∀ w, w < n → (numberInputs n table).1 w = w := fun w hw => by rw [hnid, if_pos hw]
  refine ⟨fun v hv w hw he => ?_, List.nodup_nil, by simp, by simp, fun w hw => ?_,
    fun w hw => ?_, fun w hw hn => ?_, by simp [hnext]⟩
  · simpa only [own v hv.1, own w hw.1] using he
  · change (numberInputs n table).1 w < (numberInputs n table).2
    rw [own w hw, hnext]
    exact hw
  · change (numberInputs n table).1 w < n
    rw [own w hw]
    exact hw
  · change n ≤ (numberInputs n table).1 w
    rwa [own w hw]

theorem makeCompact_eq {p : BooleanProgram} {target : WireReuse} {live : LivenessStats}
    (hlive : livenessPass p = .ok live) {r : CompactResult} (h : makeCompact p target = .ok r) :
    r = renumber p target live := by
  simp only [makeCompact, bind_eq_ok, pure_eq_ok, hlive] at h
  obtain ⟨_, -, _, -, _, -, _, hl, _, -, hr⟩ := h
  rw [← hr, Except.ok.inj hl]

theorem start_room {p : BooleanProgram} (hv : Valid p) (hd : p.wireReuse = .none)
    (table : UInt32 → UInt32) :
    (numberInputs p.numInputs table).2.toNat + p.gates.length < 2 ^ 32 := by
  have hcount := hv.dense_count hd
  have hle := UInt32.le_iff_toNat_le.mp hv.inputs_le
  have hlt := p.numWires.toNat_lt
  rw [(numberInputs_spec p.numInputs table).1]
  omega

theorem renumber_run {p : BooleanProgram} (hv : Valid p) (hd : p.wireReuse = .none)
    (target : WireReuse) (live : LivenessStats) :
    ∃ ngs b, compactGates (persistMask p target)
        (freesTable p live.lastUse (persistMask p target)) 0 p.gates
        ⟨(numberInputs p.numInputs fun _ => 4294967295).1,
          (numberInputs p.numInputs fun _ => 4294967295).2, []⟩ = (ngs, b) ∧
      renumber p target live =
        ⟨⟨b.next, p.numInputs, target, ngs, p.outputs.map b.nid⟩, b.nid⟩ := by
  refine ⟨_, _, rfl, ?_⟩
  simp only [renumber, hv.take_numGate hd]

theorem makeCompact_spec {p : BooleanProgram} (hv : Valid p) (hd : p.wireReuse = .none)
    {target : WireReuse} (ht : target ≠ .none) :
    ∃ r, makeCompact p target = .ok r ∧ r.prog.wireReuse = target ∧
      r.prog.numInputs = p.numInputs ∧ Valid r.prog ∧
      ∀ {Wire : Type} [Inhabited Wire] (ops : GateOps Wire) (inputs : List Wire),
        r.prog.evaluate ops inputs = p.evaluate ops inputs := by
  obtain ⟨live, hlive, hlu⟩ := livenessPass_spec hv hd
  obtain ⟨hnext, hnid⟩ := numberInputs_spec p.numInputs fun _ => 4294967295
  have hfrees := freesTable_spec p live.lastUse (persistMask p target)
  have H := compactGates_spec (persistMask_inputs p target) (fun k => (hfrees k).2)
    (fun k => (hfrees k).1) p.gates
    (start_allocated p.numInputs (persistMask p target) live.lastUse fun _ => 4294967295)
    hv.well_scoped (hv.single hd) hlu (start_room hv hd _)
  obtain ⟨ngs, b, hr, hren⟩ := renumber_run hv hd target live
  rw [hr] at H
  dsimp only at H
  have outLive : ∀ w ∈ p.outputs, w ∈ Live (persistMask p target) live.lastUse
      (0 + p.gates.length) (gateShape.defined p.inputs p.gates) := fun w hw =>
    ⟨hv.outputs_defined w hw, Or.inl (persistMask_outputs hv target w hw)⟩
  have valid : Valid (renumber p target live).prog := by
    rw [hren]
    refine ⟨?_, fun hn => absurd hn ht, fun _ => ?_, H.canonical, H.range, H.well_scoped,
      fun hn => absurd hn ht, ?_⟩
    · exact H.allocated.n_le
    · have h1 := H.next_le
      rw [hnext] at h1
      simpa only [H.length_eq] using h1
    · intro w hw
      obtain ⟨v, hv', rfl⟩ := List.mem_map.mp hw
      exact H.allocated.nid_mem v (outLive v hv').1
  refine ⟨renumber p target live, ?_, by rw [hren], by rw [hren], valid, ?_⟩
  · simp [makeCompact, ht, hd, validateProgram_ok_iff.mpr hv, hlive,
      validateProgram_ok_iff.mpr valid]
  · intro Wire _ ops inputs
    have start : Agrees (Live (persistMask p target) live.lastUse 0 {w | w < p.numInputs})
        (numberInputs p.numInputs fun _ => 4294967295).1 (inputEnv inputs) (inputEnv inputs) := by
      intro w hw
      have hw' : w < p.numInputs := hw.1
      rw [hnid, if_pos hw']
    have fin := H.agrees ops _ _ start
    rw [hren]
    simp only [BooleanProgram.evaluate, List.map_map]
    exact List.map_congr_left fun w hw => fin w (outLive w hw)

theorem make_compact_preserves_outputs {p : BooleanProgram} (hv : validateProgram p = .ok ())
    (hd : p.wireReuse = .none) {target : WireReuse} (ht : target = .linear ∨ target = .full) :
    ∃ r, makeCompact p target = .ok r ∧ r.prog.wireReuse = target ∧
      validateProgram r.prog = .ok () ∧
      ∀ {Wire : Type} [Inhabited Wire] (ops : GateOps Wire) (inputs : List Wire),
        inputs.length = p.numInputs.toNat → ∃ outs,
          executeProgram (m := Id) ops.context p inputs = .ok outs ∧
          executeProgram (m := Id) ops.context r.prog inputs = .ok outs := by
  have valid := validateProgram_ok_iff.mp hv
  have hne : target ≠ .none := by rcases ht with rfl | rfl <;> simp
  obtain ⟨r, hr, hreuse, hn, hv', heval⟩ := makeCompact_spec valid hd hne
  refine ⟨r, hr, hreuse, validateProgram_ok_iff.mpr hv', fun ops inputs hin =>
    ⟨p.evaluate ops inputs, executeProgram_eq valid ops hin, ?_⟩⟩
  rw [executeProgram_eq hv' ops (by rw [hn]; exact hin), heval]

def denseSample : BooleanProgram where
  numWires := 5
  numInputs := 2
  gates := [⟨0, 1, 2, .xor⟩, ⟨2, 0, 3, .not⟩, ⟨0, 3, 4, .and⟩]
  outputs := [4]

theorem make_compact_preserves_outputs_denseSample :
    ∃ r, makeCompact denseSample .linear = .ok r ∧ r.prog.wireReuse = .linear ∧
      validateProgram r.prog = .ok () ∧
      ∀ {Wire : Type} [Inhabited Wire] (ops : GateOps Wire) (inputs : List Wire),
        inputs.length = 2 → ∃ outs,
          executeProgram (m := Id) ops.context denseSample inputs = .ok outs ∧
          executeProgram (m := Id) ops.context r.prog inputs = .ok outs :=
  make_compact_preserves_outputs (by rfl) rfl (Or.inl rfl)

end EmpTool.Ir
