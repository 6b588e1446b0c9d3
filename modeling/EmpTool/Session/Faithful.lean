import EmpTool.Library.Checked
import EmpTool.Session.Coherence
import EmpTool.Session.KeepLists

namespace EmpTool.Session

open Ir StraightLine

def Stops (m : String) : Prop := m ∈ sessionStops

instance (m : String) : Decidable (Stops m) := inferInstanceAs (Decidable (m ∈ sessionStops))

-- `val` gives every id its bit in the clear, also to one that is stale, and to the ids of `R`,
-- which are not authenticated yet, those of their inputs
structure Faithful (R : Set (UInt32 × Bool)) (s : ChunkedSession) (σ : PlainState)
    (val : UInt32 → Bool) : Prop where
  recorded : Recorded s.ctx.chunkGates
  out_bound : ∀ g ∈ s.ctx.chunkGates, g.out < s.ctx.nextId
  pending_iff : ∀ id, s.ctx.pending id = true ↔ id ∈ s.ctx.chunkGates.map Gate.out
  solves : (gateMachine bitOps).Solves val s.ctx.chunkGates
  carried : ∀ id b, s.carried id = some b → b = val id ∧ id < s.ctx.nextId
  const : ∀ v o, s.ctx.constWire v = some o → val o = v ∧ o ≠ 0 ∧ o < s.ctx.nextId
  handles : ∀ h id, s.wires h = some id → id < s.ctx.nextId
  values : ∀ h, σ h = (s.wires h).map fun id => if id = 0 then none else some (val id)
  reserved : ∀ p ∈ R, p.1 < s.ctx.nextId ∧ val p.1 = p.2
  next_pos : s.ctx.nextId ≠ 0

section Recorder

variable {c : ChunkRecorderCtx}

theorem checked_expecting {p : Prop} [Decidable p] {m : String} (hm : Stops m) :
    Checked Stops (fun _ => p) (expecting p m) := by
  unfold expecting
  split
  case isTrue h => exact h
  case isFalse => exact hm

theorem checked_addInt (a b : Int) : Checked Stops (fun _ => True) (addInt a b) :=
  Checked.bind (checked_expecting (by decide)) fun _ _ => trivial

def Recounted (c c' : ChunkRecorderCtx) : Prop := ∃ rc, c' = { c with rc }

theorem Recounted.trans {c₁ c₂ c₃ : ChunkRecorderCtx} (h : Recounted c₁ c₂)
    (h' : Recounted c₂ c₃) : Recounted c₁ c₃ := by
  obtain ⟨rc, rfl⟩ := h
  obtain ⟨rc', rfl⟩ := h'
  exact ⟨rc', rfl⟩

theorem checked_pin (c : ChunkRecorderCtx) (id : UInt32) :
    Checked Stops (Recounted c) (c.pin id) := by
  unfold ChunkRecorderCtx.pin
  split
  · exact ⟨c.rc, rfl⟩
  · exact Checked.bind (checked_addInt _ _) fun n _ => ⟨_, rfl⟩

theorem checked_unpin (c : ChunkRecorderCtx) (id : UInt32) :
    Checked Stops (Recounted c) (c.unpin id) := by
  unfold ChunkRecorderCtx.unpin
  split
  · exact ⟨c.rc, rfl⟩
  · exact Checked.bind (checked_addInt _ _) fun n _ => ⟨_, rfl⟩

theorem checked_pinAll (ids : List UInt32) (c : ChunkRecorderCtx) :
    Checked Stops (Recounted c) (ChunkRecorderCtx.pinAll ids c) := by
  induction ids generalizing c with
  | nil => exact ⟨c.rc, rfl⟩
  | cons id ids ih =>
    exact Checked.bind (checked_pin c id) fun c₁ h => (ih c₁).mono fun c₂ h' => h.trans h'

theorem checked_unpinAll (ids : List UInt32) (c : ChunkRecorderCtx) :
    Checked Stops (Recounted c) (ChunkRecorderCtx.unpinAll ids c) := by
  induction ids generalizing c with
  | nil => exact ⟨c.rc, rfl⟩
  | cons id ids ih =>
    exact Checked.bind (checked_unpin c id) fun c₁ h => (ih c₁).mono fun c₂ h' => h.trans h'

theorem checked_allocId (c : ChunkRecorderCtx) :
    Checked Stops (fun r => c.nextId ≠ 0xFFFFFFFF ∧ r.1 = c.nextId ∧
      ∃ rc, r.2 = { c with rc, nextId := c.nextId + 1 }) c.allocId :=
  Checked.bind (checked_expecting (by decide)) fun _ h => ⟨h, rfl, _, rfl⟩

end Recorder

namespace Faithful

variable {R : Set (UInt32 × Bool)} {s : ChunkedSession} {σ : PlainState} {val : UInt32 → Bool}

theorem recount (h : Faithful R s σ val) {c : ChunkRecorderCtx} (hc : Recounted s.ctx c)
    (numAnd : Nat) : Faithful R { s with ctx := c, numAnd } σ val := by
  obtain ⟨rc, rfl⟩ := hc
  exact ⟨h.recorded, h.out_bound, h.pending_iff, h.solves, h.carried, h.const, h.handles, h.values,
    h.reserved, h.next_pos⟩

theorem extend (h : Faithful R s σ val) (next : UInt32) {val' : UInt32 → Bool}
    (hle : s.ctx.nextId ≤ next) (hval : ∀ id < s.ctx.nextId, val' id = val id)
    (rc : UInt32 → Int) :
    Faithful R { s with ctx := { s.ctx with rc, nextId := next } } σ val' where
  recorded := h.recorded
  out_bound g hg := UInt32.lt_of_lt_of_le (h.out_bound g hg) hle
  pending_iff := h.pending_iff
  solves g hg := by
    have hreads : ∀ w ∈ (gateMachine bitOps).reads g, val w = val' w := fun w hw =>
      (hval w (UInt32.lt_trans (h.recorded.reads_lt g hg w hw) (h.out_bound g hg))).symm
    rw [← (gateMachine bitOps).value_congr hreads]
    exact (hval g.out (h.out_bound g hg)).trans (h.solves g hg)
  carried id b hb := by
    obtain ⟨rfl, hlt⟩ := h.carried id b hb
    exact ⟨(hval id hlt).symm, UInt32.lt_of_lt_of_le hlt hle⟩
  const v o ho := by
    obtain ⟨hv, h0, hlt⟩ := h.const v o ho
    exact ⟨(hval o hlt).trans hv, h0, UInt32.lt_of_lt_of_le hlt hle⟩
  handles x id hx := UInt32.lt_of_lt_of_le (h.handles x id hx) hle
  values x := by
    rw [h.values]
    refine Option.map_congr fun id hid => ?_
    rw [hval id (h.handles x id hid)]
  reserved p hp := by
    obtain ⟨hlt, hv⟩ := h.reserved p hp
    exact ⟨UInt32.lt_of_lt_of_le hlt hle, (hval p.1 hlt).trans hv⟩
  next_pos h0 := by
    have hpos := h.next_pos
    subst h0
    exact hpos (UInt32.toNat_inj.mp (Nat.le_zero.mp (UInt32.le_iff_toNat_le.mp hle)))

theorem update (h : Faithful R s σ val) {c : ChunkRecorderCtx} (hc : Recounted s.ctx c) (x : Nat)
    {v : Option UInt32} (hv : ∀ id, v = some id → id < s.ctx.nextId) :
    Faithful R { s with ctx := c, wires := Function.update s.wires x v }
      (Function.update σ x (v.map fun id => if id = 0 then none else some (val id))) val := by
  obtain ⟨rc, rfl⟩ := hc
  refine ⟨h.recorded, h.out_bound, h.pending_iff, h.solves, h.carried, h.const, fun y id hy => ?_,
    fun y => ?_, h.reserved, h.next_pos⟩
  · change Function.update s.wires x v y = some id at hy
    by_cases hyx : y = x
    · subst hyx
      rw [Function.update_self] at hy
      exact hv id hy
    · rw [Function.update_of_ne hyx] at hy
      exact h.handles y id hy
  · change _ = (Function.update s.wires x v y).map _
    by_cases hyx : y = x
    · subst hyx
      rw [Function.update_self, Function.update_self]
    · rw [Function.update_of_ne hyx, Function.update_of_ne hyx]
      exact h.values y

theorem wire (h : Faithful R s σ val) {x : Nat} {v : Option Bool} (hx : σ x = some v) :
    s.wires x = some (s.id x) ∧ s.id x < s.ctx.nextId ∧
      v = if s.id x = 0 then none else some (val (s.id x)) := by
  rw [h.values] at hx
  obtain ⟨id, hid, hv⟩ := Option.map_eq_some_iff.mp hx
  rw [ChunkedSession.id, hid, Option.getD_some]
  exact ⟨rfl, h.handles x id hid, hv.symm⟩

theorem read (h : Faithful R s σ val) {x : Nat} {b : Bool} (hx : plainBit σ x = some b) :
    s.id x < s.ctx.nextId ∧ val (s.id x) = b := by
  obtain ⟨-, hlt, hv⟩ := h.wire (Option.join_eq_some_iff.mp hx)
  split at hv
  case isTrue => cases hv
  case isFalse => exact ⟨hlt, (Option.some.inj hv).symm⟩

theorem readAll (h : Faithful R s σ val) {value : List Nat} {bits : List Bool}
    (hv : value.mapM (plainBit σ) = some bits) : (value.map s.id).map val = bits := by
  induction value generalizing bits with
  | nil => exact Option.some.inj hv
  | cons x value ih =>
    simp only [List.mapM_cons, Option.bind_eq_bind, Option.bind_eq_some_iff] at hv
    obtain ⟨b, hb, bs, hbs, hout⟩ := hv
    rw [List.map_cons, List.map_cons, (h.read hb).2, ih hbs]
    exact Option.some.inj hout

theorem construct (h : Faithful R s σ val) (dst : Nat) {id : UInt32} (hid : id < s.ctx.nextId) :
    Checked Stops (fun s' => Faithful R s'
        (Function.update σ dst (some (if id = 0 then none else some (val id)))) val)
      (s.construct dst (id, s.ctx)) := by
  refine Checked.bind (checked_pin s.ctx id) fun c hc => ?_
  exact h.update hc dst (v := some id) fun i hi => Option.some.inj hi ▸ hid

theorem copy (h : Faithful R s σ val) {dst src : Nat} {v : Option Bool} (hs : σ src = some v) :
    Checked Stops (fun s' => Faithful R s' (Function.update σ dst (some v)) val)
      (s.copy dst src) := by
  obtain ⟨-, hlt, rfl⟩ := h.wire hs
  exact h.construct dst hlt

theorem transfer (h : Faithful R s σ val) (dst : Nat) {src : Nat} {v : Option Bool}
    (hs : σ src = some v) {c : ChunkRecorderCtx} (hc : Recounted s.ctx c) :
    Faithful R { s with
        ctx := c
        wires := Function.update (Function.update s.wires dst (some (s.id src))) src (some 0) }
      (Function.update (Function.update σ dst (some v)) src (some none)) val := by
  obtain ⟨-, hlt, rfl⟩ := h.wire hs
  have first := h.update hc dst (v := some (s.id src)) fun i hi => Option.some.inj hi ▸ hlt
  refine first.update ⟨c.rc, rfl⟩ src (v := some 0) fun i hi => ?_
  obtain rfl := Option.some.inj hi
  exact UInt32.pos_iff_ne_zero.mpr first.next_pos

theorem move (h : Faithful R s σ val) {dst src : Nat} {v : Option Bool} (hs : σ src = some v) :
    Faithful R (s.move dst src)
      (Function.update (Function.update σ dst (some v)) src (some none)) val := by
  have moved := h.transfer dst hs ⟨s.ctx.rc, rfl⟩
  rw [← (h.wire hs).1] at moved
  exact moved

theorem copyAssign (h : Faithful R s σ val) {dst src : Nat} {u v : Option Bool}
    (hd : σ dst = some u) (hs : σ src = some v) :
    Checked Stops (fun s' => Faithful R s' (Function.update σ dst (some v)) val)
      (s.copyAssign dst src) := by
  obtain ⟨-, hlt, rfl⟩ := h.wire hs
  unfold ChunkedSession.copyAssign
  by_cases hne : s.id dst ≠ s.id src
  · rw [if_pos hne]
    refine Checked.bind (checked_unpin s.ctx (s.id dst)) fun c hc => ?_
    refine Checked.bind (checked_pin c (s.id src)) fun c' hc' => ?_
    exact h.update (hc.trans hc') dst (v := some (s.id src)) fun i hi => Option.some.inj hi ▸ hlt
  · obtain ⟨-, -, rfl⟩ := h.wire hd
    rw [if_neg hne]
    refine Checked.pure ?_
    rw [← not_not.mp hne, ← hd, Function.update_eq_self]
    exact h

theorem moveAssign (h : Faithful R s σ val) {dst src : Nat} {v : Option Bool}
    (hs : σ src = some v) :
    Checked Stops (fun s' => Faithful R s' (if dst = src then σ
      else Function.update (Function.update σ dst (some v)) src (some none)) val)
      (s.moveAssign dst src) := by
  unfold ChunkedSession.moveAssign
  by_cases hne : dst ≠ src
  · rw [if_pos hne, if_neg hne]
    exact Checked.bind (checked_unpin s.ctx (s.id dst)) fun c hc => h.transfer dst hs hc
  · rw [if_neg hne, if_pos (not_not.mp hne)]
    exact h

theorem destroy (h : Faithful R s σ val) (x : Nat) :
    Checked Stops (fun s' => Faithful R s' (Function.update σ x none) val) (s.destroy x) := by
  refine Checked.bind (checked_unpin s.ctx (s.id x)) fun c hc => ?_
  exact h.update hc x (v := none) nofun

theorem recordGate (h : Faithful R s σ val) (hroom : s.ctx.nextId ≠ 0xFFFFFFFF) {g : Gate}
    (ho : g.out = s.ctx.nextId) (hr : ∀ w ∈ g.reads, w < s.ctx.nextId) (rc : UInt32 → Int) :
    Faithful R
      { s with ctx := ChunkRecorderCtx.append { s.ctx with rc, nextId := s.ctx.nextId + 1 } g }
      σ (Function.update val s.ctx.nextId ((gateMachine bitOps).value g val)) := by
  obtain ⟨hsucc, hlt⟩ := nextId_succ hroom
  have hself : s.ctx.nextId < s.ctx.nextId + 1 := by
    rw [UInt32.lt_iff_toNat_lt]
    omega
  have hval : ∀ id < s.ctx.nextId, Function.update val s.ctx.nextId
      ((gateMachine bitOps).value g val) id = val id := fun id hid =>
    Function.update_of_ne (UInt32.ne_of_lt hid) _ _
  have grown := h.extend (s.ctx.nextId + 1) (UInt32.le_of_lt hself) hval rc
  refine ⟨⟨?_, ?_, ?_⟩, ?_, ?_, ?_, grown.carried, grown.const, grown.handles, grown.values,
    grown.reserved, grown.next_pos⟩
  · refine List.pairwise_append.mpr ⟨h.recorded.increasing, by simp, fun a ha b hb => ?_⟩
    rw [List.mem_singleton.mp hb, ho]
    exact h.out_bound a ha
  · intro a ha w hw
    rcases List.mem_append.mp ha with ha | ha
    · exact h.recorded.reads_lt a ha w hw
    · rw [List.mem_singleton.mp ha] at hw ⊢
      rw [ho]
      exact hr w hw
  · intro a ha
    rcases List.mem_append.mp ha with ha | ha
    · exact h.recorded.out_lt a ha
    · rw [List.mem_singleton.mp ha, ho]
      exact hlt
  · intro a ha
    rcases List.mem_append.mp ha with ha | ha
    · exact UInt32.lt_trans (h.out_bound a ha) hself
    · rw [List.mem_singleton.mp ha, ho]
      exact hself
  · intro id
    simp only [ChunkRecorderCtx.append, Function.update_apply, List.map_append, List.mem_append,
      ← h.pending_iff, List.map_cons, List.map_nil, List.mem_singleton]
    split <;> simp_all
  · intro a ha
    rcases List.mem_append.mp ha with ha | ha
    · exact grown.solves a ha
    · rw [List.mem_singleton.mp ha]
      have hreads : ∀ w ∈ (gateMachine bitOps).reads g, Function.update val s.ctx.nextId
          ((gateMachine bitOps).value g val) w = val w := fun w hw =>
        Function.update_of_ne (UInt32.ne_of_lt (hr w hw)) _ _
      rw [(gateMachine bitOps).value_congr hreads]
      change Function.update val s.ctx.nextId _ g.out = _
      rw [ho, Function.update_self]

end Faithful

end EmpTool.Session
