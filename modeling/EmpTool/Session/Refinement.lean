import EmpTool.Session.Coherence
import EmpTool.Session.Plaintext

namespace EmpTool.Session

open Ir StraightLine

def wireBit (gs : List Gate) (carried : Carried) (id : UInt32) : Option Bool :=
  if id = 0 then none else some (wireValue gs carried id)

structure Refines (s : ChunkedSession) (σ : PlainState) : Prop where
  coherent : Coherent s.ctx s.carried
  finite : {h | s.wires h ≠ none}.Finite
  counted : ∀ id, s.ctx.rc id = if id = 0 then 0 else (handleCount s.wires id : Int)
  bounded : ∀ id, s.ctx.rc id < 2 ^ 31
  known : ∀ h id, s.wires h = some id → id ≠ 0 → id ∈ Known s.ctx s.carried
  values : ∀ h, σ h = (s.wires h).map (wireBit s.ctx.chunkGates s.carried)

namespace Refines

variable {s : ChunkedSession} {σ : PlainState} (h : Refines s σ)

include h

theorem rc_nonneg (id : UInt32) : 0 ≤ s.ctx.rc id := Counted.nonneg h.counted id

theorem rc_fresh {id : UInt32} (hid : s.ctx.nextId ≤ id) : s.ctx.rc id = 0 := by
  refine Counted.eq_zero h.counted fun h0 x hx => ?_
  exact UInt32.not_le.mpr (h.coherent.known_bound (h.known x id hx h0)).2 hid

theorem rc_pos {x : Nat} {id : UInt32} (hx : s.wires x = some id) (h0 : id ≠ 0) :
    0 < s.ctx.rc id :=
  (Counted.pos_iff h.counted h.finite h0).mpr ⟨x, hx⟩

theorem wire_of_some {x : Nat} {v : Option Bool} (hx : σ x = some v) :
    s.wires x = some (s.id x) ∧ wireBit s.ctx.chunkGates s.carried (s.id x) = v := by
  rw [h.values] at hx
  obtain ⟨id, hid, hv⟩ := Option.map_eq_some_iff.mp hx
  rw [ChunkedSession.id, hid, Option.getD_some]
  exact ⟨rfl, hv⟩

theorem wire_of_none {x : Nat} (hx : σ x = none) : s.wires x = none := by
  rw [h.values] at hx
  exact Option.map_eq_none_iff.mp hx

theorem read {x : Nat} {b : Bool} (hx : plainBit σ x = some b) :
    s.id x ≠ 0 ∧ s.id x ∈ Known s.ctx s.carried ∧
      wireValue s.ctx.chunkGates s.carried (s.id x) = b := by
  obtain ⟨hw, hv⟩ := h.wire_of_some (Option.join_eq_some_iff.mp hx)
  have h0 : s.id x ≠ 0 := fun h0 => by simp [wireBit, h0] at hv
  rw [wireBit, if_neg h0, Option.some.injEq] at hv
  exact ⟨h0, h.known x _ hw h0, hv⟩

theorem read_all {value : List Nat} {bits : List Bool} (hv : value.mapM (plainBit σ) = some bits) :
    (∀ x ∈ value, s.id x ≠ 0 ∧ s.id x ∈ Known s.ctx s.carried) ∧
      bits = (value.map s.id).map (wireValue s.ctx.chunkGates s.carried) := by
  induction value generalizing bits with
  | nil =>
    rw [List.mapM_nil] at hv
    exact ⟨by simp, (Option.some.inj hv).symm⟩
  | cons x value ih =>
    simp only [List.mapM_cons, Option.bind_eq_bind, Option.bind_eq_some_iff] at hv
    obtain ⟨b, hb, bs, hbs, hout⟩ := hv
    obtain ⟨h0, hk, hbv⟩ := h.read hb
    obtain ⟨hall, rfl⟩ := ih hbs
    refine ⟨List.forall_mem_cons.mpr ⟨⟨h0, hk⟩, hall⟩, ?_⟩
    rw [List.map_cons, List.map_cons, hbv]
    exact (Option.some.inj hout).symm

theorem update (x : Nat) (v : Option UInt32) (rc : UInt32 → Int)
    (hv : ∀ id, v = some id → id ≠ 0 → id ∈ Known s.ctx s.carried)
    (hrc : ∀ id, rc id = s.ctx.rc id + held v id - held (s.wires x) id)
    (hb : ∀ id, rc id < 2 ^ 31) :
    Refines { s with ctx := { s.ctx with rc }, wires := Function.update s.wires x v }
      (Function.update σ x (v.map (wireBit s.ctx.chunkGates s.carried))) where
  coherent := h.coherent.repinned rc
  finite := finite_update h.finite x v
  counted := Counted.update h.counted h.finite x v hrc
  bounded := hb
  known y id hy h0 := by
    simp only [Function.update_apply] at hy
    split at hy
    · exact hv id hy h0
    · exact h.known y id hy h0
  values y := by
    simp only [Function.update_apply]
    split
    · rfl
    · exact h.values y

end Refines

structure Grows (c : ChunkRecorderCtx) (carried : Carried) (c' : ChunkRecorderCtx)
    (carried' : Carried) : Prop where
  coherent : Coherent c' carried'
  known : Known c carried ⊆ Known c' carried'
  value : ∀ id ∈ Known c carried, wireValue c'.chunkGates carried' id =
    wireValue c.chunkGates carried id

theorem Refines.grow {s : ChunkedSession} {σ : PlainState} (h : Refines s σ)
    {c : ChunkRecorderCtx} {carried : Carried} (hg : Grows s.ctx s.carried c carried)
    (hrc : ∀ id, c.rc id = s.ctx.rc id) (numAnd : Nat) :
    Refines { s with ctx := c, carried, numAnd } σ where
  coherent := hg.coherent
  finite := h.finite
  counted id := (hrc id).trans (h.counted id)
  bounded id := (hrc id).trans_lt (h.bounded id)
  known x id hx h0 := hg.known (h.known x id hx h0)
  values x := by
    rw [h.values]
    refine Option.map_congr fun id hid => ?_
    simp only [wireBit]
    split
    · rfl
    · rename_i h0
      rw [hg.value id (h.known x id hid h0)]

section Handles

variable {s : ChunkedSession} {σ : PlainState} (h : Refines s σ)

include h

theorem Refines.construct {dst : Nat} {id : UInt32} (hd : σ dst = none)
    (hid : id ≠ 0 → id ∈ Known s.ctx s.carried) (hp : s.ctx.rc id + 1 < 2 ^ 31) :
    ∃ s', s.construct dst (id, s.ctx) = .ok s' ∧
      Refines s' (Function.update σ dst (some (wireBit s.ctx.chunkGates s.carried id))) := by
  simp only [ChunkedSession.construct, bind_eq_ok, pure_eq_ok]
  refine ⟨_, ⟨_, ChunkRecorderCtx.pin_ok (h.rc_nonneg id) hp, rfl⟩,
    h.update dst (some id) _ (fun i hi => Option.some.inj hi ▸ hid) (fun x => ?_) fun x => ?_⟩
  · rw [h.wire_of_none hd, held_none, held_some, sub_zero]
  · by_cases hx : x = id ∧ id ≠ 0
    · rw [if_pos hx, hx.1]
      exact hp
    · rw [if_neg hx, add_zero]
      exact h.bounded x

theorem Refines.copy {dst src : Nat} {v : Option Bool} (hs : σ src = some v) (hd : σ dst = none)
    (hp : s.PinRoom [s.id src]) :
    ∃ s', s.copy dst src = .ok s' ∧ Refines s' (Function.update σ dst (some v)) := by
  obtain ⟨hw, rfl⟩ := h.wire_of_some hs
  exact h.construct hd (h.known src _ hw) (by simpa [ChunkedSession.PinRoom] using hp)

theorem Refines.transfer {dst src : Nat} {v : Option Bool} (hs : σ src = some v) (hne : dst ≠ src)
    (rc : UInt32 → Int)
    (hrc : ∀ id, rc id = s.ctx.rc id - held (s.wires dst) id) :
    Refines { s with
        ctx := { s.ctx with rc }
        wires := Function.update (Function.update s.wires dst (some (s.id src))) src (some 0) }
      (Function.update (Function.update σ dst (some v)) src (some none)) := by
  obtain ⟨hw, rfl⟩ := h.wire_of_some hs
  -- the source lets go first, so that no count rises above its bound on the way
  have first := h.update src (some 0) _ (fun id hid h0 => absurd (Option.some.inj hid).symm h0)
    (fun id => rfl) fun id => by
      have hb := h.bounded id
      have hheld := held_bounds (s.wires src) id
      rw [held_moved]
      omega
  have second := first.update dst (some (s.id src)) rc
    (fun id hid => Option.some.inj hid ▸ h.known src _ hw)
    (fun id => by
      simp only [Function.update_of_ne hne, hrc, held_moved, hw]
      omega)
    fun id => by
      have hb := h.bounded id
      have hheld := held_bounds (s.wires dst) id
      rw [hrc]
      omega
  rw [Function.update_comm hne.symm, Function.update_comm hne.symm] at second
  exact second

theorem Refines.move {dst src : Nat} {v : Option Bool} (hs : σ src = some v) (hd : σ dst = none) :
    Refines (s.move dst src)
      (Function.update (Function.update σ dst (some v)) src (some none)) := by
  have hne : dst ≠ src := fun he => by simp [← he, hd] at hs
  have moved := h.transfer hs hne s.ctx.rc fun id => by simp [h.wire_of_none hd]
  rw [← (h.wire_of_some hs).1] at moved
  exact moved

theorem Refines.unpin {x : Nat} {v : Option Bool} (hx : σ x = some v) :
    s.ctx.unpin (s.id x) = .ok { s.ctx with
      rc := fun id => s.ctx.rc id - held (s.wires x) id } := by
  rw [ChunkRecorderCtx.unpin_ok (h.rc_nonneg _) (h.bounded _), (h.wire_of_some hx).1]
  congr 2
  funext id
  rw [held_some]

theorem Refines.copyAssign {dst src : Nat} {u v : Option Bool} (hd : σ dst = some u)
    (hs : σ src = some v) (hp : s.id dst ≠ s.id src → s.PinRoom [s.id src]) :
    ∃ s', s.copyAssign dst src = .ok s' ∧ Refines s' (Function.update σ dst (some v)) := by
  obtain ⟨hw, rfl⟩ := h.wire_of_some hs
  obtain ⟨hdw, rfl⟩ := h.wire_of_some hd
  unfold ChunkedSession.copyAssign
  split
  · rename_i hne
    have hp : s.ctx.rc (s.id src) + 1 < 2 ^ 31 := by simpa [ChunkedSession.PinRoom] using hp hne
    have hself : held (s.wires dst) (s.id src) = 0 := if_neg (by simp [hdw, hne])
    simp only [h.unpin hd, bind_eq_ok, pure_eq_ok]
    refine ⟨_, ⟨_, rfl, _, ChunkRecorderCtx.pin_ok ?_ ?_, rfl⟩, ?_⟩
    · simpa only [hself, sub_zero] using h.rc_nonneg _
    · simpa only [hself, sub_zero] using hp
    · refine h.update dst (some (s.id src)) _ (fun id hid => Option.some.inj hid ▸ h.known src _ hw)
        (fun id => ?_) fun id => ?_
      · simp only [held_some]
        omega
      · have hheld := held_bounds (s.wires dst) id
        have hb := h.bounded id
        simp only
        by_cases hx : id = s.id src ∧ s.id src ≠ 0
        · rw [if_pos hx, hx.1, hself, sub_zero]
          exact hp
        · rw [if_neg hx]
          omega
  · rename_i heq
    rw [ne_eq, not_not] at heq
    refine ⟨s, rfl, ?_⟩
    rw [← heq, ← hd, Function.update_eq_self]
    exact h

theorem Refines.moveAssign {dst src : Nat} {u v : Option Bool} (hd : σ dst = some u)
    (hs : σ src = some v) :
    ∃ s', s.moveAssign dst src = .ok s' ∧ Refines s' (if dst = src then σ
      else Function.update (Function.update σ dst (some v)) src (some none)) := by
  unfold ChunkedSession.moveAssign
  split
  · rename_i hne
    simp only [h.unpin hd, bind_eq_ok, pure_eq_ok]
    exact ⟨_, ⟨_, rfl, rfl⟩, h.transfer hs hne _ fun id => rfl⟩
  · rename_i heq
    rw [ne_eq, not_not] at heq
    rw [if_pos heq]
    exact ⟨s, rfl, h⟩

theorem Refines.destroy {x : Nat} {v : Option Bool} (hx : σ x = some v) :
    ∃ s', s.destroy x = .ok s' ∧ Refines s' (Function.update σ x none) := by
  simp only [ChunkedSession.destroy, h.unpin hx, bind_eq_ok, pure_eq_ok]
  refine ⟨_, ⟨_, rfl, rfl⟩, h.update x none _
    (fun id hid => absurd hid.symm (Option.some_ne_none id)) (fun id => by simp) fun id => ?_⟩
  have hb := h.bounded id
  have hheld := held_bounds (s.wires x) id
  omega

theorem Refines.valueIds {value : List Nat} (hv : ∀ x ∈ value, s.id x ≠ 0)
    (hp : s.PinRoom (value.map s.id)) : s.valueIds value = .ok (value.map s.id, s) := by
  have hpins := ChunkRecorderCtx.pinAll_unpinAll (c := s.ctx) (value.map s.id)
    (List.forall_mem_map.mpr hv) fun id hid => ⟨h.rc_nonneg id, hp id hid⟩
  obtain ⟨c, hpin, hunpin⟩ := bind_eq_ok.mp hpins
  simp only [ChunkedSession.valueIds, bind_eq_ok, pure_eq_ok]
  exact ⟨c, hpin, s.ctx, hunpin, rfl⟩

end Handles

section Gates

variable {s : ChunkedSession} {σ : PlainState} (h : Refines s σ)

theorem nextId_ne_of_room {s : ChunkedSession} (hroom : s.IdRoom 1) :
    s.ctx.nextId ≠ 0xFFFFFFFF := by
  intro he
  rw [ChunkedSession.IdRoom, he] at hroom
  simp only [UInt32.reduceToNat] at hroom
  omega

theorem record_ok {s : ChunkedSession} (hroom : s.IdRoom 1) (a b : UInt32) (op : Op) :
    s.ctx.record a b op = .ok (s.ctx.nextId, recordGate s.ctx ⟨a, b, s.ctx.nextId, op⟩) := by
  simp only [ChunkRecorderCtx.record, ChunkRecorderCtx.allocId, bind_eq_ok, pure_eq_ok,
    expecting_eq_ok]
  exact ⟨_, ⟨(), nextId_ne_of_room hroom, rfl⟩, rfl⟩

theorem Coherent.grows_recordGate {c : ChunkRecorderCtx} {carried : Carried}
    (h : Coherent c carried) (hn : c.nextId ≠ 0xFFFFFFFF) {g : Gate} (ho : g.out = c.nextId)
    (hr : ∀ w ∈ g.reads, w ∈ Known c carried) : Grows c carried (Session.recordGate c g) carried :=
  ⟨h.recordGate hn ho hr, (known_recordGate c carried g).symm ▸ Set.subset_insert _ _,
    (h.recordGate_value ho).1⟩

theorem Coherent.noteConst {c : ChunkRecorderCtx} {carried : Carried} (h : Coherent c carried)
    {v : Bool} {o : UInt32} (hg : constGate v o ∈ c.chunkGates) :
    Coherent { c with constWire := Function.update c.constWire v (some o) } carried :=
  { h with
    const_mem := fun u p hp => by
      simp only [Function.update_apply] at hp
      split at hp
      · rename_i hu
        rw [hu, ← Option.some.inj hp]
        exact hg
      · exact h.const_mem u p hp }

include h

theorem Refines.constructGrown {dst : Nat} (hd : σ dst = none) {c : ChunkRecorderCtx}
    (hg : Grows s.ctx s.carried c s.carried) (hrc : ∀ id, c.rc id = s.ctx.rc id) {o : UInt32}
    (ho : o ∈ Known c s.carried) {b : Bool} (hb : wireValue c.chunkGates s.carried o = b)
    (hp : s.ctx.rc o + 1 < 2 ^ 31) :
    ∃ s', s.construct dst (o, c) = .ok s' ∧ Refines s' (Function.update σ dst (some (some b))) := by
  have grown := h.grow hg hrc s.numAnd
  have h0 : o ≠ 0 := fun he => by
    have := (hg.coherent.known_bound ho).1
    simp [he] at this
  obtain ⟨s', hs', hR⟩ := grown.construct hd (fun _ => ho) (by rw [hrc]; exact hp)
  rw [wireBit, if_neg h0, hb] at hR
  exact ⟨s', hs', hR⟩

theorem Refines.rc_recordGate (g : Gate) (id : UInt32) :
    (Session.recordGate s.ctx g).rc id = s.ctx.rc id := by
  simp only [Session.recordGate, Function.update_apply]
  split
  · rename_i hid
    rw [hid, h.rc_fresh UInt32.le_rfl]
  · rfl

theorem Refines.constructGate {dst : Nat} (hd : σ dst = none) (hroom : s.IdRoom 1) {g : Gate}
    (ho : g.out = s.ctx.nextId) (hr : ∀ w ∈ g.reads, w ∈ Known s.ctx s.carried)
    {b : Bool} (hb : (gateMachine bitOps).value g (wireValue s.ctx.chunkGates s.carried) = b) :
    ∃ s', s.construct dst (s.ctx.nextId, Session.recordGate s.ctx g) = .ok s' ∧
      Refines s' (Function.update σ dst (some (some b))) := by
  refine h.constructGrown hd (h.coherent.grows_recordGate (nextId_ne_of_room hroom) ho hr)
    (h.rc_recordGate g) ?_ ?_ ?_
  · rw [known_recordGate, ← ho]
    exact Set.mem_insert _ _
  · rw [← hb, ← (h.coherent.recordGate_value ho).2, ho]
  · rw [h.rc_fresh UInt32.le_rfl]
    decide

theorem Refines.allocated {x : Nat} {b : Bool} (hx : plainBit σ x = some b) :
    s.ctx.requireAllocated (s.id x) = .ok () :=
  expecting_eq_ok.mpr (h.coherent.known_bound (h.read hx).2.1).2

theorem Refines.record {dst : Nat} (hd : σ dst = none) (hroom : s.IdRoom 1) (a b : UInt32) (op : Op)
    (hr : ∀ w ∈ (⟨a, b, s.ctx.nextId, op⟩ : Gate).reads, w ∈ Known s.ctx s.carried) {v : Bool}
    (hv : (gateMachine bitOps).value ⟨a, b, s.ctx.nextId, op⟩
      (wireValue s.ctx.chunkGates s.carried) = v) :
    ∃ r s', s.ctx.record a b op = .ok r ∧ s.construct dst r = .ok s' ∧
      Refines s' (Function.update σ dst (some (some v))) := by
  obtain ⟨s', hs', hR⟩ := h.constructGate hd hroom rfl hr hv
  exact ⟨_, s', record_ok hroom a b op, hs', hR⟩

theorem Refines.binary {dst a b : Nat} {x y : Bool} (op : Op) (f : Bool → Bool → Bool)
    (hreads : (⟨s.id a, s.id b, s.ctx.nextId, op⟩ : Gate).reads = [s.id a, s.id b])
    (hvalue : ∀ w, (gateMachine bitOps).value ⟨s.id a, s.id b, s.ctx.nextId, op⟩ w =
      f (w (s.id a)) (w (s.id b)))
    (hx : plainBit σ a = some x) (hy : plainBit σ b = some y) (hd : σ dst = none)
    (hroom : s.IdRoom 1) :
    ∃ r s', (do
        s.ctx.requireAllocated (s.id a)
        s.ctx.requireAllocated (s.id b)
        s.ctx.record (s.id a) (s.id b) op) = .ok r ∧ s.construct dst r = .ok s' ∧
      Refines s' (Function.update σ dst (some (some (f x y)))) := by
  obtain ⟨-, hxk, rfl⟩ := h.read hx
  obtain ⟨-, hyk, rfl⟩ := h.read hy
  have hknown : ∀ w ∈ (⟨s.id a, s.id b, s.ctx.nextId, op⟩ : Gate).reads,
      w ∈ Known s.ctx s.carried := by
    rw [hreads]
    exact List.forall_mem_cons.mpr ⟨hxk, List.forall_mem_singleton.mpr hyk⟩
  obtain ⟨r, s', hr, hs', hR⟩ := h.record hd hroom (s.id a) (s.id b) op hknown (hvalue _)
  refine ⟨r, s', ?_, hs', hR⟩
  exact bind_eq_ok.mpr ⟨(), h.allocated hx, bind_eq_ok.mpr ⟨(), h.allocated hy, hr⟩⟩

theorem Refines.publicBit {dst : Nat} {v : Bool} (hd : σ dst = none)
    (hroom : s.ctx.constWire v = none → s.IdRoom 1 ∧ s.GateRoom)
    (hp : ∀ o, s.ctx.constWire v = some o → s.PinRoom [o]) :
    ∃ r s', s.ctx.publicBit v = .ok r ∧ s.construct dst r = .ok s' ∧
      Refines s' (Function.update σ dst (some (some v))) := by
  unfold ChunkRecorderCtx.publicBit
  cases hc : s.ctx.constWire v with
  | some o =>
    obtain ⟨hk, hv⟩ := h.coherent.wireValue_const hc
    have hgrow : Grows s.ctx s.carried s.ctx s.carried :=
      ⟨h.coherent, Set.Subset.rfl, fun _ _ => rfl⟩
    obtain ⟨s', hs', hR⟩ := h.constructGrown hd hgrow (fun _ => rfl) hk hv
      (by simpa [ChunkedSession.PinRoom] using hp o hc)
    exact ⟨_, s', rfl, hs', hR⟩
  | none =>
    have hn := nextId_ne_of_room (hroom hc).1
    have hreads : ∀ w ∈ (constGate v s.ctx.nextId).reads, w ∈ Known s.ctx s.carried := by
      cases v <;> simp [constGate, Gate.reads]
    have grown := h.coherent.grows_recordGate hn rfl hreads
    have noted := grown.coherent.noteConst (List.mem_append_right _ (List.mem_singleton.mpr rfl))
    have hmem : s.ctx.nextId ∈ Known (recordGate s.ctx (constGate v s.ctx.nextId)) s.carried :=
      (known_recordGate s.ctx s.carried _).symm ▸ Set.mem_insert _ _
    have hval : wireValue (recordGate s.ctx (constGate v s.ctx.nextId)).chunkGates s.carried
        s.ctx.nextId = v := by
      refine (h.coherent.recordGate_value rfl).2.trans ?_
      cases v <;> rfl
    have hpin : s.ctx.rc s.ctx.nextId + 1 < 2 ^ 31 := by
      rw [h.rc_fresh UInt32.le_rfl]
      decide
    obtain ⟨s', hs', hR⟩ := h.constructGrown hd ⟨noted, grown.known, grown.value⟩
      (h.rc_recordGate (constGate v s.ctx.nextId)) hmem hval hpin
    refine ⟨_, s', ?_, hs', hR⟩
    simp only [ChunkRecorderCtx.allocId, bind_eq_ok, pure_eq_ok, expecting_eq_ok]
    exact ⟨_, ⟨(), hn, rfl⟩, rfl⟩

end Gates

section Values

variable {s : ChunkedSession} {σ σ' : PlainState}

theorem Refines.assign (h : Refines s σ) {dsts : List Nat} {ids : List UInt32}
    (hl : dsts.length = ids.length) (hn : dsts.Nodup) (he : ∀ d ∈ dsts, σ d = none)
    (hk : ∀ id ∈ ids, id ≠ 0 ∧ id ∈ Known s.ctx s.carried)
    (hb : ∀ id, s.ctx.rc id + ids.count id < 2 ^ 31) :
    Refines { s with
        ctx := { s.ctx with rc := fun id => s.ctx.rc id + ids.count id }
        wires := Table.assign s.wires dsts ids }
      (Table.assign σ dsts (ids.map (wireBit s.ctx.chunkGates s.carried))) := by
  induction dsts generalizing s σ ids with
  | nil =>
    rw [List.eq_nil_of_length_eq_zero hl.symm]
    simpa [Table.assign] using h
  | cons d dsts ih =>
    cases ids with
    | nil => simp at hl
    | cons i ids =>
      rw [List.nodup_cons] at hn
      rw [List.forall_mem_cons] at he hk
      have hcount (id : UInt32) : ((i :: ids).count id : Int) = held (some i) id + ids.count id := by
        rw [ChunkRecorderCtx.count_cons_pinned hk.1.1, held_some, add_comm]
      have first := h.update d (some i) (fun id => s.ctx.rc id + held (some i) id)
        (fun id hid _ => Option.some.inj hid ▸ hk.1.2)
        (fun id => by rw [h.wire_of_none he.1, held_none, sub_zero])
        fun id => by
          have hroom := hb id
          rw [hcount] at hroom
          omega
      have rest := ih first (by simpa using hl) hn.2 ?_ hk.2 fun id => ?_
      · simpa only [hcount, Table.assign_cons, List.map_cons, Int.add_assoc, Option.map_some]
          using rest
      · intro x hx
        have hne : x ≠ d := fun hxd => hn.1 (hxd ▸ hx)
        rw [Function.update_of_ne hne]
        exact he.2 x hx
      · have := hb id
        rw [hcount] at this
        simp only
        omega

theorem Refines.fromIds (h : Refines s σ) {dsts : List Nat} {ids : List UInt32}
    (hl : dsts.length = ids.length) (hd : dsts.Nodup) (he : ∀ d ∈ dsts, σ d = none)
    (hn : ids.Nodup) (hk : ∀ id ∈ ids, id ≠ 0 ∧ id ∈ Known s.ctx s.carried)
    (hz : ∀ id ∈ ids, s.ctx.rc id = 0) :
    ∃ s', s.fromIds dsts ids = .ok s' ∧
      Refines s' (Table.assign σ dsts (ids.map (wireBit s.ctx.chunkGates s.carried))) := by
  have hone (id : UInt32) (hid : id ∈ ids) : ids.count id = 1 := List.count_eq_one_of_mem hn hid
  have h0 : ∀ id ∈ ids, id ≠ 0 := fun id hid => (hk id hid).1
  have hcancel : (fun id => s.ctx.rc id + ids.count id + ids.count id - ids.count id) =
      fun id => s.ctx.rc id + (ids.count id : Int) := by
    funext id
    omega
  have assigned := h.assign hl hd he hk fun id => ?_
  · refine ⟨_, ?_, assigned⟩
    simp only [ChunkedSession.fromIds]
    rw [ChunkRecorderCtx.pinAll_ok ids h0 fun id hid => by rw [hz id hid, hone id hid]; decide]
    simp only [bind_eq_ok, pure_eq_ok]
    refine ⟨_, rfl, _, ChunkRecorderCtx.pinAll_ok ids h0 fun id hid => ?_, _,
      ChunkRecorderCtx.unpinAll_ok ids h0 fun id hid => ?_, ?_⟩
    · simp only [hz id hid, hone id hid]
      decide
    · simp only [hz id hid, hone id hid]
      decide
    · simp only [hcancel]
  · cases Nat.eq_zero_or_pos (ids.count id) with
    | inl hc => simpa [hc] using h.bounded id
    | inr hc =>
      have hid := List.count_pos_iff.mp hc
      rw [hz id hid, hone id hid]
      decide

theorem Coherent.materialize {c : ChunkRecorderCtx} {carried : Carried} (h : Coherent c carried)
    {next : UInt32} (hle : c.nextId ≤ next) {ids : List UInt32}
    (hids : ∀ id ∈ ids, c.nextId ≤ id ∧ id < next) (hn : ids.Nodup) {bits : List Bool}
    (hl : ids.length = bits.length) (rc : UInt32 → Int) :
    Grows c carried { c with rc, nextId := next } (Table.assign carried ids bits) ∧
      ∀ id ∈ ids, id ∈ carriedIds (Table.assign carried ids bits) := by
  have hkeep (id : UInt32) (hid : id ∈ carriedIds carried) :
      Table.assign carried ids bits id = carried id :=
    Table.assign_of_notMem (fun hin =>
      UInt32.not_le.mpr (h.carried_bound id hid).2 (hids id hin).1) bits
  have hnew (id : UInt32) (hid : id ∈ carriedIds (Table.assign carried ids bits)) :
      id ∈ carriedIds carried ∨ c.nextId ≤ id ∧ id < next := by
    cases List.instDecidableMemOfLawfulBEq id ids with
    | isTrue hin => exact Or.inr (hids id hin)
    | isFalse hout =>
      change (Table.assign carried ids bits id).isSome at hid
      rw [Table.assign_of_notMem hout] at hid
      exact Or.inl hid
  obtain ⟨coherent, value⟩ := h.extend hle hkeep hnew rc
  refine ⟨⟨coherent, ?_, value⟩, fun id hid => ?_⟩
  · rintro id (hid | hid)
    · refine Or.inl ?_
      change (Table.assign carried ids bits id).isSome
      rw [hkeep id hid]
      exact hid
    · exact Or.inr hid
  · have hm : Table.assign carried ids bits id ∈ bits.map some :=
      Table.map_assign carried hn hl ▸ List.mem_map_of_mem hid
    obtain ⟨b, -, hb⟩ := List.mem_map.mp hm
    exact Option.isSome_iff_exists.mpr ⟨b, hb.symm⟩

theorem Refines.build (h : Refines s σ) {dsts : List Nat} {bits : List Bool}
    (hroom : s.IdRoom bits.length) (hb : plainBuild σ dsts bits = some σ') (numAnd : Nat) :
    ∃ ids c, ChunkRecorderCtx.reserveIds bits.length s.ctx = .ok (ids, c) ∧
      ∃ s', { s with ctx := c, carried := Table.assign s.carried ids bits, numAnd }.fromIds dsts ids =
        .ok s' ∧ Refines s' σ' := by
  obtain ⟨ids, hres, hlen, hnodup, hmem⟩ := reserveIds_ok bits.length hroom
  refine ⟨ids, _, hres, ?_⟩
  unfold plainBuild at hb
  split at hb
  · rename_i hcond
    obtain ⟨hl, hd, he⟩ := hcond
    have hnext : (s.ctx.nextId + UInt32.ofNat bits.length).toNat =
        s.ctx.nextId.toNat + bits.length := by
      rw [ChunkedSession.IdRoom] at hroom
      rw [UInt32.toNat_add, toNat_ofNat (by omega), Nat.mod_eq_of_lt (by omega)]
    have hids (id : UInt32) (hid : id ∈ ids) :
        s.ctx.nextId ≤ id ∧ id < s.ctx.nextId + UInt32.ofNat bits.length := by
      rw [UInt32.le_iff_toNat_le, UInt32.lt_iff_toNat_lt, hnext]
      exact (hmem id).mp hid
    obtain ⟨hgrow, hcarried⟩ := h.coherent.materialize
      (UInt32.le_iff_toNat_le.mpr (by omega)) hids hnodup hlen
      fun x => if x ∈ ids then 0 else s.ctx.rc x
    have grown := h.grow hgrow (fun id => by
      simp only
      split
      · rename_i hid
        exact (h.rc_fresh (hids id hid).1).symm
      · rfl) numAnd
    have h0 (id : UInt32) (hid : id ∈ ids) : id ≠ 0 := fun he => by
      have := (hgrow.coherent.known_bound (Or.inl (hcarried id hid))).1
      simp [he] at this
    obtain ⟨s', hs', hR⟩ := grown.fromIds (hl.trans hlen.symm) hd he hnodup
      (fun id hid => ⟨h0 id hid, Or.inl (hcarried id hid)⟩) fun id hid => if_pos hid
    have hvals : ids.map (wireBit s.ctx.chunkGates (Table.assign s.carried ids bits)) =
        bits.map some := by
      rw [← Table.map_assign s.carried hnodup hlen]
      refine List.map_congr_left fun id hid => ?_
      rw [wireBit, if_neg (h0 id hid)]
      exact hgrow.coherent.wireValue_carried (hcarried id hid)
    rw [← Option.some.inj hb, ← hvals]
    exact ⟨s', hs', hR⟩
  · cases hb

end Values

end EmpTool.Session
