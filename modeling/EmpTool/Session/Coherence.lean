import EmpTool.Session.Flushing
import EmpTool.Session.Handles

namespace EmpTool.Session

open Ir StraightLine

abbrev Carried := UInt32 → Option Bool

def carriedIds (carried : Carried) : Set UInt32 := {w | (carried w).isSome}

def carriedBit (carried : Carried) (id : UInt32) : Bool := (carried id).getD false

def wireValue (gs : List Gate) (carried : Carried) : UInt32 → Bool :=
  (gateMachine bitOps).run gs (carriedBit carried)

structure Coherent (c : ChunkRecorderCtx) (carried : Carried) : Prop where
  recorded : Recorded c.chunkGates
  out_bound : ∀ g ∈ c.chunkGates, 0 < g.out ∧ g.out < c.nextId
  pending_iff : ∀ id, c.pending id = true ↔ id ∈ c.chunkGates.map Gate.out
  carried_bound : ∀ id ∈ carriedIds carried, 0 < id ∧ id < c.nextId
  unshared : ∀ id ∈ carriedIds carried, id ∈ foreign c.chunkGates
  well_scoped : gateShape.Scoped (carriedIds carried) c.chunkGates
  const_mem : ∀ v o, c.constWire v = some o →
    ⟨0, 0, o, if v then .const1 else .const0⟩ ∈ c.chunkGates
  next_pos : 0 < c.nextId

def Known (c : ChunkRecorderCtx) (carried : Carried) : Set UInt32 :=
  gateShape.defined (carriedIds carried) c.chunkGates

namespace Coherent

variable {c : ChunkRecorderCtx} {carried : Carried} (h : Coherent c carried)

include h

theorem repinned (rc : UInt32 → Int) : Coherent { c with rc } carried :=
  ⟨h.recorded, h.out_bound, h.pending_iff, h.carried_bound, h.unshared, h.well_scoped, h.const_mem,
    h.next_pos⟩

theorem fresh : gateShape.Fresh (carriedIds carried) c.chunkGates :=
  Shape.fresh_iff.mpr
    ⟨fun _ hg hc => h.unshared _ hc (List.mem_map_of_mem hg), h.recorded.nodup_out⟩

theorem known_bound {id : UInt32} (hid : id ∈ Known c carried) : 0 < id ∧ id < c.nextId := by
  rcases hid with hid | hid
  · exact h.carried_bound id hid
  · obtain ⟨g, hg, rfl⟩ := List.mem_map.mp hid
    exact h.out_bound g hg

theorem wireValue_carried {id : UInt32} (hid : id ∈ carriedIds carried) :
    some (wireValue c.chunkGates carried id) = carried id := by
  have hframe : wireValue c.chunkGates carried id = carriedBit carried id :=
    (gateMachine bitOps).run_frame (h.unshared id hid) _
  rw [hframe, carriedBit]
  obtain ⟨b, hb⟩ := Option.isSome_iff_exists.mp hid
  rw [hb, Option.getD_some]

theorem wireValue_const {v : Bool} {o : UInt32} (ho : c.constWire v = some o) :
    o ∈ Known c carried ∧ wireValue c.chunkGates carried o = v := by
  have hg := h.const_mem v o ho
  have hsol := (gateMachine bitOps).run_solves h.well_scoped h.fresh (carriedBit carried)
  refine ⟨Or.inr (List.mem_map_of_mem hg), (hsol _ hg).trans ?_⟩
  cases v <;> rfl

end Coherent

def recordGate (c : ChunkRecorderCtx) (g : Gate) : ChunkRecorderCtx :=
  { c with
    rc := Function.update c.rc c.nextId 0
    nextId := c.nextId + 1
    chunkGates := c.chunkGates ++ [g]
    pending := Function.update c.pending g.out true }

theorem nextId_succ {c : ChunkRecorderCtx} (hn : c.nextId ≠ 0xFFFFFFFF) :
    (c.nextId + 1).toNat = c.nextId.toNat + 1 ∧ c.nextId.toNat < 2 ^ 32 - 1 := by
  have hlt := c.nextId.toNat_lt
  have hne : c.nextId.toNat ≠ 0xFFFFFFFF := fun he => hn (UInt32.toNat_inj.mp he)
  exact ⟨toNat_succ (by omega), by omega⟩

theorem Coherent.recordGate {c : ChunkRecorderCtx} {carried : Carried} (h : Coherent c carried)
    (hn : c.nextId ≠ 0xFFFFFFFF) {g : Gate} (ho : g.out = c.nextId)
    (hr : ∀ w ∈ g.reads, w ∈ Known c carried) : Coherent (recordGate c g) carried := by
  obtain ⟨hsucc, hlt⟩ := nextId_succ hn
  have hstep {w : UInt32} (hw : w < c.nextId) : w < c.nextId + 1 := by
    rw [UInt32.lt_iff_toNat_lt] at hw ⊢
    omega
  have hself : c.nextId < c.nextId + 1 := by
    rw [UInt32.lt_iff_toNat_lt]
    omega
  constructor
  · refine ⟨?_, ?_, ?_⟩
    · refine List.pairwise_append.mpr ⟨h.recorded.increasing, by simp, fun a ha b hb => ?_⟩
      rw [List.mem_singleton.mp hb, ho]
      exact (h.out_bound a ha).2
    · intro a ha w hw
      rcases List.mem_append.mp ha with ha | ha
      · exact h.recorded.reads_lt a ha w hw
      · rw [List.mem_singleton.mp ha] at hw ⊢
        rw [ho]
        exact (h.known_bound (hr w hw)).2
    · intro a ha
      rcases List.mem_append.mp ha with ha | ha
      · exact h.recorded.out_lt a ha
      · rw [List.mem_singleton.mp ha, ho]
        exact hlt
  · intro a ha
    rcases List.mem_append.mp ha with ha | ha
    · exact ⟨(h.out_bound a ha).1, hstep (h.out_bound a ha).2⟩
    · rw [List.mem_singleton.mp ha, ho]
      exact ⟨h.next_pos, hself⟩
  · intro id
    simp only [Session.recordGate, Function.update_apply, List.map_append, List.mem_append,
      ← h.pending_iff, List.map_cons, List.map_nil, List.mem_singleton]
    split <;> simp_all
  · intro id hid
    exact ⟨(h.carried_bound id hid).1, hstep (h.carried_bound id hid).2⟩
  · intro id hid hm
    rw [Session.recordGate, List.map_append, List.mem_append] at hm
    rcases hm with hm | hm
    · exact h.unshared id hid hm
    · have hid' := (h.carried_bound id hid).2
      rw [show id = c.nextId by simpa [ho] using hm] at hid'
      exact UInt32.lt_irrefl _ hid'
  · exact (Shape.scoped_append _ _ _ _).mpr ⟨h.well_scoped, hr, trivial⟩
  · intro v o hv
    exact List.mem_append_left _ (h.const_mem v o hv)
  · exact UInt32.lt_trans h.next_pos hself

theorem Coherent.recordGate_value {c : ChunkRecorderCtx} {carried : Carried}
    (h : Coherent c carried) {g : Gate} (ho : g.out = c.nextId) :
    (∀ id ∈ Known c carried, wireValue (Session.recordGate c g).chunkGates carried id =
      wireValue c.chunkGates carried id) ∧
    wireValue (Session.recordGate c g).chunkGates carried g.out =
      (gateMachine bitOps).value g (wireValue c.chunkGates carried) := by
  have hrun : wireValue (Session.recordGate c g).chunkGates carried =
      (gateMachine bitOps).exec (wireValue c.chunkGates carried) g := by
    rw [wireValue, Session.recordGate, Machine.run_append]
    rfl
  rw [hrun]
  refine ⟨fun id hid => Machine.exec_of_ne _ ?_, Machine.exec_out _ _ _⟩
  intro he
  have hlt := (h.known_bound hid).2
  rw [he] at hlt
  change g.out < c.nextId at hlt
  rw [ho] at hlt
  exact UInt32.lt_irrefl _ hlt

theorem known_recordGate (c : ChunkRecorderCtx) (carried : Carried) (g : Gate) :
    Known (recordGate c g) carried = insert g.out (Known c carried) := by
  ext w
  simp only [Known, recordGate, Shape.defined, List.map_append, List.mem_append, List.map_cons,
    List.map_nil, List.mem_singleton, Set.mem_ofPred_eq, Set.mem_insert_iff, gateShape_out]
  tauto

theorem reserveIds_ok (n : Nat) {c : ChunkRecorderCtx} (hroom : c.nextId.toNat + n ≤ 2 ^ 32 - 1) :
    ∃ ids, ChunkRecorderCtx.reserveIds n c = .ok (ids, { c with
        rc := fun x => if x ∈ ids then 0 else c.rc x
        nextId := c.nextId + UInt32.ofNat n }) ∧ ids.length = n ∧ ids.Nodup ∧
      ∀ x, x ∈ ids ↔ c.nextId.toNat ≤ x.toNat ∧ x.toNat < c.nextId.toNat + n := by
  induction n generalizing c with
  | zero =>
    refine ⟨[], ?_, rfl, List.nodup_nil, fun x => ?_⟩
    · simp [ChunkRecorderCtx.reserveIds, pure, Except.pure]
    · simp only [List.not_mem_nil, false_iff]
      omega
  | succ n ih =>
    have hne : c.nextId ≠ 0xFFFFFFFF := fun he => by
      rw [he] at hroom
      simp only [UInt32.reduceToNat] at hroom
      omega
    obtain ⟨hsucc, -⟩ := nextId_succ hne
    obtain ⟨ids, hids, hlen, hnodup, hmem⟩ := @ih { c with
      rc := Function.update c.rc c.nextId 0
      nextId := c.nextId + 1 } (by simp only [hsucc]; omega)
    simp only [hsucc] at hmem
    refine ⟨c.nextId :: ids, ?_, by simp [hlen], ?_, fun x => ?_⟩
    · simp only [ChunkRecorderCtx.reserveIds, ChunkRecorderCtx.allocId, bind_eq_ok, pure_eq_ok,
        expecting_eq_ok]
      have hrc : (fun x => if x ∈ ids then 0 else Function.update c.rc c.nextId 0 x) =
          fun x => if x ∈ c.nextId :: ids then 0 else c.rc x := by
        funext x
        rw [Function.update_apply]
        exact Table.ite_mem_cons (fun _ => 0) x c.nextId ids (c.rc x)
      have hnext : c.nextId + 1 + UInt32.ofNat n = c.nextId + UInt32.ofNat (n + 1) := by
        rw [UInt32.ofNat_add, UInt32.add_assoc, UInt32.add_comm 1]
        rfl
      refine ⟨_, ⟨(), hne, rfl⟩, _, hids, ?_⟩
      simp only [hrc, hnext]
    · rw [List.nodup_cons, hmem]
      exact ⟨by omega, hnodup⟩
    · rw [List.mem_cons, hmem, ← UInt32.toNat_inj]
      omega

theorem Coherent.extend {c : ChunkRecorderCtx} {carried carried' : Carried} (h : Coherent c carried)
    {next : UInt32} (hle : c.nextId ≤ next)
    (hkeep : ∀ id ∈ carriedIds carried, carried' id = carried id)
    (hnew : ∀ id ∈ carriedIds carried', id ∈ carriedIds carried ∨ c.nextId ≤ id ∧ id < next)
    (rc : UInt32 → Int) :
    Coherent { c with rc, nextId := next } carried' ∧
      ∀ id ∈ Known c carried, wireValue c.chunkGates carried' id =
        wireValue c.chunkGates carried id := by
  have hsub : carriedIds carried ⊆ carriedIds carried' := fun id hid => by
    change (carried' id).isSome
    rw [hkeep id hid]
    exact hid
  refine ⟨⟨h.recorded, ?_, h.pending_iff, ?_, ?_, h.well_scoped.mono hsub, h.const_mem,
    UInt32.lt_of_lt_of_le h.next_pos hle⟩, ?_⟩
  · exact fun g hg => ⟨(h.out_bound g hg).1, UInt32.lt_of_lt_of_le (h.out_bound g hg).2 hle⟩
  · intro id hid
    rcases hnew id hid with hid | hid
    · have hb := h.carried_bound id hid
      exact ⟨hb.1, UInt32.lt_of_lt_of_le hb.2 hle⟩
    · exact ⟨UInt32.lt_of_lt_of_le h.next_pos hid.1, hid.2⟩
  · intro id hid hm
    rcases hnew id hid with hid | hid
    · exact h.unshared id hid hm
    · obtain ⟨g, hg, rfl⟩ := List.mem_map.mp hm
      exact UInt32.not_le.mpr (h.out_bound g hg).2 hid.1
  · refine (gateMachine bitOps).run_congr h.well_scoped fun w hw => ?_
    rw [carriedBit, carriedBit, hkeep w hw]

theorem Coherent.dropChunk {c : ChunkRecorderCtx} {carried : Carried}
    (hb : ∀ id ∈ carriedIds carried, 0 < id ∧ id < c.nextId) (hn : 0 < c.nextId) :
    Coherent c.dropChunk carried :=
  ⟨⟨by simp [ChunkRecorderCtx.dropChunk], by simp [ChunkRecorderCtx.dropChunk],
    by simp [ChunkRecorderCtx.dropChunk]⟩, by simp [ChunkRecorderCtx.dropChunk],
    by simp [ChunkRecorderCtx.dropChunk], hb, by simp [foreign, ChunkRecorderCtx.dropChunk],
    trivial, by simp [ChunkRecorderCtx.dropChunk], hn⟩

theorem gather_ok (s : ChunkedSession) {ids : List UInt32}
    (h : ∀ id ∈ ids, id ∈ carriedIds s.carried) :
    s.gather ids = .ok (ids.map (carriedBit s.carried)) := by
  induction ids with
  | nil => rfl
  | cons id ids ih =>
    rw [List.forall_mem_cons] at h
    obtain ⟨b, hb⟩ := Option.isSome_iff_exists.mp h.1
    have ih := ih h.2
    simp only [ChunkedSession.gather] at ih ⊢
    rw [List.mapM_cons, ih, hb, List.map_cons, carriedBit, hb]
    rfl

theorem Coherent.plan_ok {s : ChunkedSession} (h : Coherent s.ctx s.carried) (keep : List UInt32) :
    (planFlush s.ctx.chunkGates keep s.isMaterialized).ok = true := by
  rw [planFlush_ok_iff h.recorded]
  intro g hg w hw hf
  rcases h.well_scoped.reads_mem hg.mem hw with hc | hm
  · exact hc
  · exact absurd hm hf

structure Flushed (s : ChunkedSession) (keep : List UInt32) (carried : Carried) : Prop where
  coherent : Coherent s.ctx.dropChunk carried
  values : ∀ id, id ∈ carriedIds s.carried ∨ id ∈ keep →
    carried id = some (wireValue s.ctx.chunkGates s.carried id)

theorem Coherent.flushed {s : ChunkedSession} (h : Coherent s.ctx s.carried) {keep : List UInt32}
    {carried : Carried}
    (hv : ∀ id, id ∈ carriedIds s.carried ∨ id ∈ keep →
      carried id = some (wireValue s.ctx.chunkGates s.carried id))
    (hb : ∀ id ∈ carriedIds carried, id ∈ Known s.ctx s.carried) : Flushed s keep carried :=
  ⟨Coherent.dropChunk (fun id hid => h.known_bound (hb id hid)) h.next_pos, hv⟩

theorem flush_ok {s : ChunkedSession} (h : Coherent s.ctx s.carried) {keep : List UInt32}
    (hk : ∀ id ∈ keep, id ∈ Known s.ctx s.carried) :
    ∃ carried numAnd, s.flush keep = .ok { s with ctx := s.ctx.dropChunk, carried, numAnd } ∧
      Flushed s keep carried := by
  have hfound : ∀ id ∈ keep, (s.ctx.isPending id || s.isMaterialized id) = true := by
    intro id hid
    rw [Bool.or_eq_true]
    rcases hk id hid with hc | hm
    · exact Or.inr hc
    · exact Or.inl ((h.pending_iff id).mpr hm)
  simp only [ChunkedSession.flush, bind_eq_ok, expecting_eq_ok]
  cases hany : keep.any s.ctx.isPending with
  | false =>
    refine ⟨s.carried, s.numAnd, ⟨(), hfound, rfl⟩, h.flushed ?_ fun id hid => Or.inl hid⟩
    rintro id (hid | hid)
    · exact (h.wireValue_carried hid).symm
    · have hnp := List.any_eq_false.mp hany id hid
      rcases hk id hid with hc | hm
      · exact (h.wireValue_carried hc).symm
      · exact absurd ((h.pending_iff id).mpr hm) hnp
  | true =>
    have hok := h.plan_ok keep
    have hexec := planFlush_executes h.recorded keep s.isMaterialized bitOps
      (carriedBit s.carried) hok
    have hins : ∀ id ∈ (planFlush s.ctx.chunkGates keep s.isMaterialized).inputIds,
        id ∈ carriedIds s.carried := fun id hid =>
      ((mem_inputIds h.recorded keep s.isMaterialized).mp hid).2.2
    have hassign (id : UInt32) := Table.assign_map s.carried
      (planFlush s.ctx.chunkGates keep s.isMaterialized).outputIds
      (wireValue s.ctx.chunkGates s.carried) id
    simp only [planFlush_outputIds h.recorded, List.mem_eraseDups, List.mem_filter,
      decide_eq_true_iff] at hassign
    refine ⟨Table.assign s.carried (planFlush s.ctx.chunkGates keep s.isMaterialized).outputIds
      ((planFlush s.ctx.chunkGates keep s.isMaterialized).outputIds.map
        (wireValue s.ctx.chunkGates s.carried)), s.numAnd + ((planFlush s.ctx.chunkGates keep
        s.isMaterialized).prog.gates.filter Gate.isAnd).length, ⟨(), hfound, ?_⟩, ?_⟩
    · simp only [if_true, bind_eq_ok, expecting_eq_ok, ChunkedSession.runProgramInto, pure_eq_ok]
      exact ⟨(), hok, _, ⟨_, gather_ok s hins, _, hexec, rfl⟩, rfl⟩
    · simp only [planFlush_outputIds h.recorded]
      refine h.flushed (fun id hid => ?_) fun id hid => ?_
      · rw [hassign]
        split
        · rfl
        · rename_i hn
          refine (h.wireValue_carried ?_).symm
          rcases hid with hc | hid
          · exact hc
          · exact (hk id hid).resolve_right fun hm => hn ⟨hid, hm⟩
      · change (Table.assign _ _ _ id).isSome at hid
        rw [hassign] at hid
        split at hid
        · rename_i hm
          exact Or.inr hm.2
        · exact Or.inl hid

end EmpTool.Session
