import EmpTool.Session.Faithful
import EmpTool.Session.Revealing

namespace EmpTool.Session

open Ir StraightLine

theorem run_eq_of_solves {val : UInt32 → Bool} {gs : List Gate}
    (h : (gateMachine bitOps).Solves val gs) : (gateMachine bitOps).run gs val = val := by
  induction gs with
  | nil => rfl
  | cons g gs ih =>
    have hexec : (gateMachine bitOps).exec val g = val := by
      unfold Machine.exec
      rw [← h g List.mem_cons_self]
      exact Function.update_eq_self _ _
    rw [Machine.run_cons, hexec]
    exact ih fun g' hg' => h g' (List.mem_cons_of_mem g hg')

def Agrees (R : Set (UInt32 × Bool)) (s : ChunkedSession) (σ : PlainState) : Prop :=
  ∃ val, Faithful R s σ val

section Recorder

variable (c : ChunkRecorderCtx)

theorem nextId_lt {c : ChunkRecorderCtx} (hroom : c.nextId ≠ 0xFFFFFFFF) :
    c.nextId < c.nextId + 1 := by
  have hsucc := (nextId_succ hroom).1
  rw [UInt32.lt_iff_toNat_lt]
  omega

theorem checked_record (a b : UInt32) (op : Op) :
    Checked Stops (fun r => c.nextId ≠ 0xFFFFFFFF ∧ r.1 = c.nextId ∧ ∃ rc,
      r.2 = ChunkRecorderCtx.append { c with rc, nextId := c.nextId + 1 } ⟨a, b, c.nextId, op⟩)
      (c.record a b op) := by
  refine Checked.bind (checked_allocId c) ?_
  rintro ⟨o, c'⟩ ⟨hroom, rfl, rc, rfl⟩
  exact ⟨hroom, rfl, rc, rfl⟩

theorem checked_reserve_room (n : Nat) (c : ChunkRecorderCtx) :
    Checked Stops (fun _ => c.nextId.toNat + n ≤ 2 ^ 32 - 1) (ChunkRecorderCtx.reserveIds n c) := by
  induction n generalizing c with
  | zero =>
    have hlt := c.nextId.toNat_lt
    exact Checked.pure (by omega)
  | succ n ih =>
    refine Checked.bind (checked_allocId c) ?_
    rintro ⟨o, c'⟩ ⟨hroom, rfl, rc, rfl⟩
    obtain ⟨hsucc, hlt⟩ := nextId_succ hroom
    refine Checked.bind (ih _) fun r hr => Checked.pure ?_
    simp only [hsucc] at hr
    omega

theorem checked_reserveIds (n : Nat) :
    Checked Stops (fun r => r.1.length = n ∧ c.nextId.toNat + n ≤ 2 ^ 32 - 1 ∧ r.1.Nodup ∧
      (∀ x, x ∈ r.1 ↔ c.nextId.toNat ≤ x.toNat ∧ x.toNat < c.nextId.toNat + n) ∧
      ∃ rc, r.2 = { c with rc, nextId := c.nextId + UInt32.ofNat n })
      (ChunkRecorderCtx.reserveIds n c) := by
  by_cases hroom : c.nextId.toNat + n ≤ 2 ^ 32 - 1
  · obtain ⟨ids, hids, hlen, hnodup, hmem⟩ := reserveIds_ok n hroom
    exact Checked.of_eq_ok hids ⟨hlen, hroom, hnodup, hmem, _, rfl⟩
  · exact (checked_reserve_room n c).mono fun _ h => absurd h hroom

theorem checked_publicBit (v : Bool) :
    Checked Stops (fun r => (c.constWire v = some r.1 ∧ r.2 = c) ∨
      c.nextId ≠ 0xFFFFFFFF ∧ r.1 = c.nextId ∧ ∃ rc, r.2 =
        { ChunkRecorderCtx.append { c with rc, nextId := c.nextId + 1 } (constGate v c.nextId) with
          constWire := Function.update c.constWire v (some c.nextId) })
      (c.publicBit v) := by
  unfold ChunkRecorderCtx.publicBit
  cases hconst : c.constWire v with
  | some o => exact Or.inl ⟨rfl, rfl⟩
  | none =>
    refine Checked.bind (checked_allocId c) ?_
    rintro ⟨o, c'⟩ ⟨hroom, rfl, rc, rfl⟩
    exact Or.inr ⟨hroom, rfl, rc, rfl⟩

end Recorder

namespace Faithful

variable {R : Set (UInt32 × Bool)} {s : ChunkedSession} {σ σ' : PlainState} {val : UInt32 → Bool}

section Gates

theorem constructed (h : Faithful R s σ val) (dst : Nat) {id : UInt32} (hid : id < s.ctx.nextId)
    (h0 : id ≠ 0) :
    Checked Stops (fun s' => Agrees R s' (Function.update σ dst (some (some (val id)))))
      (s.construct dst (id, s.ctx)) := by
  have hbit := h.construct dst hid
  rw [if_neg h0] at hbit
  exact hbit.mono fun s' hs' => ⟨val, hs'⟩

theorem record (h : Faithful R s σ val) (dst : Nat) (a b : UInt32) (op : Op)
    (hr : ∀ w ∈ (⟨a, b, s.ctx.nextId, op⟩ : Gate).reads, w < s.ctx.nextId) {v : Bool}
    (hv : (gateMachine bitOps).value ⟨a, b, s.ctx.nextId, op⟩ val = v) :
    Checked Stops (fun s' => Agrees R s' (Function.update σ dst (some (some v))))
      (s.ctx.record a b op >>= s.construct dst) := by
  refine Checked.bind (checked_record s.ctx a b op) ?_
  rintro ⟨o, c⟩ ⟨hroom, rfl, rc, rfl⟩
  have grown := h.recordGate (g := ⟨a, b, s.ctx.nextId, op⟩) hroom rfl hr rc
  have hout := grown.constructed dst (nextId_lt hroom) h.next_pos
  rw [Function.update_self, hv] at hout
  exact hout

theorem requireAllocated (h : Faithful R s σ val) {x : Nat} {b : Bool}
    (hx : plainBit σ x = some b) : s.ctx.requireAllocated (s.id x) = .ok () :=
  expecting_eq_ok.mpr (h.read hx).1

theorem noteConst (h : Faithful R s σ val) {o : UInt32} {v : Bool} (hv : val o = v) (h0 : o ≠ 0)
    (hlt : o < s.ctx.nextId) : Faithful R
      { s with ctx := { s.ctx with constWire := Function.update s.ctx.constWire v (some o) } }
      σ val := by
  refine ⟨h.recorded, h.out_bound, h.pending_iff, h.solves, h.carried, fun u p hp => ?_, h.handles,
    h.values, h.reserved, h.next_pos⟩
  change Function.update s.ctx.constWire v (some o) u = some p at hp
  by_cases hu : u = v
  · subst hu
    rw [Function.update_self] at hp
    exact Option.some.inj hp ▸ ⟨hv, h0, hlt⟩
  · rw [Function.update_of_ne hu] at hp
    exact h.const u p hp

theorem binary (h : Faithful R s σ val) {dst a b : Nat} {x y : Bool} (op : Op)
    (f : Bool → Bool → Bool)
    (hreads : (⟨s.id a, s.id b, s.ctx.nextId, op⟩ : Gate).reads = [s.id a, s.id b])
    (hvalue : ∀ w, (gateMachine bitOps).value ⟨s.id a, s.id b, s.ctx.nextId, op⟩ w =
      f (w (s.id a)) (w (s.id b)))
    (hx : plainBit σ a = some x) (hy : plainBit σ b = some y) :
    Checked Stops (fun s' => Agrees R s' (Function.update σ dst (some (some (f x y)))))
      ((do
        s.ctx.requireAllocated (s.id a)
        s.ctx.requireAllocated (s.id b)
        s.ctx.record (s.id a) (s.id b) op) >>= s.construct dst) := by
  have hbit := h.record dst (s.id a) (s.id b) op
    (hreads ▸ List.forall_mem_cons.mpr ⟨(h.read hx).1, List.forall_mem_singleton.mpr (h.read hy).1⟩)
    ((hvalue val).trans (by rw [(h.read hx).2, (h.read hy).2]))
  rw [h.requireAllocated hx, h.requireAllocated hy]
  exact hbit

theorem notGate (h : Faithful R s σ val) {dst a : Nat} {x : Bool} (hx : plainBit σ a = some x) :
    Checked Stops (fun s' => Agrees R s' (Function.update σ dst (some (some !x))))
      (s.ctx.notGate (s.id a) >>= s.construct dst) := by
  have hbit := h.record dst (s.id a) 0 .not
    (List.forall_mem_singleton.mpr (h.read hx).1) (v := !x) (congrArg (!·) (h.read hx).2)
  unfold ChunkRecorderCtx.notGate
  rw [h.requireAllocated hx]
  exact hbit

theorem publicBit (h : Faithful R s σ val) (dst : Nat) (v : Bool) :
    Checked Stops (fun s' => Agrees R s' (Function.update σ dst (some (some v))))
      (s.ctx.publicBit v >>= s.construct dst) := by
  refine Checked.bind (checked_publicBit s.ctx v) ?_
  rintro ⟨o, c⟩ (⟨hconst, rfl⟩ | ⟨hroom, rfl, rc, rfl⟩)
  · obtain ⟨hv, h0, hlt⟩ := h.const v o hconst
    have hout := h.constructed dst hlt h0
    rw [hv] at hout
    exact hout
  · have grown := h.recordGate (g := constGate v s.ctx.nextId) hroom rfl
      (by cases v <;> exact fun w hw => absurd hw List.not_mem_nil) rc
    have hbit : (gateMachine bitOps).value (constGate v s.ctx.nextId) val = v := by cases v <;> rfl
    rw [hbit] at grown
    have hself : Function.update val s.ctx.nextId v s.ctx.nextId = v := Function.update_self ..
    have noted := grown.noteConst hself h.next_pos (nextId_lt hroom)
    have hout := noted.constructed dst (nextId_lt hroom) h.next_pos
    rw [hself] at hout
    exact hout

end Gates

section Flushes

theorem carriedBit_eq (h : Faithful R s σ val) {id : UInt32} (hid : id ∈ carriedIds s.carried) :
    carriedBit s.carried id = val id := by
  obtain ⟨b, hb⟩ := Option.isSome_iff_exists.mp hid
  rw [carriedBit, hb]
  exact (h.carried id b hb).1

theorem gather (h : Faithful R s σ val) {ids : List UInt32}
    (hids : ∀ id ∈ ids, id ∈ carriedIds s.carried) : s.gather ids = .ok (ids.map val) := by
  rw [gather_ok s hids]
  exact congrArg Except.ok (List.map_congr_left fun id hid => h.carriedBit_eq (hids id hid))

theorem settle (h : Faithful R s σ val) {carried : Carried}
    (hc : ∀ id b, carried id = some b → b = val id ∧ id < s.ctx.nextId) (numAnd : Nat) :
    Faithful R { s with ctx := s.ctx.dropChunk, carried, numAnd } σ val where
  recorded := ⟨List.Pairwise.nil, fun g hg => absurd hg List.not_mem_nil,
    fun g hg => absurd hg List.not_mem_nil⟩
  out_bound g hg := absurd hg List.not_mem_nil
  pending_iff id := by simp [ChunkRecorderCtx.dropChunk]
  solves g hg := absurd hg List.not_mem_nil
  carried := hc
  const v o ho := by cases ho
  handles := h.handles
  values := h.values
  reserved := h.reserved
  next_pos := h.next_pos

theorem flush (h : Faithful R s σ val) (keep : List UInt32) :
    Checked Stops (fun s' => Faithful R s' σ val ∧ s'.wires = s.wires ∧
      ∀ id ∈ keep, id ∈ carriedIds s'.carried) (s.flush keep) := by
  refine Checked.bind (checked_expecting (by decide)) fun _ hfound => ?_
  cases hany : keep.any s.ctx.isPending with
  | false =>
    refine Checked.pure ⟨h.settle h.carried s.numAnd, rfl, fun id hid => ?_⟩
    have hnot := List.any_eq_false.mp hany id hid
    exact ((Bool.or_eq_true _ _).mp (hfound id hid)).resolve_left hnot
  | true =>
    have hrec := h.recorded
    refine Checked.bind (checked_expecting (by decide)) fun _ hok => ?_
    have hins : ∀ id ∈ (planFlush s.ctx.chunkGates keep s.isMaterialized).inputIds,
        id ∈ carriedIds s.carried := fun id hid =>
      ((mem_inputIds hrec keep s.isMaterialized).mp hid).2.2
    have hexec := planFlush_executes hrec keep s.isMaterialized bitOps val hok
    rw [run_eq_of_solves h.solves] at hexec
    have hassign (id : UInt32) := Table.assign_map s.carried
      (planFlush s.ctx.chunkGates keep s.isMaterialized).outputIds val id
    simp only [planFlush_outputIds hrec, List.mem_eraseDups, List.mem_filter,
      decide_eq_true_iff] at hassign
    have hrun : s.runProgramInto (planFlush s.ctx.chunkGates keep s.isMaterialized).prog
        (planFlush s.ctx.chunkGates keep s.isMaterialized).inputIds
        (planFlush s.ctx.chunkGates keep s.isMaterialized).outputIds =
      .ok (s.authenticateInto
        ((planFlush s.ctx.chunkGates keep s.isMaterialized).outputIds.map val)
        (planFlush s.ctx.chunkGates keep s.isMaterialized).outputIds) := by
      simp only [ChunkedSession.runProgramInto, bind_eq_ok, pure_eq_ok]
      exact ⟨_, h.gather hins, _, hexec, rfl⟩
    refine Checked.bind (Checked.of_eq_ok hrun rfl) ?_
    rintro s' rfl
    simp only [planFlush_outputIds hrec]
    refine Checked.pure ⟨h.settle (fun id b hb => ?_) _, rfl, fun id hid => ?_⟩
    · change Table.assign _ _ _ id = some b at hb
      rw [hassign] at hb
      split at hb
      case isTrue hm =>
        obtain ⟨g, hg, rfl⟩ := List.mem_map.mp hm.2
        exact ⟨(Option.some.inj hb).symm, h.out_bound g hg⟩
      case isFalse => exact h.carried id b hb
    · change (Table.assign _ _ _ id).isSome
      rw [hassign]
      split
      case isTrue => rfl
      case isFalse hm =>
        rcases (Bool.or_eq_true _ _).mp (hfound id hid) with hp | hc
        · exact absurd ⟨hid, (h.pending_iff id).mp hp⟩ hm
        · exact hc

theorem prune (h : Faithful R s σ val) (keep : UInt32 → Bool) :
    Faithful R (s.pruneCarried keep) σ val := by
  refine ⟨h.recorded, h.out_bound, h.pending_iff, h.solves, fun id b hb => ?_, h.const, h.handles,
    h.values, h.reserved, h.next_pos⟩
  change (if keep id then s.carried id else none) = some b at hb
  split at hb
  case isTrue => exact h.carried id b hb
  case isFalse => cases hb

theorem checked_valueIds (s : ChunkedSession) (value : List Nat) :
    Checked Stops (fun r => r.1 = value.map s.id ∧ ∃ c, Recounted s.ctx c ∧
      r.2 = { s with ctx := c }) (s.valueIds value) :=
  Checked.bind (checked_pinAll _ s.ctx) fun c hc =>
    Checked.bind (checked_unpinAll _ c) fun c' hc' => ⟨rfl, c', hc.trans hc', rfl⟩

theorem checked_appendIds (keep : List (List Nat)) (s : ChunkedSession) :
    Checked Stops (fun r => ∃ c, Recounted s.ctx c ∧ r.2 = { s with ctx := c })
      (ChunkedSession.appendIds keep s) := by
  induction keep generalizing s with
  | nil => exact ⟨s.ctx, ⟨s.ctx.rc, rfl⟩, rfl⟩
  | cons value keep ih =>
    refine Checked.bind (checked_valueIds s value) ?_
    rintro ⟨ids, s'⟩ ⟨-, c, hc, rfl⟩
    refine Checked.bind (ih _) ?_
    rintro ⟨rest, s'⟩ ⟨c', hc', rfl⟩
    exact ⟨c', hc.trans hc', rfl⟩

theorem decode (h : Faithful R s σ val) (backend : Backend) {value : List Nat} {bits : List Bool}
    (hv : value.mapM (plainBit σ) = some bits) {ids : List UInt32} (hids : ids = value.map s.id)
    (hc : ∀ id ∈ ids, id ∈ carriedIds s.carried) (recipient : Int) :
    s.decode backend ids recipient = .ok (if backend.receives recipient then bits else []) := by
  have hbits := h.gather hc
  rw [hids, h.readAll hv] at hbits
  rw [hids]
  simp only [ChunkedSession.decode, bind_eq_ok, pure_eq_ok]
  exact ⟨bits, hbits, rfl⟩

theorem revealed (h : Faithful R s σ val) (backend : Backend) {value : List Nat}
    {bits : List Bool} (hv : value.mapM (plainBit σ) = some bits) (recipient : Int) :
    (if (if backend.receives recipient then bits else []).length = value.length then
        some (if backend.receives recipient then bits else []) else none) =
      if backend.receives recipient || bits.isEmpty then some bits else none := by
  have hlen : bits.length = value.length := by
    rw [← h.readAll hv, List.length_map, List.length_map]
  cases backend.receives recipient with
  | true => simp [hlen]
  | false =>
    cases bits with
    | nil => simp [← hlen]
    | cons b bits => simp [← hlen]

theorem flushDecode (h : Faithful R s σ val) (backend : Backend) {value : List Nat}
    {bits : List Bool} (hv : value.mapM (plainBit σ) = some bits) (recipient : Int)
    {keep : List UInt32} (hkeep : ∀ id ∈ value.map s.id, id ∈ keep) :
    Checked Stops (fun r => r.1 = (if backend.receives recipient || bits.isEmpty then some bits
      else none) ∧ Agrees R r.2 σ) (do
        let s' ← s.flush keep
        let bits ← s'.decode backend (value.map s.id) recipient
        pure (if bits.length = value.length then some bits else none, s')) := by
  refine Checked.bind (h.flush keep) ?_
  rintro s' ⟨h', hw, hkept⟩
  have hids : value.map s.id = value.map s'.id := by
    unfold ChunkedSession.id
    rw [hw]
  refine Checked.bind (Checked.of_eq_ok (h'.decode backend hv hids
    (fun id hid => hkept id (hkeep id hid)) recipient) rfl) ?_
  rintro bits' rfl
  exact ⟨h.revealed backend hv recipient, val, h'⟩

theorem revealKeep (h : Faithful R s σ val) (backend : Backend) {value : List Nat}
    {bits : List Bool} (hv : value.mapM (plainBit σ) = some bits) (recipient : Int)
    (keep : List (List Nat)) :
    Checked Stops (fun r => r.1 = (if backend.receives recipient || bits.isEmpty then some bits
      else none) ∧ Agrees R r.2 σ) (s.revealKeep backend value recipient keep) := by
  refine Checked.bind (checked_expecting (by decide)) fun _ _ => ?_
  refine Checked.bind (checked_valueIds s value) ?_
  rintro ⟨vids, s₁⟩ ⟨rfl, c, hc, rfl⟩
  refine Checked.bind (checked_appendIds keep _) ?_
  rintro ⟨more, s₂⟩ ⟨c', hc', rfl⟩
  exact (h.recount (hc.trans hc') s.numAnd).flushDecode backend hv recipient fun id hid =>
    List.mem_append_left _ (List.mem_append_right _ hid)

theorem reveal (h : Faithful R s σ val) (backend : Backend) {value : List Nat}
    {bits : List Bool} (hv : value.mapM (plainBit σ) = some bits) (recipient : Int) :
    Checked Stops (fun r => r.1 = (if backend.receives recipient || bits.isEmpty then some bits
      else none) ∧ Agrees R r.2 σ) (s.reveal backend value recipient) := by
  refine Checked.bind (checked_expecting (by decide)) fun _ _ => ?_
  refine Checked.bind (checked_valueIds s value) ?_
  rintro ⟨vids, s₁⟩ ⟨rfl, c, hc, rfl⟩
  exact (h.recount hc s.numAnd).flushDecode backend hv recipient fun id hid =>
    List.mem_append_right _ hid

theorem checkpoint (h : Faithful R s σ val) :
    Checked Stops (fun s' => Agrees R s' σ) s.checkpoint :=
  Checked.bind (h.flush _) fun _ hs' => ⟨val, hs'.1.prune _⟩

theorem checkpointKeep (h : Faithful R s σ val) (keep : List (List Nat)) :
    Checked Stops (fun s' => Agrees R s' σ) (s.checkpointKeep keep) := by
  cases keep with
  | nil => exact h.checkpoint
  | cons value keep =>
    refine Checked.bind (checked_appendIds _ s) ?_
    rintro ⟨ids, s₁⟩ ⟨c, hc, rfl⟩
    exact Checked.bind ((h.recount hc s.numAnd).flush ids) fun _ hs' => ⟨val, hs'.1.prune _⟩

end Flushes

section Values

theorem assignIds (h : Faithful R s σ val) {dsts : List Nat} {ids : List UInt32}
    (hl : dsts.length = ids.length) (hids : ∀ id ∈ ids, id ≠ 0 ∧ id < s.ctx.nextId) :
    Faithful R { s with wires := Table.assign s.wires dsts ids }
      (Table.assign σ dsts ((ids.map val).map some)) val := by
  induction dsts generalizing s σ ids with
  | nil =>
    rw [List.eq_nil_of_length_eq_zero hl.symm]
    exact h
  | cons d dsts ih =>
    cases ids with
    | nil => simp at hl
    | cons i ids =>
      rw [List.forall_mem_cons] at hids
      have first := h.update ⟨s.ctx.rc, rfl⟩ d (v := some i) fun id hid =>
        Option.some.inj hid ▸ hids.1.2
      rw [Option.map_some, if_neg hids.1.1] at first
      exact ih first (Nat.succ.inj hl) hids.2

theorem fromIds (h : Faithful R s σ val) {dsts : List Nat} {ids : List UInt32}
    (hl : dsts.length = ids.length) (hids : ∀ id ∈ ids, id ≠ 0 ∧ id < s.ctx.nextId) :
    Checked Stops (fun s' => Faithful R s' (Table.assign σ dsts ((ids.map val).map some)) val)
      (s.fromIds dsts ids) := by
  refine Checked.bind (checked_pinAll ids s.ctx) fun c₁ h₁ => ?_
  refine Checked.bind (checked_pinAll ids c₁) fun c₂ h₂ => ?_
  refine Checked.bind (checked_unpinAll ids c₂) fun c₃ h₃ => ?_
  obtain ⟨rc, rfl⟩ := (h₁.trans h₂).trans h₃
  exact (h.recount ⟨rc, rfl⟩ s.numAnd).assignIds hl hids

theorem reserve (h : Faithful R s σ val) {bits : List Bool} {ids : List UInt32}
    (rc : UInt32 → Int) (hlen : ids.length = bits.length)
    (hroom : s.ctx.nextId.toNat + bits.length ≤ 2 ^ 32 - 1) (hn : ids.Nodup)
    (hmem : ∀ x, x ∈ ids ↔ s.ctx.nextId.toNat ≤ x.toNat ∧
      x.toNat < s.ctx.nextId.toNat + bits.length) :
    ∃ val', Faithful R
        { s with ctx := { s.ctx with rc, nextId := s.ctx.nextId + UInt32.ofNat bits.length } }
        σ val' ∧
      ids.map val' = bits ∧ (∀ id < s.ctx.nextId, val' id = val id) ∧
      ∀ id ∈ ids, id ≠ 0 ∧ id < s.ctx.nextId + UInt32.ofNat bits.length := by
  have hnext : (s.ctx.nextId + UInt32.ofNat bits.length).toNat =
      s.ctx.nextId.toNat + bits.length := by
    rw [UInt32.toNat_add, toNat_ofNat (by omega), Nat.mod_eq_of_lt (by omega)]
  have hfresh : ∀ id < s.ctx.nextId, Table.write val ids bits id = val id := by
    intro id hid
    refine Table.write_of_notMem (fun hin => ?_) bits
    have hle := ((hmem id).mp hin).1
    have hlt := UInt32.lt_iff_toNat_lt.mp hid
    omega
  refine ⟨_, h.extend _ (UInt32.le_iff_toNat_le.mpr (by omega)) hfresh rc,
    Table.map_write val hn hlen, hfresh, fun id hid => ⟨?_, ?_⟩⟩
  · rintro rfl
    have hle := ((hmem 0).mp hid).1
    exact h.next_pos (UInt32.toNat_inj.mp (Nat.le_zero.mp hle))
  · rw [UInt32.lt_iff_toNat_lt, hnext]
    exact ((hmem id).mp hid).2

theorem authenticateInto (h : Faithful R s σ val) {bits : List Bool} {ids : List UInt32}
    (hids : ∀ id ∈ ids, id < s.ctx.nextId) (hbits : ids.map val = bits) :
    Faithful R (s.authenticateInto bits ids) σ val := by
  refine ⟨h.recorded, h.out_bound, h.pending_iff, h.solves, fun id b hb => ?_, h.const, h.handles,
    h.values, h.reserved, h.next_pos⟩
  change Table.assign s.carried ids bits id = some b at hb
  rw [← hbits, Table.assign_map] at hb
  split at hb
  case isTrue hid => exact ⟨(Option.some.inj hb).symm, hids id hid⟩
  case isFalse => exact h.carried id b hb

theorem plainBuild_spec {dsts : List Nat} {bits : List Bool}
    (hb : plainBuild σ dsts bits = some σ') :
    dsts.length = bits.length ∧ σ' = Table.assign σ dsts (bits.map some) := by
  obtain ⟨hcond, hσ⟩ := Option.ite_some_none_eq_some.mp hb
  exact ⟨hcond.1, hσ.symm⟩

theorem input (h : Faithful R s σ val) {dsts : List Nat} {bits : List Bool}
    (hb : plainBuild σ dsts bits = some σ') :
    Checked Stops (fun s' => Agrees R s' σ') (s.input dsts bits) := by
  obtain ⟨hl, rfl⟩ := plainBuild_spec hb
  refine Checked.bind (checked_reserveIds s.ctx bits.length) ?_
  rintro ⟨ids, c⟩ ⟨hlen, hroom, hn, hmem, rc, rfl⟩
  obtain ⟨val', h', hbits, -, hids⟩ := h.reserve rc hlen hroom hn hmem
  have hout := (h'.authenticateInto (fun id hid => (hids id hid).2) hbits).fromIds
    (hl.trans hlen.symm) hids
  rw [hbits] at hout
  exact hout.mono fun s' hs' => ⟨val', hs'⟩

theorem checked_argIds (args : List (List Nat)) (s : ChunkedSession) :
    Checked Stops (fun r => r.1 = args.flatten.map s.id ∧ (∀ id ∈ r.1, id ∈ carriedIds s.carried) ∧
      ∃ c, Recounted s.ctx c ∧ r.2 = { s with ctx := c }) (ChunkedSession.argIds args s) := by
  induction args generalizing s with
  | nil => exact ⟨rfl, fun id hid => absurd hid List.not_mem_nil, s.ctx, ⟨s.ctx.rc, rfl⟩, rfl⟩
  | cons value args ih =>
    refine Checked.bind (P := fun r => r.1 = value.map s.id ∧
      (∀ id ∈ r.1, id ∈ carriedIds s.carried) ∧ ∃ c, Recounted s.ctx c ∧ r.2 = { s with ctx := c })
      ?_ ?_
    · refine Checked.bind (checked_valueIds s value) ?_
      rintro ⟨ids, s'⟩ ⟨rfl, c, hc, rfl⟩
      exact Checked.bind (checked_expecting (by decide)) fun _ hm => ⟨rfl, hm, c, hc, rfl⟩
    · rintro ⟨ids, s'⟩ ⟨rfl, hm, c, hc, rfl⟩
      refine Checked.bind (ih _) ?_
      rintro ⟨rest, s'⟩ ⟨rfl, hm', c', hc', rfl⟩
      refine ⟨?_, ?_, c', hc.trans hc', rfl⟩
      · rw [List.flatten_cons, List.map_append]
        rfl
      · exact fun id hid => (List.mem_append.mp hid).elim (hm id) (hm' id)

theorem runProgram (h : Faithful R s σ val) {prog : BooleanProgram} {ids : List UInt32}
    {dsts : List Nat} {bits outs : List Bool} (hids : ∀ id ∈ ids, id ∈ carriedIds s.carried)
    (hbits : ids.map val = bits) (ho : plainRunProgram prog bits = some outs)
    (hb : plainBuild σ dsts outs = some σ') :
    Checked Stops (fun s' => Agrees R s' σ') (do
      let (outIds, ctx) ← ChunkRecorderCtx.reserveIds prog.outputs.length s.ctx
      let s ← { s with ctx }.runProgramInto prog ids outIds
      (s.countAnds prog).fromIds dsts outIds) := by
  obtain ⟨hl, rfl⟩ := plainBuild_spec hb
  obtain ⟨hexec, -, hlen⟩ := plainRunProgram_spec ho
  rw [← hlen]
  refine Checked.bind (checked_reserveIds s.ctx outs.length) ?_
  rintro ⟨outIds, c⟩ ⟨houtlen, hroom, hn, hmem, rc, rfl⟩
  obtain ⟨val', h', hout, -, houtIds⟩ := h.reserve rc houtlen hroom hn hmem
  have hgather := h.gather hids
  rw [hbits] at hgather
  refine Checked.bind (Checked.of_eq_ok (a := ChunkedSession.authenticateInto
    { s with ctx := { s.ctx with rc, nextId := s.ctx.nextId + UInt32.ofNat outs.length } }
    outs outIds) ?_ rfl) ?_
  · simp only [ChunkedSession.runProgramInto, bind_eq_ok, pure_eq_ok]
    exact ⟨bits, hgather, outs, hexec, rfl⟩
  · rintro s' rfl
    have authenticated := h'.authenticateInto (fun id hid => (houtIds id hid).2) hout
    have counted := authenticated.recount ⟨rc, rfl⟩
      (s.numAnd + (prog.gates.filter Gate.isAnd).length)
    have built := counted.fromIds (hl.trans houtlen.symm) houtIds
    rw [hout] at built
    exact built.mono fun s' hs' => ⟨val', hs'⟩

theorem checked_width (h : Faithful R s σ val) {prog : BooleanProgram} {value : List Nat}
    {bits outs : List Bool} (hv : value.mapM (plainBit σ) = some bits)
    (ho : plainRunProgram prog bits = some outs) (m : String) :
    Checked Stops (fun _ => True)
      (expecting (UInt32.ofNat (value.map s.id).length = prog.numInputs) m) := by
  have hlen : (value.map s.id).length = prog.numInputs.toNat := by
    have hbits := congrArg List.length (h.readAll hv)
    rw [List.length_map] at hbits
    exact hbits.trans (plainRunProgram_spec ho).2.1
  rw [hlen, UInt32.ofNat_toNat]
  exact Checked.of_eq_ok (a := ()) (expecting_eq_ok.mpr rfl) trivial

theorem run (h : Faithful R s σ val) {prog : BooleanProgram} {args : List (List Nat)}
    {dsts : List Nat} {bits outs : List Bool} (hv : args.flatten.mapM (plainBit σ) = some bits)
    (ho : plainRunProgram prog bits = some outs) (hb : plainBuild σ dsts outs = some σ') :
    Checked Stops (fun s' => Agrees R s' σ') (s.run prog args dsts) := by
  refine Checked.bind (checked_argIds args s) ?_
  rintro ⟨ids, s'⟩ ⟨rfl, hm, c, hc, rfl⟩
  refine Checked.bind (h.checked_width hv ho _) fun _ _ => ?_
  exact (h.recount hc s.numAnd).runProgram hm (h.readAll hv) ho hb

theorem runArtifact (h : Faithful R s σ val) {prog : BooleanProgram} {args : List (List Nat)}
    {dsts : List Nat} {bits outs : List Bool} (hv : args.flatten.mapM (plainBit σ) = some bits)
    (ho : plainRunProgram prog bits = some outs) (hb : plainBuild σ dsts outs = some σ') :
    Checked Stops (fun s' => Agrees R s' σ') (s.runArtifact prog args dsts) := by
  refine Checked.bind (checked_argIds args s) ?_
  rintro ⟨ids, s'⟩ ⟨rfl, hm, c, hc, rfl⟩
  refine Checked.bind (h.checked_width hv ho _) fun _ _ => ?_
  refine Checked.bind (checked_expecting (by decide)) fun _ _ => ?_
  exact (h.recount hc s.numAnd).runProgram hm (h.readAll hv) ho hb

end Values

end Faithful

variable {R : Set (UInt32 × Bool)} {s : ChunkedSession} {σ σ' : PlainState} {val : UInt32 → Bool}
  {backend : Backend}

theorem quiet {x : Except String ChunkedSession} (hx : Checked Stops (fun s' => Agrees R s' σ') x) :
    Checked Stops (fun r => r.1 = ([] : List (Option (List Bool))) ∧ Agrees R r.2 σ') (do
      let s ← x
      pure ([], s)) :=
  Checked.bind hx fun _ hs => ⟨rfl, hs⟩

theorem quiet_record {x : Except String (UInt32 × ChunkRecorderCtx)} {dst : Nat}
    (hx : Checked Stops (fun s' => Agrees R s' σ') (x >>= s.construct dst)) :
    Checked Stops (fun r => r.1 = ([] : List (Option (List Bool))) ∧ Agrees R r.2 σ') (do
      let r ← x
      let s ← s.construct dst r
      pure ([], s)) := by
  cases x with
  | error m => exact hx
  | ok r => exact quiet hx

theorem Faithful.step (h : Faithful R s σ val) {op : SessionOp} {out : List (Option (List Bool))}
    (hp : plainStep backend σ op = some (out, σ')) :
    Checked Stops (fun r => r.1 = out ∧ Agrees R r.2 σ') (s.step backend op) := by
  cases op with
  | publicBit dst v =>
    simp only [plainStep, Option.bind_eq_bind, Option.bind_eq_some_iff, Option.pure_def,
      Option.some.injEq, Prod.mk.injEq] at hp
    obtain ⟨τ, hb, rfl, rfl⟩ := hp
    obtain ⟨-, rfl⟩ := plainBuild_one hb
    exact quiet_record (h.publicBit dst v)
  | andGate dst a b =>
    simp only [plainStep, Option.bind_eq_bind, Option.bind_eq_some_iff, Option.pure_def,
      Option.some.injEq, Prod.mk.injEq] at hp
    obtain ⟨x, hx, y, hy, τ, hb, rfl, rfl⟩ := hp
    obtain ⟨-, rfl⟩ := plainBuild_one hb
    exact quiet_record (h.binary .and (· && ·) rfl (fun _ => rfl) hx hy)
  | xorGate dst a b =>
    simp only [plainStep, Option.bind_eq_bind, Option.bind_eq_some_iff, Option.pure_def,
      Option.some.injEq, Prod.mk.injEq] at hp
    obtain ⟨x, hx, y, hy, τ, hb, rfl, rfl⟩ := hp
    obtain ⟨-, rfl⟩ := plainBuild_one hb
    exact quiet_record (h.binary .xor (· ^^ ·) rfl (fun _ => rfl) hx hy)
  | notGate dst a =>
    simp only [plainStep, Option.bind_eq_bind, Option.bind_eq_some_iff, Option.pure_def,
      Option.some.injEq, Prod.mk.injEq] at hp
    obtain ⟨x, hx, τ, hb, rfl, rfl⟩ := hp
    obtain ⟨-, rfl⟩ := plainBuild_one hb
    exact quiet_record (h.notGate hx)
  | copy dst src =>
    simp only [plainStep, Option.bind_eq_bind, Option.bind_eq_some_iff, Option.pure_def,
      Option.ite_none_right_eq_some, Option.some.injEq, Prod.mk.injEq] at hp
    obtain ⟨v, hs, -, rfl, rfl⟩ := hp
    exact quiet ((h.copy hs).mono fun _ hs' => ⟨val, hs'⟩)
  | move dst src =>
    simp only [plainStep, Option.bind_eq_bind, Option.bind_eq_some_iff, Option.pure_def,
      Option.ite_none_right_eq_some, Option.some.injEq, Prod.mk.injEq] at hp
    obtain ⟨v, hs, -, rfl, rfl⟩ := hp
    exact ⟨rfl, val, h.move hs⟩
  | copyAssign dst src =>
    simp only [plainStep, Option.bind_eq_bind, Option.bind_eq_some_iff, Option.pure_def,
      Option.some.injEq, Prod.mk.injEq] at hp
    obtain ⟨u, hd, v, hs, rfl, rfl⟩ := hp
    exact quiet ((h.copyAssign hd hs).mono fun _ hs' => ⟨val, hs'⟩)
  | moveAssign dst src =>
    simp only [plainStep, Option.bind_eq_bind, Option.bind_eq_some_iff, Option.pure_def,
      Option.some.injEq, Prod.mk.injEq] at hp
    obtain ⟨u, hd, v, hs, rfl, rfl⟩ := hp
    exact quiet ((h.moveAssign hs).mono fun _ hs' => ⟨val, hs'⟩)
  | destroy x =>
    simp only [plainStep, Option.bind_eq_bind, Option.bind_eq_some_iff, Option.pure_def,
      Option.some.injEq, Prod.mk.injEq] at hp
    obtain ⟨v, hx, rfl, rfl⟩ := hp
    exact quiet ((h.destroy x).mono fun _ hs' => ⟨val, hs'⟩)
  | input dsts bits =>
    simp only [plainStep, Option.bind_eq_bind, Option.bind_eq_some_iff, Option.pure_def,
      Option.some.injEq, Prod.mk.injEq] at hp
    obtain ⟨τ, hb, rfl, rfl⟩ := hp
    exact quiet (h.input hb)
  | reveal value recipient =>
    simp only [plainStep, Option.bind_eq_bind, Option.bind_eq_some_iff, Option.pure_def,
      Option.some.injEq, Prod.mk.injEq] at hp
    obtain ⟨bits, hv, rfl, rfl⟩ := hp
    exact Checked.bind (h.reveal backend hv recipient) fun r hr =>
      ⟨congrArg (fun o => [o]) hr.1, hr.2⟩
  | checkpoint =>
    simp only [plainStep, Option.pure_def, Option.some.injEq, Prod.mk.injEq] at hp
    obtain ⟨rfl, rfl⟩ := hp
    exact quiet h.checkpoint
  | run prog args dsts =>
    simp only [plainStep, Option.bind_eq_bind, Option.bind_eq_some_iff, Option.pure_def,
      Option.some.injEq, Prod.mk.injEq] at hp
    obtain ⟨bits, hv, outs, ho, τ, hb, rfl, rfl⟩ := hp
    exact quiet (h.run hv ho hb)

end EmpTool.Session
