import EmpTool.Session.Refinement

namespace EmpTool.Session

open Ir StraightLine

theorem live_known (s : ChunkedSession) :
    ∀ id ∈ s.ctx.livePendingIds, id ∈ Known s.ctx s.carried := by
  intro id hid
  obtain ⟨g, hg, rfl⟩ := List.mem_map.mp hid
  exact Or.inr (List.mem_map_of_mem (List.mem_filter.mp hg).1)

theorem plainRunProgram_spec {prog : BooleanProgram} {bits outs : List Bool}
    (h : plainRunProgram prog bits = some outs) :
    executeProgram (m := Id) bitOps.context prog bits = .ok outs ∧
      bits.length = prog.numInputs.toNat ∧ outs.length = prog.outputs.length := by
  unfold plainRunProgram at h
  split at h
  · rename_i hvalid hexec
    obtain rfl := Option.some.inj h
    have valid := validateProgram_ok_iff.mp hvalid
    have hin : bits.length = prog.numInputs.toNat := by
      simp only [executeProgram, executeProgramIn, Circuit.executeProgram, bind_eq_ok,
        expecting_eq_ok] at hexec
      obtain ⟨_, ⟨_, ⟨_, hin, _⟩, _⟩, _⟩ := hexec
      exact hin
    rw [executeProgram_eq valid bitOps hin] at hexec
    refine ⟨executeProgram_eq valid bitOps hin ▸ hexec, hin, ?_⟩
    rw [← Except.ok.inj hexec, BooleanProgram.evaluate, List.length_map]
  · cases h

section Flushes

variable {s : ChunkedSession} {σ : PlainState} (h : Refines s σ)

include h

theorem Refines.inScope {x : Nat} {id : UInt32} (hx : s.wires x = some id) (h0 : id ≠ 0) :
    s.ctx.inScope id = true := by
  have hb := (h.coherent.known_bound (h.known x id hx h0)).2
  simp [ChunkRecorderCtx.inScope, hb, h.rc_pos hx h0]

theorem Refines.handle_kept {x : Nat} {id : UInt32} (hx : s.wires x = some id) (h0 : id ≠ 0) :
    id ∈ carriedIds s.carried ∨ id ∈ s.ctx.livePendingIds := by
  refine (h.known x id hx h0).imp_right fun hm => ?_
  obtain ⟨g, hg, rfl⟩ := List.mem_map.mp hm
  exact List.mem_map_of_mem (List.mem_filter.mpr ⟨hg, h.inScope hx h0⟩)

theorem Refines.settle {carried : Carried} (hc : Coherent s.ctx.dropChunk carried)
    (hv : ∀ x id, s.wires x = some id → id ≠ 0 →
      carried id = some (wireValue s.ctx.chunkGates s.carried id)) (numAnd : Nat) :
    Refines { s with ctx := s.ctx.dropChunk, carried, numAnd } σ where
  coherent := hc
  finite := h.finite
  counted := h.counted
  bounded := h.bounded
  known x id hx h0 := Or.inl (Option.isSome_iff_exists.mpr ⟨_, hv x id hx h0⟩)
  values x := by
    rw [h.values]
    refine Option.map_congr fun id hid => ?_
    simp only [wireBit]
    split
    · rfl
    · rename_i h0
      have hrun : wireValue s.ctx.dropChunk.chunkGates carried id = carriedBit carried id := rfl
      rw [hrun, carriedBit, hv x id hid h0, Option.getD_some]

theorem Refines.flush (keep : List UInt32) (hlive : ∀ id ∈ s.ctx.livePendingIds, id ∈ keep)
    (hk : ∀ id ∈ keep, id ∈ Known s.ctx s.carried) :
    ∃ carried numAnd, s.flush keep = .ok { s with ctx := s.ctx.dropChunk, carried, numAnd } ∧
      Refines { s with ctx := s.ctx.dropChunk, carried, numAnd } σ ∧ Flushed s keep carried := by
  obtain ⟨carried, numAnd, hflush, flushed⟩ := flush_ok h.coherent hk
  refine ⟨carried, numAnd, hflush, h.settle flushed.coherent (fun x id hx h0 => ?_) numAnd, flushed⟩
  exact flushed.values id ((h.handle_kept hx h0).imp_right (hlive id))

theorem Refines.reveal (backend : Backend) {value : List Nat} {recipient : Int} {bits : List Bool}
    (hok : backend.recipientOk recipient = true) (hp : s.PinRoom (value.map s.id))
    (hv : value.mapM (plainBit σ) = some bits) :
    ∃ s', s.reveal backend value recipient =
        .ok (if backend.receives recipient || bits.isEmpty then some bits else none, s') ∧
      Refines s' σ := by
  obtain ⟨hall, rfl⟩ := h.read_all hv
  have hknown : ∀ id ∈ s.ctx.livePendingIds ++ value.map s.id, id ∈ Known s.ctx s.carried := by
    intro id hid
    rcases List.mem_append.mp hid with hid | hid
    · exact live_known s id hid
    · obtain ⟨x, hx, rfl⟩ := List.mem_map.mp hid
      exact (hall x hx).2
  obtain ⟨carried, numAnd, hflush, hR, flushed⟩ :=
    h.flush _ (fun id hid => List.mem_append_left _ hid) hknown
  have hval (id : UInt32) (hid : id ∈ value.map s.id) :
      carried id = some (wireValue s.ctx.chunkGates s.carried id) :=
    flushed.values id (Or.inr (List.mem_append_right _ hid))
  have hgather := gather_ok { s with ctx := s.ctx.dropChunk, carried, numAnd }
    fun id hid => Option.isSome_iff_exists.mpr ⟨_, hval id hid⟩
  have hbits : (value.map s.id).map (carriedBit carried) =
      (value.map s.id).map (wireValue s.ctx.chunkGates s.carried) :=
    List.map_congr_left fun id hid => by rw [carriedBit, hval id hid, Option.getD_some]
  rw [hbits] at hgather
  refine ⟨_, ?_, hR⟩
  simp only [ChunkedSession.reveal, ChunkedSession.decode, bind_eq_ok, expecting_eq_ok, pure_eq_ok]
  refine ⟨(), hok, _, h.valueIds (fun x hx => (hall x hx).1) hp, _, hflush, _,
    ⟨_, hgather, rfl⟩, ?_⟩
  cases backend.receives recipient with
  | true => simp
  | false => cases value <;> simp

theorem Refines.checkpoint : ∃ s', s.checkpoint = .ok s' ∧ Refines s' σ := by
  obtain ⟨carried, numAnd, hflush, hR, flushed⟩ := h.flush _ (fun id hid => hid) (live_known s)
  simp only [ChunkedSession.checkpoint, bind_eq_ok, pure_eq_ok]
  refine ⟨_, ⟨_, hflush, rfl⟩, ?_⟩
  refine hR.settle (Coherent.dropChunk (fun id hid => ?_) hR.coherent.next_pos)
    (fun x id hx h0 => ?_) numAnd
  · change (if s.ctx.dropChunk.inScope id then carried id else none).isSome at hid
    split at hid
    · exact hR.coherent.carried_bound id hid
    · cases hid
  · have hscope := hR.inScope hx h0
    have hc : id ∈ carriedIds carried :=
      (hR.known x id hx h0).resolve_right (by simp [ChunkRecorderCtx.dropChunk])
    exact (if_pos hscope).trans (hR.coherent.wireValue_carried hc).symm

theorem Refines.argIds {args : List (List Nat)}
    (hv : ∀ x ∈ args.flatten, s.id x ≠ 0)
    (hm : ∀ x ∈ args.flatten, s.isMaterialized (s.id x) = true)
    (hp : ∀ value ∈ args, s.PinRoom (value.map s.id)) :
    ChunkedSession.argIds args s = .ok (args.flatten.map s.id, s) := by
  induction args with
  | nil => rfl
  | cons value args ih =>
    rw [List.flatten_cons] at hv hm ⊢
    rw [List.forall_mem_append] at hv hm
    rw [List.forall_mem_cons] at hp
    simp only [ChunkedSession.argIds, ChunkedSession.appendArgIds, bind_eq_ok, expecting_eq_ok,
      pure_eq_ok]
    exact ⟨_, ⟨_, h.valueIds hv.1 hp.1, (), List.forall_mem_map.mpr hm.1, rfl⟩, _,
      ih hv.2 hm.2 hp.2, by rw [List.map_append]⟩

theorem Refines.input {dsts : List Nat} {bits : List Bool} {σ' : PlainState}
    (hroom : s.IdRoom bits.length) (hb : plainBuild σ dsts bits = some σ') :
    ∃ s', s.input dsts bits = .ok s' ∧ Refines s' σ' := by
  obtain ⟨ids, c, hres, s', hs', hR⟩ := h.build hroom hb s.numAnd
  simp only [ChunkedSession.input, bind_eq_ok]
  exact ⟨s', ⟨_, hres, hs'⟩, hR⟩

theorem Refines.run {prog : BooleanProgram} {args : List (List Nat)} {dsts : List Nat}
    {bits outs : List Bool} {σ' : PlainState} (hroom : s.IdRoom prog.outputs.length)
    (hm : ∀ x ∈ args.flatten, s.isMaterialized (s.id x) = true)
    (hp : ∀ value ∈ args, s.PinRoom (value.map s.id))
    (hv : args.flatten.mapM (plainBit σ) = some bits) (ho : plainRunProgram prog bits = some outs)
    (hb : plainBuild σ dsts outs = some σ') :
    ∃ s', s.run prog args dsts = .ok s' ∧ Refines s' σ' := by
  obtain ⟨hall, rfl⟩ := h.read_all hv
  obtain ⟨hexec, hin, hlen⟩ := plainRunProgram_spec ho
  have hcarried (id : UInt32) (hid : id ∈ args.flatten.map s.id) : id ∈ carriedIds s.carried := by
    obtain ⟨x, hx, rfl⟩ := List.mem_map.mp hid
    exact hm x hx
  have hbits : (args.flatten.map s.id).map (carriedBit s.carried) =
      (args.flatten.map s.id).map (wireValue s.ctx.chunkGates s.carried) := by
    refine List.map_congr_left fun id hid => ?_
    rw [carriedBit, ← h.coherent.wireValue_carried (hcarried id hid), Option.getD_some]
  rw [← hlen] at hroom
  obtain ⟨ids, c, hres, s', hs', hR⟩ := h.build hroom hb
    (s.numAnd + (prog.gates.filter Gate.isAnd).length)
  rw [hlen] at hres
  rw [← hbits] at hexec
  rw [List.length_map] at hin
  simp only [ChunkedSession.run, ChunkedSession.runProgramInto, bind_eq_ok, expecting_eq_ok,
    pure_eq_ok]
  refine ⟨s', ⟨_, h.argIds (fun x hx => (hall x hx).1) hm hp, (), ?_, _, hres, _,
    ⟨_, gather_ok _ hcarried, _, hexec, rfl⟩, hs'⟩, hR⟩
  rw [hin]
  exact UInt32.ofNat_toNat

end Flushes

theorem plainBuild_one {σ σ' : PlainState} {dst : Nat} {b : Bool}
    (h : plainBuild σ [dst] [b] = some σ') :
    σ dst = none ∧ σ' = Function.update σ dst (some (some b)) := by
  simp only [plainBuild, List.length_cons, List.length_nil, List.nodup_cons, List.not_mem_nil,
    not_false_eq_true, List.nodup_nil, and_self, List.mem_singleton, forall_eq, true_and,
    Option.ite_none_right_eq_some, Option.some.injEq] at h
  exact ⟨h.1, h.2.symm⟩

theorem Refines.step {s : ChunkedSession} {σ σ' : PlainState} (h : Refines s σ) (backend : Backend)
    {op : SessionOp} {out : List (Option (List Bool))} (hfit : s.Within backend op)
    (hpin : s.Pinnable op) (hp : plainStep backend σ op = some (out, σ')) :
    ∃ s', s.step backend op = .ok (out, s') ∧ Refines s' σ' := by
  cases op with
  | publicBit dst v =>
    simp only [plainStep, Option.bind_eq_bind, Option.bind_eq_some_iff, Option.pure_def,
      Option.some.injEq, Prod.mk.injEq] at hp
    obtain ⟨τ, hb, rfl, rfl⟩ := hp
    obtain ⟨hd, rfl⟩ := plainBuild_one hb
    obtain ⟨r, s', hr, hs', hR⟩ := h.publicBit hd hfit hpin
    simp only [ChunkedSession.step, bind_eq_ok, pure_eq_ok]
    exact ⟨s', ⟨r, hr, s', hs', rfl⟩, hR⟩
  | andGate dst a b =>
    simp only [plainStep, Option.bind_eq_bind, Option.bind_eq_some_iff, Option.pure_def,
      Option.some.injEq, Prod.mk.injEq] at hp
    obtain ⟨x, hx, y, hy, τ, hb, rfl, rfl⟩ := hp
    obtain ⟨hd, rfl⟩ := plainBuild_one hb
    obtain ⟨r, s', hr, hs', hR⟩ :=
      h.binary .and (· && ·) rfl (fun _ => rfl) hx hy hd hfit.1
    simp only [ChunkedSession.step, bind_eq_ok, pure_eq_ok]
    exact ⟨s', ⟨r, hr, s', hs', rfl⟩, hR⟩
  | xorGate dst a b =>
    simp only [plainStep, Option.bind_eq_bind, Option.bind_eq_some_iff, Option.pure_def,
      Option.some.injEq, Prod.mk.injEq] at hp
    obtain ⟨x, hx, y, hy, τ, hb, rfl, rfl⟩ := hp
    obtain ⟨hd, rfl⟩ := plainBuild_one hb
    obtain ⟨r, s', hr, hs', hR⟩ :=
      h.binary .xor (· ^^ ·) rfl (fun _ => rfl) hx hy hd hfit.1
    simp only [ChunkedSession.step, bind_eq_ok, pure_eq_ok]
    exact ⟨s', ⟨r, hr, s', hs', rfl⟩, hR⟩
  | notGate dst a =>
    simp only [plainStep, Option.bind_eq_bind, Option.bind_eq_some_iff, Option.pure_def,
      Option.some.injEq, Prod.mk.injEq] at hp
    obtain ⟨x, hx, τ, hb, rfl, rfl⟩ := hp
    obtain ⟨hd, rfl⟩ := plainBuild_one hb
    obtain ⟨hxk, rfl⟩ := (h.read hx).2
    obtain ⟨r, s', hr, hs', hR⟩ := h.record hd hfit.1 (s.id a) 0 .not
      (List.forall_mem_singleton.mpr hxk) rfl
    simp only [ChunkedSession.step, ChunkRecorderCtx.notGate, bind_eq_ok, pure_eq_ok]
    exact ⟨s', ⟨r, ⟨(), h.allocated hx, hr⟩, s', hs', rfl⟩, hR⟩
  | copy dst src =>
    simp only [plainStep, Option.bind_eq_bind, Option.bind_eq_some_iff, Option.pure_def,
      Option.ite_none_right_eq_some, Option.some.injEq, Prod.mk.injEq] at hp
    obtain ⟨v, hs, hd, rfl, rfl⟩ := hp
    obtain ⟨s', hs', hR⟩ := h.copy hs hd hpin
    simp only [ChunkedSession.step, bind_eq_ok, pure_eq_ok]
    exact ⟨s', ⟨s', hs', rfl⟩, hR⟩
  | move dst src =>
    simp only [plainStep, Option.bind_eq_bind, Option.bind_eq_some_iff, Option.pure_def,
      Option.ite_none_right_eq_some, Option.some.injEq, Prod.mk.injEq] at hp
    obtain ⟨v, hs, hd, rfl, rfl⟩ := hp
    exact ⟨_, rfl, h.move hs hd⟩
  | copyAssign dst src =>
    simp only [plainStep, Option.bind_eq_bind, Option.bind_eq_some_iff, Option.pure_def,
      Option.some.injEq, Prod.mk.injEq] at hp
    obtain ⟨u, hd, v, hs, rfl, rfl⟩ := hp
    obtain ⟨s', hs', hR⟩ := h.copyAssign hd hs hpin
    simp only [ChunkedSession.step, bind_eq_ok, pure_eq_ok]
    exact ⟨s', ⟨s', hs', rfl⟩, hR⟩
  | moveAssign dst src =>
    simp only [plainStep, Option.bind_eq_bind, Option.bind_eq_some_iff, Option.pure_def,
      Option.some.injEq, Prod.mk.injEq] at hp
    obtain ⟨u, hd, v, hs, rfl, rfl⟩ := hp
    obtain ⟨s', hs', hR⟩ := h.moveAssign hd hs
    simp only [ChunkedSession.step, bind_eq_ok, pure_eq_ok]
    exact ⟨s', ⟨s', hs', rfl⟩, hR⟩
  | destroy x =>
    simp only [plainStep, Option.bind_eq_bind, Option.bind_eq_some_iff, Option.pure_def,
      Option.some.injEq, Prod.mk.injEq] at hp
    obtain ⟨v, hx, rfl, rfl⟩ := hp
    obtain ⟨s', hs', hR⟩ := h.destroy hx
    simp only [ChunkedSession.step, bind_eq_ok, pure_eq_ok]
    exact ⟨s', ⟨s', hs', rfl⟩, hR⟩
  | input dsts bits =>
    simp only [plainStep, Option.bind_eq_bind, Option.bind_eq_some_iff, Option.pure_def,
      Option.some.injEq, Prod.mk.injEq] at hp
    obtain ⟨τ, hb, rfl, rfl⟩ := hp
    obtain ⟨s', hs', hR⟩ := h.input hfit hb
    simp only [ChunkedSession.step, bind_eq_ok, pure_eq_ok]
    exact ⟨s', ⟨s', hs', rfl⟩, hR⟩
  | reveal value recipient =>
    simp only [plainStep, Option.bind_eq_bind, Option.bind_eq_some_iff, Option.pure_def,
      Option.some.injEq, Prod.mk.injEq] at hp
    obtain ⟨bits, hv, rfl, rfl⟩ := hp
    obtain ⟨s', hs', hR⟩ := h.reveal backend hfit hpin hv
    simp only [ChunkedSession.step, bind_eq_ok, pure_eq_ok]
    exact ⟨s', ⟨_, hs', rfl⟩, hR⟩
  | checkpoint =>
    simp only [plainStep, Option.pure_def, Option.some.injEq, Prod.mk.injEq] at hp
    obtain ⟨rfl, rfl⟩ := hp
    obtain ⟨s', hs', hR⟩ := h.checkpoint
    simp only [ChunkedSession.step, bind_eq_ok, pure_eq_ok]
    exact ⟨s', ⟨s', hs', rfl⟩, hR⟩
  | run prog args dsts =>
    simp only [plainStep, Option.bind_eq_bind, Option.bind_eq_some_iff, Option.pure_def,
      Option.some.injEq, Prod.mk.injEq] at hp
    obtain ⟨bits, hv, outs, ho, τ, hb, rfl, rfl⟩ := hp
    obtain ⟨s', hs', hR⟩ := h.run hfit.1 hfit.2 hpin hv ho hb
    simp only [ChunkedSession.step, bind_eq_ok, pure_eq_ok]
    exact ⟨s', ⟨s', hs', rfl⟩, hR⟩

theorem Refines.runOps {s : ChunkedSession} {σ σ' : PlainState} (h : Refines s σ)
    (backend : Backend) {ops : List SessionOp} {outs : List (Option (List Bool))}
    (hfit : ChunkedSession.Along (·.Within backend) backend ops s)
    (hpin : ChunkedSession.Along ChunkedSession.Pinnable backend ops s)
    (hp : plainRun backend ops σ = some (outs, σ')) :
    ∃ s', ChunkedSession.runOps backend ops s = .ok (outs, s') ∧ Refines s' σ' := by
  induction ops generalizing s σ outs with
  | nil =>
    simp only [plainRun, Option.pure_def, Option.some.injEq, Prod.mk.injEq] at hp
    obtain ⟨rfl, rfl⟩ := hp
    exact ⟨s, rfl, h⟩
  | cons op ops ih =>
    simp only [plainRun, Option.bind_eq_bind, Option.bind_eq_some_iff, Option.pure_def,
      Option.some.injEq, Prod.mk.injEq, Prod.exists] at hp
    obtain ⟨out, τ, hstep, rest, τ', hrest, rfl, rfl⟩ := hp
    obtain ⟨s₁, hs₁, hR₁⟩ := h.step backend hfit.1 hpin.1 hstep
    obtain ⟨s₂, hs₂, hR₂⟩ := ih hR₁ (hfit.2 out s₁ hs₁) (hpin.2 out s₁ hs₁) hrest
    simp only [ChunkedSession.runOps, bind_eq_ok, pure_eq_ok]
    exact ⟨s₂, ⟨_, hs₁, _, hs₂, rfl⟩, hR₂⟩

theorem refines_start : Refines {} fun _ => none where
  coherent := ⟨⟨by simp, by simp, by simp⟩, by simp, by simp, nofun, nofun, trivial, nofun, by decide⟩
  finite := by simp
  counted id := by simp [handleCount]
  bounded id := by simp
  known := nofun
  values _ := rfl

theorem chunked_session_refines_plaintext (backend : Backend) (ops : List SessionOp)
    (outs : List (Option (List Bool))) (σ : PlainState)
    (hrun : plainRun backend ops (fun _ => none) = some (outs, σ))
    (hwithin : ChunkedSession.Along (·.Within backend) backend ops {})
    (hpin : ChunkedSession.Along ChunkedSession.Pinnable backend ops {}) :
    ∃ s, ChunkedSession.runOps backend ops {} = .ok (outs, s) := by
  obtain ⟨s, hs, -⟩ := refines_start.runOps backend hwithin hpin hrun
  exact ⟨s, hs⟩

def soloBackend : Backend where
  party := 1
  recipientOk recipient := recipient = 0 || recipient = 1 || recipient = 2

def andProgram : BooleanProgram where
  numWires := 3
  numInputs := 2
  gates := [⟨0, 1, 2, .and⟩]
  outputs := [2]

def sessionSample : List SessionOp :=
  [.input [0, 1] [true, false], .publicBit 2 true, .xorGate 3 0 1, .andGate 4 3 2, .copy 5 4,
    .destroy 4, .checkpoint, .publicBit 6 true, .notGate 7 1, .moveAssign 2 7,
    .run andProgram [[5], [0]] [8], .andGate 9 8 2, .reveal [9, 5] 0, .reveal [1] 2, .checkpoint,
    .copyAssign 1 9, .reveal [1] 1]

theorem chunked_session_refines_plaintext_sessionSample :
    ∃ s, ChunkedSession.runOps soloBackend sessionSample {} =
      .ok ([some [true, true], none, some [true]], s) := by
  obtain ⟨⟨outs, σ⟩, hrun⟩ := Option.isSome_iff_exists.mp
    (by decide +kernel : (plainRun soloBackend sessionSample fun _ => none).isSome)
  have houts : (plainRun soloBackend sessionSample fun _ => none).map Prod.fst =
      some [some [true, true], none, some [true]] := by decide +kernel
  rw [hrun] at houts
  obtain ⟨s, hs⟩ := chunked_session_refines_plaintext soloBackend sessionSample outs σ hrun
    (by decide +kernel) (by decide +kernel)
  exact ⟨s, Option.some.inj houts ▸ hs⟩

def copies (dsts : List Nat) : List SessionOp := dsts.map fun dst => .copy dst 0

def manyHandles (n : Nat) : List SessionOp :=
  .input [0] [true] :: (copies (List.range' 1 n) ++ [.reveal [0] 0])

theorem copies_overflow (backend : Backend) (rest : List SessionOp) {dsts : List Nat}
    {s : ChunkedSession} (h0 : s.id 0 = 1) (hd : ∀ d ∈ dsts, d ≠ 0)
    (hlong : 2 ^ 31 ≤ s.ctx.rc 1 + dsts.length) (hlt : s.ctx.rc 1 < 2 ^ 31)
    (r : List (Option (List Bool)) × ChunkedSession) :
    ChunkedSession.runOps backend (copies dsts ++ rest) s ≠ .ok r := by
  induction dsts generalizing s r with
  | nil =>
    rw [List.length_nil] at hlong
    omega
  | cons d dsts ih =>
    rw [List.forall_mem_cons] at hd
    simp only [copies, List.map_cons, List.cons_append, ChunkedSession.runOps, ChunkedSession.step,
      ChunkedSession.copy, ChunkedSession.construct, ChunkRecorderCtx.pin, h0, bind_eq_ok,
      pure_eq_ok, addInt_ok, ne_eq, if_neg (by decide : ¬ (1 : UInt32) = 0)]
    rintro ⟨_, ⟨_, ⟨c, ⟨n, ⟨hbound, rfl⟩, rfl⟩, rfl⟩, rfl⟩, r', hrest, -⟩
    refine ih ?_ hd.2 ?_ ?_ r' hrest
    · simp only [ChunkedSession.id, Function.update_of_ne hd.1.symm]
      exact h0
    · simp only [Function.update_self, List.length_cons] at hlong ⊢
      omega
    · simp only [Function.update_self]
      omega

theorem plainRun_copies (backend : Backend) (rest : List SessionOp) {dsts : List Nat}
    {σ : PlainState} (h0 : σ 0 = some (some true)) (hn : dsts.Nodup)
    (hd : ∀ d ∈ dsts, d ≠ 0 ∧ σ d = none) :
    ∃ τ, τ 0 = some (some true) ∧ plainRun backend (copies dsts ++ rest) σ =
      plainRun backend rest τ := by
  induction dsts generalizing σ with
  | nil => exact ⟨σ, h0, rfl⟩
  | cons d dsts ih =>
    rw [List.nodup_cons] at hn
    rw [List.forall_mem_cons] at hd
    have hfree : ∀ x ∈ dsts, x ≠ 0 ∧ Function.update σ d (some (some true)) x = none := by
      intro x hx
      have hne : x ≠ d := fun hxd => hn.1 (hxd ▸ hx)
      rw [Function.update_of_ne hne]
      exact hd.2 x hx
    obtain ⟨τ, hτ, hrun⟩ := ih (by rw [Function.update_of_ne hd.1.1.symm, h0]) hn.2 hfree
    refine ⟨τ, hτ, ?_⟩
    rw [← hrun]
    simp only [copies, List.map_cons, List.cons_append, plainRun, plainStep, h0, hd.1.2, if_true,
      Option.bind_eq_bind, Option.bind_some, Option.pure_def, List.nil_append]
    cases plainRun backend _ (Function.update σ d (some (some true))) <;> rfl

theorem within_copies (backend : Backend) (dsts : List Nat) (s : ChunkedSession)
    (hok : backend.recipientOk 0 = true) :
    ChunkedSession.Along (·.Within backend) backend (copies dsts ++ [.reveal [0] 0]) s := by
  induction dsts generalizing s with
  | nil => exact ⟨hok, fun _ _ _ => trivial⟩
  | cons d dsts ih => exact ⟨trivial, fun _ s' _ => ih s'⟩

theorem manyHandles_overflow {n : Nat} (hn : 2 ^ 31 ≤ n + 1) :
    ChunkedSession.Along (·.Within soloBackend) soloBackend (manyHandles n) {} ∧
    (∃ σ, plainRun soloBackend (manyHandles n) (fun _ => none) =
      some ([some [true]], σ)) ∧
    ¬ ∃ r, ChunkedSession.runOps soloBackend (manyHandles n) {} = .ok r := by
  have hdsts : ∀ d ∈ List.range' 1 n, d ≠ 0 := by
    intro d hd
    have := List.mem_range'_1.mp hd
    omega
  refine ⟨⟨by decide, fun _ s' _ => within_copies soloBackend _ s' rfl⟩, ?_, ?_⟩
  · obtain ⟨τ, hτ, hrun⟩ := plainRun_copies soloBackend [.reveal [0] 0]
      (σ := Function.update (fun _ => none) 0 (some (some true))) rfl List.nodup_range'
      fun d hd => ⟨hdsts d hd, by rw [Function.update_of_ne (hdsts d hd)]⟩
    refine ⟨τ, ?_⟩
    have hfirst : plainStep soloBackend (fun _ => none) (.input [0] [true]) =
        some ([], (Function.update (fun _ => none) 0 (some (some true)) : PlainState)) := rfl
    have hlast : plainRun soloBackend [.reveal [0] 0] τ = some ([some [true]], τ) := by
      simp [plainRun, plainStep, plainBit, hτ, Backend.receives]
    rw [manyHandles, plainRun, hfirst]
    simp only [Option.bind_eq_bind, Option.bind_some, hrun, hlast]
    rfl
  · rintro ⟨r, hr⟩
    rw [manyHandles, ChunkedSession.runOps] at hr
    obtain ⟨⟨out, s⟩, hs, hrest⟩ := bind_eq_ok.mp hr
    obtain ⟨r', hr', -⟩ := bind_eq_ok.mp hrest
    have hid : (fun x => (x.2.id 0, x.2.ctx.rc 1)) <$>
        ChunkedSession.step {} soloBackend (.input [0] [true]) = .ok (1, 1) := rfl
    rw [hs] at hid
    obtain ⟨h0, h1⟩ := Prod.mk.inj (Except.ok.inj hid)
    refine copies_overflow soloBackend [.reveal [0] 0] h0 hdsts ?_ ?_ r' hr'
    · rw [h1, List.length_range']
      omega
    · rw [h1]
      decide

theorem chunked_session_handle_count_overflows :
    ChunkedSession.Along (·.Within soloBackend) soloBackend (manyHandles (2 ^ 31 - 1)) {} ∧
    (∃ σ, plainRun soloBackend (manyHandles (2 ^ 31 - 1)) (fun _ => none) =
      some ([some [true]], σ)) ∧
    ¬ ∃ r, ChunkedSession.runOps soloBackend (manyHandles (2 ^ 31 - 1)) {} = .ok r :=
  manyHandles_overflow (by decide)

end EmpTool.Session
