import EmpTool.Session.RecorderCounts

namespace EmpTool.Session

namespace CountedCtx

-- the table as the function that the session's model has for it
def table (c : CountedCtx) : ChunkRecorderCtx where
  rc := c.count
  nextId := c.nextId
  chunkGates := c.chunkGates
  pending := c.pending
  constWire := c.constWire

variable {c c' : CountedCtx}

theorem adjust_table {d : Int} {id : UInt32}
    (h : (if id = 0 then pure c else c.adjust d id) = Except.ok c') :
    (if id = 0 then pure c.table else addInt (c.table.rc id) d >>= fun n =>
      pure { c.table with rc := Function.update c.table.rc id n }) = Except.ok c'.table := by
  split at h
  case isTrue hnull =>
    rw [if_pos hnull]
    exact congrArg (Except.ok ∘ table) (Except.ok.inj h)
  case isFalse hne =>
    rw [if_neg hne]
    cases hget : c.rc[id.toNat]? with
    | none =>
      rw [adjust, hget] at h
      cases h
    | some count =>
      rw [adjust, hget] at h
      obtain ⟨n, hn, hc⟩ := bind_eq_ok.mp h
      obtain rfl := Except.ok.inj hc
      have hid : id.toNat < c.rc.length := (List.getElem?_eq_some_iff.mp hget).1
      have hcount : c.table.rc id = count := count_of_getElem? hget
      refine bind_eq_ok.mpr ⟨n, by rw [hcount, hn], ?_⟩
      rw [pure_eq_ok, table, ChunkRecorderCtx.mk.injEq]
      exact ⟨(funext (count_set c hid n)).symm, rfl, rfl, rfl, rfl⟩

theorem pin_table {id : UInt32} (h : c.pin id = .ok c') : c.table.pin id = .ok c'.table :=
  adjust_table h

theorem unpin_table {id : UInt32} (h : c.unpin id = .ok c') :
    c.table.unpin id = .ok c'.table :=
  adjust_table h

-- a pushed zero is what the function has at that id already
theorem allocId_table {o : UInt32} (hsize : c.rc.length = c.nextId.toNat)
    (h : c.allocId = .ok (o, c')) : c.table.allocId = .ok (o, c'.table) := by
  simp only [allocId, bind_eq_ok, expecting_eq_ok, pure_eq_ok, Prod.mk.injEq] at h
  obtain ⟨-, hroom, rfl, rfl⟩ := h
  simp only [ChunkRecorderCtx.allocId, bind_eq_ok, expecting_eq_ok, pure_eq_ok, Prod.mk.injEq]
  refine ⟨(), hroom, rfl, ?_⟩
  rw [table, ChunkRecorderCtx.mk.injEq]
  refine ⟨?_, rfl, rfl, rfl, rfl⟩
  funext x
  refine Eq.trans ?_ (getD_push_zero c.rc x.toNat).symm
  rw [Function.update_apply]
  split
  case isTrue hx => rw [hx, ← count, count_nextId hsize]
  case isFalse hx => rfl

variable (hsize : c.rc.length = c.nextId.toNat) {r : UInt32 × CountedCtx}

include hsize

theorem record_table {a b : UInt32} {op : Ir.Op} (h : c.record a b op = .ok r) :
    c.table.record a b op = .ok (r.1, r.2.table) := by
  obtain ⟨⟨o, d⟩, halloc, hr⟩ := bind_eq_ok.mp h
  obtain rfl := Except.ok.inj hr
  exact bind_eq_ok.mpr ⟨_, allocId_table hsize halloc, rfl⟩

theorem publicBit_table {v : Bool} (h : c.publicBit v = .ok r) :
    c.table.publicBit v = .ok (r.1, r.2.table) := by
  cases hv : c.constWire v with
  | some o =>
    have hconst : c.table.constWire v = some o := hv
    rw [publicBit, hv] at h
    obtain rfl := Except.ok.inj h
    rw [ChunkRecorderCtx.publicBit, hconst]
    rfl
  | none =>
    have hconst : c.table.constWire v = none := hv
    rw [publicBit, hv] at h
    obtain ⟨⟨o, d⟩, halloc, hr⟩ := bind_eq_ok.mp h
    obtain rfl := Except.ok.inj hr
    rw [ChunkRecorderCtx.publicBit, hconst]
    exact bind_eq_ok.mpr ⟨_, allocId_table hsize halloc, rfl⟩

theorem andGate_table {a b : UInt32} (h : c.andGate a b = .ok r) :
    c.table.andGate a b = .ok (r.1, r.2.table) := by
  obtain ⟨_, ha, h⟩ := bind_eq_ok.mp h
  obtain ⟨_, hb, h⟩ := bind_eq_ok.mp h
  exact bind_eq_ok.mpr ⟨(), ha, bind_eq_ok.mpr ⟨(), hb, record_table hsize h⟩⟩

theorem xorGate_table {a b : UInt32} (h : c.xorGate a b = .ok r) :
    c.table.xorGate a b = .ok (r.1, r.2.table) := by
  obtain ⟨_, ha, h⟩ := bind_eq_ok.mp h
  obtain ⟨_, hb, h⟩ := bind_eq_ok.mp h
  exact bind_eq_ok.mpr ⟨(), ha, bind_eq_ok.mpr ⟨(), hb, record_table hsize h⟩⟩

theorem notGate_table {a : UInt32} (h : c.notGate a = .ok r) :
    c.table.notGate a = .ok (r.1, r.2.table) := by
  obtain ⟨_, ha, h⟩ := bind_eq_ok.mp h
  exact bind_eq_ok.mpr ⟨(), ha, record_table hsize h⟩

end CountedCtx

def LiveWires.session (s : LiveWires) (carried : UInt32 → Option Bool) (numAnd : Nat) :
    ChunkedSession where
  ctx := s.ctx.table
  carried := carried
  numAnd := numAnd
  wires := s.wires

def WireOp.sessionOp : WireOp → Option SessionOp
  | .publicBit dst v => some (.publicBit dst v)
  | .andGate dst a b => some (.andGate dst a b)
  | .xorGate dst a b => some (.xorGate dst a b)
  | .notGate dst a => some (.notGate dst a)
  | .copy dst src => some (.copy dst src)
  | .move dst src => some (.move dst src)
  | .copyAssign dst src => some (.copyAssign dst src)
  | .moveAssign dst src => some (.moveAssign dst src)
  | .destroy wire => some (.destroy wire)
  | .null _ | .construct _ _ | .reserveIds _ | .dropChunk => none

namespace LiveWires

variable {s s' : LiveWires} {carried : UInt32 → Option Bool} {numAnd : Nat}

theorem construct_session {dst : Nat} {r : UInt32 × CountedCtx} (h : s.construct dst r = .ok s') :
    (s.session carried numAnd).construct dst (r.1, r.2.table) =
      .ok (s'.session carried numAnd) := by
  obtain ⟨ctx, hpin, hs⟩ := bind_eq_ok.mp h
  obtain rfl := Except.ok.inj hs
  exact bind_eq_ok.mpr ⟨_, CountedCtx.pin_table hpin, rfl⟩

theorem copyAssign_session {dst src : Nat} (h : s.copyAssign dst src = .ok s') :
    (s.session carried numAnd).copyAssign dst src = .ok (s'.session carried numAnd) := by
  rw [copyAssign] at h
  rw [ChunkedSession.copyAssign]
  split at h
  case isTrue hne =>
    obtain ⟨c, hunpin, h⟩ := bind_eq_ok.mp h
    obtain ⟨c', hpin, hs⟩ := bind_eq_ok.mp h
    obtain rfl := Except.ok.inj hs
    refine (if_pos hne).trans (bind_eq_ok.mpr ⟨_, CountedCtx.unpin_table hunpin, ?_⟩)
    exact bind_eq_ok.mpr ⟨_, CountedCtx.pin_table hpin, rfl⟩
  case isFalse heq =>
    obtain rfl := Except.ok.inj h
    exact if_neg heq

theorem moveAssign_session {dst src : Nat} (h : s.moveAssign dst src = .ok s') :
    (s.session carried numAnd).moveAssign dst src = .ok (s'.session carried numAnd) := by
  rw [moveAssign] at h
  rw [ChunkedSession.moveAssign]
  split at h
  case isTrue hne =>
    obtain ⟨c, hunpin, hs⟩ := bind_eq_ok.mp h
    obtain rfl := Except.ok.inj hs
    rw [if_pos hne]
    exact bind_eq_ok.mpr ⟨_, CountedCtx.unpin_table hunpin, rfl⟩
  case isFalse heq =>
    obtain rfl := Except.ok.inj h
    rw [if_neg heq]
    rfl

theorem destroy_session {wire : Nat} (h : s.destroy wire = .ok s') :
    (s.session carried numAnd).destroy wire = .ok (s'.session carried numAnd) := by
  obtain ⟨ctx, hunpin, hs⟩ := bind_eq_ok.mp h
  obtain rfl := Except.ok.inj hs
  exact bind_eq_ok.mpr ⟨_, CountedCtx.unpin_table hunpin, rfl⟩

theorem move_session {dst src : Nat} (hs : s.wires src ≠ none) :
    (s.session carried numAnd).move dst src = (s.move dst src).session carried numAnd := by
  have hsrc : (s.session carried numAnd).wires src = some (s.id src) := wires_eq hs
  rw [ChunkedSession.move, hsrc]
  rfl

theorem step_session (backend : Backend) (hsize : s.ctx.rc.length = s.ctx.nextId.toNat)
    {op : WireOp} {sop : SessionOp} (hop : op.sessionOp = some sop) (hlife : s.Permitted op)
    (h : s.step op = .ok s') :
    (s.session carried numAnd).step backend sop = .ok ([], s'.session carried numAnd) := by
  cases op with
  | publicBit dst v =>
    obtain rfl := Option.some.inj hop
    obtain ⟨r, hr, hs⟩ := bind_eq_ok.mp h
    exact bind_eq_ok.mpr ⟨_, CountedCtx.publicBit_table hsize hr,
      bind_eq_ok.mpr ⟨_, construct_session hs, rfl⟩⟩
  | andGate dst a b =>
    obtain rfl := Option.some.inj hop
    obtain ⟨r, hr, hs⟩ := bind_eq_ok.mp h
    exact bind_eq_ok.mpr ⟨_, CountedCtx.andGate_table hsize hr,
      bind_eq_ok.mpr ⟨_, construct_session hs, rfl⟩⟩
  | xorGate dst a b =>
    obtain rfl := Option.some.inj hop
    obtain ⟨r, hr, hs⟩ := bind_eq_ok.mp h
    exact bind_eq_ok.mpr ⟨_, CountedCtx.xorGate_table hsize hr,
      bind_eq_ok.mpr ⟨_, construct_session hs, rfl⟩⟩
  | notGate dst a =>
    obtain rfl := Option.some.inj hop
    obtain ⟨r, hr, hs⟩ := bind_eq_ok.mp h
    exact bind_eq_ok.mpr ⟨_, CountedCtx.notGate_table hsize hr,
      bind_eq_ok.mpr ⟨_, construct_session hs, rfl⟩⟩
  | copy dst src =>
    obtain rfl := Option.some.inj hop
    exact bind_eq_ok.mpr ⟨_, construct_session h, rfl⟩
  | move dst src =>
    obtain rfl := Option.some.inj hop
    obtain rfl := Except.ok.inj h
    rw [ChunkedSession.step, move_session hlife.2]
    rfl
  | copyAssign dst src =>
    obtain rfl := Option.some.inj hop
    exact bind_eq_ok.mpr ⟨_, copyAssign_session h, rfl⟩
  | moveAssign dst src =>
    obtain rfl := Option.some.inj hop
    exact bind_eq_ok.mpr ⟨_, moveAssign_session h, rfl⟩
  | destroy wire =>
    obtain rfl := Option.some.inj hop
    exact bind_eq_ok.mpr ⟨_, destroy_session h, rfl⟩
  | null dst => exact nomatch hop
  | construct dst id => exact nomatch hop
  | reserveIds n => exact nomatch hop
  | dropChunk => exact nomatch hop

theorem runOps_session (backend : Backend) (h : Exact s.ctx s.wires) {ops : List WireOp}
    {sops : List SessionOp} (hops : ops.mapM WireOp.sessionOp = some sops)
    (hlife : Along Permitted ops s) (hfit : Along Fits ops s) (hrun : runOps ops s = .ok s') :
    ChunkedSession.runOps backend sops (s.session carried numAnd) =
      .ok ([], s'.session carried numAnd) := by
  induction ops generalizing s sops with
  | nil =>
    rw [List.mapM_nil] at hops
    obtain rfl := Option.some.inj hops
    obtain rfl := Except.ok.inj hrun
    rfl
  | cons op ops ih =>
    rw [List.mapM_cons] at hops
    obtain ⟨sop, hop, hops⟩ := Option.bind_eq_some_iff.mp hops
    obtain ⟨rest, hrest, hsops⟩ := Option.bind_eq_some_iff.mp hops
    obtain rfl := Option.some.inj hsops
    obtain ⟨next, hstep, hrun⟩ := bind_eq_ok.mp hrun
    have hexact : Exact next.ctx next.wires := by
      rcases h.step hlife.1 hfit.1 with ⟨a, ha, hexact⟩ | hfull
      · exact Except.ok.inj (hstep.symm.trans ha) ▸ hexact
      · rw [hfull] at hstep
        exact nomatch hstep
    have hlater := ih hexact hrest (hlife.2 next hstep) (hfit.2 next hstep) hrun
    exact bind_eq_ok.mpr ⟨_, step_session backend h.size hop hlife.1 hstep,
      bind_eq_ok.mpr ⟨_, hlater, rfl⟩⟩

theorem session_start : session {} (fun _ => none) 0 = {} := by
  have hcount : CountedCtx.count {} = fun _ => 0 := funext count_start
  rw [session, CountedCtx.table, hcount]

theorem session_run_of_wire_run (backend : Backend) {ops : List WireOp} {sops : List SessionOp}
    (hops : ops.mapM WireOp.sessionOp = some sops) (hlife : Along Permitted ops {})
    (hfit : Along Fits ops {}) (hrun : runOps ops {} = .ok s) :
    ChunkedSession.runOps backend sops {} = .ok ([], s.session (fun _ => none) 0) := by
  rw [← session_start]
  exact runOps_session backend exact_start hops hlife hfit hrun

end LiveWires

end EmpTool.Session
