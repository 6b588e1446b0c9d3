import EmpTool.Session.ChunkWire
import EmpTool.Session.Handles
import Mathlib.Data.List.GetD

namespace EmpTool.Session

def Settles {α : Type} (x : Except String α) (P : α → Prop) : Prop :=
  (∃ a, x = .ok a ∧ P a) ∨ x = .error idOverflow

namespace Settles

variable {α β : Type} {x : Except String α} {P : α → Prop} {Q : β → Prop}

theorem ok {a : α} (h : P a) : Settles (.ok a) P := Or.inl ⟨a, rfl, h⟩

theorem bind {f : α → Except String β} (h : Settles x P) (hf : ∀ a, P a → Settles (f a) Q) :
    Settles (x >>= f) Q := by
  rcases h with ⟨a, rfl, ha⟩ | rfl
  · exact hf a ha
  · exact Or.inr rfl

theorem expecting {condition : Prop} [Decidable condition] {message : String}
    {f : Unit → Except String β} (hc : condition) (h : Settles (f ()) Q) :
    Settles (EmpTool.expecting condition message >>= f) Q := by
  rw [EmpTool.expecting, if_pos hc]
  exact h

end Settles

namespace CountedCtx

def count (c : CountedCtx) (id : UInt32) : Int := c.rc.getD id.toNat 0

theorem getD_push_zero (rc : List Int) (k : Nat) : (rc ++ [0]).getD k 0 = rc.getD k 0 := by
  by_cases hk : k < rc.length
  · exact List.getD_append rc [0] 0 k hk
  · rw [List.getD_append_right rc [0] 0 k (by omega), List.getD_eq_default rc 0 (by omega)]
    rw [List.getD_eq_getElem?_getD]
    exact List.getElem?_getD_singleton_default_eq 0 _

theorem count_nextId {c : CountedCtx} (hsize : c.rc.length = c.nextId.toNat) :
    c.count c.nextId = 0 := by
  rw [count, List.getD_eq_default]
  exact hsize.le

theorem count_of_getElem? {c : CountedCtx} {id : UInt32} {n : Int}
    (h : c.rc[id.toNat]? = some n) : c.count id = n := by
  rw [count, List.getD_eq_getElem?_getD, h, Option.getD_some]

theorem count_set (c : CountedCtx) {id : UInt32} (hid : id.toNat < c.rc.length) (n : Int)
    (x : UInt32) : (c.rc.set id.toNat n).getD x.toNat 0 = Function.update c.count id n x := by
  rw [List.getD_eq_getElem?_getD, List.getElem?_set, Function.update_apply]
  by_cases hx : x = id
  · rw [if_pos (congrArg UInt32.toNat hx.symm), if_pos hid, if_pos hx, Option.getD_some]
  · rw [if_neg fun he => hx (UInt32.toNat_inj.mp he).symm, if_neg hx, count,
      List.getD_eq_getElem?_getD]

theorem adjust_ok {c : CountedCtx} {id : UInt32} (hid : id.toNat < c.rc.length) (d : Int)
    (h0 : id ≠ 0 → -2 ^ 31 ≤ c.count id + d) (h1 : id ≠ 0 → c.count id + d < 2 ^ 31) :
    ∃ rc, (if id = 0 then pure c else c.adjust d id) = Except.ok { c with rc } ∧
      rc.length = c.rc.length ∧
      ∀ x, rc.getD x.toNat 0 = c.count x + if x = id ∧ id ≠ 0 then d else 0 := by
  split
  case isTrue hnull => exact ⟨c.rc, rfl, rfl, fun x => by simp [hnull, count]⟩
  case isFalse hne =>
    have hget : c.rc[id.toNat]? = some (c.count id) := by
      rw [count, List.getD_eq_getElem _ _ hid, List.getElem?_eq_getElem hid]
    refine ⟨c.rc.set id.toNat (c.count id + d), ?_, List.length_set, fun x => ?_⟩
    · simp only [adjust, hget, bind_eq_ok, addInt_ok, pure_eq_ok]
      exact ⟨_, ⟨⟨h0 hne, h1 hne⟩, rfl⟩, rfl⟩
    · rw [count_set c hid, Function.update_apply]
      by_cases hx : x = id
      · rw [if_pos hx, if_pos ⟨hx, hne⟩, hx]
      · rw [if_neg hx, if_neg fun h => hx h.1, add_zero]

theorem pin_ok {c : CountedCtx} {id : UInt32} (hid : id.toNat < c.rc.length)
    (h0 : 0 ≤ c.count id) (h1 : id ≠ 0 → c.count id + 1 < 2 ^ 31) :
    ∃ rc, c.pin id = .ok { c with rc } ∧ rc.length = c.rc.length ∧
      ∀ x, rc.getD x.toNat 0 = c.count x + held (some id) x := by
  obtain ⟨rc, hrc, hsize, hcount⟩ := adjust_ok hid 1 (by omega) h1
  refine ⟨rc, hrc, hsize, fun x => ?_⟩
  rw [hcount, held_some]

theorem unpin_ok {c : CountedCtx} {id : UInt32} (hid : id.toNat < c.rc.length)
    (h0 : 0 ≤ c.count id) (h1 : c.count id < 2 ^ 31) :
    ∃ rc, c.unpin id = .ok { c with rc } ∧ rc.length = c.rc.length ∧
      ∀ x, rc.getD x.toNat 0 = c.count x - held (some id) x := by
  obtain ⟨rc, hrc, hsize, hcount⟩ := adjust_ok hid (-1) (by omega) (by omega)
  refine ⟨rc, hrc, hsize, fun x => ?_⟩
  rw [hcount, held_some]
  split
  case isTrue hx => rfl
  case isFalse hx => rw [add_zero, sub_zero]

end CountedCtx

structure Exact (c : CountedCtx) (wires : Nat → Option UInt32) : Prop where
  size : c.rc.length = c.nextId.toNat
  counted : Counted c.count wires
  bounded : ∀ id, c.count id < 2 ^ 31
  finite : {x | wires x ≠ none}.Finite
  allocated : ∀ x id, wires x = some id → id < c.nextId
  consts : ∀ v o, c.constWire v = some o → o < c.nextId
  next_pos : 0 < c.nextId

namespace Exact

variable {c : CountedCtx} {wires : Nat → Option UInt32} (h : Exact c wires)

include h

theorem index {id : UInt32} (hid : id < c.nextId) : id.toNat < c.rc.length := by
  rw [h.size]
  exact UInt32.lt_iff_toNat_lt.mp hid

theorem update (x : Nat) (v : Option UInt32) {rc : List Int} (hsize : rc.length = c.rc.length)
    (hv : ∀ id, v = some id → id < c.nextId)
    (hrc : ∀ id : UInt32, rc.getD id.toNat 0 = c.count id + held v id - held (wires x) id)
    (hb : ∀ id : UInt32, rc.getD id.toNat 0 < 2 ^ 31) :
    Exact { c with rc } (Function.update wires x v) where
  size := hsize.trans h.size
  counted := h.counted.update h.finite x v hrc
  bounded := hb
  finite := finite_update h.finite x v
  allocated y id hy := by
    rw [Function.update_apply] at hy
    split at hy
    case isTrue heq => exact hv id hy
    case isFalse hne => exact h.allocated y id hy
  consts := h.consts
  next_pos := h.next_pos

theorem transfer {dst src : Nat} {id : UInt32} (hs : wires src = some id) (hne : dst ≠ src)
    {rc : List Int} (hsize : rc.length = c.rc.length)
    (hrc : ∀ x : UInt32, rc.getD x.toNat 0 = c.count x - held (wires dst) x) :
    Exact { c with rc }
      (Function.update (Function.update wires dst (some id)) src (some 0)) where
  size := hsize.trans h.size
  counted := h.counted.transfer h.finite hs hne hrc
  bounded x := by
    have hheld := held_bounds (wires dst) x
    have hb := h.bounded x
    rw [CountedCtx.count, hrc]
    omega
  finite := finite_update (finite_update h.finite dst (some id)) src (some 0)
  allocated y i hy := by
    simp only [Function.update_apply] at hy
    split at hy
    case isTrue heq => exact Option.some.inj hy ▸ h.next_pos
    case isFalse hne =>
      split at hy
      case isTrue heq => exact Option.some.inj hy ▸ h.allocated src id hs
      case isFalse hne => exact h.allocated y i hy
  consts := h.consts
  next_pos := h.next_pos

theorem pinned_bounded {id : UInt32} (hfit : id ≠ 0 → c.count id + 1 < 2 ^ 31) (x : UInt32) :
    c.count x + held (some id) x < 2 ^ 31 := by
  rw [held_some]
  split
  case isTrue hx =>
    rw [hx.1]
    exact hfit hx.2
  case isFalse hx =>
    rw [add_zero]
    exact h.bounded x

end Exact

section Objects

variable {s : LiveWires}

theorem LiveWires.wires_eq {x : Nat} (hx : s.wires x ≠ none) : s.wires x = some (s.id x) := by
  obtain ⟨id, hid⟩ := Option.ne_none_iff_exists'.mp hx
  rw [LiveWires.id, hid, Option.getD_some]

def Constructible (wires : Nat → Option UInt32) (r : UInt32 × CountedCtx) : Prop :=
  Exact r.2 wires ∧ r.1 < r.2.nextId ∧ (r.1 ≠ 0 → r.2.count r.1 + 1 < 2 ^ 31)

theorem Constructible.construct {r : UInt32 × CountedCtx} (h : Constructible s.wires r) {dst : Nat}
    (hd : s.wires dst = none) :
    Settles (s.construct dst r) fun s' => Exact s'.ctx s'.wires := by
  obtain ⟨hexact, hid, hfit⟩ := h
  obtain ⟨rc, hpin, hsize, hcount⟩ :=
    CountedCtx.pin_ok (hexact.index hid) (hexact.counted.nonneg r.1) hfit
  rw [LiveWires.construct, hpin]
  refine Settles.ok (hexact.update dst (some r.1) hsize ?_ (fun x => ?_) fun x => ?_)
  · intro id hr
    exact Option.some.inj hr ▸ hid
  · rw [hcount, hd, held_none, sub_zero]
  · rw [hcount]
    exact hexact.pinned_bounded hfit x

variable (h : Exact s.ctx s.wires)

include h

theorem Exact.unpin {x : Nat} (hx : s.wires x ≠ none) :
    ∃ rc, s.ctx.unpin (s.id x) = .ok { s.ctx with rc } ∧ rc.length = s.ctx.rc.length ∧
      ∀ i : UInt32, rc.getD i.toNat 0 = s.ctx.count i - held (s.wires x) i := by
  rw [LiveWires.wires_eq hx]
  exact CountedCtx.unpin_ok (h.index (h.allocated x _ (LiveWires.wires_eq hx)))
    (h.counted.nonneg _) (h.bounded _)

theorem Exact.move {dst src : Nat} (hd : s.wires dst = none) (hs : s.wires src ≠ none) :
    Exact (s.move dst src).ctx (s.move dst src).wires := by
  have hne : dst ≠ src := fun he => hs (he ▸ hd)
  refine h.transfer (LiveWires.wires_eq hs) hne rfl fun x => ?_
  rw [hd, held_none, sub_zero, CountedCtx.count]

theorem Exact.moveAssign {dst src : Nat} (hd : s.wires dst ≠ none) (hs : s.wires src ≠ none) :
    Settles (s.moveAssign dst src) fun s' => Exact s'.ctx s'.wires := by
  rw [LiveWires.moveAssign]
  split
  case isTrue hne =>
    obtain ⟨rc, hunpin, hsize, hcount⟩ := h.unpin hd
    rw [hunpin]
    exact Settles.ok (h.transfer (LiveWires.wires_eq hs) hne hsize hcount)
  case isFalse heq => exact Settles.ok h

theorem Exact.copyAssign {dst src : Nat} (hd : s.wires dst ≠ none) (hs : s.wires src ≠ none)
    (hfit : s.id dst ≠ s.id src → s.id src ≠ 0 → s.ctx.count (s.id src) + 1 < 2 ^ 31) :
    Settles (s.copyAssign dst src) fun s' => Exact s'.ctx s'.wires := by
  rw [LiveWires.copyAssign]
  split
  case isTrue hne =>
    have hid := h.allocated src _ (LiveWires.wires_eq hs)
    have hself : held (s.wires dst) (s.id src) = 0 :=
      if_neg fun he => hne (Option.some.inj ((LiveWires.wires_eq hd).symm.trans he.1))
    obtain ⟨rc, hunpin, hsize, hcount⟩ := h.unpin hd
    have hsrc : rc.getD (s.id src).toNat 0 = s.ctx.count (s.id src) := by
      rw [hcount, hself, sub_zero]
    obtain ⟨rc', hpin, hsize', hcount'⟩ :=
      @CountedCtx.pin_ok { s.ctx with rc } (s.id src) (by rw [hsize]; exact h.index hid)
        (by rw [CountedCtx.count, hsrc]; exact h.counted.nonneg _)
        (by rw [CountedCtx.count, hsrc]; exact hfit hne)
    have hsum (x : UInt32) : rc'.getD x.toNat 0 =
        s.ctx.count x + held (some (s.id src)) x - held (s.wires dst) x := by
      rw [hcount', CountedCtx.count, hcount]
      omega
    refine Or.inl ⟨_, bind_eq_ok.mpr ⟨_, hunpin, bind_eq_ok.mpr ⟨_, hpin, rfl⟩⟩, ?_⟩
    refine h.update dst (some (s.id src)) (hsize'.trans hsize) ?_ hsum fun x => ?_
    · intro id heq
      exact Option.some.inj heq ▸ hid
    · have hheld := held_bounds (s.wires dst) x
      have hb := h.pinned_bounded (hfit hne) x
      rw [hsum]
      omega
  case isFalse heq => exact Settles.ok h

theorem Exact.destroy {x : Nat} (hx : s.wires x ≠ none) :
    Settles (s.destroy x) fun s' => Exact s'.ctx s'.wires := by
  obtain ⟨rc, hunpin, hsize, hcount⟩ := h.unpin hx
  rw [LiveWires.destroy, hunpin]
  refine Settles.ok (h.update x none hsize nofun (fun i => ?_) fun i => ?_)
  · rw [hcount, held_none, add_zero]
  · have hheld := held_bounds (s.wires x) i
    have hb := h.bounded i
    rw [hcount]
    omega

theorem Exact.null {dst : Nat} (hd : s.wires dst = none) :
    Exact s.ctx (Function.update s.wires dst (some 0)) := by
  refine h.update dst (some 0) rfl ?_ (fun x => ?_) h.bounded
  · intro id heq
    exact Option.some.inj heq ▸ h.next_pos
  · rw [hd, held_none, held_moved, add_zero, sub_zero, CountedCtx.count]

end Objects

section Gates

open Ir

variable {c : CountedCtx} {wires : Nat → Option UInt32}

theorem Constructible.append {r : UInt32 × CountedCtx} (hr : Constructible wires r) (g : Gate) :
    Constructible wires (r.1, r.2.append g) :=
  ⟨⟨hr.1.size, hr.1.counted, hr.1.bounded, hr.1.finite, hr.1.allocated, hr.1.consts,
    hr.1.next_pos⟩, hr.2⟩

variable (h : Exact c wires)

include h

theorem Exact.allocId :
    Settles c.allocId fun r => Constructible wires r ∧ r.2.constWire = c.constWire := by
  rw [CountedCtx.allocId, expecting]
  split
  case isTrue hroom =>
    have hnext : (c.nextId + 1).toNat = c.nextId.toNat + 1 := by
      rw [UInt32.toNat_add]
      have := c.nextId.toNat_lt
      have := UInt32.toNat_inj.not.mpr hroom
      simp only [UInt32.reduceToNat] at *
      omega
    have hlt : c.nextId < c.nextId + 1 := UInt32.lt_iff_toNat_lt.mpr (by omega)
    have hcount : CountedCtx.count { c with rc := c.rc ++ [0], nextId := c.nextId + 1 } =
        c.count := by
      funext x
      exact CountedCtx.getD_push_zero c.rc x.toNat
    refine Settles.ok ⟨⟨⟨?_, ?_, ?_, h.finite, ?_, ?_, ?_⟩, hlt, fun _ => ?_⟩, rfl⟩
    · rw [List.length_append, h.size]
      exact hnext.symm
    · rw [hcount]
      exact h.counted
    · rw [hcount]
      exact h.bounded
    · exact fun x id hx => UInt32.lt_trans (h.allocated x id hx) hlt
    · exact fun v o hv => UInt32.lt_trans (h.consts v o hv) hlt
    · exact UInt32.lt_trans h.next_pos hlt
    · rw [hcount, CountedCtx.count_nextId h.size]
      decide
  case isFalse hfull => exact Or.inr rfl

theorem Exact.record (a b : UInt32) (op : Op) :
    Settles (c.record a b op) (Constructible wires) :=
  h.allocId.bind fun r hr => Settles.ok (hr.1.append ⟨a, b, r.1, op⟩)

theorem Exact.publicBit {v : Bool}
    (hfit : ∀ o, c.constWire v = some o → o ≠ 0 → c.count o + 1 < 2 ^ 31) :
    Settles (c.publicBit v) (Constructible wires) := by
  rw [CountedCtx.publicBit]
  split
  case h_1 o hv => exact Settles.ok ⟨h, h.consts v o hv, hfit o hv⟩
  case h_2 hv =>
    refine h.allocId.bind fun r hr => Settles.ok ?_
    obtain ⟨⟨hexact, hid, hroom⟩, hconst⟩ := hr
    refine ⟨⟨hexact.size, hexact.counted, hexact.bounded, hexact.finite, hexact.allocated, ?_,
      hexact.next_pos⟩, hid, hroom⟩
    intro u o ho
    simp only [CountedCtx.append, Function.update_apply] at ho
    split at ho
    case isTrue heq => exact Option.some.inj ho ▸ hid
    case isFalse hne => exact hexact.consts u o ho

theorem Exact.andGate {a b : UInt32} (ha : a < c.nextId) (hb : b < c.nextId) :
    Settles (c.andGate a b) (Constructible wires) :=
  Settles.expecting ha (Settles.expecting hb (h.record a b .and))

theorem Exact.xorGate {a b : UInt32} (ha : a < c.nextId) (hb : b < c.nextId) :
    Settles (c.xorGate a b) (Constructible wires) :=
  Settles.expecting ha (Settles.expecting hb (h.record a b .xor))

theorem Exact.notGate {a : UInt32} (ha : a < c.nextId) :
    Settles (c.notGate a) (Constructible wires) :=
  Settles.expecting ha (h.record a 0 .not)

theorem Exact.reserveIds (n : Nat) :
    Settles (CountedCtx.reserveIds n c) fun r => Exact r.2 wires := by
  induction n generalizing c with
  | zero => exact Settles.ok h
  | succ n ih =>
    refine h.allocId.bind fun r hr => ?_
    exact (ih hr.1.1).bind fun r' hr' => Settles.ok hr'

theorem Exact.dropChunk : Exact c.dropChunk wires where
  size := h.size
  counted := h.counted
  bounded := h.bounded
  finite := h.finite
  allocated := h.allocated
  consts := nofun
  next_pos := h.next_pos

end Gates

section Runs

variable {s : LiveWires}

-- pin is a bare `++rc_[id]` on an `int`
def LiveWires.Fits (s : LiveWires) (op : WireOp) : Prop :=
  ∀ id, s.pinned op = some id → id ≠ 0 → handleCount s.wires id + 1 < 2 ^ 31

theorem Exact.count_eq {c : CountedCtx} {wires : Nat → Option UInt32} (h : Exact c wires)
    {id : UInt32} (h0 : id ≠ 0) : c.count id = handleCount wires id := by
  rw [h.counted, if_neg h0]

theorem Exact.room (h : Exact s.ctx s.wires) {op : WireOp} (hfit : s.Fits op) {id : UInt32}
    (hp : s.pinned op = some id) (h0 : id ≠ 0) : s.ctx.count id + 1 < 2 ^ 31 := by
  have := hfit id hp h0
  rw [h.count_eq h0]
  omega

theorem Exact.step (h : Exact s.ctx s.wires) {op : WireOp} (hlife : s.Permitted op)
    (hfit : s.Fits op) : Settles (s.step op) fun s' => Exact s'.ctx s'.wires := by
  have hid {x : Nat} (hx : s.wires x ≠ none) : s.id x < s.ctx.nextId :=
    h.allocated x _ (LiveWires.wires_eq hx)
  cases op with
  | null dst => exact Settles.ok (h.null hlife)
  | construct dst id =>
    have hnew : Constructible s.wires (id, s.ctx) := ⟨h, hlife.2, h.room hfit rfl⟩
    exact hnew.construct hlife.1
  | copy dst src =>
    have hnew : Constructible s.wires (s.id src, s.ctx) := ⟨h, hid hlife.2, h.room hfit rfl⟩
    exact hnew.construct hlife.1
  | move dst src => exact Settles.ok (h.move hlife.1 hlife.2)
  | copyAssign dst src =>
    exact h.copyAssign hlife.1 hlife.2 fun hne => h.room hfit (if_pos hne)
  | moveAssign dst src => exact h.moveAssign hlife.1 hlife.2
  | destroy x => exact h.destroy hlife
  | publicBit dst v =>
    exact (h.publicBit fun o ho => h.room hfit ho).bind fun r hr => hr.construct hlife
  | andGate dst a b =>
    exact (h.andGate (hid hlife.2.1) (hid hlife.2.2)).bind fun r hr => hr.construct hlife.1
  | xorGate dst a b =>
    exact (h.xorGate (hid hlife.2.1) (hid hlife.2.2)).bind fun r hr => hr.construct hlife.1
  | notGate dst a => exact (h.notGate (hid hlife.2)).bind fun r hr => hr.construct hlife.1
  | reserveIds n => exact (h.reserveIds n).bind fun r hr => Settles.ok hr
  | dropChunk => exact Settles.ok h.dropChunk

theorem Exact.runOps (h : Exact s.ctx s.wires) {ops : List WireOp}
    (hlife : LiveWires.Along LiveWires.Permitted ops s)
    (hfit : LiveWires.Along LiveWires.Fits ops s) :
    Settles (LiveWires.runOps ops s) fun s' => Exact s'.ctx s'.wires := by
  induction ops generalizing s with
  | nil => exact Settles.ok h
  | cons op ops ih =>
    rw [LiveWires.runOps]
    rcases h.step hlife.1 hfit.1 with ⟨s', hs', hexact⟩ | hfull
    · rw [hs']
      exact ih hexact (hlife.2 s' hs') (hfit.2 s' hs')
    · rw [hfull]
      exact Or.inr rfl

theorem count_start (id : UInt32) : CountedCtx.count {} id = 0 := by
  rw [CountedCtx.count, List.getD_eq_getElem?_getD]
  exact List.getElem?_getD_singleton_default_eq 0 _

theorem exact_start : Exact {} fun _ => none where
  size := rfl
  counted id := by simp [count_start, handleCount]
  bounded id := by simp [count_start]
  finite := by simp
  allocated := nofun
  consts := nofun
  next_pos := by decide

-- outside the table there is nothing to count: an id that was never allocated is held by no wire
structure CountsExact (s : LiveWires) : Prop where
  size : s.ctx.rc.length = s.ctx.nextId.toNat
  live : {x | s.wires x ≠ none}.Finite
  counts : ∀ id : UInt32, id ≠ 0 → s.ctx.rc.getD id.toNat 0 = handleCount s.wires id
  nonneg : ∀ id : UInt32, id ≠ 0 → 0 ≤ s.ctx.rc.getD id.toNat 0
  scope : ∀ id : UInt32, id ≠ 0 → (s.ctx.inScope id = true ↔ ∃ x, s.wires x = some id)

theorem CountedCtx.inScope_iff (c : CountedCtx) (id : UInt32) :
    c.inScope id = true ↔ 0 < c.count id := by
  rw [CountedCtx.inScope, CountedCtx.count, List.getD_eq_getElem?_getD]
  cases c.rc[id.toNat]? with
  | none => simp
  | some count => simp

theorem Exact.countsExact (h : Exact s.ctx s.wires) : CountsExact s where
  size := h.size
  live := h.finite
  counts _ h0 := h.count_eq h0
  nonneg id _ := h.counted.nonneg id
  scope id h0 := (s.ctx.inScope_iff id).trans (h.counted.pos_iff h.finite h0)

theorem recorder_counts_exact (ops : List WireOp)
    (hlife : LiveWires.Along LiveWires.Permitted ops {})
    (hfit : LiveWires.Along LiveWires.Fits ops {}) :
    (∃ s, LiveWires.runOps ops {} = .ok s ∧ CountsExact s) ∨
      LiveWires.runOps ops {} = .error "ChunkRecorderCtx: recorder wire id overflow" := by
  rcases exact_start.runOps hlife hfit with ⟨s, hs, hexact⟩ | hfull
  · exact Or.inl ⟨s, hs, hexact.countsExact⟩
  · exact Or.inr hfull

end Runs

section Samples

namespace LiveWires

instance (s : LiveWires) : (op : WireOp) → Decidable (s.Permitted op)
  | .null dst | .publicBit dst _ => inferInstanceAs (Decidable (s.wires dst = none))
  | .construct dst id => inferInstanceAs (Decidable (s.wires dst = none ∧ id < s.ctx.nextId))
  | .copy dst src | .move dst src | .notGate dst src =>
    inferInstanceAs (Decidable (s.wires dst = none ∧ s.wires src ≠ none))
  | .copyAssign dst src | .moveAssign dst src =>
    inferInstanceAs (Decidable (s.wires dst ≠ none ∧ s.wires src ≠ none))
  | .destroy wire => inferInstanceAs (Decidable (s.wires wire ≠ none))
  | .andGate dst a b | .xorGate dst a b =>
    inferInstanceAs (Decidable (s.wires dst = none ∧ s.wires a ≠ none ∧ s.wires b ≠ none))
  | .reserveIds _ | .dropChunk => inferInstanceAs (Decidable True)

def TableFits (s : LiveWires) (op : WireOp) : Prop :=
  ∀ id ∈ s.pinned op, id ≠ 0 → s.ctx.count id + 1 < 2 ^ 31

instance (s : LiveWires) (op : WireOp) : Decidable (s.TableFits op) :=
  inferInstanceAs (Decidable (∀ id ∈ s.pinned op, id ≠ 0 → s.ctx.count id + 1 < 2 ^ 31))

theorem along_cons {P : LiveWires → WireOp → Prop} {op : WireOp} {ops : List WireOp}
    {s : LiveWires} :
    Along P (op :: ops) s ↔ P s op ∧ ∀ s' ∈ (s.step op).toOption, Along P ops s' := by
  refine and_congr_right fun _ => ?_
  cases s.step op with
  | error m => exact ⟨fun _ => nofun, fun _ => nofun⟩
  | ok r =>
    constructor
    · intro h s' hs
      exact h s' (congrArg Except.ok (Option.some.inj hs))
    · intro h s' hs
      exact h s' (congrArg some (Except.ok.inj hs))

instance decidableAlong (P : LiveWires → WireOp → Prop) [∀ s op, Decidable (P s op)] :
    (ops : List WireOp) → (s : LiveWires) → Decidable (Along P ops s)
  | [], _ => isTrue trivial
  | op :: ops, s =>
    have : ∀ s, Decidable (Along P ops s) := decidableAlong P ops
    decidable_of_iff (P s op ∧ ∀ s' ∈ (s.step op).toOption, Along P ops s') along_cons.symm

end LiveWires

theorem Exact.along_fits {s : LiveWires} (h : Exact s.ctx s.wires) {ops : List WireOp}
    (hlife : LiveWires.Along LiveWires.Permitted ops s)
    (hfit : LiveWires.Along LiveWires.TableFits ops s) :
    LiveWires.Along LiveWires.Fits ops s := by
  induction ops generalizing s with
  | nil => trivial
  | cons op ops ih =>
    have hop : s.Fits op := by
      intro id hp h0
      have := hfit.1 id hp h0
      rw [h.count_eq h0] at this
      omega
    refine ⟨hop, fun s' hs => ?_⟩
    rcases h.step hlife.1 hop with ⟨a, ha, hexact⟩ | hfull
    · obtain rfl := Except.ok.inj (hs.symm.trans ha)
      exact ih hexact (hlife.2 s' hs) (hfit.2 s' hs)
    · rw [hfull] at hs
      exact nomatch hs

def wireSample : List WireOp :=
  [.reserveIds 2, .construct 0 1, .construct 1 2, .andGate 2 0 1, .copy 3 2, .move 4 3, .null 5,
    .copyAssign 5 3, .copyAssign 3 2, .copyAssign 2 3, .copyAssign 2 2, .moveAssign 2 2,
    .moveAssign 2 3, .publicBit 6 true, .publicBit 7 true, .destroy 6, .notGate 8 5, .dropChunk,
    .destroy 4]

theorem recorder_counts_exact_wireSample :
    ∃ s, LiveWires.runOps wireSample {} = .ok s ∧ s.ctx.rc = [0, 1, 1, 1, 1, 1] ∧
      CountsExact s := by
  have htable : (LiveWires.runOps wireSample {}).toOption.map (·.ctx.rc) =
      some [0, 1, 1, 1, 1, 1] := by decide +kernel
  have hlife : LiveWires.Along LiveWires.Permitted wireSample {} := by decide +kernel
  have hfit : LiveWires.Along LiveWires.TableFits wireSample {} := by decide +kernel
  rcases recorder_counts_exact wireSample hlife (exact_start.along_fits hlife hfit) with
    ⟨s, hs, hexact⟩ | hfull
  · rw [hs] at htable
    exact ⟨s, hs, Option.some.inj htable, hexact⟩
  · rw [hfull] at htable
    exact nomatch htable

end Samples

section Limits

def wireCopies (dsts : List Nat) : List WireOp := dsts.map fun dst => .copy dst 0

theorem permitted_wireCopies {dsts : List Nat} {s : LiveWires} (h0 : s.wires 0 ≠ none)
    (hn : dsts.Nodup) (hd : ∀ d ∈ dsts, d ≠ 0 ∧ s.wires d = none) :
    LiveWires.Along LiveWires.Permitted (wireCopies dsts) s := by
  induction dsts generalizing s with
  | nil => trivial
  | cons d dsts ih =>
    rw [List.nodup_cons] at hn
    rw [List.forall_mem_cons] at hd
    refine ⟨⟨hd.1.2, h0⟩, fun s' hs => ?_⟩
    simp only [LiveWires.step, LiveWires.copy, LiveWires.construct, bind_eq_ok, pure_eq_ok] at hs
    obtain ⟨ctx, -, rfl⟩ := hs
    refine ih ?_ hn.2 fun x hx => ⟨(hd.2 x hx).1, ?_⟩
    · show Function.update s.wires d (some (s.id 0)) 0 ≠ none
      rw [Function.update_of_ne hd.1.1.symm]
      exact h0
    · have hne : x ≠ d := fun he => hn.1 (he ▸ hx)
      show Function.update s.wires d (some (s.id 0)) x = none
      rw [Function.update_of_ne hne]
      exact (hd.2 x hx).2

theorem wireCopies_overflow {dsts : List Nat} {s : LiveWires} {count : Int} (h0 : s.id 0 = 1)
    (hd : ∀ d ∈ dsts, d ≠ 0) (hcount : s.ctx.rc[1]? = some count)
    (hlt : count < 2 ^ 31) (hlong : 2 ^ 31 ≤ count + dsts.length) :
    LiveWires.runOps (wireCopies dsts) s = .error "signed int overflow" := by
  induction dsts generalizing s count with
  | nil =>
    rw [List.length_nil] at hlong
    omega
  | cons d dsts ih =>
    rw [List.forall_mem_cons] at hd
    rw [List.length_cons] at hlong
    have hget : s.ctx.rc[(1 : UInt32).toNat]? = some count := hcount
    have hpin : s.ctx.pin 1 = addInt count 1 >>= fun n =>
        pure { s.ctx with rc := s.ctx.rc.set 1 n } := by
      rw [CountedCtx.pin, if_neg (by decide), CountedCtx.adjust, hget]
      rfl
    rw [wireCopies, List.map_cons, LiveWires.runOps, LiveWires.step, LiveWires.copy,
      LiveWires.construct, h0, hpin, addInt, expecting]
    split
    case isTrue hroom =>
      have hlength : 1 < s.ctx.rc.length := (List.getElem?_eq_some_iff.mp hcount).1
      have hid : (Function.update s.wires d (some 1) 0).getD 0 = 1 := by
        rw [Function.update_of_ne hd.1.symm]
        exact h0
      exact @ih ⟨{ s.ctx with rc := s.ctx.rc.set 1 (count + 1) },
        Function.update s.wires d (some 1)⟩ (count + 1) hid hd.2
        (List.getElem?_set_self hlength) hroom.2 (by omega)
    case isFalse hfull => rfl

def manyWires (n : Nat) : List WireOp := .publicBit 0 true :: wireCopies (List.range' 1 n)

theorem manyWires_overflow {n : Nat} (hn : 2 ^ 31 ≤ n + 1) :
    LiveWires.Along LiveWires.Permitted (manyWires n) {} ∧
    LiveWires.runOps (manyWires n) {} = .error "signed int overflow" := by
  have hdsts : ∀ d ∈ List.range' 1 n, d ≠ 0 := by
    intro d hd
    have := List.mem_range'_1.mp hd
    omega
  obtain ⟨first, hfirst, hid, hcount, hfree⟩ : ∃ first : LiveWires,
      LiveWires.step {} (.publicBit 0 true) = .ok first ∧ first.wires 0 = some 1 ∧
        first.ctx.rc[1]? = some 1 ∧ ∀ d, d ≠ 0 → first.wires d = none :=
    ⟨_, rfl, rfl, rfl, fun d hd => Function.update_of_ne hd _ _⟩
  refine ⟨⟨rfl, fun s hs => ?_⟩, ?_⟩
  · obtain rfl := Except.ok.inj (hfirst.symm.trans hs)
    exact permitted_wireCopies (by rw [hid]; exact nofun) List.nodup_range' fun d hd =>
      ⟨hdsts d hd, hfree d (hdsts d hd)⟩
  · rw [manyWires, LiveWires.runOps, hfirst]
    have hid' : first.id 0 = 1 := by rw [LiveWires.id, hid, Option.getD_some]
    refine wireCopies_overflow hid' hdsts hcount (by omega) ?_
    rw [List.length_range']
    omega

-- an explicit construction from an id past the table, and one bit held by 2^31 objects
theorem recorder_counts_out_of_range_and_overflow :
    LiveWires.runOps [.construct 0 5] {} = .error idOutOfRange ∧
    LiveWires.Along LiveWires.Permitted (manyWires (2 ^ 31 - 1)) {} ∧
    LiveWires.runOps (manyWires (2 ^ 31 - 1)) {} = .error "signed int overflow" :=
  ⟨rfl, manyWires_overflow (by decide)⟩

end Limits

end EmpTool.Session
