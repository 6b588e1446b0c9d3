import EmpTool.Session.Settling

namespace EmpTool.Session

open Ir

variable {R R' : Set (UInt32 × Bool)} {s : ChunkedSession} {σ σ' : PlainState}
  {val : UInt32 → Bool}

namespace Faithful

theorem rebook (h : Faithful R s σ val) (hR : ∀ p ∈ R', p.1 < s.ctx.nextId ∧ val p.1 = p.2) :
    Faithful R' s σ val :=
  { h with reserved := hR }

theorem mono (h : Faithful R s σ val) (hR : R' ⊆ R) : Faithful R' s σ val :=
  h.rebook fun p hp => h.reserved p (hR hp)

theorem book (h : Faithful R s σ val) {ids : List UInt32} (hids : ∀ id ∈ ids, id < s.ctx.nextId) :
    Faithful (R ∪ {p | p ∈ ids.zip (ids.map val)}) s σ val := by
  refine h.rebook fun p hp => ?_
  rcases hp with hp | hp
  · exact h.reserved p hp
  · rw [Set.mem_ofPred_eq, ← List.map_prod_left_eq_zip] at hp
    obtain ⟨id, hid, rfl⟩ := List.mem_map.mp hp
    exact ⟨hids id hid, rfl⟩

theorem booked (h : Faithful R s σ val) {ids : List UInt32} {bits : List Bool}
    (hlen : ids.length = bits.length) (hR : ∀ p ∈ ids.zip bits, p ∈ R) :
    (∀ id ∈ ids, id < s.ctx.nextId) ∧ ids.map val = bits := by
  have hall : List.Forall₂ (fun id b => val id = b) ids bits :=
    List.forall₂_iff_zip.mpr ⟨hlen, fun hp => (h.reserved _ (hR _ hp)).2⟩
  refine ⟨fun id hid => ?_, ?_⟩
  · rw [← List.map_fst_zip (Nat.le_of_eq hlen)] at hid
    obtain ⟨p, hp, rfl⟩ := List.mem_map.mp hid
    exact (h.reserved p (hR p hp)).1
  · rw [← List.forall₂_map_left_iff, List.forall₂_eq_eq_eq] at hall
    exact hall

theorem defer (h : Faithful R s σ val) {dsts : List Nat} {bits : List Bool} {ids : List UInt32}
    {rc : UInt32 → Int} (hb : plainBuild σ dsts bits = some σ') (hlen : ids.length = bits.length)
    (hroom : s.ctx.nextId.toNat + bits.length ≤ 2 ^ 32 - 1) (hn : ids.Nodup)
    (hmem : ∀ x, x ∈ ids ↔ s.ctx.nextId.toNat ≤ x.toNat ∧
      x.toNat < s.ctx.nextId.toNat + bits.length) :
    Checked Stops (fun s' => Agrees (R ∪ {p | p ∈ ids.zip bits}) s' σ')
      (ChunkedSession.fromIds
        { s with ctx := { s.ctx with rc, nextId := s.ctx.nextId + UInt32.ofNat bits.length } }
        dsts ids) := by
  obtain ⟨hl, rfl⟩ := plainBuild_spec hb
  obtain ⟨val', h', hbits, -, hids⟩ := h.reserve rc hlen hroom hn hmem
  have built := (h'.book fun id hid => (hids id hid).2).fromIds (hl.trans hlen.symm) hids
  rw [hbits] at built
  exact built.mono fun s' hs' => ⟨val', hs'⟩

end Faithful

namespace FullSession

def booked (s : FullSession) : Set (UInt32 × Bool) :=
  {p | ∃ b batch, s.batches b = some batch ∧ batch.finished = false ∧
    p ∈ batch.ids.flatten.zip batch.bits.flatten}

structure Follows (s : FullSession) (σ : FullPlain) : Prop where
  session : Agrees s.booked s.session σ.wires
  batches : ∀ b, σ.batches b = (s.batches b).isSome
  lengths : ∀ b batch, s.batches b = some batch →
    batch.ids.flatten.length = batch.bits.flatten.length

variable {s : FullSession} {σ σ' : FullPlain} {backend : Backend}

theorem start_faithful :
    Faithful (booked {}) {} (fun _ => none) fun _ => false where
  recorded := ⟨List.Pairwise.nil, fun g hg => absurd hg List.not_mem_nil,
    fun g hg => absurd hg List.not_mem_nil⟩
  out_bound g hg := absurd hg List.not_mem_nil
  pending_iff id := by simp
  solves g hg := absurd hg List.not_mem_nil
  carried id b hb := by cases hb
  const v o ho := by cases ho
  handles x id hx := by cases hx
  values x := rfl
  reserved p hp := by
    obtain ⟨b, batch, hb, -⟩ := hp
    cases hb
  next_pos := by decide

theorem start_follows : Follows {} {} where
  session := ⟨_, start_faithful⟩
  batches b := rfl
  lengths b batch hb := by cases hb

theorem Follows.advance (h : s.Follows σ) {session : ChunkedSession} {wires : PlainState}
    (hs : Agrees s.booked session wires) :
    Follows { s with session } { σ with wires } :=
  ⟨hs, h.batches, h.lengths⟩

theorem Follows.update (h : s.Follows σ) {session : ChunkedSession} {wires : PlainState}
    {plain : Nat → Bool} {b : Nat} {v : Option InputBatch}
    (hs : Agrees R session wires)
    (hR : ∀ p, (∃ batch, v = some batch ∧ batch.finished = false ∧
      p ∈ batch.ids.flatten.zip batch.bits.flatten) → p ∈ R) (hold : s.booked ⊆ R)
    (hp : plain = Function.update σ.batches b v.isSome)
    (hlen : ∀ batch, v = some batch → batch.ids.flatten.length = batch.bits.flatten.length) :
    Follows { s with session, batches := Function.update s.batches b v }
      { wires, batches := plain } where
  session := by
    obtain ⟨val, hval⟩ := hs
    refine ⟨val, hval.mono fun p hp => ?_⟩
    obtain ⟨c, batch, hc, hfin, hmem⟩ := hp
    change Function.update s.batches b v c = some batch at hc
    by_cases hcb : c = b
    · subst hcb
      rw [Function.update_self] at hc
      exact hR p ⟨batch, hc, hfin, hmem⟩
    · rw [Function.update_of_ne hcb] at hc
      exact hold ⟨c, batch, hc, hfin, hmem⟩
  batches c := by
    change plain c = (Function.update s.batches b v c).isSome
    rw [hp]
    by_cases hcb : c = b
    · subst hcb
      rw [Function.update_self, Function.update_self]
    · rw [Function.update_of_ne hcb, Function.update_of_ne hcb]
      exact h.batches c
  lengths c batch hc := by
    change Function.update s.batches b v c = some batch at hc
    by_cases hcb : c = b
    · subst hcb
      rw [Function.update_self] at hc
      exact hlen batch hc
    · rw [Function.update_of_ne hcb] at hc
      exact h.lengths c batch hc

theorem Follows.batch (h : s.Follows σ) {b : Nat} (hb : σ.batches b = true) :
    s.batches b = some (s.batch b) := by
  rw [h.batches] at hb
  obtain ⟨batch, hbatch⟩ := Option.isSome_iff_exists.mp hb
  rw [FullSession.batch, hbatch, Option.getD_some]

theorem keep_batch {batches : Nat → Bool} {b : Nat} (hb : batches b = true) :
    batches = Function.update batches b true := by
  rw [← hb, Function.update_eq_self]

theorem Follows.add (h : s.Follows σ) {b : Nat} (hb : σ.batches b = true) {dsts : List Nat}
    {bits : List Bool} {wires : PlainState} (hw : plainBuild σ.wires dsts bits = some wires)
    (owner : Int) : Checked Stops (fun s' => Follows s' { σ with wires })
      (s.add b owner dsts bits) := by
  obtain ⟨val, hval⟩ := h.session
  refine Checked.bind (checked_expecting (by decide)) fun _ hopen => ?_
  refine Checked.bind (checked_reserveIds s.session.ctx bits.length) ?_
  rintro ⟨ids, c⟩ ⟨hlen, hroom, hn, hmem, rc, rfl⟩
  refine Checked.bind (hval.defer hw hlen hroom hn hmem) fun session hs => ?_
  have hids := h.lengths b (s.batch b) (h.batch hb)
  refine Checked.pure (h.update hs ?_ Set.subset_union_left (keep_batch hb) ?_)
  · rintro p ⟨batch, hbatch, -, hp⟩
    obtain rfl := Option.some.inj hbatch
    simp only [List.flatten_append, List.flatten_singleton, List.zip_append hids,
      List.mem_append] at hp
    rcases hp with hp | hp
    · exact Or.inl ⟨b, s.batch b, h.batch hb, hopen, hp⟩
    · exact Or.inr hp
  · intro batch hbatch
    obtain rfl := Option.some.inj hbatch
    simp only [List.flatten_append, List.flatten_singleton, List.length_append, hids, hlen]

theorem Follows.finish (h : s.Follows σ) {b : Nat} (hb : σ.batches b = true) :
    Checked Stops (fun s' => Follows s' σ) (s.finish b) := by
  obtain ⟨val, hval⟩ := h.session
  refine Checked.bind (checked_expecting (by decide)) fun _ hopen => ?_
  have hids := h.lengths b (s.batch b) (h.batch hb)
  obtain ⟨hbound, hbits⟩ := hval.booked hids fun p hp => ⟨b, s.batch b, h.batch hb, hopen, hp⟩
  refine Checked.pure (h.update ⟨val, hval.authenticateInto hbound hbits⟩ ?_ subset_rfl
    (keep_batch hb) ?_)
  · rintro p ⟨batch, hbatch, hfin, -⟩
    obtain rfl := Option.some.inj hbatch
    cases hfin
  · intro batch hbatch
    obtain rfl := Option.some.inj hbatch
    exact hids

theorem Follows.empty (h : s.Follows σ) (b : Nat) (finished : Bool) :
    Follows { s with batches := Function.update s.batches b (some { finished }) }
      { σ with batches := Function.update σ.batches b true } := by
  refine h.update h.session ?_ subset_rfl rfl ?_
  · rintro p ⟨batch, hbatch, -, hp⟩
    obtain rfl := Option.some.inj hbatch
    cases hp
  · intro batch hbatch
    obtain rfl := Option.some.inj hbatch
    rfl

theorem Follows.moveBatch (h : s.Follows σ) {dst src : Nat} (hsrc : σ.batches src = true) :
    Follows (s.moveBatch dst src) { σ with batches := Function.update σ.batches dst true } := by
  have moved : Follows { s with batches := Function.update s.batches dst (s.batches src) }
      { σ with batches := Function.update σ.batches dst true } := by
    refine h.update h.session ?_ subset_rfl ?_ fun batch hbatch => h.lengths src batch hbatch
    · rintro p ⟨batch, hbatch, hfin, hp⟩
      exact ⟨src, batch, hbatch, hfin, hp⟩
    · rw [← h.batches, hsrc]
  have hkept : Function.update σ.batches dst true src = true := by
    rw [Function.update_apply, hsrc, ite_self]
  have left := moved.empty src true
  change Follows _ ⟨σ.wires, Function.update (Function.update σ.batches dst true) src true⟩ at left
  rw [← keep_batch hkept] at left
  exact left

theorem Follows.destroyBatch (h : s.Follows σ) (b : Nat) :
    Checked Stops (fun s' => Follows s'
      { σ with batches := Function.update σ.batches b false }) (s.destroyBatch b) := by
  refine Checked.bind (checked_expecting (by decide)) fun _ _ => Checked.pure ?_
  refine h.update h.session ?_ subset_rfl rfl ?_
  · rintro p ⟨batch, hbatch, -⟩
    cases hbatch
  · intro batch hbatch
    cases hbatch

theorem Follows.withSession (h : s.Follows σ) {wires : PlainState}
    {x : Except String ChunkedSession}
    (hx : Checked Stops (fun session => Agrees s.booked session wires) x) :
    Checked Stops (fun r => r.1 = [] ∧ Follows r.2 { σ with wires }) (s.withSession x) :=
  Checked.bind hx fun _ hs => ⟨rfl, h.advance hs⟩

theorem Follows.step (h : s.Follows σ) {op : FullOp} {out : List (Option (List Bool))}
    (hp : fullPlainStep backend σ op = some (out, σ')) :
    Checked Stops (fun r => r.1 = out ∧ r.2.Follows σ') (s.step backend op) := by
  obtain ⟨val, hval⟩ := h.session
  cases op with
  | base op =>
    simp only [fullPlainStep, Option.bind_eq_bind, Option.bind_eq_some_iff, Option.pure_def,
      Option.some.injEq, Prod.mk.injEq] at hp
    obtain ⟨⟨o, wires⟩, hstep, rfl, rfl⟩ := hp
    exact Checked.bind (hval.step hstep) fun r hr => ⟨hr.1, h.advance hr.2⟩
  | revealKeep value recipient keep =>
    simp only [fullPlainStep, plainStep, Option.bind_eq_bind, Option.bind_eq_some_iff,
      Option.pure_def, Option.some.injEq, Prod.mk.injEq] at hp
    obtain ⟨-, -, ⟨o, wires⟩, ⟨bits, hv, hout⟩, rfl, rfl⟩ := hp
    obtain ⟨rfl, rfl⟩ := Prod.mk.inj hout
    exact Checked.bind (hval.revealKeep backend hv recipient keep) fun r hr =>
      ⟨congrArg (fun o => [o]) hr.1, h.advance hr.2⟩
  | checkpointKeep keep =>
    simp only [fullPlainStep, Option.bind_eq_bind, Option.bind_eq_some_iff, Option.pure_def,
      Option.some.injEq, Prod.mk.injEq] at hp
    obtain ⟨-, -, rfl, rfl⟩ := hp
    exact h.withSession (hval.checkpointKeep keep)
  | runArtifact prog args dsts =>
    simp only [fullPlainStep, plainStep, Option.bind_eq_bind, Option.bind_eq_some_iff,
      Option.pure_def, Option.some.injEq, Prod.mk.injEq] at hp
    obtain ⟨⟨o, wires⟩, ⟨bits, hv, outs, ho, τ, hb, hout⟩, rfl, rfl⟩ := hp
    obtain ⟨rfl, rfl⟩ := Prod.mk.inj hout
    exact h.withSession (hval.runArtifact hv ho hb)
  | inputBatch b =>
    obtain ⟨-, hout⟩ := Option.ite_none_left_eq_some.mp hp
    obtain ⟨rfl, rfl⟩ := Prod.mk.inj (Option.some.inj hout)
    exact ⟨rfl, h.empty b false⟩
  | add b owner dsts bits =>
    obtain ⟨hb, hout⟩ := Option.ite_none_right_eq_some.mp hp
    simp only [Option.bind_eq_bind, Option.bind_eq_some_iff, Option.pure_def,
      Option.some.injEq, Prod.mk.injEq] at hout
    obtain ⟨wires, hw, rfl, rfl⟩ := hout
    exact Checked.bind (h.add hb hw owner) fun s' hs' => ⟨rfl, hs'⟩
  | moveBatch dst src =>
    obtain ⟨⟨hsrc, -⟩, hout⟩ := Option.ite_none_right_eq_some.mp hp
    obtain ⟨rfl, rfl⟩ := Prod.mk.inj (Option.some.inj hout)
    exact ⟨rfl, h.moveBatch hsrc⟩
  | finish b =>
    obtain ⟨hb, hout⟩ := Option.ite_none_right_eq_some.mp hp
    obtain ⟨rfl, rfl⟩ := Prod.mk.inj (Option.some.inj hout)
    exact Checked.bind (h.finish hb) fun s' hs' => ⟨rfl, hs'⟩
  | destroyBatch b =>
    obtain ⟨-, hout⟩ := Option.ite_none_right_eq_some.mp hp
    obtain ⟨rfl, rfl⟩ := Prod.mk.inj (Option.some.inj hout)
    exact Checked.bind (h.destroyBatch b) fun s' hs' => ⟨rfl, hs'⟩

theorem Follows.run (h : s.Follows σ) {ops : List FullOp} {outs : List (Option (List Bool))}
    (hp : fullPlainRun backend ops σ = some (outs, σ')) :
    Checked Stops (fun r => r.1 = outs ∧ r.2.Follows σ') (FullSession.run backend ops s) := by
  induction ops generalizing s σ outs with
  | nil =>
    obtain ⟨rfl, rfl⟩ := Prod.mk.inj (Option.some.inj hp)
    exact ⟨rfl, h⟩
  | cons op ops ih =>
    simp only [fullPlainRun, Option.bind_eq_bind, Option.bind_eq_some_iff, Option.pure_def,
      Option.some.injEq, Prod.mk.injEq] at hp
    obtain ⟨⟨out, τ⟩, hstep, ⟨rest, τ'⟩, hrest, rfl, rfl⟩ := hp
    refine Checked.bind (h.step hstep) ?_
    rintro ⟨out', s'⟩ ⟨rfl, h'⟩
    exact Checked.bind (ih h' hrest) fun r hr => ⟨congrArg (out' ++ ·) hr.1, hr.2⟩

end FullSession

theorem session_never_reveals_wrong_bit (backend : Backend) (ops : List FullOp)
    (outs : List (Option (List Bool))) (σ : FullPlain)
    (hrun : fullPlainRun backend ops {} = some (outs, σ)) :
    (∃ s, FullSession.run backend ops {} = .ok (outs, s)) ∨
      ∃ m ∈ sessionStops, FullSession.run backend ops {} = .error m := by
  have hchecked := FullSession.start_follows.run hrun
  cases hres : FullSession.run backend ops {} with
  | error m =>
    rw [hres] at hchecked
    exact Or.inr ⟨m, hchecked, rfl⟩
  | ok r =>
    rw [hres] at hchecked
    obtain ⟨rfl, -⟩ := hchecked
    exact Or.inl ⟨r.2, rfl⟩

def batchSample : List FullOp :=
  [.inputBatch 0, .add 0 1 [0, 1] [true, false], .base (.input [2] [true]), .add 0 2 [3] [true],
    .moveBatch 1 0, .finish 1, .destroyBatch 0, .base (.andGate 4 0 3), .base (.xorGate 5 4 1),
    .revealKeep [4] 0 [[5], [1]], .checkpointKeep [[5], [0]], .destroyBatch 1,
    .runArtifact andProgram [[5], [0]] [6], .base (.reveal [6] 2), .checkpointKeep [[6]],
    .base (.reveal [6] 0)]

theorem session_never_reveals_wrong_bit_batchSample :
    ∃ s, FullSession.run soloBackend batchSample {} = .ok ([some [true], none, some [true]], s) := by
  obtain ⟨⟨outs, σ⟩, hrun⟩ := Option.isSome_iff_exists.mp
    (by decide +kernel : (fullPlainRun soloBackend batchSample {}).isSome)
  have houts : (fullPlainRun soloBackend batchSample {}).map Prod.fst =
      some [some [true], none, some [true]] := by decide +kernel
  rw [hrun, Option.map_some] at houts
  obtain rfl := Option.some.inj houts
  refine (session_never_reveals_wrong_bit soloBackend batchSample _ σ hrun).resolve_right ?_
  rintro ⟨m, -, hstop⟩
  have hcompletes : (FullSession.run soloBackend batchSample {}).isOk = true := by decide +kernel
  rw [hstop] at hcompletes
  exact Bool.false_ne_true hcompletes

-- a value that the keep list left out is gone, and the session says so
example : (FullSession.run soloBackend (batchSample ++ [.base (.reveal [5] 0)]) {}).map Prod.fst =
    .error "ChunkedSession: keep/reveal wire is stale" := by
  decide +kernel

end EmpTool.Session
