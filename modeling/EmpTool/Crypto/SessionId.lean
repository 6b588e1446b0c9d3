import EmpTool.Crypto.AesPermutation
import Mathlib.Data.Fintype.EquivFin

namespace EmpTool.Crypto

open AesNi Bits Memory

structure Prp where
  aes : AesKey

namespace Prp

-- `raw` is the storage the round keys are written to; a null key is the zero block
def ofBytes (raw : AesKey) (key : Option (Nat → UInt8)) : Prp :=
  ⟨aesSetEncryptKey ((key.map blockOfBytes).getD zeroBlock) raw⟩

def ofBlock (raw : AesKey) (key : Block) : Prp := ⟨aesSetEncryptKey key raw⟩

section Calls

variable (aarch64 : Bool) (tiers : Tiers) (p : Prp)

-- each pass takes at least one block, so as many passes as blocks are enough
def permuteLoop : Nat → (data nblocks : Nat) → (Nat → Block) → Nat → Block
  | 0, _, _, mem => mem
  | fuel + 1, data, nblocks, mem =>
    if 0 < nblocks then
      let n := min nblocks aesBatchSize
      permuteLoop fuel (data + n) (nblocks - n)
        (paraEncRuntimeImpl aarch64 tiers data data (fun _ => p.aes) 1 n mem)
    else mem

def permuteBlock (addr : Nat) (mem : Nat → Block) (nblocks : Int) :
    Except String (Nat → Block) := do
  expecting (0 ≤ nblocks) "PRP::permute_block: negative block count"
  if nblocks = 0 then pure mem
  else do
    expecting (addr % 16 = 0) "PRP::permute_block: data must be 16-byte aligned"
    pure (permuteLoop aarch64 tiers p nblocks.toNat 0 nblocks.toNat mem)

end Calls

variable {aarch64 : Bool} {tiers : Tiers} {p : Prp}

theorem batch_eq (data n : Nat) (mem : Nat → Block) :
    paraEncRuntimeImpl aarch64 tiers data data (fun _ => p.aes) 1 n mem =
      mapRange (fun _ => encrypt p.aes) n data data mem := by
  have hsame : Separate (1 * n) data data := Or.inl rfl
  rw [paraEncRuntimeImpl, runtimeTiles aesTiles_blockwise (fun _ => p.aes) hsame, Nat.one_mul]

theorem permuteLoop_eq {fuel : Nat} (data : Nat) {nblocks : Nat} (hfuel : nblocks ≤ fuel)
    (mem : Nat → Block) :
    permuteLoop aarch64 tiers p fuel data nblocks mem =
      mapRange (fun _ => encrypt p.aes) nblocks data data mem := by
  induction fuel generalizing data nblocks mem with
  | zero =>
    rw [Nat.le_zero.mp hfuel, mapRange_zero]
    rfl
  | succ fuel ih =>
    rw [permuteLoop]
    by_cases hsome : 0 < nblocks
    · obtain ⟨n, hn⟩ : ∃ n, min nblocks aesBatchSize = n := ⟨_, rfl⟩
      have hbatch : aesBatchSize = 64 := rfl
      have hrest : nblocks - n ≤ fuel := by omega
      have happend := @mapRange_append _ (fun _ => encrypt p.aes) n (nblocks - n) data data
        (Or.inl rfl) mem
      rw [Nat.add_sub_cancel' (by omega)] at happend
      simp only [if_pos hsome, hn, batch_eq, ih (data + n) hrest]
      exact happend
    · rw [if_neg hsome, Nat.eq_zero_of_not_pos hsome, mapRange_zero]

theorem permuteBlock_eq {addr n : Nat} (haddr : n = 0 ∨ addr % 16 = 0) (mem : Nat → Block) :
    permuteBlock aarch64 tiers p addr mem n =
      .ok (mapRange (fun _ => encrypt p.aes) n 0 0 mem) := by
  unfold permuteBlock expecting
  rw [if_pos (Int.natCast_nonneg n)]
  by_cases hn : n = 0
  · subst hn
    rw [mapRange_zero]
    rfl
  · have hn' : (n : Int) ≠ 0 := Int.natCast_ne_zero.mpr hn
    rw [if_neg hn', if_pos (haddr.resolve_left hn), Int.toNat_natCast,
      permuteLoop_eq 0 (Nat.le_refl n)]
    rfl

theorem encrypt_ofBlock (raw : AesKey) (key : Block) :
    encrypt (ofBlock raw key).aes = aes128Block key :=
  funext (encrypt_construct raw key)

end Prp

theorem aes128Block_injective (key : Block) : Function.Injective (aes128Block key) := by
  rw [← Prp.encrypt_ofBlock ⟨fun _ => zeroBlock⟩]
  exact encrypt_injective _

theorem finite_block : Finite Block :=
  Finite.of_injective (fun b : Block => (b.high.toFin, b.low.toFin)) fun _ _ h =>
    Block.ext (UInt64.toFin_inj.mp (Prod.mk.inj h).1) (UInt64.toFin_inj.mp (Prod.mk.inj h).2)

theorem aes128Block_bijective (key : Block) : Function.Bijective (aes128Block key) :=
  have := finite_block
  Finite.injective_iff_bijective.mp (aes128Block_injective key)

theorem prp_permutes_buffers (aarch64 : Bool) (tiers : Tiers) (raw : AesKey) (key : Block)
    (addr n : Nat) (haddr : n = 0 ∨ addr % 16 = 0) :
    ∃ π : Equiv.Perm (Fin n → Block), (∀ x i, π x i = aes128Block key (x i)) ∧
      ∀ mem, ∃ out, (Prp.ofBlock raw key).permuteBlock aarch64 tiers addr mem n = .ok out ∧
        (∀ i : Fin n, out i = π (fun i => mem i) i) ∧ ∀ a, n ≤ a → out a = mem a := by
  refine ⟨Equiv.piCongrRight fun _ => Equiv.ofBijective _ (aes128Block_bijective key),
    fun x i => rfl, fun mem => ⟨_, Prp.permuteBlock_eq haddr mem, fun i => ?_, fun a ha => ?_⟩⟩
  · have hat := @mapRange_at _ (fun _ => encrypt (Prp.ofBlock raw key).aes) n 0 0 i i.isLt mem
    rw [Nat.zero_add, Prp.encrypt_ofBlock] at hat
    rw [Prp.encrypt_ofBlock, hat, Equiv.piCongrRight_apply, Pi.map_apply, Equiv.ofBijective_apply]
  · exact storeRange_off (Or.inr (by omega))

theorem prp_permutes_buffers_three_batches :
    ∃ π : Equiv.Perm (Fin 130 → Block), ∀ mem, ∃ out,
      (Prp.ofBlock ⟨fun _ => zeroBlock⟩ zeroBlock).permuteBlock false ⟨true, true⟩ 48 mem
        (130 : Nat) = .ok out ∧ ∀ i : Fin 130, out i = π (fun i => mem i) i := by
  obtain ⟨π, -, h⟩ := prp_permutes_buffers false ⟨true, true⟩ ⟨fun _ => zeroBlock⟩ zeroBlock 48 130
    (Or.inr rfl)
  refine ⟨π, fun mem => ?_⟩
  obtain ⟨out, hout, hat, -⟩ := h mem
  exact ⟨out, hout, hat⟩

structure SessionId where
  sid : Block := zeroBlock
  counter : UInt64 := 0

-- the child, and the parent with its counter advanced
def SessionId.derive (aarch64 : Bool) (tiers : Tiers) (raw : AesKey) (s : SessionId) :
    SessionId × SessionId :=
  let k := aesSetEncryptKey s.sid raw
  let block := paraEncImpl aarch64 tiers 1 1 0 0 (fun _ => k) (fun _ => makeBlock 0 s.counter) 0
  ({ sid := block }, { s with counter := s.counter + 1 })

abbrev SessionPath := List Nat

structure SessionNode where
  session : SessionId
  children : Nat := 0

abbrev SessionTree := SessionPath → Option SessionNode

def SessionTree.start (sid : Block) : SessionTree :=
  Function.update (fun _ => none) [] (some { session := { sid } })

structure Derivation where
  parent : SessionPath
  raw : AesKey

section Tree

variable (aarch64 : Bool) (tiers : Tiers)

def SessionTree.derive (d : Derivation) (t : SessionTree) : Option SessionTree := do
  let node ← t d.parent
  let (child, session) := node.session.derive aarch64 tiers d.raw
  let t := Function.update t d.parent (some ⟨session, node.children + 1⟩)
  pure (Function.update t (d.parent ++ [node.children]) (some { session := child }))

def SessionTree.run : List Derivation → SessionTree → Option SessionTree
  | [], t => some t
  | d :: ds, t => t.derive aarch64 tiers d >>= run ds

end Tree

def sessionIdAt (sid : Block) (path : SessionPath) : Block :=
  path.foldl (fun sid i => aes128Block sid (makeBlock 0 (UInt64.ofNat i))) sid

variable {aarch64 : Bool} {tiers : Tiers} {sid : Block} {t t' : SessionTree}

theorem derive_eq (raw : AesKey) (s : SessionId) :
    s.derive aarch64 tiers raw =
      ({ sid := aes128Block s.sid (makeBlock 0 s.counter) }, { s with counter := s.counter + 1 }) := by
  have hsame : Separate (1 * 1) 0 0 := Or.inl rfl
  rw [SessionId.derive, paraEncImpl, staticTiles aesTiles_blockwise _ hsame]
  simp only [mapRange, storeRange_front Nat.one_pos]
  rw [← encrypt_construct raw s.sid]
  rfl

namespace SessionTree

structure Numbered (sid : Block) (t : SessionTree) : Prop where
  ids : ∀ path node, t path = some node → node.session.sid = sessionIdAt sid path
  counters : ∀ path node, t path = some node →
    node.session.counter = UInt64.ofNat node.children
  children : ∀ path node, t path = some node →
    ∀ i, (t (path ++ [i])).isSome ↔ i < node.children
  rooted : ∀ path i, (t (path ++ [i])).isSome → (t path).isSome

theorem start_numbered (sid : Block) : Numbered sid (start sid) := by
  have hone (path : SessionPath) (node : SessionNode) (h : start sid path = some node) :
      path = [] ∧ node = { session := { sid } } := by
    unfold start at h
    by_cases hp : path = []
    · subst hp
      rw [Function.update_self] at h
      exact ⟨rfl, (Option.some.inj h).symm⟩
    · rw [Function.update_of_ne hp] at h
      cases h
  have hnone (path : SessionPath) (i : Nat) : start sid (path ++ [i]) = none :=
    Function.update_of_ne (List.append_ne_nil_of_right_ne_nil path (List.cons_ne_nil i [])) _ _
  refine ⟨fun path node h => ?_, fun path node h => ?_, fun path node h i => ?_, fun path i h => ?_⟩
  · obtain ⟨rfl, rfl⟩ := hone path node h
    rfl
  · obtain ⟨rfl, rfl⟩ := hone path node h
    rfl
  · obtain ⟨rfl, rfl⟩ := hone path node h
    rw [hnone]
    exact ⟨fun hi => absurd hi Bool.false_ne_true, fun hi => absurd hi (Nat.not_lt_zero i)⟩
  · rw [hnone] at h
    cases h

theorem sessionIdAt_child (sid : Block) (path : SessionPath) (i : Nat) :
    sessionIdAt sid (path ++ [i]) =
      aes128Block (sessionIdAt sid path) (makeBlock 0 (UInt64.ofNat i)) := by
  rw [sessionIdAt, List.foldl_append]
  rfl

theorem child_ne (path : SessionPath) (i : Nat) : path ++ [i] ≠ path := fun h => by
  have hlen := congrArg List.length h
  rw [List.length_append, List.length_singleton] at hlen
  omega

theorem derive_cases {d : Derivation} (h : t.derive aarch64 tiers d = some t') :
    ∃ node, t d.parent = some node ∧
      t' d.parent = some ⟨{ node.session with counter := node.session.counter + 1 },
        node.children + 1⟩ ∧
      t' (d.parent ++ [node.children]) = some
        { session := { sid := aes128Block node.session.sid (makeBlock 0 node.session.counter) } } ∧
      ∀ path, path ≠ d.parent → path ≠ d.parent ++ [node.children] → t' path = t path := by
  simp only [derive, derive_eq, Option.bind_eq_bind, Option.bind_eq_some_iff, Option.pure_def,
    Option.some.injEq] at h
  obtain ⟨node, hnode, rfl⟩ := h
  refine ⟨node, hnode, ?_, Function.update_self .., fun path hp hc => ?_⟩
  · rw [Function.update_of_ne (child_ne d.parent node.children).symm, Function.update_self]
  · rw [Function.update_of_ne hc, Function.update_of_ne hp]

theorem Numbered.derive (h : Numbered sid t) {d : Derivation}
    (hd : t.derive aarch64 tiers d = some t') : Numbered sid t' := by
  obtain ⟨node, hnode, hparent, hchild, hsame⟩ := derive_cases hd
  have hfresh : t (d.parent ++ [node.children]) = none :=
    Option.not_isSome_iff_eq_none.mp fun hsome =>
      Nat.lt_irrefl _ ((h.children d.parent node hnode node.children).mp hsome)
  have hsome (path : SessionPath) : (t' path).isSome ↔
      (t path).isSome ∨ path = d.parent ++ [node.children] := by
    by_cases hc : path = d.parent ++ [node.children]
    · rw [hc, hchild]
      exact ⟨fun _ => Or.inr rfl, fun _ => rfl⟩
    · by_cases hp : path = d.parent
      · rw [hp, hparent, hnode]
        exact ⟨fun _ => Or.inl rfl, fun _ => rfl⟩
      · rw [hsame path hp hc, or_iff_left hc]
  have hcases (path : SessionPath) (n : SessionNode) (hn : t' path = some n) :
      (path = d.parent ∧ n = ⟨{ node.session with counter := node.session.counter + 1 },
        node.children + 1⟩) ∨
      (path = d.parent ++ [node.children] ∧ n =
        { session := { sid := aes128Block node.session.sid (makeBlock 0 node.session.counter) } }) ∨
      t path = some n ∧ path ≠ d.parent := by
    by_cases hp : path = d.parent
    · rw [hp, hparent] at hn
      exact Or.inl ⟨hp, (Option.some.inj hn).symm⟩
    · by_cases hc : path = d.parent ++ [node.children]
      · rw [hc, hchild] at hn
        exact Or.inr (Or.inl ⟨hc, (Option.some.inj hn).symm⟩)
      · rw [hsame path hp hc] at hn
        exact Or.inr (Or.inr ⟨hn, hp⟩)
  refine ⟨fun path n hn => ?_, fun path n hn => ?_, fun path n hn i => ?_, fun path i hi => ?_⟩
  · rcases hcases path n hn with ⟨rfl, rfl⟩ | ⟨rfl, rfl⟩ | ⟨hold, -⟩
    · exact h.ids _ node hnode
    · rw [sessionIdAt_child, ← h.ids _ node hnode, ← h.counters _ node hnode]
    · exact h.ids path n hold
  · rcases hcases path n hn with ⟨rfl, rfl⟩ | ⟨rfl, rfl⟩ | ⟨hold, -⟩
    · change node.session.counter + 1 = UInt64.ofNat (node.children + 1)
      rw [h.counters _ node hnode, UInt64.ofNat_add]
      rfl
    · rfl
    · exact h.counters path n hold
  · rw [hsome]
    rcases hcases path n hn with ⟨rfl, rfl⟩ | ⟨rfl, rfl⟩ | ⟨hold, hp⟩
    · rw [h.children _ node hnode, List.append_cancel_left_eq, List.singleton_inj]
      exact Nat.lt_succ_iff_lt_or_eq.symm
    · refine ⟨fun hi => ?_, fun hi => absurd hi (Nat.not_lt_zero i)⟩
      rcases hi with hi | hi
      · have hroot := h.rooted _ i hi
        rw [hfresh] at hroot
        exact absurd hroot Bool.false_ne_true
      · exact absurd hi (child_ne _ i)
    · rw [h.children path n hold, or_iff_left]
      exact fun hi => hp (List.append_inj_left' hi rfl)
  · rw [hsome] at hi ⊢
    rcases hi with hi | hi
    · exact Or.inl (h.rooted path i hi)
    · rw [List.append_inj_left' hi rfl, hnode]
      exact Or.inl rfl

theorem Numbered.run (h : Numbered sid t) {ds : List Derivation}
    (hrun : SessionTree.run aarch64 tiers ds t = some t') : Numbered sid t' := by
  induction ds generalizing t with
  | nil => exact Option.some.inj hrun ▸ h
  | cons d ds ih =>
    obtain ⟨t₁, hd, hrest⟩ := Option.bind_eq_some_iff.mp hrun
    exact ih (h.derive hd) hrest

theorem sessionIdAt_siblings {path : SessionPath} {i j : Nat} (hi : i < 2 ^ 64) (hj : j < 2 ^ 64)
    (h : sessionIdAt sid (path ++ [i]) = sessionIdAt sid (path ++ [j])) : i = j := by
  rw [sessionIdAt_child, sessionIdAt_child] at h
  have hlow := congrArg Block.low (aes128Block_injective _ h)
  have hnat := congrArg UInt64.toNat hlow
  rwa [makeBlock, makeBlock, UInt64.toNat_ofNat_of_lt' hi, UInt64.toNat_ofNat_of_lt' hj] at hnat

end SessionTree

theorem session_ids_by_path (sid : Block) (aarch64 : Bool) (tiers : Tiers) (ds : List Derivation)
    (t : SessionTree) (hrun : SessionTree.run aarch64 tiers ds (SessionTree.start sid) = some t) :
    (∀ path node, t path = some node → node.session.sid = sessionIdAt sid path ∧
      ∀ i, (t (path ++ [i])).isSome ↔ i < node.children) ∧
    ∀ path i j c c', i < 2 ^ 64 → j < 2 ^ 64 → t (path ++ [i]) = some c →
      t (path ++ [j]) = some c' → c.session.sid = c'.session.sid → i = j := by
  have h := (SessionTree.start_numbered sid).run hrun
  refine ⟨fun path node hnode => ⟨h.ids path node hnode, h.children path node hnode⟩,
    fun path i j c c' hi hj hc hc' heq => ?_⟩
  rw [h.ids _ c hc, h.ids _ c' hc'] at heq
  exact SessionTree.sessionIdAt_siblings hi hj heq

def sampleDerivations : List Derivation :=
  [[], [], [1], [], [1]].map fun parent => ⟨parent, ⟨fun _ => zeroBlock⟩⟩

theorem session_ids_by_path_sampleDerivations :
    ∃ t, SessionTree.run true ⟨true, false⟩ sampleDerivations (SessionTree.start ⟨3, 5⟩) = some t ∧
      ∀ c, t [1, 1] = some c → c.session.sid = sessionIdAt ⟨3, 5⟩ [1, 1] := by
  obtain ⟨t, ht⟩ : ∃ t, SessionTree.run true ⟨true, false⟩ sampleDerivations
      (SessionTree.start ⟨3, 5⟩) = some t := ⟨_, rfl⟩
  exact ⟨t, ht, fun c hc => ((session_ids_by_path ⟨3, 5⟩ true ⟨true, false⟩ _ t ht).1 _ c hc).1⟩

end EmpTool.Crypto
