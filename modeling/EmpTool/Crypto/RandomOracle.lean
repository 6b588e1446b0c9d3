import EmpTool.Crypto.Hash
import EmpTool.Library.Framing
import EmpTool.Runtime.Bits

namespace EmpTool.Crypto

open Bits Framing Memory

variable {P : Type}

-- a default-constructed `Point` has neither a point nor a group
abbrev Point (P : Type) := Option P

def Point.size (point2oct : P → List UInt8) : Point P → Except String Nat
  | none => .error "Point::size on uninitialized point"
  | some p => do
      let ret := (point2oct p).length
      expecting (ret ≠ 0) "ECC SIZE_BIN"
      pure ret

def Point.toBin (point2oct : P → List UInt8) : Point P → Except String (List UInt8)
  | none => .error "Point::to_bin on uninitialized point"
  | some p => do
      expecting ((point2oct p).length ≠ 0) "ECC TO_BIN"
      pure (point2oct p)

inductive Field (P : Type) where
  | str (s : List UInt8)
  | bytes (p : List UInt8)
  | block (b : Block)
  | u64 (v : UInt64)
  | point (p : Point P)

structure RO where
  buf : List UInt8
  domain : List UInt8

namespace RO

def kStr : UInt32 := 1

def kBytes : UInt32 := 2

def kBlock : UInt32 := 3

def kU64 : UInt32 := 4

def kPoint : UInt32 := 5

def frameBytes (type : UInt32) (p : List UInt8) : List UInt8 :=
  slice (byteAt type) 0 4 ++ slice (byteAt (UInt32.ofNat p.length)) 0 4 ++ p

def frame (type : UInt32) (p : List UInt8) (ro : RO) : Except String RO := do
  expecting (p.length ≤ 0xFFFFFFFF) "RO::absorb: field length exceeds 2^32-1"
  pure { ro with buf := ro.buf ++ frameBytes type p }

def blockField (b : Block) : List UInt8 := slice (blockBytes b) 0 16

def construct (domain : List UInt8) (sid : Block) : Except String RO := do
  let ro ← frame kStr domain { buf := [], domain := domain }
  frame kBlock (blockField sid) ro

def absorb (point2oct : P → List UInt8) (ro : RO) : Field P → Except String RO
  | .str s => ro.frame kStr s
  | .bytes p => ro.frame kBytes p
  | .block b => ro.frame kBlock (blockField b)
  | .u64 v => ro.frame kU64 (slice (byteAt64 v) 0 8)
  | .point p => do
      let _ ← p.size point2oct
      let tmp ← p.toBin point2oct
      ro.frame kPoint tmp

def squeezeDigest (hash : HashFunction) (opt : HashOption) (ro : RO) :
    Except String (Nat → UInt8) :=
  HashT.hashOnce hash opt (fun i => ro.buf.getD i 0) ro.buf.length

def squeezeBlock (hash : HashFunction) (opt : HashOption) (ro : RO) : Except String Block :=
  blockOfBytes <$> ro.squeezeDigest hash opt

end RO

namespace Field

def type : Field P → UInt32
  | .str _ => RO.kStr
  | .bytes _ => RO.kBytes
  | .block _ => RO.kBlock
  | .u64 _ => RO.kU64
  | .point _ => RO.kPoint

def payload (point2oct : P → List UInt8) : Field P → List UInt8
  | .str s => s
  | .bytes p => p
  | .block b => RO.blockField b
  | .u64 v => slice (byteAt64 v) 0 8
  | .point p => p.elim [] point2oct

def Initialized (point2oct : P → List UInt8) : Field P → Prop
  | .point p => ∃ q, p = some q ∧ point2oct q ≠ []
  | _ => True

structure Short (point2oct : P → List UInt8) (f : Field P) : Prop where
  initialized : f.Initialized point2oct
  length_lt : (f.payload point2oct).length < 2 ^ 32

def bytesOf (point2oct : P → List UInt8) (f : Field P) : List UInt8 :=
  RO.frameBytes f.type (f.payload point2oct)

end Field

section Bytes

theorem bitAt_of_slice_eq {mem mem' : Nat → UInt8} {n : Nat}
    (h : slice mem 0 n = slice mem' 0 n) {t : Nat} (ht : t < 8 * n) : bitAt mem t = bitAt mem' t := by
  have hi : t / 8 < n := by omega
  have hbyte := congrArg (fun l => l[t / 8]?) h
  simp only [slice, List.getElem?_map, List.getElem?_range hi, Option.map_some, Option.some.injEq,
    Nat.zero_add] at hbyte
  rw [bitAt, bitAt, hbyte]

theorem slice_byteAt_inj {v w : UInt32} (h : slice (byteAt v) 0 4 = slice (byteAt w) 0 4) :
    v = w := by
  have bit (x : UInt32) {t : Nat} (ht : t < 32) : bitAt (byteAt x) t = x.toNat.testBit t := by
    rw [bitAt, byteAt_testBit x (by omega) (Nat.mod_lt t (by decide)), Nat.div_add_mod]
  refine UInt32.toNat_inj.mp (nat_eq_of_testBit v.toNat_lt w.toNat_lt fun t ht => ?_)
  rw [← bit v ht, ← bit w ht]
  exact bitAt_of_slice_eq h ht

theorem slice_byteAt64_inj {v w : UInt64} (h : slice (byteAt64 v) 0 8 = slice (byteAt64 w) 0 8) :
    v = w := by
  have bit (x : UInt64) {t : Nat} (ht : t < 64) : bitAt (byteAt64 x) t = x.toNat.testBit t := by
    rw [bitAt, byteAt64_testBit x (by omega) (Nat.mod_lt t (by decide)), Nat.div_add_mod]
  apply word_eq_of_testBit
  intro t ht
  rw [← bit v ht, ← bit w ht]
  exact bitAt_of_slice_eq h ht

theorem blockField_inj {a b : Block} (h : RO.blockField a = RO.blockField b) : a = b := by
  apply block_eq_of_lane
  intro t ht
  rw [← bitAt_blockBytes a ht, ← bitAt_blockBytes b ht]
  exact bitAt_of_slice_eq h ht

end Bytes

namespace RO

theorem frame_ok {type : UInt32} {p : List UInt8} {ro ro' : RO} :
    ro.frame type p = .ok ro' ↔
      p.length < 2 ^ 32 ∧ ro' = { ro with buf := ro.buf ++ frameBytes type p } := by
  simp only [frame, bind_eq_ok, expecting_eq_ok, pure_eq_ok]
  constructor
  · rintro ⟨_, hp, rfl⟩
    exact ⟨by omega, rfl⟩
  · rintro ⟨hp, rfl⟩
    exact ⟨(), by omega, rfl⟩

variable {point2oct : P → List UInt8}

theorem absorb_ok {f : Field P} {ro ro' : RO} :
    ro.absorb point2oct f = .ok ro' ↔
      f.Short point2oct ∧ ro' = { ro with buf := ro.buf ++ f.bytesOf point2oct } := by
  have plain {t : UInt32} {p : List UInt8} (ht : f.type = t) (hp : f.payload point2oct = p)
      (hi : f.Initialized point2oct) : ro.frame t p = .ok ro' ↔
        f.Short point2oct ∧ ro' = { ro with buf := ro.buf ++ f.bytesOf point2oct } := by
    rw [frame_ok, Field.bytesOf, ht, hp]
    exact and_congr_left' ⟨fun h => ⟨hi, hp ▸ h⟩, fun h => hp ▸ h.length_lt⟩
  cases f with
  | str s => exact plain rfl rfl trivial
  | bytes p => exact plain rfl rfl trivial
  | block b => exact plain rfl rfl trivial
  | u64 v => exact plain rfl rfl trivial
  | point p =>
    cases p with
    | none => exact ⟨nofun, fun ⟨hs, _⟩ => nomatch hs.initialized⟩
    | some q =>
      by_cases hq : point2oct q = []
      · constructor
        · simp [absorb, Point.size, hq]
        · rintro ⟨⟨⟨_, hsome, hne⟩, _⟩, _⟩
          cases hsome
          exact absurd hq hne
      · have hlen : (point2oct q).length ≠ 0 := by simpa using hq
        have := plain (t := kPoint) (p := point2oct q) rfl rfl ⟨q, rfl, hq⟩
        simpa [absorb, Point.size, Point.toBin, hlen] using this

theorem foldlM_absorb_ok {fs : List (Field P)} {ro ro' : RO} :
    fs.foldlM (fun ro f => ro.absorb point2oct f) ro = .ok ro' ↔
      (∀ f ∈ fs, f.Short point2oct) ∧
        ro' = { ro with buf := ro.buf ++ fs.flatMap (Field.bytesOf point2oct) } := by
  induction fs generalizing ro with
  | nil =>
    rw [List.foldlM_nil, pure_eq_ok]
    simp [eq_comm]
  | cons f fs ih =>
    simp only [List.foldlM_cons, bind_eq_ok, absorb_ok, ih, List.forall_mem_cons,
      List.flatMap_cons]
    constructor
    · rintro ⟨_, ⟨hf, rfl⟩, hfs, rfl⟩
      exact ⟨⟨hf, hfs⟩, by simp⟩
    · rintro ⟨⟨hf, hfs⟩, rfl⟩
      exact ⟨_, ⟨hf, rfl⟩, hfs, by simp⟩

end RO

structure Session (P : Type) where
  domain : List UInt8
  sid : Block
  fields : List (Field P)

namespace Session

variable (point2oct : P → List UInt8)

def oracle (s : Session P) : Except String RO := do
  let ro ← RO.construct s.domain s.sid
  s.fields.foldlM (fun ro f => ro.absorb point2oct f) ro

def message (s : Session P) : Except String (List UInt8) := RO.buf <$> s.oracle point2oct

structure Short (s : Session P) : Prop where
  domain : s.domain.length < 2 ^ 32
  fields : ∀ f ∈ s.fields, f.Short point2oct

-- the constructor frames the domain and the session id as if they were absorbed
def calls (s : Session P) : List (Field P) := .str s.domain :: .block s.sid :: s.fields

variable {point2oct}

theorem short_block (b : Block) : (Field.block b : Field P).Short point2oct :=
  ⟨trivial, by simp [Field.payload, RO.blockField]⟩

theorem short_calls {s : Session P} :
    (∀ f ∈ s.calls, f.Short point2oct) ↔ s.Short point2oct := by
  simp only [calls, List.forall_mem_cons]
  constructor
  · rintro ⟨hd, _, hf⟩
    exact ⟨hd.length_lt, hf⟩
  · rintro ⟨hd, hf⟩
    exact ⟨⟨trivial, hd⟩, short_block s.sid, hf⟩

theorem message_ok {s : Session P} {m : List UInt8} :
    s.message point2oct = .ok m ↔
      s.Short point2oct ∧ m = s.calls.flatMap (Field.bytesOf point2oct) := by
  have hsid : (RO.blockField s.sid).length < 2 ^ 32 := by simp [RO.blockField]
  simp only [message, oracle, RO.construct, map_eq_ok, bind_eq_ok, RO.frame_ok,
    RO.foldlM_absorb_ok, calls, List.flatMap_cons]
  constructor
  · rintro ⟨_, ⟨_, ⟨_, ⟨hd, rfl⟩, _, rfl⟩, hf, rfl⟩, rfl⟩
    exact ⟨⟨hd, hf⟩, by simp [Field.bytesOf, Field.type, Field.payload]⟩
  · rintro ⟨⟨hd, hf⟩, rfl⟩
    exact ⟨_, ⟨_, ⟨_, ⟨hd, rfl⟩, hsid, rfl⟩, hf, rfl⟩,
      by simp [Field.bytesOf, Field.type, Field.payload]⟩

end Session

namespace Field

variable {point2oct : P → List UInt8}

theorem bytesOf_ne_nil (f : Field P) : f.bytesOf point2oct ≠ [] := by
  simp [bytesOf, RO.frameBytes, slice, List.range_succ]

theorem eq_of_payload (hinj : Function.Injective point2oct) {f g : Field P}
    (hf : f.Initialized point2oct) (hg : g.Initialized point2oct) (ht : f.type = g.type)
    (hp : f.payload point2oct = g.payload point2oct) : f = g := by
  cases f <;> cases g <;>
    simp [type, RO.kStr, RO.kBytes, RO.kBlock, RO.kU64, RO.kPoint] at ht
  case str.str => exact congrArg str hp
  case bytes.bytes => exact congrArg bytes hp
  case block.block => exact congrArg block (blockField_inj hp)
  case u64.u64 => exact congrArg u64 (slice_byteAt64_inj hp)
  case point.point =>
    obtain ⟨p, rfl, _⟩ := hf
    obtain ⟨q, rfl, _⟩ := hg
    exact congrArg (fun p => point (some p)) (hinj hp)

theorem selfDelimiting_bytesOf (hinj : Function.Injective point2oct) :
    SelfDelimiting (Short point2oct) (bytesOf point2oct) := by
  let len (f : Field P) : UInt32 := UInt32.ofNat (f.payload point2oct).length
  let header (f : Field P) : List UInt8 := slice (byteAt f.type) 0 4 ++ slice (byteAt (len f)) 0 4
  have header_inj {f g : Field P} (h : header f = header g) : f.type = g.type ∧ len f = len g := by
    obtain ⟨ht, hl⟩ := List.append_inj h (by simp)
    exact ⟨slice_byteAt_inj ht, slice_byteAt_inj hl⟩
  have hsize (f : Field P) : (header f).length = 8 := by simp [header]
  apply selfDelimiting_of_header hsize
  · intro f g hf hg h
    have hl := congrArg UInt32.toNat (header_inj h).2
    rwa [UInt32.toNat_ofNat_of_lt' hf.length_lt, UInt32.toNat_ofNat_of_lt' hg.length_lt] at hl
  · intro f g hf hg h hp
    exact eq_of_payload hinj hf.initialized hg.initialized (header_inj h).1 hp

end Field

theorem absorbed_message_injective (point2oct : P → List UInt8)
    (hinj : Function.Injective point2oct) :
    (∀ s : Session P, s.Short point2oct → ∃ m, s.message point2oct = .ok m) ∧
      ∀ (s t : Session P) (m : List UInt8), s.message point2oct = .ok m →
        t.message point2oct = .ok m → s = t := by
  constructor
  · intro s hs
    exact ⟨_, Session.message_ok.mpr ⟨hs, rfl⟩⟩
  · intro s t m hs ht
    obtain ⟨hshort, hm⟩ := Session.message_ok.mp hs
    obtain ⟨htshort, hm'⟩ := Session.message_ok.mp ht
    have hcalls : s.calls = t.calls :=
      (Field.selfDelimiting_bytesOf hinj).flatMap_inj Field.bytesOf_ne_nil
        (Session.short_calls.mpr hshort) (Session.short_calls.mpr htshort) (hm.symm.trans hm')
    cases s
    cases t
    simpa [Session.calls] using hcalls

-- the uncompressed encoding of a 256-bit curve: one zero byte at infinity, else 04 and x, y
def uncompressed : Option (Vector UInt8 64) → List UInt8
  | none => [0]
  | some xy => 4 :: xy.toList

theorem absorbed_message_injective_uncompressed :
    Function.Injective uncompressed ∧
      (∀ s : Session (Option (Vector UInt8 64)), s.Short uncompressed →
        ∃ m, s.message uncompressed = .ok m) ∧
      ∀ (s t : Session (Option (Vector UInt8 64))) (m : List UInt8),
        s.message uncompressed = .ok m → t.message uncompressed = .ok m → s = t := by
  have hinj : Function.Injective uncompressed := by
    rintro (_ | xy) (_ | uv) h
    · rfl
    · exact absurd (List.cons.inj h).1 (by decide)
    · exact absurd (List.cons.inj h).1 (by decide)
    · exact congrArg some (Vector.toList_inj.mp (List.cons.inj h).2)
  exact ⟨hinj, absorbed_message_injective uncompressed hinj⟩

end EmpTool.Crypto
