import EmpTool.Circuits.Typed

namespace EmpTool.Session

open Circuits Binary TypedProgram
open EmpTool.Ir (clearCtx)

namespace ClearSession

def Opens : Ty → Prop
  | .int _ w => w.n ≤ 64
  | _ => True

def Request : Ty → Type
  | .bit => Bool
  | .bits n => Vector Bool n
  | .int k _ => k.Clear
  | .dyn k => Int × k.Clear

def Clear : Ty → Type
  | .bit => Bool
  | .bits n => Vector Bool n
  | .int k _ => k.Clear
  | .dyn k => k.Clear

def encode (n : Nat) : (k : Kind) → k.Clear → Vector Bool n
  | .unsigned => UIntT.encode n
  | .signed => IntT.encode n

def decode {n : Nat} : (k : Kind) → Vector Bool n → k.Clear
  | .unsigned => UIntT.decode
  | .signed => IntT.decode

def encodeBytes (width : Nat) : (k : Kind) → k.Clear → Vector UInt8 width
  | .unsigned => UIntT.Runtime.encode width
  | .signed => IntT.Runtime.encode width

def decodeBytes {width : Nat} : (k : Kind) → Vector UInt8 width → k.Clear
  | .unsigned => UIntT.Runtime.decode
  | .signed => IntT.Runtime.decode

def owners : String := "ClearSession::input: owner must be PUBLIC or a party id >= 1"

def widths : String := "ClearSession::input: runtime width must be >= 1"

def recipients : String :=
  "ClearSession::reveal: recipient must be PUBLIC or a party id >= 1 (XOR-share reveal is not a plaintext notion)"

def publicWires {n : Nat} (bits : Vector Bool n) : Word UInt8 n :=
  Word.fill fun i => clearCtx.publicBit (bits[i]?.getD false)

def publicByteWires {n : Nat} (bytes : Vector UInt8 n) : Word UInt8 n :=
  Word.fill fun i => clearCtx.publicBit (bytes[i]?.getD 0 ≠ 0)

-- `PUBLIC` is 0
def input : {τ : Ty} → Opens τ → Int → Request τ → Except String (τ.Val UInt8)
  | .bit, _, owner, v => do
      expecting (0 ≤ owner) owners
      pure (clearCtx.publicBit v)
  | .bits _, _, owner, v => do
      expecting (0 ≤ owner) owners
      pure (publicWires v)
  | .int k w, _, owner, v => do
      expecting (0 ≤ owner) owners
      pure (publicWires (encode w.n k v))
  | .dyn k, _, owner, v => do
      expecting (0 ≤ owner) owners
      RuntimeWord.construct widths v.1 fun width => publicByteWires (encodeBytes width k v.2)

def readBit (w : UInt8) : Bool := (w &&& 1) ≠ 0

def readBits {n : Nat} (x : Word UInt8 n) : Vector Bool n :=
  Vector.ofFn fun i => readBit (x.wire i)

def reveal : {τ : Ty} → Opens τ → τ.Val UInt8 → Int → Except String (Option (Clear τ))
  | .bit, _, a, recipient => do
      expecting (0 ≤ recipient) recipients
      pure (some (readBit a))
  | .bits _, _, x, recipient => do
      expecting (0 ≤ recipient) recipients
      pure (some (readBits x))
  | .int k _, _, x, recipient => do
      expecting (0 ≤ recipient) recipients
      pure (some (decode k (readBits x)))
  | .dyn k, _, x, recipient => do
      expecting (0 ≤ recipient) recipients
      pure (some (decodeBytes k ((readBits (RuntimeWord.word x)).map byteOf)))

end ClearSession

def typedValues : Signature :=
  ⟨Ty, Op, ClearSession.Opens, ClearSession.Request, ClearSession.Clear⟩

def clearSession : Machine typedValues where
  Val := Ty.Val UInt8
  op o args := o.apply clearCtx args
  input := ClearSession.input
  reveal := ClearSession.reveal

namespace BitVectors

open ClearSession (Opens Request Clear owners widths recipients)

def input : {τ : Ty} → Opens τ → Int → Request τ → Except String τ.Meaning
  | .bit, _, owner, v => do
      expecting (0 ≤ owner) owners
      pure v
  | .bits _, _, owner, v => do
      expecting (0 ≤ owner) owners
      pure (vectorValue v)
  | .int k w, _, owner, v => do
      expecting (0 ≤ owner) owners
      pure (valueOf w.n k v)
  | .dyn k, _, owner, v => do
      expecting (0 ≤ owner) owners
      Ty.Meaning.sized widths v.1 fun n => valueOf n k v.2

-- the number of the bits, reduced to 64 of them
def clearOf {n : Nat} : (k : Kind) → BitVec n → k.Clear
  | .unsigned, x => UInt64.ofNat x.toNat
  | .signed, x => Int64.ofInt x.toInt

def reveal : {τ : Ty} → Opens τ → τ.Meaning → Int → Except String (Option (Clear τ))
  | .bit, _, a, recipient => do
      expecting (0 ≤ recipient) recipients
      pure (some a)
  | .bits _, _, x, recipient => do
      expecting (0 ≤ recipient) recipients
      pure (some (Vector.ofFn fun i => BitVec.getLsbD x i))
  | .int k _, _, x, recipient => do
      expecting (0 ≤ recipient) recipients
      pure (some (clearOf k x))
  | .dyn k, _, x, recipient => do
      expecting (0 ≤ recipient) recipients
      pure (some (clearOf k (Sigma.snd x)))

end BitVectors

def bitVectors : Machine typedValues where
  Val := Ty.Meaning
  op o args := o.denote args
  input := BitVectors.input
  reveal := BitVectors.reveal

namespace ClearSession

open BitVectors (clearOf)

variable {n : Nat}

theorem readBit_eq (w : UInt8) : readBit w = clearContext.value w := by
  rw [readBit, Bool.eq_iff_iff, decide_eq_true_iff, Ne, ← UInt8.toNat_inj, UInt8.toNat_and]
  change ¬(w.toNat &&& 1) = 0 ↔ w.toNat.testBit 0 = true
  rw [Nat.and_one_is_mod, Nat.testBit_zero, decide_eq_true_iff]
  omega

theorem publicWires_eq {bits : Vector Bool n} {x : Word UInt8 n}
    (h : Publishes clearCtx id bits x) : publicWires bits = x := by
  apply Word.ext_wire
  intro i hi
  rw [publicWires, Word.wire_fill _ hi, h i hi, Vector.getElem?_eq_getElem hi, Option.getD_some]
  rfl

theorem publicByteWires_eq {bytes : Vector UInt8 n} {x : Word UInt8 n}
    (h : Publishes clearCtx (· ≠ 0) bytes x) : publicByteWires bytes = x := by
  apply Word.ext_wire
  intro i hi
  rw [publicByteWires, Word.wire_fill _ hi, h i hi, Vector.getElem?_eq_getElem hi,
    Option.getD_some]

theorem toBitVec_encode (hn : n ≤ 64) (k : Kind) (v : k.Clear) :
    (publicWires (encode n k v)).toBitVec clearContext = valueOf n k v := by
  rw [← toBitVec_constantOf clearContext n k v]
  congr 1
  cases k with
  | unsigned => exact publicWires_eq (UIntT.constant_publishes clearCtx hn v)
  | signed => exact publicWires_eq (IntT.constant_publishes clearCtx hn v)

theorem toBitVec_encodeBytes (n : Nat) (k : Kind) (v : k.Clear) :
    (publicByteWires (encodeBytes n k v)).toBitVec clearContext = valueOf n k v := by
  rw [← toBitVec_constantOf clearContext n k v]
  congr 1
  apply publicByteWires_eq
  cases k with
  | unsigned => exact UIntT.bytes_publish clearCtx v
  | signed => exact IntT.bytes_publish clearCtx v

theorem getElem_readBits (x : Word UInt8 n) {i : Nat} (hi : i < n) :
    (readBits x)[i]?.getD false = (x.toNat clearContext).testBit i := by
  rw [Vector.getElem?_eq_getElem hi, Option.getD_some, readBits, Vector.getElem_ofFn, readBit_eq]
  exact Word.value_wire_testBit clearContext x hi

theorem readBits_eq (x : Word UInt8 n) :
    readBits x = Vector.ofFn fun i => (x.toBitVec clearContext).getLsbD i := by
  ext i hi
  rw [readBits, Vector.getElem_ofFn, Vector.getElem_ofFn, readBit_eq]
  exact Word.value_wire clearContext x hi

theorem toNat_orBits_readBits {m : Nat} (hm : m ≤ 64) (hn : m ≤ n) (x : Word UInt8 n) :
    (orBits m fun i => (readBits x)[i]?.getD false).toNat = x.toNat clearContext % 2 ^ m := by
  rw [toNat_orBits hm, ← natOf_testBit]
  exact natOf_congr fun i hi => getElem_readBits x (by omega)

theorem toInt_clearOf (hn : n ≤ 64) (x : BitVec n) : (clearOf .signed x).toInt = x.toInt :=
  BitVec.toInt_signExtend_of_le hn

theorem clearOf_wide (hn : 64 ≤ n) (x : BitVec n) :
    clearOf .signed x = (clearOf .unsigned x).toInt64 := by
  apply Int64.toBitVec_inj.mp
  change x.signExtend 64 = BitVec.ofNat 64 x.toNat
  rw [BitVec.signExtend_eq_setWidth_of_le x hn, ← BitVec.toNat_inj, BitVec.toNat_setWidth,
    BitVec.toNat_ofNat]

theorem decode_readBits (hpos : 1 ≤ n) (hn : n ≤ 64) (k : Kind) (x : Word UInt8 n) :
    decode k (readBits x) = clearOf k (x.toBitVec clearContext) := by
  have hlow := toNat_orBits_readBits hn le_rfl x
  have hlt := x.toNat_lt clearContext
  have hle : 2 ^ n ≤ 2 ^ 64 := Nat.pow_le_pow_right (by decide) hn
  rw [Nat.mod_eq_of_lt hlt] at hlow
  have hfits := hlow.trans_lt hlt
  cases k with
  | unsigned =>
    apply UInt64.toNat_inj.mp
    rw [decode, UIntT.decode, hlow, clearOf, UInt64.toNat_ofNat', Word.toNat_toBitVec]
    exact (Nat.mod_eq_of_lt (Nat.lt_of_lt_of_le hlt hle)).symm
  | signed =>
    apply Int64.toInt_inj.mp
    rw [decode, IntT.decode, toInt_signFill hpos hn hfits, hlow, toInt_clearOf hn,
      BitVec.toInt_eq_toNat_bmod, Word.toNat_toBitVec]

theorem decodeBytes_readBits (hpos : 1 ≤ n) (k : Kind) (x : Word UInt8 n) :
    decodeBytes k ((readBits x).map byteOf) = clearOf k (x.toBitVec clearContext) := by
  by_cases hn : n ≤ 64
  · rw [← decode_readBits hpos hn k x]
    have hread : ((readBits x).map byteOf).map (fun b => decide (b ≠ 0)) = readBits x := by
      rw [Vector.map_map]
      exact (Vector.map_congr_left fun b _ => byteOf_ne_zero b).trans (Vector.map_id _)
    cases k with
    | unsigned => exact ((UIntT.agrees hn).decode _).trans (congrArg UIntT.decode hread)
    | signed => exact ((IntT.agrees hn).decode _).trans (congrArg IntT.decode hread)
  · have hwide : 64 ≤ n := by omega
    have hlow : UIntT.Runtime.decode ((readBits x).map byteOf) =
        clearOf .unsigned (x.toBitVec clearContext) := by
      apply UInt64.toNat_inj.mp
      rw [UIntT.Runtime.decode, Nat.min_eq_right hwide, clearOf, UInt64.toNat_ofNat',
        Word.toNat_toBitVec, ← toNat_orBits_readBits le_rfl hwide x]
      refine congrArg UInt64.toNat (orBits_congr le_rfl fun i hi => ?_)
      have hin : i < n := by omega
      rw [Vector.getElem?_eq_getElem hin, Vector.getElem?_eq_getElem hin, Vector.getElem_map]
      exact byteOf_ne_zero _
    cases k with
    | unsigned => exact hlow
    | signed =>
      rw [clearOf_wide hwide, ← hlow, decodeBytes, IntT.Runtime.decode, if_neg (by omega), signFill,
        if_neg (by simp)]
      rfl

theorem map_input {τ : Ty} (h : Opens τ) (owner : Int) (v : Request τ) :
    (input h owner v).map (Ty.meaning clearContext τ) = BitVectors.input h owner v := by
  cases τ with
  | bit => exact map_checked _ _ (clearContext.value_publicBit v)
  | bits n => exact map_checked _ _ (toBitVec_vector clearContext v)
  | int k w => exact map_checked _ _ (toBitVec_encode h k v)
  | dyn k =>
    exact map_expecting _ _ (map_sized clearContext (fun n => toBitVec_encodeBytes n k v.2) k)

theorem reveal_eq {τ : Ty} (h : Opens τ) (a : τ.Val UInt8) (recipient : Int) :
    reveal h a recipient = BitVectors.reveal h (Ty.meaning clearContext τ a) recipient := by
  cases τ with
  | bit => exact bind_congr fun _ => congrArg (fun b => Except.ok (some b)) (readBit_eq a)
  | bits n => exact bind_congr fun _ => congrArg (fun b => Except.ok (some b)) (readBits_eq a)
  | int k w =>
    exact bind_congr fun _ => congrArg (fun b => Except.ok (some b)) (decode_readBits w.pos h k a)
  | dyn k =>
    have hclear := decodeBytes_readBits (RuntimeWord.pos a) k (RuntimeWord.word a)
    exact bind_congr fun _ => congrArg (fun b => Except.ok (some b)) hclear

end ClearSession

theorem clearSession_refines :
    Machine.Refines clearSession bitVectors (Ty.meaning clearContext) where
  op o args := o.map_apply clearContext args
  input := ClearSession.map_input
  reveal := ClearSession.reveal_eq

theorem clear_session_computes_bit_vectors {α : Type} {Γ : List Ty} (host : Host typedValues α Γ)
    (values : Tuple (Ty.Val UInt8) Γ) :
    clearSession.run host values = bitVectors.run host (values.map (Ty.meaning clearContext)) :=
  clearSession_refines.run host values

end EmpTool.Session
