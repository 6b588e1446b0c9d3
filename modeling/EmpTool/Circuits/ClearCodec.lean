import EmpTool.Circuits.SignedInt

namespace EmpTool.Circuits

open Binary
open EmpTool.Ir (GateOps clearCtx)

def orBits (n : Nat) (bit : Nat → Bool) : UInt64 :=
  (List.range n).foldl (fun v i => v ||| (if bit i then 1 else 0) <<< UInt64.ofNat i) 0

def signFill (sb : Nat) (v : UInt64) : UInt64 :=
  if sb < 64 ∧ bitOfWord v (sb - 1) then v ||| ~~~(1 <<< UInt64.ofNat sb - 1) else v

def byteOf (b : Bool) : UInt8 := if b then 1 else 0

namespace UIntT

def encode (n : Nat) (v : UInt64) : Vector Bool n := Vector.ofFn fun i => bitOfWord v i

def decode {n : Nat} (bits : Vector Bool n) : UInt64 := orBits n fun i => bits[i]?.getD false

def Runtime.encode (width : Nat) (v : UInt64) : Vector UInt8 width :=
  Vector.ofFn fun i => byteOf (if i.val < 64 then bitOfWord v i else false)

def Runtime.decode {width : Nat} (bits : Vector UInt8 width) : UInt64 :=
  orBits (min width 64) fun i => bits[i]?.getD 0 ≠ 0

end UIntT

namespace IntT

def encode (n : Nat) (v : Int64) : Vector Bool n := Vector.ofFn fun i => bitOfWord v.toUInt64 i

def decode {n : Nat} (bits : Vector Bool n) : Int64 :=
  (signFill n (orBits n fun i => bits[i]?.getD false)).toInt64

def Runtime.encode (width : Nat) (v : Int64) : Vector UInt8 width :=
  Vector.ofFn fun i => byteOf (bitOfWord v.toUInt64 (if i.val < 64 then i else 63))

def Runtime.decode {width : Nat} (bits : Vector UInt8 width) : Int64 :=
  let v := orBits (min width 64) fun i => bits[i]?.getD 0 ≠ 0
  let sb := if width < 64 then width else 64
  (signFill sb v).toInt64

end IntT

section Words

theorem bitOfWord_toBitVec (v : UInt64) {i : Nat} (hi : i < 64) :
    bitOfWord v i = v.toBitVec.getLsbD i := bitOfWord_eq v hi

theorem toNat_ofNat_shift {i : Nat} (hi : i < 64) : (UInt64.ofNat i).toNat % 64 = i := by
  rw [UInt64.toNat_ofNat']
  omega

theorem toNat_bit_shift (b : Bool) {i : Nat} (hi : i < 64) :
    ((if b then 1 else 0 : UInt64) <<< UInt64.ofNat i).toNat = 2 ^ i * b.toNat := by
  have hlt : 2 ^ i < 2 ^ 64 := Nat.pow_lt_pow_right (by decide) hi
  rw [UInt64.toNat_shiftLeft, toNat_ofNat_shift hi, Nat.shiftLeft_eq]
  cases b
  · simp
  · simpa using Nat.mod_eq_of_lt hlt

theorem toNat_orBits {n : Nat} (hn : n ≤ 64) (f : Nat → Bool) :
    (orBits n f).toNat = natOf n f := by
  induction n with
  | zero => rfl
  | succ n ih =>
    have hor := Nat.two_pow_add_eq_or_of_lt (natOf_lt n f) (f n).toNat
    rw [orBits, List.range_succ, List.foldl_append, List.foldl_cons, List.foldl_nil, ← orBits,
      UInt64.toNat_or, ih (by omega), toNat_bit_shift _ (by omega), natOf_succ', Nat.or_comm, ← hor,
      Nat.add_comm]

theorem bitOfWord_orBits {n i : Nat} (hn : n ≤ 64) (hi : i < n) (f : Nat → Bool) :
    bitOfWord (orBits n f) i = f i := by
  rw [bitOfWord_eq _ (by omega), toNat_orBits hn, testBit_natOf, decide_eq_true hi, Bool.true_and]

theorem orBits_congr {n : Nat} (hn : n ≤ 64) {f g : Nat → Bool} (h : ∀ i < n, f i = g i) :
    orBits n f = orBits n g := by
  rw [← UInt64.toNat_inj, toNat_orBits hn, toNat_orBits hn, natOf_congr h]

theorem toNat_orBits_bitOfWord {n : Nat} (hn : n ≤ 64) (v : UInt64) :
    (orBits n (bitOfWord v)).toNat = v.toNat % 2 ^ n := by
  rw [toNat_orBits hn, ← natOf_testBit]
  exact natOf_congr fun i hi => bitOfWord_eq v (by omega)

theorem getLsbD_lowMask {sb : Nat} (hsb : sb < 64) (i : Nat) :
    (1 <<< UInt64.ofNat sb - 1 : UInt64).toBitVec.getLsbD i = decide (i < sb) := by
  have hone : (1 <<< UInt64.ofNat sb : UInt64).toNat = 2 ^ sb := by
    simpa using toNat_bit_shift true hsb
  have hle : (1 : UInt64) ≤ 1 <<< UInt64.ofNat sb := by
    rw [UInt64.le_iff_toNat_le, hone]
    exact Nat.one_le_two_pow
  rw [BitVec.getLsbD, UInt64.toNat_toBitVec, UInt64.toNat_sub_of_le _ _ hle, hone]
  exact Nat.testBit_two_pow_sub_one sb i

theorem getLsbD_signFill {sb : Nat} (hpos : 1 ≤ sb) (hsb : sb ≤ 64) {v : UInt64}
    (hv : v.toNat < 2 ^ sb) {i : Nat} (hi : i < 64) :
    (signFill sb v).toBitVec.getLsbD i =
      v.toBitVec.getLsbD (if i < sb then i else sb - 1) := by
  have hhigh (j : Nat) (hj : sb ≤ j) : v.toBitVec.getLsbD j = false :=
    Nat.testBit_lt_two_pow (Nat.lt_of_lt_of_le hv (Nat.pow_le_pow_right (by decide) hj))
  by_cases hin : i < sb
  · rw [if_pos hin, signFill]
    split
    case isTrue hfill =>
      rw [UInt64.toBitVec_or, BitVec.getLsbD_or, UInt64.toBitVec_not, BitVec.getLsbD_not,
        getLsbD_lowMask hfill.1, decide_eq_true hin, Bool.not_true, Bool.and_false, Bool.or_false]
    case isFalse _ => rfl
  · rw [if_neg hin, signFill, bitOfWord_toBitVec v (by omega)]
    split
    case isTrue hfill =>
      rw [UInt64.toBitVec_or, BitVec.getLsbD_or, UInt64.toBitVec_not, BitVec.getLsbD_not,
        getLsbD_lowMask hfill.1, decide_eq_false hin, decide_eq_true hi, hfill.2]
      exact Bool.or_true _
    case isFalse hfill =>
      rw [hhigh i (by omega)]
      have hclear := fun h => hfill ⟨by omega, h⟩
      exact (Bool.eq_false_of_not_eq_true hclear).symm

theorem toBitVec_signFill {sb : Nat} (hpos : 1 ≤ sb) (hsb : sb ≤ 64) {v : UInt64}
    (hv : v.toNat < 2 ^ sb) :
    (signFill sb v).toBitVec = (v.toBitVec.setWidth sb).signExtend 64 := by
  apply BitVec.eq_of_getLsbD_eq
  intro i hi
  rw [getLsbD_signFill hpos hsb hv hi, BitVec.getLsbD_signExtend, decide_eq_true hi, Bool.true_and,
    BitVec.msb_eq_getLsbD_last, BitVec.getLsbD_setWidth, BitVec.getLsbD_setWidth]
  split
  case isTrue hin => rw [decide_eq_true hin, Bool.true_and]
  case isFalse hin => rw [decide_eq_true (by omega), Bool.true_and]

theorem toInt_signFill {sb : Nat} (hpos : 1 ≤ sb) (hsb : sb ≤ 64) {v : UInt64}
    (hv : v.toNat < 2 ^ sb) : (signFill sb v).toInt64.toInt = (v.toNat : Int).bmod (2 ^ sb) := by
  calc (signFill sb v).toInt64.toInt = ((v.toBitVec.setWidth sb).signExtend 64).toInt := by
        rw [← toBitVec_signFill hpos hsb hv]
        rfl
    _ = (v.toBitVec.setWidth sb).toInt := BitVec.toInt_signExtend_of_le hsb
    _ = (v.toNat : Int).bmod (2 ^ sb) := BitVec.toInt_setWidth _

end Words

section RoundTrips

structure RoundTrips {Value β : Type} (n : Nat) (bit : Bool → β) (reduced : Value → Value → Prop)
    (encode : Value → Vector β n) (decode : Vector β n → Value) : Prop where
  decode_encode : ∀ v, reduced v (decode (encode v))
  whole : 64 ≤ n → ∀ v, decode (encode v) = v
  encode_decode : n ≤ 64 → ∀ bits : Vector Bool n, encode (decode (bits.map bit)) = bits.map bit

structure Agrees {Value : Type} {n : Nat} (encode : Value → Vector Bool n)
    (decode : Vector Bool n → Value) (encode' : Value → Vector UInt8 n)
    (decode' : Vector UInt8 n → Value) : Prop where
  encode : ∀ v, encode' v = (encode v).map byteOf
  decode : ∀ bits, decode' bits = decode (bits.map (· ≠ 0))

def UIntT.Reduced (n : Nat) (v r : UInt64) : Prop := r.toNat = v.toNat % 2 ^ n

def IntT.Reduced (n : Nat) (v r : Int64) : Prop := r.toInt = v.toInt.bmod (2 ^ n)

variable {n : Nat}

theorem UIntT.reduced_iff_of_le (hn : 64 ≤ n) {v r : UInt64} : Reduced n v r ↔ r = v := by
  have hle : 2 ^ 64 ≤ 2 ^ n := Nat.pow_le_pow_right (by decide) hn
  rw [Reduced, Nat.mod_eq_of_lt (Nat.lt_of_lt_of_le v.toNat_lt hle), UInt64.toNat_inj]

theorem IntT.reduced_iff_of_le (hn : 64 ≤ n) {v r : Int64} : Reduced n v r ↔ r = v := by
  have hwide : (v.toBitVec.signExtend n).toInt = v.toInt := BitVec.toInt_signExtend_of_le hn
  rw [Reduced, ← hwide, BitVec.toInt_bmod_cancel, hwide, Int64.toInt_inj]

theorem IntT.reduced_of_toUInt64 (hn : n ≤ 64) {v r : Int64}
    (h : r.toInt = ((v.toUInt64.toNat % 2 ^ n : Nat) : Int).bmod (2 ^ n)) : Reduced n v r := by
  have hdvd : ((2 ^ n : Nat) : Int) ∣ ((2 ^ 64 : Nat) : Int) :=
    Int.natCast_dvd_natCast.mpr (Nat.pow_dvd_pow 2 hn)
  rw [Reduced, h, Int.natCast_emod, Int.emod_bmod]
  change _ = v.toBitVec.toInt.bmod _
  rw [BitVec.toInt_eq_toNat_bmod, Int.bmod_bmod_of_dvd (Nat.pow_dvd_pow 2 hn)]
  rfl

theorem byteOf_ne_zero (b : Bool) : decide (byteOf b ≠ 0) = b := by
  cases b <;> rfl

theorem UIntT.encode_decode (hn : n ≤ 64) (bits : Vector Bool n) :
    encode n (decode bits) = bits := by
  ext i hi
  simp [encode, decode, bitOfWord_orBits hn hi, hi]

theorem UIntT.reduced_decode_encode (hn : n ≤ 64) (v : UInt64) :
    Reduced n v (decode (encode n v)) := by
  rw [Reduced, ← toNat_orBits_bitOfWord hn, decode]
  congr 1
  refine orBits_congr hn fun i hi => ?_
  simp [encode, hi]

theorem IntT.encode_decode (hpos : 1 ≤ n) (hn : n ≤ 64) (bits : Vector Bool n) :
    encode n (decode bits) = bits := by
  ext i hi
  have hlt := toNat_orBits hn (fun i => bits[i]?.getD false) ▸ natOf_lt n _
  simp only [encode, decode, UInt64.toUInt64_toInt64, Vector.getElem_ofFn]
  rw [bitOfWord_toBitVec _ (by omega), getLsbD_signFill hpos hn hlt (by omega), if_pos hi,
    ← bitOfWord_toBitVec _ (by omega), bitOfWord_orBits hn hi]
  simp [hi]

theorem IntT.reduced_decode_encode (hpos : 1 ≤ n) (hn : n ≤ 64) (v : Int64) :
    Reduced n v (decode (encode n v)) := by
  have hbits : (orBits n fun i => (encode n v)[i]?.getD false) = orBits n (bitOfWord v.toUInt64) :=
    orBits_congr hn fun i hi => by simp [encode, hi]
  have hv := toNat_orBits_bitOfWord hn v.toUInt64
  have hlt : (orBits n (bitOfWord v.toUInt64)).toNat < 2 ^ n := by
    rw [hv]
    exact Nat.mod_lt _ (Nat.two_pow_pos n)
  apply reduced_of_toUInt64 hn
  rw [decode, hbits, toInt_signFill hpos hn hlt, hv]

theorem UIntT.agrees (hn : n ≤ 64) :
    Agrees (encode n) decode (Runtime.encode n) Runtime.decode where
  encode v := by
    ext i hi
    have h64 : i < 64 := by omega
    simp [encode, Runtime.encode, h64]
  decode bits := by
    rw [Runtime.decode, Nat.min_eq_left hn, decode]
    exact orBits_congr hn fun i hi => by simp [hi]

theorem IntT.agrees (hn : n ≤ 64) :
    Agrees (encode n) decode (Runtime.encode n) Runtime.decode where
  encode v := by
    ext i hi
    have h64 : i < 64 := by omega
    simp [encode, Runtime.encode, h64]
  decode bits := by
    have hsb : (if n < 64 then n else 64) = n := by split <;> omega
    rw [Runtime.decode, Nat.min_eq_left hn, decode, hsb]
    congr 2
    exact orBits_congr hn fun i hi => by simp [hi]

theorem UIntT.runtime_whole (hn : 64 ≤ n) (v : UInt64) :
    Runtime.decode (Runtime.encode n v) = v := by
  have hbits : Runtime.decode (Runtime.encode n v) = orBits 64 (bitOfWord v) := by
    rw [Runtime.decode, Nat.min_eq_right hn]
    refine orBits_congr le_rfl fun i hi => ?_
    have hin : i < n := by omega
    simp only [Runtime.encode, hin, Vector.getElem?_ofFn, dif_pos, Option.getD_some, if_pos hi]
    exact byteOf_ne_zero _
  rw [hbits, ← UInt64.toNat_inj, toNat_orBits_bitOfWord le_rfl]
  exact Nat.mod_eq_of_lt v.toNat_lt

theorem IntT.runtime_whole (hn : 64 ≤ n) (v : Int64) : Runtime.decode (Runtime.encode n v) = v := by
  have hbits : Runtime.decode (Runtime.encode n v) =
      (signFill 64 (UIntT.Runtime.decode (UIntT.Runtime.encode n v.toUInt64))).toInt64 := by
    rw [Runtime.decode, UIntT.Runtime.decode, if_neg (by omega), Nat.min_eq_right hn]
    refine congrArg (fun v => (signFill 64 v).toInt64) (orBits_congr le_rfl fun i hi => ?_)
    have hin : i < n := by omega
    simp [Runtime.encode, UIntT.Runtime.encode, hin, hi]
  rw [hbits, UIntT.runtime_whole hn, signFill, if_neg (by simp), Int64.toInt64_toUInt64]

theorem RoundTrips.of_agrees {Value : Type} {reduced : Value → Value → Prop}
    {encode : Value → Vector Bool n} {decode : Vector Bool n → Value}
    {encode' : Value → Vector UInt8 n} {decode' : Vector UInt8 n → Value}
    (h : RoundTrips n id reduced encode decode) (ha : Agrees encode decode encode' decode') :
    RoundTrips n byteOf reduced encode' decode' := by
  have hread (bits : Vector Bool n) : decode' (bits.map byteOf) = decode bits := by
    rw [ha.decode, Vector.map_map]
    congr
    exact (Vector.map_congr_left fun b _ => byteOf_ne_zero b).trans (Vector.map_id bits)
  refine ⟨fun v => ?_, fun hn v => ?_, fun hn bits => ?_⟩
  · rw [ha.encode, hread]
    exact h.decode_encode v
  · rw [ha.encode, hread]
    exact h.whole hn v
  · have hback := h.encode_decode hn bits
    rw [Vector.map_id] at hback
    rw [hread, ha.encode, hback]

theorem UIntT.roundTrips (hn : n ≤ 64) : RoundTrips n id (Reduced n) (encode n) decode where
  decode_encode := reduced_decode_encode hn
  whole h v := (reduced_iff_of_le h).mp (reduced_decode_encode hn v)
  encode_decode _ bits := by rw [Vector.map_id, encode_decode hn]

theorem IntT.roundTrips (hpos : 1 ≤ n) (hn : n ≤ 64) :
    RoundTrips n id (Reduced n) (encode n) decode where
  decode_encode := reduced_decode_encode hpos hn
  whole h v := (reduced_iff_of_le h).mp (reduced_decode_encode hpos hn v)
  encode_decode _ bits := by rw [Vector.map_id, encode_decode hpos hn]

theorem UIntT.runtime_roundTrips :
    RoundTrips n byteOf (Reduced n) (Runtime.encode n) Runtime.decode := by
  by_cases hn : n ≤ 64
  · exact (roundTrips hn).of_agrees (agrees hn)
  · exact ⟨fun v => (reduced_iff_of_le (by omega)).mpr (runtime_whole (by omega) v),
      fun h v => runtime_whole h v, fun h => absurd h hn⟩

theorem IntT.runtime_roundTrips (hpos : 1 ≤ n) :
    RoundTrips n byteOf (Reduced n) (Runtime.encode n) Runtime.decode := by
  by_cases hn : n ≤ 64
  · exact (roundTrips hpos hn).of_agrees (agrees hn)
  · exact ⟨fun v => (reduced_iff_of_le (by omega)).mpr (runtime_whole (by omega) v),
      fun h v => runtime_whole h v, fun h => absurd h hn⟩

end RoundTrips

section Constants

variable {Wire : Type} [Inhabited Wire] {n : Nat} (c : GateOps Wire)

def Publishes {β : Type} (isSet : β → Bool) (bits : Vector β n) (x : Word Wire n) : Prop :=
  ∀ i, (hi : i < n) → x.wire i = c.publicBit (isSet bits[i])

def PublishesRuntime (bits : Vector UInt8 n) (made : Except String (RuntimeWord Wire)) : Prop :=
  ∃ (hn : 1 ≤ n) (x : Word Wire n), made = .ok ⟨n, hn, x⟩ ∧ Publishes c (· ≠ 0) bits x

theorem publishes_fill {β : Type} {isSet : β → Bool} {bits : Vector β n} {f : Nat → Bool}
    (h : ∀ i, (hi : i < n) → isSet bits[i] = f i) :
    Publishes c isSet bits (Word.fill fun i => c.publicBit (f i)) := by
  intro i hi
  rw [Word.wire_fill _ hi, h i hi]

theorem UIntT.constant_publishes (hn : n ≤ 64) (v : UInt64) :
    Publishes c id (encode n v) (constant c v) :=
  publishes_fill c fun i hi => by rw [encode, Vector.getElem_ofFn, if_pos (by omega)]; rfl

theorem IntT.constant_publishes (hn : n ≤ 64) (v : Int64) :
    Publishes c id (encode n v) (constant c v) :=
  publishes_fill c fun i hi => by rw [encode, Vector.getElem_ofFn, if_pos (by omega)]; rfl

theorem UIntT.bytes_publish (v : UInt64) :
    Publishes c (· ≠ 0) (Runtime.encode n v) (constant c v) := by
  refine publishes_fill c fun i hi => ?_
  rw [Runtime.encode, Vector.getElem_ofFn]
  exact byteOf_ne_zero _

theorem UIntT.runtime_publishes (hpos : 1 ≤ n) (v : UInt64) :
    PublishesRuntime c (Runtime.encode n v) (Runtime.constant c n v) :=
  ⟨hpos, constant c v, RuntimeWord.construct_eq _ hpos _, bytes_publish c v⟩

theorem IntT.bytes_publish (v : Int64) :
    Publishes c (· ≠ 0) (Runtime.encode n v) (constant c v) := by
  refine publishes_fill c fun i hi => ?_
  rw [Runtime.encode, Vector.getElem_ofFn]
  exact byteOf_ne_zero _

theorem IntT.runtime_publishes (hpos : 1 ≤ n) (v : Int64) :
    PublishesRuntime c (Runtime.encode n v) (Runtime.constant c n v) :=
  ⟨hpos, constant c v, RuntimeWord.construct_eq _ hpos _, bytes_publish c v⟩

theorem clear_codecs_round_trip (hpos : 1 ≤ n) :
    (n ≤ 64 → RoundTrips n id (UIntT.Reduced n) (UIntT.encode n) UIntT.decode ∧
      RoundTrips n id (IntT.Reduced n) (IntT.encode n) IntT.decode) ∧
    RoundTrips n byteOf (UIntT.Reduced n) (UIntT.Runtime.encode n) UIntT.Runtime.decode ∧
    RoundTrips n byteOf (IntT.Reduced n) (IntT.Runtime.encode n) IntT.Runtime.decode ∧
    (n ≤ 64 →
      Agrees (UIntT.encode n) UIntT.decode (UIntT.Runtime.encode n) UIntT.Runtime.decode ∧
      Agrees (IntT.encode n) IntT.decode (IntT.Runtime.encode n) IntT.Runtime.decode) ∧
    (n ≤ 64 → (∀ v, Publishes c id (UIntT.encode n v) (UIntT.constant c v)) ∧
      ∀ v, Publishes c id (IntT.encode n v) (IntT.constant c v)) ∧
    (∀ v, PublishesRuntime c (UIntT.Runtime.encode n v) (UIntT.Runtime.constant c n v)) ∧
    ∀ v, PublishesRuntime c (IntT.Runtime.encode n v) (IntT.Runtime.constant c n v) := by
  refine ⟨fun hn => ⟨UIntT.roundTrips hn, IntT.roundTrips hpos hn⟩, UIntT.runtime_roundTrips,
    IntT.runtime_roundTrips hpos, fun hn => ⟨UIntT.agrees hn, IntT.agrees hn⟩, fun hn => ?_,
    UIntT.runtime_publishes c hpos, IntT.runtime_publishes c hpos⟩
  exact ⟨UIntT.constant_publishes c hn, IntT.constant_publishes c hn⟩

end Constants

theorem clear_codecs_round_trip_bytes :
    IntT.decode (IntT.encode 8 200) = -56 ∧ UIntT.decode (UIntT.encode 8 456) = 200 := by
  have h := clear_codecs_round_trip clearCtx (n := 8) (by decide)
  obtain ⟨hunsigned, hsigned⟩ := h.1 (by decide)
  refine ⟨Int64.toInt_inj.mp ?_, UInt64.toNat_inj.mp ?_⟩
  · exact (hsigned.decode_encode 200).trans (by decide)
  · exact (hunsigned.decode_encode 456).trans (by decide)

end EmpTool.Circuits
