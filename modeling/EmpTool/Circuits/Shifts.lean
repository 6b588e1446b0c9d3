import EmpTool.Circuits.SignedInt

namespace EmpTool.Circuits

open Arrays Binary Kernel
open EmpTool.Ir (GateOps clearCtx)

section Operators

variable {Wire : Type} [Inhabited Wire] {n : Nat} (c : GateOps Wire)

namespace Word

def shiftStages (n : Nat) : Nat := if n ≤ 1 then 0 else clog2Ceil n

-- the stage amount `1 << i` passes the check of the public operator
def barrel (stage : Word Wire n → Nat → Word Wire n) (beyond x shamt : Word Wire n) :
    Word Wire n :=
  let use := shiftStages n
  let res := (List.range use).foldl
    (fun res i => res.select c (shamt.wire i) (stage res (2 ^ i))) x
  let overflow := (List.range' use (n - use)).foldl (fun o i => orGate c o (shamt.wire i))
    (c.publicBit false)
  res.select c overflow beyond

end Word

def UIntT.shlSecret (x shamt : UIntT Wire n) : UIntT Wire n :=
  Word.barrel c (Word.shiftLeft c) (UIntT.constant c 0) x shamt

def UIntT.shrSecret (x shamt : UIntT Wire n) : UIntT Wire n :=
  Word.barrel c (Word.shiftRight (c.publicBit false)) (UIntT.constant c 0) x shamt

namespace IntT

def shl (x : IntT Wire n) (s : Int) : Except String (IntT Wire n) := do
  expecting (0 ≤ s) "Int_T::operator<<: shift amount must be >= 0"
  pure (Word.shiftLeft c x s.toNat)

def arithmeticRight (x : IntT Wire n) (s : Nat) : IntT Wire n :=
  Word.shiftRight (x.wire (n - 1)) x s

def shr (x : IntT Wire n) (s : Int) : Except String (IntT Wire n) := do
  expecting (0 ≤ s) "Int_T::operator>>: shift amount must be >= 0"
  pure (arithmeticRight x s.toNat)

def shlSecret (x : IntT Wire n) (shamt : UIntT Wire n) : IntT Wire n :=
  Word.barrel c (Word.shiftLeft c) (IntT.constant c 0) x shamt

def shrSecret (x : IntT Wire n) (shamt : UIntT Wire n) : IntT Wire n :=
  Word.barrel c arithmeticRight (Word.fill fun _ => x.wire (n - 1)) x shamt

end IntT

end Operators

theorem clog2CeilFrom_spec (n b : Nat) (hb : b ≤ n) :
    n ≤ 2 ^ clog2CeilFrom n b ∧ clog2CeilFrom n b ≤ n := by
  fun_induction clog2CeilFrom n b with
  | case1 b hlt ih =>
    have := Nat.lt_two_pow_self (n := b)
    exact ih (by omega)
  | case2 b hlt => exact ⟨Nat.not_lt.mp hlt, hb⟩

theorem shiftStages_spec (n : Nat) : n ≤ 2 ^ Word.shiftStages n ∧ Word.shiftStages n ≤ n := by
  unfold Word.shiftStages
  split
  · exact ⟨by simpa, Nat.zero_le n⟩
  · exact clog2CeilFrom_spec n 0 (Nat.zero_le n)

structure Shifting {n : Nat} (shift : BitVec n → Nat → BitVec n) : Prop where
  zero : ∀ x, shift x 0 = x
  add : ∀ x s t, shift x (s + t) = shift (shift x s) t

variable {Wire : Type} [Inhabited Wire] {n : Nat} (c : PlainContext Wire)

namespace Word

theorem value_overflow (shamt : Word Wire n) {use : Nat} (hu : use ≤ n) :
    c.value ((List.range' use (n - use)).foldl (fun o i => orGate c.toGateOps o (shamt.wire i))
      (c.publicBit false)) = decide (2 ^ use ≤ shamt.toNat c) := by
  have upto (k : Nat) : c.value ((List.range' use k).foldl
      (fun o i => orGate c.toGateOps o (shamt.wire i)) (c.publicBit false)) = true ↔
      ∃ i, use ≤ i ∧ i < use + k ∧ c.value (shamt.wire i) = true := by
    induction k with
    | zero =>
      rw [List.range'_zero, List.foldl_nil, c.value_publicBit]
      exact ⟨nofun, fun ⟨_, _, _, _⟩ => by omega⟩
    | succ k ih =>
      rw [List.range'_1_concat, List.foldl_append, List.foldl_cons, List.foldl_nil, value_orGate,
        Bool.or_eq_true, ih]
      constructor
      · rintro (⟨i, hi, hk, hv⟩ | hv)
        · exact ⟨i, hi, by omega, hv⟩
        · exact ⟨use + k, by omega, by omega, hv⟩
      · rintro ⟨i, hi, hk, hv⟩
        by_cases htop : i = use + k
        · exact Or.inr (htop ▸ hv)
        · exact Or.inl ⟨i, hi, by omega, hv⟩
  rw [Bool.eq_iff_iff, upto, decide_eq_true_iff, Nat.add_sub_cancel' hu]
  exact (le_natOf hu _).symm

theorem toBitVec_stages {shift : BitVec n → Nat → BitVec n} (hs : Shifting shift)
    {stage : Word Wire n → Nat → Word Wire n}
    (hstage : ∀ res s, (stage res s).toBitVec c = shift (res.toBitVec c) s)
    (x shamt : Word Wire n) (use : Nat) :
    ((List.range use).foldl (fun res i => res.select c.toGateOps (shamt.wire i) (stage res (2 ^ i)))
      x).toBitVec c = shift (x.toBitVec c) (c.num use shamt.wire) := by
  induction use with
  | zero => exact (hs.zero _).symm
  | succ use ih =>
    rw [List.range_succ, List.foldl_append, List.foldl_cons, List.foldl_nil, toBitVec_select,
      hstage, ih, num_succ, hs.add]
    cases c.value (shamt.wire use) with
    | true => rw [if_pos rfl, Bool.toNat_true, Nat.mul_one]
    | false => rw [if_neg Bool.false_ne_true, Bool.toNat_false, Nat.mul_zero, hs.zero]

theorem toBitVec_barrel {shift : BitVec n → Nat → BitVec n} (hs : Shifting shift)
    {stage : Word Wire n → Nat → Word Wire n} {beyond x : Word Wire n}
    (hstage : ∀ res s, (stage res s).toBitVec c = shift (res.toBitVec c) s)
    (hbeyond : ∀ s, n ≤ s → beyond.toBitVec c = shift (x.toBitVec c) s) (shamt : Word Wire n) :
    (barrel c.toGateOps stage beyond x shamt).toBitVec c = shift (x.toBitVec c) (shamt.toNat c) := by
  obtain ⟨hn, hu⟩ := shiftStages_spec n
  rw [barrel, toBitVec_select, value_overflow c shamt hu, toBitVec_stages c hs hstage]
  by_cases ho : 2 ^ shiftStages n ≤ shamt.toNat c
  · rw [decide_eq_true ho, if_pos rfl]
    exact hbeyond _ (Nat.le_trans hn ho)
  · rw [decide_eq_false ho, if_neg Bool.false_ne_true]
    congr 1
    rw [PlainContext.num, ← natOf_mod hu]
    exact Nat.mod_eq_of_lt (Nat.not_le.mp ho)

end Word

theorem shifting_left : Shifting fun (x : BitVec n) s => x <<< s where
  zero := BitVec.shiftLeft_zero
  add := BitVec.shiftLeft_add

theorem shifting_right : Shifting fun (x : BitVec n) s => x >>> s where
  zero := BitVec.ushiftRight_zero
  add := BitVec.shiftRight_add

theorem shifting_arithmetic : Shifting (BitVec.sshiftRight (n := n)) where
  zero _ := BitVec.sshiftRight_zero
  add _ _ _ := BitVec.sshiftRight_add

theorem UIntT.toBitVec_zero : (UIntT.constant c.toGateOps 0 : UIntT Wire n).toBitVec c = 0#n := by
  apply Word.toBitVec_eq
  rw [UIntT.toNat_constant, BitVec.toNat_zero]
  exact Nat.zero_mod _

theorem IntT.toBitVec_zero : (IntT.constant c.toGateOps 0 : IntT Wire n).toBitVec c = 0#n := by
  apply Word.toBitVec_eq_of_wires
  intro i hi
  rw [IntT.constant, Word.wire_fill _ hi, c.value_publicBit, BitVec.getLsbD_zero,
    bitOfWord_eq _ (by split <;> omega)]
  exact Nat.zero_testBit _

theorem IntT.toBitVec_arithmeticRight (x : IntT Wire n) (s : Nat) :
    (IntT.arithmeticRight x s).toBitVec c = (x.toBitVec c).sshiftRight s := by
  apply Word.toBitVec_eq_of_wires
  intro i hi
  rw [IntT.arithmeticRight, Word.wire_shiftRight _ _ _ hi, BitVec.getLsbD_sshiftRight,
    decide_eq_false (Nat.not_le.mpr hi), Bool.not_false, Bool.true_and, Nat.add_comm i s]
  split
  case isTrue hs => exact Word.value_wire c x hs
  case isFalse => exact IntT.value_signBit c (by omega) x

theorem UIntT.toBitVec_shlSecret (x shamt : UIntT Wire n) :
    (UIntT.shlSecret c.toGateOps x shamt).toBitVec c = x.toBitVec c <<< shamt.toNat c :=
  Word.toBitVec_barrel c shifting_left (Word.toBitVec_shiftLeft c)
    (fun _ hs => (UIntT.toBitVec_zero c).trans (BitVec.shiftLeft_eq_zero hs).symm) shamt

theorem UIntT.toBitVec_shrSecret (x shamt : UIntT Wire n) :
    (UIntT.shrSecret c.toGateOps x shamt).toBitVec c = x.toBitVec c >>> shamt.toNat c :=
  Word.toBitVec_barrel c shifting_right (Word.toBitVec_shiftRight c)
    (fun _ hs => (UIntT.toBitVec_zero c).trans (BitVec.ushiftRight_eq_zero hs).symm) shamt

theorem IntT.toBitVec_shlSecret (x : IntT Wire n) (shamt : UIntT Wire n) :
    (IntT.shlSecret c.toGateOps x shamt).toBitVec c = x.toBitVec c <<< shamt.toNat c :=
  Word.toBitVec_barrel c shifting_left (Word.toBitVec_shiftLeft c)
    (fun _ hs => (IntT.toBitVec_zero c).trans (BitVec.shiftLeft_eq_zero hs).symm) shamt

theorem IntT.toBitVec_shrSecret (x : IntT Wire n) (shamt : UIntT Wire n) :
    (IntT.shrSecret c.toGateOps x shamt).toBitVec c = (x.toBitVec c).sshiftRight (shamt.toNat c) := by
  refine Word.toBitVec_barrel c shifting_arithmetic (IntT.toBitVec_arithmeticRight c)
    (fun s hs => ?_) shamt
  apply Word.toBitVec_eq_of_wires
  intro i hi
  rw [Word.wire_fill _ hi, BitVec.getLsbD_sshiftRight, decide_eq_false (Nat.not_le.mpr hi),
    if_neg (by omega), Bool.not_false, Bool.true_and]
  exact IntT.value_signBit c (by omega) x

def PublicAmount (n s : Nat) (t : Int) : Prop := t = s ∨ n ≤ s ∧ n ≤ t

theorem PublicAmount.shift_eq {n s : Nat} {t : Int} (h : PublicAmount n s t)
    {shift : BitVec n → Nat → BitVec n}
    (hsat : ∀ x a b, n ≤ a → n ≤ b → shift x a = shift x b) (x : BitVec n) :
    0 ≤ t ∧ shift x t.toNat = shift x s := by
  rcases h with rfl | ⟨hs, ht⟩
  · exact ⟨Int.natCast_nonneg s, by rw [Int.toNat_natCast]⟩
  · exact ⟨by omega, hsat x _ _ (by omega) hs⟩

theorem toInt_shiftLeft (x : BitVec n) (s : Nat) :
    (x <<< s).toInt = (x.toInt * 2 ^ s).bmod (2 ^ n) := by
  rw [BitVec.toInt_eq_toNat_bmod, BitVec.toInt_eq_toNat_bmod, Int.bmod_mul_bmod,
    BitVec.toNat_shiftLeft, Nat.shiftLeft_eq, Int.natCast_mod, Int.natCast_mul, Int.emod_bmod]
  rfl

theorem toInt_div_of_le (x : BitVec n) {s : Nat} (hs : n ≤ s) :
    x.toInt / 2 ^ s = if x.toInt < 0 then -1 else 0 := by
  have hlt := BitVec.two_mul_toInt_lt (x := x)
  have hle := BitVec.le_two_mul_toInt (x := x)
  have hpow : (2 : Int) ^ n ≤ 2 ^ s := by exact_mod_cast Nat.pow_le_pow_right (by decide) hs
  have hpos : (0 : Int) < 2 ^ s := Int.pow_pos (by decide)
  split
  case isTrue hneg =>
    apply Int.le_antisymm
    · exact Int.le_of_lt_add_one (Int.ediv_lt_of_lt_mul hpos (by omega))
    · exact Int.le_ediv_of_mul_le hpos (by omega)
  case isFalse hnonneg => exact Int.ediv_eq_zero_of_lt (by omega) (by omega)

theorem toInt_sshiftRight (x : BitVec n) (s : Nat) : (x.sshiftRight s).toInt = x.toInt / 2 ^ s := by
  rw [BitVec.toInt_sshiftRight, Int.shiftRight_eq_div_pow]
  rfl

structure SecretShifts (x : UIntT Wire n) (y : IntT Wire n) (shamt : UIntT Wire n) : Prop where
  shl : (x.shlSecret c.toGateOps shamt).toNat c = x.toNat c * 2 ^ shamt.toNat c % 2 ^ n
  shr : (x.shrSecret c.toGateOps shamt).toNat c = x.toNat c / 2 ^ shamt.toNat c
  signedShl : (IntT.shlSecret c.toGateOps y shamt).toInt c =
    (y.toInt c * 2 ^ shamt.toNat c).bmod (2 ^ n)
  signedShr : (IntT.shrSecret c.toGateOps y shamt).toInt c = y.toInt c / 2 ^ shamt.toNat c
  saturated : n ≤ shamt.toNat c →
    (x.shlSecret c.toGateOps shamt).toNat c = 0 ∧ (x.shrSecret c.toGateOps shamt).toNat c = 0 ∧
      (IntT.shlSecret c.toGateOps y shamt).toInt c = 0 ∧
      (IntT.shrSecret c.toGateOps y shamt).toInt c = if y.toInt c < 0 then -1 else 0
  publicShl : ∀ t, PublicAmount n (shamt.toNat c) t → ∃ r, UIntT.shl c.toGateOps x t = .ok r ∧
    r.toNat c = (x.shlSecret c.toGateOps shamt).toNat c
  publicShr : ∀ t, PublicAmount n (shamt.toNat c) t → ∃ r, UIntT.shr c.toGateOps x t = .ok r ∧
    r.toNat c = (x.shrSecret c.toGateOps shamt).toNat c
  publicSignedShl : ∀ t, PublicAmount n (shamt.toNat c) t →
    ∃ r, IntT.shl c.toGateOps y t = .ok r ∧ r.toInt c = (IntT.shlSecret c.toGateOps y shamt).toInt c
  publicSignedShr : ∀ t, PublicAmount n (shamt.toNat c) t → ∃ r, IntT.shr y t = .ok r ∧
    r.toInt c = (IntT.shrSecret c.toGateOps y shamt).toInt c

theorem checked_eq_ok {α : Type} {p : Prop} [Decidable p] {message : String} (hp : p) (a : α) :
    (do expecting p message; pure a : Except String α) = .ok a :=
  bind_eq_ok.mpr ⟨(), expecting_eq_ok.mpr hp, rfl⟩

theorem secret_shifts_exact (x : UIntT Wire n) (y : IntT Wire n) (shamt : UIntT Wire n) :
    SecretShifts c x y shamt := by
  have left (z : BitVec n) (a b : Nat) (ha : n ≤ a) (hb : n ≤ b) : z <<< a = z <<< b := by
    rw [BitVec.shiftLeft_eq_zero ha, BitVec.shiftLeft_eq_zero hb]
  have right (z : BitVec n) (a b : Nat) (ha : n ≤ a) (hb : n ≤ b) : z >>> a = z >>> b := by
    rw [BitVec.ushiftRight_eq_zero ha, BitVec.ushiftRight_eq_zero hb]
  have arithmetic (z : BitVec n) (a b : Nat) (ha : n ≤ a) (hb : n ≤ b) :
      z.sshiftRight a = z.sshiftRight b := by
    apply BitVec.eq_of_toInt_eq
    rw [toInt_sshiftRight, toInt_sshiftRight, toInt_div_of_le z ha, toInt_div_of_le z hb]
  have hshl := UIntT.toBitVec_shlSecret c x shamt
  have hshr := UIntT.toBitVec_shrSecret c x shamt
  have hsignedShl := IntT.toBitVec_shlSecret c y shamt
  have hsignedShr := IntT.toBitVec_shrSecret c y shamt
  refine ⟨?_, ?_, ?_, ?_, fun hs => ⟨?_, ?_, ?_, ?_⟩, fun t ht => ?_, fun t ht => ?_, fun t ht => ?_,
    fun t ht => ?_⟩
  · rw [← Word.toNat_toBitVec, hshl, BitVec.toNat_shiftLeft, Word.toNat_toBitVec, Nat.shiftLeft_eq]
  · rw [← Word.toNat_toBitVec, hshr, BitVec.toNat_ushiftRight, Word.toNat_toBitVec,
      Nat.shiftRight_eq_div_pow]
  · rw [Word.toInt, hsignedShl, toInt_shiftLeft]
    rfl
  · rw [Word.toInt, hsignedShr, toInt_sshiftRight]
    rfl
  · rw [← Word.toNat_toBitVec, hshl, BitVec.shiftLeft_eq_zero hs, BitVec.toNat_zero]
  · rw [← Word.toNat_toBitVec, hshr, BitVec.ushiftRight_eq_zero hs, BitVec.toNat_zero]
  · rw [Word.toInt, hsignedShl, BitVec.shiftLeft_eq_zero hs, BitVec.toInt_zero]
  · rw [Word.toInt, hsignedShr, toInt_sshiftRight, toInt_div_of_le _ hs]
    rfl
  · obtain ⟨h0, heq⟩ := ht.shift_eq left (x.toBitVec c)
    refine ⟨_, checked_eq_ok h0 _, ?_⟩
    rw [← Word.toNat_toBitVec, ← Word.toNat_toBitVec, hshl, ← heq, Word.toBitVec_shiftLeft]
  · obtain ⟨h0, heq⟩ := ht.shift_eq right (x.toBitVec c)
    refine ⟨_, checked_eq_ok h0 _, ?_⟩
    rw [← Word.toNat_toBitVec, ← Word.toNat_toBitVec, hshr, ← heq, Word.toBitVec_shiftRight]
  · obtain ⟨h0, heq⟩ := ht.shift_eq left (y.toBitVec c)
    refine ⟨_, checked_eq_ok h0 _, ?_⟩
    rw [Word.toInt, Word.toInt, hsignedShl, ← heq, Word.toBitVec_shiftLeft]
  · obtain ⟨h0, heq⟩ := ht.shift_eq arithmetic (y.toBitVec c)
    refine ⟨_, checked_eq_ok h0 _, ?_⟩
    rw [Word.toInt, Word.toInt, hsignedShr, ← heq, IntT.toBitVec_arithmeticRight]

end EmpTool.Circuits
