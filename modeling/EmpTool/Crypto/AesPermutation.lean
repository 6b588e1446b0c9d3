import EmpTool.Circuits.Crypto.AesSbox
import EmpTool.Crypto.ParaEnc
import EmpTool.Crypto.Prg

namespace EmpTool.Circuits.Fips197

open BinaryPoly Circuits.Crypto State EmpTool.Crypto.AesNi

theorem mul_commutes (a b : Byte) : mul a b = mul b a := by
  apply toPoly_injective
  rw [toPoly_mul, toPoly_mul, mul_comm]

theorem mul_zero_ne_one (b : Byte) : mul b 0 ≠ 1 := by
  intro h
  have hpoly := toPoly_mul b 0
  rw [h, show toPoly (0 : Byte) = 0 by simp [toPoly], mul_zero, Polynomial.zero_modByMonic] at hpoly
  have hzero : toPoly (0 : Byte) = 0 := by simp [toPoly]
  exact absurd (toPoly_injective (hpoly.trans hzero.symm)) (by decide)

theorem sbox_inverts {b : Byte} (hb : b ≠ 0) : mul b (affineInv (sbox b)) = 1 := by
  rw [← clearSbox_eq]
  exact clearSbox_inverts b hb

theorem affineInv_sbox_zero : affineInv (sbox 0) = 0 := by
  rw [← clearSbox_eq]
  decide +kernel

theorem sbox_injective : Function.Injective sbox := by
  intro a b h
  by_cases ha : a = 0
  · by_cases hb : b = 0
    · rw [ha, hb]
    · have hone := sbox_inverts hb
      rw [← h, ha, affineInv_sbox_zero] at hone
      exact absurd hone (mul_zero_ne_one b)
  · have hone := sbox_inverts ha
    by_cases hb : b = 0
    · rw [h, hb, affineInv_sbox_zero] at hone
      exact absurd hone (mul_zero_ne_one a)
    · have hone' := sbox_inverts hb
      rw [mul_commutes, h] at hone
      rw [mul_commutes] at hone'
      exact eq_of_mul_eq_one hone hone'

theorem subBytes_injective : Function.Injective subBytes := by
  intro s s' h
  apply state_ext
  intro r c
  have hentry : (subBytes s).entry r c = (subBytes s').entry r c := by rw [h]
  rw [subBytes, subBytes, entry_build, entry_build] at hentry
  exact sbox_injective hentry

theorem shiftRows_injective : Function.Injective shiftRows := by
  intro s s' h
  apply state_ext
  intro r c
  have hentry : (shiftRows s).entry r (c - r) = (shiftRows s').entry r (c - r) := by rw [h]
  rw [shiftRows, shiftRows, entry_build, entry_build, sub_add_cancel] at hentry
  exact hentry

def mixColumn (next : Fin 4 → Fin 4) (v : Fin 4 → Byte) (r : Fin 4) : Byte :=
  xtime (v r) ^^^ (xtime (v (next r)) ^^^ v (next r)) ^^^ v (next (next r)) ^^^
    v (next (next (next r)))

theorem entry_mixColumns (s : State) (r c : Fin 4) :
    (mixColumns s).entry r c = mixColumn (· + 1) (fun r => s.entry r c) r := by
  have htwo : r + 1 + 1 = r + 2 := by rw [add_assoc]; rfl
  have hthree : r + 2 + 1 = r + 3 := by rw [add_assoc]; rfl
  rw [mixColumns, entry_build, two_mul, three_mul, mixColumn, htwo, hthree]

theorem xor_left_comm (a b c : Byte) : a ^^^ (b ^^^ c) = b ^^^ (a ^^^ c) := by
  rw [← BitVec.xor_assoc, BitVec.xor_comm a b, BitVec.xor_assoc]

theorem xor_self_left (a b : Byte) : a ^^^ (a ^^^ b) = b := by
  rw [← BitVec.xor_assoc, BitVec.xor_self, BitVec.zero_xor]

theorem column_sum (a b c d a₁ b₁ c₁ d₁ a₂ b₂ c₂ : Byte) :
    a₂ ^^^ (b₂ ^^^ b₁) ^^^ c₁ ^^^ d₁ ^^^
        (b₂ ^^^ (c₂ ^^^ c₁) ^^^ d₁ ^^^ a₁ ^^^ (b₁ ^^^ (c₁ ^^^ c) ^^^ d ^^^ a)) ^^^
        (c₁ ^^^ (d₁ ^^^ d) ^^^ a ^^^ b) ^^^ (d₁ ^^^ (a₁ ^^^ a) ^^^ b ^^^ c) = a₂ ^^^ a ^^^ c₂ := by
  simp only [BitVec.xor_assoc, BitVec.xor_comm, xor_left_comm, xor_self_left]

section Columns

variable {next : Fin 4 → Fin 4} (hnext : ∀ r, next (next (next (next r))) = r)

include hnext

theorem mixColumn_twice (v : Fin 4 → Byte) (r : Fin 4) : mixColumn next (mixColumn next v) r =
    xtime (xtime (v r)) ^^^ v r ^^^ xtime (xtime (v (next (next r)))) := by
  simp only [mixColumn, xtime_xor, hnext]
  exact column_sum ..

theorem mixColumn_fourth (v : Fin 4 → Byte) :
    mixColumn next (mixColumn next (mixColumn next (mixColumn next v))) = v := by
  have hsum (a a₂ a₄ c₂ c₄ : Byte) :
      a₄ ^^^ a₂ ^^^ c₄ ^^^ (a₂ ^^^ a ^^^ c₂) ^^^ (c₄ ^^^ c₂ ^^^ a₄) = a := by
    simp only [BitVec.xor_assoc, BitVec.xor_comm, xor_left_comm, xor_self_left, BitVec.xor_self,
      BitVec.xor_zero]
  funext r
  simp only [mixColumn_twice hnext, xtime_xor, hnext]
  exact hsum ..

end Columns

theorem rows_rotate (r : Fin 4) : r + 1 + 1 + 1 + 1 = r := by
  revert r
  decide

theorem mixColumns_injective : Function.Injective mixColumns := by
  intro s s' h
  apply state_ext
  intro r c
  have hcolumn : mixColumn (· + 1) (fun r => s.entry r c) =
      mixColumn (· + 1) (fun r => s'.entry r c) := by
    funext r
    rw [← entry_mixColumns, ← entry_mixColumns, h]
  have hfour := congrFun (congrArg
    (fun v => mixColumn (· + 1) (mixColumn (· + 1) (mixColumn (· + 1) v))) hcolumn) r
  rw [mixColumn_fourth rows_rotate, mixColumn_fourth rows_rotate] at hfour
  exact hfour

theorem addRoundKey_injective (w : List Quad) (round : Nat) :
    Function.Injective (addRoundKey w round) := by
  intro s s' h
  apply state_ext
  intro r c
  have hentry : (addRoundKey w round s).entry r c = (addRoundKey w round s').entry r c := by rw [h]
  rw [addRoundKey, addRoundKey, entry_build, entry_build] at hentry
  exact (BitVec.xor_left_inj _).mp hentry

theorem rounds_injective (w : List Quad) (rounds : List Nat) :
    Function.Injective fun s => rounds.foldl
      (fun s i => addRoundKey w (i + 1) (mixColumns (shiftRows (subBytes s)))) s := by
  induction rounds with
  | nil => exact Function.injective_id
  | cons i rounds ih =>
    intro s s' h
    exact subBytes_injective (shiftRows_injective (mixColumns_injective
      (addRoundKey_injective w (i + 1) (ih h))))

theorem cipher_injective (w : List Quad) : Function.Injective (cipher w) := by
  intro s s' h
  exact addRoundKey_injective w 0 (rounds_injective w (List.range 9)
    (subBytes_injective (shiftRows_injective (addRoundKey_injective w 10 h))))

end EmpTool.Circuits.Fips197

namespace EmpTool.Crypto

open AesNi Circuits.Fips197

theorem stateOf_injective : Function.Injective stateOf := by
  intro b b' h
  rw [← blockOfState_stateOf b, h, blockOfState_stateOf]

theorem blockOfState_injective : Function.Injective blockOfState := by
  intro s s' h
  rw [← stateOf_blockOfState s, h, stateOf_blockOfState]

theorem encrypt_injective (kk : AesKey) : Function.Injective (encrypt kk) := fun _ _ h =>
  stateOf_injective (cipher_injective (roundWords kk) (blockOfState_injective h))

def aesCipher : Cipher AesKey where
  toAes := aesNi
  injective := encrypt_injective

end EmpTool.Crypto
