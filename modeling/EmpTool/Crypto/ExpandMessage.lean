import EmpTool.Crypto.Sswu
import EmpTool.Library.Separation

namespace EmpTool.Crypto

open Separation

-- the message digest calls; `none` is a failure of one of a digest's init, updates or final
structure Evp where
  new : Bool
  digest : List (List UInt8) → Option (List UInt8)

section Xmd

variable (evp : Evp)

def zPad : List UInt8 := List.replicate 64 0

def dstPrime (dst : List UInt8) : List UInt8 := dst ++ [UInt8.ofNat dst.length]

def lIBStr (outLen : Nat) : List UInt8 := [UInt8.ofNat (outLen >>> 8), UInt8.ofNat (outLen &&& 0xff)]

def xorBytes (a b : List UInt8) : List UInt8 := List.zipWith (· ^^^ ·) a b

def xmdLoop (outLen : Nat) (dst b0 : List UInt8) :
    Nat → Nat → List UInt8 → List UInt8 → Except String (List UInt8)
  | 0, _, _, out => pure out
  | count + 1, i, prev, out => do
      let bi ← expectingSome (evp.digest [xorBytes b0 prev, [UInt8.ofNat i], dstPrime dst])
        "H2C XMD: EVP_Digest* (bi)"
      let off := (i - 1) * 32
      xmdLoop outLen dst b0 count (i + 1) bi (out ++ bi.take (min (outLen - off) 32))

def expandMessageXmdSha256 (outLen : Nat) (msg dst : List UInt8) :
    Except String (List UInt8) := do
  expecting (outLen ≤ 65535 ∧ dst.length ≤ 255) "H2C XMD len"
  let ell := (outLen + 32 - 1) / 32
  expecting (ell ≤ 255) "H2C XMD ell"
  expecting evp.new "H2C XMD: EVP_MD_CTX_new"
  let b0 ← expectingSome (evp.digest [zPad, msg, lIBStr outLen, [0], dstPrime dst])
    "H2C XMD: EVP_Digest* (b0)"
  let b1 ← expectingSome (evp.digest [b0, [1], dstPrime dst]) "H2C XMD: EVP_Digest* (b1)"
  xmdLoop evp outLen dst b0 (ell - 1) 2 b1 (b1.take (min outLen 32))

end Xmd

-- a library whose calls succeed and whose digest is that of the joined pieces
def Evp.ofHash (H : List UInt8 → List UInt8) : Evp := ⟨true, fun pieces => some (H pieces.flatten)⟩

section Tags

-- everything that is hashed for one tag ends in it and in its length
def tagged (dst : List UInt8) : Set (List UInt8) := {x | dst.length ≤ 255 ∧ dstPrime dst <:+ x}

theorem tagged_disjoint (dst dst' x : List UInt8) (h : x ∈ tagged dst) (h' : x ∈ tagged dst') :
    dst = dst' := by
  obtain ⟨hlen, hsuffix⟩ := h
  obtain ⟨hlen', hsuffix'⟩ := h'
  obtain ⟨r, rfl⟩ := hsuffix
  obtain ⟨r', hr⟩ := hsuffix'
  rw [dstPrime, dstPrime, ← List.append_assoc, ← List.append_assoc] at hr
  obtain ⟨hrest, hlast⟩ := List.append_inj' hr rfl
  have hbyte := congrArg UInt8.toNat (List.singleton_inj.mp hlast)
  rw [UInt8.toNat_ofNat_of_lt' (Nat.lt_succ_of_le hlen'),
    UInt8.toNat_ofNat_of_lt' (Nat.lt_succ_of_le hlen)] at hbyte
  exact (List.append_inj' hrest hbyte).2.symm

variable {outLen : Nat} {dst : List UInt8}

theorem readsOnly_digest (pieces : List (List UInt8)) (hdst : dst.length ≤ 255) (m : String) :
    ReadsOnly (tagged dst) fun H =>
      expectingSome ((Evp.ofHash H).digest (pieces ++ [dstPrime dst])) m := by
  have htag : (pieces ++ [dstPrime dst]).flatten ∈ tagged dst := by
    rw [List.flatten_append, List.flatten_singleton]
    exact ⟨hdst, List.suffix_append _ _⟩
  exact (readsOnly_query htag).map fun b => expectingSome (some b) m

theorem readsOnly_xmdLoop (hdst : dst.length ≤ 255) (b0 : List UInt8) (count i : Nat)
    (prev out : List UInt8) :
    ReadsOnly (tagged dst) fun H => xmdLoop (Evp.ofHash H) outLen dst b0 count i prev out := by
  induction count generalizing i prev out with
  | zero => exact readsOnly_const _ _
  | succ count ih =>
    exact (readsOnly_digest [xorBytes b0 prev, [UInt8.ofNat i]] hdst _).bind fun bi => ih _ _ _

theorem readsOnly_expandMessage (outLen : Nat) (msg dst : List UInt8) :
    ReadsOnly (tagged dst) fun H => expandMessageXmdSha256 (Evp.ofHash H) outLen msg dst := by
  by_cases hlen : outLen ≤ 65535 ∧ dst.length ≤ 255
  · obtain ⟨-, hdst⟩ := hlen
    refine (readsOnly_const _ _).bind fun _ => ?_
    refine (readsOnly_const _ _).bind fun _ => ?_
    refine (readsOnly_const _ _).bind fun _ => ?_
    refine (readsOnly_digest [zPad, msg, lIBStr outLen, [0]] hdst _).bind fun b0 => ?_
    refine (readsOnly_digest [b0, [1]] hdst _).bind fun b1 => ?_
    exact readsOnly_xmdLoop hdst b0 _ _ _ _
  · intro H H' _
    simp only [expandMessageXmdSha256, expecting, if_neg hlen]
    rfl

theorem lIBStr_inj {n n' : Nat} (hn : n ≤ 65535) (hn' : n' ≤ 65535) (h : lIBStr n = lIBStr n') :
    n = n' := by
  obtain ⟨hhigh, hlow⟩ := List.cons_eq_cons.mp h
  have hhigh := congrArg UInt8.toNat hhigh
  have hlow := congrArg UInt8.toNat (List.singleton_inj.mp hlow)
  have hmask (n : Nat) : n &&& 0xff = n % 2 ^ 8 := Nat.and_two_pow_sub_one_eq_mod n 8
  rw [hmask, hmask, UInt8.toNat_ofNat', UInt8.toNat_ofNat'] at hlow
  rw [Nat.shiftRight_eq_div_pow, Nat.shiftRight_eq_div_pow, UInt8.toNat_ofNat',
    UInt8.toNat_ofNat'] at hhigh
  omega

theorem xmd_input_inj {n n' : Nat} {msg msg' dst dst' : List UInt8} (hn : n ≤ 65535)
    (hn' : n' ≤ 65535) (hdst : dst.length ≤ 255) (hdst' : dst'.length ≤ 255)
    (h : zPad ++ msg ++ lIBStr n ++ [0] ++ dstPrime dst =
      zPad ++ msg' ++ lIBStr n' ++ [0] ++ dstPrime dst') :
    msg = msg' ∧ n = n' ∧ dst = dst' := by
  have hsuffix : dstPrime dst' <:+ zPad ++ msg ++ lIBStr n ++ [0] ++ dstPrime dst := by
    rw [h]
    exact List.suffix_append _ _
  have htag : dst = dst' := tagged_disjoint dst dst' _ ⟨hdst, List.suffix_append _ _⟩
    ⟨hdst', hsuffix⟩
  subst htag
  have hrest := List.append_cancel_right (List.append_cancel_right h)
  obtain ⟨hmsg, hlen⟩ := List.append_inj' hrest rfl
  exact ⟨List.append_cancel_left hmsg, lIBStr_inj hn hn' hlen, rfl⟩

end Tags

section Blocks

variable (H : List UInt8 → List UInt8)

def xmdFirst (outLen : Nat) (msg dst : List UInt8) : List UInt8 :=
  H (zPad ++ msg ++ lIBStr outLen ++ [0] ++ dstPrime dst)

def xmdBlock (b0 dst : List UInt8) : Nat → List UInt8
  | 0 => H (b0 ++ [1] ++ dstPrime dst)
  | i + 1 => H (xorBytes b0 (xmdBlock b0 dst i) ++ [UInt8.ofNat (i + 2)] ++ dstPrime dst)

def xmdBytes (b0 dst : List UInt8) (count : Nat) : List UInt8 :=
  (List.range count).flatMap (xmdBlock H b0 dst)

variable {H} {outLen : Nat} {msg dst b0 : List UInt8}

theorem xmdBytes_succ (count : Nat) :
    xmdBytes H b0 dst (count + 1) = xmdBytes H b0 dst count ++ xmdBlock H b0 dst count := by
  rw [xmdBytes, xmdBytes, List.range_succ, List.flatMap_append, List.flatMap_singleton]

theorem length_xmdBlock (hH : ∀ x, (H x).length = 32) (i : Nat) :
    (xmdBlock H b0 dst i).length = 32 := by
  cases i with
  | zero => exact hH _
  | succ i => exact hH _

theorem length_xmdBytes (hH : ∀ x, (H x).length = 32) (count : Nat) :
    (xmdBytes H b0 dst count).length = count * 32 := by
  induction count with
  | zero => rfl
  | succ count ih =>
    rw [xmdBytes_succ, List.length_append, ih, length_xmdBlock hH, Nat.succ_mul]

theorem digest_three (a b c : List UInt8) (m : String) :
    expectingSome ((Evp.ofHash H).digest [a, b, c]) m = .ok (H (a ++ b ++ c)) := by
  simp [Evp.ofHash]

theorem xmdLoop_eq (hH : ∀ x, (H x).length = 32) (count k : Nat) :
    xmdLoop (Evp.ofHash H) outLen dst b0 count (k + 2) (xmdBlock H b0 dst k)
        ((xmdBytes H b0 dst (k + 1)).take outLen) =
      .ok ((xmdBytes H b0 dst (k + 1 + count)).take outLen) := by
  induction count generalizing k with
  | zero => rfl
  | succ count ih =>
    have hblock : H (xorBytes b0 (xmdBlock H b0 dst k) ++ [UInt8.ofNat (k + 2)] ++ dstPrime dst) =
        xmdBlock H b0 dst (k + 1) := rfl
    have hoff : k + 2 - 1 = k + 1 := rfl
    have hnext : (xmdBytes H b0 dst (k + 1)).take outLen ++
        (xmdBlock H b0 dst (k + 1)).take (min (outLen - (k + 1) * 32) 32) =
          (xmdBytes H b0 dst (k + 1 + 1)).take outLen := by
      have hfull : (xmdBlock H b0 dst (k + 1)).length = 32 := length_xmdBlock hH _
      rw [xmdBytes_succ (k + 1), List.take_append, length_xmdBytes hH, ← hfull, ← List.take_take,
        List.take_length]
    have hcount : k + 1 + (count + 1) = k + 1 + 1 + count := by omega
    rw [xmdLoop, digest_three, hblock, ok_bind, hoff]
    simp only [hnext]
    rw [hcount]
    exact ih (k + 1)

theorem expandMessage_eq (hH : ∀ x, (H x).length = 32) (hout : outLen ≤ 255 * 32)
    (hdst : dst.length ≤ 255) :
    expandMessageXmdSha256 (Evp.ofHash H) outLen msg dst =
      .ok ((xmdBytes H (xmdFirst H outLen msg dst) dst ((outLen + 31) / 32)).take outLen) := by
  have hell : (outLen + 32 - 1) / 32 ≤ 255 := by omega
  have hfirst : expectingSome ((Evp.ofHash H).digest [zPad, msg, lIBStr outLen, [0], dstPrime dst])
      "H2C XMD: EVP_Digest* (b0)" = .ok (xmdFirst H outLen msg dst) := by
    simp [Evp.ofHash, xmdFirst]
  have hone : (xmdBytes H (xmdFirst H outLen msg dst) dst 1).take outLen =
      (xmdBlock H (xmdFirst H outLen msg dst) dst 0).take (min outLen 32) := by
    have hfull : (xmdBlock H (xmdFirst H outLen msg dst) dst 0).length = 32 := length_xmdBlock hH _
    rw [xmdBytes_succ, ← hfull, ← List.take_take, List.take_length]
    rfl
  have hlen : outLen ≤ 65535 ∧ dst.length ≤ 255 := ⟨by omega, hdst⟩
  have hnew : (Evp.ofHash H).new = true := rfl
  unfold expandMessageXmdSha256
  simp only [expecting, if_pos hlen, if_pos hell, if_pos hnew, ok_bind, hfirst, digest_three]
  change xmdLoop _ _ _ _ _ (0 + 2) (xmdBlock H (xmdFirst H outLen msg dst) dst 0)
    ((xmdBlock H (xmdFirst H outLen msg dst) dst 0).take (min outLen 32)) = _
  rw [← hone, xmdLoop_eq hH]
  by_cases hnone : outLen = 0
  · rw [hnone, List.take_zero, List.take_zero]
  · have hcount : 0 + 1 + ((outLen + 32 - 1) / 32 - 1) = (outLen + 31) / 32 := by omega
    rw [hcount]

theorem expandMessage_length (hH : ∀ x, (H x).length = 32) (hout : outLen ≤ 255 * 32)
    (hdst : dst.length ≤ 255) {bytes : List UInt8}
    (h : expandMessageXmdSha256 (Evp.ofHash H) outLen msg dst = .ok bytes) :
    bytes.length = outLen := by
  rw [expandMessage_eq hH hout hdst] at h
  rw [← Except.ok.inj h, List.length_take, length_xmdBytes hH]
  omega

end Blocks

end EmpTool.Crypto
