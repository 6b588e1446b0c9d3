import EmpTool.Circuits.Carry

namespace EmpTool.Circuits.Kernel

open Arrays Binary
open EmpTool.Ir (GateOps)

variable {Wire ν : Type} (c : PlainContext Wire)

theorem value_divOverflow (b : Nat → Wire) {n i : Nat} (hi : i ≤ n) :
    c.value (divOverflow c.toGateOps b n i) = decide (2 ^ (n - i) ≤ c.num n b) := by
  induction i with
  | zero =>
    have hlt := num_lt c n b
    rw [divOverflow, c.value_publicBit, Nat.sub_zero, decide_eq_false (Nat.not_le.mpr hlt)]
  | succ i ih =>
    have hnext : n - (i + 1) + 1 = n - i := by omega
    rw [divOverflow, value_orGate, ih (by omega), ← testBit_num c (by omega : n - (i + 1) < n),
      Bool.eq_iff_iff, Bool.or_eq_true, decide_eq_true_iff, decide_eq_true_iff,
      two_pow_le_iff _ (n - (i + 1)), hnext]

theorem ifThenElse_writes [DecidableEq ν] (dest tsrc fsrc : Ptr ν) {n : Nat} (cond : Wire)
    (ht : dest.Trails n tsrc) (hf : dest.Trails n fsrc) (m : Mem ν Wire) :
    Writes c dest n (if c.value cond then c.num n (m.get tsrc) else c.num n (m.get fsrc)) m
      (ifThenElse c.toGateOps dest tsrc fsrc n cond m) := by
  have hloop := sweep_eq (fun t f (_ : Unit) =>
    (c.xorGate (c.andGate cond (c.xorGate t f)) f, ())) dest ht hf (Nat.le_refl n) () m
  rw [ifThenElse, hloop]
  have hnum : (if c.value cond then c.num n (m.get tsrc) else c.num n (m.get fsrc)) =
      c.num n (output (fun t f (_ : Unit) => (c.xorGate (c.andGate cond (c.xorGate t f)) f, ()))
        (m.get tsrc) (m.get fsrc) ()) := by
    cases hc : c.value cond <;> refine num_congr c fun i _ => ?_ <;> simp [output, hc]
  rw [hnum]
  exact writes_store c dest n _ m

def window (n i : Nat) (w : Nat → Wire) : Nat := c.num (n - i) fun j => w (i + j)

theorem window_step {n i : Nat} (hi : i < n) (w : Nat → Wire) :
    window c n i w = (c.value (w i)).toNat + 2 * window c n (i + 1) w := by
  have hshift (j : Nat) : i + (j + 1) = i + 1 + j := by omega
  have hlen : n - i = n - (i + 1) + 1 := by omega
  rw [window, window, PlainContext.num, PlainContext.num, hlen, natOf_succ]
  congr 2
  exact natOf_congr fun j _ => by rw [hshift]

theorem window_eq_div {n i : Nat} (hi : i ≤ n) (w : Nat → Wire) :
    window c n i w = c.num n w / 2 ^ i :=
  (natOf_div hi fun j => c.value (w j)).symm

structure Divided (a b : Nat → Wire) (n i : Nat) (m : Mem Local Wire) : Prop where
  divisor : m .op2 = b
  untouched : ∀ j < i, m .rem j = a j
  product : c.num n a / 2 ^ i = window c n i (m .quot) * c.num n b + window c n i (m .rem)
  remainder : 0 < c.num n b → window c n i (m .rem) < c.num n b
  saturated : c.num n b = 0 → window c n i (m .quot) = 2 ^ (n - i) - 1

theorem borrow_or_overflow {R B P : Nat} (hR : R < P) :
    (decide (R < B % P) || decide (P ≤ B)) = decide (R < B) := by
  by_cases hP : P ≤ B
  · rw [decide_eq_true hP, Bool.or_true, decide_eq_true (Nat.lt_of_lt_of_le hR hP)]
  · rw [decide_eq_false hP, Bool.or_false, Nat.mod_eq_of_lt (Nat.not_le.mp hP)]

theorem difference_mod {R B P : Nat} (hR : R < P) (hB : ¬R < B) : (R + P - B % P) % P = R - B := by
  have hsub : R + P - B = R - B + P := by omega
  rw [Nat.mod_eq_of_lt (by omega : B < P), hsub, Nat.add_mod_right, Nat.mod_eq_of_lt (by omega)]

variable [Inhabited Wire]

structure Restored (B R n i : Nat) (m m' : Mem Local Wire) : Prop where
  divisor : m' .op2 = m .op2
  below : ∀ j < i, m' .rem j = m .rem j
  window : window c n i (m' .rem) = if R < B then R else R - B
  bit : c.value (m' .quot i) = decide (B ≤ R)
  quotient : ∀ j, j ≠ i → m' .quot j = m .quot j

theorem divStep_restored {n i : Nat} (hi : i < n) (m : Mem Local Wire) :
    Restored c (c.num n (m .op2)) (window c n i (m .rem)) n i m (divStep c.toGateOps n i m) := by
  let B := c.num n (m .op2)
  let R := window c n i (m .rem)
  let P := 2 ^ (n - i)
  let r := subFull c.toGateOps ⟨.tmp, 0⟩ true ⟨.rem, i⟩ ⟨.op2, 0⟩ none (n - i) m
  let b := orGate c.toGateOps (r.2.getD default) (divOverflow c.toGateOps (m .op2) n i)
  let m2 := ifThenElse c.toGateOps ⟨.rem, i⟩ ⟨.rem, i⟩ ⟨.tmp, 0⟩ (n - i) b r.1
  have hstep : divStep c.toGateOps n i m = m2.set ⟨.quot, 0⟩ i (c.notGate b) := rfl
  have hR : R < P := num_lt c (n - i) _
  have hlow : c.num (n - i) (m.get ⟨.op2, 0⟩) = B % P := by
    rw [num_zero_offset]
    exact (natOf_mod (Nat.sub_le n i) _).symm
  obtain ⟨hw, hborrow⟩ := subFull_writes c ⟨.tmp, 0⟩ ⟨.rem, i⟩ ⟨.op2, 0⟩ true none
    (Ptr.trails_of_ne (n := n - i) (by decide) 0 i) (Ptr.trails_of_ne (by decide) 0 0) m
  have hb : c.value b = decide (R < B) := by
    obtain ⟨w, hw', hval⟩ := Option.map_eq_some_iff.mp (hborrow (by omega))
    rw [value_orGate, hw', Option.getD_some, hval, hlow, value_divOverflow c _ hi.le]
    exact borrow_or_overflow hR
  have hm2 := ifThenElse_writes c ⟨.rem, i⟩ ⟨.rem, i⟩ ⟨.tmp, 0⟩ b (Ptr.trails_refl (n - i) _)
    (Ptr.trails_of_ne (by decide) i 0) r.1
  have keep (a : Local) (ht : a ≠ .tmp) (hr : a ≠ .rem) : m2 a = m a :=
    (hm2.get_of_ne hr).trans (hw.get_of_ne ht)
  rw [hstep]
  refine ⟨?_, ?_, ?_, ?_, ?_⟩
  · rw [Mem.set_of_ne (by decide), keep _ (by decide) (by decide)]
  · intro j hj
    rw [Mem.set_of_ne (by decide)]
    have hbelow : m2 .rem j = r.1 .rem j := hm2.frame _ _ fun h => absurd h.2.1 (Nat.not_le.mpr hj)
    rw [hbelow, hw.get_of_ne (by decide)]
  · rw [Mem.set_of_ne (by decide)]
    have hrem : c.num (n - i) (r.1.get ⟨.rem, i⟩) = R := by
      have : r.1 .rem = m .rem := hw.get_of_ne (by decide)
      show window c n i (r.1 .rem) = R
      rw [this]
    have hnum : window c n i (m2 .rem) = _ := hm2.num
    rw [hnum, hb, hrem, hw.num, hlow]
    by_cases hRB : R < B
    · rw [decide_eq_true hRB, if_pos rfl, if_pos hRB]
    · rw [decide_eq_false hRB, if_neg Bool.false_ne_true, if_neg hRB]
      exact difference_mod hR hRB
  · rw [Mem.set_zero, Function.update_self, c.value_notGate, hb, ← decide_not]
    exact decide_eq_decide.mpr Nat.not_lt
  · intro j hj
    rw [Mem.set_zero, Function.update_of_ne hj, keep _ (by decide) (by decide)]

theorem Divided.step {c : PlainContext Wire} {a b : Nat → Wire} {n i : Nat} (hi : i < n)
    {m : Mem Local Wire} (h : Divided c a b n (i + 1) m) :
    Divided c a b n i (divStep c.toGateOps n i m) := by
  obtain ⟨hdiv, hbelow, hwindow, hbit, hquot⟩ := divStep_restored c hi m
  rw [h.divisor] at hwindow hbit
  have hR : window c n i (m .rem) = (c.value (a i)).toNat + 2 * window c n (i + 1) (m .rem) := by
    rw [← h.untouched i (Nat.lt_succ_self i)]
    exact window_step c hi _
  have hA : c.num n a / 2 ^ i = (c.value (a i)).toNat + 2 * (c.num n a / 2 ^ (i + 1)) := by
    rw [← window_eq_div c hi.le, ← window_eq_div c hi, window_step c hi]
  have hQ : window c n i (divStep c.toGateOps n i m .quot) =
      (c.value (divStep c.toGateOps n i m .quot i)).toNat + 2 * window c n (i + 1) (m .quot) := by
    rw [window_step c hi]
    congr 2
    exact num_congr c fun j _ => by rw [hquot _ (by omega)]
  have hdigit := Bool.toNat_le (c.value (a i))
  refine ⟨hdiv.trans h.divisor, fun j hj => ?_, ?_, fun hB => ?_, fun hB => ?_⟩
  · rw [hbelow j hj, h.untouched j (by omega)]
  · rw [hQ, hbit, hwindow, hA, h.product]
    by_cases hRB : window c n i (m .rem) < c.num n b
    · rw [if_pos hRB, decide_eq_false (Nat.not_le.mpr hRB), hR, Bool.toNat_false, Nat.zero_add,
        Nat.mul_add, Nat.mul_assoc]
      omega
    · rw [if_neg hRB, decide_eq_true (Nat.not_lt.mp hRB), Bool.toNat_true, Nat.add_mul,
        Nat.one_mul, Nat.mul_assoc, Nat.mul_add]
      omega
  · have := h.remainder hB
    rw [hwindow]
    split <;> omega
  · have hpow : 2 ^ (n - i) = 2 * 2 ^ (n - (i + 1)) := by
      rw [← Nat.pow_succ']
      congr 1
      omega
    have hone := Nat.two_pow_pos (n - (i + 1))
    rw [hQ, hbit, hB, h.saturated hB, decide_eq_true (Nat.zero_le _), hpow, Bool.toNat_true]
    omega

theorem divSteps_divided (a b : Nat → Wire) (n : Nat) :
    Divided c a b n 0 (divSteps c.toGateOps a b n) := by
  have downTo (i : Nat) (hi : i ≤ n) (m : Mem Local Wire) (h : Divided c a b n i m) :
      Divided c a b n 0 (divLoop c.toGateOps n i m) := by
    induction i generalizing m with
    | zero => exact h
    | succ i ih => exact ih (by omega) _ (h.step hi)
  refine downTo n (Nat.le_refl n) _ ⟨Mem.store_of_ne (by decide), fun j hj => ?_, ?_, fun hB => ?_,
    fun _ => ?_⟩
  · exact if_pos ⟨rfl, Nat.zero_le j, by omega⟩
  · simp [window, PlainContext.num, Nat.div_eq_of_lt (natOf_lt n _)]
  · simpa [window, PlainContext.num] using hB
  · simp [window, PlainContext.num]

def quotient (n a b : Nat) : Nat := if b = 0 then 2 ^ n - 1 else a / b

theorem divSteps_num (a b : Nat → Wire) (n : Nat) :
    let l := divSteps c.toGateOps a b n
    c.num n (l .quot) = quotient n (c.num n a) (c.num n b) ∧
      c.num n (l .rem) = c.num n a % c.num n b := by
  intro l
  have h := divSteps_divided c a b n
  have whole (w : Nat → Wire) : window c n 0 w = c.num n w := by simp [window]
  have hproduct := h.product
  have hremainder := h.remainder
  have hsaturated := h.saturated
  simp only [whole, Nat.pow_zero, Nat.div_one, Nat.sub_zero] at hproduct hremainder hsaturated
  by_cases hB : c.num n b = 0
  · rw [quotient, if_pos hB]
    refine ⟨hsaturated hB, ?_⟩
    rw [hB, Nat.mul_zero, Nat.zero_add] at hproduct
    rw [hB, Nat.mod_zero, hproduct]
  · rw [quotient, if_neg hB]
    have hpos := Nat.pos_of_ne_zero hB
    have hlt := hremainder hpos
    rw [hproduct, Nat.add_comm, Nat.add_mul_mod_self_right, Nat.mod_eq_of_lt hlt,
      Nat.add_mul_div_right _ _ hpos, Nat.div_eq_of_lt hlt, Nat.zero_add]
    exact ⟨rfl, rfl⟩

variable [DecidableEq ν]

theorem divFull_quotient (dest op1 op2 : Ptr ν) (n : Nat) (m : Mem ν Wire) :
    Writes c dest n (quotient n (c.num n (m.get op1)) (c.num n (m.get op2))) m
      (divFull c.toGateOps (some dest) none op1 op2 n m) := by
  rw [← (divSteps_num c (m.get op1) (m.get op2) n).1]
  exact writes_store c dest n _ m

theorem divFull_remainder (dest op1 op2 : Ptr ν) (n : Nat) (m : Mem ν Wire) :
    Writes c dest n (c.num n (m.get op1) % c.num n (m.get op2)) m
      (divFull c.toGateOps none (some dest) op1 op2 n m) := by
  rw [← (divSteps_num c (m.get op1) (m.get op2) n).2]
  exact writes_store c dest n _ m

theorem divFull_both {vquot vrem : Ptr ν} (op1 op2 : Ptr ν) {n : Nat} (m : Mem ν Wire)
    (hapart : vquot.Apart n vrem) :
    let m' := divFull c.toGateOps (some vquot) (some vrem) op1 op2 n m
    c.num n (m'.get vquot) = quotient n (c.num n (m.get op1)) (c.num n (m.get op2)) ∧
      c.num n (m'.get vrem) = c.num n (m.get op1) % c.num n (m.get op2) := by
  intro m'
  let l := divSteps c.toGateOps (m.get op1) (m.get op2) n
  obtain ⟨hquot, hrem⟩ := divSteps_num c (m.get op1) (m.get op2) n
  constructor
  · rw [← hquot]
    exact (writes_store c vquot n (l .quot) _).num
  · rw [← hrem, ← (writes_store c vrem n (l .rem) m).num]
    refine num_congr c fun i hi => congrArg c.value (if_neg fun h => ?_)
    have := hapart h.1.symm
    omega

end EmpTool.Circuits.Kernel
