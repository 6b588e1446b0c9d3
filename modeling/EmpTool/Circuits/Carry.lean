import EmpTool.Circuits.Kernels
import Mathlib.Data.Nat.ModEq

namespace EmpTool.Circuits.Kernel

open Arrays Binary
open EmpTool.Ir (GateOps)

variable {Wire ν : Type} (c : PlainContext Wire)

@[simp] theorem value_orGate (a b : Wire) :
    c.value (orGate c.toGateOps a b) = (c.value a || c.value b) := by
  simp only [orGate, c.value_xorGate, c.value_andGate]
  cases c.value a <;> cases c.value b <;> rfl

@[simp] theorem value_mux (sel t f : Wire) :
    c.value (mux c.toGateOps sel t f) = if c.value sel then c.value t else c.value f := by
  simp only [mux, c.value_xorGate, c.value_andGate]
  cases c.value sel <;> cases c.value t <;> cases c.value f <;> rfl

theorem num_lt (n : Nat) (w : Nat → Wire) : c.num n w < 2 ^ n := natOf_lt n _

theorem num_congr {n : Nat} {v w : Nat → Wire} (h : ∀ i < n, c.value (v i) = c.value (w i)) :
    c.num n v = c.num n w := natOf_congr h

theorem num_succ (n : Nat) (w : Nat → Wire) :
    c.num (n + 1) w = c.num n w + 2 ^ n * (c.value (w n)).toNat := natOf_succ' n _

theorem testBit_num {i n : Nat} (hi : i < n) (w : Nat → Wire) :
    (c.num n w).testBit i = c.value (w i) := by
  rw [PlainContext.num, testBit_natOf, decide_eq_true hi, Bool.true_and]

theorem num_add (m n : Nat) (w : Nat → Wire) :
    c.num (m + n) w = c.num m w + 2 ^ m * c.num n fun i => w (m + i) := natOf_add m n _

theorem num_split {i n : Nat} (h : i ≤ n) (w : Nat → Wire) :
    c.num n w = c.num i w + 2 ^ i * c.num (n - i) fun j => w (i + j) := by
  rw [← num_add, Nat.add_sub_cancel' h]

theorem num_and (n : Nat) (a : Nat → Wire) (x : Wire) :
    c.num n (fun k => c.andGate (a k) x) = c.num n a * (c.value x).toNat := by
  simp only [PlainContext.num, c.value_andGate]
  cases c.value x <;> simp [natOf_false]

section Chains

variable (a b : Nat → Wire) (s : Wire)

theorem value_addStep (x y carry : Wire) :
    (c.value (addStep c.toGateOps x y carry).1).toNat +
        2 * (c.value (addStep c.toGateOps x y carry).2).toNat =
      (c.value x).toNat + (c.value y).toNat + (c.value carry).toNat := by
  simp only [addStep, c.value_xorGate, c.value_andGate]
  cases c.value x <;> cases c.value y <;> cases c.value carry <;> rfl

theorem value_subStep (x y borrow : Wire) :
    (c.value (subStep c.toGateOps x y borrow).1).toNat + (c.value y).toNat +
        (c.value borrow).toNat =
      (c.value x).toNat + 2 * (c.value (subStep c.toGateOps x y borrow).2).toNat := by
  simp only [subStep, c.value_xorGate, c.value_andGate]
  cases c.value x <;> cases c.value y <;> cases c.value borrow <;> rfl

theorem num_addStep (n : Nat) :
    c.num n (output (addStep c.toGateOps) a b s) +
        2 ^ n * (c.value (carry (addStep c.toGateOps) a b s n)).toNat =
      c.num n a + c.num n b + (c.value s).toNat := by
  induction n with
  | zero => simp [PlainContext.num, carry]
  | succ n ih =>
    have hbit := value_addStep c (a n) (b n) (carry (addStep c.toGateOps) a b s n)
    have hscaled := congrArg (2 ^ n * ·) hbit
    simp only [Nat.mul_add, ← Nat.mul_assoc] at hscaled
    rw [num_succ, num_succ, num_succ, Nat.pow_succ, carry, output]
    omega

theorem num_subStep (n : Nat) :
    c.num n (output (subStep c.toGateOps) a b s) + c.num n b + (c.value s).toNat =
      c.num n a + 2 ^ n * (c.value (carry (subStep c.toGateOps) a b s n)).toNat := by
  induction n with
  | zero => simp [PlainContext.num, carry]
  | succ n ih =>
    have hbit := value_subStep c (a n) (b n) (carry (subStep c.toGateOps) a b s n)
    have hscaled := congrArg (2 ^ n * ·) hbit
    simp only [Nat.mul_add, ← Nat.mul_assoc] at hscaled
    rw [num_succ, num_succ, num_succ, Nat.pow_succ, carry, output]
    omega

end Chains

structure Writes (dest : Ptr ν) (n x : Nat) (m m' : Mem ν Wire) : Prop where
  num : c.num n (m'.get dest) = x
  frame : ∀ a i, ¬(a = dest.array ∧ dest.offset ≤ i ∧ i < dest.offset + n) → m' a i = m a i

theorem num_zero_offset (n : Nat) (m : Mem ν Wire) (a : ν) :
    c.num n (m.get ⟨a, 0⟩) = c.num n (m a) := by
  simp only [PlainContext.num, Mem.get, Nat.zero_add]

theorem Writes.get_of_ne {c : PlainContext Wire} {dest : Ptr ν} {n x : Nat} {m m' : Mem ν Wire}
    (h : Writes c dest n x m m') {a : ν} (ha : a ≠ dest.array) : m' a = m a := by
  funext i
  exact h.frame a i fun hx => ha hx.1

variable [DecidableEq ν]

theorem writes_store (dest : Ptr ν) (n : Nat) (f : Nat → Wire) (m : Mem ν Wire) :
    Writes c dest n (c.num n f) m (m.store dest n f) where
  num := num_congr c fun _ hi => by rw [Mem.get_store hi]
  frame _ _ hout := if_neg hout

theorem carryChain_eq {step : Wire → Wire → Wire → Wire × Wire} {last : Wire → Wire → Wire → Wire}
    (hlast : ∀ x y s, c.value (last x y s) = c.value (step x y s).1) {dest op1 op2 : Ptr ν}
    (out : Bool) (cin : Option Wire) {n : Nat} (h1 : dest.Trails n op1) (h2 : dest.Trails n op2)
    (m : Mem ν Wire) :
    let s := cin.getD (c.publicBit false)
    ∃ f, (∀ i < n, c.value (f i) = c.value (output step (m.get op1) (m.get op2) s i)) ∧
      (carryChain c.toGateOps step last dest out op1 op2 cin n m).1 = m.store dest n f ∧
      (0 < n → (carryChain c.toGateOps step last dest out op1 op2 cin n m).2 =
        if out then some (carry step (m.get op1) (m.get op2) s n) else none) := by
  cases n with
  | zero => exact ⟨fun _ => cin.getD (c.publicBit false), nofun, (Mem.store_zero m dest _).symm, nofun⟩
  | succ n =>
    cases out with
    | true =>
      refine ⟨_, fun _ _ => rfl, ?_, fun _ => ?_⟩
      · simp only [carryChain, if_true, sweep_eq step dest h1 h2 (Nat.le_refl _)]
      · simp only [carryChain, if_true, sweep_eq step dest h1 h2 (Nat.le_refl _)]
    | false =>
      let s := cin.getD (c.publicBit false)
      let o := output step (m.get op1) (m.get op2) s
      let final := last (m.get op1 n) (m.get op2 n) (carry step (m.get op1) (m.get op2) s n)
      refine ⟨Function.update o n final, fun i _ => ?_, ?_, fun _ => rfl⟩
      · by_cases hi : i = n
        · rw [hi, Function.update_self]
          exact hlast _ _ _
        · rw [Function.update_of_ne hi]
      · rw [Mem.store_succ, Function.update_self]
        simp only [carryChain, Bool.false_eq_true, if_false,
          sweep_eq step dest h1 h2 (Nat.le_succ n)]
        rw [Mem.get_store_of_trails h1 (Nat.le_refl n) (Nat.lt_succ_self n),
          Mem.get_store_of_trails h2 (Nat.le_refl n) (Nat.lt_succ_self n)]
        congr 1
        exact Mem.store_congr fun i hi => (Function.update_of_ne (by omega) final o).symm

theorem value_addLast (x y carry : Wire) :
    c.value (addLast c.toGateOps x y carry) = c.value (addStep c.toGateOps x y carry).1 := by
  simp [addLast, addStep, Bool.xor_comm]

theorem value_subLast (x y borrow : Wire) :
    c.value (subLast c.toGateOps x y borrow) = c.value (subStep c.toGateOps x y borrow).1 := by
  simp [subLast, subStep]

theorem value_carryIn (cin : Option Wire) :
    c.value (cin.getD (c.publicBit false)) = cin.any c.value := by
  cases cin <;> simp

theorem mod_of_carry {total d P : Nat} {k : Bool} (h : d + P * k.toNat = total) (hd : d < P) :
    total % P = d ∧ k = decide (P ≤ total) := by
  subst h
  refine ⟨by rw [Nat.add_mul_mod_self_left, Nat.mod_eq_of_lt hd], ?_⟩
  cases k with
  | false => simp [hd]
  | true => simp

theorem mod_of_borrow {a b d P : Nat} {k : Bool} (h : d + b = a + P * k.toNat) (hd : d < P) :
    (a + P - b) % P = d ∧ k = decide (a < b) := by
  cases k with
  | false =>
    have hsub : a + P - b = d + P := by simp at h; omega
    have hle : ¬a < b := by simp at h; omega
    rw [hsub, Nat.add_mod_right, Nat.mod_eq_of_lt hd, decide_eq_false hle]
    exact ⟨rfl, rfl⟩
  | true =>
    have hsub : a + P - b = d := by simp at h; omega
    have hlt : a < b := by simp at h; omega
    rw [hsub, Nat.mod_eq_of_lt hd, decide_eq_true hlt]
    exact ⟨rfl, rfl⟩

theorem addFull_writes (dest op1 op2 : Ptr ν) (out : Bool) (cin : Option Wire) {n : Nat}
    (h1 : dest.Trails n op1) (h2 : dest.Trails n op2) (m : Mem ν Wire) :
    let total := c.num n (m.get op1) + c.num n (m.get op2) + (cin.any c.value).toNat
    let r := addFull c.toGateOps dest out op1 op2 cin n m
    Writes c dest n (total % 2 ^ n) m r.1 ∧
      (0 < n → r.2.map c.value = if out then some (decide (2 ^ n ≤ total)) else none) := by
  intro total r
  obtain ⟨f, hf, hstore, hout⟩ := carryChain_eq c (value_addLast c) out cin h1 h2 m
  have hsum := num_addStep c (m.get op1) (m.get op2) (cin.getD (c.publicBit false)) n
  rw [← num_congr c hf, value_carryIn] at hsum
  obtain ⟨hmod, hcarry⟩ := mod_of_carry hsum (num_lt c n f)
  constructor
  · have hr : r.1 = m.store dest n f := hstore
    have hnum : total % 2 ^ n = c.num n f := hmod
    rw [hr, hnum]
    exact writes_store c dest n f m
  · intro hn
    have hr : r.2 = _ := hout hn
    rw [hr]
    cases out with
    | false => rfl
    | true => exact congrArg some hcarry

theorem subFull_writes (dest op1 op2 : Ptr ν) (out : Bool) (bin : Option Wire) {n : Nat}
    (h1 : dest.Trails n op1) (h2 : dest.Trails n op2) (m : Mem ν Wire) :
    let a := c.num n (m.get op1)
    let b := c.num n (m.get op2) + (bin.any c.value).toNat
    let r := subFull c.toGateOps dest out op1 op2 bin n m
    Writes c dest n ((a + 2 ^ n - b) % 2 ^ n) m r.1 ∧
      (0 < n → r.2.map c.value = if out then some (decide (a < b)) else none) := by
  intro a b r
  obtain ⟨f, hf, hstore, hout⟩ := carryChain_eq c (value_subLast c) out bin h1 h2 m
  have hdiff := num_subStep c (m.get op1) (m.get op2) (bin.getD (c.publicBit false)) n
  rw [← num_congr c hf, value_carryIn, Nat.add_assoc] at hdiff
  obtain ⟨hmod, hborrow⟩ := mod_of_borrow hdiff (num_lt c n f)
  constructor
  · have hr : r.1 = m.store dest n f := hstore
    have hnum : (a + 2 ^ n - b) % 2 ^ n = c.num n f := hmod
    rw [hr, hnum]
    exact writes_store c dest n f m
  · intro hn
    have hr : r.2 = _ := hout hn
    rw [hr]
    cases out with
    | false => rfl
    | true => exact congrArg some hborrow

theorem equal_value (a b : Nat → Wire) (n : Nat) :
    c.value (equal c.toGateOps a b n) = decide (c.num n a = c.num n b) := by
  have hfold : c.value (equal c.toGateOps a b n) = decide (∀ i < n, c.value (a i) = c.value (b i)) := by
    induction n with
    | zero => simp [equal]
    | succ n ih =>
      rw [equal, List.range_succ, List.foldl_append, List.foldl_cons, List.foldl_nil,
        c.value_andGate, ← equal, ih]
      simp only [c.value_notGate, c.value_xorGate, Nat.forall_lt_succ_right, Bool.decide_and]
      congr 1
      cases c.value (a n) <;> cases c.value (b n) <;> rfl
  rw [hfold]
  exact decide_eq_decide.mpr natOf_inj.symm

variable [Inhabited Wire]

theorem lessThan_value (a b : Nat → Wire) {n : Nat} (hn : 0 < n) :
    c.value (lessThan c.toGateOps a b n) = decide (c.num n a < c.num n b) := by
  have hborrow := (subFull_writes c ⟨.diff, 0⟩ ⟨.op1, 0⟩ ⟨.op2, 0⟩ true none
    (Ptr.trails_of_ne (n := n) (by decide) 0 0) (Ptr.trails_of_ne (by decide) 0 0)
    (load a b)).2 hn
  obtain ⟨w, hw, hval⟩ := Option.map_eq_some_iff.mp hborrow
  rw [lessThan, hw, Option.getD_some, hval, num_zero_offset, num_zero_offset]
  simp [load]

omit [Inhabited Wire] in
theorem mulStep_spec (n i : Nat) (hi : i < n) (m : Mem Local Wire) :
    let m' := mulStep c.toGateOps n m i
    m' .op1 = m .op1 ∧ m' .op2 = m .op2 ∧
      c.num n (m' .sum) ≡ c.num n (m .sum) + c.num n (m .op1) * (2 ^ i * (c.value (m .op2 i)).toNat)
        [MOD 2 ^ n] := by
  intro m'
  let f : Nat → Wire := fun k => c.andGate (m .op1 k) (m .op2 i)
  let mt := m.store ⟨.tmp, 0⟩ (n - i) f
  have hw := (addFull_writes c ⟨.sum, i⟩ ⟨.sum, i⟩ ⟨.tmp, 0⟩ false none (n := n - i)
    (Ptr.trails_refl _ _) (Ptr.trails_of_ne (by decide) i 0) mt).1
  have keep (a : Local) (ht : a ≠ .tmp) : mt a = m a := Mem.store_of_ne ht
  have keep' (a : Local) (hs : a ≠ .sum) (ht : a ≠ .tmp) : m' a = m a :=
    (hw.get_of_ne hs).trans (keep a ht)
  refine ⟨keep' _ (by decide) (by decide), keep' _ (by decide) (by decide), ?_⟩
  have htmp : c.num (n - i) (mt.get ⟨.tmp, 0⟩) =
      c.num (n - i) (m .op1) * (c.value (m .op2 i)).toNat := by
    rw [← num_and]
    exact num_congr c fun j hj => by rw [Mem.get_store hj]
  have hlow : c.num i (m' .sum) = c.num i (m .sum) := by
    refine num_congr c fun j hj => ?_
    have hsame : m' .sum j = mt .sum j := hw.frame _ _ fun h => absurd h.2.1 (Nat.not_le.mpr hj)
    rw [hsame, keep _ (by decide)]
  have hhigh : c.num (n - i) (fun j => m' .sum (i + j)) ≡
      c.num (n - i) (fun j => m .sum (i + j)) + c.num n (m .op1) * (c.value (m .op2 i)).toNat
        [MOD 2 ^ (n - i)] := by
    have hsum : c.num (n - i) (mt.get ⟨.sum, i⟩) = c.num (n - i) fun j => m .sum (i + j) := by
      rw [← keep .sum (by decide)]
      rfl
    have hop1 : c.num (n - i) (m .op1) ≡ c.num n (m .op1) [MOD 2 ^ (n - i)] := by
      rw [Nat.ModEq, PlainContext.num, PlainContext.num, natOf_mod (Nat.sub_le n i),
        natOf_mod (Nat.le_refl _)]
    have hnum := hw.num
    rw [hsum, htmp] at hnum
    calc c.num (n - i) (fun j => m' .sum (i + j))
        = _ := hnum
      _ ≡ _ [MOD 2 ^ (n - i)] := Nat.mod_modEq _ _
      _ ≡ _ [MOD 2 ^ (n - i)] := (hop1.mul_right _).add_left _
  have hpow : 2 ^ n = 2 ^ i * 2 ^ (n - i) := by rw [← Nat.pow_add, Nat.add_sub_cancel' hi.le]
  rw [num_split c hi.le (m' .sum), num_split c hi.le (m .sum), hlow, hpow]
  calc c.num i (m .sum) + 2 ^ i * c.num (n - i) (fun j => m' .sum (i + j))
      ≡ c.num i (m .sum) + 2 ^ i * (c.num (n - i) (fun j => m .sum (i + j)) +
          c.num n (m .op1) * (c.value (m .op2 i)).toNat) [MOD 2 ^ i * 2 ^ (n - i)] :=
        (hhigh.mul_left' _).add_left _
    _ = _ := by rw [Nat.mul_add, Nat.add_assoc, Nat.mul_left_comm]

theorem mulSum_spec (a b : Nat → Wire) (n : Nat) :
    c.num n (mulSum c.toGateOps a b n .sum) = c.num n a * c.num n b % 2 ^ n := by
  let start := (load a b).store ⟨.sum, 0⟩ n fun _ => c.publicBit false
  have upto (k : Nat) (hk : k ≤ n) :
      let m := (List.range k).foldl (mulStep c.toGateOps n) start
      m .op1 = a ∧ m .op2 = b ∧ c.num n (m .sum) ≡ c.num n a * c.num k b [MOD 2 ^ n] := by
    induction k with
    | zero =>
      have h1 : start .op1 = a := Mem.store_of_ne (by decide)
      have h2 : start .op2 = b := Mem.store_of_ne (by decide)
      refine ⟨h1, h2, ?_⟩
      have hzero : c.num n (start .sum) = 0 :=
        natOf_eq_zero.mpr fun i hi => by
          have : start .sum i = c.publicBit false := if_pos ⟨rfl, by simp, by simpa using hi⟩
          rw [this, c.value_publicBit]
      exact congrArg (· % 2 ^ n) hzero
    | succ k ih =>
      obtain ⟨h1, h2, hnum⟩ := ih (by omega)
      rw [List.range_succ, List.foldl_append]
      obtain ⟨h1', h2', hstep⟩ := mulStep_spec c n k (by omega)
        ((List.range k).foldl (mulStep c.toGateOps n) start)
      rw [h1, h2] at hstep
      refine ⟨h1'.trans h1, h2'.trans h2, hstep.trans ?_⟩
      rw [num_succ, Nat.mul_add]
      exact hnum.add_right _
  rw [← Nat.mod_eq_of_lt (num_lt c n _)]
  exact (upto n (Nat.le_refl n)).2.2

theorem mulFull_writes (dest op1 op2 : Ptr ν) (n : Nat) (m : Mem ν Wire) :
    Writes c dest n (c.num n (m.get op1) * c.num n (m.get op2) % 2 ^ n) m
      (mulFull c.toGateOps dest op1 op2 n m) := by
  rw [← mulSum_spec]
  exact writes_store c dest n _ m

structure CarryExact (m : Mem ν Wire) (dest op1 op2 : Ptr ν) (carryIn : Option Wire)
    (carryOut : Bool) (n : Nat) : Prop where
  add : Writes c dest n
    ((c.num n (m.get op1) + c.num n (m.get op2) + (carryIn.any c.value).toNat) % 2 ^ n) m
    (addFull c.toGateOps dest carryOut op1 op2 carryIn n m).1
  carry : (addFull c.toGateOps dest carryOut op1 op2 carryIn n m).2.map (Bool.toNat ∘ c.value) =
    if carryOut then
      some ((c.num n (m.get op1) + c.num n (m.get op2) + (carryIn.any c.value).toNat) / 2 ^ n)
    else none
  sub : Writes c dest n
    (((c.num n (m.get op1) : Int) - c.num n (m.get op2) - (carryIn.any c.value).toNat) % 2 ^ n).toNat
    m (subFull c.toGateOps dest carryOut op1 op2 carryIn n m).1
  borrow : (subFull c.toGateOps dest carryOut op1 op2 carryIn n m).2.map c.value =
    if carryOut then
      some (decide (c.num n (m.get op1) < c.num n (m.get op2) + (carryIn.any c.value).toNat))
    else none
  mul : Writes c dest n (c.num n (m.get op1) * c.num n (m.get op2) % 2 ^ n) m
    (mulFull c.toGateOps dest op1 op2 n m)
  lessThan : c.value (lessThan c.toGateOps (m.get op1) (m.get op2) n) =
    decide (c.num n (m.get op1) < c.num n (m.get op2))
  equal : c.value (equal c.toGateOps (m.get op1) (m.get op2) n) =
    decide (c.num n (m.get op1) = c.num n (m.get op2))

theorem toNat_decide_le {total P : Nat} (h : total < 2 * P) :
    (decide (P ≤ total)).toNat = total / P := by
  by_cases hle : P ≤ total
  · have hdiv : total / P = 1 := Nat.div_eq_of_lt_le (by omega) (by omega)
    rw [decide_eq_true hle, hdiv, Bool.toNat_true]
  · rw [decide_eq_false hle, Nat.div_eq_of_lt (by omega), Bool.toNat_false]

theorem sub_emod_toNat {a b k P : Nat} (h : b + k ≤ a + P) :
    (((a : Int) - b - k) % P).toNat = (a + P - (b + k)) % P := by
  have hcast : ((a + P - (b + k) : Nat) : Int) = (a : Int) - b - k + P := by omega
  have hmod : ((a : Int) - b - k) % P = ((a + P - (b + k) : Nat) : Int) % P := by
    rw [hcast, Int.add_emod_right]
  rw [hmod, ← Int.natCast_mod, Int.toNat_natCast]

theorem carry_kernels_exact (m : Mem ν Wire) (dest op1 op2 : Ptr ν) (carryIn : Option Wire)
    (carryOut : Bool) {n : Nat} (hn : 0 < n) (h1 : dest.Trails n op1) (h2 : dest.Trails n op2) :
    CarryExact c m dest op1 op2 carryIn carryOut n := by
  have ha := num_lt c n (m.get op1)
  have hb := num_lt c n (m.get op2)
  have hk := Bool.toNat_le (carryIn.any c.value)
  obtain ⟨hadd, hcarry⟩ := addFull_writes c dest op1 op2 carryOut carryIn h1 h2 m
  obtain ⟨hsub, hborrow⟩ := subFull_writes c dest op1 op2 carryOut carryIn h1 h2 m
  refine ⟨hadd, ?_, ?_, hborrow hn, mulFull_writes c dest op1 op2 n m,
    lessThan_value c _ _ hn, equal_value c _ _ n⟩
  · rw [← Option.map_map, hcarry hn]
    split
    · exact congrArg some (toNat_decide_le (by omega))
    · rfl
  · have hpow : ((2 ^ n : Nat) : Int) = 2 ^ n := Nat.cast_pow 2 n
    rw [← hpow, sub_emod_toNat (by omega)]
    exact hsub

def aliasedOperands : Mem Bool UInt8
  | false, i => if i = 1 then 0 else 1
  | true, _ => 1

theorem carry_kernels_exact_inPlace :
    CarryExact clearContext aliasedOperands ⟨false, 0⟩ ⟨false, 0⟩ ⟨true, 0⟩ (some 1) true 3 :=
  carry_kernels_exact clearContext aliasedOperands ⟨false, 0⟩ ⟨false, 0⟩ ⟨true, 0⟩ (some 1) true
    (by decide) (Ptr.trails_refl 3 _) (Ptr.trails_of_ne (by decide) 0 0)

end EmpTool.Circuits.Kernel
