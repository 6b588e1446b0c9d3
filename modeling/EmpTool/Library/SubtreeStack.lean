import Mathlib.Data.Nat.Bits
import Mathlib.Data.Nat.Log
import Mathlib.Logic.Function.Iterate
import Mathlib.Tactic.Ring

namespace SubtreeStack

variable {Node Value : Type*} (leaf : Nat → Node) (value : Node → Value)
  (parent : Value → Value → Node)

def leftLeaves (n : Nat) : Nat := 2 ^ (n - 1).log2

theorem leftLeaves_lt {n : Nat} (hn : 1 < n) : leftLeaves n < n := by
  have h := Nat.log2_self_le (n := n - 1) (by omega)
  rw [leftLeaves]
  omega

theorem leftLeaves_pos (n : Nat) : 0 < leftLeaves n := Nat.two_pow_pos _

theorem le_two_leftLeaves (n : Nat) : n ≤ 2 * leftLeaves n := by
  have h := Nat.lt_log2_self (n := n - 1)
  rw [leftLeaves]
  rw [Nat.pow_succ] at h
  omega

theorem leftLeaves_add {k r : Nat} (hr : 0 < r) (hk : r ≤ 2 ^ k) :
    leftLeaves (2 ^ k + r) = 2 ^ k := by
  have hpos := Nat.two_pow_pos k
  rw [leftLeaves, (Nat.log2_eq_iff (by omega)).mpr]
  rw [Nat.pow_succ]
  omega

-- the left subtree is full and at least as large as the right one
def tree (n lo : Nat) : Node :=
  if h : n ≤ 1 then leaf lo
  else
    have := leftLeaves_lt (Nat.lt_of_not_le h)
    have := leftLeaves_pos n
    parent (value (tree (leftLeaves n) lo)) (value (tree (n - leftLeaves n) (lo + leftLeaves n)))
termination_by n

@[simp] theorem tree_one (lo : Nat) : tree leaf value parent 1 lo = leaf lo := by
  rw [tree, dif_pos (Nat.le_refl 1)]

theorem tree_split {n : Nat} (hn : 1 < n) (lo : Nat) :
    tree leaf value parent n lo =
      parent (value (tree leaf value parent (leftLeaves n) lo))
        (value (tree leaf value parent (n - leftLeaves n) (lo + leftLeaves n))) := by
  rw [tree, dif_neg (by omega)]

theorem tree_add {k r : Nat} (hr : 0 < r) (hk : r ≤ 2 ^ k) (lo : Nat) :
    tree leaf value parent (2 ^ k + r) lo =
      parent (value (tree leaf value parent (2 ^ k) lo))
        (value (tree leaf value parent r (lo + 2 ^ k))) := by
  have hpos := Nat.two_pow_pos k
  rw [tree_split _ _ _ (by omega), leftLeaves_add hr hk, Nat.add_sub_cancel_left]

def ones (n : Nat) : Nat := n.bits.count true

@[simp] theorem ones_zero : ones 0 = 0 := by simp [ones]

theorem ones_double (q : Nat) : ones (2 * q) = ones q := by
  rcases Nat.eq_zero_or_pos q with rfl | hq
  · rfl
  · rw [ones, Nat.bit0_bits q (by omega), List.count_cons_of_ne (by decide), ones]

theorem ones_succ_double (q : Nat) : ones (2 * q + 1) = ones q + 1 := by
  rw [ones, Nat.bit1_bits, List.count_cons_self, ones]

theorem ones_shift (k q : Nat) : ones (2 ^ k * q) = ones q := by
  induction k with
  | zero => rw [Nat.pow_zero, Nat.one_mul]
  | succ k ih => rw [Nat.pow_succ', Nat.mul_assoc, ones_double, ih]

theorem ones_pos {n : Nat} (hn : 0 < n) : 0 < ones n := by
  induction n using Nat.strong_induction_on with
  | h n ih =>
    obtain ⟨q, rfl | rfl⟩ := n.even_or_odd'
    · rw [ones_double]
      exact ih q (by omega) (by omega)
    · rw [ones_succ_double]
      exact Nat.succ_pos _

theorem ones_le {w n : Nat} (hn : n < 2 ^ w) : ones n ≤ w := by
  induction w generalizing n with
  | zero =>
    rw [Nat.pow_zero, Nat.lt_one_iff] at hn
    rw [hn, ones_zero]
  | succ w ih =>
    rw [Nat.pow_succ] at hn
    obtain ⟨q, rfl | rfl⟩ := n.even_or_odd'
    · have h := ih (n := q) (by omega)
      rw [ones_double]
      omega
    · have h := ih (n := q) (by omega)
      rw [ones_succ_double]
      omega

theorem ones_succ_le (q : Nat) : ones (q + 1) ≤ ones q + 1 := by
  induction q using Nat.strong_induction_on with
  | h q ih =>
    obtain ⟨r, rfl | rfl⟩ := q.even_or_odd'
    · rw [ones_succ_double, ones_double]
    · have h := ih r (by omega)
      have hsum : 2 * r + 1 + 1 = 2 * (r + 1) := by omega
      rw [hsum, ones_double, ones_succ_double]
      omega

theorem start_double (k q : Nat) : 2 * q * 2 ^ k = q * 2 ^ (k + 1) := by
  rw [Nat.pow_succ]
  ring

theorem start_succ_double (k q : Nat) : (2 * q + 1) * 2 ^ k = q * 2 ^ (k + 1) + 2 ^ k := by
  rw [Nat.pow_succ]
  ring

def stack (k q : Nat) : List Value :=
  if h : q = 0 then []
  else if q % 2 = 1 then
    value (tree leaf value parent (2 ^ k) (q / 2 * 2 ^ (k + 1))) :: stack (k + 1) (q / 2)
  else stack (k + 1) (q / 2)
termination_by q

@[simp] theorem stack_zero (k : Nat) : stack leaf value parent k 0 = [] := by
  rw [stack, dif_pos rfl]

theorem stack_double (k q : Nat) :
    stack leaf value parent k (2 * q) = stack leaf value parent (k + 1) q := by
  rcases Nat.eq_zero_or_pos q with rfl | hq
  · rw [Nat.mul_zero, stack_zero, stack_zero]
  · have heven : ¬ 2 * q % 2 = 1 := by omega
    have hhalf : 2 * q / 2 = q := by omega
    rw [stack, dif_neg (by omega), if_neg heven, hhalf]

theorem stack_succ_double (k q : Nat) :
    stack leaf value parent k (2 * q + 1) =
      value (tree leaf value parent (2 ^ k) (q * 2 ^ (k + 1))) ::
        stack leaf value parent (k + 1) q := by
  have hodd : (2 * q + 1) % 2 = 1 := by omega
  have hhalf : (2 * q + 1) / 2 = q := by omega
  rw [stack, dif_neg (by omega), if_pos hodd, hhalf]

theorem stack_shift (k q : Nat) :
    stack leaf value parent 0 (2 ^ k * q) = stack leaf value parent k q := by
  induction k generalizing q with
  | zero => rw [Nat.pow_zero, Nat.one_mul]
  | succ k ih => rw [Nat.pow_succ, Nat.mul_assoc, ih, stack_double]

theorem stack_length (k q : Nat) : (stack leaf value parent k q).length = ones q := by
  induction q using Nat.strong_induction_on generalizing k with
  | h q ih =>
    obtain ⟨r, rfl | rfl⟩ := q.even_or_odd'
    · rcases Nat.eq_zero_or_pos r with rfl | hr
      · simp
      · rw [stack_double, ih r (by omega), ones_double]
    · rw [stack_succ_double, List.length_cons, ih r (by omega), ones_succ_double]

def mergeTo (target : Nat) : List Value → List Value
  | right :: left :: rest =>
    if target < rest.length + 2 then mergeTo target (value (parent left right) :: rest)
    else right :: left :: rest
  | vs => vs
termination_by vs => vs.length

theorem mergeTo_of_le {target : Nat} {vs : List Value} (h : vs.length ≤ target) :
    mergeTo value parent target vs = vs := by
  match vs with
  | [] => rw [mergeTo]; simp
  | [v] => rw [mergeTo]; simp
  | right :: left :: rest =>
    simp only [List.length_cons] at h
    rw [mergeTo, if_neg (by omega)]

theorem mergeTo_step {target : Nat} {left right : Value} {rest : List Value}
    (h : target < rest.length + 2) :
    mergeTo value parent target (right :: left :: rest) =
      mergeTo value parent target (value (parent left right) :: rest) := by
  rw [mergeTo, if_pos h]

theorem mergeTo_push (k q : Nat) :
    mergeTo value parent (ones (q + 1))
        (value (tree leaf value parent (2 ^ k) (q * 2 ^ k)) :: stack leaf value parent k q) =
      stack leaf value parent k (q + 1) := by
  induction q using Nat.strong_induction_on generalizing k with
  | h q ih =>
    obtain ⟨r, rfl | rfl⟩ := q.even_or_odd'
    · rw [stack_double, start_double, stack_succ_double, mergeTo_of_le]
      rw [List.length_cons, stack_length, ones_succ_double]
    · have hsum : 2 * r + 1 + 1 = 2 * (r + 1) := by omega
      have hsize : 2 ^ (k + 1) = 2 ^ k + 2 ^ k := by rw [Nat.pow_succ]; omega
      have hones := ones_succ_le r
      rw [hsum, ones_double, stack_double, stack_succ_double, start_succ_double,
        mergeTo_step, ← tree_add leaf value parent (Nat.two_pow_pos k) (Nat.le_refl _), ← hsize]
      · exact ih r (by omega) (k + 1)
      · rw [stack_length]
        omega

def rollUp : Node → List Value → Node
  | node, [] => node
  | node, left :: rest => rollUp (parent left (value node)) rest

theorem rollUp_stack {k r : Nat} (hr : 0 < r) (hk : r ≤ 2 ^ k) (q : Nat) :
    rollUp value parent (tree leaf value parent r (q * 2 ^ k)) (stack leaf value parent k q) =
      tree leaf value parent (q * 2 ^ k + r) 0 := by
  induction q using Nat.strong_induction_on generalizing k r with
  | h q ih =>
    obtain ⟨s, rfl | rfl⟩ := q.even_or_odd'
    · rcases Nat.eq_zero_or_pos s with rfl | hs
      · simp [rollUp]
      · rw [stack_double, start_double]
        refine ih s (by omega) hr ?_
        rw [Nat.pow_succ]
        omega
    · rw [stack_succ_double, rollUp, start_succ_double, ← tree_add leaf value parent hr hk,
        Nat.add_assoc]
      refine ih s (by omega) (by omega) ?_
      rw [Nat.pow_succ]
      omega

section Rows

def pairUp : List Value → List Value
  | left :: right :: rest => value (parent left right) :: pairUp rest
  | vs => vs

@[simp] theorem pairUp_singleton (v : Value) : pairUp value parent [v] = [v] := rfl

theorem pairUp_length (vs : List Value) :
    (pairUp value parent vs).length = (vs.length + 1) / 2 := by
  induction vs using pairUp.induct with
  | case1 left right rest ih =>
    rw [pairUp, List.length_cons, ih, List.length_cons, List.length_cons]
    omega
  | case2 vs h =>
    match vs with
    | [] => simp [pairUp]
    | [v] => simp
    | left :: right :: rest => exact absurd rfl (h left right rest)

theorem pairUp_append (m : Nat) {ls : List Value} (hl : ls.length = 2 * m) (rs : List Value) :
    pairUp value parent (ls ++ rs) = pairUp value parent ls ++ pairUp value parent rs := by
  induction m generalizing ls with
  | zero =>
    rw [List.eq_nil_of_length_eq_zero hl]
    rfl
  | succ m ih =>
    match ls with
    | [] => simp at hl
    | [v] => simp at hl; omega
    | left :: right :: rest =>
      simp only [List.length_cons] at hl
      rw [List.cons_append, List.cons_append, pairUp, pairUp, ih (by omega), List.cons_append]

def Row (j n lo : Nat) (vs : List Value) : Prop :=
  vs.length ≤ 2 ^ j ∧ (pairUp value parent)^[j] vs = [value (tree leaf value parent n lo)]

theorem rounds_append (j m : Nat) {ls : List Value} (hl : ls.length = 2 ^ j * m)
    (rs : List Value) :
    (pairUp value parent)^[j] (ls ++ rs) =
      (pairUp value parent)^[j] ls ++ (pairUp value parent)^[j] rs := by
  induction j generalizing ls rs with
  | zero => rfl
  | succ j ih =>
    have hl' : ls.length = 2 * (2 ^ j * m) := by
      rw [hl, Nat.pow_succ]
      ring
    rw [Function.iterate_succ_apply, Function.iterate_succ_apply, Function.iterate_succ_apply,
      pairUp_append value parent (2 ^ j * m) hl' rs]
    refine ih ?_ _
    rw [pairUp_length, hl']
    omega

variable {leaf value parent}

theorem Row.succ {j n lo : Nat} {vs : List Value} (h : Row leaf value parent j n lo vs) :
    Row leaf value parent (j + 1) n lo vs := by
  refine ⟨?_, ?_⟩
  · have hlen := h.1
    rw [Nat.pow_succ]
    omega
  · rw [Function.iterate_succ_apply', h.2, pairUp_singleton]

theorem Row.ne_nil {j n lo : Nat} {vs : List Value} (h : Row leaf value parent j n lo vs) :
    vs ≠ [] := by
  intro hnil
  have hfixed := Function.iterate_fixed (show SubtreeStack.pairUp value parent [] = [] from rfl) j
  rw [hnil] at h
  exact List.cons_ne_nil _ _ (h.2.symm.trans hfixed)

theorem Row.mono {j j' n lo : Nat} {vs : List Value} (h : Row leaf value parent j n lo vs)
    (hj : j ≤ j') : Row leaf value parent j' n lo vs := by
  induction hj with
  | refl => exact h
  | step _ ih => exact ih.succ

theorem Row.singleton {j n lo : Nat} {vs : List Value} (h : Row leaf value parent j n lo vs)
    (hone : vs.length = 1) : vs = [value (tree leaf value parent n lo)] := by
  obtain ⟨v, rfl⟩ := List.length_eq_one_iff.mp hone
  rw [← h.2, Function.iterate_fixed (pairUp_singleton value parent v)]

theorem Row.pairUp {j n lo : Nat} {vs : List Value} (h : Row leaf value parent (j + 1) n lo vs) :
    Row leaf value parent j n lo (pairUp value parent vs) := by
  refine ⟨?_, h.2⟩
  have hlen := h.1
  rw [Nat.pow_succ] at hlen
  rw [pairUp_length]
  omega

theorem Row.pair {j n m lo : Nat} {ls rs : List Value} (hl : Row leaf value parent j n lo ls)
    (hfull : ls.length = 2 ^ j) (hr : Row leaf value parent j m (lo + n) rs) :
    (SubtreeStack.pairUp value parent)^[j] (ls ++ rs) =
      [value (tree leaf value parent n lo), value (tree leaf value parent m (lo + n))] := by
  rw [rounds_append value parent j 1 (by rw [hfull, Nat.mul_one]), hl.2, hr.2]
  rfl

theorem Row.append {j k m lo : Nat} {ls rs : List Value}
    (hl : Row leaf value parent j (2 ^ k) lo ls) (hfull : ls.length = 2 ^ j) (hm : 0 < m)
    (hle : m ≤ 2 ^ k) (hr : Row leaf value parent j m (lo + 2 ^ k) rs) :
    Row leaf value parent (j + 1) (2 ^ k + m) lo (ls ++ rs) := by
  refine ⟨?_, ?_⟩
  · have hlen := hr.1
    rw [List.length_append, hfull, Nat.pow_succ]
    omega
  · rw [Function.iterate_succ_apply', hl.pair hfull hr, tree_add leaf value parent hm hle]
    rfl

theorem row_leaf (lo : Nat) : Row leaf value parent 0 1 lo [value (leaf lo)] :=
  ⟨Nat.le_refl 1, by simp⟩

theorem row_leaves {j n : Nat} (hn : 0 < n) (hj : n ≤ 2 ^ j) (lo : Nat) :
    Row leaf value parent j n lo ((List.range n).map fun i => value (leaf (lo + i))) := by
  induction j generalizing n lo with
  | zero =>
    have hone : n = 1 := by omega
    subst hone
    exact row_leaf lo
  | succ j ih =>
    by_cases hle : n ≤ 2 ^ j
    · exact (ih hn hle lo).succ
    · rw [Nat.pow_succ] at hj
      obtain ⟨m, rfl⟩ := Nat.exists_eq_add_of_lt (Nat.lt_of_not_le hle)
      rw [Nat.add_assoc, List.range_add, List.map_append, List.map_map]
      have hleft := ih (Nat.two_pow_pos j) (Nat.le_refl _) lo
      have hright := ih (n := m + 1) (by omega) (by omega) (lo + 2 ^ j)
      refine hleft.append ?_ (Nat.succ_pos m) (by omega) ?_
      · simp
      · simpa [Function.comp_def, Nat.add_assoc] using hright

variable (value parent)

theorem pairUp_lt {vs : List Value} (h : 2 < vs.length) :
    (pairUp value parent vs).length < vs.length := by
  rw [pairUp_length]
  omega

def condense (vs : List Value) : List Value :=
  if h : 2 < vs.length then
    have := pairUp_lt value parent h
    condense (pairUp value parent vs)
  else vs
termination_by vs.length

theorem condense_step {vs : List Value} (h : 2 < vs.length) :
    condense value parent vs = condense value parent (pairUp value parent vs) := by
  rw [condense, dif_pos h]

theorem condense_of_le {vs : List Value} (h : vs.length ≤ 2) : condense value parent vs = vs := by
  rw [condense, dif_neg (by omega)]

variable {value parent}

theorem Row.condense {j n m lo : Nat} {ls rs : List Value} (hl : Row leaf value parent j n lo ls)
    (hfull : ls.length = 2 ^ j) (hr : Row leaf value parent j m (lo + n) rs) (hne : rs ≠ []) :
    condense value parent (ls ++ rs) =
      [value (tree leaf value parent n lo), value (tree leaf value parent m (lo + n))] := by
  induction j generalizing ls rs with
  | zero =>
    have hlen := hr.1
    rw [condense_of_le _ _ (by rw [List.length_append, hfull]; omega)]
    exact hl.pair hfull hr
  | succ j ih =>
    have hpos := List.length_pos_iff.mpr hne
    have htwo := Nat.two_pow_pos j
    rw [Nat.pow_succ'] at hfull
    rw [condense_step _ _ (by rw [List.length_append, hfull]; omega),
      pairUp_append value parent (2 ^ j) hfull rs]
    refine ih hl.pairUp ?_ hr.pairUp fun hnil => ?_
    · rw [pairUp_length, hfull]
      omega
    · have hz := congrArg List.length hnil
      rw [pairUp_length, List.length_nil] at hz
      omega

end Rows

end SubtreeStack
