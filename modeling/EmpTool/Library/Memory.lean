import Mathlib.Algebra.Ring.Int.Defs
import Mathlib.Algebra.Ring.Nat
import Mathlib.Data.List.Basic

namespace Memory

variable {α : Type*}

def storeRange (n dst : Nat) (v : Nat → α) (mem : Nat → α) : Nat → α :=
  fun a => if dst ≤ a ∧ a < dst + n then v (a - dst) else mem a

def mapRange (f : Nat → α → α) (n dst src : Nat) (mem : Nat → α) : Nat → α :=
  storeRange n dst (fun j => f j (mem (src + j))) mem

def slice (mem : Nat → α) (a n : Nat) : List α := (List.range n).map fun i => mem (a + i)

def Separate (n dst src : Nat) : Prop :=
  dst = src ∨ dst + n ≤ src ∨ src + n ≤ dst

theorem stride_div {n o : Nat} (t : Nat) (ho : o < n) : (t * n + o) / n = t := by
  rw [Nat.mul_comm, Nat.mul_add_div (by omega), Nat.div_eq_of_lt ho, Nat.add_zero]

theorem stride_mod {n o : Nat} (t : Nat) (ho : o < n) : (t * n + o) % n = o := by
  rw [Nat.mul_add_mod_self_right, Nat.mod_eq_of_lt ho]

theorem Separate.shift {n dst src m k : Nat} (h : Separate n dst src) (hn : m + k ≤ n) :
    Separate k (dst + m) (src + m) := by
  rcases h with h | h | h
  · exact Or.inl (by omega)
  · exact Or.inr (Or.inl (by omega))
  · exact Or.inr (Or.inr (by omega))

theorem Separate.take {n dst src k : Nat} (h : Separate n dst src) (hk : k ≤ n) :
    Separate k dst src := by
  simpa using h.shift (m := 0) (by omega)

theorem storeRange_zero (dst : Nat) (v : Nat → α) (mem : Nat → α) :
    storeRange 0 dst v mem = mem := by
  funext a
  exact if_neg (by omega)

theorem storeRange_at {n dst : Nat} {v : Nat → α} {mem : Nat → α} {i : Nat} (hi : i < n) :
    storeRange n dst v mem (dst + i) = v i := by
  have hd : dst + i - dst = i := by omega
  rw [storeRange, if_pos (by omega), hd]

theorem storeRange_front {n : Nat} {v : Nat → α} {mem : Nat → α} {i : Nat} (hi : i < n) :
    storeRange n 0 v mem i = v i := by
  rw [storeRange, if_pos (by omega), Nat.sub_zero]

theorem storeRange_off {n dst : Nat} {v : Nat → α} {mem : Nat → α} {a : Nat}
    (ha : a < dst ∨ dst + n ≤ a) : storeRange n dst v mem a = mem a :=
  if_neg (by omega)

theorem storeRange_congr {n dst : Nat} {v w : Nat → α} {mem : Nat → α} (h : ∀ i < n, v i = w i) :
    storeRange n dst v mem = storeRange n dst w mem := by
  funext a
  by_cases ha : dst ≤ a ∧ a < dst + n
  · rw [storeRange, storeRange, if_pos ha, if_pos ha, h _ (by omega)]
  · rw [storeRange, storeRange, if_neg ha, if_neg ha]

theorem storeRange_append (m n dst : Nat) (v : Nat → α) (mem : Nat → α) :
    storeRange n (dst + m) (fun j => v (m + j)) (storeRange m dst v mem) =
      storeRange (m + n) dst v mem := by
  funext a
  by_cases hn : dst + m ≤ a ∧ a < dst + m + n
  · have hd : m + (a - (dst + m)) = a - dst := by omega
    rw [storeRange, if_pos hn, storeRange, if_pos (by omega), hd]
  · rw [storeRange, if_neg hn, storeRange, storeRange]
    by_cases hm : dst ≤ a ∧ a < dst + m
    · rw [if_pos hm, if_pos (by omega)]
    · rw [if_neg hm, if_neg (by omega)]

theorem storeRange_over {m n dst dst' : Nat} {v w : Nat → α} {mem : Nat → α} (hfirst : dst ≤ dst')
    (hlast : dst' + m ≤ dst + n) :
    storeRange n dst v (storeRange m dst' w mem) = storeRange n dst v mem := by
  funext a
  by_cases ha : dst ≤ a ∧ a < dst + n
  · rw [storeRange, if_pos ha, storeRange, if_pos ha]
  · rw [storeRange, if_neg ha, storeRange_off (by omega), storeRange, if_neg ha]

@[simp] theorem slice_zero (mem : Nat → α) (a : Nat) : slice mem a 0 = [] := rfl

@[simp] theorem length_slice (mem : Nat → α) (a n : Nat) : (slice mem a n).length = n := by
  simp [slice]

theorem slice_append (mem : Nat → α) (a m n : Nat) :
    slice mem a m ++ slice mem (a + m) n = slice mem a (m + n) := by
  simp [slice, List.range_add, Nat.add_assoc]

theorem slice_congr {v w : Nat → α} {a b n : Nat} (h : ∀ i < n, v (a + i) = w (b + i)) :
    slice v a n = slice w b n :=
  List.map_congr_left fun i hi => h i (List.mem_range.mp hi)

theorem slice_storeRange (n dst : Nat) (v : Nat → α) (mem : Nat → α) :
    slice (storeRange n dst v mem) dst n = slice v 0 n :=
  slice_congr fun i hi => by rw [storeRange_at hi, Nat.zero_add]

theorem slice_storeRange_before {n dst a m : Nat} (h : a + m ≤ dst) (v : Nat → α) (mem : Nat → α) :
    slice (storeRange n dst v mem) a m = slice mem a m :=
  slice_congr fun _ hi => storeRange_off (Or.inl (by omega))

theorem slice_getD (xs : List α) (d : α) : slice (fun i => xs.getD i d) 0 xs.length = xs := by
  apply List.ext_getElem
  · simp
  · intro i _ hi
    simp [slice, hi]

theorem mapRange_zero (f : Nat → α → α) (dst src : Nat) (mem : Nat → α) :
    mapRange f 0 dst src mem = mem :=
  storeRange_zero dst _ mem

theorem mapRange_at {f : Nat → α → α} {n dst src i : Nat} (hi : i < n) (mem : Nat → α) :
    mapRange f n dst src mem (dst + i) = f i (mem (src + i)) :=
  storeRange_at hi

theorem mapRange_congr {f g : Nat → α → α} {n dst src : Nat} {mem : Nat → α}
    (h : ∀ i < n, ∀ x, f i x = g i x) : mapRange f n dst src mem = mapRange g n dst src mem :=
  storeRange_congr fun i hi => h i hi _

-- the second piece reads what the first has left alone, in place or away from the source
theorem mapRange_append {f : Nat → α → α} {m n dst src : Nat} (h : Separate (m + n) dst src)
    (mem : Nat → α) :
    mapRange (fun j => f (m + j)) n (dst + m) (src + m) (mapRange f m dst src mem) =
      mapRange f (m + n) dst src mem := by
  rw [mapRange, mapRange, mapRange, ← storeRange_append]
  refine storeRange_congr fun i hi => ?_
  have unread : storeRange m dst (fun j => f j (mem (src + j))) mem (src + m + i) =
      mem (src + m + i) := by
    rcases h with h | h | h
    · exact storeRange_off (by omega)
    · exact storeRange_off (by omega)
    · exact storeRange_off (by omega)
  rw [unread, Nat.add_assoc]

theorem foldl_mapRange {f : Nat → α → α} {w count dst src : Nat}
    (h : Separate (count * w) dst src) (step : Nat → (Nat → α) → Nat → α)
    (hstep : ∀ t < count, ∀ mem,
      step t mem = mapRange (fun j => f (t * w + j)) w (dst + t * w) (src + t * w) mem)
    (mem : Nat → α) :
    (List.range count).foldl (fun mem t => step t mem) mem =
      mapRange f (count * w) dst src mem := by
  induction count with
  | zero => simp [mapRange_zero]
  | succ count ih =>
    have hw : (count + 1) * w = count * w + w := Nat.succ_mul count w
    rw [hw] at h ⊢
    rw [List.range_succ, List.foldl_append,
      ih (h.take (Nat.le_add_right _ _)) (fun t ht => hstep t (by omega))]
    simp only [List.foldl_cons, List.foldl_nil]
    rw [hstep count (by omega)]
    exact mapRange_append h mem

theorem foldl_storeRange {w count dst : Nat} (v : Nat → α) (mem : Nat → α) :
    (List.range count).foldl
      (fun mem t => storeRange w (dst + t * w) (fun j => v (t * w + j)) mem) mem =
      storeRange (count * w) dst v mem := by
  induction count with
  | zero => simp [storeRange_zero]
  | succ count ih =>
    rw [List.range_succ, List.foldl_append, ih, Nat.succ_mul]
    exact storeRange_append (count * w) w dst v mem

end Memory
