import EmpTool.Circuits.Batcher
import EmpTool.Circuits.SignedInt

namespace EmpTool.Circuits

open Network
open EmpTool.Ir (GateOps clearCtx)

structure SortOps (Wire V : Type) where
  lt : V → V → Except String Wire
  select : V → Wire → V → Except String V

section Operators

variable {Wire V K P : Type}

-- `operator[]` has no defined result beyond the vector
def element (v : List V) (i : Nat) : Except String V :=
  match v[i]? with
  | some a => .ok a
  | none => .error "index out of range"

def outOfOrder (ops : SortOps Wire V) (ascending : Bool) (a b : V) : Except String Wire :=
  if ascending then ops.lt b a else ops.lt a b

def compareSwap (ops : SortOps Wire V) (ascending : Bool) (v : List V) (c : Nat × Nat) :
    Except String (List V) := do
  let a ← element v c.1
  let b ← element v c.2
  let swapped ← outOfOrder ops ascending a b
  let lo ← ops.select a swapped b
  let hi ← ops.select b swapped a
  pure ((v.set c.1 lo).set c.2 hi)

def sort (ops : SortOps Wire V) (ascending : Bool) (v : List V) : Except String (List V) :=
  (batcherNetwork v.length).foldlM (compareSwap ops ascending) v

def compareSwapCarrying (ops : SortOps Wire K) (select : P → Wire → P → Except String P)
    (ascending : Bool) (kp : List K × List P) (c : Nat × Nat) :
    Except String (List K × List P) := do
  let ka ← element kp.1 c.1
  let kb ← element kp.1 c.2
  let pa ← element kp.2 c.1
  let pb ← element kp.2 c.2
  let swapped ← outOfOrder ops ascending ka kb
  let nka ← ops.select ka swapped kb
  let nkb ← ops.select kb swapped ka
  let npa ← select pa swapped pb
  let npb ← select pb swapped pa
  pure ((kp.1.set c.1 nka).set c.2 nkb, (kp.2.set c.1 npa).set c.2 npb)

def sortByKey (ops : SortOps Wire K) (select : P → Wire → P → Except String P) (ascending : Bool)
    (keys : List K) (data : List P) : Except String (List K × List P) := do
  expecting (keys.length = data.length) "sort_by_key: keys and data must have equal length"
  (batcherNetwork keys.length).foldlM (compareSwapCarrying ops select ascending) (keys, data)

def SortOps.flip (ops : SortOps Wire V) : SortOps Wire V := { ops with lt a b := ops.lt b a }

variable [Inhabited Wire] {n : Nat} (c : GateOps Wire)

def UIntT.sortOps : SortOps Wire (UIntT Wire n) where
  lt a b := .ok (UIntT.lt c a b)
  select x sel t := .ok (UIntT.select c x sel t)

def IntT.sortOps : SortOps Wire (IntT Wire n) where
  lt a b := .ok (IntT.lt c a b)
  select x sel t := .ok (IntT.select c x sel t)

def UIntT.Runtime.sortOps : SortOps Wire (RuntimeWord Wire) := ⟨lt c, select c⟩

def IntT.Runtime.sortOps : SortOps Wire (RuntimeWord Wire) := ⟨lt c, select c⟩

end Operators

section Holding

variable {V α : Type}

structure Holds (valid : V → Prop) (value : V → α) (n : Nat) (v : List V) (x : Nat → α) : Prop where
  length : v.length = n
  entry : ∀ m < n, ∃ a, v[m]? = some a ∧ valid a ∧ value a = x m

variable {valid : V → Prop} {value : V → α} {n : Nat} {v : List V} {x y : Nat → α}

theorem Holds.element (h : Holds valid value n v x) {m : Nat} (hm : m < n) :
    ∃ a, element v m = .ok a ∧ valid a ∧ value a = x m := by
  obtain ⟨a, ha, hvalid, hvalue⟩ := h.entry m hm
  exact ⟨a, by rw [Circuits.element, ha], hvalid, hvalue⟩

theorem Holds.set_pair (h : Holds valid value n v x) {c : Nat × Nat} {lo hi : V}
    (hlo : valid lo ∧ value lo = y c.1) (hhi : valid hi ∧ value hi = y c.2)
    (hrest : ∀ m, m ≠ c.1 → m ≠ c.2 → y m = x m) :
    Holds valid value n ((v.set c.1 lo).set c.2 hi) y where
  length := by rw [List.length_set, List.length_set, h.length]
  entry m hm := by
    have hv := h.length
    rw [List.getElem?_set, List.getElem?_set, List.length_set]
    by_cases h2 : c.2 = m
    · rw [if_pos h2, if_pos (by omega)]
      exact ⟨hi, rfl, h2 ▸ hhi⟩
    · rw [if_neg h2]
      by_cases h1 : c.1 = m
      · rw [if_pos h1, if_pos (by omega)]
        exact ⟨lo, rfl, h1 ▸ hlo⟩
      · rw [if_neg h1, hrest m (Ne.symm h1) (Ne.symm h2)]
        exact h.entry m hm

theorem holds_self [Inhabited α] (hvalid : ∀ a ∈ v, valid a) :
    Holds valid value v.length v fun m => (v[m]?.map value).getD default where
  length := rfl
  entry m hm := by
    rw [List.getElem?_eq_getElem hm]
    exact ⟨_, rfl, hvalid _ (List.getElem_mem hm), rfl⟩

theorem Holds.map_eq (h : Holds valid value n v x) : v.map value = (List.range n).map x := by
  apply List.ext_getElem?
  intro m
  rw [List.getElem?_map, List.getElem?_map]
  by_cases hm : m < n
  · obtain ⟨a, ha, -, hvalue⟩ := h.entry m hm
    rw [ha, List.getElem?_range hm, Option.map_some, Option.map_some, hvalue]
  · have hv : v.length ≤ m := by
      rw [h.length]
      omega
    rw [List.getElem?_eq_none hv, List.getElem?_eq_none (by simpa using Nat.not_lt.mp hm)]
    rfl

theorem Holds.all_valid (h : Holds valid value n v x) : ∀ a ∈ v, valid a := by
  intro a ha
  obtain ⟨m, hm, rfl⟩ := List.mem_iff_getElem.mp ha
  obtain ⟨b, hb, hvalid, -⟩ := h.entry m (h.length ▸ hm)
  rw [List.getElem?_eq_getElem hm] at hb
  exact Option.some.inj hb ▸ hvalid

end Holding

section Sorting

variable {Wire V K P α π : Type} (c : PlainContext Wire)

def Selects (select : V → Wire → V → Except String V) (valid : V → Prop) (value : V → α) : Prop :=
  ∀ x s t, valid x → valid t →
    ∃ r, select x s t = .ok r ∧ valid r ∧ value r = if c.value s then value t else value x

structure Orders [LinearOrder α] (ops : SortOps Wire V) (valid : V → Prop) (value : V → α) :
    Prop where
  lt : ∀ a b, valid a → valid b →
    ∃ s, ops.lt a b = .ok s ∧ c.value s = decide (value a < value b)
  select : Selects c ops.select valid value

def InOrder [LinearOrder α] (ascending : Bool) (xs : List α) : Prop :=
  if ascending then xs.Pairwise (· ≤ ·) else xs.Pairwise (· ≥ ·)

variable {c} [LinearOrder α] {ops : SortOps Wire V} {valid : V → Prop} {value : V → α}

theorem Orders.flip (h : Orders c ops valid value) :
    Orders c ops.flip valid fun a => OrderDual.toDual (value a) where
  lt a b ha hb := h.lt b a hb ha
  select := h.select

theorem Ordered.pairwise {n : Nat} {x : Nat → α} (h : Ordered n x) :
    ((List.range n).map x).Pairwise (· ≤ ·) := by
  rw [List.pairwise_map]
  refine List.pairwise_lt_range.imp_of_mem fun _ hb hab => ?_
  exact h _ _ hab.le (List.mem_range.mp hb)

theorem compareSwap_holds (h : Orders c ops valid value) {n : Nat} {v : List V} {x : Nat → α}
    (hv : Holds valid value n v x) {d : Nat × Nat} (hd : d.1 < n ∧ d.2 < n) :
    ∃ v', compareSwap ops true v d = .ok v' ∧ Holds valid value n v' (exchange id x d) := by
  obtain ⟨a, ha, hva, hxa⟩ := hv.element hd.1
  obtain ⟨b, hb, hvb, hxb⟩ := hv.element hd.2
  obtain ⟨s, hs, hsv⟩ := h.lt b a hvb hva
  obtain ⟨lo, hlo, hvlo, hxlo⟩ := h.select a s b hva hvb
  obtain ⟨hi, hhi, hvhi, hxhi⟩ := h.select b s a hvb hva
  simp only [hsv, decide_eq_true_iff, hxa, hxb] at hxlo hxhi
  refine ⟨_, ?_, hv.set_pair ⟨hvlo, hxlo.trans (exchange_left id x d).symm⟩
    ⟨hvhi, hxhi.trans (exchange_right id x d).symm⟩ fun m => exchange_of_ne id x⟩
  simp only [compareSwap, outOfOrder, bind_eq_ok, if_pos]
  exact ⟨a, ha, b, hb, s, hs, lo, hlo, hi, hhi, rfl⟩

theorem sort_ascending (h : Orders c ops valid value) {v : List V} (hv : ∀ a ∈ v, valid a) :
    ∃ r, sort ops true v = .ok r ∧ (∀ a ∈ r, valid a) ∧ (r.map value).Perm (v.map value) ∧
      (r.map value).Pairwise (· ≤ ·) := by
  cases v with
  | nil =>
    refine ⟨[], ?_, List.forall_mem_nil _, List.Perm.refl _, List.Pairwise.nil⟩
    rw [sort, List.length_nil, batcherNetwork_zero]
    rfl
  | cons a v =>
    have : Inhabited α := ⟨value a⟩
    have hself : Holds valid value (a :: v).length (a :: v) _ := holds_self hv
    obtain ⟨r, hr, hold⟩ := foldlM_run (R := Holds valid value (a :: v).length) id
      (fun s x d hd hR => compareSwap_holds h hR (batcherNetwork_inside _ d hd)) hself
    refine ⟨r, hr, hold.all_valid, ?_, ?_⟩
    · rw [hold.map_eq, hself.map_eq]
      exact run_perm id (batcherNetwork_inside _) _
    · rw [hold.map_eq]
      exact Ordered.pairwise (batcherNetwork_orders _ _)

variable {opsK : SortOps Wire K} {validK : K → Prop} {valueK : K → α}
  {select : P → Wire → P → Except String P} {validP : P → Prop} {valueP : P → π}

structure HoldsPairs (validK : K → Prop) (valueK : K → α) (validP : P → Prop) (valueP : P → π)
    (n : Nat) (kp : List K × List P) (x : Nat → α × π) : Prop where
  keys : Holds validK valueK n kp.1 fun m => (x m).1
  data : Holds validP valueP n kp.2 fun m => (x m).2

theorem compareSwapCarrying_holds (h : Orders c opsK validK valueK)
    (hsel : Selects c select validP valueP) {n : Nat} {kp : List K × List P} {x : Nat → α × π}
    (hkp : HoldsPairs validK valueK validP valueP n kp x) {d : Nat × Nat}
    (hd : d.1 < n ∧ d.2 < n) :
    ∃ kp', compareSwapCarrying opsK select true kp d = .ok kp' ∧
      HoldsPairs validK valueK validP valueP n kp' (exchange Prod.fst x d) := by
  obtain ⟨ka, hka, hvka, hxka⟩ := hkp.keys.element hd.1
  obtain ⟨kb, hkb, hvkb, hxkb⟩ := hkp.keys.element hd.2
  obtain ⟨pa, hpa, hvpa, hxpa⟩ := hkp.data.element hd.1
  obtain ⟨pb, hpb, hvpb, hxpb⟩ := hkp.data.element hd.2
  obtain ⟨s, hs, hsv⟩ := h.lt kb ka hvkb hvka
  obtain ⟨nka, hnka, hvnka, hxnka⟩ := h.select ka s kb hvka hvkb
  obtain ⟨nkb, hnkb, hvnkb, hxnkb⟩ := h.select kb s ka hvkb hvka
  obtain ⟨npa, hnpa, hvnpa, hxnpa⟩ := hsel pa s pb hvpa hvpb
  obtain ⟨npb, hnpb, hvnpb, hxnpb⟩ := hsel pb s pa hvpb hvpa
  simp only [hsv, decide_eq_true_iff, hxka, hxkb, hxpa, hxpb] at hxnka hxnkb hxnpa hxnpb
  have hrest (m : Nat) (hm1 : m ≠ d.1) (hm2 : m ≠ d.2) := exchange_of_ne Prod.fst x hm1 hm2
  have hkeys : ∀ m, m ≠ d.1 → m ≠ d.2 → (exchange Prod.fst x d m).1 = (x m).1 :=
    fun m hm1 hm2 => congrArg Prod.fst (hrest m hm1 hm2)
  have hdata : ∀ m, m ≠ d.1 → m ≠ d.2 → (exchange Prod.fst x d m).2 = (x m).2 :=
    fun m hm1 hm2 => congrArg Prod.snd (hrest m hm1 hm2)
  refine ⟨((kp.1.set d.1 nka).set d.2 nkb, (kp.2.set d.1 npa).set d.2 npb), ?_,
    hkp.keys.set_pair ⟨hvnka, ?_⟩ ⟨hvnkb, ?_⟩ hkeys,
    hkp.data.set_pair ⟨hvnpa, ?_⟩ ⟨hvnpb, ?_⟩ hdata⟩
  · simp only [compareSwapCarrying, outOfOrder, bind_eq_ok, if_pos]
    exact ⟨ka, hka, kb, hkb, pa, hpa, pb, hpb, s, hs, nka, hnka, nkb, hnkb, npa, hnpa, npb, hnpb,
      rfl⟩
  · rw [exchange_left, apply_ite Prod.fst, hxnka]
  · rw [exchange_right, apply_ite Prod.fst, hxnkb]
  · rw [exchange_left, apply_ite Prod.snd, hxnpa]
  · rw [exchange_right, apply_ite Prod.snd, hxnpb]

omit [LinearOrder α] in
theorem HoldsPairs.zip_eq {n : Nat} {kp : List K × List P} {x : Nat → α × π}
    (h : HoldsPairs validK valueK validP valueP n kp x) :
    (kp.1.map valueK).zip (kp.2.map valueP) = (List.range n).map x := by
  rw [h.keys.map_eq, h.data.map_eq, List.zip_map']

theorem batcherNetwork_orders_keys (n : Nat) (x : Nat → α × π) :
    Ordered n fun m => (run Prod.fst (batcherNetwork n) x m).1 := by
  have hkeys := comp_run id Prod.fst (batcherNetwork n) x
  have horder := batcherNetwork_orders n (Prod.fst ∘ x)
  rw [← hkeys] at horder
  exact horder

theorem sortByKey_ascending (h : Orders c opsK validK valueK)
    (hsel : Selects c select validP valueP) {keys : List K} {data : List P}
    (hlen : keys.length = data.length) (hk : ∀ a ∈ keys, validK a) (hp : ∀ a ∈ data, validP a) :
    ∃ r, sortByKey opsK select true keys data = .ok r ∧ r.1.length = r.2.length ∧
      (∀ a ∈ r.1, validK a) ∧ (∀ a ∈ r.2, validP a) ∧
      ((r.1.map valueK).zip (r.2.map valueP)).Perm ((keys.map valueK).zip (data.map valueP)) ∧
      (r.1.map valueK).Pairwise (· ≤ ·) := by
  have hsort : sortByKey opsK select true keys data =
      (batcherNetwork keys.length).foldlM (compareSwapCarrying opsK select true) (keys, data) := by
    rw [sortByKey, expecting, if_pos hlen]
    rfl
  rw [hsort]
  rcases keys with _ | ⟨k, keys⟩
  · obtain rfl := List.length_eq_zero_iff.mp hlen.symm
    refine ⟨([], []), ?_, rfl, List.forall_mem_nil _, List.forall_mem_nil _, List.Perm.refl _,
      List.Pairwise.nil⟩
    rw [List.length_nil, batcherNetwork_zero]
    rfl
  · obtain ⟨p, data, rfl⟩ := List.exists_cons_of_length_eq_add_one hlen.symm
    have : Inhabited α := ⟨valueK k⟩
    have : Inhabited π := ⟨valueP p⟩
    have hself : HoldsPairs validK valueK validP valueP (k :: keys).length (k :: keys, p :: data)
        fun m => (((k :: keys)[m]?.map valueK).getD default,
          ((p :: data)[m]?.map valueP).getD default) :=
      ⟨holds_self hk, hlen ▸ holds_self hp⟩
    obtain ⟨r, hr, hold⟩ := foldlM_run
      (R := HoldsPairs validK valueK validP valueP (k :: keys).length) Prod.fst
      (fun s x d hd hR => compareSwapCarrying_holds h hsel hR (batcherNetwork_inside _ d hd)) hself
    refine ⟨r, hr, hold.keys.length.trans hold.data.length.symm, hold.keys.all_valid,
      hold.data.all_valid, ?_, ?_⟩
    · rw [hold.zip_eq, hself.zip_eq]
      exact run_perm Prod.fst (batcherNetwork_inside _) _
    · rw [hold.keys.map_eq]
      exact Ordered.pairwise (batcherNetwork_orders_keys _ _)

structure SortsValues [LinearOrder α] (c : PlainContext Wire) (ops : SortOps Wire V)
    (valid : V → Prop) (value : V → α) : Prop where
  sort : ∀ (ascending : Bool) (v : List V), (∀ a ∈ v, valid a) →
    ∃ r, Circuits.sort ops ascending v = .ok r ∧ (r.map value).Perm (v.map value) ∧
      InOrder ascending (r.map value)
  sortByKey : ∀ {P π : Type} (select : P → Wire → P → Except String P) (validP : P → Prop)
    (valueP : P → π), Selects c select validP valueP →
    ∀ (ascending : Bool) (keys : List V) (data : List P), keys.length = data.length →
      (∀ a ∈ keys, valid a) → (∀ a ∈ data, validP a) →
      ∃ r, Circuits.sortByKey ops select ascending keys data = .ok r ∧ r.1.length = r.2.length ∧
        ((r.1.map value).zip (r.2.map valueP)).Perm ((keys.map value).zip (data.map valueP)) ∧
        InOrder ascending (r.1.map value)

theorem Orders.sortsValues (h : Orders c ops valid value) : SortsValues c ops valid value where
  sort ascending v hv := by
    cases ascending with
    | true =>
      obtain ⟨r, hr, -, hperm, horder⟩ := sort_ascending h hv
      exact ⟨r, hr, hperm, horder⟩
    | false =>
      obtain ⟨r, hr, -, hperm, horder⟩ := sort_ascending h.flip hv
      exact ⟨r, hr, hperm, List.pairwise_map.mpr (List.pairwise_map.mp horder)⟩
  sortByKey select validP valueP hsel ascending keys data hlen hk hp := by
    cases ascending with
    | true =>
      obtain ⟨r, hr, hrlen, -, -, hperm, horder⟩ := sortByKey_ascending h hsel hlen hk hp
      exact ⟨r, hr, hrlen, hperm, horder⟩
    | false =>
      obtain ⟨r, hr, hrlen, -, -, hperm, horder⟩ := sortByKey_ascending h.flip hsel hlen hk hp
      exact ⟨r, hr, hrlen, hperm, List.pairwise_map.mpr (List.pairwise_map.mp horder)⟩

end Sorting

section Instances

variable {Wire : Type} [Inhabited Wire] {n : Nat} (c : PlainContext Wire)

theorem UIntT.orders (hn : 0 < n) :
    Orders c (UIntT.sortOps c.toGateOps) (fun _ : UIntT Wire n => True) (Word.toNat c) where
  lt a b _ _ := ⟨_, rfl, Word.value_below c a b hn⟩
  select x s t _ _ := ⟨_, rfl, trivial, Word.toNat_select c x s t⟩

theorem Word.toInt_select (x : Word Wire n) (s : Wire) (t : Word Wire n) :
    (x.select c.toGateOps s t).toInt c = if c.value s then t.toInt c else x.toInt c := by
  rw [Word.toInt, Word.toBitVec_select, apply_ite BitVec.toInt]
  rfl

theorem IntT.orders (hn : 0 < n) :
    Orders c (IntT.sortOps c.toGateOps) (fun _ : IntT Wire n => True) (Word.toInt c) where
  lt a b _ _ := ⟨_, rfl, IntT.value_lt c hn a b⟩
  select x s t _ _ := ⟨_, rfl, trivial, Word.toInt_select c x s t⟩

omit [Inhabited Wire] in
theorem RuntimeWord.exists_of_width {a : RuntimeWord Wire} (h : a.width = n) :
    ∃ (pos : 1 ≤ n) (x : Word Wire n), a = ⟨n, pos, x⟩ := by
  subst h
  exact ⟨a.pos, a.word, rfl⟩

theorem UIntT.Runtime.orders (n : Nat) : Orders c (UIntT.Runtime.sortOps c.toGateOps)
    (fun x => x.width = n) fun x => x.word.toNat c where
  lt a b ha hb := by
    obtain ⟨pos, a, rfl⟩ := RuntimeWord.exists_of_width ha
    obtain ⟨_, b, rfl⟩ := RuntimeWord.exists_of_width hb
    exact ⟨_, RuntimeWord.compare_eq widths (fun _ => UIntT.lt c.toGateOps) pos a b,
      Word.value_below c a b pos⟩
  select x s t hx ht := by
    obtain ⟨pos, x, rfl⟩ := RuntimeWord.exists_of_width hx
    obtain ⟨_, t, rfl⟩ := RuntimeWord.exists_of_width ht
    exact ⟨_, RuntimeWord.binary_eq widths (fun _ x t => UIntT.select c.toGateOps x s t) pos x t,
      rfl, Word.toNat_select c x s t⟩

theorem IntT.Runtime.orders (n : Nat) : Orders c (IntT.Runtime.sortOps c.toGateOps)
    (fun x => x.width = n) fun x => x.word.toInt c where
  lt a b ha hb := by
    obtain ⟨pos, a, rfl⟩ := RuntimeWord.exists_of_width ha
    obtain ⟨_, b, rfl⟩ := RuntimeWord.exists_of_width hb
    exact ⟨_, RuntimeWord.compare_eq widths (fun _ => IntT.lt c.toGateOps) pos a b,
      IntT.value_lt c pos a b⟩
  select x s t hx ht := by
    obtain ⟨pos, x, rfl⟩ := RuntimeWord.exists_of_width hx
    obtain ⟨_, t, rfl⟩ := RuntimeWord.exists_of_width ht
    exact ⟨_, RuntimeWord.binary_eq widths (fun _ x t => IntT.select c.toGateOps x s t) pos x t,
      rfl, Word.toInt_select c x s t⟩

theorem batcher_network_sorts :
    (∀ n, 0 < n →
      SortsValues c (UIntT.sortOps c.toGateOps) (fun _ : UIntT Wire n => True) (Word.toNat c) ∧
      SortsValues c (IntT.sortOps c.toGateOps) (fun _ : IntT Wire n => True) (Word.toInt c)) ∧
    ∀ n,
      SortsValues c (UIntT.Runtime.sortOps c.toGateOps) (fun x => x.width = n)
        (fun x => x.word.toNat c) ∧
      SortsValues c (IntT.Runtime.sortOps c.toGateOps) (fun x => x.width = n)
        (fun x => x.word.toInt c) := by
  refine ⟨fun n hn => ⟨?_, ?_⟩, fun n => ⟨?_, ?_⟩⟩
  · exact (UIntT.orders c hn).sortsValues
  · exact (IntT.orders c hn).sortsValues
  · exact (UIntT.Runtime.orders c n).sortsValues
  · exact (IntT.Runtime.orders c n).sortsValues

theorem batcher_network_sorts_nibbles :
    ∃ r, sortByKey (UIntT.Runtime.sortOps clearCtx) (UIntT.Runtime.select clearCtx) false
        [nibble 3, nibble 9, nibble 3] [nibble 1, nibble 2, nibble 3] = .ok r ∧
      r.1.length = r.2.length ∧
        ((r.1.map fun x => x.word.toNat clearContext).zip
          (r.2.map fun x => x.word.toNat clearContext)).Perm [(3, 1), (9, 2), (3, 3)] ∧
        (r.1.map fun x => x.word.toNat clearContext).Pairwise (· ≥ ·) := by
  have hwidth (u v w : Nat) : ∀ a ∈ [nibble u, nibble v, nibble w], a.width = 4 := by
    intro a ha
    simp only [List.mem_cons, List.not_mem_nil, or_false] at ha
    rcases ha with rfl | rfl | rfl <;> rfl
  obtain ⟨r, hr, hlen, hperm, horder⟩ :=
    ((batcher_network_sorts clearContext).2 4).1.sortByKey (UIntT.Runtime.select clearCtx)
      (fun x => x.width = 4) (fun x => x.word.toNat clearContext)
      (UIntT.Runtime.orders clearContext 4).select false [nibble 3, nibble 9, nibble 3]
      [nibble 1, nibble 2, nibble 3] rfl (hwidth 3 9 3) (hwidth 1 2 3)
  exact ⟨r, hr, hlen, hperm, horder⟩

end Instances

end EmpTool.Circuits
