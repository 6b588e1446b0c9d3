import EmpTool.Circuits.Crypto.Keccak

namespace EmpTool.Circuits.Crypto

open Fips202 Recurrence Word
open EmpTool.Ir (GateOps)

variable {Wire : Type} [Inhabited Wire]

def sha3StateBitIndex (idx : Nat) : Nat :=
  let byteJ := idx / 8
  let bitK := idx % 8
  let lane := byteJ / 8
  let x := lane % 5
  let y := lane / 5
  let z := 8 * (byteJ % 8) + bitK
  64 * (5 * y + x) + z

structure Sponge (Wire : Type) where
  S : Word Wire 1600
  index : Nat

section

variable (c : GateOps Wire)

def sha3Permute (S : Word Wire 1600) : Word Wire 1600 :=
  let A : Lanes Wire := fill fun l => S.slice (64 * l) 64
  let A := keccakF1600 c A
  fill fun i => (A.wire (i / 64)).wire (i % 64)

def sha3Absorb (bit : Wire) (s : Sponge Wire) : Sponge Wire :=
  let k := sha3StateBitIndex s.index
  let S := s.S.set k (c.xorGate (s.S.wire k) bit)
  if s.index + 1 = 1088 then ⟨sha3Permute c S, 0⟩ else ⟨S, s.index + 1⟩

def toggleBit (S : Word Wire 1600) (k : Nat) : Word Wire 1600 := S.set k (c.notGate (S.wire k))

def sha3_256Wires {n : Nat} (inp : Word Wire (8 * n)) : Word Wire 256 :=
  let s := (List.range (8 * n)).foldl (fun s j => sha3Absorb c (inp.wire j) s)
    ⟨fill fun _ => c.publicBit false, 0⟩
  let index := 8 * ((s.index + 7) / 8)
  let S := toggleBit c s.S (sha3StateBitIndex (index + 1))
  let S := toggleBit c S (sha3StateBitIndex (index + 2))
  let S := toggleBit c S 1087
  let S := sha3Permute c S
  fill fun i => S.wire (sha3StateBitIndex i)

end

theorem sha3StateBitIndex_eq (idx : Nat) : sha3StateBitIndex idx = idx := by
  rw [sha3StateBitIndex]
  omega

variable (c : PlainContext Wire)

def stateOf (S : Word Wire 1600) : State := Vector.ofFn fun k => c.value (S.wire k)

theorem getElem_stateOf (S : Word Wire 1600) {k : Nat} (hk : k < 1600) :
    (stateOf c S)[k] = c.value (S.wire k) := Vector.getElem_ofFn hk

def bitString {N : Nat} (x : Word Wire N) : List Bool :=
  (List.range N).map fun i => c.value (x.wire i)

theorem stateOf_sha3Permute (S : Word Wire 1600) :
    stateOf c (sha3Permute c.toGateOps S) = keccakF (stateOf c S) := by
  have hin : lanesState c (fill fun l => S.slice (64 * l) 64) = stateOf c S := by
    apply Vector.ext
    intro i hi
    rw [lanesState, stateOf, Vector.getElem_ofFn, Vector.getElem_ofFn, wire_fill _ (by omega),
      wire_slice _ _ (Nat.mod_lt i (by decide)), Nat.div_add_mod]
  rw [← hin, ← lanesState_keccakF1600]
  apply Vector.ext
  intro i hi
  rw [stateOf, lanesState, Vector.getElem_ofFn, Vector.getElem_ofFn, sha3Permute, wire_fill _ hi]

theorem stateOf_sha3Absorb {p : List Bool} {s : Sponge Wire} {bit : Wire} {j : Nat}
    (hindex : s.index = j % 1088)
    (hstate : stateOf c s.S = addBits (absorb p (j / 1088)) p (j / 1088) (j % 1088))
    (hbit : c.value bit = p.getD j false) :
    (sha3Absorb c.toGateOps bit s).index = (j + 1) % 1088 ∧
      stateOf c (sha3Absorb c.toGateOps bit s).S =
        addBits (absorb p ((j + 1) / 1088)) p ((j + 1) / 1088) ((j + 1) % 1088) := by
  have hpos : rate * (j / 1088) + j % 1088 = j := Nat.div_add_mod j 1088
  have hset : stateOf c (s.S.set s.index (c.xorGate (s.S.wire s.index) bit)) =
      addBits (absorb p (j / 1088)) p (j / 1088) (j % 1088 + 1) := by
    apply Vector.ext
    intro k hk
    have hold := congrArg (fun v : State => v[k]) hstate
    simp only [getElem_stateOf c _ hk, getElem_addBits _ _ _ _ hk] at hold
    rw [getElem_stateOf c _ hk, getElem_addBits _ _ _ _ hk, wire_set _ _ _ hk]
    by_cases hsame : s.index = k
    · rw [if_pos hsame, c.value_xorGate, hsame, hold, hbit]
      have hk' : k = j % 1088 := by omega
      simp [hk', hpos]
    · rw [if_neg hsame, hold]
      congr 2
      simp only [decide_eq_decide]
      omega
  rw [sha3Absorb, sha3StateBitIndex_eq]
  split
  case isTrue hfull =>
    have hdiv : (j + 1) / 1088 = j / 1088 + 1 := by omega
    have hmod : (j + 1) % 1088 = 0 := by omega
    rw [hdiv, hmod, addBits_zero, absorb_succ, stateOf_sha3Permute, hset,
      show j % 1088 + 1 = 1088 by omega]
    exact ⟨rfl, rfl⟩
  case isFalse hmore =>
    have hdiv : (j + 1) / 1088 = j / 1088 := by omega
    have hmod : (j + 1) % 1088 = j % 1088 + 1 := by omega
    rw [hdiv, hmod]
    exact ⟨by rw [hindex], hset⟩

theorem length_bitString {N : Nat} (x : Word Wire N) : (bitString c x).length = N := by
  rw [bitString, List.length_map, List.length_range]

theorem getElem_bitString {N : Nat} (x : Word Wire N) {i : Nat} (hi : i < (bitString c x).length) :
    (bitString c x)[i] = c.value (x.wire i) := by
  simp only [bitString, List.getElem_map, List.getElem_range]

theorem stateOf_absorbLoop {n : Nat} (inp : Word Wire (8 * n)) {j : Nat} (hj : j ≤ 8 * n) :
    let p := pad (bitString c inp ++ [false, true])
    let s := (List.range j).foldl (fun s j => sha3Absorb c.toGateOps (inp.wire j) s)
      ⟨fill fun _ => c.publicBit false, 0⟩
    s.index = j % 1088 ∧
      stateOf c s.S = addBits (absorb p (j / 1088)) p (j / 1088) (j % 1088) := by
  induction j with
  | zero =>
    refine ⟨rfl, ?_⟩
    rw [Nat.zero_mod, addBits_zero]
    apply Vector.ext
    intro k hk
    rw [getElem_stateOf c _ hk, List.range_zero, List.foldl_nil, wire_fill _ hk,
      c.value_publicBit]
    simp [absorb]
  | succ j ih =>
    obtain ⟨hindex, hstate⟩ := ih (by omega)
    rw [List.range_succ, List.foldl_concat]
    refine stateOf_sha3Absorb c hindex hstate ?_
    have hlt : j < 8 * n := by omega
    rw [getD_pad, length_bitString, if_pos hlt]
    exact (getD_map_range (fun i => c.value (inp.wire i)) hlt false).symm

theorem value_toggleBit (S : Word Wire 1600) (a : Nat) {k : Nat} (hk : k < 1600) :
    c.value ((toggleBit c.toGateOps S a).wire k) = (c.value (S.wire k) ^^ decide (a = k)) := by
  rw [toggleBit, wire_set _ _ _ hk]
  split
  case isTrue h => rw [c.value_notGate, h, decide_eq_true rfl, Bool.xor_true]
  case isFalse h => rw [decide_eq_false h, Bool.xor_false]

-- the suffix and both ends of the padding fall in the block that is being filled
theorem getD_lastBlock (m : List Bool) (hbytes : m.length % 8 = 0) {k : Nat} (hk : k < 1088) :
    (pad (m ++ [false, true])).getD (rate * (m.length / 1088) + k) false =
      if k < m.length % 1088 then m.getD (rate * (m.length / 1088) + k) false
      else decide (m.length % 1088 + 1 = k ∨ m.length % 1088 + 2 = k ∨ 1087 = k) := by
  rw [getD_pad, rate]
  by_cases hmsg : k < m.length % 1088
  · rw [if_pos hmsg, if_pos (by omega)]
  · rw [if_neg hmsg, if_neg (by omega), decide_eq_decide]
    omega

theorem xor_positions {a b c : Nat} (hab : a < b) (hbc : b < c) (k : Nat) :
    (decide (a = k) ^^ decide (b = k) ^^ decide (c = k)) = decide (a = k ∨ b = k ∨ c = k) := by
  have hnab : ¬(a = k ∧ b = k) := by omega
  have hnac : ¬(a = k ∧ c = k) := by omega
  have hnbc : ¬(b = k ∧ c = k) := by omega
  by_cases ha : a = k <;> by_cases hb : b = k <;> by_cases hc : c = k <;> simp_all

theorem stateOf_toggled {m : List Bool} {N : Nat} (hlen : m.length = N) (hbytes : N % 8 = 0)
    {S : Word Wire 1600}
    (hstate : stateOf c S = addBits (absorb (pad (m ++ [false, true])) (N / 1088))
      (pad (m ++ [false, true])) (N / 1088) (N % 1088)) :
    stateOf c (toggleBit c.toGateOps (toggleBit c.toGateOps (toggleBit c.toGateOps S
      (N % 1088 + 1)) (N % 1088 + 2)) 1087) =
        xorBlock (absorb (pad (m ++ [false, true])) (N / 1088)) (pad (m ++ [false, true]))
          (N / 1088) := by
  subst hlen
  apply Vector.ext
  intro k hk
  have hold := congrArg (fun v : State => v[k]) hstate
  simp only [getElem_stateOf c _ hk, getElem_addBits _ _ _ _ hk] at hold
  rw [getElem_stateOf c _ hk, xorBlock, getElem_addBits _ _ _ _ hk, value_toggleBit c _ _ hk,
    value_toggleBit c _ _ hk, value_toggleBit c _ _ hk, hold]
  by_cases hrate : k < rate
  · rw [decide_eq_true hrate, Bool.true_and, getD_lastBlock m hbytes hrate]
    by_cases hmsg : k < m.length % 1088
    · rw [decide_eq_true hmsg, Bool.true_and, if_pos hmsg, decide_eq_false (by omega),
        decide_eq_false (by omega), decide_eq_false (by omega), Bool.xor_false, Bool.xor_false,
        Bool.xor_false]
    · rw [decide_eq_false hmsg, Bool.false_and, if_neg hmsg, Bool.xor_false,
        ← xor_positions (by omega) (by omega) k]
      simp only [Bool.xor_assoc]
  · have hbeyond : ¬k < 1088 := hrate
    rw [decide_eq_false hrate, Bool.false_and, decide_eq_false (by omega), Bool.false_and,
      decide_eq_false (by omega), decide_eq_false (by omega), decide_eq_false (by omega),
      Bool.xor_false, Bool.xor_false, Bool.xor_false]

theorem blocks_pad {m : List Bool} {N : Nat} (hlen : m.length = N) (hbytes : N % 8 = 0) :
    (pad (m ++ [false, true])).length / rate = N / 1088 + 1 := by
  rw [length_pad, rate]
  omega

theorem sha3_256_circuit_exact {n : Nat} (inp : Word Wire (8 * n)) :
    bitString c (sha3_256Wires c.toGateOps inp) = sha3_256 (bitString c inp) := by
  have hlen : (bitString c inp).length = 8 * n := length_bitString c inp
  have hbytes : 8 * n % 8 = 0 := Nat.mul_mod_right 8 n
  obtain ⟨hindex, hstate⟩ := stateOf_absorbLoop c inp (Nat.le_refl (8 * n))
  have hbyte : 8 * ((8 * n % 1088 + 7) / 8) = 8 * n % 1088 := by omega
  have hpadded := stateOf_toggled c hlen hbytes hstate
  have hfinal := congrArg keccakF hpadded
  rw [← absorb_succ, ← blocks_pad hlen hbytes, ← stateOf_sha3Permute] at hfinal
  rw [sha3_256, ← hfinal]
  apply List.ext_getElem
  · rw [length_bitString, List.length_take, Vector.length_toList]
    rfl
  · intro i hi _
    have hi' : i < 256 := length_bitString c (sha3_256Wires c.toGateOps inp) ▸ hi
    rw [getElem_bitString, List.getElem_take, Vector.getElem_toList, getElem_stateOf, sha3_256Wires,
      wire_fill _ hi', hindex, hbyte]
    simp only [sha3StateBitIndex_eq]

end EmpTool.Circuits.Crypto
