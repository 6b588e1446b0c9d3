import EmpTool.Crypto.AesNi
import Mathlib.Tactic.IntervalCases

namespace EmpTool.Crypto.AesNi

open Bits Circuits.Fips197 Recurrence

section Shuffles

-- a byte of the mask with its top bit set clears the byte of the result
def shuffleEpi8 (a mask : Block) : Block := blockOfBytes fun j =>
  if blockBytes mask j &&& 0x80 ≠ 0 then 0 else blockBytes a (blockBytes mask j &&& 0x0f).toNat

def slliEpi64 (a : Block) (count : UInt64) : Block := ⟨a.high <<< count, a.low <<< count⟩

def setEpi32 (e3 e2 e1 e0 : UInt32) : Block :=
  makeBlock (e3.toUInt64 <<< 32 ||| e2.toUInt64) (e1.toUInt64 <<< 32 ||| e0.toUInt64)

def slliEpi32 (a : Block) (count : UInt32) : Block :=
  setEpi32 ((a.high >>> 32).toUInt32 <<< count) (a.high.toUInt32 <<< count)
    ((a.low >>> 32).toUInt32 <<< count) (a.low.toUInt32 <<< count)

end Shuffles

section Schedule

def setRdKey (i r : Nat) (b : Block) (keys : Nat → AesKey) : Nat → AesKey :=
  Function.update keys i { rdKey := Function.update (keys i).rdKey r b }

def nextRdKey (con con3 mask key : Block) : Block :=
  let x2 := shuffleEpi8 key mask
  let aux := aesenclast x2 con
  let globAux := slliEpi64 key 32
  let key := globAux ^^^ key
  let globAux := shuffleEpi8 key con3
  let key := globAux ^^^ key
  aux ^^^ key

def ksRounds (numKeys : Nat) (con con3 mask : Block) (r : Nat) (keys : Nat → AesKey) :
    Nat → AesKey :=
  (List.range numKeys).foldl (fun keys i =>
    setRdKey i r (nextRdKey con con3 mask ((keys i).rdKey (r - 1))) keys) keys

def con : Block := setEpi32 1 1 1 1

def con2 : Block := setEpi32 0x1b 0x1b 0x1b 0x1b

def con3 : Block := setEpi32 0x07060504 0x07060504 0xffffffff 0xffffffff

def mask : Block := setEpi32 0x0c0f0e0d 0x0c0f0e0d 0x0c0f0e0d 0x0c0f0e0d

def aesOptKeySchedule (numKeys : Nat) (userKey : Nat → Block) (keys : Nat → AesKey) :
    Nat → AesKey :=
  let keys := (List.range numKeys).foldl (fun keys i => setRdKey i 0 (userKey i) keys) keys
  let (keys, _) := (List.range' 1 8).foldl
    (fun (keys, con) r => (ksRounds numKeys con con3 mask r keys, slliEpi32 con 1)) (keys, con)
  let keys := ksRounds numKeys con2 con3 mask 9 keys
  let con2 := slliEpi32 con2 1
  ksRounds numKeys con2 con3 mask 10 keys

def aesSetEncryptKey (userkey : Block) (key : AesKey) : AesKey :=
  aesOptKeySchedule 1 (fun _ => userkey) (fun _ => key) 0

end Schedule

def roundCon (r : Nat) : Block :=
  if r ≤ 8 then (fun c => slliEpi32 c 1)^[r - 1] con else (fun c => slliEpi32 c 1)^[r - 9] con2

def expandedKey (userKey : Block) : Nat → Block
  | 0 => userKey
  | r + 1 => nextRdKey (roundCon (r + 1)) con3 mask (expandedKey userKey r)

section Keys

-- every key is computed from its own round keys
theorem foldl_setRdKey (r : Nat) (f : Nat → AesKey → Block) (numKeys : Nat) (keys : Nat → AesKey)
    (i : Nat) :
    (List.range numKeys).foldl (fun keys i => setRdKey i r (f i (keys i)) keys) keys i =
      if i < numKeys then ⟨Function.update (keys i).rdKey r (f i (keys i))⟩ else keys i := by
  induction numKeys generalizing i with
  | zero => rfl
  | succ numKeys ih =>
    rw [List.range_succ, List.foldl_append]
    simp only [List.foldl_cons, List.foldl_nil]
    rw [setRdKey, ih numKeys, if_neg (Nat.lt_irrefl _), Function.update_apply, ih i]
    by_cases hi : i = numKeys
    · subst hi
      rw [if_pos rfl, if_pos (Nat.lt_succ_self i)]
    · have hlt : i < numKeys + 1 ↔ i < numKeys := by omega
      rw [if_neg hi]
      simp only [hlt]

theorem ksRounds_apply (numKeys : Nat) (con con3 mask : Block) (r : Nat) (keys : Nat → AesKey)
    (i : Nat) :
    ksRounds numKeys con con3 mask r keys i =
      if i < numKeys then
        ⟨Function.update (keys i).rdKey r (nextRdKey con con3 mask ((keys i).rdKey (r - 1)))⟩
      else keys i :=
  foldl_setRdKey r (fun _ kk => nextRdKey con con3 mask (kk.rdKey (r - 1))) numKeys keys i

def Expanded (numKeys : Nat) (userKey : Nat → Block) (old : Nat → AesKey) (n : Nat)
    (keys : Nat → AesKey) : Prop :=
  ∀ i r, (keys i).rdKey r =
    if i < numKeys ∧ r < n then expandedKey (userKey i) r else (old i).rdKey r

variable {numKeys : Nat} {userKey : Nat → Block} {old keys : Nat → AesKey} {n : Nat}

theorem expanded_first :
    Expanded numKeys userKey old 1
      ((List.range numKeys).foldl (fun keys i => setRdKey i 0 (userKey i) keys) old) := by
  intro i r
  rw [foldl_setRdKey 0 (fun i _ => userKey i) numKeys old i]
  split
  case isTrue hi =>
    rcases Nat.eq_zero_or_pos r with rfl | hr
    · rw [if_pos ⟨hi, Nat.zero_lt_one⟩]
      exact Function.update_self 0 (userKey i) (old i).rdKey
    · rw [if_neg fun h => absurd h.2 (by omega)]
      exact Function.update_of_ne (Nat.ne_of_gt hr) (userKey i) (old i).rdKey
  case isFalse hi => rw [if_neg fun h => hi h.1]

theorem Expanded.next (h : Expanded numKeys userKey old n keys) (hn : 0 < n) :
    Expanded numKeys userKey old (n + 1)
      (ksRounds numKeys (roundCon n) con3 mask n keys) := by
  intro i r
  rw [ksRounds_apply]
  split
  case isTrue hi =>
    have hlast : (keys i).rdKey (n - 1) = expandedKey (userKey i) (n - 1) := by
      rw [h i (n - 1), if_pos ⟨hi, by omega⟩]
    by_cases hr : r = n
    · subst hr
      obtain ⟨m, rfl⟩ : ∃ m, r = m + 1 := ⟨r - 1, by omega⟩
      rw [if_pos ⟨hi, Nat.lt_succ_self _⟩, hlast]
      exact Function.update_self ..
    · have hlt : r < n + 1 ↔ r < n := by omega
      have hkept := h i r
      simp only [← hlt] at hkept
      exact (Function.update_of_ne hr _ _).trans hkept
  case isFalse hi =>
    rw [h i r, if_neg fun h => hi h.1, if_neg fun h => hi h.1]

-- the loop's constant is one doubling ahead of the last round
theorem expanded_doubling (h : Expanded numKeys userKey old 1 keys) {m : Nat} (hm : m ≤ 8) :
    ∃ keys', (List.range' 1 m).foldl
        (fun (keys, con) r => (ksRounds numKeys con con3 mask r keys, slliEpi32 con 1))
        (keys, con) = (keys', (fun c => slliEpi32 c 1)^[m] con) ∧
      Expanded numKeys userKey old (m + 1) keys' := by
  induction m with
  | zero => exact ⟨keys, rfl, h⟩
  | succ m ih =>
    obtain ⟨keys', hfold, hexpanded⟩ := ih (by omega)
    have hcon : roundCon (m + 1) = (fun c => slliEpi32 c 1)^[m] con := by
      rw [roundCon, if_pos hm, Nat.add_sub_cancel]
    refine ⟨_, ?_, hexpanded.next (Nat.succ_pos m)⟩
    rw [List.range'_concat, List.foldl_append, hfold, Nat.one_mul, Nat.add_comm 1 m, hcon,
      Function.iterate_succ_apply']
    rfl

theorem expanded_schedule :
    Expanded numKeys userKey old 11 (aesOptKeySchedule numKeys userKey old) := by
  obtain ⟨keys, hfold, hexpanded⟩ :=
    expanded_doubling (@expanded_first numKeys userKey old) (Nat.le_refl 8)
  rw [aesOptKeySchedule, hfold]
  exact (hexpanded.next (by decide)).next (by decide)

end Keys

section Columns

theorem getElem_column (b : Block) (c : Nat) {r : Nat} (hr : r < 4) :
    (column b c)[r] = (blockBytes b (4 * c + r)).toBitVec := by
  simp [column]

theorem byteAt64_shiftLeft (x : UInt64) {j : Nat} (hj : j < 8) :
    byteAt64 (x <<< 32) j = if j < 4 then 0 else byteAt64 x (j - 4) := by
  have hshift : (32 : UInt64).toNat % 64 = 32 := rfl
  refine UInt8.toNat_inj.mp (nat_eq_of_testBit (UInt8.toNat_lt _) (UInt8.toNat_lt _) fun k hk => ?_)
  rw [byteAt64_testBit _ hj hk, UInt64.toNat_shiftLeft, hshift, Nat.testBit_mod_two_pow,
    Nat.testBit_shiftLeft]
  split
  case isTrue hlow =>
    have hnot : ¬ 32 ≤ 8 * j + k := by omega
    simp [hnot]
  case isFalse hhigh =>
    have hpos : 8 * j + k - 32 = 8 * (j - 4) + k := by omega
    have hlt : 8 * j + k < 64 := by omega
    have hge : 32 ≤ 8 * j + k := by omega
    rw [byteAt64_testBit x (by omega) hk, hpos]
    simp [hlt, hge]

theorem blockBytes_slliEpi64 (a : Block) {j : Nat} (hj : j < 16) :
    blockBytes (slliEpi64 a 32) j = if j % 8 < 4 then 0 else blockBytes a (j - 4) := by
  rw [blockBytes, blockBytes, slliEpi64]
  by_cases hlow : j < 8
  · rw [if_pos hlow, byteAt64_shiftLeft _ hlow, Nat.mod_eq_of_lt hlow,
      if_pos (by omega : j - 4 < 8)]
  · have hmod : j % 8 = j - 8 := by omega
    rw [if_neg hlow, byteAt64_shiftLeft _ (by omega), hmod]
    split
    case isTrue => rfl
    case isFalse =>
      have hpos : j - 8 - 4 = j - 4 - 8 := by omega
      rw [if_neg (by omega), hpos]

theorem blockBytes_rotated (a : Block) {j : Nat} (hj : j < 16) :
    blockBytes (shuffleEpi8 a mask) j = blockBytes a (12 + (j + 1) % 4) := by
  have hmask : ∀ j < 16, blockBytes mask j &&& 0x80 = 0 ∧
      (blockBytes mask j &&& 0x0f).toNat = 12 + (j + 1) % 4 := by decide
  rw [shuffleEpi8, blockBytes_blockOfBytes _ hj, if_neg (not_not.mpr (hmask j hj).1),
    (hmask j hj).2]

theorem blockBytes_spread (a : Block) {j : Nat} (hj : j < 16) :
    blockBytes (shuffleEpi8 a con3) j = if j < 8 then 0 else blockBytes a (4 + j % 4) := by
  have hcon3 : ∀ j < 16, if j < 8 then blockBytes con3 j &&& 0x80 ≠ 0 else
      blockBytes con3 j &&& 0x80 = 0 ∧ (blockBytes con3 j &&& 0x0f).toNat = 4 + j % 4 := by decide
  have hat := hcon3 j hj
  rw [shuffleEpi8, blockBytes_blockOfBytes _ hj]
  split at hat
  case isTrue hlow => rw [if_pos hat, if_pos hlow]
  case isFalse hhigh => rw [if_neg (not_not.mpr hat.1), if_neg hhigh, hat.2]

theorem column_roundCon : ∀ r < 11, 0 < r → ∀ c < 4, column (roundCon r) c = rcon r := by
  decide

-- the shift and the shuffle together leave the running sum of the columns
def columnSum (key : Block) (r : Nat) : Nat → UInt8
  | 0 => blockBytes key r
  | c + 1 => columnSum key r c ^^^ blockBytes key (4 * (c + 1) + r)

theorem blockBytes_summed (key : Block) {c r : Nat} (hc : c < 4) (hr : r < 4) :
    blockBytes (shuffleEpi8 (slliEpi64 key 32 ^^^ key) con3 ^^^ (slliEpi64 key 32 ^^^ key))
      (4 * c + r) = columnSum key r c := by
  have hmod : (4 * c + r) % 4 = r := by omega
  rw [blockBytes_xor, blockBytes_spread _ (by omega), blockBytes_xor, blockBytes_xor,
    blockBytes_slliEpi64 _ (by omega), blockBytes_slliEpi64 _ (by omega), hmod]
  interval_cases c
  · simp (disch := omega) only [if_pos]
    simp [columnSum]
  · simp (disch := omega) only [if_pos, if_neg]
    simp [columnSum]
  · simp (disch := omega) only [if_pos, if_neg]
    simp [columnSum]
  · have hback : 4 * 3 + r - 4 = 8 + r := by omega
    simp (disch := omega) only [if_neg, hback]
    simp [columnSum, UInt8.xor_assoc]

theorem blockBytes_subWord (key con : Block) {c r : Nat} (hc : c < 4) (hr : r < 4) :
    (blockBytes (aesenclast (shuffleEpi8 key mask) con) (4 * c + r)).toBitVec =
      (quadXor (subWord (rotWord (column key 3))) (column con c))[r] := by
  have hbyte (c : Fin 4) :
      (stateOf (shuffleEpi8 key mask)).entry ⟨r, hr⟩ c = (rotWord (column key 3))[r] := by
    have hrot : (4 * c.val + r + 1) % 4 = (r + 1) % 4 := by omega
    rw [entry_stateOf, blockBytes_rotated key (by omega), hrot, rotWord]
    simp [column, Fin.val_add]
  have hsub : (stateOf (blockOfState (subBytes (shiftRows (stateOf (shuffleEpi8 key mask)))))).entry
      ⟨r, hr⟩ ⟨c, hc⟩ = (subWord (rotWord (column key 3)))[r] := by
    rw [stateOf_blockOfState, subBytes, entry_build, shiftRows, entry_build, hbyte, subWord]
    simp
  rw [entry_stateOf] at hsub
  rw [aesenclast, blockBytes_xor, UInt8.toBitVec_xor, hsub, quadXor]
  simp [column]

theorem getElem_column_nextRdKey (con key : Block) {c r : Nat} (hc : c < 4) (hr : r < 4) :
    (column (nextRdKey con con3 mask key) c)[r] =
      (quadXor (subWord (rotWord (column key 3))) (column con c))[r] ^^^
        (columnSum key r c).toBitVec := by
  rw [getElem_column, nextRdKey, blockBytes_xor, UInt8.toBitVec_xor,
    blockBytes_subWord key con hc hr, blockBytes_summed key hc hr]

theorem getElem_quadXor (v w : Quad) {r : Nat} (hr : r < 4) :
    (quadXor v w)[r] = v[r] ^^^ w[r] := by
  simp [quadXor]

theorem column_first {con key : Block} {word : Quad} (hcon : ∀ c < 4, column con c = word) :
    column (nextRdKey con con3 mask key) 0 =
      quadXor (column key 0) (quadXor (subWord (rotWord (column key 3))) word) := by
  apply Vector.ext
  intro r hr
  rw [getElem_column_nextRdKey con key (by decide) hr, hcon 0 (by decide), BitVec.xor_comm,
    getElem_quadXor (column key 0) _ hr, getElem_column]
  simp [columnSum]

theorem column_later {con key : Block} {word : Quad} (hcon : ∀ c < 4, column con c = word) {c : Nat}
    (hc : c + 1 < 4) :
    column (nextRdKey con con3 mask key) (c + 1) =
      quadXor (column key (c + 1)) (column (nextRdKey con con3 mask key) c) := by
  apply Vector.ext
  intro r hr
  rw [getElem_quadXor _ _ hr, getElem_column_nextRdKey con key hc hr,
    getElem_column_nextRdKey con key (by omega) hr, hcon _ hc, hcon c (by omega), columnSum,
    UInt8.toBitVec_xor, ← BitVec.xor_assoc, BitVec.xor_comm, getElem_column]

end Columns

section Expansion

def expandedWord (userKey : Block) (i : Nat) : Quad := column (expandedKey userKey (i / 4)) (i % 4)

theorem expandedWord_step (userKey : Block) {i : Nat} (hlow : 4 ≤ i) (hi : i < 44) :
    expandedWord userKey i =
      nextWord i (expandedWord userKey (i - 4)) (expandedWord userKey (i - 1)) := by
  obtain ⟨m, hm⟩ : ∃ m, i / 4 = m + 1 := ⟨i / 4 - 1, by omega⟩
  have hcon : ∀ c < 4, column (roundCon (m + 1)) c = rcon (m + 1) :=
    column_roundCon (m + 1) (by omega) (Nat.succ_pos m)
  have hfour : (i - 4) / 4 = m := by omega
  have hmod : (i - 4) % 4 = i % 4 := by omega
  rw [expandedWord, expandedWord, expandedWord, hm, hfour, hmod, expandedKey, nextWord]
  split
  case isTrue hfirst =>
    have hback : (i - 1) / 4 = m := by omega
    have hlast : (i - 1) % 4 = 3 := by omega
    rw [hfirst, hm, hback, hlast, column_first hcon]
  case isFalse hlater =>
    have hback : (i - 1) / 4 = m + 1 := by omega
    obtain ⟨c, hc⟩ : ∃ c, i % 4 = c + 1 := ⟨i % 4 - 1, by omega⟩
    have hprev : (i - 1) % 4 = c := by omega
    rw [hback, hprev, hc, column_later hcon (by omega), expandedKey]

theorem keyExpansion_stateOf (userKey : Block) :
    keyExpansion (stateOf userKey) = (List.range 44).map (expandedWord userKey) := by
  refine grow_expand fun i hi => ?_
  split
  case isTrue hlow =>
    have hdiv : i / 4 = 0 := by omega
    have hmod : i % 4 = i := by omega
    rw [expandedWord, hdiv, hmod, expandedKey]
    apply Vector.ext
    intro r hr
    have hsmall : (4 * i + r) % 16 = 4 * i + r := by omega
    simp [column, stateOf, Fin.ofNat, hsmall]
  case isFalse hlow => exact expandedWord_step userKey (by omega) hi

def roundKey (w : List Quad) (r : Nat) : Block :=
  blockOfState (State.build fun b c => (w.getD (4 * r + c) default).get b)

theorem roundKey_keyExpansion (userKey : Block) {r : Nat} (hr : r < 11) :
    roundKey (keyExpansion (stateOf userKey)) r = expandedKey userKey r := by
  have hstate : (State.build fun b c =>
      ((keyExpansion (stateOf userKey)).getD (4 * r + c) default).get b) =
      stateOf (expandedKey userKey r) := by
    apply state_ext
    intro b c
    have hdiv : (4 * r + c.val) / 4 = r := by omega
    have hmod : (4 * r + c.val) % 4 = c.val := by omega
    rw [entry_build, keyExpansion_stateOf, getD_map_range _ (by omega), expandedWord, hdiv, hmod,
      entry_stateOf]
    exact getElem_column _ _ b.isLt
  rw [roundKey, hstate, blockOfState_stateOf]

theorem roundWords_schedule {numKeys i : Nat} (hi : i < numKeys) (userKey : Nat → Block)
    (keys : Nat → AesKey) :
    roundWords (aesOptKeySchedule numKeys userKey keys i) = keyExpansion (stateOf (userKey i)) := by
  rw [keyExpansion_stateOf, roundWords]
  refine List.map_congr_left fun j hj => ?_
  have hround : j / 4 < 11 := by
    rw [List.mem_range] at hj
    omega
  rw [roundWord, expandedWord, expanded_schedule i (j / 4), if_pos ⟨hi, hround⟩]

theorem aes_opt_key_schedule_expands (numKeys : Nat) (userKey : Nat → Block) (keys : Nat → AesKey)
    (i r : Nat) :
    (aesOptKeySchedule numKeys userKey keys i).rdKey r =
      if i < numKeys ∧ r < 11 then roundKey (keyExpansion (stateOf (userKey i))) r
      else (keys i).rdKey r := by
  rw [expanded_schedule i r]
  split
  case isTrue h => rw [roundKey_keyExpansion _ h.2]
  case isFalse => rfl

end Expansion

end EmpTool.Crypto.AesNi
