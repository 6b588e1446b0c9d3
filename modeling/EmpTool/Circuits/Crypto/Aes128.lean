import EmpTool.Circuits.Crypto.AesSbox

namespace EmpTool.Circuits.Crypto

open Binary Fips197 Word
open EmpTool.Ir (GateOps)

variable {Wire : Type} [Inhabited Wire]

def rconTable : List Byte :=
  [0x00, 0x01, 0x02, 0x04, 0x08, 0x10, 0x20, 0x40, 0x80, 0x1b, 0x36]

section

variable (c : GateOps Wire)

-- a constant is folded in with NOT gates
def toggleByte (x : Word Wire 32) (v : Byte) : Word Wire 32 :=
  fill fun k => if k < 8 ∧ v.getLsbD k then c.notGate (x.wire k) else x.wire k

def nextRoundKey (r : Nat) (prev : Word Wire 128) : Word Wire 128 :=
  let tmp : Word Wire 32 := fillBytes fun b => prev.byte (12 + (b + 1) % 4)
  let tmp : Word Wire 32 := fillBytes fun b => aesSbox c (tmp.byte b)
  let tmp := toggleByte c tmp (rconTable.getD r 0)
  let cur : Word Wire 128 := fill fun _ => default
  let cur := cur.store 0 ((prev.slice 0 32).bitXor c tmp)
  (List.range 3).foldl (fun cur w =>
    cur.store ((w + 1) * 32) ((cur.slice (w * 32) 32).bitXor c (prev.slice ((w + 1) * 32) 32))) cur

def keyRounds (key : Word Wire 128) (n : Nat) : Word Wire 1408 :=
  let expanded : Word Wire 1408 := fill fun _ => default
  (List.range n).foldl (fun expanded i =>
    expanded.store ((i + 1) * 128) (nextRoundKey c (i + 1) (expanded.slice (i * 128) 128)))
    (expanded.store 0 key)

def aes128KeySchedule (key : Word Wire 128) : Word Wire 1408 := keyRounds c key 10

def mixColumn (a b cc d : Word Wire 8) (row : Nat) : Word Wire 8 :=
  let t := (a.bitXor c b).bitXor c (cc.bitXor c d)
  let xab := aesXtime c (a.bitXor c b)
  let xbc := aesXtime c (b.bitXor c cc)
  let xcd := aesXtime c (cc.bitXor c d)
  let xda := aesXtime c (d.bitXor c a)
  match row with
  | 0 => a.bitXor c (t.bitXor c xab)
  | 1 => b.bitXor c (t.bitXor c xbc)
  | 2 => cc.bitXor c (t.bitXor c xcd)
  | _ => d.bitXor c (t.bitXor c xda)

def aesRound (r : Nat) (expandedKey : Word Wire 1408) (state : Word Wire 128) : Word Wire 128 :=
  let state : Word Wire 128 := fillBytes fun b => aesSbox c (state.byte b)
  let shifted : Word Wire 128 := fillBytes fun j =>
    state.byte (4 * ((j / 4 + j % 4) % 4) + j % 4)
  let state := shifted
  let mixed : Word Wire 128 := fillBytes fun j =>
    let col := j / 4 * 4
    mixColumn c (state.byte col) (state.byte (col + 1)) (state.byte (col + 2)) (state.byte (col + 3))
      (j % 4)
  let state := if r ≠ 10 then mixed else state
  state.bitXor c (expandedKey.slice (r * 128) 128)

def aes128EncryptBlock (plaintext : Word Wire 128) (expandedKey : Word Wire 1408) : Word Wire 128 :=
  let state := plaintext.bitXor c (expandedKey.slice 0 128)
  (List.range 10).foldl (fun state i => aesRound c (i + 1) expandedKey state) state

def aes128Encrypt (plaintext key : Word Wire 128) : Word Wire 128 :=
  aes128EncryptBlock c plaintext (aes128KeySchedule c key)

end

variable (c : PlainContext Wire)

-- the bytes of a block in natural order, the lowest bit of a byte first
def blockOf (x : Word Wire 128) : State := Vector.ofFn fun j => (x.byte j).toBitVec c

def keyWord {n : Nat} (x : Word Wire n) (i : Nat) : Quad :=
  Vector.ofFn fun b => (x.byte (4 * i + b)).toBitVec c

@[simp] theorem entry_blockOf (x : Word Wire 128) (r col : Fin 4) :
    (blockOf c x).entry r col = (x.byte (4 * col + r)).toBitVec c := by
  rw [State.entry, blockOf, Vector.getElem_ofFn]

theorem blockOf_eq_build {x : Word Wire 128} {f : Fin 4 → Fin 4 → Byte}
    (h : ∀ r col : Fin 4, (x.byte (4 * col + r)).toBitVec c = f r col) :
    blockOf c x = State.build f := by
  apply Vector.ext
  intro j hj
  have hj' : 4 * (j / 4) + j % 4 = j := by omega
  rw [blockOf, State.build, Vector.getElem_ofFn, Vector.getElem_ofFn, ← h]
  simp only [hj']

theorem blockOf_subBytes (x : Word Wire 128) :
    blockOf c (fillBytes fun b => aesSbox c.toGateOps (x.byte b)) = subBytes (blockOf c x) := by
  apply blockOf_eq_build
  intro r col
  rw [byte_fillBytes _ (by omega), toBitVec_aesSbox, entry_blockOf]

theorem blockOf_shiftRows (x : Word Wire 128) :
    blockOf c (fillBytes fun j => x.byte (4 * ((j / 4 + j % 4) % 4) + j % 4)) =
      shiftRows (blockOf c x) := by
  apply blockOf_eq_build
  intro r col
  have hrow : (4 * col.val + r.val) % 4 = r.val := by omega
  have hcol : (4 * col.val + r.val) / 4 = col.val := by omega
  rw [byte_fillBytes _ (by omega), entry_blockOf, hrow, hcol, Fin.val_add]

-- the sum of the whole column stands in for the three bytes that the product leaves out
theorem toBitVec_mixRow {t p q s u : Word Wire 8}
    (ht : t.toBitVec c = p.toBitVec c ^^^ q.toBitVec c ^^^ (s.toBitVec c ^^^ u.toBitVec c)) :
    (p.bitXor c.toGateOps (t.bitXor c.toGateOps (aesXtime c.toGateOps
      (p.bitXor c.toGateOps q)))).toBitVec c =
        mul 2 (p.toBitVec c) ^^^ mul 3 (q.toBitVec c) ^^^ s.toBitVec c ^^^ u.toBitVec c := by
  have hgroup (p q s u x y : Byte) :
      p ^^^ (p ^^^ q ^^^ (s ^^^ u) ^^^ (x ^^^ y)) = p ^^^ p ^^^ (x ^^^ (y ^^^ q) ^^^ s ^^^ u) := by
    ac_rfl
  simp only [toBitVec_bitXor, toBitVec_aesXtime, ht, xtime_xor, two_mul, three_mul]
  rw [hgroup, BitVec.xor_self, BitVec.zero_xor]

theorem toBitVec_mixColumn (x : Fin 4 → Word Wire 8) (r : Fin 4) :
    (mixColumn c.toGateOps (x 0) (x 1) (x 2) (x 3) r).toBitVec c =
      mul 2 ((x r).toBitVec c) ^^^ mul 3 ((x (r + 1)).toBitVec c) ^^^ (x (r + 2)).toBitVec c ^^^
        (x (r + 3)).toBitVec c := by
  have hsum : (((x 0).bitXor c.toGateOps (x 1)).bitXor c.toGateOps
      ((x 2).bitXor c.toGateOps (x 3))).toBitVec c = (x 0).toBitVec c ^^^ (x 1).toBitVec c ^^^
        ((x 2).toBitVec c ^^^ (x 3).toBitVec c) := by simp only [toBitVec_bitXor]
  match r with
  | 0 => exact toBitVec_mixRow c hsum
  | 1 => exact toBitVec_mixRow c (s := x 3) (u := x 0) (hsum.trans (by ac_rfl))
  | 2 => exact toBitVec_mixRow c (s := x 0) (u := x 1) (hsum.trans (by ac_rfl))
  | 3 => exact toBitVec_mixRow c (s := x 1) (u := x 2) (hsum.trans (by ac_rfl))

theorem blockOf_mixColumns (x : Word Wire 128) :
    blockOf c (fillBytes fun j =>
      mixColumn c.toGateOps (x.byte (j / 4 * 4)) (x.byte (j / 4 * 4 + 1)) (x.byte (j / 4 * 4 + 2))
        (x.byte (j / 4 * 4 + 3)) (j % 4)) = mixColumns (blockOf c x) := by
  apply blockOf_eq_build
  intro r col
  have hrow : (4 * col.val + r.val) % 4 = r.val := by omega
  have hcol : (4 * col.val + r.val) / 4 = col.val := by omega
  rw [byte_fillBytes _ (by omega), hrow, hcol, Nat.mul_comm]
  simp only [entry_blockOf]
  exact toBitVec_mixColumn c (fun r => x.byte (4 * col + r)) r

def keyWords (x : Word Wire 1408) : List Quad := (List.range 44).map (keyWord c x)

theorem getD_keyWords (x : Word Wire 1408) {i : Nat} (hi : i < 44) :
    (keyWords c x).getD i default = keyWord c x i := by
  rw [keyWords, Recurrence.getD_map_range _ hi]

theorem blockOf_addRoundKey (x : Word Wire 128) (w : Word Wire 1408) {round : Nat}
    (hround : round ≤ 10) :
    blockOf c (x.bitXor c.toGateOps (w.slice (round * 128) 128)) =
      addRoundKey (keyWords c w) round (blockOf c x) := by
  apply blockOf_eq_build
  intro r col
  have hbyte : (w.slice (round * 128) 128).byte (4 * col + r) = w.byte (4 * (4 * round + col) + r) := by
    rw [show round * 128 = round * 16 * 8 by omega, byte_slice _ (by omega)]
    congr 1
    omega
  rw [byte_bitXor _ _ _ (by omega), toBitVec_bitXor, entry_blockOf, hbyte,
    getD_keyWords c w (by omega), keyWord]
  simp

theorem blockOf_aesRound (w : Word Wire 1408) {r : Nat} (hr : r ≤ 10) (x : Word Wire 128) :
    blockOf c (aesRound c.toGateOps r w x) =
      let s := shiftRows (subBytes (blockOf c x))
      addRoundKey (keyWords c w) r (if r ≠ 10 then mixColumns s else s) := by
  rw [aesRound]
  rw [blockOf_addRoundKey c _ w hr]
  split
  case isTrue _ => rw [blockOf_mixColumns, blockOf_shiftRows, blockOf_subBytes]
  case isFalse _ => rw [blockOf_shiftRows, blockOf_subBytes]

theorem blockOf_encryptBlock (plaintext : Word Wire 128) (w : Word Wire 1408) :
    blockOf c (aes128EncryptBlock c.toGateOps plaintext w) =
      cipher (keyWords c w) (blockOf c plaintext) := by
  have hrounds (n : Nat) (hn : n ≤ 9) (x : Word Wire 128) :
      blockOf c ((List.range n).foldl (fun state i => aesRound c.toGateOps (i + 1) w state) x) =
        (List.range n).foldl (fun s i =>
          addRoundKey (keyWords c w) (i + 1) (mixColumns (shiftRows (subBytes s)))) (blockOf c x) := by
    induction n with
    | zero => rfl
    | succ n ih =>
      rw [List.range_succ, List.foldl_concat, List.foldl_concat, blockOf_aesRound c w (by omega),
        ih (by omega)]
      simp only [if_pos (show n + 1 ≠ 10 by omega)]
  have hfirst := blockOf_addRoundKey c plaintext w (Nat.zero_le 10)
  rw [aes128EncryptBlock, List.range_succ (n := 9), List.foldl_concat,
    blockOf_aesRound c w (by decide), hrounds 9 (by decide), cipher, ← hfirst]
  rfl

section

variable {m n : Nat}

theorem keyWord_congr {x : Word Wire m} {y : Word Wire n} {i j : Nat}
    (h : ∀ b < 4, x.byte (4 * i + b) = y.byte (4 * j + b)) : keyWord c x i = keyWord c y j := by
  apply Vector.ext
  intro b hb
  rw [keyWord, keyWord, Vector.getElem_ofFn, Vector.getElem_ofFn, h b hb]

theorem keyWord_slice (x : Word Wire m) {o w : Nat} (hw : w * 32 + 32 ≤ n) :
    keyWord c (x.slice (o * 32) n) w = keyWord c x (o + w) := by
  apply keyWord_congr
  intro b _
  rw [show o * 32 = 4 * o * 8 by omega, byte_slice _ (by omega)]
  congr 1
  omega

theorem keyWord_store_same (x : Word Wire n) (y : Word Wire m) {o w : Nat} (hw : w * 32 + 32 ≤ m)
    (hn : (o + w) * 32 + 32 ≤ n) : keyWord c (x.store (o * 32) y) (o + w) = keyWord c y w := by
  apply keyWord_congr
  intro b _
  rw [show o * 32 = 4 * o * 8 by omega, show 4 * (o + w) + b = 4 * o + (4 * w + b) by omega,
    byte_store_same x y (by omega) (by omega)]

theorem keyWord_store_other (x : Word Wire n) (y : Word Wire m) {o w : Nat} (hn : w * 32 + 32 ≤ n)
    (h : w < o ∨ o * 32 + m ≤ w * 32) : keyWord c (x.store (o * 32) y) w = keyWord c x w := by
  apply keyWord_congr
  intro b _
  rw [show o * 32 = 4 * o * 8 by omega, byte_store_other x y (by omega) (by omega)]

theorem keyWord_bitXor (x y : Word Wire n) {w : Nat} (hw : w * 32 + 32 ≤ n) :
    keyWord c (x.bitXor c.toGateOps y) w = quadXor (keyWord c x w) (keyWord c y w) := by
  apply Vector.ext
  intro b hb
  rw [quadXor, Vector.getElem_zipWith, keyWord, keyWord, keyWord, Vector.getElem_ofFn,
    Vector.getElem_ofFn, Vector.getElem_ofFn, byte_bitXor _ _ _ (by omega), toBitVec_bitXor]

end

theorem quadXor_comm (v w : Quad) : quadXor v w = quadXor w v := by
  apply Vector.ext
  intro b hb
  rw [quadXor, quadXor, Vector.getElem_zipWith, Vector.getElem_zipWith, BitVec.xor_comm]

theorem keyWord_rotate (prev : Word Wire 128) :
    keyWord c (fillBytes fun b => prev.byte (12 + (b + 1) % 4) : Word Wire 32) 0 =
      rotWord (keyWord c prev 3) := by
  apply Vector.ext
  intro b hb
  rw [keyWord, rotWord, Vector.getElem_ofFn, Vector.getElem_ofFn, byte_fillBytes _ (by omega),
    Fin.getElem_fin, keyWord, Vector.getElem_ofFn, Fin.val_add]
  simp

theorem keyWord_subWord (x : Word Wire 32) :
    keyWord c (fillBytes fun b => aesSbox c.toGateOps (x.byte b) : Word Wire 32) 0 =
      subWord (keyWord c x 0) := by
  apply Vector.ext
  intro b hb
  rw [keyWord, subWord, Vector.getElem_ofFn, Vector.getElem_ofFn, byte_fillBytes _ (by omega),
    Fin.getElem_fin, keyWord, Vector.getElem_ofFn, toBitVec_aesSbox]

theorem toBitVec_toggleByte (x : Word Wire 32) (v : Byte) {b : Nat} (hb : b < 4) :
    ((toggleByte c.toGateOps x v).byte b).toBitVec c =
      (x.byte b).toBitVec c ^^^ (if b = 0 then v else 0) := by
  apply toBitVec_eq_of_wires
  intro k hk
  rw [wire_byte _ _ hk, toggleByte, wire_fill _ (by omega), BitVec.getLsbD_xor, ← value_wire c _ hk,
    wire_byte _ _ hk]
  by_cases hzero : b = 0
  · subst hzero
    simp only [Nat.zero_mul, Nat.zero_add, hk, true_and, ite_true]
    cases v.getLsbD k <;> simp
  · rw [if_neg (by omega), if_neg hzero]
    simp

theorem rconTable_eq : ∀ r < 11, r ≠ 0 → rconTable.getD r 0 = xtime^[r - 1] 1 := by decide

theorem keyWord_toggleByte (x : Word Wire 32) {r : Nat} (hr : r < 11) (hpos : r ≠ 0) :
    keyWord c (toggleByte c.toGateOps x (rconTable.getD r 0)) 0 =
      quadXor (keyWord c x 0) (Fips197.rcon r) := by
  apply Vector.ext
  intro b hb
  rw [quadXor, Vector.getElem_zipWith, keyWord, keyWord, Fips197.rcon, Vector.getElem_ofFn,
    Vector.getElem_ofFn, Vector.getElem_ofFn, Nat.mul_zero, Nat.zero_add,
    toBitVec_toggleByte c x _ hb, rconTable_eq r hr hpos]
  simp [Fin.ext_iff]

theorem keyWord_roundLoop (prev first : Word Wire 128) {n : Nat} (hn : n ≤ 3) :
    let cur := (List.range n).foldl (fun cur w => cur.store ((w + 1) * 32)
      ((cur.slice (w * 32) 32).bitXor c.toGateOps (prev.slice ((w + 1) * 32) 32))) first
    keyWord c cur 0 = keyWord c first 0 ∧
      ∀ j < n, keyWord c cur (j + 1) = quadXor (keyWord c prev (j + 1)) (keyWord c cur j) := by
  induction n with
  | zero => exact ⟨rfl, nofun⟩
  | succ n ih =>
    obtain ⟨hfirst, hrest⟩ := ih (by omega)
    rw [List.range_succ, List.foldl_concat]
    refine ⟨(keyWord_store_other c _ _ (by omega) (by omega)).trans hfirst, fun j hj => ?_⟩
    rw [keyWord_store_other c _ _ (w := j) (by omega) (by omega)]
    by_cases hlast : j = n
    · subst hlast
      have hstore := keyWord_store_same c (o := j + 1) (w := 0) (n := 128) (m := 32)
      rw [Nat.add_zero] at hstore
      rw [hstore _ _ (by omega) (by omega), keyWord_bitXor c _ _ (by omega),
        keyWord_slice c _ (by omega), keyWord_slice c _ (by omega), quadXor_comm]
      rfl
    · rw [keyWord_store_other c _ _ (by omega) (by omega), hrest j (by omega)]

theorem keyWord_nextRoundKey (prev : Word Wire 128) {r : Nat} (hr : r < 11) (hpos : r ≠ 0) :
    keyWord c (nextRoundKey c.toGateOps r prev) 0 =
      nextWord (4 * r) (keyWord c prev 0) (keyWord c prev 3) ∧
    ∀ j < 3, keyWord c (nextRoundKey c.toGateOps r prev) (j + 1) =
      quadXor (keyWord c prev (j + 1)) (keyWord c (nextRoundKey c.toGateOps r prev) j) := by
  have hstore := fun x y => keyWord_store_same c (o := 0) (w := 0) (n := 128) (m := 32) x y
    (by decide) (by decide)
  obtain ⟨hfirst, hrest⟩ := keyWord_roundLoop c prev ((fill fun _ => default : Word Wire 128).store 0
    ((prev.slice 0 32).bitXor c.toGateOps (toggleByte c.toGateOps (fillBytes fun b =>
      aesSbox c.toGateOps ((fillBytes fun b => prev.byte (12 + (b + 1) % 4) : Word Wire 32).byte b))
      (rconTable.getD r 0)))) (Nat.le_refl 3)
  refine ⟨hfirst.trans ((hstore _ _).trans ?_), hrest⟩
  have hslice := keyWord_slice c prev (o := 0) (w := 0) (n := 32) (by decide)
  rw [keyWord_bitXor c _ _ (by decide), hslice, keyWord_toggleByte c _ hr hpos, keyWord_subWord,
    keyWord_rotate, nextWord, if_pos (by omega), Nat.mul_div_cancel_left _ (by decide)]

theorem keyRounds_succ (key : Word Wire 128) (n : Nat) :
    keyRounds c.toGateOps key (n + 1) = (keyRounds c.toGateOps key n).store ((n + 1) * 128)
      (nextRoundKey c.toGateOps (n + 1) ((keyRounds c.toGateOps key n).slice (n * 128) 128)) := by
  rw [keyRounds, List.range_succ, List.foldl_concat]
  rfl

theorem keyWord_keyRounds (key : Word Wire 128) {n : Nat} (hn : n ≤ 10) {i : Nat}
    (hi : i < 4 * (n + 1)) :
    keyWord c (keyRounds c.toGateOps key n) i =
      if i < 4 then keyWord c key i
      else nextWord i (keyWord c (keyRounds c.toGateOps key n) (i - 4))
        (keyWord c (keyRounds c.toGateOps key n) (i - 1)) := by
  induction n generalizing i with
  | zero =>
    have hstore := keyWord_store_same c (o := 0) (w := i) (n := 1408) (fill fun _ => default) key
      (by omega) (by omega)
    rw [Nat.zero_add] at hstore
    rw [if_pos (by omega)]
    exact hstore
  | succ n ih =>
    rw [keyRounds_succ]
    generalize keyRounds c.toGateOps key n = e at ih ⊢
    obtain ⟨hfirst, hrest⟩ := keyWord_nextRoundKey c (e.slice (n * 128) 128) (r := n + 1)
      (by omega) (by omega)
    have hslice (w : Nat) (hw : w < 4) :
        keyWord c (e.slice (n * 128) 128) w = keyWord c e (4 * n + w) := by
      rw [show n * 128 = 4 * n * 32 by omega, keyWord_slice c _ (by omega)]
    have hold (y : Word Wire 128) (w : Nat) (hw : w < 4 * (n + 1)) :
        keyWord c (e.store ((n + 1) * 128) y) w = keyWord c e w := by
      rw [show (n + 1) * 128 = 4 * (n + 1) * 32 by omega, keyWord_store_other c _ _ (by omega)
        (by omega)]
    have hnew (y : Word Wire 128) (w : Nat) (hw : w < 4) :
        keyWord c (e.store ((n + 1) * 128) y) (4 * (n + 1) + w) = keyWord c y w := by
      rw [show (n + 1) * 128 = 4 * (n + 1) * 32 by omega, keyWord_store_same c _ _ (by omega)
        (by omega)]
    by_cases hlow : i < 4 * (n + 1)
    · rw [hold _ i hlow, hold _ _ (by omega), hold _ _ (by omega)]
      exact ih (by omega) hlow
    · obtain ⟨j, rfl⟩ := Nat.exists_eq_add_of_le (Nat.not_lt.mp hlow)
      rw [if_neg (by omega), hnew _ j (by omega), hold _ _ (by omega)]
      cases j with
      | zero =>
        rw [hold _ _ (by omega), hfirst, hslice _ (by decide), hslice _ (by decide)]
        congr 2
      | succ j =>
        rw [hrest j (by omega), hslice _ (by omega), show 4 * (n + 1) + (j + 1) - 1 =
          4 * (n + 1) + j by omega, hnew _ j (by omega), nextWord, if_neg (by omega)]
        congr 2
        omega

theorem keyWords_keySchedule (key : Word Wire 128) :
    keyWords c (aes128KeySchedule c.toGateOps key) = keyExpansion (blockOf c key) := by
  have hkey {i : Nat} (hi : i < 4) : keyWord c key i =
      Vector.ofFn fun b : Fin 4 => (blockOf c key)[Fin.ofNat 16 (4 * i + b)] := by
    apply Vector.ext
    intro b hb
    have hindex : (4 * i + b) % 16 = 4 * i + b := Nat.mod_eq_of_lt (by omega)
    simp only [keyWord, blockOf, Vector.getElem_ofFn, Fin.getElem_fin, Fin.val_ofNat, hindex]
  rw [keyExpansion, grow_expand (w := keyWord c (aes128KeySchedule c.toGateOps key))]
  · rfl
  · intro i hi
    rw [aes128KeySchedule, keyWord_keyRounds c key (by decide) hi]
    split
    case isTrue h => exact hkey h
    case isFalse _ => rfl

theorem aes128Encrypt_eq (plaintext key : Word Wire 128) :
    blockOf c (aes128Encrypt c.toGateOps plaintext key) =
      aes128 (blockOf c key) (blockOf c plaintext) := by
  rw [aes128Encrypt, blockOf_encryptBlock, keyWords_keySchedule, aes128]

end EmpTool.Circuits.Crypto
