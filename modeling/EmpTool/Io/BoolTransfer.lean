import EmpTool.Io.Fifo

namespace EmpTool.Io

open Bits Crypto Memory Process

abbrev link (p : Platform) (lossy : Bool) : Contract Endpoint Request Request.Reply Transport :=
  contract p.implementation lossy fun _ _ => True

-- the link may break, or the counter has room for what is still to go
def Room (lossy : Bool) (counter : UInt64) (bytes : Nat) : Prop :=
  lossy = true ∨ bytes ≤ 2 ^ 64 - 1 - counter.toNat

theorem Room.next {lossy : Bool} {counter : UInt64} {m n : Nat} (h : Room lossy counter (m + n)) :
    Room lossy counter m ∧ Room lossy (counter + UInt64.ofNat m) n := by
  rcases h with h | h
  · exact ⟨Or.inl h, Or.inl h⟩
  · refine ⟨Or.inr (by omega), Or.inr ?_⟩
    rw [UInt64.toNat_add, UInt64.toNat_ofNat']
    omega

structure Delivered (p : Platform) (chunks : List (List UInt8)) (t : Transport) (e : Endpoint)
    (t' : Transport) (e' : Endpoint) : Prop where
  coherent : Coherent p.implementation t' e'
  handed : t'.handed ++ e'.staged = t.handed ++ e.staged ++ chunks.flatten
  sent : e'.base.sent = e.base.sent ++ chunks
  counter : e'.base.sendCounter = e.base.sendCounter + UInt64.ofNat chunks.flatten.length

structure Obtained (p : Platform) (got : List UInt8) (t : Transport) (e : Endpoint)
    (t' : Transport) (e' : Endpoint) : Prop where
  coherent : Coherent p.implementation t' e'
  arrived : ∃ new, t'.arrived = t.arrived ++ new ∧ got ++ e'.unread = e.unread ++ new
  counter : e'.base.recvCounter = e.base.recvCounter + UInt64.ofNat got.length

section Transfer

variable {p : Platform} {lossy : Bool} {t t₁ t₂ : Transport} {e e₁ e₂ : Endpoint}

theorem Delivered.refl (h : Coherent p.implementation t e) : Delivered p [] t e t e := by
  refine ⟨h, ?_, ?_, ?_⟩
  · rw [List.flatten_nil, List.append_nil]
  · rw [List.append_nil]
  · exact (UInt64.add_zero _).symm

theorem Delivered.trans {chunks chunks' : List (List UInt8)} (h : Delivered p chunks t e t₁ e₁)
    (h' : Delivered p chunks' t₁ e₁ t₂ e₂) : Delivered p (chunks ++ chunks') t e t₂ e₂ := by
  refine ⟨h'.coherent, ?_, ?_, ?_⟩
  · rw [h'.handed, h.handed, List.flatten_append, List.append_assoc]
  · rw [h'.sent, h.sent, List.append_assoc]
  · rw [h'.counter, h.counter, List.flatten_append, List.length_append, UInt64.ofNat_add,
      UInt64.add_assoc]

theorem Obtained.refl (h : Coherent p.implementation t e) : Obtained p [] t e t e := by
  refine ⟨h, ⟨[], ?_, ?_⟩, ?_⟩
  · rw [List.append_nil]
  · rw [List.append_nil, List.nil_append]
  · exact (UInt64.add_zero _).symm

theorem Obtained.trans {got got' : List UInt8} (h : Obtained p got t e t₁ e₁)
    (h' : Obtained p got' t₁ e₁ t₂ e₂) : Obtained p (got ++ got') t e t₂ e₂ := by
  obtain ⟨new, harrived, hbytes⟩ := h.arrived
  obtain ⟨new', harrived', hbytes'⟩ := h'.arrived
  refine ⟨h'.coherent, ⟨new ++ new', ?_, ?_⟩, ?_⟩
  · rw [harrived', harrived, List.append_assoc]
  · rw [List.append_assoc, hbytes', ← List.append_assoc, hbytes, List.append_assoc]
  · rw [h'.counter, h.counter, List.length_append, UInt64.ofNat_add, UInt64.add_assoc]

theorem absorbSent_frame (data : Nat → UInt8) {nbyte : Int} (hn : 0 ≤ nbyte) (b : IOChannel) :
    ∃ fs, b.absorbSent data nbyte = .ok { b with fs := fs } := by
  unfold IOChannel.absorbSent
  cases hfs : b.fs with
  | none => exact ⟨none, congrArg Except.ok (by cases b; cases hfs; rfl)⟩
  | some st =>
    obtain ⟨send, hput⟩ := HashT.put_ok data hn st.send
    exact ⟨some { st with send := send }, by simp only [hput]; rfl⟩

theorem absorbReceived_frame (data : Nat → UInt8) {nbyte : Int} (hn : 0 ≤ nbyte) (b : IOChannel) :
    ∃ fs, b.absorbReceived data nbyte = .ok { b with fs := fs } := by
  unfold IOChannel.absorbReceived
  cases hfs : b.fs with
  | none => exact ⟨none, congrArg Except.ok (by cases b; cases hfs; rfl)⟩
  | some st =>
    obtain ⟨recv, hput⟩ := HashT.put_ok data hn st.recv
    exact ⟨some { st with recv := recv }, by simp only [hput]; rfl⟩

theorem enter_counters (dir : Dir) (b : IOChannel) :
    (b.enter dir).sendCounter = b.sendCounter ∧ (b.enter dir).recvCounter = b.recvCounter ∧
      (b.enter dir).sent = b.sent := by
  unfold IOChannel.enter
  split
  · exact ⟨rfl, rfl, rfl⟩
  · exact ⟨rfl, rfl, rfl⟩

theorem sendData_delivers (data : Nat → UInt8) {n : Nat} (hn : 0 < n)
    (h : Coherent p.implementation t e) (hroom : Room lossy e.base.sendCounter n) :
    (sendData p data n e).Meets (link p lossy)
      (fun t' e' _ => Delivered p [slice data 0 n] t e t' e') t := by
  unfold sendData
  refine meets_check (fun hneg => absurd (Int.natCast_nonneg n) hneg) fun hnonneg => ?_
  refine meets_ite (fun hz => absurd hz (by omega)) fun _ => ?_
  refine meets_get (meets_check (fun hfull => ?_) fun _ => ?_)
  · exact ⟨hroom.resolve_right hfull, by simp [channelErrors]⟩
  refine meets_modify (meets_get ?_)
  obtain ⟨fs, hfs⟩ := absorbSent_frame data hnonneg ((e.base.countSent n).enter .send)
  obtain ⟨hcounter, -, hsent⟩ := enter_counters .send (e.base.countSent n)
  refine meets_ok hfs (meets_modify ?_)
  refine meets_bind (sendDataInternal_meets data (by omega) (h.withBase _)) ?_
  intro t' e' _ hs
  have hbase : e'.base = { (e.base.countSent n).enter .send with fs := fs } := by
    rw [hs.endpoint]
    rfl
  refine meets_pure ⟨hs.coherent.withBase _, ?_, ?_, ?_⟩
  · show t'.handed ++ e'.staged = _
    rw [hs.handed, List.flatten_singleton]
    rfl
  · show e'.base.sent ++ [slice data 0 n] = _
    rw [hbase]
    exact congrArg (· ++ _) hsent
  · show e'.base.sendCounter = _
    rw [hbase, List.flatten_singleton, length_slice]
    exact hcounter

theorem recvData_obtains {n : Nat} (hn : 0 < n) (h : Coherent p.implementation t e)
    (hroom : Room lossy e.base.recvCounter n) :
    (recvData p n e).Meets (link p lossy)
      (fun t' e' _ => Obtained p e'.dest t e t' e' ∧ e'.dest.length = n) t := by
  unfold recvData
  refine meets_check (fun hneg => absurd (Int.natCast_nonneg n) hneg) fun hnonneg => ?_
  refine meets_ite (fun hz => absurd hz (by omega)) fun _ => ?_
  refine meets_get (meets_check (fun hfull => ?_) fun _ => ?_)
  · exact ⟨hroom.resolve_right hfull, by simp [channelErrors]⟩
  refine meets_modify ?_
  obtain ⟨-, hcounter, -⟩ := enter_counters .recv (e.base.countReceived n)
  refine meets_bind (recvDataInternal_meets (by omega) (h.withBase _) fun _ _ _ _ _ => trivial) ?_
  rintro t' e' - ⟨hr, hdest⟩
  obtain ⟨fs, hfs⟩ := absorbReceived_frame (fun i => e'.dest.getD i 0) hnonneg e'.base
  refine meets_get (meets_ok hfs (meets_pure ⟨⟨hr.coherent.withBase _, hr.arrived, ?_⟩, hdest⟩))
  show e'.base.recvCounter = e.base.recvCounter + UInt64.ofNat e'.dest.length
  rw [hr.base, hdest]
  exact hcounter

theorem bytes_split (n : Nat) :
    (n + 7) / 8 = (min n ioBoolChunkSize + 7) / 8 + (n - min n ioBoolChunkSize + 7) / 8 := by
  unfold ioBoolChunkSize
  omega

theorem sendBoolLoop_delivers (fuel : Nat) :
    ∀ (v : Nat → Bool) {length : Nat} (buf : Nat → UInt8) {t : Transport} {e : Endpoint},
      length ≤ fuel → Coherent p.implementation t e →
      Room lossy e.base.sendCounter ((length + 7) / 8) →
      (sendBoolLoop p fuel v length buf e).Meets (link p lossy)
        (fun t' e' _ => Delivered p (boolChunks v length) t e t' e') t := by
  induction fuel with
  | zero =>
    intro v length buf t e hlen h _
    have hz : length = 0 := by omega
    subst hz
    exact Delivered.refl h
  | succ fuel ih =>
    intro v length buf t e hlen h hroom
    unfold sendBoolLoop
    refine meets_ite (fun hpos => ?_) (fun hz => ?_)
    · have hbatch := batch_pos hpos
      obtain ⟨buf', hpacked, hbytes⟩ := pack_chunk v p.avx2 buf (min length ioBoolChunkSize)
      rw [bytes_split] at hroom
      obtain ⟨hnow, hlater⟩ := hroom.next
      refine meets_ok hpacked (meets_bind (sendData_delivers buf' (by omega) h hnow) ?_)
      intro t' e' _ hsent
      rw [hbytes] at hsent
      have hcounter := hsent.counter
      rw [List.flatten_singleton, length_packed] at hcounter
      rw [← hcounter] at hlater
      refine (ih _ _ (by omega) hsent.coherent hlater).mono fun t'' e'' _ hrest => ?_
      rw [boolChunks_step v hpos]
      exact hsent.trans hrest
    · have hzero : length = 0 := by omega
      subst hzero
      exact meets_pure (Delivered.refl h)

theorem recvBoolLoop_obtains (fuel : Nat) :
    ∀ (start : Nat) {length : Nat} (data : Nat → Bool) (buf : Nat → UInt8) {t : Transport}
      {e : Endpoint}, length ≤ fuel → Coherent p.implementation t e →
      Room lossy e.base.recvCounter ((length + 7) / 8) →
      (recvBoolLoop p fuel start length data buf e).Meets (link p lossy)
        (fun t' e' out => ∃ got, Obtained p got t e t' e' ∧ got.length = (length + 7) / 8 ∧
          ∀ v : Nat → Bool, got = packed (fun i => v (start + i)) length →
            ∀ i, out i = if start ≤ i ∧ i < start + length then v i else data i) t := by
  induction fuel with
  | zero =>
    intro start length data buf t e hlen h _
    have hz : length = 0 := by omega
    subst hz
    exact ⟨[], Obtained.refl h, rfl, fun v _ i => (if_neg (by omega)).symm⟩
  | succ fuel ih =>
    intro start length data buf t e hlen h hroom
    unfold recvBoolLoop
    refine meets_ite (fun hpos => ?_) (fun hz => ?_)
    · have hbatch := batch_pos hpos
      rw [bytes_split] at hroom
      obtain ⟨hnow, hlater⟩ := hroom.next
      refine meets_bind (recvData_obtains (by omega) h hnow) ?_
      rintro t₁ e₁ - ⟨hgot, hlength⟩
      have hcounter := hgot.counter
      rw [hlength] at hcounter
      rw [← hcounter] at hlater
      obtain ⟨bools, hbools, -⟩ := bitsToBools_ok (fun i => data (start + i))
        (storeRange e₁.dest.length 0 (fun i => e₁.dest.getD i 0) buf) (min length ioBoolChunkSize)
      refine meets_get (meets_ok hbools ?_)
      refine (ih _ _ _ (by omega) hgot.coherent hlater).mono ?_
      rintro t₂ e₂ out ⟨got, hrest, hrestLength, hout⟩
      refine ⟨e₁.dest ++ got, hgot.trans hrest, ?_, fun v hv i => ?_⟩
      · rw [List.length_append, hlength, hrestLength, ← bytes_split]
      rw [← packed_append _ (Nat.min_le_left length ioBoolChunkSize) (chunk_cut length)] at hv
      obtain ⟨hfirst, hlast⟩ := List.append_inj hv (by rw [hlength, length_packed])
      obtain ⟨out', hout', hread⟩ :=
        unpack_chunk _ (fun i => data (start + i)) buf hfirst
      have hsame : out' = bools := Except.ok.inj (hout'.symm.trans hbools)
      subst hsame
      rw [hout v (by simpa only [Nat.add_assoc] using hlast)]
      by_cases hrange : start + min length ioBoolChunkSize ≤ i ∧
          i < start + min length ioBoolChunkSize + (length - min length ioBoolChunkSize)
      · rw [if_pos hrange, if_pos (by omega)]
      · rw [if_neg hrange, storeRange]
        by_cases hchunk : start ≤ i ∧ i < start + min length ioBoolChunkSize
        · have hpos : start + (i - start) = i := by omega
          rw [if_pos hchunk, hread, if_pos (by omega), if_pos (by omega), hpos]
        · rw [if_neg hchunk, if_neg (by omega)]
    · have hzero : length = 0 := by omega
      subst hzero
      exact meets_pure ⟨[], Obtained.refl h, rfl, fun v _ i => (if_neg (by omega)).symm⟩

end Transfer

-- a state that a channel comes to between two calls
def Reached (p : Platform) (t : Transport) (e : Endpoint) : Prop :=
  ∃ hash isServer sendBuf recvBuf fs sendFirst events,
    Party.run p hash ⟨{}, .idle (Endpoint.start isServer sendBuf recvBuf fs sendFirst)⟩ events =
      some ⟨t, .idle e⟩

theorem Reached.coherent {p : Platform} {t : Transport} {e : Endpoint} (h : Reached p t e) :
    Coherent p.implementation t e := by
  obtain ⟨hash, isServer, sendBuf, recvBuf, fs, sendFirst, events, hrun⟩ := h
  have haccounts := (accounts_start p isServer sendBuf recvBuf fs sendFirst).run hrun
  unfold Party.Accounts at haccounts
  split at haccounts
  case h_1 heq _ =>
    cases heq
    exact haccounts.toCoherent
  case h_2 heq _ => cases heq
  case h_3 => exact haccounts.elim

theorem bool_transfer_exact :
    (∀ (p : Platform) (lossy : Bool) (v : Nat → Bool) (n : Nat) (t : Transport) (e : Endpoint),
      Reached p t e → Room lossy e.base.sendCounter ((n + 7) / 8) →
      (sendBool p v n e).Meets (link p lossy)
        (fun t' e' _ => Delivered p (boolChunks v n) t e t' e') t) ∧
    (∀ (p : Platform) (lossy : Bool) (data : Nat → Bool) (n : Nat) (t : Transport) (e : Endpoint),
      Reached p t e → Room lossy e.base.recvCounter ((n + 7) / 8) →
      (recvBool p data n e).Meets (link p lossy)
        (fun t' e' out => ∃ got, Obtained p got t e t' e' ∧ got.length = (n + 7) / 8 ∧
          ∀ v : Nat → Bool, got = (boolChunks v n).flatten →
            ∀ i, out i = if i < n then v i else data i) t) ∧
    (∀ (v : Nat → Bool) (n : Nat),
      (boolChunks v n).map List.length = (boolBatches n).map (fun batch => (batch + 7) / 8) ∧
      (boolBatches n).sum = n ∧
      ∀ i < 8 * (boolChunks v n).flatten.length,
        bitAt (fun j => (boolChunks v n).flatten.getD j 0) i = (decide (i < n) && v i)) ∧
    ∀ (avx2 : Bool) (out : Nat → UInt8) (v bools : Nat → Bool) (n : Nat),
      ∃ out', boolsToBits avx2 out v n = .ok out' ∧
        (∀ i, n ≤ i → bitAt out' i = bitAt out i) ∧
        ∃ bools', bitsToBools bools out' n = .ok bools' ∧
          ∀ i, bools' i = if i < n then v i else bools i := by
  refine ⟨?_, ?_, ?_, ?_⟩
  · intro p lossy v n t e h hroom
    unfold sendBool
    refine meets_check (fun hneg => absurd (Int.natCast_nonneg n) hneg) fun _ => ?_
    exact sendBoolLoop_delivers _ v p.stack (Nat.le_refl _) h.coherent hroom
  · intro p lossy data n t e h hroom
    unfold recvBool
    refine meets_check (fun hneg => absurd (Int.natCast_nonneg n) hneg) fun _ => ?_
    refine (recvBoolLoop_obtains _ 0 data p.stack (Nat.le_refl _) h.coherent hroom).mono ?_
    rintro t' e' out ⟨got, hgot, hlength, hout⟩
    refine ⟨got, hgot, hlength, fun v hv i => ?_⟩
    rw [flatten_boolChunks] at hv
    simpa using hout v (by simpa using hv) i
  · intro v n
    refine ⟨lengths_boolChunks v n, sum_batches n, fun i hi => ?_⟩
    rw [flatten_boolChunks, length_packed] at hi
    rw [flatten_boolChunks, ← bitAt_packedByte, bitAt, bitAt,
      List.getD_eq_getElem _ _ (by rw [length_packed]; omega)]
    simp [packed, slice]
  · intro avx2 out v bools n
    obtain ⟨out', hpack, hbits⟩ := boolsToBits_ok avx2 out v n
    obtain ⟨bools', hunpack, hread⟩ := bitsToBools_ok bools out' n
    refine ⟨out', hpack, fun i hi => ?_, bools', hunpack, fun i => ?_⟩
    · rw [hbits, if_neg (by omega)]
    · rw [hread]
      split
      case isTrue hi => rw [hbits, if_pos hi]
      case isFalse => rfl

theorem bool_transfer_exact_sampleEvents :
    ∃ t e, e.base.sent = [[1, 2, 3]] ∧ e.base.received = [[9, 8]] ∧
      (sendBool ⟨.net, false, fun _ => 0⟩ (fun i => i % 2 = 0) (9 : Nat) e).Meets
        (link ⟨.net, false, fun _ => 0⟩ false)
        (fun t' e' _ => Delivered ⟨.net, false, fun _ => 0⟩ [[85, 1]] t e t' e') t ∧
      (recvBool ⟨.net, false, fun _ => 0⟩ (fun _ => false) (9 : Nat) e).Meets
        (link ⟨.net, false, fun _ => 0⟩ false)
        (fun t' e' out => ∃ got, Obtained ⟨.net, false, fun _ => 0⟩ got t e t' e' ∧
          got.length = 2 ∧ ∀ v : Nat → Bool, got = (boolChunks v 9).flatten →
            ∀ i, out i = if i < 9 then v i else false) t := by
  have hrun : ∃ t e, Party.run ⟨.net, false, fun _ => 0⟩ (fun _ _ _ => 0)
        ⟨{}, .idle (Endpoint.start true (fun _ => 0) (fun _ => 0) none false)⟩ sampleEvents =
          some ⟨t, .idle e⟩ ∧
      e.base.sent = [[1, 2, 3]] ∧ e.base.received = [[9, 8]] ∧
      e.base.sendCounter = 3 ∧ e.base.recvCounter = 2 := ⟨_, _, rfl, rfl, rfl, rfl, rfl⟩
  obtain ⟨t, e, hrun, hsent, hreceived, hsends, hrecvs⟩ := hrun
  have hreached : Reached ⟨.net, false, fun _ => 0⟩ t e := ⟨_, _, _, _, _, _, _, hrun⟩
  refine ⟨t, e, hsent, hreceived, ?_, ?_⟩
  · have hchunks : boolChunks (fun i => i % 2 = 0) 9 = [[85, 1]] := by decide
    rw [← hchunks]
    refine bool_transfer_exact.1 _ false _ 9 t e hreached (Or.inr ?_)
    rw [hsends]
    decide
  · refine bool_transfer_exact.2.1 _ false _ 9 t e hreached (Or.inr ?_)
    rw [hrecvs]
    decide

end EmpTool.Io
