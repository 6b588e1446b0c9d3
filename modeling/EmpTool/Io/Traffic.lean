import EmpTool.Io.BoolPacking
import EmpTool.Io.Buffering

namespace EmpTool.Io

open Bits Crypto Memory Process

namespace IOChannel

-- what the two sides agree on when they switch the transcripts on
def role (b : IOChannel) : Option HashOption × Bool := (b.fs.map FsState.opt, b.fsSendFirst)

structure Transcribed (b : IOChannel) : Prop where
  send : ∀ st ∈ b.fs, st.send.transcript = b.sent.flatten
  recv : ∀ st ∈ b.fs, st.recv.transcript = b.received.flatten

end IOChannel

def bufferOf (data : Nat → UInt8) (nbyte : Int) : List (List UInt8) :=
  if nbyte = 0 then [] else [slice data 0 nbyte.toNat]

def countOf (nbyte : Int) : List Nat := if nbyte = 0 then [] else [nbyte.toNat]

def batchBytes (length : Nat) : List Nat := (boolBatches length).map fun batch => (batch + 7) / 8

namespace Call

def sends : Call → List (List UInt8)
  | .sendData data nbyte => bufferOf data nbyte
  | .sendBlock data nblock => bufferOf (fun i => blockBytes (data (i / 16)) (i % 16)) (nblock * 16)
  | .sendBool data length => boolChunks data length.toNat
  | _ => []

def receives : Call → List Nat
  | .recvData nbyte => countOf nbyte
  | .recvBlock nblock => countOf (nblock * 16)
  | .recvBool _ length => batchBytes length.toNat
  | _ => []

end Call

structure Refines (impl : Implementation) (role : Option HashOption × Bool) (t : Transport)
    (e : Endpoint) : Prop extends Coherent impl t e where
  sent : t.handed ++ e.staged = e.base.sent.flatten
  received : e.base.received.flatten ++ e.unread = t.arrived
  transcribed : e.base.Transcribed
  role_eq : e.base.role = role

structure Reading (t : Transport) (e : Endpoint) : Prop where
  sendPtr : e.sendPtr = 0
  flushed : t.flushed = true
  handed : t.handed = e.base.sent.flatten
  received : e.base.received.flatten ++ e.dest ++ e.unread = t.arrived

-- the same inside a call, when the calls before it sent `sends` and filled buffers of sizes
-- `receives`
structure Waiting (sends : List (List UInt8)) (receives : List Nat) (t : Transport)
    (e : Endpoint) : Prop extends Reading t e where
  sent_eq : e.base.sent = sends
  received_prefix : receives <+: e.base.received.map List.length

-- the traffic of a piece of code: what it sends, and the sizes of the buffers it fills, the last
-- of which is still there
structure Carried (sends : List (List UInt8)) (receives : List Nat) (e e' : Endpoint) : Prop where
  sent : e'.base.sent = e.base.sent ++ sends
  received : ∃ got, e'.base.received = e.base.received ++ got ∧ got.map List.length = receives ∧
    e'.dest = got.getLastD e.dest

section Calls

variable {p : Platform} {hash : HashFunction} {role : Option HashOption × Bool}

theorem enter_frame (dir : Dir) (b : IOChannel) :
    (b.enter dir).fs = b.fs ∧ (b.enter dir).sent = b.sent ∧ (b.enter dir).received = b.received ∧
      (b.enter dir).fsSendFirst = b.fsSendFirst := by
  unfold IOChannel.enter
  split
  · exact ⟨rfl, rfl, rfl, rfl⟩
  · exact ⟨rfl, rfl, rfl, rfl⟩

structure SameTraffic (b b' : IOChannel) : Prop where
  fs : b'.fs = b.fs
  sent : b'.sent = b.sent
  received : b'.received = b.received
  fsSendFirst : b'.fsSendFirst = b.fsSendFirst

theorem countSent_same (bytes : Nat) (b : IOChannel) :
    SameTraffic b ((b.countSent bytes).enter .send) := by
  obtain ⟨hfs, hsent, hrecv, hfirst⟩ := enter_frame .send (b.countSent bytes)
  exact ⟨hfs, hsent, hrecv, hfirst⟩

theorem countReceived_same (bytes : Nat) (b : IOChannel) :
    SameTraffic b ((b.countReceived bytes).enter .recv) := by
  obtain ⟨hfs, hsent, hrecv, hfirst⟩ := enter_frame .recv (b.countReceived bytes)
  exact ⟨hfs, hsent, hrecv, hfirst⟩

theorem SameTraffic.role_eq {b b' : IOChannel} (h : SameTraffic b b') : b'.role = b.role := by
  rw [IOChannel.role, IOChannel.role, h.fs, h.fsSendFirst]

theorem SameTraffic.transcribed {b b' : IOChannel} (h : SameTraffic b b') (ht : b.Transcribed) :
    b'.Transcribed := by
  refine ⟨fun st hst => ?_, fun st hst => ?_⟩
  · rw [h.sent]
    exact ht.send st (h.fs ▸ hst)
  · rw [h.received]
    exact ht.recv st (h.fs ▸ hst)

theorem transcribed_of_none {b : IOChannel} (h : b.fs = none) : b.Transcribed := by
  refine ⟨?_, ?_⟩
  · intro st hst
    simp [h] at hst
  · intro st hst
    simp [h] at hst

theorem transcribed_of_some {b : IOChannel} {st : FsState} (h : b.fs = some st)
    (hsend : st.send.transcript = b.sent.flatten)
    (hrecv : st.recv.transcript = b.received.flatten) : b.Transcribed := by
  refine ⟨?_, ?_⟩
  · rintro _ hst
    cases h.symm.trans hst
    exact hsend
  · rintro _ hst
    cases h.symm.trans hst
    exact hrecv

theorem put_extends {h h' : HashT} {data : Nat → UInt8} {nbyte : Int} {calls : List (List UInt8)}
    (hput : h.put data nbyte = .ok h') (hold : h.transcript = calls.flatten) :
    h'.transcript = (calls ++ [slice data 0 nbyte.toNat]).flatten := by
  rw [HashT.put_transcript hput, hold, List.flatten_append, List.flatten_singleton]

theorem absorbSent_ok (data : Nat → UInt8) {nbyte : Int} (hn : 0 ≤ nbyte) {b b₀ : IOChannel}
    (hsame : SameTraffic b₀ b) (h : b₀.Transcribed) :
    ∃ b', b.absorbSent data nbyte = .ok b' ∧ b'.sent = b₀.sent ∧ b'.received = b₀.received ∧
      b'.role = b₀.role ∧ (logSent (slice data 0 nbyte.toNat) b').Transcribed := by
  have htrans := hsame.transcribed h
  unfold IOChannel.absorbSent
  cases hfs : b.fs with
  | none => exact ⟨b, rfl, hsame.sent, hsame.received, hsame.role_eq, transcribed_of_none hfs⟩
  | some st =>
    obtain ⟨send, hput⟩ := HashT.put_ok data hn st.send
    refine ⟨{ b with fs := some { st with send := send } }, ?_, hsame.sent, hsame.received, ?_,
      transcribed_of_some rfl (put_extends hput (htrans.send st hfs)) (htrans.recv st hfs)⟩
    · simp only [bind_eq_ok, pure_eq_ok]
      exact ⟨send, hput, rfl⟩
    · rw [← hsame.role_eq, IOChannel.role, IOChannel.role, hfs]
      rfl

theorem absorbReceived_ok (data : Nat → UInt8) {nbyte : Int} (hn : 0 ≤ nbyte) {b b₀ : IOChannel}
    (hsame : SameTraffic b₀ b) (h : b₀.Transcribed) :
    ∃ b', b.absorbReceived data nbyte = .ok b' ∧ b'.sent = b₀.sent ∧ b'.received = b₀.received ∧
      b'.role = b₀.role ∧ (logReceived (slice data 0 nbyte.toNat) b').Transcribed := by
  have htrans := hsame.transcribed h
  unfold IOChannel.absorbReceived
  cases hfs : b.fs with
  | none => exact ⟨b, rfl, hsame.sent, hsame.received, hsame.role_eq, transcribed_of_none hfs⟩
  | some st =>
    obtain ⟨recv, hput⟩ := HashT.put_ok data hn st.recv
    refine ⟨{ b with fs := some { st with recv := recv } }, ?_, hsame.sent, hsame.received, ?_,
      transcribed_of_some rfl (htrans.send st hfs) (put_extends hput (htrans.recv st hfs))⟩
    · simp only [bind_eq_ok, pure_eq_ok]
      exact ⟨recv, hput, rfl⟩
    · rw [← hsame.role_eq, IOChannel.role, IOChannel.role, hfs]
      rfl

theorem Coherent.withBase {impl : Implementation} {t : Transport} {e : Endpoint}
    (h : Coherent impl t e) (b : IOChannel) : Coherent impl t { e with base := b } :=
  ⟨h.sendPtr_le, h.recvPtr_le, h.recvFill_le, h.clean, h.pushed_le, h.settled, h.tls_flushed⟩

theorem Carried.idle {e e' : Endpoint} (hsent : e'.base.sent = e.base.sent)
    (hreceived : e'.base.received = e.base.received) (hdest : e'.dest = e.dest) :
    Carried [] [] e e' := by
  refine ⟨by rw [hsent, List.append_nil], [], ?_, rfl, hdest⟩
  rw [hreceived, List.append_nil]

theorem Carried.trans {sends sends' : List (List UInt8)} {receives receives' : List Nat}
    {e e₁ e₂ : Endpoint} (h : Carried sends receives e e₁) (h' : Carried sends' receives' e₁ e₂) :
    Carried (sends ++ sends') (receives ++ receives') e e₂ := by
  obtain ⟨got, hreceived, hsizes, hdest⟩ := h.received
  obtain ⟨got', hreceived', hsizes', hdest'⟩ := h'.received
  refine ⟨?_, got ++ got', ?_, ?_, ?_⟩
  · rw [h'.sent, h.sent, List.append_assoc]
  · rw [hreceived', hreceived, List.append_assoc]
  · rw [List.map_append, hsizes, hsizes']
  · rw [hdest', hdest]
    simp [List.getLast?_append]

-- code that sends only never waits in a read
abbrev Sends (p : Platform) (role : Option HashOption × Bool) (sends : List (List UInt8))
    {α : Type} (x : ChannelM α) : Prop :=
  ∀ reading t e, Refines p.implementation role t e →
    (x e).Meets (contract p.implementation true reading)
      (fun t' e' _ => Refines p.implementation role t' e' ∧ Carried sends [] e e') t

abbrev Carries (p : Platform) (role : Option HashOption × Bool) (sends : List (List UInt8))
    (receives : List Nat) {α : Type} (x : ChannelM α) : Prop :=
  ∀ sent received t e, Refines p.implementation role t e → e.base.sent = sent →
    received <+: e.base.received.map List.length →
    (x e).Meets (contract p.implementation true (Waiting sent received))
      (fun t' e' _ => Refines p.implementation role t' e' ∧ Carried sends receives e e') t

theorem Sends.carries {sends : List (List UInt8)} {α : Type} {x : ChannelM α}
    (h : Sends p role sends x) : Carries p role sends [] x :=
  fun _ _ t e he _ _ => h _ t e he

theorem sendData_sends (data : Nat → UInt8) (nbyte : Int) :
    Sends p role (bufferOf data nbyte) (sendData p data nbyte) := by
  intro reading t e h
  unfold sendData
  refine meets_check (fun _ => ⟨rfl, by simp [channelErrors]⟩) fun hn => ?_
  refine meets_ite (fun hz => meets_pure ⟨h, ?_⟩) fun hz => ?_
  · rw [bufferOf, if_pos hz]
    exact Carried.idle rfl rfl rfl
  refine meets_get (meets_check (fun _ => ⟨rfl, by simp [channelErrors]⟩) fun _ => ?_)
  refine meets_modify (meets_get ?_)
  obtain ⟨b, hb, hsent, hreceived, hrole, htrans⟩ :=
    absorbSent_ok data hn (countSent_same nbyte.toNat e.base) h.transcribed
  refine meets_ok hb (meets_modify ?_)
  refine meets_bind (sendDataInternal_meets data (by omega) (h.toCoherent.withBase b)) ?_
  intro t' e' _ hs
  have hbase : e'.base = b := by rw [hs.endpoint]; rfl
  have hunread : e'.unread = e.unread := by rw [hs.endpoint]; rfl
  have hdest : e'.dest = e.dest := by rw [hs.endpoint]; rfl
  refine meets_pure ⟨
    { toCoherent := hs.coherent.withBase _
      sent := ?_
      received := ?_
      transcribed := ?_
      role_eq := ?_ }, ?_, [], ?_, rfl, hdest⟩
  · show t'.handed ++ e'.staged = (e'.base.sent ++ [slice data 0 nbyte.toNat]).flatten
    rw [hs.handed, hbase, hsent, List.flatten_append, List.flatten_singleton, ← h.sent]
    rfl
  · show e'.base.received.flatten ++ e'.unread = t'.arrived
    rw [hbase, hreceived, hunread, hs.arrived, h.received]
  · show (logSent _ e'.base).Transcribed
    rw [hbase]
    exact htrans
  · show e'.base.role = role
    rw [hbase, hrole, h.role_eq]
  · show e'.base.sent ++ [slice data 0 nbyte.toNat] = _
    rw [hbase, hsent, bufferOf, if_neg hz]
  · show e'.base.received = _
    rw [hbase, hreceived, List.append_nil]

theorem recvData_carries (nbyte : Int) :
    Carries p role [] (countOf nbyte) (recvData p nbyte) := by
  intro sent received t e h hsent₀ hreceived₀
  unfold recvData
  refine meets_check (fun _ => ⟨rfl, by simp [channelErrors]⟩) fun hn => ?_
  refine meets_ite (fun hz => meets_pure ⟨h, ?_⟩) fun hz => ?_
  · rw [countOf, if_pos hz]
    exact Carried.idle rfl rfl rfl
  refine meets_get (meets_check (fun _ => ⟨rfl, by simp [channelErrors]⟩) fun _ => ?_)
  refine meets_modify ?_
  have hsame := countReceived_same nbyte.toNat e.base
  refine meets_bind (recvDataInternal_meets (by omega) (h.toCoherent.withBase _) ?_) ?_
  · intro t' e' hr _ _
    obtain ⟨new, harrived, hbytes⟩ := hr.arrived
    have hbase : SameTraffic e.base e'.base := by
      rw [hr.base]
      exact hsame
    refine ⟨⟨hr.sendPtr, hr.flushed, ?_, ?_⟩, hbase.sent.trans hsent₀, hbase.received ▸ hreceived₀⟩
    · rw [hr.handed, hbase.sent, ← h.sent]
      rfl
    · rw [List.append_assoc, hbytes, harrived, hbase.received, ← h.received, List.append_assoc]
      rfl
  · rintro t' e' - ⟨hr, hdest⟩
    obtain ⟨new, harrived, hbytes⟩ := hr.arrived
    have hbase : SameTraffic e.base e'.base := by
      rw [hr.base]
      exact hsame
    have hslice : slice (fun i => e'.dest.getD i 0) 0 nbyte.toNat = e'.dest := by
      rw [← hdest, slice_getD]
    obtain ⟨b, hb, hsent, hreceived, hrole, htrans⟩ :=
      absorbReceived_ok (fun i => e'.dest.getD i 0) hn hbase h.transcribed
    rw [hslice] at htrans
    refine meets_get (meets_ok hb (meets_pure ⟨
      { toCoherent := hr.coherent.withBase _
        sent := ?_
        received := ?_
        transcribed := htrans
        role_eq := hrole.trans h.role_eq }, ?_, [e'.dest], ?_, ?_, rfl⟩))
    · show t'.handed ++ e'.staged = b.sent.flatten
      rw [Endpoint.staged_of_zero hr.sendPtr, List.append_nil, hr.handed, hsent, ← h.sent]
      rfl
    · show (b.received ++ [e'.dest]).flatten ++ e'.unread = t'.arrived
      rw [hreceived, List.flatten_append, List.flatten_singleton, List.append_assoc, hbytes,
        harrived, ← h.received, List.append_assoc]
      rfl
    · show b.sent = _
      rw [hsent, List.append_nil]
    · show b.received ++ [e'.dest] = _
      rw [hreceived]
    · rw [countOf, if_neg hz, List.map_singleton, hdest]

theorem flush_sends : Sends p role [] p.implementation.flushUnlocked := by
  intro reading t e h
  refine Proc.Meets.mono ?_ (flushUnlocked_meets h.toCoherent)
  intro t' e' _ hf
  have hptr : e'.sendPtr = 0 := by rw [hf.endpoint]
  have hbase : e'.base = e.base := by rw [hf.endpoint]
  have hunread : e'.unread = e.unread := by rw [hf.endpoint]; rfl
  have hdest : e'.dest = e.dest := by rw [hf.endpoint]
  exact ⟨
    { toCoherent := hf.coherent h.toCoherent
      sent := by
        rw [Endpoint.staged_of_zero hptr, List.append_nil, hf.handed, hbase, h.sent]
      received := by rw [hbase, hunread, hf.arrived, h.received]
      transcribed := by
        rw [hbase]
        exact h.transcribed
      role_eq := by rw [hbase, h.role_eq] },
    Carried.idle (by rw [hbase]) (by rw [hbase]) hdest⟩

theorem sendBlock_sends (data : Nat → Block) (nblock : Int) :
    Sends p role (Call.sendBlock data nblock).sends (sendBlock p data nblock) := by
  intro reading t e h
  unfold sendBlock
  refine meets_check (fun _ => ⟨rfl, by simp [channelErrors]⟩) fun _ => ?_
  refine meets_check (fun _ => ⟨rfl, by simp [channelErrors]⟩) fun _ => ?_
  exact sendData_sends _ _ reading t e h

theorem recvBlock_carries (nblock : Int) :
    Carries p role [] (countOf (nblock * 16)) (recvBlock p nblock) := by
  intro sent received t e h hsent hreceived
  unfold recvBlock
  refine meets_check (fun _ => ⟨rfl, by simp [channelErrors]⟩) fun _ => ?_
  refine meets_check (fun _ => ⟨rfl, by simp [channelErrors]⟩) fun _ => ?_
  exact recvData_carries _ sent received t e h hsent hreceived

theorem batch_pos {n : Nat} (hn : 0 < n) : 0 < min n ioBoolChunkSize := by
  unfold ioBoolChunkSize
  omega

theorem sendBoolLoop_sends (fuel : Nat) :
    ∀ (data : Nat → Bool) {length : Nat} (buf : Nat → UInt8), length ≤ fuel →
      Sends p role (boolChunks data length) (sendBoolLoop p fuel data length buf) := by
  induction fuel with
  | zero =>
    intro data length buf hlen reading t e h
    have hz : length = 0 := by omega
    subst hz
    exact ⟨h, Carried.idle rfl rfl rfl⟩
  | succ fuel ih =>
    intro data length buf hlen reading t e h
    unfold sendBoolLoop
    refine meets_ite (fun hpos => ?_) (fun hz => ?_)
    · have hbatch := batch_pos hpos
      obtain ⟨buf', hpacked, hbytes⟩ := pack_chunk data p.avx2 buf (min length ioBoolChunkSize)
      refine meets_ok hpacked (meets_bind (sendData_sends _ _ reading t e h) ?_)
      rintro t₁ e₁ - ⟨h₁, hfirst⟩
      refine Proc.Meets.mono ?_ (ih _ _ (by omega) reading t₁ e₁ h₁)
      rintro t₂ e₂ - ⟨h₂, hrest⟩
      have hchunk : bufferOf buf' ((min length ioBoolChunkSize + 7) / 8 : Nat) =
          [packed data (min length ioBoolChunkSize)] := by
        rw [bufferOf, if_neg (by omega), Int.toNat_natCast, hbytes]
      rw [hchunk] at hfirst
      rw [boolChunks_step data hpos]
      exact ⟨h₂, hfirst.trans hrest⟩
    · have hzero : length = 0 := by omega
      subst hzero
      exact meets_pure ⟨h, Carried.idle rfl rfl rfl⟩

theorem sendBool_sends (data : Nat → Bool) (length : Int) :
    Sends p role (boolChunks data length.toNat) (sendBool p data length) := by
  intro reading t e h
  unfold sendBool
  refine meets_check (fun _ => ⟨rfl, by simp [channelErrors]⟩) fun _ => ?_
  exact sendBoolLoop_sends _ _ _ (Nat.le_refl _) reading t e h

theorem recvBoolLoop_carries (fuel : Nat) :
    ∀ (start : Nat) {length : Nat} (data : Nat → Bool) (buf : Nat → UInt8), length ≤ fuel →
      Carries p role [] (batchBytes length) (recvBoolLoop p fuel start length data buf) := by
  induction fuel with
  | zero =>
    intro start length data buf hlen sent received t e h _ _
    have hz : length = 0 := by omega
    subst hz
    exact ⟨h, Carried.idle rfl rfl rfl⟩
  | succ fuel ih =>
    intro start length data buf hlen sent received t e h hsent hreceived
    unfold recvBoolLoop
    refine meets_ite (fun hpos => ?_) (fun hz => ?_)
    · have hbatch := batch_pos hpos
      refine meets_bind (recvData_carries _ sent received t e h hsent hreceived) ?_
      rintro t₁ e₁ - ⟨h₁, hfirst⟩
      obtain ⟨bools, hbools, -⟩ := bitsToBools_ok (fun i => data (start + i))
        (storeRange e₁.dest.length 0 (fun i => e₁.dest.getD i 0) buf) (min length ioBoolChunkSize)
      refine meets_get (meets_ok hbools ?_)
      obtain ⟨got, hgot, -, -⟩ := hfirst.received
      refine Proc.Meets.mono ?_ (ih _ _ _ (by omega) sent received t₁ e₁ h₁ ?_ ?_)
      · rintro t₂ e₂ - ⟨h₂, hrest⟩
        have hsize : countOf ((min length ioBoolChunkSize + 7) / 8 : Nat) =
            [(min length ioBoolChunkSize + 7) / 8] := by
          rw [countOf, if_neg (by omega), Int.toNat_natCast]
        rw [hsize] at hfirst
        rw [batchBytes, boolBatches_step hpos]
        exact ⟨h₂, hfirst.trans hrest⟩
      · rw [hfirst.sent, List.append_nil, hsent]
      · rw [hgot, List.map_append]
        exact hreceived.trans (List.prefix_append _ _)
    · have hzero : length = 0 := by omega
      subst hzero
      exact meets_pure ⟨h, Carried.idle rfl rfl rfl⟩

theorem recvBool_carries (data : Nat → Bool) (length : Int) :
    Carries p role [] (batchBytes length.toNat) (recvBool p data length) := by
  intro sent received t e h hsent hreceived
  unfold recvBool
  refine meets_check (fun _ => ⟨rfl, by simp [channelErrors]⟩) fun _ => ?_
  exact recvBoolLoop_carries _ _ _ _ (Nat.le_refl _) sent received t e h hsent hreceived

end Calls

end EmpTool.Io
