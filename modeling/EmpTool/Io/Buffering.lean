import EmpTool.Io.Transport

namespace EmpTool.Io

open Memory Process

variable {impl : Implementation} {lossy : Bool} {reading : Transport → Endpoint → Prop}

-- the induction is on the passes left: each accepted write shortens what is still to write
theorem sendLoop_meets (e : Endpoint) :
    ∀ {fuel : Nat} {rest : List UInt8} {t : Transport}, rest.length ≤ fuel →
      (impl.sendLoop fuel rest e).Meets (contract impl lossy reading)
        (fun t' e' _ => e' = e ∧ t' = t.hand impl rest) t := by
  intro fuel
  induction fuel with
  | zero =>
    intro rest t hlen
    have hnil : rest = [] := List.length_eq_zero_iff.mp (by omega)
    subst hnil
    exact ⟨rfl, rfl⟩
  | succ fuel ih =>
    intro rest t hlen
    unfold Implementation.sendLoop
    refine meets_ite (fun hnil => ?_) (fun hnil => ?_)
    · subst hnil
      exact ⟨rfl, rfl⟩
    · refine meets_request hnil fun (res : Nat) hres => ?_
      refine meets_check (fun hzero => ?_) fun hpos => ?_
      · exact ⟨hres.2.resolve_right fun hp => hzero (hp hnil), by simp [channelErrors]⟩
      have hrest : (rest.drop res).length ≤ fuel := by
        rw [List.length_drop]
        omega
      refine (ih hrest).mono fun t' e' _ ⟨he, ht⟩ => ⟨he, ?_⟩
      rw [ht]
      show (t.write impl (rest.take res)).hand impl (rest.drop res) = t.hand impl rest
      rw [Transport.hand_write, List.take_append_drop, Transport.hand, if_neg hnil]

theorem drainStaged_meets (t : Transport) (e : Endpoint) :
    (impl.drainStaged e).Meets (contract impl lossy reading)
      (fun t' e' _ => e' = { e with sendPtr := 0 } ∧ t' = t.hand impl e.staged) t := by
  unfold Implementation.drainStaged
  refine meets_get (meets_ite (fun hz => ?_) (fun hz => ?_))
  · refine meets_bind (sendLoop_meets e (Nat.le_refl _)) ?_
    rintro t' e' - ⟨rfl, rfl⟩
    exact ⟨rfl, rfl⟩
  · have hzero : e.sendPtr = 0 := not_not.mp hz
    refine meets_pure ⟨?_, ?_⟩
    · cases e
      cases hzero
      rfl
    · rw [Endpoint.staged_of_zero hzero, Transport.hand_nil]

structure Flushed (t : Transport) (e : Endpoint) (t' : Transport) (e' : Endpoint) : Prop where
  handed : t'.handed = t.handed ++ e.staged
  arrived : t'.arrived = t.arrived
  flushed : t'.flushed = true
  pushed : t'.pushed = t'.handed.length
  endpoint : e' = { e with
    flushesCount := e'.flushesCount
    sendPtr := 0
    sendDirty := false }

theorem flushStream_meets {t : Transport} {e : Endpoint}
    (hsettled : t.flushed = true → t.pushed = t.handed.length)
    (htls : impl = .tls → t.flushed = true) :
    (impl.flushStream e).Meets (contract impl lossy reading)
      (fun t' e' _ => e' = e ∧ t'.handed = t.handed ∧ t'.arrived = t.arrived ∧
        t'.flushed = true ∧ t'.pushed = t'.handed.length) t := by
  cases impl with
  | net => exact ⟨trivial, fun _ _ => ⟨rfl, rfl, rfl, rfl, rfl⟩⟩
  | tls => exact ⟨rfl, rfl, rfl, htls rfl, hsettled (htls rfl)⟩

theorem flushUnlocked_meets {t : Transport} {e : Endpoint} (h : Coherent impl t e) :
    (impl.flushUnlocked e).Meets (contract impl lossy reading)
      (fun t' e' _ => Flushed t e t' e') t := by
  unfold Implementation.flushUnlocked
  refine meets_get (meets_ite (fun _ => ?_) (fun hd => ?_))
  · refine meets_modify (meets_bind (drainStaged_meets t _) ?_)
    rintro t₁ e₁ - ⟨rfl, rfl⟩
    refine meets_bind (flushStream_meets (hand_settled _ h.settled)
      (hand_tls_flushed _ h.tls_flushed)) ?_
    rintro t₂ e₂ - ⟨rfl, hhanded, harrived, hflushed, hpushed⟩
    refine ⟨?_, ?_, hflushed, hpushed, rfl⟩
    · rw [hhanded, Transport.hand_handed]
      rfl
    · rw [harrived, Transport.hand_arrived]
  · have hclean : e.sendDirty = false := Bool.eq_false_iff.mpr hd
    obtain ⟨hz, hf⟩ := h.clean hclean
    refine meets_pure ⟨?_, rfl, hf, h.settled hf, ?_⟩
    · rw [Endpoint.staged_of_zero hz, List.append_nil]
    · cases e
      cases hz
      cases hclean
      rfl

theorem Flushed.coherent {t t' : Transport} {e e' : Endpoint} (h : Coherent impl t e)
    (hf : Flushed t e t' e') : Coherent impl t' e' := by
  have he := hf.endpoint
  have hptr : e'.sendPtr = 0 := by rw [he]
  have hrecv : e'.recvPtr = e.recvPtr ∧ e'.recvFill = e.recvFill := by
    rw [he]
    exact ⟨rfl, rfl⟩
  exact
    { sendPtr_le := by
        rw [hptr]
        exact Nat.zero_le _
      recvPtr_le := by
        rw [hrecv.1, hrecv.2]
        exact h.recvPtr_le
      recvFill_le := by
        rw [hrecv.2]
        exact h.recvFill_le
      clean := fun _ => ⟨hptr, hf.flushed⟩
      pushed_le := Nat.le_of_eq hf.pushed
      settled := fun _ => hf.pushed
      tls_flushed := fun _ => hf.flushed }

structure Sent (impl : Implementation) (bytes : List UInt8) (t : Transport) (e : Endpoint)
    (t' : Transport) (e' : Endpoint) : Prop where
  handed : t'.handed ++ e'.staged = t.handed ++ e.staged ++ bytes
  arrived : t'.arrived = t.arrived
  endpoint : e' = { e with
    sendBuf := e'.sendBuf
    sendPtr := e'.sendPtr
    sendDirty := true }
  coherent : Coherent impl t' e'

theorem stage_staged (data : Nat → UInt8) (len : Nat) (e : Endpoint) :
    (Implementation.stage data len e).staged = e.staged ++ slice data 0 len := by
  have hkeep : slice (storeRange len e.sendPtr data e.sendBuf) 0 e.sendPtr =
      slice e.sendBuf 0 e.sendPtr := slice_storeRange_before (by omega) data e.sendBuf
  have happ := slice_append (storeRange len e.sendPtr data e.sendBuf) 0 e.sendPtr len
  rw [Nat.zero_add, hkeep, slice_storeRange] at happ
  exact happ.symm

theorem stageOrSend_meets (data : Nat → UInt8) (len : Nat) {t : Transport} {e : Endpoint}
    (h : Coherent impl t e) :
    (impl.stageOrSend data len e).Meets (contract impl lossy reading)
      (fun t' e' _ => Sent impl (slice data 0 len) t e t' { e' with sendDirty := true }) t := by
  unfold Implementation.stageOrSend
  refine meets_get (meets_ite (fun hfit => ?_) (fun _ => ?_))
  · refine meets_pure ⟨?_, rfl, rfl, ?_⟩
    · rw [List.append_assoc, ← stage_staged]
      rfl
    · exact
        { sendPtr_le := by
            have := h.sendPtr_le
            show e.sendPtr + len ≤ networkStagingBufferSize
            omega
          recvPtr_le := h.recvPtr_le
          recvFill_le := h.recvFill_le
          clean := nofun
          pushed_le := h.pushed_le
          settled := h.settled
          tls_flushed := h.tls_flushed }
  · refine meets_bind (drainStaged_meets t e) ?_
    rintro t₁ e₁ - ⟨rfl, rfl⟩
    refine (sendLoop_meets _ (Nat.le_refl _)).mono ?_
    rintro t₂ e₂ - ⟨rfl, rfl⟩
    refine ⟨?_, ?_, rfl, ?_⟩
    · show _ ++ slice e.sendBuf 0 0 = _
      rw [slice_zero, List.append_nil, Transport.hand_handed, Transport.hand_handed]
    · rw [Transport.hand_arrived, Transport.hand_arrived]
    · exact
        { sendPtr_le := Nat.zero_le _
          recvPtr_le := h.recvPtr_le
          recvFill_le := h.recvFill_le
          clean := nofun
          pushed_le := hand_pushed_le _ (hand_pushed_le _ h.pushed_le)
          settled := hand_settled _ (hand_settled _ h.settled)
          tls_flushed := hand_tls_flushed _ (hand_tls_flushed _ h.tls_flushed) }

theorem sendDataInternal_meets (data : Nat → UInt8) {len : Int} (hlen : 0 < len) {t : Transport}
    {e : Endpoint} (h : Coherent impl t e) :
    (impl.sendDataInternal data len e).Meets (contract impl lossy reading)
      (fun t' e' _ => Sent impl (slice data 0 len.toNat) t e t' e') t := by
  unfold Implementation.sendDataInternal
  refine meets_check (fun hneg => absurd hlen (by omega)) fun _ => ?_
  refine meets_ite (fun hz => absurd hz (by omega)) fun _ => ?_
  refine meets_bind (stageOrSend_meets data len.toNat h) ?_
  exact fun t' e' _ hsent => hsent

structure Receiving (len : Nat) (t : Transport) (e : Endpoint) (t' : Transport) (e' : Endpoint) :
    Prop where
  transport : ∃ new, t' = { t with arrived := t.arrived ++ new } ∧
    e'.dest ++ e'.unread = e.unread ++ new
  endpoint : e' = { e with
    recvBuf := e'.recvBuf
    recvPtr := e'.recvPtr
    recvFill := e'.recvFill
    dest := e'.dest }
  recvPtr_le : e'.recvPtr ≤ e'.recvFill
  recvFill_le : e'.recvFill ≤ networkStagingBufferSize
  dest_le : e'.dest.length ≤ len

theorem refill_meets {len : Nat} {t t' : Transport} {e e' : Endpoint}
    (h : Receiving len t e t' e')
    (hread : e'.recvPtr = e'.recvFill → reading t' e') :
    (impl.refill e').Meets (contract impl lossy reading)
      (fun t'' e'' _ => Receiving len t e t'' e'' ∧ e''.dest = e'.dest ∧
        e''.recvPtr < e''.recvFill) t' := by
  unfold Implementation.refill
  refine meets_get (meets_ite (fun hempty => ?_) (fun hmore => ?_))
  · refine meets_request (hread hempty) fun reply hallowed => ?_
    cases reply with
    | none => exact ⟨hallowed.2.resolve_right id, by simp [channelErrors]⟩
    | some chunk =>
      refine meets_check (fun hzero => ?_) fun hpos => ?_
      · exact ⟨hallowed.2.resolve_right hzero, by simp [channelErrors]⟩
      obtain ⟨new, ht, hbytes⟩ := h.transport
      refine meets_pure
        ⟨⟨⟨new ++ chunk, ?_, ?_⟩, ?_, Nat.zero_le _, hallowed.1, h.dest_le⟩, rfl, hpos⟩
      · show { t' with arrived := t'.arrived ++ chunk } = _
        rw [ht, ← List.append_assoc]
      · rw [Endpoint.unread_of_drained hempty, List.append_nil] at hbytes
        show e'.dest ++ slice _ 0 (chunk.length - 0) = _
        rw [Nat.sub_zero, slice_storeRange, slice_getD, hbytes, List.append_assoc]
      · rw [h.endpoint]
  · have hle := h.recvPtr_le
    exact meets_pure ⟨h, rfl, by omega⟩

theorem copyOut_receiving {len : Nat} {t t' : Transport} {e e' : Endpoint}
    (h : Receiving len t e t' e') : Receiving len t e t' (Implementation.copyOut len e') := by
  obtain ⟨new, ht, hbytes⟩ := h.transport
  have hptr := h.recvPtr_le
  have hdest := h.dest_le
  refine ⟨⟨new, ht, ?_⟩, ?_, ?_, h.recvFill_le, ?_⟩
  · have hsplit : e'.recvFill - e'.recvPtr = min (e'.recvFill - e'.recvPtr) (len - e'.dest.length) +
        (e'.recvFill - (e'.recvPtr + min (e'.recvFill - e'.recvPtr) (len - e'.dest.length))) := by
      omega
    rw [← hbytes, Endpoint.unread, Endpoint.unread, hsplit, ← slice_append, ← List.append_assoc]
    rfl
  · rw [h.endpoint]
    rfl
  · simp only [Implementation.copyOut]
    omega
  · simp only [Implementation.copyOut, List.length_append, length_slice]
    omega

theorem copyOut_progress {len : Nat} {e : Endpoint} (hmore : e.recvPtr < e.recvFill)
    (hdest : e.dest.length < len) :
    e.dest.length < (Implementation.copyOut len e).dest.length := by
  simp only [Implementation.copyOut, List.length_append, length_slice]
  omega

-- the passes left cover the bytes still to deliver, so the loop ends with all of them
theorem recvLoop_meets {len : Nat} {t : Transport} {e : Endpoint}
    (hread : ∀ t' e', Receiving len t e t' e' → e'.recvPtr = e'.recvFill →
      e'.dest.length < len → reading t' e') :
    ∀ {fuel : Nat} {t' : Transport} {e' : Endpoint}, Receiving len t e t' e' →
      len ≤ e'.dest.length + fuel →
      (impl.recvLoop len fuel e').Meets (contract impl lossy reading)
        (fun t'' e'' _ => Receiving len t e t'' e'' ∧ e''.dest.length = len) t' := by
  intro fuel
  induction fuel with
  | zero =>
    intro t' e' h hfuel
    have hdest := h.dest_le
    show ((if len ≤ e'.dest.length then .ret e' () else .fail _) : Proc _ _ _ _).Meets _ _ t'
    rw [if_pos (by omega)]
    exact ⟨h, by omega⟩
  | succ fuel ih =>
    intro t' e' h hfuel
    have hdest := h.dest_le
    unfold Implementation.recvLoop
    refine meets_get (meets_ite (fun hmore => ?_) (fun hdone => meets_pure ⟨h, by omega⟩))
    refine meets_bind (refill_meets h fun hempty => hread t' e' h hempty hmore) ?_
    rintro t₁ e₁ - ⟨h₁, hsame, hfilled⟩
    have hnext := copyOut_progress hfilled (hsame ▸ hmore)
    refine meets_modify (ih (copyOut_receiving h₁) ?_)
    rw [hsame] at hnext
    omega

structure Received (impl : Implementation) (t : Transport) (e : Endpoint) (t' : Transport)
    (e' : Endpoint) : Prop where
  handed : t'.handed = t.handed ++ e.staged
  flushed : t'.flushed = true
  pushed : t'.pushed = t'.handed.length
  sendPtr : e'.sendPtr = 0
  arrived : ∃ new, t'.arrived = t.arrived ++ new ∧ e'.dest ++ e'.unread = e.unread ++ new
  base : e'.base = e.base
  isServer : e'.isServer = e.isServer
  coherent : Coherent impl t' e'

theorem Receiving.received {len : Nat} {t t₁ t' : Transport} {e e₁ e' : Endpoint}
    (h : Coherent impl t e) (hf : Flushed t e t₁ e₁)
    (hr : Receiving len t₁ { e₁ with dest := [] } t' e') : Received impl t e t' e' := by
  obtain ⟨new, ht, hbytes⟩ := hr.transport
  have hc := hf.coherent h
  have he := hr.endpoint
  have hunread : e₁.unread = e.unread := by
    rw [hf.endpoint]
    rfl
  have hptr : e'.sendPtr = 0 := by
    rw [he, hf.endpoint]
  have hbase : e'.base = e.base ∧ e'.isServer = e.isServer := by
    rw [he, hf.endpoint]
    exact ⟨rfl, rfl⟩
  refine
    { handed := ?_
      flushed := ?_
      pushed := ?_
      sendPtr := hptr
      arrived := ⟨new, ?_, ?_⟩
      base := hbase.1
      isServer := hbase.2
      coherent := ?_ }
  · rw [ht, ← hf.handed]
  · rw [ht, ← hf.flushed]
  · rw [ht]
    exact hf.pushed
  · rw [ht, ← hf.arrived]
  · rw [hbytes, ← hunread]
    rfl
  · exact
      { sendPtr_le := by
          rw [hptr]
          exact Nat.zero_le _
        recvPtr_le := hr.recvPtr_le
        recvFill_le := hr.recvFill_le
        clean := by
          rw [ht]
          exact fun _ => ⟨hptr, hf.flushed⟩
        pushed_le := by
          rw [ht]
          exact hc.pushed_le
        settled := by
          rw [ht]
          exact hc.settled
        tls_flushed := by
          rw [ht]
          exact hc.tls_flushed }

theorem recvDataInternal_meets {len : Int} (hlen : 0 < len) {t : Transport} {e : Endpoint}
    (h : Coherent impl t e)
    (hread : ∀ t' e', Received impl t e t' e' → e'.recvPtr = e'.recvFill →
      e'.dest.length < len.toNat → reading t' e') :
    (impl.recvDataInternal len e).Meets (contract impl lossy reading)
      (fun t' e' _ => Received impl t e t' e' ∧ e'.dest.length = len.toNat) t := by
  unfold Implementation.recvDataInternal
  refine meets_check (fun hneg => absurd hlen (by omega)) fun _ => ?_
  refine meets_ite (fun hz => absurd hz (by omega)) fun _ => ?_
  refine meets_bind (flushUnlocked_meets h) fun t₁ e₁ _ hf => ?_
  have hc := hf.coherent h
  refine meets_modify (Proc.Meets.mono (fun t' e' _ ⟨hr, hdest⟩ => ⟨hr.received h hf, hdest⟩)
    (recvLoop_meets (fun t' e' hr hempty hmore => hread t' e' (hr.received h hf) hempty hmore) ?_
      (Nat.le_add_left _ _)))
  exact ⟨⟨[], by rw [List.append_nil], by rw [List.append_nil]; rfl⟩, rfl, hc.recvPtr_le,
    hc.recvFill_le, Nat.zero_le _⟩

end EmpTool.Io
