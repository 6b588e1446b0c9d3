import EmpTool.Io.CallContracts

namespace EmpTool.Io

open Bits Crypto Memory Process

inductive Control where
  | idle (e : Endpoint)
  | busy (proc : Proc Endpoint Request Request.Reply Unit)

structure Party where
  transport : Transport
  control : Control

-- a call begins, the transport replies to the request the endpoint waits in, or the call returns
inductive Event where
  | call (c : Call)
  | wrote (n : Nat)
  | flushed
  | read (reply : Option (List UInt8))
  | returned

def Event.reply : Event → (r : Request) → Option r.Reply
  | .wrote n, .write bytes => if n ≤ bytes.length then some n else none
  | .flushed, .fflush => some ()
  | .read none, .read => some none
  | .read (some chunk), .read =>
    if chunk.length ≤ networkStagingBufferSize then some (some chunk) else none
  | _, _ => none

def Party.step (p : Platform) (hash : HashFunction) : Party → Event → Option Party
  | ⟨t, .idle e⟩, .call c => some ⟨t, .busy (c.perform p hash e)⟩
  | ⟨t, .busy (.ret e _)⟩, .returned => some ⟨t, .idle e⟩
  | ⟨t, .busy (.call _ r resume)⟩, ev =>
    (ev.reply r).map fun reply => ⟨t.answer p.implementation r reply, .busy (resume reply)⟩
  | _, _ => none

def Party.run (p : Platform) (hash : HashFunction) (party : Party) (events : List Event) :
    Option Party :=
  events.foldlM (Party.step p hash) party

structure History where
  done : List Call := []
  pending : Option Call := none

def History.step (h : History) : Event → History
  | .call c => { h with pending := some c }
  | .returned => { done := h.done ++ h.pending.toList }
  | _ => h

def completed (events : List Event) : List Call := (events.foldl History.step {}).done

section Runs

def Party.Upholds (impl : Implementation) (lossy : Bool)
    (reading post : Transport → Endpoint → Prop) (party : Party) : Prop :=
  match party.control with
  | .idle e => post party.transport e
  | .busy proc => proc.Meets (contract impl lossy reading) (fun t e _ => post t e) party.transport

def Event.Positive : Event → Prop
  | .wrote n => 0 < n
  | .read none => False
  | .read (some chunk) => 0 < chunk.length
  | _ => True

theorem reply_allowed {ev : Event} {r : Request} {reply : r.Reply}
    (h : ev.reply r = some reply) : r.Allowed reply ∧ (ev.Positive → r.Positive reply) := by
  unfold Event.reply at h
  split at h
  case h_1 n bytes =>
    split at h
    case isTrue hn =>
      cases h
      exact ⟨hn, fun hpos _ => hpos⟩
    case isFalse => cases h
  case h_2 => exact ⟨trivial, fun _ => trivial⟩
  case h_3 =>
    cases h
    exact ⟨trivial, id⟩
  case h_4 chunk =>
    split at h
    case isTrue hchunk =>
      cases h
      exact ⟨hchunk, id⟩
    case isFalse => cases h
  case h_5 => cases h

variable {p : Platform} {hash : HashFunction}

theorem Party.Upholds.step {lossy : Bool} {reading post : Transport → Endpoint → Prop}
    {party party' : Party} {ev : Event} (h : party.Upholds p.implementation lossy reading post)
    (hpos : lossy = true ∨ ev.Positive)
    (hcall : ∀ c t e, ev = .call c → post t e →
      (c.perform p hash e).Meets (contract p.implementation lossy reading)
        (fun t e _ => post t e) t)
    (hstep : party.step p hash ev = some party') :
    party'.Upholds p.implementation lossy reading post := by
  unfold Party.step at hstep
  split at hstep
  case h_1 t e c =>
    cases hstep
    exact hcall c t e rfl h
  case h_2 t e u =>
    cases hstep
    exact h
  case h_3 _ t e r resume =>
    obtain ⟨reply, hreply, rfl⟩ := Option.map_eq_some_iff.mp hstep
    obtain ⟨hallowed, hpositive⟩ := reply_allowed hreply
    exact h.2 reply ⟨hallowed, hpos.imp_right hpositive⟩
  case h_4 => cases hstep

abbrev Party.Good (p : Platform) (role : Option HashOption × Bool) (party : Party) : Prop :=
  party.Upholds p.implementation true Reading (Refines p.implementation role)

structure Accounted (impl : Implementation) (role : Option HashOption × Bool) (done : List Call)
    (t : Transport) (e : Endpoint) : Prop extends Refines impl role t e where
  sent_eq : e.base.sent = done.flatMap Call.sends
  received_eq : e.base.received.map List.length = done.flatMap Call.receives
  dest_eq : e.dest = e.base.received.getLastD []

def Party.Accounts (p : Platform) (role : Option HashOption × Bool) (party : Party) (h : History) :
    Prop :=
  match party.control, h.pending with
  | .idle e, none => Accounted p.implementation role h.done party.transport e
  | .busy proc, some c =>
    proc.Meets (contract p.implementation true
      (Waiting (h.done.flatMap Call.sends) (h.done.flatMap Call.receives)))
      (fun t e _ => Accounted p.implementation role (h.done ++ [c]) t e) party.transport
  | _, _ => False

variable {role : Option HashOption × Bool}

theorem Accounted.carried {impl : Implementation} {done : List Call} {t t' : Transport}
    {e e' : Endpoint} {c : Call} (h : Accounted impl role done t e) (hrefines : Refines impl role t' e')
    (hcarried : Carried c.sends c.receives e e') : Accounted impl role (done ++ [c]) t' e' := by
  obtain ⟨got, hreceived, hcounts, hdest⟩ := hcarried.received
  refine ⟨hrefines, ?_, ?_, ?_⟩
  · rw [hcarried.sent, h.sent_eq, List.flatMap_append, List.flatMap_singleton]
  · rw [hreceived, List.map_append, h.received_eq, hcounts, List.flatMap_append,
      List.flatMap_singleton]
  · rw [hdest, hreceived, h.dest_eq]
    simp [List.getLast?_append]

theorem Party.Accounts.idle {t : Transport} {e : Endpoint} {h : History}
    (haccounts : Party.Accounts p role ⟨t, .idle e⟩ h) :
    h.pending = none ∧ Accounted p.implementation role h.done t e := by
  obtain ⟨done, pending⟩ := h
  cases pending with
  | none => exact ⟨rfl, haccounts⟩
  | some c => exact haccounts.elim

theorem Party.Accounts.busy {t : Transport} {proc : Proc Endpoint Request Request.Reply Unit}
    {h : History} (haccounts : Party.Accounts p role ⟨t, .busy proc⟩ h) :
    ∃ c, h.pending = some c ∧ proc.Meets (contract p.implementation true
        (Waiting (h.done.flatMap Call.sends) (h.done.flatMap Call.receives)))
      (fun t e _ => Accounted p.implementation role (h.done ++ [c]) t e) t := by
  obtain ⟨done, pending⟩ := h
  cases pending with
  | none => exact haccounts.elim
  | some c => exact ⟨c, rfl, haccounts⟩

theorem Party.Accounts.step {party party' : Party} {ev : Event} {h : History}
    (haccounts : party.Accounts p role h) (hstep : party.step p hash ev = some party') :
    party'.Accounts p role (h.step ev) := by
  unfold Party.step at hstep
  split at hstep
  case h_1 t e c =>
    cases hstep
    obtain ⟨hpending, haccounted⟩ := haccounts.idle
    obtain ⟨done, _⟩ := h
    cases hpending
    refine (perform_carries c _ _ t e haccounted.toRefines haccounted.sent_eq ?_).mono
      fun t' e' _ ⟨hrefines, hcarried⟩ => haccounted.carried hrefines hcarried
    rw [haccounted.received_eq]
    exact List.prefix_refl _
  case h_2 t e u =>
    cases hstep
    obtain ⟨c, hpending, hmeets⟩ := haccounts.busy
    obtain ⟨done, _⟩ := h
    cases hpending
    exact hmeets
  case h_3 _ t e r resume =>
    obtain ⟨reply, hreply, rfl⟩ := Option.map_eq_some_iff.mp hstep
    obtain ⟨hallowed, -⟩ := reply_allowed hreply
    obtain ⟨c, hpending, hmeets⟩ := haccounts.busy
    obtain ⟨done, _⟩ := h
    cases hpending
    have hkeep : History.step ⟨done, some c⟩ ev = ⟨done, some c⟩ := by
      cases ev with
      | call => cases hreply
      | returned => cases hreply
      | wrote => rfl
      | flushed => rfl
      | read => rfl
    rw [hkeep]
    exact hmeets.2 reply ⟨hallowed, Or.inl rfl⟩
  case h_4 => cases hstep

theorem Party.Accounts.run {party party' : Party} {events : List Event} {h : History}
    (haccounts : party.Accounts p role h) (hrun : party.run p hash events = some party') :
    party'.Accounts p role (events.foldl History.step h) := by
  induction events generalizing party h with
  | nil =>
    cases hrun
    exact haccounts
  | cons ev events ih =>
    obtain ⟨next, hstep, hrest⟩ := Option.bind_eq_some_iff.mp hrun
    exact ih (haccounts.step hstep) hrest

def Endpoint.start (isServer : Bool) (sendBuf recvBuf : Nat → UInt8) (fs : Option HashOption)
    (sendFirst : Bool) : Endpoint where
  base := { fs := fs.map fun opt => { opt := opt }, fsSendFirst := sendFirst }
  isServer := isServer
  sendBuf := sendBuf
  recvBuf := recvBuf

theorem enableFs_start (isServer : Bool) (sendBuf recvBuf : Nat → UInt8) (opt : HashOption)
    (sendFirst : Bool) :
    enableFs opt sendFirst (Endpoint.start isServer sendBuf recvBuf none false) =
      .ret (Endpoint.start isServer sendBuf recvBuf (some opt) sendFirst) () := rfl

theorem refines_start (isServer : Bool) (sendBuf recvBuf : Nat → UInt8) (fs : Option HashOption)
    (sendFirst : Bool) :
    Refines p.implementation (fs, sendFirst) {}
      (Endpoint.start isServer sendBuf recvBuf fs sendFirst) where
  sendPtr_le := Nat.zero_le _
  recvPtr_le := Nat.le_refl _
  recvFill_le := Nat.zero_le _
  clean := fun _ => ⟨rfl, rfl⟩
  pushed_le := Nat.le_refl _
  settled := fun _ => rfl
  tls_flushed := fun _ => rfl
  sent := rfl
  received := rfl
  transcribed := by
    refine ⟨?_, ?_⟩
    · intro st hst
      obtain ⟨opt, -, rfl⟩ := Option.map_eq_some_iff.mp hst
      rfl
    · intro st hst
      obtain ⟨opt, -, rfl⟩ := Option.map_eq_some_iff.mp hst
      rfl
  role_eq := by
    cases fs with
    | none => rfl
    | some opt => rfl

theorem accounts_start (p : Platform) (isServer : Bool) (sendBuf recvBuf : Nat → UInt8)
    (fs : Option HashOption) (sendFirst : Bool) :
    Party.Accounts p (fs, sendFirst)
      ⟨{}, .idle (Endpoint.start isServer sendBuf recvBuf fs sendFirst)⟩ {} :=
  ⟨refines_start isServer sendBuf recvBuf fs sendFirst, rfl, rfl, rfl⟩

theorem channel_refines_fifo (p : Platform) (hash : HashFunction) (isServer : Bool)
    (sendBuf recvBuf : Nat → UInt8) (fs : Option HashOption) (sendFirst : Bool)
    (events : List Event) (party : Party)
    (hrun : Party.run p hash ⟨{}, .idle (Endpoint.start isServer sendBuf recvBuf fs sendFirst)⟩
      events = some party) :
    (∀ e, party.control = .idle e →
      party.transport.handed ++ slice e.sendBuf 0 e.sendPtr =
        ((completed events).flatMap Call.sends).flatten ∧
      e.base.received.flatten ++ slice e.recvBuf e.recvPtr (e.recvFill - e.recvPtr) =
        party.transport.arrived ∧
      e.base.received.map List.length = (completed events).flatMap Call.receives ∧
      e.dest = e.base.received.getLastD []) ∧
    (∀ e resume, party.control = .busy (.call e .read resume) →
      e.sendPtr = 0 ∧ party.transport.flushed = true ∧
      party.transport.handed = ((completed events).flatMap Call.sends).flatten ∧
      e.base.received.flatten ++ e.dest ++
        slice e.recvBuf e.recvPtr (e.recvFill - e.recvPtr) = party.transport.arrived ∧
      (completed events).flatMap Call.receives <+: e.base.received.map List.length) ∧
    ∀ message, party.control = .busy (.fail message) →
      message ∈ channelErrors p.implementation := by
  have haccounts := (accounts_start p isServer sendBuf recvBuf fs sendFirst).run hrun
  obtain ⟨t, control⟩ := party
  refine ⟨?_, ?_, ?_⟩
  · rintro e rfl
    obtain ⟨-, haccounted⟩ := haccounts.idle
    exact ⟨haccounted.sent.trans (congrArg List.flatten haccounted.sent_eq), haccounted.received,
      haccounted.received_eq, haccounted.dest_eq⟩
  · rintro e resume rfl
    obtain ⟨_, -, hwaiting, -⟩ := haccounts.busy
    exact ⟨hwaiting.sendPtr, hwaiting.flushed,
      hwaiting.handed.trans (congrArg List.flatten hwaiting.sent_eq), hwaiting.received,
      hwaiting.received_prefix⟩
  · rintro message rfl
    obtain ⟨_, -, hmeets⟩ := haccounts.busy
    exact hmeets.2

def sampleEvents : List Event :=
  [.call (.sendData (fun i => UInt8.ofNat (i + 1)) 3), .returned, .call (.recvData 2), .wrote 2,
    .wrote 1, .flushed, .read (some [9, 8, 7]), .returned]

theorem channel_refines_fifo_sampleEvents :
    ∃ party e, Party.run ⟨.net, false, fun _ => 0⟩ (fun _ _ _ => 0)
        ⟨{}, .idle (Endpoint.start true (fun _ => 0) (fun _ => 0) none false)⟩ sampleEvents =
          some party ∧
      party.control = .idle e ∧ (completed sampleEvents).flatMap Call.sends = [[1, 2, 3]] ∧
      e.base.received = [[9, 8]] ∧ (completed sampleEvents).flatMap Call.receives = [2] ∧
      party.transport.handed ++ slice e.sendBuf 0 e.sendPtr =
        ((completed sampleEvents).flatMap Call.sends).flatten ∧
      e.base.received.flatten ++ slice e.recvBuf e.recvPtr (e.recvFill - e.recvPtr) =
        party.transport.arrived := by
  refine ⟨_, _, rfl, rfl, rfl, rfl, rfl, ?_⟩
  have hidle := (channel_refines_fifo ⟨.net, false, fun _ => 0⟩ (fun _ _ _ => 0) true (fun _ => 0)
    (fun _ => 0) none false sampleEvents _ rfl).1 _ rfl
  exact ⟨hidle.1, hidle.2.1⟩

end Runs

end EmpTool.Io
