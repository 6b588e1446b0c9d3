import EmpTool.Io.Traffic

namespace EmpTool.Io

open Bits Crypto Memory Process

section Contracts

variable {p : Platform} {hash : HashFunction} {role : Option HashOption × Bool}

structure SameTranscripts (st st' : FsState) : Prop where
  opt : st'.opt = st.opt
  send : st'.send.transcript = st.send.transcript
  recv : st'.recv.transcript = st.recv.transcript

def withFs (st : FsState) (e : Endpoint) : Endpoint := onBase (fun b => { b with fs := some st }) e

def challenge (hash : HashFunction) (opt : HashOption) (first second : List UInt8) : Block :=
  blockOfBytes (hash opt
    (slice (hash opt first) 0 digestSize ++ slice (hash opt second) 0 digestSize))

theorem requireFs_ok {b : IOChannel} {st : FsState} (hst : b.fs = some st) (message : String) :
    b.requireFs message = .ok st := by
  simp [IOChannel.requireFs, hst]

theorem getSendDigest_eq {e : Endpoint} {st : FsState} (hst : e.base.fs = some st) :
    ∃ st', getSendDigest hash e =
      .ret (withFs st' e) (blockOfBytes (hash st.opt st.send.transcript)) ∧
      SameTranscripts st st' := by
  obtain ⟨hval, hkeep⟩ := HashT.digest_snapshot hash st.opt st.send
  refine ⟨{ st with send := (st.send.digest hash st.opt false).1 }, ?_, rfl, hkeep, rfl⟩
  rw [← hval]
  show Proc.bind (Action.ofExcept (e.base.requireFs _) e) _ = _
  rw [requireFs_ok hst]
  rfl

theorem getRecvDigest_eq {e : Endpoint} {st : FsState} (hst : e.base.fs = some st) :
    ∃ st', getRecvDigest hash e =
      .ret (withFs st' e) (blockOfBytes (hash st.opt st.recv.transcript)) ∧
      SameTranscripts st st' := by
  obtain ⟨hval, hkeep⟩ := HashT.digest_snapshot hash st.opt st.recv
  refine ⟨{ st with recv := (st.recv.digest hash st.opt false).1 }, ?_, rfl, rfl, hkeep⟩
  rw [← hval]
  show Proc.bind (Action.ofExcept (e.base.requireFs _) e) _ = _
  rw [requireFs_ok hst]
  rfl

theorem slice_halves (n : Nat) (a b mem : Nat → UInt8) (first : Bool) :
    slice (storeRange n (if first then n else 0) b (storeRange n (if first then 0 else n) a mem)) 0
        (2 * n) =
      if first then slice a 0 n ++ slice b 0 n else slice b 0 n ++ slice a 0 n := by
  rw [Nat.two_mul, ← slice_append, Nat.zero_add]
  cases first with
  | true =>
    simp only [if_true]
    rw [slice_storeRange_before (by omega), slice_storeRange, slice_storeRange]
  | false =>
    simp only [Bool.false_eq_true, if_false]
    rw [slice_storeRange]
    congr 1
    rw [← slice_storeRange n n a mem]
    exact slice_congr fun i _ => storeRange_off (by omega)

theorem getDigest_eq {e : Endpoint} {st : FsState} (hst : e.base.fs = some st) :
    ∃ st', getDigest p hash e =
      .ret (withFs st' e)
        (if e.base.fsSendFirst then challenge hash st.opt st.send.transcript st.recv.transcript
          else challenge hash st.opt st.recv.transcript st.send.transcript) ∧
      SameTranscripts st st' := by
  obtain ⟨hsval, hskeep⟩ := HashT.digest_snapshot hash st.opt st.send
  obtain ⟨hrval, hrkeep⟩ := HashT.digest_snapshot hash st.opt st.recv
  refine ⟨{ st with
    send := (st.send.digest hash st.opt false).1
    recv := (st.recv.digest hash st.opt false).1 }, ?_, rfl, hskeep, hrkeep⟩
  show Proc.bind (Action.ofExcept (e.base.requireFs _) e) _ = _
  rw [requireFs_ok hst]
  show Proc.ret _ (blockOfBytes (hash st.opt (slice (storeRange digestSize _
    (st.recv.digest hash st.opt false).2 (storeRange digestSize _
      (st.send.digest hash st.opt false).2 p.stack)) 0 (2 * digestSize)))) = _
  rw [slice_halves, hsval, hrval]
  cases e.base.fsSendFirst with
  | true => rfl
  | false => rfl

theorem Refines.withFs {t : Transport} {e : Endpoint} {st st' : FsState}
    (h : Refines p.implementation role t e) (hst : e.base.fs = some st)
    (hsame : SameTranscripts st st') : Refines p.implementation role t (withFs st' e) where
  toCoherent := h.toCoherent.withBase _
  sent := h.sent
  received := h.received
  transcribed := by
    refine ⟨?_, ?_⟩
    · rintro _ ⟨rfl⟩
      exact hsame.send.trans (h.transcribed.send st hst)
    · rintro _ ⟨rfl⟩
      exact hsame.recv.trans (h.transcribed.recv st hst)
  role_eq := by
    rw [← h.role_eq, IOChannel.role, IOChannel.role, hst]
    show (some st'.opt, _) = (some st.opt, _)
    rw [hsame.opt]
    rfl

theorem requireFs_error {b : IOChannel} (hst : b.fs = none) (message : String) :
    b.requireFs message = .error message := by
  simp [IOChannel.requireFs, hst]

theorem snapshot_sends {x : ChannelM Block} (message : String)
    (hm : message ∈ channelErrors p.implementation)
    (hnone : ∀ e, e.base.fs = none → x e = .fail message)
    (hsome : ∀ e st, e.base.fs = some st →
      ∃ st' d, x e = .ret (withFs st' e) d ∧ SameTranscripts st st') :
    Sends p role [] (do let _ ← x; pure ()) := by
  intro reading t e h
  have hx : (x e).Meets (contract p.implementation true reading)
      (fun t' e' _ => Refines p.implementation role t' e' ∧ Carried [] [] e e') t := by
    cases hst : e.base.fs with
    | none =>
      rw [hnone e hst]
      exact ⟨rfl, hm⟩
    | some st =>
      obtain ⟨st', d, hx, hsame⟩ := hsome e st hst
      rw [hx]
      exact ⟨h.withFs hst hsame, Carried.idle rfl rfl rfl⟩
  exact meets_bind hx fun t' e' _ h' => h'

theorem perform_carries (c : Call) : Carries p role c.sends c.receives (c.perform p hash) := by
  cases c with
  | sendData data nbyte => exact (sendData_sends data nbyte).carries
  | recvData nbyte => exact recvData_carries nbyte
  | sendBlock data nblock => exact (sendBlock_sends data nblock).carries
  | recvBlock nblock => exact recvBlock_carries nblock
  | sendBool data length => exact (sendBool_sends data length).carries
  | recvBool data length =>
    intro sent received t e h hsent hreceived
    exact meets_bind (recvBool_carries data length sent received t e h hsent hreceived)
      fun t' e' _ h' => h'
  | flush => exact flush_sends.carries
  | getSendDigest =>
    refine Sends.carries (snapshot_sends "IOChannel::get_send_digest: enable_fs first"
      (by simp [channelErrors]) (fun e hst => ?_) fun e st hst => ?_)
    · show Proc.bind (Action.ofExcept (e.base.requireFs _) e) _ = _
      rw [requireFs_error hst]
      rfl
    · obtain ⟨st', heq, hsame⟩ := getSendDigest_eq hst
      exact ⟨st', _, heq, hsame⟩
  | getRecvDigest =>
    refine Sends.carries (snapshot_sends "IOChannel::get_recv_digest: enable_fs first"
      (by simp [channelErrors]) (fun e hst => ?_) fun e st hst => ?_)
    · show Proc.bind (Action.ofExcept (e.base.requireFs _) e) _ = _
      rw [requireFs_error hst]
      rfl
    · obtain ⟨st', heq, hsame⟩ := getRecvDigest_eq hst
      exact ⟨st', _, heq, hsame⟩
  | getDigest =>
    refine Sends.carries (snapshot_sends "IOChannel::get_digest: enable_fs first"
      (by simp [channelErrors]) (fun e hst => ?_) fun e st hst => ?_)
    · show Proc.bind (Action.ofExcept (e.base.requireFs _) e) _ = _
      rw [requireFs_error hst]
      rfl
    · obtain ⟨st', heq, hsame⟩ := getDigest_eq hst
      exact ⟨st', _, heq, hsame⟩

theorem contract_mono {impl : Implementation} {lossy : Bool}
    {reading reading' : Transport → Endpoint → Prop} (h : ∀ t e, reading t e → reading' t e)
    {α : Type} {post : Transport → Endpoint → α → Prop}
    {proc : Proc Endpoint Request Request.Reply α} {t : Transport}
    (hproc : proc.Meets (contract impl lossy reading) post t) :
    proc.Meets (contract impl lossy reading') post t := by
  refine hproc.weaken fun t e r hcalling => ?_
  cases r with
  | write bytes => exact hcalling
  | fflush => exact hcalling
  | read => exact h t e hcalling

theorem perform_preserves (c : Call) {t : Transport} {e : Endpoint}
    (h : Refines p.implementation role t e) :
    (c.perform p hash e).Meets (contract p.implementation true Reading)
      (fun t' e' _ => Refines p.implementation role t' e') t := by
  have hcarries : Proc.Meets _ _ t (c.perform p hash e) :=
    perform_carries c e.base.sent [] t e h rfl List.nil_prefix
  exact contract_mono (fun _ _ hwaiting => hwaiting.toReading) (hcarries.mono fun _ _ _ h' => h'.1)

end Contracts

end EmpTool.Io
