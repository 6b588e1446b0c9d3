import EmpTool.Io.Duplex

namespace EmpTool.Io

open Bits Crypto Memory Process

variable {p : Bool → Platform} {hash : HashFunction} {role : Bool → Option HashOption × Bool}

structure Duplex.Good (p : Bool → Platform) (role : Bool → Option HashOption × Bool) (d : Duplex) :
    Prop where
  linked : d.Linked
  party : ∀ s, (d.party s).Good (p s) (role s)

theorem Duplex.Good.run {d d' : Duplex} {moves : List Move} (h : d.Good p role)
    (hrun : d.run p hash moves = some d') : d'.Good p role := by
  refine run_invariant (fun d d' m _ h hstep => ?_) h hrun
  refine ⟨h.linked.step hstep, Duplex.upholds_step h.party ?_ hstep⟩
  intro s c t e _ he
  exact perform_preserves c he

theorem Duplex.Good.received_prefix {d : Duplex} (h : d.Good p role) {s : Bool} {e e' : Endpoint}
    (he : (d.party s).control = .idle e) (he' : (d.party !s).control = .idle e') :
    e.base.received.flatten <+: e'.base.sent.flatten := by
  have hs := h.party s
  have hs' := h.party (!s)
  simp only [Party.Upholds, he] at hs
  simp only [Party.Upholds, he'] at hs'
  have harrived : e.base.received.flatten <+: d.arrived s := by
    show _ <+: (d.party s).transport.arrived
    rw [← hs.received]
    exact List.prefix_append _ _
  have hhanded : d.handed (!s) <+: e'.base.sent.flatten := by
    rw [← hs'.sent]
    exact List.prefix_append _ _
  exact ((harrived.trans (h.linked.arrived s)).trans (List.take_prefix _ _)).trans hhanded

structure Snapshot (hash : HashFunction) (opt : HashOption) (sendFirst : Bool)
    (sent received : List UInt8) (p : Platform) (e : Endpoint) : Prop where
  send : ∃ e', getSendDigest hash e = .ret e' (blockOfBytes (hash opt sent))
  recv : ∃ e', getRecvDigest hash e = .ret e' (blockOfBytes (hash opt received))
  both : ∃ e', getDigest p hash e =
    .ret e' (if sendFirst then challenge hash opt sent received
      else challenge hash opt received sent)

theorem Refines.snapshot {p : Platform} {opt : HashOption} {sendFirst : Bool} {t : Transport}
    {e : Endpoint} (h : Refines p.implementation (some opt, sendFirst) t e) :
    Snapshot hash opt sendFirst e.base.sent.flatten e.base.received.flatten p e := by
  have hrole := h.role_eq
  simp only [IOChannel.role, Prod.mk.injEq] at hrole
  obtain ⟨hfs, hfirst⟩ := hrole
  obtain ⟨st, hst, hopt⟩ := Option.map_eq_some_iff.mp hfs
  obtain ⟨sst, hsend, -⟩ := @getSendDigest_eq hash e st hst
  obtain ⟨rst, hrecv, -⟩ := @getRecvDigest_eq hash e st hst
  obtain ⟨bst, hboth, -⟩ := @getDigest_eq p hash e st hst
  rw [hopt, h.transcribed.send st hst] at hsend
  rw [hopt, h.transcribed.recv st hst] at hrecv
  rw [hopt, h.transcribed.send st hst, h.transcribed.recv st hst, hfirst] at hboth
  exact ⟨⟨_, hsend⟩, ⟨_, hrecv⟩, ⟨_, hboth⟩⟩

theorem transcripts_agree (p : Bool → Platform) (hash : HashFunction) (opt : HashOption)
    (sendFirst : Bool → Bool) (hopposite : ∀ s, sendFirst (!s) = !sendFirst s)
    (isServer : Bool → Bool) (sendBuf recvBuf : Bool → Nat → UInt8) (start : Bool → Endpoint)
    (hstart : ∀ s, enableFs opt (sendFirst s)
      (Endpoint.start (isServer s) (sendBuf s) (recvBuf s) none false) = .ret (start s) ())
    (moves : List Move) (d : Duplex)
    (hrun : Duplex.run p hash ⟨fun s => ⟨{}, .idle (start s)⟩, fun _ => 0⟩ moves = some d)
    (e : Bool → Endpoint) (hidle : ∀ s, (d.party s).control = .idle (e s))
    (hdrained : ∀ s,
      (e s).base.received.flatten.length = (e !s).base.sent.flatten.length) :
    (∃ digest, ∀ s, ∃ e', getDigest (p s) hash (e s) = .ret e' digest) ∧
    ∀ s, ∃ digest, (∃ e', getSendDigest hash (e s) = .ret e' digest) ∧
      ∃ e', getRecvDigest hash (e !s) = .ret e' digest := by
  have hgood : Duplex.Good p (fun s => (some opt, sendFirst s))
      ⟨fun s => ⟨{}, .idle (start s)⟩, fun _ => 0⟩ := by
    refine ⟨⟨fun _ => Nat.le_refl _, fun _ => List.nil_prefix⟩, fun s => ?_⟩
    have heq := hstart s
    rw [enableFs_start] at heq
    injection heq with heq
    show Refines (p s).implementation _ {} (start s)
    rw [← heq]
    exact refines_start (isServer s) (sendBuf s) (recvBuf s) (some opt) (sendFirst s)
  have hend := hgood.run hrun
  have hrefines : ∀ s, Refines (p s).implementation (some opt, sendFirst s) (d.party s).transport
      (e s) := by
    intro s
    have hs := hend.party s
    simp only [Party.Upholds, hidle s] at hs
    exact hs
  have hbytes : ∀ s, (e s).base.received.flatten = (e !s).base.sent.flatten := by
    intro s
    exact (hend.received_prefix (hidle s) (hidle !s)).eq_of_length (hdrained s)
  have hsnap := fun s => @Refines.snapshot hash (p s) opt (sendFirst s) _ _ (hrefines s)
  refine ⟨⟨if sendFirst true then
      challenge hash opt (e true).base.sent.flatten (e true).base.received.flatten
    else challenge hash opt (e true).base.received.flatten (e true).base.sent.flatten,
      fun s => ?_⟩, fun s => ⟨_, (hsnap s).send, ?_⟩⟩
  · obtain ⟨e', hboth⟩ := (hsnap s).both
    refine ⟨e', hboth.trans ?_⟩
    cases s with
    | true => rfl
    | false =>
      have hfalse : sendFirst false = !sendFirst true := hopposite true
      have hsent : (e false).base.sent.flatten = (e true).base.received.flatten :=
        (hbytes true).symm
      rw [hfalse, hbytes false, hsent]
      cases sendFirst true with
      | true => rfl
      | false => rfl
  · have hpeer := (hsnap !s).recv
    rw [hbytes (!s), Bool.not_not] at hpeer
    exact hpeer

def sampleHash : HashFunction :=
  fun _ bytes i => bytes.foldl (fun acc b => acc * 31 + b) (UInt8.ofNat i)

-- three bytes in one call on one side, in two calls with a snapshot between them on the other
def sampleMoves : List Move :=
  [.step true (.call (.sendData (fun i => UInt8.ofNat (i + 1)) 3)), .step true .returned,
    .step false (.call (.recvData 1)), .step true (.call .flush), .step true (.wrote 3),
    .step true .flushed, .step false (.read (some [1, 2])), .step false .returned,
    .step false (.call .getDigest), .step true .returned, .step false .returned,
    .step false (.call (.recvData 2)), .step false (.read (some [3])), .step false .returned]

theorem transcripts_agree_sampleMoves :
    ∃ d, ∃ e : Bool → Endpoint,
      Duplex.run (fun _ => ⟨.net, false, fun _ => 0⟩) sampleHash
        ⟨fun s => ⟨{}, .idle (Endpoint.start s (fun _ => 0) (fun _ => 0) (some .sha256) s)⟩,
          fun _ => 0⟩ sampleMoves = some d ∧
      (∀ s, (d.party s).control = .idle (e s)) ∧ (e true).base.sent = [[1, 2, 3]] ∧
      (e false).base.received = [[1], [2, 3]] ∧
      ∃ digest, ∀ s, ∃ e', getDigest ⟨.net, false, fun _ => 0⟩ sampleHash (e s) =
        .ret e' digest := by
  have hrun : ∃ d a b,
      Duplex.run (fun _ => ⟨.net, false, fun _ => 0⟩) sampleHash
        ⟨fun s => ⟨{}, .idle (Endpoint.start s (fun _ => 0) (fun _ => 0) (some .sha256) s)⟩,
          fun _ => 0⟩ sampleMoves = some d ∧
      (d.party true).control = .idle a ∧ (d.party false).control = .idle b ∧
      a.base.sent = [[1, 2, 3]] ∧ a.base.received = [] ∧ b.base.sent = [] ∧
      b.base.received = [[1], [2, 3]] :=
    ⟨_, _, _, rfl, rfl, rfl, rfl, rfl, rfl, rfl⟩
  obtain ⟨d, a, b, hrun, ha, hb, hasent, harecv, hbsent, hbrecv⟩ := hrun
  have hidle : ∀ s, (d.party s).control = .idle (cond s a b) := by
    intro s
    cases s with
    | true => exact ha
    | false => exact hb
  refine ⟨d, fun s => cond s a b, hrun, hidle, hasent, hbrecv, ?_⟩
  refine (transcripts_agree (fun _ => ⟨.net, false, fun _ => 0⟩) sampleHash .sha256 id
    (fun _ => rfl) id (fun _ _ => 0) (fun _ _ => 0) _ (fun s => enableFs_start _ _ _ _ _)
    sampleMoves d hrun _ hidle ?_).1
  intro s
  cases s with
  | true =>
    show a.base.received.flatten.length = b.base.sent.flatten.length
    rw [harecv, hbsent]
  | false =>
    show b.base.received.flatten.length = a.base.sent.flatten.length
    rw [hbrecv, hasent]
    rfl

end EmpTool.Io
