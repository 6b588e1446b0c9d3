import EmpTool.Io.Duplex

namespace EmpTool.Io

open Crypto Memory Process

-- two ends of one connection before they synchronise, with any bytes staged, under way or read
-- ahead; side `true` is the server
structure Connection (impl : Implementation) where
  endpoint : Bool → Endpoint
  transport : Bool → Transport
  ahead : Bool → Nat
  coherent : ∀ s, Coherent impl (transport s) (endpoint s)
  isServer : ∀ s, (endpoint s).isServer = s
  linked : ∀ s, (transport s).arrived <+:
    (transport !s).handed.take (max (transport !s).pushed (ahead !s))

namespace Connection

variable {impl : Implementation}

def syncing (c : Connection impl) : Duplex :=
  ⟨fun s => ⟨c.transport s, .busy (impl.sync (c.endpoint s))⟩, c.ahead⟩

def Pending (c : Connection impl) : Prop :=
  (c.endpoint true).unread ≠ [] ∨
    (c.transport true).arrived.length < (c.transport false).handed.length ∨
    (c.endpoint false).sendPtr ≠ 0

end Connection

namespace Duplex

def Returned (d : Duplex) (s : Bool) (e : Endpoint) : Prop :=
  (d.party s).control = .idle e ∨ (d.party s).control = .busy (.ret e ())

-- the handshake byte is the last byte sent, so it is held back when anything is
def Holds (d : Duplex) (s : Bool) (e : Endpoint) : Prop :=
  e.sendPtr ≠ 0 ∨ (d.wire s).length < (d.handed s).length

def Blocked (d : Duplex) (s : Bool) : Prop :=
  (∃ e resume, (d.party s).control = .busy (.call e .read resume)) ∧ d.arrived s = d.wire !s

def Stranded (d : Duplex) (s : Bool) : Prop :=
  (∃ e, d.Returned s e ∧ d.Holds s e) ∧ d.Blocked !s

end Duplex

def Move.isCall : Move → Bool
  | .step _ (.call _) => true
  | _ => false

def NeverStrands (p : Platform) (hash : HashFunction) (c : Connection p.implementation) : Prop :=
  ∀ moves d, (∀ m ∈ moves, m.isCall = false) →
    c.syncing.run (fun _ => p) hash moves = some d → ∀ s, ¬ d.Stranded s

section Handshake

variable {impl : Implementation} {lossy : Bool}

-- an endpoint that waits in the handshake has read nothing yet and holds nothing back
structure Awaits (sent : List UInt8) (t : Transport) (e : Endpoint) (t' : Transport)
    (_ : Endpoint) : Prop where
  arrived : t'.arrived = t.arrived
  unread : e.unread = []
  handed : t'.handed = t.handed ++ e.staged ++ sent
  pushed : t'.pushed = t'.handed.length

theorem recvByte_meets {reading : Transport → Endpoint → Prop} {t : Transport} {e : Endpoint}
    (h : Coherent impl t e) (hread : ∀ t' e', Awaits [] t e t' e' → reading t' e') :
    (impl.recvDataInternal 1 e).Meets (contract impl lossy reading)
      (fun t' e' _ => Received impl t e t' e' ∧
        (e.unread = [] → t.arrived.length < t'.arrived.length)) t := by
  refine Proc.Meets.mono ?_ (recvDataInternal_meets (by decide) h ?_)
  · rintro t' e' - ⟨hr, hdest⟩
    refine ⟨hr, fun hunread => ?_⟩
    obtain ⟨new, harrived, hbytes⟩ := hr.arrived
    rw [hunread, List.nil_append] at hbytes
    have hlen := congrArg List.length hbytes
    rw [List.length_append, hdest] at hlen
    rw [harrived, List.length_append]
    have hone : (1 : Int).toNat = 1 := rfl
    omega
  · intro t' e' hr hempty hdest
    refine hread t' e' ?_
    obtain ⟨new, harrived, hbytes⟩ := hr.arrived
    have hnil : e'.dest = [] := List.length_eq_zero_iff.mp (Nat.lt_one_iff.mp hdest)
    rw [hnil, Endpoint.unread_of_drained hempty, List.nil_append] at hbytes
    obtain ⟨hunread, hnew⟩ := List.append_eq_nil_iff.mp hbytes.symm
    rw [hnew, List.append_nil] at harrived
    exact ⟨harrived, hunread, by rw [hr.handed, List.append_nil], hr.pushed⟩

structure ServerDone (t : Transport) (e : Endpoint) (t' : Transport) (e' : Endpoint) : Prop where
  sendPtr : e'.sendPtr = 0
  pushed : t'.pushed = t'.handed.length
  answered : e.unread = [] → t.arrived.length < t'.arrived.length

theorem server_meets {t : Transport} {e : Endpoint} (h : Coherent impl t e)
    (hs : e.isServer = true) :
    (impl.sync e).Meets (contract impl lossy (Awaits [0] t e))
      (fun t' e' _ => ServerDone t e t' e') t := by
  unfold Implementation.sync
  refine meets_get (meets_ite (fun _ => ?_) (fun hn => absurd hs hn))
  refine meets_bind (sendDataInternal_meets _ (by decide) h) fun t₁ e₁ _ hsent => ?_
  have hunread : e₁.unread = e.unread := by rw [hsent.endpoint]; rfl
  refine Proc.Meets.mono ?_ (recvByte_meets hsent.coherent ?_)
  · rintro t' e' - ⟨hr, hanswered⟩
    rw [hunread, hsent.arrived] at hanswered
    exact ⟨hr.sendPtr, hr.pushed, hanswered⟩
  · intro t' e' ha
    refine ⟨ha.arrived.trans hsent.arrived, hunread ▸ ha.unread, ?_, ha.pushed⟩
    rw [ha.handed, List.append_nil, hsent.handed]
    rfl

theorem sendByte_eq (data : Nat → UInt8) {e : Endpoint} (he : e.sendPtr = 0) :
    impl.sendDataInternal data 1 e =
      .ret { Implementation.stage data 1 e with sendDirty := true } () := by
  have hfit : 1 ≤ networkStagingBufferSize - e.sendPtr := by
    rw [he]
    decide
  have hstage : impl.stageOrSend data 1 e = .ret (Implementation.stage data 1 e) () := by
    show ((if 1 ≤ networkStagingBufferSize - e.sendPtr then _ else _ : ChannelM Unit) e) = _
    rw [if_pos hfit]
    rfl
  show Proc.bind (impl.stageOrSend data 1 e) _ = _
  rw [hstage]
  rfl

def ClientDone (impl : Implementation) (t : Transport) (e : Endpoint) (t' : Transport)
    (e' : Endpoint) : Prop :=
  match impl with
  | .net => e'.sendPtr = 0 ∧ t'.pushed = t'.handed.length
  | .tls => e'.sendPtr = 1 ∧ t'.pushed = t'.handed.length ∧ t'.handed = t.handed ++ e.staged

theorem client_meets {t : Transport} {e : Endpoint} (h : Coherent impl t e)
    (hs : e.isServer = false) :
    (impl.sync e).Meets (contract impl lossy (Awaits [] t e))
      (fun t' e' _ => ClientDone impl t e t' e') t := by
  unfold Implementation.sync
  refine meets_get (meets_ite (fun hn => absurd hn (by rw [hs]; decide)) (fun _ => ?_))
  refine meets_bind (recvByte_meets h fun _ _ ha => ha) ?_
  rintro t₁ e₁ - ⟨hr, -⟩
  refine meets_get ?_
  show (Proc.bind (impl.sendDataInternal _ 1 e₁) _).Meets _ _ t₁
  rw [sendByte_eq _ hr.sendPtr]
  have hone : e₁.sendPtr + 1 = 1 := by rw [hr.sendPtr]
  cases impl with
  | net =>
    have hstaged : Coherent .net t₁
        { Implementation.stage (fun i => e₁.dest.getD i 0) 1 e₁ with sendDirty := true } :=
      { hr.coherent with
        sendPtr_le := by
          show e₁.sendPtr + 1 ≤ networkStagingBufferSize
          rw [hone]
          decide
        clean := nofun }
    refine Proc.Meets.mono (fun t' e' _ hf => ?_) (flushUnlocked_meets hstaged)
    exact ⟨by rw [hf.endpoint], hf.pushed⟩
  | tls => exact ⟨hone, hr.pushed, hr.handed⟩

end Handshake

section Safety

variable {p : Platform} {hash : HashFunction}

def Connection.reading (c : Connection p.implementation) (s : Bool) :
    Transport → Endpoint → Prop :=
  Awaits (if s then [0] else []) (c.transport s) (c.endpoint s)

def Connection.done (c : Connection p.implementation) (s : Bool) : Transport → Endpoint → Prop :=
  if s then ServerDone (c.transport s) (c.endpoint s)
  else ClientDone p.implementation (c.transport s) (c.endpoint s)

abbrev Connection.Upheld (c : Connection p.implementation) (d : Duplex) : Prop :=
  ∀ s, (d.party s).Upholds p.implementation false (c.reading s) (c.done s)

theorem Connection.upheld_start (c : Connection p.implementation) : c.Upheld c.syncing := by
  intro s
  cases s with
  | true => exact server_meets (c.coherent true) (c.isServer true)
  | false => exact client_meets (c.coherent false) (c.isServer false)

theorem Connection.upheld_run {c : Connection p.implementation} {d d' : Duplex}
    {moves : List Move} (hmoves : ∀ m ∈ moves, m.isCall = false) (h : c.Upheld d)
    (hrun : d.run (fun _ => p) hash moves = some d') : c.Upheld d' := by
  refine Duplex.run_invariant (fun d d' m hm h hstep => ?_) h hrun
  refine Duplex.upholds_step h ?_ hstep
  intro s call t e hcall
  have hno := hmoves m hm
  rw [hcall] at hno
  exact absurd hno (by simp [Move.isCall])

theorem returned_post {reading post : Transport → Endpoint → Prop} {d : Duplex} {s : Bool}
    {e : Endpoint} (h : (d.party s).Upholds p.implementation false reading post)
    (hret : d.Returned s e) : post (d.party s).transport e := by
  rcases hret with hret | hret
  · simp only [Party.Upholds, hret] at h
    exact h
  · simp only [Party.Upholds, hret] at h
    exact h

theorem wire_of_pushed {d : Duplex} {s : Bool}
    (h : (d.party s).transport.pushed = (d.handed s).length) : d.wire s = d.handed s := by
  rw [Duplex.wire, h]
  exact List.take_of_length_le (Nat.le_max_left _ _)

theorem not_holds {d : Duplex} {s : Bool} {e : Endpoint} (he : e.sendPtr = 0)
    (h : (d.party s).transport.pushed = (d.handed s).length) : ¬ d.Holds s e := by
  rintro (hptr | hwire)
  · exact hptr he
  · rw [wire_of_pushed h] at hwire
    exact Nat.lt_irrefl _ hwire

theorem Connection.arrived_le (c : Connection p.implementation) (s : Bool) :
    (c.transport s).arrived.length ≤ (c.transport !s).handed.length :=
  ((c.linked s).trans (List.take_prefix _ _)).length_le

theorem Connection.Upheld.not_stranded {c : Connection p.implementation} {d : Duplex}
    (h : c.Upheld d) (hc : p.implementation = .net ∨ c.Pending) (s : Bool) : ¬ d.Stranded s := by
  rintro ⟨⟨e, hret, hholds⟩, ⟨e', resume, hread⟩, hblocked⟩
  have hdone := returned_post (h s) hret
  cases s with
  | true => exact not_holds hdone.sendPtr hdone.pushed hholds
  | false =>
    cases himpl : p.implementation with
    | net =>
      simp only [Connection.done, himpl] at hdone
      exact not_holds hdone.1 hdone.2 hholds
    | tls =>
      simp only [Connection.done, himpl] at hdone
      obtain ⟨-, hpushed, hhanded⟩ := hdone
      rw [Bool.not_false] at hread hblocked
      have hwait := h true
      simp only [Party.Upholds, hread] at hwait
      have hawaits : Awaits _ _ _ _ _ := hwait.1
      -- the server has read nothing, so what the client sent before is still to be read
      have hlen := congrArg List.length hblocked
      rw [Bool.not_true, wire_of_pushed hpushed, Duplex.handed, hhanded, Duplex.arrived,
        hawaits.arrived, List.length_append, Endpoint.staged, length_slice] at hlen
      have hle := c.arrived_le true
      rcases hc.resolve_left (by rw [himpl]; decide) with hunread | hflight | hstaged
      · exact hunread hawaits.unread
      · omega
      · simp only [Bool.not_true] at hle
        exact hstaged (by omega)

end Safety

section Stranding

variable {p : Platform} {hash : HashFunction}

def Duplex.Reach (p : Platform) (hash : HashFunction) (d d' : Duplex) : Prop :=
  ∃ moves, (∀ m ∈ moves, m.isCall = false) ∧ d.run (fun _ => p) hash moves = some d'

theorem Duplex.Reach.refl (d : Duplex) : d.Reach p hash d := ⟨[], nofun, rfl⟩

theorem Duplex.Reach.head {d d₁ d' : Duplex} {m : Move} (hm : m.isCall = false)
    (hstep : d.step (fun _ => p) hash m = some d₁) (h : d₁.Reach p hash d') :
    d.Reach p hash d' := by
  obtain ⟨moves, hmoves, hrun⟩ := h
  refine ⟨m :: moves, ?_, Option.bind_eq_some_iff.mpr ⟨d₁, hstep, hrun⟩⟩
  intro m' hm'
  rcases List.mem_cons.mp hm' with rfl | hm'
  · exact hm
  · exact hmoves m' hm'

theorem Duplex.Reach.trans {d d₁ d' : Duplex} (h : d.Reach p hash d₁) (h' : d₁.Reach p hash d') :
    d.Reach p hash d' := by
  obtain ⟨moves, hmoves, hrun⟩ := h
  induction moves generalizing d with
  | nil =>
    cases hrun
    exact h'
  | cons m moves ih =>
    obtain ⟨next, hstep, hrest⟩ := Option.bind_eq_some_iff.mp hrun
    exact Reach.head (hmoves m List.mem_cons_self) hstep
      (ih (fun m' hm' => hmoves m' (List.mem_cons_of_mem _ hm')) hrest)

theorem Connection.Upheld.reach {c : Connection p.implementation} {d d' : Duplex}
    (h : c.Upheld d) (hreach : d.Reach p hash d') : c.Upheld d' := by
  obtain ⟨moves, hmoves, hrun⟩ := hreach
  exact upheld_run hmoves h hrun

theorem step_reply {d : Duplex} {s : Bool} {e : Endpoint} {r : Request}
    {resume : r.Reply → Proc Endpoint Request Request.Reply Unit} {ev : Event} {reply : r.Reply}
    (hcontrol : (d.party s).control = .busy (.call e r resume))
    (hdel : ev.Delivered (d.arrived s) (d.wire !s) = true) (hreply : ev.reply r = some reply) :
    d.step (fun _ => p) hash (.step s ev) = some { d with
      party := Function.update d.party s
        ⟨(d.party s).transport.answer p.implementation r reply, .busy (resume reply)⟩ } := by
  have hparty : d.party s = ⟨(d.party s).transport, .busy (.call e r resume)⟩ := by
    rw [← hcontrol]
  have hstep : (d.party s).step p hash ev = some
      ⟨(d.party s).transport.answer p.implementation r reply, .busy (resume reply)⟩ := by
    rw [hparty]
    simp only [Party.step, hreply, Option.map_some]
  simp only [Duplex.step, hdel, if_true, hstep, Option.map_some]

-- an endpoint left alone goes on until it returns or reads
structure Settled (d : Duplex) (s : Bool) (d' : Duplex) : Prop where
  peer : d'.party (!s) = d.party (!s)
  arrived : d'.arrived s = d.arrived s
  control : (∃ e, (d'.party s).control = .busy (.ret e ())) ∨
    ∃ e resume, (d'.party s).control = .busy (.call e .read resume)

theorem settles {s : Bool} {reading post : Transport → Endpoint → Prop}
    {proc : Proc Endpoint Request Request.Reply Unit} :
    ∀ {d : Duplex}, (d.party s).control = .busy proc →
      proc.Meets (contract p.implementation false reading) (fun t e _ => post t e)
        (d.party s).transport →
      ∃ d', d.Reach p hash d' ∧ Settled d s d' := by
  induction proc with
  | ret e u =>
    intro d hcontrol _
    exact ⟨d, Duplex.Reach.refl d, rfl, rfl, Or.inl ⟨e, hcontrol⟩⟩
  | fail message =>
    intro d _ h
    exact absurd h.1 Bool.false_ne_true
  | call e r resume ih =>
    intro d hcontrol h
    have goOn : ∀ {ev : Event} {reply : r.Reply}, ev.Delivered (d.arrived s) (d.wire !s) = true →
        ev.reply r = some reply → (Move.step s ev).isCall = false →
        (∀ t : Transport, (t.answer p.implementation r reply).arrived = t.arrived) →
        ∃ d', d.Reach p hash d' ∧ Settled d s d' := by
      intro ev reply hdel hreply hcall harrived
      have hstep : d.step (fun _ => p) hash _ = _ := step_reply hcontrol hdel hreply
      have hne : (!s) ≠ s := Bool.not_ne_self s
      obtain ⟨hallowed, hpositive⟩ := reply_allowed hreply
      obtain ⟨d', hreach, hsettled⟩ := @ih reply { d with
          party := Function.update d.party s
            ⟨(d.party s).transport.answer p.implementation r reply, .busy (resume reply)⟩ }
        (by simp) (by
          simp only [Function.update_self]
          exact h.2 reply ⟨hallowed, Or.inr (hpositive (delivered_positive hdel))⟩)
      refine ⟨d', hreach.head hcall hstep, ?_, ?_, hsettled.control⟩
      · rw [hsettled.peer]
        exact Function.update_of_ne hne _ _
      · rw [hsettled.arrived]
        show (Function.update d.party s _ s).transport.arrived = _
        rw [Function.update_self, harrived]
        rfl
    cases r with
    | write bytes =>
      have hpos : 0 < bytes.length := List.length_pos_iff.mpr h.1
      refine @goOn (.wrote bytes.length) bytes.length ?_ ?_ rfl ?_
      · simpa [Event.Delivered] using hpos
      · simp [Event.reply]
      · exact fun t => Transport.write_arrived _ _ t
    | fflush => exact @goOn .flushed () rfl rfl rfl fun _ => rfl
    | read => exact ⟨d, Duplex.Reach.refl d, rfl, rfl, Or.inr ⟨e, resume, hcontrol⟩⟩

theorem Connection.Upheld.settles {c : Connection p.implementation} {d : Duplex} {s : Bool}
    {proc : Proc Endpoint Request Request.Reply Unit} (h : c.Upheld d)
    (hcontrol : (d.party s).control = .busy proc) :
    ∃ d', d.Reach p hash d' ∧ Settled d s d' := by
  have hs := h s
  simp only [Party.Upholds, hcontrol] at hs
  exact Io.settles hcontrol hs

theorem Connection.Upheld.awaits {c : Connection p.implementation} {d : Duplex} {s : Bool}
    {e : Endpoint} {resume : Request.read.Reply → Proc Endpoint Request Request.Reply Unit}
    (h : c.Upheld d) (hcontrol : (d.party s).control = .busy (.call e .read resume)) :
    c.reading s (d.party s).transport e := by
  have hs := h s
  simp only [Party.Upholds, hcontrol] at hs
  exact hs.1

theorem server_waits {c : Connection p.implementation} (hc : ¬ c.Pending) :
    ∃ d, c.syncing.Reach p hash d ∧ d.party false = c.syncing.party false ∧
      ∃ e resume, (d.party true).control = .busy (.call e .read resume) := by
  obtain ⟨d, hreach, hpeer, harrived, hret | hread⟩ :=
    @Connection.Upheld.settles p hash c _ true _ c.upheld_start rfl
  · obtain ⟨e, hret⟩ := hret
    have hdone : ServerDone _ _ _ _ :=
      returned_post (c.upheld_start.reach hreach true) (Or.inr hret)
    have hunread : (c.endpoint true).unread = [] := not_not.mp fun hne => hc (Or.inl hne)
    have hlt := hdone.answered hunread
    have hsame : (d.party true).transport.arrived = (c.transport true).arrived := harrived
    rw [hsame] at hlt
    exact absurd hlt (Nat.lt_irrefl _)
  · exact ⟨d, hreach, hpeer, hread⟩

theorem stranded_of_returned {c : Connection p.implementation} (himpl : p.implementation = .tls)
    (hc : ¬ c.Pending) {d : Duplex} (h : c.Upheld d) {e e' : Endpoint}
    {resume : Request.read.Reply → Proc Endpoint Request Request.Reply Unit}
    (hread : (d.party true).control = .busy (.call e .read resume))
    (hret : (d.party false).control = .busy (.ret e' ())) : d.Stranded false := by
  have hdone := returned_post (h false) (Or.inr hret)
  simp only [Connection.done, himpl] at hdone
  obtain ⟨hptr, hpushed, hhanded⟩ := hdone
  have hawaits : Awaits _ _ _ _ _ := h.awaits hread
  have hzero : (c.endpoint false).sendPtr = 0 :=
    not_not.mp fun hne => hc (Or.inr (Or.inr hne))
  have hlen : ¬ (c.transport true).arrived.length < (c.transport false).handed.length :=
    fun hlt => hc (Or.inr (Or.inl hlt))
  have hprefix : (c.transport true).arrived <+: (c.transport false).handed :=
    (c.linked true).trans (List.take_prefix _ _)
  refine ⟨⟨e', Or.inr hret, Or.inl (by rw [hptr]; decide)⟩, ⟨e, resume, hread⟩, ?_⟩
  show (d.party true).transport.arrived = d.wire false
  rw [wire_of_pushed hpushed, Duplex.handed, hhanded, Endpoint.staged_of_zero hzero,
    List.append_nil, hawaits.arrived]
  exact hprefix.eq_of_length (Nat.le_antisymm hprefix.length_le (Nat.le_of_not_lt hlen))

-- what the server flushed before it began to wait is enough for the client's read
theorem server_offers {c : Connection p.implementation} {d : Duplex} (h : c.Upheld d)
    {e : Endpoint} {resume : Request.read.Reply → Proc Endpoint Request Request.Reply Unit}
    (hread : (d.party true).control = .busy (.call e .read resume)) :
    ∃ b, (c.transport false).arrived ++ [b] <+: d.wire true := by
  have hawaits : Awaits _ _ _ _ _ := h.awaits hread
  have hwire : d.wire true = (c.transport true).handed ++ (c.endpoint true).staged ++ [0] := by
    rw [wire_of_pushed hawaits.pushed]
    exact hawaits.handed
  obtain ⟨more, hmore⟩ := (c.linked false).trans (List.take_prefix _ _)
  rw [Bool.not_false] at hmore
  rw [hwire, ← hmore, List.append_assoc, List.append_assoc]
  cases hrest : more ++ ((c.endpoint true).staged ++ [0]) with
  | nil => simp at hrest
  | cons b rest => exact ⟨b, by simp⟩

theorem Connection.strands {c : Connection p.implementation} (himpl : p.implementation = .tls)
    (hc : ¬ c.Pending) : ∃ d, c.syncing.Reach p hash d ∧ d.Stranded false := by
  obtain ⟨d₁, hreach₁, hclient, e, resume, hserver⟩ := @server_waits p hash c hc
  have hup₁ := c.upheld_start.reach hreach₁
  have hbusy : (d₁.party false).control =
      .busy (p.implementation.sync (c.endpoint false)) := by rw [hclient]; rfl
  obtain ⟨d₂, hreach₂, hpeer₂, harrived₂, hend₂⟩ :=
    @Connection.Upheld.settles p hash c _ _ _ hup₁ hbusy
  have hup₂ := hup₁.reach hreach₂
  have hserver₂ : (d₂.party true).control = .busy (.call e .read resume) :=
    (congrArg Party.control hpeer₂).trans hserver
  rcases hend₂ with ⟨e', hret⟩ | ⟨e', resume', hread⟩
  · exact ⟨d₂, hreach₁.trans hreach₂, stranded_of_returned himpl hc hup₂ hserver₂ hret⟩
  obtain ⟨b, hb⟩ := server_offers hup₂ hserver₂
  have harrived : d₂.arrived false = (c.transport false).arrived := by
    rw [harrived₂, Duplex.arrived, hclient]
    rfl
  have hdel : (Event.read (some [b])).Delivered (d₂.arrived false) (d₂.wire !false) = true := by
    rw [harrived]
    simpa [Event.Delivered] using hb
  have hstep : d₂.step (fun _ => p) hash _ = _ := step_reply hread hdel rfl
  have hreach₃ := (Duplex.Reach.refl _).head rfl hstep
  have hup₃ := hup₂.reach hreach₃
  obtain ⟨d₄, hreach₄, hpeer₄, harrived₄, hend₄⟩ :=
    @Connection.Upheld.settles p hash c _ false (resume' (some [b])) hup₃
      (by simp only [Function.update_self])
  have hup₄ := hup₃.reach hreach₄
  have hserver₄ : (d₄.party true).control = .busy (.call e .read resume) := by
    have hsame : d₄.party true = d₂.party true := hpeer₄.trans rfl
    rw [hsame, hserver₂]
  have hmore : d₄.arrived false = (c.transport false).arrived ++ [b] := by
    rw [harrived₄, ← harrived]
    show (Function.update d₂.party false _ false).transport.arrived = _
    rw [Function.update_self]
    rfl
  rcases hend₄ with ⟨e'', hret⟩ | ⟨e'', resume'', hagain⟩
  · exact ⟨d₄, ((hreach₁.trans hreach₂).trans hreach₃).trans hreach₄,
      stranded_of_returned himpl hc hup₄ hserver₄ hret⟩
  · have hawaits : Awaits _ _ _ _ _ := hup₄.awaits hagain
    have hsame : d₄.arrived false = (c.transport false).arrived := hawaits.arrived
    rw [hmore] at hsame
    simp at hsame

theorem sync_never_strands_iff (p : Platform) (hash : HashFunction)
    (c : Connection p.implementation) :
    NeverStrands p hash c ↔ p.implementation = .net ∨ c.Pending := by
  constructor
  · intro hnever
    by_contra hno
    obtain ⟨hnet, hc⟩ := not_or.mp hno
    have himpl : p.implementation = .tls := by
      cases h : p.implementation with
      | net => exact absurd h hnet
      | tls => rfl
    obtain ⟨d, ⟨moves, hmoves, hrun⟩, hstranded⟩ := @Connection.strands p hash c himpl hc
    exact hnever moves d hmoves hrun false hstranded
  · intro hc moves d hmoves hrun s
    exact (Connection.upheld_run hmoves c.upheld_start hrun).not_stranded hc s

end Stranding

def freshConnection (impl : Implementation) : Connection impl where
  endpoint s := Endpoint.start s (fun _ => 0) (fun _ => 0) none false
  transport _ := {}
  ahead _ := 0
  coherent s := (@refines_start ⟨impl, false, fun _ => 0⟩ s (fun _ => 0) (fun _ => 0) none
    false).toCoherent
  isServer _ := rfl
  linked _ := List.nil_prefix

-- the server writes its byte and waits; the client reads it, stages its own and returns
theorem sync_strands_tls :
    ¬ ∀ (p : Platform) (hash : HashFunction) (c : Connection p.implementation),
      NeverStrands p hash c := by
  intro h
  have hrun : ∃ d e e' resume,
      (freshConnection .tls).syncing.run (fun _ => ⟨.tls, false, fun _ => 0⟩) (fun _ _ _ => 0)
        [.step true (.wrote 1), .step false (.read (some [0]))] = some d ∧
      (d.party false).control = .busy (.ret e ()) ∧ e.sendPtr = 1 ∧
      (d.party true).control = .busy (.call e' .read resume) ∧ d.arrived true = d.wire false :=
    ⟨_, _, _, _, rfl, rfl, rfl, rfl, rfl⟩
  obtain ⟨d, e, e', resume, hrun, hret, hptr, hread, hblocked⟩ := hrun
  refine h ⟨.tls, false, fun _ => 0⟩ (fun _ _ _ => 0) (freshConnection .tls) _ d ?_ hrun false
    ⟨⟨e, Or.inr hret, Or.inl (by rw [hptr]; decide)⟩, ⟨e', resume, hread⟩, hblocked⟩
  decide

end EmpTool.Io
