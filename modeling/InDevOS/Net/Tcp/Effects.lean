import Mathlib
import InDevOS.Net.Tcp.Machine

/-! What the steps of the TCP machine can do to a connection.

Most of them send something. `Emitted k` says that nothing but that has happened: `k`
new sequence numbers have gone out, the retransmission queue has grown at its end, and the
rest of the connection is as it was. Each handler is then described once, as a change of a few
fields followed by an emission, and the invariants of the following modules are derived
from these descriptions. -/
namespace InDevOS.Net.Tcp

open InDevOS.Lib

/-! ### Emissions -/

/-- Options with a bounded shift, and such that a full segment fits an IP datagram. -/
structure PeerOptions.Fits (o : PeerOptions) : Prop where
  wscale : o.sndWscale ≤ 14
  mss : o.mss ≤ 65515

/-- From `c` to `c'`, `k` new numbers have been sent and some entries queued. The numbers are
on the wire if segments fit. -/
def Emitted (k : Nat) (c c' : TcpConnection) : Prop :=
  ∃ added w, c' =
    { c with
      snd.seqNum := c.snd.seqNum + UInt32.ofNat k
      snd.queue := c.snd.queue ++ added
      wire := w } ∧ (c.opt.Fits → c.wire.Extends c.snd.seqNum k w)

section Emissions

variable {env : TcpEnv} {now : UInt64} {c c' c'' : TcpConnection} {k l : Nat}

namespace Emitted

theorem refl (c : TcpConnection) : Emitted 0 c c := ⟨[], c.wire, by simp, fun _ => .of_sent rfl⟩

section
variable (h : Emitted k c c')
include h

theorem trans (h' : Emitted l c' c'') : Emitted (k + l) c c'' := by
  obtain ⟨added, w, rfl, hw⟩ := h
  obtain ⟨added', w', rfl, hw'⟩ := h'
  refine ⟨added ++ added', w', ?_, fun ho => (hw ho).trans (hw' ho)⟩
  simp only [UInt32.ofNat_add, UInt32.add_assoc, List.append_assoc]

theorem state : c'.state = c.state := by
  obtain ⟨_, _, rfl, -⟩ := h
  rfl

theorem rcv : c'.rcv = c.rcv := by
  obtain ⟨_, _, rfl, -⟩ := h
  rfl

theorem own : c'.own = c.own := by
  obtain ⟨_, _, rfl, -⟩ := h
  rfl

theorem opt : c'.opt = c.opt := by
  obtain ⟨_, _, rfl, -⟩ := h
  rfl

theorem seqNum : c'.snd.seqNum = c.snd.seqNum + UInt32.ofNat k := by
  obtain ⟨_, _, rfl, -⟩ := h
  rfl

theorem sndUna : c'.snd.sndUna = c.snd.sndUna := by
  obtain ⟨_, _, rfl, -⟩ := h
  rfl

theorem sndWnd : c'.snd.sndWnd = c.snd.sndWnd := by
  obtain ⟨_, _, rfl, -⟩ := h
  rfl

theorem queue : ∃ added, c'.snd.queue = c.snd.queue ++ added := by
  obtain ⟨added, _, rfl, -⟩ := h
  exact ⟨added, rfl⟩

theorem wire (ho : c.opt.Fits) : c.wire.Extends c.snd.seqNum k c'.wire := by
  obtain ⟨_, _, rfl, hw⟩ := h
  exact hw ho

theorem setState (st : TcpState) : Emitted k { c with state := st } { c' with state := st } := by
  obtain ⟨added, w, rfl, hw⟩ := h
  exact ⟨added, w, rfl, hw⟩

end

end Emitted

section
variable (env : TcpEnv)

section
variable (c : TcpConnection) (flags : TcpFlags) (data options : List UInt8)

theorem emitted_send (hsize : c.opt.Fits → headerSize options + data.length < 65536) :
    Emitted (unitsSent env c flags data options) c
      (tcpSendPacketWithOptions env c flags data options).1 := by
  obtain ⟨w, hw, hext⟩ := tcpSendPacketWithOptions_eq env c flags data options
  exact ⟨[], w, by simp [hw], fun ho => hext (hsize ho)⟩

theorem emitted_sendBare (hopts : options.length ≤ 40) :
    Emitted (unitsSent env c flags [] options) c (tcpSendPacketWithOptions env c flags [] options).1 := by
  refine emitted_send env c flags [] options fun _ => ?_
  simp only [headerSize, List.length_nil]
  omega

theorem length_tcpSynOptions (o : PeerOptions) (synAck : Bool) : (tcpSynOptions o synAck).length ≤ 40 := by
  unfold tcpSynOptions
  dsimp only
  split_ifs <;> simp

theorem emitted_sendAck (c : TcpConnection) : Emitted 0 c (sendAck env c) := by
  obtain ⟨w, hw, hext⟩ := sendAck_eq env c
  exact ⟨[], w, by simp [hw], fun _ => hext⟩

theorem send_queue :
    (tcpSendPacketWithOptions env c flags data options).1.snd.queue = c.snd.queue := by
  obtain ⟨w, hw, -⟩ := tcpSendPacketWithOptions_eq env c flags data options
  rw [hw]

theorem sendAck_queue (c : TcpConnection) : (sendAck env c).snd.queue = c.snd.queue :=
  send_queue env c .onlyAck [] []

theorem emitted_enqueue (now : UInt64) (c : TcpConnection) (seq : UInt32)
    (flags : TcpFlags) (data : List UInt8) :
    Emitted 0 c (tcpRetransmitEnqueue env now c seq flags data) := by
  unfold tcpRetransmitEnqueue
  split_ifs
  · exact ⟨[freshEntry env now c seq flags data], c.wire, by simp, fun _ => .of_sent rfl⟩
  · exact .refl c

theorem unitsSent_le :
    unitsSent env c flags data options ≤ flags.consumed data.length := by
  unfold unitsSent
  split_ifs <;> omega

end

theorem sendFin_emits (now : UInt64) (c : TcpConnection) (next : TcpState) :
    ∃ k ≤ 1, Emitted k { c with state := next } (sendFin env now c next) :=
  ⟨_, (Nat.zero_add _).trans_le (unitsSent_le env _ .finAck [] []),
    (emitted_enqueue env now { c with state := next } c.snd.seqNum .finAck []).trans
      (emitted_sendBare env _ .finAck [] (Nat.zero_le _))⟩

theorem tcpSendLoop_emits (now : UInt64) (mss fuel sent : Nat) (c : TcpConnection) (data : List UInt8)
    (hmss : c.opt.Fits → mss ≤ 65515) :
    ∃ k ≤ data.length, Emitted k c (tcpSendLoop env now mss fuel sent c data).1 := by
  induction fuel generalizing sent c data with
  | zero => exact ⟨0, Nat.zero_le _, .refl c⟩
  | succ fuel ih =>
    rw [tcpSendLoop]
    split
    · exact ⟨0, Nat.zero_le _, .refl c⟩
    · dsimp only
      have hqueued := emitted_enqueue env now c c.snd.seqNum (.data (data.length ≤ mss)) (data.take mss)
      have hsent := hqueued.trans
        (emitted_send env _ (.data (data.length ≤ mss)) (data.take mss) [] fun ho => by
          have := hmss (hqueued.opt ▸ ho)
          simp only [headerSize, List.length_nil, List.length_take]
          omega)
      have hunits := unitsSent_le env
        (tcpRetransmitEnqueue env now c c.snd.seqNum (.data (data.length ≤ mss)) (data.take mss))
        (.data (data.length ≤ mss)) (data.take mss) []
      have hconsumed : (TcpFlags.data (data.length ≤ mss)).consumed (data.take mss).length =
          (data.take mss).length := by
        unfold TcpFlags.consumed TcpFlags.data
        split_ifs <;> simp_all
      rw [hconsumed, List.length_take] at hunits
      split
      · obtain ⟨k, hk, hrest⟩ := ih (sent + (data.take mss).length) _ (data.drop mss)
          fun ho => hmss (hsent.opt ▸ ho)
        rw [List.length_drop] at hk
        exact ⟨_, by omega, hsent.trans hrest⟩
      · exact ⟨_, by omega, hsent⟩

end

end Emissions

/-- Opening sends the SYN, and gives the connection up if that fails. -/
theorem tcpConnect_cases (env : TcpEnv) (now : UInt64) (isn : UInt32) (socket : Bool) :
    ∃ k ≤ 1, ∃ d, Emitted k (connecting now isn) d ∧
      ((∃ own, tcpConnect env now isn socket = { d with own := own }) ∨
        tcpConnect env now isn socket = tcpDestroyConnection d) := by
  refine ⟨_, (Nat.zero_add _).trans_le (unitsSent_le env _ .onlySyn [] _), _,
    (emitted_enqueue env now (connecting now isn) isn .onlySyn []).trans
      (emitted_sendBare env _ .onlySyn _ (length_tcpSynOptions (tcpRetransmitEnqueue env now
        (connecting now isn) isn .onlySyn []).opt false)), ?_⟩
  unfold tcpConnect
  dsimp only
  split_ifs
  · exact .inl ⟨_, rfl⟩
  · exact .inr rfl

/-! ### Before the switch -/

theorem PeerOptions.take_wscale (o : PeerOptions) (kind len : UInt8) (body : List UInt8)
    (ho : o.sndWscale ≤ 14) : (o.take kind len body).sndWscale ≤ 14 := by
  unfold PeerOptions.take
  dsimp only
  split_ifs
  · exact ho
  · exact ho
  · exact min_le_right _ _
  · exact ho

theorem PeerOptions.agree_wscale (o : PeerOptions) (ho : o.sndWscale ≤ 14) : o.agree.sndWscale ≤ 14 := by
  unfold PeerOptions.agree
  dsimp only
  split_ifs <;> omega

theorem tcpParseOptionsLoop_wscale (fuel : Nat) (o : PeerOptions) (opts : List UInt8)
    (ho : o.sndWscale ≤ 14) : (tcpParseOptionsLoop fuel o opts).sndWscale ≤ 14 := by
  fun_induction tcpParseOptionsLoop fuel o opts with
  | case1 | case2 | case3 => exact ho
  | case4 fuel o rest h ih => exact ih ho
  | case5 | case6 => exact ho
  | case7 fuel o kind h0 h1 len body hlen ih => exact ih (o.take_wscale kind len body ho)

/-- An acknowledgement of something sent and not older than the last one. -/
def SendSide.Acceptable (s : SendSide) (ackNum : UInt32) : Prop :=
  (ackNum - s.sndUna).toNat ≤ (s.seqNum - s.sndUna).toNat

instance (s : SendSide) (ackNum : UInt32) : Decidable (s.Acceptable ackNum) :=
  inferInstanceAs (Decidable (_ ≤ _))

/-- What is done to a segment before its state is looked at. -/
structure Prepared (seg : TcpSegment) (c c' : TcpConnection) : Prop where
  state : c'.state = c.state
  rcv : c'.rcv = c.rcv
  own : c'.own = c.own
  destroyed : c'.destroyed = c.destroyed
  seqNum : c'.snd.seqNum = c.snd.seqNum
  initialSeq : c'.snd.initialSeq = c.snd.initialSeq
  sndWnd : c'.snd.sndWnd = (updateWindow c seg).snd.sndWnd
  opt : c'.opt = if seg.flags.syn then tcpParseOptions c.opt seg.options else c.opt
  sndUna : c'.snd.sndUna = if seg.flags.ack then seg.ackNum else c.snd.sndUna
  queue : OnlyCovered seg.ackNum c.snd.queue c'.snd.queue
  queue_of_not_ack : seg.flags.ack = false → c'.snd.queue = c.snd.queue
  wire : c.wire.Repeats
    (c.snd.resendStarts (seg.flags.ack && isPureAck c (updateWindow c seg) seg)) c'.wire

theorem beforeSwitch_prepared (env : TcpEnv) (now : UInt64) (c : TcpConnection) (seg : TcpSegment) :
    Prepared seg c (beforeSwitch env now c seg) := by
  -- parsing the options of a SYN changes nothing but the options
  have hopt : ∀ a : TcpConnection, a.opt = c.opt →
      (∀ o, o = (if seg.flags.syn then tcpParseOptions c.opt seg.options else c.opt) →
        Prepared seg c { a with opt := o }) →
      Prepared seg c (if seg.flags.syn then { a with opt := tcpParseOptions a.opt seg.options } else a) := by
    intro a ha h
    split_ifs with hsyn
    · exact h _ (by rw [ha, if_pos hsyn])
    · exact h a.opt (by rw [ha, if_neg hsyn])
  cases hack : seg.flags.ack with
  | false =>
    unfold beforeSwitch
    rw [hack]
    exact hopt _ rfl fun o ho => ⟨rfl, rfl, rfl, rfl, rfl, rfl, rfl, ho, by simp [hack, updateWindow],
      .of_content seg.ackNum rfl, fun _ => rfl, .of_sent rfl⟩
  | true =>
    obtain ⟨s, w, heq, hsame, huna, hqueue, hrep⟩ := tcpRetransmitAck_eq env now (updateWindow c seg)
      seg.ackNum (isPureAck c (updateWindow c seg) seg)
    unfold beforeSwitch
    dsimp only
    rw [hack, if_pos rfl, heq]
    exact hopt _ rfl fun o ho => ⟨rfl, rfl, rfl, rfl, hsame.seqNum, hsame.initialSeq, hsame.sndWnd, ho,
      by simpa [hack] using huna, hqueue, by simp [hack],
      by rw [hack, Bool.true_and]; exact hrep⟩

theorem Prepared.wscale {seg : TcpSegment} {c c' : TcpConnection} (h : Prepared seg c c')
    (hc : c.opt.sndWscale ≤ 14) : c'.opt.sndWscale ≤ 14 := by
  rw [h.opt]
  split_ifs
  · exact tcpParseOptionsLoop_wscale _ _ _ hc
  · exact hc

theorem Prepared.fits {seg : TcpSegment} {c c' : TcpConnection} (h : Prepared seg c c')
    (hsyn : seg.flags.syn = true → (tcpParseOptions c.opt seg.options).mss ≤ 65515) (hc : c.opt.Fits) :
    c'.opt.Fits := by
  refine ⟨h.wscale hc.wscale, ?_⟩
  rw [h.opt]
  split_ifs with hs
  · exact hsyn hs
  · exact hc.mss

/-! ### The handlers -/

/-- All that a segment without RST can do to a connection, once it is prepared. -/
inductive SegmentStep (isn : UInt32) (seg : TcpSegment) (p : TcpConnection) : TcpConnection → Prop
  | ignored : SegmentStep isn seg p p
  /-- LISTEN: a SYN is answered from a new initial sequence number. -/
  | syn {k : Nat} {c' : TcpConnection} (hs : p.state = .listen) (hsyn : seg.flags.syn = true)
      (hk : k ≤ 1) (hem : Emitted k { p with
        state := .synReceived
        rcv := { p.rcv with ackNum := seg.seqNum + 1, irs := seg.seqNum }
        snd := { p.snd with seqNum := isn, initialSeq := isn }
        opt := p.opt.agree } c') (hq : c'.snd.queue = p.snd.queue) : SegmentStep isn seg p c'
  /-- SYN_SENT: a SYN-ACK opens the connection. -/
  | synAck (hs : p.state = .synSent) (hack : seg.flags.ack = true) (s : SendSide) (w : Wire)
      (hsame : p.snd.SameNumbers s) (huna : s.sndUna = seg.ackNum)
      (hqueue : OnlyCovered seg.ackNum p.snd.queue s.queue)
      (hext : p.wire.Extends p.snd.seqNum 0 w) : SegmentStep isn seg p (establish { p with
        opt := p.opt.agree
        rcv := { p.rcv with ackNum := seg.seqNum + 1, irs := seg.seqNum }
        snd := s, wire := w })
  /-- SYN_RECEIVED: the SYN-ACK is repeated, or an ACK opens the connection. -/
  | synAgain (hs : p.state = .synReceived) (hsyn : seg.flags.syn = true) (hack : seg.flags.ack = false)
      (w : Wire) (hrep : p.wire.Repeats [p.snd.initialSeq] w) : SegmentStep isn seg p { p with wire := w }
  | opened (hs : p.state = .synReceived) (hack : seg.flags.ack = true) : SegmentStep isn seg p (establish p)
  /-- ESTABLISHED: take the text and answer, or take the FIN as well, at `ack_num`. -/
  | text {c' : TcpConnection} (hs : p.state = .established)
      (hem : Emitted 0 { p with rcv := (takeText p.rcv p.own.dataCallback seg).1 } c')
      (hq : c'.snd.queue = p.snd.queue) : SegmentStep isn seg p c'
  | fin {c' : TcpConnection} {finSeq : UInt32} {st : TcpState} {k : Nat} (hs : p.state = .established)
      (hfin : seg.flags.fin = true)
      (hend : finSeq = (trim p.rcv.ackNum seg).1 + UInt32.ofNat (trim p.rcv.ackNum seg).2.length)
      (hnext : finSeq = (takeText p.rcv p.own.dataCallback seg).1.ackNum)
      (hst : st = .closeWait ∧ k = 0 ∨ st = .lastAck ∧ k ≤ 1 ∧ p.own.halfClose = false)
      (hem : Emitted k { p with
        state := st, rcv := (takeText p.rcv p.own.dataCallback seg).1.takeFin finSeq } c')
      (hq : c'.snd.queue = p.snd.queue) : SegmentStep isn seg p c'
  /-- FIN_WAIT_1: take the text and answer, or take the FIN as well; with an ACK that ends
  the connection and its queue. -/
  | textInOrder {c' : TcpConnection} (hs : p.state = .finWait1)
      (hem : Emitted 0 { p with rcv := (takeTextInOrder p.rcv seg).1 } c')
      (hq : c'.snd.queue = p.snd.queue) : SegmentStep isn seg p c'
  | finInOrder {c' d : TcpConnection} {st : TcpState} (hs : p.state = .finWait1)
      (hgo : (takeTextInOrder p.rcv seg).2 = true) (hfin : seg.flags.fin = true)
      (hst : st = .closing ∨ st = .timeWait)
      (hem : Emitted 0 { p with
        state := st
        rcv := (takeTextInOrder p.rcv seg).1.takeFin
          (seg.seqNum + UInt32.ofNat seg.payload.length) } d)
      (hd : c' = d ∨ seg.flags.ack = true ∧
        (c' = tcpRetransmitFlush d ∨ c' = tcpDestroyConnection (tcpRetransmitFlush d)))
      (hq : d.snd.queue = p.snd.queue) : SegmentStep isn seg p c'
  /-- LAST_ACK: an ACK closes the connection and flushes its queue. -/
  | closed {c' : TcpConnection} (hs : p.state = .lastAck) (hack : seg.flags.ack = true)
      (h : c' = { tcpRetransmitFlush p with state := .closed } ∨
        c' = tcpDestroyConnection { tcpRetransmitFlush p with state := .closed }) :
      SegmentStep isn seg p c'

section Handlers

variable (env : TcpEnv) (now : UInt64) (isn : UInt32) (c : TcpConnection) (seg : TcpSegment)

theorem handleEstablished_step (hs : c.state = .established) :
    SegmentStep isn seg c (handleEstablished env c seg) := by
  unfold handleEstablished
  dsimp only
  split_ifs with hgo hfin hseq hhalf
  · exact .text hs (emitted_sendAck env _) (sendAck_queue env _)
  · exact .text hs (emitted_sendAck env _) (sendAck_queue env _)
  · exact .fin hs hfin rfl (not_not.1 hseq) (.inl ⟨rfl, rfl⟩) ((emitted_sendAck env _).setState .closeWait)
      (sendAck_queue env _)
  · rw [(emitted_sendAck env _).own, Bool.not_eq_true] at hhalf
    exact .fin hs hfin rfl (not_not.1 hseq)
      (.inr ⟨rfl, (Nat.zero_add _).trans_le (unitsSent_le env _ .finAck [] []), hhalf⟩)
      (((emitted_sendAck env _).trans (emitted_sendBare env _ .finAck [] (Nat.zero_le _))).setState .lastAck)
      ((send_queue env _ .finAck [] []).trans (sendAck_queue env _))
  · exact .text hs (emitted_sendAck env _) (sendAck_queue env _)
  · exact .text hs (.refl _) rfl

theorem handleFinWait1_step (hs : c.state = .finWait1) :
    SegmentStep isn seg c (handleFinWait1 env c seg) := by
  have hack := emitted_sendAck env { c with
    rcv := (takeTextInOrder c.rcv seg).1.takeFin (seg.seqNum + UInt32.ofNat seg.payload.length) }
  unfold handleFinWait1
  dsimp only
  split_ifs with hgo hflags hown hfin
  · exact .textInOrder hs (emitted_sendAck env _) (sendAck_queue env _)
  · simp only [Bool.and_eq_true] at hflags
    exact .finInOrder hs (by simpa using hgo) hflags.1 (.inr rfl) (hack.setState .timeWait)
      (.inr ⟨hflags.2, .inl rfl⟩) (sendAck_queue env _)
  · simp only [Bool.and_eq_true] at hflags
    exact .finInOrder hs (by simpa using hgo) hflags.1 (.inr rfl) (hack.setState .timeWait)
      (.inr ⟨hflags.2, .inr rfl⟩) (sendAck_queue env _)
  · exact .finInOrder hs (by simpa using hgo) hfin (.inl rfl) (hack.setState .closing) (.inl rfl)
      (sendAck_queue env _)
  · exact .textInOrder hs (.refl _) rfl

/-- LISTEN: a SYN is answered from a new initial sequence number. -/
theorem tcpHandleSyn_emits : ∃ k ≤ 1, Emitted k
    { c with
      state := .synReceived
      rcv := { c.rcv with ackNum := seg.seqNum + 1, irs := seg.seqNum }
      snd := { c.snd with seqNum := isn, initialSeq := isn }
      opt := c.opt.agree } (tcpHandleSyn env isn c seg) :=
  ⟨_, unitsSent_le env _ .synAck [] (tcpSynOptions c.opt.agree true),
    (emitted_sendBare env _ .synAck _ (length_tcpSynOptions c.opt.agree true)).setState .synReceived⟩

/-- SYN_SENT: a SYN-ACK opens the connection, anything else does nothing. -/
theorem handleSynSent_eq : ∃ s w,
    handleSynSent env now c seg =
      (if seg.flags.syn && seg.flags.ack then
        establish { c with
          opt := c.opt.agree
          rcv := { c.rcv with ackNum := seg.seqNum + 1, irs := seg.seqNum }
          snd := s, wire := w }
      else c) ∧
      c.snd.SameNumbers s ∧ s.sndUna = seg.ackNum ∧ OnlyCovered seg.ackNum c.snd.queue s.queue ∧
      c.wire.Extends c.snd.seqNum 0 w := by
  obtain ⟨s, w, heq, hsame, huna, hqueue, hrep⟩ := tcpRetransmitAck_eq env now { c with
    opt := c.opt.agree
    rcv := { c.rcv with ackNum := seg.seqNum + 1, irs := seg.seqNum }
    snd.sndUna := seg.ackNum } seg.ackNum false
  obtain ⟨w', hw, hext⟩ := sendAck_eq env { c with
    opt := c.opt.agree
    rcv := { c.rcv with ackNum := seg.seqNum + 1, irs := seg.seqNum }
    snd := s, wire := w }
  refine ⟨s, w', ?_, ⟨hsame.1, hsame.2, hsame.3⟩, huna, hqueue, ?_⟩
  · unfold handleSynSent
    dsimp only at heq ⊢
    rw [heq, hw]
  · have hack : w.Extends (c.snd.seqNum + UInt32.ofNat 0) 0 w' := by
      simpa [hsame.seqNum] using hext
    have hnone : c.wire.Extends c.snd.seqNum 0 w := hrep.extends (by simp [SendSide.resendStarts])
    exact hnone.trans hack

theorem handleLastAck_cases : handleLastAck c seg = c ∨ (seg.flags.ack ∧
    (handleLastAck c seg = { tcpRetransmitFlush c with state := .closed } ∨
      handleLastAck c seg = tcpDestroyConnection { tcpRetransmitFlush c with state := .closed })) := by
  unfold handleLastAck
  dsimp only
  split_ifs <;> simp_all

theorem switchState_step : SegmentStep isn seg c (switchState env now isn c seg) := by
  unfold switchState
  cases hs : c.state with
  | listen =>
    split_ifs with hsyn
    · obtain ⟨k, hk, hem⟩ := tcpHandleSyn_emits env isn c seg
      exact .syn hs hsyn hk hem (send_queue env _ .synAck [] _)
    · exact .ignored
  | synSent =>
    obtain ⟨s, w, heq, hsame, huna, hqueue, hext⟩ := handleSynSent_eq env now c seg
    dsimp only
    rw [heq]
    split_ifs with hflags
    · simp only [Bool.and_eq_true] at hflags
      exact .synAck hs hflags.2 s w hsame huna hqueue hext
    · exact .ignored
  | synReceived =>
    obtain ⟨w, hre, hrep⟩ := sendAt_eq env c .synAck [] (tcpSynOptions c.opt true) c.snd.initialSeq
    dsimp only
    unfold handleSynReceived
    split_ifs with hflags hack
    · simp only [Bool.and_eq_true, Bool.not_eq_true'] at hflags
      rw [hre]
      exact .synAgain hs hflags.2 hflags.1 w hrep
    · exact .opened hs hack
    · exact .ignored
  | established => exact handleEstablished_step env isn c seg hs
  | finWait1 => exact handleFinWait1_step env isn c seg hs
  | lastAck =>
    obtain heq | ⟨hack, h⟩ := handleLastAck_cases c seg
    · rw [heq]
      exact .ignored
    · exact .closed hs hack h
  | _ => exact .ignored

end Handlers

/-! ### Local calls and timers -/

section Calls

variable (env : TcpEnv) (now : UInt64) (c : TcpConnection)

/-- `tcp_send` stays within its limit, and sends only while the connection is open. -/
theorem tcpSend_emits (data : List UInt8) : ∃ k, Emitted k c (tcpSend env now c data).1 ∧
    (k = 0 ∨ (c.state = .established ∨ c.state = .closeWait) ∧ k ≤ c.snd.sendLimit.toNat) := by
  unfold tcpSend
  split_ifs with hopen
  · obtain ⟨k, hk, hem⟩ := tcpSendLoop_emits env now c.opt.mss.toNat
      (data.take c.snd.sendLimit.toNat).length 0 c (data.take c.snd.sendLimit.toNat)
      fun ho => UInt32.le_iff_toNat_le.1 ho.mss
    rw [List.length_take] at hk
    exact ⟨k, hem, .inr ⟨hopen, by omega⟩⟩
  · exact ⟨0, .refl c, .inl rfl⟩

theorem tcpConnRead_emits (len : Nat) :
    Emitted 0 { c with rcv := tcpRingRead c.rcv len } (tcpConnRead env c len) := by
  unfold tcpConnRead tcpRxWindowUpdate
  dsimp only
  split_ifs
  · exact .refl _
  · exact emitted_sendAck env _
  · exact .refl _

/-- What `tcp_close` and `shutdown` do with an open connection: send our FIN and move on. -/
structure Finishing (c c' : TcpConnection) (before after : TcpState) : Prop where
  state : c.state = before
  emits : ∃ k ≤ 1, Emitted k { c with state := after } c'

/-- Our FIN goes out from ESTABLISHED or CLOSE_WAIT. -/
def SendsFin (c c' : TcpConnection) : Prop :=
  Finishing c c' .established .finWait1 ∨ Finishing c c' .closeWait .lastAck

theorem tcpClose_cases : ∃ own, SendsFin { c with own := own } (tcpClose env now c) ∨
    (c.state = .lastAck ∧ tcpClose env now c = { c with own := own }) ∨
    (c.state ≠ .established ∧ c.state ≠ .closeWait ∧ c.state ≠ .lastAck ∧
      tcpClose env now c = tcpDestroyConnection { c with own := own }) := by
  refine ⟨{ c.own with
    disowned := c.own.owned || c.own.disowned, owned := false, halfClose := false }, ?_⟩
  unfold tcpClose
  cases hs : c.state
  case established => exact .inl (.inl ⟨rfl, sendFin_emits env now _ .finWait1⟩)
  case closeWait => exact .inl (.inr ⟨rfl, sendFin_emits env now _ .lastAck⟩)
  case lastAck => exact .inr (.inl ⟨rfl, rfl⟩)
  all_goals exact .inr (.inr ⟨nofun, nofun, nofun, rfl⟩)

theorem tcpSocketShutdownWr_cases :
    SendsFin c (tcpSocketShutdownWr env now c) ∨ tcpSocketShutdownWr env now c = c := by
  unfold tcpSocketShutdownWr
  cases hs : c.state
  case established => exact .inl (.inl ⟨hs, sendFin_emits env now _ .finWait1⟩)
  case closeWait => exact .inl (.inr ⟨hs, sendFin_emits env now _ .lastAck⟩)
  all_goals exact .inr rfl

theorem tcpSocketAccept_eq : ∃ own, tcpSocketAccept c = { c with own := own } := by
  unfold tcpSocketAccept
  split_ifs
  · exact ⟨_, rfl⟩
  · exact ⟨c.own, rfl⟩

theorem handleRst_cases : handleRst c = { tcpRetransmitFlush c with state := .closed } ∨
    handleRst c = tcpDestroyConnection { tcpRetransmitFlush c with state := .closed } := by
  unfold handleRst
  dsimp only
  split_ifs <;> simp

/-- The events that destroy a connection, apart from segments. -/
def Reaps (c : TcpConnection) : Event → Prop
  | .close _ => c.state ≠ .established ∧ c.state ≠ .closeWait ∧ c.state ≠ .lastAck
  | .cleanup now => isStale now c
  | .listenerClosed => c.own.userChild ∧ c.own.accepted = false
  | _ => False

/-- The calls that send our FIN. -/
def Finishes : Event → Prop
  | .close _ | .shutdownWr _ => True
  | _ => False

/-- All that a local call or a timer can do to a connection. -/
inductive LocalStep (c : TcpConnection) : Event → TcpConnection → Prop
  | own (e : Event) (own : Ownership) : LocalStep c e { c with own := own }
  | sent {c' : TcpConnection} {now : UInt64} {data : List UInt8} {k : Nat} (hem : Emitted k c c')
      (hk : k = 0 ∨ (c.state = .established ∨ c.state = .closeWait) ∧ k ≤ c.snd.sendLimit.toNat) :
      LocalStep c (.send now data) c'
  | read {c' : TcpConnection} {len : Nat} (hem : Emitted 0 { c with rcv := tcpRingRead c.rcv len } c') :
      LocalStep c (.read len) c'
  | fin {c' : TcpConnection} {e : Event} (own : Ownership) (he : Finishes e)
      (h : SendsFin { c with own := own } c') : LocalStep c e c'
  | destroyed {e : Event} (own : Ownership) (h : Reaps c e) :
      LocalStep c e (tcpDestroyConnection { c with own := own })
  | listen : LocalStep c .listen { c with state := .listen }
  | timer {now : UInt64} (s : SendSide) (w : Wire) (hsame : c.snd.SameNumbers s)
      (huna : s.sndUna = c.snd.sndUna)
      (hwire : c.wire.Repeats (expiredStarts now c.snd.queue) w)
      (hqueue : s.queue.map RetransmitEntry.content = c.snd.queue.map RetransmitEntry.content) :
      LocalStep c (.tick now) { c with snd := s, wire := w }
  | gaveUp {now : UInt64} (s : SendSide) (w : Wire) (hsame : c.snd.SameNumbers s)
      (huna : s.sndUna = c.snd.sndUna) (hwire : c.wire.Repeats (expiredStarts now c.snd.queue) w)
      (hqueue : s.queue = []) (hex : exhausted now c.snd.queue) :
      LocalStep c (.tick now) { c with state := .closed, snd := s, wire := w }

theorem step_local {e : Event} (hd : c.destroyed = false)
    (he : ∀ now isn seg, e ≠ .segment now isn seg) : LocalStep c e (step env c e) := by
  unfold step
  rw [if_neg (by simp [hd])]
  cases e with
  | segment now isn seg => exact absurd rfl (he now isn seg)
  | send now data =>
    obtain ⟨k, hem, hk⟩ := tcpSend_emits env now c data
    exact .sent hem hk
  | read len => exact .read (tcpConnRead_emits env c len)
  | close now =>
    dsimp only
    obtain ⟨own, hfin | ⟨-, heq⟩ | ⟨h1, h2, h3, heq⟩⟩ := tcpClose_cases env now c
    · exact .fin own trivial hfin
    · rw [heq]
      exact .own _ own
    · rw [heq]
      exact .destroyed own ⟨h1, h2, h3⟩
  | shutdownWr now =>
    obtain hfin | heq := tcpSocketShutdownWr_cases env now c
    · exact .fin c.own trivial hfin
    · dsimp only
      rw [heq]
      exact .own _ c.own
  | accept =>
    obtain ⟨own, heq⟩ := tcpSocketAccept_eq c
    rw [heq]
    exact .own _ own
  | listen => exact .listen
  | tick now =>
    dsimp only
    obtain ⟨st, s, w, heq, hsame, huna, hrep, ⟨rfl, hq⟩ | ⟨rfl, hq, hex⟩⟩ :=
      tcpRetransmitCheck_eq env now c
    · rw [heq]
      exact .timer s w hsame huna hrep hq
    · rw [heq]
      exact .gaveUp s w hsame huna hrep hq hex
  | cleanup now =>
    dsimp only
    unfold tcpCleanupStale
    split_ifs with hstale
    · exact .destroyed c.own hstale
    · exact .own _ c.own
  | listenerClosed =>
    unfold dropUnaccepted
    split_ifs with hun
    · exact .destroyed c.own (by simpa [Reaps] using hun)
    · exact .own _ c.own

end Calls

/-! ### Steps -/

/-- All that an event can do to a connection. -/
inductive Stepped (c : TcpConnection) : Event → TcpConnection → Prop
  | dead {e : Event} (hd : c.destroyed = true) : Stepped c e c
  | call {e : Event} {c' : TcpConnection} (hd : c.destroyed = false)
      (he : ∀ now isn seg, e ≠ .segment now isn seg) (h : LocalStep c e c') : Stepped c e c'
  | reset {now : UInt64} {isn : UInt32} {seg : TcpSegment} {c' : TcpConnection}
      (hd : c.destroyed = false) (hrst : seg.flags.rst = true)
      (h : c' = { tcpRetransmitFlush c with lastActivity := now, state := .closed } ∨
        c' = tcpDestroyConnection { tcpRetransmitFlush c with lastActivity := now, state := .closed }) :
      Stepped c (.segment now isn seg) c'
  | segment {now : UInt64} {isn : UInt32} {seg : TcpSegment} {p c' : TcpConnection}
      (hd : c.destroyed = false) (hrst : seg.flags.rst = false) (hp : Prepared seg c p)
      (h : SegmentStep isn seg p c') : Stepped c (.segment now isn seg) c'

section Segments

variable (env : TcpEnv) {c : TcpConnection} (now : UInt64) (isn : UInt32) {seg : TcpSegment}

theorem step_destroyed {e : Event} (hd : c.destroyed = true) : step env c e = c := if_pos hd

theorem step_rst (hd : c.destroyed = false) (hrst : seg.flags.rst = true) :
    step env c (.segment now isn seg) = handleRst { c with lastActivity := now } := by
  unfold step tcpHandlePacketIn
  simp [hd, hrst]

theorem step_segment (hd : c.destroyed = false) (hrst : seg.flags.rst = false) :
    ∃ p, Prepared seg c p ∧ step env c (.segment now isn seg) = switchState env now isn p seg := by
  refine ⟨beforeSwitch env now { c with lastActivity := now } seg, ?_, ?_⟩
  · have h := beforeSwitch_prepared env now { c with lastActivity := now } seg
    exact ⟨h.1, h.2, h.3, h.4, h.5, h.6, h.7, h.8, h.9, h.10, h.11, h.12⟩
  · unfold step tcpHandlePacketIn
    simp [hd, hrst]

theorem step_stepped (c : TcpConnection) (e : Event) : Stepped c e (step env c e) := by
  cases hd : c.destroyed with
  | true =>
    rw [step_destroyed env hd]
    exact .dead hd
  | false =>
    by_cases he : ∀ now isn seg, e ≠ .segment now isn seg
    · exact .call hd he (step_local env c hd he)
    · push Not at he
      obtain ⟨now, isn, seg, rfl⟩ := he
      cases hrst : seg.flags.rst with
      | true =>
        rw [step_rst env now isn hd hrst]
        exact .reset hd hrst (handleRst_cases _)
      | false =>
        obtain ⟨p, hp, heq⟩ := step_segment env now isn hd hrst
        rw [heq]
        exact .segment hd hrst hp (switchState_step env now isn p seg)

end Segments

/-- How far a connection has come. -/
@[simp] def TcpState.age : TcpState → Nat
  | .listen => 0
  | .synSent | .synReceived => 1
  | .established => 2
  | .finWait1 | .closeWait => 3
  | .finWait2 | .closing | .lastAck | .timeWait => 4
  | .closed => 5

theorem Stepped.age_le {c c' : TcpConnection} {e : Event} (h : Stepped c e c') (he : e ≠ .listen) :
    c.state.age ≤ c'.state.age := by
  have hclosed (s : TcpState) : s.age ≤ TcpState.closed.age := by cases s <;> decide
  cases h with
  | dead => exact le_rfl
  | reset _ _ h => rcases h with rfl | rfl <;> exact hclosed _
  | call _ _ h =>
    cases h with
    | own | timer | destroyed => exact le_rfl
    | sent hem | read hem => rw [hem.state]
    | listen => exact absurd rfl he
    | gaveUp => exact hclosed _
    | fin _ _ h => obtain ⟨hs, k, -, hem⟩ | ⟨hs, k, -, hem⟩ := h <;> simp_all [hem.state]
  | segment _ _ hp h =>
    rw [← hp.state]
    cases h with
    | ignored | synAgain => exact le_rfl
    | syn hs _ _ hem => simp [hem.state, hs]
    | synAck hs | opened hs => simp [establish, hs]
    | text _ hem | textInOrder _ hem => rw [hem.state]
    | closed _ _ h => rcases h with rfl | rfl <;> exact hclosed _
    | fin hs _ _ _ hst hem => obtain ⟨rfl, -⟩ | ⟨rfl, -⟩ := hst <;> simp [hem.state, hs]
    | finInOrder hs _ _ hst hem hd =>
      obtain rfl | ⟨-, rfl | rfl⟩ := hd <;> rcases hst with rfl | rfl <;>
        simp [tcpDestroyConnection, tcpRetransmitFlush, hem.state, hs]

/-- **States only go forward**, as long as `tcp_socket_listen` is not called: a connection that
has left ESTABLISHED is never open again, and a closed one stays closed. -/
theorem states_go_forward (env : TcpEnv) (c : TcpConnection) {es : List Event} (hes : .listen ∉ es) :
    c.state.age ≤ (run env c es).state.age := by
  induction es generalizing c with
  | nil => exact le_rfl
  | cons e es ih =>
    rw [List.mem_cons, not_or] at hes
    exact ((step_stepped env c e).age_le (Ne.symm hes.1)).trans (ih _ hes.2)

/-- Opened, written to, closed on our side and then by the peer. -/
def wholeLife : List Event :=
  [.segment 5 0 peerSynAck, .send 6 [65], .close 7,
    .segment 8 0 (peerSegment { TcpFlags.onlyAck with fin := true } 1003)]

theorem states_go_forward_wholeLife :
    let c := tcpConnect .reliable 0 1000 true
    (List.range 5).map (fun k => (run .reliable c (wholeLife.take k)).state) =
        [.synSent, .established, .established, .finWait1, .timeWait] ∧
      ∀ k, c.state.age ≤ (run .reliable c (wholeLife.take k)).state.age :=
  ⟨by decide +kernel, fun _ => states_go_forward .reliable _ fun h =>
    absurd (List.mem_of_mem_take h) (by simp [wholeLife])⟩

end InDevOS.Net.Tcp
