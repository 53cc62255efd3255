import InDevOS.Lib.Tiling
import InDevOS.Net.Tcp.Ledger
import InDevOS.Net.Tcp.Queue

/-! The retransmission queue tiles what is under way.

Entries are queued before their segment is sent, and `seq_num` moves only if that succeeds,
so queue and numbers part when one of the two fails: an entry whose segment did not go out
stays, and the next `tcp_send` queues the same numbers again (`queue_repeats_numbers`). They
also part at the SYN-ACK and at the FIN that answers a FIN, which are sent without an entry, at
acknowledgements of numbers never sent, and where the queue is flushed early. In a run without
these (`KeepsTiling`) the queue covers exactly the numbers from `snd_una`, rounded down to
a segment, to `seq_num` (`queue_tiles`). -/
namespace InDevOS.Net.Tcp

open InDevOS.Lib InDevOS.Lib.Seq32 InDevOS.Lib.Tiling

/-- The numbers an entry holds. -/
def RetransmitEntry.range (e : RetransmitEntry) : UInt32 × UInt32 := (e.seqStart, e.seqEnd)

def SendSide.ranges (s : SendSide) : List (UInt32 × UInt32) := s.queue.map RetransmitEntry.range

/-- The queue tiles the numbers from `snd_una`, rounded down, to `seq_num`. -/
def SendSide.Tiled (s : SendSide) : Prop := Covers s.sndUna s.seqNum s.ranges

/-! ### The condition -/

/-- At the `n`-th transmission an entry can be queued exactly if the segment goes out. -/
def TcpEnv.InStep (env : TcpEnv) (n : Nat) : Prop := env.entry n = (env.packet n && env.ip n)

/-- The condition on a segment. -/
structure SegmentKeepsTiling (c : TcpConnection) (seg : TcpSegment) : Prop where
  /-- a RST finds everything acknowledged -/
  rst : seg.flags.rst = true → c.snd.sndUna = c.snd.seqNum
  /-- an acknowledgement is of something sent, and the one that opens is of our SYN-ACK -/
  ack : seg.flags.rst = false → seg.flags.ack = true →
    (c.state = .synReceived → seg.ackNum = c.snd.seqNum) ∧
      (c.state ≠ .listen → c.state ≠ .synReceived → c.snd.Acceptable seg.ackNum) ∧
      (Flushes c seg → seg.ackNum = c.snd.seqNum)
  /-- the peer's FIN does not make us send ours -/
  fin : c.state = .established → seg.flags.fin = true → c.own.halfClose = true

/-- The condition on an event. -/
def KeepsTiling (env : TcpEnv) (c : TcpConnection) : Event → Prop
  | .segment _ _ seg => SegmentKeepsTiling c seg
  | .send _ data => ∀ i, i * c.opt.mss.toNat < (data.take c.snd.sendLimit.toNat).length →
      env.InStep (c.wire.tries + i)
  | .close _ | .shutdownWr _ =>
    c.state = .established ∨ c.state = .closeWait → env.InStep c.wire.tries
  | .tick now => ¬ exhausted now c.snd.queue
  | .listen => c.state = .listen
  | _ => True

/-! ### The invariant -/

/-- The largest segment a peer can ask for. -/
def maxSegment : Nat := 65535

/-- The window stays within what a peer can announce. -/
structure Sized (c : TcpConnection) : Prop where
  window : c.snd.sndWnd.toNat ≤ maxWindow
  wscale : c.opt.sndWscale ≤ 14

/-- What is under way, as positions: the queue starts at `lo`, the peer has acknowledged up
to `una`, and `hi` comes next. -/
structure Flight (base : UInt32) (lo una hi : Nat) (c : TcpConnection) : Prop where
  seqNum : c.snd.seqNum = seqAt base hi
  sndUna : c.snd.sndUna = seqAt base una
  front : Front base maxSegment lo una hi c.snd.ranges
  flight : hi - una ≤ flightLimit c.state

/-- Before the handshake is over on the passive side nothing is queued; later the queue
tiles what is under way. -/
def Sending (c : TcpConnection) : Prop :=
  if c.state = .listen ∨ c.state = .synReceived then c.snd.queue = []
  else ∃ base lo una hi, Flight base lo una hi c

def Kept (c : TcpConnection) : Prop := c.destroyed = false → Sized c ∧ Sending c

section Flights

variable {env : TcpEnv} {base : UInt32} {lo una hi : Nat} {c c' : TcpConnection}

theorem Flight.near (h : Flight base lo una hi c) : hi < una + 2 ^ 31 := by
  have hflight := h.flight.trans (flightLimit_le c.state)
  unfold maxWindow at hflight
  omega

theorem Flight.tiled (h : Flight base lo una hi c) : c.snd.Tiled := by
  unfold SendSide.Tiled
  rw [h.seqNum, h.sndUna]
  exact h.front.covers (by decide) h.near

theorem Flight.congr (h : Flight base lo una hi c) (hseq : c'.snd.seqNum = c.snd.seqNum)
    (huna : c'.snd.sndUna = c.snd.sndUna) (hq : c'.snd.ranges = c.snd.ranges)
    (hle : flightLimit c.state ≤ flightLimit c'.state) : Flight base lo una hi c' :=
  ⟨hseq.trans h.seqNum, huna.trans h.sndUna, hq ▸ h.front, h.flight.trans hle⟩

theorem Flight.idle (huna : c.snd.sndUna = c.snd.seqNum) (hq : c.snd.queue = []) :
    Flight c.snd.seqNum 0 0 0 c where
  seqNum := (seqAt_zero _).symm
  sndUna := huna.trans (seqAt_zero _).symm
  front := by
    rw [SendSide.ranges, hq]
    exact .nil _ _ 0
  flight := Nat.zero_le _

theorem ranges_of_content {s s' : SendSide}
    (h : s'.queue.map RetransmitEntry.content = s.queue.map RetransmitEntry.content) :
    s'.ranges = s.ranges := by
  have := congrArg (List.map fun t => (t.1, t.2.1)) h
  rwa [List.map_map, List.map_map] at this

theorem Sending.of_flight (h : ∃ base lo una hi, Flight base lo una hi c)
    (hs : ¬ (c.state = .listen ∨ c.state = .synReceived)) : Sending c := by
  rwa [Sending, if_neg hs]

theorem Sending.flight (h : Sending c) (hs : ¬ (c.state = .listen ∨ c.state = .synReceived)) :
    ∃ base lo una hi, Flight base lo una hi c := by
  rwa [Sending, if_neg hs] at h

theorem Sending.congr (h : Sending c) (hsnd : c'.snd = c.snd)
    (hs : c'.state = c.state ∨ ¬ (c.state = .listen ∨ c.state = .synReceived) ∧
      ¬ (c'.state = .listen ∨ c'.state = .synReceived) ∧
      flightLimit c.state ≤ flightLimit c'.state) : Sending c' := by
  unfold Sending at *
  obtain hs | ⟨hs, hs', hle⟩ := hs
  · rw [hs]
    split_ifs at h ⊢
    · rw [hsnd]
      exact h
    · obtain ⟨base, lo, una, hi, h⟩ := h
      exact ⟨base, lo, una, hi, h.congr (by rw [hsnd]) (by rw [hsnd]) (by rw [hsnd]) (by rw [hs])⟩
  · rw [if_neg hs] at h
    rw [if_neg hs']
    obtain ⟨base, lo, una, hi, h⟩ := h
    exact ⟨base, lo, una, hi, h.congr (by rw [hsnd]) (by rw [hsnd]) (by rw [hsnd]) hle⟩

theorem Sized.congr (h : Sized c) (hwnd : c'.snd.sndWnd = c.snd.sndWnd)
    (hws : c'.opt.sndWscale = c.opt.sndWscale) : Sized c' :=
  ⟨hwnd ▸ h.window, hws ▸ h.wscale⟩

end Flights

/-! ### Queueing and sending -/

section Sends

variable {env : TcpEnv} {base : UInt32} {lo una hi : Nat} {c : TcpConnection}

/-- Queue an entry, then send its segment. -/
def queueAndSend (env : TcpEnv) (now : UInt64) (c : TcpConnection) (flags : TcpFlags)
    (data options : List UInt8) : TcpConnection × Bool :=
  tcpSendPacketWithOptions env (tcpRetransmitEnqueue env now c c.snd.seqNum flags data) flags data options

theorem queueAndSend_cases (hstep : env.InStep c.wire.tries) (now : UInt64) (flags : TcpFlags)
    (data options : List UInt8) : ∃ w, w.tries = c.wire.tries + 1 ∧
      (queueAndSend env now c flags data options = ({ c with wire := w }, false) ∨
        queueAndSend env now c flags data options =
          ({ c with
              snd.seqNum := c.snd.seqNum + UInt32.ofNat (flags.consumed data.length)
              snd.queue := c.snd.queue ++ [freshEntry env now c c.snd.seqNum flags data]
              wire := w }, true)) := by
  unfold TcpEnv.InStep at hstep
  unfold queueAndSend tcpSendPacketWithOptions tcpRetransmitEnqueue
  cases hpacket : env.packet c.wire.tries <;> cases hip : env.ip c.wire.tries <;>
    rw [hpacket, hip] at hstep <;> simp [hstep, hpacket, hip]

theorem Flight.queueAndSend (h : Flight base lo una hi c) (hstep : env.InStep c.wire.tries)
    (now : UInt64) (flags : TcpFlags) (data options : List UInt8) {k : Nat}
    (hspan : flags.spanned data.length = k) (hcons : flags.consumed data.length = k) (hpos : 0 < k)
    (hmax : k ≤ maxSegment) (hroom : hi + k - una ≤ flightLimit c.state) :
    (∃ w, queueAndSend env now c flags data options = ({ c with wire := w }, false) ∧
      Flight base lo una hi { c with wire := w }) ∨
    ∃ s w, w.tries = c.wire.tries + 1 ∧
      queueAndSend env now c flags data options = ({ c with snd := s, wire := w }, true) ∧
      s.sndWnd = c.snd.sndWnd ∧ Flight base lo una (hi + k) { c with snd := s, wire := w } := by
  obtain ⟨w, hw, heq | heq⟩ := queueAndSend_cases hstep now flags data options
  · exact .inl ⟨w, heq, h.congr rfl rfl rfl le_rfl⟩
  · refine .inr ⟨_, w, hw, heq, rfl, ?_, h.sndUna, ?_, hroom⟩
    · rw [hcons, h.seqNum, seqAt_add]
    · have hle := h.front.una_le
      have hlimit := hroom.trans (flightLimit_le c.state)
      unfold maxWindow at hlimit
      have hentry : (freshEntry env now c c.snd.seqNum flags data).range =
          (seqAt base hi, seqAt base (hi + k)) := by
        rw [RetransmitEntry.range, freshEntry, hspan, h.seqNum, seqAt_add]
      rw [SendSide.ranges, List.map_append]
      exact h.front.append hentry (by omega) (by omega) (by omega)

/-- `tcp_send` keeps the tiling, segment by segment. -/
theorem tcpSendLoop_flight (env : TcpEnv) (now : UInt64) {mss : Nat} (hpos : 0 < mss) (hmax : mss ≤ maxSegment)
    (fuel sent : Nat) (data : List UInt8) (h : Flight base lo una hi c)
    (hopen : flightLimit c.state = maxWindow) (hroom : hi + data.length - una ≤ maxWindow)
    (hstep : ∀ i, i * mss < data.length → env.InStep (c.wire.tries + i)) :
    ∃ hi' s w, (tcpSendLoop env now mss fuel sent c data).1 = { c with snd := s, wire := w } ∧
      s.sndWnd = c.snd.sndWnd ∧ Flight base lo una hi' { c with snd := s, wire := w } := by
  induction fuel generalizing sent c data hi with
  | zero => exact ⟨hi, c.snd, c.wire, rfl, rfl, h⟩
  | succ fuel ih =>
    rw [tcpSendLoop]
    split
    · exact ⟨hi, c.snd, c.wire, rfl, rfl, h⟩
    · rename_i hnil
      have hlen := List.length_pos_of_ne_nil hnil
      have hspan : (TcpFlags.data (data.length ≤ mss)).spanned (data.take mss).length =
          min mss data.length := by simp [TcpFlags.spanned, TcpFlags.data]
      have hcons : (TcpFlags.data (data.length ≤ mss)).consumed (data.take mss).length =
          min mss data.length := by
        unfold TcpFlags.consumed TcpFlags.data
        rw [if_pos (by rw [List.length_take]; omega), List.length_take]
        rfl
      have hone := h.queueAndSend (hstep 0 (by omega)) now _ _ [] hspan hcons (by omega) (by omega)
        (by omega)
      have hfold : tcpSendPacket env (tcpRetransmitEnqueue env now c c.snd.seqNum
          (.data (data.length ≤ mss)) (data.take mss)) (.data (data.length ≤ mss)) (data.take mss) =
          queueAndSend env now c (.data (data.length ≤ mss)) (data.take mss) [] := rfl
      dsimp only
      rw [hfold]
      obtain ⟨w, heq, hflight⟩ | ⟨s, w, hw, heq, hwnd, hflight⟩ := hone
      · rw [heq]
        exact ⟨hi, c.snd, w, rfl, rfl, hflight⟩
      · rw [heq, if_pos rfl]
        obtain ⟨hi', s', w', hrest, hwnd', hflight'⟩ := ih
          (sent + (data.take mss).length) (data.drop mss) hflight hopen
          (by rw [List.length_drop]; omega)
          (by
            intro i hi
            rw [List.length_drop] at hi
            have := hstep (i + 1) (by rw [Nat.succ_mul]; omega)
            rwa [hw, Nat.add_assoc, Nat.add_comm 1 i])
        exact ⟨hi', s', w', hrest, hwnd'.trans hwnd, hflight'⟩

theorem PeerOptions.mss_bounds (o : PeerOptions) : 0 < o.mss.toNat ∧ o.mss.toNat ≤ maxSegment := by
  have hlt := o.remoteMss.toNat_lt
  unfold PeerOptions.mss maxSegment
  split_ifs with hzero
  · decide
  · rw [UInt16.toNat_toUInt32]
    have : o.remoteMss.toNat ≠ 0 := fun h => hzero (UInt16.toNat_inj.1 h)
    omega

theorem flightLimit_open (h : c.state = .established ∨ c.state = .closeWait) :
    flightLimit c.state = maxWindow ∧ ¬ (c.state = .listen ∨ c.state = .synReceived) := by
  obtain h | h := h <;> simp [h, flightLimit]

theorem Flight.sendLimit_le (h : Flight base lo una hi c) (hsz : Sized c) (hopen : hi - una ≤ maxWindow) :
    hi + c.snd.sendLimit.toNat - una ≤ maxWindow := by
  have hle := h.front.una_le
  have hnear := h.near
  have hflight : c.snd.inFlight.toNat = hi - una := by
    rw [SendSide.inFlight, h.seqNum, h.sndUna, toNat_seqAt_sub base hle (by omega)]
  have hroom := c.snd.inFlight_add_sendLimit_le hsz.window (hflight ▸ hopen)
  omega

theorem Kept.send (h : Kept c) (hd : c.destroyed = false) (now : UInt64) (data : List UInt8)
    (hstep : KeepsTiling env c (.send now data)) : Kept (tcpSend env now c data).1 := by
  unfold tcpSend
  split_ifs with hopen
  · intro _
    obtain ⟨hsz, hsend⟩ := h hd
    obtain ⟨hlimit, hs⟩ := flightLimit_open hopen
    obtain ⟨base, lo, una, hi, hflight⟩ := hsend.flight hs
    have hroom := hflight.sendLimit_le hsz (hlimit ▸ hflight.flight)
    obtain ⟨hi', s, w, heq, hwnd, hafter⟩ := tcpSendLoop_flight env now c.opt.mss_bounds.1
      c.opt.mss_bounds.2 (data.take c.snd.sendLimit.toNat).length 0 (data.take c.snd.sendLimit.toNat) hflight hlimit
      (by rw [List.length_take]; omega) hstep
    rw [heq]
    exact ⟨⟨hwnd ▸ hsz.window, hsz.wscale⟩, .of_flight ⟨base, lo, una, hi', hafter⟩ hs⟩
  · exact h

theorem Kept.sendFin {next : TcpState} (hsz : Sized c) (hsend : Sending c)
    (hopen : c.state = .established ∨ c.state = .closeWait) (hnext : next = .finWait1 ∨ next = .lastAck)
    (now : UInt64) (hstep : env.InStep c.wire.tries) : Kept (sendFin env now c next) := by
  intro _
  obtain ⟨hlimit, hs⟩ := flightLimit_open hopen
  obtain ⟨base, lo, una, hi, h⟩ := hsend.flight hs
  have hflight := h.flight
  have hafter : flightLimit next = maxWindow + 1 ∧ ¬ (next = .listen ∨ next = .synReceived) := by
    obtain rfl | rfl := hnext <;> simp [flightLimit]
  have hmoved : Flight base lo una hi { c with state := next } :=
    h.congr rfl rfl rfl (by rw [hlimit, hafter.1]; omega)
  show Sized (queueAndSend env now { c with state := next } .finAck [] []).1 ∧
    Sending (queueAndSend env now { c with state := next } .finAck [] []).1
  obtain ⟨w, heq, hf⟩ | ⟨s, w, -, heq, hwnd, hf⟩ := hmoved.queueAndSend hstep now .finAck [] []
    (k := 1) rfl rfl Nat.one_pos (by decide) (by dsimp only; rw [hafter.1]; omega)
  · rw [heq]
    exact ⟨⟨hsz.window, hsz.wscale⟩, .of_flight ⟨base, lo, una, hi, hf⟩ hafter.2⟩
  · rw [heq]
    exact ⟨⟨hwnd ▸ hsz.window, hsz.wscale⟩, .of_flight ⟨base, lo, una, hi + 1, hf⟩ hafter.2⟩

theorem tcpClose_kept (hsz : Sized c) (hsend : Sending c) (now : UInt64)
    (hstep : c.state = .established ∨ c.state = .closeWait → env.InStep c.wire.tries) :
    Kept (tcpClose env now c) := by
  have hsz' : ∀ own, Sized { c with own := own } := fun own => ⟨hsz.window, hsz.wscale⟩
  have hsend' : ∀ own, Sending { c with own := own } := fun own => hsend.congr rfl (.inl rfl)
  unfold tcpClose
  dsimp only
  split
  next hs =>
    refine Kept.sendFin (hsz' _) (hsend' _) ?_ (.inl rfl) now (hstep (.inl hs))
    exact .inl hs
  next hs =>
    refine Kept.sendFin (hsz' _) (hsend' _) ?_ (.inr rfl) now (hstep (.inr hs))
    exact .inr hs
  next => exact fun _ => ⟨hsz' _, hsend' _⟩
  next => exact fun hlive => nomatch hlive

end Sends

/-! ### Segments -/

section Segments

variable {env : TcpEnv} {base : UInt32} {lo una hi : Nat} {c p : TcpConnection} {now : UInt64}
  {isn : UInt32} {seg : TcpSegment}

/-- An acknowledgement takes every entry off the front that it covers. A repeated one,
which leaves the queue alone, would find none. -/
theorem tcpRetransmitAck_ranges (env : TcpEnv) (now : UInt64) (pureAck : Bool) (a : UInt32)
    (h : c.snd.ranges.dropWhile (endsBy c.snd.sndUna) = c.snd.ranges) :
    (tcpRetransmitAck env now c a pureAck).snd.ranges = c.snd.ranges.dropWhile (endsBy a) := by
  unfold tcpRetransmitAck
  split_ifs with hdup hpure
  · obtain ⟨s, w, heq, -, -, hqueue, -⟩ := duplicateAck_eq env now c
    rw [heq, hdup.2.1, h]
    exact ranges_of_content hqueue
  · rw [hdup.2.1, h]
  · obtain ⟨s, heq, -, -, hqueue⟩ := newAck_eq c a
    rw [heq]
    unfold SendSide.ranges
    rw [hqueue, List.dropWhile_map]
    rfl

theorem beforeSwitch_ranges (hack : seg.flags.ack = true)
    (h : c.snd.ranges.dropWhile (endsBy c.snd.sndUna) = c.snd.ranges) :
    (beforeSwitch env now c seg).snd.ranges = c.snd.ranges.dropWhile (endsBy seg.ackNum) := by
  have hranges := tcpRetransmitAck_ranges env now (c := updateWindow c seg)
    (isPureAck c (updateWindow c seg) seg) seg.ackNum h
  unfold beforeSwitch
  split_ifs <;> exact hranges

theorem Flight.prepare (h : Flight base lo una hi c) (env : TcpEnv) (now : UInt64) (seg : TcpSegment)
    (hacc : seg.flags.ack = true → c.snd.Acceptable seg.ackNum) :
    ∃ lo' una', Flight base lo' una' hi (beforeSwitch env now c seg) := by
  have hp := beforeSwitch_prepared env now c seg
  cases hack : seg.flags.ack with
  | false =>
    refine ⟨lo, una, h.congr hp.seqNum ?_ ?_ (by rw [hp.state])⟩
    · rw [hp.sndUna, hack]
      rfl
    · rw [SendSide.ranges, hp.queue_of_not_ack hack]
      rfl
  | true =>
    have hnear := h.near
    have hle := h.front.una_le
    have hlo := h.front.near
    have hfar := h.flight.trans (flightLimit_le c.state)
    have hacc := hacc hack
    unfold SendSide.Acceptable at hacc
    rw [h.seqNum, h.sndUna, toNat_seqAt_sub base hle (by omega)] at hacc
    have hpos := eq_seqAt_of_sub base seg.ackNum una
    generalize (seg.ackNum - seqAt base una).toNat = k at hacc hpos
    unfold maxWindow at hfar
    unfold maxSegment at hlo
    obtain ⟨lo', hfront⟩ := h.front.tiles.dropWhile
      (h.front.lo_le.trans (Nat.le_add_right una k)) (by omega) (by decide) (by omega)
    refine ⟨lo', una + k, hp.seqNum.trans h.seqNum, ?_, ?_, ?_⟩
    · rw [hp.sndUna, if_pos hack, hpos]
    · rw [beforeSwitch_ranges hack (by rw [h.sndUna]; exact h.front.dropWhile_eq), hpos]
      exact hfront
    · rw [hp.state]
      have := h.flight
      omega

theorem Sending.prepare (env : TcpEnv) (now : UInt64) (hsz : Sized c) (hsend : Sending c)
    (hk : SegmentKeepsTiling c seg) (hrst : seg.flags.rst = false) :
    Sized (beforeSwitch env now c seg) ∧ Sending (beforeSwitch env now c seg) := by
  have hp := beforeSwitch_prepared env now c seg
  refine ⟨⟨hp.sndWnd ▸ updateWindow_le c seg hsz.wscale, hp.wscale hsz.wscale⟩, ?_⟩
  by_cases hpassive : c.state = .listen ∨ c.state = .synReceived
  · -- nothing is queued yet, and an acknowledgement does not change that
    obtain ⟨dropped, kept, hq, -, hcontent⟩ := hp.queue
    rw [Sending, if_pos hpassive] at hsend
    rw [Sending, if_pos (hp.state ▸ hpassive)]
    simp_all
  · obtain ⟨base, lo, una, hi, hflight⟩ := hsend.flight hpassive
    obtain ⟨hlisten, hreceived⟩ := not_or.1 hpassive
    obtain ⟨lo', una', hf⟩ := hflight.prepare env now seg
      fun hack => (hk.ack hrst hack).2.1 hlisten hreceived
    exact .of_flight ⟨base, lo', una', hi, hf⟩ (hp.state ▸ hpassive)

theorem Emitted.sending (hem : Emitted 0 c p) (hq : p.snd.queue = c.snd.queue) (hsz : Sized c)
    (hsend : Sending c) : Sized p ∧ Sending p := by
  obtain ⟨added, w, rfl, -⟩ := hem
  obtain rfl : added = [] := by simpa using hq
  refine ⟨⟨hsz.window, hsz.wscale⟩, hsend.congr ?_ (.inl rfl)⟩
  simp

theorem Flight.flushed (h : c.snd.sndUna = c.snd.seqNum) (hsnd : p.snd = { c.snd with queue := [] }) :
    ∃ base lo una hi, Flight base lo una hi p :=
  ⟨_, _, _, _, .idle (by rw [hsnd]; exact h) (by rw [hsnd])⟩

/-- Every state's handler keeps the tiling, of a connection whose window and
acknowledgement have been taken. -/
theorem SegmentStep.sending {c' : TcpConnection} (h : SegmentStep isn seg p c') (hsz : Sized p) (hsend : Sending p)
    (huna : seg.flags.ack = true → p.snd.sndUna = seg.ackNum)
    (hall : seg.flags.ack = true → p.state = .synReceived ∨ Flushes p seg → p.snd.sndUna = p.snd.seqNum)
    (hhalf : p.state = .established → seg.flags.fin = true → p.own.halfClose = true) :
    Sized c' ∧ Sending c' := by
  cases h with
  | ignored => exact ⟨hsz, hsend⟩
  | syn hs hsyn hk hem hq =>
    rw [Sending, if_pos (.inl hs)] at hsend
    refine ⟨⟨hem.sndWnd ▸ hsz.window, hem.opt ▸ p.opt.agree_wscale hsz.wscale⟩, ?_⟩
    rw [Sending, if_pos (.inr hem.state), hq, hsend]
  | synAck hs hack s w hsame huna' hqueue hext =>
    obtain ⟨base, lo, una, hi, hf⟩ := hsend.flight (by simp [hs])
    have hflight := hf.flight
    rw [hs] at hflight
    refine ⟨⟨hsame.sndWnd ▸ hsz.window, p.opt.agree_wscale hsz.wscale⟩,
      .of_flight ⟨base, lo, una, hi, hsame.seqNum.trans hf.seqNum, ?_, ?_, ?_⟩ (by simp [establish])⟩
    · exact huna'.trans ((huna hack).symm.trans hf.sndUna)
    · -- the SYN-ACK is looked at a second time and finds nothing more to take off
      obtain ⟨dropped, kept, hq, hcovered, hcontent⟩ := hqueue
      cases dropped with
      | nil =>
        have hranges : s.ranges = p.snd.ranges := ranges_of_content (hq ▸ hcontent)
        exact hranges ▸ hf.front
      | cons e dropped =>
        have hfirst := hf.front.first e.range (by rw [SendSide.ranges, hq]; rfl)
        rw [← hf.sndUna, huna hack] at hfirst
        exact absurd (hcovered e List.mem_cons_self) (Bool.eq_false_iff.1 hfirst)
    · dsimp only [establish, flightLimit, maxWindow] at hflight ⊢
      omega
  | synAgain => exact ⟨⟨hsz.window, hsz.wscale⟩, hsend.congr rfl (.inl rfl)⟩
  | opened hs hack =>
    -- the acknowledgement is of the SYN-ACK: nothing is under way
    rw [Sending, if_pos (.inr hs)] at hsend
    exact ⟨⟨hsz.window, hsz.wscale⟩,
      .of_flight ⟨_, _, _, _, .idle (hall hack (.inl hs)) hsend⟩ (by simp [establish])⟩
  | text hs hem hq | textInOrder hs hem hq =>
    refine hem.sending hq ⟨hsz.window, hsz.wscale⟩ ?_
    exact hsend.congr rfl (.inl rfl)
  | fin hs hfin hend hnext hst hem hq =>
    obtain ⟨rfl, rfl⟩ | ⟨-, -, hfull⟩ := hst
    · refine hem.sending hq ⟨hsz.window, hsz.wscale⟩ ?_
      exact hsend.congr rfl (.inr ⟨by simp [hs], by simp, by simp [hs, flightLimit]⟩)
    · rw [hhalf hs hfin] at hfull
      cases hfull
  | @finInOrder _ d st hs hgo hfin hst hem hd hq =>
    have hlater : ¬ (st = .listen ∨ st = .synReceived) ∧ flightLimit p.state ≤ flightLimit st := by
      rw [hs]
      obtain rfl | rfl := hst <;> simp [flightLimit]
    have hmoved : Sending { p with
        state := st, rcv := (takeTextInOrder p.rcv seg).1.takeFin
          (seg.seqNum + UInt32.ofNat seg.payload.length) } :=
      hsend.congr rfl (.inr ⟨by simp [hs], hlater⟩)
    obtain ⟨hszd, hsendd⟩ := hem.sending hq ⟨hsz.window, hsz.wscale⟩ hmoved
    obtain rfl | ⟨hack, hflush⟩ := hd
    · exact ⟨hszd, hsendd⟩
    · have hdone : d.snd.sndUna = d.snd.seqNum := by
        rw [hem.sndUna, hem.seqNum]
        exact (hall hack (.inr (.inr ⟨hs, hfin, hgo⟩))).trans (UInt32.add_zero _).symm
      have hopen : ¬ (d.state = .listen ∨ d.state = .synReceived) := by
        rw [hem.state]
        exact hlater.1
      obtain rfl | rfl := hflush <;>
        exact ⟨⟨hszd.window, hszd.wscale⟩, .of_flight (Flight.flushed hdone rfl) hopen⟩
  | closed hs hack heq =>
    have hdone := hall hack (.inr (.inl hs))
    obtain rfl | rfl := heq <;>
      exact ⟨⟨hsz.window, hsz.wscale⟩, .of_flight (Flight.flushed hdone rfl) (by rintro (h | h) <;> cases h)⟩

end Segments

/-! ### Runs -/

section Runs

variable {env : TcpEnv} {c : TcpConnection}

theorem step_kept (e : Event) (hk : KeepsTiling env c e) (h : Kept c) : Kept (step env c e) := by
  cases hd : c.destroyed with
  | true =>
    rw [step_destroyed env hd]
    exact h
  | false =>
    obtain ⟨hsz, hsend⟩ := h hd
    -- a call that leaves the sending half alone
    have hsame : ∀ d : TcpConnection, d.snd = c.snd → d.state = c.state → d.opt = c.opt → Kept d :=
      fun d hsnd hst hopt _ =>
        ⟨hsz.congr (by rw [hsnd]) (by rw [hopt]), hsend.congr hsnd (.inl hst)⟩
    have hdead : ∀ d : TcpConnection, Kept (tcpDestroyConnection d) := fun d hlive => nomatch hlive
    unfold step
    rw [if_neg (by simp [hd])]
    cases e with
    | segment now isn seg =>
      have hk : SegmentKeepsTiling c seg := hk
      intro _
      dsimp only
      cases hrst : seg.flags.rst with
      | true =>
        rw [tcpHandlePacketIn, if_pos hrst]
        obtain heq | heq := handleRst_cases { c with lastActivity := now } <;> rw [heq] <;>
          exact ⟨⟨hsz.window, hsz.wscale⟩, .of_flight (Flight.flushed (c := c) (hk.rst hrst) rfl) nofun⟩
      | false =>
        rw [tcpHandlePacketIn, if_neg (by simp [hrst])]
        have hp := beforeSwitch_prepared env now { c with lastActivity := now } seg
        obtain ⟨hszp, hsendp⟩ := Sending.prepare (c := { c with lastActivity := now }) env now
          ⟨hsz.window, hsz.wscale⟩ (hsend.congr rfl (.inl rfl)) ⟨hk.rst, hk.ack, hk.fin⟩ hrst
        generalize beforeSwitch env now { c with lastActivity := now } seg = p at hp hszp hsendp
        have huna : seg.flags.ack = true → p.snd.sndUna = seg.ackNum := fun hack =>
          hp.sndUna.trans (if_pos hack)
        refine (switchState_step env now isn p seg).sending hszp hsendp huna (fun hack hs => ?_) ?_
        · rw [huna hack, hp.seqNum]
          rw [Flushes, hp.state, hp.rcv] at hs
          exact hs.elim (hk.ack hrst hack).1 (hk.ack hrst hack).2.2
        · rw [hp.state, hp.own]
          exact hk.fin
    | send now data => exact h.send hd now data hk
    | read len =>
      refine fun _ => (tcpConnRead_emits env c len).sending ?_ ⟨hsz.window, hsz.wscale⟩ (hsend.congr rfl (.inl rfl))
      unfold tcpConnRead tcpRxWindowUpdate
      dsimp only
      split_ifs
      · rfl
      · exact sendAck_queue env _
      · rfl
    | close now => exact tcpClose_kept hsz hsend now hk
    | shutdownWr now =>
      dsimp only [tcpSocketShutdownWr]
      split
      next hs => exact Kept.sendFin hsz hsend (.inl hs) (.inl rfl) now (hk (.inl hs))
      next hs => exact Kept.sendFin hsz hsend (.inr hs) (.inr rfl) now (hk (.inr hs))
      next => exact h
    | accept =>
      obtain ⟨own, heq⟩ := tcpSocketAccept_eq c
      rw [heq]
      exact hsame _ rfl rfl rfl
    | listen => exact hsame _ rfl (show TcpState.listen = c.state from hk.symm) rfl
    | tick now =>
      dsimp only
      obtain ⟨st, s, w, heq, hnum, huna, -, ⟨rfl, hq⟩ | ⟨-, -, hex⟩⟩ := tcpRetransmitCheck_eq env now c
      · rw [heq]
        refine fun _ => ⟨⟨hnum.sndWnd ▸ hsz.window, hsz.wscale⟩, ?_⟩
        unfold Sending at hsend ⊢
        split_ifs at hsend ⊢
        · simpa [hsend] using hq
        · obtain ⟨base, lo, una, hi, hf⟩ := hsend
          exact ⟨base, lo, una, hi, hf.congr hnum.seqNum huna (ranges_of_content hq) le_rfl⟩
      · exact absurd hex hk
    | cleanup now =>
      dsimp only [tcpCleanupStale]
      split_ifs
      · exact hdead _
      · exact h
    | listenerClosed =>
      dsimp only [dropUnaccepted]
      split_ifs
      · exact hdead _
      · exact h

/-- A new connection: the SYN is under way and queued, or nothing is. -/
theorem Opened.kept (h : Opened env c) (hentry : env.entry 0 = true) : Kept c := by
  have hwindow : (UInt32.ofNat tcpDefaultBufferSize).toNat ≤ maxWindow := by decide
  cases h with
  | incoming now socket =>
    refine fun _ => ⟨⟨hwindow, Nat.zero_le _⟩, ?_⟩
    rfl
  | connect now isn socket =>
    cases hpacket : env.packet 0 && env.ip 0 with
    | false =>
      -- the SYN does not go out and the connection is given up
      have hfails : ∀ (d : TcpConnection) (o : List UInt8), d.wire.tries = 0 →
          (tcpSendPacketWithOptions env d .onlySyn [] o).2 = false := by
        intro d o hd
        unfold tcpSendPacketWithOptions
        simp only [hd]
        split_ifs <;> simp_all
      intro hlive
      unfold tcpConnect at hlive
      dsimp only at hlive
      rw [hfails _ _ ?_] at hlive
      · cases hlive
      · unfold tcpRetransmitEnqueue
        split_ifs <;> rfl
    | true =>
      have hidle : Flight isn 0 0 0 (connecting now isn) :=
        .idle (c := connecting now isn) rfl rfl
      have hstep : env.InStep (connecting now isn).wire.tries := hentry.trans hpacket.symm
      obtain ⟨o, hconnect⟩ : ∃ o, tcpConnect env now isn socket =
          let r := queueAndSend env now (connecting now isn) .onlySyn [] o
          if r.2 then { r.1 with own := { r.1.own with owned := socket, halfClose := socket } }
          else tcpDestroyConnection r.1 := ⟨_, rfl⟩
      rw [hconnect]
      have hroom : 0 + 1 - 0 ≤ flightLimit .synSent := le_rfl
      obtain ⟨w, heq, -⟩ | ⟨s, w, -, heq, hwnd, hf⟩ := hidle.queueAndSend hstep now .onlySyn [] o
        (k := 1) rfl rfl Nat.one_pos (by decide) hroom
      · rw [heq]
        exact fun hlive => nomatch hlive
      · rw [heq]
        refine fun _ => ⟨⟨?_, Nat.zero_le _⟩, .of_flight ⟨isn, 0, 0, 0 + 1, ?_⟩ nofun⟩
        · exact hwnd.symm ▸ hwindow
        · exact hf.congr rfl rfl rfl le_rfl

end Runs

/-- **In every run whose steps meet the condition, of a connection whose SYN, if it is ours,
could be queued, the retransmission queue tiles the numbers from `snd_una`, rounded down to
a segment, to `seq_num` at every moment, until the connection is destroyed.** The one
exception is the passive side before its SYN-ACK, which is not queued, is acknowledged. -/
theorem queue_tiles (env : TcpEnv) (c : TcpConnection) (es : List Event) (hc : Opened env c)
    (hentry : env.entry 0 = true) (hes : Admissible env (KeepsTiling env) c es)
    (hlive : (run env c es).destroyed = false)
    (hopen : ¬ ((run env c es).state = .listen ∨ (run env c es).state = .synReceived)) :
    (run env c es).snd.Tiled := by
  have hkept := hes.keeps Kept (fun c e => step_kept e) (hc.kept hentry)
  obtain ⟨base, lo, una, hi, hflight⟩ := (hkept hlive).2.flight hopen
  exact hflight.tiled

/-- A byte and our FIN under way, of which the byte is acknowledged. -/
theorem queue_tiles_half_closed : (run .reliable (tcpConnect .reliable 0 1000 true)
    (halfClosed ++ [.segment 8 0 (peerSegment .onlyAck 1002)])).snd.Tiled := by
  refine queue_tiles .reliable _ _ (.connect 0 1000 true) rfl ⟨?_, ?_, ?_, ?_, trivial⟩
    (by decide +kernel) (by decide +kernel)
  · exact ⟨by decide +kernel, by decide +kernel, by decide +kernel⟩
  · exact fun _ _ => rfl
  · exact fun _ => rfl
  · exact ⟨by decide +kernel, by decide +kernel, by decide +kernel⟩

/-- The third transmission, the first one of text, fails. -/
def dropsFirstText : TcpEnv := { TcpEnv.reliable with ip := fun n => n != 2 }

/-- A byte that could not be sent stays queued under the number that the next byte gets, so
number 1001 is queued twice. -/
theorem queue_repeats_numbers :
    (run dropsFirstText (tcpConnect dropsFirstText 0 1000 true)
        [.segment 5 0 peerSynAck, .send 6 [65], .send 7 [66]]).snd.ranges = [(1001, 1002), (1001, 1002)] ∧
      ¬ (run dropsFirstText (tcpConnect dropsFirstText 0 1000 true)
        [.segment 5 0 peerSynAck, .send 6 [65], .send 7 [66]]).snd.Tiled := by
  have hranges : (run dropsFirstText (tcpConnect dropsFirstText 0 1000 true)
      [.segment 5 0 peerSynAck, .send 6 [65], .send 7 [66]]).snd.ranges = [(1001, 1002), (1001, 1002)] := by
    decide +kernel
  refine ⟨hranges, ?_⟩
  rintro ⟨⟨-, -, hnext, -⟩, -⟩
  exact absurd hnext (by decide)

end InDevOS.Net.Tcp
