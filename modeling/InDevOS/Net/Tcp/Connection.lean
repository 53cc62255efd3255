import Mathlib
import InDevOS.Lib.Ring
import InDevOS.Lib.Seq32

/-! A TCP connection of `net_tcp.c`: its record, the packets it sends and its
retransmission queue.

The fields of `tcp_connection_t` are grouped by the half of the connection they belong to:
what we send (`SendSide`), what the peer sends (`RecvSide`), what the SYN options agreed on
(`PeerOptions`) and who holds the connection (`Ownership`). `Wire` holds the segments given
to the IP layer. The outcome of every allocation and of every `ip_send_packet` is chosen by
a `TcpEnv`, indexed by the number of transmissions tried so far. -/
namespace InDevOS.Net.Tcp

open InDevOS.Lib

/-! ### Segments -/

/-- `tcp_state_t`. -/
inductive TcpState
  | closed
  | listen
  | synSent
  | synReceived
  | established
  | finWait1
  | finWait2
  | closeWait
  | closing
  | lastAck
  | timeWait
  deriving DecidableEq, Repr

/-- The control bits the code looks at. -/
structure TcpFlags where
  fin : Bool
  syn : Bool
  rst : Bool
  psh : Bool
  ack : Bool
  deriving DecidableEq, Repr

namespace TcpFlags

def onlySyn : TcpFlags := ⟨false, true, false, false, false⟩

def onlyAck : TcpFlags := ⟨false, false, false, false, true⟩

def synAck : TcpFlags := ⟨false, true, false, false, true⟩

def finAck : TcpFlags := ⟨true, false, false, false, true⟩

/-- The flags of a data segment; the last one of a `tcp_send` is pushed. -/
def data (push : Bool) : TcpFlags := ⟨false, false, false, push, true⟩

end TcpFlags

/-- A segment in host byte order: the header fields the state machine reads, the option
bytes and the text. -/
structure TcpSegment where
  seqNum : UInt32
  ackNum : UInt32
  flags : TcpFlags
  window : UInt16
  options : List UInt8
  payload : List UInt8
  deriving DecidableEq, Repr

/-- `tcp_retransmit_entry_t`. -/
structure RetransmitEntry where
  seqStart : UInt32
  seqEnd : UInt32
  data : List UInt8
  flags : TcpFlags
  sentAt : UInt64
  rtoMs : Nat
  retries : UInt8
  deriving DecidableEq, Repr

def tcpRecvBufferSize : Nat := 131072
def tcpRcvWscale : Nat := 2
def tcpOooMax : Nat := 8
def tcpDefaultBufferSize : Nat := 4096
def tcpDefaultMss : UInt16 := 536
def tcpMaxMss : UInt16 := 1460
def tcpRtoMinMs : Nat := 1000
def tcpRtoMaxMs : Nat := 64000
def tcpMaxRetries : UInt8 := 8
def tcpTimeWaitTimeout : UInt64 := 60000
def tcpStaleConnTimeout : UInt64 := 120000

/-! ### The connection record -/

/-- Sequence numbers, congestion control and the retransmission queue, oldest entry first. -/
structure SendSide where
  seqNum : UInt32
  initialSeq : UInt32
  sndUna : UInt32
  sndWnd : UInt32
  cwnd : UInt32
  ssthresh : UInt32
  dupAckCount : UInt32
  lastAckNum : UInt32
  inFastRecovery : Bool
  rtoMs : Nat
  queue : List RetransmitEntry

/-- The next expected number, the receive ring and the out-of-order ranges held in it.
The last three fields are history, read by no code: all bytes handed to readers, the
peer's initial sequence number, and the number of its FIN once that is acknowledged. -/
structure RecvSide where
  ackNum : UInt32
  buffer : Nat → UInt8
  head : Nat
  used : Nat
  ooo : List (UInt32 × UInt32)
  delivered : List UInt8
  irs : UInt32
  fin : Option UInt32

/-- Segment sizes and window scaling. -/
structure PeerOptions where
  localMss : UInt16
  remoteMss : UInt16
  wsPeer : Bool
  wsOk : Bool
  rcvWscale : Nat
  sndWscale : Nat

/-- Who holds the connection. `dataCallback` says whether one is installed. -/
structure Ownership where
  owned : Bool
  halfClose : Bool
  accepted : Bool
  userChild : Bool
  disowned : Bool
  dataCallback : Bool

/-- Transmissions tried, the window last advertised, and what the IP layer took. -/
structure Wire where
  tries : Nat
  lastWndAdv : Nat
  sent : List TcpSegment

/-- `tcp_connection_t`. A destroyed connection has left the connection list. -/
structure TcpConnection where
  state : TcpState
  connected : Bool
  snd : SendSide
  rcv : RecvSide
  opt : PeerOptions
  own : Ownership
  wire : Wire
  lastActivity : UInt64
  destroyed : Bool

/-- Outcomes of the environment at the `n`-th transmission: allocation of the packet
buffer, `ip_send_packet`, and the two allocations of `tcp_retransmit_enqueue` before it. -/
structure TcpEnv where
  packet : Nat → Bool
  ip : Nat → Bool
  entry : Nat → Bool
  copy : Nat → Bool

/-- Every allocation and every transmission succeeds. -/
def TcpEnv.reliable : TcpEnv := ⟨fun _ => true, fun _ => true, fun _ => true, fun _ => true⟩

/-- `tcp_create_connection`. -/
def tcpCreateConnection (now : UInt64) : TcpConnection where
  state := .closed
  connected := false
  snd :=
    { seqNum := 0, initialSeq := 0, sndUna := 0, sndWnd := UInt32.ofNat tcpDefaultBufferSize
      cwnd := tcpMaxMss.toUInt32, ssthresh := 65535, dupAckCount := 0, lastAckNum := 0
      inFastRecovery := false, rtoMs := tcpRtoMinMs, queue := [] }
  rcv :=
    { ackNum := 0, buffer := fun _ => 0, head := 0, used := 0, ooo := []
      delivered := [], irs := 0, fin := none }
  opt :=
    { localMss := tcpMaxMss, remoteMss := tcpDefaultMss, wsPeer := false, wsOk := false
      rcvWscale := 0, sndWscale := 0 }
  own :=
    { owned := false, halfClose := false, accepted := false, userChild := false
      disowned := false, dataCallback := false }
  wire := { tries := 0, lastWndAdv := 0, sent := [] }
  lastActivity := now
  destroyed := false

section
variable (o : PeerOptions)

/-- The segment size towards the peer. -/
def PeerOptions.mss : UInt32 :=
  (if o.remoteMss = 0 then tcpDefaultMss else o.remoteMss).toUInt32

/-! ### Options -/

/-- One option of `tcp_parse_options`: maximum segment size, or window scale capped at 14. -/
def PeerOptions.take (kind len : UInt8) (body : List UInt8) : PeerOptions :=
  if kind = 2 ∧ len = 4 then
    let mss := ((body.getD 0 0).toUInt16 <<< 8) ||| (body.getD 1 0).toUInt16
    if mss = 0 then o else { o with remoteMss := mss }
  else if kind = 3 ∧ len = 3 then
    { o with wsPeer := true, sndWscale := min (body.getD 0 0).toNat 14 }
  else o

/-- The loop of `tcp_parse_options`; every pass consumes at least one byte. -/
def tcpParseOptionsLoop : (fuel : Nat) → PeerOptions → List UInt8 → PeerOptions
  | 0, o, _ => o
  | _ + 1, o, [] => o
  | fuel + 1, o, kind :: rest =>
    if kind = 0 then o
    else if kind = 1 then tcpParseOptionsLoop fuel o rest
    else
      match rest with
      | [] => o
      | len :: body =>
        if len.toNat < 2 ∨ body.length + 2 < len.toNat then o
        else tcpParseOptionsLoop fuel (o.take kind len body) (body.drop (len.toNat - 2))

/-- `tcp_parse_options`. -/
def tcpParseOptions (opts : List UInt8) : PeerOptions :=
  tcpParseOptionsLoop opts.length o opts

/-- `tcp_syn_options`. -/
def tcpSynOptions (synAck : Bool) : List UInt8 :=
  let mss := if o.localMss = 0 then tcpDefaultMss else o.localMss
  let base : List UInt8 := [2, 4, (mss >>> 8).toUInt8, mss.toUInt8]
  if synAck && !o.wsPeer then base else base ++ [1, 3, 3, UInt8.ofNat tcpRcvWscale]

/-- Scaling is on when the peer's SYN or SYN-ACK carried the option. -/
def PeerOptions.agree : PeerOptions :=
  { o with
    wsOk := o.wsPeer
    rcvWscale := if o.wsPeer then tcpRcvWscale else 0
    sndWscale := if o.wsPeer then o.sndWscale else 0 }

end

/-! ### Sending -/

/-- Sequence units `tcp_send_packet_with_options` counts for a segment it has sent. -/
def TcpFlags.consumed (flags : TcpFlags) (len : Nat) : Nat :=
  if 0 < len then (if flags.syn then len + 1 else len)
  else if flags.syn then 1
  else if flags.fin then 1
  else 0

section
variable (c : TcpConnection) (flags : TcpFlags)

/-- The window field of an outgoing segment; a SYN is never scaled. -/
def TcpConnection.windowField : Nat :=
  let avail := tcpRecvBufferSize - c.rcv.used
  if flags.syn then min avail 0xFFFF
  else min (avail >>> (if c.opt.wsOk then c.opt.rcvWscale else 0)) 0xFFFF

/-- The window that field stands for. -/
def TcpConnection.windowAdvertised : Nat :=
  if flags.syn then c.windowField flags
  else c.windowField flags <<< (if c.opt.wsOk then c.opt.rcvWscale else 0)

/-- The header with its options, padded to whole words. -/
def headerSize (options : List UInt8) : Nat := (20 + options.length + 3) / 4 * 4

/-- What leaves with the segment: `ip_send_packet` takes the length as a 16-bit number. -/
def TcpSegment.carried (s : TcpSegment) : List TcpSegment :=
  let size := (headerSize s.options + s.payload.length) % 65536
  if size < headerSize s.options then []
  else [{ s with payload := s.payload.take (size - headerSize s.options) }]

/-- The segment `tcp_send_packet_with_options` builds. -/
def TcpConnection.segment (data options : List UInt8) :
    TcpSegment where
  seqNum := c.snd.seqNum
  ackNum := c.rcv.ackNum
  flags := flags
  window := UInt16.ofNat (c.windowField flags)
  options := options
  payload := data

end

section
variable (env : TcpEnv) (c : TcpConnection)

/-- `tcp_send_packet_with_options`: the connection after it and whether it returned 0. -/
def tcpSendPacketWithOptions (flags : TcpFlags)
    (data options : List UInt8) : TcpConnection × Bool :=
  let n := c.wire.tries
  if env.packet n then
    let adv := c.windowAdvertised flags
    if env.ip n then
      ({ c with
          snd.seqNum := c.snd.seqNum + UInt32.ofNat (flags.consumed data.length)
          wire := ⟨n + 1, adv, c.wire.sent ++ (c.segment flags data options).carried⟩ }, true)
    else ({ c with wire := ⟨n + 1, adv, c.wire.sent⟩ }, false)
  else ({ c with wire.tries := n + 1 }, false)

/-- `tcp_send_packet`. -/
def tcpSendPacket (flags : TcpFlags) (data : List UInt8) :
    TcpConnection × Bool :=
  tcpSendPacketWithOptions env c flags data []

/-- A bare acknowledgement. -/
def sendAck : TcpConnection :=
  (tcpSendPacket env c .onlyAck []).1

/-- Send at an earlier number; `seq_num` is saved and put back. -/
def sendAt (seq : UInt32) (flags : TcpFlags)
    (data options : List UInt8) : TcpConnection :=
  let r := (tcpSendPacketWithOptions env { c with snd.seqNum := seq } flags data options).1
  { r with snd.seqNum := c.snd.seqNum }

end

/-- Sequence numbers a segment takes up. -/
def TcpSegment.units (s : TcpSegment) : Nat := s.flags.consumed s.payload.length

/-- How far the numbers sent reach after more segments, if they reached `n`: a segment that
starts there is new, any other repeats something. -/
def sentFrom (base : UInt32) (n : Nat) (segs : List TcpSegment) : Nat :=
  segs.foldl (fun n s => if s.seqNum = Seq32.seqAt base n then n + s.units else n) n

/-- Segments have gone out that extend the numbers sent by `k`. -/
def Wire.Extends (seqNum : UInt32) (k : Nat) (w w' : Wire) : Prop :=
  ∃ segs, w'.sent = w.sent ++ segs ∧
    ∀ base n, seqNum = Seq32.seqAt base n → sentFrom base n segs = n + k

/-- Segments have gone out that start where some entry of the queue does. -/
def Wire.Repeats (starts : List UInt32) (w w' : Wire) : Prop :=
  ∃ segs, w'.sent = w.sent ++ segs ∧ ∀ s ∈ segs, s.seqNum ∈ starts

namespace Wire

variable {seqNum : UInt32} {k l : Nat} {starts starts' : List UInt32} {w w' w'' : Wire}

theorem Extends.of_sent (h : w'.sent = w.sent) : w.Extends seqNum 0 w' :=
  ⟨[], by simp [h], fun _ _ _ => rfl⟩

theorem Extends.trans (h : w.Extends seqNum k w')
    (h' : w'.Extends (seqNum + UInt32.ofNat k) l w'') : w.Extends seqNum (k + l) w'' := by
  obtain ⟨segs, hw, hk⟩ := h
  obtain ⟨segs', hw', hl⟩ := h'
  refine ⟨segs ++ segs', by rw [hw', hw, List.append_assoc], ?_⟩
  intro base n hn
  have hfirst := hk base n hn
  have hsecond := hl base (n + k) (by rw [hn, Seq32.seqAt_add])
  unfold sentFrom at *
  rw [List.foldl_append, hfirst, hsecond, Nat.add_assoc]

theorem Repeats.of_sent (h : w'.sent = w.sent) : w.Repeats starts w' := ⟨[], by simp [h], by simp⟩

theorem Repeats.trans (h : w.Repeats starts w') (h' : w'.Repeats starts w'') : w.Repeats starts w'' := by
  obtain ⟨segs, hw, hs⟩ := h
  obtain ⟨segs', hw', hs'⟩ := h'
  refine ⟨segs ++ segs', by rw [hw', hw, List.append_assoc], ?_⟩
  intro s hmem
  exact (List.mem_append.1 hmem).elim (hs s) (hs' s)

theorem Repeats.mono (h : w.Repeats starts w') (hsub : starts ⊆ starts') : w.Repeats starts' w' := by
  obtain ⟨segs, hw, hs⟩ := h
  exact ⟨segs, hw, fun s hmem => hsub (hs s hmem)⟩

theorem Repeats.extends (h : w.Repeats starts w') (hne : seqNum ∉ starts) : w.Extends seqNum 0 w' := by
  obtain ⟨segs, hw, hs⟩ := h
  refine ⟨segs, hw, ?_⟩
  rintro base n rfl
  clear hw
  induction segs with
  | nil => rfl
  | cons s segs ih =>
    have hstart : s.seqNum ≠ Seq32.seqAt base n := by
      intro heq
      exact hne (heq ▸ hs s List.mem_cons_self)
    unfold sentFrom at ih ⊢
    rw [List.foldl_cons, if_neg hstart]
    exact ih fun s hmem => hs s (List.mem_cons_of_mem _ hmem)

end Wire

section Sending

variable (env : TcpEnv) (c : TcpConnection) (flags : TcpFlags) (data options : List UInt8)
  (seq : UInt32)

/-- Sequence numbers a call to send has used up: none unless it succeeds. -/
def unitsSent : Nat :=
  if (tcpSendPacketWithOptions env c flags data options).2 then flags.consumed data.length else 0

theorem TcpSegment.carried_eq {s : TcpSegment} (h : headerSize s.options + s.payload.length < 65536) :
    s.carried = [s] := by
  simp [TcpSegment.carried, Nat.mod_eq_of_lt h]

theorem TcpSegment.seqNum_of_carried {s s' : TcpSegment} (h : s' ∈ s.carried) : s'.seqNum = s.seqNum := by
  unfold TcpSegment.carried at h
  dsimp only at h
  split_ifs at h
  · cases h
  · rw [List.mem_singleton.1 h]

/-- Sending touches `seq_num` and the wire only, and keeps them in step if the packet is not
too long. -/
theorem tcpSendPacketWithOptions_eq : ∃ w,
    (tcpSendPacketWithOptions env c flags data options).1 =
      { c with
        snd.seqNum := c.snd.seqNum + UInt32.ofNat (unitsSent env c flags data options), wire := w } ∧
      (headerSize options + data.length < 65536 →
        c.wire.Extends c.snd.seqNum (unitsSent env c flags data options) w) := by
  refine ⟨(tcpSendPacketWithOptions env c flags data options).1.wire, ?_⟩
  by_cases hpacket : env.packet c.wire.tries
  · by_cases hip : env.ip c.wire.tries
    · refine ⟨by simp [unitsSent, tcpSendPacketWithOptions, hpacket, hip], fun hsize =>
        ⟨[c.segment flags data options], ?_, ?_⟩⟩
      · have hwhole : (c.segment flags data options).carried = _ := TcpSegment.carried_eq hsize
        simp [tcpSendPacketWithOptions, hpacket, hip, hwhole]
      intro base n hn
      simp [sentFrom, unitsSent, tcpSendPacketWithOptions, hpacket, hip, TcpConnection.segment, hn,
        TcpSegment.units]
    · have hunits : unitsSent env c flags data options = 0 := by
        simp [unitsSent, tcpSendPacketWithOptions, hpacket, hip]
      exact ⟨by simp [hunits, tcpSendPacketWithOptions, hpacket, hip],
        fun _ => hunits ▸ .of_sent (by simp [tcpSendPacketWithOptions, hpacket, hip])⟩
  · have hunits : unitsSent env c flags data options = 0 := by
      simp [unitsSent, tcpSendPacketWithOptions, hpacket]
    exact ⟨by simp [hunits, tcpSendPacketWithOptions, hpacket],
      fun _ => hunits ▸ .of_sent (by simp [tcpSendPacketWithOptions, hpacket])⟩

theorem sendAck_eq : ∃ w, sendAck env c = { c with wire := w } ∧ c.wire.Extends c.snd.seqNum 0 w := by
  obtain ⟨w, hw, hext⟩ := tcpSendPacketWithOptions_eq env c .onlyAck [] []
  have hunits : unitsSent env c .onlyAck [] [] = 0 := by
    unfold unitsSent
    split_ifs <;> rfl
  rw [hunits] at hw hext
  refine ⟨w, ?_, hext (by decide)⟩
  rw [sendAck, tcpSendPacket, hw]
  simp

theorem sendAt_eq : ∃ w, sendAt env c seq flags data options = { c with wire := w } ∧
    c.wire.Repeats [seq] w := by
  refine ⟨(tcpSendPacketWithOptions env { c with snd.seqNum := seq } flags data options).1.wire, ?_, ?_⟩
  · obtain ⟨w, hw, -⟩ := tcpSendPacketWithOptions_eq env { c with snd.seqNum := seq } flags data options
    rw [sendAt, hw]
  · by_cases hpacket : env.packet c.wire.tries
    · by_cases hip : env.ip c.wire.tries
      · refine ⟨(TcpConnection.segment { c with snd.seqNum := seq } flags data options).carried,
          by simp [tcpSendPacketWithOptions, hpacket, hip], fun s hs => ?_⟩
        simp [TcpSegment.seqNum_of_carried hs, TcpConnection.segment]
      · exact .of_sent (by simp [tcpSendPacketWithOptions, hpacket, hip])
    · exact .of_sent (by simp [tcpSendPacketWithOptions, hpacket])

end Sending

/-! ### The retransmission queue -/

/-- Numbers an entry spans: its data, SYN and FIN. -/
def TcpFlags.spanned (flags : TcpFlags) (len : Nat) : Nat :=
  len + (if flags.syn then 1 else 0) + (if flags.fin then 1 else 0)

/-- The entry of `tcp_retransmit_enqueue`. If its copy of the data cannot be allocated, it
has none. -/
def freshEntry (env : TcpEnv) (now : UInt64) (c : TcpConnection) (seq : UInt32) (flags : TcpFlags)
    (data : List UInt8) : RetransmitEntry where
  seqStart := seq
  seqEnd := seq + UInt32.ofNat (flags.spanned data.length)
  data := if env.copy c.wire.tries then data else []
  flags := flags
  sentAt := now
  rtoMs := c.snd.rtoMs
  retries := 0

section
variable (env : TcpEnv) (now : UInt64) (c : TcpConnection)

/-- `tcp_retransmit_enqueue`. An entry that cannot be allocated is not queued. -/
def tcpRetransmitEnqueue (seq : UInt32)
    (flags : TcpFlags) (data : List UInt8) : TcpConnection :=
  if env.entry c.wire.tries then
    { c with snd.queue := c.snd.queue ++ [freshEntry env now c seq flags data] }
  else c

/-- `tcp_retransmit_flush`. -/
def tcpRetransmitFlush (c : TcpConnection) : TcpConnection := { c with snd.queue := [] }

/-- `tcp_destroy_connection_locked`. -/
def tcpDestroyConnection (c : TcpConnection) : TcpConnection :=
  { tcpRetransmitFlush c with destroyed := true }

/-- The test of the loop of `tcp_retransmit_ack`: the acknowledgement is not before the
entry's end. -/
def RetransmitEntry.coveredBy (ackNum : UInt32) (e : RetransmitEntry) : Bool :=
  0 ≤ Seq32.sdiff ackNum e.seqEnd

/-- What an entry keeps for the peer, apart from its timer. -/
def RetransmitEntry.content (e : RetransmitEntry) : UInt32 × UInt32 × TcpFlags × List UInt8 :=
  (e.seqStart, e.seqEnd, e.flags, e.data)

section
variable (s : SendSide)

/-- Half the congestion window, at least two segments. -/
def SendSide.halved (mss : UInt32) : UInt32 := max (s.cwnd / 2) (2 * mss)

/-- The third acknowledgement in a row starts fast recovery. -/
def SendSide.thirdDuplicate : Bool := s.dupAckCount + 1 = 3 && !s.inFastRecovery

/-- Counting a repeated acknowledgement. -/
def SendSide.countDuplicate (mss : UInt32) : SendSide :=
  if s.thirdDuplicate then
    { s with
      dupAckCount := s.dupAckCount + 1, ssthresh := s.halved mss, cwnd := s.halved mss + 3 * mss
      inFastRecovery := true }
  else if 3 < s.dupAckCount + 1 ∧ s.inFastRecovery then
    { s with dupAckCount := s.dupAckCount + 1, cwnd := s.cwnd + mss }
  else { s with dupAckCount := s.dupAckCount + 1 }

/-- The first entry has been resent. -/
def SendSide.touchFirst (now : UInt64) : SendSide :=
  { s with
    queue := match s.queue with
      | [] => []
      | first :: rest => { first with sentAt := now, retries := first.retries + 1 } :: rest }

/-- A repeated acknowledgement: the third in a row resends the first entry. -/
def duplicateAck : TcpConnection :=
  let d := { c with snd := c.snd.countDuplicate c.opt.mss }
  match c.snd.queue with
  | [] => d
  | first :: _ =>
    if c.snd.thirdDuplicate then
      let r := sendAt env d first.seqStart first.flags first.data []
      { r with snd := r.snd.touchFirst now }
    else d

/-- The congestion window once new data is acknowledged. -/
def SendSide.grow (mss : UInt32) : SendSide :=
  if s.inFastRecovery then { s with cwnd := s.ssthresh, inFastRecovery := false }
  else if s.cwnd < s.ssthresh then { s with cwnd := s.cwnd + mss }
  else { s with cwnd := s.cwnd + max (mss * mss / s.cwnd) 1 }

end

/-- A new acknowledgement: covered entries leave the front of the queue. -/
def newAck (c : TcpConnection) (ackNum : UInt32) : TcpConnection :=
  let s := { c.snd with
    queue := c.snd.queue.dropWhile (·.coveredBy ackNum)
    sndUna := ackNum, lastAckNum := ackNum, dupAckCount := 0 }
  if (c.snd.queue.head?.any (·.coveredBy ackNum)) then { c with snd := s.grow c.opt.mss }
  else { c with snd := s }

/-- `tcp_retransmit_ack`. -/
def tcpRetransmitAck (ackNum : UInt32)
    (pureAck : Bool) : TcpConnection :=
  if ackNum = c.snd.lastAckNum ∧ ackNum = c.snd.sndUna ∧ c.snd.queue ≠ [] then
    if pureAck then duplicateAck env now c else c
  else newAck c ackNum

end

section Acknowledging

variable (env : TcpEnv) (now : UInt64) (c : TcpConnection) (ackNum : UInt32) (pureAck : Bool)

/-- The fields of the sending half that acknowledgements and timers leave alone. -/
structure SendSide.SameNumbers (s s' : SendSide) : Prop where
  seqNum : s'.seqNum = s.seqNum
  initialSeq : s'.initialSeq = s.initialSeq
  sndWnd : s'.sndWnd = s.sndWnd

/-- Where an acknowledgement may resend from: the first entry, if it is the third repeat. -/
def SendSide.resendStarts (s : SendSide) (pureAck : Bool) : List UInt32 :=
  if pureAck && s.thirdDuplicate then (s.queue.take 1).map (·.seqStart) else []

/-- Only entries an acknowledgement covers have left the queue. -/
def OnlyCovered (ackNum : UInt32) (q q' : List RetransmitEntry) : Prop :=
  ∃ dropped kept, q = dropped ++ kept ∧ (∀ e ∈ dropped, e.coveredBy ackNum) ∧
    q'.map RetransmitEntry.content = kept.map RetransmitEntry.content

theorem OnlyCovered.of_content {q q' : List RetransmitEntry}
    (h : q'.map RetransmitEntry.content = q.map RetransmitEntry.content) : OnlyCovered ackNum q q' :=
  ⟨[], q, rfl, by simp, h⟩

theorem OnlyCovered.dropWhile (q : List RetransmitEntry) :
    OnlyCovered ackNum q (q.dropWhile (·.coveredBy ackNum)) := by
  refine ⟨q.takeWhile (·.coveredBy ackNum), _, List.takeWhile_append_dropWhile.symm, ?_, rfl⟩
  intro e he
  exact List.mem_takeWhile_imp he

theorem SendSide.countDuplicate_same (s : SendSide) (mss : UInt32) :
    s.SameNumbers (s.countDuplicate mss) ∧ (s.countDuplicate mss).sndUna = s.sndUna ∧
      (s.countDuplicate mss).queue = s.queue := by
  unfold SendSide.countDuplicate
  split_ifs <;> exact ⟨⟨rfl, rfl, rfl⟩, rfl, rfl⟩

theorem SendSide.touchFirst_content (s : SendSide) :
    (s.touchFirst now).queue.map RetransmitEntry.content = s.queue.map RetransmitEntry.content := by
  unfold SendSide.touchFirst
  cases s.queue <;> rfl

theorem SendSide.grow_same (s : SendSide) (mss : UInt32) :
    s.SameNumbers (s.grow mss) ∧ (s.grow mss).sndUna = s.sndUna ∧ (s.grow mss).queue = s.queue := by
  unfold SendSide.grow
  split_ifs <;> exact ⟨⟨rfl, rfl, rfl⟩, rfl, rfl⟩

theorem duplicateAck_eq : ∃ s w, duplicateAck env now c = { c with snd := s, wire := w } ∧
    c.snd.SameNumbers s ∧ s.sndUna = c.snd.sndUna ∧
    s.queue.map RetransmitEntry.content = c.snd.queue.map RetransmitEntry.content ∧
    c.wire.Repeats (c.snd.resendStarts true) w := by
  obtain ⟨hsame, huna, hqueue⟩ := c.snd.countDuplicate_same c.opt.mss
  unfold duplicateAck
  cases hq : c.snd.queue with
  | nil => exact ⟨_, c.wire, rfl, hsame, huna, by rw [hqueue, hq], .of_sent rfl⟩
  | cons first rest =>
    dsimp only
    split_ifs with hthird
    · obtain ⟨w, hw, hrep⟩ := sendAt_eq env { c with snd := c.snd.countDuplicate c.opt.mss } first.flags
        first.data [] first.seqStart
      rw [hw]
      refine ⟨_, w, rfl, ⟨hsame.1, hsame.2, hsame.3⟩, huna, ?_,
        hrep.mono (by simp [SendSide.resendStarts, hthird, hq])⟩
      rw [SendSide.touchFirst_content]
      exact congrArg _ (hqueue.trans hq)
    · exact ⟨_, c.wire, rfl, hsame, huna, by rw [hqueue, hq], .of_sent rfl⟩

theorem newAck_eq : ∃ s, newAck c ackNum = { c with snd := s } ∧ c.snd.SameNumbers s ∧
    s.sndUna = ackNum ∧ s.queue = c.snd.queue.dropWhile (·.coveredBy ackNum) := by
  unfold newAck
  split_ifs
  · obtain ⟨hsame, huna, hqueue⟩ := SendSide.grow_same { c.snd with
      queue := c.snd.queue.dropWhile (·.coveredBy ackNum)
      sndUna := ackNum, lastAckNum := ackNum, dupAckCount := 0 } c.opt.mss
    exact ⟨_, rfl, ⟨hsame.1, hsame.2, hsame.3⟩, huna, hqueue⟩
  · exact ⟨_, rfl, ⟨rfl, rfl, rfl⟩, rfl, rfl⟩

/-- An acknowledgement touches the sending half and the wire. It leaves the numbers sent
and the peer's window alone, takes covered entries off the queue, sends at most the first
entry again, and afterwards `snd_una` is what it said. -/
theorem tcpRetransmitAck_eq : ∃ s w,
    tcpRetransmitAck env now c ackNum pureAck = { c with snd := s, wire := w } ∧
      c.snd.SameNumbers s ∧ s.sndUna = ackNum ∧ OnlyCovered ackNum c.snd.queue s.queue ∧
      c.wire.Repeats (c.snd.resendStarts pureAck) w := by
  unfold tcpRetransmitAck
  split_ifs with hdup hpure
  · obtain ⟨s, w, hd, hsame, huna, hqueue, hrep⟩ := duplicateAck_eq env now c
    exact ⟨s, w, hd, hsame, huna.trans hdup.2.1.symm, .of_content ackNum hqueue, hpure ▸ hrep⟩
  · exact ⟨c.snd, c.wire, rfl, ⟨rfl, rfl, rfl⟩, hdup.2.1.symm, .of_content ackNum rfl, .of_sent rfl⟩
  · obtain ⟨s, hn, hsame, huna, hqueue⟩ := newAck_eq c ackNum
    exact ⟨s, c.wire, hn, hsame, huna, hqueue ▸ .dropWhile ackNum _, .of_sent rfl⟩

end Acknowledging

/-- Whether the timer has run out for an entry. -/
def RetransmitEntry.expired (now : UInt64) (e : RetransmitEntry) : Bool :=
  e.rtoMs ≤ (now - e.sentAt).toNat

/-- An entry that has been resent: one more try, the timeout doubled. -/
def RetransmitEntry.resent (now : UInt64) (e : RetransmitEntry) : RetransmitEntry :=
  { e with retries := e.retries + 1, rtoMs := min (2 * e.rtoMs) tcpRtoMaxMs, sentAt := now }

/-- A SYN goes out again with the options of the first time. -/
def RetransmitEntry.synOptions (o : PeerOptions) (e : RetransmitEntry) : List UInt8 :=
  if e.flags.syn then tcpSynOptions o e.flags.ack else []

/-- What a timeout does before the segment is sent again. -/
def SendSide.onTimeout (s : SendSide) (mss : UInt32) : SendSide :=
  { s with ssthresh := s.halved mss, cwnd := mss, inFastRecovery := false, dupAckCount := 0 }

/-- The loop of `tcp_retransmit_check` over one connection's queue; `done` are the entries
passed, last first. Running out of retries closes the connection and ends the loop. -/
def tcpRetransmitCheckLoop (env : TcpEnv) (now : UInt64) :
    TcpConnection → (done : List RetransmitEntry) → List RetransmitEntry → TcpConnection
  | c, done, [] => { c with snd.queue := done.reverse }
  | c, done, e :: rest =>
    if e.expired now then
      if tcpMaxRetries ≤ e.retries then { tcpRetransmitFlush c with state := .closed }
      else
        let c := { c with snd := c.snd.onTimeout c.opt.mss }
        tcpRetransmitCheckLoop env now
          (sendAt env c e.seqStart e.flags e.data (e.synOptions c.opt)) (e.resent now :: done) rest
    else tcpRetransmitCheckLoop env now c (e :: done) rest

section
variable (env : TcpEnv) (now : UInt64) (c : TcpConnection)

/-- `tcp_retransmit_check`, as far as one connection goes. -/
def tcpRetransmitCheck : TcpConnection :=
  tcpRetransmitCheckLoop env now c [] c.snd.queue

/-- Some entry of the queue has run out of retries when the timer looks at it. -/
def exhausted (now : UInt64) (q : List RetransmitEntry) : Prop :=
  ∃ e ∈ q, e.expired now ∧ tcpMaxRetries ≤ e.retries

/-- Where the timer may resend from. -/
def expiredStarts (now : UInt64) (q : List RetransmitEntry) : List UInt32 :=
  (q.filter (·.expired now)).map (·.seqStart)

/-- The loop keeps the queue, or closes the connection for an exhausted entry. -/
theorem tcpRetransmitCheckLoop_eq
    (done rest : List RetransmitEntry) : ∃ st s w,
      tcpRetransmitCheckLoop env now c done rest = { c with state := st, snd := s, wire := w } ∧
      c.snd.SameNumbers s ∧ s.sndUna = c.snd.sndUna ∧ c.wire.Repeats (expiredStarts now rest) w ∧
      ((st = c.state ∧ s.queue.map RetransmitEntry.content =
          (done.reverse ++ rest).map RetransmitEntry.content) ∨
        (st = .closed ∧ s.queue = [] ∧ exhausted now rest)) := by
  induction rest generalizing c done with
  | nil => exact ⟨c.state, _, c.wire, rfl, ⟨rfl, rfl, rfl⟩, rfl, .of_sent rfl, .inl ⟨rfl, by simp⟩⟩
  | cons e rest ih =>
    rw [tcpRetransmitCheckLoop]
    split_ifs with hexp hmax
    · exact ⟨.closed, _, c.wire, rfl, ⟨rfl, rfl, rfl⟩, rfl, .of_sent rfl,
        .inr ⟨rfl, rfl, e, List.mem_cons_self, hexp, hmax⟩⟩
    · dsimp only
      obtain ⟨w, hw, hrep⟩ := sendAt_eq env { c with snd := c.snd.onTimeout c.opt.mss } e.flags e.data
        (e.synOptions c.opt) e.seqStart
      rw [hw]
      obtain ⟨st, s, w', h, hsame, huna, hrest, hq⟩ := ih
        { c with snd := c.snd.onTimeout c.opt.mss, wire := w } (e.resent now :: done)
      refine ⟨st, s, w', h, ⟨hsame.1, hsame.2, hsame.3⟩, huna,
        (hrep.mono (by simp [expiredStarts, hexp])).trans (hrest.mono (by simp [expiredStarts, hexp])), hq.imp ?_ ?_⟩
      · rintro ⟨hst, hcontent⟩
        exact ⟨hst, by simpa [RetransmitEntry.content, RetransmitEntry.resent] using hcontent⟩
      · rintro ⟨hst, hnil, e', he', hex⟩
        exact ⟨hst, hnil, e', List.mem_cons_of_mem _ he', hex⟩
    · obtain ⟨st, s, w', h, hsame, huna, hrest, hq⟩ := ih c (e :: done)
      refine ⟨st, s, w', h, hsame, huna, hrest.mono (by simp [expiredStarts, hexp]), hq.imp ?_ ?_⟩
      · rintro ⟨hst, hcontent⟩
        exact ⟨hst, by simpa using hcontent⟩
      · rintro ⟨hst, hnil, e', he', hex⟩
        exact ⟨hst, hnil, e', List.mem_cons_of_mem _ he', hex⟩

theorem tcpRetransmitCheck_eq : ∃ st s w,
    tcpRetransmitCheck env now c = { c with state := st, snd := s, wire := w } ∧
      c.snd.SameNumbers s ∧ s.sndUna = c.snd.sndUna ∧
      c.wire.Repeats (expiredStarts now c.snd.queue) w ∧
      ((st = c.state ∧
          s.queue.map RetransmitEntry.content = c.snd.queue.map RetransmitEntry.content) ∨
        (st = .closed ∧ s.queue = [] ∧ exhausted now c.snd.queue)) :=
  tcpRetransmitCheckLoop_eq env now c [] c.snd.queue

end

end InDevOS.Net.Tcp
