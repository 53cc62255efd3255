import Mathlib
import InDevOS.Lib.Ranges
import InDevOS.Net.Tcp.Connection

/-! The TCP state machine of `net_tcp.c`.

First the receive ring with its out-of-order ranges, then what each state does with a
segment (`tcp_handle_packet_in`), then the local calls and the timers. Everything that can
happen to one connection is an `Event`; a run is a list of events from a connection as
`tcp_connect` or an incoming SYN creates it. -/
namespace InDevOS.Net.Tcp

open InDevOS.Lib

/-! ### The receive ring -/

section
variable (r : RecvSide)

/-- Bytes of the peer's stream taken in order so far, read or not. -/
def RecvSide.accepted : Nat := r.delivered.length + r.used

/-- `tcp_handle_data`: append what fits, in at most two block copies, and say how much. -/
def tcpHandleData (data : List UInt8) : RecvSide × Nat :=
  let toCopy := min data.length (tcpRecvBufferSize - r.used)
  let pos := (r.head + r.used) % tcpRecvBufferSize
  ({ r with
      buffer := Ring.copyIn tcpRecvBufferSize pos (data.take toCopy) r.buffer
      used := r.used + toCopy }, toCopy)

/-- `tcp_ooo_store`: hold text `off` past `ack_num` in the free part of the ring. A text
that would leave more than `TCP_OOO_MAX` ranges is dropped. -/
def tcpOooStore (off : Nat) (data : List UInt8) : RecvSide :=
  let freeSp := tcpRecvBufferSize - r.used
  if data = [] ∨ freeSp ≤ off then r
  else
    let held := data.take (freeSp - off)
    let s0 := r.ackNum + UInt32.ofNat off
    let ranges := Ranges.insert Seq32.sdiff r.ooo (s0, s0 + UInt32.ofNat held.length)
    if tcpOooMax < ranges.length then r
    else
      let pos := (r.head + r.used + off) % tcpRecvBufferSize
      { r with buffer := Ring.copyIn tcpRecvBufferSize pos held r.buffer, ooo := ranges }

/-- Bytes already in the ring become readable. -/
def RecvSide.extend (add : Nat) : RecvSide :=
  { r with used := r.used + add, ackNum := r.ackNum + UInt32.ofNat add }

/-- The loop of `tcp_ooo_merge`: the ring after it, the ranges kept, the bytes gained. -/
def tcpOooMergeLoop : RecvSide → List (UInt32 × UInt32) → RecvSide × List (UInt32 × UInt32) × Nat
  | r, [] => (r, [], 0)
  | r, (s, e) :: rest =>
    if Seq32.sdiff e r.ackNum ≤ 0 then tcpOooMergeLoop r rest
    else if Seq32.sdiff s r.ackNum ≤ 0 then
      let add := min (e - r.ackNum).toNat (tcpRecvBufferSize - r.used)
      let r' := r.extend add
      let t := tcpOooMergeLoop r' rest
      (t.1, (if 0 < Seq32.sdiff e r'.ackNum then (r'.ackNum, e) :: t.2.1 else t.2.1), t.2.2 + add)
    else
      let t := tcpOooMergeLoop r rest
      (t.1, (s, e) :: t.2.1, t.2.2)

/-- `tcp_ooo_merge`. -/
def tcpOooMerge : RecvSide × Nat :=
  let t := tcpOooMergeLoop r r.ooo
  ({ t.1 with ooo := t.2.1 }, t.2.2)

/-- `tcp_ring_read_locked`: the ring after it; the bytes read join `delivered`. -/
def tcpRingRead (len : Nat) : RecvSide :=
  let n := min r.used len
  if n = 0 then r
  else
    { r with
      head := if r.used - n = 0 ∧ r.ooo = [] then 0 else (r.head + n) % tcpRecvBufferSize
      used := r.used - n
      delivered := r.delivered ++ Ring.copyOut tcpRecvBufferSize r.head n r.buffer }

/-! ### Segments in ESTABLISHED and FIN_WAIT_1 -/

/-- Number and text of a segment once what we already have is cut off. A FIN whose text we
have is left as a bare FIN. -/
def trim (ackNum : UInt32) (seg : TcpSegment) : UInt32 × List UInt8 :=
  let off := Seq32.sdiff seg.seqNum ackNum
  let old := (-off).toNat
  if off < 0 ∧ (old < seg.payload.length ∨ (old = seg.payload.length ∧ seg.flags.fin)) then
    (ackNum, seg.payload.drop old)
  else (seg.seqNum, seg.payload)

/-- The text of a segment in ESTABLISHED, and whether the handler goes on to the FIN. When
it does not, it acknowledges what it has and is done. -/
def takeText (callback : Bool) (seg : TcpSegment) : RecvSide × Bool :=
  if seg.payload = [] then (r, true)
  else
    let t := trim r.ackNum seg
    let off := Seq32.sdiff t.1 r.ackNum
    if off ≠ 0 then (if 0 < off ∧ !callback then tcpOooStore r off.toNat t.2 else r, false)
    else
      let taken := (tcpHandleData r t.2).2
      let d : RecvSide := { (tcpHandleData r t.2).1 with ackNum := t.1 + UInt32.ofNat taken }
      let m := if d.ooo = [] then (d, 0) else tcpOooMerge d
      (m.1, taken = t.2.length && m.2 = 0)

/-- The peer's FIN is acknowledged: its number is `ack_num - 1` from here on. -/
def RecvSide.takeFin (finSeq : UInt32) : RecvSide :=
  { r with ackNum := finSeq + 1, fin := some finSeq }

/-- `TCP_STATE_ESTABLISHED` of `tcp_handle_packet_in`. -/
def handleEstablished (env : TcpEnv) (c : TcpConnection) (seg : TcpSegment) : TcpConnection :=
  let r := takeText c.rcv c.own.dataCallback seg
  let t := trim c.rcv.ackNum seg
  let c := { c with rcv := r.1 }
  if !r.2 then sendAck env c
  else if seg.flags.fin then
    let finSeq := t.1 + UInt32.ofNat t.2.length
    if finSeq ≠ r.1.ackNum then sendAck env c
    else
      let c := sendAck env { c with rcv := r.1.takeFin finSeq }
      if c.own.halfClose then { c with state := .closeWait }
      else { (tcpSendPacket env c .finAck []).1 with state := .lastAck }
  else if t.2 ≠ [] then sendAck env c
  else c

/-- The text of a segment in FIN_WAIT_1: only in-order text is taken. -/
def takeTextInOrder (seg : TcpSegment) : RecvSide × Bool :=
  if seg.payload = [] then (r, true)
  else if seg.seqNum = r.ackNum then
    let d := tcpHandleData r seg.payload
    ({ d.1 with ackNum := d.1.ackNum + UInt32.ofNat d.2 },
      d.2 = seg.payload.length && seg.flags.fin)
  else (r, false)

end

/-- `TCP_STATE_FIN_WAIT_1` of `tcp_handle_packet_in`. -/
def handleFinWait1 (env : TcpEnv) (c : TcpConnection) (seg : TcpSegment) : TcpConnection :=
  let r := takeTextInOrder c.rcv seg
  let c := { c with rcv := r.1 }
  let finSeq := seg.seqNum + UInt32.ofNat seg.payload.length
  if !r.2 then sendAck env c
  else if seg.flags.fin && seg.flags.ack then
    let c := tcpRetransmitFlush
      { sendAck env { c with rcv := r.1.takeFin finSeq } with state := .timeWait }
    if c.own.owned then c else tcpDestroyConnection c
  else if seg.flags.fin then
    { sendAck env { c with rcv := r.1.takeFin finSeq } with state := .closing }
  else c

/-! ### The other states -/

/-- `tcp_handle_syn`. The SYN-ACK is not queued and `snd_una` is left as it is. -/
def tcpHandleSyn (env : TcpEnv) (isn : UInt32) (c : TcpConnection) (seg : TcpSegment) :
    TcpConnection :=
  let opt := c.opt.agree
  let c := { c with
    rcv := { c.rcv with ackNum := seg.seqNum + 1, irs := seg.seqNum }
    snd := { c.snd with seqNum := isn, initialSeq := isn }
    opt := opt }
  { (tcpSendPacketWithOptions env c .synAck [] (tcpSynOptions opt true)).1 with
    state := .synReceived }

/-- The initial congestion window: `min (4 * smss) (max (2 * smss) 4380)`. -/
def PeerOptions.initialWindow (o : PeerOptions) : UInt32 :=
  min (max (2 * o.mss) 4380) (4 * o.mss)

/-- The connection is open. -/
def establish (c : TcpConnection) : TcpConnection :=
  { c with
    state := .established, connected := true
    snd := { c.snd with cwnd := c.opt.initialWindow, lastAckNum := c.snd.sndUna } }

section
variable (env : TcpEnv) (now : UInt64) (c : TcpConnection)

/-- `TCP_STATE_SYN_SENT`: a SYN-ACK, whatever it acknowledges, opens the connection. -/
def handleSynSent (seg : TcpSegment) :
    TcpConnection :=
  if seg.flags.syn && seg.flags.ack then
    let c := { c with
      opt := c.opt.agree
      rcv := { c.rcv with ackNum := seg.seqNum + 1, irs := seg.seqNum }
      snd.sndUna := seg.ackNum }
    establish (sendAck env (tcpRetransmitAck env now c seg.ackNum false))
  else c

/-- `TCP_STATE_SYN_RECEIVED`: a repeated SYN gets the SYN-ACK again, any ACK opens. -/
def handleSynReceived (env : TcpEnv) (c : TcpConnection) (seg : TcpSegment) : TcpConnection :=
  if !seg.flags.ack && seg.flags.syn then
    sendAt env c c.snd.initialSeq .synAck [] (tcpSynOptions c.opt true)
  else if seg.flags.ack then establish c
  else c

/-- `TCP_STATE_LAST_ACK`: any ACK is taken for the one of our FIN. -/
def handleLastAck (c : TcpConnection) (seg : TcpSegment) : TcpConnection :=
  if seg.flags.ack then
    let c := { tcpRetransmitFlush c with state := .closed }
    if c.own.disowned then tcpDestroyConnection c else c
  else c

/-- A segment with RST, in any state and with any number. -/
def handleRst (c : TcpConnection) : TcpConnection :=
  let c := { tcpRetransmitFlush c with state := .closed }
  if c.own.disowned || (c.own.userChild && !c.own.accepted) then tcpDestroyConnection c else c

/-- The peer's window, scaled unless the segment is a SYN. -/
def updateWindow (c : TcpConnection) (seg : TcpSegment) : TcpConnection :=
  { c with
    snd.sndWnd :=
      if seg.flags.syn then seg.window.toUInt32
      else seg.window.toUInt32 <<< UInt32.ofNat (if c.opt.wsOk then c.opt.sndWscale else 0) }

/-- An acknowledgement without text, SYN, FIN or a new window. -/
def isPureAck (c c' : TcpConnection) (seg : TcpSegment) : Bool :=
  seg.payload = [] && !seg.flags.syn && !seg.flags.fin && c'.snd.sndWnd = c.snd.sndWnd

/-- What every segment without RST does before its state is looked at: window,
acknowledgement, options. -/
def beforeSwitch (seg : TcpSegment) :
    TcpConnection :=
  let w := updateWindow c seg
  let a := if seg.flags.ack then tcpRetransmitAck env now w seg.ackNum (isPureAck c w seg) else w
  if seg.flags.syn then { a with opt := tcpParseOptions a.opt seg.options } else a

section
variable (env : TcpEnv) (now : UInt64) (isn : UInt32)

/-- The `switch` of `tcp_handle_packet_in`. -/
def switchState (c : TcpConnection)
    (seg : TcpSegment) : TcpConnection :=
  match c.state with
  | .listen => if seg.flags.syn then tcpHandleSyn env isn c seg else c
  | .synSent => handleSynSent env now c seg
  | .synReceived => handleSynReceived env c seg
  | .established => handleEstablished env c seg
  | .finWait1 => handleFinWait1 env c seg
  | .lastAck => handleLastAck c seg
  | .closed | .finWait2 | .closeWait | .closing | .timeWait => c

/-- `tcp_handle_packet_in` for a segment that belongs to the connection. `isn` is what
`tcp_new_isn` would return now. -/
def tcpHandlePacketIn (c : TcpConnection)
    (seg : TcpSegment) : TcpConnection :=
  let c := { c with lastActivity := now }
  if seg.flags.rst then handleRst c
  else switchState env now isn (beforeSwitch env now c seg) seg

/-! ### Opening -/

/-- A connection of `tcp_connect` that has sent nothing yet. -/
def connecting (now : UInt64) (isn : UInt32) : TcpConnection :=
  let c := tcpCreateConnection now
  { c with
    state := .synSent
    snd := { c.snd with seqNum := isn, initialSeq := isn, sndUna := isn } }

/-- `tcp_connect`, or `tcp_socket_connect` when `socket`. A connection whose SYN cannot be
sent is destroyed. -/
def tcpConnect (socket : Bool) : TcpConnection :=
  let c := tcpRetransmitEnqueue env now (connecting now isn) isn .onlySyn []
  let r := tcpSendPacketWithOptions env c .onlySyn [] (tcpSynOptions c.opt false)
  if r.2 then { r.1 with own := { r.1.own with owned := socket, halfClose := socket } }
  else tcpDestroyConnection r.1

end

/-- The connection `tcp_handle_packet_in` creates for a SYN to a listening port, of a
socket when `socket`. The SYN is its first event. -/
def tcpIncoming (now : UInt64) (socket : Bool) : TcpConnection :=
  let c := tcpCreateConnection now
  { c with state := .listen, own := { c.own with userChild := socket, halfClose := socket } }

/-! ### Local calls and timers -/

/-- The errors `tcp_send` returns. -/
inductive TcpErrno
  | enotconn
  | eio
  deriving DecidableEq, Repr

/-- The sending loop of `tcp_send`: text is cut at the segment size, each piece is queued,
then sent; the first failure ends the loop. It returns the bytes sent, or fails if there
are none. -/
def tcpSendLoop (env : TcpEnv) (now : UInt64) (mss : Nat) :
    (fuel sent : Nat) → TcpConnection → List UInt8 → TcpConnection × Except TcpErrno Nat
  | 0, sent, c, _ => (c, .ok sent)
  | fuel + 1, sent, c, data =>
    if data = [] then (c, .ok sent)
    else
      let chunk := data.take mss
      let flags := TcpFlags.data (data.length ≤ mss)
      let r := tcpSendPacket env (tcpRetransmitEnqueue env now c c.snd.seqNum flags chunk) flags chunk
      if r.2 then tcpSendLoop env now mss fuel (sent + chunk.length) r.1 (data.drop mss)
      else (r.1, if 0 < sent then .ok sent else .error .eio)

/-- Bytes `tcp_send` takes to be under way. -/
def SendSide.inFlight (s : SendSide) : UInt32 := s.seqNum - s.sndUna

/-- The smaller of the congestion window and the peer's window. -/
def SendSide.effectiveWindow (s : SendSide) : UInt32 := if s.sndWnd < s.cwnd then s.sndWnd else s.cwnd

/-- Bytes `tcp_send` may still send. -/
def SendSide.sendLimit (s : SendSide) : UInt32 :=
  if s.inFlight < s.effectiveWindow then s.effectiveWindow - s.inFlight else 0

/-- `tcp_send`. -/
def tcpSend (data : List UInt8) :
    TcpConnection × Except TcpErrno Nat :=
  if c.state = .established ∨ c.state = .closeWait then
    let data := data.take c.snd.sendLimit.toNat
    tcpSendLoop env now c.opt.mss.toNat data.length 0 c data
  else (c, .error .enotconn)

/-- Queue and send our FIN, and move on. -/
def sendFin (next : TcpState) : TcpConnection :=
  let c := { c with state := next }
  (tcpSendPacket env (tcpRetransmitEnqueue env now c c.snd.seqNum .finAck []) .finAck []).1

/-- `tcp_close`, as far as the connection itself goes. -/
def tcpClose : TcpConnection :=
  let c := { c with
    own := { c.own with
      disowned := c.own.owned || c.own.disowned, owned := false, halfClose := false } }
  match c.state with
  | .established => sendFin env now c .finWait1
  | .closeWait => sendFin env now c .lastAck
  | .lastAck => c
  | _ => tcpDestroyConnection c

/-- `tcp_socket_shutdown_wr`. -/
def tcpSocketShutdownWr : TcpConnection :=
  match c.state with
  | .established => sendFin env now c .finWait1
  | .closeWait => sendFin env now c .lastAck
  | _ => c

end

/-- `tcp_socket_accept` when it picks this connection. -/
def tcpSocketAccept (c : TcpConnection) : TcpConnection :=
  if c.own.userChild ∧ !c.own.accepted ∧ (c.state = .established ∨ c.state = .closeWait) then
    { c with own := { c.own with accepted := true, owned := true } }
  else c

/-- `tcp_socket_listen`: it puts any connection a socket holds into LISTEN. -/
def tcpSocketListen (c : TcpConnection) : TcpConnection := { c with state := .listen }

/-- The segment size we announce, or the largest. -/
def PeerOptions.ownMss (o : PeerOptions) : Nat :=
  (if o.localMss = 0 then tcpMaxMss else o.localMss).toNat

section
variable (env : TcpEnv) (c : TcpConnection)

/-- `tcp_rx_window_update`. -/
def tcpRxWindowUpdate : TcpConnection :=
  if c.wire.lastWndAdv < tcpRecvBufferSize / 2 ∧
      c.wire.lastWndAdv + 2 * c.opt.ownMss ≤ tcpRecvBufferSize - c.rcv.used ∧
      (c.state = .established ∨ c.state = .finWait1 ∨ c.state = .finWait2) then
    sendAck env c
  else c

/-- `tcp_conn_read` and `tcp_socket_recv`. -/
def tcpConnRead (len : Nat) : TcpConnection :=
  let c' := { c with rcv := tcpRingRead c.rcv len }
  if min c.rcv.used len = 0 then c' else tcpRxWindowUpdate env c'

/-- `tcp_conn_at_eof`. -/
def tcpConnAtEof (c : TcpConnection) : Bool :=
  c.state = .closeWait || c.state = .lastAck || c.state = .closed || c.state = .timeWait ||
    c.state = .closing

/-- A connection no socket holds has been idle too long: a minute in TIME_WAIT, two in the
other states on the way up or down. -/
def isStale (now : UInt64) (c : TcpConnection) : Bool :=
  let idle := now - c.lastActivity
  !c.own.owned && ((c.state = .timeWait && tcpTimeWaitTimeout < idle) ||
    ((c.state = .synSent || c.state = .synReceived || c.state = .closing || c.state = .lastAck) &&
      tcpStaleConnTimeout < idle) ||
    (c.state = .closed && tcpStaleConnTimeout < idle))

/-- `tcp_cleanup_stale_connections`, as far as one connection goes. -/
def tcpCleanupStale (now : UInt64) (c : TcpConnection) : TcpConnection :=
  if isStale now c then tcpDestroyConnection c else c

/-- `tcp_close` of the listening socket, as far as a connection to its port goes: one that
nobody accepted is destroyed. -/
def dropUnaccepted (c : TcpConnection) : TcpConnection :=
  if c.own.userChild && !c.own.accepted then tcpDestroyConnection c else c

/-! ### Runs -/

/-- What can happen to a connection. -/
inductive Event
  | segment (now : UInt64) (isn : UInt32) (seg : TcpSegment)
  | send (now : UInt64) (data : List UInt8)
  | read (len : Nat)
  | close (now : UInt64)
  | shutdownWr (now : UInt64)
  | accept
  | listen
  | tick (now : UInt64)
  | cleanup (now : UInt64)
  | listenerClosed

/-- One event. Nothing reaches a destroyed connection. -/
def step (e : Event) : TcpConnection :=
  if c.destroyed then c
  else
    match e with
    | .segment now isn seg => tcpHandlePacketIn env now isn c seg
    | .send now data => (tcpSend env now c data).1
    | .read len => tcpConnRead env c len
    | .close now => tcpClose env now c
    | .shutdownWr now => tcpSocketShutdownWr env now c
    | .accept => tcpSocketAccept c
    | .listen => tcpSocketListen c
    | .tick now => tcpRetransmitCheck env now c
    | .cleanup now => tcpCleanupStale now c
    | .listenerClosed => dropUnaccepted c

def run (es : List Event) : TcpConnection :=
  es.foldl (step env) c

end

/-- A connection as it comes into being. -/
inductive Opened (env : TcpEnv) : TcpConnection → Prop
  | connect (now : UInt64) (isn : UInt32) (socket : Bool) : Opened env (tcpConnect env now isn socket)
  | incoming (now : UInt64) (socket : Bool) : Opened env (tcpIncoming now socket)

/-- Every event of a run meets a condition on the state it is handled in. -/
def Admissible (env : TcpEnv) (allows : TcpConnection → Event → Prop) :
    TcpConnection → List Event → Prop
  | _, [] => True
  | c, e :: es => allows c e ∧ Admissible env allows (step env c e) es

section
variable {env : TcpEnv} {allows : TcpConnection → Event → Prop} {c : TcpConnection}

/-- What every allowed step keeps holds in every state of an admissible run. -/
theorem Admissible.keeps (inv : TcpConnection → Prop)
    (hstep : ∀ c e, allows c e → inv c → inv (step env c e)) {es : List Event}
    (hes : Admissible env allows c es) (hc : inv c) : inv (run env c es) := by
  induction es generalizing c with
  | nil => exact hc
  | cons e es ih => exact ih hes.2 (hstep c e hes.1 hc)

theorem Admissible.split {es fs : List Event} (h : Admissible env allows c (es ++ fs)) :
    Admissible env allows c es ∧ Admissible env allows (run env c es) fs := by
  induction es generalizing c with
  | nil => exact ⟨trivial, h⟩
  | cons e es ih =>
    obtain ⟨hes, hfs⟩ := ih h.2
    exact ⟨⟨h.1, hes⟩, hfs⟩

end

/-! ### A peer to try the machine with -/

/-- The peer's answer to a SYN with number 1000. -/
def peerSynAck : TcpSegment where
  seqNum := 7
  ackNum := 1001
  flags := .synAck
  window := 8192
  options := []
  payload := []

/-- A segment of the peer without text, after that. -/
def peerSegment (flags : TcpFlags) (ackNum : UInt32) : TcpSegment where
  seqNum := 8
  ackNum := ackNum
  flags := flags
  window := 8192
  options := []
  payload := []

end InDevOS.Net.Tcp
