import Mathlib
import InDevOS.Net.Tcp.Effects

/-! Numbers sent and numbers acknowledged.

A `Ledger` keeps the two counts for a connection as the protocol means them: what has gone
out for the first time, read off the wire, and what acknowledgements of something sent have
covered. The code keeps them as `seq_num` and `snd_una`. The two agree as long as every
acknowledgement is one of something sent and not acknowledged yet, nothing is resent that
was never sent, an incoming connection starts at `snd_una`, and the peer does not ask for
segments so long that the IP layer cuts them (`snd_una_ledger`); then `snd_una` never moves
back, never passes `seq_num`, and the in-flight count of `tcp_send` is exact. The code enforces none of this: one stray ACK moves `snd_una` back
(`snd_una_moves_back`). -/
namespace InDevOS.Net.Tcp

open InDevOS.Lib

/-! ### The ledger -/

/-- Sequence numbers sent and acknowledged. -/
structure Ledger where
  sent : Nat
  acked : Nat
  deriving DecidableEq, Repr

/-- An acknowledgement counts if it is of something sent and not older than the last. -/
def Ledger.ack (base : UInt32) (l : Ledger) (ackNum : UInt32) : Ledger :=
  let d := (ackNum - Seq32.seqAt base l.acked).toNat
  if d ≤ l.sent - l.acked then { l with acked := l.acked + d } else l

/-- What a segment acknowledges. -/
def Ledger.take (base : UInt32) (l : Ledger) (seg : TcpSegment) : Ledger :=
  if seg.flags.rst = false ∧ seg.flags.ack = true then l.ack base seg.ackNum else l

/-- The ledger after an event: acknowledgements are taken from the segment, first
transmissions from the wire. -/
def ledgerStep (env : TcpEnv) (base : UInt32) (c : TcpConnection) (l : Ledger) (e : Event) : Ledger where
  sent := sentFrom base 0 (step env c e).wire.sent
  acked :=
    match e with
    | .segment _ _ seg => if c.destroyed then l.acked else (l.take base seg).acked
    | _ => l.acked

/-- The ledger after a run. -/
def ledger (env : TcpEnv) (base : UInt32) : TcpConnection → Ledger → List Event → Ledger
  | _, l, [] => l
  | c, l, e :: es => ledger env base (step env c e) (ledgerStep env base c l e) es

/-- The ledger of a new connection. -/
def openingLedger (c : TcpConnection) : Ledger := ⟨sentFrom c.snd.sndUna 0 c.wire.sent, 0⟩

/-! ### The condition -/

/-- The condition on a segment without RST. -/
structure SegmentInOrder (c : TcpConnection) (isn : UInt32) (seg : TcpSegment) : Prop where
  /-- it acknowledges something sent and not older than the last acknowledgement -/
  ack : seg.flags.ack = true → c.snd.Acceptable seg.ackNum
  /-- what it makes us resend has been sent before -/
  resend : c.snd.seqNum ∉
    c.snd.resendStarts (seg.flags.ack && isPureAck c (updateWindow c seg) seg)
  /-- the number we answer a SYN from is where `snd_una` stands -/
  syn : c.state = .listen → seg.flags.syn = true → isn = c.snd.sndUna
  /-- the SYN-ACK that a repeated SYN makes us resend has been sent before -/
  synAgain : c.state = .synReceived → seg.flags.syn = true → seg.flags.ack = false →
    c.snd.initialSeq ≠ c.snd.seqNum
  /-- a full segment of the size a SYN announces fits an IP datagram -/
  mss : seg.flags.syn = true → (tcpParseOptions c.opt seg.options).mss ≤ 65515

/-- The condition on an event. -/
def InOrder (c : TcpConnection) : Event → Prop
  | .segment _ isn seg => seg.flags.rst = false → SegmentInOrder c isn seg
  | .tick now => c.snd.seqNum ∉ expiredStarts now c.snd.queue
  | .listen => c.state = .listen
  | _ => True

/-! ### The invariant -/

/-- The largest window a peer can announce. -/
def maxWindow : Nat := 65535 * 2 ^ 14

/-- How much can be under way in a state. -/
def flightLimit : TcpState → Nat
  | .listen => 0
  | .synSent | .synReceived => 1
  | .established | .closeWait => maxWindow
  | _ => maxWindow + 1

/-- The connection agrees with the ledger. -/
structure Agrees (base : UInt32) (l : Ledger) (c : TcpConnection) : Prop where
  wire : sentFrom base 0 c.wire.sent = l.sent
  seqNum : c.snd.seqNum = Seq32.seqAt base l.sent
  sndUna : c.snd.sndUna = Seq32.seqAt base l.acked
  le : l.acked ≤ l.sent
  flight : l.sent - l.acked ≤ flightLimit c.state
  window : c.snd.sndWnd.toNat ≤ maxWindow
  fits : c.opt.Fits

theorem flightLimit_le (st : TcpState) : flightLimit st ≤ maxWindow + 1 := by
  cases st <;> simp [flightLimit, maxWindow]

section Agreement

variable {env : TcpEnv} {base : UInt32} {l : Ledger} {c c' p : TcpConnection} {seg : TcpSegment}
  {k : Nat}

/-- The in-flight count of `tcp_send` is exact. -/
theorem Agrees.inFlight (h : Agrees base l c) : c.snd.inFlight.toNat = l.sent - l.acked := by
  have hlimit := h.flight.trans (flightLimit_le c.state)
  rw [SendSide.inFlight, h.seqNum, h.sndUna, Seq32.toNat_seqAt_sub base h.le]
  unfold maxWindow at hlimit
  omega

theorem sentFrom_append (base : UInt32) (n : Nat) (a b : List TcpSegment) :
    sentFrom base n (a ++ b) = sentFrom base (sentFrom base n a) b := List.foldl_append

theorem Agrees.extend (h : Agrees base l c) (hw : c.wire.Extends c.snd.seqNum k c'.wire)
    (hseq : c'.snd.seqNum = c.snd.seqNum + UInt32.ofNat k) (huna : c'.snd.sndUna = c.snd.sndUna)
    (hflight : l.sent + k - l.acked ≤ flightLimit c'.state) (hwnd : c'.snd.sndWnd = c.snd.sndWnd)
    (ho : c'.opt.Fits) : Agrees base { l with sent := l.sent + k } c' := by
  obtain ⟨segs, hsent, hsegs⟩ := hw
  refine ⟨?_, ?_, huna.trans h.sndUna, h.le.trans (Nat.le_add_right _ _), hflight, hwnd ▸ h.window, ho⟩
  · rw [hsent, sentFrom_append, h.wire]
    exact hsegs base l.sent h.seqNum
  · rw [hseq, h.seqNum, Seq32.seqAt_add]

theorem Agrees.emits (h : Agrees base l c) (hem : Emitted k c c')
    (hflight : l.sent + k - l.acked ≤ flightLimit c.state) :
    Agrees base { l with sent := l.sent + k } c' :=
  h.extend (hem.wire h.fits) hem.seqNum hem.sndUna (hem.state ▸ hflight) hem.sndWnd (hem.opt ▸ h.fits)

theorem Agrees.congr (h : Agrees base l c) (hw : c'.wire.sent = c.wire.sent)
    (hseq : c'.snd.seqNum = c.snd.seqNum) (huna : c'.snd.sndUna = c.snd.sndUna)
    (hflight : l.sent - l.acked ≤ flightLimit c'.state) (hwnd : c'.snd.sndWnd = c.snd.sndWnd)
    (ho : c'.opt.Fits) : Agrees base l c' :=
  ⟨hw ▸ h.wire, hseq ▸ h.seqNum, huna ▸ h.sndUna, h.le, hflight, hwnd ▸ h.window, ho⟩

theorem Agrees.repeats (h : Agrees base l c) {starts : List UInt32} (hw : c.wire.Repeats starts c'.wire)
    (hne : c.snd.seqNum ∉ starts) (hseq : c'.snd.seqNum = c.snd.seqNum)
    (huna : c'.snd.sndUna = c.snd.sndUna) (hflight : l.sent - l.acked ≤ flightLimit c'.state)
    (hwnd : c'.snd.sndWnd = c.snd.sndWnd) (ho : c'.opt.Fits) : Agrees base l c' :=
  h.extend (hw.extends hne) (by simpa using hseq) huna hflight hwnd ho

theorem updateWindow_le (c : TcpConnection) (seg : TcpSegment) (hws : c.opt.sndWscale ≤ 14) :
    (updateWindow c seg).snd.sndWnd.toNat ≤ maxWindow := by
  have hwindow : seg.window.toNat ≤ 65535 := Nat.le_of_lt_succ seg.window.toNat_lt
  unfold updateWindow maxWindow
  split_ifs
  · simp only [UInt16.toNat_toUInt32]
    omega
  · have hshift : 2 ^ c.opt.sndWscale ≤ 2 ^ 14 := Nat.pow_le_pow_right (by omega) hws
    rw [UInt32.toNat_shiftLeft, UInt16.toNat_toUInt32, UInt32.toNat_ofNat', Nat.shiftLeft_eq]
    refine (Nat.mod_le _ _).trans (Nat.mul_le_mul hwindow ?_)
    rwa [Nat.mod_eq_of_lt (by omega : c.opt.sndWscale < 2 ^ 32), Nat.mod_eq_of_lt (by omega)]
  · rw [UInt32.toNat_shiftLeft, UInt16.toNat_toUInt32, UInt32.toNat_ofNat', Nat.shiftLeft_eq]
    refine (Nat.mod_le _ _).trans (Nat.mul_le_mul hwindow ?_)
    simp

/-- An acceptable acknowledgement is one the ledger takes. -/
theorem Agrees.ack_eq (h : Agrees base l c) {a : UInt32} (ha : c.snd.Acceptable a) :
    (a - Seq32.seqAt base l.acked).toNat ≤ l.sent - l.acked ∧
      l.ack base a = { l with acked := l.acked + (a - Seq32.seqAt base l.acked).toNat } := by
  have hflight := h.inFlight
  unfold SendSide.Acceptable at ha
  unfold SendSide.inFlight at hflight
  rw [hflight, h.sndUna] at ha
  exact ⟨ha, if_pos ha⟩

theorem Agrees.prepare (h : Agrees base l c) {isn : UInt32} (hp : Prepared seg c p)
    (hs : SegmentInOrder c isn seg) (hrst : seg.flags.rst = false) : Agrees base (l.take base seg) p := by
  obtain ⟨segs, hsent, hsegs⟩ := hp.wire.extends hs.resend
  have hwire : sentFrom base 0 p.wire.sent = l.sent := by
    rw [hsent, sentFrom_append, h.wire]
    exact hsegs base l.sent h.seqNum
  have hwindow : p.snd.sndWnd.toNat ≤ maxWindow := hp.sndWnd ▸ updateWindow_le c seg h.fits.wscale
  have hseq := hp.seqNum.trans h.seqNum
  have huna := hp.sndUna
  cases hack : seg.flags.ack with
  | false =>
    rw [hack] at huna
    rw [Ledger.take, if_neg (by simp [hack])]
    exact ⟨hwire, hseq, huna.trans h.sndUna, h.le, hp.state ▸ h.flight, hwindow, hp.fits hs.mss h.fits⟩
  | true =>
    rw [hack, if_pos rfl] at huna
    obtain ⟨hle, heq⟩ := h.ack_eq (hs.ack hack)
    have hbound := h.le
    have hflight := h.flight
    rw [Ledger.take, if_pos ⟨hrst, hack⟩, heq]
    refine ⟨hwire, hseq, huna.trans (Seq32.eq_seqAt_of_sub base _ _), ?_, ?_, hwindow, hp.fits hs.mss h.fits⟩
    · dsimp only
      omega
    · rw [hp.state]
      dsimp only
      omega

theorem SegmentStep.agrees {isn : UInt32} (hstep : SegmentStep isn seg p c') (h : Agrees base l p)
    (hack : seg.flags.ack = true → p.snd.sndUna = seg.ackNum)
    (hsyn : p.state = .listen → seg.flags.syn = true → isn = p.snd.seqNum)
    (hagain : p.state = .synReceived → seg.flags.syn = true → seg.flags.ack = false →
      p.snd.initialSeq ≠ p.snd.seqNum) :
    ∃ k, Agrees base { l with sent := l.sent + k } c' := by
  have hflight := h.flight
  have hle := h.le
  have hagree : p.opt.agree.Fits := ⟨p.opt.agree_wscale h.fits.wscale, h.fits.mss⟩
  cases hstep with
  | ignored => exact ⟨0, h⟩
  | syn hs hflag hk hem =>
    rw [hs] at hflight
    refine ⟨_, Agrees.emits ?_ hem ?_⟩
    · exact h.congr rfl (hsyn hs hflag) rfl (hflight.trans (by simp [flightLimit])) rfl hagree
    · dsimp only [flightLimit] at hflight ⊢
      omega
  | synAck hs hflag s w hsame huna hqueue hext =>
    rw [hs] at hflight
    refine ⟨0, h.extend hext ?_ ?_ ?_ hsame.sndWnd hagree⟩
    · exact hsame.seqNum.trans (UInt32.add_zero _).symm
    · exact huna.trans (hack hflag).symm
    · dsimp only [flightLimit, establish, maxWindow] at hflight ⊢
      omega
  | synAgain hs hflag hnack w hrep =>
    have hne : p.snd.seqNum ∉ [p.snd.initialSeq] := by
      simpa using (hagain hs hflag hnack).symm
    exact ⟨0, h.repeats hrep hne rfl rfl h.flight rfl h.fits⟩
  | opened hs =>
    rw [hs] at hflight
    refine ⟨0, h.congr rfl rfl rfl ?_ rfl h.fits⟩
    dsimp only [flightLimit, establish, maxWindow] at hflight ⊢
    omega
  | text hs hem | textInOrder hs hem =>
    refine ⟨0, Agrees.emits ?_ hem h.flight⟩
    exact h.congr rfl rfl rfl h.flight rfl h.fits
  | @fin _ _ st k hs hfin hend hnext hst hem =>
    rw [hs] at hflight
    have hafter : l.sent + k - l.acked ≤ flightLimit st := by
      obtain ⟨rfl, rfl⟩ | ⟨rfl, hk, -⟩ := hst <;> dsimp only [flightLimit] at hflight ⊢ <;> omega
    refine ⟨k, Agrees.emits ?_ hem hafter⟩
    exact h.congr rfl rfl rfl ((by omega : _ ≤ l.sent + k - l.acked).trans hafter) rfl h.fits
  | @finInOrder _ d st hs hgo hfin hst hem hd =>
    rw [hs] at hflight
    have hafter : l.sent - l.acked ≤ flightLimit st := by
      obtain rfl | rfl := hst <;> exact hflight
    have hdone : Agrees base l d := by
      refine Agrees.emits ?_ hem hafter
      exact h.congr rfl rfl rfl hafter rfl h.fits
    refine ⟨0, ?_⟩
    obtain rfl | ⟨-, rfl | rfl⟩ := hd
    · exact hdone
    · exact hdone.congr rfl rfl rfl hdone.flight rfl hdone.fits
    · exact hdone.congr rfl rfl rfl hdone.flight rfl hdone.fits
  | closed hs hflag heq =>
    rw [hs] at hflight
    obtain rfl | rfl := heq <;> exact ⟨0, h.congr rfl rfl rfl hflight rfl h.fits⟩

/-- `tcp_send` does not send past the peer's window. -/
theorem SendSide.inFlight_add_sendLimit_le (s : SendSide) (hwindow : s.sndWnd.toNat ≤ maxWindow)
    (hopen : s.inFlight.toNat ≤ maxWindow) : s.inFlight.toNat + s.sendLimit.toNat ≤ maxWindow := by
  have heff : s.effectiveWindow.toNat ≤ s.sndWnd.toNat := by
    unfold SendSide.effectiveWindow
    split_ifs with hlt
    · exact le_refl _
    · exact UInt32.le_iff_toNat_le.1 (UInt32.not_lt.1 hlt)
  unfold SendSide.sendLimit
  split_ifs with hlt
  · rw [UInt32.toNat_sub_of_le _ _ (UInt32.le_of_lt hlt)]
    omega
  · simp only [UInt32.toNat_zero]
    omega

theorem Agrees.sendLimit_le (h : Agrees base l c) (hopen : l.sent - l.acked ≤ maxWindow) :
    l.sent + c.snd.sendLimit.toNat - l.acked ≤ maxWindow := by
  have hle := h.le
  have hroom := c.snd.inFlight_add_sendLimit_le h.window (h.inFlight ▸ hopen)
  rw [h.inFlight] at hroom
  omega

theorem LocalStep.agrees {e : Event} (hstep : LocalStep c e c') (h : Agrees base l c)
    (he : InOrder c e) : ∃ k, Agrees base { l with sent := l.sent + k } c' := by
  have hflight := h.flight
  have hle := h.le
  cases hstep with
  | own own => exact ⟨0, h.congr rfl rfl rfl hflight rfl h.fits⟩
  | sent hem hk =>
    refine ⟨_, h.emits hem ?_⟩
    obtain rfl | ⟨hopen, hk⟩ := hk
    · exact hflight
    · have hmax : flightLimit c.state = maxWindow := by obtain hs | hs := hopen <;> rw [hs] <;> rfl
      have hlimit := h.sendLimit_le (hmax ▸ hflight)
      omega
  | read hem =>
    refine ⟨0, Agrees.emits ?_ hem hflight⟩
    exact h.congr rfl rfl rfl hflight rfl h.fits
  | fin own he hfin =>
    obtain ⟨hs, k, hk, hem⟩ | ⟨hs, k, hk, hem⟩ := hfin
    all_goals
      have hs : c.state = _ := hs
      rw [hs] at hflight
      dsimp only [flightLimit] at hflight
      refine ⟨k, Agrees.emits ?_ hem ?_⟩
      · refine h.congr rfl rfl rfl ?_ rfl h.fits
        dsimp only [flightLimit]
        omega
      · dsimp only [flightLimit]
        omega
  | destroyed own hr => exact ⟨0, h.congr rfl rfl rfl hflight rfl h.fits⟩
  | listen =>
    have hs : c.state = .listen := he
    rw [hs] at hflight
    exact ⟨0, h.congr rfl rfl rfl hflight rfl h.fits⟩
  | timer s w hsame huna hwire hqueue =>
    exact ⟨0, h.repeats hwire he hsame.seqNum huna hflight hsame.sndWnd h.fits⟩
  | gaveUp s w hsame huna hwire hqueue hex =>
    exact ⟨0, h.repeats hwire he hsame.seqNum huna (hflight.trans (flightLimit_le _)) hsame.sndWnd h.fits⟩

/-- A ledger that agrees after an event and has the right acknowledgements is the next one. -/
theorem Agrees.ledgerStep_eq {e : Event} {l' : Ledger} (h : Agrees base l' (step env c e))
    (hacked : l'.acked = (ledgerStep env base c l e).acked) : ledgerStep env base c l e = l' := by
  have hsent := h.wire
  cases l'
  simp_all [ledgerStep]

theorem step_agrees {e : Event} (h : Agrees base l c) (he : InOrder c e) :
    Agrees base (ledgerStep env base c l e) (step env c e) := by
  have hstep := step_stepped env c e
  -- the sent part of the next ledger is read off the connection
  suffices hnext : ∃ l', Agrees base l' (step env c e) ∧ l'.acked = (ledgerStep env base c l e).acked by
    obtain ⟨l', hagree, hacked⟩ := hnext
    rw [hagree.ledgerStep_eq hacked]
    exact hagree
  generalize hc' : step env c e = c' at hstep ⊢
  cases hstep with
  | dead hd =>
    refine ⟨l, h, ?_⟩
    unfold ledgerStep
    cases e <;> simp [hd]
  | call hd hseg hcall =>
    obtain ⟨k, hagree⟩ := hcall.agrees h he
    refine ⟨_, hagree, ?_⟩
    cases e with
    | segment now isn seg => exact absurd rfl (hseg now isn seg)
    | _ => rfl
  | @reset now isn seg _ hd hrst heq =>
    have hlimit := h.flight.trans (flightLimit_le c.state)
    refine ⟨l, ?_, by simp [ledgerStep, hd, Ledger.take, hrst]⟩
    obtain rfl | rfl := heq <;> exact h.congr rfl rfl rfl hlimit rfl h.fits
  | @segment now isn seg p _ hd hrst hp hsegment =>
    have hs := he hrst
    have hprep := h.prepare hp hs hrst
    suffices hnext : ∃ k, Agrees base { l.take base seg with sent := (l.take base seg).sent + k } c' by
      obtain ⟨k, hagree⟩ := hnext
      exact ⟨_, hagree, by simp [ledgerStep, hd]⟩
    refine hsegment.agrees hprep ?_ ?_ ?_
    · intro hack
      rw [hp.sndUna, if_pos hack]
    · -- in LISTEN nothing is under way, so `snd_una` is `seq_num`
      intro hst hsyn
      have hst' : c.state = .listen := hp.state.symm.trans hst
      have hflight := h.flight
      rw [hst'] at hflight
      dsimp only [flightLimit] at hflight
      rw [hs.syn hst' hsyn, hp.seqNum, h.sndUna, h.seqNum]
      congr 1
      have hle := h.le
      omega
    · intro hst hsyn hack
      rw [hp.initialSeq, hp.seqNum]
      exact hs.synAgain (hp.state.symm.trans hst) hsyn hack

theorem Opened.agrees (h : Opened env c) : Agrees c.snd.sndUna (openingLedger c) c := by
  have hwindow : (UInt32.ofNat tcpDefaultBufferSize).toNat ≤ maxWindow := by decide
  have hfits : (tcpCreateConnection 0).opt.Fits := ⟨Nat.zero_le _, by decide⟩
  cases h with
  | incoming now socket =>
    exact ⟨rfl, rfl, rfl, le_refl _, le_refl _, hwindow, hfits⟩
  | connect now isn socket =>
    have hstart : Agrees isn ⟨0, 0⟩ (connecting now isn) :=
      ⟨rfl, (Seq32.seqAt_zero isn).symm, (Seq32.seqAt_zero isn).symm, le_refl _, Nat.zero_le _, hwindow,
        hfits⟩
    obtain ⟨k, hk, d, hem, hd⟩ := tcpConnect_cases env now isn socket
    have hsyn : Agrees isn ⟨k, 0⟩ d := by
      simpa using hstart.emits hem (by simpa [connecting, flightLimit] using hk)
    have hagree : Agrees isn ⟨k, 0⟩ (tcpConnect env now isn socket) := by
      obtain ⟨own, heq⟩ | heq := hd <;> rw [heq] <;>
        exact hsyn.congr rfl rfl rfl hsyn.flight rfl hsyn.fits
    have huna : (tcpConnect env now isn socket).snd.sndUna = isn := by simpa using hagree.sndUna
    rw [openingLedger, huna, hagree.wire]
    exact hagree

theorem run_agrees {es : List Event} (h : Agrees base l c) (hes : Admissible env InOrder c es) :
    Agrees base (ledger env base c l es) (run env c es) := by
  induction es generalizing c l with
  | nil => exact h
  | cons e es ih => exact ih (step_agrees h hes.1) hes.2

/-! ### Runs -/

theorem Ledger.acked_le_take (base : UInt32) (l : Ledger) (seg : TcpSegment) :
    l.acked ≤ (l.take base seg).acked := by
  unfold Ledger.take Ledger.ack
  dsimp only
  split_ifs
  · exact Nat.le_add_right _ _
  · exact le_refl _
  · exact le_refl _

section
variable (env : TcpEnv) (base : UInt32) (c : TcpConnection) (l : Ledger)

theorem acked_le_ledger (es : List Event) : l.acked ≤ (ledger env base c l es).acked := by
  induction es generalizing c l with
  | nil => exact le_refl _
  | cons e es ih =>
    refine le_trans ?_ (ih (step env c e) (ledgerStep env base c l e))
    unfold ledgerStep
    cases e with
    | segment now isn seg =>
      split_ifs
      · exact le_refl _
      · exact l.acked_le_take base seg
    | _ => exact le_refl _

theorem ledger_append (es fs : List Event) :
    ledger env base c l (es ++ fs) = ledger env base (run env c es) (ledger env base c l es) fs := by
  induction es generalizing c l with
  | nil => rfl
  | cons e es ih => exact ih (step env c e) (ledgerStep env base c l e)

end

end Agreement

/-- `seq_num` and `snd_una` are the counts of the ledger, nothing unsent is acknowledged, and
the in-flight count of `tcp_send` is what is sent and not acknowledged. -/
structure InStep (base : UInt32) (l : Ledger) (c : TcpConnection) : Prop where
  seqNum : c.snd.seqNum = Seq32.seqAt base l.sent
  sndUna : c.snd.sndUna = Seq32.seqAt base l.acked
  acked_le_sent : l.acked ≤ l.sent
  inFlight : c.snd.inFlight.toNat = l.sent - l.acked

/-- **In every run whose events are in order, `seq_num` and `snd_una` are what has been sent
and acknowledged, in every state reached, and `snd_una` never moves back.** -/
theorem snd_una_ledger (env : TcpEnv) (c : TcpConnection) (hc : Opened env c) (es fs : List Event)
    (hes : Admissible env InOrder c (es ++ fs)) :
    InStep c.snd.sndUna (ledger env c.snd.sndUna c (openingLedger c) es) (run env c es) ∧
      (ledger env c.snd.sndUna c (openingLedger c) es).acked ≤
        (ledger env c.snd.sndUna c (openingLedger c) (es ++ fs)).acked := by
  have h := run_agrees hc.agrees hes.split.1
  refine ⟨⟨h.seqNum, h.sndUna, h.le, h.inFlight⟩, ?_⟩
  rw [ledger_append]
  exact acked_le_ledger env _ _ _ fs

/-- A connection opened by us with two bytes under way. -/
def twoBytesSent : List Event := [.segment 5 0 peerSynAck, .send 6 [65, 66]]

/-- The peer acknowledges the first of them. -/
theorem snd_una_ledger_session :
    InStep 1000 ⟨3, 1⟩ (run .reliable (tcpConnect .reliable 0 1000 true) twoBytesSent) ∧
      (ledger .reliable 1000 (tcpConnect .reliable 0 1000 true) ⟨1, 0⟩
        (twoBytesSent ++ [.segment 7 0 (peerSegment .onlyAck 1002)])).acked = 2 := by
  have h := snd_una_ledger .reliable (tcpConnect .reliable 0 1000 true) (.connect 0 1000 true) twoBytesSent
    [.segment 7 0 (peerSegment .onlyAck 1002)]
    ⟨fun _ => ⟨by decide +kernel, by decide +kernel, by decide +kernel, by decide +kernel, by decide +kernel⟩, trivial,
      fun _ => ⟨by decide +kernel, by decide +kernel, by decide +kernel, by decide +kernel, by decide +kernel⟩, trivial⟩
  exact ⟨h.1, by decide +kernel⟩

/-- One acknowledgement from before the connection moves `snd_una` back. -/
theorem snd_una_moves_back :
    ¬ ∀ env c es, Opened env c →
      InStep c.snd.sndUna (ledger env c.snd.sndUna c (openingLedger c) es) (run env c es) := by
  intro h
  have hback := (h .reliable _ [.segment 5 0 peerSynAck, .segment 6 0 (peerSegment .onlyAck 500)]
    (.connect 0 1000 true)).sndUna
  revert hback
  decide +kernel

end InDevOS.Net.Tcp
