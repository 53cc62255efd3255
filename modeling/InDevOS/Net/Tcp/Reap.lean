import InDevOS.Net.Tcp.Effects

/-! Abandoned connections.

`tcp_cleanup_stale_connections` releases connections that no socket holds and that have
been idle for long, but only in the states it names. An abandoned connection can rest in
four others: a child that was never accepted in LISTEN, ESTABLISHED or CLOSE_WAIT, and one
that its owner closed in FIN_WAIT_1, once our FIN is acknowledged and the peer's does not
come. With nothing left to retransmit such a connection stays for good
(`abandoned_released_iff`). FIN_WAIT_2 is not among them: no transition leads there. -/
namespace InDevOS.Net.Tcp

/-! ### States a connection can be in -/

section States
variable {env : TcpEnv} {c : TcpConnection}

theorem SegmentStep.not_finWait2 {isn : UInt32} {p c' : TcpConnection} {seg : TcpSegment}
    (h : SegmentStep isn seg p c') (hp : p.state ≠ .finWait2) : c'.state ≠ .finWait2 := by
  cases h with
  | ignored => exact hp
  | syn hs hsyn hk hem => exact hem.state.trans_ne nofun
  | synAck => nofun
  | synAgain => exact hp
  | opened => nofun
  | text hs hem => exact hem.state ▸ hp
  | fin hs hfin hend hnext hst hem =>
    rw [hem.state]
    obtain ⟨rfl, -⟩ | ⟨rfl, -⟩ := hst <;> nofun
  | textInOrder hs hem => exact hem.state ▸ hp
  | @finInOrder _ d _ hs hgo hfin hst hem hd =>
    have hstate : d.state ≠ .finWait2 := by
      rw [hem.state]
      obtain rfl | rfl := hst <;> nofun
    obtain rfl | ⟨-, rfl | rfl⟩ := hd <;> exact hstate
  | closed hs hack h => obtain rfl | rfl := h <;> nofun

theorem step_finWait2 (e : Event) (hc : c.state ≠ .finWait2) : (step env c e).state ≠ .finWait2 := by
  have h := step_stepped env c e
  generalize step env c e = c' at h ⊢
  cases h with
  | dead => exact hc
  | call hd he h =>
    cases h with
    | own own => exact hc
    | sent hem | read hem => exact hem.state ▸ hc
    | fin own he h =>
      obtain ⟨-, k, -, hem⟩ | ⟨-, k, -, hem⟩ := h <;> rw [hem.state] <;> nofun
    | destroyed own h => exact hc
    | listen => nofun
    | timer s w => exact hc
    | gaveUp s w => nofun
  | reset hd hrst h => obtain rfl | rfl := h <;> nofun
  | segment hd hrst hp h => exact h.not_finWait2 (hp.state ▸ hc)

/-- No run leads to FIN_WAIT_2. -/
theorem run_finWait2 (env : TcpEnv) (es : List Event) (hc : c.state ≠ .finWait2) : (run env c es).state ≠ .finWait2 := by
  induction es generalizing c with
  | nil => exact hc
  | cons e es ih => exact ih (step_finWait2 e hc)

theorem Opened.not_finWait2 (h : Opened env c) : c.state ≠ .finWait2 := by
  cases h with
  | connect now isn socket =>
    obtain ⟨k, -, d, hem, ⟨own, heq⟩ | heq⟩ := tcpConnect_cases env now isn socket
    · rw [heq]
      exact hem.state.trans_ne (by nofun)
    · rw [heq]
      exact hem.state.trans_ne (by nofun)
  | incoming now socket => nofun

end States

/-! ### The reaper -/

/-- After the run no socket holds the connection: its owner closed it, or it is the child
of a listening socket that nobody accepted. -/
def Abandoned (env : TcpEnv) (c : TcpConnection) (es : List Event) : Prop :=
  (run env c es).own.owned = false ∧
    ((∃ now, Event.close now ∈ es) ∨
      (run env c es).own.userChild = true ∧ (run env c es).own.accepted = false)

/-- The states in which the reaper leaves a connection alone. -/
def TcpState.resting (s : TcpState) : Prop :=
  s = .listen ∨ s = .established ∨ s = .finWait1 ∨ s = .closeWait

/-- The timers that look at every connection. -/
def Event.periodic : Event → Prop
  | .tick _ | .cleanup _ => True
  | _ => False

theorem TcpState.resting.not_stale {c : TcpConnection} (h : c.state.resting) (now : UInt64) :
    isStale now c = false := by
  unfold isStale
  obtain h | h | h | h := h <;> simp [h]

/-- Timers do nothing to a connection that rests with an empty queue. -/
theorem step_resting (env : TcpEnv) {c : TcpConnection} {e : Event} (he : e.periodic)
    (hs : c.state.resting) (hq : c.snd.queue = []) : step env c e = c := by
  unfold step
  split
  · rfl
  · cases e with
    | tick now =>
      show tcpRetransmitCheckLoop env now c [] c.snd.queue = c
      rw [hq, tcpRetransmitCheckLoop, List.reverse_nil, ← hq]
    | cleanup now =>
      show tcpCleanupStale now c = c
      rw [tcpCleanupStale, hs.not_stale]
      rfl
    | _ => exact absurd he id

/-- **The next cleanup releases an abandoned connection that has been idle for more than
two minutes exactly when it is in SYN_SENT, SYN_RECEIVED, CLOSING, LAST_ACK, TIME_WAIT or
CLOSED.** In another state, with nothing left to retransmit, it outlives every timer. -/
theorem abandoned_released_iff (env : TcpEnv) (c : TcpConnection) (es : List Event) (now : UInt64)
    (hc : Opened env c) (hab : Abandoned env c es) (hlive : (run env c es).destroyed = false)
    (hidle : tcpStaleConnTimeout < now - (run env c es).lastActivity) :
    ((step env (run env c es) (.cleanup now)).destroyed = true ↔
        (run env c es).state ∈ [.synSent, .synReceived, .closing, .lastAck, .timeWait, .closed]) ∧
      ((run env c es).state ∉ [.synSent, .synReceived, .closing, .lastAck, .timeWait, .closed] →
        (run env c es).snd.queue = [] → ∀ later : List Event, (∀ e ∈ later, e.periodic) →
        (run env (run env c es) later).destroyed = false) := by
  have hnot := run_finWait2 env es hc.not_finWait2
  obtain ⟨howned, -⟩ := hab
  generalize run env c es = d at *
  have hrest : d.state ∉ [.synSent, .synReceived, .closing, .lastAck, .timeWait, .closed] →
      d.state.resting := by
    intro h
    unfold TcpState.resting
    cases hs : d.state <;> simp_all
  refine ⟨?_, fun hs hq later hlater => ?_⟩
  · have hstep : step env d (.cleanup now) = tcpCleanupStale now d := by simp [step, hlive]
    rw [hstep, tcpCleanupStale]
    have hwait : tcpTimeWaitTimeout < now - d.lastActivity :=
      UInt64.lt_trans (by decide) hidle
    by_cases hs : d.state ∈ [.synSent, .synReceived, .closing, .lastAck, .timeWait, .closed]
    · have hstale : isStale now d = true := by
        simp only [List.mem_cons, List.not_mem_nil, or_false] at hs
        unfold isStale
        obtain h | h | h | h | h | h := hs <;> simp [h, howned, hidle, hwait]
      rw [hstale]
      exact iff_of_true rfl hs
    · rw [(hrest hs).not_stale]
      exact iff_of_false (by simp [hlive]) hs
  · have : run env d later = d := by
      induction later with
      | nil => rfl
      | cons e later ih =>
        have he := step_resting env (hlater e List.mem_cons_self) (hrest hs) hq
        rw [run, List.foldl_cons, he]
        exact ih fun e he => hlater e (List.mem_cons_of_mem _ he)
    rw [this]
    exact hlive

/-- Our side closes, the peer closes without acknowledging, and both fall silent. -/
theorem abandoned_released_closing :
    (step .reliable (run .reliable (tcpConnect .reliable 0 1000 true)
      [.segment 5 0 peerSynAck, .close 6, .segment 7 0 (peerSegment ⟨true, false, false, false, false⟩ 0)])
      (.cleanup 120008)).destroyed = true :=
  (abandoned_released_iff .reliable _ _ 120008 (.connect 0 1000 true)
    ⟨by decide +kernel, .inl ⟨6, by simp⟩⟩ (by decide +kernel) (by decide +kernel)).1.mpr
    (by decide +kernel)

/-- A child of a listening socket that nobody accepts: a SYN, the ACK of our answer, and
silence. Weeks later the cleanup still leaves it, like a connection whose owner has closed
it and whose peer has acknowledged our FIN and sends nothing more. -/
theorem abandoned_kept :
    (∃ es, es = [.segment 1 500 (peerSegment .onlySyn 0), .segment 2 0 (peerSegment .onlyAck 501)] ∧
      Abandoned .reliable (tcpIncoming 0 true) es ∧
      (run .reliable (tcpIncoming 0 true) es).state = .established ∧
      (step .reliable (run .reliable (tcpIncoming 0 true) es) (.cleanup 3000000000)).destroyed = false) ∧
    (∃ es, es = [.segment 5 0 peerSynAck, .close 6, .segment 7 0 (peerSegment .onlyAck 1002)] ∧
      Abandoned .reliable (tcpConnect .reliable 0 1000 true) es ∧
      (run .reliable (tcpConnect .reliable 0 1000 true) es).state = .finWait1 ∧
      (run .reliable (tcpConnect .reliable 0 1000 true) es).snd.queue = [] ∧
      (step .reliable (run .reliable (tcpConnect .reliable 0 1000 true) es)
        (.cleanup 3000000000)).destroyed = false) := by
  refine ⟨⟨_, rfl, ⟨by decide +kernel, .inr ?_⟩, ?_, ?_⟩,
    ⟨_, rfl, ⟨by decide +kernel, .inl ⟨6, by simp⟩⟩, ?_, ?_, ?_⟩⟩
  all_goals decide +kernel

end InDevOS.Net.Tcp
