import Mathlib
import InDevOS.Net.Tcp.Effects

/-! Completing the handshake.

The two handshake states test the flags of a segment and nothing else: a SYN-ACK in
SYN_SENT and any ACK in SYN_RECEIVED open the connection. So the handshake proves the peer
has seen our SYN in just those runs whose completing segments happen to acknowledge it
(`handshake_isn`); a sender who guesses nothing can complete it
(`handshake_blind`). -/
namespace InDevOS.Net.Tcp

/-- The states in which a handshake is under way. -/
def TcpState.opening (s : TcpState) : Prop := s = .synSent ∨ s = .synReceived

/-- The flags that open a connection in its state. -/
def Completes (c : TcpConnection) (seg : TcpSegment) : Prop :=
  c.destroyed = false ∧ seg.flags.rst = false ∧ seg.flags.ack = true ∧
    ((c.state = .synSent ∧ seg.flags.syn = true) ∨ c.state = .synReceived)

/-- A segment that opens the connection acknowledges our initial sequence number. -/
def AcksIsn (c : TcpConnection) : Event → Prop
  | .segment _ _ seg => Completes c seg → seg.ackNum = c.snd.initialSeq + 1
  | _ => True

/-- If the event takes the connection out of the handshake into ESTABLISHED, it is a
segment that acknowledges our initial sequence number. -/
def OpensOnIsn (env : TcpEnv) (c : TcpConnection) (e : Event) : Prop :=
  c.state.opening → (step env c e).state = .established →
    ∃ now isn seg, e = .segment now isn seg ∧ seg.ackNum = c.snd.initialSeq + 1

theorem TcpState.opening.ne {s : TcpState} (h : s.opening) :
    s ≠ .established ∧ s ≠ .closeWait ∧ s ≠ .listen ∧ s ≠ .lastAck := by
  obtain rfl | rfl := h <;> exact ⟨nofun, nofun, nofun, nofun⟩

variable {env : TcpEnv} {c : TcpConnection}

/-- Our FIN is never sent from a handshake. -/
theorem SendsFin.not_opening {c' : TcpConnection} (h : SendsFin c c') : ¬ c.state.opening := by
  intro hopen
  obtain h | h := h
  · exact hopen.ne.1 h.state
  · exact hopen.ne.2.1 h.state

/-- No local call and no timer opens a connection. -/
theorem step_not_established {e : Event} (hopen : c.state.opening)
    (he : ∀ now isn seg, e ≠ .segment now isn seg) : (step env c e).state ≠ .established := by
  have hne := hopen.ne.1
  have h := step_stepped env c e
  generalize step env c e = c' at h ⊢
  cases h with
  | dead => exact hne
  | call hd he h =>
    cases h with
    | own own => exact hne
    | sent hem | read hem => exact hem.state ▸ hne
    | fin own he h => exact absurd hopen h.not_opening
    | destroyed own h => exact hne
    | listen => exact nofun
    | timer s w hsame huna hwire hqueue => exact hne
    | gaveUp s w hsame huna hwire hqueue hex => exact nofun
  | reset | segment => exact absurd rfl (he _ _ _)

/-- A segment opens the connection just when its flags complete the handshake. -/
theorem segment_opens_iff {now : UInt64} {isn : UInt32} {seg : TcpSegment} (hopen : c.state.opening) :
    (step env c (.segment now isn seg)).state = .established ↔ Completes c seg := by
  unfold Completes
  cases hd : c.destroyed with
  | true =>
    rw [step_destroyed env hd]
    refine ⟨fun h => absurd h hopen.ne.1, ?_⟩
    rintro ⟨h, -⟩
    cases h
  | false =>
    cases hrst : seg.flags.rst with
    | true =>
      rw [step_rst env now isn hd hrst]
      obtain heq | heq := handleRst_cases { c with lastActivity := now }
      all_goals simp [heq, tcpDestroyConnection, tcpRetransmitFlush]
    | false =>
      obtain ⟨p, hp, heq⟩ := step_segment env now isn hd hrst
      rw [heq]
      obtain hs | hs := hopen
      · have hst : p.state = .synSent := hp.state.trans hs
        obtain ⟨s, w, hsyn, -⟩ := handleSynSent_eq env now p seg
        simp only [switchState, hst, hsyn]
        cases seg.flags.syn <;> cases seg.flags.ack <;> simp [hs, hst, establish]
      · have hst : p.state = .synReceived := hp.state.trans hs
        obtain ⟨w, hre, -⟩ := sendAt_eq env p .synAck [] (tcpSynOptions p.opt true) p.snd.initialSeq
        simp only [switchState, hst, handleSynReceived, hre]
        cases seg.flags.syn <;> cases seg.flags.ack <;> simp [hs, hst, establish]

theorem opensOnIsn_iff (c : TcpConnection) (e : Event) : OpensOnIsn env c e ↔ AcksIsn c e := by
  by_cases he : ∀ now isn seg, e ≠ .segment now isn seg
  · constructor
    · intro _
      cases e with
      | segment now isn seg => exact absurd rfl (he now isn seg)
      | _ => trivial
    · intro _ hopen hest
      exact absurd hest (step_not_established hopen he)
  · push Not at he
    obtain ⟨now, isn, seg, rfl⟩ := he
    constructor
    · intro h hcompletes
      have hopen : c.state.opening := hcompletes.2.2.2.imp (fun h => h.1) id
      obtain ⟨now', isn', seg', heq, hack⟩ := h hopen ((segment_opens_iff hopen).2 hcompletes)
      cases heq
      exact hack
    · intro h hopen hest
      exact ⟨now, isn, seg, rfl, h ((segment_opens_iff hopen).1 hest)⟩

/-- **The handshake is sound in just those runs in which every segment that completes it
acknowledges our initial sequence number**; the code does not ask for it. -/
theorem handshake_isn (env : TcpEnv) (c : TcpConnection) (es : List Event) :
    Admissible env (OpensOnIsn env) c es ↔ Admissible env AcksIsn c es := by
  induction es generalizing c with
  | nil => exact Iff.rfl
  | cons e es ih => exact and_congr (opensOnIsn_iff c e) (ih (step env c e))

/-- A SYN-ACK from someone who has not seen our SYN. -/
def blindSynAck : TcpSegment where
  seqNum := 7
  ackNum := 0
  flags := .synAck
  window := 8192
  options := []
  payload := []

/-- One such segment completes the handshake of a connection with initial number 1000. -/
theorem handshake_blind : ¬ ∀ env c es, Opened env c → Admissible env (OpensOnIsn env) c es := by
  intro h
  have hopens := (h .reliable _ [.segment 5 0 blindSynAck] (.connect 0 1000 true)).1
  have hack := (opensOnIsn_iff _ _).1 hopens ⟨rfl, rfl, rfl, .inl ⟨rfl, rfl⟩⟩
  revert hack
  decide

end InDevOS.Net.Tcp
