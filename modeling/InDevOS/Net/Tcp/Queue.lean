import Mathlib
import InDevOS.Net.Tcp.Effects

/-! The retransmission queue.

Data and our FIN may leave the queue when the peer has acknowledged them, when a valid RST
ends the connection, or when the retries are used up (`Released`). The code also empties the queue
at a FIN with ACK in FIN_WAIT_1, at any ACK in LAST_ACK, at any RST, and whenever it
destroys a connection; and it takes the number of an ACK on trust. In a run where these
steps find nothing left to lose (`KeepsQueue`), entries leave only when released
(`queue_removal`). -/
namespace InDevOS.Net.Tcp

open InDevOS.Lib

/-- A RST the peer can have sent: in SYN_SENT it acknowledges our SYN, in the other states
its number lies in the receive window. -/
def ValidRst (c : TcpConnection) (seg : TcpSegment) : Prop :=
  (c.state = .synSent → seg.flags.ack = true ∧ seg.ackNum = c.snd.seqNum) ∧
    (c.state ≠ .synSent →
      (seg.seqNum - c.rcv.ackNum).toNat < max 1 (tcpRecvBufferSize - c.rcv.used))

/-- The reasons for which an event may take an entry off the queue. -/
inductive Released (c : TcpConnection) : Event → RetransmitEntry → Prop
  | acked {now : UInt64} {isn : UInt32} {seg : TcpSegment} {x : RetransmitEntry}
      (hack : seg.flags.ack) (hacc : c.snd.Acceptable seg.ackNum) (hcov : x.coveredBy seg.ackNum) :
      Released c (.segment now isn seg) x
  | reset {now : UInt64} {isn : UInt32} {seg : TcpSegment} (x : RetransmitEntry)
      (hrst : seg.flags.rst) (hvalid : ValidRst c seg) : Released c (.segment now isn seg) x
  | gaveUp {now : UInt64} (x : RetransmitEntry) (hex : exhausted now c.snd.queue) :
      Released c (.tick now) x

/-- The queue holds no data and no FIN, at most our SYN. -/
def OnlySyn (q : List RetransmitEntry) : Prop := ∀ x ∈ q, x.flags.syn = true

/-- An acknowledgement covers all data and the FIN in the queue. -/
def CoversAll (ackNum : UInt32) (q : List RetransmitEntry) : Prop :=
  ∀ x ∈ q, x.flags.syn = false → x.coveredBy ackNum = true

/-- It covers none of it, as one that comes late. -/
def CoversNone (ackNum : UInt32) (q : List RetransmitEntry) : Prop :=
  ∀ x ∈ q, x.flags.syn = false → x.coveredBy ackNum = false

section
variable (c : TcpConnection)

/-- What may have happened to an entry that an event has taken off the queue. -/
def Removed (e : Event) (x : RetransmitEntry) : Prop :=
  x.flags.syn = false → Released c e x

/-- From `c` to `c'` the queue has lost entries with `P` from its front, and the others have
kept their place and their content. -/
def Removes (P : RetransmitEntry → Prop) (c c' : TcpConnection) : Prop :=
  ∃ dropped kept added, c.snd.queue = dropped ++ kept ∧ (∀ x ∈ dropped, P x) ∧
    c'.snd.queue.map RetransmitEntry.content = (kept ++ added).map RetransmitEntry.content

/-- The places where an ACK makes the code flush the queue: in LAST_ACK always, in FIN_WAIT_1
when a FIN comes with it. -/
def Flushes (seg : TcpSegment) : Prop :=
  c.state = .lastAck ∨
    (c.state = .finWait1 ∧ seg.flags.fin = true ∧ (takeTextInOrder c.rcv seg).2 = true)

/-- The condition on a segment: a RST that matters, or an acknowledgement that covers data, is one
the peer can have sent, and a flush finds everything acknowledged. -/
def SegmentKeepsQueue (seg : TcpSegment) : Prop :=
  (seg.flags.rst = true → OnlySyn c.snd.queue ∨ ValidRst c seg) ∧
  (seg.flags.rst = false → seg.flags.ack = true →
    (CoversNone seg.ackNum c.snd.queue ∨ c.snd.Acceptable seg.ackNum) ∧
    (Flushes c seg → CoversAll seg.ackNum c.snd.queue))

/-- The condition on an event: segments as above, and a connection is destroyed only when
nothing of it is under way. -/
def KeepsQueue : Event → Prop
  | .segment _ _ seg => SegmentKeepsQueue c seg
  | e => Reaps c e → OnlySyn c.snd.queue

end

instance (c : TcpConnection) : (e : Event) → Decidable (Reaps c e)
  | .close _ => inferInstanceAs (Decidable (c.state ≠ _ ∧ c.state ≠ _ ∧ c.state ≠ _))
  | .cleanup now => inferInstanceAs (Decidable (isStale now c = true))
  | .listenerClosed => inferInstanceAs (Decidable (c.own.userChild = true ∧ c.own.accepted = false))
  | .segment .. | .send .. | .read _ | .shutdownWr _ | .accept | .listen | .tick _ =>
    inferInstanceAs (Decidable False)

instance (c : TcpConnection) (seg : TcpSegment) : Decidable (ValidRst c seg) :=
  inferInstanceAs (Decidable ((_ → _ ∧ _) ∧ (_ → _ < _)))

instance (q : List RetransmitEntry) : Decidable (OnlySyn q) :=
  inferInstanceAs (Decidable (∀ x ∈ q, _))

instance (ackNum : UInt32) (q : List RetransmitEntry) : Decidable (CoversAll ackNum q) :=
  inferInstanceAs (Decidable (∀ x ∈ q, _))

instance (ackNum : UInt32) (q : List RetransmitEntry) : Decidable (CoversNone ackNum q) :=
  inferInstanceAs (Decidable (∀ x ∈ q, _))

instance (c : TcpConnection) (seg : TcpSegment) : Decidable (Flushes c seg) :=
  inferInstanceAs (Decidable (_ ∨ _ ∧ _ ∧ _))

instance (c : TcpConnection) (seg : TcpSegment) : Decidable (SegmentKeepsQueue c seg) :=
  inferInstanceAs (Decidable ((_ → _) ∧ (_ → _ → _ ∧ (_ → _))))

instance (c : TcpConnection) : (e : Event) → Decidable (KeepsQueue c e)
  | .segment _ _ seg => inferInstanceAs (Decidable (SegmentKeepsQueue c seg))
  | .close now => inferInstanceAs (Decidable (Reaps c (.close now) → _))
  | .cleanup now => inferInstanceAs (Decidable (Reaps c (.cleanup now) → _))
  | .listenerClosed => inferInstanceAs (Decidable (Reaps c .listenerClosed → _))
  | .send .. | .read _ | .shutdownWr _ | .accept | .listen | .tick _ =>
    inferInstanceAs (Decidable (False → _))

/-! ### Composing -/

section Removing

variable {P : RetransmitEntry → Prop} {c c' c'' : TcpConnection} {a : UInt32}

theorem OnlyCovered.trans {q q' q'' : List RetransmitEntry} (h : OnlyCovered a q q')
    (h' : OnlyCovered a q' q'') : OnlyCovered a q q'' := by
  obtain ⟨dropped, kept, rfl, hdropped, hkept⟩ := h
  obtain ⟨dropped', kept', rfl, hdropped', hkept'⟩ := h'
  rw [List.map_append] at hkept
  obtain ⟨l, r, rfl, hl, hr⟩ := List.map_eq_append_iff.1 hkept.symm
  refine ⟨dropped ++ l, r, (List.append_assoc _ _ _).symm, ?_, hkept'.trans hr.symm⟩
  intro x hx
  obtain hx | hx := List.mem_append.1 hx
  · exact hdropped x hx
  · -- being covered depends on the content only
    obtain ⟨y, hy, hxy⟩ := List.mem_map.1 (hl ▸ List.mem_map_of_mem hx)
    have hend : y.seqEnd = x.seqEnd := congrArg (fun t => t.2.1) hxy
    have hcov := hdropped' y hy
    rwa [RetransmitEntry.coveredBy, hend] at hcov

theorem OnlyCovered.removes (h : OnlyCovered a c.snd.queue c'.snd.queue)
    (hP : ∀ x ∈ c.snd.queue, x.coveredBy a → P x) : Removes P c c' := by
  obtain ⟨dropped, kept, hq, hdropped, hkept⟩ := h
  refine ⟨dropped, kept, [], hq, ?_, by simpa using hkept⟩
  intro x hx
  exact hP x (hq ▸ List.mem_append_left kept hx) (hdropped x hx)

theorem Removes.emits {k : Nat} {d : TcpConnection} (h : Removes P c c') (hem : Emitted k d c'')
    (hd : d.snd.queue = c'.snd.queue) : Removes P c c'' := by
  obtain ⟨dropped, kept, added, hq, hdropped, hkept⟩ := h
  obtain ⟨added', hq'⟩ := hem.queue
  refine ⟨dropped, kept, added ++ added', hq, hdropped, ?_⟩
  rw [hq', hd, List.map_append, hkept]
  simp

theorem Removes.of_queue (h : c'.snd.queue = c.snd.queue) : Removes P c c' :=
  ⟨[], c.snd.queue, [], rfl, by simp, by simp [h]⟩

theorem Removes.refl (c : TcpConnection) : Removes P c c := .of_queue rfl

theorem Removes.all (h : ∀ x ∈ c.snd.queue, P x) (hnil : c'.snd.queue = []) : Removes P c c' :=
  ⟨c.snd.queue, [], [], by simp, h, by simp [hnil]⟩

end Removing

/-! ### Steps -/

section Steps

variable {env : TcpEnv} {c p : TcpConnection} {now : UInt64} {isn : UInt32} {seg : TcpSegment}

theorem KeepsQueue.acked (hk : KeepsQueue c (.segment now isn seg)) (hrst : seg.flags.rst = false)
    (hack : seg.flags.ack = true) {x : RetransmitEntry} (hx : x ∈ c.snd.queue)
    (hcov : x.flags.syn = false → x.coveredBy seg.ackNum) : Removed c (.segment now isn seg) x := by
  intro hdata
  obtain hnone | hacc := (hk.2 hrst hack).1
  · exact absurd ((hnone x hx hdata).symm.trans (hcov hdata)) (by decide)
  · exact .acked hack hacc (hcov hdata)

theorem Prepared.removes (hp : Prepared seg c p) (hk : KeepsQueue c (.segment now isn seg))
    (hrst : seg.flags.rst = false) : Removes (Removed c (.segment now isn seg)) c p := by
  cases hack : seg.flags.ack with
  | false => exact .of_queue (hp.queue_of_not_ack hack)
  | true => exact hp.queue.removes fun x hx hcov => hk.acked hrst hack hx fun _ => hcov

theorem SegmentStep.removes {c' : TcpConnection} (h : SegmentStep isn seg p c') (hp : Prepared seg c p)
    (hk : KeepsQueue c (.segment now isn seg)) (hrst : seg.flags.rst = false) :
    Removes (Removed c (.segment now isn seg)) c c' := by
  have hprep := hp.removes hk hrst
  cases h with
  | ignored => exact hprep
  | syn hs hsyn hk hem => exact hprep.emits hem rfl
  | synAck hs hack s w hsame huna hqueue hext =>
    exact OnlyCovered.removes (hp.queue.trans hqueue) fun x hx hcov => hk.acked hrst hack hx fun _ => hcov
  | synAgain | opened => exact hprep
  | text hs hem | fin hs hfin hend hnext hst hem | textInOrder hs hem => exact hprep.emits hem rfl
  | finInOrder hs hgo hfin hst hem hd =>
    obtain rfl | ⟨hack, hflush⟩ := hd
    · exact hprep.emits hem rfl
    · -- the queue is flushed, so the condition says that all of it is acknowledged
      refine .all (fun x hx => hk.acked hrst hack hx ?_) ?_
      · exact (hk.2 hrst hack).2 (.inr ⟨hp.state.symm.trans hs, hfin, hp.rcv ▸ hgo⟩) x hx
      · obtain rfl | rfl := hflush <;> rfl
  | closed hs hack h =>
    refine .all (fun x hx => hk.acked hrst hack hx ?_) ?_
    · exact (hk.2 hrst hack).2 (.inl (hp.state.symm.trans hs)) x hx
    · obtain rfl | rfl := h <;> rfl

theorem step_removes {e : Event} (hk : KeepsQueue c e) : Removes (Removed c e) c (step env c e) := by
  have h := step_stepped env c e
  generalize step env c e = c' at h ⊢
  cases h with
  | dead => exact .refl c
  | call hd he h =>
    have hreaps : Reaps c e → OnlySyn c.snd.queue := by
      cases e with
      | segment now isn seg => exact absurd rfl (he now isn seg)
      | _ => exact hk
    cases h with
    | own own => exact .of_queue rfl
    | sent hem | read hem => exact (Removes.refl c).emits hem rfl
    | fin own he h =>
      obtain ⟨-, k, -, hem⟩ | ⟨-, k, -, hem⟩ := h <;> exact (Removes.refl c).emits hem rfl
    | destroyed own h =>
      refine .all (fun x hx hdata => ?_) rfl
      rw [hreaps h x hx] at hdata
      cases hdata
    | listen => exact .of_queue rfl
    | timer s w hsame huna hwire hqueue => exact ⟨[], c.snd.queue, [], rfl, by simp, by simpa using hqueue⟩
    | gaveUp s w hsame huna hwire hqueue hex => exact .all (fun x _ _ => .gaveUp x hex) hqueue
  | reset hd hrst h =>
    refine .all ?_ ?_
    · intro x hx hdata
      obtain hsyn | hvalid := hk.1 hrst
      · rw [hsyn x hx] at hdata
        cases hdata
      · exact .reset x hrst hvalid
    · obtain rfl | rfl := h <;> rfl
  | segment hd hrst hp h => exact h.removes hp hk hrst

end Steps

/-- **In every run whose steps meet the condition, data and FIN leave the retransmission queue
only when the peer has acknowledged them, a valid RST has come, or the retries are used up.** -/
theorem queue_removal (env : TcpEnv) (c : TcpConnection) (es : List Event)
    (hes : Admissible env KeepsQueue c es) :
    Admissible env (fun c e => Removes (Removed c e) c (step env c e)) c es := by
  induction es generalizing c with
  | nil => trivial
  | cons e es ih => exact ⟨step_removes hes.1, ih (step env c e) hes.2⟩

/-- A connection opened by us that has one byte and our FIN under way. -/
def halfClosed : List Event :=
  [.segment 5 0 peerSynAck, .send 6 [65], .shutdownWr 7]

/-- The peer closes after it has acknowledged both: the condition is met. -/
theorem queue_removal_acked :
    Admissible .reliable (fun c e => Removes (Removed c e) c (step .reliable c e))
      (tcpConnect .reliable 0 1000 true) (halfClosed ++ [.segment 8 0 (peerSegment .finAck 1003)]) := by
  refine queue_removal .reliable _ _ ⟨?_, ?_, ?_, ?_, trivial⟩
  · decide +kernel
  · decide +kernel
  · decide +kernel
  · decide +kernel

/-- The same connection loses its byte and its FIN when the peer closes without having seen
either. -/
theorem queue_removal_fails :
    ¬ ∀ env c es, Opened env c →
      Admissible env (fun c e => Removes (Removed c e) c (step env c e)) c es := by
  intro h
  set c := run .reliable (tcpConnect .reliable 0 1000 true) halfClosed with hc
  set seg := peerSegment .finAck 1001 with hseg
  have hsteps := h .reliable _ (halfClosed ++ [.segment 8 0 seg]) (.connect 0 1000 true)
  obtain ⟨dropped, kept, added, hq, hdropped, hkept⟩ := hsteps.split.2.1
  have hempty : (step .reliable c (.segment 8 0 seg)).snd.queue = [] := by decide +kernel
  have hlost : ∃ x ∈ c.snd.queue, x.flags.syn = false ∧ x.coveredBy 1001 = false := by decide +kernel
  have hkept : kept = [] := by simp_all
  obtain ⟨x, hx, hdata, hcov⟩ := hlost
  rw [hq, hkept, List.append_nil] at hx
  cases hdropped x hx hdata with
  | acked hack hacc hcov' => exact absurd hcov' (by simp [hseg, peerSegment, hcov])
  | reset x hrst hvalid => exact absurd hrst (by simp [hseg, peerSegment, TcpFlags.finAck])

end InDevOS.Net.Tcp
