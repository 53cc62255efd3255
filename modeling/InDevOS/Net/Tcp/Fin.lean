import Mathlib
import InDevOS.Net.Tcp.Effects

/-! The end of the peer's stream.

`ack_num` moves with the bytes taken in order: it is always the number after them
(`RecvSide.Accepts`), and ESTABLISHED takes a FIN only there. So in a run in which FIN_WAIT_1
is sent no bare FIN out of order, and no RST and no exhausted timer ends the connection
first, the end of the stream is reported and the FIN acknowledged only after every byte
before it (`fin_in_order`). FIN_WAIT_1 itself does not look at the number of a bare FIN
(`fin_in_order_fails`). -/
namespace InDevOS.Net.Tcp

open InDevOS.Lib

/-! ### Taking bytes in order -/

/-- From `r` to `r'`, `k` bytes have been taken in order and `ack_num` has moved past them. -/
structure RecvSide.Accepts (k : Nat) (r r' : RecvSide) : Prop where
  accepted : r'.accepted = r.accepted + k
  ackNum : r'.ackNum = r.ackNum + UInt32.ofNat k
  irs : r'.irs = r.irs
  fin : r'.fin = r.fin

namespace RecvSide

variable {r r' r'' : RecvSide} {k l : Nat}

theorem Accepts.refl (r : RecvSide) : Accepts 0 r r := ⟨rfl, (UInt32.add_zero _).symm, rfl, rfl⟩

theorem Accepts.trans (h : Accepts k r r') (h' : Accepts l r' r'') : Accepts (k + l) r r'' where
  accepted := by rw [h'.accepted, h.accepted, Nat.add_assoc]
  ackNum := by rw [h'.ackNum, h.ackNum, UInt32.ofNat_add, UInt32.add_assoc]
  irs := h'.irs.trans h.irs
  fin := h'.fin.trans h.fin

theorem Accepts.setOoo (h : Accepts k r r') (ooo : List (UInt32 × UInt32)) :
    Accepts k r { r' with ooo := ooo } := ⟨h.accepted, h.ackNum, h.irs, h.fin⟩

section
variable (r : RecvSide)

/-- In-order text, with `ack_num` put behind what fitted. -/
theorem accepts_data (data : List UInt8) : Accepts (tcpHandleData r data).2 r { (tcpHandleData r data).1 with
        ackNum := r.ackNum + UInt32.ofNat (tcpHandleData r data).2 } :=
  ⟨(Nat.add_assoc _ _ _).symm, rfl, rfl, rfl⟩

theorem accepts_store (off : Nat) (data : List UInt8) : Accepts 0 r (tcpOooStore r off data) := by
  unfold tcpOooStore
  dsimp only
  split_ifs
  · exact .refl r
  · exact .refl r
  · exact ⟨rfl, (UInt32.add_zero _).symm, rfl, rfl⟩

theorem accepts_mergeLoop (ranges : List (UInt32 × UInt32)) :
    ∃ k, Accepts k r (tcpOooMergeLoop r ranges).1 := by
  induction ranges generalizing r with
  | nil => exact ⟨0, .refl r⟩
  | cons se ranges ih =>
    obtain ⟨s, e⟩ := se
    rw [tcpOooMergeLoop]
    by_cases hcovered : Seq32.sdiff e r.ackNum ≤ 0
    · rw [if_pos hcovered]
      exact ih r
    · rw [if_neg hcovered]
      split_ifs
      · obtain ⟨k, hk⟩ := ih (r.extend (min (e - r.ackNum).toNat (tcpRecvBufferSize - r.used)))
        have hext : Accepts (min (e - r.ackNum).toNat (tcpRecvBufferSize - r.used)) r
            (r.extend (min (e - r.ackNum).toNat (tcpRecvBufferSize - r.used))) :=
          ⟨(Nat.add_assoc _ _ _).symm, rfl, rfl, rfl⟩
        exact ⟨_, hext.trans hk⟩
      · exact ih r

/-- Whatever the text of a segment, `ack_num` moves by the bytes taken. -/
theorem accepts_takeText (callback : Bool) (seg : TcpSegment) :
    ∃ k, Accepts k r (takeText r callback seg).1 := by
  unfold takeText
  by_cases hnil : seg.payload = []
  · rw [if_pos hnil]
    exact ⟨0, .refl r⟩
  · dsimp only
    by_cases hoff : Seq32.sdiff (trim r.ackNum seg).1 r.ackNum = 0
    · rw [if_neg (not_not.2 hoff), Seq32.sdiff_eq_zero.1 hoff]
      have hdata := accepts_data r (trim r.ackNum seg).2
      split_ifs
      · exact ⟨_, hdata⟩
      · obtain ⟨k, hk⟩ := accepts_mergeLoop _ _
        exact ⟨_, hdata.trans (hk.setOoo _)⟩
    · rw [if_pos hoff]
      split_ifs
      · exact ⟨0, accepts_store r _ _⟩
      · exact ⟨0, .refl r⟩

theorem accepts_takeTextInOrder (seg : TcpSegment) : ∃ k, Accepts k r (takeTextInOrder r seg).1 := by
  unfold takeTextInOrder
  split_ifs
  · exact ⟨0, .refl r⟩
  · exact ⟨_, accepts_data r seg.payload⟩
  · exact ⟨0, .refl r⟩

theorem accepts_read (len : Nat) : Accepts 0 r (tcpRingRead r len) := by
  unfold tcpRingRead
  dsimp only
  split_ifs with hnone
  · exact .refl r
  all_goals
    refine ⟨?_, (UInt32.add_zero _).symm, rfl, rfl⟩
    simp only [accepted, List.length_append, Ring.length_copyOut]
    omega

end

end RecvSide

/-- Cutting off what we have leaves the end of a segment where it is. -/
theorem trim_end (ackNum : UInt32) (seg : TcpSegment) :
    (trim ackNum seg).1 + UInt32.ofNat (trim ackNum seg).2.length =
      seg.seqNum + UInt32.ofNat seg.payload.length := by
  unfold trim
  dsimp only
  split_ifs with hold
  · have hle : (-Seq32.sdiff seg.seqNum ackNum).toNat ≤ seg.payload.length := by
      obtain ⟨-, h | h⟩ := hold <;> omega
    have hback := Seq32.add_neg_sdiff hold.1
    rw [List.length_drop, ← hback, UInt32.add_assoc, ← UInt32.ofNat_add]
    congr 2
    rw [hback]
    omega
  · rfl

/-! ### The condition and the property -/

/-- The condition on an event: a bare FIN in FIN_WAIT_1 comes at `ack_num`, nothing but a FIN
ends the stream, and `listen` is called on a listening connection only. -/
def Orderly (c : TcpConnection) : Event → Prop
  | .segment _ _ seg =>
    (seg.flags.rst = true → tcpConnAtEof c = true) ∧
    (seg.flags.rst = false → c.state = .finWait1 → seg.flags.fin = true → seg.payload = [] →
      seg.seqNum = c.rcv.ackNum)
  | .tick now => exhausted now c.snd.queue → tcpConnAtEof c = true
  | .listen => c.state = .listen
  | _ => True

/-- The states between the handshake and the peer's FIN. -/
def TcpState.receiving (s : TcpState) : Prop :=
  s = .synReceived ∨ s = .established ∨ s = .finWait1 ∨ s = .finWait2

/-- The end of the stream is reported only once the FIN is acknowledged, the FIN acknowledged
is the number after the bytes taken in order, and until then `ack_num`, which every segment
we send carries, is that number. -/
structure FinSound (c : TcpConnection) : Prop where
  eof : tcpConnAtEof c = true → c.rcv.fin ≠ none
  fin : ∀ f, c.rcv.fin = some f → f = Seq32.seqAt (c.rcv.irs + 1) c.rcv.accepted
  ack : c.state.receiving → c.rcv.fin = none → c.rcv.ackNum = Seq32.seqAt (c.rcv.irs + 1) c.rcv.accepted

/-- The FIN an event makes us acknowledge is that of its segment. -/
def FinFromSegment (env : TcpEnv) (c : TcpConnection) (e : Event) : Prop :=
  ∀ f, c.rcv.fin = none → (step env c e).rcv.fin = some f →
    ∃ now isn seg, e = .segment now isn seg ∧ seg.flags.fin = true ∧
      f = seg.seqNum + UInt32.ofNat seg.payload.length

/-! ### The invariant -/

/-- Nothing taken yet. -/
def RecvSide.Untouched (r : RecvSide) : Prop := r.accepted = 0 ∧ r.fin = none

/-- The stream is open, and `ack_num` is the number after the bytes taken. -/
def RecvSide.Running (r : RecvSide) : Prop :=
  r.fin = none ∧ r.ackNum = Seq32.seqAt (r.irs + 1) r.accepted

/-- The stream has ended after the bytes taken. -/
def RecvSide.Ended (r : RecvSide) : Prop := r.fin = some (Seq32.seqAt (r.irs + 1) r.accepted)

/-- What holds of the receiving half in each state. -/
def FinInv (st : TcpState) (r : RecvSide) : Prop :=
  match st with
  | .listen | .synSent => r.Untouched
  | .synReceived | .established | .finWait1 | .finWait2 => r.Running
  | .closeWait | .closing | .lastAck | .timeWait | .closed => r.Ended

section Invariant

variable {env : TcpEnv} {c c' p : TcpConnection} {r r' : RecvSide} {st : TcpState} {seg : TcpSegment}
  {now : UInt64} {isn : UInt32} {k : Nat}

theorem RecvSide.Running.accepts (h : r.Running) (ha : Accepts k r r') : r'.Running := by
  refine ⟨ha.fin.trans h.1, ?_⟩
  rw [ha.ackNum, h.2, Seq32.seqAt_add, ha.irs, ha.accepted]

theorem RecvSide.Running.takeFin (h : r.Running) : (r.takeFin r.ackNum).Ended :=
  congrArg some h.2

theorem RecvSide.Untouched.syn (h : r.Untouched) (s : UInt32) :
    RecvSide.Running { r with ackNum := s + 1, irs := s } :=
  ⟨h.2, (Seq32.seqAt_zero _).symm.trans (congrArg _ h.1.symm)⟩

theorem FinInv.read (h : FinInv st r) (len : Nat) : FinInv st (tcpRingRead r len) := by
  have ha := RecvSide.accepts_read r len
  cases st
  case listen => exact ⟨ha.accepted.trans h.1, ha.fin.trans h.2⟩
  case synSent => exact ⟨ha.accepted.trans h.1, ha.fin.trans h.2⟩
  case synReceived => exact RecvSide.Running.accepts h ha
  case established => exact RecvSide.Running.accepts h ha
  case finWait1 => exact RecvSide.Running.accepts h ha
  case finWait2 => exact RecvSide.Running.accepts h ha
  all_goals
    show (tcpRingRead r len).fin = _
    rw [ha.fin, ha.irs, ha.accepted]
    exact h

theorem FinInv.ended (h : FinInv c.state c.rcv) (heof : tcpConnAtEof c = true) : c.rcv.Ended := by
  unfold tcpConnAtEof at heof
  cases hs : c.state <;> simp_all [FinInv]

theorem FinInv.sound (h : FinInv c.state c.rcv) : FinSound c where
  eof := by
    intro heof
    rw [h.ended heof]
    exact Option.some_ne_none _
  fin := by
    intro f hf
    cases hs : c.state <;>
      simp_all [FinInv, RecvSide.Untouched, RecvSide.Running, RecvSide.Ended]
  ack := by
    intro hrec _
    obtain hs | hs | hs | hs := hrec <;> rw [hs] at h <;> exact h.2

/-- In FIN_WAIT_1 a FIN follows the text taken, if a bare one does. -/
theorem takeTextInOrder_end (r : RecvSide) (hgo : (takeTextInOrder r seg).2 = true)
    (hbare : seg.payload = [] → seg.seqNum = r.ackNum) :
    seg.seqNum + UInt32.ofNat seg.payload.length = (takeTextInOrder r seg).1.ackNum := by
  unfold takeTextInOrder at hgo ⊢
  split_ifs at hgo ⊢ with hnil hseq
  · rw [hnil, hbare hnil]
    exact UInt32.add_zero _
  · simp only [Bool.and_eq_true, decide_eq_true_eq] at hgo
    rw [hseq, ← hgo.1]
    rfl

theorem SegmentStep.fin_kept {isn : UInt32} {c' : TcpConnection} (hstep : SegmentStep isn seg p c')
    (h : FinInv p.state p.rcv)
    (hbare : p.state = .finWait1 → seg.flags.fin = true → seg.payload = [] →
      seg.seqNum = p.rcv.ackNum) : FinInv c'.state c'.rcv := by
  cases hstep with
  | ignored => exact h
  | syn hs hsyn hk hem =>
    rw [hs] at h
    rw [hem.state, hem.rcv]
    exact RecvSide.Untouched.syn h seg.seqNum
  | synAck hs =>
    rw [hs] at h
    exact RecvSide.Untouched.syn h seg.seqNum
  | synAgain => exact h
  | opened hs =>
    rw [hs] at h
    exact h
  | text hs hem =>
    rw [hs] at h
    obtain ⟨k, ha⟩ := RecvSide.accepts_takeText p.rcv p.own.dataCallback seg
    rw [hem.state, hem.rcv]
    rw [hs]
    exact RecvSide.Running.accepts h ha
  | fin hs hfin hend hnext hst hem =>
    rw [hs] at h
    obtain ⟨k, ha⟩ := RecvSide.accepts_takeText p.rcv p.own.dataCallback seg
    rw [hem.state, hem.rcv, hnext]
    obtain ⟨rfl, -⟩ | ⟨rfl, -⟩ := hst <;> exact (RecvSide.Running.accepts h ha).takeFin
  | textInOrder hs hem =>
    rw [hs] at h
    obtain ⟨k, ha⟩ := RecvSide.accepts_takeTextInOrder p.rcv seg
    rw [hem.state, hem.rcv]
    rw [hs]
    exact RecvSide.Running.accepts h ha
  | @finInOrder _ d _ hs hgo hfin hst hem hd =>
    rw [hs] at h
    obtain ⟨k, ha⟩ := RecvSide.accepts_takeTextInOrder p.rcv seg
    have hdone : FinInv d.state d.rcv := by
      rw [hem.state, hem.rcv, takeTextInOrder_end p.rcv hgo (hbare hs hfin)]
      obtain rfl | rfl := hst <;> exact (RecvSide.Running.accepts h ha).takeFin
    obtain rfl | ⟨-, rfl | rfl⟩ := hd <;> exact hdone
  | closed hs hack heq =>
    rw [hs] at h
    obtain rfl | rfl := heq <;> exact h

theorem step_fin {e : Event} (he : Orderly c e) (h : FinInv c.state c.rcv) :
    FinInv (step env c e).state (step env c e).rcv := by
  have hstep := step_stepped env c e
  generalize step env c e = c' at hstep ⊢
  cases hstep with
  | dead => exact h
  | call hd hseg hcall =>
    cases hcall with
    | own own => exact h
    | sent hem hk =>
      rw [hem.state, hem.rcv]
      exact h
    | read hem =>
      rw [hem.state, hem.rcv]
      exact h.read _
    | fin own he hfin =>
      obtain ⟨hs, k, -, hem⟩ | ⟨hs, k, -, hem⟩ := hfin
      all_goals
        have hs : c.state = _ := hs
        rw [hs] at h
        rw [hem.state, hem.rcv]
        exact h
    | destroyed own hr => exact h
    | listen =>
      have hs : c.state = .listen := he
      rw [hs] at h
      exact h
    | timer s w hsame huna hwire hqueue => exact h
    | gaveUp s w hsame huna hwire hqueue hex => exact h.ended (he hex)
  | reset hd hrst heq =>
    have hended := h.ended (he.1 hrst)
    obtain rfl | rfl := heq <;> exact hended
  | segment hd hrst hp hseg =>
    refine hseg.fin_kept (by rw [hp.state, hp.rcv]; exact h) ?_
    rw [hp.state, hp.rcv]
    exact he.2 hrst

theorem Opened.fin (h : Opened env c) : FinInv c.state c.rcv := by
  cases h with
  | incoming now socket => exact ⟨rfl, rfl⟩
  | connect now isn socket =>
    obtain ⟨k, -, d, hem, hd⟩ := tcpConnect_cases env now isn socket
    have hstart : FinInv d.state d.rcv := by
      rw [hem.state, hem.rcv]
      exact ⟨rfl, rfl⟩
    obtain ⟨own, heq⟩ | heq := hd <;> rw [heq] <;> exact hstart

end Invariant

/-! ### Where the FIN comes from -/

section Origin

variable {env : TcpEnv} {p : TcpConnection} {seg : TcpSegment}

/-- The handler of a segment acknowledges no FIN but that of the segment. -/
theorem SegmentStep.finFrom {isn : UInt32} {c' : TcpConnection} (h : SegmentStep isn seg p c')
    (hnone : p.rcv.fin = none) {f : UInt32} (hf : c'.rcv.fin = some f) :
    seg.flags.fin = true ∧ f = seg.seqNum + UInt32.ofNat seg.payload.length := by
  have habsurd : p.rcv.fin ≠ some f := by rw [hnone]; exact nofun
  cases h with
  | ignored | synAck | synAgain | opened => exact absurd hf habsurd
  | syn hs hsyn hk hem =>
    rw [hem.rcv] at hf
    exact absurd hf habsurd
  | text hs hem =>
    obtain ⟨k, ha⟩ := RecvSide.accepts_takeText p.rcv p.own.dataCallback seg
    rw [hem.rcv] at hf
    exact absurd (ha.fin.symm.trans hf) habsurd
  | fin hs hfin hend hnext hst hem =>
    rw [hem.rcv] at hf
    exact ⟨hfin, (Option.some.inj hf).symm.trans (hend.trans (trim_end _ _))⟩
  | textInOrder hs hem =>
    obtain ⟨k, ha⟩ := RecvSide.accepts_takeTextInOrder p.rcv seg
    rw [hem.rcv] at hf
    exact absurd (ha.fin.symm.trans hf) habsurd
  | @finInOrder _ d _ hs hgo hfin hst hem hd =>
    have hd : c'.rcv = d.rcv := by obtain rfl | ⟨-, rfl | rfl⟩ := hd <;> rfl
    rw [hd, hem.rcv] at hf
    exact ⟨hfin, (Option.some.inj hf).symm⟩
  | closed hs hack heq => obtain rfl | rfl := heq <;> exact absurd hf habsurd

theorem step_finFrom (env : TcpEnv) (c : TcpConnection) (e : Event) : FinFromSegment env c e := by
  intro f hnone hf
  have habsurd : c.rcv.fin ≠ some f := by rw [hnone]; exact nofun
  have h := step_stepped env c e
  generalize step env c e = c' at h hf
  cases h with
  | dead => exact absurd hf habsurd
  | call hd he hcall =>
    exfalso
    cases hcall with
    | sent hem hk => exact habsurd (hem.rcv ▸ hf)
    | read hem =>
      rw [hem.rcv] at hf
      exact habsurd ((RecvSide.accepts_read c.rcv _).fin.symm.trans hf)
    | fin own he hfin =>
      obtain ⟨-, k, -, hem⟩ | ⟨-, k, -, hem⟩ := hfin <;> rw [hem.rcv] at hf <;> exact habsurd hf
    | own | destroyed | listen | timer | gaveUp => exact habsurd hf
  | reset hd hrst heq => obtain rfl | rfl := heq <;> exact absurd hf habsurd
  | @segment now isn seg p _ hd hrst hp hseg =>
    exact ⟨now, isn, seg, rfl, hseg.finFrom (hp.rcv ▸ hnone) hf⟩

end Origin

theorem admissible_of_forall {env : TcpEnv} {allows : TcpConnection → Event → Prop}
    (h : ∀ c e, allows c e) (c : TcpConnection) (es : List Event) : Admissible env allows c es := by
  induction es generalizing c with
  | nil => trivial
  | cons e es ih => exact ⟨h c e, ih (step env c e)⟩

/-- **In every orderly run, the end of the stream is reported and a FIN acknowledged only after
every byte before that FIN has been taken in order.** The FIN is the one the peer has sent. -/
theorem fin_in_order (env : TcpEnv) (c : TcpConnection) (hc : Opened env c) (es : List Event)
    (hes : Admissible env Orderly c es) :
    FinSound (run env c es) ∧ Admissible env (FinFromSegment env) c es := by
  have h := hes.keeps (fun c => FinInv c.state c.rcv) (fun c e he hc => step_fin he hc) hc.fin
  exact ⟨h.sound, admissible_of_forall (step_finFrom env) c es⟩

/-- We have closed our side; the peer sends two bytes and its FIN. -/
def peerCloses : List Event :=
  [.segment 5 0 peerSynAck, .shutdownWr 6,
    .segment 7 0 { peerSegment .onlyAck 1002 with payload := [72, 105] },
    .segment 8 0 { peerSegment .finAck 1002 with seqNum := 10 }]

/-- The stream of the peer ends after its two bytes. -/
theorem fin_in_order_session :
    tcpConnAtEof (run .reliable (tcpConnect .reliable 0 1000 true) peerCloses) = true ∧
      FinSound (run .reliable (tcpConnect .reliable 0 1000 true) peerCloses) ∧
      Admissible .reliable (FinFromSegment .reliable) (tcpConnect .reliable 0 1000 true) peerCloses :=
  ⟨by decide +kernel, fin_in_order .reliable _ (.connect 0 1000 true) peerCloses
    ⟨⟨by decide +kernel, by decide +kernel⟩, trivial, ⟨by decide +kernel, by decide +kernel⟩,
      ⟨by decide +kernel, by decide +kernel⟩, trivial⟩⟩

/-- A bare FIN a thousand bytes ahead ends the stream all the same. -/
theorem fin_in_order_fails : ¬ ∀ env c es, Opened env c → FinSound (run env c es) := by
  intro h
  have hfin := (h .reliable _ [.segment 5 0 peerSynAck, .shutdownWr 6,
    .segment 8 0 { peerSegment .finAck 1002 with seqNum := 1008 }] (.connect 0 1000 true)).fin 1008
    (by decide +kernel)
  revert hfin
  decide +kernel

end InDevOS.Net.Tcp
