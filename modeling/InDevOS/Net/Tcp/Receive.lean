import Mathlib
import InDevOS.Net.Tcp.Fin

/-! The receive stream.

The peer sends pieces of one byte stream, in any order and as often as it likes. Text in
order goes behind what the reader has not taken yet; text ahead goes straight to the slots
it will have there, and its range is recorded. The ring is therefore a window onto the
stream: the slot at a distance from the head shows the byte at that distance from the
reader, for every byte accepted and every range recorded (`RecvSide.Filled`). So the reader
gets a prefix of the stream (`receive_stream`), as long as text does not come with a SYN,
whose number ESTABLISHED does not count (`receive_stream_fails`), or from so far away that
32 bits no longer tell. -/
namespace InDevOS.Net.Tcp

open InDevOS.Lib List

/-! ### Pieces of the peer's stream -/

/-- `n` bytes of a stream from position `p` on. -/
def piece (stream : Nat → UInt8) (p n : Nat) : List UInt8 :=
  (List.range n).map fun i => stream (p + i)

section Piece

variable (stream : Nat → UInt8) (p n : Nat)

@[simp] theorem length_piece : (piece stream p n).length = n := by simp [piece]

@[simp] theorem getElem_piece {i : Nat} (hi : i < (piece stream p n).length) :
    (piece stream p n)[i] = stream (p + i) := by simp [piece]

theorem piece_append (m : Nat) : piece stream p m ++ piece stream (p + m) n = piece stream p (m + n) := by
  simp [piece, range_add, Function.comp_def, Nat.add_assoc]

theorem take_piece (k : Nat) : (piece stream p n).take k = piece stream p (min k n) := by
  rw [piece, ← map_take, take_range]
  rfl

theorem drop_piece {k : Nat} (hk : k ≤ n) : (piece stream p n).drop k = piece stream (p + k) (n - k) := by
  obtain ⟨d, rfl⟩ := Nat.exists_eq_add_of_le hk
  rw [← piece_append, drop_left' (length_piece stream p k), Nat.add_sub_cancel_left]

end Piece

/-! ### The ring as a window onto the stream -/

/-- The slot for stream position `q` holds that byte. -/
def RecvSide.Shows (stream : Nat → UInt8) (r : RecvSide) (q : Nat) : Prop :=
  r.buffer ((r.head + (q - r.delivered.length)) % tcpRecvBufferSize) = stream q

/-- The reader has had a prefix of the stream, and the ring shows what follows it up to the
bytes accepted, and what lies in the ranges `rs`. -/
structure RecvSide.Filled (stream : Nat → UInt8) (rs : List (Nat × Nat)) (r : RecvSide) : Prop where
  delivered : r.delivered = piece stream 0 r.delivered.length
  head : r.head < tcpRecvBufferSize
  used : r.used ≤ tcpRecvBufferSize
  text : ∀ q, r.delivered.length ≤ q → q < r.accepted → r.Shows stream q
  apart : Ranges.Apart rs
  ends : ∀ ab ∈ rs, r.delivered.length ≤ ab.1 ∧ ab.2 ≤ r.delivered.length + tcpRecvBufferSize
  held : ∀ q, Ranges.Covers rs q → r.Shows stream q

/-- The ranges recorded are `rs`, numbered from `base`, and lie ahead of what is accepted. -/
structure RecvSide.Tracks (stream : Nat → UInt8) (base : UInt32) (rs : List (Nat × Nat))
    (r : RecvSide) : Prop extends RecvSide.Filled stream rs r where
  ooo : r.ooo = rs.map (Prod.map (Seq32.seqAt base) (Seq32.seqAt base))
  ahead : ∀ ab ∈ rs, r.accepted < ab.1

namespace RecvSide

variable {stream : Nat → UInt8} {base : UInt32} {rs rs' : List (Nat × Nat)} {r : RecvSide} {n : Nat}

theorem Filled.sublist (h : r.Filled stream rs) (hs : rs'.Sublist rs) : r.Filled stream rs' where
  delivered := h.delivered
  head := h.head
  used := h.used
  text := h.text
  apart := ⟨fun ab hab => h.apart.1 ab (hs.subset hab), h.apart.2.sublist hs⟩
  ends := fun ab hab => h.ends ab (hs.subset hab)
  held := fun q ⟨ab, hab, hq⟩ => h.held q ⟨ab, hs.subset hab, hq⟩

theorem Filled.covers_lt (h : r.Filled stream rs) {q : Nat} (hq : Ranges.Covers rs q) :
    r.delivered.length ≤ q ∧ q < r.delivered.length + tcpRecvBufferSize := by
  obtain ⟨ab, hab, hlo, hhi⟩ := hq
  have := h.ends ab hab
  omega

/-- A piece of the stream copied to its slots shows there and spoils nothing. -/
theorem shows_copyIn {d : Nat} (hfit : d + n ≤ tcpRecvBufferSize) {q : Nat}
    (hlo : r.delivered.length ≤ q) (hhi : q < r.delivered.length + tcpRecvBufferSize)
    (hq : r.Shows stream q ∨ r.delivered.length + d ≤ q ∧ q < r.delivered.length + d + n) :
    Ring.copyIn tcpRecvBufferSize ((r.head + d) % tcpRecvBufferSize)
        (piece stream (r.delivered.length + d) n) r.buffer
        ((r.head + (q - r.delivered.length)) % tcpRecvBufferSize) = stream q := by
  have hsize : 0 < tcpRecvBufferSize := by decide
  rw [Ring.copyIn_eq_write (Nat.mod_lt _ hsize) (by rw [length_piece]; omega)]
  by_cases hin : r.delivered.length + d ≤ q ∧ q < r.delivered.length + d + n
  · obtain ⟨j, hj⟩ := Nat.exists_eq_add_of_le hin.1
    have hslot : q - r.delivered.length = d + j := by omega
    have hjn : j < (piece stream (r.delivered.length + d) n).length := by rw [length_piece]; omega
    rw [hslot, Ring.write_at hsize (by rw [length_piece]; omega) hjn, getElem_piece, hj]
  · rw [Ring.write_elsewhere (by rw [length_piece]; omega) (by omega) (by rw [length_piece]; omega)]
    exact hq.resolve_right hin

/-! ### Text in order -/

theorem Filled.data (h : r.Filled stream rs) (n : Nat) (ackNum : UInt32) :
    Filled stream rs
      { (tcpHandleData r (piece stream r.accepted n)).1 with ackNum := ackNum } := by
  have hused := h.used
  have hfit : r.used + min n (tcpRecvBufferSize - r.used) ≤ tcpRecvBufferSize := by omega
  unfold tcpHandleData
  dsimp only
  rw [length_piece, take_piece, Nat.min_eq_left (Nat.min_le_left _ _)]
  refine ⟨h.delivered, h.head, hfit, ?_, h.apart, h.ends, ?_⟩
  · intro q (hlo : r.delivered.length ≤ q) hhi
    have hhi : q < r.delivered.length + (r.used + min n (tcpRecvBufferSize - r.used)) := hhi
    refine shows_copyIn hfit hlo (by omega) ?_
    by_cases hold : q < r.accepted
    · exact .inl (h.text q hlo hold)
    · unfold accepted at hold
      exact .inr ⟨by omega, by omega⟩
  · intro q hq
    obtain ⟨hlo, hhi⟩ := h.covers_lt hq
    exact shows_copyIn hfit hlo hhi (.inl (h.held q hq))

theorem Filled.extend {a b : Nat} (h : r.Filled stream ((a, b) :: rs)) (ha : a ≤ r.accepted)
    (hb : r.accepted < b) : Filled stream rs (r.extend (b - r.accepted)) := by
  have hend := (h.ends (a, b) mem_cons_self).2
  have htail := h.sublist (sublist_cons_self (a, b) rs)
  refine ⟨h.delivered, h.head, ?_, ?_, htail.apart, htail.ends, htail.held⟩
  · show r.used + (b - r.accepted) ≤ tcpRecvBufferSize
    unfold accepted at hb ⊢
    omega
  · intro q hlo hhi
    have hhi : q < r.delivered.length + (r.used + (b - r.accepted)) := hhi
    by_cases hold : q < r.accepted
    · exact h.text q hlo hold
    · refine h.held q (Ranges.covers_cons.2 (.inl ⟨?_, ?_⟩))
      · omega
      · unfold accepted at hb hhi
        omega

theorem mergeLoop_ahead (hack : r.ackNum = Seq32.seqAt base r.accepted)
    (hrs : ∀ ab ∈ rs, r.accepted < ab.1 ∧ ab.1 < ab.2 ∧ ab.2 < r.accepted + 2 ^ 31) :
    tcpOooMergeLoop r (rs.map (Prod.map (Seq32.seqAt base) (Seq32.seqAt base))) =
      (r, rs.map (Prod.map (Seq32.seqAt base) (Seq32.seqAt base)), 0) := by
  induction rs with
  | nil => rfl
  | cons ab rs ih =>
    obtain ⟨⟨ha, hab, hb⟩, hrs⟩ := forall_mem_cons.1 hrs
    rw [map_cons, Prod.map, tcpOooMergeLoop, hack, Seq32.sdiff_seqAt_near base (by omega) (by omega),
      Seq32.sdiff_seqAt_near base (by omega) (by omega), if_neg (by omega), if_neg (by omega), ih hrs]

/-- The loop of `tcp_ooo_merge` takes the ranges that `ack_num` has reached and keeps those
ahead of it. -/
theorem Filled.mergeLoop (h : r.Filled stream rs) (hack : r.ackNum = Seq32.seqAt base r.accepted) :
    ∃ rs', (tcpOooMergeLoop r (rs.map (Prod.map (Seq32.seqAt base) (Seq32.seqAt base)))).2.1 =
        rs'.map (Prod.map (Seq32.seqAt base) (Seq32.seqAt base)) ∧
      Filled stream rs'
        (tcpOooMergeLoop r (rs.map (Prod.map (Seq32.seqAt base) (Seq32.seqAt base)))).1 ∧
      ∀ ab ∈ rs',
        (tcpOooMergeLoop r (rs.map (Prod.map (Seq32.seqAt base) (Seq32.seqAt base)))).1.accepted < ab.1 := by
  induction rs generalizing r with
  | nil => exact ⟨[], rfl, h, by simp⟩
  | cons ab rs ih =>
    obtain ⟨a, b⟩ := ab
    have hnear : r.delivered.length ≤ a ∧ b ≤ r.delivered.length + tcpRecvBufferSize :=
      h.ends (a, b) mem_cons_self
    have hab : a < b := h.apart.1 (a, b) mem_cons_self
    have hused := h.used
    have hsize : tcpRecvBufferSize = 131072 := rfl
    have hacc : r.accepted = r.delivered.length + r.used := rfl
    have htail := h.sublist (sublist_cons_self (a, b) rs)
    have hs : Seq32.sdiff (Seq32.seqAt base a) r.ackNum = (a : Int) - r.accepted := by
      rw [hack, Seq32.sdiff_seqAt_near base (by omega) (by omega)]
    have he : Seq32.sdiff (Seq32.seqAt base b) r.ackNum = (b : Int) - r.accepted := by
      rw [hack, Seq32.sdiff_seqAt_near base (by omega) (by omega)]
    rw [map_cons, Prod.map, tcpOooMergeLoop, hs, he]
    by_cases hcovered : b ≤ r.accepted
    · rw [if_pos (by omega)]
      exact ih htail hack
    · rw [if_neg (by omega)]
      by_cases htouches : a ≤ r.accepted
      · -- all of the range up to `b` fits, so nothing of it is kept
        have hadd : min (Seq32.seqAt base b - r.ackNum).toNat (tcpRecvBufferSize - r.used) =
            b - r.accepted := by
          rw [hack, Seq32.toNat_seqAt_sub base (by omega) (by omega)]
          omega
        have hack' : (r.extend (b - r.accepted)).ackNum = Seq32.seqAt base b := by
          show r.ackNum + _ = _
          rw [hack, Seq32.seqAt_add]
          congr 1
          omega
        have hacc' : (r.extend (b - r.accepted)).accepted = b := by
          show r.delivered.length + (r.used + (b - r.accepted)) = b
          omega
        rw [if_pos (by omega)]
        dsimp only
        rw [hadd, hack', if_neg (by simp [Seq32.sdiff_eq_zero.2 rfl])]
        exact ih (h.extend htouches (by omega)) (hack'.trans (congrArg _ hacc'.symm))
      · have hrest : ∀ cd ∈ rs, r.accepted < cd.1 ∧ cd.1 < cd.2 ∧ cd.2 < r.accepted + 2 ^ 31 := by
          intro cd hcd
          have hnext : b < cd.1 := (pairwise_cons.1 h.apart.2).1 cd hcd
          have hne := htail.apart.1 cd hcd
          have hend := htail.ends cd hcd
          omega
        rw [if_neg (by omega), mergeLoop_ahead hack hrest]
        refine ⟨(a, b) :: rs, rfl, h, forall_mem_cons.2 ⟨by dsimp only; omega, ?_⟩⟩
        intro cd hcd
        exact (hrest cd hcd).1

/-- After text in order, `tcp_ooo_merge` leaves only ranges ahead of it. -/
theorem Filled.merged (h : r.Filled stream rs)
    (hooo : r.ooo = rs.map (Prod.map (Seq32.seqAt base) (Seq32.seqAt base)))
    (hack : r.ackNum = Seq32.seqAt base r.accepted) :
    ∃ rs', (if r.ooo = [] then (r, 0) else tcpOooMerge r).1.Tracks stream base rs' := by
  by_cases hnil : r.ooo = []
  · rw [if_pos hnil]
    have hrs : rs = [] := map_eq_nil_iff.1 (hooo.symm.trans hnil)
    exact ⟨rs, h, hooo, by simp [hrs]⟩
  · obtain ⟨rs', hkept, hfilled, hahead⟩ := h.mergeLoop hack
    rw [if_neg hnil, tcpOooMerge, hooo]
    exact ⟨rs', ⟨hfilled.delivered, hfilled.head, hfilled.used, hfilled.text, hfilled.apart,
      hfilled.ends, hfilled.held⟩, hkept, hahead⟩

/-! ### Text ahead -/

section
variable (h : r.Tracks stream base rs)
include h

/-- Positions in reach of the ring are told apart by their numbers. -/
theorem insert_seqAt {a b : Nat} (ha : r.accepted ≤ a ∧ a ≤ r.delivered.length + tcpRecvBufferSize)
    (hb : r.accepted ≤ b ∧ b ≤ r.delivered.length + tcpRecvBufferSize) :
    Ranges.insert Seq32.sdiff r.ooo (Seq32.seqAt base a, Seq32.seqAt base b) =
      (Ranges.insert Ranges.natDiff rs (a, b)).map
        (Prod.map (Seq32.seqAt base) (Seq32.seqAt base)) := by
  have hsize : tcpRecvBufferSize = 131072 := rfl
  have hacc : r.accepted = r.delivered.length + r.used := rfl
  rw [h.ooo]
  refine Ranges.insert_map (a, b)
    (P := fun x => r.accepted ≤ x ∧ x ≤ r.delivered.length + tcpRecvBufferSize) ?_ ?_ ⟨ha, hb⟩
  · intro x y hx hy
    exact Seq32.sdiff_seqAt_near base (by omega) (by omega)
  · intro ab hab
    have := h.ahead ab hab
    have := h.ends ab hab
    have := h.apart.1 ab hab
    omega

/-- `tcp_ooo_store` adds the range of the text that fits, with its bytes. -/
theorem Tracks.store (hack : r.ackNum = Seq32.seqAt base r.accepted) {off : Nat} (hoff : 0 < off) (n : Nat) :
    ∃ rs', (tcpOooStore r off (piece stream (r.accepted + off) n)).Tracks stream base rs' := by
  have hacc : r.accepted = r.delivered.length + r.used := rfl
  unfold tcpOooStore
  dsimp only
  split
  · exact ⟨rs, h⟩
  · rename_i hnone
    obtain ⟨hne, hroom⟩ := not_or.1 hnone
    have hn : 0 < n := by
      rw [← length_piece stream (r.accepted + off) n]
      exact length_pos_iff.2 hne
    obtain ⟨m, hm⟩ : ∃ m, m = min (tcpRecvBufferSize - r.used - off) n := ⟨_, rfl⟩
    have hfit : r.used + off + m ≤ tcpRecvBufferSize := by omega
    have hpos : r.accepted + off = r.delivered.length + (r.used + off) := by omega
    rw [take_piece, ← hm, length_piece, hack, Seq32.seqAt_add, Seq32.seqAt_add,
      insert_seqAt h ⟨by omega, by omega⟩ ⟨by omega, by omega⟩, hpos, Nat.add_assoc r.head]
    split_ifs
    · exact ⟨rs, h⟩
    · generalize hp : r.delivered.length + (r.used + off) = p
      obtain ⟨hapart, hcovers⟩ := Ranges.insert_spec (p, p + m) h.apart (by dsimp only; omega)
      have hends := Ranges.insert_ends Ranges.natDiff (p, p + m) (P := fun x => r.accepted < x)
        (Q := fun x => x ≤ r.delivered.length + tcpRecvBufferSize)
        (fun ab hab => ⟨h.ahead ab hab, (h.ends ab hab).2⟩) ⟨by dsimp only; omega, by dsimp only; omega⟩
      subst hp
      refine ⟨_, ⟨h.delivered, h.head, h.used, ?_, hapart, ?_, ?_⟩, rfl, fun ab hab => (hends ab hab).1⟩
      · intro q (hlo : r.delivered.length ≤ q) (hhi : q < r.accepted)
        exact shows_copyIn hfit hlo (by omega) (.inl (h.text q hlo hhi))
      · intro ab hab
        have := hends ab hab
        exact ⟨by dsimp only; omega, this.2⟩
      · intro q hq
        obtain hold | hnew := (hcovers q).1 hq
        · obtain ⟨hlo, hhi⟩ := h.covers_lt hold
          exact shows_copyIn hfit hlo hhi (.inl (h.held q hold))
        · exact shows_copyIn hfit (by omega) (by omega) (.inr hnew)

/-! ### Reading -/

/-- The window after `n` more bytes have been read, wherever its head is then. -/
theorem Tracks.advance (hn : n ≤ r.used) {head : Nat} (hhead : head < tcpRecvBufferSize)
    (hshow : ∀ q, r.delivered.length + n ≤ q → q < r.accepted ∨ Ranges.Covers rs q →
      r.buffer ((head + (q - (r.delivered.length + n))) % tcpRecvBufferSize) = stream q) :
    Tracks stream base rs
      { r with
        head := head, used := r.used - n
        delivered := r.delivered ++ piece stream r.delivered.length n } := by
  have hused := h.used
  have hlen : (r.delivered ++ piece stream r.delivered.length n).length = r.delivered.length + n := by
    rw [length_append, length_piece]
  have hacc : (r.delivered ++ piece stream r.delivered.length n).length + (r.used - n) = r.accepted := by
    unfold accepted
    omega
  refine ⟨⟨?_, hhead, (Nat.sub_le _ _).trans hused, ?_, h.apart, ?_, ?_⟩, h.ooo, ?_⟩
  · rw [hlen, ← piece_append, ← h.delivered, Nat.zero_add]
  · intro q hlo hhi
    unfold Shows
    rw [hlen] at hlo ⊢
    exact hshow q hlo (.inl (hhi.trans_eq hacc))
  · intro ab hab
    have hahead := h.ahead ab hab
    have hends := h.ends ab hab
    dsimp only
    omega
  · intro q hq
    have hlo : r.delivered.length + n ≤ q := by
      obtain ⟨ab, hab, hle, -⟩ := hq
      have hahead := h.ahead ab hab
      omega
    unfold Shows
    rw [hlen]
    exact hshow q hlo (.inr hq)
  · intro ab hab
    exact hacc.trans_lt (h.ahead ab hab)

theorem Tracks.read (len : Nat) : (tcpRingRead r len).Tracks stream base rs := by
  have hsize : 0 < tcpRecvBufferSize := by decide
  have hused := h.used
  unfold tcpRingRead
  by_cases hnone : min r.used len = 0
  · rw [if_pos hnone]
    exact h
  · rw [if_neg hnone]
    have hle : min r.used len ≤ r.used := Nat.min_le_left _ _
    generalize min r.used len = n at hle
    have hcopy : Ring.copyOut tcpRecvBufferSize r.head n r.buffer = piece stream r.delivered.length n := by
      rw [Ring.copyOut_eq_slice h.head (hle.trans hused)]
      apply map_congr_left
      intro k hk
      have hk := mem_range.1 hk
      have hshow := h.text (r.delivered.length + k) (Nat.le_add_right _ _) (by unfold accepted; omega)
      rwa [Shows, Nat.add_sub_cancel_left] at hshow
    rw [hcopy]
    by_cases hempty : r.used - n = 0 ∧ r.ooo = []
    · -- nothing is left to show
      rw [if_pos hempty]
      have hrs : rs = [] := map_eq_nil_iff.1 (h.ooo.symm.trans hempty.2)
      refine h.advance hle hsize ?_
      intro q hlo hq
      exfalso
      unfold accepted at hq
      rw [hrs] at hq
      obtain hq | hq := hq
      · omega
      · exact Ranges.covers_nil hq
    · rw [if_neg hempty]
      refine h.advance hle (Nat.mod_lt _ hsize) ?_
      intro q hlo hq
      have hshow : r.Shows stream q := by
        obtain hq | hq := hq
        · exact h.text q (by omega) hq
        · exact h.held q hq
      rw [Ring.slot_add, show n + (q - (r.delivered.length + n)) = q - r.delivered.length by omega]
      exact hshow

end

/-! ### Segments -/

/-- How far from `nxt` a text of length `n` at `p` may be for 32 bits to tell. -/
def InReach (nxt p n : Nat) : Prop := p + n < nxt + 2 ^ 32 ∧ nxt + tcpRecvBufferSize ≤ p + 2 ^ 32

instance (nxt p n : Nat) : Decidable (InReach nxt p n) := inferInstanceAs (Decidable (_ ∧ _))

/-- What `trim` makes of a piece of the stream: text at `ack_num`, or the segment as it is,
all old, ahead within reach, or past the ring. -/
theorem trim_piece {ackNum : UInt32} {nxt p : Nat} {seg : TcpSegment}
    (hack : ackNum = Seq32.seqAt base nxt) (hseq : seg.seqNum = Seq32.seqAt base p)
    (htext : seg.payload = piece stream p n) (hreach : InReach nxt p n) :
    (∃ m, trim ackNum seg = (ackNum, piece stream nxt m)) ∨
      trim ackNum seg = (seg.seqNum, seg.payload) ∧
        (Seq32.sdiff seg.seqNum ackNum < 0 ∨
          (nxt < p ∧ Seq32.sdiff seg.seqNum ackNum = (p : Int) - nxt) ∨
          (tcpRecvBufferSize : Int) ≤ Seq32.sdiff seg.seqNum ackNum) := by
  obtain ⟨hhi, hlo⟩ := hreach
  unfold trim
  dsimp only
  rw [htext, length_piece]
  by_cases hfar : nxt + 2 ^ 31 ≤ p
  · -- seems older than it is long, so nothing is cut off
    have hoff : Seq32.sdiff seg.seqNum ackNum = (p : Int) - nxt - 2 ^ 32 := by
      rw [hseq, hack, Seq32.sdiff_seqAt_far_ahead base hfar (by omega)]
    rw [hoff, if_neg (by omega)]
    exact .inr ⟨rfl, .inl (by omega)⟩
  by_cases hback : p + 2 ^ 31 < nxt
  · have hoff : Seq32.sdiff seg.seqNum ackNum = (p : Int) - nxt + 2 ^ 32 := by
      rw [hseq, hack, Seq32.sdiff_seqAt_far_behind base hback (by omega)]
    rw [hoff, if_neg (by omega)]
    exact .inr ⟨rfl, .inr (.inr (by omega))⟩
  have hoff : Seq32.sdiff seg.seqNum ackNum = (p : Int) - nxt := by
    rw [hseq, hack, Seq32.sdiff_seqAt_near base (by omega) (by omega)]
  rw [hoff]
  obtain hlt | rfl | hgt := Nat.lt_trichotomy p nxt
  · rw [show (-((p : Int) - nxt)).toNat = nxt - p by omega]
    by_cases hold : nxt - p < n ∨ nxt - p = n ∧ seg.flags.fin = true
    · have hle : nxt - p ≤ n := by obtain hold | hold := hold <;> omega
      rw [if_pos ⟨by omega, hold⟩, drop_piece _ _ _ hle, show p + (nxt - p) = nxt by omega]
      exact .inl ⟨_, rfl⟩
    · rw [if_neg fun hcut => hold hcut.2]
      exact .inr ⟨rfl, .inl (by omega)⟩
  · rw [if_neg (by omega), hseq, hack]
    exact .inl ⟨n, rfl⟩
  · rw [if_neg (by omega)]
    exact .inr ⟨rfl, .inr (.inl ⟨hgt, rfl⟩)⟩

theorem tcpOooStore_past {off : Nat} (hoff : tcpRecvBufferSize ≤ off) (data : List UInt8) :
    tcpOooStore r off data = r :=
  if_pos (.inr ((Nat.sub_le _ _).trans hoff))

theorem Tracks.takeText (h : r.Tracks stream base rs) (hack : r.ackNum = Seq32.seqAt base r.accepted)
    {seg : TcpSegment} {p : Nat} (callback : Bool)
    (hseq : seg.seqNum = Seq32.seqAt base p) (htext : seg.payload = piece stream p n)
    (hreach : InReach r.accepted p n) :
    ∃ rs', (takeText r callback seg).1.Tracks stream base rs' := by
  unfold Tcp.takeText
  split_ifs
  · exact ⟨rs, h⟩
  · obtain ⟨m, htrim⟩ | ⟨htrim, hoff⟩ := trim_piece hack hseq htext hreach
    · rw [htrim]
      rw [if_neg (not_not.2 (Seq32.sdiff_eq_zero.2 rfl))]
      have hacked := accepts_data r (piece stream r.accepted m)
      refine (h.toFilled.data m
        (r.ackNum + UInt32.ofNat (tcpHandleData r (piece stream r.accepted m)).2)).merged h.ooo ?_
      rw [hacked.accepted, ← Seq32.seqAt_add, ← hack]
    · rw [htrim]
      dsimp only
      obtain hold | ⟨hgt, hahead⟩ | hpast := hoff
      · rw [if_pos hold.ne, if_neg (by omega)]
        exact ⟨rs, h⟩
      · rw [hahead, if_pos (by omega), htext]
        split_ifs
        · have hoff : 0 < p - r.accepted := by omega
          have hstore := h.store hack hoff n
          rwa [show r.accepted + (p - r.accepted) = p by omega,
            show p - r.accepted = ((p : Int) - r.accepted).toNat by omega] at hstore
        · exact ⟨rs, h⟩
      · have hsize : 0 < tcpRecvBufferSize := by decide
        rw [if_pos (by omega), tcpOooStore_past (by omega)]
        split_ifs <;> exact ⟨rs, h⟩

theorem Tracks.takeFin (h : r.Tracks stream base rs) (finSeq : UInt32) :
    (r.takeFin finSeq).Tracks stream base rs :=
  ⟨⟨h.delivered, h.head, h.used, h.text, h.apart, h.ends, h.held⟩, h.ooo, h.ahead⟩

end RecvSide

/-! ### The condition and the property -/

section
variable (stream : Nat → UInt8) (base : UInt32)

/-- The text of a segment is the piece of the stream at `p`. A SYN has a number before it. -/
def Carries (seg : TcpSegment) (p : Nat) : Prop :=
  seg.seqNum + (if seg.flags.syn then 1 else 0) = Seq32.seqAt base p ∧
    seg.payload = piece stream p seg.payload.length

/-- All text that comes in is of the stream, and we keep our side open. -/
def FromStream (c : TcpConnection) : Event → Prop
  | .segment _ _ seg => seg.payload ≠ [] → ∃ p, Carries stream base seg p
  | .close _ | .shutdownWr _ => c.state ≠ .established
  | .listen => False
  | _ => True

/-- The condition on an event: text comes without a SYN, and from within reach. -/
def FromNearby (c : TcpConnection) : Event → Prop
  | .segment _ _ seg => seg.payload ≠ [] → ∃ p, Carries stream base seg p ∧
      (c.state = .established → seg.flags.rst = false →
        seg.flags.syn = false ∧ RecvSide.InReach c.rcv.accepted p seg.payload.length)
  | e => FromStream stream base c e

end

/-- A connection that has just been opened by a peer whose stream starts at `base`. -/
structure JustOpen (base : UInt32) (c : TcpConnection) : Prop where
  state : c.state = .established
  ackNum : c.rcv.ackNum = base
  head : c.rcv.head < tcpRecvBufferSize
  used : c.rcv.used = 0
  ooo : c.rcv.ooo = []
  delivered : c.rcv.delivered = []

/-- What was read is a prefix of the stream, `ack_num` less the unread bytes is its end, and
every range recorded lies in the ring, ahead of what is accepted, with its bytes in place. -/
structure StreamSound (stream : Nat → UInt8) (base : UInt32) (c : TcpConnection) : Prop where
  read : c.rcv.delivered = piece stream 0 c.rcv.delivered.length
  ack : c.state = .established →
    c.rcv.ackNum - UInt32.ofNat c.rcv.used = Seq32.seqAt base c.rcv.delivered.length
  held : ∀ se ∈ c.rcv.ooo, ∃ a b, se = (Seq32.seqAt base a, Seq32.seqAt base b) ∧
    c.rcv.accepted < a ∧ a < b ∧ b ≤ c.rcv.delivered.length + tcpRecvBufferSize ∧
    ∀ q, a ≤ q → q < b → c.rcv.Shows stream q

/-! ### Runs -/

/-- ESTABLISHED and what follows it while we keep our side open. -/
def TcpState.opened (s : TcpState) : Prop :=
  s = .established ∨ s = .closeWait ∨ s = .lastAck ∨ s = .closed

/-- The invariant of the receiving half. -/
structure Receiving (stream : Nat → UInt8) (base : UInt32) (st : TcpState) (r : RecvSide) : Prop where
  state : st.opened
  tracks : ∃ rs, r.Tracks stream base rs
  ack : st = .established → r.ackNum = Seq32.seqAt base r.accepted

section Runs

variable {stream : Nat → UInt8} {base : UInt32} {env : TcpEnv} {c p : TcpConnection} {seg : TcpSegment}
  {st st' : TcpState} {r : RecvSide}

theorem JustOpen.receiving (h : JustOpen base c) : Receiving stream base c.state c.rcv where
  state := .inl h.state
  tracks := by
    have hacc : c.rcv.accepted = 0 := by rw [RecvSide.accepted, h.delivered, h.used]; rfl
    refine ⟨[], ⟨?_, h.head, h.used ▸ Nat.zero_le _, ?_, ?_, by simp, by simp⟩, h.ooo, by simp⟩
    · rw [h.delivered]
      rfl
    · intro q _ hq
      rw [hacc] at hq
      exact absurd hq (Nat.not_lt_zero q)
    · exact ⟨by simp, .nil⟩
  ack := by
    intro _
    rw [RecvSide.accepted, h.delivered, h.used, h.ackNum]
    exact (Seq32.seqAt_zero base).symm

theorem Receiving.sound (h : Receiving stream base c.state c.rcv) : StreamSound stream base c := by
  obtain ⟨rs, ht⟩ := h.tracks
  refine ⟨ht.delivered, ?_, ?_⟩
  · intro hs
    rw [h.ack hs, RecvSide.accepted, ← Seq32.seqAt_add]
    exact add_sub_cancel_right _ _
  · intro se hse
    rw [ht.ooo] at hse
    obtain ⟨ab, hab, rfl⟩ := mem_map.1 hse
    exact ⟨ab.1, ab.2, rfl, ht.ahead ab hab, ht.apart.1 ab hab, (ht.ends ab hab).2,
      fun q hlo hhi => ht.held q ⟨ab, hab, hlo, hhi⟩⟩

theorem Receiving.leave (h : Receiving stream base st r) (hopen : st'.opened)
    (hne : st' ≠ .established) : Receiving stream base st' r :=
  ⟨hopen, h.tracks, fun hs => absurd hs hne⟩

theorem Receiving.read (h : Receiving stream base st r) (len : Nat) :
    Receiving stream base st (tcpRingRead r len) where
  state := h.state
  tracks := by
    obtain ⟨rs, ht⟩ := h.tracks
    exact ⟨rs, ht.read len⟩
  ack := by
    intro hs
    have ha := RecvSide.accepts_read r len
    rw [ha.ackNum, ha.accepted, h.ack hs]
    exact UInt32.add_zero _

theorem Receiving.takeText (h : Receiving stream base .established r) (callback : Bool)
    (htext : seg.payload ≠ [] → ∃ p, seg.seqNum = Seq32.seqAt base p ∧
      seg.payload = piece stream p seg.payload.length ∧
      RecvSide.InReach r.accepted p seg.payload.length) :
    Receiving stream base .established (Tcp.takeText r callback seg).1 where
  state := h.state
  tracks := by
    obtain ⟨rs, ht⟩ := h.tracks
    by_cases hnil : seg.payload = []
    · rw [Tcp.takeText, if_pos hnil]
      exact ⟨rs, ht⟩
    · obtain ⟨p, hseq, hpiece, hreach⟩ := htext hnil
      exact ht.takeText (h.ack rfl) callback hseq hpiece hreach
  ack := by
    intro _
    obtain ⟨k, ha⟩ := RecvSide.accepts_takeText r callback seg
    rw [ha.ackNum, ha.accepted, h.ack rfl, Seq32.seqAt_add]

theorem SegmentStep.receiving {isn : UInt32} {c' : TcpConnection} (hstep : SegmentStep isn seg p c')
    (h : Receiving stream base p.state p.rcv)
    (htext : p.state = .established → seg.payload ≠ [] → ∃ q, seg.seqNum = Seq32.seqAt base q ∧
      seg.payload = piece stream q seg.payload.length ∧
      RecvSide.InReach p.rcv.accepted q seg.payload.length) :
    Receiving stream base c'.state c'.rcv := by
  have hopen := h.state
  cases hstep with
  | ignored => exact h
  | text hs hem =>
    rw [hem.state, hem.rcv]
    rw [hs] at h ⊢
    exact h.takeText p.own.dataCallback (htext hs)
  | fin hs hfin hend hnext hst hem =>
    rw [hs] at h
    obtain ⟨rs, htracks⟩ := (h.takeText p.own.dataCallback (htext hs)).tracks
    rw [hem.state, hem.rcv]
    obtain ⟨rfl, -⟩ | ⟨rfl, -⟩ := hst
    · exact ⟨.inr (.inl rfl), ⟨rs, htracks.takeFin _⟩, nofun⟩
    · exact ⟨.inr (.inr (.inl rfl)), ⟨rs, htracks.takeFin _⟩, nofun⟩
  | closed hs hack heq =>
    have hclosed := h.leave (.inr (.inr (.inr rfl)) : TcpState.opened .closed) nofun
    obtain rfl | rfl := heq <;> exact hclosed
  | syn hs | synAck hs | synAgain hs | opened hs | textInOrder hs | finInOrder hs =>
    rw [hs] at hopen
    obtain h | h | h | h := hopen <;> cases h

theorem step_receiving {e : Event} (he : FromNearby stream base c e)
    (h : Receiving stream base c.state c.rcv) :
    Receiving stream base (step env c e).state (step env c e).rcv := by
  have hclosed := h.leave (.inr (.inr (.inr rfl)) : TcpState.opened .closed) nofun
  have hstep := step_stepped env c e
  generalize step env c e = c' at hstep ⊢
  cases hstep with
  | dead => exact h
  | call hd hseg hcall =>
    cases hcall with
    | own own => exact h
    | sent hem hk =>
      rw [hem.state, hem.rcv]
      exact h
    | read hem =>
      rw [hem.state, hem.rcv]
      exact h.read _
    | fin own hcall hfin =>
      obtain ⟨hs, k, -, hem⟩ | ⟨hs, k, -, hem⟩ := hfin
      · cases e with
        | close | shutdownWr => exact absurd hs he
        | _ => exact hcall.elim
      · rw [hem.state, hem.rcv]
        exact h.leave (.inr (.inr (.inl rfl))) nofun
    | destroyed own hr => exact h
    | listen => exact False.elim he
    | timer s w hsame huna hwire hqueue => exact h
    | gaveUp s w hsame huna hwire hqueue hex => exact hclosed
  | reset hd hrst heq => obtain rfl | rfl := heq <;> exact hclosed
  | segment hd hrst hp hseg =>
    refine hseg.receiving (by rw [hp.state, hp.rcv]; exact h) ?_
    rw [hp.state, hp.rcv]
    intro hs hne
    obtain ⟨q, ⟨hseq, hpiece⟩, hnear⟩ := he hne
    obtain ⟨hsyn, hreach⟩ := hnear hs hrst
    rw [hsyn, if_neg (by simp), UInt32.add_zero] at hseq
    exact ⟨q, hseq, hpiece, hreach⟩

end Runs

/-- **Whatever pieces of its stream the peer sends, and however they are read: as long as text
comes without a SYN and from within reach, the reader gets a prefix of the stream.** -/
theorem receive_stream (stream : Nat → UInt8) (base : UInt32) (env : TcpEnv) (c : TcpConnection)
    (hc : JustOpen base c) (es : List Event) (hes : Admissible env (FromNearby stream base) c es) :
    StreamSound stream base (run env c es) := by
  have h := hes.keeps (fun c => Receiving stream base c.state c.rcv) (fun c e he hc => step_receiving he hc)
    hc.receiving
  exact h.sound

/-- A connection right after its handshake; the peer's stream starts at 8. -/
def opened : TcpConnection := run .reliable (tcpConnect .reliable 0 1000 true) [.segment 5 0 peerSynAck]

theorem opened_justOpen : JustOpen 8 opened :=
  ⟨by decide +kernel, by decide +kernel, by decide +kernel, by decide +kernel, by decide +kernel,
    by decide +kernel⟩

/-- The second two bytes of the stream come before the first two. -/
def swappedPieces : List Event :=
  [.segment 6 0 { peerSegment .onlyAck 1001 with seqNum := 10, payload := [2, 3] },
    .segment 7 0 { peerSegment .onlyAck 1001 with payload := [0, 1] }, .read 3]

/-- They are read in order. -/
theorem receive_stream_swapped :
    (run .reliable opened swappedPieces).rcv.delivered = [0, 1, 2] ∧
      StreamSound UInt8.ofNat 8 (run .reliable opened swappedPieces) :=
  ⟨by decide +kernel, receive_stream UInt8.ofNat 8 .reliable opened opened_justOpen swappedPieces
    ⟨fun _ => ⟨2, ⟨by decide +kernel, by decide +kernel⟩,
        fun _ _ => ⟨by decide +kernel, by decide +kernel⟩⟩,
      fun _ => ⟨0, ⟨by decide +kernel, by decide +kernel⟩,
        fun _ _ => ⟨by decide +kernel, by decide +kernel⟩⟩, trivial, trivial⟩⟩

/-- The peer's SYN-ACK comes once more, now with the first two bytes of the stream: its SYN is
taken for the first of them, and the second is read in its place. -/
theorem receive_stream_fails : ¬ ∀ stream base env c es, JustOpen base c →
    Admissible env (FromStream stream base) c es → StreamSound stream base (run env c es) := by
  intro h
  have hread := (h UInt8.ofNat 8 .reliable opened
    [.segment 6 0 { peerSynAck with payload := [0, 1] }, .read 2] opened_justOpen
    ⟨fun _ => ⟨0, by decide +kernel, by decide +kernel⟩, trivial, trivial⟩).read
  revert hread
  decide +kernel

end InDevOS.Net.Tcp
