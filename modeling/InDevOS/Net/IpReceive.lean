import InDevOS.Lib.OnesSum
import InDevOS.Net.Fragment

/-! Receiving an IPv4 frame (`ip_handle_packet` in `net_ip.c`).

The header checksum is verified in place: its two bytes are zeroed, the sum is taken and the
bytes are put back from a field that was read in host order, so on the little-endian machine
they come back swapped. A datagram put together from fragments is handed on behind a header
made from the last fragment's, with a 16-bit total length of 20 bytes more than the data.

`handover_right_iff` says when the frame is left as it was and the total length is that of
the header and the data. The slot is the one `ip_frag_find_or_create` finds for the
datagram; the ARP entry made for the sender and the counters are left out. -/
namespace InDevOS.Net
open Lib List

/-! ### The frame -/

section
variable (frame : List UInt8)

/-- A byte of the frame; the Ethernet header takes the first 14. -/
def octet (i : Nat) : Nat := (frame.getD i 0).toNat

def headerLen : Nat := octet frame 14 % 16 * 4
def totalLength : Nat := octet frame 16 * 256 + octet frame 17
def protocol : Nat := octet frame 23

/-- `flags_frag_raw` and the payload. -/
def fragOf : Frag where
  flagsFragment := octet frame 20 * 256 + octet frame 21
  payload := (frame.drop (14 + headerLen frame)).take (totalLength frame - headerLen frame)

/-- The checks before the checksum: lengths, version, and whether the packet is for us. -/
def addressed (ourIp : List UInt8) (frame : List UInt8) : Bool :=
  let dst := (frame.drop 30).take 4
  34 ≤ frame.length && octet frame 14 / 16 == 4 && 20 ≤ headerLen frame &&
    14 + headerLen frame ≤ frame.length &&
    (dst == [255, 255, 255, 255] || ourIp == [0, 0, 0, 0] || octet frame 30 == 127 || dst == ourIp)

/-- `ip_header_checksum_bytes`, of a header of an even number of bytes. -/
def ipHeaderChecksumBytes (header : List UInt8) : Nat := 65535 - foldCarries (wordSum header)

/-- The frame with the checksum zeroed for the calculation. -/
def zeroChecksum : List UInt8 := (frame.set 24 0).set 25 0

/-- The high half of the field as read is its second byte, and goes to the first. -/
def putBack : List UInt8 :=
  ((zeroChecksum frame).set 24 (frame.getD 25 0)).set 25 (frame.getD 24 0)

def checksumOk : Bool :=
  octet frame 24 * 256 + octet frame 25 ==
    ipHeaderChecksumBytes (((zeroChecksum frame).drop 14).take (headerLen frame))

end

/-! ### Handing on -/

/-- What a protocol is given: the data alone, or a frame with the data it carries. -/
inductive Handed where
  | icmp (data : List UInt8)
  | tcp (frame data : List UInt8)
  | udp (frame data : List UInt8)

/-- The dispatch on the protocol. -/
def dispatch (frame data : List UInt8) : Option Handed :=
  if protocol frame = 1 then (if 8 ≤ data.length then some (.icmp data) else none)
  else if protocol frame = 6 then some (.tcp frame data)
  else if protocol frame = 17 then some (.udp frame data)
  else none

/-- The synthetic frame of a datagram that was put together. -/
def synthFrame (frame data : List UInt8) : List UInt8 :=
  let synthTotal := (20 + data.length) % 65536
  ((((frame.take 34).set 16 (UInt8.ofNat (synthTotal / 256))).set 17
    (UInt8.ofNat (synthTotal % 256))).set 20 0).set 21 0 ++ data

/-- What the allocator has for a piece, for the datagram and for the synthetic frame. -/
structure RxMemory where
  piece : Bool
  datagram : Bool
  synth : Bool

/-- The frame and the slot afterwards, and what was handed on. -/
structure Receipt where
  frame : List UInt8
  slot : FragSlot
  handed : Option Handed

/-- The branch for fragments; `buf` is what the buffer for the datagram happens to hold. -/
def handleFragment (mem : RxMemory) (buf : Nat → UInt8) (slot : FragSlot) (frame : List UInt8) :
    Receipt :=
  match ipHandleFragment mem.piece slot (fragOf frame) with
  | (false, slot) => ⟨frame, slot, none⟩
  | (true, slot) =>
    match if mem.datagram then ipFragReassemble slot buf else none with
    | none => ⟨frame, .fresh, none⟩
    | some data =>
      ⟨frame, .fresh, if mem.synth then dispatch (synthFrame frame data) data else none⟩

def Frag.isFragment (f : Frag) : Bool := f.moreFragments || 0 < f.offset

def ipHandlePacket (ourIp : List UInt8) (mem : RxMemory) (buf : Nat → UInt8) (slot : FragSlot)
    (frame : List UInt8) : Receipt :=
  if !addressed ourIp frame then ⟨frame, slot, none⟩
  else if !checksumOk frame then ⟨putBack frame, slot, none⟩
  else
    let frame := putBack frame
    if totalLength frame < headerLen frame ∨ frame.length < 14 + totalLength frame then
      ⟨frame, slot, none⟩
    else if (fragOf frame).isFragment then handleFragment mem buf slot frame
    else ⟨frame, slot, dispatch frame (fragOf frame).payload⟩

/-! ### What is owed -/

/-- The header a protocol is given states the length of header and data. -/
def Handed.Sized : Handed → Prop
  | .icmp _ => True
  | .tcp frame data => totalLength frame = headerLen frame + data.length
  | .udp frame data => totalLength frame = headerLen frame + data.length

structure Receipt.Right (r : Receipt) (frame : List UInt8) : Prop where
  unchanged : r.frame = frame
  sized : ∀ h, r.handed = some h → h.Sized

/-- The frame is a fragment for TCP or UDP that passes every check and completes its
datagram, with memory to hand it on. -/
structure Completes (ourIp : List UInt8) (mem : RxMemory) (slot : FragSlot) (frame : List UInt8) :
    Prop where
  addressed : addressed ourIp frame = true
  checksum : checksumOk frame = true
  header : headerLen frame ≤ totalLength frame
  whole : 14 + totalLength frame ≤ frame.length
  fragment : (fragOf frame).isFragment = true
  complete : (ipHandleFragment mem.piece slot (fragOf frame)).1 = true
  memory : mem.datagram = true ∧ mem.synth = true
  protocol : protocol frame = 6 ∨ protocol frame = 17

/-- The length of the datagram: known before, or from this fragment. -/
def datagramLen (slot : FragSlot) (f : Frag) : Nat :=
  if f.moreFragments then slot.totalLen else (f.offset + f.payload.length) % 65536

variable {frame data ourIp : List UInt8} {mem : RxMemory} {buf : Nat → UInt8} {slot : FragSlot}

/-! ### Reading the changed frames -/

theorem octet_set_ne {i j : Nat} (h : i ≠ j) (l : List UInt8) (b : UInt8) :
    octet (l.set i b) j = octet l j := by
  simp only [octet, getD_eq_getElem?_getD, getElem?_set_ne h]

theorem octet_set_self {i : Nat} {l : List UInt8} (h : i < l.length) (b : UInt8) :
    octet (l.set i b) i = b.toNat := by
  simp [octet, getD_eq_getElem?_getD, getElem?_set_self h]

theorem octet_putBack {i : Nat} (h24 : 24 ≠ i) (h25 : 25 ≠ i) : octet (putBack frame) i = octet frame i := by
  rw [putBack, zeroChecksum, octet_set_ne h25, octet_set_ne h24, octet_set_ne h25, octet_set_ne h24]

@[simp] theorem headerLen_putBack : headerLen (putBack frame) = headerLen frame := by
  rw [headerLen, octet_putBack (by decide) (by decide), headerLen]

@[simp] theorem totalLength_putBack : totalLength (putBack frame) = totalLength frame := by
  rw [totalLength, octet_putBack (by decide) (by decide), octet_putBack (by decide) (by decide),
    totalLength]

@[simp] theorem protocol_putBack : protocol (putBack frame) = protocol frame :=
  octet_putBack (by decide) (by decide)

@[simp] theorem length_putBack : (putBack frame).length = frame.length := by
  simp [putBack, zeroChecksum]

theorem fragOf_putBack (h : 20 ≤ headerLen frame) : fragOf (putBack frame) = fragOf frame := by
  have hdrop : (putBack frame).drop (14 + headerLen frame) = frame.drop (14 + headerLen frame) := by
    simp only [putBack, zeroChecksum]
    rw [drop_set_of_lt (by omega), drop_set_of_lt (by omega), drop_set_of_lt (by omega),
      drop_set_of_lt (by omega)]
  have h20 : octet (putBack frame) 20 = octet frame 20 := octet_putBack (by decide) (by decide)
  have h21 : octet (putBack frame) 21 = octet frame 21 := octet_putBack (by decide) (by decide)
  simp only [fragOf, headerLen_putBack, totalLength_putBack, hdrop, h20, h21]

theorem putBack_eq_iff (h : 34 ≤ frame.length) :
    putBack frame = frame ↔ octet frame 24 = octet frame 25 := by
  have h24 : octet (putBack frame) 24 = octet frame 25 := by
    rw [putBack, octet_set_ne (by decide), octet_set_self (by simp [zeroChecksum]; omega)]
    rfl
  have h25 : octet (putBack frame) 25 = octet frame 24 := by
    rw [putBack, octet_set_self (by simp [zeroChecksum]; omega)]
    rfl
  constructor
  · intro heq
    rw [← h25, heq]
  · intro heq
    refine ext_getElem length_putBack fun i hi hi' => UInt8.toNat_inj.1 ?_
    have hoctet : octet (putBack frame) i = octet frame i := by
      by_cases hi24 : 24 = i
      · rw [← hi24, h24, heq]
      · by_cases hi25 : 25 = i
        · rw [← hi25, h25, heq]
        · exact octet_putBack hi24 hi25
    simpa [octet, getD_eq_getElem?_getD, hi, hi'] using hoctet

theorem octet_append {i : Nat} {l : List UInt8} (h : i < l.length) : octet (l ++ data) i = octet l i := by
  simp only [octet, getD_eq_getElem?_getD, getElem?_append_left h]

theorem octet_synth {i : Nat} (h : i < 34) (hf : 34 ≤ frame.length) (h16 : 16 ≠ i) (h17 : 17 ≠ i)
    (h20 : 20 ≠ i) (h21 : 21 ≠ i) : octet (synthFrame frame data) i = octet frame i := by
  rw [synthFrame, octet_append (by simp; omega), octet_set_ne h21, octet_set_ne h20, octet_set_ne h17,
    octet_set_ne h16, octet, octet, getD_eq_getElem?_getD, getElem?_take_of_lt h,
    getD_eq_getElem?_getD]

theorem totalLength_synth (hf : 34 ≤ frame.length) :
    totalLength (synthFrame frame data) = (20 + data.length) % 65536 := by
  have hlen : (frame.take 34).length = 34 := by rw [length_take]; omega
  have hlt : (20 + data.length) % 65536 < 65536 := Nat.mod_lt _ (by decide)
  rw [totalLength, synthFrame, octet_append (by simp; omega), octet_append (by simp; omega)]
  simp only [octet_set_ne (by decide : (21 : Nat) ≠ 16), octet_set_ne (by decide : (20 : Nat) ≠ 16),
    octet_set_ne (by decide : (17 : Nat) ≠ 16), octet_set_ne (by decide : (21 : Nat) ≠ 17),
    octet_set_ne (by decide : (20 : Nat) ≠ 17)]
  rw [octet_set_self (by rw [hlen]; decide), octet_set_self (by rw [length_set, hlen]; decide),
    UInt8.toNat_ofNat_of_lt' (by unfold UInt8.size; omega),
    UInt8.toNat_ofNat_of_lt' (by unfold UInt8.size; omega)]
  omega

theorem headerLen_synth (hf : 34 ≤ frame.length) : headerLen (synthFrame frame data) = headerLen frame := by
  rw [headerLen, octet_synth (by decide) hf (by decide) (by decide) (by decide) (by decide), headerLen]

theorem protocol_synth (hf : 34 ≤ frame.length) : protocol (synthFrame frame data) = protocol frame :=
  octet_synth (by decide) hf (by decide) (by decide) (by decide) (by decide)

/-! ### Handing on -/

theorem dispatch_sized_iff : (∀ h, dispatch frame data = some h → h.Sized) ↔
    (protocol frame = 6 ∨ protocol frame = 17 → totalLength frame = headerLen frame + data.length) := by
  unfold dispatch
  split_ifs with h1 h8 h6 h17
  · simp [h1, Handed.Sized]
  · simp [h1]
  · simp [h6, Handed.Sized]
  · simp [h17, Handed.Sized]
  · simp [h6, h17]

theorem length_reassembled (h : ipFragReassemble slot buf = some data) : data.length = slot.totalLen := by
  unfold ipFragReassemble at h
  split_ifs at h
  obtain rfl := Option.some.inj h
  simp

theorem length_payload (h : 14 + totalLength frame ≤ frame.length) (hh : headerLen frame ≤ totalLength frame) :
    totalLength frame = headerLen frame + (fragOf frame).payload.length := by
  rw [fragOf, length_take, length_drop]
  omega

theorem length_of_addressed (h : addressed ourIp frame = true) : 34 ≤ frame.length ∧ 20 ≤ headerLen frame := by
  unfold addressed at h
  simp only [Bool.and_eq_true, decide_eq_true_eq] at h
  exact ⟨h.1.1.1.1, h.1.1.2⟩

/-- The fragment branch hands on a sized frame, unless it completes a datagram whose length
does not fit or comes with options. -/
theorem handleFragment_sized_iff (hf : 34 ≤ frame.length) :
    (∀ h, (handleFragment mem buf slot frame).handed = some h → h.Sized) ↔
      ((ipHandleFragment mem.piece slot (fragOf frame)).1 = true →
        mem.datagram = true ∧ mem.synth = true → protocol frame = 6 ∨ protocol frame = 17 →
        headerLen frame = 20 ∧ datagramLen slot (fragOf frame) ≤ 65515) := by
  unfold handleFragment
  obtain hdrop | ⟨hb, hadd⟩ := ipHandleFragment_cases mem.piece slot (fragOf frame)
  · rw [hdrop]
    simp
  · rw [hadd]
    have htotal : (slot.add (fragOf frame).offset (fragOf frame).payload (fragOf frame).moreFragments).totalLen =
        datagramLen slot (fragOf frame) := rfl
    generalize slot.add _ _ _ = s' at htotal
    cases hc : s'.complete with
    | false => simp
    | true =>
      have hpos : 0 < s'.totalLen := by
        unfold FragSlot.complete at hc
        split_ifs at hc with hlens
        exact hlens.1
      cases hm : mem.datagram with
      | false => simp
      | true =>
        obtain ⟨data, hdata⟩ : ∃ data, ipFragReassemble s' buf = some data :=
          ⟨_, if_neg (Nat.ne_of_gt hpos)⟩
        have hlen := length_reassembled hdata
        cases hsynth : mem.synth with
        | false => simp [hdata]
        | true =>
          simp only [if_true, hdata]
          rw [dispatch_sized_iff, protocol_synth hf, totalLength_synth hf, headerLen_synth hf, hlen, htotal]
          refine ⟨fun h _ _ hp => ?_, fun h hp => ?_⟩
          · have hsum := h hp
            omega
          · obtain ⟨h20, hle⟩ := h trivial ⟨trivial, trivial⟩ hp
            rw [h20, Nat.mod_eq_of_lt (by omega)]

theorem handleFragment_frame : (handleFragment mem buf slot frame).frame = frame := by
  unfold handleFragment
  split
  · rfl
  · split
    · rfl
    · split <;> rfl

theorem ipHandlePacket_frame : (ipHandlePacket ourIp mem buf slot frame).frame =
    if addressed ourIp frame then putBack frame else frame := by
  unfold ipHandlePacket
  cases addressed ourIp frame with
  | false => rfl
  | true =>
    rw [if_neg (by simp), if_pos rfl]
    dsimp only
    split_ifs
    · rfl
    · rfl
    · exact handleFragment_frame
    · rfl

theorem ipHandlePacket_sized_iff :
    (∀ h, (ipHandlePacket ourIp mem buf slot frame).handed = some h → h.Sized) ↔
      (Completes ourIp mem slot frame → headerLen frame = 20 ∧ datagramLen slot (fragOf frame) ≤ 65515) := by
  unfold ipHandlePacket
  by_cases ha : addressed ourIp frame = true
  swap
  · have hnot : ¬ Completes ourIp mem slot frame := fun h => ha h.addressed
    simp [ha, hnot]
  by_cases hc : checksumOk frame = true
  swap
  · have hnot : ¬ Completes ourIp mem slot frame := fun h => hc h.checksum
    simp [ha, hc, hnot]
  obtain ⟨hf, h20⟩ := length_of_addressed ha
  rw [ha, hc, if_neg (by simp), if_neg (by simp)]
  dsimp only
  rw [totalLength_putBack, headerLen_putBack, length_putBack, fragOf_putBack h20]
  by_cases hlen : totalLength frame < headerLen frame ∨ frame.length < 14 + totalLength frame
  · have hnot : ¬ Completes ourIp mem slot frame := fun h => by
      have := h.header
      have := h.whole
      omega
    simp [hlen, hnot]
  rw [if_neg hlen]
  have hheader : headerLen frame ≤ totalLength frame := by omega
  have hwhole : 14 + totalLength frame ≤ frame.length := by omega
  by_cases hfrag : (fragOf frame).isFragment = true
  · rw [if_pos hfrag, handleFragment_sized_iff (by rwa [length_putBack]), fragOf_putBack h20,
      protocol_putBack, headerLen_putBack]
    exact ⟨fun h hcomp => h hcomp.complete hcomp.memory hcomp.protocol, fun h hdone hmem hprot =>
      h ⟨ha, hc, hheader, hwhole, hfrag, hdone, hmem, hprot⟩⟩
  · have hnot : ¬ Completes ourIp mem slot frame := fun h => hfrag h.fragment
    rw [if_neg hfrag]
    refine iff_of_true (dispatch_sized_iff.2 fun _ => ?_) fun h => absurd h hnot
    rw [totalLength_putBack, headerLen_putBack]
    exact length_payload hwhole hheader

/-- **A received frame is left as it was and handed on with its length** exactly when the
frame is dropped before its checksum is taken or the two checksum bytes are equal, and no
datagram is completed by a fragment with options or longer than 65515 bytes. -/
theorem handover_right_iff (ourIp : List UInt8) (mem : RxMemory) (buf : Nat → UInt8)
    (slot : FragSlot) (frame : List UInt8) :
    (ipHandlePacket ourIp mem buf slot frame).Right frame ↔
      (addressed ourIp frame = true → octet frame 24 = octet frame 25) ∧
      (Completes ourIp mem slot frame → headerLen frame = 20 ∧ datagramLen slot (fragOf frame) ≤ 65515) := by
  have hframe : (ipHandlePacket ourIp mem buf slot frame).frame = frame ↔
      (addressed ourIp frame = true → octet frame 24 = octet frame 25) := by
    rw [ipHandlePacket_frame]
    split_ifs with ha
    · rw [putBack_eq_iff (length_of_addressed ha).1]
      exact ⟨fun h _ => h, fun h => h ha⟩
    · exact iff_of_true rfl fun h => absurd h ha
  rw [← hframe, ← ipHandlePacket_sized_iff]
  exact ⟨fun h => ⟨h.unchanged, h.sized⟩, fun h => ⟨h.1, h.2⟩⟩

/-- A fragment with four bytes of options, at offset 8 of a datagram of twelve bytes. -/
def optionsFrag : List UInt8 :=
  List.replicate 14 0 ++ [0x46, 0, 0, 28, 0, 0, 0, 1, 0, 6, 58, 219, 0, 0, 0, 0, 127, 0, 0, 1,
    0, 0, 0, 0, 9, 10, 11, 12]

/-- The slot with the first eight bytes. -/
def firstEight : FragSlot := ⟨0, 8, [⟨0, [1, 2, 3, 4, 5, 6, 7, 8]⟩]⟩

theorem optionsFrag_checksum : checksumOk optionsFrag = true := by
  decide +kernel

set_option maxRecDepth 4096 in
/-- Its checksum bytes are swapped; the datagram is handed to TCP with a header of 24 bytes
and a total length of 32 for twelve bytes of data; and a datagram of 65516 bytes would be
handed on with a total length of zero. -/
theorem handover_wrong :
    (ipHandlePacket [10, 0, 0, 1] ⟨true, true, true⟩ (fun _ => 0) firstEight optionsFrag).frame ≠
      optionsFrag ∧
    (∃ frame data, (ipHandlePacket [10, 0, 0, 1] ⟨true, true, true⟩ (fun _ => 0) firstEight
        optionsFrag).handed = some (.tcp frame data) ∧
      totalLength frame = 32 ∧ headerLen frame = 24 ∧ data.length = 12) ∧
    totalLength (synthFrame optionsFrag (List.replicate 65516 0)) = 0 := by
  have hrun : ipHandlePacket [10, 0, 0, 1] ⟨true, true, true⟩ (fun _ => 0) firstEight optionsFrag =
      handleFragment ⟨true, true, true⟩ (fun _ => 0) firstEight (putBack optionsFrag) := by
    rw [ipHandlePacket, optionsFrag_checksum]
    rfl
  refine ⟨?_, ?_, ?_⟩
  · decide +kernel
  · rw [hrun]
    exact ⟨synthFrame (putBack optionsFrag) [1, 2, 3, 4, 5, 6, 7, 8, 9, 10, 11, 12], _, rfl,
      by decide +kernel, by decide +kernel, by decide +kernel⟩
  · rw [totalLength_synth (by decide), length_replicate]

end InDevOS.Net
