import InDevOS.Lib.OnesSum
import InDevOS.Net.Tcp.Connection

/-! The TCP checksum (`tcp_checksum` in `net_tcp.c`), from the packet that is built for a
segment to the check of a received one.

Addresses, protocol, length and the bytes of the packet are added in 32 bits and folded
twice. Neither loses anything for a packet of at most 65535 bytes, and a packet sent is not
dropped. Up to 65515 bytes it is dropped with any one bit of its bytes or of the two
addresses turned over; a longer one is not checked at all, since with the IP header its
length does not fit the 16-bit field (`checksum_guards_iff`). -/
namespace InDevOS.Net.Tcp
open Lib

/-! ### The sum -/

/-- Two bytes as a big-endian word. -/
def word (a b : UInt8) : UInt32 := a.toUInt32 <<< 8 ||| b.toUInt32

/-- The loop over the packet; an odd last byte is the high half of a word. -/
def addWords (sum : UInt32) : List UInt8 → UInt32
  | a :: b :: rest => addWords (sum + word a b) rest
  | [a] => sum + a.toUInt32 <<< 8
  | [] => sum

abbrev Ip := Vector UInt8 4

section
variable (src dst : Ip)

/-- The accumulator of `tcp_checksum` before it is folded; the length is a `uint16_t`. -/
def checksumSum (packet : List UInt8) : UInt32 :=
  let pseudo := word src[0] src[1] + word src[2] src[3] + word dst[0] dst[1] + word dst[2] dst[3] +
    6 + UInt32.ofNat (packet.length % 65536)
  addWords pseudo (packet.take (packet.length % 65536))

def foldOnce (sum : UInt32) : UInt32 := (sum >>> 16) + (sum &&& 0xFFFF)

def tcpChecksum (packet : List UInt8) : UInt16 :=
  (~~~ foldOnce (foldOnce (checksumSum src dst packet))).toUInt16

/-! ### The packet -/

def be16 (x : UInt16) : List UInt8 := [UInt8.ofNat (x.toNat / 256), UInt8.ofNat (x.toNat % 256)]
def be32 (x : UInt32) : List UInt8 := be16 (x >>> 16).toUInt16 ++ be16 x.toUInt16

def TcpFlags.toByte (f : TcpFlags) : UInt8 :=
  (if f.fin then 1 else 0) + (if f.syn then 2 else 0) + (if f.rst then 4 else 0) +
    (if f.psh then 8 else 0) + (if f.ack then 16 else 0)

/-- The options are padded to a multiple of four. -/
def padding (options : List UInt8) : Nat := (4 - (20 + options.length) % 4) % 4

/-- The packet of `tcp_send_packet_with_options`, with the given checksum field. -/
def packet (srcPort dstPort : UInt16) (s : TcpSegment) (checksum : UInt16) : List UInt8 :=
  let headerSize := 20 + s.options.length + padding s.options
  be16 srcPort ++ be16 dstPort ++ be32 s.seqNum ++ be32 s.ackNum ++
    [UInt8.ofNat (headerSize / 4 * 16), s.flags.toByte] ++ be16 s.window ++ be16 checksum ++ [0, 0] ++
    s.options ++ List.replicate (padding s.options) 0 ++ s.payload

/-- What is given to the IP layer: the checksum is taken with its field zero. -/
def sentPacket (srcPort dstPort : UInt16) (s : TcpSegment) : List UInt8 :=
  packet srcPort dstPort s (tcpChecksum src dst (packet srcPort dstPort s 0))

/-- The total length in the IP header in front of a segment, a 16-bit field that
`ip_handle_packet` fills with `synth_total` after reassembly. -/
def ipTotal (segment : List UInt8) : Nat := (20 + segment.length) % 65536

/-- `ip_len_sane` for a frame that ends with the segment. -/
def ipLenSane (segment : List UInt8) : Bool :=
  20 + 20 ≤ ipTotal segment && 14 + ipTotal segment ≤ 34 + segment.length

/-- The check of `tcp_handle_packet_in`, made when the IP total length can be trusted. -/
def dropsChecksum (segment : List UInt8) : Bool :=
  let tcpSegLen := if ipLenSane segment then ipTotal segment - 20 else segment.length
  ipLenSane segment && tcpSegLen ≤ 0xFFFF && tcpChecksum src dst (segment.take tcpSegLen) != 0

/-! ### Nothing is lost -/

/-- What is added up. -/
def exactSum (packet : List UInt8) : Nat :=
  wordSum (src.toList ++ dst.toList ++ packet) + (6 + packet.length)

theorem toNat_word (a b : UInt8) : (word a b).toNat = a.toNat * 256 + b.toNat := by
  have ha := a.toNat_lt
  have hb := b.toNat_lt
  show (a.toNat <<< 8) % 2 ^ 32 ||| b.toNat = _
  rw [Nat.shiftLeft_eq, Nat.mod_eq_of_lt (by omega), mul_comm, Nat.two_pow_add_eq_or_of_lt hb, mul_comm]

theorem toNat_addWords {sum : UInt32} {bytes : List UInt8} (h : sum.toNat + wordSum bytes < 2 ^ 32) :
    (addWords sum bytes).toNat = sum.toNat + wordSum bytes := by
  induction bytes using wordSum.induct generalizing sum with
  | case1 => rfl
  | case2 a =>
    have hlast : a.toUInt32 <<< 8 = word a 0 := by simp [word]
    rw [wordSum] at h
    have hzero : (0 : UInt8).toNat = 0 := rfl
    rw [addWords, hlast, UInt32.toNat_add, toNat_word, wordSum]
    omega
  | case3 a b rest ih =>
    rw [wordSum] at h
    have hadd : (sum + word a b).toNat = sum.toNat + (a.toNat * 256 + b.toNat) := by
      rw [UInt32.toNat_add, toNat_word]
      omega
    rw [addWords, ih (by omega), hadd, wordSum]
    omega

theorem toList_ip (a : Ip) : a.toList = [a[0], a[1], a[2], a[3]] := by
  refine List.ext_getElem (by simp) fun i h _ => ?_
  rw [Vector.length_toList] at h
  interval_cases i <;> rfl

theorem exactSum_eq (packet : List UInt8) : exactSum src dst packet =
    wordSum src.toList + wordSum dst.toList + wordSum packet + (6 + packet.length) := by
  rw [exactSum, wordSum_append _ (by simp), wordSum_append _ (by simp)]

theorem exactSum_lt {packet : List UInt8} (h : packet.length ≤ 65535) :
    exactSum src dst packet < 2 ^ 32 := by
  have hsrc := wordSum_le src.toList
  have hdst := wordSum_le dst.toList
  have hpacket := wordSum_le packet
  rw [Vector.length_toList] at hsrc hdst
  rw [exactSum_eq]
  omega

theorem toNat_checksumSum {packet : List UInt8} (h : packet.length ≤ 65535) :
    (checksumSum src dst packet).toNat = exactSum src dst packet := by
  have hlt := exactSum_lt src dst h
  have hmod : packet.length % 65536 = packet.length := Nat.mod_eq_of_lt (by omega)
  rw [exactSum_eq, toList_ip src, toList_ip dst] at hlt ⊢
  simp only [wordSum] at hlt ⊢
  rw [checksumSum, hmod, List.take_length, toNat_addWords]
  all_goals
    simp only [UInt32.toNat_add, toNat_word, UInt32.toNat_ofNat', UInt32.reduceToNat]
    omega

theorem toNat_foldOnce (sum : UInt32) :
    (foldOnce sum).toNat = sum.toNat / 65536 + sum.toNat % 65536 := by
  have hlt := sum.toNat_lt
  have hand : sum.toNat &&& 65535 = sum.toNat % 65536 := Nat.and_two_pow_sub_one_eq_mod sum.toNat 16
  show (sum.toNat >>> 16 + (sum.toNat &&& 65535)) % 2 ^ 32 = _
  omega

theorem toNat_fold_lt (sum : UInt32) : (foldOnce (foldOnce sum)).toNat < 65536 := by
  have hlt := sum.toNat_lt
  rw [toNat_foldOnce, toNat_foldOnce]
  omega

/-- The checksum with the sum makes a multiple of 65535. -/
theorem toNat_tcpChecksum {packet : List UInt8} (h : packet.length ≤ 65535) :
    (exactSum src dst packet + (tcpChecksum src dst packet).toNat) % 65535 = 0 ∧
      (tcpChecksum src dst packet = 0 ↔ exactSum src dst packet % 65535 = 0) := by
  have hpos : 0 < exactSum src dst packet := by
    rw [exactSum]
    omega
  have hlt := exactSum_lt src dst h
  have hfold := toNat_fold_lt (checksumSum src dst packet)
  have hval : (tcpChecksum src dst packet).toNat =
      65535 - (foldOnce (foldOnce (checksumSum src dst packet))).toNat := by
    rw [tcpChecksum, UInt32.toNat_toUInt16, UInt32.toNat_not, UInt32.size]
    omega
  have hzero : tcpChecksum src dst packet = 0 ↔ (tcpChecksum src dst packet).toNat = 0 := by
    rw [← UInt16.toNat_inj]
    rfl
  rw [hzero, hval]
  rw [toNat_foldOnce, toNat_foldOnce, toNat_checksumSum src dst h] at hfold ⊢
  omega

end

/-! ### Sent and received -/

theorem wordSum_be16_append (x : UInt16) (rest : List UInt8) :
    wordSum (be16 x ++ rest) = x.toNat + wordSum rest := by
  have := x.toNat_lt
  simp only [be16, List.cons_append, List.nil_append, wordSum, UInt8.toNat_ofNat']
  omega

section
variable (srcPort dstPort : UInt16) (s : TcpSegment) (checksum : UInt16)

theorem length_packet : (packet srcPort dstPort s checksum).length =
      20 + s.options.length + padding s.options + s.payload.length := by
  simp [packet, be16, be32]
  omega

theorem wordSum_packet : wordSum (packet srcPort dstPort s checksum) =
      wordSum (packet srcPort dstPort s 0) + checksum.toNat := by
  have hzero : (0 : UInt16).toNat = 0 := rfl
  simp only [packet, be32, List.append_assoc, wordSum_be16_append, List.cons_append, List.nil_append,
    wordSum, hzero]
  ring

end

section
variable (src dst : Ip) (srcPort dstPort : UInt16) (s : TcpSegment)

theorem sentPacket_kept
    (h : (sentPacket src dst srcPort dstPort s).length ≤ 65535) :
    exactSum src dst (sentPacket src dst srcPort dstPort s) % 65535 = 0 := by
  have hlen : (packet srcPort dstPort s 0).length ≤ 65535 := by
    rw [sentPacket, length_packet] at h
    rwa [length_packet]
  have hsum := (toNat_tcpChecksum src dst hlen).1
  rw [sentPacket, exactSum_eq, wordSum_packet, length_packet]
  rw [exactSum_eq, length_packet] at hsum
  omega

end

/-- The sum loses nothing, the packet sent is taken, and with one bit turned over it is not. -/
structure ChecksumGuards (src dst : Ip) (srcPort dstPort : UInt16) (s : TcpSegment) : Prop where
  exact : ∀ bytes : List UInt8, bytes.length ≤ 65535 →
    (checksumSum src dst bytes).toNat = exactSum src dst bytes ∧
      (foldOnce (foldOnce (checksumSum src dst bytes))).toNat < 65536
  kept : dropsChecksum src dst (sentPacket src dst srcPort dstPort s) = false
  dropped : ∀ (src' dst' : Ip) (segment : List UInt8),
    OneBit (src.toList ++ dst.toList ++ sentPacket src dst srcPort dstPort s)
      (src'.toList ++ dst'.toList ++ segment) → dropsChecksum src' dst' segment = true

section
variable {src dst : Ip} {srcPort dstPort : UInt16} {s : TcpSegment}

theorem length_sentPacket : 20 ≤ (sentPacket src dst srcPort dstPort s).length := by
  rw [sentPacket, length_packet]
  omega

theorem dropsChecksum_short {segment : List UInt8} (h₁ : 20 ≤ segment.length) (h₂ : segment.length ≤ 65515) :
    dropsChecksum src dst segment = (tcpChecksum src dst segment != 0) := by
  have htotal : ipTotal segment = 20 + segment.length := Nat.mod_eq_of_lt (by omega)
  have hsane : ipLenSane segment = true := by
    simp [ipLenSane, htotal]
    omega
  simp [dropsChecksum, hsane, htotal]
  omega

theorem dropsChecksum_long {segment : List UInt8} (h₁ : 65515 < segment.length) (h₂ : segment.length ≤ 65535) :
    dropsChecksum src dst segment = false := by
  have htotal : ¬ 20 + 20 ≤ ipTotal segment := by
    unfold ipTotal
    omega
  have hsane : ipLenSane segment = false := by simp [ipLenSane, htotal]
  simp [dropsChecksum, hsane]

/-- Turning a bit of a packet over makes the sum wrong. -/
theorem flipped_dropped (h : (sentPacket src dst srcPort dstPort s).length ≤ 65515) {src' dst' : Ip}
    {segment : List UInt8} (hflip : OneBit (src.toList ++ dst.toList ++ sentPacket src dst srcPort dstPort s)
      (src'.toList ++ dst'.toList ++ segment)) : dropsChecksum src' dst' segment = true := by
  have hlen := hflip.length_eq
  simp only [List.length_append, Vector.length_toList] at hlen
  have hsize : segment.length = (sentPacket src dst srcPort dstPort s).length := by omega
  have hmin : 20 ≤ (sentPacket src dst srcPort dstPort s).length := length_sentPacket
  have hsent := sentPacket_kept src dst srcPort dstPort s (by omega)
  have hne : exactSum src' dst' segment % 65535 ≠ 0 := by
    have hmod := hflip.wordSum_mod_ne (6 + segment.length)
    rw [exactSum] at hsent ⊢
    rwa [hsize, hsent, ← hsize] at hmod
  rw [dropsChecksum_short (by omega) (by omega)]
  simpa using fun h0 => hne ((toNat_tcpChecksum src' dst' (by omega)).2.1 h0)

/-- **The checksum guards the packets of up to 65515 bytes**, and no longer ones. -/
theorem checksum_guards_iff (src dst : Ip) (srcPort dstPort : UInt16) (s : TcpSegment)
    (h : (sentPacket src dst srcPort dstPort s).length ≤ 65535) :
    ChecksumGuards src dst srcPort dstPort s ↔ (sentPacket src dst srcPort dstPort s).length ≤ 65515 := by
  constructor
  · intro hg
    by_contra hlong
    -- one bit of the first address
    have hflip : OneBit (src.toList ++ dst.toList ++ sentPacket src dst srcPort dstPort s)
        ((#v[src[0] ^^^ 1, src[1], src[2], src[3]] : Ip).toList ++ dst.toList ++
          sentPacket src dst srcPort dstPort s) := by
      rw [toList_ip src]
      exact .here src[0] 0 _
    have hdrop := hg.dropped _ _ _ hflip
    rw [dropsChecksum_long (by omega) h] at hdrop
    exact Bool.false_ne_true hdrop
  · intro hshort
    refine ⟨fun bytes hb => ⟨toNat_checksumSum src dst hb, toNat_fold_lt _⟩, ?_,
      fun _ _ _ => flipped_dropped hshort⟩
    have hsent := sentPacket_kept src dst srcPort dstPort s h
    rw [dropsChecksum_short length_sentPacket hshort, (toNat_tcpChecksum src dst h).2.2 hsent]
    rfl

end

/-- The packet sent from port 40000 to port 80, and the same with one bit of the first port turned over. -/
def fromPort (s : TcpSegment) : List UInt8 := sentPacket #v[10, 0, 0, 1] #v[10, 0, 0, 2] 40000 80 s

def flippedPort (s : TcpSegment) : List UInt8 :=
  packet 40256 80 s (tcpChecksum #v[10, 0, 0, 1] #v[10, 0, 0, 2] (packet 40000 80 s 0))

theorem oneBit_flippedPort (s : TcpSegment) :
    OneBit ((#v[10, 0, 0, 1] : Ip).toList ++ (#v[10, 0, 0, 2] : Ip).toList ++ fromPort s)
      ((#v[10, 0, 0, 1] : Ip).toList ++ (#v[10, 0, 0, 2] : Ip).toList ++ flippedPort s) :=
  .there 10 (.there 0 (.there 0 (.there 1 (.there 10 (.there 0 (.there 0 (.there 2 (.here 156 0 _))))))))

/-- A SYN with a maximum segment size. -/
def synSegment : TcpSegment := ⟨1, 0, .onlySyn, 65535, [2, 4, 5, 180], []⟩

theorem checksum_guards_iff_syn :
    dropsChecksum #v[10, 0, 0, 1] #v[10, 0, 0, 2] (fromPort synSegment) = false ∧
      dropsChecksum #v[10, 0, 0, 1] #v[10, 0, 0, 2] (flippedPort synSegment) = true :=
  have h := (checksum_guards_iff #v[10, 0, 0, 1] #v[10, 0, 0, 2] 40000 80 synSegment (by decide)).2 (by decide)
  ⟨h.kept, h.dropped _ _ _ (oneBit_flippedPort synSegment)⟩

/-- A data segment of 65516 bytes, taken with one bit wrong. -/
def longSegment : TcpSegment := ⟨1, 0, .onlyAck, 65535, [], List.replicate 65496 7⟩

theorem long_segment_unchecked : (fromPort longSegment).length = 65516 ∧
    OneBit ((#v[10, 0, 0, 1] : Ip).toList ++ (#v[10, 0, 0, 2] : Ip).toList ++ fromPort longSegment)
      ((#v[10, 0, 0, 1] : Ip).toList ++ (#v[10, 0, 0, 2] : Ip).toList ++ flippedPort longSegment) ∧
    dropsChecksum #v[10, 0, 0, 1] #v[10, 0, 0, 2] (flippedPort longSegment) = false := by
  have hlen : (flippedPort longSegment).length = 65516 := by
    rw [flippedPort, length_packet, longSegment, List.length_replicate]
    rfl
  refine ⟨?_, oneBit_flippedPort longSegment, dropsChecksum_long (by omega) (by omega)⟩
  rw [fromPort, sentPacket, length_packet]
  rwa [flippedPort, length_packet] at hlen

end InDevOS.Net.Tcp
