import InDevOS.Net.Ipv6

/-! The checksums of the ICMPv6 messages the stack sends.

Whoever builds a message sums it for one source address (`assumedSource`) and
`ipv6_send_packet` puts another decision into the header (`sourceAddr`). The checksum is
valid exactly when the two addresses have the same ones' complement sum
(`icmpv6_checksums`). Solicitations are always summed for the link-local address and
advertisements for their target, so with a global address configured they go out wrong
(`router_solicitation_invalid`). -/
namespace InDevOS.Net.Ipv6
open Lib List

/-! ### The pseudo-header -/

def be32 (n : Nat) : List UInt8 :=
  [UInt8.ofNat (n / 2 ^ 24), UInt8.ofNat (n / 2 ^ 16), UInt8.ofNat (n / 2 ^ 8), UInt8.ofNat n]

/-- The pseudo-header of RFC 2460: addresses, upper-layer length, next header. -/
def pseudoHeader (src dst : Addr) (len : Nat) : List UInt8 :=
  src.bytes ++ dst.bytes ++ be32 len ++ [0, 0, 0, 58]

/-- The checksum is valid for the addresses in the packet's own header. -/
def Packet.ChecksumValid (p : Packet) : Prop :=
  Verifies (pseudoHeader p.src p.dst p.payload.length ++ p.payload)

/-- A message whose checksum field is still zero. -/
structure Blank (msg : List UInt8) : Prop where
  long : 4 ≤ msg.length
  short : msg.length < 65536
  high : msg[2]? = some 0
  low : msg[3]? = some 0

theorem wordSum_be32 {n : Nat} (h : n < 65536) : wordSum (be32 n) = n := by
  simp only [be32, wordSum, UInt8.toNat_ofNat', Nat.reducePow]
  omega

theorem wordSum_pseudoHeader (src dst : Addr) {len : Nat} (h : len < 65536) :
    wordSum (pseudoHeader src dst len) = wordSum src.bytes + wordSum dst.bytes + len + 58 := by
  have hs := src.length_eq
  have hd := dst.length_eq
  have hb : (be32 len).length = 4 := rfl
  unfold pseudoHeader
  rw [wordSum_append _ (by simp only [length_append]; omega),
    wordSum_append _ (by simp only [length_append]; omega), wordSum_append _ (by omega),
    wordSum_be32 h]
  rfl

theorem length_setChecksum (msg : List UInt8) (cksum : Nat) :
    (setChecksum msg cksum).length = msg.length := by
  simp [setChecksum]

theorem getD_setChecksum (msg : List UInt8) (cksum : Nat) {i : Nat} (h2 : i ≠ 2) (h3 : i ≠ 3) :
    (setChecksum msg cksum).getD i 0 = msg.getD i 0 := by
  simp only [setChecksum, getD_eq_getElem?_getD]
  rw [getElem?_set_ne (Ne.symm h3), getElem?_set_ne (Ne.symm h2)]

theorem wordSum_setChecksum {msg : List UInt8} (h : Blank msg) {cksum : Nat} (hc : cksum < 65536) :
    wordSum (setChecksum msg cksum) = wordSum msg + cksum := by
  obtain ⟨hlong, -, hhigh, hlow⟩ := h
  match msg, hlong with
  | a :: b :: x :: y :: rest, _ =>
    have hx : x = 0 := by simpa using hhigh
    have hy : y = 0 := by simpa using hlow
    subst hx hy
    have hset : setChecksum (a :: b :: 0 :: 0 :: rest) cksum =
        a :: b :: UInt8.ofNat (cksum / 256) :: UInt8.ofNat (cksum % 256) :: rest := rfl
    rw [hset]
    simp only [wordSum, UInt8.toNat_ofNat', UInt8.toNat_zero, Nat.reducePow]
    omega

theorem sum_lt (src dst : Addr) {msg : List UInt8} (h : msg.length < 65536) :
    wordSum src.bytes + wordSum dst.bytes + msg.length + 58 + wordSum msg < 2 ^ 32 := by
  have hs := wordSum_le src.bytes
  have hd := wordSum_le dst.bytes
  have hm := wordSum_le msg
  rw [src.length_eq] at hs
  rw [dst.length_eq] at hd
  omega

/-- A message sealed for one source address verifies under another exactly when the two
have the same sum. -/
theorem sealed_verifies_iff (src src' dst : Addr) {msg : List UInt8} (h : Blank msg) :
    Verifies (pseudoHeader src' dst (sealed src dst msg).length ++ sealed src dst msg) ↔
      wordSum src.bytes % 65535 = wordSum src'.bytes % 65535 := by
  have heven : (pseudoHeader src' dst (sealed src dst msg).length).length % 2 = 0 := by
    simp [pseudoHeader, src'.length_eq, dst.length_eq, be32]
  have hlen : (sealed src dst msg).length = msg.length := length_setChecksum _ _
  have hck : icmpChecksum src dst msg < 65536 := by
    show 65535 - _ < 65536
    omega
  rw [Verifies, wordSum_append _ heven, hlen, wordSum_pseudoHeader _ _ h.short, sealed,
    wordSum_setChecksum h hck, icmpChecksum, Nat.mod_eq_of_lt (sum_lt src dst h.short),
    ← Nat.add_assoc, foldCarries_complement_iff (by omega)]
  omega

/-! ### What is sent -/

/-- The source address the builder of a message summed it for, by the message's type. -/
def Iface.assumedSource (s : Iface) (payload : List UInt8) : Addr :=
  let type := payload.getD 0 0
  if type = icmpv6EchoReply then s.echoSource
  else if type = icmpv6EchoRequest then s.pingSource
  else if type = icmpv6NeighborAdvertisement then Addr.read (fun i => payload.getD i 0) 8
  else s.linkLocal

/-- A packet in the form every send of the stack has. -/
structure Iface.Sends (s : Iface) (p : Packet) : Prop where
  nextHeader : p.nextHeader = 58
  src : p.src = s.sourceAddr
  payload : ∃ msg, Blank msg ∧ p.payload = sealed (s.assumedSource p.payload) p.dst msg

theorem Iface.Sends.valid_iff {s : Iface} {p : Packet} (h : s.Sends p) :
    p.ChecksumValid ↔
      wordSum (s.assumedSource p.payload).bytes % 65535 = wordSum p.src.bytes % 65535 := by
  obtain ⟨msg, hblank, hp⟩ := h.payload
  have hiff := sealed_verifies_iff (s.assumedSource p.payload) p.src p.dst hblank
  rw [← hp] at hiff
  exact hiff

theorem getD_sealed_zero (src dst : Addr) (msg : List UInt8) :
    (sealed src dst msg).getD 0 0 = msg.getD 0 0 :=
  getD_setChecksum msg _ (by decide) (by decide)

theorem Addr.read_append (a : Addr) (front back : List UInt8) :
    Addr.read (fun i => (front ++ a.bytes ++ back).getD i 0) front.length = a := by
  obtain ⟨bytes, hlen⟩ := a
  simp only [Addr.read, Addr.mk.injEq]
  refine ext_getElem (by simp [hlen]) fun i hi hi' => ?_
  rw [getElem_map, getElem_range, getD_eq_getElem?_getD, append_assoc,
    getElem?_append_right (by omega), Nat.add_sub_cancel_left,
    getElem?_append_left hi', getElem?_eq_getElem hi', Option.getD_some]

theorem Addr.read_sealed (src dst a : Addr) (msg front back : List UInt8)
    (hmsg : msg = front ++ a.bytes ++ back) (hfront : front.length = 8) :
    Addr.read (fun i => (sealed src dst msg).getD i 0) 8 = a := by
  have hread : Addr.read (fun i => (sealed src dst msg).getD i 0) 8 =
      Addr.read (fun i => msg.getD i 0) 8 := by
    simp only [Addr.read, Addr.mk.injEq]
    refine map_congr_left fun i _ => ?_
    exact getD_setChecksum msg _ (by omega) (by omega)
  rw [hread, hmsg, ← hfront]
  exact a.read_append front back

namespace Iface

variable {env : Env} {s : Iface} {p : Packet}

/-- Only the send path hands packets to the device, with the source it chooses. -/
theorem sendWith_sent {resolve : Addr → Int × List Packet} {dst : Addr}
    {nh : UInt8} {payload : List UInt8} {p : Packet}
    (h : p ∈ (s.sendWith resolve env dst nh payload).2) :
    (p.nextHeader = nh ∧ p.src = s.sourceAddr ∧ p.dst = dst ∧ p.payload = payload) ∨
      (dst.isMulticast = false ∧ p ∈ (resolve dst).2) := by
  unfold sendWith at h
  split at h
  · cases h
  split at h
  · cases h
  split at h
  · cases h
  split at h
  · next hmac =>
    refine .inr ⟨?_, h⟩
    unfold destMac at hmac
    cases hmulti : dst.isMulticast with
    | false => rfl
    | true =>
      rw [hmulti, if_pos rfl] at hmac
      cases hmac
  · split at h
    · rw [mem_singleton] at h
      subst h
      exact .inl ⟨rfl, rfl, rfl, rfl⟩
    · cases h

theorem blank_cons (type code : UInt8) {rest : List UInt8} (h : rest.length < 65532) :
    Blank (type :: code :: 0 :: 0 :: rest) where
  long := by simp
  short := by simp only [length_cons]; omega
  high := rfl
  low := rfl

theorem blank_solicitation (s : Iface) (target : Addr) : Blank (s.solicitation target) :=
  blank_cons _ _ (by simp [target.length_eq, s.mac.length_eq])

theorem blank_advertisement (s : Iface) (target : Addr) : Blank (s.advertisement target) :=
  blank_cons _ _ (by simp [target.length_eq, s.mac.length_eq])

theorem blank_routerSolicitation (s : Iface) : Blank s.routerSolicitation :=
  blank_cons _ _ (by simp [s.mac.length_eq])

theorem blank_echoRequest (seq : UInt16) : Blank (echoRequest seq) := blank_cons _ _ (by simp)

theorem blank_echoReply {payload : List UInt8} (h : 8 ≤ payload.length) :
    Blank (echoReply payload) := by
  match payload, h with
  | _ :: code :: _ :: _ :: rest, _ =>
    exact blank_cons icmpv6EchoReply code ((length_take_le _ _).trans_lt (by decide))

theorem neighborResolve_sends {target : Addr}
    (h : p ∈ (s.neighborResolve env target).2) : s.Sends p := by
  have hsolicit : p ∈ (s.sendWith (fun _ => (-1, [])) env (solicitedNodeAddr target) 58
      (sealed s.linkLocal (solicitedNodeAddr target) (s.solicitation target))).2 → s.Sends p := by
    intro h
    obtain ⟨hnh, hsrc, hdst, hpay⟩ | ⟨-, hp⟩ := sendWith_sent h
    · have htype : p.payload.getD 0 0 = icmpv6NeighborSolicitation := by
        rw [hpay, getD_sealed_zero]
        rfl
      have hassumed : s.assumedSource p.payload = s.linkLocal := by
        unfold assumedSource
        rw [htype]
        rfl
      refine ⟨hnh, hsrc, s.solicitation target, s.blank_solicitation target, ?_⟩
      rw [hassumed, hdst]
      exact hpay
    · cases hp
  unfold neighborResolve resolveWith at h
  split at h
  · split at h
    · cases h
    · exact hsolicit h
  · exact hsolicit h

/-- Sending a blank message sealed for the source its type stands for. -/
theorem sendPacket_sends {src dst : Addr} {msg : List UInt8}
    (hblank : Blank msg) (hassumed : s.assumedSource (sealed src dst msg) = src)
    (h : p ∈ (s.sendPacket env dst 58 (sealed src dst msg)).2) : s.Sends p := by
  obtain ⟨hnh, hsrc, hdst, hpay⟩ | ⟨-, hp⟩ := sendWith_sent h
  · refine ⟨hnh, hsrc, msg, hblank, ?_⟩
    rw [hdst, hpay, hassumed]
  · exact neighborResolve_sends hp

theorem assumedSource_of_type (src dst : Addr) {msg : List UInt8} {type : UInt8}
    (htype : msg.getD 0 0 = type) : s.assumedSource (sealed src dst msg) =
      if type = icmpv6EchoReply then s.echoSource
      else if type = icmpv6EchoRequest then s.pingSource
      else if type = icmpv6NeighborAdvertisement then
        Addr.read (fun i => (sealed src dst msg).getD i 0) 8
      else s.linkLocal := by
  unfold assumedSource
  rw [getD_sealed_zero, htype]

theorem echoReply_type {payload : List UInt8} (h : 8 ≤ payload.length) :
    (echoReply payload).getD 0 0 = icmpv6EchoReply := by
  match payload, h with
  | _ :: _ :: _ :: _ :: _, _ => rfl

section
variable {src : Addr} {payload : List UInt8} {p : Packet}

theorem handleEchoRequest_sends (h : p ∈ s.handleEchoRequest env src payload) : s.Sends p := by
  unfold handleEchoRequest at h
  split at h
  · cases h
  · next hlen =>
    have hlen : 8 ≤ payload.length := by omega
    refine sendPacket_sends (blank_echoReply hlen) ?_ h
    rw [assumedSource_of_type _ _ (echoReply_type hlen), if_pos rfl]

theorem ping_sends {dst : Addr}
    (h : p ∈ (s.ping env dst).2) : s.Sends p := by
  unfold ping at h
  split at h
  · cases h
  · have hsends := sendPacket_sends (blank_echoRequest _)
      (by rw [assumedSource_of_type _ _ rfl]; rfl) h
    exact ⟨hsends.nextHeader, hsends.src, hsends.payload⟩

theorem startSlaac_sends (h : p ∈ s.startSlaac env) :
    s.Sends p := by
  unfold startSlaac at h
  split at h
  · cases h
  · exact sendPacket_sends s.blank_routerSolicitation
      (by rw [assumedSource_of_type _ _ rfl]; rfl) h

/-! ### What learning a neighbour leaves alone -/

/-- The addresses of the interface are the same. -/
structure SameAddresses (s s' : Iface) : Prop where
  addresses : s'.addresses = s.addresses
  linkLocal : s'.linkLocal = s.linkLocal

theorem sameAddresses_learn (mem : Nat → UInt8) (kind : UInt8) (ip : Addr)
    (options : List (UInt8 × UInt8 × Nat)) (s : Iface) :
    SameAddresses s (options.foldl (learn mem kind ip) s) := by
  induction options generalizing s with
  | nil => exact ⟨rfl, rfl⟩
  | cons o options ih =>
    have hone : SameAddresses s (learn mem kind ip s o) := by
      unfold learn
      split <;> exact ⟨rfl, rfl⟩
    have hrest := ih (learn mem kind ip s o)
    exact ⟨hrest.addresses.trans hone.addresses, hrest.linkLocal.trans hone.linkLocal⟩

theorem SameAddresses.sends {s s' : Iface} (h : SameAddresses s s')
    (hp : s'.Sends p) : s.Sends p := by
  have hsource : s'.sourceAddr = s.sourceAddr := by
    unfold sourceAddr
    rw [h.addresses, h.linkLocal]
  have hassumed : s'.assumedSource p.payload = s.assumedSource p.payload := by
    unfold assumedSource echoSource pingSource
    rw [h.addresses, h.linkLocal]
  refine ⟨hp.nextHeader, hp.src.trans hsource, ?_⟩
  rw [← hassumed]
  exact hp.payload

theorem handleNeighborSolicit_sends (h : p ∈ (s.handleNeighborSolicit env src payload).2) : s.Sends p := by
  unfold handleNeighborSolicit at h
  dsimp only at h
  split at h
  · cases h
  split at h
  · cases h
  split at h
  · cases h
  · next options _ =>
    have hsame := sameAddresses_learn (memory env payload) ndOptSourceLinkAddr src options s
    refine hsame.sends (sendPacket_sends (blank_advertisement _ _) ?_ h)
    exact Addr.read_sealed _ _ _ _ _ _ (append_assoc _ _ _) rfl

theorem icmpv6Handle_sends (h : p ∈ (s.icmpv6Handle env src payload).2) : s.Sends p := by
  unfold icmpv6Handle at h
  dsimp only at h
  split at h
  · cases h
  split at h
  · exact handleEchoRequest_sends h
  split at h
  · cases h
  split at h
  · exact handleNeighborSolicit_sends h
  split at h <;> cases h

end

theorem handlePacket_sends {frame : List UInt8}
    (h : p ∈ (s.handlePacket env frame).2) : s.Sends p := by
  unfold handlePacket at h
  dsimp only at h
  split at h
  · cases h
  split at h
  · cases h
  split at h
  · cases h
  split at h
  · cases h
  split at h
  · cases h
  split at h
  · exact icmpv6Handle_sends h
  · cases h

theorem step_sends {e : Event} (h : p ∈ (s.step env e).2) :
    s.Sends p := by
  cases e with
  | init dev => cases h
  | packet frame => exact handlePacket_sends h
  | ping dst => exact ping_sends h
  | startSlaac => exact startSlaac_sends h
  | resolve target => exact neighborResolve_sends h

end Iface

/-- **Every message the stack sends**, in any state of the interface: it goes out with the
source address of the send path, and its checksum is valid for its own header exactly when
that address has the same sum as the one the message was built for. -/
theorem icmpv6_checksums (env : Env) (s : Iface) (e : Event) (p : Packet)
    (hp : p ∈ (s.step env e).2) :
    p.nextHeader = 58 ∧ p.src = s.sourceAddr ∧
      (p.ChecksumValid ↔
        wordSum (s.assumedSource p.payload).bytes % 65535 = wordSum p.src.bytes % 65535) :=
  have hsends := Iface.step_sends hp
  ⟨hsends.nextHeader, hsends.src, hsends.valid_iff⟩

/-! ### Concrete messages -/

/-- A working device, with zero bytes behind every string. -/
def plainEnv : Env := ⟨true, fun _ => true, true, true, fun _ => 0, 8⟩

def testMac : Mac := ⟨[0x52, 0x54, 0, 0x12, 0x34, 0x56], rfl⟩

/-- A router advertisement with the autonomous prefix `2001:db8::/64`. -/
def prefixAdvert : List UInt8 :=
  [0x60, 0, 0, 0, 0, 48, 58, 255] ++
    [0xfe, 0x80, 0, 0, 0, 0, 0, 0, 0, 0, 0, 0, 0, 0, 0, 1] ++ allNodes.bytes ++
    [134, 0, 0, 0, 64, 0, 0, 0, 0, 0, 0, 0, 0, 0, 0, 0] ++
    [3, 4, 64, 0xc0, 0, 0, 0, 0, 0, 0, 0, 0, 0, 0, 0, 0] ++
    [0x20, 0x01, 0x0d, 0xb8, 0, 0, 0, 0, 0, 0, 0, 0, 0, 0, 0, 0]

/-- The interface after `ipv6_init` and the advertisement. -/
def configured : Iface := ((Iface.init 0 (some testMac)).step plainEnv (.packet prefixAdvert)).1

/-- The router solicitation an interface sends. -/
def solicitationOf (s : Iface) : Packet :=
  ⟨[0x33, 0x33, 0, 0, 0, 2], s.mac, 58, s.hopLimit, s.sourceAddr, allRouters,
    sealed s.linkLocal allRouters s.routerSolicitation⟩

theorem mem_startSlaac {s : Iface} (h : s.enabled = true) :
    solicitationOf s ∈ (s.step plainEnv .startSlaac).2 := by
  show solicitationOf s ∈ s.startSlaac plainEnv
  unfold Iface.startSlaac Iface.sendPacket Iface.sendWith
  rw [h]
  exact mem_singleton.2 rfl

theorem assumedSource_solicitationOf (s : Iface) :
    s.assumedSource (solicitationOf s).payload = s.linkLocal := by
  rfl

theorem icmpv6_checksums_first :
    solicitationOf (Iface.init 0 (some testMac)) ∈
        ((Iface.init 0 (some testMac)).step plainEnv .startSlaac).2 ∧
      (solicitationOf (Iface.init 0 (some testMac))).ChecksumValid := by
  have hmem := mem_startSlaac (s := Iface.init 0 (some testMac)) rfl
  have hvalid := (icmpv6_checksums plainEnv _ .startSlaac _ hmem).2.2
  refine ⟨hmem, hvalid.2 ?_⟩
  rfl

/-- With a global address the next router solicitation, summed for the link-local address,
goes out with the global one. -/
theorem router_solicitation_invalid :
    ∃ p ∈ (configured.step plainEnv .startSlaac).2, ¬p.ChecksumValid := by
  have hmem := mem_startSlaac (s := configured) (by decide)
  refine ⟨_, hmem, ?_⟩
  rw [(Iface.step_sends hmem).valid_iff, assumedSource_solicitationOf]
  decide

end InDevOS.Net.Ipv6
