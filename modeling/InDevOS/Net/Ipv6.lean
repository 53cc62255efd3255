import InDevOS.Lib.OnesSum

/-! The IPv6 stack of `net_ipv6.c`: the interface state, the ICMPv6 handlers and the send
path.

A message is built by its handler, which computes the checksum for the source address it
expects, and sent by `ipv6_send_packet`, which chooses the source address itself. Sending
to an unresolved neighbour drops the packet and sends a solicitation instead.

A received string is followed in memory by bytes that are not known (`Env.beyond`): the
option loops read the link-layer address of an option without checking that it is inside
the packet. The loops count in 16 bits and need not end; a loop that does not end within
its fuel answers nothing. Time stamps and printing are left out. -/
namespace InDevOS.Net.Ipv6
open Lib

def maxAddresses : Nat := 4
def neighborCacheSize : Nat := 32

def icmpv6EchoRequest : UInt8 := 128
def icmpv6EchoReply : UInt8 := 129
def icmpv6RouterSolicitation : UInt8 := 133
def icmpv6RouterAdvertisement : UInt8 := 134
def icmpv6NeighborSolicitation : UInt8 := 135
def icmpv6NeighborAdvertisement : UInt8 := 136

def ndOptSourceLinkAddr : UInt8 := 1
def ndOptTargetLinkAddr : UInt8 := 2
def ndOptPrefixInfo : UInt8 := 3

/-! ### Addresses -/

/-- `ipv6_addr_t` -/
structure Addr where
  bytes : List UInt8
  length_eq : bytes.length = 16
deriving DecidableEq

structure Mac where
  bytes : List UInt8
  length_eq : bytes.length = 6
deriving DecidableEq

/-- The sixteen bytes of memory from `start` on. -/
def Addr.read (mem : Nat → UInt8) (start : Nat) : Addr :=
  ⟨(List.range 16).map fun i => mem (start + i), by simp⟩

def Mac.read (mem : Nat → UInt8) (start : Nat) : Mac :=
  ⟨(List.range 6).map fun i => mem (start + i), by simp⟩

def Addr.byte (a : Addr) (i : Nat) : UInt8 := a.bytes.getD i 0

def unspecified : Addr := ⟨List.replicate 16 0, rfl⟩
def allNodes : Addr := ⟨[0xff, 0x02, 0, 0, 0, 0, 0, 0, 0, 0, 0, 0, 0, 0, 0, 1], rfl⟩
def allRouters : Addr := ⟨[0xff, 0x02, 0, 0, 0, 0, 0, 0, 0, 0, 0, 0, 0, 0, 0, 2], rfl⟩

def Addr.isUnspecified (a : Addr) : Bool := a.bytes.all (· == 0)
def Addr.isMulticast (a : Addr) : Bool := a.byte 0 == 0xff

/-- `ipv6_solicited_node_addr`: `ff02::1:ffXX:XXXX`. -/
def solicitedNodeAddr (unicast : Addr) : Addr :=
  ⟨[0xff, 0x02, 0, 0, 0, 0, 0, 0, 0, 0, 0, 0x01, 0xff, unicast.byte 13, unicast.byte 14,
    unicast.byte 15], rfl⟩

/-- `ipv6_eui64_from_mac` behind the eight bytes of a network. -/
def eui64 (network : Nat → UInt8) (mac : Mac) : Addr :=
  let m := fun i => mac.bytes.getD i 0
  ⟨(List.range 8).map network ++ [m 0 ^^^ 0x02, m 1, m 2, 0xff, 0xfe, m 3, m 4, m 5], by simp⟩

/-! ### The interface -/

inductive NdpState
  | incomplete | reachable | stale | delay | probe
deriving DecidableEq

structure Neighbor where
  ip : Addr
  mac : Mac
  state : NdpState

structure AddrEntry where
  address : Addr
  prefixLength : UInt8
  valid : Bool

/-- `ipv6_interface_t` and the echo sequence number. -/
structure Iface where
  enabled : Bool
  addresses : Nat → AddrEntry
  linkLocal : Addr
  gateway : Addr
  mac : Mac
  hopLimit : UInt8
  neighborCache : Nat → Neighbor
  slaacComplete : Bool
  icmp6Seq : UInt16

/-- What the calls meet outside the stack: the network device, the allocator, and the
bytes in memory behind a received string. -/
structure Env where
  device : Bool
  alloc : Nat → Bool
  sendOp : Bool
  accepts : Bool
  beyond : Nat → UInt8
  fuel : Nat

/-- A frame handed to the device; the Ethernet and IPv6 headers field by field. -/
structure Packet where
  dstMac : List UInt8
  srcMac : Mac
  nextHeader : UInt8
  hopLimit : UInt8
  src : Addr
  dst : Addr
  payload : List UInt8

namespace Iface

section
variable (s : Iface)

def isOurs (a : Addr) : Bool :=
  (List.range maxAddresses).any fun i => (s.addresses i).valid && decide (a = (s.addresses i).address)

/-- `ndp_cache_find` -/
def ndpCacheFind (ip : Addr) : Option Nat :=
  (List.range neighborCacheSize).find? fun i =>
    decide ((s.neighborCache i).state ≠ .incomplete) && decide ((s.neighborCache i).ip = ip)

/-- The slot `ndp_cache_add` writes: the entry of the address, a free one, or the first. -/
def cacheSlot (ip : Addr) : Nat :=
  match s.ndpCacheFind ip with
  | some i => i
  | none =>
    match (List.range neighborCacheSize).find? fun i => decide ((s.neighborCache i).state = .incomplete) with
    | some i => i
    | none => 0

/-- `ndp_cache_add` -/
def ndpCacheAdd (ip : Addr) (mac : Mac) : Iface :=
  { s with neighborCache := Function.update s.neighborCache (s.cacheSlot ip) ⟨ip, mac, .reachable⟩ }

/-- `ipv6_neighbor_lookup` -/
def neighborLookup (ip : Addr) : Option Mac :=
  match s.ndpCacheFind ip with
  | some i => if (s.neighborCache i).state ≠ .incomplete then some (s.neighborCache i).mac else none
  | none => none

/-! ### Sending -/

/-- The source address of the IPv6 header: the first global address, else link-local. -/
def sourceAddr : Addr :=
  if !(s.addresses 0).address.isUnspecified && (s.addresses 0).valid then (s.addresses 0).address
  else s.linkLocal

/-- The destination MAC; `none` when the neighbour has to be resolved first. -/
def destMac (dst : Addr) : Option (List UInt8) :=
  if dst.isMulticast then
    some [0x33, 0x33, dst.byte 12, dst.byte 13, dst.byte 14, dst.byte 15]
  else (s.neighborLookup dst).map Mac.bytes

end

/-- `ipv6_send_packet`, given how it resolves a neighbour. -/
def sendWith (resolve : Addr → Int × List Packet) (env : Env) (s : Iface) (dst : Addr)
    (nextHeader : UInt8) (payload : List UInt8) : Int × List Packet :=
  if !s.enabled then (-1, [])
  else if !env.device then (-1, [])
  else if !env.alloc (14 + 40 + payload.length) then (-1, [])
  else
    match s.destMac dst with
    | none => (-1, (resolve dst).2)
    | some dstMac =>
      if env.sendOp then
        (if env.accepts then 0 else -1,
          [⟨dstMac, s.mac, nextHeader, s.hopLimit, s.sourceAddr, dst, payload⟩])
      else (-1, [])

end Iface

/-- `ipv6_icmp_checksum` -/
def icmpChecksum (src dst : Addr) (payload : List UInt8) : Nat :=
  let sum := wordSum src.bytes + wordSum dst.bytes + payload.length + 58 + wordSum payload
  65535 - foldCarries (sum % 2 ^ 32)

/-- The two checksum bytes of a message, high byte first. -/
def setChecksum (msg : List UInt8) (cksum : Nat) : List UInt8 :=
  (msg.set 2 (UInt8.ofNat (cksum / 256))).set 3 (UInt8.ofNat (cksum % 256))

/-- A message with the checksum for the given pseudo-header. -/
def sealed (src dst : Addr) (msg : List UInt8) : List UInt8 :=
  setChecksum msg (icmpChecksum src dst msg)

namespace Iface

/-- The message of `ipv6_neighbor_resolve`. -/
def solicitation (s : Iface) (target : Addr) : List UInt8 :=
  [icmpv6NeighborSolicitation, 0, 0, 0, 0, 0, 0, 0] ++ target.bytes ++
    [ndOptSourceLinkAddr, 1] ++ s.mac.bytes

/-- `ipv6_neighbor_resolve`, given how it sends. -/
def resolveWith (send : Addr → UInt8 → List UInt8 → Int × List Packet) (s : Iface) (target : Addr) :
    Int × List Packet :=
  let dst := solicitedNodeAddr target
  let solicit := (1, (send dst 58 (sealed s.linkLocal dst (s.solicitation target))).2)
  match s.ndpCacheFind target with
  | some i => if (s.neighborCache i).state = .reachable then (0, []) else solicit
  | none => solicit

/-- `ipv6_neighbor_resolve`: the solicitation goes to a multicast address, so sending it
resolves nothing (`neighborResolve_eq`). -/
def neighborResolve (env : Env) (s : Iface) (target : Addr) : Int × List Packet :=
  s.resolveWith (s.sendWith (fun _ => (-1, [])) env) target

section
variable (env : Env) (s : Iface)

/-- `ipv6_send_packet` -/
def sendPacket (dst : Addr) (nextHeader : UInt8) (payload : List UInt8) :
    Int × List Packet :=
  s.sendWith (s.neighborResolve env) env dst nextHeader payload

/-! ### Received messages -/

/-- The reply of `icmpv6_handle_echo_request`. -/
def echoReply (payload : List UInt8) : List UInt8 :=
  (((payload.take 128).set 0 icmpv6EchoReply).set 2 0).set 3 0

/-- The source the echo reply is summed for: the first address when it is set at all. -/
def echoSource (s : Iface) : Addr :=
  if !(s.addresses 0).address.isUnspecified then (s.addresses 0).address else s.linkLocal

section
variable (src : Addr) (payload : List UInt8)

def handleEchoRequest : List Packet :=
  if payload.length < 8 then []
  else (s.sendPacket env src 58 (sealed s.echoSource src (echoReply payload))).2

/-- The option loops: type, length and offset of each option, from offset `off` on. -/
def ndOptions (mem : Nat → UInt8) (payloadLen : Nat) : (fuel off : Nat) → Option (List (UInt8 × UInt8 × Nat))
  | 0, _ => none
  | fuel + 1, off =>
    if off + 2 ≤ payloadLen then
      let optType := mem off
      let optLen := mem (off + 1)
      if optLen = 0 then some []
      else
        (ndOptions mem payloadLen fuel ((off + optLen.toNat * 8) % 65536)).map
          ((optType, optLen, off) :: ·)
    else some []

/-- The bytes of a received message as the code reads them. -/
def memory (env : Env) (payload : List UInt8) (i : Nat) : UInt8 := payload.getD i (env.beyond i)

/-- Options of type `kind` name the link-layer address of `ip`. -/
def learn (mem : Nat → UInt8) (kind : UInt8) (ip : Addr) (s : Iface) (o : UInt8 × UInt8 × Nat) :
    Iface :=
  if o.1 = kind then s.ndpCacheAdd ip (Mac.read mem (o.2.2 + 2)) else s

/-- The advertisement of `icmpv6_handle_neighbor_solicit`. -/
def advertisement (s : Iface) (target : Addr) : List UInt8 :=
  [icmpv6NeighborAdvertisement, 0, 0, 0, 0x60, 0, 0, 0] ++ target.bytes ++
    [ndOptTargetLinkAddr, 1] ++ s.mac.bytes

def handleNeighborSolicit :
    Iface × List Packet :=
  let mem := memory env payload
  if payload.length < 4 + 20 then (s, [])
  else
    let target := Addr.read mem 8
    if !(decide (target = s.linkLocal) || s.isOurs target) then (s, [])
    else
      match ndOptions mem payload.length env.fuel 24 with
      | none => (s, [])
      | some options =>
        let s := options.foldl (learn mem ndOptSourceLinkAddr src) s
        let dst := if src.isUnspecified then allNodes else src
        (s, (s.sendPacket env dst 58 (sealed target dst (s.advertisement target))).2)

def handleNeighborAdvert (payload : List UInt8) : Iface :=
  let mem := memory env payload
  if payload.length < 4 + 20 then s
  else
    match ndOptions mem payload.length env.fuel 24 with
    | none => s
    | some options => options.foldl (learn mem ndOptTargetLinkAddr (Addr.read mem 8)) s

/-- A prefix option with the autonomous flag: the first free address is configured. -/
def configure (s : Iface) (global : Addr) (prefixLength : UInt8) : Iface :=
  match (List.range maxAddresses).find? fun i => !(s.addresses i).valid with
  | none => { s with slaacComplete := true }
  | some i =>
    { s with
      addresses := Function.update s.addresses i ⟨global, prefixLength, true⟩
      slaacComplete := true }

/-- One option of a router advertisement. -/
def routerOption (mem : Nat → UInt8) (src : Addr) (s : Iface) (o : UInt8 × UInt8 × Nat) : Iface :=
  if o.1 = ndOptSourceLinkAddr then s.ndpCacheAdd src (Mac.read mem (o.2.2 + 2))
  else if o.1 = ndOptPrefixInfo ∧ o.2.1 = 4 then
    let prefixLength := mem (o.2.2 + 2)
    if mem (o.2.2 + 3) &&& 0x40 ≠ 0 ∧ prefixLength ≤ 128 then
      s.configure (eui64 (fun i => mem (o.2.2 + 16 + i)) s.mac) prefixLength
    else s
  else s

def handleRouterAdvert : Iface :=
  let mem := memory env payload
  if payload.length < 4 + 12 then s
  else
    let s := { s with hopLimit := if mem 4 ≠ 0 then mem 4 else s.hopLimit, gateway := src }
    match ndOptions mem payload.length env.fuel 16 with
    | none => s
    | some options => options.foldl (routerOption mem src) s

/-- `icmpv6_handle` -/
def icmpv6Handle : Iface × List Packet :=
  if payload.length < 4 then (s, [])
  else
    let type := memory env payload 0
    if type = icmpv6EchoRequest then (s, s.handleEchoRequest env src payload)
    else if type = icmpv6RouterAdvertisement then (s.handleRouterAdvert env src payload, [])
    else if type = icmpv6NeighborSolicitation then s.handleNeighborSolicit env src payload
    else if type = icmpv6NeighborAdvertisement then (s.handleNeighborAdvert env payload, [])
    else (s, [])

end

/-- The address checks of `ipv6_handle_packet`. -/
def forUs (s : Iface) (dst : Addr) : Bool :=
  decide (dst = s.linkLocal) || dst.isMulticast || s.isOurs dst

/-- `ipv6_handle_packet` -/
def handlePacket (frame : List UInt8) : Iface × List Packet :=
  let mem := memory env frame
  if !s.enabled then (s, [])
  else if frame.length < 40 then (s, [])
  else if mem 0 >>> 4 ≠ 6 then (s, [])
  else
    let payloadLen := (mem 4).toNat * 256 + (mem 5).toNat
    if frame.length < 40 + payloadLen then (s, [])
    else if !s.forUs (Addr.read mem 24) then (s, [])
    else if mem 6 = 58 then
      s.icmpv6Handle env (Addr.read mem 8) ((frame.drop 40).take payloadLen)
    else (s, [])

/-! ### Calls -/

/-- `ipv6_init`; the device's MAC when there is one. The echo sequence number stays. -/
def init (seq : UInt16) (dev : Option Mac) : Iface :=
  let mac := dev.getD ⟨List.replicate 6 0, rfl⟩
  { enabled := true
    addresses := fun _ => ⟨unspecified, 0, false⟩
    linkLocal := eui64 (fun i => [0xfe, 0x80].getD i 0) mac
    gateway := unspecified
    mac := mac
    hopLimit := 64
    neighborCache := fun _ => ⟨unspecified, ⟨List.replicate 6 0, rfl⟩, .incomplete⟩
    slaacComplete := false
    icmp6Seq := seq }

/-- The request of `ipv6_ping`. -/
def echoRequest (seq : UInt16) : List UInt8 :=
  [icmpv6EchoRequest, 0, 0, 0, 0, 1, (seq >>> 8).toUInt8, seq.toUInt8] ++ List.replicate 8 0

/-- The source a ping is summed for. -/
def pingSource (s : Iface) : Addr :=
  if (s.addresses 0).valid then (s.addresses 0).address else s.linkLocal

/-- `ipv6_ping` -/
def ping (dst : Addr) : Iface × List Packet :=
  if !s.enabled then (s, [])
  else
    let s := { s with icmp6Seq := s.icmp6Seq + 1 }
    (s, (s.sendPacket env dst 58 (sealed s.pingSource dst (echoRequest s.icmp6Seq))).2)

/-- The message of `ipv6_start_slaac`. -/
def routerSolicitation (s : Iface) : List UInt8 :=
  [icmpv6RouterSolicitation, 0, 0, 0, 0, 0, 0, 0, ndOptSourceLinkAddr, 1] ++ s.mac.bytes

/-- `ipv6_start_slaac` -/
def startSlaac : List Packet :=
  if !s.enabled then []
  else (s.sendPacket env allRouters 58 (sealed s.linkLocal allRouters s.routerSolicitation)).2

end

end Iface

inductive Event
  | init (dev : Option Mac)
  | packet (frame : List UInt8)
  | ping (dst : Addr)
  | startSlaac
  | resolve (target : Addr)

/-- One event: the new interface state and the packets handed to the device. -/
def Iface.step (env : Env) (s : Iface) : Event → Iface × List Packet
  | .init dev => (.init s.icmp6Seq dev, [])
  | .packet frame => s.handlePacket env frame
  | .ping dst => s.ping env dst
  | .startSlaac => (s, s.startSlaac env)
  | .resolve target => (s, (s.neighborResolve env target).2)

end InDevOS.Net.Ipv6
