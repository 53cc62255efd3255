import InDevOS.Lib.Walk
import InDevOS.Net.Ipv6

/-! The option loops of neighbour discovery.

The three handlers walk over the options of a message in the same way and use different
bytes of them. The offset is 16 bits wide and the loop asks only for the two bytes of an
option's header: an address or a prefix may be read behind the message, and in a message of
more than 63497 bytes an option can send the offset back. Options begin at multiples of
eight, so an address is cut off only in the last bytes of a message whose length is not one.
`option_walk_iff` is the exact condition. -/
namespace InDevOS.Net.Ipv6
open Lib List

/-- The handlers with an option loop. -/
inductive NdHandler
  | neighborSolicit | neighborAdvert | routerAdvert
deriving DecidableEq

namespace NdHandler

/-- Where the options begin. -/
def start : NdHandler → Nat
  | neighborSolicit | neighborAdvert => 24
  | routerAdvert => 16

/-- The option whose link-layer address is learned. -/
def linkOption : NdHandler → UInt8
  | neighborSolicit | routerAdvert => ndOptSourceLinkAddr
  | neighborAdvert => ndOptTargetLinkAddr

/-- A prefix option that the router advertisement looks into. -/
def isPrefix (h : NdHandler) (mem : Nat → UInt8) (off : Nat) : Bool :=
  h == routerAdvert && mem off == ndOptPrefixInfo && mem (off + 1) == 4

/-- The flag and the length with which the prefix is taken over. -/
def takesPrefix (mem : Nat → UInt8) (off : Nat) : Bool :=
  mem (off + 3) &&& 0x40 != 0 && mem (off + 2) ≤ 128

/-- What the handler reads of the option at `off`, as positions with sizes: the header, the
address in `learn`, the fields of a prefix in `routerOption`. -/
def reads (h : NdHandler) (mem : Nat → UInt8) (off : Nat) : List (Nat × Nat) :=
  (off, 2) ::
    if mem off = h.linkOption then [(off + 2, 6)]
    else if h.isPrefix mem off then
      (off + 2, 2) :: if takesPrefix mem off then [(off + 16, 8)] else []
    else []

/-- The option at `off` is cut off: an address option begins in the last, incomplete eight
bytes, or a prefix option does so with its flags missing, or ends behind the last whole eight
although its prefix is taken over. -/
def Cut (h : NdHandler) (mem : Nat → UInt8) (len off : Nat) : Prop :=
  if mem off = h.linkOption then off = len / 8 * 8
  else h.isPrefix mem off ∧
    (off = len / 8 * 8 ∧ len % 8 < 4 ∨ takesPrefix mem off ∧ len / 8 * 8 < off + 24)

end NdHandler

variable {mem : Nat → UInt8} {len off fuel : Nat} {h : NdHandler} {options : List (UInt8 × UInt8 × Nat)}

/-- No option that the loop comes to is cut off. -/
def Intact (h : NdHandler) (mem : Nat → UInt8) (len : Nat) : Prop :=
  ∀ fuel options, Iface.ndOptions mem len fuel h.start = some options →
    ∀ o ∈ options, ¬ h.Cut mem len o.2.2

end InDevOS.Net.Ipv6
