import Mathlib

/-! AF_UNIX endpoints (`net_unix.c`): the records, the global list, lookup by name, and
taking an endpoint out of the system.

Endpoints are named by their addresses. `ep` is memory: it has a record at every address,
and `all`, the list `ux_all`, says which of them are endpoints. An address may be
allocated again once it is off the list, so a pointer to a destroyed endpoint is a pointer
to an address that is not on it, or by now to a stranger. -/
namespace InDevOS.Ipc

inductive UxErrno where
  | eprotonosupport
  | enomem
  | emfile
  | efault
  | einval
  | eaddrinuse
  | eopnotsupp
  | enoent
  | econnrefused
  | eprototype
  | eisconn
  | enotconn
  | eagain
  | eintr
  | epipe
  | emsgsize
deriving DecidableEq, Repr

inductive UxType where
  | stream
  | dgram
  | seqpacket
deriving DecidableEq, Repr

/-- `ux_type_ok`, with the type the number stands for. -/
def uxTypeOk : Nat → Option UxType
  | 1 => some .stream
  | 2 => some .dgram
  | 5 => some .seqpacket
  | _ => none

inductive UxState where
  | new
  | listen
  | conn
deriving DecidableEq, Repr

def uxBacklog : Nat := 64

/-- `ux_msg_t`. `fds` are the file references it carries; `id` is its address. -/
structure UxMsg where
  id : Nat
  data : List UInt8
  len : Nat
  off : Nat
  fds : List Nat
  sender : List UInt8
deriving DecidableEq, Repr

/-- `ux_ep_t`, with `nlen` and `nbl` the lengths of `name` and `bl` and the queue from
`rxh` to `rxt` as a list. The edge generations are left out. -/
structure UxEp where
  type : UxType := .stream
  state : UxState := .new
  peer : Option Nat := none
  peerGone : Bool := false
  rdEof : Bool := false
  shutRd : Bool := false
  shutWr : Bool := false
  rx : List UxMsg := []
  rxBytes : Nat := 0
  rxCount : Nat := 0
  reg : Bool := false
  name : List UInt8 := []
  dname : List UInt8 := []
  bl : List Nat := []
  backlog : Nat := 0
  listener : Option Nat := none
  pid : Nat := 0
  peerPid : Nat := 0
deriving DecidableEq, Repr

/-- `handles` are the endpoints that a socket's `transport` points to. -/
structure UxWorld where
  all : List Nat
  ep : Nat → UxEp
  handles : List Nat
  autobindCtr : UInt32

def UxWorld.start : UxWorld := ⟨[], fun _ => {}, [], 0⟩

def UxWorld.modify (w : UxWorld) (i : Nat) (f : UxEp → UxEp) : UxWorld :=
  { w with ep := Function.update w.ep i (f (w.ep i)) }

/-- `ux_ep_new`, at an address the allocator gave. -/
def uxEpNew (w : UxWorld) (type : UxType) (pid id : Nat) : UxWorld :=
  { w with all := id :: w.all, ep := Function.update w.ep id { type := type, pid := pid } }

def uxLookup (w : UxWorld) (name : List UInt8) : Option Nat :=
  if name = [] then none else w.all.find? fun i => (w.ep i).reg && (w.ep i).name == name

/-- An endpoint whose peer has gone. -/
def UxEp.orphan (x : UxEp) : UxEp := { x with peer := none, peerGone := true, rdEof := true }

/-- An endpoint that has been taken apart. -/
def UxEp.emptied (x : UxEp) : UxEp :=
  { x with bl := [], rx := [], rxBytes := 0, rxCount := 0, peer := none }

/-- `ux_detach_locked`: the world without `e`, and the server ends nobody will accept. -/
def uxDetach (w : UxWorld) (e : Nat) : UxWorld × List Nat :=
  let all := w.all.erase e
  let ep := fun x =>
    if x = e then (w.ep e).emptied
    else if x ∈ all ∧ (w.ep x).peer = some e then (w.ep x).orphan
    else w.ep x
  ({ w with all := all, ep := ep }, (w.ep e).bl)

/-- `ux_destroy`. A destroyed listener destroys what is in its backlog; every call takes an
endpoint off the list, so the length of the list bounds the depth. -/
def uxDestroy : (depth : Nat) → UxWorld → Nat → UxWorld
  | 0, w, _ => w
  | depth + 1, w, e => (uxDetach w e).2.foldl (uxDestroy depth) (uxDetach w e).1

theorem UxWorld.modify_ep_self (w : UxWorld) (i : Nat) (f : UxEp → UxEp) :
    (w.modify i f).ep i = f (w.ep i) := Function.update_self ..

theorem UxWorld.modify_ep_of_ne (w : UxWorld) {i j : Nat} (h : j ≠ i) (f : UxEp → UxEp) :
    (w.modify i f).ep j = w.ep j := Function.update_of_ne h ..

theorem UxWorld.modify_ep (w : UxWorld) (i j : Nat) (f : UxEp → UxEp) :
    (w.modify i f).ep j = if j = i then f (w.ep i) else w.ep j := Function.update_apply ..

/-- A change that keeps a projection keeps it everywhere. -/
theorem UxWorld.modify_proj {α : Type} (w : UxWorld) (i j : Nat) {f : UxEp → UxEp} {π : UxEp → α}
    (h : π (f (w.ep i)) = π (w.ep i)) : π ((w.modify i f).ep j) = π (w.ep j) := by
  rw [w.modify_ep]
  split_ifs with hj
  · rw [hj, h]
  · rfl

theorem uxLookup_some {w : UxWorld} {name : List UInt8} {t : Nat} (h : uxLookup w name = some t) :
    t ∈ w.all ∧ (w.ep t).reg = true ∧ (w.ep t).name = name := by
  unfold uxLookup at h
  split_ifs at h with hn
  have hp := List.find?_some h
  rw [Bool.and_eq_true, beq_iff_eq] at hp
  exact ⟨List.mem_of_find?_eq_some h, hp.1, hp.2⟩

theorem uxLookup_none {w : UxWorld} {name : List UInt8} (hn : name ≠ [])
    (h : uxLookup w name = none) {i : Nat} (hi : i ∈ w.all) (hreg : (w.ep i).reg = true) :
    (w.ep i).name ≠ name := by
  intro hname
  rw [uxLookup, if_neg hn, List.find?_eq_none] at h
  exact h i hi (by simp [hreg, hname])

end InDevOS.Ipc
