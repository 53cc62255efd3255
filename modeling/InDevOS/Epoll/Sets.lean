import InDevOS.Lib.Nesting

/-! Epoll sets and the calls that change them (`linux_syscall.c`).

A set is known by its address and holds its interest items in an array. A descriptor of a
process names an object by type and address. The reference count of an object is the
number of descriptors that share it, so the last close is that of the only one left. A set
is freed at its last close, and its address may be handed out again; `lx_epoll_forget`
takes it out of every other set first.

An epoll set may itself be watched. An `EPOLL_CTL_ADD` of a set searches downwards from
the new member (`lxEpChain`) and upwards from the set it is added to (`lxEpUp`) and
refuses what would close a loop or nest too deeply. -/
namespace InDevOS.Epoll
open Lib

def lxEpMaxNest : Nat := 4
def lxEpollCap : Nat := 1024
def maxOpenFiles : Nat := 64

def lxEpollExclusive : UInt32 := 0x10000000
def lxEpollWakeup : UInt32 := 0x20000000
def lxEpollOneshot : UInt32 := 0x40000000
def lxEpollEt : UInt32 := 0x80000000

inductive Errno
  | EBADF | EINVAL | EPERM | EFAULT | ELOOP | EEXIST | ENOSPC | ENOMEM | ENOENT | EMFILE
deriving DecidableEq

inductive FdType
  | file | pipeRead | pipeWrite | socket | vfs | vfsDir | devNull | devTty | eventfd | devFb
  | devInput | devUinput | devWm | epoll | timerfd | signalfd | inotify
deriving DecidableEq

/-- The address of a kernel object; zero is the null pointer. -/
abbrev Addr := Nat

/-- A descriptor in use, of process `p`. -/
structure Fd where
  p : Nat
  fd : Nat
  type : FdType
  handle : Addr
deriving DecidableEq

/-- `lx_epitem_t` -/
structure Item where
  fd : Nat
  events : UInt32
  data : UInt64
  key : Addr
  type : FdType
  armed : Bool
  byh : Bool
  etRev : UInt32
  etIn : UInt32
  etOut : UInt32
deriving DecidableEq

/-- `lx_epoll_t` -/
structure EpSet where
  items : List Item
  cap : Nat
  rr : Nat
deriving DecidableEq

def EpSet.zero : EpSet := ⟨[], 0, 0⟩

/-- The descriptors in use, the list `lx_ep_all` and the sets at their addresses. -/
structure Sys where
  fds : List Fd
  all : List Addr
  sets : Addr → EpSet

def Sys.init : Sys := ⟨[], [], fun _ => .zero⟩

/-- `lx_ep_byh_type` -/
def FdType.byHandle : FdType → Bool
  | .pipeRead | .pipeWrite | .socket | .eventfd | .devInput | .devUinput | .devWm | .epoll
  | .timerfd | .signalfd | .inotify => true
  | .file | .vfs | .vfsDir | .devNull | .devTty | .devFb => false

namespace Sys

section
variable (s : Sys)

def lookup (p fd : Nat) : Option Fd := s.fds.find? fun d => d.p = p ∧ d.fd = fd

def setEpoll (a : Addr) (ep : EpSet) : Sys :=
  { s with sets := Function.update s.sets a ep }

/-- The sets an item list watches, in order. -/
def kids (items : List Item) : List Addr :=
  (items.filter fun it => it.type = .epoll).map Item.key

/-! ### Depth searches -/

/-- The loop of both searches: the deepest of the members that count, given up at 1000. -/
def deepest (counts : Addr → Bool) (depth : Addr → Nat) (l : List Addr) (best : Nat) : Nat :=
  l.foldl (fun best x => if best < 1000 ∧ counts x then max best (1 + depth x) else best) best

/-- `lx_ep_chain`, with `fuel` levels left. -/
def lxEpChain (s : Sys) (target : Addr) : (fuel : Nat) → Addr → Nat
  | 0, _ => 1000
  | fuel + 1, ep =>
    if ep = target then 1000
    else
      let ks := kids (s.sets ep).items
      if 16 < ks.length then 1000 else deepest (fun _ => true) (lxEpChain s target fuel) ks 1

/-- `lx_ep_up` -/
def lxEpUp (s : Sys) : (fuel : Nat) → Addr → Nat
  | 0, _ => 1000
  | fuel + 1, ep =>
    deepest (fun x => x ≠ ep ∧ ep ∈ kids (s.sets x).items) (lxEpUp s fuel) s.all 0

/-- Depths 0 to `LX_EP_MAX_NEST + 1` are searched. -/
def searchFuel : Nat := lxEpMaxNest + 2

/-! ### Calls -/

/-- `allocate_fd`, for a process of the Linux ABI. -/
def allocateFd (p : Nat) : Option Nat :=
  (List.range maxOpenFiles).find? fun fd => (s.lookup p fd).isNone

/-- `lx_epoll_create`; `a` is what `kalloc` returns: null, or an address not in use. -/
def lxEpollCreate (p : Nat) (badFlags : Bool) (a : Addr) : Except Errno Nat × Sys :=
  if badFlags then (.error .EINVAL, s)
  else
    match s.allocateFd p with
    | none => (.error .EMFILE, s)
    | some fd =>
      if a = 0 ∨ a ∈ s.all then (.error .ENOMEM, s)
      else
        (.ok fd, { s.setEpoll a .zero with fds := ⟨p, fd, .epoll, a⟩ :: s.fds, all := a :: s.all })

/-- `lx_epoll_forget` -/
def lxEpollForget (h : Addr) (type : FdType) : Sys :=
  { s with
    sets := fun a =>
      if a ∈ s.all ∧ a ≠ h then
        let items := (s.sets a).items.filter fun it => ¬(it.key = h ∧ it.type = type)
        ⟨items, (s.sets a).cap, if items.length ≤ (s.sets a).rr then 0 else (s.sets a).rr⟩
      else s.sets a }

/-- `lx_epoll_free` -/
def lxEpollFree (h : Addr) : Sys :=
  { s.setEpoll h .zero with all := s.all.erase h }

/-- `fd_close_entry`: the object goes when no other descriptor shares it. -/
def fdCloseEntry (p fd : Nat) : Except Errno Unit × Sys :=
  match s.lookup p fd with
  | none => (.error .EBADF, s)
  | some e =>
    let rest := s.fds.filter fun d => ¬(d.p = p ∧ d.fd = fd)
    let s' := { s with fds := rest }
    if rest.any fun d => d.type = e.type ∧ d.handle = e.handle then (.ok (), s')
    else
      let s' := if e.handle = 0 then s' else s'.lxEpollForget e.handle e.type
      (.ok (), if e.type = .epoll then s'.lxEpollFree e.handle else s')

/-- A second descriptor for the object of the first, as `dup` and `fork` make it. -/
def dupFd (p fd p' fd' : Nat) : Sys :=
  match s.lookup p fd with
  | none => s
  | some e =>
    if maxOpenFiles ≤ fd' ∨ (s.lookup p' fd').isSome then s
    else { s with fds := ⟨p', fd', e.type, e.handle⟩ :: s.fds }

/-- A descriptor for an object of another kind. -/
def openFd (p fd : Nat) (type : FdType) (handle : Addr) : Sys :=
  if type = .epoll ∨ maxOpenFiles ≤ fd ∨ (s.lookup p fd).isSome then s
  else { s with fds := ⟨p, fd, type, handle⟩ :: s.fds }

/-- `lx_ep_find` -/
def lxEpFind (ep : EpSet) (fd : Nat) (key : Addr) (type : FdType) : Option Nat :=
  ep.items.findIdx? fun it => it.fd = fd ∧ it.key = key ∧ it.type = type

inductive Op
  | add | del | mod | other
deriving DecidableEq

structure EpollEvent where
  events : UInt32
  data : UInt64

/-- The checks of `lx_epoll_ctl` up to the nesting check: the set, the object and the
event to work on. -/
def ctlArgs (p epfd : Nat) (op : Op) (fd : Nat) (uev : Option EpollEvent) :
    Except Errno (Addr × Fd × EpollEvent) :=
  match s.lookup p epfd with
  | none => .error .EBADF
  | some epf =>
    if epf.type ≠ .epoll then .error .EINVAL
    else
      match s.lookup p fd with
      | none => .error .EBADF
      | some f =>
        if f.type = .vfs ∨ f.type = .vfsDir ∨ (f.type = .file ∧ ¬(fd ≤ 2 ∧ f.handle = 0)) then
          .error .EPERM
        else if op = .other then .error .EINVAL
        else if op ≠ .del ∧ uev.isNone then .error .EFAULT
        else if fd = epfd then .error .EINVAL
        else
          let ev := if op = .del then ⟨0, 0⟩ else uev.getD ⟨0, 0⟩
          let ok := 0x1 ||| 0x4 ||| 0x8 ||| 0x10 ||| lxEpollWakeup ||| lxEpollEt ||| lxEpollExclusive
          if op ≠ .del ∧ ev.events &&& lxEpollExclusive ≠ 0 ∧
              (op = .mod ∨ f.type = .epoll ∨ ev.events &&& ~~~ok ≠ 0) then .error .EINVAL
          else .ok (epf.handle, f, ev)

/-- The nesting check of an `EPOLL_CTL_ADD` of a set. -/
def nestingOk (ep tgt : Addr) : Bool :=
  let down := s.lxEpChain ep searchFuel tgt
  decide (down < 1000 ∧ down + s.lxEpUp searchFuel ep ≤ lxEpMaxNest)

/-- A new item as `EPOLL_CTL_ADD` fills it in. -/
def newItem (fd : Nat) (f : Fd) (ev : EpollEvent) : Item :=
  ⟨fd, ev.events, ev.data, f.handle, f.type, true, f.type.byHandle, 0, 0, 0⟩

/-- The `switch` of `lx_epoll_ctl` on the set itself; `alloc` is the outcome of `kalloc`. -/
def ctlSet (ep : EpSet) (op : Op) (fd : Nat) (f : Fd) (ev : EpollEvent) (alloc : Bool) :
    Except Errno Unit × EpSet :=
  let idx := lxEpFind ep fd f.handle f.type
  match op with
  | .add =>
    if idx.isSome then (.error .EEXIST, ep)
    else if ep.items.length < ep.cap then
      (.ok (), { ep with items := ep.items ++ [newItem fd f ev] })
    else if lxEpollCap ≤ ep.cap then (.error .ENOSPC, ep)
    else if !alloc then (.error .ENOMEM, ep)
    else
      (.ok (), { ep with
        items := ep.items ++ [newItem fd f ev]
        cap := if ep.cap = 0 then 16 else ep.cap * 2 })
  | .mod =>
    match idx with
    | none => (.error .ENOENT, ep)
    | some i =>
      match ep.items[i]? with
      | none => (.error .ENOENT, ep)
      | some it =>
        if it.events &&& lxEpollExclusive ≠ 0 then (.error .EINVAL, ep)
        else
          (.ok (), { ep with
            items := ep.items.set i
              { it with events := ev.events, data := ev.data, armed := true, etRev := 0 } })
  | .del =>
    match idx, ep.items.getLast? with
    | some i, some lastItem =>
      let items := (ep.items.set i lastItem).dropLast
      (.ok (), ⟨items, ep.cap, if items.length ≤ ep.rr then 0 else ep.rr⟩)
    | _, _ => (.error .ENOENT, ep)
  | .other => (.ok (), ep)

/-- `lx_epoll_ctl` -/
def lxEpollCtl (p epfd : Nat) (op : Op) (fd : Nat) (uev : Option EpollEvent)
    (alloc : Bool) : Except Errno Unit × Sys :=
  match s.ctlArgs p epfd op fd uev with
  | .error e => (.error e, s)
  | .ok (ep, f, ev) =>
    if f.type = .epoll ∧ op = .add ∧ !s.nestingOk ep f.handle then (.error .ELOOP, s)
    else
      let r := ctlSet (s.sets ep) op fd f ev alloc
      (r.1, s.setEpoll ep r.2)

end

end Sys

end InDevOS.Epoll
