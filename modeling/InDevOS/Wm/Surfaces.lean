import Mathlib

/-! Window surfaces of `/dev/wm` and the address spaces that map them (`wm_dev.c`).

A surface is a block of kernel memory that a client maps with device page table words, so
that neither `munmap` nor exit frees its frames; the window server does, and it has to know
that nobody maps them any more. It records one mapping for each surface, but fork copies
the mapping, and the check that the owner is gone asks for the process that opened the
device, not for the one that mapped the surface.

The desktop, `kalloc` and the choice of addresses are inputs of the steps. An exit is the step
that stops the process, then a close for each descriptor. -/
namespace InDevOS.Wm

/-! ### Surfaces -/

/-- Page frames of a `kalloc` block. -/
structure Block where
  mem : Nat
  frames : Nat
deriving DecidableEq

def Block.Has (b : Block) (f : Nat) : Prop := b.mem ≤ f ∧ f < b.mem + b.frames

instance (b : Block) (f : Nat) : Decidable (b.Has f) := inferInstanceAs (Decidable (_ ∧ _))

def Block.Apart (b b' : Block) : Prop := b.mem + b.frames ≤ b'.mem ∨ b'.mem + b'.frames ≤ b.mem

instance (b b' : Block) : Decidable (b.Apart b') := inferInstanceAs (Decidable (_ ∨ _))

/-- `map_va`, `map_pages` and `map_pml4`. -/
structure Mapping where
  va : Nat
  pages : Nat
  pml4 : Nat
deriving DecidableEq

/-- Pages and frames by number. -/
structure Surf where
  mem : Nat
  w : Nat
  h : Nat
  mapping : Option Mapping
deriving DecidableEq

def Surf.stride (sf : Surf) : Nat := sf.w * 4
def Surf.bufSize (sf : Surf) : Nat := (sf.stride * sf.h + 4095) / 4096 * 4096
/-- Two buffers. -/
def Surf.len (sf : Surf) : Nat := sf.bufSize * 2
def Surf.block (sf : Surf) : Block := ⟨sf.mem, sf.len / 4096⟩

/-- A window in its slot of a connection. -/
structure Win where
  conn : Nat
  slot : Nat
  deskId : Nat
  gen : Nat
  cur : Surf
  old : Option Surf
deriving DecidableEq

/-- In the order they are freed. -/
def Win.surfs (w : Win) : List Surf := w.old.toList ++ [w.cur]

structure Conn where
  pid : Nat
  refCount : Nat

/-- The frames an address space maps as device memory. -/
abbrev Space := Nat → Option Nat

structure Proc where
  pml4 : Option Nat
  /-- Not exited. -/
  running : Bool
  space : Space
  /-- The connections its descriptors refer to. -/
  fds : List Nat

structure Sys where
  procs : Nat → Option Proc
  conns : Nat → Option Conn
  wins : List Win
  /-- The blocks `kalloc` has given out. -/
  heap : Finset Block

section
variable (s : Sys) (p : Nat) (pr : Proc)

def Sys.setProc : Sys :=
  { s with procs := Function.update s.procs p (some pr) }

def Sys.surfs (s : Sys) : List Surf := s.wins.flatMap Win.surfs

def processPidAlive (s : Sys) (pid : Nat) : Bool := pid != 0 && (s.procs pid).any fun pr => pr.running

/-! ### Freeing -/

/-- The surface was never mapped, or by table `pml4`. -/
def unmaps (pml4 : Option Nat) (sf : Surf) : Bool :=
  match sf.mapping with
  | none => true
  | some m => pml4 == some m.pml4

/-- A page of the recorded mapping that still is one of the surface. -/
def isSurfPage (sf : Surf) (va : Nat) (frame : Option Nat) : Bool :=
  sf.mapping.any (fun m => m.va ≤ va && va < m.va + m.pages) && frame.any fun f => decide (sf.block.Has f)

/-- `unmap_surface`, by a process with table `pml4`. -/
def unmapSurface (pml4 : Option Nat) (sf : Surf) (space : Space) : Bool × Space :=
  if unmaps pml4 sf then (true, fun va => if isSurfPage sf va (space va) then none else space va)
  else (false, space)

def surfFree (pml4 : Option Nat) (ownerGone : Bool) (mem : Space × Finset Block) (sf : Surf) :
    Space × Finset Block :=
  let r := unmapSurface pml4 sf mem.1
  let canFree := r.1 || ownerGone
  -- Otherwise the block is leaked.
  (r.2, if canFree then mem.2.erase sf.block else mem.2)

/-- Free surfaces on behalf of process `p`; `wins` are the windows left. -/
def Sys.teardown (ownerGone : Bool) (sfs : List Surf) (wins : List Win) :
    Sys :=
  let mem := sfs.foldl (surfFree pr.pml4 ownerGone) (pr.space, s.heap)
  { s with
    procs := Function.update s.procs p (some { pr with space := mem.1 }), wins := wins, heap := mem.2 }

/-- `owner_gone` -/
def ownerGone (c : Conn) : Bool :=
  !processPidAlive s c.pid || (p == c.pid && pr.pml4 == none)

def wmDevRelease (h : Nat) (c : Conn) : Sys :=
  let mine := s.wins.filter fun w => w.conn = h
  let rest := s.wins.filter fun w => w.conn ≠ h
  let s := s.teardown p pr (ownerGone s p pr c) (mine.flatMap Win.surfs) rest
  { s with conns := Function.update s.conns h none }

/-! ### Requests -/

def maxWindows : Nat := 8
def maxSize : Nat := 2048
def typePopup : Nat := 2

inductive Errno where
  | enoent | enomem | ebusy | einval | enospc
deriving DecidableEq

/-- `surf_alloc`, where `kalloc` may return `mem`. A block that is given out is apart from the others. -/
def surfAlloc (s : Sys) (w h : Nat) (mem : Option Nat) : Option Surf :=
  mem.bind fun mem =>
    let sf : Surf := ⟨mem, w, h, none⟩
    if ∀ b ∈ s.heap, sf.block.Apart b then some sf else none

def slotUsed (s : Sys) (h i : Nat) : Bool := s.wins.any fun w => w.conn == h && w.slot == i

/-- The error, if any, and the state after. -/
abbrev Reply := Option Errno × Sys

/-- `do_create`; `desk` is the id of the new desktop window, if there is one. -/
def doCreate (s : Sys) (h w hh type : Nat) (mem desk : Option Nat) : Reply :=
  if w = 0 ∨ hh = 0 ∨ maxSize < w ∨ maxSize < hh then (some .einval, s)
  else if typePopup < type then (some .einval, s)
  else
    match (List.range maxWindows).find? fun i => !slotUsed s h i with
    | none => (some .enospc, s)
    | some slot =>
      match surfAlloc s w hh mem, desk with
      | some sf, some id =>
        (none, { s with wins := ⟨h, slot, id, 0, sf, none⟩ :: s.wins, heap := insert sf.block s.heap })
      | _, _ => (some .enomem, s)

/-- `conn_win` -/
def isWin (h id : Nat) (w : Win) : Bool := id != 0 && w.conn == h && w.deskId == id

/-- The surface of an acknowledged size. -/
def ackSurf (s : Sys) (w hh : Nat) (shown : Bool) (mem : Option Nat) : Except Errno Surf :=
  if !shown then .error .enoent
  else
    match surfAlloc s w hh mem with
    | none => .error .enomem
    | some sf => .ok sf

/-- `do_resize_ack`; `shown` if the desktop window still exists. -/
def doResizeAck (h id w hh : Nat) (shown : Bool) (mem : Option Nat) :
    Reply :=
  if w = 0 ∨ hh = 0 ∨ maxSize < w ∨ maxSize < hh then (some .einval, s)
  else
    match s.wins.find? (isWin h id) with
    | none => (some .einval, s)
    | some win =>
      match ackSurf s w hh shown mem with
      | .error e => (some e, s)
      | .ok sf =>
        let wins := { win with old := some win.cur, cur := sf, gen := win.gen + 1 } ::
          s.wins.eraseP (isWin h id)
        (none, { s with heap := insert sf.block s.heap }.teardown p pr false win.old.toList wins)

def doDestroy (h id : Nat) : Reply :=
  match s.wins.find? (isWin h id) with
  | none => (some .einval, s)
  | some win => (none, s.teardown p pr false win.surfs (s.wins.eraseP (isWin h id)))

/-- Map the pages from `va` on to the frames from `f` on. -/
def mapRange (space : Space) (va f n : Nat) : Space :=
  fun x => if va ≤ x ∧ x < va + n then some (f + (x - va)) else space x

def unmapRange (space : Space) (va n : Nat) : Space := fun x => if va ≤ x ∧ x < va + n then none else space x

def atSlot (h slot : Nat) (w : Win) : Bool := w.conn == h && w.slot == slot

/-- `wm_dev_mmap` of `len` bytes from byte `sub` of the surface of a window. `sys_mmap_device`
chooses the place; if it fails, it has unmapped some pages from there on (`undone`). -/
def mmapSurf (h slot sub len : Nat) (win : Win) (place : Nat)
    (undone : Option Nat) : Reply :=
  match undone, pr.pml4 with
  | none, some pml4 =>
    let pages := (len + 4095) / 4096
    let sf := { win.cur with mapping := some ⟨place, pages, pml4⟩ }
    let s' := s.setProc p { pr with space := mapRange pr.space place (sf.mem + sub / 4096) pages }
    (none, { s' with wins := { win with cur := sf } :: s.wins.eraseP (atSlot h slot) })
  | some k, _ => (some .enomem, s.setProc p { pr with space := unmapRange pr.space place k })
  | none, none => (some .einval, s)

/-- `wm_dev_mmap` -/
def wmDevMmap (h : Nat) (off : Int) (len place : Nat) (undone : Option Nat) :
    Reply :=
  let slot := off.toNat / 2 ^ 28 - 1
  let gen := off.toNat / 2 ^ 25 % 8
  let sub := off.toNat % 2 ^ 25
  if off ≤ 0 ∨ off % 4096 ≠ 0 ∨ len = 0 then (some .einval, s)
  -- The slot is an unsigned number: below the first it wraps.
  else if off.toNat / 2 ^ 28 = 0 ∨ maxWindows ≤ slot then (some .einval, s)
  else
    match s.wins.find? (atSlot h slot) with
    | none => (some .einval, s)
    | some win =>
      if gen ≠ win.gen % 8 then (some .einval, s)
      else if win.cur.len ≤ sub ∨ win.cur.len - sub < len then (some .einval, s)
      else if win.cur.mapping.isSome then (some .ebusy, s)
      else mmapSurf s p pr h slot sub len win place undone

/-! ### Histories -/

inductive Op where
  | connect (p h : Nat)
  | create (p h w hh type : Nat) (mem desk : Option Nat)
  | mmap (p h : Nat) (off : Int) (len place : Nat) (undone : Option Nat)
  | munmap (p va n : Nat)
  | resizeAck (p h id w hh : Nat) (shown : Bool) (mem : Option Nat)
  | destroy (p h id : Nat)
  /-- `dup`, or a descriptor sent to another process. -/
  | share (p q h : Nat)
  | close (p h : Nat)
  | fork (p q pml4 : Nat)
  | exec (p pml4 : Nat)
  /-- The start of an exit; `torn` if the address space goes before the descriptors. -/
  | die (p : Nat) (torn : Bool)

/-- The caller is a process that runs. -/
def Sys.by (s : Sys) (p : Nat) (f : Proc → Sys) : Sys :=
  match s.procs p with
  | none => s
  | some pr => if pr.running then f pr else s

/-- The caller has a descriptor of the connection. -/
def Sys.on (s : Sys) (p h : Nat) (f : Proc → Sys) : Sys := s.by p fun pr => if h ∈ pr.fds then f pr else s

def Conn.hold (n : Nat) (c : Conn) : Conn := { c with refCount := c.refCount + n }

def freeFd (s : Sys) (p h : Nat) : Sys :=
  match s.procs p with
  | none => s
  | some pr => s.setProc p { pr with fds := pr.fds.erase h }

/-- `fd_close_entry` -/
def fdCloseEntry (h : Nat) : Sys :=
  match s.conns h with
  | none => freeFd s p h
  | some c =>
    if 1 < c.refCount then
      freeFd { s with conns := Function.update s.conns h (some { c with refCount := c.refCount - 1 }) } p h
    else freeFd (wmDevRelease s p pr h c) p h

end

/-- Close a descriptor, also of a process on its way out. -/
def sysClose (s : Sys) (p h : Nat) : Sys :=
  match s.procs p with
  | none => s
  | some pr => if h ∈ pr.fds then fdCloseEntry s p pr h else s

def step (s : Sys) : Op → Sys
  | .connect p h => s.by p fun pr =>
    if (s.conns h).isSome then s
    else { s.setProc p { pr with fds := h :: pr.fds } with
      conns := Function.update s.conns h (some ⟨p, 1⟩) }
  | .create p h w hh type mem desk => s.on p h fun _ => (doCreate s h w hh type mem desk).2
  | .mmap p h off len place undone => s.on p h fun pr => (wmDevMmap s p pr h off len place undone).2
  | .munmap p va n => s.by p fun pr => s.setProc p { pr with space := unmapRange pr.space va n }
  | .resizeAck p h id w hh shown mem => s.on p h fun pr => (doResizeAck s p pr h id w hh shown mem).2
  | .destroy p h id => s.on p h fun pr => (doDestroy s p pr h id).2
  | .share p q h => s.on p h fun _ => s.by q fun pr =>
    { s.setProc q { pr with fds := h :: pr.fds } with
      conns := Function.update s.conns h ((s.conns h).map (Conn.hold 1)) }
  | .close p h => sysClose s p h
  | .fork p q pml4 => s.by p fun pr =>
    if (s.procs q).isSome then s
    else { s.setProc q { pr with pml4 := some pml4 } with
      conns := fun h => (s.conns h).map (Conn.hold (pr.fds.count h)) }
  | .exec p pml4 => s.by p fun pr => s.setProc p { pr with pml4 := some pml4, space := fun _ => none }
  | .die p torn => s.by p fun pr =>
    if torn then s.setProc p { pr with running := false, pml4 := none, space := fun _ => none }
    else s.setProc p { pr with running := false }

/-- Processes with empty address spaces; no connection. -/
def start (procs : Nat → Option Nat) : Sys :=
  ⟨fun p => (procs p).map fun pml4 => ⟨some pml4, true, fun _ => none, []⟩, fun _ => none, [], ∅⟩

end InDevOS.Wm
