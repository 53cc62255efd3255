import InDevOS.Lib.Steps
import InDevOS.Tmpfs.Inode

/-! The directory tree of `tmpfs.c`: the tables of nodes and inodes and every call that
changes them.

A node is a directory entry: a name in a parent node, naming an inode. Paths are byte
strings without the terminating zero. Handles live in a list; a call names one by its
place in the list. Times and owners are left out: nothing else depends on them. -/
namespace InDevOS.Tmpfs
open Lib

def tmpfsMaxNodes : Nat := 1024
def tmpfsMaxName : Nat := 64
def tmpfsLinkMax : Nat := 1023

/-! ### The tables -/

structure Node where
  used : Bool
  parent : Int
  ino : Nat
  name : List UInt8
deriving DecidableEq

/-- A cleared node. -/
def Node.zero : Node := ⟨false, 0, 0, []⟩

/-- The static tables of the file system, and the handles open on it. -/
structure Tables where
  nodes : Nat → Node
  inodes : Nat → Inode
  usedBytes : Nat
  handles : List Handle

def tIfmt : UInt32 := 0o170000
def tIfdir : UInt32 := 0o040000
def tIfreg : UInt32 := 0o100000
def tIflnk : UInt32 := 0o120000

def Inode.isDir (n : Inode) : Bool := n.mode &&& tIfmt == tIfdir
def Inode.isLnk (n : Inode) : Bool := n.mode &&& tIfmt == tIflnk

namespace Tables

section
variable (s : Tables)

def setNode (i : Nat) (nd : Node) : Tables :=
  { s with nodes := Function.update s.nodes i nd }

def setInode (ino : Nat) (n : Inode) : Tables :=
  { s with inodes := Function.update s.inodes ino n }

@[simp] theorem setInode_setInode (k : Nat) (m n : Inode) :
    (s.setInode k m).setInode k n = s.setInode k n := by
  unfold setInode
  rw [Function.update_idem]

@[simp] theorem setInode_inodes_self (k : Nat) (n : Inode) :
    (s.setInode k n).inodes k = n := Function.update_self _ _ _

/-- `NI(i)` -/
def nodeInode (i : Nat) : Inode := s.inodes (s.nodes i).ino

def isDir (i : Nat) : Bool := (s.nodeInode i).isDir
def isLnk (i : Nat) : Bool := (s.nodeInode i).isLnk

/-- `tmpfs_init_root` -/
def initRoot : Tables where
  nodes := Function.update (fun _ => Node.zero) 0 ⟨true, -1, 0, []⟩
  inodes := Function.update (fun _ => Inode.zero) 0
    { Inode.zero with used := true, mode := tIfdir ||| 0o1777, nlink := 1 }
  usedBytes := 0
  handles := []

/-- The numbers the table scans go through: 1 up to the last node. -/
def scan : List Nat := List.range' 1 (tmpfsMaxNodes - 1)

def findChild (parent : Nat) (name : List UInt8) : Option Nat :=
  scan.find? fun i => (s.nodes i).used && (s.nodes i).parent == parent && (s.nodes i).name == name

def hasChildren (dir : Nat) : Bool :=
  scan.any fun i => (s.nodes i).used && (s.nodes i).parent == dir

def allocNode : Option Nat := scan.find? fun i => !(s.nodes i).used

def allocInode (mode : UInt32) : Option (Nat × Tables) :=
  match scan.find? fun i => !(s.inodes i).used with
  | none => none
  | some i => some (i, s.setInode i { Inode.zero with used := true, mode := mode, nlink := 1 })

def putInode (ino : Nat) : Tables :=
  let n := s.inodes ino
  if ino = 0 ∨ !n.used ∨ n.nlink ≠ 0 ∨ n.opens ≠ 0 then s
  else { s.setInode ino Inode.zero with usedBytes := (tmpfsFreeData n s.usedBytes).2 }

/-- `kstrncpy` into a buffer of `size` bytes. -/
def kstrncpy (src : List UInt8) (size : Nat) : List UInt8 := src.take (size - 1)

/-- New entry `name` in directory `parent` for inode `ino`. -/
def addNode (parent : Nat) (name : List UInt8) (ino : Nat) : Option (Nat × Tables) :=
  match s.allocNode with
  | none => none
  | some i => some (i, s.setNode i ⟨true, parent, ino, kstrncpy name tmpfsMaxName⟩)

/-- Drop directory entry `i`; the inode goes when no entry or handle is left. -/
def dropNode (i : Nat) : Tables :=
  let ino := (s.nodes i).ino
  let s := s.setNode i Node.zero
  let n := s.inodes ino
  (s.setInode ino { n with nlink := n.nlink - 1 }).putInode ino

/-! ### Paths -/

def slash : UInt8 := 47

def skipSlashes (p : List UInt8) : List UInt8 := p.dropWhile (· == slash)

/-- A new inode and its entry; without room for the entry the inode goes again. -/
def make (mode : UInt32) (dir : Nat) (name : List UInt8) : Except Errno Nat × Tables :=
  match s.allocInode mode with
  | none => (.error .ENOSPC, s)
  | some (ino, s) =>
    match s.addNode dir name ino with
    | none => (.error .ENOSPC, (s.setInode ino { s.inodes ino with nlink := 0 }).putInode ino)
    | some (i, s) => (.ok i, s)

/-- How a component of a path is left: with a result, or for the next one. -/
inductive Walk where
  | done (r : Except Errno Nat)
  | next (dir : Nat) (path : List UInt8)

/-- At a component that is there or was made on the way; `rest` is the path from its end. -/
def arrive (createFile wantDir : Bool) (child : Nat) (rest : List UInt8) : Walk :=
  if rest.isEmpty then
    if wantDir && !s.isDir child then .done (.error .ENOTDIR)
    else if !wantDir && s.isDir child && createFile then .done (.error .EISDIR)
    else .done (.ok child)
  else if !s.isDir child then .done (.error .ENOTDIR)
  else
    let p := skipSlashes (rest.drop 1)
    if p.isEmpty then .done (if wantDir then .ok child else .error .ENOENT) else .next child p

/-- One round of the loop of `tmpfs_lookup`, at directory `cur` with path `p` left. -/
def lookupRound (createDirs createFile wantDir : Bool) (cur : Nat) (p : List UInt8) :
    Walk × Tables :=
  let part := p.takeWhile (· != slash)
  let rest := p.dropWhile (· != slash)
  let isLast := rest.isEmpty
  if part.length = 0 then (.done (.error .EINVAL), s)
  else if tmpfsMaxName ≤ part.length then (.done (.error .ENAMETOOLONG), s)
  else
    match s.findChild cur part with
    | some child => (s.arrive createFile wantDir child rest, s)
    | none =>
      if isLast && createFile && !wantDir then
        match s.make (tIfreg ||| 0o644) cur part with
        | (r, s) => (.done r, s)
      else if (!isLast && createDirs) || (isLast && createDirs && wantDir) then
        match s.make (tIfdir ||| 0o755) cur part with
        | (.error e, s) => (.done (.error e), s)
        | (.ok child, s) =>
          (if isLast then .done (.ok child) else s.arrive createFile wantDir child rest, s)
      else (.done (.error .ENOENT), s)

/-- The loop of `tmpfs_lookup`; every round shortens the path. -/
def lookupLoop (createDirs createFile wantDir : Bool) :
    (fuel cur : Nat) → List UInt8 → Tables → Except Errno Nat × Tables
  | 0, _, _, s => (.error .EINVAL, s)
  | fuel + 1, cur, p, s =>
    match s.lookupRound createDirs createFile wantDir cur p with
    | (.done r, s) => (r, s)
    | (.next dir p, s) => lookupLoop createDirs createFile wantDir fuel dir p s

section
variable (path : List UInt8)

def lookup (createDirs createFile wantDir : Bool) :
    Except Errno Nat × Tables :=
  let p := skipSlashes path
  if p.isEmpty then (if wantDir then .ok 0 else .error .ENOENT, s)
  else lookupLoop createDirs createFile wantDir (p.length + 1) 0 p s

/-- A lookup that makes nothing. -/
def find (wantDir : Bool) : Except Errno Nat :=
  (s.lookup path false false wantDir).1

/-- Any entry: file, directory or link. -/
def lookupAny : Except Errno Nat :=
  if path.isEmpty then .ok 0
  else
    match s.find path false with
    | .ok i => .ok i
    | .error e =>
      if e ≠ .ENOTDIR ∧ e ≠ .ENAMETOOLONG then
        match s.find path true with
        | .ok j => .ok j
        | .error _ => .error e
      else .error e

/-- The directory of a path and its last component. -/
def parentOf : Except Errno (Nat × List UInt8) :=
  let t := (skipSlashes (kstrncpy path 512)).rdropWhile (· == slash)
  if t.isEmpty then .error .EEXIST
  else
    let leaf := t.rtakeWhile (· != slash)
    if tmpfsMaxName ≤ leaf.length then .error .ENAMETOOLONG
    else if slash ∉ t then .ok (0, kstrncpy leaf tmpfsMaxName)
    else
      match s.find (t.rdropWhile (· != slash)).dropLast true with
      | .ok dir => .ok (dir, kstrncpy leaf tmpfsMaxName)
      | .error e => .error e

/-! ### Calls -/

/-- The loop over the ancestors of `a`: is `src` among them? -/
def isAncestor (s : Tables) (src : Nat) : (fuel a : Nat) → Bool
  | 0, _ => false
  | fuel + 1, a =>
    a == src ||
      (if 0 ≤ (s.nodes a).parent then isAncestor s src fuel (s.nodes a).parent.toNat else false)

/-- Give a node another parent and name. -/
def reparent (src dir : Nat) (leaf : List UInt8) : Tables :=
  s.setNode src { s.nodes src with parent := dir, name := kstrncpy leaf tmpfsMaxName }

def tmpfsRename (old new : List UInt8) : Option Errno × Tables :=
  match s.lookupAny old with
  | .error e => (some e, s)
  | .ok src =>
    if src = 0 then (some .EBUSY, s)
    else
      match s.parentOf new with
      | .error e => (some (if e = .EEXIST then .EBUSY else e), s)
      | .ok (dir, leaf) =>
        if s.isAncestor src tmpfsMaxNodes dir then (some .EINVAL, s)
        else
          match s.findChild dir leaf with
          | none => (none, s.reparent src dir leaf)
          | some dst =>
            if dst = src then (none, s)
            else if (s.nodes dst).ino = (s.nodes src).ino then (none, s)
            else if s.isDir dst != s.isDir src then
              (some (if s.isDir dst then .EISDIR else .ENOTDIR), s)
            else if s.isDir dst && s.hasChildren dst then (some .ENOTEMPTY, s)
            else (none, (s.dropNode dst).reparent src dir leaf)

def tmpfsRmdir : Option Errno × Tables :=
  match s.find path true with
  | .error e => (some e, s)
  | .ok i =>
    if i = 0 then (some .EBUSY, s)
    else if s.hasChildren i then (some .ENOTEMPTY, s)
    else (none, s.dropNode i)

def tmpfsUnlink : Option Errno × Tables :=
  match s.find path false with
  | .ok i => if i = 0 then (some .EBUSY, s) else (none, s.dropNode i)
  | .error _ =>
    match s.find path true with
    | .error e => (some e, s)
    | .ok i =>
      if s.hasChildren i then (some .EBUSY, s)
      else if i = 0 then (some .EBUSY, s)
      else (none, s.dropNode i)

/-- The error of a call that returns a node or an error. -/
def errorOf : Except Errno Nat → Option Errno
  | .ok _ => none
  | .error e => some e

def tmpfsCreate : Option Errno × Tables :=
  let r := s.lookup path true true false
  (errorOf r.1, r.2)

def tmpfsMkdir : Option Errno × Tables :=
  let r := s.lookup path true false true
  (errorOf r.1, r.2)

def tmpfsSymlink (path target : List UInt8) (alloc : Bool) : Option Errno × Tables :=
  if target.isEmpty then (some .ENOENT, s)
  else if tmpfsLinkMax < target.length then (some .ENAMETOOLONG, s)
  else
    match s.parentOf path with
    | .error e => (some e, s)
    | .ok (dir, leaf) =>
      if (s.findChild dir leaf).isSome then (some .EEXIST, s)
      else if !alloc then (some .ENOSPC, s)
      else
        match s.allocInode (tIflnk ||| 0o777) with
        | none => (some .ENOSPC, s)
        | some (ino, s) =>
          let s := s.setInode ino { s.inodes ino with target := some target, size := target.length }
          match s.addNode dir leaf ino with
          | none =>
            (some .ENOSPC, (s.setInode ino { s.inodes ino with nlink := 0 }).putInode ino)
          | some (_, s) => (none, s)

def tmpfsLink (old new : List UInt8) : Option Errno × Tables :=
  match s.lookupAny old with
  | .error e => (some e, s)
  | .ok src =>
    if s.isDir src then (some .EPERM, s)
    else
      match s.parentOf new with
      | .error e => (some e, s)
      | .ok (dir, leaf) =>
        if (s.findChild dir leaf).isSome then (some .EEXIST, s)
        else
          match s.addNode dir leaf (s.nodes src).ino with
          | none => (some .ENOSPC, s)
          | some (_, s) =>
            let ino := (s.nodes src).ino
            (none, s.setInode ino { s.inodes ino with nlink := (s.inodes ino).nlink + 1 })

/-- `O_TRUNC` on the inode of a file. -/
def truncateInode (ino : Nat) : Tables :=
  let r := tmpfsFreeData (s.inodes ino) s.usedBytes
  { s.setInode ino { r.1 with size := 0 } with usedBytes := r.2 }

/-- A new handle on inode `ino`. -/
def openInode (ino : Nat) (flags : UInt32) (alloc : Bool) : Bool × Tables :=
  let h : Handle := ⟨ino, 0, flags⟩
  let s := if h.has vfsOTrunc then s.truncateInode ino else s
  if !alloc then (false, s)
  else
    let n := s.inodes ino
    (true, { s.setInode ino { n with opens := n.opens + 1 } with
      handles := s.handles ++ [h.atWrite n] })

/-- The end of `tmpfs_open`, on what the lookup found. -/
def openFound (flags : UInt32) (alloc : Bool) : Except Errno Nat × Tables → Bool × Tables
  | (.error _, s) => (false, s)
  | (.ok i, s) =>
    if s.isDir i || s.isLnk i then (false, s) else s.openInode (s.nodes i).ino flags alloc

/-- `true` when the call returns a handle. -/
def tmpfsOpen (flags : UInt32) (alloc : Bool) : Bool × Tables :=
  let found := s.lookup path false false false
  openFound flags alloc <|
    match found.1 with
    | .ok _ => found
    | .error _ => if flags &&& vfsOCreate != 0 then s.lookup path true true false else found

end

/-- `tmpfs_hin`: the inode behind a handle. -/
def handleInode (h : Handle) : Option Inode :=
  if h.ino = 0 ∨ tmpfsMaxNodes ≤ h.ino ∨ !(s.inodes h.ino).used then none else some (s.inodes h.ino)

def tmpfsClose (k : Nat) : Tables :=
  match s.handles[k]? with
  | none => s
  | some h =>
    let s' : Tables := { s with handles := s.handles.eraseIdx k }
    match s.handleInode h with
    | none => s'
    | some n => (s'.setInode h.ino { n with opens := n.opens - 1 }).putInode h.ino

/-- Run a data operation of the inode behind handle `k`. -/
def onHandle (k : Nat) (f : Handle → Inode → Handle × Inode × Nat) : Tables :=
  match s.handles[k]? with
  | none => s
  | some h =>
    match s.handleInode h with
    | none => s
    | some n =>
      { s.setInode h.ino (f h n).2.1 with
        usedBytes := (f h n).2.2, handles := s.handles.set k (f h n).1 }

end

section
variable (limit : Nat) (s : Tables)

def write (k : Nat) (buf : Bytes) (size : UInt32) (mem : Memory) :
    Tables :=
  s.onHandle k fun h n => (tmpfsWrite limit mem n s.usedBytes h buf size.toNat).2

def ftruncate (k : Nat) (len : UInt64) (mem : Memory) : Tables :=
  s.onHandle k fun h n => (h, (tmpfsSetLen limit mem n s.usedBytes len.toNat).2)

def truncate (path : List UInt8) (len : UInt64) (mem : Memory) : Tables :=
  match s.find path false with
  | .error _ => s
  | .ok i =>
    if s.isDir i || s.isLnk i then s
    else
      let r := tmpfsSetLen limit mem (s.nodeInode i) s.usedBytes len.toNat
      { s.setInode (s.nodes i).ino r.2.1 with usedBytes := r.2.2 }

/-! ### Runs -/

inductive Op where
  | create (path : List UInt8)
  | mkdir (path : List UInt8)
  | symlink (path target : List UInt8) (alloc : Bool)
  | link (old new : List UInt8)
  | unlink (path : List UInt8)
  | rmdir (path : List UInt8)
  | rename (old new : List UInt8)
  | open (path : List UInt8) (flags : UInt32) (alloc : Bool)
  | close (k : Nat)
  | write (k : Nat) (buf : Bytes) (size : UInt32) (mem : Memory)
  | ftruncate (k : Nat) (len : UInt64) (mem : Memory)
  | truncate (path : List UInt8) (len : UInt64) (mem : Memory)

def step : Op → Tables
  | .create path => (s.tmpfsCreate path).2
  | .mkdir path => (s.tmpfsMkdir path).2
  | .symlink path target alloc => (s.tmpfsSymlink path target alloc).2
  | .link old new => (s.tmpfsLink old new).2
  | .unlink path => (s.tmpfsUnlink path).2
  | .rmdir path => (s.tmpfsRmdir path).2
  | .rename old new => (s.tmpfsRename old new).2
  | .open path flags alloc => (s.tmpfsOpen path flags alloc).2
  | .close k => s.tmpfsClose k
  | .write k buf size mem => s.write limit k buf size mem
  | .ftruncate k len mem => s.ftruncate limit k len mem
  | .truncate path len mem => s.truncate limit path len mem

def run (ops : List Op) : Tables := ops.foldl (step limit) s

end

end Tables

end InDevOS.Tmpfs
