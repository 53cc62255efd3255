import InDevOS.Lib.Bytes
import InDevOS.Lib.ByteFile

/-! Inodes of `tmpfs.c` and the data they hold.

File data lives in 64 KiB chunks behind a table of chunk slots that grows by doubling; a
slot without a chunk reads as zero. `tmpfs_used_bytes`, shared by all files, is passed
along. Whether the allocator has memory for a slot table or a chunk is an argument of the
operation that asks for it. -/
namespace InDevOS.Tmpfs
open Lib

/-! ### Error codes -/

inductive Errno where
  | EPERM | ENOENT | EBADF | EBUSY | EEXIST | ENOTDIR | EISDIR | EINVAL | ENOSPC
  | ENAMETOOLONG | ENOTEMPTY
deriving DecidableEq

/-- The value a call returns for an error. -/
def Errno.ret : Errno → Int
  | .EPERM => -1
  | .ENOENT => -2
  | .EBADF => -9
  | .EBUSY => -16
  | .EEXIST => -17
  | .ENOTDIR => -20
  | .EISDIR => -21
  | .EINVAL => -22
  | .ENOSPC => -28
  | .ENAMETOOLONG => -36
  | .ENOTEMPTY => -39

/-- `(int)n` for a `uint32_t`. -/
def toInt (n : Nat) : Int := if n % 2 ^ 32 < 2 ^ 31 then n % 2 ^ 32 else n % 2 ^ 32 - 2 ^ 32

/-! ### Inodes -/

def tmpfsChunk : Nat := 65536

structure Inode where
  used : Bool
  mode : UInt32
  nlink : Nat
  opens : Nat
  chunks : Nat → Option Bytes
  nchunkSlots : Nat
  size : Nat
  target : Option (List UInt8)

namespace Inode

/-- A cleared inode. -/
def zero : Inode where
  used := false
  mode := 0
  nlink := 0
  opens := 0
  chunks := fun _ => none
  nchunkSlots := 0
  size := 0
  target := none

/-- The chunk of a slot of the table. -/
def slot (n : Inode) (ci : Nat) : Option Bytes := if ci < n.nchunkSlots then n.chunks ci else none

def setChunk (n : Inode) (ci : Nat) (c : Bytes) : Inode :=
  { n with chunks := Function.update n.chunks ci (some c) }

end Inode

/-- Free the chunks of `left` slots from `i` on. -/
def freeChunks : (i left : Nat) → (Nat → Option Bytes) × Nat → (Nat → Option Bytes) × Nat
  | _, 0, s => s
  | i, left + 1, s =>
    freeChunks (i + 1) left
      (if (s.1 i).isSome then (Function.update s.1 i none, s.2 - tmpfsChunk) else s)

def tmpfsFreeData (n : Inode) (usedBytes : Nat) : Inode × Nat :=
  ({ n with chunks := fun _ => none, nchunkSlots := 0 },
    (freeChunks 0 n.nchunkSlots (n.chunks, usedBytes)).2)

/-- Zero chunk `ci` from `off` on. -/
def zeroTail (chunks : Nat → Option Bytes) (ci off : Nat) : Nat → Option Bytes :=
  match chunks ci with
  | some c => Function.update chunks ci (some (c.fill off 0 (tmpfsChunk - off)))
  | none => chunks

/-- Drop chunks wholly past `len` and zero the tail of the last one. -/
def tmpfsShrink (n : Inode) (len : Nat) (usedBytes : Nat) : Inode × Nat :=
  let keep := (len + tmpfsChunk - 1) % 2 ^ 32 / tmpfsChunk
  let s := freeChunks keep (n.nchunkSlots - keep) (n.chunks, usedBytes)
  let chunks :=
    if len % tmpfsChunk ≠ 0 ∧ keep ≠ 0 ∧ keep ≤ n.nchunkSlots then
      zeroTail s.1 (keep - 1) (len % tmpfsChunk)
    else s.1
  ({ n with chunks := chunks }, s.2)

/-- `while (ns < want) ns *= 2` -/
def doubleUntil (want : Nat) : (fuel ns : Nat) → Nat
  | 0, ns => ns
  | fuel + 1, ns => if ns < want then doubleUntil want fuel (ns * 2 % 2 ^ 32) else ns

/-- Make the slot table cover `need` bytes; `alloc` says whether a new table could be
allocated. -/
def tmpfsSlots (limit : Nat) (alloc : Bool) (n : Inode) (need : Nat) : Option Errno × Inode :=
  if 0xFFFFFFFF < need then (some .ENOSPC, n)
  else if limit < need then (some .ENOSPC, n)
  else
    let want := (need + tmpfsChunk - 1) / tmpfsChunk
    if want ≤ n.nchunkSlots then (none, n)
    else if !alloc then (some .ENOSPC, n)
    else
      let ns := doubleUntil want want (if n.nchunkSlots = 0 then 4 else n.nchunkSlots)
      (none, { n with chunks := n.slot, nchunkSlots := ns })

/-- The chunk of slot `ci`, allocated if it is missing; `alloc` says whether memory for it
is to be had. -/
def tmpfsGetChunk (limit : Nat) (alloc : Bool) (n : Inode) (usedBytes ci : Nat) :
    Option (Bytes × Inode × Nat) :=
  if n.nchunkSlots ≤ ci then none
  else
    match n.chunks ci with
    | some c => some (c, n, usedBytes)
    | none =>
      if limit < usedBytes + tmpfsChunk then none
      else if !alloc then none
      else
        some (fun _ => 0, n.setChunk ci fun _ => 0, usedBytes + tmpfsChunk)

/-! ### Reading and writing at a position -/

/-- `memcpy(dst + a, buf + b, c)` -/
def copyInto (dst : Bytes) (a : Nat) (buf : Bytes) (b c : Nat) : Bytes := fun x =>
  if a ≤ x ∧ x < a + c then buf (b + (x - a)) else dst x

/-- The bytes of one round of the copy loops: up to the end of the chunk. -/
def roundLength (off left : Nat) : Nat := min (tmpfsChunk - off % tmpfsChunk) left

/-- The loop of `tmpfs_read`, filling `buf` from `done` on. -/
def readLoop (n : Inode) (pos size : Nat) : (fuel done : Nat) → Bytes → Bytes
  | 0, _, buf => buf
  | fuel + 1, done, buf =>
    if done < size then
      let off := pos + done
      let c := roundLength off (size - done)
      let src := (n.slot (off / tmpfsChunk)).getD fun _ => 0
      readLoop n pos size fuel (done + c) (copyInto buf done src (off % tmpfsChunk) c)
    else buf

/-- The loop of `tmpfs_write`: how many bytes were stored, up to the first chunk that
cannot be had; `mem ci` says whether memory for chunk `ci` is to be had. -/
def writeLoop (limit : Nat) (mem : Nat → Bool) (buf : Bytes) (pos size : Nat) :
    (fuel done : Nat) → Inode → Nat → Nat × Inode × Nat
  | 0, done, n, usedBytes => (done, n, usedBytes)
  | fuel + 1, done, n, usedBytes =>
    if done < size then
      let off := pos + done
      let ci := off / tmpfsChunk
      let c := roundLength off (size - done)
      match tmpfsGetChunk limit (mem ci) n usedBytes ci with
      | none => (done, n, usedBytes)
      | some (dst, n, usedBytes) =>
        writeLoop limit mem buf pos size fuel (done + c)
          (n.setChunk ci (copyInto dst (off % tmpfsChunk) buf done c)) usedBytes
    else (done, n, usedBytes)

/-! ### Calls on a handle -/

structure Handle where
  ino : Nat
  pos : Nat
  flags : UInt32
deriving DecidableEq

def vfsOWrite : UInt32 := 0x02
def vfsOCreate : UInt32 := 0x04
def vfsOTrunc : UInt32 := 0x08
def vfsOAppend : UInt32 := 0x10

def Handle.has (h : Handle) (flag : UInt32) : Bool := h.flags &&& flag != 0

/-- What the allocator has during a call: memory for a slot table, and for each chunk. -/
structure Memory where
  table : Bool
  chunk : Nat → Bool

/-- Returns the bytes read; the return value of the source is their number. -/
def tmpfsRead (n : Inode) (h : Handle) (size : Nat) : List UInt8 × Handle :=
  if n.size ≤ h.pos then ([], h)
  else
    let size := min size (n.size - h.pos)
    ((List.range size).map (readLoop n h.pos size size 0 fun _ => 0), { h with pos := h.pos + size })

/-- An append moves the position to the end of the file first. -/
def Handle.atWrite (h : Handle) (n : Inode) : Handle :=
  if h.has vfsOAppend then { h with pos := n.size } else h

@[simp] theorem Handle.atWrite_ino (h : Handle) (n : Inode) : (h.atWrite n).ino = h.ino := by
  unfold Handle.atWrite
  split_ifs <;> rfl

def tmpfsWrite (limit : Nat) (mem : Memory) (n : Inode) (usedBytes : Nat) (h : Handle)
    (buf : Bytes) (size : Nat) : Except Errno Nat × Handle × Inode × Nat :=
  if !h.has vfsOWrite then (.error .EBADF, h, n, usedBytes)
  else
    let h := h.atWrite n
    if size = 0 then (.ok 0, h, n, usedBytes)
    else
      match tmpfsSlots limit mem.table n (h.pos + size) with
      | (some e, n) => (.error e, h, n, usedBytes)
      | (none, n) =>
        match writeLoop limit mem.chunk buf h.pos size size 0 n usedBytes with
        | (done, n, usedBytes) =>
          if done = 0 then (.error .ENOSPC, h, n, usedBytes)
          else
            let h := { h with pos := h.pos + done }
            (.ok done, h, { n with size := max n.size h.pos }, usedBytes)

def tmpfsSetLen (limit : Nat) (mem : Memory) (n : Inode) (usedBytes len : Nat) :
    Option Errno × Inode × Nat :=
  if n.size < len then
    match tmpfsSlots limit mem.table n len with
    | (some e, n) => (some e, n, usedBytes)
    | (none, n) => (none, { n with size := len % 2 ^ 32 }, usedBytes)
  else
    let s := tmpfsShrink n (len % 2 ^ 32) usedBytes
    (none, { s.1 with size := len % 2 ^ 32 }, s.2)

def tmpfsSeek (n : Inode) (h : Handle) (offset : Int) (whence : Nat) : Except Errno Nat × Handle :=
  let base : Option Int :=
    if whence = 0 then some 0
    else if whence = 1 then some h.pos
    else if whence = 2 then some n.size
    else none
  match base with
  | none => (.error .EINVAL, h)
  | some base =>
    if base + offset < 0 then (.error .EINVAL, h)
    else
      let pos := ((base + offset) % 2 ^ 32).toNat
      (.ok pos, { h with pos := pos })

end InDevOS.Tmpfs
