import InDevOS.Lib.Bytes

/-! The demand-loaded FAT of `fat32.c`: `fat_slots`, the round-robin eviction, entry
loads and stores, the flush of the dirty slots and `fat32_sync`.

A device call succeeds or fails; what the calls of a run answer is one sequence
(`Answers`), read off by a counter in the device, so that every pattern of failures is
some `Answers`. A failed write leaves anything in the sectors it addressed.

A slot holds 512 bytes whatever the volume calls a sector. Loads and stores return
`none` when the entry they access does not lie in the slot: the source then reads or
writes the memory behind `slot->data`. -/
namespace InDevOS.Fat32
open Lib

/-! ### The device -/

/-- What a device call does: succeed, or fail with `left` in the sectors of its range
(for a read, in the buffer). -/
inductive Answer where
  | ok
  | fail (left : Nat → Bytes)

/-- What the device calls of a run answer, in order. -/
abbrev Answers := Nat → Answer

structure Device where
  sectors : Nat → Bytes
  calls : Nat

/-- The sectors with `n` of them from `lba` on replaced. -/
def Device.put (dev : Device) (lba n : Nat) (data : Nat → Bytes) : Device where
  sectors := fun x => if lba ≤ x ∧ x < lba + n then data (x - lba) else dev.sectors x
  calls := dev.calls + 1

/-- `true` is the source's 0. -/
def storageWriteSectors (env : Answers) (dev : Device) (lba n : Nat) (data : Nat → Bytes) :
    Bool × Device :=
  match env dev.calls with
  | .ok => (true, dev.put lba n data)
  | .fail left => (false, dev.put lba n left)

/-- Read one sector. -/
def storageReadSector (env : Answers) (dev : Device) (lba : Nat) : Bool × Bytes × Device :=
  match env dev.calls with
  | .ok => (true, dev.sectors lba, { dev with calls := dev.calls + 1 })
  | .fail left => (false, left 0, { dev with calls := dev.calls + 1 })

/-! ### The volume -/

/-- `fat32_fs_t`, the fields the FAT cache looks at. -/
structure Volume where
  bytesPerSector : UInt16
  reservedSectorCount : UInt16
  numFats : UInt8
  fatSize32 : UInt32
  extFlags : UInt16
  fsInfo : UInt16
  fatStartSector : UInt32
  optical : Bool
deriving DecidableEq

namespace Volume

section
variable (v : Volume)

def bps : Nat := if v.bytesPerSector = 0 then 512 else v.bytesPerSector.toNat

def maxEntries : Nat := v.fatSize32.toNat * v.bps / 4

/-- The FAT sector of an entry and its offset there. -/
def sectorOf (cluster : UInt32) : UInt32 := UInt32.ofNat (cluster.toNat * 4 / v.bps)
def offsetOf (cluster : UInt32) : Nat := cluster.toNat * 4 % v.bps

/-- How many copies of the FAT are written. -/
def copies : Nat :=
  if 1 < v.numFats ∧ v.extFlags &&& 0x80 = 0 then min v.numFats.toNat 4 else 1

/-- The device sector of a sector of one FAT copy. -/
def fatLba (fat : Nat) (sector : UInt32) : UInt32 :=
  v.fatStartSector + UInt32.ofNat fat * v.fatSize32 + sector

end

end Volume

/-! ### The slots -/

def fat32FatCacheSlots : Nat := 32

def noSector : UInt32 := 0xFFFFFFFF

/-- `fat32_fat_slot_t` -/
structure Slot where
  sector : UInt32
  dirty : Bool
  data : Bytes

structure FatCache where
  slots : Nat → Slot
  slotHand : Nat
  dirtyLo : UInt32
  dirtyHi : UInt32
  metaChanged : Bool
  dev : Device

namespace FatCache

def setSlot (c : FatCache) (i : Nat) (s : Slot) : FatCache :=
  { c with slots := Function.update c.slots i s }

/-- The state `fat32_mount` leaves: no slot in use, nothing dirty. -/
def mounted (dev : Device) : FatCache where
  slots := fun _ => ⟨noSector, false, fun _ => 0⟩
  slotHand := 0
  dirtyLo := 0xFFFFFFFF
  dirtyHi := 0
  metaChanged := false
  dev := dev

end FatCache

/-- Write `n` FAT sectors to the copies from `fat` on, up to the first failure. -/
def writeCopies (env : Answers) (v : Volume) (sector : UInt32) (n : Nat) (data : Nat → Bytes) :
    (left fat : Nat) → Device → Bool × Device
  | 0, _, dev => (true, dev)
  | left + 1, fat, dev =>
    match storageWriteSectors env dev (v.fatLba fat sector).toNat n data with
    | (false, dev) => (false, dev)
    | (true, dev) => writeCopies env v sector n data left (fat + 1) dev

def fat32FatSlotWrite (env : Answers) (v : Volume) (slot : Slot) (dev : Device) :
    Bool × Slot × Device :=
  if !slot.dirty || slot.sector == noSector then (true, slot, dev)
  else if v.fatSize32 ≤ slot.sector then (false, slot, dev)
  else
    match writeCopies env v slot.sector 1 (fun _ => slot.data) v.copies 0 dev with
    | (false, dev) => (false, slot, dev)
    | (true, dev) => (true, { slot with dirty := false }, dev)

def fat32FatWriteRun (env : Answers) (v : Volume) (sector : UInt32) (count : Nat)
    (data : Nat → Bytes) (dev : Device) : Bool × Device :=
  if count = 0 ∨ v.fatSize32 ≤ sector ∨ v.fatSize32.toNat - sector.toNat < count then (false, dev)
  else writeCopies env v sector count data v.copies 0 dev

section
variable (env : Answers) (v : Volume) (c : FatCache)

/-- Write slot `i` back if it is dirty. -/
def FatCache.writeBack (i : Nat) : Bool × FatCache :=
  let r := fat32FatSlotWrite env v (c.slots i) c.dev
  (r.1, { c.setSlot i r.2.1 with dev := r.2.2 })

/-- The round-robin choice of a slot to reuse: a dirty slot that cannot be written back
is passed over. -/
def pickVictim (env : Answers) (v : Volume) : (tries : Nat) → FatCache → Option Nat × FatCache
  | 0, c => (none, c)
  | tries + 1, c =>
    let cand := c.slotHand
    let c := { c with slotHand := (cand + 1) % fat32FatCacheSlots }
    if (c.slots cand).dirty then
      match c.writeBack env v cand with
      | (false, c) => pickVictim env v tries c
      | (true, c) => (some cand, c)
    else (some cand, c)

def findSlot (c : FatCache) (sector : UInt32) : Option Nat :=
  (List.range fat32FatCacheSlots).find? fun i => (c.slots i).sector == sector

/-- Read a FAT sector into slot `i`. -/
def fillSlot (i : Nat) (sector : UInt32) :
    Bool × FatCache :=
  match storageReadSector env c.dev (v.fatLba 0 sector).toNat with
  | (false, data, dev) => (false, { c.setSlot i ⟨noSector, false, data⟩ with dev := dev })
  | (true, data, dev) => (true, { c.setSlot i ⟨sector, false, data⟩ with dev := dev })

def fat32FatSlot (sector : UInt32) :
    Option Nat × FatCache :=
  match findSlot c sector with
  | some i => (some i, c)
  | none =>
    match pickVictim env v fat32FatCacheSlots c with
    | (none, c) => (none, c)
    | (some i, c) =>
      match fillSlot env v c i sector with
      | (false, c) => (none, c)
      | (true, c) => (some i, c)

/-! ### Entries -/

/-- What a call returns. -/
inductive Result where
  | failed
  | value (raw : UInt32)
  | done
deriving DecidableEq

def fat32FatLoad (cluster : UInt32) :
    Option (Result × FatCache) :=
  if cluster < 2 ∨ v.maxEntries ≤ cluster.toNat then some (.failed, c)
  else
    match fat32FatSlot env v c (v.sectorOf cluster) with
    | (none, c) => some (.failed, c)
    | (some i, c) =>
      if v.offsetOf cluster + 4 ≤ 512 then
        some (.value (UInt32.ofNat ((c.slots i).data.get32 (v.offsetOf cluster))), c)
      else none

def fat32MarkFatDirty (v : Volume) (c : FatCache) (cluster : UInt32) : FatCache :=
  if v.bytesPerSector = 0 then c
  else
    let sector := cluster * 4 / v.bytesPerSector.toUInt32
    { c with
      dirtyLo := if sector < c.dirtyLo then sector else c.dirtyLo
      dirtyHi := if c.dirtyHi < sector then sector else c.dirtyHi }

def fat32FatStore (cluster value : UInt32) :
    Option (Result × FatCache) :=
  if cluster < 2 ∨ v.optical ∨ v.maxEntries ≤ cluster.toNat then some (.failed, c)
  else
    match fat32FatSlot env v c (v.sectorOf cluster) with
    | (none, c) => some (.failed, c)
    | (some i, c) =>
      if v.offsetOf cluster + 4 ≤ 512 then
        let slot : Slot :=
          { c.slots i with
            data := (c.slots i).data.put32 (v.offsetOf cluster) value.toNat
            dirty := true }
        some (.done, fat32MarkFatDirty v { c.setSlot i slot with metaChanged := true } cluster)
      else none

/-! ### Flush and sync -/

def dirtySlots (c : FatCache) : List Nat :=
  (List.range fat32FatCacheSlots).filter fun i =>
    (c.slots i).dirty && (c.slots i).sector != noSector

/-- Insert a slot into slots sorted by descending sector. -/
def insertSlot (c : FatCache) (i : Nat) : List Nat → List Nat
  | [] => [i]
  | j :: l =>
    if (c.slots i).sector < (c.slots j).sector then j :: insertSlot c i l else i :: j :: l

/-- The insertion sort of the flush: ascending by sector. -/
def sortSlots (c : FatCache) (l : List Nat) : List Nat :=
  (l.foldl (fun sorted i => insertSlot c i sorted) []).reverse

/-- The slots that continue the run of adjacent sectors ending at `i`, and the rest. -/
def spanRun (c : FatCache) : (i : Nat) → List Nat → List Nat × List Nat
  | _, [] => ([], [])
  | i, j :: l =>
    if (c.slots j).sector = (c.slots i).sector + 1 then
      (j :: (spanRun c j l).1, (spanRun c j l).2)
    else ([], j :: l)

def cleanSlots (c : FatCache) (l : List Nat) : FatCache :=
  { c with slots := fun i => if i ∈ l then { c.slots i with dirty := false } else c.slots i }

/-- Write a run of slots of adjacent sectors: a run of one slot on its own, a longer one
from a buffer that collects its data. -/
def writeRun (i : Nat) (run : List Nat) :
    Bool × FatCache :=
  if run = [] then c.writeBack env v i
  else
    let data := fun k => (c.slots ((i :: run).getD k 0)).data
    match fat32FatWriteRun env v (c.slots i).sector (run.length + 1) data c.dev with
    | (false, dev) => (false, { c with dev := dev })
    | (true, dev) => (true, cleanSlots { c with dev := dev } (i :: run))

/-- The loop over the sorted slots; without the buffer every run is one slot long. -/
def flushRuns (env : Answers) (v : Volume) (runBuf : Bool) :
    (fuel : Nat) → List Nat → FatCache → Bool × FatCache
  | 0, _, c => (true, c)
  | _, [], c => (true, c)
  | fuel + 1, i :: l, c =>
    let split := if runBuf then spanRun c i l else ([], l)
    let r := writeRun env v c i split.1
    let r' := flushRuns env v runBuf fuel split.2 r.2
    (r.1 && r'.1, r'.2)

/-- `fat32_flush_fat_impl`; `alloc` says whether the run buffer could be allocated. -/
def fat32FlushFat (alloc : Bool) : Bool × FatCache :=
  let r :=
    if c.dirtyLo ≤ c.dirtyHi then
      let idx := sortSlots c (dirtySlots c)
      flushRuns env v (decide (1 < idx.length) && alloc) idx.length idx c
    else (true, c)
  (r.1, { r.2 with dirtyLo := 0xFFFFFFFF, dirtyHi := 0 })

/-- `fat32_write_fsinfo_locked`, with the allocation cursor of the moment. -/
def fat32WriteFsinfo (allocCursor : UInt32) :
    Bool × FatCache :=
  if !c.metaChanged then (true, c)
  else if v.fsInfo = 0 ∨ v.fsInfo = 0xFFFF ∨ v.reservedSectorCount ≤ v.fsInfo then (true, c)
  else
    let lba := (v.fatStartSector - v.reservedSectorCount.toUInt32 + v.fsInfo.toUInt32).toNat
    match storageReadSector env c.dev lba with
    | (false, _, dev) => (false, { c with dev := dev })
    | (true, fi, dev) =>
      if fi.get32 0 ≠ 0x41615252 ∨ fi.get32 484 ≠ 0x61417272 then (true, { c with dev := dev })
      else if fi.get32 492 = allocCursor.toNat ∧ fi.get32 488 = 0xFFFFFFFF then
        (true, { c with dev := dev })
      else
        let fi := (fi.put32 492 allocCursor.toNat).put32 488 0xFFFFFFFF
        let r := storageWriteSectors env dev lba 1 fun _ => fi
        (r.1, { c with dev := r.2 })

def fat32Sync (alloc : Bool) (allocCursor : UInt32) :
    Bool × FatCache :=
  let r := fat32FlushFat env v c alloc
  let r' := fat32WriteFsinfo env v r.2 allocCursor
  (r.1 && r'.1, r'.2)

/-! ### Runs -/

inductive FatEvent where
  | load (cluster : UInt32)
  | store (cluster value : UInt32)
  | flush (alloc : Bool)
  | sync (alloc : Bool) (allocCursor : UInt32)
deriving DecidableEq

def returned (r : Bool × FatCache) : Result × FatCache :=
  (if r.1 then .done else .failed, r.2)

def fatStep : FatEvent → Option (Result × FatCache)
  | .load cluster => fat32FatLoad env v c cluster
  | .store cluster value => fat32FatStore env v c cluster value
  | .flush alloc => some (returned (fat32FlushFat env v c alloc))
  | .sync alloc allocCursor => some (returned (fat32Sync env v c alloc allocCursor))

end

/-- The results of a sequence of calls and the state they leave, `none` when one of them
accesses memory outside its slot. -/
def fatRun (env : Answers) (v : Volume) :
    FatCache → List FatEvent → Option (List Result × FatCache)
  | c, [] => some ([], c)
  | c, e :: es =>
    (fatStep env v c e).bind fun r =>
      (fatRun env v r.2 es).map fun rs => (r.1 :: rs.1, rs.2)

end InDevOS.Fat32
