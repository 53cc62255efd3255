import InDevOS.Storage.Bcache

/-! Sector reads and writes through the block cache: `storage_read_sectors` and
`storage_write_sectors` of `storage.c`.

A state is what the devices store and the cache over them. A call names the
device, the range and what the driver answers: a driver read either fails or
delivers the stored sectors, a driver write either stores the whole range or fails
after storing a first part of it.

The cache is transparent when every sector it would serve is the one on the device
(`Transparent`). Reads and successful writes keep that. A failed write does not:
the sectors it stored stay cached with their old content, since the cache is only
updated when the driver returns 0. `Benign` singles out the failed writes that do no
harm, and over runs that make no others every successful read returns what is on
the device (`reads_transparent`). -/
namespace InDevOS.Storage

/-! ### Devices and drivers -/

structure PciDevice where
  classCode : UInt8
  subclassCode : UInt8
deriving DecidableEq

/-- `storage_device_t`, the fields the read and write paths look at. -/
structure StorageDevice where
  deviceId : UInt8
  sectorCount : UInt32
  sectorSize : UInt32
  isInitialized : Bool
  pciDev : Option PciDevice
  optical : Bool

/-- The table `storage_devices`, up to `storage_device_count`. -/
abbrev Devices := List StorageDevice

section
variable (devs : Devices)

def storageGetDevice (deviceId : UInt8) : Option StorageDevice :=
  devs.find? fun d => d.deviceId == deviceId && d.isInitialized

/-- What each device stores, sector by sector. -/
abbrev Disk := UInt8 → UInt64 → Sector

/-- A caller's buffer, in units of a sector. -/
abbrev Buffer := Nat → Sector

/-- The dispatch on the device's PCI class finds a driver: the RAM disk, IDE, AHCI,
NVMe or USB mass storage. -/
def StorageDevice.hasDriver (d : StorageDevice) : Bool :=
  match d.pciDev with
  | none => true
  | some p => (p.classCode == 0x01 &&
      (p.subclassCode == 0x01 || p.subclassCode == 0x06 || p.subclassCode == 0x08)) ||
    (p.classCode == 0x0C && p.subclassCode == 0x03)

/-- What the driver returns for each read of a call. -/
abbrev ReadResult := UInt64 → Nat → Int

/-- What the driver does with a write: all of it, or a failure code after storing
the first `stored` sectors. -/
inductive WriteResult where
  | ok
  | fail (code : { r : Int // r ≠ 0 }) (stored : Nat)

/-- The sectors of a range, in order. -/
def Disk.range (disk : Disk) (dev : UInt8) (lba : UInt64) : Buffer :=
  fun j => disk dev (lba + UInt64.ofNat j)

/-- Store the first `n` sectors of `data` from `lba`. -/
def Disk.store (disk : Disk) (dev : UInt8) (lba : UInt64) (data : Buffer) (n : Nat) : Disk :=
  fun dev' lba' =>
    if dev' = dev ∧ (lba' - lba).toNat < n then data (lba' - lba).toNat else disk dev' lba'

section
variable (d : StorageDevice)

def storageReadSectorsHw (hw : ReadResult) (lba : UInt64) (n : Nat) : Int :=
  if d.hasDriver then hw lba n else -1

/-! ### Reading -/

def storageHwReadMaxSectors : Nat := 1024
def storageReadaheadSectors : Nat := 64

/-- The sector of the buffer at `dst + i * SECTOR_SIZE`, a product of 32 bits. -/
def bufferSlot (i : Nat) : Nat := i * sectorSize % 2 ^ 32 / sectorSize

/-- Extend a run of `n` uncached sectors from `base` while `more n` holds. -/
def scanMisses (dev : UInt8) (base : UInt64) (more : Nat → Bool) :
    Nat → Nat → Bcache → Nat × Bcache
  | 0, n, c => (n, c)
  | fuel + 1, n, c =>
    if more n then
      match bcacheLookup c dev (base + UInt64.ofNat n) with
      | (some _, c) => (n, c)
      | (none, c) => scanMisses dev base more fuel (n + 1) c
    else (n, c)

/-- Readahead is for short requests on DMA devices. -/
def readsAhead (c : Bcache) (count : Nat) : Bool :=
  count < storageReadaheadSectors && c.enabled && d.sectorCount != 0 &&
    (match d.pciDev with
      | none => false
      | some p => (p.classCode == 0x01 && (p.subclassCode == 0x06 || p.subclassCode == 0x08)) ||
          (p.classCode == 0x0C && p.subclassCode == 0x03)) &&
    (d.sectorSize == 0 || d.sectorSize.toNat == sectorSize)

/-- Take over `n` sectors read from the device: all go into the cache, the first
`nReq` also into the caller's buffer from its `i`-th sector. -/
def takeRun (dev : UInt8) (base : UInt64) (i nReq : Nat) (src : Buffer) :
    Nat → Nat → Buffer → Bcache → Buffer × Bcache
  | _, 0, buf, c => (buf, c)
  | j, n + 1, buf, c =>
    takeRun dev base i nReq src (j + 1) n
      (if j < nReq then Function.update buf (bufferSlot (i + j)) (src j) else buf)
      (bcacheInsert c dev (base + UInt64.ofNat j) (src j))

/-- How many sectors to ask the device for after a miss at `base`: the uncached run
the request covers, and with readahead the run the device command covers. -/
def missRun (dev : UInt8) (base : UInt64) (i count : Nat) (c : Bcache) :
    Nat × Nat × Bcache :=
  let r := scanMisses dev base (fun n => i + n < count && n < storageHwReadMaxSectors)
    storageHwReadMaxSectors 1 c
  if i + r.1 = count ∧ readsAhead d r.2 count then
    let r' := scanMisses dev base
      (fun n => n < storageReadaheadSectors && base + UInt64.ofNat n < d.sectorCount.toUInt64)
      storageReadaheadSectors r.1 r.2
    (r.1, r'.1, r'.2)
  else (r.1, r.1, r.2)

/-- The loop of `storage_read_sectors`, from the `i`-th sector on. -/
def readLoop (d : StorageDevice) (hw : ReadResult) (disk : Disk) (dev : UInt8) (lba : UInt64)
    (count : Nat) : Nat → Nat → Buffer → Bcache → Int × Buffer × Bcache
  | 0, _, buf, c => (0, buf, c)
  | fuel + 1, i, buf, c =>
    if i < count then
      let base := lba + UInt64.ofNat i
      match bcacheLookup c dev base with
      | (some e, c) =>
        readLoop d hw disk dev lba count fuel (i + 1)
          (Function.update buf (bufferSlot i) (c.entries e).data) { c with hits := c.hits + 1 }
      | (none, c) =>
        let (nReq, n, c) := missRun d dev base i count { c with misses := c.misses + 1 }
        let r := storageReadSectorsHw d hw base n
        if r ≠ 0 then (r, buf, c)
        else
          let (buf, c) := takeRun dev base i nReq (disk.range dev base) 0 n buf c
          readLoop d hw disk dev lba count fuel (i + nReq) buf c
    else (0, buf, c)

def storageReadSectors (hw : ReadResult) (disk : Disk) (c : Bcache)
    (deviceId : UInt8) (lba : UInt64) (sectorCount : UInt32) (buf : Buffer) :
    Int × Buffer × Bcache :=
  match storageGetDevice devs deviceId with
  | none => (-1, buf, c)
  | some d =>
    if d.optical then
      let r := storageReadSectorsHw d hw lba sectorCount.toNat
      (r, if r = 0 then fun j => if j < sectorCount.toNat then disk.range deviceId lba j else buf j
        else buf, c)
    else readLoop d hw disk deviceId lba sectorCount.toNat sectorCount.toNat 0 buf c

/-! ### Writing -/

/-- Insert `n` sectors of `data`, from the `i`-th. -/
def insertRange (dev : UInt8) (lba : UInt64) (data : Buffer) : Nat → Nat → Bcache → Bcache
  | _, 0, c => c
  | i, n + 1, c =>
    insertRange dev lba data (i + 1) n (bcacheInsert c dev (lba + UInt64.ofNat i) (data i))

/-- What the driver returns and leaves on the device. -/
def writeSectorsHw (hw : WriteResult) (disk : Disk) (dev : UInt8)
    (lba : UInt64) (count : Nat) (data : Buffer) : Int × Disk :=
  if d.hasDriver then
    match hw with
    | .ok => (0, disk.store dev lba data count)
    | .fail code stored => (code, disk.store dev lba data (min stored count))
  else (-1, disk)

end

def storageWriteSectors (hw : WriteResult) (disk : Disk) (c : Bcache)
    (deviceId : UInt8) (lba : UInt64) (sectorCount : UInt32) (data : Buffer) :
    Int × Disk × Bcache :=
  match storageGetDevice devs deviceId with
  | none => (-1, disk, c)
  | some d =>
    let r := writeSectorsHw d hw disk deviceId lba sectorCount.toNat data
    let c :=
      if r.1 = 0 ∧ c.enabled then
        if sectorCount > 8 then bcacheInvalidate c deviceId lba 0 sectorCount.toNat
        else insertRange deviceId lba data 0 sectorCount.toNat c
      else c
    (r.1, r.2, c)

/-! ### Runs -/

structure State where
  disk : Disk
  cache : Bcache

inductive Op where
  | read (dev : UInt8) (lba : UInt64) (count : UInt32) (hw : ReadResult) (buf : Buffer)
  | write (dev : UInt8) (lba : UInt64) (count : UInt32) (data : Buffer) (hw : WriteResult)
  | invalidate (dev : UInt8) (lba : UInt64) (count : UInt32)
  | invalidateAll

def step (s : State) : Op → State
  | .read dev lba count hw buf =>
    { s with cache := (storageReadSectors devs hw s.disk s.cache dev lba count buf).2.2 }
  | .write dev lba count data hw =>
    let r := storageWriteSectors devs hw s.disk s.cache dev lba count data
    ⟨r.2.1, r.2.2⟩
  | .invalidate dev lba count =>
    { s with cache := bcacheInvalidate s.cache dev lba 0 count.toNat }
  | .invalidateAll => { s with cache := storageBcacheInvalidateAll s.cache }

def run (s : State) (ops : List Op) : State := ops.foldl (step devs) s

end

/-- The state after `bcache_init`, whatever the devices hold. -/
def boot (disk : Disk) : State := ⟨disk, bcacheInit⟩

/-! ### What the disk holds -/

theorem store_at {disk : Disk} {dev : UInt8} {lba : UInt64} {data : Buffer} {n j : Nat}
    (hj : j < n) (hn : n ≤ 2 ^ 32) :
    disk.store dev lba data n dev (lba + UInt64.ofNat j) = data j := by
  have hoff : (lba + UInt64.ofNat j - lba).toNat = j := by
    rw [UInt64.add_comm, UInt64.add_sub_cancel]
    exact Nat.mod_eq_of_lt (by omega)
  rw [Disk.store, hoff, if_pos ⟨rfl, hj⟩]

theorem store_elsewhere {disk : Disk} {dev dev' : UInt8} {lba lba' : UInt64} {data : Buffer}
    {n : Nat} (h : ¬ InRange dev lba 0 n dev' lba') :
    disk.store dev lba data n dev' lba' = disk dev' lba' := by
  refine if_neg fun hin => h ⟨hin.1, _, Nat.zero_le _, by simpa using hin.2, ?_⟩
  rw [UInt64.ofNat_toNat, UInt64.add_comm, UInt64.sub_add_cancel]

/-! ### Transparency -/

/-- Every sector the cache would serve is the one on the device. -/
def Transparent (disk : Disk) (c : Bcache) : Prop :=
  ∀ dev lba d, Caches c dev lba d → d = disk dev lba

/-- The cache's structures agree and it is switched on. -/
structure Sound (c : Bcache) : Prop where
  coherent : Coherent c
  enabled : c.enabled = true

theorem sound_init : Sound bcacheInit := ⟨coherent_init, rfl⟩

theorem transparent_init (disk : Disk) : Transparent disk bcacheInit := fun dev lba d h =>
  absurd h (caches_init dev lba d)

section Calls
variable {c c' : Bcache} {disk : Disk}

theorem LruOnly.transparent (h : LruOnly c c') (ht : Transparent disk c) : Transparent disk c' :=
  fun dev lba d hd => ht dev lba d ((h.caches dev lba d).mp hd)

theorem LruOnly.sound (h : LruOnly c c') (hl : c'.lru = c.lru) (hs : Sound c) : Sound c' := by
  obtain ⟨⟨l, ch, hc⟩, hen⟩ := hs
  exact ⟨⟨l, ch, h.coherent hc (hl ▸ hc.lru) (List.Perm.refl l)⟩, h.enabled.trans hen⟩

theorem counters_lruOnly (c : Bcache) (hits misses : UInt64) :
    LruOnly c { c with hits := hits, misses := misses } := ⟨fun _ => rfl, rfl, rfl, rfl, rfl⟩

theorem Sound.counters (hs : Sound c) (hits misses : UInt64) :
    Sound { c with hits := hits, misses := misses } :=
  (counters_lruOnly c hits misses).sound rfl hs

theorem lookup_sound (hs : Sound c) (dev : UInt8) (lba : UInt64) :
    Sound (bcacheLookup c dev lba).2 := by
  obtain ⟨honly, hco, -⟩ := lookup_spec hs.coherent dev lba
  exact ⟨hco, honly.enabled.trans hs.enabled⟩

theorem Inserted.sound {dev : UInt8} {lba : UInt64} {d : Sector}
    (h : Inserted c c' dev lba d) (hs : Sound c) : Sound c' :=
  ⟨h.coherent, h.enabled.trans hs.enabled⟩

theorem Inserted.transparent {dev : UInt8} {lba : UInt64} {d : Sector}
    (h : Inserted c c' dev lba d) (ht : Transparent disk c) (hd : d = disk dev lba) :
    Transparent disk c' := by
  intro dev' lba' d' hd'
  rcases h.caches hd' with ⟨⟨rfl, rfl⟩, rfl⟩ | ⟨-, hd'⟩
  · exact hd
  · exact ht dev' lba' d' hd'

/-! ### Reads -/

theorem scanMisses_spec (hs : Sound c) (dev : UInt8) (base : UInt64) (more : Nat → Bool)
    (fuel n : Nat) :
    LruOnly c (scanMisses dev base more fuel n c).2 ∧
      Sound (scanMisses dev base more fuel n c).2 ∧ n ≤ (scanMisses dev base more fuel n c).1 ∧
      ∀ k, n ≤ k → k < (scanMisses dev base more fuel n c).1 → more k = true := by
  induction fuel generalizing n c with
  | zero => exact ⟨LruOnly.refl c, hs, le_rfl, fun k h₁ h₂ => absurd h₁ (Nat.not_le_of_lt h₂)⟩
  | succ fuel ih =>
    rw [scanMisses]
    split_ifs with hm
    · have hs' := lookup_sound hs dev (base + UInt64.ofNat n)
      obtain ⟨honly, -⟩ := lookup_spec hs.coherent dev (base + UInt64.ofNat n)
      generalize bcacheLookup c dev (base + UInt64.ofNat n) = r at honly hs' ⊢
      obtain ⟨_ | e, c₁⟩ := r
      · obtain ⟨h₁, h₂, h₃, h₄⟩ := ih hs' (n + 1)
        refine ⟨honly.trans h₁, h₂, Nat.le_of_succ_le h₃, fun k hk hk' => ?_⟩
        rcases Nat.eq_or_lt_of_le hk with rfl | hk
        · exact hm
        · exact h₄ k hk hk'
      · exact ⟨honly, hs', le_rfl, fun k h₁ h₂ => absurd h₁ (Nat.not_le_of_lt h₂)⟩
    · exact ⟨LruOnly.refl c, hs, le_rfl, fun k h₁ h₂ => absurd h₁ (Nat.not_le_of_lt h₂)⟩

/-- The requested part of a run stays inside the request, and is not empty. -/
theorem missRun_spec (hs : Sound c) (d : StorageDevice) (dev : UInt8) (base : UInt64)
    {i count : Nat} (hi : i < count) {nReq n : Nat}
    (h : missRun d dev base i count c = (nReq, n, c')) :
    LruOnly c c' ∧ Sound c' ∧ 1 ≤ nReq ∧ nReq ≤ n ∧ i + nReq ≤ count := by
  obtain ⟨h₁, h₂, h₃, h₄⟩ := scanMisses_spec hs dev base
    (fun n => i + n < count && n < storageHwReadMaxSectors) storageHwReadMaxSectors 1
  unfold missRun at h
  generalize scanMisses dev base (fun n => i + n < count && n < storageHwReadMaxSectors)
    storageHwReadMaxSectors 1 c = r at h h₁ h₂ h₃ h₄
  have hreq : i + r.1 ≤ count := by
    rcases Nat.eq_or_lt_of_le h₃ with heq | hlt
    · omega
    · have := h₄ (r.1 - 1) (by omega) (by omega)
      simp only [Bool.and_eq_true, decide_eq_true_eq] at this
      omega
  dsimp only at h
  split at h
  · obtain ⟨h₁', h₂', h₃', -⟩ := scanMisses_spec h₂ dev base
      (fun n => n < storageReadaheadSectors && base + UInt64.ofNat n < d.sectorCount.toUInt64)
      storageReadaheadSectors r.1
    obtain ⟨rfl, rfl, rfl⟩ := h
    exact ⟨h₁.trans h₁', h₂', h₃, h₃', hreq⟩
  · obtain ⟨rfl, rfl, rfl⟩ := h
    exact ⟨h₁, h₂, h₃, le_rfl, hreq⟩

theorem bufferSlot_of_lt {i : Nat} (hi : i < 2 ^ 23) : bufferSlot i = i := by
  have : i * sectorSize % 2 ^ 32 = i * sectorSize := Nat.mod_eq_of_lt (by simp [sectorSize]; omega)
  rw [bufferSlot, this]
  exact Nat.mul_div_cancel i (by decide)

/-- The cache side of taking a run over: it stays sound, and transparent when the run
is what the device holds. -/
theorem takeRun_cache (disk : Disk) (hs : Sound c) (dev : UInt8) (base : UInt64) (i nReq j n : Nat)
    (buf : Buffer) :
    Sound (takeRun dev base i nReq (disk.range dev base) j n buf c).2 ∧
      (Transparent disk c →
        Transparent disk (takeRun dev base i nReq (disk.range dev base) j n buf c).2) := by
  induction n generalizing j buf c with
  | zero => exact ⟨hs, id⟩
  | succ n ih =>
    have hins := insert_spec hs.coherent hs.enabled dev (base + UInt64.ofNat j)
      (disk.range dev base j)
    obtain ⟨h₁, h₂⟩ := ih (hins.sound hs) (j + 1) _
    exact ⟨h₁, fun ht => h₂ (hins.transparent ht rfl)⟩

/-- The buffer side: slots `i + j` up to `i + nReq` receive the run, the others keep
their content. -/
theorem takeRun_buffer (dev : UInt8) (base : UInt64) {i nReq : Nat} (src : Buffer)
    (hlimit : i + nReq ≤ 2 ^ 23) (j n : Nat) (buf : Buffer) (hn : nReq ≤ j + n) (k : Nat) :
    (takeRun dev base i nReq src j n buf c).1 k =
      if i + j ≤ k ∧ k < i + nReq then src (k - i) else buf k := by
  induction n generalizing j buf c with
  | zero =>
    rw [if_neg (by omega)]
    rfl
  | succ n ih =>
    rw [takeRun, ih (j + 1) _ (by omega)]
    by_cases hj : j < nReq
    · rw [if_pos hj, bufferSlot_of_lt (by omega)]
      by_cases hk : k = i + j
      · subst hk
        rw [if_neg (by omega), if_pos (by omega)]
        simp
      · rw [Function.update_of_ne hk]
        by_cases hin : i + j ≤ k ∧ k < i + nReq
        · rw [if_pos hin, if_pos (by omega)]
        · rw [if_neg hin, if_neg (by omega)]
    · rw [if_neg hj, if_neg (by omega), if_neg (by omega)]

/-- What a pass of the read loop from the `i`-th sector owes: a sound cache, and over
a transparent cache a transparent one and, when it returns 0, the device's sectors. -/
structure ReadsFrom (disk : Disk) (dev : UInt8) (lba : UInt64) (count fuel i : Nat) (buf : Buffer)
    (c : Bcache) (r : Int × Buffer × Bcache) : Prop where
  sound : Sound r.2.2
  transparent : Transparent disk c → Transparent disk r.2.2
  data : Transparent disk c → r.1 = 0 → count ≤ 2 ^ 23 → count ≤ i + fuel →
    (∀ k < i, buf k = disk.range dev lba k) → ∀ k < count, r.2.1 k = disk.range dev lba k

section ReadLoop
variable {d : StorageDevice} {hw : ReadResult} {dev : UInt8} {lba : UInt64} {count : Nat}

theorem ReadsFrom.stop (hs : Sound c) {fuel i : Nat} {buf : Buffer} (h : fuel = 0 ∨ ¬ i < count) :
    ReadsFrom disk dev lba count fuel i buf c (0, buf, c) :=
  ⟨hs, id, fun _ _ _ hfuel hbuf k hk => hbuf k (by omega)⟩

theorem ReadsFrom.hit {fuel i : Nat} {buf : Buffer} (hs : Sound c) {e : Ptr} {c₁ : Bcache}
    (hi : i < count) (hl : bcacheLookup c dev (lba + UInt64.ofNat i) = (some e, c₁))
    {r : Int × Buffer × Bcache}
    (h : ReadsFrom disk dev lba count fuel (i + 1)
      (Function.update buf (bufferSlot i) (c₁.entries e).data) { c₁ with hits := c₁.hits + 1 } r) :
    ReadsFrom disk dev lba count (fuel + 1) i buf c r := by
  obtain ⟨honly, -, hsome, -⟩ := lookup_spec hs.coherent dev (lba + UInt64.ofNat i)
  rw [hl] at honly hsome
  have honly' := honly.trans (counters_lruOnly c₁ (c₁.hits + 1) c₁.misses)
  refine ⟨h.sound, fun ht => h.transparent (honly'.transparent ht),
    fun ht h0 hcount hfuel hbuf => h.data (honly'.transparent ht) h0 hcount (by omega) ?_⟩
  intro k hk
  rw [bufferSlot_of_lt (by omega)]
  by_cases hki : k = i
  · subst hki
    rw [Function.update_self, honly.data]
    obtain ⟨hv, h₁, h₂⟩ := hsome e rfl
    exact ht dev _ _ ⟨e, hv, h₁, h₂, rfl⟩
  · rw [Function.update_of_ne hki]
    exact hbuf k (by omega)

theorem ReadsFrom.miss {fuel i nReq n : Nat} {buf : Buffer} {c₂ : Bcache} (honly : LruOnly c c₂)
    (hs₂ : Sound c₂) (hreq : 1 ≤ nReq) (hn : nReq ≤ n) (hin : i + nReq ≤ count)
    {t : Buffer × Bcache}
    (htake : takeRun dev (lba + UInt64.ofNat i) i nReq (disk.range dev (lba + UInt64.ofNat i))
      0 n buf c₂ = t)
    {r : Int × Buffer × Bcache} (h : ReadsFrom disk dev lba count fuel (i + nReq) t.1 t.2 r) :
    ReadsFrom disk dev lba count (fuel + 1) i buf c r := by
  obtain ⟨-, htrans⟩ :=
    takeRun_cache disk hs₂ dev (lba + UInt64.ofNat i) i nReq 0 n buf
  rw [htake] at htrans
  refine ⟨h.sound, fun ht => h.transparent (htrans (honly.transparent ht)),
    fun ht h0 hcount hfuel hbuf =>
      h.data (htrans (honly.transparent ht)) h0 hcount (by omega) ?_⟩
  intro k hk
  rw [← htake, takeRun_buffer dev _ _ (by omega) 0 n buf (by omega) k]
  split_ifs
  · have hsum : i + (k - i) = k := by omega
    simp only [Disk.range]
    rw [UInt64.add_assoc, ← UInt64.ofNat_add, hsum]
  · exact hbuf k (by omega)

theorem readLoop_spec (fuel i : Nat) (buf : Buffer) (hs : Sound c) :
    ReadsFrom disk dev lba count fuel i buf c
      (readLoop d hw disk dev lba count fuel i buf c) := by
  induction fuel generalizing i buf c with
  | zero => exact .stop hs (.inl rfl)
  | succ fuel ih =>
    rw [readLoop]
    split_ifs with hi
    · obtain ⟨honly, -⟩ := lookup_spec hs.coherent dev (lba + UInt64.ofNat i)
      have hs₁ := lookup_sound hs dev (lba + UInt64.ofNat i)
      dsimp only
      generalize hl : bcacheLookup c dev (lba + UInt64.ofNat i) = r at honly hs₁
      obtain ⟨_ | e, c₁⟩ := r
      all_goals dsimp only at honly hs₁ ⊢
      · generalize hm : missRun d dev (lba + UInt64.ofNat i) i count
          { c₁ with misses := c₁.misses + 1 } = m
        obtain ⟨nReq, n, c₂⟩ := m
        obtain ⟨honly₂, hs₂, hreq, hn, hin⟩ :=
          missRun_spec (hs₁.counters c₁.hits (c₁.misses + 1)) d dev _ hi hm
        have honly' := (honly.trans (counters_lruOnly c₁ c₁.hits (c₁.misses + 1))).trans honly₂
        split
        · rename_i hfail
          exact ⟨hs₂, honly'.transparent, fun _ h0 => absurd h0 hfail⟩
        · exact .miss honly' hs₂ hreq hn hin rfl (ih _ _ (takeRun_cache disk hs₂ ..).1)
      · exact .hit hs hi hl (ih _ _ (hs₁.counters (c₁.hits + 1) c₁.misses))
    · exact .stop hs (.inr hi)

end ReadLoop

/-- A whole read: sound and transparent after it, and on success the device's data. -/
theorem read_spec (devs : Devices) (hw : ReadResult) (hs : Sound c) (dev : UInt8) (lba : UInt64)
    (count : UInt32) (buf : Buffer) :
    ReadsFrom disk dev lba count.toNat count.toNat 0 buf c
      (storageReadSectors devs hw disk c dev lba count buf) := by
  unfold storageReadSectors
  cases storageGetDevice devs dev with
  | none => exact ⟨hs, id, fun _ h0 => by simp at h0⟩
  | some d =>
    dsimp only
    split
    · refine ⟨hs, id, fun _ h0 _ _ _ k hk => ?_⟩
      dsimp only at h0 ⊢
      rw [if_pos h0, if_pos hk]
    · exact readLoop_spec _ _ _ hs

/-! ### Writes -/

/-- Inserting the sectors of a range that are on the device makes the cache
transparent when it was so outside the range. -/
theorem insertRange_spec (disk : Disk) (dev : UInt8) (lba : UInt64) (data : Buffer) (i n : Nat) (hs : Sound c) :
    Sound (insertRange dev lba data i n c) ∧
      ((∀ dev' lba' d, Caches c dev' lba' d → ¬ InRange dev lba i n dev' lba' →
          d = disk dev' lba') →
        (∀ j, i ≤ j → j < i + n → data j = disk dev (lba + UInt64.ofNat j)) →
        Transparent disk (insertRange dev lba data i n c)) := by
  induction n generalizing i c with
  | zero => exact ⟨hs, fun hout _ dev' lba' d hd => hout dev' lba' d hd not_inRange_zero⟩
  | succ n ih =>
    have hins := insert_spec hs.coherent hs.enabled dev (lba + UInt64.ofNat i) (data i)
    obtain ⟨h₁, h₂⟩ := ih (i + 1) (hins.sound hs)
    refine ⟨h₁, fun hout hdata => h₂ (fun dev' lba' d hd hnot => ?_)
      fun j hj hj' => hdata j (by omega) (by omega)⟩
    rcases hins.caches hd with ⟨⟨rfl, rfl⟩, rfl⟩ | ⟨hkey, hd⟩
    · exact hdata i le_rfl (by omega)
    · refine hout dev' lba' d hd fun hin => ?_
      rcases inRange_succ.mp hin with hk | hin
      · exact hkey hk
      · exact hnot hin

/-- The cached copies of the sectors a failed write stored are what it stored. -/
def StoredAsCached (c : Bcache) (dev : UInt8) (lba : UInt64) (data : Buffer) (n : Nat) : Prop :=
  ∀ j < n, ∀ d, Caches c dev (lba + UInt64.ofNat j) d → d = data j

theorem transparent_store (ht : Transparent disk c) {dev : UInt8} {lba : UInt64} {data : Buffer}
    {n : Nat} (hn : n ≤ 2 ^ 32) (hsame : StoredAsCached c dev lba data n) :
    Transparent (disk.store dev lba data n) c := by
  intro dev' lba' d hd
  by_cases hin : InRange dev lba 0 n dev' lba'
  · obtain ⟨rfl, j, -, hj, rfl⟩ := hin
    rw [store_at (by omega) hn]
    exact hsame j (by omega) d hd
  · rw [store_elsewhere hin]
    exact ht dev' lba' d hd

section
variable (devs : Devices) (hw : WriteResult) (hs : Sound c) (dev : UInt8) (lba : UInt64) (count : UInt32)
  (data : Buffer)
include hw hs

theorem write_sound : Sound (storageWriteSectors devs hw disk c dev lba count data).2.2 := by
  unfold storageWriteSectors
  cases storageGetDevice devs dev with
  | none => exact hs
  | some d =>
    dsimp only
    split_ifs
    · obtain ⟨h₁, h₂, -⟩ := invalidate_spec hs.coherent dev lba 0 count.toNat
      exact ⟨h₁, h₂.trans hs.enabled⟩
    · exact (insertRange_spec disk dev lba data 0 count.toNat hs).1
    · exact hs

/-- A write keeps the cache transparent unless it fails after storing sectors that
are cached with another content. -/
theorem write_transparent (hfail : ∀ code stored, hw = .fail code stored →
      StoredAsCached c dev lba data (min stored count.toNat)) (ht : Transparent disk c) :
    Transparent (storageWriteSectors devs hw disk c dev lba count data).2.1
      (storageWriteSectors devs hw disk c dev lba count data).2.2 := by
  have hcount : count.toNat < 2 ^ 32 := count.toNat_lt
  unfold storageWriteSectors
  cases storageGetDevice devs dev with
  | none => exact ht
  | some d =>
    dsimp only
    unfold writeSectorsHw
    split
    · cases hw with
      | ok =>
        simp only [hs.enabled, true_and, if_true]
        split
        · intro dev' lba' d' hd'
          obtain ⟨hd, hnot⟩ := ((invalidate_spec hs.coherent dev lba 0 _).2.2 dev' lba' d').mp hd'
          rw [store_elsewhere hnot]
          exact ht dev' lba' d' hd
        · refine (insertRange_spec _ dev lba data 0 count.toNat hs).2
            (fun dev' lba' d' hd' hnot => ?_) fun j _ hj => ?_
          · rw [store_elsewhere hnot]
            exact ht dev' lba' d' hd'
          · rw [store_at (by omega) (by omega)]
      | fail code stored =>
        simp only [code.property, false_and, if_false]
        exact transparent_store ht (by omega) (hfail code stored rfl)
    · rw [if_neg (by simp)]
      exact ht

end

end Calls

/-! ### Whole runs -/

/-- The step is not a write that fails after storing sectors cached with another
content. -/
def Op.Benign (s : State) : Op → Prop
  | .write dev lba count data (.fail _ stored) =>
    StoredAsCached s.cache dev lba data (min stored count.toNat)
  | _ => True

/-- Every step of the run is benign in the state it is made in. -/
def BenignRun (devs : Devices) : State → List Op → Prop
  | _, [] => True
  | s, op :: ops => op.Benign s ∧ BenignRun devs (step devs s op) ops

section
variable (devs : Devices) {s : State} (hs : Sound s.cache)
include hs

theorem step_sound (op : Op) : Sound (step devs s op).cache := by
  cases op with
  | read dev lba count hw buf => exact (read_spec devs hw hs dev lba count buf).sound
  | write dev lba count data hw => exact write_sound devs hw hs dev lba count data
  | invalidate dev lba count =>
    obtain ⟨h₁, h₂, -⟩ := invalidate_spec hs.coherent dev lba 0 count.toNat
    exact ⟨h₁, h₂.trans hs.enabled⟩
  | invalidateAll =>
    obtain ⟨h₁, h₂, -⟩ := invalidateAll_spec hs.coherent
    exact ⟨h₁, h₂.trans hs.enabled⟩

theorem step_transparent (ht : Transparent s.disk s.cache) {op : Op} (hop : op.Benign s) :
    Transparent (step devs s op).disk (step devs s op).cache := by
  cases op with
  | read dev lba count hw buf => exact (read_spec devs hw hs dev lba count buf).transparent ht
  | write dev lba count data hw =>
    refine write_transparent devs hw hs dev lba count data (fun code stored h => ?_) ht
    subst h
    exact hop
  | invalidate dev lba count =>
    intro dev' lba' d hd
    exact ht dev' lba' d (((invalidate_spec hs.coherent dev lba 0 _).2.2 dev' lba' d).mp hd).1
  | invalidateAll =>
    intro dev' lba' d hd
    exact absurd hd ((invalidateAll_spec hs.coherent).2.2 dev' lba' d)

theorem run_sound (ops : List Op) : Sound (run devs s ops).cache := by
  induction ops generalizing s with
  | nil => exact hs
  | cons op ops ih => exact ih (step_sound devs hs op)

theorem run_transparent (ht : Transparent s.disk s.cache) {ops : List Op} (hops : BenignRun devs s ops) :
    Transparent (run devs s ops).disk (run devs s ops).cache := by
  induction ops generalizing s with
  | nil => exact ht
  | cons op ops ih => exact ih (step_sound devs hs op) (step_transparent devs hs ht hops.1) hops.2

end

/-- **After every run the hash chains, the LRU list and the count describe the same
entries, one at most for each sector. After a run without harmful failed writes a
read that succeeds returns the sectors on the device.** -/
theorem reads_transparent (devs : Devices) (disk : Disk) (ops : List Op) :
    Coherent (run devs (boot disk) ops).cache ∧
      (BenignRun devs (boot disk) ops →
        ∀ (dev : UInt8) (lba : UInt64) (count : UInt32) (hw : ReadResult) (buf : Buffer),
          count.toNat ≤ 2 ^ 23 →
          (storageReadSectors devs hw (run devs (boot disk) ops).disk
            (run devs (boot disk) ops).cache dev lba count buf).1 = 0 →
          ∀ j < count.toNat,
            (storageReadSectors devs hw (run devs (boot disk) ops).disk
              (run devs (boot disk) ops).cache dev lba count buf).2.1 j =
            (run devs (boot disk) ops).disk dev (lba + UInt64.ofNat j)) := by
  have hs : Sound (run devs (boot disk) ops).cache := run_sound devs sound_init ops
  refine ⟨hs.coherent, fun hops dev lba count hw buf hcount h0 => ?_⟩
  have ht := run_transparent devs sound_init (transparent_init disk) hops
  exact (read_spec devs hw hs dev lba count buf).data ht h0 hcount (by omega)
    (fun k hk => absurd hk (Nat.not_lt_zero k))

/-- A RAM disk as device 0, and two contents for its sectors. -/
def ramdisk : StorageDevice := ⟨0, 32768, 512, true, none, false⟩
def zeros : Sector := Vector.replicate sectorSize 0
def ones : Sector := Vector.replicate sectorSize 1

/-- A write of sector 5, then one of sectors 4 and 5 that stores `stored` of them and
fails. -/
def writeTwice (stored : Nat) : List Op :=
  [.write 0 5 1 (fun _ => zeros) .ok,
    .write 0 4 2 (fun _ => ones) (.fail ⟨-1, by decide⟩ stored)]

/-- Only sector 4 is stored, and it was not cached. -/
theorem benignRun_writeTwice : BenignRun [ramdisk] (boot fun _ _ => zeros) (writeTwice 1) := by
  refine ⟨trivial, fun j hj d hd => ?_, trivial⟩
  obtain rfl : j = 0 := Nat.lt_one_iff.mp (Nat.lt_of_lt_of_le hj (Nat.min_le_left 1 _))
  have hins := insert_spec coherent_init rfl 0 5 zeros
  exact absurd (hins.caches_other 0 4 d (.inr (by decide)) hd) (caches_init 0 4 d)

theorem reads_transparent_writeTwice :
    BenignRun [ramdisk] (boot fun _ _ => zeros) (writeTwice 1) ∧
    (storageReadSectors [ramdisk] (fun _ _ => 0) (run [ramdisk] (boot fun _ _ => zeros) (writeTwice 1)).disk
      (run [ramdisk] (boot fun _ _ => zeros) (writeTwice 1)).cache 0 4 2 fun _ => zeros).2.1 0 =
      (run [ramdisk] (boot fun _ _ => zeros) (writeTwice 1)).disk 0 (4 + UInt64.ofNat 0) :=
  ⟨benignRun_writeTwice, (reads_transparent [ramdisk] (fun _ _ => zeros) (writeTwice 1)).2
    benignRun_writeTwice 0 4 2 (fun _ _ => 0) (fun _ => zeros) (by decide) (by decide +kernel) 0
    (by decide)⟩

/-! ### Failed writes that do harm -/

/-- Sector 5 is written with zeros, and the write is cached; a second write of
sectors 4 and 5 stores them and then fails. The read that follows returns the zeros. -/
theorem failed_write_served_stale :
    (storageReadSectors [ramdisk] (fun _ _ => 0)
      (run [ramdisk] (boot fun _ _ => zeros) (writeTwice 2)).disk
      (run [ramdisk] (boot fun _ _ => zeros) (writeTwice 2)).cache 0 5 1 fun _ => ones).1 = 0 ∧
    (storageReadSectors [ramdisk] (fun _ _ => 0)
      (run [ramdisk] (boot fun _ _ => zeros) (writeTwice 2)).disk
      (run [ramdisk] (boot fun _ _ => zeros) (writeTwice 2)).cache 0 5 1 fun _ => ones).2.1 0 = zeros ∧
    (run [ramdisk] (boot fun _ _ => zeros) (writeTwice 2)).disk 0 5 = ones ∧ zeros ≠ ones := by
  refine ⟨by decide +kernel, rfl, rfl, fun h => ?_⟩
  simpa [zeros, ones] using congrArg (fun d : Sector => d[0]) h

end InDevOS.Storage
