import InDevOS.Fat32.WriteBack

/-! The FAT cache against a plain table of entries.

A store that succeeds changes one entry of the table the cache shows, a load that
succeeds returns the table's entry, and nothing else changes it (`fatStep_shows`). So over
any run the loads return what the stores before them left (`fat_cache_refines`), whatever
device calls fail, provided the entries accessed lie in their slots and the FAT copies
lie apart. On a volume whose sectors are larger than a slot entries lie behind their slots, in
the slots that follow (`fat_cache_large_sectors`). -/
namespace InDevOS.Fat32
open Lib Function

/-! ### Entries of the table -/

namespace Volume

/-- The entry of a cluster in a table of FAT sectors. -/
def entry (v : Volume) (table : Nat → Bytes) (cluster : UInt32) : UInt32 :=
  UInt32.ofNat ((table (v.sectorOf cluster).toNat).get32 (v.offsetOf cluster))

def setEntry (v : Volume) (table : Nat → Bytes) (cluster value : UInt32) : Nat → Bytes :=
  Function.update table (v.sectorOf cluster).toNat
    ((table (v.sectorOf cluster).toNat).put32 (v.offsetOf cluster) value.toNat)

/-- The clusters the FAT has an entry for. -/
def HasEntry (v : Volume) (cluster : UInt32) : Prop := cluster.toNat < v.maxEntries

variable {v : Volume} {cluster cluster' : UInt32}

theorem bps_pos (v : Volume) : 0 < v.bps := by
  unfold bps
  split_ifs with h
  · decide
  · exact Nat.pos_of_ne_zero fun h0 => h (UInt16.toNat_inj.1 h0)

section
variable (h : v.HasEntry cluster)
include h

theorem sector_lt : cluster.toNat * 4 / v.bps < v.fatSize32.toNat := by
  have : cluster.toNat < v.fatSize32.toNat * v.bps / 4 := h
  exact (Nat.div_lt_iff_lt_mul v.bps_pos).2 (by omega)

theorem sectorOf_toNat : (v.sectorOf cluster).toNat = cluster.toNat * 4 / v.bps :=
  UInt32.toNat_ofNat_of_lt' (lt_trans (sector_lt h) v.fatSize32.toNat_lt)

theorem sectorOf_lt : (v.sectorOf cluster).toNat < v.fatSize32.toNat := by
  rw [sectorOf_toNat h]
  exact sector_lt h

theorem offsetOf_apart (h' : v.HasEntry cluster') (hne : cluster' ≠ cluster)
    (hs : (v.sectorOf cluster').toNat = (v.sectorOf cluster).toNat) :
    v.offsetOf cluster' + 4 ≤ v.offsetOf cluster ∨ v.offsetOf cluster + 4 ≤ v.offsetOf cluster' := by
  rw [sectorOf_toNat h, sectorOf_toNat h'] at hs
  have hd := Nat.div_add_mod (cluster.toNat * 4) v.bps
  have hd' := Nat.div_add_mod (cluster'.toNat * 4) v.bps
  rw [hs] at hd'
  have hne' : cluster'.toNat ≠ cluster.toNat := fun h0 => hne (UInt32.toNat_inj.1 h0)
  unfold offsetOf
  omega

end

theorem entry_setEntry_self (table : Nat → Bytes) (value : UInt32) :
    v.entry (v.setEntry table cluster value) cluster = value := by
  rw [entry, setEntry, update_self, Bytes.get32_put32, Nat.mod_eq_of_lt value.toNat_lt,
    UInt32.ofNat_toNat]

theorem entry_setEntry_of_ne (h : v.HasEntry cluster) (h' : v.HasEntry cluster')
    (hne : cluster' ≠ cluster) (table : Nat → Bytes) (value : UInt32) :
    v.entry (v.setEntry table cluster value) cluster' = v.entry table cluster' := by
  unfold entry setEntry
  by_cases hs : (v.sectorOf cluster').toNat = (v.sectorOf cluster).toNat
  · rw [hs, update_self, Bytes.get32_put32_of_apart _ (offsetOf_apart h h' hne hs)]
  · rw [update_of_ne hs]

end Volume

/-! ### One call -/

/-- The entry the call accesses lies in a slot. -/
def FatEvent.InSlot (v : Volume) : FatEvent → Prop
  | .load cluster => v.offsetOf cluster + 4 ≤ 512
  | .store cluster _ => v.offsetOf cluster + 4 ≤ 512
  | .flush _ => True
  | .sync _ _ => True

instance (v : Volume) : DecidablePred (FatEvent.InSlot v)
  | .load cluster => inferInstanceAs (Decidable (v.offsetOf cluster + 4 ≤ 512))
  | .store cluster _ => inferInstanceAs (Decidable (v.offsetOf cluster + 4 ≤ 512))
  | .flush _ => inferInstanceAs (Decidable True)
  | .sync _ _ => inferInstanceAs (Decidable True)

/-- The table after a call: changed by the stores that succeed. -/
def tableAfter (v : Volume) (table : Nat → Bytes) : FatEvent → Result → Nat → Bytes
  | .store cluster value, .done => v.setEntry table cluster value
  | _, _ => table

/-- The sectors stored to, after a call. -/
def storedAfter (v : Volume) (stored : Nat → Prop) : FatEvent → Result → Nat → Prop
  | .store cluster _, .done => fun s => s = (v.sectorOf cluster).toNat ∨ stored s
  | _, _ => stored

section
variable {env : Answers} {v : Volume} {c c' : FatCache} {stored : Nat → Prop}
  {table : Nat → Bytes} {r : Result}

theorem fat32FatLoad_shows (hv : v.Placed) (h : Shows v c stored table) {cluster : UInt32}
    (hr : fat32FatLoad env v c cluster = some (r, c')) :
    Shows v c' stored table ∧
    ∀ raw, r = .value raw → v.HasEntry cluster ∧ raw = v.entry table cluster := by
  unfold fat32FatLoad at hr
  by_cases hrange : cluster < 2 ∨ v.maxEntries ≤ cluster.toNat
  · rw [if_pos hrange] at hr
    cases hr
    exact ⟨h, fun raw hraw => nomatch hraw⟩
  · have hentry : v.HasEntry cluster := Nat.lt_of_not_le fun hle => hrange (.inr hle)
    rw [if_neg hrange] at hr
    obtain ⟨hshows, hslot⟩ := fat32FatSlot_spec env hv h (v.sectorOf_lt hentry)
    revert hshows hslot hr
    cases fat32FatSlot env v c (v.sectorOf cluster) with
    | mk found c₁ =>
      intro hr hshows hslot
      cases found with
      | none =>
        cases hr
        exact ⟨hshows, fun raw hraw => nomatch hraw⟩
      | some i =>
        split_ifs at hr
        cases hr
        obtain ⟨hi, hsec⟩ := hslot i rfl
        have hdata := hshows.slot i hi (hsec ▸ toNat_lt_noSector v (v.sectorOf_lt hentry))
        rw [hsec] at hdata
        refine ⟨hshows, fun raw hraw => ⟨hentry, ?_⟩⟩
        cases hraw
        rw [Volume.entry, ← hdata]

theorem Shows.storeSlot (h : Shows v c stored table) {i : Nat} (hi : i < fat32FatCacheSlots)
    {s : Slot} (hsec : s.sector = (c.slots i).sector) (hne : (c.slots i).sector ≠ noSector)
    (hd : s.dirty = true) :
    Shows v (c.setSlot i s) (fun t => t = s.sector.toNat ∨ stored t)
      (update table s.sector.toNat s.data) := by
  have hslot (j : Nat) : (c.setSlot i s).slots j = if j = i then s else c.slots j := by
    by_cases hj : j = i
    · simp [FatCache.setSlot, hj]
    · simp [FatCache.setSlot, hj]
  have hsector (j : Nat) : ((c.setSlot i s).slots j).sector = (c.slots j).sector := by
    rw [hslot]
    split_ifs with hj
    · rw [hsec, hj]
    · rfl
  refine ⟨h.hand, fun j hj hnj => ?_, fun j hj k hk hnj heq => ?_, fun j hj hdj => ?_,
    fun j hj hnj => ?_, fun t ht hc f hf hst => ?_⟩
  · rw [hsector] at hnj ⊢
    exact h.inFat j hj hnj
  · rw [hsector] at hnj heq
    rw [hsector] at heq
    exact h.single j hj k hk hnj heq
  · rw [hsector]
    rw [hslot] at hdj
    split_ifs at hdj with hji
    · rwa [hji]
    · exact h.used j hj hdj
  · rw [hsector] at hnj ⊢
    rw [hslot]
    split_ifs with hji
    · rw [hji, ← hsec, update_self]
    · have hother : (c.slots j).sector.toNat ≠ s.sector.toNat := by
        intro heq
        rw [hsec] at heq
        exact hji (h.single j hj i hi hnj (UInt32.toNat_inj.1 heq))
      rw [update_of_ne hother]
      exact h.slot j hj hnj
  · -- the sector stored to has a dirty slot, so a clean one is another
    have hts : t ≠ s.sector.toNat := by
      rintro rfl
      refine hc i hi ?_ ?_
      · rw [hslot, if_pos rfl, hd]
      · rw [hslot, if_pos rfl]
    rw [update_of_ne hts]
    refine h.disk t ht (fun j hj hdj hjt => hc j hj ?_ ?_) f hf (by simpa [hts] using hst)
    · rw [hslot]
      split_ifs
      · exact hd
      · exact hdj
    · rw [hsector]
      exact hjt

/-- The dirty range and the FSInfo flag are not part of what the cache shows. -/
theorem Shows.congr {c' : FatCache} (h : Shows v c stored table) (hslots : c'.slots = c.slots)
    (hhand : c'.slotHand = c.slotHand) (hdev : c'.dev = c.dev) : Shows v c' stored table :=
  h.writesBack (.of_eq hslots (hhand ▸ h.hand) fun _ _ _ => by rw [hdev])

theorem fat32FatStore_shows (hv : v.Placed) (h : Shows v c stored table) {cluster value : UInt32}
    (hr : fat32FatStore env v c cluster value = some (r, c')) :
    Shows v c' (storedAfter v stored (.store cluster value) r)
      (tableAfter v table (.store cluster value) r) ∧
    (r = .done → v.HasEntry cluster) := by
  unfold fat32FatStore at hr
  by_cases hrange : cluster < 2 ∨ v.optical ∨ v.maxEntries ≤ cluster.toNat
  · rw [if_pos hrange] at hr
    cases hr
    exact ⟨h, fun hdone => nomatch hdone⟩
  · have hentry : v.HasEntry cluster := Nat.lt_of_not_le fun hle => hrange (.inr (.inr hle))
    rw [if_neg hrange] at hr
    obtain ⟨hshows, hslot⟩ := fat32FatSlot_spec env hv h (v.sectorOf_lt hentry)
    revert hshows hslot hr
    cases fat32FatSlot env v c (v.sectorOf cluster) with
    | mk found c₁ =>
      intro hr hshows hslot
      cases found with
      | none =>
        cases hr
        exact ⟨hshows, fun hdone => nomatch hdone⟩
      | some i =>
        split_ifs at hr
        cases hr
        obtain ⟨hi, hsec⟩ := hslot i rfl
        have hne : (c₁.slots i).sector ≠ noSector :=
          hsec ▸ toNat_lt_noSector v (v.sectorOf_lt hentry)
        have hdata := hshows.slot i hi hne
        have hput := hshows.storeSlot hi
          (s := { c₁.slots i with
            data := (c₁.slots i).data.put32 (v.offsetOf cluster) value.toNat, dirty := true })
          rfl hne rfl
        refine ⟨?_, fun _ => hentry⟩
        show Shows v _ (fun s => s = (v.sectorOf cluster).toNat ∨ stored s)
          (v.setEntry table cluster value)
        rw [Volume.setEntry, ← hsec, ← hdata]
        unfold fat32MarkFatDirty
        split_ifs
        · exact hput.congr rfl rfl rfl
        · exact hput.congr rfl rfl rfl

/-- **One call.** The cache shows the table the call leaves, and a load that succeeds
returns the table's entry. -/
theorem fatStep_shows (hv : v.Placed) (h : Shows v c stored table) {e : FatEvent}
    (hr : fatStep env v c e = some (r, c')) :
    Shows v c' (storedAfter v stored e r) (tableAfter v table e r) ∧
    (∀ cluster raw, e = .load cluster → r = .value raw →
      v.HasEntry cluster ∧ raw = v.entry table cluster) ∧
    (∀ cluster value, e = .store cluster value → r = .done → v.HasEntry cluster) := by
  cases e with
  | load cluster =>
    obtain ⟨hshows, hvalue⟩ := fat32FatLoad_shows hv h hr
    refine ⟨hshows, fun cl raw hcl hraw => ?_, by rintro _ _ ⟨⟩⟩
    cases hcl
    exact hvalue raw hraw
  | store cluster value =>
    obtain ⟨hshows, hdone⟩ := fat32FatStore_shows hv h hr
    refine ⟨hshows, by rintro _ _ ⟨⟩, fun cl val hcl hd => ?_⟩
    cases hcl
    exact hdone hd
  | flush alloc =>
    cases hr
    exact ⟨h.writesBack (fat32FlushFat_spec env hv h alloc).1, by rintro _ _ ⟨⟩, by rintro _ _ ⟨⟩⟩
  | sync alloc allocCursor =>
    cases hr
    exact ⟨h.writesBack (fat32Sync_spec env hv h alloc allocCursor).1, by rintro _ _ ⟨⟩,
      by rintro _ _ ⟨⟩⟩

theorem fatStep_returns (env : Answers) (v : Volume) (c : FatCache) {e : FatEvent}
    (he : e.InSlot v) : ∃ r c', fatStep env v c e = some (r, c') := by
  cases e with
  | load cluster =>
    have hin : v.offsetOf cluster + 4 ≤ 512 := he
    show ∃ r c', fat32FatLoad env v c cluster = some (r, c')
    unfold fat32FatLoad
    split_ifs
    · exact ⟨_, _, rfl⟩
    · rcases fat32FatSlot env v c (v.sectorOf cluster) with ⟨_ | i, c'⟩
      · exact ⟨_, _, rfl⟩
      · exact ⟨_, _, rfl⟩
  | store cluster value =>
    have hin : v.offsetOf cluster + 4 ≤ 512 := he
    show ∃ r c', fat32FatStore env v c cluster value = some (r, c')
    unfold fat32FatStore
    split_ifs
    · exact ⟨_, _, rfl⟩
    · rcases fat32FatSlot env v c (v.sectorOf cluster) with ⟨_ | i, c'⟩
      · exact ⟨_, _, rfl⟩
      · exact ⟨_, _, rfl⟩
  | flush | sync => exact ⟨_, _, rfl⟩

theorem shows_mounted (v : Volume) (dev : Device) :
    Shows v (.mounted dev) (fun _ => False) fun s => dev.sectors (v.place 0 s) where
  hand := show 0 < fat32FatCacheSlots by decide
  inFat _ _ hne := absurd rfl hne
  single _ _ _ _ hne := absurd rfl hne
  used _ _ hd := nomatch hd
  slot _ _ hne := absurd rfl hne
  disk _ _ _ f _ hf := by
    rcases hf with rfl | hf
    · rfl
    · exact hf.elim

end

/-! ### Whole runs -/

/-- The FAT entries after a call that succeeded or not. -/
def entriesAfter (fat : UInt32 → UInt32) : FatEvent → Result → UInt32 → UInt32
  | .store cluster value, .done => Function.update fat cluster value
  | _, _ => fat

/-- Every load that succeeds returns what the last store that succeeded left, or what
`fat` has if there was none. -/
def ReadsLastStored (fat : UInt32 → UInt32) : List FatEvent → List Result → Prop
  | [], [] => True
  | e :: es, r :: rs =>
    (∀ cluster raw, e = .load cluster → r = .value raw → raw = fat cluster) ∧
    ReadsLastStored (entriesAfter fat e r) es rs
  | _, _ => False

/-- The entries as the device has them in FAT 0. -/
def Volume.onDisk (v : Volume) (dev : Device) (cluster : UInt32) : UInt32 :=
  UInt32.ofNat ((dev.sectors (v.fatLba 0 (v.sectorOf cluster)).toNat).get32 (v.offsetOf cluster))

section
variable {env : Answers} {v : Volume} {c : FatCache} {stored : Nat → Prop} {table : Nat → Bytes}
  {fat : UInt32 → UInt32}

theorem entry_tableAfter {e : FatEvent} {r : Result}
    (hfat : ∀ cluster, v.HasEntry cluster → v.entry table cluster = fat cluster)
    (hdone : ∀ cluster value, e = .store cluster value → r = .done → v.HasEntry cluster) :
    ∀ cluster, v.HasEntry cluster →
      v.entry (tableAfter v table e r) cluster = entriesAfter fat e r cluster := by
  intro cluster hcl
  cases e with
  | store target value =>
    cases r with
    | done =>
      show v.entry (v.setEntry table target value) cluster = update fat target value cluster
      by_cases heq : cluster = target
      · subst heq
        rw [Volume.entry_setEntry_self, update_self]
      · rw [Volume.entry_setEntry_of_ne (hdone target value rfl rfl) hcl heq,
          update_of_ne heq, hfat cluster hcl]
    | failed | value => exact hfat cluster hcl
  | load | flush | sync => exact hfat cluster hcl

theorem fatRun_reads (hv : v.Placed) : ∀ (es : List FatEvent) {c : FatCache}
    {stored : Nat → Prop} {table : Nat → Bytes} {fat : UInt32 → UInt32},
    Shows v c stored table → (∀ e ∈ es, FatEvent.InSlot v e) →
    (∀ cluster, v.HasEntry cluster → v.entry table cluster = fat cluster) →
    ∃ rs c', fatRun env v c es = some (rs, c') ∧ ReadsLastStored fat es rs := by
  intro es
  induction es with
  | nil => exact fun _ _ _ => ⟨_, _, rfl, trivial⟩
  | cons e es ih =>
    intro c stored table fat h hes hfat
    obtain ⟨r, c', hstep⟩ := fatStep_returns env v c (hes e List.mem_cons_self)
    obtain ⟨hshows, hload, hstore⟩ := fatStep_shows hv h hstep
    obtain ⟨rs, c'', hrun, hreads⟩ := ih hshows (fun e' he' => hes e' (List.mem_cons_of_mem _ he'))
      (entry_tableAfter hfat hstore)
    refine ⟨r :: rs, c'', ?_, fun cluster raw hcl hr => ?_, hreads⟩
    · rw [fatRun, hstep, Option.bind_some, hrun, Option.map_some]
    · obtain ⟨hentry, hraw⟩ := hload cluster raw hcl hr
      rw [hraw, hfat cluster hentry]

end

/-- **The FAT cache is a table.** In every sequence of loads, stores, flushes and syncs on a
mounted volume, with the evictions they cause and whatever device calls fail, the loads
that succeed return what the last successful store left, or what was on the disk. -/
theorem fat_cache_refines (env : Answers) (v : Volume) (dev : Device) (es : List FatEvent)
    (hv : v.Placed) (hes : ∀ e ∈ es, FatEvent.InSlot v e) :
    ∃ rs c, fatRun env v (.mounted dev) es = some (rs, c) ∧
      ReadsLastStored (v.onDisk dev) es rs := by
  refine fatRun_reads hv es (shows_mounted v dev) hes fun cluster hcl => ?_
  rw [Volume.onDisk, v.fatLba_toNat hv 0 _ v.copies_pos (v.sectorOf_lt hcl)]
  rfl

/-- A volume of 512-byte sectors: one reserved sector, two FATs of a sector each. -/
def tinyVolume : Volume where
  bytesPerSector := 512
  reservedSectorCount := 1
  numFats := 2
  fatSize32 := 1
  extFlags := 0
  fsInfo := 0
  fatStartSector := 1
  optical := false

def blankDevice : Device := ⟨fun _ _ => 0, 0⟩

theorem fat_cache_refines_tiny :
    tinyVolume.Placed ∧
    ∃ rs c, fatRun (fun n => if n = 1 then .fail fun _ _ => 0xFF else .ok) tinyVolume
        (.mounted blankDevice) [.store 2 7, .flush true, .load 2] = some (rs, c) ∧
      ReadsLastStored (tinyVolume.onDisk blankDevice) [.store 2 7, .flush true, .load 2] rs :=
  ⟨by decide, fat_cache_refines _ tinyVolume blankDevice _ (by decide) (by decide)⟩

/-! ### Behind a slot -/

/-- `sizeof(fat32_fat_slot_t)`: the sector, the flag, the data and three bytes of padding. -/
def slotSize : Nat := 520

/-- Byte `k` of the array of slots. In a slot, `data 512` to `data 514` are its padding. -/
def FatCache.byte (c : FatCache) (k : Nat) : UInt8 :=
  let s := c.slots (k / slotSize)
  let off := k % slotSize
  if off < 4 then UInt8.ofNat (s.sector.toNat / 256 ^ off)
  else if off = 4 then (if s.dirty then 1 else 0)
  else s.data (off - 5)

def FatCache.setByte (c : FatCache) (k : Nat) (b : UInt8) : FatCache :=
  let s := c.slots (k / slotSize)
  let off := k % slotSize
  c.setSlot (k / slotSize)
    (if off < 4 then
      { s with sector := UInt32.ofNat (s.sector.toNat - (c.byte k).toNat * 256 ^ off + b.toNat * 256 ^ off) }
    else if off = 4 then { s with dirty := b != 0 }
    else { s with data := update s.data (off - 5) b })

def FatCache.word (c : FatCache) (k : Nat) : UInt32 := UInt32.ofNat (Bytes.get32 c.byte k)

def FatCache.setWord (c : FatCache) (k : Nat) (value : UInt32) : FatCache :=
  (List.range 4).foldl (fun c j => c.setByte (k + j) (UInt8.ofNat (value.toNat / 256 ^ j))) c

section
variable (env : Answers) (v : Volume) (c : FatCache)

/-- A load or store of an entry that does not lie in its slot `i`, as far as the array goes. -/
def accessBehind (cluster : UInt32) (access : FatCache → (i k : Nat) → Result × FatCache) :
    Option (Result × FatCache) :=
  match fat32FatSlot env v c (v.sectorOf cluster) with
  | (none, c) => some (.failed, c)
  | (some i, c) =>
    let k := i * slotSize + 5 + v.offsetOf cluster
    if k + 4 ≤ fat32FatCacheSlots * slotSize then some (access c i k) else none

/-- A call, with what it finds or changes behind a slot. -/
def fatStepBehind (e : FatEvent) : Option (Result × FatCache) :=
  match fatStep env v c e, e with
  | some r, _ => some r
  | none, .load cluster => accessBehind env v c cluster fun c _ k => (.value (c.word k), c)
  | none, .store cluster value => accessBehind env v c cluster fun c i k =>
      let c := c.setWord k value
      (.done, fat32MarkFatDirty v { c.setSlot i { c.slots i with dirty := true } with metaChanged := true } cluster)
  | none, _ => none

def fatRunBehind : FatCache → List FatEvent → Option (List Result)
  | _, [] => some []
  | c, e :: es => (fatStepBehind env v c e).bind fun r => (fatRunBehind r.2 es).map (r.1 :: ·)

end

/-- The tiny volume formatted with sectors of 4096 bytes, which `fat32_mount` accepts. -/
def largeSectors : Volume := { tinyVolume with bytesPerSector := 4096, fatSize32 := 2 }

/-- The entry of cluster 128 lies 512 bytes into its sector, in the padding of its slot and the
first byte of the next one. Filling that one changes the entry. -/
theorem fat_cache_large_sectors : largeSectors.Placed ∧
    fatRunBehind (fun _ => .ok) largeSectors (.mounted blankDevice) [.store 128 7, .load 1024, .load 128] =
      some [.done, .value 0, .value 0x01000007] ∧
    ¬ ReadsLastStored (largeSectors.onDisk blankDevice) [.store 128 7, .load 1024, .load 128]
      [.done, .value 0, .value 0x01000007] := by
  refine ⟨by decide, by decide +kernel, fun h => ?_⟩
  have h128 := h.2.2.1 128 _ rfl rfl
  revert h128
  decide

end InDevOS.Fat32
