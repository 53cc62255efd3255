import InDevOS.Fat32.FatCache

/-! The layout of a FAT32 volume: what `fat32_mount` takes from a boot sector, and what
`fat32_format` writes into one.

Mounting checks the boot signature and nothing else. `fat_entries_inside_iff` says for
which boot sectors the entries of the FAT nevertheless lie in the 512 bytes of a cache
slot and in the FAT: not with sectors of more than 512 bytes, and not when the FAT reaches
past sector 2³². What the formatter writes is always in order (`format_layout_sound`). -/
namespace InDevOS.Fat32

/-! ### Mounting -/

/-- `fat32_boot_sector_t`, the fields the driver looks at. -/
structure BootSector where
  bytesPerSector : UInt16
  sectorsPerCluster : UInt8
  reservedSectorCount : UInt16
  numFats : UInt8
  totalSectors16 : UInt16
  totalSectors32 : UInt32
  fatSize32 : UInt32
  extFlags : UInt16
  rootCluster : UInt32
  fsInfo : UInt16
  bootSignature : UInt8
deriving DecidableEq

/-- `fat32_fs_t`: the boot sector and where it was read. -/
structure Layout where
  boot : BootSector
  partitionLba : UInt32
  optical : Bool
deriving DecidableEq

/-- What the FAT cache sees of a mounted volume. -/
def Layout.volume (l : Layout) : Volume where
  bytesPerSector := l.boot.bytesPerSector
  reservedSectorCount := l.boot.reservedSectorCount
  numFats := l.boot.numFats
  fatSize32 := l.boot.fatSize32
  extFlags := l.boot.extFlags
  fsInfo := l.boot.fsInfo
  fatStartSector := l.boot.reservedSectorCount.toUInt32 + l.partitionLba
  optical := l.optical

def Layout.dataStartSector (l : Layout) : UInt32 :=
  l.boot.reservedSectorCount.toUInt32 + l.boot.numFats.toUInt32 * l.boot.fatSize32 + l.partitionLba

def fat32Signature : UInt8 := 0x29

/-- `fat32_mount`, given the boot sector of the partition that starts at `partitionLba`. -/
def fat32Mount (boot : BootSector) (partitionLba : UInt32) (optical : Bool) : Option Layout :=
  if boot.bootSignature ≠ fat32Signature then none else some ⟨boot, partitionLba, optical⟩

/-! ### Where the entries of the FAT lie -/

namespace Volume
variable {v : Volume} {start : Nat}

/-- The clusters whose entry a load or a store looks up. -/
def LooksUp (v : Volume) (cluster : UInt32) : Prop := 2 ≤ cluster ∧ v.HasEntry cluster

/-- The copies of the FAT that are accessed: the first is read, and unless the medium is optical
the first few are written. -/
def accessed (v : Volume) : Nat := if v.optical then 1 else v.copies

/-- The entries looked up lie in their slots, and their sectors in each copy of the FAT, the first
of which starts at sector `start`. -/
structure Inside (v : Volume) (start : Nat) : Prop where
  slot : ∀ cluster, v.LooksUp cluster → v.offsetOf cluster + 4 ≤ 512
  region : ∀ cluster, v.LooksUp cluster → ∀ fat < v.accessed,
    start + fat * v.fatSize32.toNat ≤ (v.fatLba fat (v.sectorOf cluster)).toNat ∧
      (v.fatLba fat (v.sectorOf cluster)).toNat < start + fat * v.fatSize32.toNat + v.fatSize32.toNat

/-- One more than the last cluster looked up. -/
def lookupEnd (v : Volume) : Nat := min v.maxEntries (2 ^ 32)

/-- Sectors that fit a slot, or so few entries that none lies behind its end; and no entry of the
last copy behind sector 2³². -/
structure Addressable (v : Volume) (start : Nat) : Prop where
  slot : v.bps ≤ 512 ∧ v.bps ≠ 511 ∨ v.lookupEnd ≤ if v.bps = 511 then 255 else 128
  region : v.lookupEnd ≤ 2 ∨
    start + (v.accessed - 1) * v.fatSize32.toNat + (v.lookupEnd - 1) * 4 / v.bps < 2 ^ 32

instance (v : Volume) (start : Nat) : Decidable (v.Addressable start) :=
  decidable_of_iff _ ⟨fun h => Addressable.mk h.1 h.2, fun h => And.intro h.slot h.region⟩

theorem looksUp_ofNat {n : Nat} (h2 : 2 ≤ n) (hn : n < v.lookupEnd) :
    v.LooksUp (UInt32.ofNat n) ∧ (UInt32.ofNat n).toNat = n := by
  have hto : (UInt32.ofNat n).toNat = n := UInt32.toNat_ofNat_of_lt' (lt_min_iff.mp hn).2
  refine ⟨⟨UInt32.le_iff_toNat_le.mpr ?_, ?_⟩, hto⟩
  · rw [hto]
    exact h2
  · unfold HasEntry
    rw [hto]
    exact (lt_min_iff.mp hn).1

theorem LooksUp.lt_lookupEnd {cluster : UInt32} (h : v.LooksUp cluster) :
    cluster.toNat < v.lookupEnd :=
  lt_min h.2 cluster.toNat_lt

/-- The offsets of the entries looked up. With sectors of 511 bytes the first entry that
crosses the end of its slot is that of cluster 255, with larger sectors that of cluster
128. -/
theorem offsets_iff : (∀ cluster, v.LooksUp cluster → v.offsetOf cluster + 4 ≤ 512) ↔
    (v.bps ≤ 512 ∧ v.bps ≠ 511 ∨ v.lookupEnd ≤ if v.bps = 511 then 255 else 128) := by
  constructor
  · intro h
    by_contra hbad
    rw [not_or, not_le] at hbad
    obtain ⟨hbps, hend⟩ := hbad
    split_ifs at hend with h511
    · obtain ⟨hup, hto⟩ := looksUp_ofNat (by omega) hend
      have := h _ hup
      rw [offsetOf, hto, h511] at this
      omega
    · obtain ⟨hup, hto⟩ := looksUp_ofNat (by omega) hend
      have := h _ hup
      rw [offsetOf, hto, Nat.mod_eq_of_lt (by omega)] at this
      omega
  · intro h cluster hup
    have hlt := hup.lt_lookupEnd
    have hmod := Nat.mod_lt (cluster.toNat * 4) v.bps_pos
    unfold offsetOf
    rcases h with ⟨hle, hne⟩ | hend
    · -- offsets are multiples of 4 for 512-byte sectors, even for 510-byte sectors
      rcases (by omega : v.bps ≤ 509 ∨ v.bps = 510 ∨ v.bps = 512) with hb | hb | hb
      · omega
      · rw [hb]
        omega
      · rw [hb]
        omega
    · split_ifs at hend with h511
      · rw [h511]
        rcases Nat.lt_or_ge (cluster.toNat * 4) 511 with hc | hc
        · rw [Nat.mod_eq_of_lt hc]
          omega
        · rw [Nat.mod_eq_sub_mod hc, Nat.mod_eq_of_lt (by omega)]
          omega
      · have := Nat.mod_le (cluster.toNat * 4) v.bps
        omega

theorem accessed_bounds (v : Volume) : 0 < v.accessed ∧ v.accessed ≤ 4 := by
  unfold accessed copies
  split_ifs with hopt hcopies
  · exact ⟨Nat.one_pos, by omega⟩
  · exact ⟨lt_min (Nat.zero_lt_of_lt (UInt8.lt_iff_toNat_lt.mp hcopies.1)) (by omega), min_le_right _ _⟩
  · exact ⟨Nat.one_pos, by omega⟩

theorem fatLba_mod (hstart : v.fatStartSector.toNat = start % 2 ^ 32) {fat : Nat} (hfat : fat < v.accessed)
    {cluster : UInt32} (hup : v.LooksUp cluster) : (v.fatLba fat (v.sectorOf cluster)).toNat =
      (start + fat * v.fatSize32.toNat + cluster.toNat * 4 / v.bps) % 2 ^ 32 := by
  have := v.accessed_bounds.2
  rw [fatLba, UInt32.toNat_add, UInt32.toNat_add, UInt32.toNat_mul, sectorOf_toNat hup.2, hstart,
    UInt32.toNat_ofNat_of_lt' (show fat < 2 ^ 32 by omega)]
  omega

theorem region_iff (hstart : v.fatStartSector.toNat = start % 2 ^ 32) :
    (∀ cluster, v.LooksUp cluster → ∀ fat < v.accessed,
      start + fat * v.fatSize32.toNat ≤ (v.fatLba fat (v.sectorOf cluster)).toNat ∧
        (v.fatLba fat (v.sectorOf cluster)).toNat < start + fat * v.fatSize32.toNat + v.fatSize32.toNat) ↔
    (v.lookupEnd ≤ 2 ∨
      start + (v.accessed - 1) * v.fatSize32.toNat + (v.lookupEnd - 1) * 4 / v.bps < 2 ^ 32) := by
  have hcopies := v.accessed_bounds.1
  constructor
  · intro h
    refine or_iff_not_imp_left.mpr fun hend => ?_
    obtain ⟨hup, hto⟩ := looksUp_ofNat (v := v) (n := v.lookupEnd - 1) (by omega) (by omega)
    obtain ⟨hlo, -⟩ := h _ hup (v.accessed - 1) (by omega)
    have hsec := sector_lt hup.2
    have := v.fatSize32.toNat_lt
    rw [fatLba_mod hstart (by omega) hup, hto] at hlo
    rw [hto] at hsec
    -- a sector number that wraps lies below the start
    by_contra hwrap
    omega
  · intro h cluster hup fat hfat
    have hlt := hup.lt_lookupEnd
    have h2 : 2 ≤ cluster.toNat := UInt32.le_iff_toNat_le.mp hup.1
    have hsec := sector_lt hup.2
    have hmono : cluster.toNat * 4 / v.bps ≤ (v.lookupEnd - 1) * 4 / v.bps :=
      Nat.div_le_div_right (by omega)
    have hlast : fat * v.fatSize32.toNat ≤ (v.accessed - 1) * v.fatSize32.toNat :=
      Nat.mul_le_mul_right _ (by omega)
    rw [fatLba_mod hstart hfat hup]
    generalize cluster.toNat * 4 / v.bps = sector at *
    omega

theorem inside_iff (hstart : v.fatStartSector.toNat = start % 2 ^ 32) :
    v.Inside start ↔ v.Addressable start :=
  ⟨fun h => ⟨offsets_iff.mp h.slot, (region_iff hstart).mp h.region⟩,
    fun h => ⟨offsets_iff.mpr h.slot, (region_iff hstart).mpr h.region⟩⟩

end Volume

/-- **The entries of a mounted FAT** lie in their slots and in every copy of the FAT exactly if
the volume is addressable. -/
theorem fat_entries_inside_iff (boot : BootSector) (partitionLba : UInt32) (optical : Bool) :
    (∀ l ∈ fat32Mount boot partitionLba optical,
      l.volume.Inside (boot.reservedSectorCount.toNat + partitionLba.toNat)) ↔
    ∀ l ∈ fat32Mount boot partitionLba optical,
      l.volume.Addressable (boot.reservedSectorCount.toNat + partitionLba.toNat) := by
  refine forall₂_congr fun l hl => Volume.inside_iff ?_
  unfold fat32Mount at hl
  split_ifs at hl with hsig
  · cases hl
  · cases hl
    show (boot.reservedSectorCount.toUInt32 + partitionLba).toNat = _
    rw [UInt32.toNat_add, UInt16.toNat_toUInt32]

/-- A boot sector with sectors of 4096 bytes, otherwise as usual. -/
def largeSectorBoot : BootSector where
  bytesPerSector := 4096
  sectorsPerCluster := 1
  reservedSectorCount := 32
  numFats := 2
  totalSectors16 := 0
  totalSectors32 := 100000
  fatSize32 := 100
  extFlags := 0
  rootCluster := 2
  fsInfo := 1
  bootSignature := 0x29

/-- It is mounted, and the entry of cluster 128 lies 512 bytes into its sector. -/
theorem large_sectors_outside :
    ∃ l ∈ fat32Mount largeSectorBoot 2048 false,
      fatStep (fun _ => .ok) l.volume (.mounted blankDevice) (.store 128 7) = none :=
  ⟨_, rfl, rfl⟩

/-! ### The clusters of a volume -/

namespace Layout
variable (l : Layout)

/-- The sectors of the volume, the sectors before its clusters, and the sectors of a cluster
as the allocator takes them. -/
def tot : Nat :=
  if l.boot.totalSectors32 ≠ 0 then l.boot.totalSectors32.toNat else l.boot.totalSectors16.toNat
def metaSectors : Nat :=
  l.boot.reservedSectorCount.toNat + l.boot.numFats.toNat * l.boot.fatSize32.toNat
def spc : Nat := if l.boot.sectorsPerCluster ≠ 0 then l.boot.sectorsPerCluster.toNat else 1

def dataClusters : Nat := (l.tot - l.metaSectors) / l.spc

/-- The cluster numbers that `fat32_allocate_cluster` searches end here. -/
def totalClusters : Nat :=
  let total := l.volume.maxEntries % 2 ^ 32
  if l.metaSectors < l.tot then min total (l.dataClusters + 2) else total

def clusterToSector (cluster : Nat) : Nat :=
  if cluster < 2 then 0
  else (l.dataStartSector.toNat + (cluster - 2) * l.boot.sectorsPerCluster.toNat) % 2 ^ 32

variable {l}

theorem totalClusters_le (h : l.metaSectors < l.tot) : l.totalClusters ≤ l.dataClusters + 2 := by
  unfold totalClusters
  rw [if_pos h]
  exact min_le_right _ _

/-- The clusters that are searched lie in the volume, wherever it starts. -/
theorem cluster_inside {c : Nat} (h : l.metaSectors < l.tot) (hspc : l.boot.sectorsPerCluster ≠ 0)
    (h2 : 2 ≤ c) (hc : c < l.totalClusters) :
    ∃ k, k + l.boot.sectorsPerCluster.toNat ≤ l.tot ∧
      l.clusterToSector c = (l.partitionLba.toNat + k) % 2 ^ 32 := by
  have hle := totalClusters_le h
  have hend : (c - 2 + 1) * l.spc ≤ l.tot - l.metaSectors :=
    Nat.mul_le_of_le_div _ _ _ (show c - 2 + 1 ≤ l.dataClusters by omega)
  rw [spc, if_pos hspc, Nat.add_mul, Nat.one_mul] at hend
  have hdata : l.dataStartSector.toNat = (l.metaSectors + l.partitionLba.toNat) % 2 ^ 32 := by
    unfold dataStartSector metaSectors
    rw [UInt32.toNat_add, UInt32.toNat_add, UInt32.toNat_mul, UInt16.toNat_toUInt32,
      UInt8.toNat_toUInt32]
    omega
  refine ⟨l.metaSectors + (c - 2) * l.boot.sectorsPerCluster.toNat, by omega, ?_⟩
  unfold clusterToSector
  rw [if_neg (by omega), hdata]
  omega

end Layout

/-! ### Formatting -/

/-- Half the cluster size while there would be fewer than 70000 clusters. -/
def halveClusters (partitionSize : UInt32) : (fuel : Nat) → UInt32 → UInt32
  | 0, spc => spc
  | fuel + 1, spc =>
    if 1 < spc ∧ partitionSize / spc < 70000 then halveClusters partitionSize fuel (spc / 2) else spc

/-- The cluster size tried first. -/
def startClusters (partitionSize : UInt32) : UInt32 := halveClusters partitionSize 3 8

def fatSizeSectors (partitionSize spc : UInt32) : UInt32 := (partitionSize / spc * 4 + 511) / 512

def clustersLeft (partitionSize spc : UInt32) : UInt32 :=
  let fat := fatSizeSectors partitionSize spc
  if 32 + 2 * fat < partitionSize then (partitionSize - 32 - 2 * fat) / spc else partitionSize / spc

/-- Double the cluster size while the FAT is larger than 32 MiB. -/
def growClusters (partitionSize : UInt32) : (fuel : Nat) → UInt32 → UInt32
  | 0, spc => spc
  | fuel + 1, spc =>
    if fatSizeSectors partitionSize spc ≤ 65536 ∨ 128 ≤ spc then spc
    else growClusters partitionSize fuel (spc * 2)

/-- `fat32_format`, the number of clusters and the boot sector. -/
def fat32Format (partitionSize : UInt32) : Option (UInt32 × BootSector) :=
  if partitionSize < 64 then none
  else
    let spc := growClusters partitionSize 7 (startClusters partitionSize)
    let fat := fatSizeSectors partitionSize spc
    let clusters := clustersLeft partitionSize spc
    if 65536 < fat ∨ clusters < 16 then none
    else if clusters < 65525 then none
    else some (clusters,
      { bytesPerSector := 512
        sectorsPerCluster := spc.toUInt8
        reservedSectorCount := 32
        numFats := 2
        totalSectors16 := 0
        totalSectors32 := partitionSize
        fatSize32 := fat
        extFlags := 0
        rootCluster := 2
        fsInfo := 1
        bootSignature := 0x29 })

/-- What a boot sector with `clusters` clusters owes a partition of `partitionSize` sectors. -/
structure SoundLayout (partitionSize clusters : UInt32) (boot : BootSector) : Prop where
  fits : boot.reservedSectorCount.toNat + boot.numFats.toNat * boot.fatSize32.toNat +
    clusters.toNat * boot.sectorsPerCluster.toNat ≤ partitionSize.toNat
  entries : clusters.toNat + 2 ≤ boot.fatSize32.toNat * boot.bytesPerSector.toNat / 4
  isFat32 : 65525 ≤ clusters.toNat
  /-- No cluster size tried makes an intermediate value overflow. -/
  noOverflow : ∀ spc, (startClusters partitionSize).toNat ≤ spc →
    partitionSize.toNat / spc * 4 + 511 < 2 ^ 32 ∧
      32 + 2 * ((partitionSize.toNat / spc * 4 + 511) / 512) < 2 ^ 32
  /-- The clusters the allocator searches lie in the partition, if its sectors have 32-bit numbers. -/
  inPartition : ∀ start optical, start.toNat + partitionSize.toNat ≤ 2 ^ 32 →
    ∀ l ∈ fat32Mount boot start optical, ∀ c, 2 ≤ c → c < l.totalClusters →
      start.toNat ≤ l.clusterToSector c ∧
        l.clusterToSector c + boot.sectorsPerCluster.toNat ≤ start.toNat + partitionSize.toNat

/-- The cluster sizes a format can try: powers of two up to 128 that leave less than 2²⁹
clusters. -/
def Tried (p spc : UInt32) : Prop :=
  spc.toNat ∈ [1, 2, 4, 8, 16, 32, 64, 128] ∧ p.toNat / spc.toNat < 2 ^ 29

section Tried
variable {p spc : UInt32}

theorem Tried.half (h : Tried p spc) (hspc : 1 < spc) (hp : p / spc < 70000) : Tried p (spc / 2) := by
  obtain ⟨hmem, -⟩ := h
  have hspc' : 1 < spc.toNat := hspc
  have hp' : p.toNat / spc.toNat < 70000 := hp
  have hhalf : (spc / 2).toNat = spc.toNat / 2 := UInt32.toNat_div spc 2
  simp only [Tried, hhalf, List.mem_cons, List.not_mem_nil, or_false] at hmem ⊢
  rcases hmem with h | h | h | h | h | h | h | h <;> rw [h] at hspc' hp' ⊢ <;> omega

theorem Tried.double (h : Tried p spc) (hspc : ¬ 128 ≤ spc) : Tried p (spc * 2) := by
  obtain ⟨hmem, hp⟩ := h
  have hspc' : ¬ 128 ≤ spc.toNat := fun h => hspc (UInt32.le_iff_toNat_le.mpr h)
  have hdouble : (spc * 2).toNat = spc.toNat * 2 :=
    (UInt32.toNat_mul spc 2).trans (Nat.mod_eq_of_lt (show spc.toNat * 2 < 2 ^ 32 by omega))
  simp only [Tried, hdouble, List.mem_cons, List.not_mem_nil, or_false] at hmem ⊢
  rcases hmem with h | h | h | h | h | h | h | h <;> rw [h] at hspc' hp ⊢ <;> omega

theorem tried_start (p : UInt32) : Tried p (startClusters p) := by
  have hhalve : ∀ fuel spc, Tried p spc → Tried p (halveClusters p fuel spc) := by
    intro fuel
    induction fuel with
    | zero => exact fun _ h => h
    | succ fuel ih =>
      intro spc h
      unfold halveClusters
      split_ifs with hc
      · exact ih _ (h.half hc.1 hc.2)
      · exact h
  refine hhalve 3 8 ⟨by decide, ?_⟩
  have := p.toNat_lt
  show p.toNat / 8 < 2 ^ 29
  omega

theorem Tried.grow : ∀ (fuel : Nat) {spc : UInt32}, Tried p spc → Tried p (growClusters p fuel spc)
  | 0, _, h => h
  | fuel + 1, spc, h => by
    unfold growClusters
    split_ifs with hc
    · exact h
    · exact Tried.grow fuel (h.double fun h128 => hc (Or.inr h128))

theorem Tried.fat_toNat (h : Tried p spc) :
    (fatSizeSectors p spc).toNat = (p.toNat / spc.toNat * 4 + 511) / 512 := by
  have := h.2
  show ((p.toNat / spc.toNat * 4 % 2 ^ 32 + 511) % 2 ^ 32) / 512 = _
  rw [Nat.mod_eq_of_lt (a := _ * 4) (by omega), Nat.mod_eq_of_lt (by omega)]

theorem Tried.clusters_toNat (h : Tried p spc) (hmin : 65525 ≤ (clustersLeft p spc).toNat) :
    32 + 2 * (fatSizeSectors p spc).toNat < p.toNat ∧
    (clustersLeft p spc).toNat = (p.toNat - 32 - 2 * (fatSizeSectors p spc).toNat) / spc.toNat := by
  have hfat := h.fat_toNat
  obtain ⟨hmem, hp⟩ := h
  have hsum : (32 + 2 * fatSizeSectors p spc).toNat = 32 + 2 * (fatSizeSectors p spc).toNat := by
    show (32 + 2 * (fatSizeSectors p spc).toNat % 2 ^ 32) % 2 ^ 32 = _
    omega
  unfold clustersLeft at hmin ⊢
  dsimp only at hmin ⊢
  split_ifs at hmin ⊢ with hroom
  · rw [UInt32.lt_iff_toNat_lt, hsum] at hroom
    refine ⟨hroom, ?_⟩
    have hfirst : (p - 32).toNat = p.toNat - 32 :=
      UInt32.toNat_sub_of_le _ _ (UInt32.le_iff_toNat_le.mpr (show 32 ≤ p.toNat by omega))
    have htwice : (2 * fatSizeSectors p spc).toNat = 2 * (fatSizeSectors p spc).toNat :=
      (UInt32.toNat_mul _ _).trans (Nat.mod_eq_of_lt (show 2 * _ < 2 ^ 32 by omega))
    rw [UInt32.toNat_div, UInt32.toNat_sub_of_le _ _ (UInt32.le_iff_toNat_le.mpr (by omega)), hfirst,
      htwice]
  · exfalso
    rw [UInt32.lt_iff_toNat_lt, hsum] at hroom
    rw [UInt32.toNat_div] at hmin
    simp only [List.mem_cons, List.not_mem_nil, or_false] at hmem
    rcases hmem with h | h | h | h | h | h | h | h <;> rw [h] at hmin hfat <;> omega

end Tried

/-- **The layout a format writes is sound**, for every partition size it accepts. -/
theorem format_layout_sound (partitionSize clusters : UInt32) (boot : BootSector)
    (h : fat32Format partitionSize = some (clusters, boot)) :
    SoundLayout partitionSize clusters boot := by
  unfold fat32Format at h
  dsimp only at h
  have htried := (tried_start partitionSize).grow 7
  generalize growClusters partitionSize 7 (startClusters partitionSize) = spc at h htried
  split_ifs at h with _ _ hmin
  obtain ⟨rfl, rfl⟩ := h
  have hmin' : 65525 ≤ (clustersLeft partitionSize spc).toNat :=
    UInt32.le_iff_toNat_le.mp (UInt32.not_lt.mp hmin)
  obtain ⟨hroom, hclusters⟩ := htried.clusters_toNat hmin'
  have hfat := htried.fat_toNat
  have hmem := htried.1
  simp only [List.mem_cons, List.not_mem_nil, or_false] at hmem
  generalize clustersLeft partitionSize spc = clusters at *
  generalize fatSizeSectors partitionSize spc = fat at *
  have hspc : spc.toUInt8.toNat = spc.toNat := by
    rw [UInt32.toNat_toUInt8]
    omega
  have hmul := Nat.div_mul_le_self (partitionSize.toNat - 32 - 2 * fat.toNat) spc.toNat
  refine ⟨?_, ?_, hmin', ?_, ?_⟩
  · show 32 + 2 * fat.toNat + clusters.toNat * spc.toUInt8.toNat ≤ partitionSize.toNat
    rw [hspc, hclusters]
    omega
  · show clusters.toNat + 2 ≤ fat.toNat * 512 / 4
    rcases hmem with h | h | h | h | h | h | h | h <;> rw [h] at hclusters hfat <;> omega
  · intro s hs
    obtain ⟨hstart, hfew⟩ := tried_start partitionSize
    have hpos : 0 < (startClusters partitionSize).toNat := by
      simp only [List.mem_cons, List.not_mem_nil, or_false] at hstart
      omega
    have hle : partitionSize.toNat / s ≤ partitionSize.toNat / (startClusters partitionSize).toNat :=
      Nat.div_le_div_left hs hpos
    omega
  · intro start optical hend l hl c h2 hc
    cases hl
    have htot : (if partitionSize ≠ 0 then partitionSize.toNat else 0) = partitionSize.toNat := by
      refine if_pos ?_
      rintro rfl
      exact Nat.not_lt_zero _ hroom
    have hspc0 : spc.toUInt8 ≠ 0 := by
      intro h0
      rw [h0] at hspc
      change 0 = spc.toNat at hspc
      omega
    obtain ⟨k, hk, hsector⟩ :=
      Layout.cluster_inside (lt_of_lt_of_eq hroom htot.symm) hspc0 h2 hc
    have hk' : k + spc.toUInt8.toNat ≤ partitionSize.toNat := hk.trans (le_of_eq htot)
    have hlt : start.toNat + k < 2 ^ 32 := by omega
    rw [hsector, Nat.mod_eq_of_lt hlt]
    exact ⟨Nat.le_add_right _ _, show start.toNat + k + spc.toUInt8.toNat ≤ _ by omega⟩

theorem format_layout_sound_at : ∃ clusters boot, fat32Format 1000000 = some (clusters, boot) ∧
    SoundLayout 1000000 clusters boot :=
  ⟨_, _, rfl, format_layout_sound _ _ _ rfl⟩

end InDevOS.Fat32
