import InDevOS.Fat32.FatSlots

/-! What the FAT cache and the device hold together, and that writing back keeps it.

`Shows v c stored table` says that they hold `table`: a cached sector is the table's, a
sector with no dirty slot is the table's on the device, and if it was ever stored to, in
every written copy of the FAT. What writing slots back can do is said once
(`WritesBack`), with failures in it: a slot whose data did not reach every copy stays
dirty. The eviction, the flush and the sync are such steps, so they keep the table
(`Shows.writesBack`) as long as the FAT copies lie apart (`Volume.Placed`). -/
namespace InDevOS.Fat32
open Lib List

/-! ### Where the FAT sectors lie -/

/-- The reserved sectors, then the FAT copies, all below sector 2³². -/
structure Volume.Placed (v : Volume) : Prop where
  reserved : v.reservedSectorCount.toNat ≤ v.fatStartSector.toNat
  ends : v.fatStartSector.toNat + v.copies * v.fatSize32.toNat ≤ 2 ^ 32

instance (v : Volume) : Decidable v.Placed :=
  decidable_of_iff (v.reservedSectorCount.toNat ≤ v.fatStartSector.toNat ∧
      v.fatStartSector.toNat + v.copies * v.fatSize32.toNat ≤ 2 ^ 32)
    ⟨fun h => ⟨h.1, h.2⟩, fun h => ⟨h.reserved, h.ends⟩⟩

namespace Volume
variable {v : Volume}

/-- The device sector of FAT sector `s` in copy `fat`, as a number. -/
def place (v : Volume) (fat s : Nat) : Nat := v.fatStartSector.toNat + fat * v.fatSize32.toNat + s

theorem copies_pos (v : Volume) : 0 < v.copies := by
  unfold copies
  split_ifs with h
  · have : 1 < v.numFats.toNat := UInt8.lt_iff_toNat_lt.1 h.1
    omega
  · exact Nat.one_pos

theorem place_lt (hv : v.Placed) {fat s : Nat} (hf : fat < v.copies) (hs : s < v.fatSize32.toNat) :
    v.place fat s < 2 ^ 32 := by
  have h := hv.ends
  have hmul : (fat + 1) * v.fatSize32.toNat ≤ v.copies * v.fatSize32.toNat :=
    Nat.mul_le_mul_right _ hf
  rw [Nat.add_mul, Nat.one_mul] at hmul
  unfold Volume.place
  omega

theorem fatLba_toNat (hv : v.Placed) (fat : Nat) (sector : UInt32) (hf : fat < v.copies)
    (hs : sector.toNat < v.fatSize32.toNat) : (v.fatLba fat sector).toNat = v.place fat sector.toNat := by
  have h := place_lt hv hf hs
  have hfat : fat < 2 ^ 32 := by
    have : v.copies ≤ 4 := by
      unfold copies
      split_ifs <;> omega
    omega
  unfold Volume.place at *
  rw [fatLba, UInt32.toNat_add, UInt32.toNat_add, UInt32.toNat_mul, UInt32.toNat_ofNat_of_lt' hfat]
  rw [Nat.mod_eq_of_lt (a := fat * _) (by omega), Nat.mod_eq_of_lt (a := _ + fat * _) (by omega),
    Nat.mod_eq_of_lt h]

theorem place_inj {f g s t : Nat} (hs : s < v.fatSize32.toNat) (ht : t < v.fatSize32.toNat)
    (h : v.place f s = v.place g t) : f = g ∧ s = t := by
  unfold Volume.place at h
  have hmul : ∀ {a b : Nat}, a < b → a * v.fatSize32.toNat + v.fatSize32.toNat ≤ b * v.fatSize32.toNat :=
    fun hlt => Nat.succ_mul .. ▸ Nat.mul_le_mul_right _ hlt
  rcases Nat.lt_trichotomy f g with hlt | rfl | hlt
  · have := hmul hlt
    omega
  · exact ⟨rfl, by omega⟩
  · have := hmul hlt
    omega

end Volume

/-! ### Writing the copies -/

section Copies
variable {v : Volume} {sector : UInt32} {n : Nat}

theorem Device.put_sectors (dev : Device) (lba n : Nat) (data : Nat → Bytes) (x : Nat) :
    (dev.put lba n data).sectors x =
      if lba ≤ x ∧ x < lba + n then data (x - lba) else dev.sectors x := rfl

theorem storageWriteSectors_spec (env : Answers) (dev : Device) (lba n : Nat)
    (data : Nat → Bytes) :
    (∀ x, x < lba ∨ lba + n ≤ x →
      (storageWriteSectors env dev lba n data).2.sectors x = dev.sectors x) ∧
    ((storageWriteSectors env dev lba n data).1 = true →
      ∀ k < n, (storageWriteSectors env dev lba n data).2.sectors (lba + k) = data k) := by
  unfold storageWriteSectors
  cases env dev.calls with
  | ok =>
    refine ⟨fun x hx => if_neg (by omega), fun _ k hk => ?_⟩
    rw [Device.put_sectors, if_pos (by omega), Nat.add_sub_cancel_left]
  | fail left => exact ⟨fun x hx => if_neg (by omega), fun h => nomatch h⟩

theorem writeCopies_spec (env : Answers) (data : Nat → Bytes) (hv : v.Placed)
    (hs : sector.toNat + n ≤ v.fatSize32.toNat) (hn : 0 < n) :
    ∀ (left fat : Nat) (dev : Device), fat + left ≤ v.copies →
      (∀ g t, t < v.fatSize32.toNat →
        g < fat ∨ t < sector.toNat ∨ sector.toNat + n ≤ t →
        (writeCopies env v sector n data left fat dev).2.sectors (v.place g t) =
          dev.sectors (v.place g t)) ∧
      ((writeCopies env v sector n data left fat dev).1 = true →
        ∀ f k, fat ≤ f → f < fat + left → k < n →
          (writeCopies env v sector n data left fat dev).2.sectors
            (v.place f (sector.toNat + k)) = data k) := by
  intro left
  induction left with
  | zero =>
    intro fat dev _
    exact ⟨fun _ _ _ _ => rfl, fun _ f k hf hf' => by omega⟩
  | succ left ih =>
    intro fat dev hle
    have hlba := v.fatLba_toNat hv fat sector (by omega) (by omega)
    obtain ⟨hother, hdata⟩ :=
      storageWriteSectors_spec env dev (v.fatLba fat sector).toNat n data
    -- the write to copy `fat` touches no sector of another copy or of another range
    have hkeep : ∀ g t, t < v.fatSize32.toNat →
        g < fat + 1 ∧ g ≠ fat ∨ t < sector.toNat ∨ sector.toNat + n ≤ t →
        (storageWriteSectors env dev (v.fatLba fat sector).toNat n data).2.sectors (v.place g t) =
          dev.sectors (v.place g t) := by
      intro g t ht hg
      apply hother
      by_contra hin
      obtain ⟨hgf, hts⟩ := v.place_inj (f := g) (g := fat) (s := t)
        (t := v.place g t - v.place fat 0) ht
        (by unfold Volume.place at *; omega) (by unfold Volume.place at *; omega)
      unfold Volume.place at *
      omega
    unfold writeCopies
    generalize storageWriteSectors env dev (v.fatLba fat sector).toNat n data = w at hdata hkeep ⊢
    obtain ⟨_ | _, dev'⟩ := w
    · exact ⟨fun g t ht hg => hkeep g t ht (by omega), fun h => nomatch h⟩
    · obtain ⟨ihother, ihdata⟩ := ih (fat + 1) dev' (by omega)
      refine ⟨fun g t ht hg => ?_, fun hok f k hf hf' hk => ?_⟩
      · exact (ihother g t ht (by omega)).trans (hkeep g t ht (by omega))
      · rcases Nat.eq_or_lt_of_le hf with rfl | hlt
        · refine (ihother fat _ (by omega) (by omega)).trans ?_
          have := hdata rfl k hk
          rwa [hlba, show v.place fat sector.toNat + k = v.place fat (sector.toNat + k) from
            Nat.add_assoc _ _ _] at this
        · exact ihdata hok f k hlt (by omega) hk

end Copies

/-! ### Writing back -/

/-- No dirty slot holds FAT sector `s`. -/
def FatCache.Clean (c : FatCache) (s : Nat) : Prop :=
  ∀ i < fat32FatCacheSlots, (c.slots i).dirty = true → (c.slots i).sector.toNat ≠ s

/-- What writing slots back can do: clean some slots and change the FAT sectors on the
device. A sector with no dirty slot left either was clean before and is untouched, or
now has the data of its slot in every copy. -/
structure WritesBack (v : Volume) (c c' : FatCache) : Prop where
  sector : ∀ i, (c'.slots i).sector = (c.slots i).sector
  data : ∀ i, (c'.slots i).data = (c.slots i).data
  dirty : ∀ i, (c'.slots i).dirty = true → (c.slots i).dirty = true
  hand : c.slotHand < fat32FatCacheSlots → c'.slotHand < fat32FatCacheSlots
  disk : ∀ s < v.fatSize32.toNat, c'.Clean s →
    (c.Clean s ∧ ∀ f < v.copies, c'.dev.sectors (v.place f s) = c.dev.sectors (v.place f s)) ∨
    ∃ i < fat32FatCacheSlots, (c.slots i).sector.toNat = s ∧
      ∀ f < v.copies, c'.dev.sectors (v.place f s) = (c.slots i).data

namespace WritesBack
variable {v : Volume} {c c' c'' : FatCache}

theorem of_eq (hslots : c'.slots = c.slots) (hhand : c'.slotHand < fat32FatCacheSlots)
    (hdev : ∀ f s, s < v.fatSize32.toNat →
      c'.dev.sectors (v.place f s) = c.dev.sectors (v.place f s)) : WritesBack v c c' where
  sector i := by rw [hslots]
  data i := by rw [hslots]
  dirty i h := by rwa [hslots] at h
  hand _ := hhand
  disk s hs hc := by
    refine .inl ⟨fun i hi hd => ?_, fun f _ => hdev f s hs⟩
    rw [← hslots] at hd ⊢
    exact hc i hi hd

theorem trans (h : WritesBack v c c') (h' : WritesBack v c' c'') : WritesBack v c c'' where
  sector i := (h'.sector i).trans (h.sector i)
  data i := (h'.data i).trans (h.data i)
  dirty i hd := h.dirty i (h'.dirty i hd)
  hand hh := h'.hand (h.hand hh)
  disk s hs hc := by
    rcases h'.disk s hs hc with ⟨hc', hsame'⟩ | ⟨i, hi, hsec, hdata⟩
    · rcases h.disk s hs hc' with ⟨hc0, hsame⟩ | ⟨i, hi, hsec, hdata⟩
      · exact .inl ⟨hc0, fun f hf => (hsame' f hf).trans (hsame f hf)⟩
      · exact .inr ⟨i, hi, hsec, fun f hf => (hsame' f hf).trans (hdata f hf)⟩
    · refine .inr ⟨i, hi, ?_, fun f hf => ?_⟩
      · rw [← h.sector i, hsec]
      · rw [hdata f hf, h.data i]

end WritesBack

/-- The cache and the device hold `table`: sector by sector the content of the FAT, of
which those in `stored` have been stored to. -/
structure Shows (v : Volume) (c : FatCache) (stored : Nat → Prop) (table : Nat → Bytes) :
    Prop where
  hand : c.slotHand < fat32FatCacheSlots
  inFat : ∀ i < fat32FatCacheSlots, (c.slots i).sector ≠ noSector →
    (c.slots i).sector.toNat < v.fatSize32.toNat
  single : ∀ i < fat32FatCacheSlots, ∀ j < fat32FatCacheSlots, (c.slots i).sector ≠ noSector →
    (c.slots i).sector = (c.slots j).sector → i = j
  used : ∀ i < fat32FatCacheSlots, (c.slots i).dirty = true → (c.slots i).sector ≠ noSector
  slot : ∀ i < fat32FatCacheSlots, (c.slots i).sector ≠ noSector →
    (c.slots i).data = table (c.slots i).sector.toNat
  disk : ∀ s < v.fatSize32.toNat, c.Clean s → ∀ f < v.copies, f = 0 ∨ stored s →
    c.dev.sectors (v.place f s) = table s

section
variable {env : Answers} {v : Volume} {c c' : FatCache} {stored : Nat → Prop}
  {table : Nat → Bytes}

theorem toNat_lt_noSector (v : Volume) {s : UInt32} (h : s.toNat < v.fatSize32.toNat) :
    s ≠ noSector := by
  rintro rfl
  have := v.fatSize32.toNat_lt
  simp only [noSector, UInt32.reduceToNat] at h
  omega

theorem Shows.writesBack (h : Shows v c stored table) (hw : WritesBack v c c') :
    Shows v c' stored table where
  hand := hw.hand h.hand
  inFat i hi hne := by
    rw [hw.sector] at hne ⊢
    exact h.inFat i hi hne
  single i hi j hj hne heq := by
    rw [hw.sector] at hne heq
    rw [hw.sector] at heq
    exact h.single i hi j hj hne heq
  used i hi hd := by
    rw [hw.sector]
    exact h.used i hi (hw.dirty i hd)
  slot i hi hne := by
    rw [hw.sector] at hne ⊢
    rw [hw.data]
    exact h.slot i hi hne
  disk s hs hc f hf hst := by
    rcases hw.disk s hs hc with ⟨hc0, hsame⟩ | ⟨i, hi, hsec, hdata⟩
    · exact (hsame f hf).trans (h.disk s hs hc0 f hf hst)
    · have hne : (c.slots i).sector ≠ noSector := toNat_lt_noSector v (by omega)
      rw [hdata f hf, h.slot i hi hne, hsec]

/-- Dirty slots of adjacent FAT sectors, from `first` on. -/
structure DirtyRun (c : FatCache) (first : UInt32) (l : List Nat) : Prop where
  slots : ∀ i ∈ l, i < fat32FatCacheSlots ∧ (c.slots i).dirty = true
  adjacent : ∀ k < l.length, (c.slots (l.getD k 0)).sector.toNat = first.toNat + k

theorem DirtyRun.getD {first : UInt32} {l : List Nat} (hl : DirtyRun c first l) {k : Nat}
    (hk : k < l.length) :
    l.getD k 0 < fat32FatCacheSlots ∧ (c.slots (l.getD k 0)).dirty = true := by
  rw [getD_eq_getElem _ _ hk]
  exact hl.slots _ (getElem_mem hk)

section
variable (h : Shows v c stored table) {first : UInt32} {l : List Nat} (hl : DirtyRun c first l)
include h hl

theorem DirtyRun.fits (hne : 0 < l.length) : first.toNat + l.length ≤ v.fatSize32.toNat := by
  obtain ⟨hi, hd⟩ := hl.getD (k := l.length - 1) (by omega)
  have hlast := h.inFat _ hi (h.used _ hi hd)
  rw [hl.adjacent _ (by omega)] at hlast
  omega

theorem DirtyRun.mem_iff {i : Nat} (hi : i < fat32FatCacheSlots) (hd : (c.slots i).dirty = true) :
    i ∈ l ↔ first.toNat ≤ (c.slots i).sector.toNat ∧
      (c.slots i).sector.toNat < first.toNat + l.length := by
  constructor
  · intro hmem
    obtain ⟨k, hk, rfl⟩ := mem_iff_getElem.1 hmem
    have := hl.adjacent k hk
    rw [getD_eq_getElem _ _ hk] at this
    omega
  · rintro ⟨hlo, hhi⟩
    obtain ⟨hj, -⟩ := hl.getD (k := (c.slots i).sector.toNat - first.toNat) (by omega)
    have hsec := hl.adjacent ((c.slots i).sector.toNat - first.toNat) (by omega)
    rw [Nat.add_sub_cancel' hlo] at hsec
    have heq := h.single i hi _ hj (h.used i hi hd) (UInt32.toNat_inj.1 hsec.symm)
    rw [heq, getD_eq_getElem _ _ (by omega)]
    exact getElem_mem _

end

section Run
variable {first : UInt32} {l : List Nat} {data : Nat → Bytes} {dev : Device} {ok : Bool}

section
variable (hv : v.Placed) (h : Shows v c stored table) (hl : DirtyRun c first l) (hne : 0 < l.length)
include hv h hl hne

/-- Writing the data of a run to the copies: what reached the device before a failure does
not matter, as the slots stay dirty. -/
theorem WritesBack.run_failed (hr : writeCopies env v first l.length data v.copies 0 c.dev = (ok, dev)) : WritesBack v c { c with dev := dev } where
  sector _ := rfl
  data _ := rfl
  dirty _ hd := hd
  hand hh := hh
  disk s hs hc := by
    obtain ⟨hother, -⟩ := writeCopies_spec env data hv (hl.fits h hne) hne v.copies 0 c.dev (by omega)
    rw [hr] at hother
    refine .inl ⟨hc, fun f _ => hother f s hs ?_⟩
    -- a sector of the run has a dirty slot
    by_contra hin
    obtain ⟨hi, hd⟩ := hl.getD (k := s - first.toNat) (by omega)
    exact hc _ hi hd ((hl.adjacent _ (by omega)).trans (by omega))

theorem WritesBack.run_written (hdat : ∀ k < l.length, data k = (c.slots (l.getD k 0)).data)
    (hr : writeCopies env v first l.length data v.copies 0 c.dev = (true, dev)) : WritesBack v c (cleanSlots { c with dev := dev } l) where
  sector i := by
    show (if i ∈ l then _ else _ : Slot).sector = _
    split_ifs <;> rfl
  data i := by
    show (if i ∈ l then _ else _ : Slot).data = _
    split_ifs <;> rfl
  dirty i hd := by
    change (if i ∈ l then _ else _ : Slot).dirty = true at hd
    split_ifs at hd with hi
    exact hd
  hand hh := hh
  disk s hs hc := by
    obtain ⟨hother, hdata⟩ := writeCopies_spec env data hv (hl.fits h hne) hne v.copies 0 c.dev (by omega)
    rw [hr] at hother hdata
    by_cases hin : first.toNat ≤ s ∧ s < first.toNat + l.length
    · obtain ⟨hi, -⟩ := hl.getD (k := s - first.toNat) (by omega)
      refine .inr ⟨_, hi, (hl.adjacent _ (by omega)).trans (by omega), fun f hf => ?_⟩
      have := hdata rfl f (s - first.toNat) (Nat.zero_le _) (by omega) (by omega)
      rw [Nat.add_sub_cancel' hin.1] at this
      exact this.trans (hdat _ (by omega))
    · refine .inl ⟨fun i hi hd hsec => ?_, fun f _ => hother f s hs (by omega)⟩
      have hnot : i ∉ l := fun hmem => hin (hsec ▸ (hl.mem_iff h hi hd).1 hmem)
      have hkeep : ((cleanSlots { c with dev := dev } l).slots i) = c.slots i := if_neg hnot
      exact hc i hi (hkeep.symm ▸ hd) (hkeep.symm ▸ hsec)

end

end Run

/-! ### Eviction -/

theorem cleanSlots_singleton (c : FatCache) (i : Nat) :
    cleanSlots c [i] = c.setSlot i { c.slots i with dirty := false } := by
  unfold cleanSlots FatCache.setSlot
  congr 1
  funext j
  rcases eq_or_ne j i with rfl | hj
  · simp
  · simp [hj]

theorem FatCache.setSlot_self (c : FatCache) (i : Nat) : c.setSlot i (c.slots i) = c := by
  unfold FatCache.setSlot
  rw [Function.update_eq_self]

section
variable (env : Answers)

theorem writeBack_spec (hv : v.Placed) (h : Shows v c stored table) {i : Nat}
    (hi : i < fat32FatCacheSlots) :
    WritesBack v c (c.writeBack env v i).2 ∧
    ((c.writeBack env v i).1 = true → ((c.writeBack env v i).2.slots i).dirty = false) := by
  unfold FatCache.writeBack fat32FatSlotWrite
  by_cases hd : (c.slots i).dirty = true
  · have hne := h.used i hi hd
    have hin := h.inFat i hi hne
    have hrun : DirtyRun c (c.slots i).sector [i] := by
      refine ⟨fun j hj => ?_, fun k hk => ?_⟩
      · rw [mem_singleton.1 hj]
        exact ⟨hi, hd⟩
      · rw [Nat.lt_one_iff.1 hk]
        rfl
    have hdat : ∀ k < [i].length, (c.slots i).data = (c.slots ([i].getD k 0)).data := by simp
    simp only [hd, Bool.not_true, Bool.false_or, beq_iff_eq, hne, if_false,
      UInt32.not_le.2 (UInt32.lt_iff_toNat_lt.2 hin)]
    cases hr : writeCopies env v (c.slots i).sector 1 (fun _ => (c.slots i).data) v.copies 0 c.dev with
    | mk ok dev =>
      cases ok with
      | false =>
        refine ⟨?_, fun h => nomatch h⟩
        simpa only [FatCache.setSlot_self] using WritesBack.run_failed hv h hrun Nat.one_pos hr
      | true =>
        refine ⟨?_, fun _ => by simp [FatCache.setSlot]⟩
        have := WritesBack.run_written hv h hrun Nat.one_pos hdat hr
        rwa [cleanSlots_singleton] at this
  · simp only [Bool.not_eq_true] at hd
    rw [if_pos (by simp [hd])]
    dsimp only
    rw [FatCache.setSlot_self]
    exact ⟨.of_eq rfl h.hand fun _ _ _ => rfl, fun _ => hd⟩

theorem writeBack_other (v : Volume) (c : FatCache) {i j : Nat} (hj : j ≠ i) :
    (c.writeBack env v i).2.slots j = c.slots j :=
  Function.update_of_ne hj _ _

theorem pickVictim_spec (hv : v.Placed) : ∀ (tries : Nat) {c : FatCache},
    Shows v c stored table →
    WritesBack v c (pickVictim env v tries c).2 ∧
    ∀ i, (pickVictim env v tries c).1 = some i →
      i < fat32FatCacheSlots ∧ ((pickVictim env v tries c).2.slots i).dirty = false := by
  intro tries
  induction tries with
  | zero => exact fun h => ⟨.of_eq rfl h.hand fun _ _ _ => rfl, fun i hi => nomatch hi⟩
  | succ tries ih =>
    intro c h
    have hmod : (c.slotHand + 1) % fat32FatCacheSlots < fat32FatCacheSlots :=
      Nat.mod_lt _ (by decide)
    have hturn : WritesBack v c { c with slotHand := (c.slotHand + 1) % fat32FatCacheSlots } :=
      .of_eq rfl hmod fun _ _ _ => rfl
    have h' := h.writesBack hturn
    unfold pickVictim
    by_cases hd : (c.slots c.slotHand).dirty = true
    · rw [if_pos hd]
      obtain ⟨hw, hclean⟩ := writeBack_spec env hv h' h.hand
      generalize FatCache.writeBack env v _ c.slotHand = w at hw hclean ⊢
      obtain ⟨_ | _, c'⟩ := w
      · obtain ⟨ihw, ihclean⟩ := ih (h'.writesBack hw)
        exact ⟨(hturn.trans hw).trans ihw, ihclean⟩
      · refine ⟨hturn.trans hw, fun i hi => ?_⟩
        cases hi
        exact ⟨h.hand, hclean rfl⟩
    · rw [if_neg hd]
      refine ⟨hturn, fun i hi => ?_⟩
      cases hi
      exact ⟨h.hand, by simpa using hd⟩

/-! ### Loading a slot -/

theorem findSlot_some {sector : UInt32} {i : Nat} (h : findSlot c sector = some i) :
    i < fat32FatCacheSlots ∧ (c.slots i).sector = sector := by
  refine ⟨mem_range.1 (mem_of_find?_eq_some h), ?_⟩
  simpa using find?_some h

theorem findSlot_none {sector : UInt32} (h : findSlot c sector = none) :
    ∀ i < fat32FatCacheSlots, (c.slots i).sector ≠ sector := by
  intro i hi
  simpa using find?_eq_none.1 h i (mem_range.2 hi)

/-- Reusing a clean slot for a sector no slot holds: it then has that sector as the table
has it, or is empty. -/
theorem Shows.setSlot (h : Shows v c stored table) {i : Nat} (hi : i < fat32FatCacheSlots)
    (hd : (c.slots i).dirty = false) {s : Slot} {calls : Nat} (hs : s.dirty = false)
    (hnew : s.sector ≠ noSector → s.sector.toNat < v.fatSize32.toNat ∧
      s.data = table s.sector.toNat ∧
      ∀ j < fat32FatCacheSlots, (c.slots j).sector ≠ s.sector) :
    Shows v { c.setSlot i s with dev := { c.dev with calls := calls } } stored table := by
  have hslot (j : Nat) : (c.setSlot i s).slots j = if j = i then s else c.slots j :=
    Function.update_apply ..
  refine ⟨h.hand, fun j hj hne => ?_, fun j hj k hk hne heq => ?_, fun j hj hdj => ?_,
    fun j hj hne => ?_, fun t ht hc f hf hst => h.disk t ht (fun j hj hdj hsec => ?_) f hf hst⟩
  · simp only [hslot] at hne ⊢
    split_ifs at hne ⊢ with hji
    · exact (hnew hne).1
    · exact h.inFat j hj hne
  · simp only [hslot] at hne heq
    split_ifs at hne heq with hji hki hki
    · rw [hji, hki]
    · exact absurd heq.symm ((hnew hne).2.2 k hk)
    · exact absurd heq ((hnew (heq ▸ hne)).2.2 j hj)
    · exact h.single j hj k hk hne heq
  · simp only [hslot] at hdj ⊢
    split_ifs at hdj ⊢ with hji
    · simp [hs] at hdj
    · exact h.used j hj hdj
  · simp only [hslot] at hne ⊢
    split_ifs at hne ⊢ with hji
    · exact (hnew hne).2.1
    · exact h.slot j hj hne
  · have hji : j ≠ i := by
      rintro rfl
      simp [hd] at hdj
    have hcj := hc j hj
    simp only [hslot, if_neg hji] at hcj
    exact hcj hdj hsec

/-- A lookup keeps the table, and the slot it returns holds the sector asked for. -/
theorem fat32FatSlot_spec (hv : v.Placed) (h : Shows v c stored table)
    {sector : UInt32}
    (hs : sector.toNat < v.fatSize32.toNat) :
    Shows v (fat32FatSlot env v c sector).2 stored table ∧
    ∀ i, (fat32FatSlot env v c sector).1 = some i →
      i < fat32FatCacheSlots ∧ ((fat32FatSlot env v c sector).2.slots i).sector = sector := by
  unfold fat32FatSlot
  cases hfind : findSlot c sector with
  | some i =>
    refine ⟨h, fun j hj => ?_⟩
    cases hj
    exact findSlot_some hfind
  | none =>
    obtain ⟨hw, hvictim⟩ := pickVictim_spec env hv fat32FatCacheSlots h
    have hfree : ∀ j < fat32FatCacheSlots,
        ((pickVictim env v fat32FatCacheSlots c).2.slots j).sector ≠ sector := by
      intro j hj
      rw [hw.sector]
      exact findSlot_none hfind j hj
    generalize pickVictim env v fat32FatCacheSlots c = w at hw hvictim hfree ⊢
    obtain ⟨_ | i, c'⟩ := w
    · exact ⟨h.writesBack hw, fun i hi => nomatch hi⟩
    have h' := h.writesBack hw
    obtain ⟨hi, hclean⟩ := hvictim i rfl
    have hread := h'.disk sector.toNat hs
      (fun j hj _ hsec => hfree j hj (UInt32.toNat_inj.1 hsec)) 0 v.copies_pos (.inl rfl)
    simp only [fillSlot, storageReadSector, v.fatLba_toNat hv 0 sector v.copies_pos hs]
    cases env c'.dev.calls with
    | ok =>
      refine ⟨h'.setSlot hi hclean rfl fun _ => ⟨hs, hread, hfree⟩, fun j hj => ?_⟩
      cases hj
      exact ⟨hi, by simp [FatCache.setSlot]⟩
    | fail left => exact ⟨h'.setSlot hi hclean rfl fun hne => absurd rfl hne, fun j hj => nomatch hj⟩

/-! ### The flush -/

theorem insertSlot_perm (c : FatCache) (i : Nat) (l : List Nat) :
    (insertSlot c i l).Perm (i :: l) := by
  induction l with
  | nil => exact .refl _
  | cons j l ih =>
    unfold insertSlot
    split_ifs
    · exact (ih.cons j).trans (.swap i j l)
    · exact .refl _

theorem sortSlots_perm (c : FatCache) (l : List Nat) : (sortSlots c l).Perm l := by
  have hfold : ∀ l acc : List Nat,
      (l.foldl (fun sorted i => insertSlot c i sorted) acc).Perm (l ++ acc) := by
    intro l
    induction l with
    | nil => exact fun acc => .refl _
    | cons i l ih =>
      intro acc
      refine (ih _).trans (((insertSlot_perm c i acc).append_left l).trans ?_)
      exact perm_middle
  refine (reverse_perm _).trans ((hfold l []).trans ?_)
  rw [append_nil]

/-- The run taken and the rest make up the list; sectors of the run are adjacent. -/
theorem spanRun_spec (c : FatCache) (i : Nat) (l : List Nat) :
    (spanRun c i l).1 ++ (spanRun c i l).2 = l ∧
    List.IsChain (fun a b => (c.slots b).sector = (c.slots a).sector + 1)
      (i :: (spanRun c i l).1) := by
  induction l generalizing i with
  | nil => exact ⟨rfl, .singleton i⟩
  | cons j l ih =>
    unfold spanRun
    split_ifs with hj
    · obtain ⟨happ, hchain⟩ := ih j
      exact ⟨by rw [cons_append, happ], hchain.cons_cons hj⟩
    · exact ⟨rfl, .singleton i⟩

theorem adjacent_of_isChain (h : Shows v c stored table) {i : Nat} {run : List Nat}
    (hslots : ∀ j ∈ i :: run, j < fat32FatCacheSlots ∧ (c.slots j).dirty = true)
    (hchain : List.IsChain (fun a b => (c.slots b).sector = (c.slots a).sector + 1) (i :: run)) :
    DirtyRun c (c.slots i).sector (i :: run) := by
  refine ⟨hslots, ?_⟩
  induction run generalizing i with
  | nil =>
    intro k hk
    rw [Nat.lt_one_iff.1 hk]
    rfl
  | cons j run ih =>
    obtain ⟨hij, hchain⟩ := isChain_cons_cons.1 hchain
    have ihj := ih (fun a ha => hslots a (mem_cons_of_mem _ ha)) hchain
    obtain ⟨hi, hd⟩ := hslots i mem_cons_self
    have hin := h.inFat i hi (h.used i hi hd)
    have hnext : (c.slots j).sector.toNat = (c.slots i).sector.toNat + 1 := by
      have := v.fatSize32.toNat_lt
      rw [hij, UInt32.toNat_add, show (1 : UInt32).toNat = 1 from rfl]
      omega
    intro k hk
    cases k with
    | zero => rfl
    | succ k =>
      have := ihj k (by simpa using hk)
      rw [getD_cons_succ, this, hnext]
      omega

/-- Writing a run keeps the table and changes its own slots only; on success they are
clean. -/
theorem writeRun_spec (hv : v.Placed) (h : Shows v c stored table) {i : Nat}
    {run : List Nat} (hl : DirtyRun c (c.slots i).sector (i :: run)) :
    WritesBack v c (writeRun env v c i run).2 ∧
    ((writeRun env v c i run).1 = true →
      ∀ j ∈ i :: run, ((writeRun env v c i run).2.slots j).dirty = false) ∧
    ∀ j ∉ i :: run, (writeRun env v c i run).2.slots j = c.slots j := by
  obtain ⟨hi, -⟩ := hl.slots i mem_cons_self
  unfold writeRun
  by_cases hrun : run = []
  · subst hrun
    obtain ⟨hw, hclean⟩ := writeBack_spec env hv h hi
    refine ⟨hw, fun hok j hj => ?_, fun j hj => ?_⟩
    · rw [mem_singleton.1 hj]
      exact hclean hok
    · exact writeBack_other env v c (by simpa using hj)
  · have hfits := hl.fits h (Nat.succ_pos _)
    rw [length_cons] at hfits
    rw [if_neg hrun]
    dsimp only [fat32FatWriteRun]
    rw [if_neg (by rw [UInt32.le_iff_toNat_le]; omega)]
    cases hr : writeCopies env v (c.slots i).sector (run.length + 1)
      (fun k => (c.slots ((i :: run).getD k 0)).data) v.copies 0 c.dev with
    | mk ok dev =>
      cases ok with
      | false =>
        refine ⟨.run_failed hv h hl (Nat.succ_pos _) hr, fun hok => ?_, fun _ _ => rfl⟩
        cases hok
      | true =>
        refine ⟨.run_written hv h hl (Nat.succ_pos _) (fun _ _ => rfl) hr, fun _ j hj => ?_,
          fun j hj => if_neg hj⟩
        show (if j ∈ i :: run then _ else _ : Slot).dirty = false
        rw [if_pos hj]

/-- The flush loop over dirty slots keeps the table; when every write succeeds they are
clean. -/
theorem flushRuns_spec (hv : v.Placed) (runBuf : Bool) :
    ∀ (fuel : Nat) (l : List Nat) {c : FatCache}, Shows v c stored table → l.Nodup →
      (∀ i ∈ l, i < fat32FatCacheSlots ∧ (c.slots i).dirty = true) → l.length ≤ fuel →
      WritesBack v c (flushRuns env v runBuf fuel l c).2 ∧
      ((flushRuns env v runBuf fuel l c).1 = true →
        ∀ i ∈ l, ((flushRuns env v runBuf fuel l c).2.slots i).dirty = false) := by
  intro fuel
  induction fuel with
  | zero =>
    intro l c h _ _ hle
    rw [length_eq_zero_iff.1 (Nat.le_zero.1 hle)]
    exact ⟨.of_eq rfl h.hand fun _ _ _ => rfl, fun _ i hi => nomatch hi⟩
  | succ fuel ih =>
    intro l c h hnd hl hle
    cases l with
    | nil => exact ⟨.of_eq rfl h.hand fun _ _ _ => rfl, fun _ i hi => nomatch hi⟩
    | cons i l =>
      have hsplit : ∃ run rest, (if runBuf then spanRun c i l else ([], l)) = (run, rest) ∧
          run ++ rest = l ∧
          List.IsChain (fun a b => (c.slots b).sector = (c.slots a).sector + 1) (i :: run) := by
        cases runBuf with
        | true => exact ⟨_, _, rfl, (spanRun_spec c i l).1, (spanRun_spec c i l).2⟩
        | false => exact ⟨[], l, rfl, rfl, .singleton i⟩
      obtain ⟨run, rest, hrun, rfl, hchain⟩ := hsplit
      obtain ⟨hw, hclean, hother⟩ := writeRun_spec env hv h
        (adjacent_of_isChain h (fun j hj => hl j (@mem_append_left _ j (i :: run) rest hj)) hchain)
      have hdisj : ∀ j ∈ rest, j ∉ i :: run := fun j hj hj' => (nodup_append.1 hnd).2.2 j hj' j hj rfl
      obtain ⟨ihw, ihclean⟩ := ih rest (h.writesBack hw)
        (nodup_append.1 (nodup_cons.1 hnd).2).2.1
        (fun j hj => by
          rw [hother j (hdisj j hj)]
          exact hl j (mem_cons_of_mem _ (mem_append_right _ hj)))
        (by simp only [length_cons, length_append] at hle; omega)
      simp only [flushRuns, hrun]
      refine ⟨hw.trans ihw, fun hok j hj => ?_⟩
      obtain ⟨hok1, hok2⟩ := Bool.and_eq_true_iff.1 hok
      rw [← cons_append, mem_append] at hj
      rcases hj with hj | hj
      · by_contra hd
        have hd' := ihw.dirty j (by simpa using hd)
        simp [hclean hok1 j hj] at hd'
      · exact ihclean hok2 j hj

theorem Shows.mem_dirtySlots (h : Shows v c stored table) {i : Nat} :
    i ∈ dirtySlots c ↔ i < fat32FatCacheSlots ∧ (c.slots i).dirty = true := by
  simp only [dirtySlots, mem_filter, mem_range, Bool.and_eq_true, bne_iff_ne]
  exact ⟨fun hi => ⟨hi.1, hi.2.1⟩, fun hi => ⟨hi.1, hi.2, h.used i hi.1 hi.2⟩⟩

/-- The flush keeps the table. It cleans every slot if it succeeds and the dirty range was
not empty. -/
theorem fat32FlushFat_spec (hv : v.Placed) (h : Shows v c stored table)
    (alloc : Bool) :
    WritesBack v c (fat32FlushFat env v c alloc).2 ∧
    ((fat32FlushFat env v c alloc).1 = true → c.dirtyLo ≤ c.dirtyHi →
      ∀ i < fat32FatCacheSlots, ((fat32FlushFat env v c alloc).2.slots i).dirty = false) := by
  unfold fat32FlushFat
  by_cases hrange : c.dirtyLo ≤ c.dirtyHi
  · have hperm := sortSlots_perm c (dirtySlots c)
    have hnd : (dirtySlots c).Nodup := nodup_range.filter _
    obtain ⟨hw, hclean⟩ := flushRuns_spec env hv
      (decide (1 < (sortSlots c (dirtySlots c)).length) && alloc) _ _ h (hperm.nodup_iff.2 hnd)
      (fun i hi => h.mem_dirtySlots.1 (hperm.mem_iff.1 hi)) le_rfl
    simp only [if_pos hrange]
    refine ⟨hw.trans (.of_eq rfl (hw.hand h.hand) fun _ _ _ => rfl), fun hok _ i hi => ?_⟩
    by_contra hd
    have hdirty := h.mem_dirtySlots.2 ⟨hi, hw.dirty i (by simpa using hd)⟩
    exact hd (hclean hok i (hperm.mem_iff.2 hdirty))
  · simp only [if_neg hrange]
    exact ⟨.of_eq rfl h.hand fun _ _ _ => rfl, fun _ hr => absurd hr hrange⟩

theorem fsinfo_lba (hv : v.Placed) (hi : v.fsInfo < v.reservedSectorCount) :
    (v.fatStartSector - v.reservedSectorCount.toUInt32 + v.fsInfo.toUInt32).toNat + 1 ≤
      v.fatStartSector.toNat := by
  have hres := hv.reserved
  have hlt : v.fsInfo.toNat < v.reservedSectorCount.toNat := UInt16.lt_iff_toNat_lt.1 hi
  rw [UInt32.toNat_add, UInt32.toNat_sub_of_le _ _ hres, UInt16.toNat_toUInt32, UInt16.toNat_toUInt32]
  omega

theorem fat32WriteFsinfo_spec (hv : v.Placed)
    (hhand : c.slotHand < fat32FatCacheSlots) (allocCursor : UInt32) :
    WritesBack v c (fat32WriteFsinfo env v c allocCursor).2 ∧
    (fat32WriteFsinfo env v c allocCursor).2.slots = c.slots := by
  have hkeep : ∀ calls, WritesBack v c { c with dev := { c.dev with calls := calls } } :=
    fun calls => .of_eq rfl hhand fun _ _ _ => rfl
  unfold fat32WriteFsinfo
  split_ifs with hmeta hinfo
  · exact ⟨.of_eq rfl hhand fun _ _ _ => rfl, rfl⟩
  · exact ⟨.of_eq rfl hhand fun _ _ _ => rfl, rfl⟩
  · have hlba := fsinfo_lba hv (UInt16.not_le.1 fun hle => hinfo (.inr (.inr hle)))
    unfold storageReadSector
    cases env c.dev.calls with
    | fail left => exact ⟨hkeep _, rfl⟩
    | ok =>
      dsimp only
      split_ifs
      · exact ⟨hkeep _, rfl⟩
      · exact ⟨hkeep _, rfl⟩
      · refine ⟨.of_eq rfl hhand fun f s _ => ?_, rfl⟩
        refine (storageWriteSectors_spec env _ _ _ _).1 _ (.inr ?_)
        refine le_trans hlba ?_
        rw [Volume.place, Nat.add_assoc]
        exact Nat.le_add_right _ _

/-- A sync keeps the table. It leaves no dirty slot if it succeeds and the dirty range was
not empty or no slot was dirty. -/
theorem fat32Sync_spec (hv : v.Placed) (h : Shows v c stored table)
    (alloc : Bool) (allocCursor : UInt32) :
    WritesBack v c (fat32Sync env v c alloc allocCursor).2 ∧
    ((fat32Sync env v c alloc allocCursor).1 = true →
      (c.dirtyLo ≤ c.dirtyHi ∨ ∀ i < fat32FatCacheSlots, (c.slots i).dirty = false) →
      ∀ i < fat32FatCacheSlots, ((fat32Sync env v c alloc allocCursor).2.slots i).dirty = false) := by
  obtain ⟨hw, hclean⟩ := fat32FlushFat_spec env hv h alloc
  obtain ⟨hw', hslots⟩ := fat32WriteFsinfo_spec env hv (hw.hand h.hand) allocCursor
  refine ⟨hw.trans hw', fun hok hrange i hi => ?_⟩
  have hflush : (fat32FlushFat env v c alloc).1 = true := (Bool.and_eq_true_iff.1 hok).1
  show ((fat32WriteFsinfo env v _ allocCursor).2.slots i).dirty = false
  rw [hslots]
  rcases hrange with hrange | hnone
  · exact hclean hflush hrange i hi
  · by_contra hd
    have := hw.dirty i (by simpa using hd)
    rw [hnone i hi] at this
    cases this

end

end

end InDevOS.Fat32
