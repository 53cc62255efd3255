import InDevOS.Fat32.FatCache

/-! What a successful `fat32_sync` means for the FAT on the device.

A sync that returns 0 should leave no dirty slot and every sector stored to since the
mount in every copy of the FAT (`Synced`). The flush looks at the dirty slots only when
the dirty range is not empty, and empties the range even when writes fail: the sync after
a failed one finds nothing to do and succeeds (`sync_after_failure`). When the range is
not empty, or nothing is dirty, the sync does what it says (`sync_complete`). -/
namespace InDevOS.Fat32
open Lib

/-- The FAT sectors after a history: those at the mount, changed by the stores that
succeeded. -/
def tableOver (v : Volume) (table : Nat → Bytes) : List FatEvent → List Result → Nat → Bytes
  | e :: es, r :: rs => tableOver v (tableAfter v table e r) es rs
  | _, _ => table

/-- The sectors a history stored to. -/
def storedOver (v : Volume) (stored : Nat → Prop) : List FatEvent → List Result → Nat → Prop
  | e :: es, r :: rs => storedOver v (storedAfter v stored e r) es rs
  | _, _ => stored

/-- No slot is dirty, and every copy of the FAT has the sectors stored to since the mount
of `dev` over the history. -/
structure Synced (v : Volume) (dev : Device) (es : List FatEvent) (rs : List Result)
    (c : FatCache) : Prop where
  clean : ∀ i < fat32FatCacheSlots, (c.slots i).dirty = false
  copies : ∀ s, storedOver v (fun _ => False) es rs s → ∀ f < v.numFats.toNat,
    c.dev.sectors (v.place f s) = tableOver v (fun s => dev.sectors (v.place 0 s)) es rs s

/-- The sync sees what is dirty: the dirty range is not empty, or no slot is dirty. -/
def FatCache.RangeSeen (c : FatCache) : Prop :=
  c.dirtyLo ≤ c.dirtyHi ∨ ∀ i < fat32FatCacheSlots, (c.slots i).dirty = false

instance (c : FatCache) : Decidable c.RangeSeen :=
  inferInstanceAs (Decidable (_ ∨ _))

section
variable {env : Answers} {v : Volume}

theorem fatRun_cons {c c' : FatCache} {e : FatEvent} {es : List FatEvent} {rs : List Result}
    (hr : fatRun env v c (e :: es) = some (rs, c')) :
    ∃ r c₁ rs', rs = r :: rs' ∧ fatStep env v c e = some (r, c₁) ∧
      fatRun env v c₁ es = some (rs', c') := by
  rw [fatRun, Option.bind_eq_some_iff] at hr
  obtain ⟨⟨r, c₁⟩, hstep, hr⟩ := hr
  obtain ⟨⟨rs', c₂⟩, hrun, hr⟩ := Option.map_eq_some_iff.1 hr
  cases hr
  exact ⟨r, c₁, rs', rfl, hstep, hrun⟩

theorem fatRun_shows (hv : v.Placed) : ∀ (es : List FatEvent) {c c' : FatCache}
    {stored : Nat → Prop} {table : Nat → Bytes} {rs : List Result}, Shows v c stored table →
    fatRun env v c es = some (rs, c') →
    Shows v c' (storedOver v stored es rs) (tableOver v table es rs) := by
  intro es
  induction es with
  | nil =>
    intro c c' stored table rs h hr
    cases hr
    exact h
  | cons e es ih =>
    intro c c' stored table rs h hr
    obtain ⟨r, c₁, rs, rfl, hstep, hrun⟩ := fatRun_cons hr
    exact ih (fatStep_shows hv h hstep).1 hrun

theorem storedOver_lt (hv : v.Placed) : ∀ (es : List FatEvent) {c c' : FatCache}
    {stored : Nat → Prop} {table : Nat → Bytes} {rs : List Result}, Shows v c stored table →
    (∀ s, stored s → s < v.fatSize32.toNat) → fatRun env v c es = some (rs, c') →
    ∀ s, storedOver v stored es rs s → s < v.fatSize32.toNat := by
  intro es
  induction es with
  | nil =>
    intro c c' stored table rs _ hst hr
    cases hr
    exact hst
  | cons e es ih =>
    intro c c' stored table rs h hst hr
    obtain ⟨r, c₁, rs, rfl, hstep, hrun⟩ := fatRun_cons hr
    obtain ⟨hshows, -, hstore⟩ := fatStep_shows hv h hstep
    refine ih hshows (fun s hs => ?_) hrun
    cases e with
    | store cluster value =>
      cases r with
      | done =>
        rcases hs with rfl | hs
        · exact v.sectorOf_lt (hstore cluster value rfl rfl)
        · exact hst s hs
      | failed | value => exact hst s hs
    | load | flush | sync => exact hst s hs

end

/-- **A successful sync is complete** when it sees what is dirty and every FAT is one it
writes: after any history of calls, with any device calls failing. -/
theorem sync_complete (env : Answers) (v : Volume) (dev : Device) (es : List FatEvent)
    (rs : List Result) (c : FatCache) (alloc : Bool) (allocCursor : UInt32)
    (hv : v.Placed) (hcopies : v.numFats.toNat ≤ v.copies)
    (hrun : fatRun env v (.mounted dev) es = some (rs, c)) (hseen : c.RangeSeen)
    (hok : (fat32Sync env v c alloc allocCursor).1 = true) :
    Synced v dev es rs (fat32Sync env v c alloc allocCursor).2 := by
  have hshows := fatRun_shows hv es (shows_mounted v dev) hrun
  obtain ⟨hw, hclean⟩ := fat32Sync_spec env hv hshows alloc allocCursor
  refine ⟨hclean hok hseen, fun s hs f hf => ?_⟩
  have hlt := storedOver_lt hv es (shows_mounted v dev) (fun _ h => h.elim) hrun s hs
  refine (hshows.writesBack hw).disk s hlt (fun i hi hd => ?_) f (by omega) (.inr hs)
  rw [hclean hok hseen i hi] at hd
  cases hd

theorem sync_complete_tiny :
    tinyVolume.Placed ∧
    ∃ rs c, fatRun (fun _ => .ok) tinyVolume (.mounted blankDevice) [.store 2 7] = some (rs, c) ∧
      c.RangeSeen ∧ (fat32Sync (fun _ => .ok) tinyVolume c true 3).1 = true ∧
      Synced tinyVolume blankDevice [.store 2 7] rs
        (fat32Sync (fun _ => .ok) tinyVolume c true 3).2 := by
  refine ⟨by decide, _, _, rfl, by decide, rfl, ?_⟩
  exact sync_complete _ tinyVolume blankDevice [.store 2 7] _ _ true 3 (by decide) (by decide) rfl
    (by decide) rfl

/-- The second device call, the write of the first sync, fails. -/
def secondFails : Answers := fun n => if n = 1 then .fail fun _ _ => 0 else .ok

/-- A store, a sync whose write fails, and a sync that succeeds without writing: the
store is on no copy of the FAT. -/
theorem sync_after_failure :
    ∃ rs c, fatRun secondFails tinyVolume (.mounted blankDevice) [.store 2 7, .sync true 3] =
        some (rs, c) ∧
      (fat32Sync secondFails tinyVolume c true 3).1 = true ∧
      ¬ Synced tinyVolume blankDevice [.store 2 7, .sync true 3] rs
        (fat32Sync secondFails tinyVolume c true 3).2 := by
  refine ⟨_, _, rfl, rfl, fun h => ?_⟩
  exact absurd (h.clean 0 (by decide)) (by decide)

end InDevOS.Fat32
