import InDevOS.Mem.Frames

/-! A frame allocator that keeps its free frames in a list: the laws of `Lawful` have a
model, and runs over it can be evaluated. -/
namespace InDevOS.Mem

structure FreeList where
  free : List UInt64
  live : List UInt64

def freeListPages : UInt64 := 64

def freeList : FrameAllocator FreeList where
  alloc s :=
    match s.free with
    | [] => none
    | p :: free => some (p, ⟨free, p :: s.live⟩)
  free s p := if p ∈ s.live then ⟨p :: s.free, s.live.erase p⟩ else s
  kind s p := if p ∈ s.live then 1 else if p ∈ s.free then -1 else 0
  maxPhysPages := freeListPages

/-- A frame the allocator may hold. -/
def FreeList.Frame (p : UInt64) : Prop := Aligned p ∧ p ≠ 0 ∧ p / pageSize < freeListPages

instance (p : UInt64) : Decidable (FreeList.Frame p) :=
  inferInstanceAs (Decidable (p &&& pteAddrMask = p ∧ p ≠ 0 ∧ p / pageSize < freeListPages))

structure FreeList.Inv (s : FreeList) : Prop where
  nodup : (s.free ++ s.live).Nodup
  frames : ∀ p ∈ s.free ++ s.live, FreeList.Frame p

theorem FreeList.Inv.live_iff {s : FreeList} (h : s.Inv) (p : UInt64) : freeList.Live s p ↔ p ∈ s.live := by
  have hal : p ∈ s.live → Aligned p := fun hp => (h.frames p (by simp [hp])).1
  unfold FrameAllocator.Live freeList
  dsimp only
  split_ifs <;> simp_all

theorem FreeList.Inv.perm {s s' : FreeList} (h : s.Inv) (hp : (s'.free ++ s'.live).Perm (s.free ++ s.live)) :
    s'.Inv :=
  ⟨hp.nodup_iff.mpr h.nodup, fun p hmem => h.frames p (hp.mem_iff.mp hmem)⟩

theorem freeList_alloc {s s' : FreeList} {p : UInt64} (h : freeList.alloc s = some (p, s')) :
    s.free = p :: s'.free ∧ s'.live = p :: s.live := by
  unfold freeList at h
  dsimp only at h
  split at h
  · simp at h
  · rename_i q free hq
    obtain ⟨rfl, rfl⟩ := h
    exact ⟨hq, rfl⟩

theorem freeList_free {s : FreeList} {p : UInt64} (h : p ∈ s.live) :
    freeList.free s p = ⟨p :: s.free, s.live.erase p⟩ := if_pos h

theorem FreeList.Inv.alloc {s s' : FreeList} {p : UInt64} (h : s.Inv) (ha : freeList.alloc s = some (p, s')) :
    s'.Inv := by
  obtain ⟨h₁, h₂⟩ := freeList_alloc ha
  refine h.perm ?_
  rw [h₁, h₂]
  exact List.perm_middle

theorem FreeList.Inv.release {s : FreeList} {p : UInt64} (h : s.Inv) (hmem : p ∈ s.live) :
    (freeList.free s p).Inv := by
  rw [freeList_free hmem]
  refine h.perm ?_
  show (p :: s.free ++ s.live.erase p).Perm _
  exact List.perm_middle.symm.trans ((List.perm_cons_erase hmem).symm.append_left s.free)

def freeListLawful : Lawful freeList where
  Inv := FreeList.Inv
  Managed p := p / pageSize < freeListPages
  live_frame := by
    intro s p hs hl
    have hmem := (hs.live_iff p).mp hl
    have hf := hs.frames p (List.mem_append.mpr (.inr hmem))
    exact ⟨hf.2.1, hf.2.2, hf.2.2⟩
  alloc_inv hs ha := hs.alloc ha
  alloc_fresh := by
    intro s s' p hs ha hl
    obtain ⟨h₁, -⟩ := freeList_alloc ha
    have hn := hs.nodup
    rw [h₁, List.cons_append] at hn
    exact (List.nodup_cons.mp hn).1 (List.mem_append.mpr (.inr ((hs.live_iff p).mp hl)))
  alloc_live := by
    intro s s' p hs ha q
    rw [(hs.alloc ha).live_iff, hs.live_iff, (freeList_alloc ha).2, List.mem_cons]
  free_inv hs hl := hs.release ((hs.live_iff _).mp hl)
  free_live := by
    intro s p hs hl q
    have hmem := (hs.live_iff p).mp hl
    have hn : s.live.Nodup := (List.nodup_append.mp hs.nodup).2.1
    rw [(hs.release hmem).live_iff, hs.live_iff, freeList_free hmem]
    exact hn.mem_erase_iff
  kind_le := by
    intro s p
    unfold freeList
    dsimp only
    split_ifs <;> decide

/-- Fifteen free frames. -/
def fewFrames : FreeList :=
  ⟨[0x1000, 0x2000, 0x3000, 0x4000, 0x5000, 0x6000, 0x7000, 0x8000, 0x9000, 0xA000, 0xB000,
    0xC000, 0xD000, 0xE000, 0xF000], []⟩

/-- Memory that is zero everywhere. -/
def blank : UInt64 → Page := fun _ _ => 0

theorem fewFrames_inv : fewFrames.Inv := by
  have hall : (fewFrames.free ++ fewFrames.live).all (fun p => decide (FreeList.Frame p)) = true := by
    decide
  exact ⟨by decide, fun p hp => of_decide_eq_true (List.all_eq_true.mp hall p hp)⟩

end InDevOS.Mem
