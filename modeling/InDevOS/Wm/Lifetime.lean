import InDevOS.Lib.Steps
import InDevOS.Wm.Surfaces

/-! When the memory of window surfaces goes back to the kernel.

The invariant (`Kept`) is about the address spaces, the heap and the surfaces: what a running
process maps is allocated memory, and whoever maps a page of a surface does so inside the
mapping that is recorded for it. Only freeing needs a condition: the surfaces a step frees are
mapped by no process but the one it unmaps them from (`Spares`).

Every state of a run is sound exactly if all its steps meet the condition
(`surfaces_unmapped_iff`). -/
namespace InDevOS.Wm
open Lib Function List

/-! ### The rule -/

section
variable (procs : Nat → Option Proc)

/-- A running process maps page `va` to frame `f`. -/
def Maps (p va f : Nat) : Prop :=
  ∃ pr, procs p = some pr ∧ pr.running = true ∧ pr.space va = some f

/-- What running processes map is allocated. -/
def Backed (heap : Finset Block) : Prop :=
  ∀ p va f, Maps procs p va f → ∃ b ∈ heap, b.Has f

/-- Only process `p`, and only if its table is the recorded one, maps pages of the surface. -/
def MappedBy (p : Nat) (pml4 : Option Nat) (sf : Surf) : Prop :=
  ∀ q va f, Maps procs q va f → sf.block.Has f → q = p ∧ unmaps pml4 sf = true

end

/-- The surfaces that process `p` frees are mapped nowhere else. -/
def Spares (s : Sys) (p : Nat) (pr : Proc) (ownerGone : Bool) (sfs : List Surf) : Prop :=
  ∀ sf ∈ sfs, (unmaps pr.pml4 sf || ownerGone) = true → MappedBy s.procs p pr.pml4 sf

structure Kept (procs : Nat → Option Proc) (heap : Finset Block) (sfs : List Surf) : Prop where
  backed : Backed procs heap
  apart : ∀ b ∈ heap, ∀ b' ∈ heap, b ≠ b' → b.Apart b'
  owned : ∀ sf ∈ sfs, sf.block ∈ heap
  distinct : sfs.Pairwise fun a b => a.block ≠ b.block
  recorded : ∀ sf ∈ sfs, ∀ p va f, Maps procs p va f → sf.block.Has f →
    ∃ m, sf.mapping = some m ∧ m.va ≤ va ∧ va < m.va + m.pages

def Sys.Kept (s : Sys) : Prop := Wm.Kept s.procs s.heap s.surfs

theorem Block.Apart.not_has {b b' : Block} (h : b.Apart b') {f : Nat} (hb : b.Has f) : ¬ b'.Has f := by
  intro hb'
  obtain ⟨h₁, h₂⟩ := hb
  obtain ⟨h₃, h₄⟩ := hb'
  rcases h with h | h <;> omega

section Kept
variable {procs procs' : Nat → Option Proc} {heap : Finset Block} {sfs sfs' : List Surf}

theorem Kept.mono (h : Kept procs heap sfs)
    (hmaps : ∀ p va f, Maps procs' p va f → ∃ q, Maps procs q va f) : Kept procs' heap sfs where
  backed p va f hm := by
    obtain ⟨q, hq⟩ := hmaps p va f hm
    exact h.backed q va f hq
  apart := h.apart
  owned := h.owned
  distinct := h.distinct
  recorded sf hsf p va f hm := by
    obtain ⟨q, hq⟩ := hmaps p va f hm
    exact h.recorded sf hsf q va f hq

theorem Kept.perm (h : Kept procs heap sfs) (hp : sfs.Perm sfs') : Kept procs heap sfs' where
  backed := h.backed
  apart := h.apart
  owned sf hsf := h.owned sf (hp.mem_iff.mpr hsf)
  distinct := (hp.pairwise_iff fun hab => Ne.symm hab).mp h.distinct
  recorded sf hsf := h.recorded sf (hp.mem_iff.mpr hsf)

theorem Kept.sublist (h : Kept procs heap sfs) (hsub : sfs'.Sublist sfs) : Kept procs heap sfs' where
  backed := h.backed
  apart := h.apart
  owned sf hsf := h.owned sf (hsub.subset hsf)
  distinct := h.distinct.sublist hsub
  recorded sf hsf := h.recorded sf (hsub.subset hsf)

theorem Block.Apart.symm {b b' : Block} (h : b.Apart b') : b'.Apart b := Or.symm h

theorem Block.Apart.ne {b b' : Block} (h : b.Apart b') (hb : b.frames ≠ 0) : b ≠ b' := by
  rintro rfl
  rcases h with h | h <;> omega

/-- A block that was not given out has no frame that is mapped. -/
theorem Kept.alloc (h : Kept procs heap sfs) {sf : Surf} (hfresh : ∀ b ∈ heap, sf.block.Apart b)
    (hpos : sf.block.frames ≠ 0) : Kept procs (insert sf.block heap) (sf :: sfs) where
  backed p va f hm := by
    obtain ⟨b, hb, hf⟩ := h.backed p va f hm
    exact ⟨b, Finset.mem_insert_of_mem hb, hf⟩
  apart b hb b' hb' hne := by
    rcases Finset.mem_insert.mp hb with rfl | hb <;> rcases Finset.mem_insert.mp hb' with rfl | hb'
    · exact absurd rfl hne
    · exact hfresh b' hb'
    · exact (hfresh b hb).symm
    · exact h.apart b hb b' hb' hne
  owned a ha := by
    rcases mem_cons.mp ha with rfl | ha
    · exact Finset.mem_insert_self _ _
    · exact Finset.mem_insert_of_mem (h.owned a ha)
  distinct := pairwise_cons.mpr
    ⟨fun a ha => (hfresh a.block (h.owned a ha)).ne hpos, h.distinct⟩
  recorded a ha p va f hm hf := by
    rcases mem_cons.mp ha with rfl | ha
    · obtain ⟨b, hb, hf'⟩ := h.backed p va f hm
      exact absurd hf' ((hfresh b hb).not_has hf)
    · exact h.recorded a ha p va f hm hf

end Kept

/-! ### Freeing -/

section Free
variable {pml4 : Option Nat} {gone : Bool}

theorem surfFree_heap (mem : Space × Finset Block) (sf : Surf) :
    (surfFree pml4 gone mem sf).2 = if (unmaps pml4 sf || gone) = true then mem.2.erase sf.block else mem.2 := by
  unfold surfFree unmapSurface
  cases unmaps pml4 sf <;> rfl

theorem surfFree_space (mem : Space × Finset Block) (sf : Surf) (va : Nat) :
    (surfFree pml4 gone mem sf).1 va =
      if (unmaps pml4 sf && isSurfPage sf va (mem.1 va)) = true then none else mem.1 va := by
  unfold surfFree unmapSurface
  cases unmaps pml4 sf <;> rfl

theorem mem_freed_heap (sfs : List Surf) (mem : Space × Finset Block) (b : Block) :
    b ∈ (sfs.foldl (surfFree pml4 gone) mem).2 ↔
      b ∈ mem.2 ∧ ∀ sf ∈ sfs, (unmaps pml4 sf || gone) = true → sf.block ≠ b := by
  induction sfs generalizing mem with
  | nil => simp
  | cons sf sfs ih =>
    rw [foldl_cons, ih, surfFree_heap, forall_mem_cons, ← and_assoc]
    refine and_congr_left fun _ => ?_
    split_ifs with hfree
    · simp [hfree, and_comm, eq_comm]
    · simp [hfree]

theorem freed_space (sfs : List Surf) (mem : Space × Finset Block) (va f : Nat) :
    (sfs.foldl (surfFree pml4 gone) mem).1 va = some f ↔
      mem.1 va = some f ∧ ∀ sf ∈ sfs, (unmaps pml4 sf && isSurfPage sf va (some f)) = false := by
  induction sfs generalizing mem with
  | nil => simp
  | cons sf sfs ih =>
    rw [foldl_cons, ih, surfFree_space, forall_mem_cons, ← and_assoc]
    refine and_congr_left fun _ => ?_
    rw [Option.ite_none_left_eq_some, Bool.not_eq_true, and_comm]
    exact and_congr_right fun h => by rw [h]

theorem isSurfPage_iff {sf : Surf} {va f : Nat} :
    isSurfPage sf va (some f) = true ↔
      (∃ m, sf.mapping = some m ∧ m.va ≤ va ∧ va < m.va + m.pages) ∧ sf.block.Has f := by
  unfold isSurfPage
  rw [Bool.and_eq_true, Option.any_some, decide_eq_true_eq, Option.any_eq_true]
  simp only [Bool.and_eq_true, decide_eq_true_eq]

end Free

section Teardown
variable {s : Sys} {p : Nat} {pr : Proc} {gone : Bool} {sfs : List Surf} {wins : List Win}

/-- A mapping after surfaces were freed was one before, and none of a page that was unmapped. -/
theorem maps_teardown_iff (hp : s.procs p = some pr) {q va f : Nat} :
    Maps (s.teardown p pr gone sfs wins).procs q va f ↔
      Maps s.procs q va f ∧
        (q = p → ∀ sf ∈ sfs, (unmaps pr.pml4 sf && isSurfPage sf va (some f)) = false) := by
  rcases eq_or_ne q p with rfl | hq
  · have hself : (s.teardown q pr gone sfs wins).procs q =
        some { pr with space := (sfs.foldl (surfFree pr.pml4 gone) (pr.space, s.heap)).1 } :=
      update_self ..
    constructor
    · rintro ⟨pr', hpr', hrun, hva⟩
      rw [hself] at hpr'
      obtain rfl := Option.some.inj hpr'
      obtain ⟨hva, hpage⟩ := (freed_space sfs _ va f).mp hva
      exact ⟨⟨pr, hp, hrun, hva⟩, fun _ => hpage⟩
    · rintro ⟨⟨pr', hpr', hrun, hva⟩, hpage⟩
      obtain rfl := Option.some.inj (hp.symm.trans hpr')
      exact ⟨_, hself, hrun, (freed_space sfs _ va f).mpr ⟨hva, hpage rfl⟩⟩
  · have hother : (s.teardown p pr gone sfs wins).procs q = s.procs q := update_of_ne hq ..
    simp [Maps, hother, hq]

section
variable {rest : List Surf} (h : Kept s.procs s.heap (sfs ++ rest)) (hp : s.procs p = some pr)
include h hp

theorem Kept.teardown (hspare : Spares s p pr gone sfs) :
    Kept (s.teardown p pr gone sfs wins).procs (s.teardown p pr gone sfs wins).heap rest := by
  have hheap : ∀ b, b ∈ (s.teardown p pr gone sfs wins).heap ↔ _ :=
    fun b => mem_freed_heap sfs (pr.space, s.heap) b
  have hmono : Kept (s.teardown p pr gone sfs wins).procs s.heap rest :=
    (h.sublist (sublist_append_right sfs rest)).mono
      fun q va f hm => ⟨q, ((maps_teardown_iff hp).mp hm).1⟩
  refine ⟨fun q va f hm => ?_, fun b hb b' hb' => ?_, fun sf hsf => ?_, hmono.distinct, hmono.recorded⟩
  · obtain ⟨hold, hpage⟩ := (maps_teardown_iff hp).mp hm
    obtain ⟨b, hb, hf⟩ := h.backed q va f hold
    refine ⟨b, (hheap b).mpr ⟨hb, fun sf hsf hfree heq => ?_⟩, hf⟩
    -- The block of a freed surface: the page was one of the caller's, and it is unmapped.
    rw [← heq] at hf
    obtain ⟨hq, hun⟩ := hspare sf hsf hfree q va f hold hf
    have hrec := h.recorded sf (mem_append_left rest hsf) q va f hold hf
    have hcleared := hpage hq sf hsf
    rw [hun, Bool.true_and] at hcleared
    simp [isSurfPage_iff.mpr ⟨hrec, hf⟩] at hcleared
  · exact h.apart b ((hheap b).mp hb).1 b' ((hheap b').mp hb').1
  · refine (hheap sf.block).mpr ⟨h.owned sf (mem_append_right sfs hsf), fun a ha _ => ?_⟩
    exact (pairwise_append.mp h.distinct).2.2 a ha sf hsf

/-- Freeing a surface that somebody else maps leaves a mapping of memory that was given back. -/
theorem Kept.spares_of_backed (hb : Backed (s.teardown p pr gone sfs wins).procs (s.teardown p pr gone sfs wins).heap) :
    Spares s p pr gone sfs := by
  intro sf hsf hfree q va f hm hf
  by_contra hno
  have hmem : sf.block ∈ s.heap := h.owned sf (mem_append_left rest hsf)
  -- The page survives: another surface's pages have other frames.
  have hm' : Maps (s.teardown p pr gone sfs wins).procs q va f := by
    refine (maps_teardown_iff hp).mpr ⟨hm, fun hq a ha => ?_⟩
    by_contra hpage
    rw [Bool.not_eq_false, Bool.and_eq_true, isSurfPage_iff] at hpage
    obtain ⟨hun, -, hfa⟩ := hpage
    by_cases heq : a.block = sf.block
    · have hself : a = sf := by
        by_contra hne
        have : Std.Symm fun a b : Surf => a.block ≠ b.block := ⟨fun _ _ => Ne.symm⟩
        exact (pairwise_append.mp h.distinct).1.forall ha hsf hne heq
      exact hno ⟨hq, hself ▸ hun⟩
    · exact (h.apart _ (h.owned a (mem_append_left rest ha)) _ hmem heq).not_has hfa hf
  obtain ⟨b, hb', hfb⟩ := hb q va f hm'
  obtain ⟨hbheap, hleft⟩ := (mem_freed_heap sfs _ b).mp hb'
  exact (h.apart _ hmem b hbheap (hleft sf hsf hfree)).not_has hf hfb

end

end Teardown

/-! ### Windows and their surfaces -/

section Windows
variable {wins : List Win} {test : Win → Bool} {win : Win}

theorem perm_of_find (h : wins.find? test = some win) : wins.Perm (win :: wins.eraseP test) := by
  obtain ⟨htest, before, after, rfl, hbefore⟩ := find?_eq_some_iff_append.mp h
  have hno : ∀ w ∈ before, ¬ test w = true := fun w hw => by simpa using hbefore w hw
  rw [eraseP_append_right _ hno, eraseP_cons_of_pos htest]
  exact perm_middle

theorem surfs_perm_of_find (h : wins.find? test = some win) :
    (wins.flatMap Win.surfs).Perm (win.surfs ++ (wins.eraseP test).flatMap Win.surfs) :=
  (perm_of_find h).flatMap_right Win.surfs

end Windows

/-! ### Steps -/

/-- What a step has to spare. -/
def Allowed (s : Sys) : Op → Prop
  | .resizeAck p h id w hh shown mem => ∀ pr win sf, s.procs p = some pr → pr.running = true → h ∈ pr.fds →
    ¬ (w = 0 ∨ hh = 0 ∨ maxSize < w ∨ maxSize < hh) → s.wins.find? (isWin h id) = some win →
    ackSurf s w hh shown mem = .ok sf → Spares s p pr false win.old.toList
  | .destroy p h id => ∀ pr win, s.procs p = some pr → pr.running = true → h ∈ pr.fds →
    s.wins.find? (isWin h id) = some win → Spares s p pr false win.surfs
  | .close p h => ∀ pr c, s.procs p = some pr → h ∈ pr.fds → s.conns h = some c → c.refCount ≤ 1 →
    Spares s p pr (ownerGone s p pr c) ((s.wins.filter fun w => w.conn = h).flatMap Win.surfs)
  | _ => True

section Callers
variable {s : Sys} {p h : Nat} {pr : Proc} {f : Proc → Sys}

theorem Sys.by_eq (hp : s.procs p = some pr) (hrun : pr.running = true) : s.by p f = f pr := by
  simp [Sys.by, hp, hrun]

theorem Sys.on_eq (hp : s.procs p = some pr) (hrun : pr.running = true) (hh : h ∈ pr.fds) :
    s.on p h f = f pr := by
  rw [Sys.on, Sys.by_eq hp hrun, if_pos hh]

theorem Sys.Kept.by (hs : s.Kept) (hf : ∀ pr, s.procs p = some pr → pr.running = true → (f pr).Kept) :
    (s.by p f).Kept := by
  unfold Sys.by
  cases hp : s.procs p with
  | none => exact hs
  | some pr =>
    dsimp only
    split_ifs with hrun
    · exact hf pr hp hrun
    · exact hs

theorem Sys.Kept.on (hs : s.Kept)
    (hf : ∀ pr, s.procs p = some pr → pr.running = true → h ∈ pr.fds → (f pr).Kept) : (s.on p h f).Kept := by
  refine hs.by fun pr hp hrun => ?_
  split_ifs with hh
  · exact hf pr hp hrun hh
  · exact hs

theorem maps_update {procs : Nat → Option Proc} {q va fr : Nat}
    (hm : Maps (update procs p (some pr)) q va fr) :
    Maps procs q va fr ∨ q = p ∧ pr.running = true ∧ pr.space va = some fr := by
  obtain ⟨pr', hpr', hrun, hva⟩ := hm
  rcases eq_or_ne q p with rfl | hq
  · rw [update_self] at hpr'
    obtain rfl := Option.some.inj hpr'
    exact .inr ⟨rfl, hrun, hva⟩
  · rw [update_of_ne hq] at hpr'
    exact .inl ⟨pr', hpr', hrun, hva⟩

theorem Sys.Kept.setProc (hs : s.Kept) {q : Nat} {pr' : Proc} (hp : s.procs q = some pr)
    (hspace : pr'.running = true → ∀ va fr, pr'.space va = some fr → pr.running = true ∧ pr.space va = some fr) :
    (s.setProc p pr').Kept := by
  refine Wm.Kept.mono hs fun x va fr hm => ?_
  rcases maps_update hm with hm | ⟨-, hrun, hva⟩
  · exact ⟨x, hm⟩
  · exact ⟨q, pr, hp, hspace hrun va fr hva⟩

end Callers

section Alloc
variable {s : Sys} {w hh : Nat} {mem : Option Nat} {sf : Surf}

theorem surfAlloc_some (h : surfAlloc s w hh mem = some sf) :
    (∀ b ∈ s.heap, sf.block.Apart b) ∧ sf.w = w ∧ sf.h = hh ∧ sf.mapping = none := by
  obtain ⟨m, -, h⟩ := Option.bind_eq_some_iff.mp h
  obtain ⟨hfresh, h⟩ := Option.ite_none_right_eq_some.mp h
  obtain rfl := Option.some.inj h
  exact ⟨hfresh, rfl, rfl, rfl⟩

theorem frames_ne_zero (hw : 0 < sf.w) (hh : 0 < sf.h) : sf.block.frames ≠ 0 := by
  have hpos : 0 < sf.w * sf.h := Nat.mul_pos hw hh
  show (sf.w * 4 * sf.h + 4095) / 4096 * 4096 * 2 / 4096 ≠ 0
  have hassoc : sf.w * 4 * sf.h = sf.w * sf.h * 4 := Nat.mul_right_comm ..
  omega

theorem Kept.surfAlloc {sfs : List Surf} (hs : Kept s.procs s.heap sfs)
    (hsize : ¬ (w = 0 ∨ hh = 0 ∨ maxSize < w ∨ maxSize < hh)) (h : surfAlloc s w hh mem = some sf) :
    Kept s.procs (insert sf.block s.heap) (sf :: sfs) := by
  obtain ⟨hfresh, rfl, rfl, -⟩ := surfAlloc_some h
  exact hs.alloc hfresh (frames_ne_zero (by omega) (by omega))

end Alloc

theorem unmapRange_some {space : Space} {va n x f : Nat} (h : unmapRange space va n x = some f) :
    space x = some f := (Option.ite_none_left_eq_some.mp h).2

section Map
variable {procs : Nat → Option Proc} {heap : Finset Block} {sf : Surf} {sfs : List Surf} {p : Nat} {pr : Proc}

theorem Kept.map (h : Kept procs heap (sf :: sfs)) (hnone : sf.mapping = none) (hp : procs p = some pr)
    (hrun : pr.running = true) {m : Mapping} {f₀ : Nat} (hin : ∀ x < m.pages, sf.block.Has (f₀ + x)) :
    Kept (update procs p (some { pr with space := mapRange pr.space m.va f₀ m.pages })) heap
      ({ sf with mapping := some m } :: sfs) := by
  obtain ⟨hhead, htail⟩ := pairwise_cons.mp h.distinct
  have hmem := h.owned sf mem_cons_self
  -- A page that is mapped now: a page mapped before, or one of the new mapping.
  have hcases : ∀ {q va f}, Maps (update procs p
      (some { pr with space := mapRange pr.space m.va f₀ m.pages })) q va f →
      (∃ x, Maps procs x va f) ∨ (m.va ≤ va ∧ va < m.va + m.pages) ∧ sf.block.Has f := by
    intro q va f hm
    rcases maps_update hm with hm | ⟨-, -, hva⟩
    · exact .inl ⟨q, hm⟩
    · change (if m.va ≤ va ∧ va < m.va + m.pages then some (f₀ + (va - m.va)) else pr.space va) = some f at hva
      split_ifs at hva with hr
      · obtain rfl := Option.some.inj hva
        exact .inr ⟨hr, hin _ (by omega)⟩
      · exact .inl ⟨p, pr, hp, hrun, hva⟩
  refine ⟨fun q va f hm => ?_, h.apart, fun a ha => ?_, pairwise_cons.mpr ⟨hhead, htail⟩,
    fun a ha q va f hm hf => ?_⟩
  · rcases hcases hm with ⟨x, hm⟩ | ⟨-, hf⟩
    · exact h.backed x va f hm
    · exact ⟨sf.block, hmem, hf⟩
  · rcases mem_cons.mp ha with rfl | ha
    · exact hmem
    · exact h.owned a (mem_cons_of_mem sf ha)
  · rcases mem_cons.mp ha with rfl | ha <;> rcases hcases hm with ⟨x, hm⟩ | ⟨hr, hf'⟩
    · obtain ⟨m', hm', -⟩ := h.recorded sf mem_cons_self x va f hm hf
      simp [hnone] at hm'
    · exact ⟨m, rfl, hr⟩
    · exact h.recorded a (mem_cons_of_mem sf ha) x va f hm hf
    · have hapart := h.apart _ hmem _ (h.owned a (mem_cons_of_mem sf ha)) (hhead a ha)
      exact absurd hf (hapart.not_has hf')

end Map

theorem Surf.has_of_sub {sf : Surf} {sub len : Nat} (hsub : sub % 4096 = 0) (hlt : ¬ sf.len ≤ sub)
    (hlen : ¬ sf.len - sub < len) {x : Nat} (hx : x < (len + 4095) / 4096) :
    sf.block.Has (sf.mem + sub / 4096 + x) := by
  have hk : sf.len = (sf.stride * sf.h + 4095) / 4096 * 8192 := by
    show (sf.stride * sf.h + 4095) / 4096 * 4096 * 2 = _
    omega
  show sf.mem ≤ _ ∧ _ < sf.mem + sf.len / 4096
  omega

section Steps
variable {s : Sys} {p h : Nat} {pr : Proc}

theorem doCreate_kept (hs : s.Kept) (w hh type : Nat) (mem desk : Option Nat) :
    (doCreate s h w hh type mem desk).2.Kept := by
  unfold doCreate
  split_ifs with hsize
  · exact hs
  · exact hs
  · split
    · exact hs
    · split
      · rename_i halloc
        exact hs.surfAlloc hsize halloc
      · exact hs

section
variable (hs : s.Kept) (hp : s.procs p = some pr)
include hs hp

theorem mmapSurf_kept (hrun : pr.running = true) {slot sub len : Nat}
    {win : Win} (hwin : s.wins.find? (atSlot h slot) = some win) (hsub : sub % 4096 = 0)
    (hlt : ¬ (win.cur.len ≤ sub ∨ win.cur.len - sub < len)) (hnone : win.cur.mapping = none) (place : Nat)
    (undone : Option Nat) : (mmapSurf s p pr h slot sub len win place undone).2.Kept := by
  rw [not_or] at hlt
  unfold mmapSurf
  split
  · rename_i pml4 hpml4
    -- The window's current surface to the front, and back.
    have hperm := surfs_perm_of_find hwin
    have hfront : s.surfs.Perm (win.cur :: (win.old.toList ++ (s.wins.eraseP (atSlot h slot)).flatMap Win.surfs)) := by
      refine hperm.trans ?_
      unfold Win.surfs
      rw [append_assoc]
      exact perm_middle
    have hmap := (Kept.perm hs hfront).map (m := ⟨place, (len + 4095) / 4096, pml4⟩) hnone hp hrun
      (fun x hx => Surf.has_of_sub hsub hlt.1 hlt.2 hx)
    refine Kept.perm hmap ?_
    show List.Perm _ ((win.old.toList ++ [_]) ++ _)
    rw [append_assoc]
    exact perm_middle.symm
  · exact hs.setProc hp fun hrun' va f hva => ⟨hrun', unmapRange_some hva⟩
  · exact hs

theorem wmDevMmap_kept (hrun : pr.running = true) (off : Int)
    (len place : Nat) (undone : Option Nat) : (wmDevMmap s p pr h off len place undone).2.Kept := by
  unfold wmDevMmap
  split
  · exact hs
  dsimp only
  split
  · exact hs
  · split
    · exact hs
    · rename_i win hwin
      split_ifs with _ hlt hbusy
      · exact hs
      · exact hs
      · exact hs
      · exact mmapSurf_kept hs hp hrun hwin (by omega) hlt (by simpa using hbusy) place undone

theorem doDestroy_kept {id : Nat}
    (hspare : ∀ win, s.wins.find? (isWin h id) = some win → Spares s p pr false win.surfs) :
    (doDestroy s p pr h id).2.Kept := by
  unfold doDestroy
  cases hwin : s.wins.find? (isWin h id) with
  | none => exact hs
  | some win => exact (Kept.perm hs (surfs_perm_of_find hwin)).teardown hp (hspare win hwin)

end

theorem ackSurf_ok {w hh : Nat} {shown : Bool} {mem : Option Nat} {sf : Surf}
    (h : ackSurf s w hh shown mem = .ok sf) : surfAlloc s w hh mem = some sf := by
  unfold ackSurf at h
  split at h
  · cases h
  · split at h
    · cases h
    · rename_i halloc
      rw [halloc, Except.ok.inj h]

/-- The new surface in, the one before the previous out. -/
theorem ack_perm {wins : List Win} {id : Nat} {win : Win} (hwin : wins.find? (isWin h id) = some win) (sf : Surf) :
    (sf :: wins.flatMap Win.surfs).Perm (win.old.toList ++
      ({ win with old := some win.cur, cur := sf, gen := win.gen + 1 } :: wins.eraseP (isWin h id)).flatMap
        Win.surfs) := by
  refine ((surfs_perm_of_find hwin).cons sf).trans ?_
  show List.Perm (sf :: ((win.old.toList ++ [win.cur]) ++ _)) (win.old.toList ++ (([win.cur] ++ [sf]) ++ _))
  rw [append_assoc]
  refine perm_middle.symm.trans (List.Perm.append_left _ ?_)
  exact List.Perm.swap ..

theorem doResizeAck_eq {id w hh : Nat} {shown : Bool} {mem : Option Nat} {win : Win} {sf : Surf}
    (hsize : ¬ (w = 0 ∨ hh = 0 ∨ maxSize < w ∨ maxSize < hh)) (hwin : s.wins.find? (isWin h id) = some win)
    (hack : ackSurf s w hh shown mem = .ok sf) :
    (doResizeAck s p pr h id w hh shown mem).2 =
      { s with heap := insert sf.block s.heap }.teardown p pr false win.old.toList
        ({ win with old := some win.cur, cur := sf, gen := win.gen + 1 } :: s.wins.eraseP (isWin h id)) := by
  simp only [doResizeAck, if_neg hsize, hwin, hack]

theorem doResizeAck_kept (hs : s.Kept) (hp : s.procs p = some pr) {id w hh : Nat} {shown : Bool} {mem : Option Nat}
    (hspare : ∀ win sf, ¬ (w = 0 ∨ hh = 0 ∨ maxSize < w ∨ maxSize < hh) → s.wins.find? (isWin h id) = some win →
      ackSurf s w hh shown mem = .ok sf → Spares s p pr false win.old.toList) :
    (doResizeAck s p pr h id w hh shown mem).2.Kept := by
  by_cases hsize : w = 0 ∨ hh = 0 ∨ maxSize < w ∨ maxSize < hh
  · simpa only [doResizeAck, if_pos hsize]
  · cases hwin : s.wins.find? (isWin h id) with
    | none => simpa only [doResizeAck, if_neg hsize, hwin]
    | some win =>
      cases hack : ackSurf s w hh shown mem with
      | error e => simpa only [doResizeAck, if_neg hsize, hwin, hack]
      | ok sf =>
        rw [doResizeAck_eq hsize hwin hack]
        have halloc := Kept.surfAlloc hs hsize (ackSurf_ok hack)
        have hbefore : Kept { s with heap := insert sf.block s.heap }.procs (insert sf.block s.heap) _ :=
          halloc.perm (ack_perm hwin sf)
        exact hbefore.teardown (s := { s with heap := insert sf.block s.heap }) hp (hspare win sf hsize hwin hack)

theorem release_perm (wins : List Win) (h : Nat) :
    (wins.flatMap Win.surfs).Perm ((wins.filter fun w => w.conn = h).flatMap Win.surfs ++
      (wins.filter fun w => w.conn ≠ h).flatMap Win.surfs) := by
  rw [← flatMap_append]
  refine List.Perm.flatMap_right _ ?_
  simpa only [decide_not] using (filter_append_perm (fun w : Win => decide (w.conn = h)) wins).symm

theorem freeFd_kept (hs : s.Kept) : (freeFd s p h).Kept := by
  unfold freeFd
  cases hp : s.procs p with
  | none => exact hs
  | some pr => exact hs.setProc hp fun hrun va f hva => ⟨hrun, hva⟩

theorem fdCloseEntry_kept (hs : s.Kept) (hp : s.procs p = some pr)
    (hspare : ∀ c, s.conns h = some c → c.refCount ≤ 1 →
      Spares s p pr (ownerGone s p pr c) ((s.wins.filter fun w => w.conn = h).flatMap Win.surfs)) :
    (fdCloseEntry s p pr h).Kept := by
  unfold fdCloseEntry
  cases hc : s.conns h with
  | none => exact freeFd_kept hs
  | some c =>
    dsimp only
    split
    · exact freeFd_kept hs
    · rename_i hlast
      refine freeFd_kept ?_
      show Kept (s.teardown p pr _ _ (s.wins.filter fun w => w.conn ≠ h)).procs _ _
      exact (Kept.perm hs (release_perm s.wins h)).teardown hp (hspare c hc (by omega))

theorem step_kept (hs : s.Kept) (op : Op) (hop : Allowed s op) : (step s op).Kept := by
  cases op with
  | connect p h =>
    refine hs.by fun pr hp _ => ?_
    split
    · exact hs
    · exact hs.setProc hp fun hrun va f hva => ⟨hrun, hva⟩
  | create p h w hh type mem desk => exact hs.on fun _ _ _ _ => doCreate_kept hs w hh type mem desk
  | mmap p h off len place undone =>
    exact hs.on fun pr hp hrun _ => wmDevMmap_kept hs hp hrun off len place undone
  | munmap p va n =>
    exact hs.by fun pr hp _ => hs.setProc hp fun hrun va f hva => ⟨hrun, unmapRange_some hva⟩
  | resizeAck p h id w hh shown mem =>
    exact hs.on fun pr hp hrun hh => doResizeAck_kept hs hp fun win sf hsize hwin hack =>
      hop pr win sf hp hrun hh hsize hwin hack
  | destroy p h id =>
    exact hs.on fun pr hp hrun hh => doDestroy_kept hs hp fun win hwin => hop pr win hp hrun hh hwin
  | share p q h =>
    refine hs.on fun _ _ _ _ => hs.by fun pr hp _ => ?_
    exact hs.setProc hp fun hrun va f hva => ⟨hrun, hva⟩
  | close p h =>
    show (sysClose s p h).Kept
    unfold sysClose
    cases hp : s.procs p with
    | none => exact hs
    | some pr =>
      dsimp only
      split
      · rename_i hh
        exact fdCloseEntry_kept hs hp fun c hc hlast => hop pr c hp hh hc hlast
      · exact hs
  | fork p q pml4 =>
    refine hs.by fun pr hp _ => ?_
    split
    · exact hs
    · exact hs.setProc hp fun hrun va f hva => ⟨hrun, hva⟩
  | exec p pml4 =>
    exact hs.by fun pr hp _ => hs.setProc hp fun _ va f hva => by simp at hva
  | die p torn =>
    refine hs.by fun pr hp _ => ?_
    split <;> exact hs.setProc hp (by simp)

theorem Backed.of_freeFd (hb : Backed (freeFd s p h).procs (freeFd s p h).heap) : Backed s.procs s.heap := by
  unfold freeFd at hb
  cases hp : s.procs p with
  | none =>
    rw [hp] at hb
    exact hb
  | some pr =>
    rw [hp] at hb
    intro q va f hm
    refine hb q va f ?_
    obtain ⟨pr', hpr', hrun, hva⟩ := hm
    rcases eq_or_ne q p with rfl | hq
    · obtain rfl := Option.some.inj (hp.symm.trans hpr')
      exact ⟨_, update_self .., hrun, hva⟩
    · exact ⟨pr', (update_of_ne hq ..).trans hpr', hrun, hva⟩

/-- A step after which all that is mapped is allocated meets its condition. -/
theorem allowed_of_backed (hs : s.Kept) (op : Op) (hb : Backed (step s op).procs (step s op).heap) :
    Allowed s op := by
  cases op with
  | resizeAck p h id w hh shown mem =>
    intro pr win sf hp hrun hmem hsize hwin hack
    have heq : step s (.resizeAck p h id w hh shown mem) = (doResizeAck s p pr h id w hh shown mem).2 :=
      Sys.on_eq hp hrun hmem
    rw [heq, doResizeAck_eq hsize hwin hack] at hb
    have hbefore := (Kept.surfAlloc hs hsize (ackSurf_ok hack)).perm (ack_perm hwin sf)
    exact Kept.spares_of_backed (s := { s with heap := insert sf.block s.heap }) hbefore hp hb
  | destroy p h id =>
    intro pr win hp hrun hmem hwin
    have heq : step s (.destroy p h id) = (doDestroy s p pr h id).2 := Sys.on_eq hp hrun hmem
    unfold doDestroy at heq
    rw [hwin] at heq
    rw [heq] at hb
    exact (Kept.perm hs (surfs_perm_of_find hwin)).spares_of_backed hp hb
  | close p h =>
    intro pr c hp hmem hc hlast
    have heq : step s (.close p h) = freeFd (wmDevRelease s p pr h c) p h := by
      simp [step, sysClose, hp, hmem, fdCloseEntry, hc, not_lt.mpr hlast]
    rw [heq] at hb
    have hrel : Backed (s.teardown p pr (ownerGone s p pr c) _ (s.wins.filter fun w => w.conn ≠ h)).procs _ :=
      hb.of_freeFd
    exact (Kept.perm hs (release_perm s.wins h)).spares_of_backed hp hrel
  | connect | create | mmap | munmap | share | fork | exec | die => trivial

end Steps

theorem start_kept (procs : Nat → Option Nat) : (start procs).Kept := by
  refine ⟨fun p va f hm => ?_, by simp [start], by simp [start, Sys.surfs], List.Pairwise.nil,
    by simp [start, Sys.surfs]⟩
  obtain ⟨pr, hpr, -, hva⟩ := hm
  obtain ⟨pml4, -, rfl⟩ := Option.map_eq_some_iff.mp hpr
  simp at hva

/-- **Surfaces go back unmapped.** In every state of a history the running processes map
allocated memory only (so a surface is given back while no running process maps a page of it),
exactly if every surface a step gives back is mapped by no process but the one the step
unmaps it from. -/
theorem surfaces_unmapped_iff (procs : Nat → Option Nat) (ops : List Op) :
    (∀ k, Backed ((ops.take k).foldl step (start procs)).procs ((ops.take k).foldl step (start procs)).heap) ↔
      Along step Allowed (start procs) ops := by
  have hgood : ∀ s : Sys, s.Kept → Backed s.procs s.heap := fun s hs => hs.backed
  have hkeep : ∀ s op, s.Kept → Allowed s op → (step s op).Kept := fun s op hs hop => step_kept hs op hop
  exact Along.iff_always hgood hkeep (fun s op hs hb => allowed_of_backed hs op hb) (start_kept procs) ops

/-- Only process 1 runs. -/
def alone : Sys := start fun p => if p = 1 then some 800 else none

/-- Process 1 opens the device, creates a window, maps its surface at page 0x20000, forks and
destroys the window. -/
def forkThenDestroy : List Op :=
  [.connect 1 100, .create 1 100 16 16 0 (some 50) (some 7), .mmap 1 100 0x10000000 8192 0x20000 none,
    .fork 1 2 900, .destroy 1 100 7]

/-- The child maps the surface and closes its descriptor, and the parent exits. -/
def childMaps : List Op :=
  [.connect 1 100, .create 1 100 16 16 0 (some 50) (some 7), .fork 1 2 900,
    .mmap 2 100 0x10000000 8192 0x20000 none, .close 2 100, .die 1 false, .close 1 100]

/-- Process 2 maps frame 50, and no memory is given out. -/
def mapsFreed (s : Sys) : Bool :=
  (s.procs 2).any (fun pr => pr.running && pr.space 0x20000 == some 50) && s.heap = ∅

theorem mapsFreed.not_backed {s : Sys} (h : mapsFreed s = true) : ¬ Backed s.procs s.heap := by
  intro hb
  unfold mapsFreed at h
  simp only [Bool.and_eq_true, Option.any_eq_true, beq_iff_eq, decide_eq_true_eq] at h
  obtain ⟨⟨pr, hpr, hrun, hva⟩, hnil⟩ := h
  obtain ⟨b, hbmem, -⟩ := hb 2 _ 50 ⟨pr, hpr, hrun, hva⟩
  simp [hnil] at hbmem

/-- Memory that the child maps goes back, after either history. -/
theorem mapped_surface_freed :
    ¬ Backed (forkThenDestroy.foldl step alone).procs (forkThenDestroy.foldl step alone).heap ∧
      ¬ Backed (childMaps.foldl step alone).procs (childMaps.foldl step alone).heap :=
  ⟨mapsFreed.not_backed (by decide), mapsFreed.not_backed (by decide)⟩

end InDevOS.Wm
