import InDevOS.Mem.Fork
import InDevOS.Mem.FreeList

/-! Forking when memory runs out.

`vmm_clone_address_space` fails as a whole only when the top-level table cannot be
allocated. When the copy of a table further down cannot, the entry that would point to it
stays empty and the walk goes on, so the child comes into being without the pages below. A
page gets its word in the child exactly if every table on its way finds a frame when its
turn comes (`cloneEntry_look`), and fork is all or nothing exactly if that holds for every
page that is mapped (`clone_all_or_nothing_iff`). -/
namespace InDevOS.Mem

variable {σ : Type} (A : FrameAllocator σ)

/-! ### Who gets a frame -/

/-- The allocator after the tables below an entry have been copied. Copying frees nothing
and takes a frame for each table; a table that gets none is left with all below it. -/
def spaceAfter : (n : Nat) → Entry n → σ → σ
  | 0, _, s => s
  | _ + 1, none, s => s
  | n + 1, some t, s =>
    match A.alloc s with
    | none => s
    | some (_, s) => (List.finRange 512).foldl (fun s i => spaceAfter n (t.entries i) s) s

/-- The allocator when the walk over the entries `is` comes to entry `i`. -/
def spaceBefore {n : Nat} (t : Table n) (is : List (Fin 512)) (i : Fin 512) (s : σ) : σ :=
  (is.takeWhile (· ≠ i)).foldl (fun s i => spaceAfter A n (t.entries i) s) s

/-- Every table below an entry on the way to `va` finds a frame at its turn. -/
def findsFrames : (n : Nat) → Entry n → σ → UInt64 → Bool
  | 0, _, _, _ => true
  | _ + 1, none, _, _ => true
  | n + 1, some t, s, va =>
    match A.alloc s with
    | none => false
    | some (_, s) =>
      findsFrames n (t.entries (index n va)) (spaceBefore A t (List.finRange 512) (index n va) s) va

variable {A}

theorem vmmAllocFrame_pmm (h : Heap σ) :
    (A.alloc h.pmm = none ∧ vmmAllocFrame A h = (none, { h with oom := h.oom + 1 })) ∨
      ∃ p s h', A.alloc h.pmm = some (p, s) ∧ vmmAllocFrame A h = (some p, h') ∧ h'.pmm = s := by
  unfold vmmAllocFrame
  cases hr : A.alloc h.pmm with
  | none => exact .inl ⟨rfl, rfl⟩
  | some r =>
    refine .inr ⟨r.1, r.2, _, rfl, rfl, ?_⟩
    split_ifs <;> rfl

section Loop

variable {α : Type} {f : α → Heap σ → α × α × Heap σ} {g : α → σ → σ}

theorem cloneLoop_pmm (hf : ∀ e h, (f e h).2.2.pmm = g e h.pmm) (src : Fin 512 → α)
    (is : List (Fin 512)) (kept dst : Fin 512 → α) (h : Heap σ) :
    (cloneLoop f src is kept dst h).2.2.pmm = is.foldl (fun s i => g (src i) s) h.pmm := by
  induction is generalizing kept dst h with
  | nil => rfl
  | cons i is ih =>
    rw [cloneLoop, ih, List.foldl_cons, hf]

theorem cloneLoop_other (src : Fin 512 → α) {is : List (Fin 512)} (kept dst : Fin 512 → α)
    (h : Heap σ) {i : Fin 512} (hi : i ∉ is) : (cloneLoop f src is kept dst h).2.1 i = dst i := by
  induction is generalizing kept dst h with
  | nil => rfl
  | cons j is ih =>
    rw [List.mem_cons, not_or] at hi
    rw [cloneLoop, ih _ _ _ hi.2, Function.update_of_ne hi.1]

theorem cloneLoop_entry (hf : ∀ e h, (f e h).2.2.pmm = g e h.pmm) (src : Fin 512 → α)
    {is : List (Fin 512)} (hn : is.Nodup) (kept dst : Fin 512 → α) (h : Heap σ) {i : Fin 512} (hi : i ∈ is) :
    ∃ h' : Heap σ, h'.pmm = (is.takeWhile (· ≠ i)).foldl (fun s i => g (src i) s) h.pmm ∧
      (cloneLoop f src is kept dst h).2.1 i = (f (src i) h').2.1 := by
  induction is generalizing kept dst h with
  | nil => exact absurd hi List.not_mem_nil
  | cons j is ih =>
    obtain ⟨hj, hn⟩ := List.nodup_cons.mp hn
    rw [cloneLoop]
    by_cases hij : i = j
    · subst hij
      refine ⟨h, by simp, ?_⟩
      rw [cloneLoop_other src _ _ _ hj, Function.update_self]
    · obtain ⟨h', hpmm, heq⟩ := ih hn (Function.update kept j (f (src j) h).1)
        (Function.update dst j (f (src j) h).2.1) (f (src j) h).2.2 ((List.mem_cons.mp hi).resolve_left hij)
      refine ⟨h', ?_, heq⟩
      rw [List.takeWhile_cons_of_pos (by simpa using fun h => hij h.symm), List.foldl_cons, ← hf]
      exact hpmm

end Loop

theorem cloneEntry_pmm (n : Nat) (e : Entry n) (h : Heap σ) :
    (cloneEntry A n e h).2.2.pmm = spaceAfter A n e h.pmm := by
  induction n generalizing h with
  | zero =>
    rw [cloneEntry, cloneLeaf_eq]
    split_ifs
    · exact (shareLeaf_pmm_mem_oom A h _).1
    · rfl
  | succ n ih =>
    cases e with
    | none => rfl
    | some t =>
      rw [cloneEntry, cloneNode, spaceAfter]
      obtain ⟨hnone, heq⟩ | ⟨p, s, h', hsome, heq, rfl⟩ := vmmAllocFrame_pmm (A := A) h
      · rw [heq, hnone]
      · rw [heq, hsome]
        rw [cloneLoop_pmm ih]

theorem cloneNode_look {n : Nat}
    (ih : ∀ (e : Entry n) (h : Heap σ) (va : UInt64), Entry.look n (cloneEntry A n e h).2.1 va =
      if findsFrames A n e h.pmm va then forkCopy (Entry.look n e va) else 0)
    {is : List (Fin 512)} (hn : is.Nodup) (t : Table n) (h : Heap σ) {va : UInt64} (hva : index n va ∈ is) :
    Entry.look (n + 1) (cloneNode A (cloneEntry A n) (Entry.empty n) is t h).2.1 va =
      match A.alloc h.pmm with
      | none => 0
      | some (_, s) =>
        if findsFrames A n (t.entries (index n va)) (spaceBefore A t is (index n va) s) va
        then forkCopy (t.look va) else 0 := by
  rw [cloneNode]
  obtain ⟨hnone, heq⟩ | ⟨p, s, h', hsome, heq, rfl⟩ := vmmAllocFrame_pmm (A := A) h
  · rw [heq, hnone]
    rfl
  · rw [heq, hsome]
    obtain ⟨h'', hpmm, hentry⟩ := cloneLoop_entry (cloneEntry_pmm (A := A) n) t.entries hn t.entries
      (fun _ => Entry.empty n) h' hva
    show Entry.look n ((cloneLoop (cloneEntry A n) t.entries is t.entries _ h').2.1 (index n va)) va = _
    rw [hentry, ih, hpmm]
    rfl

/-- The child has the word of a page if all tables on its way have found a frame, and
nothing otherwise. -/
theorem cloneEntry_look (n : Nat) (e : Entry n) (h : Heap σ) (va : UInt64) :
    Entry.look n (cloneEntry A n e h).2.1 va =
      if findsFrames A n e h.pmm va then forkCopy (Entry.look n e va) else 0 := by
  induction n generalizing h va with
  | zero =>
    rw [cloneEntry, cloneLeaf_eq]
    rfl
  | succ n ih =>
    cases e with
    | none => simp [cloneEntry, findsFrames, Entry.look, forkCopy_zero]
    | some t =>
      rw [cloneEntry, findsFrames]
      rw [cloneNode_look ih (List.nodup_finRange 512) t h (List.mem_finRange _)]
      cases A.alloc h.pmm with
      | none | some => rfl

/-! ### All or nothing -/

/-- The address lies in user space. -/
def UserAddress (va : UInt64) : Prop := (index 3 va).val < 256

/-- A mapped page: its word is present. -/
def Node.Mapped (t : Table 3) (va : UInt64) : Prop := has (t.look va) vmmPresent = true

/-- The result of a fork is an address space with every page of the source, on the frame it
has there, or none, and then nothing has changed. -/
def AllOrNothing (t : Table 3) (h : Heap σ) (r : Table 3 × Option (Table 3) × Heap σ) : Prop :=
  match r.2.1 with
  | none => r.1 = t ∧ r.2.2.pmm = h.pmm ∧ r.2.2.refs = h.refs
  | some c => ∀ va, UserAddress va → t.Mapped va → c.Mapped va ∧ addr (c.look va) = addr (t.look va)

/-- The memory of the child in `fork_spawn_child`: its kernel stack, then the parent's own
tables or a copy. No tables mean `-ENOMEM`. -/
def forkSpawnChild (A : FrameAllocator σ) (kstack shareVm : Bool) (pml4 : Table 3) (h : Heap σ) :
    Table 3 × Option (Table 3) × Heap σ :=
  if !kstack then (pml4, none, h)
  else if shareVm then (pml4, some pml4, h)
  else vmmCloneAddressSpace A pml4 h

/-- The copies of the tables on the way to every mapped user page find frames, the top one
included, or the top one does not. -/
def CloneServed (A : FrameAllocator σ) (t : Table 3) (s : σ) : Prop :=
  match A.alloc s with
  | none => True
  | some (_, s) => ∀ va, UserAddress va → t.Mapped va →
      findsFrames A 3 (t.entries (index 3 va)) (spaceBefore A t userHalf (index 3 va) s) va = true

theorem UserAddress.mem {va : UInt64} (h : UserAddress va) : index 3 va ∈ userHalf := by
  unfold UserAddress at h
  simpa [userHalf] using h

theorem has_present_forkCopy {pte : UInt64} (h : has pte vmmPresent = true) :
    has (forkCopy pte) vmmPresent = true ∧ addr (forkCopy pte) = addr pte := by
  rw [forkCopy, if_pos h]
  exact ⟨(has_forkKeeps pte (by decide) (by decide)).trans h, addr_forkKeeps pte⟩

theorem vmmCloneAddressSpace_all_iff (t : Table 3) (h : Heap σ) :
    AllOrNothing t h (vmmCloneAddressSpace A t h) ↔ CloneServed A t h.pmm := by
  have hlook : ∀ va, UserAddress va → _ := fun va hva =>
    cloneNode_look (A := A) (cloneEntry_look 3) userHalf_nodup t h hva.mem
  unfold vmmCloneAddressSpace CloneServed AllOrNothing
  unfold cloneNode at hlook ⊢
  obtain ⟨hnone, heq⟩ | ⟨p, s, h', hsome, heq, rfl⟩ := vmmAllocFrame_pmm (A := A) h
  · rw [heq, hnone]
    exact iff_of_true ⟨rfl, rfl, rfl⟩ trivial
  · rw [heq, hsome] at hlook ⊢
    dsimp only at hlook ⊢
    generalize (⟨p, _⟩ : Table 3) = c at hlook ⊢
    refine forall_congr' fun va => imp_congr_right fun hva => imp_congr_right fun hmapped => ?_
    have hword : c.look va = _ := hlook va hva
    unfold Node.Mapped at hmapped ⊢
    rw [hword]
    split_ifs with hfinds
    · exact iff_of_true (has_present_forkCopy hmapped) hfinds
    · refine iff_of_false (fun hc => ?_) hfinds
      exact absurd hc.1 (by decide)

/-- **Forking is all or nothing exactly if the top-level table cannot be allocated, or the copies
of all tables on the way to a mapped user page can.** The same holds for the child that
`fork_spawn_child` goes on with, unless it has failed before or shares its parent's memory. -/
theorem clone_all_or_nothing_iff (A : FrameAllocator σ) (t : Table 3) (h : Heap σ) :
    (AllOrNothing t h (vmmCloneAddressSpace A t h) ↔ CloneServed A t h.pmm) ∧
      ∀ kstack shareVm, AllOrNothing t h (forkSpawnChild A kstack shareVm t h) ↔
        kstack = false ∨ shareVm = true ∨ CloneServed A t h.pmm := by
  refine ⟨vmmCloneAddressSpace_all_iff t h, fun kstack shareVm => ?_⟩
  unfold forkSpawnChild
  cases kstack with
  | false => exact iff_of_true ⟨rfl, rfl, rfl⟩ (.inl rfl)
  | true =>
    cases shareVm with
    | true => exact iff_of_true (fun va _ hmapped => ⟨hmapped, rfl⟩) (.inr (.inl rfl))
    | false =>
      rw [if_neg (by decide), if_neg (by decide), vmmCloneAddressSpace_all_iff]
      simp

/-- A table in frame `p` with one entry. -/
def single {n : Nat} (p : UInt64) (e : Entry n) : Table n := Node.set ⟨p, fun _ => Entry.empty n⟩ 0 e

/-- One writable user page at address 0. -/
def onePage : Table 3 :=
  single 0x1000 (some (single 0x2000 (some (single 0x3000 (some (single (n := 0) 0x4000 (0x5007 : UInt64)))))))

/-- A heap with a single free frame. -/
def oneFrame : Heap FreeList := ⟨⟨[0x6000], [0x1000, 0x2000, 0x3000, 0x4000, 0x5000]⟩, fun _ => 0, blank, 0⟩

/-- With one frame left the top-level table is copied and nothing below it: fork goes on
with a child that has no memory. -/
theorem clone_loses_page : onePage.Mapped 0 ∧
    ∃ c, (forkSpawnChild freeList true false onePage oneFrame).2.1 = some c ∧ ¬ c.Mapped 0 := by
  refine ⟨by unfold Node.Mapped; decide +kernel, _, rfl, ?_⟩
  unfold Node.Mapped
  decide +kernel

end InDevOS.Mem
