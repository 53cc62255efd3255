import InDevOS.Mem.Boot
import InDevOS.Mem.FreeList
import InDevOS.Mem.World

/-! Copy-on-write reference counts over every run.

As long as every fresh frame is mapped where nothing was mapped before, the count byte
of a frame is exact: mapped frames are allocated, an unsaturated count is the number of
page table words that map the frame, and a frame goes back to the allocator in the
very step that takes its last mapping away, unless its count had saturated
(`cow_counts_exact`). `vmm_map_page_in` does not look at the word it overwrites, so
without the condition a frame can lose its last mapping and stay allocated
(`overmapped_frame_leaks`). -/
namespace InDevOS.Mem

variable {σ : Type} (A : FrameAllocator σ)

/-- A step on frame mappings in which no allocation fails, and which maps a fresh frame only
where nothing is mapped. -/
def CowStep (w : World σ) (op : Op) : Prop :=
  op.isDevice = false ∧ op.fresh w = true ∧ (step A w op).heap.oom = w.heap.oom

instance (w : World σ) (op : Op) : Decidable (CowStep A w op) :=
  inferInstanceAs (Decidable (_ ∧ _ ∧ _))

def CowRun : World σ → List Op → Prop
  | _, [] => True
  | w, op :: ops => CowStep A w op ∧ CowRun (step A w op) ops

instance decidableCowRun : (w : World σ) → (ops : List Op) → Decidable (CowRun A w ops)
  | _, [] => isTrue trivial
  | w, op :: ops =>
    have := decidableCowRun (step A w op) ops
    inferInstanceAs (Decidable (CowStep A w op ∧ CowRun A (step A w op) ops))

/-- At some time of the run 255 words map the frame. -/
def Crowded (w : World σ) (ops : List Op) (p : UInt64) : Prop :=
  ∃ ops', ops' <+: ops ∧ 255 ≤ (run A w ops').owns p

/-- The count byte `r` of a frame that `n` words map: it sticks at 255 if there were so many once. -/
def CountOf (crowded : Prop) (r : UInt8) (n : Nat) : Prop :=
  r = 255 ∧ crowded ∨ r = 0 ∧ n = 1 ∨ r ≠ 0 ∧ r.toNat = n

variable {A} {L : Lawful A} {K : UInt64 → Prop} {w : World σ} {sat D : UInt64 → Prop}

theorem boot_sound (L : Lawful A) {s : σ} (hs : L.Inv s) (mem : UInt64 → Page) :
    Sound L (A.Live s) (boot s mem) 0 (fun _ => False) (fun _ => False) := by
  refine ⟨⟨hs, ?_, ?_, ?_, ?_, ?_, ?_, ?_⟩, ?_, ?_⟩
  · exact fun p hp => absurd hp (lt_irrefl 0)
  · exact fun p hp => absurd hp (lt_irrefl 0)
  · exact fun p hp => absurd hp (lt_irrefl 0)
  · exact fun p hp => absurd hp (lt_irrefl 0)
  · exact fun p hp => hp.elim
  · exact fun p hl _ _ _ => hl
  · exact fun p hl => ⟨hl, rfl, rfl, id⟩
  · exact fun t ht => by simp [boot] at ht
  · exact fun p hp => hp.elim

theorem proper_of_not_device {op : Op} (h : op.isDevice = false) : op.Proper L := by
  cases op <;> trivial

theorem CowStep.stepped {op : Op} (hop : CowStep A w op) (hs : Sound L K w 0 sat D) (hn : NoDevice w) :
    ∃ sat' D', Stepped L K w (step A w op) 0 0 sat sat' D' ∧ NoDevice (step A w op) := by
  obtain ⟨hdev, hfresh, hoom⟩ := hop
  obtain ⟨lost', sat', D', h₁, h₂, h₃⟩ := step_stepped op hs (proper_of_not_device hdev) hoom
  rw [h₃ hdev hn hfresh] at h₁
  exact ⟨sat', D', h₁, h₂ hdev hn⟩

theorem CowRun.sound (ops : List Op) (hrun : CowRun A w ops) (hs : Sound L K w 0 sat D)
    (hn : NoDevice w) :
    ∃ sat' D', Sound L K (run A w ops) 0 sat' D' ∧ NoDevice (run A w ops) ∧ (∀ p, sat p → sat' p) ∧
      ∀ p, sat' p → sat p ∨ Crowded A w ops p := by
  induction ops generalizing w sat D with
  | nil => exact ⟨sat, D, hs, hn, fun _ => id, fun _ => .inl⟩
  | cons op ops ih =>
    obtain ⟨sat₁, D₁, h₁, hn₁⟩ := hrun.1.stepped hs hn
    obtain ⟨sat₂, D₂, h₂, hn₂, hsat, hcrowd⟩ := ih hrun.2 h₁.sound hn₁
    refine ⟨sat₂, D₂, h₂, hn₂, fun p hp => hsat p (h₁.saturated.kept p hp), fun p hp => ?_⟩
    obtain hp | ⟨ops', hpre, hmany⟩ := hcrowd p hp
    · refine (h₁.saturated.crowded p hp).imp_right fun hmany => ⟨[op], ?_, ?_⟩
      · exact (List.prefix_cons_inj op).2 List.nil_prefix
      · rwa [add_zero] at hmany
    · exact .inr ⟨op :: ops', (List.prefix_cons_inj op).2 hpre, hmany⟩

/-- In a sound world the byte 255 marks exactly the saturated frames. -/
theorem Sound.refs_eq_max_iff (hs : Sound L K w 0 sat D) {p : UInt64} (hp : 0 < w.owns p) :
    w.heap.refs (pfn p) = 255 ↔ sat p := by
  constructor
  · intro hr
    by_contra hsat
    rcases hs.counted.counts p hp hsat with ⟨h₁, -⟩ | ⟨-, h₁, -⟩
    · rw [hr] at h₁
      exact absurd h₁ (by decide)
    · exact h₁ hr
  · exact fun hsat => (hs.counted.satLive p hsat).2

theorem Sound.countOf (hs : Sound L K w 0 sat D) {p : UInt64} (hp : 0 < w.owns p) :
    CountOf (sat p) (w.heap.refs (pfn p)) (w.owns p) := by
  by_cases hsat : sat p
  · exact .inl ⟨(hs.counted.satLive p hsat).2, hsat⟩
  · rcases hs.counted.counts p hp hsat with h₁ | ⟨h₁, -, h₂⟩
    · exact .inr (.inl h₁)
    · exact .inr (.inr ⟨h₁, h₂⟩)

/-- A mapped frame goes back exactly when its last mapping goes and its count is not saturated. -/
theorem Stepped.returned_iff {w' : World σ} {sat' D' : UInt64 → Prop}
    (h : Stepped L K w w' 0 0 sat sat' D') (hs : Sound L K w 0 sat D) {p : UInt64} (hp : 0 < w.owns p) :
    ¬ A.Live w'.heap.pmm p ↔ w'.owns p = 0 ∧ w.heap.refs (pfn p) ≠ 255 := by
  rw [ne_eq, hs.refs_eq_max_iff hp]
  constructor
  · intro hdead
    refine ⟨?_, fun hsat => hdead (h.sound.counted.satLive p (h.saturated.kept p hsat)).1⟩
    exact Nat.eq_zero_of_not_pos fun hpos => hdead (h.sound.counted.ownLive p hpos)
  · intro hlast hl
    exact hlast.2 (h.back p hp hl hlast.1)

/-- **The counts are exact.** In every world reached by steps that map fresh frames only
where nothing is mapped: a mapped frame is allocated and its count is the number of its
mappings, or 255 if there were that many once; a step gives it back exactly if it takes the
last mapping of a frame whose count is not saturated; and a saturated frame is never given back. -/
theorem cow_counts_exact (L : Lawful A) {s : σ} (hs : L.Inv s) (mem : UInt64 → Page) (ops : List Op)
    (hrun : CowRun A (boot s mem) ops) :
    (∀ p, 0 < (run A (boot s mem) ops).owns p →
      A.Live (run A (boot s mem) ops).heap.pmm p ∧
        CountOf (Crowded A (boot s mem) ops p) ((run A (boot s mem) ops).heap.refs (pfn p))
          ((run A (boot s mem) ops).owns p)) ∧
    (∀ op, CowStep A (run A (boot s mem) ops) op → ∀ p, 0 < (run A (boot s mem) ops).owns p →
      (¬ A.Live (step A (run A (boot s mem) ops) op).heap.pmm p ↔
        (step A (run A (boot s mem) ops) op).owns p = 0 ∧
          (run A (boot s mem) ops).heap.refs (pfn p) ≠ 255)) ∧
    ∀ later, CowRun A (run A (boot s mem) ops) later → ∀ p, 0 < (run A (boot s mem) ops).owns p →
      (run A (boot s mem) ops).heap.refs (pfn p) = 255 →
        A.Live (run A (run A (boot s mem) ops) later).heap.pmm p := by
  have hnone : NoDevice (boot s mem) := fun t ht => by simp [boot] at ht
  obtain ⟨sat, D, hsound, hn, -, hcrowd⟩ := hrun.sound ops (boot_sound L hs mem) hnone
  refine ⟨fun p hp => ⟨hsound.counted.ownLive p hp, (hsound.countOf hp).imp_left ?_⟩, fun op hop p hp => ?_,
    fun later hlater p hp hr => ?_⟩
  · exact And.imp_right fun hsat => (hcrowd p hsat).resolve_left id
  · obtain ⟨sat', D', h₁, -⟩ := hop.stepped hsound hn
    exact h₁.returned_iff hsound hp
  · obtain ⟨sat', D', h₁, -, hsat, -⟩ := hlater.sound later hsound hn
    exact (h₁.counted.satLive p (hsat p ((hsound.refs_eq_max_iff hp).mp hr))).1

/-- A user page in the program text. -/
def textPage : UserVa := ⟨0x400000, rfl⟩

/-- A writable user page. -/
def dataFlags : FrameFlags := ⟨⟨vmmPresent ||| vmmUser ||| vmmWritable, rfl, rfl⟩, rfl⟩

/-- Map a page, fork, write on one side. -/
def forkAndWrite : List Op :=
  [.create, .mapFresh 0 textPage dataFlags, .clone 0, .store 1 ⟨0, 0⟩ 0x400010 7]

theorem cow_counts_exact_forkAndWrite :
    CowRun freeList (boot fewFrames blank) forkAndWrite ∧
      ∀ p, 0 < (run freeList (boot fewFrames blank) forkAndWrite).owns p →
        freeList.Live (run freeList (boot fewFrames blank) forkAndWrite).heap.pmm p ∧
          CountOf (Crowded freeList (boot fewFrames blank) forkAndWrite p)
            ((run freeList (boot fewFrames blank) forkAndWrite).heap.refs (pfn p))
            ((run freeList (boot fewFrames blank) forkAndWrite).owns p) := by
  have hrun : CowRun freeList (boot fewFrames blank) forkAndWrite := by decide +kernel
  exact ⟨hrun, (cow_counts_exact freeListLawful fewFrames_inv blank forkAndWrite hrun).1⟩

/-- **With the allocator of `mem.c`**, on a machine that boots fit for it: in every such run the
pages that entries map, and those that hold page tables, are taken in the bitmap. -/
theorem mapped_pages_taken {b : Boot} (hfit : b.Fit) (junk : Nat → Bool)
    (hplaced : b.bitmapPlaced = true ∧ b.entryMapPlaced = true) (mem : UInt64 → Page) (ops : List Op)
    (hrun : CowRun b.frames (boot (b.pmm junk) mem) ops) :
    let w := run b.frames (boot (b.pmm junk) mem) ops
    ∀ p, 0 < w.owns p + w.tabs p → w.heap.pmm.bits (b.pageOfAddr p) = true := by
  intro w p hp
  have hboot := boot_sound (b.lawful hfit) (Boot.usable_boot junk hplaced.1 hplaced.2) mem
  obtain ⟨sat, D, ⟨hc, -, -⟩, -⟩ := hrun.sound ops hboot fun t ht => by simp [boot] at ht
  rw [add_zero] at hc
  have hlive : b.frames.Live w.heap.pmm p := by
    obtain ho | ht := Nat.add_pos_iff_pos_or_pos.mp hp
    · exact hc.ownLive p ho
    · exact hc.tabLive p ht
  have hinv : b.Usable w.heap.pmm := hc.inv
  exact (hinv.single _ (hinv.live_iff.mp hlive).2).2

/-- Map a page of a new address space. -/
def mapPage : List Op := [.create, .mapFresh 0 textPage dataFlags]

def mapPageTwice : List Op := mapPage ++ [.mapFresh 0 textPage dataFlags]

/-- Mapping a second frame over the first: the page loses the only mapping of frame 2,
whose count is not saturated, and the frame stays allocated. -/
theorem overmapped_frame_leaks :
    CowRun freeList (boot fewFrames blank) mapPage ∧
      0 < (run freeList (boot fewFrames blank) mapPage).owns 0x2000 ∧
      (run freeList (boot fewFrames blank) mapPage).heap.refs (pfn 0x2000) ≠ 255 ∧
      (run freeList (boot fewFrames blank) mapPageTwice).heap.oom = 0 ∧
      (run freeList (boot fewFrames blank) mapPageTwice).owns 0x2000 = 0 ∧
      freeList.Live (run freeList (boot fewFrames blank) mapPageTwice).heap.pmm 0x2000 := by
  decide +kernel

end InDevOS.Mem
