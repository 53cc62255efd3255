import InDevOS.Mem.Fault

/-! All user address spaces of the machine over one physical memory.

A world is the heap and the list of address spaces, in the order they were made; a torn
down address space leaves its place empty. A step is one kernel operation or one user
store (with the page fault it may raise) on one of them. `Sound` is the invariant of
the whole: one account for the owners of every frame over all address spaces, and
`SpaceOk` for each of them. `step_sound` is the step lemma. -/
namespace InDevOS.Mem
open List

variable {σ : Type} (A : FrameAllocator σ)

structure World (σ : Type) where
  heap : Heap σ
  spaces : List (Option (Table 3))

section
variable (w : World σ)

def World.space (a : Nat) : Option (Table 3) := w.spaces[a]?.join

/-! ### User memory -/

def pageOffset (va : UInt64) : Fin 4096 := ⟨va.toNat % 4096, Nat.mod_lt _ (by decide)⟩

/-- What a user load of the byte at `va` returns, `none` for a fault. -/
def loadByte (pml4 : Table 3) (h : Heap σ) (va : UInt64) : Option UInt8 :=
  let pte := pml4.look va
  if has pte vmmPresent && has pte vmmUser then some (h.mem (addr pte) (pageOffset va)) else none

def World.read (a : Nat) (va : UInt64) : Option UInt8 :=
  (w.space a).bind fun t => loadByte t w.heap va

def canStore (pte : UInt64) : Bool := has pte vmmPresent && has pte vmmUser && has pte vmmWritable

def storeByte (pte va : UInt64) (byte : UInt8) (h : Heap σ) : Heap σ :=
  let page := Function.update (h.mem (addr pte)) (pageOffset va) byte
  { h with mem := Function.update h.mem (addr pte) page }

/-- A user store: when the CPU faults the handler gets one try, then the store is made again. -/
def userStore (brk : Brk) (va : UInt64) (byte : UInt8) (pml4 : Table 3) (h : Heap σ) :
    Table 3 × Heap σ :=
  if canStore (pml4.look va) then (pml4, storeByte (pml4.look va) va byte h)
  else
    let r := userFaultFixup A brk pml4 va (has (pml4.look va) vmmPresent) true h
    if r.1 && canStore (r.2.1.look va) then (r.2.1, storeByte (r.2.1.look va) va byte r.2.2)
    else r.2

/-! ### Steps -/

abbrev UserVa := { va : UInt64 // isUserAddress va = true }

/-- The flags of a user mapping. -/
structure UserFlags where
  bits : UInt64
  noAddr : bits &&& pteAddrMask = 0
  user : has bits vmmUser = true

structure FrameFlags extends UserFlags where
  plain : has bits vmmDevice = false

structure DeviceFlags extends UserFlags where
  device : has bits vmmDevice = true
  noCow : has bits vmmCow = false

/-- Map a fresh frame, as `sys_mmap` does for each page. -/
def mapFresh (va flags : UInt64) (pml4 : Table 3) (h : Heap σ) : Table 3 × Heap σ :=
  match vmmAllocFrame A h with
  | (none, h) => (pml4, h)
  | (some frame, h) =>
    let r := vmmMapPageIn A pml4 va frame flags h
    if r.1 then r.2 else (r.2.1, vmmFreeFrame A r.2.2 frame)

inductive Op where
  | create
  | mapFresh (a : Nat) (va : UserVa) (flags : FrameFlags)
  | mapDevice (a : Nat) (va : UserVa) (phys : UInt64) (flags : DeviceFlags)
  | clone (a : Nat)
  | fault (a : Nat) (brk : Brk) (va : UInt64) (wasWrite : Bool)
  | store (a : Nat) (brk : Brk) (va : UInt64) (byte : UInt8)
  | unmap (a : Nat) (va pages : UInt64)
  | destroy (a : Nat)

/-- Run an operation of one address space. -/
def World.on (a : Nat) (f : Table 3 → Heap σ → Table 3 × Heap σ) : World σ :=
  match w.space a with
  | none => w
  | some t => ⟨(f t w.heap).2, w.spaces.set a (some (f t w.heap).1)⟩

/-- `vmm_create_address_space` -/
def World.create : World σ :=
  match vmmAllocFrame A w.heap with
  | (none, h) => ⟨h, w.spaces⟩
  | (some p, h) => ⟨h, w.spaces ++ [some ⟨p, fun _ => Entry.empty 3⟩]⟩

def World.clone (a : Nat) : World σ :=
  match w.space a with
  | none => w
  | some t =>
    let r := vmmCloneAddressSpace A t w.heap
    ⟨r.2.2, w.spaces.set a (some r.1) ++ [r.2.1]⟩

def World.destroy (a : Nat) : World σ :=
  match w.space a with
  | none => w
  | some t => ⟨vmmDestroyAddressSpace A t w.heap, w.spaces.set a none⟩

def step : Op → World σ
  | .create => w.create A
  | .mapFresh a va flags => w.on a (mapFresh A va.1 flags.bits)
  | .mapDevice a va phys flags => w.on a fun t h => (vmmMapPageIn A t va.1 phys flags.bits h).2
  | .clone a => w.clone A a
  | .fault a brk va wasWrite =>
    w.on a fun t h => (userFaultFixup A brk t va (has (t.look va) vmmPresent) wasWrite h).2
  | .store a brk va byte => w.on a (userStore A brk va byte)
  | .unmap a va pages =>
    w.on a fun t h => ((vmmUnmapRangeReleaseIn A t va pages h).1,
      (vmmUnmapRangeReleaseIn A t va pages h).2.2)
  | .destroy a => w.destroy A a

def run (ops : List Op) : World σ := ops.foldl (step A) w

/-- No address space yet; all counts are zero. -/
def boot (s : σ) (mem : UInt64 → Page) : World σ := ⟨⟨s, fun _ => 0, mem, 0⟩, []⟩

/-! ### The account of the world -/

def slotsOwns (l : List (Option (Table 3))) : UInt64 → Nat :=
  fun p => (l.map fun s => Entry.owns 4 s p).sum

def slotsTabs (l : List (Option (Table 3))) : UInt64 → Nat :=
  fun p => (l.map fun s => Entry.tabs 4 s p).sum

/-- How many page table words of all address spaces map frame `p`. -/
def World.owns : UInt64 → Nat := slotsOwns w.spaces

def World.tabs : UInt64 → Nat := slotsTabs w.spaces

end

variable {A}

structure Sound (L : Lawful A) (K : UInt64 → Prop) (w : World σ) (lost : UInt64 → Nat)
    (sat D : UInt64 → Prop) : Prop where
  counted : Counted L K w.heap (w.owns + lost) w.tabs sat
  spaces : ∀ t, some t ∈ w.spaces → SpaceOk L D (w.owns + lost) t
  kept : ∀ p, D p → 0 < lost p ∧ w.owns p = 0

section
variable (l₁ l₂ : List (Option (Table 3))) (s : Option (Table 3))

theorem slotsOwns_middle :
    slotsOwns (l₁ ++ s :: l₂) = slotsOwns (l₁ ++ l₂) + Entry.owns 4 s := by
  funext p
  simp only [slotsOwns, map_append, map_cons, sum_append, sum_cons, Pi.add_apply]
  omega

theorem slotsTabs_middle :
    slotsTabs (l₁ ++ s :: l₂) = slotsTabs (l₁ ++ l₂) + Entry.tabs 4 s := by
  funext p
  simp only [slotsTabs, map_append, map_cons, sum_append, sum_cons, Pi.add_apply]
  omega

end

theorem World.owns_middle (h : Heap σ) (l₁ l₂ : List (Option (Table 3))) (t : Table 3) (p : UInt64) :
    (World.mk h (l₁ ++ some t :: l₂)).owns p = slotsOwns (l₁ ++ l₂) p + t.owns p :=
  congrFun (slotsOwns_middle l₁ l₂ (some t)) p

theorem owns_le_slotsOwns {l : List (Option (Table 3))} {t : Table 3} (h : some t ∈ l) (p : UInt64) :
    t.owns p ≤ slotsOwns l p :=
  le_sum_of_mem (mem_map.mpr ⟨some t, h, rfl⟩)

theorem World.getElem?_of_space {w : World σ} {a : Nat} {t : Table 3} (h : w.space a = some t) :
    w.spaces[a]? = some (some t) := by
  unfold World.space at h
  cases hg : w.spaces[a]? with
  | none => rw [hg] at h; simp at h
  | some s => rw [hg] at h; exact congrArg some h

theorem World.split {w : World σ} {a : Nat} {t : Table 3} (h : w.space a = some t) :
    ∃ l₁ l₂, w.spaces = l₁ ++ some t :: l₂ ∧ l₁.length = a ∧
      ∀ s, w.spaces.set a s = l₁ ++ s :: l₂ := by
  obtain ⟨hlt, heq⟩ := List.getElem?_eq_some_iff.mp (World.getElem?_of_space h)
  refine ⟨w.spaces.take a, w.spaces.drop (a + 1), ?_, ?_, fun s => ?_⟩
  · rw [← heq, getElem_cons_drop, take_append_drop]
  · rw [length_take]
    omega
  · rw [set_eq_take_append_cons_drop, if_pos hlt]

theorem mem_middle {l₁ l₂ : List (Option (Table 3))} {s s' : Option (Table 3)}
    (h : s ∈ l₁ ++ s' :: l₂) : s = s' ∨ s ∈ l₁ ++ l₂ := by
  simp only [mem_append, mem_cons] at h ⊢
  tauto

theorem mem_of_mem_rest {l₁ l₂ : List (Option (Table 3))} {s : Option (Table 3)}
    (s' : Option (Table 3)) (h : s ∈ l₁ ++ l₂) : s ∈ l₁ ++ s' :: l₂ := by
  simp only [mem_append, mem_cons] at h ⊢
  tauto

section Steps
variable {L : Lawful A} {K : UInt64 → Prop} {w : World σ} {lost : UInt64 → Nat}
  {own tab : UInt64 → Nat} {t : Table 3} {h : Heap σ}
  {sat D : UInt64 → Prop} {dev : Prop}

/-- The account as one address space sees it: its own owners and tables apart from the rest. -/
theorem Sound.at {l₁ l₂ : List (Option (Table 3))}
    (hs : Sound L K ⟨h, l₁ ++ some t :: l₂⟩ lost sat D) :
    Counted L K h (slotsOwns (l₁ ++ l₂) + lost + t.owns) (slotsTabs (l₁ ++ l₂) + t.tabs) sat ∧
      SpaceOk L D (slotsOwns (l₁ ++ l₂) + lost + t.owns) t := by
  have howns : (World.mk h (l₁ ++ some t :: l₂)).owns + lost =
      slotsOwns (l₁ ++ l₂) + lost + t.owns := by
    rw [World.owns, slotsOwns_middle, add_right_comm]
    rfl
  have htabs : (World.mk h (l₁ ++ some t :: l₂)).tabs = slotsTabs (l₁ ++ l₂) + t.tabs :=
    slotsTabs_middle l₁ l₂ (some t)
  have hc := hs.counted
  have hok := hs.spaces t (by simp)
  rw [howns] at hc hok
  rw [htabs] at hc
  exact ⟨hc, hok⟩

/-- What an operation that keeps the total account of the frames another address space
owns does to that address space: nothing. -/
theorem SpaceOk.frame {own own' : UInt64 → Nat} {D' : UInt64 → Prop}
    (hok : SpaceOk L D own t) (hD : ∀ p, D p → D' p)
    (hown : ∀ p, 0 < t.owns p → own p ≤ 1 → own' p ≤ 1) : SpaceOk L D' own' t := by
  refine ⟨hok.userOnly, hok.userWords, fun va => (hok.device va).mono hD, fun va hpriv => ?_⟩
  exact hown _ (Node.owns_pos hpriv.maps) (hok.sole va hpriv)

/-- An operation on one address space keeps the whole world sound. -/
theorem Sound.moved {l₁ l₂ : List (Option (Table 3))} {t t' : Table 3} {h h' : Heap σ}
    {gone : UInt64 → Nat} (hs : Sound L K ⟨h, l₁ ++ some t :: l₂⟩ lost sat D)
    (hm : Moved L K (slotsOwns (l₁ ++ l₂) + lost) (slotsTabs (l₁ ++ l₂)) sat D dev gone t h t' h') :
    Sound L K ⟨h', l₁ ++ some t' :: l₂⟩ (lost + gone) sat (Kept A D gone h) := by
  obtain ⟨hc, -⟩ := hs.at
  have howns : (World.mk h' (l₁ ++ some t' :: l₂)).owns + (lost + gone) =
      slotsOwns (l₁ ++ l₂) + lost + gone + t'.owns := by
    rw [World.owns, slotsOwns_middle]
    show slotsOwns (l₁ ++ l₂) + t'.owns + (lost + gone) = _
    rw [add_right_comm, ← add_assoc]
  refine ⟨?_, fun s hb => ?_, fun p hp => ?_⟩
  · rw [howns]
    have := hm.counted
    rw [show (World.mk h' (l₁ ++ some t' :: l₂)).tabs = slotsTabs (l₁ ++ l₂) + t'.tabs from
      slotsTabs_middle l₁ l₂ (some t')]
    exact this
  · rw [howns]
    rcases mem_middle hb with hb | hmem
    · obtain rfl := Option.some.inj hb
      exact hm.ok
    · refine (hs.spaces s (mem_of_mem_rest _ hmem)).frame (fun p => kept_left) fun p hp hone => ?_
      -- the frame has one owner and that is the other address space
      have h₁ := owns_le_slotsOwns hmem p
      have h₂ := World.owns_middle h l₁ l₂ t p
      have h₃ : ¬ 0 < gone p + t'.owns p := by
        intro hpos
        rcases hm.fresh p hpos with h₄ | h₄
        · simp only [Pi.add_apply] at hone
          omega
        · apply h₄
          apply hc.ownLive p
          simp only [Pi.add_apply]
          omega
      simp only [Pi.add_apply] at hone ⊢
      omega
  · have hlive : 0 < slotsOwns (l₁ ++ l₂) p + lost p + t.owns p → A.Live h.pmm p := hc.ownLive p
    rw [World.owns_middle]
    simp only [Pi.add_apply]
    rcases hp with hp | ⟨hp, hdead⟩
    · obtain ⟨h₃, h₄⟩ := hs.kept p hp
      rw [World.owns_middle] at h₄
      have h₅ : ¬ 0 < gone p + t'.owns p := by
        intro hpos
        rcases hm.fresh p hpos with h₆ | h₆
        · omega
        · exact h₆ (hlive (by omega))
      omega
    · have h₃ := hm.once p hdead hp
      have h₄ : ¬ 0 < slotsOwns (l₁ ++ l₂) p + lost p + t.owns p := fun h₅ => hdead (hlive h₅)
      omega

/-! ### One step -/

/-- What one step does to the accounts. -/
structure Stepped (L : Lawful A) (K : UInt64 → Prop) (w w' : World σ) (lost lost' : UInt64 → Nat)
    (sat sat' D' : UInt64 → Prop) : Prop where
  sound : Sound L K w' lost' sat' D'
  saturated : Saturates sat sat' (w'.owns + lost')
  /-- A frame that loses its last owner and stays allocated has a saturated count. -/
  back : ∀ p, 0 < (w.owns + lost) p → A.Live w'.heap.pmm p → (w'.owns + lost') p = 0 → sat p

theorem Sound.refl_stepped (hs : Sound L K w lost sat D) : Stepped L K w w lost lost sat sat D := by
  refine ⟨hs, .refl _ _, fun p hp _ h0 => ?_⟩
  omega

/-- No address space maps device memory. -/
def NoDevice (w : World σ) : Prop := ∀ t, some t ∈ w.spaces → ∀ va, has (t.look va) vmmDevice = false

/-- A step on one address space; `P` is what it takes for no frame to be lost. -/
theorem Sound.on_stepped (hs : Sound L K w lost sat D) (dev : Prop) (a : Nat)
    (f : Table 3 → Heap σ → Table 3 × Heap σ) (P : Table 3 → Prop)
    (hf : ∀ t own tab, w.space a = some t → Counted L K w.heap (own + t.owns) (tab + t.tabs) sat →
      SpaceOk L D (own + t.owns) t → ∃ gone,
        Moved L K own tab sat D dev gone t w.heap (f t w.heap).1 (f t w.heap).2 ∧ (P t → gone = 0)) :
    ∃ gone D', Stepped L K w (w.on a f) lost (lost + gone) sat sat D' ∧
      (¬ dev → NoDevice w → NoDevice (w.on a f)) ∧
      ((∀ t, w.space a = some t → P t) → gone = 0) := by
  unfold World.on
  cases ht : w.space a with
  | none =>
    refine ⟨0, D, ?_, fun _ => id, fun _ => rfl⟩
    exact hs.refl_stepped
  | some t =>
    obtain ⟨l₁, l₂, hw, -, hset⟩ := World.split ht
    obtain ⟨h, l⟩ := w
    obtain rfl : l = l₁ ++ some t :: l₂ := hw
    obtain ⟨hc, hok⟩ := hs.at
    obtain ⟨gone, hm, hP⟩ := hf t _ _ ht hc hok
    dsimp only at hm hset ⊢
    rw [hset]
    refine ⟨gone, _, ⟨hs.moved hm, .refl _ _, fun p hp hl h0 => ?_⟩, fun hdev hn s hmem va => ?_,
      fun hall => hP (hall t rfl)⟩
    · simp only [Pi.add_apply] at hp h0
      rw [World.owns_middle] at hp h0
      apply hm.back p _ hl
      · simp only [Pi.add_apply]
        omega
      · omega
    · rcases mem_middle hmem with hmem | hmem
      · obtain rfl := Option.some.inj hmem
        have := hn t (by simp) va
        by_contra hcon
        have := hm.plain hdev va (by simpa using hcon)
        simp_all
      · exact hn s (mem_of_mem_rest _ hmem) va

theorem Moved.write {own tab gone : UInt64 → Nat} {t t' : Table 3} {h h' : Heap σ}
    (hm : Moved L K own tab sat D dev gone t h t' h') (pte va : UInt64) (byte : UInt8) :
    Moved L K own tab sat D dev gone t h t' (storeByte pte va byte h') :=
  ⟨hm.counted.mem _, hm.ok, hm.fresh, hm.once, hm.back, hm.plain⟩

section Moves
variable (hc : Counted L K h (own + t.owns) (tab + t.tabs) sat) (hok : SpaceOk L D (own + t.owns) t)
include hc hok

theorem userStore_moved (brk : Brk) (va : UInt64) (byte : UInt8)
    (hoom : (userStore A brk va byte t h).2.oom = h.oom) :
    ∃ gone, Moved L K own tab sat D dev gone t h (userStore A brk va byte t h).1
        (userStore A brk va byte t h).2 ∧ (has (t.look va) vmmDevice = false → gone = 0) := by
  unfold userStore at hoom ⊢
  by_cases hw : canStore (t.look va) = true
  · rw [if_pos hw]
    exact ⟨0, (Moved.refl hc hok).write _ _ _, fun _ => rfl⟩
  · rw [if_neg hw] at hoom ⊢
    dsimp only at hoom ⊢
    have hf : (userFaultFixup A brk t va (has (t.look va) vmmPresent) true h).2.2.oom = h.oom := by
      split at hoom
      · exact hoom
      · exact hoom
    obtain ⟨gone, hm, hgone⟩ := userFaultFixup_moved hc hok brk va true hf
    refine ⟨gone, ?_, hgone⟩
    split
    · exact hm.write _ _ _
    · exact hm

theorem mapFresh_moved (va : UserVa) (flags : FrameFlags)
    (hoom : (mapFresh A va.1 flags.bits t h).2.oom = h.oom) :
    Moved L K own tab sat D dev (ownsPte (t.look va.1)) t h (mapFresh A va.1 flags.bits t h).1
      (mapFresh A va.1 flags.bits t h).2 := by
  unfold mapFresh at hoom ⊢
  generalize ha : vmmAllocFrame A h = a at hoom
  obtain ⟨_ | frame, h₁⟩ := a
  · have := vmmAllocFrame_none ha
    subst this
    exact absurd hoom (Nat.succ_ne_self _)
  · have hal := vmmAllocFrame_some hc.inv ha
    dsimp only at hoom ⊢
    have hr : (vmmMapPageIn A t va.1 frame flags.bits h₁).1 = true := by
      apply vmmMapPageIn_ok (hc.alloc_own hal)
      rw [hal.oom, ← hoom]
      split
      · rfl
      · exact (vmmFreeFrame_oom A _ _).symm
    rw [if_pos hr]
    exact fresh_moved hc hok (index_user va.2) hal flags.noAddr flags.user flags.plain hr

theorem mapDevice_moved (va : UserVa) {phys : UInt64} (flags : DeviceFlags) (hp : Aligned phys)
    (hm : ¬ L.Managed phys)
    (hoom : (vmmMapPageIn A t va.1 phys flags.bits h).2.2.oom = h.oom) :
    Moved L K own tab sat D True (ownsPte (t.look va.1)) t h
      (vmmMapPageIn A t va.1 phys flags.bits h).2.1 (vmmMapPageIn A t va.1 phys flags.bits h).2.2 := by
  have hdev : has (mkPte phys flags.bits) vmmDevice = true :=
    (has_mkPte _ _ (by decide) (by decide)).trans flags.device
  have hno : ¬ (has (mkPte phys flags.bits) vmmPresent = true ∧
      has (mkPte phys flags.bits) vmmDevice = false) := fun h => by simp [hdev] at h
  apply mapIn_moved hc hok (index_user va.2)
  · rw [add_ownsPte_of_not_maps hno]
    exact hc
  · intro p hp
    have h0 : ownsPte (mkPte phys flags.bits) p = 0 := if_neg fun hmap => hno ⟨hmap.1, hmap.2.1⟩
    omega
  · intro _
    exact (has_mkPte _ _ (by decide) (by decide)).trans flags.user
  · intro _ _
    refine ⟨(has_mkPte _ _ (by decide) (by decide)).trans flags.noCow, .inl ?_⟩
    rw [addr_mkPte _ flags.noAddr hp]
    exact hm
  · exact fun h => absurd trivial h
  · exact vmmMapPageIn_ok hc hoom

end Moves

/-! ### Making, forking and tearing down -/

section
variable (l : List (Option (Table 3))) (s : Option (Table 3))

theorem slotsOwns_append :
    slotsOwns (l ++ [s]) = slotsOwns l + Entry.owns 4 s := by
  rw [slotsOwns_middle, append_nil]

theorem slotsTabs_append :
    slotsTabs (l ++ [s]) = slotsTabs l + Entry.tabs 4 s := by
  rw [slotsTabs_middle, append_nil]

end

theorem look_new (p va : UInt64) : (⟨p, fun _ => Entry.empty 3⟩ : Table 3).look va = 0 := look_empty 3 va

theorem spaceOk_empty (D : UInt64 → Prop) (own : UInt64 → Nat) (p : UInt64) :
    SpaceOk L D own ⟨p, fun _ => Entry.empty 3⟩ := by
  refine ⟨fun i _ => rfl, fun i => Entry.all_empty userWord_zero 3, fun va => ?_, fun va hpriv => ?_⟩
  · exact deviceWord_zero
  · rw [look_new] at hpriv
    exact absurd hpriv.1 (by simp [not_has_zero])

theorem create_stepped (hs : Sound L K w lost sat D)
    (hoom : (w.create A).heap.oom = w.heap.oom) :
    Stepped L K w (w.create A) lost lost sat sat D ∧
      (NoDevice w → NoDevice (w.create A)) := by
  unfold World.create at hoom ⊢
  generalize ha : vmmAllocFrame A w.heap = a at hoom
  obtain ⟨_ | p, h⟩ := a
  · have := vmmAllocFrame_none ha
    subst this
    exact absurd hoom (Nat.succ_ne_self _)
  · have hal := vmmAllocFrame_some hs.counted.inv ha
    have howns : (World.mk h (w.spaces ++ [some ⟨p, fun _ => Entry.empty 3⟩])).owns = w.owns := by
      rw [World.owns, slotsOwns_append]
      show _ + (⟨p, fun _ => Entry.empty 3⟩ : Table 3).owns = _
      rw [Node.owns_zero]
      exact add_zero _
    have htabs : (World.mk h (w.spaces ++ [some ⟨p, fun _ => Entry.empty 3⟩])).tabs =
        plus w.tabs p := by
      rw [World.tabs, slotsTabs_append]
      show _ + (⟨p, fun _ => Entry.empty 3⟩ : Table 3).tabs = _
      rw [Node.tabs_zero]
      funext q
      simp [plus, World.tabs]
    refine ⟨⟨⟨?_, fun t ht => ?_, fun q hq => ?_⟩, .refl _ _, fun q hq _ h0 => ?_⟩,
      fun hn t ht va => ?_⟩
    · rw [howns, htabs]
      exact hs.counted.alloc_tab hal
    · rw [howns]
      rcases mem_append.mp ht with ht | ht
      · exact hs.spaces t ht
      · obtain rfl := Option.some.inj (mem_singleton.mp ht)
        exact spaceOk_empty D _ p
    · rw [howns]
      exact hs.kept q hq
    · rw [howns] at h0
      omega
    · rcases mem_append.mp ht with ht | ht
      · exact hn t ht va
      · obtain rfl := Option.some.inj (mem_singleton.mp ht)
        exact not_has_zero _

theorem not_private_forkKeeps {pte : UInt64} (hu : UserWord pte) : ¬ Private (forkKeeps pte) := by
  intro hpriv
  obtain ⟨h₁, h₂, h₃, h₄⟩ := hpriv
  rw [has_forkKeeps pte (by decide) (by decide)] at h₁ h₃ h₄
  unfold forkKeeps at h₂
  split at h₂
  · rw [not_has_writable_cowPte] at h₂
    exact absurd h₂ (by decide)
  · rename_i hn
    simp [h₁, h₂, h₃, h₄, hu h₁] at hn

theorem DeviceWord.forkKeeps {pte : UInt64} (hd : DeviceWord L D pte) :
    DeviceWord L D (forkKeeps pte) := by
  rcases forkKeeps_cases pte with h | ⟨-, -, h, -⟩
  · rwa [h]
  · apply deviceWord_of_not_device
    rw [has_forkKeeps pte (by decide) (by decide), h]

theorem UserOnly.look (h : UserOnly t) {va : UInt64} (hva : index 3 va ∉ userHalf) :
    t.look va = 0 := by
  rw [Node.look, h _ hva]
  exact look_empty 3 va

theorem SpaceOk.forked {own : UInt64 → Nat} {t t' : Table 3} (hok : SpaceOk L D own t)
    (huser : UserOnly t') (hwords : t'.All UserWord)
    (hlook : ∀ va, t'.look va = forkKeeps (t.look va) ∨ t'.look va = 0) (own' : UInt64 → Nat) :
    SpaceOk L D own' t' := by
  refine ⟨huser, hwords, fun va => ?_, fun va hpriv => ?_⟩
  · rcases hlook va with h | h <;> rw [h]
    · exact (hok.device va).forkKeeps
    · exact deviceWord_zero
  · rcases hlook va with h | h <;> rw [h] at hpriv
    · exact absurd hpriv (not_private_forkKeeps (hok.userWords.look userWord_zero va))
    · exact absurd hpriv.1 (by simp [not_has_zero])

theorem userWord_forkKeeps {pte : UInt64} (hu : UserWord pte) : UserWord (forkKeeps pte) := by
  rw [UserWord, has_forkKeeps pte (by decide) (by decide), has_forkKeeps pte (by decide) (by decide)]
  exact hu

/-- What the two sides of a successful fork hold. -/
structure ForkedSpace (L : Lawful A) (D : UInt64 → Prop) (t : Table 3) (h : Heap σ) (t' c : Table 3)
    (h' : Heap σ) : Prop where
  parent : ∀ va, t'.look va = forkKeeps (t.look va)
  child : ∀ va, c.look va = forkCopy (t.look va)
  ok : ∀ own', SpaceOk L D own' t' ∧ SpaceOk L D own' c
  grows : Grows L h h'

theorem clone_forked
    (hc : Counted L K h (own + t.owns) (tab + t.tabs) sat) (hok : SpaceOk L D (own + t.owns) t)
    (hoom : (vmmCloneAddressSpace A t h).2.2.oom = h.oom) :
    ∃ c, (vmmCloneAddressSpace A t h).2.1 = some c ∧
      ForkedSpace L D t h (vmmCloneAddressSpace A t h).1 c (vmmCloneAddressSpace A t h).2.2 := by
  have hf := vmmCloneAddressSpace_forked t hc fun p hp => Nat.add_pos_right _ hp
  generalize vmmCloneAddressSpace A t h = r at hf hoom
  cases hr : r.2.1 with
  | none => exact absurd hoom (hf.failed hr).ne'
  | some c =>
    have hword : ∀ va, r.1.look va = forkKeeps (t.look va) ∧ c.look va = forkCopy (t.look va) := by
      intro va
      by_cases hva : index 3 va ∈ userHalf
      · rcases hf.look va hva with h₁ | ⟨h₁, -⟩
        · rw [hr] at h₁
          exact h₁
        · exact absurd hoom h₁.ne'
      · have hz : t.look va = 0 := hok.userOnly.look hva
        have hz' : r.1.look va = 0 := by
          rw [Node.look, hf.rest _ hva]
          exact hz
        have hz'' : c.look va = 0 := by
          rw [Node.look, hf.copy_rest c hr _ hva]
          exact look_empty 3 va
        rw [hz, hz', hz'', forkKeeps_zero, forkCopy_zero]
        exact ⟨rfl, rfl⟩
    obtain ⟨hall, hall'⟩ := hf.all UserWord userWord_zero (fun _ => userWord_forkKeeps) hok.userWords
    rw [hr] at hall'
    refine ⟨c, rfl, fun va => (hword va).1, fun va => (hword va).2, fun own' => ⟨?_, ?_⟩, hf.grows⟩
    · refine hok.forked (fun i hi => ?_) hall (fun va => .inl (hword va).1) own'
      rw [hf.rest i hi]
      exact hok.userOnly i hi
    · refine hok.forked (hf.copy_rest c hr) hall' (fun va => ?_) own'
      rw [(hword va).2, forkCopy]
      split
      · exact .inl rfl
      · exact .inr rfl

theorem clone_stepped {a : Nat} (hs : Sound L K w lost sat D)
    (hoom : (w.clone A a).heap.oom = w.heap.oom) :
    ∃ sat', Stepped L K w (w.clone A a) lost lost sat sat' D ∧
      (NoDevice w → NoDevice (w.clone A a)) := by
  unfold World.clone at hoom ⊢
  cases ht : w.space a with
  | none => exact ⟨sat, hs.refl_stepped, id⟩
  | some t =>
    obtain ⟨l₁, l₂, hw, -, hset⟩ := World.split ht
    obtain ⟨h, l⟩ := w
    obtain rfl : l = l₁ ++ some t :: l₂ := hw
    rw [ht] at hoom
    dsimp only at hoom hset ⊢
    obtain ⟨hc, hok⟩ := hs.at
    obtain ⟨c, hr, hfs⟩ := clone_forked hc hok hoom
    have hf := vmmCloneAddressSpace_forked t hc fun p hp => Nat.add_pos_right _ hp
    rw [hset, hr]
    generalize vmmCloneAddressSpace A t h = r at hf hfs hr hoom
    obtain ⟨sat', hsat, hc'⟩ := hf.counted
    obtain ⟨hto, hco⟩ := hf.owns
    rw [hr] at hc' hco hsat
    have howns : (World.mk r.2.2 (l₁ ++ some r.1 :: l₂ ++ [some c])).owns + lost =
        slotsOwns (l₁ ++ l₂) + lost + t.owns + c.owns := by
      rw [World.owns, slotsOwns_append, slotsOwns_middle]
      show slotsOwns (l₁ ++ l₂) + r.1.owns + c.owns + lost = _
      rw [hto, add_right_comm, add_right_comm _ _ lost]
    have htabs : (World.mk r.2.2 (l₁ ++ some r.1 :: l₂ ++ [some c])).tabs =
        slotsTabs (l₁ ++ l₂) + t.tabs + c.tabs := by
      rw [World.tabs, slotsTabs_append, slotsTabs_middle]
      show slotsTabs (l₁ ++ l₂) + r.1.tabs + c.tabs = _
      rw [hf.tabs]
    have hbefore := World.owns_middle h l₁ l₂ t
    have hcopy : ∀ p, c.owns p ≤ t.owns p := hco
    refine ⟨sat', ⟨⟨?_, fun s hmem => ?_, fun p hp => ?_⟩, ?_, fun p hp _ h0 => ?_⟩,
      fun hn s hmem va => ?_⟩
    · rw [howns, htabs]
      exact hc'
    · rw [howns]
      rcases mem_append.mp hmem with hmem | hmem
      · rcases mem_middle hmem with hmem | hmem
        · obtain rfl := Option.some.inj hmem
          exact (hfs.ok _).1
        · refine (hs.spaces s (mem_of_mem_rest _ hmem)).frame (fun p => id) fun p hp hone => ?_
          have h₁ := owns_le_slotsOwns hmem p
          have h₂ := hcopy p
          have h₃ := hbefore p
          simp only [Pi.add_apply] at hone ⊢
          omega
      · obtain rfl := Option.some.inj (mem_singleton.mp hmem)
        exact (hfs.ok _).2
    · obtain ⟨h₁, h₂⟩ := hs.kept p hp
      have h₃ := hcopy p
      have h₄ := congrFun howns p
      rw [hbefore p] at h₂
      simp only [Pi.add_apply] at h₄
      exact ⟨h₁, by omega⟩
    · rw [howns]
      exact hsat
    · rw [howns] at h0
      have h₃ := hbefore p
      simp only [Pi.add_apply] at hp h0
      omega
    · have hkeep : ∀ va, has (t.look va) vmmDevice = false := hn t (by simp)
      rcases mem_append.mp hmem with hmem | hmem
      · rcases mem_middle hmem with hmem | hmem
        · obtain rfl := Option.some.inj hmem
          rw [hfs.parent, has_forkKeeps _ (by decide) (by decide)]
          exact hkeep va
        · exact hn s (mem_of_mem_rest _ hmem) va
      · obtain rfl := Option.some.inj (mem_singleton.mp hmem)
        rw [hfs.child, forkCopy]
        split
        · rw [has_forkKeeps _ (by decide) (by decide)]
          exact hkeep va
        · exact not_has_zero _

theorem destroy_stepped (a : Nat) (hs : Sound L K w lost sat D) :
    Stepped L K w (w.destroy A a) lost lost sat sat D ∧
      (NoDevice w → NoDevice (w.destroy A a)) := by
  unfold World.destroy
  cases ht : w.space a with
  | none => exact ⟨hs.refl_stepped, id⟩
  | some t =>
    obtain ⟨l₁, l₂, hw, -, hset⟩ := World.split ht
    obtain ⟨h, l⟩ := w
    obtain rfl : l = l₁ ++ some t :: l₂ := hw
    rw [hset]
    obtain ⟨hc, hok⟩ := hs.at
    have hc' := vmmDestroyAddressSpace_counted t hok.userOnly hc
    have hz : Entry.owns 4 none = 0 := owns_empty 4
    have howns : (World.mk (vmmDestroyAddressSpace A t h) (l₁ ++ none :: l₂)).owns =
        slotsOwns (l₁ ++ l₂) := by
      rw [World.owns, slotsOwns_middle, hz, add_zero]
    have htabs : (World.mk (vmmDestroyAddressSpace A t h) (l₁ ++ none :: l₂)).tabs =
        slotsTabs (l₁ ++ l₂) := by
      rw [World.tabs, slotsTabs_middle, show Entry.tabs 4 none = 0 from tabs_empty 4, add_zero]
    have hbefore := World.owns_middle h l₁ l₂ t
    have hmem' : ∀ s : Table 3, some s ∈ l₁ ++ none :: l₂ → some s ∈ l₁ ++ l₂ := fun s hs =>
      (mem_middle hs).resolve_left (by simp)
    refine ⟨⟨⟨?_, fun s hmem => ?_, fun p hp => ?_⟩, .refl _ _, fun p hp hl h0 => ?_⟩,
      fun hn s hmem va => hn s (mem_of_mem_rest _ (hmem' s hmem)) va⟩
    · rw [howns, htabs]
      exact hc'
    · rw [howns]
      refine (hs.spaces s (mem_of_mem_rest _ (hmem' s hmem))).frame (fun p => id) fun p hp hone => ?_
      have h₃ := hbefore p
      simp only [Pi.add_apply] at hone ⊢
      omega
    · obtain ⟨h₁, h₂⟩ := hs.kept p hp
      rw [hbefore p] at h₂
      rw [howns]
      exact ⟨h₁, by omega⟩
    · have h₃ := hbefore p
      rw [howns] at h0
      simp only [Pi.add_apply] at hp
      refine hc.sat_of_live hc' ?_ (Nat.le_add_right _ _) hl h0
      simp only [Pi.add_apply]
      omega

/-! ### The step lemma -/

/-- Device mappings are of aligned memory outside the allocator. -/
def Op.Proper (L : Lawful A) : Op → Prop
  | .mapDevice _ _ phys _ => Aligned phys ∧ ¬ L.Managed phys
  | _ => True

def Op.isDevice : Op → Bool
  | .mapDevice .. => true
  | _ => false

/-- A mapping of a fresh frame goes where nothing is mapped yet. -/
def Op.fresh (w : World σ) : Op → Bool
  | .mapFresh a va _ =>
    match w.space a with
    | none => true
    | some t => !has (t.look va.1) vmmPresent
  | _ => true

theorem ownsPte_of_not_present {pte : UInt64} (h : has pte vmmPresent = false) : ownsPte pte = 0 := by
  funext p
  exact if_neg fun hm => absurd (h.symm.trans hm.1) (by decide)

theorem World.on_oom {a : Nat} {f : Table 3 → Heap σ → Table 3 × Heap σ}
    (ht : w.space a = some t) (h : (w.on a f).heap.oom = w.heap.oom) :
    (f t w.heap).2.oom = w.heap.oom := by
  unfold World.on at h
  rw [ht] at h
  exact h

/-- **Every step keeps the world sound**, as long as no allocation fails; and no frame is
lost to the account by a step that does not map device memory or map over a page. -/
theorem step_stepped (op : Op) (hs : Sound L K w lost sat D) (hop : op.Proper L)
    (hoom : (step A w op).heap.oom = w.heap.oom) :
    ∃ lost' sat' D', Stepped L K w (step A w op) lost lost' sat sat' D' ∧
      (op.isDevice = false → NoDevice w → NoDevice (step A w op)) ∧
      (op.isDevice = false → NoDevice w → op.fresh w = true → lost' = lost) := by
  have hdev : ∀ {a : Nat} {va : UInt64}, NoDevice w → ∀ t, w.space a = some t →
      has (t.look va) vmmDevice = false := by
    intro a va hn t ht
    exact hn t (mem_of_getElem? (World.getElem?_of_space ht)) va
  cases op with
  | create =>
    obtain ⟨h₁, h₂⟩ := create_stepped hs hoom
    exact ⟨lost, sat, D, h₁, fun _ => h₂, fun _ _ _ => rfl⟩
  | clone a =>
    obtain ⟨sat', h₁, h₂⟩ := clone_stepped hs hoom
    exact ⟨lost, sat', D, h₁, fun _ => h₂, fun _ _ _ => rfl⟩
  | destroy a =>
    obtain ⟨h₁, h₂⟩ := destroy_stepped a hs
    exact ⟨lost, sat, D, h₁, fun _ => h₂, fun _ _ _ => rfl⟩
  | mapFresh a va flags =>
    obtain ⟨gone, D', h₁, h₂, h₃⟩ := hs.on_stepped False a (mapFresh A va.1 flags.bits)
      (fun t => has (t.look va.1) vmmPresent = false)
      fun t own tab ht hc hok => ⟨_, mapFresh_moved hc hok va flags (World.on_oom ht hoom),
        ownsPte_of_not_present⟩
    refine ⟨lost + gone, sat, D', h₁, fun _ => h₂ id, fun _ _ hfresh => ?_⟩
    rw [h₃, add_zero]
    intro t ht
    simpa [Op.fresh, ht] using hfresh
  | mapDevice a va phys flags =>
    obtain ⟨gone, D', h₁, -, -⟩ := hs.on_stepped True a
      (fun t h => (vmmMapPageIn A t va.1 phys flags.bits h).2) (fun _ => False)
      fun t own tab ht hc hok => ⟨_, mapDevice_moved hc hok va flags hop.1 hop.2
        (World.on_oom ht hoom), False.elim⟩
    exact ⟨lost + gone, sat, D', h₁, fun h => by simp [Op.isDevice] at h, fun h => by simp [Op.isDevice] at h⟩
  | fault a brk va wasWrite =>
    obtain ⟨gone, D', h₁, h₂, h₃⟩ := hs.on_stepped False a
      (fun t h => (userFaultFixup A brk t va (has (t.look va) vmmPresent) wasWrite h).2)
      (fun t => has (t.look va) vmmDevice = false)
      fun t own tab ht hc hok => userFaultFixup_moved hc hok brk va wasWrite (World.on_oom ht hoom)
    refine ⟨lost + gone, sat, D', h₁, fun _ => h₂ id, fun _ hn _ => ?_⟩
    rw [h₃ (hdev hn), add_zero]
  | store a brk va byte =>
    obtain ⟨gone, D', h₁, h₂, h₃⟩ := hs.on_stepped False a (userStore A brk va byte)
      (fun t => has (t.look va) vmmDevice = false)
      fun t own tab ht hc hok => userStore_moved hc hok brk va byte (World.on_oom ht hoom)
    refine ⟨lost + gone, sat, D', h₁, fun _ => h₂ id, fun _ hn _ => ?_⟩
    rw [h₃ (hdev hn), add_zero]
  | unmap a va pages =>
    obtain ⟨gone, D', h₁, h₂, h₃⟩ := hs.on_stepped False a
      (fun t h => ((vmmUnmapRangeReleaseIn A t va pages h).1,
        (vmmUnmapRangeReleaseIn A t va pages h).2.2)) (fun _ => True)
      fun t own tab ht hc hok => ⟨0, unmap_moved hc hok va pages, fun _ => rfl⟩
    refine ⟨lost + gone, sat, D', h₁, fun _ => h₂ id, fun _ _ _ => ?_⟩
    rw [h₃ fun _ _ => trivial, add_zero]

end Steps

end InDevOS.Mem
