import InDevOS.Mem.Cow

/-! Fork isolation: what one address space writes to its private pages no other address
space sees.

The argument is the soundness of the world. A store goes through a writable word;
if the page is neither shared nor device memory, its frame has no second owner
(`SpaceOk.sole`), so no word of another address space maps it; and a fault on the way
changes no memory that was in use. Directly after a fork both sides hold the same words
over the same memory (`clone_reads`). -/
namespace InDevOS.Mem

variable {σ : Type} {A : FrameAllocator σ}

/-- A run in which no allocation fails and device mappings are of device memory. -/
def SafeRun (L : Lawful A) : World σ → List Op → Prop
  | _, [] => True
  | w, op :: ops =>
    (op.Proper L ∧ (step A w op).heap.oom = w.heap.oom) ∧ SafeRun L (step A w op) ops

section
variable {L : Lawful A} {K : UInt64 → Prop} {w : World σ} {lost : UInt64 → Nat}
  {sat D : UInt64 → Prop}

theorem SafeRun.sound (ops : List Op) (hrun : SafeRun L w ops) (hs : Sound L K w lost sat D) :
    ∃ lost' sat' D', Sound L K (run A w ops) lost' sat' D' := by
  induction ops generalizing w lost sat D with
  | nil => exact ⟨lost, sat, D, hs⟩
  | cons op ops ih =>
    obtain ⟨lost₁, sat₁, D₁, h₁, -⟩ := step_stepped op hs hrun.1.1 hrun.1.2
    exact ih hrun.2 h₁.sound

theorem World.mem_of_space {a : Nat} {t : Table 3} (h : w.space a = some t) : some t ∈ w.spaces :=
  List.mem_of_getElem? (World.getElem?_of_space h)

theorem World.owns_two {a b : Nat} (hab : b ≠ a) {t s : Table 3} (ht : w.space a = some t)
    (hb : w.space b = some s) (p : UInt64) : t.owns p + s.owns p ≤ w.owns p := by
  obtain ⟨l₁, l₂, hw, hlen, -⟩ := World.split ht
  have hget := World.getElem?_of_space hb
  rw [hw] at hget
  have hmem : some s ∈ l₁ ++ l₂ := by
    rcases Nat.lt_or_ge b l₁.length with hlt | hge
    · rw [List.getElem?_append_left hlt] at hget
      exact List.mem_append.mpr (.inl (List.mem_of_getElem? hget))
    · rw [List.getElem?_append_right hge] at hget
      obtain ⟨k, hk⟩ : ∃ k, b - l₁.length = k + 1 := ⟨b - l₁.length - 1, by omega⟩
      rw [hk, List.getElem?_cons_succ] at hget
      exact List.mem_append.mpr (.inr (List.mem_of_getElem? hget))
  have h₁ := owns_le_slotsOwns hmem p
  have h₂ : w.owns p = slotsOwns (l₁ ++ l₂) p + t.owns p := by
    rw [World.owns, hw, slotsOwns_middle]
    rfl
  omega

/-- The frame of a private page is mapped by no other address space. -/
theorem Sound.private_apart (hs : Sound L K w lost sat D) {a b : Nat} (hab : b ≠ a) {t s : Table 3}
    (ht : w.space a = some t) (hb : w.space b = some s) {va x : UInt64} (hpriv : Private (t.look va))
    (hp : has (s.look x) vmmPresent = true) : addr (s.look x) ≠ addr (t.look va) := by
  intro heq
  have hown : 0 < t.owns (addr (t.look va)) := Node.owns_pos hpriv.maps
  have htwo := World.owns_two hab ht hb (addr (t.look va))
  by_cases hd : has (s.look x) vmmDevice = true
  · rcases ((hs.spaces s (World.mem_of_space hb)).device x hp hd).2 with hm | ⟨-, hD⟩
    · apply hm
      rw [heq]
      have hl := hs.counted.ownLive (addr (t.look va)) (Nat.add_pos_left (by omega) _)
      exact (L.live_frame hs.counted.inv hl).2.2
    · have := (hs.kept _ hD).2
      rw [heq] at this
      omega
  · have hmaps : Maps (s.look x) (addr (t.look va)) := ⟨hp, by simpa using hd, heq⟩
    have h₁ := Node.owns_pos hmaps
    have h₂ := (hs.spaces t (World.mem_of_space ht)).sole va hpriv
    simp only [Pi.add_apply] at h₂
    omega

theorem World.on_space_of_ne {a b : Nat} (hab : b ≠ a) (f : Table 3 → Heap σ → Table 3 × Heap σ) :
    (w.on a f).space b = w.space b := by
  unfold World.on
  cases w.space a with
  | none => rfl
  | some t =>
    unfold World.space
    rw [List.getElem?_set_ne hab.symm]

section
variable {a : Nat} {t : Table 3} (ht : w.space a = some t) (f : Table 3 → Heap σ → Table 3 × Heap σ)
include ht

theorem World.on_space_self : (w.on a f).space a = some (f t w.heap).1 := by
  obtain ⟨hlt, -⟩ := List.getElem?_eq_some_iff.mp (World.getElem?_of_space ht)
  unfold World.on
  rw [ht]
  unfold World.space
  rw [List.getElem?_set_self hlt]
  rfl

end

end

/-- The world after forking an address space with one page. -/
def forked : World FreeList :=
  step freeList (run freeList (boot fewFrames blank) mapPage) (.clone 0)

end InDevOS.Mem
