import Mathlib

/-! Linked lists threaded through a table of cells.

The cells are the elements of `ι`; a link field is a function `ι → Option ι`, with
`none` for the null pointer. `Seg next p l q` says that following `next` from `p`
visits exactly the cells `l` and arrives at `q`; a whole list ends at `none`. A
doubly linked list is two such segments, one along each link field, that visit the
same cells in opposite orders (`Links.Holds`).

The operations are the ones written by hand in systems code: push at the front,
unlink by a walk with a pointer to the link (`unlink`), and the constant-time
removal from a doubly linked list (`Links.remove`). Each has one lemma that says
which list it leaves. -/
namespace InDevOS.Lib
open Function List

variable {ι : Type*}

/-- Following `next` from `p` visits `l` and arrives at `q`. -/
def Seg (next : ι → Option ι) : Option ι → List ι → Option ι → Prop
  | p, [], q => p = q
  | p, a :: l, q => p = some a ∧ Seg next (next a) l q

namespace Seg
variable {next next' : ι → Option ι} {l : List ι} {p q : Option ι}

@[simp] theorem nil_iff {p q : Option ι} : Seg next p [] q ↔ p = q := Iff.rfl

@[simp] theorem cons_iff {p q : Option ι} {a : ι} {l : List ι} :
    Seg next p (a :: l) q ↔ p = some a ∧ Seg next (next a) l q := Iff.rfl

theorem append_iff {l₁ l₂ : List ι} :
    Seg next p (l₁ ++ l₂) q ↔ ∃ r, Seg next p l₁ r ∧ Seg next r l₂ q := by
  induction l₁ generalizing p with
  | nil => simp
  | cons a l ih => simp [ih, and_assoc]

theorem congr (h : Seg next p l q)
    (hc : ∀ a ∈ l, next' a = next a) : Seg next' p l q := by
  induction l generalizing p with
  | nil => exact h
  | cons a l ih =>
    obtain ⟨hp, hl⟩ := h
    refine ⟨hp, ?_⟩
    rw [hc a mem_cons_self]
    exact ih hl fun b hb => hc b (mem_cons_of_mem _ hb)

/-- The list a null-terminated segment visits is determined by where it starts. -/
theorem unique {l l' : List ι} {p : Option ι} (h : Seg next p l none) (h' : Seg next p l' none) :
    l = l' := by
  induction l generalizing p l' with
  | nil =>
    cases l' with
    | nil => rfl
    | cons b l' => simp_all
  | cons a l ih =>
    cases l' with
    | nil => simp_all
    | cons b l' =>
      obtain ⟨hp, hl⟩ := h
      obtain ⟨hp', hl'⟩ := h'
      obtain rfl : a = b := by simpa [hp] using hp'
      rw [ih hl hl']

theorem nodup {p : Option ι} (h : Seg next p l none) : l.Nodup := by
  induction l generalizing p with
  | nil => exact nodup_nil
  | cons a l ih =>
    obtain ⟨-, hl⟩ := h
    refine nodup_cons.mpr ⟨fun ha => ?_, ih hl⟩
    obtain ⟨l₁, l₂, rfl⟩ := append_of_mem ha
    obtain ⟨r, -, -, h₂⟩ := append_iff.mp hl
    have := congrArg length (unique hl h₂)
    simp at this
    omega

/-- Redirecting the last cell's link moves where the segment arrives. -/
theorem redirect [DecidableEq ι] {a : ι} (r : Option ι)
    (h : Seg next p (l ++ [a]) q) (ha : a ∉ l) :
    Seg (update next a r) p (l ++ [a]) r := by
  obtain ⟨s, h₁, hs, -⟩ := append_iff.mp h
  refine append_iff.mpr ⟨s, h₁.congr fun b hb => ?_, hs, ?_⟩
  · exact update_of_ne (fun hba : b = a => ha (hba ▸ hb)) ..
  · simp

theorem update_of_notMem [DecidableEq ι] {a : ι} {r : Option ι}
    (h : Seg next p l q) (ha : a ∉ l) : Seg (update next a r) p l q :=
  h.congr fun b hb => update_of_ne (fun hba : b = a => ha (hba ▸ hb)) ..

theorem push [DecidableEq ι] {a : ι} (h : Seg next p l q)
    (ha : a ∉ l) : Seg (update next a p) (some a) (a :: l) q := by
  refine ⟨rfl, ?_⟩
  rw [update_self]
  exact h.update_of_notMem ha

theorem head {p : Option ι} (h : Seg next p l none) : p = l.head? := by
  cases l with
  | nil => exact h
  | cons a l => exact h.1

end Seg

/-! ### Unlinking with a pointer to the link -/

section Unlink
variable [DecidableEq ι]

/-- The walk past the first cell: redirect the link that points at `e`. -/
def unlinkAfter (next : ι → Option ι) (e : ι) : Nat → ι → (ι → Option ι)
  | 0, _ => next
  | fuel + 1, a =>
    match next a with
    | none => next
    | some b => if b = e then Function.update next a (next e) else unlinkAfter next e fuel b

/-- `pp = &head; while (*pp && *pp != e) pp = &(*pp)->next; if (*pp) *pp = e->next;` -/
def unlink (next : ι → Option ι) (head : Option ι) (e : ι) (fuel : Nat) :
    Option ι × (ι → Option ι) :=
  match head with
  | none => (none, next)
  | some b => if b = e then (next e, next) else (some b, unlinkAfter next e fuel b)

variable {next : ι → Option ι} {e : ι}

theorem unlinkAfter_seg {l₁ l₂ : List ι} {a : ι} {fuel : Nat}
    (h : Seg next (some a) (a :: (l₁ ++ e :: l₂)) none) (hf : l₁.length < fuel) :
    Seg (unlinkAfter next e fuel a) (some a) (a :: (l₁ ++ l₂)) none ∧
      ∀ b, b ∉ a :: l₁ → unlinkAfter next e fuel a b = next b := by
  induction fuel generalizing a l₁ with
  | zero => omega
  | succ fuel ih =>
    have hn := h.nodup
    cases l₁ with
    | nil =>
      obtain ⟨-, hnext, htail⟩ := h
      have hun : unlinkAfter next e (fuel + 1) a = update next a (next e) := by
        simp [unlinkAfter, hnext]
      rw [hun]
      refine ⟨⟨rfl, ?_⟩, fun b hb => ?_⟩
      · rw [update_self]
        refine htail.update_of_notMem fun ha => ?_
        simp [ha] at hn
      · exact update_of_ne (by simpa using hb) ..
    | cons b l₁ =>
      obtain ⟨-, hnext, htail⟩ := h
      have hbe : b ≠ e := by
        rintro rfl
        simp at hn
      have hab : a ∉ b :: l₁ := by
        intro ha
        have := (nodup_cons.mp hn).1
        exact this (mem_append_left _ ha)
      have hun : unlinkAfter next e (fuel + 1) a = unlinkAfter next e fuel b := by
        simp [unlinkAfter, hnext, hbe]
      rw [hun]
      have htail' : Seg next (some b) (b :: (l₁ ++ e :: l₂)) none := ⟨rfl, htail⟩
      obtain ⟨hseg, hframe⟩ := ih htail' (by simpa using hf)
      refine ⟨⟨rfl, ?_⟩, fun c hc => hframe c fun hm => hc (mem_cons_of_mem _ hm)⟩
      rw [hframe a hab, hnext]
      exact hseg

theorem unlink_split {l₁ l₂ : List ι} {head : Option ι} {fuel : Nat}
    (h : Seg next head (l₁ ++ e :: l₂) none) (hf : l₁.length ≤ fuel) :
    Seg (unlink next head e fuel).2 (unlink next head e fuel).1 (l₁ ++ l₂) none ∧
      ∀ b, b ∉ l₁ → (unlink next head e fuel).2 b = next b := by
  have hn := h.nodup
  cases l₁ with
  | nil =>
    obtain ⟨rfl, htail⟩ := h
    simpa [unlink] using htail
  | cons a l₁ =>
    obtain ⟨rfl, htail⟩ := h
    have hae : a ≠ e := by
      rintro rfl
      simp at hn
    simp only [unlink, if_neg hae]
    exact unlinkAfter_seg ⟨rfl, htail⟩ hf

/-- Unlinking `e` leaves the list without it, and touches only links of the list. -/
theorem unlink_seg {l : List ι} {head : Option ι} {fuel : Nat} (h : Seg next head l none)
    (he : e ∈ l) (hf : l.length ≤ fuel) :
    Seg (unlink next head e fuel).2 (unlink next head e fuel).1 (l.erase e) none ∧
      ∀ b, b ∉ l → (unlink next head e fuel).2 b = next b := by
  obtain ⟨l₁, l₂, hne, rfl, herase⟩ := exists_erase_eq he
  have hlen : l₁.length ≤ fuel := by
    rw [length_append] at hf
    omega
  obtain ⟨hseg, hframe⟩ := unlink_split h hlen
  rw [herase]
  exact ⟨hseg, fun b hb => hframe b fun hm => hb (mem_append.mpr (.inl hm))⟩

end Unlink

/-! ### Doubly linked lists -/

/-- The two link fields and the two ends of a doubly linked list. -/
structure Links (ι : Type*) where
  next : ι → Option ι
  prev : ι → Option ι
  head : Option ι
  tail : Option ι

namespace Links
variable [DecidableEq ι] {s : Links ι}

/-- The list is `l`: forwards along `next` from the head, backwards along `prev`
from the tail. -/
structure Holds (s : Links ι) (l : List ι) : Prop where
  forward : Seg s.next s.head l none
  backward : Seg s.prev s.tail l.reverse none

/-- Set the link after `p`, or the head when there is no cell before. -/
def setNext (s : Links ι) (p : Option ι) (q : Option ι) : Links ι :=
  match p with
  | some a => { s with next := Function.update s.next a q }
  | none => { s with head := q }

/-- Set the link before `p`, or the tail when there is no cell after. -/
def setPrev (s : Links ι) (p : Option ι) (q : Option ι) : Links ι :=
  match p with
  | some a => { s with prev := Function.update s.prev a q }
  | none => { s with tail := q }

/-- Take `e` out and clear its links. -/
def remove (s : Links ι) (e : ι) : Links ι :=
  let s' := (s.setNext (s.prev e) (s.next e)).setPrev (s.next e) (s.prev e)
  { s' with next := Function.update s'.next e none, prev := Function.update s'.prev e none }

/-- Put `e` at the front. -/
def pushFront (s : Links ι) (e : ι) : Links ι :=
  let s' := { s with prev := Function.update s.prev e none, next := Function.update s.next e s.head }
  let s'' := match s.head with
    | some h => { s' with prev := Function.update s'.prev h (some e) }
    | none => s'
  { s'' with head := some e, tail := if s.tail.isNone then some e else s.tail }

/-- One direction of removal: the link field `f` from `p`, with `e` bypassed. -/
theorem bypass {f : ι → Option ι} {p : Option ι} {l₁ l₂ : List ι} {e : ι}
    (h : Seg f p (l₁ ++ e :: l₂) none) :
    Seg (match l₁.getLast? with
        | some a => update f a (f e)
        | none => f)
      (match l₁.getLast? with
        | some _ => p
        | none => f e) (l₁ ++ l₂) none := by
  have hn := h.nodup
  rcases eq_nil_or_concat l₁ with rfl | ⟨l, a, rfl⟩
  · simpa using h.2
  · simp only [concat_eq_append, getLast?_append_cons, getLast?_singleton]
    rw [concat_eq_append] at h hn
    obtain ⟨r, h₁, -, h₂⟩ := Seg.append_iff.mp h
    have hal : a ∉ l := by
      intro ha
      simp only [append_assoc, nodup_append] at hn
      exact hn.2.2 a ha a (by simp) rfl
    have hal₂ : a ∉ l₂ := by
      intro ha
      simp only [append_assoc, nodup_append] at hn
      exact hn.2.1.2.2 a (by simp) a (mem_cons_of_mem _ ha) rfl
    exact Seg.append_iff.mpr ⟨f e, h₁.redirect (f e) hal, h₂.update_of_notMem hal₂⟩

omit [DecidableEq ι] in
theorem Holds.prev_eq {l₁ l₂ : List ι} {e : ι} (h : s.Holds (l₁ ++ e :: l₂)) :
    s.prev e = l₁.getLast? := by
  have hb := h.backward
  rw [reverse_append, reverse_cons, append_assoc] at hb
  obtain ⟨r, -, hr, hb⟩ := Seg.append_iff.mp hb
  exact (Seg.head hb).trans head?_reverse

omit [DecidableEq ι] in
theorem Holds.next_eq {l₁ l₂ : List ι} {e : ι} (h : s.Holds (l₁ ++ e :: l₂)) :
    s.next e = l₂.head? := by
  obtain ⟨r, -, hr, hb⟩ := Seg.append_iff.mp h.forward
  exact Seg.head hb

section
variable (s : Links ι) (e : ι)

theorem remove_next : (s.remove e).next = update (match s.prev e with
      | some a => update s.next a (s.next e)
      | none => s.next) e none := by
  unfold remove setNext setPrev
  cases s.prev e <;> cases s.next e <;> rfl

theorem remove_prev : (s.remove e).prev = update (match s.next e with
      | some a => update s.prev a (s.prev e)
      | none => s.prev) e none := by
  unfold remove setNext setPrev
  cases s.prev e <;> cases s.next e <;> rfl

theorem remove_head : (s.remove e).head = (match s.prev e with | some _ => s.head | none => s.next e) := by
  unfold remove setNext setPrev
  cases s.prev e <;> cases s.next e <;> rfl

theorem remove_tail : (s.remove e).tail = (match s.next e with | some _ => s.tail | none => s.prev e) := by
  unfold remove setNext setPrev
  cases s.prev e <;> cases s.next e <;> rfl

end

theorem remove_split {l₁ l₂ : List ι} {e : ι} (h : s.Holds (l₁ ++ e :: l₂)) :
    (s.remove e).Holds (l₁ ++ l₂) := by
  have hn := h.forward.nodup
  have he : e ∉ l₁ ++ l₂ := fun hm => (nodup_middle.mp hn).notMem hm
  have hf := bypass h.forward
  have hb : Seg s.prev s.tail (l₂.reverse ++ e :: l₁.reverse) none := by
    have := h.backward
    rwa [reverse_append, reverse_cons, append_assoc] at this
  have hb := bypass hb
  refine ⟨?_, ?_⟩
  · rw [remove_next, remove_head, h.prev_eq]
    exact hf.update_of_notMem he
  · rw [remove_prev, remove_tail, h.next_eq, reverse_append]
    rw [getLast?_reverse] at hb
    exact hb.update_of_notMem (by simpa [and_comm] using he)

theorem remove_holds {l : List ι} {e : ι} (h : s.Holds l) (he : e ∈ l) :
    (s.remove e).Holds (l.erase e) := by
  obtain ⟨l₁, l₂, -, rfl, herase⟩ := exists_erase_eq he
  rw [herase]
  exact remove_split h

theorem pushFront_holds {l : List ι} {e : ι} (h : s.Holds l) (he : e ∉ l) :
    (s.pushFront e).Holds (e :: l) := by
  have hhead := Seg.head h.forward
  have htail := Seg.head h.backward
  cases l with
  | nil =>
    refine ⟨?_, ?_⟩ <;> simp [pushFront, hhead, htail]
  | cons a l =>
    have hsome : s.tail.isNone = false := by rw [htail]; simp
    have hea : e ≠ a := fun h' => he (h' ▸ mem_cons_self)
    refine ⟨?_, ?_⟩
    · have := h.forward.push he
      simpa [pushFront, hhead] using this
    · simp only [pushFront, hhead, hsome, Bool.false_eq_true, if_false, reverse_cons]
      have hal : a ∉ l.reverse := by
        have := h.forward.nodup
        simpa using (nodup_cons.mp this).1
      have hb : Seg (update s.prev e none) s.tail (l.reverse ++ [a]) none := by
        have := h.backward
        rw [reverse_cons] at this
        exact this.update_of_notMem (by simpa [and_comm, eq_comm] using he)
      refine Seg.append_iff.mpr ⟨some e, hb.redirect (some e) hal, rfl, ?_⟩
      simp [hea]

end Links

end InDevOS.Lib
