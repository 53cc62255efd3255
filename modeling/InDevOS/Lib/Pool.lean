import InDevOS.Lib.Chain

/-! Several doubly linked lists through the same link fields.

A cell has one pair of link fields, so it can be in one list at a time. A `Pool` is the
two link fields and a head and a tail for every list name; `Pool.Holds L` says that the
list named `q` is `L q`, for all names, and that no cell is in two lists. The two
operations are the removal of a cell and the insertion of a cell between two neighbours;
insertion at either end and in order are insertions between the neighbours found there.

Searching a list is `walk`: the first cell that satisfies a test. -/
namespace InDevOS.Lib
open Function List

variable {ι κ : Type*}

/-! ### Searching -/

/-- `for (t = p; t; t = t->next) if (ok(t)) return t;` over at most `fuel` cells. -/
def walk (next : ι → Option ι) (ok : ι → Bool) : Nat → Option ι → Option ι
  | 0, _ => none
  | _ + 1, none => none
  | fuel + 1, some a => if ok a then some a else walk next ok fuel (next a)

theorem walk_eq_find {next : ι → Option ι} {ok : ι → Bool} {l : List ι} {p : Option ι} {fuel : Nat}
    (h : Seg next p l none) (hf : l.length ≤ fuel) : walk next ok fuel p = l.find? ok := by
  induction l generalizing p fuel with
  | nil =>
    cases (show p = none from h)
    cases fuel <;> rfl
  | cons a l ih =>
    obtain ⟨rfl, hl⟩ := h
    cases fuel with
    | zero => simp at hf
    | succ fuel =>
      rw [length_cons] at hf
      rw [find?_cons, walk, ih hl (by omega)]
      cases ok a <;> rfl

/-- `while (*pp && before(*pp)) pp = &(*pp)->next;` with the cell passed last: the two
neighbours of the place found. -/
def place (next : ι → Option ι) (before : ι → Bool) :
    Nat → (prev p : Option ι) → Option ι × Option ι
  | 0, prev, p => (prev, p)
  | _ + 1, prev, none => (prev, none)
  | fuel + 1, prev, some a =>
    if before a then place next before fuel (some a) (next a) else (prev, some a)

theorem place_eq {next : ι → Option ι} {before : ι → Bool} {l : List ι} {prev p : Option ι}
    {fuel : Nat} (h : Seg next p l none) (hf : l.length ≤ fuel) :
    place next before fuel prev p =
      (((l.takeWhile before).getLast?).or prev, (l.dropWhile before).head?) := by
  induction l generalizing p prev fuel with
  | nil =>
    cases (show p = none from h)
    cases fuel <;> rfl
  | cons a l ih =>
    obtain ⟨rfl, hl⟩ := h
    cases fuel with
    | zero => simp at hf
    | succ fuel =>
      rw [length_cons] at hf
      rw [place]
      cases hb : before a with
      | true =>
        rw [if_pos rfl, ih hl (by omega), takeWhile_cons_of_pos hb,
          dropWhile_cons_of_pos hb, getLast?_cons]
        cases (l.takeWhile before).getLast? <;> rfl
      | false =>
        rw [if_neg (by simp), takeWhile_cons_of_neg (by simp [hb]),
          dropWhile_cons_of_neg (by simp [hb])]
        rfl

/-! ### Insertion into one list -/

namespace Links
variable [DecidableEq ι] {s : Links ι}

/-- Put `e` between `a` and `b`; a missing neighbour is the end of the list. -/
def insert (s : Links ι) (a b : Option ι) (e : ι) : Links ι :=
  let s' := (s.setNext a (some e)).setPrev b (some e)
  { s' with next := Function.update s'.next e b, prev := Function.update s'.prev e a }

/-- One direction of insertion: the link field `f` from `p`, with `e` spliced in. -/
theorem splice {f : ι → Option ι} {p : Option ι} {l₁ l₂ : List ι} {e : ι}
    (h : Seg f p (l₁ ++ l₂) none) (he : e ∉ l₁ ++ l₂) :
    Seg (update (match l₁.getLast? with
        | some a => update f a (some e)
        | none => f) e l₂.head?)
      (match l₁.getLast? with
        | some _ => p
        | none => some e) (l₁ ++ e :: l₂) none := by
  have hn := h.nodup
  obtain ⟨r, h₁, h₂⟩ := Seg.append_iff.mp h
  have hr : r = l₂.head? := Seg.head h₂
  rw [mem_append, not_or] at he
  rcases eq_nil_or_concat l₁ with rfl | ⟨l, a, rfl⟩
  · have hp : p = l₂.head? := (show p = r from h₁).trans hr
    rw [hr] at h₂
    refine ⟨rfl, ?_⟩
    rw [update_self]
    exact h₂.update_of_notMem he.2
  · rw [concat_eq_append] at *
    simp only [getLast?_append_cons, getLast?_singleton]
    have hal : a ∉ l := by
      rw [append_assoc, nodup_append] at hn
      exact fun ha => hn.2.2 a ha a (by simp) rfl
    have hal₂ : a ∉ l₂ := by
      rw [nodup_append] at hn
      exact fun ha => hn.2.2 a (by simp) a ha rfl
    refine Seg.append_iff.mpr ⟨some e, (h₁.redirect (some e) hal).update_of_notMem he.1, rfl, ?_⟩
    rw [update_self, ← hr]
    exact (h₂.update_of_notMem hal₂).update_of_notMem he.2

section
variable (s : Links ι) (a b : Option ι) (e : ι)

theorem insert_next : (s.insert a b e).next = update (match a with
      | some a => update s.next a (some e)
      | none => s.next) e b := by
  cases a <;> cases b <;> rfl

theorem insert_prev : (s.insert a b e).prev = update (match b with
      | some b => update s.prev b (some e)
      | none => s.prev) e a := by
  cases a <;> cases b <;> rfl

theorem insert_head : (s.insert a b e).head = (match a with | some _ => s.head | none => some e) := by
  cases a <;> cases b <;> rfl

theorem insert_tail : (s.insert a b e).tail = (match b with | some _ => s.tail | none => some e) := by
  cases a <;> cases b <;> rfl

end

theorem insert_holds {l₁ l₂ : List ι} {e : ι} (h : s.Holds (l₁ ++ l₂)) (he : e ∉ l₁ ++ l₂) :
    (s.insert l₁.getLast? l₂.head? e).Holds (l₁ ++ e :: l₂) := by
  have hf := splice h.forward he
  have hb : Seg s.prev s.tail (l₂.reverse ++ l₁.reverse) none := by
    have := h.backward
    rwa [reverse_append] at this
  have hb := splice hb (e := e) (by simpa [and_comm] using he)
  rw [getLast?_reverse, head?_reverse] at hb
  refine ⟨?_, ?_⟩
  · rw [insert_next, insert_head]
    exact hf
  · rw [insert_prev, insert_tail, reverse_append, reverse_cons, append_assoc]
    exact hb

/-- Insertion touches the links of the list and of the new cell only. -/
theorem insert_frame {l₁ l₂ : List ι} {e x : ι} (hx : x ∉ l₁ ++ l₂) (hxe : x ≠ e) :
    (s.insert l₁.getLast? l₂.head? e).next x = s.next x ∧
      (s.insert l₁.getLast? l₂.head? e).prev x = s.prev x := by
  rw [mem_append, not_or] at hx
  rw [insert_next, insert_prev, update_of_ne hxe, update_of_ne hxe]
  constructor
  · cases ha : l₁.getLast? with
    | none => rfl
    | some a =>
      exact update_of_ne (fun h : x = a => hx.1 (h ▸ mem_of_getLast? ha)) ..
  · cases hb : l₂.head? with
    | none => rfl
    | some b =>
      exact update_of_ne (fun h : x = b => hx.2 (h ▸ mem_of_head? hb)) ..

theorem remove_frame {l : List ι} {e x : ι} (h : s.Holds l) (he : e ∈ l) (hx : x ∉ l) :
    (s.remove e).next x = s.next x ∧ (s.remove e).prev x = s.prev x := by
  obtain ⟨l₁, l₂, rfl⟩ := append_of_mem he
  have hxe : x ≠ e := fun hxe => hx (hxe ▸ he)
  rw [remove_next, remove_prev, update_of_ne hxe, update_of_ne hxe, h.prev_eq,
    h.next_eq]
  rw [mem_append, mem_cons, not_or, not_or] at hx
  constructor
  · cases ha : l₁.getLast? with
    | none => rfl
    | some a =>
      exact update_of_ne (fun h : x = a => hx.1 (h ▸ mem_of_getLast? ha)) ..
  · cases hb : l₂.head? with
    | none => rfl
    | some b =>
      exact update_of_ne (fun h : x = b => hx.2.2 (h ▸ mem_of_head? hb)) ..

end Links

/-! ### Pools -/

/-- The shared link fields, and the two ends of each list. -/
structure Pool (κ ι : Type*) where
  next : ι → Option ι
  prev : ι → Option ι
  head : κ → Option ι
  tail : κ → Option ι

namespace Pool
variable [DecidableEq ι] [DecidableEq κ] {s : Pool κ ι} {L : κ → List ι} {q : κ} {e : ι}

section
variable (s : Pool κ ι) (q : κ)

/-- One list of the pool. -/
def view : Links ι := ⟨s.next, s.prev, s.head q, s.tail q⟩

/-- The pool with one list replaced. -/
def put (l : Links ι) : Pool κ ι :=
  ⟨l.next, l.prev, Function.update s.head q l.head, Function.update s.tail q l.tail⟩

def remove (e : ι) : Pool κ ι := s.put q ((s.view q).remove e)

def insert (a b : Option ι) (e : ι) : Pool κ ι :=
  s.put q ((s.view q).insert a b e)

end

/-- Clear the links of a cell. -/
def clear (s : Pool κ ι) (e : ι) : Pool κ ι :=
  { s with next := Function.update s.next e none, prev := Function.update s.prev e none }

/-- The lists are `L`, and no cell is in two of them. -/
structure Holds (s : Pool κ ι) (L : κ → List ι) : Prop where
  list : ∀ q, (s.view q).Holds (L q)
  disjoint : ∀ q q' a, a ∈ L q → a ∈ L q' → q = q'

omit [DecidableEq ι] [DecidableEq κ] in
theorem Holds.nodup (h : s.Holds L) (q : κ) : (L q).Nodup := (h.list q).forward.nodup

omit [DecidableEq ι] [DecidableEq κ] in
theorem Holds.forward (h : s.Holds L) (q : κ) : Seg s.next (s.head q) (L q) none :=
  (h.list q).forward

omit [DecidableEq ι] [DecidableEq κ] in
theorem Holds.head_eq (h : s.Holds L) (q : κ) : s.head q = (L q).head? := (h.forward q).head

omit [DecidableEq ι] [DecidableEq κ] in
theorem Holds.tail_eq (h : s.Holds L) (q : κ) : s.tail q = (L q).getLast? := by
  have := (h.list q).backward.head
  rwa [head?_reverse] at this

omit [DecidableEq ι] in
theorem view_put (s : Pool κ ι) (q : κ) (l : Links ι) : (s.put q l).view q = l := by
  simp only [view, put, update_self]

omit [DecidableEq ι] in
/-- Replacing one list leaves another as it is when the links of its cells are. -/
theorem view_put_holds {q' : κ} (hq : q' ≠ q) {l : Links ι} {xs : List ι}
    (h : (s.view q').Holds xs) (hl : ∀ x ∈ xs, l.next x = s.next x ∧ l.prev x = s.prev x) :
    ((s.put q l).view q').Holds xs := by
  simp only [view, put, update_of_ne hq]
  exact ⟨h.forward.congr fun x hx => (hl x hx).1,
    h.backward.congr fun x hx => (hl x (mem_reverse.1 hx)).2⟩

theorem Holds.remove (h : s.Holds L) (he : e ∈ L q) :
    (s.remove q e).Holds (update L q ((L q).erase e)) := by
  refine ⟨fun q' => ?_, fun q₁ q₂ a h₁ h₂ => ?_⟩
  · by_cases hq : q' = q
    · subst hq
      rw [Pool.remove, view_put, update_self]
      exact Links.remove_holds (h.list q') he
    · rw [update_of_ne hq]
      refine view_put_holds hq (h.list q') fun x hx => ?_
      exact Links.remove_frame (h.list q) he fun hxq => hq (h.disjoint q' q x hx hxq)
  · have hsub : ∀ q' b, b ∈ update L q ((L q).erase e) q' → b ∈ L q' := by
      intro q' b hb
      by_cases hq : q' = q
      · subst hq
        rw [update_self] at hb
        exact mem_of_mem_erase hb
      · rwa [update_of_ne hq] at hb
    exact h.disjoint q₁ q₂ a (hsub q₁ a h₁) (hsub q₂ a h₂)

theorem Holds.insert {l₁ l₂ : List ι} (h : s.Holds L) (hq : L q = l₁ ++ l₂)
    (he : ∀ q', e ∉ L q') :
    (s.insert q l₁.getLast? l₂.head? e).Holds (update L q (l₁ ++ e :: l₂)) := by
  have heq := hq ▸ he q
  refine ⟨fun q' => ?_, fun q₁ q₂ a h₁ h₂ => ?_⟩
  · by_cases hqq : q' = q
    · subst hqq
      rw [Pool.insert, view_put, update_self]
      exact Links.insert_holds (hq ▸ h.list q') heq
    · rw [update_of_ne hqq]
      refine view_put_holds hqq (h.list q') fun x hx => ?_
      have hxe : x ≠ e := fun hxe => he q' (hxe ▸ hx)
      exact Links.insert_frame (hq ▸ fun hxq => hqq (h.disjoint q' q x hx hxq)) hxe
  · have hsub : ∀ q' b, b ∈ update L q (l₁ ++ e :: l₂) q' →
        b ∈ L q' ∨ (q' = q ∧ b = e) := by
      intro q' b hb
      by_cases hqq : q' = q
      · subst hqq
        rw [update_self, mem_append, mem_cons] at hb
        rw [hq, mem_append]
        tauto
      · rw [update_of_ne hqq] at hb
        exact .inl hb
    obtain hold₁ | ⟨rfl, rfl⟩ := hsub q₁ a h₁
    · obtain hold₂ | ⟨-, rfl⟩ := hsub q₂ a h₂
      · exact h.disjoint q₁ q₂ a hold₁ hold₂
      · exact absurd hold₁ (he q₁)
    · obtain hold₂ | ⟨rfl, -⟩ := hsub q₂ a h₂
      · exact absurd hold₂ (he q₂)
      · rfl

omit [DecidableEq κ] in
theorem Holds.clear (h : s.Holds L) (he : ∀ q, e ∉ L q) : (s.clear e).Holds L := by
  refine ⟨fun q => ⟨(h.list q).forward.update_of_notMem (he q), ?_⟩, h.disjoint⟩
  exact (h.list q).backward.update_of_notMem fun hmem => he q (mem_reverse.1 hmem)

end Pool

end InDevOS.Lib
