import InDevOS.Mem.Frames

/-! Four-level page tables as trees.

An address space owns its user tables, so the model keeps them as a tree: a table is
the frame it sits in and 512 entries; an entry of the lowest level is the 64-bit word
of the page table, an entry above it is a table of the level below or absent (the
code only ever makes such entries present, writable and user). The kernel half of the
top level is shared by all address spaces and is not part of the tree.

For a tree we ask three things: which word it holds for an address (`look`), how many
of its words map a frame (`owns`), and whether a frame holds one of its tables
(`tabs`). -/
namespace InDevOS.Mem

/-- A page table: where it sits and what it holds. -/
structure Node (α : Type) where
  frame : UInt64
  entries : Fin 512 → α

/-- An entry of a table of level `n + 1`. -/
@[reducible] def Entry : Nat → Type
  | 0 => UInt64
  | n + 1 => Option (Node (Entry n))

/-- A table of level `n + 1`: `Table 0` is a PT, `Table 3` a PML4. -/
abbrev Table (n : Nat) := Node (Entry n)

/-- The zeroed entry. -/
def Entry.empty : (n : Nat) → Entry n
  | 0 => (0 : UInt64)
  | _ + 1 => none

def Node.set {α : Type} (t : Node α) (i : Fin 512) (e : α) : Node α :=
  { t with entries := Function.update t.entries i e }

/-- `PT_INDEX`, `PD_INDEX`, `PDP_INDEX` and `PML4_INDEX`. -/
def index (n : Nat) (va : UInt64) : Fin 512 :=
  ⟨((va >>> UInt64.ofNat (12 + 9 * n)) &&& 0x1FF).toNat, by
    rw [UInt64.toNat_and]
    exact Nat.lt_of_le_of_lt Nat.and_le_right (by decide)⟩

/-- The word an entry holds for `va`, zero when a table is missing. -/
def Entry.look : (n : Nat) → Entry n → UInt64 → UInt64
  | 0, pte, _ => pte
  | _ + 1, none, _ => 0
  | n + 1, some t, va => Entry.look n (t.entries (index n va)) va

/-- `vmm_get_pte_in`: the word of `va`. -/
def Node.look {n : Nat} (t : Table n) (va : UInt64) : UInt64 :=
  Entry.look n (t.entries (index n va)) va

/-- The word is a mapping of frame `p` that counts as an owner of it. -/
def Maps (pte p : UInt64) : Prop :=
  has pte vmmPresent = true ∧ has pte vmmDevice = false ∧ addr pte = p

instance (pte p : UInt64) : Decidable (Maps pte p) := inferInstanceAs (Decidable (_ ∧ _ ∧ _))

def ownsPte (pte p : UInt64) : Nat := if Maps pte p then 1 else 0

/-- How many words below an entry map frame `p`. -/
def Entry.owns : (n : Nat) → Entry n → UInt64 → Nat
  | 0, pte, p => ownsPte pte p
  | _ + 1, none, _ => 0
  | n + 1, some t, p => ∑ i, Entry.owns n (t.entries i) p

/-- How many tables below an entry sit in frame `p`. -/
def Entry.tabs : (n : Nat) → Entry n → UInt64 → Nat
  | 0, _, _ => 0
  | _ + 1, none, _ => 0
  | n + 1, some t, p => (if p = t.frame then 1 else 0) + ∑ i, Entry.tabs n (t.entries i) p

def Node.owns {n : Nat} (t : Table n) (p : UInt64) : Nat := ∑ i, Entry.owns n (t.entries i) p

def Node.tabs {n : Nat} (t : Table n) (p : UInt64) : Nat :=
  (if p = t.frame then 1 else 0) + ∑ i, Entry.tabs n (t.entries i) p

/-- Every word below an entry satisfies `P`. -/
def Entry.All (P : UInt64 → Prop) : (n : Nat) → Entry n → Prop
  | 0, pte => P pte
  | _ + 1, none => True
  | n + 1, some t => ∀ i, Entry.All P n (t.entries i)

def Node.All {n : Nat} (P : UInt64 → Prop) (t : Table n) : Prop := ∀ i, Entry.All P n (t.entries i)

/-! ### Lookups -/

@[simp] theorem look_empty (n : Nat) (va : UInt64) : Entry.look n (Entry.empty n) va = 0 := by
  cases n <;> rfl

theorem not_has_zero (m : UInt64) : has 0 m = false := by simp [has]

variable {n : Nat}

theorem Entry.owns_pos {e : Entry n} {va p : UInt64} (h : Maps (e.look n va) p) :
    0 < e.owns n p := by
  induction n with
  | zero =>
    have hone : Entry.owns 0 e p = 1 := if_pos h
    rw [hone]
    exact Nat.one_pos
  | succ n ih =>
    cases e with
    | none =>
      have : has 0 vmmPresent = true := h.1
      exact absurd this (by decide)
    | some t =>
      have hpos : 0 < Entry.owns n (t.entries (index n va)) p := ih h
      exact Nat.lt_of_lt_of_le hpos (Finset.single_le_sum (f := fun i => Entry.owns n (t.entries i) p)
        (fun i _ => Nat.zero_le _) (Finset.mem_univ _))

theorem Node.owns_pos {t : Table n} {va p : UInt64} (h : Maps (t.look va) p) :
    0 < t.owns p :=
  Entry.owns_pos (n := n + 1) (e := some t) h

section
variable {P : UInt64 → Prop}

theorem Entry.All.look (h0 : P 0) {e : Entry n} (h : e.All P n) (va : UInt64) : P (e.look n va) := by
  induction n with
  | zero => exact h
  | succ n ih =>
    cases e with
    | none => exact h0
    | some t => exact ih (h (index n va))

theorem Node.All.look (h0 : P 0) {t : Table n} (h : t.All P) (va : UInt64) : P (t.look va) :=
  Entry.All.look h0 (h (index n va)) va

theorem Entry.all_empty (h0 : P 0) (n : Nat) : Entry.All P n (Entry.empty n) := by
  cases n with
  | zero => exact h0
  | succ n => trivial

theorem Node.All.set {t : Table n} (h : t.All P) (i : Fin 512)
    {e : Entry n} (he : Entry.All P n e) : (t.set i e).All P := by
  intro j
  by_cases hj : j = i
  · subst hj
    simpa [Node.set] using he
  · simpa [Node.set, hj] using h j

end

/-! ### Addresses -/

/-- The start of the page of an address. -/
def pageOf (va : UInt64) : UInt64 := va &&& ~~~0xFFF

theorem pageOf_eq_shift (va : UInt64) : pageOf va = (va >>> 12) <<< 12 := by
  apply UInt64.toBitVec_inj.mp
  apply BitVec.eq_of_getLsbD_eq
  intro i hi
  simp only [pageOf, UInt64.toBitVec_and, UInt64.toBitVec_not, UInt64.toBitVec_ofNat,
    UInt64.toBitVec_shiftLeft, UInt64.toBitVec_shiftRight]
  interval_cases i <;> simp

theorem toNat_pageOf (va : UInt64) : (pageOf va).toNat = va.toNat / 4096 * 4096 := by
  have hlt := va.toNat_lt
  rw [pageOf_eq_shift, UInt64.toNat_shiftLeft, UInt64.toNat_shiftRight]
  show (va.toNat >>> 12) <<< 12 % 2 ^ 64 = _
  omega

/-- A table index is a digit of the address. -/
theorem index_val (hn : n ≤ 3) (va : UInt64) :
    (index n va).val = va.toNat / 2 ^ (12 + 9 * n) % 512 := by
  have hshift : (UInt64.ofNat (12 + 9 * n)).toNat % 64 = 12 + 9 * n := by
    rw [UInt64.toNat_ofNat', Nat.mod_eq_of_lt (a := 12 + 9 * n) (by omega)]
    omega
  show ((va >>> UInt64.ofNat (12 + 9 * n)) &&& 0x1FF).toNat = _
  rw [UInt64.toNat_and, UInt64.toNat_shiftRight, hshift, Nat.shiftRight_eq_div_pow]
  exact Nat.and_two_pow_sub_one_eq_mod _ 9

theorem index_pageOf (hn : n ≤ 3) (va : UInt64) : index n (pageOf va) = index n va := by
  apply Fin.ext
  rw [index_val hn, index_val hn, toNat_pageOf, Nat.pow_add, ← Nat.div_div_eq_div_mul,
    ← Nat.div_div_eq_div_mul]
  congr 2
  omega

/-! ### Updates of one entry -/

theorem sum_update {g : Entry n → Nat} (f : Fin 512 → Entry n) (i : Fin 512) (e : Entry n) :
    ∑ j, g (Function.update f i e j) + g (f i) = ∑ j, g (f j) + g e := by
  rw [← Finset.add_sum_erase _ _ (Finset.mem_univ i),
    ← Finset.add_sum_erase (Finset.univ) (fun j => g (f j)) (Finset.mem_univ i)]
  have : ∑ j ∈ Finset.univ.erase i, g (Function.update f i e j) =
      ∑ j ∈ Finset.univ.erase i, g (f j) := by
    apply Finset.sum_congr rfl
    intro j hj
    rw [Function.update_of_ne (Finset.ne_of_mem_erase hj)]
  rw [this, Function.update_self]
  omega

section
variable (t : Table n) (i : Fin 512) (e : Entry n) (p : UInt64)

theorem Node.owns_set :
    (t.set i e).owns p + Entry.owns n (t.entries i) p = t.owns p + Entry.owns n e p :=
  sum_update (g := fun e => Entry.owns n e p) t.entries i e

theorem Node.tabs_set :
    (t.set i e).tabs p + Entry.tabs n (t.entries i) p = t.tabs p + Entry.tabs n e p := by
  have h : ∑ j, Entry.tabs n ((t.set i e).entries j) p + Entry.tabs n (t.entries i) p =
      ∑ j, Entry.tabs n (t.entries j) p + Entry.tabs n e p :=
    sum_update (g := fun e => Entry.tabs n e p) t.entries i e
  rw [Node.tabs, Node.tabs, Nat.add_assoc, h, Nat.add_assoc]
  rfl

end

theorem Node.tabs_set_word (t : Table 0) (i : Fin 512) (pte : UInt64) :
    (Node.set (α := Entry 0) t i pte).tabs = t.tabs := by
  funext p
  exact Nat.add_right_cancel (t.tabs_set i pte p)

section
variable (t : Table n) {i : Fin 512} (e : Entry n) {va : UInt64}

theorem Node.look_set_same
    (h : index n va = i) : (t.set i e).look va = Entry.look n e va := by
  simp [Node.look, Node.set, h]

theorem Node.look_set_other
    (h : index n va ≠ i) : (t.set i e).look va = t.look va := by
  simp [Node.look, Node.set, Function.update_of_ne h]

end

end InDevOS.Mem
