import Mathlib

/-! The books on open objects: reference cells, pipe credits and what is in use.

A descriptor entry, or one in flight in a message, holds the cell it shares with its copies
and, for a pipe, a credit of its end. `Books.hold` is what every copy of an entry does to
these counters, and `Books.drop` what every close does. `Exact` says that the books are
right for a list of holders: every counter is the number of its holders, and an object or
a pipe is in use exactly while it has one. A close keeps that (`Exact.drop`) because holders
of one object share one cell (`Paired`). -/
namespace InDevOS.Fd
open Function List

inductive Kind where
  | pipeRead
  | pipeWrite
  /-- Files, sockets, devices and all the others. -/
  | other
deriving DecidableEq

/-- Entries with no object of the kernel's tables behind them. -/
inductive Stub where
  /-- The console's place at 0, 1 and 2. -/
  | console
  /-- `/dev/null` and the like, the terminal and the frame buffer. (What the owner of the display
  has open of it, `lx_fbdev.c` counts on its own, from opens and closes only.) -/
  | device
deriving DecidableEq

/-- A `file_descriptor_t`: its type, the object behind it and its reference cell. Stubs are opened
without a cell. -/
structure Entry where
  kind : Kind
  handle : Option Nat
  cell : Option Nat
  stub : Option Stub
deriving DecidableEq

structure Books where
  /-- The reference cells; 0 for memory that is not a cell. -/
  cells : Nat → Nat
  readers : Nat → Nat
  writers : Nat → Nat
  /-- The pipes in use. -/
  active : Nat → Bool
  /-- The other objects in use. -/
  objects : Nat → Bool

namespace Books

section
variable (b : Books)

/-- `pipe_fork_dup_reader` and `pipe_fork_dup_writer` -/
def credit (e : Entry) : Books :=
  match e.kind, e.handle with
  | .pipeRead, some p =>
    if b.active p then { b with readers := Function.update b.readers p (b.readers p + 1) } else b
  | .pipeWrite, some p =>
    if b.active p then { b with writers := Function.update b.writers p (b.writers p + 1) } else b
  | _, _ => b

def pipeDestroy (p : Nat) : Books :=
  { b with
    active := Function.update b.active p false
    readers := Function.update b.readers p 0
    writers := Function.update b.writers p 0 }

def pipeCloseRead (p : Nat) : Books :=
  if b.active p then
    let b := { b with readers := Function.update b.readers p (b.readers p - 1) }
    if b.readers p = 0 ∧ b.writers p = 0 then b.pipeDestroy p else b
  else b

def pipeCloseWrite (p : Nat) : Books :=
  if b.active p then
    let b := { b with writers := Function.update b.writers p (b.writers p - 1) }
    if b.readers p = 0 ∧ b.writers p = 0 then b.pipeDestroy p else b
  else b

/-- The credit of a pipe end goes with every close. -/
def uncredit (e : Entry) : Books :=
  match e.kind, e.handle with
  | .pipeRead, some p => b.pipeCloseRead p
  | .pipeWrite, some p => b.pipeCloseWrite p
  | _, _ => b

/-- One more holder of the entry's cell, if it has one, and of its pipe end. -/
def hold (e : Entry) : Books :=
  match e.cell with
  | none => b.credit e
  | some c => { b with cells := Function.update b.cells c (b.cells c + 1) }.credit e

/-- The object goes; pipes go with their credits. -/
def release (e : Entry) : Books :=
  match e.kind, e.handle with
  | .other, some o => { b with objects := Function.update b.objects o false }
  | _, _ => b

/-- What `fd_close_entry` does to the counters. -/
def drop (e : Entry) : Books :=
  let b := b.uncredit e
  match e.cell with
  | none => b.release e
  | some c =>
    if 1 < b.cells c then { b with cells := Function.update b.cells c (b.cells c - 1) }
    else { b with cells := Function.update b.cells c 0 }.release e

/-- `fd_refcount_create` -/
def newCell (c : Nat) : Books := { b with cells := Function.update b.cells c 1 }

def newObject (o : Nat) : Books := { b with objects := Function.update b.objects o true }

/-- A pipe for a FIFO or a text of `/proc`, whose ends are credited as they are opened. -/
def idlePipe (p : Nat) : Books :=
  if b.active p then b
  else { b with
    active := Function.update b.active p true
    readers := Function.update b.readers p 0
    writers := Function.update b.writers p 0 }

/-- `pipe_create` -/
def newPipe (p : Nat) : Books :=
  { b with
    active := Function.update b.active p true
    readers := Function.update b.readers p 1
    writers := Function.update b.writers p 1 }

end

end Books

/-! ### Holders -/

def holdsCell (c : Nat) (e : Entry) : Bool := e.cell == some c
def holdsEnd (k : Kind) (p : Nat) (e : Entry) : Bool := e.kind == k && e.handle == some p

/-- The pipe credits are right for the holders `hs`. -/
structure PipesExact (b : Books) (hs : List Entry) : Prop where
  reader : ∀ p, b.readers p = hs.countP (holdsEnd .pipeRead p)
  writer : ∀ p, b.writers p = hs.countP (holdsEnd .pipeWrite p)
  pipe : ∀ p, b.active p = true ↔ ∃ e ∈ hs, e.kind ≠ .other ∧ e.handle = some p

/-- The books are right for the holders `hs`. -/
structure Exact (b : Books) (hs : List Entry) : Prop extends PipesExact b hs where
  cell : ∀ c, b.cells c = hs.countP (holdsCell c)
  object : ∀ o, b.objects o = true ↔ ∃ e ∈ hs, e.kind = .other ∧ e.handle = some o

/-- Holders of one object share one cell, and a cell belongs to one object. -/
structure Paired (hs : List Entry) : Prop where
  backed : ∀ e ∈ hs, e.handle ≠ none → e.cell ≠ none
  piped : ∀ e ∈ hs, e.kind ≠ .other → e.handle ≠ none
  stub : ∀ e ∈ hs, e.stub ≠ none → e.handle = none
  same : ∀ e ∈ hs, ∀ e' ∈ hs, e.cell ≠ none → e.cell = e'.cell → e.kind = e'.kind ∧ e.handle = e'.handle
  one : ∀ e ∈ hs, ∀ e' ∈ hs, e.kind = .other → e'.kind = .other → e.handle ≠ none →
    e.handle = e'.handle → e.cell = e'.cell

section Holders
variable {b : Books} {hs hs' : List Entry} {e : Entry}

theorem PipesExact.perm (h : PipesExact b hs) (hp : hs.Perm hs') : PipesExact b hs' where
  reader p := (h.reader p).trans (hp.countP_eq _)
  writer p := (h.writer p).trans (hp.countP_eq _)
  pipe p := (h.pipe p).trans (by simp only [hp.mem_iff])

theorem Exact.perm (h : Exact b hs) (hp : hs.Perm hs') : Exact b hs' where
  toPipesExact := h.toPipesExact.perm hp
  cell c := (h.cell c).trans (hp.countP_eq _)
  object o := (h.object o).trans (by simp only [hp.mem_iff])

theorem Paired.subset (h : Paired hs) (hsub : ∀ e ∈ hs', e ∈ hs) : Paired hs' where
  backed e he := h.backed e (hsub e he)
  piped e he := h.piped e (hsub e he)
  stub e he := h.stub e (hsub e he)
  same e he e' he' := h.same e (hsub e he) e' (hsub e' he')
  one e he e' he' := h.one e (hsub e he) e' (hsub e' he')

theorem Paired.copy (h : Paired hs) (he : e ∈ hs) : Paired (e :: hs) :=
  h.subset (forall_mem_cons.mpr ⟨he, fun _ => id⟩)

end Holders

/-! ### Pipe credits -/

section Pipes
variable {b : Books} {hs : List Entry} {e : Entry} {p : Nat} {k : Kind}

theorem holdsEnd_iff : holdsEnd k p e = true ↔ e.kind = k ∧ e.handle = some p := by
  rw [holdsEnd, Bool.and_eq_true, beq_iff_eq, beq_iff_eq]

/-- The credit of one end of a pipe. -/
def Books.ends (b : Books) (p : Nat) : Kind → Nat
  | .pipeRead => b.readers p
  | .pipeWrite => b.writers p
  | .other => 0

theorem Books.exists_ends_iff (b : Books) (p : Nat) :
    (∃ k, 0 < b.ends p k) ↔ 0 < b.readers p ∨ 0 < b.writers p := by
  constructor
  · rintro ⟨k, hk⟩
    cases k <;> simp_all [Books.ends]
  · rintro (h | h)
    · exact ⟨.pipeRead, h⟩
    · exact ⟨.pipeWrite, h⟩

theorem PipesExact.ends (h : PipesExact b hs) (hk : k ≠ .other) (p : Nat) :
    b.ends p k = hs.countP (holdsEnd k p) := by
  cases k with
  | pipeRead => exact h.reader p
  | pipeWrite => exact h.writer p
  | other => exact absurd rfl hk

theorem exists_holder_iff (hends : ∀ k, k ≠ .other → ∀ p, b.ends p k = hs.countP (holdsEnd k p)) :
    (∃ e ∈ hs, e.kind ≠ .other ∧ e.handle = some p) ↔ ∃ k, 0 < b.ends p k := by
  constructor
  · rintro ⟨e, he, hk, hh⟩
    exact ⟨e.kind, by rw [hends _ hk]; exact countP_pos_iff.mpr ⟨e, he, holdsEnd_iff.mpr ⟨rfl, hh⟩⟩⟩
  · rintro ⟨k, hpos⟩
    have hk : k ≠ .other := by
      rintro rfl
      simp [Books.ends] at hpos
    rw [hends k hk] at hpos
    obtain ⟨e, he, hend⟩ := countP_pos_iff.mp hpos
    obtain ⟨rfl, hh⟩ := holdsEnd_iff.mp hend
    exact ⟨e, he, hk, hh⟩

theorem PipesExact.active_iff (h : PipesExact b hs) (p : Nat) : b.active p = true ↔ ∃ k, 0 < b.ends p k :=
  (h.pipe p).trans (exists_holder_iff fun _ hk => h.ends hk)

theorem PipesExact.of_active (hends : ∀ k, k ≠ .other → ∀ p, b.ends p k = hs.countP (holdsEnd k p))
    (ha : ∀ p, b.active p = true ↔ ∃ k, 0 < b.ends p k) : PipesExact b hs :=
  ⟨hends .pipeRead (by decide), hends .pipeWrite (by decide), fun p => (ha p).trans (exists_holder_iff hends).symm⟩

theorem countP_cons_end (e : Entry) (hs : List Entry) (k : Kind) (p : Nat) :
    (e :: hs).countP (holdsEnd k p) =
      hs.countP (holdsEnd k p) + if e.kind = k ∧ e.handle = some p then 1 else 0 := by
  rw [countP_cons]
  simp only [holdsEnd_iff]

theorem not_end (hno : e.kind = .other ∨ e.handle = none) (hk : k ≠ .other) :
    ¬ (e.kind = k ∧ e.handle = some p) := by
  rintro ⟨rfl, hh⟩
  rcases hno with hno | hno
  · exact hk hno
  · simp [hno] at hh

theorem pipesExact_cons_iff (hno : e.kind = .other ∨ e.handle = none) :
    PipesExact b (e :: hs) ↔ PipesExact b hs := by
  have hcount : ∀ k, k ≠ .other → ∀ p, (e :: hs).countP (holdsEnd k p) = hs.countP (holdsEnd k p) :=
    fun k hk p => by rw [countP_cons_end, if_neg (not_end hno hk), Nat.add_zero]
  exact ⟨fun h => .of_active (fun k hk p => (h.ends hk p).trans (hcount k hk p)) h.active_iff,
    fun h => .of_active (fun k hk p => (h.ends hk p).trans (hcount k hk p).symm) h.active_iff⟩

section End
variable (hk : e.kind ≠ .other) (hh : e.handle = some p) (ha : b.active p = true)
include hk hh ha

theorem uncredit_ends (q : Nat) (k : Kind) :
    (b.uncredit e).ends q k = if e.kind = k ∧ e.handle = some q then b.ends q k - 1 else b.ends q k := by
  unfold Books.uncredit
  rw [hh]
  cases hkind : e.kind with
  | other => exact absurd hkind hk
  | pipeRead | pipeWrite =>
    simp only [Books.pipeCloseRead, Books.pipeCloseWrite, ha, if_true]
    rcases eq_or_ne p q with rfl | hq
    · split <;> cases k <;> simp_all [Books.ends, Books.pipeDestroy]
    · split <;> cases k <;> simp [Books.ends, Books.pipeDestroy, hq, hq.symm]

theorem uncredit_active (q : Nat) :
    (b.uncredit e).active q = true ↔ if q = p then ∃ k, 0 < (b.uncredit e).ends q k else b.active q = true := by
  rw [Books.exists_ends_iff]
  unfold Books.uncredit
  rw [hh]
  cases hkind : e.kind with
  | other => exact absurd hkind hk
  | pipeRead | pipeWrite =>
    simp only [Books.pipeCloseRead, Books.pipeCloseWrite, ha, if_true]
    split <;> by_cases hq : q = p <;> simp_all [Books.pipeDestroy]
    omega

theorem credit_ends (q : Nat) (k : Kind) :
    (b.credit e).ends q k = if e.kind = k ∧ e.handle = some q then b.ends q k + 1 else b.ends q k := by
  unfold Books.credit
  rw [hh]
  cases hkind : e.kind with
  | other => exact absurd hkind hk
  | pipeRead | pipeWrite =>
    rcases eq_or_ne p q with rfl | hq
    · cases k <;> simp [ha, Books.ends]
    · cases k <;> simp [ha, hq, hq.symm, Books.ends]

end End

theorem uncredit_of_not_end (hno : e.kind = .other ∨ e.handle = none) (b : Books) : b.uncredit e = b := by
  unfold Books.uncredit
  split <;> simp_all

theorem PipesExact.uncredit (h : PipesExact b (e :: hs)) : PipesExact (b.uncredit e) hs := by
  by_cases hno : e.kind = .other ∨ e.handle = none
  · rw [uncredit_of_not_end hno]
    exact (pipesExact_cons_iff hno).mp h
  · obtain ⟨hk, hh⟩ := not_or.mp hno
    obtain ⟨p, hh⟩ := Option.ne_none_iff_exists'.mp hh
    have ha : b.active p = true := (h.pipe p).mpr ⟨e, mem_cons_self, hk, hh⟩
    refine .of_active (fun k hk' q => ?_) fun q => (uncredit_active hk hh ha q).trans ?_
    · rw [uncredit_ends hk hh ha, h.ends hk', countP_cons_end]
      split_ifs <;> rfl
    · split_ifs with hq
      · rfl
      · rw [h.active_iff]
        simp only [uncredit_ends hk hh ha, hh, Option.some.injEq, Ne.symm hq, and_false, if_false]

theorem credit_active (b : Books) (e : Entry) : (b.credit e).active = b.active := by
  unfold Books.credit
  repeat' split
  all_goals rfl

theorem PipesExact.credit_new (h : PipesExact b hs) (hk : e.kind ≠ .other) (hh : e.handle = some p) :
    PipesExact ({ b with active := update b.active p true }.credit e) (e :: hs) := by
  have hends := credit_ends (b := { b with active := update b.active p true }) hk hh
    (update_self ..)
  refine .of_active (fun k hk' q => ?_) fun q => ?_
  · rw [hends, countP_cons_end, ← h.ends hk']
    split_ifs <;> rfl
  · rw [credit_active]
    rcases eq_or_ne q p with rfl | hq
    · refine iff_of_true (update_self ..) ⟨e.kind, ?_⟩
      rw [hends, if_pos ⟨rfl, hh⟩]
      exact Nat.succ_pos _
    · simp only [hends, hh, Option.some.injEq, Ne.symm hq, and_false, if_false]
      rw [update_of_ne hq]
      exact h.active_iff q

theorem credit_of_not_end (hno : e.kind = .other ∨ e.handle = none) (b : Books) : b.credit e = b := by
  unfold Books.credit
  split <;> simp_all

theorem PipesExact.credit (h : PipesExact b hs)
    (hactive : ∀ p, e.kind ≠ .other → e.handle = some p → b.active p = true) :
    PipesExact (b.credit e) (e :: hs) := by
  by_cases hno : e.kind = .other ∨ e.handle = none
  · rw [credit_of_not_end hno]
    exact (pipesExact_cons_iff hno).mpr h
  · obtain ⟨hk, hh⟩ := not_or.mp hno
    obtain ⟨p, hh⟩ := Option.ne_none_iff_exists'.mp hh
    have hnew := h.credit_new hk hh
    rwa [show update b.active p true = b.active from
      update_eq_self_iff.mpr (hactive p hk hh).symm] at hnew

theorem PipesExact.congr {b' : Books} (h : PipesExact b hs) (hr : b'.readers = b.readers)
    (hw : b'.writers = b.writers) (ha : b'.active = b.active) : PipesExact b' hs :=
  ⟨hr ▸ h.reader, hw ▸ h.writer, ha ▸ h.pipe⟩

end Pipes

/-! ### Cells and objects -/

section Cells
variable {b : Books} {hs : List Entry} {e : Entry} {c : Nat}

theorem holdsCell_iff : holdsCell c e = true ↔ e.cell = some c := by
  rw [holdsCell, beq_iff_eq]

theorem countP_cons_cell (e : Entry) (hs : List Entry) (c : Nat) :
    (e :: hs).countP (holdsCell c) = hs.countP (holdsCell c) + if e.cell = some c then 1 else 0 := by
  rw [countP_cons]
  simp only [holdsCell_iff]

theorem uncredit_kept (b : Books) (e : Entry) :
    (b.uncredit e).cells = b.cells ∧ (b.uncredit e).objects = b.objects := by
  simp only [Books.uncredit, Books.pipeCloseRead, Books.pipeCloseWrite]
  repeat' split
  all_goals exact ⟨rfl, rfl⟩

theorem release_cells (b : Books) (e : Entry) : (b.release e).cells = b.cells := by
  unfold Books.release
  split <;> rfl

theorem release_pipes (h : PipesExact b hs) (e : Entry) : PipesExact (b.release e) hs := by
  unfold Books.release
  split
  · exact h.congr rfl rfl rfl
  · exact h

/-- Another holder of the cell is left. -/
def Books.kept (b : Books) (e : Entry) : Bool := e.cell.any fun c => 1 < b.cells c

theorem drop_cells (b : Books) (e : Entry) (c : Nat) :
    (b.drop e).cells c = if e.cell = some c then b.cells c - 1 else b.cells c := by
  unfold Books.drop
  cases hc : e.cell with
  | none =>
    exact congrFun ((release_cells _ e).trans (uncredit_kept b e).1) c
  | some d =>
    have hvalue : ∀ n, n = b.cells d - 1 →
        update b.cells d n c = if some d = some c then b.cells c - 1 else b.cells c := by
      rintro n rfl
      rcases eq_or_ne c d with rfl | hcd
      · simp
      · simp [hcd, hcd.symm]
    dsimp only
    rw [(uncredit_kept b e).1]
    split
    · exact hvalue _ rfl
    · rw [release_cells]
      exact hvalue 0 (by omega)

theorem drop_objects (b : Books) (e : Entry) (o : Nat) :
    (b.drop e).objects o =
      if e.kind = .other ∧ e.handle = some o ∧ b.kept e = false then false else b.objects o := by
  have hrelease : ∀ b' : Books, b'.objects = b.objects →
      (b'.release e).objects o = if e.kind = .other ∧ e.handle = some o then false else b.objects o := by
    intro b' hb'
    unfold Books.release
    split
    · rename_i d hk hh
      rcases eq_or_ne o d with rfl | hod
      · simp [hk, hh]
      · simp [hb', hh, hod, hod.symm]
    · rename_i hno
      rw [if_neg fun h => hno o h.1 h.2, hb']
  unfold Books.drop Books.kept
  cases hc : e.cell with
  | none =>
    rw [hrelease _ (uncredit_kept b e).2]
    simp only [Option.any_none, and_true]
  | some d =>
    dsimp only
    rw [(uncredit_kept b e).1]
    by_cases hkept : 1 < b.cells d
    · simp [hkept, (uncredit_kept b e).2]
    · rw [if_neg hkept, hrelease _ (by exact (uncredit_kept b e).2)]
      simp [hkept]

theorem drop_pipes (h : PipesExact b (e :: hs)) : PipesExact (b.drop e) hs := by
  unfold Books.drop
  dsimp only
  split
  · exact release_pipes h.uncredit e
  · split
    · exact h.uncredit.congr rfl rfl rfl
    · refine release_pipes ?_ e
      exact h.uncredit.congr rfl rfl rfl

/-- **A close.** The books stay right for the other holders. -/
theorem Exact.drop (h : Exact b (e :: hs)) (hp : Paired (e :: hs)) : Exact (b.drop e) hs := by
  refine ⟨drop_pipes h.toPipesExact, fun c => ?_, fun o => ?_⟩
  · rw [drop_cells, h.cell, countP_cons_cell]
    split_ifs <;> rfl
  · rw [drop_objects]
    by_cases hlast : e.kind = .other ∧ e.handle = some o ∧ b.kept e = false
    · rw [if_pos hlast]
      refine ⟨fun hf => Bool.noConfusion hf, fun ⟨e', he', hk', hh'⟩ => ?_⟩
      -- Another holder shares the cell, which then has a second holder.
      obtain ⟨hk, hh, hkept⟩ := hlast
      have hcell := hp.one e mem_cons_self e' (mem_cons_of_mem e he') hk hk'
        (hh ▸ Option.some_ne_none o) (hh.trans hh'.symm)
      obtain ⟨c, hc⟩ := Option.ne_none_iff_exists'.mp
        (hp.backed e mem_cons_self (hh ▸ Option.some_ne_none o))
      have hpos : 0 < hs.countP (holdsCell c) :=
        countP_pos_iff.mpr ⟨e', he', holdsCell_iff.mpr (hcell ▸ hc)⟩
      have hcount := h.cell c
      rw [countP_cons_of_pos (holdsCell_iff.mpr hc)] at hcount
      have hmore : 1 < b.cells c := by omega
      simp [Books.kept, hc, hmore] at hkept
    · rw [if_neg hlast, h.object, exists_mem_cons_iff]
      refine or_iff_right_of_imp fun ⟨hk, hh⟩ => ?_
      -- The cell has another holder, which has the same object.
      have hkept : b.kept e = true := by simpa [hk, hh] using hlast
      obtain ⟨c, hc, hmore⟩ := (Option.any_eq_true _ _).mp hkept
      rw [decide_eq_true_eq, h.cell, countP_cons_of_pos (holdsCell_iff.mpr hc)] at hmore
      obtain ⟨e', he', hc'⟩ := countP_pos_iff.mp (show 0 < hs.countP (holdsCell c) by omega)
      have hsame := hp.same e mem_cons_self e' (mem_cons_of_mem e he')
        (hc ▸ Option.some_ne_none c) (hc.trans (holdsCell_iff.mp hc').symm)
      exact ⟨e', he', hsame.1 ▸ hk, hsame.2 ▸ hh⟩

section
variable (b : Books) (e : Entry)

theorem credit_cells : (b.credit e).cells = b.cells := by
  unfold Books.credit
  repeat' split
  all_goals rfl

theorem credit_objects : (b.credit e).objects = b.objects := by
  unfold Books.credit
  repeat' split
  all_goals rfl

theorem hold_cells (c : Nat) : (b.hold e).cells c = if e.cell = some c then b.cells c + 1 else b.cells c := by
  unfold Books.hold
  split
  · simp [credit_cells, *]
  · rename_i d hc
    rcases eq_or_ne c d with rfl | hcd
    · simp [credit_cells, hc]
    · simp [credit_cells, hc, hcd, hcd.symm]

theorem hold_objects : (b.hold e).objects = b.objects := by
  unfold Books.hold
  split <;> rw [credit_objects]

end

theorem hold_pipes (h : PipesExact b hs) (he : e ∈ hs) : PipesExact (b.hold e) (e :: hs) := by
  have hactive : ∀ p, e.kind ≠ .other → e.handle = some p → b.active p = true :=
    fun p hk hh => (h.pipe p).mpr ⟨e, he, hk, hh⟩
  unfold Books.hold
  split
  · exact h.credit hactive
  · refine PipesExact.credit (h.congr rfl rfl rfl) ?_
    exact hactive

/-- **A copy** of a holder. -/
theorem Exact.hold (h : Exact b hs) (he : e ∈ hs) : Exact (b.hold e) (e :: hs) := by
  refine ⟨hold_pipes h.toPipesExact he, fun c => ?_, fun o => ?_⟩
  · rw [hold_cells, h.cell, countP_cons_cell]
    split_ifs <;> rfl
  · rw [hold_objects, h.object, exists_mem_cons_iff]
    exact (or_iff_right_of_imp fun hk => ⟨e, he, hk⟩).symm

/-- **An entry that holds nothing.** -/
theorem exact_cons_iff (hh : e.handle = none) (hc : e.cell = none) : Exact b (e :: hs) ↔ Exact b hs := by
  have hcell : ∀ c, (e :: hs).countP (holdsCell c) = hs.countP (holdsCell c) := by
    simp [countP_cons_cell, hc]
  have hobject : ∀ o, (∃ x ∈ e :: hs, x.kind = .other ∧ x.handle = some o) ↔
      ∃ x ∈ hs, x.kind = .other ∧ x.handle = some o := by simp [hh]
  constructor
  · exact fun h => ⟨(pipesExact_cons_iff (.inr hh)).mp h.toPipesExact, fun c => (h.cell c).trans (hcell c),
      fun o => (h.object o).trans (hobject o)⟩
  · exact fun h => ⟨(pipesExact_cons_iff (.inr hh)).mpr h.toPipesExact, fun c => (h.cell c).trans (hcell c).symm,
      fun o => (h.object o).trans (hobject o).symm⟩

theorem Exact.forget (h : Exact b (e :: hs)) (hp : Paired (e :: hs)) (hc : e.cell = none) : Exact b hs := by
  refine (exact_cons_iff ?_ hc).mp h
  by_contra hh
  exact hp.backed e mem_cons_self hh hc

section
variable (h : Paired hs) (hpiped : e.kind ≠ .other → e.handle ≠ none) (hstub : e.stub ≠ none → e.handle = none)
  (hone : ∀ e' ∈ hs, e.kind = .other → e'.kind = .other → e.handle ≠ none → e.handle ≠ e'.handle)
include h hpiped hstub hone

/-- One more holder, which shares neither its cell nor its object with another. -/
theorem Paired.cons_of (hbacked : e.handle ≠ none → e.cell ≠ none)
    (hfresh : ∀ e' ∈ hs, e.cell ≠ none → e.cell ≠ e'.cell) : Paired (e :: hs) where
  backed := forall_mem_cons.mpr ⟨hbacked, h.backed⟩
  piped := forall_mem_cons.mpr ⟨hpiped, h.piped⟩
  stub := forall_mem_cons.mpr ⟨hstub, h.stub⟩
  same x hx y hy hcell heq := by
    rcases mem_cons.mp hx with rfl | hx' <;> rcases mem_cons.mp hy with rfl | hy'
    · exact ⟨rfl, rfl⟩
    · exact absurd heq (hfresh y hy' hcell)
    · exact absurd heq.symm (hfresh x hx' (heq ▸ hcell))
    · exact h.same x hx' y hy' hcell heq
  one x hx y hy hkx hky hh heq := by
    rcases mem_cons.mp hx with rfl | hx' <;> rcases mem_cons.mp hy with rfl | hy'
    · rfl
    · exact absurd heq (hone y hy' hkx hky hh)
    · exact absurd heq.symm (hone x hx' hky hkx (heq ▸ hh))
    · exact h.one x hx' y hy' hkx hky hh heq

theorem Paired.cons (he : e.cell = some c) (hfresh : ∀ e' ∈ hs, e'.cell ≠ some c) : Paired (e :: hs) :=
  h.cons_of hpiped hstub hone (fun _ => he ▸ Option.some_ne_none c) fun e' he' _ heq =>
    hfresh e' he' (heq.symm.trans he)

end

/-- A stub as it is opened. -/
def Entry.bare (e : Entry) : Prop := e.kind = .other ∧ e.handle = none ∧ e.cell = none

theorem Exact.cons_bare (h : Exact b hs) (he : e.bare) : Exact b (e :: hs) := (exact_cons_iff he.2.1 he.2.2).mpr h

theorem Paired.cons_bare (h : Paired hs) (he : e.bare) : Paired (e :: hs) :=
  h.cons_of (absurd he.1) (fun _ => he.2.1) (fun _ _ _ _ hh => absurd he.2.1 hh) (absurd he.2.1)
    fun _ _ hc => absurd he.2.2 hc

/-- A holder that is counted nowhere makes the books wrong, as one too many does. -/
theorem Exact.not_of_cons (h : Exact b (e :: hs)) (hc : e.cell ≠ none) : ¬ Exact b hs := by
  intro h'
  obtain ⟨c, hc⟩ := Option.ne_none_iff_exists'.mp hc
  have hone := (h'.cell c).symm.trans (h.cell c)
  rw [countP_cons_of_pos (holdsCell_iff.mpr hc)] at hone
  omega

theorem Exact.holds {es : List Entry} (h : Exact b hs) (hes : ∀ e ∈ es, e ∈ hs) :
    Exact (es.foldl Books.hold b) (es ++ hs) := by
  induction es generalizing b hs with
  | nil => exact h
  | cons e es ih =>
    have hrest := ih (h.hold (hes e mem_cons_self)) fun x hx =>
      mem_cons_of_mem e (hes x (mem_cons_of_mem e hx))
    exact hrest.perm perm_middle

/-! ### New cells -/

theorem Exact.fresh_cell (h : Exact b hs) (hc : b.cells c = 0) : ∀ e ∈ hs, e.cell ≠ some c := by
  intro e he hec
  have hpos : 0 < hs.countP (holdsCell c) := countP_pos_iff.mpr ⟨e, he, holdsCell_iff.mpr hec⟩
  have := h.cell c
  omega

theorem Exact.cons_cell {b' : Books} (h : Exact b hs) (hc : b.cells c = 0) (he : e.cell = some c)
    (hcells : b'.cells = update b.cells c 1) (hpipes : PipesExact b' (e :: hs))
    (hobjects : ∀ o, b'.objects o = true ↔ b.objects o = true ∨ e.kind = .other ∧ e.handle = some o) :
    Exact b' (e :: hs) := by
  refine ⟨hpipes, fun d => ?_, fun o => ?_⟩
  · rw [hcells, countP_cons_cell, ← h.cell, he]
    rcases eq_or_ne d c with rfl | hdc
    · simp [hc]
    · simp [hdc, hdc.symm]
  · rw [hobjects, h.object, exists_mem_cons_iff]
    exact Or.comm

/-- A stub gets a cell of its own when it is copied. -/
theorem Exact.cell_of_bare (h : Exact b hs) (hc : b.cells c = 0) (hh : e.handle = none) :
    Exact ((b.newCell c).credit e) ({ e with cell := some c } :: hs) := by
  refine h.cons_cell hc rfl (credit_cells ..) ?_ fun o => ?_
  · have hcredit : PipesExact ((b.newCell c).credit { e with cell := some c }) ({ e with cell := some c } :: hs) := by
      refine PipesExact.credit (h.toPipesExact.congr rfl rfl rfl) fun p _ hp => ?_
      simp [hh] at hp
    exact hcredit
  · simp [credit_objects, Books.newCell, hh]

theorem Exact.object_fresh (h : Exact b hs) {o : Nat} (ho : b.objects o = false) :
    ∀ e ∈ hs, e.kind = .other → e.handle ≠ some o :=
  fun e he hk hh => Bool.noConfusion (ho.symm.trans ((h.object o).mpr ⟨e, he, hk, hh⟩))

/-- **A new object.** -/
theorem Exact.open (h : Exact b hs) {o : Nat} (hc : b.cells c = 0) (hk : e.kind = .other)
    (hh : e.handle = some o) (he : e.cell = some c) : Exact ((b.newObject o).newCell c) (e :: hs) := by
  refine h.cons_cell hc he rfl ?_ fun o' => ?_
  · exact (pipesExact_cons_iff (.inl hk)).mpr (h.toPipesExact.congr rfl rfl rfl)
  · show update b.objects o true o' = true ↔ _
    rcases eq_or_ne o' o with rfl | ho
    · simp [hk, hh]
    · simp [hh, ho, ho.symm]

theorem idlePipe_cells (b : Books) (p : Nat) : (b.idlePipe p).cells = b.cells := by
  unfold Books.idlePipe
  split <;> rfl

theorem idlePipe_objects (b : Books) (p : Nat) : (b.idlePipe p).objects = b.objects := by
  unfold Books.idlePipe
  split <;> rfl

theorem PipesExact.idle (h : PipesExact b hs) {p : Nat} (ha : b.active p = false) :
    b.readers p = 0 ∧ b.writers p = 0 := by
  have hno : ¬ (0 < b.readers p ∨ 0 < b.writers p) := by
    rw [← b.exists_ends_iff, ← h.active_iff, ha]
    exact Bool.false_ne_true
  omega

theorem PipesExact.idlePipe_eq (h : PipesExact b hs) (p : Nat) :
    b.idlePipe p = { b with active := update b.active p true } := by
  unfold Books.idlePipe
  split
  · rename_i ha
    rw [show update b.active p true = b.active from update_eq_self_iff.mpr ha.symm]
  · rename_i ha
    obtain ⟨hr, hw⟩ := h.idle (Bool.eq_false_iff.mpr ha)
    rw [show update b.readers p 0 = b.readers from update_eq_self_iff.mpr hr.symm,
      show update b.writers p 0 = b.writers from update_eq_self_iff.mpr hw.symm]

/-- **An end of a pipe** that may be in use already. -/
theorem Exact.openEnd (h : Exact b hs) {p : Nat} (hc : b.cells c = 0) (hk : e.kind ≠ .other)
    (hh : e.handle = some p) (he : e.cell = some c) :
    Exact (((b.idlePipe p).credit e).newCell c) (e :: hs) := by
  refine h.cons_cell hc he ?_ ?_ fun o => ?_
  · show update ((b.idlePipe p).credit e).cells c 1 = _
    rw [credit_cells, idlePipe_cells]
  · rw [h.toPipesExact.idlePipe_eq]
    exact (h.toPipesExact.credit_new hk hh).congr rfl rfl rfl
  · show ((b.idlePipe p).credit e).objects o = true ↔ _
    simp [credit_objects, idlePipe_objects, hk]

/-- **A new pipe**, which has a cell for each end. -/
theorem Exact.pipe_new (h : Exact b hs) {p c d : Nat} (ha : b.active p = false) (hc : b.cells c = 0)
    (hd : b.cells d = 0) (hne : c ≠ d) :
    Exact (((b.newPipe p).newCell c).newCell d)
      (⟨.pipeWrite, some p, some d, none⟩ :: ⟨.pipeRead, some p, some c, none⟩ :: hs) := by
  have hread := h.openEnd (e := ⟨.pipeRead, some p, some c, none⟩) hc
    (show Kind.pipeRead ≠ .other by decide) rfl rfl
  have hd' : ((((b.idlePipe p).credit ⟨.pipeRead, some p, some c, none⟩).newCell c)).cells d = 0 := by
    show update (Books.credit _ _).cells c 1 d = 0
    rw [update_of_ne hne.symm, credit_cells, idlePipe_cells, hd]
  have hwrite := hread.openEnd (e := ⟨.pipeWrite, some p, some d, none⟩) hd'
    (show Kind.pipeWrite ≠ .other by decide) rfl rfl
  -- Both ends credited one after the other are the two credits the pipe starts with.
  have hbooks : ((((((b.idlePipe p).credit ⟨.pipeRead, some p, some c, none⟩).newCell c).idlePipe p).credit
      ⟨.pipeWrite, some p, some d, none⟩).newCell d) = ((b.newPipe p).newCell c).newCell d := by
    simp [Books.idlePipe, Books.credit, Books.newCell, Books.newPipe, ha]
  rwa [hbooks] at hwrite

end Cells

end InDevOS.Fd
