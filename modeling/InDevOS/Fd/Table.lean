import InDevOS.Fd.Books
import InDevOS.Lib.Steps

/-! Descriptor tables, and descriptors in flight.

A system is a list of processes with their tables, the descriptors that messages carry, and
the books. The operations are the system calls on descriptors, each with what the allocator
and the object's subsystem would give it as an argument. The holders are all entries of all
tables and all messages, and `Counted` says that the books are right for them.

Three operations can break that. A message that is thrown away is parked in a free slot of
the process that is running, and its reference stays for ever if there is none. A descriptor without a
cell that is sent shares a new cell with the message, and the cell counts one of the two. And `close` gives
up the place of a device without its cell. `counted_iff` says that nothing else does. -/
namespace InDevOS.Fd
open Function List

open Lib (Along)

def maxOpenFiles : Nat := 64

structure Proc where
  linuxAbi : Bool
  fds : Nat → Option Entry

namespace Proc

/-- The entry of a valid descriptor that is in use. -/
def entry (p : Proc) (fd : Nat) : Option Entry := if fd < maxOpenFiles then p.fds fd else none

def put (p : Proc) (fd : Nat) (e : Option Entry) : Proc := { p with fds := Function.update p.fds fd e }

/-- The lowest free descriptor from `low` on. -/
def firstFree (p : Proc) (low : Nat) : Option Nat :=
  (List.range' low (maxOpenFiles - low)).find? fun fd => (p.fds fd).isNone

def allocateFd (p : Proc) : Option Nat := p.firstFree (if p.linuxAbi then 0 else 3)

/-- The entries in use. -/
def held (p : Proc) : List Entry := (List.range maxOpenFiles).filterMap p.fds

end Proc

def consoleEntry : Entry := ⟨.other, none, none, some .console⟩

def processAlloc (linuxAbi : Bool) : Proc := ⟨linuxAbi, fun fd => if fd < 3 then some consoleEntry else none⟩

structure Sys where
  procs : List Proc
  flight : List Entry
  books : Books

namespace Sys

def boot : Sys :=
  ⟨[], [], ⟨fun _ => 0, fun _ => 0, fun _ => 0, fun _ => false, fun _ => false⟩⟩

section
variable (s : Sys)

def holders : List Entry := s.procs.flatMap Proc.held ++ s.flight

section
variable (i : Nat)

def store (p : Proc) (b : Books) : Sys := { s with procs := s.procs.set i p, books := b }

/-! ### The operations -/

def fdCloseEntry (p : Proc) (fd : Nat) (e : Entry) : Sys :=
  s.store i (p.put fd none) (s.books.drop e)

/-- The place of the console at 0, 1 and 2 and a device are given up without `fd_close_entry`. -/
def placeOnly (e : Entry) (fd : Nat) : Bool :=
  e.stub == some .device || e.stub == some .console && fd ≤ 2

/-- `LX_close` with `sys_close_linux`, and `sys_close` -/
def close (i fd : Nat) : Sys :=
  match s.procs[i]? with
  | none => s
  | some p =>
    match p.entry fd with
    | none => s
    | some e =>
      if p.linuxAbi then
        if placeOnly e fd then s.store i (p.put fd none) s.books else s.fdCloseEntry i p fd e
      else if fd < 3 then s else s.fdCloseEntry i p fd e

/-- What exits and `execve` do to each entry they close. -/
def cleanup (i fd : Nat) : Sys :=
  match s.procs[i]? with
  | none => s
  | some p =>
    match p.entry fd with
    | none => s
    | some e => s.fdCloseEntry i p fd e

/-- A new descriptor. Without a slot for it, what it was made for is given up again. -/
def install (e : Entry) (b : Books) : Sys :=
  match s.procs[i]? with
  | none => s
  | some p =>
    match p.allocateFd with
    | none => s
    | some fd => s.store i (p.put fd (some e)) b

/-- A file, a socket or another object of its own -/
def openObject (i o c : Nat) : Sys :=
  if s.books.objects o = false ∧ s.books.cells c = 0 then
    s.install i ⟨.other, some o, some c, none⟩ ((s.books.newObject o).newCell c)
  else s

/-- `/dev/null`, the terminal or the frame buffer -/
def openDevice : Sys := s.install i ⟨.other, none, none, some .device⟩ s.books

/-- `fifo_open`, and the read end that carries a text of `/proc` -/
def openEnd (write : Bool) (pipe c : Nat) : Sys :=
  let e : Entry := ⟨if write then .pipeWrite else .pipeRead, some pipe, some c, none⟩
  if s.books.cells c = 0 then s.install i e (((s.books.idlePipe pipe).credit e).newCell c) else s

def pipe (s : Sys) (i pipe c d : Nat) : Sys :=
  match s.procs[i]? with
  | none => s
  | some p =>
    match p.allocateFd with
    | none => s
    | some readFd =>
      let p := p.put readFd (some ⟨.pipeRead, some pipe, some c, none⟩)
      match p.allocateFd with
      | none => s
      | some writeFd =>
        if s.books.active pipe = false ∧ s.books.cells c = 0 ∧ s.books.cells d = 0 ∧ c ≠ d then
          s.store i (p.put writeFd (some ⟨.pipeWrite, some pipe, some d, none⟩))
            (((s.books.newPipe pipe).newCell c).newCell d)
        else s

/-- The copy of an entry into a free slot: the end of `sys_dup`, `sys_dup2` and `F_DUPFD`. -/
def copyTo (p : Proc) (fd : Nat) (e : Entry) (c : Nat) : Sys :=
  match e.cell with
  | some _ => s.store i (p.put fd (some e)) (s.books.hold e)
  | none =>
    if s.books.cells c = 0 then
      s.store i (p.put fd (some { e with cell := some c })) ((s.books.newCell c).credit e)
    else s

/-- A copy to the slot that `free` finds. -/
def copyFree (i fd : Nat) (free : Proc → Option Nat) (c : Nat) : Sys :=
  match s.procs[i]? with
  | none => s
  | some p =>
    match p.entry fd with
    | none => s
    | some e =>
      match free p with
      | none => s
      | some newfd => s.copyTo i p newfd e c

def dup (i fd c : Nat) : Sys := s.copyFree i fd Proc.allocateFd c

/-- `F_DUPFD` -/
def dupFrom (i fd low c : Nat) : Sys :=
  s.copyFree i fd (fun p => p.firstFree (if low < 3 ∧ p.linuxAbi = false then 3 else low)) c

def dup2 (i oldfd newfd c : Nat) : Sys :=
  match s.procs[i]? with
  | none => s
  | some p =>
    match p.entry oldfd with
    | none => s
    | some e =>
      if maxOpenFiles ≤ newfd ∨ oldfd = newfd then s
      else
        match p.entry newfd with
        | none => s.copyTo i p newfd e c
        | some gone => (s.fdCloseEntry i p newfd gone).copyTo i (p.put newfd none) newfd e c

/-- The child of a fork has the parent's table. -/
def fork : Sys :=
  match s.procs[i]? with
  | none => s
  | some p => { s with procs := s.procs ++ [p], books := p.held.foldl Books.hold s.books }

def spawn (linuxAbi : Bool) : Sys := { s with procs := s.procs ++ [processAlloc linuxAbi] }

/-- A descriptor that is put into a message: `fd_flight_get`. -/
def send (i fd c : Nat) : Sys :=
  match s.procs[i]? with
  | none => s
  | some p =>
    match p.entry fd with
    | none => s
    | some e =>
      match e.cell with
      | some _ => { s with flight := e :: s.flight, books := s.books.hold e }
      | none =>
        if s.books.cells c = 0 then
          let e := { e with cell := some c }
          { procs := s.procs.set i (p.put fd (some e)), flight := e :: s.flight
            books := (s.books.newCell c).credit e }
        else s

/-- The entry is parked in a free slot and closed there. -/
def fdFlightRelease (p : Proc) (e : Entry) : Sys :=
  match p.allocateFd with
  | none => s
  | some fd => s.fdCloseEntry i (p.put fd (some e)) fd e

end

/-- A message of which the receiver wants the descriptor. -/
def receive (i k : Nat) : Sys :=
  match s.procs[i]?, s.flight[k]? with
  | some p, some e =>
    let s := { s with flight := s.flight.eraseIdx k }
    match p.allocateFd with
    | none => s.fdFlightRelease i p e
    | some fd => s.store i (p.put fd (some e)) s.books
  | _, _ => s

/-- A message that is thrown away while process `i` runs. -/
def discard (i k : Nat) : Sys :=
  match s.procs[i]?, s.flight[k]? with
  | some p, some e => { s with flight := s.flight.eraseIdx k }.fdFlightRelease i p e
  | _, _ => s

end

end Sys

inductive Op where
  | spawn (linuxAbi : Bool)
  | openObject (i o c : Nat)
  | openDevice (i : Nat)
  | openEnd (i : Nat) (write : Bool) (pipe c : Nat)
  | pipe (i pipe c d : Nat)
  | dup (i fd c : Nat)
  | dup2 (i oldfd newfd c : Nat)
  | dupFrom (i fd low c : Nat)
  | fork (i : Nat)
  | send (i fd c : Nat)
  | receive (i k : Nat)
  | discard (i k : Nat)
  | close (i fd : Nat)
  | cleanup (i fd : Nat)

def step (s : Sys) : Op → Sys
  | .spawn linuxAbi => s.spawn linuxAbi
  | .openObject i o c => s.openObject i o c
  | .openDevice i => s.openDevice i
  | .openEnd i write pipe c => s.openEnd i write pipe c
  | .pipe i pipe c d => s.pipe i pipe c d
  | .dup i fd c => s.dup i fd c
  | .dup2 i oldfd newfd c => s.dup2 i oldfd newfd c
  | .dupFrom i fd low c => s.dupFrom i fd low c
  | .fork i => s.fork i
  | .send i fd c => s.send i fd c
  | .receive i k => s.receive i k
  | .discard i k => s.discard i k
  | .close i fd => s.close i fd
  | .cleanup i fd => s.cleanup i fd

/-! ### What should hold -/

/-- The books are right for all holders, and the cell of an object counts all its holders. -/
structure Counted (s : Sys) : Prop extends Exact s.books s.holders where
  shared : ∀ e ∈ s.holders, ∀ o, e.kind = .other → e.handle = some o →
    ∃ c, e.cell = some c ∧ s.books.cells c = s.holders.countP (holdsEnd .other o)

/-- The condition on an operation: what is sent has a cell, the process that receives or throws
away a message has a free slot, and a place that `close` gives up has no cell. -/
def Allowed (s : Sys) : Op → Prop
  | .send i fd c => ∀ p e, s.procs[i]? = some p → p.entry fd = some e → e.cell ≠ none ∨ s.books.cells c ≠ 0
  | .receive i k | .discard i k => ∀ p, s.procs[i]? = some p → s.flight[k]? ≠ none → p.allocateFd ≠ none
  | .close i fd => ∀ p e, s.procs[i]? = some p → p.entry fd = some e → p.linuxAbi = true →
    Sys.placeOnly e fd = true → e.cell = none
  | _ => True

/-! ### Holders -/

section Lists
variable {α β : Type*}

theorem filterMap_update_perm {l : List Nat} (hl : l.Nodup) {i : Nat} (hi : i ∈ l) {f : Nat → Option α}
    (hf : f i = none) (a : α) : (l.filterMap (update f i (some a))).Perm (a :: l.filterMap f) := by
  induction l with
  | nil => simp at hi
  | cons j l ih =>
    obtain ⟨hj, hl⟩ := nodup_cons.mp hl
    rcases eq_or_ne j i with rfl | hij
    · have hsame : l.filterMap (update f j (some a)) = l.filterMap f :=
        filterMap_congr fun k hk => update_of_ne (fun h : k = j => hj (h ▸ hk)) ..
      rw [filterMap_cons_some (update_self ..), filterMap_cons_none hf, hsame]
    · have hrest := ih hl ((mem_cons.mp hi).resolve_left fun h => hij h.symm)
      have hsame : update f i (some a) j = f j := update_of_ne hij ..
      cases hfj : f j with
      | none => rwa [filterMap_cons_none (hsame.trans hfj), filterMap_cons_none hfj]
      | some x =>
        rw [filterMap_cons_some (hsame.trans hfj), filterMap_cons_some hfj]
        exact (hrest.cons x).trans (.swap a x _)

theorem flatMap_set_perm {l : List α} {f : α → List β} {i : Nat} {a a' : α} {b : β} (hi : l[i]? = some a)
    (hf : (f a').Perm (b :: f a)) : ((l.set i a').flatMap f).Perm (b :: l.flatMap f) := by
  induction l generalizing i with
  | nil => simp at hi
  | cons x l ih =>
    cases i with
    | zero =>
      obtain rfl : x = a := by simpa using hi
      exact hf.append_right _
    | succ i =>
      exact ((ih (by simpa using hi)).append_left (f x)).trans perm_middle

end Lists

section Slots
variable {s : Sys} {p : Proc} {e : Entry} {i fd : Nat}

theorem Proc.put_put (p : Proc) (fd : Nat) (e e' : Option Entry) : (p.put fd e).put fd e' = p.put fd e' := by
  rw [Proc.put, Proc.put, Proc.put, update_idem]

theorem Proc.put_self (h : p.fds fd = e') : p.put fd e' = p := by
  rw [Proc.put, ← h, update_eq_self]

theorem Proc.held_put (hfd : fd < maxOpenFiles) (hfree : p.fds fd = none) (e : Entry) :
    (p.put fd (some e)).held.Perm (e :: p.held) :=
  filterMap_update_perm nodup_range (mem_range.mpr hfd) hfree e

theorem Proc.entry_iff : p.entry fd = some e ↔ fd < maxOpenFiles ∧ p.fds fd = some e := by
  simp [Proc.entry]

theorem Proc.firstFree_spec {low : Nat} (h : p.firstFree low = some fd) :
    fd < maxOpenFiles ∧ p.fds fd = none := by
  have hmem := mem_of_find?_eq_some h
  have hfree := find?_some h
  rw [mem_range'_1] at hmem
  exact ⟨by omega, Option.isNone_iff_eq_none.mp hfree⟩

theorem holders_put (hi : s.procs[i]? = some p) (hfd : fd < maxOpenFiles) (hfree : p.fds fd = none) (e : Entry)
    (b : Books) : (s.store i (p.put fd (some e)) b).holders.Perm (e :: s.holders) :=
  (flatMap_set_perm hi (Proc.held_put hfd hfree e)).append_right s.flight

theorem holders_take (hi : s.procs[i]? = some p) (he : p.entry fd = some e) (b : Books) :
    s.holders.Perm (e :: (s.store i (p.put fd none) b).holders) := by
  obtain ⟨hfd, he⟩ := Proc.entry_iff.mp he
  obtain ⟨hlen, hget⟩ := List.getElem?_eq_some_iff.mp hi
  have hfree : (p.put fd none).fds fd = none := update_self ..
  have hback := holders_put (s := s.store i (p.put fd none) b) (i := i)
    (by rw [Sys.store, getElem?_set_self hlen]) hfd hfree e s.books
  have hsame : (s.store i (p.put fd none) b).store i ((p.put fd none).put fd (some e)) s.books = s := by
    rw [Proc.put_put, Proc.put_self he, Sys.store, Sys.store, set_set, ← hget, set_getElem_self]
  rwa [hsame] at hback

theorem mem_holders (hi : s.procs[i]? = some p) (he : p.entry fd = some e) : e ∈ s.holders := by
  have hall := holders_take hi he s.books
  exact hall.mem_iff.mpr mem_cons_self

theorem holders_eraseIdx {k : Nat} (hk : s.flight[k]? = some e) :
    s.holders.Perm (e :: { s with flight := s.flight.eraseIdx k }.holders) := by
  obtain ⟨hlen, rfl⟩ := List.getElem?_eq_some_iff.mp hk
  have herase := (getElem_cons_eraseIdx_perm hlen).symm
  exact (herase.append_left _).trans perm_middle

end Slots

/-! ### Runs -/

/-- The books are right, holders of one object share one cell, and messages have cells. -/
structure Inv (s : Sys) : Prop where
  exact : Exact s.books s.holders
  paired : Paired s.holders
  sent : ∀ e ∈ s.flight, e.cell ≠ none

/-- The cell of an object counts all holders of the object. -/
theorem Inv.counted {s : Sys} (h : Inv s) : Counted s where
  toExact := h.exact
  shared e he o hk hh := by
    obtain ⟨c, hc⟩ := Option.ne_none_iff_exists'.mp (h.paired.backed e he (hh ▸ Option.some_ne_none o))
    refine ⟨c, hc, (h.exact.cell c).trans (countP_congr fun e' he' => ?_)⟩
    rw [holdsCell_iff, holdsEnd_iff]
    constructor
    · intro hc'
      have hsame := h.paired.same e he e' he' (hc ▸ Option.some_ne_none c) (hc.trans hc'.symm)
      exact ⟨hsame.1 ▸ hk, hsame.2 ▸ hh⟩
    · rintro ⟨hk', hh'⟩
      exact (h.paired.one e he e' he' hk hk' (hh ▸ Option.some_ne_none o) (hh.trans hh'.symm)) ▸ hc

section Steps
variable {s : Sys} {p : Proc} {e : Entry} {i fd c : Nat} {b : Books}

theorem store_get (hi : s.procs[i]? = some p) (p' : Proc) (b : Books) :
    (s.store i p' b).procs[i]? = some p' :=
  List.getElem?_set_self (List.getElem?_eq_some_iff.mp hi).1

theorem store_store (s : Sys) (i : Nat) (p p' : Proc) (b b' : Books) :
    (s.store i p b).store i p' b' = s.store i p' b' := by
  rw [Sys.store, Sys.store, Sys.store, set_set]

theorem Inv.put (hsent : ∀ e ∈ s.flight, e.cell ≠ none) (hi : s.procs[i]? = some p) (hfd : fd < maxOpenFiles)
    (hfree : p.fds fd = none) (hexact : Exact b (e :: s.holders)) (hpaired : Paired (e :: s.holders)) :
    Inv (s.store i (p.put fd (some e)) b) where
  exact := hexact.perm (holders_put hi hfd hfree e b).symm
  paired := hpaired.subset fun _ hx => (holders_put hi hfd hfree e b).mem_iff.mp hx
  sent := hsent

theorem Inv.taken (h : Inv s) (hi : s.procs[i]? = some p) (he : p.entry fd = some e) (b : Books) :
    Exact s.books (e :: (s.store i (p.put fd none) b).holders) ∧
      Paired (e :: (s.store i (p.put fd none) b).holders) :=
  ⟨h.exact.perm (holders_take hi he b), h.paired.subset fun _ hx => (holders_take hi he b).mem_iff.mpr hx⟩

theorem Paired.tail {hs : List Entry} (h : Paired (e :: hs)) : Paired hs :=
  h.subset fun _ => mem_cons_of_mem e

section
variable (h : Inv s) (hi : s.procs[i]? = some p)
include h hi

theorem Inv.fdCloseEntry (he : p.entry fd = some e) : Inv (s.fdCloseEntry i p fd e) := by
  obtain ⟨hexact, hpaired⟩ := h.taken hi he (s.books.drop e)
  exact ⟨hexact.drop hpaired, hpaired.tail, h.sent⟩

theorem Inv.placeOnly (he : p.entry fd = some e) (hc : e.cell = none) :
    Inv (s.store i (p.put fd none) s.books) := by
  obtain ⟨hexact, hpaired⟩ := h.taken hi he s.books
  exact ⟨hexact.forget hpaired hc, hpaired.tail, h.sent⟩

theorem Inv.copyTo (hfd : fd < maxOpenFiles) (hfree : p.fds fd = none)
    (he : e ∈ s.holders) : Inv (s.copyTo i p fd e c) := by
  unfold Sys.copyTo
  split
  · exact .put h.sent hi hfd hfree (h.exact.hold he) (h.paired.copy he)
  · rename_i hcell
    split
    · rename_i hc
      have hh : e.handle = none := by
        by_contra hh
        exact h.paired.backed e he hh hcell
      refine .put h.sent hi hfd hfree (h.exact.cell_of_bare hc hh) ?_
      exact h.paired.cons (h.paired.piped e he) (fun _ => hh) (fun _ _ _ _ hno => absurd hh hno) rfl
        (h.exact.fresh_cell hc)
    · exact h

end

theorem Inv.at_entry (h : Inv s) {f : Proc → Entry → Sys}
    (hf : ∀ p e, s.procs[i]? = some p → p.entry fd = some e → Inv (f p e)) :
    Inv (match s.procs[i]? with
      | none => s
      | some p => match p.entry fd with
        | none => s
        | some e => f p e) := by
  cases hi : s.procs[i]? with
  | none => exact h
  | some p =>
    cases he : p.entry fd with
    | none => simpa [he] using h
    | some e => simpa [he] using hf p e hi he

theorem Inv.install (h : Inv s) (i : Nat) (hexact : Exact b (e :: s.holders)) (hpaired : Paired (e :: s.holders)) :
    Inv (s.install i e b) := by
  unfold Sys.install
  split
  · exact h
  · rename_i p hi
    split
    · exact h
    · rename_i fd hfd
      obtain ⟨hfd, hfree⟩ := Proc.firstFree_spec hfd
      exact .put h.sent hi hfd hfree hexact hpaired

theorem Inv.openObject (h : Inv s) (i o c : Nat) : Inv (s.openObject i o c) := by
  unfold Sys.openObject
  split
  · rename_i hnew
    refine h.install i (h.exact.open hnew.2 rfl rfl rfl) ?_
    refine h.paired.cons (fun hk => absurd rfl hk) (fun hstub => absurd rfl hstub) ?_ rfl
      (h.exact.fresh_cell hnew.2)
    exact fun e' he' _ hk' _ hh => h.exact.object_fresh hnew.1 e' he' hk' hh.symm
  · exact h

theorem Inv.openDevice (h : Inv s) (i : Nat) : Inv (s.openDevice i) :=
  h.install i (h.exact.cons_bare ⟨rfl, rfl, rfl⟩) (h.paired.cons_bare ⟨rfl, rfl, rfl⟩)

theorem Paired.cons_end {hs : List Entry} {k : Kind} (h : Paired hs) (hfresh : ∀ e ∈ hs, e.cell ≠ some c)
    (hk : k ≠ .other) (pipe : Nat) : Paired (⟨k, some pipe, some c, none⟩ :: hs) :=
  h.cons (fun _ => Option.some_ne_none pipe) (fun hstub => absurd rfl hstub)
    (fun _ _ hother => absurd hother hk) rfl hfresh

theorem Inv.openEnd (h : Inv s) (i : Nat) (write : Bool) (pipe c : Nat) : Inv (s.openEnd i write pipe c) := by
  have hkind : (if write then Kind.pipeWrite else .pipeRead) ≠ .other := by
    cases write <;> decide
  unfold Sys.openEnd
  dsimp only
  split
  · rename_i hc
    exact h.install i (h.exact.openEnd hc hkind rfl rfl) (h.paired.cons_end (h.exact.fresh_cell hc) hkind pipe)
  · exact h

theorem Inv.pipe (h : Inv s) (i pipe c d : Nat) : Inv (s.pipe i pipe c d) := by
  unfold Sys.pipe
  split
  · exact h
  · rename_i p hi
    split
    · exact h
    · rename_i readFd hread
      obtain ⟨hread, hreadFree⟩ := Proc.firstFree_spec hread
      dsimp only
      split
      · exact h
      · rename_i writeFd hwrite
        obtain ⟨hwrite, hwriteFree⟩ := Proc.firstFree_spec hwrite
        split
        · rename_i hnew
          obtain ⟨ha, hc, hd, hne⟩ := hnew
          -- The read end is stored first, with the books as they were.
          have hfirst := holders_put hi hread hreadFree ⟨.pipeRead, some pipe, some c, none⟩ s.books
          rw [← store_store s i (p.put readFd (some ⟨.pipeRead, some pipe, some c, none⟩)) _ s.books]
          refine .put h.sent (store_get hi _ _) hwrite hwriteFree ?_ ?_
          · exact (h.exact.pipe_new ha hc hd hne).perm (hfirst.symm.cons _)
          · refine Paired.subset ?_ fun x hx => (hfirst.cons _).mem_iff.mp hx
            refine Paired.cons_end (h.paired.cons_end (h.exact.fresh_cell hc) (by decide) pipe) ?_
              (by decide) pipe
            exact forall_mem_cons.mpr ⟨by simpa using hne, h.exact.fresh_cell hd⟩
        · exact h

theorem Inv.copyFree (h : Inv s) {free : Proc → Option Nat}
    (hfree : ∀ p fd, free p = some fd → fd < maxOpenFiles ∧ p.fds fd = none) (i fd c : Nat) :
    Inv (s.copyFree i fd free c) := by
  refine h.at_entry fun p e hi he => ?_
  split
  · exact h
  · rename_i newfd hnew
    exact h.copyTo hi (hfree p newfd hnew).1 (hfree p newfd hnew).2 (mem_holders hi he)

theorem Inv.dup2 (h : Inv s) (i oldfd newfd c : Nat) : Inv (s.dup2 i oldfd newfd c) := by
  refine h.at_entry fun p e hi he => ?_
  split
  · exact h
  · rename_i hfd
    obtain ⟨hfd, hne⟩ := not_or.mp hfd
    split
    · rename_i hfree
      refine h.copyTo hi (by omega) ?_ (mem_holders hi he)
      unfold Proc.entry at hfree
      rwa [if_pos (by omega)] at hfree
    · rename_i gone hgone
      have hi' := store_get hi (p.put newfd none) (s.books.drop gone)
      have hold : (p.put newfd none).entry oldfd = some e := by
        obtain ⟨hlt, he⟩ := Proc.entry_iff.mp he
        exact Proc.entry_iff.mpr ⟨hlt, (update_of_ne hne ..).trans he⟩
      exact (h.fdCloseEntry hi hgone).copyTo hi' (by omega) (update_self ..) (mem_holders hi' hold)

theorem Inv.cleanup (h : Inv s) (i fd : Nat) : Inv (s.cleanup i fd) :=
  h.at_entry fun _ _ hi he => h.fdCloseEntry hi he

theorem holders_append (s : Sys) (p : Proc) (b : Books) :
    ({ s with procs := s.procs ++ [p], books := b } : Sys).holders.Perm (p.held ++ s.holders) := by
  unfold Sys.holders
  rw [flatMap_append, flatMap_singleton, ← append_assoc]
  exact perm_append_comm.append_right s.flight

theorem Inv.fork (h : Inv s) (i : Nat) : Inv (s.fork i) := by
  unfold Sys.fork
  split
  · exact h
  · rename_i p hi
    have hmem : ∀ e ∈ p.held, e ∈ s.holders := fun e he =>
      mem_append_left _ (mem_flatMap.mpr ⟨p, mem_of_getElem? hi, he⟩)
    refine ⟨(h.exact.holds hmem).perm (holders_append s p _).symm, h.paired.subset fun e he => ?_, h.sent⟩
    exact (mem_append.mp ((holders_append s p _).mem_iff.mp he)).elim (hmem e) id

theorem Inv.spawn (h : Inv s) (linuxAbi : Bool) : Inv (s.spawn linuxAbi) := by
  have hbare : consoleEntry.bare := ⟨rfl, rfl, rfl⟩
  have hperm := holders_append s (processAlloc linuxAbi) s.books
  refine ⟨?_, ?_, h.sent⟩
  · exact (((h.exact.cons_bare hbare).cons_bare hbare).cons_bare hbare).perm hperm.symm
  · exact (((h.paired.cons_bare hbare).cons_bare hbare).cons_bare hbare).subset fun _ hx => hperm.mem_iff.mp hx

end Steps

/-! ### The operations with a condition -/

section Conditions
variable {s : Sys} {i fd c k : Nat}

theorem Inv.close (h : Inv s) (hallowed : Allowed s (.close i fd)) : Inv (s.close i fd) := by
  refine h.at_entry fun p e hi he => ?_
  split_ifs with habi hplace
  · exact h.placeOnly hi he (hallowed p e hi he habi hplace)
  · exact h.fdCloseEntry hi he
  · exact h
  · exact h.fdCloseEntry hi he

/-- A place that is given up with its cell leaves the cell one too high. -/
theorem Inv.close_allowed (h : Inv s) (hgood : Counted (s.close i fd)) : Allowed s (.close i fd) := by
  intro p e hi he habi hplace
  by_contra hc
  have hclose : s.close i fd = s.store i (p.put fd none) s.books := by
    simp [Sys.close, hi, he, habi, hplace]
  rw [hclose] at hgood
  exact (h.taken hi he s.books).1.not_of_cons hc hgood.toExact

theorem Inv.send (h : Inv s) (hallowed : Allowed s (.send i fd c)) : Inv (s.send i fd c) := by
  refine h.at_entry fun p e hi he => ?_
  split
  · rename_i d hd
    have hmem := mem_holders hi he
    have hperm : (e :: s.holders).Perm (s.procs.flatMap Proc.held ++ e :: s.flight) := perm_middle.symm
    exact ⟨(h.exact.hold hmem).perm hperm, (h.paired.copy hmem).subset fun x hx => hperm.mem_iff.mpr hx,
      forall_mem_cons.mpr ⟨by simp [hd], h.sent⟩⟩
  · rename_i hnone
    have hused := (hallowed p e hi he).resolve_left fun hno => hno hnone
    rw [if_neg hused]
    exact h

/-- A new cell for an entry and a message counts one of the two. -/
theorem Inv.send_allowed (hgood : Counted (s.send i fd c)) : Allowed s (.send i fd c) := by
  intro p e hi he
  by_contra hno
  rw [not_or, not_not, not_not] at hno
  obtain ⟨hcell, hc⟩ := hno
  have hsend : s.send i fd c =
      { procs := s.procs.set i (p.put fd (some { e with cell := some c }))
        flight := { e with cell := some c } :: s.flight
        books := (s.books.newCell c).credit { e with cell := some c } } := by
    simp [Sys.send, hi, he, hcell, hc]
  rw [hsend] at hgood
  have hcount := hgood.cell c
  have hone : ((s.books.newCell c).credit { e with cell := some c }).cells c = 1 := by
    simp [credit_cells, Books.newCell]
  -- The entry is counted in its table, the message among the messages.
  have hentry : 0 < ((s.procs.set i (p.put fd (some { e with cell := some c }))).flatMap Proc.held).countP
      (holdsCell c) := by
    obtain ⟨hfd, -⟩ := Proc.entry_iff.mp he
    refine countP_pos_iff.mpr ⟨{ e with cell := some c }, ?_, holdsCell_iff.mpr rfl⟩
    refine List.mem_flatMap.mpr ⟨_, List.mem_set (List.getElem?_eq_some_iff.mp hi).1 _, ?_⟩
    exact mem_filterMap.mpr ⟨fd, mem_range.mpr hfd, update_self ..⟩
  rw [hone, Sys.holders, countP_append, countP_cons_of_pos (holdsCell_iff.mpr rfl)] at hcount
  dsimp only at hcount
  omega

theorem Inv.moved (h : Inv s) {p : Proc} {e : Entry} (hi : s.procs[i]? = some p) (hk : s.flight[k]? = some e)
    (hfd : p.allocateFd = some fd) :
    Inv ({ s with flight := s.flight.eraseIdx k }.store i (p.put fd (some e)) s.books) := by
  obtain ⟨hlt, hfree⟩ := Proc.firstFree_spec hfd
  have hperm := holders_eraseIdx hk
  refine .put (s := { s with flight := s.flight.eraseIdx k }) ?_ hi hlt hfree (h.exact.perm hperm) ?_
  · exact fun x hx => h.sent x (mem_of_mem_eraseIdx hx)
  · exact h.paired.subset fun _ hx => hperm.mem_iff.mpr hx

theorem Inv.receive (h : Inv s) (hallowed : Allowed s (.receive i k)) : Inv (s.receive i k) := by
  unfold Sys.receive
  split
  · rename_i p e hi hk
    obtain ⟨fd, hfd⟩ := Option.ne_none_iff_exists'.mp (hallowed p hi (hk ▸ Option.some_ne_none e))
    rw [hfd]
    exact h.moved hi hk hfd
  · exact h

theorem Inv.discard (h : Inv s) (hallowed : Allowed s (.discard i k)) : Inv (s.discard i k) := by
  unfold Sys.discard
  split
  · rename_i p e hi hk
    obtain ⟨fd, hfd⟩ := Option.ne_none_iff_exists'.mp (hallowed p hi (hk ▸ Option.some_ne_none e))
    have hslot : (p.put fd (some e)).entry fd = some e :=
      Proc.entry_iff.mpr ⟨(Proc.firstFree_spec hfd).1, update_self ..⟩
    have hclosed := (h.moved hi hk hfd).fdCloseEntry
      (store_get (s := { s with flight := s.flight.eraseIdx k }) hi _ s.books) hslot
    unfold Sys.fdFlightRelease
    rw [hfd]
    rwa [Sys.fdCloseEntry, store_store] at hclosed
  · exact h

/-- A message that is lost for want of a slot leaves its cell one too high. -/
theorem Inv.lost_message (h : Inv s) {e : Entry} (hk : s.flight[k]? = some e) :
    ¬ Counted { s with flight := s.flight.eraseIdx k } := fun hgood =>
  (h.exact.perm (holders_eraseIdx hk)).not_of_cons (h.sent e (mem_of_getElem? hk)) hgood.toExact

theorem fdFlightRelease_full {p : Proc} (hfull : p.allocateFd = none) (s : Sys) (i : Nat) (e : Entry) :
    s.fdFlightRelease i p e = s := by
  unfold Sys.fdFlightRelease
  rw [hfull]

theorem Inv.receive_allowed (h : Inv s) (hgood : Counted (s.receive i k)) : Allowed s (.receive i k) := by
  intro p hi hk hfull
  obtain ⟨e, hk⟩ := Option.ne_none_iff_exists'.mp hk
  simp only [Sys.receive, hi, hk, hfull, fdFlightRelease_full hfull] at hgood
  exact h.lost_message hk hgood

theorem Inv.discard_allowed (h : Inv s) (hgood : Counted (s.discard i k)) : Allowed s (.discard i k) := by
  intro p hi hk hfull
  obtain ⟨e, hk⟩ := Option.ne_none_iff_exists'.mp hk
  simp only [Sys.discard, hi, hk, fdFlightRelease_full hfull] at hgood
  exact h.lost_message hk hgood

theorem Inv.step (h : Inv s) (op : Op) (hallowed : Allowed s op) : Inv (step s op) := by
  cases op with
  | spawn linuxAbi => exact h.spawn linuxAbi
  | openObject i o c => exact h.openObject i o c
  | openDevice i => exact h.openDevice i
  | openEnd i write pipe c => exact h.openEnd i write pipe c
  | pipe i pipe c d => exact h.pipe i pipe c d
  | dup i fd c => exact h.copyFree (fun _ _ => Proc.firstFree_spec) i fd c
  | dup2 i oldfd newfd c => exact h.dup2 i oldfd newfd c
  | dupFrom i fd low c => exact h.copyFree (fun _ _ => Proc.firstFree_spec) i fd c
  | fork i => exact h.fork i
  | send i fd c => exact h.send hallowed
  | receive i k => exact h.receive hallowed
  | discard i k => exact h.discard hallowed
  | close i fd => exact h.close hallowed
  | cleanup i fd => exact h.cleanup i fd

theorem Inv.allowed (h : Inv s) (op : Op) (hgood : Counted (Fd.step s op)) : Allowed s op := by
  cases op with
  | send i fd c => exact Inv.send_allowed hgood
  | receive i k => exact h.receive_allowed hgood
  | discard i k => exact h.discard_allowed hgood
  | close i fd => exact h.close_allowed hgood
  | _ => trivial

theorem Inv.boot : Inv Sys.boot := by
  refine ⟨⟨⟨?_, ?_, ?_⟩, ?_, ?_⟩, ⟨?_, ?_, ?_, ?_, ?_⟩, ?_⟩ <;> simp [Sys.boot, Sys.holders]

/-- **Every counter is right after every operation exactly if** what is sent has a cell, whoever
receives or throws away a message has a free slot, and no place with a cell is given up. -/
theorem counted_iff (ops : List Op) :
    (∀ k, Counted ((ops.take k).foldl step Sys.boot)) ↔ Along step Allowed Sys.boot ops :=
  Along.iff_always (fun _ h => h.counted) (fun _ op h hop => h.step op hop) (fun _ op h hgood => h.allowed op hgood)
    Inv.boot ops

end Conditions

/-- A process that opens files until its table is full, sends one of them and throws the message away. -/
def fullTable : List Op :=
  .spawn true :: (List.range 61).map (fun n => .openObject 0 n n) ++ [.send 0 3 0, .discard 0 0]

/-- The console is sent. -/
def sentConsole : List Op := [.spawn true, .send 0 0 0]

/-- A copy of `/dev/null` is closed. -/
def closedDevice : List Op := [.spawn true, .openDevice 0, .dup 0 3 0, .close 0 4]

/-- A reference that nobody holds, one that is missing, and a cell that is never freed. -/
theorem cell_miscounted :
    ¬ Counted (fullTable.foldl step Sys.boot) ∧ ¬ Counted (sentConsole.foldl step Sys.boot) ∧
      ¬ Counted (closedDevice.foldl step Sys.boot) := by
  -- Cell 0 counts 2, 1 and 1, and has 1, 2 and no holders.
  refine ⟨fun h => absurd (h.cell 0) ?_, fun h => absurd (h.cell 0) ?_, fun h => absurd (h.cell 0) ?_⟩
  · decide +kernel
  · decide +kernel
  · decide +kernel

end InDevOS.Fd
