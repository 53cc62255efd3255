import InDevOS.Epoll.Sets

/-! Readiness and the scans of epoll sets (`linux_syscall.c`).

`anyReady` is the scan that only asks whether anything would be reported; a set that is
watched by another set is evaluated with it. `lxEpScan` is the scan of `epoll_wait`, which
reports items and remembers what it reported. The objects may change while it runs: the
item it visits as the `k`-th is evaluated at one time of a history of the objects, and its
generations are read at a later time. -/
namespace InDevOS.Epoll
open Lib

/-! ### One item -/

/-- The descriptor, object and type an item is registered for; no two items of a set have
the same. -/
abbrev Id := Nat × Addr × FdType

namespace Item

def id (it : Item) : Id := (it.fd, it.key, it.type)

/-- `EPOLLET` -/
def Edge (it : Item) : Prop := it.events &&& lxEpollEt ≠ 0

instance (it : Item) : Decidable it.Edge := inferInstanceAs (Decidable (_ ≠ _))

/-- The bits an item asks for. -/
def want (it : Item) : UInt32 := it.events &&& 0x23ff

section
variable (it : Item) (rev gi go : UInt32)

/-- Whether an edge-triggered item has an edge: a new bit, new data or new room. -/
def edge : Bool :=
  (rev &&& ~~~(it.etRev &&& rev) != 0) || (rev &&& 0x41 != 0 && gi != it.etIn) ||
    (rev &&& 0x104 != 0 && go != it.etOut)

/-- What a scan makes of an item with the events `rev`, and whether it is to be reported. -/
def examine : Item × Bool :=
  if it.Edge then
    if rev = 0 then ({ it with etRev := 0, etIn := gi, etOut := go }, false)
    else ({ it with etRev := it.etRev &&& rev }, it.edge rev gi go)
  else (it, rev != 0)

/-- What a report leaves behind. -/
def reported : Item :=
  { it with
    armed := if it.events &&& lxEpollOneshot ≠ 0 then false else it.armed
    etRev := if it.Edge then rev else it.etRev
    etIn := if it.Edge then gi else it.etIn
    etOut := if it.Edge then go else it.etOut }

end

end Item

/-! ### Nested sets -/

/-- What the objects outside the sets answer while a set is evaluated: the events of
`poll_eval_obj`, the generations of `lx_ep_gens`, and whether an item's object is gone. -/
structure Objects where
  poll : Id → UInt32
  gens : Id → UInt32 × UInt32
  gone : Id → Bool

/-- `lx_ep_scan` without commit: whether anything would be reported. `fuel` is the number
of levels left; the code stops at depth `LX_EP_MAX_NEST + 2`. The readiness of one item is
`lx_ep_eval`, which for a set looks into the set. -/
def Sys.anyReady (s : Sys) (o : Objects) : (fuel : Nat) → Addr → Bool
  | 0, _ => false
  | fuel + 1, ep =>
    (s.sets ep).items.any fun it =>
      it.armed && !o.gone it.id &&
        (it.examine (
          if it.type = .epoll then
            if it.want &&& 0x1 != 0 && anyReady s o fuel it.key then 0x1 else 0
          else o.poll it.id &&& (it.want ||| 0x18)) (o.gens it.id).1 (o.gens it.id).2).2

/-! ### The scan of `epoll_wait` -/

/-- A watched object: its ready events (for a set, bit `0x1`) and how often data was added
and room was freed. The code counts modulo 2^32. -/
@[ext]
structure Obj where
  ready : UInt32
  inGen : Nat
  outGen : Nat
deriving DecidableEq

/-- The objects over time. -/
abbrev History := Nat → Id → Obj

/-- `lx_ep_eval` -/
def lxEpEval (it : Item) (o : Obj) : UInt32 :=
  if it.type = .epoll then
    if it.want &&& 0x1 = 0 then 0 else if o.ready &&& 0x1 ≠ 0 then 0x1 else 0
  else o.ready &&& (it.want ||| 0x18)

/-- `lx_ep_gens` -/
def lxEpGens (o : Obj) : UInt32 × UInt32 := (UInt32.ofNat o.inGen, UInt32.ofNat o.outGen)

/-- A call of `lx_ep_scan` with commit: the room of its output, the items whose objects are
gone for the calling process, and the times of its readings. -/
structure Look where
  cap : Nat
  gone : Id → Bool
  time : Nat → Nat
  mono : Monotone time

/-- An event written to the output. Only `events` and `data` are written; the item and the
times of its two readings are kept for the statements. -/
structure Report where
  id : Id
  events : UInt32
  data : UInt64
  evalAt : Nat
  gensAt : Nat
deriving DecidableEq

/-- The local variables of the loop: the output, the last item reported, and whether the
loop was left because the output is full. -/
structure Sweep where
  got : List Report
  last : Option Nat
  full : Bool

/-- One turn of the loop. -/
def visit (H : History) (l : Look) (k : Nat) (it : Item) (w : Sweep) : Item × Sweep :=
  if w.full ∨ it.armed = false then (it, w)
  else
    let rev := lxEpEval it (H (l.time (2 * k)) it.id)
    let g := lxEpGens (H (l.time (2 * k + 1)) it.id)
    let r := it.examine rev g.1 g.2
    if r.2 = false then (r.1, w)
    else if l.cap ≤ w.got.length then (r.1, { w with full := true })
    else
      (r.1.reported rev g.1 g.2, { w with
        got := w.got ++ [⟨it.id, rev, it.data, l.time (2 * k), l.time (2 * k + 1)⟩]
        last := some k })

/-- The loop over the items in the order of their visits. -/
def sweep (H : History) (l : Look) : (k : Nat) → List Item → Sweep → List Item × Sweep
  | _, [], w => ([], w)
  | k, it :: rest, w =>
    let v := visit H l k it w
    let r := sweep H l (k + 1) rest v.2
    (v.1 :: r.1, r.2)

/-- The items whose objects are not gone. -/
def live (l : Look) (ep : EpSet) : List Item := ep.items.filter fun it => !l.gone it.id

/-- The index of the first visit. -/
def first (l : Look) (ep : EpSet) : Nat := if (live l ep).length ≤ ep.rr then 0 else ep.rr

/-- The visits of a scan, beginning at `first`. -/
def visits (H : History) (l : Look) (ep : EpSet) : List Item × Sweep :=
  sweep H l 0 ((live l ep).rotate (first l ep)) ⟨[], none, false⟩

/-- `lx_ep_scan` with commit: dead items are dropped, the visits begin at `rr`, and after a
scan that filled its output the next begins behind the last item reported. -/
def lxEpScan (H : History) (l : Look) (ep : EpSet) : List Report × EpSet :=
  let n := (live l ep).length
  let rr := first l ep
  let r := visits H l ep
  (r.2.got, {
    items := r.1.rotate (n - rr)
    cap := ep.cap
    rr := if l.cap ≤ r.2.got.length then r.2.last.elim rr fun k => ((rr + k) % n + 1) % n
      else rr })

/-! ### The system -/

namespace Sys

inductive Event
  | create (p : Nat) (badFlags : Bool) (a : Addr)
  | ctl (p epfd : Nat) (op : Op) (fd : Nat) (uev : Option EpollEvent) (alloc : Bool)
  | close (p fd : Nat)
  | dup (p fd p' fd' : Nat)
  | open (p fd : Nat) (type : FdType) (handle : Addr)
  | wait (p epfd : Nat) (H : History) (l : Look)

/-- One scan of `lx_epoll_wait`. -/
def lxEpollWait (s : Sys) (p epfd : Nat) (H : History) (l : Look) :
    Except Errno (List Report) × Sys :=
  match s.lookup p epfd with
  | none => (.error .EBADF, s)
  | some f =>
    if f.type ≠ .epoll then (.error .EINVAL, s)
    else
      let r := lxEpScan H l (s.sets f.handle)
      (.ok r.1, s.setEpoll f.handle r.2)

def step (s : Sys) : Event → Sys
  | .create p badFlags a => (s.lxEpollCreate p badFlags a).2
  | .ctl p epfd op fd uev alloc => (s.lxEpollCtl p epfd op fd uev alloc).2
  | .close p fd => (s.fdCloseEntry p fd).2
  | .dup p fd p' fd' => s.dupFd p fd p' fd'
  | .open p fd type handle => s.openFd p fd type handle
  | .wait p epfd H l => (s.lxEpollWait p epfd H l).2

def run (s : Sys) (es : List Event) : Sys := es.foldl step s

end Sys

/-! ### What a scan keeps -/

section
variable {H : History} {l : Look} {k : Nat} {it : Item} {w : Sweep}

section
variable (it : Item) (rev gi go : UInt32)

@[simp] theorem Item.examine_id : (it.examine rev gi go).1.id = it.id := by
  unfold examine
  split
  · split <;> rfl
  · rfl

@[simp] theorem Item.examine_events : (it.examine rev gi go).1.events = it.events := by
  unfold examine
  split
  · split <;> rfl
  · rfl

@[simp] theorem Item.reported_id : (it.reported rev gi go).id = it.id := rfl

@[simp] theorem Item.reported_events : (it.reported rev gi go).events = it.events := rfl

end

section
variable (H : History) (l : Look) (k : Nat) (it : Item) (w : Sweep)

/-- The three outcomes of a visit: nothing happens, the item is examined but not reported,
or it is reported. -/
theorem visit_cases : visit H l k it w = (it, w) ∧ (w.full = true ∨ it.armed = false) ∨
    (w.full = false ∧ it.armed = true ∧ ∃ rev gi go full,
      rev = lxEpEval it (H (l.time (2 * k)) it.id) ∧
      (gi, go) = lxEpGens (H (l.time (2 * k + 1)) it.id) ∧
      visit H l k it w = ((it.examine rev gi go).1, { w with full := full }) ∧
      ((it.examine rev gi go).2 = true → full = true ∧ l.cap ≤ w.got.length) ∧
      (full = true → l.cap ≤ w.got.length)) ∨
    (w.full = false ∧ it.armed = true ∧ ∃ rev gi go,
      rev = lxEpEval it (H (l.time (2 * k)) it.id) ∧
      (gi, go) = lxEpGens (H (l.time (2 * k + 1)) it.id) ∧
      (it.examine rev gi go).2 = true ∧
      visit H l k it w = ((it.examine rev gi go).1.reported rev gi go, { w with
        got := w.got ++ [⟨it.id, rev, it.data, l.time (2 * k), l.time (2 * k + 1)⟩]
        last := some k })) := by
  unfold visit
  by_cases hskip : w.full = true ∨ it.armed = false
  · exact .inl ⟨if_pos hskip, hskip⟩
  rw [if_neg hskip]
  have hfull : w.full = false := Bool.eq_false_of_not_eq_true fun h => hskip (.inl h)
  have harmed : it.armed = true := Bool.eq_true_of_not_eq_false fun h => hskip (.inr h)
  generalize hrev : lxEpEval it (H (l.time (2 * k)) it.id) = rev
  generalize hg : lxEpGens (H (l.time (2 * k + 1)) it.id) = g
  obtain ⟨gi, go⟩ := g
  by_cases hhit : (it.examine rev gi go).2 = false
  · rw [if_pos hhit]
    refine .inr (.inl ⟨hfull, harmed, rev, gi, go, false, rfl, rfl, ?_, ?_, ?_⟩)
    · rw [← hfull]
    · rw [hhit]
      exact fun h => absurd h (by decide)
    · exact fun h => absurd h (by decide)
  · rw [if_neg hhit]
    by_cases hroom : l.cap ≤ w.got.length
    · rw [if_pos hroom]
      exact .inr (.inl ⟨hfull, harmed, rev, gi, go, true, rfl, rfl, rfl, fun _ => ⟨rfl, hroom⟩,
        fun _ => hroom⟩)
    · rw [if_neg hroom]
      exact .inr (.inr ⟨hfull, harmed, rev, gi, go, rfl, rfl, Bool.eq_true_of_not_eq_false hhit,
        rfl⟩)

theorem visit_id : (visit H l k it w).1.id = it.id := by
  obtain ⟨h, -⟩ | ⟨-, -, rev, gi, go, full, -, -, h, -⟩ | ⟨-, -, rev, gi, go, -, -, -, h⟩ :=
    visit_cases H l k it w <;> simp [h]

theorem visit_events : (visit H l k it w).1.events = it.events := by
  obtain ⟨h, -⟩ | ⟨-, -, rev, gi, go, full, -, -, h, -⟩ | ⟨-, -, rev, gi, go, -, -, -, h⟩ :=
    visit_cases H l k it w <;> simp [h]

end

theorem sweep_append (items rest : List Item) :
    sweep H l k (items ++ rest) w =
      ((sweep H l k items w).1 ++ (sweep H l (k + items.length) rest (sweep H l k items w).2).1,
        (sweep H l (k + items.length) rest (sweep H l k items w).2).2) := by
  induction items generalizing k w with
  | nil => rfl
  | cons it items ih =>
    simp only [List.cons_append, sweep, ih, List.length_cons, Nat.add_assoc, Nat.add_comm 1]

section
variable (H : History) (l : Look) (k : Nat) (items : List Item) (w : Sweep)

theorem sweep_ids : (sweep H l k items w).1.map Item.id = items.map Item.id := by
  induction items generalizing k w with
  | nil => rfl
  | cons it items ih => simp only [sweep, List.map_cons, visit_id, ih]

theorem sweep_length : (sweep H l k items w).1.length = items.length := by
  simpa using congrArg List.length (sweep_ids H l k items w)

end

theorem lxEpScan_ids (H : History) (l : Look) (ep : EpSet) :
    ∀ x, x ∈ (lxEpScan H l ep).2.items.map Item.id ↔ x ∈ (live l ep).map Item.id := by
  intro x
  simp only [lxEpScan, visits, List.map_rotate, List.mem_rotate, sweep_ids]

end

end InDevOS.Epoll
