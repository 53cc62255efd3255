import Mathlib

/-! Event counters (`lx_eventfd_*` of `linux_syscall.c`).

A call that would block sleeps and comes back with the same arguments, so a run is a list of
turns of any calls. `eventfd_conserves`: what the calls that returned 8 have written and
what they have delivered add up with the counter. -/
namespace InDevOS.Ipc

/-- `lx_eventfd_t`. -/
structure LxEventfd where
  ctr : Nat
  gens : Nat
  sem : Bool

inductive EfErrno
  | einval | efault | eagain | eintr | emfile | enomem

/-- `lx_eventfd_create`, given what the descriptor table and the two allocations answer. -/
def lxEventfdCreate (fd obj ref : Bool) (initval : UInt32) (flags : BitVec 64) : Except EfErrno LxEventfd :=
  if flags &&& ~~~0x80801#64 ≠ 0#64 then .error .einval
  else if !fd then .error .emfile
  else if !obj || !ref then .error .enomem
  else .ok ⟨initval.toNat, 0, flags.getLsbD 0⟩

/-- A `write` of a value, none if it cannot be read, or a `read` whose result may not fit the
caller's memory. -/
inductive EfOp
  | write (v : Option UInt64)
  | read (put : Bool)

structure EfCall where
  op : EfOp
  len : Nat
  nonblock : Bool
  interrupted : Bool

/-- What a turn gives the caller: a result, none if it goes to sleep, and for a read the value
put into the caller's memory. -/
structure EfTurn where
  call : EfCall
  result : Option (Except EfErrno Nat)
  out : Option Nat

def LxEventfd.add (e : LxEventfd) (v : Nat) : LxEventfd :=
  { e with ctr := (e.ctr + v) % 2 ^ 64, gens := e.gens / 2 ^ 32 * 2 ^ 32 + (e.gens + 1) % 2 ^ 32 }

def LxEventfd.take (e : LxEventfd) (r : Nat) : LxEventfd :=
  { e with ctr := e.ctr - r, gens := (e.gens + 2 ^ 32) % 2 ^ 64 }

def EfCall.blocked (k : EfCall) : Option (Except EfErrno Nat) :=
  if k.nonblock then some (.error .eagain) else if k.interrupted then some (.error .eintr) else none

/-- One turn of `lx_eventfd_rw`, up to its return or to sleep. -/
def lxEventfdRw (e : LxEventfd) (k : EfCall) : LxEventfd × EfTurn :=
  if k.len < 8 then (e, ⟨k, some (.error .einval), none⟩)
  else
    match k.op with
    | .write none => (e, ⟨k, some (.error .efault), none⟩)
    | .write (some v) =>
      if v.toNat = 2 ^ 64 - 1 then (e, ⟨k, some (.error .einval), none⟩)
      else if v.toNat < 2 ^ 64 - 1 - e.ctr then (e.add v.toNat, ⟨k, some (.ok 8), none⟩)
      else (e, ⟨k, k.blocked, none⟩)
    | .read put =>
      if e.ctr ≠ 0 then
        let r := if e.sem then 1 else e.ctr
        (e.take r, ⟨k, some (if put then .ok 8 else .error .efault), if put then some r else none⟩)
      else (e, ⟨k, k.blocked, none⟩)

/-- The counter after some turns, and what they gave, the last one first. -/
def lxEventfdRun (e : LxEventfd) (ks : List EfCall) : LxEventfd × List EfTurn :=
  ks.foldl (fun s k => ((lxEventfdRw s.1 k).1, (lxEventfdRw s.1 k).2 :: s.2)) (e, [])

/-- The value of a write that returned 8. -/
def EfTurn.added (t : EfTurn) : Option Nat :=
  match t.call.op, t.result with
  | .write (some v), some (.ok 8) => some v.toNat
  | _, _ => none

/-- A read that has come to the counter: it returned 8, or could not deliver. -/
def EfTurn.took (t : EfTurn) : Bool :=
  match t.call.op, t.result with
  | .read _, some (.ok 8) | .read _, some (.error .efault) => true
  | _, _ => false

/-- What is right with a counter that began at `init` after some turns. The generations epoll
compares count the writes below and the reads above. -/
structure LxEventfd.Right (init : Nat) (e : LxEventfd) (ts : List EfTurn) : Prop where
  le : e.ctr + (ts.filterMap EfTurn.out).sum ≤ init + (ts.filterMap EfTurn.added).sum
  sum : (∀ t ∈ ts, t.call.op ≠ .read false) →
    init + (ts.filterMap EfTurn.added).sum = e.ctr + (ts.filterMap EfTurn.out).sum
  fits : e.ctr < 2 ^ 64 - 1
  out : ∀ r ∈ ts.filterMap EfTurn.out, 0 < r ∧ (e.sem → r = 1)
  gens : e.gens = ts.countP EfTurn.took % 2 ^ 32 * 2 ^ 32 + (ts.filterMap EfTurn.added).length % 2 ^ 32

variable {init : Nat} {e : LxEventfd} {ts : List EfTurn}

theorem LxEventfd.Right.idle (h : e.Right init ts) {t : EfTurn} (hout : t.out = none) (hadd : t.added = none)
    (htook : t.took = false) : e.Right init (t :: ts) where
  le := by simpa [hout, hadd] using h.le
  sum hall := by simpa [hout, hadd] using h.sum fun t ht => hall t (List.mem_cons_of_mem _ ht)
  fits := h.fits
  out := by simpa [hout] using h.out
  gens := by simpa [hadd, htook] using h.gens

theorem EfCall.blocked_idle (k : EfCall) :
    EfTurn.added ⟨k, k.blocked, none⟩ = none ∧ EfTurn.took ⟨k, k.blocked, none⟩ = false := by
  obtain ⟨op, len, nonblock, interrupted⟩ := k
  rcases op with (_ | _) | _ <;> cases nonblock <;> cases interrupted <;> exact ⟨rfl, rfl⟩

section
variable (h : e.Right init ts) {t : EfTurn}
include h

theorem LxEventfd.Right.write {v : Nat} (hroom : v < 2 ^ 64 - 1 - e.ctr) (hout : t.out = none)
    (hadd : t.added = some v) (htook : t.took = false) : (e.add v).Right init (t :: ts) := by
  have hfits := h.fits
  have hle := h.le
  have hgens := h.gens
  refine ⟨?_, fun hall => ?_, ?_, by simpa [add, hout] using h.out, ?_⟩
  · simp [add, hout, hadd]
    omega
  · have hsum := h.sum fun t ht => hall t (List.mem_cons_of_mem _ ht)
    simp [add, hout, hadd]
    omega
  · simp only [add]
    omega
  · simp [add, hadd, htook]
    omega

section
variable {r : Nat} (hle : r ≤ e.ctr) (hadd : t.added = none) (htook : t.took = true)
include hle hadd htook

theorem LxEventfd.Right.delivered (hr : 0 < r ∧ (e.sem → r = 1)) (hout : t.out = some r) :
    (e.take r).Right init (t :: ts) := by
  have hfits := h.fits
  have hsmall := h.le
  have hgens := h.gens
  refine ⟨?_, fun hall => ?_, ?_, ?_, ?_⟩
  · simp [take, hout, hadd]
    omega
  · have hsum := h.sum fun t ht => hall t (List.mem_cons_of_mem _ ht)
    simp [take, hout, hadd]
    omega
  · simp only [take]
    omega
  · simpa [take, hout] using ⟨hr, by simpa using h.out⟩
  · simp [take, hadd, htook]
    omega

theorem LxEventfd.Right.lost (hop : t.call.op = .read false) (hout : t.out = none) :
    (e.take r).Right init (t :: ts) := by
  have hfits := h.fits
  have hsmall := h.le
  have hgens := h.gens
  refine ⟨?_, fun hall => absurd hop (hall t List.mem_cons_self), ?_, by simpa [take, hout] using h.out, ?_⟩
  · simp [take, hout, hadd]
    omega
  · simp only [take]
    omega
  · simp [take, hadd, htook]
    omega

end

theorem LxEventfd.Right.rw (k : EfCall) : (lxEventfdRw e k).1.Right init ((lxEventfdRw e k).2 :: ts) := by
  fun_cases lxEventfdRw e k
  case case4 hlen v hop hmax hroom =>
    exact h.write hroom rfl (by simp [EfTurn.added, hop]) (by simp [EfTurn.took, hop])
  case case5 | case7 => exact h.idle rfl k.blocked_idle.1 k.blocked_idle.2
  case case6 hlen put hop hctr r =>
    have hr : r ≤ e.ctr ∧ 0 < r ∧ (e.sem → r = 1) := by
      simp only [r]
      split_ifs with hsem
      · exact ⟨by omega, Nat.one_pos, fun _ => rfl⟩
      · exact ⟨le_rfl, by omega, fun hs => absurd hs hsem⟩
    cases put with
    | true => exact h.delivered hr.1 (by simp [EfTurn.added, hop]) (by simp [EfTurn.took, hop]) hr.2 rfl
    | false => exact h.lost hr.1 (by simp [EfTurn.added, hop]) (by simp [EfTurn.took, hop]) hop rfl
  all_goals exact h.idle rfl (by simp [EfTurn.added, *]) (by simp [EfTurn.took, *])

end

/-- **The counter is exact.** After any turns of any calls the counter and what reads delivered add up
to what it began with and what the writes that returned 8 added, in numbers that do not wrap,
unless a read could not deliver what it took; every read delivers something, with
EFD_SEMAPHORE a one. -/
theorem eventfd_conserves {fd obj ref : Bool} {initval : UInt32} {flags : BitVec 64} {e : LxEventfd}
    (h : lxEventfdCreate fd obj ref initval flags = .ok e) (ks : List EfCall) :
    (lxEventfdRun e ks).1.Right initval.toNat (lxEventfdRun e ks).2 := by
  have hnew : e.Right initval.toNat [] := by
    have := initval.toNat_lt
    unfold lxEventfdCreate at h
    split_ifs at h
    cases h
    exact ⟨le_rfl, fun _ => rfl, by dsimp only; omega, by simp, by simp⟩
  clear h
  unfold lxEventfdRun
  generalize [] = ts at hnew ⊢
  induction ks generalizing e ts with
  | nil => exact hnew
  | cons k ks ih => exact ih _ (hnew.rw k)

/-- Two readers of a semaphore of one, the second refused, then a write of five and a third reader. -/
def semaphoreTurns : LxEventfd × List EfTurn :=
  lxEventfdRun ⟨1, 0, true⟩ [⟨.read true, 8, false, false⟩, ⟨.read true, 8, true, false⟩,
    ⟨.write (some 5), 8, false, false⟩, ⟨.read true, 8, false, false⟩]

theorem eventfd_conserves_semaphore : semaphoreTurns.1.ctr = 4 ∧
    semaphoreTurns.2.filterMap EfTurn.added = [5] ∧ semaphoreTurns.2.filterMap EfTurn.out = [1, 1] ∧
    semaphoreTurns.1.Right 1 semaphoreTurns.2 :=
  ⟨rfl, rfl, rfl, @eventfd_conserves true true true 1 1 _ rfl _⟩

end InDevOS.Ipc
