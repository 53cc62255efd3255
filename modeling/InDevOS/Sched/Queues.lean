import InDevOS.Lib.Pool

/-! The queues of the scheduler (`thread.c`).

A thread has one pair of link fields and may be linked into a ready queue of a CPU at one
of four priorities, into the sleeping queue or into the blocked queue. Every section under
the scheduler lock is one function here. Ready threads are chosen by several loops that
differ in the CPUs they look at and in what they ask of a thread; a chosen thread is in the
hands of the CPU that chose it (`picked`) until that CPU switches to it.

There are `n` threads besides the idle threads, which are never queued: a CPU that runs
its idle thread has no current thread here. The sleeping and the blocked queue have no tail
pointer in the code; that of the model is written and never read. -/
namespace InDevOS.Sched
open Lib

/-- `MAX_CPUS` CPUs; CPU 0 is the one that boots. -/
abbrev Cpu := Fin 16

instance instNeZeroCpu : NeZero 16 := ⟨by decide⟩

/-- `THREAD_NUM_PRIORITIES` priorities. -/
abbrev Prio := Fin 4

/-- `thread_state_t` -/
inductive State
  | ready | running | blocked | sleeping | terminated
deriving DecidableEq

/-- The fields of `thread_t` that the scheduler reads, without the links. -/
structure Thread where
  state : State
  priority : Int
  sleepUntil : Nat
  ownerProcess : Bool
  homeCpu : Nat
  hasSavedContext : Bool
  onCpu : Bool
  kpollWaiting : Bool
deriving DecidableEq

inductive Queue
  | ready (c : Cpu) (p : Prio)
  | sleeping
  | blocked
deriving DecidableEq

structure Scheduler (n : Nat) where
  threads : Fin n → Thread
  queues : Pool Queue (Fin n)
  readyCount : Cpu → Nat
  online : Cpu → Bool
  currentThread : Cpu → Option (Fin n)
  /-- The thread a CPU switched out last and whose stack it may still be on. -/
  oncpuPending : Cpu → Option (Fin n)
  /-- The thread a CPU has chosen and not yet switched to. -/
  picked : Cpu → Option (Fin n)
  /-- The thread the system booted on. -/
  kmain : Option (Fin n)

/-- `_prio_index` -/
def prioIndex (p : Int) : Prio := ⟨min p.toNat 3, by omega⟩

namespace Scheduler
variable {n : Nat}

section
variable (s : Scheduler n)

section
variable (t : Fin n)

def setThread (f : Thread → Thread) : Scheduler n :=
  { s with threads := Function.update s.threads t (f (s.threads t)) }

def setState (st : State) : Scheduler n :=
  s.setThread t fun x => { x with state := st }

/-! ### Run queues -/

/-- `rq_cpu` -/
def rqCpu (id : Nat) : Cpu :=
  if h : id < 16 then if s.online ⟨id, h⟩ then ⟨id, h⟩ else 0 else 0

/-- The load of a CPU in `pick_least_loaded_cpu`. -/
def load (c : Cpu) : Nat :=
  s.readyCount c + if (s.currentThread c).isSome then 1 else 0

/-- `pick_least_loaded_cpu` -/
def pickLeastLoadedCpu : Cpu :=
  ((List.finRange 16).foldl (fun (best : Cpu × Nat) c =>
    if s.online c ∧ s.load c < best.2 then (c, s.load c) else best) (0, 2 ^ 32 - 1)).1

/-- `assign_home_cpu`, as `thread_rq` calls it. -/
def assignHomeCpu : Scheduler n :=
  if 16 ≤ (s.threads t).homeCpu then
    s.setThread t fun x => { x with homeCpu := s.pickLeastLoadedCpu }
  else s

/-- `thread_rq`, after `assignHomeCpu`. -/
def threadRq : Cpu := s.rqCpu (s.threads t).homeCpu

/-- Link a thread into the ready queue of its priority on a CPU, and count it. -/
def link (c : Cpu) (p : Prio) (a b : Option (Fin n)) (t : Fin n) :
    Scheduler n :=
  { s with
    queues := s.queues.insert (.ready c p) a b t
    readyCount := Function.update s.readyCount c (s.readyCount c + 1) }

/-- `_scheduler_add_thread_unlocked` -/
def schedulerAddThread : Scheduler n :=
  let s := s.assignHomeCpu t
  let c := s.threadRq t
  let p := prioIndex (s.threads t).priority
  s.link c p (s.queues.tail (.ready c p)) none t

/-- `_scheduler_add_thread_front_unlocked` -/
def schedulerAddThreadFront : Scheduler n :=
  let s := s.assignHomeCpu t
  let c := s.threadRq t
  let p := prioIndex (s.threads t).priority
  s.link c p none (s.queues.head (.ready c p)) t

/-- The test of `_queue_unlink`: a walk along the queue. -/
def member (q : Queue) (t : Fin n) : Bool :=
  (walk s.queues.next (· = t) n (s.queues.head q)).isSome

/-- Unlink a thread from a ready queue, and count it (`rq_note_del`). -/
def unlinkReady (c : Cpu) (p : Prio) (t : Fin n) : Scheduler n :=
  { s with
    queues := s.queues.remove (.ready c p) t
    readyCount := Function.update s.readyCount c (s.readyCount c - 1) }

/-- The ready queues in the order in which `_ready_unlink` looks for a thread: those of its
CPU, then those of all CPUs online. -/
def readyQueues : List (Cpu × Prio) :=
  ((s.threadRq t) :: (List.finRange 16).filter fun c => s.online c).flatMap fun c =>
    (List.finRange 4).map fun p => (c, p)

/-- `_ready_unlink` -/
def readyUnlink : Bool × Scheduler n :=
  let s := s.assignHomeCpu t
  match (s.readyQueues t).find? fun cp => s.member (.ready cp.1 cp.2) t with
  | none => (false, s)
  | some cp => (true, s.unlinkReady cp.1 cp.2 t)

/-- `_queue_unlink` on the blocked or the sleeping queue. -/
def queueUnlink (q : Queue) (t : Fin n) : Bool × Scheduler n :=
  if s.member q t then (true, { s with queues := s.queues.remove q t }) else (false, s)

/-- `_scheduler_remove_thread_unlocked` -/
def schedulerRemoveThread : Scheduler n :=
  let r := s.readyUnlink t
  let s := if r.1 then r.2
    else
      let b := r.2.queueUnlink .blocked t
      if b.1 then b.2 else (b.2.queueUnlink .sleeping t).2
  { s with queues := s.queues.clear t }

/-! ### Choosing a thread -/

/-- The loops over one CPU: from the highest priority down, the first thread that is asked
for. -/
def search (c : Cpu) (ok : Fin n → Bool) : Option (Cpu × Prio × Fin n) :=
  [3, 2, 1, 0].findSome? fun p =>
    (walk s.queues.next ok n (s.queues.head (.ready c p))).map fun t => (c, p, t)

/-- Look at some CPUs in turn and unlink the first thread found. -/
def choose (tries : List (Cpu × (Fin n → Bool))) : Option (Fin n) × Scheduler n :=
  match tries.findSome? fun x => s.search x.1 x.2 with
  | none => (none, s)
  | some (c, p, t) => (some t, s.unlinkReady c p t)

/-- The CPUs online other than `me`. -/
def others (me : Cpu) : List Cpu :=
  (List.finRange 16).filter fun c => c ≠ me ∧ s.online c

/-- The test of `_rq_pop_any`. -/
def offCpu : Bool := !(s.threads t).onCpu

/-- The test of `_scheduler_get_next_kernel_thread_unlocked`. -/
def kernelThread : Bool :=
  !(s.threads t).ownerProcess && !(s.threads t).onCpu

/-- The test of `_pick_from_cpu`. -/
def wanted (wantUser kernelOk allowKmain : Bool) (t : Fin n) : Bool :=
  !(s.threads t).onCpu && !(decide (s.kmain = some t) && !allowKmain) &&
    if wantUser then (s.threads t).ownerProcess
    else kernelOk && !(s.threads t).ownerProcess && (s.threads t).hasSavedContext

/-- `_scheduler_get_next_thread_unlocked` -/
def schedulerGetNextThread (me : Cpu) : Option (Fin n) × Scheduler n :=
  s.choose ((me :: s.others me).map fun c => (c, s.offCpu))

/-- `_scheduler_get_next_kernel_thread_unlocked` -/
def schedulerGetNextKernelThread : Option (Fin n) × Scheduler n :=
  s.choose (((List.finRange 16).filter fun c => c = 0 ∨ s.online c).map fun c => (c, s.kernelThread))

/-- `scheduler_pick_user_thread` -/
def schedulerPickUserThread (me : Cpu) : Option (Fin n) × Scheduler n :=
  s.choose ((me :: s.others me).map fun c => (c, s.wanted true false false))

/-- `scheduler_pick_preempt_thread` -/
def schedulerPickPreemptThread (me : Cpu) : Option (Fin n) × Scheduler n :=
  let r := s.choose ([(me, s.wanted true false false), (me, s.wanted false true (me = 0))] ++
    (s.others me).map (fun c => (c, s.wanted true false false)) ++
    (s.others me).map fun c => (c, s.wanted false true false))
  match r.1 with
  | none => r
  | some t => (some t, r.2.setThread t fun x => { x with homeCpu := me })

/-! ### Sleeping and waking -/

/-- The section of `thread_sleep` and of `kpoll_sleep_ms`: into the sleeping queue, behind
all threads that wake up no later. -/
def sleep (wakeupTime : Nat) (kpoll : Bool) : Scheduler n :=
  let s := s.schedulerRemoveThread t
  let s := s.setThread t fun x => { x with
    state := .sleeping
    sleepUntil := wakeupTime
    kpollWaiting := if kpoll then true else x.kpollWaiting }
  let ab := place s.queues.next (fun a => (s.threads a).sleepUntil ≤ wakeupTime) n none
    (s.queues.head .sleeping)
  { s with queues := s.queues.insert .sleeping ab.1 ab.2 t }

/-- Take the head off the sleeping queue, as `scheduler_wake_expired_locked` does. -/
def popSleeping : Scheduler n :=
  let q := s.queues
  let q := { q with head := Function.update q.head .sleeping (q.next t) }
  let q := match s.queues.next t with
    | some b => { q with prev := Function.update q.prev b none }
    | none => { q with tail := Function.update q.tail .sleeping none }
  { s with queues := q.clear t }

/-- `scheduler_wake_expired_locked`: at most `n` threads sleep. -/
def wakeExpired (now : Nat) : (fuel : Nat) → Scheduler n → Scheduler n
  | 0, s => s
  | fuel + 1, s =>
    match s.queues.head .sleeping with
    | none => s
    | some t =>
      if now < (s.threads t).sleepUntil then s
      else wakeExpired now fuel (((s.popSleeping t).setState t .ready).schedulerAddThreadFront t)

def schedulerWakeExpired (now : Nat) : Scheduler n := s.wakeExpired now n

/-- The common end of the explicit wake-ups. -/
def makeReady : Scheduler n :=
  ((s.schedulerRemoveThread t).setState t .ready).schedulerAddThreadFront t

/-- Whether a wake-up finds the thread asleep or blocked. -/
def waits : Bool :=
  (s.threads t).state = .sleeping ∨ (s.threads t).state = .blocked

/-- `thread_wake` -/
def threadWake : Scheduler n :=
  if s.waits t then s.makeReady t else s

/-- `thread_wake_blocked_unlocked` -/
def threadWakeBlocked : Scheduler n :=
  let s' := if (s.threads t).state = .sleeping then s.setThread t fun x => { x with sleepUntil := 0 }
    else s
  if s.waits t then s'.makeReady t else s'

/-- The loop of `kpoll_wake`; the next thread is read before this one is woken. -/
def kpollWakeLoop : (fuel : Nat) → Option (Fin n) → Scheduler n → Scheduler n
  | 0, _, s => s
  | _ + 1, none, s => s
  | fuel + 1, some t, s =>
    kpollWakeLoop fuel (s.queues.next t) <|
      if (s.threads t).kpollWaiting ∧ (s.threads t).state = .sleeping then
        (s.setThread t fun x => { x with kpollWaiting := false }).threadWakeBlocked t
      else s

/-- The section of `kpoll_wake`. -/
def kpollWake : Scheduler n := s.kpollWakeLoop n (s.queues.head .sleeping)

/-- `thread_block_current_unlocked` -/
def threadBlockCurrent : Scheduler n :=
  (s.schedulerRemoveThread t).setState t .blocked

/-- `thread_unblock_current_running_unlocked` -/
def threadUnblockCurrent : Scheduler n :=
  (s.schedulerRemoveThread t).setState t .running

/-- The section of `thread_kwait_current`. -/
def threadKwaitEnd : Scheduler n :=
  if (s.threads t).state = .ready ∨ (s.threads t).state = .running then s.threadUnblockCurrent t
  else s

/-- `thread_set_priority` -/
def threadSetPriority (priority : Int) : Scheduler n :=
  let r := s.readyUnlink t
  let s := r.2.setThread t fun x => { x with priority := priority }
  if r.1 then s.schedulerAddThread t else s

end

/-! ### Switching -/

/-- Clear the flag of the thread switched out last. -/
def clearOnCpu : Option (Fin n) → Scheduler n
  | none => s
  | some t => s.setThread t fun x => { x with onCpu := false }

/-- `sched_oncpu_defer_clear` -/
def schedOncpuDeferClear (c : Cpu) (t : Option (Fin n)) : Scheduler n :=
  let s := if s.oncpuPending c ≠ t then s.clearOnCpu (s.oncpuPending c) else s
  { s with oncpuPending := Function.update s.oncpuPending c t }

/-- `sched_oncpu_flush` -/
def schedOncpuFlush (c : Cpu) : Scheduler n :=
  let s := s.clearOnCpu (s.oncpuPending c)
  { s with oncpuPending := Function.update s.oncpuPending c none }

/-- The incoming thread of a switch: it becomes the current thread, running and marked. -/
def switchIn (c : Cpu) (t : Fin n) : Scheduler n :=
  { s.setThread t fun x => { x with state := .running, onCpu := true } with
    currentThread := Function.update s.currentThread c (some t) }

/-- The switch to the thread chosen. `preemptive_schedule` defers the clearing for the
outgoing thread before it marks the incoming one, `thread_switch` (`coop`) after. -/
def switchTo (c : Cpu) (coop : Bool) : Scheduler n :=
  match s.picked c with
  | none => s
  | some t =>
    let s' := if coop then (s.switchIn c t).schedOncpuDeferClear c (s.currentThread c)
      else (s.schedOncpuDeferClear c (s.currentThread c)).switchIn c t
    { s' with picked := Function.update s'.picked c none }

/-- The switch to the idle thread, when nothing was chosen. -/
def switchIdle (c : Cpu) : Scheduler n :=
  if (s.picked c).isSome then s
  else
    { s.schedOncpuDeferClear c (s.currentThread c) with
      currentThread := Function.update s.currentThread c none }

/-! ### The machine -/

/-- Sections under the lock, and the steps of a CPU between them. The thread that sleeps
or blocks is the current one of a CPU. -/
inductive Event (n : Nat)
  | add (t : Fin n)
  | remove (t : Fin n)
  | getNext (me : Cpu)
  | getNextKernel (me : Cpu)
  | pickUser (me : Cpu)
  | pickPreempt (me : Cpu)
  | sleep (c : Cpu) (ticks ms : Nat) (kpoll : Bool)
  | wakeExpired (now : Nat)
  | wake (t : Fin n)
  | wakeBlocked (t : Fin n)
  | kpollWake
  | block (c : Cpu)
  | unblock (c : Cpu)
  | kwaitEnd (c : Cpu)
  | setPriority (t : Fin n) (priority : Int)
  | switchTo (c : Cpu) (coop : Bool)
  | switchIdle (c : Cpu)
  | flush (c : Cpu)
  | markReady (c : Cpu)
  | terminate (c : Cpu)
  | kpollDone (c : Cpu)
  | setHome (t : Fin n) (c : Cpu)
  | bringUp (c : Cpu)

/-- A section of the current thread of a CPU. -/
def onCurrent (c : Cpu) (f : Scheduler n → Fin n → Scheduler n) : Scheduler n :=
  match s.currentThread c with
  | none => s
  | some t => f s t

/-- What a CPU has chosen stays in its hands; it chooses again only after it switched. -/
def take (me : Cpu) (r : Option (Fin n) × Scheduler n) : Scheduler n :=
  if (s.picked me).isSome then s
  else { r.2 with picked := Function.update r.2.picked me r.1 }

def step : Event n → Scheduler n
  | .add t => s.schedulerAddThread t
  | .remove t => s.schedulerRemoveThread t
  | .getNext me => s.take me (s.schedulerGetNextThread me)
  | .getNextKernel me => s.take me s.schedulerGetNextKernelThread
  | .pickUser me => s.take me (s.schedulerPickUserThread me)
  | .pickPreempt me => s.take me (s.schedulerPickPreemptThread me)
  | .sleep c ticks ms kpoll =>
    s.onCurrent c fun s t => s.sleep t ((ticks + ms) % 2 ^ 64) kpoll
  | .wakeExpired now => s.schedulerWakeExpired now
  | .wake t => s.threadWake t
  | .wakeBlocked t => s.threadWakeBlocked t
  | .kpollWake => s.kpollWake
  | .block c => s.onCurrent c threadBlockCurrent
  | .unblock c => s.onCurrent c threadUnblockCurrent
  | .kwaitEnd c => s.onCurrent c threadKwaitEnd
  | .setPriority t priority => s.threadSetPriority t priority
  | .switchTo c coop => s.switchTo c coop
  | .switchIdle c => s.switchIdle c
  | .flush c => s.schedOncpuFlush c
  | .markReady c =>
    s.onCurrent c fun s t => if (s.threads t).state = .running then s.setState t .ready else s
  | .terminate c => s.onCurrent c fun s t => s.setState t .terminated
  | .kpollDone c => s.onCurrent c fun s t => s.setThread t fun x => { x with kpollWaiting := false }
  | .setHome t c => if s.online c then s.setThread t fun x => { x with homeCpu := c } else s
  | .bringUp c => { s with online := Function.update s.online c true }

def run (es : List (Event n)) : Scheduler n := es.foldl step s

end

/-- The queues are empty, nothing was chosen, and CPU 0 is online and runs the thread the
system booted on, whose `on_cpu` flag nobody has set (`smp_attach_bsp_boot_thread`). -/
structure Boot (s : Scheduler n) : Prop where
  head : ∀ q, s.queues.head q = none
  tail : ∀ q, s.queues.tail q = none
  readyCount : ∀ c, s.readyCount c = 0
  bsp : s.online 0 = true
  current : s.currentThread = fun c => if c = 0 then s.kmain else none
  pending : ∀ c, s.oncpuPending c = none
  picked : ∀ c, s.picked c = none
  onCpu : ∀ t, (s.threads t).onCpu = false

end Scheduler

end InDevOS.Sched
