import InDevOS.Mem.Pte

/-! Futexes (`lx_futex` in `linux_syscall.c`).

A waiter is a node on the stack of the call that waits, linked into one queue. A wake
unlinks it and sets its `woken` flag under the lock; a waiter that gives up, for whatever
reason, takes the lock once more and believes the flag rather than its reason. The steps
here are the lock-held sections and the moment at which a waiter leaves its loop; when
it does so is left open, so that every race of a timeout, a signal or a changed word
with a wake is among the runs.

`futex_wakes_counted`: a counted waiter returns 0, each is counted once, and the
values returned are the numbers of waiters woken, with those requeued for `CMP_REQUEUE`.
`REQUEUE` does not add them (`requeue_returns_woken`). -/
namespace InDevOS.Ipc

open Mem List

inductive FutexErrno where
  | einval
  | eagain
  | efault
  | etimedout
  | eintr
  | enosys
deriving DecidableEq, Repr

/-- Address space and address, or 0 and the physical address of a shared word. -/
structure FutexKey where
  keyAs : UInt64
  keyAddr : UInt64
deriving DecidableEq, Repr

/-- `lx_futex_waiter_t`; `id` is the call on whose stack it lives. -/
structure FutexWaiter where
  id : Nat
  key : FutexKey
  bitset : UInt32
  requeued : Bool
deriving DecidableEq, Repr

/-- Where a call of `FUTEX_WAIT` is. -/
inductive FutexCall where
  | outside
  /-- Queued, in the wait loop. -/
  | waiting
  /-- Out of the loop with a return value, before the lock is taken again. -/
  | leaving (ret : Except FutexErrno Nat)
  | returned (ret : Except FutexErrno Nat)
deriving DecidableEq

/-- `woken` lists the calls whose flag has been set, in that order. -/
structure FutexState where
  queue : List FutexWaiter
  woken : List Nat
  call : Nat → FutexCall

def FutexState.start : FutexState := ⟨[], [], fun _ => .outside⟩

/-! ### Keys -/

/-- A futex word as a caller names it: its address space, the page table word of its
page, the address and `FUTEX_PRIVATE_FLAG`. -/
structure FutexAddr where
  pml4 : UInt64
  pte : Option UInt64
  uaddr : UInt64
  priv : Bool
deriving DecidableEq, Repr

def lxFutexKey (a : FutexAddr) : Except FutexErrno FutexKey :=
  if a.uaddr &&& 3 != 0 then .error .einval
  else
    match a.priv, a.pte with
    | false, some pte =>
      if has pte vmmPresent && has pte vmmShared then .ok ⟨0, addr pte ||| (a.uaddr &&& 0xFFF)⟩
      else .ok ⟨a.pml4, a.uaddr⟩
    | _, _ => .ok ⟨a.pml4, a.uaddr⟩

/-! ### Under the lock -/

/-- A 32-bit word as an `int`. -/
def int32 (x : UInt32) : Int := if x.toNat < 2 ^ 31 then x.toNat else (x.toNat : Int) - 2 ^ 32

/-- A count clipped to the largest `int`. -/
def clampInt (x : UInt32) : Int := if 0x7fffffff < x.toNat then 0x7fffffff else x.toNat

def lxFutexUnlink (id : Nat) : List FutexWaiter → List FutexWaiter
  | [] => []
  | w :: q => if w.id = id then q else w :: lxFutexUnlink id q

/-- The walk of `lx_futex_wake_locked`: the counter, the waiters it unlinks and the rest. -/
def wakeWalk (key : FutexKey) (n : Int) (bitset : UInt32) :
    (woke : Nat) → List FutexWaiter → Nat × List Nat × List FutexWaiter
  | woke, [] => (woke, [], [])
  | woke, w :: q =>
    if (woke : Int) < n then
      if w.key = key ∧ w.bitset &&& bitset ≠ 0 then
        let r := wakeWalk key n bitset (woke + 1) q
        (r.1, w.id :: r.2.1, r.2.2)
      else
        let r := wakeWalk key n bitset woke q
        (r.1, r.2.1, w :: r.2.2)
    else (woke, [], w :: q)

/-- Wake up to `n` waiters on a key: how many, which, and the state. -/
def lxFutexWakeLocked (s : FutexState) (key : FutexKey) (n : Int) (bitset : UInt32) :
    Nat × List Nat × FutexState :=
  let r := wakeWalk key n bitset 0 s.queue
  (r.1, r.2.1, { s with queue := r.2.2, woken := s.woken ++ r.2.1 })

/-- The requeue loop: the counter, the waiters it retargets and the queue. -/
def requeueWalk (key key2 : FutexKey) (nreq : Int) :
    (moved : Nat) → List FutexWaiter → Nat × List Nat × List FutexWaiter
  | moved, [] => (moved, [], [])
  | moved, w :: q =>
    if (moved : Int) < nreq then
      if w.key = key then
        let r := requeueWalk key key2 nreq (moved + 1) q
        (r.1, w.id :: r.2.1, { w with key := key2, requeued := true } :: r.2.2)
      else
        let r := requeueWalk key key2 nreq moved q
        (r.1, r.2.1, w :: r.2.2)
    else (moved, [], w :: q)

/-! ### The calls -/

/-- What a step returns, if it returns, and whom it woke and requeued. -/
structure FutexOut where
  ret : Option (Except FutexErrno Nat)
  woke : List Nat
  requeued : List Nat
  state : FutexState

def FutexState.fail (s : FutexState) (e : FutexErrno) : FutexOut := ⟨some (.error e), [], [], s⟩

/-- A call of `FUTEX_WAIT` that returns before it is queued. -/
def FutexState.refuse (s : FutexState) (id : Nat) (e : FutexErrno) : FutexOut :=
  ⟨some (.error e), [], [], { s with call := Function.update s.call id (.returned (.error e)) }⟩

/-- `FUTEX_WAIT` and `FUTEX_WAIT_BITSET` up to the queueing. `timeout` is the error the
timeout argument gives, `pre` and `cur` are the reads of the word before and under the
lock, `none` for a fault. -/
def lxFutexWait (s : FutexState) (id : Nat) (a : FutexAddr) (bitset val : UInt32)
    (timeout : Option FutexErrno) (pre cur : Option UInt32) : FutexOut :=
  if bitset = 0 then s.refuse id .einval
  else
    match lxFutexKey a, timeout, pre, cur with
    | .error e, _, _, _ => s.refuse id e
    | .ok _, some e, _, _ => s.refuse id e
    | .ok _, none, none, _ => s.refuse id .efault
    | .ok _, none, some _, none => s.refuse id .efault
    | .ok key, none, some _, some cur =>
      if cur ≠ val then s.refuse id .eagain
      else ⟨none, [], [],
        { s with queue := ⟨id, key, bitset, false⟩ :: s.queue
                 call := Function.update s.call id .waiting }⟩

/-- Why a waiter leaves its loop. -/
inductive FutexLeave where
  | wokenFlag
  | timeout
  | signal
  | wordChanged
deriving DecidableEq, Repr

def FutexLeave.ret : FutexLeave → Except FutexErrno Nat
  | .wokenFlag => .ok 0
  | .timeout => .error .etimedout
  | .signal => .error .eintr
  | .wordChanged => .ok 0

/-- The last section of `FUTEX_WAIT`: a waiter woken meanwhile returns 0, any other takes
itself off the queue. -/
def lxFutexExit (s : FutexState) (id : Nat) (ret : Except FutexErrno Nat) : FutexOut :=
  if id ∈ s.woken then
    ⟨some (.ok 0), [], [], { s with call := Function.update s.call id (.returned (.ok 0)) }⟩
  else
    ⟨some ret, [], [],
      { s with queue := lxFutexUnlink id s.queue
               call := Function.update s.call id (.returned ret) }⟩

/-- `FUTEX_WAKE` and `FUTEX_WAKE_BITSET` -/
def lxFutexWake (s : FutexState) (a : FutexAddr) (val bitset : UInt32) : FutexOut :=
  if bitset = 0 then s.fail .einval
  else
    match lxFutexKey a with
    | .error e => s.fail e
    | .ok key =>
      let r := lxFutexWakeLocked s key (clampInt val) bitset
      ⟨some (.ok r.1), r.2.1, [], r.2.2⟩

/-- The comparison `FUTEX_CMP_REQUEUE` makes: the value expected, and the reads before and
under the lock. -/
structure FutexCmp where
  val3 : UInt32
  pre : Option UInt32
  cur : Option UInt32
deriving DecidableEq, Repr

/-- The lock-held section of the two requeue calls. -/
def requeueLocked (s : FutexState) (key key2 : FutexKey) (val : UInt32) (nreq : Int) (cmp : Bool) :
    FutexOut :=
  let r := lxFutexWakeLocked s key (int32 val) 0xffffffff
  let m := requeueWalk key key2 nreq 0 r.2.2.queue
  ⟨some (.ok (if cmp then r.1 + m.1 else r.1)), r.2.1, m.2.1, { r.2.2 with queue := m.2.2 }⟩

/-- `FUTEX_REQUEUE`, and `FUTEX_CMP_REQUEUE` when there is a comparison. -/
def lxFutexRequeue (s : FutexState) (a a2 : FutexAddr) (val nreq : UInt32) (cmp : Option FutexCmp) :
    FutexOut :=
  match lxFutexKey a, lxFutexKey a2 with
  | .error e, _ => s.fail e
  | .ok _, .error e => s.fail e
  | .ok key, .ok key2 =>
    let n := clampInt nreq
    if int32 val < 0 ∨ n < 0 then s.fail .einval
    else
      match cmp with
      | none => requeueLocked s key key2 val n false
      | some ⟨_, none, _⟩ => s.fail .efault
      | some ⟨_, some _, none⟩ => s.fail .efault
      | some ⟨val3, some _, some cur⟩ =>
        if cur ≠ val3 then s.fail .eagain else requeueLocked s key key2 val n true

/-- The signed 12-bit comparand in the low bits of `val3`. -/
def cmparg (val3 : UInt32) : Int :=
  let x := val3.toNat % 4096
  if x < 2048 then x else (x : Int) - 4096

def wakeOpCond (val3 old : UInt32) : Bool :=
  let so := int32 old
  let sa := cmparg val3
  match (val3.toNat / 2 ^ 24) % 16 with
  | 0 => so = sa
  | 1 => so ≠ sa
  | 2 => so < sa
  | 3 => so ≤ sa
  | 4 => so > sa
  | 5 => so ≥ sa
  | _ => false

/-- `FUTEX_WAKE_OP`. `pre` says whether the word could be faulted in, `old` is what the
atomic update under the lock found there. -/
def lxFutexWakeOp (s : FutexState) (a a2 : FutexAddr) (val val2 val3 : UInt32) (pre : Bool)
    (old : Option UInt32) : FutexOut :=
  match lxFutexKey a, lxFutexKey a2 with
  | .error e, _ => s.fail e
  | .ok _, .error e => s.fail e
  | .ok key, .ok key2 =>
    if 4 < (val3.toNat / 2 ^ 28) % 8 then s.fail .enosys
    else if !pre then s.fail .efault
    else
      match old with
      | none => s.fail .efault
      | some old =>
        let r := lxFutexWakeLocked s key (int32 val) 0xffffffff
        if wakeOpCond val3 old then
          let r2 := lxFutexWakeLocked r.2.2 key2 (int32 val2) 0xffffffff
          ⟨some (.ok (r.1 + r2.1)), r.2.1 ++ r2.2.1, [], r2.2.2⟩
        else ⟨some (.ok r.1), r.2.1, [], r.2.2⟩

/-- `lx_futex_wake_addr`, the wake of an exiting thread; nobody sees a return value. -/
def lxFutexWakeAddr (s : FutexState) (a : FutexAddr) (n : Int) : FutexOut :=
  match lxFutexKey a with
  | .error _ => ⟨none, [], [], s⟩
  | .ok key =>
    let r := lxFutexWakeLocked s key n 0xffffffff
    ⟨none, r.2.1, [], r.2.2⟩

/-! ### Runs -/

inductive FutexOp where
  | wait (id : Nat) (a : FutexAddr) (bitset val : UInt32) (timeout : Option FutexErrno)
      (pre cur : Option UInt32)
  | leave (id : Nat) (why : FutexLeave)
  | exit (id : Nat)
  | wake (a : FutexAddr) (val bitset : UInt32)
  | requeue (a a2 : FutexAddr) (val nreq : UInt32)
  | cmpRequeue (a a2 : FutexAddr) (val nreq : UInt32) (cmp : FutexCmp)
  | wakeOp (a a2 : FutexAddr) (val val2 val3 : UInt32) (pre : Bool) (old : Option UInt32)
  | wakeAddr (a : FutexAddr) (n : Int)

/-- The steps of a call come in its own order, and a waiter leaves as woken only if it is.
The clock, signals and the word are free. -/
def FutexState.allows (s : FutexState) : FutexOp → Prop
  | .wait id .. => s.call id = .outside
  | .leave id why => s.call id = .waiting ∧ (why = .wokenFlag → id ∈ s.woken)
  | .exit id => ∃ ret, s.call id = .leaving ret
  | _ => True

def FutexState.step (s : FutexState) : FutexOp → FutexOut
  | .wait id a bitset val timeout pre cur => lxFutexWait s id a bitset val timeout pre cur
  | .leave id why =>
    ⟨none, [], [], { s with call := Function.update s.call id (.leaving why.ret) }⟩
  | .exit id =>
    match s.call id with
    | .leaving ret => lxFutexExit s id ret
    | _ => ⟨none, [], [], s⟩
  | .wake a val bitset => lxFutexWake s a val bitset
  | .requeue a a2 val nreq => lxFutexRequeue s a a2 val nreq none
  | .cmpRequeue a a2 val nreq cmp => lxFutexRequeue s a a2 val nreq (some cmp)
  | .wakeOp a a2 val val2 val3 pre old => lxFutexWakeOp s a a2 val val2 val3 pre old
  | .wakeAddr a n => lxFutexWakeAddr s a n

def FutexState.run (s : FutexState) : List FutexOp → FutexState
  | [] => s
  | op :: ops => (s.step op).state.run ops

def FutexState.Admissible (s : FutexState) : List FutexOp → Prop
  | [] => True
  | op :: ops => s.allows op ∧ (s.step op).state.Admissible ops

/-- Every waiter counted in a run, in order, as often as it is counted. -/
def FutexState.counted (s : FutexState) : List FutexOp → List Nat
  | [] => []
  | op :: ops => (s.step op).woke ++ (s.step op).state.counted ops

def FutexCall.Inside : FutexCall → Prop
  | .waiting => True
  | .leaving _ => True
  | _ => False

/-- The calls that wake or requeue. -/
def FutexOp.wakes : FutexOp → Bool
  | .wake .. | .requeue .. | .cmpRequeue .. | .wakeOp .. | .wakeAddr .. => true
  | _ => false

/-- What a waiter with its flag set still has to do. -/
def FutexState.finish (s : FutexState) (id : Nat) : List FutexOp :=
  match s.call id with
  | .waiting => [.leave id .wokenFlag, .exit id]
  | .leaving _ => [.exit id]
  | _ => []

/-! ### The two walks -/

abbrev ids (q : List FutexWaiter) : List Nat := q.map FutexWaiter.id

theorem wakeWalk_spec (key : FutexKey) (n : Int) (bitset : UInt32) (q : List FutexWaiter) : ∀ woke,
    (wakeWalk key n bitset woke q).1 = woke + (wakeWalk key n bitset woke q).2.1.length ∧
      ((wakeWalk key n bitset woke q).2.1 ++ ids (wakeWalk key n bitset woke q).2.2).Perm (ids q) ∧
      (wakeWalk key n bitset woke q).2.2.Sublist q := by
  induction q with
  | nil => exact fun woke => ⟨rfl, List.Perm.refl _, List.Sublist.refl _⟩
  | cons w q ih =>
    intro woke
    rw [wakeWalk]
    split_ifs with hn hw
    · obtain ⟨hcount, hperm, hsub⟩ := ih (woke + 1)
      refine ⟨?_, hperm.cons w.id, hsub.cons w⟩
      simp only [length_cons]
      omega
    · obtain ⟨hcount, hperm, hsub⟩ := ih woke
      exact ⟨hcount, perm_middle.trans (hperm.cons w.id), hsub.cons_cons w⟩
    · exact ⟨rfl, List.Perm.refl _, List.Sublist.refl _⟩

theorem requeueWalk_spec (key key2 : FutexKey) (nreq : Int) (q : List FutexWaiter) : ∀ moved,
    (requeueWalk key key2 nreq moved q).1 = moved + (requeueWalk key key2 nreq moved q).2.1.length ∧
      ids (requeueWalk key key2 nreq moved q).2.2 = ids q ∧
      (requeueWalk key key2 nreq moved q).2.1.Sublist (ids q) := by
  induction q with
  | nil => exact fun moved => ⟨rfl, rfl, List.Sublist.refl _⟩
  | cons w q ih =>
    intro moved
    rw [requeueWalk]
    split_ifs with hn hw
    · obtain ⟨hcount, hids, hsub⟩ := ih (moved + 1)
      refine ⟨?_, congrArg (w.id :: ·) hids, hsub.cons_cons w.id⟩
      simp only [length_cons]
      omega
    · obtain ⟨hcount, hids, hsub⟩ := ih moved
      exact ⟨hcount, congrArg (w.id :: ·) hids, hsub.cons w.id⟩
    · exact ⟨rfl, rfl, nil_sublist _⟩

/-- A waiter on the second key, if its call is among those moved. -/
def retarget (moved : List Nat) (key2 : FutexKey) (w : FutexWaiter) : FutexWaiter :=
  if w.id ∈ moved then { w with key := key2, requeued := true } else w

theorem map_retarget_nil (key2 : FutexKey) (q : List FutexWaiter) :
    q.map (retarget [] key2) = q := by
  have hid : retarget [] key2 = id := by funext v; simp [retarget]
  rw [hid, map_id]

theorem requeueWalk_eq (key key2 : FutexKey) (nreq : Int) (q : List FutexWaiter) :
    ∀ moved, (ids q).Nodup → (requeueWalk key key2 nreq moved q).2.2
      = q.map (retarget (requeueWalk key key2 nreq moved q).2.1 key2) := by
  induction q with
  | nil => intro moved hq; rfl
  | cons w q ih =>
    intro moved hq
    obtain ⟨hw, hq'⟩ := nodup_cons.mp hq
    -- the head is in no list of moved calls that comes from the tail
    have hout : ∀ m, w.id ∉ (requeueWalk key key2 nreq m q).2.1 := fun m hm =>
      hw ((requeueWalk_spec key key2 nreq q m).2.2.subset hm)
    have hcons : ∀ l : List Nat, q.map (retarget (w.id :: l) key2) = q.map (retarget l key2) := by
      intro l
      refine map_congr_left fun v hv => ?_
      have hne : v.id ≠ w.id := fun he => hw (he ▸ mem_map_of_mem hv)
      simp [retarget, hne]
    rw [requeueWalk]
    split_ifs with hn hk
    · simp only [map_cons]
      rw [hcons, ← ih (moved + 1) hq']
      simp [retarget]
    · simp only [map_cons]
      rw [← ih moved hq']
      simp [retarget, hout]
    · exact (map_retarget_nil key2 _).symm

/-! ### What a wake does to the state -/

/-- The calls `l` were taken off the queue and flagged, and nothing else happened to any. -/
structure FutexState.Wakes (s : FutexState) (l : List Nat) (s' : FutexState) : Prop where
  perm : (l ++ ids s'.queue).Perm (ids s.queue)
  woken : s'.woken = s.woken ++ l
  call : s'.call = s.call

theorem FutexState.Wakes.refl (s : FutexState) : s.Wakes [] s :=
  ⟨List.Perm.refl _, (append_nil _).symm, rfl⟩

theorem FutexState.Wakes.trans {s s' s'' : FutexState} {l l' : List Nat} (h : s.Wakes l s')
    (h' : s'.Wakes l' s'') : s.Wakes (l ++ l') s'' where
  perm := by
    rw [append_assoc]
    exact (h'.perm.append_left l).trans h.perm
  woken := by rw [h'.woken, h.woken, append_assoc]
  call := h'.call.trans h.call

/-- The calls woken are taken off the queue and counted, and the rest keep their order. -/
theorem lxFutexWakeLocked_spec (s : FutexState) (key : FutexKey) (n : Int) (bitset : UInt32) :
    s.Wakes (lxFutexWakeLocked s key n bitset).2.1 (lxFutexWakeLocked s key n bitset).2.2 ∧
      (lxFutexWakeLocked s key n bitset).2.2.queue.Sublist s.queue ∧
      (lxFutexWakeLocked s key n bitset).1 = (lxFutexWakeLocked s key n bitset).2.1.length := by
  obtain ⟨hcount, hperm, hsub⟩ := wakeWalk_spec key n bitset s.queue 0
  rw [Nat.zero_add] at hcount
  exact ⟨⟨hperm, rfl, rfl⟩, hsub, hcount⟩

/-- What a wake or requeue call does: the value it returns, for `extra` counted besides
the waiters woken, and the queue it leaves, with those it moved on `key2`. -/
structure FutexOut.Counts (s : FutexState) (out : FutexOut) (extra : Nat) (key2 : FutexKey) :
    Prop where
  wakes : s.Wakes out.woke out.state
  ret : ∀ n, out.ret = some (.ok n) → n = out.woke.length + extra
  requeued : ∃ rest, rest.Sublist s.queue ∧ out.requeued.Sublist (ids rest) ∧
    out.state.queue = rest.map (retarget out.requeued key2)

theorem counts_fail (s : FutexState) (e : FutexErrno) (key2 : FutexKey) :
    (s.fail e).Counts s 0 key2 where
  wakes := .refl s
  ret := fun n h => by cases h
  requeued := ⟨s.queue, List.Sublist.refl _, nil_sublist _, (map_retarget_nil _ _).symm⟩

theorem counts_wake {s s' : FutexState} {l : List Nat} {ret : Option (Except FutexErrno Nat)}
    {key2 : FutexKey} (hw : s.Wakes l s') (hq : s'.queue.Sublist s.queue)
    (hret : ∀ n, ret = some (.ok n) → n = l.length) :
    (⟨ret, l, [], s'⟩ : FutexOut).Counts s 0 key2 where
  wakes := hw
  ret := hret
  requeued := ⟨s'.queue, hq, nil_sublist _, (map_retarget_nil _ _).symm⟩

theorem lxFutexWake_counts (s : FutexState) (a : FutexAddr) (val bitset : UInt32)
    (key2 : FutexKey) :
    (lxFutexWake s a val bitset).Counts s 0 key2 := by
  unfold lxFutexWake
  split_ifs with hb
  · exact counts_fail s _ _
  · cases lxFutexKey a with
    | error e => exact counts_fail s e _
    | ok key =>
      obtain ⟨hw, hq, hc⟩ := lxFutexWakeLocked_spec s key (clampInt val) bitset
      refine counts_wake hw hq fun n hn => ?_
      cases hn
      exact hc

theorem lxFutexWakeAddr_counts (s : FutexState) (a : FutexAddr) (n : Int) (key2 : FutexKey) :
    (lxFutexWakeAddr s a n).Counts s 0 key2 := by
  unfold lxFutexWakeAddr
  cases lxFutexKey a with
  | error e =>
    exact counts_wake (.refl s) (List.Sublist.refl _) fun n hn => absurd hn (by simp)
  | ok key =>
    obtain ⟨hw, hq, -⟩ := lxFutexWakeLocked_spec s key n 0xffffffff
    exact counts_wake hw hq fun n hn => absurd hn (by simp)

theorem lxFutexWakeOp_counts (s : FutexState) (a a2 : FutexAddr) (val val2 val3 : UInt32)
    (pre : Bool) (old : Option UInt32) (key2 : FutexKey) :
    (lxFutexWakeOp s a a2 val val2 val3 pre old).Counts s 0 key2 := by
  unfold lxFutexWakeOp
  cases lxFutexKey a with
  | error e => exact counts_fail s e _
  | ok key =>
    cases lxFutexKey a2 with
    | error e => exact counts_fail s e _
    | ok k2 =>
      dsimp only
      split_ifs with hf hp
      · exact counts_fail s _ _
      · exact counts_fail s _ _
      · cases old with
        | none => exact counts_fail s _ _
        | some old =>
          obtain ⟨hw, hq, hc⟩ := lxFutexWakeLocked_spec s key (int32 val) 0xffffffff
          generalize lxFutexWakeLocked s key (int32 val) 0xffffffff = r at hw hq hc
          dsimp only
          split_ifs with hcond
          · obtain ⟨hw', hq', hc'⟩ := lxFutexWakeLocked_spec r.2.2 k2 (int32 val2) 0xffffffff
            refine counts_wake (hw.trans hw') (hq'.trans hq) fun n hn => ?_
            rw [length_append, ← hc', ← hc]
            cases hn
            rfl
          · refine counts_wake hw hq fun n hn => ?_
            cases hn
            exact hc

theorem requeueLocked_counts (s : FutexState) (hs : (ids s.queue).Nodup) (key key2 : FutexKey)
    (val : UInt32) (nreq : Int) (cmp : Bool) :
    (requeueLocked s key key2 val nreq cmp).Counts s
      (if cmp then (requeueLocked s key key2 val nreq cmp).requeued.length else 0) key2 := by
  unfold requeueLocked
  obtain ⟨hw, hq, hc⟩ := lxFutexWakeLocked_spec s key (int32 val) 0xffffffff
  generalize lxFutexWakeLocked s key (int32 val) 0xffffffff = r at hw hq hc
  obtain ⟨hm, hids, hsub⟩ := requeueWalk_spec key key2 nreq r.2.2.queue 0
  rw [Nat.zero_add] at hm
  exact
    { wakes := ⟨by show (r.2.1 ++ ids (requeueWalk key key2 nreq 0 r.2.2.queue).2.2).Perm _
                   rw [hids]
                   exact hw.perm, hw.woken, hw.call⟩
      ret := by
        intro n hn
        cases cmp <;> cases hn
        · exact hc
        · exact congrArg₂ (· + ·) hc hm
      requeued := ⟨r.2.2.queue, hq, hsub, requeueWalk_eq key key2 nreq _ 0 (hs.sublist (hq.map _))⟩ }

/-- What a requeue call counts besides the waiters it woke. -/
def FutexOp.extra : FutexOp → FutexOut → Nat
  | .cmpRequeue .., out => out.requeued.length
  | _, _ => 0

def keyOf (a : FutexAddr) : FutexKey :=
  match lxFutexKey a with
  | .error _ => ⟨0, 0⟩
  | .ok key => key

/-- The key a requeue call moves waiters to. -/
def FutexOp.target : FutexOp → FutexKey
  | .requeue _ a2 .. => keyOf a2
  | .cmpRequeue _ a2 .. => keyOf a2
  | _ => ⟨0, 0⟩

theorem lxFutexRequeue_counts (s : FutexState) (hs : (ids s.queue).Nodup) (a a2 : FutexAddr)
    (val nreq : UInt32) (cmp : Option FutexCmp) :
    (lxFutexRequeue s a a2 val nreq cmp).Counts s
      (if cmp.isSome then (lxFutexRequeue s a a2 val nreq cmp).requeued.length else 0)
      (keyOf a2) := by
  have hfail : ∀ e key2,
      (s.fail e).Counts s (if cmp.isSome then (s.fail e).requeued.length else 0) key2 := by
    intro e key2
    have h0 : (if cmp.isSome then (s.fail e).requeued.length else 0) = 0 := ite_self 0
    rw [h0]
    exact counts_fail s e key2
  unfold lxFutexRequeue keyOf
  cases lxFutexKey a with
  | error e => exact hfail e _
  | ok key =>
    cases lxFutexKey a2 with
    | error e => exact hfail e _
    | ok key2 =>
      by_cases hv : int32 val < 0 ∨ clampInt nreq < 0
      · simp only [if_pos hv]
        exact hfail _ _
      · simp only [if_neg hv]
        match cmp with
        | none => exact requeueLocked_counts s hs key key2 val _ false
        | some ⟨_, none, _⟩ => exact hfail _ _
        | some ⟨_, some _, none⟩ => exact hfail _ _
        | some ⟨val3, some _, some cur⟩ =>
          by_cases hcur : cur ≠ val3
          · simp only [if_pos hcur]
            exact hfail _ _
          · simp only [if_neg hcur]
            exact requeueLocked_counts s hs key key2 val _ true

theorem FutexState.step_counts (s : FutexState) (hs : (ids s.queue).Nodup) (op : FutexOp)
    (hop : op.wakes = true) : (s.step op).Counts s (op.extra (s.step op)) op.target := by
  cases op with
  | wait | leave | exit => cases hop
  | wake a val bitset => exact lxFutexWake_counts s a val bitset _
  | requeue a a2 val nreq => exact lxFutexRequeue_counts s hs a a2 val nreq none
  | cmpRequeue a a2 val nreq cmp => exact lxFutexRequeue_counts s hs a a2 val nreq (some cmp)
  | wakeOp a a2 val val2 val3 pre old => exact lxFutexWakeOp_counts s a a2 val val2 val3 pre old _
  | wakeAddr a n => exact lxFutexWakeAddr_counts s a n _

/-! ### The invariant -/

/-- The queue holds each waiting call at most once, and a call whose flag is set is off
the queue and has yet to return, or has returned 0. -/
structure FutexState.Inv (s : FutexState) : Prop where
  queue_nodup : (ids s.queue).Nodup
  queue_inside : ∀ i ∈ ids s.queue, (s.call i).Inside
  woken_nodup : s.woken.Nodup
  woken_off : ∀ i ∈ s.woken, i ∉ ids s.queue
  woken_call : ∀ i ∈ s.woken, (s.call i).Inside ∨ s.call i = .returned (.ok 0)

theorem FutexState.inv_start : FutexState.start.Inv where
  queue_nodup := nodup_nil
  queue_inside := fun _ h => absurd h not_mem_nil
  woken_nodup := nodup_nil
  woken_off := fun _ h => absurd h not_mem_nil
  woken_call := fun _ h => absurd h not_mem_nil

theorem FutexState.Inv.wakes {s s' : FutexState} {l : List Nat} (h : s.Inv) (hw : s.Wakes l s') :
    s'.Inv := by
  have hnd : (l ++ ids s'.queue).Nodup := hw.perm.nodup_iff.mpr h.queue_nodup
  obtain ⟨hl, hq, hlq⟩ := nodup_append.mp hnd
  have hlmem : ∀ i ∈ l, i ∈ ids s.queue := fun i hi =>
    hw.perm.subset (mem_append_left _ hi)
  have hqmem : ∀ i ∈ ids s'.queue, i ∈ ids s.queue := fun i hi =>
    hw.perm.subset (mem_append_right _ hi)
  refine ⟨hq, ?_, ?_, ?_, ?_⟩
  · intro i hi
    rw [hw.call]
    exact h.queue_inside i (hqmem i hi)
  · rw [hw.woken]
    refine nodup_append.mpr ⟨h.woken_nodup, hl, fun i hi j hj hij => ?_⟩
    exact h.woken_off i hi (hij ▸ hlmem j hj)
  · intro i hi hiq
    rw [hw.woken] at hi
    rcases mem_append.mp hi with hi | hi
    · exact h.woken_off i hi (hqmem i hiq)
    · exact hlq i hi i hiq rfl
  · intro i hi
    rw [hw.woken] at hi
    rw [hw.call]
    rcases mem_append.mp hi with hi | hi
    · exact h.woken_call i hi
    · exact .inl (h.queue_inside i (hlmem i hi))

variable {s : FutexState}

/-- A call that is neither queued nor flagged may go anywhere. -/
theorem FutexState.Inv.update (h : s.Inv) {id : Nat} {c : FutexCall}
    (hq : id ∈ ids s.queue → c.Inside)
    (hw : id ∈ s.woken → c.Inside ∨ c = .returned (.ok 0)) :
    ({ s with call := Function.update s.call id c } : FutexState).Inv := by
  refine ⟨h.queue_nodup, ?_, h.woken_nodup, h.woken_off, ?_⟩
  · intro i hi
    by_cases hid : i = id
    · subst hid
      simpa using hq hi
    · simpa [Function.update_of_ne hid] using h.queue_inside i hi
  · intro i hi
    by_cases hid : i = id
    · subst hid
      simpa using hw hi
    · simpa [Function.update_of_ne hid] using h.woken_call i hi

theorem FutexState.Inv.outside (h : s.Inv) {id : Nat}
    (hid : s.call id = .outside) : id ∉ ids s.queue ∧ id ∉ s.woken := by
  refine ⟨fun hq => ?_, fun hw => ?_⟩
  · have hin := h.queue_inside id hq
    rw [hid] at hin
    exact hin
  · rcases h.woken_call id hw with hin | hret
    · rw [hid] at hin
      exact hin
    · rw [hid] at hret
      cases hret

/-- A step keeps the invariant, and the flags it sets are those of the waiters it counts. -/
def FutexState.Keeps (s : FutexState) (out : FutexOut) : Prop :=
  out.state.Inv ∧ out.state.woken = s.woken ++ out.woke

theorem FutexState.Inv.refuse (h : s.Inv) {id : Nat}
    (hid : s.call id = .outside) (e : FutexErrno) : s.Keeps (s.refuse id e) :=
  ⟨h.update (fun hq => absurd hq (h.outside hid).1) (fun hw => absurd hw (h.outside hid).2),
    (append_nil _).symm⟩

theorem FutexState.Inv.enqueue (h : s.Inv) {w : FutexWaiter}
    (hid : s.call w.id = .outside) :
    ({ s with queue := w :: s.queue, call := Function.update s.call w.id .waiting } :
      FutexState).Inv := by
  have h' := h.update (c := .waiting) (fun hq => absurd hq (h.outside hid).1)
    (fun hw => absurd hw (h.outside hid).2)
  refine ⟨nodup_cons.mpr ⟨(h.outside hid).1, h.queue_nodup⟩, ?_, h'.woken_nodup, ?_,
    h'.woken_call⟩
  · intro i hi
    rcases mem_cons.mp hi with rfl | hi
    · show (Function.update s.call w.id .waiting w.id).Inside
      rw [Function.update_self]
      trivial
    · exact h'.queue_inside i hi
  · intro i hi hiq
    rcases mem_cons.mp hiq with rfl | hiq
    · exact (h.outside hid).2 hi
    · exact h.woken_off i hi hiq

theorem FutexState.Inv.wait (h : s.Inv) {id : Nat} (hid : s.call id = .outside)
    (a : FutexAddr) (bitset val : UInt32) (timeout : Option FutexErrno)
    (pre cur : Option UInt32) : s.Keeps (lxFutexWait s id a bitset val timeout pre cur) := by
  unfold lxFutexWait
  by_cases hb : bitset = 0
  · rw [if_pos hb]
    exact h.refuse hid _
  · rw [if_neg hb]
    match lxFutexKey a, timeout, pre, cur with
    | .error e, _, _, _ => exact h.refuse hid e
    | .ok _, some e, _, _ => exact h.refuse hid e
    | .ok _, none, none, _ => exact h.refuse hid _
    | .ok _, none, some _, none => exact h.refuse hid _
    | .ok key, none, some _, some cur =>
      dsimp only
      split_ifs
      · exact h.refuse hid _
      · exact ⟨h.enqueue (w := ⟨id, key, bitset, false⟩) hid, (append_nil _).symm⟩

theorem ids_unlink (id : Nat) (q : List FutexWaiter) :
    ids (lxFutexUnlink id q) = (ids q).erase id := by
  induction q with
  | nil => rfl
  | cons w q ih =>
    rw [lxFutexUnlink]
    split_ifs with hw
    · rw [← hw]
      exact (erase_cons_head ..).symm
    · refine (congrArg (w.id :: ·) ih).trans (erase_cons_tail ?_).symm
      simpa using hw

theorem FutexState.Inv.exit (h : s.Inv) (id : Nat) (ret : Except FutexErrno Nat) :
    s.Keeps (lxFutexExit s id ret) := by
  unfold lxFutexExit
  split_ifs with hw
  · exact ⟨h.update (fun hq => absurd hq (h.woken_off id hw)) (fun _ => .inr rfl), (append_nil _).symm⟩
  · have hsub : ∀ i, i ∈ ids (lxFutexUnlink id s.queue) → i ≠ id ∧ i ∈ ids s.queue := by
      intro i hi
      rw [ids_unlink] at hi
      exact (h.queue_nodup.mem_erase_iff).mp hi
    have hs : ({ s with queue := lxFutexUnlink id s.queue } : FutexState).Inv :=
      { queue_nodup := by
          rw [ids_unlink]
          exact h.queue_nodup.erase id
        queue_inside := fun i hi => h.queue_inside i (hsub i hi).2
        woken_nodup := h.woken_nodup
        woken_off := fun i hi hiq => h.woken_off i hi (hsub i hiq).2
        woken_call := h.woken_call }
    exact ⟨hs.update (fun hq => absurd rfl (hsub id hq).1) (fun hw' => absurd hw' hw),
      (append_nil _).symm⟩

theorem FutexState.Inv.step (h : s.Inv) {op : FutexOp} (hop : s.allows op) : s.Keeps (s.step op) := by
  by_cases hwakes : op.wakes = true
  · have hw := (s.step_counts h.queue_nodup op hwakes).wakes
    exact ⟨h.wakes hw, hw.woken⟩
  · cases op with
    | wait id a bitset val timeout pre cur => exact h.wait hop a bitset val timeout pre cur
    | leave id why =>
      exact ⟨h.update (fun _ => trivial) (fun _ => .inl trivial), (append_nil _).symm⟩
    | exit id =>
      obtain ⟨ret, hret⟩ := hop
      simp only [FutexState.step, hret]
      exact h.exit id ret
    | wake | requeue | cmpRequeue | wakeOp | wakeAddr => exact absurd rfl hwakes

theorem FutexState.Inv.run (ops : List FutexOp) : ∀ {s : FutexState}, s.Inv → s.Admissible ops →
    (s.run ops).Inv ∧ (s.run ops).woken = s.woken ++ s.counted ops := by
  induction ops with
  | nil => intro s h _; exact ⟨h, (append_nil _).symm⟩
  | cons op ops ih =>
    intro s h hops
    obtain ⟨hstep, hflags⟩ := h.step hops.1
    obtain ⟨hinv, hwoken⟩ := ih hstep hops.2
    refine ⟨hinv, hwoken.trans ?_⟩
    rw [hflags, append_assoc]
    rfl

theorem FutexState.Inv.finish {s : FutexState} (h : s.Inv) {i : Nat} (hi : i ∈ s.woken) :
    s.Admissible (s.finish i) ∧ (s.run (s.finish i)).call i = .returned (.ok 0) := by
  rcases h.woken_call i hi with hin | hret
  · cases hc : s.call i with
    | outside | returned => rw [hc] at hin; exact hin.elim
    | leaving r =>
      have hfin : s.finish i = [.exit i] := by simp [FutexState.finish, hc]
      rw [hfin]
      refine ⟨⟨⟨r, hc⟩, trivial⟩, ?_⟩
      simp [FutexState.run, FutexState.step, hc, lxFutexExit, hi]
    | waiting =>
      have hfin : s.finish i = [.leave i .wokenFlag, .exit i] := by simp [FutexState.finish, hc]
      rw [hfin]
      refine ⟨⟨⟨hc, fun _ => hi⟩, ⟨_, Function.update_self ..⟩, trivial⟩, ?_⟩
      simp [FutexState.run, FutexState.step, lxFutexExit, hi]
  · have hfin : s.finish i = [] := by simp [FutexState.finish, hret]
    rw [hfin]
    exact ⟨trivial, hret⟩

/-- **After every run**: only calls still inside are queued, each once; every waiter is
counted at most once; a counted waiter returns nothing but 0, and its own next steps
return it; and whatever wake or requeue comes next counts the waiters it takes off the
queue, `CMP_REQUEUE` with those it moves, loses none of the others, and moves a waiter
only to the second key. -/
theorem futex_wakes_counted (ops : List FutexOp) (hops : FutexState.start.Admissible ops) :
    let s := FutexState.start.run ops
    let counted := FutexState.start.counted ops
    (∀ w ∈ s.queue, (s.call w.id).Inside) ∧ (ids s.queue).Nodup ∧ counted.Nodup ∧
      (∀ i ∈ counted, (∀ ret, s.call i = .returned ret → ret = .ok 0) ∧
        s.Admissible (s.finish i) ∧ (s.run (s.finish i)).call i = .returned (.ok 0)) ∧
      ∀ op, op.wakes = true →
        (∀ n, (s.step op).ret = some (.ok n) →
          n = (s.step op).woke.length + op.extra (s.step op)) ∧
        ((s.step op).woke ++ ids (s.step op).state.queue).Perm (ids s.queue) ∧
        ∃ rest, rest.Sublist s.queue ∧ (s.step op).requeued.Sublist (ids rest) ∧
          (s.step op).state.queue = rest.map (retarget (s.step op).requeued op.target) := by
  obtain ⟨h, hwoken⟩ := FutexState.inv_start.run ops hops
  have hwoken : (FutexState.start.run ops).woken = FutexState.start.counted ops := hwoken
  refine ⟨fun w hw => h.queue_inside w.id (mem_map_of_mem hw), h.queue_nodup,
    hwoken ▸ h.woken_nodup, fun i hi => ?_, fun op hop => ?_⟩
  · rw [← hwoken] at hi
    refine ⟨fun ret hret => ?_, h.finish hi⟩
    rcases h.woken_call i hi with hin | hret'
    · rw [hret] at hin
      exact hin.elim
    · rw [hret] at hret'
      injection hret'
  · have hc := (FutexState.start.run ops).step_counts h.queue_nodup op hop
    exact ⟨hc.ret, hc.wakes.perm, hc.requeued⟩

/-- A private futex word at an address, without a page table word. -/
def privateWord (uaddr : UInt64) : FutexAddr := ⟨0x1000, none, uaddr, true⟩

/-- A waiter times out, is woken before it gets the lock back, and then returns. -/
def wakeRacesTimeout : List FutexOp :=
  [.wait 0 (privateWord 0x4000) 0xffffffff 7 none (some 7) (some 7), .leave 0 .timeout,
    .wake (privateWord 0x4000) 1 0xffffffff, .exit 0]

theorem futex_wakes_counted_race :
    FutexState.start.Admissible wakeRacesTimeout ∧
      FutexState.start.counted wakeRacesTimeout = [0] ∧
      (FutexState.start.counted wakeRacesTimeout).Nodup ∧
      ∀ ret, (FutexState.start.run wakeRacesTimeout).call 0 = .returned ret → ret = .ok 0 := by
  have hops : FutexState.start.Admissible wakeRacesTimeout :=
    ⟨rfl, ⟨rfl, fun h => by cases h⟩, trivial, ⟨_, rfl⟩, trivial⟩
  have hcounted : FutexState.start.counted wakeRacesTimeout = [0] := by decide
  obtain ⟨_, _, hnd, hret, _⟩ := futex_wakes_counted wakeRacesTimeout hops
  exact ⟨hops, hcounted, hnd, (hret 0 (by rw [hcounted]; exact mem_singleton.mpr rfl)).1⟩

/-- `FUTEX_REQUEUE` moves the one waiter there is and returns 0, where
`FUTEX_CMP_REQUEUE` returns 1. -/
theorem requeue_returns_woken :
    let a := privateWord 0x4000
    let b := privateWord 0x5000
    let wait : FutexOp := .wait 0 a 0xffffffff 7 none (some 7) (some 7)
    let s := FutexState.start.run [wait]
    FutexState.start.Admissible [wait] ∧
      (s.step (.requeue a b 0 1)).ret = some (.ok 0) ∧
      (s.step (.requeue a b 0 1)).woke = [] ∧ (s.step (.requeue a b 0 1)).requeued = [0] ∧
      (s.step (.cmpRequeue a b 0 1 ⟨7, some 7, some 7⟩)).ret = some (.ok 1) := by
  exact ⟨⟨rfl, trivial⟩, rfl, rfl, rfl, rfl⟩

end InDevOS.Ipc
