import InDevOS.Sched.Running

/-! Sleeping in a poll until an event happens (`kpoll.h`, `kpoll_wake` and `kpoll_sleep_ms`
in `thread.c`).

A poller takes a snapshot of the event sequence, looks whether anything is ready and sleeps
only if the sequence is still the same; the test is made under the scheduler lock, and the
poller is counted before. A wake-up moves the sequence, looks at the count and, if anybody
is counted, takes the lock and makes ready whoever sleeps in a poll. Between these steps
everything else the scheduler does may happen.

`no_wakeup_lost`: when a wake-up issued after a poller's snapshot is over, the poller is not
asleep. The sequence has 32 bits, and this needs that it does not come round between the
snapshot and the test (`wakeup_lost`). -/
namespace InDevOS.Sched
open Lib Function

namespace Scheduler
variable {n : Nat} {s s' s'' : Scheduler n} {L L' : Queue → List (Fin n)} {t : Fin n}

/-! ### A thread that sleeps in a poll, while the scheduler steps -/

/-- The thread sleeps where `kpoll_wake` finds it. -/
def Dozes (s : Scheduler n) (t : Fin n) : Prop := s.Polls t ∧ s.member .sleeping t = true

/-- If the thread is asleep now, it was before, and `kpoll_wake` finds it. -/
def Rests (s : Scheduler n) (t : Fin n) (s' : Scheduler n) : Prop :=
  (s'.threads t).state = .sleeping → (s.threads t).state = .sleeping ∧ s'.Dozes t

theorem Rests.trans (h : Rests s t s') (h' : Rests s' t s'') : Rests s t s'' := by
  intro hst
  obtain ⟨hst', hd⟩ := h' hst
  exact ⟨(h hst').1, hd⟩

section
variable (hd : (s.threads t).state = .sleeping → s.Dozes t)
include hd

theorem Rests.refl : Rests s t s := fun hst => ⟨hst, hd hst⟩

/-- A section that moves one thread, awake afterwards if it is this one. -/
theorem Rests.of_moves (hs : Linked s L) {x : Fin n} {dest : Option Queue}
    (h : Moves s L x dest s' L') (hx : t = x → (s'.threads t).state ≠ .sleeping) : Rests s t s' := by
  intro hst
  have hne : t ≠ x := fun heq => hx heq hst
  rw [h.threads t hne] at hst
  obtain ⟨hp, hmem⟩ := hd hst
  refine ⟨hst, ?_, ?_⟩
  · unfold Polls at hp ⊢
    rwa [h.threads t hne]
  · rw [hs.member_iff] at hmem
    rw [h.linked.member_iff]
    exact (h.elsewhere t hne _).2 hmem

theorem Rests.of_queues (hq : s'.queues = s.queues)
    (hst : (s'.threads t).state = .sleeping → (s.threads t).state = .sleeping ∧
      (s'.threads t).kpollWaiting = (s.threads t).kpollWaiting) : Rests s t s' := by
  intro hst'
  obtain ⟨hst₀, hk⟩ := hst hst'
  obtain ⟨hp, hmem⟩ := hd hst₀
  refine ⟨hst₀, ⟨hk.trans hp.1, hst'⟩, ?_⟩
  unfold member at hmem ⊢
  rwa [hq]

theorem Rests.setThread (x : Fin n) {f : Thread → Thread}
    (hf : t = x → (f (s.threads t)).state = .sleeping → (s.threads t).state = .sleeping ∧
      (f (s.threads t)).kpollWaiting = (s.threads t).kpollWaiting) :
    Rests s t (s.setThread x f) := by
  refine .of_queues hd rfl fun hst => ?_
  rcases eq_or_ne t x with rfl | hx
  · rw [setThread_self] at hst ⊢
    exact hf rfl hst
  · rw [setThread_of_ne s f hx] at hst ⊢
    exact ⟨hst, rfl⟩

theorem Rests.take (hs : Linked s L) {me : Cpu} {r : Option (Fin n) × Scheduler n}
    (hr : Chosen s L r) : Rests s t (s.take me r) := by
  unfold Scheduler.take
  split
  · exact .refl hd
  have hmoved : Rests s t r.2 := by
    obtain rfl | ⟨x, c, p, -, hin, -, hstate, hm⟩ := hr
    · exact .refl hd
    refine .of_moves hd hs hm ?_
    rintro rfl hst
    -- A thread asleep is not in a ready queue.
    rw [hstate] at hst
    cases hs.unique hin ((hs.member_iff _).1 (hd hst).2)
  exact hmoved.trans (.of_queues (fun hst => (hmoved hst).2) rfl fun hst => ⟨hst, rfl⟩)

theorem Rests.kpollWake (hs : Sound s L) : Rests s t s.kpollWake := by
  intro hst
  unfold Scheduler.kpollWake at hst
  rw [hs.holds.head_eq] at hst
  obtain ⟨L', -, -, hready, hsame⟩ := hs.kpollWakeLoop n (List.nil_append _).symm (hs.length_le _)
  by_cases hp : t ∈ L .sleeping ∧ s.Polls t
  · simp [(hready t hp.1 hp.2).1] at hst
  · rw [(hsame t hp).1] at hst
    obtain ⟨hp', hmem⟩ := hd hst
    exact absurd ⟨(hs.member_iff _).1 hmem, hp'⟩ hp

omit hd in
theorem Rests.wakeExpired (now fuel : Nat) (hs : Sound s L)
    (hd : (s.threads t).state = .sleeping → s.Dozes t) : Rests s t (wakeExpired now fuel s) := by
  induction fuel generalizing s L with
  | zero => exact .refl hd
  | succ fuel ih =>
    unfold Scheduler.wakeExpired
    cases hhead : s.queues.head .sleeping with
    | none => exact .refl hd
    | some x =>
      dsimp only
      split
      · exact .refl hd
      obtain ⟨c, p, L₁, hm, hstate⟩ := (hs.toLinked.popSleeping hhead).addFront
      have hrest := Rests.of_moves hd hs.toLinked hm fun hx => by
        rw [hx, hstate]
        decide
      exact hrest.trans (ih (hs.of_moves hm (by simp)) fun hst => (hrest hst).2)

theorem Rests.switched {c : Cpu} {x : Option (Fin n)} (h : Switched s c x s') : Rests s t s' := by
  refine .of_queues hd h.queues fun hst => ?_
  by_cases hx : x = some t
  · obtain ⟨b, hb, -⟩ := h.incoming t hx
    simp [hb] at hst
  · obtain ⟨b, hb, -⟩ := h.others t hx
    rw [hb] at hst ⊢
    exact ⟨hst, rfl⟩

end

/-- What a thread in its poll does not do, and what is not done to it. -/
def Disturbs (s : Scheduler n) (t : Fin n) : Event n → Prop
  | .remove x => x = t
  | .sleep c _ _ _ | .block c | .terminate c | .kpollDone c => s.currentThread c = some t
  | _ => False

theorem Rests.step (hs : Sound s L) (hd : (s.threads t).state = .sleeping → s.Dozes t) {e : Event n}
    (hadd : s.addedOnce e) (he : ¬s.Disturbs t e) : Rests s t (s.step e) := by
  have hl := hs.toLinked
  have hact := hs.acts hadd
  generalize s.step e = s' at hact ⊢
  cases hact with
  | same => exact .refl hd
  | ready hm hwaits =>
    refine .of_moves hd hl hm ?_
    rintro rfl hst
    unfold waits at hwaits
    simp [hst] at hwaits
  | again hin hm hstate =>
    refine .of_moves hd hl hm ?_
    rintro rfl hst
    rw [hstate] at hst
    -- A thread asleep is not in a ready queue.
    cases hl.unique hin ((hl.member_iff _).1 (hd hst).2)
  | out hm hstate =>
    refine .of_moves hd hl hm ?_
    rintro rfl
    exact hstate.resolve_right fun heq => he (heq ▸ rfl)
  | asleep heq hc hm =>
    subst heq
    exact .of_moves hd hl hm fun hx => absurd (hx ▸ hc) he
  | taken me hr => exact .take hd hl hr
  | expired heq => exact .wakeExpired _ n hs hd
  | polled heq => exact .kpollWake hd hs
  | @touched x _ ht hl' hsleep hstate hpoll =>
    have hmem : ∀ {y}, s.member .sleeping y = true → s'.member .sleeping y = true := fun h =>
      (hl'.member_iff _).2 ((hl.member_iff _).1 h)
    intro hst
    rcases eq_or_ne t x with rfl | hx
    · have hst₀ : (s.threads t).state = .sleeping := by
        refine (hstate.resolve_right fun hw => ?_).symm.trans hst
        unfold waits at hw
        simp [hst] at hw
      have hsame := hpoll.resolve_right fun ⟨c, heq, hc⟩ => he (heq ▸ hc)
      exact ⟨hst₀, ⟨hsame.trans (hd hst₀).1.1, hst⟩, hmem (hd hst₀).2⟩
    · rw [ht.threads t hx] at hst
      refine ⟨hst, ?_, hmem (hd hst).2⟩
      unfold Polls
      rw [ht.threads t hx]
      exact (hd hst).1
  | switched h => exact .switched hd h
  | flushed c =>
    refine .of_queues hd (clearOnCpu_eq s _).1 fun hst => ?_
    obtain ⟨b, hb, -⟩ := clearOnCpu_threads s (s.oncpuPending c) t
    change ((s.clearOnCpu (s.oncpuPending c)).threads t).state = _ at hst
    show _ ∧ ((s.clearOnCpu (s.oncpuPending c)).threads t).kpollWaiting = _
    rw [hb] at hst ⊢
    exact ⟨hst, rfl⟩
  | online c => exact .of_queues hd rfl fun hst => ⟨hst, rfl⟩

instance (s : Scheduler n) (t : Fin n) (e : Event n) : Decidable (s.Disturbs t e) :=
  match e with
  | .remove x => inferInstanceAs (Decidable (x = t))
  | .sleep c _ _ _ | .block c | .terminate c | .kpollDone c =>
    inferInstanceAs (Decidable (s.currentThread c = some t))
  | .add _ | .getNext _ | .getNextKernel _ | .pickUser _ | .pickPreempt _ | .wakeExpired _
  | .wake _ | .wakeBlocked _ | .kpollWake | .unblock _ | .kwaitEnd _ | .setPriority _ _
  | .switchTo _ _ | .switchIdle _ | .flush _ | .markReady _ | .setHome _ _ | .bringUp _ =>
    inferInstanceAs (Decidable False)

end Scheduler

/-! ### Pollers and wake-ups -/

/-- Where a thread is in its wait for an event. `since` is the number of wake-ups issued
before its snapshot. -/
inductive Poller
  | away
  /-- It has its snapshot and looks whether anything is ready. -/
  | looking (snap : UInt32) (since : Nat)
  /-- In `kpoll_sleep_ms`, counted, on its way to the lock. -/
  | entering (snap : UInt32) (since : Nat)
  /-- It went to sleep, and `thread_yield` has not returned. -/
  | asleep (since : Nat)
  /-- On its way out, still counted. -/
  | leaving
deriving DecidableEq

namespace Poller

/-- Whether `kpoll_nwait` counts the thread. -/
def counted : Poller → Bool
  | .entering _ _ | .asleep _ | .leaving => true
  | .away | .looking _ _ => false

def weight (p : Poller) : Int := if p.counted then 1 else 0

/-- The wake-ups issued since the snapshot that the thread is about to test. -/
def missed (issued : Nat) : Poller → Nat
  | .entering _ since => issued - since
  | .away | .looking _ _ | .asleep _ | .leaving => 0

/-- The snapshot is the sequence as it was after the wake-ups issued before it. -/
def Took (issued : Nat) : Poller → Prop
  | .looking snap since | .entering snap since => snap = UInt32.ofNat since ∧ since ≤ issued
  | .away | .asleep _ | .leaving => True

end Poller

/-- Where a call of `kpoll_wake` is. -/
inductive Place
  | bumped
  /-- It saw somebody counted and is on its way to the lock. -/
  | passed
  | done
deriving DecidableEq

/-- A call of `kpoll_wake`; `ticket` says how many were issued with it. -/
structure Wake where
  ticket : Nat
  place : Place
deriving DecidableEq

structure Kpoll (n : Nat) where
  sched : Scheduler n
  seq : UInt32
  /-- At most `n` threads are counted. -/
  nwait : Int
  pollers : Fin n → Poller
  wakes : Nat → Option Wake
  issued : Nat

namespace Kpoll
variable {n : Nat} {k : Kpoll n} {t : Fin n}

/-- A CPU's step of its current thread, or a step of a call of `kpoll_wake`. -/
inductive Event (n : Nat)
  | sched (e : Scheduler.Event n)
  | snapshot (c : Cpu)
  | enter (c : Cpu)
  | check (c : Cpu) (ticks ms : Nat)
  | resume (c : Cpu)
  | leave (c : Cpu)
  | bump (w : Nat)
  | load (w : Nat)
  | lock (w : Nat)

section
variable (k : Kpoll n)

section
variable (t : Fin n)

def setPoller (p : Poller) : Kpoll n :=
  { k with pollers := Function.update k.pollers t p }

def setWake (w : Nat) (x : Wake) : Kpoll n :=
  { k with wakes := Function.update k.wakes w (some x) }

/-- What else the scheduler may do: no thread is added twice, and a thread that is counted
does nothing but what `kpoll_sleep_ms` does. -/
def Admits (e : Scheduler.Event n) : Prop :=
  k.sched.addedOnce e ∧ ∀ t, (k.pollers t).counted = true → ¬k.sched.Disturbs t e

instance (k : Kpoll n) (e : Scheduler.Event n) : Decidable (k.Admits e) :=
  inferInstanceAs (Decidable (_ ∧ ∀ _, _ → ¬_))

/-- `kpoll_snapshot`; a thread may look again with a new snapshot. -/
def kpollSnapshot : Kpoll n :=
  if (k.pollers t).counted then k else k.setPoller t (.looking k.seq k.issued)

/-- `kpoll_sleep_ms`, up to the lock. -/
def kpollEnter : Kpoll n :=
  match k.pollers t with
  | .looking snap since => { k.setPoller t (.entering snap since) with nwait := k.nwait + 1 }
  | _ => k

/-- The section of `kpoll_sleep_ms`. -/
def kpollCheck (ticks ms : Nat) : Kpoll n :=
  match k.pollers t with
  | .entering snap since =>
    if k.seq ≠ snap then k.setPoller t .leaving
    else
      { k.setPoller t (.asleep since) with
        sched := k.sched.sleep t ((ticks + if ms = 0 then 1 else ms) % 2 ^ 64) true }
  | _ => k

/-- The return of `thread_yield`, which waits for the thread to be woken. -/
def kpollResume : Kpoll n :=
  match k.pollers t with
  | .asleep _ =>
    if (k.sched.threads t).state = .sleeping then k
    else
      { k.setPoller t .leaving with
        sched := k.sched.setThread t fun x => { x with kpollWaiting := false } }
  | _ => k

/-- The end of `kpoll_sleep_ms`. -/
def kpollLeave : Kpoll n :=
  match k.pollers t with
  | .leaving => { k.setPoller t .away with nwait := k.nwait - 1 }
  | _ => k

/-- `kpoll_wake`: the sequence moves. -/
def kpollBump (w : Nat) : Kpoll n :=
  match k.wakes w with
  | none => { k.setWake w ⟨k.issued + 1, .bumped⟩ with seq := k.seq + 1, issued := k.issued + 1 }
  | some _ => k

/-- `kpoll_wake`: the look at the count. -/
def kpollLoad (w : Nat) : Kpoll n :=
  match k.wakes w with
  | some ⟨ticket, .bumped⟩ => k.setWake w ⟨ticket, if k.nwait ≤ 0 then .done else .passed⟩
  | _ => k

/-- `kpoll_wake`: the section. -/
def kpollLock (w : Nat) : Kpoll n :=
  match k.wakes w with
  | some ⟨ticket, .passed⟩ => { k.setWake w ⟨ticket, .done⟩ with sched := k.sched.kpollWake }
  | _ => k

/-- A step of the current thread of a CPU. -/
def onCurrent (c : Cpu) (f : Kpoll n → Fin n → Kpoll n) : Kpoll n :=
  match k.sched.currentThread c with
  | none => k
  | some t => f k t

def step : Event n → Kpoll n
  | .sched e => if k.Admits e then { k with sched := k.sched.step e } else k
  | .snapshot c => k.onCurrent c kpollSnapshot
  | .enter c => k.onCurrent c kpollEnter
  | .check c ticks ms => k.onCurrent c fun k t => k.kpollCheck t ticks ms
  | .resume c => k.onCurrent c kpollResume
  | .leave c => k.onCurrent c kpollLeave
  | .bump w => k.kpollBump w
  | .load w => k.kpollLoad w
  | .lock w => k.kpollLock w

def run (es : List (Event n)) : Kpoll n := es.foldl step k

/-- Nobody polls, and nothing happened. -/
structure Start (k : Kpoll n) : Prop where
  boot : k.sched.Boot
  seq : k.seq = 0
  nwait : k.nwait = 0
  pollers : ∀ t, k.pollers t = .away
  wakes : ∀ w, k.wakes w = none
  issued : k.issued = 0

/-- The sequence does not come round before the test. -/
def fewWakes : Event n → Prop
  | .check c _ _ => ∀ t ∈ k.sched.currentThread c, (k.pollers t).missed k.issued < 2 ^ 32
  | _ => True

/-! ### The invariant -/

/-- A poller asleep is where `kpoll_wake` finds it, and no wake-up issued since its snapshot
is over. -/
structure Inv (k : Kpoll n) : Prop where
  sound : ∃ L, k.sched.Sound L
  seq : k.seq = UInt32.ofNat k.issued
  nwait : k.nwait = ∑ t, (k.pollers t).weight
  took : ∀ t, (k.pollers t).Took k.issued
  ticket : ∀ w x, k.wakes w = some x → x.ticket ≤ k.issued
  dozes : ∀ t since, k.pollers t = .asleep since → (k.sched.threads t).state = .sleeping →
    k.sched.Dozes t
  pending : ∀ t since, k.pollers t = .asleep since → (k.sched.threads t).state = .sleeping →
    ∀ w x, k.wakes w = some x → since < x.ticket → x.place ≠ .done

theorem Start.inv (hk : k.Start) : Inv k where
  sound := ⟨_, hk.boot.sound⟩
  seq := by rw [hk.seq, hk.issued]; rfl
  nwait := by simp [hk.nwait, hk.pollers, Poller.weight, Poller.counted]
  took t := by rw [hk.pollers t]; trivial
  ticket w x h := by rw [hk.wakes w] at h; cases h
  dozes t since h := by rw [hk.pollers t] at h; cases h
  pending t since h := by rw [hk.pollers t] at h; cases h

theorem sum_weight (p : Poller) :
    ∑ x, (update k.pollers t p x).weight + (k.pollers t).weight = ∑ x, (k.pollers x).weight + p.weight := by
  have hfun : (fun x => (update k.pollers t p x).weight) =
      update (fun x => (k.pollers x).weight) t p.weight := by
    funext x
    simp only [update_apply, apply_ite Poller.weight]
  rw [hfun, Finset.sum_update_of_mem (Finset.mem_univ t),
    ← Finset.add_sum_erase _ _ (Finset.mem_univ t), Finset.sdiff_singleton_eq_erase]
  ring

end

end

section
variable (hk : Inv k)
include hk

/-- Whoever is counted keeps a wake-up from returning early. -/
theorem Inv.nwait_pos (ht : (k.pollers t).counted = true) : 0 < k.nwait := by
  have hnonneg : ∀ x ∈ Finset.univ, 0 ≤ (k.pollers x).weight := fun x _ => by
    unfold Poller.weight
    split <;> decide
  have hone : (k.pollers t).weight = 1 := if_pos ht
  have hle := Finset.single_le_sum hnonneg (Finset.mem_univ t)
  have hsum := hk.nwait
  omega

theorem Inv.withSched {s : Scheduler n} (hs : ∃ L, s.Sound L)
    (hrest : ∀ t since, k.pollers t = .asleep since → Scheduler.Rests k.sched t s) :
    Inv { k with sched := s } :=
  ⟨hs, hk.seq, hk.nwait, hk.took, hk.ticket, fun t since ht hst => (hrest t since ht hst).2,
    fun t since ht hst => hk.pending t since ht (hrest t since ht hst).1⟩

theorem Inv.withPoller (t : Fin n) {p : Poller} {m : Int} (htook : p.Took k.issued)
    (hm : m = k.nwait + p.weight - (k.pollers t).weight) (hp : ∀ since, p ≠ .asleep since) :
    Inv { k.setPoller t p with nwait := m } := by
  have hold : ∀ x since, update k.pollers t p x = .asleep since → k.pollers x = .asleep since := by
    intro x since h
    rw [update_apply] at h
    split_ifs at h
    · exact absurd h (hp since)
    · exact h
  refine ⟨hk.sound, hk.seq, ?_, fun x => ?_, hk.ticket, fun x since h => hk.dozes x since (hold x since h),
    fun x since h => hk.pending x since (hold x since h)⟩
  · have hsum := sum_weight k t p
    have hn := hk.nwait
    show m = ∑ x, (update k.pollers t p x).weight
    omega
  · show (update k.pollers t p x).Took k.issued
    rw [update_apply]
    split_ifs
    · exact htook
    · exact hk.took x

/-- A wake-up goes on; it is over only if no poller sleeps that it should have woken. -/
theorem Inv.withWake (w : Nat) {x y : Wake} (hw : k.wakes w = some x)
    (hticket : y.ticket = x.ticket) (hdone : y.place = .done → ∀ t since,
      k.pollers t = .asleep since → (k.sched.threads t).state ≠ .sleeping) : Inv (k.setWake w y) := by
  refine ⟨hk.sound, hk.seq, hk.nwait, hk.took, fun v z hz => ?_, hk.dozes,
    fun t since ht hst v z hz hlt => ?_⟩
  · simp only [setWake, update_apply] at hz
    split_ifs at hz
    · cases hz
      exact hticket ▸ hk.ticket w x hw
    · exact hk.ticket v z hz
  · simp only [setWake, update_apply] at hz
    split_ifs at hz
    · cases hz
      exact fun hd => hdone hd t since ht hst
    · exact hk.pending t since ht hst v z hz hlt

/-! ### Steps -/

theorem Inv.sched (e : Scheduler.Event n) : Inv (k.step (.sched e)) := by
  show Inv (if k.Admits e then _ else k)
  split
  · next ha =>
    obtain ⟨L, hs⟩ := hk.sound
    obtain ⟨L', hs', -⟩ := hs.step ha.1
    refine hk.withSched ⟨L', hs'⟩ fun t since ht => ?_
    exact .step hs (hk.dozes t since ht) ha.1 (ha.2 t (by rw [ht]; rfl))
  · exact hk

theorem Inv.kpollSnapshot (t : Fin n) : Inv (k.kpollSnapshot t) := by
  unfold Kpoll.kpollSnapshot
  split
  · exact hk
  · next hc =>
    have hold : (k.pollers t).weight = 0 := if_neg hc
    refine hk.withPoller t ⟨hk.seq, Nat.le_refl _⟩ ?_ (fun _ => by simp)
    rw [hold]
    simp [Poller.weight, Poller.counted]

theorem Inv.kpollEnter (t : Fin n) : Inv (k.kpollEnter t) := by
  unfold Kpoll.kpollEnter
  split
  · next snap since hp =>
    have htook := hk.took t
    rw [hp] at htook
    refine hk.withPoller t htook ?_ (fun _ => by simp)
    simp [hp, Poller.weight, Poller.counted]
  · exact hk

end

theorem ofNat_inj {a b : Nat} (h : UInt32.ofNat b = UInt32.ofNat a) (hle : a ≤ b)
    (hlt : b - a < 2 ^ 32) : a = b := by
  have := congrArg UInt32.toNat h
  simp only [UInt32.toNat_ofNat'] at this
  omega

section
variable (hk : Inv k)
include hk

/-- A thread that finds the sequence as in its snapshot has missed no wake-up. -/
theorem Inv.kpollCheck (t : Fin n) (ticks ms : Nat)
    (hfew : (k.pollers t).missed k.issued < 2 ^ 32) : Inv (k.kpollCheck t ticks ms) := by
  unfold Kpoll.kpollCheck
  split
  · next snap since hp =>
    have htook := hk.took t
    rw [hp] at htook hfew
    split
    · refine hk.withPoller t trivial ?_ (fun _ => by simp)
      simp [hp, Poller.weight, Poller.counted]
    · next hseq =>
      have hsame : since = k.issued := by
        refine ofNat_inj ?_ htook.2 hfew
        rw [← hk.seq, ← htook.1]
        exact not_not.1 hseq
      obtain ⟨L, hs⟩ := hk.sound
      obtain ⟨L', hm, hs', hstate, hpoll⟩ :=
        hs.sleep t ((ticks + if ms = 0 then 1 else ms) % 2 ^ 64) true
      have hrest : ∀ x since', x ≠ t → k.pollers x = .asleep since' → Scheduler.Rests k.sched x
          (k.sched.sleep t ((ticks + if ms = 0 then 1 else ms) % 2 ^ 64) true) :=
        fun x since' hx hpx => .of_moves (hk.dozes x since' hpx) hs.toLinked hm fun h => absurd h hx
      have hold : ∀ x since', x ≠ t → update k.pollers t (.asleep since) x = .asleep since' →
          k.pollers x = .asleep since' := fun x since' hx h => by rwa [update_of_ne hx] at h
      refine ⟨⟨L', hs'⟩, hk.seq, ?_, fun x => ?_, hk.ticket, fun x since' hx hst => ?_,
        fun x since' hx hst => ?_⟩
      · have hsum := sum_weight k t (.asleep since)
        have hn := hk.nwait
        rw [hp] at hsum
        show k.nwait = ∑ x, (update k.pollers t (.asleep since) x).weight
        simp only [Poller.weight, Poller.counted] at hsum hn ⊢
        omega
      · show (update k.pollers t (.asleep since) x).Took k.issued
        rw [update_apply]
        split_ifs
        · trivial
        · exact hk.took x
      · rcases eq_or_ne x t with rfl | hxt
        · exact ⟨⟨hpoll rfl, hstate⟩, (hs'.member_iff _).2 ((hm.here _).2 rfl)⟩
        · exact (hrest x since' hxt (hold x since' hxt hx) hst).2
      · rcases eq_or_ne x t with rfl | hxt
        · -- All wake-ups so far were issued before the snapshot.
          simp only [setPoller, update_self, Poller.asleep.injEq] at hx
          subst hx
          intro w y hw hlt
          have := hk.ticket w y hw
          omega
        · have hpx := hold x since' hxt hx
          exact hk.pending x since' hpx (hrest x since' hxt hpx hst).1
  · exact hk

theorem Inv.kpollResume (t : Fin n) : Inv (k.kpollResume t) := by
  unfold Kpoll.kpollResume
  split
  · next since hp =>
    split
    · exact hk
    · next hst =>
      have hout := hk.withPoller t (p := .leaving) (m := k.nwait) trivial
        (by simp [hp, Poller.weight, Poller.counted]) (fun _ => by simp)
      obtain ⟨L, hs⟩ := hk.sound
      refine hout.withSched ⟨L, hs.setThread t fun _ => rfl⟩ fun x since' hx => ?_
      exact .setThread (hout.dozes x since' hx) t fun hxt h => absurd (hxt ▸ h) hst
  · exact hk

theorem Inv.kpollLeave (t : Fin n) : Inv (k.kpollLeave t) := by
  unfold Kpoll.kpollLeave
  split
  · next hp =>
    refine hk.withPoller t trivial ?_ (fun _ => by simp)
    simp [hp, Poller.weight, Poller.counted]
  · exact hk

theorem Inv.kpollBump (w : Nat) : Inv (k.kpollBump w) := by
  unfold Kpoll.kpollBump
  split
  · next hw =>
    refine ⟨hk.sound, ?_, hk.nwait, fun t => ?_, fun v z hz => ?_, hk.dozes,
      fun t since ht hst v z hz hlt => ?_⟩
    · rw [hk.seq, UInt32.ofNat_add]
      rfl
    · have htook := hk.took t
      show (k.pollers t).Took (k.issued + 1)
      cases hp : k.pollers t with
      | looking | entering => rw [hp] at htook; exact ⟨htook.1, Nat.le_succ_of_le htook.2⟩
      | away | asleep | leaving => trivial
    · simp only [setWake, update_apply] at hz
      split_ifs at hz
      · cases hz
        exact Nat.le_refl _
      · exact Nat.le_succ_of_le (hk.ticket v z hz)
    · simp only [setWake, update_apply] at hz
      split_ifs at hz
      · cases hz
        simp
      · exact hk.pending t since ht hst v z hz hlt
  · exact hk

theorem Inv.kpollLoad (w : Nat) : Inv (k.kpollLoad w) := by
  unfold Kpoll.kpollLoad
  split
  · next ticket hw =>
    refine hk.withWake w hw rfl fun hdone t since ht => ?_
    -- A poller asleep is counted, so the wake-up goes on to the lock.
    have hpos := hk.nwait_pos (t := t) (by rw [ht]; rfl)
    rw [if_neg (by omega)] at hdone
    cases hdone
  · exact hk

/-- The section of `kpoll_wake` leaves no poller asleep. -/
theorem Inv.woken {since : Nat} (ht : k.pollers t = .asleep since)
    (hst : (k.sched.threads t).state = .sleeping) :
    (k.sched.kpollWake.threads t).state = .ready ∧
      ∃ c p, k.sched.kpollWake.member (.ready c p) t = true := by
  obtain ⟨L, hs⟩ := hk.sound
  obtain ⟨hp, hmem⟩ := hk.dozes t since ht hst
  unfold Scheduler.kpollWake
  rw [hs.holds.head_eq]
  obtain ⟨L', hs', -, hready, -⟩ :=
    hs.kpollWakeLoop n (List.nil_append _).symm (hs.length_le _)
  obtain ⟨hstate, c, p, hin⟩ := hready t ((hs.member_iff _).1 hmem) hp
  exact ⟨hstate, c, p, (hs'.member_iff _).2 hin⟩

theorem Inv.kpollLock (w : Nat) : Inv (k.kpollLock w) := by
  unfold Kpoll.kpollLock
  split
  · next ticket hw =>
    obtain ⟨L, hs⟩ := hk.sound
    obtain ⟨L', hs', -⟩ := hs.kpollWake
    have hrest : ∀ t since, k.pollers t = .asleep since → Scheduler.Rests k.sched t k.sched.kpollWake :=
      fun t since ht => .kpollWake (hk.dozes t since ht) hs
    refine (hk.withSched ⟨L', hs'⟩ hrest).withWake w hw rfl fun _ t since ht hst => ?_
    simp [(hk.woken ht (hrest t since ht hst).1).1] at hst
  · exact hk

theorem Inv.onCurrent {c : Cpu} {f : Kpoll n → Fin n → Kpoll n}
    (h : ∀ t ∈ k.sched.currentThread c, Inv (f k t)) : Inv (k.onCurrent c f) := by
  unfold Kpoll.onCurrent
  cases hc : k.sched.currentThread c with
  | none => exact hk
  | some t => exact h t hc

theorem Inv.step {e : Event n} (he : k.fewWakes e) : Inv (k.step e) := by
  cases e with
  | sched e => exact hk.sched e
  | snapshot c => exact hk.onCurrent fun t _ => hk.kpollSnapshot t
  | enter c => exact hk.onCurrent fun t _ => hk.kpollEnter t
  | check c ticks ms =>
    show Inv (k.onCurrent c fun k t => k.kpollCheck t ticks ms)
    exact hk.onCurrent fun t ht => hk.kpollCheck t ticks ms (he t ht)
  | resume c => exact hk.onCurrent fun t _ => hk.kpollResume t
  | leave c => exact hk.onCurrent fun t _ => hk.kpollLeave t
  | bump w => exact hk.kpollBump w
  | load w => exact hk.kpollLoad w
  | lock w => exact hk.kpollLock w

end

/-- **No wake-up is lost.** In every run in which the sequence does not come round between a
poller's snapshot and its test: once a wake-up issued after the snapshot is over, the poller
is not asleep; and the section of a wake-up puts every poller asleep into a ready queue. -/
theorem no_wakeup_lost (hk : k.Start) {es : List (Event n)} (hes : Along step fewWakes k es)
    {t : Fin n} {since : Nat} (ht : (k.run es).pollers t = .asleep since) :
    (∀ w ticket, (k.run es).wakes w = some ⟨ticket, .done⟩ → since < ticket →
      ((k.run es).sched.threads t).state ≠ .sleeping) ∧
    (∀ w ticket, (k.run es).wakes w = some ⟨ticket, .passed⟩ →
      ((k.run es).sched.threads t).state = .sleeping →
        (((k.run es).step (.lock w)).sched.threads t).state = .ready ∧
          ∃ c p, ((k.run es).step (.lock w)).sched.member (.ready c p) t = true) := by
  have hinv : Inv (k.run es) := Along.keeps (fun _ _ h he => h.step he) hk.inv hes
  constructor
  · intro w ticket hw hlt hst
    exact hinv.pending t since ht hst w _ hw hlt rfl
  · intro w ticket hw hst
    have heq : ((k.run es).step (.lock w)).sched = (k.run es).sched.kpollWake := by
      show ((k.run es).kpollLock w).sched = _
      unfold Kpoll.kpollLock
      rw [hw]
    rw [heq]
    exact hinv.woken ht hst

/-- The system has booted on CPU 0, and nobody polls. -/
def initial : Kpoll 3 :=
  { sched := booted, seq := 0, nwait := 0, pollers := fun _ => .away, wakes := fun _ => none,
    issued := 0 }

theorem initial_start : initial.Start where
  boot := booted_boot
  seq := rfl
  nwait := rfl
  pollers _ := rfl
  wakes _ := rfl
  issued := rfl

/-- A poller goes to sleep, an event happens, and the poller is woken. -/
def oneEvent : List (Event 3) :=
  [.snapshot 0, .enter 0, .check 0 0 200, .bump 0, .load 0, .lock 0]

instance (k : Kpoll n) (e : Event n) : Decidable (k.fewWakes e) :=
  match e with
  | .check c _ _ =>
    inferInstanceAs (Decidable (∀ t ∈ k.sched.currentThread c, (k.pollers t).missed k.issued < 2 ^ 32))
  | .sched _ | .snapshot _ | .enter _ | .resume _ | .leave _ | .bump _ | .load _ | .lock _ =>
    inferInstanceAs (Decidable True)

theorem no_wakeup_lost_once : ((initial.run oneEvent).wakes 0 = some ⟨1, .done⟩ ∧ 0 < 1) ∧
      ((initial.run oneEvent).sched.threads 0).state ≠ .sleeping := by
  have hfew : Along step fewWakes initial oneEvent := by decide +kernel
  have hasleep : (initial.run oneEvent).pollers 0 = .asleep 0 := by decide +kernel
  exact ⟨⟨rfl, by decide⟩, (no_wakeup_lost initial_start hfew hasleep).1 0 1 rfl (by decide)⟩

/-! ### The sequence comes round -/

/-- Wake-ups while nobody is counted. -/
def idleWakes (m : Nat) : List (Event n) := (List.range m).flatMap fun w => [.bump w, .load w]

/-- They move the sequence and return. -/
theorem run_idleWakes (hn : k.nwait ≤ 0) (hw : ∀ w, k.wakes w = none) (m : Nat) : k.run (idleWakes m) =
      { k with
        seq := k.seq + UInt32.ofNat m
        issued := k.issued + m
        wakes := fun w => if w < m then some ⟨k.issued + w + 1, .done⟩ else none } := by
  induction m with
  | zero =>
    have hnone : k.wakes = fun _ => none := funext hw
    simp [idleWakes, run, ← hnone]
  | succ m ih =>
    have hsplit : k.run (idleWakes (m + 1)) = ((k.run (idleWakes m)).step (.bump m)).step (.load m) := by
      unfold run idleWakes
      rw [List.range_succ, List.flatMap_append, List.foldl_append]
      rfl
    rw [hsplit, ih]
    simp only [step, kpollBump, Nat.lt_irrefl, if_false, kpollLoad, setWake, update_self,
      if_pos hn, update_idem]
    congr 1
    · rw [UInt32.ofNat_add, ← UInt32.add_assoc]
      rfl
    · funext w
      by_cases hwm : w = m
      · rw [hwm, update_self, if_pos (Nat.lt_succ_self m)]
      · rw [update_of_ne hwm]
        have : w < m ↔ w < m + 1 := by omega
        simp only [this]

/-- Wake-ups between the snapshot of a poller and its test. -/
def lateTest (m : Nat) : List (Event 3) :=
  [.snapshot 0] ++ idleWakes m ++ [.enter 0, .check 0 0 200]

theorem run_lateTest (m : Nat) : initial.run (lateTest m) =
    (((initial.step (.snapshot 0)).run (idleWakes m)).step (.enter 0)).step (.check 0 0 200) := by
  unfold lateTest run
  rw [List.foldl_append, List.foldl_append]
  rfl

/-- The sequence comes round, and the poller goes to sleep though all the wake-ups were issued
after its snapshot. -/
theorem wakeup_lost : initial.Start ∧ (initial.run (lateTest (2 ^ 32))).pollers 0 = .asleep 0 ∧
    (initial.run (lateTest (2 ^ 32))).wakes 0 = some ⟨1, .done⟩ ∧
    ((initial.run (lateTest (2 ^ 32))).sched.threads 0).state = .sleeping := by
  have hn : (initial.step (.snapshot 0)).nwait ≤ 0 := by decide +kernel
  rw [run_lateTest, run_idleWakes hn fun _ => rfl]
  exact ⟨initial_start, by decide +kernel, by decide +kernel, by decide +kernel⟩

end Kpoll

end InDevOS.Sched
