import InDevOS.Lib.Steps
import InDevOS.Sched.Sound

/-! The queues and the running threads over whole runs.

The queues stay sound in every run that adds no thread twice. That a thread chosen to run is
on no CPU rests on the `on_cpu` flag: a thread is live on a CPU while it is the current
thread there, or was switched out last and its stack may still be in use, and no loop
chooses a thread whose flag is set. So a thread that is live must not come into a ready queue
with its flag clear. That is so for all threads that were ever switched to, but not for the
thread the system booted on: it runs from the start, and its flag is first set when it is
switched back to (`boot_thread_stolen`). -/
namespace InDevOS.Sched
open Lib Function List

namespace Scheduler
variable {n : Nat} {s s' : Scheduler n} {L L' : Queue → List (Fin n)} {t : Fin n}
  {c : Cpu} {p : Prop}

section
variable (s : Scheduler n)

/-- The context of the thread may be in use on the CPU. -/
def Live (c : Cpu) (t : Fin n) : Prop :=
  s.currentThread c = some t ∨ s.oncpuPending c = some t

instance (s : Scheduler n) (c : Cpu) (t : Fin n) : Decidable (s.Live c t) :=
  inferInstanceAs (Decidable (_ ∨ _))

/-- The flag of the thread is set wherever it is live. -/
def Flagged (t : Fin n) : Prop := ∀ c, s.Live c t → (s.threads t).onCpu = true

instance (s : Scheduler n) (t : Fin n) : Decidable (s.Flagged t) :=
  inferInstanceAs (Decidable (∀ _ : Fin 16, _ → _))

/-- Whether the thread is in any queue. -/
def queued (t : Fin n) : Bool :=
  ((List.finRange 16).any fun c => (List.finRange 4).any fun p => s.member (.ready c p) t) ||
    s.member .sleeping t || s.member .blocked t

/-- No thread is added that is queued, chosen, or to be added by its wake-up. -/
def addedOnce : Event n → Prop
  | .add t => s.queued t = false ∧ (∀ c, s.picked c ≠ some t) ∧ s.waits t = false
  | _ => True

/-- A live thread comes into a ready queue with its flag set only. -/
def flagged : Event n → Prop
  | .add t => s.Flagged t
  | .wake t => s.Flagged t
  | .wakeBlocked t => s.Flagged t
  | .wakeExpired _ => ∀ t, s.member .sleeping t = true → s.Flagged t
  | .kpollWake => ∀ t, s.member .sleeping t = true → s.Flagged t
  | _ => True

end

theorem Linked.not_queued (hs : Linked s L) (h : s.queued t = false) (q : Queue) : t ∉ L q := by
  intro hmem
  have hq := (hs.member_iff q).2 hmem
  unfold queued at h
  simp only [Bool.or_eq_false_iff, any_eq_false, any_eq_true] at h
  cases q with
  | ready c p => exact h.1.1 c (mem_finRange c) ⟨p, mem_finRange p, hq⟩
  | sleeping => simp [h.1.2] at hq
  | blocked => simp [h.2] at hq

/-- Queued threads are flagged where they are live and are not waiting; a thread is live on
one CPU at most, and one that was chosen is nowhere else. -/
structure Exclusive (s : Scheduler n) (L : Queue → List (Fin n)) : Prop where
  flags : ∀ c p x, x ∈ L (.ready c p) → s.Flagged x
  ready : ∀ c p x, x ∈ L (.ready c p) → s.waits x = false
  one : ∀ c c' x, s.Live c x → s.Live c' x → c = c'
  apart : ∀ c x, s.oncpuPending c = some x → s.currentThread c ≠ some x
  hands : ∀ c x, s.picked c = some x → (∀ q, x ∉ L q) ∧ (∀ c', ¬s.Live c' x) ∧ s.waits x = false
  oneHand : ∀ c c' x, s.picked c = some x → s.picked c' = some x → c = c'

/-! ### What moving a thread keeps -/

theorem Touches.live (h : Touches s t s') {x : Fin n} : s'.Live c x ↔ s.Live c x := by
  unfold Live
  rw [h.current, h.pending]

theorem Touches.onCpu_eq (h : Touches s t s') (x : Fin n) :
    (s'.threads x).onCpu = (s.threads x).onCpu := by
  rcases eq_or_ne x t with rfl | hx
  · exact h.onCpu
  · rw [h.threads x hx]

theorem Touches.flagged (h : Touches s t s') {x : Fin n} : s'.Flagged x ↔ s.Flagged x := by
  unfold Flagged
  simp only [h.live, h.onCpu_eq]

theorem Touches.waits (h : Touches s t s') {x : Fin n} (hx : x ≠ t) : s'.waits x = s.waits x := by
  unfold Scheduler.waits
  rw [h.threads x hx]

section
variable (he : Exclusive s L)
include he

theorem Exclusive.moves {dest : Option Queue} (h : Moves s L t dest s' L')
    (hready : ∀ c p, dest = some (.ready c p) → s'.waits t = false ∧ s.Flagged t)
    (hpicked : dest ≠ none ∨ s'.waits t = true → ∀ c, s.picked c ≠ some t) : Exclusive s' L' := by
  have ht := h.touches
  refine ⟨fun c p x hx => ?_, fun c p x hx => ?_, fun c c' x hc hc' => ?_, fun c x hx => ?_,
    fun c x hx => ?_, fun c c' x hx hx' => ?_⟩
  · rw [ht.flagged]
    rcases eq_or_ne x t with rfl | hxt
    · exact (hready c p ((h.here _).1 hx)).2
    · exact he.flags c p x ((h.elsewhere x hxt _).1 hx)
  · rcases eq_or_ne x t with rfl | hxt
    · exact (hready c p ((h.here _).1 hx)).1
    · exact (ht.waits hxt).trans (he.ready c p x ((h.elsewhere x hxt _).1 hx))
  · exact he.one c c' x (ht.live.1 hc) (ht.live.1 hc')
  · rw [h.pending] at hx
    rw [h.current]
    exact he.apart c x hx
  · rw [h.picked] at hx
    obtain ⟨hq, hlive, hwaits⟩ := he.hands c x hx
    have hlive' : ∀ c', ¬s'.Live c' x := fun c' hl => hlive c' (ht.live.1 hl)
    rcases eq_or_ne x t with rfl | hxt
    · obtain ⟨hdest, hw⟩ := not_or.1 fun hor => hpicked hor c hx
      refine ⟨fun q hmem => ?_, hlive', Bool.eq_false_of_not_eq_true hw⟩
      simp [h.here, not_not.1 hdest] at hmem
    · exact ⟨fun q hmem => hq q ((h.elsewhere x hxt q).1 hmem), hlive', (ht.waits hxt).trans hwaits⟩
  · rw [h.picked] at hx hx'
    exact he.oneHand c c' x hx hx'

/-- A section that chooses no thread, makes none live or waiting, and clears no flag of a live one. -/
theorem Exclusive.weaken (hlive : ∀ c x, s'.Live c x → s.Live c x)
    (hflag : ∀ c p x, x ∈ L (.ready c p) → ∀ c', s'.Live c' x → (s.threads x).onCpu = true →
      (s'.threads x).onCpu = true)
    (hwaits : ∀ x, s.waits x = false → s'.waits x = false)
    (hapart : ∀ c x, s'.oncpuPending c = some x → s.oncpuPending c = some x)
    (hcurrent : s'.currentThread = s.currentThread) (hpicked : s'.picked = s.picked) : Exclusive s' L := by
  refine ⟨fun c p x hx c' hl => hflag c p x hx c' hl (he.flags c p x hx c' (hlive c' x hl)),
    fun c p x hx => hwaits x (he.ready c p x hx),
    fun c c' x hc hc' => he.one c c' x (hlive c x hc) (hlive c' x hc'), fun c x hx => ?_, fun c x hx => ?_,
    hpicked ▸ he.oneHand⟩
  · rw [hcurrent]
    exact he.apart c x (hapart c x hx)
  · rw [hpicked] at hx
    obtain ⟨hq, hl, hw⟩ := he.hands c x hx
    exact ⟨hq, fun c' h => hl c' (hlive c' x h), hwaits x hw⟩

theorem Exclusive.touched (ht : Touches s t s')
    (hwaits : s.waits t = false → s'.waits t = false) : Exclusive s' L := by
  refine he.weaken (fun _ _ => ht.live.1) (fun _ _ x _ _ _ hon => (ht.onCpu_eq x).trans hon) (fun x hx => ?_)
    (fun c x hx => ht.pending ▸ hx) ht.current ht.picked
  rcases eq_or_ne x t with rfl | hxt
  · exact hwaits hx
  · exact (ht.waits hxt).trans hx

theorem Exclusive.not_picked {q : Queue} (h : t ∈ L q) (c : Cpu) :
    s.picked c ≠ some t := fun hp => (he.hands c t hp).1 q h

theorem Exclusive.not_picked_of_waits (h : s.waits t = true) (c : Cpu) : s.picked c ≠ some t := fun hp => by
  simpa [h] using (he.hands c t hp).2.2

theorem Exclusive.not_picked_of_live (h : s.Live c t) (c' : Cpu) :
    s.picked c' ≠ some t := fun hp => (he.hands c' t hp).2.1 c h

end

theorem waits_congr (h : (s'.threads t).state = (s.threads t).state) : s'.waits t = s.waits t := by
  unfold waits
  rw [h]

theorem waits_of_state (h : (s.threads t).state ≠ .sleeping) (h' : (s.threads t).state ≠ .blocked) :
    s.waits t = false := by
  unfold waits
  simp [h, h']

/-! ### Sections -/

/-- What a step owes: the queues stay sound, and so does the running if it was. -/
def Keeps (s : Scheduler n) (L : Queue → List (Fin n)) (flagged : Prop) (s' : Scheduler n) : Prop :=
  ∃ L', Sound s' L' ∧ (Exclusive s L → flagged → Exclusive s' L')

theorem Keeps.refl (hs : Sound s L) : Keeps s L p s := ⟨L, hs, fun he _ => he⟩

theorem Sound.of_moves (hs : Sound s L) {dest : Option Queue} (h : Moves s L t dest s' L')
    (hdest : dest ≠ some .sleeping) : Sound s' L' :=
  ⟨h.linked, h.sorted (hs.holds.nodup _) hdest (hs.sorted.sublist erase_sublist)⟩

theorem Sound.of_linked (hs : Sound s L) (hl : Linked s' L)
    (hsame : ∀ x, (s'.threads x).sleepUntil = (s.threads x).sleepUntil) : Sound s' L := by
  refine ⟨hl, List.Pairwise.imp (fun hab => ?_) hs.sorted⟩
  rwa [hsame, hsame]

theorem Sound.setThread (hs : Sound s L) (t : Fin n) {f : Thread → Thread}
    (hf : ∀ x, (f x).sleepUntil = x.sleepUntil) : Sound (s.setThread t f) L := by
  refine hs.of_linked (hs.toLinked.congr rfl rfl fun _ => id) fun x => ?_
  rcases eq_or_ne x t with rfl | hx
  · rw [setThread_self, hf]
  · rw [setThread_of_ne s f hx]

theorem schedulerAddThread_state (s : Scheduler n) (t : Fin n) :
    ((s.schedulerAddThread t).threads t).state = (s.threads t).state := assignHomeCpu_state s t

theorem readyUnlink_threads (s : Scheduler n) (t : Fin n) :
    (s.readyUnlink t).2.threads = (s.assignHomeCpu t).threads := by
  unfold Scheduler.readyUnlink
  dsimp only
  cases (((s.assignHomeCpu t).readyQueues t).find? fun cp =>
    (s.assignHomeCpu t).member (.ready cp.1 cp.2) t) <;> rfl

theorem readyUnlink_self (s : Scheduler n) (t : Fin n) :
    ∃ c, (s.readyUnlink t).2.threads t = { s.threads t with homeCpu := c } := by
  rw [readyUnlink_threads]
  exact assignHomeCpu_self s t

theorem Touches.woken {s₀ : Scheduler n} (h₀ : Touches s t s₀) (hl₀ : Linked s₀ L) :
    ∃ c p L', Moves s L t (some (.ready c p)) (s₀.makeReady t) L' ∧
      ((s₀.makeReady t).threads t).state = .ready ∧ (s₀.makeReady t).waits t = false := by
  obtain ⟨c, p, L', hm, hstate⟩ := hl₀.makeReady t
  exact ⟨c, p, L', .of_touches (h₀.trans hm.touches) hm.linked hm.here hm.elsewhere hm.asleep, hstate,
    waits_of_state (by rw [hstate]; decide) (by rw [hstate]; decide)⟩

/-- `scheduler_wake_expired_locked`: the head of the sleeping queue, over and over. -/
theorem Sound.wakeExpired (now : Nat) (fuel : Nat) (hs : Sound s L) :
    Keeps s L (∀ x ∈ L .sleeping, s.Flagged x) (wakeExpired now fuel s) := by
  induction fuel generalizing s L with
  | zero => exact .refl hs
  | succ fuel ih =>
    unfold Scheduler.wakeExpired
    cases hhead : s.queues.head .sleeping with
    | none => exact .refl hs
    | some t =>
      dsimp only
      split
      · exact .refl hs
      have hin : t ∈ L .sleeping := by
        rw [hs.holds.head_eq] at hhead
        exact mem_of_head? hhead
      obtain ⟨c, p, L₁, hm, hstate⟩ := (hs.toLinked.popSleeping hhead).addFront
      have hs₁ := hs.of_moves hm (by simp)
      obtain ⟨L', hs', he'⟩ := ih hs₁
      refine ⟨L', hs', fun he hflag => he' (he.moves hm (fun _ _ _ => ⟨waits_of_state ?_ ?_,
        hflag t hin⟩) fun _ => he.not_picked hin) fun x hx => ?_⟩
      · rw [hstate]
        decide
      · rw [hstate]
        decide
      · rw [hm.touches.flagged]
        rw [hm.asleep (by simp)] at hx
        exact hflag x (mem_of_mem_erase hx)

/-- The thread is one that `kpoll_wake` wakes. -/
def Polls (s : Scheduler n) (t : Fin n) : Prop :=
  (s.threads t).kpollWaiting = true ∧ (s.threads t).state = .sleeping

/-- The loop of `kpoll_wake` from a place in the sleeping queue on: every thread behind it
that waits in a poll is made ready, and no other thread is touched. -/
theorem Sound.kpollWakeLoop (fuel : Nat) {kept rest : List (Fin n)} (hs : Sound s L)
    (hsplit : L .sleeping = kept ++ rest) (hfuel : rest.length ≤ fuel) :
    ∃ L', Sound (s.kpollWakeLoop fuel rest.head?) L' ∧
      (Exclusive s L → (∀ x ∈ L .sleeping, s.Flagged x) →
        Exclusive (s.kpollWakeLoop fuel rest.head?) L') ∧
      (∀ x ∈ rest, s.Polls x → ((s.kpollWakeLoop fuel rest.head?).threads x).state = .ready ∧
        ∃ c p, x ∈ L' (.ready c p)) ∧
      ∀ x, ¬(x ∈ rest ∧ s.Polls x) →
        (s.kpollWakeLoop fuel rest.head?).threads x = s.threads x ∧ ∀ q, x ∈ L' q ↔ x ∈ L q := by
  induction fuel generalizing s L kept rest with
  | zero =>
    obtain rfl : rest = [] := length_eq_zero_iff.1 (Nat.le_zero.1 hfuel)
    exact ⟨L, hs, fun he _ => he, by simp, fun _ _ => ⟨rfl, fun _ => Iff.rfl⟩⟩
  | succ fuel ih =>
    cases rest with
    | nil => exact ⟨L, hs, fun he _ => he, by simp, fun _ _ => ⟨rfl, fun _ => Iff.rfl⟩⟩
    | cons t rest =>
      rw [head?_cons]
      unfold Scheduler.kpollWakeLoop
      have hseg := hs.holds.forward .sleeping
      have hnodup := hs.holds.nodup .sleeping
      rw [hsplit] at hseg hnodup
      have hnext : s.queues.next t = rest.head? := by
        obtain ⟨r, -, -, htail⟩ := Seg.append_iff.mp hseg
        exact htail.head
      have htrest : t ∉ rest := by
        rw [nodup_append, nodup_cons] at hnodup
        exact hnodup.2.1.1
      rw [hnext]
      have hin : t ∈ L .sleeping := by
        rw [hsplit]
        exact mem_append_right _ mem_cons_self
      by_cases hwake : (s.threads t).kpollWaiting = true ∧ (s.threads t).state = .sleeping
      · rw [if_pos hwake]
        -- The thread that the loop wakes: no longer waiting in a poll, due at once.
        have heq : (s.setThread t fun x => { x with kpollWaiting := false }).threadWakeBlocked t =
            ((s.setThread t fun x => { x with kpollWaiting := false }).setThread t
              fun x => { x with sleepUntil := 0 }).makeReady t := by
          unfold Scheduler.threadWakeBlocked waits
          simp [hwake.2]
        obtain ⟨c, p, L₁, hm, hstate, hw⟩ :=
          ((Touches.setThread s t (f := fun x => { x with kpollWaiting := false }) fun _ => rfl).trans
            (.setThread _ t (f := fun x => { x with sleepUntil := 0 }) fun _ => rfl)).woken
          (hs.toLinked.congr rfl rfl fun _ => id)
        rw [heq]
        generalize (Scheduler.makeReady _ t) = s₁ at hm hstate hw ⊢
        have hs₁ := hs.of_moves hm (by simp)
        have hsplit₁ : L₁ .sleeping = kept ++ rest := by
          have hkept : t ∉ kept := fun h => by
            rw [nodup_append] at hnodup
            exact hnodup.2.2 t h t mem_cons_self rfl
          rw [hm.asleep (by simp), hsplit, erase_append_right _ hkept, erase_cons_head]
        have hpolls : ∀ x, x ≠ t → (s₁.Polls x ↔ s.Polls x) := fun x hx => by
          unfold Polls
          rw [hm.threads x hx]
        obtain ⟨L', hs', he', hready, hsame⟩ := ih hs₁ hsplit₁ (Nat.le_of_succ_le_succ hfuel)
        refine ⟨L', hs', fun he hflag => he' (he.moves hm (fun _ _ _ => ⟨hw, hflag t hin⟩) fun _ =>
          he.not_picked hin) fun x hx => ?_, fun x hx hp => ?_, fun x hx => ?_⟩
        · rw [hm.touches.flagged]
          refine hflag x ?_
          rw [hsplit₁] at hx
          rw [hsplit]
          exact (sublist_cons_self t rest).append_left kept |>.subset hx
        · rcases eq_or_ne x t with rfl | hxt
          · obtain ⟨hthread, hmem⟩ := hsame x fun h => htrest h.1
            exact ⟨by rw [hthread, hstate], c, p, (hmem _).2 ((hm.here _).2 rfl)⟩
          · exact hready x ((mem_cons.1 hx).resolve_left hxt) ((hpolls x hxt).2 hp)
        · have hxt : x ≠ t := by
            rintro rfl
            exact hx ⟨mem_cons_self, hwake⟩
          obtain ⟨hthread, hmem⟩ := hsame x fun h =>
            hx ⟨mem_cons_of_mem _ h.1, (hpolls x hxt).1 h.2⟩
          exact ⟨hthread.trans (hm.threads x hxt), fun q => (hmem q).trans (hm.elsewhere x hxt q)⟩
      · rw [if_neg hwake]
        have hsplit₁ : L .sleeping = (kept ++ [t]) ++ rest := by
          rw [hsplit, append_assoc]
          rfl
        obtain ⟨L', hs', he', hready, hsame⟩ := ih hs hsplit₁ (Nat.le_of_succ_le_succ hfuel)
        refine ⟨L', hs', he', fun x hx hp => ?_, fun x hx => hsame x fun h => ?_⟩
        · rcases mem_cons.1 hx with rfl | hmem
          · exact absurd hp hwake
          · exact hready x hmem hp
        · exact hx ⟨mem_cons_of_mem _ h.1, h.2⟩

theorem Sound.kpollWake (hs : Sound s L) :
    Keeps s L (∀ x ∈ L .sleeping, s.Flagged x) s.kpollWake := by
  unfold Scheduler.kpollWake
  rw [hs.holds.head_eq]
  obtain ⟨L', hs', he, -⟩ := hs.kpollWakeLoop n (nil_append _).symm (hs.length_le _)
  exact ⟨L', hs', he⟩

theorem schedulerRemoveThread_state (s : Scheduler n) (t : Fin n) :
    ((s.schedulerRemoveThread t).threads t).state = (s.threads t).state := by
  have hunlink : ∀ (s : Scheduler n) q, (s.queueUnlink q t).2.threads = s.threads := by
    intro s q
    unfold queueUnlink
    split <;> rfl
  have hready : ((s.readyUnlink t).2.threads t).state = (s.threads t).state := by
    obtain ⟨c, h⟩ := readyUnlink_self s t
    rw [h]
  unfold schedulerRemoveThread
  dsimp only
  split
  · exact hready
  · split
    · rw [hunlink]
      exact hready
    · rw [hunlink, hunlink]
      exact hready

/-! ### Choosing and switching -/

theorem Exclusive.pick (he : Exclusive s L) {me : Cpu} (hq : ∀ q, t ∉ L q)
    (hlive : ∀ c, ¬s.Live c t) (hwaits : s.waits t = false) (hnot : ∀ c, s.picked c ≠ some t) :
    Exclusive { s with picked := update s.picked me (some t) } L := by
  have hpicked : ∀ c x, update s.picked me (some t) c = some x →
      (c = me ∧ x = t) ∨ s.picked c = some x := by
    intro c x hx
    rcases eq_or_ne c me with rfl | hc
    · simp_all
    · exact .inr (by rwa [update_of_ne hc] at hx)
  refine ⟨he.flags, he.ready, he.one, he.apart, fun c x hx => ?_, fun c c' x hx hx' => ?_⟩
  · obtain ⟨-, rfl⟩ | hx := hpicked c x hx
    · exact ⟨hq, hlive, hwaits⟩
    · exact he.hands c x hx
  · obtain ⟨rfl, rfl⟩ | hold := hpicked c x hx
    · obtain ⟨rfl, -⟩ | hold' := hpicked c' x hx'
      · rfl
      · exact absurd hold' (hnot c')
    · obtain ⟨-, rfl⟩ | hold' := hpicked c' x hx'
      · exact absurd hold (hnot c)
      · exact he.oneHand c c' x hold hold'

theorem Sound.take (hs : Sound s L) {me : Cpu} {r : Option (Fin n) × Scheduler n}
    (hr : Chosen s L r) {p : Prop} : Keeps s L p (s.take me r) := by
  unfold Scheduler.take
  split_ifs with hfree
  · exact .refl hs
  obtain rfl | ⟨t, c, pr, hoff, hin, hsome, hstate, hm⟩ := hr
  · have hnone : s.picked me = none := by simpa using hfree
    rw [← hnone, update_eq_self]
    exact .refl hs
  refine ⟨without t L, ⟨hm.linked.congr rfl rfl fun _ => id, (hs.of_moves hm (by simp)).sorted⟩,
    fun he _ => ?_⟩
  have hwaits : r.2.waits t = false := (waits_congr hstate).trans (he.ready c pr t hin)
  have he' : Exclusive r.2 (without t L) :=
    he.moves hm (fun _ _ h => by cases h) fun _ => he.not_picked hin
  rw [hsome]
  refine he'.pick (fun q hmem => ?_) (fun c' hl => ?_) hwaits fun c' => ?_
  · cases (hm.here q).1 hmem
  · simpa [hoff] using he.flags c pr t hin c' (hm.touches.live.1 hl)
  · rw [hm.picked]
    exact he.not_picked hin c'

/-- The thread is as before but for its flag, which is kept if `keeps`. -/
def Reflagged (x x' : Thread) (keeps : Prop) : Prop :=
  ∃ b, x' = { x with onCpu := b } ∧ (keeps → b = x.onCpu)

/-- What a switch on a CPU does, to a thread or to the idle thread: the outgoing thread is
pending now, and only the flag of the thread pending before may have been cleared. -/
structure Switched (s : Scheduler n) (c : Cpu) (t : Option (Fin n)) (s' : Scheduler n) : Prop where
  queues : s'.queues = s.queues
  readyCount : s'.readyCount = s.readyCount
  online : s'.online = s.online
  current : s'.currentThread = Function.update s.currentThread c t
  pending : s'.oncpuPending = Function.update s.oncpuPending c (s.currentThread c)
  picked : s'.picked = Function.update s.picked c none
  incoming : ∀ x, t = some x → Reflagged { s.threads x with state := .running } (s'.threads x) False
  others : ∀ x, t ≠ some x → Reflagged (s.threads x) (s'.threads x) (s.oncpuPending c ≠ some x)

section
variable {t : Option (Fin n)} (h : Switched s c t s')
include h

theorem Switched.state {x : Fin n} (hx : t ≠ some x) : (s'.threads x).state = (s.threads x).state := by
  obtain ⟨b, hb, -⟩ := h.others x hx
  rw [hb]

theorem Switched.onCpu {x : Fin n} (hx : t ≠ some x) (hp : s.oncpuPending c ≠ some x) :
    (s'.threads x).onCpu = (s.threads x).onCpu := by
  obtain ⟨b, hb, hkeeps⟩ := h.others x hx
  rw [hb, ← hkeeps hp]

theorem Switched.sleepUntil (x : Fin n) : (s'.threads x).sleepUntil = (s.threads x).sleepUntil := by
  by_cases hx : t = some x
  · obtain ⟨b, hb, -⟩ := h.incoming x hx
    rw [hb]
  · obtain ⟨b, hb, -⟩ := h.others x hx
    rw [hb]

theorem Switched.live {c' : Cpu} {x : Fin n} (hl : s'.Live c' x) : s.Live c' x ∨ (c' = c ∧ t = some x) := by
  unfold Live at hl
  rw [h.current, h.pending] at hl
  rcases eq_or_ne c' c with rfl | hc
  · rw [update_self, update_self] at hl
    exact hl.symm.imp .inl fun ht => ⟨rfl, ht⟩
  · rw [update_of_ne hc, update_of_ne hc] at hl
    exact .inl hl

end

theorem Exclusive.switched (he : Exclusive s L) {t : Option (Fin n)}
    (h : Switched s c t s') (ht : s.picked c = t) : Exclusive s' L := by
  have hnew : ∀ x, t = some x → (∀ q, x ∉ L q) ∧ (∀ c', ¬s.Live c' x) ∧ s.waits x = false :=
    fun x hx => he.hands c x (ht.trans hx)
  have hwaits : ∀ x, t ≠ some x → s'.waits x = s.waits x := fun x hx => waits_congr (h.state hx)
  have hold : ∀ c' x, s'.picked c' = some x → c' ≠ c ∧ s.picked c' = some x := by
    simp [h.picked, update_apply]
  refine ⟨fun c' p x hx c'' hl => ?_, fun c' p x hx => ?_, fun c₁ c₂ x h₁ h₂ => ?_,
    fun c' x hx => ?_, fun c' x hx => ?_, fun c₁ c₂ x h₁ h₂ => ?_⟩
  · have hxt : t ≠ some x := fun htx => (hnew x htx).1 _ hx
    have hl' : s.Live c'' x := (h.live hl).resolve_right fun hr => hxt hr.2
    rw [h.onCpu hxt fun hp => ?_]
    · exact he.flags c' p x hx c'' hl'
    -- The thread that was pending here is live here only, and no longer.
    obtain rfl := he.one c'' c x hl' (.inr hp)
    unfold Live at hl
    rw [h.current, h.pending, update_self, update_self] at hl
    exact hl.elim hxt (he.apart c'' x hp)
  · rw [hwaits x fun htx => (hnew x htx).1 _ hx]
    exact he.ready c' p x hx
  · obtain hl₁ | ⟨rfl, ht₁⟩ := h.live h₁
    · obtain hl₂ | ⟨-, ht₂⟩ := h.live h₂
      · exact he.one c₁ c₂ x hl₁ hl₂
      · exact absurd hl₁ ((hnew x ht₂).2.1 c₁)
    · obtain hl₂ | ⟨rfl, -⟩ := h.live h₂
      · exact absurd hl₂ ((hnew x ht₁).2.1 c₂)
      · rfl
  · rw [h.pending] at hx
    rw [h.current]
    rcases eq_or_ne c' c with rfl | hc
    · rw [update_self] at hx ⊢
      exact fun htx => (hnew x htx).2.1 c' (.inl hx)
    · rw [update_of_ne hc] at hx ⊢
      exact he.apart c' x hx
  · obtain ⟨hc, hx⟩ := hold c' x hx
    obtain ⟨hq, hlive, hw⟩ := he.hands c' x hx
    have hxt : t ≠ some x := fun htx => hc (he.oneHand c' c x hx (ht.trans htx))
    exact ⟨hq, fun c'' hl => hlive c'' ((h.live hl).resolve_right fun hr => hxt hr.2),
      (hwaits x hxt).trans hw⟩
  · exact he.oneHand c₁ c₂ x (hold c₁ x h₁).2 (hold c₂ x h₂).2

theorem Reflagged.refl (x : Thread) : Reflagged x x p := ⟨x.onCpu, rfl, fun _ => rfl⟩

theorem clearOnCpu_threads (s : Scheduler n) (o : Option (Fin n)) (x : Fin n) :
    Reflagged (s.threads x) ((s.clearOnCpu o).threads x) (o ≠ some x) := by
  cases o with
  | none => exact .refl _
  | some y =>
    unfold clearOnCpu
    rcases eq_or_ne x y with rfl | hx
    · rw [setThread_self]
      exact ⟨false, rfl, fun h => absurd rfl h⟩
    · rw [setThread_of_ne s _ hx]
      exact .refl _

theorem clearOnCpu_eq (s : Scheduler n) (o : Option (Fin n)) :
    (s.clearOnCpu o).queues = s.queues ∧ (s.clearOnCpu o).readyCount = s.readyCount ∧
      (s.clearOnCpu o).online = s.online ∧ (s.clearOnCpu o).currentThread = s.currentThread ∧
      (s.clearOnCpu o).oncpuPending = s.oncpuPending ∧ (s.clearOnCpu o).picked = s.picked := by
  cases o <;> exact ⟨rfl, rfl, rfl, rfl, rfl, rfl⟩

/-- Deferring the clearing of the outgoing thread is the first half of a switch. -/
theorem schedOncpuDeferClear_switched (s : Scheduler n) (c : Cpu) (o : Option (Fin n)) :
    ∃ o', (o' = none ∨ o' = s.oncpuPending c) ∧
      s.schedOncpuDeferClear c o =
        { s.clearOnCpu o' with oncpuPending := update s.oncpuPending c o } := by
  unfold schedOncpuDeferClear
  dsimp only
  split
  · refine ⟨_, .inr rfl, ?_⟩
    rw [(clearOnCpu_eq s _).2.2.2.2.1]
  · exact ⟨none, .inl rfl, rfl⟩

theorem switchIn_threads (s : Scheduler n) (c : Cpu) (t : Fin n) :
    (s.switchIn c t).threads =
      update s.threads t { s.threads t with state := .running, onCpu := true } := rfl

theorem switchTo_switched (hc : s.picked c = some t) (coop : Bool) :
    Switched s c (some t) (s.switchTo c coop) := by
  unfold switchTo
  rw [hc]
  have hne : ∀ x, some t ≠ some x → x ≠ t := fun x hx h => hx (by rw [h])
  -- Only a flag of the thread pending before is cleared.
  have hkept : ∀ {o : Option (Fin n)} {x}, o = none ∨ o = s.oncpuPending c →
      s.oncpuPending c ≠ some x → o ≠ some x := by
    rintro o x (rfl | rfl) hx
    · simp
    · exact hx
  cases coop with
  | true =>
    dsimp only
    obtain ⟨o, ho, heq⟩ := schedOncpuDeferClear_switched (s.switchIn c t) c (s.currentThread c)
    obtain ⟨hq, hr, hon, hcur, -, hpick⟩ := clearOnCpu_eq (s.switchIn c t) o
    have hthreads := clearOnCpu_threads (s.switchIn c t) o
    rw [switchIn_threads] at hthreads
    rw [heq]
    refine ⟨hq, hr, hon, hcur, rfl, by dsimp only; rw [hpick]; rfl, fun x hx => ?_, fun x hx => ?_⟩
    · obtain rfl := Option.some.inj hx
      obtain ⟨b, hb, -⟩ := hthreads t
      rw [update_self] at hb
      exact ⟨b, hb, False.elim⟩
    · obtain ⟨b, hb, hkeeps⟩ := hthreads x
      rw [update_of_ne (hne x hx)] at hb hkeeps
      exact ⟨b, hb, fun hp => hkeeps (hkept ho hp)⟩
  | false =>
    obtain ⟨o, ho, heq⟩ := schedOncpuDeferClear_switched s c (s.currentThread c)
    obtain ⟨hq, hr, hon, hcur, -, hpick⟩ := clearOnCpu_eq s o
    have hthreads := clearOnCpu_threads s o
    rw [heq]
    refine ⟨hq, hr, hon, by rw [← hcur]; rfl, rfl, by rw [← hpick]; rfl, fun x hx => ?_, fun x hx => ?_⟩
    · obtain rfl := Option.some.inj hx
      obtain ⟨b, hb, -⟩ := hthreads t
      refine ⟨true, ?_, False.elim⟩
      show update (s.clearOnCpu o).threads t _ t = _
      rw [update_self, hb]
    · obtain ⟨b, hb, hkeeps⟩ := hthreads x
      refine ⟨b, ?_, fun hp => hkeeps (hkept ho hp)⟩
      show update (s.clearOnCpu o).threads t _ x = _
      rw [update_of_ne (hne x hx), hb]

theorem switchIdle_switched (hc : s.picked c = none) :
    Switched s c none (s.switchIdle c) := by
  unfold switchIdle
  rw [hc, if_neg (by simp)]
  obtain ⟨o, ho, heq⟩ := schedOncpuDeferClear_switched s c (s.currentThread c)
  obtain ⟨hq, hr, hon, -, -, hpick⟩ := clearOnCpu_eq s o
  rw [heq]
  refine ⟨hq, hr, hon, rfl, rfl, ?_, fun x hx => by simp at hx, fun x _ => ?_⟩
  · rw [hpick, ← hc, update_eq_self]
  · obtain ⟨b, hb, hkeeps⟩ := clearOnCpu_threads s o x
    refine ⟨b, hb, fun hp => hkeeps ?_⟩
    rcases ho with rfl | rfl
    · simp
    · exact hp

section
variable (hs : Sound s L)
include hs

theorem Sound.switched {t : Option (Fin n)} (h : Switched s c t s')
    (ht : s.picked c = t) {p : Prop} : Keeps s L p s' := by
  have hl := hs.toLinked.congr h.queues h.readyCount fun _ hc => h.online ▸ hc
  exact ⟨L, hs.of_linked hl h.sleepUntil, fun he _ => he.switched h ht⟩

theorem Sound.flush (c : Cpu) : Keeps s L p (s.schedOncpuFlush c) := by
  unfold schedOncpuFlush
  have hclear := clearOnCpu_eq s (s.oncpuPending c)
  have hthreads := clearOnCpu_threads s (s.oncpuPending c)
  generalize s.clearOnCpu (s.oncpuPending c) = s₁ at hclear hthreads ⊢
  obtain ⟨hq, hr, ho, hcur, hpend, hpick⟩ := hclear
  refine ⟨L, hs.of_linked (hs.toLinked.congr hq hr fun _ hc => ho ▸ hc) fun x => ?_, fun he _ => ?_⟩
  · obtain ⟨_, hx, -⟩ := hthreads x
    rw [hx]
  have hlive : ∀ c' x, Live { s₁ with oncpuPending := update s₁.oncpuPending c none } c' x →
      s.Live c' x ∧ (s.oncpuPending c = some x → c' ≠ c) := by
    intro c' x hl
    unfold Live at hl ⊢
    dsimp only at hl
    rw [hcur, hpend] at hl
    rcases eq_or_ne c' c with rfl | hc
    · have hl := hl.resolve_right (by simp)
      exact ⟨.inl hl, fun hp => absurd hl (he.apart c' x hp)⟩
    · rw [update_of_ne hc] at hl
      exact ⟨hl, fun _ => hc⟩
  refine he.weaken (fun c' x hl => (hlive c' x hl).1) (fun c' p x hx c'' hl hon => ?_) (fun x hx => ?_)
    (fun c' x hx => ?_) hcur hpick
  · obtain ⟨hl', hne⟩ := hlive c'' x hl
    obtain ⟨b, hb, hkeeps⟩ := hthreads x
    rw [hb, ← hon]
    exact hkeeps fun hp => hne hp (he.one c'' c x hl' (.inr hp))
  · obtain ⟨_, hx', -⟩ := hthreads x
    exact (waits_congr (by rw [hx'])).trans hx
  · simp only [hpend, update_apply, Option.ite_none_left_eq_some] at hx
    exact hx.2

theorem Sound.bringUp (c : Cpu) : Keeps s L p { s with online := update s.online c true } := by
  refine ⟨L, ⟨hs.toLinked.congr rfl rfl fun c' hc => ?_, hs.sorted⟩, fun he _ =>
    ⟨he.flags, he.ready, he.one, he.apart, he.hands, he.oneHand⟩⟩
  simp [update_apply, hc]

end

theorem Keeps.imp {p q : Prop} (h : Keeps s L p s') (hpq : q → p) : Keeps s L q s' := by
  obtain ⟨L', hs, he⟩ := h
  exact ⟨L', hs, fun hx hq => he hx (hpq hq)⟩

/-! ### Steps and runs -/

/-- What an event can do. -/
inductive Acts (s : Scheduler n) (L : Queue → List (Fin n)) (e : Event n) : Scheduler n → Prop
  | same : Acts s L e s
  /-- A thread that does not wait any more comes into a ready queue. -/
  | ready {x : Fin n} {q : Cpu} {i : Prio} {s₁ L₁} (hm : Moves s L x (some (.ready q i)) s₁ L₁)
      (hwaits : s₁.waits x = false) (hflag : s.flagged e → s.Flagged x)
      (hpicked : Exclusive s L → ∀ c, s.picked c ≠ some x) : Acts s L e s₁
  /-- A ready thread is linked again. -/
  | again {x : Fin n} {q q₁ : Cpu} {i i₁ : Prio} {s₁ L₁} (hin : x ∈ L (.ready q i))
      (hm : Moves s L x (some (.ready q₁ i₁)) s₁ L₁)
      (hstate : (s₁.threads x).state = (s.threads x).state) : Acts s L e s₁
  | out {x : Fin n} {s₁ L₁} (hm : Moves s L x none s₁ L₁)
      (hstate : (s₁.threads x).state ≠ .sleeping ∨ e = .remove x)
      (hpicked : Exclusive s L → s₁.waits x = true → ∀ c, s.picked c ≠ some x) : Acts s L e s₁
  | asleep {x : Fin n} {q : Cpu} {ticks ms kpoll s₁ L₁} (he : e = .sleep q ticks ms kpoll)
      (hc : s.currentThread q = some x) (hm : Moves s L x (some .sleeping) s₁ L₁) (hs : Sound s₁ L₁) :
      Acts s L e s₁
  | taken (me : Cpu) {r} (hr : Chosen s L r) : Acts s L e (s.take me r)
  | expired {now} (he : e = .wakeExpired now) : Acts s L e (wakeExpired now n s)
  | polled (he : e = .kpollWake) : Acts s L e s.kpollWake
  /-- Fields of a thread change that no queue depends on. -/
  | touched {x : Fin n} {s₁} (ht : Touches s x s₁) (hl : Linked s₁ L)
      (hsleep : (s₁.threads x).sleepUntil = (s.threads x).sleepUntil)
      (hstate : (s₁.threads x).state = (s.threads x).state ∨ s₁.waits x = false)
      (hpoll : (s₁.threads x).kpollWaiting = (s.threads x).kpollWaiting ∨
        ∃ c, e = .kpollDone c ∧ s.currentThread c = some x) : Acts s L e s₁
  | switched {q : Cpu} {o : Option (Fin n)} {s₁} (h : Switched s q o s₁) (hc : s.picked q = o) : Acts s L e s₁
  | flushed (q : Cpu) : Acts s L e (s.schedOncpuFlush q)
  | online (q : Cpu) : Acts s L e { s with online := Function.update s.online q true }

section
variable {e : Event n}

/-- A section of the current thread. -/
theorem Acts.onCurrent {f : Scheduler n → Fin n → Scheduler n}
    (h : ∀ t, s.currentThread c = some t → Acts s L e (f s t)) : Acts s L e (s.onCurrent c f) := by
  unfold Scheduler.onCurrent
  cases hc : s.currentThread c with
  | none => exact .same
  | some t => exact h t hc

theorem Acts.woken {s₀ : Scheduler n} (h₀ : Touches s t s₀) (hl₀ : Linked s₀ L) (hwaits : s.waits t = true)
    (hflag : s.flagged e → s.Flagged t) : Acts s L e (s₀.makeReady t) := by
  obtain ⟨c, p, L', hm, -, hw⟩ := h₀.woken hl₀
  exact .ready hm hw hflag fun he => he.not_picked_of_waits hwaits

variable (hl : Linked s L)
include hl

theorem Acts.set (t : Fin n) {f : Thread → Thread}
    (hkept : ∀ x, (f x).onCpu = x.onCpu ∧ (f x).sleepUntil = x.sleepUntil)
    (hstate : (f (s.threads t)).state = (s.threads t).state ∨
      (f (s.threads t)).state ≠ .sleeping ∧ (f (s.threads t)).state ≠ .blocked)
    (hpoll : (f (s.threads t)).kpollWaiting = (s.threads t).kpollWaiting ∨
      ∃ c, e = .kpollDone c ∧ s.currentThread c = some t) : Acts s L e (s.setThread t f) := by
  have hself := setThread_self s t f
  refine .touched (.setThread s t fun x => (hkept x).1) (hl.congr rfl rfl fun _ => id) ?_ ?_ ?_
  · rw [hself, (hkept _).2]
  · exact hstate.imp (hself ▸ ·) fun h => waits_of_state (hself ▸ h.1) (hself ▸ h.2)
  · rwa [hself]

theorem Acts.setOut (hc : s.currentThread c = some t) {st : State} (hst : st ≠ .sleeping) :
    Acts s L e ((s.schedulerRemoveThread t).setState t st) := by
  refine .out ((hl.schedulerRemoveThread t).setThread fun _ => rfl) (.inl ?_) fun he _ =>
    he.not_picked_of_live (.inl hc)
  rw [setState, setThread_self]
  exact hst

theorem Acts.setPriority (t : Fin n) (priority : Int) : Acts s L e (s.threadSetPriority t priority) := by
  obtain ⟨home, hself⟩ := readyUnlink_self s t
  unfold Scheduler.threadSetPriority
  obtain ⟨htouch, ⟨hr, ⟨c, p, hin⟩, hl'⟩ | ⟨hr, -, hl'⟩⟩ := hl.readyUnlink t
  · rw [if_pos hr]
    -- The thread was ready: it is taken out and added again.
    have hm := (hl.taken htouch hl').setThread (f := fun x => { x with priority := priority }) fun _ => rfl
    obtain ⟨c', p', L', hm'⟩ := hm.linked.schedulerAddThread fun q hmem => by
      cases (hm.here q).1 hmem
    refine .again hin (hm.trans hm') ?_
    rw [schedulerAddThread_state, setThread_self, hself]
  · rw [if_neg (by rw [hr]; decide)]
    refine .touched (htouch.trans (.setThread _ t fun _ => rfl)) (hl'.congr rfl rfl fun _ => id) ?_
      (.inl ?_) (.inl ?_) <;> rw [setThread_self, hself]

end

theorem Sound.acts (hs : Sound s L) {e : Event n} (h : s.addedOnce e) : Acts s L e (s.step e) := by
  have hl := hs.toLinked
  cases e with
  | add t =>
    obtain ⟨hq, hpicked, hwaits⟩ := h
    obtain ⟨c, p, L', hm⟩ := hl.schedulerAddThread (hl.not_queued hq)
    exact .ready hm ((waits_congr (schedulerAddThread_state s t)).trans hwaits) id fun _ => hpicked
  | remove t =>
    refine .out (hl.schedulerRemoveThread t) (.inr rfl) fun he hwaits => he.not_picked_of_waits ?_
    exact (waits_congr (schedulerRemoveThread_state s t)).symm.trans hwaits
  | getNext me => exact .taken me (hl.schedulerGetNextThread me)
  | getNextKernel me => exact .taken me hl.schedulerGetNextKernelThread
  | pickUser me => exact .taken me (hl.schedulerPickUserThread me)
  | pickPreempt me => exact .taken me (hl.schedulerPickPreemptThread me)
  | sleep c ticks ms kpoll =>
    show Acts s L _ (s.onCurrent c fun s t => s.sleep t ((ticks + ms) % 2 ^ 64) kpoll)
    refine .onCurrent fun t hc => ?_
    obtain ⟨L', hm, hs', -⟩ := hs.sleep t ((ticks + ms) % 2 ^ 64) kpoll
    exact .asleep rfl hc hm hs'
  | wakeExpired now => exact .expired rfl
  | wake t =>
    show Acts s L _ (s.threadWake t)
    unfold Scheduler.threadWake
    split
    · next hwaits => exact .woken (.refl s t) hl hwaits id
    · exact .same
  | wakeBlocked t =>
    show Acts s L _ (s.threadWakeBlocked t)
    unfold Scheduler.threadWakeBlocked
    by_cases hwaits : s.waits t = true
    · rw [if_pos hwaits]
      split
      · exact .woken (.setThread s t fun _ => rfl) (hl.congr rfl rfl fun _ => id) hwaits id
      · exact .woken (.refl s t) hl hwaits id
    · rw [if_neg hwaits, if_neg]
      · exact .same
      · exact fun hstate => hwaits (by unfold waits; simp [hstate])
  | kpollWake => exact .polled rfl
  | block | unblock => exact .onCurrent fun t hc => .setOut hl hc (by decide)
  | kwaitEnd c =>
    refine .onCurrent fun t hc => ?_
    unfold threadKwaitEnd
    split
    · exact .setOut hl hc (by decide)
    · exact .same
  | setPriority t priority => exact .setPriority hl t priority
  | switchTo c coop =>
    show Acts s L _ (s.switchTo c coop)
    cases hc : s.picked c with
    | none =>
      unfold switchTo
      rw [hc]
      exact .same
    | some t => exact .switched (switchTo_switched hc coop) hc
  | switchIdle c =>
    show Acts s L _ (s.switchIdle c)
    cases hc : s.picked c with
    | none => exact .switched (switchIdle_switched hc) hc
    | some t =>
      have hsame : s.switchIdle c = s := if_pos (by rw [hc]; rfl)
      rw [hsame]
      exact .same
  | flush c => exact .flushed c
  | markReady c =>
    show Acts s L _ (s.onCurrent c fun s t =>
      if (s.threads t).state = .running then s.setState t .ready else s)
    refine .onCurrent fun t _ => ?_
    split
    · exact .set hl t (fun _ => ⟨rfl, rfl⟩) (.inr ⟨State.noConfusion, State.noConfusion⟩) (.inl rfl)
    · exact .same
  | terminate c =>
    show Acts s L _ (s.onCurrent c fun s t => s.setState t .terminated)
    exact .onCurrent fun t _ => .set hl t (fun _ => ⟨rfl, rfl⟩)
      (.inr ⟨State.noConfusion, State.noConfusion⟩) (.inl rfl)
  | kpollDone c =>
    show Acts s L _ (s.onCurrent c fun s t => s.setThread t fun x => { x with kpollWaiting := false })
    exact .onCurrent fun t hc => .set hl t (fun _ => ⟨rfl, rfl⟩) (.inl rfl) (.inr ⟨c, rfl, hc⟩)
  | setHome t c =>
    show Acts s L _ (if s.online c then s.setThread t fun x => { x with homeCpu := c } else s)
    split
    · exact .set hl t (fun _ => ⟨rfl, rfl⟩) (.inl rfl) (.inl rfl)
    · exact .same
  | bringUp c => exact .online c

theorem Sound.step (hs : Sound s L) {e : Event n} (h : s.addedOnce e) :
    Keeps s L (s.flagged e) (s.step e) := by
  have hsleeping : (∀ x, s.member .sleeping x = true → s.Flagged x) → ∀ x ∈ L .sleeping, s.Flagged x :=
    fun h x hx => h x ((hs.member_iff _).2 hx)
  have hact := hs.acts h
  generalize s.step e = s' at hact ⊢
  cases hact with
  | same => exact .refl hs
  | ready hm hwaits hflag hpicked =>
    exact ⟨_, hs.of_moves hm (by simp), fun he hf => he.moves hm (fun _ _ _ => ⟨hwaits, hflag hf⟩) fun _ =>
      hpicked he⟩
  | again hin hm hstate =>
    refine ⟨_, hs.of_moves hm (by simp), fun he _ => he.moves hm (fun _ _ _ => ⟨?_, he.flags _ _ _ hin⟩)
      fun _ => he.not_picked hin⟩
    exact (waits_congr hstate).trans (he.ready _ _ _ hin)
  | out hm hstate hpicked =>
    exact ⟨_, hs.of_moves hm (by simp), fun he _ => he.moves hm (fun _ _ h => by cases h) fun h =>
      hpicked he (h.resolve_left fun h => h rfl)⟩
  | asleep he hc hm hs' =>
    exact ⟨_, hs', fun he _ => he.moves hm (fun _ _ h => by cases h) fun _ => he.not_picked_of_live (.inl hc)⟩
  | taken me hr => exact hs.take hr
  | expired he =>
    subst he
    exact (hs.wakeExpired _ n).imp hsleeping
  | polled he =>
    subst he
    exact hs.kpollWake.imp hsleeping
  | @touched t _ ht hl hsleep hstate hpoll =>
    refine ⟨L, hs.of_linked hl fun x => ?_, fun he _ => he.touched ht fun hw => ?_⟩
    · rcases eq_or_ne x t with rfl | hx
      · exact hsleep
      · rw [ht.threads x hx]
    · exact hstate.elim (fun h => (waits_congr h).trans hw) id
  | switched h hc => exact hs.switched h hc
  | flushed c => exact hs.flush c
  | online c => exact hs.bringUp c

theorem Boot.sound (hs : s.Boot) : Sound s fun _ => [] := by
  refine ⟨⟨⟨fun q => ⟨hs.head q, hs.tail q⟩, fun _ _ _ h => absurd h not_mem_nil⟩, fun c => ?_,
    fun _ _ _ h => absurd h not_mem_nil, hs.bsp⟩, List.Pairwise.nil⟩
  rw [hs.readyCount]
  simp

theorem Boot.exclusive (hs : s.Boot) : Exclusive s fun _ => [] := by
  have hlive : ∀ c x, s.Live c x → c = 0 := by
    intro c x hl
    unfold Live at hl
    rw [hs.pending, hs.current] at hl
    by_contra hc
    simp [hc] at hl
  refine ⟨fun _ _ _ h => absurd h not_mem_nil, fun _ _ _ h => absurd h not_mem_nil,
    fun c c' x h h' => (hlive c x h).trans (hlive c' x h').symm, ?_, ?_, ?_⟩
  · simp [hs.pending]
  · simp [hs.picked]
  · simp [hs.picked]

instance (s : Scheduler n) (e : Event n) : Decidable (s.addedOnce e) :=
  match e with
  | .add t => inferInstanceAs (Decidable (s.queued t = false ∧ (∀ c, s.picked c ≠ some t) ∧
      s.waits t = false))
  | .remove _ | .getNext _ | .getNextKernel _ | .pickUser _ | .pickPreempt _ | .sleep _ _ _ _
  | .wakeExpired _ | .wake _ | .wakeBlocked _ | .kpollWake | .block _ | .unblock _ | .kwaitEnd _
  | .setPriority _ _ | .switchTo _ _ | .switchIdle _ | .flush _ | .markReady _ | .terminate _
  | .kpollDone _ | .setHome _ _ | .bringUp _ => inferInstanceAs (Decidable True)

instance (s : Scheduler n) (e : Event n) : Decidable (s.flagged e) :=
  match e with
  | .add t | .wake t | .wakeBlocked t => inferInstanceAs (Decidable (s.Flagged t))
  | .wakeExpired _ | .kpollWake =>
    inferInstanceAs (Decidable (∀ t, s.member .sleeping t = true → s.Flagged t))
  | .remove _ | .getNext _ | .getNextKernel _ | .pickUser _ | .pickPreempt _ | .sleep _ _ _ _
  | .block _ | .unblock _ | .kwaitEnd _ | .setPriority _ _ | .switchTo _ _ | .switchIdle _
  | .flush _ | .markReady _ | .terminate _ | .kpollDone _ | .setHome _ _ | .bringUp _ =>
    inferInstanceAs (Decidable True)

end Scheduler

open Scheduler

/-- **Scheduler queues.** In every run from boot that adds no thread twice the queues are
sound. If besides no live thread comes into a ready queue with its flag clear, a thread
chosen to run is in no queue and live on no CPU. -/
theorem queues_sound {n : Nat} {s : Scheduler n} (hs : s.Boot) (es : List (Event n)) :
    (Along step addedOnce s es → ∃ L, Sound (s.run es) L) ∧
    (Along step (fun s e => addedOnce s e ∧ flagged s e) s es →
      ∃ L, Sound (s.run es) L ∧ ∀ c t, (s.run es).picked c = some t →
        (∀ q, t ∉ L q) ∧ ∀ c', (s.run es).currentThread c' ≠ some t) := by
  constructor
  · intro h
    have hstep : ∀ s e, (∃ L, Sound (n := n) s L) → addedOnce s e → ∃ L, Sound (step s e) L := by
      rintro s e ⟨L, hs⟩ he
      obtain ⟨L', hs', -⟩ := hs.step he
      exact ⟨L', hs'⟩
    exact Along.keeps hstep ⟨_, hs.sound⟩ h
  · intro h
    have hstep : ∀ s e, (∃ L, Sound (n := n) s L ∧ Exclusive s L) → addedOnce s e ∧ flagged s e →
        ∃ L, Sound (step s e) L ∧ Exclusive (step s e) L := by
      rintro s e ⟨L, hs, hx⟩ ⟨he, hf⟩
      obtain ⟨L', hs', hx'⟩ := hs.step he
      exact ⟨L', hs', hx' hx hf⟩
    have hinv : ∃ L, Sound (s.run es) L ∧ Exclusive (s.run es) L :=
      Along.keeps hstep ⟨_, hs.sound, hs.exclusive⟩ h
    obtain ⟨L, hs', hx⟩ := hinv
    refine ⟨L, hs', fun c t hp => ?_⟩
    obtain ⟨hq, hl, -⟩ := hx.hands c t hp
    exact ⟨hq, fun c' hc => hl c' (.inl hc)⟩

/-- A kernel thread as `thread_create` leaves it. -/
def created : Thread :=
  { state := .ready, priority := 1, sleepUntil := 0, ownerProcess := false, homeCpu := 0xffffffff,
    hasSavedContext := true, onCpu := false, kpollWaiting := false }

/-- Two CPUs; thread 0 is the one the system booted on. -/
def booted : Scheduler 3 :=
  { threads := fun t => if t = 0 then { created with state := .running, priority := 3, homeCpu := 0 }
      else created
    queues := ⟨fun _ => none, fun _ => none, fun _ => none, fun _ => none⟩
    readyCount := fun _ => 0
    online := fun c => c = 0 ∨ c = 1
    currentThread := fun c => if c = 0 then some 0 else none
    oncpuPending := fun _ => none
    picked := fun _ => none
    kmain := some 0 }

theorem booted_boot : booted.Boot where
  head _ := rfl
  tail _ := rfl
  readyCount _ := rfl
  bsp := rfl
  current := rfl
  pending _ := rfl
  picked _ := rfl
  onCpu := by decide

/-- A thread is added for CPU 1, which chooses it. -/
def firstChoice : List (Event 3) := [.setHome 2 1, .add 2, .pickPreempt 1]

theorem queues_sound_first :
    (booted.run firstChoice).picked 1 = some 2 ∧ (∃ L, Sound (booted.run firstChoice) L) ∧
      ∃ L, Sound (booted.run firstChoice) L ∧ ∀ c t, (booted.run firstChoice).picked c = some t →
        (∀ q, t ∉ L q) ∧ ∀ c', (booted.run firstChoice).currentThread c' ≠ some t :=
  ⟨by decide +kernel, (queues_sound booted_boot firstChoice).1 (by decide +kernel),
    (queues_sound booted_boot firstChoice).2 (by decide +kernel)⟩

/-- CPU 1 runs thread 2. The boot thread yields on CPU 0: thread 1 is chosen and the boot
thread is added to the ready queue. Before CPU 0 has switched, thread 2 yields on CPU 1. -/
def twoYields : List (Event 3) :=
  firstChoice ++ [.switchTo 1 false, .add 1, .getNextKernel 0, .markReady 0, .add 0,
    .getNextKernel 1]

/-- CPU 1 is given the boot thread, whose flag was never set, while CPU 0 is running it. -/
theorem boot_thread_stolen :
    booted.Boot ∧ Along step addedOnce booted twoYields ∧
      (booted.run twoYields).picked 1 = some 0 ∧ (booted.run twoYields).currentThread 0 = some 0 := by
  refine ⟨booted_boot, ?_, ?_, ?_⟩
  · decide +kernel
  · decide +kernel
  · decide +kernel

end InDevOS.Sched
