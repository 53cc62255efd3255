import InDevOS.Sched.Queues

/-! What every section of the scheduler does to the queues.

`Sound s L` says that the queues of `s` are the lists `L`. Whatever a section does, it does
to one thread at a time: it takes the thread out of the queue it is in and possibly links it
into another. `Moves s L t dest s' L'` says exactly that: thread `t` ends up in `dest` and
all others are where they were. -/
namespace InDevOS.Sched
open Lib Function List

namespace Scheduler
variable {n : Nat} {s s' : Scheduler n} {L L' : Queue → List (Fin n)} {t : Fin n}

/-- The queues are `L`: linked in both directions, no thread twice, and the ready queues
counted, those of CPUs online only. -/
structure Linked (s : Scheduler n) (L : Queue → List (Fin n)) : Prop where
  holds : s.queues.Holds L
  count : ∀ c, s.readyCount c = ∑ p, (L (.ready c p)).length
  served : ∀ c p x, x ∈ L (.ready c p) → s.online c = true
  bsp : s.online 0 = true

/-- Threads in the order of their wake-up times. -/
def Sorted (s : Scheduler n) (l : List (Fin n)) : Prop :=
  l.Pairwise fun a b => (s.threads a).sleepUntil ≤ (s.threads b).sleepUntil

/-- The queues are `L`, and the sleeping queue is sorted. -/
structure Sound (s : Scheduler n) (L : Queue → List (Fin n)) : Prop extends Linked s L where
  sorted : Sorted s (L .sleeping)

/-- Thread `t` now is in `dest`; nothing else moved, and no other thread changed. -/
structure Moves (s : Scheduler n) (L : Queue → List (Fin n)) (t : Fin n) (dest : Option Queue)
    (s' : Scheduler n) (L' : Queue → List (Fin n)) : Prop where
  linked : Linked s' L'
  here : ∀ q, t ∈ L' q ↔ dest = some q
  elsewhere : ∀ x, x ≠ t → ∀ q, x ∈ L' q ↔ x ∈ L q
  asleep : dest ≠ some .sleeping → L' .sleeping = (L .sleeping).erase t
  threads : ∀ x, x ≠ t → s'.threads x = s.threads x
  onCpu : (s'.threads t).onCpu = (s.threads t).onCpu
  current : s'.currentThread = s.currentThread
  pending : s'.oncpuPending = s.oncpuPending
  picked : s'.picked = s.picked

/-! ### Fields -/

section
variable (s : Scheduler n)

section
variable (t : Fin n)

@[simp] theorem setThread_self (f : Thread → Thread) :
    (s.setThread t f).threads t = f (s.threads t) := update_self ..

theorem setThread_of_ne {t x : Fin n} (f : Thread → Thread) (h : x ≠ t) :
    (s.setThread t f).threads x = s.threads x := update_of_ne h ..

@[simp] theorem assignHomeCpu_queues : (s.assignHomeCpu t).queues = s.queues := by
  unfold assignHomeCpu
  split <;> rfl

@[simp] theorem assignHomeCpu_readyCount : (s.assignHomeCpu t).readyCount = s.readyCount := by
  unfold assignHomeCpu
  split <;> rfl

@[simp] theorem assignHomeCpu_online : (s.assignHomeCpu t).online = s.online := by
  unfold assignHomeCpu
  split <;> rfl

theorem assignHomeCpu_self :
    ∃ c, (s.assignHomeCpu t).threads t = { s.threads t with homeCpu := c } := by
  unfold assignHomeCpu
  split
  · exact ⟨_, setThread_self ..⟩
  · exact ⟨_, rfl⟩

theorem assignHomeCpu_state : ((s.assignHomeCpu t).threads t).state = (s.threads t).state := by
  obtain ⟨c, h⟩ := assignHomeCpu_self s t
  rw [h]

end

end

/-- A section that changes nothing but thread `t`, whose flag it leaves. -/
structure Touches (s : Scheduler n) (t : Fin n) (s' : Scheduler n) : Prop where
  threads : ∀ x, x ≠ t → s'.threads x = s.threads x
  onCpu : (s'.threads t).onCpu = (s.threads t).onCpu
  current : s'.currentThread = s.currentThread
  pending : s'.oncpuPending = s.oncpuPending
  picked : s'.picked = s.picked

theorem Touches.refl (s : Scheduler n) (t : Fin n) : Touches s t s :=
  ⟨fun _ _ => rfl, rfl, rfl, rfl, rfl⟩

theorem Touches.trans {s'' : Scheduler n} (h : Touches s t s') (h' : Touches s' t s'') :
    Touches s t s'' :=
  ⟨fun x hx => (h'.threads x hx).trans (h.threads x hx), h'.onCpu.trans h.onCpu,
    h'.current.trans h.current, h'.pending.trans h.pending, h'.picked.trans h.picked⟩

theorem Touches.setThread (s : Scheduler n) (t : Fin n) {f : Thread → Thread}
    (hf : ∀ x, (f x).onCpu = x.onCpu) : Touches s t (s.setThread t f) :=
  ⟨fun _ hx => setThread_of_ne s f hx, by rw [setThread_self, hf], rfl, rfl, rfl⟩

theorem Touches.assignHomeCpu (s : Scheduler n) (t : Fin n) : Touches s t (s.assignHomeCpu t) := by
  unfold Scheduler.assignHomeCpu
  split
  · exact .setThread s t fun _ => rfl
  · exact .refl s t

theorem Touches.of_eq (h : s'.threads = s.threads) (hc : s'.currentThread = s.currentThread)
    (hp : s'.oncpuPending = s.oncpuPending) (hk : s'.picked = s.picked) : Touches s t s' :=
  ⟨fun _ _ => by rw [h], by rw [h], hc, hp, hk⟩

section
variable {dest : Option Queue}

theorem Moves.of_touches (h : Touches s t s') (hlinked : Linked s' L')
    (here : ∀ q, t ∈ L' q ↔ dest = some q) (elsewhere : ∀ x, x ≠ t → ∀ q, x ∈ L' q ↔ x ∈ L q)
    (asleep : dest ≠ some .sleeping → L' .sleeping = (L .sleeping).erase t) : Moves s L t dest s' L' :=
  ⟨hlinked, here, elsewhere, asleep, h.threads, h.onCpu, h.current, h.pending, h.picked⟩

theorem Moves.touches (h : Moves s L t dest s' L') : Touches s t s' :=
  ⟨h.threads, h.onCpu, h.current, h.pending, h.picked⟩

theorem Moves.trans {s'' : Scheduler n} {L'' : Queue → List (Fin n)}
    (h : Moves s L t none s' L') (h' : Moves s' L' t dest s'' L'') : Moves s L t dest s'' L'' := by
  refine .of_touches (h.touches.trans h'.touches) h'.linked h'.here
    (fun x hx q => (h'.elsewhere x hx q).trans (h.elsewhere x hx q)) fun hdest => ?_
  have hnot : t ∉ L' .sleeping := fun hmem => by cases (h.here .sleeping).1 hmem
  rw [h'.asleep hdest, erase_of_not_mem hnot, h.asleep (by simp)]

/-- The threads still asleep are sorted if they were, the thread that moved left aside. -/
theorem Moves.sorted (h : Moves s L t dest s' L') (hnodup : (L .sleeping).Nodup)
    (hdest : dest ≠ some .sleeping) (hs : Sorted s ((L .sleeping).erase t)) : Sorted s' (L' .sleeping) := by
  rw [h.asleep hdest]
  refine List.Pairwise.imp_of_mem ?_ hs
  intro a b ha hb hab
  rw [h.threads a (hnodup.mem_erase_iff.1 ha).1, h.threads b (hnodup.mem_erase_iff.1 hb).1]
  exact hab

end

theorem Linked.length_le (hs : Linked s L) (q : Queue) : (L q).length ≤ n := by
  have := (hs.holds.nodup q).length_le_card
  rwa [Fintype.card_fin] at this

theorem Linked.unique (hs : Linked s L) {q q' : Queue} (h : t ∈ L q) (h' : t ∈ L q') : q = q' :=
  hs.holds.disjoint q q' t h h'

theorem Linked.congr (hs : Linked s L) (hq : s'.queues = s.queues)
    (hc : s'.readyCount = s.readyCount) (ho : ∀ c, s.online c = true → s'.online c = true) :
    Linked s' L :=
  ⟨hq ▸ hs.holds, hc ▸ hs.count, fun c p x hx => ho c (hs.served c p x hx), ho 0 hs.bsp⟩

theorem Linked.assignHomeCpu (hs : Linked s L) (t : Fin n) : Linked (s.assignHomeCpu t) L :=
  hs.congr (assignHomeCpu_queues s t) (assignHomeCpu_readyCount s t) fun c => by
    rw [assignHomeCpu_online]
    exact id

theorem Linked.member_iff (hs : Linked s L) (q : Queue) : s.member q t = true ↔ t ∈ L q := by
  unfold member
  rw [walk_eq_find (hs.holds.forward q) (hs.length_le q), find?_isSome]
  simp

/-! ### Linking and unlinking -/

/-- Replacing one ready queue changes the count of its CPU by the difference in length. -/
theorem sum_update (L : Queue → List (Fin n)) (c : Cpu) (p : Prio) (l : List (Fin n)) :
    ∑ p', (update L (.ready c p) l (.ready c p')).length + (L (.ready c p)).length =
      ∑ p', (L (.ready c p')).length + l.length := by
  have hfun : (fun p' => (update L (.ready c p) l (.ready c p')).length) =
      update (fun p' => (L (.ready c p')).length) p l.length := by
    funext p'
    by_cases hp : p' = p
    · rw [hp, update_self, update_self]
    · rw [update_of_ne hp, update_of_ne (by simp [hp])]
  rw [hfun, Finset.sum_update_of_mem (Finset.mem_univ p),
    ← Finset.add_sum_erase Finset.univ _ (Finset.mem_univ p), Finset.sdiff_singleton_eq_erase]
  omega

theorem sum_update_of_ne (L : Queue → List (Fin n)) {c c' : Cpu} (h : c' ≠ c) (p : Prio)
    (l : List (Fin n)) :
    ∑ p', (update L (.ready c p) l (.ready c' p')).length =
      ∑ p', (L (.ready c' p')).length := by
  refine Finset.sum_congr rfl fun p' _ => ?_
  rw [update_of_ne (by simp [h])]

theorem mem_update_insert {q₀ : Queue} {l₁ l₂ : List (Fin n)} (hq : L q₀ = l₁ ++ l₂) {q : Queue}
    {x : Fin n} : x ∈ update L q₀ (l₁ ++ t :: l₂) q ↔ x ∈ L q ∨ x = t ∧ q = q₀ := by
  by_cases hqq : q = q₀
  · subst hqq
    rw [update_self, hq]
    simp only [mem_append, mem_cons, and_true]
    tauto
  · simp [hqq]

theorem Linked.link (hs : Linked s L) {c : Cpu} {p : Prio} {l₁ l₂ : List (Fin n)}
    (hq : L (.ready c p) = l₁ ++ l₂) (ht : ∀ q, t ∉ L q) (hc : s.online c = true) :
    Moves s L t (some (.ready c p)) (s.link c p l₁.getLast? l₂.head? t)
      (update L (.ready c p) (l₁ ++ t :: l₂)) := by
  refine .of_touches (.of_eq rfl rfl rfl rfl) ⟨hs.holds.insert hq ht, fun c' => ?_, ?_, hs.bsp⟩
    (fun q => ?_) (fun x hx q => ?_) fun _ => ?_
  · by_cases hcc : c' = c
    · subst hcc
      have hsum := sum_update L c' p (l₁ ++ t :: l₂)
      have hcount := hs.count c'
      rw [hq] at hsum
      simp only [length_append, length_cons] at hsum
      simp only [Scheduler.link, update_self]
      omega
    · simp only [Scheduler.link, update_of_ne hcc, sum_update_of_ne L hcc]
      exact hs.count c'
  · intro c' p' x hx
    obtain hx | ⟨-, hq'⟩ := (mem_update_insert hq).1 hx
    · exact hs.served c' p' x hx
    · cases hq'
      exact hc
  · rw [mem_update_insert hq]
    simp [ht q, eq_comm]
  · rw [mem_update_insert hq]
    simp [hx]
  · rw [update_of_ne (by simp), erase_of_not_mem (ht .sleeping)]

/-- All lists without a thread. -/
def without (t : Fin n) (L : Queue → List (Fin n)) : Queue → List (Fin n) := fun q => (L q).erase t

theorem Linked.update_erase (hs : Linked s L) {q : Queue} (hq : t ∈ L q) :
    update L q ((L q).erase t) = without t L := by
  funext q'
  by_cases hqq : q' = q
  · rw [hqq, update_self, without]
  · rw [update_of_ne hqq, without, erase_of_not_mem]
    exact fun ht => hqq (hs.unique ht hq)

theorem Linked.mem_without (hs : Linked s L) {q : Queue} {x : Fin n} :
    x ∈ without t L q ↔ x ≠ t ∧ x ∈ L q := (hs.holds.nodup q).mem_erase_iff

theorem Linked.taken (hs : Linked s L) (h : Touches s t s') (hs' : Linked s' (without t L)) :
    Moves s L t none s' (without t L) := by
  refine .of_touches h hs' (fun q => ?_) (fun x hx q => ?_) fun _ => rfl
  · rw [hs.mem_without]
    simp
  · rw [hs.mem_without]
    simp [hx]

theorem Linked.without_eq (_ : Linked s L) (ht : ∀ q, t ∉ L q) : without t L = L := by
  funext q
  exact erase_of_not_mem (ht q)

theorem Linked.unlinkReady (hs : Linked s L) {c : Cpu} {p : Prio} (ht : t ∈ L (.ready c p)) :
    Linked (s.unlinkReady c p t) (without t L) := by
  rw [← hs.update_erase ht]
  have hlen : ((L (.ready c p)).erase t).length + 1 = (L (.ready c p)).length := by
    have := length_erase_of_mem ht
    have := length_pos_of_mem ht
    omega
  refine ⟨hs.holds.remove ht, fun c' => ?_, fun c' p' x hx => ?_, hs.bsp⟩
  · by_cases hcc : c' = c
    · subst hcc
      have hsum := sum_update L c' p ((L (.ready c' p)).erase t)
      have hcount := hs.count c'
      simp only [Scheduler.unlinkReady, update_self]
      omega
    · simp only [Scheduler.unlinkReady, update_of_ne hcc, sum_update_of_ne L hcc]
      exact hs.count c'
  · rw [hs.update_erase ht] at hx
    exact hs.served c' p' x (hs.mem_without.1 hx).2

theorem Linked.removeOther (hs : Linked s L) {q : Queue} (hq : ∀ c p, q ≠ .ready c p)
    (ht : t ∈ L q) : Linked { s with queues := s.queues.remove q t } (without t L) := by
  have hready : ∀ c p, without t L (.ready c p) = L (.ready c p) := fun c p =>
    erase_of_not_mem fun h => hq c p (hs.unique ht h)
  refine ⟨hs.update_erase ht ▸ hs.holds.remove ht, fun c => ?_, fun c p x hx => ?_, hs.bsp⟩
  · simp only [hready]
    exact hs.count c
  · exact hs.served c p x (hs.mem_without.1 hx).2

theorem mem_readyQueues (hc : s.online c = true) (p : Prio) : (c, p) ∈ s.readyQueues t := by
  unfold readyQueues
  rw [mem_flatMap]
  refine ⟨c, mem_cons_of_mem _ (mem_filter.2 ⟨mem_finRange c, hc⟩), ?_⟩
  exact mem_map.2 ⟨p, mem_finRange p, rfl⟩

theorem Linked.readyUnlink (hs : Linked s L) (t : Fin n) :
    Touches s t (s.readyUnlink t).2 ∧
      ((s.readyUnlink t).1 = true ∧ (∃ c p, t ∈ L (.ready c p)) ∧
          Linked (s.readyUnlink t).2 (without t L) ∨
        (s.readyUnlink t).1 = false ∧ (∀ c p, t ∉ L (.ready c p)) ∧
          Linked (s.readyUnlink t).2 L) := by
  have hs' := hs.assignHomeCpu t
  have htouch := Touches.assignHomeCpu s t
  unfold Scheduler.readyUnlink
  generalize s.assignHomeCpu t = s' at hs' htouch
  dsimp only
  cases hfind : (s'.readyQueues t).find? fun cp => s'.member (.ready cp.1 cp.2) t with
  | none =>
    refine ⟨htouch, .inr ⟨rfl, fun c p hmem => ?_, hs'⟩⟩
    have := find?_eq_none.1 hfind (c, p) (mem_readyQueues (hs'.served c p t hmem) p)
    exact this ((hs'.member_iff _).2 hmem)
  | some cp =>
    have hfound := find?_some hfind
    have hmem := (hs'.member_iff _).1 hfound
    exact ⟨htouch.trans (.of_eq rfl rfl rfl rfl), .inl ⟨rfl, ⟨cp.1, cp.2, hmem⟩,
      hs'.unlinkReady hmem⟩⟩

theorem Linked.queueUnlink (hs : Linked s L) {q : Queue} (hq : ∀ c p, q ≠ .ready c p) (t : Fin n) :
    Touches s t (s.queueUnlink q t).2 ∧
      ((s.queueUnlink q t).1 = true ∧ Linked (s.queueUnlink q t).2 (without t L) ∨
        (s.queueUnlink q t).1 = false ∧ t ∉ L q ∧ (s.queueUnlink q t).2 = s) := by
  unfold Scheduler.queueUnlink
  split_ifs with hmem
  · have hin := (hs.member_iff q).1 hmem
    exact ⟨.of_eq rfl rfl rfl rfl, .inl ⟨rfl, hs.removeOther hq hin⟩⟩
  · exact ⟨.refl s t, .inr ⟨rfl, fun hin => hmem ((hs.member_iff q).2 hin), rfl⟩⟩

/-- `_scheduler_remove_thread_unlocked` takes the thread out of whatever queue it is in. -/
theorem Linked.schedulerRemoveThread (hs : Linked s L) (t : Fin n) :
    Moves s L t none (s.schedulerRemoveThread t) (without t L) := by
  have key : ∃ s', s.schedulerRemoveThread t = { s' with queues := s'.queues.clear t } ∧
      Touches s t s' ∧ Linked s' (without t L) := by
    refine ⟨_, rfl, ?_⟩
    obtain ⟨htouch, ⟨hr, -, hs₁⟩ | ⟨hr, hnot, hs₁⟩⟩ := hs.readyUnlink t
    · rw [if_pos hr]
      exact ⟨htouch, hs₁⟩
    rw [if_neg (by rw [hr]; decide)]
    obtain ⟨htouch₂, ⟨hb, hs₂⟩ | ⟨hb, hnot₂, hb₂⟩⟩ := hs₁.queueUnlink (q := .blocked) (by simp) t
    · rw [if_pos hb]
      exact ⟨htouch.trans htouch₂, hs₂⟩
    rw [if_neg (by rw [hb]; decide), hb₂]
    obtain ⟨htouch₃, ⟨-, hs₃⟩ | ⟨-, hnot₃, hsl⟩⟩ := hs₁.queueUnlink (q := .sleeping) (by simp) t
    · exact ⟨htouch.trans htouch₃, hs₃⟩
    · refine ⟨htouch.trans htouch₃, ?_⟩
      rw [hsl, hs₁.without_eq]
      · exact hs₁
      · intro q
        cases q with
        | ready c p => exact hnot c p
        | sleeping => exact hnot₃
        | blocked => exact hnot₂
  obtain ⟨s', heq, htouch, hs'⟩ := key
  have hnot : ∀ q, t ∉ without t L q := fun q hmem => (hs.mem_without.1 hmem).1 rfl
  rw [heq]
  exact hs.taken (htouch.trans (.of_eq rfl rfl rfl rfl))
    ⟨hs'.holds.clear hnot, hs'.count, hs'.served, hs'.bsp⟩

theorem rqCpu_online (hb : s.online 0 = true) (id : Nat) : s.online (s.rqCpu id) = true := by
  unfold rqCpu
  split
  · split
    · assumption
    · exact hb
  · exact hb

section
variable (hs : Linked s L) (ht : ∀ q, t ∉ L q)
include hs ht

theorem Linked.linkAssigned {p : Prio} {l₁ l₂ : List (Fin n)}
    (hq : L (.ready ((s.assignHomeCpu t).threadRq t) p) = l₁ ++ l₂) :
    ∃ c p' L', Moves s L t (some (.ready c p')) ((s.assignHomeCpu t).link ((s.assignHomeCpu t).threadRq t) p
      l₁.getLast? l₂.head? t) L' := by
  have hs' := hs.assignHomeCpu t
  have hm := hs'.link hq ht (rqCpu_online hs'.bsp _)
  exact ⟨_, _, _, .of_touches ((Touches.assignHomeCpu s t).trans hm.touches) hm.linked hm.here hm.elsewhere
    hm.asleep⟩

theorem Linked.schedulerAddThread : ∃ c p L', Moves s L t (some (.ready c p)) (s.schedulerAddThread t) L' := by
  unfold Scheduler.schedulerAddThread
  dsimp only
  rw [(hs.assignHomeCpu t).holds.tail_eq]
  exact hs.linkAssigned ht (append_nil _).symm

theorem Linked.schedulerAddThreadFront :
    ∃ c p L', Moves s L t (some (.ready c p)) (s.schedulerAddThreadFront t) L' := by
  unfold Scheduler.schedulerAddThreadFront
  dsimp only
  rw [(hs.assignHomeCpu t).holds.head_eq]
  exact hs.linkAssigned ht (nil_append _).symm

end

theorem Moves.setThread {dest : Option Queue} (h : Moves s L t dest s' L') {f : Thread → Thread}
    (hf : ∀ x, (f x).onCpu = x.onCpu) : Moves s L t dest (s'.setThread t f) L' :=
  .of_touches (h.touches.trans (.setThread s' t hf))
    (h.linked.congr rfl rfl fun _ => id) h.here h.elsewhere h.asleep

/-! ### Choosing -/

theorem Linked.search (hs : Linked s L) {c : Cpu} {ok : Fin n → Bool} {x : Cpu × Prio × Fin n}
    (h : s.search c ok = some x) : x.1 = c ∧ x.2.2 ∈ L (.ready x.1 x.2.1) ∧ ok x.2.2 = true := by
  obtain ⟨p, -, hp⟩ := exists_of_findSome?_eq_some h
  rw [walk_eq_find (hs.holds.forward _) (hs.length_le _), Option.map_eq_some_iff] at hp
  obtain ⟨t, ht, rfl⟩ := hp
  exact ⟨rfl, mem_of_find?_eq_some ht, find?_some ht⟩

/-- What is chosen was ready and is asked for, and now is in no queue. -/
theorem Linked.choose (hs : Linked s L) (tries : List (Cpu × (Fin n → Bool))) :
    s.choose tries = (none, s) ∨ ∃ t c p ok, (c, ok) ∈ tries ∧ ok t = true ∧ t ∈ L (.ready c p) ∧
      (s.choose tries).1 = some t ∧ (s.choose tries).2.threads = s.threads ∧
      Moves s L t none (s.choose tries).2 (without t L) := by
  unfold Scheduler.choose
  cases hfind : tries.findSome? fun x => s.search x.1 x.2 with
  | none => exact .inl rfl
  | some x =>
    obtain ⟨⟨c, ok⟩, hmem, hsearch⟩ := exists_of_findSome?_eq_some hfind
    obtain ⟨c', p, t⟩ := x
    obtain ⟨rfl, hin, hok⟩ := hs.search hsearch
    exact .inr ⟨t, c', p, ok, hmem, hok, hin, rfl, rfl,
      hs.taken (.of_eq rfl rfl rfl rfl) (hs.unlinkReady hin)⟩

/-- No test lets a thread through whose context is live on a CPU. -/
theorem offCpu_of_wanted {wantUser kernelOk allowKmain : Bool}
    (h : s.wanted wantUser kernelOk allowKmain t = true) : (s.threads t).onCpu = false := by
  unfold wanted at h
  simp only [Bool.and_eq_true, Bool.not_eq_true'] at h
  exact h.1.1

theorem offCpu_of_kernelThread (h : s.kernelThread t = true) : (s.threads t).onCpu = false := by
  unfold kernelThread at h
  simp only [Bool.and_eq_true, Bool.not_eq_true'] at h
  exact h.2

/-- The outcome of a choice: nothing, or a ready thread that is on no CPU. -/
def Chosen (s : Scheduler n) (L : Queue → List (Fin n)) (r : Option (Fin n) × Scheduler n) : Prop :=
  r = (none, s) ∨ ∃ t c p, (s.threads t).onCpu = false ∧ t ∈ L (.ready c p) ∧
    r.1 = some t ∧ (r.2.threads t).state = (s.threads t).state ∧ Moves s L t none r.2 (without t L)

theorem Linked.chosen (hs : Linked s L) {tries : List (Cpu × (Fin n → Bool))}
    (h : ∀ x ∈ tries, ∀ t, x.2 t = true → (s.threads t).onCpu = false) :
    Chosen s L (s.choose tries) := by
  obtain hnone | ⟨t, c, p, ok, hmem, hok, hin, hsome, hthreads, hm⟩ := hs.choose tries
  · exact .inl hnone
  · exact .inr ⟨t, c, p, h _ hmem t hok, hin, hsome, by rw [hthreads], hm⟩

theorem Linked.schedulerGetNextThread (hs : Linked s L) (me : Cpu) :
    Chosen s L (s.schedulerGetNextThread me) := by
  refine hs.chosen fun x hx t ht => ?_
  obtain ⟨c, -, rfl⟩ := mem_map.1 hx
  exact Bool.not_eq_true' _ |>.mp ht

theorem Linked.schedulerGetNextKernelThread (hs : Linked s L) :
    Chosen s L s.schedulerGetNextKernelThread := by
  refine hs.chosen fun x hx t ht => ?_
  obtain ⟨c, -, rfl⟩ := mem_map.1 hx
  exact offCpu_of_kernelThread ht

theorem Linked.schedulerPickUserThread (hs : Linked s L) (me : Cpu) :
    Chosen s L (s.schedulerPickUserThread me) := by
  refine hs.chosen fun x hx t ht => ?_
  obtain ⟨c, -, rfl⟩ := mem_map.1 hx
  exact offCpu_of_wanted ht

theorem Linked.schedulerPickPreemptThread (hs : Linked s L) (me : Cpu) :
    Chosen s L (s.schedulerPickPreemptThread me) := by
  unfold Scheduler.schedulerPickPreemptThread
  dsimp only
  have hchosen : Chosen s L (s.choose
      ([(me, s.wanted true false false), (me, s.wanted false true (me = 0))] ++
        (s.others me).map (fun c => (c, s.wanted true false false)) ++
        (s.others me).map fun c => (c, s.wanted false true false))) := by
    refine hs.chosen fun x hx t ht => ?_
    simp only [mem_append, mem_cons, mem_map, not_mem_nil, or_false] at hx
    obtain ((rfl | rfl) | ⟨c, -, rfl⟩) | ⟨c, -, rfl⟩ := hx <;> exact offCpu_of_wanted ht
  generalize s.choose _ = r at hchosen ⊢
  obtain rfl | ⟨t, c, p, hoff, hin, hsome, hstate, hm⟩ := hchosen
  · exact .inl rfl
  · rw [hsome]
    exact .inr ⟨t, c, p, hoff, hin, rfl, by rw [setThread_self]; exact hstate,
      hm.setThread (f := fun x => { x with homeCpu := me }) fun _ => rfl⟩

/-! ### Sleeping -/

theorem sorted_insert {α : Type*} {f : α → Nat} {l : List α} {w : Nat} {a : α} (ha : f a = w)
    (h : l.Pairwise fun x y => f x ≤ f y) :
    (l.takeWhile (fun x => f x ≤ w) ++ a :: l.dropWhile fun x => f x ≤ w).Pairwise
      fun x y => f x ≤ f y := by
  have hle : ∀ x ∈ l.takeWhile (fun x => f x ≤ w), f x ≤ w := fun x hx => by
    simpa using mem_takeWhile_imp hx
  have hlt : ∀ x ∈ l.dropWhile (fun x => f x ≤ w), w ≤ f x := by
    -- The first thread that wakes up later is followed by later ones only.
    cases hd : l.dropWhile (fun x => f x ≤ w) with
    | nil => simp
    | cons b l' =>
      have hb : w < f b := by
        have := head?_dropWhile_not (fun x => decide (f x ≤ w)) l
        rw [hd] at this
        simpa using this
      have hsorted : (b :: l').Pairwise fun x y => f x ≤ f y := hd ▸ h.sublist (dropWhile_sublist _)
      intro x hx
      rcases mem_cons.1 hx with rfl | hx
      · omega
      · have := (pairwise_cons.1 hsorted).1 x hx
        omega
  rw [pairwise_append, pairwise_cons]
  refine ⟨h.sublist (takeWhile_sublist _), ⟨fun x hx => ha ▸ hlt x hx,
    h.sublist (dropWhile_sublist _)⟩, fun x hx y hy => ?_⟩
  rcases mem_cons.1 hy with rfl | hy
  · exact ha ▸ hle x hx
  · exact (hle x hx).trans (hlt y hy)

theorem Sound.sleep (hs : Sound s L) (t : Fin n) (w : Nat) (kpoll : Bool) :
    ∃ L', Moves s L t (some .sleeping) (s.sleep t w kpoll) L' ∧ Sound (s.sleep t w kpoll) L' ∧
      ((s.sleep t w kpoll).threads t).state = .sleeping ∧
      (kpoll = true → ((s.sleep t w kpoll).threads t).kpollWaiting = true) := by
  have hm := (hs.schedulerRemoveThread t).setThread (f := fun x => { x with
    state := .sleeping
    sleepUntil := w
    kpollWaiting := if kpoll then true else x.kpollWaiting }) fun _ => rfl
  have hsorted := hm.sorted (hs.holds.nodup _) (by simp) (hs.sorted.sublist erase_sublist)
  unfold Scheduler.sleep
  dsimp only
  have hself : ((s.schedulerRemoveThread t).setThread t fun x => { x with
      state := .sleeping
      sleepUntil := w
      kpollWaiting := if kpoll then true else x.kpollWaiting }).threads t = { (s.schedulerRemoveThread t).threads t with
      state := .sleeping
      sleepUntil := w
      kpollWaiting := if kpoll then true else ((s.schedulerRemoveThread t).threads t).kpollWaiting } :=
    setThread_self ..
  generalize (s.schedulerRemoveThread t).setThread t (fun x => { x with
    state := .sleeping
    sleepUntil := w
    kpollWaiting := if kpoll then true else x.kpollWaiting }) = s₁ at hm hsorted hself ⊢
  have hnot : ∀ q, t ∉ without t L q := fun q hmem => by cases (hm.here q).1 hmem
  rw [place_eq (hm.linked.holds.forward .sleeping) (hm.linked.length_le .sleeping), Option.or_none]
  generalize hl₁ : (without t L .sleeping).takeWhile
    (fun a => decide ((s₁.threads a).sleepUntil ≤ w)) = l₁
  generalize hl₂ : (without t L .sleeping).dropWhile
    (fun a => decide ((s₁.threads a).sleepUntil ≤ w)) = l₂
  have hsplit : without t L .sleeping = l₁ ++ l₂ := by
    rw [← hl₁, ← hl₂, takeWhile_append_dropWhile]
  have hready : ∀ c p, update (without t L) .sleeping (l₁ ++ t :: l₂) (.ready c p) =
      without t L (.ready c p) := fun c p => update_of_ne (by simp) ..
  have hlinked : Linked { s₁ with queues := s₁.queues.insert .sleeping l₁.getLast? l₂.head? t }
      (update (without t L) .sleeping (l₁ ++ t :: l₂)) := by
    refine ⟨hm.linked.holds.insert hsplit hnot, fun c => ?_, fun c p x hx => ?_, hm.linked.bsp⟩
    · exact hm.linked.count c
    · exact hm.linked.served c p x hx
  refine ⟨_, .of_touches (hm.touches.trans (.of_eq rfl rfl rfl rfl)) hlinked (fun q => ?_)
    (fun x hx q => ?_) fun h => absurd rfl h, ⟨hlinked, ?_⟩, ?_, fun hk => ?_⟩
  · rw [mem_update_insert hsplit]
    simp [hnot q, eq_comm]
  · rw [mem_update_insert hsplit, hm.elsewhere x hx q]
    simp [hx]
  · rw [update_self, ← hl₁, ← hl₂]
    exact sorted_insert (by rw [hself]) hsorted
  · show (s₁.threads t).state = _
    rw [hself]
  · show (s₁.threads t).kpollWaiting = _
    rw [hself, hk]
    rfl

/-! ### Waking -/

theorem Linked.popSleeping (hs : Linked s L) (hhead : s.queues.head .sleeping = some t) :
    Moves s L t none (s.popSleeping t) (without t L) := by
  obtain ⟨l, hl⟩ : ∃ l, L .sleeping = t :: l := by
    rw [hs.holds.head_eq] at hhead
    exact ⟨_, (cons_head?_tail hhead).symm⟩
  have hin : t ∈ L .sleeping := hl ▸ mem_cons_self
  have hprev : s.queues.prev t = none := by
    have := hs.holds.list .sleeping
    rw [hl, ← nil_append (t :: l)] at this
    exact this.prev_eq
  have heq : (s.popSleeping t).queues = s.queues.remove .sleeping t := by
    unfold Scheduler.popSleeping Pool.remove Pool.put Links.remove Links.setNext Links.setPrev Pool.view
    dsimp only
    rw [hprev]
    cases s.queues.next t with
    | none => rfl
    | some b =>
      simp only [Pool.clear, update_eq_self]
  have hlinked : Linked (s.popSleeping t) (without t L) :=
    (hs.removeOther (q := .sleeping) (by simp) hin).congr heq rfl fun _ => id
  exact hs.taken (.of_eq rfl rfl rfl rfl) hlinked

theorem Moves.addFront (h : Moves s L t none s' L') :
    ∃ c p L'', Moves s L t (some (.ready c p)) ((s'.setState t .ready).schedulerAddThreadFront t) L'' ∧
      (((s'.setState t .ready).schedulerAddThreadFront t).threads t).state = .ready := by
  have hm := h.setThread (f := fun x => { x with state := .ready }) fun _ => rfl
  have hstate : ((s'.setState t .ready).threads t).state = .ready := by
    rw [setState, setThread_self]
  obtain ⟨c, p, L'', hm'⟩ := hm.linked.schedulerAddThreadFront fun q hmem => by
    cases (hm.here q).1 hmem
  exact ⟨c, p, L'', hm.trans hm', (assignHomeCpu_state _ t).trans hstate⟩

theorem Linked.makeReady (hs : Linked s L) (t : Fin n) :
    ∃ c p L', Moves s L t (some (.ready c p)) (s.makeReady t) L' ∧
      ((s.makeReady t).threads t).state = .ready :=
  (hs.schedulerRemoveThread t).addFront

end Scheduler

end InDevOS.Sched
