import InDevOS.Lib.Steps

/-! Timer descriptors (`lx_timerfd_*` of `linux_syscall.c`).

A timer keeps its next deadline and its interval in microseconds of the monotonic clock,
and evaluates them lazily: whoever looks at it counts the deadlines passed since the last
look with one division. The specification counts deadlines `start + k * interval` in
nanoseconds.

`timerfd_accurate` says that reads report every deadline once and that the remaining time
is right, for settings that are whole microseconds and fit the 64-bit arithmetic. The
clock readings of one call are one instant. -/
namespace InDevOS.Linux
open Lib

/-! ### The source's operations -/

/-- `lx_timespec_t` -/
structure Timespec where
  sec : Int
  nsec : Int

def Timespec.valid (ts : Timespec) : Bool :=
  decide (0 ≤ ts.sec ∧ 0 ≤ ts.nsec ∧ ts.nsec < 1000000000)

def Timespec.isZero (ts : Timespec) : Bool := decide (ts.sec = 0 ∧ ts.nsec = 0)

/-- `(uint64_t)tv_sec * 1000000ULL + (uint64_t)tv_nsec / 1000` -/
def Timespec.us (ts : Timespec) : Nat := (ts.sec.toNat * 1000000 + ts.nsec.toNat / 1000) % 2 ^ 64

def Timespec.ofUs (us : Nat) : Timespec := ⟨us / 1000000, us % 1000000 * 1000⟩

structure Timerfd where
  clock : Nat
  nextUs : Nat
  intervalUs : Nat
  exp : Nat
  gen : Nat

def Timerfd.update (t : Timerfd) (now : Nat) : Timerfd :=
  if t.nextUs = 0 then t
  else if now < t.nextUs then t
  else if t.intervalUs ≠ 0 then
    let k := (now - t.nextUs) / t.intervalUs + 1
    { t with
      exp := (t.exp + k) % 2 ^ 64
      nextUs := (t.nextUs + k * t.intervalUs) % 2 ^ 64
      gen := (t.gen + 1) % 2 ^ 32 }
  else { t with exp := (t.exp + 1) % 2 ^ 64, nextUs := 0, gen := (t.gen + 1) % 2 ^ 32 }

/-- `lx_tfd_cur`: the interval and the remaining time. -/
def Timerfd.cur (t : Timerfd) (now : Nat) : Timespec × Timespec :=
  let left := if t.nextUs ≠ 0 then if t.nextUs > now then t.nextUs - now else 1 else 0
  (.ofUs t.intervalUs, .ofUs left)

def Timerfd.realtime (t : Timerfd) : Bool := t.clock == 0 || t.clock == 8

/-- The first deadline of an absolute setting. -/
def absoluteUs (abs nowC mono : Nat) : Nat :=
  let next :=
    if abs > nowC then (mono + (abs - nowC)) % 2 ^ 64
    else if nowC - abs < mono then mono - (nowC - abs) else 1
  if next = 0 then 1 else next

/-- `lx_timerfd_settime` at the times `mono` and `real` of the two clocks, with the old
setting; `none` is `-EINVAL`. -/
def Timerfd.settime (t : Timerfd) (flags : Nat) (interval value : Timespec) (mono real : Nat) :
    Option (Timerfd × Timespec × Timespec) :=
  if flags ≥ 4 || !interval.valid || !value.valid then none
  else
    let iv := if interval.us = 0 && !interval.isZero then 1 else interval.us
    let v := if value.us = 0 && !value.isZero then 1 else value.us
    let t := t.update mono
    let next :=
      if v = 0 && value.isZero then 0
      else if flags % 2 = 1 then absoluteUs value.us (if t.realtime then real else mono) mono
      else (mono + v) % 2 ^ 64
    some ({ t with exp := 0, intervalUs := iv, nextUs := next }, t.cur mono)

/-! ### Observations -/

/-- A look at the timer: a read that consumes the count, a query, or a poll. -/
inductive Look
  | read (now : Nat)
  | gettime (now : Nat)
  | poll (now : Nat)

def Look.now : Look → Nat
  | .read now | .gettime now | .poll now => now

/-- The timer with the sum of what reads have reported and the time of the last look. -/
structure Watch where
  timer : Timerfd
  reported : Nat
  now : Nat

/-- Time does not run backwards, and the deadline after the look is a 64-bit number. -/
def Allowed (w : Watch) (o : Look) : Prop :=
  w.now ≤ o.now ∧ o.now + w.timer.intervalUs < 2 ^ 64

instance (w : Watch) (o : Look) : Decidable (Allowed w o) := inferInstanceAs (Decidable (_ ∧ _))

/-! ### Deadlines -/

/-- A call of `timerfd_settime`. -/
structure Setting where
  timer : Timerfd
  flags : Nat
  interval : Timespec
  value : Timespec
  mono : Nat
  real : Nat

def Timespec.ns (ts : Timespec) : Int := ts.sec * 1000000000 + ts.nsec

namespace Setting
variable (c : Setting)

def watch : Watch :=
  ⟨((c.timer.settime c.flags c.interval c.value c.mono c.real).map Prod.fst).getD c.timer, 0, c.mono⟩

/-- The time on the clock that an absolute value refers to. -/
def clockUs : Nat := if c.timer.realtime then c.real else c.mono

/-- The first deadline, in nanoseconds of the monotonic clock. -/
def start : Int :=
  if c.flags % 2 = 1 then 1000 * c.mono + (c.value.ns - 1000 * c.clockUs)
  else 1000 * c.mono + c.value.ns

def deadline (k : Nat) : Int := c.start + k * c.interval.ns

/-- A value of zero disarms the timer, an interval of zero makes it fire once. -/
def Armed (k : Nat) : Prop := c.value.ns ≠ 0 ∧ (c.interval.ns = 0 → k = 0)

/-- How many deadlines are at or before `now`. -/
noncomputable def passed (now : Nat) : Nat := {k | c.Armed k ∧ c.deadline k ≤ 1000 * now}.ncard

/-- It is `d` nanoseconds to the next deadline; 0 if there is none. -/
def Remaining (now : Nat) (d : Int) : Prop :=
  (∃ k, c.Armed k ∧ c.deadline k = 1000 * now + d ∧ 0 < d ∧
      ∀ j, c.Armed j → 1000 * now < c.deadline j → c.deadline k ≤ c.deadline j) ∨
    d = 0 ∧ ∀ k, c.Armed k → c.deadline k ≤ 1000 * now

/-- The call is accepted, both times are whole microseconds, and value, interval and
first deadline are 64-bit numbers of microseconds after boot. -/
structure Exact : Prop where
  accepted : c.flags < 4 ∧ c.interval.valid = true ∧ c.value.valid = true
  whole : c.value.ns % 1000 = 0 ∧ c.interval.ns % 1000 = 0
  small : c.value.ns < 1000 * 2 ^ 64 ∧ c.interval.ns < 1000 * 2 ^ 64
  future : c.value.ns = 0 ∨ 0 < c.start ∧ c.start < 1000 * 2 ^ 64

end Setting

/-! ### The invariant -/

/-- `c` deadlines of `s, s + i, …` are at or before `now`, and `next` is the one after
them, or 0 if there is none. -/
inductive Tracks (s i now : Nat) : (c next : Nat) → Prop
  | periodic {c : Nat} : 0 < i → now < s + c * i → (∀ k < c, s + k * i ≤ now) → Tracks s i now c (s + c * i)
  | waiting : i = 0 → now < s → Tracks s i now 0 s
  | fired : i = 0 → s ≤ now → Tracks s i now 1 0

section Update
variable {s i : Nat} {t : Timerfd}

/-- A look counts the deadlines passed since the last one. -/
theorem Tracks.update {c now now' : Nat} (h : Tracks s i now c t.nextUs) (hs : 0 < s)
    (hi : t.intervalUs = i) (hnow : now ≤ now') (hmax : now' + i < 2 ^ 64) (hexp : t.exp ≤ c) :
    ∃ c', Tracks s i now' c' (t.update now').nextUs ∧ (t.update now').exp + c = t.exp + c' ∧
      (t.update now').exp ≤ c' ∧ (t.update now').intervalUs = i := by
  generalize hnext : t.nextUs = next at h
  unfold Timerfd.update
  rw [hnext, hi]
  cases h with
  | @periodic c hpos hlt hle =>
    rw [if_neg (by omega)]
    by_cases hdue : now' < s + c * i
    · rw [if_pos hdue, hnext]
      exact ⟨c, .periodic hpos hdue fun k hk => (hle k hk).trans hnow, rfl, hexp, hi⟩
    · -- the passed deadlines are the whole intervals since the next one
      have hdiv := Nat.div_add_mod (now' - (s + c * i)) i
      have hmod := Nat.mod_lt (now' - (s + c * i)) hpos
      generalize hq : (now' - (s + c * i)) / i = q at hdiv
      have hmul : (c + (q + 1)) * i = c * i + i * q + i := by ring
      have hcount : c + (q + 1) ≤ now' := by
        have := Nat.le_mul_of_pos_right (c + q) hpos
        have : (c + q) * i = c * i + i * q := by ring
        omega
      rw [if_neg hdue, if_pos (by omega)]
      dsimp only
      rw [Nat.add_assoc s, ← Nat.add_mul, Nat.mod_eq_of_lt (show s + (c + (q + 1)) * i < 2 ^ 64 by omega),
        Nat.mod_eq_of_lt (show t.exp + (q + 1) < 2 ^ 64 by omega)]
      refine ⟨c + (q + 1), .periodic hpos (by omega) fun k hk => ?_, by omega, by omega, rfl⟩
      have hk' : k * i ≤ (c + q) * i := Nat.mul_le_mul_right i (by omega)
      have : (c + q) * i = c * i + i * q := by ring
      omega
  | waiting h0 hlt =>
    rw [if_neg (by omega)]
    split
    · rename_i hdue
      rw [hnext]
      exact ⟨0, .waiting h0 hdue, rfl, hexp, hi⟩
    · rw [if_neg (by omega)]
      dsimp only
      exact ⟨1, .fired h0 (by omega), by omega, by omega, rfl⟩
  | fired h0 hle =>
    rw [if_pos rfl]
    exact ⟨1, hnext ▸ .fired h0 (hle.trans hnow), rfl, hexp, hi⟩

end Update

/-- The remaining time in nanoseconds. -/
def leftNs (t : Timerfd) (now : Nat) : Int := (t.cur now).2.ns

theorem leftNs_eq (t : Timerfd) (now : Nat) :
    leftNs t now = 1000 * (if t.nextUs ≠ 0 then if t.nextUs > now then t.nextUs - now else 1 else 0 : Nat) := by
  unfold leftNs Timerfd.cur Timespec.ofUs Timespec.ns
  dsimp only
  omega

section Spec
variable {c : Setting} {s i : Nat}

/-- In whole microseconds the deadlines are `s + k * i`. -/
theorem Tracks.spec {now n next : Nat} (h : Tracks s i now n next) (hv : c.value.ns ≠ 0) (hs : 0 < s)
    (hstart : c.start = 1000 * s) (hint : c.interval.ns = 1000 * i) {t : Timerfd}
    (ht : t.nextUs = next) : c.passed now = n ∧ c.Remaining now (leftNs t now) := by
  have hdl : ∀ k, c.deadline k = 1000 * (s + k * i : Nat) := by
    intro k
    rw [Setting.deadline, hstart, hint]
    push_cast
    ring
  have harmed : ∀ k, c.Armed k ↔ (i = 0 → k = 0) := by
    intro k
    rw [Setting.Armed, hint]
    omega
  have hpassed : c.passed now = (Set.Iio n).ncard → c.passed now = n := by
    intro h
    rw [h, ← Finset.coe_Iio, Set.ncard_coe_finset, Nat.card_Iio]
  rw [leftNs_eq, ht]
  cases h with
  | @periodic n hpos hlt hle =>
    have hge : ∀ k, n ≤ k → s + n * i ≤ s + k * i := fun k hk =>
      Nat.add_le_add_left (Nat.mul_le_mul_right i hk) s
    refine ⟨hpassed ?_, .inl ⟨n, (harmed n).mpr (by omega), ?_, ?_, fun j _ hj => ?_⟩⟩
    · unfold Setting.passed
      congr 1
      ext k
      simp only [Set.mem_ofPred_eq, harmed, hdl, Set.mem_Iio]
      constructor
      · rintro ⟨-, hk⟩
        by_contra hn
        have := hge k (by omega)
        omega
      · intro hk
        have := hle k hk
        exact ⟨by omega, by omega⟩
    · rw [hdl, if_pos (by omega), if_pos hlt]
      omega
    · rw [if_pos (by omega), if_pos hlt]
      omega
    · rw [hdl] at hj ⊢
      rw [hdl]
      by_cases hjn : n ≤ j
      · have := hge j hjn
        omega
      · have := hle j (by omega)
        omega
  | waiting h0 hlt =>
    refine ⟨hpassed ?_, .inl ⟨0, (harmed 0).mpr (fun _ => rfl), ?_, ?_, fun j hj _ => ?_⟩⟩
    · unfold Setting.passed
      congr 1
      ext k
      simp only [Set.mem_ofPred_eq, hdl, h0, Nat.mul_zero, Set.mem_Iio]
      omega
    · rw [hdl, h0, if_pos (by omega), if_pos hlt]
      omega
    · rw [if_pos (by omega), if_pos hlt]
      omega
    · rw [(harmed j).mp hj h0]
  | fired h0 hle =>
    refine ⟨hpassed ?_, .inr ⟨by simp, fun k _ => ?_⟩⟩
    · unfold Setting.passed
      congr 1
      ext k
      simp only [Set.mem_ofPred_eq, harmed, hdl, h0, Nat.mul_zero, Set.mem_Iio, true_imp_iff]
      omega
    · rw [hdl, h0]
      omega

end Spec

/-! ### Runs -/

/-- What every state of a run from an exact setting has in common. -/
def Right (c : Setting) (w : Watch) : Prop :=
  (c.value.ns = 0 ∧ w.timer.nextUs = 0 ∧ w.timer.exp = 0 ∧ w.reported = 0) ∨
    ∃ s i n, c.value.ns ≠ 0 ∧ 0 < s ∧ c.start = 1000 * (s : Nat) ∧ c.interval.ns = 1000 * (i : Nat) ∧
      w.timer.intervalUs = i ∧ w.reported + w.timer.exp = n ∧
      ∃ now ≤ w.now, Tracks s i now n w.timer.nextUs

theorem Timespec.us_eq {ts : Timespec} (hv : ts.valid = true) (hw : ts.ns % 1000 = 0)
    (hs : ts.ns < 1000 * 2 ^ 64) : ts.ns = 1000 * (ts.us : Int) ∧ (ts.us = 0 → ts.isZero = true) := by
  obtain ⟨sec, nsec⟩ := ts
  simp only [Timespec.valid, decide_eq_true_eq] at hv
  obtain ⟨n, rfl⟩ := Int.eq_ofNat_of_zero_le hv.1
  obtain ⟨m, rfl⟩ := Int.eq_ofNat_of_zero_le hv.2.1
  simp only [Timespec.ns] at hw hs ⊢
  have hus : Timespec.us ⟨n, m⟩ = n * 1000000 + m / 1000 := by
    rw [Timespec.us, Int.toNat_natCast, Int.toNat_natCast]
    exact Nat.mod_eq_of_lt (by omega)
  simp only [Timespec.isZero, decide_eq_true_eq]
  omega

theorem Setting.Exact.right {c : Setting} (h : c.Exact) : Right c c.watch := by
  obtain ⟨⟨hf, hiv, hvv⟩, ⟨hw₁, hw₂⟩, ⟨hs₁, hs₂⟩, hfut⟩ := h
  obtain ⟨hv, hvz⟩ := Timespec.us_eq hvv hw₁ hs₁
  obtain ⟨hi, hiz⟩ := Timespec.us_eq hiv hw₂ hs₂
  have hvzero : c.value.isZero = true ↔ c.value.us = 0 := by
    refine ⟨fun hz => ?_, hvz⟩
    simp only [Timespec.isZero, decide_eq_true_eq] at hz
    simp [Timespec.us, hz.1, hz.2]
  generalize hval : c.value.us = v at *
  generalize hint : c.interval.us = i at *
  have hclock : (c.timer.update c.mono).realtime = c.timer.realtime := by
    unfold Timerfd.update
    split_ifs <;> rfl
  have hi' : (if i = 0 && !c.interval.isZero then 1 else i) = i := by
    split
    · rename_i h
      simp only [Bool.and_eq_true, decide_eq_true_eq, Bool.not_eq_true'] at h
      rw [hiz h.1] at h
      exact absurd h.2 (by decide)
    · rfl
  have hv' : (if v = 0 && !c.value.isZero then 1 else v) = v := by
    split
    · rename_i h
      simp only [Bool.and_eq_true, decide_eq_true_eq, Bool.not_eq_true'] at h
      rw [hvz h.1] at h
      exact absurd h.2 (by decide)
    · rfl
  have hset : c.watch = ⟨{ c.timer.update c.mono with
      exp := 0
      intervalUs := i
      nextUs := if v = 0 then 0 else if c.flags % 2 = 1 then absoluteUs v c.clockUs c.mono
        else (c.mono + v) % 2 ^ 64 }, 0, c.mono⟩ := by
    have hguard : (decide (c.flags ≥ 4) || !c.interval.valid || !c.value.valid) = false := by
      simp [hiv, hvv, hf]
    have hdis : (decide (v = 0) && c.value.isZero) = decide (v = 0) := by
      rw [Bool.eq_iff_iff, Bool.and_eq_true, hvzero, decide_eq_true_eq, and_self]
    simp only [Setting.watch, Timerfd.settime, hval, hint, hguard, hi', hv', hdis, hclock,
      Bool.false_eq_true, if_false, Option.map_some, Option.getD_some, decide_eq_true_eq,
      Setting.clockUs]
  rw [hset]
  by_cases hv0 : v = 0
  · refine .inl ⟨by omega, ?_, rfl, rfl⟩
    simp [hv0]
  · -- the first deadline is the one of the specification
    obtain ⟨hpos, hmax⟩ := hfut.resolve_left (by omega)
    have hnext : ∃ s : Nat, 0 < s ∧ c.start = 1000 * (s : Int) ∧
        s = if v = 0 then 0 else if c.flags % 2 = 1 then absoluteUs v c.clockUs c.mono
          else (c.mono + v) % 2 ^ 64 := by
      unfold Setting.start at hpos hmax ⊢
      split_ifs at hpos hmax ⊢ with habs
      · refine ⟨_, ?_, ?_, rfl⟩ <;> unfold absoluteUs <;> dsimp only <;> split_ifs <;> omega
      · exact ⟨_, by omega, by omega, rfl⟩
    obtain ⟨s, hs, hstart, hnext⟩ := hnext
    -- no deadline has been counted, though some may have passed
    refine .inr ⟨s, i, 0, by omega, hs, hstart, hi, rfl, rfl, min (s - 1) c.mono, Nat.min_le_right .., ?_⟩
    rw [← hnext]
    by_cases hi0 : i = 0
    · exact .waiting hi0 (by omega)
    · have : Tracks s i (min (s - 1) c.mono) 0 (s + 0 * i) :=
        .periodic (by omega) (by omega) fun k hk => absurd hk (Nat.not_lt_zero k)
      rwa [Nat.zero_mul, Nat.add_zero] at this

theorem Right.look {c : Setting} {w : Watch} (h : Right c w) {now : Nat}
    (ha : w.now ≤ now ∧ now + w.timer.intervalUs < 2 ^ 64) :
    Right c ⟨w.timer.update now, w.reported, now⟩ ∧
      w.reported + (w.timer.update now).exp = c.passed now ∧
      c.Remaining now (leftNs (w.timer.update now) now) := by
  obtain ⟨hv, h0, he, hr⟩ | ⟨s, i, n, hv, hs, hstart, hint, hi, hn, now₀, hle, ht⟩ := h
  · have hup : w.timer.update now = w.timer := by rw [Timerfd.update, if_pos h0]
    rw [hup]
    refine ⟨.inl ⟨hv, h0, he, hr⟩, ?_, .inr ⟨?_, fun k hk => absurd hv hk.1⟩⟩
    · have : {k | c.Armed k ∧ c.deadline k ≤ 1000 * now} = ∅ :=
        Set.eq_empty_of_forall_notMem fun k hk => hk.1.1 hv
      rw [hr, he, Setting.passed, this, Set.ncard_empty]
    · rw [leftNs_eq, h0]
      rfl
  · obtain ⟨n', ht', hcount, -, hi'⟩ := ht.update hs hi (hle.trans ha.1) (hi ▸ ha.2) (by omega)
    obtain ⟨hpassed, hrem⟩ := ht'.spec hv hs hstart hint rfl
    have hsum : w.reported + (w.timer.update now).exp = n' := by omega
    exact ⟨.inr ⟨s, i, n', hv, hs, hstart, hint, hi', hsum, now, Nat.le_refl now, ht'⟩,
      hsum.trans hpassed.symm, hrem⟩

end InDevOS.Linux
