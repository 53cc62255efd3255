import Mathlib

/-! Descriptors passed in control messages (`ux_parse_cmsg` in `net_unix.c`).

The user's control buffer is a sequence of headers, each with a 64-bit length of its own.
The loop reads a header, checks `off + len > clen` and goes to the next multiple of eight,
all in 64-bit arithmetic. A length near 2^64 passes the check and takes the offset back.

`fd_flight_release` needs a free descriptor to close a reference with.

`parse_right_iff` says that the offset grows on every iteration, the loop ends, every read
lies in the buffer and no reference is left after an error exactly when no header that the
walk comes to ends beyond 2^64 and no descriptor but the first is refused in a full table. -/
namespace InDevOS.Ipc.Control

/-! ### The loop -/

/-- A little-endian field of the buffer. -/
def field (c : List UInt8) (off : Nat) : (bytes : Nat) → Nat
  | 0 => 0
  | n + 1 => (c.getD off 0).toNat + 256 * field c (off + 1) n

def uxMaxfds : Nat := 32

/-- The locals of the loop: the offset and the descriptors found so far. -/
structure Scan where
  off : Nat
  fds : List Nat
  deriving DecidableEq

inductive Errno
  | EINVAL | ENOMEM | EFAULT | EBADF
  deriving DecidableEq

/-- What an iteration does: leave the loop with a result, or go on. -/
inductive Step
  | leave (result : Option Errno) (fds : List Nat)
  | more (s : Scan)
  deriving DecidableEq

section
variable (c : List UInt8)

/-- SOL_SOCKET with SCM_RIGHTS. -/
def isRights (off : Nat) : Bool := field c (off + 8) 4 == 1 && field c (off + 12) 4 == 1

/-- `(int)((len - 16) / 4)`, the number of rounds of the inner loop; none if it is negative. -/
def rounds (len : Nat) : Nat :=
  let cnt := (len - 16) / 4 % 2 ^ 32
  if cnt < 2 ^ 31 then cnt else 0

/-- The descriptors a header has. -/
def count (off : Nat) : Nat := if isRights c off then rounds (field c off 8) else 0

/-- The first `n` descriptors of the header at `off`. -/
def descriptors (off n : Nat) : List Nat :=
  (List.range n).map fun i => field c (off + 16 + 4 * i) 4

/-- `off + ((len + 7) & ~7)`. -/
def advance (off len : Nat) : Nat := (off + (len + 7) % 2 ^ 64 / 8 * 8) % 2 ^ 64

/-- One iteration; the condition of the loop comes first. -/
def scanStep (s : Scan) : Step :=
  if c.length < (s.off + 16) % 2 ^ 64 then .leave none s.fds
  else if field c s.off 8 < 16 ∨ c.length < (s.off + field c s.off 8) % 2 ^ 64 then
    .leave (some .EINVAL) s.fds
  else if uxMaxfds < s.fds.length + count c s.off then
    .leave (some .EINVAL) (s.fds ++ descriptors c s.off (uxMaxfds - s.fds.length))
  else .more ⟨advance s.off (field c s.off 8), s.fds ++ descriptors c s.off (count c s.off)⟩

/-- What an iteration reads, as positions with sizes. -/
def stepReads (s : Scan) : List (Nat × Nat) :=
  if c.length < (s.off + 16) % 2 ^ 64 then []
  else (s.off, 16) ::
    if field c s.off 8 < 16 ∨ c.length < (s.off + field c s.off 8) % 2 ^ 64 then []
    else (List.range (min (count c s.off) (uxMaxfds - s.fds.length))).map fun i => (s.off + 16 + 4 * i, 4)

end

/-- The loop for at most so many iterations; `none` if it has not ended by then. -/
def scan (c : List UInt8) : Nat → Scan → Option (Option Errno × List Nat)
  | 0, _ => none
  | fuel + 1, s =>
    match scanStep c s with
    | .leave r fds => some (r, fds)
    | .more s => scan c fuel s

/-! ### The call -/

/-- A call: whether there is a control buffer, its bytes, whether the two allocations and
the copy succeed, what `fd_flight_get` answers to its i-th call, and whether the caller's
table has a free descriptor. -/
structure Call (ρ : Type) where
  uctl : Bool
  control : List UInt8
  buffer : Bool
  copied : Bool
  array : Bool
  flightGet : Nat → Nat → Except Errno ρ
  spare : Bool

/-- The result, the references given to the caller, and those taken and released. -/
structure Parse (ρ : Type) where
  result : Option Errno
  out : List ρ
  taken : List ρ
  released : List ρ

variable {ρ : Type} {call : Call ρ} {c : List UInt8} {s : Scan} {off nf : Nat}

def Parse.fail (e : Option Errno) : Parse ρ := ⟨e, [], [], []⟩

/-- `fd_flight_release` for each of some references: it closes one at a free descriptor, which is
free again afterwards, and does nothing if there is none. -/
def fdFlightRelease (spare : Bool) (taken : List ρ) : List ρ := if spare then taken else []

/-- The references for the descriptors found; an error gives the earlier ones back. -/
def flight (call : Call ρ) : List Nat → List ρ → Parse ρ
  | [], taken => ⟨none, taken, taken, []⟩
  | fd :: rest, taken =>
    match call.flightGet taken.length fd with
    | .error e => ⟨some e, [], taken, fdFlightRelease call.spare taken⟩
    | .ok f => flight call rest (taken ++ [f])

/-- After the loop. -/
def finish (call : Call ρ) (r : Option Errno) (fds : List Nat) : Parse ρ :=
  if r ≠ none ∨ fds = [] then .fail r
  else if !call.array then .fail (some .ENOMEM)
  else flight call fds []

def uxParseCmsg (call : Call ρ) (fuel : Nat) : Option (Parse ρ) :=
  if !call.uctl ∨ call.control.length < 16 then some (.fail none)
  else if 4096 < call.control.length then some (.fail (some .EINVAL))
  else if !call.buffer then some (.fail (some .ENOMEM))
  else if !call.copied then some (.fail (some .EFAULT))
  else (scan call.control fuel ⟨0, []⟩).map fun (r, fds) => finish call r fds

/-! ### What is owed -/

/-- The states in which an iteration begins. -/
inductive Visits (c : List UInt8) : Scan → Prop
  | start : Visits c ⟨0, []⟩
  | step {s s' : Scan} : Visits c s → scanStep c s = .more s' → Visits c s'

/-- The call comes to the loop. -/
structure Call.Scans (call : Call ρ) : Prop where
  uctl : call.uctl = true
  long : 16 ≤ call.control.length
  short : call.control.length ≤ 4096
  buffer : call.buffer = true
  copied : call.copied = true

structure Call.Right (call : Call ρ) : Prop where
  ends : ∃ fuel, (uxParseCmsg call fuel).isSome
  grows : call.Scans → ∀ s s', Visits call.control s → scanStep call.control s = .more s' → s.off < s'.off
  inside : call.Scans → ∀ s, Visits call.control s →
    ∀ r ∈ stepReads call.control s, r.1 + r.2 ≤ call.control.length
  balanced : ∀ fuel p, uxParseCmsg call fuel = some p → p.result ≠ none → p.released = p.taken

/-- The headers the walk comes to in exact arithmetic, with the number of descriptors in
those before. -/
inductive Header (c : List UInt8) : Nat → Nat → Prop
  | first : Header c 0 0
  | next {off nf : Nat} : Header c off nf → 16 ≤ field c off 8 → off + field c off 8 ≤ c.length →
    nf + count c off ≤ uxMaxfds →
    Header c (off + (field c off 8 + 7) / 8 * 8) (nf + count c off)

/-- No header that the walk comes to ends beyond 2^64. -/
def NoWrap (c : List UInt8) : Prop :=
  ∀ off nf, Header c off nf → off + 16 ≤ c.length → off + field c off 8 < 2 ^ 64

/-- The place of the first descriptor that is refused. -/
def Call.refused (call : Call ρ) : (i : Nat) → List Nat → Option Nat
  | _, [] => none
  | i, fd :: rest =>
    match call.flightGet i fd with
    | .error _ => some i
    | .ok _ => call.refused (i + 1) rest

/-- There is a free descriptor, or if a descriptor found is refused, it is the first. -/
def Call.Releases (call : Call ρ) : Prop :=
  call.spare = true ∨ (call.Scans → call.array = true → ∀ fuel fds,
    scan call.control fuel ⟨0, []⟩ = some (none, fds) → ∀ i, call.refused 0 fds = some i → i = 0)

/-! ### Without a wrap -/

theorem field_lt (c : List UInt8) (off n : Nat) : field c off n < 256 ^ n := by
  induction n generalizing off with
  | zero => exact Nat.one_pos
  | succ n ih =>
    have := (c.getD off 0).toNat_lt
    have := ih (off + 1)
    rw [field, pow_succ]
    omega

theorem Header.off_le (h : Header c off nf) : off ≤ c.length + 7 := by
  cases h with
  | first | next => omega

theorem rounds_le {len : Nat} (h : len ≤ 4096) : rounds len = (len - 16) / 4 := by
  rw [rounds, Nat.mod_eq_of_lt (by omega)]
  exact if_pos (by omega)

theorem count_le {len : Nat} (hlen : field c off 8 = len) (h : len ≤ 4096) :
    4 * count c off ≤ len - 16 := by
  rw [count, hlen, rounds_le h]
  split_ifs <;> omega

theorem length_descriptors (c : List UInt8) (off n : Nat) : (descriptors c off n).length = n := by
  rw [descriptors, List.length_map, List.length_range]

theorem advance_eq {len : Nat} (h : off + len ≤ 4096) : advance off len = off + (len + 7) / 8 * 8 := by
  unfold advance
  omega

theorem scanStep_eq_more {s' : Scan} : scanStep c s = .more s' ↔
    (s.off + 16) % 2 ^ 64 ≤ c.length ∧ 16 ≤ field c s.off 8 ∧
      (s.off + field c s.off 8) % 2 ^ 64 ≤ c.length ∧ s.fds.length + count c s.off ≤ uxMaxfds ∧
      ⟨advance s.off (field c s.off 8), s.fds ++ descriptors c s.off (count c s.off)⟩ = s' := by
  unfold scanStep
  split_ifs with hend hlen hmany
  · exact iff_of_false not_false fun h => by omega
  · exact iff_of_false not_false fun h => by omega
  · exact iff_of_false not_false fun h => by omega
  · rw [Step.more.injEq]
    exact ⟨fun h => ⟨by omega, by omega, by omega, by omega, h⟩, fun h => h.2.2.2.2⟩

section
variable (hc : c.length ≤ 4096)
include hc

/-- Without a wrap an iteration that goes on is a step of the exact walk. -/
theorem Header.of_more (hw : NoWrap c) (h : Header c s.off s.fds.length)
    {s' : Scan} (hstep : scanStep c s = .more s') :
    s.off + 16 ≤ s'.off ∧ Header c s'.off s'.fds.length := by
  obtain ⟨hend, hlen, hfit, hmany, rfl⟩ := scanStep_eq_more.1 hstep
  have hoff := h.off_le
  have hlt := hw _ _ h (by omega)
  rw [advance_eq (by omega), List.length_append, length_descriptors]
  exact ⟨by dsimp only; omega, h.next hlen (by omega) hmany⟩

theorem Visits.header (hw : NoWrap c) (h : Visits c s) : Header c s.off s.fds.length := by
  induction h with
  | start => exact .first
  | step _ hstep ih => exact (ih.of_more hc hw hstep).2

theorem Header.inside (hw : NoWrap c) (h : Header c s.off s.fds.length) :
    ∀ r ∈ stepReads c s, r.1 + r.2 ≤ c.length := by
  have hoff := h.off_le
  unfold stepReads
  split_ifs with hend hlen
  · simp
  · simp only [List.mem_singleton, forall_eq]
    omega
  · have hlt := hw _ _ h (by omega)
    have hcount : 4 * count c s.off ≤ field c s.off 8 - 16 := count_le rfl (by omega)
    intro r hr
    rcases List.mem_cons.1 hr with rfl | hr
    · exact (by omega : s.off + 16 ≤ c.length)
    · obtain ⟨i, hi, rfl⟩ := List.mem_map.1 hr
      rw [List.mem_range] at hi
      show s.off + 16 + 4 * i + 4 ≤ c.length
      omega

/-- The loop ends: each iteration goes at least 16 bytes on. -/
theorem scan_ends (hw : NoWrap c) :
    ∀ n (s : Scan), Header c s.off s.fds.length → c.length + 8 ≤ s.off + n → (scan c n s).isSome := by
  intro n
  induction n with
  | zero =>
    intro s h hn
    have := h.off_le
    omega
  | succ n ih =>
    intro s h hn
    rw [scan]
    cases hstep : scanStep c s with
    | leave r fds => rfl
    | more s' =>
      obtain ⟨hgrow, hnext⟩ := h.of_more hc hw hstep
      exact ih s' hnext (by omega)

/-! ### With a wrap -/

theorem Header.visits (h : Header c off nf) : ∃ fds : List Nat, fds.length = nf ∧ Visits c ⟨off, fds⟩ := by
  induction h with
  | first => exact ⟨[], rfl, .start⟩
  | @next off nf h hlen hend hmany ih =>
    obtain ⟨fds, hfds, hv⟩ := ih
    refine ⟨fds ++ descriptors c off (count c off), ?_, hv.step ?_⟩
    · rw [List.length_append, length_descriptors, hfds]
    · rw [← advance_eq (by omega)]
      refine scanStep_eq_more.2 ⟨?_, hlen, ?_, by rwa [hfds], rfl⟩ <;> dsimp only <;> omega

/-- A length that wraps passes the check, has no descriptors and does not take the offset on. -/
theorem scanStep_wrap (hoff : s.off + 16 ≤ c.length)
    (hwrap : 2 ^ 64 ≤ s.off + field c s.off 8) (hfds : s.fds.length ≤ uxMaxfds) :
    ∃ s', scanStep c s = .more s' ∧ s'.off ≤ s.off := by
  have hlt : field c s.off 8 < 2 ^ 64 := field_lt c s.off 8
  have hcount : count c s.off = 0 := by
    have hrounds : rounds (field c s.off 8) = 0 := if_neg (by omega)
    rw [count, hrounds, ite_self]
  refine ⟨_, scanStep_eq_more.2 ⟨by omega, by omega, by omega, by omega, rfl⟩, ?_⟩
  show advance s.off (field c s.off 8) ≤ s.off
  unfold advance
  omega

end

theorem Header.count_le (h : Header c off nf) : nf ≤ uxMaxfds := by
  cases h with
  | first => omega
  | next => assumption

/-! ### The call as a whole -/

/-- An error comes from the first descriptor refused, with a reference for each one before it. -/
theorem flight_refused (call : Call ρ) (fds : List Nat) (taken : List ρ) :
    (flight call fds taken).result = none ∧ call.refused taken.length fds = none ∨
      (flight call fds taken).result ≠ none ∧
        call.refused taken.length fds = some (flight call fds taken).taken.length ∧
        (flight call fds taken).released = fdFlightRelease call.spare (flight call fds taken).taken := by
  induction fds generalizing taken with
  | nil => exact .inl ⟨rfl, rfl⟩
  | cons fd rest ih =>
    rw [flight, Call.refused]
    cases hget : call.flightGet taken.length fd with
    | error e => exact .inr ⟨by simp, rfl, rfl⟩
    | ok f => simpa using ih (taken ++ [f])

section
variable {fuel : Nat}

theorem Call.Scans.parse (h : call.Scans) :
    uxParseCmsg call fuel = (scan call.control fuel ⟨0, []⟩).map fun (r, fds) => finish call r fds := by
  have hlong := h.long
  have hshort := h.short
  rw [uxParseCmsg, if_neg (by simp [h.uctl]; omega), if_neg (by omega), if_neg (by simp [h.buffer]),
    if_neg (by simp [h.copied])]

theorem parse_of_not_scans (h : ¬ call.Scans) : ∃ r, uxParseCmsg call fuel = some (.fail r) := by
  unfold uxParseCmsg
  split_ifs with h1 h2 h3 h4
  · exact ⟨_, rfl⟩
  · exact ⟨_, rfl⟩
  · exact ⟨_, rfl⟩
  · exact ⟨_, rfl⟩
  · rw [not_or] at h1
    exact absurd ⟨by simpa using h1.1, by omega, by omega, by simpa using h3, by simpa using h4⟩ h

end

theorem parse_balanced (h : call.Releases) (fuel : Nat) (p : Parse ρ) (hp : uxParseCmsg call fuel = some p)
    (hr : p.result ≠ none) : p.released = p.taken := by
  by_cases hscans : call.Scans
  · rw [hscans.parse] at hp
    obtain ⟨⟨r, fds⟩, hscan, rfl⟩ := Option.map_eq_some_iff.1 hp
    dsimp only at hr ⊢
    unfold finish at hr ⊢
    split_ifs at hr ⊢ with hnone harray
    · rfl
    · rfl
    obtain ⟨hok, -⟩ | ⟨-, href, hrel⟩ := flight_refused call fds []
    · exact absurd hok hr
    rw [not_or] at hnone
    rw [hrel, fdFlightRelease]
    obtain hspare | hfirst := h
    · rw [if_pos hspare]
    · have hzero := hfirst hscans (by simpa using harray) fuel fds (by rw [hscan, not_not.1 hnone.1]) _ href
      rw [List.length_eq_zero_iff.1 hzero, ite_self]
  · obtain ⟨r, hfail⟩ := parse_of_not_scans hscans
    cases hp.symm.trans hfail
    rfl

/-- In a full table the references taken before a refused descriptor stay. -/
theorem Call.Right.releases (h : call.Right) : call.Releases := by
  refine or_iff_not_imp_left.2 fun hspare hs harray fuel fds hscan i hi => ?_
  obtain ⟨-, hnone⟩ | ⟨hr, href, hrel⟩ := flight_refused call fds []
  · exact absurd (hnone.symm.trans hi) (by simp)
  have hne : fds ≠ [] := by
    rintro rfl
    exact absurd hi (by simp [refused])
  have hp : uxParseCmsg call fuel = some (flight call fds []) := by
    simp [hs.parse, hscan, finish, hne, harray]
  have hbal := h.balanced fuel _ hp hr
  rw [hrel, fdFlightRelease, if_neg hspare] at hbal
  rw [List.length_nil, hi, ← hbal] at href
  exact Option.some.inj href

theorem parse_ends (call : Call ρ) (h : call.Scans → NoWrap call.control) :
    ∃ fuel, (uxParseCmsg call fuel).isSome := by
  refine ⟨call.control.length + 8, ?_⟩
  by_cases hscans : call.Scans
  · rw [hscans.parse, Option.isSome_map]
    exact scan_ends hscans.short (h hscans) _ ⟨0, []⟩ .first (by simp)
  · obtain ⟨r, hfail⟩ := parse_of_not_scans hscans
    rw [hfail]
    rfl

/-- **Parsing control messages** is right exactly when no header that the walk comes to ends
beyond 2^64 and a descriptor that is refused after others meets a table with room. -/
theorem parse_right_iff (call : Call ρ) :
    call.Right ↔ (call.Scans → NoWrap call.control) ∧ call.Releases := by
  constructor
  · intro h
    refine ⟨fun hscans off nf hheader hoff => ?_, h.releases⟩
    by_contra hwrap
    obtain ⟨fds, hfds, hv⟩ := hheader.visits hscans.short
    obtain ⟨s', hstep, hle⟩ := scanStep_wrap (s := ⟨off, fds⟩) hscans.short hoff (not_lt.1 hwrap)
      (hfds.trans_le hheader.count_le)
    exact absurd (h.grows hscans _ _ hv hstep) (by omega)
  · rintro ⟨h, hrel⟩
    refine ⟨parse_ends call h, fun hs s s' hv hstep => ?_, fun hs s hv => ?_, parse_balanced hrel⟩
    · have := ((hv.header hs.short (h hs)).of_more hs.short (h hs) hstep).1
      omega
    · exact (hv.header hs.short (h hs)).inside hs.short (h hs)

/-- Two headers, the second of length 2^64 - 16. -/
def circular : List UInt8 :=
  [16, 0, 0, 0, 0, 0, 0, 0, 0, 0, 0, 0, 0, 0, 0, 0,
    240, 255, 255, 255, 255, 255, 255, 255, 0, 0, 0, 0, 0, 0, 0, 0]

/-- The loop goes from the second header back to the first and never ends. -/
theorem circular_never_ends : ¬ ∃ fuel, (uxParseCmsg
    (⟨true, circular, true, true, true, fun _ _ => .error .EBADF, true⟩ : Call Unit) fuel).isSome := by
  have hfirst : scanStep circular ⟨0, []⟩ = .more ⟨16, []⟩ := by decide +kernel
  have hsecond : scanStep circular ⟨16, []⟩ = .more ⟨0, []⟩ := by decide +kernel
  have hloop : ∀ fuel, scan circular fuel ⟨0, []⟩ = none ∧ scan circular fuel ⟨16, []⟩ = none := by
    intro fuel
    induction fuel with
    | zero => exact ⟨rfl, rfl⟩
    | succ n ih =>
      exact ⟨ih.2, ih.1⟩
  rintro ⟨fuel, h⟩
  unfold uxParseCmsg at h
  rw [(hloop fuel).1] at h
  exact absurd h (by decide)

end InDevOS.Ipc.Control
