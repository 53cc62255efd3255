import Mathlib

/-! Waiting for a child: `wait4` and `waitid` over `sys_wait_pid`.

A wait is a sequence of looks at the list of children. The first look has the checks of the
system call; while it finds no child to report the caller is parked, and every wake-up is one
more look. What a look decides is a `Verdict`, and `Right` says which verdicts fit the
selector of the call.

`sys_wait_pid` itself applies the selector as it should (`lxWait4Wait_right`). The callers'
checks before it do not always: without blocking, `wait4` takes a zombie of any group for
one of the group asked for, and answers 0 where no child matches at all; `waitid` turns group
1 into "any child", and answers "no child" when only stopped children are asked for.
`waits_right_iff` says for which calls and children every look is right. The scheduler runs
before the first process does and never stops, so the test for it is left out. -/
namespace InDevOS.Process
open List

/-! ### Children and user memory -/

structure Child where
  pid : UInt32
  pgid : UInt32
  exitStatus : Int32
  isZombie : Bool
deriving DecidableEq

/-- What a look sees of the caller. -/
structure Scene where
  pgid : UInt32
  children : List Child
  /-- `proc_signal_interrupts` -/
  interrupts : Bool
  /-- `proc_kill_pending` -/
  killPending : Bool

/-- A user pointer, by how much can be stored there. -/
inductive UserBuf where
  | null | bad
  /-- The status word only. -/
  | word
  /-- A whole `siginfo`. -/
  | whole
deriving DecidableEq

structure Siginfo where
  signo : Int32
  code : Int32
  pid : UInt32
  status : Int32
deriving DecidableEq

inductive Written where
  | nothing
  | status (word : Int32)
  | info (si : Siginfo)
deriving DecidableEq

inductive Result where
  | child (pid : UInt32)
  | zero | echild | eintr | efault | einval
  /-- No return yet: the caller blocks. -/
  | parked
deriving DecidableEq

/-- The outcome of a look: what is returned, the child picked to be reported, whether it was
released, and what was stored for the user. -/
structure Verdict where
  result : Result
  found : Option Child := none
  reaped : Bool := false
  written : Written := .nothing
deriving DecidableEq

/-! ### `sys_wait_pid` -/

def waitMatch (s : Scene) (wpid : Int) (c : Child) : Bool :=
  if 0 < wpid then c.pid == UInt32.ofInt wpid
  else if wpid = 0 then c.pgid == s.pgid
  else if wpid < -1 then c.pgid == UInt32.ofInt (-wpid)
  else true

def waitHasMatch (s : Scene) (wpid : Int) : Bool := s.children.any (waitMatch s wpid)

/-- One turn of the loop of `sys_wait_pid`. -/
def sysWaitPid (wpid : Int) (status : UserBuf) (s : Scene) : Verdict :=
  if !waitHasMatch s wpid then { result := .echild }
  else
    match s.children.find? fun c => c.isZombie && waitMatch s wpid c with
    | none => if s.interrupts then { result := .eintr } else { result := .parked }
    | some zombie =>
      match status with
      | .null => { result := .child zombie.pid, found := zombie, reaped := true }
      | .bad => { result := .efault, found := zombie }
      | _ =>
        { result := .child zombie.pid, found := zombie, reaped := true,
          written := .status zombie.exitStatus }

/-! ### `wait4` -/

def wnohang : UInt64 := 1

def nohang (options : UInt64) : Bool := options &&& wnohang != 0

/-- A signal death is stored as 128 and the signal. -/
def killed (raw : Int32) : Bool := 128 < raw && raw < 128 + 32

def encodeStatus (raw : Int32) : Int32 := if killed raw then raw - 128 else (raw &&& 0xff) <<< 8

/-- The zombies the check without blocking looks for. -/
def looseZombie (pid : Int) (c : Child) : Bool := c.isZombie && (pid ≤ 0 || (c.pid.toNat : Int) == pid)

/-- `sys_wait_pid` and the new encoding of the status. -/
def lxWait4Wait (pid : Int) (uwstatus : UserBuf) (s : Scene) : Verdict :=
  let v := sysWaitPid pid uwstatus s
  match v.result, v.written with
  | .child _, .status raw => { v with written := .status (encodeStatus raw) }
  | _, _ => v

/-- `lx_wait4`, up to its first return or block. -/
def lxWait4 (pid : Int) (uwstatus : UserBuf) (options : UInt64) (s : Scene) : Verdict :=
  if s.children.isEmpty then { result := .echild }
  else if nohang options && !s.children.any (looseZombie pid) then { result := .zero }
  else lxWait4Wait pid uwstatus s

/-! ### `waitid` -/

def wstopped : UInt64 := 2
def wexited : UInt64 := 4
def wcontinued : UInt64 := 8
def wnowait : UInt64 := 0x01000000

def knownOptions : UInt64 :=
  wnohang ||| wstopped ||| wexited ||| wcontinued ||| wnowait ||| 0x20000000 ||| 0x40000000 ||| 0x80000000

def lxSiginfoChild (pid : UInt32) (raw : Int32) : Siginfo :=
  if killed raw then ⟨17, 2, pid, raw - 128⟩ else ⟨17, 1, pid, raw &&& 0xff⟩

/-- The selector word for `sys_wait_pid`. -/
def waitidWord (idtype id : Int) : Option Int :=
  if idtype = 0 then some (-1)
  else if idtype = 1 then if id ≤ 0 then none else some id
  else if idtype = 2 then some (if 0 < id then -id else 0)
  else none

/-- The test on children that `lx_waitid` makes itself. -/
def selects (s : Scene) (pid : Int) (c : Child) : Bool :=
  pid == -1 || (0 < pid && (c.pid.toNat : Int) == pid) || (pid < -1 && (c.pgid.toNat : Int) == -pid) ||
    (pid == 0 && c.pgid == s.pgid)

/-- Store the information and return 0. -/
def putInfo (uinfo : UserBuf) (si : Siginfo) (v : Verdict) : Verdict :=
  match uinfo with
  | .null => { v with result := .zero }
  | .whole => { v with result := .zero, written := .info si }
  | _ => { v with result := .efault }

def noChild (uinfo : UserBuf) : Verdict := putInfo uinfo ⟨0, 0, 0, 0⟩ { result := .zero }

section
variable (pid : Int) (uinfo : UserBuf) (options : UInt64) (s : Scene)

/-- A turn of the loop that leaves the zombie. -/
def lxWaitidPeek : Verdict :=
  if !s.children.any (selects s pid) then { result := .echild }
  else
    match s.children.find? fun c => c.isZombie && selects s pid c with
    | some z => putInfo uinfo (lxSiginfoChild z.pid z.exitStatus) { result := .zero, found := z }
    | none =>
      if nohang options then noChild uinfo
      else if s.killPending then { result := .eintr } else { result := .parked }

/-- `sys_wait_pid`, which leaves the raw status in the buffer, and the information. -/
def lxWaitidReap (pid : Int) (uinfo : UserBuf) (s : Scene) : Verdict :=
  let v := sysWaitPid pid uinfo s
  match v.result, v.written with
  | .child r, .status raw => putInfo uinfo (lxSiginfoChild r raw) v
  | .child r, _ => putInfo uinfo (lxSiginfoChild r 0) v
  | _, _ => v

/-- What a wake-up goes on with. -/
def lxWaitidWait : Verdict :=
  if options &&& wnowait ≠ 0 then lxWaitidPeek pid uinfo options s else lxWaitidReap pid uinfo s

/-- `lx_waitid` from the first test of the children on. -/
def lxWaitidSelect : Verdict :=
  if !s.children.any (selects s pid) then { result := .echild }
  else if options &&& wexited = 0 then
    if nohang options then noChild uinfo else { result := .echild }
  else if options &&& wnowait ≠ 0 then lxWaitidPeek pid uinfo options s
  else if nohang options && !s.children.any (fun c => c.isZombie && selects s pid c) then noChild uinfo
  else lxWaitidReap pid uinfo s

end

/-- The arguments `lx_waitid` goes on with. -/
def waitidArgs (idtype id : Int) (options : UInt64) : Option Int :=
  if options &&& ~~~knownOptions ≠ 0 then none
  else if options &&& (wstopped ||| wexited ||| wcontinued) = 0 then none
  else waitidWord idtype id

/-- `lx_waitid`, up to its first return or block. -/
def lxWaitid (idtype id : Int) (uinfo : UserBuf) (options : UInt64) (s : Scene) : Verdict :=
  match waitidArgs idtype id options with
  | none => { result := .einval }
  | some pid => lxWaitidSelect pid uinfo options s

/-! ### Calls -/

/-- The system calls with the arguments as the dispatcher passes them. -/
inductive Call where
  | wait4 (pid : Int32) (uwstatus : UserBuf) (options : UInt64)
  | waitid (idtype : Int) (id : Int32) (uinfo : UserBuf) (options : UInt64)

def Call.options : Call → UInt64
  | .wait4 _ _ options => options
  | .waitid _ _ _ options => options

/-- The first look. -/
def Call.enter : Call → Scene → Verdict
  | .wait4 pid uwstatus options => lxWait4 pid.toInt uwstatus options
  | .waitid idtype id uinfo options => lxWaitid idtype id.toInt uinfo options

/-- The look after a wake-up. -/
def Call.wake : Call → Scene → Verdict
  | .wait4 pid uwstatus _ => lxWait4Wait pid.toInt uwstatus
  | .waitid idtype id uinfo options => fun s =>
    match waitidArgs idtype id.toInt options with
    | none => { result := .einval }
    | some pid => lxWaitidWait pid uinfo options s

/-- The looks of a call, given what it sees each time. -/
def looks (enter wake : Scene → Verdict) : List Scene → List (Scene × Verdict)
  | [] => []
  | s :: rest => (s, enter s) :: if (enter s).result = .parked then looks wake wake rest else []

def Call.looks (call : Call) (scenes : List Scene) : List (Scene × Verdict) :=
  Process.looks call.enter call.wake scenes

/-! ### What a call asks for -/

inductive Selector where
  | any
  | child (pid : Int)
  | group (pgid : Int)
  /-- The caller's own group. -/
  | own

def Selector.picks (s : Scene) (c : Child) : Selector → Bool
  | .any => true
  | .child pid => (c.pid.toNat : Int) == pid
  | .group pgid => (c.pgid.toNat : Int) == pgid
  | .own => c.pgid == s.pgid

def Call.selector : Call → Selector
  | .wait4 pid _ _ =>
    if 0 < pid.toInt then .child pid.toInt
    else if pid.toInt = 0 then .own
    else if pid.toInt = -1 then .any
    else .group (-pid.toInt)
  | .waitid idtype id _ _ =>
    if idtype = 1 then .child id.toInt
    else if idtype = 2 then if 0 < id.toInt then .group id.toInt else .own
    else .any

/-- A verdict that fits the children and the selector: no block where none is allowed, no child
that does not match, 0 for matching children that all run, and an error where none matches. -/
structure Right (noBlock : Bool) (sel : Selector) (s : Scene) (v : Verdict) : Prop where
  returns : noBlock = true → v.result ≠ .parked
  found : ∀ c, v.found = some c → c ∈ s.children ∧ c.isZombie = true ∧ sel.picks s c = true
  zero : v.result = .zero → v.found = none →
    (∃ c ∈ s.children, sel.picks s c = true) ∧ ∀ c ∈ s.children, sel.picks s c = true → c.isZombie = false
  echild : v.result ≠ .einval → (v.result = .echild ↔ ∀ c ∈ s.children, sel.picks s c = false)

/-! ### The selector words -/

/-- The casts to `uint32_t` lose nothing of the words the dispatcher passes. -/
theorem beq_ofInt (x : UInt32) {w : Int} (h₀ : 0 ≤ w) (h₁ : w < 2 ^ 32) :
    (x == UInt32.ofInt w) = ((x.toNat : Int) == w) := by
  have hw : ((UInt32.ofInt w).toNat : Int) = w := by
    rw [UInt32.ofInt, UInt32.toNat_ofNat']
    omega
  rw [Bool.eq_iff_iff, beq_iff_eq, beq_iff_eq, ← UInt32.toNat_inj]
  omega

section Words
variable (s : Scene) (c : Child)

theorem selects_eq {w : Int} (hlo : -2 ^ 31 ≤ w) (hhi : w < 2 ^ 31) : selects s w c = waitMatch s w c := by
  unfold selects waitMatch
  split_ifs with hpos hzero hgroup
  · rw [beq_ofInt _ (by omega) (by omega), beq_eq_false_iff_ne.2 (show w ≠ -1 by omega),
      beq_eq_false_iff_ne.2 (show w ≠ 0 by omega)]
    simp [hpos, show ¬ w < -1 by omega]
  · simp [hzero]
  · rw [beq_ofInt _ (by omega) (by omega), beq_eq_false_iff_ne.2 (show w ≠ -1 by omega)]
    simp [hpos, hzero, hgroup]
  · simp [show w = -1 by omega]

theorem waitMatch_wait4 (pid : Int32) (u : UserBuf) (o : UInt64) :
    waitMatch s pid.toInt c = (Call.wait4 pid u o).selector.picks s c := by
  have hlo := pid.le_toInt
  have hhi := pid.toInt_lt
  unfold waitMatch Call.selector
  dsimp only
  split_ifs with hpos hzero hgroup hany
  · exact beq_ofInt _ (by omega) (by omega)
  · rfl
  · omega
  · exact beq_ofInt _ (by omega) (by omega)
  · rfl
  · omega

end Words

/-! ### What a look can decide -/

/-- The three outcomes of a look that tests children by `m`: none passes; a zombie passes and
the first one is taken; some pass, but no zombie does. -/
inductive Looked (noBlock signal : Bool) (m : Child → Bool) (s : Scene) (v : Verdict) : Prop where
  | unmatched (hno : ∀ c ∈ s.children, m c = false) (hr : v.result = .echild) (hf : v.found = none)
  | zombie (z : Child) (hz : s.children.find? (fun c => c.isZombie && m c) = some z)
      (hr : v.result ≠ .echild ∧ v.result ≠ .parked) (hf : v.found = some z)
  | running (hsome : ∃ c ∈ s.children, m c = true)
      (hz : s.children.find? (fun c => c.isZombie && m c) = none)
      (hr : v.result ≠ .echild ∧ v.result ≠ .einval ∧ ∀ pid, v.result ≠ .child pid)
      (hp : v.result = .parked ↔ noBlock = false ∧ signal = false)
      (hf : v.found = none)

/-- Where the test of the code and the selector lead to the same verdict. -/
structure Fits (sel : Selector) (m : Child → Bool) (s : Scene) : Prop where
  matched : (∃ c ∈ s.children, m c = true) → ∃ c ∈ s.children, sel.picks s c = true
  first : ∀ z, s.children.find? (fun c => c.isZombie && m c) = some z → sel.picks s z = true

section Look
variable {noBlock signal : Bool} {m : Child → Bool} {s : Scene} {v : Verdict} {sel : Selector}

theorem mem_of_find {z : Child} (hz : s.children.find? (fun c => c.isZombie && m c) = some z) :
    z ∈ s.children ∧ z.isZombie = true ∧ m z = true := by
  have htest := find?_some hz
  exact ⟨mem_of_find?_eq_some hz, by simpa using htest⟩

theorem not_zombie_of_find (hz : s.children.find? (fun c => c.isZombie && m c) = none) {c : Child}
    (hc : c ∈ s.children) (hm : m c = true) : c.isZombie = false := by
  simpa [hm] using find?_eq_none.mp hz c hc

theorem Looked.parked_iff (h : Looked noBlock signal m s v) :
    v.result = .parked ↔ (∃ c ∈ s.children, m c = true) ∧
      s.children.find? (fun c => c.isZombie && m c) = none ∧ noBlock = false ∧ signal = false := by
  cases h with
  | unmatched hno hr hf => exact iff_of_false (by simp [hr]) fun ⟨⟨c, hc, hm⟩, _⟩ => by simp [hno c hc] at hm
  | zombie z hz hr hf => exact iff_of_false hr.2 (by simp [hz])
  | running hsome hz hr hp hf => exact hp.trans ⟨fun h => ⟨hsome, hz, h⟩, fun h => h.2.2⟩

theorem right_none_iff (hf : v.found = none) (hr : v.result ≠ .echild ∧ v.result ≠ .einval)
    (hp : noBlock = true → v.result ≠ .parked) :
    Right noBlock sel s v ↔ (∃ c ∈ s.children, sel.picks s c = true) ∧
      (v.result = .zero → ∀ c ∈ s.children, sel.picks s c = true → c.isZombie = false) := by
  constructor
  · intro h
    refine ⟨?_, fun hz => (h.zero hz hf).2⟩
    by_contra hno
    exact hr.1 ((h.echild hr.2).mpr (by simpa using hno))
  · rintro ⟨hsome, hz⟩
    exact ⟨hp, by simp [hf], fun hzero _ => ⟨hsome, hz hzero⟩,
      fun _ => iff_of_false hr.1 (by simpa using hsome)⟩

/-- A test that lets everything through that the selector picks gives a right verdict exactly
if it fits. -/
theorem Looked.right_iff (h : Looked noBlock signal m s v)
    (hsub : ∀ c ∈ s.children, sel.picks s c = true → m c = true) :
    Right noBlock sel s v ↔ Fits sel m s := by
  cases h with
  | unmatched hno hr hf =>
    have hpicks : ∀ c ∈ s.children, sel.picks s c = false := fun c hc => by
      simpa [hno c hc] using hsub c hc
    refine iff_of_true ⟨by simp [hr], by simp [hf], by simp [hr], fun _ => iff_of_true hr hpicks⟩
      ⟨fun ⟨c, hc, hm⟩ => ?_, fun z hz => ?_⟩
    · simp [hno c hc] at hm
    · simpa [hno z (mem_of_find hz).1] using (mem_of_find hz).2.2
  | zombie z hz hr hf =>
    obtain ⟨hmem, hzom, hm⟩ := mem_of_find hz
    constructor
    · intro h
      have hpick := (h.found z hf).2.2
      exact ⟨fun _ => ⟨z, hmem, hpick⟩, by simpa [hz] using hpick⟩
    · intro h
      have hpick := h.first z hz
      refine ⟨fun _ => hr.2, by simp [hf, hmem, hzom, hpick], by simp [hf], fun _ => iff_of_false hr.1 fun hno => ?_⟩
      simp [hno z hmem] at hpick
  | running hsome hz hr hp hf =>
    have hblock : noBlock = true → v.result ≠ .parked := fun hnb => by simp [hp, hnb]
    refine (right_none_iff hf ⟨hr.1, hr.2.1⟩ hblock).trans ⟨fun h => ⟨fun _ => h.1, by simp [hz]⟩, fun h => ?_⟩
    exact ⟨h.matched hsome, fun _ c hc hpick => not_zombie_of_find hz hc (hsub c hc hpick)⟩

theorem Looked.congr {v' : Verdict} (h : Looked noBlock signal m s v) (hf : v'.found = v.found)
    (hr : v'.result = v.result ∨ v.found ≠ none ∧ v'.result ≠ .echild ∧ v'.result ≠ .parked) :
    Looked noBlock signal m s v' := by
  cases h with
  | unmatched hno hres hfound =>
    have hr := hr.resolve_right fun hr => hr.1 hfound
    exact .unmatched hno (hr.trans hres) (hf.trans hfound)
  | zombie z hz hres hfound =>
    exact .zombie z hz (hr.elim (fun hr => hr ▸ hres) And.right) (hf.trans hfound)
  | running hsome hz hres hp hfound =>
    have hr := hr.resolve_right fun hr => hr.1 hfound
    exact .running hsome hz (hr ▸ hres) (hr ▸ hp) (hf.trans hfound)

theorem Looked.of_zombie {noBlock' : Bool} (h : Looked noBlock signal m s v)
    (hz : ∃ c ∈ s.children, (c.isZombie && m c) = true) : Looked noBlock' signal m s v := by
  cases h with
  | unmatched hno hr hf => exact .unmatched hno hr hf
  | zombie z hz hr hf => exact .zombie z hz hr hf
  | running hsome hnone hr hp hf =>
    obtain ⟨c, hc, hm⟩ := hz
    exact absurd hm (find?_eq_none.mp hnone c hc)

end Look

section Calls
variable (s : Scene) (w : Int)

theorem any_false {l : List Child} {m : Child → Bool} (h : l.any m = false) : ∀ c ∈ l, m c = false := by
  simpa using h

/-- The caller is woken by a signal or parked, where some pass the test and no zombie does. -/
theorem waits_looked {m : Child → Bool} {s : Scene} (signal : Bool) (hsome : ∃ c ∈ s.children, m c = true)
    (hz : s.children.find? (fun c => c.isZombie && m c) = none) :
    Looked false signal m s (if signal then { result := .eintr } else { result := .parked }) := by
  cases signal <;> exact .running hsome hz (by simp) (by simp) rfl

section
variable (u : UserBuf)

theorem sysWaitPid_looked :
    Looked false s.interrupts (waitMatch s w) s (sysWaitPid w u s) := by
  unfold sysWaitPid waitHasMatch
  cases hany : s.children.any (waitMatch s w) with
  | false => exact .unmatched (any_false hany) rfl rfl
  | true =>
    cases hz : s.children.find? (fun c => c.isZombie && waitMatch s w c) with
    | none => exact waits_looked s.interrupts (any_eq_true.mp hany) hz
    | some z => cases u <;> exact .zombie z hz (by simp) rfl

theorem lxWait4Wait_looked :
    Looked false s.interrupts (waitMatch s w) s (lxWait4Wait w u s) := by
  unfold lxWait4Wait
  have h := sysWaitPid_looked s w u
  dsimp only
  split
  · exact h.congr rfl (.inl rfl)
  · exact h

theorem putInfo_found (si : Siginfo) (v : Verdict) : (putInfo u si v).found = v.found := by
  cases u <;> rfl

theorem putInfo_result_ne (si : Siginfo) (v : Verdict) :
    (putInfo u si v).result ≠ .echild ∧ (putInfo u si v).result ≠ .einval ∧
      (putInfo u si v).result ≠ .parked := by
  cases u <;> simp [putInfo]

theorem Looked.found_ne_none {noBlock signal : Bool} {m : Child → Bool} {s : Scene} {v : Verdict} {pid : UInt32}
    (h : Looked noBlock signal m s v) (hr : v.result = .child pid) : v.found ≠ none := by
  cases h with
  | unmatched _ hr' _ => simp [hr'] at hr
  | zombie z _ _ hf => simp [hf]
  | running _ _ hr' _ _ => exact absurd hr (hr'.2.2 pid)

theorem lxWaitidReap_looked :
    Looked false s.interrupts (waitMatch s w) s (lxWaitidReap w u s) := by
  unfold lxWaitidReap
  have h := sysWaitPid_looked s w u
  generalize sysWaitPid w u s = v at h
  have hput : ∀ (pid : UInt32) (si : Siginfo), v.result = .child pid →
      Looked false s.interrupts (waitMatch s w) s (putInfo u si v) := by
    intro pid si hr
    have hne := putInfo_result_ne u si v
    exact h.congr (putInfo_found u si v) (.inr ⟨h.found_ne_none hr, hne.1, hne.2.2⟩)
  dsimp only
  split
  · exact hput _ _ ‹_›
  · exact hput _ _ ‹_›
  · exact h

theorem noChild_found : (noChild u).found = none := putInfo_found u _ _

theorem noChild_looked {signal : Bool} {m : Child → Bool} (u : UserBuf) (hsome : ∃ c ∈ s.children, m c = true)
    (hz : s.children.find? (fun c => c.isZombie && m c) = none) :
    Looked true signal m s (noChild u) := by
  have hne := putInfo_result_ne u ⟨0, 0, 0, 0⟩ { result := .zero }
  have hchild (pid : UInt32) : (noChild u).result ≠ .child pid := by cases u <;> simp [noChild, putInfo]
  exact .running hsome hz ⟨hne.1, hne.2.1, hchild⟩ (iff_of_false hne.2.2 (by simp)) (noChild_found u)

theorem lxWaitidPeek_looked (o : UInt64) :
    Looked (nohang o) s.killPending (selects s w) s (lxWaitidPeek w u o s) := by
  unfold lxWaitidPeek
  cases hany : s.children.any (selects s w) with
  | false => exact .unmatched (any_false hany) rfl rfl
  | true =>
    have hsome := any_eq_true.mp hany
    cases hz : s.children.find? (fun c => c.isZombie && selects s w c) with
    | some z =>
      have hne := putInfo_result_ne u (lxSiginfoChild z.pid z.exitStatus) { result := .zero, found := z }
      exact .zombie z hz ⟨hne.1, hne.2.2⟩ (putInfo_found u _ _)
    | none =>
      cases nohang o with
      | true => exact noChild_looked s u hsome hz
      | false => exact waits_looked s.killPending hsome hz

end

/-- The signals that end a `waitid` that blocks. -/
def waitidSignal (o : UInt64) (s : Scene) : Bool :=
  if o &&& wnowait ≠ 0 then s.killPending else s.interrupts

variable {w} (hsel : ∀ c, selects s w c = waitMatch s w c)
include hsel

theorem lxWaitidSelect_looked (u : UserBuf) {o : UInt64} (hexit : o &&& wexited ≠ 0) :
    Looked (nohang o) (waitidSignal o s) (selects s w) s (lxWaitidSelect w u o s) := by
  have hfun : waitMatch s w = selects s w := funext fun c => (hsel c).symm
  unfold lxWaitidSelect waitidSignal
  cases hany : s.children.any (selects s w) with
  | false => exact .unmatched (any_false hany) rfl rfl
  | true =>
    rw [if_neg (show ¬ (!true) = true by decide), if_neg hexit]
    by_cases hpeek : o &&& wnowait ≠ 0
    · rw [if_pos hpeek, if_pos hpeek]
      exact lxWaitidPeek_looked s w u o
    · rw [if_neg hpeek, if_neg hpeek]
      have hreap := lxWaitidReap_looked s w u
      rw [hfun] at hreap
      cases nohang o with
      | false => exact hreap
      | true =>
        cases hz : s.children.any (fun c => c.isZombie && selects s w c) with
        | false =>
          exact noChild_looked s u (any_eq_true.mp hany) (by simpa using hz)
        | true => exact hreap.of_zombie (any_eq_true.mp hz)

theorem lxWaitidWait_looked (u : UserBuf) {o : UInt64} (hblock : nohang o = false) :
    Looked false (waitidSignal o s) (selects s w) s (lxWaitidWait w u o s) := by
  have hfun : waitMatch s w = selects s w := funext fun c => (hsel c).symm
  unfold lxWaitidWait waitidSignal
  by_cases hpeek : o &&& wnowait ≠ 0
  · rw [if_pos hpeek, if_pos hpeek, ← hblock]
    exact lxWaitidPeek_looked s w u o
  · rw [if_neg hpeek, if_neg hpeek, ← hfun]
    exact lxWaitidReap_looked s w u

end Calls

/-! ### The looks of a call -/

section Looks
variable {enter wake : Scene → Verdict} {P : Scene × Verdict → Prop}

theorem looks_cons (s : Scene) (rest : List Scene) :
    (∀ d ∈ looks enter wake (s :: rest), P d) ↔
      P (s, enter s) ∧ ((enter s).result = .parked → ∀ d ∈ looks wake wake rest, P d) := by
  rw [looks, forall_mem_cons]
  split_ifs with hp <;> simp [hp]

theorem looks_of_wake (h : ∀ s, P (s, wake s)) (scenes : List Scene) : ∀ d ∈ looks wake wake scenes, P d := by
  induction scenes with
  | nil => simp [looks]
  | cons s rest ih => exact (looks_cons s rest).mpr ⟨h s, fun _ => ih⟩

/-- If every look after a wake-up is right, the first one decides. -/
theorem looks_iff_head (scenes : List Scene) (Q : Scene → Prop) (henter : ∀ s, P (s, enter s) ↔ Q s)
    (hwake : ∀ s, P (s, enter s) → (enter s).result = .parked → ∀ s', P (s', wake s')) :
    (∀ d ∈ looks enter wake scenes, P d) ↔ ∀ s ∈ scenes.head?, Q s := by
  cases scenes with
  | nil => simp [looks]
  | cons s rest =>
    have hrest (hq : Q s) (hp : (enter s).result = .parked) : ∀ d ∈ looks wake wake rest, P d :=
      looks_of_wake (hwake s ((henter s).mpr hq) hp) rest
    rw [looks_cons, henter]
    simpa using hrest

end Looks

/-! ### `wait4` -/

/-- What `wait4` without blocking relies on: where it answers 0 some child matches, and
where it goes on to wait a matching zombie is there (or a signal, or no match at all). -/
structure Wait4Agrees (sel : Selector) (pid : Int) (s : Scene) : Prop where
  answered : s.children ≠ [] → (∃ c ∈ s.children, sel.picks s c = true) ∨ ∃ c ∈ s.children, looseZombie pid c = true
  waits : (∃ c ∈ s.children, looseZombie pid c = true) → (∃ c ∈ s.children, sel.picks s c = true) →
    (∃ c ∈ s.children, c.isZombie = true ∧ sel.picks s c = true) ∨ s.interrupts = true

section Wait4
variable (pid : Int32) (u : UserBuf) (o : UInt64) (s : Scene)

theorem fits_of_eq {sel : Selector} {m : Child → Bool} {s : Scene} (h : ∀ c, m c = sel.picks s c) : Fits sel m s :=
  ⟨fun ⟨c, hc, hm⟩ => ⟨c, hc, h c ▸ hm⟩, fun z hz => h z ▸ (mem_of_find hz).2.2⟩

theorem Looked.right_of_eq {noBlock signal : Bool} {m : Child → Bool} {s : Scene} {v : Verdict} {sel : Selector}
    (h : Looked noBlock signal m s v) (heq : ∀ c, m c = sel.picks s c) : Right noBlock sel s v :=
  (h.right_iff fun c _ hc => (heq c).trans hc).mpr (fits_of_eq heq)

theorem lxWait4Wait_right : Right false (Call.wait4 pid u o).selector s (lxWait4Wait pid.toInt u s) :=
  (lxWait4Wait_looked s pid.toInt u).right_of_eq fun c => waitMatch_wait4 s c pid u o

/-- Every matching zombie is one the check looks for. -/
theorem looseZombie_of_picks {c : Child} (hz : c.isZombie = true)
    (hpick : (Call.wait4 pid u o).selector.picks s c = true) : looseZombie pid.toInt c = true := by
  by_cases hpos : 0 < pid.toInt
  · have hpid : (c.pid.toNat : Int) = pid.toInt := by simpa [Call.selector, hpos, Selector.picks] using hpick
    simp [looseZombie, hz, hpid]
  · simp [looseZombie, hz, show pid.toInt ≤ 0 by omega]

/-- Right without blocking: right, and not parked. -/
theorem right_noBlock {sel : Selector} {v : Verdict} (h : Right false sel s v) :
    Right true sel s v ↔ v.result ≠ .parked :=
  ⟨fun h' => h'.returns rfl, fun hp => ⟨fun _ => hp, h.found, h.zero, h.echild⟩⟩

theorem right_echild_iff {noBlock : Bool} {sel : Selector} :
    Right noBlock sel s { result := .echild } ↔ ∀ c ∈ s.children, sel.picks s c = false := by
  constructor
  · exact fun h => (h.echild (by simp)).mp rfl
  · exact fun hno => ⟨by simp, by simp, by simp, fun _ => iff_of_true rfl hno⟩

theorem lxWait4_right_iff :
    Right (nohang o) (Call.wait4 pid u o).selector s (lxWait4 pid.toInt u o s) ↔
      (nohang o = true → Wait4Agrees (Call.wait4 pid u o).selector pid.toInt s) := by
  have hwait := lxWait4Wait_right pid u o s
  have hloose := fun c => looseZombie_of_picks pid u o s (c := c)
  have hmatch : waitMatch s pid.toInt = fun c => (Call.wait4 pid u o).selector.picks s c :=
    funext fun c => waitMatch_wait4 s c pid u o
  have hpark := (lxWait4Wait_looked s pid.toInt u).parked_iff
  rw [hmatch] at hpark
  unfold lxWait4
  cases hempty : s.children.isEmpty with
  | true =>
    -- Without children neither side asks for anything.
    have hnil := isEmpty_iff.mp hempty
    rw [if_pos rfl, right_echild_iff]
    exact iff_of_true (by simp [hnil]) fun _ => ⟨by simp [hnil], by simp [hnil]⟩
  | false =>
    have hne : s.children ≠ [] := by simpa using hempty
    rw [if_neg (by decide)]
    cases nohang o with
    | false => exact iff_of_true hwait (by simp)
    | true =>
      rw [Bool.true_and]
      cases hany : s.children.any (looseZombie pid.toInt) with
      | false =>
        have hnone := any_false hany
        have hno : ¬ ∃ c ∈ s.children, looseZombie pid.toInt c = true := by simpa using hnone
        rw [if_pos (show (!false) = true from rfl), right_none_iff rfl (by simp) (by simp)]
        constructor
        · exact fun h _ => ⟨fun _ => .inl h.1, fun hl => absurd hl hno⟩
        · refine fun h => ⟨((h rfl).answered hne).resolve_right hno, fun _ c hc hpick => ?_⟩
          by_contra hz
          exact hno ⟨c, hc, hloose c (by simpa using hz) hpick⟩
      | true =>
        have hsome := any_eq_true.mp hany
        rw [if_neg (show ¬ (!true) = true by decide), right_noBlock s hwait, ne_eq, hpark]
        constructor
        · refine fun hgo _ => ⟨fun _ => .inr hsome, fun _ hpick => ?_⟩
          by_contra hno
          rw [not_or, Bool.not_eq_true] at hno
          exact hgo ⟨hpick, by simpa using hno.1, rfl, hno.2⟩
        · rintro h ⟨hpick, hfind, -, hint⟩
          rcases (h rfl).waits hsome hpick with ⟨c, hc, hz, hp⟩ | hint'
          · simpa [hz, hp] using find?_eq_none.mp hfind c hc
          · simp [hint] at hint'

end Wait4

/-! ### `waitid` -/

/-- Only stopped and continued children are asked for, and these are never reported: right
without blocking while no matching child is a zombie, or where no child matches. -/
def Unreported (sel : Selector) (pid : Int) (u : UserBuf) (o : UInt64) (s : Scene) : Prop :=
  if nohang o then
    (∃ c ∈ s.children, selects s pid c = true) → (∃ c ∈ s.children, sel.picks s c = true) ∧
      (u = .null ∨ u = .whole → ∀ c ∈ s.children, sel.picks s c = true → c.isZombie = false)
  else ∀ c ∈ s.children, sel.picks s c = false

/-- Taking any child for one of group 1 makes no difference. -/
structure AsGroupOne (s : Scene) : Prop where
  matched : s.children ≠ [] → ∃ c ∈ s.children, c.pgid = 1
  first : ∀ z, s.children.find? (fun c => c.isZombie) = some z → z.pgid = 1

/-- A `waitid` for any child blocks. -/
def Blocks (o : UInt64) (s : Scene) : Prop :=
  s.children ≠ [] ∧ (∀ c ∈ s.children, c.isZombie = false) ∧ nohang o = false ∧ waitidSignal o s = false

/-- `AsGroupOne` as long as the call waits. -/
def AlwaysAsGroupOne (o : UInt64) : List Scene → Prop
  | [] => True
  | s :: rest => AsGroupOne s ∧ (Blocks o s → AlwaysAsGroupOne o rest)

/-- When every look of a call is right. -/
def Call.Agrees (call : Call) (scenes : List Scene) : Prop :=
  match call with
  | .wait4 pid _ o => ∀ s ∈ scenes.head?, nohang o = true → Wait4Agrees call.selector pid.toInt s
  | .waitid idtype id u o => ∀ pid, waitidArgs idtype id.toInt o = some pid →
    (o &&& wexited = 0 → ∀ s ∈ scenes.head?, Unreported call.selector pid u o s) ∧
    (o &&& wexited ≠ 0 → idtype = 2 → id = 1 → AlwaysAsGroupOne o scenes)

section Waitid
variable {idtype : Int} {id : Int32} {o : UInt64} {pid : Int}

section
variable (h : waitidArgs idtype id.toInt o = some pid)
include h

theorem waitidArgs_cases : idtype = 0 ∧ pid = -1 ∨ idtype = 1 ∧ 0 < id.toInt ∧ pid = id.toInt ∨
      idtype = 2 ∧ 0 < id.toInt ∧ pid = -id.toInt ∨ idtype = 2 ∧ id.toInt ≤ 0 ∧ pid = 0 := by
  unfold waitidArgs waitidWord at h
  split_ifs at h <;> rw [Option.some.injEq] at h <;> omega

theorem waitidArgs_range : -2 ^ 31 ≤ pid ∧ pid < 2 ^ 31 := by
  have hhi := id.toInt_lt
  have hcases := waitidArgs_cases h
  omega

/-- Except for group 1 the word asks for what the caller does. -/
theorem selects_picks (hone : ¬ (idtype = 2 ∧ id = 1)) (u : UserBuf)
    (s : Scene) (c : Child) : selects s pid c = (Call.waitid idtype id u o).selector.picks s c := by
  have hne {a b : Int} (h : a ≠ b) : (a == b) = false := beq_eq_false_iff_ne.mpr h
  unfold selects Call.selector
  dsimp only
  rcases waitidArgs_cases h with ⟨rfl, rfl⟩ | ⟨rfl, hpos, rfl⟩ | ⟨rfl, hpos, rfl⟩ | ⟨rfl, hpos, rfl⟩
  · rfl
  · rw [hne (show id.toInt ≠ -1 by omega), hne (show id.toInt ≠ 0 by omega), if_pos rfl]
    simp [Selector.picks, hpos, show ¬ id.toInt < -1 by omega]
  · have hgroup : id.toInt ≠ 1 := fun h1 => hone ⟨rfl, Int32.toInt_inj.mp h1⟩
    rw [hne (show -id.toInt ≠ -1 by omega), hne (show -id.toInt ≠ 0 by omega), if_neg (by decide), if_pos rfl,
      if_pos hpos]
    simp [Selector.picks, show ¬ id.toInt < 0 by omega, show -id.toInt < -1 by omega]
  · rw [if_neg (by decide), if_pos rfl, if_neg (by omega)]
    simp [Selector.picks]

end

theorem waitidArgs_one (h : waitidArgs 2 (1 : Int32).toInt o = some pid) : pid = -1 := by
  have hcases := waitidArgs_cases h
  have hone : (1 : Int32).toInt = 1 := by decide
  omega

theorem selects_of_picks (h : waitidArgs idtype id.toInt o = some pid) (u : UserBuf) (s : Scene) {c : Child}
    (hpick : (Call.waitid idtype id u o).selector.picks s c = true) : selects s pid c = true := by
  by_cases hone : idtype = 2 ∧ id = 1
  · obtain ⟨rfl, rfl⟩ := hone
    rw [waitidArgs_one h]
    rfl
  · rw [selects_picks h hone u, hpick]

theorem fits_groupOne_iff (u : UserBuf) (s : Scene) :
    Fits (Call.waitid 2 1 u o).selector (selects s (-1)) s ↔ AsGroupOne s := by
  have hpick : ∀ c : Child, (Call.waitid 2 1 u o).selector.picks s c = true ↔ c.pgid = 1 := by
    intro c
    show ((c.pgid.toNat : Int) == (1 : Int32).toInt) = true ↔ _
    rw [beq_iff_eq, ← UInt32.toNat_inj]
    have hone : (1 : Int32).toInt = 1 := by decide
    have hone' : (1 : UInt32).toNat = 1 := rfl
    omega
  have hany : (∃ c ∈ s.children, selects s (-1) c = true) ↔ s.children ≠ [] := by
    simp [selects, eq_nil_iff_forall_not_mem]
  constructor
  · rintro ⟨hmatched, hfirst⟩
    simp only [hpick, hany] at hmatched hfirst
    exact ⟨hmatched, by simpa [selects] using hfirst⟩
  · rintro ⟨hmatched, hfirst⟩
    refine ⟨?_, ?_⟩ <;> simp only [hpick, hany]
    · exact hmatched
    · simpa [selects] using hfirst

theorem blocks_iff {s : Scene} {v : Verdict}
    (h : Looked (nohang o) (waitidSignal o s) (selects s (-1)) s v) : v.result = .parked ↔ Blocks o s := by
  rw [h.parked_iff]
  simp [Blocks, selects, eq_nil_iff_forall_not_mem]

theorem right_noChild_iff {noBlock : Bool} {sel : Selector} (u : UserBuf) (s : Scene) :
    Right noBlock sel s (noChild u) ↔ (∃ c ∈ s.children, sel.picks s c = true) ∧
      (u = .null ∨ u = .whole → ∀ c ∈ s.children, sel.picks s c = true → c.isZombie = false) := by
  have hne := putInfo_result_ne u ⟨0, 0, 0, 0⟩ { result := .zero }
  have hzero : (noChild u).result = .zero ↔ u = .null ∨ u = .whole := by
    cases u <;> decide
  rw [right_none_iff (noChild_found u) ⟨hne.1, hne.2.1⟩ fun _ => hne.2.2, hzero]

theorem lxWaitidSelect_unreported {noBlock : Bool} {sel : Selector} {u : UserBuf} {s : Scene}
    (hsub : ∀ c ∈ s.children, sel.picks s c = true → selects s pid c = true) (hexit : o &&& wexited = 0) :
    (lxWaitidSelect pid u o s).result ≠ .parked ∧
      (Right noBlock sel s (lxWaitidSelect pid u o s) ↔ Unreported sel pid u o s) := by
  unfold lxWaitidSelect Unreported
  cases hany : s.children.any (selects s pid) with
  | false =>
    have hall := any_false hany
    have hno : ∀ c ∈ s.children, sel.picks s c = false := fun c hc => by simpa [hall c hc] using hsub c hc
    refine ⟨by simp, (right_echild_iff s).trans (iff_of_true hno ?_)⟩
    split
    · exact fun ⟨c, hc, hm⟩ => by simp [hall c hc] at hm
    · exact hno
  | true =>
    rw [if_neg (show ¬ (!true) = true by decide), if_pos hexit]
    cases nohang o with
    | true =>
      refine ⟨(putInfo_result_ne u _ _).2.2, (right_noChild_iff u s).trans ⟨fun h _ => h, fun h => ?_⟩⟩
      exact h (any_eq_true.mp hany)
    | false => exact ⟨by simp, right_echild_iff s⟩

theorem looks_groupOne_iff {enter wake : Scene → Verdict} {P : Scene × Verdict → Prop}
    (henter : ∀ s, (P (s, enter s) ↔ AsGroupOne s) ∧ ((enter s).result = .parked ↔ Blocks o s))
    (hwake : nohang o = false →
      ∀ s, (P (s, wake s) ↔ AsGroupOne s) ∧ ((wake s).result = .parked ↔ Blocks o s)) (scenes : List Scene) :
    (∀ d ∈ looks enter wake scenes, P d) ↔ AlwaysAsGroupOne o scenes := by
  induction scenes generalizing enter with
  | nil => simp [looks, AlwaysAsGroupOne]
  | cons s rest ih =>
    rw [looks_cons, (henter s).1, (henter s).2]
    exact and_congr_right fun _ => forall_congr' fun hb => ih (hwake hb.2.2.1)

section Valid
variable (h : waitidArgs idtype id.toInt o = some pid) (u : UserBuf)
include h

theorem enter_waitid (s : Scene) : (Call.waitid idtype id u o).enter s = lxWaitidSelect pid u o s := by
  show lxWaitid idtype id.toInt u o s = _
  unfold lxWaitid
  rw [h]

theorem wake_waitid (s : Scene) : (Call.waitid idtype id u o).wake s = lxWaitidWait pid u o s := by
  unfold Call.wake
  dsimp only
  rw [h]

theorem enter_looked (hexit : o &&& wexited ≠ 0) (s : Scene) :
    Looked (nohang o) (waitidSignal o s) (selects s pid) s ((Call.waitid idtype id u o).enter s) := by
  rw [enter_waitid h]
  exact lxWaitidSelect_looked s (fun c => selects_eq s c (waitidArgs_range h).1 (waitidArgs_range h).2) u hexit

theorem wake_looked (hb : nohang o = false) (s : Scene) :
    Looked (nohang o) (waitidSignal o s) (selects s pid) s ((Call.waitid idtype id u o).wake s) := by
  rw [wake_waitid h, hb]
  exact lxWaitidWait_looked s (fun c => selects_eq s c (waitidArgs_range h).1 (waitidArgs_range h).2) u hb

end Valid

theorem waitid_groupOne_iff (h : waitidArgs 2 (1 : Int32).toInt o = some pid) (u : UserBuf)
    (hexit : o &&& wexited ≠ 0) (scenes : List Scene) :
    (∀ d ∈ (Call.waitid 2 1 u o).looks scenes,
      Right (nohang o) (Call.waitid 2 1 u o).selector d.1 d.2) ↔ AlwaysAsGroupOne o scenes := by
  obtain rfl := waitidArgs_one h
  have hlook : ∀ s v, Looked (nohang o) (waitidSignal o s) (selects s (-1)) s v →
      (Right (nohang o) (Call.waitid 2 1 u o).selector s v ↔ AsGroupOne s) ∧
        (v.result = .parked ↔ Blocks o s) := by
    intro s v hv
    exact ⟨(hv.right_iff fun c _ hc => selects_of_picks h u s hc).trans (fits_groupOne_iff u s), blocks_iff hv⟩
  exact looks_groupOne_iff (fun s => hlook s _ (enter_looked h u hexit s))
    (fun hb s => hlook s _ (wake_looked h u hb s)) scenes

theorem waitid_right (h : waitidArgs idtype id.toInt o = some pid) (hone : ¬ (idtype = 2 ∧ id = 1)) (u : UserBuf)
    (hexit : o &&& wexited ≠ 0) (scenes : List Scene) :
    ∀ d ∈ (Call.waitid idtype id u o).looks scenes,
      Right (nohang o) (Call.waitid idtype id u o).selector d.1 d.2 := by
  have heq := selects_picks h hone u
  refine (looks_iff_head scenes (fun _ => True) (fun s => ?_) fun s hright hp s' => ?_).mpr fun _ _ => trivial
  · exact ⟨fun _ => trivial, fun _ => (enter_looked h u hexit s).right_of_eq (heq s)⟩
  · cases hb : nohang o with
    | true => exact absurd hp (hright.returns hb)
    | false =>
      have hwake := (wake_looked h u hb s').right_of_eq (heq s')
      rwa [hb] at hwake

theorem waitid_refused (h : waitidArgs idtype id.toInt o = none) (u : UserBuf) (scenes : List Scene) :
    ∀ d ∈ (Call.waitid idtype id u o).looks scenes,
      Right (nohang o) (Call.waitid idtype id u o).selector d.1 d.2 := by
  have henter : (Call.waitid idtype id u o).enter = fun _ => { result := .einval } := by
    funext s
    show lxWaitid idtype id.toInt u o s = _
    unfold lxWaitid
    rw [h]
  refine (looks_iff_head scenes (fun _ => True) (fun s => ⟨fun _ => trivial, fun _ => ?_⟩)
    fun s _ hp => ?_).mpr fun _ _ => trivial
  · rw [henter]
    exact ⟨by simp, by simp, by simp, by simp⟩
  · simp [henter] at hp

theorem waitid_unreported_iff (h : waitidArgs idtype id.toInt o = some pid) (u : UserBuf)
    (hexit : o &&& wexited = 0) (scenes : List Scene) :
    (∀ d ∈ (Call.waitid idtype id u o).looks scenes,
      Right (nohang o) (Call.waitid idtype id u o).selector d.1 d.2) ↔
      ∀ s ∈ scenes.head?, Unreported (Call.waitid idtype id u o).selector pid u o s := by
  have hsub := fun s c (_ : c ∈ s.children) => selects_of_picks h u s (c := c)
  refine looks_iff_head scenes _ (fun s => ?_) fun s _ hp => ?_
  · rw [enter_waitid h]
    exact (lxWaitidSelect_unreported (hsub s) hexit).2
  · rw [enter_waitid h] at hp
    have hright : _ ∧ (Right true _ s _ ↔ _) := lxWaitidSelect_unreported (u := u) (hsub s) hexit
    exact absurd hp hright.1

end Waitid

/-- **The looks of a wait are right** exactly under these conditions: without blocking, `wait4`
finds a matching child where it answers 0 and a matching zombie where it sees some zombie;
`waitid` is asked for exits, or has no matching child to report; and where it is asked for
group 1, any child will do. -/
theorem waits_right_iff (call : Call) (scenes : List Scene) :
    (∀ d ∈ call.looks scenes, Right (nohang call.options) call.selector d.1 d.2) ↔ call.Agrees scenes := by
  cases call with
  | wait4 pid u o =>
    refine looks_iff_head scenes _ (fun s => lxWait4_right_iff pid u o s) fun s hright hp s' => ?_
    cases hb : nohang o with
    | true => exact absurd hp (hright.returns hb)
    | false =>
      show Right (nohang o) _ _ _
      rw [hb]
      exact lxWait4Wait_right pid u o s'
  | waitid idtype id u o =>
    cases h : waitidArgs idtype id.toInt o with
    | none =>
      refine iff_of_true (waitid_refused h u scenes) fun pid hpid => ?_
      exact absurd (hpid.symm.trans h) (Option.some_ne_none pid)
    | some pid =>
      have hagrees : (Call.waitid idtype id u o).Agrees scenes ↔
          (o &&& wexited = 0 → ∀ s ∈ scenes.head?, Unreported (Call.waitid idtype id u o).selector pid u o s) ∧
          (o &&& wexited ≠ 0 → idtype = 2 → id = 1 → AlwaysAsGroupOne o scenes) :=
        ⟨fun ha => ha pid h, fun ha pid' hpid' => Option.some.inj (h.symm.trans hpid') ▸ ha⟩
      rw [hagrees]
      by_cases hexit : o &&& wexited = 0
      · exact (waitid_unreported_iff h u hexit scenes).trans
          ⟨fun hu => ⟨fun _ => hu, fun hne => absurd hexit hne⟩, fun ha => ha.1 hexit⟩
      · by_cases hone : idtype = 2 ∧ id = 1
        · obtain ⟨rfl, rfl⟩ := hone
          exact (waitid_groupOne_iff h u hexit scenes).trans
            ⟨fun hg => ⟨fun he => absurd he hexit, fun _ _ _ => hg⟩, fun ha => ha.2 hexit rfl rfl⟩
        · exact iff_of_true (waitid_right h hone u hexit scenes)
            ⟨fun he => absurd he hexit, fun _ h₁ h₂ => absurd ⟨h₁, h₂⟩ hone⟩

/-- A child of group 7 that runs and a zombie of group 9. -/
def family : List Child := [⟨20, 7, 0, false⟩, ⟨21, 9, 3, true⟩]

def familyScene : Scene := ⟨2, family, false, false⟩

/-- `wait4(-7, NULL, WNOHANG)` blocks; `wait4(22, NULL, WNOHANG)` returns 0 without a child 22;
`waitid(P_PGID, 1, NULL, WEXITED)` takes the zombie of group 9; and
`waitid(P_ALL, 0, NULL, WSTOPPED)` finds no child. -/
theorem waits_wrong :
    (lxWait4 (-7) .null 1 familyScene).result = .parked ∧
      (lxWait4 22 .null 1 familyScene).result = .zero ∧
      (lxWaitid 2 1 .null 4 familyScene).found = family[1]? ∧
      (lxWaitid 2 1 .null 4 familyScene).reaped = true ∧
      (lxWaitid 0 0 .null 2 familyScene).result = .echild ∧
      ¬ (∀ d ∈ (Call.wait4 (-7) .null 1).looks [familyScene],
        Right true (Call.wait4 (-7) .null 1).selector d.1 d.2) := by
  refine ⟨by decide, by decide, by decide, by decide, by decide, fun h => ?_⟩
  have hright := h _ mem_cons_self
  exact hright.returns rfl (by decide)

end InDevOS.Process
