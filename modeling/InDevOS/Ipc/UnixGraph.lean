import InDevOS.Ipc.UnixEndpoint

/-! The graph of AF_UNIX endpoints: creating, naming, connecting, accepting and destroying
them.

`unix_graph_sound`: after every sequence of these operations each peer and each backlog
entry is an endpoint on the list, connected stream ends point at each other, no two
endpoints hold one name, and an endpoint that no socket refers to waits in the backlog of
exactly one listener.

Between the sections of one operation an endpoint may belong to nobody: it has been made
and has no descriptor yet, or its socket is gone and it is about to be destroyed. The
invariant carries those in a list, `loose`, which is empty between operations. -/
namespace InDevOS.Ipc
open Function List UxWorld

/-! ### The operations -/

inductive UxRet where
  | ok
  | fail (e : UxErrno)
  /-- Asleep, or going round its loop. -/
  | blocked
deriving DecidableEq, Repr

/-- `ux_new_fd`; `fd` is the error, if the process has no descriptor to give. -/
def uxNewFd (w : UxWorld) (e : Nat) (fd : Option UxErrno) : UxRet × UxWorld :=
  match fd with
  | none => (.ok, { w with handles := e :: w.handles })
  | some err => (.fail err, w)

/-- A descriptor for `e`, which is destroyed if there is none. -/
def uxFdOrDestroy (w : UxWorld) (e : Nat) (fd : Option UxErrno) : UxRet × UxWorld :=
  match uxNewFd w e fd with
  | (.fail err, w) => (.fail err, uxDestroy w.all.length w e)
  | r => r

/-- `ux_release`, the last close of a socket. -/
def uxRelease (w : UxWorld) (e : Nat) : UxWorld :=
  uxDestroy w.all.length { w with handles := w.handles.erase e } e

def uxSocket (w : UxWorld) (pid type : Nat) (alloc : Option Nat) (fd : Option UxErrno) :
    UxRet × UxWorld :=
  match uxTypeOk (type % 16), alloc with
  | none, _ => (.fail .eprotonosupport, w)
  | some _, none => (.fail .enomem, w)
  | some t, some e => uxFdOrDestroy (uxEpNew w t pid e) e fd

/-- Make two endpoints each other's peer. -/
def uxPair (w : UxWorld) (pid a b : Nat) : UxWorld :=
  (w.modify a fun x => { x with peer := some b, state := .conn, peerPid := pid }).modify b
    fun x => { x with peer := some a, state := .conn, peerPid := pid }

/-- The descriptors of `ux_socketpair`; `copied` says whether their numbers reached the user. -/
def uxPairFds (w : UxWorld) (a b : Nat) (fdA fdB : Option UxErrno) (copied : Bool) :
    UxRet × UxWorld :=
  match fdA, fdB with
  | some err, _ => (.fail err, uxDestroy w.all.length (uxDestroy w.all.length w a) b)
  | none, some err =>
    let w := { w with handles := a :: w.handles }
    (.fail err, uxDestroy w.all.length (uxRelease w a) b)
  | none, none =>
    let w := { w with handles := b :: a :: w.handles }
    if copied then (.ok, w) else (.fail .efault, uxRelease (uxRelease w a) b)

def uxSocketpair (w : UxWorld) (pid type : Nat) (usvOk : Bool) (allocA allocB : Option Nat)
    (fdA fdB : Option UxErrno) (copied : Bool) : UxRet × UxWorld :=
  match uxTypeOk (type % 16) with
  | none => (.fail .eprotonosupport, w)
  | some t =>
    if !usvOk then (.fail .efault, w)
    else
      match allocA, allocB with
      | some a, some b => uxPairFds (uxPair (uxEpNew (uxEpNew w t pid a) t pid b) pid a b) a b fdA fdB copied
      | some a, none => (.fail .enomem, uxDestroy (w.all.length + 1) (uxEpNew w t pid a) a)
      | none, some b => (.fail .enomem, uxDestroy (w.all.length + 1) (uxEpNew w t pid b) b)
      | none, none => (.fail .enomem, w)

/-- The abstract name of five hexadecimal digits that the counter gives. -/
def autobindName (c : UInt32) : List UInt8 :=
  let hx (i : Nat) : UInt8 :=
    let d := c.toNat / 2 ^ (16 - 4 * i) % 16
    UInt8.ofNat (if d < 10 then 48 + d else 87 + d)
  [0, hx 0, hx 1, hx 2, hx 3, hx 4]

/-- The number of names the loop can try before it comes back to the first. -/
def autobindNames : Nat := 2 ^ 20

/-- The autobind loop: counter and name, or `none` when every name is taken and the loop
does not end. -/
def autobind (w : UxWorld) : (tries : Nat) → (ctr : UInt32) → Option (UInt32 × List UInt8)
  | 0, _ => none
  | tries + 1, ctr =>
    let nm := autobindName (ctr + 1)
    if (uxLookup w nm).isSome then autobind w tries (ctr + 1) else some (ctr + 1, nm)

/-- The name is written into the endpoint and registered, a path also as it was spelled. -/
def uxName (w : UxWorld) (e : Nat) (nm dn : List UInt8) : UxWorld :=
  w.modify e fun x =>
    { x with name := nm, reg := true, dname := if nm.headD 0 ≠ 0 then dn else [] }

/-- `ux_bind`; `addr` is what `lx_unix_parse_addr` made of the address and `dn` the path in
the caller's spelling. -/
def uxBind (w : UxWorld) (e : Nat) (addr : Except UxErrno (List UInt8)) (dn : List UInt8) :
    UxRet × UxWorld :=
  match addr with
  | .error err => (.fail err, w)
  | .ok nm =>
    if (w.ep e).name ≠ [] then (.fail .einval, w)
    else if nm = [] then
      match autobind w autobindNames w.autobindCtr with
      | none => (.blocked, w)
      | some (ctr, nm) => (.ok, uxName { w with autobindCtr := ctr } e nm dn)
    else if (uxLookup w nm).isSome then (.fail .eaddrinuse, w)
    else (.ok, uxName w e nm dn)

def clipBacklog (backlog : Int) : Nat := min (max backlog 1).toNat uxBacklog

def uxListen (w : UxWorld) (e : Nat) (backlog : Int) : UxRet × UxWorld :=
  if (w.ep e).type = .dgram then (.fail .eopnotsupp, w)
  else if (w.ep e).name = [] ∨ (w.ep e).state = .conn then (.fail .einval, w)
  else (.ok, w.modify e fun x => { x with backlog := clipBacklog backlog, state := .listen })

/-- An address given to `ux_connect`: its family, `none` when it is too short to have one
and `some none` when it cannot be read, and what `lx_unix_parse_addr` makes of it. -/
structure UxAddr where
  fam : Option (Option UInt16)
  parsed : Except UxErrno (List UInt8)

/-- The second section of a stream connect: the server end and the client are joined and
the server end is put in the backlog. -/
def uxJoin (w : UxWorld) (pid e t srv : Nat) : UxWorld :=
  let w := w.modify srv fun x =>
    { x with pid := (w.ep t).pid, peerPid := pid, listener := some t, name := (w.ep t).name,
             state := .conn, peer := some e }
  let w := w.modify e fun x => { x with peer := some srv, peerPid := (w.ep t).pid, state := .conn }
  w.modify t fun x => { x with bl := x.bl ++ [srv] }

/-- The loop of `ux_connect`. `allocs` are the allocations of its rounds; a server end made
for nothing is destroyed. -/
def uxConnectLoop (pid e : Nat) (nb : Bool) (nm : List UInt8) :
    (allocs : List (Option Nat)) → UxWorld → UxRet × UxWorld
  | [], w => (.blocked, w)
  | alloc :: allocs, w =>
    match uxLookup w nm with
    | none => (.fail (if nm.headD 0 ≠ 0 then .enoent else .econnrefused), w)
    | some t =>
      if (w.ep t).type ≠ (w.ep e).type then (.fail .eprototype, w)
      else if (w.ep e).type = .dgram then
        (.ok, w.modify e fun x =>
          { x with peer := some t, peerGone := false, peerPid := (w.ep t).pid, state := .conn })
      else if (w.ep e).state = .conn then (.fail .eisconn, w)
      else if (w.ep e).state = .listen then (.fail .einval, w)
      else if (w.ep t).state ≠ .listen then (.fail .econnrefused, w)
      else if (w.ep t).bl.length < (w.ep t).backlog then
        match alloc with
        | none => (.fail .enomem, w)
        | some srv =>
          let w' := uxEpNew w (w.ep e).type 0 srv
          if uxLookup w' nm ≠ some t ∨ (w'.ep t).state ≠ .listen ∨
              (w'.ep t).backlog ≤ (w'.ep t).bl.length ∨ (w'.ep e).state ≠ .new then
            uxConnectLoop pid e nb nm allocs (uxDestroy w'.all.length w' srv)
          else (.ok, uxJoin w' pid e t srv)
      else if nb then (.fail .eagain, w)
      else (.blocked, w)

def uxConnect (w : UxWorld) (pid e : Nat) (nb : Bool) (addr : UxAddr) (allocs : List (Option Nat)) :
    UxRet × UxWorld :=
  match addr.fam with
  | some none => (.fail .efault, w)
  | fam =>
    if fam = some (some 0) ∧ (w.ep e).type = .dgram then
      (.ok, w.modify e fun x => { x with peer := none, peerGone := false, state := .new })
    else
      match addr.parsed with
      | .error err => (.fail err, w)
      | .ok nm => if nm = [] then (.fail .einval, w) else uxConnectLoop pid e nb nm allocs w

/-- The first end of the backlog is taken off it. -/
def uxPop (w : UxWorld) (e srv : Nat) (bl : List Nat) : UxWorld :=
  (w.modify e fun x => { x with bl := bl }).modify srv fun x => { x with listener := none }

def uxAccept (w : UxWorld) (e : Nat) (nb : Bool) (fd : Option UxErrno) : UxRet × UxWorld :=
  if (w.ep e).type = .dgram then (.fail .eopnotsupp, w)
  else if (w.ep e).state ≠ .listen then (.fail .einval, w)
  else
    match (w.ep e).bl with
    | [] => (if nb then .fail .eagain else .blocked, w)
    | srv :: bl => uxFdOrDestroy (uxPop w e srv bl) srv fd

/-! ### Sequences of operations -/

inductive UxOp where
  | socket (pid type : Nat) (alloc : Option Nat) (fd : Option UxErrno)
  | socketpair (pid type : Nat) (usvOk : Bool) (allocA allocB : Option Nat)
      (fdA fdB : Option UxErrno) (copied : Bool)
  | bind (e : Nat) (addr : Except UxErrno (List UInt8)) (dn : List UInt8)
  | listen (e : Nat) (backlog : Int)
  | connect (pid e : Nat) (nb : Bool) (addr : UxAddr) (allocs : List (Option Nat))
  | accept (e : Nat) (nb : Bool) (fd : Option UxErrno)
  | destroy (e : Nat)

def UxWorld.step (w : UxWorld) : UxOp → UxWorld
  | .socket pid type alloc fd => (uxSocket w pid type alloc fd).2
  | .socketpair pid type usvOk allocA allocB fdA fdB copied =>
    (uxSocketpair w pid type usvOk allocA allocB fdA fdB copied).2
  | .bind e addr dn => (uxBind w e addr dn).2
  | .listen e backlog => (uxListen w e backlog).2
  | .connect pid e nb addr allocs => (uxConnect w pid e nb addr allocs).2
  | .accept e nb fd => (uxAccept w e nb fd).2
  | .destroy e => uxRelease w e

/-- The allocator gives addresses that are not in use, and a process names an endpoint
through a socket. -/
def UxWorld.allows (w : UxWorld) : UxOp → Prop
  | .socket _ _ alloc _ => ∀ a ∈ alloc, a ∉ w.all
  | .socketpair _ _ _ allocA allocB _ _ _ =>
    (∀ a ∈ allocA, a ∉ w.all) ∧ ∀ b ∈ allocB, b ∉ w.all ∧ allocA ≠ some b
  | .bind e _ _ => e ∈ w.handles
  | .listen e _ => e ∈ w.handles
  | .connect _ e _ _ allocs => e ∈ w.handles ∧ ∀ a, some a ∈ allocs → a ∉ w.all
  | .accept e _ _ => e ∈ w.handles
  | .destroy e => e ∈ w.handles

def UxWorld.run (w : UxWorld) (ops : List UxOp) : UxWorld := ops.foldl UxWorld.step w

def UxWorld.Admissible (w : UxWorld) : List UxOp → Prop
  | [] => True
  | op :: ops => w.allows op ∧ (w.step op).Admissible ops

/-! ### The invariant -/

/-- Peers are endpoints of the same type, and those of connected streams are mutual. -/
structure Links (all : List Nat) (ep : Nat → UxEp) : Prop where
  live : ∀ i ∈ all, ∀ j, (ep i).peer = some j → j ∈ all ∧ (ep j).type = (ep i).type
  back : ∀ i ∈ all, (ep i).type ≠ .dgram → ∀ j, (ep i).peer = some j → (ep j).peer = some i
  conn : ∀ i ∈ all, (ep i).type ≠ .dgram → (ep i).state ≠ .conn → (ep i).peer = none

structure Names (all : List Nat) (ep : Nat → UxEp) : Prop where
  ne_nil : ∀ i ∈ all, (ep i).reg = true → (ep i).name ≠ []
  unique : ∀ i ∈ all, ∀ j ∈ all, (ep i).reg = true → (ep j).reg = true →
    (ep i).name = (ep j).name → i = j

/-- Every endpoint has a socket, is loose, or waits in one backlog. -/
structure Queues (all handles loose : List Nat) (ep : Nat → UxEp) : Prop where
  all_nodup : all.Nodup
  handles_nodup : handles.Nodup
  loose_nodup : loose.Nodup
  handles_live : ∀ i ∈ handles, i ∈ all
  loose_live : ∀ i ∈ loose, i ∈ all ∧ i ∉ handles
  bl_nodup : ∀ i ∈ all, (ep i).bl.Nodup
  bl_live : ∀ i ∈ all, ∀ j ∈ (ep i).bl, j ∈ all ∧ j ∉ handles ∧ j ∉ loose
  bl_unique : ∀ i ∈ all, ∀ k ∈ all, ∀ j, j ∈ (ep i).bl → j ∈ (ep k).bl → i = k
  placed : ∀ j ∈ all, j ∈ handles ∨ j ∈ loose ∨ ∃ i ∈ all, j ∈ (ep i).bl
  bound : ∀ i ∈ all, (ep i).backlog ≤ uxBacklog ∧ (ep i).bl.length ≤ uxBacklog
  listening : ∀ i ∈ all, (ep i).bl ≠ [] → (ep i).state = .listen ∧ (ep i).type ≠ .dgram

/-- None of these operations sends anything. -/
def Quiet (ep : Nat → UxEp) : Prop :=
  ∀ i, (ep i).rx = [] ∧ (ep i).rxBytes = 0 ∧ (ep i).rxCount = 0

structure UxWorld.Inv (w : UxWorld) (loose : List Nat) : Prop where
  links : Links w.all w.ep
  names : Names w.all w.ep
  queues : Queues w.all w.handles loose w.ep
  quiet : Quiet w.ep

theorem Links.congr {all : List Nat} {ep ep' : Nat → UxEp} (h : Links all ep)
    (hc : ∀ i, (ep' i).type = (ep i).type ∧ ((ep i).state = .conn → (ep' i).state = .conn) ∧
      (ep' i).peer = (ep i).peer) : Links all ep' where
  live i hi j hj := by
    rw [(hc i).2.2] at hj
    rw [(hc i).1, (hc j).1]
    exact h.live i hi j hj
  back i hi ht j hj := by
    rw [(hc i).1] at ht
    rw [(hc i).2.2] at hj
    rw [(hc j).2.2]
    exact h.back i hi ht j hj
  conn i hi ht hs := by
    rw [(hc i).1] at ht
    rw [(hc i).2.2]
    exact h.conn i hi ht fun hconn => hs ((hc i).2.1 hconn)

theorem Names.of_kept {all all' : List Nat} {ep ep' : Nat → UxEp} (h : Names all ep)
    (hc : ∀ i ∈ all', (ep' i).reg = true →
      i ∈ all ∧ (ep i).reg = true ∧ (ep' i).name = (ep i).name) : Names all' ep' where
  ne_nil i hi hr := by
    obtain ⟨hi', hr', hn⟩ := hc i hi hr
    rw [hn]
    exact h.ne_nil i hi' hr'
  unique i hi j hj hri hrj hn := by
    obtain ⟨hi', hri', hni⟩ := hc i hi hri
    obtain ⟨hj', hrj', hnj⟩ := hc j hj hrj
    rw [hni, hnj] at hn
    exact h.unique i hi' j hj' hri' hrj' hn

theorem Names.congr {all : List Nat} {ep ep' : Nat → UxEp} (h : Names all ep)
    (hc : ∀ i, (ep' i).reg = (ep i).reg ∧ ((ep i).reg = true → (ep' i).name = (ep i).name)) :
    Names all ep' := by
  refine h.of_kept fun i hi hr => ?_
  rw [(hc i).1] at hr
  exact ⟨hi, hr, (hc i).2 hr⟩

section Queues
variable {all handles loose : List Nat} {ep ep' : Nat → UxEp}

/-- All backlogs, one after the other. -/
def backlogs (all : List Nat) (ep : Nat → UxEp) : List Nat := all.flatMap fun i => (ep i).bl

theorem backlogs_congr (h : ∀ i ∈ all, (ep' i).bl = (ep i).bl) : backlogs all ep' = backlogs all ep :=
  flatMap_congr h

theorem count_backlogs {t : Nat} (ht : t ∈ all) (a : Nat) :
    (backlogs all ep).count a = (ep t).bl.count a + (backlogs (all.erase t) ep).count a := by
  unfold backlogs
  rw [((perm_cons_erase ht).flatMap_right _).count_eq, flatMap_cons, count_append]

theorem count_backlogs_update (hnd : all.Nodup) {t : Nat} (ht : t ∈ all)
    (hother : ∀ i, i ≠ t → (ep' i).bl = (ep i).bl) (a : Nat) :
    (backlogs all ep').count a + (ep t).bl.count a = (backlogs all ep).count a + (ep' t).bl.count a := by
  have hrest : backlogs (all.erase t) ep' = backlogs (all.erase t) ep :=
    backlogs_congr fun i hi => hother i (hnd.mem_erase_iff.mp hi).1
  rw [count_backlogs ht, count_backlogs ht, hrest]
  omega

/-- The sockets' endpoints, the loose ones and those in backlogs are all endpoints, each once. -/
theorem Queues.parts (h : Queues all handles loose ep) (a : Nat) :
    handles.count a + loose.count a + (backlogs all ep).count a = all.count a := by
  have hbacklogs : (backlogs all ep).Nodup :=
    nodup_flatMap.mpr ⟨h.bl_nodup, h.all_nodup.pairwise_of_forall_ne fun i hi k hk hik j hji hjk =>
      hik (h.bl_unique i hi k hk j hji hjk)⟩
  have hrest : (loose ++ backlogs all ep).Nodup := h.loose_nodup.append hbacklogs fun j hl hb => by
    obtain ⟨i, hi, hj⟩ := mem_flatMap.mp hb
    exact (h.bl_live i hi j hj).2.2 hl
  have hcat : (handles ++ (loose ++ backlogs all ep)).Nodup := h.handles_nodup.append hrest fun j hh hb => by
    rcases mem_append.mp hb with hl | hb
    · exact (h.loose_live j hl).2 hh
    · obtain ⟨i, hi, hj⟩ := mem_flatMap.mp hb
      exact (h.bl_live i hi j hj).2.1 hh
  have hperm : (handles ++ (loose ++ backlogs all ep)).Perm all := by
    refine (perm_ext_iff_of_nodup hcat h.all_nodup).mpr fun j => ?_
    rw [mem_append, mem_append, backlogs, mem_flatMap]
    refine ⟨?_, h.placed j⟩
    rintro (hh | hl | ⟨i, hi, hj⟩)
    · exact h.handles_live j hh
    · exact (h.loose_live j hl).1
    · exact (h.bl_live i hi j hj).1
  rw [← hperm.count_eq a, count_append, count_append, Nat.add_assoc]

theorem Queues.of_parts (hnd : all.Nodup)
    (hparts : ∀ a, handles.count a + loose.count a + (backlogs all ep).count a = all.count a)
    (hbound : ∀ i ∈ all, (ep i).backlog ≤ uxBacklog ∧ (ep i).bl.length ≤ uxBacklog)
    (hlistening : ∀ i ∈ all, (ep i).bl ≠ [] → (ep i).state = .listen ∧ (ep i).type ≠ .dgram) :
    Queues all handles loose ep := by
  have hperm : (handles ++ (loose ++ backlogs all ep)).Perm all := perm_iff_count.mpr fun a => by
    rw [count_append, count_append, ← Nat.add_assoc, hparts a]
  have hmem : ∀ j, j ∈ handles ∨ j ∈ loose ∨ (∃ i ∈ all, j ∈ (ep i).bl) ↔ j ∈ all := fun j => by
    rw [← hperm.mem_iff, mem_append, mem_append, backlogs, mem_flatMap]
  obtain ⟨hhandles, hrest, hapart⟩ := nodup_append'.mp (hperm.nodup_iff.mpr hnd)
  obtain ⟨hloose, hbacklogs, hapart'⟩ := nodup_append'.mp hrest
  obtain ⟨hbl, hdisjoint⟩ := nodup_flatMap.mp hbacklogs
  have hsymm : Std.Symm (onFun List.Disjoint fun i => (ep i).bl) := ⟨fun _ _ h => h.symm⟩
  have hin : ∀ {i j}, i ∈ all → j ∈ (ep i).bl → j ∈ backlogs all ep := fun hi hj =>
    mem_flatMap.mpr ⟨_, hi, hj⟩
  exact
    { all_nodup := hnd
      handles_nodup := hhandles
      loose_nodup := hloose
      handles_live := fun i hi => (hmem i).mp (.inl hi)
      loose_live := fun i hi => ⟨(hmem i).mp (.inr (.inl hi)), fun hh => hapart hh (mem_append_left _ hi)⟩
      bl_nodup := hbl
      bl_live := fun i hi j hj => ⟨(hmem j).mp (.inr (.inr ⟨i, hi, hj⟩)),
        fun hh => hapart hh (mem_append_right _ (hin hi hj)), fun hl => hapart' hl (hin hi hj)⟩
      bl_unique := fun i hi k hk j hji hjk => by_contra fun hik =>
        hdisjoint.forall hi hk hik hji hjk
      placed := fun j hj => (hmem j).mpr hj
      bound := hbound
      listening := hlistening }

theorem Queues.congr (h : Queues all handles loose ep)
    (hc : ∀ i, (ep' i).bl = (ep i).bl ∧ (ep' i).backlog ≤ max (ep i).backlog uxBacklog ∧
      (ep' i).type = (ep i).type ∧
      ((ep i).type ≠ .dgram → (ep i).state = .listen → (ep' i).state = .listen)) :
    Queues all handles loose ep' := by
  refine .of_parts h.all_nodup (fun a => ?_) (fun i hi => ?_) fun i hi hne => ?_
  · rw [backlogs_congr fun i _ => (hc i).1]
    exact h.parts a
  · rw [(hc i).1]
    have := h.bound i hi
    have := (hc i).2.1
    omega
  · rw [(hc i).1] at hne
    obtain ⟨hs, ht⟩ := h.listening i hi hne
    exact ⟨(hc i).2.2.2 ht hs, (hc i).2.2.1 ▸ ht⟩

theorem Queues.rehome {handles' loose' : List Nat} (h : Queues all handles loose ep)
    (hsame : ∀ a, handles'.count a + loose'.count a = handles.count a + loose.count a) :
    Queues all handles' loose' ep :=
  .of_parts h.all_nodup (fun a => by rw [hsame a]; exact h.parts a) h.bound h.listening

end Queues

variable {w : UxWorld} {loose : List Nat}

theorem Quiet.modify (h : Quiet w.ep) (i : Nat) {f : UxEp → UxEp}
    (hf : (f (w.ep i)).rx = (w.ep i).rx ∧ (f (w.ep i)).rxBytes = (w.ep i).rxBytes ∧
      (f (w.ep i)).rxCount = (w.ep i).rxCount) : Quiet (w.modify i f).ep := by
  intro j
  rw [w.modify_proj (π := UxEp.rx) i j hf.1, w.modify_proj (π := UxEp.rxBytes) i j hf.2.1,
    w.modify_proj (π := UxEp.rxCount) i j hf.2.2]
  exact h j

theorem UxWorld.inv_start : UxWorld.start.Inv [] where
  links := ⟨by simp [UxWorld.start], by simp [UxWorld.start], by simp [UxWorld.start]⟩
  names := ⟨by simp [UxWorld.start], by simp [UxWorld.start]⟩
  queues := by constructor <;> simp [UxWorld.start]
  quiet := fun _ => ⟨rfl, rfl, rfl⟩

/-! ### Making endpoints and giving them away -/

theorem uxEpNew_ep_of_mem {id i : Nat} (hid : id ∉ w.all) (hi : i ∈ w.all)
    (type : UxType) (pid : Nat) : (uxEpNew w type pid id).ep i = w.ep i := by
  have hne : i ≠ id := fun he => hid (he ▸ hi)
  exact update_of_ne hne ..

theorem UxWorld.Inv.new (h : w.Inv loose) {id : Nat}
    (hid : id ∉ w.all) (type : UxType) (pid : Nat) :
    (uxEpNew w type pid id).Inv (id :: loose) := by
  have hself : (uxEpNew w type pid id).ep id = { type := type, pid := pid } :=
    update_self ..
  have hother : ∀ {i}, i ∈ w.all → (uxEpNew w type pid id).ep i = w.ep i := fun hi =>
    uxEpNew_ep_of_mem hid hi type pid
  have hcases : ∀ {i}, i ∈ (uxEpNew w type pid id).all → i = id ∨ i ∈ w.all :=
    fun hi => mem_cons.mp hi
  have hsub : ∀ {i}, i ∈ w.all → i ∈ (uxEpNew w type pid id).all := fun hi =>
    mem_cons_of_mem _ hi
  refine ⟨⟨?_, ?_, ?_⟩, h.names.of_kept ?_, ?_, fun j => ?_⟩
  · intro i hi j hj
    rcases hcases hi with rfl | hi
    · simp [hself] at hj
    · rw [hother hi] at hj ⊢
      obtain ⟨hlive, htype⟩ := h.links.live i hi j hj
      exact ⟨hsub hlive, by rw [hother hlive, htype]⟩
  · intro i hi ht j hj
    rcases hcases hi with rfl | hi
    · simp [hself] at hj
    · rw [hother hi] at hj ht
      rw [hother (h.links.live i hi j hj).1]
      exact h.links.back i hi ht j hj
  · intro i hi ht hs
    rcases hcases hi with rfl | hi
    · rw [hself]
    · rw [hother hi] at ht hs ⊢
      exact h.links.conn i hi ht hs
  · intro i hi hr
    rcases hcases hi with rfl | hi
    · simp [hself] at hr
    · rw [hother hi] at hr ⊢
      exact ⟨hi, hr, rfl⟩
  · refine .of_parts (nodup_cons.mpr ⟨hid, h.queues.all_nodup⟩) (fun a => ?_) (fun i hi => ?_)
      fun i hi hne => ?_
    · have hbl : backlogs (id :: w.all) (uxEpNew w type pid id).ep = backlogs w.all w.ep := by
        rw [backlogs, flatMap_cons, hself, nil_append]
        exact backlogs_congr fun i hi => by rw [hother hi]
      have hparts := h.queues.parts a
      show _ + _ + (backlogs (id :: w.all) _).count a = (id :: w.all).count a
      rw [hbl, count_cons, count_cons, ← hparts]
      show w.handles.count a + _ + _ = _
      omega
    · rcases hcases hi with rfl | hi
      · simp [hself]
      · rw [hother hi]; exact h.queues.bound i hi
    · rcases hcases hi with rfl | hi
      · simp [hself] at hne
      · rw [hother hi] at hne ⊢; exact h.queues.listening i hi hne
  · rcases eq_or_ne j id with rfl | hj
    · simp [hself]
    · rw [show (uxEpNew w type pid id).ep j = w.ep j from update_of_ne hj ..]
      exact h.quiet j

theorem UxWorld.Inv.hold {e : Nat} (h : w.Inv (e :: loose)) :
    ({ w with handles := e :: w.handles } : UxWorld).Inv loose := by
  refine ⟨h.links, h.names, h.queues.rehome fun a => ?_, h.quiet⟩
  rw [count_cons, count_cons]
  omega

theorem UxWorld.Inv.drop {e : Nat} (h : w.Inv loose)
    (he : e ∈ w.handles) :
    ({ w with handles := w.handles.erase e } : UxWorld).Inv (e :: loose) := by
  refine ⟨h.links, h.names, h.queues.rehome fun a => ?_, h.quiet⟩
  rw [(perm_cons_erase he).count_eq a, count_cons, count_cons]
  show (w.handles.erase e).count a + _ = _
  omega

/-! ### Destroying them -/

theorem uxDetach_ep_self (w : UxWorld) (e : Nat) :
    (uxDetach w e).1.ep e = (w.ep e).emptied := if_pos rfl

/-- What an endpoint keeps when another goes. -/
theorem uxDetach_proj {α : Type} {π : UxEp → α} (w : UxWorld) {e x : Nat} (hx : x ≠ e)
    (hπ : ∀ y, π y.orphan = π y) : π ((uxDetach w e).1.ep x) = π (w.ep x) := by
  simp only [uxDetach, if_neg hx]
  split_ifs
  · exact hπ _
  · rfl

theorem uxDetach_peer (w : UxWorld) {e x : Nat} (hx : x ∈ (uxDetach w e).1.all) (hxe : x ≠ e) :
    ((uxDetach w e).1.ep x).peer = if (w.ep x).peer = some e then none else (w.ep x).peer := by
  have hx' : x ∈ w.all.erase e := hx
  simp only [uxDetach, if_neg hxe, hx', true_and]
  split_ifs
  · rfl
  · rfl

theorem UxWorld.Inv.detach {e : Nat} (h : w.Inv (e :: loose)) :
    (uxDetach w e).1.Inv ((w.ep e).bl ++ loose) := by
  have q := h.queues
  have hlive := (q.loose_live e mem_cons_self).1
  have hmem : ∀ {i}, i ∈ (uxDetach w e).1.all ↔ i ≠ e ∧ i ∈ w.all := q.all_nodup.mem_erase_iff
  have htype : ∀ {i}, i ≠ e → ((uxDetach w e).1.ep i).type = (w.ep i).type := fun hi =>
    uxDetach_proj w hi fun _ => rfl
  have hstate : ∀ {i}, i ≠ e → ((uxDetach w e).1.ep i).state = (w.ep i).state := fun hi =>
    uxDetach_proj w hi fun _ => rfl
  have hbl : ∀ {i}, i ≠ e → ((uxDetach w e).1.ep i).bl = (w.ep i).bl := fun hi =>
    uxDetach_proj w hi fun _ => rfl
  have hpeer : ∀ {i j}, i ∈ (uxDetach w e).1.all → ((uxDetach w e).1.ep i).peer = some j →
      j ≠ e ∧ (w.ep i).peer = some j := by
    intro i j hi hj
    rw [uxDetach_peer w hi (hmem.mp hi).1] at hj
    split_ifs at hj with hp
    exact ⟨fun hje => hp (hje ▸ hj), hj⟩
  refine ⟨⟨?_, ?_, ?_⟩, h.names.of_kept ?_, ?_, fun j => ?_⟩
  · intro i hi j hj
    obtain ⟨hje, hj⟩ := hpeer hi hj
    obtain ⟨hjl, hty⟩ := h.links.live i (hmem.mp hi).2 j hj
    rw [htype hje, htype (hmem.mp hi).1]
    exact ⟨hmem.mpr ⟨hje, hjl⟩, hty⟩
  · intro i hi ht j hj
    obtain ⟨hje, hj⟩ := hpeer hi hj
    rw [htype (hmem.mp hi).1] at ht
    have hjl := (h.links.live i (hmem.mp hi).2 j hj).1
    have hback := h.links.back i (hmem.mp hi).2 ht j hj
    rw [uxDetach_peer w (hmem.mpr ⟨hje, hjl⟩) hje, hback, if_neg]
    exact fun hie => (hmem.mp hi).1 (Option.some.inj hie)
  · intro i hi ht hs
    rw [htype (hmem.mp hi).1] at ht
    rw [hstate (hmem.mp hi).1] at hs
    rw [uxDetach_peer w hi (hmem.mp hi).1, h.links.conn i (hmem.mp hi).2 ht hs]
    exact ite_self none
  · intro i hi hr
    have hreg := uxDetach_proj (π := UxEp.reg) w (hmem.mp hi).1 fun _ => rfl
    exact ⟨(hmem.mp hi).2, hreg ▸ hr, uxDetach_proj w (hmem.mp hi).1 fun _ => rfl⟩
  · refine .of_parts (q.all_nodup.erase e) (fun a => ?_) (fun i hi => ?_) fun i hi hne => ?_
    · have hparts := q.parts a
      rw [count_backlogs hlive, (perm_cons_erase hlive).count_eq, count_cons, count_cons] at hparts
      rw [backlogs_congr fun i hi => hbl (hmem.mp hi).1, count_append]
      show w.handles.count a + _ + (backlogs (w.all.erase e) w.ep).count a = (w.all.erase e).count a
      omega
    · have hlog := uxDetach_proj (π := UxEp.backlog) w (hmem.mp hi).1 fun _ => rfl
      rw [hbl (hmem.mp hi).1, hlog]
      exact q.bound i (hmem.mp hi).2
    · rw [hbl (hmem.mp hi).1] at hne
      rw [htype (hmem.mp hi).1, hstate (hmem.mp hi).1]
      exact q.listening i (hmem.mp hi).2 hne
  · rcases eq_or_ne j e with rfl | hj
    · rw [uxDetach_ep_self]
      exact ⟨rfl, rfl, rfl⟩
    · have hdata := uxDetach_proj (π := fun x => (x.rx, x.rxBytes, x.rxCount)) w hj fun _ => rfl
      simp only [Prod.mk.injEq] at hdata
      simpa [hdata] using h.quiet j

theorem uxDetach_length {e : Nat} (he : e ∈ w.all) :
    (uxDetach w e).1.all.length + 1 = w.all.length := by
  have hlen : (w.all.erase e).length = w.all.length - 1 := length_erase_of_mem he
  have hpos := length_pos_of_mem he
  show (w.all.erase e).length + 1 = _
  omega

/-- Destroying a loose endpoint, and with it everything in its backlog. -/
theorem UxWorld.Inv.destroy (depth : Nat) : ∀ {w : UxWorld} {e : Nat} {loose : List Nat},
    w.Inv (e :: loose) → w.all.length ≤ depth →
    (uxDestroy depth w e).Inv loose ∧ (uxDestroy depth w e).all.length ≤ w.all.length := by
  induction depth with
  | zero =>
    intro w e loose h hd
    have := length_pos_of_mem (h.queues.loose_live e mem_cons_self).1
    omega
  | succ depth ih =>
    intro w e loose h hd
    have hlen := uxDetach_length (h.queues.loose_live e mem_cons_self).1
    -- what is left of the backlog is loose, and there is depth for each of it
    have hfold : ∀ (pend : List Nat) {w' : UxWorld}, w'.Inv (pend ++ loose) →
        w'.all.length ≤ depth → (pend.foldl (uxDestroy depth) w').Inv loose ∧
          (pend.foldl (uxDestroy depth) w').all.length ≤ w'.all.length := by
      intro pend
      induction pend with
      | nil => intro w' h' _; exact ⟨h', le_refl _⟩
      | cons p pend ihp =>
        intro w' h' hd'
        obtain ⟨hinv, hle⟩ := ih h' hd'
        obtain ⟨hinv', hle'⟩ := ihp hinv (hle.trans hd')
        exact ⟨hinv', hle'.trans hle⟩
    obtain ⟨hinv, hle⟩ := hfold (w.ep e).bl h.detach (by omega)
    refine ⟨hinv, ?_⟩
    have hle : (uxDestroy (depth + 1) w e).all.length ≤ (uxDetach w e).1.all.length := hle
    omega

theorem UxWorld.Inv.fdOrDestroy {e : Nat} (h : w.Inv (e :: loose))
    (fd : Option UxErrno) : (uxFdOrDestroy w e fd).2.Inv loose := by
  cases fd with
  | none => exact h.hold
  | some err => exact (Inv.destroy _ h (le_refl _)).1

theorem UxWorld.Inv.release {e : Nat} (h : w.Inv loose)
    (he : e ∈ w.handles) : (uxRelease w e).Inv loose :=
  (Inv.destroy _ (h.drop he) (le_refl _)).1

/-! ### Naming and listening -/

theorem UxWorld.Inv.name (h : w.Inv loose) {e : Nat}
    {nm : List UInt8} (hnm : nm ≠ []) (hfree : uxLookup w nm = none) (dn : List UInt8) :
    (uxName w e nm dn).Inv loose := by
  have hstate : ∀ i, ((uxName w e nm dn).ep i).state = (w.ep i).state := fun i =>
    w.modify_proj e i rfl
  have hbacklog : ∀ i, ((uxName w e nm dn).ep i).backlog = (w.ep i).backlog := fun i =>
    w.modify_proj e i rfl
  refine ⟨h.links.congr fun i => ⟨w.modify_proj e i rfl, (hstate i).trans, w.modify_proj e i rfl⟩,
    ⟨?_, ?_⟩, h.queues.congr fun i =>
      ⟨w.modify_proj e i rfl, ?_, w.modify_proj e i rfl, fun _ => (hstate i).trans⟩,
    h.quiet.modify e ⟨rfl, rfl, rfl⟩⟩
  · intro i hi hr
    simp only [uxName, modify_ep, apply_ite UxEp.reg, apply_ite UxEp.name] at hr ⊢
    split_ifs at hr ⊢
    · exact hnm
    · exact h.names.ne_nil i hi hr
  · intro i hi j hj hri hrj hn
    simp only [uxName, modify_ep, apply_ite UxEp.reg, apply_ite UxEp.name] at hri hrj hn
    split_ifs at hri hrj hn with hie hje hje
    · exact hie.trans hje.symm
    · exact absurd hn.symm (uxLookup_none hnm hfree hj hrj)
    · exact absurd hn (uxLookup_none hnm hfree hi hri)
    · exact h.names.unique i hi j hj hri hrj hn
  · rw [hbacklog i]
    exact le_max_left _ _

theorem autobind_free (tries : Nat) : ∀ {ctr ctr' : UInt32} {nm : List UInt8},
    autobind w tries ctr = some (ctr', nm) → nm ≠ [] ∧ uxLookup w nm = none := by
  induction tries with
  | zero => intro ctr ctr' nm h; cases h
  | succ tries ih =>
    intro ctr ctr' nm h
    rw [autobind] at h
    split_ifs at h with htaken
    · exact ih h
    · obtain ⟨-, rfl⟩ := Prod.mk.injEq .. ▸ Option.some.inj h
      exact ⟨cons_ne_nil _ _, Option.not_isSome_iff_eq_none.mp htaken⟩

theorem UxWorld.Inv.bind (h : w.Inv loose) (e : Nat)
    (addr : Except UxErrno (List UInt8)) (dn : List UInt8) : (uxBind w e addr dn).2.Inv loose := by
  unfold uxBind
  cases addr with
  | error err => exact h
  | ok nm =>
    dsimp only
    split_ifs with hbound hnil htaken
    · exact h
    · cases hauto : autobind w autobindNames w.autobindCtr with
      | none => exact h
      | some r =>
        obtain ⟨ctr, nm'⟩ := r
        obtain ⟨hnm, hfree⟩ := autobind_free _ hauto
        exact Inv.name (w := { w with autobindCtr := ctr }) 
          ⟨h.links, h.names, h.queues, h.quiet⟩ hnm hfree dn
    · exact h
    · exact h.name hnil (Option.not_isSome_iff_eq_none.mp htaken) dn

theorem UxWorld.Inv.listen (h : w.Inv loose) (e : Nat)
    (backlog : Int) : (uxListen w e backlog).2.Inv loose := by
  unfold uxListen
  split_ifs with hdgram hrefused
  · exact h
  · exact h
  · rw [not_or] at hrefused
    dsimp only
    refine ⟨h.links.congr fun i => ⟨w.modify_proj e i rfl, ?_, w.modify_proj e i rfl⟩,
      h.names.congr fun i => ⟨w.modify_proj e i rfl, fun _ => w.modify_proj e i rfl⟩,
      h.queues.congr fun i => ⟨w.modify_proj e i rfl, ?_, w.modify_proj e i rfl, fun _ => ?_⟩,
      h.quiet.modify e ⟨rfl, rfl, rfl⟩⟩
    all_goals rw [w.modify_ep]; split_ifs with hie
    · exact fun hconn => absurd (hie ▸ hconn) hrefused.2
    · exact id
    · exact (Nat.min_le_right _ _).trans (le_max_right _ _)
    · exact le_max_left _ _
    · exact fun _ => rfl
    · exact id

/-! ### Connecting -/

/-- One end of a datagram socket is pointed elsewhere; nothing about it is mutual. -/
theorem UxWorld.Inv.point (h : w.Inv loose) {e : Nat}
    (hdgram : (w.ep e).type = .dgram) {f : UxEp → UxEp}
    (hf : (f (w.ep e)).type = (w.ep e).type ∧ (f (w.ep e)).bl = (w.ep e).bl ∧
      (f (w.ep e)).backlog = (w.ep e).backlog ∧ (f (w.ep e)).reg = (w.ep e).reg ∧
      (f (w.ep e)).name = (w.ep e).name)
    (hdata : (f (w.ep e)).rx = (w.ep e).rx ∧ (f (w.ep e)).rxBytes = (w.ep e).rxBytes ∧
      (f (w.ep e)).rxCount = (w.ep e).rxCount)
    (hpeer : ∀ t, (f (w.ep e)).peer = some t → t ∈ w.all ∧ (w.ep t).type = .dgram) :
    (w.modify e f).Inv loose := by
  obtain ⟨hft, hfb, hfl, hfr, hfn⟩ := hf
  have htype : ∀ i, ((w.modify e f).ep i).type = (w.ep i).type := fun i =>
    w.modify_proj e i hft
  refine ⟨⟨?_, ?_, ?_⟩, h.names.congr fun i => ⟨w.modify_proj e i hfr, fun _ =>
    w.modify_proj e i hfn⟩, ?_, h.quiet.modify e hdata⟩
  · intro i hi j hj
    rw [htype i, htype j]
    rw [w.modify_ep] at hj
    split_ifs at hj with hie
    · rw [hie, hdgram]
      exact hpeer j hj
    · exact h.links.live i hi j hj
  · intro i hi ht j hj
    rw [htype i] at ht
    have hie : i ≠ e := fun hie => ht (hie ▸ hdgram)
    rw [w.modify_ep_of_ne hie] at hj
    have hje : j ≠ e := by
      intro hje
      rw [← (h.links.live i hi j hj).2, hje] at ht
      exact ht hdgram
    rw [w.modify_ep_of_ne hje]
    exact h.links.back i hi ht j hj
  · intro i hi ht hs
    rw [htype i] at ht
    have hie : i ≠ e := fun hie => ht (hie ▸ hdgram)
    rw [w.modify_ep_of_ne hie] at hs ⊢
    exact h.links.conn i hi ht hs
  · refine h.queues.congr fun i => ⟨w.modify_proj e i hfb, ?_, htype i, fun ht hs => ?_⟩
    · rw [w.modify_proj (π := UxEp.backlog) e i hfl]
      exact le_max_left _ _
    · have hie : i ≠ e := fun hie => ht (hie ▸ hdgram)
      rwa [w.modify_ep_of_ne hie]

theorem Links.join {all : List Nat} {ep ep' : Nat → UxEp} (h : Links all ep) {a b : Nat}
    (ha : a ∈ all) (hb : b ∈ all) (htype : (ep a).type = (ep b).type)
    (hpa : (ep a).peer = none) (hpb : (ep b).peer = none)
    (htypes : ∀ i, (ep' i).type = (ep i).type)
    (ha' : (ep' a).peer = some b ∧ (ep' a).state = .conn)
    (hb' : (ep' b).peer = some a ∧ (ep' b).state = .conn)
    (hother : ∀ i, i ≠ a → i ≠ b → (ep' i).peer = (ep i).peer ∧ (ep' i).state = (ep i).state) :
    Links all ep' := by
  have hcases : ∀ i j, (ep' i).peer = some j → i = a ∧ j = b ∨ i = b ∧ j = a ∨ (ep i).peer = some j := by
    intro i j hj
    by_cases hia : i = a
    · exact .inl ⟨hia, by simpa [hia, ha'.1, eq_comm] using hj⟩
    · by_cases hib : i = b
      · exact .inr (.inl ⟨hib, by simpa [hib, hb'.1, eq_comm] using hj⟩)
      · exact .inr (.inr ((hother i hia hib).1 ▸ hj))
  refine ⟨?_, ?_, ?_⟩
  · intro i hi j hj
    rw [htypes i, htypes j]
    obtain ⟨rfl, rfl⟩ | ⟨rfl, rfl⟩ | hj := hcases i j hj
    · exact ⟨hb, htype.symm⟩
    · exact ⟨ha, htype⟩
    · exact h.live i hi j hj
  · intro i hi ht j hj
    rw [htypes i] at ht
    obtain ⟨rfl, rfl⟩ | ⟨rfl, rfl⟩ | hj := hcases i j hj
    · exact hb'.1
    · exact ha'.1
    · have hback := h.back i hi ht j hj
      -- nobody of this type points at an endpoint without a peer
      have hja : j ≠ a := by rintro rfl; simp [hpa] at hback
      have hjb : j ≠ b := by rintro rfl; simp [hpb] at hback
      rw [(hother j hja hjb).1]
      exact hback
  · intro i hi ht hs
    have hia : i ≠ a := fun he => hs (he ▸ ha'.2)
    have hib : i ≠ b := fun he => hs (he ▸ hb'.2)
    rw [htypes i] at ht
    rw [(hother i hia hib).2] at hs
    rw [(hother i hia hib).1]
    exact h.conn i hi ht hs

theorem UxWorld.Inv.pair (h : w.Inv loose) {a b : Nat}
    (ha : a ∈ w.all) (hb : b ∈ w.all) (hab : a ≠ b) (htype : (w.ep a).type = (w.ep b).type)
    (hna : (w.ep a).state = .new ∧ (w.ep a).peer = none)
    (hnb : (w.ep b).state = .new ∧ (w.ep b).peer = none) (pid : Nat) :
    (uxPair w pid a b).Inv loose := by
  have hother : ∀ i, i ≠ a → i ≠ b → (uxPair w pid a b).ep i = w.ep i := by
    intro i hia hib
    rw [uxPair, modify_ep_of_ne _ hib, modify_ep_of_ne _ hia]
  have hproj : ∀ {α : Type} (π : UxEp → α),
      (∀ x p, π { x with peer := some p, state := .conn, peerPid := pid } = π x) →
      ∀ i, π ((uxPair w pid a b).ep i) = π (w.ep i) := fun π hπ i =>
    (modify_proj _ b i (hπ _ _)).trans (w.modify_proj a i (hπ _ _))
  refine ⟨h.links.join ha hb htype hna.2 hnb.2 (hproj UxEp.type fun _ _ => rfl)
    (by simp [uxPair, modify_ep, hab]) (by simp [uxPair, modify_ep])
    fun i hia hib => ⟨by rw [hother i hia hib], by rw [hother i hia hib]⟩,
    h.names.congr fun i => ⟨hproj UxEp.reg (fun _ _ => rfl) i, fun _ =>
      hproj UxEp.name (fun _ _ => rfl) i⟩,
    h.queues.congr fun i => ⟨hproj UxEp.bl (fun _ _ => rfl) i, ?_,
      hproj UxEp.type (fun _ _ => rfl) i, fun _ hl => ?_⟩,
    (h.quiet.modify a ⟨rfl, rfl, rfl⟩).modify b ⟨rfl, rfl, rfl⟩⟩
  · rw [hproj UxEp.backlog (fun _ _ => rfl) i]
    exact le_max_left _ _
  · have hia : i ≠ a := by rintro rfl; simp [hna.1] at hl
    have hib : i ≠ b := by rintro rfl; simp [hnb.1] at hl
    rw [hother i hia hib]
    exact hl

/-- A listener's backlog changes, by endpoints that become loose or stop being it. -/
theorem Queues.update {all handles loose loose' : List Nat} {t : Nat} {ep ep' : Nat → UxEp}
    (h : Queues all handles loose ep) (ht : t ∈ all)
    (hlisten : (ep t).state = .listen ∧ (ep t).type ≠ .dgram)
    (hmoved : ∀ a, loose'.count a + (ep' t).bl.count a = loose.count a + (ep t).bl.count a)
    (hroom : (ep' t).bl.length ≤ uxBacklog) (hother : ∀ i, i ≠ t → (ep' i).bl = (ep i).bl)
    (hkept : ∀ i, (ep' i).backlog = (ep i).backlog ∧ (ep' i).type = (ep i).type ∧
      ((ep i).state = .listen → (ep' i).state = .listen)) :
    Queues all handles loose' ep' := by
  refine .of_parts h.all_nodup (fun a => ?_) (fun i hi => ?_) fun i hi hne => ?_
  · have hparts := h.parts a
    have hupdate := count_backlogs_update h.all_nodup ht hother a
    have hmove := hmoved a
    omega
  · rw [(hkept i).1]
    refine ⟨(h.bound i hi).1, ?_⟩
    rcases eq_or_ne i t with rfl | hit
    · exact hroom
    · exact hother i hit ▸ (h.bound i hi).2
  · rw [(hkept i).2.1]
    rcases eq_or_ne i t with rfl | hit
    · exact ⟨(hkept i).2.2 hlisten.1, hlisten.2⟩
    · rw [hother i hit] at hne
      obtain ⟨hs, hty⟩ := h.listening i hi hne
      exact ⟨(hkept i).2.2 hs, hty⟩

theorem UxWorld.Inv.join {pid e t srv : Nat}
    (h : w.Inv (srv :: loose)) (he : e ∈ w.all) (ht : t ∈ w.all) (hse : srv ≠ e) (hst : srv ≠ t)
    (hsrv : (w.ep srv).peer = none ∧ (w.ep srv).reg = false ∧ (w.ep srv).type = (w.ep e).type ∧
      (w.ep srv).state = .new)
    (hstream : (w.ep e).type ≠ .dgram) (htype : (w.ep t).type = (w.ep e).type)
    (hnew : (w.ep e).state = .new) (hlisten : (w.ep t).state = .listen)
    (hroom : (w.ep t).bl.length < (w.ep t).backlog) : (uxJoin w pid e t srv).Inv loose := by
  have hlive := (h.queues.loose_live srv mem_cons_self).1
  have het : e ≠ t := by rintro rfl; simp [hnew] at hlisten
  have hpe : (w.ep e).peer = none := h.links.conn e he hstream (by simp [hnew])
  have hepsrv : (uxJoin w pid e t srv).ep srv =
      { w.ep srv with pid := (w.ep t).pid, peerPid := pid, listener := some t,
                      name := (w.ep t).name, state := .conn, peer := some e } := by
    rw [uxJoin, modify_ep_of_ne _ hst, modify_ep_of_ne _ hse, modify_ep_self]
  have hepe : (uxJoin w pid e t srv).ep e =
      { w.ep e with peer := some srv, peerPid := (w.ep t).pid, state := .conn } := by
    rw [uxJoin, modify_ep_of_ne _ het, modify_ep_self, modify_ep_of_ne _ hse.symm, modify_ep_of_ne _ hst.symm]
  have hept : (uxJoin w pid e t srv).ep t = { w.ep t with bl := (w.ep t).bl ++ [srv] } := by
    rw [uxJoin, modify_ep_self, modify_ep_of_ne _ het.symm, modify_ep_of_ne _ hst.symm]
  have hother : ∀ i, i ≠ srv → i ≠ e → i ≠ t → (uxJoin w pid e t srv).ep i = w.ep i := by
    intro i his hie hit
    rw [uxJoin, modify_ep_of_ne _ hit, modify_ep_of_ne _ hie, modify_ep_of_ne _ his]
  have hkept : ∀ i, ((uxJoin w pid e t srv).ep i).type = (w.ep i).type ∧
      ((uxJoin w pid e t srv).ep i).reg = (w.ep i).reg ∧
      ((uxJoin w pid e t srv).ep i).backlog = (w.ep i).backlog := by
    intro i
    rcases eq_or_ne i srv with rfl | his
    · simp [hepsrv]
    rcases eq_or_ne i e with rfl | hie
    · simp [hepe]
    rcases eq_or_ne i t with rfl | hit
    · simp [hept]
    · simp [hother i his hie hit]
  refine ⟨h.links.join hlive he hsrv.2.2.1 hsrv.1 hpe (hkept · |>.1) (by simp [hepsrv]) (by simp [hepe])
      fun i his hie => ?_, h.names.congr fun i => ⟨(hkept i).2.1, fun hr => ?_⟩,
    h.queues.update ht ⟨hlisten, htype ▸ hstream⟩ (fun a => ?_) ?_ (fun i hit => ?_)
      fun i => ⟨(hkept i).2.2, (hkept i).1, fun hl => ?_⟩,
    ((h.quiet.modify srv ⟨rfl, rfl, rfl⟩).modify e ⟨rfl, rfl, rfl⟩).modify t ⟨rfl, rfl, rfl⟩⟩
  · by_cases hit : i = t
    · simp [hit, hept]
    · simp [hother i his hie hit]
  · have his : i ≠ srv := by rintro rfl; simp [hsrv.2.1] at hr
    by_cases hie : i = e
    · rw [hie, hepe]
    · by_cases hit : i = t
      · rw [hit, hept]
      · rw [hother i his hie hit]
  · rw [hept, count_append, count_singleton, count_cons]
    omega
  · rw [hept, length_append, length_singleton]
    exact Nat.succ_le_of_lt (hroom.trans_le (h.queues.bound t ht).1)
  · rw [uxJoin, modify_ep_of_ne _ hit]
    exact (modify_proj (π := UxEp.bl) _ e i rfl).trans (w.modify_proj srv i rfl)
  · have his : i ≠ srv := by rintro rfl; simp [hsrv.2.2.2] at hl
    have hie : i ≠ e := by rintro rfl; simp [hnew] at hl
    rcases eq_or_ne i t with rfl | hit
    · rw [hept, hlisten]
    · rw [hother i his hie hit, hl]

/-! ### Operations and sequences -/

theorem uxDestroy_new_all (w : UxWorld) (id : Nat) (type : UxType) (pid : Nat)
    (depth : Nat) : (uxDestroy (depth + 1) (uxEpNew w type pid id) id).all = w.all := by
  have hbl : ((uxEpNew w type pid id).ep id).bl = [] := by
    show (update w.ep id _ id).bl = []
    rw [update_self]
  show (foldl (uxDestroy depth) (uxDetach (uxEpNew w type pid id) id).1
    ((uxEpNew w type pid id).ep id).bl).all = w.all
  rw [hbl]
  exact erase_cons_head ..

theorem UxWorld.Inv.connectLoop {pid e : Nat} {nb : Bool} {nm : List UInt8}
    (allocs : List (Option Nat)) : ∀ {w : UxWorld}, w.Inv [] → e ∈ w.all →
    (∀ a, some a ∈ allocs → a ∉ w.all) → (uxConnectLoop pid e nb nm allocs w).2.Inv [] := by
  induction allocs with
  | nil => intro w h _ _; exact h
  | cons alloc allocs ih =>
    intro w h he hfresh
    rw [uxConnectLoop]
    cases hlook : uxLookup w nm with
    | none => exact h
    | some t =>
      obtain ⟨ht, -, -⟩ := uxLookup_some hlook
      dsimp only
      split_ifs with htype hdgram hconn hlistening hrefused hroom hnb
      · exact h
      · rw [not_not] at htype
        dsimp only
        refine h.point hdgram ?_ ?_ fun x hx => ?_
        · exact ⟨rfl, rfl, rfl, rfl, rfl⟩
        · exact ⟨rfl, rfl, rfl⟩
        · rw [← Option.some.inj hx]
          exact ⟨ht, htype.trans hdgram⟩
      · exact h
      · exact h
      · exact h
      · cases alloc with
        | none => exact h
        | some srv =>
          have hsrv : srv ∉ w.all := hfresh srv mem_cons_self
          have hnew := h.new hsrv (w.ep e).type 0
          have hempty : (uxEpNew w (w.ep e).type 0 srv).ep srv =
              { type := (w.ep e).type, pid := 0 } := update_self ..
          have hepe := uxEpNew_ep_of_mem hsrv he (w.ep e).type 0
          have hept := uxEpNew_ep_of_mem hsrv ht (w.ep e).type 0
          dsimp only
          split_ifs with hagain
          · have hall := uxDestroy_new_all w srv (w.ep e).type 0 w.all.length
            refine ih (Inv.destroy _ hnew (le_refl _)).1 ?_ fun a ha => ?_
            · exact hall ▸ he
            · exact hall ▸ hfresh a (mem_cons_of_mem _ ha)
          · push Not at hagain
            refine hnew.join (mem_cons_of_mem _ he) (mem_cons_of_mem _ ht)
              (fun hse => hsrv (hse ▸ he)) (fun hst => hsrv (hst ▸ ht)) ?_ ?_ ?_ hagain.2.2.2
              hagain.2.1 hagain.2.2.1
            · rw [hempty, hepe]
              exact ⟨rfl, rfl, rfl, rfl⟩
            · rw [hepe]
              exact hdgram
            · rw [hepe, hept]
              exact not_not.mp htype
      · exact h
      · exact h

theorem UxWorld.Inv.connect (h : w.Inv []) {e : Nat} (he : e ∈ w.handles)
    {allocs : List (Option Nat)} (hfresh : ∀ a, some a ∈ allocs → a ∉ w.all) (pid : Nat) (nb : Bool)
    (addr : UxAddr) : (uxConnect w pid e nb addr allocs).2.Inv [] := by
  unfold uxConnect
  split
  · exact h
  · split_ifs with hdissolve
    · dsimp only
      refine h.point hdissolve.2 ?_ ?_ fun x hx => ?_
      · exact ⟨rfl, rfl, rfl, rfl, rfl⟩
      · exact ⟨rfl, rfl, rfl⟩
      · cases hx
    · cases addr.parsed with
      | error err => exact h
      | ok nm =>
        dsimp only
        split_ifs
        · exact h
        · exact Inv.connectLoop allocs h (h.queues.handles_live e he) hfresh

theorem uxPop_proj {α : Type} {π : UxEp → α} (w : UxWorld) (e srv : Nat) (bl : List Nat)
    (hbl : ∀ x, π { x with bl := bl } = π x) (hlistener : ∀ x, π { x with listener := none } = π x)
    (i : Nat) : π ((uxPop w e srv bl).ep i) = π (w.ep i) :=
  (modify_proj _ srv i (hlistener _)).trans (w.modify_proj e i (hbl _))

theorem UxWorld.Inv.accept (h : w.Inv []) {e : Nat} (he : e ∈ w.handles) (nb : Bool)
    (fd : Option UxErrno) : (uxAccept w e nb fd).2.Inv [] := by
  have hlive := h.queues.handles_live e he
  unfold uxAccept
  cases hbl : (w.ep e).bl with
  | nil => split_ifs <;> exact h
  | cons srv bl =>
    dsimp only
    split_ifs with hdgram hlisten
    · exact h
    · exact h
    refine Inv.fdOrDestroy ?_ fd
    have hlen := (h.queues.bound e hlive).2
    rw [hbl, length_cons] at hlen
    have htype := uxPop_proj (π := UxEp.type) w e srv bl (fun _ => rfl) (fun _ => rfl)
    have hstate := uxPop_proj (π := UxEp.state) w e srv bl (fun _ => rfl) (fun _ => rfl)
    have hbls : ∀ i, ((uxPop w e srv bl).ep i).bl =
        ((w.modify e fun x => { x with bl := bl }).ep i).bl := fun i =>
      modify_proj _ srv i rfl
    refine ⟨h.links.congr fun i => ⟨htype i, (hstate i).trans,
        uxPop_proj (π := UxEp.peer) w e srv bl (fun _ => rfl) (fun _ => rfl) i⟩,
      h.names.congr fun i =>
        ⟨uxPop_proj (π := UxEp.reg) w e srv bl (fun _ => rfl) (fun _ => rfl) i,
          fun _ => uxPop_proj (π := UxEp.name) w e srv bl (fun _ => rfl) (fun _ => rfl) i⟩,
      h.queues.update hlive ⟨not_not.mp hlisten, hdgram⟩ (fun a => ?_) ?_ (fun i hie => ?_) fun i =>
        ⟨uxPop_proj (π := UxEp.backlog) w e srv bl (fun _ => rfl) (fun _ => rfl) i, htype i,
          (hstate i).trans⟩,
      (h.quiet.modify e ⟨rfl, rfl, rfl⟩).modify srv ⟨rfl, rfl, rfl⟩⟩
    · rw [hbls, modify_ep_self, hbl, count_cons, count_cons]
      show count a [] + _ + bl.count a = _
      omega
    · rw [hbls, modify_ep_self]
      exact Nat.le_of_succ_le hlen
    · rw [hbls, modify_ep_of_ne _ hie]

theorem UxWorld.Inv.socket (h : w.Inv []) {alloc : Option Nat}
    (hfresh : ∀ a ∈ alloc, a ∉ w.all) (pid type : Nat) (fd : Option UxErrno) :
    (uxSocket w pid type alloc fd).2.Inv [] := by
  unfold uxSocket
  match uxTypeOk (type % 16), alloc with
  | none, _ => exact h
  | some _, none => exact h
  | some t, some e => exact (h.new (hfresh e rfl) t pid).fdOrDestroy fd

theorem Queues.perm {all handles loose loose' : List Nat} {ep : Nat → UxEp}
    (h : Queues all handles loose ep) (hp : loose.Perm loose') : Queues all handles loose' ep :=
  h.rehome fun a => by rw [hp.count_eq]

theorem uxDestroy_handles (depth : Nat) : ∀ (w : UxWorld) (e : Nat),
    (uxDestroy depth w e).handles = w.handles := by
  induction depth with
  | zero => intro w e; rfl
  | succ depth ih =>
    intro w e
    have hfold : ∀ (pend : List Nat) (w' : UxWorld),
        (pend.foldl (uxDestroy depth) w').handles = w'.handles := by
      intro pend
      induction pend with
      | nil => intro w'; rfl
      | cons p pend ihp => intro w'; exact (ihp _).trans (ih w' p)
    exact hfold (w.ep e).bl (uxDetach w e).1

theorem uxPairFds_inv {a b : Nat} (h : w.Inv [b, a]) (fdA fdB : Option UxErrno)
    (copied : Bool) : (uxPairFds w a b fdA fdB copied).2.Inv [] := by
  have hab : w.Inv [a, b] := ⟨h.links, h.names, h.queues.perm (List.Perm.swap a b []), h.quiet⟩
  unfold uxPairFds
  match fdA, fdB with
  | some err, _ =>
    obtain ⟨ha, hle⟩ := Inv.destroy _ hab (le_refl _)
    exact (Inv.destroy _ ha hle).1
  | none, some err =>
    obtain ⟨ha, hle⟩ := Inv.destroy _ (hab.hold.drop mem_cons_self) (le_refl _)
    exact (Inv.destroy _ ha hle).1
  | none, none =>
    have hboth := hab.hold.hold
    split_ifs
    · exact hboth
    · have hba : b ≠ a := by
        rintro rfl
        exact (nodup_cons.mp h.queues.loose_nodup).1 mem_cons_self
      refine (hboth.release (mem_cons_of_mem _ mem_cons_self)).release ?_
      show b ∈ (uxDestroy _ _ _).handles
      rw [uxDestroy_handles]
      exact (mem_erase_of_ne hba).mpr mem_cons_self

theorem UxWorld.Inv.socketpair (h : w.Inv []) {allocA allocB : Option Nat}
    (hA : ∀ a ∈ allocA, a ∉ w.all) (hB : ∀ b ∈ allocB, b ∉ w.all ∧ allocA ≠ some b)
    (pid type : Nat) (usvOk : Bool) (fdA fdB : Option UxErrno) (copied : Bool) :
    (uxSocketpair w pid type usvOk allocA allocB fdA fdB copied).2.Inv [] := by
  unfold uxSocketpair
  cases uxTypeOk (type % 16) with
  | none => exact h
  | some t =>
    cases usvOk with
    | false => exact h
    | true =>
      match allocA, allocB with
      | none, none => exact h
      | some a, none => exact (Inv.destroy _ (h.new (hA a rfl) t pid) (le_refl _)).1
      | none, some b => exact (Inv.destroy _ (h.new (hB b rfl).1 t pid) (le_refl _)).1
      | some a, some b =>
        have hab : a ≠ b := fun he => (hB b rfl).2 (congrArg some he)
        have hb : b ∉ (uxEpNew w t pid a).all := fun hm =>
          (mem_cons.mp hm).elim (fun he => hab he.symm) (hB b rfl).1
        have hepa : (uxEpNew (uxEpNew w t pid a) t pid b).ep a = { type := t, pid := pid } :=
          (uxEpNew_ep_of_mem hb mem_cons_self t pid).trans (update_self ..)
        have hepb : (uxEpNew (uxEpNew w t pid a) t pid b).ep b = { type := t, pid := pid } :=
          update_self ..
        refine uxPairFds_inv (((h.new (hA a rfl) t pid).new hb t pid).pair
          (mem_cons_of_mem _ mem_cons_self) mem_cons_self hab ?_ ?_ ?_ pid)
          fdA fdB copied
        · rw [hepa, hepb]
        · rw [hepa]
          exact ⟨rfl, rfl⟩
        · rw [hepb]
          exact ⟨rfl, rfl⟩

theorem UxWorld.Inv.step (h : w.Inv []) {op : UxOp} (hop : w.allows op) :
    (w.step op).Inv [] := by
  cases op with
  | socket pid type alloc fd => exact h.socket hop pid type fd
  | socketpair pid type usvOk allocA allocB fdA fdB copied =>
    exact h.socketpair hop.1 hop.2 pid type usvOk fdA fdB copied
  | bind e addr dn => exact h.bind e addr dn
  | listen e backlog => exact h.listen e backlog
  | connect pid e nb addr allocs => exact h.connect hop.1 hop.2 pid nb addr
  | accept e nb fd => exact h.accept hop nb fd
  | destroy e => exact h.release hop

theorem UxWorld.Inv.run (ops : List UxOp) : ∀ {w : UxWorld}, w.Inv [] → w.Admissible ops →
    (w.run ops).Inv [] := by
  induction ops with
  | nil => intro w h _; exact h
  | cons op ops ih => intro w h hops; exact ih (h.step hops.1) hops.2

/-- **The graph holds together after every sequence of operations**: peers and backlog
entries are endpoints on the list, connected stream ends are each other's peer, a name has
one owner and lookup finds it, and an endpoint without a socket waits in the backlog of
exactly one listener, once. -/
theorem unix_graph_sound (ops : List UxOp) (hops : UxWorld.start.Admissible ops) :
    let w := UxWorld.start.run ops
    (∀ i ∈ w.all, ∀ j, (w.ep i).peer = some j → j ∈ w.all) ∧
      (∀ i ∈ w.all, (w.ep i).type ≠ .dgram → ∀ j, (w.ep i).peer = some j →
        (w.ep j).peer = some i) ∧
      (∀ nm t, uxLookup w nm = some t → t ∈ w.all) ∧
      (∀ i ∈ w.all, ∀ j ∈ w.all, (w.ep i).reg = true → (w.ep j).reg = true →
        (w.ep i).name = (w.ep j).name → i = j) ∧
      (∀ i ∈ w.all, ∀ j ∈ (w.ep i).bl, j ∈ w.all ∧ j ∉ w.handles) ∧
      ∀ j ∈ w.all, j ∉ w.handles → ∃! i, i ∈ w.all ∧ (w.ep i).state = .listen ∧
        (w.ep i).bl.count j = 1 := by
  have h := inv_start.run ops hops
  refine ⟨fun i hi j hj => (h.links.live i hi j hj).1, h.links.back,
    fun nm t ht => (uxLookup_some ht).1, h.names.unique,
    fun i hi j hj => ⟨(h.queues.bl_live i hi j hj).1, (h.queues.bl_live i hi j hj).2.1⟩,
    fun j hj hfree => ?_⟩
  rcases h.queues.placed j hj with hp | hp | ⟨i, hi, hp⟩
  · exact absurd hp hfree
  · exact absurd hp not_mem_nil
  · refine ⟨i, ⟨hi, (h.queues.listening i hi (ne_nil_of_mem hp)).1,
      count_eq_one_of_mem (h.queues.bl_nodup i hi) hp⟩, fun k hk => ?_⟩
    have hmem : j ∈ ((UxWorld.start.run ops).ep k).bl :=
      count_pos_iff.mp (by rw [hk.2.2]; exact Nat.one_pos)
    exact h.queues.bl_unique k hk.1 i hi j hmem hp

/-- A listener at 1 and a client at 2, connected to it through the server end 3, which is
still in the backlog when the client is destroyed. -/
def unacceptedClient : List UxOp :=
  [.socket 1 1 (some 1) none, .bind 1 (.ok [47, 115]) [115], .listen 1 4, .socket 2 1 (some 2) none,
    .connect 2 2 false ⟨some (some 1), .ok [47, 115]⟩ [some 3], .destroy 2]

theorem unix_graph_sound_unaccepted :
    UxWorld.start.Admissible unacceptedClient ∧
      ∃! i, i ∈ (UxWorld.start.run unacceptedClient).all ∧
        ((UxWorld.start.run unacceptedClient).ep i).state = .listen ∧
        ((UxWorld.start.run unacceptedClient).ep i).bl.count 3 = 1 := by
  have hops : UxWorld.start.Admissible unacceptedClient := by
    refine ⟨?_, mem_cons_self, mem_cons_self, ?_, ⟨mem_cons_self, ?_⟩,
      mem_cons_self, trivial⟩
    · intro a _
      exact not_mem_nil
    · intro a ha
      rw [← Option.some.inj ha]
      decide
    · intro a ha
      rw [Option.some.inj (mem_singleton.mp ha)]
      decide
  obtain ⟨-, -, -, -, -, hwait⟩ := unix_graph_sound unacceptedClient hops
  exact ⟨hops, hwait 3 (by decide) (by decide)⟩

end InDevOS.Ipc
