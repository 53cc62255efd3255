import Mathlib
import InDevOS.Lib.Steps

/-! The mount table of `vfs.c`, and the open files that refer to it.

`vfs_mount` looks for a duplicate of the path as it was given, and stores the path cut to
the buffer and without one trailing slash. A path that is spelled another way therefore
passes the check and is stored a second time (`mounts_not_distinct`), or keeps a slash at
its end and is then missed by `vfs_find_mount`. While every accepted path is stored under
a spelling of its own and without a slash at the end, the mounted paths stay distinct and
every lookup finds the longest one that covers the path (`mount_table_sound`).

Paths are byte strings without the terminating zero. -/
namespace InDevOS.Vfs
open Lib Function

def vfsMaxMountpoints : Nat := 32
def vfsMaxOpenFiles : Nat := 64
def vfsMaxPath : Nat := 1024

def slash : UInt8 := 47

inductive Errno
  | EINVAL | EBUSY | ENOMEM | ENOENT | ENODEV | EROFS | ENFILE | EBADF
deriving DecidableEq

/-! ### The table -/

/-- A mounted file system; `mount_path_len` is the length of the path. -/
structure Mount (Fs : Type) where
  path : List UInt8
  fs : Fs
deriving DecidableEq

/-- `mount_table` and, for each open file, the slot of its file system. -/
structure State (Fs : Type) where
  mountTable : Nat → Option (Mount Fs)
  openFiles : Nat → Option Nat

variable {Fs : Type}

/-- `vfs_init` -/
def State.init : State Fs := ⟨fun _ => none, fun _ => none⟩

def slots : List Nat := List.range vfsMaxMountpoints
def fds : List Nat := List.range vfsMaxOpenFiles

/-- The path as a mount slot keeps it: cut to the buffer, then one trailing slash less. -/
def stored (path : List UInt8) : List UInt8 :=
  let p := path.take (vfsMaxPath - 1)
  if 1 < p.length ∧ p.getLast? = some slash then p.dropLast else p

namespace State

section
variable (s : State Fs)

section
variable (path : List UInt8)

def mountedAt (i : Nat) : Bool :=
  match s.mountTable i with
  | none => false
  | some m => m.path == path

def freeSlot : Option Nat := slots.find? fun i => (s.mountTable i).isNone

/-- `vfs_mount`; `none` is a null pointer. -/
def vfsMount (path : Option (List UInt8)) (ops : Option Fs) :
    Except Errno Unit × State Fs :=
  match path, ops with
  | some path, some fs =>
    if path.head? ≠ some slash then (.error .EINVAL, s)
    else if slots.any (s.mountedAt path) then (.error .EBUSY, s)
    else
      match s.freeSlot with
      | none => (.error .ENOMEM, s)
      | some i =>
        (.ok (), { s with mountTable := Function.update s.mountTable i (some ⟨stored path, fs⟩) })
  | _, _ => (.error .EINVAL, s)

/-- `vfs_unmount` -/
def vfsUnmount (path : Option (List UInt8)) : Except Errno Unit × State Fs :=
  match path with
  | none => (.error .EINVAL, s)
  | some path =>
    match slots.find? (s.mountedAt path) with
    | none => (.error .ENOENT, s)
    | some i =>
      (.ok (), ⟨Function.update s.mountTable i none,
        fun fd => if s.openFiles fd = some i then none else s.openFiles fd⟩)

/-- One turn of the loop of `vfs_find_mount`: the best slot so far and its `best_len`. -/
def better (best : Option Nat × Nat) (i : Nat) :
    Option Nat × Nat :=
  match s.mountTable i with
  | none => best
  | some m =>
    let mlen := m.path.length
    if mlen = 1 ∧ m.path.head? = some slash then
      if best.2 < 1 then (some i, 1) else best
    else if m.path.isPrefixOf path ∧ (path[mlen]? = some slash ∨ path[mlen]? = none) ∧
        best.2 < mlen then
      (some i, mlen)
    else best

/-- The relative path handed out: one leading slash is skipped. -/
def skipSlash (rel : List UInt8) : List UInt8 :=
  if rel.head? = some slash then rel.tail else rel

/-- `vfs_find_mount`: the slot and the relative path. -/
def vfsFindMount : Option (Nat × List UInt8) :=
  if path.head? ≠ some slash then none
  else
    let best := slots.foldl (s.better path) (none, 0)
    best.1.map fun i => (i, skipSlash (path.drop best.2))

/-! ### Open files -/

/-- What the file system answers while a file is opened. -/
structure Reply where
  ro : Bool
  has : Bool
  opens : Bool

/-- `vfs_open`; `writes` is any of the write, create, truncate and append flags. -/
def vfsOpen (writes create : Bool) (r : Reply) :
    Except Errno Nat × State Fs :=
  match s.vfsFindMount path with
  | none => (.error .ENODEV, s)
  | some (i, _) =>
    if writes && r.ro then (.error (if !create && !r.has then .ENOENT else .EROFS), s)
    else
      match fds.find? fun fd => (s.openFiles fd).isNone with
      | none => (.error .ENFILE, s)
      | some fd =>
        if r.opens then (.ok fd, { s with openFiles := Function.update s.openFiles fd (some i) })
        else (.error .ENOENT, s)

end

/-- `vfs_close` -/
def vfsClose (fd : Nat) : Except Errno Unit × State Fs :=
  if fd < vfsMaxOpenFiles ∧ (s.openFiles fd).isSome then
    (.ok (), { s with openFiles := Function.update s.openFiles fd none })
  else (.error .EBADF, s)

end

end State

/-! ### The machine -/

inductive Event (Fs : Type)
  | mount (path : Option (List UInt8)) (ops : Option Fs)
  | unmount (path : Option (List UInt8))
  | open (path : List UInt8) (writes create : Bool) (r : State.Reply)
  | close (fd : Nat)

def State.step (s : State Fs) : Event Fs → State Fs
  | .mount path ops => (s.vfsMount path ops).2
  | .unmount path => (s.vfsUnmount path).2
  | .open path writes create r => (s.vfsOpen path writes create r).2
  | .close fd => (s.vfsClose fd).2

def State.run (s : State Fs) (es : List (Event Fs)) : State Fs := es.foldl State.step s

/-! ### What the table is for -/

/-- `p` is a beginning of `path` that ends where a component ends: at a slash of its own,
before a slash, or with the path. -/
def Covers (p path : List UInt8) : Prop :=
  p <+: path ∧ (p.getLast? = some slash ∨ path[p.length]? = some slash ∨ path[p.length]? = none)

instance (p path : List UInt8) : Decidable (Covers p path) :=
  inferInstanceAs (Decidable (_ ∧ _))

/-- What is left of `path` after the mount path and the separator. -/
def remaining (p path : List UInt8) : List UInt8 := State.skipSlash (path.drop p.length)

namespace State

/-- Slot `i` holds the mount with path `p`. -/
def MountedOn (s : State Fs) (i : Nat) (p : List UInt8) : Prop :=
  i < vfsMaxMountpoints ∧ ∃ fs, s.mountTable i = some ⟨p, fs⟩

/-- No two slots hold the same path. -/
def Distinct (s : State Fs) : Prop :=
  ∀ i j p, s.MountedOn i p → s.MountedOn j p → i = j

/-- The slot with the longest path that covers `path`. -/
def Longest (s : State Fs) (path : List UInt8) (i : Nat) (p : List UInt8) : Prop :=
  s.MountedOn i p ∧ Covers p path ∧
    ∀ j q, s.MountedOn j q → Covers q path → q.length ≤ p.length

/-- The lookup finds the longest covering mount and what remains, or there is none. -/
structure Finds (s : State Fs) (path : List UInt8) : Prop where
  found : ∀ i rel, s.vfsFindMount path = some (i, rel) ↔
    ∃ p, s.Longest path i p ∧ rel = remaining p path
  missing : s.vfsFindMount path = none ↔ ∀ i p, s.MountedOn i p → ¬Covers p path

/-! ### What a call changes -/

/-- What the calls keep: mounted paths are absolute, end in a slash only when they are the
root, and are distinct; an open file's file system is mounted. -/
structure Sound (s : State Fs) : Prop where
  absolute : ∀ i p, s.MountedOn i p → p.head? = some slash
  tidy : ∀ i p, s.MountedOn i p → p = [slash] ∨ p.getLast? ≠ some slash
  distinct : s.Distinct
  files : ∀ fd i, s.openFiles fd = some i → ∃ p, s.MountedOn i p

/-- The spelling of an accepted mount: stored, the path is not in the table yet and does not
end in a slash unless it is the root. -/
def Plain (s : State Fs) : Event Fs → Prop
  | .mount (some path) (some fs) => (s.vfsMount (some path) (some fs)).1 = .ok () →
      slots.all (fun i => !s.mountedAt (stored path) i) ∧
        (stored path = [slash] ∨ (stored path).getLast? ≠ some slash)
  | _ => True

instance (s : State Fs) : (e : Event Fs) → Decidable (s.Plain e)
  | .mount (some _) (some _) => inferInstanceAs (Decidable (_ → _ ∧ _))
  | .mount none _ | .mount (some _) none | .unmount _ | .open .. | .close _ =>
    inferInstanceAs (Decidable True)

variable {s : State Fs} {path : List UInt8}

theorem mountedAt_iff {i : Nat} :
    s.mountedAt path i = true ↔ ∃ fs, s.mountTable i = some ⟨path, fs⟩ := by
  unfold mountedAt
  cases h : s.mountTable i with
  | none => simp
  | some m =>
    obtain ⟨p, fs⟩ := m
    simp

theorem MountedOn.unique {i : Nat} {p q : List UInt8} (hp : s.MountedOn i p)
    (hq : s.MountedOn i q) : p = q := by
  obtain ⟨_, fs, hfs⟩ := hp
  obtain ⟨_, fs', hfs'⟩ := hq
  rw [hfs, Option.some.injEq] at hfs'
  exact congrArg Mount.path hfs'

theorem mem_slots {i : Nat} : i ∈ slots ↔ i < vfsMaxMountpoints := List.mem_range

theorem stored_head (h : path.head? = some slash) :
    (stored path).head? = some slash := by
  cases path with
  | nil => simp at h
  | cons c rest =>
    have hc : c = slash := by simpa using h
    unfold stored
    rw [show vfsMaxPath - 1 = 1022 + 1 from rfl, List.take_succ_cons]
    dsimp only
    split
    · next hlong =>
      cases hr : rest.take 1022 with
      | nil =>
        rw [hr] at hlong
        simp at hlong
      | cons d ds =>
        simpa using hc
    · simpa using hc

/-- An accepted mount fills one empty slot; any other changes nothing. -/
theorem vfsMount_cases (s : State Fs) (path : Option (List UInt8)) (ops : Option Fs) :
    (s.vfsMount path ops).2 = s ∨
      ∃ p fs i, path = some p ∧ ops = some fs ∧ (s.vfsMount path ops).1 = .ok () ∧
        p.head? = some slash ∧ i < vfsMaxMountpoints ∧ s.mountTable i = none ∧
        (s.vfsMount path ops).2 =
          { s with mountTable := update s.mountTable i (some ⟨stored p, fs⟩) } := by
  unfold vfsMount
  cases path with
  | none => exact .inl rfl
  | some p =>
    cases ops with
    | none => exact .inl rfl
    | some fs =>
      dsimp only
      by_cases hhead : p.head? = some slash
      · rw [if_neg (not_not_intro hhead)]
        split_ifs
        · exact .inl rfl
        · cases hfree : s.freeSlot with
          | none => exact .inl rfl
          | some i =>
            refine .inr ⟨p, fs, i, rfl, rfl, rfl, hhead, ?_, ?_, rfl⟩
            · exact mem_slots.1 (List.mem_of_find?_eq_some hfree)
            · simpa using List.find?_some hfree
      · rw [if_pos hhead]
        exact .inl rfl

theorem vfsUnmount_cases (s : State Fs) (path : Option (List UInt8)) :
    (s.vfsUnmount path).2 = s ∨
      ∃ i, (s.vfsUnmount path).2 = ⟨update s.mountTable i none,
        fun fd => if s.openFiles fd = some i then none else s.openFiles fd⟩ := by
  unfold vfsUnmount
  cases path with
  | none => exact .inl rfl
  | some p =>
    dsimp only
    cases slots.find? (s.mountedAt p) with
    | none => exact .inl rfl
    | some i => exact .inr ⟨i, rfl⟩

/-- An open or a close changes one open file, and what it comes to refer to was found. -/
theorem vfsOpen_cases (s : State Fs) (path : List UInt8) (writes create : Bool) (r : Reply) :
    (s.vfsOpen path writes create r).2 = s ∨
      ∃ fd i rel, s.vfsFindMount path = some (i, rel) ∧
        (s.vfsOpen path writes create r).2 =
          { s with openFiles := update s.openFiles fd (some i) } := by
  unfold vfsOpen
  cases hfind : s.vfsFindMount path with
  | none => exact .inl rfl
  | some found =>
    obtain ⟨i, rel⟩ := found
    dsimp only
    by_cases hro : (writes && r.ro) = true
    · rw [if_pos hro]
      exact .inl rfl
    · rw [if_neg hro]
      cases fds.find? fun fd => (s.openFiles fd).isNone with
      | none => exact .inl rfl
      | some fd =>
        dsimp only
        split_ifs
        · exact .inr ⟨fd, i, rel, rfl, rfl⟩
        · exact .inl rfl

section
variable {i j : Nat} {m : Option (Mount Fs)} {p : List UInt8} {files : Nat → Option Nat}

theorem mountedOn_update (h : (⟨update s.mountTable i m, files⟩ : State Fs).MountedOn j p) :
    (j = i ∧ ∃ fs, m = some ⟨p, fs⟩) ∨ (j ≠ i ∧ s.MountedOn j p) := by
  obtain ⟨hj, fs, hfs⟩ := h
  dsimp only at hfs
  by_cases hji : j = i
  · subst hji
    rw [update_self] at hfs
    exact .inl ⟨rfl, fs, hfs⟩
  · rw [update_of_ne hji] at hfs
    exact .inr ⟨hji, hj, fs, hfs⟩

theorem MountedOn.of_update (h : s.MountedOn j p) (hji : j ≠ i) :
    (⟨update s.mountTable i m, files⟩ : State Fs).MountedOn j p := by
  obtain ⟨hj, fs, hfs⟩ := h
  exact ⟨hj, fs, (update_of_ne hji _ _).trans hfs⟩

end

/-! ### The lookup -/

/-- For a tidy path the test of `vfs_find_mount` is `Covers`. -/
theorem covers_iff {p path : List UInt8} (habs : p.head? = some slash)
    (htidy : p = [slash] ∨ p.getLast? ≠ some slash) (hpath : path.head? = some slash) :
    Covers p path ↔ (p.length = 1 ∧ p.head? = some slash) ∨
      (p.isPrefixOf path ∧ (path[p.length]? = some slash ∨ path[p.length]? = none)) := by
  unfold Covers
  by_cases hroot : p = [slash]
  · subst hroot
    cases path with
    | nil => simp at hpath
    | cons c rest =>
      have hc : c = slash := by simpa using hpath
      simp [hc]
  · have hlast := htidy.resolve_left hroot
    have hlen : ¬(p.length = 1 ∧ p.head? = some slash) := by
      rintro ⟨hlen, hhead⟩
      obtain ⟨c, rfl⟩ := List.length_eq_one_iff.1 hlen
      exact hroot (by simpa using hhead)
    simp [hlast, hlen]

/-- The loop's state after the slots in `seen`. -/
structure Best (s : State Fs) (path : List UInt8) (seen : List Nat) (best : Option Nat × Nat) :
    Prop where
  held : ∀ i, best.1 = some i → ∃ p, s.MountedOn i p ∧ Covers p path ∧ p.length = best.2
  empty : best.1 = none → best.2 = 0
  longest : ∀ j ∈ seen, ∀ q, s.MountedOn j q → Covers q path → q.length ≤ best.2

theorem Best.step {seen : List Nat} {best : Option Nat × Nat}
    {i : Nat} (h : Best s path seen best) (hs : Sound s) (hpath : path.head? = some slash)
    (hi : i < vfsMaxMountpoints) : Best s path (seen ++ [i]) (s.better path best i) := by
  -- Nothing is taken over when the new slot covers no more than the best one.
  have hkeep : (∀ q, s.MountedOn i q → Covers q path → q.length ≤ best.2) →
      Best s path (seen ++ [i]) best := by
    intro hle
    refine ⟨h.held, h.empty, fun j hj q hq hc => ?_⟩
    rcases List.mem_append.1 hj with hj | hj
    · exact h.longest j hj q hq hc
    · rw [List.mem_singleton.1 hj] at hq
      exact hle q hq hc
  cases hm : s.mountTable i with
  | none =>
    have hbest : s.better path best i = best := by unfold better; rw [hm]
    rw [hbest]
    refine hkeep fun q hq _ => ?_
    obtain ⟨_, fs, hfs⟩ := hq
    rw [hm] at hfs
    cases hfs
  | some m =>
    have hon : s.MountedOn i m.path := ⟨hi, m.fs, hm⟩
    have hcov := covers_iff (hs.absolute i _ hon) (hs.tidy i _ hon) hpath
    have htake : Covers m.path path → best.2 < m.path.length →
        Best s path (seen ++ [i]) (some i, m.path.length) := by
      intro hc hlt
      refine ⟨?_, nofun, fun j hj q hq hcq => ?_⟩
      · intro k hk
        rw [← Option.some.inj hk]
        exact ⟨m.path, hon, hc, rfl⟩
      · rcases List.mem_append.1 hj with hj | hj
        · exact (h.longest j hj q hq hcq).trans hlt.le
        · rw [List.mem_singleton.1 hj] at hq
          rw [hq.unique hon]
    have hother : (Covers m.path path → m.path.length ≤ best.2) →
        Best s path (seen ++ [i]) best := by
      intro hle
      refine hkeep fun q hq hc => ?_
      rw [hq.unique hon] at hc ⊢
      exact hle hc
    unfold better
    rw [hm]
    dsimp only
    by_cases hroot : m.path.length = 1 ∧ m.path.head? = some slash
    · rw [if_pos hroot]
      split_ifs
      · rw [← hroot.1]
        exact htake (hcov.2 (.inl hroot)) (by omega)
      · exact hother fun _ => by omega
    · rw [if_neg hroot]
      split
      · next hpre => exact htake (hcov.2 (.inr ⟨hpre.1, hpre.2.1⟩)) hpre.2.2
      · next hpre =>
        refine hother fun hc => ?_
        by_contra hlt
        obtain ⟨hp, hnext⟩ := (hcov.1 hc).resolve_left hroot
        exact hpre ⟨hp, hnext, by omega⟩

theorem Best.loop (hs : Sound s)
    (hpath : path.head? = some slash) (rest : List Nat) (hrest : ∀ i ∈ rest, i < vfsMaxMountpoints)
    {seen : List Nat} {best : Option Nat × Nat} (h : Best s path seen best) :
    Best s path (seen ++ rest) (rest.foldl (s.better path) best) := by
  induction rest generalizing seen best with
  | nil => simpa using h
  | cons i rest ih =>
    have hi := h.step hs hpath (hrest i List.mem_cons_self)
    have := ih (fun j hj => hrest j (List.mem_cons_of_mem _ hj)) hi
    simpa using this

theorem best_slots (hs : Sound s)
    (hpath : path.head? = some slash) :
    Best s path slots (slots.foldl (s.better path) (none, 0)) := by
  have h0 : Best s path [] (none, 0) := ⟨nofun, fun _ => rfl, nofun⟩
  simpa using h0.loop hs hpath slots fun i hi => mem_slots.1 hi

theorem MountedOn.pos (hs : Sound s) {i : Nat} {p : List UInt8}
    (h : s.MountedOn i p) : 0 < p.length := by
  have hhead := hs.absolute i p h
  cases p with
  | nil => simp at hhead
  | cons c rest => simp

/-- **The lookup finds the longest mount that covers an absolute path.** -/
theorem Sound.finds (hs : Sound s)
    (hpath : path.head? = some slash) : s.Finds path := by
  have hbest := best_slots hs hpath
  have hlookup : s.vfsFindMount path = (slots.foldl (s.better path) (none, 0)).1.map
      fun i => (i, skipSlash (path.drop (slots.foldl (s.better path) (none, 0)).2)) := by
    unfold vfsFindMount
    rw [if_neg (not_not_intro hpath)]
  generalize hfold : slots.foldl (s.better path) (none, 0) = best at hbest hlookup
  obtain ⟨b, len⟩ := best
  have hmax : ∀ j q, s.MountedOn j q → Covers q path → q.length ≤ len :=
    fun j q hq hc => hbest.longest j (mem_slots.2 hq.1) q hq hc
  cases b with
  | none =>
    have hlen : len = 0 := hbest.empty rfl
    have hnone : ∀ i p, s.MountedOn i p → ¬Covers p path := by
      intro i p hp hc
      have := hmax i p hp hc
      have := hp.pos hs
      omega
    refine ⟨fun i rel => ?_, ?_⟩
    · rw [hlookup]
      refine ⟨nofun, ?_⟩
      rintro ⟨p, ⟨hp, hc, -⟩, -⟩
      exact absurd hc (hnone i p hp)
    · rw [hlookup]
      exact ⟨fun _ => hnone, fun _ => rfl⟩
  | some k =>
    obtain ⟨p, hp, hc, hplen⟩ := hbest.held k rfl
    have hplen : p.length = len := hplen
    have hlong : s.Longest path k p :=
      ⟨hp, hc, fun j q hq hcq => (hmax j q hq hcq).trans_eq hplen.symm⟩
    have hfound : s.vfsFindMount path = some (k, remaining p path) := by
      rw [hlookup, remaining, hplen]
      rfl
    refine ⟨fun i rel => ?_, ?_⟩
    · rw [hfound]
      constructor
      · intro h
        obtain ⟨rfl, rfl⟩ := Prod.mk.inj (Option.some.inj h)
        exact ⟨p, hlong, rfl⟩
      · rintro ⟨q, ⟨hq, hcq, hqmax⟩, rfl⟩
        -- Two covering paths of the same length are the same beginning of the path.
        have hlen : q.length = p.length :=
          le_antisymm (hlong.2.2 i q hq hcq) (hqmax k p hp hc)
        have hqp : q = p := (List.prefix_of_prefix_length_le hcq.1 hc.1 hlen.le).eq_of_length hlen
        subst hqp
        rw [hs.distinct k i q hp hq]
    · rw [hfound]
      exact ⟨nofun, fun h => absurd hc (h k p hp)⟩

theorem vfsFindMount_mounted (hs : Sound s) {path rel : List UInt8} {i : Nat}
    (h : s.vfsFindMount path = some (i, rel)) : ∃ p, s.MountedOn i p := by
  have hpath : path.head? = some slash := by
    by_contra hpath
    unfold vfsFindMount at h
    rw [if_pos hpath] at h
    cases h
  obtain ⟨p, hlong, -⟩ := ((hs.finds hpath).found i rel).1 h
  exact ⟨p, hlong.1⟩

/-! ### Runs -/

theorem Sound.init : Sound (State.init : State Fs) where
  absolute := by rintro i p ⟨_, fs, h⟩; cases h
  tidy := by rintro i p ⟨_, fs, h⟩; cases h
  distinct := by rintro i j p ⟨_, fs, h⟩; cases h
  files := nofun

theorem Sound.mount (hs : Sound s) {i : Nat} {p : List UInt8} {fs : Fs}
    (hi : i < vfsMaxMountpoints) (hfree : s.mountTable i = none) (habs : p.head? = some slash)
    (htidy : p = [slash] ∨ p.getLast? ≠ some slash) (hnew : ∀ j, ¬s.MountedOn j p) :
    Sound { s with mountTable := update s.mountTable i (some ⟨p, fs⟩) } where
  absolute j q hq := by
    obtain ⟨-, fs', hm⟩ | ⟨-, hq⟩ := mountedOn_update hq
    · cases hm
      exact habs
    · exact hs.absolute j q hq
  tidy j q hq := by
    obtain ⟨-, fs', hm⟩ | ⟨-, hq⟩ := mountedOn_update hq
    · cases hm
      exact htidy
    · exact hs.tidy j q hq
  distinct j k q hj hk := by
    obtain ⟨rfl, fs', hm⟩ | ⟨-, hj'⟩ := mountedOn_update hj <;>
      obtain ⟨rfl, fs'', hm'⟩ | ⟨-, hk'⟩ := mountedOn_update hk
    · rfl
    · cases hm
      exact absurd hk' (hnew k)
    · cases hm'
      exact absurd hj' (hnew j)
    · exact hs.distinct j k q hj' hk'
  files fd j hfd := by
    obtain ⟨q, hq⟩ := hs.files fd j hfd
    have hji : j ≠ i := by
      rintro rfl
      obtain ⟨_, fs', hfs'⟩ := hq
      rw [hfree] at hfs'
      cases hfs'
    exact ⟨q, hq.of_update hji⟩

theorem Sound.unmount (hs : Sound s) (i : Nat) :
    Sound (⟨update s.mountTable i none,
      fun fd => if s.openFiles fd = some i then none else s.openFiles fd⟩ : State Fs) where
  absolute j q hq := by
    obtain ⟨-, fs', hm⟩ | ⟨-, hq⟩ := mountedOn_update hq
    · cases hm
    · exact hs.absolute j q hq
  tidy j q hq := by
    obtain ⟨-, fs', hm⟩ | ⟨-, hq⟩ := mountedOn_update hq
    · cases hm
    · exact hs.tidy j q hq
  distinct j k q hj hk := by
    obtain ⟨-, fs', hm⟩ | ⟨-, hj⟩ := mountedOn_update hj
    · cases hm
    · obtain ⟨-, fs', hm⟩ | ⟨-, hk⟩ := mountedOn_update hk
      · cases hm
      · exact hs.distinct j k q hj hk
  files fd j hfd := by
    dsimp only at hfd
    split at hfd
    · cases hfd
    · next hne =>
      obtain ⟨q, hq⟩ := hs.files fd j hfd
      refine ⟨q, hq.of_update ?_⟩
      rintro rfl
      exact hne hfd

theorem Sound.setFile (hs : Sound s) (fd : Nat) (file : Option Nat)
    (hfile : ∀ i, file = some i → ∃ p, s.MountedOn i p) :
    Sound { s with openFiles := update s.openFiles fd file } where
  absolute := hs.absolute
  tidy := hs.tidy
  distinct := hs.distinct
  files fd' i h := by
    dsimp only at h
    by_cases hfd : fd' = fd
    · subst hfd
      rw [update_self] at h
      exact hfile i h
    · rw [update_of_ne hfd] at h
      exact hs.files fd' i h

theorem Sound.step {e : Event Fs} (hs : Sound s) (he : s.Plain e) :
    Sound (s.step e) := by
  cases e with
  | mount path ops =>
    show Sound (s.vfsMount path ops).2
    obtain hsame | ⟨p, fs, i, rfl, rfl, hok, habs, hi, hfree, heq⟩ := s.vfsMount_cases path ops
    · rw [hsame]
      exact hs
    · obtain ⟨hnew, htidy⟩ := he hok
      rw [heq]
      refine hs.mount hi hfree (stored_head habs) htidy fun j hj => ?_
      have := List.all_eq_true.1 hnew j (mem_slots.2 hj.1)
      rw [mountedAt_iff.2 hj.2] at this
      cases this
  | unmount path =>
    show Sound (s.vfsUnmount path).2
    obtain hsame | ⟨i, heq⟩ := s.vfsUnmount_cases path
    · rw [hsame]
      exact hs
    · rw [heq]
      exact hs.unmount i
  | «open» path writes create r =>
    show Sound (s.vfsOpen path writes create r).2
    obtain hsame | ⟨fd, i, rel, hfind, heq⟩ := s.vfsOpen_cases path writes create r
    · rw [hsame]
      exact hs
    · rw [heq]
      refine hs.setFile fd (some i) fun j hj => ?_
      rw [← Option.some.inj hj]
      exact vfsFindMount_mounted hs hfind
  | close fd =>
    show Sound (s.vfsClose fd).2
    unfold vfsClose
    split
    · exact hs.setFile fd none nofun
    · exact hs

end State

/-- **The mount table.** While every accepted mount is spelled plainly, the mounted paths
are distinct, every absolute path is looked up at the longest mount that covers it, and
every open file belongs to a mounted file system. -/
theorem mount_table_sound (es : List (Event Fs))
    (hes : Along State.step State.Plain State.init es) :
    (State.init.run es).Distinct ∧
      (∀ path : List UInt8, path.head? = some slash → (State.init.run es).Finds path) ∧
      ∀ fd i, (State.init.run es).openFiles fd = some i → ∃ p, (State.init.run es).MountedOn i p := by
  have hs : (State.init.run es).Sound :=
    Along.keeps (fun _ _ hs he => State.Sound.step hs he) State.Sound.init hes
  exact ⟨hs.distinct, fun _ hpath => hs.finds hpath, hs.files⟩

/-- `/` and `/a` mounted, `/a` taken away and mounted again with a slash at the end. -/
def plainMounts : List (Event Nat) :=
  [.mount (some [slash]) (some 0), .mount (some [slash, 97]) (some 1),
    .unmount (some [slash, 97]), .mount (some [slash, 97, slash]) (some 2)]

theorem mount_table_sound_plain :
    Along State.step State.Plain State.init plainMounts ∧
      (State.init.run plainMounts).Finds [slash, 97, slash, 98] := by
  have hplain : Along State.step State.Plain State.init plainMounts := by decide
  exact ⟨hplain, (mount_table_sound plainMounts hplain).2.1 _ rfl⟩

/-- `/a` and then `/a/`: both calls succeed and both slots hold `/a`. -/
theorem mounts_not_distinct :
    ¬(State.init.run [Event.mount (some [slash, 97]) (some 1),
      Event.mount (some [slash, 97, slash]) (some 2)] : State Nat).Distinct := by
  intro h
  have h01 := h 0 1 [slash, 97] ⟨by decide, 1, by decide⟩ ⟨by decide, 2, by decide⟩
  cases h01

end InDevOS.Vfs
