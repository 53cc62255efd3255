import InDevOS.Tmpfs.TreeLookup

/-! What a failed `create`, `mkdir` or `symlink` leaves behind.

`tmpfs_lookup` makes the missing directories of a path while it walks. When it then comes
to a name that is too long, runs out of nodes or inodes, or is to create a file under a
name with a slash behind it, the directories made so far stay. `failed_leaves_nodes_iff`
says for which tables and paths that cannot happen. `lacks` says that the walk has to make
a directory on its way, and `completes`, over the tables as they were before the call, that
it gets to its end. A new directory need not be empty: `unlink` takes a directory away
with entries in it, and they are in whatever takes its node next. -/
namespace InDevOS.Tmpfs
namespace Tables

/-! ### Paths and room -/

def partOf (p : List UInt8) : List UInt8 := p.takeWhile (· != slash)
def restOf (p : List UInt8) : List UInt8 := p.dropWhile (· != slash)
/-- The path after the first component and the slashes behind it. -/
def nextOf (p : List UInt8) : List UInt8 := skipSlashes ((restOf p).drop 1)

theorem restOf_ne_nil {p : List UInt8} (h : nextOf p ≠ []) : restOf p ≠ [] := by
  intro hrest
  rw [nextOf, hrest] at h
  exact h rfl

theorem length_nextOf_lt {p : List UInt8} (h : nextOf p ≠ []) : (nextOf p).length < p.length := by
  have hskip : (nextOf p).length ≤ ((restOf p).drop 1).length := (List.dropWhile_suffix _).length_le
  have hrest : (restOf p).length ≤ p.length := (List.dropWhile_suffix _).length_le
  have hpos := List.length_pos_iff.2 (restOf_ne_nil h)
  rw [List.length_drop] at hskip
  omega

/-- The component is not empty and not too long. -/
def fits (p : List UInt8) : Bool := 0 < (partOf p).length && (partOf p).length < tmpfsMaxName

/-- The free places of the two tables, in the order in which they are taken. -/
def freeNodes (s : Tables) : List Nat := scan.filter fun i => !(s.nodes i).used
def freeInodes (s : Tables) : List Nat := scan.filter fun i => !(s.inodes i).used

section
variable (s : Tables)

/-- The walk comes to a component that is not there and not the last. -/
def lacks (cur : Nat) (p : List UInt8) : Bool :=
  if !fits p then false
  else
    match s.findChild cur (partOf p) with
    | none => restOf p ≠ []
    | some child =>
      if h : nextOf p = [] then false
      else
        have := length_nextOf_lt h
        s.isDir child && lacks child (nextOf p)
termination_by p.length

/-- The walk gets to the end of the path: from a directory `cur`, perhaps made on the way,
with the free nodes and inodes that are left. `made` are the inodes of new directories. -/
def completes (wantDir : Bool) (cur : Nat) (p : List UInt8) (nodes inodes made : List Nat) : Bool :=
  if !fits p then false
  else
    match s.findChild cur (partOf p) with
    | some child =>
      let dir := s.isDir child || (s.nodes child).ino ∈ made
      if h : nextOf p = [] then dir == wantDir && (restOf p = [] || wantDir)
      else
        have := length_nextOf_lt h
        dir && completes wantDir child (nextOf p) nodes inodes made
    | none =>
      match nodes, inodes with
      | i :: nodes, k :: inodes =>
        if h : nextOf p = [] then restOf p = [] || wantDir
        else
          have := length_nextOf_lt h
          completes wantDir i (nextOf p) nodes inodes (k :: made)
      | _, _ => false
termination_by p.length

end

variable {s t t' : Tables} {wantDir : Bool} {cur child : Nat} {p : List UInt8} {visited made : List Nat}

/-! ### Making an entry -/

/-- The tables with an entry at node `i` for the new inode `k`. -/
def withEntry (t : Tables) (mode : UInt32) (dir : Nat) (name : List UInt8) (i k : Nat) : Tables :=
  (t.setInode k { Inode.zero with used := true, mode := mode, nlink := 1 }).setNode i
    ⟨true, dir, k, kstrncpy name tmpfsMaxName⟩

theorem putInode_nodes (s : Tables) (k : Nat) : (s.putInode k).nodes = s.nodes := by
  unfold putInode
  dsimp only
  split_ifs <;> rfl

/-- An entry takes the first free node and inode; without them none is made. -/
theorem make_cases (t : Tables) (mode : UInt32) (dir : Nat) (name : List UInt8) :
    (∃ i nodes k inodes, t.freeNodes = i :: nodes ∧ t.freeInodes = k :: inodes ∧
        t.make mode dir name = (.ok i, t.withEntry mode dir name i k)) ∨
      ((t.freeNodes = [] ∨ t.freeInodes = []) ∧
        ∃ e t', t.make mode dir name = (.error e, t') ∧ t'.nodes = t.nodes) := by
  have hinode : (scan.find? fun i => !(t.inodes i).used) = t.freeInodes.head? := (List.head?_filter ..).symm
  have hnode : ∀ k n, (t.setInode k n).allocNode = t.freeNodes.head? := fun _ _ => (List.head?_filter ..).symm
  unfold make allocInode addNode
  rw [hinode]
  cases t.freeInodes with
  | nil => exact .inr ⟨.inr rfl, _, _, rfl, rfl⟩
  | cons k inodes =>
    simp only [List.head?_cons, hnode]
    cases t.freeNodes with
    | nil => exact .inr ⟨.inl rfl, _, _, rfl, putInode_nodes _ _⟩
    | cons i nodes => exact .inl ⟨i, nodes, k, inodes, rfl, rfl, rfl⟩

theorem filter_scan_take {f g : Nat → Bool} {i : Nat} {rest : List Nat} (h : scan.filter f = i :: rest)
    (hi : g i = false) (hsame : ∀ j, j ≠ i → g j = f j) : scan.filter g = rest := by
  have hg : g = fun j => (j != i) && f j := by
    funext j
    by_cases hj : j = i
    · simp [hj, hi]
    · simp [hj, hsame j hj]
  have hnodup : (i :: rest).Nodup := h ▸ (List.nodup_range' ..).filter f
  rw [hg, ← List.filter_filter, h, List.filter_cons_of_neg (by simp), List.filter_eq_self]
  rintro j hj
  simpa using fun heq : j = i => (List.nodup_cons.1 hnodup).1 (heq ▸ hj)

section
variable {mode : UInt32} {dir i k : Nat} {name : List UInt8} {rest : List Nat}

theorem freeNodes_withEntry (h : t.freeNodes = i :: rest) : (t.withEntry mode dir name i k).freeNodes = rest :=
  filter_scan_take h (by simp [withEntry, setNode]) fun j hj => by
    simp [withEntry, setNode, setInode, Function.update_of_ne hj]

theorem freeInodes_withEntry (h : t.freeInodes = k :: rest) :
    (t.withEntry mode dir name i k).freeInodes = rest :=
  filter_scan_take h (by simp [withEntry, setNode, setInode]) fun j hj => by
    simp [withEntry, setNode, setInode, Function.update_of_ne hj]

theorem freeNodes_head (h : t.freeNodes = i :: rest) : 0 < i ∧ (t.nodes i).used = false := by
  have hmem : i ∈ t.freeNodes := h ▸ List.mem_cons_self
  obtain ⟨hscan, hfree⟩ := List.mem_filter.1 hmem
  exact ⟨(mem_scan.1 hscan).1, by simpa using hfree⟩

theorem isDir_withEntry : (t.withEntry (tIfdir ||| 0o755) dir name i k).isDir i = true := by
  have hmode : (tIfdir ||| 0o755) &&& tIfmt = tIfdir := by decide
  simp [isDir, nodeInode, withEntry, setNode, setInode, Inode.isDir, hmode]

end

/-! ### One round -/

/-- The mode of the entry made for a component: a file only at the end of a path to create. -/
def modeOf (wantDir : Bool) (p : List UInt8) : UInt32 :=
  if restOf p = [] ∧ wantDir = false then tIfreg ||| 0o644 else tIfdir ||| 0o755

section
variable (wantDir : Bool) (cur : Nat) (t : Tables)

theorem lookupRound_fit (h : fits p = true) : t.lookupRound true (!wantDir) wantDir cur p =
    match t.findChild cur (partOf p) with
    | some child => (t.arrive (!wantDir) wantDir child (restOf p), t)
    | none =>
      match t.make (modeOf wantDir p) cur (partOf p) with
      | (.error e, t') => (.done (.error e), t')
      | (.ok i, t') =>
        (if restOf p = [] then .done (.ok i) else t'.arrive (!wantDir) wantDir i (restOf p), t') := by
  have hpart : p.takeWhile (· != slash) = partOf p := rfl
  have hrest : p.dropWhile (· != slash) = restOf p := rfl
  simp only [fits, Bool.and_eq_true, decide_eq_true_eq] at h
  unfold lookupRound modeOf
  simp only [hpart, hrest]
  rw [if_neg (by omega), if_neg (by omega)]
  cases t.findChild cur (partOf p) with
  | some child => rfl
  | none =>
    by_cases hend : restOf p = []
    · cases wantDir
      · simp only [hend, List.isEmpty_nil, Bool.not_false, Bool.and_self, if_true, and_self]
        rcases t.make (tIfreg ||| 0o644) cur (partOf p) with ⟨_ | _, _⟩ <;> rfl
      · simp [hend] <;> rfl
    · simp [hend] <;> rfl

end

theorem arrive_end (hnext : nextOf p = []) (wantDir : Bool) (t : Tables) (child : Nat) :
    ∃ r, t.arrive (!wantDir) wantDir child (restOf p) = .done r ∧
      (errorOf r = none ↔ (t.isDir child == wantDir && (decide (restOf p = []) || wantDir)) = true) := by
  have hskip : skipSlashes ((restOf p).drop 1) = [] := hnext
  simp only [arrive, List.isEmpty_iff, hskip]
  by_cases hrest : restOf p = [] <;> cases t.isDir child <;> cases wantDir <;> simp [hrest, errorOf]

theorem arrive_down (hnext : nextOf p ≠ []) (wantDir : Bool) (t : Tables) (child : Nat) :
    t.arrive (!wantDir) wantDir child (restOf p) =
      if t.isDir child then .next child (nextOf p) else .done (.error .ENOTDIR) := by
  have hskip : skipSlashes ((restOf p).drop 1) ≠ [] := hnext
  simp only [arrive, List.isEmpty_iff, restOf_ne_nil hnext, hskip, if_false]
  cases t.isDir child <;> rfl

/-! ### Success -/

/-- From tables `s` to `t` the walk has made directories on its way from the root to `cur`:
`visited` are the directories above `cur`, and what was made is in one of them. -/
structure Going (s t : Tables) (visited : List Nat) (cur : Nat) (made : List Nat) : Prop where
  fresh : cur ∉ visited
  trail : ∀ c ∈ cur :: visited, c = 0 ∨
    (t.nodes c).used = true ∧ ∃ d ∈ visited, (t.nodes c).parent = (d : Int)
  nodes : ∀ j, t.nodes j = s.nodes j ∨
    (s.nodes j).used = false ∧ ∃ d ∈ visited, (t.nodes j).parent = (d : Int)
  inodes : ∀ k, if k ∈ made then (t.inodes k).isDir = true else t.inodes k = s.inodes k

section
variable (h : Going s t visited cur made)
include h

/-- Nothing that was made is in the directory the walk has come to. -/
theorem Going.findChild (name : List UInt8) : t.findChild cur name = s.findChild cur name := by
  unfold Tables.findChild
  congr 1
  funext j
  rcases h.nodes j with heq | ⟨hfree, d, hd, hparent⟩
  · rw [heq]
  · have hne : d ≠ cur := fun heq => h.fresh (heq ▸ hd)
    simp [hfree, hparent, hne]

theorem Going.isDir (hused : (s.nodes child).used = true) :
    t.isDir child = (s.isDir child || decide ((s.nodes child).ino ∈ made)) := by
  have heq : t.nodes child = s.nodes child := (h.nodes child).resolve_right fun hfree => by simp [hused] at hfree
  have hinode := h.inodes (s.nodes child).ino
  unfold Tables.isDir nodeInode
  rw [heq]
  split_ifs at hinode with hmade
  · simp [hinode, hmade]
  · simp [hinode, hmade]

theorem Going.child_fresh (hchild : 0 < child) (hparent : (t.nodes child).parent = (cur : Int)) :
    child ∉ cur :: visited := by
  intro hmem
  obtain h0 | ⟨-, d, hd, heq⟩ := h.trail child hmem
  · omega
  · obtain rfl : d = cur := by omega
    exact h.fresh hd

theorem Going.down {name : List UInt8} (hfind : t.findChild cur name = some child) :
    Going s t (cur :: visited) child made := by
  obtain ⟨hpos, hused, hparent, -⟩ := findChild_some hfind
  refine ⟨h.child_fresh hpos hparent, fun c hc => ?_, fun j => ?_, h.inodes⟩
  · rcases List.mem_cons.1 hc with rfl | hc
    · exact .inr ⟨hused, cur, List.mem_cons_self, hparent⟩
    · exact (h.trail c hc).imp_right fun ⟨hu, d, hd, hp⟩ => ⟨hu, d, List.mem_cons_of_mem _ hd, hp⟩
  · exact (h.nodes j).imp_right fun ⟨hu, d, hd, hp⟩ => ⟨hu, d, List.mem_cons_of_mem _ hd, hp⟩

theorem Going.make {name : List UInt8} {i k : Nat} {nodes : List Nat} (hi : t.freeNodes = i :: nodes) :
    Going s (t.withEntry (tIfdir ||| 0o755) cur name i k) (cur :: visited) i (k :: made) := by
  obtain ⟨hpos, hfree⟩ := freeNodes_head hi
  have hnew : (t.withEntry (tIfdir ||| 0o755) cur name i k).nodes i =
      ⟨true, cur, k, kstrncpy name tmpfsMaxName⟩ := Function.update_self ..
  have hold : ∀ j, j ≠ i → (t.withEntry (tIfdir ||| 0o755) cur name i k).nodes j = t.nodes j := fun j hj =>
    Function.update_of_ne hj ..
  have hfresh : i ∉ cur :: visited := fun hmem => by
    obtain h0 | ⟨hused, -⟩ := h.trail i hmem
    · omega
    · simp [hfree] at hused
  refine ⟨hfresh, fun c hc => ?_, fun j => ?_, fun k' => ?_⟩
  · rcases List.mem_cons.1 hc with rfl | hc
    · exact .inr ⟨by rw [hnew], cur, List.mem_cons_self, by rw [hnew]⟩
    · rw [hold c (ne_of_mem_of_not_mem hc hfresh)]
      exact (h.trail c hc).imp_right fun ⟨hu, d, hd, hp⟩ => ⟨hu, d, List.mem_cons_of_mem _ hd, hp⟩
  · by_cases hj : j = i
    · subst hj
      refine .inr ⟨?_, cur, List.mem_cons_self, by rw [hnew]⟩
      obtain heq | ⟨hu, -⟩ := h.nodes j
      · rwa [← heq]
      · exact hu
    · rw [hold j hj]
      exact (h.nodes j).imp_right fun ⟨hu, d, hd, hp⟩ => ⟨hu, d, List.mem_cons_of_mem _ hd, hp⟩
  · have hmode : (tIfdir ||| 0o755) &&& tIfmt = tIfdir := by decide
    by_cases hk : k' = k
    · simp [hk, withEntry, setNode, setInode, Inode.isDir, hmode]
    · simpa [hk, withEntry, setNode, setInode, Function.update_of_ne hk] using h.inodes k'

end

/-! ### The whole walk -/

/-- The walk has to make a directory, and can. -/
def Opens (s : Tables) (cur : Nat) (p : List UInt8) : Prop :=
  s.lacks cur p = true ∧ s.freeNodes ≠ [] ∧ s.freeInodes ≠ []

/-- How a walk on tables `t` ends, in terms of the tables `s` before the call. -/
structure Walked (s t : Tables) (wantDir : Bool) (cur : Nat) (p : List UInt8) (made : List Nat)
    (r : Except Errno Nat × Tables) : Prop where
  ok : errorOf r.1 = none ↔ s.completes wantDir cur p t.freeNodes t.freeInodes made = true
  kept : ∀ j, (t.nodes j).used = true → (r.2.nodes j).used = true
  changed : errorOf r.1 ≠ none → (r.2.nodes ≠ t.nodes ↔ t.Opens cur p)

/-- The lookup of `create` (`wantDir` false) and of `mkdir`. -/
abbrev building (wantDir : Bool) (fuel cur : Nat) (p : List UInt8) (t : Tables) : Except Errno Nat × Tables :=
  lookupLoop true (!wantDir) wantDir fuel cur p t

theorem used_withEntry (t : Tables) (mode : UInt32) (dir : Nat) (name : List UInt8) (i k j : Nat)
    (hj : (t.nodes j).used = true ∨ j = i) : ((t.withEntry mode dir name i k).nodes j).used = true := by
  by_cases hji : j = i
  · simp [hji, withEntry, setNode]
  · simpa [withEntry, setNode, setInode, Function.update_of_ne hji] using hj.resolve_right hji

section
variable {fuel : Nat} (hgo : Going s t visited cur made) (hfit : fits p = true)
include hgo hfit

/-- The component is there: the walk ends at it, or goes on from it if it is a directory. -/
theorem Walked.found (hchild : t.findChild cur (partOf p) = some child)
    (ih : nextOf p ≠ [] → Walked s t wantDir child (nextOf p) made (building wantDir fuel child (nextOf p) t)) :
    Walked s t wantDir cur p made (building wantDir (fuel + 1) cur p t) := by
  have hcompletes := completes.eq_def s wantDir cur p t.freeNodes t.freeInodes made
  have hlacks := lacks.eq_def t cur p
  have hfind := hgo.findChild (partOf p)
  have hdir := hgo.isDir (findChild_some (hfind ▸ hchild)).2.1
  rw [building, lookupLoop, t.lookupRound_fit wantDir cur hfit]
  simp only [hfit, ← hfind, hchild, ← hdir] at hcompletes hlacks ⊢
  by_cases hnext : nextOf p = []
  · obtain ⟨r, hr, hok⟩ := arrive_end hnext wantDir t child
    rw [hr]
    exact ⟨by simp [hcompletes, hok, hnext], fun _ hj => hj, by simp [Opens, hlacks, hnext]⟩
  · rw [arrive_down hnext]
    cases hd : t.isDir child with
    | false =>
      exact ⟨by simp [hcompletes, hnext, hd, errorOf], fun _ hj => hj, by simp [Opens, hlacks, hnext, hd]⟩
    | true =>
      have hrest := ih hnext
      exact ⟨by simpa [hcompletes, hnext, hd] using hrest.ok, hrest.kept,
        by simpa [Opens, hlacks, hnext, hd] using hrest.changed⟩

/-- The component is missing: it is made, if there are a node and an inode, and stays whatever comes after it. -/
theorem Walked.missing (hchild : t.findChild cur (partOf p) = none)
    (ih : ∀ {t' visited cur made}, Going s t' visited cur made → nextOf p ≠ [] →
      Walked s t' wantDir cur (nextOf p) made (building wantDir fuel cur (nextOf p) t')) :
    Walked s t wantDir cur p made (building wantDir (fuel + 1) cur p t) := by
  have hcompletes := completes.eq_def s wantDir cur p t.freeNodes t.freeInodes made
  have hlacks := lacks.eq_def t cur p
  have hfind := hgo.findChild (partOf p)
  rw [building, lookupLoop, t.lookupRound_fit wantDir cur hfit]
  simp only [hfit, ← hfind, hchild] at hcompletes hlacks ⊢
  obtain ⟨i, nodes, k, inodes, hn, hi, hmake⟩ | ⟨hfull, e, t', hmake, hsame⟩ :=
    t.make_cases (modeOf wantDir p) cur (partOf p)
  · rw [hmake]
    simp only [hn, hi] at hcompletes
    have hkept := t.used_withEntry (modeOf wantDir p) cur (partOf p) i k
    have hopens : restOf p ≠ [] → t.Opens cur p := fun hrest =>
      ⟨by simp [hlacks, hrest], by simp [hn], by simp [hi]⟩
    have hchanged : ∀ {t'' : Tables}, (t''.nodes i).used = true → t''.nodes ≠ t.nodes := fun hused heq => by
      simp [heq, (freeNodes_head hn).2] at hused
    by_cases hrest : restOf p = []
    · have hnext : nextOf p = [] := not_not.1 fun h => restOf_ne_nil h hrest
      simp only [hrest, if_true]
      exact ⟨by simp [hn, hi, hcompletes, hnext, hrest, errorOf], fun j hj => hkept j (.inl hj),
        fun h => absurd rfl h⟩
    have hmode : modeOf wantDir p = tIfdir ||| 0o755 := if_neg fun h => hrest h.1
    simp only [hrest, if_false, hmode] at hkept ⊢
    by_cases hnext : nextOf p = []
    · obtain ⟨r, hr, hok⟩ := arrive_end hnext wantDir (t.withEntry (tIfdir ||| 0o755) cur (partOf p) i k) i
      rw [hr]
      refine ⟨by simp [hn, hi, hcompletes, hok, hnext, hrest, isDir_withEntry],
        fun j hj => hkept j (.inl hj), fun _ => ?_⟩
      exact iff_of_true (hchanged (hkept i (.inr rfl))) (hopens hrest)
    · have hgo' : Going s (t.withEntry (tIfdir ||| 0o755) cur (partOf p) i k) _ i (k :: made) := hgo.make hn
      have hwalk := ih hgo' hnext
      rw [arrive_down hnext, if_pos isDir_withEntry]
      refine ⟨?_, fun j hj => hwalk.kept j (hkept j (.inl hj)), fun _ => ?_⟩
      · rw [hwalk.ok, freeNodes_withEntry hn, freeInodes_withEntry hi, hn, hi, hcompletes]
        simp [hnext]
      · exact iff_of_true (hchanged (hwalk.kept i (hkept i (.inr rfl)))) (hopens hrest)
  · rw [hmake]
    have hnone : ¬ t.Opens cur p := fun h => hfull.elim h.2.1 h.2.2
    have hno : s.completes wantDir cur p t.freeNodes t.freeInodes made = false := by
      rw [hcompletes]
      rcases hfull with hfull | hfull <;> rw [hfull] <;> cases t.freeNodes <;> rfl
    exact ⟨by simp [hno, errorOf], fun j hj => by rwa [hsame], fun _ => iff_of_false (fun h => h hsame) hnone⟩

end

/-- The calls that make an entry. -/
inductive Making
  | create
  | mkdir
  | symlink (target : List UInt8) (alloc : Bool)

def Making.call (s : Tables) (path : List UInt8) : Making → Option Errno × Tables
  | .create => s.tmpfsCreate path
  | .mkdir => s.tmpfsMkdir path
  | .symlink target alloc => s.tmpfsSymlink path target alloc

end Tables
end InDevOS.Tmpfs
