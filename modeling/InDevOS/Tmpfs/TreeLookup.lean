import InDevOS.Tmpfs.TreeSound

/-! New entries and lookups keep the tmpfs tables sound.

A lookup goes through directories in use and ends at a node in use, which is a directory
when one was asked for (`Sound.lookup`). On the way it may make directories, and at the
end a file or a directory; each is a new inode with its entry (`Sound.make`), and without
room for the entry the tables are as before (`Sound.putNew`). -/
namespace InDevOS.Tmpfs
open Lib

namespace Tables
variable {s s' : Tables}

/-! ### The scans -/

theorem mem_scan {i : Nat} : i ∈ scan ↔ 0 < i ∧ i < tmpfsMaxNodes := by
  simp only [scan, List.mem_range'_1, tmpfsMaxNodes]
  omega

theorem findChild_some {p i : Nat} {name : List UInt8} (h : s.findChild p name = some i) :
    0 < i ∧ (s.nodes i).used = true ∧ (s.nodes i).parent = p ∧ (s.nodes i).name = name := by
  have hp := List.find?_some h
  simp only [Bool.and_eq_true, beq_iff_eq] at hp
  exact ⟨(mem_scan.1 (List.mem_of_find?_eq_some h)).1, hp.1.1, hp.1.2, hp.2⟩

theorem findChild_none (hs : Shape s) {p : Nat} {name : List UInt8} (h : s.findChild p name = none)
    (j : Nat) (hj0 : 0 < j) (hj : (s.nodes j).used = true) (hp : (s.nodes j).parent = p) :
    (s.nodes j).name ≠ name := by
  have := List.find?_eq_none.1 h j (mem_scan.2 ⟨hj0, hs.bound j hj⟩)
  simpa [hj, hp] using this

theorem no_children (hs : Shape s) {i : Nat} (h : s.hasChildren i = false) (j : Nat)
    (hj : (s.nodes j).used = true) : (s.nodes j).parent ≠ i := by
  intro hp
  rcases eq_or_ne j 0 with rfl | hj0
  · simp [hs.root] at hp
  · have hmem := mem_scan.2 ⟨Nat.pos_of_ne_zero hj0, hs.bound j hj⟩
    have := List.any_eq_false.1 h j hmem
    simp [hj, hp] at this

theorem no_children_of_file (hs : Shape s) {i : Nat} (h : s.isDir i = false) (j : Nat)
    (hj : (s.nodes j).used = true) : (s.nodes j).parent ≠ i := by
  intro hp
  rcases eq_or_ne j 0 with rfl | hj0
  · simp [hs.root] at hp
  · obtain ⟨p, hp', -, hdir⟩ := hs.parents j (Nat.pos_of_ne_zero hj0) hj
    have : p = i := by omega
    simp [this, h] at hdir

theorem allocNode_some {i : Nat} (h : s.allocNode = some i) :
    0 < i ∧ i < tmpfsMaxNodes ∧ (s.nodes i).used = false := by
  have hmem := mem_scan.1 (List.mem_of_find?_eq_some h)
  exact ⟨hmem.1, hmem.2, by simpa using List.find?_some h⟩

theorem freeInode_some {k : Nat} (h : (scan.find? fun i => !(s.inodes i).used) = some k) :
    0 < k ∧ k < tmpfsMaxNodes ∧ (s.inodes k).used = false := by
  have hmem := mem_scan.1 (List.mem_of_find?_eq_some h)
  exact ⟨hmem.1, hmem.2, by simpa using List.find?_some h⟩

theorem kstrncpy_of_lt {name : List UInt8} {size : Nat} (h : name.length < size) :
    kstrncpy name size = name :=
  List.take_of_length_le (by omega)

/-! ### New entries -/

/-- The place of a new entry: a directory in use without an entry of the name. -/
structure Place (s : Tables) (dir : Nat) (name : List UInt8) : Prop where
  used : (s.nodes dir).used = true
  isDir : s.isDir dir = true
  short : name.length < tmpfsMaxName
  absent : s.findChild dir name = none

theorem Sound.addNew (h : Sound s) {dir k i : Nat} {name : List UInt8} {n : Inode}
    (hplace : Place s dir name) (hk0 : 0 < k) (hk : k < tmpfsMaxNodes)
    (hfree : (s.inodes k).used = false) (hused : n.used = true) (hlink : n.nlink = 1)
    (hopens : n.opens = 0) (hslots : n.nchunkSlots = 0)
    (hadd : (s.setInode k n).addNode dir name k = some (i, s')) :
    Sound s' ∧ (s'.nodes i).used = true ∧ s'.isDir i = n.isDir := by
  have hzero := (h.counts.inode k hk).zero hfree
  unfold addNode at hadd
  cases hnode : (s.setInode k n).allocNode with
  | none => simp [hnode] at hadd
  | some i₀ =>
    rw [hnode] at hadd
    cases hadd
    obtain ⟨hi0, hi, hifree⟩ := allocNode_some hnode
    rw [kstrncpy_of_lt hplace.short]
    have hmode : SameModes s ((s.setInode k n).setNode i ⟨true, dir, k, name⟩) := by
      intro j hj
      have hjk : (s.nodes j).ino ≠ k := by
        rintro rfl
        simpa [nodeInode, hfree] using (h.counts.named j hj).2
      exact congrArg Inode.mode (Function.update_of_ne hjk _ _)
    have hnew : ((s.setInode k n).setNode i ⟨true, dir, k, name⟩).nodes i = ⟨true, dir, k, name⟩ :=
      Function.update_self _ _ _
    refine ⟨⟨h.shape.addEntry hi0 hi hifree hplace.used hplace.isDir
      (fun j hj0 hj hp => findChild_none h.shape hplace.absent j hj0 hj hp) rfl hmode,
      h.counts.addEntry hi hifree rfl rfl hk hused ?_ ?_ ?_ rfl rfl rfl rfl⟩, ?_, ?_⟩
    · simp [hzero, hlink, Inode.zero]
    · simp [hzero, hopens, Inode.zero]
    · rw [hzero, Inode.allocated, Inode.allocated, hslots]
      rfl
    · rw [hnew]
    · unfold isDir nodeInode
      rw [hnew]
      show ((s.setInode k n).inodes k).isDir = n.isDir
      exact congrArg Inode.isDir (Function.update_self _ _ _)

/-- Without room for the entry the new inode is cleared: nothing has changed. -/
theorem Sound.putNew (h : Sound s) {k : Nat} {n : Inode} (hk0 : 0 < k) (hk : k < tmpfsMaxNodes)
    (hfree : (s.inodes k).used = false) (hused : n.used = true) (hlink : n.nlink = 0)
    (hopens : n.opens = 0) (hslots : n.nchunkSlots = 0) : (s.setInode k n).putInode k = s := by
  have hbytes : (tmpfsFreeData n s.usedBytes).2 = s.usedBytes := by
    unfold tmpfsFreeData
    rw [hslots]
    rfl
  have hinodes : (s.setInode k Inode.zero).inodes = s.inodes := by
    rw [← (h.counts.inode k hk).zero hfree]
    exact Function.update_eq_self _ _
  unfold putInode
  rw [setInode_inodes_self, if_neg (by simp [hused, hlink, hopens]; omega), setInode_setInode]
  show (⟨s.nodes, (s.setInode k Inode.zero).inodes, (tmpfsFreeData n s.usedBytes).2,
    s.handles⟩ : Tables) = s
  rw [hinodes, hbytes]

theorem Sound.make (h : Sound s) {dir : Nat} {name : List UInt8} (hplace : Place s dir name)
    (mode : UInt32) :
    Sound (s.make mode dir name).2 ∧
    ∀ i, (s.make mode dir name).1 = .ok i →
      ((s.make mode dir name).2.nodes i).used = true ∧
      (s.make mode dir name).2.isDir i = (mode &&& tIfmt == tIfdir) := by
  unfold Tables.make allocInode
  cases hfind : scan.find? fun i => !(s.inodes i).used with
  | none => exact ⟨h, fun i hi => nomatch hi⟩
  | some k =>
    obtain ⟨hk0, hk, hfree⟩ := freeInode_some hfind
    dsimp only
    cases hadd : (s.setInode k { Inode.zero with used := true, mode := mode, nlink := 1 }).addNode
      dir name k with
    | none =>
      rw [setInode_setInode, setInode_inodes_self]
      rw [h.putNew hk0 hk hfree rfl rfl rfl rfl]
      exact ⟨h, fun i hi => nomatch hi⟩
    | some r =>
      obtain ⟨i, s'⟩ := r
      obtain ⟨hs', hused, hdir⟩ := h.addNew hplace hk0 hk hfree rfl rfl rfl rfl hadd
      refine ⟨hs', fun j hj => ?_⟩
      cases hj
      exact ⟨hused, hdir⟩

/-! ### Lookups -/

/-- What a walk leads to: a node in use, a directory when one was asked for or when the
walk goes on. -/
structure Leads (s : Tables) (wantDir : Bool) (w : Walk) : Prop where
  done : ∀ i, w = .done (.ok i) → (s.nodes i).used = true ∧ (wantDir = true → s.isDir i = true)
  next : ∀ dir p, w = .next dir p → (s.nodes dir).used = true ∧ s.isDir dir = true

theorem Leads.error (s : Tables) (wantDir : Bool) (e : Errno) :
    Leads s wantDir (.done (.error e)) := ⟨by rintro i ⟨⟩, by rintro dir p ⟨⟩⟩

theorem leads_arrive {child : Nat} (hchild : (s.nodes child).used = true)
    (createFile wantDir : Bool) (rest : List UInt8) :
    Leads s wantDir (s.arrive createFile wantDir child rest) := by
  have hok : (wantDir = true → s.isDir child = true) →
      Leads s wantDir (.done (.ok child)) := fun hw =>
    ⟨fun i hi => by cases hi; exact ⟨hchild, hw⟩, by rintro dir p ⟨⟩⟩
  unfold arrive
  dsimp only
  split_ifs with _ hnot _ hdir
  · exact .error s wantDir _
  · exact .error s wantDir _
  · exact hok fun hw => by simpa [hw] using hnot
  · exact .error s wantDir _
  · exact hok fun _ => by simpa using hdir
  · exact .error s wantDir _
  · refine ⟨by rintro i ⟨⟩, fun dir p hp => ?_⟩
    cases hp
    exact ⟨hchild, by simpa using hdir⟩

theorem Sound.lookupRound (h : Sound s) (createDirs createFile wantDir : Bool) {cur : Nat}
    (hcur : (s.nodes cur).used = true) (hdir : s.isDir cur = true) (p : List UInt8) :
    Sound (s.lookupRound createDirs createFile wantDir cur p).2 ∧
    Leads (s.lookupRound createDirs createFile wantDir cur p).2 wantDir
      (s.lookupRound createDirs createFile wantDir cur p).1 := by
  unfold Tables.lookupRound
  dsimp only
  split
  · exact ⟨h, .error s wantDir _⟩
  split
  · exact ⟨h, .error s wantDir _⟩
  cases hfind : s.findChild cur (p.takeWhile (· != slash)) with
  | some child => exact ⟨h, leads_arrive (findChild_some hfind).2.1 createFile wantDir _⟩
  | none =>
    have hplace : Place s cur (p.takeWhile (· != slash)) := ⟨hcur, hdir, by omega, hfind⟩
    dsimp only
    split
    · rename_i hfile
      obtain ⟨hs', hnew⟩ := h.make hplace (tIfreg ||| 0o644)
      simp only [Bool.and_eq_true, Bool.not_eq_true'] at hfile
      refine ⟨hs', fun i hi => ?_, by rintro dir p ⟨⟩⟩
      exact ⟨(hnew i (Walk.done.inj hi)).1, by simp [hfile.2]⟩
    split
    · obtain ⟨hs', hnew⟩ := h.make hplace (tIfdir ||| 0o755)
      revert hs' hnew
      rcases s.make (tIfdir ||| 0o755) cur (p.takeWhile (· != slash)) with ⟨e | child, s'⟩
      · exact fun hs' _ => ⟨hs', .error s' wantDir e⟩
      · intro hs' hnew
        obtain ⟨hused, hisDir⟩ := hnew child rfl
        refine ⟨hs', ?_⟩
        split_ifs
        · refine ⟨fun i hi => ?_, by rintro dir p ⟨⟩⟩
          cases hi
          exact ⟨hused, fun _ => hisDir⟩
        · exact leads_arrive hused createFile wantDir _
    · exact ⟨h, .error s wantDir _⟩

/-- A lookup keeps the tables sound, and what it finds is a node in use: a directory when
one was asked for. -/
theorem Sound.lookupLoop (createDirs createFile wantDir : Bool) :
    ∀ (fuel cur : Nat) (p : List UInt8) {s : Tables}, Sound s → (s.nodes cur).used = true →
      s.isDir cur = true →
      Sound (lookupLoop createDirs createFile wantDir fuel cur p s).2 ∧
      ∀ i, (lookupLoop createDirs createFile wantDir fuel cur p s).1 = .ok i →
        ((lookupLoop createDirs createFile wantDir fuel cur p s).2.nodes i).used = true ∧
        (wantDir = true →
          (lookupLoop createDirs createFile wantDir fuel cur p s).2.isDir i = true) := by
  intro fuel
  induction fuel with
  | zero => exact fun cur p s h _ _ => ⟨h, fun i hi => nomatch hi⟩
  | succ fuel ih =>
    intro cur p s h hcur hdir
    obtain ⟨hs', hleads⟩ := h.lookupRound createDirs createFile wantDir hcur hdir p
    unfold Tables.lookupLoop
    revert hs' hleads
    rcases s.lookupRound createDirs createFile wantDir cur p with ⟨r | ⟨dir, q⟩, s'⟩
    · exact fun hs' hleads => ⟨hs', fun i hi => hleads.done i (congrArg Walk.done hi)⟩
    · intro hs' hleads
      obtain ⟨hused, hisDir⟩ := hleads.next dir q rfl
      exact ih dir q hs' hused hisDir

theorem Sound.root (h : Sound s) : (s.nodes 0).used = true ∧ s.isDir 0 = true :=
  ⟨by rw [h.shape.root], h.shape.rootDir⟩

theorem Sound.lookup (h : Sound s) (path : List UInt8) (createDirs createFile wantDir : Bool) :
    Sound (s.lookup path createDirs createFile wantDir).2 ∧
    ∀ i, (s.lookup path createDirs createFile wantDir).1 = .ok i →
      ((s.lookup path createDirs createFile wantDir).2.nodes i).used = true ∧
      (wantDir = true → (s.lookup path createDirs createFile wantDir).2.isDir i = true) := by
  unfold Tables.lookup
  dsimp only
  split
  · refine ⟨h, fun i hi => ?_⟩
    split_ifs at hi
    cases hi
    exact ⟨h.root.1, fun _ => h.root.2⟩
  · exact Sound.lookupLoop createDirs createFile wantDir _ 0 _ h h.root.1 h.root.2

theorem lookupRound_same (s : Tables) (wantDir : Bool) (cur : Nat) (p : List UInt8) :
    (s.lookupRound false false wantDir cur p).2 = s := by
  unfold lookupRound
  dsimp only
  split
  · rfl
  split
  · rfl
  · cases s.findChild cur (p.takeWhile (· != slash)) <;> simp

theorem lookup_same (s : Tables) (path : List UInt8) (wantDir : Bool) :
    (s.lookup path false false wantDir).2 = s := by
  have hloop : ∀ (fuel cur : Nat) (p : List UInt8),
      (Tables.lookupLoop false false wantDir fuel cur p s).2 = s := by
    intro fuel
    induction fuel with
    | zero => exact fun _ _ => rfl
    | succ fuel ih =>
      intro cur p
      have hround := lookupRound_same s wantDir cur p
      unfold Tables.lookupLoop
      revert hround
      rcases s.lookupRound false false wantDir cur p with ⟨r | ⟨dir, q⟩, s'⟩
      · exact id
      · rintro rfl
        exact ih dir q
  unfold Tables.lookup
  dsimp only
  split
  · rfl
  · exact hloop _ _ _

theorem Sound.find (h : Sound s) {path : List UInt8} {wantDir : Bool} {i : Nat}
    (hi : s.find path wantDir = .ok i) :
    (s.nodes i).used = true ∧ (wantDir = true → s.isDir i = true) := by
  have := (h.lookup path false false wantDir).2 i hi
  rwa [lookup_same] at this

theorem Sound.lookupAny (h : Sound s) {path : List UInt8} {i : Nat} (hi : s.lookupAny path = .ok i) :
    (s.nodes i).used = true := by
  unfold Tables.lookupAny at hi
  split_ifs at hi
  · cases hi
    exact h.root.1
  · cases hfile : s.find path false with
    | ok j =>
      rw [hfile] at hi
      cases hi
      exact (h.find hfile).1
    | error e =>
      rw [hfile] at hi
      dsimp only at hi
      split_ifs at hi
      cases hdir : s.find path true with
      | ok j =>
        rw [hdir] at hi
        cases hi
        exact (h.find hdir).1
      | error e' =>
        rw [hdir] at hi
        cases hi

theorem Sound.parentOf (h : Sound s) {path leaf : List UInt8} {dir : Nat}
    (hp : s.parentOf path = .ok (dir, leaf)) :
    (s.nodes dir).used = true ∧ s.isDir dir = true ∧ leaf.length < tmpfsMaxName := by
  have hshort : ∀ l : List UInt8, (kstrncpy l tmpfsMaxName).length < tmpfsMaxName := by
    intro l
    rw [kstrncpy, List.length_take]
    unfold tmpfsMaxName
    omega
  unfold Tables.parentOf at hp
  dsimp only at hp
  split_ifs at hp
  · -- below a directory that is looked up
    split at hp
    · rename_i d hfind
      cases hp
      exact ⟨(h.find hfind).1, (h.find hfind).2 rfl, hshort _⟩
    · cases hp
  · cases hp
    exact ⟨h.root.1, h.root.2, hshort _⟩

end Tables

end InDevOS.Tmpfs
