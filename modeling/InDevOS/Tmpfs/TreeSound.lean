import InDevOS.Lib.Forest
import InDevOS.Tmpfs.Accounting
import InDevOS.Tmpfs.Tree

/-! The invariant of the tmpfs tables and the changes that keep it.

`Shape` is about the nodes: a tree of directories from node 0, with distinct names in a
directory. `Counts x` is about the inodes: links, handles and used bytes are counted
right, and an inode is in use exactly as long as it has a link or a handle. The inode `x`
is excepted from the last: between the loss of a link or a handle and `tmpfs_put_inode`
it may have neither. `Counts 0` has no exception.

The calls are made of a few changes: a new entry, an entry dropped, an entry moved, a
handle more or less, data, and freeing. There is one lemma for each. -/
namespace InDevOS.Tmpfs
open Lib Function

namespace Tables

/-! ### The invariant -/

/-- The parent of a node, for a node in use that has one. -/
def up (s : Tables) (i : Nat) : Option Nat :=
  if (s.nodes i).used ∧ 0 ≤ (s.nodes i).parent then some (s.nodes i).parent.toNat else none

/-- The nodes in use are a tree of directories from node 0. -/
structure Shape (s : Tables) : Prop where
  root : s.nodes 0 = ⟨true, -1, 0, []⟩
  rootDir : s.isDir 0 = true
  bound : ∀ i, (s.nodes i).used = true → i < tmpfsMaxNodes
  parents : ∀ i, 0 < i → (s.nodes i).used = true →
    ∃ p : Nat, (s.nodes i).parent = p ∧ (s.nodes p).used = true ∧ s.isDir p = true
  reaches : ∀ i, (s.nodes i).used = true → Above s.up i 0
  siblings : ∀ i j, 0 < i → 0 < j → (s.nodes i).used = true → (s.nodes j).used = true →
    (s.nodes i).parent = (s.nodes j).parent → (s.nodes i).name = (s.nodes j).name → i = j

/-- One for a node that names inode `k`. -/
def names (k : Nat) (nd : Node) : Nat := if nd.used ∧ nd.ino = k then 1 else 0

/-- Links and handles of inode `k` are counted right, and unless it is `x` it is in use as
long as it has either. -/
structure InodeOk (x : Nat) (s : Tables) (k : Nat) : Prop where
  links : (s.inodes k).nlink = total tmpfsMaxNodes (names k) s.nodes
  opens : (s.inodes k).opens = s.handles.countP fun h => h.ino == k
  freed : 0 < k → k ≠ x →
    ((s.inodes k).used = true ↔ 0 < (s.inodes k).nlink ∨ 0 < (s.inodes k).opens)
  zero : (s.inodes k).used = false → s.inodes k = Inode.zero

/-- Links, handles and bytes are counted right, and inodes without links and handles are
cleared, but for `x`. -/
structure Counts (x : Nat) (s : Tables) : Prop where
  bound : ∀ i, (s.nodes i).used = true → i < tmpfsMaxNodes
  named : ∀ i, (s.nodes i).used = true →
    (s.nodes i).ino < tmpfsMaxNodes ∧ (s.nodeInode i).used = true
  root : (s.inodes 0).used = true
  pending : (s.inodes x).used = true
  inode : ∀ k < tmpfsMaxNodes, InodeOk x s k
  handles : ∀ h ∈ s.handles, 0 < h.ino ∧ h.ino < tmpfsMaxNodes
  bytes : s.usedBytes = tmpfsChunk * total tmpfsMaxNodes Inode.allocated s.inodes

structure Sound (s : Tables) : Prop where
  shape : Shape s
  counts : Counts 0 s

variable {x : Nat} {s s' : Tables}

/-! ### Looking at changed tables -/

theorem up_eq_some_iff {i p : Nat} :
    s.up i = some p ↔ (s.nodes i).used = true ∧ (s.nodes i).parent = p := by
  unfold up
  constructor
  · intro h
    split_ifs at h with hu
    exact ⟨hu.1, by have := Option.some.inj h; omega⟩
  · rintro ⟨hused, hp⟩
    rw [if_pos ⟨hused, by omega⟩, hp, Int.toNat_natCast]

theorem up_eq_none {i : Nat} (h : (s.nodes i).used = false) : s.up i = none :=
  if_neg (by simp [h])

theorem up_of_update {i : Nat} {nd : Node} (h : s'.nodes = update s.nodes i nd) :
    s'.up = update s.up i
      (if nd.used ∧ 0 ≤ nd.parent then some nd.parent.toNat else none) := by
  funext j
  unfold up
  rw [h]
  by_cases hj : j = i
  · subst hj
    simp only [update_self]
  · simp only [update_of_ne hj]

/-- A node stays a directory with its inode number and the mode of the inode. -/
theorem isDir_eq {j : Nat} (hino : (s'.nodes j).ino = (s.nodes j).ino)
    (hmode : (s'.inodes (s.nodes j).ino).mode = (s.inodes (s.nodes j).ino).mode) :
    s'.isDir j = s.isDir j := by
  unfold isDir nodeInode Inode.isDir
  rw [hino, hmode]

/-- The modes of the inodes that the nodes in use name are as before. -/
def SameModes (s s' : Tables) : Prop :=
  ∀ j, (s.nodes j).used = true →
    (s'.inodes (s.nodes j).ino).mode = (s.inodes (s.nodes j).ino).mode

theorem SameModes.update {k : Nat} {n : Inode} (hinodes : s'.inodes = update s.inodes k n)
    (hmode : n.mode = (s.inodes k).mode) : SameModes s s' := by
  intro j _
  rw [hinodes]
  by_cases hjk : (s.nodes j).ino = k
  · rw [hjk, update_self, hmode]
  · rw [update_of_ne hjk]

/-! ### Changes of the tree -/

theorem Shape.congr (h : Shape s) (hnodes : s'.nodes = s.nodes) (hmode : SameModes s s') :
    Shape s' := by
  have hup : s'.up = s.up := by
    funext i
    unfold up
    rw [hnodes]
  have hdir : ∀ j, (s.nodes j).used = true → s'.isDir j = s.isDir j :=
    fun j hj => isDir_eq (by rw [hnodes]) (hmode j hj)
  refine ⟨hnodes ▸ h.root, ?_, hnodes ▸ h.bound, ?_, ?_, hnodes ▸ h.siblings⟩
  · rw [hdir 0 (by rw [h.root]), h.rootDir]
  · rw [hnodes]
    intro i hi hused
    obtain ⟨p, hp, hpused, hpdir⟩ := h.parents i hi hused
    exact ⟨p, hp, hpused, (hdir p hpused).trans hpdir⟩
  · rw [hnodes, hup]
    exact h.reaches

/-- One node changes: it stays the directory it was if it has entries, and if it is in use it
has a place and a name of its own there. -/
theorem Shape.update (h : Shape s) {i : Nat} {nd : Node} (hi0 : 0 < i)
    (hnodes : s'.nodes = update s.nodes i nd) (hmode : SameModes s s')
    (hentries : ∀ j, 0 < j → (s.nodes j).used = true → (s.nodes j).parent = i →
      nd.used = true ∧ nd.ino = (s.nodes i).ino)
    (hplace : nd.used = true → i < tmpfsMaxNodes ∧
      ∃ p : Nat, nd.parent = p ∧ p ≠ i ∧ (s.nodes p).used = true ∧ s.isDir p = true)
    (hname : nd.used = true → ∀ j, 0 < j → j ≠ i → (s.nodes j).used = true →
      (s.nodes j).parent = nd.parent → (s.nodes j).name ≠ nd.name)
    (hreach : ∀ j, (s'.nodes j).used = true → Above s'.up j 0) : Shape s' := by
  have hself : s'.nodes i = nd := by rw [hnodes, update_self]
  have hold : ∀ {j}, j ≠ i → s'.nodes j = s.nodes j :=
    fun hj => by rw [hnodes, update_of_ne hj]
  have hisDir : ∀ {j}, j ≠ i → (s.nodes j).used = true → s'.isDir j = s.isDir j :=
    fun hne hj => isDir_eq (by rw [hold hne]) (hmode _ hj)
  have hroot : (s.nodes 0).used = true := by rw [h.root]
  refine ⟨(hold (by omega)).trans h.root, (hisDir (by omega) hroot).trans h.rootDir, fun j hj => ?_,
    fun j hj0 hj => ?_, hreach, fun j l hj0 hl0 hj hl hpar hnm => ?_⟩
  · by_cases hji : j = i
    · rw [hji, hself] at hj
      exact hji ▸ (hplace hj).1
    · exact h.bound j (hold hji ▸ hj)
  · by_cases hji : j = i
    · rw [hji, hself] at hj ⊢
      obtain ⟨-, p, hp, hpi, hpused, hpdir⟩ := hplace hj
      exact ⟨p, hp, by rw [hold hpi, hpused], by rw [hisDir hpi hpused, hpdir]⟩
    · rw [hold hji] at hj ⊢
      obtain ⟨q, hq, hqused, hqdir⟩ := h.parents j hj0 hj
      refine ⟨q, hq, ?_⟩
      by_cases hqi : q = i
      · obtain ⟨hnd, hino⟩ := hentries j hj0 hj (hqi ▸ hq)
        rw [hqi] at hqused hqdir ⊢
        exact ⟨by rw [hself, hnd], (isDir_eq (by rw [hself, hino]) (hmode i hqused)).trans hqdir⟩
      · exact ⟨by rw [hold hqi, hqused], by rw [hisDir hqi hqused, hqdir]⟩
  · by_cases hji : j = i <;> by_cases hli : l = i
    · rw [hji, hli]
    · rw [hji, hself] at hj hpar hnm
      rw [hold hli] at hl hpar hnm
      exact absurd hnm.symm (hname hj l hl0 hli hl hpar.symm)
    · rw [hli, hself] at hl hpar hnm
      rw [hold hji] at hj hpar hnm
      exact absurd hnm (hname hl j hj0 hji hj hpar)
    · rw [hold hji] at hj hpar hnm
      rw [hold hli] at hl hpar hnm
      exact h.siblings j l hj0 hl0 hj hl hpar hnm

theorem Shape.addEntry (h : Shape s) {i p k : Nat} {name : List UInt8} (hi0 : 0 < i)
    (hi : i < tmpfsMaxNodes) (hfree : (s.nodes i).used = false) (hp : (s.nodes p).used = true)
    (hdir : s.isDir p = true)
    (hname : ∀ j, 0 < j → (s.nodes j).used = true → (s.nodes j).parent = p →
      (s.nodes j).name ≠ name)
    (hnodes : s'.nodes = Function.update s.nodes i ⟨true, p, k, name⟩) (hmode : SameModes s s') :
    Shape s' := by
  have hne : ∀ {j}, (s.nodes j).used = true → j ≠ i := by
    rintro j hj rfl
    rw [hfree] at hj
    cases hj
  have hup : s'.up = Function.update s.up i (some p) := by
    rw [up_of_update hnodes]
    simp
  have hreach : ∀ {j}, (s.nodes j).used = true → Above s'.up j 0 := fun hj => by
    rw [hup]
    exact (h.reaches _ hj).attach (up_eq_none hfree) (by omega)
  refine h.update hi0 hnodes hmode (fun j hj0 hj hpar => ?_) (fun _ => ⟨hi, p, rfl, hne hp, hp, hdir⟩)
    (fun _ j hj0 _ => hname j hj0) fun j hj => ?_
  · obtain ⟨q, hq, hqused, -⟩ := h.parents j hj0 hj
    exact absurd (Int.ofNat.inj (hq.symm.trans hpar)) (hne hqused)
  · by_cases hji : j = i
    · rw [hji]
      exact .head (by rw [hup, update_self]) (hreach hp)
    · rw [hnodes, update_of_ne hji] at hj
      exact hreach hj

theorem Shape.dropEntry (h : Shape s) {i : Nat} (hi0 : 0 < i)
    (hleaf : ∀ j, (s.nodes j).used = true → (s.nodes j).parent ≠ i)
    (hnodes : s'.nodes = Function.update s.nodes i Node.zero) (hmode : SameModes s s') :
    Shape s' := by
  refine h.update hi0 hnodes hmode (fun j _ hj hpar => absurd hpar (hleaf j hj)) (fun hu => by cases hu)
    (fun hu => by cases hu) fun j hj => ?_
  have hji : j ≠ i := by
    rintro rfl
    rw [hnodes, update_self] at hj
    cases hj
  rw [hnodes, update_of_ne hji] at hj
  rw [up_of_update hnodes]
  refine (h.reaches j hj).detach (fun b hb => ?_) hji
  obtain ⟨hb, hbp⟩ := up_eq_some_iff.1 hb
  exact hleaf b hb hbp

theorem Shape.moveEntry (h : Shape s) {src p : Nat} {name : List UInt8} (hsrc0 : 0 < src)
    (hsrc : (s.nodes src).used = true) (hp : (s.nodes p).used = true) (hdir : s.isDir p = true)
    (hbelow : ¬ Above s.up p src)
    (hname : ∀ j, 0 < j → j ≠ src → (s.nodes j).used = true → (s.nodes j).parent = p →
      (s.nodes j).name ≠ name)
    (hnodes : s'.nodes =
      Function.update s.nodes src { s.nodes src with parent := p, name := name })
    (hmode : SameModes s s') : Shape s' := by
  have hup : s'.up = Function.update s.up src (some p) := by
    rw [up_of_update hnodes]
    simp [hsrc]
  have hps : p ≠ src := by
    rintro rfl
    exact hbelow (.refl _ _)
  refine h.update hsrc0 hnodes hmode (fun _ _ _ _ => ⟨hsrc, rfl⟩)
    (fun _ => ⟨h.bound src hsrc, p, rfl, hps, hp, hdir⟩) (fun _ => hname) fun j hj => ?_
  have hused : (s.nodes j).used = true := by
    by_cases hjs : j = src
    · rw [hjs, hsrc]
    · rwa [hnodes, update_of_ne hjs] at hj
  rw [hup]
  exact .move hbelow (h.reaches p hp) (h.reaches j hused)

/-! ### Changes of the counts -/

theorem Counts.not_named (h : Counts x s) {k : Nat} (hk : k < tmpfsMaxNodes)
    (hlink : (s.inodes k).nlink = 0) {i : Nat} (hi : (s.nodes i).used = true) :
    (s.nodes i).ino ≠ k := by
  rintro rfl
  rw [(h.inode _ hk).links] at hlink
  have := total_eq_zero_iff.1 hlink i (h.bound i hi)
  simp [names, hi] at this

theorem InodeOk.congr {y k : Nat} (h : InodeOk x s k) (hinode : s'.inodes k = s.inodes k)
    (hlinks : total tmpfsMaxNodes (names k) s'.nodes = total tmpfsMaxNodes (names k) s.nodes)
    (hopens : (s'.handles.countP fun h => h.ino == k) = s.handles.countP fun h => h.ino == k)
    (hx : 0 < k → k ≠ y → k ≠ x) : InodeOk y s' k where
  links := by rw [hinode, hlinks, h.links]
  opens := by rw [hinode, hopens, h.opens]
  freed h0 hy := by
    rw [hinode]
    exact h.freed h0 (hx h0 hy)
  zero hu := by
    rw [hinode] at hu ⊢
    exact h.zero hu

theorem Counts.bytes_update (h : Counts x s) {k : Nat} {n : Inode} (hk : k < tmpfsMaxNodes)
    (hinodes : s'.inodes = update s.inodes k n)
    (hbytes : s'.usedBytes + tmpfsChunk * (s.inodes k).allocated =
      s.usedBytes + tmpfsChunk * n.allocated) :
    s'.usedBytes = tmpfsChunk * total tmpfsMaxNodes Inode.allocated s'.inodes := by
  have htotal := total_update hk Inode.allocated s.inodes n
  have hold := h.bytes
  rw [hinodes]
  unfold tmpfsChunk at *
  omega

theorem Counts.allocated_le (h : Counts x s) {k : Nat} (hk : k < tmpfsMaxNodes) :
    tmpfsChunk * (s.inodes k).allocated ≤ s.usedBytes := by
  rw [h.bytes]
  exact Nat.mul_le_mul_left _ (le_total hk Inode.allocated s.inodes)

theorem total_names_update {i : Nat} (hi : i < tmpfsMaxNodes) (m : Nat) (nodes : Nat → Node)
    (nd : Node) :
    total tmpfsMaxNodes (names m) (update nodes i nd) + names m (nodes i) =
      total tmpfsMaxNodes (names m) nodes + names m nd :=
  total_update hi (names m) nodes nd

section
variable (h : Counts 0 s) {y k : Nat} {n : Inode} (hk : k < tmpfsMaxNodes)
  (hinodes : s'.inodes = update s.inodes k n) (hused : n.used = true)
  (hopens : n.opens = s'.handles.countP fun h => h.ino == k)
  (hother : ∀ m, m ≠ k → (s'.handles.countP fun h => h.ino == m) = s.handles.countP fun h => h.ino == m)
  (hy : y = 0 ∧ (0 < k → 0 < n.nlink ∨ 0 < n.opens) ∨ y = k)
  (hhandles : ∀ h ∈ s'.handles, 0 < h.ino ∧ h.ino < tmpfsMaxNodes)
  (hbytes : s'.usedBytes + tmpfsChunk * (s.inodes k).allocated = s.usedBytes + tmpfsChunk * n.allocated)
include h hk hinodes hused hopens hother hy hhandles hbytes

/-- Another record for inode `k`, of which `hlink` and `hopens` account; the other inodes keep
their links and handles, and no node names one it did not name. -/
theorem Counts.change (hnode : ∀ j, (s'.nodes j).used = true → j < tmpfsMaxNodes ∧
      ((s'.nodes j).ino = k ∨ (s.nodes j).used = true ∧ (s'.nodes j).ino = (s.nodes j).ino))
    (hlink : n.nlink = total tmpfsMaxNodes (names k) s'.nodes)
    (hlinks : ∀ m, m ≠ k →
      total tmpfsMaxNodes (names m) s'.nodes = total tmpfsMaxNodes (names m) s.nodes) : Counts y s' := by
  have hself : s'.inodes k = n := by rw [hinodes, update_self]
  have hsame : ∀ m, m ≠ k → s'.inodes m = s.inodes m :=
    fun m hm => by rw [hinodes, update_of_ne hm]
  have hstill : ∀ m, (s.inodes m).used = true → (s'.inodes m).used = true := by
    intro m hm
    by_cases hmk : m = k
    · rw [hmk, hself, hused]
    · rw [hsame m hmk, hm]
  refine ⟨fun j hj => (hnode j hj).1, fun j hj => ?_, hstill 0 h.root, ?_, fun m hm => ?_, hhandles,
    h.bytes_update hk hinodes hbytes⟩
  · unfold nodeInode
    rcases (hnode j hj).2 with hino | ⟨hj, hino⟩
    · rw [hino, hself]
      exact ⟨hk, hused⟩
    · rw [hino]
      exact ⟨(h.named j hj).1, hstill _ (h.named j hj).2⟩
  · rcases hy with ⟨rfl, -⟩ | rfl
    · exact hstill 0 h.root
    · rw [hself, hused]
  · by_cases hmk : m = k
    · subst hmk
      refine ⟨by rw [hself, hlink], by rw [hself, hopens], fun h0 hne => ?_, fun hu => ?_⟩
      · rw [hself, hused]
        rcases hy with ⟨-, hlive⟩ | rfl
        · simp [hlive h0]
        · exact absurd rfl hne
      · rw [hself, hused] at hu
        cases hu
    · exact (h.inode m hm).congr (hsame m hmk) (hlinks m hmk) (hother m hmk) fun h0 _ => by omega

/-- Another record for an inode, with its links; and the handles on it, of which `hopens`
accounts. -/
theorem Counts.setInode (hlink : n.nlink = (s.inodes k).nlink) (hnodes : s'.nodes = s.nodes) : Counts y s' := by
  refine h.change hk hinodes hused hopens hother hy hhandles hbytes (fun j hj => ?_) ?_ fun m _ => by rw [hnodes]
  · rw [hnodes] at hj ⊢
    exact ⟨h.bound j hj, .inr ⟨hj, rfl⟩⟩
  · rw [hnodes, hlink, (h.inode k hk).links]

end

theorem Counts.addEntry (h : Counts 0 s) {i k : Nat} {nd : Node} {n : Inode}
    (hi : i < tmpfsMaxNodes) (hfree : (s.nodes i).used = false) (hnd : nd.used = true)
    (hino : nd.ino = k) (hk : k < tmpfsMaxNodes) (hused : n.used = true)
    (hlink : n.nlink = (s.inodes k).nlink + 1) (hopens : n.opens = (s.inodes k).opens)
    (halloc : n.allocated = (s.inodes k).allocated)
    (hnodes : s'.nodes = update s.nodes i nd)
    (hinodes : s'.inodes = update s.inodes k n) (hhandles : s'.handles = s.handles)
    (hbytes : s'.usedBytes = s.usedBytes) : Counts 0 s' := by
  have hnames : ∀ m, total tmpfsMaxNodes (names m) s'.nodes =
      total tmpfsMaxNodes (names m) s.nodes + if k = m then 1 else 0 := by
    intro m
    have := total_names_update hi m s.nodes nd
    rw [show names m (s.nodes i) = 0 by simp [names, hfree],
      show names m nd = if k = m then 1 else 0 by simp [names, hnd, hino], Nat.add_zero] at this
    rw [hnodes, this]
  refine h.change hk hinodes hused ?_ (fun m _ => by rw [hhandles])
    (.inl ⟨rfl, fun _ => .inl (by omega)⟩) (hhandles ▸ h.handles) (by rw [hbytes, halloc]) (fun j hj => ?_) ?_
    fun m hm => ?_
  · rw [hhandles, hopens, (h.inode k hk).opens]
  · rw [hnodes] at hj ⊢
    by_cases hji : j = i
    · rw [hji, update_self]
      exact ⟨hi, .inl hino⟩
    · rw [update_of_ne hji] at hj ⊢
      exact ⟨h.bound j hj, .inr ⟨hj, rfl⟩⟩
  · rw [hnames, if_pos rfl, hlink, (h.inode k hk).links]
  · rw [hnames, if_neg (Ne.symm hm), Nat.add_zero]

/-- An entry dropped: its inode has one link less, and may have to be freed. -/
theorem Counts.dropEntry (h : Counts 0 s) {i k : Nat} (hi : (s.nodes i).used = true)
    (hino : (s.nodes i).ino = k) (hnodes : s'.nodes = update s.nodes i Node.zero)
    (hinodes : s'.inodes =
      update s.inodes k { s.inodes k with nlink := (s.inodes k).nlink - 1 })
    (hhandles : s'.handles = s.handles) (hbytes : s'.usedBytes = s.usedBytes) :
    Counts k s' := by
  obtain ⟨hk, hkused⟩ := h.named i hi
  unfold nodeInode at hkused
  rw [hino] at hk hkused
  have hnames : ∀ m, total tmpfsMaxNodes (names m) s'.nodes + (if k = m then 1 else 0) =
      total tmpfsMaxNodes (names m) s.nodes := by
    intro m
    have := total_names_update (h.bound i hi) m s.nodes Node.zero
    rw [show names m (s.nodes i) = if k = m then 1 else 0 by simp [names, hi, hino],
      show names m Node.zero = 0 from rfl, Nat.add_zero] at this
    rw [hnodes, this]
  refine h.change hk hinodes hkused ?_ (fun m _ => by rw [hhandles])
    (.inr rfl) (hhandles ▸ h.handles) (by rw [hbytes]; rfl) (fun j hj => ?_) ?_ fun m hm => ?_
  · rw [hhandles]
    exact (h.inode k hk).opens
  · rw [hnodes] at hj ⊢
    have hji : j ≠ i := by
      rintro rfl
      rw [update_self] at hj
      cases hj
    rw [update_of_ne hji] at hj ⊢
    exact ⟨h.bound j hj, .inr ⟨hj, rfl⟩⟩
  · have := hnames k
    rw [if_pos rfl] at this
    show (s.inodes k).nlink - 1 = _
    rw [(h.inode k hk).links]
    omega
  · have := hnames m
    rwa [if_neg (Ne.symm hm), Nat.add_zero] at this

theorem Counts.moveEntry (h : Counts x s) (hused : ∀ j, (s'.nodes j).used = (s.nodes j).used)
    (hino : ∀ j, (s'.nodes j).ino = (s.nodes j).ino) (hinodes : s'.inodes = s.inodes)
    (hhandles : s'.handles = s.handles) (hbytes : s'.usedBytes = s.usedBytes) : Counts x s' := by
  refine ⟨fun j hj => h.bound j (hused j ▸ hj), fun j hj => ?_, hinodes ▸ h.root,
    hinodes ▸ h.pending, fun m hm => ?_, hhandles ▸ h.handles, by rw [hbytes, hinodes, h.bytes]⟩
  · unfold nodeInode
    rw [hino, hinodes]
    exact h.named j (hused j ▸ hj)
  · refine (h.inode m hm).congr (by rw [hinodes]) ?_ (by rw [hhandles]) fun _ hne => hne
    refine total_congr fun j _ => ?_
    unfold names
    rw [hused, hino]

/-- Freeing the excepted inode when it has neither link nor handle. -/
theorem Counts.putInode {k : Nat} (h : Counts k s) (hk : k < tmpfsMaxNodes) :
    Counts 0 (s.putInode k) ∧ (s.putInode k).nodes = s.nodes ∧ SameModes s (s.putInode k) := by
  unfold Tables.putInode
  dsimp only
  split_ifs with hkeep
  · -- the inode is the root or still has a link or a handle
    refine ⟨⟨h.bound, h.named, h.root, h.root, fun m hm => ?_, h.handles, h.bytes⟩, rfl,
      fun _ _ => rfl⟩
    refine ⟨(h.inode m hm).links, (h.inode m hm).opens, fun h0 _ => ?_, (h.inode m hm).zero⟩
    by_cases hmk : m = k
    · subst hmk
      have hused := h.pending
      rw [hused]
      simp only [hused, Bool.not_true, Bool.false_eq_true, false_or] at hkeep
      simp only [true_iff]
      omega
    · exact (h.inode m hm).freed h0 hmk
  · simp only [not_or, not_not, Bool.not_eq_true', Bool.not_eq_false] at hkeep
    obtain ⟨hk0, hused, hlink, hopens⟩ := hkeep
    have hnot : ∀ {j}, (s.nodes j).used = true → (s.nodes j).ino ≠ k :=
      fun hj => h.not_named hk hlink hj
    have hsame : ∀ m, m ≠ k → (s.setInode k Inode.zero).inodes m = s.inodes m :=
      fun m hm => update_of_ne hm _ _
    have hself : (s.setInode k Inode.zero).inodes k = Inode.zero := update_self _ _ _
    have hzero : Inode.zero.allocated = 0 := total_none 0
    refine ⟨⟨h.bound, fun j hj => ?_, ?_, ?_, fun m hm => ?_, h.handles,
      h.bytes_update hk rfl ?_⟩, rfl, fun j hj => ?_⟩
    · refine ⟨(h.named j hj).1, ?_⟩
      show ((s.setInode k Inode.zero).inodes (s.nodes j).ino).used = true
      rw [hsame _ (hnot hj)]
      exact (h.named j hj).2
    · exact (congrArg Inode.used (hsame 0 (Ne.symm hk0))).trans h.root
    · exact (congrArg Inode.used (hsame 0 (Ne.symm hk0))).trans h.root
    · by_cases hmk : m = k
      · subst hmk
        refine ⟨?_, ?_, fun _ _ => ?_, fun _ => hself⟩
        · refine (congrArg Inode.nlink hself).trans ?_
          exact hlink.symm.trans (h.inode m hm).links
        · refine (congrArg Inode.opens hself).trans ?_
          exact hopens.symm.trans (h.inode m hm).opens
        · show ((s.setInode m Inode.zero).inodes m).used = true ↔
            0 < ((s.setInode m Inode.zero).inodes m).nlink ∨
              0 < ((s.setInode m Inode.zero).inodes m).opens
          rw [hself]
          decide
      · exact (h.inode m hm).congr (hsame m hmk) rfl rfl fun _ _ => hmk
    · have hfree := (tmpfsFreeData_step (s.inodes k) s.usedBytes).bytes (h.allocated_le hk)
      exact hfree
    · show ((s.setInode k Inode.zero).inodes (s.nodes j).ino).mode = _
      rw [hsame _ (hnot hj)]

end Tables

end InDevOS.Tmpfs
