import InDevOS.Tmpfs.TreeLookup

/-! Every call keeps the tmpfs tables sound, but for `tmpfs_unlink`.

`tmpfs_unlink` looks its path up without asking for a directory, and that lookup finds
directories too; only when it fails does the call look for children. Unlinking a directory
that has children leaves them without a parent (`unlink_orphans`). As long as no unlink
hits such a directory the tables stay a tree with right counts (`tmpfs_tree_sound`). -/
namespace InDevOS.Tmpfs
open Lib Function List

namespace Tables
variable {s s' : Tables}

/-! ### Entries dropped and moved -/

theorem Sound.dropNode (h : Sound s) {i : Nat} (hi0 : 0 < i) (hi : (s.nodes i).used = true)
    (hleaf : ∀ j, (s.nodes j).used = true → (s.nodes j).parent ≠ i) :
    Sound (s.dropNode i) ∧ (s.dropNode i).nodes = update s.nodes i Node.zero ∧
      ∀ j, j ≠ i → (s.nodes j).used = true → (s.dropNode i).isDir j = s.isDir j := by
  let k := (s.nodes i).ino
  let s₁ := (s.setNode i Node.zero).setInode k
    { s.inodes k with nlink := (s.inodes k).nlink - 1 }
  have hmode : SameModes s s₁ := .update rfl rfl
  have hshape : Shape s₁ := h.shape.dropEntry hi0 hleaf rfl hmode
  have hcounts : Counts k s₁ := h.counts.dropEntry hi rfl rfl rfl rfl rfl
  obtain ⟨hput, hnodes, hmode'⟩ := hcounts.putInode (h.counts.named i hi).1
  refine ⟨⟨hshape.congr hnodes hmode', hput⟩, hnodes, fun j hj hused => ?_⟩
  have hnode : s₁.nodes j = s.nodes j := update_of_ne hj _ _
  calc (s₁.putInode k).isDir j = s₁.isDir j :=
        isDir_eq (by rw [hnodes]) (hmode' j (by rw [hnode, hused]))
    _ = s.isDir j := isDir_eq (by rw [hnode]) (hmode j hused)

/-- An entry moved to a directory that is not below it and has no entry of the name. -/
theorem Sound.reparent (h : Sound s) {src dir : Nat} {leaf : List UInt8} (hsrc0 : 0 < src)
    (hsrc : (s.nodes src).used = true) (hdir : (s.nodes dir).used = true)
    (hisDir : s.isDir dir = true) (hleaf : leaf.length < tmpfsMaxName)
    (hbelow : ¬ Above s.up dir src)
    (hname : ∀ j, 0 < j → j ≠ src → (s.nodes j).used = true → (s.nodes j).parent = dir →
      (s.nodes j).name ≠ leaf) : Sound (s.reparent src dir leaf) := by
  unfold Tables.reparent
  rw [kstrncpy_of_lt hleaf]
  have hnode : ∀ j, ((s.setNode src { s.nodes src with parent := dir, name := leaf }).nodes j).used =
      (s.nodes j).used ∧
      ((s.setNode src { s.nodes src with parent := dir, name := leaf }).nodes j).ino =
        (s.nodes j).ino := by
    intro j
    unfold setNode
    by_cases hj : j = src
    · rw [hj]
      simp only [update_self, and_self]
    · simp only [update_of_ne hj, and_self]
  exact ⟨h.shape.moveEntry hsrc0 hsrc hdir hisDir hbelow hname rfl fun _ _ => rfl,
    h.counts.moveEntry (fun j => (hnode j).1) (fun j => (hnode j).2) rfl rfl rfl⟩

theorem Shape.above_used (h : Shape s) {a b : Nat} (hab : Above s.up a b)
    (ha : (s.nodes a).used = true) : (s.nodes b).used = true := by
  revert ha
  refine hab.head_induction (p := fun a => (s.nodes a).used = true → (s.nodes b).used = true) id ?_
  intro a c hup _ ih ha
  obtain ⟨-, hpar⟩ := up_eq_some_iff.1 hup
  have ha0 : 0 < a := by
    rcases Nat.eq_zero_or_pos a with rfl | ha0
    · rw [h.root] at hpar
      have : (-1 : Int) = c := hpar
      omega
    · exact ha0
  obtain ⟨p, hp, hpused, -⟩ := h.parents a ha0 ha
  have : p = c := by omega
  exact ih (this ▸ hpused)

theorem climb_ne_of_isAncestor {src : Nat} :
    ∀ {fuel a : Nat}, s.isAncestor src fuel a = false → ∀ k < fuel, climb s.up k a ≠ some src := by
  intro fuel
  induction fuel with
  | zero => exact fun _ k hk => absurd hk (Nat.not_lt_zero k)
  | succ fuel ih =>
    intro a h k hk hclimb
    rw [isAncestor, Bool.or_eq_false_iff] at h
    cases k with
    | zero =>
      have : a = src := Option.some.inj hclimb
      simp [this] at h
    | succ k =>
      obtain ⟨p, hp, hrest⟩ := Option.bind_eq_some_iff.1 hclimb
      obtain ⟨-, hpar⟩ := up_eq_some_iff.1 hp
      rw [hpar, if_pos (by omega), Int.toNat_natCast] at h
      exact ih h.2 k (by omega) hrest

section
variable (h : Sound s)
include h

/-- The check of `tmpfs_rename` is complete: 1024 steps see every ancestor. -/
theorem Sound.not_above {src dir : Nat} (hdir : (s.nodes dir).used = true)
    (hcheck : s.isAncestor src tmpfsMaxNodes dir = false) : ¬ Above s.up dir src := by
  intro habove
  obtain ⟨k, hk, hclimb⟩ := habove.climb_lt
    fun x hx => h.shape.bound x (h.shape.above_used hx hdir)
  exact climb_ne_of_isAncestor hcheck k hk hclimb

theorem Sound.replace {src dst dir : Nat} {leaf : List UInt8} (hsrc0 : 0 < src)
    (hsrc : (s.nodes src).used = true) (hdir : (s.nodes dir).used = true)
    (hisDir : s.isDir dir = true) (hleaf : leaf.length < tmpfsMaxName)
    (hbelow : ¬ Above s.up dir src) (hdst : s.findChild dir leaf = some dst) (hne : dst ≠ src)
    (hempty : ∀ j, (s.nodes j).used = true → (s.nodes j).parent ≠ dst) :
    Sound ((s.dropNode dst).reparent src dir leaf) := by
  obtain ⟨hdst0, hdused, hdpar, hdname⟩ := findChild_some hdst
  have hdd : dir ≠ dst := by
    rintro rfl
    exact hempty dir hdused hdpar
  obtain ⟨hdrop, hnodes, hsame⟩ := h.dropNode hdst0 hdused hempty
  have hold : ∀ {j}, j ≠ dst → (s.dropNode dst).nodes j = s.nodes j :=
    fun hj => by rw [hnodes, update_of_ne hj]
  have hup : (s.dropNode dst).up = update s.up dst none := up_of_update hnodes
  refine hdrop.reparent hsrc0 (by rw [hold hne.symm, hsrc]) (by rw [hold hdd, hdir])
    (by rw [hsame dir hdd hdir, hisDir]) hleaf ?_ ?_
  · rw [hup]
    exact fun habove => hbelow habove.of_detach
  · intro j hj0 _ hj hpar hname
    by_cases hjd : j = dst
    · rw [hjd, hnodes, update_self] at hj
      cases hj
    · rw [hold hjd] at hj hpar hname
      exact hjd (h.shape.siblings j dst hj0 hdst0 hj hdused (by rw [hpar, hdpar])
        (by rw [hname, hdname]))

theorem Sound.no_children_of {i : Nat}
    (hi : ¬ (s.isDir i && s.hasChildren i) = true) (j : Nat) (hj : (s.nodes j).used = true) :
    (s.nodes j).parent ≠ i := by
  cases hdir : s.isDir i with
  | false => exact no_children_of_file h.shape hdir j hj
  | true =>
    rw [hdir, Bool.true_and, Bool.not_eq_true] at hi
    exact no_children h.shape hi j hj

theorem Sound.tmpfsRename (old new : List UInt8) : Sound (s.tmpfsRename old new).2 := by
  unfold Tables.tmpfsRename
  cases hold : s.lookupAny old with
  | error e => exact h
  | ok src =>
    have hsrc := h.lookupAny hold
    dsimp only
    split_ifs with hsrc0
    · exact h
    cases hparent : s.parentOf new with
    | error e => exact h
    | ok place =>
      obtain ⟨dir, leaf⟩ := place
      obtain ⟨hdir, hisDir, hleaf⟩ := h.parentOf hparent
      dsimp only
      split_ifs with hcheck
      · exact h
      have hbelow := h.not_above hdir (Bool.not_eq_true _ ▸ hcheck)
      cases hdst : s.findChild dir leaf with
      | none =>
        exact h.reparent (Nat.pos_of_ne_zero hsrc0) hsrc hdir hisDir hleaf hbelow
          fun j hj0 _ hj hp => findChild_none h.shape hdst j hj0 hj hp
      | some dst =>
        dsimp only
        split_ifs with hself _ _ _ hfull
        · exact h
        · exact h
        · exact h
        · exact h
        · exact h
        · exact h.replace (Nat.pos_of_ne_zero hsrc0) hsrc hdir hisDir hleaf hbelow hdst hself
            (h.no_children_of hfull)

theorem Sound.tmpfsRmdir (path : List UInt8) : Sound (s.tmpfsRmdir path).2 := by
  unfold Tables.tmpfsRmdir
  cases hfind : s.find path true with
  | error e => exact h
  | ok i =>
    dsimp only
    split_ifs with hi hfull
    · exact h
    · exact h
    · exact (h.dropNode (Nat.pos_of_ne_zero hi) (h.find hfind).1
        (no_children h.shape (Bool.not_eq_true _ ▸ hfull))).1

/-- An unlink that does not hit a directory with children. -/
theorem Sound.tmpfsUnlink {path : List UInt8}
    (hleaf : ∀ i, s.find path false = .ok i → s.hasChildren i = false) :
    Sound (s.tmpfsUnlink path).2 := by
  unfold Tables.tmpfsUnlink
  cases hfind : s.find path false with
  | ok i =>
    dsimp only
    split_ifs with hi
    · exact h
    · exact (h.dropNode (Nat.pos_of_ne_zero hi) (h.find hfind).1
        (no_children h.shape (hleaf _ hfind))).1
  | error e =>
    cases hdir : s.find path true with
    | error e' => exact h
    | ok i =>
      dsimp only
      split_ifs with hfull hi
      · exact h
      · exact h
      · exact (h.dropNode (Nat.pos_of_ne_zero hi) (h.find hdir).1
          (no_children h.shape (Bool.not_eq_true _ ▸ hfull))).1

/-! ### Links -/

theorem Sound.tmpfsSymlink (path target : List UInt8) (alloc : Bool) :
    Sound (s.tmpfsSymlink path target alloc).2 := by
  unfold Tables.tmpfsSymlink
  split
  · exact h
  split
  · exact h
  cases hparent : s.parentOf path with
  | error e => exact h
  | ok place =>
    obtain ⟨dir, leaf⟩ := place
    obtain ⟨hdir, hisDir, hshort⟩ := h.parentOf hparent
    dsimp only
    cases hchild : s.findChild dir leaf with
    | some i => exact h
    | none =>
      cases alloc with
      | false => exact h
      | true =>
        have hplace : Place s dir leaf := ⟨hdir, hisDir, hshort, hchild⟩
        unfold allocInode
        cases hfind : scan.find? fun i => !(s.inodes i).used with
        | none => exact h
        | some k =>
          obtain ⟨hk0, hk, hfree⟩ := freeInode_some hfind
          simp only [Option.isSome_none, Bool.false_eq_true, Bool.not_true, if_false, setInode_setInode,
            setInode_inodes_self]
          cases hadd : (s.setInode k _).addNode dir leaf k with
          | none =>
            show Sound ((s.setInode k _).putInode k)
            rw [h.putNew hk0 hk hfree rfl rfl rfl rfl]
            exact h
          | some added => exact (h.addNew hplace hk0 hk hfree rfl rfl rfl rfl hadd).1

/-- Only directories have the root's inode. -/
theorem Sound.ino_pos {i : Nat} (hi : ¬ s.isDir i = true) : 0 < (s.nodes i).ino := by
  refine Nat.pos_of_ne_zero fun h0 => hi ?_
  have hroot := h.shape.rootDir
  unfold isDir nodeInode at hroot ⊢
  rw [h.shape.root] at hroot
  rw [h0]
  exact hroot

theorem Sound.tmpfsLink (old new : List UInt8) : Sound (s.tmpfsLink old new).2 := by
  unfold Tables.tmpfsLink
  cases hold : s.lookupAny old with
  | error e => exact h
  | ok src =>
    have hsrc := h.lookupAny hold
    dsimp only
    split_ifs
    · exact h
    cases hparent : s.parentOf new with
    | error e => exact h
    | ok place =>
      obtain ⟨dir, leaf⟩ := place
      obtain ⟨hdir, hisDir, hshort⟩ := h.parentOf hparent
      dsimp only
      cases hchild : s.findChild dir leaf with
      | some i => exact h
      | none =>
        unfold addNode
        cases hnode : s.allocNode with
        | none => exact h
        | some i =>
          obtain ⟨hi0, hi, hifree⟩ := allocNode_some hnode
          obtain ⟨hk, hkused⟩ := h.counts.named src hsrc
          have hne : src ≠ i := by
            rintro rfl
            rw [hifree] at hsrc
            cases hsrc
          have hino : ((s.setNode i ⟨true, dir, (s.nodes src).ino, kstrncpy leaf tmpfsMaxName⟩).nodes
              src).ino = (s.nodes src).ino := congrArg Node.ino (update_of_ne hne _ _)
          simp only [hino, Option.isSome_none, Bool.false_eq_true, if_false]
          rw [kstrncpy_of_lt hshort]
          exact ⟨h.shape.addEntry hi0 hi hifree hdir hisDir
            (fun j hj0 hj hp => findChild_none h.shape hchild j hj0 hj hp) rfl (.update rfl rfl),
            h.counts.addEntry
              (n := { s.inodes (s.nodes src).ino with
                nlink := (s.inodes (s.nodes src).ino).nlink + 1 })
              hi hifree rfl (show (Node.mk true dir (s.nodes src).ino leaf).ino = _ from rfl)
              hk hkused rfl rfl rfl rfl rfl rfl rfl⟩

/-! ### Data and handles -/

/-- The data of an inode changed, and handles with it that stay on their inodes. -/
theorem Sound.data {k u : Nat} {n : Inode} {handles : List Handle}
    (hk : k < tmpfsMaxNodes) (hkused : (s.inodes k).used = true)
    (hstep : DataStep (s.inodes k) s.usedBytes n u)
    (hhandles : handles.map Handle.ino = s.handles.map Handle.ino) :
    Sound { s.setInode k n with usedBytes := u, handles := handles } := by
  have hcount : ∀ m, (handles.countP fun h => h.ino == m) = s.handles.countP fun h => h.ino == m := by
    intro m
    have := congrArg (countP (· == m)) hhandles
    rwa [countP_map, countP_map] at this
  refine ⟨h.shape.congr rfl (.update rfl hstep.mode), h.counts.setInode hk rfl (hstep.used.trans hkused)
    ?_ (fun m _ => hcount m) (.inl ⟨rfl, fun hk0 => ?_⟩) ?_
    (hstep.bytes (h.counts.allocated_le hk)) hstep.nlink rfl⟩
  · rw [hstep.opens, (h.counts.inode k hk).opens]
    exact (hcount k).symm
  · rw [hstep.nlink, hstep.opens]
    exact ((h.counts.inode k hk).freed hk0 (by omega)).1 hkused
  · intro hd hmem
    have hmem' : hd.ino ∈ s.handles.map Handle.ino := hhandles ▸ mem_map_of_mem hmem
    obtain ⟨hd', hin, heq⟩ := mem_map.1 hmem'
    rw [← heq]
    exact h.counts.handles hd' hin

end

theorem handleInode_some {hd : Handle} {n : Inode} (h : s.handleInode hd = some n) :
    hd.ino < tmpfsMaxNodes ∧ n = s.inodes hd.ino ∧ n.used = true := by
  unfold handleInode at h
  split_ifs at h with hbad
  cases h
  simp only [not_or, Bool.not_eq_true', Bool.not_eq_false] at hbad
  exact ⟨by omega, rfl, hbad.2.2⟩

section
variable (h : Sound s)
include h

/-- A data operation through a handle, which stays on its inode. -/
theorem Sound.onHandle (k : Nat) {f : Handle → Inode → Handle × Inode × Nat}
    (hf : ∀ hd n, (f hd n).1.ino = hd.ino ∧ DataStep n s.usedBytes (f hd n).2.1 (f hd n).2.2) :
    Sound (s.onHandle k f) := by
  unfold Tables.onHandle
  cases hget : s.handles[k]? with
  | none => exact h
  | some hd =>
    dsimp only
    cases hinode : s.handleInode hd with
    | none => exact h
    | some n =>
      obtain ⟨hk, rfl, hused⟩ := handleInode_some hinode
      refine h.data hk hused (hf hd _).2 ?_
      rw [map_set, (hf hd _).1]
      obtain ⟨hlt, heq⟩ := List.getElem?_eq_some_iff.1 hget
      rw [← heq]
      exact map_set ▸ congrArg (map Handle.ino) (set_getElem_self hlt)

theorem Sound.truncateInode {k : Nat} (hk : k < tmpfsMaxNodes)
    (hkused : (s.inodes k).used = true) : Sound (s.truncateInode k) :=
  h.data hk hkused ((tmpfsFreeData_step (s.inodes k) s.usedBytes).trans
    ⟨rfl, rfl, rfl, rfl, fun _ => rfl⟩) rfl

theorem Sound.addHandle {k : Nat} {hd : Handle} (hk0 : 0 < k)
    (hk : k < tmpfsMaxNodes) (hkused : (s.inodes k).used = true) (hino : hd.ino = k) :
    Sound { s.setInode k { s.inodes k with opens := (s.inodes k).opens + 1 } with
      handles := s.handles ++ [hd] } := by
  refine ⟨h.shape.congr rfl (.update rfl rfl), h.counts.setInode
    (n := { s.inodes k with opens := (s.inodes k).opens + 1 }) hk rfl hkused ?_
    (fun m hm => ?_) (.inl ⟨rfl, fun _ => .inr (Nat.succ_pos _)⟩) ?_ rfl rfl rfl⟩
  · show (s.inodes k).opens + 1 = (s.handles ++ [hd]).countP _
    rw [countP_append, (h.counts.inode k hk).opens]
    simp [hino]
  · show (s.handles ++ [hd]).countP _ = _
    simp [hino, Ne.symm hm]
  · intro hd' hmem
    rcases mem_append.1 hmem with hmem | hmem
    · exact h.counts.handles hd' hmem
    · rw [mem_singleton.1 hmem, hino]
      exact ⟨hk0, hk⟩

theorem Sound.openInode {k : Nat} (hk0 : 0 < k) (hk : k < tmpfsMaxNodes)
    (hkused : (s.inodes k).used = true) (flags : UInt32) (alloc : Bool) :
    Sound (s.openInode k flags alloc).2 := by
  unfold Tables.openInode
  dsimp only
  -- the tables after the cut, if there is one
  have hcut : Sound (if Handle.has ⟨k, 0, flags⟩ vfsOTrunc then s.truncateInode k else s) ∧
      ((if Handle.has ⟨k, 0, flags⟩ vfsOTrunc then s.truncateInode k else s).inodes k).used =
        true := by
    split_ifs
    · refine ⟨h.truncateInode hk hkused, ?_⟩
      show (update s.inodes k _ k).used = true
      rw [update_self]
      exact (tmpfsFreeData_step (s.inodes k) s.usedBytes).used.trans hkused
    · exact ⟨h, hkused⟩
  revert hcut
  generalize (if Handle.has ⟨k, 0, flags⟩ vfsOTrunc then s.truncateInode k else s) = s₁
  rintro ⟨hs₁, hused⟩
  split_ifs
  · exact hs₁
  · exact hs₁.addHandle hk0 hk hused (Handle.atWrite_ino _ _)

theorem Sound.tmpfsOpen (path : List UInt8) (flags : UInt32) (alloc : Bool) :
    Sound (s.tmpfsOpen path flags alloc).2 := by
  have hopen : ∀ r : Except Errno Nat × Tables, Sound r.2 →
      (∀ i, r.1 = .ok i → (r.2.nodes i).used = true) →
      Sound (openFound flags alloc r).2 := by
    rintro ⟨e | i, s'⟩ hs' hi
    · exact hs'
    · unfold openFound
      dsimp only
      split_ifs with hkind
      · exact hs'
      · have hdir : ¬ s'.isDir i = true := fun hd => hkind (by rw [hd, Bool.true_or])
        obtain ⟨hk, hused⟩ := hs'.counts.named i (hi i rfl)
        exact hs'.openInode (hs'.ino_pos hdir) hk hused flags alloc
  have hlook : ∀ createDirs createFile,
      Sound (s.lookup path createDirs createFile false).2 ∧
      ∀ i, (s.lookup path createDirs createFile false).1 = .ok i →
        ((s.lookup path createDirs createFile false).2.nodes i).used = true := fun cd cf =>
    ⟨(h.lookup path cd cf false).1, fun i hi => ((h.lookup path cd cf false).2 i hi).1⟩
  unfold Tables.tmpfsOpen
  dsimp only
  cases (s.lookup path false false false).1 with
  | ok i => exact hopen _ (hlook false false).1 (hlook false false).2
  | error e =>
    split_ifs
    · exact hopen _ (hlook true true).1 (hlook true true).2
    · exact hopen _ (hlook false false).1 (hlook false false).2

theorem Sound.tmpfsClose (k : Nat) : Sound (s.tmpfsClose k) := by
  unfold Tables.tmpfsClose
  cases hget : s.handles[k]? with
  | none => exact h
  | some hd =>
    obtain ⟨hlt, heq⟩ := List.getElem?_eq_some_iff.1 hget
    obtain ⟨hd0, hdlt⟩ := h.counts.handles hd (heq ▸ getElem_mem hlt)
    -- the handles of an inode are this one and the ones left
    have hcount : ∀ m, (s.handles.countP fun h => h.ino == m) =
        ((s.handles.eraseIdx k).countP fun h => h.ino == m) + if hd.ino = m then 1 else 0 := by
      intro m
      rw [← (getElem_cons_eraseIdx_perm hlt).countP_eq, countP_cons, heq]
      simp only [beq_iff_eq]
    have hopens := (h.counts.inode hd.ino hdlt).opens
    rw [hcount, if_pos rfl] at hopens
    have hused : (s.inodes hd.ino).used = true :=
      ((h.counts.inode hd.ino hdlt).freed hd0 (by omega)).2 (.inr (by omega))
    have hinode : s.handleInode hd = some (s.inodes hd.ino) := by
      unfold handleInode
      rw [if_neg (by simp [hused]; omega)]
    dsimp only
    rw [hinode]
    let s₁ : Tables := { s.setInode hd.ino
        { s.inodes hd.ino with opens := (s.inodes hd.ino).opens - 1 } with
      handles := s.handles.eraseIdx k }
    have hcounts : Counts hd.ino s₁ := by
      refine h.counts.setInode
        (n := { s.inodes hd.ino with opens := (s.inodes hd.ino).opens - 1 }) hdlt rfl hused
        ?_ (fun m hm => ?_) (.inr rfl) ?_ rfl rfl rfl
      · show (s.inodes hd.ino).opens - 1 = (s.handles.eraseIdx k).countP _
        omega
      · show (s.handles.eraseIdx k).countP _ = _
        rw [hcount m, if_neg (Ne.symm hm), Nat.add_zero]
      · exact fun hd' hmem => h.counts.handles hd' (mem_of_mem_eraseIdx hmem)
    obtain ⟨hput, hnodes, hmode⟩ := hcounts.putInode hdlt
    have hshape : Shape s₁ := h.shape.congr rfl (.update rfl rfl)
    exact ⟨hshape.congr hnodes hmode, hput⟩

theorem Sound.truncate (limit : Nat) (path : List UInt8) (len : UInt64)
    (mem : Memory) : Sound (s.truncate limit path len mem) := by
  unfold Tables.truncate
  cases hfind : s.find path false with
  | error e => exact h
  | ok i =>
    dsimp only
    split_ifs
    · exact h
    · obtain ⟨hk, hused⟩ := h.counts.named i (h.find hfind).1
      exact h.data hk hused (tmpfsSetLen_step limit mem _ _ _) rfl

end

/-! ### Runs -/

/-- An unlink hits no directory with children; the other calls are free. -/
def unlinksLeaf (s : Tables) : Op → Prop
  | .unlink path => ∀ i, s.find path false = .ok i → s.hasChildren i = false
  | _ => True

theorem Sound.step (h : Sound s) (limit : Nat) {op : Op} (hop : s.unlinksLeaf op) :
    Sound (s.step limit op) := by
  cases op with
  | create path => exact (h.lookup path true true false).1
  | mkdir path => exact (h.lookup path true false true).1
  | symlink path target alloc => exact h.tmpfsSymlink path target alloc
  | link old new => exact h.tmpfsLink old new
  | unlink path => exact h.tmpfsUnlink hop
  | rmdir path => exact h.tmpfsRmdir path
  | rename old new => exact h.tmpfsRename old new
  | «open» path flags alloc => exact h.tmpfsOpen path flags alloc
  | close k => exact h.tmpfsClose k
  | write k buf size mem =>
    exact h.onHandle k fun hd n =>
      ⟨tmpfsWrite_ino limit mem n s.usedBytes hd buf size.toNat, tmpfsWrite_step limit mem n _ hd buf _⟩
  | ftruncate k len mem => exact h.onHandle k fun hd n => ⟨rfl, tmpfsSetLen_step limit mem n _ _⟩
  | truncate path len mem => exact h.truncate limit path len mem

theorem sound_initRoot : Sound initRoot := by
  have hnode : ∀ i, (initRoot.nodes i).used = true → i = 0 := by
    intro i hi
    by_contra hne
    simp [initRoot, update_of_ne hne, Node.zero] at hi
  have hinode : ∀ k, k ≠ 0 → initRoot.inodes k = Inode.zero := by
    intro k hk
    simp [initRoot, update_of_ne hk]
  refine ⟨⟨rfl, by decide, ?_, ?_, ?_, ?_⟩, ⟨?_, ?_, rfl, rfl, ?_, nofun, ?_⟩⟩
  · intro i hi
    rw [hnode i hi]
    decide
  · intro i hi0 hi
    have := hnode i hi
    omega
  · intro i hi
    rw [hnode i hi]
    exact .refl _ _
  · intro i j hi0 _ hi
    have := hnode i hi
    omega
  · intro i hi
    rw [hnode i hi]
    decide
  · intro i hi
    rw [hnode i hi]
    decide
  · intro k hk
    by_cases hk0 : k = 0
    · subst hk0
      refine ⟨?_, rfl, fun h0 => absurd h0 (by omega), fun hu => nomatch hu⟩
      have hone := total_names_update hk 0 (fun _ => Node.zero) ⟨true, -1, 0, []⟩
      have hnone : total tmpfsMaxNodes (names 0) (fun _ => Node.zero) = 0 :=
        total_eq_zero_iff.2 fun _ _ => rfl
      rw [hnone, show names 0 Node.zero = 0 from rfl, Nat.add_zero, Nat.zero_add] at hone
      show 1 = total tmpfsMaxNodes (names 0) (update (fun _ => Node.zero) 0 _)
      rw [hone]
      rfl
    · refine ⟨?_, ?_, fun _ _ => ?_, fun _ => hinode k hk0⟩
      · have hnone : total tmpfsMaxNodes (names k) initRoot.nodes = 0 := by
          refine total_eq_zero_iff.2 fun i _ => if_neg ?_
          rintro ⟨hi, hik⟩
          rw [hnode i hi] at hik
          exact hk0 hik.symm
        rw [hinode k hk0, hnone]
        rfl
      · rw [hinode k hk0]
        rfl
      · rw [hinode k hk0]
        decide
  · refine (Nat.mul_eq_zero.2 (.inr (total_eq_zero_iff.2 fun i _ => ?_))).symm
    by_cases hi : i = 0
    · subst hi
      exact total_none 0
    · rw [hinode i hi]
      exact total_none 0

/-- `i` is the root, or its parent chain reaches the root through directories in use. -/
inductive InTree (s : Tables) : Nat → Prop
  | root : InTree s 0
  | child {i p : Nat} (hp : (s.nodes i).parent = p) (hused : (s.nodes p).used = true)
      (hdir : s.isDir p = true) (hreach : InTree s p) : InTree s i

/-- The tables are a tree of directories, and links, handles and bytes are counted right. -/
structure Intact (s : Tables) : Prop where
  root : (s.nodes 0).used = true ∧ s.isDir 0 = true
  tree : ∀ i, (s.nodes i).used = true → InTree s i
  siblings : ∀ i j, 0 < i → 0 < j → (s.nodes i).used = true → (s.nodes j).used = true →
    (s.nodes i).parent = (s.nodes j).parent → (s.nodes i).name = (s.nodes j).name → i = j
  links : ∀ k < tmpfsMaxNodes, (s.inodes k).nlink = total tmpfsMaxNodes (names k) s.nodes
  opens : ∀ k < tmpfsMaxNodes, (s.inodes k).opens = s.handles.countP fun h => h.ino == k
  freed : ∀ k < tmpfsMaxNodes, 0 < k →
    ((s.inodes k).used = false ↔ (s.inodes k).nlink = 0 ∧ (s.inodes k).opens = 0)
  bytes : s.usedBytes = tmpfsChunk * total tmpfsMaxNodes Inode.allocated s.inodes

theorem Shape.inTree (h : Shape s) {i : Nat} (hi : (s.nodes i).used = true) : InTree s i := by
  refine (h.reaches i hi).head_induction (p := InTree s) .root fun a b hup _ ih => ?_
  obtain ⟨hused, hpar⟩ := up_eq_some_iff.1 hup
  rcases Nat.eq_zero_or_pos a with rfl | ha0
  · exact .root
  · obtain ⟨p, hp, hpused, hpdir⟩ := h.parents a ha0 hused
    have hpb : p = b := by omega
    subst hpb
    exact .child hp hpused hpdir ih

theorem Sound.intact (h : Sound s) : Intact s where
  root := h.root
  tree _ hi := h.shape.inTree hi
  siblings := h.shape.siblings
  links k hk := (h.counts.inode k hk).links
  opens k hk := (h.counts.inode k hk).opens
  freed k hk hk0 := by
    have := (h.counts.inode k hk).freed hk0 (by omega)
    rw [← Bool.not_eq_true, this]
    omega
  bytes := h.counts.bytes

/-- **The tmpfs tables are intact in every state of a run in which no unlink hits a
directory with children.** -/
theorem tmpfs_tree_sound (limit : Nat) (ops : List Op)
    (h : Along (step limit) unlinksLeaf initRoot ops) : Intact (run limit initRoot ops) := by
  have hstep : ∀ s op, Sound s → unlinksLeaf s op → Sound (step limit s op) :=
    fun _ _ hs hop => hs.step limit hop
  exact (Along.keeps hstep sound_initRoot h).intact

instance (s : Tables) (op : Op) : Decidable (s.unlinksLeaf op) :=
  match op with
  | .unlink path =>
    match h : s.find path false with
    | .ok i => decidable_of_iff (s.hasChildren i = false)
        ⟨fun hi j hj => by rw [h] at hj; cases hj; exact hi, fun hi => hi i h⟩
    | .error _ => isTrue fun i hi => by rw [h] at hi; cases hi
  | .create _ | .mkdir _ | .symlink _ _ _ | .link _ _ | .rmdir _ | .rename _ _ | .open _ _ _
  | .close _ | .write _ _ _ _ | .ftruncate _ _ _ | .truncate _ _ _ => isTrue trivial

/-- A file made in a directory, linked and renamed; the directory emptied and removed. -/
theorem tmpfs_tree_sound_emptied :
    Along (step 1) unlinksLeaf initRoot
      [.mkdir [100], .create [100, 47, 102], .link [100, 47, 102] [103], .rename [103] [104],
        .unlink [100, 47, 102], .unlink [100]] ∧
    Intact (run 1 initRoot
      [.mkdir [100], .create [100, 47, 102], .link [100, 47, 102] [103], .rename [103] [104],
        .unlink [100, 47, 102], .unlink [100]]) :=
  ⟨by decide +kernel, tmpfs_tree_sound 1 _ (by decide +kernel)⟩

/-- A node whose parent is not in use is not in the tree. -/
theorem not_intact_of_orphan {i p : Nat} (hi : (s.nodes i).used = true)
    (hp : (s.nodes i).parent = p) (hfree : (s.nodes p).used = false) (hi0 : i ≠ 0) :
    ¬ Intact s := by
  intro h
  cases h.tree i hi with
  | root => exact hi0 rfl
  | @child _ q hq hused =>
    have hqp : q = p := by omega
    rw [hqp, hfree] at hused
    cases hused

/-- `mkdir d`, `create d/f`, `unlink d`: the file's parent is no longer in use. -/
theorem unlink_orphans :
    ¬ Intact (run 1 initRoot [.mkdir [100], .create [100, 47, 102], .unlink [100]]) :=
  not_intact_of_orphan (i := 2) (p := 1) (by decide +kernel) (by decide +kernel)
    (by decide +kernel) (by decide)

end Tables

end InDevOS.Tmpfs
