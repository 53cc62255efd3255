import InDevOS.Lib.Keyed
import InDevOS.Lib.Steps

/-! The permission table (`users.c`).

Owner and mode of a file are kept by its path, in a table of 256 entries with 256 bytes for
each path. The reference is a map from paths. A path too long for an entry is cut when it is
set, so that it is not found again and another path may be found in its place; a rename
drops the entries that would become too long, and all entries that lie under both of its
paths, which for a rename of a path to itself is all of them (`permissions_lost`). While no
call does any of this, the table is the map (`permissions_refine`).

Paths are byte strings without the terminating zero. -/
namespace InDevOS.Users
open Lib List

def maxPermEntries : Nat := 256

/-- `sizeof(perms[i].path)` -/
def permPathSize : Nat := 256

def slash : UInt8 := 47

abbrev Path := List UInt8

/-- `uid`, `gid` and `mode` of an entry. -/
structure Owner where
  uid : UInt32
  gid : UInt32
  mode : UInt16
deriving DecidableEq

/-- `perm_entry_t` -/
structure PermEntry where
  path : Path
  owner : Owner
  active : Bool

abbrev Perms := Nat → PermEntry

def slots : List Nat := List.range maxPermEntries

/-! ### The code -/

namespace Perms

section
variable (t : Perms) (path : Path)

/-- `perm_find` -/
def permFind : Option Nat :=
  slots.find? fun i => (t i).active && (t i).path == path

/-- `perm_set` -/
def permSet (owner : Owner) : Int × Perms :=
  match t.permFind path with
  | some i => (0, Function.update t i { t i with owner := owner })
  | none =>
    match slots.find? fun i => !(t i).active with
    | some i => (0, Function.update t i ⟨path.take (permPathSize - 1), owner, true⟩)
    | none => (-1, t)

/-- `perm_get`; without an entry the caller gets the defaults. -/
def permGet : Option Owner := (t.permFind path).map fun i => (t i).owner

/-- `perm_remove` -/
def permRemove : Int × Perms :=
  match t.permFind path with
  | some i => (0, Function.update t i { t i with active := false })
  | none => (-1, t)

end

end Perms

/-- The test for `path` and its subtree: the first bytes agree, and then comes the end or a
slash. -/
def within (path entry : Path) : Bool :=
  path.isPrefixOf entry &&
    match (entry.drop path.length).head? with
    | none => true
    | some b => b == slash

namespace Perms

/-- `perm_forget_tree` -/
def permForgetTree (t : Perms) (path : Path) : Perms :=
  if path = [] then t
  else fun i =>
    if (t i).active && within path (t i).path then { t i with active := false } else t i

/-- What `perm_rename_tree` makes of an entry. -/
def renameEntry (src dst : Path) (e : PermEntry) : PermEntry :=
  if e.active && within src e.path then
    if permPathSize ≤ dst.length + (e.path.drop src.length).length then { e with active := false }
    else { e with path := dst ++ e.path.drop src.length }
  else e

/-- `perm_rename_tree` -/
def permRenameTree (t : Perms) (src dst : Path) : Perms :=
  if src = [] ∨ dst = [] then t
  else fun i => renameEntry src dst (t.permForgetTree dst i)

end Perms

def uidRoot : UInt32 := 0

/-- `PERM_DEFAULT_FILE`, owned by root. -/
def defaultOwner : Owner := ⟨uidRoot, 0, 0o644⟩

/-- `ACCESS_READ`, `ACCESS_WRITE` and `ACCESS_EXEC`, by three bits of the mode. -/
def grant (mode r w x : UInt16) : UInt16 :=
  (if mode &&& r ≠ 0 then 4 else 0) ||| (if mode &&& w ≠ 0 then 2 else 0) ||| if mode &&& x ≠ 0 then 1 else 0

/-- What the class that the caller is in may do. -/
def granted (o : Owner) (uid gid : UInt32) (member : UInt32 → UInt32 → Bool) : UInt16 :=
  if uid = o.uid then grant o.mode 0o400 0o200 0o100
  else if gid = o.gid ∨ member o.gid uid then grant o.mode 0o040 0o020 0o010
  else grant o.mode 0o004 0o002 0o001

/-- The decision of `perm_check_access`, from the owner and mode that `perm_get` gives. -/
def accessAllowed (o : Option Owner) (uid gid : UInt32) (member : UInt32 → UInt32 → Bool) (mode : UInt16) : Bool :=
  uid == uidRoot || granted (o.getD defaultOwner) uid gid member &&& mode == mode

/-- `perm_check_access`; `member` is `group_is_member`. -/
def Perms.permCheckAccess (t : Perms) (path : Path) (uid gid : UInt32) (member : UInt32 → UInt32 → Bool)
    (mode : UInt16) : Bool := accessAllowed (t.permGet path) uid gid member mode

/-! ### The reference -/

/-- A path without the slashes at its end. -/
def trim (p : Path) : Path := p.rdropWhile (· == slash)

/-- The rest of a path in the tree of `p`: nothing for `p` itself, a slash and more below it. -/
def tail (p q : Path) : Option Path :=
  if q = p then some []
  else if (trim p ++ [slash]).isPrefixOf q then some (q.drop (trim p).length)
  else none

/-- The path in the tree of `p` with this rest. -/
def graft (p r : Path) : Path := if r = [] then p else trim p ++ r

/-- Owner and mode by path. -/
abbrev Map := Path → Option Owner

namespace Map

def set (m : Map) (path : Path) (owner : Owner) : Map := Function.update m path (some owner)

def remove (m : Map) (path : Path) : Map := Function.update m path none

def forgetTree (m : Map) (path : Path) : Map := fun q => if (tail path q).isSome then none else m q

/-- The tree of `src` takes the place of the tree of `dst`. -/
def renameTree (m : Map) (src dst : Path) : Map := fun q =>
  match tail dst q with
  | some r => m (graft src r)
  | none => if (tail src q).isSome then none else m q

end Map

/-! ### Calls -/

inductive Call
  | set (path : Path) (owner : Owner)
  | remove (path : Path)
  | forgetTree (path : Path)
  | renameTree (src dst : Path)

/-- The result of a call, and the table after it. -/
def Perms.call (t : Perms) : Call → Int × Perms
  | .set path owner => t.permSet path owner
  | .remove path => t.permRemove path
  | .forgetTree path => (0, t.permForgetTree path)
  | .renameTree src dst => (0, t.permRenameTree src dst)

def Map.call (m : Map) : Call → Map
  | .set path owner => m.set path owner
  | .remove path => m.remove path
  | .forgetTree path => m.forgetTree path
  | .renameTree src dst => m.renameTree src dst

/-- The table, and the map that follows the calls that succeed. -/
structure Both where
  table : Perms
  map : Map

def Both.step (b : Both) (c : Call) : Both :=
  let r := b.table.call c
  ⟨r.2, if r.1 = 0 then b.map.call c else b.map⟩

def Both.run (b : Both) (cs : List Call) : Both := cs.foldl Both.step b

/-- The table is zeroed. -/
def Both.init : Both := ⟨fun _ => ⟨[], ⟨0, 0, 0⟩, false⟩, fun _ => none⟩

/-! ### Paths -/

theorem within_iff {p q : Path} : within p q = true ↔ ∃ r, q = p ++ r ∧ (r = [] ∨ r.head? = some slash) := by
  unfold within
  rw [Bool.and_eq_true, isPrefixOf_iff_prefix]
  constructor
  · rintro ⟨⟨r, rfl⟩, h⟩
    rw [drop_left] at h
    refine ⟨r, rfl, ?_⟩
    cases r with
    | nil => exact .inl rfl
    | cons b r => exact .inr (congrArg some (beq_iff_eq.1 h))
  · rintro ⟨r, rfl, hr⟩
    refine ⟨prefix_append p r, ?_⟩
    obtain rfl | hr := hr
    · simp
    · simp [hr]

theorem trim_eq {p : Path} (h : p.getLast? ≠ some slash) : trim p = p := by
  refine rdropWhile_eq_self_iff.2 fun hne hlast => h ?_
  rw [getLast?_eq_some_getLast hne, beq_iff_eq.1 hlast]

/-- For a path without a slash at its end the reference's trees are those of the code. -/
theorem tail_eq {p q : Path} (h : p.getLast? ≠ some slash) :
    tail p q = if within p q then some (q.drop p.length) else none := by
  unfold tail
  rw [trim_eq h]
  by_cases hq : q = p
  · subst hq
    rw [if_pos rfl, if_pos (within_iff.2 ⟨[], (append_nil q).symm, .inl rfl⟩), drop_length]
  · rw [if_neg hq]
    have hiff : (p ++ [slash]).isPrefixOf q = true ↔ within p q = true := by
      rw [ isPrefixOf_iff_prefix, within_iff]
      constructor
      · rintro ⟨r, rfl⟩
        exact ⟨slash :: r, by rw [append_assoc]; rfl, .inr rfl⟩
      · rintro ⟨r, rfl, rfl | hr⟩
        · exact absurd (append_nil p) hq
        · obtain ⟨r', rfl⟩ := head?_eq_some_iff.1 hr
          exact ⟨r', by rw [append_assoc]; rfl⟩
    exact if_congr hiff rfl rfl

theorem graft_eq {p : Path} (h : p.getLast? ≠ some slash) (r : Path) : graft p r = p ++ r := by
  unfold graft
  rw [trim_eq h]
  split_ifs with hr
  · rw [hr, append_nil]
  · rfl

/-! ### The table as a map -/

/-- The path of an entry in use. -/
def key (e : PermEntry) : Option Path := if e.active then some e.path else none

theorem key_eq_some {e : PermEntry} {q : Path} : key e = some q ↔ e.active = true ∧ e.path = q := by
  unfold key
  cases e.active <;> simp

theorem key_eq_none {e : PermEntry} : key e = none ↔ e.active = false := by
  unfold key
  cases e.active <;> simp

namespace Perms

theorem permFind_eq (t : Perms) (path : Path) : t.permFind path = Keyed.slotOf key maxPermEntries t path := by
  unfold permFind Keyed.slotOf slots
  congr 1
  funext i
  rw [Bool.eq_iff_iff, Bool.and_eq_true, beq_iff_eq, decide_eq_true_iff, key_eq_some]

theorem permGet_eq (t : Perms) (path : Path) :
    t.permGet path = Keyed.view key maxPermEntries PermEntry.owner t path := by
  unfold permGet Keyed.view
  rw [permFind_eq]

/-- No path has two entries. -/
def Distinct (t : Perms) : Prop := Keyed.Distinct key maxPermEntries t

theorem Distinct.get_iff {t : Perms} (hd : t.Distinct) {path : Path} {o : Owner} :
    t.permGet path = some o ↔ ∃ i < maxPermEntries, key (t i) = some path ∧ (t i).owner = o := by
  rw [permGet_eq]
  exact Keyed.Distinct.view_iff hd

variable {t : Perms}

/-- An entry is rewritten that has no path but this one, before and after. -/
theorem Distinct.update (hd : t.Distinct) {i : Nat} (hi : i < maxPermEntries) {e : PermEntry} {path : Path}
    (he : key e = none ∨ key e = some path) (hrow : key (t i) = none ∨ key (t i) = some path)
    (hother : ∀ j < maxPermEntries, key (t j) = some path → j = i) :
    Distinct (Function.update t i e) ∧ permGet (Function.update t i e) =
      Function.update t.permGet path ((key e).map fun _ => e.owner) := by
  have hget : ∀ t : Perms, t.permGet = Keyed.view key maxPermEntries PermEntry.owner t :=
    fun t => funext t.permGet_eq
  rw [hget, hget]
  exact Keyed.Distinct.view_update hd hi he hrow hother PermEntry.owner

/-- `perm_set` fails and changes nothing, or sets the path as it is stored. -/
theorem Distinct.set (hd : t.Distinct) {path : Path} (hlen : path.length < permPathSize) (owner : Owner) :
    (t.permSet path owner = (-1, t)) ∨
    (t.permSet path owner).1 = 0 ∧ (t.permSet path owner).2.Distinct ∧
      (t.permSet path owner).2.permGet = Map.set t.permGet path owner := by
  unfold permSet
  rw [permFind_eq]
  cases hslot : Keyed.slotOf key maxPermEntries t path with
  | some i =>
    obtain ⟨hi, hkey⟩ := Keyed.slotOf_some hslot
    have hnew : key { t i with owner := owner } = some path := by
      exact hkey
    have hset := hd.update hi (.inr hnew) (.inr hkey) fun j hj hj' => hd j hj i hi path hj' hkey
    rw [hnew] at hset
    exact .inr ⟨rfl, hset⟩
  | none =>
    have hfree := Keyed.slotOf_none.1 hslot
    cases hfind : slots.find? fun i => !(t i).active with
    | some i =>
      have hi : i < maxPermEntries := mem_range.1 (mem_of_find?_eq_some hfind)
      have hinactive := find?_some hfind
      rw [Bool.not_eq_true'] at hinactive
      have htake : path.take (permPathSize - 1) = path := take_of_length_le (by omega)
      have hnew : key ⟨path.take (permPathSize - 1), owner, true⟩ = some path := by
        rw [key_eq_some]
        exact ⟨rfl, htake⟩
      have hset := hd.update hi (.inr hnew) (.inl (key_eq_none.2 hinactive)) fun j hj hj' => absurd hj' (hfree j hj)
      exact .inr ⟨rfl, hset⟩
    | none => exact .inl rfl

theorem Distinct.remove (hd : t.Distinct) (path : Path) :
    (t.permRemove path = (-1, t)) ∨
    (t.permRemove path).1 = 0 ∧ (t.permRemove path).2.Distinct ∧
      (t.permRemove path).2.permGet = Map.remove t.permGet path := by
  unfold permRemove
  rw [permFind_eq]
  cases hslot : Keyed.slotOf key maxPermEntries t path with
  | some i =>
    obtain ⟨hi, hkey⟩ := Keyed.slotOf_some hslot
    have hnew : key { t i with active := false } = none := key_eq_none.2 rfl
    have hset := hd.update hi (.inl hnew) (.inr hkey) fun j hj hj' => hd j hj i hi path hj' hkey
    exact .inr ⟨rfl, hset⟩
  | none => exact .inl rfl

/-! ### Trees -/

theorem forget_key {path : Path} (hne : path ≠ []) (i : Nat) (q : Path) :
    key (t.permForgetTree path i) = some q ↔ key (t i) = some q ∧ within path q = false := by
  rw [permForgetTree, if_neg hne, key_eq_some, key_eq_some]
  split_ifs with h
  · rw [Bool.and_eq_true] at h
    refine iff_of_false (by simp) ?_
    rintro ⟨⟨-, rfl⟩, hnot⟩
    simp [h.2] at hnot
  · rw [Bool.and_eq_true, not_and, Bool.not_eq_true] at h
    exact ⟨fun h' => ⟨h', h'.2 ▸ h h'.1⟩, And.left⟩

theorem forget_owner (path : Path) (i : Nat) : (t.permForgetTree path i).owner = (t i).owner := by
  unfold permForgetTree
  split
  · rfl
  · dsimp only
    split <;> rfl

theorem Distinct.forgetTree (hd : t.Distinct) {path : Path} (hne : path ≠ []) :
    (t.permForgetTree path).Distinct := by
  intro i hi j hj q hqi hqj
  rw [forget_key hne] at hqi hqj
  exact hd i hi j hj q hqi.1 hqj.1

theorem Distinct.get_forgetTree (hd : t.Distinct) {path : Path} (hne : path ≠ [])
    (hlast : path.getLast? ≠ some slash) : (t.permForgetTree path).permGet = Map.forgetTree t.permGet path := by
  funext q
  refine Option.ext fun o => ?_
  simp only [(hd.forgetTree hne).get_iff, Map.forgetTree, tail_eq hlast, forget_key hne, forget_owner]
  cases within path q with
  | true => simp
  | false => simp [hd.get_iff]

/-- What may follow the path of a tree in an entry. -/
def Rest (r : Path) : Prop := r = [] ∨ r.head? = some slash

theorem renameEntry_key (src dst : Path) (e : PermEntry) (q : Path) :
    key (renameEntry src dst e) = some q ↔
      (∃ r, key e = some (src ++ r) ∧ Rest r ∧ dst.length + r.length < permPathSize ∧ q = dst ++ r) ∨
      key e = some q ∧ within src q = false := by
  have hmoved : ∀ {r}, Rest r → within src (src ++ r) = true := fun hr => within_iff.2 ⟨_, rfl, hr⟩
  unfold renameEntry
  rw [key_eq_some (e := e)]
  by_cases h : (e.active && within src e.path) = true
  · rw [if_pos h]
    rw [Bool.and_eq_true] at h
    obtain ⟨hactive, hwithin⟩ := h
    obtain ⟨r, hpath, hr⟩ := within_iff.1 hwithin
    rw [hpath, drop_left]
    have hkey : key e = some (src ++ r) := key_eq_some.2 ⟨hactive, hpath⟩
    have hnot : ¬((e.active = true ∧ src ++ r = q) ∧ within src q = false) := by
      rintro ⟨⟨-, rfl⟩, h⟩
      simp [hmoved hr] at h
    by_cases hlong : permPathSize ≤ dst.length + r.length
    · rw [if_pos hlong]
      refine iff_of_false (by simp [key]) ?_
      rintro (⟨r', hkey', -, hlen, -⟩ | h)
      · obtain rfl := append_cancel_left (Option.some.inj (hkey.symm.trans hkey'))
        omega
      · exact absurd h hnot
    · rw [if_neg hlong, key_eq_some]
      constructor
      · rintro ⟨-, rfl⟩
        exact .inl ⟨r, hkey, hr, by omega, rfl⟩
      · rintro (⟨r', hkey', -, -, rfl⟩ | h)
        · obtain rfl := append_cancel_left (Option.some.inj (hkey.symm.trans hkey'))
          exact ⟨hactive, rfl⟩
        · exact absurd h hnot
  · rw [if_neg h, key_eq_some]
    rw [Bool.and_eq_true, not_and, Bool.not_eq_true] at h
    constructor
    · rintro ⟨hactive, rfl⟩
      exact .inr ⟨⟨hactive, rfl⟩, h hactive⟩
    · rintro (⟨r, hkey, hr, -⟩ | h')
      · obtain ⟨hactive, hpath⟩ := key_eq_some.1 hkey
        simpa [hpath, hmoved hr] using h hactive
      · exact h'.1

theorem renameEntry_owner (src dst : Path) (e : PermEntry) : (renameEntry src dst e).owner = e.owner := by
  unfold renameEntry
  split_ifs <;> rfl

section Rename
variable {src dst : Path} (hsrc : src ≠ []) (hdst : dst ≠ [])
include hsrc hdst

/-- The entries after a rename: those moved, and those in neither tree. -/
theorem rename_key (i : Nat) (q : Path) :
    key (t.permRenameTree src dst i) = some q ↔
      (∃ r, key (t i) = some (src ++ r) ∧ Rest r ∧ within dst (src ++ r) = false ∧
        dst.length + r.length < permPathSize ∧ q = dst ++ r) ∨
      key (t i) = some q ∧ within dst q = false ∧ within src q = false := by
  unfold permRenameTree
  rw [if_neg (not_or.2 ⟨hsrc, hdst⟩), renameEntry_key, forget_key hdst]
  constructor
  · rintro (⟨r, hkey, hr, hlen, rfl⟩ | ⟨⟨hkey, hd⟩, hs⟩)
    · rw [forget_key hdst] at hkey
      exact .inl ⟨r, hkey.1, hr, hkey.2, hlen, rfl⟩
    · exact .inr ⟨hkey, hd, hs⟩
  · rintro (⟨r, hkey, hr, hd, hlen, rfl⟩ | ⟨hkey, hd, hs⟩)
    · exact .inl ⟨r, (forget_key hdst i _).2 ⟨hkey, hd⟩, hr, hlen, rfl⟩
    · exact .inr ⟨⟨hkey, hd⟩, hs⟩

theorem rename_owner (i : Nat) : (t.permRenameTree src dst i).owner = (t i).owner := by
  unfold permRenameTree
  rw [if_neg (not_or.2 ⟨hsrc, hdst⟩), renameEntry_owner, forget_owner]

theorem Distinct.renameTree (hd : t.Distinct) : (t.permRenameTree src dst).Distinct := by
  intro i hi j hj q hqi hqj
  rw [rename_key hsrc hdst] at hqi hqj
  obtain ⟨r, hkey, hr, -, -, rfl⟩ | ⟨hkey, hnot, -⟩ := hqi
  · obtain ⟨r', hkey', -, -, -, heq⟩ | ⟨-, hnot', -⟩ := hqj
    · obtain rfl := append_cancel_left heq
      exact hd i hi j hj _ hkey hkey'
    · simp [within_iff.2 ⟨r, rfl, hr⟩] at hnot'
  · obtain ⟨r', -, hr', -, -, rfl⟩ | ⟨hkey', -, -⟩ := hqj
    · simp [within_iff.2 ⟨r', rfl, hr'⟩] at hnot
    · exact hd i hi j hj q hkey hkey'

/-- A rename moves the tree if nothing in it gets too long or lies under both paths. -/
theorem Distinct.get_renameTree (hd : t.Distinct) (hls : src.getLast? ≠ some slash) (hld : dst.getLast? ≠ some slash)
    (hfits : ∀ i < maxPermEntries, (t i).active = true → within src (t i).path = true →
      dst.length + ((t i).path.drop src.length).length < permPathSize ∧ within dst (t i).path = false) :
    (t.permRenameTree src dst).permGet = Map.renameTree t.permGet src dst := by
  funext q
  refine Option.ext fun o => ?_
  simp only [(hd.renameTree hsrc hdst).get_iff, Map.renameTree, tail_eq hld, tail_eq hls,
    rename_key hsrc hdst, rename_owner hsrc hdst]
  cases hwd : within dst q with
  | true =>
    obtain ⟨r, rfl, hr⟩ := within_iff.1 hwd
    show _ ↔ t.permGet (graft src ((dst ++ r).drop dst.length)) = some o
    rw [drop_left, graft_eq hls, hd.get_iff]
    constructor
    · rintro ⟨i, hi, ⟨r', hkey, -, -, -, heq⟩ | ⟨-, hnot, -⟩, hown⟩
      · obtain rfl := append_cancel_left heq
        exact ⟨i, hi, hkey, hown⟩
      · cases hnot
    · rintro ⟨i, hi, hkey, hown⟩
      obtain ⟨hactive, hpath⟩ := key_eq_some.1 hkey
      obtain ⟨hlen, hnot⟩ := hfits i hi hactive (by rw [hpath]; exact within_iff.2 ⟨r, rfl, hr⟩)
      rw [hpath, drop_left] at hlen
      rw [hpath] at hnot
      exact ⟨i, hi, .inl ⟨r, hkey, hr, hnot, hlen, rfl⟩, hown⟩
  | false =>
    have hmoved : ∀ {r}, Rest r → q ≠ dst ++ r := by
      rintro r hr rfl
      simp [within_iff.2 ⟨r, rfl, hr⟩] at hwd
    cases hws : within src q with
    | true =>
      refine iff_of_false ?_ (by simp)
      rintro ⟨i, -, ⟨r, -, hr, -, -, heq⟩ | ⟨-, -, hnot⟩, -⟩
      · exact hmoved hr heq
      · cases hnot
    | false =>
      show _ ↔ t.permGet q = some o
      rw [hd.get_iff]
      constructor
      · rintro ⟨i, hi, ⟨r, -, hr, -, -, heq⟩ | ⟨hkey, -, -⟩, hown⟩
        · exact absurd heq (hmoved hr)
        · exact ⟨i, hi, hkey, hown⟩
      · rintro ⟨i, hi, hkey, hown⟩
        exact ⟨i, hi, .inr ⟨hkey, rfl, rfl⟩, hown⟩

end Rename

end Perms

/-! ### Runs -/

/-- An absolute path without a slash at its end. -/
def Plain (p : Path) : Prop := p.head? = some slash ∧ p.getLast? ≠ some slash

instance (p : Path) : Decidable (Plain p) := inferInstanceAs (Decidable (_ ∧ _))

/-- Calls that the table can follow: paths that are set fit, trees are named without a slash at
the end, and no entry that a rename moves gets too long or lies under its new path already. -/
def careful (b : Both) : Call → Prop
  | .set path _ => path.length < permPathSize
  | .remove _ => True
  | .forgetTree path => Plain path
  | .renameTree src dst => Plain src ∧ Plain dst ∧
      ∀ i < maxPermEntries, (b.table i).active = true → within src (b.table i).path = true →
        dst.length + ((b.table i).path.drop src.length).length < permPathSize ∧
          within dst (b.table i).path = false

theorem Plain.ne_nil {p : Path} (h : Plain p) : p ≠ [] := by
  rintro rfl
  exact absurd h.1 (by decide)

/-- The table has one entry for a path, and is the map. -/
structure Agrees (b : Both) : Prop where
  distinct : b.table.Distinct
  get : b.table.permGet = b.map

/-- A call that fails and changes nothing, or does what it does to the map. -/
theorem Agrees.of_call {t : Perms} (hd : t.Distinct) {c : Call} (h : t.call c = (-1, t) ∨
      (t.call c).1 = 0 ∧ (t.call c).2.Distinct ∧ (t.call c).2.permGet = Map.call t.permGet c) :
    Agrees (Both.step ⟨t, t.permGet⟩ c) := by
  unfold Both.step
  obtain hfail | ⟨hok, hd', hget⟩ := h
  · simpa [hfail] using Agrees.mk hd rfl
  · simpa [hok] using Agrees.mk hd' hget

theorem Agrees.step {b : Both} (h : Agrees b) {c : Call} (hc : careful b c) : Agrees (b.step c) := by
  obtain ⟨hd, hget⟩ := h
  obtain ⟨t, m⟩ := b
  obtain rfl : t.permGet = m := hget
  cases c with
  | set path owner => exact .of_call hd (hd.set hc owner)
  | remove path => exact .of_call hd (hd.remove path)
  | forgetTree path =>
    have hplain : Plain path := hc
    exact ⟨hd.forgetTree hplain.ne_nil, hd.get_forgetTree hplain.ne_nil hplain.2⟩
  | renameTree src dst =>
    obtain ⟨hsrc, hdst, hfits⟩ := hc
    exact ⟨hd.renameTree hsrc.ne_nil hdst.ne_nil,
      hd.get_renameTree hsrc.ne_nil hdst.ne_nil hsrc.2 hdst.2 hfits⟩

theorem init_agrees : Agrees Both.init where
  distinct _ _ _ _ q h := absurd h.symm (Option.some_ne_none q)
  get := by
    funext path
    rw [Perms.permGet_eq, Keyed.view_none.2]
    · rfl
    · exact fun i _ h => absurd h.symm (Option.some_ne_none path)

/-- **Permissions.** After any calls that the table can follow, every path has in the table the
owner and mode that it has in the map, and access is decided by them. -/
theorem permissions_refine {cs : List Call} (hcs : Along Both.step careful Both.init cs) (path : Path) :
    (Both.init.run cs).table.permGet path = (Both.init.run cs).map path ∧
    ∀ uid gid member mode, (Both.init.run cs).table.permCheckAccess path uid gid member mode =
      accessAllowed ((Both.init.run cs).map path) uid gid member mode := by
  have hstep : ∀ b c, Agrees b → careful b c → Agrees (b.step c) := fun _ _ h hc => h.step hc
  have h : Agrees (Both.init.run cs) := Along.keeps hstep init_agrees hcs
  refine ⟨congrFun h.get path, fun uid gid member mode => ?_⟩
  unfold Perms.permCheckAccess
  rw [h.get]

instance (b : Both) (c : Call) : Decidable (careful b c) :=
  match c with
  | .set path _ => inferInstanceAs (Decidable (path.length < permPathSize))
  | .remove _ => inferInstanceAs (Decidable True)
  | .forgetTree path => inferInstanceAs (Decidable (Plain path))
  | .renameTree _ _ => inferInstanceAs (Decidable (_ ∧ _ ∧ ∀ i < maxPermEntries, _ → _ → _ ∧ _))

def secret : Owner := ⟨1000, 1000, 0o600⟩

/-- A file is restricted, and then its directory is renamed. -/
def renameParent : List Call := [.set [47, 97, 47, 98] secret, .renameTree [47, 97] [47, 99]]

theorem permissions_refine_renamed :
    Along Both.step careful Both.init renameParent ∧
      (Both.init.run renameParent).table.permGet [47, 99, 47, 98] =
        (Both.init.run renameParent).map [47, 99, 47, 98] := by
  have h : Along Both.step careful Both.init renameParent := by decide +kernel
  exact ⟨h, (permissions_refine h _).1⟩

/-- 300 bytes. -/
def longPath : Path := slash :: List.replicate 299 97

/-- A restriction on a long path is not found for it but for another path; a rename of a path
to itself, and one to a path that is too long, lose it. -/
theorem permissions_lost :
    ((Both.init.run [.set longPath secret]).map longPath = some secret ∧
      (Both.init.run [.set longPath secret]).table.permGet longPath = none ∧
      (Both.init.run [.set longPath secret]).table.permGet (longPath.take 255) = some secret) ∧
    ((Both.init.run [.set [47, 97] secret, .renameTree [47, 97] [47, 97]]).map [47, 97] = some secret ∧
      (Both.init.run [.set [47, 97] secret, .renameTree [47, 97] [47, 97]]).table.permGet [47, 97] = none) ∧
    ((Both.init.run [.set [47, 97] secret, .renameTree [47, 97] longPath]).map longPath = some secret ∧
      (Both.init.run [.set [47, 97] secret, .renameTree [47, 97] longPath]).table.permGet longPath = none) := by
  decide +kernel

end InDevOS.Users
