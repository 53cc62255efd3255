import Mathlib

/-! Path resolution on an ext4 volume (`e4_namei` in `ext4ro.c`).

The code walks the path from the root, keeps the directories it went through on a stack of
64 for `..`, and at a symbolic link starts again from the root on a path it puts together
from what came before the link, the target and what is left. `Reaches` says what POSIX asks:
`..` is the directory's parent, a link is replaced by its target where it stands, and a path
that ends in a slash names a directory.

The code resolves as it should if no `..` is met deeper than the stack, no path put together
is cut, and no `.`, `..` or slash at the end follows what is not a directory (`Tree.fair`);
`Resolution` proves it. -/
namespace InDevOS.Ext4

abbrev Name := List UInt8

def slash : UInt8 := 47
def dot : Name := [46]
def dotdot : Name := [46, 46]

/-! ### Directories -/

/-- Blocks with the entries in use, `none` where one cannot be read. The index of a
directory that has one leads to the blocks to look at for a name, or is of no use. -/
structure Dir where
  blocks : List (Option (List (Name × Nat)))
  index : Option (Name → Option (List Nat))

/-- `e4_find_cb` along the entries of a block. -/
def findIn (name : Name) (entries : List (Name × Nat)) : Option Nat :=
  (entries.find? (·.1 == name)).map (·.2)

/-- `e4_dir_iter` with `e4_find_cb`: block after block, up to one that cannot be read. -/
def e4DirIter (name : Name) : List (Option (List (Name × Nat))) → Option Nat
  | [] => none
  | none :: _ => none
  | some b :: bs => (findIn name b).or (e4DirIter name bs)

/-- `e4_dx_find` along the blocks that the index leads to; `none` if one cannot be read. -/
def e4DxFind (blocks : List (Option (List (Name × Nat)))) (name : Name) :
    List Nat → Option (Option Nat)
  | [] => some none
  | k :: ks =>
    match blocks[k]? with
    | some (some b) => if (findIn name b).isSome then some (findIn name b) else e4DxFind blocks name ks
    | _ => none

/-- The lookup in `e4_namei`: through the index, and block after block without one that is
of use. -/
def Dir.lookup (d : Dir) (name : Name) : Option Nat :=
  ((d.index.bind fun ix => ix name).bind (e4DxFind d.blocks name)).getD (e4DirIter name d.blocks)

inductive Node
  | dir (d : Dir)
  /-- With its target, unless that cannot be read. -/
  | link (target : Option (List UInt8))
  | other

def Node.isDir : Node → Bool
  | .dir _ => true
  | .link _ | .other => false

def Node.isLink : Node → Bool
  | .link _ => true
  | .dir _ | .other => false

/-- The inodes that can be read. -/
structure Volume where
  inode : Nat → Option Node

/-- The inode of the root. -/
def root : Nat := 2

/-! ### The walk -/

/-- The walk along a path: what came before the component, the path from it on, where it
stands, and the directories above, the nearest first. -/
structure Walk where
  done : List UInt8
  rest : List UInt8
  cur : Nat
  node : Node
  stack : List Nat

namespace Walk

def name (w : Walk) : Name := w.rest.takeWhile (· != slash)

/-- The path behind the component and the slashes that follow it. -/
def after (w : Walk) : List UInt8 := (w.rest.dropWhile (· != slash)).dropWhile (· == slash)

def before (w : Walk) : List UInt8 :=
  w.done ++ (w.name ++ (w.rest.dropWhile (· != slash)).takeWhile (· == slash))

/-- The stack holds 64 directories; more are dropped. -/
def push (w : Walk) : List Nat := if w.stack.length < 64 then w.cur :: w.stack else w.stack

/-- The path on which the code starts again at a link. -/
def rebuild (w : Walk) (target : List UInt8) : List UInt8 :=
  let tgt := (target.take 1000).takeWhile (· != 0)
  let o := if tgt.head? ≠ some slash then w.done.take 500 else []
  let o := o ++ tgt.take (1000 - o.length)
  if w.after ≠ [] ∧ o.length < 1000 then o ++ slash :: w.after.take (1020 - (o.length + 1)) else o

end Walk

/-- How the loop goes on. -/
inductive Step
  | refuse
  | arrive (ino : Nat)
  | onward (w : Walk)
  /-- At a link with this target. -/
  | restart (target : List UInt8)

namespace Volume

/-- On to an inode, if it can be read. -/
def enter (v : Volume) (w : Walk) (ino : Nat) (stack : List Nat) : Step :=
  match v.inode ino with
  | none => .refuse
  | some node => .onward ⟨w.before, w.after, ino, node, stack⟩

/-- Down to the entry that was found; a link is followed if more of the path is left, or
with `follow_last`. -/
def descend (v : Volume) (follow : Bool) (w : Walk) (ino : Nat) : Step :=
  match v.inode ino with
  | some (.link target) =>
    if w.after ≠ [] ∨ follow then
      match target with
      | none => .refuse
      | some target => .restart target
    else v.enter w ino w.push
  | _ => v.enter w ino w.push

/-- The body of the loop. -/
def next (v : Volume) (follow : Bool) (w : Walk) : Step :=
  if w.rest = [] then .arrive w.cur
  else if w.name = dot then .onward { w with done := w.before, rest := w.after }
  else if w.name = dotdot then v.enter w (w.stack.headD root) w.stack.tail
  else
    match w.node with
    | .dir d =>
      match d.lookup w.name with
      | none => .refuse
      | some ino => v.descend follow w ino
    | _ => .refuse

/-- The loop; every turn takes a component off the path. -/
def walk (v : Volume) (follow : Bool) (again : List UInt8 → Nat) : (fuel : Nat) → Walk → Nat
  | 0, _ => 0
  | fuel + 1, w =>
    match v.next follow w with
    | .refuse => 0
    | .arrive ino => ino
    | .onward w => v.walk follow again fuel w
    | .restart target => again (w.rebuild target)

/-- Where the walk begins. -/
def start (v : Volume) (path : List UInt8) : Option Walk :=
  (v.inode root).map fun node =>
    ⟨path.takeWhile (· == slash), path.dropWhile (· == slash), root, node, []⟩

/-- `e4_namei` with `levels` restarts left and one more. -/
def nameiFrom (v : Volume) (follow : Bool) : (levels : Nat) → List UInt8 → Nat
  | 0, _ => 0
  | levels + 1, path =>
    match v.start path with
    | none => 0
    | some w => v.walk follow (v.nameiFrom follow levels) (w.rest.length + 1) w

/-- `e4_namei`: depths 0 to 8. -/
def e4Namei (v : Volume) (follow : Bool) (path : List UInt8) : Nat := v.nameiFrom follow 9 path

end Volume

/-! ### What a path names -/

/-- The entry is in a block of the directory. -/
def Dir.Entry (d : Dir) (name : Name) (ino : Nat) : Prop :=
  ∃ b, some b ∈ d.blocks ∧ (name, ino) ∈ b

def Volume.IsDir (v : Volume) (ino : Nat) : Prop := ∃ d, v.inode ino = some (.dir d)

/-- A directory tree: names are unique, a directory is an entry of its parent only, one
level down, and links have targets. -/
structure Tree (v : Volume) where
  parent : Nat → Nat
  level : Nat → Nat
  root_isDir : v.IsDir root
  parent_root : parent root = root
  level_root : level root = 0
  unique : ∀ {i d name a b}, v.inode i = some (.dir d) → d.Entry name a → d.Entry name b → a = b
  below : ∀ {i d name j}, v.inode i = some (.dir d) → d.Entry name j → name ≠ dot → name ≠ dotdot →
    v.IsDir j → parent j = i ∧ level j = level i + 1
  target : ∀ {i t}, v.inode i = some (.link (some t)) → t ≠ [] ∧ 0 ∉ t

/-- The components of a path. -/
def parts (path : List UInt8) : List Name := (path.splitOnP (· == slash)).filter (· ≠ [])

/-- A slash at the end stands for a last component `.`. -/
def tail (slashed : Bool) : List Name := if slashed then [dot] else []

def slashed (path : List UInt8) : Bool := path.getLast? = some slash

def comps (path : List UInt8) : List Name := parts path ++ tail (slashed path)

/-- From an inode the components lead to another. -/
inductive Reaches {v : Volume} (T : Tree v) (follow : Bool) : Nat → List Name → Nat → Prop
  | here {i : Nat} : Reaches T follow i [] i
  | dot {i r : Nat} {todo : List Name} (hi : v.IsDir i) (h : Reaches T follow i todo r) :
    Reaches T follow i (dot :: todo) r
  | dotdot {i r : Nat} {todo : List Name} (hi : v.IsDir i) (h : Reaches T follow (T.parent i) todo r) :
    Reaches T follow i (dotdot :: todo) r
  | entry {i j r : Nat} {d : Dir} {name : Name} {node : Node} {todo : List Name}
    (hdot : name ≠ Ext4.dot) (hdotdot : name ≠ Ext4.dotdot) (hi : v.inode i = some (.dir d))
    (he : d.Entry name j) (hj : v.inode j = some node)
    (hstay : node.isLink = true → todo = [] ∧ follow = false) (h : Reaches T follow j todo r) :
    Reaches T follow i (name :: todo) r
  | link {i j r : Nat} {d : Dir} {name : Name} {target : List UInt8} {todo : List Name}
    (hdot : name ≠ Ext4.dot) (hdotdot : name ≠ Ext4.dotdot) (hi : v.inode i = some (.dir d))
    (he : d.Entry name j) (hj : v.inode j = some (.link (some target)))
    (hfollow : todo = [] → follow = true)
    (h : Reaches T follow (if target.head? = some slash then root else i) (comps target ++ todo) r) :
    Reaches T follow i (name :: todo) r

/-! ### When the code resolves as it should -/

/-- What comes before the target in the path put together. -/
def Walk.lead (w : Walk) (target : List UInt8) : List UInt8 :=
  if target.head? = some slash then [] else w.done

/-- The path put together at a link is not cut. -/
def Walk.Fits (w : Walk) (target : List UInt8) : Prop :=
  (w.lead target).length ≤ 500 ∧ (w.lead target).length + target.length ≤ 1000 ∧
    (w.after ≠ [] → (w.lead target).length + target.length < 1000 ∧
      (w.lead target).length + target.length + 1 + w.after.length ≤ 1020)

instance (w : Walk) (target : List UInt8) : Decidable (w.Fits target) :=
  inferInstanceAs (Decidable (_ ∧ _ ∧ _))

def Step.fits (w : Walk) : Step → Bool
  | .restart target => w.Fits target
  | .refuse | .arrive _ | .onward _ => true

namespace Tree
variable {v : Volume} (T : Tree v) (follow : Bool)

/-- At this point of the walk: `.`, `..` and a slash at the end follow a directory, one that
is not below the stack for `..`, and a link's path fits. -/
def sane (slashed : Bool) (w : Walk) : Bool :=
  if w.rest = [] then !slashed || w.node.isDir
  else
    (decide (w.name ≠ dot ∧ w.name ≠ dotdot) || w.node.isDir) &&
      (decide (w.name ≠ dotdot) || decide (T.level w.cur ≤ 64)) && (v.next follow w).fits w

def fairWalk (slashed : Bool) (fair : List UInt8 → Bool) : (fuel : Nat) → Walk → Bool
  | 0, _ => true
  | fuel + 1, w =>
    T.sane follow slashed w &&
      match v.next follow w with
      | .onward w => fairWalk slashed fair fuel w
      | .restart target => fair (w.rebuild target)
      | .refuse | .arrive _ => true

/-- `slashed`: a path that led here ended in a slash. -/
def fairFrom : (levels : Nat) → (slashed : Bool) → List UInt8 → Bool
  | 0, _, _ => true
  | levels + 1, sl, path =>
    match v.start path with
    | none => true
    | some w =>
      T.fairWalk follow (sl || slashed path) (fairFrom levels (sl || slashed path))
        (w.rest.length + 1) w

/-- Every point of the walk, over all links, is sane. -/
def fair (path : List UInt8) : Bool := T.fairFrom follow 9 false path

end Tree

end InDevOS.Ext4
