import InDevOS.Lib.Table
import InDevOS.Tmpfs.Content

/-! What the data operations do to the other fields of an inode and to the count of used
bytes: nothing to the fields, and for every chunk the inode gains or loses the count
changes by the size of a chunk (`DataStep`). -/
namespace InDevOS.Tmpfs
open Lib

/-- One for a slot that has a chunk. -/
def chunkWeight (c : Option Bytes) : Nat := if c.isSome then 1 else 0

/-- How many chunks an inode has. -/
def Inode.allocated (n : Inode) : Nat := total n.nchunkSlots chunkWeight n.chunks

/-- From `n` with `u` bytes in use to `n'` with `u'`: only data changes, and the bytes
follow the chunks. -/
structure DataStep (n : Inode) (u : Nat) (n' : Inode) (u' : Nat) : Prop where
  used : n'.used = n.used
  mode : n'.mode = n.mode
  nlink : n'.nlink = n.nlink
  opens : n'.opens = n.opens
  bytes : tmpfsChunk * n.allocated ≤ u →
    u' + tmpfsChunk * n.allocated = u + tmpfsChunk * n'.allocated

namespace DataStep
variable {n n' n'' : Inode} {u u' u'' : Nat}

theorem refl (n : Inode) (u : Nat) : DataStep n u n u := ⟨rfl, rfl, rfl, rfl, fun _ => rfl⟩

theorem trans (h : DataStep n u n' u') (h' : DataStep n' u' n'' u'') : DataStep n u n'' u'' where
  used := h'.used.trans h.used
  mode := h'.mode.trans h.mode
  nlink := h'.nlink.trans h.nlink
  opens := h'.opens.trans h.opens
  bytes hle := by
    have h1 := h.bytes hle
    have h2 := h'.bytes (by omega)
    omega

theorem setSize (h : DataStep n u n' u') (size : Nat) :
    DataStep n u { n' with size := size } u' :=
  ⟨h.used, h.mode, h.nlink, h.opens, h.bytes⟩

end DataStep

/-! ### Freeing -/

theorem freeChunks_bytes {N : Nat} : ∀ (left i : Nat) (s : (Nat → Option Bytes) × Nat),
    i + left ≤ N → tmpfsChunk * total N chunkWeight s.1 ≤ s.2 →
    (freeChunks i left s).2 + tmpfsChunk * total N chunkWeight s.1 =
      s.2 + tmpfsChunk * total N chunkWeight (freeChunks i left s).1 := by
  intro left
  induction left with
  | zero => exact fun _ _ _ _ => rfl
  | succ left ih =>
    intro i s hN hle
    rw [freeChunks]
    cases hs : s.1 i with
    | none => exact ih (i + 1) s (by omega) hle
    | some c =>
      have hi : i < N := by omega
      have htotal := total_update hi chunkWeight s.1 none
      rw [hs, show chunkWeight (some c) = 1 from rfl, show chunkWeight none = 0 from rfl] at htotal
      have hnext := ih (i + 1) (Function.update s.1 i none, s.2 - tmpfsChunk) (by omega)
        (by dsimp only; unfold tmpfsChunk at *; omega)
      simp only [Option.isSome_some, if_true]
      dsimp only at hnext
      unfold tmpfsChunk at *
      omega

theorem total_none (N : Nat) : total N chunkWeight (fun _ : Nat => none) = 0 :=
  total_eq_zero_iff.2 fun _ _ => rfl

theorem tmpfsFreeData_step (n : Inode) (u : Nat) :
    DataStep n u (tmpfsFreeData n u).1 (tmpfsFreeData n u).2 := by
  refine ⟨rfl, rfl, rfl, rfl, fun hle => ?_⟩
  have hbytes := freeChunks_bytes n.nchunkSlots 0 (n.chunks, u) (Nat.zero_add _).le hle
  have hnone : total n.nchunkSlots chunkWeight (freeChunks 0 n.nchunkSlots (n.chunks, u)).1 = 0 := by
    refine total_eq_zero_iff.2 fun i hi => ?_
    rw [freeChunks_apply, if_pos (by omega)]
    rfl
  rw [hnone] at hbytes
  exact hbytes

theorem chunkWeight_zeroTail (chunks : Nat → Option Bytes) (ci off k : Nat) :
    chunkWeight (zeroTail chunks ci off k) = chunkWeight (chunks k) := by
  rw [zeroTail_apply]
  split_ifs with hk
  · rw [hk, chunkWeight, chunkWeight, Option.isSome_map]
  · rfl

theorem tmpfsShrink_step (n : Inode) (len u : Nat) :
    DataStep n u (tmpfsShrink n len u).1 (tmpfsShrink n len u).2 := by
  refine ⟨rfl, rfl, rfl, rfl, fun hle => ?_⟩
  unfold tmpfsShrink
  dsimp only
  generalize (len + tmpfsChunk - 1) % 2 ^ 32 / tmpfsChunk = keep
  have hbytes : (freeChunks keep (n.nchunkSlots - keep) (n.chunks, u)).2 +
      tmpfsChunk * n.allocated = u + tmpfsChunk * total n.nchunkSlots chunkWeight
        (freeChunks keep (n.nchunkSlots - keep) (n.chunks, u)).1 := by
    by_cases hkeep : keep ≤ n.nchunkSlots
    · exact freeChunks_bytes _ _ _ (by omega) hle
    · rw [Nat.sub_eq_zero_of_le (by omega)]
      rfl
  rw [hbytes]
  congr 2
  refine total_congr fun i _ => ?_
  split_ifs
  · rw [chunkWeight_zeroTail]
  · rfl

/-! ### Growing -/

theorem Inode.allocated_eq (n : Inode) {N : Nat} (hN : n.nchunkSlots ≤ N) :
    n.allocated = total N chunkWeight n.slot := by
  rw [total_of_le hN fun i hi => ?_]
  · exact total_congr fun i hi => by rw [Inode.slot, if_pos hi]
  · rw [Inode.slot, if_neg (by omega)]
    rfl

theorem tmpfsSlots_step (limit : Nat) (alloc : Bool) (n : Inode) (need u : Nat) :
    DataStep n u (tmpfsSlots limit alloc n need).2 u := by
  obtain ⟨hgrow, -⟩ := tmpfsSlots_spec limit alloc n need
  generalize (tmpfsSlots limit alloc n need).2 = n' at hgrow
  refine ⟨by rw [hgrow.eq], by rw [hgrow.eq], by rw [hgrow.eq], by rw [hgrow.eq], fun _ => ?_⟩
  rw [n.allocated_eq (le_max_left _ n'.nchunkSlots), n'.allocated_eq (le_max_right n.nchunkSlots _),
    hgrow.slot]

theorem allocated_setChunk {n : Inode} {ci : Nat} (hci : ci < n.nchunkSlots) (c : Bytes) :
    (n.setChunk ci c).allocated + chunkWeight (n.chunks ci) = n.allocated + 1 :=
  total_update hci chunkWeight n.chunks (some c)

/-! ### Writing -/

theorem tmpfsGetChunk_step {limit : Nat} {alloc : Bool} {n n' : Inode} {u u' ci : Nat} {c : Bytes}
    (h : tmpfsGetChunk limit alloc n u ci = some (c, n', u')) : DataStep n u n' u' := by
  unfold tmpfsGetChunk at h
  by_cases hci : n.nchunkSlots ≤ ci
  · rw [if_pos hci] at h
    cases h
  rw [if_neg hci] at h
  cases hchunk : n.chunks ci with
  | some c₀ =>
    rw [hchunk] at h
    cases h
    exact .refl n u
  | none =>
    rw [hchunk] at h
    split_ifs at h
    cases h
    refine ⟨rfl, rfl, rfl, rfl, fun _ => ?_⟩
    have halloc := allocated_setChunk (Nat.lt_of_not_le hci) fun _ => 0
    rw [hchunk, show chunkWeight none = 0 from rfl] at halloc
    rw [show (n.setChunk ci fun _ => 0).allocated = n.allocated + 1 from halloc, Nat.mul_add]
    omega

theorem setChunk_step {n : Inode} {ci : Nat} {c₀ : Bytes} (hci : ci < n.nchunkSlots)
    (hchunk : n.chunks ci = some c₀) (c : Bytes) (u : Nat) : DataStep n u (n.setChunk ci c) u := by
  refine ⟨rfl, rfl, rfl, rfl, fun _ => ?_⟩
  have halloc := allocated_setChunk hci c
  rw [hchunk, show chunkWeight (some c₀) = 1 from rfl] at halloc
  rw [show (n.setChunk ci c).allocated = n.allocated by omega]

theorem writeLoop_step (limit : Nat) (mem : Nat → Bool) (buf : Bytes) (pos size : Nat) :
    ∀ (fuel done : Nat) (n : Inode) (u : Nat),
      DataStep n u (writeLoop limit mem buf pos size fuel done n u).2.1
        (writeLoop limit mem buf pos size fuel done n u).2.2 := by
  intro fuel
  induction fuel with
  | zero => exact fun done n u => .refl n u
  | succ fuel ih =>
    intro done n u
    unfold writeLoop
    split_ifs
    · dsimp only
      cases hget : tmpfsGetChunk limit (mem ((pos + done) / tmpfsChunk)) n u
        ((pos + done) / tmpfsChunk) with
      | none => exact .refl n u
      | some r =>
        obtain ⟨dst, n₁, u₁⟩ := r
        obtain ⟨hci, hn₁, hchunk, -⟩ := tmpfsGetChunk_spec hget
        have hci₁ : (pos + done) / tmpfsChunk < n₁.nchunkSlots := by
          rw [hn₁]
          exact hci
        exact ((tmpfsGetChunk_step hget).trans (setChunk_step hci₁ hchunk _ u₁)).trans (ih _ _ _)
    · exact .refl n u

section
variable (limit : Nat) (mem : Memory) (n : Inode)

theorem tmpfsWrite_step (u : Nat) (h : Handle) (buf : Bytes) (size : Nat) :
    DataStep n u (tmpfsWrite limit mem n u h buf size).2.2.1
      (tmpfsWrite limit mem n u h buf size).2.2.2 := by
  unfold tmpfsWrite
  split_ifs
  · exact .refl n u
  · exact .refl n u
  · dsimp only
    have hslots := tmpfsSlots_step limit mem.table n ((h.atWrite n).pos + size) u
    revert hslots
    rcases tmpfsSlots limit mem.table n ((h.atWrite n).pos + size) with ⟨_ | e, n₁⟩
    · intro hslots
      have hloop := writeLoop_step limit mem.chunk buf (h.atWrite n).pos size size 0 n₁ u
      dsimp only
      revert hloop
      rcases writeLoop limit mem.chunk buf (h.atWrite n).pos size size 0 n₁ u with ⟨done, n₂, u₂⟩
      intro hloop
      split_ifs
      · exact hslots.trans hloop
      · exact (hslots.trans hloop).setSize _
    · exact fun hslots => hslots

theorem tmpfsWrite_ino (u : Nat) (h : Handle)
    (buf : Bytes) (size : Nat) : (tmpfsWrite limit mem n u h buf size).2.1.ino = h.ino := by
  unfold tmpfsWrite
  split_ifs
  · rfl
  · exact h.atWrite_ino n
  · dsimp only
    rcases tmpfsSlots limit mem.table n ((h.atWrite n).pos + size) with ⟨_ | e, n₁⟩
    · dsimp only
      split_ifs
      · exact h.atWrite_ino n
      · exact h.atWrite_ino n
    · exact h.atWrite_ino n

theorem tmpfsSetLen_step (u len : Nat) :
    DataStep n u (tmpfsSetLen limit mem n u len).2.1 (tmpfsSetLen limit mem n u len).2.2 := by
  unfold tmpfsSetLen
  split_ifs
  · have hslots := tmpfsSlots_step limit mem.table n len u
    revert hslots
    rcases tmpfsSlots limit mem.table n len with ⟨_ | e, n₁⟩
    · exact fun hslots => hslots.setSize _
    · exact fun hslots => hslots
  · exact (tmpfsShrink_step n _ u).setSize _

end

end InDevOS.Tmpfs
