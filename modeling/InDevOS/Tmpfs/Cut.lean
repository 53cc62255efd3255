import InDevOS.Tmpfs.Content

/-! Cutting a tmpfs file short.

`tmpfs_shrink` rounds the new length up to chunks in 32 bits. Past 2³² − 65536 the sum wraps
and no chunk is kept: a file that loses a few bytes at its end loses all its data. Below
that a cut frees only chunks wholly past the new length, and what it cuts off is zero when
the file grows again (`cuts_right_iff`). -/
namespace InDevOS.Tmpfs
open Lib

/-- What a cut to `len` owes: every chunk that covers a byte below `len` stays, with its
bytes below `len`, and all from `len` on is zero. -/
structure Cut (n : Inode) (len : Nat) (n' : Inode) : Prop where
  keeps : ∀ ci, ci * tmpfsChunk < len → (n'.slot ci).isSome = (n.slot ci).isSome
  bytes : ∀ x < len, n'.byteAt x = n.byteAt x
  zeros : ∀ x, len ≤ x → n'.byteAt x = 0

/-- What resizing to `len` owes: growing keeps every chunk, cutting is a `Cut`, and the
bytes that a later call uncovers read as zero. -/
structure Resized (limit : Nat) (mem : Memory) (n : Inode) (u len : Nat) : Prop where
  grown : n.size < len → (tmpfsSetLen limit mem n u len).2.1.slot = n.slot
  cut : len ≤ n.size → Cut n len (tmpfsSetLen limit mem n u len).2.1
  uncovered : len ≤ n.size → ∀ (mem' : Memory) (u' len' : Nat), len < len' →
    ∀ (h : Handle) (size : Nat), len ≤ h.pos →
      ∀ b ∈ (tmpfsRead (tmpfsSetLen limit mem' (tmpfsSetLen limit mem n u len).2.1 u' len').2.1
        h size).1, b = 0

/-- A length that can be rounded up in 32 bits, or no data to lose. -/
def Roundable (n : Inode) (len : Nat) : Prop :=
  len ≤ 2 ^ 32 - 65536 ∨ ∀ ci, ci * tmpfsChunk < len → n.slot ci = none

variable {n : Inode} {len : Nat}

/-! ### The rounding -/

theorem keep_of_le (h : len ≤ 2 ^ 32 - 65536) :
    (len + tmpfsChunk - 1) % 2 ^ 32 / tmpfsChunk = (len + tmpfsChunk - 1) / tmpfsChunk := by
  unfold tmpfsChunk
  omega

theorem keep_of_gt (h : 2 ^ 32 - 65536 < len) (hlen : len < 2 ^ 32) :
    (len + tmpfsChunk - 1) % 2 ^ 32 / tmpfsChunk = 0 := by
  unfold tmpfsChunk
  omega

theorem slot_shrink_of_le (h : len ≤ 2 ^ 32 - 65536) (u ci : Nat) :
    ((tmpfsShrink n len u).1.slot ci).isSome =
      (decide (ci * tmpfsChunk < len) && (n.slot ci).isSome) := by
  have hin : ci < (len + tmpfsChunk - 1) / tmpfsChunk ↔ ci * tmpfsChunk < len := by
    unfold tmpfsChunk
    omega
  unfold tmpfsShrink Inode.slot
  rw [keep_of_le h]
  generalize (len + tmpfsChunk - 1) / tmpfsChunk = keep at hin ⊢
  by_cases hslot : ci < n.nchunkSlots
  swap
  · simp [hslot]
  rw [if_pos hslot, if_pos hslot]
  -- the tail that is zeroed stays a chunk
  have hsame : ∀ chunks : Nat → Option Bytes,
      ((if len % tmpfsChunk ≠ 0 ∧ keep ≠ 0 ∧ keep ≤ n.nchunkSlots then
        zeroTail chunks (keep - 1) (len % tmpfsChunk) else chunks) ci).isSome = (chunks ci).isSome := by
    intro chunks
    split_ifs
    · rw [zeroTail_apply]
      split_ifs with hci
      · rw [hci, Option.isSome_map]
      · rfl
    · rfl
  rw [hsame, freeChunks_apply]
  by_cases hkeep : ci < keep
  · rw [if_neg (by omega), decide_eq_true (hin.1 hkeep), Bool.true_and]
  · rw [if_pos (by omega), decide_eq_false fun hlt => hkeep (hin.2 hlt), Bool.false_and]
    rfl

theorem slot_shrink_of_gt (h : 2 ^ 32 - 65536 < len) (hlen : len < 2 ^ 32) (u ci : Nat) :
    (tmpfsShrink n len u).1.slot ci = none := by
  have hkeep : ¬ (len % tmpfsChunk ≠ 0 ∧ 0 ≠ 0 ∧ 0 ≤ n.nchunkSlots) := by simp
  unfold tmpfsShrink Inode.slot
  dsimp only
  rw [keep_of_gt h hlen, if_neg hkeep, freeChunks_apply]
  split_ifs with hslot hfree
  · rfl
  · omega
  · rfl

/-! ### Cuts -/

theorem shrink_cut (h : Roundable n len) (hlen : len < 2 ^ 32) (u : Nat) :
    Cut n len (tmpfsShrink n len u).1 := by
  by_cases hle : len ≤ 2 ^ 32 - 65536
  · refine ⟨fun ci hci => ?_, fun x hx => ?_, fun x hx => ?_⟩
    · rw [slot_shrink_of_le hle, decide_eq_true hci, Bool.true_and]
    · rw [tmpfsShrink_byteAt n hle, if_pos hx]
    · rw [tmpfsShrink_byteAt n hle, if_neg (by omega)]
  · have hgone := slot_shrink_of_gt (n := n) (Nat.lt_of_not_le hle) hlen u
    have hnone := h.resolve_left hle
    have hzero : ∀ x, (tmpfsShrink n len u).1.byteAt x = 0 := fun x => by
      rw [Inode.byteAt, hgone]
      rfl
    refine ⟨fun ci hci => ?_, fun x hx => ?_, fun x _ => hzero x⟩
    · rw [hgone, hnone ci hci]
    · rw [hzero, Inode.byteAt, hnone _ (by unfold tmpfsChunk; omega)]
      rfl

theorem roundable_of_cut (hlen : len < 2 ^ 32) {u : Nat} (h : Cut n len (tmpfsShrink n len u).1) :
    Roundable n len := by
  by_cases hle : len ≤ 2 ^ 32 - 65536
  · exact .inl hle
  · refine .inr fun ci hci => ?_
    have hkept := h.keeps ci hci
    rw [slot_shrink_of_gt (Nat.lt_of_not_le hle) hlen] at hkept
    exact Option.isSome_eq_false_iff.1 hkept.symm |> Option.isNone_iff_eq_none.1

/-! ### Resizing -/

variable {limit : Nat} {mem : Memory} {u : Nat}

theorem setLen_grown (h : n.size < len) : (tmpfsSetLen limit mem n u len).2.1.slot = n.slot := by
  unfold tmpfsSetLen
  rw [if_pos h]
  obtain ⟨hgrow, -⟩ := tmpfsSlots_spec limit mem.table n len
  revert hgrow
  rcases tmpfsSlots limit mem.table n len with ⟨err, n₁⟩
  intro hgrow
  cases err with
  | some | none => exact hgrow.slot

theorem setLen_cut (h : len ≤ n.size) (hlen : len < 2 ^ 32) :
    tmpfsSetLen limit mem n u len =
      (none, { (tmpfsShrink n len u).1 with size := len }, (tmpfsShrink n len u).2) := by
  unfold tmpfsSetLen
  rw [if_neg (by omega), Nat.mod_eq_of_lt hlen]

theorem slot_setSize (n : Inode) (size : Nat) : Inode.slot { n with size := size } = n.slot := rfl

theorem read_zeros (hz : ∀ x, len ≤ x → n.byteAt x = 0) {h : Handle} (hpos : len ≤ h.pos) (size : Nat) :
    ∀ b ∈ (tmpfsRead n h size).1, b = 0 := by
  intro b hb
  unfold tmpfsRead at hb
  split_ifs at hb
  · exact absurd hb List.not_mem_nil
  · obtain ⟨k, hk, rfl⟩ := List.mem_map.1 hb
    have hk := List.mem_range.1 hk
    rw [readLoop_apply n h.pos _ _ 0 _ (by omega), if_pos (by omega)]
    exact hz _ (by omega)

/-- **Cutting and resizing keep what they should** exactly when the length can be rounded up
in 32 bits, or the file has no data below it. -/
theorem cuts_right_iff (limit : Nat) (mem : Memory) (n : Inode) (u len : Nat) (hlen : len < 2 ^ 32) :
    (Cut n len (tmpfsShrink n len u).1 ↔ Roundable n len) ∧
    (Resized limit mem n u len ↔ n.size < len ∨ Roundable n len) := by
  refine ⟨⟨roundable_of_cut hlen, fun h => shrink_cut h hlen u⟩, fun h => ?_, fun h => ?_⟩
  · refine (Nat.lt_or_ge n.size len).imp_right fun hle => ?_
    have hcut := h.cut hle
    rw [setLen_cut hle hlen] at hcut
    exact roundable_of_cut hlen (u := u) ⟨hcut.keeps, hcut.bytes, hcut.zeros⟩
  · refine ⟨setLen_grown, fun hle => ?_, fun hle mem' u' len' hgrow hd size hpos => ?_⟩
    · have hcut := shrink_cut (h.resolve_left (by omega)) hlen u
      rw [setLen_cut hle hlen]
      exact ⟨hcut.keeps, hcut.bytes, hcut.zeros⟩
    · have hcut := shrink_cut (h.resolve_left (by omega)) hlen u
      rw [setLen_cut hle hlen]
      refine read_zeros (fun x hx => ?_) hpos size
      rw [Inode.byteAt_congr (setLen_grown hgrow), Inode.byteAt_congr (slot_setSize _ _)]
      exact hcut.zeros x hx

/-- A file of 2³² − 1 bytes with seven bytes of data at its start. -/
def sparse : Inode :=
  { Inode.zero with
    used := true, mode := regularMode, nlink := 1
    chunks := fun ci => if ci = 0 then some fun x => if x < 7 then 7 else 0 else none
    nchunkSlots := 65536, size := 2 ^ 32 - 1 }

/-- A file of these seven bytes cut to five, within its only chunk. -/
theorem cuts_right_small :
    let n := { sparse with nchunkSlots := 4, size := 7 }
    let n' := (tmpfsSetLen (2 ^ 33) ⟨true, fun _ => true⟩ n 65536 5).2.1
    Resized (2 ^ 33) ⟨true, fun _ => true⟩ n 65536 5 ∧
      n.byteAt 4 = 7 ∧ n.byteAt 5 = 7 ∧ n'.byteAt 4 = 7 ∧ n'.byteAt 5 = 0 := by
  intro n n'
  have h : Resized (2 ^ 33) ⟨true, fun _ => true⟩ n 65536 5 :=
    (cuts_right_iff _ _ _ _ 5 (by decide)).2.2 (.inr (.inl (by decide)))
  have hcut := h.cut (by decide)
  exact ⟨h, rfl, rfl, hcut.bytes 4 (by decide), hcut.zeros 5 (by decide)⟩

/-- Cutting off its last byte frees the chunk at its start, and the call succeeds. -/
theorem cut_wraps : sparse.byteAt 0 = 7 ∧
    (tmpfsSetLen (2 ^ 33) ⟨true, fun _ => true⟩ sparse 65536 (2 ^ 32 - 2)).1 = none ∧
    (tmpfsSetLen (2 ^ 33) ⟨true, fun _ => true⟩ sparse 65536 (2 ^ 32 - 2)).2.1.slot 0 = none := by
  have hsize : 2 ^ 32 - 2 ≤ sparse.size := by simp [sparse]
  rw [setLen_cut hsize (by decide)]
  refine ⟨by simp [Inode.byteAt, Inode.slot, sparse], by simp, ?_⟩
  rw [slot_setSize]
  exact slot_shrink_of_gt (by decide) (by decide) 65536 0

end InDevOS.Tmpfs
