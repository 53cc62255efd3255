import InDevOS.Lib.Steps
import InDevOS.Tmpfs.Inode

/-! The content of a tmpfs file is a byte array.

`Inode.byteAt` is the byte the chunk table has at an offset. Reads return these bytes,
writes change exactly the range they report, growing the slot table changes none, and a
cut zeroes all from the new size on; so the table holds the reference file
(`Inode.Holds`) through any sequence of calls on any handles (`tmpfs_refines_file`). -/
namespace InDevOS.Tmpfs
open Lib

/-! ### The bytes of the chunk table -/

namespace Inode

def byteAt (n : Inode) (x : Nat) : UInt8 :=
  ((n.slot (x / tmpfsChunk)).getD fun _ => 0) (x % tmpfsChunk)

/-- The inode has the size and the bytes of the file. -/
structure Holds (n : Inode) (f : ByteFile) : Prop where
  size : n.size = f.size
  byte : ∀ x, n.byteAt x = f.byte x

theorem byteAt_congr {n n' : Inode} (h : n'.slot = n.slot) (x : Nat) : n'.byteAt x = n.byteAt x := by
  rw [byteAt, byteAt, h]

theorem byteAt_setChunk {n : Inode} {ci : Nat} (hci : ci < n.nchunkSlots) (c : Bytes) (x : Nat) :
    (n.setChunk ci c).byteAt x = if x / tmpfsChunk = ci then c (x % tmpfsChunk) else n.byteAt x := by
  unfold byteAt slot setChunk
  by_cases hx : x / tmpfsChunk = ci
  · simp only [hx, hci, if_true, Function.update_self, Option.getD_some]
  · simp only [hx, if_false, Function.update_of_ne (f := n.chunks) hx]

end Inode

theorem chunk_add (off d : Nat) (h : off % tmpfsChunk + d < tmpfsChunk) :
    (off + d) / tmpfsChunk = off / tmpfsChunk ∧ (off + d) % tmpfsChunk = off % tmpfsChunk + d := by
  unfold tmpfsChunk at *
  omega

theorem chunk_round {off x : Nat} (hx : x / tmpfsChunk = off / tmpfsChunk) (c : Nat) :
    (off % tmpfsChunk ≤ x % tmpfsChunk ∧ x % tmpfsChunk < off % tmpfsChunk + c) ↔
      (off ≤ x ∧ x < off + c) := by
  unfold tmpfsChunk at *
  omega

theorem roundLength_pos (off : Nat) {left : Nat} (h : 0 < left) : 0 < roundLength off left := by
  unfold roundLength tmpfsChunk
  omega

theorem roundLength_le (off left : Nat) : roundLength off left ≤ left := min_le_right _ _

theorem roundLength_le_chunk (off left : Nat) :
    roundLength off left ≤ tmpfsChunk - off % tmpfsChunk := min_le_left _ _

theorem readLoop_apply (n : Inode) (pos size : Nat) : ∀ (fuel done : Nat) (buf : Bytes),
    size ≤ done + fuel → ∀ k, readLoop n pos size fuel done buf k =
      if done ≤ k ∧ k < size then n.byteAt (pos + k) else buf k := by
  intro fuel
  induction fuel with
  | zero =>
    intro done buf hle k
    rw [if_neg (by omega)]
    rfl
  | succ fuel ih =>
    intro done buf hle k
    unfold readLoop
    by_cases hd : done < size
    · have hpos := roundLength_pos (pos + done) (Nat.sub_pos_of_lt hd)
      have hc := roundLength_le (pos + done) (size - done)
      have hch := roundLength_le_chunk (pos + done) (size - done)
      rw [if_pos hd]
      generalize roundLength (pos + done) (size - done) = c at *
      rw [ih _ _ (by omega)]
      unfold copyInto
      by_cases hk : done ≤ k ∧ k < done + c
      · -- the byte was copied in this round
        obtain ⟨hdiv, hmod⟩ := chunk_add (pos + done) (k - done)
          (by unfold tmpfsChunk at *; omega)
        rw [show pos + done + (k - done) = pos + k by omega] at hdiv hmod
        rw [if_neg (by omega), if_pos hk, if_pos (by omega), Inode.byteAt, hdiv, hmod]
      · split_ifs <;> first | rfl | omega
    · rw [if_neg hd, if_neg (by omega)]

/-! ### Growing the table -/

theorem doubleUntil_spec (want : Nat) (hw : want ≤ 65536) : ∀ (fuel ns : Nat), 0 < ns →
    want ≤ ns + fuel → ns ≤ doubleUntil want fuel ns ∧ want ≤ doubleUntil want fuel ns := by
  intro fuel
  induction fuel with
  | zero => exact fun ns _ h => ⟨le_rfl, h⟩
  | succ fuel ih =>
    intro ns hns hle
    unfold doubleUntil
    split_ifs with hlt
    · rw [Nat.mod_eq_of_lt (by omega)]
      obtain ⟨h1, h2⟩ := ih (ns * 2) (by omega) (by omega)
      exact ⟨by omega, h2⟩
    · exact ⟨le_rfl, by omega⟩

/-- What growing the slot table can do: nothing but more slots. -/
structure GrowsSlots (n n' : Inode) : Prop where
  eq : n' = { n with chunks := n'.chunks, nchunkSlots := n'.nchunkSlots }
  slot : n'.slot = n.slot

theorem GrowsSlots.size {n n' : Inode} (h : GrowsSlots n n') : n'.size = n.size := by rw [h.eq]

/-- No slot table for `need` bytes: the size, the limit or memory. -/
def NoTable (limit : Nat) (alloc : Bool) (need : Nat) : Prop :=
  2 ^ 32 ≤ need ∨ limit < need ∨ alloc = false

theorem tmpfsSlots_failed {limit : Nat} {alloc : Bool} {n : Inode} {need : Nat} {e : Errno}
    (h : (tmpfsSlots limit alloc n need).1 = some e) : e = .ENOSPC ∧ NoTable limit alloc need := by
  unfold tmpfsSlots at h
  dsimp only at h
  split_ifs at h with hbig hlim hfits halloc <;> cases h
  · exact ⟨rfl, .inl (by omega)⟩
  · exact ⟨rfl, .inr (.inl hlim)⟩
  · exact ⟨rfl, .inr (.inr (by simpa using halloc))⟩

theorem tmpfsSlots_spec (limit : Nat) (alloc : Bool) (n : Inode) (need : Nat) :
    GrowsSlots n (tmpfsSlots limit alloc n need).2 ∧
    ((tmpfsSlots limit alloc n need).1 = none →
      need < 2 ^ 32 ∧ need ≤ tmpfsChunk * (tmpfsSlots limit alloc n need).2.nchunkSlots) := by
  have hsame : GrowsSlots n n := ⟨rfl, rfl⟩
  unfold tmpfsSlots
  by_cases hbig : 0xFFFFFFFF < need
  · simpa [hbig] using hsame
  by_cases hlim : limit < need
  · simpa [hbig, hlim] using hsame
  rw [if_neg hbig, if_neg hlim]
  by_cases hfits : (need + tmpfsChunk - 1) / tmpfsChunk ≤ n.nchunkSlots
  · rw [if_pos hfits]
    refine ⟨hsame, fun _ => ⟨by omega, ?_⟩⟩
    dsimp only
    unfold tmpfsChunk at *
    omega
  rw [if_neg hfits]
  cases alloc with
  | false => simpa using hsame
  | true =>
    obtain ⟨hns, hwant⟩ := doubleUntil_spec ((need + tmpfsChunk - 1) / tmpfsChunk)
      (by unfold tmpfsChunk; omega) ((need + tmpfsChunk - 1) / tmpfsChunk)
      (if n.nchunkSlots = 0 then 4 else n.nchunkSlots) (by split_ifs <;> omega) (by omega)
    refine ⟨⟨rfl, ?_⟩, fun _ => ⟨by omega, ?_⟩⟩
    · funext ci
      show (if ci < doubleUntil _ _ _ then n.slot ci else none) = n.slot ci
      unfold Inode.slot
      split_ifs at hns ⊢ <;> first | rfl | omega
    · show need ≤ tmpfsChunk * doubleUntil _ _ _
      unfold tmpfsChunk at *
      omega

/-! ### Writing -/

/-- A chunk that is to be had: the table has the same bytes with it. -/
theorem tmpfsGetChunk_spec {limit : Nat} {alloc : Bool} {n n' : Inode} {u u' ci : Nat} {c : Bytes}
    (h : tmpfsGetChunk limit alloc n u ci = some (c, n', u')) :
    ci < n.nchunkSlots ∧ n' = { n with chunks := n'.chunks } ∧ n'.chunks ci = some c ∧
    (∀ x, n'.byteAt x = n.byteAt x) ∧ u' ≤ u + tmpfsChunk := by
  unfold tmpfsGetChunk at h
  by_cases hci : n.nchunkSlots ≤ ci
  · rw [if_pos hci] at h
    cases h
  rw [if_neg hci] at h
  cases hchunk : n.chunks ci with
  | some c₀ =>
    rw [hchunk] at h
    cases h
    exact ⟨by omega, rfl, hchunk, fun _ => rfl, Nat.le_add_right _ _⟩
  | none =>
    rw [hchunk] at h
    split_ifs at h
    cases h
    refine ⟨by omega, rfl, Function.update_self _ _ _, fun x => ?_, le_rfl⟩
    rw [Inode.byteAt_setChunk (by omega)]
    split_ifs with hx
    · rw [Inode.byteAt, Inode.slot, hx, hchunk, ite_self]
      rfl
    · rfl

theorem tmpfsGetChunk_none {limit : Nat} {alloc : Bool} {n : Inode} {u ci : Nat} (hci : ci < n.nchunkSlots)
    (h : tmpfsGetChunk limit alloc n u ci = none) : limit < u + tmpfsChunk ∨ alloc = false := by
  unfold tmpfsGetChunk at h
  rw [if_neg (by omega)] at h
  cases hchunk : n.chunks ci with
  | some c => simp [hchunk] at h
  | none =>
    by_contra hroom
    simp_all

/-- No chunk for offset `b`, for a write from offset `a` on that began with `u` bytes in use: the limit
is reached with the chunks it may have taken, or there is no memory. -/
def NoChunk (limit : Nat) (mem : Nat → Bool) (u a b : Nat) : Prop :=
  limit < u + tmpfsChunk * (b / tmpfsChunk - a / tmpfsChunk + 1) ∨ mem (b / tmpfsChunk) = false

/-- The round before went to the end of its chunk, with at most one chunk taken. -/
theorem NoChunk.before {limit u u₁ a b : Nat} {mem : Nat → Bool} (hu : u₁ ≤ u + tmpfsChunk)
    (hb : a + (tmpfsChunk - a % tmpfsChunk) ≤ b)
    (h : NoChunk limit mem u₁ (a + (tmpfsChunk - a % tmpfsChunk)) b) : NoChunk limit mem u a b := by
  refine h.imp_left fun h => ?_
  have hnext : (a + (tmpfsChunk - a % tmpfsChunk)) / tmpfsChunk = a / tmpfsChunk + 1 := by
    unfold tmpfsChunk
    omega
  have hle := Nat.div_le_div_right (c := tmpfsChunk) hb
  rw [hnext] at h hle
  rw [show b / tmpfsChunk - a / tmpfsChunk = b / tmpfsChunk - (a / tmpfsChunk + 1) + 1 by omega,
    Nat.mul_succ]
  omega

/-- From `done` on the loop stored the bytes up to the number it returned, and no others; it ended
early for want of a chunk. -/
structure StoresPrefix (limit : Nat) (mem : Nat → Bool) (buf : Bytes) (pos size done : Nat) (n : Inode) (u : Nat)
    (r : Nat × Inode × Nat) : Prop where
  done_le : done ≤ r.1
  le_size : r.1 ≤ size
  short : r.1 < size → NoChunk limit mem u (pos + done) (pos + r.1)
  eq : r.2.1 = { n with chunks := r.2.1.chunks }
  byte : ∀ x, r.2.1.byteAt x =
    if pos + done ≤ x ∧ x < pos + r.1 then buf (x - pos) else n.byteAt x

theorem StoresPrefix.stop {limit : Nat} {mem : Nat → Bool} {buf : Bytes} {pos size done : Nat} (n : Inode)
    (u : Nat) (h : done ≤ size) (hshort : done < size → NoChunk limit mem u (pos + done) (pos + done)) :
    StoresPrefix limit mem buf pos size done n u (done, n, u) :=
  ⟨le_rfl, h, hshort, rfl, fun x => (if_neg (by dsimp only; omega)).symm⟩

theorem byteAt_copyInto {n : Inode} {off ci c : Nat} {dst : Bytes} (buf : Bytes) (done : Nat)
    (hci : off / tmpfsChunk = ci) (hlt : ci < n.nchunkSlots) (hdst : n.chunks ci = some dst)
    (hc : c ≤ tmpfsChunk - off % tmpfsChunk) (x : Nat) :
    (n.setChunk ci (copyInto dst (off % tmpfsChunk) buf done c)).byteAt x =
      if off ≤ x ∧ x < off + c then buf (done + (x - off)) else n.byteAt x := by
  rw [Inode.byteAt_setChunk hlt]
  by_cases hsame : x / tmpfsChunk = ci
  · have hround := chunk_round (hsame.trans hci.symm) c
    rw [if_pos hsame]
    unfold copyInto
    by_cases hin : off ≤ x ∧ x < off + c
    · rw [if_pos (hround.2 hin), if_pos hin]
      congr 1
      unfold tmpfsChunk at *
      omega
    · rw [if_neg fun h => hin (hround.1 h), if_neg hin, Inode.byteAt, Inode.slot, hsame, if_pos hlt,
        hdst, Option.getD_some]
  · rw [if_neg hsame, if_neg ?_]
    unfold tmpfsChunk at *
    omega

theorem writeLoop_spec (limit : Nat) (mem : Nat → Bool) (buf : Bytes) (pos size : Nat) :
    ∀ (fuel done : Nat) (n : Inode) (u : Nat), done ≤ size → size ≤ done + fuel →
      pos + size ≤ tmpfsChunk * n.nchunkSlots →
      StoresPrefix limit mem buf pos size done n u (writeLoop limit mem buf pos size fuel done n u) := by
  intro fuel
  induction fuel with
  | zero => exact fun done n u hle hfuel _ => .stop n u hle (by omega)
  | succ fuel ih =>
    intro done n u hle hfuel hslots
    unfold writeLoop
    by_cases hd : done < size
    · have hpos := roundLength_pos (pos + done) (Nat.sub_pos_of_lt hd)
      have hc := roundLength_le (pos + done) (size - done)
      have hch := roundLength_le_chunk (pos + done) (size - done)
      have hmin : roundLength (pos + done) (size - done) = tmpfsChunk - (pos + done) % tmpfsChunk ∨
          roundLength (pos + done) (size - done) = size - done := min_choice _ _
      rw [if_pos hd]
      dsimp only
      generalize roundLength (pos + done) (size - done) = c at *
      cases hget : tmpfsGetChunk limit (mem ((pos + done) / tmpfsChunk)) n u
        ((pos + done) / tmpfsChunk) with
      | none =>
        have hci : (pos + done) / tmpfsChunk < n.nchunkSlots := by unfold tmpfsChunk at *; omega
        refine .stop n u hle fun _ => (tmpfsGetChunk_none hci hget).imp_left fun h => ?_
        rwa [Nat.sub_self, Nat.zero_add, Nat.mul_one]
      | some r =>
        obtain ⟨dst, n₁, u₁⟩ := r
        obtain ⟨hci, hn₁, hchunk, hbytes, hu₁⟩ := tmpfsGetChunk_spec hget
        have hci₁ : (pos + done) / tmpfsChunk < n₁.nchunkSlots := by
          rw [hn₁]
          exact hci
        have hround := byteAt_copyInto buf done rfl hci₁ hchunk hch
        have hrest := ih (done + c) (n₁.setChunk ((pos + done) / tmpfsChunk)
          (copyInto dst ((pos + done) % tmpfsChunk) buf done c)) u₁ (by omega) (by omega)
          (by rw [hn₁]; exact hslots)
        dsimp only
        generalize writeLoop _ _ _ _ _ _ _ _ _ = r at hrest ⊢
        have hdone := hrest.done_le
        refine ⟨by omega, hrest.le_size, fun hlt => ?_, ?_, fun x => ?_⟩
        · have hshort := hrest.short hlt
          rw [← Nat.add_assoc] at hshort
          obtain rfl | rfl := hmin
          · exact hshort.before hu₁ (by omega)
          · omega
        · rw [hrest.eq, hn₁]
          rfl
        · rw [hrest.byte x, hround x, hbytes x]
          split_ifs <;> first | rfl | omega | (congr 1; omega)
    · rw [if_neg hd]
      exact .stop n u hle fun h => absurd h hd

/-! ### Cutting -/

theorem freeChunks_apply : ∀ (left i : Nat) (s : (Nat → Option Bytes) × Nat) (k : Nat),
    (freeChunks i left s).1 k = if i ≤ k ∧ k < i + left then none else s.1 k := by
  intro left
  induction left with
  | zero =>
    intro i s k
    rw [if_neg (by omega)]
    rfl
  | succ left ih =>
    intro i s k
    have hfirst : (if (s.1 i).isSome then (Function.update s.1 i none, s.2 - tmpfsChunk) else s).1 k =
        if k = i then none else s.1 k := by
      cases hs : s.1 i <;> rcases eq_or_ne k i with rfl | hk <;> simp [*]
    rw [freeChunks, ih, hfirst]
    split_ifs <;> first | rfl | omega

theorem zeroTail_apply (chunks : Nat → Option Bytes) (ci off k : Nat) :
    zeroTail chunks ci off k =
      if k = ci then (chunks ci).map fun c => c.fill off 0 (tmpfsChunk - off) else chunks k := by
  unfold zeroTail
  cases hc : chunks ci <;> rcases eq_or_ne k ci with rfl | hk <;> simp [*]

theorem tmpfsShrink_byteAt (n : Inode) {len : Nat} (hlen : len ≤ 2 ^ 32 - 65536) (u x : Nat) :
    (tmpfsShrink n len u).1.byteAt x = if x < len then n.byteAt x else 0 := by
  unfold tmpfsShrink
  dsimp only
  rw [Nat.mod_eq_of_lt (a := len + tmpfsChunk - 1) (by unfold tmpfsChunk; omega)]
  generalize hk : (len + tmpfsChunk - 1) / tmpfsChunk = keep
  have hfree := freeChunks_apply (n.nchunkSlots - keep) keep (n.chunks, u)
  generalize freeChunks keep (n.nchunkSlots - keep) (n.chunks, u) = s at hfree ⊢
  unfold Inode.byteAt Inode.slot
  dsimp only
  by_cases hslot : x / tmpfsChunk < n.nchunkSlots
  swap
  · split_ifs <;> rfl
  rw [if_pos hslot, if_pos hslot]
  by_cases hpast : keep ≤ x / tmpfsChunk
  · -- a chunk wholly past the cut
    have hx : ¬ x < len := by unfold tmpfsChunk at *; omega
    have hnone : s.1 (x / tmpfsChunk) = none := by rw [hfree, if_pos (by omega)]
    split_ifs with hcut
    · rw [zeroTail_apply, if_neg (by omega), hnone]
      rfl
    · rw [hnone]
      rfl
  · have hsame : s.1 (x / tmpfsChunk) = n.chunks (x / tmpfsChunk) := by
      rw [hfree, if_neg (by omega)]
    by_cases hlast : len % tmpfsChunk ≠ 0 ∧ x / tmpfsChunk = keep - 1
    · -- the chunk the cut goes through
      rw [if_pos ⟨hlast.1, by omega, by omega⟩, zeroTail_apply, if_pos hlast.2, ← hlast.2, hsame]
      have hiff : x < len ↔ x % tmpfsChunk < len % tmpfsChunk := by
        unfold tmpfsChunk at *
        omega
      have hmod : x % tmpfsChunk < tmpfsChunk := Nat.mod_lt _ (by decide)
      cases n.chunks (x / tmpfsChunk) with
      | none => split_ifs <;> rfl
      | some c =>
        show c.fill _ 0 _ (x % tmpfsChunk) = _
        split_ifs with hx
        · rw [Bytes.fill_apply_outside _ _ (.inl (hiff.1 hx))]
          rfl
        · rw [Bytes.fill_apply_inside _ _ (by omega)]
    · have hx : x < len := by unfold tmpfsChunk at *; omega
      split_ifs with hcut
      · rw [zeroTail_apply, if_neg fun h => hlast ⟨hcut.1, h⟩, hsame]
      · rw [hsame]

/-! ### The calls and the reference file -/

namespace Inode.Holds
variable {n : Inode} {f : ByteFile} {h : Handle}

theorem read (hn : n.Holds f) (h : Handle) (size : Nat) :
    tmpfsRead n h size =
      (f.read h.pos size, { h with pos := h.pos + f.available h.pos size }) := by
  unfold tmpfsRead ByteFile.read ByteFile.available
  rw [hn.size]
  split_ifs with hpos
  · rw [Nat.sub_eq_zero_of_le hpos, Nat.min_zero]
    rfl
  · refine Prod.ext (List.map_congr_left fun k hk => ?_) rfl
    have hk := List.mem_range.1 hk
    rw [readLoop_apply n h.pos _ _ 0 _ (by omega), if_pos (by omega), hn.byte]

/-- A write stores what it reports; one that reports an error stores nothing. -/
theorem write (hn : n.Holds f) (limit : Nat) (mem : Memory) (u : Nat) (h : Handle) (buf : Bytes)
    (size : Nat) :
    (tmpfsWrite limit mem n u h buf size = (.error .EBADF, h, n, u) ∧ h.has vfsOWrite = false) ∨
    h.has vfsOWrite = true ∧ ((∃ n' u',
      tmpfsWrite limit mem n u h buf size = (.error .ENOSPC, h.atWrite n, n', u') ∧ 0 < size ∧
      (NoTable limit mem.table ((h.atWrite n).pos + size) ∨
        NoChunk limit mem.chunk u (h.atWrite n).pos (h.atWrite n).pos) ∧ n'.Holds f) ∨
    ∃ done n' u', tmpfsWrite limit mem n u h buf size =
        (.ok done, { h.atWrite n with pos := (h.atWrite n).pos + done }, n', u') ∧
      done ≤ size ∧ (0 < size → 0 < done) ∧
      (done < size → NoChunk limit mem.chunk u (h.atWrite n).pos ((h.atWrite n).pos + done)) ∧
      n'.Holds (f.write (h.atWrite n).pos done buf)) := by
  unfold tmpfsWrite
  cases hw : h.has vfsOWrite with
  | false => exact .inl ⟨rfl, rfl⟩
  | true =>
    simp only [Bool.not_true, Bool.false_eq_true, if_false]
    generalize h.atWrite n = h'
    refine .inr ⟨trivial, ?_⟩
    by_cases hsize : size = 0
    · subst hsize
      refine .inr ⟨0, n, u, rfl, le_rfl, by omega, by omega, hn.size, fun x => ?_⟩
      show n.byteAt x = if h'.pos ≤ x ∧ x < h'.pos + 0 then _ else f.byte x
      rw [if_neg (by omega), hn.byte]
    · rw [if_neg hsize]
      obtain ⟨hgrow, hok⟩ := tmpfsSlots_spec limit mem.table n (h'.pos + size)
      have hfailed := @tmpfsSlots_failed limit mem.table n (h'.pos + size)
      revert hgrow hok hfailed
      cases tmpfsSlots limit mem.table n (h'.pos + size) with
      | mk err n₁ =>
        intro hgrow hok hfailed
        have hn₁ : n₁.Holds f :=
          ⟨hgrow.size.trans hn.size, fun x => (Inode.byteAt_congr hgrow.slot x).trans (hn.byte x)⟩
        cases err with
        | some e =>
          obtain ⟨rfl, hcause⟩ := hfailed rfl
          exact .inl ⟨n₁, u, rfl, by omega, .inl hcause, hn₁⟩
        | none =>
          have hloop := writeLoop_spec limit mem.chunk buf h'.pos size size 0 n₁ u (by omega)
            (by omega) (hok rfl).2
          dsimp only
          revert hloop
          cases writeLoop limit mem.chunk buf h'.pos size size 0 n₁ u with
          | mk done r =>
            obtain ⟨n₂, u₂⟩ := r
            intro hloop
            have hle := hloop.le_size
            have hbyte := hloop.byte
            have hn₂ : n₂.size = f.size := by
              rw [show n₂ = _ from hloop.eq]
              exact hn₁.size
            by_cases hdone : done = 0
            · subst hdone
              refine .inl ⟨n₂, u₂, rfl, by omega, .inr (hloop.short (by omega)), hn₂, fun x => ?_⟩
              rw [hbyte x, if_neg (by omega), hn₁.byte]
            · rw [if_neg hdone]
              refine .inr ⟨done, _, u₂, rfl, hle, fun _ => by omega, hloop.short, ?_, fun x => ?_⟩
              · show max n₂.size (h'.pos + done) = if done = 0 then f.size else max f.size (h'.pos + done)
                rw [if_neg hdone, hn₂]
              · refine (hbyte x).trans ?_
                rw [hn₁.byte]
                rfl

/-- A truncation cuts or extends the file, or fails and leaves it. -/
theorem setLen (hn : n.Holds f) (hsize : n.size ≤ 2 ^ 32 - 65536) (limit : Nat) (mem : Memory)
    (u len : Nat) :
    (∃ n' u', tmpfsSetLen limit mem n u len = (some .ENOSPC, n', u') ∧
      f.size < len ∧ NoTable limit mem.table len ∧ n'.Holds f) ∨
    ∃ n' u', tmpfsSetLen limit mem n u len = (none, n', u') ∧ n'.Holds (f.truncate len) := by
  unfold tmpfsSetLen
  by_cases hlen : n.size < len
  · rw [if_pos hlen]
    obtain ⟨hgrow, hok⟩ := tmpfsSlots_spec limit mem.table n len
    have hfailed := @tmpfsSlots_failed limit mem.table n len
    revert hgrow hok hfailed
    cases tmpfsSlots limit mem.table n len with
    | mk err n₁ =>
      intro hgrow hok hfailed
      have hbyte : ∀ x, n₁.byteAt x = f.byte x :=
        fun x => (Inode.byteAt_congr hgrow.slot x).trans (hn.byte x)
      cases err with
      | some e =>
        obtain ⟨rfl, hcause⟩ := hfailed rfl
        exact .inl ⟨n₁, u, rfl, hn.size ▸ hlen, hcause, hgrow.size.trans hn.size, hbyte⟩
      | none =>
        refine .inr ⟨_, u, rfl, Nat.mod_eq_of_lt (hok rfl).1, fun x => ?_⟩
        refine (hbyte x).trans ?_
        show f.byte x = if x < len then f.byte x else 0
        split_ifs
        · rfl
        · rw [f.byte_past x (by rw [← hn.size]; omega)]
  · have hmod : len % 2 ^ 32 = len := Nat.mod_eq_of_lt (by omega)
    rw [if_neg hlen]
    refine .inr ⟨_, _, rfl, hmod, fun x => ?_⟩
    refine (tmpfsShrink_byteAt n (by rw [hmod]; omega) u x).trans ?_
    rw [hmod, hn.byte]
    rfl

/-- Opening with `O_TRUNC` empties the file. -/
theorem freeData (u : Nat) : { (tmpfsFreeData n u).1 with size := 0 }.Holds .empty :=
  ⟨rfl, fun _ => rfl⟩

end Inode.Holds

/-! ### One file and its handles -/

/-- A regular file, the bytes all files use, and the handles open on it. -/
structure FileState where
  inode : Inode
  usedBytes : Nat
  handles : List Handle

inductive FileOp where
  | open (flags : UInt32) (alloc : Bool)
  | close (k : Nat)
  | read (k : Nat) (size : UInt32)
  | write (k : Nat) (buf : Bytes) (size : UInt32) (mem : Memory)
  | seek (k : Nat) (offset : Int) (whence : Nat)
  | truncate (len : UInt64) (mem : Memory)
  | ftruncate (k : Nat) (len : UInt64) (mem : Memory)
  /-- Other files take or give back chunks. -/
  | others (usedBytes : Nat)

/-- What a call returns to its caller: for a read also the bytes it delivers. -/
inductive Outcome where
  | opened (ok : Bool)
  | returned (r : Int)
  | delivered (r : Int) (data : List UInt8)
deriving DecidableEq

/-- The return value of a call that counts bytes or reports a position. -/
def returnValue : Except Errno Nat → Int
  | .ok n => toInt n
  | .error e => e.ret

def FileState.truncated (limit : Nat) (s : FileState) (len : UInt64) (mem : Memory) :
    Outcome × FileState :=
  match tmpfsSetLen limit mem s.inode s.usedBytes len.toNat with
  | (err, n, u) => (.returned (err.elim 0 Errno.ret), { s with inode := n, usedBytes := u })

/-- One call on the file. A handle that is not open is a null pointer. -/
def FileState.step (limit : Nat) (s : FileState) : FileOp → Outcome × FileState
  | .open flags alloc =>
    let h : Handle := ⟨1, 0, flags⟩
    let s :=
      if h.has vfsOTrunc then
        let r := tmpfsFreeData s.inode s.usedBytes
        { s with inode := { r.1 with size := 0 }, usedBytes := r.2 }
      else s
    if !alloc then (.opened false, s)
    else (.opened true, { s with handles := s.handles ++ [h.atWrite s.inode] })
  | .close k => (.returned 0, { s with handles := s.handles.eraseIdx k })
  | .read k size =>
    match s.handles[k]? with
    | none => (.returned Errno.EBADF.ret, s)
    | some h =>
      let r := tmpfsRead s.inode h size.toNat
      (.delivered (toInt r.1.length) r.1, { s with handles := s.handles.set k r.2 })
  | .write k buf size mem =>
    match s.handles[k]? with
    | none => (.returned Errno.EBADF.ret, s)
    | some h =>
      match tmpfsWrite limit mem s.inode s.usedBytes h buf size.toNat with
      | (r, h, n, u) => (.returned (returnValue r), ⟨n, u, s.handles.set k h⟩)
  | .seek k offset whence =>
    match s.handles[k]? with
    | none => (.returned Errno.EBADF.ret, s)
    | some h =>
      match tmpfsSeek s.inode h offset whence with
      | (r, h) => (.returned (returnValue r), { s with handles := s.handles.set k h })
  | .truncate len mem => s.truncated limit len mem
  | .ftruncate k len mem =>
    match s.handles[k]? with
    | none => (.returned Errno.EBADF.ret, s)
    | some _ => s.truncated limit len mem
  | .others usedBytes => (.returned 0, { s with usedBytes := usedBytes })

/-- A byte array and positions in it. -/
structure FileSpec where
  file : ByteFile
  handles : List Handle

/-- Where a handle writes: at its position, or at the end of the file. -/
def FileSpec.writesAt (s : FileSpec) (h : Handle) : Nat :=
  if h.has vfsOAppend then s.file.size else h.pos

/-- Where a seek counts from. -/
def FileSpec.base (s : FileSpec) (h : Handle) (whence : Nat) : Option Int :=
  if whence = 0 then some 0 else if whence = 1 then some h.pos else if whence = 2 then some s.file.size else none

/-- What a call may do to a byte array and what it then returns, with `u` bytes in use when it is made. -/
inductive FileSpec.Step (limit u : Nat) : FileSpec → FileOp → Outcome → FileSpec → Prop where
  | opened (s flags) (f : ByteFile)
      (hf : f = if (⟨1, 0, flags⟩ : Handle).has vfsOTrunc then .empty else s.file) :
      Step limit u s (.open flags true) (.opened true)
        ⟨f, s.handles ++ [⟨1, FileSpec.writesAt ⟨f, []⟩ ⟨1, 0, flags⟩, flags⟩]⟩
  | notOpened (s flags) (f : ByteFile)
      (hf : f = if (⟨1, 0, flags⟩ : Handle).has vfsOTrunc then .empty else s.file) :
      Step limit u s (.open flags false) (.opened false) ⟨f, s.handles⟩
  | close (s k) : Step limit u s (.close k) (.returned 0) ⟨s.file, s.handles.eraseIdx k⟩
  | read (s k size) (h : Handle) (hk : s.handles[k]? = some h) :
      Step limit u s (.read k size)
        (.delivered (toInt (s.file.available h.pos size.toNat)) (s.file.read h.pos size.toNat))
        ⟨s.file, s.handles.set k { h with pos := h.pos + s.file.available h.pos size.toNat }⟩
  /-- The bytes reported are stored, at the position of the handle or at the end. -/
  | write (s k buf size mem) (h : Handle) (n : Nat) (hk : s.handles[k]? = some h)
      (hw : h.has vfsOWrite = true) (hn : n ≤ size.toNat) (hpos : 0 < size.toNat → 0 < n)
      (hshort : n < size.toNat → NoChunk limit mem.chunk u (s.writesAt h) (s.writesAt h + n)) :
      Step limit u s (.write k buf size mem) (.returned (toInt n))
        ⟨s.file.write (s.writesAt h) n buf, s.handles.set k { h with pos := s.writesAt h + n }⟩
  | notWritable (s k buf size mem) (h : Handle) (hk : s.handles[k]? = some h) (hw : h.has vfsOWrite = false) :
      Step limit u s (.write k buf size mem) (.returned Errno.EBADF.ret) s
  | notWritten (s k buf size mem) (h : Handle) (hk : s.handles[k]? = some h) (hw : h.has vfsOWrite = true)
      (hpos : 0 < size.toNat) (hroom : NoTable limit mem.table (s.writesAt h + size.toNat) ∨
        NoChunk limit mem.chunk u (s.writesAt h) (s.writesAt h)) :
      Step limit u s (.write k buf size mem) (.returned Errno.ENOSPC.ret)
        ⟨s.file, s.handles.set k { h with pos := s.writesAt h }⟩
  | seek (s k offset whence) (h : Handle) (b : Int) (hk : s.handles[k]? = some h)
      (hb : s.base h whence = some b) (hpos : 0 ≤ b + offset) :
      Step limit u s (.seek k offset whence) (.returned (toInt ((b + offset) % 2 ^ 32).toNat))
        ⟨s.file, s.handles.set k { h with pos := ((b + offset) % 2 ^ 32).toNat }⟩
  | notSought (s k offset whence) (h : Handle) (hk : s.handles[k]? = some h)
      (hneg : ∀ b, s.base h whence = some b → b + offset < 0) :
      Step limit u s (.seek k offset whence) (.returned Errno.EINVAL.ret) s
  | truncate (s len mem) : Step limit u s (.truncate len mem) (.returned 0)
      ⟨s.file.truncate len.toNat, s.handles⟩
  | ftruncate (s k len mem) (h : Handle) (hk : s.handles[k]? = some h) :
      Step limit u s (.ftruncate k len mem) (.returned 0) ⟨s.file.truncate len.toNat, s.handles⟩
  | notTruncated (s len mem) (hgrow : s.file.size < len.toNat) (hroom : NoTable limit mem.table len.toNat) :
      Step limit u s (.truncate len mem) (.returned Errno.ENOSPC.ret) s
  | notFtruncated (s k len mem) (h : Handle) (hk : s.handles[k]? = some h) (hgrow : s.file.size < len.toNat)
      (hroom : NoTable limit mem.table len.toNat) :
      Step limit u s (.ftruncate k len mem) (.returned Errno.ENOSPC.ret) s
  | noHandle (s op) (k : Nat) (hk : s.handles[k]? = none)
      (hop : (∃ size, op = .read k size) ∨ (∃ buf size mem, op = .write k buf size mem) ∨
        (∃ offset whence, op = .seek k offset whence) ∨ ∃ len mem, op = .ftruncate k len mem) :
      Step limit u s op (.returned Errno.EBADF.ret) s
  | others (s n) : Step limit u s (.others n) (.returned 0) s

/-- The inode holds the array, and the handles are those of the array. -/
structure FileState.Refines (s : FileState) (t : FileSpec) : Prop where
  holds : s.inode.Holds t.file
  handles : s.handles = t.handles

theorem set_self {l : List Handle} {k : Nat} {h : Handle} (hk : l[k]? = some h) : l.set k h = l := by
  obtain ⟨hlt, rfl⟩ := List.getElem?_eq_some_iff.1 hk
  exact List.set_getElem_self hlt

section
variable {limit : Nat} {s : FileState} {t : FileSpec}

section
variable (h : s.Refines t)
include h

theorem FileState.Refines.atWrite (hd : Handle) : hd.atWrite s.inode = { hd with pos := t.writesAt hd } := by
  unfold Handle.atWrite FileSpec.writesAt
  rw [h.holds.size]
  split_ifs <;> rfl

theorem FileState.Refines.open (flags : UInt32) (alloc : Bool) :
    ∃ t', t.Step limit s.usedBytes (.open flags alloc) (s.step limit (.open flags alloc)).1 t' ∧
      (s.step limit (.open flags alloc)).2.Refines t' := by
  have hopen : ∃ s' : FileState, ∃ f : ByteFile,
      (if (⟨1, 0, flags⟩ : Handle).has vfsOTrunc then
        { s with
          inode := { (tmpfsFreeData s.inode s.usedBytes).1 with size := 0 }
          usedBytes := (tmpfsFreeData s.inode s.usedBytes).2 } else s) = s' ∧
      f = (if (⟨1, 0, flags⟩ : Handle).has vfsOTrunc then .empty else t.file) ∧
      s'.inode.Holds f ∧ s'.handles = t.handles := by
    split_ifs
    · exact ⟨_, _, rfl, rfl, .freeData _, h.handles⟩
    · exact ⟨_, _, rfl, rfl, h.holds, h.handles⟩
  obtain ⟨s', f, hs', hf, hholds, hhandles⟩ := hopen
  unfold FileState.step
  dsimp only
  rw [hs']
  cases alloc with
  | false => exact ⟨_, .notOpened t flags f hf, hholds, hhandles⟩
  | true =>
    refine ⟨_, .opened t flags f hf, hholds, ?_⟩
    have hr : FileState.Refines { s' with handles := [] } ⟨f, []⟩ := ⟨hholds, rfl⟩
    show s'.handles ++ [Handle.atWrite _ s'.inode] = _
    rw [hhandles, hr.atWrite]

theorem FileState.Refines.write (k : Nat) (buf : Bytes) (size : UInt32) (mem : Memory) :
    ∃ t', t.Step limit s.usedBytes (.write k buf size mem) (s.step limit (.write k buf size mem)).1 t' ∧
      (s.step limit (.write k buf size mem)).2.Refines t' := by
  have hs : s.handles[k]? = t.handles[k]? := by rw [h.handles]
  cases hk : t.handles[k]? with
  | none =>
    simp only [FileState.step, hs, hk]
    exact ⟨t, .noHandle t _ k hk (.inr (.inl ⟨buf, size, mem, rfl⟩)), h⟩
  | some hd =>
    simp only [FileState.step, hk, h.handles]
    rcases h.holds.write limit mem s.usedBytes hd buf size.toNat with
      ⟨hw, hflag⟩ | ⟨hflag, ⟨n', u', hw, hpos, hroom, hn'⟩ | ⟨n, n', u', hw, hle, hpos, hshort, hn'⟩⟩
    · rw [hw]
      exact ⟨_, .notWritable t k buf size mem hd hk hflag, h.holds, set_self hk⟩
    · rw [h.atWrite] at hw hroom
      rw [hw]
      exact ⟨_, .notWritten t k buf size mem hd hk hflag hpos hroom, hn', rfl⟩
    · rw [h.atWrite] at hw hn' hshort
      rw [hw]
      exact ⟨_, .write t k buf size mem hd n hk hflag hle hpos hshort, hn', rfl⟩

theorem FileState.Refines.seek (k : Nat) (offset : Int) (whence : Nat) :
    ∃ t', t.Step limit s.usedBytes (.seek k offset whence) (s.step limit (.seek k offset whence)).1 t' ∧
      (s.step limit (.seek k offset whence)).2.Refines t' := by
  have hs : s.handles[k]? = t.handles[k]? := by rw [h.handles]
  cases hk : t.handles[k]? with
  | none =>
    simp only [FileState.step, hs, hk]
    exact ⟨t, .noHandle t _ k hk (.inr (.inr (.inl ⟨offset, whence, rfl⟩))), h⟩
  | some hd =>
    have hbase : (if whence = 0 then some 0 else if whence = 1 then some (hd.pos : Int)
        else if whence = 2 then some (s.inode.size : Int) else none) = t.base hd whence := by
      rw [FileSpec.base, h.holds.size]
    simp only [FileState.step, hk, h.handles, tmpfsSeek, hbase]
    cases hb : t.base hd whence with
    | none => exact ⟨t, .notSought t k offset whence hd hk (by simp [hb]), h.holds, set_self hk⟩
    | some b =>
      dsimp only
      split_ifs with hneg
      · refine ⟨t, .notSought t k offset whence hd hk fun b' hb' => ?_, h.holds, set_self hk⟩
        rw [hb] at hb'
        cases hb'
        exact hneg
      · exact ⟨_, .seek t k offset whence hd b hk hb (by omega), h.holds, rfl⟩

theorem FileState.Refines.truncated (hsize : s.inode.size ≤ 2 ^ 32 - 65536) (len : UInt64) (mem : Memory) :
    ((s.truncated limit len mem).1 = .returned Errno.ENOSPC.ret ∧ t.file.size < len.toNat ∧
      NoTable limit mem.table len.toNat ∧ (s.truncated limit len mem).2.Refines t) ∨
    ((s.truncated limit len mem).1 = .returned 0 ∧
      (s.truncated limit len mem).2.Refines ⟨t.file.truncate len.toNat, t.handles⟩) := by
  unfold FileState.truncated
  rcases h.holds.setLen hsize limit mem s.usedBytes len.toNat with
    ⟨n', u', hlen, hgrow, hroom, hn'⟩ | ⟨n', u', hlen, hn'⟩
  · rw [hlen]
    exact .inl ⟨rfl, hgrow, hroom, hn', h.handles⟩
  · rw [hlen]
    exact .inr ⟨rfl, hn', h.handles⟩

/-- **One call** on the file is one on the byte array, as long as the size leaves room for
a chunk below 2³². -/
theorem FileState.Refines.step (hsize : s.inode.size ≤ 2 ^ 32 - 65536)
    (op : FileOp) :
    ∃ t', t.Step limit s.usedBytes op (s.step limit op).1 t' ∧ (s.step limit op).2.Refines t' := by
  cases op with
  | «open» flags alloc => exact h.open flags alloc
  | close k => exact ⟨_, .close t k, h.holds, by rw [← h.handles]; rfl⟩
  | read k size =>
    have hs : s.handles[k]? = t.handles[k]? := by rw [h.handles]
    cases hk : t.handles[k]? with
    | none =>
      simp only [FileState.step, hs, hk]
      exact ⟨t, .noHandle t _ k hk (.inl ⟨size, rfl⟩), h⟩
    | some hd =>
      simp only [FileState.step, hk, h.handles]
      rw [h.holds.read, ByteFile.length_read]
      exact ⟨_, .read t k size hd hk, h.holds, rfl⟩
  | write k buf size mem => exact h.write k buf size mem
  | seek k offset whence => exact h.seek k offset whence
  | truncate len mem =>
    rcases h.truncated hsize len mem with ⟨hret, hgrow, hroom, href⟩ | ⟨hret, href⟩
    · exact ⟨t, hret ▸ .notTruncated t len mem hgrow hroom, href⟩
    · exact ⟨_, hret ▸ .truncate t len mem, href⟩
  | ftruncate k len mem =>
    have hs : s.handles[k]? = t.handles[k]? := by rw [h.handles]
    cases hk : t.handles[k]? with
    | none =>
      simp only [FileState.step, hs, hk]
      exact ⟨t, .noHandle t _ k hk (.inr (.inr (.inr ⟨len, mem, rfl⟩))), h⟩
    | some hd =>
      simp only [FileState.step, hs, hk]
      rcases h.truncated hsize len mem with ⟨hret, hgrow, hroom, href⟩ | ⟨hret, href⟩
      · exact ⟨t, hret ▸ .notFtruncated t k len mem hd hk hgrow hroom, href⟩
      · exact ⟨_, hret ▸ .ftruncate t k len mem hd hk, href⟩
  | others u => exact ⟨_, .others t u, h.holds, h.handles⟩

end

end

/-! ### Whole runs -/

/-- The outcomes of a sequence of calls, each with the bytes in use before the call, and the state
they leave. -/
def FileState.run (limit : Nat) : FileState → List FileOp → List (Nat × Outcome) × FileState
  | s, [] => ([], s)
  | s, op :: ops =>
    let r := FileState.run limit (s.step limit op).2 ops
    ((s.usedBytes, (s.step limit op).1) :: r.1, r.2)

inductive FileSpec.Run (limit : Nat) : FileSpec → List FileOp → List (Nat × Outcome) → FileSpec → Prop where
  | nil (s) : Run limit s [] [] s
  | cons {s s' s'' : FileSpec} {op : FileOp} {u : Nat} {out : Outcome} {ops : List FileOp}
      {outs : List (Nat × Outcome)} (h : s.Step limit u op out s') (hs : Run limit s' ops outs s'') :
      Run limit s (op :: ops) ((u, out) :: outs) s''

/-- The file's size leaves room for a chunk below 2³². -/
def FileState.SizeBounded (s : FileState) (_ : FileOp) : Prop := s.inode.size ≤ 2 ^ 32 - 65536

instance (s : FileState) (op : FileOp) : Decidable (s.SizeBounded op) :=
  inferInstanceAs (Decidable (_ ≤ _))

theorem FileState.Refines.run {limit : Nat} : ∀ {ops : List FileOp} {s : FileState} {t : FileSpec},
    s.Refines t → Along (fun s op => (s.step limit op).2) FileState.SizeBounded s ops →
    ∃ t', t.Run limit ops (s.run limit ops).1 t' ∧ (s.run limit ops).2.Refines t' := by
  intro ops
  induction ops with
  | nil => exact fun h _ => ⟨_, .nil _, h⟩
  | cons op ops ih =>
    intro s t h hops
    obtain ⟨t₁, hstep, h₁⟩ := h.step hops.1 op
    obtain ⟨t₂, hrun, h₂⟩ := ih h₁ hops.2
    exact ⟨t₂, .cons hstep hrun, h₂⟩

/-- `T_IFREG | 0644` -/
def regularMode : UInt32 := 0x81A4

/-- A file just created: no data, no handle. -/
def FileState.created (usedBytes : Nat) : FileState :=
  ⟨{ Inode.zero with used := true, mode := regularMode, nlink := 1 }, usedBytes, []⟩

/-- **The content of a file is a byte array.** Every sequence of calls on a new file,
through any handles, while other files take and give back chunks and allocations fail or
not, returns what it would return on a byte array: reads the last bytes written or zeros,
writes the number of bytes they stored. -/
theorem tmpfs_refines_file (limit usedBytes : Nat) (ops : List FileOp)
    (hops : Along (fun s op => (FileState.step limit s op).2) FileState.SizeBounded
      (.created usedBytes) ops) :
    ∃ t, FileSpec.Run limit ⟨.empty, []⟩ ops (FileState.run limit (.created usedBytes) ops).1 t ∧
      (FileState.run limit (.created usedBytes) ops).2.Refines t :=
  FileState.Refines.run ⟨⟨rfl, fun _ => rfl⟩, rfl⟩ hops

/-- A write past the end, a cut into it, and a read over the regrown bytes. -/
def cutAndRegrow : List FileOp :=
  [.open 0x03 true, .seek 0 65535 0, .write 0 (fun _ => 7) 2 ⟨true, fun _ => true⟩,
    .truncate 65536 ⟨true, fun _ => true⟩, .truncate 65540 ⟨true, fun _ => true⟩,
    .seek 0 65534 0, .read 0 4]

theorem tmpfs_refines_file_regrown :
    Along (fun s op => (FileState.step (2 ^ 26) s op).2) FileState.SizeBounded (.created 0)
      cutAndRegrow ∧
    ∃ t, FileSpec.Run (2 ^ 26) ⟨.empty, []⟩ cutAndRegrow
        (FileState.run (2 ^ 26) (.created 0) cutAndRegrow).1 t ∧
      (FileState.run (2 ^ 26) (.created 0) cutAndRegrow).2.Refines t := by
  have hops : Along (fun s op => (FileState.step (2 ^ 26) s op).2) FileState.SizeBounded
      (.created 0) cutAndRegrow := by
    decide +kernel
  exact ⟨hops, tmpfs_refines_file _ _ _ hops⟩

end InDevOS.Tmpfs
