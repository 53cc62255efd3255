import InDevOS.Lib.Bytes
import InDevOS.Lib.Walk

/-! Playing a WAV file (`mixer_play_wav` in `audio_mixer.c`).

The function walks over the chunks of the file until it finds the one tagged `data`. Its
offset and all sums are 32 bits wide, and a chunk may have any 32-bit size: the walk can be
sent back, and the end of the samples can wrap to a small number.

The file is in memory from address 0 on; a tag or size read behind its end is whatever stands
there. `play_wav_iff` says when the walk ends with samples inside the file. -/
namespace InDevOS.Audio
open Lib

variable {wav : Bytes} {size : UInt32} {off : Nat}

def wrap (n : Nat) : Nat := n % 2 ^ 32

/-- A 16-bit field. -/
def get16 (wav : Bytes) (off : Nat) : Nat := (wav off).toNat + 256 * (wav (off + 1)).toNat

/-- The four characters at `off`; the index wraps, the address of a field does not. -/
def tagged (wav : Bytes) (off : Nat) (tag : List UInt8) : Bool :=
  (List.range 4).map (fun i => wav (wrap (off + i))) == tag

def riff : List UInt8 := [82, 73, 70, 70]
def wave : List UInt8 := [87, 65, 86, 69]
def data : List UInt8 := [100, 97, 116, 97]

/-- `audio_format_t` -/
structure Format where
  channels : Nat
  sampleRate : Nat
  bits : Nat

/-- What `mixer_play` is given to play. -/
structure Sound where
  offset : Nat
  size : Nat
  format : Format

/-- The chunk behind the one at `off`, as long as the loop goes on. -/
def nextChunk (wav : Bytes) (size : UInt32) (off : Nat) : Option Nat :=
  if wrap (off + 8) < size.toNat ∧ tagged wav off data = false then
    some (wrap (off + (8 + wav.get32 (off + 4))))
  else none

/-- `data_offset` and `data_size` when the loop has stopped at `off`. -/
def found (wav : Bytes) (size : UInt32) (off : Nat) : Nat × Nat :=
  if wrap (off + 8) < size.toNat then (wrap (off + 8), wav.get32 (off + 4)) else (off, 0)

section
variable (ready : Bool) (wav : Bytes) (size : UInt32)

/-- The checks before the loop. -/
def accepted : Bool :=
  ready && decide (44 ≤ size.toNat) && tagged wav 0 riff && tagged wav 8 wave && get16 wav 20 == 1

/-- `mixer_play_wav`: `none` if the loop has not ended within its fuel, else what is handed
to `mixer_play`. -/
def mixerPlayWav (fuel : Nat) : Option (Option Sound) :=
  if accepted ready wav size then
    (halt (nextChunk wav size) fuel 12).map fun stop =>
      let offset := (found wav size stop).1
      let length := (found wav size stop).2
      if length = 0 then none
      else
        some
          { offset := offset
            size := if size.toNat < wrap (offset + length) then size.toNat - offset else length
            format := ⟨get16 wav 22, wav.get32 24, get16 wav 34⟩ }
  else some none

/-- The samples of the chunk do not end beyond 2^32 at what looks like an end in the file. -/
def EndFits (wav : Bytes) (size : UInt32) (off : Nat) : Prop :=
  let d := found wav size off
  d.2 ≠ 0 → wrap (d.1 + d.2) ≤ size.toNat → d.1 + d.2 < 2 ^ 32

/-- The call returns, and what it plays lies in the file. -/
def PlaysInside : Prop :=
  ∃ fuel out, mixerPlayWav ready wav size fuel = some out ∧ ∀ s ∈ out, s.offset + s.size ≤ size.toNat

end

theorem nextChunk_lt (x next : Nat) (h : nextChunk wav size x = some next) : next < 2 ^ 32 := by
  unfold nextChunk at h
  split at h
  · cases h
    exact Nat.mod_lt _ (by decide)
  · cases h

/-- The length is cut off at the end of the file only if the sum has not wrapped. -/
theorem endFits_iff : EndFits wav size off ↔ let d := found wav size off
    d.2 ≠ 0 → d.1 + (if size.toNat < wrap (d.1 + d.2) then size.toNat - d.1 else d.2) ≤ size.toNat := by
  have hsize := size.toNat_lt
  by_cases h : wrap (off + 8) < size.toNat
  · simp only [EndFits, found, h, if_true]
    split <;> simp only [wrap] at * <;> omega
  · simp [EndFits, found, h]

theorem playsInside_iff {ready : Bool} (h : accepted ready wav size = true) :
    PlaysInside ready wav size ↔
      ∃ n off, follow (nextChunk wav size) n 12 = some off ∧ nextChunk wav size off = none ∧
        EndFits wav size off := by
  simp only [PlaysInside, mixerPlayWav, h, if_true, Option.map_eq_some_iff, endFits_iff]
  constructor
  · rintro ⟨fuel, out, ⟨off, hoff, rfl⟩, hin⟩
    obtain ⟨n, hn, hend⟩ := halt_eq_some_iff.1 ⟨fuel, hoff⟩
    exact ⟨n, off, hn, hend, fun hlen => by simpa [hlen] using hin⟩
  · rintro ⟨n, off, hn, hend, hin⟩
    obtain ⟨fuel, hoff⟩ := halt_eq_some_iff.2 ⟨n, hn, hend⟩
    refine ⟨fuel, _, ⟨off, hoff, rfl⟩, fun s hs => ?_⟩
    split at hs
    · cases hs
    · cases hs
      exact hin ‹_›

/-- The walk over the chunks ends with samples inside the file exactly if it comes to no
offset twice and the samples do not end beyond 2^32. No offset comes twice where no chunk
ends beyond 2^32. -/
theorem play_wav_iff (ready : Bool) (wav : Bytes) (size : UInt32) :
    (PlaysInside ready wav size ↔ (accepted ready wav size = true → ¬ Returns (nextChunk wav size) 12 ∧
      ∀ n off, follow (nextChunk wav size) n 12 = some off → nextChunk wav size off = none →
        EndFits wav size off)) ∧
    ((∀ n off, follow (nextChunk wav size) n 12 = some off → off + (8 + wav.get32 (off + 4)) < 2 ^ 32) →
      ¬ Returns (nextChunk wav size) 12) := by
  constructor
  · cases h : accepted ready wav size with
    | false => simp [PlaysInside, mixerPlayWav, h]
    | true =>
      rw [playsInside_iff h, stops_iff (Set.finite_Iio (2 ^ 32)) (by decide) nextChunk_lt]
      simp
  · intro hfits
    apply not_returns_of_lt
    intro n x y hx hy
    unfold nextChunk at hy
    split at hy
    · cases hy
      rw [wrap, Nat.mod_eq_of_lt (hfits n x hx)]
      omega
    · cases hy

/-- A file of 44 bytes whose first chunk has the size 2^32 - 8. -/
def endless : Bytes := fun i =>
  (riff ++ [36, 0, 0, 0] ++ wave ++ [102, 109, 116, 32, 248, 255, 255, 255, 1, 0]).getD i 0

theorem endless_not_played : accepted true endless 44 = true ∧ ¬ PlaysInside true endless 44 := by
  have hnext : nextChunk endless 44 12 = some 12 := by decide
  refine ⟨by decide, fun h => ?_⟩
  obtain ⟨n, off, hn, hend, -⟩ := (playsInside_iff (by decide)).1 h
  have hstay : follow (nextChunk endless 44) n 12 = some 12 := by
    clear hn
    induction n with
    | zero => rfl
    | succ n ih => rw [follow, hnext, Option.bind_some, ih]
  rw [hstay, Option.some.injEq] at hn
  rw [← hn, hnext] at hend
  cases hend

end InDevOS.Audio
