import InDevOS.Lib.Ring

/-! Pipes (`pipe.c`).

A pipe is a circular buffer with a reader and a writer count. The last close of an end
decides under the lock that the pipe is to be destroyed and destroys it after dropping
the lock, so a run is an interleaving of lock-held sections in which the destruction is
a step of its own. `fifo_open` joins a pipe of a named FIFO only while an end is open.

The buffer is compared with a bounded queue of bytes (`Fifo`): every section returns what
the queue returns and leaves the buffer with the queue's bytes (`step_refines`). The
whole of it, over every interleaving, is `pipe_refines_fifo`. -/
namespace InDevOS.Ipc

open Lib

inductive PipeError where
  /-- `-1`: the pipe is gone. -/
  | gone
  /-- `-EAGAIN` -/
  | again
  /-- `-EPIPE` -/
  | epipe
deriving DecidableEq, Repr

/-- What a call returns: bytes read, the number of bytes written, or an error. -/
inductive PipeResult where
  | bytes (l : List UInt8)
  | wrote (n : Nat)
  | error (e : PipeError)
  | done
deriving DecidableEq, Repr

/-- `pipe_t` -/
structure Pipe where
  buffer : Nat → UInt8
  bufSize : Nat
  readPos : Nat
  writePos : Nat
  count : Nat
  readers : Nat
  writers : Nat
  active : Bool

def pipeBufSize : Nat := 4096

/-! ### The lock-held sections -/

def pipeCreate : Pipe where
  buffer := fun _ => 0
  bufSize := pipeBufSize
  readPos := 0
  writePos := 0
  count := 0
  readers := 1
  writers := 1
  active := true

/-- The pipe `fifo_open` makes for the first end of a FIFO that is opened. -/
def fifoCreate (rd : Bool) : Pipe :=
  { pipeCreate with readers := if rd then 1 else 0, writers := if rd then 0 else 1 }

section
variable (p : Pipe)

def pipeRead (n : Nat) : PipeResult × Pipe :=
  if !p.active then (.error .gone, p)
  else if p.count = 0 then (if p.writers = 0 then .bytes [] else .error .again, p)
  else
    let toRead := if n < p.count then n else p.count
    (.bytes (Ring.read p.bufSize p.readPos toRead p.buffer),
      { p with readPos := Ring.advance p.bufSize p.readPos toRead, count := p.count - toRead })

def pipeWrite (src : List UInt8) : PipeResult × Pipe :=
  if !p.active then (.error .epipe, p)
  else if p.readers = 0 then (.error .epipe, p)
  else
    let space := p.bufSize - p.count
    if space = 0 then (.error .again, p)
    else
      let toWrite := if src.length < space then src.length else space
      (.wrote toWrite,
        { p with
          buffer := Ring.write p.bufSize p.writePos (src.take toWrite) p.buffer
          writePos := Ring.advance p.bufSize p.writePos toWrite
          count := p.count + toWrite })

/-- The variants for the kernel main loop give up when the lock is `busy`. -/
def pipeTryRead (busy : Bool) (p : Pipe) (n : Nat) : PipeResult × Pipe :=
  if busy then (.error .again, p) else pipeRead p n

def pipeTryWrite (busy : Bool) (p : Pipe) (src : List UInt8) : PipeResult × Pipe :=
  if busy then (.error .again, p) else pipeWrite p src

/-- The pipe after an end is closed, and whether the caller goes on to destroy it. -/
def pipeCloseRead : Bool × Pipe :=
  if !p.active then (false, p)
  else
    let p := { p with readers := p.readers - 1 }
    (p.readers = 0 && p.writers = 0, p)

def pipeCloseWrite : Bool × Pipe :=
  if !p.active then (false, p)
  else
    let p := { p with writers := p.writers - 1 }
    (p.readers = 0 && p.writers = 0, p)

def pipeForkDupReader : Pipe := if !p.active then p else { p with readers := p.readers + 1 }

def pipeForkDupWriter : Pipe := if !p.active then p else { p with writers := p.writers + 1 }

/-- `fifo_open` on the pipe of a FIFO: one that has no open end is left to its closer. -/
def fifoOpen (rd : Bool) (p : Pipe) : Pipe :=
  if !p.active || p.readers + p.writers = 0 then p
  else if rd then { p with readers := p.readers + 1 } else { p with writers := p.writers + 1 }

def pipeDestroy : Pipe :=
  if !p.active then p
  else { p with
    active := false, bufSize := 0, readPos := 0, writePos := 0, count := 0, readers := 0, writers := 0 }

/-! ### Interleavings -/

/-- One lock-held section of some thread. -/
inductive PipeOp where
  | read (n : Nat)
  | write (src : List UInt8)
  | tryRead (busy : Bool) (n : Nat)
  | tryWrite (busy : Bool) (src : List UInt8)
  | closeRead
  | closeWrite
  | dupReader
  | dupWriter
  | fifoOpen (rd : Bool)
  /-- A closer that decided to destroy the pipe does so. -/
  | destroy
deriving DecidableEq, Repr

/-- The pipe, the closers on their way to destroy it, how often it was destroyed, and the
bytes that went in and out so far. -/
structure PipeRun where
  pipe : Pipe
  destroying : Nat
  destroyed : Nat
  accepted : List UInt8
  delivered : List UInt8

def PipeRun.start : PipeRun := ⟨p, 0, 0, [], []⟩

end

/-- The bytes a result hands over. -/
def PipeResult.out : PipeResult → List UInt8
  | .bytes l => l
  | _ => []

/-- The bytes of `src` a result accepts. -/
def PipeResult.taken (src : List UInt8) : PipeResult → List UInt8
  | .wrote n => src.take n
  | _ => []

def PipeRun.reading (s : PipeRun) (r : PipeResult × Pipe) : PipeResult × PipeRun :=
  (r.1, { s with pipe := r.2, delivered := s.delivered ++ r.1.out })

def PipeRun.writing (s : PipeRun) (src : List UInt8) (r : PipeResult × Pipe) : PipeResult × PipeRun :=
  (r.1, { s with pipe := r.2, accepted := s.accepted ++ r.1.taken src })

def PipeRun.closing (s : PipeRun) (r : Bool × Pipe) : PipeResult × PipeRun :=
  (.done, { s with pipe := r.2, destroying := s.destroying + if r.1 then 1 else 0 })

def PipeRun.step (s : PipeRun) : PipeOp → PipeResult × PipeRun
  | .read n => s.reading (pipeRead s.pipe n)
  | .write src => s.writing src (pipeWrite s.pipe src)
  | .tryRead busy n => s.reading (pipeTryRead busy s.pipe n)
  | .tryWrite busy src => s.writing src (pipeTryWrite busy s.pipe src)
  | .closeRead => s.closing (pipeCloseRead s.pipe)
  | .closeWrite => s.closing (pipeCloseWrite s.pipe)
  | .dupReader => (.done, { s with pipe := pipeForkDupReader s.pipe })
  | .dupWriter => (.done, { s with pipe := pipeForkDupWriter s.pipe })
  | .fifoOpen rd => (.done, { s with pipe := InDevOS.Ipc.fifoOpen rd s.pipe })
  | .destroy => (.done, { s with
      pipe := pipeDestroy s.pipe, destroying := s.destroying - 1, destroyed := s.destroyed + 1 })

def PipeRun.run (s : PipeRun) : List PipeOp → PipeRun
  | [] => s
  | op :: ops => (s.step op).2.run ops

/-- An end is closed or duplicated by a thread that holds one, and only a closer that
decided to destroys. -/
def PipeRun.allows (s : PipeRun) : PipeOp → Bool
  | .closeRead => 0 < s.pipe.readers
  | .closeWrite => 0 < s.pipe.writers
  | .dupReader => 0 < s.pipe.readers
  | .dupWriter => 0 < s.pipe.writers
  | .destroy => 0 < s.destroying
  | _ => true

def PipeRun.admissible (s : PipeRun) : List PipeOp → Bool
  | [] => true
  | op :: ops => s.allows op && (s.step op).2.admissible ops

/-- What the sections of a run return. -/
def PipeRun.results (s : PipeRun) : List PipeOp → List PipeResult
  | [] => []
  | op :: ops => (s.step op).1 :: (s.step op).2.results ops

/-! ### The queue -/

/-- A bounded queue of bytes with two ends that are opened and closed. -/
structure Fifo where
  data : List UInt8
  cap : Nat
  readers : Nat
  writers : Nat
  alive : Bool

namespace Fifo

def read (q : Fifo) (n : Nat) : PipeResult × Fifo :=
  if q.alive = false then (.error .gone, q)
  else if q.data = [] then (if q.writers = 0 then .bytes [] else .error .again, q)
  else (.bytes (q.data.take n), { q with data := q.data.drop n })

def write (q : Fifo) (src : List UInt8) : PipeResult × Fifo :=
  if q.alive = false ∨ q.readers = 0 then (.error .epipe, q)
  else if q.cap ≤ q.data.length then (.error .again, q)
  else
    let k := min src.length (q.cap - q.data.length)
    (.wrote k, { q with data := q.data ++ src.take k })

def step (q : Fifo) : PipeOp → PipeResult × Fifo
  | .read n => q.read n
  | .write src => q.write src
  | .tryRead busy n => if busy then (.error .again, q) else q.read n
  | .tryWrite busy src => if busy then (.error .again, q) else q.write src
  | .closeRead => (.done, { q with readers := q.readers - 1 })
  | .closeWrite => (.done, { q with writers := q.writers - 1 })
  | .dupReader => (.done, { q with readers := q.readers + 1 })
  | .dupWriter => (.done, { q with writers := q.writers + 1 })
  | .fifoOpen rd =>
    (.done,
      if q.readers = 0 ∧ q.writers = 0 then q
      else if rd then { q with readers := q.readers + 1 } else { q with writers := q.writers + 1 })
  | .destroy => (.done, ⟨[], 0, 0, 0, false⟩)

def results (q : Fifo) : List PipeOp → List PipeResult
  | [] => []
  | op :: ops => (q.step op).1 :: (q.step op).2.results ops

end Fifo

/-! ### The buffer holds the queue -/

/-- The bytes in the buffer, oldest first. -/
def Pipe.contents (p : Pipe) : List UInt8 := Ring.slice p.bufSize p.readPos p.count p.buffer

@[simp] theorem Pipe.length_contents (p : Pipe) : p.contents.length = p.count :=
  Ring.length_slice _ _ _

variable {p : Pipe} {s : PipeRun}

theorem Pipe.contents_eq_nil : p.contents = [] ↔ p.count = 0 := by
  rw [← List.length_eq_zero_iff, p.length_contents]

/-- The queue a pipe stands for. -/
def Pipe.fifo (p : Pipe) : Fifo := ⟨p.contents, p.bufSize, p.readers, p.writers, p.active⟩

/-- The positions and the count agree, and a pipe that is gone has nothing left. -/
structure Pipe.Ok (p : Pipe) : Prop where
  readPos_lt : p.active = true → p.readPos < p.bufSize
  count_le : p.count ≤ p.bufSize
  writePos_eq : p.writePos = (p.readPos + p.count) % p.bufSize
  gone : p.active = false → p.readers = 0 ∧ p.writers = 0

theorem fresh_ok (r w : Nat) : Pipe.Ok { pipeCreate with readers := r, writers := w } where
  readPos_lt _ := (by decide : 0 < pipeBufSize)
  count_le := Nat.zero_le _
  writePos_eq := rfl
  gone := by simp [pipeCreate]

theorem pipeRead_refines (h : p.Ok) (n : Nat) :
    (pipeRead p n).1 = (p.fifo.read n).1 ∧ (pipeRead p n).2.fifo = (p.fifo.read n).2 ∧
      (pipeRead p n).2.Ok := by
  unfold pipeRead Fifo.read
  cases hact : p.active with
  | false => simpa [Pipe.fifo, hact] using h
  | true =>
    by_cases hzero : p.count = 0
    · simpa [Pipe.fifo, hact, hzero, Pipe.contents_eq_nil] using h
    · have hpos := h.readPos_lt hact
      have hle := h.count_le
      have hmin : (if n < p.count then n else p.count) = min n p.count := by
        split <;> omega
      have hk : min n p.count ≤ p.count := Nat.min_le_right _ _
      have htake : p.contents.take n = Ring.slice p.bufSize p.readPos (min n p.count) p.buffer := by
        rw [← Ring.slice_take p.buffer hk, ← Pipe.contents]
        rcases Nat.le_total n p.count with hn | hn
        · rw [Nat.min_eq_left hn]
        · rw [Nat.min_eq_right hn, List.take_of_length_le (by simpa using hn),
            List.take_of_length_le (by simp)]
      have hdrop : p.contents.drop n = p.contents.drop (min n p.count) := by
        rcases Nat.le_total n p.count with hn | hn
        · rw [Nat.min_eq_left hn]
        · rw [Nat.min_eq_right hn, List.drop_of_length_le (by simpa using hn),
            List.drop_of_length_le (by simp)]
      have hne : p.fifo.data ≠ [] := fun hnil => hzero (Pipe.contents_eq_nil.1 hnil)
      have halive : p.fifo.alive ≠ false := by simp [Pipe.fifo, hact]
      rw [if_neg (by simp), if_neg hzero, if_neg halive, if_neg hne]
      simp only [hmin, Ring.read_eq_slice hpos, Ring.advance_eq hpos]
      refine ⟨by rw [Pipe.fifo, htake], ?_, ?_⟩
      · simp only [Pipe.fifo, hact, Fifo.mk.injEq, and_true]
        rw [hdrop]
        exact Ring.slice_drop p.buffer hk
      · refine ⟨fun _ => Nat.mod_lt _ (by omega), by simp only; omega, ?_, by simp⟩
        simp only [h.writePos_eq, Ring.slot_add]
        congr 1
        omega

theorem pipeWrite_refines (h : p.Ok) (src : List UInt8) :
    (pipeWrite p src).1 = (p.fifo.write src).1 ∧ (pipeWrite p src).2.fifo = (p.fifo.write src).2 ∧
      (pipeWrite p src).2.Ok := by
  unfold pipeWrite Fifo.write
  cases hact : p.active with
  | false => simpa [Pipe.fifo, hact] using h
  | true =>
    by_cases hr : p.readers = 0
    · simpa [Pipe.fifo, hact, hr] using h
    · have hpos := h.readPos_lt hact
      have hle := h.count_le
      have hlive : ¬ (p.fifo.alive = false ∨ p.fifo.readers = 0) := by simp [Pipe.fifo, hact, hr]
      rw [if_neg (by simp), if_neg hr, if_neg hlive]
      by_cases hfull : p.bufSize - p.count = 0
      · have hcap : p.fifo.cap ≤ p.fifo.data.length := by
          simp only [Pipe.fifo, Pipe.length_contents]
          omega
        rw [if_pos hfull, if_pos hcap]
        exact ⟨rfl, rfl, h⟩
      · have hcap : ¬ p.fifo.cap ≤ p.fifo.data.length := by
          simp only [Pipe.fifo, Pipe.length_contents]
          omega
        have hmin : (if src.length < p.bufSize - p.count then src.length else p.bufSize - p.count) =
            min src.length (p.fifo.cap - p.fifo.data.length) := by
          simp only [Pipe.fifo, Pipe.length_contents]
          split <;> omega
        rw [if_neg hfull, if_neg hcap]
        simp only [hmin]
        generalize hk : min src.length (p.fifo.cap - p.fifo.data.length) = k
        simp only [Pipe.fifo, Pipe.length_contents] at hk
        have hlen : (src.take k).length = k := by
          rw [List.length_take]
          omega
        have hw : p.writePos < p.bufSize := by
          rw [h.writePos_eq]
          exact Nat.mod_lt _ (by omega)
        refine ⟨trivial, ?_, ?_⟩
        · have hslice := Ring.slice_write (h := p.readPos) (l := src.take k) (b := p.buffer)
            (by omega : 0 < p.bufSize) (c := p.count) (by omega)
          rw [hlen, ← h.writePos_eq] at hslice
          simp only [Pipe.fifo, hact, Fifo.mk.injEq, and_true]
          exact hslice
        · refine ⟨fun _ => hpos, by simp only; omega, ?_, by simp⟩
          show Ring.advance p.bufSize p.writePos k = (p.readPos + (p.count + k)) % p.bufSize
          rw [Ring.advance_eq hw, h.writePos_eq, Ring.slot_add]

theorem Pipe.Ok.setEnds (h : p.Ok) (hact : p.active = true) (r w : Nat) :
    Pipe.Ok { p with readers := r, writers := w } where
  readPos_lt := h.readPos_lt
  count_le := h.count_le
  writePos_eq := h.writePos_eq
  gone := by simp [hact]

theorem Pipe.Ok.active_of_end (h : p.Ok) (hend : 0 < p.readers ∨ 0 < p.writers) :
    p.active = true := by
  cases hact : p.active with
  | true => rfl
  | false =>
    obtain ⟨hr, hw⟩ := h.gone hact
    omega

/-- A section returns what the queue returns and leaves the pipe standing for the queue
that results. -/
theorem step_refines (h : s.pipe.Ok) {op : PipeOp} (hop : s.allows op = true)
    (hdes : 0 < s.destroying → s.pipe.active = true) :
    (s.step op).1 = (s.pipe.fifo.step op).1 ∧ (s.step op).2.pipe.fifo = (s.pipe.fifo.step op).2 ∧
      (s.step op).2.pipe.Ok := by
  cases op with
  | read n => exact pipeRead_refines h n
  | write src => exact pipeWrite_refines h src
  | tryRead busy n =>
    cases busy with
    | true => exact ⟨rfl, rfl, h⟩
    | false => exact pipeRead_refines h n
  | tryWrite busy src =>
    cases busy with
    | true => exact ⟨rfl, rfl, h⟩
    | false => exact pipeWrite_refines h src
  | closeRead | dupReader =>
    have hact := h.active_of_end (.inl (of_decide_eq_true hop))
    simp only [PipeRun.step, PipeRun.closing, pipeCloseRead, pipeForkDupReader]
    rw [if_neg (by simp [hact])]
    exact ⟨rfl, rfl, h.setEnds hact _ _⟩
  | closeWrite | dupWriter =>
    have hact := h.active_of_end (.inr (of_decide_eq_true hop))
    simp only [PipeRun.step, PipeRun.closing, pipeCloseWrite, pipeForkDupWriter]
    rw [if_neg (by simp [hact])]
    exact ⟨rfl, rfl, h.setEnds hact _ _⟩
  | fifoOpen rd =>
    show _ ∧ (fifoOpen rd s.pipe).fifo = _ ∧ (fifoOpen rd s.pipe).Ok
    by_cases hnone : s.pipe.readers = 0 ∧ s.pipe.writers = 0
    · have hstep : fifoOpen rd s.pipe = s.pipe := if_pos (by simp [hnone])
      rw [hstep]
      exact ⟨rfl, (if_pos hnone).symm, h⟩
    · have hact := h.active_of_end (by omega)
      have hfifo : (s.pipe.fifo.step (.fifoOpen rd)).2 =
          if rd then { s.pipe.fifo with readers := s.pipe.readers + 1 }
          else { s.pipe.fifo with writers := s.pipe.writers + 1 } := if_neg hnone
      rw [fifoOpen, if_neg (by simpa [hact] using hnone), hfifo]
      cases rd with
      | true | false => exact ⟨rfl, rfl, h.setEnds hact _ _⟩
  | destroy =>
    have hact := hdes (of_decide_eq_true hop)
    simp only [PipeRun.step, pipeDestroy, hact]
    exact ⟨rfl, rfl, ⟨by simp, Nat.le_refl 0, rfl, fun _ => ⟨rfl, rfl⟩⟩⟩

theorem Fifo.read_conserves (q : Fifo) (n : Nat) :
    (q.read n).1.out ++ (q.read n).2.data = q.data := by
  unfold Fifo.read
  split_ifs
  all_goals simp [PipeResult.out]

theorem Fifo.write_conserves (q : Fifo) (src : List UInt8) :
    (q.write src).2.data = q.data ++ (q.write src).1.taken src := by
  unfold Fifo.write
  split_ifs
  all_goals simp [PipeResult.taken]

theorem Fifo.read_ends (q : Fifo) (n : Nat) :
    (q.read n).2.readers = q.readers ∧ (q.read n).2.writers = q.writers ∧
      (q.read n).2.alive = q.alive := by
  unfold Fifo.read
  split_ifs
  all_goals exact ⟨rfl, rfl, rfl⟩

theorem Fifo.write_ends (q : Fifo) (src : List UInt8) :
    (q.write src).2.readers = q.readers ∧ (q.write src).2.writers = q.writers ∧
      (q.write src).2.alive = q.alive := by
  unfold Fifo.write
  split_ifs
  all_goals exact ⟨rfl, rfl, rfl⟩

/-! ### Every interleaving -/

/-- What holds between two sections. -/
structure PipeRun.Sound (s : PipeRun) : Prop where
  ok : s.pipe.Ok
  kept : s.pipe.active = true → s.delivered ++ s.pipe.contents = s.accepted
  order : s.delivered <+: s.accepted
  ends : s.destroyed + s.destroying = if s.pipe.readers = 0 ∧ s.pipe.writers = 0 then 1 else 0
  active_iff : s.pipe.active = true ↔ s.destroyed = 0

theorem PipeRun.Sound.active_of_destroying (h : s.Sound) (hd : 0 < s.destroying) :
    s.pipe.active = true := by
  have hends := h.ends
  apply h.active_iff.2
  split at hends <;> omega

theorem start_sound (h : p.Ok) (hact : p.active = true) (hcount : p.count = 0)
    (hend : ¬ (p.readers = 0 ∧ p.writers = 0)) : (PipeRun.start p).Sound where
  ok := h
  kept _ := Pipe.contents_eq_nil.2 hcount
  order := List.prefix_refl _
  ends := (if_neg hend).symm
  active_iff := iff_of_true hact rfl

section
variable (h : s.Sound)
include h

theorem PipeRun.Sound.transfer (out inn : List UInt8)
    (hok : p.Ok) (hdata : out ++ p.contents = s.pipe.contents ++ inn)
    (hends : p.readers = s.pipe.readers ∧ p.writers = s.pipe.writers ∧ p.active = s.pipe.active)
    (hgone : s.pipe.active = false → out = []) :
    PipeRun.Sound { s with
      pipe := p, accepted := s.accepted ++ inn, delivered := s.delivered ++ out } := by
  obtain ⟨hr, hw, hact⟩ := hends
  have hkept (ha : s.pipe.active = true) :
      (s.delivered ++ out) ++ p.contents = s.accepted ++ inn := by
    rw [List.append_assoc, hdata, ← List.append_assoc, h.kept ha]
  refine ⟨hok, fun ha => hkept (hact.symm.trans ha), ?_, ?_, ?_⟩
  · cases ha : s.pipe.active with
    | true => exact ⟨_, hkept ha⟩
    | false =>
      show s.delivered ++ out <+: s.accepted ++ inn
      rw [hgone ha, List.append_nil]
      exact h.order.trans (List.prefix_append _ _)
  · show s.destroyed + s.destroying = if p.readers = 0 ∧ p.writers = 0 then 1 else 0
    rw [hr, hw]
    exact h.ends
  · show p.active = true ↔ s.destroyed = 0
    rw [hact]
    exact h.active_iff

theorem PipeRun.Sound.read (n : Nat) : (s.reading (pipeRead s.pipe n)).2.Sound := by
  obtain ⟨hres, hfifo, hok⟩ := pipeRead_refines h.ok n
  have hends := s.pipe.fifo.read_ends n
  have hdata := s.pipe.fifo.read_conserves n
  rw [← hfifo] at hends hdata
  rw [← hres] at hdata
  simpa [PipeRun.reading] using h.transfer _ [] hok (by simpa [Pipe.fifo] using hdata) hends fun hgone => by
    simp [pipeRead, hgone, PipeResult.out]

theorem PipeRun.Sound.write (src : List UInt8) : (s.writing src (pipeWrite s.pipe src)).2.Sound := by
  obtain ⟨hres, hfifo, hok⟩ := pipeWrite_refines h.ok src
  have hends := s.pipe.fifo.write_ends src
  have hdata := s.pipe.fifo.write_conserves src
  rw [← hfifo] at hends hdata
  rw [← hres] at hdata
  simpa [PipeRun.writing] using h.transfer [] _ hok hdata hends fun _ => rfl

theorem PipeRun.Sound.opened (hact : s.pipe.active = true) {r w : Nat}
    (hold : ¬ (s.pipe.readers = 0 ∧ s.pipe.writers = 0)) (hnew : ¬ (r = 0 ∧ w = 0)) :
    PipeRun.Sound { s with pipe := { s.pipe with readers := r, writers := w } } := by
  have hends := h.ends
  rw [if_neg hold] at hends
  exact ⟨h.ok.setEnds hact r w, h.kept, h.order, hends.trans (if_neg hnew).symm, h.active_iff⟩

/-- Closing an end: the one who closes the last destroys the pipe. -/
theorem PipeRun.Sound.closed (hact : s.pipe.active = true) (r w : Nat)
    (hold : ¬ (s.pipe.readers = 0 ∧ s.pipe.writers = 0)) :
    (s.closing (r = 0 && w = 0, { s.pipe with readers := r, writers := w })).2.Sound := by
  have hends := h.ends
  rw [if_neg hold] at hends
  refine ⟨h.ok.setEnds hact r w, h.kept, h.order, ?_, h.active_iff⟩
  show s.destroyed + (s.destroying + if (decide (r = 0) && decide (w = 0)) = true then 1 else 0) =
    if r = 0 ∧ w = 0 then 1 else 0
  rw [← Nat.add_assoc, hends, Nat.zero_add]
  simp

theorem step_sound {op : PipeOp} (hop : s.allows op = true) : (s.step op).2.Sound := by
  cases op with
  | read n => exact h.read n
  | write src => exact h.write src
  | tryRead busy n =>
    cases busy with
    | true => simpa [PipeRun.step, PipeRun.reading, pipeTryRead, PipeResult.out] using h
    | false => exact h.read n
  | tryWrite busy src =>
    cases busy with
    | true => simpa [PipeRun.step, PipeRun.writing, pipeTryWrite, PipeResult.taken] using h
    | false => exact h.write src
  | closeRead =>
    have hr : 0 < s.pipe.readers := of_decide_eq_true hop
    have hact := h.ok.active_of_end (.inl hr)
    have hs := h.closed hact (s.pipe.readers - 1) s.pipe.writers (by omega)
    simpa [PipeRun.step, pipeCloseRead, hact] using hs
  | closeWrite =>
    have hw : 0 < s.pipe.writers := of_decide_eq_true hop
    have hact := h.ok.active_of_end (.inr hw)
    have hs := h.closed hact s.pipe.readers (s.pipe.writers - 1) (by omega)
    simpa [PipeRun.step, pipeCloseWrite, hact] using hs
  | dupReader =>
    have hr : 0 < s.pipe.readers := of_decide_eq_true hop
    have hact := h.ok.active_of_end (.inl hr)
    have hs := h.opened hact (r := s.pipe.readers + 1) (w := s.pipe.writers) (by omega) (by omega)
    simpa [PipeRun.step, pipeForkDupReader, hact] using hs
  | dupWriter =>
    have hw : 0 < s.pipe.writers := of_decide_eq_true hop
    have hact := h.ok.active_of_end (.inr hw)
    have hs := h.opened hact (r := s.pipe.readers) (w := s.pipe.writers + 1) (by omega) (by omega)
    simpa [PipeRun.step, pipeForkDupWriter, hact] using hs
  | fifoOpen rd =>
    show PipeRun.Sound { s with pipe := fifoOpen rd s.pipe }
    by_cases hnone : s.pipe.readers = 0 ∧ s.pipe.writers = 0
    · rw [fifoOpen, if_pos (by simp [hnone])]
      exact h
    · have hact := h.ok.active_of_end (by omega)
      rw [fifoOpen, if_neg (by simpa [hact] using hnone)]
      cases rd with
      | true | false => exact h.opened hact hnone (by omega)
  | destroy =>
    have hd : 0 < s.destroying := of_decide_eq_true hop
    have hact := h.active_of_destroying hd
    have hzero := h.active_iff.1 hact
    have hends := h.ends
    have hrest := (step_refines h.ok hop h.active_of_destroying).2.2
    refine ⟨hrest, ?_, h.order, ?_, ?_⟩
    · simp [PipeRun.step, pipeDestroy, hact]
    · simp only [PipeRun.step, pipeDestroy, hact]
      split at hends <;> simp <;> omega
    · simp [PipeRun.step, pipeDestroy, hact]

theorem run_sound {ops : List PipeOp} (hops : s.admissible ops = true) : (s.run ops).Sound := by
  induction ops generalizing s with
  | nil => exact h
  | cons op ops ih =>
    rw [PipeRun.admissible, Bool.and_eq_true] at hops
    exact ih (step_sound h hops.1) hops.2

theorem results_eq {ops : List PipeOp} (hops : s.admissible ops = true) :
    s.results ops = s.pipe.fifo.results ops := by
  induction ops generalizing s with
  | nil => rfl
  | cons op ops ih =>
    rw [PipeRun.admissible, Bool.and_eq_true] at hops
    obtain ⟨hres, hfifo, -⟩ := step_refines h.ok hops.1 h.active_of_destroying
    rw [PipeRun.results, Fifo.results, hres, ih (step_sound h hops.1) hops.2, hfifo]

end

/-- How many bytes a section asks to read. -/
def PipeOp.asks : PipeOp → Nat
  | .read n => n
  | .tryRead _ n => n
  | _ => 0

theorem pipeRead_eof (h : p.Ok) {n : Nat} (hn : 0 < n) (he : (pipeRead p n).1 = .bytes []) :
    p.count = 0 ∧ p.writers = 0 := by
  rw [(pipeRead_refines h n).1, Fifo.read] at he
  split_ifs at he with hgone hempty hw
  · exact ⟨Pipe.contents_eq_nil.1 hempty, hw⟩
  · have hnil : p.fifo.data.take n = [] := PipeResult.bytes.inj he
    simp [hempty, hn.ne'] at hnil

theorem step_eof (h : s.pipe.Ok) {op : PipeOp} (hn : 0 < op.asks)
    (he : (s.step op).1 = .bytes []) : s.pipe.count = 0 ∧ s.pipe.writers = 0 := by
  cases op with
  | read n => exact pipeRead_eof h hn he
  | tryRead busy n =>
    cases busy with
    | true => exact PipeResult.noConfusion he
    | false => exact pipeRead_eof h hn he
  | _ => exact absurd hn (Nat.lt_irrefl 0)

theorem pipeWrite_epipe (h : p.Ok) {src : List UInt8}
    (he : (pipeWrite p src).1 = .error .epipe) : p.readers = 0 := by
  rw [(pipeWrite_refines h src).1, Fifo.write] at he
  split_ifs at he with hgone
  · obtain hdead | hr := hgone
    · exact (h.gone hdead).1
    · exact hr
  · cases he

theorem pipeRead_ne_epipe (p : Pipe) (n : Nat) : (pipeRead p n).1 ≠ .error .epipe := by
  unfold pipeRead
  split_ifs
  all_goals simp

theorem step_epipe (h : s.pipe.Ok) {op : PipeOp} (he : (s.step op).1 = .error .epipe) :
    s.pipe.readers = 0 := by
  cases op with
  | read n => exact absurd he (pipeRead_ne_epipe _ n)
  | write src => exact pipeWrite_epipe h he
  | tryRead busy n =>
    cases busy with
    | true => cases he
    | false => exact absurd he (pipeRead_ne_epipe _ n)
  | tryWrite busy src =>
    cases busy with
    | true => cases he
    | false => exact pipeWrite_epipe h he
  | _ => cases he

/-- **A pipe refines a bounded queue of bytes**, over every interleaving of its sections:
they return what the queue returns; the bytes read are the first of those accepted; the
count fits the buffer and its positions; the end of the stream and a broken pipe are
reported only when they are there; and the pipe is destroyed once, by the closer that
leaves both counts zero, and at no other time. -/
theorem pipe_refines_fifo (p : Pipe) (hp : p = pipeCreate ∨ ∃ rd, p = fifoCreate rd)
    (ops : List PipeOp) (hops : (PipeRun.start p).admissible ops = true) :
    let s := (PipeRun.start p).run ops
    (PipeRun.start p).results ops = p.fifo.results ops ∧
    s.delivered <+: s.accepted ∧
    (s.pipe.count ≤ s.pipe.bufSize ∧ s.pipe.writePos = (s.pipe.readPos + s.pipe.count) % s.pipe.bufSize) ∧
    (∀ op : PipeOp, 0 < op.asks → (s.step op).1 = .bytes [] → s.pipe.count = 0 ∧ s.pipe.writers = 0) ∧
    (∀ op, (s.step op).1 = .error .epipe → s.pipe.readers = 0) ∧
    (s.destroyed + s.destroying = if s.pipe.readers = 0 ∧ s.pipe.writers = 0 then 1 else 0) ∧
    (s.pipe.active = false ↔ s.destroyed = 1) := by
  have hstart : (PipeRun.start p).Sound := by
    obtain rfl | ⟨rd, rfl⟩ := hp
    · exact start_sound (fresh_ok 1 1) rfl rfl (by decide)
    · exact start_sound (fresh_ok _ _) rfl rfl (by cases rd <;> decide)
  have hs := run_sound hstart hops
  refine ⟨results_eq hstart hops, hs.order, ⟨hs.ok.count_le, hs.ok.writePos_eq⟩,
    fun op => step_eof hs.ok, fun op => step_epipe hs.ok, hs.ends, ?_⟩
  have hends := hs.ends
  have hactive := hs.active_iff
  cases hact : ((PipeRun.start p).run ops).pipe.active with
  | true =>
    have := hactive.1 hact
    simp only [Bool.true_eq_false, false_iff]
    omega
  | false =>
    rw [hact] at hactive
    simp only [Bool.false_eq_true, false_iff] at hactive
    simp only [true_iff]
    split at hends <;> omega

/-- Two bytes go through, the writer closes, the rest is read and then the end of the
stream; the reader's close is the last. -/
theorem pipe_refines_fifo_session :
    (PipeRun.start pipeCreate).results [.write [1, 2, 3], .read 2, .closeWrite, .read 5, .read 5,
        .closeRead, .destroy] =
      [.wrote 3, .bytes [1, 2], .done, .bytes [3], .bytes [], .done, .done] ∧
    (pipeCreate.fifo.results [.write [1, 2, 3], .read 2, .closeWrite, .read 5, .read 5,
        .closeRead, .destroy] =
      [.wrote 3, .bytes [1, 2], .done, .bytes [3], .bytes [], .done, .done]) := by
  have hrun := (pipe_refines_fifo pipeCreate (.inl rfl) [.write [1, 2, 3], .read 2, .closeWrite,
    .read 5, .read 5, .closeRead, .destroy] (by decide +kernel)).1
  have hpipe : (PipeRun.start pipeCreate).results [.write [1, 2, 3], .read 2, .closeWrite, .read 5,
      .read 5, .closeRead, .destroy] =
      [.wrote 3, .bytes [1, 2], .done, .bytes [3], .bytes [], .done, .done] := by decide +kernel
  exact ⟨hpipe, hrun ▸ hpipe⟩

end InDevOS.Ipc
