import InDevOS.Lib.Pieces

/-! Fragmentation and reassembly of IPv4 datagrams (`net_ip.c`).

`ip_send_packet` cuts a payload that does not fit a frame into chunks of 1480 bytes. The
receiver keeps the pieces of a datagram sorted by offset; after each it compares the bytes
received with the total length, known from the last fragment, and then walks the pieces
to see that they are contiguous. All lengths are 16-bit, which is safe because
`ip_handle_packet` drops a fragment that reaches past 65535.

`fragments_reassemble`: cutting and reassembling are inverse in every order of arrival,
and whatever the fragments are, a datagram is only complete when the pieces tile it. -/
namespace InDevOS.Net

open Lib List

def ipMtu : Nat := 1500
def ipFlagDF : Nat := 0x4000
def ipFlagMF : Nat := 0x2000
def ipFragMaxSize : Nat := 65535

/-- Max payload per fragment: rounded down to an 8-byte boundary. -/
def maxFragPayload : Nat := (ipMtu - 20) / 8 * 8

/-- A fragment on the wire: the `flags_fragment` field and the data. -/
structure Frag where
  flagsFragment : Nat
  payload : List UInt8
deriving DecidableEq, Repr

/-! ### Sending -/

section
variable (payload : List UInt8) (offset : Nat)

/-- Whether the chunk at `offset` is followed by another. -/
def moreAfter : Bool :=
  maxFragPayload < payload.length - offset

def chunkAt : Nat :=
  if moreAfter payload offset then maxFragPayload else payload.length - offset

/-- The frame `ip_send_packet` sends for the chunk at `offset`. -/
def fragAt : Frag where
  flagsFragment := if moreAfter payload offset then offset / 8 ||| ipFlagMF else offset / 8
  payload := (payload.drop offset).take (chunkAt payload offset)

end

/-- The fragmentation loop of `ip_send_packet`, from `offset` on. -/
def fragLoop (payload : List UInt8) : (fuel offset : Nat) → List Frag
  | 0, _ => []
  | fuel + 1, offset =>
    if offset < payload.length then
      fragAt payload offset :: fragLoop payload fuel (offset + chunkAt payload offset)
    else []

/-- The frames `ip_send_packet` puts on the wire: one that must not be fragmented, or the
fragments. -/
def ipSendPacket (payload : List UInt8) : List Frag :=
  if payload.length ≤ ipMtu - 20 then [⟨ipFlagDF, payload⟩] else fragLoop payload payload.length 0

/-! ### Receiving -/

def Frag.moreFragments (f : Frag) : Bool := f.flagsFragment &&& ipFlagMF != 0

/-- `frag_offset`, in bytes. -/
def Frag.offset (f : Frag) : Nat := (f.flagsFragment &&& 0x1FFF) * 8

/-- `ip_frag_slot_t`: the pieces of one datagram. -/
structure FragSlot where
  totalLen : Nat
  receivedBytes : Nat
  pieces : List (Piece UInt8)
deriving DecidableEq, Repr

/-- A slot as `ip_frag_find_or_create` hands it out. -/
def FragSlot.fresh : FragSlot := ⟨0, 0, []⟩

/-- The contiguity walk, with a 16-bit `expected_offset`. -/
def contiguous : (expectedOffset : Nat) → List (Piece UInt8) → Option Nat
  | e, [] => some e
  | e, p :: l => if p.offset ≠ e then none else contiguous ((e + p.data.length) % 65536) l

/-- The slot with a piece inserted and the lengths brought up to date. -/
def FragSlot.add (slot : FragSlot) (offset : Nat) (data : List UInt8) (moreFragments : Bool) :
    FragSlot where
  pieces := Piece.insert ⟨offset, data⟩ slot.pieces
  receivedBytes := (slot.receivedBytes + data.length) % 65536
  totalLen := if moreFragments then slot.totalLen else (offset + data.length) % 65536

def FragSlot.complete (slot : FragSlot) : Bool :=
  if 0 < slot.totalLen ∧ slot.totalLen ≤ slot.receivedBytes then
    contiguous 0 slot.pieces == some slot.totalLen
  else false

/-- Whether the datagram is complete, and the slot with the piece added. `alloc` says
whether memory was there; there is none to be had for an empty piece. -/
def ipFragAdd (alloc : Bool) (slot : FragSlot) (offset : Nat) (data : List UInt8)
    (moreFragments : Bool) : Bool × FragSlot :=
  if alloc = false ∨ data.length = 0 then (false, slot)
  else
    let slot := slot.add offset data moreFragments
    (slot.complete, slot)

/-- The part of `ip_handle_packet` that hands a fragment to its slot. -/
def ipHandleFragment (alloc : Bool) (slot : FragSlot) (f : Frag) : Bool × FragSlot :=
  if f.moreFragments || 0 < f.offset then
    if ipFragMaxSize < f.offset + f.payload.length then (false, slot)
    else ipFragAdd alloc slot f.offset f.payload f.moreFragments
  else (false, slot)

/-- The datagram of a slot; `buf` is what the new buffer happens to hold. -/
def ipFragReassemble (slot : FragSlot) (buf : Nat → UInt8) : Option (List UInt8) :=
  if slot.totalLen = 0 then none
  else some ((List.range slot.totalLen).map (Piece.lay slot.pieces buf))

/-- Fragments arriving one after the other, with the outcome of each. -/
def arrive (slot : FragSlot) : List (Bool × Frag) → List Bool × FragSlot
  | [] => ([], slot)
  | (alloc, f) :: rest =>
    let r := ipHandleFragment alloc slot f
    (r.1 :: (arrive r.2 rest).1, (arrive r.2 rest).2)

/-! ### Complete datagrams are tiled -/

/-- No piece reaches past the largest datagram. -/
def FragSlot.Bounded (s : FragSlot) : Prop :=
  ∀ p ∈ s.pieces, p.offset + p.data.length ≤ ipFragMaxSize

/-- The walk over bounded pieces does not wrap. -/
theorem contiguous_eq_some {l : List (Piece UInt8)} {e t : Nat}
    (hb : ∀ p ∈ l, p.offset + p.data.length ≤ ipFragMaxSize) :
    contiguous e l = some t ↔ Piece.Tiles e t l := by
  induction l generalizing e with
  | nil => exact Option.some_inj
  | cons p l ih =>
    have hp := hb p mem_cons_self
    have hl : ∀ q ∈ l, q.offset + q.data.length ≤ ipFragMaxSize := fun q hq =>
      hb q (mem_cons_of_mem p hq)
    rw [contiguous]
    by_cases hne : p.offset = e
    · subst hne
      have hmod : (p.offset + p.data.length) % 65536 = p.offset + p.data.length :=
        Nat.mod_eq_of_lt (Nat.lt_succ_of_le hp)
      rw [if_neg (by simp), hmod, ih hl]
      exact ⟨fun h => ⟨rfl, h⟩, fun h => h.2⟩
    · rw [if_pos hne]
      exact ⟨fun h => absurd h (by simp), fun h => absurd h.1 hne⟩

variable {payload : List UInt8} {offset n : Nat} {s : FragSlot} {done : List Frag}

theorem FragSlot.Bounded.add (hs : s.Bounded) {data : List UInt8}
    (hb : offset + data.length ≤ ipFragMaxSize) (more : Bool) : (s.add offset data more).Bounded := by
  intro p hp
  rcases mem_cons.1 ((Piece.insert_perm _ _).mem_iff.1 hp) with rfl | hp
  · exact hb
  · exact hs p hp

theorem FragSlot.Bounded.complete (hs : s.Bounded) (hc : s.complete = true) :
    0 < s.totalLen ∧ Piece.Tiles 0 s.totalLen s.pieces := by
  unfold FragSlot.complete at hc
  split_ifs at hc with hlen
  exact ⟨hlen.1, (contiguous_eq_some hs).1 (by simpa using hc)⟩

/-- A fragment is dropped, or is added as a piece that stays within bounds. -/
theorem ipHandleFragment_cases (alloc : Bool) (s : FragSlot) (f : Frag) :
    ipHandleFragment alloc s f = (false, s) ∨
      (f.offset + f.payload.length ≤ ipFragMaxSize ∧
        ipHandleFragment alloc s f =
          ((s.add f.offset f.payload f.moreFragments).complete,
            s.add f.offset f.payload f.moreFragments)) := by
  unfold ipHandleFragment ipFragAdd
  split_ifs with hfrag hbig hnone
  · exact .inl rfl
  · exact .inl rfl
  · exact .inr ⟨Nat.not_lt.1 hbig, rfl⟩
  · exact .inl rfl

theorem arrive_bounded (hs : s.Bounded) (frags : List (Bool × Frag)) :
    (arrive s frags).2.Bounded := by
  induction frags generalizing s with
  | nil => exact hs
  | cons af rest ih =>
    obtain hdrop | ⟨hb, hadd⟩ := ipHandleFragment_cases af.1 s af.2
    · show (arrive (ipHandleFragment af.1 s af.2).2 rest).2.Bounded
      rw [hdrop]
      exact ih hs
    · show (arrive (ipHandleFragment af.1 s af.2).2 rest).2.Bounded
      rw [hadd]
      exact ih (hs.add hb _)

/-- Completion is only reported for a slot whose pieces tile the datagram. -/
theorem ipHandleFragment_complete (hs : s.Bounded) {alloc : Bool} {f : Frag}
    (hc : (ipHandleFragment alloc s f).1 = true) :
    0 < (ipHandleFragment alloc s f).2.totalLen ∧
      Piece.Tiles 0 (ipHandleFragment alloc s f).2.totalLen (ipHandleFragment alloc s f).2.pieces := by
  obtain hdrop | ⟨hb, hadd⟩ := ipHandleFragment_cases alloc s f
  · rw [hdrop] at hc
    exact Bool.noConfusion hc
  · rw [hadd] at hc ⊢
    exact (hs.add hb _).complete hc

/-! ### The fragments of a payload -/

theorem and_ipFlagMF_of_lt {x : Nat} (h : x < 0x2000) : x &&& ipFlagMF = 0 := by
  have hbit := Nat.and_two_pow x 13
  rw [Nat.testBit_lt_two_pow h] at hbit
  simpa [ipFlagMF] using hbit

theorem or_ipFlagMF_of_lt {x : Nat} (h : x < 0x2000) : x ||| ipFlagMF = 0x2000 + x := by
  have hadd := Nat.two_pow_add_eq_or_of_lt (i := 13) h 1
  rw [Nat.or_comm]
  exact hadd.symm

theorem and_offset_mask (x : Nat) : x &&& 0x1FFF = x % 0x2000 := Nat.and_two_pow_sub_one_eq_mod x 13

/-- The piece a fragment becomes. -/
def Frag.piece (f : Frag) : Piece UInt8 := ⟨f.offset, f.payload⟩

/-- A fragment of a datagram of `n` bytes. -/
structure Frag.Of (n : Nat) (f : Frag) : Prop where
  nonempty : 0 < f.payload.length
  fits : f.offset + f.payload.length ≤ n
  last : f.moreFragments = false → f.offset + f.payload.length = n
  isFragment : f.moreFragments = true ∨ 0 < f.offset

theorem chunkAt_cases (payload : List UInt8) (offset : Nat) :
    moreAfter payload offset = true ∧ chunkAt payload offset = 1480 ∧ 1480 < payload.length - offset ∨
      moreAfter payload offset = false ∧ chunkAt payload offset = payload.length - offset ∧
        payload.length - offset ≤ 1480 := by
  unfold chunkAt
  cases hm : moreAfter payload offset with
  | true => exact .inl ⟨rfl, rfl, of_decide_eq_true hm⟩
  | false => exact .inr ⟨rfl, rfl, not_lt.1 (of_decide_eq_false hm)⟩

theorem length_fragAt (payload : List UInt8) (offset : Nat) :
    (fragAt payload offset).payload.length = chunkAt payload offset := by
  have hlen : (fragAt payload offset).payload.length =
      min (chunkAt payload offset) (payload.length - offset) := by
    rw [fragAt, length_take, length_drop]
  have := chunkAt_cases payload offset
  omega

/-- The header fields of a fragment say where it belongs and whether it is the last. -/
theorem fragAt_fields (payload : List UInt8) (h8 : 8 ∣ offset) (ho : offset < 65536) :
    (fragAt payload offset).offset = offset ∧
      (fragAt payload offset).moreFragments = moreAfter payload offset := by
  have hunits : offset / 8 < 0x2000 := by omega
  have hmul : offset / 8 * 8 = offset := Nat.div_mul_cancel h8
  cases hm : moreAfter payload offset with
  | true =>
    have hflags : (fragAt payload offset).flagsFragment = offset / 8 ||| ipFlagMF := if_pos hm
    constructor
    · rw [Frag.offset, hflags, or_ipFlagMF_of_lt hunits, and_offset_mask]
      omega
    · rw [Frag.moreFragments, hflags, Nat.and_or_distrib_right, and_ipFlagMF_of_lt hunits]
      decide
  | false =>
    have hflags : (fragAt payload offset).flagsFragment = offset / 8 := if_neg (by simp [hm])
    constructor
    · rw [Frag.offset, hflags, and_offset_mask]
      omega
    · rw [Frag.moreFragments, hflags, and_ipFlagMF_of_lt hunits]
      rfl

theorem fragAt_of (hlen : payload.length < 65536)
    (hbig : maxFragPayload < payload.length) (h8 : 8 ∣ offset) (ho : offset < payload.length) :
    (fragAt payload offset).Of payload.length := by
  obtain ⟨hoff, hmf⟩ := fragAt_fields payload h8 (by omega)
  have hmax : maxFragPayload = 1480 := rfl
  have hl := length_fragAt payload offset
  obtain ⟨hm, hchunk, hmore⟩ | ⟨hm, hchunk, hlast⟩ := chunkAt_cases payload offset
  · refine ⟨by omega, by omega, fun hf => ?_, .inl (hmf.trans hm)⟩
    rw [hmf, hm] at hf
    exact Bool.noConfusion hf
  · exact ⟨by omega, by omega, fun _ => by omega, .inr (by omega)⟩

theorem fragLoop_done (payload : List UInt8) (fuel : Nat) :
    fragLoop payload fuel payload.length = [] := by
  cases fuel with
  | zero => rfl
  | succ fuel => exact if_neg (Nat.lt_irrefl _)

/-- What the fragments of a payload from `offset` on are. -/
structure Cuts (payload : List UInt8) (offset : Nat) (frags : List Frag) : Prop where
  all_of : ∀ f ∈ frags, f.Of payload.length
  tiles : Piece.Tiles offset payload.length (frags.map Frag.piece)
  data : (frags.map Frag.piece).flatMap Piece.data = payload.drop offset
  last : offset < payload.length → ∃ f ∈ frags, f.moreFragments = false

theorem Cuts.nil (payload : List UInt8) : Cuts payload payload.length [] :=
  ⟨fun f hf => absurd hf not_mem_nil, rfl, by simp, fun h => absurd h (Nat.lt_irrefl _)⟩

/-- The loop cuts the rest of the payload into fragments that follow each other, the last
of them marked. -/
theorem fragLoop_cuts {fuel offset : Nat} (hlen : payload.length < 65536)
    (hbig : maxFragPayload < payload.length) (h8 : 8 ∣ offset) (ho : offset ≤ payload.length)
    (hfuel : payload.length - offset ≤ fuel) : Cuts payload offset (fragLoop payload fuel offset) := by
  induction fuel generalizing offset with
  | zero =>
    have heq : offset = payload.length := by omega
    rw [heq]
    exact Cuts.nil payload
  | succ fuel ih =>
    rcases Nat.lt_or_ge offset payload.length with hlt | hge
    · have hof := fragAt_of hlen hbig h8 hlt
      obtain ⟨hoff, hmf⟩ := fragAt_fields payload h8 (by omega)
      have hl := length_fragAt payload offset
      have hmax : maxFragPayload = 1480 := rfl
      have hunfold : fragLoop payload (fuel + 1) offset =
          fragAt payload offset :: fragLoop payload fuel (offset + chunkAt payload offset) := if_pos hlt
      -- after the last chunk the loop is at the end of the payload, and done
      have hrest : Cuts payload (offset + chunkAt payload offset)
          (fragLoop payload fuel (offset + chunkAt payload offset)) := by
        obtain ⟨-, hchunk, hmore⟩ | ⟨-, hchunk, -⟩ := chunkAt_cases payload offset
        · exact ih (by omega) (by omega) (by omega)
        · have hend : offset + chunkAt payload offset = payload.length := by omega
          rw [hend, fragLoop_done]
          exact Cuts.nil payload
      rw [hunfold]
      refine ⟨?_, ⟨hoff, ?_⟩, ?_, fun _ => ?_⟩
      · intro f hf
        rcases mem_cons.1 hf with rfl | hf
        · exact hof
        · exact hrest.all_of f hf
      · show Piece.Tiles (offset + (fragAt payload offset).payload.length) _ _
        rw [hl]
        exact hrest.tiles
      · rw [map_cons, flatMap_cons, hrest.data, ← drop_drop]
        exact take_append_drop _ _
      · obtain ⟨-, hchunk, hmore⟩ | ⟨hm, -⟩ := chunkAt_cases payload offset
        · obtain ⟨f, hf, hfl⟩ := hrest.last (by omega)
          exact ⟨f, mem_cons_of_mem _ hf, hfl⟩
        · exact ⟨_, mem_cons_self, hmf.trans hm⟩
    · have heq : offset = payload.length := by omega
      rw [heq, fragLoop_done]
      exact Cuts.nil payload

/-! ### Any order of arrival -/

/-- The slot holds the pieces of the fragments that have arrived. -/
structure Collected (n : Nat) (s : FragSlot) (done : List Frag) : Prop where
  perm : s.pieces.Perm (done.map Frag.piece)
  sorted : Piece.Sorted s.pieces
  received : s.receivedBytes = Piece.size (done.map Frag.piece)
  total : s.totalLen = 0 ∨ s.totalLen = n
  last : ∀ f ∈ done, f.moreFragments = false → s.totalLen = n

theorem Collected.add (h : Collected n s done) {f : Frag}
    (hf : f.Of n) (hn : n < 65536) (hsize : Piece.size ((f :: done).map Frag.piece) ≤ n) :
    Collected n (s.add f.offset f.payload f.moreFragments) (f :: done) := by
  have hend (hl : f.moreFragments = false) :
      (s.add f.offset f.payload f.moreFragments).totalLen = n := by
    show (if f.moreFragments then s.totalLen else (f.offset + f.payload.length) % 65536) = n
    rw [hl, if_neg Bool.false_ne_true, hf.last hl, Nat.mod_eq_of_lt hn]
  have hkeep (hm : f.moreFragments = true) :
      (s.add f.offset f.payload f.moreFragments).totalLen = s.totalLen := if_pos hm
  have hsum : Piece.size ((f :: done).map Frag.piece) =
      f.payload.length + Piece.size (done.map Frag.piece) := rfl
  refine ⟨?_, h.sorted.insert _, ?_, ?_, ?_⟩
  · exact (Piece.insert_perm _ _).trans (h.perm.cons _)
  · show (s.receivedBytes + f.payload.length) % 65536 = _
    rw [h.received, hsum, Nat.mod_eq_of_lt (by omega), Nat.add_comm]
  · cases hm : f.moreFragments with
    | false => exact .inr (hm ▸ hend hm)
    | true =>
      have := hkeep hm
      exact h.total
  · intro g hg hgl
    rcases mem_cons.1 hg with rfl | hg
    · exact hend hgl
    · cases hm : f.moreFragments with
      | false => exact hm ▸ hend hm
      | true =>
        have := hkeep hm
        exact h.last g hg hgl

theorem ipHandleFragment_of (hn : n < 65536) {f : Frag} (hf : f.Of n) (s : FragSlot) :
    ipHandleFragment true s f = ((s.add f.offset f.payload f.moreFragments).complete,
      s.add f.offset f.payload f.moreFragments) := by
  have hfits := hf.fits
  have hne := hf.nonempty
  have hsize : ipFragMaxSize = 65535 := rfl
  have hfrag : (f.moreFragments || decide (0 < f.offset)) = true := by
    rw [Bool.or_eq_true, decide_eq_true_eq]
    exact hf.isFragment
  have hgot : ¬ (true = false ∨ f.payload.length = 0) := by
    simp only [Bool.true_eq_false, false_or]
    omega
  rw [ipHandleFragment, if_pos hfrag, if_neg (by omega), ipFragAdd, if_neg hgot]

theorem Collected.bounded (h : Collected n s done)
    (hn : n < 65536) (hof : ∀ f ∈ done, f.Of n) : s.Bounded := by
  intro p hp
  obtain ⟨f, hf, rfl⟩ := mem_map.1 (h.perm.mem_iff.1 hp)
  exact Nat.le_of_lt_succ (Nat.lt_of_le_of_lt (hof f hf).fits hn)

theorem Collected.not_complete (h : Collected n s done)
    (hn : n < 65536) (hof : ∀ f ∈ done, f.Of n) (hless : Piece.size (done.map Frag.piece) < n) :
    s.complete = false := by
  rw [Bool.eq_false_iff]
  intro hc
  obtain ⟨hpos, htiles⟩ := (h.bounded hn hof).complete hc
  have hsize := htiles.size_eq
  rw [Piece.size_perm h.perm] at hsize
  have := h.total
  omega

theorem Collected.complete {all done : List Frag}
    (hcuts : Cuts payload 0 all) (hlen : payload.length < 65536) (hpos : 0 < payload.length)
    (h : Collected payload.length s done) (hperm : done.Perm all) :
    s.complete = true ∧ ∀ buf, ipFragReassemble s buf = some payload := by
  have hne : ∀ p ∈ all.map Frag.piece, p.data ≠ [] := by
    intro p hp
    obtain ⟨f, hf, rfl⟩ := mem_map.1 hp
    exact ne_nil_of_length_pos (hcuts.all_of f hf).nonempty
  have hpieces : s.pieces = all.map Frag.piece :=
    hcuts.tiles.eq_of_perm hne h.sorted (h.perm.trans (hperm.map _))
  have htotal : s.totalLen = payload.length := by
    obtain ⟨f, hf, hl⟩ := hcuts.last hpos
    exact h.last f (hperm.mem_iff.2 hf) hl
  have hsize := hcuts.tiles.size_eq
  have hreceived : s.receivedBytes = payload.length := by
    rw [h.received, Piece.size_perm (hperm.map _)]
    omega
  have hbounded : s.Bounded :=
    h.bounded hlen fun f hf => hcuts.all_of f (hperm.mem_iff.1 hf)
  have htiles : Piece.Tiles 0 s.totalLen s.pieces := by
    rw [hpieces, htotal]
    exact hcuts.tiles
  constructor
  · have hlens : 0 < s.totalLen ∧ s.totalLen ≤ s.receivedBytes := by omega
    rw [FragSlot.complete, if_pos hlens, (contiguous_eq_some hbounded).2 htiles]
    exact beq_self_eq_true _
  · intro buf
    have hlay := Piece.lay_tiles htiles buf
    simp only [Nat.sub_zero, Nat.zero_add] at hlay
    rw [ipFragReassemble, if_neg (by omega), hlay, hpieces, hcuts.data, drop_zero]

/-- The rest of the fragments, in any order: only the last completes the datagram. -/
theorem arrive_rest {all : List Frag} (hcuts : Cuts payload 0 all)
    (hlen : payload.length < 65536) (hpos : 0 < payload.length) (rest done : List Frag)
    (s : FragSlot) (h : Collected payload.length s done) (hperm : (rest ++ done).Perm all)
    (hne : rest ≠ []) :
    (arrive s (rest.map fun f => (true, f))).1 = replicate (rest.length - 1) false ++ [true] ∧
      ∀ buf, ipFragReassemble (arrive s (rest.map fun f => (true, f))).2 buf = some payload := by
  induction rest generalizing done s with
  | nil => exact absurd rfl hne
  | cons f rest ih =>
    have hall : ∀ g ∈ f :: rest ++ done, g.Of payload.length := fun g hg =>
      hcuts.all_of g (hperm.mem_iff.1 hg)
    have hf := hall f (by simp)
    have hmoved : (rest ++ f :: done).Perm all := perm_middle.trans hperm
    have hsum : Piece.size (rest.map Frag.piece) + Piece.size ((f :: done).map Frag.piece) =
        payload.length := by
      have hsize := hcuts.tiles.size_eq
      rw [← Piece.size_perm (hmoved.map _), map_append, Piece.size_append] at hsize
      omega
    have hadd := h.add hf hlen (by omega)
    rw [map_cons, arrive, ipHandleFragment_of hlen hf]
    cases rest with
    | nil =>
      obtain ⟨hc, hbuf⟩ := hadd.complete hcuts hlen hpos hmoved
      refine ⟨?_, hbuf⟩
      rw [hc]
      rfl
    | cons g rest =>
      have hg := (hall g (by simp)).nonempty
      have hdone : ∀ x ∈ f :: done, x.Of payload.length := by
        intro x hx
        apply hall x
        simp only [mem_cons, cons_append, mem_append] at hx ⊢
        tauto
      have hless : Piece.size ((f :: done).map Frag.piece) < payload.length := by
        rw [map_cons, Piece.size_cons] at hsum
        have : 0 < g.piece.data.length := hg
        omega
      obtain ⟨hres, hbuf⟩ := ih (f :: done) _ hadd hmoved (cons_ne_nil g rest)
      refine ⟨?_, hbuf⟩
      rw [hadd.not_complete hlen hdone hless, hres]
      rfl

/-- **Fragmentation and reassembly are inverse**, in whatever order the fragments of a
payload arrive: exactly the last to arrive completes the datagram, and it is the payload.
For any fragments at all, completion means that the pieces tile the datagram, so that
copying them writes nothing outside it. -/
theorem fragments_reassemble (payload : List UInt8) (hlen : payload.length < 65536)
    (hbig : ipMtu - 20 < payload.length) :
    (∀ order : List Frag, order.Perm (ipSendPacket payload) →
      (arrive .fresh (order.map fun f => (true, f))).1 =
          List.replicate (order.length - 1) false ++ [true] ∧
        ∀ buf, ipFragReassemble (arrive .fresh (order.map fun f => (true, f))).2 buf = some payload) ∧
    (∀ (frags : List (Bool × Frag)) (alloc : Bool) (f : Frag),
      (ipHandleFragment alloc (arrive .fresh frags).2 f).1 = true →
      let s := (ipHandleFragment alloc (arrive .fresh frags).2 f).2
      Piece.Tiles 0 s.totalLen s.pieces ∧
        (∀ p ∈ s.pieces, p.offset + p.data.length ≤ s.totalLen) ∧
        ∀ buf i, s.totalLen ≤ i → Piece.lay s.pieces buf i = buf i) := by
  constructor
  · intro order horder
    have hpos : 0 < payload.length := by omega
    have hcuts : Cuts payload 0 (ipSendPacket payload) := by
      rw [ipSendPacket, if_neg (by omega)]
      exact fragLoop_cuts hlen hbig (dvd_zero 8) (Nat.zero_le _) (by omega)
    have hfresh : Collected payload.length .fresh [] :=
      ⟨List.Perm.refl _, List.Pairwise.nil, rfl, .inl rfl, fun f hf => absurd hf not_mem_nil⟩
    have hne : order ≠ [] := by
      intro hnil
      obtain ⟨f, hf, -⟩ := hcuts.last hpos
      rw [hnil] at horder
      rw [nil_perm.1 horder] at hf
      exact absurd hf not_mem_nil
    exact arrive_rest hcuts hlen hpos order [] .fresh hfresh (by rwa [append_nil]) hne
  · intro frags alloc f hdone
    have hbounded : (arrive .fresh frags).2.Bounded :=
      arrive_bounded (fun p hp => absurd hp not_mem_nil) frags
    obtain ⟨-, htiles⟩ := ipHandleFragment_complete hbounded hdone
    exact ⟨htiles, fun p hp => (htiles.mem_inside hp).2,
      fun buf i hi => Piece.lay_outside htiles buf (.inr hi)⟩

/-- A payload one byte too long for a frame, its two fragments arriving in the wrong
order. -/
theorem fragments_reassemble_reversed :
    ipFragReassemble (arrive .fresh ((ipSendPacket (List.replicate 1481 7)).reverse.map
      fun f => (true, f))).2 (fun _ => 0) = some (List.replicate 1481 7) :=
  ((fragments_reassemble (replicate 1481 7) (by rw [length_replicate]; decide)
    (by rw [length_replicate]; decide)).1 _ (reverse_perm _)).2 fun _ => 0

end InDevOS.Net
