import InDevOS.Net.Fragment

/-! Fragments that arrive more than once.

`ip_frag_add` inserts a fragment beside the one it repeats, and the walk over the pieces
takes the second for a gap: a slot with a repeated fragment never completes. A complete slot
is freed, so the fragments that come after it start a new one. `duplicates_harmless_iff` says
for which arrivals this still hands the datagram on once and in time. -/
namespace InDevOS.Net
open Lib List

/-- The slot after the fragments `pre` have arrived. -/
def after (pre : List Frag) : FragSlot := (arrive .fresh (pre.map fun f => (true, f))).2

/-- The datagrams that `ip_handle_packet` hands on when fragments of one datagram arrive. The
slot of a complete one is freed, and the next fragment finds a fresh one. -/
def deliveries (buf : Nat → UInt8) (slot : FragSlot) : List Frag → List (List UInt8)
  | [] => []
  | f :: rest =>
    let r := ipHandleFragment true slot f
    if r.1 then (ipFragReassemble r.2 buf).toList ++ deliveries buf .fresh rest
    else deliveries buf r.2 rest

/-- Duplicates do nothing: at every moment the payload has been handed on once if every
fragment has arrived, and nothing otherwise. -/
def Harmless (payload : List UInt8) (all order : List Frag) : Prop :=
  ∀ buf pre, pre <+: order → deliveries buf .fresh pre = if all ⊆ pre then [payload] else []

variable {payload : List UInt8} {n : Nat} {s : FragSlot} {all pre done : List Frag} {f : Frag}

theorem arrive_append (s : FragSlot) (a b : List (Bool × Frag)) :
    arrive s (a ++ b) = ((arrive s a).1 ++ (arrive (arrive s a).2 b).1, (arrive (arrive s a).2 b).2) := by
  induction a generalizing s with
  | nil => rfl
  | cons x a ih => simp only [cons_append, arrive, ih]

theorem after_append (pre : List Frag) (f : Frag) :
    after (pre ++ [f]) = (ipHandleFragment true (after pre) f).2 := by
  rw [after, map_append, arrive_append]
  rfl

/-! ### What is in a slot -/

/-- The pieces of all arrivals are there, repeated ones too. -/
structure Gathered (n : Nat) (s : FragSlot) (done : List Frag) : Prop where
  perm : s.pieces.Perm (done.map Frag.piece)
  total : s.totalLen = 0 ∨ s.totalLen = n

theorem Gathered.add (h : Gathered n s done) (hf : f.Of n) (hn : n < 65536) :
    Gathered n (s.add f.offset f.payload f.moreFragments) (f :: done) := by
  refine ⟨(Piece.insert_perm _ _).trans (h.perm.cons _), ?_⟩
  cases hm : f.moreFragments with
  | true => exact h.total
  | false =>
    refine .inr ?_
    show (f.offset + f.payload.length) % 65536 = n
    rw [hf.last hm, Nat.mod_eq_of_lt hn]

theorem gathered_arrive (hn : n < 65536) (pre : List Frag) (hpre : ∀ g ∈ pre, g.Of n)
    (h : Gathered n s done) :
    Gathered n (arrive s (pre.map fun f => (true, f))).2 (pre.reverse ++ done) := by
  induction pre generalizing s done with
  | nil => exact h
  | cons f pre ih =>
    have hf := hpre f mem_cons_self
    rw [map_cons, arrive, ipHandleFragment_of hn hf, reverse_cons, append_assoc]
    exact ih (fun g hg => hpre g (mem_cons_of_mem f hg)) (h.add hf hn)

theorem gathered_after (hn : n < 65536) (hof : ∀ g ∈ f :: pre, g.Of n) :
    Gathered n (ipHandleFragment true (after pre) f).2 (f :: pre) := by
  have hfresh : Gathered n .fresh [] := ⟨List.Perm.refl _, .inl rfl⟩
  have hpre := gathered_arrive hn pre (fun g hg => hof g (mem_cons_of_mem f hg)) hfresh
  have hf := hof f mem_cons_self
  rw [ipHandleFragment_of hn hf]
  have hadd := hpre.add hf hn
  refine ⟨hadd.perm.trans (List.Perm.map _ ?_), hadd.total⟩
  rw [append_nil]
  exact (reverse_perm pre).cons f

/-! ### Completion -/

/-- A subset of the pieces of a datagram that lacks one is shorter. -/
theorem size_lt_of_missing {l l' : List (Piece UInt8)} (hl' : l'.Nodup) (hsub : l' ⊆ l)
    {p : Piece UInt8} (hp : p ∈ l) (hne : p.data ≠ []) (hmiss : p ∉ l') :
    Piece.size l' < Piece.size l := by
  have hrest : l' ⊆ l.erase p := by
    intro q hq
    refine (mem_erase_of_ne ?_).2 (hsub hq)
    rintro rfl
    exact hmiss hq
  obtain ⟨m, hperm, hm⟩ := hl'.subperm hrest
  have hle : Piece.size m ≤ Piece.size (l.erase p) := (hm.map _).sum_le_sum fun _ _ => Nat.zero_le _
  have hsplit := Piece.size_perm (perm_cons_erase hp)
  have hpos := length_pos_of_ne_nil hne
  rw [Piece.size_cons] at hsplit
  rw [← Piece.size_perm hperm]
  omega

section
variable (hcuts : Cuts payload 0 all)
include hcuts

theorem Cuts.pieces_ne_nil : ∀ p ∈ all.map Frag.piece, p.data ≠ [] := by
  intro p hp
  obtain ⟨g, hg, rfl⟩ := mem_map.1 hp
  exact ne_nil_of_length_pos (hcuts.all_of g hg).nonempty

theorem Cuts.pieces_nodup : (all.map Frag.piece).Nodup :=
  hcuts.tiles.nodup hcuts.pieces_ne_nil

theorem Cuts.perm_iff (hsub : pre ⊆ all) : pre.Perm all ↔ pre.Nodup ∧ all ⊆ pre := by
  have hnodup := hcuts.pieces_nodup.of_map
  refine ⟨fun h => ⟨h.nodup_iff.2 hnodup, h.symm.subset⟩, fun h => ?_⟩
  exact (perm_ext_iff_of_nodup h.1 hnodup).2 fun g => ⟨@hsub g, @h.2 g⟩

/-- Completion means that nothing was repeated and nothing is missing. -/
theorem of_complete (hlen : payload.length < 65536)
    (hsub : f :: pre ⊆ all) (hc : (ipHandleFragment true (after pre) f).1 = true) :
    (f :: pre).Nodup ∧ all ⊆ f :: pre := by
  have hof : ∀ g ∈ f :: pre, g.Of payload.length := fun g hg => hcuts.all_of g (hsub hg)
  have hslot := gathered_after hlen hof
  have hbounded : (after pre).Bounded := arrive_bounded (fun p hp => absurd hp not_mem_nil) _
  obtain ⟨hpos, htiles⟩ := ipHandleFragment_complete hbounded hc
  rw [hslot.total.resolve_left (Nat.ne_of_gt hpos)] at htiles
  have hsubset : (f :: pre).map Frag.piece ⊆ all.map Frag.piece := map_subset _ hsub
  have hnodup : ((f :: pre).map Frag.piece).Nodup := hslot.perm.nodup_iff.1
    (htiles.nodup fun p hp => hcuts.pieces_ne_nil p (hsubset (hslot.perm.mem_iff.1 hp)))
  refine ⟨hnodup.of_map _, fun g hg => ?_⟩
  by_contra hmiss
  have hpiece : g.piece ∉ (f :: pre).map Frag.piece := fun hin => by
    obtain ⟨g', hg', heq⟩ := mem_map.1 hin
    exact hmiss (inj_on_of_nodup_map hcuts.pieces_nodup (hsub hg') hg heq ▸ hg')
  have hless := size_lt_of_missing hnodup hsubset (mem_map_of_mem hg)
    (hcuts.pieces_ne_nil _ (mem_map_of_mem hg)) hpiece
  have hall := hcuts.tiles.size_eq
  have hgot := htiles.size_eq
  rw [Piece.size_perm hslot.perm] at hgot
  omega

/-- Without repetitions the arrival of the last missing fragment is the end of an order of
arrival of all of them. -/
theorem complete_of_nodup (hlen : payload.length < 65536)
    (hpos : 0 < payload.length) (hsub : f :: pre ⊆ all) (hnodup : (f :: pre).Nodup)
    (hall : all ⊆ f :: pre) :
    (ipHandleFragment true (after pre) f).1 = true ∧
      ∀ buf, ipFragReassemble (ipHandleFragment true (after pre) f).2 buf = some payload := by
  have hperm := (perm_append_singleton f pre).trans ((hcuts.perm_iff hsub).2 ⟨hnodup, hall⟩)
  have hfresh : Collected payload.length .fresh [] :=
    ⟨List.Perm.refl _, List.Pairwise.nil, rfl, .inl rfl, fun f hf => absurd hf not_mem_nil⟩
  obtain ⟨hres, hbuf⟩ := arrive_rest hcuts hlen hpos (pre ++ [f]) [] .fresh hfresh
    (by rwa [append_nil]) (by simp)
  refine ⟨?_, fun buf => ?_⟩
  · rw [map_append, arrive_append] at hres
    exact singleton_inj.1 (append_inj_right' hres rfl)
  · rw [← after_append]
    exact hbuf buf

/-! ### Whole sequences of arrivals -/

/-- What is handed on from a slot that is not complete: the arrivals since it was fresh decide
whether it will be. -/
theorem deliveries_after (hlen : payload.length < 65536) (hpos : 0 < payload.length)
    (buf : Nat → UInt8) (rest pre : List Frag) (hsub : pre ++ rest ⊆ all)
    (hopen : ¬ (pre.take all.length).Perm all) :
    deliveries buf (after pre) rest =
      if ((pre ++ rest).take all.length).Perm all then
        payload :: deliveries buf .fresh ((pre ++ rest).drop all.length)
      else [] := by
  induction rest generalizing pre with
  | nil => rw [append_nil, if_neg hopen, deliveries]
  | cons f rest ih =>
    have heq : pre ++ f :: rest = pre ++ [f] ++ rest := by simp
    rw [heq] at hsub ⊢
    have hsub' : pre ++ [f] ⊆ all := fun g hg => hsub (mem_append_left _ hg)
    have hswap := perm_append_singleton f pre
    have hcons : f :: pre ⊆ all := fun g hg => hsub' (hswap.mem_iff.2 hg)
    cases hc : (ipHandleFragment true (after pre) f).1 with
    | true =>
      have hdone := of_complete hcuts hlen hcons hc
      have hperm := hswap.trans ((hcuts.perm_iff hcons).2 hdone)
      have hbuf := (complete_of_nodup hcuts hlen hpos hcons hdone.1 hdone.2).2 buf
      rw [take_left' hperm.length_eq, drop_left' hperm.length_eq, if_pos hperm]
      simp only [deliveries, hc, if_true, hbuf, Option.toList_some, singleton_append]
    | false =>
      have hstill : ¬ ((pre ++ [f]).take all.length).Perm all := by
        intro hperm
        rcases Nat.lt_or_ge pre.length all.length with hlt | hge
        · rw [take_of_length_le (by simpa using hlt)] at hperm
          obtain ⟨hnodup, hall⟩ := (hcuts.perm_iff hcons).1 (hswap.symm.trans hperm)
          rw [(complete_of_nodup hcuts hlen hpos hcons hnodup hall).1] at hc
          exact Bool.noConfusion hc
        · exact hopen (by rwa [take_append_of_le_length hge] at hperm)
      rw [← ih _ hsub hstill, after_append]
      simp only [deliveries, hc, Bool.false_eq_true, if_false]

end

/-- **Repeated fragments.** When fragments of a datagram arrive, possibly again and again, it
is handed on once, with the arrival that makes the set complete, exactly when the arrivals
never are complete, or they begin with every fragment once and do not go on with every
fragment once more. -/
theorem duplicates_harmless_iff (payload : List UInt8) (hlen : payload.length < 65536)
    (hpos : 0 < payload.length) (all : List Frag) (hcuts : Cuts payload 0 all) (order : List Frag)
    (horder : order ⊆ all) :
    Harmless payload all order ↔ (all ⊆ order →
      (order.take all.length).Perm all ∧ ¬ ((order.drop all.length).take all.length).Perm all) := by
  have hne : ¬ [].Perm all := fun h => by
    obtain ⟨f, hf, -⟩ := hcuts.last hpos
    rw [nil_perm.1 h] at hf
    exact not_mem_nil hf
  have hruns : ∀ l ⊆ order, ∀ buf, deliveries buf .fresh l =
      if (l.take all.length).Perm all then payload :: deliveries buf .fresh (l.drop all.length)
      else [] := fun l hl buf =>
    deliveries_after hcuts hlen hpos buf l [] (fun g hg => horder (hl hg)) (by simpa using hne)
  have hdrop : order.drop all.length ⊆ order := (drop_sublist _ _).subset
  constructor
  · intro h hall
    have hrun := h (fun _ => 0) order (prefix_refl _)
    rw [if_pos hall, hruns order (Subset.refl _), hruns _ hdrop] at hrun
    split_ifs at hrun with hfirst hsecond
    · simp at hrun
    · exact ⟨hfirst, hsecond⟩
  · intro h buf pre hpre
    have hsub := hpre.subset
    rw [hruns pre hsub]
    split_ifs with hfirst hall hall
    · -- the first copies are all there, and the rest is a part of what does not complete again
      obtain ⟨hperm, hagain⟩ := h fun g hg => hsub (hall hg)
      rw [hruns _ (fun g hg => hsub ((drop_sublist _ _).subset hg)), if_neg]
      intro hmore
      refine hagain ?_
      have hlength := hmore.length_eq
      obtain ⟨post, rfl⟩ := hpre
      have hlong : all.length + all.length ≤ pre.length := by
        rw [length_take, length_drop] at hlength
        have := hfirst.length_eq
        rw [length_take] at this
        omega
      rwa [drop_append_of_le_length (by omega), take_append_of_le_length (by rw [length_drop]; omega)]
    · exact absurd (fun g hg => (take_sublist _ _).subset (hfirst.symm.subset hg)) hall
    · obtain ⟨hperm, -⟩ := h fun g hg => hsub (hall hg)
      obtain ⟨post, rfl⟩ := hpre
      have hle : all.length ≤ pre.length := (hcuts.pieces_nodup.of_map.subperm hall).length_le
      rw [take_append_of_le_length hle] at hperm
      exact absurd hperm hfirst
    · rfl

/-- Twelve bytes in two fragments. -/
def twoFrags : List Frag := [⟨0x2000, [1, 2, 3, 4, 5, 6, 7, 8]⟩, ⟨1, [9, 10, 11, 12]⟩]

theorem twoFrags_cuts : Cuts [1, 2, 3, 4, 5, 6, 7, 8, 9, 10, 11, 12] 0 twoFrags := by
  refine ⟨fun f hf => ?_, ⟨rfl, rfl, rfl⟩, rfl, fun _ => ⟨⟨1, [9, 10, 11, 12]⟩, by decide, by decide⟩⟩
  rcases mem_cons.1 hf with rfl | hf
  · exact ⟨by decide, by decide, by decide, by decide⟩
  · obtain rfl := mem_singleton.1 hf
    exact ⟨by decide, by decide, by decide, by decide⟩

/-- The first fragment comes again behind the last. -/
theorem duplicates_harmless_late :
    Harmless [1, 2, 3, 4, 5, 6, 7, 8, 9, 10, 11, 12] twoFrags (twoFrags ++ twoFrags.take 1) :=
  (duplicates_harmless_iff _ (by decide) (by decide) twoFrags twoFrags_cuts _ (by decide)).2
    fun _ => by decide

/-- The first fragment comes twice, then the second: nothing is handed on, although every
fragment is there. When both come twice, one after the other, the datagram is handed on twice. -/
theorem duplicate_blocks_datagram :
    let buf : Nat → UInt8 := fun _ => 0
    deliveries buf .fresh twoFrags = [[1, 2, 3, 4, 5, 6, 7, 8, 9, 10, 11, 12]] ∧
    deliveries buf .fresh (⟨0x2000, [1, 2, 3, 4, 5, 6, 7, 8]⟩ :: twoFrags) = [] ∧
    (deliveries buf .fresh (twoFrags ++ twoFrags)).length = 2 := by
  decide

end InDevOS.Net
