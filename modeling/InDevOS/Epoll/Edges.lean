import InDevOS.Epoll.Nesting

/-! Edge-triggered items.

An edge is inferred by comparing generations: those read when the item was last reported
and those read now. `Owed d bit g it` says that the item has not lost its claim to an edge
on an event of direction `d` since generation `g`: either the event was seen un-ready since,
or the remembered generation is still `g`. No scan that does not report the item takes that
away, a scan that comes to the item while there is room reports it, and a scan that fills
its output before leaves the item nearer to the start of the next one.

The remembered generation is compared modulo 2^32, and it is that of the last report, not
of the last scan. So `edges_reported` bounds the number of advances since the last report;
bounding it between two scans is not enough (`edge_lost`). -/
namespace InDevOS.Epoll
open Lib List

/-! ### Items of a set are distinct -/

/-- No two items of a set are registered for the same object under the same descriptor. -/
def EpSet.Distinct (ep : EpSet) : Prop := (ep.items.map Item.id).Nodup

theorem nodup_set_dropLast {α : Type*} {l : List α} {x : α} (h : l.Nodup)
    (hx : l.getLast? = some x) (i : Nat) : (l.set i x).dropLast.Nodup := by
  obtain ⟨l', rfl⟩ := getLast?_eq_some_iff.1 hx
  rw [nodup_append] at h
  have hnot : x ∉ l' := fun hmem => h.2.2 x hmem x (mem_singleton_self x) rfl
  by_cases hi : i < l'.length
  · rw [set_append_left _ _ hi, dropLast_concat]
    exact h.1.set hnot
  · rw [set_append_right _ _ (Nat.le_of_not_lt hi)]
    cases i - l'.length with
    | zero | succ => simpa using h.1

theorem Sys.Controlled.nodup {items items' : List Item} {op : Sys.Op} {new : Item}
    (hctl : Sys.Controlled items op new items') (h : (items.map Item.id).Nodup) :
    (items'.map Item.id).Nodup := by
  cases hctl with
  | same => exact h
  | added hop hid =>
    rw [map_append, map_singleton, ← concat_eq_append]
    exact h.concat hid
  | @changed i it it' hget hid harmed =>
    have hsame : (items.map Item.id)[i]? = some it'.id := by rw [getElem?_map, hget, hid]; rfl
    obtain ⟨hi, hget'⟩ := List.getElem?_eq_some_iff.1 hsame
    rw [map_set, ← hget', set_getElem_self]
    exact h
  | removed i hlast =>
    rw [map_dropLast, map_set]
    exact nodup_set_dropLast h (by rw [getLast?_map, hlast]; rfl) i

theorem EpSet.Distinct.scan {ep : EpSet} (h : ep.Distinct) (H : History) (l : Look) :
    (lxEpScan H l ep).2.Distinct := by
  unfold EpSet.Distinct lxEpScan visits
  rw [map_rotate, nodup_rotate, sweep_ids, map_rotate, nodup_rotate]
  exact h.sublist (filter_sublist.map _)

/-! ### What holds of every set -/

namespace Sys

/-- A property of sets that every change of a set keeps. -/
structure Stable (P : EpSet → Prop) : Prop where
  zero : P .zero
  ctl : ∀ {ep}, P ep → ∀ op fd f ev alloc, P (ctlSet ep op fd f ev alloc).2
  scan : ∀ {ep}, P ep → ∀ H l, P (lxEpScan H l ep).2
  forget : ∀ {ep}, P ep → ∀ p rr, P ⟨ep.items.filter p, ep.cap, rr⟩

variable {s : Sys} {P : EpSet → Prop}

theorem forall_setEpoll (hs : ∀ a, P (s.sets a)) (a : Addr) {ep : EpSet} (h : P ep) :
    ∀ x, P ((s.setEpoll a ep).sets x) :=
  (Function.forall_update_iff s.sets fun _ ep => P ep).2 ⟨h, fun x _ => hs x⟩

namespace Stable
variable (hP : Stable P) (hs : ∀ a, P (s.sets a))
include hP hs

theorem close (p fd : Nat) : ∀ a, P ((s.fdCloseEntry p fd).2.sets a) := by
  unfold fdCloseEntry
  split
  · exact hs
  next e _ =>
  dsimp only
  generalize (s.fds.filter fun d => ¬(d.p = p ∧ d.fd = fd)) = rest
  split
  · exact hs
  · have hforget : ∀ a, P ((if e.handle = 0 then { s with fds := rest }
        else lxEpollForget { s with fds := rest } e.handle e.type).sets a) := by
      intro a
      split
      · exact hs a
      · dsimp only [lxEpollForget]
        split
        · exact hP.forget (hs a) _ _
        · exact hs a
    split
    · exact forall_setEpoll hforget _ hP.zero
    · exact hforget

theorem step (e : Event) : ∀ a, P ((s.step e).sets a) := by
  cases e with
  | create p badFlags a =>
    simp only [Sys.step, lxEpollCreate]
    split
    · exact hs
    split
    · exact hs
    split
    · exact hs
    · exact forall_setEpoll hs a hP.zero
  | ctl p epfd op fd uev alloc =>
    simp only [Sys.step, lxEpollCtl]
    split
    · exact hs
    next ep f ev _ =>
    split
    · exact hs
    · exact forall_setEpoll hs ep (hP.ctl (hs ep) op fd f ev alloc)
  | close p fd => exact hP.close hs p fd
  | dup p fd p' fd' =>
    simp only [Sys.step, dupFd]
    repeat' split
    all_goals exact hs
  | «open» p fd type handle =>
    simp only [Sys.step, openFd]
    split <;> exact hs
  | wait p epfd H l =>
    simp only [Sys.step, lxEpollWait]
    split
    · exact hs
    next f _ =>
    split
    · exact hs
    · exact forall_setEpoll hs f.handle (hP.scan (hs f.handle) H l)

theorem run (es : List Event) : ∀ a, P ((s.run es).sets a) := by
  induction es generalizing s with
  | nil => exact hs
  | cons e es ih => exact ih (hP.step hs e)

end Stable

end Sys

theorem EpSet.Distinct.stable : Sys.Stable EpSet.Distinct where
  zero := nodup_nil
  ctl h op fd f ev alloc := (Sys.ctlSet_controlled _ op fd f ev alloc).nodup h
  scan h := h.scan
  forget h _ _ := h.sublist (filter_sublist.map _)

/-! ### What a sweep reports -/

section
variable {H : History} {l : Look}

theorem visit_got (H : History) (l : Look) (k : Nat) (it : Item) (w : Sweep) :
    ∃ rs, (visit H l k it w).2.got = w.got ++ rs ∧ (rs.map Report.id).Sublist [it.id] := by
  obtain ⟨h, -⟩ | ⟨-, -, rev, gi, go, full, -, -, h, -⟩ | ⟨-, -, rev, gi, go, -, -, -, h⟩ :=
    visit_cases H l k it w
  · exact ⟨[], by rw [h, append_nil], by simp⟩
  · exact ⟨[], by rw [h, append_nil], by simp⟩
  · exact ⟨[_], by rw [h], by simp⟩

theorem sweep_got (H : History) (l : Look) (k : Nat) (items : List Item) (w : Sweep) :
    ∃ rs, (sweep H l k items w).2.got = w.got ++ rs ∧ (rs.map Report.id).Sublist (items.map Item.id) := by
  induction items generalizing k w with
  | nil => exact ⟨[], (append_nil _).symm, by simp⟩
  | cons it items ih =>
    obtain ⟨rs, hrs, hid⟩ := visit_got H l k it w
    obtain ⟨rs', hrs', hid'⟩ := ih (k + 1) (visit H l k it w).2
    refine ⟨rs ++ rs', ?_, ?_⟩
    · simp only [sweep, hrs', hrs, append_assoc]
    · rw [map_append]
      exact hid.append hid'

theorem sweep_full (k : Nat) (items : List Item) {w : Sweep} (hw : w.full = true) :
    (sweep H l k items w).2 = w := by
  induction items generalizing k with
  | nil => rfl
  | cons it items ih =>
    have hv : visit H l k it w = (it, w) := if_pos (.inl hw)
    simp only [sweep, hv, ih]

/-- The loop's invariant: `last` names an item already visited once there is output, and
the loop is left only when the output is full. -/
structure Swept (l : Look) (k : Nat) (w : Sweep) : Prop where
  last : w.got ≠ [] → ∃ j < k, w.last = some j
  full : w.full = true → l.cap ≤ w.got.length

theorem Swept.visit {k : Nat} {w : Sweep} (hw : Swept l k w) (it : Item) :
    Swept l (k + 1) (visit H l k it w).2 := by
  have hlater : w.got ≠ [] → ∃ j < k + 1, w.last = some j := fun h => by
    obtain ⟨j, hj, hlast⟩ := hw.last h
    exact ⟨j, by omega, hlast⟩
  obtain ⟨h, -⟩ | ⟨-, -, rev, gi, go, full, -, -, h, -, hfull⟩ |
    ⟨hnot, -, rev, gi, go, -, -, -, h⟩ := visit_cases H l k it w <;> rw [h]
  · exact ⟨hlater, hw.full⟩
  · exact ⟨hlater, hfull⟩
  · exact ⟨fun _ => ⟨k, Nat.lt_succ_self k, rfl⟩, fun hf => by simp_all⟩

theorem Swept.sweep (items : List Item) {k : Nat} {w : Sweep} (hw : Swept l k w) :
    Swept l (k + items.length) (sweep H l k items w).2 := by
  induction items generalizing k w with
  | nil => exact hw
  | cons it items ih =>
    rw [length_cons, ← Nat.add_assoc, Nat.add_right_comm]
    exact ih (hw.visit it)

/-- There are no more reports than visits up to the last item reported. -/
theorem sweep_count (items : List Item) {k : Nat} {w : Sweep}
    (hw : w.got.length ≤ w.last.elim 0 (· + 1) ∧ w.last.elim 0 (· + 1) ≤ k) :
    (sweep H l k items w).2.got.length ≤ (sweep H l k items w).2.last.elim 0 (· + 1) := by
  induction items generalizing k w with
  | nil => exact hw.1
  | cons it items ih =>
    refine ih ?_
    obtain ⟨h, -⟩ | ⟨-, -, rev, gi, go, full, -, -, h, -⟩ | ⟨-, -, rev, gi, go, -, -, -, h⟩ :=
      visit_cases H l k it w <;> rw [h]
    · exact ⟨hw.1, Nat.le_succ_of_le hw.2⟩
    · exact ⟨hw.1, Nat.le_succ_of_le hw.2⟩
    · exact ⟨by simpa using hw.1.trans hw.2, Nat.le_refl _⟩

theorem Swept.start (l : Look) : Swept l 0 ⟨[], none, false⟩ :=
  ⟨fun h => absurd rfl h, fun h => absurd h (by decide)⟩

end

/-! ### What an item is owed -/

/-- The two kinds of edges. -/
inductive Dir
  | input
  | output

namespace Dir

/-- `EPOLLIN|EPOLLRDNORM`, `EPOLLOUT|EPOLLWRNORM` -/
def mask : Dir → UInt32
  | input => 0x41
  | output => 0x104

def gen (o : Obj) : Dir → Nat
  | input => o.inGen
  | output => o.outGen

/-- The generation an item remembers. -/
def seen (it : Item) : Dir → UInt32
  | input => it.etIn
  | output => it.etOut

end Dir

/-- The item is armed and has an edge coming for a ready event among `bit`, unless the
generation still is `g`. -/
structure Owed (d : Dir) (bit : UInt32) (g : Nat) (it : Item) : Prop where
  armed : it.armed = true
  edge : it.Edge
  pending : it.etRev &&& bit = 0 ∨ d.seen it = UInt32.ofNat g

section bits
variable {a b c m : UInt32}

theorem and_eq_zero_of_new (hc : c &&& b = 0) (h : a &&& ~~~(c &&& a) = 0) : a &&& b = 0 := by
  rw [← UInt32.toBitVec_inj] at hc h ⊢
  refine BitVec.eq_of_getLsbD_eq fun i hi => ?_
  have hci := congrArg (·.getLsbD i) hc
  have hi := congrArg (·.getLsbD i) h
  simp at hci hi ⊢
  grind

theorem and_eq_zero_of_mask (hb : b &&& m = b) (h : a &&& m = 0) : a &&& b = 0 := by
  rw [← hb, UInt32.and_comm b, ← UInt32.and_assoc, h, UInt32.zero_and]

theorem ofNat_ne {g g' : Nat} (hlt : g < g') (hle : g' < g + 2 ^ 32) :
    UInt32.ofNat g' ≠ UInt32.ofNat g := by
  intro h
  have := congrArg UInt32.toNat h
  simp only [UInt32.toNat_ofNat'] at this
  omega

end bits

section
variable {d : Dir} {bit : UInt32} {it : Item}

/-- An item that is owed an edge has one when the event is ready and its generation has
advanced fewer than 2^32 times. -/
theorem Owed.examine {g g' : Nat} (h : Owed d bit g it)
    (hbit : bit &&& d.mask = bit) {o o' : Obj} {gi go : UInt32}
    (hready : lxEpEval it o &&& bit ≠ 0) (hgens : (gi, go) = lxEpGens o') (hg' : d.gen o' = g')
    (hlt : g < g') (hle : g' < g + 2 ^ 32) : (it.examine (lxEpEval it o) gi go).2 = true := by
  have hrev : lxEpEval it o ≠ 0 := fun h0 => hready (by simp [h0])
  unfold Item.examine
  rw [if_pos h.edge, if_neg hrev]
  unfold Item.edge
  obtain hnew | hseen := h.pending
  · have : lxEpEval it o &&& ~~~(it.etRev &&& lxEpEval it o) ≠ 0 :=
      fun h0 => hready (and_eq_zero_of_new hnew h0)
    simp [this]
  · have hmask : lxEpEval it o &&& d.mask ≠ 0 := fun h0 => hready (and_eq_zero_of_mask hbit h0)
    have hne := ofNat_ne hlt hle
    rw [← hg', ← hseen] at hne
    simp only [lxEpGens, Prod.mk.injEq] at hgens
    cases d with
    | input =>
      have hgi : gi ≠ it.etIn := hgens.1 ▸ hne
      simp [show lxEpEval it o &&& 0x41 ≠ 0 from hmask, hgi]
    | output =>
      have hgo : go ≠ it.etOut := hgens.2 ▸ hne
      simp [show lxEpEval it o &&& 0x104 ≠ 0 from hmask, hgo]

/-- Being looked at without being reported costs nothing. -/
theorem Owed.examined {g : Nat} (h : Owed d bit g it)
    (rev gi go : UInt32) : Owed d bit g (it.examine rev gi go).1 := by
  unfold Item.examine
  rw [if_pos h.edge]
  split
  · exact ⟨h.armed, h.edge, .inl (UInt32.zero_and)⟩
  · refine ⟨h.armed, h.edge, ?_⟩
    obtain hnew | hseen := h.pending
    · left
      rw [UInt32.and_assoc, UInt32.and_comm rev, ← UInt32.and_assoc, hnew, UInt32.zero_and]
    · right
      cases d <;> exact hseen

theorem Owed.visited {g : Nat} (h : Owed d bit g it) {H : History} {l : Look} {k : Nat} {w : Sweep}
    (hnot : ∀ r ∈ (visit H l k it w).2.got, r.id ≠ it.id) : Owed d bit g (visit H l k it w).1 := by
  obtain ⟨hv, -⟩ | ⟨-, -, rev, gi, go, full, -, -, hv, -⟩ | ⟨-, -, rev, gi, go, -, -, -, hv⟩ :=
    visit_cases H l k it w
  · rw [hv]
    exact h
  · rw [hv]
    exact h.examined rev gi go
  · rw [hv] at hnot
    exact absurd rfl (hnot _ (mem_append_right _ (mem_singleton_self _)))

end

/-! ### One scan -/

section
variable {H : History} {l : Look} {ep : EpSet} {pre post : List Item} {it : Item}

theorem visits_split (h : (live l ep).rotate (first l ep) = pre ++ it :: post) :
    visits H l ep =
      let a := sweep H l 0 pre ⟨[], none, false⟩
      let v := visit H l pre.length it a.2
      let c := sweep H l (pre.length + 1) post v.2
      (a.1 ++ v.1 :: c.1, c.2) := by
  unfold visits
  rw [h, sweep_append, Nat.zero_add]
  rfl

theorem exists_split (hit : it ∈ ep.items) (hgone : l.gone it.id = false) :
    ∃ pre post, (live l ep).rotate (first l ep) = pre ++ it :: post := by
  have hmem : it ∈ (live l ep).rotate (first l ep) := by
    simp [live, hit, hgone]
  exact append_of_mem hmem

theorem mem_scan {x : Item} : x ∈ (lxEpScan H l ep).2.items ↔ x ∈ (visits H l ep).1 :=
  mem_rotate

theorem first_le (l : Look) (ep : EpSet) : first l ep ≤ (live l ep).length := by
  unfold first
  split <;> omega

theorem visits_length (H : History) (l : Look) (ep : EpSet) :
    (visits H l ep).1.length = (live l ep).length := by
  rw [visits, sweep_length, length_rotate]

theorem scan_length (H : History) (l : Look) (ep : EpSet) :
    (lxEpScan H l ep).2.items.length = (live l ep).length := by
  simp only [lxEpScan, length_rotate, visits_length]

theorem scan_rr_lt (H : History) (hpos : 0 < (live l ep).length) :
    (lxEpScan H l ep).2.rr < (live l ep).length := by
  have hfirst : first l ep < (live l ep).length := by
    unfold first
    split <;> omega
  simp only [lxEpScan]
  split
  · cases (visits H l ep).2.last with
    | none => exact hfirst
    | some k => exact Nat.mod_lt _ hpos
  · exact hfirst

theorem rotate_back {α : Type*} {l : List α} {n rr : Nat} (hn : l.length = n) (hrr : rr ≤ n)
    (j : Nat) : (l.rotate (n - rr)).rotate (((rr + j) % n + 1) % n) = l.rotate (j + 1) := by
  have hmod : ∀ m, (l.rotate (n - rr)).rotate (m % n) = (l.rotate (n - rr)).rotate m := by
    intro m
    have := rotate_mod (l.rotate (n - rr)) m
    rwa [length_rotate, hn] at this
  rw [hmod, ← rotate_rotate, hmod, rotate_rotate, rotate_rotate,
    show n - rr + (rr + j + 1) = n + (j + 1) by omega, ← rotate_rotate, ← hn,
    rotate_length]

/-- What an owed item that was not reported keeps. -/
structure Kept (d : Dir) (bit : UInt32) (g : Nat) (it it' : Item) : Prop where
  id : it'.id = it.id
  events : it'.events = it.events
  owed : Owed d bit g it'

theorem got_subset_visits (h : (live l ep).rotate (first l ep) = pre ++ it :: post) :
    ∀ r ∈ (visit H l pre.length it (sweep H l 0 pre ⟨[], none, false⟩).2).2.got,
      r ∈ (lxEpScan H l ep).1 := by
  intro r hr
  show r ∈ (visits H l ep).2.got
  rw [visits_split h]
  obtain ⟨rs, hrs, -⟩ := sweep_got H l (pre.length + 1) post
    (visit H l pre.length it (sweep H l 0 pre ⟨[], none, false⟩).2).2
  rw [hrs]
  exact mem_append_left _ hr

theorem Owed.scan {d : Dir} {bit : UInt32} {g : Nat} (howed : Owed d bit g it)
    (hit : it ∈ ep.items) (hgone : l.gone it.id = false)
    (hnot : ∀ r ∈ (lxEpScan H l ep).1, r.id ≠ it.id) :
    ∃ it' ∈ (lxEpScan H l ep).2.items, Kept d bit g it it' := by
  obtain ⟨pre, post, hsplit⟩ := exists_split hit hgone
  refine ⟨_, ?_, visit_id H l pre.length it (sweep H l 0 pre ⟨[], none, false⟩).2,
    visit_events .., howed.visited fun r hr => hnot r (got_subset_visits hsplit r hr)⟩
  rw [mem_scan, visits_split hsplit]
  exact mem_append_right _ mem_cons_self

/-- The readings of a scan find the event ready and its generation advanced, by fewer than
2^32. -/
def Sees (H : History) (d : Dir) (bit : UInt32) (g : Nat) (it : Item) (l : Look) : Prop :=
  ∀ k, lxEpEval it (H (l.time k) it.id) &&& bit ≠ 0 ∧ g < d.gen (H (l.time k) it.id) ∧
    d.gen (H (l.time k) it.id) < g + 2 ^ 32

/-- A scan that would report an armed item and does not was full before it came to the item,
and the next one begins nearer to it, by as many items as were reported. -/
theorem nearer (harmed : it.armed = true) (hcap : 0 < l.cap)
    (hhit : (it.examine (lxEpEval it (H (l.time (2 * pre.length)) it.id))
      (lxEpGens (H (l.time (2 * pre.length + 1)) it.id)).1
      (lxEpGens (H (l.time (2 * pre.length + 1)) it.id)).2).2 = true)
    (hsplit : (live l ep).rotate (first l ep) = pre ++ it :: post)
    (hnot : ∀ r ∈ (lxEpScan H l ep).1, r.id ≠ it.id) :
    ∃ pre' post', (lxEpScan H l ep).2.items.rotate (lxEpScan H l ep).2.rr =
        pre' ++ (visit H l pre.length it (sweep H l 0 pre ⟨[], none, false⟩).2).1 :: post' ∧
      pre'.length + l.cap ≤ pre.length := by
  have hv := visits_split (H := H) hsplit
  have hswept := (Swept.start l).sweep (H := H) pre
  have hcount := sweep_count (H := H) (l := l) pre (k := 0) (w := ⟨[], none, false⟩)
    ⟨Nat.le_refl _, Nat.le_refl _⟩
  have hlen := sweep_length H l 0 pre ⟨[], none, false⟩
  have hnot' := fun r hr => hnot r (got_subset_visits (H := H) hsplit r hr)
  generalize sweep H l 0 pre ⟨[], none, false⟩ = a at hv hswept hcount hlen hnot' ⊢
  -- The visit found the output full.
  have hvisit : (visit H l pre.length it a.2).2.got = a.2.got ∧
      (visit H l pre.length it a.2).2.last = a.2.last ∧
      (visit H l pre.length it a.2).2.full = true ∧ l.cap ≤ a.2.got.length := by
    obtain ⟨h, hfull | hnone⟩ | ⟨-, -, rev, gi, go, full, hrev, hgens, h, hroom, -⟩ |
      ⟨-, -, rev, gi, go, -, -, -, h⟩ := visit_cases H l pre.length it a.2
    · rw [h]
      exact ⟨rfl, rfl, hfull, hswept.full hfull⟩
    · simp [harmed] at hnone
    · rw [← hrev, ← hgens] at hhit
      rw [h]
      exact ⟨rfl, rfl, hroom hhit⟩
    · rw [h] at hnot'
      exact absurd rfl (hnot' _ (mem_append_right _ (mem_singleton_self _)))
  obtain ⟨hgot, hlast, hfull, hroom⟩ := hvisit
  obtain ⟨j, hj, hja⟩ := hswept.last (ne_nil_of_length_pos (by omega))
  rw [hja, Option.elim_some] at hcount
  dsimp only at hv
  have hend := sweep_full (H := H) (l := l) (pre.length + 1) post hfull
  have hrest := sweep_length H l (pre.length + 1) post (visit H l pre.length it a.2).2
  generalize sweep H l (pre.length + 1) post (visit H l pre.length it a.2).2 = c at hv hend hrest
  have hrr : (lxEpScan H l ep).2.rr =
      ((first l ep + j) % (live l ep).length + 1) % (live l ep).length := by
    simp only [lxEpScan, hv, hend, hgot, hlast, hja]
    rw [if_pos hroom]
    rfl
  have hitems : (lxEpScan H l ep).2.items =
      (a.1 ++ (visit H l pre.length it a.2).1 :: c.1).rotate ((live l ep).length - first l ep) := by
    simp only [lxEpScan, hv]
  refine ⟨a.1.drop (j + 1), c.1 ++ a.1.take (j + 1), ?_, ?_⟩
  · have hn := visits_length H l ep
    rw [hv] at hn
    rw [hrr, hitems, rotate_back hn (first_le l ep), rotate_eq_drop_append_take (by simp; omega),
      drop_append_of_le_length (by omega), take_append_of_le_length (by omega)]
    simp
  · rw [length_drop]
    omega

theorem Owed.nearer {d : Dir} {bit : UInt32} {g : Nat} (howed : Owed d bit g it)
    (hbit : bit &&& d.mask = bit) (hsees : Sees H d bit g it l) (hcap : 0 < l.cap)
    (hsplit : (live l ep).rotate (first l ep) = pre ++ it :: post)
    (hnot : ∀ r ∈ (lxEpScan H l ep).1, r.id ≠ it.id) :
    ∃ pre' it' post',
      (lxEpScan H l ep).2.items.rotate (lxEpScan H l ep).2.rr = pre' ++ it' :: post' ∧
        pre'.length < pre.length ∧ Kept d bit g it it' := by
  have hlater := (hsees (2 * pre.length + 1)).2
  have hedge := howed.examine hbit (hsees (2 * pre.length)).1 rfl rfl hlater.1 hlater.2
  obtain ⟨pre', post', hrot, hlt⟩ := Epoll.nearer howed.armed hcap hedge hsplit hnot
  exact ⟨pre', _, post', hrot, by omega, visit_id .., visit_events ..,
    howed.visited fun r hr => hnot r (got_subset_visits hsplit r hr)⟩

end

theorem lxEpEval_congr {it it' : Item} (hid : it'.id = it.id) (hev : it'.events = it.events)
    (o : Obj) : lxEpEval it' o = lxEpEval it o := by
  have htype : it'.type = it.type := congrArg (·.2.2) hid
  unfold lxEpEval Item.want
  rw [htype, hev]

/-! ### Runs of scans -/

/-- The set after some scans. -/
def scans (H : History) (looks : List Look) (ep : EpSet) : EpSet :=
  looks.foldl (fun ep l => (lxEpScan H l ep).2) ep

/-- All that some scans report. -/
def reports (H : History) : List Look → EpSet → List Report
  | [], _ => []
  | l :: looks, ep => (lxEpScan H l ep).1 ++ reports H looks (lxEpScan H l ep).2

section
variable {H : History} {d : Dir} {bit : UInt32} {g : Nat} {it : Item}

theorem Owed.scans (looks : List Look) {ep : EpSet} (howed : Owed d bit g it)
    (hit : it ∈ ep.items) (hgone : ∀ l ∈ looks, l.gone it.id = false)
    (hnot : ∀ r ∈ reports H looks ep, r.id ≠ it.id) :
    ∃ it' ∈ (Epoll.scans H looks ep).items, Kept d bit g it it' := by
  induction looks generalizing ep it with
  | nil => exact ⟨it, hit, rfl, rfl, howed⟩
  | cons l looks ih =>
    obtain ⟨it', hit', hkept⟩ := howed.scan hit (hgone l mem_cons_self)
      fun r hr => hnot r (mem_append_left _ hr)
    obtain ⟨it'', hit'', hkept'⟩ := ih hkept.owed hit'
      (fun l hl => hkept.id ▸ hgone l (mem_cons_of_mem _ hl))
      (fun r hr => hkept.id ▸ hnot r (mem_append_right _ hr))
    exact ⟨it'', hit'', hkept'.id.trans hkept.id, hkept'.events.trans hkept.events, hkept'.owed⟩

/-- How far an item is from being visited first, items that may still go counted in. -/
def distance (bound n p : Nat) : Nat := n * bound + p

theorem Owed.progress {l : Look} {ep : EpSet} {pre post : List Item} {bound : Nat}
    (howed : Owed d bit g it) (hbit : bit &&& d.mask = bit) (hsees : Sees H d bit g it l)
    (hcap : 0 < l.cap) (hgone : l.gone it.id = false) (hrr : ep.rr < ep.items.length)
    (hbound : ep.items.length ≤ bound) (hsplit : ep.items.rotate ep.rr = pre ++ it :: post)
    (hnot : ∀ r ∈ (lxEpScan H l ep).1, r.id ≠ it.id) :
    (lxEpScan H l ep).2.rr < (lxEpScan H l ep).2.items.length ∧
      (lxEpScan H l ep).2.items.length ≤ ep.items.length ∧
      ∃ pre' it' post',
        (lxEpScan H l ep).2.items.rotate (lxEpScan H l ep).2.rr = pre' ++ it' :: post' ∧
          Kept d bit g it it' ∧
          distance bound (lxEpScan H l ep).2.items.length pre'.length <
            distance bound ep.items.length pre.length := by
  have hmem : it ∈ ep.items := by
    rw [← mem_rotate (n := ep.rr), hsplit]
    exact mem_append_right _ mem_cons_self
  have hle : (live l ep).length ≤ ep.items.length := length_filter_le _ _
  have hpos : 0 < (live l ep).length :=
    length_pos_of_mem (mem_filter.2 ⟨hmem, by rw [hgone]; rfl⟩)
  rw [scan_length]
  refine ⟨scan_rr_lt H hpos, hle, ?_⟩
  obtain ⟨pre₁, post₁, hsplit₁⟩ := exists_split hmem hgone
  have hpre₁ : pre₁.length < (live l ep).length := by
    have := congrArg length hsplit₁
    simp at this
    omega
  by_cases hall : (live l ep).length = ep.items.length
  · -- Nothing was dropped: the item is where it was.
    have hlive : live l ep = ep.items :=
      filter_sublist.eq_of_length hall
    have hfirst : first l ep = ep.rr := by
      unfold first
      rw [hall, if_neg (by omega)]
    rw [← hlive, ← hfirst] at hsplit
    obtain ⟨pre', it', post', hrot, hlt, hkept⟩ := howed.nearer hbit hsees hcap hsplit hnot
    refine ⟨pre', it', post', hrot, hkept, ?_⟩
    unfold distance
    rw [hall]
    omega
  · obtain ⟨pre', it', post', hrot, hlt, hkept⟩ := howed.nearer hbit hsees hcap hsplit₁ hnot
    refine ⟨pre', it', post', hrot, hkept, ?_⟩
    have hmul : ((live l ep).length + 1) * bound ≤ ep.items.length * bound :=
      Nat.mul_le_mul_right bound (by omega)
    unfold distance
    rw [Nat.succ_mul] at hmul
    omega

theorem Owed.reported (looks : List Look) {ep : EpSet} {pre post : List Item} {bound : Nat}
    (howed : Owed d bit g it) (hbit : bit &&& d.mask = bit)
    (hlooks : ∀ l ∈ looks, Sees H d bit g it l ∧ 0 < l.cap ∧ l.gone it.id = false)
    (hrr : ep.rr < ep.items.length) (hbound : ep.items.length ≤ bound)
    (hsplit : ep.items.rotate ep.rr = pre ++ it :: post)
    (henough : distance bound ep.items.length pre.length < looks.length) :
    ∃ r ∈ reports H looks ep, r.id = it.id := by
  induction looks generalizing ep it pre post with
  | nil => exact absurd henough (Nat.not_lt_zero _)
  | cons l looks ih =>
    by_cases hnow : ∃ r ∈ (lxEpScan H l ep).1, r.id = it.id
    · obtain ⟨r, hr, hid⟩ := hnow
      exact ⟨r, mem_append_left _ hr, hid⟩
    push Not at hnow
    obtain ⟨hsees, hcap, hgone⟩ := hlooks l mem_cons_self
    obtain ⟨hrr', hle, pre', it', post', hsplit', hkept, hlt⟩ :=
      howed.progress hbit hsees hcap hgone hrr hbound hsplit hnow
    obtain ⟨r, hr, hid⟩ := ih hkept.owed
      (fun l hl => by
        obtain ⟨hsees, hcap, hgone⟩ := hlooks l (mem_cons_of_mem _ hl)
        refine ⟨fun k => ?_, hcap, hkept.id ▸ hgone⟩
        rw [hkept.id, lxEpEval_congr hkept.id hkept.events]
        exact hsees k)
      hrr' (hle.trans hbound) hsplit' (by rw [length_cons] at henough; omega)
    exact ⟨r, mem_append_right _ hr, hid.trans hkept.id⟩

end

/-! ### The last report -/

/-- The item after its report: it remembers the events and the generations read. -/
structure Settled (rev gi go : UInt32) (it : Item) : Prop where
  edge : it.Edge
  rev : it.etRev = rev
  gens : (it.etIn, it.etOut) = (gi, go)

instance (rev gi go : UInt32) (it : Item) : Decidable (Settled rev gi go it) :=
  decidable_of_iff (it.Edge ∧ it.etRev = rev ∧ (it.etIn, it.etOut) = (gi, go))
    ⟨fun h => ⟨h.1, h.2.1, h.2.2⟩, fun h => ⟨h.edge, h.rev, h.gens⟩⟩

section
variable {H : History} {l : Look} {ep : EpSet} {it : Item} {r : Report}

theorem report_leaves (hep : ep.Distinct) (hit : it ∈ ep.items) (hedge : it.Edge)
    (hr : r ∈ (lxEpScan H l ep).1) (hid : it.id = r.id) :
    lxEpEval it (H r.evalAt r.id) ≠ 0 ∧ r.evalAt ≤ r.gensAt ∧
      ∃ it' ∈ (lxEpScan H l ep).2.items, it'.id = it.id ∧ it'.events = it.events ∧
        it'.armed = (if it.events &&& lxEpollOneshot ≠ 0 then false else true) ∧
        Settled (lxEpEval it (H r.evalAt r.id)) (lxEpGens (H r.gensAt r.id)).1
          (lxEpGens (H r.gensAt r.id)).2 it' := by
  have hgone : l.gone it.id = false := by
    obtain ⟨rs, hrs, hids⟩ := sweep_got H l 0 ((live l ep).rotate (first l ep)) ⟨[], none, false⟩
    have hmem := hids.subset (mem_map_of_mem (by rw [← nil_append rs, ← hrs]; exact hr))
    rw [map_rotate, mem_rotate] at hmem
    obtain ⟨it', hit', hid'⟩ := mem_map.1 hmem
    have hlive := (mem_filter.1 hit').2
    rw [hid', ← hid] at hlive
    simpa using hlive
  obtain ⟨pre, post, hsplit⟩ := exists_split hit hgone
  have hnodup : ((pre ++ it :: post).map Item.id).Nodup := by
    rw [← hsplit, map_rotate, nodup_rotate]
    exact hep.sublist (filter_sublist.map _)
  rw [map_append, map_cons, nodup_append, nodup_cons] at hnodup
  obtain ⟨-, ⟨hpost, -⟩, hpre⟩ := hnodup
  have hv := visits_split (H := H) hsplit
  obtain ⟨rs, hrs, hids⟩ := sweep_got H l 0 pre ⟨[], none, false⟩
  generalize sweep H l 0 pre ⟨[], none, false⟩ = a at hv hrs
  obtain ⟨rs', hrs', hids'⟩ := sweep_got H l (pre.length + 1) post (visit H l pre.length it a.2).2
  have hgot : r ∈ (visit H l pre.length it a.2).2.got := by
    have hr : r ∈ (visits H l ep).2.got := hr
    simp only [hv, hrs'] at hr
    refine (mem_append.1 hr).resolve_right fun h => hpost ?_
    rw [hid]
    exact hids'.subset (mem_map_of_mem h)
  have hnot : r ∉ a.2.got := by
    rw [hrs]
    intro h
    exact hpre r.id (hids.subset (mem_map_of_mem h)) it.id mem_cons_self hid.symm
  have hmem : (visit H l pre.length it a.2).1 ∈ (lxEpScan H l ep).2.items := by
    rw [mem_scan, hv]
    exact mem_append_right _ mem_cons_self
  obtain ⟨h, -⟩ | ⟨-, -, rev, gi, go, full, -, -, h, -⟩ |
    ⟨-, harmed, rev, gi, go, hrev, hgens, hhit, h⟩ := visit_cases H l pre.length it a.2
  · exact absurd (by rwa [h] at hgot) hnot
  · exact absurd (by rwa [h] at hgot) hnot
  rw [h] at hgot hmem
  obtain rfl := mem_singleton.1 ((mem_append.1 hgot).resolve_left hnot)
  rw [← hrev, ← hgens]
  have hne : rev ≠ 0 := by
    rintro rfl
    simp [Item.examine, hedge] at hhit
  have hexam : it.examine rev gi go = ({ it with etRev := it.etRev &&& rev }, it.edge rev gi go) := by
    rw [Item.examine, if_pos hedge, if_neg hne]
  rw [hexam] at hmem
  refine ⟨hne, l.mono (Nat.le_succ _), _, hmem, rfl, rfl, ?_, hedge, if_pos hedge, ?_⟩
  · show (if _ then false else it.armed) = _
    rw [harmed]
  · exact Prod.ext (if_pos hedge) (if_pos hedge)

/-- A settled item whose readings are as they were at its report is left alone. -/
theorem Settled.visit {rev gi go : UInt32} {k : Nat} {w : Sweep} (h : Settled rev gi go it)
    (hrev : lxEpEval it (H (l.time (2 * k)) it.id) = rev) (hne : rev ≠ 0)
    (hgens : lxEpGens (H (l.time (2 * k + 1)) it.id) = (gi, go)) :
    (Epoll.visit H l k it w).1 = it ∧ (Epoll.visit H l k it w).2.got = w.got := by
  have hexam : it.examine rev gi go = (it, false) := by
    obtain ⟨rfl, rfl⟩ := Prod.mk.inj h.gens
    rw [Item.examine, Item.edge, if_pos h.edge, if_neg hne, h.rev]
    simp [← h.rev]
  obtain ⟨hv, -⟩ | ⟨-, -, rev', gi', go', full, hrev', hgens', hv, -⟩ |
    ⟨-, -, rev', gi', go', hrev', hgens', hhit, hv⟩ := visit_cases H l k it w
  · rw [hv]
    exact ⟨rfl, rfl⟩
  all_goals obtain ⟨rfl, rfl⟩ := Prod.mk.inj (hgens'.trans hgens)
  · simp [hv, hrev'.trans hrev, hexam]
  · simp [hrev'.trans hrev, hexam] at hhit

/-- The items that share an identity are all settled and register the same events. -/
def AllSettled (rev gi go events : UInt32) (x : Id) (items : List Item) : Prop :=
  ∀ it ∈ items, it.id = x → Settled rev gi go it ∧ it.events = events

theorem AllSettled.sweep {rev gi go events : UInt32} {x : Id} (items : List Item) {k : Nat}
    {w : Sweep} (h : AllSettled rev gi go events x items) (hne : rev ≠ 0)
    (hrev : ∀ k it, it.id = x → it.events = events → lxEpEval it (H (l.time k) x) = rev)
    (hgens : ∀ k, lxEpGens (H (l.time k) x) = (gi, go)) (hw : ∀ r ∈ w.got, r.id ≠ x) :
    AllSettled rev gi go events x (Epoll.sweep H l k items w).1 ∧
      ∀ r ∈ (Epoll.sweep H l k items w).2.got, r.id ≠ x := by
  induction items generalizing k w with
  | nil => exact ⟨h, hw⟩
  | cons it items ih =>
    have hrest : AllSettled rev gi go events x items := fun i hi => h i (mem_cons_of_mem _ hi)
    by_cases hid : it.id = x
    · obtain ⟨hset, hev⟩ := h it mem_cons_self hid
      obtain ⟨hitem, hgot⟩ := hset.visit (H := H) (l := l) (k := k) (w := w)
        (hid ▸ hrev _ it hid hev) hne (hid ▸ hgens _)
      obtain ⟨hall, hnone⟩ := ih (k := k + 1) hrest (hgot.symm ▸ hw)
      refine ⟨fun i hi hix => ?_, hnone⟩
      rcases mem_cons.1 hi with rfl | hi
      · rw [hitem]
        exact ⟨hset, hev⟩
      · exact hall i hi hix
    · obtain ⟨rs, hrs, hids⟩ := visit_got H l k it w
      have hw' : ∀ r ∈ (Epoll.visit H l k it w).2.got, r.id ≠ x := by
        intro r hr
        rcases mem_append.1 (hrs ▸ hr) with hr | hr
        · exact hw r hr
        · rwa [mem_singleton.1 (hids.subset (mem_map_of_mem hr))]
      obtain ⟨hall, hnone⟩ := ih (k := k + 1) hrest hw'
      refine ⟨fun i hi hix => ?_, hnone⟩
      rcases mem_cons.1 hi with rfl | hi
      · exact absurd ((visit_id H l k it w).symm.trans hix) hid
      · exact hall i hi hix

theorem AllSettled.scans {rev gi go events : UInt32} {x : Id} (looks : List Look) {ep : EpSet}
    (h : AllSettled rev gi go events x ep.items) (hne : rev ≠ 0)
    (hlooks : ∀ l ∈ looks, ∀ k, lxEpGens (H (l.time k) x) = (gi, go) ∧
      ∀ it, it.id = x → it.events = events → lxEpEval it (H (l.time k) x) = rev) :
    ∀ r ∈ reports H looks ep, r.id ≠ x := by
  induction looks generalizing ep with
  | nil => exact fun r hr => absurd hr not_mem_nil
  | cons l looks ih =>
    have hlook := hlooks l mem_cons_self
    have hstart : AllSettled rev gi go events x ((live l ep).rotate (first l ep)) := fun it hit =>
      h it (mem_of_mem_filter (mem_rotate.1 hit))
    obtain ⟨hall, hnone⟩ := AllSettled.sweep (H := H) (l := l) (k := 0) (w := ⟨[], none, false⟩) _
      hstart hne (fun k it hid hev => (hlook k).2 it hid hev) (fun k => (hlook k).1) (by simp)
    intro r hr
    rcases mem_append.1 hr with hr | hr
    · exact hnone r hr
    · exact ih (fun it hit => hall it (mem_scan.1 hit))
        (fun l hl => hlooks l (mem_cons_of_mem _ hl)) r hr

end

/-! ### Histories -/

/-- Generations never go back, and what changes an object's readiness advances one of
them. -/
structure Evolves (H : History) : Prop where
  inGen : ∀ t x, (H t x).inGen ≤ (H (t + 1) x).inGen
  outGen : ∀ t x, (H t x).outGen ≤ (H (t + 1) x).outGen
  change : ∀ t x, (H t x).ready ≠ (H (t + 1) x).ready →
    (H t x).inGen < (H (t + 1) x).inGen ∨ (H t x).outGen < (H (t + 1) x).outGen

/-- Neither generation of the object differs. -/
def Unmoved (o o' : Obj) : Prop := o'.inGen = o.inGen ∧ o'.outGen = o.outGen

instance (o o' : Obj) : Decidable (Unmoved o o') := inferInstanceAs (Decidable (_ ∧ _))

section
variable {H : History}

theorem Evolves.mono (hH : Evolves H) (x : Id) {t t' : Nat} (h : t ≤ t') :
    (H t x).inGen ≤ (H t' x).inGen ∧ (H t x).outGen ≤ (H t' x).outGen := by
  induction h with
  | refl => exact ⟨Nat.le_refl _, Nat.le_refl _⟩
  | step _ ih => exact ⟨ih.1.trans (hH.inGen _ x), ih.2.trans (hH.outGen _ x)⟩

theorem Evolves.same (hH : Evolves H) {x : Id} {t t' : Nat} (h : t ≤ t')
    (hgens : Unmoved (H t x) (H t' x)) : H t' x = H t x := by
  induction t', h using Nat.le_induction with
  | base => rfl
  | succ t' h ih =>
    have hle := hH.mono x h
    have hin := hH.inGen t' x
    have hout := hH.outGen t' x
    obtain ⟨hgin, hgout⟩ := hgens
    have hready : (H t' x).ready = (H (t' + 1) x).ready := by
      by_contra hne
      have := hH.change t' x hne
      omega
    have hprev : H t' x = H t x := ih ⟨by omega, by omega⟩
    exact Obj.ext (hready.symm.trans (congrArg Obj.ready hprev)) hgin hgout

end

/-! ### No edge is lost -/

/-- The next scan begins inside the set. -/
def EpSet.InRange (ep : EpSet) : Prop := 0 < ep.items.length → ep.rr < ep.items.length

theorem scan_inRange (H : History) (l : Look) (ep : EpSet) : (lxEpScan H l ep).2.InRange := by
  intro hpos
  rw [scan_length] at hpos ⊢
  exact scan_rr_lt H hpos

theorem scans_inRange (H : History) (looks : List Look) {ep : EpSet} (h : ep.InRange) :
    (scans H looks ep).InRange := by
  induction looks generalizing ep with
  | nil => exact h
  | cons l looks ih => exact ih (scan_inRange H l ep)

theorem scan_length_le (H : History) (l : Look) (ep : EpSet) :
    (lxEpScan H l ep).2.items.length ≤ ep.items.length := by
  rw [scan_length]
  exact length_filter_le _ _

theorem scans_length_le (H : History) (looks : List Look) (ep : EpSet) :
    (scans H looks ep).items.length ≤ ep.items.length := by
  induction looks generalizing ep with
  | nil => exact Nat.le_refl _
  | cons l looks ih => exact (ih _).trans (scan_length_le H l ep)

/-- **Edges.** Take any reachable set and a scan that reports an edge-triggered item.

If the item stays armed and is not reported by the scans `before`, and in the scans `after`
the event is ready and its generation has advanced since the report, fewer than 2^32 times,
then `after` reports the item, as soon as it has as many scans as the set could have turns.

And as long as no generation of the object advances after it was evaluated for the report,
the item is not reported again. -/
theorem edges_reported {H : History} (hH : Evolves H) (es : List Sys.Event) (a : Addr) (l : Look)
    {it : Item} {r : Report} (hit : it ∈ ((Sys.init.run es).sets a).items) (hedge : it.Edge)
    (hr : r ∈ (lxEpScan H l ((Sys.init.run es).sets a)).1) (hid : it.id = r.id) :
    (∀ (d : Dir) (bit : UInt32) (before after : List Look),
      it.events &&& lxEpollOneshot = 0 → bit &&& d.mask = bit →
      (∀ l' ∈ before ++ after, l'.gone r.id = false) →
      (∀ q ∈ reports H before (lxEpScan H l ((Sys.init.run es).sets a)).2, q.id ≠ r.id) →
      (∀ l' ∈ after, 0 < l'.cap ∧ ∀ k, lxEpEval it (H (l'.time k) r.id) &&& bit ≠ 0 ∧
        d.gen (H r.gensAt r.id) < d.gen (H (l'.time k) r.id) ∧
        d.gen (H (l'.time k) r.id) < d.gen (H r.gensAt r.id) + 2 ^ 32) →
      ((Sys.init.run es).sets a).items.length * (((Sys.init.run es).sets a).items.length + 1) ≤
        after.length →
      ∃ q ∈ reports H after (scans H before (lxEpScan H l ((Sys.init.run es).sets a)).2),
        q.id = r.id) ∧
    ∀ later : List Look,
      (∀ l' ∈ later, ∀ k, r.gensAt ≤ l'.time k ∧ Unmoved (H r.evalAt r.id) (H (l'.time k) r.id)) →
      ∀ q ∈ reports H later (lxEpScan H l ((Sys.init.run es).sets a)).2, q.id ≠ r.id := by
  have hdistinct := EpSet.Distinct.stable.run (s := Sys.init) (fun _ => nodup_nil) es a
  generalize (Sys.init.run es).sets a = ep at hit hr hdistinct ⊢
  obtain ⟨hne, hle, it', hit', hid', hev', harmed', hset⟩ := report_leaves hdistinct hit hedge hr hid
  have hidr : it'.id = r.id := hid'.trans hid
  constructor
  · intro d bit before after honeshot hbit hgone hnot hafter henough
    have howed : Owed d bit (d.gen (H r.gensAt r.id)) it' := by
      refine ⟨?_, hset.edge, .inr ?_⟩
      · rw [harmed', if_neg (not_not.2 honeshot)]
      · cases d with
        | input => exact congrArg Prod.fst hset.gens
        | output => exact congrArg Prod.snd hset.gens
    obtain ⟨it₂, hit₂, hkept⟩ := howed.scans before hit'
      (fun l' hl' => hidr ▸ hgone l' (mem_append_left _ hl')) (fun q hq => hidr ▸ hnot q hq)
    have hid₂ : it₂.id = r.id := hkept.id.trans hidr
    have hinRange := scans_inRange H before (scan_inRange H l ep)
    have hlen := (scans_length_le H before _).trans (scan_length_le H l ep)
    generalize scans H before (lxEpScan H l ep).2 = ep₂ at hit₂ hinRange hlen ⊢
    obtain ⟨pre, post, hsplit⟩ := append_of_mem (mem_rotate (n := ep₂.rr).2 hit₂)
    have hpre : pre.length < ep₂.items.length := by
      have := congrArg length hsplit
      simp at this
      omega
    obtain ⟨q, hq, hqid⟩ := hkept.owed.reported after hbit
      (fun l' hl' => ⟨fun k => by
        rw [hid₂, lxEpEval_congr (hkept.id.trans hid') (hkept.events.trans hev')]
        exact (hafter l' hl').2 k, (hafter l' hl').1,
        hid₂ ▸ hgone l' (mem_append_right _ hl')⟩)
      (hinRange (length_pos_of_mem hit₂)) hlen hsplit (by
        have := Nat.mul_le_mul_right ep.items.length hlen
        unfold distance
        rw [Nat.mul_succ] at henough
        omega)
    exact ⟨q, hq, hqid.trans hid₂⟩
  · intro later hlater
    have hall : AllSettled (lxEpEval it (H r.evalAt r.id)) (lxEpGens (H r.gensAt r.id)).1
        (lxEpGens (H r.gensAt r.id)).2 it.events r.id (lxEpScan H l ep).2.items := by
      intro i hi hix
      obtain rfl := inj_on_of_nodup_map (hdistinct.scan H l) hi hit' (hix.trans hidr.symm)
      exact ⟨hset, hev'⟩
    refine hall.scans later hne fun l' hl' k => ?_
    obtain ⟨hafter, hunmoved⟩ := hlater l' hl' k
    have hnow := hH.same (hle.trans hafter) hunmoved
    have hread : H r.gensAt r.id = H r.evalAt r.id := by
      refine hH.same hle ?_
      have h₁ := hH.mono r.id hle
      have h₂ := hH.mono r.id hafter
      obtain ⟨hin, hout⟩ := hunmoved
      exact ⟨by omega, by omega⟩
    rw [hnow, hread]
    exact ⟨rfl, fun i hi hev => lxEpEval_congr (hi.trans hid.symm) hev _⟩

/-- A scan at one moment, with room for one event. -/
def scanAt (t : Nat) : Look := ⟨1, fun _ => false, fun _ => t, fun _ _ _ => Nat.le_refl _⟩

/-- Data arrives at every tick until there were 2^32 arrivals. -/
def arrivals : History := fun t _ => ⟨0x1, min t (2 ^ 32), 0⟩

theorem arrivals_evolves : Evolves arrivals where
  inGen t x := by
    simp only [arrivals]
    omega
  outGen _ _ := Nat.le_refl _
  change t x h := absurd rfl h

/-- A process with two eventfds watches the first edge-triggered, the second not. -/
def twoItems : List Sys.Event :=
  [.open 0 5 .eventfd 50, .open 0 6 .eventfd 60, .create 0 false 9,
    .ctl 0 0 .add 5 (some ⟨0x80000001, 55⟩) true, .ctl 0 0 .add 6 (some ⟨0x1, 66⟩) true]

/-- The edge-triggered item of `twoItems`. -/
def watched : Item := ⟨5, 0x80000001, 55, 50, .eventfd, true, true, 0, 0, 0⟩

theorem watched_ready (t : Nat) (x : Id) : lxEpEval watched (arrivals t x) = 0x1 := by
  exact (by decide : (0x1 : UInt32) &&& (watched.want ||| 0x18) = 0x1)

/-- Its report by a scan at one moment. -/
def reportAt (t : Nat) : Report := ⟨watched.id, 0x1, 55, t, t⟩

theorem edges_reported_twice :
    (∃ q ∈ reports arrivals [scanAt 1, scanAt 2, scanAt 3, scanAt 4, scanAt 5, scanAt 6]
        (scans arrivals [] (lxEpScan arrivals (scanAt 0) ((Sys.init.run twoItems).sets 9)).2),
      q.id = watched.id) ∧
    ∀ q ∈ reports arrivals [scanAt (2 ^ 32 + 1), scanAt (2 ^ 32 + 2)]
      (lxEpScan arrivals (scanAt (2 ^ 32)) ((Sys.init.run twoItems).sets 9)).2,
      q.id ≠ watched.id := by
  have hit : watched ∈ ((Sys.init.run twoItems).sets 9).items := by decide +kernel
  constructor
  · refine (edges_reported arrivals_evolves twoItems 9 (scanAt 0) (r := reportAt 0) hit
      (by decide) (by decide +kernel) rfl).1 .input 0x1 [] _ (by decide) (by decide) ?_ ?_ ?_
      (by decide +kernel)
    · exact fun l' hl' => by simp only [nil_append, mem_cons] at hl'; grind [scanAt]
    · exact fun q hq => absurd hq not_mem_nil
    · have hsees : ∀ t, 0 < t → t ≤ 6 → 0 < (scanAt t).cap ∧ ∀ k,
          lxEpEval watched (arrivals ((scanAt t).time k) watched.id) &&& 0x1 ≠ 0 ∧
          Dir.input.gen (arrivals 0 watched.id) <
            Dir.input.gen (arrivals ((scanAt t).time k) watched.id) ∧
          Dir.input.gen (arrivals ((scanAt t).time k) watched.id) <
            Dir.input.gen (arrivals 0 watched.id) + 2 ^ 32 := by
        intro t ht hle
        refine ⟨Nat.one_pos, fun k => ⟨by rw [watched_ready]; decide, ?_, ?_⟩⟩
        · simp only [arrivals, Dir.gen, scanAt]
          omega
        · simp only [arrivals, Dir.gen, scanAt]
          omega
      intro l' hl'
      simp only [mem_cons, not_mem_nil, or_false] at hl'
      obtain rfl | rfl | rfl | rfl | rfl | rfl := hl' <;> exact hsees _ (by decide) (by decide)
  · refine (edges_reported arrivals_evolves twoItems 9 (scanAt (2 ^ 32)) (r := reportAt (2 ^ 32)) hit
      (by decide) (by decide +kernel) rfl).2 _ ?_
    intro l' hl' k
    simp only [mem_cons, not_mem_nil, or_false] at hl'
    obtain rfl | rfl := hl'
    all_goals
      refine ⟨?_, ?_, rfl⟩
      · simp only [reportAt, scanAt]
        omega
      · simp only [reportAt, scanAt, arrivals]
        omega

/-- Scans 2^31 arrivals apart. The first reports the edge-triggered item, the second sees
its edge when the output is full, and for the third and every later one 2^32 arrivals look
like none: the item is ready, was never reported since, and is not reported again. -/
theorem edge_lost :
    Evolves arrivals ∧
    (∀ j x, (arrivals ((j + 1) * 2 ^ 31) x).inGen < (arrivals (j * 2 ^ 31) x).inGen + 2 ^ 32) ∧
    watched ∈ ((Sys.init.run twoItems).sets 9).items ∧ watched.Edge ∧
    watched.events &&& lxEpollOneshot = 0 ∧
    reportAt 0 ∈ (lxEpScan arrivals (scanAt 0) ((Sys.init.run twoItems).sets 9)).1 ∧
    (∀ j, lxEpEval watched (arrivals ((j + 1) * 2 ^ 31) watched.id) &&& 0x1 ≠ 0 ∧
      (arrivals 0 watched.id).inGen < (arrivals ((j + 1) * 2 ^ 31) watched.id).inGen) ∧
    ∀ m, ∀ q ∈ reports arrivals ((List.range m).map fun j => scanAt ((j + 1) * 2 ^ 31))
      (lxEpScan arrivals (scanAt 0) ((Sys.init.run twoItems).sets 9)).2, q.id ≠ watched.id := by
  refine ⟨arrivals_evolves, fun j x => ?_, by decide +kernel, by decide, by decide,
    by decide +kernel, fun j => ⟨by rw [watched_ready]; decide, ?_⟩, fun m => ?_⟩
  · simp only [arrivals]
    omega
  · simp only [arrivals]
    omega
  cases m with
  | zero => exact fun q hq => absurd hq not_mem_nil
  | succ m =>
    rw [range_succ_eq_map, map_cons, map_map]
    intro q hq
    rcases mem_append.1 hq with hq | hq
    · have hsecond : ∀ q ∈ (lxEpScan arrivals (scanAt ((0 + 1) * 2 ^ 31))
          (lxEpScan arrivals (scanAt 0) ((Sys.init.run twoItems).sets 9)).2).1,
          q.id ≠ watched.id := by decide +kernel
      exact hsecond q hq
    · -- From the second scan on the item is as it was left by its report.
      have hall : AllSettled 0x1 0 0 watched.events watched.id
          (lxEpScan arrivals (scanAt ((0 + 1) * 2 ^ 31))
            (lxEpScan arrivals (scanAt 0) ((Sys.init.run twoItems).sets 9)).2).2.items := by
        unfold AllSettled
        decide +kernel
      refine hall.scans _ (by decide) ?_ q hq
      intro l' hl' k
      obtain ⟨j, -, rfl⟩ := mem_map.1 hl'
      have hgens : arrivals ((j + 1 + 1) * 2 ^ 31) watched.id = ⟨0x1, 2 ^ 32, 0⟩ := by
        simp only [arrivals, Obj.mk.injEq, true_and, and_true]
        omega
      refine ⟨?_, fun i hid hev => ?_⟩
      · show lxEpGens (arrivals ((j + 1 + 1) * 2 ^ 31) watched.id) = _
        rw [hgens]
        decide
      · rw [lxEpEval_congr hid hev]
        exact watched_ready _ _

end InDevOS.Epoll
