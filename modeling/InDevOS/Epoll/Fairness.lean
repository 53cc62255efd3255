import InDevOS.Epoll.Edges

/-! Level-triggered items.

A scan begins behind the last item that filled the output of the one before. An item that
is ready whenever it is looked at is passed over only when the output filled up before it,
so every such scan brings it nearer to the start by its capacity, and of `n` items none
waits longer than `⌈n / c⌉` scans (`level_items_served`). -/
namespace InDevOS.Epoll
open Lib List

/-- Reported for as long as it is ready. -/
def Item.Level (it : Item) : Prop := ¬it.Edge ∧ it.events &&& lxEpollOneshot = 0

instance (it : Item) : Decidable it.Level := inferInstanceAs (Decidable (_ ∧ _))

/-! ### A level-triggered item never changes -/

section
variable {H : History} {l : Look} {k : Nat} {it : Item} {w : Sweep}

theorem Item.Level.examine (h : it.Level) (rev gi go : UInt32) : it.examine rev gi go = (it, rev != 0) :=
  if_neg h.1

theorem Item.Level.visit (h : it.Level) : (visit H l k it w).1 = it := by
  obtain ⟨hv, -⟩ | ⟨-, -, rev, gi, go, full, -, -, hv, -⟩ | ⟨-, -, rev, gi, go, -, -, -, hv⟩ :=
    visit_cases H l k it w
  · rw [hv]
  · rw [hv, h.examine]
  · rw [hv, h.examine]
    simp [Item.reported, h.1, h.2]

theorem Item.Level.of_events {it' : Item} (h : it.Level) (hev : it'.events = it.events) : it'.Level := by
  simpa [Item.Level, Item.Edge, hev] using h

/-- Only one-shot items are disarmed. -/
def EpSet.LevelArmed (ep : EpSet) : Prop := ∀ it ∈ ep.items, it.Level → it.armed = true

theorem sweep_level (items : List Item) (h : ∀ it ∈ items, it.Level → it.armed = true) :
    ∀ it ∈ (sweep H l k items w).1, it.Level → it.armed = true := by
  induction items generalizing k w with
  | nil => exact h
  | cons x items ih =>
    intro it hit hlevel
    rcases mem_cons.1 hit with rfl | hit
    · have hx : x.Level := hlevel.of_events (visit_events H l k x w).symm
      rw [hx.visit]
      exact h x mem_cons_self hx
    · exact ih (fun y hy => h y (mem_cons_of_mem _ hy)) it hit hlevel

theorem EpSet.LevelArmed.stable : Sys.Stable EpSet.LevelArmed where
  zero := by simp [EpSet.LevelArmed, EpSet.zero]
  ctl h op fd f ev alloc := by
    intro it hit hlevel
    obtain hold | ⟨harmed, -⟩ | ⟨-, rfl⟩ := (Sys.ctlSet_controlled _ op fd f ev alloc).mem hit
    · exact h it hold hlevel
    · exact harmed
    · rfl
  scan h H l := by
    intro it hit
    refine sweep_level _ (fun x hx => h x ?_) it (mem_scan.1 hit)
    exact mem_of_mem_filter (mem_rotate.1 hx)
  forget h _ _ := fun it hit => h it (mem_of_mem_filter hit)

end

/-! ### No scan reports an item twice -/

section
variable {H : History} {l : Look}

theorem EpSet.Distinct.reports_nodup {ep : EpSet} (h : ep.Distinct) (H : History) (l : Look) :
    ((lxEpScan H l ep).1.map Report.id).Nodup := by
  obtain ⟨rs, hrs, hsub⟩ := sweep_got H l 0 ((live l ep).rotate (first l ep)) ⟨[], none, false⟩
  show ((visits H l ep).2.got.map Report.id).Nodup
  rw [visits, hrs, nil_append]
  refine hsub.nodup ?_
  rw [map_rotate, nodup_rotate]
  exact h.sublist (filter_sublist.map _)

/-! ### Every scan comes nearer -/

/-- The scan has room for `c` events, drops none of the items and finds the item ready. -/
structure Offers (H : History) (c : Nat) (ids : List Id) (it : Item) (l : Look) : Prop where
  cap : l.cap = c
  present : ∀ x ∈ ids, l.gone x = false
  ready : ∀ k, lxEpEval it (H (l.time k) it.id) ≠ 0

variable {c : Nat} {it : Item} {ep : EpSet} {ids : List Id}

theorem live_eq_items (hids : ∀ x ∈ ep.items.map Item.id, x ∈ ids) (hl : Offers H c ids it l) :
    live l ep = ep.items := by
  refine filter_eq_self.2 fun x hx => ?_
  simp [hl.present x.id (hids _ (mem_map_of_mem hx))]

theorem served_within (looks : List Look) {pre post : List Item} (hc : 0 < c) (hlevel : it.Level)
    (harmed : it.armed = true) (hids : ∀ x ∈ ep.items.map Item.id, x ∈ ids)
    (hlooks : ∀ l ∈ looks, Offers H c ids it l)
    (hsplit : ∀ l ∈ looks, (live l ep).rotate (first l ep) = pre ++ it :: post)
    (henough : pre.length < looks.length * c) : ∃ r ∈ reports H looks ep, r.id = it.id := by
  induction looks generalizing ep pre post with
  | nil => simp at henough
  | cons l looks ih =>
    by_cases hnow : ∃ r ∈ (lxEpScan H l ep).1, r.id = it.id
    · obtain ⟨r, hr, hid⟩ := hnow
      exact ⟨r, mem_append_left _ hr, hid⟩
    push Not at hnow
    have hl := hlooks l mem_cons_self
    have hat := hsplit l mem_cons_self
    have hhit : ∀ gi go, (it.examine (lxEpEval it (H (l.time (2 * pre.length)) it.id)) gi go).2 = true := by
      intro gi go
      rw [hlevel.examine]
      simpa using hl.ready _
    obtain ⟨pre', post', hrot, hlt⟩ := nearer harmed (hl.cap ▸ hc) (hhit _ _) hat hnow
    rw [hlevel.visit] at hrot
    have hpos : 0 < (live l ep).length := by
      have := congrArg length hat
      rw [length_rotate, length_append, length_cons] at this
      omega
    have hids' : ∀ x ∈ (lxEpScan H l ep).2.items.map Item.id, x ∈ ids := fun x hx =>
      hids x (live_eq_items hids hl ▸ (lxEpScan_ids H l ep x).1 hx)
    have hrr : (lxEpScan H l ep).2.rr < _ := scan_rr_lt H hpos
    rw [← scan_length H] at hrr
    have hsplit' : ∀ l' ∈ looks, (live l' (lxEpScan H l ep).2).rotate (first l' (lxEpScan H l ep).2) =
        pre' ++ it :: post' := by
      intro l' hl'
      rw [first, live_eq_items hids' (hlooks l' (mem_cons_of_mem _ hl')), if_neg (by omega), hrot]
    have hless : pre'.length < looks.length * c := by
      rw [length_cons, Nat.succ_mul] at henough
      have := hl.cap
      omega
    obtain ⟨r, hr, hid⟩ := ih hids' (fun l' hl' => hlooks l' (mem_cons_of_mem _ hl')) hsplit' hless
    exact ⟨r, mem_append_right _ hr, hid⟩

end

/-- **Level-triggered items.** In any reachable set no scan reports an item twice; and while
the set stays as it is, scans with room for `c` events report a level-triggered item that
is not one-shot and is ready at each of them within the next `⌈n / c⌉`, whatever the other
`n - 1` items are. -/
theorem level_items_served (H : History) (es : List Sys.Event) (a : Addr) :
    (∀ l, ((lxEpScan H l ((Sys.init.run es).sets a)).1.map Report.id).Nodup) ∧
    ∀ c > 0, ∀ it ∈ ((Sys.init.run es).sets a).items, it.Level → ∀ looks : List Look,
      (∀ l ∈ looks, Offers H c (((Sys.init.run es).sets a).items.map Item.id) it l) →
      looks.length = (((Sys.init.run es).sets a).items.length + c - 1) / c →
      ∃ r ∈ reports H looks ((Sys.init.run es).sets a), r.id = it.id := by
  have hdistinct := EpSet.Distinct.stable.run (s := Sys.init) (fun _ => nodup_nil) es a
  have harmed := EpSet.LevelArmed.stable.run (s := Sys.init) (fun _ => EpSet.LevelArmed.stable.zero) es a
  generalize (Sys.init.run es).sets a = ep at hdistinct harmed ⊢
  refine ⟨hdistinct.reports_nodup H, fun c hc it hit hlevel looks hlooks hlen => ?_⟩
  obtain ⟨pre, post, hsplit⟩ := append_of_mem (mem_rotate
    (n := if ep.items.length ≤ ep.rr then 0 else ep.rr).2 hit)
  have hpre : pre.length < ep.items.length := by
    have := congrArg length hsplit
    rw [length_rotate, length_append, length_cons] at this
    omega
  have hstart : ∀ l ∈ looks, (live l ep).rotate (first l ep) = pre ++ it :: post := fun l hl => by
    rw [first, live_eq_items (fun x hx => hx) (hlooks l hl), hsplit]
  refine served_within looks hc hlevel (harmed it hit hlevel) (fun x hx => hx) hlooks hstart ?_
  have := Nat.lt_mul_div_succ (ep.items.length + c - 1) hc
  rw [hlen, Nat.mul_comm]
  rw [Nat.mul_add, Nat.mul_one] at this
  omega

/-- The item of `twoItems` that is not edge-triggered, behind the one that is. -/
def levelItem : Item := ⟨6, 0x1, 66, 60, .eventfd, true, true, 0, 0, 0⟩

theorem level_items_served_second :
    ∃ r ∈ reports arrivals [scanAt 1, scanAt 2] ((Sys.init.run twoItems).sets 9), r.id = levelItem.id := by
  refine (level_items_served arrivals twoItems 9).2 1 Nat.one_pos levelItem (by decide +kernel) (by decide) _
    (fun l hl => ?_) (by decide +kernel)
  obtain ⟨t, rfl⟩ : ∃ t, l = scanAt t := by
    simp only [mem_cons, not_mem_nil, or_false] at hl
    exact hl.elim (fun h => ⟨1, h⟩) fun h => ⟨2, h⟩
  refine ⟨rfl, fun _ _ => rfl, fun k => ?_⟩
  unfold lxEpEval arrivals
  rw [if_neg (by decide)]
  exact (by decide : (0x1 : UInt32) &&& (levelItem.want ||| 0x18) ≠ 0)

end InDevOS.Epoll
