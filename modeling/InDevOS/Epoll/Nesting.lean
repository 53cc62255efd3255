import InDevOS.Epoll.Scan

/-! The nesting of epoll sets.

`s.Watches a b`: the set at `a` has the set at `b` among its items. The search downwards
bounds the chains that begin at the new member and shows that none of them leads to the set
it is added to; the search upwards bounds the chains that end there. Together they bound
every chain through the new edge, so that no chain ever has more than five sets
(`nesting_bounded`), and looking into nested sets never reaches the depth at which the
code gives up. -/
namespace InDevOS.Epoll
open Lib Sys Function List

namespace Sys
variable {s : Sys}

/-- The set at `a` watches the set at `b`. -/
def Watches (s : Sys) (a b : Addr) : Prop := b ∈ kids (s.sets a).items

theorem mem_kids {items : List Item} {b : Addr} :
    b ∈ kids items ↔ ∃ it ∈ items, it.type = .epoll ∧ it.key = b := by
  simp [kids, and_assoc]

/-! ### The searches -/

theorem le_deepest (counts : Addr → Bool) (depth : Addr → Nat) (l : List Addr) (best : Nat) :
    best ≤ deepest counts depth l best := by
  induction l generalizing best with
  | nil => exact Nat.le_refl _
  | cons x l ih =>
    refine le_trans ?_ (ih _)
    dsimp only
    split
    · exact le_max_left _ _
    · exact Nat.le_refl _

/-- A search that was not given up has seen every member that counts. -/
theorem lt_deepest {counts : Addr → Bool} {depth : Addr → Nat} {l : List Addr} {best : Nat}
    (h : deepest counts depth l best < 1000) {x : Addr} (hx : x ∈ l) (hc : counts x = true) :
    1 + depth x ≤ deepest counts depth l best := by
  induction l generalizing best with
  | nil => cases hx
  | cons y l ih =>
    rcases mem_cons.1 hx with rfl | hx
    · have hle := le_deepest counts depth l
        (if best < 1000 ∧ counts x then max best (1 + depth x) else best)
      have hbest : best < 1000 := by
        have := le_deepest counts depth (x :: l) best
        omega
      rw [if_pos ⟨hbest, hc⟩] at hle
      have hfold : deepest counts depth (x :: l) best =
          deepest counts depth l (max best (1 + depth x)) := by
        show deepest counts depth l (if best < 1000 ∧ counts x then _ else _) = _
        rw [if_pos ⟨hbest, hc⟩]
      rw [hfold]
      exact (le_max_right _ _).trans hle
    · exact ih h hx

/-- The search downwards: the target is not reachable, and no chain from here is longer than
what was found. -/
theorem lxEpChain_spec {target : Addr} (fuel : Nat) {ep : Addr}
    (h : s.lxEpChain target fuel ep < 1000) :
    ¬Relation.ReflTransGen s.Watches ep target ∧
      DepthLe s.Watches ep (s.lxEpChain target fuel ep) := by
  induction fuel generalizing ep with
  | zero => exact absurd h (Nat.lt_irrefl 1000)
  | succ fuel ih =>
    unfold lxEpChain at h ⊢
    by_cases htarget : ep = target
    · rw [if_pos htarget] at h
      omega
    rw [if_neg htarget] at h ⊢
    by_cases hmany : 16 < (kids (s.sets ep).items).length
    · rw [if_pos hmany] at h
      omega
    rw [if_neg hmany] at h ⊢
    have hkid : ∀ k, s.Watches ep k →
        1 + s.lxEpChain target fuel k ≤
          deepest (fun _ => true) (s.lxEpChain target fuel) (kids (s.sets ep).items) 1 :=
      fun k hk => lt_deepest h hk rfl
    refine ⟨fun hreach => ?_, fun l hl => ?_⟩
    · rcases Relation.ReflTransGen.cases_head hreach with heq | ⟨k, hk, hreach⟩
      · exact htarget heq
      · have := hkid k hk
        exact (ih (by omega)).1 hreach
    · cases l with
      | nil => exact le_deepest _ _ _ 1
      | cons k l =>
        rw [isChain_cons_cons] at hl
        have hle := hkid k hl.1
        have hlen := (ih (by omega)).2 l hl.2
        rw [length_cons]
        omega

/-- The search upwards: no chain that ends here is longer than what was found above. -/
theorem lxEpUp_spec (hlive : ∀ a b, s.Watches a b → a ∈ s.all) (hself : ∀ a, ¬s.Watches a a)
    (fuel : Nat) {ep : Addr} (h : s.lxEpUp fuel ep < 1000) :
    HeightLe s.Watches ep (s.lxEpUp fuel ep + 1) := by
  induction fuel generalizing ep with
  | zero => exact absurd h (Nat.lt_irrefl 1000)
  | succ fuel ih =>
    intro l hl
    rcases eq_nil_or_concat l with rfl | ⟨l', x, rfl⟩
    · simp
    · rw [concat_eq_append] at hl ⊢
      obtain ⟨hl', -, hrel⟩ := isChain_append.1 hl
      have hx : s.Watches x ep := hrel x (by simp) ep (by simp)
      have hne : x ≠ ep := by
        rintro rfl
        exact hself x hx
      have hle : 1 + s.lxEpUp fuel x ≤ s.lxEpUp (fuel + 1) ep :=
        lt_deepest h (hlive x ep hx) (decide_eq_true ⟨hne, hx⟩)
      have hlen := ih (by omega) l' hl'
      rw [length_append, length_singleton]
      omega

/-! ### What the calls keep -/

/-- Only sets in the list have items, the watched sets and the sets of descriptors are in
the list, and no chain has more than five sets. -/
structure Sound (s : Sys) : Prop where
  live : ∀ a, a ∉ s.all → (s.sets a).items = []
  nodup : s.all.Nodup
  null : 0 ∉ s.all
  handles : ∀ d ∈ s.fds, d.type = .epoll → d.handle ∈ s.all
  targets : ∀ a b, s.Watches a b → b ∈ s.all
  short : ChainsLe s.Watches (lxEpMaxNest + 1)

theorem Sound.watcher_mem (hs : Sound s) {a b : Addr} (h : s.Watches a b) : a ∈ s.all := by
  by_contra ha
  rw [Watches, hs.live a ha] at h
  cases h

theorem Sound.init : Sound Sys.init where
  live _ _ := rfl
  nodup := nodup_nil
  null := by simp [Sys.init]
  handles := by simp [Sys.init]
  targets _ _ h := by cases h
  short l hl := by
    match l, hl with
    | [], _ => simp
    | [_], _ => simp [lxEpMaxNest]
    | _ :: _ :: _, hl => cases (isChain_cons_cons.1 hl).1

/-- Descriptors may come and go as long as those of sets name sets in the list. -/
theorem Sound.setFds (hs : Sound s) {fds : List Fd}
    (h : ∀ d ∈ fds, d.type = .epoll → d.handle ∈ s.all) : Sound { s with fds := fds } :=
  ⟨hs.live, hs.nodup, hs.null, h, hs.targets, hs.short⟩

theorem lookup_mem {p fd : Nat} {d : Fd} (h : s.lookup p fd = some d) : d ∈ s.fds :=
  mem_of_find?_eq_some h

theorem Sound.create (hs : Sound s) (p : Nat) (badFlags : Bool) (a : Addr) :
    Sound (s.lxEpollCreate p badFlags a).2 := by
  unfold lxEpollCreate
  split
  · exact hs
  split
  · exact hs
  split
  · exact hs
  · next fd _ hfree =>
    push Not at hfree
    have hzero : (s.sets a).items = [] := hs.live a hfree.2
    have hsets : ∀ x, (update s.sets a .zero x).items = (s.sets x).items := by
      intro x
      by_cases hx : x = a
      · rw [hx, update_self, hzero]
        rfl
      · rw [update_of_ne hx]
    have hwatches : ∀ x y, y ∈ kids (update s.sets a .zero x).items → s.Watches x y := by
      intro x y h
      rw [hsets] at h
      exact h
    refine ⟨fun x hx => ?_, nodup_cons.2 ⟨hfree.2, hs.nodup⟩, ?_, ?_, ?_, ?_⟩
    · exact (hsets x).trans (hs.live x fun h => hx (mem_cons_of_mem _ h))
    · rw [mem_cons, not_or]
      exact ⟨hfree.1.symm, hs.null⟩
    · intro d hd htype
      rcases mem_cons.1 hd with rfl | hd
      · exact mem_cons_self
      · exact mem_cons_of_mem _ (hs.handles d hd htype)
    · exact fun x y h => mem_cons_of_mem _ (hs.targets x y (hwatches x y h))
    · exact hs.short.mono hwatches

/-! ### Closing -/

theorem forget_items (a : Addr) (h : Addr) (type : FdType) :
    ∀ it ∈ ((s.lxEpollForget h type).sets a).items, it ∈ (s.sets a).items ∧
      (a ∈ s.all → a ≠ h → ¬(it.key = h ∧ it.type = type)) := by
  intro it hit
  simp only [lxEpollForget] at hit
  split at hit
  · simp only [mem_filter, decide_eq_true_eq] at hit
    exact ⟨hit.1, fun _ _ => hit.2⟩
  · next hcond => exact ⟨hit, fun ha hne => absurd ⟨ha, hne⟩ hcond⟩

theorem Sound.forget (hs : Sound s) (h : Addr) (type : FdType) : Sound (s.lxEpollForget h type) := by
  have hsub : ∀ a b, (s.lxEpollForget h type).Watches a b → s.Watches a b := by
    intro a b hab
    obtain ⟨it, hit, htype, hkey⟩ := mem_kids.1 hab
    exact mem_kids.2 ⟨it, (forget_items a h type it hit).1, htype, hkey⟩
  refine ⟨fun a ha => ?_, hs.nodup, hs.null, hs.handles, fun a b hab => hs.targets a b (hsub a b hab),
    hs.short.mono hsub⟩
  refine eq_nil_iff_forall_not_mem.2 fun it hit => ?_
  have := (forget_items a h type it hit).1
  rw [hs.live a ha] at this
  cases this

theorem Sound.free (hs : Sound s) {h : Addr} (hfds : ∀ d ∈ s.fds, d.type = .epoll → d.handle ≠ h)
    (hwatched : ∀ a, a ≠ h → ¬s.Watches a h) : Sound (s.lxEpollFree h) := by
  have hne : ∀ a b, (s.lxEpollFree h).Watches a b → a ≠ h ∧ s.Watches a b := by
    intro a b hab
    by_cases ha : a = h
    · subst ha
      simp only [Watches, lxEpollFree, setEpoll, update_self] at hab
      cases hab
    · simp only [Watches, lxEpollFree, setEpoll, update_of_ne ha] at hab
      exact ⟨ha, hab⟩
  refine ⟨fun a ha => ?_, hs.nodup.erase h, fun h0 => hs.null (mem_of_mem_erase h0), ?_, ?_, ?_⟩
  · by_cases hah : a = h
    · simp only [lxEpollFree, setEpoll, hah, update_self]
      rfl
    · simp only [lxEpollFree, setEpoll, update_of_ne hah]
      exact hs.live a fun hmem => ha ((mem_erase_of_ne hah).2 hmem)
  · intro d hd htype
    exact (mem_erase_of_ne (hfds d hd htype)).2 (hs.handles d hd htype)
  · intro a b hab
    obtain ⟨hah, hw⟩ := hne a b hab
    refine (mem_erase_of_ne ?_).2 (hs.targets a b hw)
    rintro rfl
    exact hwatched a hah hw
  · exact hs.short.mono fun a b hab => (hne a b hab).2

theorem Sound.close (hs : Sound s) (p fd : Nat) : Sound (s.fdCloseEntry p fd).2 := by
  unfold fdCloseEntry
  cases hfd : s.lookup p fd with
  | none => exact hs
  | some e =>
    dsimp only
    generalize hrest : (s.fds.filter fun d => ¬(d.p = p ∧ d.fd = fd)) = rest
    have hsub : ∀ d ∈ rest, d ∈ s.fds := by
      intro d hd
      rw [← hrest] at hd
      exact mem_of_mem_filter hd
    have hs' : Sound { s with fds := rest } := hs.setFds fun d hd => hs.handles d (hsub d hd)
    split
    · exact hs'
    · next hlast =>
      have hlast : ∀ d ∈ rest, d.type = e.type → d.handle ≠ e.handle := by
        intro d hd htype hhandle
        exact hlast (any_eq_true.2 ⟨d, hd, decide_eq_true ⟨htype, hhandle⟩⟩)
      by_cases htype : e.type = .epoll
      · have hmem : e.handle ∈ s.all := hs.handles e (lookup_mem hfd) htype
        have hnull : e.handle ≠ 0 := by
          intro h0
          rw [h0] at hmem
          exact hs.null hmem
        rw [if_pos htype, if_neg hnull]
        refine (hs'.forget e.handle e.type).free (fun d hd ht => hlast d hd (ht.trans htype.symm)) ?_
        intro a hne hw
        have ha := (hs'.forget e.handle e.type).watcher_mem hw
        obtain ⟨it, hit, hit', hkey⟩ := mem_kids.1 hw
        exact (forget_items a e.handle e.type it hit).2 ha hne ⟨hkey, hit'.trans htype.symm⟩
      · rw [if_neg htype]
        split
        · exact hs'
        · exact hs'.forget _ _

/-! ### Control -/

/-- What a control call makes of the items of a set. -/
inductive Controlled (items : List Item) (op : Op) (new : Item) : List Item → Prop
  | same : Controlled items op new items
  | added (hop : op = .add) (hid : new.id ∉ items.map Item.id) : Controlled items op new (items ++ [new])
  | changed (i : Nat) {it it' : Item} (hget : items[i]? = some it) (hid : it'.id = it.id)
      (harmed : it'.armed = true) : Controlled items op new (items.set i it')
  | removed (i : Nat) {x : Item} (hlast : items.getLast? = some x) :
      Controlled items op new (items.set i x).dropLast

theorem ctlSet_controlled (ep : EpSet) (op : Op) (fd : Nat) (f : Fd) (ev : EpollEvent) (alloc : Bool) :
    Controlled ep.items op (newItem fd f ev) (ctlSet ep op fd f ev alloc).2.items := by
  have hnew : ¬(lxEpFind ep fd f.handle f.type).isSome → (newItem fd f ev).id ∉ ep.items.map Item.id := by
    intro hnone hmem
    obtain ⟨it, hit, hid⟩ := mem_map.1 hmem
    have := findIdx?_eq_none_iff.1 (Option.not_isSome_iff_eq_none.1 hnone) it hit
    simp only [Item.id, newItem, Prod.mk.injEq] at hid
    exact absurd hid (of_decide_eq_false this)
  unfold ctlSet
  cases op with
  | other => exact .same
  | add =>
    dsimp only
    split_ifs with hfound
    · exact .same
    · exact .added rfl (hnew hfound)
    · exact .same
    · exact .same
    · exact .added rfl (hnew hfound)
    · exact .added rfl (hnew hfound)
  | mod =>
    dsimp only
    split
    · exact .same
    · next i _ =>
      split
      · exact .same
      · next it hget =>
        split_ifs
        · exact .same
        · exact .changed i hget rfl rfl
  | del =>
    dsimp only
    split
    · next i lastItem _ hlast => exact .removed i hlast
    · exact .same

/-- The items of a set after a control call: those of before, under other flags perhaps, and
the one added. -/
theorem Controlled.mem {items items' : List Item} {op : Op} {new it : Item}
    (h : Controlled items op new items') (hit : it ∈ items') :
    it ∈ items ∨ (it.armed = true ∧ ∃ it' ∈ items, it'.id = it.id) ∨ op = .add ∧ it = new := by
  cases h with
  | same => exact .inl hit
  | added hop => exact (mem_append.1 hit).imp_right fun h => .inr ⟨hop, mem_singleton.1 h⟩
  | changed i hget hid harmed =>
    obtain hit | rfl := mem_or_eq_of_mem_set hit
    · exact .inl hit
    · exact .inr (.inl ⟨harmed, _, mem_of_getElem? hget, hid.symm⟩)
  | removed i hlast =>
    obtain hit | rfl := mem_or_eq_of_mem_set (mem_of_mem_dropLast hit)
    · exact .inl hit
    · exact .inl (mem_of_getLast? hlast)

theorem ctlArgs_ok {p epfd fd : Nat} {op : Op} {uev : Option EpollEvent} {ep : Addr} {f : Fd}
    {ev : EpollEvent} (h : s.ctlArgs p epfd op fd uev = .ok (ep, f, ev)) :
    (∃ d ∈ s.fds, d.type = .epoll ∧ d.handle = ep) ∧ f ∈ s.fds := by
  unfold ctlArgs at h
  dsimp only at h
  generalize (if op = .del then (⟨0, 0⟩ : EpollEvent) else uev.getD ⟨0, 0⟩) = ev' at h
  split at h
  · cases h
  next epf hepf =>
  split at h
  · cases h
  next htype =>
  split at h
  · cases h
  next f' hf =>
  split at h
  · cases h
  split at h
  · cases h
  split at h
  · cases h
  split at h
  · cases h
  split at h
  · cases h
  · cases h
    exact ⟨⟨epf, lookup_mem hepf, not_not.1 htype, rfl⟩, lookup_mem hf⟩

theorem Sound.ctl (hs : Sound s) (p epfd : Nat) (op : Op) (fd : Nat) (uev : Option EpollEvent)
    (alloc : Bool) : Sound (s.lxEpollCtl p epfd op fd uev alloc).2 := by
  unfold lxEpollCtl
  split
  · exact hs
  next ep f ev hargs =>
  split
  · exact hs
  next hok =>
  obtain ⟨⟨d, hd, hdtype, hdep⟩, hf⟩ := ctlArgs_ok hargs
  have hep : ep ∈ s.all := hdep ▸ hs.handles d hd hdtype
  show Sound (s.setEpoll ep (ctlSet (s.sets ep) op fd f ev alloc).2)
  generalize hr : (ctlSet (s.sets ep) op fd f ev alloc).2 = ep'
  have hctl := hr ▸ ctlSet_controlled (s.sets ep) op fd f ev alloc
  -- A new edge is the one that was checked.
  have hwatches : ∀ x y, (s.setEpoll ep ep').Watches x y →
      s.Watches x y ∨ ((x = ep ∧ y = f.handle) ∧ op = .add ∧ f.type = .epoll) := by
    intro x y hxy
    by_cases hx : x = ep
    · subst hx
      simp only [Watches, setEpoll, update_self] at hxy
      obtain ⟨it, hit, htype, hkey⟩ := mem_kids.1 hxy
      obtain hold | ⟨-, it', hit', hid⟩ | ⟨hop, rfl⟩ := hctl.mem hit
      · exact .inl (mem_kids.2 ⟨it, hold, htype, hkey⟩)
      · simp only [Item.id, Prod.mk.injEq] at hid
        exact .inl (mem_kids.2 ⟨it', hit', hid.2.2.trans htype, hid.2.1.trans hkey⟩)
      · exact .inr ⟨⟨rfl, hkey.symm⟩, hop, htype⟩
    · simp only [Watches, setEpoll, update_of_ne hx] at hxy
      exact .inl hxy
  refine ⟨fun a ha => ?_, hs.nodup, hs.null, hs.handles, fun x y hxy => ?_, ?_⟩
  · have hne : a ≠ ep := fun h => ha (h ▸ hep)
    simp only [setEpoll, update_of_ne hne]
    exact hs.live a ha
  · obtain hw | ⟨⟨-, rfl⟩, -, hftype⟩ := hwatches x y hxy
    · exact hs.targets x y hw
    · exact hs.handles f hf hftype
  · by_cases hnested : f.type = .epoll ∧ op = .add
    · have hnest : s.nestingOk ep f.handle = true := by
        by_contra hno
        exact hok ⟨hnested.1, hnested.2, by simpa using hno⟩
      obtain ⟨hdown, hsum⟩ := of_decide_eq_true hnest
      obtain ⟨hback, hdepth⟩ := lxEpChain_spec searchFuel hdown
      have hup : HeightLe s.Watches ep (s.lxEpUp searchFuel ep + 1) :=
        lxEpUp_spec (fun a b => hs.watcher_mem) (fun a h => hs.short.acyclic a (.single h)) _
          (by unfold lxEpMaxNest at hsum; omega)
      exact (hs.short.insert hback hup hdepth (by omega)).mono
        fun x y hxy => (hwatches x y hxy).imp_right And.left
    · exact hs.short.mono fun x y hxy =>
        (hwatches x y hxy).resolve_right fun h => hnested ⟨h.2.2, h.2.1⟩

/-- Sets change only in what their items remember, or lose items. -/
theorem Sound.shrink (hs : Sound s) {ep : Addr} (hep : ep ∈ s.all) {ep' : EpSet}
    (h : ∀ it ∈ ep'.items, ∃ it' ∈ (s.sets ep).items, it'.id = it.id) :
    Sound (s.setEpoll ep ep') := by
  have hsub : ∀ x y, (s.setEpoll ep ep').Watches x y → s.Watches x y := by
    intro x y hxy
    by_cases hx : x = ep
    · subst hx
      simp only [Watches, setEpoll, update_self] at hxy
      obtain ⟨it, hit, htype, hkey⟩ := mem_kids.1 hxy
      obtain ⟨it', hit', hid⟩ := h it hit
      simp only [Item.id, Prod.mk.injEq] at hid
      exact mem_kids.2 ⟨it', hit', hid.2.2.trans htype, hid.2.1.trans hkey⟩
    · simpa only [Watches, setEpoll, update_of_ne hx] using hxy
  refine ⟨fun a ha => ?_, hs.nodup, hs.null, hs.handles, fun x y hxy => hs.targets x y (hsub x y hxy),
    hs.short.mono hsub⟩
  have hne : a ≠ ep := fun h => ha (h ▸ hep)
  simp only [setEpoll, update_of_ne hne]
  exact hs.live a ha

theorem Sound.wait (hs : Sound s) (p epfd : Nat) (H : History) (l : Look) :
    Sound (s.lxEpollWait p epfd H l).2 := by
  unfold lxEpollWait
  split
  · exact hs
  next f hf =>
  split
  · exact hs
  next htype =>
  refine hs.shrink (hs.handles f (lookup_mem hf) (not_not.1 htype)) fun it hit => ?_
  have hmem := (lxEpScan_ids H l (s.sets f.handle) it.id).1 (mem_map_of_mem hit)
  obtain ⟨it', hit', hid⟩ := mem_map.1 hmem
  exact ⟨it', mem_of_mem_filter hit', hid⟩

theorem Sound.step (hs : Sound s) (e : Event) : Sound (s.step e) := by
  cases e with
  | create p badFlags a => exact hs.create p badFlags a
  | ctl p epfd op fd uev alloc => exact hs.ctl p epfd op fd uev alloc
  | close p fd => exact hs.close p fd
  | dup p fd p' fd' =>
    show Sound (s.dupFd p fd p' fd')
    unfold dupFd
    split
    · exact hs
    next e he =>
    split
    · exact hs
    · refine hs.setFds fun d hd htype => ?_
      rcases mem_cons.1 hd with rfl | hd
      · exact hs.handles e (lookup_mem he) htype
      · exact hs.handles d hd htype
  | «open» p fd type handle =>
    show Sound (s.openFd p fd type handle)
    unfold openFd
    split
    · exact hs
    next hopen =>
    refine hs.setFds fun d hd htype => ?_
    rcases mem_cons.1 hd with rfl | hd
    · exact absurd (.inl htype) hopen
    · exact hs.handles d hd htype
  | wait p epfd H l => exact hs.wait p epfd H l

theorem Sound.run (es : List Event) (hs : Sound s) : Sound (s.run es) := by
  induction es generalizing s with
  | nil => exact hs
  | cons e es ih => exact ih (hs.step e)

/-! ### Looking into nested sets -/

/-- Below the last set of a chain there is nothing left to look into. -/
theorem anyReady_of_depth (o : Objects) {n : Nat} {ep : Addr} (h : DepthLe s.Watches ep n)
    (k : Nat) : s.anyReady o (n + k) ep = s.anyReady o n ep := by
  induction n generalizing ep with
  | zero =>
    have := h [] (isChain_singleton ep)
    simp at this
  | succ n ih =>
    rw [Nat.succ_add]
    unfold anyReady
    rw [Bool.eq_iff_iff, any_eq_true, any_eq_true]
    refine exists_congr fun it => and_congr_right fun hit => ?_
    by_cases htype : it.type = .epoll
    · have hdeep : DepthLe s.Watches it.key n := by
        intro l hl
        have := h (it.key :: l) (isChain_cons_cons.2 ⟨mem_kids.2 ⟨it, hit, htype, rfl⟩, hl⟩)
        rw [length_cons] at this
        omega
      rw [ih hdeep]
    · rw [if_neg htype, if_neg htype]

end Sys

/-- **Nesting.** After any sequence of calls the watching of sets by sets has no cycle and
no chain of more than five sets, so looking into a set ends within five levels, before the
code gives up, whatever the watched objects answer. -/
theorem nesting_bounded (es : List Sys.Event) :
    (∀ a, ¬Relation.TransGen (Sys.init.run es).Watches a a) ∧
      (∀ l : List Addr, l.IsChain (Sys.init.run es).Watches → l.length ≤ 5) ∧
      ∀ (o : Objects) (ep : Addr) (k : Nat),
        (Sys.init.run es).anyReady o (5 + k) ep = (Sys.init.run es).anyReady o 5 ep := by
  have hs := Sys.Sound.init.run es
  exact ⟨hs.short.acyclic, hs.short, fun o ep k => Sys.anyReady_of_depth o (fun l => hs.short _) k⟩

end InDevOS.Epoll
