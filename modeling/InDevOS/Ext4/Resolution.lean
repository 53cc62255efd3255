import InDevOS.Ext4.Namei

/-! What `e4_namei` returns is what the path names.

The walk keeps that on from where it stands the path leads where it leads from the root
(`Walk.On`), so a restart at a link from the root on the path put together goes on from the
link's directory. The stack is the way back to the root as long as it holds it, which is
where `..` needs it.

`namei_reaches` is the result for walks that are sane throughout; 66 directories down, `..`
leads astray (`parent_misnamed`). -/
namespace InDevOS.Ext4
open List

/-! ### Components -/

theorem parts_append_slash (a b : List UInt8) : parts (a ++ slash :: b) = parts a ++ parts b := by
  unfold parts
  rw [splitOnP_append_cons _ _ (by decide), filter_append]

theorem parts_nil : parts [] = [] := by simp [parts]

theorem parts_append {a : List UInt8} (ha : a = [] ∨ slashed a = true) (b : List UInt8) :
    parts (a ++ b) = parts a ++ parts b := by
  obtain rfl | ha := ha
  · rfl
  obtain ⟨a', rfl⟩ : ∃ a', a = a' ++ [slash] :=
    ⟨a.dropLast, (dropLast_append_getLast? slash (by simpa [slashed] using ha)).symm⟩
  rw [append_assoc, singleton_append, parts_append_slash, parts_append_slash, parts_nil,
    append_nil]

theorem parts_slashes {l : List UInt8} (hl : ∀ c ∈ l, c = slash) (b : List UInt8) :
    parts (l ++ b) = parts b := by
  induction l with
  | nil => rfl
  | cons c l ih =>
    rw [hl c mem_cons_self, ← nil_append (slash :: l ++ b)]
    show parts ([] ++ slash :: (l ++ b)) = _
    rw [parts_append_slash, parts_nil, nil_append, ih fun c hc => hl c (mem_cons_of_mem _ hc)]

theorem parts_name {c : Name} (hc : slash ∉ c) (hne : c ≠ []) : parts c = [c] := by
  unfold parts
  rw [splitOnP_eq_singleton]
  · simp [hne]
  · intro x hx
    simp only [beq_eq_false_iff_ne, ne_eq]
    rintro rfl
    exact hc hx

namespace Walk
variable (w : Walk)

theorem slash_notMem_name : slash ∉ w.name := by
  intro h
  have := mem_takeWhile_imp h
  simp at this

theorem name_ne_nil (hrest : w.rest ≠ []) (hclean : w.rest.head? ≠ some slash) : w.name ≠ [] := by
  unfold name
  cases h : w.rest with
  | nil => exact absurd h hrest
  | cons c l =>
    rw [h] at hclean
    rw [takeWhile_cons_of_pos (by simpa using hclean)]
    simp

theorem rest_eq : w.rest =
    w.name ++ ((w.rest.dropWhile (· != slash)).takeWhile (· == slash) ++ w.after) := by
  unfold name after
  rw [takeWhile_append_dropWhile, takeWhile_append_dropWhile]

theorem before_append_after : w.before ++ w.after = w.done ++ w.rest := by
  unfold before
  rw [append_assoc, append_assoc]
  exact congrArg _ w.rest_eq.symm

theorem slashes_eq (c : UInt8) (hc : c ∈ (w.rest.dropWhile (· != slash)).takeWhile (· == slash)) :
    c = slash := by
  simpa using mem_takeWhile_imp hc

theorem slashes_ne_nil (hafter : w.after ≠ []) :
    (w.rest.dropWhile (· != slash)).takeWhile (· == slash) ≠ [] := by
  unfold after at hafter
  cases h : w.rest.dropWhile (· != slash) with
  | nil => simp [h] at hafter
  | cons c l =>
    have hc : c = slash := by
      have := head?_dropWhile_not (· != slash) w.rest
      rw [h] at this
      simpa using this
    rw [hc, takeWhile_cons_of_pos (by decide)]
    simp

theorem slashed_before (hafter : w.after ≠ []) : slashed w.before = true := by
  have hne := w.slashes_ne_nil hafter
  have hlast := w.slashes_eq _ (getLast_mem hne)
  unfold slashed before
  rw [← append_assoc, getLast?_append_of_ne_nil _ hne, getLast?_eq_getLast_of_ne_nil hne,
    hlast]
  simp

theorem head_after : w.after.head? ≠ some slash := by
  intro h
  have := head?_dropWhile_not (· == slash) (w.rest.dropWhile (· != slash))
  unfold after at h
  rw [h] at this
  simp at this

theorem parts_component (hname : w.name ≠ []) {b : List UInt8} (hb : w.after = [] → b = []) :
    parts (w.name ++ ((w.rest.dropWhile (· != slash)).takeWhile (· == slash) ++ b)) =
      w.name :: parts b := by
  have hc := w.slashes_eq
  have hne := w.slashes_ne_nil
  have hparts := parts_name w.slash_notMem_name hname
  generalize (w.rest.dropWhile (· != slash)).takeWhile (· == slash) = l at hc hne ⊢
  cases l with
  | nil =>
    have hnil : b = [] := by
      by_contra hbne
      exact hne (mt hb hbne) rfl
    rw [hnil, append_nil, append_nil, hparts, parts_nil]
  | cons c l =>
    rw [hc c mem_cons_self, cons_append, parts_append_slash, hparts,
      parts_slashes fun c h => hc c (mem_cons_of_mem _ h)]
    rfl

theorem parts_rest (hname : w.name ≠ []) : parts w.rest = w.name :: parts w.after := by
  have := w.parts_component hname (b := w.after) id
  rwa [← w.rest_eq] at this

theorem parts_before (hdone : w.done = [] ∨ slashed w.done = true) (hname : w.name ≠ []) :
    parts w.before = parts w.done ++ [w.name] := by
  have := w.parts_component hname (b := []) fun _ => rfl
  rw [append_nil, parts_nil] at this
  unfold before
  rw [parts_append hdone, this]

theorem length_after (hname : w.name ≠ []) : w.after.length < w.rest.length := by
  have hlen := congrArg length w.rest_eq
  have hpos := length_pos_iff.2 hname
  simp only [length_append] at hlen
  omega

theorem rebuild_eq {target : List UInt8} (hfits : w.Fits target) (h0 : 0 ∉ target) :
    w.rebuild target =
      w.lead target ++ (target ++ if w.after = [] then [] else slash :: w.after) := by
  obtain ⟨hlead, hlen, hrest⟩ := hfits
  have htgt : (target.take 1000).takeWhile (· != 0) = target := by
    rw [take_of_length_le (by omega), takeWhile_eq_self_iff]
    intro c hc
    simp only [bne_iff_ne, ne_eq]
    rintro rfl
    exact h0 hc
  have ho : (if target.head? ≠ some slash then w.done.take 500 else []) = w.lead target := by
    unfold lead at hlead ⊢
    by_cases hh : target.head? = some slash
    · simp [hh]
    · rw [if_neg hh] at hlead ⊢
      rw [if_pos hh, take_of_length_le hlead]
  unfold rebuild
  dsimp only
  rw [htgt, ho, take_of_length_le (by omega : target.length ≤ 1000 - (w.lead target).length)]
  by_cases hafter : w.after = []
  · rw [if_neg (by simp [hafter]), if_pos hafter, append_nil]
  · obtain ⟨hlt, hle⟩ := hrest hafter
    rw [if_pos ⟨hafter, by rw [length_append]; exact hlt⟩, if_neg hafter,
      take_of_length_le (by rw [length_append]; omega), append_assoc]

end Walk

/-! ### Lookups -/

section
variable {name : Name} {i : Nat}

theorem findIn_mem {b : List (Name × Nat)} (h : findIn name b = some i) : (name, i) ∈ b := by
  obtain ⟨⟨n, j⟩, hfind, rfl⟩ := Option.map_eq_some_iff.1 h
  have hn : n = name := by simpa using find?_some hfind
  exact hn ▸ mem_of_find?_eq_some hfind

theorem e4DirIter_entry {bs : List (Option (List (Name × Nat)))}
    (h : e4DirIter name bs = some i) : ∃ b, some b ∈ bs ∧ (name, i) ∈ b := by
  induction bs with
  | nil => cases h
  | cons b bs ih =>
    cases b with
    | none => cases h
    | some b =>
      obtain h | ⟨-, h⟩ := Option.or_eq_some_iff.1 h
      · exact ⟨b, mem_cons_self, findIn_mem h⟩
      · obtain ⟨b', hb', hmem⟩ := ih h
        exact ⟨b', mem_cons_of_mem _ hb', hmem⟩

/-- Whatever blocks the index leads to, what is found there is an entry. -/
theorem e4DxFind_entry {bs : List (Option (List (Name × Nat)))} {ks : List Nat}
    (h : e4DxFind bs name ks = some (some i)) : ∃ b, some b ∈ bs ∧ (name, i) ∈ b := by
  induction ks with
  | nil => cases h
  | cons k ks ih =>
    unfold e4DxFind at h
    split at h
    · next b hb =>
      split at h
      · exact ⟨b, mem_of_getElem? hb, findIn_mem (Option.some.inj h)⟩
      · exact ih h
    · cases h

theorem Dir.lookup_entry {d : Dir} (h : d.lookup name = some i) : d.Entry name i := by
  unfold Dir.lookup at h
  cases hix : (d.index.bind fun ix => ix name).bind (e4DxFind d.blocks name) with
  | none =>
    rw [hix] at h
    exact e4DirIter_entry h
  | some r =>
    rw [hix, Option.getD_some] at h
    obtain ⟨ks, -, hks⟩ := Option.bind_eq_some_iff.1 hix
    exact e4DxFind_entry (h ▸ hks)

end

/-! ### What a turn of the loop does -/

theorem Volume.descend_cases (v : Volume) (follow : Bool) (w : Walk) (ino : Nat) :
    v.descend follow w ino = .refuse ∨
    (∃ node, v.inode ino = some node ∧ (node.isLink = true → w.after = [] ∧ follow = false) ∧
      v.descend follow w ino = .onward ⟨w.before, w.after, ino, node, w.push⟩) ∨
    ∃ target, v.inode ino = some (.link (some target)) ∧ (w.after = [] → follow = true) ∧
      v.descend follow w ino = .restart target := by
  unfold Volume.descend Volume.enter
  cases hino : v.inode ino with
  | none => exact .inl rfl
  | some node =>
    cases node with
    | dir d => exact .inr (.inl ⟨.dir d, rfl, by simp [Node.isLink], rfl⟩)
    | other => exact .inr (.inl ⟨.other, rfl, by simp [Node.isLink], rfl⟩)
    | link target =>
      dsimp only
      split_ifs with hfollow
      · cases target with
        | none => exact .inl rfl
        | some target =>
          exact .inr (.inr ⟨target, rfl, fun h => hfollow.resolve_left (by simp [h]), rfl⟩)
      · rw [not_or, not_not, Bool.not_eq_true] at hfollow
        exact .inr (.inl ⟨.link target, rfl, fun _ => hfollow, rfl⟩)

theorem Volume.next_cases (v : Volume) (follow : Bool) (w : Walk) (hrest : w.rest ≠ []) :
    (w.name = dot ∧ v.next follow w = .onward { w with done := w.before, rest := w.after }) ∨
    (w.name = dotdot ∧ v.next follow w = v.enter w (w.stack.headD root) w.stack.tail) ∨
    (w.name ≠ dot ∧ w.name ≠ dotdot ∧ (v.next follow w = .refuse ∨ ∃ d ino, w.node = .dir d ∧
      d.lookup w.name = some ino ∧ v.next follow w = v.descend follow w ino)) := by
  unfold Volume.next
  rw [if_neg hrest]
  split_ifs with hdot hdotdot
  · exact .inl ⟨hdot, rfl⟩
  · exact .inr (.inl ⟨hdotdot, rfl⟩)
  refine .inr (.inr ⟨hdot, hdotdot, ?_⟩)
  cases hnode : w.node with
  | dir d =>
    dsimp only
    cases hino : d.lookup w.name with
    | none => exact .inl rfl
    | some ino => exact .inr ⟨d, ino, rfl, hino, rfl⟩
  | link | other => exact .inl rfl

/-! ### Following the reference -/

namespace Reaches
variable {v : Volume} {T : Tree v} {follow : Bool} {i j r : Nat} {name : Name} {todo : List Name}

theorem isDir (h : Reaches T follow i (name :: todo) r) : v.IsDir i := by
  cases h with
  | dot hi | dotdot hi => exact hi
  | entry _ _ hi | link _ _ hi => exact ⟨_, hi⟩

theorem of_dot (h : Reaches T follow i (Ext4.dot :: todo) r) : Reaches T follow i todo r := by
  cases h with
  | dot _ h => exact h
  | entry hdot | link hdot => exact absurd rfl hdot

theorem of_dotdot (h : Reaches T follow i (Ext4.dotdot :: todo) r) :
    Reaches T follow (T.parent i) todo r := by
  cases h with
  | dotdot _ h => exact h
  | entry _ hdotdot | link _ hdotdot => exact absurd rfl hdotdot

theorem of_entry (h : Reaches T follow i (name :: todo) r) (hdot : name ≠ Ext4.dot)
    (hdotdot : name ≠ Ext4.dotdot) {d : Dir} (hi : v.inode i = some (.dir d)) (he : d.Entry name j)
    {node : Node} (hj : v.inode j = some node) (hnode : node.isLink = false) :
    Reaches T follow j todo r := by
  cases h with
  | dot => exact absurd rfl hdot
  | dotdot => exact absurd rfl hdotdot
  | entry _ _ hi' he' _ _ h =>
    obtain rfl : _ = d := by simpa using hi'.symm.trans hi
    exact T.unique hi he' he ▸ h
  | link _ _ hi' he' hj' =>
    obtain rfl : _ = d := by simpa using hi'.symm.trans hi
    rw [T.unique hi he' he, hj] at hj'
    simp [Option.some.inj hj', Node.isLink] at hnode

/-- A `.` before more components asks for nothing new. -/
theorem insert_dot {A B : List Name} (h : Reaches T follow i (A ++ B) r) (hB : B ≠ []) :
    Reaches T follow i (A ++ Ext4.dot :: B) r := by
  generalize htodo : A ++ B = todo at h
  induction h generalizing A with
  | here => exact absurd (append_eq_nil_iff.1 htodo).2 hB
  | dot hi h ih =>
    cases A with
    | nil =>
      obtain rfl : B = _ := htodo
      exact .dot hi (.dot hi h)
    | cons a A =>
      obtain ⟨rfl, rfl⟩ := cons.inj htodo
      exact .dot hi (ih rfl)
  | dotdot hi h ih =>
    cases A with
    | nil =>
      obtain rfl : B = _ := htodo
      exact .dot hi (.dotdot hi h)
    | cons a A =>
      obtain ⟨rfl, rfl⟩ := cons.inj htodo
      exact .dotdot hi (ih rfl)
  | entry hdot hdotdot hi he hj hstay h ih =>
    cases A with
    | nil =>
      obtain rfl : B = _ := htodo
      exact .dot ⟨_, hi⟩ (.entry hdot hdotdot hi he hj hstay h)
    | cons a A =>
      obtain ⟨rfl, rfl⟩ := cons.inj htodo
      refine .entry hdot hdotdot hi he hj (fun hl => ?_) (ih rfl)
      exact absurd (append_eq_nil_iff.1 (hstay hl).1).2 hB
  | link hdot hdotdot hi he hj hfollow h ih =>
    cases A with
    | nil =>
      obtain rfl : B = _ := htodo
      exact .dot ⟨_, hi⟩ (.link hdot hdotdot hi he hj hfollow h)
    | cons a A =>
      obtain ⟨rfl, rfl⟩ := cons.inj htodo
      have h' := ih (A := comps _ ++ A) (append_assoc ..)
      rw [append_assoc] at h'
      exact .link hdot hdotdot hi he hj (fun hnil => by simp at hnil) h'

end Reaches

/-- A directory and the directories above it, the nearest first. -/
inductive Tree.Above {v : Volume} (T : Tree v) : Nat → List Nat → Prop
  | root : T.Above root []
  | child {i j : Nat} {l : List Nat} (h : T.Above i l) (hparent : T.parent j = i)
    (hlevel : T.level j = T.level i + 1) : T.Above j (i :: l)

theorem Tree.Above.length {v : Volume} {T : Tree v} {i : Nat} {l : List Nat} (h : T.Above i l) :
    l.length = T.level i := by
  induction h with
  | root => exact T.level_root.symm
  | child _ _ hlevel ih => rw [hlevel, length_cons, ih]

/-- The walk has come along the path: on from here, the path leads where it leads from the
root. The stack is what is above, as far as it holds it. -/
structure Walk.On {v : Volume} (T : Tree v) (follow : Bool) (path : List UInt8) (w : Walk) : Prop where
  path : w.done ++ w.rest = path
  node : v.inode w.cur = some w.node
  clean : w.rest.head? ≠ some slash
  ends : w.rest ≠ [] → w.done = [] ∨ slashed w.done = true
  stack : w.node.isDir = true → ∃ l, T.Above w.cur l ∧ (l.length ≤ 64 → w.stack = l)
  back : w.rest ≠ [] → ∀ todo r, Reaches T follow root (parts w.done ++ todo) r →
    Reaches T follow w.cur todo r

section
variable {v : Volume} {T : Tree v} {follow : Bool} {path : List UInt8} {w : Walk}

theorem Node.eq_dir {node : Node} (h : node.isDir = true) : ∃ d, node = .dir d := by
  cases node with
  | dir d => exact ⟨d, rfl⟩
  | link | other => cases h

theorem Walk.On.isDir (hw : w.On T follow path) (h : w.node.isDir = true) : v.IsDir w.cur := by
  obtain ⟨d, hd⟩ := Node.eq_dir h
  exact ⟨d, by rw [hw.node, hd]⟩

theorem Walk.On.name_ne_nil (hw : w.On T follow path) (hrest : w.rest ≠ []) : w.name ≠ [] :=
  w.name_ne_nil hrest hw.clean

theorem Walk.On.step (hw : w.On T follow path) (hrest : w.rest ≠ []) {ino : Nat} {node : Node}
    {stack : List Nat} (hino : v.inode ino = some node)
    (hstack : node.isDir = true → ∃ l, T.Above ino l ∧ (l.length ≤ 64 → stack = l))
    (hback : w.after ≠ [] → ∀ todo r, Reaches T follow w.cur (w.name :: todo) r →
      Reaches T follow ino todo r) : Walk.On T follow path ⟨w.before, w.after, ino, node, stack⟩ where
  path := w.before_append_after.trans hw.path
  node := hino
  clean := w.head_after
  ends hafter := .inr (w.slashed_before hafter)
  stack := hstack
  back hafter todo r h := by
    rw [w.parts_before (hw.ends hrest) (hw.name_ne_nil hrest), append_assoc] at h
    exact hback hafter todo r (hw.back hrest _ _ h)

theorem parts_ne_nil {l : List UInt8} (hne : l ≠ []) (hclean : l.head? ≠ some slash) : parts l ≠ [] := by
  have := Walk.parts_rest ⟨[], l, root, .other, []⟩ (Walk.name_ne_nil _ hne hclean)
  rw [this]
  simp

/-- Where the path put together at a link leads, the target and the rest lead from there. -/
theorem Walk.On.restart (hw : w.On T follow path) (hrest : w.rest ≠ []) {target : List UInt8}
    (hne : target ≠ []) {sl : Bool} (hsl : slashed path = true → sl = true) {np : List UInt8}
    (hnp : np = w.lead target ++ (target ++ if w.after = [] then [] else slash :: w.after)) {r : Nat}
    (h : Reaches T follow root (parts np ++ tail (sl || slashed np)) r) :
    Reaches T follow (if target.head? = some slash then root else w.cur)
      (comps target ++ (parts w.after ++ tail sl)) r := by
  have hlead : w.lead target = [] ∨ slashed (w.lead target) = true := by
    unfold lead
    split
    · exact .inl rfl
    · exact hw.ends hrest
  have hback : ∀ X, Reaches T follow root (parts (w.lead target) ++ X) r →
      Reaches T follow (if target.head? = some slash then root else w.cur) X r := by
    intro X hX
    unfold lead at hX
    split at hX
    · next habs => simpa [habs, parts_nil] using hX
    · next hrel =>
      rw [if_neg hrel]
      exact hw.back hrest X r hX
  by_cases hafter : w.after = []
  · rw [if_pos hafter, append_nil] at hnp
    have hlast : slashed np = slashed target := by
      unfold slashed
      rw [hnp, getLast?_append_of_ne_nil _ hne]
    rw [hlast, hnp, parts_append hlead, append_assoc] at h
    have h' := hback _ h
    rw [hafter, parts_nil, nil_append, comps, append_assoc]
    cases hst : slashed target with
    | false => rwa [hst, Bool.or_false] at h'
    | true =>
      rw [hst, Bool.or_true] at h'
      cases sl with
      | false => exact h'
      | true => exact h'.insert_dot (by simp [tail])
  · rw [if_neg hafter] at hnp
    have hlast : slashed np = slashed path := by
      unfold slashed
      rw [hnp, ← hw.path, ← w.before_append_after, getLast?_append_of_ne_nil _ hafter,
        getLast?_append_of_ne_nil _ (by simp), getLast?_append_of_ne_nil _ (by simp),
        ← singleton_append, getLast?_append_of_ne_nil _ hafter]
    have hor : (sl || slashed np) = sl := by
      rw [hlast]
      cases hsp : slashed path with
      | false => exact Bool.or_false sl
      | true => rw [hsl hsp]; rfl
    rw [hor, hnp, parts_append hlead, parts_append_slash, append_assoc, append_assoc] at h
    have h' := hback _ h
    rw [comps, append_assoc]
    cases hst : slashed target with
    | false => exact h'
    | true =>
      refine h'.insert_dot fun hnil => ?_
      exact parts_ne_nil hafter w.head_after (append_eq_nil_iff.1 hnil).1

/-! ### The loop and the restarts -/

theorem Tree.sane_end {sl : Bool} (hrest : w.rest = []) (h : T.sane follow sl w = true) (hsl : sl = true) :
    w.node.isDir = true := by
  unfold Tree.sane at h
  rw [if_pos hrest, hsl] at h
  exact h

theorem Tree.sane_next {sl : Bool} (hrest : w.rest ≠ []) (h : T.sane follow sl w = true) :
    (w.name = dot ∨ w.name = dotdot → w.node.isDir = true) ∧
      (w.name = dotdot → T.level w.cur ≤ 64) ∧ (v.next follow w).fits w = true := by
  unfold Tree.sane at h
  rw [if_neg hrest, Bool.and_eq_true, Bool.and_eq_true, Bool.or_eq_true, Bool.or_eq_true,
    decide_eq_true_iff, decide_eq_true_iff, decide_eq_true_iff] at h
  obtain ⟨⟨hdots, hup⟩, hfits⟩ := h
  refine ⟨fun hname => hdots.resolve_left fun hne => ?_, fun hname => hup.resolve_left fun hne => hne hname,
    hfits⟩
  exact hname.elim hne.1 hne.2

theorem Walk.On.parent (hw : w.On T follow path) (hdir : w.node.isDir = true)
    (hlevel : T.level w.cur ≤ 64) :
    w.stack.headD root = T.parent w.cur ∧ T.Above (T.parent w.cur) w.stack.tail := by
  obtain ⟨l, habove, hstack⟩ := hw.stack hdir
  rw [hstack (habove.length.trans_le hlevel)]
  cases hl : l with
  | nil =>
    rw [hl] at habove
    generalize w.cur = i at habove
    cases habove
    exact ⟨T.parent_root.symm, T.parent_root.symm ▸ .root⟩
  | cons i l =>
    rw [hl] at habove
    generalize w.cur = j at habove
    cases habove with
    | child h hparent _ => exact ⟨hparent.symm, hparent.symm ▸ h⟩

theorem Walk.On.push (hw : w.On T follow path) {d : Dir} (hd : w.node = .dir d) {ino : Nat}
    (hparent : T.parent ino = w.cur ∧ T.level ino = T.level w.cur + 1) :
    ∃ l, T.Above ino l ∧ (l.length ≤ 64 → w.push = l) := by
  obtain ⟨l, habove, hstack⟩ := hw.stack (by rw [hd]; rfl)
  refine ⟨w.cur :: l, .child habove hparent.1 hparent.2, fun hlen => ?_⟩
  rw [length_cons] at hlen
  unfold Walk.push
  rw [hstack (by omega), if_pos (by omega)]

variable {again : List UInt8 → Nat} {fair : List UInt8 → Bool} {sl : Bool}

/-- What the loop returns is where the path leads from here, if the restarts return where
their paths lead. -/
theorem walk_reaches (hsl : slashed path = true → sl = true)
    (hagain : ∀ np, fair np = true → again np ≠ 0 →
      Reaches T follow root (parts np ++ tail (sl || slashed np)) (again np))
    {fuel : Nat} (hfuel : w.rest.length < fuel) (hw : w.On T follow path)
    (hfair : T.fairWalk follow sl fair fuel w = true) (hne : v.walk follow again fuel w ≠ 0) :
    Reaches T follow w.cur (parts w.rest ++ tail sl) (v.walk follow again fuel w) := by
  induction fuel generalizing w with
  | zero => exact absurd hfuel (Nat.not_lt_zero _)
  | succ fuel ih =>
    unfold Volume.walk at hne ⊢
    unfold Tree.fairWalk at hfair
    rw [Bool.and_eq_true] at hfair
    obtain ⟨hsane, hfair⟩ := hfair
    by_cases hrest : w.rest = []
    · have hnext : v.next follow w = .arrive w.cur := if_pos hrest
      rw [hnext, hrest, parts_nil]
      cases sl with
      | false => exact .here
      | true => exact .dot (hw.isDir (T.sane_end hrest hsane rfl)) .here
    obtain ⟨hdots, hup, hfits⟩ := T.sane_next hrest hsane
    have hname := hw.name_ne_nil hrest
    have hshort : w.after.length < fuel := Nat.lt_of_lt_of_le (w.length_after hname) (Nat.le_of_lt_succ hfuel)
    rw [w.parts_rest hname, cons_append]
    obtain ⟨hdot, hnext⟩ | ⟨hdotdot, hnext⟩ | ⟨hdot, hdotdot, hnext | ⟨d, ino, hd, hlookup, hnext⟩⟩ :=
      v.next_cases follow w hrest
    · rw [hnext] at hfair hne ⊢
      have hdir := hdots (.inl hdot)
      rw [hdot]
      refine .dot (hw.isDir hdir) (ih hshort ?_ hfair hne)
      exact hw.step hrest hw.node hw.stack fun _ todo r h => (hdot ▸ h).of_dot
    · have hdir := hdots (.inr hdotdot)
      obtain ⟨hparent, habove⟩ := hw.parent hdir (hup hdotdot)
      rw [hnext, hparent] at hfair hne ⊢
      unfold Volume.enter at hfair hne ⊢
      cases hino : v.inode (T.parent w.cur) with
      | none => simp [hino] at hne
      | some node =>
        rw [hino] at hfair hne
        rw [hdotdot]
        refine .dotdot (hw.isDir hdir) (ih hshort ?_ hfair hne)
        exact hw.step hrest hino (fun _ => ⟨_, habove, fun _ => rfl⟩) fun _ todo r h =>
          (hdotdot ▸ h).of_dotdot
    · simp [hnext] at hne
    have hcur : v.inode w.cur = some (.dir d) := by rw [hw.node, hd]
    have hentry := Dir.lookup_entry hlookup
    rw [hnext] at hfair hne hfits ⊢
    obtain hstep | ⟨node, hino, hlink, hstep⟩ | ⟨target, hino, hfollow, hstep⟩ :=
      v.descend_cases follow w ino
    · simp [hstep] at hne
    · rw [hstep] at hfair hne ⊢
      have hon : Walk.On T follow path ⟨w.before, w.after, ino, node, w.push⟩ := by
        refine hw.step hrest hino (fun hdir => ?_) fun hafter todo r h => ?_
        · obtain ⟨e, rfl⟩ := Node.eq_dir hdir
          exact hw.push hd (T.below hcur hentry hdot hdotdot ⟨e, hino⟩)
        · exact h.of_entry hdot hdotdot hcur hentry hino (by
            by_contra hl
            exact hafter (hlink (Bool.eq_true_of_not_eq_false hl)).1)
      refine .entry hdot hdotdot hcur hentry hino (fun hl => ?_) (ih hshort hon hfair hne)
      -- A link that is not followed is the last component, with no slash behind it.
      obtain ⟨hafter, hnofollow⟩ := hlink hl
      refine ⟨?_, hnofollow⟩
      rw [hafter, parts_nil]
      cases hs : sl with
      | false => rfl
      | true =>
        obtain ⟨fuel, rfl⟩ := Nat.exists_eq_succ_of_ne_zero (Nat.ne_zero_of_lt hshort)
        unfold Tree.fairWalk at hfair
        rw [Bool.and_eq_true] at hfair
        have hdir := T.sane_end (w := ⟨w.before, w.after, ino, node, w.push⟩) hafter hfair.1 hs
        cases node with
        | link _ => cases hdir
        | dir | other => cases hl
    · rw [hstep] at hfair hne hfits ⊢
      obtain ⟨htarget, h0⟩ := T.target hino
      have hreach := hw.restart hrest htarget hsl
        (w.rebuild_eq (of_decide_eq_true hfits) h0) (hagain _ hfair hne)
      refine .link hdot hdotdot hcur hentry hino (fun hnil => hfollow ?_) hreach
      by_contra hafter
      exact parts_ne_nil hafter w.head_after (append_eq_nil_iff.1 hnil).1

theorem start_on {w : Walk} (T : Tree v) (follow : Bool) (h : v.start path = some w) :
    w.On T follow path ∧ w.cur = root ∧ parts path = parts w.rest := by
  obtain ⟨node, hroot, rfl⟩ := Option.map_eq_some_iff.1 h
  have hslashes : ∀ c ∈ path.takeWhile (· == slash), c = slash := fun c hc => by
    simpa using mem_takeWhile_imp hc
  have hparts : parts (path.takeWhile (· == slash)) = [] := by
    have := parts_slashes hslashes []
    rwa [append_nil, parts_nil] at this
  refine ⟨⟨takeWhile_append_dropWhile, hroot, fun hclean => ?_, fun _ => ?_, fun _ => ?_,
    fun _ todo r h => ?_⟩, rfl, ?_⟩
  · have := head?_dropWhile_not (· == slash) path
    rw [hclean] at this
    simp at this
  · by_cases hnil : path.takeWhile (· == slash) = []
    · exact .inl hnil
    · right
      unfold slashed
      rw [getLast?_eq_getLast_of_ne_nil hnil, hslashes _ (getLast_mem hnil)]
      simp
  · exact ⟨[], .root, fun _ => rfl⟩
  · rwa [hparts] at h
  · have := parts_slashes hslashes (path.dropWhile (· == slash))
    rwa [takeWhile_append_dropWhile] at this

theorem nameiFrom_reaches (levels : Nat) (sl : Bool) (path : List UInt8)
    (hfair : T.fairFrom follow levels sl path = true) (hne : v.nameiFrom follow levels path ≠ 0) :
    Reaches T follow root (parts path ++ tail (sl || slashed path))
      (v.nameiFrom follow levels path) := by
  induction levels generalizing sl path with
  | zero => exact absurd rfl hne
  | succ levels ih =>
    unfold Volume.nameiFrom at hne ⊢
    unfold Tree.fairFrom at hfair
    cases hstart : v.start path with
    | none => simp [hstart] at hne
    | some w =>
      rw [hstart] at hfair hne
      obtain ⟨hw, hcur, hparts⟩ := start_on T follow hstart
      rw [hparts, ← hcur]
      refine walk_reaches (fun h => by rw [h, Bool.or_true]) (fun np hnp hagain => ?_)
        (Nat.lt_succ_self _) hw hfair hne
      exact ih _ np hnp hagain

end

/-- **Path resolution.** Where the walk is sane at every point, what `e4_namei` returns is 0 or
the inode that the path names. -/
theorem namei_reaches {v : Volume} (T : Tree v) (follow : Bool) (path : List UInt8)
    (hfair : T.fair follow path = true) :
    v.e4Namei follow path = 0 ∨ Reaches T follow root (comps path) (v.e4Namei follow path) := by
  by_cases hne : v.e4Namei follow path = 0
  · exact .inl hne
  · exact .inr (nameiFrom_reaches 9 false path hfair hne)

/-- A root with a directory `d`, a file `x` and a link `l` to `d/../x`. -/
def home : Volume where
  inode i :=
    if i = 2 then some (.dir ⟨[some [([100], 3), ([108], 4), ([120], 5)]], some fun _ => some [0]⟩)
    else if i = 3 then some (.dir ⟨[some []], none⟩)
    else if i = 4 then some (.link (some [100, 47, 46, 46, 47, 120]))
    else if i = 5 then some .other
    else none

theorem home_dir {i : Nat} {d : Dir} (h : home.inode i = some (.dir d)) :
    i = 2 ∧ d.blocks = [some [([100], 3), ([108], 4), ([120], 5)]] ∨ i = 3 ∧ d.blocks = [some []] := by
  unfold home at h
  dsimp only at h
  split_ifs at h with h2 h3
  · cases h
    exact .inl ⟨h2, rfl⟩
  · cases h
    exact .inr ⟨h3, rfl⟩
  all_goals cases h

def homeTree : Tree home where
  parent _ := 2
  level i := if i = 3 then 1 else 0
  root_isDir := ⟨_, rfl⟩
  parent_root := rfl
  level_root := rfl
  unique := by
    rintro i d name a b hi ⟨p, hp, ha⟩ ⟨q, hq, hb⟩
    obtain ⟨-, hd⟩ | ⟨-, hd⟩ := home_dir hi
    · simp only [hd, List.mem_singleton, Option.some.injEq] at hp hq
      subst hp hq
      simp only [List.mem_cons, List.not_mem_nil, or_false, Prod.mk.injEq] at ha hb
      rcases ha with ⟨rfl, rfl⟩ | ⟨rfl, rfl⟩ | ⟨rfl, rfl⟩ <;> simpa [eq_comm] using hb
    · simp only [hd, List.mem_singleton, Option.some.injEq] at hp
      subst hp
      cases ha
  below := by
    rintro i d name j hi ⟨p, hp, hj⟩ - - ⟨e, he⟩
    have hchild := home_dir he
    obtain ⟨rfl, hd⟩ | ⟨-, hd⟩ := home_dir hi
    · simp only [hd, List.mem_singleton, Option.some.injEq] at hp
      subst hp
      simp only [List.mem_cons, List.not_mem_nil, or_false, Prod.mk.injEq] at hj
      obtain ⟨-, rfl⟩ | ⟨-, rfl⟩ | ⟨-, rfl⟩ := hj
      · exact ⟨rfl, rfl⟩
      · simp at hchild
      · simp at hchild
    · simp only [hd, List.mem_singleton, Option.some.injEq] at hp
      subst hp
      cases hj
  target := by
    intro i t h
    unfold home at h
    dsimp only at h
    split_ifs at h
    · cases h
    · cases h
    · cases h
      decide
    · cases h

/-- The path `/l` through the link, down and up again. -/
theorem namei_reaches_link : home.e4Namei true [47, 108] = 5 ∧
    (home.e4Namei true [47, 108] = 0 ∨
      Reaches homeTree true root (comps [47, 108]) (home.e4Namei true [47, 108])) :=
  ⟨by decide +kernel, namei_reaches homeTree true [47, 108] (by decide +kernel)⟩

/-! ### A path too deep for the stack -/

/-- Directories `a`, one in another, 66 below the root. -/
def nested : Volume where
  inode i :=
    if 2 ≤ i ∧ i ≤ 68 then some (.dir ⟨[some (if i < 68 then [([97], i + 1)] else [])], none⟩)
    else none

theorem nested_entry {i j : Nat} {d : Dir} {name : Name} (hi : nested.inode i = some (.dir d))
    (he : d.Entry name j) : (2 ≤ i ∧ i < 68) ∧ j = i + 1 := by
  obtain ⟨b, hb, hj⟩ := he
  unfold nested at hi
  dsimp only at hi
  split_ifs at hi with hrange hlt
  · cases hi
    simp only [mem_singleton, Option.some.injEq] at hb
    subst hb
    simp only [mem_singleton, Prod.mk.injEq] at hj
    exact ⟨⟨hrange.1, hlt⟩, hj.2⟩
  · cases hi
    simp only [mem_singleton, Option.some.injEq] at hb
    subst hb
    cases hj

theorem nested_noLink {i : Nat} {target : Option (List UInt8)} :
    nested.inode i ≠ some (.link target) := by
  unfold nested
  dsimp only
  split_ifs <;> simp

def nestedTree : Tree nested where
  parent i := if i = 2 then 2 else i - 1
  level i := i - 2
  root_isDir := ⟨_, rfl⟩
  parent_root := rfl
  level_root := rfl
  unique hi ha hb := (nested_entry hi ha).2.trans (nested_entry hi hb).2.symm
  below hi he _ _ _ := by
    obtain ⟨hrange, rfl⟩ := nested_entry hi he
    exact ⟨by rw [if_neg (by omega)]; rfl, by omega⟩
  target h := absurd h nested_noLink

/-- The path `a/a/.../a/..` with 66 directories. -/
def deepPath : List UInt8 := (List.replicate 66 [97, 47]).flatten ++ [46, 46]

theorem nested_reaches {follow : Bool} {i k r : Nat}
    (h : Reaches nestedTree follow i (replicate k [97] ++ [dotdot]) r) :
    r = nestedTree.parent (i + k) := by
  induction k generalizing i with
  | zero =>
    have hparent := h.of_dotdot
    cases hparent
    rfl
  | succ k ih =>
    obtain ⟨d, hi⟩ := h.isDir
    cases h with
    | entry _ _ hi he _ _ h =>
      obtain ⟨-, rfl⟩ := nested_entry hi he
      rw [ih h]
      congr 1
      omega
    | link _ _ _ _ hj => exact absurd hj nested_noLink

/-- At the end the stack holds the 64 directories next to the root only, and `..` leads to
the last of them and not to the directory above. -/
theorem parent_misnamed : deepPath.length < 1024 ∧ nested.e4Namei true deepPath = 65 ∧
    ¬(nested.e4Namei true deepPath = 0 ∨
      Reaches nestedTree true root (comps deepPath) (nested.e4Namei true deepPath)) := by
  have hnamei : nested.e4Namei true deepPath = 65 := by decide +kernel
  have hcomps : comps deepPath = replicate 66 [97] ++ [dotdot] := by decide +kernel
  refine ⟨by decide +kernel, hnamei, ?_⟩
  rw [hnamei, hcomps]
  rintro (h | h)
  · cases h
  · have := nested_reaches h
    revert this
    decide

end InDevOS.Ext4
