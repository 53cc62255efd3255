import InDevOS.Lib.Chain

/-! The block cache of `storage.c`.

A fixed table of entries, each cached sector on three linked structures: the chain
of its hash bucket, the LRU list, and (by its `valid` bit) the entry count.
`Coherent` says that the three describe the same set of valid entries and that no
two of them cache the same sector. Every cache operation keeps it, and what the
operation does to the sectors the cache would serve is said through `Caches`. -/
namespace InDevOS.Storage
open Lib Function

def sectorSize : Nat := 512
abbrev Sector := Vector UInt8 sectorSize

def bcacheCapacity : Nat := 8192
def bcacheHashBuckets : UInt32 := 1024

/-- A pointer into the entry table. -/
abbrev Ptr := Fin bcacheCapacity

/-- `bcache_entry_t` -/
structure Entry where
  deviceId : UInt8
  lba : UInt64
  valid : Bool
  dirty : Bool
  data : Sector
  lruPrev : Option Ptr
  lruNext : Option Ptr
  hashNext : Option Ptr

structure Bcache where
  entries : Ptr → Entry
  hash : UInt32 → Option Ptr
  lruHead : Option Ptr
  lruTail : Option Ptr
  count : Int
  freeHint : Ptr
  hits : UInt64
  misses : UInt64
  enabled : Bool

def bcacheHash (dev : UInt8) (lba : UInt64) : UInt32 :=
  let key := (dev.toUInt64 <<< 56) ^^^ lba
  ((key * 2654435761) >>> 32).toUInt32 &&& (bcacheHashBuckets - 1)

def Entry.zero : Entry :=
  ⟨0, 0, false, false, Vector.replicate sectorSize 0, none, none, none⟩

def bcacheInit : Bcache where
  entries := fun _ => Entry.zero
  hash := fun _ => none
  lruHead := none
  lruTail := none
  count := 0
  freeHint := ⟨0, by decide⟩
  hits := 0
  misses := 0
  enabled := true

namespace Bcache

/-- Rewrite one entry of the table. -/
def modify (c : Bcache) (e : Ptr) (f : Entry → Entry) : Bcache :=
  { c with entries := Function.update c.entries e (f (c.entries e)) }

def setData (c : Bcache) (e : Ptr) (data : Sector) : Bcache :=
  c.modify e fun x => { x with data := data }

/-- The link after `p`, or the head of the list when there is no `p`. -/
def setLruNext (c : Bcache) (p q : Option Ptr) : Bcache :=
  match p with
  | some a => c.modify a fun x => { x with lruNext := q }
  | none => { c with lruHead := q }

/-- The link before `p`, or the tail of the list when there is no `p`. -/
def setLruPrev (c : Bcache) (p q : Option Ptr) : Bcache :=
  match p with
  | some a => c.modify a fun x => { x with lruPrev := q }
  | none => { c with lruTail := q }

/-- The LRU list's links, as the library sees them. -/
def lru (c : Bcache) : Links Ptr :=
  ⟨fun i => (c.entries i).lruNext, fun i => (c.entries i).lruPrev, c.lruHead, c.lruTail⟩

end Bcache

/-! ### The source's operations -/

section
variable (c : Bcache)

def bcacheLruRemove (e : Ptr) : Bcache :=
  let prev := (c.entries e).lruPrev
  let next := (c.entries e).lruNext
  ((c.setLruNext prev next).setLruPrev next prev).modify e
    fun x => { x with lruPrev := none, lruNext := none }

def bcacheLruPushFront (e : Ptr) : Bcache :=
  let head := c.lruHead
  let c := c.modify e fun x => { x with lruPrev := none, lruNext := head }
  let c := match head with
    | some h => c.modify h fun x => { x with lruPrev := some e }
    | none => c
  { c with lruHead := some e, lruTail := if c.lruTail.isNone then some e else c.lruTail }

/-- The walk along one hash chain for `(dev, lba)`. -/
def chainFind (c : Bcache) (dev : UInt8) (lba : UInt64) : Nat → Option Ptr → Option Ptr
  | 0, _ => none
  | _ + 1, none => none
  | fuel + 1, some e =>
    if (c.entries e).valid ∧ (c.entries e).deviceId = dev ∧ (c.entries e).lba = lba then some e
    else chainFind c dev lba fuel (c.entries e).hashNext

section
variable (dev : UInt8) (lba : UInt64)

/-- A hit moves to the front of the LRU list. -/
def bcacheLookup : Option Ptr × Bcache :=
  match chainFind c dev lba (bcacheCapacity + 1) (c.hash (bcacheHash dev lba)) with
  | some e => (some e, bcacheLruPushFront (bcacheLruRemove c e) e)
  | none => (none, c)

/-- Take `e` off the chain of bucket `h`. -/
def chainUnlink (h : UInt32) (e : Ptr) : Bcache :=
  let r := unlink (fun i => (c.entries i).hashNext) (c.hash h) e bcacheCapacity
  { c with
    entries := fun i => { c.entries i with hashNext := r.2 i }
    hash := Function.update c.hash h r.1 }

/-- Unlink `e` from the chain of bucket `h` and from the LRU list. -/
def detach (h : UInt32) (e : Ptr) : Bcache :=
  bcacheLruRemove (chainUnlink c h e) e

/-- Detach `e` and mark it unused. -/
def drop (h : UInt32) (e : Ptr) : Bcache :=
  let c := (detach c h e).modify e fun x => { x with valid := false }
  { c with count := c.count - 1 }

/-- The slot `k` places after the rolling hint, wrapping at the end of the table. -/
def hintSlot (hint : Ptr) (k : Nat) : Ptr :=
  ⟨(hint + k) % bcacheCapacity, Nat.mod_lt _ (by decide)⟩

def findUnused (c : Bcache) : Nat → Nat → Option Ptr
  | _, 0 => none
  | k, fuel + 1 =>
    if (c.entries (hintSlot c.freeHint k)).valid then findUnused c (k + 1) fuel
    else some (hintSlot c.freeHint k)

/-- Fill entry `e`, put it on its hash chain and at the front of the LRU list. -/
def populate (e : Ptr) (dev : UInt8) (lba : UInt64) (data : Sector) : Bcache :=
  let h := bcacheHash dev lba
  let c := c.modify e fun x =>
    { x with deviceId := dev, lba := lba, valid := true, dirty := false, data := data,
             hashNext := c.hash h }
  let c := bcacheLruPushFront { c with hash := Function.update c.hash h (some e) } e
  { c with count := c.count + 1 }

def bcacheInsert (data : Sector) : Bcache :=
  if !c.enabled then c
  else
    match bcacheLookup c dev lba with
    | (some e, c) => c.setData e data
    | (none, c) =>
      if c.count ≥ bcacheCapacity then
        match c.lruTail with
        | none => c
        | some e =>
          -- evict the least recently used entry and reuse it
          let old := c.entries e
          populate (drop c (bcacheHash old.deviceId old.lba) e) e dev lba data
      else
        match findUnused c 0 bcacheCapacity with
        | none => c
        | some e => populate { c with freeHint := hintSlot e 1 } e dev lba data

/-- Invalidate `count` sectors from `lba`, starting at the `i`-th. -/
def bcacheInvalidate (c : Bcache) (dev : UInt8) (lba : UInt64) : Nat → Nat → Bcache
  | _, 0 => c
  | i, n + 1 =>
    match bcacheLookup c dev (lba + UInt64.ofNat i) with
    | (some e, c) => bcacheInvalidate (drop c (bcacheHash dev (lba + UInt64.ofNat i)) e) dev lba (i + 1) n
    | (none, c) => bcacheInvalidate c dev lba (i + 1) n

/-- One round of `storage_bcache_invalidate_all`. -/
def invalidateEntry (e : Ptr) : Bcache :=
  if !(c.entries e).valid then c
  else
    let h := bcacheHash (c.entries e).deviceId (c.entries e).lba
    let c := (detach c h e).modify e fun x =>
      { x with valid := false, dirty := false, hashNext := none }
    { c with count := if c.count ≠ 0 then c.count - 1 else c.count }

def storageBcacheInvalidateAll : Bcache :=
  let c := (List.finRange bcacheCapacity).foldl invalidateEntry c
  { c with lruHead := none, lruTail := none }

/-! ### What the cache holds -/

/-- The cache would serve `d` for sector `lba` of device `dev`. -/
def Caches (d : Sector) : Prop :=
  ∃ e, (c.entries e).valid = true ∧ (c.entries e).deviceId = dev ∧ (c.entries e).lba = lba ∧
    (c.entries e).data = d

end

/-- The LRU list is `l`, the hash chains are `ch`, and they hold the valid entries. -/
structure CoherentWith (c : Bcache) (l : List Ptr) (ch : UInt32 → List Ptr) : Prop where
  lru : c.lru.Holds l
  chains : ∀ h, Seg (fun i => (c.entries i).hashNext) (c.hash h) (ch h) none
  lruMem : ∀ e, e ∈ l ↔ (c.entries e).valid = true
  chainMem : ∀ h e, e ∈ ch h ↔
    (c.entries e).valid = true ∧ bcacheHash (c.entries e).deviceId (c.entries e).lba = h
  count : c.count = l.length
  unique : ∀ e e', (c.entries e).valid = true → (c.entries e').valid = true →
    (c.entries e).deviceId = (c.entries e').deviceId → (c.entries e).lba = (c.entries e').lba →
    e = e'

/-- What an entry caches, apart from where it is linked. -/
def Entry.content (x : Entry) : Bool × UInt8 × UInt64 × Sector :=
  (x.valid, x.deviceId, x.lba, x.data)

/-- The hash chains, the LRU list and the count describe the same set of valid
entries, with at most one entry for each sector of each device. -/
def Coherent : Prop := ∃ l ch, CoherentWith c l ch

end

theorem coherent_init : Coherent bcacheInit := by
  refine ⟨[], fun _ => [], ⟨rfl, rfl⟩, fun _ => rfl, ?_, ?_, rfl, ?_⟩ <;>
    simp [bcacheInit, Entry.zero]

theorem caches_init (dev : UInt8) (lba : UInt64) (d : Sector) : ¬ Caches bcacheInit dev lba d := by
  simp [Caches, bcacheInit, Entry.zero]

/-! ### Moves within the LRU list -/

/-- The entry apart from its place in the LRU list. -/
def Entry.unlinked (x : Entry) : Entry := { x with lruPrev := none, lruNext := none }

/-- The two caches differ at most in the LRU links. -/
structure LruOnly (c c' : Bcache) : Prop where
  entries : ∀ i, (c'.entries i).unlinked = (c.entries i).unlinked
  hash : c'.hash = c.hash
  count : c'.count = c.count
  freeHint : c'.freeHint = c.freeHint
  enabled : c'.enabled = c.enabled

namespace LruOnly
variable {c c' c'' : Bcache}

theorem refl (c : Bcache) : LruOnly c c := ⟨fun _ => rfl, rfl, rfl, rfl, rfl⟩

section
variable (h : LruOnly c c')
include h

theorem trans (h' : LruOnly c' c'') : LruOnly c c'' :=
  ⟨fun i => (h'.entries i).trans (h.entries i), h'.hash.trans h.hash, h'.count.trans h.count,
    h'.freeHint.trans h.freeHint, h'.enabled.trans h.enabled⟩

theorem valid (i : Ptr) : (c'.entries i).valid = (c.entries i).valid :=
  (congrArg Entry.valid (h.entries i) :)

theorem deviceId (i : Ptr) : (c'.entries i).deviceId = (c.entries i).deviceId :=
  (congrArg Entry.deviceId (h.entries i) :)

theorem lba (i : Ptr) : (c'.entries i).lba = (c.entries i).lba :=
  (congrArg Entry.lba (h.entries i) :)

theorem data (i : Ptr) : (c'.entries i).data = (c.entries i).data :=
  (congrArg Entry.data (h.entries i) :)

theorem hashNext (i : Ptr) : (c'.entries i).hashNext = (c.entries i).hashNext :=
  (congrArg Entry.hashNext (h.entries i) :)

theorem caches (dev : UInt8) (lba : UInt64) (d : Sector) : Caches c' dev lba d ↔ Caches c dev lba d := by
  simp only [Caches, h.valid, h.deviceId, h.lba, h.data]

theorem coherent {l l' : List Ptr} {ch : UInt32 → List Ptr}
    (hc : CoherentWith c l ch) (hl : c'.lru.Holds l') (hp : l'.Perm l) :
    CoherentWith c' l' ch := by
  refine ⟨hl, fun b => ?_, fun e => ?_, fun b e => ?_, ?_, fun e e' => ?_⟩
  · rw [h.hash]
    exact (hc.chains b).congr fun i _ => h.hashNext i
  · rw [hp.mem_iff, hc.lruMem, h.valid]
  · rw [hc.chainMem, h.valid, h.deviceId, h.lba]
  · rw [h.count, hc.count, hp.length_eq]
  · rw [h.valid, h.valid, h.deviceId, h.deviceId, h.lba, h.lba]
    exact hc.unique e e'

end

end LruOnly

section
variable (c : Bcache)

theorem modify_lruOnly (e : Ptr) (f : Entry → Entry)
    (hf : ∀ x, (f x).unlinked = x.unlinked) : LruOnly c (c.modify e f) := by
  refine ⟨fun i => ?_, rfl, rfl, rfl, rfl⟩
  by_cases hi : i = e
  · subst hi
    simp [Bcache.modify, hf]
  · simp [Bcache.modify, update_of_ne hi]

section
variable (p q : Option Ptr)

theorem setLruNext_lruOnly : LruOnly c (c.setLruNext p q) := by
  cases p with
  | none => exact ⟨fun _ => rfl, rfl, rfl, rfl, rfl⟩
  | some a => exact modify_lruOnly c a (fun x => { x with lruNext := q }) fun _ => rfl

theorem setLruPrev_lruOnly : LruOnly c (c.setLruPrev p q) := by
  cases p with
  | none => exact ⟨fun _ => rfl, rfl, rfl, rfl, rfl⟩
  | some a => exact modify_lruOnly c a (fun x => { x with lruPrev := q }) fun _ => rfl

theorem lruRemove_lruOnly (e : Ptr) : LruOnly c (bcacheLruRemove c e) :=
  ((setLruNext_lruOnly c _ _).trans (setLruPrev_lruOnly _ _ _)).trans
    (modify_lruOnly _ e (fun x => { x with lruPrev := none, lruNext := none }) fun _ => rfl)

theorem lruPushFront_lruOnly (e : Ptr) : LruOnly c (bcacheLruPushFront c e) := by
  unfold bcacheLruPushFront
  refine (modify_lruOnly c e (fun x => { x with lruPrev := none, lruNext := c.lruHead })
    fun _ => rfl).trans ?_
  cases c.lruHead with
  | none => exact ⟨fun _ => rfl, rfl, rfl, rfl, rfl⟩
  | some h =>
    exact (modify_lruOnly _ h (fun x => { x with lruPrev := some e }) fun _ => rfl).trans
      ⟨fun _ => rfl, rfl, rfl, rfl, rfl⟩

/-! ### The LRU operations are the library's -/

theorem lru_modify (e : Ptr) (f : Entry → Entry) : (c.modify e f).lru =
      ⟨update c.lru.next e (f (c.entries e)).lruNext,
        update c.lru.prev e (f (c.entries e)).lruPrev, c.lruHead, c.lruTail⟩ := by
  simp only [Bcache.lru, Bcache.modify, Links.mk.injEq, and_self, and_true]
  constructor <;> funext i <;> by_cases hi : i = e
  all_goals first
    | (subst hi; simp)
    | simp [update_of_ne hi]

theorem lru_setLruNext : (c.setLruNext p q).lru = c.lru.setNext p q := by
  cases p with
  | none => rfl
  | some a =>
    simp only [Bcache.setLruNext, lru_modify, Links.setNext]
    exact congrArg (Links.mk _ · _ _) (update_eq_self a _)

theorem lru_setLruPrev : (c.setLruPrev p q).lru = c.lru.setPrev p q := by
  cases p with
  | none => rfl
  | some a =>
    simp only [Bcache.setLruPrev, lru_modify, Links.setPrev]
    exact congrArg (Links.mk · _ _ _) (update_eq_self a _)

end

theorem lru_lruRemove (e : Ptr) : (bcacheLruRemove c e).lru = c.lru.remove e := by
  have h := lru_setLruPrev (c.setLruNext (c.entries e).lruPrev (c.entries e).lruNext)
    (c.entries e).lruNext (c.entries e).lruPrev
  rw [lru_setLruNext] at h
  rw [bcacheLruRemove, lru_modify, h]
  exact congrArg₂ (Links.mk _ _ · ·) (congrArg Links.head h) (congrArg Links.tail h)

theorem lru_lruPushFront (e : Ptr) : (bcacheLruPushFront c e).lru = c.lru.pushFront e := by
  have hhead : c.lru.head = c.lruHead := rfl
  unfold bcacheLruPushFront Links.pushFront
  rw [hhead]
  cases c.lruHead with
  | none =>
    have h := lru_modify c e fun x => { x with lruPrev := none, lruNext := none }
    exact congrArg (fun s : Links Ptr =>
      Links.mk s.next s.prev (some e) (if s.tail.isNone then some e else s.tail)) h
  | some a =>
    have h := lru_setLruPrev (c.modify e fun x => { x with lruPrev := none, lruNext := some a })
      (some a) (some e)
    rw [lru_modify] at h
    exact congrArg (fun s : Links Ptr =>
      Links.mk s.next s.prev (some e) (if s.tail.isNone then some e else s.tail)) h

end

/-! ### Looking a sector up -/

/-- The test of the chain walk. -/
def Bcache.hitAt (c : Bcache) (dev : UInt8) (lba : UInt64) (e : Ptr) : Bool :=
  (c.entries e).valid && (c.entries e).deviceId == dev && (c.entries e).lba == lba

theorem hitAt_iff {c : Bcache} {dev : UInt8} {lba : UInt64} {e : Ptr} :
    c.hitAt dev lba e = true ↔
      (c.entries e).valid = true ∧ (c.entries e).deviceId = dev ∧ (c.entries e).lba = lba := by
  simp [Bcache.hitAt, and_assoc]

theorem chainFind_seg {c : Bcache} (dev : UInt8) (lba : UInt64) {l : List Ptr} {p : Option Ptr}
    {fuel : Nat} (h : Seg (fun i => (c.entries i).hashNext) p l none) (hf : l.length < fuel) :
    chainFind c dev lba fuel p = l.find? (c.hitAt dev lba) := by
  induction l generalizing p fuel with
  | nil =>
    obtain rfl : p = none := h
    cases fuel with
    | zero | succ => rfl
  | cons a l ih =>
    obtain ⟨rfl, hl⟩ := h
    cases fuel with
    | zero => simp at hf
    | succ fuel =>
      rw [chainFind, List.find?_cons]
      by_cases ha : c.hitAt dev lba a = true
      · rw [if_pos (hitAt_iff.mp ha), ha]
      · rw [if_neg (fun hn => ha (hitAt_iff.mpr hn)), Bool.eq_false_of_not_eq_true ha]
        exact ih hl (by simpa using hf)

section Specs
variable {c : Bcache} {l : List Ptr} {ch : UInt32 → List Ptr} {e : Ptr}

theorem CoherentWith.chain_length (hc : CoherentWith c l ch) (h : UInt32) :
    (ch h).length ≤ bcacheCapacity := by
  simpa using (hc.chains h).nodup.length_le_card

theorem CoherentWith.lru_nodup (hc : CoherentWith c l ch) : l.Nodup := hc.lru.forward.nodup

theorem CoherentWith.touch (hc : CoherentWith c l ch) (he : e ∈ l) :
    LruOnly c (bcacheLruPushFront (bcacheLruRemove c e) e) ∧
      CoherentWith (bcacheLruPushFront (bcacheLruRemove c e) e) (e :: l.erase e) ch := by
  have honly := (lruRemove_lruOnly c e).trans (lruPushFront_lruOnly _ e)
  refine ⟨honly, honly.coherent hc ?_ (List.perm_cons_erase he).symm⟩
  rw [lru_lruPushFront, lru_lruRemove]
  exact Links.pushFront_holds (Links.remove_holds hc.lru he) hc.lru_nodup.not_mem_erase

/-- What a lookup finds, and that it only reorders the LRU list. -/
theorem lookup_spec (hc : Coherent c) (dev : UInt8) (lba : UInt64) :
    LruOnly c (bcacheLookup c dev lba).2 ∧ Coherent (bcacheLookup c dev lba).2 ∧
      (∀ e, (bcacheLookup c dev lba).1 = some e → (c.entries e).valid = true ∧
        (c.entries e).deviceId = dev ∧ (c.entries e).lba = lba) ∧
      ((bcacheLookup c dev lba).1 = none → ∀ d, ¬ Caches c dev lba d) := by
  obtain ⟨l, ch, hc⟩ := hc
  have hfind := chainFind_seg dev lba (hc.chains (bcacheHash dev lba))
    (Nat.lt_succ_of_le (hc.chain_length _))
  unfold bcacheLookup
  rw [hfind]
  cases hr : (ch (bcacheHash dev lba)).find? (c.hitAt dev lba) with
  | none =>
    refine ⟨LruOnly.refl c, ⟨l, ch, hc⟩, by simp, fun _ d ⟨e, hv, hd, hl, _⟩ => ?_⟩
    have he : e ∈ ch (bcacheHash dev lba) := (hc.chainMem _ e).mpr ⟨hv, by rw [hd, hl]⟩
    exact List.find?_eq_none.mp hr e he (hitAt_iff.mpr ⟨hv, hd, hl⟩)
  | some e =>
    have hhit := hitAt_iff.mp (List.find?_some hr)
    obtain ⟨honly, hco⟩ := hc.touch ((hc.lruMem e).mpr hhit.1)
    refine ⟨honly, ⟨_, _, hco⟩, fun e' he' => ?_, by simp⟩
    obtain rfl : e = e' := by simpa using he'
    exact hhit

/-! ### Taking an entry out -/

theorem CoherentWith.notMem_chain (hc : CoherentWith c l ch) {b : UInt32}
    (hb : b ≠ bcacheHash (c.entries e).deviceId (c.entries e).lba) : e ∉ ch b := fun he =>
  hb ((hc.chainMem b e).mp he).2.symm

theorem CoherentWith.chain_erase (hc : CoherentWith c l ch)
    (he : (c.entries e).valid = true) {h : UInt32}
    (hh : h = bcacheHash (c.entries e).deviceId (c.entries e).lba) (b : UInt32) :
    Seg (fun i => ((chainUnlink c h e).entries i).hashNext) ((chainUnlink c h e).hash b)
      ((ch b).erase e) none := by
  have hmem : e ∈ ch h := (hc.chainMem h e).mpr ⟨he, hh.symm⟩
  obtain ⟨hseg, hframe⟩ := unlink_seg (hc.chains h) hmem (hc.chain_length h)
  by_cases hb : b = h
  · subst hb
    simpa [chainUnlink] using hseg
  · have hbe : e ∉ ch b := hc.notMem_chain (hh ▸ hb)
    rw [List.erase_of_not_mem hbe]
    simp only [chainUnlink, update_of_ne hb]
    refine (hc.chains b).congr fun i hi => hframe i fun hi' => hb ?_
    rw [← ((hc.chainMem b i).mp hi).2, ((hc.chainMem h i).mp hi').2]

theorem detach_lruOnly (c : Bcache) (h : UInt32) (e : Ptr) :
    LruOnly (chainUnlink c h e) (detach c h e) := lruRemove_lruOnly _ _

theorem detach_content (c : Bcache) (h : UInt32) (e i : Ptr) :
    ((detach c h e).entries i).content = (c.entries i).content := by
  have honly := detach_lruOnly c h e
  simp only [Entry.content, honly.valid, honly.deviceId, honly.lba, honly.data]
  rfl

theorem lru_modify_of_links (c : Bcache) (e : Ptr) (f : Entry → Entry)
    (hprev : ∀ x, (f x).lruPrev = x.lruPrev) (hnext : ∀ x, (f x).lruNext = x.lruNext) :
    (c.modify e f).lru = c.lru := by
  rw [lru_modify, hnext, hprev]
  exact congrArg₂ (Links.mk · · _ _) (update_eq_self e _) (update_eq_self e _)

theorem Entry.content_eq {x : Entry} {v : Bool} {dev : UInt8} {lba : UInt64} {d : Sector}
    (h : x.content = (v, dev, lba, d)) :
    x.valid = v ∧ x.deviceId = dev ∧ x.lba = lba ∧ x.data = d := by
  simpa [content] using h

/-- `c'` is `c` with the valid entry `e` gone. -/
structure Without (c c' : Bcache) (e : Ptr) : Prop where
  gone : (c'.entries e).valid = false
  rest : ∀ i, i ≠ e → (c'.entries i).content = (c.entries i).content
  enabled : c'.enabled = c.enabled

namespace Without
variable {c' : Bcache} {e : Ptr}

theorem valid_iff (hw : Without c c' e) (i : Ptr) :
    (c'.entries i).valid = true ↔ i ≠ e ∧ (c.entries i).valid = true := by
  by_cases hi : i = e
  · simp [hi, hw.gone]
  · simp [hi, (Entry.content_eq (hw.rest i hi)).1]

theorem key (hw : Without c c' e) {i : Ptr} (hi : i ≠ e) :
    (c'.entries i).deviceId = (c.entries i).deviceId ∧ (c'.entries i).lba = (c.entries i).lba ∧
      (c'.entries i).data = (c.entries i).data := by
  exact (Entry.content_eq (hw.rest i hi)).2

theorem coherent (hw : Without c c' e) (hc : CoherentWith c l ch)
    (he : (c.entries e).valid = true) (hlru : c'.lru.Holds (l.erase e))
    (hchains : ∀ b, Seg (fun i => (c'.entries i).hashNext) (c'.hash b) ((ch b).erase e) none)
    (hcount : c'.count = c.count - 1) :
    CoherentWith c' (l.erase e) (fun b => (ch b).erase e) := by
  refine ⟨hlru, hchains, fun i => ?_, fun b i => ?_, ?_, fun i j hi hj hdev hlba => ?_⟩
  · rw [hc.lru_nodup.mem_erase_iff, hc.lruMem, hw.valid_iff]
  · rw [(hc.chains b).nodup.mem_erase_iff, hc.chainMem, hw.valid_iff, and_assoc]
    refine and_congr_right fun hi => ?_
    rw [(hw.key hi).1, (hw.key hi).2.1]
  · have hmem := (hc.lruMem e).mpr he
    have hpos := List.length_pos_of_mem hmem
    rw [hcount, hc.count, List.length_erase_of_mem hmem]
    omega
  · obtain ⟨hie, hi⟩ := (hw.valid_iff i).mp hi
    obtain ⟨hje, hj⟩ := (hw.valid_iff j).mp hj
    rw [(hw.key hie).1, (hw.key hje).1] at hdev
    rw [(hw.key hie).2.1, (hw.key hje).2.1] at hlba
    exact hc.unique i j hi hj hdev hlba

theorem caches (hw : Without c c' e) (hc : Coherent c) (he : (c.entries e).valid = true)
    {dev : UInt8} {lba : UInt64} {d : Sector} :
    Caches c' dev lba d ↔ Caches c dev lba d ∧
      ¬ ((c.entries e).deviceId = dev ∧ (c.entries e).lba = lba) := by
  obtain ⟨l, ch, hc⟩ := hc
  constructor
  · rintro ⟨i, hi, rfl, rfl, rfl⟩
    obtain ⟨hie, hi⟩ := (hw.valid_iff i).mp hi
    obtain ⟨hdev, hlba, hdata⟩ := hw.key hie
    rw [hdev, hlba, hdata]
    exact ⟨⟨i, hi, rfl, rfl, rfl⟩, fun hk => hie (hc.unique i e hi he hk.1.symm hk.2.symm)⟩
  · rintro ⟨⟨i, hi, rfl, rfl, rfl⟩, hne⟩
    have hie : i ≠ e := by
      rintro rfl
      exact hne ⟨rfl, rfl⟩
    obtain ⟨hdev, hlba, hdata⟩ := hw.key hie
    exact ⟨i, (hw.valid_iff i).mpr ⟨hie, hi⟩, hdev, hlba, hdata⟩

end Without

theorem CoherentWith.discard (hc : CoherentWith c l ch)
    (he : (c.entries e).valid = true) {h : UInt32}
    (hh : h = bcacheHash (c.entries e).deviceId (c.entries e).lba) {c' : Bcache} {f : Entry → Entry}
    (hc' : c' = { (detach c h e).modify e f with count := c.count - 1 })
    (hvalid : ∀ x, (f x).valid = false) (hprev : ∀ x, (f x).lruPrev = x.lruPrev)
    (hnext : ∀ x, (f x).lruNext = x.lruNext) :
    Without c c' e ∧ CoherentWith c' (l.erase e) (fun b => (ch b).erase e) := by
  have hw : Without c c' e := by
    subst hc'
    refine ⟨by simp [Bcache.modify, hvalid], fun i hi => ?_, ?_⟩
    · simpa [Bcache.modify, update_of_ne hi] using detach_content c h e i
    · exact (detach_lruOnly c h e).enabled
  refine ⟨hw, hw.coherent hc he ?_ (fun b => ?_) (by rw [hc'])⟩
  · have hlru : c'.lru = c.lru.remove e := by
      subst hc'
      exact (lru_modify_of_links _ e f hprev hnext).trans (lru_lruRemove (chainUnlink c h e) e)
    rw [hlru]
    exact Links.remove_holds hc.lru ((hc.lruMem e).mpr he)
  · subst hc'
    have honly := detach_lruOnly c h e
    have hseg := hc.chain_erase he hh b
    rw [← honly.hash] at hseg
    refine hseg.congr fun i hi => ?_
    have hie : i ≠ e := fun hie => (hc.chains b).nodup.not_mem_erase (hie ▸ hi)
    simpa [Bcache.modify, update_of_ne hie] using honly.hashNext i

theorem drop_spec (hc : Coherent c) (he : (c.entries e).valid = true) {h : UInt32}
    (hh : h = bcacheHash (c.entries e).deviceId (c.entries e).lba) :
    Without c (drop c h e) e ∧ Coherent (drop c h e) := by
  obtain ⟨l, ch, hc⟩ := hc
  have heq : drop c h e = { (detach c h e).modify e (fun x => { x with valid := false }) with
      count := c.count - 1 } := by
    rw [← show (detach c h e).count = c.count from (detach_lruOnly c h e).count]
    rfl
  obtain ⟨hw, hco⟩ := hc.discard he hh heq (fun _ => rfl) (fun _ => rfl) (fun _ => rfl)
  exact ⟨hw, _, _, hco⟩

theorem invalidateEntry_spec (hc : Coherent c) (he : (c.entries e).valid = true) :
    Without c (invalidateEntry c e) e ∧ Coherent (invalidateEntry c e) := by
  obtain ⟨l, ch, hc⟩ := hc
  have hpos := List.length_pos_of_mem ((hc.lruMem e).mpr he)
  have hne : c.count ≠ 0 := by
    rw [hc.count]
    omega
  have hcount := (detach_lruOnly c (bcacheHash (c.entries e).deviceId (c.entries e).lba) e).count
  have heq : invalidateEntry c e =
      { (detach c (bcacheHash (c.entries e).deviceId (c.entries e).lba) e).modify e
          (fun x => { x with valid := false, dirty := false, hashNext := none }) with
        count := c.count - 1 } := by
    simp [invalidateEntry, he, Bcache.modify, hcount, chainUnlink, hne]
  obtain ⟨hw, hco⟩ := hc.discard he rfl heq (fun _ => rfl) (fun _ => rfl) (fun _ => rfl)
  exact ⟨hw, _, _, hco⟩

/-! ### Filling an entry -/

/-- The entry `populate` writes, before it is linked. -/
def Bcache.fill (c : Bcache) (e : Ptr) (dev : UInt8) (lba : UInt64) (data : Sector) : Bcache :=
  let c' := c.modify e fun x =>
    { x with deviceId := dev, lba := lba, valid := true, dirty := false, data := data,
             hashNext := c.hash (bcacheHash dev lba) }
  { c' with hash := Function.update c.hash (bcacheHash dev lba) (some e) }

section
variable (c : Bcache) (e : Ptr) (dev : UInt8) (lba : UInt64) (data : Sector)

theorem populate_lruOnly :
    LruOnly { c.fill e dev lba data with count := c.count + 1 } (populate c e dev lba data) := by
  have h := lruPushFront_lruOnly (c.fill e dev lba data) e
  exact ⟨h.entries, h.hash, congrArg (· + 1) h.count, h.freeHint, h.enabled⟩

theorem lru_populate : (populate c e dev lba data).lru = c.lru.pushFront e := by
  have hfill : (c.fill e dev lba data).lru = c.lru :=
    lru_modify_of_links c e (fun x =>
      { x with deviceId := dev, lba := lba, valid := true, dirty := false, data := data,
               hashNext := c.hash (bcacheHash dev lba) }) (fun _ => rfl) (fun _ => rfl)
  rw [← hfill, ← lru_lruPushFront]
  rfl

theorem populate_content (i : Ptr) : ((populate c e dev lba data).entries i).content =
      if i = e then (true, dev, lba, data) else (c.entries i).content := by
  have honly := populate_lruOnly c e dev lba data
  simp only [Entry.content, honly.valid, honly.deviceId, honly.lba, honly.data]
  by_cases hi : i = e
  · subst hi
    simp [Bcache.fill, Bcache.modify]
  · simp [Bcache.fill, Bcache.modify, hi]

theorem populate_hashNext : (fun i => ((populate c e dev lba data).entries i).hashNext) =
      update (fun i => (c.entries i).hashNext) e (c.hash (bcacheHash dev lba)) := by
  funext i
  rw [(populate_lruOnly c e dev lba data).hashNext i]
  by_cases hi : i = e
  · subst hi
    simp [Bcache.fill, Bcache.modify]
  · simp [Bcache.fill, Bcache.modify, update_of_ne hi]

end

/-- `c'` is `c` with entry `e` caching `data` for sector `lba` of `dev`. -/
structure Filled (c c' : Bcache) (e : Ptr) (dev : UInt8) (lba : UInt64) (data : Sector) :
    Prop where
  self : (c'.entries e).content = (true, dev, lba, data)
  rest : ∀ i, i ≠ e → (c'.entries i).content = (c.entries i).content
  enabled : c'.enabled = c.enabled

namespace Filled
variable {c' : Bcache} {e : Ptr} {dev : UInt8} {lba : UInt64} {data : Sector}

theorem valid_iff (hw : Filled c c' e dev lba data) (i : Ptr) :
    (c'.entries i).valid = true ↔ i = e ∨ (c.entries i).valid = true := by
  by_cases hi : i = e
  · simp [hi, (Entry.content_eq hw.self).1]
  · simp [hi, (Entry.content_eq (hw.rest i hi)).1]

theorem caches (hw : Filled c c' e dev lba data) {dev' : UInt8} {lba' : UInt64} {d : Sector}
    (he : (c.entries e).valid = false ∨
      (c.entries e).deviceId = dev ∧ (c.entries e).lba = lba)
    (hother : dev' ≠ dev ∨ lba' ≠ lba) :
    Caches c' dev' lba' d ↔ Caches c dev' lba' d := by
  obtain ⟨-, hdev, hlba, -⟩ := Entry.content_eq hw.self
  constructor
  · rintro ⟨i, hi, rfl, rfl, rfl⟩
    have hie : i ≠ e := by
      rintro rfl
      simp [hdev, hlba] at hother
    obtain ⟨h₁, h₂, h₃, h₄⟩ := Entry.content_eq (hw.rest i hie)
    exact ⟨i, h₁ ▸ hi, h₂.symm, h₃.symm, h₄.symm⟩
  · rintro ⟨i, hi, rfl, rfl, rfl⟩
    have hie : i ≠ e := by
      rintro rfl
      simp [hi] at he
      simp [he] at hother
    obtain ⟨h₁, h₂, h₃, h₄⟩ := Entry.content_eq (hw.rest i hie)
    exact ⟨i, h₁ ▸ hi, h₂, h₃, h₄⟩

theorem caches_self (hw : Filled c c' e dev lba data) : Caches c' dev lba data :=
  ⟨e, Entry.content_eq hw.self⟩

end Filled

theorem populate_filled (c : Bcache) (e : Ptr) (dev : UInt8) (lba : UInt64) (data : Sector) :
    Filled c (populate c e dev lba data) e dev lba data := by
  have h := populate_content c e dev lba data
  refine ⟨by rw [h, if_pos rfl], fun i hi => by rw [h, if_neg hi], ?_⟩
  exact (populate_lruOnly c e dev lba data).enabled

theorem Coherent.populate (hc : Coherent c) (he : (c.entries e).valid = false)
    {dev : UInt8} {lba : UInt64} (hnew : ∀ d, ¬ Caches c dev lba d) (data : Sector) :
    Coherent (populate c e dev lba data) := by
  obtain ⟨l, ch, hc⟩ := hc
  have hw := populate_filled c e dev lba data
  obtain ⟨-, hdev, hlba, -⟩ := Entry.content_eq hw.self
  have hel : e ∉ l := by simp [hc.lruMem, he]
  have hech : ∀ b, e ∉ ch b := by simp [hc.chainMem, he]
  refine ⟨e :: l, update ch (bcacheHash dev lba) (e :: ch (bcacheHash dev lba)),
    ?_, fun b => ?_, fun i => ?_, fun b i => ?_, ?_, fun i j hi hj hij hij' => ?_⟩
  · rw [lru_populate]
    exact Links.pushFront_holds hc.lru hel
  · rw [populate_hashNext, (populate_lruOnly c e dev lba data).hash]
    by_cases hb : b = bcacheHash dev lba
    · subst hb
      simpa [Bcache.fill] using (hc.chains _).push (hech _)
    · simpa [Bcache.fill, hb] using (hc.chains b).update_of_notMem (hech b)
  · rw [List.mem_cons, hc.lruMem, hw.valid_iff]
  · by_cases hi : i = e
    · subst hi
      rw [hw.valid_iff, hdev, hlba]
      by_cases hb : b = bcacheHash dev lba
      · simp [hb]
      · simp [hb, hech, Ne.symm hb]
    · obtain ⟨h₁, h₂, h₃, -⟩ := Entry.content_eq (hw.rest i hi)
      rw [h₁, h₂, h₃, ← hc.chainMem]
      by_cases hb : b = bcacheHash dev lba <;> simp [hb, hi]
  · rw [(populate_lruOnly c e dev lba data).count, List.length_cons]
    simp [hc.count]
  · -- a valid entry with the key of `e` would have cached the sector before
    have hclash : ∀ k, k ≠ e → (c.entries k).valid = true →
        ¬ ((c.entries k).deviceId = dev ∧ (c.entries k).lba = lba) :=
      fun k _ hk hkey => hnew _ ⟨k, hk, hkey.1, hkey.2, rfl⟩
    by_cases hie : i = e <;> by_cases hje : j = e
    · rw [hie, hje]
    · obtain ⟨h₁, h₂, h₃, -⟩ := Entry.content_eq (hw.rest j hje)
      subst hie
      exact absurd ⟨h₂ ▸ hij ▸ hdev, h₃ ▸ hij' ▸ hlba⟩ (hclash j hje (h₁ ▸ hj))
    · obtain ⟨h₁, h₂, h₃, -⟩ := Entry.content_eq (hw.rest i hie)
      subst hje
      exact absurd ⟨h₂ ▸ hij ▸ hdev, h₃ ▸ hij' ▸ hlba⟩ (hclash i hie (h₁ ▸ hi))
    · obtain ⟨h₁, h₂, h₃, -⟩ := Entry.content_eq (hw.rest i hie)
      obtain ⟨h₁', h₂', h₃', -⟩ := Entry.content_eq (hw.rest j hje)
      exact hc.unique i j (h₁ ▸ hi) (h₁' ▸ hj) (by rw [← h₂, ← h₂', hij])
        (by rw [← h₃, ← h₃', hij'])

/-! ### Inserting a sector -/

theorem findUnused_some {k fuel : Nat} (h : findUnused c k fuel = some e) :
    (c.entries e).valid = false := by
  induction fuel generalizing k with
  | zero => simp [findUnused] at h
  | succ fuel ih =>
    rw [findUnused] at h
    split at h
    · exact ih h
    · rename_i hv
      obtain rfl : hintSlot c.freeHint k = e := by simpa using h
      simpa using hv

theorem findUnused_none {k fuel : Nat} (h : findUnused c k fuel = none) :
    ∀ j, k ≤ j → j < k + fuel → (c.entries (hintSlot c.freeHint j)).valid = true := by
  induction fuel generalizing k with
  | zero => intro j h₁ h₂; omega
  | succ fuel ih =>
    rw [findUnused] at h
    split at h
    · rename_i hv
      intro j h₁ h₂
      by_cases hj : j = k
      · rw [hj]
        exact hv
      · exact ih h j (by omega) (by omega)
    · simp at h

theorem hintSlot_surjective (hint e : Ptr) : ∃ k < bcacheCapacity, hintSlot hint k = e := by
  refine ⟨(e + (bcacheCapacity - hint)) % bcacheCapacity, Nat.mod_lt _ (by decide), ?_⟩
  apply Fin.ext
  have h₂ := e.isLt
  simp only [hintSlot, Nat.add_mod_mod]
  rw [show hint.val + (e.val + (bcacheCapacity - hint.val)) = e.val + bcacheCapacity by omega,
    Nat.add_mod_right, Nat.mod_eq_of_lt h₂]

/-- A cache that is not full has an unused entry, and the scan finds one. -/
theorem CoherentWith.findUnused (hc : CoherentWith c l ch) (hcount : c.count < bcacheCapacity) :
    ∃ e, findUnused c 0 bcacheCapacity = some e := by
  cases h : Storage.findUnused c 0 bcacheCapacity with
  | some e => exact ⟨e, rfl⟩
  | none =>
    have hall : ∀ e, e ∈ l := fun e => by
      obtain ⟨k, hk, rfl⟩ := hintSlot_surjective c.freeHint e
      exact (hc.lruMem _).mpr (findUnused_none h k (Nat.zero_le k) (by omega))
    have hle : bcacheCapacity ≤ l.length := by
      calc bcacheCapacity = (List.finRange bcacheCapacity).length := by simp
        _ ≤ l.length := ((List.nodup_finRange _).subperm fun e _ => hall e).length_le
    rw [hc.count] at hcount
    omega

theorem lru_setData (c : Bcache) (e : Ptr) (data : Sector) : (c.setData e data).lru = c.lru :=
  lru_modify_of_links c e (fun x => { x with data := data }) (fun _ => rfl) (fun _ => rfl)

theorem setData_entries (c : Bcache) (e : Ptr) (data : Sector) (i : Ptr) :
    (c.setData e data).entries i =
      { c.entries i with data := if i = e then data else (c.entries i).data } := by
  by_cases hi : i = e
  · subst hi
    simp [Bcache.setData, Bcache.modify]
  · simp [Bcache.setData, Bcache.modify, hi]

theorem Coherent.setData (hc : Coherent c) (e : Ptr) (data : Sector) :
    Coherent (c.setData e data) := by
  obtain ⟨l, ch, hc⟩ := hc
  refine ⟨l, ch, ?_, fun b => ?_, fun i => ?_, fun b i => ?_, hc.count, fun i j => ?_⟩
  · rw [lru_setData]
    exact hc.lru
  · exact (hc.chains b).congr fun i _ => by rw [setData_entries]
  · rw [hc.lruMem, setData_entries]
  · rw [hc.chainMem, setData_entries]
  · rw [setData_entries, setData_entries]
    exact hc.unique i j

/-- What an insert owes its callers. -/
structure Inserted (c c' : Bcache) (dev : UInt8) (lba : UInt64) (data : Sector) : Prop where
  coherent : Coherent c'
  enabled : c'.enabled = c.enabled
  caches_self : Caches c' dev lba data
  caches_other : ∀ dev' lba' d, dev' ≠ dev ∨ lba' ≠ lba → Caches c' dev' lba' d → Caches c dev' lba' d

/-- The cache serves the inserted data for the inserted sector, and for other
sectors only what it served before. -/
theorem Inserted.caches {c' : Bcache} {dev dev' : UInt8} {lba lba' : UInt64} {data d : Sector}
    (h : Inserted c c' dev lba data) (hd : Caches c' dev' lba' d) :
    (dev' = dev ∧ lba' = lba) ∧ d = data ∨ ¬ (dev' = dev ∧ lba' = lba) ∧ Caches c dev' lba' d := by
  by_cases hkey : dev' = dev ∧ lba' = lba
  · obtain ⟨rfl, rfl⟩ := hkey
    obtain ⟨l, ch, hc⟩ := h.coherent
    obtain ⟨e, hv, h₁, h₂, rfl⟩ := hd
    obtain ⟨e', hv', h₁', h₂', rfl⟩ := h.caches_self
    rw [hc.unique e e' hv hv' (h₁.trans h₁'.symm) (h₂.trans h₂'.symm)]
    exact .inl ⟨⟨rfl, rfl⟩, rfl⟩
  · exact .inr ⟨hkey, h.caches_other dev' lba' d (by tauto) hd⟩

theorem insert_hit (hc : Coherent c) (he : (c.entries e).valid = true) (data : Sector) :
    Inserted c (c.setData e data) (c.entries e).deviceId (c.entries e).lba data := by
  have hw : Filled c (c.setData e data) e (c.entries e).deviceId (c.entries e).lba data :=
    ⟨by simp [setData_entries, Entry.content, he], fun i hi => by simp [setData_entries, hi], rfl⟩
  exact ⟨hc.setData e data, rfl, hw.caches_self,
    fun _ _ _ hother => (hw.caches (.inr ⟨rfl, rfl⟩) hother).mp⟩

theorem insert_fresh (hc : Coherent c) (he : (c.entries e).valid = false) {dev : UInt8}
    {lba : UInt64} (hnew : ∀ d, ¬ Caches c dev lba d) (data : Sector) :
    Inserted c (populate c e dev lba data) dev lba data := by
  have hw := populate_filled c e dev lba data
  exact ⟨hc.populate he hnew data, hw.enabled, hw.caches_self,
    fun _ _ _ hother => (hw.caches (.inl he) hother).mp⟩

/-- After an insert the cache serves the new data for that sector; what it serves for
any other sector it served before. -/
theorem insert_spec (hc : Coherent c) (hen : c.enabled = true) (dev : UInt8) (lba : UInt64)
    (data : Sector) : Inserted c (bcacheInsert c dev lba data) dev lba data := by
  obtain ⟨honly, hco, hsome, hnone⟩ := lookup_spec hc dev lba
  have hback : ∀ {c'}, Inserted (bcacheLookup c dev lba).2 c' dev lba data →
      Inserted c c' dev lba data := fun {c'} h =>
    ⟨h.coherent, h.enabled.trans honly.enabled, h.caches_self, fun dev' lba' d ho hd =>
      (honly.caches dev' lba' d).mp (h.caches_other dev' lba' d ho hd)⟩
  unfold bcacheInsert
  rw [hen]
  simp only [Bool.not_true, Bool.false_eq_true, if_false]
  generalize hr : bcacheLookup c dev lba = r at honly hco hsome hnone hback ⊢
  obtain ⟨_ | e, c₁⟩ := r
  all_goals dsimp only at honly hco hsome hnone hback
  · have hnew : ∀ d, ¬ Caches c₁ dev lba d := fun d hd => hnone rfl d ((honly.caches ..).mp hd)
    refine hback ?_
    dsimp only
    split
    · -- full: the tail of the LRU list is evicted
      rename_i hfull
      obtain ⟨l, ch, hcw⟩ := hco
      have hlen : 0 < l.length := by
        have hcount := hcw.count
        simp only [bcacheCapacity] at hfull
        omega
      have htail : c₁.lruTail = l.getLast? := hcw.lru.backward.head.trans List.head?_reverse
      obtain ⟨e, he⟩ : ∃ e, l.getLast? = some e :=
        ⟨_, List.getLast?_eq_some_getLast (List.ne_nil_of_length_pos hlen)⟩
      rw [htail, he]
      have hvalid := (hcw.lruMem e).mp (List.mem_of_getLast? he)
      obtain ⟨hw, hco'⟩ := drop_spec ⟨l, ch, hcw⟩ hvalid rfl
      have hins := insert_fresh hco' hw.gone (fun d hd => hnew d
        ((hw.caches ⟨l, ch, hcw⟩ hvalid).mp hd).1) data
      exact ⟨hins.coherent, hins.enabled.trans hw.enabled, hins.caches_self,
        fun dev' lba' d ho hd => ((hw.caches ⟨l, ch, hcw⟩ hvalid).mp
          (hins.caches_other dev' lba' d ho hd)).1⟩
    · rename_i hfull
      obtain ⟨l, ch, hcw⟩ := hco
      obtain ⟨e, he⟩ := hcw.findUnused (by omega)
      rw [he]
      have hco' : Coherent { c₁ with freeHint := hintSlot e 1 } :=
        ⟨l, ch, hcw.lru, hcw.chains, hcw.lruMem, hcw.chainMem, hcw.count, hcw.unique⟩
      have hins := insert_fresh hco' (findUnused_some (c := c₁) he) hnew data
      exact ⟨hins.coherent, hins.enabled, hins.caches_self, hins.caches_other⟩
  · obtain ⟨hv, hdev, hlba⟩ := hsome e rfl
    refine hback ?_
    have := insert_hit (e := e) hco (by rw [honly.valid, hv]) data
    rwa [honly.deviceId, honly.lba, hdev, hlba] at this

/-! ### Invalidating -/

/-- The sector is one of the `n` sectors from the `i`-th after `lba` on. -/
def InRange (dev : UInt8) (lba : UInt64) (i n : Nat) (dev' : UInt8) (lba' : UInt64) : Prop :=
  dev' = dev ∧ ∃ j, i ≤ j ∧ j < i + n ∧ lba' = lba + UInt64.ofNat j

theorem not_inRange_zero {dev dev' : UInt8} {lba lba' : UInt64} {i : Nat} :
    ¬ InRange dev lba i 0 dev' lba' := by
  rintro ⟨-, j, h₁, h₂, -⟩
  omega

theorem inRange_succ {dev dev' : UInt8} {lba lba' : UInt64} {i n : Nat} :
    InRange dev lba i (n + 1) dev' lba' ↔
      dev' = dev ∧ lba' = lba + UInt64.ofNat i ∨ InRange dev lba (i + 1) n dev' lba' := by
  constructor
  · rintro ⟨rfl, j, h₁, h₂, rfl⟩
    rcases Nat.eq_or_lt_of_le h₁ with rfl | h
    · exact .inl ⟨rfl, rfl⟩
    · exact .inr ⟨rfl, j, h, by omega, rfl⟩
  · rintro (⟨rfl, rfl⟩ | ⟨rfl, j, h₁, h₂, rfl⟩)
    · exact ⟨rfl, i, le_rfl, by omega, rfl⟩
    · exact ⟨rfl, j, by omega, by omega, rfl⟩

/-- Invalidating a range removes exactly the sectors of the range. -/
theorem invalidate_spec (hc : Coherent c) (dev : UInt8) (lba : UInt64) (i n : Nat) :
    Coherent (bcacheInvalidate c dev lba i n) ∧
      (bcacheInvalidate c dev lba i n).enabled = c.enabled ∧
      ∀ dev' lba' d, Caches (bcacheInvalidate c dev lba i n) dev' lba' d ↔
        Caches c dev' lba' d ∧ ¬ InRange dev lba i n dev' lba' := by
  induction n generalizing c i with
  | zero => exact ⟨hc, rfl, fun _ _ _ => (and_iff_left not_inRange_zero).symm⟩
  | succ n ih =>
    obtain ⟨honly, hco, hsome, hnone⟩ := lookup_spec hc dev (lba + UInt64.ofNat i)
    rw [bcacheInvalidate]
    generalize hr : bcacheLookup c dev (lba + UInt64.ofNat i) = r at honly hco hsome hnone ⊢
    obtain ⟨_ | e, c₁⟩ := r
    all_goals dsimp only at honly hco hsome hnone ⊢
    · obtain ⟨h₁, h₂, h₃⟩ := ih hco (i + 1)
      refine ⟨h₁, h₂.trans honly.enabled, fun dev' lba' d => ?_⟩
      rw [h₃, honly.caches, inRange_succ]
      refine and_congr_right fun hd => not_congr ⟨.inr, ?_⟩
      rintro (⟨rfl, rfl⟩ | hj)
      · exact absurd hd (hnone rfl d)
      · exact hj
    · obtain ⟨hv, hdev, hlba⟩ := hsome e rfl
      have hv₁ : (c₁.entries e).valid = true := by rw [honly.valid, hv]
      rw [← honly.deviceId] at hdev
      rw [← honly.lba] at hlba
      obtain ⟨hw, hco'⟩ := drop_spec hco hv₁ (by rw [hdev, hlba])
      obtain ⟨h₁, h₂, h₃⟩ := ih hco' (i + 1)
      refine ⟨h₁, (h₂.trans hw.enabled).trans honly.enabled, fun dev' lba' d => ?_⟩
      rw [h₃, hw.caches hco hv₁, honly.caches, inRange_succ, hdev, hlba, and_assoc, not_or,
        eq_comm, @eq_comm _ lba']

/-- A round of the full invalidation leaves the entry unused and revives no other. -/
theorem invalidateEntry_round (hc : Coherent c) (e : Ptr) :
    Coherent (invalidateEntry c e) ∧ (invalidateEntry c e).enabled = c.enabled ∧
      ∀ i, ((invalidateEntry c e).entries i).valid = true ↔ i ≠ e ∧ (c.entries i).valid = true := by
  by_cases he : (c.entries e).valid = true
  · obtain ⟨hw, hco⟩ := invalidateEntry_spec hc he
    exact ⟨hco, hw.enabled, hw.valid_iff⟩
  · have heq : invalidateEntry c e = c := by simp [invalidateEntry, he]
    rw [heq]
    refine ⟨hc, rfl, fun i => ⟨fun hi => ⟨?_, hi⟩, And.right⟩⟩
    rintro rfl
    exact he hi

theorem invalidateEntries (hc : Coherent c) (es : List Ptr) :
    Coherent (es.foldl invalidateEntry c) ∧
      (es.foldl invalidateEntry c).enabled = c.enabled ∧
      ∀ i, ((es.foldl invalidateEntry c).entries i).valid = true ↔
        i ∉ es ∧ (c.entries i).valid = true := by
  induction es generalizing c with
  | nil => simpa using hc
  | cons e es ih =>
    obtain ⟨hco, hen, hvalid⟩ := invalidateEntry_round hc e
    obtain ⟨h₁, h₂, h₃⟩ := ih hco
    refine ⟨h₁, h₂.trans hen, fun i => ?_⟩
    rw [List.foldl_cons, h₃, hvalid, List.mem_cons, not_or]
    tauto

theorem invalidateEntries_all (hc : Coherent c) {es : List Ptr} (hall : ∀ i, i ∈ es) {c' : Bcache}
    (hc' : c' = { es.foldl invalidateEntry c with lruHead := none, lruTail := none }) :
    Coherent c' ∧ c'.enabled = c.enabled ∧ ∀ dev lba d, ¬ Caches c' dev lba d := by
  obtain ⟨⟨l, ch, hcw⟩, hen, hvalid⟩ := invalidateEntries hc es
  have hnone : ∀ i, ¬ ((es.foldl invalidateEntry c).entries i).valid = true := fun i hi =>
    ((hvalid i).mp hi).1 (hall i)
  have hl : l = [] := List.eq_nil_iff_forall_not_mem.mpr fun e he =>
    hnone e ((hcw.lruMem e).mp he)
  subst hl hc'
  refine ⟨⟨[], ch, ⟨rfl, rfl⟩, hcw.chains, hcw.lruMem, hcw.chainMem, hcw.count, hcw.unique⟩, hen, ?_⟩
  rintro dev lba d ⟨e, he, -⟩
  exact hnone e he

theorem invalidateAll_spec (hc : Coherent c) :
    Coherent (storageBcacheInvalidateAll c) ∧
      (storageBcacheInvalidateAll c).enabled = c.enabled ∧
      ∀ dev lba d, ¬ Caches (storageBcacheInvalidateAll c) dev lba d :=
  invalidateEntries_all hc List.mem_finRange (by rw [storageBcacheInvalidateAll])

end Specs

end InDevOS.Storage
