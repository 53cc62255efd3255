import InDevOS.Lib.Keyed
import InDevOS.Lib.Steps

/-! The ARP cache (`net_arp.c`).

Static entries share a table of sixteen slots with what is learned from packets. A packet
that names the address of a static entry overwrites its MAC, and an insertion into a full
table replaces the oldest entry, static or not: neither looks at `permanent`, which only
ageing does. So a static entry is served for as long as nothing of the kind happens, and no
longer (`static_served_iff`), while no address ever has two entries.

The clock is an argument of every call. Storing an entry flushes the datagrams that waited
for it, which resolves addresses in turn; what is resolved there, and when, is an argument
as well. -/
namespace InDevOS.Net.Arp
open Lib Function List

def arpCacheSize : Nat := 16
def arpTimeoutMs : UInt64 := 30000
def arpRetryCount : Nat := 5
def arpRetryTimeoutMs : UInt64 := 100
def arpRequest : Nat := 1
def arpReply : Nat := 2

abbrev Ip := List UInt8
abbrev Mac := List UInt8

/-- `struct arp_entry` -/
structure Entry where
  ip : Ip
  mac : Mac
  timestamp : UInt64
  valid : Bool
  permanent : Bool

/-- `struct arp_pending` -/
structure Pending where
  targetIp : Ip
  timestamp : UInt64
  retryCount : Nat
  valid : Bool

def slots : List Nat := List.range arpCacheSize

def Entry.holds (e : Entry) (ip : Ip) : Bool := e.valid && e.ip == ip

/-- Learned too long ago; the difference is modulo 2^64. -/
def Entry.expired (e : Entry) (now : UInt64) : Bool :=
  !e.permanent && decide (arpTimeoutMs < now - e.timestamp)

def Pending.holds (p : Pending) (ip : Ip) : Bool := p.valid && p.targetIp == ip

/-! ### The cache -/

abbrev Cache := Nat → Entry

namespace Cache

/-- The loop of `arp_lookup`: an expired entry is dropped on the way. -/
def lookupFrom (ip : Ip) (now : UInt64) : List Nat → Cache → Option Mac × Cache
  | [], c => (none, c)
  | i :: is, c =>
    if (c i).holds ip then
      if (c i).expired now then lookupFrom ip now is (Function.update c i { c i with valid := false })
      else (some (c i).mac, c)
    else lookupFrom ip now is c

/-- `arp_lookup` -/
def lookup (c : Cache) (ip : Ip) (now : UInt64) : Option Mac × Cache := lookupFrom ip now slots c

/-- The first of the entries with the smallest time stamp. -/
def oldestIdx (c : Cache) : Nat :=
  (List.range' 1 (arpCacheSize - 1)).foldl
    (fun best i => if (c i).timestamp < (c best).timestamp then i else best) 0

/-- `arp_cache_store` -/
def store (c : Cache) (ip : Ip) (mac : Mac) (now : UInt64) : Cache :=
  match slots.find? fun i => (c i).holds ip with
  | some i => Function.update c i { c i with mac := mac, timestamp := now }
  | none =>
    match slots.find? fun i => !(c i).valid with
    | some i => Function.update c i ⟨ip, mac, now, true, false⟩
    | none => Function.update c c.oldestIdx ⟨ip, mac, now, true, false⟩

/-- `arp_cleanup_expired` -/
def cleanupExpired (c : Cache) (now : UInt64) : Cache := fun i =>
  if (c i).valid && (c i).expired now then { c i with valid := false } else c i

/-- The first entry for an address becomes permanent. -/
def markPermanent (c : Cache) (ip : Ip) : Cache :=
  match slots.find? fun i => (c i).holds ip with
  | some i => Function.update c i { c i with permanent := true }
  | none => c

end Cache

/-! ### The module -/

/-- The two tables, the frames sent so far and our own addresses. -/
structure State where
  arpCache : Cache
  arpPendingRequests : Nat → Pending
  sent : List (List UInt8)
  ourIp : Ip
  ourMac : Mac

/-- `arp_init` -/
def init (ourIp : Ip) (ourMac : Mac) : State :=
  ⟨fun _ => ⟨[0, 0, 0, 0], [0, 0, 0, 0, 0, 0], 0, false, false⟩, fun _ => ⟨[0, 0, 0, 0], 0, 0, false⟩, [],
    ourIp, ourMac⟩

/-- A frame of `len` bytes with an ARP packet from us. -/
def arpFrame (s : State) (dst : Mac) (opcode : UInt8) (targetMac : Mac) (targetIp : Ip) (len : Nat) :
    List UInt8 :=
  let packet := dst ++ s.ourMac ++ [0x08, 0x06] ++ [0, 1, 8, 0, 6, 4, 0, opcode] ++ s.ourMac ++ s.ourIp ++
    targetMac ++ targetIp
  packet ++ List.replicate (len - packet.length) 0

/-- What sending queued datagrams resolves: addresses, each with the two times that
`arp_resolve` reads. -/
abbrev Flush := List (Ip × UInt64 × UInt64)

namespace State

section
variable (s : State)

def setPending (i : Nat) (p : Pending) : State :=
  { s with arpPendingRequests := Function.update s.arpPendingRequests i p }

def netSendPacket (frame : List UInt8) : State := { s with sent := s.sent ++ [frame] }

/-- `arp_send_request` -/
def arpSendRequest (targetIp : Ip) : State :=
  s.netSendPacket (arpFrame s (List.replicate 6 0xFF) 1 (List.replicate 6 0) targetIp 60)

/-- `arp_lookup` -/
def arpLookup (ip : Ip) (now : UInt64) : Option Mac × State :=
  let r := s.arpCache.lookup ip now
  (r.1, { s with arpCache := r.2 })

/-- What `arp_resolve` does without an entry: ask, or ask again. -/
def arpRequestPending (ip : Ip) (now : UInt64) : State :=
  match slots.find? fun i => (s.arpPendingRequests i).holds ip with
  | some i =>
    let p := s.arpPendingRequests i
    if arpRetryTimeoutMs < now - p.timestamp then
      if p.retryCount < arpRetryCount then
        (s.setPending i { p with retryCount := p.retryCount + 1, timestamp := now }).arpSendRequest ip
      else s.setPending i { p with valid := false }
    else s
  | none =>
    match slots.find? fun i => !(s.arpPendingRequests i).valid with
    | some i => (s.setPending i ⟨ip, now, 0, true⟩).arpSendRequest ip
    | none => s

/-- `arp_resolve`; it reads the clock for the lookup and again for the request. -/
def arpResolve (ip : Ip) (now now' : UInt64) : Option Mac × State :=
  let r := s.arpLookup ip now
  match r.1 with
  | some mac => (some mac, r.2)
  | none => (none, r.2.arpRequestPending ip now')

/-- `ip_arp_resolved`, as far as the ARP module is concerned. -/
def ipArpResolved (flush : Flush) : State :=
  flush.foldl (fun s r => (s.arpResolve r.1 r.2.1 r.2.2).2) s

/-- `arp_insert` -/
def arpInsert (ip : Ip) (mac : Mac) (now : UInt64) (flush : Flush) : State :=
  { s with arpCache := s.arpCache.store ip mac now }.ipArpResolved flush

/-- `arp_cleanup_expired` -/
def arpCleanupExpired (now : UInt64) : State :=
  { s with arpCache := s.arpCache.cleanupExpired now }

/-- `arp_add_static` -/
def arpAddStatic (ip : Ip) (mac : Mac) (now : UInt64) (flush : Flush) : State :=
  match slots.find? fun i => (s.arpCache i).holds ip with
  | some i =>
    { s with arpCache := Function.update s.arpCache i
              { s.arpCache i with mac := mac, timestamp := now, permanent := true } }
  | none =>
    let s := s.arpInsert ip mac now flush
    { s with arpCache := s.arpCache.markPermanent ip }

/-- The request that a reply from `ip` answers is no longer pending. -/
def clearPending (ip : Ip) : State :=
  match slots.find? fun i => (s.arpPendingRequests i).holds ip with
  | some i => s.setPending i { s.arpPendingRequests i with valid := false }
  | none => s

end

end State

def opcodeOf (frame : List UInt8) : Nat := (frame.getD 20 0).toNat * 256 + (frame.getD 21 0).toNat
def senderMacOf (frame : List UInt8) : Mac := (frame.drop 22).take 6
def senderIpOf (frame : List UInt8) : Ip := (frame.drop 28).take 4
def targetIpOf (frame : List UInt8) : Ip := (frame.drop 38).take 4

/-- `arp_handle_packet` -/
def State.arpHandlePacket (s : State) (frame : List UInt8) (now : UInt64) (flush : Flush) : State :=
  if frame.length < 42 then s
  else if targetIpOf frame = s.ourIp then
    if opcodeOf frame = arpRequest then
      let s := s.arpInsert (senderIpOf frame) (senderMacOf frame) now flush
      s.netSendPacket (arpFrame s (senderMacOf frame) 2 (senderMacOf frame) (senderIpOf frame) 64)
    else if opcodeOf frame = arpReply then
      (s.clearPending (senderIpOf frame)).arpInsert (senderIpOf frame) (senderMacOf frame) now flush
    else s
  else s

/-- A call of the module. -/
inductive Event
  | packet (frame : List UInt8) (now : UInt64) (flush : Flush)
  | insert (ip : Ip) (mac : Mac) (now : UInt64) (flush : Flush)
  | addStatic (ip : Ip) (mac : Mac) (now : UInt64) (flush : Flush)
  | cleanup (now : UInt64)
  | lookup (ip : Ip) (now : UInt64)
  | resolve (ip : Ip) (now now' : UInt64)

def State.step (s : State) : Event → State
  | .packet frame now flush => s.arpHandlePacket frame now flush
  | .insert ip mac now flush => s.arpInsert ip mac now flush
  | .addStatic ip mac now flush => s.arpAddStatic ip mac now flush
  | .cleanup now => s.arpCleanupExpired now
  | .lookup ip now => (s.arpLookup ip now).2
  | .resolve ip now now' => (s.arpResolve ip now now').2

def State.run (s : State) (es : List Event) : State := es.foldl State.step s

/-! ### Dropped entries -/

namespace Cache
variable {c d : Cache} {ip : Ip} {mac : Mac} {now : UInt64} {i : Nat} {is : List Nat}

/-- Entries that are not permanent may have been dropped; nothing else has changed. -/
def Aged (c d : Cache) : Prop :=
  ∀ i, d i = c i ∨ (c i).permanent = false ∧ d i = { c i with valid := false }

theorem Aged.refl (c : Cache) : Aged c c := fun _ => .inl rfl

theorem Aged.trans {e : Cache} (h : Aged c d) (h' : Aged d e) : Aged c e := by
  intro i
  obtain hd | ⟨hp, hd⟩ := h i
  · rw [← hd]
    exact h' i
  · obtain he | ⟨-, he⟩ := h' i
    · exact .inr ⟨hp, he.trans hd⟩
    · rw [hd] at he
      exact .inr ⟨hp, he⟩

theorem aged_drop (hp : (c i).permanent = false) :
    Aged c (update c i { c i with valid := false }) := by
  intro j
  rcases eq_or_ne j i with rfl | hj
  · exact .inr ⟨hp, update_self ..⟩
  · exact .inl (update_of_ne hj ..)

theorem not_permanent_of_expired {e : Entry} (h : e.expired now = true) : e.permanent = false := by
  simp only [Entry.expired, Bool.and_eq_true, Bool.not_eq_true'] at h
  exact h.1

theorem lookupFrom_aged (ip : Ip) (now : UInt64) (is : List Nat) (c : Cache) :
    Aged c (lookupFrom ip now is c).2 := by
  induction is generalizing c with
  | nil => exact .refl c
  | cons i is ih =>
    unfold lookupFrom
    split_ifs with _ hexp
    · exact (aged_drop (not_permanent_of_expired hexp)).trans (ih _)
    · exact .refl c
    · exact ih c

theorem cleanupExpired_aged (c : Cache) (now : UInt64) : Aged c (c.cleanupExpired now) := by
  intro i
  unfold cleanupExpired
  split_ifs with h
  · exact .inr ⟨not_permanent_of_expired (Bool.and_eq_true_iff.1 h).2, rfl⟩
  · exact .inl rfl

/-! ### At most one entry for an address -/

def Distinct (c : Cache) : Prop :=
  ∀ i < arpCacheSize, ∀ j < arpCacheSize, (c i).valid = true → (c j).valid = true → (c i).ip = (c j).ip → i = j

def Absent (c : Cache) (ip : Ip) : Prop := ∀ i < arpCacheSize, (c i).holds ip = false

/-- A permanent entry for the address. -/
def Static (c : Cache) (ip : Ip) (mac : Mac) : Prop :=
  ∃ i < arpCacheSize, (c i).holds ip = true ∧ (c i).permanent = true ∧ (c i).mac = mac

theorem holds_iff {e : Entry} : e.holds ip = true ↔ e.valid = true ∧ e.ip = ip := by simp [Entry.holds]

theorem Absent.not_holds (h : Absent c ip) (hi : i < arpCacheSize) : ¬ (c i).holds ip = true := by
  simp [h i hi]

theorem Distinct.holds_inj (hc : Distinct c) {i j : Nat} (hi : i < arpCacheSize) (hj : j < arpCacheSize)
    (h : (c i).holds ip = true) (h' : (c j).holds ip = true) : i = j := by
  rw [holds_iff] at h h'
  exact hc i hi j hj h.1 h'.1 (h.2.trans h'.2.symm)

/-- The address of an entry in use. -/
def key (e : Entry) : Option Ip := if e.valid then some e.ip else none

theorem key_iff {e : Entry} : key e = some ip ↔ e.holds ip = true := by
  rw [holds_iff, key]
  cases e.valid <;> simp

theorem distinct_iff : Distinct c ↔ Keyed.Distinct key arpCacheSize c := by
  simp only [Keyed.Distinct, key_iff]
  exact ⟨fun h i hi j hj _ => h.holds_inj hi hj, fun h i hi j hj hvi hvj hip =>
    h i hi j hj _ (holds_iff.2 ⟨hvi, hip⟩) (holds_iff.2 ⟨hvj, rfl⟩)⟩

theorem Aged.holds (h : Aged c d) (hi : (d i).holds ip = true) : (c i).holds ip = true ∧ d i = c i := by
  obtain heq | ⟨-, heq⟩ := h i
  · rw [heq] at hi
    exact ⟨hi, heq⟩
  · simp [heq, holds_iff] at hi

theorem Distinct.aged (hc : Distinct c) (h : Aged c d) : Distinct d :=
  distinct_iff.2 fun _ hi _ hj _ hi' hj' =>
    hc.holds_inj hi hj (h.holds (key_iff.1 hi')).1 (h.holds (key_iff.1 hj')).1

theorem Absent.aged (hc : Absent c ip) (h : Aged c d) : Absent d ip := by
  intro i hi
  by_contra hd
  exact hc.not_holds hi (h.holds (by simpa using hd)).1

theorem Static.aged (hc : Static c ip mac) (h : Aged c d) : Static d ip mac := by
  obtain ⟨i, hi, hholds, hperm, hmac⟩ := hc
  obtain heq | ⟨hnot, -⟩ := h i
  · exact ⟨i, hi, by rwa [heq], by rwa [heq], by rwa [heq]⟩
  · simp [hperm] at hnot

theorem mem_slots : i ∈ slots ↔ i < arpCacheSize := mem_range

theorem find_holds (h : (slots.find? fun i => (c i).holds ip) = some i) :
    i < arpCacheSize ∧ (c i).holds ip = true := by
  have hholds := find?_some h
  exact ⟨mem_slots.1 (mem_of_find?_eq_some h), hholds⟩

theorem find_absent : (slots.find? fun i => (c i).holds ip) = none ↔ Absent c ip := by
  simp [Absent, mem_slots]

/-! ### Looking up -/

theorem lookupFrom_absent (h : ∀ i ∈ is, (c i).holds ip = false) :
    lookupFrom ip now is c = (none, c) := by
  induction is with
  | nil => rfl
  | cons i is ih =>
    rw [forall_mem_cons] at h
    simp [lookupFrom, h.1, ih h.2]

theorem lookupFrom_one (hi : i ∈ is) (hholds : (c i).holds ip = true)
    (huniq : ∀ j ∈ is, (c j).holds ip = true → j = i) (now : UInt64) : lookupFrom ip now is c =
      if (c i).expired now then (none, update c i { c i with valid := false })
      else (some (c i).mac, c) := by
  induction is with
  | nil => exact absurd hi not_mem_nil
  | cons j is ih =>
    rw [lookupFrom]
    by_cases hj : (c j).holds ip = true
    · obtain rfl := huniq j mem_cons_self hj
      rw [if_pos hj, lookupFrom_absent fun k hk => ?_]
      rcases eq_or_ne k j with rfl | hkj
      · simp [Entry.holds]
      · rw [update_of_ne hkj]
        exact Bool.eq_false_iff.2 fun h => hkj (huniq k (mem_cons_of_mem _ hk) h)
    · rw [if_neg hj]
      have hmem : i ∈ is := (mem_cons.1 hi).resolve_left fun h => hj (h ▸ hholds)
      exact ih hmem fun k hk => huniq k (mem_cons_of_mem _ hk)

theorem Distinct.lookup_one (hc : Distinct c) (hi : i < arpCacheSize) (hholds : (c i).holds ip = true)
    (now : UInt64) : c.lookup ip now =
      if (c i).expired now then (none, update c i { c i with valid := false })
      else (some (c i).mac, c) :=
  lookupFrom_one (mem_slots.2 hi) hholds (fun _ hj hjholds => hc.holds_inj (mem_slots.1 hj) hi hjholds hholds) now

theorem Distinct.lookup_found (hc : Distinct c) (hi : i < arpCacheSize) (hholds : (c i).holds ip = true)
    {now : UInt64} (hexp : (c i).expired now = false) : c.lookup ip now = (some (c i).mac, c) := by
  rw [hc.lookup_one hi hholds, hexp]
  rfl

theorem Absent.lookup (hc : Absent c ip) (now : UInt64) : c.lookup ip now = (none, c) :=
  lookupFrom_absent fun i hi => hc i (mem_slots.1 hi)

theorem Distinct.lookup_expired (hc : Distinct c) (hi : i < arpCacheSize)
    (hholds : (c i).holds ip = true) {now : UInt64} (hexp : (c i).expired now = true) :
    Absent (c.lookup ip now).2 ip := by
  rw [hc.lookup_one hi hholds, if_pos hexp]
  intro j hj
  dsimp only
  rcases eq_or_ne j i with rfl | hji
  · simp [Entry.holds]
  · rw [update_of_ne hji]
    exact Bool.eq_false_iff.2 fun h => hji (hc.holds_inj hj hi h hholds)

theorem lookupFrom_other (now : UInt64) (is : List Nat) (h : (c i).holds ip = false) :
    (lookupFrom ip now is c).2 i = c i := by
  induction is generalizing c with
  | nil => rfl
  | cons j is ih =>
    unfold lookupFrom
    by_cases hj : (c j).holds ip = true
    · have hij : i ≠ j := by
        rintro rfl
        simp [h] at hj
      rw [if_pos hj]
      split
      · have hsame := update_of_ne hij { c j with valid := false } c
        rw [ih (by rw [hsame]; exact h), hsame]
      · rfl
    · rw [if_neg hj]
      exact ih h

theorem Static.lookup (hd : Distinct c) (hc : Static c ip mac) (now : UInt64) :
    (c.lookup ip now).1 = some mac := by
  obtain ⟨i, hi, hholds, hperm, rfl⟩ := hc
  rw [hd.lookup_found hi hholds (by simp [Entry.expired, hperm])]

/-! ### Storing -/

/-- The entry that is replaced in a full table: the first of the oldest. -/
def Oldest (c : Cache) (i : Nat) : Prop :=
  i < arpCacheSize ∧ (∀ j < i, (c i).timestamp < (c j).timestamp) ∧
    ∀ j < arpCacheSize, (c i).timestamp ≤ (c j).timestamp

theorem oldestIdx_oldest (c : Cache) : Oldest c c.oldestIdx := by
  -- the loop's invariant: best of the slots seen
  have key : ∀ n, n < arpCacheSize →
      let best := (range' 1 n).foldl
        (fun best i => if (c i).timestamp < (c best).timestamp then i else best) 0
      best ≤ n ∧ (∀ j < best, (c best).timestamp < (c j).timestamp) ∧
        ∀ j ≤ n, (c best).timestamp ≤ (c j).timestamp := by
    intro n hn
    induction n with
    | zero => simp
    | succ n ih =>
      obtain ⟨hle, hbefore, hall⟩ := ih (by omega)
      rw [range'_1_concat, foldl_append]
      generalize (range' 1 n).foldl _ 0 = best at hle hbefore hall ⊢
      simp only [foldl_cons, foldl_nil]
      rw [Nat.add_comm 1 n]
      split_ifs with hlt
      · refine ⟨Nat.le_refl _, fun j hj => ?_, fun j hj => ?_⟩
        · exact UInt64.lt_of_lt_of_le hlt (hall j (by omega))
        · rcases eq_or_ne j (n + 1) with rfl | hjn
          · exact UInt64.le_refl _
          · exact UInt64.le_of_lt (UInt64.lt_of_lt_of_le hlt (hall j (by omega)))
      · refine ⟨by omega, hbefore, fun j hj => ?_⟩
        rcases eq_or_ne j (n + 1) with rfl | hjn
        · exact UInt64.not_lt.1 hlt
        · exact hall j (by omega)
  obtain ⟨hle, hbefore, hall⟩ := key (arpCacheSize - 1) (by decide)
  exact ⟨Nat.lt_of_le_of_lt hle (by decide), hbefore, fun j hj => hall j (Nat.le_of_lt_succ hj)⟩

theorem Oldest.unique {i j : Nat} (hi : Oldest c i) (hj : Oldest c j) : i = j := by
  rcases Nat.lt_trichotomy i j with h | h | h
  · exact absurd (hj.2.1 i h) (UInt64.not_lt.2 (hi.2.2 j hj.1))
  · exact h
  · exact absurd (hi.2.1 j h) (UInt64.not_lt.2 (hj.2.2 i hi.1))

/-- What storing does: it goes to the entry for the address, to a free slot, or in the place
of the oldest entry. -/
theorem store_cases (c : Cache) (ip : Ip) (mac : Mac) (now : UInt64) :
    ∃ i < arpCacheSize, ∃ permanent, c.store ip mac now = update c i ⟨ip, mac, now, true, permanent⟩ ∧
      ((c i).holds ip = true ∧ permanent = (c i).permanent ∨
        Absent c ip ∧ permanent = false ∧
          ((c i).valid = false ∨ (∀ j < arpCacheSize, (c j).valid = true) ∧ Oldest c i)) := by
  unfold store
  cases hfind : slots.find? fun i => (c i).holds ip with
  | some i =>
    obtain ⟨hi, hholds⟩ := find_holds hfind
    obtain ⟨hvalid, hip⟩ := holds_iff.1 hholds
    refine ⟨i, hi, _, ?_, .inl ⟨hholds, rfl⟩⟩
    rw [← hip, ← hvalid]
  | none =>
    have habsent := find_absent.1 hfind
    cases hfree : slots.find? fun i => !(c i).valid with
    | some i =>
      have hvalid := find?_some hfree
      exact ⟨i, mem_slots.1 (mem_of_find?_eq_some hfree), _, rfl, .inr ⟨habsent, rfl, .inl (by simpa using hvalid)⟩⟩
    | none =>
      have hold := c.oldestIdx_oldest
      exact ⟨c.oldestIdx, hold.1, _, rfl,
        .inr ⟨habsent, rfl, .inr ⟨by simpa [mem_slots] using hfree, hold⟩⟩⟩

theorem store_entry (c : Cache) (ip : Ip) (mac : Mac) (now : UInt64) :
    ∃ i < arpCacheSize, ∃ permanent, c.store ip mac now i = ⟨ip, mac, now, true, permanent⟩ ∧
      (Absent c ip → permanent = false) := by
  obtain ⟨i, hi, permanent, heq, hcase⟩ := c.store_cases ip mac now
  refine ⟨i, hi, permanent, by rw [heq, update_self], fun habsent => ?_⟩
  obtain ⟨hholds, -⟩ | ⟨-, hperm, -⟩ := hcase
  · exact absurd hholds (habsent.not_holds hi)
  · exact hperm

/-- Storing for `ip'` into this table replaces the entry for `ip`. -/
def Evicts (c : Cache) (ip' ip : Ip) : Prop :=
  Absent c ip' ∧ (∀ j < arpCacheSize, (c j).valid = true) ∧ ∃ i, Oldest c i ∧ (c i).ip = ip

theorem Distinct.update (hc : Distinct c) {e : Entry}
    (hother : ∀ j < arpCacheSize, (c j).holds e.ip = true → j = i) : Distinct (update c i e) := by
  refine distinct_iff.2 ((distinct_iff.1 hc).update fun j hj ip he hkj => hother j hj ?_)
  rw [(holds_iff.1 (key_iff.1 he)).2]
  exact key_iff.1 hkj

theorem Distinct.store (hc : Distinct c) (ip : Ip) (mac : Mac) (now : UInt64) : Distinct (c.store ip mac now) := by
  obtain ⟨i, hi, permanent, heq, hcase⟩ := c.store_cases ip mac now
  rw [heq]
  refine hc.update fun j hj hholds => ?_
  obtain ⟨hi', -⟩ | ⟨habsent, -⟩ := hcase
  · exact hc.holds_inj hj hi hholds hi'
  · exact absurd hholds (habsent.not_holds hj)

theorem Static.store (hc : Static c ip mac) {ip' : Ip} {mac' : Mac} (hmac : ip' = ip → mac' = mac)
    (hevict : ¬Evicts c ip' ip) (now : UInt64) : Static (c.store ip' mac' now) ip mac := by
  obtain ⟨i, hi, hholds, hperm, rfl⟩ := hc
  obtain ⟨j, hj, permanent, heq, hcase⟩ := c.store_cases ip' mac' now
  rw [heq]
  by_cases hij : i = j
  · subst hij
    obtain ⟨hholds', rfl⟩ | ⟨habsent, -, hcase⟩ := hcase
    · obtain rfl : ip' = ip := (holds_iff.1 hholds').2.symm.trans (holds_iff.1 hholds).2
      refine ⟨i, hi, ?_⟩
      rw [update_self]
      exact ⟨holds_iff.2 ⟨rfl, rfl⟩, hperm, hmac rfl⟩
    · obtain hinvalid | ⟨hfull, hold⟩ := hcase
      · simp [holds_iff, hinvalid] at hholds
      · exact absurd ⟨habsent, hfull, i, hold, (holds_iff.1 hholds).2⟩ hevict
  · refine ⟨i, hi, ?_⟩
    rw [update_of_ne hij]
    exact ⟨hholds, hperm, rfl⟩

/-- Storing for the address of a static entry leaves it static, with the new MAC. -/
theorem Static.overwrite (hd : Distinct c) (hc : Static c ip mac) (mac' : Mac) (now : UInt64) :
    Static (c.store ip mac' now) ip mac' := by
  obtain ⟨i, hi, hholds, hperm, rfl⟩ := hc
  obtain ⟨j, hj, permanent, heq, ⟨hholds', rfl⟩ | ⟨habsent, -⟩⟩ := c.store_cases ip mac' now
  · obtain rfl := hd.holds_inj hi hj hholds hholds'
    rw [heq]
    refine ⟨i, hi, ?_⟩
    rw [update_self]
    exact ⟨holds_iff.2 ⟨rfl, rfl⟩, hperm, rfl⟩
  · exact absurd hholds (habsent.not_holds hi)

theorem Evicts.absent (hd : Distinct c) {ip' : Ip} (h : Evicts c ip' ip) (mac' : Mac) (now : UInt64) :
    Absent (c.store ip' mac' now) ip := by
  obtain ⟨habsent, hfull, i, hold, hip⟩ := h
  have hholds : (c i).holds ip = true := holds_iff.2 ⟨hfull i hold.1, hip⟩
  obtain ⟨j, hj, permanent, heq, ⟨hholds', -⟩ | ⟨-, -, hcase⟩⟩ := c.store_cases ip' mac' now
  · exact absurd hholds' (habsent.not_holds hj)
  · obtain hinvalid | ⟨-, hold'⟩ := hcase
    · simp [hfull j hj] at hinvalid
    · obtain rfl := hold.unique hold'
      rw [heq]
      intro k hk
      rcases eq_or_ne k i with rfl | hki
      · rw [update_self]
        refine Bool.eq_false_iff.2 fun h => ?_
        obtain rfl : ip' = ip := (holds_iff.1 h).2
        exact habsent.not_holds hk hholds
      · rw [update_of_ne hki]
        exact Bool.eq_false_iff.2 fun h => hki (hd.holds_inj hk hold.1 h hholds)

/-! ### Becoming permanent -/

theorem markPermanent_entry (c : Cache) (ip' : Ip) (i : Nat) :
    c.markPermanent ip' i = c i ∨ c.markPermanent ip' i = { c i with permanent := true } := by
  unfold markPermanent
  cases slots.find? fun i => (c i).holds ip' with
  | some j =>
    rcases eq_or_ne i j with rfl | hij
    · exact .inr (update_self ..)
    · exact .inl (update_of_ne hij ..)
  | none => exact .inl rfl

theorem markPermanent_holds (c : Cache) (ip ip' : Ip) (i : Nat) :
    (c.markPermanent ip' i).holds ip = (c i).holds ip := by
  obtain heq | heq := c.markPermanent_entry ip' i <;> simp [heq, Entry.holds]

theorem Distinct.markPermanent (hc : Distinct c) (ip' : Ip) : Distinct (c.markPermanent ip') := by
  refine distinct_iff.2 fun i hi j hj ip hi' hj' => ?_
  rw [key_iff, markPermanent_holds] at hi' hj'
  exact hc.holds_inj hi hj hi' hj'

theorem Absent.markPermanent (hc : Absent c ip) (ip' : Ip) : Absent (c.markPermanent ip') ip := fun i hi => by
  rw [markPermanent_holds]
  exact hc i hi

theorem Static.markPermanent (hc : Static c ip mac) (ip' : Ip) : Static (c.markPermanent ip') ip mac := by
  obtain ⟨i, hi, hholds, hperm, rfl⟩ := hc
  refine ⟨i, hi, by rwa [markPermanent_holds], ?_⟩
  obtain heq | heq := c.markPermanent_entry ip' i <;> simp [heq, hperm]

theorem static_markPermanent (hc : Distinct c) (hi : i < arpCacheSize) (hholds : (c i).holds ip = true) :
    Static (c.markPermanent ip) ip (c i).mac := by
  refine ⟨i, hi, by rwa [markPermanent_holds], ?_⟩
  unfold Cache.markPermanent
  cases hfind : slots.find? fun i => (c i).holds ip with
  | some j =>
    obtain ⟨hj, hjholds⟩ := find_holds hfind
    obtain rfl := hc.holds_inj hi hj hholds hjholds
    simp
  | none => exact absurd hholds ((find_absent.1 hfind).not_holds hi)

/-- Making an entry permanent as it is stored is making it permanent afterwards. -/
theorem store_markPermanent (h : (slots.find? fun i => (c i).holds ip) = some i) (now : UInt64) :
    update c i { c i with mac := mac, timestamp := now, permanent := true } =
      (c.store ip mac now).markPermanent ip := by
  have hstore : c.store ip mac now = update c i { c i with mac := mac, timestamp := now } := by
    simp [store, h]
  have hholds (j : Nat) : (c.store ip mac now j).holds ip = (c j).holds ip := by
    rcases eq_or_ne j i with rfl | hji
    · simp [hstore, Entry.holds]
    · rw [hstore, update_of_ne hji]
  simp only [Cache.markPermanent, hholds, h]
  simp [hstore]

end Cache

/-! ### Calls -/

namespace State
variable {s : State} {ip : Ip} {mac : Mac}

theorem arpRequestPending_cache (s : State) (ip : Ip) (now : UInt64) :
    (s.arpRequestPending ip now).arpCache = s.arpCache := by
  unfold arpRequestPending
  split
  · dsimp only
    split_ifs <;> rfl
  · split <;> rfl

theorem arpResolve_cache (s : State) (ip : Ip) (now now' : UInt64) :
    (s.arpResolve ip now now').2.arpCache = (s.arpCache.lookup ip now).2 := by
  unfold arpResolve
  dsimp only
  split
  · rfl
  · exact arpRequestPending_cache _ _ _

theorem ipArpResolved_aged (s : State) (flush : Flush) : Cache.Aged s.arpCache (s.ipArpResolved flush).arpCache := by
  induction flush generalizing s with
  | nil => exact .refl _
  | cons r flush ih =>
    have hfirst : Cache.Aged s.arpCache (s.arpResolve r.1 r.2.1 r.2.2).2.arpCache := by
      rw [arpResolve_cache]
      exact Cache.lookupFrom_aged _ _ _ _
    exact hfirst.trans (ih _)

theorem clearPending_cache (s : State) (ip : Ip) : (s.clearPending ip).arpCache = s.arpCache := by
  unfold clearPending
  split <;> rfl

section
variable (s : State) (ip : Ip) (mac : Mac) (now : UInt64) (flush : Flush)

theorem arpInsert_aged : Cache.Aged (s.arpCache.store ip mac now) (s.arpInsert ip mac now flush).arpCache :=
  ipArpResolved_aged _ flush

/-- Making a static entry is storing it, ageing and making it permanent. -/
theorem arpAddStatic_cases : ∃ d, Cache.Aged (s.arpCache.store ip mac now) d ∧
      (s.arpAddStatic ip mac now flush).arpCache = d.markPermanent ip := by
  unfold arpAddStatic
  cases hfind : slots.find? fun i => (s.arpCache i).holds ip with
  | some i => exact ⟨_, .refl _, Cache.store_markPermanent hfind now⟩
  | none => exact ⟨_, s.arpInsert_aged ip mac now flush, rfl⟩

end

end State

/-- What an event stores: the sender of a request or reply to us, or what the caller gives. -/
def Event.stores (s : State) : Event → Option (Ip × Mac)
  | .packet frame _ _ =>
    if 42 ≤ frame.length ∧ targetIpOf frame = s.ourIp ∧
        (opcodeOf frame = arpRequest ∨ opcodeOf frame = arpReply) then
      some (senderIpOf frame, senderMacOf frame)
    else none
  | .insert ip mac _ _ | .addStatic ip mac _ _ => some (ip, mac)
  | .cleanup _ | .lookup _ _ | .resolve _ _ _ => none

/-- What a step does to the cache. -/
inductive Stepped (c : Cache) : Option (Ip × Mac) → Cache → Prop
  | aged {d : Cache} (h : c.Aged d) : Stepped c none d
  | stored {ip : Ip} {mac : Mac} {now : UInt64} {d : Cache} (h : (c.store ip mac now).Aged d) :
    Stepped c (some (ip, mac)) d
  | marked {ip : Ip} {mac : Mac} {now : UInt64} {d : Cache} (h : (c.store ip mac now).Aged d) :
    Stepped c (some (ip, mac)) (d.markPermanent ip)

theorem step_cases (s : State) (e : Event) : Stepped s.arpCache (e.stores s) (s.step e).arpCache := by
  cases e with
  | packet frame now flush =>
    show Stepped _ (if _ then _ else _) (s.arpHandlePacket frame now flush).arpCache
    unfold State.arpHandlePacket
    by_cases hlen : frame.length < 42
    · rw [if_neg (by omega), if_pos hlen]
      exact .aged (.refl _)
    rw [if_neg hlen]
    by_cases htarget : targetIpOf frame = s.ourIp
    · rw [if_pos htarget]
      by_cases hreq : opcodeOf frame = arpRequest
      · rw [if_pos ⟨by omega, htarget, .inl hreq⟩, if_pos hreq]
        exact .stored (s.arpInsert_aged _ _ now flush)
      · rw [if_neg hreq]
        by_cases hrep : opcodeOf frame = arpReply
        · rw [if_pos ⟨by omega, htarget, .inr hrep⟩, if_pos hrep]
          have h := (s.clearPending (senderIpOf frame)).arpInsert_aged (senderIpOf frame) (senderMacOf frame)
            now flush
          rw [s.clearPending_cache] at h
          exact .stored h
        · rw [if_neg (fun h => h.2.2.elim hreq hrep), if_neg hrep]
          exact .aged (.refl _)
    · rw [if_neg (fun h => htarget h.2.1), if_neg htarget]
      exact .aged (.refl _)
  | insert ip mac now flush => exact .stored (s.arpInsert_aged ip mac now flush)
  | addStatic ip mac now flush =>
    obtain ⟨d, hd, heq⟩ := s.arpAddStatic_cases ip mac now flush
    show Stepped _ _ (s.arpAddStatic ip mac now flush).arpCache
    rw [heq]
    exact .marked hd
  | cleanup now => exact .aged (Cache.cleanupExpired_aged _ _)
  | lookup ip now => exact .aged (Cache.lookupFrom_aged _ _ _ _)
  | resolve ip now now' =>
    show Stepped _ _ (s.arpResolve ip now now').2.arpCache
    rw [s.arpResolve_cache]
    exact .aged (Cache.lookupFrom_aged _ _ _ _)

/-- An event leaves the static entry for `ip` alone: it stores no other MAC for it, and it does
not store another address over it. -/
def Spares (ip : Ip) (mac : Mac) (s : State) (e : Event) : Prop :=
  ∀ p ∈ e.stores s, (p.1 = ip → p.2 = mac) ∧ ¬s.arpCache.Evicts p.1 ip

/-! ### Runs -/

section
variable {c d : Cache} {ip : Ip} {mac : Mac} {o : Option (Ip × Mac)}

theorem Stepped.distinct (h : Stepped c o d) (hc : c.Distinct) : d.Distinct := by
  cases h with
  | aged h => exact hc.aged h
  | stored h => exact (hc.store _ _ _).aged h
  | marked h => exact ((hc.store _ _ _).aged h).markPermanent _

theorem Stepped.static (h : Stepped c o d) (hc : c.Static ip mac)
    (hspares : ∀ p ∈ o, (p.1 = ip → p.2 = mac) ∧ ¬c.Evicts p.1 ip) : d.Static ip mac := by
  cases h with
  | aged h => exact hc.aged h
  | stored h =>
    obtain ⟨hmac, hevict⟩ := hspares _ rfl
    exact (hc.store hmac hevict _).aged h
  | marked h =>
    obtain ⟨hmac, hevict⟩ := hspares _ rfl
    exact ((hc.store hmac hevict _).aged h).markPermanent _

theorem Stepped.overwritten {mac' : Mac} (h : Stepped c (some (ip, mac')) d) (hd : c.Distinct)
    (hc : c.Static ip mac) : d.Static ip mac' := by
  cases h with
  | stored h => exact (hc.overwrite hd mac' _).aged h
  | marked h => exact ((hc.overwrite hd mac' _).aged h).markPermanent _

theorem Stepped.evicted {ip' : Ip} {mac' : Mac} (h : Stepped c (some (ip', mac')) d) (hd : c.Distinct)
    (he : c.Evicts ip' ip) : d.Absent ip := by
  cases h with
  | stored h => exact (he.absent hd mac' _).aged h
  | marked h => exact ((he.absent hd mac' _).aged h).markPermanent _

end

/-- Every lookup of `ip` gives `mac`. -/
def Serves (ip : Ip) (mac : Mac) (s : State) : Prop := ∀ now, (s.arpLookup ip now).1 = some mac

theorem spares_of_serves {s : State} {e : Event} {ip : Ip} {mac : Mac} (hd : s.arpCache.Distinct)
    (hs : s.arpCache.Static ip mac) (h : Serves ip mac (s.step e)) : Spares ip mac s e := by
  have hstep := step_cases s e
  have hd' := hstep.distinct hd
  rintro ⟨ip', mac'⟩ hp
  obtain hp : e.stores s = some (ip', mac') := hp
  rw [hp] at hstep
  refine ⟨?_, fun hevict => ?_⟩
  · rintro rfl
    have hserved := (hstep.overwritten hd hs).lookup hd' 0
    exact Option.some.inj (hserved.symm.trans (h 0))
  · have habsent := (hstep.evicted hd hevict).lookup 0
    have hnone : ((s.step e).arpLookup ip 0).1 = none := by
      unfold State.arpLookup
      rw [habsent]
    exact Option.some_ne_none _ ((h 0).symm.trans hnone)

theorem distinct_run (ourIp : Ip) (ourMac : Mac) (es : List Event) :
    ((init ourIp ourMac).run es).arpCache.Distinct := by
  have key : ∀ s : State, s.arpCache.Distinct → (s.run es).arpCache.Distinct := by
    induction es with
    | nil => exact fun s hs => hs
    | cons e es ih => exact fun s hs => ih _ ((step_cases s e).distinct hs)
  exact key _ fun i _ j _ hv => Bool.noConfusion hv

/-! ### Making a static entry -/

/-- The entry for `ip` is there already, or sending what waited for it takes no longer than an
entry lasts. -/
def Prompt (s : State) (ip : Ip) (now : UInt64) (flush : Flush) : Prop :=
  ¬s.arpCache.Absent ip ∨ ∀ r ∈ flush, r.1 = ip → r.2.1 - now ≤ arpTimeoutMs

theorem expired_iff {e : Entry} {now : UInt64} (hperm : e.permanent = false) :
    e.expired now = false ↔ now - e.timestamp ≤ arpTimeoutMs := by
  unfold Entry.expired
  rw [hperm, Bool.not_false, Bool.true_and, decide_eq_false_iff_not, UInt64.not_lt]

/-- A new entry outlives the flush if that is prompt, and is gone if not. -/
theorem ipArpResolved_fresh {s : State} {ip : Ip} {i : Nat} (hd : s.arpCache.Distinct) (hi : i < arpCacheSize)
    (hholds : (s.arpCache i).holds ip = true) (hperm : (s.arpCache i).permanent = false) (flush : Flush) :
    ((∀ r ∈ flush, r.1 = ip → r.2.1 - (s.arpCache i).timestamp ≤ arpTimeoutMs) →
      (s.ipArpResolved flush).arpCache i = s.arpCache i) ∧
    (¬(∀ r ∈ flush, r.1 = ip → r.2.1 - (s.arpCache i).timestamp ≤ arpTimeoutMs) →
      (s.ipArpResolved flush).arpCache.Absent ip) := by
  induction flush generalizing s with
  | nil => exact ⟨fun _ => rfl, fun h => absurd (fun r hr => absurd hr not_mem_nil) h⟩
  | cons r flush ih =>
    have haged : Cache.Aged s.arpCache (s.arpResolve r.1 r.2.1 r.2.2).2.arpCache := by
      rw [State.arpResolve_cache]
      exact Cache.lookupFrom_aged _ _ _ _
    rw [forall_mem_cons]
    by_cases hr : r.1 = ip ∧ (s.arpCache i).expired r.2.1 = true
    · have habsent : (s.arpResolve r.1 r.2.1 r.2.2).2.arpCache.Absent ip := by
        rw [State.arpResolve_cache, hr.1]
        exact hd.lookup_expired hi hholds hr.2
      refine ⟨fun h => ?_, fun _ => habsent.aged (State.ipArpResolved_aged _ _)⟩
      have := (expired_iff hperm).2 (h.1 hr.1)
      rw [hr.2] at this
      exact Bool.noConfusion this
    · have hkept : (s.arpResolve r.1 r.2.1 r.2.2).2.arpCache i = s.arpCache i := by
        rw [State.arpResolve_cache]
        by_cases hip : r.1 = ip
        · rw [hip, hd.lookup_found hi hholds (Bool.eq_false_iff.2 fun h => hr ⟨hip, h⟩)]
        · refine Cache.lookupFrom_other _ _ (Bool.eq_false_iff.2 fun h => hip ?_)
          exact (Cache.holds_iff.1 h).2.symm.trans (Cache.holds_iff.1 hholds).2
      have hfirst : r.1 = ip → r.2.1 - (s.arpCache i).timestamp ≤ arpTimeoutMs := fun hip =>
        (expired_iff hperm).1 (Bool.eq_false_iff.2 fun h => hr ⟨hip, h⟩)
      have hrest := ih (hd.aged haged) (by rwa [hkept]) (by rwa [hkept])
      rw [hkept] at hrest
      exact ⟨fun h => hrest.1 h.2, fun h => hrest.2 fun h' => h ⟨hfirst, h'⟩⟩

/-- `arp_add_static` leaves a static entry if it is prompt, and no entry if not. -/
theorem arpAddStatic_static {s : State} (hd : s.arpCache.Distinct) (ip : Ip) (mac : Mac) (now : UInt64)
    (flush : Flush) :
    (Prompt s ip now flush → (s.arpAddStatic ip mac now flush).arpCache.Static ip mac) ∧
    (¬Prompt s ip now flush → (s.arpAddStatic ip mac now flush).arpCache.Absent ip) := by
  obtain ⟨i, hi, permanent, hentry, hperm⟩ := s.arpCache.store_entry ip mac now
  have hholds : (s.arpCache.store ip mac now i).holds ip = true := by
    rw [hentry]
    exact Cache.holds_iff.2 ⟨rfl, rfl⟩
  have hd' := hd.store ip mac now
  unfold State.arpAddStatic
  cases hfind : slots.find? fun i => (s.arpCache i).holds ip with
  | some j =>
    obtain ⟨hj, hjholds⟩ := Cache.find_holds hfind
    refine ⟨fun _ => ?_, fun h => absurd (.inl fun habsent => ?_) h⟩
    · dsimp only
      rw [Cache.store_markPermanent hfind now]
      have := Cache.static_markPermanent hd' hi hholds
      rwa [hentry] at this
    · exact absurd hjholds (by rw [habsent j hj]; decide)
  | none =>
    have habsent := Cache.find_absent.1 hfind
    have hfresh := ipArpResolved_fresh (s := { s with arpCache := s.arpCache.store ip mac now }) hd' hi hholds
      (by dsimp only; rw [hentry]; exact hperm habsent) flush
    dsimp only at hfresh ⊢
    rw [hentry] at hfresh
    refine ⟨fun h => ?_, fun h => ?_⟩
    · have hkept := hfresh.1 (h.resolve_left fun h => h habsent)
      have hd'' := hd'.aged (s.arpInsert_aged ip mac now flush)
      have hentry' : (s.arpInsert ip mac now flush).arpCache i = ⟨ip, mac, now, true, permanent⟩ := hkept
      have hholds' : ((s.arpInsert ip mac now flush).arpCache i).holds ip = true := by
        rw [hentry']
        exact Cache.holds_iff.2 ⟨rfl, rfl⟩
      have := Cache.static_markPermanent hd'' hi hholds'
      rwa [hentry'] at this
    · exact (hfresh.2 fun h' => h (.inr h')).markPermanent ip

/-- **Static entries.** In every run no address has two valid entries. After `arp_add_static`,
lookups give the MAC of the static entry in every state of a run, exactly if making it was
prompt and every event of the run spares it. -/
theorem static_served_iff (ourIp : Ip) (ourMac : Mac) (before es : List Event) (ip : Ip) (mac : Mac) (now : UInt64)
    (flush : Flush) :
    ((init ourIp ourMac).run es).arpCache.Distinct ∧
    ((∀ k, Serves ip mac ((((init ourIp ourMac).run before).arpAddStatic ip mac now flush).run (es.take k))) ↔
      Prompt ((init ourIp ourMac).run before) ip now flush ∧
        Along State.step (Spares ip mac) (((init ourIp ourMac).run before).arpAddStatic ip mac now flush) es) := by
  refine ⟨distinct_run ourIp ourMac es, ?_⟩
  have hd := distinct_run ourIp ourMac before
  generalize (init ourIp ourMac).run before = s at hd ⊢
  obtain ⟨hstatic, habsent⟩ := arpAddStatic_static hd ip mac now flush
  have hd' : (s.arpAddStatic ip mac now flush).arpCache.Distinct :=
    (step_cases s (.addStatic ip mac now flush)).distinct hd
  by_cases hprompt : Prompt s ip now flush
  · rw [and_iff_right hprompt]
    have hgood : ∀ s : State, s.arpCache.Distinct ∧ s.arpCache.Static ip mac → Serves ip mac s :=
      fun s h now => h.2.lookup h.1 now
    have hkeep : ∀ (s : State) (e : Event), s.arpCache.Distinct ∧ s.arpCache.Static ip mac → Spares ip mac s e →
        (s.step e).arpCache.Distinct ∧ (s.step e).arpCache.Static ip mac :=
      fun s e h he => ⟨(step_cases s e).distinct h.1, (step_cases s e).static h.2 he⟩
    exact Along.iff_always hgood hkeep (fun s e h => spares_of_serves h.1 h.2) ⟨hd', hstatic hprompt⟩ es
  · refine ⟨fun h => ?_, fun h => absurd h.1 hprompt⟩
    have hnone : ((s.arpAddStatic ip mac now flush).arpLookup ip 0).1 = none := by
      unfold State.arpLookup
      rw [(habsent hprompt).lookup 0]
    exact absurd ((h 0 0).symm.trans hnone) (Option.some_ne_none _)

/-- Our address in the examples below, and the address and MAC of a static entry. -/
def hostIp : Ip := [10, 0, 2, 15]
def hostMac : Mac := [0x52, 0x54, 0, 0x12, 0x34, 0x56]
def gatewayIp : Ip := [10, 0, 2, 2]
def gatewayMac : Mac := [0x52, 0x55, 0x0A, 0, 2, 2]
def otherMac : Mac := [2, 0, 0, 0, 0, 1]

/-- A reply to us that gives another MAC for the gateway. -/
def forgedReply : List UInt8 :=
  hostMac ++ otherMac ++ [0x08, 0x06, 0, 1, 8, 0, 6, 4, 0, 2] ++ otherMac ++ gatewayIp ++ hostMac ++ hostIp

/-- Sixteen insertions for other addresses. -/
def crowd : List Event :=
  (List.range 16).map fun k => .insert [10, 0, 3, UInt8.ofNat k] otherMac (UInt64.ofNat (k + 1)) []

/-- One forged reply replaces the MAC of a static entry, and a full table replaces the entry. -/
theorem static_entry_lost :
    (((init hostIp hostMac).run [.addStatic gatewayIp gatewayMac 0 [], .packet forgedReply 1 []]).arpLookup
      gatewayIp 2).1 = some otherMac ∧
    (((init hostIp hostMac).run (.addStatic gatewayIp gatewayMac 0 [] :: crowd)).arpLookup gatewayIp 17).1 =
      none := by
  decide +kernel

end InDevOS.Net.Arp
