import InDevOS.Lib.Steps

/-! The lease of the DHCP client (`dhcp_start`, `dhcp_renew_check` in `net_dhcp.c`).

The times of a lease are taken from the server's reply. Where an option is missing the code
computes half and seven eighths of the lease, the latter with a 32-bit product; where it is
there it is stored without a look at the other times. `dhcp_renew_check` asks first whether
T1 has passed, so a lease whose T1 is late does not expire. `lease_times_iff`: the times are
in order and every check after the lease's end acquires a new one exactly if the accepted
replies have their times in order. -/
namespace InDevOS.Net.Dhcp
open Lib

/-- The times of `dhcp_offer_t`; 0 where the option is missing. -/
structure Offer where
  leaseTime : UInt32
  t1Renew : UInt32
  t2Rebind : UInt32

/-- `dhcp_lease_t` -/
structure Lease where
  active : Bool
  leaseTime : UInt32
  t1 : UInt32
  t2 : UInt32
  start : UInt64
deriving DecidableEq

def boot : Lease := ⟨false, 0, 0, 0, 0⟩

/-- What follows an ACK, here and in the renewal. -/
def Offer.store (o : Offer) (now : UInt64) : Lease where
  active := true
  leaseTime := o.leaseTime
  t1 := if o.t1Renew > 0 then o.t1Renew else o.leaseTime / 2
  t2 := if o.t2Rebind > 0 then o.t2Rebind else o.leaseTime * 7 / 8
  start := now

namespace Lease
variable {l : Lease} {now : UInt64}

/-- `dhcp_start`; `none` if it ends without an ACK, which leaves the lease alone. -/
def dhcpStart (l : Lease) : Option (Offer × UInt64) → Lease
  | some (o, now) => o.store now
  | none => l

section
variable (l : Lease) (now : UInt64)

def elapsed : UInt64 := (now - l.start) / 1000

inductive Outcome
  | nothing | renewal (broadcast : Bool) | acquisition
deriving DecidableEq

/-- What `dhcp_renew_check` decides to do at `now`. -/
def decision : Outcome :=
  if !l.active then .nothing
  else if l.leaseTime = 0 then .nothing
  else if l.elapsed now < l.t1.toUInt64 then .nothing
  else if l.leaseTime.toUInt64 ≤ l.elapsed now then .acquisition
  else .renewal (l.t2.toUInt64 ≤ l.elapsed now)

/-- `dhcp_renew_check` with the ACK that its request, or `dhcp_start`, receives. -/
def renewCheck (ack : Option (Offer × UInt64)) : Lease :=
  match l.decision now with
  | .nothing => l
  | .renewal _ => l.dhcpStart ack
  | .acquisition => { l with active := false }.dhcpStart ack

inductive Event
  | start (ack : Option (Offer × UInt64))
  | check (now : UInt64) (ack : Option (Offer × UInt64))

def step (l : Lease) : Event → Lease
  | .start ack => l.dhcpStart ack
  | .check now ack => l.renewCheck now ack

/-- The reply that the event makes the client accept. -/
def accepts (l : Lease) : Event → Option (Offer × UInt64)
  | .start ack => ack
  | .check now ack => if l.decision now = .nothing then none else ack

/-- The lease has run out at `now`. -/
def Expired : Prop :=
  l.active = true ∧ l.leaseTime ≠ 0 ∧ l.leaseTime.toUInt64 ≤ l.elapsed now

end

/-- The times are in order, and a check after the lease's end gives it up and acquires a new one. -/
structure Right (l : Lease) : Prop where
  t1_le : l.t1 ≤ l.t2
  t2_le : l.t2 ≤ l.leaseTime
  expires : ∀ now ack, l.Expired now → l.renewCheck now ack = { l with active := false }.dhcpStart ack

end Lease

/-- The times of a reply are in order, those the client computes included. -/
def Offer.InOrder (o : Offer) : Prop :=
  if o.t2Rebind = 0 then
    if o.t1Renew = 0 then o.leaseTime.toNat * 7 < 2 ^ 32
    else o.t1Renew.toNat ≤ o.leaseTime.toNat * 7 % 2 ^ 32 / 8
  else
    o.t2Rebind ≤ o.leaseTime ∧
      if o.t1Renew = 0 then o.leaseTime.toNat / 2 ≤ o.t2Rebind.toNat else o.t1Renew ≤ o.t2Rebind

variable {o : Offer} {l : Lease} {now : UInt64} {ack : Option (Offer × UInt64)}

theorem Lease.Right.of_le (h1 : l.t1 ≤ l.t2) (h2 : l.t2 ≤ l.leaseTime) : l.Right where
  t1_le := h1
  t2_le := h2
  expires := by
    rintro now ack ⟨hactive, hne, hpast⟩
    have hlate : ¬ l.elapsed now < l.t1.toUInt64 := by
      rw [UInt64.not_lt]
      exact UInt64.le_trans (UInt32.toUInt64_le.2 (UInt32.le_trans h1 h2)) hpast
    simp [Lease.renewCheck, Lease.decision, hactive, hne, hlate, hpast]

/-- Seven eighths are at least a half unless the product wraps. -/
theorem half_le_iff {n : Nat} (h : n < 2 ^ 32) : n / 2 ≤ n * 7 % 4294967296 / 8 ↔ n * 7 < 4294967296 := by
  obtain ⟨d, hd⟩ : ∃ d, n * 7 / 4294967296 = d := ⟨_, rfl⟩
  have hlt : d < 7 := by omega
  interval_cases d <;> omega

theorem Offer.right_store_iff : (o.store now).Right ↔ o.InOrder := by
  have hiff : (o.store now).Right ↔
      (o.store now).t1 ≤ (o.store now).t2 ∧ (o.store now).t2 ≤ (o.store now).leaseTime :=
    ⟨fun h => ⟨h.t1_le, h.t2_le⟩, fun h => .of_le h.1 h.2⟩
  have hhalf := half_le_iff o.leaseTime.toNat_lt
  have hle := Nat.mod_le (o.leaseTime.toNat * 7) 4294967296
  rw [hiff]
  by_cases h1 : o.t1Renew = 0 <;> by_cases h2 : o.t2Rebind = 0 <;>
    simp [Offer.store, Offer.InOrder, h1, h2, UInt32.le_iff_toNat_le, UInt32.pos_iff_ne_zero] <;> omega

theorem Lease.right_dhcpStart (h : ack = none → l.Right) :
    (l.dhcpStart ack).Right ↔ ∀ a ∈ ack, a.1.InOrder := by
  rcases ack with _ | ⟨o, now⟩
  · simpa [dhcpStart] using h rfl
  · simp [dhcpStart, Offer.right_store_iff]

theorem Lease.right_step {e : Event} (h : l.Right) :
    (l.step e).Right ↔ ∀ a ∈ l.accepts e, a.1.InOrder := by
  cases e with
  | start ack => exact right_dhcpStart fun _ => h
  | check now ack =>
    cases hd : l.decision now with
    | nothing => simpa [step, renewCheck, accepts, hd] using h
    | renewal b =>
      simp only [step, renewCheck, accepts, hd, reduceCtorEq, if_false]
      exact right_dhcpStart fun _ => h
    | acquisition =>
      simp only [step, renewCheck, accepts, hd, reduceCtorEq, if_false]
      exact right_dhcpStart fun _ => .of_le h.t1_le h.t2_le

/-- For every sequence of replies and clock readings: all along, the stored times are in order
and a check after the end of the lease acquires a new one, exactly if the times of every
accepted reply are in order. -/
theorem lease_times_iff (es : List Lease.Event) :
    (∀ k, ((es.take k).foldl Lease.step boot).Right) ↔
      Along Lease.step (fun l e => ∀ a ∈ l.accepts e, a.1.InOrder) boot es := by
  have hboot : boot.Right := .of_le (by decide) (by decide)
  exact Along.iff_always (fun (l : Lease) (h : l.Right) => h) (fun _ _ h => (Lease.right_step h).2)
    (fun _ _ h => (Lease.right_step h).1) hboot es

/-- A reply with T1 behind the end of the lease: the lease has run out at 60 s and the check
does nothing. -/
theorem late_t1_never_expires :
    let l := boot.step (.start (some (⟨50, 100, 0⟩, 0)))
    ¬ l.t1 ≤ l.t2 ∧ l.Expired 60000 ∧ l.step (.check 60000 none) = l := by
  refine ⟨by decide, ⟨by decide, by decide, by decide⟩, by decide⟩

end InDevOS.Net.Dhcp
