/-
# CloudEtcd.Lease.Renewals — what a keepalive buys.

The expiry loop decides under the lock which leases have expired and deletes their records after it has
released the lock.  A keepalive in between succeeds, and the record is deleted all the same.  `Timed` is the
expiry loop with a clock and the list of what was promised and what was deleted.  Every renewed lease keeps
its full TTL as long as no keepalive comes for a lease that the round in progress has found expired, and no
TTL wraps when it is converted to nanoseconds (`renewals_kept`).
-/
import CloudEtcd.Lease.Expiry

namespace CloudEtcd

open LeaseManager

/-- A keepalive returned, and with its time and TTL the lease lives until a time; or the expiry loop's
delete of a lease record was committed at a time. -/
inductive Renewal where
  | promised (id deadline : Int)
  | deleted (id time : Int)
  deriving DecidableEq

variable {id : Int}

/-- The expiry loop, the clock, and what was promised and deleted so far. -/
structure Timed where
  expiry : Expiry
  clock : Int
  log : List Renewal

namespace Timed

/-- A keepalive, or a step of `checkExpiredOnce`. -/
inductive Action where
  | keepAlive (id : Int)
  | check (order : List Int)
  | delete (event : Event)
  | expire (outcome : LeaseState.Outcome)
  | retire

/-- The step of the expiry loop or of the lease manager that it is. -/
def Action.act (now : Int) : Action → Expiry.Action
  | .keepAlive id => .other (.keepAlive now id)
  | .check order => .other (.check now order)
  | .delete event => .delete ⟨now, fun _ => none⟩ event
  | .expire outcome => .other (.expire outcome)
  | .retire => .other .retire

/-- What a step adds to the list. -/
def entry (s : Timed) (now : Int) : Action → Option Renewal
  | .keepAlive id => (s.expiry.state.manager.leaseKeepAlive now id).map fun r =>
      .promised id (now + r.2 * 10 ^ 9)
  | .delete _ => s.expiry.state.todo.head?.map fun id => .deleted id now
  | _ => none

/-- One step, at a time that is not before the last one. -/
def step (s : Timed) (a : Int × Action) : Option Timed :=
  if a.1 < s.clock then none
  else (s.expiry.step (a.2.act a.1)).map fun expiry => ⟨expiry, a.1, s.log ++ (s.entry a.1 a.2).toList⟩

/-- Any lease table with any records in the log, before the expiry loop's first round. -/
def start (m : LeaseManager) (applied : List Event) (clock : Int) : Timed :=
  ⟨⟨⟨m, applied, [], false⟩, false⟩, clock, []⟩

/-- No lease was deleted before the time up to which a keepalive promised it. -/
def RenewalsKept (s : Timed) : Prop :=
  s.log.Pairwise fun a b => ∀ id deadline time, a = .promised id deadline → b = .deleted id time → deadline ≤ time

/-- A keepalive that succeeds does not come between the decision that the lease has expired and the delete of
its record, and the TTL in nanoseconds is an `int64`. -/
def RenewsInTime (s : Timed) (a : Int × Action) : Prop :=
  match a.2 with
  | .keepAlive id => ∀ lease ∈ s.expiry.state.manager.leases.lookup id,
      id ∉ s.expiry.inProgress ∧ IsInt64 (lease.ttl * 10 ^ 9)
  | _ => True

instance decidableRenewsInTime (s : Timed) (a : Int × Action) : Decidable (s.RenewsInTime a) := by
  unfold RenewsInTime
  split <;> infer_instance

/-- The leases that the round has still to delete are in the table and have expired, and a lease expires no
earlier than promised. -/
structure Inv (s : Timed) : Prop where
  loop : s.expiry.Inv
  due : ∀ id ∈ s.expiry.inProgress, ∃ lease, s.expiry.state.manager.leases.lookup id = some lease ∧
    lease.expiration ≤ s.clock
  bound : ∀ id lease, s.expiry.state.manager.leases.lookup id = some lease → ∀ deadline,
    .promised id deadline ∈ s.log →
      deadline ≤ lease.expiration ∧ lease.expiration ≤ s.clock + lease.ttl * 10 ^ 9
  kept : s.RenewalsKept

variable {s s' : Timed} {now : Int} {a : Action}

theorem step_eq_some (hstep : s.step (now, a) = some s') : s.clock ≤ now ∧
    s.expiry.step (a.act now) = some s'.expiry ∧ s'.clock = now ∧
    s'.log = s.log ++ (s.entry now a).toList := by
  unfold step at hstep
  split at hstep
  · cases hstep
  · next hclock =>
    obtain ⟨expiry, hexpiry, rfl⟩ := Option.map_eq_some_iff.mp hstep
    exact ⟨not_lt.mp hclock, hexpiry, rfl, rfl⟩

/-- The first lease of the round is retired. -/
theorem lookup_retire {m : LeaseManager} {x : Int} :
    (m.retire id).leases.lookup x = if x = id then none else m.leases.lookup x := by
  unfold retire
  cases hl : m.leases.lookup id with
  | none =>
    show m.leases.lookup x = _
    split
    · next hx => rw [hx, hl]
    · rfl
  | some lease =>
    show (m.leases.erase id).lookup x = _
    split
    · next hx => rw [hx, AList.lookup_erase]
    · next hx => exact AList.lookup_erase_ne hx

/-- The loop changes no lease that it leaves in the table, and what it has still to delete has expired. -/
theorem Inv.leases (h : s.Inv) (ha : ∀ id, a ≠ .keepAlive id) (hstep : s.step (now, a) = some s') :
    (∀ x lease, s'.expiry.state.manager.leases.lookup x = some lease →
      s.expiry.state.manager.leases.lookup x = some lease) ∧
    ∀ x ∈ s'.expiry.inProgress, ∃ lease, s'.expiry.state.manager.leases.lookup x = some lease ∧
      lease.expiration ≤ now := by
  obtain ⟨hclock, hexpiry, -⟩ := step_eq_some hstep
  generalize s'.expiry = e at hexpiry ⊢
  have hnodup := h.loop.nodup
  have hdue : ∀ x ∈ s.expiry.inProgress, ∃ lease, s.expiry.state.manager.leases.lookup x = some lease ∧
      lease.expiration ≤ now := fun x hx => by
    obtain ⟨lease, hlease, hle⟩ := h.due x hx
    exact ⟨lease, hlease, hle.trans hclock⟩
  -- What is left of a round after its first lease is retired.
  have hretire : ∀ id todo, (id :: todo).Nodup → s.expiry.inProgress = id :: todo →
      (∀ x lease, (s.expiry.state.manager.retire id).leases.lookup x = some lease →
        s.expiry.state.manager.leases.lookup x = some lease) ∧
      ∀ x ∈ todo, ∃ lease, (s.expiry.state.manager.retire id).leases.lookup x = some lease ∧
        lease.expiration ≤ now := by
    intro id todo hnodup hround
    refine ⟨fun x lease hlease => ?_, fun x hx => ?_⟩
    · rw [lookup_retire] at hlease
      split at hlease
      · cases hlease
      · exact hlease
    · have hne : x ≠ id := fun heq => (List.nodup_cons.mp hnodup).1 (heq ▸ hx)
      rw [lookup_retire, if_neg hne]
      exact hdue x (hround ▸ List.mem_cons_of_mem _ hx)
  cases a with
  | keepAlive id => exact absurd rfl (ha id)
  | check order =>
    obtain ⟨htodo, hperm, rfl⟩ := Expiry.check_eq_some hexpiry
    have hidle := h.loop.idle (Or.inl htodo)
    refine ⟨fun x lease hlease => hlease, fun x hx => ?_⟩
    simp only [Expiry.inProgress, hidle, Bool.false_eq_true, if_false] at hx
    obtain ⟨lease, hlease, hlt, -⟩ := mem_expired.mp (hperm.mem_iff.mp hx)
    exact ⟨lease, hlease, hlt.le⟩
  | delete event =>
    obtain ⟨id, todo, htodo, hdeleted, -, rfl⟩ := Expiry.delete_eq_some hexpiry
    obtain ⟨hlookup, htail⟩ := hretire id todo (htodo ▸ hnodup) (by simp [Expiry.inProgress, hdeleted, htodo])
    exact ⟨hlookup, by simpa [Expiry.inProgress, htodo] using htail⟩
  | expire outcome =>
    obtain ⟨id, todo, htodo, hcases⟩ := Expiry.expire_eq_some hexpiry
    rcases hcases with ⟨hdeleted, rfl⟩ | ⟨hdeleted, rfl⟩ | ⟨hdeleted, rfl⟩ <;>
      refine ⟨fun x lease hlease => hlease, fun x hx => hdue x ?_⟩
    · simp only [Expiry.inProgress, hdeleted, Bool.false_eq_true, if_false, htodo] at hx ⊢
      exact List.mem_cons_of_mem _ hx
    · simpa [Expiry.inProgress, hdeleted, htodo] using hx
    · simpa [Expiry.inProgress, hdeleted] using hx
  | retire =>
    obtain ⟨id, todo, htodo, hmissing, rfl⟩ := Expiry.retire_eq_some hexpiry
    have hidle := h.loop.idle (Or.inr hmissing)
    obtain ⟨hlookup, htail⟩ := hretire id todo (htodo ▸ hnodup) (by simp [Expiry.inProgress, hidle, htodo])
    exact ⟨hlookup, by simpa [Expiry.inProgress, hidle] using htail⟩

/-- Only a keepalive promises anything. -/
theorem promised_of_entry (ha : ∀ id, a ≠ .keepAlive id) {deadline : Int}
    (hin : .promised id deadline ∈ s.log ++ (s.entry now a).toList) : .promised id deadline ∈ s.log := by
  refine (List.mem_append.mp hin).resolve_right fun hnew => ?_
  cases a with
  | keepAlive id => exact absurd rfl (ha id)
  | delete event =>
    obtain ⟨x, -, hx⟩ := Option.map_eq_some_iff.mp (Option.mem_toList.mp hnew)
    cases hx
  | check | expire | retire => cases hnew

/-- What a step adds to the list keeps the promises in it. -/
theorem Inv.renewalsKept (h : s.Inv) (hstep : s.step (now, a) = some s') : s'.RenewalsKept := by
  obtain ⟨hclock, hexpiry, -, hlog⟩ := step_eq_some hstep
  have hsingle : ∀ (e : Option Renewal) (R : Renewal → Renewal → Prop), e.toList.Pairwise R := by
    intro e R
    cases e <;> simp
  unfold RenewalsKept
  rw [hlog, List.pairwise_append]
  refine ⟨h.kept, hsingle _ _, ?_⟩
  rintro _ hin _ hnew id deadline time rfl rfl
  cases a with
  | delete event =>
    -- The lease was found expired, and nothing was promised to it since.
    obtain ⟨x, todo, htodo, hdeleted, -, -⟩ := Expiry.delete_eq_some hexpiry
    have hentry : s.entry now (.delete event) = some (.deleted x now) := by simp [entry, htodo]
    rw [hentry] at hnew
    cases List.mem_singleton.mp hnew
    obtain ⟨lease, hlease, hle⟩ := h.due id (by simp [Expiry.inProgress, hdeleted, htodo])
    exact ((h.bound id lease hlease deadline hin).1.trans hle).trans hclock
  | keepAlive id =>
    obtain ⟨r, -, hr⟩ := Option.map_eq_some_iff.mp (Option.mem_toList.mp hnew)
    cases hr
  | check | expire | retire => cases hnew

theorem durationOfSeconds_of_isInt64 {ttl : Int} (h : IsInt64 (ttl * 10 ^ 9)) :
    durationOfSeconds ttl = ttl * 10 ^ 9 := by
  obtain ⟨hlo, hhi⟩ := h
  unfold durationOfSeconds
  omega

theorem Inv.keepAlive (h : s.Inv) (hok : s.RenewsInTime (now, .keepAlive id))
    (hstep : s.step (now, .keepAlive id) = some s') : s'.Inv := by
  have hkept := h.renewalsKept hstep
  obtain ⟨hclock, hexpiry, hnow, hlog⟩ := step_eq_some hstep
  have hloop := h.loop.step hexpiry
  obtain ⟨st, hst, he⟩ := Option.map_eq_some_iff.mp hexpiry
  obtain ⟨⟨m, ttl⟩, hrenew, rfl⟩ := Option.map_eq_some_iff.mp hst
  have hentry : s.entry now (.keepAlive id) = some (.promised id (now + ttl * 10 ^ 9)) := by
    simp [entry, hrenew]
  rw [hentry] at hlog
  obtain ⟨lease, hlease, ⟨-, rfl⟩, rfl⟩ := leaseKeepAlive_eq_some.mp hrenew
  obtain ⟨hnot, hint⟩ := hok lease hlease
  have hduration := durationOfSeconds_of_isInt64 hint
  obtain ⟨expiry, clock, log⟩ := s'
  simp only at hnow hlog he hloop
  subst hnow hlog he
  refine ⟨hloop, fun x hx => ?_, fun x found hfound deadline hin => ?_, hkept⟩
  · -- The renewed lease is not one that the round has still to delete.
    obtain ⟨due, hdue, hle⟩ := h.due x hx
    have hne : x ≠ id := fun heq => hnot (heq ▸ hx)
    exact ⟨due, (AList.lookup_insert_ne hne).trans hdue, hle.trans hclock⟩
  · show deadline ≤ found.expiration ∧ found.expiration ≤ clock + found.ttl * 10 ^ 9
    have hin' := List.mem_append.mp hin
    by_cases hx : x = id
    · subst hx
      cases (AList.lookup_insert _).symm.trans hfound
      show deadline ≤ clock + durationOfSeconds lease.ttl ∧
        clock + durationOfSeconds lease.ttl ≤ clock + lease.ttl * 10 ^ 9
      rw [hduration]
      refine ⟨?_, le_rfl⟩
      rcases hin' with hold | hnew
      · obtain ⟨h1, h2⟩ := h.bound x lease hlease deadline hold
        omega
      · cases List.mem_singleton.mp hnew
        exact le_rfl
    · rw [AList.lookup_insert_ne hx] at hfound
      have hold := hin'.resolve_right fun hnew => hx (by cases List.mem_singleton.mp hnew; rfl)
      obtain ⟨h1, h2⟩ := h.bound x found hfound deadline hold
      exact ⟨h1, by omega⟩

theorem Inv.step (h : s.Inv) (hok : s.RenewsInTime (now, a)) (hstep : s.step (now, a) = some s') :
    s'.Inv := by
  by_cases ha : ∃ id, a = .keepAlive id
  · obtain ⟨id, rfl⟩ := ha
    exact h.keepAlive hok hstep
  · have hne : ∀ id, a ≠ .keepAlive id := fun id heq => ha ⟨id, heq⟩
    obtain ⟨hclock, hexpiry, hnow, hlog⟩ := step_eq_some hstep
    obtain ⟨hlookup, hdue⟩ := h.leases hne hstep
    refine ⟨h.loop.step hexpiry, hnow.symm ▸ hdue, fun x lease hlease deadline hin => ?_,
      h.renewalsKept hstep⟩
    rw [hlog] at hin
    obtain ⟨h1, h2⟩ := h.bound x lease (hlookup x lease hlease) deadline (promised_of_entry hne hin)
    exact ⟨h1, by omega⟩

/-- In every run in which no keepalive comes for a lease between the decision that it has expired and the
delete of its record, and no renewed TTL wraps, every successful keepalive buys the full TTL. -/
theorem renewals_kept (m : LeaseManager) (applied : List Event) (clock : Int)
    {actions : List (Int × Action)}
    (heach : Transition.Each step RenewsInTime (start m applied clock) actions) :
    Transition.Always step RenewalsKept (start m applied clock) actions := by
  intro before t hpre ht
  have hstart : (start m applied clock).Inv :=
    ⟨⟨List.nodup_nil, nofun⟩, nofun, nofun, List.Pairwise.nil⟩
  exact (Transition.run_invariant_each (fun _ _ _ hs hok hstep => hs.step hok hstep) ht
    (heach.mono hpre) hstart).kept

/-- A table with lease 7, granted for a minute at time 0. -/
def granted : Timed := start (new.onLogEvent minuteLeases (grantEvent 7)) [grantEvent 7] 0

/-- The event of the expiry loop's delete. -/
def revokeEvent : Event := { type := .delete, kv := { key := leaseKey 7 } }

/-- A lease that is renewed in time and expires a minute later. -/
def renewThenExpire : List (Int × Action) :=
  [(50 * 10 ^ 9, .keepAlive 7), (61 * 10 ^ 9, .check []), (111 * 10 ^ 9, .check [7]),
    (111 * 10 ^ 9, .delete revokeEvent), (112 * 10 ^ 9, .expire .deleted)]

theorem renewals_kept_renewThenExpire : ∃ s, Transition.run step granted renewThenExpire = some s ∧
    s.log = [.promised 7 (110 * 10 ^ 9), .deleted 7 (111 * 10 ^ 9)] ∧
    Transition.Always step RenewalsKept granted renewThenExpire := by
  obtain ⟨s, hs, hlog⟩ : ∃ s, Transition.run step granted renewThenExpire = some s ∧
      s.log = [.promised 7 (110 * 10 ^ 9), .deleted 7 (111 * 10 ^ 9)] :=
    by decide +kernel
  exact ⟨s, hs, hlog, renewals_kept _ _ _ (by decide +kernel)⟩

/-- A keepalive between the decision that the lease has expired and the delete of its record. -/
def renewTooLate : List (Int × Action) :=
  [(61 * 10 ^ 9, .check [7]), (62 * 10 ^ 9, .keepAlive 7), (63 * 10 ^ 9, .delete revokeEvent)]

/-- The keepalive succeeds, and a second later the lease is gone. -/
theorem renewal_not_kept : ∃ s, Transition.run step granted renewTooLate = some s ∧ ¬ s.RenewalsKept ∧
    s.log = [.promised 7 (122 * 10 ^ 9), .deleted 7 (63 * 10 ^ 9)] ∧
    s.expiry.state.manager.hasLease 7 = false := by
  obtain ⟨s, hs, hlog, hgone⟩ : ∃ s, Transition.run step granted renewTooLate = some s ∧
      s.log = [.promised 7 (122 * 10 ^ 9), .deleted 7 (63 * 10 ^ 9)] ∧
      s.expiry.state.manager.hasLease 7 = false := by
    decide +kernel
  refine ⟨s, hs, fun hkept => ?_, hlog, hgone⟩
  unfold RenewalsKept at hkept
  rw [hlog] at hkept
  have := List.rel_of_pairwise_cons hkept List.mem_cons_self 7 _ _ rfl rfl
  omega

end Timed

end CloudEtcd
