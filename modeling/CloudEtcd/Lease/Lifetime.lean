/-
# CloudEtcd.Lease.Lifetime — how long a granted lease stays in the table.

`LeaseState` is the lease manager beside the log: the events that `OnLogEvent` has been given, and where
the expiry loop stands.  The table changes in four places: lease records, events on other keys, renewals
and the expiry loop, which retires a lease itself if it finds no record to delete.

A lease is granted if the latest event on its key is a put (`Granted`).  Along a run every granted lease is
in the table exactly if no step takes one out (`granted_held_iff`): no event takes the last key from the
list of a granted lease, the expiry loop retires no granted lease, and the lease records themselves are
in order (`KeepsGranted`).  The storage gives the lease manager the events of the log in order, whether it
applies or replays them (`applyRecord_leases`, `replayLog_leases`).
-/
import CloudEtcd.Lease.Table
import CloudEtcd.Lib.Cursor
import CloudEtcd.Lib.Transition
import CloudEtcd.System.Agreement

namespace CloudEtcd

open LeaseManager Transition MemoryStorage

variable {id : Int} {events : List Event}

open Cursor

/-! ## The manager beside the log -/

/-- The latest event on a key. -/
def latestOn (events : List Event) (key : Bytes) : Option Event :=
  events.foldl (fun last e => if e.kv.key = key then some e else last) none

/-- The latest event on the key of the lease is a put. -/
def Granted (events : List Event) (id : Int) : Prop :=
  IsInt64 id ∧ (latestOn events (leaseKey id)).any (fun e => e.type == .put) = true

instance (events : List Event) (id : Int) : Decidable (Granted events id) :=
  inferInstanceAs (Decidable (_ ∧ _))

/-- The lease manager, the events it was given, and the expiry loop: the expired leases that are left
to handle, and whether the delete of the first one's record found none. -/
structure LeaseState where
  manager : LeaseManager
  applied : List Event
  todo : List Int
  missing : Bool

namespace LeaseState

/-- A new lease manager. -/
def start : LeaseState := ⟨new, [], [], false⟩

/-- How the expiry loop's `storage.Delete` of a lease record ends. -/
inductive Outcome where
  | failed
  | deleted
  /-- `resp.Deleted == 0`; taken at the time of the snapshot. -/
  | missing

/-- What happens to a lease manager. -/
inductive Action where
  | apply (env : LeaseEnv) (event : Event)
  | keepAlive (now id : Int)
  /-- The locked part of `checkExpiredOnce`; a Go map is traversed in any order. -/
  | check (now : Int) (order : List Int)
  | expire (outcome : Outcome)
  | retire
  /-- What `processDeletionQueue` does with the queue is left open. -/
  | queue (queue : List Lease)

/-- One step. -/
def step (st : LeaseState) : Action → Option LeaseState
  | .apply env event =>
    some { st with manager := st.manager.onLogEvent env event, applied := st.applied ++ [event] }
  | .keepAlive now id =>
    (st.manager.leaseKeepAlive now id).map fun r => { st with manager := r.1 }
  | .check now order =>
    if st.todo = [] ∧ order.Perm (st.manager.expired now) then
      some { st with manager := st.manager.markExpiring order, todo := order }
    else none
  | .expire outcome =>
    match st.todo, st.missing with
    | id :: todo, false =>
      match outcome with
      | .failed => some { st with manager := st.manager.unmarkExpiring id, todo := todo }
      | .deleted => some { st with todo := todo }
      | .missing => if Granted st.applied id then none else some { st with missing := true }
    | _, _ => none
  | .retire =>
    match st.todo, st.missing with
    | id :: todo, true =>
      some { st with manager := st.manager.retire id, todo := todo, missing := false }
    | _, _ => none
  | .queue queue => some { st with manager := { st.manager with deleteQueue := queue } }

end LeaseState

/-- The lease is in the table, and a put with it is not refused. -/
def LeaseManager.Holds (m : LeaseManager) (id : Int) : Prop :=
  m.hasLease id = true ∧ ∀ (mem : MemoryStorage) (log : LogReader) (t : Txn) (req : PutRequest),
    mem.leaseManager = m → req.lease = id → mem.put log t req ≠ .error .leaseNotFound

namespace LeaseState

/-- Every granted lease is held. -/
def GrantedHeld (st : LeaseState) : Prop := ∀ id, Granted st.applied id → st.manager.Holds id

/-- The step takes no granted lease out of the table. -/
def KeepsGranted (st : LeaseState) : Action → Prop
  | .apply env e =>
    match parseLeaseKey e.kv.key, e.type with
    | some id, .put =>
      e.kv.key = leaseKey id →
        (env.unmarshal e.kv.value).isSome = true ∨ st.manager.hasLease id = true
    -- Other keys than `leaseKey id` can be read as the same id.
    | some id, .delete => e.kv.key = leaseKey id ∨ ¬ Granted st.applied id
    | none, _ => st.manager.DetachesLast e → ¬ Granted st.applied (oldLease e)
  | .retire => ∀ id ∈ st.todo.head?, ¬ Granted st.applied id
  | _ => True

instance (st : LeaseState) (a : Action) : Decidable (st.KeepsGranted a) := by
  unfold KeepsGranted
  split
  · split <;> infer_instance
  · infer_instance
  · infer_instance

end LeaseState

/-! ## Refused puts -/

theorem fetchEvent_ne_leaseNotFound {log : LogReader} {key : Bytes} {r : Nat} :
    fetchEvent log key r ≠ .error .leaseNotFound := by
  unfold fetchEvent
  split
  · exact nofun
  · split <;> exact nofun

theorem prevEvent_ne_leaseNotFound {m : MemoryStorage} {log : LogReader} {key : Bytes} {q : Nat} :
    m.prevEvent log key q ≠ .error .leaseNotFound := by
  unfold prevEvent
  split
  · exact nofun
  · next r _ =>
    intro herr
    cases hf : fetchEvent log key r with
    | ok event =>
      rw [hf] at herr
      cases herr
    | error err =>
      rw [hf] at herr
      cases herr
      exact fetchEvent_ne_leaseNotFound hf

/-- A put is refused for its lease exactly if the table lacks it. -/
theorem LeaseManager.holds_iff {m : LeaseManager} : m.Holds id ↔ m.hasLease id = true := by
  refine ⟨fun h => h.1, fun hm => ⟨hm, ?_⟩⟩
  rintro mem log t req rfl rfl
  unfold put
  rw [if_neg (by simp [hm])]
  intro herr
  cases hp : mem.prevEvent log req.key t.snapshotTimestamp with
  | ok event =>
    rw [hp] at herr
    cases herr
  | error err =>
    rw [hp] at herr
    cases herr
    exact prevEvent_ne_leaseNotFound hp

/-! ## Steps -/

theorem latestOn_append (events : List Event) (e : Event) (key : Bytes) :
    latestOn (events ++ [e]) key = if e.kv.key = key then some e else latestOn events key := by
  rw [latestOn, List.foldl_append]
  rfl

/-- An event decides whether the lease is granted whose key it is on. -/
theorem granted_append_self {e : Event} (hid : IsInt64 id) (hkey : e.kv.key = leaseKey id) :
    Granted (events ++ [e]) id ↔ e.type = .put := by
  rw [Granted, latestOn_append, if_pos hkey]
  simp [hid]

theorem granted_append_other {e : Event} (hkey : e.kv.key ≠ leaseKey id) :
    Granted (events ++ [e]) id ↔ Granted events id := by
  rw [Granted, latestOn_append, if_neg hkey]
  rfl

theorem Granted.parse (h : Granted events id) : parseLeaseKey (leaseKey id) = some id :=
  parseLeaseKey_leaseKey h.1

namespace LeaseState

variable {st st' : LeaseState}
variable {id : Int} {env : LeaseEnv} {e : Event}

theorem grantedHeld_iff :
    st.GrantedHeld ↔ ∀ id, Granted st.applied id → st.manager.hasLease id = true :=
  forall₂_congr fun _ _ => holds_iff

/-- A lease record that is put keeps every granted lease if it is valid or its lease is there. -/
theorem apply_put_iff (h : st.GrantedHeld) (hparse : parseLeaseKey e.kv.key = some id)
    (htype : e.type = .put) :
    (∀ x, Granted (st.applied ++ [e]) x → (st.manager.onLogEvent env e).hasLease x = true) ↔
      (e.kv.key = leaseKey id →
        (env.unmarshal e.kv.value).isSome = true ∨ st.manager.hasLease id = true) := by
  have hevent : st.manager.onLogEvent env e = st.manager.onLeaseRecord env id e := by
    rw [onLogEvent, hparse]
  simp only [hevent, hasLease_onLeaseRecord_put htype]
  constructor
  · intro hall hkey
    have hid := isInt64_of_parseLeaseKey hparse
    rcases hall id ((granted_append_self hid hkey).mpr htype) with ⟨-, hv⟩ | hm
    · exact Or.inl hv
    · exact Or.inr hm
  · intro hcond x hx
    by_cases hkey : e.kv.key = leaseKey x
    · obtain rfl : id = x := Option.some.inj (hparse.symm.trans (hkey ▸ hx.parse))
      exact (hcond hkey).imp_left fun hv => ⟨rfl, hv⟩
    · exact Or.inr (grantedHeld_iff.mp h x ((granted_append_other hkey).mp hx))

/-- A deleted lease record takes its lease out of the table. -/
theorem apply_delete_iff (h : st.GrantedHeld) (hparse : parseLeaseKey e.kv.key = some id)
    (htype : e.type = .delete) :
    (∀ x, Granted (st.applied ++ [e]) x → (st.manager.onLogEvent env e).hasLease x = true) ↔
      e.kv.key = leaseKey id ∨ ¬ Granted st.applied id := by
  have hevent : st.manager.onLogEvent env e = st.manager.retire id := by
    rw [onLogEvent, hparse]
    exact onLeaseRecord_delete htype
  simp only [hevent, hasLease_retire]
  constructor
  · intro hall
    by_cases hkey : e.kv.key = leaseKey id
    · exact Or.inl hkey
    · right
      intro hg
      exact (hall id ((granted_append_other hkey).mpr hg)).1 rfl
  · intro hcond x hx
    have hkey : e.kv.key ≠ leaseKey x := by
      intro hkey
      rw [granted_append_self hx.1 hkey, htype] at hx
      cases hx
    have hx' := (granted_append_other hkey).mp hx
    refine ⟨?_, grantedHeld_iff.mp h x hx'⟩
    rintro rfl
    exact hcond.elim hkey fun hn => hn hx'

/-- An event on another key takes the lease out of the table whose last key it takes. -/
theorem apply_key_iff (h : st.GrantedHeld) (hparse : parseLeaseKey e.kv.key = none) :
    (∀ x, Granted (st.applied ++ [e]) x → (st.manager.onLogEvent env e).hasLease x = true) ↔
      (st.manager.DetachesLast e → ¬ Granted st.applied (oldLease e)) := by
  have hother : ∀ {x}, Granted (st.applied ++ [e]) x ↔ Granted st.applied x := by
    intro x
    by_cases hkey : e.kv.key = leaseKey x
    · -- The key of a lease would be read as one.
      have hno : ¬ IsInt64 x := by
        intro hx
        rw [hkey, parseLeaseKey_leaseKey hx] at hparse
        cases hparse
      exact iff_of_false (fun hg => hno hg.1) fun hg => hno hg.1
    · exact granted_append_other hkey
  simp only [hother, hasLease_onLogEvent hparse]
  constructor
  · intro hall hdetach hg
    exact (hall _ hg).1 ⟨rfl, hdetach⟩
  · intro hcond x hx
    refine ⟨?_, Or.inr (grantedHeld_iff.mp h x hx)⟩
    rintro ⟨rfl, hdetach⟩
    exact hcond hdetach hx

theorem retire_iff (h : st.GrantedHeld) :
    (∀ x, Granted st.applied x → (st.manager.retire id).hasLease x = true) ↔
      ¬ Granted st.applied id := by
  simp only [hasLease_retire]
  constructor
  · intro hall hg
    exact (hall id hg).1 rfl
  · intro hn x hx
    refine ⟨?_, grantedHeld_iff.mp h x hx⟩
    rintro rfl
    exact hn hx

theorem keepAlive_hasLease {m m' : LeaseManager} {now ttl : Int}
    (hrenew : m.leaseKeepAlive now id = some (m', ttl)) {x : Int} (hx : m.hasLease x = true) :
    m'.hasLease x = true := by
  unfold leaseKeepAlive at hrenew
  split at hrenew
  · cases hrenew
  · obtain ⟨lease, -, heq⟩ := Option.map_eq_some_iff.mp hrenew
    cases heq
    exact hasLease_insert.mpr (Or.inr hx)

/-- A step keeps every granted lease in the table exactly if it meets the condition. -/
theorem step_grantedHeld_iff (h : st.GrantedHeld) {a : Action} (hstep : st.step a = some st') :
    st'.GrantedHeld ↔ st.KeepsGranted a := by
  have hheld := grantedHeld_iff.mp h
  rw [grantedHeld_iff]
  cases a with
  | apply env e =>
    cases hstep
    cases hparse : parseLeaseKey e.kv.key with
    | none =>
      simp only [KeepsGranted, hparse]
      exact apply_key_iff h hparse
    | some id =>
      cases htype : e.type with
      | put =>
        simp only [KeepsGranted, hparse, htype]
        exact apply_put_iff h hparse htype
      | delete =>
        simp only [KeepsGranted, hparse, htype]
        exact apply_delete_iff h hparse htype
  | keepAlive now id =>
    obtain ⟨⟨m, ttl⟩, hrenew, rfl⟩ := Option.map_eq_some_iff.mp hstep
    exact iff_of_true (fun x hx => keepAlive_hasLease hrenew (hheld x hx)) trivial
  | check now order =>
    simp only [step] at hstep
    split at hstep
    · cases hstep
      exact iff_of_true hheld trivial
    · cases hstep
  | expire outcome =>
    simp only [step] at hstep
    refine iff_of_true ?_ trivial
    split at hstep
    · split at hstep
      · cases hstep
        exact hheld
      · cases hstep
        exact hheld
      · split at hstep
        · cases hstep
        · cases hstep
          exact hheld
    · cases hstep
  | retire =>
    simp only [step] at hstep
    split at hstep
    · next id todo htodo _ =>
      cases hstep
      simp only [KeepsGranted, htodo, List.head?_cons, Option.mem_some_iff, forall_eq']
      exact retire_iff h
    · cases hstep
  | queue queue =>
    cases hstep
    exact iff_of_true hheld trivial

end LeaseState

/-! ## The storage drives the table -/

namespace MemoryStorage

theorem applyRecord_leases (env : LeaseEnv) (r : Nat) (m : MemoryStorage) (x : LogRecord) :
    (m.applyRecord env r x).leaseManager =
      x.events.foldl (onLogEvent env) m.leaseManager := by
  unfold applyRecord
  induction x.events generalizing m with
  | nil => rfl
  | cons e events ih =>
    rw [List.foldl_cons, List.foldl_cons, ih]
    rfl

/-- `ReplayLog` gives the lease manager the events of all records, in log order. -/
theorem replayLog_leases (env : LeaseEnv) (m : MemoryStorage) (records : List (Nat × LogRecord))
    (head : Nat) : (m.replayLog env records head).leaseManager =
      (eventsOf records).foldl (onLogEvent env) m.leaseManager := by
  show (records.foldl (fun m r => m.applyRecord env r.1 r.2) m).leaseManager = _
  unfold eventsOf
  induction records generalizing m with
  | nil => rfl
  | cons p records ih =>
    rw [List.foldl_cons, ih, applyRecord_leases, List.flatMap_cons, List.foldl_append]

end MemoryStorage

/-! ## Runs -/

/-- A granted lease lives until it is revoked or expires: all along a run of the lease manager every
granted lease is in the table, and puts with it are not refused, exactly if each step on the way keeps
the granted leases. -/
theorem granted_held_iff {st : LeaseState} {actions : List LeaseState.Action}
    (hrun : Transition.run LeaseState.step LeaseState.start actions = some st) :
    Transition.Always LeaseState.step LeaseState.GrantedHeld LeaseState.start actions ↔
      Transition.Each LeaseState.step LeaseState.KeepsGranted LeaseState.start actions := by
  refine always_iff_each (I := fun _ => True) (fun _ _ _ _ _ => trivial)
    (fun s a s' _ hs hstep => LeaseState.step_grantedHeld_iff hs hstep) hrun trivial ?_
  rintro id ⟨-, hput⟩
  cases hput

/-- An environment to run examples in: whatever its value, a lease record decodes to a TTL of a minute. -/
def minuteLeases : LeaseEnv := ⟨0, fun _ => some 60⟩

/-- The event of a grant, its value left out. -/
def grantEvent (id : Int) : Event := { type := .put, kv := { key := leaseKey id } }

/-- Two keys on one lease, of which one leaves; then the lease is renewed, expires, and is granted
again. -/
def grantRenewExpire : List LeaseState.Action :=
  [.apply minuteLeases (grantEvent 7),
    .apply minuteLeases { type := .put, kv := { key := [1], lease := 7 } },
    .apply minuteLeases { type := .put, kv := { key := [2], lease := 7 } },
    .apply minuteLeases
      { type := .delete, kv := { key := [1] }, prevKv := some { key := [1], lease := 7 } },
    .keepAlive 5 7, .check (61 * 10 ^ 9) [7], .expire .failed, .check (66 * 10 ^ 9) [7],
    .apply minuteLeases { type := .delete, kv := { key := leaseKey 7 } }, .expire .deleted,
    .apply minuteLeases (grantEvent 7)]

theorem granted_held_grantRenewExpire : ∃ st,
    Transition.run LeaseState.step LeaseState.start grantRenewExpire = some st ∧
    Granted st.applied 7 ∧
    Transition.Always LeaseState.step LeaseState.GrantedHeld LeaseState.start grantRenewExpire := by
  obtain ⟨st, hst, hgranted⟩ : ∃ st,
      run LeaseState.step LeaseState.start grantRenewExpire = some st ∧
      Granted st.applied 7 := by decide +kernel
  exact ⟨st, hst, hgranted, (granted_held_iff hst).mpr (by decide +kernel)⟩

/-- `LeaseGrant` of lease 7, a put of a key with the lease and one without, and another with it. -/
def grantAndDetach : List System.Action :=
  System.callIn minuteLeases 0 { success := [.put { key := leaseKey 7 }] } ++
    System.callIn minuteLeases 1 { success := [.put { key := [1], lease := 7 }] } ++
    System.callIn minuteLeases 2 { success := [.put { key := [1] }] } ++
    [.request { success := [.put { key := [1], lease := 7 }] }, .readHead 3,
      .apply 3 minuteLeases fun _ => false, .evaluate 3]

/-- The lease was granted and never revoked.  When its only key leaves, it is gone from the table, and the
next put with it is refused. -/
theorem detach_drops_lease : ∃ sys st,
    System.runFresh minuteLeases ⟨0, 0⟩ grantAndDetach = some sys ∧
    Transition.run LeaseState.step LeaseState.start
      ((sys.store.history.flatMap fun p => p.2.events).map (.apply minuteLeases)) = some st ∧
    Granted st.applied 7 ∧ st.manager.hasLease 7 = false ∧
    sys.store.mem.leaseManager.hasLease 7 = false ∧
    sys.clients[3]?.bind Client.error = some .leaseNotFound :=
  by decide +kernel

end CloudEtcd
