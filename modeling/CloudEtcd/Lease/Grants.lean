/-
# CloudEtcd.Lease.Grants — concurrent grants and revokes of one lease.

`LeaseGrant` asks the table for the lease and then puts its record; `LeaseRevoke` asks the table and then
deletes the record.  Other calls run in between, and the put does not look whether the record is there.  The
lease is granted once, until it is deleted, exactly if the table still lacks the lease when the put of a grant
is applied (`granted_once_iff`).
-/
import CloudEtcd.Lease.Lifetime

namespace CloudEtcd

open LeaseManager

/-- `json.Marshal` and `json.Unmarshal` for the value of a lease record. -/
structure LeaseJson where
  marshal : Int → Bytes
  unmarshal : Bytes → Option Int
  unmarshal_marshal : ∀ ttl, IsInt64 ttl → unmarshal (marshal ttl) = some ttl

/-- What a call returns. -/
inductive LeaseAnswer where
  | granted (ttl : Int)
  | leaseExist
  | revoked
  | leaseNotFound
  deriving DecidableEq

/-- The table, the events on the key of the lease in log order, the TTLs of the grants that found no lease,
the number of revokes that found one, and the answers so far. -/
structure GrantState where
  manager : LeaseManager
  committed : List Event
  granting : List Int
  revoking : Nat
  answers : List LeaseAnswer

namespace GrantState

/-- The steps of the calls: each looks at the table and then, at some time, has its put or delete committed
and applied. -/
inductive Action where
  | grant (ttl : Int)
  | put (i : Nat) (now : Int)
  | revoke
  | delete (now : Int)

/-- The log has the record of the lease. -/
def hasRecord (s : GrantState) : Bool := s.committed.getLast?.any fun e => e.type == .put

/-- The event that a grant commits. -/
def putEvent (json : LeaseJson) (id ttl : Int) : Event :=
  { type := .put, kv := { key := leaseKey id, value := json.marshal ttl } }

/-- The event that a revoke commits. -/
def deleteEvent (id : Int) : Event := { type := .delete, kv := { key := leaseKey id } }

/-- One step of a call for the lease. -/
def step (json : LeaseJson) (id : Int) (s : GrantState) : Action → Option GrantState
  | .grant ttl =>
    if ¬ IsInt64 ttl then none
    else if s.manager.hasLease id then some { s with answers := s.answers ++ [.leaseExist] }
    else some { s with granting := s.granting ++ [ttl] }
  | .put i now => s.granting[i]?.map fun ttl =>
    { s with
      manager := s.manager.onLogEvent ⟨now, json.unmarshal⟩ (putEvent json id ttl)
      committed := s.committed ++ [putEvent json id ttl]
      granting := s.granting.eraseIdx i
      answers := s.answers ++ [.granted ttl] }
  | .revoke =>
    if s.manager.hasLease id then some { s with revoking := s.revoking + 1 }
    else some { s with answers := s.answers ++ [.leaseNotFound] }
  | .delete now =>
    match s.revoking with
    | 0 => none
    | n + 1 =>
      let done := { s with revoking := n, answers := s.answers ++ [.revoked] }
      if s.hasRecord then
        some { done with
          manager := s.manager.onLogEvent ⟨now, json.unmarshal⟩ (deleteEvent id)
          committed := s.committed ++ [deleteEvent id] }
      else some done

/-- A new lease manager. -/
def start : GrantState := ⟨new, [], [], 0, []⟩

/-- Between two grants there is a delete. -/
def GrantedOnce (s : GrantState) : Prop :=
  s.committed.IsChain fun e e' => e.type = .put → e'.type = .delete

instance (s : GrantState) : Decidable s.GrantedOnce :=
  inferInstanceAs (Decidable (s.committed.IsChain _))

/-- A grant is committed only while the table lacks the lease, as when it looked. -/
def PutsAbsent (id : Int) (s : GrantState) : Action → Prop
  | .put _ _ => s.manager.hasLease id = false
  | _ => True

instance (id : Int) (s : GrantState) (a : Action) : Decidable (s.PutsAbsent id a) := by
  unfold PutsAbsent
  split <;> infer_instance

/-- The table has the lease if the log has its record, and TTLs are of their type. -/
structure Inv (id : Int) (s : GrantState) : Prop where
  held : s.manager.hasLease id = s.hasRecord
  typed : ∀ ttl ∈ s.granting, IsInt64 ttl

variable {json : LeaseJson} {id : Int} {s s' : GrantState} {a : Action}

/-- A committed grant is in the table. -/
theorem hasLease_put (hid : IsInt64 id) {m : LeaseManager} {now ttl : Int} (httl : IsInt64 ttl) :
    (m.onLogEvent ⟨now, json.unmarshal⟩ (putEvent json id ttl)).hasLease id = true := by
  have hparse : parseLeaseKey (putEvent json id ttl).kv.key = some id := parseLeaseKey_leaseKey hid
  rw [onLogEvent, hparse]
  refine (hasLease_onLeaseRecord_put rfl).mpr (Or.inl ⟨rfl, ?_⟩)
  show (json.unmarshal (json.marshal ttl)).isSome = true
  rw [json.unmarshal_marshal ttl httl]
  rfl

/-- A deleted lease is not. -/
theorem hasLease_delete (hid : IsInt64 id) {m : LeaseManager} {env : LeaseEnv} :
    (m.onLogEvent env (deleteEvent id)).hasLease id = false := by
  have hparse : parseLeaseKey (deleteEvent id).kv.key = some id := parseLeaseKey_leaseKey hid
  rw [onLogEvent, hparse, Bool.eq_false_iff]
  dsimp only
  rw [onLeaseRecord_delete rfl]
  exact fun h => (hasLease_retire.mp h).1 rfl

/-- A step keeps the invariant; it keeps the grants apart exactly if it meets the condition. -/
theorem Inv.step (hid : IsInt64 id) (h : s.Inv id) (hstep : s.step json id a = some s') : s'.Inv id ∧
    (s.GrantedOnce → (s'.GrantedOnce ↔ s.PutsAbsent id a)) := by
  cases a with
  | grant ttl =>
    simp only [GrantState.step] at hstep
    split at hstep
    · cases hstep
    · next htyped =>
      split at hstep
      · cases hstep
        exact ⟨⟨h.held, h.typed⟩, fun hs => iff_of_true hs trivial⟩
      · cases hstep
        refine ⟨⟨h.held, fun x hx => ?_⟩, fun hs => iff_of_true hs trivial⟩
        rcases List.mem_append.mp hx with hx | hx
        · exact h.typed x hx
        · exact List.mem_singleton.mp hx ▸ not_not.mp htyped
  | put i now =>
    obtain ⟨ttl, httl, rfl⟩ := Option.map_eq_some_iff.mp hstep
    have htyped := h.typed ttl (List.mem_of_getElem? httl)
    refine ⟨⟨?_, fun x hx => h.typed x (List.mem_of_mem_eraseIdx hx)⟩, fun hs => ?_⟩
    · rw [hasLease_put hid htyped]
      simp [hasRecord, putEvent]
    · -- The chain goes on if the last event is not a grant.
      unfold GrantedOnce PutsAbsent
      rw [h.held, hasRecord, List.isChain_append]
      constructor
      · rintro ⟨-, -, hlast⟩
        cases hend : s.committed.getLast? with
        | none => rfl
        | some e =>
          have hne : e.type ≠ .put := fun hput => by
            cases hlast e hend (putEvent json id ttl) rfl hput
          simpa using hne
      · intro hnot
        refine ⟨hs, List.isChain_singleton _, fun e hend e' _ hput => ?_⟩
        rw [Option.mem_def.mp hend] at hnot
        simp [hput] at hnot
  | revoke =>
    simp only [GrantState.step] at hstep
    split at hstep <;> cases hstep <;>
      exact ⟨⟨h.held, h.typed⟩, fun hs => iff_of_true hs trivial⟩
  | delete now =>
    unfold GrantState.step at hstep
    dsimp only at hstep
    cases hrevoking : s.revoking with
    | zero =>
      rw [hrevoking] at hstep
      cases hstep
    | succ n =>
      rw [hrevoking] at hstep
      dsimp only at hstep
      split at hstep
      · obtain rfl := Option.some.inj hstep
        refine ⟨⟨?_, h.typed⟩, fun hs => iff_of_true ?_ trivial⟩
        · rw [hasLease_delete hid]
          simp [hasRecord, deleteEvent]
        · refine List.isChain_append.mpr ⟨hs, List.isChain_singleton _, fun e _ e' he' _ => ?_⟩
          cases he'
          rfl
      · obtain rfl := Option.some.inj hstep
        exact ⟨⟨h.held, h.typed⟩, fun hs => iff_of_true hs trivial⟩

open Transition in
/-- A lease id is granted once, between two deletes, in every state of a run exactly if no grant of the run
is committed when the table has got the lease since the call looked.  A grant that is refused leaves the
table as it is. -/
theorem granted_once_iff (json : LeaseJson) (hid : IsInt64 id) {actions : List Action}
    (hrun : run (step json id) start actions = some s) :
    (Always (step json id) GrantedOnce start actions ↔
      Each (step json id) (PutsAbsent id) start actions) ∧
    ∀ (t t' : GrantState) ttl, t.step json id (.grant ttl) = some t' → t'.manager = t.manager ∧
      (t'.answers = t.answers ++ [.leaseExist] ∨ t'.granting = t.granting ++ [ttl]) := by
  constructor
  · exact always_iff_each (I := Inv id) (fun s a s' h hstep => (h.step hid hstep).1)
      (fun s a s' h hs hstep => (h.step hid hstep).2 hs) hrun ⟨rfl, nofun⟩ List.isChain_nil
  · intro t t' ttl hstep
    simp only [step] at hstep
    split at hstep
    · cases hstep
    · split at hstep <;> cases hstep
      · exact ⟨rfl, Or.inl rfl⟩
      · exact ⟨rfl, Or.inr rfl⟩

/-- An encoding of TTLs to run examples with: the digits of a lease key, where the code writes JSON. -/
def hexJson : LeaseJson where
  marshal := leaseKey
  unmarshal := parseLeaseKey
  unmarshal_marshal _ := parseLeaseKey_leaseKey

/-- A grant, a second one that is refused, a revoke, and a third. -/
def grantInTurn : List Action :=
  [.grant 60, .put 0 0, .grant 5, .revoke, .delete 1, .grant 30, .put 0 2]

theorem granted_once_inTurn : ∃ s, Transition.run (step hexJson 7) start grantInTurn = some s ∧
    s.answers = [.granted 60, .leaseExist, .revoked, .granted 30] ∧
    Transition.Always (step hexJson 7) GrantedOnce start grantInTurn := by
  obtain ⟨s, hs, hanswers⟩ : ∃ s, Transition.run (step hexJson 7) start grantInTurn = some s ∧
      s.answers = [.granted 60, .leaseExist, .revoked, .granted 30] :=
    by decide +kernel
  exact ⟨s, hs, hanswers, (granted_once_iff hexJson (by decide) hs).1.mpr (by decide +kernel)⟩

/-- Two grants look at the table before either is committed. -/
def grantTogether : List Action := [.grant 60, .grant 5, .put 0 0, .put 0 1]

/-- Both succeed, and the lease that was granted for a minute has five seconds. -/
theorem granted_twice : ∃ s, Transition.run (step hexJson 7) start grantTogether = some s ∧
    ¬ s.GrantedOnce ∧ s.answers = [.granted 60, .granted 5] ∧
    (s.manager.leases.lookup 7).map Lease.ttl = some 5 :=
  by decide +kernel

end GrantState

end CloudEtcd
