/-
# CloudEtcd.Lease.Expiry — the marks of the leases whose expiry is under way.

`checkExpiredOnce` marks the expired leases, deletes the record of one after another, and handles the result
of each delete.  `Expiry` is the lease manager with the delete as a step of its own: its event reaches
`OnLogEvent` like any other, and the mark goes with the lease.  If an event on a key has taken the lease out
of the table in the meantime, nothing removes the mark.  The marks end with their expiry exactly if this does
not happen (`marks_end_iff`).
-/
import CloudEtcd.Lease.Lifetime

namespace CloudEtcd

open LeaseManager

/-! ## Marks -/

namespace LeaseManager

variable {m : LeaseManager} {env : LeaseEnv} {id x : Int}

/-- `expiring[id]`. -/
def Marked (m : LeaseManager) (id : Int) : Prop := m.expiring.getD id false = true

instance (m : LeaseManager) (id : Int) : Decidable (m.Marked id) := inferInstanceAs (Decidable (_ = _))

theorem marked_erase {leases : GoMap Int Lease} {expiring : GoMap Int Bool} {queue : List Lease} :
    Marked ⟨leases, expiring.erase id, queue⟩ x ↔ x ≠ id ∧ expiring.getD x false = true := by
  by_cases hx : x = id
  · subst hx
    simp [Marked, GoMap.getD]
  · simp [Marked, GoMap.getD, hx, AList.lookup_erase_ne hx]

/-- A lease that is retired loses its mark, if it is in the table. -/
theorem marked_retire : (m.retire id).Marked x ↔ m.Marked x ∧ (x = id → m.hasLease id = false) := by
  unfold retire
  cases hl : m.leases.lookup id with
  | none => simp [hasLease, hl]
  | some lease =>
    have hheld : m.hasLease id = true := by simp [hasLease, hl]
    rw [marked_erase, hheld, and_comm]
    simp [Marked]

theorem marked_markExpiring {ids : List Int} :
    (m.markExpiring ids).Marked x ↔ x ∈ ids ∨ m.Marked x := by
  unfold markExpiring Marked GoMap.getD
  rw [GoMap.lookup_setAll]
  by_cases hx : x ∈ ids <;> simp [hx]

theorem marked_unmarkExpiring : (m.unmarkExpiring id).Marked x ↔ x ≠ id ∧ m.Marked x := marked_erase

/-- No event marks a lease. -/
theorem marked_of_onLogEvent {e : Event} (h : (m.onLogEvent env e).Marked x) : m.Marked x := by
  have hattach : ∀ (m : LeaseManager) id key, (m.attach env id key).expiring = m.expiring :=
    fun _ _ _ => rfl
  have hdetach : ∀ (m : LeaseManager) id key, (m.detach id key).expiring = m.expiring := by
    intro m id key
    unfold detach
    cases m.leases.lookup id with
    | none => rfl
    | some lease => dsimp only; split <;> rfl
  unfold onLogEvent at h
  cases hparse : parseLeaseKey e.kv.key with
  | none =>
    rw [hparse] at h
    unfold Marked at h ⊢
    dsimp only at h
    split at h <;> split at h <;> simpa only [hattach, hdetach] using h
  | some id =>
    rw [hparse] at h
    dsimp only at h
    cases htype : e.type with
    | delete =>
      rw [onLeaseRecord_delete htype] at h
      exact (marked_retire.mp h).1
    | put =>
      unfold onLeaseRecord at h
      rw [htype] at h
      dsimp only at h
      split at h <;> exact h

/-- A keepalive succeeds for a lease in the table, and moves its expiration. -/
theorem leaseKeepAlive_eq_some {m' : LeaseManager} {now ttl : Int} :
    m.leaseKeepAlive now id = some (m', ttl) ↔ ∃ lease, m.leases.lookup id = some lease ∧
      (id ≠ 0 ∧ lease.ttl = ttl) ∧ m' = ⟨m.leases.insert id
        { lease with expiration := now + durationOfSeconds lease.ttl }, m.expiring, m.deleteQueue⟩ := by
  unfold leaseKeepAlive
  by_cases hid : id = 0
  · simp [hid]
  · simp only [hid, if_false, Option.map_eq_some_iff, Prod.mk.injEq, ne_eq, not_false_eq_true, true_and]
    refine exists_congr fun lease => and_congr_right fun _ => ?_
    rw [and_comm]
    exact and_congr_right fun _ => eq_comm

/-- An expired lease is found unless it is marked. -/
theorem mem_expired {now : Int} : id ∈ m.expired now ↔
    ∃ lease, m.leases.lookup id = some lease ∧ lease.expiration < now ∧ ¬ m.Marked id := by
  unfold expired
  simp only [List.mem_map, List.mem_filter, Bool.and_eq_true, decide_eq_true_eq, Bool.not_eq_true',
    Marked, Bool.not_eq_true]
  constructor
  · rintro ⟨⟨_, lease⟩, ⟨hmem, hlt, hmark⟩, rfl⟩
    exact ⟨lease, AList.mem_lookup_iff.mpr hmem, hlt, hmark⟩
  · rintro ⟨lease, hlookup, hlt, hmark⟩
    exact ⟨⟨id, lease⟩, ⟨AList.mem_lookup_iff.mp hlookup, hlt, hmark⟩, rfl⟩

theorem nodup_expired (m : LeaseManager) (now : Int) : (m.expired now).Nodup :=
  m.leases.nodupKeys.sublist List.filter_sublist

end LeaseManager

/-! ## The loop -/

/-- The lease manager, and whether the delete of the first expired lease's record has been applied. -/
structure Expiry where
  state : LeaseState
  deleted : Bool

namespace Expiry

/-- What happens: the expiry loop's delete is applied, or something else.  The events of `LeaseGrant` and
`LeaseRevoke` are applied like those of any other call. -/
inductive Action where
  | delete (env : LeaseEnv) (event : Event)
  | other (a : LeaseState.Action)

/-- One step.  `storage.Delete` finds the record if the log has it, and returns when its event has been
applied. -/
def step (s : Expiry) : Action → Option Expiry
  | .delete env event =>
    match s.state.todo with
    | [] => none
    | id :: _ =>
      if s.deleted = false ∧ s.state.missing = false ∧ Granted s.state.applied id ∧
          event.type = .delete ∧ event.kv.key = leaseKey id then
        (s.state.step (.apply env event)).map fun st => ⟨st, true⟩
      else none
  | .other (.expire .deleted) =>
    if s.deleted then (s.state.step (.expire .deleted)).map fun st => ⟨st, false⟩ else none
  | .other (.expire outcome) =>
    if s.deleted then none else (s.state.step (.expire outcome)).map fun st => ⟨st, false⟩
  | .other a => (s.state.step a).map fun st => ⟨st, s.deleted⟩

/-- A new lease manager. -/
def start : Expiry := ⟨LeaseState.start, false⟩

/-- The leases whose expiry delete is in progress. -/
def inProgress (s : Expiry) : List Int := if s.deleted then s.state.todo.tail else s.state.todo

/-- A marked lease is in the table or its delete is in progress; once the delete has completed the mark is
gone; so between two rounds every lease can expire. -/
structure MarksEnd (s : Expiry) : Prop where
  held : ∀ id, s.state.manager.Marked id → s.state.manager.hasLease id = true ∨ id ∈ s.inProgress
  gone : ∀ id, id ∉ s.inProgress → ¬ s.state.manager.Marked id
  again : s.state.todo = [] → ∀ now id lease, s.state.manager.leases.lookup id = some lease →
    lease.expiration < now → id ∈ s.state.manager.expired now

theorem marksEnd_iff {s : Expiry} :
    s.MarksEnd ↔ ∀ id, s.state.manager.Marked id → id ∈ s.inProgress := by
  constructor
  · exact fun h id hmark => by_contra fun hnot => h.gone id hnot hmark
  · intro h
    refine ⟨fun id hmark => Or.inr (h id hmark), fun id hnot hmark => hnot (h id hmark), ?_⟩
    intro htodo now id lease hlease hlt
    refine mem_expired.mpr ⟨lease, hlease, hlt, fun hmark => ?_⟩
    have := h id hmark
    simp [inProgress, htodo] at this

/-- The lease that the step retires is still in the table, if it is marked. -/
def RetiresHeld (s : Expiry) : Action → Prop
  | .delete _ _ | .other .retire => ∀ id ∈ s.state.todo.head?, s.state.manager.Marked id →
      s.state.manager.hasLease id = true
  | _ => True

instance (s : Expiry) : ∀ a, Decidable (s.RetiresHeld a)
  | .delete _ _ | .other .retire =>
    inferInstanceAs (Decidable (∀ id ∈ s.state.todo.head?, s.state.manager.Marked id →
      s.state.manager.hasLease id = true))
  | .other (.apply _ _) | .other (.keepAlive _ _) | .other (.check _ _) | .other (.expire _)
  | .other (.queue _) => isTrue trivial

/-- What holds of the loop in any case. -/
structure Inv (s : Expiry) : Prop where
  nodup : s.state.todo.Nodup
  busy : s.deleted = true → s.state.todo ≠ [] ∧ s.state.missing = false

variable {s s' : Expiry}

/-- Retiring the first lease of the round: the others are left, and its mark is gone unless it stood for a
lease that is not in the table. -/
theorem retire_iff {m : LeaseManager} {id : Int} {todo : List Int} (hnodup : (id :: todo).Nodup)
    (hmarks : ∀ x, m.Marked x → x ∈ id :: todo) :
    (∀ x, (m.retire id).Marked x → x ∈ todo) ↔ (m.Marked id → m.hasLease id = true) := by
  simp only [marked_retire]
  constructor
  · intro hall hmark
    by_contra hnot
    have hin := hall id ⟨hmark, fun _ => Bool.eq_false_iff.mpr hnot⟩
    exact (List.nodup_cons.mp hnodup).1 hin
  · rintro hheld x ⟨hmark, hgone⟩
    rcases List.mem_cons.mp (hmarks x hmark) with rfl | hin
    · rw [hgone rfl] at hheld
      cases hheld hmark
    · exact hin

/-- The delete is applied. -/
theorem delete_eq_some {env : LeaseEnv} {event : Event} (hstep : s.step (.delete env event) = some s') :
    ∃ id todo, s.state.todo = id :: todo ∧ s.deleted = false ∧ s.state.missing = false ∧
      s' = ⟨{ s.state with
        manager := s.state.manager.retire id
        applied := s.state.applied ++ [event] }, true⟩ := by
  unfold step at hstep
  cases htodo : s.state.todo with
  | nil =>
    rw [htodo] at hstep
    cases hstep
  | cons id todo =>
    rw [htodo] at hstep
    dsimp only at hstep
    split at hstep
    · next hcond =>
      obtain ⟨hdeleted, hmissing, hgranted, htype, hkey⟩ := hcond
      have hevent : s.state.manager.onLogEvent env event = s.state.manager.retire id := by
        rw [onLogEvent, hkey, hgranted.parse]
        exact onLeaseRecord_delete htype
      cases hstep
      refine ⟨id, todo, rfl, hdeleted, hmissing, ?_⟩
      rw [hevent]
    · cases hstep

/-- The result of the delete is handled. -/
theorem expire_eq_some {outcome : LeaseState.Outcome}
    (hstep : s.step (.other (.expire outcome)) = some s') : ∃ id todo, s.state.todo = id :: todo ∧
      (s.deleted = false ∧ s' = ⟨{ s.state with
          manager := s.state.manager.unmarkExpiring id
          todo := todo }, false⟩ ∨
        s.deleted = true ∧ s' = ⟨{ s.state with todo := todo }, false⟩ ∨
        s.deleted = false ∧ s' = ⟨{ s.state with missing := true }, false⟩) := by
  obtain ⟨⟨m, applied, todo, missing⟩, deleted⟩ := s
  cases todo with
  | nil => cases outcome <;> cases deleted <;> cases hstep
  | cons id todo =>
    refine ⟨id, todo, rfl, ?_⟩
    cases missing with
    | true => cases outcome <;> cases deleted <;> cases hstep
    | false =>
      cases outcome with
      | failed =>
        cases deleted <;> cases hstep
        exact Or.inl ⟨rfl, rfl⟩
      | deleted =>
        cases deleted <;> cases hstep
        exact Or.inr (Or.inl ⟨rfl, rfl⟩)
      | missing =>
        cases deleted with
        | true => cases hstep
        | false =>
          simp only [step, LeaseState.step, Bool.false_eq_true, if_false] at hstep
          split at hstep
          · cases hstep
          · cases hstep
            exact Or.inr (Or.inr ⟨rfl, rfl⟩)

/-- The loop retires a lease that has no record. -/
theorem retire_eq_some (hstep : s.step (.other .retire) = some s') :
    ∃ id todo, s.state.todo = id :: todo ∧ s.state.missing = true ∧
      s' = ⟨{ s.state with
        manager := s.state.manager.retire id
        todo := todo
        missing := false }, s.deleted⟩ := by
  obtain ⟨⟨m, applied, todo, missing⟩, deleted⟩ := s
  cases todo with
  | nil => cases hstep
  | cons id todo =>
    cases missing <;> cases hstep
    exact ⟨id, todo, rfl, rfl, rfl⟩

/-- A round begins. -/
theorem check_eq_some {now : Int} {order : List Int}
    (hstep : s.step (.other (.check now order)) = some s') :
    s.state.todo = [] ∧ order.Perm (s.state.manager.expired now) ∧
      s' = ⟨{ s.state with
        manager := s.state.manager.markExpiring order
        todo := order }, s.deleted⟩ := by
  obtain ⟨st, hst, rfl⟩ := Option.map_eq_some_iff.mp hstep
  simp only [LeaseState.step] at hst
  split at hst
  · next hcond =>
    cases hst
    exact ⟨hcond.1, hcond.2, rfl⟩
  · cases hst

theorem Inv.idle (h : s.Inv) (hdone : s.state.todo = [] ∨ s.state.missing = true) :
    s.deleted = false := by
  by_contra hbusy
  obtain ⟨htodo, hmissing⟩ := h.busy (by simpa using hbusy)
  rcases hdone with hdone | hdone
  · exact htodo hdone
  · rw [hmissing] at hdone
    cases hdone

/-- The loop stays in order. -/
theorem Inv.step (h : s.Inv) {a : Action} (hstep : s.step a = some s') : s'.Inv := by
  cases a with
  | delete env event =>
    obtain ⟨id, todo, htodo, -, hmissing, rfl⟩ := delete_eq_some hstep
    exact ⟨h.nodup, fun _ => ⟨by simp [htodo], hmissing⟩⟩
  | other a =>
    cases a with
    | apply env event =>
      cases hstep
      exact ⟨h.nodup, h.busy⟩
    | keepAlive now id =>
      obtain ⟨st, hst, rfl⟩ := Option.map_eq_some_iff.mp hstep
      obtain ⟨r, -, rfl⟩ := Option.map_eq_some_iff.mp hst
      exact ⟨h.nodup, h.busy⟩
    | check now order =>
      obtain ⟨htodo, hperm, rfl⟩ := check_eq_some hstep
      have hidle := h.idle (Or.inl htodo)
      exact ⟨hperm.nodup_iff.mpr (nodup_expired _ _), by simp [hidle]⟩
    | expire outcome =>
      obtain ⟨id, todo, htodo, hcases⟩ := expire_eq_some hstep
      have hnodup := h.nodup
      rw [htodo] at hnodup
      have htail := (List.nodup_cons.mp hnodup).2
      rcases hcases with ⟨-, rfl⟩ | ⟨-, rfl⟩ | ⟨-, rfl⟩
      · exact ⟨htail, nofun⟩
      · exact ⟨htail, nofun⟩
      · exact ⟨h.nodup, nofun⟩
    | retire =>
      obtain ⟨id, todo, htodo, hmissing, rfl⟩ := retire_eq_some hstep
      have hnodup := h.nodup
      rw [htodo] at hnodup
      exact ⟨(List.nodup_cons.mp hnodup).2, by simp [h.idle (Or.inr hmissing)]⟩
    | queue queue =>
      cases hstep
      exact ⟨h.nodup, h.busy⟩

/-- A step leaves the marks to the leases in progress exactly if it retires no marked lease that is not in
the table. -/
theorem step_iff (h : s.Inv) {a : Action} (hstep : s.step a = some s')
    (hmarks : ∀ id, s.state.manager.Marked id → id ∈ s.inProgress) :
    (∀ id, s'.state.manager.Marked id → id ∈ s'.inProgress) ↔ s.RetiresHeld a := by
  cases a with
  | delete env event =>
    obtain ⟨id, todo, htodo, hdeleted, -, rfl⟩ := delete_eq_some hstep
    simp only [inProgress, hdeleted, Bool.false_eq_true, if_false, htodo] at hmarks
    simp only [inProgress, RetiresHeld, if_true, htodo, List.tail_cons, List.head?_cons,
      Option.mem_some_iff, forall_eq']
    exact retire_iff (htodo ▸ h.nodup) hmarks
  | other a =>
    cases a with
    | apply env event =>
      cases hstep
      exact iff_of_true (fun x hx => hmarks x (marked_of_onLogEvent hx)) trivial
    | keepAlive now id =>
      obtain ⟨st, hst, rfl⟩ := Option.map_eq_some_iff.mp hstep
      obtain ⟨⟨m, ttl⟩, hrenew, rfl⟩ := Option.map_eq_some_iff.mp hst
      obtain ⟨lease, -, -, rfl⟩ := leaseKeepAlive_eq_some.mp hrenew
      exact iff_of_true hmarks trivial
    | check now order =>
      obtain ⟨htodo, -, rfl⟩ := check_eq_some hstep
      have hidle := h.idle (Or.inl htodo)
      refine iff_of_true (fun x hx => ?_) trivial
      rcases marked_markExpiring.mp hx with hin | hmark
      · simpa [inProgress, hidle] using hin
      · have := hmarks x hmark
        simp [inProgress, hidle, htodo] at this
    | expire outcome =>
      obtain ⟨id, todo, htodo, hcases⟩ := expire_eq_some hstep
      refine iff_of_true (fun x hx => ?_) trivial
      rcases hcases with ⟨hdeleted, rfl⟩ | ⟨hdeleted, rfl⟩ | ⟨hdeleted, rfl⟩
      · obtain ⟨hne, hmark⟩ := marked_unmarkExpiring.mp hx
        have hin := hmarks x hmark
        simp only [inProgress, hdeleted, Bool.false_eq_true, if_false, htodo] at hin
        exact (List.mem_cons.mp hin).resolve_left hne
      · have hin := hmarks x hx
        simpa [inProgress, hdeleted, htodo] using hin
      · have hin := hmarks x hx
        simpa only [inProgress, hdeleted] using hin
    | retire =>
      obtain ⟨id, todo, htodo, hmissing, rfl⟩ := retire_eq_some hstep
      have hidle := h.idle (Or.inr hmissing)
      simp only [inProgress, hidle, Bool.false_eq_true, if_false, htodo] at hmarks
      simp only [inProgress, hidle, RetiresHeld, Bool.false_eq_true, if_false, htodo, List.head?_cons,
        Option.mem_some_iff, forall_eq']
      exact retire_iff (htodo ▸ h.nodup) hmarks
    | queue queue =>
      cases hstep
      exact iff_of_true hmarks trivial

open Transition in
/-- All along a run the marks end with their expiry exactly if every marked lease is still in the table when
its delete is applied, and when the loop retires it for want of a record. -/
theorem marks_end_iff {actions : List Action} (hrun : run step start actions = some s) :
    Always step MarksEnd start actions ↔ Each step RetiresHeld start actions := by
  refine always_iff_each (I := Inv) (fun s a s' h hstep => h.step hstep) ?_ hrun
    ⟨List.nodup_nil, nofun⟩ ?_
  · intro s a s' h hs hstep
    rw [marksEnd_iff]
    exact step_iff h hstep (marksEnd_iff.mp hs)
  · exact marksEnd_iff.mpr nofun

/-- A lease expires, is granted again, and expires again. -/
def expireTwice : List Action :=
  let delete : Event := { type := .delete, kv := { key := leaseKey 7 } }
  [.other (.apply minuteLeases (grantEvent 7)), .other (.check (61 * 10 ^ 9) [7]), .delete minuteLeases delete,
    .other (.expire .deleted), .other (.apply minuteLeases (grantEvent 7)),
    .other (.check (61 * 10 ^ 9) [7]), .delete minuteLeases delete, .other (.expire .deleted)]

theorem marks_end_expireTwice : ∃ s, Transition.run step start expireTwice = some s ∧
    Transition.Always step MarksEnd start expireTwice := by
  obtain ⟨s, hs⟩ : ∃ s, Transition.run step start expireTwice = some s :=
    Option.isSome_iff_exists.mp (by decide +kernel)
  exact ⟨s, hs, (marks_end_iff hs).mpr (by decide +kernel)⟩

/-- The only key of an expired lease loses its lease before the delete of the lease record is applied. -/
def detachExpiring : List Action :=
  [.other (.apply minuteLeases (grantEvent 7)),
    .other (.apply minuteLeases { type := .put, kv := { key := [1], lease := 7 } }),
    .other (.check (61 * 10 ^ 9) [7]),
    .other (.apply minuteLeases
      { type := .put, kv := { key := [1] }, prevKv := some { key := [1], lease := 7 } }),
    .delete minuteLeases { type := .delete, kv := { key := leaseKey 7 } }, .other (.expire .deleted),
    .other (.apply minuteLeases (grantEvent 7))]

/-- The mark stays, and the lease that is granted next under the id never expires. -/
theorem mark_outlives_expiry : ∃ s, Transition.run step start detachExpiring = some s ∧ ¬ s.MarksEnd ∧
    s.state.todo = [] ∧ s.state.manager.hasLease 7 = true ∧ ∀ now, 7 ∉ s.state.manager.expired now := by
  obtain ⟨s, hs, hmark, htodo, hheld⟩ : ∃ s, Transition.run step start detachExpiring = some s ∧
      s.state.manager.Marked 7 ∧ s.state.todo = [] ∧ s.state.manager.hasLease 7 = true :=
    by decide +kernel
  refine ⟨s, hs, fun h => ?_, htodo, hheld, fun now hin => ?_⟩
  · have := marksEnd_iff.mp h 7 hmark
    simp [inProgress, htodo] at this
  · obtain ⟨-, -, -, hnot⟩ := mem_expired.mp hin
    exact hnot hmark

end Expiry

end CloudEtcd
