/-
# CloudEtcd.Lease.Attachments — one key and one lease, out of the whole table.

Whether a key is attached to a lease depends on the events on that key and on the deletes of the lease's
record alone: `Listing` counts how often the key is on the list of the lease, and remembers whether a
retired lease waits with it in the delete queue.  An event that changes the lease of its key adds to one
count and takes from another; one that repeats the lease changes nothing.  The whole table, with its
placeholders and with the leases that leave it when their list is empty, is followed by these counts
exactly (`listing_onLogEvent`, `listing_foldl`).
-/
import CloudEtcd.Lease.Table

namespace CloudEtcd

open LeaseManager

/-- What the lease table has on one key and one lease. -/
structure Listing where
  /-- How often the key is on the list of the lease in the table. -/
  count : Nat
  /-- Whether it is on the list of the lease in the delete queue. -/
  queued : Bool
  deriving DecidableEq

variable {e : Event}

namespace Listing

/-- The key will be deleted with the lease. -/
def Attached (x : Listing) : Prop := 0 < x.count ∨ x.queued = true

instance (x : Listing) : Decidable x.Attached := inferInstanceAs (Decidable (_ ∨ _))

/-- What an event changes for a key and a lease. -/
def step (k : Bytes) (id : Int) (x : Listing) (e : Event) : Listing :=
  match parseLeaseKey e.kv.key with
  | some id' => if id' = id ∧ e.type = .delete then ⟨0, x.queued || 0 < x.count⟩ else x
  | none =>
    if e.kv.key ≠ k ∨ e.kv.lease = oldLease e then x
    else if e.kv.lease = id then { x with count := x.count + 1 }
    else if oldLease e = id then { x with count := x.count - 1 }
    else x

/-- What events make of nothing. -/
def ofEvents (k : Bytes) (id : Int) (events : List Event) : Listing :=
  events.foldl (step k id) ⟨0, false⟩

theorem ofEvents_append (k : Bytes) (id : Int) (events new : List Event) :
    ofEvents k id (events ++ new) = new.foldl (step k id) (ofEvents k id events) :=
  List.foldl_append

variable {k : Bytes} {id : Int} {x : Listing}

/-- An attached key stays attached while no event moves it to another lease. -/
theorem Attached.step (h : x.Attached) (hstay : e.kv.key = k → e.kv.lease = id ∨ oldLease e ≠ id) :
    (x.step k id e).Attached := by
  unfold Listing.step
  split
  · split
    · refine Or.inr ?_
      rcases h with hcount | hqueued
      · simp [hcount]
      · simp [hqueued]
    · exact h
  · split
    · exact h
    · next hmoves =>
      rw [not_or, not_ne_iff] at hmoves
      split
      · exact Or.inl (Nat.succ_pos _)
      · next hid =>
        rw [if_neg ((hstay hmoves.1).resolve_left hid)]
        exact h

theorem Attached.foldl (h : x.Attached) {events : List Event}
    (hstay : ∀ e ∈ events, e.kv.key = k → e.kv.lease = id ∨ oldLease e ≠ id) :
    (events.foldl (Listing.step k id) x).Attached := by
  induction events generalizing x with
  | nil => exact h
  | cons e events ih =>
    exact ih (h.step (hstay e List.mem_cons_self)) fun e' he' =>
      hstay e' (List.mem_cons_of_mem _ he')

/-- A key whose lease changes is attached to its new one. -/
theorem attached_step (hparse : parseLeaseKey e.kv.key = none) (hkey : e.kv.key = k)
    (hid : e.kv.lease = id) (hmoves : e.kv.lease ≠ oldLease e) : (x.step k id e).Attached := by
  have hno : ¬ (e.kv.key ≠ k ∨ e.kv.lease = oldLease e) :=
    fun h => h.elim (fun hne => hne hkey) hmoves
  unfold Listing.step
  rw [hparse]
  dsimp only
  rw [if_neg hno, if_pos hid]
  exact Or.inl (Nat.succ_pos _)

end Listing

namespace LeaseManager

/-- What the table has on a key and a lease. -/
def listing (m : LeaseManager) (k : Bytes) (id : Int) : Listing where
  count := ((m.leases.lookup id).elim [] Lease.keys).count k
  queued := m.deleteQueue.any fun lease => lease.id == id && lease.keys.contains k

/-- The key is in the key list of the table's entry for the lease, or of that lease in the delete
queue. -/
def Attached (m : LeaseManager) (k : Bytes) (id : Int) : Prop :=
  (∃ lease, m.leases.lookup id = some lease ∧ k ∈ lease.keys) ∨
    ∃ lease ∈ m.deleteQueue, lease.id = id ∧ k ∈ lease.keys

variable {m : LeaseManager} {env : LeaseEnv} {k : Bytes} {id : Int}

theorem attached_iff : m.Attached k id ↔ (m.listing k id).Attached := by
  refine or_congr ?_ (by simp [listing])
  cases hl : m.leases.lookup id with
  | none => simp [listing, hl]
  | some lease => simp [listing, hl, List.count_pos_iff]

/-- Every lease is filed under its own id. -/
def Filed (m : LeaseManager) : Prop := ∀ id lease, m.leases.lookup id = some lease → lease.id = id

theorem filed_new : Filed new := by
  intro id lease hl
  simp [new] at hl

variable {expiring : GoMap Int Bool} {leases : GoMap Int Lease}

theorem Filed.insert {queue : List Lease}
    (h : ∀ id lease, leases.lookup id = some lease → lease.id = id) {lease : Lease}
    (hid : lease.id = id) : Filed ⟨leases.insert id lease, expiring, queue⟩ := by
  intro id' lease' hl
  by_cases heq : id' = id
  · subst heq
    rw [AList.lookup_insert] at hl
    cases hl
    exact hid
  · rw [AList.lookup_insert_ne heq] at hl
    exact h id' lease' hl

theorem Filed.erase {queue : List Lease}
    (h : ∀ id lease, leases.lookup id = some lease → lease.id = id) (id : Int) :
    Filed ⟨leases.erase id, expiring, queue⟩ := by
  intro id' lease' hl
  by_cases heq : id' = id
  · subst heq
    rw [AList.lookup_erase] at hl
    cases hl
  · rw [AList.lookup_erase_ne heq] at hl
    exact h id' lease' hl

section

variable (h : m.Filed)
include h

/-- The lease that an operation fills in for a missing one has the right id. -/
theorem Filed.getD {lease : Lease} (hid : lease.id = id) :
    ((m.leases.lookup id).getD lease).id = id := by
  cases hl : m.leases.lookup id with
  | none => exact hid
  | some found => exact h id found hl

theorem Filed.attach (id : Int) (key : Bytes) : (m.attach env id key).Filed :=
  Filed.insert h (h.getD rfl)

theorem Filed.detach (id : Int) (key : Bytes) : (m.detach id key).Filed := by
  unfold LeaseManager.detach
  cases hl : m.leases.lookup id with
  | none => exact h
  | some lease =>
    dsimp only
    split
    · exact Filed.erase h id
    · exact Filed.insert h (h id lease hl)

theorem Filed.retire (id : Int) : (m.retire id).Filed := by
  unfold LeaseManager.retire
  split
  · exact h
  · exact Filed.erase h id

theorem Filed.onLogEvent (e : Event) : (m.onLogEvent env e).Filed := by
  unfold LeaseManager.onLogEvent
  split
  · next id _ =>
    cases htype : e.type with
    | delete =>
      rw [onLeaseRecord_delete htype]
      exact h.retire id
    | put =>
      unfold onLeaseRecord
      rw [htype]
      dsimp only
      split
      · exact h
      · exact Filed.insert h (h.getD rfl)
  · dsimp only
    have hattached : Filed (if e.kv.lease ≠ 0 ∧ e.kv.lease ≠ e.prevKv.elim 0 KeyValue.lease then
        m.attach env e.kv.lease e.kv.key else m) := by
      split
      · exact h.attach _ _
      · exact h
    split
    · exact hattached.detach _ _
    · exact hattached

/-! ## The operations on one key and one lease -/

theorem listing_retire (id' : Int) :
    (m.retire id').listing k id = if id' = id then
      ⟨0, (m.listing k id).queued || 0 < (m.listing k id).count⟩ else m.listing k id := by
  unfold retire
  cases hl : m.leases.lookup id' with
  | none =>
    dsimp only
    split
    · next heq =>
      subst heq
      simp [listing, hl]
    · rfl
  | some lease =>
    have hfiled := h id' lease hl
    by_cases heq : id' = id
    · subst heq
      rw [if_pos rfl]
      by_cases hkeys : lease.keys = []
      · simp [listing, hl, hkeys]
      · simp [listing, hl, hkeys, hfiled, List.count_pos_iff]
    · rw [if_neg heq]
      have hne : ¬ lease.id = id := fun hid => heq (hfiled.symm.trans hid)
      by_cases hkeys : lease.keys = []
      · simp [listing, hkeys, AList.lookup_erase_ne (Ne.symm heq)]
      · simp [listing, hkeys, AList.lookup_erase_ne (Ne.symm heq), hne]

end

theorem listing_onLeaseRecord_put (htype : e.type = .put) (id' : Int) :
    (m.onLeaseRecord env id' e).listing k id = m.listing k id := by
  unfold onLeaseRecord
  rw [htype]
  dsimp only
  split
  · rfl
  · by_cases heq : id = id'
    · subst heq
      cases hl : m.leases.lookup id <;> simp [listing, hl]
    · simp [listing, AList.lookup_insert_ne heq]

theorem listing_attach (id' : Int) (key : Bytes) :
    (m.attach env id' key).listing k id =
      if id' = id ∧ key = k then
        { m.listing k id with count := (m.listing k id).count + 1 } else m.listing k id := by
  unfold attach
  by_cases heq : id' = id
  · subst heq
    by_cases hkey : key = k
    · subst hkey
      cases hl : m.leases.lookup id' <;> simp [listing, hl]
    · cases hl : m.leases.lookup id' <;> simp [listing, hl, hkey, List.count_append]
  · simp [listing, heq, AList.lookup_insert_ne (Ne.symm heq)]

theorem listing_detach (id' : Int) (key : Bytes) :
    (m.detach id' key).listing k id =
      if id' = id ∧ key = k then
        { m.listing k id with count := (m.listing k id).count - 1 } else m.listing k id := by
  unfold detach
  cases hl : m.leases.lookup id' with
  | none =>
    dsimp only
    split
    · next heq =>
      obtain ⟨rfl, rfl⟩ := heq
      simp [listing, hl]
    · rfl
  | some lease =>
    dsimp only
    by_cases heq : id' = id
    · subst heq
      -- A lease that leaves the table had no other key on its list.
      have hcount : ∀ keys, lease.keys.erase key = keys → keys.count k =
          if key = k then lease.keys.count k - 1 else lease.keys.count k := by
        rintro keys rfl
        by_cases hkey : key = k
        · subst hkey
          rw [if_pos rfl, List.count_erase_self]
        · rw [if_neg hkey, List.count_erase_of_ne (Ne.symm hkey)]
      have hthis := hcount _ rfl
      split
      · next hnil =>
        rw [hnil, List.count_nil] at hthis
        by_cases hkey : key = k
        · subst hkey
          rw [if_pos rfl] at hthis
          simp [listing, hl, ← hthis]
        · rw [if_neg hkey] at hthis
          simp [listing, hl, hkey, ← hthis]
      · by_cases hkey : key = k
        · subst hkey
          simp [listing, hl]
        · rw [if_neg hkey] at hthis
          simp [listing, hl, hkey, hthis]
    · have hne := Ne.symm heq
      split <;> simp [listing, heq, AList.lookup_erase_ne hne, AList.lookup_insert_ne hne]

/-- The attach half of an event. -/
theorem listing_attached (hid : id ≠ 0) (e : Event) :
    (if Attaches e then m.attach env e.kv.lease e.kv.key else m).listing k id =
      if e.kv.key = k ∧ e.kv.lease = id ∧ e.kv.lease ≠ oldLease e then
        { m.listing k id with count := (m.listing k id).count + 1 } else m.listing k id := by
  by_cases ha : Attaches e
  · have hne : e.kv.lease ≠ oldLease e := ha.2
    rw [if_pos ha, listing_attach]
    simp only [hne, ne_eq, not_false_eq_true, and_true, and_comm (b := e.kv.key = k)]
  · rw [if_neg ha, if_neg]
    rintro ⟨-, rfl, hne⟩
    exact ha ⟨hid, hne⟩

/-- An event changes what the table has on a key and a lease as `Listing.step` says. -/
theorem listing_onLogEvent (h : m.Filed) (hid : id ≠ 0) (e : Event) :
    (m.onLogEvent env e).listing k id = (m.listing k id).step k id e := by
  unfold onLogEvent Listing.step
  cases hparse : parseLeaseKey e.kv.key with
  | some id' =>
    dsimp only
    cases htype : e.type with
    | put => simp [listing_onLeaseRecord_put htype]
    | delete => simp [onLeaseRecord_delete htype, listing_retire h]
  | none =>
    show (if e.kv.lease ≠ oldLease e ∧ oldLease e ≠ 0 then
        detach (if Attaches e then m.attach env e.kv.lease e.kv.key else m) (oldLease e) e.kv.key
      else if Attaches e then m.attach env e.kv.lease e.kv.key else m).listing k id = _
    have hattached : (if Attaches e then m.attach env e.kv.lease e.kv.key else m).listing k id =
        _ := listing_attached hid e
    generalize (if Attaches e then m.attach env e.kv.lease e.kv.key else m) = m' at hattached ⊢
    by_cases hkey : e.kv.key = k
    · by_cases hsame : e.kv.lease = oldLease e
      · simp [hsame, hattached]
      · by_cases hold : oldLease e = id
        · subst hold
          simp [hsame, hkey, hid, listing_detach, hattached]
        · split <;> simp [hsame, hkey, hold, listing_detach, hattached]
    · split <;> simp [hkey, listing_detach, hattached]

/-- A run of events. -/
theorem listing_foldl (h : m.Filed) (hid : id ≠ 0) (events : List Event) :
    (events.foldl (onLogEvent env) m).listing k id =
      events.foldl (Listing.step k id) (m.listing k id) := by
  induction events generalizing m with
  | nil => rfl
  | cons e events ih =>
    rw [List.foldl_cons, ih (h.onLogEvent e), listing_onLogEvent h hid, List.foldl_cons]

/-- From an empty table. -/
theorem attached_foldl_new (hid : id ≠ 0) (events : List Event) :
    (events.foldl (onLogEvent env) new).Attached k id ↔
      (Listing.ofEvents k id events).Attached := by
  rw [attached_iff, listing_foldl filed_new hid]
  rfl

end LeaseManager

end CloudEtcd
