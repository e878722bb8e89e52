/-
# CloudEtcd.Lease.Table — the keys of lease records, and what each operation does to the lease table.

A grant is a put of `leaseKey id`, and `parseLeaseKey` reads the id back (`parseLeaseKey_leaseKey`); other
keys can be read as the same id.  Each operation on the table is described by the leases that it leaves
in it: a valid lease record adds its lease, a retired one goes, and an event on any other key adds the
lease it attaches its key to and removes the lease whose last key it takes away (`hasLease_onLogEvent`).
-/
import CloudEtcd.Lease

namespace CloudEtcd

variable {id : Int}

/-! ## Keys of lease records -/

/-- A lower case hexadecimal digit. -/
def hexByte (d : Nat) : UInt8 := if d < 10 then UInt8.ofNat (0x30 + d) else UInt8.ofNat (0x57 + d)

/-- The last `width` hexadecimal digits of a number, with leading zeros. -/
def formatHex : Nat → Nat → Bytes
  | 0, _ => []
  | width + 1, n => formatHex width (n / 16) ++ [hexByte (n % 16)]

/-- `leaseKey`: the prefix and the id as a `uint64` with the format `%016x`. -/
def leaseKey (id : Int) : Bytes := leaseKeyPrefix ++ formatHex 16 (id % 2 ^ 64).toNat

/-- A value of the type `int64`. -/
def IsInt64 (n : Int) : Prop := -2 ^ 63 ≤ n ∧ n < 2 ^ 63

instance (n : Int) : Decidable (IsInt64 n) := inferInstanceAs (Decidable (_ ∧ _))

theorem hexDigit_hexByte {d : Nat} (hd : d < 16) : hexDigit (hexByte d) = some d := by
  have hall : ∀ d : Fin 16, hexDigit (hexByte d) = some d.val := by decide
  exact hall ⟨d, hd⟩

/-- Reading the digits back gives the number, up to the digits that were cut off. -/
theorem foldlM_formatHex (width n : Nat) :
    (formatHex width n).foldlM (fun n b => do return n * 16 + (← hexDigit b)) 0 =
      some (n % 16 ^ width) := by
  induction width generalizing n with
  | zero => simp [formatHex, Nat.mod_one]
  | succ width ih =>
    rw [formatHex, List.foldlM_append, ih]
    have hdigit := hexDigit_hexByte (Nat.mod_lt n (by decide : 0 < 16))
    simp only [Option.bind_eq_bind, Option.bind_some, List.foldlM_cons, List.foldlM_nil, hdigit,
      Option.pure_def]
    have hsplit := Nat.mod_mul (x := n) (a := 16) (b := 16 ^ width)
    rw [Nat.pow_succ, Nat.mul_comm (16 ^ width) 16, hsplit]
    congr 1
    omega

theorem length_formatHex (width n : Nat) : (formatHex width n).length = width := by
  induction width generalizing n with
  | zero => rfl
  | succ width ih => rw [formatHex, List.length_append, ih, List.length_singleton]

theorem int64OfUint64_emod (hid : IsInt64 id) : int64OfUint64 (id % 2 ^ 64).toNat = id := by
  obtain ⟨hlo, hhi⟩ := hid
  unfold int64OfUint64
  split <;> omega

theorem int64OfUint64_isInt64 {n : Nat} (hn : n < 2 ^ 64) : IsInt64 (int64OfUint64 n) := by
  unfold int64OfUint64 IsInt64
  split <;> omega

/-- The key of a lease is read back as its id. -/
theorem parseLeaseKey_leaseKey (hid : IsInt64 id) : parseLeaseKey (leaseKey id) = some id := by
  have hpre : leaseKeyPrefix.isPrefixOf (leaseKey id) = true :=
    List.isPrefixOf_iff_prefix.mpr (List.prefix_append _ _)
  have hlt : (id % 2 ^ 64).toNat < 16 ^ 16 := by
    have := Int.emod_lt_of_pos id (by decide : (0 : Int) < 2 ^ 64)
    have h16 : (16 : Nat) ^ 16 = 2 ^ 64 := by decide
    omega
  have hne : formatHex 16 (id % 2 ^ 64).toNat ≠ [] :=
    List.ne_nil_of_length_eq_add_one (length_formatHex 16 _)
  have hdrop : (leaseKey id).drop leaseKeyPrefix.length = formatHex 16 (id % 2 ^ 64).toNat :=
    List.drop_left
  have hparse : parseUint16 (formatHex 16 (id % 2 ^ 64).toNat) = some (id % 2 ^ 64).toNat := by
    rw [parseUint16, if_neg hne, foldlM_formatHex, Nat.mod_eq_of_lt hlt]
    exact if_pos hlt
  rw [parseLeaseKey, if_pos hpre, hdrop, hparse, Option.map_some, int64OfUint64_emod hid]

variable {key : Bytes}

/-- What is read from a key is an `int64`. -/
theorem isInt64_of_parseLeaseKey (hparse : parseLeaseKey key = some id) : IsInt64 id := by
  unfold parseLeaseKey at hparse
  split at hparse
  · obtain ⟨n, hn, rfl⟩ := Option.map_eq_some_iff.mp hparse
    unfold parseUint16 at hn
    split at hn
    · cases hn
    · obtain ⟨m, -, hm⟩ := Option.bind_eq_some_iff.mp hn
      split at hm
      · next hlt =>
        cases hm
        exact int64OfUint64_isInt64 hlt
      · cases hm
  · cases hparse

/-! ## Operations that the log does not order -/

namespace LeaseManager

/-- `LeaseKeepAlive`: the new table and the TTL of the response, or `ErrGRPCLeaseNotFound`. -/
def leaseKeepAlive (m : LeaseManager) (now id : Int) : Option (LeaseManager × Int) :=
  if id = 0 then none
  else (m.leases.lookup id).map fun lease =>
    let renewed : Lease := { lease with expiration := now + durationOfSeconds lease.ttl }
    ({ m with leases := m.leases.insert id renewed }, lease.ttl)

/-- The leases that `checkExpiredOnce` finds expired, those whose expiry is under way left out. -/
def expired (m : LeaseManager) (now : Int) : List Int :=
  (m.leases.entries.filter fun entry =>
    entry.2.expiration < now && !m.expiring.getD entry.1 false).map Sigma.fst

/-- `checkExpiredOnce` marks the expired leases. -/
def markExpiring (m : LeaseManager) (ids : List Int) : LeaseManager :=
  { m with expiring := m.expiring.setAll ids true }

/-- `checkExpiredOnce` could not delete a lease record, and will try again. -/
def unmarkExpiring (m : LeaseManager) (id : Int) : LeaseManager :=
  { m with expiring := m.expiring.erase id }

/-- `checkExpiredOnce` retires a lease that has no record in the log. -/
def retire (m : LeaseManager) (id : Int) : LeaseManager :=
  match m.leases.lookup id with
  | none => m
  | some lease =>
    { leases := m.leases.erase id
      expiring := m.expiring.erase id
      deleteQueue := if lease.keys = [] then m.deleteQueue else m.deleteQueue ++ [lease] }

variable {m : LeaseManager} {env : LeaseEnv}
variable {id x : Int} {e : Event}

theorem onLeaseRecord_delete (htype : e.type = .delete) :
    m.onLeaseRecord env id e = m.retire id := by
  rw [onLeaseRecord, htype]
  rfl

/-! ## The leases in the table -/

variable {expiring : GoMap Int Bool} {leases : GoMap Int Lease}

theorem hasLease_insert {queue : List Lease} {lease : Lease} :
    hasLease ⟨leases.insert id lease, expiring, queue⟩ x = true ↔
      x = id ∨ (leases.lookup x).isSome = true := by
  by_cases hx : x = id
  · subst hx
    simp [hasLease]
  · simp [hasLease, hx, AList.lookup_insert_ne hx]

theorem hasLease_erase {queue : List Lease} :
    hasLease ⟨leases.erase id, expiring, queue⟩ x = true ↔
      x ≠ id ∧ (leases.lookup x).isSome = true := by
  by_cases hx : x = id
  · subst hx
    simp [hasLease]
  · simp [hasLease, hx, AList.lookup_erase_ne hx]

theorem hasLease_retire : (m.retire id).hasLease x = true ↔ x ≠ id ∧ m.hasLease x = true := by
  unfold retire
  cases hl : m.leases.lookup id with
  | none =>
    refine ⟨fun h => ⟨?_, h⟩, fun h => h.2⟩
    rintro rfl
    simp [hasLease, hl] at h
  | some lease => exact hasLease_erase

/-- A lease record that is put adds its lease, if it is valid. -/
theorem hasLease_onLeaseRecord_put (htype : e.type = .put) :
    (m.onLeaseRecord env id e).hasLease x = true ↔
      (x = id ∧ (env.unmarshal e.kv.value).isSome = true) ∨ m.hasLease x = true := by
  unfold onLeaseRecord
  rw [htype]
  cases hv : env.unmarshal e.kv.value with
  | none => simp
  | some ttl =>
    simp only [Option.isSome_some, and_true]
    exact hasLease_insert

theorem hasLease_attach : (m.attach env id key).hasLease x = true ↔ x = id ∨ m.hasLease x = true :=
  hasLease_insert

/-- The key is the last one on the list of the lease. -/
def LastKey (m : LeaseManager) (id : Int) (key : Bytes) : Prop :=
  ∃ lease, m.leases.lookup id = some lease ∧ lease.keys.erase key = []

instance (m : LeaseManager) (id : Int) (key : Bytes) : Decidable (m.LastKey id key) :=
  match h : m.leases.lookup id with
  | none => isFalse (by simp [LastKey, h])
  | some lease => decidable_of_iff (lease.keys.erase key = []) (by simp [LastKey, h])

theorem hasLease_detach :
    (m.detach id key).hasLease x = true ↔
      ¬ (x = id ∧ m.LastKey id key) ∧ m.hasLease x = true := by
  unfold detach LastKey
  cases hl : m.leases.lookup id with
  | none => simp
  | some lease =>
    by_cases hkeys : lease.keys.erase key = []
    · simp only [hkeys, if_true, hasLease_erase, Option.some.injEq, exists_eq_left', and_true]
      exact Iff.rfl
    · simp only [hkeys, if_false, hasLease_insert, Option.some.injEq, exists_eq_left', and_false,
        not_false_eq_true, true_and]
      refine ⟨?_, Or.inr⟩
      rintro (rfl | h)
      · simp [hasLease, hl]
      · exact h

/-- The lease a key leaves with an event. -/
def oldLease (e : Event) : Int := e.prevKv.elim 0 KeyValue.lease

/-- The event takes the last key from the list of its old lease. -/
def DetachesLast (m : LeaseManager) (e : Event) : Prop :=
  e.kv.lease ≠ oldLease e ∧ oldLease e ≠ 0 ∧ m.LastKey (oldLease e) e.kv.key

instance (m : LeaseManager) (e : Event) : Decidable (m.DetachesLast e) :=
  inferInstanceAs (Decidable (_ ∧ _ ∧ _))

/-- The event puts its key on the list of its new lease. -/
def Attaches (e : Event) : Prop := e.kv.lease ≠ 0 ∧ e.kv.lease ≠ oldLease e

instance (e : Event) : Decidable (Attaches e) := inferInstanceAs (Decidable (_ ∧ _))

/-- An event on a key that is no lease record adds the lease it attaches its key to, and removes the one
whose last key it takes. -/
theorem hasLease_onLogEvent (hparse : parseLeaseKey e.kv.key = none) :
    (m.onLogEvent env e).hasLease x = true ↔ ¬ (x = oldLease e ∧ m.DetachesLast e) ∧
      ((x = e.kv.lease ∧ Attaches e) ∨ m.hasLease x = true) := by
  unfold onLogEvent
  rw [hparse]
  show (if e.kv.lease ≠ oldLease e ∧ oldLease e ≠ 0 then
      detach (if Attaches e then m.attach env e.kv.lease e.kv.key else m) (oldLease e) e.kv.key
    else if Attaches e then m.attach env e.kv.lease e.kv.key else m).hasLease x = true ↔ _
  have hattached : (if Attaches e then m.attach env e.kv.lease e.kv.key else m).hasLease x = true ↔
      (x = e.kv.lease ∧ Attaches e) ∨ m.hasLease x = true := by
    split
    · next ha => simp [hasLease_attach, ha]
    · next ha => simp [ha]
  by_cases hd : e.kv.lease ≠ oldLease e ∧ oldLease e ≠ 0
  · -- Attaching does not touch the list of the old lease.
    have hlast : LastKey (if Attaches e then m.attach env e.kv.lease e.kv.key else m) (oldLease e)
        e.kv.key ↔ m.DetachesLast e := by
      simp only [DetachesLast, hd, ne_eq, not_false_eq_true, true_and, LastKey]
      split
      · rw [attach, AList.lookup_insert_ne (Ne.symm hd.1)]
      · rfl
    rw [if_pos hd, hasLease_detach, hlast, hattached]
  · have hno : ¬ m.DetachesLast e := fun h => hd ⟨h.1, h.2.1⟩
    rw [if_neg hd, hattached]
    simp [hno]

end LeaseManager

end CloudEtcd
