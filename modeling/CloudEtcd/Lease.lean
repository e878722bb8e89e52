/-
# CloudEtcd.Lease — the lease table as the log drives it (`pkg/lease`).

The storage feeds every applied event to `OnLogEvent`: an event on a lease record's key grants,
refreshes or retires the lease, and any other event moves its key from the list of its old lease to
that of its new one.  `put` asks `HasLease`.  The clock and the JSON decoder are taken from
outside.
-/
import CloudEtcd.Persistence.Types

namespace CloudEtcd

/-! ## Internal keys -/

/-- `storage.InternalPrefix`: a NUL and "cloudetcd/". -/
def internalPrefix : Bytes :=
  [0x00, 0x63, 0x6c, 0x6f, 0x75, 0x64, 0x65, 0x74, 0x63, 0x64, 0x2f]

/-- `storage.IsInternalKey`. -/
def isInternalKey (key : Bytes) : Bool := internalPrefix.isPrefixOf key

/-- `leaseKeyPrefix`: the internal prefix and "lease/". -/
def leaseKeyPrefix : Bytes := internalPrefix ++ [0x6c, 0x65, 0x61, 0x73, 0x65, 0x2f]

/-- The value of a hexadecimal digit. -/
def hexDigit (b : UInt8) : Option Nat :=
  if 0x30 ≤ b ∧ b ≤ 0x39 then some (b.toNat - 0x30)
  else if 0x61 ≤ b ∧ b ≤ 0x66 then some (b.toNat - 0x61 + 10)
  else if 0x41 ≤ b ∧ b ≤ 0x46 then some (b.toNat - 0x41 + 10)
  else none

/-- `strconv.ParseUint` in base 16 with 64 bits. -/
def parseUint16 (s : Bytes) : Option Nat :=
  if s = [] then none
  else do
    let n ← s.foldlM (fun n b => do return n * 16 + (← hexDigit b)) 0
    if n < 2 ^ 64 then some n else none

/-- The `int64` with the bits of a `uint64`. -/
def int64OfUint64 (n : Nat) : Int := if n < 2 ^ 63 then n else (n : Int) - 2 ^ 64

/-- `parseLeaseKey`. -/
def parseLeaseKey (key : Bytes) : Option Int :=
  if leaseKeyPrefix.isPrefixOf key then
    (parseUint16 (key.drop leaseKeyPrefix.length)).map int64OfUint64
  else none

/-! ## The table -/

/-- `Lease`; the expiration is in nanoseconds. -/
structure Lease where
  keys : List Bytes
  id : Int
  ttl : Int
  expiration : Int

/-- `LeaseManager`. -/
structure LeaseManager where
  leases : GoMap Int Lease
  expiring : GoMap Int Bool
  deleteQueue : List Lease

/-- What `OnLogEvent` asks of its surroundings: `time.Now`, and the TTL that `json.Unmarshal` reads
from the value of a lease record, if it is valid. -/
structure LeaseEnv where
  now : Int
  unmarshal : Bytes → Option Int

/-- Lease records are never decoded, and time stands still. -/
def noLeases : LeaseEnv := ⟨0, fun _ => none⟩

/-- A TTL in seconds as a `time.Duration`, an `int64` of nanoseconds. -/
def durationOfSeconds (ttl : Int) : Int := (ttl * 10 ^ 9 + 2 ^ 63) % 2 ^ 64 - 2 ^ 63

namespace LeaseManager

/-- `NewLeaseManager`. -/
def new : LeaseManager := ⟨∅, ∅, []⟩

/-- `HasLease`. -/
def hasLease (m : LeaseManager) (leaseID : Int) : Bool := (m.leases.lookup leaseID).isSome

/-- `onLeaseRecord`: a put grants or refreshes the lease, a delete retires it and queues its keys. -/
def onLeaseRecord (env : LeaseEnv) (m : LeaseManager) (id : Int) (event : Event) : LeaseManager :=
  match event.type with
  | .put =>
    match env.unmarshal event.kv.value with
    | none => m
    | some ttl =>
      let lease := (m.leases.lookup id).getD ⟨[], id, 0, 0⟩
      let granted : Lease :=
        { lease with ttl := ttl, expiration := env.now + durationOfSeconds ttl }
      { m with leases := m.leases.insert id granted }
  | .delete =>
    match m.leases.lookup id with
    | none => m
    | some lease =>
      { leases := m.leases.erase id
        expiring := m.expiring.erase id
        deleteQueue := if lease.keys = [] then m.deleteQueue else m.deleteQueue ++ [lease] }

/-- The attach half of `OnLogEvent`; a lease that is not in the table gets a placeholder that has
expired. -/
def attach (env : LeaseEnv) (m : LeaseManager) (id : Int) (key : Bytes) : LeaseManager :=
  let lease := (m.leases.lookup id).getD ⟨[], id, 0, env.now⟩
  { m with leases := m.leases.insert id { lease with keys := lease.keys ++ [key] } }

/-- The detach half of `OnLogEvent`; a lease that loses its last key leaves the table. -/
def detach (m : LeaseManager) (id : Int) (key : Bytes) : LeaseManager :=
  match m.leases.lookup id with
  | none => m
  | some lease =>
    let keys := lease.keys.erase key
    if keys = [] then { m with leases := m.leases.erase id }
    else { m with leases := m.leases.insert id { lease with keys := keys } }

/-- `OnLogEvent`. -/
def onLogEvent (env : LeaseEnv) (m : LeaseManager) (event : Event) : LeaseManager :=
  match parseLeaseKey event.kv.key with
  | some id => m.onLeaseRecord env id event
  | none =>
    let newLeaseID := event.kv.lease
    let oldLease := event.prevKv.elim 0 KeyValue.lease
    let attached :=
      if newLeaseID ≠ 0 ∧ newLeaseID ≠ oldLease then m.attach env newLeaseID event.kv.key
      else m
    if newLeaseID ≠ oldLease ∧ oldLease ≠ 0 then attached.detach oldLease event.kv.key
    else attached

end LeaseManager

end CloudEtcd
