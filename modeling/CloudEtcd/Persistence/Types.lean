/-
# CloudEtcd.Persistence.Types — what the log holds, and what a transaction tells it.

The messages of `mvccpb` that the log stores (`KeyValue`, `Event`), the log's record, and `TxnMeta`,
the read and write sets that the batching layer validates.  Byte strings are lists of bytes in
Go's order; a revision is a natural number, and the `int64` fields of the messages are integers.
-/
import Mathlib.Data.List.Lex
import CloudEtcd.Lib.GoMap
import CloudEtcd.Lib.History

namespace CloudEtcd

/-- A Go `[]byte` or `string`. -/
abbrev Bytes := List UInt8

/-- The order `bytes.Compare` uses on single bytes. -/
instance instLinearOrderByte : LinearOrder UInt8 where
  le_refl a := UInt8.le_refl a
  le_trans a b c := UInt8.le_trans
  le_antisymm a b := UInt8.le_antisymm
  le_total a b := UInt8.le_total a b
  lt_iff_le_not_ge a b := by
    rw [UInt8.le_iff_toNat_le, UInt8.le_iff_toNat_le, UInt8.lt_iff_toNat_lt]
    omega
  toDecidableLE := inferInstance
  toDecidableEq := inferInstance
  toDecidableLT := inferInstance

/-! ## mvccpb -/

/-- `mvccpb.KeyValue`. -/
structure KeyValue where
  key : Bytes
  createRevision : Int := 0
  modRevision : Int := 0
  version : Int := 0
  value : Bytes := []
  lease : Int := 0
  deriving DecidableEq, Repr

/-- `mvccpb.Event_EventType`. -/
inductive EventType where
  | put
  | delete
  deriving DecidableEq, Repr

/-- `mvccpb.Event`. -/
structure Event where
  type : EventType
  kv : KeyValue
  prevKv : Option KeyValue := none
  deriving DecidableEq, Repr

/-- `persistence.LogRecord`. -/
structure LogRecord where
  events : List Event
  deriving DecidableEq, Repr

instance : Keyed LogRecord Event Bytes where
  events := LogRecord.events
  key e := e.kv.key

/-- The errors with which the log refuses a revision. -/
inductive LogError where
  /-- No file covers the revision, or the file covering it has no such record. -/
  | notFound (revision : Nat)
  /-- Compaction dropped the revision (`persistence.ErrCompacted`). -/
  | compacted (revision : Nat)
  /-- The file could not be read. -/
  | io (revision : Nat)
  deriving DecidableEq, Repr

/-! ## Transaction metadata -/

/-- `persistence.TxnMeta`. -/
structure TxnMeta where
  snapshotRevision : Nat
  readSet : GoMap Bytes Nat
  writeSet : GoMap Bytes Bool
  hasRangeRead : Bool

namespace TxnMeta

/-- `NewTxnMeta`. -/
def new (snapshotRevision : Nat) : TxnMeta where
  snapshotRevision := snapshotRevision
  readSet := ∅
  writeSet := ∅
  hasRangeRead := false

/-- `TxnMeta.AddRead`. -/
def addRead (t : TxnMeta) (key : Bytes) (modRevision : Nat) : TxnMeta :=
  { t with readSet := t.readSet.insert key modRevision }

/-- `TxnMeta.AddWrite`. -/
def addWrite (t : TxnMeta) (key : Bytes) : TxnMeta :=
  { t with writeSet := t.writeSet.insert key true }

/-- `TxnMeta.AddList`. -/
def addList (t : TxnMeta) : TxnMeta :=
  { t with hasRangeRead := true }

theorem mem_addRead {t : TxnMeta} {key k : Bytes} {revision : Nat} :
    k ∈ (t.addRead key revision).readSet ↔ k ∈ t.readSet ∨ key = k := by
  rw [addRead, AList.mem_insert, eq_comm (a := k)]
  exact or_comm

theorem mem_addWrite {t : TxnMeta} {key k : Bytes} :
    k ∈ (t.addWrite key).writeSet ↔ k ∈ t.writeSet ∨ key = k := by
  rw [addWrite, AList.mem_insert, eq_comm (a := k)]
  exact or_comm

end TxnMeta

/-- `findEvent`: the first event of the record on the key. -/
def findEvent (logEntry : LogRecord) (key : Bytes) : Option Event :=
  logEntry.events.find? fun event => event.kv.key = key

variable {x : LogRecord}

theorem findEvent_eq_some {k : Bytes} {e : Event} (h : findEvent x k = some e) :
    e ∈ x.events ∧ e.kv.key = k :=
  ⟨List.mem_of_find?_eq_some h, by simpa using List.find?_some h⟩

theorem findEvent_isSome_iff {k : Bytes} : (∃ e, findEvent x k = some e) ↔ History.Touches x k := by
  rw [← Option.isSome_iff_exists, findEvent, List.find?_isSome]
  simp [History.Touches, Keyed.events, Keyed.key]

/-- In a record that writes no key twice, `findEvent` finds the event on the key. -/
theorem findEvent_of_mem (hd : (x.events.map (·.kv.key)).Nodup) {e : Event}
    (he : e ∈ x.events) : findEvent x e.kv.key = some e := by
  obtain ⟨e', he'⟩ := findEvent_isSome_iff.mpr ⟨e, he, rfl⟩
  obtain ⟨hmem, hkey⟩ := findEvent_eq_some he'
  have heq : e' = e := History.event_unique (ρ := LogRecord) hd hmem he hkey
  rw [heq] at he'
  exact he'

/-! ## Fallible code -/

/-- A computation succeeds when both of its parts do. -/
theorem bind_eq_ok {ε α β : Type} {x : Except ε α} {f : α → Except ε β} {b : β} :
    (x >>= f) = .ok b ↔ ∃ a, x = .ok a ∧ f a = .ok b := by
  cases x <;> simp [bind, Except.bind]

/-- A computation fails when one of its parts does. -/
theorem bind_eq_error {ε α β : Type} {x : Except ε α} {f : α → Except ε β} {e : ε} :
    (x >>= f) = .error e ↔ x = .error e ∨ ∃ a, x = .ok a ∧ f a = .error e := by
  cases x <;> simp [bind, Except.bind]

theorem toOption_eq_some {ε α : Type} {x : Except ε α} {a : α} :
    x.toOption = some a ↔ x = .ok a := by
  cases x <;> simp [Except.toOption]

end CloudEtcd
