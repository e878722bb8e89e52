/-
# CloudEtcd.Persistence.LogCodec — the bytes of a log record (`pkg/persistence/logcodec`).

A record is stored as a length-delimited `etcdserverpb.WatchResponse` that carries the revision in
its header and the record's events.  Rotation and compaction decide by the number of bytes, so the
encoding is written out: the protobuf wire format of the messages involved, fields in ascending
order and zero values left out.
-/
import CloudEtcd.Persistence.Types

namespace CloudEtcd

namespace LogCodec

/-! ## The wire format -/

/-- A varint of at most `fuel` bytes. -/
def varint : Nat → Nat → Bytes
  | 0, _ => []
  | fuel + 1, n =>
    if n < 128 then [UInt8.ofNat n]
    else UInt8.ofNat (n % 128 + 128) :: varint fuel (n / 128)

/-- `protowire.AppendVarint` of a `uint64`. -/
def appendVarint (n : Nat) : Bytes := varint 10 n

/-- The tag of a field: its number and its wire type (0 for a varint, 2 for bytes). -/
def appendTag (field wireType : Nat) : Bytes := appendVarint (field * 8 + wireType)

/-- An `int64` or enumeration field; negative numbers are sent as their `uint64`. -/
def int64Field (field : Nat) (x : Int) : Bytes :=
  if x = 0 then [] else appendTag field 0 ++ appendVarint (x % 2 ^ 64).toNat

/-- A length-delimited field that is present even when it is empty. -/
def messageField (field : Nat) (m : Bytes) : Bytes :=
  appendTag field 2 ++ appendVarint m.length ++ m

/-- A `bytes` field. -/
def bytesField (field : Nat) (b : Bytes) : Bytes :=
  if b = [] then [] else messageField field b

/-! ## The messages -/

/-- The encoding of an `mvccpb.KeyValue`. -/
def marshalKeyValue (kv : KeyValue) : Bytes :=
  bytesField 1 kv.key ++ int64Field 2 kv.createRevision ++ int64Field 3 kv.modRevision ++
    int64Field 4 kv.version ++ bytesField 5 kv.value ++ int64Field 6 kv.lease

/-- The number of an `mvccpb.Event_EventType`. -/
def eventTypeNumber : EventType → Int
  | .put => 0
  | .delete => 1

/-- The encoding of an `mvccpb.Event`. -/
def marshalEvent (e : Event) : Bytes :=
  int64Field 1 (eventTypeNumber e.type) ++ messageField 2 (marshalKeyValue e.kv) ++
    e.prevKv.elim [] fun kv => messageField 3 (marshalKeyValue kv)

/-- `EncodedRecord`: the `WatchResponse` of a record, without its length prefix. -/
def encodeRecord (revision : Nat) (record : LogRecord) : Bytes :=
  messageField 1 (int64Field 3 revision) ++
    record.events.flatMap fun e => messageField 11 (marshalEvent e)

/-- `magic`, which every file starts with: "cloudetcd-log", a NUL and the version. -/
def header : Bytes :=
  [0x63, 0x6c, 0x6f, 0x75, 0x64, 0x65, 0x74, 0x63, 0x64, 0x2d, 0x6c, 0x6f, 0x67, 0x00, 0x01]

/-- One record as `AppendRecords` and `WriteRecord` write it. -/
def writeRecord (revision : Nat) (record : LogRecord) : Bytes :=
  let m := encodeRecord revision record
  appendVarint m.length ++ m

/-- The number of bytes `AppendRecordsAt` appends. -/
def appendedSize (records : List (Nat × LogRecord)) : Nat :=
  (records.map fun r => (writeRecord r.1 r.2).length).sum

end LogCodec

end CloudEtcd
