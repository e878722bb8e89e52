/-
# CloudEtcd.Persistence.Scan — reading a log file back (`pkg/persistence/logcodec`).

`Scan` walks the length prefixes of a file and reads each record's revision from its header; a file
that ends inside a record has a torn tail, which is not an error.  `DecodeAlias` is the decoder of the
log's own, which compaction asks for the keys of a record.

A file is the header followed by its records (`encodeFile`).  `scan_encodeFile` says what `Scan`
finds in a file cut short anywhere after the header: the spans and revisions of the records that
are complete.  `decodeAlias_encodeRecord` says that the decoder returns the events that were
encoded.
-/
import CloudEtcd.Lib.Framing
import CloudEtcd.Persistence.Protowire

namespace CloudEtcd

namespace LogCodec

open Protowire

/-! ## Spans and revisions -/

/-- `Span`: where a record's message stands in the file. -/
structure Span where
  offset : Nat
  length : Nat
  deriving DecidableEq, Repr

/-- `Span.Bytes`. -/
def Span.bytes (s : Span) (data : Bytes) : Bytes := (data.drop s.offset).take s.length

/-- The errors of one record. -/
inductive RecordError where
  | parse (e : ParseError)
  /-- "record header has no revision" -/
  | noRevision
  /-- "record has no header" -/
  | noHeader
  deriving DecidableEq, Repr

/-- The errors of a file. -/
inductive ScanError where
  /-- "not a cloudetcd log file (bad header)" -/
  | badHeader
  /-- "decoding record ...: ..." -/
  | record (i : Nat) (e : RecordError)
  /-- "decoding record ...: truncated" -/
  | truncated (i : Nat)
  deriving DecidableEq, Repr

/-- The loop of `EncodedRecord.Revision` over the fields of the header. -/
def headerRevision : Nat → Bytes → Except RecordError Nat
  | 0, _ => .error .noRevision
  | _ + 1, [] => .error .noRevision
  | fuel + 1, b :: h =>
    match consumeTag (b :: h) with
    | .error e => .error (.parse e)
    | .ok (num, typ, h) =>
      if num = 3 ∧ typ = 0 then
        match consumeVarint h with
        | .error e => .error (.parse e)
        | .ok (v, _) => .ok v
      else
        match consumeFieldValue num typ h with
        | .error e => .error (.parse e)
        | .ok h => headerRevision fuel h

/-- The loop of `EncodedRecord.Revision` over the fields of the record. -/
def recordRevision : Nat → Bytes → Except RecordError Nat
  | 0, _ => .error .noHeader
  | _ + 1, [] => .error .noHeader
  | fuel + 1, b :: m =>
    match consumeTag (b :: m) with
    | .error e => .error (.parse e)
    | .ok (num, typ, m) =>
      if num = 1 ∧ typ = 2 then
        match consumeBytes m with
        | .error e => .error (.parse e)
        | .ok (h, _) => headerRevision h.length h
      else
        match consumeFieldValue num typ m with
        | .error e => .error (.parse e)
        | .ok m => recordRevision fuel m

/-- `EncodedRecord.Revision`. -/
def revision (m : Bytes) : Except RecordError Nat := recordRevision m.length m

/-- What one round of the loop in `Scan` finds: the length of the length prefix, the length of the
message and its revision. -/
structure Located where
  lead : Nat
  length : Nat
  revision : Nat
  deriving DecidableEq, Repr

/-- One round of the loop in `Scan`.  The position is that of the length prefix. -/
def nextRecord (data : Bytes) : Framing.Front Located RecordError :=
  match consumeVarint data with
  | .error .truncated => .torn
  | .error e => .bad (.parse e)
  | .ok (n, rest) =>
    if rest.length < n then .torn
    else
      match revision (rest.take n) with
      | .error e => .bad e
      | .ok rev =>
        let lead := data.length - rest.length
        .frame ⟨lead, n, rev⟩ (lead + n)

/-- What `Scan` returns. -/
structure Scanned where
  spans : List Span
  revisions : List Nat
  complete : Nat
  deriving DecidableEq, Repr

/-- The span of a located record. -/
def spanAt (found : Nat × Located) : Span := ⟨found.1 + found.2.lead, found.2.length⟩

/-- `Scan`. -/
def scan (data : Bytes) : Except ScanError Scanned :=
  if data.take header.length ≠ header then .error .badHeader
  else
    let rest := data.drop header.length
    match Framing.scan nextRecord rest.length header.length rest with
    | .error (i, e) => .error (.record i e)
    | .ok (found, complete) =>
      .ok ⟨found.map spanAt, found.map fun f => f.2.revision, complete⟩

/-- `Offsets`. -/
def offsets (data : Bytes) : Except ScanError (List Span × List Nat) :=
  match scan data with
  | .error e => .error e
  | .ok s =>
    if s.complete ≠ data.length then .error (.truncated s.spans.length)
    else .ok (s.spans, s.revisions)

/-! ## The decoder -/

/-- An event as a decoder returns it: the type is the number on the wire, and a message that is
missing is `nil`. -/
structure DecodedEvent where
  type : Int := 0
  kv : Option KeyValue := none
  prevKv : Option KeyValue := none
  deriving DecidableEq, Repr

/-- The encoding of an `mvccpb.Event` with any type, in which messages may be missing. -/
def marshalMessage (e : DecodedEvent) : Bytes :=
  int64Field 1 e.type ++ (e.kv.elim [] (fun kv => messageField 2 (marshalKeyValue kv)) ++
    e.prevKv.elim [] fun kv => messageField 3 (marshalKeyValue kv))

/-- The encoding of a `WatchResponse` with a revision and any events. -/
def encodeMessage (revision : Nat) (events : List DecodedEvent) : Bytes :=
  messageField 1 (int64Field 3 revision) ++
    events.flatMap fun e => messageField 11 (marshalMessage e)

/-- The Go conversion `int64(v)`. -/
def int64 (v : Int) : Int := Int.bmod v (2 ^ 64)

/-- The varint fields of a `KeyValue`; the value of a field 5 is dropped. -/
def setVarint (kv : KeyValue) (num v : Nat) : KeyValue :=
  match num with
  | 2 => { kv with createRevision := int64 v }
  | 3 => { kv with modRevision := int64 v }
  | 4 => { kv with version := int64 v }
  | 6 => { kv with lease := int64 v }
  | _ => kv

/-- The fields that `decodeKeyValueAlias` reads. -/
def keyValueField (kv : KeyValue) (num typ : Nat) (m : Bytes) :
    Option (Except ParseError (KeyValue × Bytes)) :=
  if (num = 1 ∨ num = 5) ∧ typ = 2 then
    some ((consumeBytes m).map fun v =>
      (if num = 1 then { kv with key := v.1 } else { kv with value := v.1 }, v.2))
  else if typ = 0 ∧ 2 ≤ num ∧ num ≤ 6 then
    some ((consumeVarint m).map fun v => (setVarint kv num v.1, v.2))
  else none

/-- `decodeKeyValueAlias`. -/
def decodeKeyValueAlias (m : Bytes) : Except ParseError KeyValue :=
  foldFields keyValueField m.length { key := [] } m

/-- The fields that `decodeEventAlias` reads. -/
def eventField (ev : DecodedEvent) (num typ : Nat) (m : Bytes) :
    Option (Except ParseError (DecodedEvent × Bytes)) :=
  if num = 1 ∧ typ = 0 then
    some ((consumeVarint m).map fun v => ({ ev with type := Int.bmod v.1 (2 ^ 32) }, v.2))
  else if (num = 2 ∨ num = 3) ∧ typ = 2 then
    some (match consumeBytes m with
      | .error e => .error e
      | .ok (v, rest) => (decodeKeyValueAlias v).map fun kv =>
        (if num = 2 then { ev with kv := some kv } else { ev with prevKv := some kv }, rest))
  else none

/-- `decodeEventAlias`. -/
def decodeEventAlias (m : Bytes) : Except ParseError DecodedEvent :=
  foldFields eventField m.length {} m

/-- The field that `DecodeAlias` reads: the events. -/
def recordField (events : List DecodedEvent) (num typ : Nat) (m : Bytes) :
    Option (Except ParseError (List DecodedEvent × Bytes)) :=
  if num = 11 ∧ typ = 2 then
    some (match consumeBytes m with
      | .error e => .error e
      | .ok (v, rest) => (decodeEventAlias v).map fun ev => (events ++ [ev], rest))
  else none

/-- `EncodedRecord.DecodeAlias`. -/
def decodeAlias (m : Bytes) : Except ParseError (List DecodedEvent) :=
  foldFields recordField m.length [] m

/-! ## Whole files -/

/-- A record that can be stored: its revision is a positive `int64`, and its message is a Go slice. -/
def Storable (r : Nat × LogRecord) : Prop :=
  1 ≤ r.1 ∧ r.1 < 2 ^ 63 ∧ (encodeRecord r.1 r.2).length < 2 ^ 63

instance (r : Nat × LogRecord) : Decidable (Storable r) :=
  inferInstanceAs (Decidable (_ ∧ _ ∧ _))

/-- One record with its length prefix. -/
def write (r : Nat × LogRecord) : Bytes := writeRecord r.1 r.2

/-- A file with the given records. -/
def encodeFile (rs : List (Nat × LogRecord)) : Bytes := header ++ rs.flatMap write

/-- `AppendRecordsAt`, which cannot fail on the records it is given. -/
def appendRecordsAt (buf : Bytes) : List (Nat × LogRecord) → Bytes × List Span
  | [] => (buf, [])
  | r :: rs =>
    let m := encodeRecord r.1 r.2
    let buf := buf ++ appendVarint m.length
    let span : Span := ⟨buf.length, m.length⟩
    let (buf, spans) := appendRecordsAt (buf ++ m) rs
    (buf, span :: spans)

/-- What `Scan` finds of a record. -/
def located (r : Nat × LogRecord) : Located where
  lead := (appendVarint (encodeRecord r.1 r.2).length).length
  length := (encodeRecord r.1 r.2).length
  revision := r.1

/-- The spans of records that stand one after another from `pos` on. -/
def spansFrom (pos : Nat) (rs : List (Nat × LogRecord)) : List Span :=
  (Framing.layout write located pos rs).map spanAt

theorem write_eq (r : Nat × LogRecord) :
    write r = appendVarint (encodeRecord r.1 r.2).length ++ encodeRecord r.1 r.2 := rfl

@[simp] theorem spansFrom_nil (pos : Nat) : spansFrom pos [] = [] := rfl

theorem spansFrom_cons (pos : Nat) (r : Nat × LogRecord) (rs : List (Nat × LogRecord)) :
    spansFrom pos (r :: rs) =
      ⟨pos + (appendVarint (encodeRecord r.1 r.2).length).length, (encodeRecord r.1 r.2).length⟩ ::
        spansFrom (pos + (write r).length) rs := rfl

@[simp] theorem length_spansFrom (pos : Nat) (rs : List (Nat × LogRecord)) :
    (spansFrom pos rs).length = rs.length := by
  simp [spansFrom]

theorem spansFrom_append (pos : Nat) (rs rs' : List (Nat × LogRecord)) :
    spansFrom pos (rs ++ rs') =
      spansFrom pos rs ++ spansFrom (pos + (rs.flatMap write).length) rs' := by
  simp [spansFrom, Framing.layout_append]

/-- `AppendRecordsAt` appends the records and reports where they stand. -/
theorem appendRecordsAt_eq (buf : Bytes) (rs : List (Nat × LogRecord)) :
    appendRecordsAt buf rs = (buf ++ rs.flatMap write, spansFrom buf.length rs) := by
  induction rs generalizing buf with
  | nil => simp [appendRecordsAt]
  | cons r rs ih =>
    rw [appendRecordsAt, ih, spansFrom_cons]
    simp [write_eq]

/-- A span holds the message of its record. -/
theorem bytes_spansFrom (before after : Bytes) (rs : List (Nat × LogRecord)) :
    (spansFrom before.length rs).map (fun s => s.bytes (before ++ (rs.flatMap write ++ after))) =
      rs.map fun r => encodeRecord r.1 r.2 := by
  induction rs generalizing before with
  | nil => rfl
  | cons r rs ih =>
    have hrest := ih (before ++ write r)
    rw [List.length_append] at hrest
    rw [spansFrom_cons, List.map_cons, List.map_cons]
    congr 1
    · rw [Span.bytes, ← List.drop_drop, List.drop_left, List.flatMap_cons, write_eq]
      simp
    · rw [← hrest]
      simp

/-! ## Revisions read back -/

theorem length_varint_le (fuel n : Nat) : (varint fuel n).length ≤ fuel := by
  induction fuel generalizing n with
  | zero => simp [varint]
  | succ fuel ih =>
    rw [varint]
    split
    · simp
    · simpa using ih (n / 128)

theorem length_int64Field_le (field : Nat) (x : Int) : (int64Field field x).length ≤ 20 := by
  unfold int64Field
  split
  · simp
  · rw [List.length_append]
    exact Nat.add_le_add (length_varint_le 10 _) (length_varint_le 10 _)

variable {rev : Nat}

/-- `EncodedRecord.Revision` of a message that starts with its header. -/
theorem revision_header (h1 : 1 ≤ rev) (h2 : rev < 2 ^ 63) (body : Bytes) :
    revision (messageField 1 (int64Field 3 rev) ++ body) = .ok rev := by
  have hlen := length_int64Field_le 3 rev
  have hheader : int64Field 3 rev = appendTag 3 0 ++ appendVarint rev := by
    rw [int64Field, if_neg (by omega)]
    congr 2
    omega
  have hinner : headerRevision (int64Field 3 (rev : Int)).length (int64Field 3 rev) = .ok rev := by
    have htag := consumeTag_append 3 0 (by omega) (by omega) (by omega) (appendVarint rev)
    have hv : consumeVarint (appendVarint rev) = .ok (rev, []) := by
      simpa using consumeVarint_append (n := rev) (by omega) []
    rw [← hheader] at htag
    obtain ⟨b, bs, hcons⟩ := List.exists_cons_of_ne_nil
      (show int64Field 3 (rev : Int) ≠ [] by simp [hheader, appendVarint_ne_nil])
    rw [hcons] at htag ⊢
    simp only [List.length_cons, headerRevision, htag, hv]
    simp
  have htag := consumeTag_messageField 1 (by omega) (int64Field 3 rev) body
  have hbytes := consumeBytes_append (m := int64Field 3 rev) (by omega) body
  rw [revision]
  obtain ⟨b, bs, hcons⟩ := List.exists_cons_of_ne_nil
    (show messageField 1 (int64Field 3 rev) ++ body ≠ [] by
      simp [messageField, appendTag, appendVarint_ne_nil])
  rw [hcons] at htag ⊢
  simp only [List.length_cons, recordRevision, htag, hbytes, hinner]
  simp

theorem revision_encodeRecord {r : Nat × LogRecord} (h : Storable r) :
    revision (encodeRecord r.1 r.2) = .ok r.1 :=
  revision_header h.1 h.2.1 _

/-- A message behind its length, whatever follows. -/
theorem nextRecord_message {front m : Bytes}
    (hfront : ∀ t, consumeVarint (front ++ t) = .ok (m.length, t)) (hrev : revision m = .ok rev)
    (t : Bytes) : nextRecord (front ++ (m ++ t)) =
      .frame ⟨front.length, m.length, rev⟩ (front.length + m.length) := by
  rw [nextRecord, hfront]
  simp only [List.length_append]
  rw [if_neg (by omega), List.take_left, hrev]
  simp

/-- `Scan` understands messages behind their length, whatever they are messages of, if it finds their
revisions, and sees a torn tail in one that is cut short. -/
theorem reads_messages {γ : Type*} {message : γ → Bytes} {rev : γ → Nat} {ok : γ → Prop}
    (hok : ∀ r, ok r → (message r).length < 2 ^ 63 ∧ revision (message r) = .ok (rev r)) :
    Framing.Reads nextRecord (fun r => appendVarint (message r).length ++ message r)
      (fun r => ⟨(appendVarint (message r).length).length, (message r).length, rev r⟩) ok where
  ne_nil r _ := by simp [appendVarint_ne_nil]
  frame r hr rest := by
    obtain ⟨hlen, hrev⟩ := hok r hr
    rw [List.append_assoc, nextRecord_message (consumeVarint_append (by omega)) hrev, List.length_append]
  torn r hr start rest heq hrest hstart := by
    have hlen : (message r).length < 2 ^ 64 := by
      have := (hok r hr).1
      omega
    -- The cut falls in the length prefix or in the message.
    obtain ⟨rest', hcut⟩ | ⟨m, hcut⟩ :
        (∃ rest', appendVarint (message r).length = start ++ rest' ∧ rest' ≠ []) ∨
        ∃ m, start = appendVarint (message r).length ++ m ∧ message r = m ++ rest := by
      rcases List.append_eq_append_iff.mp heq with ⟨m, h1, h2⟩ | ⟨m, h1, h2⟩
      · exact Or.inr ⟨m, h1, h2⟩
      · by_cases hm : m = []
        · subst hm
          exact Or.inr ⟨[], by simpa using h1.symm, by simpa using h2.symm⟩
        · exact Or.inl ⟨m, h1, hm⟩
    · rw [nextRecord, consumeVarint_torn hcut.1 hcut.2]
    · rw [nextRecord, hcut.1, consumeVarint_append hlen]
      have hshort := congrArg List.length hcut.2
      have := List.length_pos_of_ne_nil hrest
      rw [List.length_append] at hshort
      simp only
      rw [if_pos (by omega)]

/-- `Scan` understands what `WriteRecord` writes. -/
theorem reads_nextRecord : Framing.Reads nextRecord write located Storable :=
  reads_messages fun _ hr => ⟨hr.2.2, revision_encodeRecord hr⟩

/-- The beginning of a record that a crash may leave at the end of a file. -/
def TornTail (tail : Bytes) : Prop := Framing.Torn write Storable tail

theorem tornTail_nil : TornTail [] := Or.inl rfl

variable {rs : List (Nat × LogRecord)}

/-- `Scan` of a file cut short finds the complete records and where they end. -/
theorem scan_encodeFile (hrs : ∀ r ∈ rs, Storable r) {tail : Bytes} (htail : TornTail tail) :
    scan (encodeFile rs ++ tail) =
      .ok ⟨spansFrom header.length rs, rs.map Prod.fst, (encodeFile rs).length⟩ := by
  have hframes := reads_nextRecord.scan_append rs hrs htail header.length le_rfl
  have htake : (encodeFile rs ++ tail).take header.length = header := by
    simp [encodeFile, List.append_assoc]
  have hdrop : (encodeFile rs ++ tail).drop header.length = rs.flatMap write ++ tail := by
    simp [encodeFile, List.append_assoc]
  rw [scan, htake, if_neg (by simp), hdrop]
  simp only [hframes]
  have hrevs : ∀ (pos : Nat), (Framing.layout write located pos rs).map (fun f => f.2.revision) =
      rs.map Prod.fst := by
    clear hrs hframes htake hdrop
    induction rs with
    | nil => exact fun _ => rfl
    | cons r rs ih => exact fun pos => congrArg (r.1 :: ·) (ih _)
  rw [hrevs, ← spansFrom, encodeFile, List.length_append]

/-- `Offsets` of a whole file. -/
theorem offsets_encodeFile (hrs : ∀ r ∈ rs, Storable r) :
    offsets (encodeFile rs) = .ok (spansFrom header.length rs, rs.map Prod.fst) := by
  have hscan := scan_encodeFile hrs tornTail_nil
  rw [List.append_nil] at hscan
  rw [offsets, hscan]
  simp

/-- A file cut inside its header is not a log file. -/
theorem scan_short {data : Bytes} (h : data.length < header.length) :
    scan data = .error .badHeader := by
  rw [scan, if_pos]
  intro heq
  have := congrArg List.length heq
  rw [List.length_take] at this
  omega

/-! ## Events read back -/

/-- A `KeyValue` after its numbers went through `int64`. -/
def decodedKeyValue (kv : KeyValue) : KeyValue :=
  { kv with
    createRevision := int64 kv.createRevision
    modRevision := int64 kv.modRevision
    version := int64 kv.version
    lease := int64 kv.lease }

/-- What an event decodes to. -/
def decodedEvent (e : Event) : DecodedEvent where
  type := eventTypeNumber e.type
  kv := some (decodedKeyValue e.kv)
  prevKv := e.prevKv.map decodedKeyValue

theorem int64_wire (x : Int) : int64 (x % 2 ^ 64).toNat = int64 x := by
  unfold int64
  rw [Int.toNat_of_nonneg (by omega)]
  exact Int.emod_bmod x (2 ^ 64)

theorem int64_zero : int64 0 = 0 := by decide

variable {kv : KeyValue}

/-- A varint field of a `KeyValue`. -/
theorem keyValueField_varint {num : Nat} (h1 : 2 ≤ num) (h2 : num ≤ 6) {v : Nat}
    {m rest : Bytes} (hv : consumeVarint m = .ok (v, rest)) :
    keyValueField kv num 0 m = some (.ok (setVarint kv num v, rest)) := by
  simp [keyValueField, h1, h2, hv, Except.map]

theorem parses_marshalKeyValue (h : (marshalKeyValue kv).length < 2 ^ 63) :
    Parses keyValueField { key := [] } (marshalKeyValue kv) (decodedKeyValue kv) := by
  have hfield : ∀ num (b : Bytes), (bytesField num b).length < 2 ^ 63 → b.length < 2 ^ 64 := by
    intro num b hb
    unfold bytesField at hb
    split at hb
    · next hnil => simp [hnil]
    · have := length_messageField num b
      omega
  have hkey : kv.key.length < 2 ^ 64 := by
    refine hfield 1 _ ?_
    simp only [marshalKeyValue, List.length_append] at h
    omega
  have hvalue : kv.value.length < 2 ^ 64 := by
    refine hfield 5 _ ?_
    simp only [marshalKeyValue, List.length_append] at h
    omega
  have hend : marshalKeyValue kv = bytesField 1 kv.key ++ (int64Field 2 kv.createRevision ++
      (int64Field 3 kv.modRevision ++ (int64Field 4 kv.version ++
        (bytesField 5 kv.value ++ (int64Field 6 kv.lease ++ []))))) := by
    simp [marshalKeyValue]
  rw [hend]
  -- The fields in order, each read into the value the ones before it left.
  refine .bytesField ⟨kv.key, 0, 0, 0, [], 0⟩ (by omega) hkey (fun h => by rw [h]) ?_ ?_
  · intro value rest hv
    simp [keyValueField, hv, Except.map]
  refine .int64Field ⟨kv.key, int64 kv.createRevision, 0, 0, [], 0⟩ (by omega)
    (fun h => by rw [h, int64_zero]) ?_ ?_
  · intro value rest hv
    rw [keyValueField_varint (by omega) (by omega) hv, setVarint, int64_wire]
  refine .int64Field ⟨kv.key, int64 kv.createRevision, int64 kv.modRevision, 0, [], 0⟩ (by omega)
    (fun h => by rw [h, int64_zero]) ?_ ?_
  · intro value rest hv
    rw [keyValueField_varint (by omega) (by omega) hv, setVarint, int64_wire]
  refine .int64Field ⟨kv.key, int64 kv.createRevision, int64 kv.modRevision, int64 kv.version,
    [], 0⟩ (by omega) (fun h => by rw [h, int64_zero]) ?_ ?_
  · intro value rest hv
    rw [keyValueField_varint (by omega) (by omega) hv, setVarint, int64_wire]
  refine .bytesField ⟨kv.key, int64 kv.createRevision, int64 kv.modRevision, int64 kv.version,
    kv.value, 0⟩ (by omega) hvalue (fun h => by rw [h]) ?_ ?_
  · intro value rest hv
    simp [keyValueField, hv, Except.map]
  refine .int64Field (decodedKeyValue kv) (by omega)
    (fun h => by rw [decodedKeyValue, h, int64_zero]) ?_ (Parses.nil _)
  intro value rest hv
  rw [keyValueField_varint (by omega) (by omega) hv, setVarint, int64_wire]
  rfl

theorem decodeKeyValueAlias_marshal (h : (marshalKeyValue kv).length < 2 ^ 63) :
    decodeKeyValueAlias (marshalKeyValue kv) = .ok (decodedKeyValue kv) :=
  parses_marshalKeyValue h _ le_rfl

/-- What the decoder returns for an event: its numbers went through `int64` and `int32`. -/
def readBack (e : DecodedEvent) : DecodedEvent where
  type := Int.bmod e.type (2 ^ 32)
  kv := e.kv.map decodedKeyValue
  prevKv := e.prevKv.map decodedKeyValue

/-- The type of an event is read as an `int32`, also from the ten bytes of a negative one. -/
theorem bmod_wire (x : Int) : Int.bmod ((x % 2 ^ 64).toNat : Int) (2 ^ 32) = Int.bmod x (2 ^ 32) := by
  rw [Int.toNat_of_nonneg (by omega), ← Int.emod_bmod (x % 2 ^ 64),
    Int.emod_emod_of_dvd x (by decide : (((2 ^ 32 : Nat) : Int)) ∣ 2 ^ 64), Int.emod_bmod]

/-- An optional message: nothing is written if it is missing. -/
theorem Parses.optional {num : Nat} {x : Option KeyValue} {s t : DecodedEvent} {rest : Bytes}
    (s' : DecodedEvent) (hnum : 1 ≤ num ∧ num ≤ 2 ^ 31 - 1)
    (hlen : (x.elim [] fun kv => messageField num (marshalKeyValue kv)).length < 2 ^ 63)
    (hnone : x = none → s' = s)
    (hfield : ∀ kv, x = some kv → ∀ value rest, consumeBytes value = .ok (marshalKeyValue kv, rest) →
      decodeKeyValueAlias (marshalKeyValue kv) = .ok (decodedKeyValue kv) →
      eventField s num 2 value = some (.ok (s', rest)))
    (h : Parses eventField s' rest t) :
    Parses eventField s ((x.elim [] fun kv => messageField num (marshalKeyValue kv)) ++ rest) t := by
  cases x with
  | none => rwa [Option.elim_none, List.nil_append, ← hnone rfl]
  | some kv =>
    rw [Option.elim_some] at hlen ⊢
    have hshort := length_messageField num (marshalKeyValue kv)
    have hkv := decodeKeyValueAlias_marshal (show (marshalKeyValue kv).length < 2 ^ 63 by omega)
    exact .messageField s' hnum (by omega) (fun value rest hv => hfield kv rfl value rest hv hkv) h

theorem decodeEventAlias_message {e : DecodedEvent} (h : (marshalMessage e).length < 2 ^ 63) :
    decodeEventAlias (marshalMessage e) = .ok (readBack e) := by
  have hlen := h
  simp only [marshalMessage, List.length_append] at hlen
  have hparses : Parses eventField {} (marshalMessage e) (readBack e) := by
    rw [marshalMessage]
    refine .int64Field ⟨Int.bmod e.type (2 ^ 32), none, none⟩ (by omega)
      (fun h => by rw [h]; rfl) ?_ ?_
    · intro value rest hv
      simp only [eventField, hv, Except.map, bmod_wire]
      rfl
    refine Parses.optional ⟨Int.bmod e.type (2 ^ 32), e.kv.map decodedKeyValue, none⟩ (by omega)
      (by omega) (fun hnone => by rw [hnone]; rfl) ?_ ?_
    · intro kv hkv value rest hv hdecode
      simp [eventField, hv, hdecode, Except.map, hkv]
    rw [← List.append_nil (e.prevKv.elim [] _)]
    refine Parses.optional (readBack e) (by omega) (by omega) (fun hnone => by rw [readBack, hnone]; rfl)
      ?_ (Parses.nil _)
    intro kv hkv value rest hv hdecode
    simp [eventField, hv, hdecode, Except.map, readBack, hkv]
  exact hparses _ le_rfl

/-- `DecodeAlias` of any events. -/
theorem decodeAlias_encodeMessage {events : List DecodedEvent}
    (h : (encodeMessage rev events).length < 2 ^ 63) :
    decodeAlias (encodeMessage rev events) = .ok (events.map readBack) := by
  have hevents : ∀ (es : List DecodedEvent) (done : List DecodedEvent),
      (es.flatMap fun e => messageField 11 (marshalMessage e)).length < 2 ^ 63 →
      Parses recordField done (es.flatMap fun e => messageField 11 (marshalMessage e))
        (done ++ es.map readBack) := by
    intro es
    induction es with
    | nil =>
      intro done _
      simpa using Parses.nil done
    | cons e es ih =>
      intro done hlen
      rw [List.flatMap_cons, List.length_append] at hlen
      have hm := length_messageField 11 (marshalMessage e)
      have hevent := decodeEventAlias_message (e := e) (by omega)
      rw [List.flatMap_cons]
      refine .messageField (done ++ [readBack e]) (by omega) (by omega) ?_ ?_
      · intro value rest hv
        simp [recordField, hv, hevent, Except.map]
      · have hrest := ih (done ++ [readBack e]) (by omega)
        rwa [List.append_assoc] at hrest
  have hheader := length_int64Field_le 3 rev
  have hparses : Parses recordField [] (encodeMessage rev events) (events.map readBack) := by
    refine .skipMessage (by omega) (by omega) (fun value => by simp [recordField]) ?_
    refine hevents events [] ?_
    rw [encodeMessage, List.length_append] at h
    omega
  exact hparses _ le_rfl

/-- The message of an event of the store. -/
def wireEvent (e : Event) : DecodedEvent := ⟨eventTypeNumber e.type, some e.kv, e.prevKv⟩

theorem marshalMessage_wireEvent (e : Event) : marshalMessage (wireEvent e) = marshalEvent e :=
  (List.append_assoc _ _ _).symm

theorem encodeMessage_wireEvent (rev : Nat) (record : LogRecord) :
    encodeMessage rev (record.events.map wireEvent) = encodeRecord rev record := by
  rw [encodeMessage, encodeRecord, List.flatMap_map]
  simp only [marshalMessage_wireEvent]

theorem readBack_wireEvent (e : Event) : readBack (wireEvent e) = decodedEvent e := by
  cases htype : e.type <;> simp [readBack, wireEvent, decodedEvent, eventTypeNumber, htype]

/-- `DecodeAlias` returns the events that were encoded. -/
theorem decodeAlias_encodeRecord {record : LogRecord}
    (h : (encodeRecord rev record).length < 2 ^ 63) :
    decodeAlias (encodeRecord rev record) = .ok (record.events.map decodedEvent) := by
  rw [← encodeMessage_wireEvent] at h ⊢
  rw [decodeAlias_encodeMessage h, List.map_map]
  exact congrArg Except.ok (List.map_congr_left fun e _ => readBack_wireEvent e)

end LogCodec

end CloudEtcd
