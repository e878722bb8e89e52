/-
# CloudEtcd.Persistence.RoundTrip — the file format written and read back (`pkg/persistence/logcodec`).

Of the protobuf library the format needs two things, which `Protobuf` carries as fields: a
`WatchResponse` is encoded in field order, so that the header with the revision comes first, and what was
encoded is decoded.  Over any such library and any type of records, `codec_round_trip` says what `Scan`
and `Decode` find in a file that `AppendRecordsAt` wrote: all of it, and of a file cut anywhere behind
its header the records that end at or before the cut.

`logProtobuf` is such a library: the encoder of `LogCodec` with the log's own decoder.
-/
import CloudEtcd.Persistence.Scan

namespace CloudEtcd

open Framing

namespace LogCodec

/-- The end of a span. -/
def Span.stop (s : Span) : Nat := s.offset + s.length

/-- The end of a located record. -/
def endAt (f : Nat × Located) : Nat := (spanAt f).stop

/-- What the log uses of the protobuf library: `MarshalAppend` of a `WatchResponse` with the revision in
its header and the events of a record, and `Unmarshal`. -/
structure Protobuf (ρ : Type*) where
  marshal : Nat → ρ → Bytes
  /-- The events of the message, `none` when the library reports an error. -/
  unmarshal : Bytes → Option ρ
  /-- The fields are written in order: the header, with its revision, is the first. -/
  fieldOrder : ∀ revision r, ∃ events,
    marshal revision r = messageField 1 (int64Field 3 revision) ++ events
  /-- What was encoded is decoded. -/
  decodes : ∀ revision r, (marshal revision r).length < 2 ^ 63 →
    unmarshal (marshal revision r) = some r

/-- The error of `AppendRecordsAt`: "... revisions for ... records". -/
inductive AppendError where
  | mismatch (revisions records : Nat)
  deriving DecidableEq, Repr

namespace Protobuf

variable {ρ : Type*} (P : Protobuf ρ)

/-- The loop of `AppendRecordsAt`. -/
def appendEach (buf : Bytes) : List (Nat × ρ) → Bytes × List Span
  | [] => (buf, [])
  | r :: rs =>
    let m := P.marshal r.1 r.2
    let buf := buf ++ appendVarint m.length
    let span : Span := ⟨buf.length, m.length⟩
    let (buf, spans) := appendEach (buf ++ m) rs
    (buf, span :: spans)

/-- `AppendRecordsAt`. -/
def appendRecordsAt (buf : Bytes) (revisions : List Nat) (records : List ρ) :
    Except AppendError (Bytes × List Span) :=
  if revisions.length ≠ records.length then .error (.mismatch revisions.length records.length)
  else .ok (P.appendEach buf (revisions.zip records))

/-- `EncodedRecord.Decode`. -/
def decode (m : Bytes) : Option ρ := P.unmarshal m

/-- A record with a revision that is a positive `int64` and a message that is a Go slice. -/
def Fits (r : Nat × ρ) : Prop :=
  1 ≤ r.1 ∧ r.1 < 2 ^ 63 ∧ (P.marshal r.1 r.2).length < 2 ^ 63

/-- One record with its length prefix. -/
def frame (r : Nat × ρ) : Bytes :=
  appendVarint (P.marshal r.1 r.2).length ++ P.marshal r.1 r.2

/-- What `Scan` finds of a record. -/
def found (r : Nat × ρ) : Located :=
  ⟨(appendVarint (P.marshal r.1 r.2).length).length, (P.marshal r.1 r.2).length, r.1⟩

/-- `Scan` understands the frames. -/
theorem reads_frames : Framing.Reads nextRecord P.frame P.found P.Fits := by
  refine reads_messages fun r hr => ⟨hr.2.2, ?_⟩
  obtain ⟨events, hmessage⟩ := P.fieldOrder r.1 r.2
  rw [hmessage]
  exact revision_header hr.1 hr.2.1 events

/-- Where the frames of some records stand, as spans. -/
def spans (pos : Nat) (rs : List (Nat × ρ)) : List Span :=
  (layout P.frame P.found pos rs).map spanAt

theorem appendEach_eq (buf : Bytes) (rs : List (Nat × ρ)) :
    P.appendEach buf rs = (buf ++ rs.flatMap P.frame, P.spans buf.length rs) := by
  induction rs generalizing buf with
  | nil => simp [appendEach, spans, layout]
  | cons r rs ih =>
    rw [appendEach, ih]
    simp [spans, layout, spanAt, found, frame]

theorem endAt_found (pos : Nat) (r : Nat × ρ) :
    endAt (pos, P.found r) = pos + (P.frame r).length := by
  simp [endAt, Span.stop, spanAt, found, frame, Nat.add_assoc]

variable {rs : List (Nat × ρ)}

/-- A span holds the message of its record, so decoding it returns the record. -/
theorem decode_spans (before after : Bytes) (hrs : ∀ r ∈ rs, P.Fits r) :
    ((P.spans before.length rs).map fun s =>
      P.decode (s.bytes (before ++ (rs.flatMap P.frame ++ after)))) = rs.map fun r => some r.2 := by
  induction rs generalizing before with
  | nil => rfl
  | cons r rs ih =>
    have hrest := ih (before ++ P.frame r) fun r' hr' => hrs r' (List.mem_cons_of_mem _ hr')
    rw [List.length_append] at hrest
    have hbytes : (spanAt (before.length, P.found r)).bytes
        (before ++ ((r :: rs).flatMap P.frame ++ after)) = P.marshal r.1 r.2 := by
      rw [Span.bytes, spanAt, ← List.drop_drop, List.drop_left, List.flatMap_cons, frame]
      simp [found]
    rw [spans, layout, List.map_cons, List.map_cons, List.map_cons, hbytes, decode,
      P.decodes r.1 r.2 (hrs r List.mem_cons_self).2.2, ← hrest]
    simp [spans]

/-- `Scan` of a header, whole frames and a torn one. -/
theorem scan_frames (hrs : ∀ r ∈ rs, P.Fits r) {tail : Bytes}
    (htail : Framing.Torn P.frame P.Fits tail) :
    scan (header ++ (rs.flatMap P.frame ++ tail)) =
      .ok ⟨P.spans header.length rs,
        (layout P.frame P.found header.length rs).map fun f => f.2.revision,
        header.length + (rs.flatMap P.frame).length⟩ := by
  have hframes := P.reads_frames.scan_append rs hrs htail header.length le_rfl
  rw [scan, List.take_left, if_neg (not_not_intro rfl), List.drop_left]
  simp only [hframes]
  rfl

theorem revisions_layout (pos : Nat) (rs : List (Nat × ρ)) :
    (layout P.frame P.found pos rs).map (fun f => f.2.revision) = rs.map Prod.fst := by
  induction rs generalizing pos with
  | nil => rfl
  | cons r rs ih => exact congrArg (r.1 :: ·) (ih _)

/-- The spans and revisions of some records, pairwise. -/
theorem zip_spans (pos : Nat) (rs : List (Nat × ρ)) :
    (P.spans pos rs).zip (rs.map Prod.fst) =
      (layout P.frame P.found pos rs).map fun f => (spanAt f, f.2.revision) := by
  rw [spans, ← P.revisions_layout pos rs, List.zip_map']

/-- The format round-trips and every torn tail is recovered. -/
theorem codec_round_trip (rs : List (Nat × ρ)) (hrs : ∀ r ∈ rs, P.Fits r) :
    ∃ data spans, P.appendRecordsAt header (rs.map Prod.fst) (rs.map Prod.snd) = .ok (data, spans) ∧
      scan data = .ok ⟨spans, rs.map Prod.fst, data.length⟩ ∧
      (spans.map fun s => P.decode (s.bytes data)) = rs.map (fun r => some r.2) ∧
      ∀ c, header.length ≤ c → c ≤ data.length →
        let kept := (spans.zip (rs.map Prod.fst)).filter fun p => decide (p.1.stop ≤ c)
        scan (data.take c) = .ok ⟨kept.map Prod.fst, kept.map Prod.snd,
          kept.getLast?.elim header.length fun p => p.1.stop⟩ := by
  refine ⟨header ++ rs.flatMap P.frame, P.spans header.length rs, ?_, ?_, ?_, fun c hc _ => ?_⟩
  · have hzip : (rs.map Prod.fst).zip (rs.map Prod.snd) = rs := by
      rw [List.zip_map']
      exact List.map_id _
    rw [appendRecordsAt, if_neg (by simp), hzip, appendEach_eq]
  · have hscan := P.scan_frames hrs (Or.inl rfl)
    rw [List.append_nil, revisions_layout, ← List.length_append] at hscan
    exact hscan
  · have hdecode := P.decode_spans header [] hrs
    rwa [List.append_nil] at hdecode
  · intro kept
    obtain ⟨k, tail, hcut, htorn, hleft⟩ :=
      exists_cut_layout P.endAt_found rs hrs header.length (c - header.length)
    have hkept : kept = (layout P.frame P.found header.length (rs.take k)).map
        fun f => (spanAt f, f.2.revision) := by
      have hpos : header.length + (c - header.length) = c := by omega
      rw [hpos] at hleft
      rw [← hleft]
      change ((P.spans header.length rs).zip (rs.map Prod.fst)).filter _ = _
      rw [P.zip_spans, List.filter_map]
      rfl
    have hdata : (header ++ rs.flatMap P.frame).take c =
        header ++ ((rs.take k).flatMap P.frame ++ tail) := by
      rw [List.take_append, List.take_of_length_le hc, hcut]
    have hscan := P.scan_frames (fun r (hr : r ∈ rs.take k) => hrs r (List.mem_of_mem_take hr)) htorn
    have hstop : kept.getLast?.elim header.length (fun p => p.1.stop) =
        header.length + ((rs.take k).flatMap P.frame).length := by
      rw [hkept, List.getLast?_map,
        ← layout_stop P.endAt_found header.length (rs.take k)]
      cases (layout P.frame P.found header.length (rs.take k)).getLast? <;> rfl
    rw [hdata, hscan, hstop, hkept, List.map_map, List.map_map]
    rfl

end Protobuf

/-! ## The log's own encoder and decoder -/

/-- A Go `int64`. -/
def IsInt64 (x : Int) : Prop := -2 ^ 63 ≤ x ∧ x < 2 ^ 63

instance (x : Int) : Decidable (IsInt64 x) := inferInstanceAs (Decidable (_ ∧ _))

/-- The numbers of a `KeyValue` are `int64`s, as in Go they all are. -/
def TypedKeyValue (kv : KeyValue) : Prop :=
  IsInt64 kv.createRevision ∧ IsInt64 kv.modRevision ∧ IsInt64 kv.version ∧ IsInt64 kv.lease

instance (kv : KeyValue) : Decidable (TypedKeyValue kv) :=
  inferInstanceAs (Decidable (_ ∧ _ ∧ _ ∧ _))

/-- The same of a record. -/
def TypedRecord (r : LogRecord) : Prop :=
  ∀ e ∈ r.events, TypedKeyValue e.kv ∧ ∀ kv ∈ e.prevKv, TypedKeyValue kv

instance (r : LogRecord) : Decidable (TypedRecord r) :=
  inferInstanceAs (Decidable (∀ e ∈ r.events, _ ∧ ∀ kv ∈ e.prevKv, TypedKeyValue kv))

theorem int64_of_isInt64 {x : Int} (h : IsInt64 x) : int64 x = x := by
  obtain ⟨hlo, hhi⟩ := h
  rw [int64, Int.bmod_def]
  split <;> omega

theorem decodedKeyValue_typed {kv : KeyValue} (h : TypedKeyValue kv) : decodedKeyValue kv = kv := by
  obtain ⟨h1, h2, h3, h4⟩ := h
  rw [decodedKeyValue, int64_of_isInt64 h1, int64_of_isInt64 h2, int64_of_isInt64 h3,
    int64_of_isInt64 h4]

/-- The event that a decoded message stands for. -/
def DecodedEvent.event (e : DecodedEvent) : Option Event :=
  e.kv.bind fun kv =>
    if e.type = 0 then some ⟨.put, kv, e.prevKv⟩
    else if e.type = 1 then some ⟨.delete, kv, e.prevKv⟩
    else none

theorem event_decodedEvent {e : Event} (hkv : TypedKeyValue e.kv)
    (hprev : ∀ kv ∈ e.prevKv, TypedKeyValue kv) : (decodedEvent e).event = some e := by
  obtain ⟨type, kv, prevKv⟩ := e
  have hprevKv : prevKv.map decodedKeyValue = prevKv := by
    cases prevKv with
    | none => rfl
    | some prev => exact congrArg some (decodedKeyValue_typed (hprev prev rfl))
  cases type <;>
    simp [decodedEvent, DecodedEvent.event, decodedKeyValue_typed hkv, hprevKv, eventTypeNumber]

theorem mapM_event_decodedEvent {es : List Event} (h : TypedRecord ⟨es⟩) :
    (es.map decodedEvent).mapM DecodedEvent.event = some es := by
  induction es with
  | nil => rfl
  | cons e es ih =>
    have he := h e List.mem_cons_self
    rw [List.map_cons, List.mapM_cons, event_decodedEvent he.1 he.2,
      ih fun e' he' => h e' (List.mem_cons_of_mem _ he')]
    rfl

/-- What a decoded message holds, as a record. -/
def decodedRecord (m : Bytes) : Option LogRecord :=
  ((decodeAlias m).toOption.bind fun events => events.mapM DecodedEvent.event).map LogRecord.mk

theorem decodedRecord_encodeRecord {rev : Nat} {r : LogRecord} (h : TypedRecord r)
    (hlen : (encodeRecord rev r).length < 2 ^ 63) :
    decodedRecord (encodeRecord rev r) = some r := by
  rw [decodedRecord, decodeAlias_encodeRecord hlen]
  change Option.map _ ((r.events.map decodedEvent).mapM DecodedEvent.event) = _
  rw [mapM_event_decodedEvent h]
  rfl

/-- `EncodedRecord.Decode` for the records of the log, by a library that decodes what was encoded. -/
structure Decoder where
  decode : Bytes → Option LogRecord
  decodes : ∀ revision r, TypedRecord r → (encodeRecord revision r).length < 2 ^ 63 →
    decode (encodeRecord revision r) = some r

/-- The log's own decoder is one. -/
def logDecoder : Decoder := ⟨decodedRecord, fun _ _ => decodedRecord_encodeRecord⟩

/-- The encoder of the log with the decoder of its own. -/
def logProtobuf : Protobuf {r : LogRecord // TypedRecord r} where
  marshal revision r := encodeRecord revision r.1
  unmarshal m := (decodedRecord m).bind fun r => if h : TypedRecord r then some ⟨r, h⟩ else none
  fieldOrder _ _ := ⟨_, rfl⟩
  decodes revision r hlen := by
    rw [decodedRecord_encodeRecord r.2 hlen]
    exact dif_pos r.2

/-- A record without events and one with a length prefix of two bytes, cut between these. -/
theorem codec_round_trip_cut :
    let put : Event := ⟨.put, { key := [1], value := List.replicate 130 7, version := 1 }, none⟩
    let rs : List (Nat × {r : LogRecord // TypedRecord r}) :=
      [(1, ⟨⟨[]⟩, by decide⟩), (300, ⟨⟨[put]⟩, by decide⟩)]
    (∀ r ∈ rs, logProtobuf.Fits r) ∧
      ∃ data spans, logProtobuf.appendRecordsAt header (rs.map Prod.fst) (rs.map Prod.snd) =
          .ok (data, spans) ∧
        data.length = 171 ∧
        scan data = .ok ⟨spans, [1, 300], 171⟩ ∧
        scan (data.take 21) = .ok ⟨[⟨16, 4⟩], [1], 20⟩ := by
  intro put rs
  have hfits : ∀ r ∈ rs, logProtobuf.Fits r := by
    intro r hr
    rcases List.mem_cons.mp hr with rfl | hr
    · unfold Protobuf.Fits
      decide +kernel
    · rw [List.mem_singleton.mp hr]
      unfold Protobuf.Fits
      decide +kernel
  obtain ⟨data, spans, happend, hscan, -, hcut⟩ := logProtobuf.codec_round_trip rs hfits
  have hrun : ((logProtobuf.appendRecordsAt header (rs.map Prod.fst) (rs.map Prod.snd)).toOption.map
      fun p => (p.1.length, p.2)) = some (171, [⟨16, 4⟩, ⟨22, 149⟩]) := by decide +kernel
  rw [happend] at hrun
  obtain ⟨hlen, hspans⟩ := Prod.mk.inj (Option.some.inj hrun)
  change data.length = 171 at hlen
  change spans = _ at hspans
  rw [hlen] at hscan hcut
  refine ⟨hfits, data, spans, happend, hlen, hscan, ?_⟩
  have hleft := hcut 21 (by decide) (by omega)
  rw [hspans] at hleft
  exact hleft

end LogCodec

end CloudEtcd
