/-
# CloudEtcd.Persistence.AliasDecoder — the decoder of the log's own against the library's.

`DecodeAlias` reads three nested messages by hand, `Decode` leaves them to the protobuf library.  Of the
library the wire encoding is taken as it is (`encodeMessage`: fields in the order of their numbers, zero and
empty ones left out, messages present even when they are empty), and of its decoder that it returns what was
encoded.
-/
import CloudEtcd.Persistence.RoundTrip

namespace CloudEtcd

namespace LogCodec

/-- A Go `int32`, as which an enumeration is stored. -/
def IsInt32 (x : Int) : Prop := -2 ^ 31 ≤ x ∧ x < 2 ^ 31

instance (x : Int) : Decidable (IsInt32 x) := inferInstanceAs (Decidable (_ ∧ _))

/-- The numbers of an event are those of Go's types. -/
structure DecodedEvent.Typed (e : DecodedEvent) : Prop where
  type : IsInt32 e.type
  kv : ∀ kv ∈ e.kv, TypedKeyValue kv
  prevKv : ∀ kv ∈ e.prevKv, TypedKeyValue kv

/-- `proto.Unmarshal` into a `WatchResponse`, by a library that decodes what was encoded. -/
structure Unmarshaler where
  unmarshal : Bytes → Option (List DecodedEvent)
  decodes : ∀ revision events, (∀ e ∈ events, e.Typed) →
    (encodeMessage revision events).length < 2 ^ 63 →
    unmarshal (encodeMessage revision events) = some events

/-- `EncodedRecord.Decode`. -/
def Unmarshaler.decode (L : Unmarshaler) (m : Bytes) : Option (List DecodedEvent) := L.unmarshal m

theorem map_decodedKeyValue_typed {x : Option KeyValue} (h : ∀ kv ∈ x, TypedKeyValue kv) :
    x.map decodedKeyValue = x := by
  cases x with
  | none => rfl
  | some kv => exact congrArg some (decodedKeyValue_typed (h kv rfl))

/-- An event whose numbers have Go's types comes back as it was. -/
theorem readBack_typed {e : DecodedEvent} (h : e.Typed) : readBack e = e := by
  obtain ⟨hlo, hhi⟩ := h.type
  have htype : Int.bmod e.type (2 ^ 32) = e.type := by
    rw [Int.bmod_def]
    split <;> omega
  rw [readBack, htype, map_decodedKeyValue_typed h.kv, map_decodedKeyValue_typed h.prevKv]

/-- The decoder of the log's own is as good as a library. -/
def aliasUnmarshaler : Unmarshaler where
  unmarshal m := (decodeAlias m).toOption
  decodes revision events htyped hlen := by
    rw [decodeAlias_encodeMessage hlen, List.map_congr_left fun e he => readBack_typed (htyped e he)]
    exact congrArg some (List.map_id events)

/-- `DecodeAlias` of a record's encoding returns the events that `Decode` returns, which are those of the
record, and `Revision` returns its revision. -/
theorem decodeAlias_agrees (L : Unmarshaler) {rev : Nat} {events : List DecodedEvent} (h1 : 1 ≤ rev)
    (h2 : rev < 2 ^ 63) (htyped : ∀ e ∈ events, e.Typed)
    (hlen : (encodeMessage rev events).length < 2 ^ 63) :
    decodeAlias (encodeMessage rev events) = .ok events ∧
      L.decode (encodeMessage rev events) = some events ∧
      revision (encodeMessage rev events) = .ok rev := by
  refine ⟨?_, L.decodes rev events htyped hlen, revision_header h1 h2 _⟩
  rw [decodeAlias_encodeMessage hlen, List.map_congr_left fun e he => readBack_typed (htyped e he)]
  exact congrArg Except.ok (List.map_id events)

/-- Negative numbers, an unknown type, a missing `Kv` beside a `PrevKv`, empty messages. -/
theorem decodeAlias_agrees_rare :
    let kv : KeyValue := { key := [], createRevision := -1, version := -2 ^ 63, value := [0], lease := -7 }
    let events : List DecodedEvent :=
      [⟨-5, none, some kv⟩, ⟨0, some { key := [] }, none⟩, ⟨0, none, none⟩, ⟨1, some kv, some kv⟩]
    decodeAlias (encodeMessage 300 events) = .ok events ∧
      aliasUnmarshaler.decode (encodeMessage 300 events) = some events ∧
      revision (encodeMessage 300 events) = .ok 300 := by
  intro kv events
  have hkv : TypedKeyValue kv := by decide
  have htyped : ∀ e ∈ events, e.Typed := by
    intro e he
    simp only [events, List.mem_cons, List.not_mem_nil, or_false] at he
    rcases he with rfl | rfl | rfl | rfl
    · exact ⟨by decide, fun _ h => (by cases h), fun _ h => Option.some.inj h ▸ hkv⟩
    · exact ⟨by decide, fun _ h => Option.some.inj h ▸ (by decide), fun _ h => (by cases h)⟩
    · exact ⟨by decide, fun _ h => (by cases h), fun _ h => (by cases h)⟩
    · exact ⟨by decide, fun _ h => Option.some.inj h ▸ hkv, fun _ h => Option.some.inj h ▸ hkv⟩
  exact decodeAlias_agrees aliasUnmarshaler (by decide) (by decide) htyped (by decide +kernel)

end LogCodec

end CloudEtcd
