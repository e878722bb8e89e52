/-
# CloudEtcd.Persistence.ScanSafety — `Scan` on arbitrary bytes.

The model of `Scan` in `CloudEtcd.Persistence.Scan` takes what is left of the input from one round to the
next.  The code keeps a position, an `int`, computes with it and with a length, a `uint64` that the file
says, and slices the file.  `Checked.scan` is that: a slice out of range is a panic, sums and conversions
wrap, and a loop that is not over after one round for every byte counts as endless.  None of this happens
(`Checked.scan_eq`), because the `Consume*` functions leave a proper end of what they were given.

What `Scan` takes as complete is tiled by the records with their length prefixes, and scans the same by
itself (`scan_safe_and_stable`).
-/
import CloudEtcd.Persistence.RoundTrip

namespace CloudEtcd

namespace LogCodec

open Protowire

/-! ## The code, with its positions -/

/-- The Go expression `data[i:j]`; it panics unless `0 ≤ i ≤ j ≤ len(data)`. -/
def slice (data : Bytes) (i j : Int) : Option Bytes :=
  if 0 ≤ i ∧ i ≤ j ∧ j ≤ data.length then some ((data.drop i.toNat).take (j - i).toNat) else none

/-- The number of bytes read, which the `Consume*` functions return. -/
def taken (data rest : Bytes) : Int := data.length - rest.length

/-- The Go conversion `uint64(v)`. -/
def uint64 (v : Int) : Nat := (v % 2 ^ 64).toNat

namespace Checked

/-- The loops of `EncodedRecord.Revision` over the fields of the record and of its header: one field is
read, the others are skipped. -/
def fieldLoop (field wireType : Nat) (read : Bytes → Option (Except RecordError Nat))
    (missing : RecordError) : Nat → Bytes → Option (Except RecordError Nat)
  | 0, _ => none
  | fuel + 1, m =>
    if m.length = 0 then some (.error missing)
    else
      match consumeTag m with
      | .error e => some (.error (.parse e))
      | .ok (num, typ, rest) =>
        (slice m (taken m rest) m.length).bind fun m =>
          if num = field ∧ typ = wireType then read m
          else
            match consumeFieldValue num typ m with
            | .error e => some (.error (.parse e))
            | .ok rest =>
              (slice m (taken m rest) m.length).bind (fieldLoop field wireType read missing fuel)

/-- The loop over the header. -/
def headerRevision : Nat → Bytes → Option (Except RecordError Nat) :=
  fieldLoop 3 0 (fun h =>
    match consumeVarint h with
    | .error e => some (.error (.parse e))
    | .ok (v, _) => some (.ok v)) .noRevision

/-- The loop over the record. -/
def recordRevision : Nat → Bytes → Option (Except RecordError Nat) :=
  fieldLoop 1 2 (fun m =>
    match consumeBytes m with
    | .error e => some (.error (.parse e))
    | .ok (h, _) => headerRevision (h.length + 1) h) .noHeader

/-- `EncodedRecord.Revision`. -/
def revision (m : Bytes) : Option (Except RecordError Nat) := recordRevision (m.length + 1) m

/-- The loop of `Scan`. -/
def scanFrom (data : Bytes) : Nat → Int → List Span → List Nat → Option (Except ScanError Scanned)
  | 0, _, _, _ => none
  | fuel + 1, pos, spans, revisions =>
    if pos < data.length then
      (slice data pos data.length).bind fun tail =>
        match consumeVarint tail with
        | .error .truncated => some (.ok ⟨spans, revisions, pos.toNat⟩)
        | .error e => some (.error (.record spans.length (.parse e)))
        | .ok (n, rest) =>
          let k := taken tail rest
          if uint64 (data.length - pos - k) < n then some (.ok ⟨spans, revisions, pos.toNat⟩)
          else
            (slice data (pos + k) (int64 (pos + k + int64 n))).bind fun m =>
              (revision m).bind fun
                | .error e => some (.error (.record spans.length e))
                | .ok rev =>
                  scanFrom data fuel (int64 (pos + (k + int64 n)))
                    (spans ++ [⟨(pos + k).toNat, (int64 n).toNat⟩]) (revisions ++ [rev])
    else some (.ok ⟨spans, revisions, pos.toNat⟩)

/-- `Scan`. -/
def scan (data : Bytes) : Option (Except ScanError Scanned) :=
  if data.take header.length ≠ header then some (.error .badHeader)
  else scanFrom data (data.length + 1) header.length [] []

/-- `Offsets`. -/
def offsets (data : Bytes) : Option (Except ScanError (List Span × List Nat)) :=
  (scan data).map fun
    | .error e => .error e
    | .ok s =>
      if s.complete ≠ data.length then .error (.truncated s.spans.length)
      else .ok (s.spans, s.revisions)

end Checked

/-! ## What the readers leave -/

section Readers

variable {b data rest : Bytes}

theorem slice_eq {i j : Nat} (hij : i ≤ j) (hj : j ≤ data.length) :
    slice data i j = some ((data.drop i).take (j - i)) := by
  rw [slice, if_pos (by omega)]
  congr 2
  omega

theorem slice_rest (h : rest <:+ data) : slice data (taken data rest) data.length = some rest := by
  obtain ⟨front, rfl⟩ := h
  have htaken : taken (front ++ rest) rest = (front.length : Nat) := by
    simp [taken]
  rw [htaken, slice_eq (by simp) le_rfl, List.drop_left, List.length_append, Nat.add_sub_cancel_left,
    List.take_length]

/-- A varint is read whatever follows it. -/
theorem varintLoop_local {more v : Nat} (h : varintLoop more b = .ok (v, rest)) :
    v < 2 ^ (7 * more + 1) ∧ ∃ front, front ≠ [] ∧ b = front ++ rest ∧
      ∀ t, varintLoop more (front ++ t) = .ok (v, t) := by
  induction more generalizing b v with
  | zero =>
    cases b with
    | nil => cases h
    | cons x b =>
      rw [varintLoop] at h
      split at h
      · next hx =>
        cases h
        exact ⟨by omega, [x], by simp, rfl, fun t => by simp [varintLoop, hx]⟩
      · cases h
  | succ more ih =>
    have hpow : 2 ^ (7 * (more + 1) + 1) = 128 * 2 ^ (7 * more + 1) := by
      rw [show 7 * (more + 1) + 1 = 7 + (7 * more + 1) by omega, Nat.pow_add]
    cases b with
    | nil => cases h
    | cons x b =>
      rw [varintLoop] at h
      split at h
      · next hx =>
        cases h
        have := Nat.two_pow_pos (7 * more + 1)
        exact ⟨by omega, [x], by simp, rfl, fun t => by simp [varintLoop, hx]⟩
      · next hx =>
        split at h
        · next w rest' hrest =>
          cases h
          obtain ⟨hw, front, -, rfl, hfront⟩ := ih hrest
          have := x.toNat_lt
          refine ⟨by omega, x :: front, by simp, rfl, fun t => ?_⟩
          rw [List.cons_append, varintLoop, if_neg hx, hfront]
        · cases h

theorem consumeVarint_local {v : Nat} (h : consumeVarint b = .ok (v, rest)) :
    v < 2 ^ 64 ∧ ∃ front, front ≠ [] ∧ b = front ++ rest ∧
      ∀ t, consumeVarint (front ++ t) = .ok (v, t) :=
  varintLoop_local h

/-- What is left is a proper end. -/
def Shrinks (b rest : Bytes) : Prop := rest <:+ b ∧ rest.length < b.length

theorem shrinks_consumeVarint {v : Nat} (h : consumeVarint b = .ok (v, rest)) : Shrinks b rest := by
  obtain ⟨-, front, hne, rfl, -⟩ := consumeVarint_local h
  refine ⟨List.suffix_append _ _, ?_⟩
  rw [List.length_append]
  exact Nat.lt_add_of_pos_left (List.length_pos_of_ne_nil hne)

theorem shrinks_consumeTag {num typ : Nat} (h : consumeTag b = .ok (num, typ, rest)) :
    Shrinks b rest := by
  unfold consumeTag at h
  split at h
  · cases h
  · next v rest' hv =>
    split at h
    · cases h
    · cases h
      exact shrinks_consumeVarint hv

theorem suffix_consumeScalar {typ : Nat} (h : consumeScalar typ b = .ok rest) : rest <:+ b := by
  have hfixed : ∀ {n}, consumeFixed n b = .ok rest → rest <:+ b := by
    intro n hn
    unfold consumeFixed at hn
    split at hn
    · cases hn
    · cases hn
      exact List.drop_suffix _ _
  unfold consumeScalar at h
  split at h
  · cases hv : consumeVarint b with
    | error e =>
      rw [hv] at h
      cases h
    | ok v =>
      rw [hv] at h
      cases h
      exact (shrinks_consumeVarint hv).1
  · exact hfixed h
  · unfold consumeBytes at h
    split at h
    · cases h
    · next hn =>
      split at h
      · cases h
      · cases h
        exact (List.drop_suffix _ _).trans (shrinks_consumeVarint hn).1
  · cases h
  · exact hfixed h
  · cases h

theorem suffix_consumeGroup {fuel depth num : Nat} (h : consumeGroup fuel depth num b = .ok rest) :
    rest <:+ b := by
  induction fuel generalizing depth num b rest with
  | zero => cases h
  | succ fuel ih =>
    rw [consumeGroup] at h
    split at h
    · cases h
    · next num2 typ2 rest' htag =>
      have htag := (shrinks_consumeTag htag).1
      split at h
      · split at h
        · cases h
        · cases h
          exact htag
      · dsimp only at h
        split at h
        · cases h
        · next value hvalue =>
          refine (ih h).trans (List.IsSuffix.trans ?_ htag)
          split at hvalue
          · split at hvalue
            · cases hvalue
            · exact ih hvalue
          · exact suffix_consumeScalar hvalue

theorem suffix_consumeFieldValue {num typ : Nat} (h : consumeFieldValue num typ b = .ok rest) :
    rest <:+ b := by
  unfold consumeFieldValue at h
  split at h
  · exact suffix_consumeGroup h
  · exact suffix_consumeScalar h

end Readers

/-! ## No panic -/

variable {data : Bytes}

namespace Checked

/-- A loop over fields that cannot panic and has the fuel it needs. -/
theorem fieldLoop_eq {field wireType : Nat} {read : Bytes → Except RecordError Nat}
    {missing : RecordError} {loop : Nat → Bytes → Except RecordError Nat}
    (hnil : ∀ fuel, loop fuel [] = .error missing)
    (hcons : ∀ fuel b m, loop (fuel + 1) (b :: m) =
      match consumeTag (b :: m) with
      | .error e => .error (.parse e)
      | .ok (num, typ, m) =>
        if num = field ∧ typ = wireType then read m
        else
          match consumeFieldValue num typ m with
          | .error e => .error (.parse e)
          | .ok m => loop fuel m)
    {fuel fuel' : Nat} {m : Bytes} (hfuel : m.length < fuel) (hfuel' : m.length ≤ fuel') :
    fieldLoop field wireType (fun m => some (read m)) missing fuel m = some (loop fuel' m) := by
  induction fuel generalizing fuel' m with
  | zero => omega
  | succ fuel ih =>
    cases m with
    | nil =>
      rw [hnil]
      rfl
    | cons x m =>
      obtain ⟨fuel', rfl⟩ : ∃ n, fuel' = n + 1 :=
        Nat.exists_eq_succ_of_ne_zero (by simp at hfuel'; omega)
      rw [fieldLoop, hcons, if_neg (by simp)]
      cases htag : consumeTag (x :: m) with
      | error e => rfl
      | ok found =>
        obtain ⟨num, typ, rest⟩ := found
        obtain ⟨hrest, hlt⟩ := shrinks_consumeTag htag
        simp only [slice_rest hrest, Option.bind_some]
        split
        · rfl
        · cases hvalue : consumeFieldValue num typ rest with
          | error e => rfl
          | ok rest' =>
            have hsuffix := suffix_consumeFieldValue hvalue
            have hle := hsuffix.length_le
            simp only [slice_rest hsuffix, Option.bind_some]
            exact ih (by omega) (by omega)

theorem headerRevision_eq (h : Bytes) :
    headerRevision (h.length + 1) h = some (LogCodec.headerRevision h.length h) := by
  rw [← fieldLoop_eq (fun fuel => by cases fuel <;> rfl) (fun _ _ _ => rfl) (Nat.lt_succ_self _) le_rfl,
    headerRevision]
  congr 1
  funext m
  cases consumeVarint m <;> rfl

theorem revision_eq (m : Bytes) : revision m = some (LogCodec.revision m) := by
  rw [LogCodec.revision, ← fieldLoop_eq (fun fuel => by cases fuel <;> rfl) (fun _ _ _ => rfl)
    (Nat.lt_succ_self _) le_rfl, revision, recordRevision]
  congr 1
  funext m
  cases consumeBytes m with
  | error e => rfl
  | ok h => exact headerRevision_eq h.1

/-- No sum of `Scan` wraps as long as the record lies in the file. -/
theorem sums_exact {pos lead n len : Nat} (hlen : len < 2 ^ 63) (h : pos + lead + n ≤ len) :
    int64 n = n ∧ int64 (pos + lead + n) = ((pos + lead + n : Nat) : Int) ∧
      int64 (pos + (lead + n)) = ((pos + (lead + n) : Nat) : Int) := by
  refine ⟨int64_of_isInt64 ?_, int64_of_isInt64 ?_, int64_of_isInt64 ?_⟩ <;> constructor <;> omega

theorem uint64_room {pos lead rest len : Nat} (hlen : len < 2 ^ 63) (h : pos + lead + rest = len) :
    uint64 (len - pos - lead) = rest := by
  rw [uint64]
  omega

theorem scanFrom_eq (hlen : data.length < 2 ^ 63) {fuel fuel' pos : Nat}
    (hpos : pos ≤ data.length) (hfuel : data.length - pos < fuel)
    (hfuel' : data.length - pos ≤ fuel') (spans : List Span) (revisions : List Nat) :
    scanFrom data fuel pos spans revisions =
      some (match Framing.scan nextRecord fuel' pos (data.drop pos) with
        | .error (i, e) => .error (.record (spans.length + i) e)
        | .ok (found, complete) => .ok ⟨spans ++ found.map spanAt,
            revisions ++ found.map fun f => f.2.revision, complete⟩) := by
  induction fuel generalizing fuel' pos spans revisions with
  | zero => omega
  | succ fuel ih =>
    rw [scanFrom]
    split
    · next hlt =>
      rw [slice_eq hpos le_rfl, List.take_of_length_le (by simp), Option.bind_some]
      generalize htail : data.drop pos = tail
      have htotal : pos + tail.length = data.length := by
        rw [← htail, List.length_drop]
        omega
      obtain ⟨b, bs, rfl⟩ := List.exists_cons_of_length_pos (show 0 < tail.length by omega)
      obtain ⟨fuel', rfl⟩ : ∃ n, fuel' = n + 1 := Nat.exists_eq_succ_of_ne_zero (by omega)
      rw [Framing.scan, nextRecord]
      cases hv : consumeVarint (b :: bs) with
      | error e => cases e <;> simp
      | ok found =>
        obtain ⟨n, rest⟩ := found
        obtain ⟨-, front, hne, hsplit, -⟩ := consumeVarint_local hv
        have hlead := List.length_pos_of_ne_nil hne
        have hsum : pos + front.length + rest.length = data.length := by
          rw [Nat.add_assoc, ← List.length_append, ← hsplit, htotal]
        have htaken : taken (b :: bs) rest = (front.length : Nat) := by
          simp [taken, hsplit]
        have hlength : (b :: bs).length - rest.length = front.length := by
          simp [hsplit]
        simp only [htaken, uint64_room hlen hsum, hlength]
        by_cases hshort : rest.length < n
        · simp [hshort]
        · have hrest : data.drop (pos + front.length) = rest := by
            rw [← List.drop_drop, htail, hsplit, List.drop_left]
          have hstop : pos + front.length + n ≤ data.length := by omega
          have hround := @ih fuel' (pos + (front.length + n)) (by omega) (by omega) (by omega)
          obtain ⟨hn, hend, hnext⟩ := sums_exact hlen hstop
          simp only [hshort, if_false, hn, hend, hnext]
          rw [← Nat.cast_add, slice_eq (Nat.le_add_right _ _) hstop, hrest,
            Nat.add_sub_cancel_left, Option.bind_some, revision_eq, Option.bind_some]
          cases LogCodec.revision (rest.take n) with
          | error e => simp
          | ok rev =>
            have hround := hround (spans ++ [⟨pos + front.length, n⟩]) (revisions ++ [rev])
            rw [← List.drop_drop, htail] at hround
            simp only [Int.toNat_natCast, hround]
            cases Framing.scan nextRecord fuel' (pos + (front.length + n))
                ((b :: bs).drop (front.length + n)) with
            | error e => simp [Nat.add_assoc, Nat.add_comm 1]
            | ok found => simp [spanAt]
    · next hge =>
      have heq : pos = data.length := by omega
      rw [heq, List.drop_length, Framing.scan_nil]
      simp

/-- `Scan` ends without a panic, with the result that the model has. -/
theorem scan_eq (hlen : data.length < 2 ^ 63) : scan data = some (LogCodec.scan data) := by
  unfold scan LogCodec.scan
  split
  · rfl
  · next hheader =>
    have hle : header.length ≤ data.length := by
      have htake := congrArg List.length (not_not.mp hheader)
      rw [List.length_take] at htake
      omega
    have hrest : (data.drop header.length).length = data.length - header.length := List.length_drop
    rw [scanFrom_eq hlen hle (by omega) hrest.ge [] []]
    rcases hscan : Framing.scan nextRecord (data.drop header.length).length header.length
      (data.drop header.length) with ⟨i, e⟩ | ⟨found, complete⟩
    · simp only [hscan, List.length_nil, Nat.zero_add]
    · simp only [hscan, List.nil_append]

end Checked

/-! ## What is complete -/

/-- From `pos` to `stop` the file is length prefixes, each with the message of the next span, in whose
header the next revision stands. -/
def Tiled (data : Bytes) : Nat → List Span → List Nat → Nat → Prop
  | pos, [], [], stop => pos = stop
  | pos, s :: spans, r :: revisions, stop =>
    pos < s.offset ∧ consumeVarint ((data.drop pos).take (s.offset - pos)) = .ok (s.length, []) ∧
      revision (s.bytes data) = .ok r ∧ Tiled data (s.offset + s.length) spans revisions stop
  | _, _, _, _ => False

theorem Tiled.bounds {pos stop : Nat} {spans : List Span} {revisions : List Nat}
    (h : Tiled data pos spans revisions stop) :
    pos ≤ stop ∧ (spans.Pairwise fun a b => a.offset + a.length < b.offset) ∧
      ∀ s ∈ spans, pos < s.offset ∧ s.offset + s.length ≤ stop := by
  induction spans generalizing pos revisions with
  | nil =>
    cases revisions with
    | nil => exact ⟨Nat.le_of_eq h, List.Pairwise.nil, nofun⟩
    | cons r revisions => cases h
  | cons s spans ih =>
    cases revisions with
    | nil => cases h
    | cons r revisions =>
      obtain ⟨hlt, -, -, hrest⟩ := h
      obtain ⟨hle, hasc, hin⟩ := ih hrest
      refine ⟨by omega, List.pairwise_cons.mpr ⟨fun s' hs' => (hin s' hs').1, hasc⟩, fun s' hs' => ?_⟩
      rcases List.mem_cons.mp hs' with rfl | hs'
      · exact ⟨hlt, hle⟩
      · obtain ⟨h1, h2⟩ := hin s' hs'
        exact ⟨by omega, h2⟩

/-- What a round of `Scan` has found. -/
theorem nextRecord_frame {input : Bytes} {found : Located} {n : Nat}
    (h : nextRecord input = .frame found n) :
    ∃ front m tail rev, front ≠ [] ∧ input = front ++ (m ++ tail) ∧
      (∀ t, consumeVarint (front ++ t) = .ok (m.length, t)) ∧ revision m = .ok rev ∧
      found = ⟨front.length, m.length, rev⟩ ∧ n = front.length + m.length := by
  unfold nextRecord at h
  split at h
  · cases h
  · cases h
  · next v rest hv =>
    split at h
    · cases h
    · next hroom =>
      split at h
      · cases h
      · next rev hrev =>
        cases h
        obtain ⟨-, front, hne, rfl, hfront⟩ := consumeVarint_local hv
        have hlen : (rest.take v).length = v := List.length_take_of_le (not_lt.mp hroom)
        refine ⟨front, rest.take v, rest.drop v, rev, hne, ?_, ?_, hrev, ?_, ?_⟩
        · rw [List.take_append_drop]
        · rw [hlen]
          exact hfront
        · simp [hlen]
        · simp [hlen]

theorem local_nextRecord : Framing.Local nextRecord where
  bounds h := by
    obtain ⟨front, m, tail, rev, hne, rfl, -, -, -, rfl⟩ := nextRecord_frame h
    have hpos := List.length_pos_of_ne_nil hne
    refine ⟨by omega, ?_⟩
    simp only [List.length_append]
    omega
  take h k hk := by
    obtain ⟨front, m, tail, rev, -, rfl, hfront, hrev, rfl, rfl⟩ := nextRecord_frame h
    rw [← List.append_assoc, List.take_append, List.take_of_length_le (by simpa using hk),
      List.append_assoc]
    exact nextRecord_message hfront hrev _

theorem tiled_of_scan {fuel pos complete : Nat} {found : List (Nat × Located)}
    (h : Framing.scan nextRecord fuel pos (data.drop pos) = .ok (found, complete)) :
    Tiled data pos (found.map spanAt) (found.map fun f => f.2.revision) complete := by
  induction fuel generalizing pos found with
  | zero =>
    cases h
    rfl
  | succ fuel ih =>
    cases htail : data.drop pos with
    | nil =>
      rw [htail] at h
      cases h
      rfl
    | cons b bs =>
      rw [htail, Framing.scan] at h
      split at h
      · cases h
        rfl
      · cases h
      · next item n hframe =>
        split at h
        · next found' complete' hrest =>
          cases h
          rw [← htail, List.drop_drop] at hrest
          obtain ⟨front, m, tail, rev, hne, hsplit, hfront, hrev, rfl, rfl⟩ :=
            nextRecord_frame hframe
          have hprefix := hfront []
          have hmessage : (data.drop (pos + front.length)).take m.length = m := by
            rw [← List.drop_drop, htail, hsplit, List.drop_left, List.take_left]
          rw [List.append_nil] at hprefix
          refine ⟨Nat.lt_add_of_pos_right (List.length_pos_of_ne_nil hne), ?_, ?_, ?_⟩
          · show consumeVarint ((data.drop pos).take (pos + front.length - pos)) = _
            rw [Nat.add_sub_cancel_left, htail, hsplit, List.take_left]
            exact hprefix
          · show revision ((data.drop (pos + front.length)).take m.length) = _
            rw [hmessage]
            exact hrev
          · show Tiled data (pos + front.length + m.length) _ _ _
            rw [Nat.add_assoc]
            exact ih hrest
        · cases h

theorem scan_eq_ok {s : Scanned} : scan data = .ok s ↔
    data.take header.length = header ∧ ∃ found,
      Framing.scan nextRecord (data.drop header.length).length header.length
        (data.drop header.length) = .ok (found, s.complete) ∧
      s.spans = found.map spanAt ∧ s.revisions = found.map fun f => f.2.revision := by
  unfold scan
  split
  · next hheader => exact iff_of_false nofun fun h => hheader h.1
  · next hheader =>
    dsimp only
    split
    · next heq =>
      refine iff_of_false nofun ?_
      rintro ⟨-, found, hfound, -⟩
      rw [heq] at hfound
      cases hfound
    · next found complete heq =>
      constructor
      · intro h
        cases h
        exact ⟨not_not.mp hheader, found, heq, rfl, rfl⟩
      · rintro ⟨-, found', hfound, hspans, hrevisions⟩
        rw [heq] at hfound
        cases hfound
        rw [← hspans, ← hrevisions]

/-- On every byte string `Scan` ends without an access out of range.  If it succeeds, the spans are
disjoint, ascending and inside the file, the records with their length prefixes tile it from the header to
`complete`, and the file cut there scans the same, so that `Offsets` accepts it. -/
theorem scan_safe_and_stable {data : Bytes} (hlen : data.length < 2 ^ 63) :
    ∃ result, Checked.scan data = some result ∧ ∀ s, result = .ok s →
      (s.spans.Pairwise fun a b => a.offset + a.length < b.offset) ∧
      (∀ a ∈ s.spans, a.offset + a.length ≤ data.length) ∧
      Tiled data header.length s.spans s.revisions s.complete ∧ s.complete ≤ data.length ∧
      (data.take s.complete).length = s.complete ∧
      Checked.scan (data.take s.complete) = some (.ok s) ∧
      Checked.offsets (data.take s.complete) = some (.ok (s.spans, s.revisions)) := by
  refine ⟨_, Checked.scan_eq hlen, fun s hs => ?_⟩
  obtain ⟨hheader, found, hframes, hspans, hrevisions⟩ := scan_eq_ok.mp hs
  have htiled : Tiled data header.length s.spans s.revisions s.complete := by
    rw [hspans, hrevisions]
    exact tiled_of_scan hframes
  obtain ⟨hle, hge, hsame⟩ := local_nextRecord.scan_take hframes
  obtain ⟨-, hasc, hin⟩ := htiled.bounds
  have hcomplete : s.complete ≤ data.length := by
    have hfull := congrArg List.length hheader
    rw [List.length_take] at hfull
    rw [List.length_drop] at hge
    omega
  have htake : (data.take s.complete).length = s.complete := List.length_take_of_le hcomplete
  have hagain : scan (data.take s.complete) = .ok s := by
    refine scan_eq_ok.mpr ⟨?_, found, ?_, hspans, hrevisions⟩
    · rw [List.take_take, Nat.min_eq_left hle]
      exact hheader
    · rw [List.length_drop, htake, List.drop_take]
      exact hsame _ le_rfl
  have hchecked : Checked.scan (data.take s.complete) = some (.ok s) := by
    rw [Checked.scan_eq (by omega), hagain]
  refine ⟨hasc, fun a ha => (hin a ha).2.trans hcomplete, htiled, hcomplete, htake, hchecked, ?_⟩
  rw [Checked.offsets, hchecked]
  simp [htake]

/-- A record, and a length prefix of `2 ^ 64 - 1` behind it. -/
def hugeTail : Bytes :=
  encodeFile [(1, ⟨[]⟩)] ++ [255, 255, 255, 255, 255, 255, 255, 255, 255, 1, 0]

theorem scan_safe_and_stable_hugeTail :
    Checked.scan hugeTail = some (.ok ⟨[⟨16, 4⟩], [1], 20⟩) ∧
    Checked.offsets (hugeTail.take 20) = some (.ok ([⟨16, 4⟩], [1])) := by
  have hscan : Checked.scan hugeTail = some (.ok ⟨[⟨16, 4⟩], [1], 20⟩) := by decide +kernel
  obtain ⟨result, hresult, h⟩ := @scan_safe_and_stable hugeTail (by decide)
  rw [hscan] at hresult
  exact ⟨hscan, (h _ (Option.some.inj hresult).symm).2.2.2.2.2.2⟩

end LogCodec

end CloudEtcd
