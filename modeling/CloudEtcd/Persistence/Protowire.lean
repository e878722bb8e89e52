/-
# CloudEtcd.Persistence.Protowire — reading the wire format (`protowire`, as `logcodec` uses it).

The `Consume*` functions return what is left of the input where Go returns the number of bytes they
read.  Each has a lemma that it reads back what `LogCodec` appends, whatever follows; for
`consumeVarint` and `consumeBytes` a second one says that a proper beginning is reported as
truncated, which is how `Scan` recognises a torn tail.

`foldFields` is the loop over the fields of a message.  `Parses` is its result when the fuel
suffices; the messages of the log are parsed field by field from its rules.
-/
import CloudEtcd.Persistence.LogCodec

namespace CloudEtcd

namespace Protowire

variable {n : Nat}

open LogCodec

/-- The errors of `ParseError`; `truncated` is `io.ErrUnexpectedEOF`. -/
inductive ParseError where
  | truncated
  | fieldNumber
  | overflow
  | reserved
  | endGroup
  | recursionDepth
  deriving DecidableEq, Repr

/-! ## Varints -/

/-- `ConsumeVarint` with at most `more` bytes after the next one.  The tenth byte holds one bit. -/
def varintLoop : Nat → Bytes → Except ParseError (Nat × Bytes)
  | _, [] => .error .truncated
  | 0, b :: rest => if b.toNat < 2 then .ok (b.toNat, rest) else .error .overflow
  | more + 1, b :: rest =>
    if b.toNat < 128 then .ok (b.toNat, rest)
    else
      match varintLoop more rest with
      | .ok (v, rest) => .ok (b.toNat - 128 + 128 * v, rest)
      | .error e => .error e

/-- `ConsumeVarint`. -/
def consumeVarint (b : Bytes) : Except ParseError (Nat × Bytes) := varintLoop 9 b

theorem varint_ne_nil (fuel n : Nat) : varint (fuel + 1) n ≠ [] := by
  rw [varint]
  split <;> simp

/-- A byte is what it was made from. -/
theorem toNat_byte (h : n < 256) : (UInt8.ofNat n).toNat = n := by
  rw [UInt8.toNat_ofNat']
  exact Nat.mod_eq_of_lt h

theorem varintLoop_varint (more n : Nat) (h : n < 2 ^ (7 * more + 1)) (rest : Bytes) :
    varintLoop more (varint (more + 1) n ++ rest) = .ok (n, rest) := by
  induction more generalizing n with
  | zero =>
    have hb := toNat_byte (show n < 256 by omega)
    rw [varint, if_pos (by omega), List.singleton_append, varintLoop, hb, if_pos (by omega)]
  | succ more ih =>
    rw [varint]
    split
    · next hlt =>
      rw [List.singleton_append, varintLoop, toNat_byte (show n < 256 by omega), if_pos hlt]
    · have hpow : 2 ^ (7 * (more + 1) + 1) = 128 * 2 ^ (7 * more + 1) := by
        rw [show 7 * (more + 1) + 1 = 7 + (7 * more + 1) by omega, Nat.pow_add]
      have hdiv := ih (n / 128) (by omega)
      rw [List.cons_append, varintLoop, toNat_byte (show n % 128 + 128 < 256 by omega),
        if_neg (by omega), hdiv]
      show Except.ok (n % 128 + 128 - 128 + 128 * (n / 128), rest) = Except.ok (n, rest)
      rw [show n % 128 + 128 - 128 + 128 * (n / 128) = n by omega]

theorem varintLoop_torn (more n : Nat) {start rest : Bytes}
    (heq : varint (more + 1) n = start ++ rest) (hrest : rest ≠ []) :
    varintLoop more start = .error .truncated := by
  induction more generalizing n start with
  | zero =>
    cases start with
    | nil => rfl
    | cons b start =>
      have hlen := congrArg List.length heq
      have := List.length_pos_of_ne_nil hrest
      have hone : (varint 1 n).length = 1 := by
        rw [varint]
        split <;> simp [varint]
      rw [hone, List.length_append, List.length_cons] at hlen
      omega
  | succ more ih =>
    cases start with
    | nil => rfl
    | cons b start =>
      rw [varint] at heq
      split at heq
      · next hlt =>
        simp at heq
        exact absurd heq.2.2 hrest
      · next hge =>
        rw [List.cons_append] at heq
        obtain ⟨hb, htail⟩ := List.cons.inj heq
        rw [varintLoop, ← hb, toNat_byte (show n % 128 + 128 < 256 by omega),
          if_neg (by omega), ih (n / 128) htail]

/-- `ConsumeVarint` reads back what `AppendVarint` wrote. -/
theorem consumeVarint_append (h : n < 2 ^ 64) (rest : Bytes) :
    consumeVarint (appendVarint n ++ rest) = .ok (n, rest) :=
  varintLoop_varint 9 n h rest

/-- A varint cut short is truncated. -/
theorem consumeVarint_torn {start rest : Bytes} (heq : appendVarint n = start ++ rest)
    (hrest : rest ≠ []) : consumeVarint start = .error .truncated :=
  varintLoop_torn 9 n heq hrest

theorem appendVarint_ne_nil (n : Nat) : appendVarint n ≠ [] := varint_ne_nil 9 n

theorem length_appendVarint_pos (n : Nat) : 0 < (appendVarint n).length :=
  List.length_pos_of_ne_nil (appendVarint_ne_nil n)

/-! ## Tags and values -/

/-- `ConsumeTag`: the field number, the wire type and what follows. -/
def consumeTag (b : Bytes) : Except ParseError (Nat × Nat × Bytes) :=
  match consumeVarint b with
  | .error e => .error e
  | .ok (v, rest) =>
    if 2 ^ 31 - 1 < v / 8 ∨ v / 8 < 1 then .error .fieldNumber else .ok (v / 8, v % 8, rest)

/-- `ConsumeBytes`. -/
def consumeBytes (b : Bytes) : Except ParseError (Bytes × Bytes) :=
  match consumeVarint b with
  | .error e => .error e
  | .ok (m, rest) => if rest.length < m then .error .truncated else .ok (rest.take m, rest.drop m)

/-- `ConsumeFixed32` and `ConsumeFixed64`, of which only the length matters here. -/
def consumeFixed (n : Nat) (b : Bytes) : Except ParseError Bytes :=
  if b.length < n then .error .truncated else .ok (b.drop n)

/-- `ConsumeFieldValue` for a value that is not a group. -/
def consumeScalar (typ : Nat) (b : Bytes) : Except ParseError Bytes :=
  match typ with
  | 0 => (consumeVarint b).map Prod.snd
  | 1 => consumeFixed 8 b
  | 2 => (consumeBytes b).map Prod.snd
  | 4 => .error .endGroup
  | 5 => consumeFixed 4 b
  | _ => .error .reserved

/-- The fields of group `num` and its end tag; `depth` more groups may be nested in it. -/
def consumeGroup : Nat → Nat → Nat → Bytes → Except ParseError Bytes
  | 0, _, _, _ => .error .truncated
  | fuel + 1, depth, num, b =>
    match consumeTag b with
    | .error e => .error e
    | .ok (num2, typ2, rest) =>
      if typ2 = 4 then if num ≠ num2 then .error .endGroup else .ok rest
      else
        let value :=
          if typ2 = 3 then
            if depth = 0 then .error .recursionDepth
            else consumeGroup fuel (depth - 1) num2 rest
          else consumeScalar typ2 rest
        match value with
        | .error e => .error e
        | .ok rest => consumeGroup fuel depth num rest

/-- `ConsumeFieldValue`.  Every tag takes a byte, so the input bounds the number of fields. -/
def consumeFieldValue (num typ : Nat) (b : Bytes) : Except ParseError Bytes :=
  if typ = 3 then consumeGroup (b.length + 1) 10000 num b else consumeScalar typ b

/-- `ConsumeTag` reads back a tag. -/
theorem consumeTag_append (field wireType : Nat) (h1 : 1 ≤ field) (h2 : field ≤ 2 ^ 31 - 1)
    (hw : wireType < 8) (rest : Bytes) :
    consumeTag (appendTag field wireType ++ rest) = .ok (field, wireType, rest) := by
  rw [consumeTag, appendTag, consumeVarint_append (by omega)]
  have hdiv : (field * 8 + wireType) / 8 = field := by omega
  have hmod : (field * 8 + wireType) % 8 = wireType := by omega
  simp only [hdiv, hmod]
  rw [if_neg (by omega)]

/-- `ConsumeBytes` reads back length-delimited bytes. -/
theorem consumeBytes_append {m : Bytes} (h : m.length < 2 ^ 64) (rest : Bytes) :
    consumeBytes (appendVarint m.length ++ (m ++ rest)) = .ok (m, rest) := by
  rw [consumeBytes, consumeVarint_append h]
  simp

theorem consumeFieldValue_bytes {m : Bytes} (h : m.length < 2 ^ 64) (num : Nat) (rest : Bytes) :
    consumeFieldValue num 2 (appendVarint m.length ++ (m ++ rest)) = .ok rest := by
  simp [consumeFieldValue, consumeScalar, consumeBytes_append h, Except.map]

/-! ## The fields of a message -/

section Fields

variable {σ : Type}

/-- The loop over the fields of a message: `field` reads the value of a field it knows, the others
are skipped. -/
def foldFields (field : σ → Nat → Nat → Bytes → Option (Except ParseError (σ × Bytes))) :
    Nat → σ → Bytes → Except ParseError σ
  | 0, s, _ => .ok s
  | _ + 1, s, [] => .ok s
  | fuel + 1, s, b :: bs =>
    match consumeTag (b :: bs) with
    | .error e => .error e
    | .ok (num, typ, rest) =>
      match field s num typ rest with
      | some (.error e) => .error e
      | some (.ok (s, rest)) => foldFields field fuel s rest
      | none =>
        match consumeFieldValue num typ rest with
        | .error e => .error e
        | .ok rest => foldFields field fuel s rest

variable {field : σ → Nat → Nat → Bytes → Option (Except ParseError (σ × Bytes))}
variable {num typ : Nat} {s t : σ} {rest b m : Bytes}

/-- The loop turns `s` into `t` over the message `b`, however much fuel is left over. -/
def Parses (field : σ → Nat → Nat → Bytes → Option (Except ParseError (σ × Bytes))) (s : σ)
    (b : Bytes) (t : σ) : Prop :=
  ∀ fuel, b.length ≤ fuel → foldFields field fuel s b = .ok t

theorem Parses.nil (s : σ) : Parses field s [] s := by
  intro fuel _
  cases fuel <;> rfl

/-- One step of the loop, for a message that starts with a tag. -/
theorem foldFields_tag {fuel : Nat} (hb : b.length ≤ fuel)
    (htag : consumeTag b = .ok (num, typ, rest)) : ∃ n, fuel = n + 1 ∧ foldFields field fuel s b =
      match field s num typ rest with
      | some (.error e) => .error e
      | some (.ok (s, rest)) => foldFields field n s rest
      | none =>
        match consumeFieldValue num typ rest with
        | .error e => .error e
        | .ok rest => foldFields field n s rest := by
  cases b with
  | nil => cases htag
  | cons x b =>
    obtain ⟨n, rfl⟩ : ∃ n, fuel = n + 1 :=
      Nat.exists_eq_succ_of_ne_zero (by simp at hb; omega)
    refine ⟨n, rfl, ?_⟩
    rw [foldFields, htag]

/-- A field that the message's reader knows. -/
theorem Parses.known {s' : σ} {value : Bytes} (htag : consumeTag b = .ok (num, typ, value))
    (hfield : field s num typ value = some (.ok (s', rest))) (hlen : rest.length < b.length)
    (h : Parses field s' rest t) : Parses field s b t := by
  intro fuel hfuel
  obtain ⟨n, rfl, hstep⟩ := foldFields_tag (s := s) hfuel htag
  rw [hstep, hfield]
  exact h n (by omega)

/-- A field that is skipped. -/
theorem Parses.skipped {value : Bytes} (htag : consumeTag b = .ok (num, typ, value))
    (hfield : field s num typ value = none) (hskip : consumeFieldValue num typ value = .ok rest)
    (hlen : rest.length < b.length) (h : Parses field s rest t) : Parses field s b t := by
  intro fuel hfuel
  obtain ⟨n, rfl, hstep⟩ := foldFields_tag (s := s) hfuel htag
  rw [hstep, hfield, hskip]
  exact h n (by omega)

/-- An `int64` field: nothing is written for zero, which is also what the field starts as. -/
theorem Parses.int64Field {x : Int} (s' : σ) (hnum : 1 ≤ num ∧ num ≤ 2 ^ 31 - 1)
    (hzero : x = 0 → s' = s)
    (hfield : ∀ value rest, consumeVarint value = .ok ((x % 2 ^ 64).toNat, rest) →
      field s num 0 value = some (.ok (s', rest))) (h : Parses field s' rest t) :
    Parses field s (int64Field num x ++ rest) t := by
  unfold LogCodec.int64Field
  split
  · next hx => rwa [List.nil_append, ← hzero hx]
  · rw [List.append_assoc]
    have hv : (x % 2 ^ 64).toNat < 2 ^ 64 := by omega
    refine Parses.known (consumeTag_append _ _ hnum.1 hnum.2 (by omega) _)
      (hfield _ _ (consumeVarint_append hv rest)) ?_ h
    have := length_appendVarint_pos (x % 2 ^ 64).toNat
    simp only [List.length_append]
    omega

theorem length_messageField (num : Nat) (m : Bytes) : m.length < (messageField num m).length := by
  have := length_appendVarint_pos m.length
  simp only [messageField, List.length_append]
  omega

theorem consumeTag_messageField (num : Nat) (hnum : 1 ≤ num ∧ num ≤ 2 ^ 31 - 1) (m rest : Bytes) :
    consumeTag (messageField num m ++ rest) =
      .ok (num, 2, appendVarint m.length ++ (m ++ rest)) := by
  rw [messageField, List.append_assoc, List.append_assoc]
  exact consumeTag_append _ _ hnum.1 hnum.2 (by omega) _

/-- A length-delimited field. -/
theorem Parses.messageField (s' : σ) (hnum : 1 ≤ num ∧ num ≤ 2 ^ 31 - 1) (hm : m.length < 2 ^ 64)
    (hfield : ∀ value rest, consumeBytes value = .ok (m, rest) →
      field s num 2 value = some (.ok (s', rest))) (h : Parses field s' rest t) :
    Parses field s (messageField num m ++ rest) t := by
  have hlen := length_messageField num m
  refine Parses.known (consumeTag_messageField num hnum m rest)
    (hfield _ _ (consumeBytes_append hm rest)) ?_ h
  rw [List.length_append]
  omega

/-- A length-delimited field that the message's reader does not know. -/
theorem Parses.skipMessage (hnum : 1 ≤ num ∧ num ≤ 2 ^ 31 - 1) (hm : m.length < 2 ^ 64)
    (hfield : ∀ value, field s num 2 value = none) (h : Parses field s rest t) :
    Parses field s (LogCodec.messageField num m ++ rest) t := by
  have hlen := length_messageField num m
  refine Parses.skipped (consumeTag_messageField num hnum m rest) (hfield _)
    (consumeFieldValue_bytes hm num rest) ?_ h
  rw [List.length_append]
  omega

/-- A `bytes` field: nothing is written for no bytes. -/
theorem Parses.bytesField (s' : σ) (hnum : 1 ≤ num ∧ num ≤ 2 ^ 31 - 1) (hm : m.length < 2 ^ 64)
    (hempty : m = [] → s' = s) (hfield : ∀ value rest, consumeBytes value = .ok (m, rest) →
      field s num 2 value = some (.ok (s', rest))) (h : Parses field s' rest t) :
    Parses field s (bytesField num m ++ rest) t := by
  unfold LogCodec.bytesField
  split
  · next hx => rwa [List.nil_append, ← hempty hx]
  · exact Parses.messageField s' hnum hm hfield h

end Fields

end Protowire

end CloudEtcd
