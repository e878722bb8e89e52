/-
# CloudEtcd.Persistence.FileNames — the names of log files as bytes.

`CloudEtcd.Persistence.Directory` takes a file's name for what it says.  Here names are the bytes that
`fileInfo.filename` prints and `parseFilename` reads, and the sort of `listFiles` is the comparison in the
code, a signed subtraction of converted revisions.  Names read back, no two files share one, and the bytes
sort as the comparison says (`file_names_faithful`); `Directory`'s order of names is the order of the bytes
(`FileName.le_iff_filename_le`).
-/
import Mathlib.Data.List.TakeWhile
import CloudEtcd.Persistence.Directory
import CloudEtcd.Persistence.RoundTrip

namespace CloudEtcd

open LogCodec

/-- What a log file's name says about it. -/
structure FileInfo where
  first : UInt64
  last : UInt64
  sparse : Bool
  deriving DecidableEq, Repr

namespace FileInfo

/-! ## The code -/

/-- A digit of `%x`. -/
def hexDigit (d : Nat) : UInt8 := UInt8.ofNat (if d < 10 then 48 + d else 87 + d)

/-- The digits of `%0*x`, least significant last, for a number of at most that many digits. -/
def hex : Nat → Nat → Bytes
  | 0, _ => []
  | width + 1, v => hex width (v / 16) ++ [hexDigit (v % 16)]

/-- The suffix `.log`. -/
def logSuffix : Bytes := [46, 108, 111, 103]

/-- The separator of a range, `-`. -/
def dash : UInt8 := 45

/-- `fileInfo.filename`. -/
def filename (f : FileInfo) : Bytes :=
  if f.sparse then hex 16 f.first.toNat ++ dash :: (hex 16 f.last.toNat ++ logSuffix)
  else hex 16 f.first.toNat ++ logSuffix

/-- The value of a digit in `strconv.ParseUint`. -/
def digitValue (c : UInt8) : Option UInt8 :=
  let lower := c ||| 32
  if 48 ≤ c ∧ c ≤ 57 then some (c - 48)
  else if 97 ≤ lower ∧ lower ≤ 122 then some (lower - 97 + 10)
  else none

/-- A round of `strconv.ParseUint(s, 16, 64)`. -/
def parseDigit (n : UInt64) (c : UInt8) : Option UInt64 :=
  (digitValue c).bind fun d =>
    if 16 ≤ d then none
    else if 0x1000000000000000 ≤ n then none
    else if n * 16 + d.toUInt64 < n * 16 then none
    else some (n * 16 + d.toUInt64)

/-- `strconv.ParseUint(s, 16, 64)`. -/
def parseUint (s : Bytes) : Option UInt64 := if s = [] then none else s.foldlM parseDigit 0

/-- `strings.SplitN(base, "-", 2)`. -/
def splitDash (base : Bytes) : Bytes × Option Bytes :=
  match base.dropWhile (· ≠ dash) with
  | [] => (base, none)
  | _ :: rest => (base.takeWhile (· ≠ dash), some rest)

/-- The error `invalid filename format: %s`. -/
structure InvalidFilename where
  filename : Bytes
  deriving DecidableEq, Repr

/-- `parseFilename`. -/
def parseFilename (name : Bytes) : Except InvalidFilename FileInfo :=
  if ¬ logSuffix <:+ name then .error ⟨name⟩
  else
    let parts := splitDash (name.take (name.length - logSuffix.length))
    match parseUint parts.1 with
    | none => .error ⟨name⟩
    | some first =>
      match parts.2 with
      | none => .ok ⟨first, 0, false⟩
      | some second =>
        match parseUint second with
        | none => .error ⟨name⟩
        | some last => if last < first then .error ⟨name⟩ else .ok ⟨first, last, true⟩

/-- The comparison `listFiles` sorts by. -/
def compareFiles (a b : FileInfo) : Int :=
  if a.first ≠ b.first then int64 (int64 a.first.toNat - int64 b.first.toNat)
  else if a.sparse ≠ b.sparse then if a.sparse then -1 else 1
  else 0

/-! ## Digits -/

theorem digitValue_hexDigit {d : Nat} (hd : d < 16) :
    digitValue (hexDigit d) = some (UInt8.ofNat d) ∧ hexDigit d ≠ dash := by
  interval_cases d <;> decide

theorem hexDigit_lt {d e : Nat} (hde : d < e) (he : e < 16) : hexDigit d < hexDigit e := by
  interval_cases e <;> interval_cases d <;> decide

theorem parseDigit_hexDigit {v : Nat} (hv : v < 2 ^ 64) :
    parseDigit (UInt64.ofNat (v / 16)) (hexDigit (v % 16)) = some (UInt64.ofNat v) := by
  have hd : v % 16 < 16 := Nat.mod_lt _ (by decide)
  have hvalue : (UInt8.ofNat (v % 16)).toNat = v % 16 := by
    rw [UInt8.toNat_ofNat']
    omega
  have hfront : (UInt64.ofNat (v / 16)).toNat = v / 16 := by
    rw [UInt64.toNat_ofNat']
    omega
  have hshift : (UInt64.ofNat (v / 16) * 16).toNat = v / 16 * 16 := by
    rw [UInt64.toNat_mul, hfront]
    simp
    omega
  have hsum : (UInt64.ofNat (v / 16) * 16 + (UInt8.ofNat (v % 16)).toUInt64).toNat = v := by
    rw [UInt64.toNat_add, hshift, UInt8.toNat_toUInt64, hvalue]
    omega
  rw [parseDigit, (digitValue_hexDigit hd).1, Option.bind_some, if_neg, if_neg, if_neg]
  · congr 1
    rw [← UInt64.toNat_inj, hsum, UInt64.toNat_ofNat']
    omega
  · rw [UInt64.lt_iff_toNat_lt, hsum, hshift]
    omega
  · rw [UInt64.le_iff_toNat_le, hfront]
    simp
    omega
  · rw [UInt8.le_iff_toNat_le, hvalue]
    simp
    omega

section Hex

variable {width v w : Nat}

theorem foldlM_hex (hv : v < 2 ^ 64) (hwidth : v < 16 ^ width) :
    (hex width v).foldlM parseDigit 0 = some (UInt64.ofNat v) := by
  induction width generalizing v with
  | zero =>
    obtain rfl : v = 0 := by omega
    rfl
  | succ width ih =>
    rw [hex, List.foldlM_append, ih (by omega) (by omega)]
    simp [parseDigit_hexDigit hv]

theorem dash_notMem_hex : ∀ c ∈ hex width v, c ≠ dash := by
  induction width generalizing v with
  | zero => simp [hex]
  | succ width ih =>
    intro c hc
    rcases List.mem_append.mp hc with hc | hc
    · exact ih c hc
    · obtain rfl := List.mem_singleton.mp hc
      exact (digitValue_hexDigit (Nat.mod_lt _ (by decide))).2

/-- Numbers of one width sort as their digits do, whatever follows them. -/
theorem hex_lt (h : v < w) (hw : w < 16 ^ width) (s t : Bytes) :
    hex width v ++ s < hex width w ++ t := by
  induction width generalizing v w s t with
  | zero => omega
  | succ width ih =>
    rw [hex, hex, List.append_assoc, List.append_assoc]
    by_cases hfront : v / 16 < w / 16
    · exact ih hfront (by omega) _ _
    · have heq : v / 16 = w / 16 := by omega
      rw [heq]
      exact List.append_left_lt (List.Lex.rel (hexDigit_lt (by omega) (Nat.mod_lt _ (by decide))))

end Hex

theorem parseUint_hex (v : UInt64) : parseUint (hex 16 v.toNat) = some v := by
  rw [parseUint, if_neg (by simp [hex]), foldlM_hex v.toNat_lt v.toNat_lt, UInt64.ofNat_toNat]

/-! ## Names read back -/

theorem splitDash_hex (v : Nat) : splitDash (hex 16 v) = (hex 16 v, none) := by
  have hnone : (hex 16 v).dropWhile (· ≠ dash) = [] := by
    rw [List.dropWhile_eq_nil_iff]
    intro c hc
    simpa using dash_notMem_hex c hc
  rw [splitDash, hnone]

theorem splitDash_range (v : Nat) (rest : Bytes) :
    splitDash (hex 16 v ++ dash :: rest) = (hex 16 v, some rest) := by
  have hfront : ∀ c ∈ hex 16 v, decide (c ≠ dash) = true := fun c hc => by
    simpa using dash_notMem_hex c hc
  rw [splitDash, List.dropWhile_append_of_pos hfront, List.takeWhile_append_of_pos hfront]
  simp

theorem parseFilename_filename {f : FileInfo} (h : f.first ≤ f.last) :
    parseFilename f.filename = .ok (if f.sparse then f else ⟨f.first, 0, false⟩) := by
  obtain ⟨first, last, sparse⟩ := f
  have htrim : ∀ base : Bytes,
      (base ++ logSuffix).take ((base ++ logSuffix).length - logSuffix.length) = base := by simp
  cases sparse with
  | false =>
    show parseFilename (hex 16 first.toNat ++ logSuffix) = _
    simp only [parseFilename, htrim, splitDash_hex, parseUint_hex]
    simp
  | true =>
    show parseFilename (hex 16 first.toNat ++ dash :: (hex 16 last.toNat ++ logSuffix)) = _
    have hle : ¬ last < first := UInt64.not_lt.mpr h
    rw [← List.cons_append, ← List.append_assoc]
    simp only [parseFilename, htrim, splitDash_range, parseUint_hex, hle, List.suffix_append]
    simp

/-! ## Names sort as the code does -/

section Order

variable {f g : FileInfo}

/-- The order of what two names say. -/
def Before (f g : FileInfo) : Prop :=
  f.first < g.first ∨ f.first = g.first ∧ f.sparse = true ∧ (g.sparse = true → f.last < g.last)

theorem Before.filename_lt (h : f.Before g) : f.filename < g.filename := by
  obtain ⟨first, last, sparse⟩ := f
  obtain ⟨first', last', sparse'⟩ := g
  rcases h with h | ⟨h, rfl, hlast⟩
  · have hfirst := @hex_lt 16 _ _ (UInt64.lt_iff_toNat_lt.mp h) first'.toNat_lt
    cases sparse <;> cases sparse' <;> exact hfirst _ _
  · obtain rfl : first = first' := h
    cases sparse' with
    | false => exact List.append_left_lt (List.Lex.rel (by decide))
    | true =>
      have hlast : last < last' := hlast rfl
      exact List.append_left_lt
        (List.Lex.cons (hex_lt (UInt64.lt_iff_toNat_lt.mp hlast) last'.toNat_lt _ _))

/-- Two names say different things in one order or the other. -/
theorem before_or_before (f g : FileInfo) : f.Before g ∨ g.Before f ∨
    f.sparse = g.sparse ∧ f.first = g.first ∧ (f.sparse = true → f.last = g.last) := by
  obtain ⟨first, last, sparse⟩ := f
  obtain ⟨first', last', sparse'⟩ := g
  simp only [Before, UInt64.lt_iff_toNat_lt, ← UInt64.toNat_inj]
  cases sparse <;> cases sparse' <;> simp <;> omega

theorem filename_lt_iff : f.filename < g.filename ↔ f.Before g := by
  refine ⟨fun h => ?_, Before.filename_lt⟩
  rcases before_or_before f g with hlt | hgt | ⟨hsparse, hfirst, hlast⟩
  · exact hlt
  · exact absurd hgt.filename_lt (List.lt_asymm h)
  · have heq : f.filename = g.filename := by
      unfold filename
      rw [← hsparse, ← hfirst]
      split
      · next hs => rw [hlast hs]
      · rfl
    rw [heq] at h
    exact absurd h (List.lt_irrefl _)

theorem filename_injective (h : f.filename = g.filename) :
    f.sparse = g.sparse ∧ f.first = g.first ∧ (f.sparse = true → f.last = g.last) := by
  rcases before_or_before f g with hlt | hgt | hsame
  · exact absurd (h ▸ hlt.filename_lt) (List.lt_irrefl _)
  · exact absurd (h ▸ hgt.filename_lt) (List.lt_irrefl _)
  · exact hsame

/-- The subtraction does not overflow below `2 ^ 63`. -/
theorem int64_sub (hf : f.first.toNat < 2 ^ 63) (hg : g.first.toNat < 2 ^ 63) :
    int64 (int64 f.first.toNat - int64 g.first.toNat) = (f.first.toNat : Int) - g.first.toNat := by
  have hexact : ∀ v : Int, -2 ^ 63 ≤ v → v < 2 ^ 63 → int64 v = v :=
    fun v hlo hhi => int64_of_isInt64 ⟨hlo, hhi⟩
  rw [hexact f.first.toNat (by omega) (by omega), hexact g.first.toNat (by omega) (by omega),
    hexact _ (by omega) (by omega)]

/-- The number by which the comparison sorts. -/
def rank (f : FileInfo) : Nat := 2 * f.first.toNat + if f.sparse then 0 else 1

theorem rank_lt_iff : f.rank < g.rank ↔
    f.first < g.first ∨ f.first = g.first ∧ f.sparse = true ∧ g.sparse = false := by
  obtain ⟨first, last, sparse⟩ := f
  obtain ⟨first', last', sparse'⟩ := g
  simp only [rank, UInt64.lt_iff_toNat_lt, ← UInt64.toNat_inj]
  cases sparse <;> cases sparse' <;> simp <;> omega

section

variable (hf : f.first.toNat < 2 ^ 63)
include hf

section

variable (hg : g.first.toNat < 2 ^ 63)
include hg

theorem compareFiles_neg_iff : compareFiles f g < 0 ↔ f.rank < g.rank := by
  rw [compareFiles, int64_sub hf hg]
  obtain ⟨first, last, sparse⟩ := f
  obtain ⟨first', last', sparse'⟩ := g
  simp only [rank, ne_eq, ← UInt64.toNat_inj]
  cases sparse <;> cases sparse' <;> simp <;> split <;> omega

theorem compareFiles_swap : compareFiles g f = -compareFiles f g := by
  rw [compareFiles, compareFiles, int64_sub hf hg, int64_sub hg hf]
  obtain ⟨first, last, sparse⟩ := f
  obtain ⟨first', last', sparse'⟩ := g
  simp only [ne_eq, ← UInt64.toNat_inj]
  cases sparse <;> cases sparse' <;> simp <;> split <;> omega

theorem filename_lt_of_compareFiles (h : compareFiles f g < 0) : f.filename < g.filename := by
  rw [compareFiles_neg_iff hf hg, rank_lt_iff] at h
  apply Before.filename_lt
  rcases h with h | ⟨hfirst, hf, hg⟩
  · exact .inl h
  · exact .inr ⟨hfirst, hf, by simp [hg]⟩

theorem compareFiles_nonpos (h : f.filename < g.filename) : compareFiles f g ≤ 0 := by
  by_contra hpos
  have hswap := compareFiles_swap hf hg
  exact List.lt_asymm h (filename_lt_of_compareFiles hg hf (by omega))

end

end

end Order

/-- Names read back and no two files share one.  Below `2 ^ 63` the bytes sort as the comparison of
`listFiles` says: by the first revision and then a compacted file before a dense one; the subtraction in it
does not overflow, and it is a strict weak order. -/
theorem file_names_faithful :
    (∀ f : FileInfo, f.first ≤ f.last →
      parseFilename f.filename = .ok (if f.sparse then f else ⟨f.first, 0, false⟩)) ∧
    (∀ f g : FileInfo, f.filename = g.filename →
      f.sparse = g.sparse ∧ f.first = g.first ∧ (f.sparse = true → f.last = g.last)) ∧
    (∀ f g : FileInfo, f.first.toNat < 2 ^ 63 → g.first.toNat < 2 ^ 63 →
      int64 (int64 f.first.toNat - int64 g.first.toNat) = (f.first.toNat : Int) - g.first.toNat ∧
      compareFiles g f = -compareFiles f g ∧
      (compareFiles f g < 0 ↔
        f.first < g.first ∨ f.first = g.first ∧ f.sparse = true ∧ g.sparse = false) ∧
      (compareFiles f g < 0 → f.filename < g.filename) ∧
      (f.filename < g.filename → compareFiles f g ≤ 0)) ∧
    IsStrictWeakOrder { f : FileInfo // f.first.toNat < 2 ^ 63 }
      (fun f g => compareFiles f g < 0) := by
  refine ⟨fun f => parseFilename_filename, fun f g => filename_injective, fun f g hf hg => ?_, ?_⟩
  · refine ⟨int64_sub hf hg, compareFiles_swap hf hg, ?_, ?_, ?_⟩
    · rw [compareFiles_neg_iff hf hg, rank_lt_iff]
    · exact filename_lt_of_compareFiles hf hg
    · exact compareFiles_nonpos hf hg
  · refine { irrefl := ?_, trans := ?_, incomp_trans := ?_ }
    · intro f
      rw [compareFiles_neg_iff f.2 f.2]
      exact Nat.lt_irrefl _
    · intro f g h
      simp only [compareFiles_neg_iff f.2 g.2, compareFiles_neg_iff g.2 h.2, compareFiles_neg_iff f.2 h.2]
      exact Nat.lt_trans
    · intro f g h
      simp only [compareFiles_neg_iff f.2 g.2, compareFiles_neg_iff g.2 h.2, compareFiles_neg_iff f.2 h.2,
        compareFiles_neg_iff g.2 f.2, compareFiles_neg_iff h.2 g.2, compareFiles_neg_iff h.2 f.2]
      omega

theorem file_names_faithful_range :
    filename ⟨16, 255, true⟩ = hex 16 16 ++ dash :: (hex 16 255 ++ logSuffix) ∧
    parseFilename (filename ⟨16, 255, true⟩) = .ok ⟨16, 255, true⟩ ∧
    filename ⟨16, 255, true⟩ < filename ⟨16, 0, false⟩ := by
  obtain ⟨hparse, -, hsort, -⟩ := file_names_faithful
  exact ⟨rfl, hparse ⟨16, 255, true⟩ (by decide),
    (hsort ⟨16, 255, true⟩ ⟨16, 0, false⟩ (by decide) (by decide)).2.2.2.1 (by decide)⟩

end FileInfo

/-! ## The names of `Directory` -/

namespace FileName

/-- What the name says. -/
def info : FileName → FileInfo
  | dense a => ⟨UInt64.ofNat a, 0, false⟩
  | sparse a b => ⟨UInt64.ofNat a, UInt64.ofNat b, true⟩

/-- Revisions travel as `int64`. -/
def InRange : FileName → Prop
  | dense a => a < 2 ^ 63
  | sparse a b => a < 2 ^ 63 ∧ b < 2 ^ 63

variable {a b : FileName}

theorem InRange.first_lt (h : a.InRange) : a.info.first.toNat < 2 ^ 63 := by
  cases a <;> simp only [InRange, info, UInt64.toNat_ofNat'] at h ⊢ <;> omega

/-- The order of `Directory` is the byte order. -/
theorem le_iff_filename_le (ha : a.InRange) (hb : b.InRange) :
    a.le b ↔ ¬ b.info.filename < a.info.filename := by
  rw [FileInfo.filename_lt_iff]
  cases a <;> cases b <;>
    simp only [InRange, le, info, FileInfo.Before, UInt64.lt_iff_toNat_lt, ← UInt64.toNat_inj,
      UInt64.toNat_ofNat'] at ha hb ⊢ <;> simp <;> omega

end FileName

end CloudEtcd
