/-
# CloudEtcd.Persistence.Directory — the log files of a directory, and how they are listed.

A log file's name says what it covers: its first revision, and for a compacted file also its last
(`fileInfo.filename`, written in hex so that the byte order of names is the order of revisions).  A
directory, or an archive, maps names to contents.  `ReadDir` returns the names in byte order, which
the sort in `listFiles` leaves as it is; the loop after it drops every file whose first revision lies
in the compacted file kept before it.
-/
import CloudEtcd.Persistence.FilesystemLog
import CloudEtcd.Persistence.Scan

namespace CloudEtcd

/-! ## Names -/

/-- `fileInfo.filename`. -/
inductive FileName where
  | dense (first : Nat)
  | sparse (first last : Nat)
  deriving DecidableEq, Repr

namespace FileName

/-- The first revision the file covers. -/
def first : FileName → Nat
  | dense a => a
  | sparse a _ => a

/-- A file that compaction wrote. -/
def isSparse : FileName → Bool
  | dense _ => false
  | sparse _ _ => true

/-- The byte order of names: by first revision, and a compacted file before the dense file that
starts at the same revision, because '-' comes before '.'. -/
def le : FileName → FileName → Prop
  | dense a, dense b => a ≤ b
  | dense a, sparse b _ => a < b
  | sparse a _, dense b => a ≤ b
  | sparse a l, sparse b m => a < b ∨ a = b ∧ l ≤ m

instance decidableLe : DecidableRel le
  | dense a, dense b => inferInstanceAs (Decidable (a ≤ b))
  | dense a, sparse b _ => inferInstanceAs (Decidable (a < b))
  | sparse a _, dense b => inferInstanceAs (Decidable (a ≤ b))
  | sparse _ _, sparse _ _ => inferInstanceAs (Decidable (_ ∨ _))

theorem le_total (a b : FileName) : a.le b ∨ b.le a := by
  cases a <;> cases b <;> simp only [le] <;> omega

theorem le_trans {a b c : FileName} (hab : a.le b) (hbc : b.le c) : a.le c := by
  cases a <;> cases b <;> cases c <;> simp only [le] at hab hbc ⊢ <;> omega

theorem le_antisymm {a b : FileName} (hab : a.le b) (hba : b.le a) : a = b := by
  cases a <;> cases b <;> simp only [le] at hab hba <;> simp <;> omega

theorem first_le {a b : FileName} (h : a.le b) : a.first ≤ b.first := by
  cases a <;> cases b <;> simp only [le, first] at h ⊢ <;> omega

instance : Std.Total le := ⟨le_total⟩

instance : IsTrans FileName le := ⟨fun _ _ _ => le_trans⟩

/-- The name stands before the other in a listing. -/
def Precedes (a b : FileName) : Prop := a.le b ∧ a ≠ b

theorem precedes_of_first_lt {a b : FileName} (h : a.first < b.first) : a.Precedes b := by
  refine ⟨?_, fun heq => absurd h (heq ▸ lt_irrefl _)⟩
  cases a <;> cases b <;> simp only [le, first] at h ⊢ <;> omega

/-- The file covers the revision and compaction wrote it: it replaces the files that start there. -/
def supersedes (f : FileName) (revision : Nat) : Bool :=
  match f with
  | dense _ => false
  | sparse a b => a ≤ revision && revision ≤ b

end FileName

/-! ## Directories -/

/-- The log files of a directory, or of an archive, by name. -/
abbrev Dir := GoMap FileName Bytes

namespace Dir

/-- The names in the order in which `ReadDir` and the archive's `List` return them. -/
def names (d : Dir) : List FileName := d.keys.insertionSort FileName.le

/-- `os.Remove` for each of the names. -/
def removeAll (d : Dir) (ns : List FileName) : Dir := ns.foldl (fun d n => d.erase n) d

variable {d : Dir} {n : FileName}

theorem mem_names : n ∈ d.names ↔ n ∈ d :=
  List.mem_insertionSort _

theorem nodup_names (d : Dir) : d.names.Nodup :=
  (List.perm_insertionSort FileName.le d.keys).nodup_iff.mpr d.keys_nodup

theorem sorted_names (d : Dir) : d.names.Pairwise FileName.le :=
  List.pairwise_insertionSort FileName.le d.keys

theorem names_precede (d : Dir) : d.names.Pairwise FileName.Precedes :=
  d.sorted_names.and d.nodup_names

/-- A sorted list of the names is the listing. -/
theorem names_eq {ns : List FileName} (h : ns.Pairwise FileName.Precedes)
    (hmem : ∀ n, n ∈ ns ↔ n ∈ d) : d.names = ns := by
  have hperm : d.names.Perm ns := by
    rw [List.perm_ext_iff_of_nodup d.nodup_names (h.imp And.right)]
    intro n
    rw [mem_names, hmem]
  exact hperm.eq_of_pairwise (fun a b _ _ hab hba => FileName.le_antisymm hab hba)
    d.sorted_names (h.imp And.left)

theorem lookup_removeAll (d : Dir) (ns : List FileName) (n : FileName) :
    (d.removeAll ns).lookup n = if n ∈ ns then none else d.lookup n := by
  induction ns generalizing d with
  | nil => simp [removeAll]
  | cons m ns ih =>
    rw [removeAll, List.foldl_cons, ← removeAll, ih]
    by_cases hn : n ∈ ns
    · simp [hn]
    · by_cases hm : n = m
      · subst hm
        simp [hn]
      · simp [hn, hm, AList.lookup_erase_ne hm]

theorem mem_iff_lookup : n ∈ d ↔ ∃ data, d.lookup n = some data := by
  rw [← AList.lookup_isSome, Option.isSome_iff_exists]

theorem mem_removeAll {ns : List FileName} : n ∈ d.removeAll ns ↔ n ∈ d ∧ n ∉ ns := by
  rw [mem_iff_lookup, mem_iff_lookup, lookup_removeAll]
  by_cases hn : n ∈ ns <;> simp [hn]

end Dir

/-! ## Listing -/

/-- The loop of `listFiles` over the sorted names; `prev` is the file kept last. -/
def keepFiles : Option FileName → List FileName → List FileName
  | _, [] => []
  | prev, f :: fs =>
    if prev.any (·.supersedes f.first) then keepFiles prev fs else f :: keepFiles (some f) fs

/-- `listFiles`: the files kept, and the directory without the superseded ones. -/
def listDir (d : Dir) : Dir × List FileName :=
  let kept := keepFiles none d.names
  (d.removeAll (d.names.filter (· ∉ kept)), kept)

theorem keepFiles_sublist (prev : Option FileName) (ns : List FileName) :
    (keepFiles prev ns).Sublist ns := by
  induction ns generalizing prev with
  | nil => exact List.Sublist.slnil
  | cons n ns ih =>
    rw [keepFiles]
    split
    · exact (ih prev).cons n
    · exact (ih (some n)).cons_cons n

/-- The directory after `listFiles` holds the files kept, with their contents. -/
theorem lookup_listDir (d : Dir) (n : FileName) :
    (listDir d).1.lookup n = if n ∈ (listDir d).2 then d.lookup n else none := by
  show (d.removeAll _).lookup n = if n ∈ keepFiles none d.names then d.lookup n else none
  rw [Dir.lookup_removeAll]
  by_cases hkept : n ∈ keepFiles none d.names
  · simp [hkept]
  · by_cases hn : n ∈ d.names
    · simp [hkept, hn]
    · have hno : d.lookup n = none :=
        AList.lookup_eq_none.mpr fun h => hn (Dir.mem_names.mpr h)
      simp [hkept, hno]

end CloudEtcd
