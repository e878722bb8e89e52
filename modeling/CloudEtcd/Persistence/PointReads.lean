/-
# CloudEtcd.Persistence.PointReads — `GetLogEntry` on disk.

A point read finds the file whose range has the revision, searching from the end, then the place of the
record in that file, and then the bytes at the span of that place.  With an index that describes a row
of files, `findFile` finds the one file whose range has the revision (`Indexes.findFile_iff`),
`position` the place of its record (`Describes.position`), and the bytes are the record's encoding
(`Refines.recordBytes`).
-/
import CloudEtcd.Persistence.DiskCompaction

namespace CloudEtcd

open LogCodec

/-! ## The search from the end -/

variable {r : Nat}

/-- In a row of ranges the search from the end stops at the range that has the number. -/
theorem find_reverse_row {α : Type} {first last : α → Nat} {xs : List α}
    (hrow : xs.Pairwise fun x y => last x < first y) {x : α} (hx : x ∈ xs) (h1 : first x ≤ r)
    (h2 : r ≤ last x) : xs.reverse.find? (fun y => first y ≤ r) = some x := by
  obtain ⟨pre, post, rfl⟩ := List.append_of_mem hx
  have hnone : post.reverse.find? (fun y => decide (first y ≤ r)) = none := by
    rw [List.find?_eq_none]
    intro y hy
    have hlater := (List.pairwise_cons.mp (List.pairwise_append.mp hrow).2.1).1 y
      (List.mem_reverse.mp hy)
    simpa using (by omega : r < first y)
  simp [List.find?_append, hnone, h1]

variable {l : FilesystemLog}

/-- The files of a log lie apart. -/
theorem FilesystemLog.WF.apart (h : l.WF) : l.files.Pairwise fun f g => f.last < g.first := by
  have hrow : ∀ {fs : List LogFile} {want : Nat}, Tiled want fs l.active.first →
      (fs ++ [l.active]).Pairwise fun f g => f.last < g.first := by
    intro fs
    induction fs with
    | nil => exact fun _ => List.pairwise_singleton _ _
    | cons f fs ih =>
      intro want hrow
      have hlast := (hrow.of_mem List.mem_cons_self).2.2.2
      obtain ⟨-, -, -, hrest⟩ := hrow
      refine List.pairwise_cons.mpr ⟨fun g hg => ?_, ih hrest⟩
      rcases List.mem_append.mp hg with hg | hg
      · have := hrest.of_mem hg
        omega
      · rw [List.mem_singleton.mp hg]
        exact hlast
  exact hrow h.closed

/-- Every revision of a row lies in one of its files. -/
theorem Tiled.exists_file {want next : Nat} {fs : List LogFile} (h : Tiled want fs next)
    (h1 : want ≤ r) (h2 : r < next) : ∃ f ∈ fs, f.first ≤ r ∧ r ≤ f.last := by
  induction fs generalizing want with
  | nil =>
    change want = next at h
    omega
  | cons f fs ih =>
    obtain ⟨hfirst, -, -, hrest⟩ := h
    by_cases hin : r ≤ f.last
    · exact ⟨f, List.mem_cons_self, by omega, hin⟩
    · obtain ⟨g, hg, hcover⟩ := ih hrest (by omega)
      exact ⟨g, List.mem_cons_of_mem _ hg, hcover⟩

theorem FilesystemLog.WF.exists_file (h : l.WF) (h1 : 1 ≤ r)
    (h2 : r ≤ l.lastRevision) : ∃ f ∈ l.files, f.first ≤ r ∧ r ≤ f.last := by
  by_cases hin : r < l.active.first
  · obtain ⟨f, hf, hcover⟩ := h.closed.exists_file h1 hin
    exact ⟨f, List.mem_append_left _ hf, hcover⟩
  · refine ⟨l.active, List.mem_append_right _ (List.mem_singleton_self _), by omega, ?_⟩
    rw [h.last]
    exact h2

theorem FilesystemLog.WF.file_bounds (h : l.WF) {f : LogFile}
    (hf : f ∈ l.files) : 1 ≤ f.first ∧ f.last ≤ l.lastRevision := by
  have hone := h.closed.le
  rcases List.mem_append.mp hf with hf | hf
  · have := h.closed.of_mem hf
    have := h.active_first
    omega
  · rw [List.mem_singleton.mp hf]
    exact ⟨hone, Nat.le_of_eq h.last⟩

theorem FilesystemLog.WF.file_wf (h : l.WF) {f : LogFile} (hf : f ∈ l.files) : f.WF := by
  rcases List.mem_append.mp hf with hf | hf
  · exact (h.closed.of_mem hf).1
  · rw [List.mem_singleton.mp hf]
    exact h.active

/-! ## `findFile` -/

variable {f : IndexFile}

namespace Indexes

variable {d : DiskLog} {l : FilesystemLog}

theorem forall₂_mem_left {fs : List IndexFile} {gs : List LogFile}
    (h : List.Forall₂ Describes fs gs) (hf : f ∈ fs) : ∃ g ∈ gs, Describes f g := by
  induction h with
  | nil => cases hf
  | cons hfg _ ih =>
    rcases List.mem_cons.mp hf with rfl | hf
    · exact ⟨_, List.mem_cons_self, hfg⟩
    · obtain ⟨g, hg, hdesc⟩ := ih hf
      exact ⟨g, List.mem_cons_of_mem _ hg, hdesc⟩

/-- The entry of a file describes it. -/
theorem describes_mem (h : Indexes d l) (hf : f ∈ d.files) :
    ∃ g ∈ l.files, Describes f g := forall₂_mem_left h.files hf

theorem apart (h : Indexes d l) (hwf : l.WF) : d.files.Pairwise fun f g => f.last < g.first := by
  have hmap : ∀ {fs : List IndexFile} {gs : List LogFile}, List.Forall₂ Describes fs gs →
      gs.Pairwise (fun f g => f.last < g.first) → fs.Pairwise fun f g => f.last < g.first := by
    intro fs gs hfs
    induction hfs with
    | nil => exact fun _ => List.Pairwise.nil
    | cons hfg hrest ih =>
      intro hpair
      obtain ⟨hhead, htail⟩ := List.pairwise_cons.mp hpair
      refine List.pairwise_cons.mpr ⟨fun f hf => ?_, ih htail⟩
      obtain ⟨g, hg, hdesc⟩ := forall₂_mem_left hrest hf
      rw [hfg.last, hdesc.first]
      exact hhead g hg
  exact hmap h.files hwf.apart

/-- `findFile` finds the file whose range has the revision. -/
theorem findFile_iff (h : Indexes d l) (hwf : l.WF) :
    d.findFile r = some f ↔ f ∈ d.files ∧ f.first ≤ r ∧ r ≤ f.last := by
  unfold DiskLog.findFile
  constructor
  · intro hfind
    split at hfind
    · next g hg =>
      split at hfind
      · next hlast =>
        cases hfind
        exact ⟨List.mem_reverse.mp (List.mem_of_find?_eq_some hg),
          by simpa using List.find?_some hg, hlast⟩
      · cases hfind
    · cases hfind
  · rintro ⟨hf, h1, h2⟩
    rw [find_reverse_row (h.apart hwf) hf h1 h2]
    simp [h2]

/-- `findFile` succeeds on the revisions up to the head, and on no others. -/
theorem findFile_isSome (h : Indexes d l) (hwf : l.WF) :
    (∃ f, d.findFile r = some f) ↔ 1 ≤ r ∧ r ≤ d.lastRevision := by
  rw [h.lastRevision]
  constructor
  · rintro ⟨f, hfind⟩
    obtain ⟨hf, h1, h2⟩ := (h.findFile_iff hwf).mp hfind
    obtain ⟨g, hg, hdesc⟩ := h.describes_mem hf
    have := hwf.file_bounds hg
    rw [hdesc.first] at h1
    rw [hdesc.last] at h2
    omega
  · rintro ⟨h1, h2⟩
    obtain ⟨g, hg, hfirst, hlast⟩ := hwf.exists_file h1 h2
    obtain ⟨f, hf, hdesc⟩ := forall₂_mem h.files hg
    exact ⟨f, (h.findFile_iff hwf).mpr ⟨hf, hdesc.first ▸ hfirst, hdesc.last ▸ hlast⟩⟩

end Indexes

/-! ## `position` -/

/-- The spans lie within the bytes of the records. -/
theorem span_le {pos : Nat} {rs : List (Nat × LogRecord)} {s : Span} (h : s ∈ spansFrom pos rs) :
    s.offset + s.length ≤ pos + (rs.flatMap write).length := by
  induction rs generalizing pos with
  | nil => cases h
  | cons r rs ih =>
    rw [spansFrom_cons] at h
    rw [List.flatMap_cons, List.length_append]
    rcases List.mem_cons.mp h with rfl | h
    · rw [write_eq, List.length_append]
      dsimp only
      omega
    · have := ih h
      omega

namespace Describes

variable {f : IndexFile} {g : LogFile}

/-- The place of a record. -/
theorem position (h : Describes f g) (hwf : g.WF) (hi : f.indexed = true) {i : Nat}
    (hlt : i < g.records.length) : f.position g.records[i].1 = .ok i := by
  unfold IndexFile.position
  cases hs : g.sparse with
  | false =>
    rw [h.sparse, hs, if_neg Bool.false_ne_true, hwf.revision_at hs hlt, h.first,
      (h.spans hi).1, length_spansFrom, if_neg (by omega)]
    congr 1
    omega
  | true =>
    have hlen : i < (g.records.map Prod.fst).length := by simpa using hlt
    have hfind : (g.records.map Prod.fst).findIdx (fun r => decide (g.records[i].1 ≤ r)) = i := by
      rw [List.findIdx_eq hlen]
      refine ⟨by simp, fun j hj => ?_⟩
      have hlow := List.pairwise_iff_getElem.mp hwf.ascending j i (by omega) hlt hj
      simpa using hlow
    rw [h.sparse, hs, if_pos rfl, (h.spans hi).2 hs]
    dsimp only
    rw [hfind, if_pos]
    simp [hlt]

/-- A place is that of a record with the revision. -/
theorem of_position (h : Describes f g) (hwf : g.WF) (hi : f.indexed = true) {pos : Nat}
    (hpos : f.position r = .ok pos) : ∃ hlt : pos < g.records.length, g.records[pos].1 = r := by
  unfold IndexFile.position at hpos
  cases hs : g.sparse with
  | false =>
    rw [h.sparse, hs, if_neg Bool.false_ne_true, (h.spans hi).1, length_spansFrom] at hpos
    split at hpos
    · cases hpos
    · next hin =>
      cases hpos
      rw [h.first] at hin ⊢
      have hlt : r - g.first < g.records.length := by omega
      refine ⟨hlt, ?_⟩
      rw [hwf.revision_at hs hlt]
      omega
  | true =>
    rw [h.sparse, hs, if_pos rfl, (h.spans hi).2 hs] at hpos
    dsimp only at hpos
    split at hpos
    · next hget =>
      cases hpos
      obtain ⟨hlt, heq⟩ := List.getElem?_eq_some_iff.mp hget
      exact ⟨by simpa using hlt, by simpa using heq⟩
    · cases hpos

/-- The span of a record leads to its encoding. -/
theorem span_bytes (h : Describes f g) (hi : f.indexed = true) {i : Nat}
    (hlt : i < g.records.length) :
    (f.spans.getD i ⟨0, 0⟩).offset + (f.spans.getD i ⟨0, 0⟩).length ≤
        (encodeFile g.records).length ∧
      (f.spans.getD i ⟨0, 0⟩).bytes (encodeFile g.records) =
        encodeRecord g.records[i].1 g.records[i].2 := by
  have hspans := (h.spans hi).1
  have hlen : i < (spansFrom header.length g.records).length := by simpa using hlt
  have hget : f.spans.getD i ⟨0, 0⟩ = (spansFrom header.length g.records)[i] := by
    rw [hspans, List.getD_eq_getElem?_getD, List.getElem?_eq_getElem hlen]
    rfl
  rw [hget]
  constructor
  · have := span_le (List.getElem_mem hlen)
    rwa [encodeFile, List.length_append]
  · have hbytes := bytes_spansFrom header [] g.records
    rw [List.append_nil] at hbytes
    have hat := congrArg (fun xs => xs[i]?) hbytes
    simpa [hlt, encodeFile] using hat

end Describes

/-! ## The whole read -/

section

variable {d : DiskLog} {l : FilesystemLog} {r : Nat}

/-- The entry that a read goes by: loaded or not, it is indexed. -/
theorem Indexes.entry (h : Indexes d l) {g : LogFile} (hdesc : Describes f g)
    (hdata : d.dir.lookup g.name = some (encodeFile g.records)) :
    ∃ f', (if f = d.active then Except.ok f else (DiskLog.load d.dir f).map Prod.fst) = .ok f' ∧
      Describes f' g ∧ f'.indexed = true := by
  by_cases hactive : f = d.active
  · rw [if_pos hactive]
    exact ⟨f, rfl, hdesc, hactive ▸ h.indexed⟩
  · rw [if_neg hactive]
    obtain ⟨f', hload, hdesc', hindexed, -⟩ := hdesc.load hdata
    exact ⟨f', by rw [hload]; rfl, hdesc', hindexed⟩

/-- A read returns the encoding of the record, whatever has become of the files that do not cover it. -/
theorem Indexes.recordBytes (h : Indexes d l) (hwf : l.WF) {x : LogRecord}
    (hx : (r, x) ∈ l.records)
    (hdir : ∀ g ∈ l.files, g.first ≤ r → r ≤ g.last →
      d.dir.lookup g.name = some (encodeFile g.records)) :
    d.recordBytes r = .ok (encodeRecord r x) := by
  obtain ⟨g, hg, hgx⟩ := List.mem_flatMap.mp hx
  obtain ⟨f, hf, hdesc⟩ := forall₂_mem h.files hg
  have hgwf := hwf.file_wf hg
  obtain ⟨h1, h2⟩ := hgwf.bounds _ hgx
  have hdata := hdir g hg h1 h2
  have hfind : d.findFile r = some f :=
    (h.findFile_iff hwf).mpr ⟨hf, hdesc.first ▸ h1, hdesc.last ▸ h2⟩
  obtain ⟨f', hload, hdesc', hindexed⟩ := h.entry hdesc hdata
  obtain ⟨i, hi, heq⟩ := List.getElem_of_mem hgx
  have hposition := hdesc'.position hgwf hindexed hi
  obtain ⟨hle, hbytes⟩ := hdesc'.span_bytes hindexed hi
  rw [heq] at hposition hbytes
  rw [← hdesc'.name] at hdata
  unfold DiskLog.recordBytes
  rw [hfind]
  simp only [hload, hposition, hdata]
  rw [if_neg (by omega), hbytes]

/-- What a read returns is the encoding of a record of the log. -/
theorem Indexes.of_recordBytes (h : Indexes d l) (hwf : l.WF) {m : Bytes}
    (hdir : ∀ g ∈ l.files, g.first ≤ r → r ≤ g.last →
      d.dir.lookup g.name = some (encodeFile g.records))
    (hread : d.recordBytes r = .ok m) : ∃ x, (r, x) ∈ l.records ∧ m = encodeRecord r x := by
  suffices hin : ∃ x, (r, x) ∈ l.records by
    obtain ⟨x, hx⟩ := hin
    rw [h.recordBytes hwf hx hdir] at hread
    exact ⟨x, hx, (Except.ok.inj hread).symm⟩
  unfold DiskLog.recordBytes at hread
  split at hread
  · cases hread
  · next f hfind =>
    obtain ⟨hf, h1, h2⟩ := (h.findFile_iff hwf).mp hfind
    obtain ⟨g, hg, hdesc⟩ := h.describes_mem hf
    have hdata := hdir g hg (hdesc.first ▸ h1) (hdesc.last ▸ h2)
    obtain ⟨f', hload, hdesc', hindexed⟩ := h.entry hdesc hdata
    simp only [hload] at hread
    split at hread
    · cases hread
    · next pos hpos =>
      obtain ⟨hlt, heq⟩ := hdesc'.of_position (hwf.file_wf hg) hindexed hpos
      refine ⟨g.records[pos].2, List.mem_flatMap.mpr ⟨g, hg, ?_⟩⟩
      rw [← heq]
      exact List.getElem_mem hlt

end

/-- An undisturbed read returns the encoding of the record. -/
theorem Refines.recordBytes {d : DiskLog} (h : Refines d l)
    {x : LogRecord} (hx : (r, x) ∈ l.records) : d.recordBytes r = .ok (encodeRecord r x) :=
  h.index.recordBytes h.wf hx fun g hg _ _ => h.dir.holds g hg

end CloudEtcd
