/-
# CloudEtcd.Persistence.Mappings — the memory mappings of log files, and the reads that use them.

`recordBytes` chooses a file under the log's `mu`, then loads and pins it under the file's `mu`, and the
caller decodes from the mapping until it calls `unpin`.  `compactGroup` swaps the index and then retires the
replaced files one by one.  These sections are the steps here, in any order: a read may find its file
replaced in between, map it again and pin it, because nothing in the file says that it is gone.

What carries the proof is that `pins` counts the reads that hold the mapping (`Inv.pins`) and that each of
them holds the file's own mapping (`Inv.held`); a file is unmapped only at zero pins.
-/
import CloudEtcd.Lib.Transition
import CloudEtcd.Persistence.Scan

namespace CloudEtcd

/-- The part of a `logFile` that its `mu` guards, and its size.  Mappings are numbered. -/
structure MappedFile where
  size : Nat
  indexed : Bool
  /-- Whether `reader` is open. -/
  reader : Bool
  mapped : Option Nat
  pins : Int
  retire : Bool
  deriving DecidableEq, Repr

/-- What the system and the file's bytes answer in one section. -/
structure Answers where
  /-- `os.Open` succeeds. -/
  opens : Bool
  /-- `mmapFile` of a file that is not empty: a mapping, `errNoMmap`, or `none` for another error, on
  which the process panics. -/
  maps : Option Bool
  /-- The file can be read and `Offsets` succeeds. -/
  indexes : Bool
  /-- `position` finds the revision. -/
  finds : Bool
  deriving DecidableEq, Repr

structure Mappings where
  /-- The `logFile`s, by pointer. -/
  files : Nat → MappedFile
  /-- How many there are. -/
  made : Nat
  /-- `l.files`; the last one is the active file. -/
  index : List Nat
  /-- The files that `compactGroup` has replaced and not yet retired; it holds the log's `mu`. -/
  replacing : List Nat
  /-- The calls of `recordBytes` between their two sections: the file, and whether it was active. -/
  calls : List (Nat × Bool)
  /-- The reads that have taken a mapping and not yet released it. -/
  held : List (Nat × Nat)
  /-- The number of the next mapping. -/
  fresh : Nat
  /-- The calls of `munmapFile`. -/
  unmapped : List Nat
  /-- The files that were pinned when `compactGroup` retired them. -/
  pinnedAtSwap : List Nat

namespace Mappings

/-! ## The sections -/

def set (s : Mappings) (f : Nat) (file : MappedFile) : Mappings :=
  { s with files := Function.update s.files f file }

/-- `munmapFile(f.mapped)` and `f.mapped = nil`, for the mapping `m`. -/
def unmap (s : Mappings) (f m : Nat) : Mappings :=
  { s.set f { s.files f with mapped := none } with unmapped := s.unmapped ++ [m] }

/-- `readerLocked`. -/
def readerLocked (a : Answers) (s : Mappings) (f : Nat) : Mappings × Bool :=
  if (s.files f).reader then (s, true)
  else if a.opens then (s.set f { s.files f with reader := true }, true)
  else (s, false)

/-- The mapping in `loadLocked`; `none` is the panic. -/
def mapLocked (a : Answers) (s : Mappings) (f : Nat) : Option Mappings :=
  if (s.files f).mapped.isSome ∨ (s.files f).size = 0 then some s
  else
    match a.maps with
    | none => none
    | some false => some s
    | some true =>
      some { s.set f { s.files f with mapped := some s.fresh } with fresh := s.fresh + 1 }

/-- The index in `loadLocked`. -/
def indexLocked (a : Answers) (s : Mappings) (f : Nat) : Mappings × Bool :=
  if (s.files f).indexed then (s, true)
  else if a.indexes then (s.set f { s.files f with indexed := true }, true)
  else (s, false)

/-- `loadLocked`. -/
def loadLocked (a : Answers) (s : Mappings) (f : Nat) : Option (Mappings × Bool) :=
  let (s, opened) := readerLocked a s f
  if opened then (mapLocked a s f).map fun s => indexLocked a s f else some (s, false)

/-- The part of `recordBytes` after `loadLocked`: a read from the mapping pins it. -/
def pinLocked (a : Answers) (s : Mappings) (f : Nat) : Mappings :=
  if a.finds then
    match (s.files f).mapped with
    | some m =>
      { s.set f { s.files f with pins := (s.files f).pins + 1 } with held := (f, m) :: s.held }
    | none => (readerLocked a s f).1
  else s

/-- The section of `recordBytes` under the file's `mu`. -/
def take (a : Answers) (s : Mappings) (f : Nat) (active : Bool) : Option Mappings :=
  if active then some (pinLocked a s f)
  else
    (loadLocked a s f).map fun
      | (s, true) => pinLocked a s f
      | (s, false) => s

/-- `unpin`, by a read that holds the mapping `m`. -/
def unpin (s : Mappings) (f m : Nat) : Mappings :=
  let s := { s.set f { s.files f with pins := (s.files f).pins - 1 } with held := s.held.erase (f, m) }
  match (s.files f).mapped with
  | some mapped =>
    if (s.files f).pins = 0 ∧ (s.files f).retire = true then s.unmap f mapped else s
  | none => s

/-- The section of `compactGroup` for one replaced file. -/
def retireFile (s : Mappings) (f : Nat) : Mappings :=
  let s' :=
    match (s.files f).mapped with
    | some m => if (s.files f).pins = 0 then s.unmap f m else s.set f { s.files f with retire := true }
    | none => s
  { s'.set f { s'.files f with reader := false } with
    pinnedAtSwap := if (s.files f).pins = 0 then s.pinnedAtSwap else f :: s.pinnedAtSwap }

/-- A new `logFile`. -/
def create (s : Mappings) (size : Nat) : Mappings :=
  { s.set s.made ⟨size, true, false, none, 0, false⟩ with made := s.made + 1 }

/-! ## The steps -/

inductive Action where
  /-- `recordBytes` chooses a file. -/
  | choose (f : Nat)
  /-- It goes on with the file. -/
  | take (f : Nat) (active : Bool) (answers : Answers)
  /-- A read releases its mapping. -/
  | release (f m : Nat)
  /-- `liveRecords` loads a closed file for a compaction. -/
  | measure (f : Nat) (answers : Answers)
  /-- Bytes are written to the active file. -/
  | append (bytes : Nat)
  /-- `rotateLocked`. -/
  | rotate
  /-- `compactGroup` replaces the closed files from position `i` on by one. -/
  | swap (i count size : Nat)
  /-- It retires the next of them. -/
  | retire
  deriving DecidableEq, Repr

/-- Whether the log's `mu` is free. -/
def Free (s : Mappings) : Prop := s.replacing = []

instance (s : Mappings) : Decidable s.Free := inferInstanceAs (Decidable (_ = _))

local instance lawfulCalls : LawfulBEq (Nat × Bool) := inferInstance

def step (s : Mappings) : Action → Option Mappings
  | .choose f =>
    if s.Free ∧ f ∈ s.index then
      some { s with calls := (f, s.index.getLast? == some f) :: s.calls }
    else none
  | .take f active a =>
    if (f, active) ∈ s.calls then
      take a { s with calls := s.calls.erase (f, active) } f active
    else none
  | .release f m => if (f, m) ∈ s.held then some (s.unpin f m) else none
  | .measure f a =>
    if s.Free ∧ f ∈ s.index.dropLast then (loadLocked a s f).map Prod.fst else none
  | .append bytes =>
    if s.Free then
      s.index.getLast?.map fun f => s.set f { s.files f with size := (s.files f).size + bytes }
    else none
  | .rotate =>
    if s.Free then some { s.create LogCodec.header.length with index := s.index ++ [s.made] }
    else none
  | .swap i count size =>
    if s.Free ∧ 0 < count ∧ i + count < s.index.length then
      some { s.create size with
        index := s.index.take i ++ s.made :: s.index.drop (i + count)
        replacing := (s.index.drop i).take count }
    else none
  | .retire =>
    match s.replacing with
    | [] => none
    | f :: rest => some { s.retireFile f with replacing := rest }

/-- A log just opened: nothing is mapped, and only the active file is indexed. -/
def start (sizes : List Nat) : Mappings where
  files f := ⟨sizes.getD f 0, f + 1 == sizes.length, false, none, 0, false⟩
  made := sizes.length
  index := List.range sizes.length
  replacing := []
  calls := []
  held := []
  fresh := 0
  unmapped := []
  pinnedAtSwap := []

/-! ## What every step keeps -/

/-- The number of reads that have taken the file's mapping and not yet released it. -/
def readsOf (held : List (Nat × Nat)) (f : Nat) : Nat := held.countP (·.1 = f)

structure Inv (s : Mappings) : Prop where
  index_lt : ∀ f ∈ s.index, f < s.made
  calls_lt : ∀ c ∈ s.calls, c.1 < s.made
  unmade : ∀ f, s.made ≤ f → (s.files f).mapped = none
  pins : ∀ f, (s.files f).pins = readsOf s.held f
  held : ∀ f m, (f, m) ∈ s.held → (s.files f).mapped = some m
  distinct : ∀ f g m, (s.files f).mapped = some m → (s.files g).mapped = some m → f = g
  live : ∀ f m, (s.files f).mapped = some m → m < s.fresh ∧ m ∉ s.unmapped
  unmapped_lt : ∀ m ∈ s.unmapped, m < s.fresh
  nodup : s.unmapped.Nodup
  retired : ∀ f ∈ s.pinnedAtSwap, f < s.made ∧ (s.files f).retire = true

section Steps

variable {a : Answers} {s s' : Mappings} {f m : Nat} {file : MappedFile}

@[simp] theorem files_set (s : Mappings) (f : Nat) (file : MappedFile) (g : Nat) :
    (s.set f file).files g = if g = f then file else s.files g := by
  simp [set, Function.update_apply]

section

variable (h : Inv s)
include h

/-- A section that leaves the mapping and its pins alone. -/
theorem Inv.touch (hmapped : file.mapped = (s.files f).mapped)
    (hpins : file.pins = (s.files f).pins)
    (hretire : (s.files f).retire = true → file.retire = true) : Inv (s.set f file) := by
  have hm : ∀ g, ((s.set f file).files g).mapped = (s.files g).mapped := by
    intro g
    rw [files_set]
    split
    · next heq => rw [heq, hmapped]
    · rfl
  refine ⟨h.index_lt, h.calls_lt, ?_, ?_, ?_, ?_, ?_, h.unmapped_lt, h.nodup, ?_⟩
  · exact fun g hg => (hm g).trans (h.unmade g hg)
  · intro g
    rw [files_set]
    split
    · next heq =>
      rw [hpins, heq]
      exact h.pins f
    · exact h.pins g
  · exact fun g m hg => (hm g).trans (h.held g m hg)
  · simpa only [hm] using h.distinct
  · exact fun g m hg => h.live g m ((hm g).symm.trans hg)
  · intro g hg
    obtain ⟨hlt, hg⟩ := h.retired g hg
    refine ⟨hlt, ?_⟩
    rw [files_set]
    split
    · next heq => exact hretire (heq ▸ hg)
    · exact hg

theorem Inv.readerLocked : Inv (readerLocked a s f).1 := by
  unfold Mappings.readerLocked
  split
  · exact h
  · split
    · exact h.touch rfl rfl id
    · exact h

theorem Inv.indexLocked : Inv (indexLocked a s f).1 := by
  unfold Mappings.indexLocked
  split
  · exact h
  · split
    · exact h.touch rfl rfl id
    · exact h

/-- A new mapping has a number of its own. -/
theorem Inv.map (hf : f < s.made) (hnone : (s.files f).mapped = none) :
    Inv { s.set f { s.files f with mapped := some s.fresh } with fresh := s.fresh + 1 } := by
  have hfresh : ∀ g, (s.files g).mapped ≠ some s.fresh :=
    fun g hg => absurd (h.live g _ hg).1 (lt_irrefl _)
  refine ⟨h.index_lt, h.calls_lt, ?_, ?_, ?_, ?_, ?_, ?_, h.nodup, ?_⟩ <;>
    simp only [files_set]
  · intro g hg
    rw [if_neg (by rintro rfl; exact absurd hf (not_lt.mpr hg))]
    exact h.unmade g hg
  · have := h.pins
    grind [set]
  · have := h.held
    grind [set]
  · have := h.distinct
    grind [set]
  · have := h.live
    have := h.unmapped_lt
    grind [set]
  · have := h.unmapped_lt
    grind [set]
  · have := h.retired
    grind [set]

theorem Inv.mapLocked (hf : f < s.made) (hstep : mapLocked a s f = some s') : Inv s' := by
  unfold Mappings.mapLocked at hstep
  split at hstep
  · cases hstep
    exact h
  · next hnone =>
    split at hstep
    · cases hstep
    · cases hstep
      exact h
    · obtain rfl := Option.some.inj hstep
      exact h.map hf (by simpa using (not_or.mp hnone).1)

theorem Inv.loadLocked {ok : Bool} (hf : f < s.made) (hstep : loadLocked a s f = some (s', ok)) :
    Inv s' := by
  have hmade : (Mappings.readerLocked a s f).1.made = s.made := by
    unfold Mappings.readerLocked
    split
    · rfl
    · split <;> rfl
  have hreader : Inv (Mappings.readerLocked a s f).1 := h.readerLocked
  unfold Mappings.loadLocked at hstep
  dsimp only at hstep
  split at hstep
  · obtain ⟨t, ht, hindex⟩ := Option.map_eq_some_iff.mp hstep
    have hmapped : Inv (Mappings.indexLocked a t f).1 :=
      (hreader.mapLocked (hmade ▸ hf) ht).indexLocked
    rwa [hindex] at hmapped
  · obtain ⟨rfl, -⟩ := Prod.mk.inj (Option.some.inj hstep)
    exact hreader

theorem Inv.pins_pos (hheld : (f, m) ∈ s.held) : 0 < (s.files f).pins := by
  rw [h.pins, Int.natCast_pos, readsOf, List.countP_pos_iff]
  exact ⟨(f, m), hheld, by simp⟩

theorem Inv.mapped_of_pins (hpins : (s.files f).pins ≠ 0) :
    ∃ m, (f, m) ∈ s.held ∧ (s.files f).mapped = some m := by
  rw [h.pins, Int.natCast_ne_zero, ← Nat.pos_iff_ne_zero, readsOf, List.countP_pos_iff] at hpins
  obtain ⟨⟨g, m⟩, hg, heq⟩ := hpins
  obtain rfl : g = f := by simpa using heq
  exact ⟨m, hg, h.held g m hg⟩

/-- At zero pins no read holds the mapping. -/
theorem Inv.unmap (hm : (s.files f).mapped = some m) (hpins : (s.files f).pins = 0) :
    Inv (s.unmap f m) := by
  obtain ⟨hlt, hnew⟩ := h.live f m hm
  have hnone : ∀ n, (f, n) ∉ s.held := fun n hn => absurd (h.pins_pos hn) (by omega)
  refine ⟨h.index_lt, h.calls_lt, ?_, ?_, ?_, ?_, ?_, ?_, ?_, ?_⟩ <;>
    simp only [Mappings.unmap, files_set]
  · have := h.unmade
    grind [set]
  · have := h.pins
    grind [set]
  · have := h.held
    grind [set]
  · have := h.distinct
    grind [set]
  · have := h.live
    have := h.distinct
    grind [set]
  · have := h.unmapped_lt
    grind [set]
  · have := h.nodup
    grind [set]
  · have := h.retired
    grind [set]

/-- The pins of one file and the reads that hold its mapping change together. -/
theorem Inv.setPins {held : List (Nat × Nat)} {n : Int}
    (hheld : ∀ g m, (g, m) ∈ held → (s.files g).mapped = some m) (hcount : n = readsOf held f)
    (hothers : ∀ g, g ≠ f → readsOf held g = readsOf s.held g) :
    Inv { s.set f { s.files f with pins := n } with held } := by
  refine ⟨h.index_lt, h.calls_lt, ?_, ?_, ?_, ?_, ?_, h.unmapped_lt, h.nodup, ?_⟩ <;>
    simp only [files_set]
  · have := h.unmade
    grind [set]
  · have := h.pins
    grind
  · grind
  · have := h.distinct
    grind
  · have := h.live
    grind [set]
  · have := h.retired
    grind [set]

theorem Inv.pinLocked : Inv (pinLocked a s f) := by
  unfold Mappings.pinLocked
  split
  · split
    · next m hm =>
      refine h.setPins ?_ ?_ ?_
      · have := h.held
        grind
      · rw [h.pins f]
        simp [readsOf]
      · intro g hg
        simp [readsOf, hg.symm]
    · exact h.readerLocked
  · exact h

theorem Inv.take {active : Bool} (hf : f < s.made) (hstep : take a s f active = some s') :
    Inv s' := by
  unfold Mappings.take at hstep
  split at hstep
  · cases hstep
    exact h.pinLocked
  · obtain ⟨⟨t, ok⟩, ht, hpin⟩ := Option.map_eq_some_iff.mp hstep
    have hload := h.loadLocked hf ht
    cases ok with
    | true =>
      rw [← hpin]
      exact hload.pinLocked
    | false =>
      rw [← hpin]
      exact hload

/-- A read less, before the mapping is looked at. -/
theorem Inv.drop (hheld : (f, m) ∈ s.held) :
    Inv { s.set f { s.files f with pins := (s.files f).pins - 1 } with
      held := s.held.erase (f, m) } := by
  have hreads : ∀ g, readsOf s.held g = readsOf ((f, m) :: s.held.erase (f, m)) g :=
    fun g => (List.perm_cons_erase hheld).countP_eq _
  refine h.setPins ?_ ?_ ?_
  · exact fun g n hn => h.held g n (List.mem_of_mem_erase hn)
  · rw [h.pins f, hreads]
    simp [readsOf]
  · intro g hg
    rw [hreads g]
    simp [readsOf, hg.symm]

theorem Inv.unpin (hheld : (f, m) ∈ s.held) : Inv (s.unpin f m) := by
  have hdrop := h.drop hheld
  unfold Mappings.unpin
  dsimp only
  split
  · next mapped hmapped =>
    split
    · next hlast => exact hdrop.unmap hmapped hlast.1
    · exact hdrop
  · exact hdrop

/-- The retired file is one that was made, and it is marked if it is pinned. -/
theorem Inv.retireFile : Inv (s.retireFile f) := by
  unfold Mappings.retireFile
  dsimp only
  generalize ht : (match (s.files f).mapped with
    | some m => if (s.files f).pins = 0 then s.unmap f m else s.set f { s.files f with retire := true }
    | none => s) = t
  have hinv : Inv t ∧ t.made = s.made ∧ t.pinnedAtSwap = s.pinnedAtSwap ∧
      ((s.files f).pins ≠ 0 → f < s.made ∧ (t.files f).retire = true) := by
    subst ht
    split
    · next m hm =>
      have hlt : f < s.made := by
        by_contra hge
        rw [h.unmade f (not_lt.mp hge)] at hm
        cases hm
      split
      · next hpins => exact ⟨h.unmap hm hpins, rfl, rfl, fun hne => absurd hpins hne⟩
      · exact ⟨h.touch rfl rfl fun _ => rfl, rfl, rfl, fun _ => ⟨hlt, by simp⟩⟩
    · next hnone =>
      refine ⟨h, rfl, rfl, fun hpins => ?_⟩
      obtain ⟨m, -, hm⟩ := h.mapped_of_pins hpins
      rw [hnone] at hm
      cases hm
  obtain ⟨hinv, hmade, hsame, hmark⟩ := hinv
  have hclosed : Inv (t.set f { t.files f with reader := false }) := hinv.touch rfl rfl id
  refine { hclosed with retired := fun g hg => ?_ }
  split at hg
  · exact hclosed.retired g (hsame ▸ hg)
  · next hpins =>
    rcases List.mem_cons.mp hg with rfl | hg
    · obtain ⟨hlt, hretire⟩ := hmark hpins
      exact ⟨hmade ▸ hlt, by simpa using hretire⟩
    · exact hclosed.retired g (hsame ▸ hg)

/-- A new file has no mapping and no pins. -/
theorem Inv.create (size : Nat) : Inv (s.create size) := by
  have hreads : readsOf s.held s.made = 0 := by
    simp only [readsOf, List.countP_eq_zero, decide_eq_true_eq]
    rintro ⟨g, m⟩ hg rfl
    have hmapped := h.held _ _ hg
    rw [h.unmade _ le_rfl] at hmapped
    cases hmapped
  refine ⟨fun f hf => Nat.lt_succ_of_lt (h.index_lt f hf), fun c hc => Nat.lt_succ_of_lt (h.calls_lt c hc),
    ?_, ?_, ?_, ?_, ?_, h.unmapped_lt, h.nodup, ?_⟩ <;> simp only [Mappings.create, files_set]
  · have := h.unmade
    grind [set]
  · have := h.pins
    grind [set]
  · have := h.held
    have := h.unmade
    grind [set]
  · have := h.distinct
    grind [set]
  · have := h.live
    grind [set]
  · have := h.retired
    grind [set]

theorem Inv.step {action : Action} (hstep : s.step action = some s') : Inv s' := by
  cases action with
  | choose f =>
    obtain ⟨⟨-, hf⟩, hstep⟩ := Option.ite_none_right_eq_some.mp hstep
    obtain rfl := Option.some.inj hstep
    refine { h with calls_lt := fun c hc => ?_ }
    rcases List.mem_cons.mp hc with rfl | hc
    · exact h.index_lt f hf
    · exact h.calls_lt c hc
  | take f active a =>
    obtain ⟨hcall, hstep⟩ := Option.ite_none_right_eq_some.mp hstep
    have herase : Inv { s with calls := s.calls.erase (f, active) } :=
      { h with calls_lt := fun c hc => h.calls_lt c (List.mem_of_mem_erase hc) }
    exact herase.take (h.calls_lt _ hcall) hstep
  | release f m =>
    obtain ⟨hheld, hstep⟩ := Option.ite_none_right_eq_some.mp hstep
    obtain rfl := Option.some.inj hstep
    exact h.unpin hheld
  | measure f a =>
    obtain ⟨⟨-, hf⟩, hstep⟩ := Option.ite_none_right_eq_some.mp hstep
    obtain ⟨⟨t, ok⟩, ht, rfl⟩ := Option.map_eq_some_iff.mp hstep
    exact h.loadLocked (h.index_lt f (List.mem_of_mem_dropLast hf)) ht
  | append bytes =>
    obtain ⟨-, hstep⟩ := Option.ite_none_right_eq_some.mp hstep
    obtain ⟨f, -, rfl⟩ := Option.map_eq_some_iff.mp hstep
    exact h.touch rfl rfl id
  | rotate =>
    obtain ⟨-, hstep⟩ := Option.ite_none_right_eq_some.mp hstep
    obtain rfl := Option.some.inj hstep
    refine { h.create LogCodec.header.length with index_lt := fun f hf => ?_ }
    rcases List.mem_append.mp hf with hf | hf
    · exact Nat.lt_succ_of_lt (h.index_lt f hf)
    · exact Nat.lt_succ_of_le (List.mem_singleton.mp hf).le
  | swap i count size =>
    obtain ⟨-, hstep⟩ := Option.ite_none_right_eq_some.mp hstep
    obtain rfl := Option.some.inj hstep
    refine { h.create size with index_lt := fun f hf => ?_ }
    rcases List.mem_append.mp hf with hf | hf
    · exact Nat.lt_succ_of_lt (h.index_lt f (List.mem_of_mem_take hf))
    · rcases List.mem_cons.mp hf with rfl | hf
      · exact Nat.lt_succ_self _
      · exact Nat.lt_succ_of_lt (h.index_lt f (List.mem_of_mem_drop hf))
  | retire =>
    simp only [Mappings.step] at hstep
    split at hstep
    · cases hstep
    · obtain rfl := Option.some.inj hstep
      exact { h.retireFile with }

end

theorem inv_start (sizes : List Nat) : Inv (start sizes) where
  index_lt _ := List.mem_range.mp
  calls_lt := nofun
  unmade _ _ := rfl
  pins _ := rfl
  held := nofun
  distinct := nofun
  live := nofun
  unmapped_lt := nofun
  nodup := List.nodup_nil
  retired := nofun

/-- The last read of a retired file unmaps it. -/
theorem Inv.unpin_last (h : Inv s) (hheld : (f, m) ∈ s.held) (hpins : (s.files f).pins = 1)
    (hretire : (s.files f).retire = true) :
    ((s.unpin f m).files f).mapped = none ∧ (s.unpin f m).unmapped = s.unmapped ++ [m] := by
  have hmapped := h.held f m hheld
  simp [Mappings.unpin, Mappings.unmap, hmapped, hpins, hretire, set]

end Steps

/-- In every reachable state a pinned file has its mapping, `pins` counts the reads that have taken it and
not yet released it, and each of them took the mapping the file still has.  No mapping is unmapped twice,
and the last read of a file that was pinned when compaction retired it unmaps it. -/
theorem mappings_outlive_reads (sizes : List Nat) {actions : List Action} {s : Mappings}
    (hrun : Transition.run step (start sizes) actions = some s) :
    (∀ f, 0 < (s.files f).pins → (s.files f).mapped.isSome) ∧
    (∀ f, (s.files f).pins = readsOf s.held f) ∧
    (∀ f m, (f, m) ∈ s.held → (s.files f).mapped = some m) ∧
    s.unmapped.Nodup ∧
    (∀ f m, (f, m) ∈ s.held → f ∈ s.pinnedAtSwap → (s.files f).pins = 1 →
      ∃ s', s.step (.release f m) = some s' ∧ (s'.files f).mapped = none ∧
        s'.unmapped = s.unmapped ++ [m]) := by
  have h : Inv s := Transition.run_invariant (fun _ _ _ h => h.step) hrun (inv_start sizes)
  refine ⟨fun f hf => ?_, h.pins, h.held, h.nodup, fun f m hheld hswap hpins => ?_⟩
  · obtain ⟨m, -, hm⟩ := h.mapped_of_pins hf.ne'
    rw [hm]
    rfl
  · exact ⟨s.unpin f m, if_pos hheld, h.unpin_last hheld hpins (h.retired f hswap).2⟩

/-- A read takes the mapping of the first file, which compaction then replaces. -/
def readAndSwap : List Action :=
  [.choose 0, .take 0 false ⟨true, some true, true, true⟩, .swap 0 1 50, .retire]

theorem mappings_outlive_reads_swapped :
    ∃ s s', Transition.run step (start [100, 8]) readAndSwap = some s ∧ s.index = [2, 1] ∧
      s.unmapped = [] ∧ s.step (.release 0 0) = some s' ∧ s'.unmapped = [0] := by
  obtain ⟨s, hrun, hindex, hunmapped, hheld, hswap, hpins⟩ :
      ∃ s, Transition.run step (start [100, 8]) readAndSwap = some s ∧ s.index = [2, 1] ∧
        s.unmapped = [] ∧ (0, 0) ∈ s.held ∧ 0 ∈ s.pinnedAtSwap ∧ (s.files 0).pins = 1 :=
    by decide +kernel
  obtain ⟨s', hstep, -, hgone⟩ := (mappings_outlive_reads _ hrun).2.2.2.2 0 0 hheld hswap hpins
  exact ⟨s, s', hrun, hindex, hunmapped, hstep, by simp [hgone, hunmapped]⟩

end Mappings

end CloudEtcd
