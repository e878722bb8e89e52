/-
# CloudEtcd.Persistence.Reading — a call of `GetLogEntry` in its sections.

`GetLogEntry` holds no lock from one to the next of its four sections: the look into the cache, `findFile` under
the log's lock, the read under the file's lock, and `cache.Put`.  A compaction may swap the file out of the index
that a call has found.  The call then opens what has the file's name now.

A model of the log says what each section finds; `Sound` is what the calls may be relied on for as long as no
file is swapped that a call is about to read.
-/
import CloudEtcd.Persistence.RecordCache

namespace CloudEtcd

/-- Where a call stands.  `F` is the index entry of a file, `E` an error. -/
inductive Reading (F E : Type) where
  /-- The cache has not got the record; `findFile` comes next. -/
  | missed (revision : Nat)
  /-- A file was found, active or not, and is read next.  Once it is out of the index, this is its entry. -/
  | found (revision : Nat) (active : Bool) (retired : Option F)
  /-- The record was read; `cache.Put` comes next. -/
  | holding (revision : Nat) (record : LogRecord)
  | done (revision : Nat) (answer : Except E LogRecord)

namespace Reading

variable {F E : Type}

/-- The look into the cache. -/
def look (c : RecordCache) (revision : Nat) : Reading F E :=
  (c.get revision).2.elim (.missed revision) fun record => .done revision (.ok record)

/-- `findFile`, which says whether the file is the active one. -/
def find (file : Nat → Except E Bool) : Reading F E → Reading F E
  | .missed r =>
    match file r with
    | .error e => .done r (.error e)
    | .ok active => .found r active none
  | x => x

/-- The read and the decoding of the record. -/
def read (answer : Nat → Option F → Except E LogRecord) (cached : Nat → Bool → Option F → Bool) :
    Reading F E → Reading F E
  | .found r active retired =>
    match answer r retired with
    | .error e => .done r (.error e)
    | .ok record => if cached r active retired then .holding r record else .done r (.ok record)
  | x => x

/-- `cache.Put`. -/
def put : Reading F E → Reading F E
  | .holding r record => .done r (.ok record)
  | x => x

/-- The cache after it. -/
def cache (c : RecordCache) : Reading F E → RecordCache
  | .holding r record => c.put r record
  | _ => c

/-- A compaction swaps files out of the index, for some revisions the one that has it in its range. -/
def retire (file : Nat → Option F) : Reading F E → Reading F E
  | .found r active none => .found r active (file r)
  | x => x

/-- The revision of a call that is about to read. -/
def reads : Reading F E → Option Nat
  | .found r _ _ => some r
  | _ => none

/-- The record that the call has returned. -/
def returned : Reading F E → Option LogRecord
  | .done _ (.ok record) => some record
  | _ => none

/-- The file that the call has found is in the index, and it holds or has returned only such records. -/
def Sound (holds gave : Nat → LogRecord → Prop) : Reading F E → Prop
  | .missed _ => True
  | .found _ _ retired => retired = none
  | .holding r record => holds r record
  | .done r answer => ∀ record, answer = .ok record → gave r record

variable {holds gave holds' gave' : Nat → LogRecord → Prop} {x : Reading F E}

theorem Sound.look {c : RecordCache} {r : Nat} (h : ∀ record, (c.get r).2 = some record → gave r record) :
    (Reading.look c r : Reading F E).Sound holds gave := by
  unfold Reading.look
  cases hget : (c.get r).2 with
  | none => trivial
  | some record =>
    rintro _ ⟨⟩
    exact h record hget

theorem Sound.find (h : x.Sound holds gave) (file : Nat → Except E Bool) :
    (x.find file).Sound holds gave := by
  cases x with
  | missed r =>
    simp only [Reading.find]
    split
    · exact fun _ hrecord => by cases hrecord
    · rfl
  | found _ _ _ | holding _ _ | done _ _ => exact h

theorem Sound.read (h : x.Sound holds gave) (hgave : ∀ r record, holds r record → gave r record)
    {answer : Nat → Option F → Except E LogRecord}
    (hread : ∀ r record, answer r none = .ok record → holds r record) (cached : Nat → Bool → Option F → Bool) :
    (x.read answer cached).Sound holds gave := by
  cases x with
  | found r active retired =>
    obtain rfl : retired = none := h
    simp only [Reading.read]
    split
    · exact fun _ hrecord => by cases hrecord
    · next record hanswer =>
      split
      · exact hread r record hanswer
      · rintro _ ⟨⟩
        exact hgave r record (hread r record hanswer)
  | missed _ | holding _ _ | done _ _ => exact h

theorem Sound.put (h : x.Sound holds gave) (hgave : ∀ r record, holds r record → gave r record) :
    x.put.Sound holds gave := by
  cases x with
  | holding r record =>
    rintro _ ⟨⟩
    exact hgave r record h
  | missed _ | found _ _ _ | done _ _ => exact h

theorem Sound.retire (h : x.Sound holds gave) {file : Nat → Option F} (hnone : ∀ r ∈ x.reads, file r = none) :
    (x.retire file).Sound holds gave := by
  cases x with
  | found r active retired =>
    obtain rfl : retired = none := h
    exact hnone r rfl
  | missed _ | holding _ _ | done _ _ => exact h

theorem Sound.mono (h : x.Sound holds gave) (hholds : ∀ r record, x = .holding r record → holds r record →
    holds' r record) (hgave : ∀ r record, gave r record → gave' r record) : x.Sound holds' gave' := by
  cases x with
  | missed _ | found _ _ _ => exact h
  | holding r record => exact hholds r record rfl h
  | done r answer => exact fun record hrecord => hgave r record (h record hrecord)

variable {xs : List (Reading F E)}

/-- One of the calls goes on. -/
theorem sound_modify (h : ∀ x ∈ xs, x.Sound holds gave) (n : Nat) {f : Reading F E → Reading F E}
    (hf : ∀ x, x.Sound holds gave → (f x).Sound holds gave) : ∀ x ∈ xs.modify n f, x.Sound holds gave := by
  intro x hx
  obtain ⟨i, hi⟩ := List.mem_iff_getElem?.mp hx
  rw [List.getElem?_modify] at hi
  obtain ⟨y, hy, rfl⟩ := Option.map_eq_some_iff.mp hi
  have hsound := h y (List.mem_of_getElem? hy)
  split
  · exact hf y hsound
  · exact hsound

/-- What is cached then was cached, or is held by a call. -/
theorem mem_cache (h : ∀ x ∈ xs, x.Sound holds gave) {c : RecordCache} {n : Nat} {it : RecordCache.Item}
    (hit : it ∈ (xs[n]?.elim c (cache c)).ll) : it ∈ c.ll ∨ holds it.revision it.record := by
  cases hn : xs[n]? with
  | none =>
    rw [hn] at hit
    exact Or.inl hit
  | some x =>
    rw [hn] at hit
    have hsound := h x (List.mem_of_getElem? hn)
    cases x with
    | missed _ | found _ _ _ | done _ _ => exact Or.inl hit
    | holding r record =>
      refine (RecordCache.mem_put hit).imp_right fun ⟨hrev, hrecord⟩ => ?_
      rw [hrev, hrecord]
      exact hsound

end Reading

end CloudEtcd
