/-
# CloudEtcd.BPTree — the key index (`pkg/bptree`), as a map from keys to revision lists.

The index is a radix tree whose values are `Slot`s: the ascending revisions at which a key was
written and whether the latest one is a delete.  The empty key has no first byte and stands apart.
`BPTree` carries the tree's well-formedness, so every index that can be built is one.

A reader sees the index through `slotOf`.  `slotOf_addRevision` and `slotOf_compact` say what the two
writers do to it, key by key, and `listRevisionsByKeyRange_eq_scan` what a range scan visits.
-/
import CloudEtcd.Lib.RadixTree
import CloudEtcd.Lib.Timeline
import CloudEtcd.Persistence.Types

namespace CloudEtcd

/-- The revisions of one key and `nodeEntry.tombstone`: whether the latest is a delete.  A key
without revisions has no slot. -/
structure Slot where
  revisions : List Nat
  tombstone : Bool
  nonempty : revisions ≠ []
  deriving DecidableEq

namespace Slot

/-- The writing half of `addRevision`: append the revision and remember its kind. -/
def add (revision : Nat) (tombstone : Bool) (s : Option Slot) : Slot where
  revisions := (s.elim [] Slot.revisions) ++ [revision]
  tombstone := tombstone
  nonempty := by simp

/-- `compactRevisions` with `nodeEntry.compact`: the slot that remains, if the key does, and the
number of revisions dropped. -/
def compact (s : Slot) (through : Nat) : Option Slot × Nat :=
  let latest := s.revisions.getLast s.nonempty
  if s.tombstone ∧ latest ≤ through then
    (none, s.revisions.length)
  else
    let kept := Timeline.trim s.revisions through
    (some ⟨kept, s.tombstone, Timeline.trim_ne_nil s.nonempty through⟩,
      s.revisions.length - kept.length)

end Slot

/-- `BPTree`: the zero value is `empty`. -/
structure BPTree where
  root : Radix.Node UInt8 Slot
  emptyKey : Option Slot
  keys : Nat
  wf : root.WF

namespace BPTree

/-- The zero value. -/
def empty : BPTree where
  root := .nil
  emptyKey := none
  keys := 0
  wf := trivial

/-- `BPTree.Len`. -/
def len (t : BPTree) : Nat := t.keys

/-- Rewrite the slot of one key, counting the key if it is new. -/
def alterKey (t : BPTree) (key : Bytes) (f : Option Slot → Slot) : BPTree :=
  if h : key = [] then
    { t with
      emptyKey := some (f t.emptyKey)
      keys := if t.emptyKey.isNone then t.keys + 1 else t.keys }
  else
    let altered := t.root.alter f key
    { t with
      root := altered.1
      keys := if altered.2 then t.keys + 1 else t.keys
      wf := Radix.Node.wf_alter _ t.wf h }

/-- `BPTree.AddRevision`. -/
def addRevision (t : BPTree) (key : Bytes) (revision : Nat) (tombstone : Bool) : BPTree :=
  t.alterKey key (Slot.add revision tombstone)

/-- One entry of `node.compact`: the counters are the keys removed and the revisions dropped. -/
def compactEntry (through : Nat) (w : Nat × Nat) (s : Slot) : Option Slot × Nat × Nat :=
  let r := s.compact through
  (r.1, if r.1.isNone then w.1 + 1 else w.1, w.2 + r.2)

/-- `BPTree.Compact`, with the number of keys removed and revisions dropped. -/
def compact (t : BPTree) (through : Nat) : BPTree × Nat × Nat :=
  let own := match t.emptyKey with
    | some s => compactEntry through (0, 0) s
    | none => (none, 0, 0)
  let swept := t.root.sweep (compactEntry through) own.2
  ({ root := swept.1
     emptyKey := own.1
     keys := t.keys - swept.2.1
     wf := Radix.Node.wf_sweep _ t.wf _ }, swept.2)

/-- The slot of a key (`node.lookup`, with the empty key apart). -/
def slotOf (t : BPTree) (key : Bytes) : Option Slot :=
  if key = [] then t.emptyKey else t.root.lookup key

/-- The revisions of a key, `nil` for a key that is not in the index. -/
def revisionsOf (t : BPTree) (key : Bytes) : List Nat := (t.slotOf key).elim [] Slot.revisions

/-- `BPTree.GetLatestRevisionByKey`. -/
def getLatestRevisionByKey (t : BPTree) (key : Bytes) (atRevision : Nat) : Option Nat :=
  Timeline.latest (t.revisionsOf key) atRevision

/-- `BPTree.ListRevisionsByKeyRange`: the callback's state is threaded through its calls. -/
def listRevisionsByKeyRange {σ : Type*} (t : BPTree) (startKey : Bytes)
    (callback : σ → Bytes → List Nat → σ × Bool) (s : σ) : σ :=
  let own := match t.emptyKey with
    | some e => if startKey = [] then callback s [] e.revisions else (s, true)
    | none => (s, true)
  if own.2 then
    (t.root.list (fun s key slot => callback s key slot.revisions) [] startKey own.1).1
  else own.1

/-! ## The index as a map -/

@[simp] theorem slotOf_empty (k : Bytes) : empty.slotOf k = none := by
  by_cases hk : k = [] <;> simp [slotOf, empty, hk, Radix.Node.lookup]

/-- Rewriting a key changes its slot and no other. -/
theorem slotOf_alterKey (t : BPTree) (key : Bytes) (f : Option Slot → Slot) (k : Bytes) :
    (t.alterKey key f).slotOf k =
      if k = key then some (f (t.slotOf key)) else t.slotOf k := by
  by_cases hkey : key = []
  · subst hkey
    by_cases hk : k = [] <;> simp [alterKey, slotOf, hk]
  · by_cases hk : k = []
    · subst hk
      have hne : ¬ ([] : Bytes) = key := fun h => hkey h.symm
      simp [alterKey, slotOf, hkey, hne]
    · simp only [alterKey, hkey, ↓reduceDIte, slotOf, hk, ↓reduceIte]
      exact Radix.Node.lookup_alter _ t.wf hkey k

theorem slotOf_addRevision (t : BPTree) (key : Bytes) (revision : Nat) (tombstone : Bool)
    (k : Bytes) : (t.addRevision key revision tombstone).slotOf k =
      if k = key then some (Slot.add revision tombstone (t.slotOf key)) else t.slotOf k :=
  t.slotOf_alterKey key _ k

/-- Compaction acts on every slot by itself. -/
theorem slotOf_compact (t : BPTree) (through : Nat) (k : Bytes) :
    (t.compact through).1.slotOf k = (t.slotOf k).bind fun s => (s.compact through).1 := by
  by_cases hk : k = []
  · subst hk
    cases h : t.emptyKey <;> simp [compact, slotOf, h, compactEntry]
  · simp only [slotOf, hk, ↓reduceIte]
    exact Radix.Node.lookup_sweep (compactEntry through) (fun s => (s.compact through).1)
      (fun _ _ => rfl) t.root _ k

/-- The keys of the index with their slots, in ascending key order. -/
def entries (t : BPTree) : List (Bytes × Slot) :=
  (t.emptyKey.map fun s => ([], s)).toList ++ t.root.entries []

theorem mem_entries {t : BPTree} {k : Bytes} {s : Slot} :
    (k, s) ∈ t.entries ↔ t.slotOf k = some s := by
  rw [entries, List.mem_append, Radix.Node.mem_entries t.wf]
  by_cases hk : k = []
  · subst hk
    have hroot : t.root.lookup [] = none := Radix.Node.lookup_nil_key t.wf
    cases h : t.emptyKey <;> simp [slotOf, h, hroot, eq_comm]
  · cases h : t.emptyKey <;> simp [slotOf, hk]

theorem entries_pairwise (t : BPTree) : t.entries.Pairwise fun a b => a.1 < b.1 := by
  rw [entries, List.pairwise_append]
  refine ⟨by cases t.emptyKey <;> simp, Radix.Node.entries_pairwise t.wf [], ?_⟩
  rintro ⟨k, s⟩ hk ⟨k', s'⟩ hk'
  obtain ⟨u, hu, hlook⟩ := (Radix.Node.mem_entries t.wf).mp hk'
  rw [List.nil_append] at hu
  subst hu
  have hne : k' ≠ [] := by
    rintro rfl
    rw [Radix.Node.lookup_nil_key t.wf] at hlook
    simp at hlook
  have hkey : k = [] := by
    cases h : t.emptyKey <;> simp [h] at hk
    exact hk.1
  subst hkey
  simpa using Radix.lt_append (p := []) hne

/-- A range scan visits the keys from `startKey` on, in order, until the callback declines. -/
theorem listRevisionsByKeyRange_eq_scan {σ : Type*} (t : BPTree) (startKey : Bytes)
    (callback : σ → Bytes → List Nat → σ × Bool) (s : σ) :
    t.listRevisionsByKeyRange startKey callback s =
      (Radix.Node.scan (fun s key (slot : Slot) => callback s key slot.revisions)
        (t.entries.filter fun e => startKey ≤ e.1) s).1 := by
  have hroot := Radix.Node.list_eq_scan
    (fun s key (slot : Slot) => callback s key slot.revisions) t.wf [] startKey
  rw [listRevisionsByKeyRange, entries, List.filter_append, Radix.Node.scan_append]
  cases he : t.emptyKey with
  | none => simp [hroot, Radix.Node.scan]
  | some e =>
    by_cases hs : startKey = []
    · subst hs
      have hle : ([] : Bytes) ≤ [] := le_refl _
      simp only [Option.map_some, Option.toList_some, ↓reduceIte, List.filter_cons, hle,
        decide_true, List.filter_nil, Radix.Node.scan, hroot, List.nil_append]
      by_cases hgo : (callback s [] e.revisions).2 = true <;> simp [hgo]
    · have hle : ¬ startKey ≤ [] := by
        rw [not_le]
        simpa using Radix.lt_append (p := []) hs
      simp [hs, hle, hroot, Radix.Node.scan]

end BPTree

end CloudEtcd
