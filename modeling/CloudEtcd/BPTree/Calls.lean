/-
# CloudEtcd.BPTree.Calls — the index under every sequence of calls.

The index starts as the zero value and changes by `AddRevision` and `Compact` only (`IndexCall`).  The
reference is a map from keys to the writes it still holds (`HeldWrites`), with the two calls written down
as one would specify them.  Under calls that add the revisions of a key in increasing order the tree and
the map agree (`holds_after`), so that every reading of the index is one of the map
(`tree_refines_map`), a compaction changes no reading at or above its point (`compact_unobservable`),
and, whatever the calls, a range scan calls back with the keys in order (`range_scan_calls`).
-/
import CloudEtcd.BPTree

namespace CloudEtcd

open Timeline

/-- A call that changes the index. -/
inductive IndexCall where
  | addRevision (key : Bytes) (revision : Nat) (tombstone : Bool)
  | compact (through : Nat)
  deriving DecidableEq

namespace IndexCall

/-- The writes that the calls add to a key, oldest first. -/
def writesTo (k : Bytes) (calls : List IndexCall) : List (Nat × Bool) :=
  calls.filterMap fun
    | .addRevision key revision tombstone => if key = k then some (revision, tombstone) else none
    | .compact _ => none

/-- The revisions of every key are added in increasing order. -/
def InOrder (calls : List IndexCall) : Prop :=
  ∀ k, (writesTo k calls).Pairwise fun a b => a.1 ≤ b.1

/-- No revision is added to a key twice either. -/
def Ascending (calls : List IndexCall) : Prop :=
  ∀ k, (writesTo k calls).Pairwise fun a b => a.1 < b.1

theorem Ascending.inOrder {calls : List IndexCall} (h : Ascending calls) : InOrder calls :=
  fun k => (h k).imp fun hlt => hlt.le

theorem writesTo_append (k : Bytes) (calls calls' : List IndexCall) :
    writesTo k (calls ++ calls') = writesTo k calls ++ writesTo k calls' :=
  List.filterMap_append

theorem InOrder.left {calls calls' : List IndexCall} (h : InOrder (calls ++ calls')) :
    InOrder calls := by
  intro k
  have hk := h k
  rw [writesTo_append] at hk
  exact hk.sublist (List.sublist_append_left _ _)

end IndexCall

/-! ## The reference -/

/-- The reference map: for every key the writes it still holds, oldest first, each with its revision
and whether it is a delete. -/
abbrev HeldWrites := Bytes → List (Nat × Bool)

namespace HeldWrites

/-- What a compaction leaves of a key: nothing if its latest write is a delete at or below the point,
otherwise the writes above the point and the last of the others. -/
def keep (through : Nat) (ws : List (Nat × Bool)) : List (Nat × Bool) :=
  if ∃ r ≤ through, ws.getLast? = some (r, true) then []
  else (ws.filter fun w => decide (w.1 ≤ through)).getLast?.toList ++
    ws.filter fun w => decide (through < w.1)

/-- The effect of a call on the map. -/
def call (m : HeldWrites) : IndexCall → HeldWrites
  | .addRevision key revision tombstone =>
    Function.update m key (m key ++ [(revision, tombstone)])
  | .compact through => fun k => keep through (m k)

/-- The map after a sequence of calls. -/
def after (calls : List IndexCall) : HeldWrites := calls.foldl call fun _ => []

/-- The last revision at or below a point. -/
def latest (m : HeldWrites) (k : Bytes) (a : Nat) : Option Nat :=
  (((m k).map Prod.fst).filter fun r => decide (r ≤ a)).getLast?

@[simp] theorem keep_nil (through : Nat) : keep through [] = [] := by
  rw [keep]
  split <;> rfl

/-- In order, a key keeps the end of its writes. -/
theorem keep_suffix {ws : List (Nat × Bool)} (h : ws.Pairwise fun a b => a.1 ≤ b.1)
    (through : Nat) : keep through ws <:+ ws := by
  rw [keep]
  split
  · exact List.nil_suffix
  · have hsplit := filter_append_filter (f := Prod.fst) h through
    nth_rewrite 3 [← hsplit]
    refine List.suffix_append_self_iff.mpr ?_
    cases hlo : ws.filter (fun w => decide (w.1 ≤ through)) using List.reverseRecOn with
    | nil => exact List.suffix_refl _
    | append_singleton lo x =>
      rw [List.getLast?_concat]
      exact List.suffix_append lo [x]

end HeldWrites

/-! ## The tree against the reference -/

/-- A slot holds the writes of a key. -/
def Slot.Holds : Option Slot → List (Nat × Bool) → Prop
  | none, ws => ws = []
  | some s, ws => s.revisions = ws.map Prod.fst ∧ ws.getLast?.map Prod.snd = some s.tombstone

namespace Slot

variable {ws : List (Nat × Bool)} {s : Slot}

theorem Holds.revisions {s : Option Slot} (h : Holds s ws) :
    s.elim [] Slot.revisions = ws.map Prod.fst := by
  cases s with
  | none =>
    change ws = [] at h
    rw [h]
    rfl
  | some s => exact h.1

theorem Holds.add {s : Option Slot} (h : Holds s ws) (revision : Nat) (tombstone : Bool) :
    Holds (some (Slot.add revision tombstone s)) (ws ++ [(revision, tombstone)]) := by
  refine ⟨?_, by simp [Slot.add]⟩
  rw [List.map_append, ← h.revisions]
  rfl

/-- The latest revision and its kind. -/
theorem Holds.latest (h : Holds (some s) ws) :
    ws.getLast? = some (s.revisions.getLast s.nonempty, s.tombstone) := by
  obtain ⟨hrevisions, htombstone⟩ := h
  obtain ⟨w, hw, hkind⟩ := Option.map_eq_some_iff.mp htombstone
  have hlast : s.revisions.getLast? = some w.1 := by
    rw [hrevisions, List.getLast?_map, hw]
    rfl
  rw [List.getLast?_eq_some_getLast s.nonempty] at hlast
  rw [hw, ← hkind, Option.some.inj hlast]

/-- The latest write is a delete at or below a point. -/
theorem latest_deleted_iff (h : ws.getLast? = some (s.revisions.getLast s.nonempty, s.tombstone))
    (through : Nat) :
    (∃ r ≤ through, ws.getLast? = some (r, true)) ↔
      s.tombstone = true ∧ s.revisions.getLast s.nonempty ≤ through := by
  rw [h]
  constructor
  · rintro ⟨r, hr, heq⟩
    obtain ⟨hrev, htomb⟩ := Prod.mk.inj (Option.some.inj heq)
    exact ⟨htomb, hrev ▸ hr⟩
  · rintro ⟨htomb, hr⟩
    exact ⟨_, hr, by rw [htomb]⟩

/-- `nodeEntry.compact` is what the reference does to a key. -/
theorem Holds.compact (h : Holds (some s) ws) (hasc : ws.Pairwise fun a b => a.1 ≤ b.1)
    (through : Nat) : Holds (s.compact through).1 (HeldWrites.keep through ws) := by
  have hlatest := h.latest
  have hgone := latest_deleted_iff hlatest through
  rw [Slot.compact, HeldWrites.keep]
  by_cases hdel : s.tombstone = true ∧ s.revisions.getLast s.nonempty ≤ through
  · simp only [if_pos hdel, if_pos (hgone.mpr hdel)]
    rfl
  · simp only [if_neg hdel, if_neg (fun hex => hdel (hgone.mp hex))]
    have hsplit := filter_append_filter (f := Prod.fst) hasc through
    have htrim : trim s.revisions through =
        ((ws.filter fun w => decide (w.1 ≤ through)).getLast?.toList ++
          ws.filter fun w => decide (through < w.1)).map Prod.fst := by
      rw [h.1]
      nth_rewrite 1 [← hsplit]
      rw [List.map_append, List.map_append, trim_append, List.getLast?_map]
      · cases (ws.filter fun w => decide (w.1 ≤ through)).getLast? <;> rfl
      · intro r hr
        obtain ⟨w, hw, rfl⟩ := List.mem_map.mp hr
        simpa using (List.mem_filter.mp hw).2
      · intro r hr
        obtain ⟨w, hw, rfl⟩ := List.mem_map.mp hr
        simpa using (List.mem_filter.mp hw).2
    refine ⟨htrim, ?_⟩
    have hwhole : ((ws.filter fun w => decide (w.1 ≤ through)).getLast?.toList ++
        ws.filter fun w => decide (through < w.1)).getLast? = ws.getLast? := by
      nth_rewrite 3 [← hsplit]
      rw [List.getLast?_append, List.getLast?_append]
      cases (ws.filter fun w => decide (w.1 ≤ through)).getLast? <;> rfl
    rw [hwhole, hlatest]
    rfl

/-- What a compaction removes of a slot and what it leaves. -/
theorem length_compact (s : Slot) (through : Nat) :
    s.revisions.length = ((s.compact through).1.elim [] Slot.revisions).length +
      (s.compact through).2 := by
  rw [Slot.compact]
  split
  · exact (Nat.zero_add _).symm
  · exact (Nat.add_sub_of_le (trim_suffix _ _).length_le).symm

/-- A compaction hides an earlier one. -/
theorem compact_compact (s : Slot) (h : s.revisions.Pairwise (· < ·)) {t t' : Nat} (htt : t ≤ t') :
    ((s.compact t).1.bind fun s' => (s'.compact t').1) = (s.compact t').1 := by
  by_cases hgone : s.tombstone ∧ s.revisions.getLast s.nonempty ≤ t
  · have hgone' : s.tombstone ∧ s.revisions.getLast s.nonempty ≤ t' := ⟨hgone.1, hgone.2.trans htt⟩
    simp only [Slot.compact, if_pos hgone, if_pos hgone', Option.bind_none]
  · simp only [Slot.compact, if_neg hgone, Option.bind_some, trim_getLast s.nonempty,
      trim_trim h htt]
    split <;> rfl

end Slot

namespace BPTree

variable {calls : List IndexCall}

/-- The effect of a call on the index. -/
def call (t : BPTree) : IndexCall → BPTree
  | .addRevision key revision tombstone => t.addRevision key revision tombstone
  | .compact through => (t.compact through).1

/-- The index after a sequence of calls on the zero value. -/
def after (calls : List IndexCall) : BPTree := calls.foldl call empty

theorem after_concat (calls : List IndexCall) (c : IndexCall) :
    after (calls ++ [c]) = (after calls).call c := by
  rw [after, List.foldl_concat]
  rfl

/-- The index holds what the reference holds, and that is a part of what was written. -/
theorem holds_after (h : IndexCall.InOrder calls) (k : Bytes) :
    Slot.Holds ((after calls).slotOf k) (HeldWrites.after calls k) ∧
      HeldWrites.after calls k <:+ IndexCall.writesTo k calls := by
  induction calls using List.reverseRecOn generalizing k with
  | nil => exact ⟨by rw [after, List.foldl_nil, slotOf_empty]; rfl, List.suffix_refl _⟩
  | append_singleton calls c ih =>
    have hprev := fun k => ih h.left k
    have hwrites : HeldWrites.after (calls ++ [c]) = (HeldWrites.after calls).call c := by
      rw [HeldWrites.after, List.foldl_concat]
      rfl
    rw [after_concat, hwrites, IndexCall.writesTo_append]
    cases c with
    | addRevision key revision tombstone =>
      rw [call, slotOf_addRevision]
      by_cases hk : k = key
      · subst hk
        have hto : IndexCall.writesTo k [.addRevision k revision tombstone] =
            [(revision, tombstone)] := by simp [IndexCall.writesTo]
        rw [if_pos rfl, HeldWrites.call, Function.update_self, hto]
        exact ⟨(hprev k).1.add revision tombstone,
          List.suffix_append_self_iff.mpr (hprev k).2⟩
      · have hto : IndexCall.writesTo k [.addRevision key revision tombstone] = [] := by
          simp [IndexCall.writesTo, Ne.symm hk]
        rw [if_neg hk, HeldWrites.call, Function.update_of_ne hk, hto, List.append_nil]
        exact hprev k
    | compact through =>
      have hasc : (HeldWrites.after calls k).Pairwise fun a b => a.1 ≤ b.1 :=
        (h.left k).sublist (hprev k).2.sublist
      have hto : IndexCall.writesTo k [.compact through] = [] := rfl
      rw [call, slotOf_compact, HeldWrites.call, hto, List.append_nil]
      refine ⟨?_, (HeldWrites.keep_suffix hasc through).trans (hprev k).2⟩
      have hheld := (hprev k).1
      cases hslot : (after calls).slotOf k with
      | none =>
        rw [hslot] at hheld
        change HeldWrites.after calls k = [] at hheld
        change HeldWrites.keep through (HeldWrites.after calls k) = []
        rw [hheld, HeldWrites.keep_nil]
      | some s =>
        rw [hslot] at hheld
        exact hheld.compact hasc through

/-! ## Counting the keys -/

/-- The keys of the index. -/
def keySet (t : BPTree) : Finset Bytes := (t.entries.map Prod.fst).toFinset

@[simp] theorem mem_keySet {t : BPTree} {k : Bytes} : k ∈ t.keySet ↔ t.slotOf k ≠ none := by
  rw [keySet, List.mem_toFinset, List.mem_map, Option.ne_none_iff_exists']
  constructor
  · rintro ⟨⟨k, s⟩, hmem, rfl⟩
    exact ⟨s, mem_entries.mp hmem⟩
  · rintro ⟨s, hs⟩
    exact ⟨(k, s), mem_entries.mpr hs, rfl⟩

theorem entries_keys_nodup (t : BPTree) : (t.entries.map Prod.fst).Nodup := by
  rw [List.nodup_iff_pairwise_ne, List.pairwise_map]
  exact t.entries_pairwise.imp fun hlt => hlt.ne

theorem card_keySet (t : BPTree) : t.keySet.card = t.entries.length := by
  rw [keySet, List.toFinset_card_of_nodup t.entries_keys_nodup, List.length_map]

/-- A sum over the keys goes through the entries. -/
theorem sum_keySet (t : BPTree) (f : Bytes → Nat) :
    ∑ k ∈ t.keySet, f k = (t.entries.map fun e => f e.1).sum := by
  rw [keySet, List.sum_toFinset _ t.entries_keys_nodup, List.map_map]
  rfl

theorem keys_alterKey (t : BPTree) (key : Bytes) (f : Option Slot → Slot) :
    (t.alterKey key f).keys = if (t.slotOf key).isNone then t.keys + 1 else t.keys := by
  by_cases hkey : key = []
  · subst hkey
    rw [alterKey, dif_pos rfl]
    rfl
  · rw [alterKey, dif_neg hkey, slotOf, if_neg hkey, ← Radix.Node.alter_isNew f t.wf hkey]

/-- Compaction goes through the entries. -/
theorem entries_compact (t : BPTree) (through : Nat) :
    (t.compact through).1.entries =
      t.entries.filterMap fun e => (e.2.compact through).1.map fun s => (e.1, s) := by
  rw [entries, entries, List.filterMap_append]
  congr 1
  · cases h : t.emptyKey with
    | none => simp [compact, h]
    | some s => cases hs : (s.compact through).1 <;> simp [compact, h, compactEntry, hs]
  · exact Radix.Node.entries_sweep (compactEntry through) (fun s => (s.compact through).1)
      (fun _ _ => rfl) _ _ _

theorem compact_snd (t : BPTree) (through : Nat) :
    (t.compact through).2 =
      t.entries.foldl (fun w e => (compactEntry through w e.2).2) (0, 0) := by
  rw [entries, List.foldl_append, ← Radix.Node.sweep_snd]
  cases h : t.emptyKey with
  | none => simp [compact, h]
  | some s => simp [compact, h]

/-- The counters of a compaction, entry by entry. -/
theorem foldl_compactEntry (through : Nat) (es : List (Bytes × Slot)) (w : Nat × Nat) :
    es.foldl (fun w e => (compactEntry through w e.2).2) w =
      (w.1 + (es.filter fun e => (e.2.compact through).1.isNone).length,
        w.2 + (es.map fun e => (e.2.compact through).2).sum) := by
  induction es generalizing w with
  | nil => rfl
  | cons e es ih =>
    rw [List.foldl_cons, ih]
    cases h : (e.2.compact through).1.isNone <;>
      simp [compactEntry, h, Nat.add_assoc, Nat.add_comm]

theorem removed_eq (t : BPTree) (through : Nat) :
    (t.compact through).2.1 =
      (t.entries.filter fun e => (e.2.compact through).1.isNone).length := by
  rw [compact_snd, foldl_compactEntry, Nat.zero_add]

theorem length_entries_compact (t : BPTree) (through : Nat) :
    t.entries.length = (t.compact through).1.entries.length + (t.compact through).2.1 := by
  rw [removed_eq, entries_compact]
  induction t.entries with
  | nil => rfl
  | cons e es ih => cases h : (e.2.compact through).1 <;> simp [h, ih] <;> omega

/-- The counter of keys is right after every sequence of calls. -/
theorem keys_after (calls : List IndexCall) : (after calls).keys = (after calls).keySet.card := by
  induction calls using List.reverseRecOn with
  | nil => rfl
  | append_singleton calls c ih =>
    rw [after_concat]
    cases c with
    | addRevision key revision tombstone =>
      have hset : ((after calls).addRevision key revision tombstone).keySet =
          insert key (after calls).keySet := by
        ext k
        rw [Finset.mem_insert, mem_keySet, mem_keySet, slotOf_addRevision]
        by_cases hk : k = key <;> simp [hk]
      rw [call, hset, addRevision, keys_alterKey, ih]
      cases hslot : (after calls).slotOf key with
      | none => rw [Finset.card_insert_of_notMem (by simp [hslot])]; rfl
      | some s => rw [Finset.insert_eq_of_mem (by simp [hslot])]; rfl
    | compact through =>
      have hlen := length_entries_compact (after calls) through
      have hkeys : ((after calls).compact through).1.keys =
          (after calls).keys - ((after calls).compact through).2.1 := rfl
      rw [call, hkeys, ih, card_keySet, card_keySet]
      omega

theorem revisionsOf_after (h : IndexCall.InOrder calls) (k : Bytes) :
    (after calls).revisionsOf k = (HeldWrites.after calls k).map Prod.fst :=
  (holds_after h k).1.revisions

theorem revisionsOf_ne_nil_iff (t : BPTree) (k : Bytes) : t.revisionsOf k ≠ [] ↔ k ∈ t.keySet := by
  rw [mem_keySet, revisionsOf]
  cases t.slotOf k with
  | none => simp
  | some s => simpa using s.nonempty

/-- The tree refines the map.  After any calls its edges are well formed at every node and its length is
the number of keys with revisions; when the revisions of every key come in order, its point reads and its
keys are those of the map. -/
theorem tree_refines_map (calls : List IndexCall) :
    (after calls).root.WF ∧
      {k | (after calls).revisionsOf k ≠ []}.Finite ∧
      (after calls).len = {k | (after calls).revisionsOf k ≠ []}.ncard ∧
      (IndexCall.InOrder calls →
        (∀ k a, (after calls).getLatestRevisionByKey k a = (HeldWrites.after calls).latest k a) ∧
          (after calls).len = {k | HeldWrites.after calls k ≠ []}.ncard) := by
  have hset : {k | (after calls).revisionsOf k ≠ []} = ((after calls).keySet : Set Bytes) := by
    ext k
    exact revisionsOf_ne_nil_iff _ k
  have hlen : (after calls).len = {k | (after calls).revisionsOf k ≠ []}.ncard := by
    rw [hset, Set.ncard_coe_finset]
    exact keys_after calls
  refine ⟨(after calls).wf, ?_, hlen, fun h => ⟨fun k a => ?_, ?_⟩⟩
  · rw [hset]
    exact Finset.finite_toSet _
  · rw [getLatestRevisionByKey, revisionsOf_after h, latest_eq_getLast]
    rfl
  · have hmap : {k | HeldWrites.after calls k ≠ []} = {k | (after calls).revisionsOf k ≠ []} := by
      ext k
      change HeldWrites.after calls k ≠ [] ↔ (after calls).revisionsOf k ≠ []
      rw [revisionsOf_after h, ne_eq, ne_eq, List.map_eq_nil_iff]
    rw [hmap, hlen]

/-- Keys that are prefixes of each other, the empty key, a key removed and added again. -/
theorem tree_refines_map_readded : let calls : List IndexCall :=
      [.addRevision [1, 2] 1 false, .addRevision [] 2 false, .addRevision [1] 3 false,
        .addRevision [1, 2] 4 true, .compact 4, .addRevision [1, 2, 3] 5 false,
        .addRevision [1, 2] 6 false, .compact 5]
    IndexCall.InOrder calls ∧ (after calls).len = {k | HeldWrites.after calls k ≠ []}.ncard ∧
      (after calls).len = 4 ∧ (after calls).getLatestRevisionByKey [1, 2] 7 = some 6 := by
  intro calls
  have horder : IndexCall.InOrder calls := by
    intro k
    by_cases h1 : k = [1, 2]
    · subst h1
      decide
    · have hwrites : (IndexCall.writesTo k calls).Sublist
          [(2, false), (3, false), (5, false)] := by
        simp only [calls, IndexCall.writesTo, List.filterMap_cons, List.filterMap_nil, Ne.symm h1,
          if_false]
        by_cases h2 : [] = k
        · subst h2
          decide
        · by_cases h3 : [1] = k
          · subst h3
            decide
          · by_cases h4 : [1, 2, 3] = k <;> simp [h2, h3, h4]
      exact List.Pairwise.sublist hwrites (by decide)
  exact ⟨horder, ((tree_refines_map calls).2.2.2 horder).2, by decide +kernel, by decide +kernel⟩

/-! ## Range scans -/

section Scan

variable {σ : Type*}

/-- Call back for one element after the other and stop after the first call that declines; what is
left of the callback's state, and the calls made. -/
def visit (callback : σ → Bytes → List Nat → σ × Bool) :
    List (Bytes × List Nat) → σ → σ × List (Bytes × List Nat)
  | [], s => (s, [])
  | (k, rs) :: l, s =>
    if (callback s k rs).2 then
      ((visit callback l (callback s k rs).1).1, (k, rs) :: (visit callback l (callback s k rs).1).2)
    else ((callback s k rs).1, [(k, rs)])

/-- A callback that also writes down its calls. -/
def noting (callback : σ → Bytes → List Nat → σ × Bool)
    (s : σ × List (Bytes × List Nat)) (k : Bytes) (rs : List Nat) :
    (σ × List (Bytes × List Nat)) × Bool :=
  (((callback s.1 k rs).1, s.2 ++ [(k, rs)]), (callback s.1 k rs).2)

theorem scan_noting (callback : σ → Bytes → List Nat → σ × Bool) (l : List (Bytes × Slot)) (s : σ)
    (made : List (Bytes × List Nat)) :
    (Radix.Node.scan (fun s key (slot : Slot) => noting callback s key slot.revisions) l
        (s, made)).1 =
      ((visit callback (l.map fun e => (e.1, e.2.revisions)) s).1,
        made ++ (visit callback (l.map fun e => (e.1, e.2.revisions)) s).2) := by
  induction l generalizing s made with
  | nil => simp [Radix.Node.scan, visit]
  | cons e l ih =>
    rw [Radix.Node.scan, List.map_cons, visit]
    by_cases hgo : (callback s e.1 e.2.revisions).2 = true
    · have hnote : (noting callback (s, made) e.1 e.2.revisions).2 = true := hgo
      rw [if_pos hnote, if_pos hgo, noting, ih, List.append_assoc]
      rfl
    · have hnote : ¬ (noting callback (s, made) e.1 e.2.revisions).2 = true := hgo
      rw [if_neg hnote, if_neg hgo]
      rfl

/-- A range scan calls back with the keys from `startKey` on that have revisions, each once, in
ascending order, with all the revisions of the key, and stops after the first call that declines. -/
theorem range_scan_calls (calls : List IndexCall) (startKey : Bytes)
    (callback : σ → Bytes → List Nat → σ × Bool) (s : σ) :
    ∃ l : List (Bytes × List Nat), l.Pairwise (fun a b => a.1 < b.1) ∧
      (∀ k rs, (k, rs) ∈ l ↔
        startKey ≤ k ∧ rs = (after calls).revisionsOf k ∧ rs ≠ []) ∧
      (after calls).listRevisionsByKeyRange startKey (noting callback) (s, []) =
        visit callback l s := by
  refine ⟨((after calls).entries.filter fun e => startKey ≤ e.1).map fun e =>
    (e.1, e.2.revisions), ?_, fun k rs => ?_, ?_⟩
  · rw [List.pairwise_map]
    exact (after calls).entries_pairwise.filter _
  · rw [List.mem_map]
    constructor
    · rintro ⟨⟨k', slot⟩, hmem, heq⟩
      obtain ⟨rfl, rfl⟩ := Prod.mk.inj heq
      obtain ⟨hentry, hle⟩ := List.mem_filter.mp hmem
      have hslot := mem_entries.mp hentry
      exact ⟨of_decide_eq_true hle, by rw [revisionsOf, hslot]; rfl, slot.nonempty⟩
    · rintro ⟨hle, hrs, hne⟩
      cases hslot : (after calls).slotOf k with
      | none =>
        rw [revisionsOf, hslot] at hrs
        exact absurd hrs hne
      | some slot =>
        rw [revisionsOf, hslot] at hrs
        exact ⟨(k, slot), List.mem_filter.mpr ⟨mem_entries.mpr hslot, decide_eq_true hle⟩,
          by rw [hrs]; rfl⟩
  · rw [listRevisionsByKeyRange_eq_scan, scan_noting]
    rfl

end Scan

/-! ## Compaction and its readers -/

/-- The latest revision of a key at or below a point, and whether the write at that revision is a
put. -/
def reading (t : BPTree) (calls : List IndexCall) (k : Bytes) (a : Nat) : Option (Nat × Bool) :=
  (t.getLatestRevisionByKey k a).map fun r => (r, (r, false) ∈ IndexCall.writesTo k calls)

/-- The revisions of a key are the end of those written to it, with the kind of the last. -/
theorem slot_after (h : IndexCall.Ascending calls) {k : Bytes} {s : Slot}
    (hs : (after calls).slotOf k = some s) :
    s.revisions.Pairwise (· < ·) ∧
      (IndexCall.writesTo k calls).getLast? =
        some (s.revisions.getLast s.nonempty, s.tombstone) := by
  obtain ⟨hheld, hsuffix⟩ := holds_after h.inOrder k
  rw [hs] at hheld
  constructor
  · rw [hheld.1, List.pairwise_map]
    exact (h k).sublist hsuffix.sublist
  · obtain ⟨front, hfront⟩ := hsuffix
    rw [← hfront, List.getLast?_append, hheld.latest]
    rfl

theorem dropped_eq (t : BPTree) (through : Nat) :
    (∑ k ∈ t.keySet, (t.revisionsOf k).length) =
      (∑ k ∈ t.keySet, ((t.compact through).1.revisionsOf k).length) +
        (t.compact through).2.2 := by
  have hdropped : (t.compact through).2.2 = (t.entries.map fun e => (e.2.compact through).2).sum := by
    rw [compact_snd, foldl_compactEntry]
    exact Nat.zero_add _
  have hbefore : (t.entries.map fun e => (t.revisionsOf e.1).length) =
      t.entries.map fun e => e.2.revisions.length :=
    List.map_congr_left fun e he => by rw [revisionsOf, mem_entries.mp he]; rfl
  have hafter : (t.entries.map fun e => ((t.compact through).1.revisionsOf e.1).length) =
      t.entries.map fun e => ((e.2.compact through).1.elim [] Slot.revisions).length :=
    List.map_congr_left fun e he => by
      rw [revisionsOf, slotOf_compact, mem_entries.mp he]
      rfl
  rw [sum_keySet, sum_keySet, hbefore, hafter, hdropped, ← List.sum_map_add]
  exact congrArg List.sum (List.map_congr_left fun e _ => e.2.length_compact through)

theorem removed_ncard (t : BPTree) (through : Nat) :
    (t.compact through).2.1 =
      {k | t.slotOf k ≠ none ∧ (t.compact through).1.slotOf k = none}.ncard := by
  have hset : {k | t.slotOf k ≠ none ∧ (t.compact through).1.slotOf k = none} =
      ((t.keySet \ (t.compact through).1.keySet : Finset Bytes) : Set Bytes) := by
    ext k
    simp
  have hsub : (t.compact through).1.keySet ⊆ t.keySet := by
    intro k hk
    rw [mem_keySet, slotOf_compact] at hk
    rw [mem_keySet]
    intro hnone
    exact hk (by rw [hnone]; rfl)
  have hlen := length_entries_compact t through
  rw [hset, Set.ncard_coe_finset, Finset.card_sdiff_of_subset hsub, card_keySet, card_keySet]
  omega

/-- A compaction changes no reading at or above its point, but for the keys whose latest write is a
delete at or below it, which are gone; it counts what it removes; and it hides the compactions below
it. -/
theorem compact_unobservable {calls : List IndexCall} (h : IndexCall.Ascending calls)
    (through : Nat) :
    (∀ k a, through ≤ a →
      if ∃ r ≤ through, (IndexCall.writesTo k calls).getLast? = some (r, true) then
        ((after calls).compact through).1.slotOf k = none
      else ((after calls).compact through).1.reading calls k a = (after calls).reading calls k a) ∧
    ((after calls).compact through).2.1 =
      {k | (after calls).slotOf k ≠ none ∧
        ((after calls).compact through).1.slotOf k = none}.ncard ∧
    (∑ k ∈ (after calls).keySet, ((after calls).revisionsOf k).length) =
      (∑ k ∈ (after calls).keySet, (((after calls).compact through).1.revisionsOf k).length) +
        ((after calls).compact through).2.2 ∧
    (after calls).len =
      ((after calls).compact through).1.len + ((after calls).compact through).2.1 ∧
    ∀ t ≤ through, ∀ k,
      (((after calls).compact t).1.compact through).1.slotOf k =
        ((after calls).compact through).1.slotOf k := by
  refine ⟨fun k a ha => ?_, removed_ncard _ _, dropped_eq _ _, ?_, fun t ht k => ?_⟩
  · cases hs : (after calls).slotOf k with
    | none =>
      have hnone : ((after calls).compact through).1.slotOf k = none := by
        rw [slotOf_compact, hs]
        rfl
      split
      · exact hnone
      · simp only [reading, getLatestRevisionByKey, revisionsOf, hs, hnone]
    | some s =>
      obtain ⟨hasc, hlast⟩ := slot_after h hs
      have hgone : (∃ r ≤ through, (IndexCall.writesTo k calls).getLast? = some (r, true)) ↔
          s.tombstone = true ∧ s.revisions.getLast s.nonempty ≤ through :=
        Slot.latest_deleted_iff hlast through
      split
      · next hex =>
        rw [slotOf_compact, hs, Option.bind_some, Slot.compact, if_pos (hgone.mp hex)]
      · next hex =>
        have hkept : ((after calls).compact through).1.revisionsOf k =
            trim s.revisions through := by
          rw [revisionsOf, slotOf_compact, hs, Option.bind_some, Slot.compact,
            if_neg fun hdel => hex (hgone.mpr hdel)]
          rfl
        have hold : (after calls).revisionsOf k = s.revisions := by
          rw [revisionsOf, hs]
          rfl
        rw [reading, reading, getLatestRevisionByKey, getLatestRevisionByKey, hkept, hold,
          latest_trim hasc ha]
  · have hlen := length_entries_compact (after calls) through
    have hkeys := keys_after calls
    have hcompact := keys_after (calls ++ [.compact through])
    rw [card_keySet] at hkeys hcompact
    rw [after_concat] at hcompact
    change (after calls).keys = ((after calls).compact through).1.keys + _
    change ((after calls).compact through).1.keys = _ at hcompact
    rw [hkeys, hcompact]
    exact hlen
  · rw [slotOf_compact, slotOf_compact, slotOf_compact]
    cases hs : (after calls).slotOf k with
    | none => rfl
    | some s => exact s.compact_compact (slot_after h hs).1 ht

/-- A put, a delete and a put around the point, and a deleted key with a longer neighbour. -/
theorem compact_unobservable_around : let calls : List IndexCall :=
      [.addRevision [1] 1 false, .addRevision [1] 2 true, .addRevision [1] 4 false,
        .addRevision [1, 2] 3 true]
    IndexCall.Ascending calls ∧
      ((after calls).compact 3).1.reading calls [1] 3 = (after calls).reading calls [1] 3 ∧
      ((after calls).compact 3).1.reading calls [1] 3 = some (2, false) ∧
      ((after calls).compact 3).1.slotOf [1, 2] = none ∧ ((after calls).compact 3).2 = (1, 2) := by
  intro calls
  have hasc : IndexCall.Ascending calls := by
    intro k
    by_cases h1 : [1] = k
    · subst h1
      decide
    · by_cases h2 : [1, 2] = k
      · subst h2
        decide
      · simp [calls, IndexCall.writesTo, h1, h2]
  exact ⟨hasc, (compact_unobservable hasc 3).1 [1] 3 le_rfl, by decide +kernel, by decide +kernel,
    by decide +kernel⟩

end BPTree

end CloudEtcd
