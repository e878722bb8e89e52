/-
# CloudEtcd.Storage.IndexHistory — the index against the history of the log.

`SlotInv` says what the slot of one key has to do with the history: above the compaction point it
has every applied revision that writes the key, at or below it at most the key's last write, and a
key whose last write there is a delete may be gone.  The three writers keep it: applying a record
(`SlotInv.add`, `SlotInv.advance`), compaction (`SlotInv.compact`) and the log growing
(`SlotInv.extend`).

A read at a revision inside the window then finds the last event of the history
(`SlotInv.latest_some`, `SlotInv.latest_none`), and below the window it can only miss it.
-/
import CloudEtcd.Storage.MemoryStorage

namespace CloudEtcd

open History Timeline MemoryStorage BPTree

/-- The log's records with their revisions, as they were committed. -/
abbrev LogHistory := List (Nat × LogRecord)

/-- The state of a key after the records up to a revision. -/
def stateAt (hist : LogHistory) (q : Nat) (k : Bytes) : Option KeyValue :=
  liveKv ((lastEvent hist k q).map Prod.snd)

/-! ## One key -/

/-- The slot of a key against the history, with records applied up to `applied` and compacted up to
`compacted`. -/
structure SlotInv (hist : LogHistory) (applied compacted : Nat) (k : Bytes) (slot : Option Slot) :
    Prop where
  /-- A revision is there more than once only if its record writes a key twice. -/
  ascending : (slot.elim [] Slot.revisions).Pairwise fun r r' => r ≤ r' ∧ (r = r' → Repeats hist r)
  written : ∀ r ∈ slot.elim [] Slot.revisions, Writes hist k r ∧ r ≤ applied
  above : ∀ r, compacted < r → r ≤ applied → Writes hist k r → r ∈ slot.elim [] Slot.revisions
  below : ∀ r ∈ slot.elim [] Slot.revisions, r ≤ compacted →
    ∀ r' ≤ compacted, Writes hist k r' → r' ≤ r
  kept : ∀ r e, lastEvent hist k compacted = some (r, e) → e.type = .put →
    r ∈ slot.elim [] Slot.revisions
  tombstone : ∀ s, slot = some s → ∃ e, lastEvent hist k applied =
    some (s.revisions.getLast s.nonempty, e) ∧ s.tombstone = (e.type == .delete)
  alive : ∀ s, slot = some s → s.tombstone = true →
    compacted < s.revisions.getLast s.nonempty

section SlotInv

variable {hist : LogHistory} {applied compacted : Nat} {k : Bytes} {slot : Option Slot}
variable {r q through : Nat} {e : Event}

/-- A key that was never written needs no slot. -/
theorem SlotInv.of_quiet (hquiet : ∀ r ≤ applied, ¬ Writes hist k r) (hle : compacted ≤ applied) :
    SlotInv hist applied compacted k none where
  ascending := List.Pairwise.nil
  written := by simp
  above r _ hr hw := absurd hw (hquiet r hr)
  below := by simp
  kept r e hlast _ := by
    have hnone := lastEvent_eq_none_iff.mpr fun r hr => hquiet r (hr.trans hle)
    rw [hnone] at hlast
    cases hlast
  tombstone := by simp
  alive := by simp

theorem SlotInv.sorted (h : SlotInv hist applied compacted k slot) :
    (slot.elim [] Slot.revisions).Pairwise (· ≤ ·) := h.ascending.imp And.left

theorem SlotInv.strict (h : SlotInv hist applied compacted k slot) (hw : WellFormed hist) :
    (slot.elim [] Slot.revisions).Pairwise (· < ·) :=
  h.ascending.imp fun hle => lt_of_le_of_ne hle.1 fun heq => hw.not_repeats (hle.2 heq)

section

variable (hasc : hist.Pairwise fun p p' => p.1 < p'.1)
include hasc

section

variable (h : SlotInv hist applied compacted k slot)
include h

/-- What a lookup finds is the last event at or below the revision. -/
theorem SlotInv.latest_some
    (hq : q ≤ applied) (hlatest : latest (slot.elim [] Slot.revisions) q = some r) :
    ∃ e, lastEvent hist k q = some (r, e) := by
  obtain ⟨hmem, hle, hmax⟩ := (latest_eq_some_iff h.sorted).mp hlatest
  obtain ⟨hwr, -⟩ := h.written r hmem
  refine exists_lastEvent hasc hwr hle fun r' hr' hwr' => ?_
  -- A later write is either above the point, so in the slot, or hidden by the one entry below.
  rcases Nat.lt_or_ge compacted r' with hc | hc
  · exact hmax r' (h.above r' hc (hr'.trans hq) hwr') hr'
  · by_cases hrc : r ≤ compacted
    · exact h.below r hmem hrc r' hc hwr'
    · omega

/-- Inside the window, a lookup that finds nothing means that the key does not exist. -/
theorem SlotInv.latest_none (hc : compacted ≤ q) (hq : q ≤ applied)
    (hlatest : latest (slot.elim [] Slot.revisions) q = none) : stateAt hist q k = none := by
  have hgt := latest_eq_none_iff.mp hlatest
  cases hl : lastEvent hist k q with
  | none => simp [stateAt, hl, liveKv]
  | some p =>
    obtain ⟨r, e⟩ := p
    obtain ⟨⟨x, hx, hr, he, hk⟩, -⟩ := lastEvent_spec hasc hl
    have hwr : Writes hist k r := ⟨x, hx, e, he, hk⟩
    have hrc : r ≤ compacted := by
      by_contra hlt
      have := hgt r (h.above r (not_le.mp hlt) (hr.trans hq) hwr)
      omega
    have hlc : lastEvent hist k compacted = some (r, e) := lastEvent_of_le hasc hl hc hrc
    cases htype : e.type with
    | put =>
      have := hgt r (h.kept r e hlc htype)
      omega
    | delete => simp [stateAt, hl, liveKv, htype]

/-- At the applied revision, a lookup finds nothing exactly when the key was never written or its last
write is a delete at or below the compaction point. -/
theorem SlotInv.latest_applied_none_iff (hc : compacted ≤ applied) :
    latest (slot.elim [] Slot.revisions) applied = none ↔
      ∀ w e, lastEvent hist k applied = some (w, e) → e.type = .delete ∧ w ≤ compacted := by
  constructor
  · intro hnone w e hlast
    have hgt := latest_eq_none_iff.mp hnone
    obtain ⟨⟨x, hx, hle, he, hk⟩, -⟩ := lastEvent_spec hasc hlast
    have hwc : w ≤ compacted := by
      by_contra hlt
      have := hgt w (h.above w (not_le.mp hlt) hle ⟨x, hx, e, he, hk⟩)
      omega
    refine ⟨?_, hwc⟩
    cases htype : e.type with
    | delete => rfl
    | put =>
      have hlc : lastEvent hist k compacted = some (w, e) := lastEvent_of_le hasc hlast hc hwc
      have := hgt w (h.kept w e hlc htype)
      omega
  · intro hall
    by_contra hsome
    obtain ⟨r, hr⟩ := Option.ne_none_iff_exists'.mp hsome
    obtain ⟨e, hlast⟩ := h.latest_some hasc le_rfl hr
    obtain ⟨htype, hrc⟩ := hall r e hlast
    -- A slot whose last write is a delete outlives only compactions below it.
    cases slot with
    | none => simp [latest] at hr
    | some s =>
      obtain ⟨e', hlast', htomb⟩ := h.tombstone s rfl
      obtain ⟨hgl, rfl⟩ := Prod.mk.inj (Option.some.inj (hlast'.symm.trans hlast))
      have := h.alive s rfl (by simp [htomb, htype])
      omega

/-- The applied revision moves over records that do not write the key. -/
theorem SlotInv.advance {applied' : Nat} (hle : applied ≤ applied')
    (hquiet : ∀ r, applied < r → r ≤ applied' → ¬ Writes hist k r) :
    SlotInv hist applied' compacted k slot where
  ascending := h.ascending
  written r hr := ⟨(h.written r hr).1, (h.written r hr).2.trans hle⟩
  above r hc hr hwr := by
    refine h.above r hc ?_ hwr
    by_contra hlt
    exact hquiet r (not_le.mp hlt) hr hwr
  below := h.below
  kept := h.kept
  tombstone s hs := by
    rw [lastEvent_eq_of_quiet hasc hle hquiet]
    exact h.tombstone s hs
  alive := h.alive

/-- Applying the events of the next record that writes the key; `e` is the last of them. -/
theorem SlotInv.add {s : Slot} {x : LogRecord} {n : Nat} (hlt : applied < r) (hx : (r, x) ∈ hist)
    (hon : lastOn x k = some e) (hc : compacted ≤ applied)
    (hquiet : ∀ r', applied < r' → r' < r → ¬ Writes hist k r')
    (hrevs : s.revisions = slot.elim [] Slot.revisions ++ List.replicate n r)
    (hpos : 0 < n) (honce : n ≤ 1 ∨ Repeats hist r) (htomb : s.tombstone = (e.type == .delete)) :
    SlotInv hist r compacted k (some s) := by
  have hwr : Writes hist k r := ⟨x, hx, e, mem_of_lastOn hon⟩
  have hmem : ∀ r', r' ∈ s.revisions ↔ r' ∈ slot.elim [] Slot.revisions ∨ r' = r := by
    intro r'
    rw [hrevs, List.mem_append, List.mem_replicate, and_iff_right (by omega)]
  have hend : s.revisions.getLast s.nonempty = r := by
    obtain ⟨m, rfl⟩ : ∃ m, n = m + 1 := ⟨n - 1, by omega⟩
    simp [hrevs, List.replicate_succ']
  constructor
  · show s.revisions.Pairwise _
    rw [hrevs]
    refine List.pairwise_append.mpr ⟨h.ascending, ?_, fun a ha b hb => ?_⟩
    · refine List.pairwise_replicate.mpr (honce.imp_right fun hrep => ⟨le_rfl, fun _ => hrep⟩)
    · obtain rfl := (List.mem_replicate.mp hb).2
      have := (h.written a ha).2
      exact ⟨by omega, fun heq => by omega⟩
  · intro r' hr'
    rcases (hmem r').mp hr' with hr' | rfl
    · exact ⟨(h.written r' hr').1, (h.written r' hr').2.trans hlt.le⟩
    · exact ⟨hwr, le_rfl⟩
  · intro r' hc' hr' hwr'
    apply (hmem r').mpr
    rcases Nat.lt_or_ge applied r' with ha | ha
    · right
      by_contra hne
      exact hquiet r' ha (lt_of_le_of_ne hr' hne) hwr'
    · exact Or.inl (h.above r' hc' ha hwr')
  · intro r' hr' hle
    rcases (hmem r').mp hr' with hr' | rfl
    · exact h.below r' hr' hle
    · omega
  · intro r' e' hlast hput
    exact (hmem r').mpr (Or.inl (h.kept r' e' hlast hput))
  · rintro s hs
    cases hs
    refine ⟨e, ?_, htomb⟩
    rw [hend]
    exact (lastEvent_eq_some_iff_of_ascending hasc).mpr ⟨⟨x, hx, le_rfl, hon⟩, fun r' hr' _ => hr'⟩
  · rintro s hs -
    cases hs
    omega

/-- The last write at or below a revision of the window is in the slot if it is a put. -/
theorem SlotInv.mem_of_put (hc : compacted ≤ q) (hq : q ≤ applied)
    (hlast : lastEvent hist k q = some (r, e)) (hput : e.type = .put) :
    r ∈ slot.elim [] Slot.revisions := by
  obtain ⟨⟨x, hx, hr, he, hk⟩, -⟩ := lastEvent_spec hasc hlast
  rcases Nat.lt_or_ge compacted r with hlt | hle
  · exact h.above r hlt (hr.trans hq) ⟨x, hx, e, he, hk⟩
  · exact h.kept r e (lastEvent_of_le hasc hlast hc hle) hput

end

/-- A key whose last write is a delete at or below the new point needs no slot any more. -/
theorem SlotInv.compact_gone (hlast : lastEvent hist k applied = some (r, e))
    (hdel : e.type = .delete) (hr : r ≤ through) (ht : through ≤ applied) :
    SlotInv hist applied through k none := by
  have hmax := (lastEvent_spec hasc hlast).2
  refine ⟨List.Pairwise.nil, by simp, ?_, by simp, ?_, by simp, by simp⟩
  · intro r' hr' ha hwr
    have := hmax r' ha hwr
    omega
  · intro r' e' hlast' hput
    -- Nothing is written above the point, so the last write there is that delete.
    have hsame : lastEvent hist k applied = lastEvent hist k through :=
      lastEvent_eq_of_quiet hasc ht fun r'' hr'' ha hwr => by
        have := hmax r'' ha hwr
        omega
    rw [hlast, hlast'] at hsame
    cases hsame
    rw [hdel] at hput
    cases hput

/-- A slot that stays is trimmed to its last write at or below the new point and those above it. -/
theorem SlotInv.compact_kept {s : Slot} (h : SlotInv hist applied compacted k (some s))
    (hc : compacted ≤ through) (ht : through ≤ applied)
    (hstay : s.tombstone = true → through < s.revisions.getLast s.nonempty) :
    SlotInv hist applied through k (some ⟨trim s.revisions through, s.tombstone,
      trim_ne_nil s.nonempty through⟩) := by
  obtain ⟨e, hlast, htomb⟩ := h.tombstone s rfl
  have hsorted : s.revisions.Pairwise (· ≤ ·) := h.sorted
  refine ⟨h.ascending.sublist (trim_suffix _ through).sublist, ?_, ?_, ?_, ?_, ?_, ?_⟩
  · intro r hr
    exact h.written r (((mem_trim hsorted).mp hr).1)
  · intro r hr ha hwr
    refine (mem_trim hsorted).mpr ⟨h.above r (hc.trans_lt hr) ha hwr, ?_⟩
    intro y _ hy
    exact hy.trans hr.le
  · intro r hr hrt r' hr' hwr'
    obtain ⟨hmem, hmax⟩ := (mem_trim hsorted).mp hr
    rcases Nat.lt_or_ge compacted r' with hlt | hle
    · exact hmax r' (h.above r' hlt (hr'.trans ht) hwr') hr'
    · by_cases hrc : r ≤ compacted
      · exact h.below r hmem hrc r' hle hwr'
      · omega
  · intro r e' hlast' hput
    refine (mem_trim hsorted).mpr ⟨h.mem_of_put hasc hc ht hlast' hput, ?_⟩
    intro y hy hyt
    exact (lastEvent_spec hasc hlast').2 y hyt (h.written y hy).1
  · rintro s' hs'
    cases hs'
    exact ⟨e, by simpa [trim_getLast s.nonempty] using hlast, htomb⟩
  · rintro s' hs' htrue
    cases hs'
    rw [trim_getLast s.nonempty]
    exact hstay htrue

/-- Compaction of the slot at a later point. -/
theorem SlotInv.compact (h : SlotInv hist applied compacted k slot)
    (hc : compacted ≤ through) (ht : through ≤ applied) :
    SlotInv hist applied through k (slot.bind fun s => (s.compact through).1) := by
  cases slot with
  | none =>
    refine ⟨List.Pairwise.nil, by simp, ?_, by simp, ?_, by simp, by simp⟩
    · intro r hr ha hwr
      exact h.above r (hc.trans_lt hr) ha hwr
    · intro r e hlast hput
      exact h.mem_of_put hasc hc ht hlast hput
  | some s =>
    by_cases hgone : s.tombstone = true ∧ s.revisions.getLast s.nonempty ≤ through
    · have hnone : (some s).bind (fun s => (s.compact through).1) = none := by
        simp [Slot.compact, hgone]
      obtain ⟨e, hlast, htomb⟩ := h.tombstone s rfl
      have hdel : e.type = .delete := by
        simpa using htomb.symm.trans hgone.1
      rw [hnone]
      exact SlotInv.compact_gone hasc hlast hdel hgone.2 ht
    · have hsome : (some s).bind (fun s => (s.compact through).1) = some
          ⟨trim s.revisions through, s.tombstone,
            trim_ne_nil s.nonempty through⟩ := by
        simp [Slot.compact, hgone]
      rw [hsome]
      exact h.compact_kept hasc hc ht fun htrue => not_le.mp fun hle => hgone ⟨htrue, hle⟩

end

/-- Records above the applied revision do not matter. -/
theorem SlotInv.extend {new : LogHistory} (h : SlotInv hist applied compacted k slot)
    (hc : compacted ≤ applied) (hnew : ∀ p ∈ new, applied < p.1) :
    SlotInv (hist ++ new) applied compacted k slot := by
  have hwrites : ∀ r ≤ applied, Writes (hist ++ new) k r → Writes hist k r := by
    intro r hr hwr
    rcases writes_append.mp hwr with hwr | ⟨x, hx, -⟩
    · exact hwr
    · have := hnew _ hx
      omega
  have hlast : ∀ q ≤ applied, lastEvent (hist ++ new) k q = lastEvent hist k q := fun q hq =>
    lastEvent_append (fun p hp => hq.trans_lt (hnew p hp)) k
  constructor
  · refine h.ascending.imp fun hle => ⟨hle.1, fun heq => ?_⟩
    obtain ⟨x, hx, hnot⟩ := hle.2 heq
    exact ⟨x, List.mem_append_left _ hx, hnot⟩
  · intro r hr
    exact ⟨writes_append.mpr (Or.inl (h.written r hr).1), (h.written r hr).2⟩
  · intro r hr ha hwr
    exact h.above r hr ha (hwrites r ha hwr)
  · intro r hr hrc r' hr' hwr'
    exact h.below r hr hrc r' hr' (hwrites r' (hr'.trans hc) hwr')
  · intro r e hl
    rw [hlast compacted hc] at hl
    exact h.kept r e hl
  · intro s hs
    rw [hlast applied le_rfl]
    exact h.tombstone s hs
  · exact h.alive

end SlotInv

/-! ## The whole index -/

/-- Every slot of the index agrees with the history. -/
def IndexInv (hist : LogHistory) (applied compacted : Nat) (t : BPTree) : Prop :=
  ∀ k, SlotInv hist applied compacted k (t.slotOf k)

section IndexInv

variable {hist : LogHistory} {applied compacted : Nat}
variable {x : LogRecord} {r : Nat} {m : MemoryStorage} {k : Bytes} {t : BPTree}

theorem IndexInv.empty (hquiet : ∀ p ∈ hist, applied < p.1) : IndexInv hist applied 0 empty := by
  intro k
  rw [slotOf_empty]
  refine SlotInv.of_quiet ?_ (Nat.zero_le _)
  rintro r hr ⟨x, hx, -⟩
  have := hquiet _ hx
  omega

theorem slotOf_applyEvent (env : LeaseEnv) (r : Nat) (m : MemoryStorage) (e : Event) (k : Bytes) :
    (m.applyEvent env r e).revisions.slotOf k =
      if k = e.kv.key then some (Slot.add r (e.type == .delete) (m.revisions.slotOf k))
      else m.revisions.slotOf k := by
  rw [applyEvent, slotOf_addRevision]
  by_cases hk : k = e.kv.key
  · rw [if_pos hk, if_pos hk, hk]
  · rw [if_neg hk, if_neg hk]

/-- The slot of a key after a record: each event on the key goes into it, one after another. -/
theorem slotOf_applyRecord (env : LeaseEnv) (r : Nat) (m : MemoryStorage) (x : LogRecord)
    (k : Bytes) :
    (m.applyRecord env r x).revisions.slotOf k = (x.events.filter fun e => e.kv.key = k).foldl
      (fun slot e => some (Slot.add r (e.type == .delete) slot)) (m.revisions.slotOf k) := by
  obtain ⟨events⟩ := x
  unfold applyRecord
  dsimp only
  induction events generalizing m with
  | nil => rfl
  | cons e events ih =>
    rw [List.foldl_cons, ih, slotOf_applyEvent]
    by_cases hk : k = e.kv.key
    · simp [hk]
    · have hk' : ¬ e.kv.key = k := fun h => hk h.symm
      simp [hk, hk']

/-- The events on a key leave a slot with their revision once for each, and the tombstone of the
last. -/
theorem foldl_add (r : Nat) (slot : Option Slot) (events : List Event) (e : Event) :
    ∃ s : Slot, (events ++ [e]).foldl
        (fun slot e => some (Slot.add r (e.type == .delete) slot)) slot = some s ∧
      s.revisions = slot.elim [] Slot.revisions ++ List.replicate (events.length + 1) r ∧
      s.tombstone = (e.type == .delete) := by
  rw [List.foldl_append]
  refine ⟨_, rfl, ?_, rfl⟩
  show (events.foldl _ slot).elim [] Slot.revisions ++ [r] = _
  rw [List.replicate_succ', ← List.append_assoc]
  congr 1
  induction events using List.reverseRecOn with
  | nil => simp
  | append_singleton events e ih =>
    rw [List.foldl_append, List.length_append, List.replicate_add, ← List.append_assoc, ← ih]
    rfl

/-- Applying a record adds its revision to a key once for each event on it. -/
theorem revisionsOf_applyRecord (env : LeaseEnv) (r : Nat) (m : MemoryStorage) (x : LogRecord)
    (k : Bytes) :
    (m.applyRecord env r x).revisions.revisionsOf k =
      m.revisions.revisionsOf k ++ (x.events.filter fun e => e.kv.key = k).map fun _ => r := by
  obtain ⟨events⟩ := x
  unfold applyRecord
  dsimp only
  induction events generalizing m with
  | nil => simp
  | cons e events ih =>
    rw [List.foldl_cons, ih, revisionsOf, slotOf_applyEvent]
    by_cases hk : k = e.kv.key
    · simp [hk, Slot.add, revisionsOf]
    · have hk' : ¬ e.kv.key = k := fun h => hk h.symm
      simp [hk, hk', revisionsOf]

theorem mem_revisionsOf_applyRecord_iff {env : LeaseEnv} {n : Nat} :
    r ∈ (m.applyRecord env n x).revisions.revisionsOf k ↔
      r ∈ m.revisions.revisionsOf k ∨ r = n ∧ Touches x k := by
  rw [revisionsOf_applyRecord, List.mem_append]
  refine or_congr_right ?_
  simp only [List.mem_map, List.mem_filter, decide_eq_true_eq]
  constructor
  · rintro ⟨e, ⟨he, hk⟩, rfl⟩
    exact ⟨rfl, e, he, hk⟩
  · rintro ⟨rfl, e, he, hk⟩
    exact ⟨e, ⟨he, hk⟩, rfl⟩

/-- Applying a record adds no revision but its own. -/
theorem mem_revisionsOf_applyRecord {env : LeaseEnv} {n : Nat}
    (hr : r ∈ (m.applyRecord env n x).revisions.revisionsOf k) :
    r ∈ m.revisions.revisionsOf k ∨ r = n :=
  (mem_revisionsOf_applyRecord_iff.mp hr).imp_right And.left

/-- Applying the next record of the history. -/
theorem IndexInv.applyRecord (hasc : hist.Pairwise fun p p' => p.1 < p'.1) (env : LeaseEnv)
    (h : IndexInv hist applied compacted m.revisions) (hc : compacted ≤ applied) (hlt : applied < r)
    (hx : (r, x) ∈ hist) (hnext : ∀ p ∈ hist, p.1 ≤ applied ∨ r ≤ p.1) :
    IndexInv hist r compacted (m.applyRecord env r x).revisions := by
  intro k
  have hquiet : ∀ r', applied < r' → r' < r → ¬ Writes hist k r' := by
    rintro r' h1 h2 ⟨y, hy, -⟩
    rcases hnext _ hy with h3 | h3 <;> simp only at h3 <;> omega
  rw [slotOf_applyRecord]
  rcases List.eq_nil_or_concat (x.events.filter fun e => e.kv.key = k) with hnil | ⟨es, e, heq⟩
  · rw [hnil]
    refine (h k).advance hasc hlt.le fun r' h1 h2 hwr => ?_
    rcases Nat.lt_or_ge r' r with h3 | h3
    · exact hquiet r' h1 h3 hwr
    · obtain rfl : r' = r := by omega
      obtain ⟨y, hy, e, he, hk⟩ := hwr
      rw [unique_of_ascending hasc hy hx] at he
      exact List.filter_eq_nil_iff.mp hnil e he (decide_eq_true hk)
  · rw [List.concat_eq_append] at heq
    have hon : lastOn x k = some e := by
      show (x.events.filter fun e => e.kv.key = k).getLast? = some e
      rw [heq, List.getLast?_append, List.getLast?_singleton, Option.some_or]
    obtain ⟨s, hs, hrevs, htomb⟩ := foldl_add r (m.revisions.slotOf k) es e
    rw [heq, hs]
    refine (h k).add hasc hlt hx hon hc hquiet hrevs (Nat.succ_pos _) ?_ htomb
    -- With two events on the key the record writes a key twice.
    by_cases hd : (x.events.map (·.kv.key)).Nodup
    · left
      have hlen : (x.events.filter fun e => e.kv.key = k).length ≤ 1 :=
        length_filter_key_le_one (ρ := LogRecord) hd k
      rw [heq, List.length_append] at hlen
      exact hlen
    · exact Or.inr ⟨x, hx, hd⟩

theorem IndexInv.advance (hasc : hist.Pairwise fun p p' => p.1 < p'.1)
    (h : IndexInv hist applied compacted t)
    {applied' : Nat} (hle : applied ≤ applied')
    (hquiet : ∀ p ∈ hist, p.1 ≤ applied ∨ applied' < p.1) : IndexInv hist applied' compacted t := by
  intro k
  apply (h k).advance hasc hle
  rintro r h1 h2 ⟨y, hy, -⟩
  rcases hquiet _ hy with h3 | h3 <;> simp only at h3 <;> omega

theorem IndexInv.compact (hasc : hist.Pairwise fun p p' => p.1 < p'.1)
    (h : IndexInv hist applied compacted t)
    {through : Nat} (hc : compacted ≤ through) (ht : through ≤ applied) :
    IndexInv hist applied through (t.compact through).1 := by
  intro k
  rw [slotOf_compact]
  exact (h k).compact hasc hc ht

theorem IndexInv.extend {new : LogHistory} (h : IndexInv hist applied compacted t)
    (hc : compacted ≤ applied) (hnew : ∀ p ∈ new, applied < p.1) :
    IndexInv (hist ++ new) applied compacted t :=
  fun k => (h k).extend hc hnew

/-- Compaction only removes revisions from the index. -/
theorem mem_revisionsOf_compact {through : Nat} (hr : r ∈ (t.compact through).1.revisionsOf k) :
    r ∈ t.revisionsOf k := by
  rw [revisionsOf, slotOf_compact] at hr
  rw [revisionsOf]
  cases hs : t.slotOf k with
  | none => simp [hs] at hr
  | some s =>
    rw [hs, Option.bind_some, Slot.compact] at hr
    dsimp only at hr
    split at hr
    · simp at hr
    · exact (trim_suffix _ _).subset hr

/-- Replaying the rest of a history. -/
theorem IndexInv.replay (hasc : hist.Pairwise fun p p' => p.1 < p'.1) (env : LeaseEnv)
    (rest : LogHistory) (m : MemoryStorage) (done : LogHistory) (applied : Nat) (hsplit : hist = done ++ rest)
    (hdone : ∀ p ∈ done, p.1 ≤ applied) (hrest : ∀ p ∈ rest, applied < p.1)
    (h : IndexInv hist applied 0 m.revisions) :
    ∃ applied', (∀ p ∈ hist, p.1 ≤ applied') ∧
      (applied' = applied ∨ ∃ p ∈ hist, p.1 = applied') ∧
      IndexInv hist applied' 0
        (rest.foldl (fun m r => m.applyRecord env r.1 r.2) m).revisions := by
  induction rest generalizing m done applied with
  | nil =>
    refine ⟨applied, ?_, Or.inl rfl, h⟩
    rw [hsplit, List.append_nil]
    exact hdone
  | cons p rest ih =>
    obtain ⟨r, x⟩ := p
    have hmem : (r, x) ∈ hist := by simp [hsplit]
    have hlt : applied < r := hrest _ List.mem_cons_self
    have hafter : ∀ q ∈ rest, r < q.1 := by
      rw [hsplit] at hasc
      exact (List.pairwise_cons.mp (List.pairwise_append.mp hasc).2.1).1
    have hnext : ∀ q ∈ hist, q.1 ≤ applied ∨ r ≤ q.1 := by
      intro q hq
      rw [hsplit] at hq
      rcases List.mem_append.mp hq with hq | hq
      · exact Or.inl (hdone q hq)
      · rcases List.mem_cons.mp hq with rfl | hq
        · exact Or.inr le_rfl
        · exact Or.inr (hafter q hq).le
    obtain ⟨a, hall, heq, hinv⟩ := ih (m.applyRecord env r x) (done ++ [(r, x)]) r
      (by simp [hsplit])
      (by
        intro q hq
        rcases List.mem_append.mp hq with hq | hq
        · exact (hdone q hq).trans hlt.le
        · obtain rfl := List.mem_singleton.mp hq
          exact le_rfl)
      hafter (h.applyRecord hasc env (Nat.zero_le _) hlt hmem hnext)
    refine ⟨a, hall, Or.inr ?_, hinv⟩
    rcases heq with rfl | heq
    · exact ⟨_, hmem, rfl⟩
    · exact heq

end IndexInv

end CloudEtcd
