/-
# CloudEtcd.Lib.RadixTree — a radix tree over any ordered alphabet, as a sorted map.

Edges carry non-empty words, and sibling edges differ in their first symbol and stand in its order.
A node is written first-child/next-sibling: `cons edge value child rest` is one edge, the value of
the word that ends exactly at it, the node below it and the edges after it.  A missing child and a
child without edges behave the same, and both are `nil`.

The tree is read through `lookup`.  `alter` changes the value of one word and keeps every other one
(`lookup_alter`), `sweep` rewrites all values in place (`lookup_sweep`),
and `list` visits the words from a start word on, in order, until its callback declines
(`list_eq_scan`).  Every operation keeps `WF`.
-/
import Mathlib.Data.List.Lex
import Mathlib.Tactic

namespace Radix

open List (prefix_append drop_left mem_append prefix_refl append_assoc nil_append length_append cons_append
  append_nil cons_lt_cons_iff filter_nil)

variable {α β σ ω : Type*}

/-- A node is its list of edges, sorted by first symbol. -/
inductive Node (α β : Type*) where
  | nil : Node α β
  | cons (edge : List α) (value : Option β) (child rest : Node α β) : Node α β

/-! ## Common prefixes -/

/-- The length of the longest common prefix of two words. -/
def commonPrefixLen [DecidableEq α] : List α → List α → Nat
  | a :: as, b :: bs => if a = b then commonPrefixLen as bs + 1 else 0
  | _, _ => 0

/-- Two words split at their common prefix into remainders that do not start alike. -/
theorem commonPrefixLen_spec [DecidableEq α] (a b : List α) :
    ∃ p a' b', a = p ++ a' ∧ b = p ++ b' ∧ p.length = commonPrefixLen a b ∧
      ∀ x ∈ a'.head?, ∀ y ∈ b'.head?, x ≠ y := by
  induction a generalizing b with
  | nil => exact ⟨[], [], b, by simp, by simp, by simp [commonPrefixLen], by simp⟩
  | cons x as ih =>
    cases b with
    | nil => exact ⟨[], x :: as, [], by simp, by simp, by simp [commonPrefixLen], by simp⟩
    | cons y bs =>
      by_cases hxy : x = y
      · subst hxy
        obtain ⟨p, a', b', ha, hb, hlen, hne⟩ := ih bs
        refine ⟨x :: p, a', b', by simp [← ha], by simp [← hb], ?_, hne⟩
        simp [commonPrefixLen, hlen]
      · refine ⟨[], x :: as, y :: bs, by simp, by simp, by simp [commonPrefixLen, hxy], ?_⟩
        simpa using hxy

section Order

variable [LinearOrder α]
variable {a b : List α}

/-- The first symbol of `a` is below the first symbol of `b`. -/
def before (a b : List α) : Bool :=
  match a, b with
  | x :: _, y :: _ => decide (x < y)
  | _, _ => false

@[simp] theorem before_cons (x y : α) (a b : List α) : before (x :: a) (y :: b) = true ↔ x < y := by
  simp [before]

theorem lt_of_before (h : before a b = true) (c : List α) : a ++ c < b := by
  cases a with
  | nil => simp [before] at h
  | cons x a =>
    cases b with
    | nil => simp [before] at h
    | cons y b => exact List.Lex.rel ((before_cons x y a b).mp h)

theorem before_append_left (ha : a ≠ []) (b c : List α) : before (a ++ b) c = before a c := by
  cases a with
  | nil => exact absurd rfl ha
  | cons x a => cases c <;> rfl

theorem before_append_right (hb : b ≠ []) (a c : List α) : before a (b ++ c) = before a b := by
  cases b with
  | nil => exact absurd rfl hb
  | cons x b => cases a <;> rfl

theorem not_prefix_of_before (h : before a b = true ∨ before b a = true) : ¬ a <+: b := by
  cases a with
  | nil => simp [before] at h
  | cons x a =>
    cases b with
    | nil => simp
    | cons y b =>
      rw [before_cons, before_cons] at h
      intro hp
      rw [List.cons_prefix_cons] at hp
      rcases h with h | h
      · exact absurd hp.1 h.ne
      · exact absurd hp.1 h.ne'

theorem before_trans {c : List α} (h : before a b = true) (h' : before b c = true) :
    before a c = true := by
  cases a with
  | nil => simp [before] at h
  | cons x a =>
    cases b with
    | nil => simp [before] at h
    | cons y b =>
      cases c with
      | nil => simp [before] at h'
      | cons z c =>
        rw [before_cons] at *
        exact h.trans h'

theorem append_lt_append_iff (p a b : List α) : p ++ a < p ++ b ↔ a < b := by
  induction p with
  | nil => rfl
  | cons x p ih => simp [ih]

theorem append_le_append_iff (p a b : List α) : p ++ a ≤ p ++ b ↔ a ≤ b := by
  rw [← not_lt, ← not_lt, append_lt_append_iff]

theorem le_append (p a : List α) : p ≤ p ++ a := by
  have h := (append_le_append_iff p [] a).mpr (not_lt.mp (by simp))
  simpa using h

theorem lt_append {p : List α} (ha : a ≠ []) : p < p ++ a := by
  have h := (append_lt_append_iff p [] a).mpr (by
    cases a with
    | nil => exact absurd rfl ha
    | cons x a => exact List.Lex.nil)
  simpa using h

/-! ## The tree and its reading -/

namespace Node

variable {n : Node α β} {a p e start : List α}

/-- Every edge of the node starts above the first symbol of `a`. -/
def Above (a : List α) : Node α β → Prop
  | .nil => True
  | .cons edge _ _ rest => before a edge = true ∧ rest.Above a

/-- Edges are non-empty and sibling edges have strictly increasing first symbols. -/
def WF : Node α β → Prop
  | .nil => True
  | .cons edge _ child rest => edge ≠ [] ∧ child.WF ∧ rest.WF ∧ rest.Above edge

/-- The value of a word: follow the edge that starts like the word, if the whole edge matches. -/
def lookup : Node α β → List α → Option β
  | .nil, _ => none
  | .cons edge value child rest, key =>
    if before edge key then rest.lookup key
    else if edge <+: key then
      if key.length = edge.length then value else child.lookup (key.drop edge.length)
    else none

/-- The words of the node with their values, in order, each behind `path`. -/
def entries : Node α β → List α → List (List α × β)
  | .nil, _ => []
  | .cons edge value child rest, path =>
    (value.map (path ++ edge, ·)).toList ++ child.entries (path ++ edge) ++ rest.entries path

/-- A new edge at its place among the siblings. -/
def insertEdge (key : List α) (v : β) : Node α β → Node α β
  | .nil => .cons key (some v) .nil .nil
  | .cons edge value child rest =>
    if before edge key then .cons edge value child (rest.insertEdge key v)
    else .cons key (some v) .nil (.cons edge value child rest)

/-- Replace the value of `key` by `f` of the old one, and report whether there was none.  The walk
over the siblings looks for the edge that starts like the key; a key that leaves an edge midway
splits it at the common prefix. -/
def alter (f : Option β → β) : Node α β → List α → Node α β × Bool
  | .nil, key => (.cons key (some (f none)) .nil .nil, true)
  | .cons edge value child rest, key =>
    if before edge key then
      (.cons edge value child (rest.alter f key).1, (rest.alter f key).2)
    else if before key edge then
      (.cons key (some (f none)) .nil (.cons edge value child rest), true)
    else
      let common := commonPrefixLen edge key
      if common = edge.length then
        if common = key.length then (.cons edge (some (f value)) child rest, value.isNone)
        else
          (.cons edge value (child.alter f (key.drop common)).1 rest,
            (child.alter f (key.drop common)).2)
      else
        -- The old edge's remainder becomes the sole child of the new intermediate edge.
        let below := Node.cons (edge.drop common) value child .nil
        if common = key.length then (.cons (edge.take common) (some (f none)) below rest, true)
        else
          (.cons (edge.take common) none (below.insertEdge (key.drop common) (f none)) rest, true)

/-- Rewrite every value in order, threading an accumulator; a value mapped to `none` is removed and
its edge stays. -/
def sweep (g : ω → β → Option β × ω) : Node α β → ω → Node α β × ω
  | .nil, w => (.nil, w)
  | .cons edge value child rest, w =>
    let own := match value with
      | some v => g w v
      | none => (none, w)
    let below := child.sweep g own.2
    let after := rest.sweep g below.2
    (.cons edge own.1 below.1 after.1, after.2)

/-- Visit the words from `start` on (relative to this node; `[]` once everything qualifies), in
order, until the callback returns `false`. -/
def list (cb : σ → List α → β → σ × Bool) : Node α β → List α → List α → σ → σ × Bool
  | .nil, _, _, s => (s, true)
  | .cons edge value child rest, path, start, s =>
    let m := min edge.length start.length
    if start ≠ [] ∧ (before edge start ∨ edge.take m < start.take m) then
      -- The whole subtree is below `start`.
      rest.list cb path start s
    else
      -- `start` continues below this edge: its own word is below `start`.
      let inside := start ≠ [] ∧ edge.take m = start.take m ∧ edge.length < start.length
      let childStart := if inside then start.drop edge.length else []
      let key := path ++ edge
      let own := match value with
        | some v => if inside then (s, true) else cb s key v
        | none => (s, true)
      if own.2 then
        let below := child.list cb key childStart own.1
        if below.2 then rest.list cb path [] below.1 else below
      else own

/-! ## What a lookup sees -/

theorem lookup_nil_key (h : n.WF) : n.lookup [] = none := by
  cases n with
  | nil => rfl
  | cons edge value child rest =>
    have hne : ¬ edge <+: [] := by simpa using h.1
    have hb : ¬ before edge [] = true := by cases edge <;> simp [before]
    rw [lookup, if_neg hb, if_neg hne]

variable {key : List α}

/-- A word that does not start above `a` is not in a node all of whose edges do. -/
theorem before_of_lookup {v : β} (ha : n.Above a) (h : n.lookup key = some v) :
    before a key = true := by
  induction n with
  | nil => simp [lookup] at h
  | cons edge value child rest _ ih =>
    rw [lookup] at h
    split at h
    · exact ih ha.2 h
    · split at h
      · rename_i hp
        obtain ⟨t, rfl⟩ := hp
        have hne : edge ≠ [] := by
          rintro rfl
          have := ha.1
          cases a <;> simp [before] at this
        rw [before_append_right hne]
        exact ha.1
      · simp at h

variable {edge : List α}

theorem lookup_cons_append (hne : edge ≠ []) (value : Option β)
    (child rest : Node α β) (t : List α) :
    (Node.cons edge value child rest).lookup (edge ++ t) =
      if t = [] then value else child.lookup t := by
  have hb : ¬ before edge (edge ++ t) = true := by
    rw [before_append_right hne]
    cases edge <;> simp [before]
  rw [lookup, if_neg hb, if_pos (prefix_append edge t)]
  by_cases ht : t = []
  · subst ht
    simp
  · have hlen : ¬ (edge ++ t).length = edge.length := by simpa using ht
    rw [if_neg hlen, if_neg ht, drop_left]

variable {value : Option β} {child rest : Node α β}

theorem lookup_cons_of_prefix_fails
    (h : (Node.cons edge value child rest).WF) (hp : ¬ edge <+: key) :
    (Node.cons edge value child rest).lookup key = rest.lookup key := by
  rw [lookup, if_neg hp]
  split
  · rfl
  · rename_i hb
    cases hr : rest.lookup key with
    | none => rfl
    | some v => exact absurd (before_of_lookup h.2.2.2 hr) hb

theorem lookup_rest_of_prefix_holds (h : (Node.cons edge value child rest).WF) (hpne : p ≠ [])
    (hp : p <+: edge) (t : List α) : rest.lookup (p ++ t) = none := by
  cases hr : rest.lookup (p ++ t) with
  | none => rfl
  | some v =>
    obtain ⟨e, rfl⟩ := hp
    have hb := before_of_lookup h.2.2.2 hr
    rw [before_append_left hpne, before_append_right hpne] at hb
    cases p with
    | nil => exact absurd rfl hpne
    | cons x p => exact absurd ((before_cons x x p p).mp hb) (lt_irrefl x)

/-- The enumeration holds exactly the words that `lookup` finds. -/
theorem mem_entries (h : n.WF) {path k : List α} {v : β} :
    (k, v) ∈ n.entries path ↔ ∃ t, k = path ++ t ∧ n.lookup t = some v := by
  induction n generalizing path with
  | nil => simp [entries, lookup]
  | cons edge value child rest ihc ihr =>
    obtain ⟨hne, hc, hr, ha⟩ := id h
    rw [entries, mem_append, mem_append, ihc hc, ihr hr]
    constructor
    · rintro ((hown | ⟨t, rfl, ht⟩) | ⟨t, rfl, ht⟩)
      · cases value with
        | none => simp at hown
        | some w =>
          simp only [Option.map_some, Option.toList_some, List.mem_singleton,
            Prod.mk.injEq] at hown
          obtain ⟨rfl, rfl⟩ := hown
          refine ⟨edge, rfl, ?_⟩
          have := lookup_cons_append hne (some v) child rest []
          simpa using this
      · refine ⟨edge ++ t, by simp, ?_⟩
        have htne : t ≠ [] := by
          rintro rfl
          simp [lookup_nil_key hc] at ht
        rw [lookup_cons_append hne, if_neg htne, ht]
      · refine ⟨t, rfl, ?_⟩
        have hp : ¬ edge <+: t := by
          rintro ⟨u, rfl⟩
          rw [lookup_rest_of_prefix_holds h hne (prefix_refl edge)] at ht
          simp at ht
        rw [lookup_cons_of_prefix_fails h hp, ht]
    · rintro ⟨t, rfl, ht⟩
      by_cases hp : edge <+: t
      · obtain ⟨u, rfl⟩ := hp
        rw [lookup_cons_append hne] at ht
        by_cases hu : u = []
        · subst hu
          simp only [↓reduceIte] at ht
          subst ht
          exact Or.inl (Or.inl (by simp))
        · rw [if_neg hu] at ht
          exact Or.inl (Or.inr ⟨u, by simp, ht⟩)
      · rw [lookup_cons_of_prefix_fails h hp] at ht
        exact Or.inr ⟨t, rfl, ht⟩

/-- The enumeration is strictly ascending. -/
theorem entries_pairwise (h : n.WF) (path : List α) :
    (n.entries path).Pairwise (fun a b => a.1 < b.1) := by
  induction n generalizing path with
  | nil => simp [entries]
  | cons edge value child rest ihc ihr =>
    obtain ⟨hne, hc, hr, ha⟩ := id h
    rw [entries, append_assoc, List.pairwise_append, List.pairwise_append]
    refine ⟨by cases value <;> simp, ⟨ihc hc _, ihr hr _, ?_⟩, ?_⟩
    · rintro ⟨k, v⟩ hk ⟨k', v'⟩ hk'
      obtain ⟨t, rfl, ht⟩ := (mem_entries hc).mp hk
      obtain ⟨t', rfl, ht'⟩ := (mem_entries hr).mp hk'
      show path ++ edge ++ t < path ++ t'
      rw [append_assoc, append_lt_append_iff]
      exact lt_of_before (before_of_lookup ha ht') t
    · rintro ⟨k, v⟩ hk ⟨k', v'⟩ hk'
      have hkey : k = path ++ edge := by
        cases value with
        | none => simp at hk
        | some w => simp at hk; exact hk.1
      subst hkey
      rcases mem_append.mp hk' with hk' | hk'
      · obtain ⟨t, rfl, ht⟩ := (mem_entries hc).mp hk'
        apply lt_append
        rintro rfl
        simp [lookup_nil_key hc] at ht
      · obtain ⟨t, rfl, ht⟩ := (mem_entries hr).mp hk'
        show path ++ edge < path ++ t
        rw [append_lt_append_iff]
        simpa using lt_of_before (before_of_lookup ha ht) []

/-! ## Changing one word -/

/-- What `alter` does at an edge, by where the key and the edge part. -/
theorem alter_cons_cases (f : Option β → β) (value : Option β)
    (child rest : Node α β) (he : edge ≠ []) (hk : key ≠ []) :
    (before edge key = true ∧ (Node.cons edge value child rest).alter f key =
        (.cons edge value child (rest.alter f key).1, (rest.alter f key).2)) ∨
    (before key edge = true ∧ (Node.cons edge value child rest).alter f key =
        (.cons key (some (f none)) .nil (.cons edge value child rest), true)) ∨
    (key = edge ∧ (Node.cons edge value child rest).alter f key =
        (.cons edge (some (f value)) child rest, value.isNone)) ∨
    (∃ t, t ≠ [] ∧ key = edge ++ t ∧ (Node.cons edge value child rest).alter f key =
        (.cons edge value (child.alter f t).1 rest, (child.alter f t).2)) ∨
    (∃ e, e ≠ [] ∧ edge = key ++ e ∧ (Node.cons edge value child rest).alter f key =
        (.cons key (some (f none)) (.cons e value child .nil) rest, true)) ∨
    (∃ p x e y t, p ≠ [] ∧ x ≠ y ∧ edge = p ++ x :: e ∧ key = p ++ y :: t ∧
      (Node.cons edge value child rest).alter f key =
        (.cons p none ((Node.cons (x :: e) value child .nil).insertEdge (y :: t) (f none)) rest,
          true)) := by
  by_cases hb : before edge key = true
  · exact Or.inl ⟨hb, by rw [alter, if_pos hb]⟩
  by_cases hb' : before key edge = true
  · exact Or.inr (Or.inl ⟨hb', by rw [alter, if_neg hb, if_pos hb']⟩)
  refine Or.inr (Or.inr ?_)
  obtain ⟨p, e, t, hedge, hkey, hlen, hne⟩ := commonPrefixLen_spec edge key
  have hpne : p ≠ [] := by
    rintro rfl
    simp only [nil_append] at hedge hkey
    subst hedge hkey
    cases edge with
    | nil => exact he rfl
    | cons x e =>
      cases key with
      | nil => exact hk rfl
      | cons y t =>
        rw [before_cons] at hb hb'
        exact hne x (by simp) y (by simp) (le_antisymm (not_lt.mp hb') (not_lt.mp hb))
  have hel : commonPrefixLen edge key = edge.length ↔ e = [] := by
    rw [← hlen, hedge, length_append]
    simp
  have hkl : commonPrefixLen edge key = key.length ↔ t = [] := by
    rw [← hlen, hkey, length_append]
    simp
  have htake : edge.take (commonPrefixLen edge key) = p := by rw [← hlen, hedge, List.take_left]
  have hdrope : edge.drop (commonPrefixLen edge key) = e := by rw [← hlen, hedge, drop_left]
  have hdropk : key.drop (commonPrefixLen edge key) = t := by rw [← hlen, hkey, drop_left]
  rw [alter, if_neg hb, if_neg hb']
  simp only [hel, hkl, htake, hdrope, hdropk]
  cases e with
  | nil =>
    cases t with
    | nil => exact Or.inl ⟨by simp [hedge, hkey], by simp⟩
    | cons y t => exact Or.inr (Or.inl ⟨y :: t, by simp, by simp [hedge, hkey], by simp⟩)
  | cons x e =>
    cases t with
    | nil =>
      refine Or.inr (Or.inr (Or.inl ⟨x :: e, by simp, by simp [hedge, hkey], ?_⟩))
      simp [hkey]
    | cons y t =>
      refine Or.inr (Or.inr (Or.inr ⟨p, x, e, y, t, hpne, ?_, hedge, hkey, by simp⟩))
      exact hne x (by simp) y (by simp)

/-- A key before the first edge: its own leaf edge, in front. -/
theorem lookup_newEdge (hk : key ≠ []) (v : β)
    (hwf : (Node.cons key (some v) .nil n).WF) (k : List α) :
    (Node.cons key (some v) .nil n).lookup k = if k = key then some v else n.lookup k := by
  by_cases hp : key <+: k
  · obtain ⟨u, rfl⟩ := hp
    rw [lookup_cons_append hk]
    by_cases hu : u = []
    · simp [hu]
    · have hne : ¬ key ++ u = key := by simpa using hu
      rw [if_neg hu, if_neg hne, lookup_rest_of_prefix_holds hwf hk (prefix_refl key), lookup]
  · have hne : ¬ k = key := by
      rintro rfl
      exact hp (prefix_refl _)
    rw [lookup_cons_of_prefix_fails hwf hp, if_neg hne]

/-- The two edges below a split point: the old remainder and the new one, in order. -/
theorem insertEdge_split {x y : α} (hxy : x ≠ y) (e t : List α) (value : Option β) (v : β)
    (hc : child.WF) :
    ((Node.cons (x :: e) value child .nil).insertEdge (y :: t) v).WF ∧
    ∀ k, ((Node.cons (x :: e) value child .nil).insertEdge (y :: t) v).lookup k =
      if k = y :: t then some v else (Node.cons (x :: e) value child .nil).lookup k := by
  have hold : (Node.cons (x :: e) value child .nil).WF := ⟨by simp, hc, trivial, trivial⟩
  have hnew : (Node.cons (y :: t) (some v) (.nil : Node α β) .nil).WF :=
    ⟨by simp, trivial, trivial, trivial⟩
  by_cases hlt : x < y
  · -- The new edge comes behind the old one.
    have hb : before (x :: e) (y :: t) = true := (before_cons _ _ _ _).mpr hlt
    have hwf : (Node.cons (x :: e) value child
        (.cons (y :: t) (some v) .nil .nil)).WF := ⟨by simp, hc, hnew, hb, trivial⟩
    rw [insertEdge, if_pos hb, insertEdge]
    refine ⟨hwf, fun k => ?_⟩
    by_cases hp : (x :: e) <+: k
    · obtain ⟨u, rfl⟩ := hp
      have hk : ¬ x :: e ++ u = y :: t := by
        rw [cons_append, List.cons.injEq]
        exact fun h => hxy h.1
      rw [if_neg hk, lookup_cons_append (by simp), lookup_cons_append (by simp)]
    · rw [lookup_cons_of_prefix_fails hwf hp, lookup_newEdge (by simp) v hnew,
        lookup_cons_of_prefix_fails hold hp]
  · -- The new edge comes in front.
    have hgt : y < x := lt_of_le_of_ne (not_lt.mp hlt) (Ne.symm hxy)
    have hb : ¬ before (x :: e) (y :: t) = true := by
      rw [before_cons]
      exact hlt
    have hwf : (Node.cons (y :: t) (some v) (.nil : Node α β)
        (.cons (x :: e) value child .nil)).WF :=
      ⟨by simp, trivial, hold, (before_cons _ _ _ _).mpr hgt, trivial⟩
    rw [insertEdge, if_neg hb]
    exact ⟨hwf, fun k => lookup_newEdge (by simp) v hwf k⟩

theorem above_of_before (hp : p ≠ []) (h : p <+: edge) (ha : n.Above edge) : n.Above p := by
  induction n with
  | nil => trivial
  | cons e value child rest _ ih =>
    obtain ⟨u, rfl⟩ := h
    exact ⟨by rw [← before_append_left hp u]; exact ha.1, ih ha.2⟩

theorem above_trans (h : before a b = true) (hn : n.Above b) : n.Above a := by
  induction n with
  | nil => trivial
  | cons e value child rest _ ih => exact ⟨before_trans h hn.1, ih hn.2⟩

theorem above_alter (f : Option β → β) (hn : n.WF) (hk : key ≠ []) (ha : n.Above a)
    (hak : before a key = true) : (n.alter f key).1.Above a := by
  induction n with
  | nil => exact ⟨hak, trivial⟩
  | cons edge value child rest _ ih =>
    obtain ⟨he, hc, hr, hab⟩ := hn
    rcases alter_cons_cases f value child rest he hk with ⟨_, h⟩ | ⟨_, h⟩ | ⟨_, h⟩ |
      ⟨t, _, _, h⟩ | ⟨e, _, _, h⟩ | ⟨p, x, e, y, t, hp, _, _, hkey, h⟩
    · rw [h]
      exact ⟨ha.1, ih hr ha.2⟩
    · rw [h]
      exact ⟨hak, ha⟩
    · rw [h]
      exact ha
    · rw [h]
      exact ha
    · rw [h]
      exact ⟨hak, ha.2⟩
    · rw [h]
      refine ⟨?_, ha.2⟩
      rw [hkey, before_append_right hp] at hak
      exact hak

theorem wf_alter (f : Option β → β) (hn : n.WF) (hk : key ≠ []) : (n.alter f key).1.WF := by
  induction n generalizing key with
  | nil => exact ⟨hk, trivial, trivial, trivial⟩
  | cons edge value child rest ihc ihr =>
    obtain ⟨he, hc, hr, hab⟩ := id hn
    rcases alter_cons_cases f value child rest he hk with ⟨hb, h⟩ | ⟨hb, h⟩ | ⟨_, h⟩ |
      ⟨t, ht, _, h⟩ | ⟨e, hene, hedge, h⟩ | ⟨p, x, e, y, t, hp, hxy, hedge, hkey, h⟩
    · rw [h]
      exact ⟨he, hc, ihr hr hk, above_alter f hr hk hab hb⟩
    · rw [h]
      exact ⟨hk, trivial, hn, hb, above_trans hb hab⟩
    · rw [h]
      exact hn
    · rw [h]
      exact ⟨he, ihc hc ht, hr, hab⟩
    · rw [h]
      exact ⟨hk, ⟨hene, hc, trivial, trivial⟩, hr,
        above_of_before hk ⟨e, hedge.symm⟩ hab⟩
    · rw [h]
      exact ⟨hp, (insertEdge_split hxy e t value (f none) hc).1, hr,
        above_of_before hp ⟨x :: e, hedge.symm⟩ hab⟩

omit [LinearOrder α] in
theorem not_prefix_append (he : e ≠ []) (p : List α) : ¬ p ++ e <+: p := by
  intro h
  have hlen := h.length_le
  rw [length_append] at hlen
  exact he (List.length_eq_zero_iff.mp (by omega))

/-- Cutting an edge `p ++ e` at `p` changes no lookup strictly below `p`. -/
theorem lookup_cut (hp : p ≠ []) (he : e ≠ [])
    (hn : (Node.cons (p ++ e) value child rest).WF) (u : List α) :
    (Node.cons e value child .nil).lookup u =
      (Node.cons (p ++ e) value child rest).lookup (p ++ u) := by
  have hcut : (Node.cons e value child (.nil : Node α β)).WF := ⟨he, hn.2.1, trivial, trivial⟩
  by_cases heu : e <+: u
  · obtain ⟨w, rfl⟩ := heu
    rw [lookup_cons_append he, ← append_assoc, lookup_cons_append hn.1]
  · have heu' : ¬ p ++ e <+: p ++ u := by
      rw [List.prefix_append_right_inj]
      exact heu
    rw [lookup_cons_of_prefix_fails hcut heu, lookup_cons_of_prefix_fails hn heu',
      lookup_rest_of_prefix_holds hn hp (prefix_append p e), lookup]

theorem lookup_at_cut (hp : p ≠ []) (he : e ≠ []) (hn : (Node.cons (p ++ e) value child rest).WF) :
    (Node.cons (p ++ e) value child rest).lookup p = none := by
  rw [lookup_cons_of_prefix_fails hn (not_prefix_append he p)]
  simpa using lookup_rest_of_prefix_holds hn hp (prefix_append p e) []

omit [LinearOrder α] in
theorem ne_of_prefix_fails {k : List α} (h : ¬ p <+: k) (t : List α) : ¬ k = p ++ t := by
  rintro rfl
  exact h (prefix_append p t)

section LookupAlter

variable {edge key : List α} {value : Option β} {child rest : Node α β} {v : β}

section

variable (hn : (Node.cons edge value child rest).WF)
include hn

/-- A change among the later siblings. -/
theorem lookup_change_rest {rest' : Node α β}
    (hres : (Node.cons edge value child rest').WF) (hp : ¬ edge <+: key)
    (hrest : ∀ k, rest'.lookup k = if k = key then some v else rest.lookup k) (k : List α) :
    (Node.cons edge value child rest').lookup k =
      if k = key then some v else (Node.cons edge value child rest).lookup k := by
  by_cases hpk : edge <+: k
  · have hne : ¬ k = key := by
      rintro rfl
      exact hp hpk
    obtain ⟨u, rfl⟩ := hpk
    rw [if_neg hne, lookup_cons_append hn.1, lookup_cons_append hn.1]
  · rw [lookup_cons_of_prefix_fails hres hpk, hrest, lookup_cons_of_prefix_fails hn hpk]

/-- A change of the edge's own value. -/
theorem lookup_change_value (k : List α) :
    (Node.cons edge (some v) child rest).lookup k =
      if k = edge then some v else (Node.cons edge value child rest).lookup k := by
  have hres : (Node.cons edge (some v) child rest).WF := hn
  by_cases hpk : edge <+: k
  · obtain ⟨u, rfl⟩ := hpk
    rw [lookup_cons_append hn.1, lookup_cons_append hn.1]
    by_cases hu : u = [] <;> simp [hu]
  · have hne := ne_of_prefix_fails hpk []
    rw [append_nil] at hne
    rw [lookup_cons_of_prefix_fails hres hpk, if_neg hne, lookup_cons_of_prefix_fails hn hpk]

/-- A change below the edge. -/
theorem lookup_change_child {child' : Node α β} {t : List α} (hres : (Node.cons edge value child' rest).WF)
    (ht : t ≠ []) (hchild : ∀ k, child'.lookup k = if k = t then some v else child.lookup k)
    (k : List α) :
    (Node.cons edge value child' rest).lookup k =
      if k = edge ++ t then some v else (Node.cons edge value child rest).lookup k := by
  by_cases hpk : edge <+: k
  · obtain ⟨u, rfl⟩ := hpk
    rw [lookup_cons_append hn.1, lookup_cons_append hn.1, hchild]
    by_cases hu : u = []
    · have hne : ¬ edge ++ [] = edge ++ t := by simpa using ht
      rw [if_pos hu, if_pos hu, hu, if_neg hne]
    · simp [hu]
  · rw [lookup_cons_of_prefix_fails hres hpk, if_neg (ne_of_prefix_fails hpk t),
      lookup_cons_of_prefix_fails hn hpk]

end

/-- The edge is cut at a word `p` inside it, whose own value is set or stays absent; what is below `p`
then differs from before at most at `key`. -/
theorem lookup_change_cut {p e t : List α} {own : Option β} {below : Node α β} (hp : p ≠ [])
    (he : e ≠ []) (hn : (Node.cons (p ++ e) value child rest).WF)
    (hres : (Node.cons p own below rest).WF)
    (hown : own = if t = [] then some v else none)
    (hbelow : ∀ u, u ≠ [] → below.lookup u =
      if u = t then some v else (Node.cons e value child .nil).lookup u) (k : List α) :
    (Node.cons p own below rest).lookup k =
      if k = p ++ t then some v else (Node.cons (p ++ e) value child rest).lookup k := by
  by_cases hpk : p <+: k
  · obtain ⟨u, rfl⟩ := hpk
    rw [lookup_cons_append hp]
    by_cases hu : u = []
    · -- At the cut itself there was no value.
      have hcut := lookup_at_cut hp he hn
      subst hu
      by_cases ht : t = []
      · simp [hown, ht]
      · have hne : ¬ p ++ [] = p ++ t := by simpa using ht
        rw [if_pos rfl, hown, if_neg ht, if_neg hne, append_nil, hcut]
    · rw [if_neg hu, hbelow u hu, lookup_cut hp he hn]
      simp
  · have hpk' : ¬ p ++ e <+: k := fun hpre => hpk ((prefix_append p e).trans hpre)
    rw [lookup_cons_of_prefix_fails hres hpk, if_neg (ne_of_prefix_fails hpk t),
      lookup_cons_of_prefix_fails hn hpk']

end LookupAlter

/-- A key that leaves the edge midway has no value. -/
theorem lookup_fork {t : List α} {x y : α} (hp : p ≠ []) (hxy : x ≠ y)
    (hn : (Node.cons (p ++ x :: e) value child rest).WF) :
    (Node.cons (p ++ x :: e) value child rest).lookup (p ++ y :: t) = none := by
  have hold : (Node.cons (x :: e) value child (.nil : Node α β)).WF :=
    ⟨by simp, hn.2.1, trivial, trivial⟩
  have hxk : ¬ (x :: e) <+: (y :: t) := by
    rw [List.cons_prefix_cons]
    exact fun h => hxy h.1
  rw [← lookup_cut hp (by simp) hn, lookup_cons_of_prefix_fails hold hxk, lookup]

/-- A key in front of the first edge has no value. -/
theorem lookup_front (hk : key ≠ []) (hb : before key edge = true)
    (hn : (Node.cons edge value child rest).WF) :
    (Node.cons edge value child rest).lookup key = none := by
  cases hl : (Node.cons edge value child rest).lookup key with
  | none => rfl
  | some v =>
    have ha : (Node.cons edge value child rest).Above key := ⟨hb, above_trans hb hn.2.2.2⟩
    have hself := before_of_lookup ha hl
    cases key with
    | nil => exact absurd rfl hk
    | cons x key => exact absurd ((before_cons x x key key).mp hself) (lt_irrefl x)

theorem lookup_edge (he : edge ≠ []) (value : Option β) (child rest : Node α β) :
    (Node.cons edge value child rest).lookup edge = value := by
  have h := lookup_cons_append he value child rest []
  rwa [append_nil, if_pos rfl] at h

/-- `alter` at `key` gives it the new value and leaves every other word as it was. -/
theorem lookup_alter (f : Option β → β) (hn : n.WF) (hk : key ≠ []) (k : List α) :
    (n.alter f key).1.lookup k = if k = key then some (f (n.lookup key)) else n.lookup k := by
  induction n generalizing key k with
  | nil =>
    have hwf : (Node.cons key (some (f none)) (.nil : Node α β) .nil).WF :=
      ⟨hk, trivial, trivial, trivial⟩
    exact lookup_newEdge hk (f none) hwf k
  | cons edge value child rest ihc ihr =>
    obtain ⟨he, hc, hr, -⟩ := id hn
    have hres := wf_alter f hn hk
    rcases alter_cons_cases f value child rest he hk with ⟨hb, h⟩ | ⟨hb, h⟩ | ⟨rfl, h⟩ |
      ⟨t, ht, rfl, h⟩ | ⟨e, hene, rfl, h⟩ | ⟨p, x, e, y, t, hp, hxy, rfl, rfl, h⟩
    · -- The key belongs to a later sibling.
      rw [h] at hres ⊢
      have hp := not_prefix_of_before (Or.inl hb)
      rw [lookup_cons_of_prefix_fails hn hp]
      exact lookup_change_rest hn hres hp (ihr hr hk) k
    · -- No edge starts like the key: a new edge in front.
      rw [h] at hres ⊢
      rw [lookup_newEdge hk (f none) hres, lookup_front hk hb hn]
    · -- The key ends exactly at the edge.
      rw [h, lookup_edge he]
      exact lookup_change_value hn k
    · -- The key continues below the edge.
      rw [h] at hres ⊢
      rw [lookup_cons_append he, if_neg ht]
      exact lookup_change_child hn hres ht (ihc hc ht) k
    · -- The key ends inside the edge.
      rw [h] at hres ⊢
      rw [lookup_at_cut hk hene hn]
      have hcut := lookup_change_cut (t := []) (v := f none) hk hene hn hres (by simp)
        (fun u hu => by rw [if_neg hu]) k
      rwa [append_nil] at hcut
    · -- The key and the edge fork inside the edge.
      rw [h] at hres ⊢
      rw [lookup_fork hp hxy hn]
      exact lookup_change_cut hp (by simp) hn hres (by simp)
        (fun u _ => (insertEdge_split hxy e t value (f none) hc).2 u) k

/-- `alter` reports whether the word had no value. -/
theorem alter_isNew (f : Option β → β) (hn : n.WF) (hk : key ≠ []) :
    (n.alter f key).2 = (n.lookup key).isNone := by
  induction n generalizing key with
  | nil => rfl
  | cons edge value child rest ihc ihr =>
    obtain ⟨he, hc, hr, -⟩ := id hn
    rcases alter_cons_cases f value child rest he hk with ⟨hb, h⟩ | ⟨hb, h⟩ | ⟨rfl, h⟩ |
      ⟨t, ht, rfl, h⟩ | ⟨e, hene, rfl, h⟩ | ⟨p, x, e, y, t, hp, hxy, rfl, rfl, h⟩
    · rw [h, lookup_cons_of_prefix_fails hn (not_prefix_of_before (Or.inl hb))]
      exact ihr hr hk
    · rw [h, lookup_front hk hb hn]
      rfl
    · rw [h, lookup_edge he]
    · rw [h, lookup_cons_append he, if_neg ht]
      exact ihc hc ht
    · rw [h, lookup_at_cut hk hene hn]
      rfl
    · rw [h, lookup_fork hp hxy hn]
      rfl

/-! ## Rewriting all values -/

section

variable (g : ω → β → Option β × ω)
include g

theorem above_sweep (h : n.Above a) (w : ω) : (n.sweep g w).1.Above a := by
  induction n generalizing w with
  | nil => trivial
  | cons edge value child rest _ ih => exact ⟨h.1, ih h.2 _⟩

theorem wf_sweep (h : n.WF) (w : ω) : (n.sweep g w).1.WF := by
  induction n generalizing w with
  | nil => trivial
  | cons edge value child rest ihc ihr =>
    exact ⟨h.1, ihc h.2.1 _, ihr h.2.2.1 _, above_sweep g h.2.2.2 _⟩

/-- A sweep whose rewriting does not depend on the accumulator acts word by word. -/
theorem lookup_sweep (r : β → Option β) (hg : ∀ w v, (g w v).1 = r v) (n : Node α β) (w : ω)
    (k : List α) : (n.sweep g w).1.lookup k = (n.lookup k).bind r := by
  induction n generalizing w k with
  | nil => rfl
  | cons edge value child rest ihc ihr =>
    simp only [sweep, lookup]
    rw [ihc, ihr]
    by_cases hb : before edge k = true
    · simp only [hb, ↓reduceIte]
    · simp only [hb, Bool.false_eq_true, ↓reduceIte]
      by_cases hp : edge <+: k
      · simp only [hp, ↓reduceIte]
        by_cases hlen : k.length = edge.length
        · simp only [hlen, ↓reduceIte]
          cases value with
          | none => rfl
          | some v => exact hg w v
        · simp only [hlen, ↓reduceIte]
      · simp only [hp, ↓reduceIte, Option.bind_none]

end

omit [LinearOrder α] in
/-- The accumulator of a sweep goes through the values in order. -/
theorem sweep_snd (g : ω → β → Option β × ω) (n : Node α β) (path : List α) (w : ω) :
    (n.sweep g w).2 = (n.entries path).foldl (fun w e => (g w e.2).2) w := by
  induction n generalizing path w with
  | nil => rfl
  | cons edge value child rest ihc ihr =>
    rw [entries, List.foldl_append, List.foldl_append, ← ihc, ← ihr]
    cases value with
    | none => rfl
    | some v => rfl

omit [LinearOrder α] in
theorem entries_sweep (g : ω → β → Option β × ω) (r : β → Option β) (hg : ∀ w v, (g w v).1 = r v)
    (n : Node α β) (path : List α) (w : ω) :
    (n.sweep g w).1.entries path =
      (n.entries path).filterMap fun e => (r e.2).map fun v => (e.1, v) := by
  induction n generalizing path w with
  | nil => rfl
  | cons edge value child rest ihc ihr =>
    simp only [sweep, entries, List.filterMap_append]
    rw [ihc, ihr]
    cases value with
    | none => rfl
    | some v =>
      simp only [hg, Option.map_some, Option.toList_some, List.filterMap_cons,
        List.filterMap_nil]
      cases r v with
      | none => rfl
      | some v' => rfl

/-! ## Visiting a range -/

/-- An early-stopping left fold. -/
def scan (cb : σ → List α → β → σ × Bool) : List (List α × β) → σ → σ × Bool
  | [], s => (s, true)
  | (k, v) :: l, s => if (cb s k v).2 then scan cb l (cb s k v).1 else cb s k v

omit [LinearOrder α] in
theorem scan_append (cb : σ → List α → β → σ × Bool) (l l' : List (List α × β)) (s : σ) :
    scan cb (l ++ l') s =
      if (scan cb l s).2 then scan cb l' (scan cb l s).1 else scan cb l s := by
  induction l generalizing s with
  | nil => simp [scan]
  | cons e l ih =>
    obtain ⟨k, v⟩ := e
    rw [cons_append, scan, scan]
    by_cases h : (cb s k v).2 = true
    · simp only [h, ↓reduceIte]
      exact ih _
    · simp only [h, Bool.false_eq_true, ↓reduceIte]

/-- An edge compared with `start` on their common length decides where its subtree lies. -/
theorem lt_of_take_lt
    (h : edge.take (min edge.length start.length) < start.take (min edge.length start.length))
    (t : List α) : edge ++ t < start := by
  induction edge generalizing start with
  | nil => simp at h
  | cons x edge ih =>
    cases start with
    | nil => simp at h
    | cons y start =>
      simp only [List.length_cons, Nat.succ_min_succ, List.take_succ_cons,
        cons_lt_cons_iff] at h
      rw [cons_append, cons_lt_cons_iff]
      exact h.imp id fun ⟨hxy, hlt⟩ => ⟨hxy, ih hlt⟩

omit [LinearOrder α] in
theorem prefix_of_take_eq
    (h : edge.take (min edge.length start.length) = start.take (min edge.length start.length))
    (hlen : edge.length ≤ start.length) : edge <+: start := by
  rw [Nat.min_eq_left hlen, List.take_length] at h
  rw [h]
  exact List.take_prefix _ _

/-- An edge that is neither skipped nor entered midway lies at or above `start` altogether. -/
theorem le_of_not_below
    (hskip : ¬ edge.take (min edge.length start.length) < start.take (min edge.length start.length))
    (hin : ¬ (edge.take (min edge.length start.length) = start.take (min edge.length start.length) ∧
      edge.length < start.length)) (t : List α) : start ≤ edge ++ t := by
  rw [← not_lt]
  intro hlt
  induction edge generalizing start with
  | nil =>
    cases start with
    | nil => simp at hlt
    | cons y start => exact hin ⟨by simp, by simp⟩
  | cons x edge ih =>
    cases start with
    | nil => simp at hlt
    | cons y start =>
      simp only [List.length_cons, Nat.succ_min_succ, List.take_succ_cons,
        cons_lt_cons_iff, not_or, not_and, List.cons.injEq, Nat.add_lt_add_iff_right]
        at hskip hin
      rw [cons_append, cons_lt_cons_iff] at hlt
      rcases hlt with hlt | ⟨rfl, hlt⟩
      · exact hskip.1 hlt
      · exact ih (hskip.2 rfl) (fun h => hin ⟨rfl, h.1⟩ h.2) hlt

/-- The siblings behind an edge that does not start below `start` are all visited. -/
theorem filter_entries_rest (hne : edge ≠ []) (hr : rest.WF)
    (ha : rest.Above edge) (hstart : start ≠ [] → ¬ before edge start = true) (path : List α) :
    (rest.entries path).filter (fun e => path ++ start ≤ e.1) = rest.entries path := by
  rw [List.filter_eq_self]
  rintro ⟨k, v⟩ hk
  obtain ⟨t, rfl, ht⟩ := (mem_entries hr).mp hk
  simp only [decide_eq_true_eq, append_le_append_iff]
  have hbt := before_of_lookup ha ht
  cases start with
  | nil => simpa using le_append [] t
  | cons y start =>
    have hb := hstart (by simp)
    cases edge with
    | nil => exact absurd rfl hne
    | cons x edge =>
      cases t with
      | nil => simp [before] at hbt
      | cons z t =>
        rw [before_cons] at hb hbt
        exact le_of_lt (List.Lex.rel (lt_of_le_of_lt (not_lt.mp hb) hbt))

/-- An edge all of whose words are below `start` has nothing to visit. -/
theorem filter_entries_edge_below (hlt : ∀ t, edge ++ t < start) (value : Option β)
    (hc : child.WF) (path : List α) :
    ((value.map (path ++ edge, ·)).toList ++ child.entries (path ++ edge)).filter
      (fun e => path ++ start ≤ e.1) = [] := by
  rw [List.filter_eq_nil_iff]
  rintro ⟨k, v⟩ hk
  have hword : ∃ t, k = path ++ (edge ++ t) := by
    rcases mem_append.mp hk with hown | hchild
    · refine ⟨[], ?_⟩
      cases value with
      | none => simp at hown
      | some w =>
        simp only [Option.map_some, Option.toList_some, List.mem_singleton,
          Prod.mk.injEq] at hown
        rw [append_nil]
        exact hown.1
    · obtain ⟨t, rfl, -⟩ := (mem_entries hc).mp hchild
      exact ⟨t, append_assoc ..⟩
  obtain ⟨t, rfl⟩ := hword
  simp [append_le_append_iff, hlt t]

/-- Below an edge all of whose words are at or above `start`, everything is visited. -/
theorem filter_entries_edge_above (hge : ∀ t, start ≤ edge ++ t) (hc : child.WF) (path : List α) :
    (child.entries (path ++ edge)).filter (fun e => path ++ start ≤ e.1) =
      (child.entries (path ++ edge)).filter fun e => path ++ edge ++ [] ≤ e.1 := by
  apply List.filter_congr
  rintro ⟨k, v⟩ hk
  obtain ⟨t, rfl, -⟩ := (mem_entries hc).mp hk
  simp [append_assoc, append_le_append_iff, hge t, le_append]

/-- `list` visits the words of the node from `start` on, in order. -/
theorem list_eq_scan (cb : σ → List α → β → σ × Bool) (h : n.WF) (path start : List α) (s : σ) :
    n.list cb path start s =
      scan cb ((n.entries path).filter fun e => path ++ start ≤ e.1) s := by
  induction n generalizing path start s with
  | nil => rfl
  | cons edge value child rest ihc ihr =>
    obtain ⟨hne, hc, hr, ha⟩ := id h
    have hrestNil : rest.entries path =
        (rest.entries path).filter (fun e => path ++ [] ≤ e.1) := by
      rw [filter_entries_rest hne hr ha (by simp)]
    simp only [list, entries, List.filter_append]
    split
    · -- Skipped: nothing under this edge reaches `start`.
      rename_i hskip
      have hlt : ∀ t, edge ++ t < start := by
        intro t
        rcases hskip.2 with hb | hlt
        · exact lt_of_before hb t
        · exact lt_of_take_lt hlt t
      rw [← List.filter_append, filter_entries_edge_below hlt value hc, ihr hr]
      rfl
    · rename_i hskip
      have hnb : start ≠ [] → ¬ before edge start = true :=
        fun hs hb => hskip ⟨hs, Or.inl hb⟩
      rw [filter_entries_rest hne hr ha hnb]
      by_cases hin : start ≠ [] ∧ edge.take (min edge.length start.length) =
          start.take (min edge.length start.length) ∧ edge.length < start.length
      · -- `start` continues below this edge.
        obtain ⟨u, rfl⟩ := prefix_of_take_eq hin.2.1 hin.2.2.le
        have hu : u ≠ [] := by
          rintro rfl
          simp at hin
        have hown : ((value.map (path ++ edge, ·)).toList.filter
            fun e => path ++ edge ++ u ≤ e.1) = [] := by
          cases value with
          | none => rfl
          | some v =>
            have h0 : path ++ edge < path ++ edge ++ u := lt_append hu
            simp only [Option.map_some, Option.toList_some, List.filter_cons,
              not_le.mpr h0, decide_false, Bool.false_eq_true, ↓reduceIte, filter_nil]
        simp only [if_pos hin, drop_left, ← append_assoc path, hown, nil_append]
        cases value <;> simp only [↓reduceIte] <;>
          rw [ihc hc, scan_append, ihr hr, ← hrestNil]
      · -- Everything from this edge on qualifies.
        have hge : ∀ t, start ≤ edge ++ t := by
          intro t
          by_cases hs : start = []
          · subst hs
            simpa using le_append [] (edge ++ t)
          · exact le_of_not_below (fun hlt => hskip ⟨hs, Or.inr hlt⟩) (fun h => hin ⟨hs, h⟩) t
        simp only [if_neg hin, filter_entries_edge_above hge hc, append_assoc]
        cases value with
        | none =>
          simp only [Option.map_none, Option.toList_none, filter_nil, nil_append,
            ↓reduceIte]
          rw [ihc hc, scan_append, ihr hr, ← hrestNil]
          simp only [append_assoc]
        | some v =>
          have h0 : path ++ start ≤ path ++ edge := by
            rw [append_le_append_iff]
            simpa using hge []
          simp only [Option.map_some, Option.toList_some, List.filter_cons, h0, decide_true,
            ↓reduceIte, filter_nil, cons_append, nil_append, scan]
          rw [scan_append, ihc hc, ihr hr, ← hrestNil]
          simp only [append_assoc]

end Node

end Order

end Radix
