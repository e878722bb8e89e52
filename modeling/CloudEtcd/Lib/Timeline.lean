/-
# CloudEtcd.Lib.Timeline — ascending lists of stamps, read at a point and trimmed below one.

`latest l a` is the last stamp at or below `a`, found by scanning back from the end.  `trim l t`
forgets what no reader at or after `t` can observe: it looks for the first stamp above `t` by binary
search (`search`) and keeps the one before it and everything after.  `mem_trim` says exactly what
survives and `latest_trim` that no reading at or above `t` changes.
-/
import Mathlib.Order.Basic
import Mathlib.Tactic

namespace Timeline

variable {α : Type*} [LinearOrder α]
variable {l : List α} {a r t x : α}

/-- The last element at or below `a`. -/
def latest (l : List α) (a : α) : Option α :=
  l.reverse.find? fun r => decide (r ≤ a)

/-- Binary search between `i` and `j` for the first index at which `f` holds, in at most `fuel`
steps. -/
def search (f : Nat → Bool) : Nat → Nat → Nat → Nat
  | 0, i, _ => i
  | fuel + 1, i, j =>
    if i < j then
      if f ((i + j) / 2) then search f fuel i ((i + j) / 2)
      else search f fuel ((i + j) / 2 + 1) j
    else i

/-- Keep the last element at or below `t` and everything after it. -/
def trim (l : List α) (t : α) : List α :=
  let i := search (fun i => l[i]?.any fun r => decide (t < r)) l.length 0 l.length
  l.drop (i - 1)

/-! ## Binary search -/

theorem search_le (f : Nat → Bool) {fuel i j : Nat} (h : i ≤ j) : search f fuel i j ≤ j := by
  induction fuel generalizing i j with
  | zero => exact h
  | succ fuel ih =>
    rw [search]
    split
    · split
      · exact (ih (by omega)).trans (by omega)
      · exact ih (by omega)
    · exact h

/-- With enough fuel the search finds the place where a monotone predicate starts to hold. -/
theorem search_eq {f : Nat → Bool} {n k : Nat} (hlo : ∀ i < k, f i = false)
    (hhi : ∀ i, k ≤ i → i < n → f i = true) {fuel i j : Nat} (hik : i ≤ k) (hkj : k ≤ j)
    (hjn : j ≤ n) (hfuel : j - i ≤ fuel) : search f fuel i j = k := by
  induction fuel generalizing i j with
  | zero =>
    rw [search]
    omega
  | succ fuel ih =>
    rw [search]
    split
    · next hij =>
      by_cases hmid : k ≤ (i + j) / 2
      · rw [if_pos (hhi _ hmid (by omega))]
        exact ih hik hmid (by omega) (by omega)
      · rw [if_neg (by rw [hlo _ (Nat.lt_of_not_le hmid)]; exact Bool.false_ne_true)]
        exact ih (by omega) hkj hjn (by omega)
    · omega

/-! ## Readings -/

@[simp] theorem latest_nil (a : α) : latest [] a = none := rfl

theorem latest_append_singleton (l : List α) (x a : α) :
    latest (l ++ [x]) a = if x ≤ a then some x else latest l a := by
  by_cases h : x ≤ a <;> simp [latest, h]

theorem latest_append (l l' : List α) (a : α) :
    latest (l ++ l') a = (latest l' a).or (latest l a) := by
  simp [latest, List.find?_append]

/-- On a list in order, the reading at a point is the largest stamp at or below it. -/
theorem latest_eq_some_iff (h : l.Pairwise (· ≤ ·)) :
    latest l a = some r ↔ r ∈ l ∧ r ≤ a ∧ ∀ x ∈ l, x ≤ a → x ≤ r := by
  induction l using List.reverseRecOn with
  | nil => simp
  | append_singleton l x ih =>
    rw [List.pairwise_append] at h
    have hle : ∀ y ∈ l, y ≤ x := fun y hy => h.2.2 y hy x (by simp)
    rw [latest_append_singleton]
    by_cases hx : x ≤ a
    · rw [if_pos hx]
      constructor
      · intro hr
        cases hr
        refine ⟨by simp, hx, fun y hy _ => ?_⟩
        rcases List.mem_append.mp hy with hy | hy
        · exact hle y hy
        · exact (List.mem_singleton.mp hy).le
      · rintro ⟨hr, _, hmax⟩
        rcases List.mem_append.mp hr with hr | hr
        · rw [le_antisymm (hmax x (by simp) hx) (hle r hr)]
        · rw [List.mem_singleton.mp hr]
    · rw [if_neg hx, ih h.1]
      constructor
      · rintro ⟨hr, hra, hmax⟩
        refine ⟨List.mem_append_left _ hr, hra, fun y hy hya => ?_⟩
        rcases List.mem_append.mp hy with hy | hy
        · exact hmax y hy hya
        · exact absurd (List.mem_singleton.mp hy ▸ hya) hx
      · rintro ⟨hr, hra, hmax⟩
        refine ⟨?_, hra, fun y hy hya => hmax y (List.mem_append_left _ hy) hya⟩
        rcases List.mem_append.mp hr with hr | hr
        · exact hr
        · exact absurd (List.mem_singleton.mp hr ▸ hra) hx

theorem latest_eq_getLast (l : List α) (a : α) :
    latest l a = (l.filter fun r => decide (r ≤ a)).getLast? := by
  rw [latest, ← List.head?_filter, List.filter_reverse, List.head?_reverse]

theorem latest_eq_none_iff : latest l a = none ↔ ∀ x ∈ l, a < x := by
  simp [latest, List.find?_eq_none]

theorem mem_of_latest (h : latest l a = some r) : r ∈ l := by
  simpa using List.mem_of_find?_eq_some h

theorem le_of_latest (h : latest l a = some r) : r ≤ a := by
  simpa using List.find?_some h

/-- A list in order splits at any point. -/
theorem exists_split (h : l.Pairwise (· ≤ ·)) (t : α) :
    ∃ lo hi, l = lo ++ hi ∧ (∀ x ∈ lo, x ≤ t) ∧ ∀ x ∈ hi, t < x := by
  induction l with
  | nil => exact ⟨[], [], rfl, by simp, by simp⟩
  | cons x l ih =>
    rw [List.pairwise_cons] at h
    by_cases hx : x ≤ t
    · obtain ⟨lo, hi, rfl, hlo, hhi⟩ := ih h.2
      refine ⟨x :: lo, hi, rfl, fun y hy => ?_, hhi⟩
      rcases List.mem_cons.mp hy with rfl | hy
      · exact hx
      · exact hlo y hy
    · refine ⟨[], x :: l, rfl, by simp, fun y hy => ?_⟩
      rcases List.mem_cons.mp hy with rfl | hy
      · exact not_le.mp hx
      · exact (not_le.mp hx).trans_le (h.1 y hy)

/-- A list in order splits into what is at or below a point and what is above it. -/
theorem filter_append_filter {β : Type*} {l : List β} {f : β → α}
    (h : l.Pairwise fun a b => f a ≤ f b) (t : α) :
    (l.filter fun x => decide (f x ≤ t)) ++ (l.filter fun x => decide (t < f x)) = l := by
  induction l with
  | nil => rfl
  | cons x l ih =>
    rw [List.pairwise_cons] at h
    by_cases hx : f x ≤ t
    · have hnot : ¬ t < f x := not_lt.mpr hx
      simp only [List.filter_cons, hx, hnot, decide_true, decide_false, if_true,
        Bool.false_eq_true, if_false, List.cons_append]
      rw [ih h.2]
    · have habove : ∀ y ∈ l, t < f y := fun y hy => (not_le.mp hx).trans_le (h.1 y hy)
      have hlo : l.filter (fun y => decide (f y ≤ t)) = [] :=
        List.filter_eq_nil_iff.mpr fun y hy => by simpa using habove y hy
      have hhi : l.filter (fun y => decide (t < f y)) = l :=
        List.filter_eq_self.mpr fun y hy => by simpa using habove y hy
      have hlt : t < f x := not_le.mp hx
      simp only [List.filter_cons, hx, hlt, decide_true, decide_false, if_true,
        Bool.false_eq_true, if_false, hlo, hhi, List.nil_append]

theorem trim_append {lo hi : List α} (hlo : ∀ x ∈ lo, x ≤ t) (hhi : ∀ x ∈ hi, t < x) :
    trim (lo ++ hi) t = lo.getLast?.toList ++ hi := by
  have hidx : search (fun i => (lo ++ hi)[i]?.any fun r => decide (t < r)) (lo ++ hi).length 0
      (lo ++ hi).length = lo.length := by
    refine search_eq (n := (lo ++ hi).length) (fun i hi => ?_) (fun i hle hlt => ?_) (Nat.zero_le _)
      (by simp) le_rfl le_rfl
    · rw [List.getElem?_append_left hi, List.getElem?_eq_getElem hi]
      simpa using hlo _ (List.getElem_mem hi)
    · rw [List.length_append] at hlt
      have hlen : i - lo.length < hi.length := by omega
      rw [List.getElem?_append_right hle, List.getElem?_eq_getElem hlen]
      simpa using hhi _ (List.getElem_mem hlen)
  simp only [trim, hidx]
  cases lo using List.reverseRecOn with
  | nil => simp
  | append_singleton lo x => simp

theorem latest_split {lo hi : List α} (hlo : ∀ x ∈ lo, x ≤ t) (hhi : ∀ x ∈ hi, t < x) :
    latest (lo ++ hi) t = lo.getLast? := by
  rw [latest_append, latest_eq_none_iff.mpr hhi, Option.none_or]
  cases lo using List.reverseRecOn with
  | nil => rfl
  | append_singleton lo x => rw [latest_append_singleton, if_pos (hlo x (by simp))]; simp

/-- A trim at `t` keeps what nothing at or below `t` comes after. -/
theorem mem_trim (h : l.Pairwise (· ≤ ·)) : x ∈ trim l t ↔ x ∈ l ∧ ∀ y ∈ l, y ≤ t → y ≤ x := by
  have hlatest := latest_eq_some_iff h (a := t) (r := x)
  obtain ⟨lo, hi, rfl, hlo, hhi⟩ := exists_split h t
  rw [latest_split hlo hhi] at hlatest
  rw [trim_append hlo hhi, List.mem_append, Option.mem_toList, hlatest]
  constructor
  · rintro (⟨hx, -, hmax⟩ | hx)
    · exact ⟨hx, hmax⟩
    · exact ⟨List.mem_append_right _ hx, fun y _ hy => hy.trans (hhi x hx).le⟩
  · rintro ⟨hx, hmax⟩
    rcases List.mem_append.mp hx with hlox | hhix
    · exact Or.inl ⟨hx, hlo x hlox, hmax⟩
    · exact Or.inr hhix

theorem trim_suffix (l : List α) (t : α) : trim l t <:+ l := by
  rw [trim]
  exact List.drop_suffix _ _

theorem trim_pairwise (h : l.Pairwise (· < ·)) (t : α) :
    (trim l t).Pairwise (· < ·) := h.sublist (trim_suffix l t).sublist

/-- A trim hides an earlier trim. -/
theorem trim_trim (h : l.Pairwise (· < ·)) {t' : α} (htt : t ≤ t') :
    trim (trim l t) t' = trim l t' := by
  refine List.Pairwise.eq_of_mem_iff (trim_pairwise (trim_pairwise h t) t') (trim_pairwise h t')
    fun x => ?_
  have hle := h.imp le_of_lt
  rw [mem_trim ((trim_pairwise h t).imp le_of_lt), mem_trim hle, mem_trim hle]
  constructor
  · rintro ⟨⟨hx, hmax⟩, hmax'⟩
    refine ⟨hx, fun y hy hyt => ?_⟩
    -- Either `y` outlives the first trim, or something that `x` is above does.
    by_cases hkept : ∀ z ∈ l, z ≤ t → z ≤ y
    · exact hmax' y ((mem_trim hle).mpr ⟨hy, hkept⟩) hyt
    · push Not at hkept
      obtain ⟨z, hz, hzt, hyz⟩ := hkept
      exact hyz.le.trans (hmax z hz hzt)
  · rintro ⟨hx, hmax⟩
    refine ⟨⟨hx, fun y hy hyt => hmax y hy (hyt.trans htt)⟩, fun y hy hyt => ?_⟩
    exact hmax y ((mem_trim hle).mp hy).1 hyt

theorem trim_ne_nil (h : l ≠ []) (t : α) : trim l t ≠ [] := by
  have hpos : 0 < l.length := List.length_pos_iff.mpr h
  have hidx : search (fun i => l[i]?.any fun r => decide (t < r)) l.length 0 l.length ≤ l.length :=
    search_le _ (Nat.zero_le _)
  simp only [trim, ne_eq, List.drop_eq_nil_iff]
  omega

theorem trim_getLast (h : l ≠ []) (t : α) : (trim l t).getLast (trim_ne_nil h t) = l.getLast h :=
  (trim_suffix l t).getLast _

/-- No reading at or above the trimming point changes. -/
theorem latest_trim (h : l.Pairwise (· < ·)) (hta : t ≤ a) : latest (trim l t) a = latest l a := by
  obtain ⟨lo, hi, rfl, hlo, hhi⟩ := exists_split (h.imp le_of_lt) t
  have hlo' : ∀ x ∈ lo, x ≤ a := fun x hx => (hlo x hx).trans hta
  rw [trim_append hlo hhi, latest_append, latest_append]
  congr 1
  cases lo using List.reverseRecOn with
  | nil => rfl
  | append_singleton lo x =>
    have hx : x ≤ a := hlo' x (by simp)
    rw [latest_append_singleton, if_pos hx]
    simp [latest, hx]

end Timeline
