/-
# CloudEtcd.Lib.Framing — input made of frames, the last of which may be torn.

A writer appends frames one after another and can be cut short anywhere.  A reader looks at the front
of what is left: a complete frame, the beginning of one (`torn`), or something no writer wrote
(`bad`).  `scan` reads frames until the input ends or is torn.

`Reads` says that a reader understands a writer.  From it: the scan of some frames followed by the
beginning of another finds exactly those frames (`Reads.scan_append`), and wherever a written input
is cut, what is left has that form (`exists_cut`).  Of input that nobody wrote, a `Local` reader finds the
same frames in the part it takes as complete (`Local.scan_take`).
-/
import Mathlib.Tactic

namespace Framing

variable {α β γ ε : Type*}

/-- What stands at the front of the input; a complete frame comes with its length. -/
inductive Front (α ε : Type*) where
  | frame (item : α) (length : Nat)
  | torn
  | bad (e : ε)

/-- Reads frames from position `pos` on, at most `fuel` of them.  The result is the frames with the
positions they start at and the position after the last; an error comes with the number of frames
before it. -/
def scan (front : List β → Front α ε) :
    Nat → Nat → List β → Except (Nat × ε) (List (Nat × α) × Nat)
  | 0, pos, _ => .ok ([], pos)
  | _ + 1, pos, [] => .ok ([], pos)
  | fuel + 1, pos, b :: input =>
    match front (b :: input) with
    | .torn => .ok ([], pos)
    | .bad e => .error (0, e)
    | .frame item length =>
      match scan front fuel (pos + length) ((b :: input).drop length) with
      | .ok (frames, complete) => .ok ((pos, item) :: frames, complete)
      | .error (i, e) => .error (i + 1, e)

/-- `front` reads what `encode` writes for the values that satisfy `ok`: a whole frame whatever
follows it, and `torn` in a proper beginning of one. -/
structure Reads (front : List β → Front α ε) (encode : γ → List β) (item : γ → α)
    (ok : γ → Prop) : Prop where
  ne_nil : ∀ x, ok x → encode x ≠ []
  frame : ∀ x, ok x → ∀ rest, front (encode x ++ rest) = .frame (item x) (encode x).length
  torn : ∀ x, ok x → ∀ start rest, encode x = start ++ rest → rest ≠ [] → start ≠ [] →
    front start = .torn

/-- Where the frames of some values stand when the first starts at `pos`. -/
def layout (encode : γ → List β) (item : γ → α) : Nat → List γ → List (Nat × α)
  | _, [] => []
  | pos, x :: xs => (pos, item x) :: layout encode item (pos + (encode x).length) xs

variable {front : List β → Front α ε} {encode : γ → List β} {item : γ → α} {ok : γ → Prop}

@[simp] theorem length_layout (pos : Nat) (xs : List γ) :
    (layout encode item pos xs).length = xs.length := by
  induction xs generalizing pos with
  | nil => rfl
  | cons x xs ih => simp [layout, ih]

theorem layout_append (pos : Nat) (xs ys : List γ) :
    layout encode item pos (xs ++ ys) =
      layout encode item pos xs ++
        layout encode item (pos + (xs.flatMap encode).length) ys := by
  induction xs generalizing pos with
  | nil => simp [layout]
  | cons x xs ih => simp [layout, ih, Nat.add_assoc]

/-- The beginning of a frame that a cut may leave behind. -/
def Torn (encode : γ → List β) (ok : γ → Prop) (tail : List β) : Prop :=
  tail = [] ∨ ∃ x rest, ok x ∧ encode x = tail ++ rest ∧ rest ≠ []

/-- A scan of frames followed by the beginning of another finds the frames and stops there. -/
theorem Reads.scan_append (h : Reads front encode item ok) (xs : List γ) (hok : ∀ x ∈ xs, ok x)
    {tail : List β} (htail : Torn encode ok tail) :
    ∀ {fuel : Nat} (pos : Nat), (xs.flatMap encode ++ tail).length ≤ fuel →
      scan front fuel pos (xs.flatMap encode ++ tail) =
        .ok (layout encode item pos xs, pos + (xs.flatMap encode).length) := by
  induction xs with
  | nil =>
    intro fuel pos hfuel
    show scan front fuel pos tail = .ok ([], pos)
    cases htail' : tail with
    | nil => cases fuel <;> rfl
    | cons b bs =>
      obtain ⟨fuel, rfl⟩ : ∃ n, fuel = n + 1 :=
        Nat.exists_eq_succ_of_ne_zero (by rw [htail'] at hfuel; simp at hfuel; omega)
      obtain hnil | ⟨x, rest, hx, heq, hrest⟩ := htail
      · rw [htail'] at hnil
        cases hnil
      · have hfront : front tail = .torn := h.torn x hx tail rest heq hrest (by simp [htail'])
        rw [htail'] at hfront
        simp only [scan, hfront]
  | cons x xs ih =>
    intro fuel pos hfuel
    have hx := hok x List.mem_cons_self
    have hpos := List.length_pos_of_ne_nil (h.ne_nil x hx)
    have hsplit : (x :: xs).flatMap encode ++ tail =
        encode x ++ (xs.flatMap encode ++ tail) := by simp
    rw [hsplit] at hfuel ⊢
    obtain ⟨fuel, rfl⟩ : ∃ n, fuel = n + 1 :=
      Nat.exists_eq_succ_of_ne_zero (by rw [List.length_append] at hfuel; omega)
    have hfront := h.frame x hx (xs.flatMap encode ++ tail)
    have hrest := ih (fun y hy => hok y (List.mem_cons_of_mem _ hy)) (pos + (encode x).length)
      (show (xs.flatMap encode ++ tail).length ≤ fuel by
        rw [List.length_append] at hfuel
        omega)
    have hdrop : (encode x ++ (xs.flatMap encode ++ tail)).drop (encode x).length =
        xs.flatMap encode ++ tail := List.drop_left
    obtain ⟨b, bs, hcons⟩ := List.exists_cons_of_ne_nil
      (show encode x ++ (xs.flatMap encode ++ tail) ≠ [] by simp [h.ne_nil x hx])
    rw [hcons] at hfront hdrop ⊢
    rw [scan, hfront]
    simp only [hdrop, hrest]
    simp [layout, Nat.add_assoc]

theorem layout_start_le {pos : Nat} {xs : List γ} {f : Nat × α}
    (hf : f ∈ layout encode item pos xs) : pos ≤ f.1 ∧ ∃ x ∈ xs, f.2 = item x := by
  induction xs generalizing pos with
  | nil => cases hf
  | cons x xs ih =>
    rcases List.mem_cons.mp hf with rfl | hf
    · exact ⟨le_rfl, x, List.mem_cons_self, rfl⟩
    · obtain ⟨hle, y, hy, heq⟩ := ih hf
      exact ⟨(Nat.le_add_right _ _).trans hle, y, List.mem_cons_of_mem _ hy, heq⟩

section Cut

variable {stop : Nat × α → Nat}

/-- Wherever written frames are cut, the frames that end at or before the cut are left and the
beginning of the next. -/
theorem exists_cut_layout (hstop : ∀ p x, stop (p, item x) = p + (encode x).length) (xs : List γ)
    (hok : ∀ x ∈ xs, ok x) (pos c : Nat) :
    ∃ k tail, (xs.flatMap encode).take c = (xs.take k).flatMap encode ++ tail ∧
      Torn encode ok tail ∧
      (layout encode item pos xs).filter (fun f => decide (stop f ≤ pos + c)) =
        layout encode item pos (xs.take k) := by
  induction xs generalizing pos c with
  | nil => exact ⟨0, [], by simp, Or.inl rfl, rfl⟩
  | cons x xs ih =>
    by_cases hc : c < (encode x).length
    · refine ⟨0, (encode x).take c, ?_, Or.inr ⟨x, (encode x).drop c, hok x List.mem_cons_self,
        (List.take_append_drop c _).symm, ?_⟩, ?_⟩
      · simp [List.take_append_of_le_length (Nat.le_of_lt hc)]
      · simpa using hc
      · -- Every frame ends at or after the end of the first, which is behind the cut.
        refine List.filter_eq_nil_iff.mpr fun f hf => ?_
        rcases List.mem_cons.mp hf with rfl | hf
        · simp only [hstop, decide_eq_true_eq]
          omega
        · obtain ⟨hle, y, -, heq⟩ := layout_start_le hf
          have hend := hstop f.1 y
          rw [← heq] at hend
          change stop f = _ at hend
          rw [decide_eq_true_eq]
          omega
    · obtain ⟨k, tail, hcut, htorn, hleft⟩ :=
        ih (fun y hy => hok y (List.mem_cons_of_mem _ hy)) (pos + (encode x).length)
          (c - (encode x).length)
      have hpos : pos + (encode x).length + (c - (encode x).length) = pos + c := by omega
      rw [hpos] at hleft
      refine ⟨k + 1, tail, ?_, htorn, ?_⟩
      · rw [List.flatMap_cons, List.take_append, List.take_of_length_le (not_lt.mp hc), hcut]
        simp
      · rw [layout, List.filter_cons_of_pos (by rw [decide_eq_true_eq, hstop]; omega), hleft]
        rfl

/-- The end of the last frame. -/
theorem layout_stop (hstop : ∀ p x, stop (p, item x) = p + (encode x).length) (pos : Nat)
    (xs : List γ) :
    (layout encode item pos xs).getLast?.elim pos stop = pos + (xs.flatMap encode).length := by
  induction xs using List.reverseRecOn with
  | nil => rfl
  | append_singleton xs x _ =>
    rw [layout_append, layout, layout, List.getLast?_concat, Option.elim_some, hstop]
    simp [Nat.add_assoc]

end Cut

/-- Wherever written frames are cut, some whole frames are left and the beginning of the next. -/
theorem exists_cut (encode : γ → List β) (xs : List γ) (hok : ∀ x ∈ xs, ok x) (c : Nat) :
    ∃ k tail, (xs.flatMap encode).take c = (xs.take k).flatMap encode ++ tail ∧
      Torn encode ok tail := by
  let item : γ → Nat := fun x => (encode x).length
  let stop : Nat × Nat → Nat := fun f => f.1 + f.2
  have hstop : ∀ p x, stop (p, item x) = p + (encode x).length := fun _ _ => rfl
  obtain ⟨k, tail, hcut, htorn, -⟩ := exists_cut_layout hstop xs hok 0 c
  exact ⟨k, tail, hcut, htorn⟩

/-! ## Any input -/

/-- A reader that finds a frame without looking at what follows it. -/
structure Local (front : List β → Front α ε) : Prop where
  bounds : ∀ {input item n}, front input = .frame item n → 0 < n ∧ n ≤ input.length
  take : ∀ {input item n}, front input = .frame item n → ∀ {m}, n ≤ m →
    front (input.take m) = .frame item n

theorem scan_nil (fuel pos : Nat) : scan front fuel pos [] = .ok ([], pos) := by
  cases fuel <;> rfl

/-- The part of any input that a scan takes as complete scans the same by itself. -/
theorem Local.scan_take (h : Local front) {fuel pos complete : Nat} {input : List β}
    {frames : List (Nat × α)} (hscan : scan front fuel pos input = .ok (frames, complete)) :
    pos ≤ complete ∧ complete ≤ pos + input.length ∧ ∀ fuel', complete - pos ≤ fuel' →
      scan front fuel' pos (input.take (complete - pos)) = .ok (frames, complete) := by
  -- Where the scan stops at once, nothing is complete.
  have hstop : ∀ {pos : Nat} {input : List β}, pos ≤ pos ∧ pos ≤ pos + input.length ∧ ∀ fuel',
      pos - pos ≤ fuel' → scan front fuel' pos (input.take (pos - pos)) = .ok ([], pos) := by
    intro pos input
    refine ⟨le_rfl, Nat.le_add_right _ _, fun fuel' _ => ?_⟩
    rw [Nat.sub_self, List.take_zero]
    exact scan_nil fuel' pos
  induction fuel generalizing pos input frames with
  | zero =>
    cases hscan
    exact hstop
  | succ fuel ih =>
    cases input with
    | nil =>
      cases hscan
      exact hstop
    | cons b input =>
      rw [scan] at hscan
      split at hscan
      · cases hscan
        exact hstop
      · cases hscan
      · next item n hfront =>
        split at hscan
        · next frames' complete' hrest =>
          cases hscan
          obtain ⟨hpos, hn⟩ := h.bounds hfront
          obtain ⟨hle, hge, hsame⟩ := ih hrest
          rw [List.length_drop] at hge
          refine ⟨by omega, by omega, fun fuel' hfuel' => ?_⟩
          have htake := h.take hfront (show n ≤ complete - pos by omega)
          obtain ⟨m, hm⟩ : ∃ m, complete - pos = m + 1 :=
            Nat.exists_eq_succ_of_ne_zero (by omega)
          obtain ⟨fuel', rfl⟩ : ∃ f, fuel' = f + 1 :=
            Nat.exists_eq_succ_of_ne_zero (by omega)
          have hdrop : ((b :: input).take (complete - pos)).drop n =
              ((b :: input).drop n).take (complete - (pos + n)) := by
            rw [List.drop_take, Nat.sub_sub]
          rw [hm, List.take_succ_cons] at htake hdrop ⊢
          rw [scan, htake]
          simp only [hdrop, hsame fuel' (by omega)]
        · cases hscan

end Framing
