import Mathlib.Data.List.Infix
import Shell.Lib.Separated

/-! # Writing separated lists down

`joined` writes pieces one behind the other, each with the separator its mark stands
for. Cutting the result gives the pieces and marks back, wherever no piece has a
separator in it and every mark but the last one is that of a separator. -/
namespace Shell.Lib.Separated

variable {α β : Type} {p : α → Bool} {op : α → β} {last : β} {sep : β → List α}

def joined (sep : β → List α) (l : List (List α × β)) : List α := l.flatMap fun e => e.1 ++ sep e.2

/-- A mark is written as one separator, which is read as the mark. -/
def Writes (p : α → Bool) (op : α → β) (sep : β → List α) (b : β) : Prop :=
  ∃ s, sep b = [s] ∧ p s = true ∧ op s = b

/-- A piece without separators, and a mark that is written. -/
def Marked (p : α → Bool) (op : α → β) (sep : β → List α) (e : List α × β) : Prop :=
  (∀ x ∈ e.1, p x = false) ∧ Writes p op sep e.2

theorem joined_cons (e : List α × β) (l : List (List α × β)) :
    joined sep (e :: l) = e.1 ++ sep e.2 ++ joined sep l := List.flatMap_cons

theorem separated_joined {init : List (List α × β)} {c : List α}
    (hinit : ∀ e ∈ init, Marked p op sep e) (hc : ∀ x ∈ c, p x = false) :
    separated p op last (joined sep init ++ c) = init ++ [(c, last)] := by
  induction init with
  | nil => exact separated_single hc
  | cons e init ih =>
    obtain ⟨⟨hpiece, s, hsep, hs, hop⟩, hinit⟩ := List.forall_mem_cons.mp hinit
    rw [joined_cons, hsep, List.append_assoc, List.append_assoc, List.singleton_append,
      separated_append_cons hpiece hs, hop, ih hinit]
    rfl

/-- The last piece is left open; only the first of all may be empty. -/
theorem closed_joined_open {init : List (List α × β)} {c : List α} {close : Bool}
    (hinit : ∀ e ∈ init, Marked p op sep e) (hc : ∀ x ∈ c, p x = false)
    (hne : init = [] ∨ c ≠ []) :
    closed p op last close (joined sep init ++ c) = init ++ [(c, last)] := by
  induction init with
  | nil => exact closed_single hc
  | cons e init ih =>
    obtain ⟨⟨hpiece, s, hsep, hs, hop⟩, hinit⟩ := List.forall_mem_cons.mp hinit
    have hc : c ≠ [] := hne.resolve_left (List.cons_ne_nil _ _)
    have hmore : (close && (joined sep init ++ c).isEmpty) = false := by
      rw [List.isEmpty_eq_false_iff.mpr (List.append_ne_nil_of_right_ne_nil _ hc), Bool.and_false]
    rw [joined_cons, hsep, List.append_assoc, List.append_assoc, List.singleton_append,
      closed_append_cons hpiece hs, hop, hmore, if_neg Bool.false_ne_true, ih hinit (.inr hc)]
    rfl

/-- The last piece is closed by its separator. -/
theorem closed_joined {l : List (List α × β)} (hne : l ≠ [])
    (hl : ∀ e ∈ l, Marked p op sep e) : closed p op last true (joined sep l) = l := by
  induction l with
  | nil => exact absurd rfl hne
  | cons e l ih =>
    obtain ⟨⟨hpiece, s, hsep, hs, hop⟩, hl⟩ := List.forall_mem_cons.mp hl
    rw [joined_cons, hsep, List.append_assoc, List.singleton_append,
      closed_append_cons hpiece hs, hop, Bool.true_and]
    cases l with
    | nil => rfl
    | cons e' l =>
      obtain ⟨⟨_, s', hsep', _, _⟩, _⟩ := List.forall_mem_cons.mp hl
      have hmore : (joined sep (e' :: l)).isEmpty = false := by
        rw [joined_cons, hsep']
        simp
      rw [hmore, if_neg Bool.false_ne_true, ih (List.cons_ne_nil _ _) hl]

/-- Behind a separator the pieces are those of the rest. -/
theorem closed_append {l r : List α} {s : α} (hs : p s = true) (hr : r ≠ []) :
    closed p op last true (l ++ s :: r) =
      closed p op last true (l ++ [s]) ++ closed p op last true r := by
  have hmore : (true && r.isEmpty) = false := by
    rw [Bool.true_and, List.isEmpty_eq_false_iff.mpr hr]
  induction l using pieces_induction (p := p) with
  | single c hc =>
    rw [closed_append_cons hc hs, closed_append_cons hc hs, hmore, if_neg Bool.false_ne_true]
    rfl
  | cons c s' l hc hs' ih =>
    have hopen : ∀ r, (true && (l ++ s :: r).isEmpty) = false := by
      intro r
      cases l <;> rfl
    rw [List.append_assoc, List.append_assoc, List.cons_append, List.cons_append,
      closed_append_cons hc hs', closed_append_cons hc hs', hopen, hopen,
      if_neg Bool.false_ne_true, if_neg Bool.false_ne_true, ih]
    rfl

/-! ## What the pieces are -/

/-- What cutting at a separator keeps holds of every piece. -/
theorem forall_separated {P : List α → Prop}
    (hcut : ∀ c s l, P (c ++ s :: l) → p s = true → P c ∧ P l) {l : List α} (hl : P l) :
    ∀ e ∈ separated p op last l, P e.1 ∧ ∀ x ∈ e.1, p x = false := by
  induction l using pieces_induction (p := p) with
  | single c hc =>
    rw [separated_single hc]
    exact List.forall_mem_singleton.mpr ⟨hl, hc⟩
  | cons c s l hc hs ih =>
    obtain ⟨hleft, hright⟩ := hcut c s l hl hs
    rw [separated_append_cons hc hs]
    exact List.forall_mem_cons.mpr ⟨⟨hleft, hc⟩, ih hright⟩

theorem length_separated (l : List α) :
    (separated p op last l).length = (l.filter p).length + 1 := by
  induction l using pieces_induction (p := p) with
  | single c hc =>
    rw [separated_single hc, List.filter_eq_nil_iff.mpr (by simpa using hc)]
    rfl
  | cons c s l hc hs ih =>
    have hf : c.filter p = [] := List.filter_eq_nil_iff.mpr (by simpa using hc)
    rw [separated_append_cons hc hs, List.length_cons, ih, List.filter_append, hf,
      List.filter_cons_of_pos hs]
    rfl

/-- One piece alone has no separator in it. -/
theorem not_sep_of_length {l : List α} (h : (separated p op last l).length = 1) :
    ∀ x ∈ l, p x = false := by
  rw [length_separated, Nat.add_eq_right, List.length_eq_zero_iff, List.filter_eq_nil_iff] at h
  simpa using h

theorem mem_closed {close : Bool} {l : List α} {e : List α × β}
    (h : e ∈ closed p op last close l) : e ∈ separated p op last l := by
  unfold closed at h
  split at h
  · exact List.mem_of_mem_dropLast h
  · exact h

/-- The last piece has the last mark, and every other one that of a separator. -/
theorem separated_marks (l : List α) :
    ∃ init c, separated p op last l = init ++ [(c, last)] ∧
      ∀ e ∈ init, ∃ s ∈ l, p s = true ∧ op s = e.2 := by
  induction l using pieces_induction (p := p) with
  | single c hc => exact ⟨[], c, separated_single hc, List.forall_mem_nil _⟩
  | cons c s l hc hs ih =>
    obtain ⟨init, d, hl, hmarks⟩ := ih
    refine ⟨(c, op s) :: init, d, by rw [separated_append_cons hc hs, hl]; rfl, ?_⟩
    refine List.forall_mem_cons.mpr ⟨⟨s, by simp, hs, rfl⟩, fun e he => ?_⟩
    obtain ⟨s', hmem, hs'⟩ := hmarks e he
    exact ⟨s', by simp [hmem], hs'⟩

/-- Either the last piece is open, and then something stands in it or it is everything, or
every piece is closed by a separator. -/
theorem closed_marks (l : List α) :
    (∃ init c, closed p op last true l = init ++ [(c, last)] ∧
      (∀ e ∈ init, ∃ s ∈ l, p s = true ∧ op s = e.2) ∧ (init = [] ∧ c = l ∨ c ≠ [])) ∨
    closed p op last true l ≠ [] ∧
      ∀ e ∈ closed p op last true l, ∃ s ∈ l, p s = true ∧ op s = e.2 := by
  induction l using pieces_induction (p := p) with
  | single c hc => exact .inl ⟨[], c, closed_single hc, List.forall_mem_nil _, .inl ⟨rfl, rfl⟩⟩
  | cons c s l hc hs ih =>
    have hmem : ∀ s' ∈ l, s' ∈ c ++ s :: l := fun s' h => by simp [h]
    rw [closed_append_cons hc hs, Bool.true_and]
    cases l with
    | nil => exact .inr ⟨List.cons_ne_nil _ _, List.forall_mem_singleton.mpr ⟨s, by simp, hs, rfl⟩⟩
    | cons x l =>
      rw [List.isEmpty_cons, if_neg Bool.false_ne_true]
      rcases ih with ⟨init, d, hl, hmarks, hne⟩ | ⟨-, hmarks⟩
      · refine .inl ⟨(c, op s) :: init, d, by rw [hl]; rfl, ?_, .inr ?_⟩
        · refine List.forall_mem_cons.mpr ⟨⟨s, by simp, hs, rfl⟩, fun e he => ?_⟩
          obtain ⟨s', h, hs'⟩ := hmarks e he
          exact ⟨s', hmem s' h, hs'⟩
        · rcases hne with ⟨-, rfl⟩ | hne
          · exact List.cons_ne_nil _ _
          · exact hne
      · refine .inr ⟨List.cons_ne_nil _ _, List.forall_mem_cons.mpr ⟨⟨s, by simp, hs, rfl⟩, ?_⟩⟩
        intro e he
        obtain ⟨s', h, hs'⟩ := hmarks e he
        exact ⟨s', hmem s' h, hs'⟩

end Shell.Lib.Separated
