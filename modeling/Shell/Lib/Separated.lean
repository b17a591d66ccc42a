import Mathlib.Data.List.TakeWhile
import Mathlib.Data.Nat.Basic

/-! # Lists with separators

`separated p op last l` cuts `l` at the elements that satisfy `p` and puts
beside each piece what its separator stands for, `last` beside the final piece.
`closed` is the variant in which a separator may also close the list: a final
separator opens no empty piece. -/
namespace Shell.Lib.Separated

variable {α β : Type} {p : α → Bool} {op : α → β} {last : β}

def separated (p : α → Bool) (op : α → β) (last : β) (l : List α) : List (List α × β) :=
  (l.splitOnP p).zip ((l.filter p).map op ++ [last])

def closed (p : α → Bool) (op : α → β) (last : β) (close : Bool) (l : List α) :
    List (List α × β) :=
  if close && l.getLast?.any p then (separated p op last l).dropLast else separated p op last l

theorem separated_single {c : List α} (hc : ∀ x ∈ c, p x = false) :
    separated p op last c = [(c, last)] := by
  have hf : c.filter p = [] := List.filter_eq_nil_iff.mpr (by simpa using hc)
  rw [separated, List.splitOnP_eq_singleton hc, hf]
  rfl

theorem separated_append_cons {c : List α} {s : α} (hc : ∀ x ∈ c, p x = false) (hs : p s = true)
    (l : List α) :
    separated p op last (c ++ s :: l) = (c, op s) :: separated p op last l := by
  have hf : c.filter p = [] := List.filter_eq_nil_iff.mpr (by simpa using hc)
  rw [separated, List.splitOnP_append_cons_of_forall_mem hc s hs, List.filter_append, hf,
    List.nil_append, List.filter_cons_of_pos hs]
  rfl

theorem separated_ne_nil (l : List α) : separated p op last l ≠ [] := by
  intro h
  have hlen := congrArg List.length h
  have hsplit : 0 < (l.splitOnP p).length := List.length_pos_iff.mpr (List.splitOnP_ne_nil p l)
  simp only [separated, List.length_zip, List.length_append, List.length_map,
    List.length_singleton, List.length_nil] at hlen
  omega

/-- Every list is one piece, or a piece, a separator and a list. -/
theorem pieces_induction {motive : List α → Prop}
    (single : ∀ c, (∀ x ∈ c, p x = false) → motive c)
    (cons : ∀ c s l, (∀ x ∈ c, p x = false) → p s = true → motive l → motive (c ++ s :: l))
    (l : List α) : motive l := by
  induction hn : l.length using Nat.strong_induction_on generalizing l with
  | _ n ih =>
    have hpiece : ∀ x ∈ l.takeWhile (fun x => !p x), p x = false := fun x hx => by
      simpa using List.mem_takeWhile_imp hx
    have hsplit := List.takeWhile_append_dropWhile (p := fun x => !p x) (l := l)
    cases hd : l.dropWhile (fun x => !p x) with
    | nil =>
      rw [hd, List.append_nil] at hsplit
      exact single l (hsplit ▸ hpiece)
    | cons s rest =>
      have hs : p s = true := by
        have := List.head?_dropWhile_not (fun x => !p x) l
        simpa [hd] using this
      rw [hd] at hsplit
      rw [← hsplit]
      refine cons _ s rest hpiece hs (ih rest.length ?_ rest rfl)
      have := congrArg List.length hsplit
      simp only [List.length_append, List.length_cons] at this
      omega

theorem map_fst_separated (op : α → β) (last : β) (l : List α) :
    (separated p op last l).map Prod.fst = l.splitOnP p := by
  induction l using pieces_induction (p := p) with
  | single c hc => rw [separated_single hc, List.splitOnP_eq_singleton hc]; rfl
  | cons c s l hc hs ih =>
    rw [separated_append_cons hc hs, List.map_cons, ih,
      List.splitOnP_append_cons_of_forall_mem hc s hs]

theorem closed_single {c : List α} {close : Bool} (hc : ∀ x ∈ c, p x = false) :
    closed p op last close c = [(c, last)] := by
  have hlast : c.getLast?.any p = false := by
    cases hl : c.getLast? with
    | none => rfl
    | some x => simpa [hl] using hc x (List.mem_of_getLast? hl)
  rw [closed, hlast, Bool.and_false, if_neg (by decide), separated_single hc]

/-- A closing separator is recorded on the piece it ends and opens no other. -/
theorem closed_append_cons {c : List α} {s : α} {close : Bool} (hc : ∀ x ∈ c, p x = false)
    (hs : p s = true) (l : List α) :
    closed p op last close (c ++ s :: l) =
      (c, op s) :: if close && l.isEmpty then [] else closed p op last close l := by
  cases l with
  | nil =>
    have hlast : (c ++ [s]).getLast?.any p = true := by simpa using hs
    rw [closed, hlast, separated_append_cons hc hs, separated_single (by simp),
      closed_single (by simp)]
    cases close <;> rfl
  | cons x xs =>
    have hlast : (c ++ s :: x :: xs).getLast?.any p = (x :: xs).getLast?.any p := by
      rw [List.append_cons, List.getLast?_append, List.getLast?_eq_some_getLast (by simp)]
      rfl
    rw [closed, hlast, separated_append_cons hc hs, List.isEmpty_cons, Bool.and_false,
      if_neg Bool.false_ne_true, closed]
    split
    · exact List.dropLast_cons_of_ne_nil (separated_ne_nil _)
    · rfl

theorem map_fst_closed_open {l : List α} (hl : ∀ x ∈ l.getLast?, p x = false) (close : Bool) :
    (closed p op last close l).map Prod.fst = l.splitOnP p := by
  have hany : l.getLast?.any p = false := by
    cases h : l.getLast? with
    | none => rfl
    | some x => simpa [h] using hl x h
  rw [closed, hany, Bool.and_false, if_neg Bool.false_ne_true, map_fst_separated]

theorem map_fst_closed_append {s : α} (hs : p s = true) (l : List α) :
    (closed p op last true (l ++ [s])).map Prod.fst = l.splitOnP p := by
  induction l using pieces_induction (p := p) with
  | single c hc =>
    rw [closed_append_cons hc hs, List.splitOnP_eq_singleton hc]
    rfl
  | cons c s' l hc hs' ih =>
    have hne : (true && (l ++ [s]).isEmpty) = false := by cases l <;> rfl
    rw [List.append_assoc, List.cons_append, closed_append_cons hc hs', hne,
      if_neg Bool.false_ne_true, List.map_cons, ih,
      List.splitOnP_append_cons_of_forall_mem hc s' hs']

end Shell.Lib.Separated
