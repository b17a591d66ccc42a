import Mathlib.Computability.Language
import Mathlib.Data.List.Chain
import Shell.Lib.Separated

/-! # Languages of separated items

`sepBy item sep` is one item or more with a separator between two. A list is
`Spaced` when it starts and ends with an operand and no two of its other
letters touch: between its separators there is then always something, and the
pieces it falls into are spaced again. -/
namespace Shell.Lib.SeparatedLanguage
open Computability Shell.Lib.Separated

variable {α : Type} {p : α → Bool} {item : Language α}

/-! ## Items and separators -/

def letter (p : α → Bool) : Language α := {l | ∃ a, p a = true ∧ l = [a]}

def sepBy (item sep : Language α) : Language α := item * (sep * item)∗

theorem mem_letter {a : α} (ha : p a = true) : [a] ∈ letter p := ⟨a, ha, rfl⟩

theorem sepBy_eq (item sep : Language α) :
    sepBy item sep = item + item * (sep * sepBy item sep) := by
  calc sepBy item sep = item * (1 + sep * item * (sep * item)∗) := by
        rw [sepBy, one_add_mul_kstar]
    _ = item + item * (sep * sepBy item sep) := by
        rw [mul_add, mul_one, mul_assoc, sepBy]

theorem mem_sepBy_of_item {sep : Language α} {l : List α} (hl : l ∈ item) : l ∈ sepBy item sep := by
  rw [sepBy_eq]
  exact Or.inl hl

theorem mem_sepBy_cons {c l : List α} {s : α} (hc : c ∈ item) (hs : p s = true)
    (hl : l ∈ sepBy item (letter p)) : c ++ s :: l ∈ sepBy item (letter p) := by
  rw [sepBy_eq]
  exact Or.inr (Language.append_mem_mul hc (Language.append_mem_mul (mem_letter hs) hl))

theorem sepBy_induction {motive : List α → Prop} (single : ∀ c ∈ item, motive c)
    (cons : ∀ c s l, c ∈ item → p s = true → motive l → motive (c ++ s :: l)) {l : List α}
    (hl : l ∈ sepBy item (letter p)) : motive l := by
  obtain ⟨c, hc, rest, hrest, rfl⟩ := Language.mem_mul.mp hl
  obtain ⟨groups, rfl, hgroups⟩ := Language.mem_kstar.mp hrest
  clear hl hrest
  induction groups generalizing c with
  | nil =>
    rw [List.flatten_nil, List.append_nil]
    exact single c hc
  | cons g groups ih =>
    obtain ⟨sep, ⟨s, hs, rfl⟩, d, hd, rfl⟩ := Language.mem_mul.mp (hgroups g (by simp))
    exact cons c s _ hc hs (ih d hd fun y hy => hgroups y (by simp [hy]))

theorem forall_mem_of_mem_sepBy {q : α → Prop} (hitem : ∀ c ∈ item, ∀ a ∈ c, q a)
    (hp : ∀ a, p a = true → q a) {l : List α} (hl : l ∈ sepBy item (letter p)) : ∀ a ∈ l, q a := by
  refine sepBy_induction (motive := fun l => ∀ a ∈ l, q a) hitem ?_ hl
  intro c s l hc hs hl a ha
  rcases List.mem_append.mp ha with ha | ha
  · exact hitem c hc a ha
  · rcases List.mem_cons.mp ha with rfl | ha
    · exact hp _ hs
    · exact hl a ha

/-- A list whose pieces are items is a list of separated items. -/
theorem mem_sepBy_of_pieces {l : List α} (h : ∀ c ∈ l.splitOnP p, c ∈ item) :
    l ∈ sepBy item (letter p) := by
  induction l using pieces_induction (p := p) with
  | single c hc =>
    rw [List.splitOnP_eq_singleton hc] at h
    exact mem_sepBy_of_item (h c (by simp))
  | cons c s l hc hs ih =>
    rw [List.splitOnP_append_cons_of_forall_mem hc s hs] at h
    exact mem_sepBy_cons (h c (by simp)) hs (ih fun d hd => h d (by simp [hd]))

/-! ## Operands between operators -/

structure Spaced (operand : α → Bool) (l : List α) : Prop where
  ne_nil : l ≠ []
  first : ∀ a ∈ l.head?, operand a = true
  last : ∀ a ∈ l.getLast?, operand a = true
  apart : l.IsChain fun a b => operand a = true ∨ operand b = true

section Spaced
variable {operand : α → Bool} {l m : List α} {s : α}

theorem Spaced.of_forall (hne : l ≠ []) (h : ∀ a ∈ l, operand a = true) : Spaced operand l where
  ne_nil := hne
  first := fun a ha => h a (List.mem_of_mem_head? ha)
  last := fun a ha => h a (List.mem_of_getLast? ha)
  apart := List.isChain_iff_forall_rel_of_append_cons_cons.mpr
    fun a _ _ _ hl => .inl (h a (by simp [hl]))

theorem Spaced.append_cons (hl : Spaced operand l) (s : α) (hm : Spaced operand m) :
    Spaced operand (l ++ s :: m) where
  ne_nil := by simp
  first := fun a ha => hl.first a (by
    rwa [List.head?_append_of_ne_nil _ hl.ne_nil] at ha)
  last := fun a ha => hm.last a (by
    rwa [List.getLast?_append_of_ne_nil _ (List.cons_ne_nil s m),
      List.getLast?_cons_of_ne_nil hm.ne_nil] at ha)
  apart := List.isChain_append.mpr ⟨hl.apart,
    List.isChain_cons.mpr ⟨fun b hb => .inr (hm.first b hb), hm.apart⟩,
    fun a ha _ _ => .inl (hl.last a ha)⟩

/-- An operator leaves a spaced list on either side of it. -/
theorem Spaced.cut (h : Spaced operand (l ++ s :: m)) (hs : operand s = false) :
    Spaced operand l ∧ Spaced operand m := by
  obtain ⟨hleft, hright, hjoin⟩ := List.isChain_append.mp h.apart
  obtain ⟨hbehind, hm⟩ := List.isChain_cons.mp hright
  have hl : l ≠ [] := by
    rintro rfl
    have := h.first s rfl
    rw [hs] at this
    cases this
  have hmne : m ≠ [] := by
    rintro rfl
    have := h.last s (by simp)
    rw [hs] at this
    cases this
  refine ⟨⟨hl, fun a ha => ?_, fun a ha => ?_, hleft⟩, ⟨hmne, fun b hb => ?_, fun a ha => ?_, hm⟩⟩
  · exact h.first a (by rwa [List.head?_append_of_ne_nil _ hl])
  · exact (hjoin a ha s rfl).resolve_right (by simp [hs])
  · exact (hbehind b hb).resolve_left (by simp [hs])
  · refine h.last a ?_
    rwa [List.getLast?_append_of_ne_nil _ (List.cons_ne_nil s m),
      List.getLast?_cons_of_ne_nil hmne]

theorem Spaced.pieces (hp : ∀ s, p s = true → operand s = false) (h : Spaced operand l) :
    ∀ c ∈ l.splitOnP p, Spaced operand c := by
  induction l using pieces_induction (p := p) with
  | single c hc =>
    rw [List.splitOnP_eq_singleton hc]
    exact fun d hd => List.mem_singleton.mp hd ▸ h
  | cons c s l hc hs ih =>
    obtain ⟨hleft, hright⟩ := h.cut (hp s hs)
    rw [List.splitOnP_append_cons_of_forall_mem hc s hs]
    intro d hd
    rcases List.mem_cons.mp hd with rfl | hd
    · exact hleft
    · exact ih hright d hd

theorem spaced_of_mem_sepBy (hitem : ∀ c ∈ item, Spaced operand c)
    (h : l ∈ sepBy item (letter p)) : Spaced operand l :=
  sepBy_induction hitem (fun _ s _ hc _ hl => (hitem _ hc).append_cons s hl) h

end Spaced

end Shell.Lib.SeparatedLanguage
