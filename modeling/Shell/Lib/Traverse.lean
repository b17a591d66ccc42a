import Mathlib.Logic.Basic
import Mathlib.Data.List.Basic

/-! # Traversals with a state

`mapState` runs a partial, state-passing function over a list. `Traverses`
says that a function on a container does the same to the parts of the container,
in order, and keeps everything else (its shape); it is closed under lists and
under the fields of records, so that a pass over a nested structure is one pass
over the list of its parts. -/
namespace Shell.Lib.Traverse

variable {α β κ ι A B σ : Type}

def mapState (f : α → σ → Option (β × σ)) : List α → σ → Option (List β × σ)
  | [], s => some ([], s)
  | a :: l, s => (f a s).bind fun r => (mapState f l r.2).map fun t => (r.1 :: t.1, t.2)

theorem mapState_cons_eq_some {f : α → σ → Option (β × σ)} {a : α} {l : List α} {s s' : σ}
    {bs : List β} : mapState f (a :: l) s = some (bs, s') ↔
      ∃ b t rest, f a s = some (b, t) ∧ mapState f l t = some (rest, s') ∧ bs = b :: rest := by
  simp only [mapState, Option.bind_eq_some_iff, Option.map_eq_some_iff, Prod.exists,
    Prod.mk.injEq]
  constructor
  · intro hcond
    obtain ⟨b, t, hb, rest, t', hrest, rfl, rfl⟩ := hcond
    exact ⟨b, t, rest, hb, hrest, rfl⟩
  · intro hcond
    obtain ⟨b, t, rest, hb, hrest, rfl⟩ := hcond
    exact ⟨b, t, hb, rest, s', hrest, rfl, rfl⟩

theorem mapState_append_eq_some {f : α → σ → Option (β × σ)} {l l' : List α} {s s' : σ}
    {bs : List β} : mapState f (l ++ l') s = some (bs, s') ↔
      ∃ b t b', mapState f l s = some (b, t) ∧ mapState f l' t = some (b', s') ∧
        bs = b ++ b' := by
  induction l generalizing s bs with
  | nil =>
    constructor
    · exact fun h => ⟨[], s, bs, rfl, h, rfl⟩
    · intro hcond
      obtain ⟨b, t, b', hb, h, rfl⟩ := hcond
      cases hb
      exact h
  | cons a l ih =>
    rw [List.cons_append, mapState_cons_eq_some]
    constructor
    · intro hcond
      obtain ⟨b, t, rest, hb, hrest, rfl⟩ := hcond
      obtain ⟨b1, t1, b2, h1, h2, rfl⟩ := ih.mp hrest
      exact ⟨b :: b1, t1, b2, mapState_cons_eq_some.mpr ⟨b, t, b1, hb, h1, rfl⟩, h2, rfl⟩
    · intro hcond
      obtain ⟨b, t, b', hb, h, rfl⟩ := hcond
      obtain ⟨b1, t1, rest, hb1, hrest, rfl⟩ := mapState_cons_eq_some.mp hb
      exact ⟨b1, t1, rest ++ b', hb1, ih.mpr ⟨rest, t, b', hrest, h, rfl⟩, rfl⟩

theorem mapState_length {f : α → σ → Option (β × σ)} {l : List α} {s s' : σ} {bs : List β}
    (h : mapState f l s = some (bs, s')) : bs.length = l.length := by
  induction l generalizing s bs with
  | nil => cases h; rfl
  | cons a l ih =>
    obtain ⟨b, t, rest, -, hrest, rfl⟩ := mapState_cons_eq_some.mp h
    rw [List.length_cons, List.length_cons, ih hrest]

/-- What the function does to one element, over the list. -/
theorem mapState_forall₂ {f : α → σ → Option (β × σ)} {R : α → β → Prop} {l : List α}
    (hf : ∀ a ∈ l, ∀ s b t, f a s = some (b, t) → R a b) {s s' : σ} {bs : List β}
    (h : mapState f l s = some (bs, s')) : List.Forall₂ R l bs := by
  induction l generalizing s bs with
  | nil => cases h; exact .nil
  | cons a l ih =>
    obtain ⟨b, t, rest, hb, hrest, rfl⟩ := mapState_cons_eq_some.mp h
    exact .cons (hf a List.mem_cons_self s b t hb)
      (ih (fun a' ha' => hf a' (List.mem_cons_of_mem _ ha')) hrest)

/-- A function that leaves the state alone maps over the list. -/
theorem mapState_quiet {f : α → σ → Option (β × σ)} {g : A → α} {e : A → β} {l : List A} {s : σ}
    (h : ∀ a ∈ l, f (g a) s = some (e a, s)) : mapState f (l.map g) s = some (l.map e, s) := by
  induction l with
  | nil => rfl
  | cons a l ih =>
    exact mapState_cons_eq_some.mpr
      ⟨e a, s, l.map e, h a (by simp), ih fun b hb => h b (by simp [hb]), rfl⟩

/-- What `see` picks out of the states in front of the elements, up to the first one
that fails. -/
def mapSeen (see : α → σ → List κ) (f : α → σ → Option (β × σ)) : List α → σ → List κ
  | [], _ => []
  | a :: l, s => see a s ++ match f a s with
    | some (_, t) => mapSeen see f l t
    | none => []

theorem mapState_eq_of_seen {see see' : α → σ → List κ} {f f' : α → σ → Option (β × σ)}
    {P : κ → Prop} {l : List α}
    (step : ∀ a s, (∀ x ∈ see a s, P x) → f a s = f' a s ∧ see a s = see' a s) {s : σ}
    (hs : ∀ x ∈ mapSeen see f l s, P x) :
    mapState f l s = mapState f' l s ∧ mapSeen see f l s = mapSeen see' f' l s := by
  induction l generalizing s with
  | nil => exact ⟨rfl, rfl⟩
  | cons a l ih =>
    obtain ⟨heq, hsee⟩ := step a s fun x hx => hs x (List.mem_append_left _ hx)
    rw [mapState, mapState, mapSeen, mapSeen, ← heq, ← hsee]
    cases hf : f a s with
    | none => exact ⟨rfl, rfl⟩
    | some r =>
      obtain ⟨hmap, hseen⟩ :=
        ih (s := r.2) fun x hx => hs x (List.mem_append_right _ (by rwa [hf]))
      simp only [Option.bind_some, hmap, hseen, and_self]

theorem forall_mapSeen {see : α → σ → List κ} {f : α → σ → Option (β × σ)} {P : κ → Prop}
    {l : List α} (h : ∀ a ∈ l, ∀ s, ∀ x ∈ see a s, P x) (s : σ) :
    ∀ x ∈ mapSeen see f l s, P x := by
  induction l generalizing s with
  | nil => exact fun x hx => absurd hx List.not_mem_nil
  | cons a l ih =>
    rw [mapSeen, List.forall_mem_append]
    refine ⟨h a List.mem_cons_self s, ?_⟩
    cases f a s with
    | none => exact fun x hx => absurd hx List.not_mem_nil
    | some r => exact ih (fun b hb => h b (List.mem_cons_of_mem _ hb)) r.2

/-- `g` does to the parts of a container what `f` does, and keeps the shape. -/
structure Traverses (f : α → σ → Option (α × σ)) (parts : A → List α) (shape : A → κ)
    (g : A → σ → Option (A × σ)) : Prop where
  length : ∀ {a a'}, shape a = shape a' → (parts a).length = (parts a').length
  iff : ∀ {a s a' s'}, g a s = some (a', s') ↔
    shape a = shape a' ∧ mapState f (parts a) s = some (parts a', s')

/-- A list of parts. -/
theorem Traverses.parts (f : α → σ → Option (α × σ)) :
    Traverses f (fun l => l) List.length (mapState f) where
  length := fun hl => hl
  iff := by
    intro l s l' s'
    constructor
    · exact fun h => ⟨(mapState_length h).symm, h⟩
    · exact fun h => h.2

theorem Traverses.list {f : α → σ → Option (α × σ)} {parts : A → List α} {shape : A → κ}
    {g : A → σ → Option (A × σ)} (h : Traverses f parts shape g) :
    Traverses f (List.flatMap parts) (List.map shape) (mapState g) where
  length := by
    intro l l' hl
    induction l generalizing l' with
    | nil =>
      cases l' with
      | nil => rfl
      | cons a' l' => cases hl
    | cons a l ih =>
      cases l' with
      | nil => cases hl
      | cons a' l' =>
        obtain ⟨ha, hl⟩ := List.cons.inj hl
        rw [List.flatMap_cons, List.flatMap_cons, List.length_append, List.length_append,
          h.length ha, ih hl]
  iff := by
    intro l s l' s'
    induction l generalizing l' s with
    | nil =>
      constructor
      · intro hr
        cases hr
        exact ⟨rfl, rfl⟩
      · intro hcond
        obtain ⟨hl, hr⟩ := hcond
        obtain rfl : l' = [] := List.map_eq_nil_iff.mp hl.symm
        cases hr
        rfl
    | cons a l ih =>
      rw [mapState_cons_eq_some, List.flatMap_cons, mapState_append_eq_some]
      constructor
      · intro hcond
        obtain ⟨a', t, rest, ha, hrest, rfl⟩ := hcond
        obtain ⟨hshape, hparts⟩ := h.iff.mp ha
        obtain ⟨hshapes, hrests⟩ := ih.mp hrest
        refine ⟨by rw [List.map_cons, List.map_cons, hshape, hshapes], ?_⟩
        exact ⟨parts a', t, rest.flatMap parts, hparts, hrests, List.flatMap_cons⟩
      · intro hcond
        obtain ⟨hl, b, t, b', hb, hb', heq⟩ := hcond
        cases l' with
        | nil => cases hl
        | cons a' rest =>
          obtain ⟨hshape, hshapes⟩ := List.cons.inj hl
          -- the shape fixes where the parts of the first container end
          have hlen : b.length = (parts a').length := by rw [mapState_length hb, h.length hshape]
          obtain ⟨rfl, rfl⟩ := List.append_inj (heq.symm.trans List.flatMap_cons) hlen
          exact ⟨a', t, rest, h.iff.mpr ⟨hshape, hb⟩, ih.mpr ⟨hshapes, hb'⟩, rfl⟩

/-- A field of a record; `erase` is what is left of the record without it. -/
theorem Traverses.field {f : α → σ → Option (α × σ)} {parts : B → List α} {shape : B → κ}
    {g : B → σ → Option (B × σ)} (h : Traverses f parts shape g) (get : A → B)
    (put : A → B → A) (erase : A → ι) (hget : ∀ a b, get (put a b) = b)
    (herase : ∀ a b, erase (put a b) = erase a)
    (hput : ∀ a a', erase a = erase a' → a' = put a (get a')) :
    Traverses f (fun a => parts (get a)) (fun a => (erase a, shape (get a)))
      fun a s => (g (get a) s).map fun r => (put a r.1, r.2) where
  length := fun ha => h.length (Prod.mk.inj ha).2
  iff := by
    intro a s a' s'
    simp only [Option.map_eq_some_iff, Prod.exists, Prod.mk.injEq]
    constructor
    · intro hcond
      obtain ⟨b, t, hg, rfl, rfl⟩ := hcond
      obtain ⟨hshape, hparts⟩ := h.iff.mp hg
      rw [hget, herase]
      exact ⟨⟨rfl, hshape⟩, hparts⟩
    · intro hcond
      obtain ⟨⟨herased, hshape⟩, hparts⟩ := hcond
      exact ⟨get a', s', h.iff.mpr ⟨hshape, hparts⟩, (hput a a' herased).symm, rfl⟩

end Shell.Lib.Traverse
