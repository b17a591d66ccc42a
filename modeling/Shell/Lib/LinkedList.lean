import Mathlib.Data.List.Perm.Subperm

/-! # Singly linked lists in memory

A heap is a list of cells, a cell an item and the address of the next one. `Chain`
says which cells hang behind an address; it ends in null, so that its addresses are
distinct and the walk to its last cell is finite. -/
namespace Shell.Lib.LinkedList

variable {α : Type}

structure Cell (α : Type) where
  item : α
  next : Option Nat
deriving DecidableEq, Repr

abbrev Heap (α : Type) := List (Cell α)

/-- A new cell, whose address is `h.length`. -/
def alloc (h : Heap α) (item : α) : Heap α := h ++ [{ item := item, next := none }]

def setNext (h : Heap α) (p : Nat) (next : Option Nat) : Heap α :=
  h.modify p fun c => { c with next := next }

/-- The cells behind an address, with where they are. -/
def Chain (h : Heap α) : Option Nat → List (Nat × α) → Prop
  | head, [] => head = none
  | head, (p, x) :: cells => head = some p ∧ ∃ next, h[p]? = some ⟨x, next⟩ ∧ Chain h next cells

/-- The walk to the last cell; `none` at a bad address, or when the fuel runs out. -/
def lastFrom (h : Heap α) : Nat → Nat → Option Nat
  | 0, _ => none
  | fuel + 1, p => h[p]?.bind fun c => match c.next with
    | none => some p
    | some q => lastFrom h fuel q

/-! ## Addresses -/

variable {h h' : Heap α} {head next : Option Nat} {cells cells' : List (Nat × α)} {p q : Nat} {x : α}

theorem Chain.det (hc : Chain h head cells) (hc' : Chain h head cells') : cells = cells' := by
  induction cells generalizing head cells' with
  | nil =>
    cases cells' with
    | nil => rfl
    | cons cell' rest' =>
      obtain ⟨hhead, -⟩ := hc'
      rw [Chain, hhead] at hc
      cases hc
  | cons cell rest ih =>
    obtain ⟨hhead, next, hcell, hrest⟩ := hc
    cases cells' with
    | nil =>
      rw [Chain, hhead] at hc'
      cases hc'
    | cons cell' rest' =>
      obtain ⟨hhead', next', hcell', hrest'⟩ := hc'
      have haddr : cell.1 = cell'.1 := Option.some.inj (hhead.symm.trans hhead')
      rw [← haddr, hcell] at hcell'
      have hsame := Option.some.inj hcell'
      obtain ⟨hitem, hnext⟩ : cell.2 = cell'.2 ∧ next = next' :=
        ⟨congrArg Cell.item hsame, congrArg Cell.next hsame⟩
      rw [ih hrest (hnext ▸ hrest'), Prod.ext haddr hitem]

theorem Chain.tail : ∀ {front : List (Nat × α)} {head : Option Nat},
    Chain h head (front ++ cells) → ∃ head', Chain h head' cells
  | [], head, hc => ⟨head, hc⟩
  | _ :: _, _, hc => by
    obtain ⟨-, next, -, hrest⟩ := hc
    exact Chain.tail hrest

/-- An address that came twice would have two different chains behind it. -/
theorem Chain.nodup (hc : Chain h head cells) : (cells.map Prod.fst).Nodup := by
  induction cells generalizing head with
  | nil => exact List.nodup_nil
  | cons cell rest ih =>
    obtain ⟨-, next, hcell, hrest⟩ := hc
    refine List.nodup_cons.mpr ⟨?_, ih hrest⟩
    intro hmem
    obtain ⟨again, hagain, haddr⟩ := List.mem_map.mp hmem
    obtain ⟨front, back, hsplit⟩ := List.append_of_mem hagain
    have hback : Chain h next (front ++ again :: back) := hsplit ▸ hrest
    obtain ⟨head', hagainChain⟩ := hback.tail
    obtain ⟨-, next', hcell', hrest'⟩ := hagainChain
    rw [haddr, hcell] at hcell'
    have hnext : next = next' := congrArg Cell.next (Option.some.inj hcell')
    have hsame := congrArg List.length (hrest.det (hnext ▸ hrest'))
    rw [hsplit, List.length_append, List.length_cons] at hsame
    omega

theorem Chain.lt (hc : Chain h head cells) : ∀ p ∈ cells.map Prod.fst, p < h.length := by
  induction cells generalizing head with
  | nil => simp
  | cons cell rest ih =>
    obtain ⟨-, next, hcell, hrest⟩ := hc
    rw [List.map_cons, List.forall_mem_cons]
    exact ⟨(List.getElem?_eq_some_iff.mp hcell).1, ih hrest⟩

theorem Chain.length_le (hc : Chain h head cells) : cells.length ≤ h.length := by
  have hsub : cells.map Prod.fst ⊆ List.range h.length := fun p hp => List.mem_range.mpr (hc.lt p hp)
  have hle := (hc.nodup.subperm hsub).length_le
  rwa [List.length_map, List.length_range] at hle

/-! ## Writes -/

theorem getElem?_setNext_ne (hne : p ≠ q) : (setNext h p next)[q]? = h[q]? := by
  rw [setNext, List.getElem?_modify_ne _ _ hne]

theorem getElem?_setNext_self {c : Cell α} (hp : h[p]? = some c) :
    (setNext h p next)[p]? = some { c with next := next } := by
  rw [setNext, List.getElem?_modify_eq, hp]
  rfl

theorem getElem?_of_prefix {c : Cell α} (hle : h <+: h') (hp : h[p]? = some c) :
    h'[p]? = some c := by
  obtain ⟨rest, rfl⟩ := hle
  rw [List.getElem?_append_left (List.getElem?_eq_some_iff.mp hp).1, hp]

/-- What was allocated before stays, and stays where it is. -/
theorem Chain.of_prefix (hle : h <+: h') (hc : Chain h head cells) : Chain h' head cells := by
  induction cells generalizing head with
  | nil => exact hc
  | cons cell rest ih =>
    obtain ⟨hhead, next, hcell, hrest⟩ := hc
    exact ⟨hhead, next, getElem?_of_prefix hle hcell, ih hrest⟩

theorem Chain.setNext_ne (hc : Chain h head cells) (hp : p ∉ cells.map Prod.fst) :
    Chain (setNext h p next) head cells := by
  induction cells generalizing head with
  | nil => exact hc
  | cons cell rest ih =>
    obtain ⟨hhead, next', hcell, hrest⟩ := hc
    rw [List.map_cons, List.mem_cons, not_or] at hp
    exact ⟨hhead, next', (getElem?_setNext_ne hp.1).trans hcell, ih hrest hp.2⟩

/-- A chain linked behind the last cell of another one. -/
theorem Chain.link (hc : Chain h head (cells ++ [(p, x)])) (hnext : Chain h next cells')
    (hp : p ∉ cells'.map Prod.fst) :
    Chain (setNext h p next) head (cells ++ (p, x) :: cells') := by
  have hnd := hc.nodup
  induction cells generalizing head with
  | nil =>
    obtain ⟨hhead, next', hcell, -⟩ := hc
    exact ⟨hhead, next, getElem?_setNext_self hcell, hnext.setNext_ne hp⟩
  | cons cell rest ih =>
    obtain ⟨hhead, next', hcell, hrest⟩ := hc
    rw [List.cons_append, List.map_cons, List.nodup_cons] at hnd
    have hne : p ≠ cell.1 := by
      intro heq
      exact hnd.1 (heq ▸ List.mem_map_of_mem (by simp : (p, x) ∈ rest ++ [(p, x)]))
    exact ⟨hhead, next', (getElem?_setNext_ne hne).trans hcell, ih hrest hnd.2⟩

theorem prefix_setNext {base : Heap α} (hle : base <+: h) (hp : base.length ≤ p) :
    base <+: setNext h p next := by
  refine List.prefix_iff_getElem?.mpr fun i hi => ?_
  rw [getElem?_setNext_ne (by omega)]
  exact List.prefix_iff_getElem?.mp hle i hi

/-! ## The walk -/

/-- With fuel for every cell the walk ends at the last one. -/
theorem lastFrom_chain {fuel : Nat} (hc : Chain h (some q) (cells ++ [(p, x)]))
    (hfuel : cells.length < fuel) : lastFrom h fuel q = some p := by
  induction fuel generalizing q cells with
  | zero => cases hfuel
  | succ fuel ih =>
    cases cells with
    | nil =>
      obtain ⟨hhead, next, hcell, hrest⟩ := hc
      obtain rfl : next = none := hrest
      obtain rfl := Option.some.inj hhead
      rw [lastFrom, hcell]
      rfl
    | cons cell rest =>
      rw [List.cons_append] at hc
      obtain ⟨hhead, next, hcell, hrest⟩ := hc
      obtain rfl := Option.some.inj hhead
      rw [lastFrom, hcell, Option.bind_some]
      cases hsplit : rest ++ [(p, x)] with
      | nil => simp at hsplit
      | cons second others =>
        have hsecond : next = some second.1 := by
          rw [hsplit] at hrest
          exact hrest.1
        rw [hsecond] at hrest ⊢
        exact ih hrest (Nat.lt_of_succ_lt_succ hfuel)

theorem lastFrom_length (hc : Chain h (some q) (cells ++ [(p, x)])) :
    lastFrom h h.length q = some p := by
  have hle := hc.length_le
  rw [List.length_append, List.length_singleton] at hle
  exact lastFrom_chain hc hle

end Shell.Lib.LinkedList
