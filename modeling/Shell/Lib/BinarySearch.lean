import Mathlib.Data.List.Basic
import Shell.Lib.Loop

/-! # Binary search (bsearch of the C library)

The library halves the interval that a key can still be in. In a list that is in strict
order the result is that of looking at every element. -/
namespace Shell.Lib.BinarySearch

variable {κ α : Type}

/-- A round on the indices from `s.1` up to `s.2`. -/
def bsearchBody (compar : κ → α → Ordering) (key : κ) (base : List α) (s : Nat × Nat) :
    (Nat × Nat) ⊕ Option α :=
  if s.1 < s.2 then
    match base[(s.1 + s.2) / 2]? with
    | none => .inr none
    | some x =>
      match compar key x with
      | .lt => .inl (s.1, (s.1 + s.2) / 2)
      | .gt => .inl ((s.1 + s.2) / 2 + 1, s.2)
      | .eq => .inr (some x)
  else .inr none

theorem bsearchBody_decreasing (compar : κ → α → Ordering) (key : κ) (base : List α) :
    Loop.Decreasing (bsearchBody compar key base) fun s => s.2 - s.1 := by
  intro s s' h
  unfold bsearchBody at h
  split at h
  · split at h
    · cases h
    · split at h
      · cases h
        simp only
        omega
      · cases h
        simp only
        omega
      · cases h
  · cases h

def bsearch (compar : κ → α → Ordering) (key : κ) (base : List α) : Option α :=
  Loop.exec (bsearchBody compar key base) _ (bsearchBody_decreasing compar key base)
    (0, base.length)

section Sorted
variable {cmp : κ → κ → Ordering} {f : α → κ} {key : κ} {base : List α}

/-- The key is behind everything in front of the interval, and in front of everything
behind it. -/
structure Between (cmp : κ → κ → Ordering) (f : α → κ) (key : κ) (base : List α)
    (s : Nat × Nat) : Prop where
  inside : s.2 ≤ base.length
  left : ∀ i x, base[i]? = some x → i < s.1 → cmp key (f x) = .gt
  right : ∀ i x, base[i]? = some x → s.2 ≤ i → cmp key (f x) = .lt

theorem getElem?_order (h : base.Pairwise fun x y => cmp (f x) (f y) = .lt) {i j : Nat} {x y : α}
    (hx : base[i]? = some x) (hy : base[j]? = some y) (hij : i < j) : cmp (f x) (f y) = .lt := by
  obtain ⟨hi, rfl⟩ := List.getElem?_eq_some_iff.mp hx
  obtain ⟨hj, rfl⟩ := List.getElem?_eq_some_iff.mp hy
  exact List.pairwise_iff_getElem.mp h i j hi hj hij

variable [Std.TransCmp cmp]

theorem between_step (h : base.Pairwise fun x y => cmp (f x) (f y) = .lt) {s s' : Nat × Nat}
    (hs : Between cmp f key base s)
    (hb : bsearchBody (fun key x => cmp key (f x)) key base s = .inl s') :
    Between cmp f key base s' := by
  have hinside := hs.inside
  unfold bsearchBody at hb
  split at hb
  · split at hb
    · cases hb
    · rename_i hlt x hx
      split at hb
      · rename_i hcmp
        cases hb
        refine ⟨by simp only; omega, hs.left, fun j y hy hle => ?_⟩
        rcases Nat.eq_or_lt_of_le hle with rfl | hlt
        · rw [hx] at hy
          rwa [← Option.some.inj hy]
        · exact Std.TransCmp.lt_trans hcmp (getElem?_order h hx hy hlt)
      · rename_i hcmp
        cases hb
        refine ⟨hinside, fun j y hy hle => ?_, hs.right⟩
        rcases Nat.eq_or_lt_of_le (Nat.lt_succ_iff.mp hle) with rfl | hlt
        · rw [hx] at hy
          rwa [← Option.some.inj hy]
        · exact Std.TransCmp.gt_trans hcmp (Std.OrientedCmp.gt_of_lt (getElem?_order h hy hx hlt))
      · cases hb
  · cases hb

/-- **A binary search finds what a search from the front finds.** -/
theorem bsearch_eq_find? (h : base.Pairwise fun x y => cmp (f x) (f y) = .lt) :
    bsearch (fun key x => cmp key (f x)) key base = base.find? fun x => cmp key (f x) == .eq := by
  obtain ⟨s, hs, hexit⟩ := Loop.exec_invariant (Between cmp f key base)
    (bsearchBody_decreasing (fun key x => cmp key (f x)) key base)
    (fun _ _ => between_step h) (s := (0, base.length))
    ⟨Nat.le_refl _, fun _ _ _ hi => absurd hi (Nat.not_lt_zero _), fun i x hx hi => by
      rw [List.getElem?_eq_none hi] at hx
      cases hx⟩
  change bsearchBody _ key base s = .inr (bsearch (fun key x => cmp key (f x)) key base) at hexit
  generalize bsearch (fun key x => cmp key (f x)) key base = result at hexit
  have hinside := hs.inside
  unfold bsearchBody at hexit
  split at hexit
  · split at hexit
    · rename_i hlt hnone
      rw [List.getElem?_eq_none_iff] at hnone
      omega
    · rename_i hlt x hx
      split at hexit
      · cases hexit
      · cases hexit
      · rename_i hcmp
        cases hexit
        obtain ⟨hi, hget⟩ := List.getElem?_eq_some_iff.mp hx
        refine (List.find?_eq_some_iff_getElem.mpr
          ⟨by simpa using hcmp, _, hi, hget, fun j hj => ?_⟩).symm
        -- what is in front of it is smaller than the key
        have hsmall := getElem?_order h (List.getElem?_eq_getElem (Nat.lt_trans hj hi)) hx hj
        have hgt := Std.TransCmp.gt_of_eq_of_gt hcmp (Std.OrientedCmp.gt_of_lt hsmall)
        rw [hgt]
        rfl
  · rename_i hge
    cases hexit
    refine (List.find?_eq_none.mpr fun x hx => ?_).symm
    obtain ⟨i, hi, rfl⟩ := List.getElem_of_mem hx
    by_cases hlt : i < s.1
    · simp [hs.left i _ (List.getElem?_eq_getElem hi) hlt]
    · simp [hs.right i _ (List.getElem?_eq_getElem hi) (by omega)]

/-- **What is found is the element that has the key.** -/
theorem bsearch_eq_some_iff [Std.LawfulEqCmp cmp]
    (h : base.Pairwise fun x y => cmp (f x) (f y) = .lt) {x : α} :
    bsearch (fun key x => cmp key (f x)) key base = some x ↔ x ∈ base ∧ f x = key := by
  rw [bsearch_eq_find? h]
  constructor
  · intro hfound
    have heq := List.find?_some hfound
    rw [beq_iff_eq, Std.LawfulEqCmp.compare_eq_iff_eq] at heq
    exact ⟨List.mem_of_find?_eq_some hfound, heq.symm⟩
  · rintro ⟨hmem, rfl⟩
    obtain ⟨before, after, rfl⟩ := List.append_of_mem hmem
    refine List.find?_eq_some_iff_append.mpr
      ⟨by simp, before, after, rfl, fun y hy => ?_⟩
    -- an element in front has a smaller key
    have hlt := (List.pairwise_append.mp h).2.2 y hy x List.mem_cons_self
    rw [Std.OrientedCmp.gt_of_lt hlt]
    rfl

end Sorted

end Shell.Lib.BinarySearch
