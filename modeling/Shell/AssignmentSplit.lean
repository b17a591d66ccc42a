import Shell.Variables

/-! # Splitting an assignment (assignment_split in parser.c)

The part behind the first `=` is copied to the front of a new block, and no NUL is
written behind it. What the block reads as is left to what `malloc` hands out. -/
namespace Shell.AssignmentSplit
open Shell.CTypes Shell.Stringbuilder Shell.Expand Shell.Exec Shell.Variables

/-- The part in front of the first `=`. -/
def beforeEquals (a : Str) : Str := a.takeWhile (· ≠ chr '=')

/-- The part behind the first `=`. -/
def afterEquals (a : Str) : Str := (a.dropWhile (· ≠ chr '=')).tail

/-- Both blocks read as their parts, and put together they are the assignment again. -/
def Splits (new : Cells × Cells) (a : Str) : Prop :=
  ∃ name value, (assignmentSplit new a).1.cstr = some name ∧
    (assignmentSplit new a).2.cstr = some value ∧
    name = beforeEquals a ∧ value = afterEquals a ∧ name ++ chr '=' :: value = a

/-! ## The parts -/

theorem parts_append {a : Str} (heq : chr '=' ∈ a) :
    beforeEquals a ++ chr '=' :: afterEquals a = a := by
  induction a with
  | nil => cases heq
  | cons c a ih =>
    unfold beforeEquals afterEquals at ih ⊢
    by_cases hc : c = chr '='
    · simp [hc]
    · have hmem : chr '=' ∈ a := (List.mem_cons.mp heq).resolve_left fun h => hc h.symm
      have hcons := ih hmem
      simpa [hc] using hcons

theorem not_mem_beforeEquals (a : Str) : chr '=' ∉ beforeEquals a := by
  intro hmem
  have hne := List.mem_takeWhile_imp hmem
  simp at hne

theorem scanTo_equals {a : Str} (heq : chr '=' ∈ a) :
    scanTo (chr '=') a = (beforeEquals a, some (afterEquals a)) := by
  have hscan : scanTo (chr '=') (beforeEquals a ++ chr '=' :: afterEquals a) =
      (beforeEquals a, some (afterEquals a)) := scanTo_append (not_mem_beforeEquals a)
  rwa [parts_append heq] at hscan

theorem nulFree_parts {a : Str} (heq : chr '=' ∈ a) (hnul : NulFree a) :
    NulFree (beforeEquals a) ∧ NulFree (afterEquals a) := by
  rw [← parts_append heq] at hnul
  exact ⟨fun b hb => hnul b (List.mem_append_left _ hb),
    fun b hb => hnul b (List.mem_append_right _ (List.mem_cons_of_mem _ hb))⟩

/-! ## The blocks -/

variable {a : Str}

/-- The name is terminated by hand, whatever its block held. -/
theorem assignmentSplit_name (heq : chr '=' ∈ a) (hnul : NulFree a) (new : Cells × Cells) :
    (assignmentSplit new a).1.cstr = some (beforeEquals a) := by
  simp only [assignmentSplit, scanTo_equals heq]
  exact cstr_nameBlock (nulFree_parts heq hnul).1

/-- The value runs on into what its block held before. -/
theorem assignmentSplit_value (heq : chr '=' ∈ a) (hnul : NulFree a) (new : Cells × Cells)
    (text : Str) : (assignmentSplit new a).2.cstr = some text ↔
      BlockHolds new.2 (afterEquals a) text := by
  simp only [assignmentSplit, scanTo_equals heq]
  exact cstr_valueBlock (nulFree_parts heq hnul).2

/-- The block is longer than the value, so that the byte behind the value is in it. -/
theorem blockHolds_self_iff {cells : Cells} {value : Str} :
    BlockHolds cells value value ↔ cells value.length = 0 := by
  constructor
  · intro h
    exact h.nul
  · intro hzero
    exact ⟨List.prefix_refl value, fun i hle hlt => absurd hlt (Nat.not_lt.mpr hle), hzero, by omega⟩

/-- The name always reads back, so the split is right where the value does. -/
theorem splits_iff_value (heq : chr '=' ∈ a) (hnul : NulFree a) (new : Cells × Cells) :
    Splits new a ↔ (assignmentSplit new a).2.cstr = some (afterEquals a) := by
  have hname := assignmentSplit_name heq hnul new
  constructor
  · intro hsplits
    obtain ⟨name, value, -, hread, -, hparts, -⟩ := hsplits
    rwa [hparts] at hread
  · intro hvalue
    exact ⟨_, _, hname, hvalue, rfl, rfl, parts_append heq⟩

/-- **When an assignment is split into its parts.** The name always reads back; the value
does exactly when the byte of the new block behind it happens to be NUL. -/
theorem assignmentSplit_splits_iff (heq : chr '=' ∈ a) (hnul : NulFree a) (new : Cells × Cells) :
    Splits new a ↔ new.2 (afterEquals a).length = 0 := by
  rw [splits_iff_value heq hnul, assignmentSplit_value heq hnul, blockHolds_self_iff]

/-- A block of zeros behind the value, and one of sevens. -/
theorem assignmentSplit_splits_iff_zeroed :
    Splits (fun _ => 55, fun i => if i < 3 then 55 else 0) (str "dir=a=b") ∧
      ¬ Splits (fun _ => 55, fun _ => 55) (str "dir=a=b") :=
  ⟨(assignmentSplit_splits_iff (by decide) (by decide) (fun _ => 55, _)).mpr (by decide),
    mt (assignmentSplit_splits_iff (by decide) (by decide) (fun _ => 55, _)).mp (by decide)⟩

/-- `x=1` in a block that holds `777` and then zeros reads as `177`, and an empty value
in a block of one byte `7` as no string at all. -/
theorem assignmentSplit_stale :
    ¬ Splits (fun _ => 0, fun i => if i < 3 then 55 else 0) (str "x=1") ∧
    (assignmentSplit (fun _ => 0, fun i => if i < 3 then 55 else 0) (str "x=1")).2.cstr =
      some (str "177") ∧
    (assignmentSplit (fun _ => 0, fun _ => 55) (str "x=")).2.cstr = none := by
  have hread : (assignmentSplit (fun _ => 0, fun i => if i < 3 then 55 else 0)
      (str "x=1")).2.cstr = some (str "177") := by decide
  refine ⟨?_, hread, by decide⟩
  intro hsplits
  obtain ⟨name, value, -, hvalue, -, hparts, -⟩ := hsplits
  rw [hread, hparts] at hvalue
  exact absurd hvalue (by decide)

end Shell.AssignmentSplit
