import Shell.Andor

/-! # And-or chains in the documented form (execute_andor in exec.c)

parsetypes.h puts `AND_NONE` on the first element and on each later one the
operator in front of it. On such chains `execute_andor` evaluates from the left
but returns at the first operator that does not call for its pipeline, where a
shell skips the pipeline and goes on. -/
namespace Shell.Andor
open Shell.Parsetypes

variable {π : Type}

/-- The elements of a chain as parsetypes.h documents them. -/
def documented (p : π) (rest : List (Connective × π)) : List (AndOrElement π) :=
  ⟨p, .none⟩ :: rest.map fun q => ⟨q.2, q.1.toOp⟩

theorem number_map (rest : List (Connective × π)) (i : Nat) :
    ((rest.map fun q => (⟨q.2, q.1.toOp⟩ : AndOrElement π)).zipIdx i).map
        (fun e => (⟨(e.1.pipeline, e.2), e.1.op⟩ : AndOrElement (π × Nat))) =
      (numberFrom i rest).map fun q => ⟨q.2, q.1.toOp⟩ := by
  induction rest generalizing i with
  | nil => rfl
  | cons q rest ih =>
    rw [List.map_cons, List.zipIdx_cons, List.map_cons, ih]
    rfl

theorem number_documented (p : π) (rest : List (Connective × π)) (count : Nat) :
    (numberAndOr ⟨count, documented p rest⟩).elements = documented (p, 0) (numberFrom 1 rest) := by
  rw [numberAndOr, documented, List.zipIdx_cons, List.map_cons, number_map]
  rfl

/-- One element behind the first, told by whether its operator calls for it. -/
theorem executeAndorLoop_cons (st : Nat → Int) (status : Int) (op : Connective) (p : π) (i : Nat)
    (elements : List (AndOrElement (π × Nat))) (trace : List (π × Nat)) :
    executeAndorLoop (runAt st) status (⟨(p, i), op.toOp⟩ :: elements) trace =
      if op.runs status then executeAndorLoop (runAt st) (st i) elements (trace ++ [(p, i)])
      else (status, trace) := by
  cases op <;> by_cases h : status = 0 <;>
    simp [executeAndorLoop, Connective.toOp, Connective.runs, runAt, h]

/-- Behind the first operator that does not call for its pipeline, all are of its kind.
Position `k` of `ops` stands between the pipelines `k` and `k + 1`. -/
def NeverResumes (st : Nat → Int) (ops : List Connective) : Prop :=
  ∀ k op, ops[k]? = some op → op.runs (st k) = false →
    (∀ j < k, ∀ op', ops[j]? = some op' → op'.runs (st j) = true) →
    ∀ op' ∈ ops.drop (k + 1), op' = op

theorem neverResumes_of_runs {st : Nat → Int} {op : Connective} (h : op.runs (st 0) = true)
    (ops : List Connective) :
    NeverResumes st (op :: ops) ↔ NeverResumes (fun j => st (j + 1)) ops := by
  constructor
  · intro H k op' hk hstop hall
    refine H (k + 1) op' hk hstop fun j hj op'' hj' => ?_
    cases j with
    | zero =>
      obtain rfl : op = op'' := Option.some.inj hj'
      exact h
    | succ j => exact hall j (Nat.lt_of_succ_lt_succ hj) op'' hj'
  · intro H k op' hk hstop hall
    cases k with
    | zero =>
      obtain rfl : op = op' := Option.some.inj hk
      rw [h] at hstop
      cases hstop
    | succ k => exact H k op' hk hstop fun j hj => hall (j + 1) (Nat.succ_lt_succ hj)

theorem neverResumes_of_stops {st : Nat → Int} {op : Connective} (h : op.runs (st 0) = false)
    (ops : List Connective) : NeverResumes st (op :: ops) ↔ ∀ op' ∈ ops, op' = op := by
  constructor
  · intro H
    exact H 0 op rfl h fun j hj => absurd hj (Nat.not_lt_zero j)
  · intro H k op' hk hstop hall
    cases k with
    | zero =>
      obtain rfl : op = op' := Option.some.inj hk
      exact H
    | succ k =>
      have := hall 0 (Nat.succ_pos k) op rfl
      rw [h] at this
      cases this

/-- The chain behind pipeline `i`, which has just run. -/
theorem executeAndorLoop_documented (st : Nat → Int) (rest : List (Connective × π)) (i : Nat)
    (trace : List (π × Nat)) :
    executeAndorLoop (runAt st) (st i)
        ((numberFrom (i + 1) rest).map fun q => ⟨q.2, q.1.toOp⟩) trace =
        chainFrom (runAt st) (st i) (numberFrom (i + 1) rest) trace ↔
      NeverResumes (fun j => st (i + j)) (rest.map Prod.fst) := by
  induction rest generalizing i trace with
  | nil => simp [numberFrom, executeAndorLoop, chainFrom, NeverResumes]
  | cons head rest ih =>
    obtain ⟨op, p⟩ := head
    simp only [numberFrom, List.map_cons, chainFrom]
    rw [executeAndorLoop_cons]
    cases hop : op.runs (st i) with
    | true =>
      rw [neverResumes_of_runs hop]
      have hnext := ih (i + 1) (trace ++ [(p, i + 1)])
      simpa only [if_true, runAt, Nat.add_assoc, Nat.add_comm 1] using hnext
    | false =>
      -- the code is done; the shell is too if nothing behind is called for
      rw [neverResumes_of_stops hop]
      simp only [Bool.false_eq_true, if_false]
      rw [eq_comm, chainFrom_skips_iff]
      simp [Connective.runs_eq_false_iff hop]

/-- **The early return is right exactly when no opposite operator follows.** -/
theorem executeAndor_documented_iff (st : Nat → Int) (p : π) (rest : List (Connective × π))
    (count : Nat) :
    executeAndor (runAt st) (numberAndOr ⟨count, documented p rest⟩) [] =
        leftAssoc (runAt st) (p, 0) (numberFrom 1 rest) [] ↔
      NeverResumes st (rest.map Prod.fst) := by
  rw [executeAndor, number_documented]
  have hcode : executeAndorLoop (runAt st) 0 (documented (p, 0) (numberFrom 1 rest)) [] =
      executeAndorLoop (runAt st) (st 0)
        ((numberFrom 1 rest).map fun q => ⟨q.2, q.1.toOp⟩) [(p, 0)] := rfl
  have hspec : leftAssoc (runAt st) (p, 0) (numberFrom 1 rest) [] =
      chainFrom (runAt st) (st 0) (numberFrom 1 rest) [(p, 0)] := rfl
  have hiff := executeAndorLoop_documented st rest 0 [(p, 0)]
  rw [hcode, hspec]
  simpa only [Nat.zero_add] using hiff

/-- `a && b || c` with `a` exiting 1: the code stops behind `a`, a shell runs `c`. -/
theorem executeAndor_documented_stops_early :
    let st : Nat → Int := fun i => if i = 0 then 1 else 0
    let chain := numberAndOr ⟨3, documented 'a' [(.and, 'b'), (.or, 'c')]⟩
    executeAndor (runAt st) chain [] = (1, [('a', 0)]) ∧
      leftAssoc (runAt st) ('a', 0) (numberFrom 1 [(.and, 'b'), (.or, 'c')]) [] =
        (0, [('a', 0), ('c', 2)]) := by
  decide

end Shell.Andor
