import Shell.History
import Shell.Lib.Runs

/-! # Appending the history to a file (history -a in builtins.c)

`entries_appended` counts the entries that `history -a` has written. A run adds
lines, loads files and appends; a failed `append_history` counts as a written one
unless it returns -1. -/
namespace Shell.History
open Shell.CTypes Shell.Lib.Runs

/-- What changes the list or the counter, with what the line editor returns. -/
inductive Action
  | add (line : Str)
  | load (file : Str) (result : Int × List Str) (failed : result.1 ≠ 0 → result.2 = [])
  | append (file : Str) (status : Int)

/-- The call fails: it reads or writes nothing. -/
def Action.Fails : Action → Prop
  | .add _ => False
  | .load _ result _ => result.1 ≠ 0
  | .append _ status => status ≠ 0

/-- The state behind a call of the builtin. -/
def called (rl : Readline) (argv : List Str) (s : State) : State :=
  ((builtinHistory rl argv s).map Result.state).getD s

def perform (s : State) : Action → State
  | .add line => { s with entries := s.entries ++ [line] }
  | .load file result _ =>
    called { readHistory := fun _ => result, writeHistory := fun _ => 0,
             appendHistory := fun _ => 0 } [str "history", str "-r", file] s
  | .append file status =>
    called { readHistory := fun _ => (0, []), writeHistory := fun _ => 0,
             appendHistory := fun _ => status } [str "history", str "-a", file] s

def start : State := { entries := [], entriesAppended := 0, appended := [] }

/-- The actions of a run, each with the state in front of it. -/
def trace : State → List Action → List (State × Action)
  | _, [] => []
  | s, a :: actions => (s, a) :: trace (perform s a) actions

/-- What is in the files is the first `entries_appended` entries, in order. -/
def Exact (s : State) : Prop :=
  ∃ n : Nat, s.entriesAppended = n ∧ n ≤ s.entries.length ∧ s.appended = s.entries.take n

/-- Every entry is written once, and a failed call changes nothing. -/
structure AppendsOnce (actions : List Action) : Prop where
  states : ∀ p ∈ trace start actions, Exact p.1
  last : Exact (actions.foldl perform start)
  failures : ∀ p ∈ trace start actions, p.2.Fails → perform p.1 p.2 = p.1

/-- A call of `append_history` succeeds, returns -1 or has nothing to write. -/
def Detected (s : State) : Action → Prop
  | .append _ status => status = 0 ∨ status = -1 ∨ s.entriesAppended = s.entries.length
  | _ => True

/-! ## The steps -/

theorem display_nothing (s : State) (length : Int) (entries : List Str) :
    display s (-1) length entries = some { ret := 0, out := [], err := [], state := s } := by
  simp [display, printEntries]

theorem perform_load (s : State) (file : Str) (result : Int × List Str)
    (h : result.1 ≠ 0 → result.2 = []) :
    perform s (.load file result h) = { s with entries := s.entries ++ result.2 } := by
  have hoption : abbreviates (str "-r") (str "-r") = true := rfl
  simp only [perform, called, builtinHistory, hoption, if_true]
  split
  · rfl
  · rw [display_nothing]
    rfl

theorem perform_append (s : State) (file : Str) (status : Int) :
    perform s (.append file status) =
      { entries := s.entries
        entriesAppended := if status = -1 then s.entriesAppended else s.entries.length
        appended := if status = 0 then
          s.appended ++ lastEntries (s.entries.length - s.entriesAppended) s.entries
          else s.appended } := by
  have hr : abbreviates (str "-a") (str "-r") = false := rfl
  have hw : abbreviates (str "-a") (str "-w") = false := rfl
  have ha : abbreviates (str "-a") (str "-a") = true := rfl
  simp only [perform, called, builtinHistory, hr, hw, ha, Bool.false_eq_true, if_false, if_true,
    display_nothing, failed]
  have hcount : s.entriesAppended + (s.entries.length - s.entriesAppended) = s.entries.length := by
    omega
  by_cases hwritten : status = 0
  · simp [hwritten, hcount]
  · by_cases hdetected : status = -1
    · simp [hdetected]
    · simp [hwritten, hdetected, hcount]

/-- What `append_history` is given in an exact state is what is not written yet. -/
theorem exact_append_iff {s : State} (h : Exact s) (file : Str) (status : Int) :
    Exact (perform s (.append file status)) ↔ Detected s (.append file status) := by
  obtain ⟨n, hn, hle, happended⟩ := h
  rw [perform_append]
  by_cases hwritten : status = 0
  · have hlast : lastEntries (s.entries.length - s.entriesAppended) s.entries =
        s.entries.drop n := by
      rw [lastEntries, hn]
      congr 1
      omega
    have hexact : Exact
        { entries := s.entries
          entriesAppended := s.entries.length
          appended := s.appended ++ s.entries.drop n } := by
      refine ⟨s.entries.length, rfl, le_rfl, ?_⟩
      rw [happended, List.take_append_drop, List.take_length]
    simp only [hwritten, if_true, hlast, if_neg (show ¬ (0 : Int) = -1 by omega), Detected, true_or,
      iff_true]
    exact hexact
  · by_cases hdetected : status = -1
    · simp only [hdetected, if_true, Detected, true_or, or_true, iff_true]
      exact ⟨n, hn, hle, happended⟩
    · rw [if_neg hwritten, if_neg hdetected]
      simp only [Detected, hwritten, hdetected, false_or]
      constructor
      · intro hexact
        obtain ⟨m, hm, -, htake⟩ := hexact
        -- as many entries are in the files as before
        have hall : (s.entries.length : Int) = m := hm
        have htakes : s.entries.take n = s.entries.take m := happended.symm.trans htake
        have hlen := congrArg List.length htakes
        rw [List.length_take, List.length_take] at hlen
        omega
      · intro hall
        exact ⟨n, by simp only; omega, hle, happended⟩

/-- More entries do not change which of them are written. -/
theorem Exact.append_entries {s : State} (h : Exact s) (lines : List Str) :
    Exact { s with entries := s.entries ++ lines } := by
  obtain ⟨n, hn, hle, happended⟩ := h
  refine ⟨n, hn, ?_, ?_⟩
  · simp only [List.length_append]
    omega
  · simp only
    rw [List.take_append_of_le_length hle, happended]

theorem exact_perform_iff {s : State} (h : Exact s) (a : Action) :
    Exact (perform s a) ↔ Detected s a := by
  cases a with
  | add line => exact ⟨fun _ => trivial, fun _ => h.append_entries [line]⟩
  | load file result failed =>
    rw [perform_load]
    exact ⟨fun _ => trivial, fun _ => h.append_entries result.2⟩
  | append file status => exact exact_append_iff h file status

/-- A failure that is seen, or has nothing to write, changes nothing. -/
theorem perform_of_fails {s : State} {a : Action} (hfails : a.Fails) (hdetected : Detected s a) :
    perform s a = s := by
  cases a with
  | add line => exact hfails.elim
  | load file result failed =>
    rw [perform_load, failed hfails, List.append_nil]
  | append file status =>
    have hstatus : ¬ status = 0 := hfails
    rw [perform_append, if_neg hstatus]
    obtain hzero | hseen | hall := hdetected
    · exact absurd hzero hstatus
    · rw [if_pos hseen]
    · rw [← hall, ite_self]

/-! ## The runs -/

theorem path_trace (actions : List Action) (s : State) :
    Path (fun s a s' => s' = perform s a) s (trace s actions) (actions.foldl perform s) := by
  induction actions generalizing s with
  | nil => exact .done
  | cons a actions ih => exact .next rfl (ih (perform s a))

theorem exact_start : Exact start := ⟨0, rfl, le_rfl, rfl⟩

/-- **When every entry is written once.** A failure of `append_history` has to be
seen: the test for it is for -1. -/
theorem appendsOnce_iff (actions : List Action) :
    AppendsOnce actions ↔ ∀ p ∈ trace start actions, Detected p.1 p.2 := by
  have hstep : ∀ s a s', Exact s → s' = perform s a → (Exact s' ↔ Detected s a) := by
    rintro s a _ hs rfl
    exact exact_perform_iff hs a
  have hrun := (path_trace actions start).invariant_iff hstep exact_start
  constructor
  · intro h
    exact hrun.mp ⟨h.states, h.last⟩
  · intro h
    obtain ⟨hstates, hlast⟩ := hrun.mpr h
    exact ⟨hstates, hlast, fun p hp hfails => perform_of_fails hfails (h p hp)⟩

/-- A line is added and the file cannot be opened (`ENOENT`): the line counts as
written. -/
theorem not_appendsOnce_failed : ¬ AppendsOnce [.add (str "ls"), .append (str "/no/file") 2] := by
  intro h
  have hseen := h.failures (perform start (.add (str "ls")), .append (str "/no/file") 2)
    (List.mem_cons_of_mem _ List.mem_cons_self) (show (2 : Int) ≠ 0 by omega)
  have hcount := congrArg State.entriesAppended hseen
  rw [perform_append] at hcount
  cases hcount

end Shell.History
