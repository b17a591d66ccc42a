import Shell.ExecRefines

/-! # Invariants of a session

What every operation of a host keeps holds in every state of a session, over any text
builder: in front of each round and behind the last one. Of a child the host may see
anything, also that it has not got to its end. -/
namespace Shell.Exec
open Shell.CTypes Shell.Parsetypes Shell.Parser Shell.Andor Shell.Expand
open Shell.Lib Shell.Lib.Refine

variable {β σ : Type}

/-- Every operation keeps the invariant, whatever a child comes to. -/
structure KeptHost (host : ReplHost σ) (I : σ → Prop) : Prop
    extends SameCommands host.toHost host.toHost (Agree I) where
  executeAndorBg : ∀ run, Simulates Eq (Agree I) (host.executeAndorBg run) (host.executeAndorBg run)
  captured : ∀ run, Simulates Eq (Agree I) (host.captured run) (host.captured run)
  checkBackgroundJobs : ∀ {s}, I s → I (host.checkBackgroundJobs s)
  addHistory : ∀ {s} line, I s → I (host.addHistory line s)

section
variable {b : Builder β} {Rep : β → Str → Prop} {env : Env σ} {host : ReplHost σ}
  {I : σ → Prop} {s t : σ}

theorem kept_runElement (h : KeptHost host I) {element : ListElement}
    (helement : AndorStrings element.andOr) :
    Simulates Eq (Agree I) (runElement host.toHost (executePipeline host.toHost) element)
      (runElement host.toHost (executePipeline host.toHost) element) := by
  have hrun : Simulates Eq (Agree I) (runAndor (executePipeline host.toHost) element.andOr)
      (runAndor (executePipeline host.toHost) element.andOr) :=
    simulates_runAndor fun e he => simulates_executePipeline h.toSameCommands (helement e he)
  unfold runElement
  cases element.sep with
  | semi => exact hrun
  | none => exact hrun
  | amp => exact h.executeAndorBg _

/-- Expanding the list and running it, where the substitutions keep the invariant. -/
theorem kept_executeList (h : KeptHost host I) (hb : Texts b Rep)
    (henv : SameEnv env env (Agree I)) {list : ShList} (hlist : ListStrings list) {r : Int × σ}
    (hs : I s) (hr : executeList b env host.toHost list s = some r) : I r.2 := by
  obtain ⟨⟨list', u⟩, hexpand, hrun⟩ := Option.bind_eq_some_iff.mp hr
  obtain ⟨_, -, ⟨rfl, hstrings⟩, rfl, hu⟩ :=
    simulates_expandList hb henv hlist s s ⟨rfl, hs⟩ _ hexpand
  obtain ⟨_, -, -, -, hr⟩ := simulates_executeListLoop
    (fun element helement => kept_runElement h (hstrings element helement)) 0 _ _ ⟨rfl, hu⟩ r hrun
  exact hr

/-- What the parent makes of the reads is a C string, and it is left in such a state. -/
theorem kept_captureListOutput (hb : Texts b Rep) {run : Run σ}
    (hcaptured : Simulates Eq (Agree I) (host.captured run) (host.captured run)) :
    Simulates (Agree NulFree) (Agree I) (captureListOutput b host.toHost run)
      (captureListOutput b host.toHost run) := by
  rintro s _ ⟨rfl, hs⟩ ⟨text, t⟩ hr
  obtain ⟨⟨reads, u⟩, hreads, hrest⟩ := Option.bind_eq_some_iff.mp hr
  obtain ⟨sb, hsb, hrest⟩ := Option.bind_eq_some_iff.mp hrest
  obtain ⟨result, hresult, hend⟩ := Option.bind_eq_some_iff.mp hrest
  obtain ⟨_, -, -, -, hu⟩ := hcaptured s s ⟨rfl, hs⟩ _ hreads
  obtain ⟨_, -, hrep⟩ := refines_collected hb reads sb hsb
  obtain ⟨_, -, -, hnul⟩ := hb.refines_takestring hrep result hresult
  obtain ⟨rfl, rfl⟩ := Prod.mk.injEq .. ▸ Option.some.inj hend
  exact ⟨_, hr, ⟨rfl, nulFree_dropNewlines hnul⟩, rfl, hu⟩

/-- The expansion is one that keeps it, whatever the bodies of substitutions do. -/
theorem kept_shellEnv (hb : Texts b Rep) (hvars : SameVars host.toVars host.toVars (Agree I))
    (hcaptured : ∀ run, Simulates Eq (Agree I) (host.captured run) (host.captured run))
    (depth : Nat) :
    SameEnv (shellEnv b host.toHost depth) (shellEnv b host.toHost depth) (Agree I) := by
  cases depth with
  | zero => exact ⟨hvars, fun _ _ _ _ => refines_none _⟩
  | succ depth =>
    refine ⟨hvars, fun {body} _ => ?_⟩
    rintro s _ ⟨rfl, hs⟩
    rw [shellEnv_cmdsub]
    cases lexAndParse (host.beyond s) body with
    | error => exact refines_none _
    | ok list => exact kept_captureListOutput hb (hcaptured _) s s ⟨rfl, hs⟩

/-- A line that is not empty is lexed and run in the state in which it is in the history. -/
theorem kept_line (h : KeptHost host I) (hb : Texts b Rep) (depth : Nat) {line : Str}
    (hne : line ≠ []) (hs : I (host.addHistory line (host.checkBackgroundJobs s)))
    (hr : replRound (executeListPtr b (shellEnv b host.toHost depth) host.toHost) host (some line) s =
      some t) : I t := by
  cases line with
  | nil => exact absurd rfl hne
  | cons c l =>
    simp only [replRound] at hr
    split at hr
    · cases hr
    · rename_i list hlex
      obtain ⟨r, hrun, rfl⟩ := Option.map_eq_some_iff.mp hr
      cases list with
      | none => cases hrun
      | some list =>
        exact kept_executeList h hb (kept_shellEnv hb h.toSameVars h.captured depth)
          (strings_lexAndParse hlex) hs hrun

theorem kept_replRound (h : KeptHost host I) (hb : Texts b Rep) (depth : Nat)
    (line : Option Str) (hs : I s)
    (hr : replRound (executeListPtr b (shellEnv b host.toHost depth) host.toHost) host line s =
      some t) : I t := by
  have hchecked := h.checkBackgroundJobs hs
  cases line with
  | none => exact Option.some.inj hr ▸ hchecked
  | some text =>
    cases text with
    | nil => exact Option.some.inj hr ▸ hchecked
    | cons c l =>
      exact kept_line h hb depth (List.cons_ne_nil c l) (h.addHistory (c :: l) hchecked) hr

/-- By induction on the lines. -/
theorem kept_repl (h : KeptHost host I) (hb : Texts b Rep) (depth : Nat)
    (lines : List (Option Str)) (hs : I s) (hr : repl b host depth lines s = some t) : I t := by
  induction lines generalizing s with
  | nil => exact Option.some.inj hr ▸ hs
  | cons line lines ih =>
    obtain ⟨u, hround, hrest⟩ := Option.bind_eq_some_iff.mp hr
    exact ih (kept_replRound h hb depth line hs hround) hrest

end

end Shell.Exec
