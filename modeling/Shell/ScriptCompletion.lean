import Shell.BuiltinLines
import Shell.CompletionFunction
import Shell.PreviousWord

/-! # From the edit line to what a script offers

The completion of an argument as a whole: which words of the line the script is called
with, and that what it writes is what the press offers. -/
namespace Shell.CompletionFunction
open Shell.CTypes Shell.Completion Shell.CurrentWord Shell.ExternalCompleter Shell.FirstWord
open Shell.Builtins (Restorable ShellState System bareSystem completionLine repl_completionLines
  restorable_git shellHost startShell)
open Shell.Exec (repl)
open Shell.Expand (exact)
open Shell.Lib

/-- The first word of the line. -/
def command (line : EditLine) : Str :=
  (line.front.head?.map (·.1.bytes)).getD line.last.bytes

/-- What a completion script should be given: the command, the word being completed and the
one before it, and the line with the place of the cursor. -/
def callFor (line : EditLine) (path : Str) : ScriptCall where
  path := path
  cmd := command line
  currentWord := line.last.bytes
  prevWord := line.previous.getD []
  compLine := snprintf (str "COMP_LINE=" ++ line.text)
  compPoint := snprintf (str "COMP_POINT=" ++ str (toString line.text.length))

/-- A press with the cursor behind the last word. -/
def pressAt (line : EditLine) (world : World) (registry : Registry) (script : ScriptCall → Str) :
    Press where
  start := line.lastStart
  world := world
  round :=
    { rlLineBuffer := line.text
      text := line.last.bytes
      registry := registry
      forks := true
      script := script }

/-- The last word is an argument, none of the words in front of it starts with it, and the
words that are copied have room in their buffers. -/
structure Completable (line : EditLine) : Prop where
  argument : line.front ≠ []
  program : dotted line.text = false
  first : ∀ e ∈ line.front, ¬ line.last.bytes <+: e.1.bytes
  commandFits : (command line).length < bufferSize
  previousFits : (line.previous.getD []).length < bufferSize

/-! ## The words of the call -/

theorem findCurrentWord_mono {fuel fuel' : Nat} (hle : fuel ≤ fuel') {buffer text : Str}
    {word : Option Nat} (h : findCurrentWord fuel (some buffer) text = some word) :
    findCurrentWord fuel' (some buffer) text = some word := by
  obtain ⟨p, hp, rfl⟩ := Option.map_eq_some_iff.mp h
  rw [findCurrentWord, Loop.loop_mono hle hp, Option.map_some]

theorem getPreviousWord_mono {fuel fuel' : Nat} (hle : fuel ≤ fuel') {buffer : Str}
    {word : Option Nat} {previous : Option Str}
    (h : getPreviousWord fuel (some buffer) word = some previous) :
    getPreviousWord fuel' (some buffer) word = some previous := by
  unfold getPreviousWord at h ⊢
  by_cases hfirst : some (skipws buffer 0) = word
  · simp only [if_pos hfirst] at h ⊢
    exact h
  · simp only [if_neg hfirst] at h ⊢
    obtain ⟨w, hw, rfl⟩ := Option.map_eq_some_iff.mp h
    rw [Loop.loop_mono hle hw, Option.map_some]

theorem wordEnd_first (line : EditLine) :
    wordEnd line.text line.lead = line.lead + (command line).length := by
  have hlead := length_spaces line.lead
  cases hfront : line.front with
  | nil =>
    have hscan : scan (· ≠ chr ' ') (spaces line.lead ++ (line.last.bytes ++ []))
        (spaces line.lead).length = (spaces line.lead).length + line.last.bytes.length := by
      refine scan_append _ (fun c hc => ?_) fun c hc => by cases hc
      have hne : c ≠ chr ' ' := fun h => line.last.noSpace (h ▸ hc)
      simpa using hne
    rw [hlead, List.append_nil] at hscan
    simpa [EditLine.text, command, hfront, frontText, wordEnd] using hscan
  | cons e front =>
    have hround := (round_word (spaces line.lead) e.1 e.2 front line.last).1
    rw [hlead] at hround
    simpa [EditLine.text, command, hfront] using hround

theorem take_first (line : EditLine) :
    (line.text.drop line.lead).take (command line).length = command line := by
  have hdrop : line.text.drop line.lead = frontText line.front ++ line.last.bytes := by
    rw [EditLine.text, List.drop_append_of_le_length (by simp [spaces])]
    simp [spaces]
  rw [hdrop]
  cases hfront : line.front with
  | nil => simp [command, hfront, frontText]
  | cons e front =>
    obtain ⟨w, k⟩ := e
    rw [frontText_cons, command, hfront]
    exact List.take_left

theorem getCommandWord_line (line : EditLine) :
    getCommandWord line.text = some (command line) := by
  have hpos : 0 < (command line).length := by
    unfold command
    cases line.front with
    | nil => exact line.last.length_pos
    | cons e front => exact e.1.length_pos
  rw [getCommandWord, Option.bind_some]
  simp only [skipws_lead, wordEnd_first, Nat.add_sub_cancel_left, take_first]
  exact if_neg (by omega)

theorem drop_last (line : EditLine) : line.text.drop line.lastStart = line.last.bytes := by
  have hlength : line.lastStart = (spaces line.lead ++ frontText line.front).length := by
    rw [EditLine.lastStart, List.length_append, length_spaces]
  rw [hlength, EditLine.text, ← List.append_assoc]
  exact List.drop_left

/-! ## The call of the script -/

variable {line : EditLine} {world : World} {registry : Registry} {script : ScriptCall → Str}
  {path : Str} {readline : Readline} {offer : Offer}

theorem scriptPath_pressAt (hpath : lookupCompletion registry (command line) = some path) :
    scriptPath (pressAt line world registry script).round = some path := by
  rw [scriptPath, pressAt, getCommandWord_line, Option.bind_some, hpath]

theorem start_pressAt (hc : Completable line) :
    (pressAt line world registry script).start ≠ 0 := by
  obtain ⟨e, front, hfront⟩ := List.exists_cons_of_ne_nil hc.argument
  have hpos := e.1.length_pos
  have hstart : (pressAt line world registry script).start =
      line.lead + (frontText line.front).length := rfl
  rw [hstart, hfront, length_frontText_cons]
  omega

theorem startRound_mono {fuel fuel' : Nat} (hle : fuel ≤ fuel') {round : Round}
    {lines : Option (List Str)} (h : startRound fuel round = some lines) :
    startRound fuel' round = some lines := by
  unfold startRound at h ⊢
  cases hbuffer : round.rlLineBuffer with
  | none =>
    rw [hbuffer] at h
    exact h
  | some buffer =>
    simp only [hbuffer, Option.bind_eq_bind] at h ⊢
    obtain ⟨_, hfits, h⟩ := Option.bind_eq_some_iff.mp h
    obtain ⟨word, hcurrent, h⟩ := Option.bind_eq_some_iff.mp h
    obtain ⟨previous, hprevious, h⟩ := Option.bind_eq_some_iff.mp h
    rw [hfits, Option.bind_some, findCurrentWord_mono hle hcurrent, Option.bind_some,
      getPreviousWord_mono hle hprevious, Option.bind_some]
    exact h

/-- On fuel for both walks the script is run with the words of the line. -/
theorem startRound_line (hc : Completable line)
    (hpath : lookupCompletion registry (command line) = some path) :
    ∃ fuel, startRound fuel (pressAt line world registry script).round =
      some (some (readWords (script (callFor line path)))) := by
  obtain ⟨fuel₁, hcurrent⟩ := findCurrentWord_line line
  obtain ⟨fuel₂, hprevious⟩ := getPreviousWord_line line
  rw [(stopAt_eq_iff line.last line.front).mpr hc.first] at hcurrent
  have hcurrent := findCurrentWord_mono (Nat.le_max_left fuel₁ fuel₂) hcurrent
  have hprevious := getPreviousWord_mono (Nat.le_max_right fuel₁ fuel₂) hprevious
  refine ⟨max fuel₁ fuel₂, ?_⟩
  have hcommand := Nat.le_of_lt hc.commandFits
  have hfits := Nat.le_of_lt hc.previousFits
  rw [EditLine.lastStart] at hprevious
  simp only [startRound, pressAt, getCommandWord_line, Option.bind_some, hpath, Option.getD_some,
    hcurrent, hprevious, Option.bind_eq_bind, guard, hcommand, hfits, hc.commandFits,
    hc.previousFits, if_true, and_self]
  rw [← EditLine.lastStart, drop_last]
  rfl

theorem startRound_unique {fuel fuel' : Nat} {round : Round} {lines lines' : Option (List Str)}
    (h : startRound fuel round = some lines) (h' : startRound fuel' round = some lines') :
    lines = lines' := by
  have hmax := startRound_mono (Nat.le_max_left fuel fuel') h
  have hmax' := startRound_mono (Nat.le_max_right fuel fuel') h'
  exact Option.some.inj (hmax.symm.trans hmax')

/-- A press by itself offers what the script writes to its words. -/
theorem offers_pressAt (hc : Completable line)
    (hpath : lookupCompletion registry (command line) = some path) :
    Offers (pressAt line world registry script) offer ↔
      offer = ⟨true, readWords (script (callFor line path))⟩ := by
  have hpress := @scriptPath_pressAt line world registry script path hpath
  have hstart := @start_pressAt line world registry script hc
  obtain ⟨fuel, hround⟩ := @startRound_line line world registry script path hc hpath
  constructor
  · intro h
    cases h with
    | path hdotted => exact absurd hdotted (Bool.eq_false_iff.mp hc.program)
    | firstWord _ hzero => exact absurd hzero hstart
    | script _ _ _ hround' => rw [startRound_unique hround' hround, Option.getD_some]
    | unregistered _ _ hnone =>
      rw [hpress] at hnone
      cases hnone
  · rintro rfl
    exact .script hc.program hstart hpress hround

/-! ## After any presses -/

/-- What can only be offered in one way is offered behind any session. -/
theorem session_append_iff (hmatches : UntilNull readline) {press : Press} {only : Offer}
    (honly : ∀ offer, Offers press offer ↔ offer = only) {v : Variables}
    (hfreed : v.external = freed) (log : List (Press × Offer)) :
    Session readline v (log ++ [(press, offer)]) ↔ Session readline v log ∧ offer = only := by
  induction log generalizing v with
  | nil =>
    rw [← honly, List.nil_append]
    constructor
    · intro h
      cases h with
      | press hpress _ => exact ⟨.done, (offers_of_press hmatches hfreed hpress).1⟩
    · intro h
      obtain ⟨walkFuel, callFuel, v', hpress⟩ := press_of_offers hmatches hfreed h.2
      exact .press hpress .done
  | cons e log ih =>
    rw [List.cons_append]
    constructor
    · intro h
      cases h with
      | press hpress hrest =>
        have hleft := (offers_of_press hmatches hfreed hpress).2
        obtain ⟨hlog, hoffer⟩ := (ih hleft).mp hrest
        exact ⟨.press hpress hlog, hoffer⟩
    · rintro ⟨h, hoffer⟩
      cases h with
      | press hpress hrest =>
        have hleft := (offers_of_press hmatches hfreed hpress).2
        exact .press hpress ((ih hleft).mpr ⟨hrest, hoffer⟩)

section Lines
variable {lines : List Line} {last : Line} {v : Variables}

/-- What a script writes in lines that have room is offered line by line. -/
theorem offers_written (hc : Completable line)
    (hpath : lookupCompletion registry (command line) = some path)
    (hscript : script (callFor line path) = written lines last)
    (hlines : ∀ l ∈ lines, l.bytes.length ≤ 1022) (hlast : last.bytes.length ≤ 1023) (offer : Offer) :
    Offers (pressAt line world registry script) offer ↔ offer = ⟨true, shown lines last⟩ := by
  rw [offers_pressAt hc hpath, hscript, readWords_written hlines hlast]

/-- **What a script offers.** Whatever was pressed before, TAB behind the last word of such
a line runs the script that is registered for its command on that word and the one before
it, and offers the lines that the script writes. -/
theorem session_script_iff (hmatches : UntilNull readline) (hc : Completable line)
    (hpath : lookupCompletion registry (command line) = some path)
    (hscript : script (callFor line path) = written lines last)
    (hlines : ∀ l ∈ lines, l.bytes.length ≤ 1022) (hlast : last.bytes.length ≤ 1023)
    (hfreed : v.external = freed) (log : List (Press × Offer)) :
    Session readline v (log ++ [(pressAt line world registry script, offer)]) ↔
      Session readline v log ∧ offer = ⟨true, shown lines last⟩ :=
  session_append_iff hmatches (offers_written hc hpath hscript hlines hlast) hfreed log

end Lines

/-- `git a` behind two spaces, and what the script of `gitRound` writes for it. -/
theorem exists_gitLine : ∃ (line : EditLine) (lines : List Line) (last : Line),
    line.text = str "  git a" ∧ Completable line ∧ command line = str "git" ∧
    gitRound.script (callFor line (str "/c")) = written lines last ∧
    shown lines last = [str "git", str "a", str "git"] ∧
    (∀ l ∈ lines, l.bytes.length ≤ 1022) ∧ last.bytes.length ≤ 1023 := by
  let git : Line := ⟨str "git", by decide, by decide⟩
  let a : Line := ⟨str "a", by decide, by decide⟩
  let line : EditLine :=
    { lead := 2
      front := [(⟨git.bytes, List.cons_ne_nil _ _, by decide⟩, 0)]
      last := ⟨a.bytes, List.cons_ne_nil _ _, by decide⟩ }
  have hc : Completable line :=
    { argument := List.cons_ne_nil _ _
      program := rfl
      first := by decide
      commandFits := by decide
      previousFits := by decide }
  exact ⟨line, [git, a], git, rfl, hc, rfl, rfl, rfl, by decide, by decide⟩

theorem session_script_iff_git : ∃ line : EditLine, line.text = str "  git a" ∧
    Session callingReadline initial
      ([] ++ [(pressAt line gitPress.world gitRound.registry gitRound.script,
        ⟨true, [str "git", str "a", str "git"]⟩)]) := by
  obtain ⟨line, lines, last, htext, hc, hcommand, hscript, hshown, hlines, hlast⟩ := exists_gitLine
  have hpath : lookupCompletion gitRound.registry (command line) = some (str "/c") := by
    rw [hcommand]
    decide
  refine ⟨line, htext, ?_⟩
  exact (session_script_iff untilNull_callingReadline hc hpath hscript hlines hlast rfl []).mpr
    ⟨.done, by rw [hshown]⟩

/-! ## From the prompt -/

section Prompt
variable {ω : Type} {system : System ω} {s : ShellState ω} {entry : CompletionRegistration}
  {lines : List Line} {last : Line} {v : Variables}

/-- **A script that is registered at the prompt is the one that TAB runs.** Where there is
room for the command, the line `complete -C 'SCRIPT' COMMAND` leaves a shell in which TAB,
whatever was pressed before, offers the lines that this script writes. -/
theorem repl_complete_session (hmatches : UntilNull readline) (depth : Nat)
    (hentry : Restorable entry)
    (hroom : (lookupCompletion s.registry entry.command).isSome ∨ s.registry.count < maxCompletions)
    (hc : Completable line) (hcommand : command line = entry.command)
    (hscript : script (callFor line entry.scriptPath) = written lines last)
    (hlines : ∀ l ∈ lines, l.bytes.length ≤ 1022) (hlast : last.bytes.length ≤ 1023)
    (hfreed : v.external = freed) (log : List (Press × Offer)) :
    ∃ t, repl exact (shellHost system) depth [some (completionLine entry)] s = some t ∧
      (Session readline v (log ++ [(pressAt line world t.registry script, offer)]) ↔
        Session readline v log ∧ offer = ⟨true, shown lines last⟩) := by
  obtain ⟨t, hrepl, hregistry⟩ := @repl_completionLines _ system s depth [entry]
    (List.forall_mem_singleton.mpr hentry)
  have hpath : lookupCompletion t.registry (command line) = some entry.scriptPath := by
    rw [hregistry, hcommand]
    exact lookupCompletion_registerCompletion hroom
  refine ⟨t, hrepl, ?_⟩
  exact session_append_iff hmatches (offers_written hc hpath hscript hlines hlast) hfreed log

end Prompt

/-- `complete -C '/c' git`, and a TAB behind `git a`. -/
theorem repl_complete_session_git : ∃ (line : EditLine) (t : ShellState Unit),
    line.text = str "  git a" ∧
    repl exact (shellHost bareSystem) 1 [some (completionLine ⟨str "git", str "/c"⟩)] startShell =
      some t ∧
    Session callingReadline initial
      ([] ++ [(pressAt line gitPress.world t.registry gitRound.script,
        ⟨true, [str "git", str "a", str "git"]⟩)]) := by
  obtain ⟨line, lines, last, htext, hc, hcommand, hscript, hshown, hlines, hlast⟩ := exists_gitLine
  obtain ⟨t, hrepl, hsession⟩ := @repl_complete_session line gitPress.world gitRound.script
    callingReadline ⟨true, [str "git", str "a", str "git"]⟩ Unit bareSystem startShell
    ⟨str "git", str "/c"⟩ lines last initial untilNull_callingReadline 1
    (restorable_git (by decide)) (.inr (by decide)) hc hcommand hscript hlines hlast rfl []
  exact ⟨line, t, htext, hrepl, hsession.mpr ⟨.done, by rw [hshown]⟩⟩

end Shell.CompletionFunction
