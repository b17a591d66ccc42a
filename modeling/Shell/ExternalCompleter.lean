import Shell.Completion
import Shell.CurrentWord
import Shell.Lib.Generator

/-! # Completing an argument (external_completer_generator in completion.c)

The first call of a round runs the script that is registered for the command of the
edit line and keeps the lines that the script writes; every call takes the next of them.
The place in the array is not reset by a first call. -/
namespace Shell.ExternalCompleter
open Shell.CTypes Shell.CurrentWord Shell.Completion Shell.Lib

/-! ## What the script writes -/

/-- `sizeof(line)`, and of the two buffers for the words -/
def bufferSize : Nat := 1024

/-- `fgets` with room for so many bytes in front of its NUL: what it reads, through the
first newline, and what is left. -/
def fgets : Nat → Str → Str × Str
  | 0, input => ([], input)
  | _ + 1, [] => ([], [])
  | room + 1, c :: input =>
    if c = chr '\n' then ([c], input)
    else (c :: (fgets room input).1, (fgets room input).2)

/-- `line[strcspn(line, "\n")] = '\0'`: the C string that `line` holds then. -/
def cutLine (line : Str) : Str := line.takeWhile fun c => c ≠ 0 && c ≠ chr '\n'

/-- A round of the loop over `fgets`: the input that is left, and the words so far. -/
def readBody (s : Str × List Str) : Str × List Str ⊕ List Str :=
  match s.1 with
  | [] => .inr s.2
  | _ :: _ => .inl ((fgets (bufferSize - 1) s.1).2,
      s.2 ++ [cutLine (fgets (bufferSize - 1) s.1).1])

theorem length_fgets_le (room : Nat) (input : Str) :
    (fgets room input).2.length ≤ input.length := by
  induction room generalizing input with
  | zero => exact Nat.le_refl _
  | succ room ih =>
    cases input with
    | nil => exact Nat.le_refl _
    | cons c input =>
      have hle := ih input
      rw [fgets]
      split
      · simp
      · simp only [List.length_cons]
        omega

/-- With room for a byte, `fgets` moves on. -/
theorem length_fgets_lt (room : Nat) (c : UInt8) (input : Str) :
    (fgets (room + 1) (c :: input)).2.length < (c :: input).length := by
  have hle := length_fgets_le room input
  rw [fgets]
  split
  · simp
  · simp only [List.length_cons]
    omega

theorem readBody_decreasing : Loop.Decreasing readBody (·.1.length) := by
  intro s s' h
  obtain ⟨input, words⟩ := s
  cases input with
  | nil => cases h
  | cons c input =>
    obtain rfl := Sum.inl.inj h
    exact length_fgets_lt 1022 c input

/-- The word list when the script has closed its output. -/
def readWords (output : Str) : List Str :=
  Loop.exec readBody (·.1.length) readBody_decreasing (output, [])

/-! ## The generator -/

/-- `completions` with `cmp_idx` and `cmp_len`. -/
structure Statics where
  completions : Option (List Str)
  cmpIdx : Nat
  cmpLen : Nat
  sized : cmpLen = (completions.getD []).length
  idle : completions = none → cmpIdx = 0

/-- The variables at the start, and when the array has been freed. -/
def freed : Statics where
  completions := none
  cmpIdx := 0
  cmpLen := 0
  sized := List.length_nil.symm
  idle := fun _ => rfl

/-- `if (completions) { free(completions); .. } return nullptr;` -/
def giveUp (s : Statics) : Option Str × Statics :=
  match s.completions with
  | none => (none, s)
  | some _ => (none, freed)

/-- A new array; the index keeps its value. -/
def load (words : List Str) (s : Statics) : Statics where
  completions := some words
  cmpIdx := s.cmpIdx
  cmpLen := words.length
  sized := rfl
  idle := fun h => by cases h

/-- What every call ends with, and all that the calls behind the first one do. -/
def deliver (s : Statics) : Option Str × Statics :=
  match hsome : s.completions with
  | none => (none, s)
  | some completions =>
    if h : s.cmpIdx ≥ s.cmpLen then (none, freed)
    else
      have hlt : s.cmpIdx < completions.length := by
        have hsized := s.sized
        rw [hsome] at hsized
        exact hsized ▸ Nat.lt_of_not_le h
      (some completions[s.cmpIdx],
        { s with
          cmpIdx := s.cmpIdx + 1
          idle := fun hnone => by rw [hsome] at hnone; cases hnone })

def getCommandWord (rlLineBuffer : Option Str) : Option Str :=
  rlLineBuffer.bind fun buffer =>
    let p := skipws buffer 0
    let fin := wordEnd buffer p
    if fin = p then none else some ((buffer.drop p).take (fin - p))

/-- What `execle` is given. -/
structure ScriptCall where
  path : Str
  cmd : Str
  currentWord : Str
  prevWord : Str
  compLine : Str
  compPoint : Str

/-- What a first call finds. -/
structure Round where
  rlLineBuffer : Option Str
  text : Str
  registry : Registry
  /-- Neither `pipe` nor `fork` fails. -/
  forks : Bool
  /-- What the child writes. -/
  script : ScriptCall → Str

/-- `snprintf` into a buffer of this size -/
def snprintf (text : Str) : Str := text.take (bufferSize - 1)

/-- The first call up to the lines of the script: `none` where a walk over the edit line
does not end or a word has no room in its buffer, `some none` where no script runs. -/
def startRound (fuel : Nat) (round : Round) : Option (Option (List Str)) :=
  match round.rlLineBuffer with
  | none => some none
  | some buffer => do
    let cmd := getCommandWord buffer
    let scriptPath := cmd.bind (lookupCompletion round.registry)
    let cmd := cmd.getD []
    guard (cmd.length ≤ bufferSize)
    let currentWord ← findCurrentWord fuel buffer round.text
    let prevWord ← getPreviousWord fuel buffer currentWord
    let prevWord := prevWord.getD []
    guard (prevWord.length ≤ bufferSize)
    match scriptPath with
    | none => some none
    | some path =>
      if round.forks then do
        -- a word that fills its buffer has no NUL behind it
        guard (cmd.length < bufferSize ∧ prevWord.length < bufferSize)
        some (some (readWords (round.script
          { path := path
            cmd := cmd
            currentWord := buffer.drop (currentWord.getD 0)
            prevWord := prevWord
            compLine := snprintf (str "COMP_LINE=" ++ buffer)
            compPoint := snprintf (str "COMP_POINT=" ++ str (toString buffer.length)) })))
      else some none

def firstCall (fuel : Nat) (round : Round) (s : Statics) : Option (Option Str × Statics) :=
  (startRound fuel round).map fun
    | none => giveUp s
    | some words => deliver (load words s)

/-! ## Runs of calls -/

/-- A call of the generator, with `state` zero or not. -/
inductive Call
  | first (fuel : Nat) (round : Round)
  | next

def call : Call → Statics → Option (Option Str × Statics)
  | .first fuel round, s => firstCall fuel round s
  | .next, s => some (deliver s)

/-- The results of the calls, and the variables behind the last one. -/
def calls : List Call → Statics → Option (List (Option Str) × Statics)
  | [], s => some ([], s)
  | c :: rest, s => do
    let (r, s) ← call c s
    let (rs, s) ← calls rest s
    some (r :: rs, s)

/-- How many results have come since the last null. -/
def sinceNull (results : List (Option Str)) : Nat :=
  results.foldl (fun n r => if r.isSome then n + 1 else 0) 0

/-! ## The place in the array -/

variable {s s' : Statics}

/-- What further calls deliver. -/
def pending (s : Statics) : List Str := (s.completions.getD []).drop s.cmpIdx

/-- A call has come to the end of the array and left nothing of it, or it has taken
the front of what is pending and moved the index. -/
theorem deliver_cases (s : Statics) :
    (pending s = [] ∧ (deliver s).1 = none ∧ (deliver s).2 = freed) ∨
    ∃ m, pending s = m :: pending (deliver s).2 ∧ (deliver s).1 = some m ∧
      (deliver s).2.cmpIdx = s.cmpIdx + 1 := by
  obtain ⟨completions, cmpIdx, cmpLen, sized, idle⟩ := s
  cases completions with
  | none =>
    obtain rfl : cmpIdx = 0 := idle rfl
    obtain rfl : cmpLen = 0 := sized
    exact .inl ⟨rfl, rfl, rfl⟩
  | some completions =>
    obtain rfl : cmpLen = completions.length := sized
    by_cases hidx : cmpIdx ≥ completions.length
    · have hdeliver : deliver ⟨some completions, cmpIdx, completions.length, rfl, idle⟩ =
          (none, freed) := dif_pos hidx
      rw [hdeliver]
      exact .inl ⟨List.drop_eq_nil_of_le hidx, rfl, rfl⟩
    · have hlt : cmpIdx < completions.length := Nat.lt_of_not_le hidx
      have hdeliver : deliver ⟨some completions, cmpIdx, completions.length, rfl, idle⟩ =
          (some completions[cmpIdx],
            ⟨some completions, cmpIdx + 1, completions.length, rfl, fun h => by cases h⟩) :=
        dif_neg hidx
      rw [hdeliver]
      exact .inr ⟨_, List.drop_eq_getElem_cons hlt, rfl, rfl⟩

/-- The index counts the results since the last null. -/
def Counts (s : Statics) (r : Option Str × Statics) : Prop :=
  r.2.cmpIdx = if r.1.isSome then s.cmpIdx + 1 else 0

theorem counts_deliver (s : Statics) : Counts s (deliver s) := by
  obtain ⟨-, hnone, hfreed⟩ | ⟨m, -, hsome, hidx⟩ := deliver_cases s
  · rw [Counts, hnone, hfreed]
    rfl
  · rw [Counts, hsome, hidx]
    rfl

theorem giveUp_eq (s : Statics) : giveUp s = (none, freed) := by
  obtain ⟨completions, cmpIdx, cmpLen, sized, idle⟩ := s
  cases completions with
  | none =>
    obtain rfl : cmpIdx = 0 := idle rfl
    obtain rfl : cmpLen = 0 := sized
    rfl
  | some completions => rfl

theorem counts_call {c : Call} {r : Option Str × Statics} (h : call c s = some r) :
    Counts s r := by
  cases c with
  | first fuel round =>
    obtain ⟨started, -, rfl⟩ := Option.map_eq_some_iff.mp h
    cases started with
    | none =>
      simp only [giveUp_eq]
      rfl
    | some words => exact counts_deliver (load words s)
  | next =>
    obtain rfl := Option.some.inj h
    exact counts_deliver s

theorem calls_cons {c : Call} {rest : List Call} {rs : List (Option Str)}
    (h : calls (c :: rest) s = some (rs, s')) : ∃ r s₁ rs', call c s = some (r, s₁) ∧
      calls rest s₁ = some (rs', s') ∧ rs = r :: rs' := by
  rw [calls] at h
  obtain ⟨⟨r, s₁⟩, hcall, h⟩ := Option.bind_eq_some_iff.mp h
  obtain ⟨⟨rs', s₂⟩, hrest, h⟩ := Option.bind_eq_some_iff.mp h
  obtain ⟨rfl, rfl⟩ := Prod.mk.inj (Option.some.inj h)
  exact ⟨r, s₁, rs', hcall, hrest, rfl⟩

theorem cmpIdx_calls {cs : List Call} {rs : List (Option Str)} (h : calls cs s = some (rs, s')) :
    s'.cmpIdx = rs.foldl (fun n r => if r.isSome then n + 1 else 0) s.cmpIdx := by
  induction cs generalizing s rs with
  | nil =>
    obtain ⟨rfl, rfl⟩ := Prod.mk.inj (Option.some.inj h)
    rfl
  | cons c rest ih =>
    obtain ⟨r, s₁, rs', hcall, hrest, rfl⟩ := calls_cons h
    have hcount : s₁.cmpIdx = if r.isSome then s.cmpIdx + 1 else 0 := counts_call hcall
    rw [ih hrest, hcount]
    rfl

theorem deliver_pops (s : Statics) :
    Generator.Pops pending (fun _ => True) (deliver s) (pending s) := by
  obtain ⟨hpending, hnone, -⟩ | ⟨m, hpending, hsome, -⟩ := deliver_cases s
  · rw [hpending]
    exact hnone
  · rw [hpending]
    exact ⟨hsome, rfl, trivial⟩

theorem delivers_pending (s : Statics) : Generator.Delivers deliver (deliver s) (pending s) :=
  Generator.delivers_of_pops (fun s _ => deliver_pops s) (deliver_pops s)

theorem pending_load (words : List Str) (s : Statics) :
    pending (load words s) = words.drop s.cmpIdx := rfl

/-- **What a round delivers.** After any calls at all, of any rounds, a round that is
called to its end delivers the lines of its script without as many of the first ones as
completions have been taken since a call last returned null. -/
theorem delivers_iff {cs : List Call} {rs : List (Option Str)} (hcalls : calls cs freed = some (rs, s))
    {fuel : Nat} {round : Round} {words : List Str}
    (hround : startRound fuel round = some (some words)) {r : Option Str × Statics}
    (hfirst : firstCall fuel round s = some r) (l : List Str) :
    Generator.Delivers deliver r l ↔ l = words.drop (sinceNull rs) := by
  have hidx : s.cmpIdx = sinceNull rs := cmpIdx_calls hcalls
  rw [firstCall, hround] at hfirst
  obtain rfl := Option.some.inj hfirst
  have hall : Generator.Delivers deliver (deliver (load words s)) (words.drop (sinceNull rs)) := by
    rw [← hidx, ← pending_load]
    exact delivers_pending (load words s)
  constructor
  · intro h
    exact h.unique hall
  · intro h
    rw [h]
    exact hall

/-- `git a` with a script that writes its words, a line each. -/
def gitRound : Round where
  rlLineBuffer := some (str "git a")
  text := str "a"
  registry := registerCompletion (emptyRegistry (.replicate _ ⟨[], []⟩)) (str "git") (str "/c")
  forks := true
  script := fun c => c.cmd ++ str "\n" ++ c.currentWord ++ str "\n" ++ c.prevWord

/-- A round that is left behind its first result costs the next one a line. -/
theorem delivers_iff_left : ∃ rs s, calls [.first 3 gitRound] freed = some (rs, s) ∧
    ∃ r, firstCall 3 gitRound s = some r ∧
      Generator.Delivers deliver r [str "a", str "git"] := by
  have hround : startRound 3 gitRound = some (some [str "git", str "a", str "git"]) := by decide
  refine ⟨_, _, rfl, _, rfl, ?_⟩
  exact (@delivers_iff _ [.first 3 gitRound] _ rfl 3 gitRound _ hround _ rfl _).mpr rfl

/-! ## The lines of the script -/

/-- A line without its newline. -/
structure Line where
  bytes : Str
  nulFree : NulFree bytes
  noNewline : chr '\n' ∉ bytes

/-- Lines that end in a newline, and what is written behind the last newline. -/
def written (lines : List Line) (last : Line) : Str :=
  (lines.flatMap fun l => l.bytes ++ [chr '\n']) ++ last.bytes

/-- The lines as they should be offered. -/
def shown (lines : List Line) (last : Line) : List Str :=
  lines.map Line.bytes ++ if last.bytes = [] then [] else [last.bytes]

theorem readWords_nil : readWords [] = [] :=
  Loop.exec_of_inr _ rfl

theorem exec_readBody (input : Str) (words : List Str) :
    Loop.exec readBody (·.1.length) readBody_decreasing (input, words) =
      words ++ readWords input := by
  induction hn : input.length using Nat.strong_induction_on generalizing input words with
  | _ n ih =>
    cases input with
    | nil =>
      have hround : readBody ([], words) = .inr words := rfl
      rw [Loop.exec_of_inr _ hround, readWords_nil, List.append_nil]
    | cons c input =>
      have hlt := length_fgets_lt 1022 c input
      have hround : ∀ words, readBody (c :: input, words) =
          .inl ((fgets 1023 (c :: input)).2, words ++ [cutLine (fgets 1023 (c :: input)).1]) :=
        fun _ => rfl
      rw [readWords, Loop.exec_of_inl _ (hround words), Loop.exec_of_inl _ (hround []),
        ih _ (hn ▸ hlt) _ _ rfl, ih _ (hn ▸ hlt) _ ([] ++ _) rfl]
      simp

/-- A read takes a word and goes on with what is left. -/
theorem readWords_fgets {input : Str} (hne : input ≠ []) :
    readWords input = cutLine (fgets 1023 input).1 :: readWords (fgets 1023 input).2 := by
  obtain ⟨c, rest, rfl⟩ := List.exists_cons_of_ne_nil hne
  have hround : readBody (c :: rest, []) =
      .inl ((fgets 1023 (c :: rest)).2, [] ++ [cutLine (fgets 1023 (c :: rest)).1]) := rfl
  rw [readWords, Loop.exec_of_inl _ hround, exec_readBody]
  rfl

theorem cutLine_eq {l : Str} (hnul : NulFree l) (hline : chr '\n' ∉ l) (tail : Str)
    (htail : tail = [] ∨ tail = [chr '\n']) : cutLine (l ++ tail) = l := by
  induction l with
  | nil =>
    obtain rfl | rfl := htail
    · rfl
    · rfl
  | cons c l ih =>
    obtain ⟨hc, hl⟩ := List.forall_mem_cons.mp hnul
    obtain ⟨hne, hrest⟩ := List.ne_and_not_mem_of_not_mem_cons hline
    rw [List.cons_append, cutLine, List.takeWhile_cons_of_pos (by simp [hc, Ne.symm hne])]
    exact congrArg (c :: ·) (ih hl hrest)

/-- A line that has room in the buffer is read with its newline. -/
theorem fgets_line {room : Nat} {l : Str} (hline : chr '\n' ∉ l) (hlen : l.length < room)
    (rest : Str) : fgets room (l ++ chr '\n' :: rest) = (l ++ [chr '\n'], rest) := by
  induction l generalizing room with
  | nil =>
    obtain ⟨room, rfl⟩ := Nat.exists_eq_add_of_lt hlen
    rw [List.nil_append, fgets, if_pos rfl]
    rfl
  | cons c l ih =>
    obtain ⟨hne, hrest⟩ := List.ne_and_not_mem_of_not_mem_cons hline
    cases room with
    | zero => cases hlen
    | succ room =>
      rw [List.cons_append, fgets, if_neg (Ne.symm hne), ih hrest (Nat.lt_of_succ_lt_succ hlen)]
      rfl

/-- The front of a longer line fills the buffer. -/
theorem fgets_front {room : Nat} {l : Str} (hline : chr '\n' ∉ l) (hlen : room ≤ l.length)
    (rest : Str) : fgets room (l ++ rest) = (l.take room, l.drop room ++ rest) := by
  induction room generalizing l with
  | zero => rfl
  | succ room ih =>
    cases l with
    | nil => cases hlen
    | cons c l =>
      obtain ⟨hne, hrest⟩ := List.ne_and_not_mem_of_not_mem_cons hline
      rw [List.cons_append, fgets, if_neg (Ne.symm hne), ih hrest (Nat.le_of_succ_le_succ hlen)]
      rfl

theorem fgets_last {room : Nat} {l : Str} (hline : chr '\n' ∉ l) (hlen : l.length ≤ room) :
    fgets room l = (l, []) := by
  induction l generalizing room with
  | nil => cases room <;> rfl
  | cons c l ih =>
    obtain ⟨hne, hrest⟩ := List.ne_and_not_mem_of_not_mem_cons hline
    cases room with
    | zero => cases hlen
    | succ room =>
      rw [fgets, if_neg (Ne.symm hne), ih hrest (Nat.le_of_succ_le_succ hlen)]

/-- What a line leaves behind its first bytes. -/
def Line.drop (l : Line) (n : Nat) : Line where
  bytes := l.bytes.drop n
  nulFree := fun c hc => l.nulFree c (List.mem_of_mem_drop hc)
  noNewline := fun hc => l.noNewline (List.mem_of_mem_drop hc)

theorem readWords_short (l : Line) (h : l.bytes.length ≤ 1022) (rest : Str) :
    readWords (l.bytes ++ chr '\n' :: rest) = l.bytes :: readWords rest := by
  rw [readWords_fgets (by simp), fgets_line l.noNewline (Nat.lt_succ_of_le h),
    cutLine_eq l.nulFree l.noNewline _ (.inr rfl)]

/-- A line without room in the buffer is cut; its newline stays with the rest. -/
theorem readWords_long (l : Line) (h : 1023 ≤ l.bytes.length) {rest : Str} :
    readWords (l.bytes ++ rest) = l.bytes.take 1023 :: readWords ((l.drop 1023).bytes ++ rest) := by
  have hne : l.bytes ++ rest ≠ [] := by
    intro hnil
    rw [(List.append_eq_nil_iff.mp hnil).1] at h
    cases h
  have hnul : NulFree (l.bytes.take 1023) := fun c hc => l.nulFree c (List.mem_of_mem_take hc)
  have hline : chr '\n' ∉ l.bytes.take 1023 := fun hc => l.noNewline (List.mem_of_mem_take hc)
  have hcut := cutLine_eq hnul hline [] (.inl rfl)
  rw [List.append_nil] at hcut
  rw [readWords_fgets hne, fgets_front l.noNewline h, hcut]
  rfl

/-- Every line gives a word, and one that is cut gives more. -/
theorem length_readWords_line (l : Line) (rest : Str) :
    (readWords rest).length + 1 ≤ (readWords (l.bytes ++ chr '\n' :: rest)).length := by
  induction hn : l.bytes.length using Nat.strong_induction_on generalizing l with
  | _ n ih =>
    by_cases hshort : l.bytes.length ≤ 1022
    · rw [readWords_short l hshort]
      exact Nat.le_refl _
    · have hdrop : (l.drop 1023).bytes.length < n := by
        simp only [Line.drop, List.length_drop]
        omega
      have hrest := ih _ hdrop (l.drop 1023) rfl
      rw [readWords_long l (by omega), List.length_cons]
      omega

theorem length_readWords_long (l : Line) (h : 1023 ≤ l.bytes.length) (rest : Str) :
    (readWords rest).length + 1 < (readWords (l.bytes ++ chr '\n' :: rest)).length := by
  have hrest := length_readWords_line (l.drop 1023) rest
  rw [readWords_long l h, List.length_cons]
  omega

theorem readWords_last (last : Line) (h : last.bytes.length ≤ 1023) :
    readWords last.bytes = if last.bytes = [] then [] else [last.bytes] := by
  split
  · rename_i hnil
    rw [hnil, readWords_nil]
  · rename_i hne
    have hcut := cutLine_eq last.nulFree last.noNewline [] (.inl rfl)
    rw [List.append_nil] at hcut
    rw [readWords_fgets hne, fgets_last last.noNewline h, hcut, readWords_nil]

theorem readWords_last_long (last : Line) (h : 1023 < last.bytes.length) :
    1 < (readWords last.bytes).length := by
  have hlong := @readWords_long last (Nat.le_of_lt h) []
  have hne : (last.drop 1023).bytes ≠ [] := by
    rw [← List.length_pos_iff]
    simp only [Line.drop, List.length_drop]
    omega
  rw [List.append_nil, List.append_nil, readWords_fgets hne] at hlong
  rw [hlong, List.length_cons, List.length_cons]
  omega

theorem written_cons (l : Line) (lines : List Line) (last : Line) :
    written (l :: lines) last = l.bytes ++ chr '\n' :: written lines last := by
  simp [written]

theorem length_shown_le (lines : List Line) (last : Line) :
    (shown lines last).length ≤ (readWords (written lines last)).length := by
  induction lines with
  | nil =>
    by_cases hlast : last.bytes.length ≤ 1023
    · exact Nat.le_of_eq (congrArg List.length (readWords_last last hlast)).symm
    · have hlong := readWords_last_long last (Nat.lt_of_not_le hlast)
      have hone : (shown [] last).length ≤ 1 := by
        simp only [shown, List.map_nil, List.nil_append]
        split <;> simp
      exact Nat.le_trans hone (Nat.le_of_lt hlong)
  | cons l lines ih =>
    have hline := length_readWords_line l (written lines last)
    rw [written_cons]
    have hcons : (shown (l :: lines) last).length = (shown lines last).length + 1 := by
      simp [shown]
    omega

/-- Lines that have room in the buffer arrive as they are written. -/
theorem readWords_written {lines : List Line} {last : Line}
    (hlines : ∀ l ∈ lines, l.bytes.length ≤ 1022) (hlast : last.bytes.length ≤ 1023) :
    readWords (written lines last) = shown lines last := by
  induction lines with
  | nil => exact readWords_last last hlast
  | cons l lines ih =>
    obtain ⟨hshort, hrest⟩ := List.forall_mem_cons.mp hlines
    rw [written_cons, readWords_short l hshort, ih hrest]
    rfl

/-- **The lines that are offered whole.** The words are the lines that the script writes
exactly when each of them has room in the buffer with its newline. -/
theorem readWords_eq_shown_iff (lines : List Line) (last : Line) :
    readWords (written lines last) = shown lines last ↔
      (∀ l ∈ lines, l.bytes.length ≤ 1022) ∧ last.bytes.length ≤ 1023 := by
  refine ⟨fun heq => ?_, fun h => readWords_written h.1 h.2⟩
  induction lines with
  | nil =>
    have hshown : shown [] last = if last.bytes = [] then [] else [last.bytes] := rfl
    refine ⟨fun l hl => absurd hl List.not_mem_nil, ?_⟩
    by_contra hlast
    have hlong := readWords_last_long last (Nat.lt_of_not_le hlast)
    have hwritten : written [] last = last.bytes := rfl
    rw [← hwritten, heq, hshown] at hlong
    split at hlong
    · cases hlong
    · exact Nat.lt_irrefl 1 hlong
  | cons l lines ih =>
    have hshown : shown (l :: lines) last = l.bytes :: shown lines last := rfl
    rw [written_cons, hshown] at heq
    by_cases hshort : l.bytes.length ≤ 1022
    · rw [readWords_short l hshort] at heq
      obtain ⟨hlines, hlast⟩ := ih (List.cons.inj heq).2
      exact ⟨List.forall_mem_cons.mpr ⟨hshort, hlines⟩, hlast⟩
    · -- The rest gives no fewer words than it has lines, so the cut line is one too many.
      have hlong := length_readWords_long l (Nat.lt_of_not_le hshort) (written lines last)
      have hrest := length_shown_le lines last
      have hlen := congrArg List.length heq
      rw [List.length_cons] at hlen
      omega

end Shell.ExternalCompleter
