import Shell.Andor

/-! # The text of a job (join_andor in jobs.c)

The `join_` functions append to a string builder, which is taken as exact here: it
is the text so far. `join_andor` writes the operator of an element in front of its
pipeline, and the parser records it on the pipeline before it. -/
namespace Shell.JoinText
open Shell.CTypes Shell.Tokenlist Shell.Parsetypes Shell.Parser Shell.Andor

/-- The loops that write a separator behind every item but the last. -/
def joinLoop {α : Type} (item : α → Str → Str) (sep : Str) : List α → Str → Str
  | [], sb => sb
  | iter :: rest, sb =>
    let sb := item iter sb
    let sb := if rest ≠ [] then sb ++ sep else sb
    joinLoop item sep rest sb

/-- `sb_appendl` -/
def sbAppendl (sb : Str) (l : Int) : Str := sb ++ str (toString l)

def optostr (sb : Str) : AndOrOp → Str
  | .and => sb ++ str "&&"
  | .or => sb ++ str "||"
  | .none => sb

def joinArgs (args : List Str) (sb : Str) : Str :=
  joinLoop (fun arg sb => sb ++ arg) [chr ' '] args sb

def joinRedirect (redirect : Redirect) (sb : Str) : Str :=
  let sb := if redirect.fd > 2 then sbAppendl sb redirect.fd else sb
  let sb := match redirect.mode with
    | .in => sb ++ [chr '<']
    | .append =>
      let sb := if redirect.fd = 2 then sbAppendl sb redirect.fd else sb
      sb ++ str ">>"
    | .out =>
      let sb := if redirect.fd = 2 then sbAppendl sb redirect.fd else sb
      sb ++ [chr '>']
    | .heredoc => sb ++ str "<<"
    | .err => sb
  sb ++ [chr ' '] ++ redirect.target

/-- The loop of `join_command` over the assignments. -/
def joinAssignments : List Str → Str → Str
  | [], sb => sb
  | iter :: rest, sb => joinAssignments rest (sb ++ iter ++ [chr ' '])

def joinCommand (command : Command) (sb : Str) : Str :=
  let sb := joinAssignments command.assignmentList sb
  let sb := joinArgs command.argv sb
  let sb := if command.redirs.length > 0 then sb ++ [chr ' '] else sb
  joinLoop joinRedirect [chr ' '] command.redirs sb

def joinPipeline (pipeline : Pipeline) (sb : Str) : Str :=
  joinLoop joinCommand (str " | ") pipeline.commands sb

/-- The loop of `join_andor`, behind `i` elements. -/
def joinAndorLoop : Nat → List (AndOrElement Pipeline) → Str → Str
  | _, [], sb => sb
  | i, iter :: rest, sb =>
    let sb := optostr sb iter.op
    let sb := if i > 0 then sb ++ [chr ' '] else sb
    let sb := joinPipeline iter.pipeline sb
    let sb := if rest ≠ [] then sb ++ [chr ' '] else sb
    joinAndorLoop (i + 1) rest sb

def joinAndor (andOr : AndOr Pipeline) : Str := joinAndorLoop 0 andOr.elements []

/-! ## The texts -/

def opText : Connective → Str
  | .and => str "&&"
  | .or => str "||"

/-- The text of a pipeline by itself. -/
def pipelineText (pipeline : Pipeline) : Str := joinPipeline pipeline []

/-- A chain with each operator between the pipelines that it connects. -/
def chainText : Pipeline → List (Connective × Pipeline) → Str
  | p, [] => pipelineText p
  | p, (op, q) :: rest => pipelineText p ++ str " " ++ opText op ++ str " " ++ chainText q rest

/-! ## Texts are appended -/

theorem joinLoop_eq {α : Type} {item : α → Str → Str} (text : α → Str)
    (hitem : ∀ x sb, item x sb = sb ++ text x) (sep : Str) (l : List α) (sb : Str) :
    joinLoop item sep l sb = sb ++ sep.intercalate (l.map text) := by
  induction l generalizing sb with
  | nil => simp [joinLoop]
  | cons x rest ih =>
    rw [joinLoop, ih, hitem]
    cases rest with
    | nil => simp
    | cons y rest => simp [List.intercalate_cons_cons]

def modeText : RedirMode → Str
  | .in => str "<"
  | .out => str ">"
  | .append => str ">>"
  | .heredoc => str "<<"
  | .err => []

/-- The redirections whose descriptor is written. -/
def WritesFd (redirect : Redirect) : Prop :=
  redirect.fd > 2 ∨ redirect.fd = 2 ∧ (redirect.mode = .append ∨ redirect.mode = .out)

instance (redirect : Redirect) : Decidable (WritesFd redirect) := instDecidableOr

def redirectText (redirect : Redirect) : Str :=
  (if WritesFd redirect then str (toString redirect.fd) else []) ++ modeText redirect.mode ++
    [chr ' '] ++ redirect.target

theorem joinRedirect_eq (redirect : Redirect) (sb : Str) :
    joinRedirect redirect sb = sb ++ redirectText redirect := by
  obtain ⟨fd, mode, target⟩ := redirect
  by_cases hgt : fd > 2
  · have hne : fd ≠ 2 := by omega
    cases mode <;> simp [joinRedirect, redirectText, WritesFd, sbAppendl, modeText, hgt, hne] <;> rfl
  · by_cases heq : fd = 2
    · cases mode <;> simp [joinRedirect, redirectText, WritesFd, sbAppendl, modeText, heq] <;> rfl
    · cases mode <;> simp [joinRedirect, redirectText, WritesFd, modeText, hgt, heq] <;> rfl

theorem joinAssignments_eq (l : List Str) (sb : Str) :
    joinAssignments l sb = sb ++ l.flatMap (· ++ [chr ' ']) := by
  induction l generalizing sb with
  | nil => simp [joinAssignments]
  | cons iter rest ih =>
    rw [joinAssignments, ih]
    simp

def commandText (command : Command) : Str :=
  command.assignmentList.flatMap (· ++ [chr ' ']) ++ [chr ' '].intercalate command.argv ++
    (if command.redirs.length > 0 then [chr ' '] else []) ++
    [chr ' '].intercalate (command.redirs.map redirectText)

theorem joinCommand_eq (command : Command) (sb : Str) :
    joinCommand command sb = sb ++ commandText command := by
  have hargs : ∀ sb, joinArgs command.argv sb = sb ++ [chr ' '].intercalate command.argv := by
    intro sb
    have htext := joinLoop_eq id
      (fun arg sb => (rfl : (fun arg sb : Str => sb ++ arg) arg sb = sb ++ id arg))
      [chr ' '] command.argv sb
    rwa [List.map_id] at htext
  have hredirs := joinLoop_eq redirectText joinRedirect_eq [chr ' '] command.redirs
  simp only [joinCommand, hredirs, hargs, joinAssignments_eq, commandText]
  split <;> simp

theorem joinPipeline_eq (pipeline : Pipeline) (sb : Str) :
    joinPipeline pipeline sb = sb ++ pipelineText pipeline := by
  rw [pipelineText, joinPipeline, joinPipeline, joinLoop_eq commandText joinCommand_eq,
    joinLoop_eq commandText joinCommand_eq, List.nil_append]

/-! ## The text of a chain -/

theorem optostr_toOp (sb : Str) (op : Connective) : optostr sb op.toOp = sb ++ opText op := by
  cases op <;> rfl

/-- What a round of `join_andor` appends. -/
theorem joinAndorLoop_cons (i : Nat) (iter : AndOrElement Pipeline)
    (rest : List (AndOrElement Pipeline)) (sb : Str) :
    joinAndorLoop i (iter :: rest) sb =
      joinAndorLoop (i + 1) rest (sb ++ optostr [] iter.op ++ (if i > 0 then [chr ' '] else []) ++
        pipelineText iter.pipeline ++ (if rest ≠ [] then [chr ' '] else [])) := by
  have hop : optostr sb iter.op = sb ++ optostr [] iter.op := by
    cases iter.op with
    | none => exact (List.append_nil sb).symm
    | and => rfl
    | or => rfl
  simp only [joinAndorLoop, hop, joinPipeline_eq]
  congr 1
  split <;> split <;> simp

theorem joinAndorLoop_prefix (i : Nat) (l : List (AndOrElement Pipeline)) (sb : Str) :
    sb <+: joinAndorLoop i l sb := by
  induction l generalizing i sb with
  | nil => exact List.prefix_rfl
  | cons iter rest ih =>
    rw [joinAndorLoop_cons]
    refine List.IsPrefix.trans ?_ (ih (i + 1) _)
    simp only [List.append_assoc]
    exact List.prefix_append _ _

/-- The last byte of an operator is no blank. -/
theorem opText_ne (op : Connective) (text : Str) :
    opText op ++ text ++ str " " ≠ text ++ str " " ++ opText op := by
  obtain ⟨c, hc, hop⟩ : ∃ c, c ≠ chr ' ' ∧ opText op = [c] ++ [c] := by
    cases op with
    | and => exact ⟨chr '&', by decide, rfl⟩
    | or => exact ⟨chr '|', by decide, rfl⟩
  intro heq
  have hlast := congrArg List.getLast? heq
  rw [hop, ← List.append_assoc (text ++ str " "), List.getLast?_concat] at hlast
  change ([c] ++ [c] ++ text ++ [chr ' ']).getLast? = some c at hlast
  rw [List.getLast?_concat] at hlast
  exact hc (Option.some.inj hlast).symm

theorem joinAndor_single (p : Pipeline) : joinAndorLoop 0 (marked p []) [] = pipelineText p := by
  simp [marked, joinAndorLoop, optostr, joinPipeline_eq]

/-- The text of a chain with an operator starts with the operator. -/
theorem joinAndor_several (p q : Pipeline) (op : Connective) (rest : List (Connective × Pipeline)) :
    joinAndorLoop 0 (marked p ((op, q) :: rest)) [] ≠ chainText p ((op, q) :: rest) := by
  have hmore : marked q rest ≠ [] := by
    cases rest with
    | nil => exact List.cons_ne_nil _ _
    | cons head rest => exact List.cons_ne_nil _ _
  have htext : opText op ++ pipelineText p ++ str " " <+:
      joinAndorLoop 0 (marked p ((op, q) :: rest)) [] := by
    rw [marked, joinAndorLoop_cons, optostr_toOp, if_neg (Nat.lt_irrefl 0), if_pos hmore]
    simp only [List.nil_append, List.append_nil]
    exact joinAndorLoop_prefix _ _ _
  have hchain : pipelineText p ++ str " " ++ opText op <+: chainText p ((op, q) :: rest) := by
    rw [chainText, List.append_assoc _ (str " ") (chainText q rest)]
    exact List.prefix_append _ _
  intro heq
  rw [heq] at htext
  have hlength : (opText op ++ pipelineText p ++ str " ").length =
      (pipelineText p ++ str " " ++ opText op).length := by
    simp only [List.length_append]
    omega
  have hpre := List.prefix_of_prefix_length_le htext hchain (Nat.le_of_eq hlength)
  exact opText_ne op _ (hpre.eq_of_length hlength)

/-- **When the text of a parsed chain is the chain.** It is for a single pipeline; with an
operator the text starts with the first one. -/
theorem joinAndor_eq_chainText_iff {p : List Token} {rest : List (Token × List Token)}
    (hp : PipelineTokens p)
    (hrest : ∀ q ∈ rest, isAndOrOp q.1.type = true ∧ PipelineTokens q.2) {stop : Token}
    (hstop : isAndOrTok stop.type = false) {more : List Token} {ts : TokenStream}
    (htokens : ts.rest = chainTokens p rest ++ stop :: more) {fuel : Nat}
    (hfuel : (chainTokens p rest).length < fuel) :
    ∃ ao ts', parseAndOr fuel ts = .ok (ao, ts') ∧
      (joinAndor ao = chainText (refPipeline p) (chainPipelines rest) ↔ rest = []) := by
  obtain ⟨hall, htargeted⟩ := chainTokens_run hp hrest
  obtain ⟨ts', hrun, -⟩ := parseAndOr_spec fuel _ hall htargeted hfuel ts stop more htokens hstop
  refine ⟨_, ts', hrun, ?_⟩
  rw [joinAndor, refAndOr_chainTokens hp hrest]
  cases rest with
  | nil => exact ⟨fun _ => rfl, fun _ => joinAndor_single _⟩
  | cons head rest =>
    refine ⟨fun heq => absurd heq ?_, fun hnil => by cases hnil⟩
    exact joinAndor_several _ _ _ _

/-! ## `a && b` -/

def wordToken (b : UInt8) : Token := { type := .word, value := [b], fd := 0 }

def markToken (type : TokenType) : Token := { type := type, value := [], fd := 0 }

theorem pipelineTokens_word (b : UInt8) : PipelineTokens [wordToken b] where
  allowed := List.forall_mem_singleton.mpr rfl
  targeted := .plain rfl .nil

/-- The job of `a &`. -/
theorem joinAndor_eq_chainText_iff_single :
    let ts : TokenStream := ⟨[wordToken 97, markToken .amp, markToken .eof], 0, by decide⟩
    ∃ ao ts', parseAndOr 2 ts = .ok (ao, ts') ∧
      joinAndor ao = chainText (refPipeline [wordToken 97]) [] := by
  intro ts
  obtain ⟨ao, ts', hrun, hiff⟩ := @joinAndor_eq_chainText_iff [wordToken 97] []
    (pipelineTokens_word 97) (by simp) (markToken .amp) rfl [markToken .eof] ts rfl 2 (by decide)
  exact ⟨ao, ts', hrun, hiff.mpr rfl⟩

/-- The job of `a && b &` is shown as `&&a  b`. -/
theorem joinAndor_and_in_front :
    let ts : TokenStream :=
      ⟨[wordToken 97, markToken .and, wordToken 98, markToken .amp, markToken .eof], 0, by decide⟩
    let ao : AndOr Pipeline := { count := 2, elements :=
      [⟨refPipeline [wordToken 97], .and⟩, ⟨refPipeline [wordToken 98], .none⟩] }
    (parseAndOr 4 ts).map Prod.fst = .ok ao ∧ joinAndor ao = str "&&a  b" ∧
      chainText (refPipeline [wordToken 97]) [(.and, refPipeline [wordToken 98])] =
        str "a && b" := by
  intro ts ao
  exact ⟨by decide, by decide, by decide⟩

end Shell.JoinText
