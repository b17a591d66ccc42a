import Shell.CommandLine
import Shell.Exec
import Shell.ExpandQuoting

/-! # Single-quoted arguments

A line of single-quoted texts is lexed to words, parsed as one command and
expanded to the texts. The expansion is exact over the ideal string builder,
and over the one of stringbuilder.c as long as its size arithmetic does not
wrap. -/
namespace Shell.QuotedArguments
open Shell.CTypes Shell.Tokenlist Shell.Parsetypes Shell.Lexer Shell.Parser
open Shell.Expand Shell.Exec Shell.Stringbuilder Shell.Lib.Traverse

variable {β σ : Type}

def quotedArg (a : Str) : Str := chr '\'' :: (a ++ [chr '\''])

/-- Every argument in single quotes, with single spaces between them. -/
def quotedLine (args : List Str) : Str := [chr ' '].intercalate (args.map quotedArg)

/-- What single quotes around an argument can protect. -/
def Quotable (a : Str) : Prop := ∀ c ∈ a, c ≠ 0 ∧ c ≠ chr '\'' ∧ c ≠ 255

instance (a : Str) : Decidable (Quotable a) :=
  List.decidableBAll (fun c => c ≠ 0 ∧ c ≠ chr '\'' ∧ c ≠ 255) a

/-! ## The tokens of the line -/

def argItem (a : Str) : Item := .word [.quoted .singleQuoted a]

def argItems : List Str → List (Item × Str)
  | [] => []
  | [a] => [(argItem a, [])]
  | a :: b :: rest => (argItem a, [chr ' ']) :: argItems (b :: rest)

theorem argItem_bytes (a : Str) : (argItem a).bytes = quotedArg a := by
  simp [argItem, Item.bytes, wordBytes, Piece.bytes, quotedArg, quoteByte]

theorem argItem_token (a : Str) :
    (argItem a).token = ⟨wordType (quotedArg a), quotedArg a, 0⟩ := by
  rw [← argItem_bytes]
  rfl

theorem argItem_valid {a : Str} (h : Quotable a) : (argItem a).Valid := by
  refine ⟨by simp, fun piece hp => ?_⟩
  rw [List.mem_singleton.mp hp]
  exact ⟨by decide, fun c hc => ⟨(h c hc).2.1, (h c hc).1, (h c hc).2.2⟩⟩

theorem quotedLine_cons (a b : Str) (rest : List Str) :
    quotedLine (a :: b :: rest) = quotedArg a ++ ([chr ' '] ++ quotedLine (b :: rest)) := by
  simp [quotedLine, List.intercalate]

theorem argItems_eq (args : List Str) : argItems args = singleSpaced (args.map argItem) := by
  induction args using argItems.induct with
  | case1 => rfl
  | case2 a => rfl
  | case3 a b rest ih =>
    rw [argItems, ih]
    rfl

theorem render_argItems (args : List Str) : render (argItems args) = quotedLine args := by
  have hbytes : Item.bytes ∘ argItem = quotedArg := funext argItem_bytes
  rw [argItems_eq, render_singleSpaced, List.map_map, hbytes, quotedLine]

theorem wordType_quotedArg {a : Str} (h : chr '=' ∉ a) : wordType (quotedArg a) = .word := by
  refine if_neg ?_
  simpa [quotedArg, chr] using h

theorem lexAndParse_quotedLine (beyond : Nat → UInt8) {a : Str} {args : List Str}
    (hargs : ∀ x ∈ a :: args, Quotable x) (heq : chr '=' ∉ a) :
    lexAndParse beyond (quotedLine (a :: args)) = .ok (some (singleCommand
      { argv := (a :: args).map quotedArg, assignmentList := [], redirs := [] })) := by
  have hvalid : ∀ i ∈ argItems (a :: args), i.1.Valid := by
    rw [argItems_eq]
    exact forall_singleSpaced (List.forall_mem_map.mpr fun x hx => argItem_valid (hargs x hx))
  have htokens : (argItems (a :: args)).map (·.1.token) =
      (argItem a).token :: args.map fun x => (argItem x).token := by
    rw [argItems_eq, map_singleSpaced, List.map_map]
    rfl
  have hspaced : Spaced (argItems (a :: args)) := argItems_eq _ ▸ spaced_singleSpaced _
  have hfirst : (argItem a).token.type = .word := by rw [argItem_token, wordType_quotedArg heq]
  have hwords : ∀ t ∈ args.map fun x => (argItem x).token, isWordTok t.type = true := by
    intro t ht
    obtain ⟨x, -, rfl⟩ := List.mem_map.mp ht
    rw [argItem_token]
    exact isWordTok_wordType _
  have hall : ∀ t ∈ (argItem a).token :: args.map fun x => (argItem x).token,
      isWordTok t.type = true := by
    intro t ht
    rcases List.mem_cons.mp ht with rfl | ht
    · rw [hfirst]; rfl
    · exact hwords t ht
  have hvalues : ((argItem a).token :: args.map fun x => (argItem x).token).map Token.value =
      (a :: args).map quotedArg := by
    simp [argItem_token]
  have hparse := lexAndParse_render beyond hvalid hspaced
    (by rw [htokens]; exact fun t ht => (isWordTok_not (hall t ht)).2.2.2.2)
    (by rw [htokens]; exact targeted_words fun t ht => (isWordTok_not (hall t ht)).1)
  rw [← render_argItems, hparse, htokens, refList_words hfirst hwords, hvalues]

/-! ## The expansion -/

theorem expandList_single {b : Builder β} {env : Env σ} {words argv : List Str} {s : σ}
    (h : mapState (expandWord b env) words s = some (argv, s)) :
    expandList b env (singleCommand { argv := words, assignmentList := [], redirs := [] }) s =
      some (singleCommand { argv := argv, assignmentList := [], redirs := [] }, s) := by
  have hcommand : expandCommand b env { argv := words, assignmentList := [], redirs := [] } s =
      some ({ argv := argv, assignmentList := [], redirs := [] }, s) := by
    simp only [expandCommand, expandAssignments, expandRedirections, expandArgs, mapState,
      Option.bind_eq_bind, Option.bind_some, h]
    rfl
  simp only [expandList, singleCommand, mapState, expandListElement, expandAndor, expandElement,
    expandPipeline, hcommand]
  rfl

theorem expandList_quotedArgs {b : Builder β} {env : Env σ} {args : List Str} {s : σ}
    (hquote : ∀ x ∈ args, chr '\'' ∉ x) (hcopy : ∀ x ∈ args, b.copy (x.length + 2) x = some x) :
    expandList b env
        (singleCommand { argv := args.map quotedArg, assignmentList := [], redirs := [] }) s =
      some (singleCommand { argv := args, assignmentList := [], redirs := [] }, s) := by
  refine expandList_single ?_
  have hquiet : ∀ x ∈ args, expandWord b env (quotedArg x) s = some (x, s) := by
    intro x hx
    rw [quotedArg, expandWord_single (hquote x hx), hcopy x hx]
    rfl
  have hmap := mapState_quiet (e := fun x => x) hquiet
  rwa [List.map_id'] at hmap

theorem length_le_quotedLine {args : List Str} {x : Str} (hx : x ∈ args) :
    x.length + 2 ≤ (quotedLine args).length := by
  have hself : ∀ a : Str, (quotedArg a).length = a.length + 2 := fun a => by simp [quotedArg]
  induction args using argItems.induct with
  | case1 => cases hx
  | case2 a =>
    rw [List.mem_singleton.mp hx, ← hself]
    simp [quotedLine]
  | case3 a b rest ih =>
    rw [quotedLine_cons, List.length_append, List.length_append, hself]
    rcases List.mem_cons.mp hx with rfl | hx
    · omega
    · have := ih hx
      omega

/-- **Single quotes protect arguments through lexer, parser and expansion.** The
line of the quoted texts is one command without assignments and redirections,
which expands to exactly the texts, whatever the variables are. -/
theorem expandList_quotedLine {a : Str} {args : List Str} (hargs : ∀ x ∈ a :: args, Quotable x)
    (heq : chr '=' ∉ a) (beyond : Nat → UInt8) (env : Env σ) (s : σ) :
    ∃ list, lexAndParse beyond (quotedLine (a :: args)) = .ok (some list) ∧
      expandList exact env list s =
        some (singleCommand { argv := a :: args, assignmentList := [], redirs := [] }, s) ∧
      ((quotedLine (a :: args)).length < 2 ^ 63 → ∀ garbage,
        expandList (heap garbage) env list s =
          some (singleCommand { argv := a :: args, assignmentList := [], redirs := [] }, s)) := by
  have hquote : ∀ x ∈ a :: args, chr '\'' ∉ x := fun x hx hmem => (hargs x hx _ hmem).2.1 rfl
  refine ⟨_, lexAndParse_quotedLine beyond hargs heq, ?_, fun hlen garbage => ?_⟩
  · exact expandList_quotedArgs hquote fun x _ => exact_copy _ x
  · refine expandList_quotedArgs hquote fun x hx => ?_
    have hle := length_le_quotedLine hx
    exact heap_copy garbage (fun c hc => (hargs x hx c hc).1) (by omega) (by omega)

/-- `'a b' '$x'` with `x` bound: two arguments, and no expansion. -/
theorem expandList_quotedLine_dollar :
    let env : Env Unit := { varLookup := fun _ _ => some [121],
                            varLookupn := fun _ _ _ => some [121],
                            varAssign := fun s _ _ => s,
                            fresh := fun _ => (fun _ => 1, fun _ => 1),
                            cmdsub := fun _ s => some ([], s) }
    ∃ list, lexAndParse (fun _ => 0) [39, 97, 32, 98, 39, 32, 39, 36, 120, 39] =
        .ok (some list) ∧
      expandList exact env list () = some (singleCommand
        { argv := [str "a b", str "$x"], assignmentList := [], redirs := [] }, ()) := by
  intro env
  obtain ⟨list, hparse, hexact, -⟩ := @expandList_quotedLine Unit (str "a b") [str "$x"]
    (by decide) (by decide) (fun _ => 0) env ()
  exact ⟨list, hparse, hexact⟩

end Shell.QuotedArguments
