import Shell.Lib.SeparatedLanguage
import Shell.ParserReference

/-! # What the parser accepts

The grammar of the command line as languages of tokens. `parse_list` has no
path to a null list, so it takes every stream; which of these the grammar
derives can be told from neighbouring tokens. -/
namespace Shell.Parser
open Shell.CTypes Shell.Tokenlist Shell.Parsetypes Shell.Lib.Separated Shell.Lib.SeparatedLanguage
open Computability

/-! ## The grammar -/

namespace Grammar

/-- A word, an assignment word, or a redirection with its target. -/
def argument : Language Token :=
  letter (fun t => isWordTok t.type) +
    letter (fun t => isRedirect t.type) * letter (fun t => t.type == .word)

def command : Language Token := argument * argument∗

def pipeline : Language Token := sepBy command (letter fun t => isPipe t.type)

def andOr : Language Token := sepBy pipeline (letter fun t => isAndOrOp t.type)

def separator : Language Token := letter fun t => isListSep t.type

def list : Language Token := sepBy andOr separator * (1 + separator)

end Grammar

/-! ## What it looks like on the tokens -/

def isOperand (t : Token) : Bool := isCommandTok t.type

/-- No operator is first or directly behind another one, and only `;` and `&` may
be last. -/
structure WellPlaced (l : List Token) : Prop where
  listToks : ∀ t ∈ l, isListTok t.type = true
  first : ∀ t ∈ l.head?, isCommandTok t.type = true
  apart : l.IsChain fun a b => isCommandTok a.type = true ∨ isCommandTok b.type = true
  last : ∀ t ∈ l.getLast?, isCommandTok t.type = true ∨ isListSep t.type = true

theorem isCommandTok_of_isListSep {type : TokenType} (h : isListSep type = true) :
    isCommandTok type = false :=
  not_isCommandTok_of_not_isAndOrTok (isAndOrTok_of_isListSep h)

theorem isCommandTok_of_isAndOrOp {type : TokenType} (h : isAndOrOp type = true) :
    isCommandTok type = false :=
  (Bool.or_eq_false_iff.mp (isPipelineTok_of_isAndOrOp h)).1

theorem WellPlaced.of_spaced {l : List Token} (hall : ∀ t ∈ l, isListTok t.type = true)
    (h : Spaced isOperand l) : WellPlaced l where
  listToks := hall
  first := h.first
  apart := h.apart
  last := fun t ht => .inl (h.last t ht)

theorem WellPlaced.append_sep {l : List Token} {s : Token}
    (hall : ∀ t ∈ l, isListTok t.type = true) (h : Spaced isOperand l)
    (hs : isListSep s.type = true) : WellPlaced (l ++ [s]) where
  listToks := by
    intro t ht
    rcases List.mem_append.mp ht with ht | ht
    · exact hall t ht
    · rw [List.mem_singleton.mp ht, isListTok, hs, Bool.or_true]
  first := fun t ht => h.first t (by rwa [List.head?_append_of_ne_nil _ h.ne_nil] at ht)
  apart := List.isChain_append.mpr
    ⟨h.apart, List.isChain_singleton s, fun a ha _ _ => .inl (h.last a ha)⟩
  last := by
    intro t ht
    obtain rfl : s = t := by simpa using ht
    exact .inr hs

/-- A spaced run, possibly with a closing separator. -/
theorem WellPlaced.cases {l : List Token} (h : WellPlaced l) (hne : l ≠ []) :
    Spaced isOperand l ∨ ∃ m s, l = m ++ [s] ∧ Spaced isOperand m ∧ isListSep s.type = true := by
  obtain ⟨m, s, rfl⟩ : ∃ m s, l = m ++ [s] := ⟨_, _, (List.dropLast_append_getLast hne).symm⟩
  have hlast := h.last s (by simp)
  cases hs : isListSep s.type with
  | false =>
    rw [hs] at hlast
    refine .inl ⟨hne, h.first, fun a ha => ?_, h.apart⟩
    obtain rfl : s = a := by simpa using ha
    exact hlast.resolve_right Bool.false_ne_true
  | true =>
    have hnot : isCommandTok s.type = false := isCommandTok_of_isListSep hs
    obtain ⟨hchain, -, hjoin⟩ := List.isChain_append.mp h.apart
    have hm : m ≠ [] := by
      rintro rfl
      have := h.first s rfl
      rw [hnot] at this
      cases this
    refine .inr ⟨m, s, rfl, ⟨hm, fun a ha => h.first a ?_, fun a ha => ?_, hchain⟩, hs⟩
    · rwa [List.head?_append_of_ne_nil _ hm]
    · exact (hjoin a ha s rfl).resolve_right (by simp [hnot])

/-! ## From a derivation to the tokens -/

theorem isCommandTok_of_mem_argument {c : List Token} (hc : c ∈ Grammar.argument) :
    c ≠ [] ∧ ∀ t ∈ c, isCommandTok t.type = true := by
  rcases hc with ⟨t, ht, rfl⟩ | hc
  · refine ⟨by simp, fun u hu => ?_⟩
    rw [List.mem_singleton.mp hu, isCommandTok]
    exact Bool.or_eq_true_iff.mpr (.inl ht)
  · obtain ⟨_, ⟨r, hr, rfl⟩, _, ⟨w, hw, rfl⟩, rfl⟩ := Language.mem_mul.mp hc
    have hw : w.type = .word := beq_iff_eq.mp hw
    refine ⟨by simp, fun u hu => ?_⟩
    rcases List.mem_cons.mp hu with rfl | hu
    · exact Bool.or_eq_true_iff.mpr (.inr hr)
    · rw [List.mem_singleton.mp hu, hw]
      rfl

theorem isCommandTok_of_mem_command {c : List Token} (hc : c ∈ Grammar.command) :
    c ≠ [] ∧ ∀ t ∈ c, isCommandTok t.type = true := by
  obtain ⟨a, ha, _, hrest, rfl⟩ := Language.mem_mul.mp hc
  obtain ⟨more, rfl, hmore⟩ := Language.mem_kstar.mp hrest
  obtain ⟨hne, htoks⟩ := isCommandTok_of_mem_argument ha
  refine ⟨List.append_ne_nil_of_left_ne_nil hne _, fun t ht => ?_⟩
  rcases List.mem_append.mp ht with ht | ht
  · exact htoks t ht
  · obtain ⟨b, hb, htb⟩ := List.mem_flatten.mp ht
    exact (isCommandTok_of_mem_argument (hmore b hb)).2 t htb

theorem spaced_of_mem_command {c : List Token} (hc : c ∈ Grammar.command) : Spaced isOperand c :=
  let ⟨hne, htoks⟩ := isCommandTok_of_mem_command hc
  .of_forall hne htoks

theorem spaced_of_mem_andOr {l : List Token} (hl : l ∈ Grammar.andOr) : Spaced isOperand l :=
  spaced_of_mem_sepBy (fun _ hm => spaced_of_mem_sepBy (fun _ => spaced_of_mem_command) hm) hl

theorem isPipelineTok_of_mem_pipeline {l : List Token} (hl : l ∈ Grammar.pipeline) :
    ∀ t ∈ l, isPipelineTok t.type = true :=
  forall_mem_of_mem_sepBy
    (fun _ hc t ht => Bool.or_eq_true_iff.mpr (.inl ((isCommandTok_of_mem_command hc).2 t ht)))
    (fun _ ht => Bool.or_eq_true_iff.mpr (.inr ht)) hl

theorem isAndOrTok_of_mem_andOr {l : List Token} (hl : l ∈ Grammar.andOr) :
    ∀ t ∈ l, isAndOrTok t.type = true :=
  forall_mem_of_mem_sepBy
    (fun _ hc t ht => Bool.or_eq_true_iff.mpr (.inl (isPipelineTok_of_mem_pipeline hc t ht)))
    (fun _ ht => Bool.or_eq_true_iff.mpr (.inr ht)) hl

theorem wellPlaced_of_mem_list {l : List Token} (hl : l ∈ Grammar.list) : WellPlaced l := by
  obtain ⟨m, hm, tail, htail, rfl⟩ := Language.mem_mul.mp hl
  have hspaced : Spaced isOperand m := spaced_of_mem_sepBy (fun _ => spaced_of_mem_andOr) hm
  have htoks : ∀ t ∈ m, isListTok t.type = true := forall_mem_of_mem_sepBy
    (fun _ hc t ht => Bool.or_eq_true_iff.mpr (.inl (isAndOrTok_of_mem_andOr hc t ht)))
    (fun _ ht => Bool.or_eq_true_iff.mpr (.inr ht)) hm
  rcases htail with htail | ⟨s, hs, rfl⟩
  · obtain rfl : tail = [] := htail
    rw [List.append_nil]
    exact .of_spaced htoks hspaced
  · exact .append_sep htoks hspaced hs

/-! ## From the tokens to a derivation -/

/-- A spaced run of the tokens of one level. -/
structure LevelRun (allowed : TokenType → Bool) (l : List Token) : Prop where
  spaced : Spaced isOperand l
  toks : ∀ t ∈ l, allowed t.type = true
  targeted : Targeted l

/-- The pieces between the separators of one level are runs of the level below. -/
theorem LevelRun.pieces {isSep allowed : TokenType → Bool} {l : List Token}
    (hsep : ∀ type, isSep type = true → isCommandTok type = false)
    (h : LevelRun (fun type => allowed type || isSep type) l) :
    ∀ c ∈ l.splitOnP (fun t => isSep t.type), LevelRun allowed c := by
  obtain ⟨hspaced, htoks, hwf⟩ := h
  induction l using pieces_induction (p := fun t : Token => isSep t.type) with
  | single c hc =>
    intro d hd
    rw [List.splitOnP_eq_singleton hc, List.mem_singleton] at hd
    subst hd
    exact ⟨hspaced, fun t ht =>
      (Bool.or_eq_true_iff.mp (htoks t ht)).resolve_right (by simp [hc t ht]), hwf⟩
  | cons c s l hc hs ih =>
    obtain ⟨hspacedc, hspacedl⟩ := hspaced.cut (hsep _ hs)
    obtain ⟨hwfc, hwfl⟩ := hwf.cut (hsep _ hs)
    intro d hd
    rw [List.splitOnP_append_cons_of_forall_mem hc s hs] at hd
    rcases List.mem_cons.mp hd with rfl | hd
    · exact ⟨hspacedc, fun t ht => (Bool.or_eq_true_iff.mp (htoks t (by simp [ht]))).resolve_right
        (by simp [hc t ht]), hwfc⟩
    · exact ih hspacedl (fun t ht => htoks t (by simp [ht])) hwfl d hd

theorem mem_kstar_argument {c : List Token} (hwf : Targeted c)
    (hc : ∀ t ∈ c, isCommandTok t.type = true) : c ∈ Grammar.argument∗ := by
  rw [← Language.one_add_self_mul_kstar_eq_kstar]
  induction hwf with
  | nil => exact Or.inl rfl
  | @redir r w l hr hw _ ih =>
    have hredir : [r] ∈ letter fun t : Token => isRedirect t.type := mem_letter hr
    have htarget : [w] ∈ letter fun t : Token => t.type == .word := mem_letter (beq_iff_eq.mpr hw)
    refine Or.inr (Language.append_mem_mul (a := [r, w]) (Or.inr ?_) ?_)
    · exact Language.append_mem_mul hredir htarget
    · rw [← Language.one_add_self_mul_kstar_eq_kstar]
      exact ih fun t ht => hc t (by simp [ht])
  | @plain t l ht _ ih =>
    have hword : isWordTok t.type = true := by
      rcases Bool.or_eq_true_iff.mp (hc t (by simp)) with h | h
      · exact h
      · rw [ht] at h
        cases h
    refine Or.inr (Language.append_mem_mul (a := [t]) (Or.inl (mem_letter hword)) ?_)
    rw [← Language.one_add_self_mul_kstar_eq_kstar]
    exact ih fun t ht => hc t (by simp [ht])

theorem LevelRun.mem_command {c : List Token} (h : LevelRun isCommandTok c) :
    c ∈ Grammar.command := by
  have hstar := mem_kstar_argument h.targeted h.toks
  rw [← Language.one_add_self_mul_kstar_eq_kstar] at hstar
  exact hstar.resolve_left h.spaced.ne_nil

theorem LevelRun.mem_pipeline {l : List Token} (h : LevelRun isPipelineTok l) :
    l ∈ Grammar.pipeline :=
  mem_sepBy_of_pieces fun c hc =>
    (LevelRun.pieces (fun _ => isCommandTok_of_isPipe) h c hc).mem_command

theorem LevelRun.mem_andOr {l : List Token} (h : LevelRun isAndOrTok l) : l ∈ Grammar.andOr :=
  mem_sepBy_of_pieces fun c hc =>
    (LevelRun.pieces (fun _ => isCommandTok_of_isAndOrOp) h c hc).mem_pipeline

theorem LevelRun.mem_sepBy_andOr {l : List Token} (h : LevelRun isListTok l) :
    l ∈ sepBy Grammar.andOr Grammar.separator :=
  mem_sepBy_of_pieces fun c hc =>
    (LevelRun.pieces (fun _ => isCommandTok_of_isListSep) h c hc).mem_andOr

theorem mem_list_of_wellPlaced {l : List Token} (hne : l ≠ []) (h : WellPlaced l)
    (hwf : Targeted l) : l ∈ Grammar.list := by
  rcases h.cases hne with hspaced | ⟨m, s, rfl, hspaced, hs⟩
  · have hl := LevelRun.mem_sepBy_andOr ⟨hspaced, h.listToks, hwf⟩
    rw [← List.append_nil l]
    exact Language.append_mem_mul hl (Or.inl rfl)
  · have hm := LevelRun.mem_sepBy_andOr ⟨hspaced, fun t ht => h.listToks t (by simp [ht]),
      (hwf.cut (isCommandTok_of_isListSep hs)).1⟩
    exact Language.append_mem_mul hm (Or.inr (mem_letter hs))

theorem mem_list_iff {l : List Token} (hwf : Targeted l) :
    l = [] ∨ l ∈ Grammar.list ↔ WellPlaced l := by
  constructor
  · rintro (rfl | hl)
    · exact ⟨by simp, by simp, .nil, by simp⟩
    · exact wellPlaced_of_mem_list hl
  · intro h
    by_cases hne : l = []
    · exact .inl hne
    · exact .inr (mem_list_of_wellPlaced hne h hwf)

/-! ## What the commands of the list hold -/

def isEmptyCommand (c : Command) : Bool :=
  c.argv.isEmpty && c.assignmentList.isEmpty && c.redirs.isEmpty

theorem LevelRun.isEmptyCommand_refCommand {c : List Token} (h : LevelRun isCommandTok c) :
    isEmptyCommand (refCommand c) = false := by
  obtain ⟨hspaced, -, hwf⟩ := h
  cases hwf with
  | nil => exact absurd rfl hspaced.ne_nil
  | @redir r w l hr hw _ =>
    have : redirections (r :: w :: l) ≠ [] := by simp [redirections, hr]
    simp [isEmptyCommand, refCommand, this]
  | @plain t l ht _ =>
    cases ha : isAssignment t <;>
      simp [isEmptyCommand, refCommand, plainWords_cons ht, ha]

theorem LevelRun.commands_refPipeline {l : List Token} (h : LevelRun isPipelineTok l) :
    ∀ c ∈ (refPipeline l).commands, isEmptyCommand c = false := by
  intro c hc
  obtain ⟨piece, hpiece, rfl⟩ := List.mem_map.mp hc
  exact (LevelRun.pieces (fun _ => isCommandTok_of_isPipe) h piece hpiece).isEmptyCommand_refCommand

theorem LevelRun.commands_refAndOr {l : List Token} (h : LevelRun isAndOrTok l) :
    ∀ e ∈ (refAndOr l).elements, ∀ c ∈ e.pipeline.commands, isEmptyCommand c = false := by
  intro e he
  obtain ⟨piece, hpiece, rfl⟩ := List.mem_map.mp he
  have hmem := List.mem_map_of_mem (f := Prod.fst) hpiece
  rw [map_fst_separated] at hmem
  exact (LevelRun.pieces (fun _ => isCommandTok_of_isAndOrOp) h _ hmem).commands_refPipeline

theorem WellPlaced.commands_refList {l : List Token} (hne : l ≠ []) (h : WellPlaced l)
    (hwf : Targeted l) : ∀ e ∈ (refList l .eof).elements, ∀ a ∈ e.andOr.elements,
      ∀ c ∈ a.pipeline.commands, isEmptyCommand c = false := by
  -- the pieces of the list are those of the run without its closing separator
  obtain ⟨m, hm, hpieces⟩ : ∃ m, LevelRun isListTok m ∧
      (closed (fun t => isListSep t.type) (fun t => listSep t.type) ListSep.none true l).map
        Prod.fst = m.splitOnP fun t => isListSep t.type := by
    rcases h.cases hne with hspaced | ⟨m, s, rfl, hspaced, hs⟩
    · refine ⟨l, ⟨hspaced, h.listToks, hwf⟩, map_fst_closed_open (fun t ht => ?_) true⟩
      cases hsep : isListSep t.type with
      | false => rfl
      | true =>
        have := hspaced.last t ht
        rw [isOperand, isCommandTok_of_isListSep hsep] at this
        cases this
    · exact ⟨m, ⟨hspaced, fun t ht => h.listToks t (by simp [ht]),
        (hwf.cut (isCommandTok_of_isListSep hs)).1⟩,
        map_fst_closed_append (p := fun t : Token => isListSep t.type) hs m⟩
  intro e he
  obtain ⟨piece, hpiece, rfl⟩ := List.mem_map.mp he
  have hmem : piece.1 ∈ m.splitOnP fun t => isListSep t.type :=
    hpieces ▸ List.mem_map_of_mem (f := Prod.fst) hpiece
  exact (LevelRun.pieces (fun _ => isCommandTok_of_isListSep) hm _ hmem).commands_refAndOr

/-! ## Acceptance -/

/-- The list is not null exactly for the empty line and what the grammar
derives; no accepted stream has anything but its last token left, and no
accepted line that is not empty gives an empty command. -/
structure AcceptsGrammar (fuel : Nat) (ts : TokenStream) : Prop where
  accepted : (∃ list ts', parseList fuel ts = .ok (list, ts')) ↔
    ts.rest.dropLast = [] ∨ ts.rest.dropLast ∈ Grammar.list
  consumed : ∀ list ts', parseList fuel ts = .ok (list, ts') → ts'.pos = ts'.tokens.length - 1
  commands : ∀ list ts', parseList fuel ts = .ok (list, ts') → ts.rest.dropLast ≠ [] →
    ∀ e ∈ list.elements, ∀ a ∈ e.andOr.elements, ∀ c ∈ a.pipeline.commands,
      isEmptyCommand c = false

/-- The last token put aside, what `parse_list` returns and where it stops. -/
theorem parseList_of_eof (ts : TokenStream) {eof : Token}
    (hlast : ts.tokens.getLast? = some eof) (heof : eof.type = .eof)
    (hredir : ts.tokens.IsChain fun a b => isRedirect a.type = true → b.type = .word)
    {fuel : Nat} (hfuel : ts.tokens.length ≤ fuel) :
    Targeted ts.rest.dropLast ∧ ∃ list ts', parseList fuel ts = .ok (list, ts') ∧
      ((∀ t ∈ ts.rest.dropLast, isListTok t.type = true) →
        list = refList ts.rest.dropLast .eof ∧ ts'.pos = ts'.tokens.length - 1) := by
  have hrestLast : ts.rest.getLast? = some eof := by
    rw [TokenStream.rest, List.getLast?_drop, if_neg (by have := ts.inBounds; omega), hlast]
  have hrest : ts.rest = ts.rest.dropLast ++ [eof] :=
    (List.dropLast_append_getLast? eof hrestLast).symm
  have hwf : Targeted ts.rest :=
    Targeted.of_isChain hrestLast (by rw [heof]; rfl) (hredir.drop ts.pos)
  obtain ⟨ts', hrun, hmoved⟩ := parseList_moved ts hlast heof hredir hfuel
  rw [hrest] at hwf
  refine ⟨(hwf.cut (by rw [heof]; rfl)).1, _, ts', hrun, fun hall => ?_⟩
  have htake : (ts.rest.takeWhile fun t => isListTok t.type) = ts.rest.dropLast := by
    rw [hrest, List.takeWhile_append_of_pos (by simpa using hall), List.dropLast_concat]
    simp [heof, show isListTok .eof = false from rfl]
  rw [htake] at hmoved
  have hpeek : tsPeek ts' = eof := TokenStream.peek_of_rest (hmoved.rest_eq hrest)
  rw [htake, hpeek, heof]
  refine ⟨rfl, ?_⟩
  have := ts.inBounds
  rw [hmoved.pos_eq, hmoved.tokens_eq, List.length_dropLast, TokenStream.rest, List.length_drop]
  omega

/-- **The parser follows the grammar exactly on streams whose operators are well
placed.** -/
theorem acceptsGrammar_iff (ts : TokenStream) {eof : Token}
    (hlast : ts.tokens.getLast? = some eof) (heof : eof.type = .eof)
    (hredir : ts.tokens.IsChain fun a b => isRedirect a.type = true → b.type = .word)
    {fuel : Nat} (hfuel : ts.tokens.length ≤ fuel) :
    AcceptsGrammar fuel ts ↔ WellPlaced ts.rest.dropLast := by
  obtain ⟨hwf, list, ts', hrun, hlist⟩ := parseList_of_eof ts hlast heof hredir hfuel
  constructor
  · intro h
    exact (mem_list_iff hwf).mp (h.accepted.mp ⟨list, ts', hrun⟩)
  · intro h
    obtain ⟨hlist, hpos⟩ := hlist h.listToks
    refine ⟨⟨fun _ => (mem_list_iff hwf).mpr h, fun _ => ⟨list, ts', hrun⟩⟩, ?_, ?_⟩
    · intro list' ts'' hrun'
      obtain ⟨-, rfl⟩ := Prod.mk.inj (Except.ok.inj (hrun.symm.trans hrun'))
      exact hpos
    · intro list' ts'' hrun' hne
      obtain ⟨rfl, -⟩ := Prod.mk.inj (Except.ok.inj (hrun.symm.trans hrun'))
      rw [hlist]
      exact h.commands_refList hne hwf

/-- `a | b &` in front of the end of the input. -/
theorem acceptsGrammar_background :
    let word (b : UInt8) : Token := { type := .word, value := [b], fd := 0 }
    let mark (type : TokenType) : Token := { type := type, value := [], fd := 0 }
    AcceptsGrammar 5 ⟨[word 97, mark .pipe, word 98, mark .amp, mark .eof], 0, by decide⟩ := by
  intro word mark
  refine (acceptsGrammar_iff
    ⟨[word 97, mark .pipe, word 98, mark .amp, mark .eof], 0, by decide⟩
    rfl rfl ?_ (Nat.le_refl _)).mpr ⟨?_, ?_, ?_, ?_⟩
  · simp [word, mark, isRedirect]
  · simp [TokenStream.rest, word, mark, isListTok, isAndOrTok, isPipelineTok, isCommandTok, isPipe,
      isListSep]
  · simp [TokenStream.rest, word, isCommandTok]
  · simp [TokenStream.rest, word, mark, isCommandTok]
  · simp [TokenStream.rest, mark, isListSep]

/-- `a &&`: the list holds an empty command behind the operator. -/
theorem parseList_accepts_dangling_and :
    let word : Token := { type := .word, value := [97], fd := 0 }
    let and : Token := { type := .and, value := [], fd := 0 }
    let eof : Token := { type := .eof, value := [], fd := 0 }
    let tokens := [word, and, eof]
    tokens.getLast? = some eof ∧
      (tokens.IsChain fun a b => isRedirect a.type = true → b.type = .word) ∧
      (∃ ts', parseList 3 ⟨tokens, 0, by decide⟩ = .ok ({ count := 1, elements :=
        [⟨{ count := 2, elements := [⟨{ size := 1, commands := [⟨[[97]], [], []⟩] }, .and⟩,
          ⟨{ size := 1, commands := [⟨[], [], []⟩] }, .none⟩] }, .none⟩] }, ts')) ∧
      ¬ ([word, and] = [] ∨ [word, and] ∈ Grammar.list) ∧
      ¬ AcceptsGrammar 3 ⟨tokens, 0, by decide⟩ := by
  intro word and eof tokens
  have hnot : ¬ ([word, and] = [] ∨ [word, and] ∈ Grammar.list) := by
    rintro (h | h)
    · cases h
    · have := (wellPlaced_of_mem_list h).last and rfl
      revert this
      decide
  have hrun : parseList 3 ⟨tokens, 0, by decide⟩ = .ok
      ({ count := 1, elements := [⟨{ count := 2, elements :=
          [⟨{ size := 1, commands := [⟨[[97]], [], []⟩] }, .and⟩,
            ⟨{ size := 1, commands := [⟨[], [], []⟩] }, .none⟩] }, .none⟩] },
        ⟨tokens, 2, by decide⟩) := rfl
  refine ⟨rfl, ?_, ⟨_, hrun⟩, hnot, fun h => hnot ?_⟩
  · simp [tokens, word, and, eof, isRedirect]
  · exact h.accepted.mp ⟨_, _, hrun⟩

end Shell.Parser
