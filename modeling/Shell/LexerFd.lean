import Shell.CommandLine
import Shell.LexerSpans

/-! # File descriptors in front of a redirection (lx_scan, lx_token)

`lx_token` reads the number with `strtol` and checks it against `INT_MAX`, but
`lx_scan` hands it one digit at most: it looks for the operator behind the first
character of a token only. -/
namespace Shell.Lexer
open Shell.CTypes Shell.Tokenlist Shell.Parser Shell.Lib

variable {data : Str} {stream : CharStream data} {d : Str} {type : TokenType} {b l : Str}

/-- The value of a string of decimal digits. -/
def decimal (d : Str) : Nat := d.foldl (fun n c => n * 10 + (c.toNat - 48)) 0

/-- The next token is the redirection with `d` as its descriptor, or out of range. -/
def TakesFd (beyond : Nat → UInt8) (stream : CharStream data) (errno : Int) (d : Str)
    (type : TokenType) (l : Str) : Prop :=
  let r := lxToken beyond stream errno
  ((decimal d : Int) < INT_MAX →
    r.tok = some ⟨type, d ++ operatorText type, decimal d⟩ ∧ r.stream.rest = l) ∧
  (INT_MAX ≤ (decimal d : Int) → r.tok = none ∧ r.errno = ERANGE)

/-- Where `lx_token` starts at `d`, whitespace skipped, with the operator right behind. -/
structure AtFd (stream : CharStream data) (b d : Str) (type : TokenType) (l : Str) : Prop where
  rest : stream.rest = b ++ (d ++ (operatorText type ++ l))
  blank : ∀ c ∈ b, isspace (toInt c) = true
  newline : b.head? ≠ some (chr '\n')
  digits : ∀ c ∈ d, isdigit (toInt c) = true
  nonempty : d ≠ []
  redir : isRedir type = true
  whole : NotDoubled type l

/-- The token does not depend on `errno`. -/
theorem lxToken_errno (beyond : Nat → UInt8) (stream : CharStream data) (errno : Int) :
    (lxToken beyond stream errno).tok = (lxToken beyond stream 0).tok ∧
      (lxToken beyond stream errno).stream = (lxToken beyond stream 0).stream := by
  simp only [lxToken]
  repeat' split
  all_goals exact ⟨rfl, rfl⟩

theorem plainByte_digit {c : UInt8} (hc : isdigit (toInt c) = true) : PlainByte c := by
  obtain ⟨k, rfl⟩ := eq_digitByte hc
  refine ⟨(digitByte_starts k).1.1, (digitByte_ordinary k).1, ?_⟩
  clear hc
  revert k
  decide

/-- One digit is the redirection's. -/
theorem AtFd.single {k : Fin 10} (h : AtFd stream b [digitByte k] type l) (beyond : Nat → UInt8) :
    ∃ stream' : CharStream data, stream'.rest = l ∧ lxToken beyond stream 0 =
      ⟨some ⟨type, digitByte k :: operatorText type, (k : Nat)⟩, stream', 0⟩ :=
  have hvalid : (Item.redir (some k) type).Valid := h.redir
  lxToken_item hvalid h.blank h.newline
    (fun _ hhere => scanLoop_redir_digit h.redir k hhere h.whole) h.rest beyond

/-- Two digits and more are a word. -/
theorem AtFd.word (h : AtFd stream b d type l) (hlong : d.length ≠ 1) (beyond : Nat → UInt8) :
    ∃ stream' : CharStream data, stream'.rest = operatorText type ++ l ∧
      lxToken beyond stream 0 = ⟨some ⟨.word, d, 0⟩, stream', 0⟩ := by
  have hvalid : (wordItem d).Valid := wordItem_valid h.nonempty fun c hc => by
    obtain ⟨hspace, hoperator, hspecial⟩ := plainByte_digit (h.digits c hc)
    exact ⟨hspace, hoperator, hspecial⟩
  have hfollows : Follows (operatorText type ++ l) (wordItem d) := by
    obtain ⟨c, tail, htext, hop⟩ := operatorText_cons (.inr h.redir)
    refine ⟨.inr (.inr (by rw [htext]; exact hop)), fun c hc => ?_⟩
    have hbytes : d = [c] := (wordItem_bytes d).symm.trans hc
    exact absurd (congrArg List.length hbytes) hlong
  have htype : wordType d = .word := by
    refine if_neg fun heq => ?_
    exact absurd (h.digits _ heq) (by decide)
  have htoken : (wordItem d).token = ⟨.word, d, 0⟩ := by
    have hbytes : wordBytes (d.map .plain) = d := wordItem_bytes d
    rw [wordItem, Item.token, hbytes, htype]
  rw [← htoken]
  refine lxToken_item hvalid h.blank h.newline (reads_item hvalid hfollows) ?_ beyond
  rw [wordItem_bytes]
  exact h.rest

theorem decimal_digit (k : Fin 10) : decimal [digitByte k] = k := by
  revert k
  decide

theorem AtFd.takes {k : Fin 10} (h : AtFd stream b [digitByte k] type l)
    (beyond : Nat → UInt8) (errno : Int) : TakesFd beyond stream errno [digitByte k] type l := by
  obtain ⟨htok, hstream⟩ := lxToken_errno beyond stream errno
  obtain ⟨stream', hstream', htoken⟩ := h.single beyond
  have hlt : ((k : Nat) : Int) < INT_MAX := by
    have := k.isLt
    simp only [INT_MAX]
    omega
  simp only [TakesFd, htok, hstream, htoken, decimal_digit]
  exact ⟨fun _ => ⟨rfl, hstream'⟩, fun hle => absurd hlt (Int.not_lt.mpr hle)⟩

/-- **A number is a descriptor exactly if it has one digit.** For every string of digits
with a redirection operator right behind it, wherever a token starts. -/
theorem lxToken_takesFd_iff (h : AtFd stream b d type l) (beyond : Nat → UInt8) (errno : Int) :
    TakesFd beyond stream errno d type l ↔ d.length = 1 := by
  constructor
  · intro htakes
    by_contra hlong
    obtain ⟨htok, hstream⟩ := lxToken_errno beyond stream errno
    obtain ⟨stream', -, htoken⟩ := h.word hlong beyond
    simp only [TakesFd, htok, hstream, htoken] at htakes
    by_cases hlt : (decimal d : Int) < INT_MAX
    · have htype : .word = type := congrArg Token.type (Option.some.inj (htakes.1 hlt).1)
      have hredir := h.redir
      rw [← htype] at hredir
      cases hredir
    · cases (htakes.2 (Int.not_lt.mp hlt)).1
  · intro hlength
    obtain ⟨c, hc⟩ := List.length_eq_one_iff.mp hlength
    rw [hc] at h ⊢
    obtain ⟨k, hk⟩ := eq_digitByte (h.digits c List.mem_cons_self)
    rw [hk] at h ⊢
    exact h.takes beyond errno

/-- `2>f`, at the start of a line. -/
theorem atFd_two : AtFd (csNew (str "2>f")) [] (str "2") .redirOut (str "f") where
  rest := rfl
  blank := fun _ hc => by cases hc
  newline := fun h => by cases h
  digits := List.all_eq_true.mp rfl
  nonempty := by decide
  redir := rfl
  whole := by
    intro c hc
    obtain rfl : c = chr '>' := (List.cons.inj hc).1.symm
    decide

theorem lxToken_takesFd_two :
    TakesFd (fun _ => 0) (csNew (str "2>f")) 0 (str "2") .redirOut (str "f") :=
  (lxToken_takesFd_iff atFd_two (fun _ => 0) 0).mpr rfl

/-- `12>f` is the argument 12 and a redirection of the standard output. -/
theorem lxToken_splits_twelve :
    ¬ TakesFd (fun _ => 0) (csNew (str "12>f")) 0 (str "12") .redirOut (str "f") ∧
      (lxTokenize (fun _ => 0) tokenlistNewEmpty (csNew (str "12>f"))).2.tokens =
        [⟨.word, str "12", 0⟩, ⟨.redirOut, str ">", 1⟩, ⟨.word, str "f", 0⟩, ⟨.eof, [], 0⟩] := by
  refine ⟨?_, by decide +kernel⟩
  have htok : (lxToken (fun _ => 0) (csNew (str "12>f")) 0).tok = some ⟨.word, str "12", 0⟩ := by
    decide +kernel
  have hlt : (decimal (str "12") : Int) < INT_MAX := by decide
  intro htakes
  have htaken := (htakes.1 hlt).1
  rw [htok] at htaken
  cases htaken

end Shell.Lexer
