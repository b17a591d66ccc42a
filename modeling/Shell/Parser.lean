import Shell.Lexer
import Shell.Parsetypes
import Shell.Lib.Separated

/-! # The parser (parser.c)

Recursive descent over a token stream. Each loop of the source runs on fuel,
since `parse_command` never ends on a stream whose last token is a word: the
cursor cannot move past that token. The vectors that hold arguments and
redirections while a command is read are the lists of what was appended. -/
namespace Shell.Parser
open Shell.CTypes Shell.Tokenlist Shell.Parsetypes Shell.Lib.Separated

inductive Fault
  | outOfFuel
  /-- `target->value` after a failed `ts_expect`. -/
  | nullDeref
  /-- `ts_peek` on a stream without tokens. -/
  | outOfBounds
  deriving DecidableEq, Repr

abbrev Parse (α : Type) := TokenStream → Except Fault (α × TokenStream)

def isRedirect : TokenType → Bool
  | .redirAppend | .redirHeredoc | .redirIn | .redirOut => true
  | _ => false

def fromRedirTok : TokenType → RedirMode
  | .redirIn => .in
  | .redirOut => .out
  | .redirAppend => .append
  | .redirHeredoc => .heredoc
  | _ => .err

/-- The `while (true)` loop of `parse_command`, over what it has collected. -/
def commandLoop : Nat → Command → Parse Command
  | 0, _, _ => .error .outOfFuel
  | fuel + 1, c, ts =>
    let tok := tsPeek ts
    if tok.type = .word then
      commandLoop fuel { c with argv := c.argv ++ [tok.value] } (tsRead ts).2
    else if tok.type = .assignmentWord then
      if c.argv = [] then
        commandLoop fuel { c with assignmentList := c.assignmentList ++ [tok.value] }
          (tsRead ts).2
      else commandLoop fuel { c with argv := c.argv ++ [tok.value] } (tsRead ts).2
    else if isRedirect tok.type then
      match tsExpect (tsRead ts).2 .word with
      | (none, _) => .error .nullDeref
      | (some target, ts) =>
        let redir := { fd := tok.fd, mode := fromRedirTok tok.type, target := target.value }
        commandLoop fuel { c with redirs := c.redirs ++ [redir] } ts
    else .ok (c, ts)

def parseCommand (fuel : Nat) : Parse Command :=
  commandLoop fuel { argv := [], assignmentList := [], redirs := [] }

/-! ## The three levels above a command -/

/-- A linked list under construction: `tail` is the node the source keeps a
pointer to, with the operator recorded on it. -/
structure Chain (α β : Type) where
  count : Nat
  before : List (α × β)
  tail : α × β

namespace Chain

variable {α β : Type}

def start (a : α) (b : β) : Chain α β := ⟨1, [], (a, b)⟩

def mark (c : Chain α β) (b : β) : Chain α β := { c with tail := (c.tail.1, b) }

def push (c : Chain α β) (a : α) (b : β) : Chain α β :=
  ⟨c.count + 1, c.before ++ [c.tail], (a, b)⟩

def toList (c : Chain α β) : List (α × β) := c.before ++ [c.tail]

end Chain

/-- The loop of `parse_list`, `parse_and_or` and `parse_pipeline`: while a
separator is next, read it, record `op` of it on the tail, leave the loop if
`stop` holds, and append one more `item` that carries `last`. (`ts_match` is the
test and the read in one.) -/
def sepLoop {α β : Type} (isSep : TokenType → Bool) (op : TokenType → β) (last : β)
    (stop : TokenStream → Bool) (item : Parse α) : Nat → Chain α β → Parse (Chain α β)
  | 0, _, _ => .error .outOfFuel
  | fuel + 1, chain, ts =>
    let type := (tsPeek ts).type
    if isSep type then
      let ts := (tsRead ts).2
      let chain := chain.mark (op type)
      if stop ts then .ok (chain, ts)
      else match item ts with
        | .error e => .error e
        | .ok (a, ts) => sepLoop isSep op last stop item fuel (chain.push a last) ts
    else .ok (chain, ts)

/-- The first item, then the loop. -/
def sepList {α β : Type} (isSep : TokenType → Bool) (op : TokenType → β) (last : β)
    (stop : TokenStream → Bool) (item : Parse α) (fuel : Nat) : Parse (Chain α β) := fun ts =>
  match item ts with
  | .error e => .error e
  | .ok (a, ts) => sepLoop isSep op last stop item fuel (.start a last) ts

def isPipe (type : TokenType) : Bool := type == .pipe

def parsePipeline (fuel : Nat) : Parse Pipeline := fun ts => do
  let (chain, ts) ← sepList isPipe (fun _ => ()) () (fun _ => false) (parseCommand fuel) fuel ts
  return ({ size := chain.count, commands := chain.toList.map Prod.fst }, ts)

def isAndOrOp (type : TokenType) : Bool := type == .and || type == .or

def andOrOp (type : TokenType) : AndOrOp := if type == .and then .and else .or

def parseAndOr (fuel : Nat) : Parse (AndOr Pipeline) := fun ts => do
  let (chain, ts) ←
    sepList isAndOrOp andOrOp .none (fun _ => false) (parsePipeline fuel) fuel ts
  return ({ count := chain.count, elements := chain.toList.map fun e => ⟨e.1, e.2⟩ }, ts)

def isListSep (type : TokenType) : Bool := type == .semi || type == .amp

def listSep (type : TokenType) : ListSep := if type == .semi then .semi else .amp

def atListEnd (ts : TokenStream) : Bool := tsAtEnd ts || tsCheck ts .eof || tsCheck ts .newline

def parseList (fuel : Nat) : Parse ShList := fun ts => do
  let (chain, ts) ← sepList isListSep listSep .none atListEnd (parseAndOr fuel) fuel ts
  return ({ count := chain.count, elements := chain.toList.map fun e => ⟨e.1, e.2⟩ }, ts)

/-- `none` is the null list of an input that does not lex. There is fuel for
every token of the input. -/
def lexAndParse (beyond : Nat → UInt8) (input : Str) : Except Fault (Option ShList) :=
  let (errno, tokens) := Lexer.lxTokenize beyond tokenlistNewEmpty (Lexer.csNew input)
  if errno ≠ 0 then .ok none
  else match tsNew tokens with
    | none => .error .outOfBounds
    | some ts => (parseList ts.tokens.length ts).map fun r => some r.1

end Shell.Parser
