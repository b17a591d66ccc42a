import Shell.CTypes

/-! # Tokens (tokenlist.h, tokenlist.c)

A `Token` is one node of the C list without its `next`; a chain of nodes is a
Lean list, and a `TokenList` carries that its `size` counts the chain. -/
namespace Shell.Tokenlist
open Shell.CTypes

inductive TokenType
  | word
  | assignmentWord
  | pipe
  | and
  | or
  | semi
  | amp
  | lparen
  | rparen
  | lbrace
  | rbrace
  | redirIn
  | redirOut
  | redirAppend
  | redirHeredoc
  | newline
  | reservedWord
  | cmdsubStart
  | cmdsubEnd
  | eof
  | err
  deriving DecidableEq, Repr

def isWordTok (type : TokenType) : Bool := type == .word || type == .assignmentWord

structure Token where
  type : TokenType
  value : Str
  fd : Int
  deriving DecidableEq, Repr

structure TokenList where
  size : Nat
  tokens : List Token
  size_eq : size = tokens.length

def tokenlistNewEmpty : TokenList := ⟨0, [], rfl⟩

/-- Appends a chain of tokens, counting its nodes. -/
def tokenlistAppendTok (list : TokenList) (token : List Token) : TokenList where
  size := list.size + token.length
  tokens := list.tokens ++ token
  size_eq := by rw [list.size_eq, List.length_append]

@[simp] theorem tokens_appendTok (list : TokenList) (token : List Token) :
    (tokenlistAppendTok list token).tokens = list.tokens ++ token := rfl

end Shell.Tokenlist
