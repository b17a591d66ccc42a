import Shell.Tokenlist

/-! # What the parser reads and builds (parsetypes.h, parsetypes.c)

The linked lists of the source are Lean lists of their nodes; the counts kept
beside them are fields, as in the source. An and-or chain is generic in what
it chains: the parser builds chains of pipelines, and the executor looks at the
operators only. -/
namespace Shell.Parsetypes
open Shell.CTypes Shell.Tokenlist

/-! ## Token streams -/

/-- The cursor never leaves the tokens; in particular there is at least one. -/
structure TokenStream where
  tokens : List Token
  pos : Nat
  inBounds : pos < tokens.length

/-- A stream over no tokens has nothing to peek at. -/
def tsNew (list : TokenList) : Option TokenStream :=
  if h : 0 < list.tokens.length then some ⟨list.tokens, 0, h⟩ else none

namespace TokenStream

def peek (ts : TokenStream) : Token := ts.tokens.get ⟨ts.pos, ts.inBounds⟩

/-- The tokens from the cursor on. -/
def rest (ts : TokenStream) : List Token := ts.tokens.drop ts.pos

end TokenStream

def tsPeek (ts : TokenStream) : Token := ts.peek

/-- The last token is returned without moving past it. -/
def tsRead (ts : TokenStream) : Token × TokenStream :=
  if h : ts.pos = ts.tokens.length - 1 then (ts.peek, ts)
  else (ts.peek, { ts with pos := ts.pos + 1, inBounds := by have := ts.inBounds; omega })

def tsCheck (ts : TokenStream) (type : TokenType) : Bool := (tsPeek ts).type == type

/-- `none` is the null pointer of a failed expectation. -/
def tsExpect (ts : TokenStream) (type : TokenType) : Option Token × TokenStream :=
  if !tsCheck ts type then (none, ts) else (some (tsRead ts).1, (tsRead ts).2)

def tsAtEnd (ts : TokenStream) : Bool := ts.pos == ts.tokens.length - 1

/-! ## Commands, pipelines, and-or chains and lists -/

inductive RedirMode
  | in
  | out
  | append
  | heredoc
  | err
  deriving DecidableEq, Repr

structure Redirect where
  fd : Int
  mode : RedirMode
  target : Str
  deriving DecidableEq, Repr

structure Command where
  argv : List Str
  assignmentList : List Str
  redirs : List Redirect
  deriving DecidableEq, Repr

structure Pipeline where
  size : Nat
  commands : List Command
  deriving DecidableEq, Repr

inductive AndOrOp
  | none
  | and
  | or
  deriving DecidableEq, Repr

structure AndOrElement (π : Type) where
  pipeline : π
  op : AndOrOp
  deriving DecidableEq, Repr

structure AndOr (π : Type) where
  count : Nat
  elements : List (AndOrElement π)
  deriving DecidableEq, Repr

inductive ListSep
  | semi
  | amp
  | none
  deriving DecidableEq, Repr

structure ListElement where
  andOr : AndOr Pipeline
  sep : ListSep
  deriving DecidableEq, Repr

/-- The `List` of the source. -/
structure ShList where
  count : Nat
  elements : List ListElement
  deriving DecidableEq, Repr

/-! ## Moving along a stream -/

namespace TokenStream

theorem rest_eq (ts : TokenStream) : ts.rest = tsPeek ts :: ts.tokens.drop (ts.pos + 1) := by
  simp only [rest, tsPeek, peek, List.get_eq_getElem]
  exact List.drop_eq_getElem_cons ts.inBounds

theorem peek_of_rest {ts : TokenStream} {t : Token} {more : List Token}
    (h : ts.rest = t :: more) : tsPeek ts = t := by
  rw [rest_eq] at h
  exact (List.cons.inj h).1

/-- `ts'` is `ts` after `n` reads that moved. -/
structure Moved (ts : TokenStream) (n : Nat) (ts' : TokenStream) : Prop where
  tokens_eq : ts'.tokens = ts.tokens
  pos_eq : ts'.pos = ts.pos + n

theorem Moved.refl (ts : TokenStream) : ts.Moved 0 ts := ⟨rfl, rfl⟩

theorem Moved.trans {ts ts' ts'' : TokenStream} {m n : Nat} (h : ts.Moved m ts')
    (h' : ts'.Moved n ts'') : ts.Moved (m + n) ts'' :=
  ⟨h'.tokens_eq.trans h.tokens_eq, by rw [h'.pos_eq, h.pos_eq, Nat.add_assoc]⟩

theorem Moved.rest_eq {ts ts' : TokenStream} {pre suf : List Token}
    (h : ts.Moved pre.length ts') (hr : ts.rest = pre ++ suf) : ts'.rest = suf := by
  have hdrop : ts'.rest = ts.rest.drop pre.length := by
    rw [rest, rest, h.tokens_eq, h.pos_eq, List.drop_drop]
  rw [hdrop, hr, List.drop_left]

/-- A token with another one behind it is not the last, so reading it moves on. -/
theorem read_of_rest {ts : TokenStream} {t u : Token} {more : List Token}
    (h : ts.rest = t :: u :: more) : (tsRead ts).1 = t ∧ ts.Moved 1 (tsRead ts).2 := by
  have hlen : ts.tokens.length - ts.pos = more.length + 2 := by
    have := congrArg List.length h
    simpa [rest] using this
  have hlast : ¬ ts.pos = ts.tokens.length - 1 := by omega
  have hpeek : ts.peek = t := peek_of_rest h
  simp only [tsRead, dif_neg hlast]
  exact ⟨hpeek, rfl, rfl⟩

end TokenStream

end Shell.Parsetypes
