import Shell.ExpandQuoting

/-! # The cursor of the word expansion (expand.c)

The functions of expand.c once more, with the cursor as a position in the word
and every read of it checked: the NUL at the end is the last byte that may be
read. `none` is a read behind it. The text of the builder is exact here.

`expandWordAt_eq` says that these are the functions over lists: the cursor at
`i` is the list of the bytes from `i` on. -/
namespace Shell.ExpandCursor
open Shell.CTypes Shell.Lib Shell.Expand
open Shell.Lexer (QuoteFlag)

/-- The variables, and the captured output of each substituted text. -/
structure Surroundings where
  varLookup : Str → Option Str
  varLookupn : Str → Nat → Option Str
  captureListOutput : Str → Str

/-- `*p` for a pointer `p` bytes into the word. -/
def peek (word : Str) (p : Nat) : Option UInt8 := (word ++ [0])[p]?

theorem lt_of_peek {word : Str} {p : Nat} {c : UInt8} (h : peek word p = some c) :
    p < word.length + 1 := by
  obtain ⟨hlt, -⟩ := List.getElem?_eq_some_iff.mp h
  simpa using hlt

theorem peek_end (word : Str) : peek word word.length = some 0 := by simp [peek]

theorem peek_past {word : Str} {p : Nat} (h : word.length < p) : peek word p = none := by
  simp only [peek, List.getElem?_eq_none_iff, List.length_append, List.length_singleton]
  exact h

/-- What is left of the bytes to read, the NUL included. -/
def left (word : Str) (i : Nat) : Nat := word.length + 1 - i

theorem left_lt {word : Str} {i : Nat} {c : UInt8} (h : peek word i = some c) {j : Nat}
    (hj : i < j) : left word j < left word i := by
  have := lt_of_peek h
  unfold left
  omega

variable (t : Surroundings) (word : Str)

def expandTilde (sb : Str) : Str :=
  match t.varLookup (str "HOME") with
  | some value => sb ++ value
  | none => sb

/-- A loop that goes on while `more` holds of the byte under the cursor. -/
def skipBody (more : UInt8 → Bool) (i : Nat) : Nat ⊕ Option Nat :=
  match peek word i with
  | none => .inr none
  | some c => if more c then .inl (i + 1) else .inr (some i)

theorem skipBody_decreasing (more : UInt8 → Bool) :
    Loop.Decreasing (skipBody word more) (left word) := by
  intro i j h
  unfold skipBody at h
  split at h
  · cases h
  · rename_i c hc
    split at h
    · cases h
      exact left_lt hc (Nat.lt_succ_self i)
    · cases h

def skip (more : UInt8 → Bool) (i : Nat) : Option Nat :=
  Loop.exec (skipBody word more) _ (skipBody_decreasing word more) i

/-- The bytes from `begin` up to `stop`. -/
def between (begin stop : Nat) : Str := (word.drop begin).take (stop - begin)

/-- `expand_braced_variable`; `tmp` holds the bytes that its loop has passed. -/
def expandBracedVariable (i : Nat) (sb : Str) : Option (Nat × Str) := do
  let begin := i
  let i ← skip word (fun c => c != chr '\x7d' && c != 0) i
  let varname := between word begin i
  let c ← peek word i
  let i := if c = chr '\x7d' then i + 1 else i
  match t.varLookup varname with
  | some val => return (i, sb ++ val)
  | none => return (i, sb)

structure LooseState where
  i : Nat
  tmp : Str
  count : Nat

/-- One round of the loop of `expand_loose_variable`. -/
def looseBody (sb : Str) (w : LooseState) : LooseState ⊕ Option (Nat × Str) :=
  match peek word w.i with
  | none => .inr none
  | some c =>
    if c ≠ 0 ∧ c ≠ chr ' ' then
      let tmp := w.tmp ++ [c]
      let count := w.count + 1
      match t.varLookupn (tmp.take count) count with
      | some val => .inr (some (w.i + 1, sb ++ val))
      | none => .inl ⟨w.i + 1, tmp, count⟩
    else .inr (some (w.i, sb))

theorem looseBody_decreasing (sb : Str) :
    Loop.Decreasing (looseBody t word sb) fun w => left word w.i := by
  intro w w' h
  simp only [looseBody] at h
  split at h
  · cases h
  · rename_i c hc
    split at h
    · split at h
      · cases h
      · cases h
        exact left_lt hc (Nat.lt_succ_self w.i)
    · cases h

def expandLooseVariable (i : Nat) (sb : Str) : Option (Nat × Str) :=
  Loop.exec (looseBody t word sb) _ (looseBody_decreasing t word sb) ⟨i, [], 0⟩

def expandVariable (i : Nat) (sb : Str) : Option (Nat × Str) := do
  let i := i + 1
  let c ← peek word i
  if c = chr '\x7b' then expandBracedVariable t word (i + 1) sb
  else expandLooseVariable t word i sb

def expandCmdsub (i : Nat) (sb : Str) : Option (Nat × Str) := do
  let i := i + 2
  let begin := i
  let i ← skip word (fun c => c != chr ')' && c != 0) i
  let c ← peek word i
  if c = chr ')' then
    let result := t.captureListOutput (between word begin i)
    return (i + 1, sb ++ result)
  else return (i, sb)

def expandDollarsign (i : Nat) (sb : Str) : Option (Nat × Str) := do
  let c ← peek word (i + 1)
  if c = chr '(' then expandCmdsub t word i sb else expandVariable t word i sb

structure CursorState where
  i : Nat
  flag : QuoteFlag
  sb : Str

/-- A backslash: the byte behind it is appended and passed, whatever it is. -/
def escapeOne (w : CursorState) : Option CursorState :=
  (peek word (w.i + 1)).map fun c => { w with i := w.i + 1 + 1, sb := w.sb ++ [c] }

def dollarOne (w : CursorState) : Option CursorState :=
  (expandDollarsign t word w.i w.sb).map fun r => { w with i := r.1, sb := r.2 }

def goOn (w : Option CursorState) : CursorState ⊕ Option (Str × Nat) :=
  match w with
  | some w => .inl w
  | none => .inr none

theorem skip_le {more : UInt8 → Bool} {i j : Nat} (h : skip word more i = some j) : i ≤ j := by
  obtain ⟨k, hk, hend⟩ := Loop.exec_invariant (fun k => i ≤ k) (skipBody_decreasing word more)
    (s := i) (fun k k' hk hstep => by
      unfold skipBody at hstep
      split at hstep
      · cases hstep
      · split at hstep
        · cases hstep
          exact Nat.le_succ_of_le hk
        · cases hstep) (Nat.le_refl i)
  unfold skip at h
  rw [h] at hend
  unfold skipBody at hend
  split at hend
  · cases hend
  · split at hend
    · cases hend
    · cases hend
      exact hk

theorem expandLooseVariable_le {i : Nat} {sb : Str} {r : Nat × Str}
    (h : expandLooseVariable t word i sb = some r) : i ≤ r.1 := by
  obtain ⟨w, hw, hend⟩ := Loop.exec_invariant (fun w => i ≤ w.i) (looseBody_decreasing t word sb)
    (s := ⟨i, [], 0⟩) (fun w w' hw hstep => by
      simp only [looseBody] at hstep
      split at hstep
      · cases hstep
      · split at hstep
        · split at hstep
          · cases hstep
          · cases hstep
            exact Nat.le_succ_of_le hw
        · cases hstep) (Nat.le_refl i)
  unfold expandLooseVariable at h
  rw [h] at hend
  simp only [looseBody] at hend
  split at hend
  · cases hend
  · split at hend
    · split at hend
      · cases hend
        exact Nat.le_succ_of_le hw
      · cases hend
    · cases hend
      exact hw

theorem expandBracedVariable_le {i : Nat} {sb : Str} {r : Nat × Str}
    (h : expandBracedVariable t word i sb = some r) : i ≤ r.1 := by
  obtain ⟨j, hj, h⟩ := Option.bind_eq_some_iff.mp h
  obtain ⟨c, -, h⟩ := Option.bind_eq_some_iff.mp h
  have hle := skip_le word hj
  split at h
  · split at h
    · cases h
      exact Nat.le_succ_of_le hle
    · cases h
      exact Nat.le_succ_of_le hle
  · split at h
    · cases h
      exact hle
    · cases h
      exact hle

theorem expandDollarsign_lt {i : Nat} {sb : Str} {r : Nat × Str}
    (h : expandDollarsign t word i sb = some r) : i < r.1 := by
  obtain ⟨c, -, h⟩ := Option.bind_eq_some_iff.mp h
  split at h
  · obtain ⟨j, hj, h⟩ := Option.bind_eq_some_iff.mp h
    obtain ⟨c', -, h⟩ := Option.bind_eq_some_iff.mp h
    have hle := skip_le word hj
    split at h
    · cases h
      exact Nat.lt_succ_of_le (Nat.le_of_succ_le (Nat.le_of_succ_le hle))
    · cases h
      exact Nat.lt_of_succ_lt hle
  · obtain ⟨c', -, h⟩ := Option.bind_eq_some_iff.mp h
    split at h
    · exact Nat.lt_of_succ_lt (expandBracedVariable_le t word h)
    · exact expandLooseVariable_le t word h

/-- One round of the loop of `expand_word`. -/
def wordBody (w : CursorState) : CursorState ⊕ Option (Str × Nat) :=
  match peek word w.i with
  | none => .inr none
  | some c =>
    if c = 0 then .inr (some (w.sb, w.i))
    else match w.flag with
      | .unquoted =>
        if c = chr '~' then
          if w.i = 0 then .inl { w with i := w.i + 1, sb := expandTilde t w.sb }
          else .inl { w with i := w.i + 1, sb := w.sb ++ [c] }
        else if c = chr '$' then goOn (dollarOne t word w)
        else if c = chr '\\' then goOn (escapeOne word w)
        else if c = chr '\'' then .inl { w with i := w.i + 1, flag := .singleQuoted }
        else if c = chr '"' then .inl { w with i := w.i + 1, flag := .doubleQuoted }
        else .inl { w with i := w.i + 1, sb := w.sb ++ [c] }
      | .singleQuoted =>
        if c = chr '\'' then .inl { w with i := w.i + 1, flag := .unquoted }
        else .inl { w with i := w.i + 1, sb := w.sb ++ [c] }
      | .doubleQuoted =>
        if c = chr '"' then .inl { w with i := w.i + 1, flag := .unquoted }
        else if c = chr '\\' then goOn (escapeOne word w)
        else if c = chr '$' then goOn (dollarOne t word w)
        else .inl { w with i := w.i + 1, sb := w.sb ++ [c] }

theorem wordBody_decreasing : Loop.Decreasing (wordBody t word) fun w => left word w.i := by
  intro w w' h
  unfold wordBody at h
  split at h
  · cases h
  · rename_i c hc
    have next : w'.i = w.i + 1 → left word w'.i < left word w.i := fun hi =>
      left_lt hc (hi ▸ Nat.lt_succ_self _)
    have dollar : goOn (dollarOne t word w) = .inl w' → left word w'.i < left word w.i := by
      intro hd
      cases hr : expandDollarsign t word w.i w.sb with
      | none =>
        rw [dollarOne, hr] at hd
        cases hd
      | some r =>
        rw [dollarOne, hr] at hd
        cases hd
        exact left_lt hc (expandDollarsign_lt t word hr)
    have escape : goOn (escapeOne word w) = .inl w' → left word w'.i < left word w.i := by
      intro he
      cases hr : peek word (w.i + 1) with
      | none =>
        rw [escapeOne, hr] at he
        cases he
      | some c' =>
        rw [escapeOne, hr] at he
        cases he
        exact left_lt hc (Nat.lt_succ_of_lt (Nat.lt_succ_self _))
    split at h
    · cases h
    split at h
    · split at h
      · split at h
        · cases h
          exact next rfl
        · cases h
          exact next rfl
      split at h
      · exact dollar h
      split at h
      · exact escape h
      split at h
      · cases h
        exact next rfl
      split at h
      · cases h
        exact next rfl
      · cases h
        exact next rfl
    · split at h
      · cases h
        exact next rfl
      · cases h
        exact next rfl
    · split at h
      · cases h
        exact next rfl
      split at h
      · exact escape h
      split at h
      · exact dollar h
      · cases h
        exact next rfl

/-- The loop from a state on. -/
def expandFromAt (w : CursorState) : Option (Str × Nat) :=
  Loop.exec (wordBody t word) _ (wordBody_decreasing t word) w

/-- The expansion, and where the cursor is when `expand_word` returns. -/
def expandWordAt : Option (Str × Nat) := expandFromAt t word ⟨0, .unquoted, []⟩

/-! ## Positions and lists -/

variable {t word} {i : Nat} {sb : Str}

/-- The surroundings as an environment for the functions over lists. -/
def Surroundings.env (t : Surroundings) : Env Unit where
  varLookup _ := t.varLookup
  varLookupn _ := t.varLookupn
  varAssign s _ _ := s
  fresh _ := (fun _ => 0, fun _ => 0)
  cmdsub body s := some (t.captureListOutput body, s)

/-- What stands under the cursor. -/
inductive At (word : Str) (i : Nat) : Prop
  | nul (hi : i = word.length) (hpeek : peek word i = some 0) (hdrop : word.drop i = [])
  | byte (c : UInt8) (hc : c ≠ 0) (hi : i < word.length) (hpeek : peek word i = some c)
      (hdrop : word.drop i = c :: word.drop (i + 1))

theorem at_of_le (hword : NulFree word) (hi : i ≤ word.length) : At word i := by
  rcases Nat.eq_or_lt_of_le hi with rfl | hlt
  · exact .nul rfl (peek_end word) List.drop_length
  · refine .byte word[i] (hword _ (List.getElem_mem hlt)) hlt ?_ (List.drop_eq_getElem_cons hlt)
    rw [peek, List.getElem?_append_left hlt, List.getElem?_eq_getElem hlt]

theorem skip_stops {more : UInt8 → Bool} {c : UInt8} (hpeek : peek word i = some c)
    (hc : more c = false) : skip word more i = some i :=
  Loop.exec_of_inr (skipBody_decreasing word more) (by simp [skipBody, hpeek, hc])

theorem skip_goes {more : UInt8 → Bool} {c : UInt8} (hpeek : peek word i = some c)
    (hc : more c = true) : skip word more i = skip word more (i + 1) :=
  Loop.exec_of_inl (skipBody_decreasing word more) (by simp [skipBody, hpeek, hc])

/-- The cursor `j` is at the first `stop` from `i` on, or else at the NUL. -/
structure Skipped (word : Str) (stop : UInt8) (i j : Nat) : Prop where
  le : i ≤ j
  skipped : skip word (fun c => c != stop && c != 0) i = some j
  between : between word i j = (scanTo stop (word.drop i)).1
  rest : (peek word j = some stop ∧ j < word.length ∧
      (scanTo stop (word.drop i)).2 = some (word.drop (j + 1))) ∨
    (peek word j = some 0 ∧ j = word.length ∧ (scanTo stop (word.drop i)).2 = none)

theorem skip_scanTo (hword : NulFree word) (stop : UInt8) (hi : i ≤ word.length) :
    ∃ j, Skipped word stop i j := by
  induction hn : word.length - i generalizing i with
  | zero =>
    obtain rfl : i = word.length := by omega
    refine ⟨word.length, Nat.le_refl _, skip_stops (peek_end word) (by simp), ?_, ?_⟩
    · simp [between, scanTo]
    · exact .inr ⟨peek_end word, rfl, by rw [List.drop_length]; rfl⟩
  | succ n ih =>
    cases at_of_le hword hi with
    | nul hend => omega
    | byte c hc hlt hpeek hdrop =>
      by_cases hstop : c = stop
      · subst hstop
        refine ⟨i, Nat.le_refl _, skip_stops hpeek (by simp), ?_, .inl ⟨hpeek, hlt, ?_⟩⟩
        · rw [hdrop, scanTo, if_pos rfl, between, Nat.sub_self, List.take_zero]
        · rw [hdrop, scanTo, if_pos rfl]
      · obtain ⟨j, hj⟩ := ih hlt (by omega)
        have hle := hj.le
        refine ⟨j, Nat.le_of_succ_le hle, ?_, ?_, ?_⟩
        · rw [skip_goes hpeek (by simp [hstop, hc])]
          exact hj.skipped
        · have hsub : j - i = j - (i + 1) + 1 := by omega
          rw [hdrop, scanTo, if_neg hstop, ← hj.between, between, hdrop, hsub, List.take_succ_cons]
          rfl
        · rw [hdrop, scanTo, if_neg hstop]
          exact hj.rest

/-- Cursor and list are at the same place, and the texts are the same. -/
def Agrees (word : Str) (r : Option (Nat × Str)) (r' : Option (Str × Str)) : Prop :=
  ∃ j sb, j ≤ word.length ∧ r = some (j, sb) ∧ r' = some (word.drop j, sb)

theorem expandTilde_eq (sb : Str) :
    Expand.expandTilde exact t.env () sb = some (expandTilde t sb) := by
  have hlookup : t.env.varLookup () (str "HOME") = t.varLookup (str "HOME") := rfl
  rw [Expand.expandTilde, expandTilde, hlookup]
  cases t.varLookup (str "HOME") with
  | none => rfl
  | some value => rfl

theorem expandBracedVariable_agrees (hword : NulFree word) (hi : i ≤ word.length) (sb : Str) :
    Agrees word (expandBracedVariable t word i sb)
      (Expand.expandBracedVariable exact t.env (word.drop i) () sb) := by
  obtain ⟨j, hj⟩ := skip_scanTo hword (chr '\x7d') hi
  have hlookup : t.env.varLookup () = t.varLookup := rfl
  have htake : ∀ l, exact.takestring l = some l := fun _ => rfl
  have hnew : exact.newSized 16 = [] := rfl
  simp only [Expand.expandBracedVariable, expandBracedVariable, hj.skipped, exact_foldlM, hnew,
    List.nil_append, htake, Option.bind_eq_bind, Option.bind_some, hlookup, ← hj.between]
  rcases hj.rest with ⟨hpeek, hlt, hrest⟩ | ⟨hpeek, hend, hrest⟩
  · simp only [hpeek, hrest, Option.bind_some, if_true, Option.getD_some]
    cases t.varLookup (between word i j) with
    | none => exact ⟨j + 1, sb, hlt, rfl, rfl⟩
    | some val => exact ⟨j + 1, sb ++ val, hlt, rfl, rfl⟩
  · have hne : (0 : UInt8) ≠ chr '\x7d' := by decide
    have hdrop : word.drop j = [] := by rw [hend, List.drop_length]
    simp only [hpeek, hrest, Option.bind_some, hne, if_false, Option.getD_none, ← hdrop]
    cases t.varLookup (between word i j) with
    | none => exact ⟨j, sb, Nat.le_of_eq hend, rfl, rfl⟩
    | some val => exact ⟨j, sb ++ val, Nat.le_of_eq hend, rfl, rfl⟩

theorem looseFrom_agrees (hword : NulFree word) (sb : Str) (hi : i ≤ word.length) (tmp : Str) :
    Agrees word (Loop.exec (looseBody t word sb) _ (looseBody_decreasing t word sb)
        ⟨i, tmp, tmp.length⟩)
      (expandLooseLoop exact t.env () sb (word.drop i) tmp tmp.length) := by
  induction hn : word.length - i generalizing i tmp with
  | zero =>
    obtain rfl : i = word.length := by omega
    refine ⟨word.length, sb, Nat.le_refl _, ?_, by rw [List.drop_length]; rfl⟩
    exact Loop.exec_of_inr _ (by simp [looseBody, peek_end])
  | succ n ih =>
    cases at_of_le hword hi with
    | nul hend => omega
    | byte c hc hlt hpeek hdrop =>
      by_cases hspace : c = chr ' '
      · refine ⟨i, sb, hi, Loop.exec_of_inr _ ?_, ?_⟩
        · simp [looseBody, hpeek, hspace]
        · rw [hdrop, expandLooseLoop, if_pos hspace]
      · have htake : (tmp ++ [c]).take (tmp.length + 1) = tmp ++ [c] :=
          List.take_of_length_le (by simp)
        have hround : looseBody t word sb ⟨i, tmp, tmp.length⟩ =
            match t.varLookupn (tmp ++ [c]) (tmp.length + 1) with
            | some val => .inr (some (i + 1, sb ++ val))
            | none => .inl ⟨i + 1, tmp ++ [c], tmp.length + 1⟩ := by
          simp only [looseBody, hpeek, hc, hspace, ne_eq, not_false_eq_true, and_self, if_true,
            htake]
        have hlookup : t.env.varLookupn () = t.varLookupn := rfl
        rw [hdrop, expandLooseLoop_exact hspace, hlookup]
        cases hval : t.varLookupn (tmp ++ [c]) (tmp.length + 1) with
        | some val =>
          rw [hval] at hround
          exact ⟨i + 1, sb ++ val, hlt, Loop.exec_of_inr _ hround, rfl⟩
        | none =>
          rw [hval] at hround
          rw [Loop.exec_of_inl _ hround]
          have hnext := ih hlt (tmp ++ [c]) (by omega)
          rwa [List.length_append, List.length_singleton] at hnext

theorem expandVariable_agrees (hword : NulFree word) (hi : i < word.length) (sb : Str) :
    Agrees word (expandVariable t word i sb)
      (Expand.expandVariable exact t.env (word.drop (i + 1)) () sb) := by
  have hloose : ∀ l, Expand.expandLooseVariable exact t.env l () sb =
      expandLooseLoop exact t.env () sb l [] 0 := fun _ => rfl
  cases at_of_le hword (Nat.succ_le_of_lt hi) with
  | nul hend hpeek hdrop =>
    have hne : (0 : UInt8) ≠ chr '\x7b' := by decide
    have hlist := looseFrom_agrees (t := t) hword sb hi []
    simp only [expandVariable, hpeek, Option.bind_eq_bind, Option.bind_some, hne, if_false]
    rw [hdrop] at hlist ⊢
    simp only [Expand.expandVariable, hloose]
    exact hlist
  | byte c hc hlt hpeek hdrop =>
    simp only [expandVariable, hpeek, Option.bind_eq_bind, Option.bind_some, hdrop,
      Expand.expandVariable]
    by_cases hbrace : c = chr '\x7b'
    · rw [if_pos hbrace, if_pos hbrace]
      exact expandBracedVariable_agrees hword hlt sb
    · rw [if_neg hbrace, if_neg hbrace, ← hdrop, hloose]
      exact looseFrom_agrees hword sb hi []

theorem expandDollarsign_agrees (hword : NulFree word) (hi : i < word.length) (sb : Str) :
    Agrees word (expandDollarsign t word i sb)
      ((Expand.expandDollarsign exact t.env (word.drop (i + 1)) () sb).map fun r =>
        (r.1, r.2.1)) := by
  have hvariable := expandVariable_agrees (t := t) hword hi sb
  have hmap : ∀ r : Option (Str × Str),
      ((r.map fun r => (r.1, r.2, ())).map fun r => (r.1, r.2.1)) = r := fun r => by
    cases r <;> rfl
  cases at_of_le hword (Nat.succ_le_of_lt hi) with
  | nul hend hpeek hdrop =>
    have hne : (0 : UInt8) ≠ chr '(' := by decide
    simp only [expandDollarsign, hpeek, Option.bind_eq_bind, Option.bind_some, hne, if_false]
    rw [hdrop] at hvariable ⊢
    simpa only [Expand.expandDollarsign, hmap] using hvariable
  | byte c hc hlt hpeek hdrop =>
    simp only [expandDollarsign, hpeek, Option.bind_eq_bind, Option.bind_some]
    by_cases hparen : c = chr '('
    · obtain ⟨j, hj⟩ := skip_scanTo hword (chr ')') (i := i + 1 + 1) hlt
      have hcmdsub : ∀ body, t.env.cmdsub body () = some (t.captureListOutput body, ()) :=
        fun _ => rfl
      have happends : ∀ l, exact.appends sb l = some (sb ++ l) := fun _ => rfl
      rw [if_pos hparen, hdrop]
      simp only [expandCmdsub, hj.skipped, Option.bind_eq_bind, Option.bind_some,
        Expand.expandDollarsign, hparen, if_true, Expand.expandCmdsub]
      rcases hj.rest with ⟨hat, hlt', hrest⟩ | ⟨hat, hend, hrest⟩
      · have hscan : scanTo (chr ')') (word.drop (i + 1 + 1)) =
            (between word (i + 1 + 1) j, some (word.drop (j + 1))) := by
          rw [hj.between, ← hrest]
        rw [hat, hscan]
        simp only [Option.bind_some, if_true, hcmdsub, happends]
        exact ⟨j + 1, _, hlt', rfl, rfl⟩
      · have hne : (0 : UInt8) ≠ chr ')' := by decide
        have hscan : scanTo (chr ')') (word.drop (i + 1 + 1)) =
            (between word (i + 1 + 1) j, none) := by
          rw [hj.between, ← hrest]
        rw [hat, hscan]
        simp only [Option.bind_some, hne, if_false]
        exact ⟨j, sb, Nat.le_of_eq hend, rfl, by rw [hend, List.drop_length]; rfl⟩
    · rw [if_neg hparen]
      rw [hdrop] at hvariable ⊢
      simpa only [Expand.expandDollarsign, hparen, if_false, hmap] using hvariable

/-! ## The whole word -/

variable {flag : QuoteFlag}

/-- What a round at `i` makes of the cursor, and of the list. -/
inductive Keeps (word : Str) (i : Nat) :
    CursorState ⊕ Option (Str × Nat) → WordState Str Unit ⊕ Option (Str × Unit) → Prop
  | on {j : Nat} (hij : i < j) (hj : j ≤ word.length) (flag : QuoteFlag) (sb : Str) :
    Keeps word i (.inl ⟨j, flag, sb⟩) (.inl ⟨word.drop j, flag, sb, ()⟩)
  | past (flag : QuoteFlag) (sb : Str) :
    Keeps word i (.inl ⟨word.length + 1, flag, sb⟩) (.inr none)

theorem dollarOne_keeps (hword : NulFree word) (hi : i < word.length) (l : Str) :
    Keeps word i (goOn (dollarOne t word ⟨i, flag, sb⟩))
      (Expand.goOn (Expand.dollarOne exact t.env ⟨l, flag, sb, ()⟩ (word.drop (i + 1)))) := by
  obtain ⟨j, sb', hj, hcur, hlist⟩ := expandDollarsign_agrees (t := t) hword hi sb
  obtain ⟨r, hr, heq⟩ := Option.map_eq_some_iff.mp hlist
  obtain ⟨hi', hsb⟩ := Prod.mk.inj heq
  have hlt : i < j := expandDollarsign_lt t word hcur
  simp only [dollarOne, hcur, Expand.dollarOne, hr, Option.map_some, hi', hsb]
  exact .on hlt hj flag sb'

/-- An escape of the NUL takes the cursor behind it. -/
theorem escapeOne_keeps (hword : NulFree word) (hi : i < word.length) (l : Str) :
    Keeps word i (goOn (escapeOne word ⟨i, flag, sb⟩))
      (Expand.goOn (Expand.escapeOne exact ⟨l, flag, sb, ()⟩ (word.drop (i + 1)))) := by
  cases at_of_le hword (Nat.succ_le_of_lt hi) with
  | nul hend hpeek hdrop =>
    have hpast : Keeps word i _ _ := .past flag (sb ++ [0])
    rw [← hend] at hpast
    rw [hdrop, escapeOne, hpeek]
    exact hpast
  | byte c hc hlt hpeek hdrop =>
    have hnext := Keeps.on (i := i) (Nat.lt_succ_of_lt (Nat.lt_succ_self i)) hlt flag (sb ++ [c])
    rw [hdrop, escapeOne, hpeek]
    exact hnext

/-- One round of both loops. -/
theorem wordBody_keeps (hword : NulFree word) (hi : i < word.length) (flag : QuoteFlag) (sb : Str) :
    Keeps word i (wordBody t word ⟨i, flag, sb⟩)
      (expandBody exact t.env word.length ⟨word.drop i, flag, sb, ()⟩) := by
  cases at_of_le hword (Nat.le_of_lt hi) with
  | nul hend => omega
  | byte c hc _ hpeek hdrop =>
    have hfront : ((word.drop (i + 1)).length + 1 = word.length) ↔ i = 0 := by
      rw [List.length_drop]
      omega
    have next : ∀ flag' sb', Keeps word i (.inl ⟨i + 1, flag', sb'⟩)
        (.inl ⟨word.drop (i + 1), flag', sb', ()⟩) := .on (Nat.lt_succ_self i) hi
    have dollar : Keeps word i (goOn (dollarOne t word ⟨i, flag, sb⟩)) _ :=
      dollarOne_keeps hword hi (word.drop i)
    have escape : Keeps word i (goOn (escapeOne word ⟨i, flag, sb⟩)) _ :=
      escapeOne_keeps hword hi (word.drop i)
    have append : ∀ l, Expand.goOn (appendOne exact (⟨l, flag, sb, ()⟩ : WordState Str Unit) c
        (word.drop (i + 1))) = .inl ⟨word.drop (i + 1), flag, sb ++ [c], ()⟩ := fun _ => rfl
    have tilde : ∀ l, Expand.goOn (tildeOne exact t.env ⟨l, flag, sb, ()⟩ (word.drop (i + 1))) =
        .inl ⟨word.drop (i + 1), flag, expandTilde t sb, ()⟩ := fun l => by
      simp only [tildeOne, expandTilde_eq, Option.map_some, Expand.goOn]
    rw [hdrop] at dollar escape ⊢
    simp only [wordBody, hpeek, hc, if_false, expandBody]
    cases flag with
    | unquoted =>
      by_cases htilde : c = chr '~'
      · by_cases hi0 : i = 0
        · simp only [if_pos htilde, if_pos hi0, if_pos (hfront.mpr hi0), tilde]
          exact next _ _
        · simp only [if_pos htilde, if_neg hi0, if_neg (mt hfront.mp hi0), append]
          exact next _ _
      simp only [if_neg htilde]
      by_cases hdollar : c = chr '$'
      · simpa only [if_pos hdollar] using dollar
      simp only [if_neg hdollar]
      by_cases hescape : c = chr '\\'
      · simpa only [if_pos hescape] using escape
      simp only [if_neg hescape]
      by_cases hsingle : c = chr '\''
      · simpa only [if_pos hsingle] using next _ _
      simp only [if_neg hsingle]
      by_cases hdouble : c = chr '"'
      · simpa only [if_pos hdouble] using next _ _
      simp only [if_neg hdouble, append]
      exact next _ _
    | singleQuoted =>
      by_cases hsingle : c = chr '\''
      · simpa only [if_pos hsingle] using next _ _
      simp only [if_neg hsingle, append]
      exact next _ _
    | doubleQuoted =>
      by_cases hdouble : c = chr '"'
      · simpa only [if_pos hdouble] using next _ _
      simp only [if_neg hdouble]
      by_cases hescape : c = chr '\\'
      · simpa only [if_pos hescape] using escape
      simp only [if_neg hescape]
      by_cases hdollar : c = chr '$'
      · simpa only [if_pos hdollar] using dollar
      simp only [if_neg hdollar, append]
      exact next _ _

theorem expandFromAt_eq (hword : NulFree word) (hi : i ≤ word.length) (flag : QuoteFlag)
    (sb : Str) :
    expandFromAt t word ⟨i, flag, sb⟩ =
      (expandFrom exact t.env word.length ⟨word.drop i, flag, sb, ()⟩).map fun r =>
        (r.1, word.length) := by
  induction hn : word.length - i using Nat.strong_induction_on generalizing i flag sb with
  | _ n ih =>
    rcases Nat.eq_or_lt_of_le hi with rfl | hlt
    · have hround : wordBody t word ⟨word.length, flag, sb⟩ = .inr (some (sb, word.length)) := by
        simp only [wordBody, peek_end, if_true]
      rw [List.drop_length, expandFrom_nil]
      exact Loop.exec_of_inr _ hround
    · generalize hcur : wordBody t word ⟨i, flag, sb⟩ = r
      generalize hlist : expandBody exact t.env word.length ⟨word.drop i, flag, sb, ()⟩ = r'
      have hkeeps := wordBody_keeps (t := t) hword hlt flag sb
      rw [hcur, hlist] at hkeeps
      cases hkeeps with
      | @on j hij hj flag' sb' =>
        rw [expandFromAt, Loop.exec_of_inl _ hcur, expandFrom_of_inl hlist]
        exact ih (word.length - j) (by omega) hj flag' sb' rfl
      | past flag' sb' =>
        have hpast : expandFromAt t word ⟨word.length + 1, flag', sb'⟩ = none :=
          Loop.exec_of_inr _ (by simp [wordBody, peek_past])
        rw [expandFrom, Loop.exec_of_inr _ hlist, expandFromAt, Loop.exec_of_inl _ hcur]
        exact hpast

/-- **With the cursor as a position the word expands as it does with lists.**
The cursor is at the NUL when the expansion ends, and read behind it where the
list has nothing to go on with. -/
theorem expandWordAt_eq (t : Surroundings) {word : Str} (hword : NulFree word) :
    expandWordAt t word =
      (expandWord exact t.env word ()).map fun r => (r.1, word.length) :=
  expandFromAt_eq hword (Nat.zero_le _) .unquoted []

end Shell.ExpandCursor
