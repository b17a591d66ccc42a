import Shell.ParserReference

/-! # What parse_command stores where (av_append, rv_append and the copy out in parser.c)

The loop of `parse_command` again, over the blocks that it fills. A block counts by the
bytes that were last asked for. `realloc` is asked for twice the capacity, in bytes, and
the block of the final `argv` is one byte longer than its arguments. -/
namespace Shell.Parser
open Shell.CTypes Shell.Tokenlist Shell.Parsetypes

/-- `sizeof(char*)`. -/
def pointerSize : Nat := 8

/-- `sizeof(Redirect)`: two ints and a pointer. -/
def redirectSize : Nat := 16

/-- `ArgVector` and `RedirVec`. The size is the number of elements stored. -/
structure Vec (α : Type) where
  capacity : Nat
  /-- What was last requested for `arr`. -/
  bytes : Nat
  arr : List α
deriving DecidableEq, Repr

def avNew : Vec Str := { capacity := 16, bytes := pointerSize * 16, arr := [] }

def rvNew : Vec Redirect := { capacity := 16, bytes := 16 * redirectSize, arr := [] }

/-- The growth of both vectors. -/
def Vec.grow {α : Type} (vec : Vec α) : Vec α :=
  { vec with bytes := vec.capacity * 2, capacity := vec.capacity * 2 }

/-- The store behind the last element; `none` when it is outside of the block. -/
def Vec.store {α : Type} (width : Nat) (vec : Vec α) (x : α) : Option (Vec α) :=
  if (vec.arr.length + 1) * width ≤ vec.bytes then some { vec with arr := vec.arr ++ [x] } else none

def avAppend (vec : Vec Str) (arg : Str) : Option (Vec Str) :=
  let vec := if vec.arr.length = vec.capacity then vec.grow else vec
  vec.store pointerSize arg

/-- The growth also clears the block up to the new capacity. -/
def rvAppend (vec : Vec Redirect) (redirect : Redirect) : Option (Vec Redirect) :=
  if vec.arr.length = vec.capacity then
    if vec.grow.capacity * redirectSize ≤ vec.grow.bytes then vec.grow.store redirectSize redirect
    else none
  else vec.store redirectSize redirect

/-- Elements stored from the front of a new block on. -/
def storeAll {α : Type} (bytes width : Nat) (elements : List α) : Option (List α) :=
  if elements.length * width ≤ bytes then some elements else none

/-- The final `argv`, with its terminating null. -/
def copyArgv (av : Vec Str) : Option (List (Option Str)) :=
  storeAll (pointerSize * av.arr.length + 1) pointerSize (av.arr.map some ++ [none])

def copyRedirs (rv : Vec Redirect) : Option (List Redirect) :=
  storeAll (redirectSize * rv.arr.length) redirectSize rv.arr

inductive StoreFault
  | parse (fault : Fault)
  /-- A store outside of the bytes requested. -/
  | outside
  deriving DecidableEq, Repr

/-- What the loop of `parse_command` works on. -/
structure Collected where
  av : Vec Str
  rv : Vec Redirect
  assignmentList : List Str
deriving DecidableEq, Repr

def storeLoop : Nat → Collected → TokenStream → Except StoreFault (Collected × TokenStream)
  | 0, _, _ => .error (.parse .outOfFuel)
  | fuel + 1, c, ts =>
    let tok := tsPeek ts
    if tok.type = .word then
      match avAppend c.av tok.value with
      | none => .error .outside
      | some av => storeLoop fuel { c with av := av } (tsRead ts).2
    else if tok.type = .assignmentWord then
      if c.av.arr.length = 0 then
        storeLoop fuel { c with assignmentList := c.assignmentList ++ [tok.value] } (tsRead ts).2
      else match avAppend c.av tok.value with
        | none => .error .outside
        | some av => storeLoop fuel { c with av := av } (tsRead ts).2
    else if isRedirect tok.type then
      match tsExpect (tsRead ts).2 .word with
      | (none, _) => .error (.parse .nullDeref)
      | (some target, ts) =>
        match rvAppend c.rv { fd := tok.fd, mode := fromRedirTok tok.type, target := target.value } with
        | none => .error .outside
        | some rv => storeLoop fuel { c with rv := rv } ts
    else .ok (c, ts)

/-- A command whose `argv` ends in a null pointer. -/
structure StoredCommand where
  argv : List (Option Str)
  assignmentList : List Str
  redirs : List Redirect
deriving DecidableEq, Repr

def parseCommandStores (fuel : Nat) (ts : TokenStream) :
    Except StoreFault (StoredCommand × TokenStream) :=
  match storeLoop fuel { av := avNew, rv := rvNew, assignmentList := [] } ts with
  | .error e => .error e
  | .ok (c, ts) => match copyArgv c.av, copyRedirs c.rv with
    | some argv, some redirs => .ok (⟨argv, c.assignmentList, redirs⟩, ts)
    | _, _ => .error .outside

/-- Every store is inside its block, and the command is what the tokens say. -/
def StoresInside (fuel : Nat) (ts : TokenStream) (command : Command) : Prop :=
  ∃ ts', parseCommandStores fuel ts =
    .ok (⟨command.argv.map some ++ [none], command.assignmentList, command.redirs⟩, ts')

/-- Every store up to the copy out is inside its block. -/
def CollectsInside (fuel : Nat) (ts : TokenStream) (command : Command) : Prop :=
  ∃ c ts', storeLoop fuel { av := avNew, rv := rvNew, assignmentList := [] } ts = .ok (c, ts') ∧
    c.av.arr = command.argv ∧ c.assignmentList = command.assignmentList ∧
    c.rv.arr = command.redirs

/-! ## One append -/

/-- The vectors of the loop while they have not grown. -/
def collected (command : Command) : Collected where
  av := { avNew with arr := command.argv }
  rv := { rvNew with arr := command.redirs }
  assignmentList := command.assignmentList

/-- Both vectors have their first capacity. -/
def Small (command : Command) : Prop := command.argv.length ≤ 16 ∧ command.redirs.length ≤ 16

instance (command : Command) : Decidable (Small command) := inferInstanceAs (Decidable (_ ∧ _))

theorem avAppend_eq {args : List Str} (h : args.length ≤ 16) (arg : Str) :
    avAppend { avNew with arr := args } arg =
      if args.length + 1 ≤ 16 then some { avNew with arr := args ++ [arg] } else none := by
  by_cases hfull : args.length = 16
  · -- 32 bytes are asked for, and the store is at byte 128
    simp [avAppend, Vec.grow, Vec.store, avNew, pointerSize, hfull]
  · have hroom : args.length + 1 ≤ 16 := by omega
    have hinside : (args.length + 1) * 8 ≤ 128 := by omega
    simp [avAppend, Vec.store, avNew, pointerSize, hfull, hroom, hinside]

theorem rvAppend_eq {redirs : List Redirect} (h : redirs.length ≤ 16) (redirect : Redirect) :
    rvAppend { rvNew with arr := redirs } redirect =
      if redirs.length + 1 ≤ 16 then some { rvNew with arr := redirs ++ [redirect] } else none := by
  by_cases hfull : redirs.length = 16
  · simp [rvAppend, Vec.grow, rvNew, redirectSize, hfull]
  · have hroom : redirs.length + 1 ≤ 16 := by omega
    have hinside : (redirs.length + 1) * 16 ≤ 256 := by omega
    simp [rvAppend, Vec.store, rvNew, redirectSize, hfull, hroom, hinside]

/-! ## The loop -/

/-- The loop stores what the plain loop collects, unless a vector has to grow. -/
theorem storeLoop_eq : ∀ {fuel : Nat} {c c' : Command} {ts ts' : TokenStream},
    commandLoop fuel c ts = .ok (c', ts') → Small c →
    storeLoop fuel (collected c) ts =
      if Small c' then .ok (collected c', ts') else .error .outside
  | 0, _, _, _, _, h, _ => by cases h
  | fuel + 1, c, c', ts, ts', h, hsmall => by
    -- an append to the arguments goes on, or is the end of both
    have append : ∀ value, commandLoop fuel { c with argv := c.argv ++ [value] } (tsRead ts).2 =
        .ok (c', ts') →
        (match avAppend (collected c).av value with
          | none => Except.error StoreFault.outside
          | some av => storeLoop fuel { collected c with av := av } (tsRead ts).2) =
        if Small c' then .ok (collected c', ts') else .error .outside := by
      intro value hrun
      have hlength := (commandLoop_appends hrun).1.length_le
      rw [List.length_append, List.length_singleton] at hlength
      simp only [collected, avAppend_eq hsmall.1]
      by_cases hroom : c.argv.length + 1 ≤ 16
      · rw [if_pos hroom]
        exact storeLoop_eq hrun ⟨by rwa [List.length_append, List.length_singleton], hsmall.2⟩
      · rw [if_neg hroom, if_neg fun hsmall' : Small c' => hroom (hlength.trans hsmall'.1)]
    rw [commandLoop] at h
    rw [storeLoop]
    by_cases hword : (tsPeek ts).type = .word
    · rw [if_pos hword] at h ⊢
      exact append _ h
    · rw [if_neg hword] at h ⊢
      by_cases hassign : (tsPeek ts).type = .assignmentWord
      · rw [if_pos hassign] at h ⊢
        by_cases hfirst : c.argv = []
        · rw [if_pos hfirst] at h
          rw [if_pos (show (collected c).av.arr.length = 0 from List.length_eq_zero_iff.mpr hfirst)]
          exact storeLoop_eq h hsmall
        · rw [if_neg hfirst] at h
          rw [if_neg (show ¬ (collected c).av.arr.length = 0 from
            fun hzero => hfirst (List.length_eq_zero_iff.mp hzero))]
          exact append _ h
      · rw [if_neg hassign] at h ⊢
        by_cases hredir : isRedirect (tsPeek ts).type = true
        · rw [if_pos hredir] at h ⊢
          cases hexpect : tsExpect (tsRead ts).2 .word with
          | mk found ts1 =>
            cases found with
            | none =>
              rw [hexpect] at h
              cases h
            | some target =>
              rw [hexpect] at h
              have hlength := (commandLoop_appends h).2.length_le
              rw [List.length_append, List.length_singleton] at hlength
              simp only [collected, rvAppend_eq hsmall.2]
              by_cases hroom : c.redirs.length + 1 ≤ 16
              · rw [if_pos hroom]
                exact storeLoop_eq h ⟨hsmall.1, by rwa [List.length_append, List.length_singleton]⟩
              · rw [if_neg hroom, if_neg fun hsmall' : Small c' => hroom (hlength.trans hsmall'.2)]
        · rw [if_neg hredir] at h ⊢
          obtain ⟨rfl, rfl⟩ := Prod.mk.inj (Except.ok.inj h)
          rw [if_pos hsmall]

/-! ## The copy out -/

/-- The terminating null begins at the last byte of its block. -/
theorem copyArgv_eq_none (av : Vec Str) : copyArgv av = none := by
  rw [copyArgv, storeAll, if_neg]
  simp only [List.length_append, List.length_map, List.length_singleton, pointerSize]
  omega

/-- **What is stored where.** For every sequence of command tokens the words and the
redirections are collected inside of their blocks exactly when there are at most sixteen
of each. The terminating null of `argv` is always stored outside. -/
theorem parseCommand_stores {c : List Token} (hc : ∀ t ∈ c, isCommandTok t.type = true)
    (hwf : Targeted c) {fuel : Nat} (hfuel : c.length < fuel) {ts : TokenStream} {t : Token}
    {more : List Token} (hrest : ts.rest = c ++ t :: more) (ht : isCommandTok t.type = false) :
    ¬ StoresInside fuel ts (refCommand c) ∧
      (CollectsInside fuel ts (refCommand c) ↔
        (refCommand c).argv.length ≤ 16 ∧ (refCommand c).redirs.length ≤ 16) := by
  obtain ⟨ts', hrun, -⟩ := parseCommand_spec hc hwf hfuel ts t more hrest ht
  have hstart : Small { argv := [], assignmentList := [], redirs := [] } :=
    ⟨Nat.zero_le _, Nat.zero_le _⟩
  have hstore : storeLoop fuel { av := avNew, rv := rvNew, assignmentList := [] } ts = _ :=
    storeLoop_eq hrun hstart
  constructor
  · intro hinside
    obtain ⟨ts'', hinside⟩ := hinside
    rw [parseCommandStores, hstore] at hinside
    split at hinside
    · cases hinside
    · rw [copyArgv_eq_none] at hinside
      cases hinside
  · constructor
    · intro hcollects
      obtain ⟨collected', ts'', hcollects, -⟩ := hcollects
      rw [hstore] at hcollects
      by_contra hlarge
      rw [if_neg (show ¬ Small (refCommand c) from hlarge)] at hcollects
      cases hcollects
    · intro hsmall
      rw [if_pos (show Small (refCommand c) from hsmall)] at hstore
      exact ⟨_, ts', hstore, rfl, rfl, rfl⟩

/-- The stream of a command of `n` words. -/
def wordsStream (n : Nat) : TokenStream where
  tokens := List.replicate n ⟨.word, str "w", 0⟩ ++ [⟨.eof, [], 0⟩]
  pos := 0
  inBounds := by simp

theorem parseCommand_stores_single :
    ¬ StoresInside 2 (wordsStream 1) (refCommand [⟨.word, str "w", 0⟩]) ∧
      (CollectsInside 2 (wordsStream 1) (refCommand [⟨.word, str "w", 0⟩]) ↔
        (refCommand [⟨.word, str "w", 0⟩]).argv.length ≤ 16 ∧
          (refCommand [⟨.word, str "w", 0⟩]).redirs.length ≤ 16) :=
  parseCommand_stores (c := [⟨.word, str "w", 0⟩]) (by simp [isCommandTok]) (.plain rfl .nil)
    (by simp) (show (wordsStream 1).rest = _ ++ ⟨.eof, [], 0⟩ :: [] from rfl) rfl

/-- One word: the null pointer is stored at bytes 8 to 15 of a block of 9. Seventeen: the
last one is stored at byte 128 of a block of 32. -/
theorem parseCommand_stores_outside :
    parseCommandStores 2 (wordsStream 1) = .error .outside ∧
    ¬ StoresInside 2 (wordsStream 1) (refCommand [⟨.word, str "w", 0⟩]) ∧
    storeLoop 18 { av := avNew, rv := rvNew, assignmentList := [] } (wordsStream 17) =
      .error .outside := by
  have hsingle : parseCommandStores 2 (wordsStream 1) = .error .outside := rfl
  refine ⟨hsingle, ?_, rfl⟩
  intro hinside
  obtain ⟨ts', hinside⟩ := hinside
  rw [hsingle] at hinside
  cases hinside

end Shell.Parser
