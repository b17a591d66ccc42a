import Shell.Lib.Generator
import Shell.NullLookups
import Shell.Path

/-! # Completing the first word (the generators of completion.c)

`first_word_generator` goes through the builtins and then through the directories of
`PATH`; its two halves keep their places in static variables. The completed text is
shorter than `INT_MAX`, so `len` is its length. -/
namespace Shell.FirstWord
open Shell.CTypes Shell.Path Shell.Lib

/-- What the generators find outside of the shell. -/
structure World where
  /-- `getenv("PATH")` -/
  path : Option Str
  /-- The names that `readdir` gives, in its order. -/
  opendir : Str → Option (List Str)
  /-- `stat` finds a regular file there that its owner may execute. -/
  stat : Str → Bool

/-- The static variables of the three functions. -/
structure Statics where
  phase : Nat
  listIndex : Nat
  builtinLen : Nat
  /-- What `strtok` has left of `path_copy`. -/
  pathCopy : Str
  dirToken : Option Str
  /-- The names that are not read yet. -/
  currentDir : Option (List Str)
  pathLen : Nat

/-- `strncmp(name, text, len) == 0` -/
def strncmpEq (name text : Str) (len : Nat) : Bool := name.take len == text.take len

/-! ## builtin_generator -/

def NUMBUILTINS : Nat := NullLookups.builtins.length

/-- The loop from the name with index `i` on. -/
def builtinLoop (text : Str) (len : Nat) : Nat → List Str → Option Str × Nat
  | i, [] => (none, i)
  | i, name :: rest =>
    if i + 1 = NUMBUILTINS then (none, i + 1)
    else if strncmpEq name text len then (some name, i + 1)
    else builtinLoop text len (i + 1) rest

def builtinGenerator (text : Str) (state : Bool) (s : Statics) : Option Str × Statics :=
  let s := if state then s else { s with listIndex := 0, builtinLen := text.length }
  let r := builtinLoop text s.builtinLen s.listIndex (NullLookups.builtins.drop s.listIndex)
  (r.1, { s with listIndex := r.2 })

/-! ## path_generator -/

def skipColons (rest : Str) : Str := rest.dropWhile (· = chr ':')

/-- `strtok(.., ":")`: the token, and what is left behind it. -/
def strtok (rest : Str) : Option (Str × Str) :=
  if skipColons rest = [] then none
  else some ((skipColons rest).takeWhile (· ≠ chr ':'),
    ((skipColons rest).dropWhile (· ≠ chr ':')).tail)

/-- The next directory, opened. -/
def nextDir (w : World) (rest : Str) (s : Statics) : Statics :=
  match strtok rest with
  | none => { s with pathCopy := [], dirToken := none, currentDir := none }
  | some (token, rest) =>
    { s with pathCopy := rest, dirToken := some token, currentDir := w.opendir token }

def PATH_MAX : Nat := 4096

/-- `full_path`, cut to the size of its buffer. -/
def fullPath (dir name : Str) : Str := (dir ++ str "/" ++ name).take (PATH_MAX - 1)

/-- The loop over `readdir`: the name it returns, and the names behind it. -/
def readLoop (w : World) (text : Str) (len : Nat) (dir : Str) : List Str → Option (Str × List Str)
  | [] => none
  | name :: entries =>
    if strncmpEq name text len && w.stat (fullPath dir name) then some (name, entries)
    else readLoop w text len dir entries

def pathBody (w : World) (text : Str) (s : Statics) : Statics ⊕ (Option Str × Statics) :=
  match s.dirToken with
  | none => .inr (none, s)
  | some dir =>
    match s.currentDir with
    | none => .inl (nextDir w s.pathCopy s)
    | some entries =>
      match readLoop w text s.pathLen dir entries with
      | some (name, entries) => .inr (some name, { s with currentDir := some entries })
      | none => .inl (nextDir w s.pathCopy s)

/-- How much of the path the loop has left. -/
def pathMeasure (s : Statics) : Nat := if s.dirToken = none then 0 else s.pathCopy.length + 1

@[simp] theorem nextDir_phase (w : World) (rest : Str) (s : Statics) :
    (nextDir w rest s).phase = s.phase := by
  unfold nextDir
  split <;> rfl

@[simp] theorem nextDir_pathLen (w : World) (rest : Str) (s : Statics) :
    (nextDir w rest s).pathLen = s.pathLen := by
  unfold nextDir
  split <;> rfl

/-- A token is at the front of what was left, behind colons. -/
theorem length_strtok_lt {rest token left : Str} (h : strtok rest = some (token, left)) :
    left.length < rest.length := by
  unfold strtok at h
  split at h
  · cases h
  · rename_i hne
    obtain ⟨-, rfl⟩ := Prod.mk.inj (Option.some.inj h)
    have hcolons : (skipColons rest).length ≤ rest.length := (List.dropWhile_sublist _).length_le
    have htoken := (List.dropWhile_sublist (l := skipColons rest) (· ≠ chr ':')).length_le
    have hpos := List.length_pos_of_ne_nil hne
    rw [List.length_tail]
    omega

theorem pathMeasure_nextDir (w : World) (s : Statics) {dir : Str} (h : s.dirToken = some dir) :
    pathMeasure (nextDir w s.pathCopy s) < pathMeasure s := by
  have hpos : pathMeasure s = s.pathCopy.length + 1 := by simp [pathMeasure, h]
  rw [hpos]
  unfold nextDir
  split
  · simp [pathMeasure]
  · rename_i token rest htoken
    have hlt := length_strtok_lt htoken
    simp [pathMeasure]
    omega

theorem pathBody_inl {w : World} {text : Str} {s s' : Statics}
    (h : pathBody w text s = .inl s') : ∃ dir, s.dirToken = some dir ∧
      s' = nextDir w s.pathCopy s ∧ ∀ entries, s.currentDir = some entries →
        readLoop w text s.pathLen dir entries = none := by
  unfold pathBody at h
  cases hdir : s.dirToken with
  | none =>
    rw [hdir] at h
    cases h
  | some dir =>
    rw [hdir] at h
    cases hopen : s.currentDir with
    | none =>
      rw [hopen] at h
      exact ⟨dir, rfl, (Sum.inl.inj h).symm, fun entries he => by cases he⟩
    | some entries =>
      rw [hopen] at h
      cases hread : readLoop w text s.pathLen dir entries with
      | none =>
        simp only [hread] at h
        refine ⟨dir, rfl, (Sum.inl.inj h).symm, fun entries' he => ?_⟩
        rw [← Option.some.inj he, hread]
      | some found =>
        simp only [hread] at h
        cases h

theorem pathBody_decreasing (w : World) (text : Str) :
    Loop.Decreasing (pathBody w text) pathMeasure := by
  intro s s' h
  obtain ⟨dir, hdir, rfl, -⟩ := pathBody_inl h
  exact pathMeasure_nextDir w s hdir

def pathLoop (w : World) (text : Str) (s : Statics) : Option Str × Statics :=
  Loop.exec (pathBody w text) pathMeasure (pathBody_decreasing w text) s

def pathGenerator (w : World) (text : Str) (state : Bool) (s : Statics) : Option Str × Statics :=
  if state then pathLoop w text s
  else
    let s := { s with currentDir := none, pathCopy := [] }
    match w.path with
    -- `dir_token` and `len` keep their values
    | none => (none, s)
    | some path => pathLoop w text (nextDir w path { s with pathLen := text.length })

/-! ## first_word_generator -/

def firstWordGenerator (w : World) (text : Str) (state : Bool) (s : Statics) :
    Option Str × Statics :=
  let s := if state then s else { s with phase := 0 }
  if s.phase = 0 then
    let r := builtinGenerator text state s
    if r.1.isSome then r else pathGenerator w text false { r.2 with phase := 1 }
  else pathGenerator w text state s

/-! ## What is pending -/

/-- The names of a directory that are returned, of those that are not read yet. -/
def dirMatches (w : World) (text dir : Str) (entries : List Str) : List Str :=
  entries.filter fun name => text.isPrefixOf name && w.stat (fullPath dir name)

/-- The directories that `strtok` finds. -/
def tokens (rest : Str) : List Str := (parts rest).filter (· ≠ [])

def tokensPending (w : World) (text rest : Str) : List Str :=
  (tokens rest).flatMap fun dir => dirMatches w text dir ((w.opendir dir).getD [])

def pathPending (w : World) (text : Str) (s : Statics) : List Str :=
  match s.dirToken with
  | none => []
  | some dir => dirMatches w text dir (s.currentDir.getD []) ++ tokensPending w text s.pathCopy

def builtinsPending (text : Str) (i : Nat) : List Str :=
  (NullLookups.builtins.dropLast.drop i).filter (text.isPrefixOf ·)

def pathStart (w : World) (text : Str) : List Str := (w.path.map (tokensPending w text)).getD []

def pending (w : World) (text : Str) (s : Statics) : List Str :=
  if s.phase = 0 then builtinsPending text s.listIndex ++ pathStart w text
  else pathPending w text s

/-- What the calls for one text keep. -/
structure Running (text : Str) (s : Statics) : Prop where
  builtins : s.phase = 0 → s.builtinLen = text.length ∧ s.listIndex < NUMBUILTINS
  path : s.phase ≠ 0 → s.pathLen = text.length

theorem strncmpEq_length (name text : Str) :
    strncmpEq name text text.length = text.isPrefixOf name := by
  rw [strncmpEq, List.take_length, Bool.eq_iff_iff, beq_iff_eq, List.isPrefixOf_iff_prefix,
    List.prefix_iff_eq_take, eq_comm]

theorem dirMatches_cons (w : World) (text dir name : Str) (entries : List Str) :
    dirMatches w text dir (name :: entries) =
      if (text.isPrefixOf name && w.stat (fullPath dir name)) = true then
        name :: dirMatches w text dir entries
      else dirMatches w text dir entries := by
  rw [dirMatches, List.filter_cons]
  rfl

theorem readLoop_none {w : World} {text dir : Str} {entries : List Str}
    (h : readLoop w text text.length dir entries = none) : dirMatches w text dir entries = [] := by
  induction entries with
  | nil => rfl
  | cons name entries ih =>
    rw [readLoop, strncmpEq_length] at h
    split at h
    · cases h
    · rename_i hno
      rw [dirMatches_cons, if_neg hno]
      exact ih h

theorem readLoop_some {w : World} {text dir name : Str} {entries rest : List Str}
    (h : readLoop w text text.length dir entries = some (name, rest)) :
    dirMatches w text dir entries = name :: dirMatches w text dir rest := by
  induction entries with
  | nil => cases h
  | cons first entries ih =>
    rw [readLoop, strncmpEq_length] at h
    rw [dirMatches_cons]
    split at h
    · rename_i hyes
      rw [if_pos hyes]
      cases h
      rfl
    · rename_i hno
      rw [if_neg hno]
      exact ih h

/-! ## The directories -/

theorem tokens_colon (rest : Str) : tokens (chr ':' :: rest) = tokens rest := by
  have hparts : parts ([] ++ chr ':' :: rest) = [] :: parts rest :=
    parts_cons List.not_mem_nil rest
  rw [List.nil_append] at hparts
  rw [tokens, hparts, List.filter_cons_of_neg (by simp), tokens]

theorem tokens_skipColons (rest : Str) : tokens (skipColons rest) = tokens rest := by
  induction rest with
  | nil => rfl
  | cons c rest ih =>
    by_cases hc : c = chr ':'
    · rw [hc, tokens_colon, ← ih, skipColons, List.dropWhile_cons_of_pos (by simp), skipColons]
    · rw [skipColons, List.dropWhile_cons_of_neg (by simpa using hc)]

theorem tokens_of_none {rest : Str} (h : strtok rest = none) : tokens rest = [] := by
  unfold strtok at h
  split at h
  · rename_i hnil
    rw [← tokens_skipColons, hnil, tokens, parts_nil, List.filter_nil]
  · cases h

theorem tokens_of_some {rest token left : Str} (h : strtok rest = some (token, left)) :
    tokens rest = token :: tokens left := by
  unfold strtok at h
  split at h
  · cases h
  · rename_i hne
    obtain ⟨rfl, rfl⟩ := Prod.mk.inj (Option.some.inj h)
    rw [← tokens_skipColons]
    have hcut := List.takeWhile_append_dropWhile (p := (· ≠ chr ':')) (l := skipColons rest)
    have hcolon := not_mem_takeWhile_colon (skipColons rest)
    -- the first byte is no colon, so the token is not empty
    have htoken : (skipColons rest).takeWhile (· ≠ chr ':') ≠ [] := by
      intro hnil
      cases hskip : skipColons rest with
      | nil => exact hne hskip
      | cons c tail =>
        have hhead := List.head?_dropWhile_not (· = chr ':') rest
        rw [skipColons] at hskip
        rw [hskip] at hhead
        rw [skipColons, hskip, List.takeWhile_cons_of_pos (by simpa using hhead)] at hnil
        cases hnil
    obtain hdrop | ⟨tail, hdrop⟩ := dropWhile_colon (skipColons rest)
    · rw [hdrop, List.append_nil] at hcut
      rw [hcut] at hcolon htoken
      rw [hdrop, hcut, List.tail_nil, tokens, parts_single htoken hcolon,
        List.filter_cons_of_pos (by simpa using htoken), tokens, parts_nil]
    · rw [hdrop, List.tail_cons]
      conv_lhs => rw [← hcut, hdrop, tokens, parts_cons hcolon]
      rw [List.filter_cons_of_pos (by simpa using htoken), tokens]

/-! ## Each call takes the front -/

theorem pathPending_nextDir (w : World) (text rest : Str) (s : Statics) :
    pathPending w text (nextDir w rest s) = tokensPending w text rest := by
  unfold nextDir
  split
  · rename_i hnone
    rw [tokensPending, tokens_of_none hnone]
    rfl
  · rename_i token left hsome
    rw [tokensPending, tokens_of_some hsome, List.flatMap_cons]
    rfl

theorem pathPending_of_inl {w : World} {text : Str} {s s' : Statics}
    (hlen : s.pathLen = text.length) (h : pathBody w text s = .inl s') :
    pathPending w text s' = pathPending w text s := by
  obtain ⟨dir, hdir, rfl, hread⟩ := pathBody_inl h
  rw [pathPending_nextDir]
  simp only [pathPending, hdir]
  cases hopen : s.currentDir with
  | none => rfl
  | some entries =>
    have hnone := hread entries hopen
    rw [hlen] at hnone
    rw [Option.getD_some, readLoop_none hnone, List.nil_append]

/-- The two ways to leave the loop of `path_generator`. -/
theorem pathBody_inr {w : World} {text : Str} {s : Statics} {r : Option Str × Statics}
    (hlen : s.pathLen = text.length) (h : pathBody w text s = .inr r) :
    pathPending w text s = [] ∧ r.1 = none ∨
      ∃ name, r.1 = some name ∧ pathPending w text s = name :: pathPending w text r.2 ∧
        r.2.phase = s.phase ∧ r.2.pathLen = s.pathLen := by
  unfold pathBody at h
  cases hdir : s.dirToken with
  | none =>
    rw [hdir] at h
    obtain rfl := Sum.inr.inj h
    exact .inl ⟨by simp only [pathPending, hdir], rfl⟩
  | some dir =>
    rw [hdir] at h
    cases hopen : s.currentDir with
    | none =>
      rw [hopen] at h
      cases h
    | some entries =>
      rw [hopen] at h
      cases hread : readLoop w text s.pathLen dir entries with
      | none =>
        simp only [hread] at h
        cases h
      | some found =>
        obtain ⟨name, rest⟩ := found
        simp only [hread] at h
        obtain rfl := Sum.inr.inj h
        rw [hlen] at hread
        refine .inr ⟨name, rfl, ?_, rfl, rfl⟩
        simp only [pathPending, hdir, hopen, Option.getD_some, readLoop_some hread, List.cons_append]

theorem pathLoop_pops (w : World) {text : Str} {s : Statics} (hphase : s.phase ≠ 0)
    (hlen : s.pathLen = text.length) :
    Generator.Pops (pending w text) (Running text) (pathLoop w text s) (pathPending w text s) := by
  obtain ⟨t, ⟨ht, htphase, htlen⟩, hleave⟩ := Loop.exec_invariant
    (fun t => pathPending w text t = pathPending w text s ∧ t.phase = s.phase ∧
      t.pathLen = text.length)
    (pathBody_decreasing w text)
    (fun t t' hI hstep => by
      obtain ⟨ht, htphase, htlen⟩ := hI
      refine ⟨(pathPending_of_inl htlen hstep).trans ht, ?_, ?_⟩
      · obtain ⟨dir, -, rfl, -⟩ := pathBody_inl hstep
        rw [nextDir_phase, htphase]
      · obtain ⟨dir, -, rfl, -⟩ := pathBody_inl hstep
        rw [nextDir_pathLen, htlen])
    ⟨rfl, rfl, hlen⟩
  obtain ⟨hnil, hnone⟩ | ⟨name, hname, hcons, hphase', hlen'⟩ := pathBody_inr htlen hleave
  · rw [← ht, hnil]
    exact hnone
  · rw [← ht, hcons]
    have hne : (pathLoop w text s).2.phase ≠ 0 := by
      rw [pathLoop, hphase', htphase]
      exact hphase
    refine ⟨hname, ?_, ⟨fun hzero => absurd hzero hne, fun _ => hlen'.trans htlen⟩⟩
    rw [pending, if_neg hne]
    rfl

/-- The first call for the directories, whatever the variables held. -/
theorem pathGenerator_start (w : World) (text : Str) {s : Statics} (hphase : s.phase ≠ 0) :
    Generator.Pops (pending w text) (Running text) (pathGenerator w text false s)
      (pathStart w text) := by
  rw [pathGenerator, if_neg Bool.false_ne_true, pathStart]
  cases hpath : w.path with
  | none => exact rfl
  | some path =>
    rw [Option.map_some, Option.getD_some, ← pathPending_nextDir w text path
      { { s with currentDir := none, pathCopy := [] } with pathLen := text.length }]
    exact pathLoop_pops w (by rw [nextDir_phase]; exact hphase) (by rw [nextDir_pathLen])

theorem drop_builtins {i : Nat} (hi : i < NUMBUILTINS) :
    NullLookups.builtins.drop i = NullLookups.builtins[i] :: NullLookups.builtins.drop (i + 1) :=
  List.drop_eq_getElem_cons hi

theorem builtinsPending_cons (text : Str) {i : Nat} (hi : i < NUMBUILTINS) :
    builtinsPending text i =
      if i + 1 = NUMBUILTINS then []
      else if text.isPrefixOf NullLookups.builtins[i] then
        NullLookups.builtins[i] :: builtinsPending text (i + 1)
      else builtinsPending text (i + 1) := by
  have hlen : NullLookups.builtins.dropLast.length = NUMBUILTINS - 1 := List.length_dropLast
  split
  · rw [builtinsPending, List.drop_of_length_le (by omega), List.filter_nil]
  · have hlt : i < NullLookups.builtins.dropLast.length := by omega
    rw [builtinsPending, List.drop_eq_getElem_cons hlt, List.getElem_dropLast, List.filter_cons]
    rfl

/-- The index is advanced before it is tested, so the loop leaves out the last name. -/
theorem builtinLoop_pops (text : Str) {i : Nat} (hi : i < NUMBUILTINS) :
    match builtinsPending text i with
    | [] => (builtinLoop text text.length i (NullLookups.builtins.drop i)).1 = none
    | m :: ms => (builtinLoop text text.length i (NullLookups.builtins.drop i)).1 = some m ∧
        (builtinLoop text text.length i (NullLookups.builtins.drop i)).2 < NUMBUILTINS ∧
        builtinsPending text (builtinLoop text text.length i (NullLookups.builtins.drop i)).2 = ms := by
  induction hn : NUMBUILTINS - i generalizing i with
  | zero => omega
  | succ n ih =>
    rw [builtinsPending_cons text hi, drop_builtins hi, builtinLoop, strncmpEq_length]
    by_cases hlast : i + 1 = NUMBUILTINS
    · rw [if_pos hlast, if_pos hlast]
    · rw [if_neg hlast, if_neg hlast]
      by_cases hprefix : text.isPrefixOf NullLookups.builtins[i] = true
      · rw [if_pos hprefix, if_pos hprefix]
        exact ⟨rfl, by simp only; omega, rfl⟩
      · rw [if_neg hprefix, if_neg hprefix]
        exact ih (by omega) (by omega)

theorem builtinGenerator_eq {text : Str} {state : Bool} {s : Statics} {i : Nat}
    (hi : i = if state then s.listIndex else 0) (hlen : state = true → s.builtinLen = text.length) :
    builtinGenerator text state s =
      ((builtinLoop text text.length i (NullLookups.builtins.drop i)).1,
        { s with
          listIndex := (builtinLoop text text.length i (NullLookups.builtins.drop i)).2
          builtinLen := text.length }) := by
  cases state with
  | false =>
    obtain rfl : i = 0 := hi
    rfl
  | true =>
    obtain rfl : i = s.listIndex := hi
    simp only [builtinGenerator, if_true, hlen rfl]

/-- A call in the builtins: the next of them, or else the first of the directories. -/
theorem builtinGenerator_pops (w : World) {text : Str} {state : Bool} {s : Statics} {i : Nat}
    (hphase : s.phase = 0) (hi : i = if state then s.listIndex else 0) (hlt : i < NUMBUILTINS)
    (hlen : state = true → s.builtinLen = text.length) :
    Generator.Pops (pending w text) (Running text)
      (if (builtinGenerator text state s).1.isSome then builtinGenerator text state s
        else pathGenerator w text false { (builtinGenerator text state s).2 with phase := 1 })
      (builtinsPending text i ++ pathStart w text) := by
  have hloop := builtinLoop_pops text hlt
  rw [builtinGenerator_eq hi hlen]
  cases hpending : builtinsPending text i with
  | nil =>
    rw [hpending] at hloop
    rw [hloop, if_neg (by simp), List.nil_append]
    exact pathGenerator_start w text (by simp)
  | cons m ms =>
    rw [hpending] at hloop
    obtain ⟨hsome, hindex, hrest⟩ := hloop
    rw [hsome, if_pos (Option.isSome_some (a := m)), List.cons_append]
    refine ⟨rfl, ?_, ⟨fun _ => ⟨rfl, hindex⟩, fun hne => absurd hphase hne⟩⟩
    rw [pending, if_pos hphase, hrest]

theorem numBuiltins_pos : 0 < NUMBUILTINS := by
  simp [NUMBUILTINS, NullLookups.builtins]

theorem firstWordGenerator_start (w : World) (text : Str) (s : Statics) :
    Generator.Pops (pending w text) (Running text) (firstWordGenerator w text false s)
      (builtinsPending text 0 ++ pathStart w text) :=
  builtinGenerator_pops w (s := { s with phase := 0 }) rfl rfl numBuiltins_pos
    fun h => absurd h Bool.false_ne_true

theorem firstWordGenerator_next (w : World) {text : Str} {s : Statics} (h : Running text s) :
    Generator.Pops (pending w text) (Running text) (firstWordGenerator w text true s)
      (pending w text s) := by
  by_cases hphase : s.phase = 0
  · obtain ⟨hlen, hindex⟩ := h.builtins hphase
    have hpops := @builtinGenerator_pops w text true s s.listIndex hphase rfl hindex fun _ => hlen
    rw [pending, if_pos hphase]
    simpa only [firstWordGenerator, if_true, hphase] using hpops
  · have hpops := pathLoop_pops w hphase (h.path hphase)
    rw [pending, if_neg hphase]
    simpa only [firstWordGenerator, if_true, hphase, if_false, pathGenerator] using hpops

/-- Whatever the variables hold, a round of calls delivers the builtins but the last
and then the directories that `strtok` finds. -/
theorem firstWordGenerator_delivers (w : World) (text : Str) (s : Statics) :
    Generator.Delivers (firstWordGenerator w text true) (firstWordGenerator w text false s)
      (builtinsPending text 0 ++ pathStart w text) :=
  Generator.delivers_of_pops (fun _ h => firstWordGenerator_next w h)
    (firstWordGenerator_start w text s)

/-! ## What should be delivered -/

/-- What a directory should give. -/
def dirWanted (w : World) (text dir : Str) : List Str :=
  ((w.opendir dir).getD []).filter fun name =>
    text.isPrefixOf name && w.stat (dir ++ str "/" ++ name)

/-- The builtins that start with the text, and the executable files that do,
directory by directory; an empty directory of `PATH` is the working directory. -/
def wanted (w : World) (text : Str) : List Str :=
  NullLookups.builtins.filter (text.isPrefixOf ·) ++
    (components w.path).flatMap (dirWanted w text)

/-- Whatever kinds of files the names are, and whatever an earlier round has left in
the variables, a round of calls delivers what it should. -/
def Completes (path : Option Str) (opendir : Str → Option (List Str)) (text : Str) : Prop :=
  ∀ (stat : Str → Bool) (s : Statics),
    Generator.Delivers (firstWordGenerator ⟨path, opendir, stat⟩ text true)
      (firstWordGenerator ⟨path, opendir, stat⟩ text false s) (wanted ⟨path, opendir, stat⟩ text)

/-- The parts of `PATH`, with the empty ones. -/
def allParts (path : Option Str) : List Str := (path.map parts).getD []

/-- The text does not start the last builtin, no name in the working directory starts
with it if that is an empty part of `PATH`, and the paths of those that do fit in
`full_path`. -/
structure Unaffected (path : Option Str) (opendir : Str → Option (List Str)) (text : Str) :
    Prop where
  builtins : ¬ text <+: str "type"
  empty : [] ∈ allParts path →
    ∀ name ∈ (opendir (str ".")).getD [], ¬ text <+: name
  fits : ∀ dir ∈ (path.map tokens).getD [], ∀ name ∈ (opendir dir).getD [], text <+: name →
    (dir ++ str "/" ++ name).length < PATH_MAX

/-! ## Where the two agree -/

theorem length_flatMap_le {α β : Type} {l : List α} {f g : α → List β}
    (hle : ∀ x ∈ l, (f x).length ≤ (g x).length) :
    (l.flatMap f).length ≤ (l.flatMap g).length := by
  induction l with
  | nil => exact le_rfl
  | cons a l ih =>
    rw [List.forall_mem_cons] at hle
    rw [List.flatMap_cons, List.flatMap_cons, List.length_append, List.length_append]
    exact Nat.add_le_add hle.1 (ih hle.2)

/-- A list cut down in some places keeps its length only where nothing is cut. -/
theorem length_flatMap_eq {α β : Type} {l : List α} {f g : α → List β}
    (hle : ∀ x ∈ l, (f x).length ≤ (g x).length)
    (heq : (l.flatMap f).length = (l.flatMap g).length) :
    ∀ x ∈ l, (f x).length = (g x).length := by
  induction l with
  | nil => exact fun x hx => absurd hx List.not_mem_nil
  | cons a l ih =>
    rw [List.forall_mem_cons] at hle ⊢
    rw [List.flatMap_cons, List.flatMap_cons, List.length_append, List.length_append] at heq
    have hrest := length_flatMap_le hle.2
    exact ⟨by omega, ih hle.2 (by omega)⟩

variable {path : Option Str} {opendir : Str → Option (List Str)} {text : Str}

theorem builtins_eq : NullLookups.builtins = NullLookups.builtins.dropLast ++ [str "type"] := rfl

theorem wanted_eq (w : World) : wanted w text = builtinsPending text 0 ++
    ([str "type"].filter (text.isPrefixOf ·) ++
      (allParts w.path).flatMap fun dir =>
        dirWanted w text (if dir = [] then str "." else dir)) := by
  have hbuiltins : NullLookups.builtins.filter (text.isPrefixOf ·) =
      builtinsPending text 0 ++ [str "type"].filter (text.isPrefixOf ·) := by
    conv_lhs => rw [builtins_eq]
    rw [List.filter_append]
    rfl
  rw [wanted, hbuiltins, List.append_assoc]
  cases hpath : w.path with
  | none => simp [components, allParts]
  | some path =>
    rw [components, allParts, List.flatMap_map]
    rfl

theorem pathStart_eq (w : World) : pathStart w text =
    (allParts w.path).flatMap fun dir =>
      if dir = [] then [] else dirMatches w text dir ((w.opendir dir).getD []) := by
  rw [pathStart, allParts]
  cases w.path with
  | none => rfl
  | some path =>
    rw [Option.map_some, Option.getD_some, Option.map_some, Option.getD_some, tokensPending, tokens]
    induction parts path with
    | nil => rfl
    | cons dir rest ih =>
      by_cases hdir : dir = []
      · rw [List.filter_cons_of_neg (by simpa using hdir), ih, List.flatMap_cons, if_pos hdir,
          List.nil_append]
      · rw [List.filter_cons_of_pos (by simpa using hdir), List.flatMap_cons, ih, List.flatMap_cons,
          if_neg hdir]

theorem completes_iff_eq : Completes path opendir text ↔ ∀ stat : Str → Bool,
    pathStart ⟨path, opendir, stat⟩ text = [str "type"].filter (text.isPrefixOf ·) ++
      (allParts path).flatMap fun dir =>
        dirWanted ⟨path, opendir, stat⟩ text (if dir = [] then str "." else dir) := by
  have hsplit : ∀ stat : Str → Bool, wanted ⟨path, opendir, stat⟩ text =
      builtinsPending text 0 ++ ([str "type"].filter (text.isPrefixOf ·) ++
        (allParts path).flatMap fun dir =>
          dirWanted ⟨path, opendir, stat⟩ text (if dir = [] then str "." else dir)) :=
    fun stat => wanted_eq ⟨path, opendir, stat⟩
  constructor
  · intro h stat
    have hdelivers := firstWordGenerator_delivers ⟨path, opendir, stat⟩ text
      { phase := 0, listIndex := 0, builtinLen := 0, pathCopy := [], dirToken := none,
        currentDir := none, pathLen := 0 }
    have hsame := hdelivers.unique (h stat _)
    rw [hsplit] at hsame
    exact List.append_cancel_left hsame
  · intro h stat s
    rw [hsplit, ← h stat]
    exact firstWordGenerator_delivers ⟨path, opendir, stat⟩ text s

theorem fullPath_of_lt {dir name : Str} (h : (dir ++ str "/" ++ name).length < PATH_MAX) :
    fullPath dir name = dir ++ str "/" ++ name :=
  List.take_of_length_le (by omega)

theorem mem_tokens_iff {dir : Str} :
    dir ∈ (path.map tokens).getD [] ↔ dir ∈ allParts path ∧ dir ≠ [] := by
  cases path with
  | none => simp [allParts]
  | some path => simp [allParts, tokens]

theorem dirMatches_eq_dirWanted {w : World} {dir : Str}
    (h : ∀ name ∈ (w.opendir dir).getD [], text <+: name → (dir ++ str "/" ++ name).length < PATH_MAX) :
    dirMatches w text dir ((w.opendir dir).getD []) = dirWanted w text dir := by
  refine List.filter_congr fun name hname => ?_
  by_cases hprefix : text <+: name
  · rw [fullPath_of_lt (h name hname hprefix)]
  · have hfalse : text.isPrefixOf name = false := by
      rw [Bool.eq_false_iff]
      exact mt List.isPrefixOf_iff_prefix.mp hprefix
    rw [hfalse, Bool.false_and, Bool.false_and]

theorem type_filter (h : ¬ text <+: str "type") :
    [str "type"].filter (text.isPrefixOf ·) = [] :=
  List.filter_cons_of_neg (mt List.isPrefixOf_iff_prefix.mp h)

theorem completes_of_unaffected (h : Unaffected path opendir text) :
    Completes path opendir text := by
  rw [completes_iff_eq]
  intro stat
  rw [type_filter h.builtins, List.nil_append, pathStart_eq]
  refine List.flatMap_congr fun dir hdir => ?_
  by_cases hempty : dir = []
  · rw [if_pos hempty, if_pos hempty, eq_comm, dirWanted, List.filter_eq_nil_iff]
    intro name hname hyes
    rw [Bool.and_eq_true, List.isPrefixOf_iff_prefix] at hyes
    exact h.empty (hempty ▸ hdir) name hname hyes.1
  · rw [if_neg hempty, if_neg hempty]
    exact dirMatches_eq_dirWanted (h.fits dir (mem_tokens_iff.mpr ⟨hdir, hempty⟩))

theorem pathStart_eq_nil {w : World}
    (h : ∀ dir name, w.stat (fullPath dir name) = false) : pathStart w text = [] := by
  rw [pathStart_eq, List.flatMap_eq_nil_iff]
  intro dir _
  split
  · rfl
  · rw [dirMatches, List.filter_eq_nil_iff]
    intro name _ hyes
    rw [h, Bool.and_false] at hyes
    cases hyes

theorem not_prefix_type_of_completes (h : Completes path opendir text) :
    ¬ text <+: str "type" := by
  intro hprefix
  -- no file is executable
  have hnone := completes_iff_eq.mp h fun _ => false
  have htype : [str "type"].filter (text.isPrefixOf ·) = [str "type"] :=
    List.filter_cons_of_pos (List.isPrefixOf_iff_prefix.mpr hprefix)
  rw [htype, pathStart_eq_nil fun _ _ => rfl] at hnone
  cases hnone

theorem empty_of_completes (h : Completes path opendir text) (hempty : [] ∈ allParts path)
    {name : Str} (hname : name ∈ (opendir (str ".")).getD []) : ¬ text <+: name := by
  intro hprefix
  -- every file is executable
  have hall := completes_iff_eq.mp h fun _ => true
  rw [type_filter (not_prefix_type_of_completes h), List.nil_append, pathStart_eq] at hall
  have hlen := length_flatMap_eq (fun dir _ => by
    by_cases hdir : dir = []
    · simp [hdir]
    · simp [hdir, dirMatches, dirWanted]) (congrArg List.length hall) [] hempty
  rw [if_pos rfl, if_pos rfl, List.length_nil, eq_comm, List.length_eq_zero_iff, dirWanted,
    List.filter_eq_nil_iff] at hlen
  refine hlen name hname ?_
  simpa using hprefix

theorem fits_of_completes (h : Completes path opendir text) {dir : Str}
    (hdir : dir ∈ (path.map tokens).getD []) {name : Str} (hname : name ∈ (opendir dir).getD [])
    (hstarts : text <+: name) : (dir ++ str "/" ++ name).length < PATH_MAX := by
  by_contra hlong
  obtain ⟨hpart, hne⟩ := mem_tokens_iff.mp hdir
  -- only this file is executable, and no path that is cut reaches its length
  have hone := completes_iff_eq.mp h fun p => p == dir ++ str "/" ++ name
  have hcut : ∀ dir' name', (fullPath dir' name' == dir ++ str "/" ++ name) = false := by
    intro dir' name'
    rw [beq_eq_false_iff_ne]
    intro heq
    have hlen := congrArg List.length heq
    rw [fullPath, List.length_take] at hlen
    unfold PATH_MAX at hlen hlong
    omega
  rw [type_filter (not_prefix_type_of_completes h), List.nil_append, pathStart_eq_nil hcut,
    eq_comm, List.flatMap_eq_nil_iff] at hone
  have hdirNil := hone dir hpart
  rw [if_neg hne, dirWanted, List.filter_eq_nil_iff] at hdirNil
  refine hdirNil name hname ?_
  simpa using hstarts

theorem unaffected_of_completes (h : Completes path opendir text) :
    Unaffected path opendir text where
  builtins := not_prefix_type_of_completes h
  empty := fun hempty _ hname => empty_of_completes h hempty hname
  fits := fun _ hdir _ hname hstarts => fits_of_completes h hdir hname hstarts

/-- **When completion of the first word is complete.** The index of the builtins is
tested only after it has been advanced, `strtok` passes over the empty parts of `PATH`,
and a path is cut to the size of its buffer. -/
theorem completes_iff (path : Option Str) (opendir : Str → Option (List Str)) (text : Str) :
    Completes path opendir text ↔ Unaffected path opendir text :=
  ⟨unaffected_of_completes, completes_of_unaffected⟩

/-- `ty` without a `PATH`: nothing is delivered. -/
theorem not_completes_ty : ¬ Completes none (fun _ => none) (str "ty") := by
  intro h
  refine (unaffected_of_completes h).builtins ⟨str "pe", rfl⟩

end Shell.FirstWord
