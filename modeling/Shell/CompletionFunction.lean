import Shell.ExternalCompleter
import Shell.FirstWord

/-! # What a TAB offers (shell_completion_function in completion.c)

A press of TAB calls one of two generators until it returns null. Both keep their places
in static variables that outlive the press. -/
namespace Shell.CompletionFunction
open Shell.CTypes Shell.Completion Shell.ExternalCompleter Shell.FirstWord Shell.Lib

/-- The one function of readline that is called: `rl_completion_matches`, from the first
result of the generator on, with what it returns and the state the generator is left
in. A generator may never return null, so it is given fuel. -/
structure Readline where
  rlCompletionMatches : {σ : Type} → (σ → Option Str × σ) → Nat → Option Str × σ →
    Option (List Str × σ)

/-- It calls the generator until that returns null. -/
def UntilNull (readline : Readline) : Prop :=
  ∀ {σ : Type} (next : σ → Option Str × σ) (r : Option Str × σ) (names : List Str) (s : σ),
    (∃ fuel, readline.rlCompletionMatches next fuel r = some (names, s)) ↔
      Generator.DeliversTo next r names s

/-- What the function is called with, and what it finds outside of its variables. -/
structure Press where
  start : Nat
  world : World
  round : Round

/-- `rl_attempted_completion_over`, and the names that are returned; without a name the
function returns null. -/
structure Offer where
  attemptedOver : Bool
  names : List Str

/-- The static variables of the generators. -/
structure Variables where
  firstWord : FirstWord.Statics
  external : ExternalCompleter.Statics

/-- The variables when the shell starts. -/
def initial : Variables where
  firstWord :=
    { phase := 0, listIndex := 0, builtinLen := 0, pathCopy := [], dirToken := none,
      currentDir := none, pathLen := 0 }
  external := freed

/-- The line starts with `./` or `../`. -/
def dotted (rlLineBuffer : Option Str) : Bool :=
  rlLineBuffer.any fun buffer => (str "./").isPrefixOf buffer || (str "../").isPrefixOf buffer

/-- The script that is registered for the command of the line. -/
def scriptPath (round : Round) : Option Str :=
  (getCommandWord round.rlLineBuffer).bind (lookupCompletion round.registry)

/-- The walks over the edit line and the calls of the generators have fuel of their own. -/
def shellCompletionFunction (readline : Readline) (walkFuel callFuel : Nat) (press : Press)
    (v : Variables) : Option (Offer × Variables) :=
  if dotted press.round.rlLineBuffer then some (⟨false, []⟩, v)
  else if press.start = 0 then do
    let first := firstWordGenerator press.world press.round.text false v.firstWord
    let (names, s) ← readline.rlCompletionMatches
      (firstWordGenerator press.world press.round.text true) callFuel first
    some (⟨true, names⟩, { v with firstWord := s })
  else
    match scriptPath press.round with
    | some _ => do
      let first ← firstCall walkFuel press.round v.external
      let (names, s) ← readline.rlCompletionMatches deliver callFuel first
      some (⟨true, names⟩, { v with external := s })
    | none => some (⟨false, []⟩, v)

/-- The presses of a session in their order, each with what it offers. -/
inductive Session (readline : Readline) : Variables → List (Press × Offer) → Prop
  | done {v : Variables} : Session readline v []
  | press {v v' : Variables} {press : Press} {offer : Offer} {log : List (Press × Offer)}
    {walkFuel callFuel : Nat} :
    shellCompletionFunction readline walkFuel callFuel press v = some (offer, v') →
      Session readline v' log → Session readline v ((press, offer) :: log)

/-! ## A press by itself -/

/-- What a press offers, whatever was pressed before. -/
inductive Offers (press : Press) : Offer → Prop
  | path : dotted press.round.rlLineBuffer = true → Offers press ⟨false, []⟩
  | firstWord : dotted press.round.rlLineBuffer = false → press.start = 0 →
    Offers press ⟨true, builtinsPending press.round.text 0 ++
      pathStart press.world press.round.text⟩
  | script {path : Str} {fuel : Nat} {lines : Option (List Str)} :
    dotted press.round.rlLineBuffer = false → press.start ≠ 0 →
      scriptPath press.round = some path → startRound fuel press.round = some lines →
        Offers press ⟨true, lines.getD []⟩
  | unregistered : dotted press.round.rlLineBuffer = false → press.start ≠ 0 →
    scriptPath press.round = none → Offers press ⟨false, []⟩

/-! ## A press after a press -/

theorem deliver_leaves (s : ExternalCompleter.Statics) (h : (deliver s).1 = none) :
    (deliver s).2 = freed := by
  obtain ⟨-, -, hfreed⟩ | ⟨m, -, hsome, -⟩ := deliver_cases s
  · exact hfreed
  · rw [hsome] at h
    cases h

theorem firstCall_leaves {fuel : Nat} {round : Round} {s : ExternalCompleter.Statics}
    {r : Option Str × ExternalCompleter.Statics} (h : firstCall fuel round s = some r)
    (hnone : r.1 = none) : r.2 = freed := by
  obtain ⟨lines, -, rfl⟩ := Option.map_eq_some_iff.mp h
  cases lines with
  | none => simp only [giveUp_eq]
  | some words => exact deliver_leaves _ hnone

/-- A first call with nothing left of an earlier round starts at the first line. -/
theorem firstCall_delivers {fuel : Nat} {round : Round} {lines : Option (List Str)}
    (h : startRound fuel round = some lines) : ∃ r, firstCall fuel round freed = some r ∧
      Generator.Delivers deliver r (lines.getD []) := by
  cases lines with
  | none => exact ⟨_, by rw [firstCall, h]; rfl, .done⟩
  | some words =>
    exact ⟨_, by rw [firstCall, h]; rfl, delivers_pending (load words freed)⟩

variable {readline : Readline} {press : Press} {offer : Offer} {v v' : Variables}

theorem offers_of_press (hmatches : UntilNull readline) {walkFuel callFuel : Nat}
    (hfreed : v.external = freed)
    (h : shellCompletionFunction readline walkFuel callFuel press v = some (offer, v')) :
    Offers press offer ∧ v'.external = freed := by
  unfold shellCompletionFunction at h
  cases hdotted : dotted press.round.rlLineBuffer with
  | true =>
    rw [hdotted, if_pos rfl] at h
    obtain ⟨rfl, rfl⟩ := Prod.mk.inj (Option.some.inj h)
    exact ⟨.path hdotted, hfreed⟩
  | false =>
    rw [hdotted, if_neg Bool.false_ne_true] at h
    by_cases hstart : press.start = 0
    · rw [if_pos hstart] at h
      obtain ⟨⟨names, s⟩, hnames, h⟩ := Option.bind_eq_some_iff.mp h
      obtain ⟨rfl, rfl⟩ := Prod.mk.inj (Option.some.inj h)
      have hdelivers := (hmatches _ _ _ _).mp ⟨_, hnames⟩
      have hall := firstWordGenerator_delivers press.world press.round.text v.firstWord
      obtain rfl := hdelivers.delivers.unique hall
      exact ⟨.firstWord hdotted hstart, hfreed⟩
    · rw [if_neg hstart] at h
      cases hpath : scriptPath press.round with
      | none =>
        simp only [hpath] at h
        obtain ⟨rfl, rfl⟩ := Prod.mk.inj (Option.some.inj h)
        exact ⟨.unregistered hdotted hstart hpath, hfreed⟩
      | some path =>
        simp only [hpath] at h
        obtain ⟨first, hfirst, h⟩ := Option.bind_eq_some_iff.mp h
        obtain ⟨⟨names, s⟩, hnames, h⟩ := Option.bind_eq_some_iff.mp h
        obtain ⟨rfl, rfl⟩ := Prod.mk.inj (Option.some.inj h)
        have hdelivers := (hmatches _ _ _ _).mp ⟨_, hnames⟩
        rw [hfreed] at hfirst
        obtain ⟨lines, hround, -⟩ := Option.map_eq_some_iff.mp hfirst
        obtain ⟨r, hr, hall⟩ := firstCall_delivers hround
        obtain rfl := Option.some.inj (hr.symm.trans hfirst)
        obtain rfl := hdelivers.delivers.unique hall
        exact ⟨.script hdotted hstart hpath hround,
          hdelivers.leaves (I := (· = freed)) deliver_leaves (firstCall_leaves hfirst)⟩

theorem press_of_offers (hmatches : UntilNull readline) (hfreed : v.external = freed)
    (h : Offers press offer) :
    ∃ walkFuel callFuel v', shellCompletionFunction readline walkFuel callFuel press v =
      some (offer, v') := by
  cases h with
  | path hdotted =>
    exact ⟨0, 0, v, by rw [shellCompletionFunction, hdotted, if_pos rfl]⟩
  | firstWord hdotted hstart =>
    have hall := firstWordGenerator_delivers press.world press.round.text v.firstWord
    obtain ⟨s, hdelivers⟩ := hall.exists_to
    obtain ⟨callFuel, hnames⟩ := (hmatches _ _ _ _).mpr hdelivers
    refine ⟨0, callFuel, { v with firstWord := s }, ?_⟩
    rw [shellCompletionFunction, hdotted, if_neg Bool.false_ne_true, if_pos hstart]
    simp only [hnames, Option.bind_eq_bind, Option.bind_some]
  | @script path fuel lines hdotted hstart hpath hround =>
    obtain ⟨r, hr, hall⟩ := firstCall_delivers hround
    obtain ⟨s, hdelivers⟩ := hall.exists_to
    obtain ⟨callFuel, hnames⟩ := (hmatches _ _ _ _).mpr hdelivers
    refine ⟨fuel, callFuel, { v with external := s }, ?_⟩
    rw [shellCompletionFunction, hdotted, if_neg Bool.false_ne_true, if_neg hstart, hfreed]
    simp only [hpath, hr, hnames, Option.bind_eq_bind, Option.bind_some]
  | unregistered hdotted hstart hpath =>
    refine ⟨0, 0, v, ?_⟩
    rw [shellCompletionFunction, hdotted, if_neg Bool.false_ne_true, if_neg hstart]
    simp only [hpath]

/-- **A TAB does not depend on the ones before it.** From variables with no array left, a
session can offer just what each of its presses offers by itself. -/
theorem session_iff (hmatches : UntilNull readline) (hfreed : v.external = freed)
    (log : List (Press × Offer)) : Session readline v log ↔ ∀ e ∈ log, Offers e.1 e.2 := by
  induction log generalizing v with
  | nil => exact ⟨fun _ e he => absurd he List.not_mem_nil, fun _ => .done⟩
  | cons e log ih =>
    obtain ⟨press, offer⟩ := e
    rw [List.forall_mem_cons]
    constructor
    · intro h
      cases h with
      | press hpress hrest =>
        obtain ⟨hoffers, hleft⟩ := offers_of_press hmatches hfreed hpress
        exact ⟨hoffers, (ih hleft).mp hrest⟩
    · intro h
      obtain ⟨walkFuel, callFuel, v', hpress⟩ := press_of_offers hmatches hfreed h.1
      obtain ⟨-, hleft⟩ := offers_of_press hmatches hfreed hpress
      exact .press hpress ((ih hleft).mpr h.2)

def callUntilNull {σ : Type} (next : σ → Option Str × σ) :
    Nat → Option Str × σ → Option (List Str × σ)
  | 0, _ => none
  | _ + 1, (none, s) => some ([], s)
  | fuel + 1, (some name, s) => (callUntilNull next fuel (next s)).map fun r => (name :: r.1, r.2)

/-- A readline that calls the generator until it returns null. -/
def callingReadline : Readline where
  rlCompletionMatches := callUntilNull

theorem untilNull_callingReadline : UntilNull callingReadline := by
  intro σ next r names s
  constructor
  · rintro ⟨fuel, h⟩
    change callUntilNull next fuel r = some (names, s) at h
    induction fuel generalizing r names with
    | zero => cases h
    | succ fuel ih =>
      obtain ⟨name, t⟩ := r
      cases name with
      | none =>
        obtain ⟨rfl, rfl⟩ := Prod.mk.inj (Option.some.inj h)
        exact .done
      | some name =>
        obtain ⟨⟨rest, t'⟩, hrest, heq⟩ := Option.map_eq_some_iff.mp h
        obtain ⟨rfl, rfl⟩ := Prod.mk.inj heq
        exact .item (ih _ _ hrest)
  · intro h
    induction h with
    | done => exact ⟨1, rfl⟩
    | item _ ih =>
      obtain ⟨fuel, h⟩ := ih
      change callUntilNull next fuel _ = some _ at h
      exact ⟨fuel + 1, by change (callUntilNull next fuel _).map _ = some _; rw [h]; rfl⟩

/-- A press behind `git a`, without a `PATH`. -/
def gitPress : Press where
  start := 4
  world := { path := none, opendir := fun _ => none, stat := fun _ => false }
  round := gitRound

/-- The second press offers every line again. -/
theorem session_iff_twice : Session callingReadline initial
    [(gitPress, ⟨true, [str "git", str "a", str "git"]⟩),
      (gitPress, ⟨true, [str "git", str "a", str "git"]⟩)] := by
  have hround : startRound 3 gitRound = some (some [str "git", str "a", str "git"]) := by decide
  have hpath : scriptPath gitPress.round = some (str "/c") := by decide
  have hoffers : Offers gitPress ⟨true, [str "git", str "a", str "git"]⟩ :=
    @Offers.script gitPress _ _ _ rfl (Nat.succ_ne_zero 3) hpath hround
  exact (session_iff untilNull_callingReadline rfl _).mpr
    (List.forall_mem_cons.mpr ⟨hoffers, List.forall_mem_singleton.mpr hoffers⟩)

end Shell.CompletionFunction
