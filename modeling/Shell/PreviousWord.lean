import Shell.CurrentWord

/-! # The word being completed and the one before it (completion.c)

On an edit line of words the first loop looks for a place where the text stands,
not for the end of the line, so it stops at the first word that the last one is a
prefix of. -/
namespace Shell.CurrentWord
open Shell.CTypes Shell.Lib

/-- What only spaces separate. -/
structure Word where
  bytes : Str
  nonempty : bytes ≠ []
  noSpace : chr ' ' ∉ bytes

def spaces (n : Nat) : Str := List.replicate n (chr ' ')

/-- A line with the cursor behind its last word. Each earlier word stands with the
spaces behind it, one and as many more as the number says. -/
structure EditLine where
  lead : Nat
  front : List (Word × Nat)
  last : Word

def frontText (front : List (Word × Nat)) : Str :=
  front.flatMap fun e => e.1.bytes ++ spaces (e.2 + 1)

def EditLine.text (line : EditLine) : Str :=
  spaces line.lead ++ (frontText line.front ++ line.last.bytes)

def EditLine.lastStart (line : EditLine) : Nat := line.lead + (frontText line.front).length

/-- The word in front of the last one. -/
def EditLine.previous (line : EditLine) : Option Str := line.front.getLast?.map (·.1.bytes)

/-- The two calls of `external_completer_generator` give the word being completed
and the word before it. -/
structure FindsWords (line : EditLine) : Prop where
  current : ∃ fuel, findCurrentWord fuel (some line.text) line.last.bytes =
    some (some line.lastStart)
  previous : ∃ fuel, getPreviousWord fuel (some line.text) (some line.lastStart) =
    some line.previous

/-! ## Steps over a word -/

theorem Word.head (w : Word) : ∃ c rest, w.bytes = c :: rest ∧ c ≠ chr ' ' := by
  obtain ⟨c, rest, hw⟩ := List.exists_cons_of_ne_nil w.nonempty
  refine ⟨c, rest, hw, ?_⟩
  rintro rfl
  exact w.noSpace (hw ▸ List.mem_cons_self)

theorem scan_append {inside : UInt8 → Bool} {mid rest : Str} (pre : Str)
    (hmid : ∀ c ∈ mid, inside c = true) (hrest : ∀ c, rest.head? = some c → inside c = false) :
    scan inside (pre ++ (mid ++ rest)) pre.length = pre.length + mid.length := by
  have hnone : rest.takeWhile inside = [] := by
    cases rest with
    | nil => rfl
    | cons c tail => exact List.takeWhile_cons_of_neg (by simpa using hrest c rfl)
  rw [scan, List.drop_left, List.takeWhile_append_of_pos hmid, hnone, List.append_nil]

theorem length_spaces (n : Nat) : (spaces n).length = n := List.length_replicate

/-- Over the spaces in front of a word. -/
theorem skipws_spaces (pre : Str) (n : Nat) (w : Word) (rest : Str) :
    skipws (pre ++ (spaces n ++ (w.bytes ++ rest))) pre.length = pre.length + n := by
  obtain ⟨c, tail, hw, hne⟩ := w.head
  have hscan : skipws (pre ++ (spaces n ++ (w.bytes ++ rest))) pre.length =
      pre.length + (spaces n).length := by
    refine scan_append pre ?_ ?_
    · intro d hd
      simpa [spaces] using (List.mem_replicate.mp hd).2
    · intro d hd
      rw [hw] at hd
      obtain rfl : c = d := by simpa using hd
      simpa using hne
  rw [hscan, length_spaces]

/-- The word of a line behind `pre`: the walk goes on from it to the next one. -/
theorem walk_word (pre : Str) (w next : Word) (k : Nat) (rest : Str) :
    wordEnd (pre ++ (w.bytes ++ (spaces (k + 1) ++ (next.bytes ++ rest)))) pre.length =
        pre.length + w.bytes.length ∧
      nextWord (pre ++ (w.bytes ++ (spaces (k + 1) ++ (next.bytes ++ rest)))) pre.length =
        pre.length + (w.bytes ++ spaces (k + 1)).length := by
  have hend : wordEnd (pre ++ (w.bytes ++ (spaces (k + 1) ++ (next.bytes ++ rest)))) pre.length =
      pre.length + w.bytes.length := by
    refine scan_append pre ?_ ?_
    · intro c hc
      have hne : c ≠ chr ' ' := fun h => w.noSpace (h ▸ hc)
      simpa using hne
    · intro c hc
      obtain rfl : chr ' ' = c := by simpa [spaces, List.replicate_succ] using hc
      simp
  refine ⟨hend, ?_⟩
  have hskip := skipws_spaces (pre ++ w.bytes) (k + 1) next rest
  rw [nextWord, hend]
  simpa only [List.append_assoc, List.length_append, Nat.add_assoc, length_spaces] using hskip

/-- What is left of the line starts with a word. -/
theorem rest_word (front : List (Word × Nat)) (last : Word) :
    ∃ (w : Word) (rest : Str), frontText front ++ last.bytes = w.bytes ++ rest := by
  cases front with
  | nil => exact ⟨last, [], by simp [frontText]⟩
  | cons e front => exact ⟨e.1, spaces (e.2 + 1) ++ frontText front ++ last.bytes, by simp [frontText]⟩

theorem frontText_cons (w : Word) (k : Nat) (front : List (Word × Nat)) (last : Word) :
    frontText ((w, k) :: front) ++ last.bytes =
      w.bytes ++ (spaces (k + 1) ++ (frontText front ++ last.bytes)) := by
  simp [frontText]

theorem length_frontText_cons (w : Word) (k : Nat) (front : List (Word × Nat)) :
    (frontText ((w, k) :: front)).length =
      w.bytes.length + (spaces (k + 1)).length + (frontText front).length := by
  rw [← List.length_append, ← List.length_append]
  simp [frontText]

theorem Word.length_pos (w : Word) : 0 < w.bytes.length := List.length_pos_of_ne_nil w.nonempty

/-- A round of either loop at the word `w`. -/
theorem round_word (pre : Str) (w : Word) (k : Nat) (front : List (Word × Nat)) (last : Word) :
    wordEnd (pre ++ (frontText ((w, k) :: front) ++ last.bytes)) pre.length =
        pre.length + w.bytes.length ∧
      nextWord (pre ++ (frontText ((w, k) :: front) ++ last.bytes)) pre.length =
        (pre ++ (w.bytes ++ spaces (k + 1))).length := by
  obtain ⟨next, rest, hnext⟩ := rest_word front last
  rw [frontText_cons, hnext, @List.length_append _ pre]
  exact walk_word pre w next k rest

theorem skipws_lead (line : EditLine) : skipws line.text 0 = line.lead := by
  obtain ⟨w, rest, hrest⟩ := rest_word line.front line.last
  have hskip := skipws_spaces [] line.lead w rest
  rw [EditLine.text, hrest]
  simpa using hskip

/-! ## The first loop -/

/-- A text without spaces that stands in front of a space is a prefix of the word. -/
theorem prefix_word_iff (text : Word) (w rest : Str) (k : Nat) :
    text.bytes <+: w ++ (spaces (k + 1) ++ rest) ↔ text.bytes <+: w := by
  constructor
  · intro h
    obtain hshort | ⟨tail, htail⟩ := List.prefix_or_prefix_of_prefix h (List.prefix_append w _)
    · exact hshort
    · rw [← htail, List.prefix_append_right_inj] at h
      cases tail with
      | nil =>
        rw [List.append_nil] at htail
        exact htail ▸ List.prefix_rfl
      | cons c tail =>
        obtain ⟨hc, -⟩ : c = chr ' ' ∧ tail <+: spaces k ++ rest := by
          simpa [spaces, List.replicate_succ] using h
        exact absurd (htail ▸ List.mem_append_right w (hc ▸ List.mem_cons_self)) text.noSpace
  · intro h
    exact h.trans (List.prefix_append _ _)

/-- How far behind `pre` the first loop stops. -/
def stopAt (last : Word) : List (Word × Nat) → Nat
  | [] => 0
  | (w, k) :: front =>
    if last.bytes <+: w.bytes then 0 else (w.bytes ++ spaces (k + 1)).length + stopAt last front

theorem loop_stopAt (last : Word) (front : List (Word × Nat)) (pre : Str) :
    ∃ fuel, Loop.loop (findCurrentWordBody (pre ++ (frontText front ++ last.bytes)) last.bytes) fuel
      pre.length = some (pre.length + stopAt last front) := by
  induction front generalizing pre with
  | nil =>
    have hstop : findCurrentWordBody (pre ++ (frontText [] ++ last.bytes)) last.bytes pre.length =
        .inr pre.length := by simp [findCurrentWordBody, frontText]
    exact ⟨1, by simp only [Loop.loop, hstop, stopAt, Nat.add_zero]⟩
  | cons e front ih =>
    obtain ⟨w, k⟩ := e
    have htest : last.bytes.isPrefixOf
        ((pre ++ (frontText ((w, k) :: front) ++ last.bytes)).drop pre.length) = true ↔
        last.bytes <+: w.bytes := by
      rw [List.drop_left, List.isPrefixOf_iff_prefix, frontText_cons, prefix_word_iff]
    by_cases hprefix : last.bytes <+: w.bytes
    · have hstop : findCurrentWordBody (pre ++ (frontText ((w, k) :: front) ++ last.bytes))
          last.bytes pre.length = .inr pre.length := by
        rw [findCurrentWordBody, if_pos (htest.mpr hprefix)]
      exact ⟨1, by simp only [Loop.loop, hstop, stopAt, hprefix, if_true, Nat.add_zero]⟩
    · obtain ⟨fuel, hfuel⟩ := ih (pre ++ (w.bytes ++ spaces (k + 1)))
      have hround := (round_word pre w k front last).2
      have hgo : findCurrentWordBody (pre ++ (frontText ((w, k) :: front) ++ last.bytes))
          last.bytes pre.length = .inl (pre ++ (w.bytes ++ spaces (k + 1))).length := by
        rw [findCurrentWordBody, if_neg (mt htest.mp hprefix)]
        exact congrArg Sum.inl hround
      have hsame : (pre ++ (w.bytes ++ spaces (k + 1))) ++ (frontText front ++ last.bytes) =
          pre ++ (frontText ((w, k) :: front) ++ last.bytes) := by
        simp only [frontText_cons, List.append_assoc]
      rw [hsame, List.length_append, Nat.add_assoc] at hfuel
      refine ⟨fuel + 1, ?_⟩
      rw [List.length_append] at hgo
      simp only [Loop.loop, hgo, hfuel, stopAt, hprefix, if_false]

/-- The loop passes all the earlier words exactly when the last one is a prefix of none. -/
theorem stopAt_eq_iff (last : Word) (front : List (Word × Nat)) :
    stopAt last front = (frontText front).length ↔ ∀ e ∈ front, ¬ last.bytes <+: e.1.bytes := by
  induction front with
  | nil => simp [stopAt, frontText]
  | cons e front ih =>
    obtain ⟨w, k⟩ := e
    have hpos := w.length_pos
    rw [length_frontText_cons, List.forall_mem_cons, ← ih, stopAt]
    split
    · rename_i hstart
      simp only [hstart, not_true, false_and, iff_false]
      omega
    · rename_i hstart
      simp only [hstart, not_false_eq_true, true_and, List.length_append]
      omega

theorem findCurrentWord_unique {buffer text : Str} {fuel fuel' i j : Nat}
    (h : findCurrentWord fuel (some buffer) text = some (some i))
    (h' : findCurrentWord fuel' (some buffer) text = some (some j)) : i = j := by
  obtain ⟨p, hp, hi⟩ := Option.map_eq_some_iff.mp h
  obtain ⟨q, hq, hj⟩ := Option.map_eq_some_iff.mp h'
  have hsame := Loop.loop_unique hp hq
  exact Option.some.inj (hi.symm.trans (hsame ▸ hj))

theorem findCurrentWord_line (line : EditLine) :
    ∃ fuel, findCurrentWord fuel (some line.text) line.last.bytes =
      some (some (line.lead + stopAt line.last line.front)) := by
  obtain ⟨fuel, hfuel⟩ := loop_stopAt line.last line.front (spaces line.lead)
  refine ⟨fuel, ?_⟩
  rw [length_spaces] at hfuel
  rw [findCurrentWord, skipws_lead, EditLine.text, hfuel, Option.map_some]

/-! ## The second loop -/

/-- The word between `prev_start` and `prev_end`. -/
def Walk.previous (buffer : Str) (w : Walk) : Str :=
  (buffer.drop w.prevStart).take (w.prevEnd - w.prevStart)

theorem loop_previous (last : Word) (front : List (Word × Nat)) (pre : Str) (at_ : Walk)
    (hp : at_.p = pre.length) :
    ∃ fuel w, Loop.loop (getPreviousWordBody (pre ++ (frontText front ++ last.bytes))
        (some (pre.length + (frontText front).length))) fuel at_ = some w ∧
      w.previous (pre ++ (frontText front ++ last.bytes)) =
        (front.getLast?.map (·.1.bytes)).getD
          (at_.previous (pre ++ (frontText front ++ last.bytes))) := by
  induction front generalizing pre at_ with
  | nil =>
    refine ⟨1, at_, ?_, rfl⟩
    simp [Loop.loop, getPreviousWordBody, hp, frontText]
  | cons e front ih =>
    obtain ⟨w, k⟩ := e
    have hround := round_word pre w k front last
    have hsame : (pre ++ (w.bytes ++ spaces (k + 1))) ++ (frontText front ++ last.bytes) =
        pre ++ (frontText ((w, k) :: front) ++ last.bytes) := by
      simp only [frontText_cons, List.append_assoc]
    have htarget : (pre ++ (w.bytes ++ spaces (k + 1))).length + (frontText front).length =
        pre.length + (frontText ((w, k) :: front)).length := by
      simp only [length_frontText_cons, List.length_append, Nat.add_assoc]
    have hnext := ih (pre ++ (w.bytes ++ spaces (k + 1)))
      (at_.next (pre ++ (frontText ((w, k) :: front) ++ last.bytes)))
      (by rw [Walk.next, hp]; exact hround.2)
    rw [hsame, htarget] at hnext
    obtain ⟨fuel, w', hloop, hprev⟩ := hnext
    have hgo : getPreviousWordBody (pre ++ (frontText ((w, k) :: front) ++ last.bytes))
        (some (pre.length + (frontText ((w, k) :: front)).length)) at_ =
          .inl (at_.next (pre ++ (frontText ((w, k) :: front) ++ last.bytes))) := by
      have hpos := w.length_pos
      have hne : ¬ some at_.p = some (pre.length + (frontText ((w, k) :: front)).length) := by
        rw [Option.some.injEq, hp, length_frontText_cons]
        omega
      rw [getPreviousWordBody, if_neg hne]
    -- the walk has just passed `w`
    have hslice : (at_.next (pre ++ (frontText ((w, k) :: front) ++ last.bytes))).previous
        (pre ++ (frontText ((w, k) :: front) ++ last.bytes)) = w.bytes := by
      simp only [Walk.previous, Walk.next, hp, hround.1, Nat.add_sub_cancel_left, List.drop_left]
      rw [frontText_cons, List.take_left]
    refine ⟨fuel + 1, w', by simp only [Loop.loop, hgo, hloop], ?_⟩
    rw [hprev, hslice, List.getLast?_cons]
    cases front.getLast? <;> rfl

theorem getPreviousWord_line (line : EditLine) :
    ∃ fuel, getPreviousWord fuel (some line.text) (some line.lastStart) = some line.previous := by
  cases hfront : line.front with
  | nil =>
    refine ⟨0, ?_⟩
    have hstart : line.lastStart = line.lead := by simp [EditLine.lastStart, hfront, frontText]
    simp [getPreviousWord, skipws_lead, hstart, EditLine.previous, hfront]
  | cons e front =>
    obtain ⟨fuel, w, hloop, hprev⟩ := loop_previous line.last line.front (spaces line.lead)
      ⟨line.lead, 0, 0⟩ (length_spaces _).symm
    rw [length_spaces] at hloop
    have hne : ¬ some line.lead = some line.lastStart := by
      have hpos := e.1.length_pos
      rw [Option.some.injEq, EditLine.lastStart, hfront, length_frontText_cons]
      omega
    refine ⟨fuel, ?_⟩
    simp only [getPreviousWord, skipws_lead, if_neg hne]
    rw [EditLine.lastStart, EditLine.text, hloop, Option.map_some]
    have hsome : line.previous = some (w.previous line.text) := by
      rw [EditLine.text, hprev, EditLine.previous, hfront, List.getLast?_cons]
      rfl
    rw [hsome]
    rfl

/-! ## Both calls -/

/-- **When completion gets its two words.** The word being completed is found by what
it starts with, so no earlier word of the line may start with it. -/
theorem findsWords_iff (line : EditLine) :
    FindsWords line ↔ ∀ e ∈ line.front, ¬ line.last.bytes <+: e.1.bytes := by
  obtain ⟨fuel, hfuel⟩ := findCurrentWord_line line
  rw [← stopAt_eq_iff]
  constructor
  · intro h
    obtain ⟨fuel', hfuel'⟩ := h.current
    have hsame := findCurrentWord_unique hfuel hfuel'
    rw [EditLine.lastStart] at hsame
    omega
  · intro hstop
    refine ⟨⟨fuel, ?_⟩, getPreviousWord_line line⟩
    rw [hfuel, hstop, EditLine.lastStart]

/-- `a` behind `abc`: the search stops at `abc`. -/
def shadowed : EditLine where
  lead := 0
  front := [(⟨str "abc", by simp [str], by decide⟩, 0)]
  last := ⟨str "a", by simp [str], by decide⟩

theorem not_findsWords_shadowed : shadowed.text = str "abc a" ∧ ¬ FindsWords shadowed := by
  refine ⟨rfl, fun h => ?_⟩
  obtain ⟨fuel, hfuel⟩ := h.current
  have hfirst : findCurrentWord 1 (some shadowed.text) shadowed.last.bytes = some (some 0) := rfl
  have hsame : 0 = shadowed.lastStart := findCurrentWord_unique hfirst hfuel
  have hstart : shadowed.lastStart = 4 := rfl
  omega

end Shell.CurrentWord
