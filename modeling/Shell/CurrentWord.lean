import Mathlib.Data.List.TakeWhile
import Shell.CTypes
import Shell.Lib.Loop

/-! # The word under the cursor (completion.c)

`find_current_word` and `get_previous_word` walk over the words of the edit line,
which only spaces separate. A pointer into the line is its offset. Neither loop
looks for the end of the line, so each runs on fuel; it is `none` where the fuel
runs out. -/
namespace Shell.CurrentWord
open Shell.CTypes Shell.Lib

/-- The offset behind the bytes from `p` on that are in the class. -/
def scan (inside : UInt8 → Bool) (buffer : Str) (p : Nat) : Nat :=
  p + ((buffer.drop p).takeWhile inside).length

/-- `skipws` -/
def skipws (buffer : Str) (p : Nat) : Nat := scan (· = chr ' ') buffer p

/-- `while (*p && *p != ' ') ++p;` -/
def wordEnd (buffer : Str) (p : Nat) : Nat := scan (· ≠ chr ' ') buffer p

def findCurrentWordBody (buffer text : Str) (p : Nat) : Nat ⊕ Nat :=
  if text.isPrefixOf (buffer.drop p) then .inr p else .inl (skipws buffer (wordEnd buffer p))

def findCurrentWord (fuel : Nat) (rlLineBuffer : Option Str) (text : Str) : Option (Option Nat) :=
  match rlLineBuffer with
  | none => some none
  | some buffer => (Loop.loop (findCurrentWordBody buffer text) fuel (skipws buffer 0)).map some

/-- `p` with `prev_start` and `prev_end`. -/
structure Walk where
  p : Nat
  prevStart : Nat
  prevEnd : Nat

def Walk.next (buffer : Str) (w : Walk) : Walk where
  p := skipws buffer (wordEnd buffer w.p)
  prevStart := w.p
  prevEnd := wordEnd buffer w.p

def getPreviousWordBody (buffer : Str) (currentWord : Option Nat) (w : Walk) : Walk ⊕ Walk :=
  if some w.p = currentWord then .inr w else .inl (w.next buffer)

def getPreviousWord (fuel : Nat) (rlLineBuffer : Option Str) (currentWord : Option Nat) :
    Option (Option Str) :=
  match rlLineBuffer with
  | none => some none
  | some buffer =>
    let p := skipws buffer 0
    if some p = currentWord then some none
    else (Loop.loop (getPreviousWordBody buffer currentWord) fuel ⟨p, 0, 0⟩).map fun w =>
      some ((buffer.drop w.prevStart).take (w.prevEnd - w.prevStart))

/-- The two calls of `external_completer_generator` end. -/
def Ends (buffer text : Str) : Prop :=
  ∃ fuel word, findCurrentWord fuel (some buffer) text = some word ∧
    ∃ fuel' prev, getPreviousWord fuel' (some buffer) word = some prev

/-- A word starts here: at a byte that is no space, at the start of the line or behind
a space. -/
structure WordStart (buffer : Str) (i : Nat) : Prop where
  inside : i < buffer.length
  word : buffer[i]? ≠ some (chr ' ')
  behind : i = 0 ∨ buffer[i - 1]? = some (chr ' ')

/-! ## What a scan passes -/

section Scan
variable {inside : UInt8 → Bool} {buffer : Str} {p i : Nat}

theorem le_scan : p ≤ scan inside buffer p := Nat.le_add_right _ _

theorem scan_le_length (h : p ≤ buffer.length) : scan inside buffer p ≤ buffer.length := by
  have hle := (List.takeWhile_prefix inside (l := buffer.drop p)).length_le
  rw [List.length_drop] at hle
  unfold scan
  omega

theorem scan_inside (hle : p ≤ i) (hlt : i < scan inside buffer p) :
    ∃ c, buffer[i]? = some c ∧ inside c = true := by
  obtain ⟨k, rfl⟩ := Nat.exists_eq_add_of_le hle
  have hk : k < ((buffer.drop p).takeWhile inside).length := Nat.lt_of_add_lt_add_left hlt
  have hget := (List.takeWhile_prefix inside (l := buffer.drop p)).getElem hk
  refine ⟨((buffer.drop p).takeWhile inside)[k], ?_, List.mem_takeWhile_imp (List.getElem_mem hk)⟩
  rw [hget, ← List.getElem?_eq_getElem, List.getElem?_drop]

theorem scan_outside {c : UInt8} (h : buffer[scan inside buffer p]? = some c) : inside c = false := by
  have hcut := List.takeWhile_append_dropWhile (p := inside) (l := buffer.drop p)
  have hhead := List.head?_dropWhile_not inside (buffer.drop p)
  rw [scan, ← List.getElem?_drop, ← hcut, List.getElem?_append_right (by simp), hcut,
    Nat.sub_self, ← List.head?_eq_getElem?] at h
  rw [h] at hhead
  exact hhead

/-- A scan stops at or in front of a byte that is not in the class. -/
theorem scan_le {c : UInt8} (hle : p ≤ i) (hi : buffer[i]? = some c) (hc : inside c = false) :
    scan inside buffer p ≤ i := by
  by_contra hgt
  obtain ⟨d, hd, htrue⟩ := scan_inside hle (Nat.lt_of_not_le hgt)
  obtain rfl := Option.some.inj (hi.symm.trans hd)
  rw [hc] at htrue
  cases htrue

end Scan

/-! ## The words that the loops walk over -/

/-- Where a further round of either loop takes its pointer. -/
def nextWord (buffer : Str) (p : Nat) : Nat := skipws buffer (wordEnd buffer p)

section Words
variable {buffer : Str} {p i : Nat}

/-- What the walks stand at: the start of a word or the end of the line. -/
def AtWord (buffer : Str) (p : Nat) : Prop := WordStart buffer p ∨ p = buffer.length

theorem le_skipws (buffer : Str) (p : Nat) : p ≤ skipws buffer p := le_scan

theorem ne_space_of_skipws : buffer[skipws buffer p]? ≠ some (chr ' ') := by
  intro hspace
  have hout := scan_outside hspace
  simp at hout

theorem space_of_wordEnd {c : UInt8} (h : buffer[wordEnd buffer p]? = some c) : c = chr ' ' := by
  simpa using scan_outside h

/-- The byte in front of where `skipws` stops is a space, if it has moved. -/
theorem space_behind_skipws (h : p < skipws buffer p) :
    buffer[skipws buffer p - 1]? = some (chr ' ') := by
  obtain ⟨c, hc, hspace⟩ := scan_inside (Nat.le_sub_one_of_lt h) (Nat.sub_one_lt_of_lt h)
  obtain rfl : c = chr ' ' := by simpa using hspace
  exact hc

theorem atWord_skipws (hle : p ≤ buffer.length)
    (h : p = 0 ∨ ∀ c, buffer[p]? = some c → c = chr ' ') :
    AtWord buffer (skipws buffer p) := by
  have hlen : skipws buffer p ≤ buffer.length := scan_le_length hle
  obtain hend | hlt := Nat.eq_or_lt_of_le hlen
  · exact .inr hend
  · refine .inl ⟨hlt, ne_space_of_skipws, ?_⟩
    obtain hstay | hmove := Nat.eq_or_lt_of_le (le_skipws buffer p)
    · obtain rfl | hspace := h
      · exact .inl hstay.symm
      · -- A pointer at a space does not stay there.
        have hget := List.getElem?_eq_getElem (Nat.lt_of_le_of_lt (le_skipws buffer p) hlt)
        have hstop : buffer[skipws buffer p]? ≠ some (chr ' ') := ne_space_of_skipws
        rw [← hstay, hget, hspace _ hget] at hstop
        exact absurd rfl hstop
    · exact .inr (space_behind_skipws hmove)

theorem atWord_nextWord (hle : p ≤ buffer.length) : AtWord buffer (nextWord buffer p) :=
  atWord_skipws (scan_le_length hle) (.inr fun _ => space_of_wordEnd)

theorem AtWord.le_length (h : AtWord buffer p) : p ≤ buffer.length := by
  obtain hword | hend := h
  · exact Nat.le_of_lt hword.inside
  · exact Nat.le_of_eq hend

theorem atWord_iterate (h : AtWord buffer p) (k : Nat) : AtWord buffer ((nextWord buffer)^[k] p) := by
  induction k with
  | zero => exact h
  | succ k ih =>
    rw [Function.iterate_succ_apply']
    exact atWord_nextWord ih.le_length

theorem lt_nextWord (h : p < buffer.length) : p < nextWord buffer p := by
  have hword : p ≤ wordEnd buffer p := le_scan
  have hskip : wordEnd buffer p ≤ nextWord buffer p := le_skipws buffer (wordEnd buffer p)
  by_contra hle
  have hend : p = wordEnd buffer p := by omega
  have hstay : p = nextWord buffer p := by omega
  have hget := List.getElem?_eq_getElem h
  have hspace : buffer[wordEnd buffer p]? = some buffer[p] := by rw [← hend, hget]
  have hstop : buffer[nextWord buffer p]? ≠ some (chr ' ') := ne_space_of_skipws
  rw [← hstay, hget, space_of_wordEnd hspace] at hstop
  exact absurd rfl hstop

theorem WordStart.skipws_le (h : WordStart buffer i) (hle : p ≤ i) : skipws buffer p ≤ i := by
  have hget := List.getElem?_eq_getElem h.inside
  have hne := h.word
  rw [hget] at hne
  exact scan_le hle hget (by simpa using hne)

/-- No word that starts behind the pointer is passed over. -/
theorem WordStart.nextWord_le (h : WordStart buffer i) (hlt : p < i) : nextWord buffer p ≤ i := by
  obtain hzero | hspace := h.behind
  · omega
  · have hend : wordEnd buffer p ≤ i - 1 := scan_le (by omega) hspace (by simp)
    exact h.skipws_le (by omega)

theorem WordStart.reached (h : WordStart buffer i) (hle : p ≤ i) :
    ∃ k, (nextWord buffer)^[k] p = i := by
  induction hn : i - p using Nat.strong_induction_on generalizing p with
  | _ n ih =>
    obtain rfl | hlt := Nat.eq_or_lt_of_le hle
    · exact ⟨0, rfl⟩
    · have hnext := h.nextWord_le hlt
      have hmove := lt_nextWord (Nat.lt_trans hlt h.inside)
      obtain ⟨k, hk⟩ := ih (i - nextWord buffer p) (by omega) hnext rfl
      exact ⟨k + 1, hk⟩

end Words

/-! ## When the two loops end -/

section Loops
variable {buffer text : Str} {p : Nat}

theorem findCurrentWordBody_inl (s s' : Nat) (h : findCurrentWordBody buffer text s = .inl s') :
    s' = nextWord buffer s := by
  unfold findCurrentWordBody at h
  split at h
  · cases h
  · exact (Sum.inl.inj h).symm

theorem findCurrentWordBody_inr {s r : Nat} (h : findCurrentWordBody buffer text s = .inr r) :
    s = r ∧ text <+: buffer.drop s := by
  unfold findCurrentWordBody at h
  split at h
  · rename_i hprefix
    exact ⟨Sum.inr.inj h, List.isPrefixOf_iff_prefix.mp hprefix⟩
  · cases h

theorem getPreviousWordBody_inl {currentWord : Option Nat} (w w' : Walk)
    (h : getPreviousWordBody buffer currentWord w = .inl w') : w' = w.next buffer := by
  unfold getPreviousWordBody at h
  split at h
  · cases h
  · exact (Sum.inl.inj h).symm

theorem iterate_next (w : Walk) (k : Nat) :
    ((Walk.next buffer)^[k] w).p = (nextWord buffer)^[k] w.p := by
  induction k generalizing w with
  | zero => rfl
  | succ k ih => exact ih (w.next buffer)

/-- The second loop reaches every place that the first one walks through. -/
theorem getPreviousWord_ends (k : Nat) : ∃ fuel prev, getPreviousWord fuel (some buffer)
    (some ((nextWord buffer)^[k] (skipws buffer 0))) = some prev := by
  by_cases hfirst : some (skipws buffer 0) = some ((nextWord buffer)^[k] (skipws buffer 0))
  · exact ⟨0, none, by simp only [getPreviousWord, if_pos hfirst]⟩
  · have hstop : getPreviousWordBody buffer (some ((nextWord buffer)^[k] (skipws buffer 0)))
        ((Walk.next buffer)^[k] ⟨skipws buffer 0, 0, 0⟩) =
          .inr ((Walk.next buffer)^[k] ⟨skipws buffer 0, 0, 0⟩) := by
      rw [getPreviousWordBody, if_pos (by rw [iterate_next])]
    obtain ⟨fuel, w, hw⟩ := Loop.loop_isSome_of_iterate getPreviousWordBody_inl hstop
    refine ⟨fuel, some ((buffer.drop w.prevStart).take (w.prevEnd - w.prevStart)), ?_⟩
    simp only [getPreviousWord, if_neg hfirst, hw, Option.map_some]

/-- The first loop ends once it walks through a place where the text stands. -/
theorem ends_of_iterate {k : Nat} (h : text <+: buffer.drop ((nextWord buffer)^[k] (skipws buffer 0))) :
    Ends buffer text := by
  have hstop : findCurrentWordBody buffer text ((nextWord buffer)^[k] (skipws buffer 0)) =
      .inr ((nextWord buffer)^[k] (skipws buffer 0)) := by
    rw [findCurrentWordBody, if_pos (List.isPrefixOf_iff_prefix.mpr h)]
  obtain ⟨fuel, p, hp⟩ := Loop.loop_isSome_of_iterate findCurrentWordBody_inl hstop
  obtain ⟨j, hj⟩ := Loop.loop_eq_some_iterate findCurrentWordBody_inl hp
  obtain ⟨rfl, -⟩ := findCurrentWordBody_inr hj
  exact ⟨fuel, _, by simp only [findCurrentWord, hp, Option.map_some], getPreviousWord_ends j⟩

/-- The loop stops at a word, or for no text at the end of the line. -/
theorem Ends.word (h : Ends buffer text) :
    text = [] ∨ ∃ i, WordStart buffer i ∧ text <+: buffer.drop i := by
  obtain ⟨fuel, word, hfind, -⟩ := h
  obtain ⟨p, hp, -⟩ := Option.map_eq_some_iff.mp hfind
  obtain ⟨k, hk⟩ := Loop.loop_eq_some_iterate findCurrentWordBody_inl hp
  obtain ⟨rfl, hprefix⟩ := findCurrentWordBody_inr hk
  obtain hword | hend := atWord_iterate (atWord_skipws (Nat.zero_le _) (.inl rfl)) k
  · exact .inr ⟨_, hword, hprefix⟩
  · rw [hend, List.drop_length] at hprefix
    exact .inl (List.prefix_nil.mp hprefix)

/-- **When the walks over the edit line end.** Neither stops at the end of the line, so some
word has to start with the text. -/
theorem ends_iff : Ends buffer text ↔
    text = [] ∨ ∃ i, WordStart buffer i ∧ text <+: buffer.drop i := by
  constructor
  · exact Ends.word
  · intro h
    obtain rfl | ⟨i, hword, hprefix⟩ := h
    · exact ends_of_iterate (k := 0) List.nil_prefix
    · obtain ⟨k, hk⟩ := hword.reached (hword.skipws_le (Nat.zero_le i))
      exact ends_of_iterate (k := k) (hk.symm ▸ hprefix)

/-- Completing the value of `git a=b` hangs: readline starts the text behind the `=`. -/
theorem git_value_hangs :
    str "b" <:+ (str "git a=b").take 7 ∧ ¬ Ends (str "git a=b") (str "b") := by
  refine ⟨by decide, fun h => ?_⟩
  obtain hnil | ⟨i, hword, hprefix⟩ := h.word
  · cases hnil
  · have hlast : ∀ i < 7, str "b" <+: (str "git a=b").drop i → i = 6 := by decide
    obtain rfl := hlast i hword.inside hprefix
    obtain hzero | hspace := hword.behind
    · cases hzero
    · revert hspace
      decide

end Loops

end Shell.CurrentWord
