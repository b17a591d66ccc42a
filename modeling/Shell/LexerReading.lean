import Shell.LexerErrors

/-! # Reading a line (the CharStream of lexer.c)

`cs_read` with the character that it returns, and the loop that reads until
`cs_eoi` holds. The end of the data has the value of the byte 255, so that both stop
in front of one. -/
namespace Shell.Lexer
open Shell.CTypes Shell.Tokenlist Shell.Lib

variable {data : Str}

/-- `cs_read`: the character, and the stream behind it. -/
def csReadChar (stream : CharStream data) : Int × CharStream data :=
  if h : stream.pos = data.length then (eoi, stream)
  else
    have hlt : stream.pos < data.length := Nat.lt_of_le_of_ne stream.inBounds h
    (toInt data[stream.pos], ⟨stream.pos + 1, hlt⟩)

def csEoi (stream : CharStream data) : Bool := csPeek stream == eoi

/-- `while (!cs_eoi(stream)) cs_read(stream);`, with what has been read. -/
def readBody (s : List Int × CharStream data) : List Int × CharStream data ⊕ List Int :=
  if csEoi s.2 then .inr s.1
  else .inl (s.1 ++ [(csReadChar s.2).1], (csReadChar s.2).2)

theorem csReadChar_eq (stream : CharStream data) :
    csReadChar stream = (csPeek stream, csRead stream) := by
  unfold csReadChar csRead csPeek
  split
  · rename_i hend
    rw [List.getElem?_eq_none (Nat.le_of_eq hend.symm)]
  · rename_i hne
    rw [List.getElem?_eq_getElem (Nat.lt_of_le_of_ne stream.inBounds hne)]

theorem csEoi_iff {stream : CharStream data} : csEoi stream = true ↔ csPeek stream = eoi :=
  beq_iff_eq

theorem readBody_decreasing :
    Loop.Decreasing (@readBody data) fun s => data.length - s.2.pos := by
  intro s s' h
  unfold readBody at h
  split at h
  · cases h
  · rename_i hmore
    obtain rfl := Sum.inl.inj h
    rw [csEoi_iff] at hmore
    simp only [csReadChar_eq]
    exact unread_csRead hmore

def readLine (stream : CharStream data) : List Int :=
  Loop.exec readBody _ readBody_decreasing ([], stream)

/-! ## Where lx_tokenize leaves its stream -/

/-- A round of `lx_tokenize`, which ends with the stream where its last call left it. -/
def tokenizeEndBody (beyond : Nat → UInt8) (s : TokenizeState data) :
    TokenizeState data ⊕ ((Int × TokenList) × CharStream data) :=
  (tokenizeBody beyond s).map id fun r => (r, (lxToken beyond s.stream s.errno).stream)

theorem tokenizeEndBody_decreasing (beyond : Nat → UInt8) :
    Loop.Decreasing (@tokenizeEndBody data beyond) fun s => data.length - s.stream.pos := by
  intro s s' h
  unfold tokenizeEndBody at h
  cases hbody : tokenizeBody beyond s with
  | inl t =>
    rw [hbody] at h
    obtain rfl := Sum.inl.inj h
    exact tokenizeBody_decreasing beyond s t hbody
  | inr r =>
    rw [hbody] at h
    cases h

/-- `lx_tokenize`, and the stream behind the call. -/
def lxTokenizeEnd (beyond : Nat → UInt8) (dst : TokenList) (stream : CharStream data) :
    (Int × TokenList) × CharStream data :=
  Loop.exec (tokenizeEndBody beyond) _ (tokenizeEndBody_decreasing beyond) ⟨dst, stream, 0⟩

theorem lxTokenizeEnd_fst (beyond : Nat → UInt8) (dst : TokenList) (stream : CharStream data) :
    (lxTokenizeEnd beyond dst stream).1 = lxTokenize beyond dst stream := by
  refine Loop.exec_rel (R := fun s t : TokenizeState data => s = t) (Q := fun r q => r.1 = q)
    (tokenizeEndBody_decreasing beyond) (tokenizeBody_decreasing beyond) (fun s t hst => ?_) rfl
  subst hst
  unfold tokenizeEndBody
  cases tokenizeBody beyond s with
  | inl s' => exact .inl rfl
  | inr r => exact .inr rfl

/-! ## Lines without the byte 255 -/

theorem rest_of_peek_eoi {stream : CharStream data} (hl : 255 ∉ data)
    (h : csPeek stream = eoi) : stream.pos = data.length := by
  rw [csPeek_eq] at h
  cases hrest : stream.rest with
  | nil =>
    have hle := stream.inBounds
    have hdrop := List.drop_eq_nil_iff.mp hrest
    omega
  | cons c l =>
    rw [hrest, peekOf_cons, toInt_eq_eoi] at h
    have hmem : c ∈ stream.rest := by rw [hrest]; exact List.mem_cons_self
    exact absurd (List.mem_of_mem_drop hmem) (h ▸ hl)

theorem readLine_eq (hl : 255 ∉ data) (stream : CharStream data) (front : List Int) :
    Loop.exec readBody _ readBody_decreasing (front, stream) =
      front ++ stream.rest.map toInt := by
  induction hn : data.length - stream.pos using Nat.strong_induction_on
    generalizing stream front with
  | _ n ih =>
    cases hrest : stream.rest with
    | nil =>
      have hpeek : csEoi stream = true := by rw [csEoi_iff, csPeek_eq, hrest]; rfl
      have hround : readBody (front, stream) = .inr front := if_pos hpeek
      rw [Loop.exec_of_inr _ hround, List.map_nil, List.append_nil]
    | cons c l =>
      have hpeek : csPeek stream = toInt c := by rw [csPeek_eq, hrest]; rfl
      have hmore : csPeek stream ≠ eoi := by
        intro heoi
        have hend := rest_of_peek_eoi hl heoi
        rw [CharStream.rest, hend, List.drop_length] at hrest
        cases hrest
      have hround : readBody (front, stream) = .inl (front ++ [toInt c], csRead stream) := by
        rw [readBody, if_neg (by rwa [csEoi_iff]), csReadChar_eq, hpeek]
      rw [Loop.exec_of_inl _ hround, ih _ (hn ▸ unread_csRead hmore) _ _ rfl, rest_csRead, hrest,
        List.tail_cons, List.map_cons, List.append_assoc, List.singleton_append]

/-- The scan that finds the end of the input has read all of it. -/
theorem lxScan_eof_pos (hl : 255 ∉ data) {stream : CharStream data}
    (heof : (lxScan stream).type = .eof) : (lxScan stream).stream.pos = data.length := by
  rcases lxScan_cases stream with ⟨l, -, hscan⟩ | ⟨b, here, -, -, -, -, hscan⟩
  · rw [hscan] at heof
    cases heof
  · rw [hscan] at heof ⊢
    by_cases hpeek : peekOf here.rest = eoi
    · rw [if_pos hpeek]
      exact rest_of_peek_eoi hl (by rwa [csPeek_eq])
    · rw [if_neg hpeek] at heof
      exact absurd heof (scanLoop_type_ne _ (by simp))

theorem lxTokenizeEnd_pos (hl : 255 ∉ data) (beyond : Nat → UInt8) (dst : TokenList)
    (h : (lxTokenizeEnd beyond dst (csNew data)).1.1 = 0) :
    (lxTokenizeEnd beyond dst (csNew data)).2.pos = data.length := by
  obtain ⟨s, -, hexit⟩ := Loop.exec_invariant (fun _ : TokenizeState data => True)
    (tokenizeEndBody_decreasing beyond) (s := ⟨dst, csNew data, 0⟩) (fun _ _ _ _ => trivial) trivial
  change tokenizeEndBody beyond s = .inr (lxTokenizeEnd beyond dst (csNew data)) at hexit
  generalize lxTokenizeEnd beyond dst (csNew data) = r at h hexit ⊢
  simp only [tokenizeEndBody, tokenizeBody] at hexit
  split at hexit
  · rename_i hnone
    obtain rfl := Sum.inr.inj hexit
    exact absurd h (lxToken_none hnone)
  · rename_i tok htok
    split at hexit
    · rename_i heof
      obtain rfl := Sum.inr.inj hexit
      rw [lxToken_stream]
      exact lxScan_eof_pos hl ((lxToken_type htok).symm.trans heof)
    · cases hexit

/-! ## When a line is read whole -/

/-- The reading loop delivers the bytes of the line, the three `cs_` functions return the
end of the input only there, and a successful `lx_tokenize` has read the whole line. -/
structure ReadWhole (line : Str) : Prop where
  delivered : readLine (csNew line) = line.map toInt
  peek : ∀ stream : CharStream line, csPeek stream = eoi → line.length ≤ stream.pos
  ahead : ∀ (stream : CharStream line) n, csPeekAhead stream n = eoi → line.length ≤ stream.pos + n
  read : ∀ stream : CharStream line, (csReadChar stream).1 = eoi → line.length ≤ stream.pos
  tokenized : ∀ beyond dst, (lxTokenizeEnd beyond dst (csNew line)).1.1 = 0 →
    (lxTokenizeEnd beyond dst (csNew line)).2.pos = line.length

theorem length_le_of_ahead (hl : 255 ∉ data) {stream : CharStream data} {n : Nat}
    (h : csPeekAhead stream n = eoi) : data.length ≤ stream.pos + n := by
  by_contra hlt
  have hget := List.getElem?_eq_getElem (Nat.lt_of_not_le hlt)
  rw [csPeekAhead, hget] at h
  exact hl (toInt_eq_eoi.mp h ▸ List.getElem_mem _)

/-- **When a line is read whole.** It is exactly where it does not have the byte 255. -/
theorem readWhole_iff (line : Str) : ReadWhole line ↔ 255 ∉ line := by
  constructor
  · intro h hmem
    obtain ⟨i, hi, hbyte⟩ := List.getElem_of_mem hmem
    have hpeek : csPeek (⟨i, Nat.le_of_lt hi⟩ : CharStream line) = eoi := by
      simp only [csPeek, List.getElem?_eq_getElem hi, hbyte]
      rfl
    exact absurd (h.peek _ hpeek) (Nat.not_le.mpr hi)
  · intro hl
    refine ⟨?_, fun stream h => ?_, fun stream n h => length_le_of_ahead hl h, fun stream h => ?_,
      fun beyond dst => lxTokenizeEnd_pos hl beyond dst⟩
    · exact (readLine_eq hl (csNew line) []).trans (by rw [List.nil_append]; rfl)
    · exact Nat.le_of_eq (rest_of_peek_eoi hl h).symm
    · rw [csReadChar_eq] at h
      exact Nat.le_of_eq (rest_of_peek_eoi hl h).symm

/-- The line `a`, byte 255, `b`: the loop stops behind `a`, and `lx_tokenize` returns 0
with two bytes unread. -/
theorem not_readWhole_255 :
    readLine (csNew [97, 255, 98]) = [97] ∧
      (lxTokenizeEnd (fun _ => 0) tokenlistNewEmpty (csNew [97, 255, 98])).1.1 = 0 ∧
      (lxTokenizeEnd (fun _ => 0) tokenlistNewEmpty (csNew [97, 255, 98])).2.pos = 1 ∧
      ¬ ReadWhole [97, 255, 98] := by
  have hread : readLine (csNew [97, 255, 98]) = [97] := by decide
  refine ⟨hread, by decide, by decide, fun h => ?_⟩
  have hdelivered := h.delivered
  rw [hread] at hdelivered
  simp at hdelivered

end Shell.Lexer
