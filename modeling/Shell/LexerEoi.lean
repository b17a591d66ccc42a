import Shell.LexerRuns

/-! # The byte 255 in a text

Where the next byte is 255, `cs_peek` returns the same as at the end of the data.
The lexer never reads over such a byte: on a text that has one it goes as on the
part in front of it, and its tokens differ at most in their texts. -/
namespace Shell.Lexer
open Shell.CTypes Shell.Tokenlist Shell.Lib

variable {front back : Str} {s : CharStream (front ++ 255 :: back)} {t : CharStream front}
  {start stop : Nat} {flag : QuoteFlag} {p : TokenType}

/-! ## Streams -/

theorem csPeekAhead_same {n : Nat} (hpos : s.pos = t.pos) (hn : t.pos + n ≤ front.length) :
    csPeekAhead s n = csPeekAhead t n := by
  rw [csPeekAhead, csPeekAhead, hpos]
  rcases Nat.lt_or_eq_of_le hn with hlt | heq
  · rw [List.getElem?_append_left hlt]
  · rw [List.getElem?_append_right (Nat.le_of_eq heq.symm), heq, Nat.sub_self,
      List.getElem?_eq_none (Nat.le_refl _)]
    rfl

theorem csPeek_same (hpos : s.pos = t.pos) : csPeek s = csPeek t :=
  csPeekAhead_same (n := 0) hpos t.inBounds

theorem lt_of_csPeek (h : csPeek t ≠ eoi) : t.pos < front.length :=
  Nat.lt_of_le_of_ne t.inBounds fun heq => h (csPeek_eq_eoi heq)

theorem lt_of_csPeekAhead (h : csPeekAhead t 1 ≠ eoi) : t.pos + 1 < front.length := by
  by_contra hge
  exact h (by rw [csPeekAhead, List.getElem?_eq_none (by omega)])

theorem csRead_same (hpos : s.pos = t.pos) (hlt : t.pos < front.length) :
    (csRead s).pos = (csRead t).pos ∧ (csRead t).pos = t.pos + 1 := by
  have hs : ¬ s.pos = (front ++ 255 :: back).length := by
    rw [List.length_append]
    omega
  rw [csRead, csRead, dif_neg hs, dif_neg (by omega)]
  exact ⟨congrArg (· + 1) hpos, rfl⟩

/-! ## Scans -/

/-- The rounds of the two scans that go on. -/
structure SameState (s : ScanState (front ++ 255 :: back)) (t : ScanState front) : Prop where
  pos : s.stream.pos = t.stream.pos
  stop : s.stop = t.stop
  flag : s.flag = t.flag
  type : s.predictedType = t.predictedType
  unread : t.stream.pos < front.length

structure SameScanned (r : Scanned (front ++ 255 :: back)) (q : Scanned front) : Prop where
  type : r.type = q.type
  pos : r.stream.pos = q.stream.pos
  start : r.start = q.start
  stop : r.stop = q.stop

abbrev SameRound : ScanState (front ++ 255 :: back) ⊕ Scanned (front ++ 255 :: back) →
    ScanState front ⊕ Scanned front → Prop := Sum.LiftRel SameState SameScanned

/-- Two scans that test the same condition. -/
theorem SameRound.ite {c : Prop} [Decidable c] {a b : ScanState (front ++ 255 :: back) ⊕ Scanned _}
    {a' b' : ScanState front ⊕ Scanned front} (h : c → SameRound a a')
    (h' : ¬ c → SameRound b b') : SameRound (if c then a else b) (if c then a' else b') := by
  split
  · exact h ‹_›
  · exact h' ‹_›

theorem scanNext_same {nextc : Int} (hpos : s.pos = t.pos)
    (hunread : nextc ≠ eoi → t.pos < front.length) :
    SameRound (scanNext start nextc ⟨s, stop, flag, p⟩) (scanNext start nextc ⟨t, stop, flag, p⟩) := by
  unfold scanNext
  by_cases hend : lxEndOfToken nextc flag = true
  · simp only [hend, if_true]
    split
    · exact .inr ⟨rfl, hpos, rfl, rfl⟩
    · exact .inr ⟨rfl, hpos, rfl, rfl⟩
  · simp only [hend, if_false, Bool.false_eq_true]
    refine .inl ⟨hpos, rfl, rfl, rfl, hunread ?_⟩
    rintro rfl
    exact hend (by unfold lxEndOfToken; split <;> rfl)

theorem scanRead_same {c : Int} (hpos : s.pos = t.pos) (hlt : t.pos < front.length) :
    SameRound (scanRead start c (csPeekAhead t 1) ⟨s, stop, flag, p⟩)
      (scanRead start c (csPeekAhead t 1) ⟨t, stop, flag, p⟩) := by
  obtain ⟨hread, hnext⟩ := csRead_same hpos hlt
  refine scanNext_same hread fun hne => ?_
  rw [hnext]
  exact lt_of_csPeekAhead hne

theorem scanQuoted_same {quote : Char} (hpos : s.pos = t.pos) (hlt : t.pos < front.length) :
    SameRound (scanQuoted start quote ⟨s, stop, flag, p⟩)
      (scanQuoted start quote ⟨t, stop, flag, p⟩) := by
  simp only [scanQuoted, csPeek_same hpos, csPeekAhead_same (n := 1) hpos hlt]
  split
  · exact scanRead_same hpos hlt
  · split
    · exact .inr ⟨rfl, hpos, rfl, rfl⟩
    · exact scanRead_same hpos hlt

theorem lxScanOperator_same {c : Int} (hpos : s.pos = t.pos) (hlt : t.pos < front.length) :
    SameScanned (lxScanOperator s c start stop) (lxScanOperator t c start stop) := by
  obtain ⟨hread, hnext⟩ := csRead_same hpos hlt
  have hone : ∀ type, SameScanned (⟨type, csRead s, start, stop + 1⟩ : Scanned (front ++ 255 :: back))
      ⟨type, csRead t, start, stop + 1⟩ := fun _ => ⟨rfl, hread, rfl, rfl⟩
  cases operatorReads c with
  | one type _ scan =>
    rw [scan, scan]
    exact hone type
  | two double single _ _ hc scan =>
    rw [scan, scan, csPeekAhead_same hpos hlt]
    split
    · rename_i hsecond
      have hlt' : (csRead t).pos < front.length := by
        rw [hnext]
        exact lt_of_csPeekAhead (hsecond ▸ hc)
      exact ⟨rfl, (csRead_same hread hlt').1, rfl, rfl⟩
    · exact hone single

/-- Where the skipping of a substitution ends. -/
def SameSkip (a : Option (CharStream (front ++ 255 :: back) × Nat))
    (b : Option (CharStream front × Nat)) : Prop :=
  (a = none ∧ b = none) ∨
    ∃ (s : CharStream (front ++ 255 :: back)) (t : CharStream front) (stop : Nat),
      a = some (s, stop) ∧ b = some (t, stop) ∧ s.pos = t.pos

theorem skipSub_same (stop : Nat) (hpos : s.pos = t.pos) :
    SameSkip (skipSub s stop) (skipSub t stop) := by
  refine Loop.exec_rel
    (R := fun (a : SubState (front ++ 255 :: back)) (b : SubState front) =>
      a.stream.pos = b.stream.pos ∧ a.stop = b.stop ∧ a.depth = b.depth)
    subBody_decreasing subBody_decreasing ?_ ⟨hpos, rfl, rfl⟩
  rintro ⟨a, n, depth⟩ ⟨b, m, depth'⟩ ⟨hab, hnm, hdepth⟩
  simp only at hab hnm hdepth
  subst hnm
  subst hdepth
  have hread : csPeek b ≠ eoi → (csRead a).pos = (csRead b).pos :=
    fun hne => (csRead_same hab (lt_of_csPeek hne)).1
  simp only [subBody, csPeek_same hab]
  split
  · exact .inr (.inr ⟨a, b, n, rfl, rfl, hab⟩)
  split
  · rename_i hc
    exact .inl ⟨hread (hc.elim ne_eoi_of_eq_ch ne_eoi_of_eq_ch), rfl, rfl⟩
  split
  · exact .inl ⟨hread (ne_eoi_of_eq_ch ‹_›), rfl, rfl⟩
  split
  · exact .inr (.inl ⟨rfl, rfl⟩)
  · exact .inl ⟨hread ‹_›, rfl, rfl⟩

theorem scanSub_same (hpos : s.pos = t.pos) (hlt : t.pos < front.length)
    (hparen : csPeek t = ch '$' → csPeekAhead t 1 = ch '(') :
    SameRound (scanSub start ⟨s, stop, flag, p⟩) (scanSub start ⟨t, stop, flag, p⟩) := by
  obtain ⟨hread, hnext⟩ := csRead_same hpos hlt
  simp only [scanSub, csPeek_same hpos]
  by_cases hdollar : csPeek t = ch '$'
  · have hlt' : (csRead t).pos < front.length := by
      rw [hnext]
      exact lt_of_csPeekAhead (ne_eoi_of_eq_ch (hparen hdollar))
    have htwo := (csRead_same hread hlt').1
    simp only [hdollar, if_true]
    rcases skipSub_same (stop + 1 + 1) htwo with ⟨ha, hb⟩ | ⟨a, b, m, ha, hb, hab⟩
    · simp only [ha, hb]
      exact .inr ⟨rfl, htwo, rfl, rfl⟩
    · simp only [ha, hb, csPeek_same hab]
      exact scanNext_same hab lt_of_csPeek
  · simp only [hdollar, if_false]
    rcases skipSub_same (stop + 1) hread with ⟨ha, hb⟩ | ⟨a, b, m, ha, hb, hab⟩
    · simp only [ha, hb]
      exact .inr ⟨rfl, hread, rfl, rfl⟩
    · simp only [ha, hb, csPeek_same hab]
      exact scanNext_same hab lt_of_csPeek

theorem scanUnquoted_same (hpos : s.pos = t.pos) (hlt : t.pos < front.length) :
    SameRound (scanUnquoted start ⟨s, stop, flag, p⟩) (scanUnquoted start ⟨t, stop, flag, p⟩) := by
  obtain ⟨hread, hnext⟩ := csRead_same hpos hlt
  have hahead := csPeekAhead_same (n := 1) hpos hlt
  simp only [scanUnquoted, csPeek_same hpos, hahead]
  refine .ite (fun _ => .ite (fun _ => ?_) fun _ => ?_) fun _ => ?_
  · exact .inr (lxScanOperator_same hpos hlt)
  · exact .inr ⟨rfl, hpos, rfl, rfl⟩
  refine .ite (fun _ => scanRead_same hpos hlt) fun hnotDollar => ?_
  refine .ite (fun _ => scanSub_same hpos hlt fun hdollar => ?_) fun _ => ?_
  · by_contra hne
    exact hnotDollar ⟨hdollar, hne⟩
  refine .ite (fun _ => scanRead_same hpos hlt) fun _ => ?_
  refine .ite (fun _ => .inr ⟨rfl, hread, rfl, rfl⟩) fun _ => ?_
  refine .ite (fun _ => scanNext_same hread fun hne => hnext ▸ lt_of_csPeekAhead hne) fun _ => ?_
  refine .ite (fun hblank => ?_) fun _ => .ite (fun hredir => ?_) fun _ => scanRead_same hpos hlt
  · have hlt' : (csRead t).pos < front.length := by
      rw [hnext]
      exact lt_of_csPeekAhead (ne_eoi_of_eq_ch hblank.2)
    rw [csPeekAhead_same hread hlt']
    exact scanNext_same hread fun _ => hlt'
  · have hlt' : (csRead t).pos < front.length := by
      rw [hnext]
      exact lt_of_csPeekAhead (hredir.2.elim ne_eoi_of_eq_ch ne_eoi_of_eq_ch)
    rw [csPeek_same hread]
    exact .inr (lxScanOperator_same hread hlt')

theorem scanBody_same {a : ScanState (front ++ 255 :: back)} {b : ScanState front}
    (h : SameState a b) : SameRound (scanBody start a) (scanBody start b) := by
  obtain ⟨s, stop, flag, p⟩ := a
  obtain ⟨t, stop', flag', p'⟩ := b
  obtain ⟨hpos, rfl, rfl, rfl, hlt⟩ := h
  cases flag with
  | singleQuoted => exact scanQuoted_same hpos hlt
  | doubleQuoted => exact scanQuoted_same hpos hlt
  | unquoted => exact scanUnquoted_same hpos hlt

theorem consumeWs_same (hpos : s.pos = t.pos) : (consumeWs s).pos = (consumeWs t).pos := by
  refine Loop.exec_rel
    (R := fun (a : CharStream (front ++ 255 :: back)) (b : CharStream front) => a.pos = b.pos)
    (Q := fun (a : CharStream (front ++ 255 :: back)) (b : CharStream front) => a.pos = b.pos)
    wsBody_decreasing wsBody_decreasing (fun a b hab => ?_) hpos
  simp only [wsBody, csPeek_same hab]
  split
  · rename_i hspace
    exact .inl (csRead_same hab (lt_of_csPeek (isspace_ne_eoi hspace))).1
  · exact .inr hab

/-- A scan does not see what stands behind the byte 255. -/
theorem lxScan_same (hpos : s.pos = t.pos) : SameScanned (lxScan s) (lxScan t) := by
  simp only [lxScan, csPeek_same hpos]
  split
  · rename_i hspace
    have hread := (csRead_same hpos (lt_of_csPeek (isspace_ne_eoi hspace.1))).1
    exact ⟨rfl, hread, hpos, congrArg (· + 1) hpos⟩
  · have hhere : (if isspace (csPeek t) = true then consumeWs s else s).pos =
        (if isspace (csPeek t) = true then consumeWs t else t).pos := by
      split
      · exact consumeWs_same hpos
      · exact hpos
    generalize (if isspace (csPeek t) = true then consumeWs s else s) = a at hhere ⊢
    generalize (if isspace (csPeek t) = true then consumeWs t else t) = b at hhere ⊢
    simp only [csPeek_same hhere]
    split
    · exact ⟨rfl, hhere, hhere, hhere⟩
    · rename_i hpeek
      rw [hhere]
      exact Loop.exec_rel (scanBody_decreasing _) (scanBody_decreasing _)
        (fun _ _ => scanBody_same) ⟨hhere, rfl, rfl, rfl, lt_of_csPeek hpeek⟩

end Shell.Lexer
