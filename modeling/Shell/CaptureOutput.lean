import Shell.Exec

/-! # The output of a substitution, read in pieces (capture_list_output in expand.c)

Every read is appended as a C string, so of a piece with a NUL only the front is
kept. What that leaves of the whole output depends on where the pieces end. -/
namespace Shell.CaptureOutput
open Shell.CTypes Shell.Expand Shell.Exec

variable {σ : Type}

/-- The output as the reads return it: `read` gives at least a byte, and at most as
many as `buf` has room for in front of its NUL. -/
structure Cut (output : Str) where
  reads : List Str
  whole : reads.flatten = output
  sizes : ∀ buf ∈ reads, 1 ≤ buf.length ∧ buf.length ≤ 4095

/-- What `capture_list_output` returns when its reads are these. -/
def captured (host : Host σ) (run : Run σ) (s : σ) (reads : List Str) : Option (Str × σ) :=
  captureListOutput exact { host with captured := fun _ s => some (reads, s) } run s

/-- `text` is the output without the newlines at its end. -/
def Trimmed (output text : Str) : Prop :=
  (∃ n, output = text ++ List.replicate n (chr '\n')) ∧ text.getLast? ≠ some (chr '\n')

/-- The result depends on the output alone, and without a NUL it is the output
without its last newlines. -/
structure CutProof (host : Host σ) (run : Run σ) (s : σ) (output : Str) : Prop where
  alike : ∀ cut cut' : Cut output, captured host run s cut.reads = captured host run s cut'.reads
  trimmed : NulFree output → ∀ cut : Cut output,
    ∃ text, captured host run s cut.reads = some (text, s) ∧ Trimmed output text

/-- Behind its first NUL the output has only NULs and newlines. -/
def NothingBehindNul (output : Str) : Prop :=
  ∀ b ∈ output.dropWhile (· ≠ 0), b = 0 ∨ b = chr '\n'

/-! ## What the reads leave -/

/-- The C string at the front of a piece. -/
def front (buf : Str) : Str := buf.takeWhile (· ≠ 0)

def kept (reads : List Str) : Str := reads.flatMap front

theorem captured_eq (host : Host σ) (run : Run σ) (s : σ) (reads : List Str) :
    captured host run s reads = some (dropNewlines (kept reads), s) := by
  have hfold : ∀ sb : Str, reads.foldlM
      (fun sb buf => exact.appends sb (buf.takeWhile (· ≠ 0))) sb = some (sb ++ kept reads) := by
    induction reads with
    | nil => intro sb; simp [kept]
    | cons buf reads ih =>
      intro sb
      rw [List.foldlM_cons]
      change List.foldlM _ (sb ++ front buf) reads = _
      rw [ih]
      simp [kept]
  simp only [captured, captureListOutput, Option.bind_eq_bind, Option.bind_some, hfold]
  rfl

theorem front_of_nulFree {buf : Str} (h : NulFree buf) : front buf = buf :=
  List.takeWhile_eq_self_iff.mpr fun b hb => by simpa using h b hb

theorem kept_of_nulFree {reads : List Str} (h : NulFree reads.flatten) :
    kept reads = reads.flatten := by
  induction reads with
  | nil => rfl
  | cons buf reads ih =>
    rw [List.flatten_cons] at h ⊢
    have hbuf : NulFree buf := fun b hb => h b (List.mem_append_left _ hb)
    have hrest : NulFree reads.flatten := fun b hb => h b (List.mem_append_right _ hb)
    rw [kept, List.flatMap_cons, front_of_nulFree hbuf, ← ih hrest, kept]

theorem mem_of_mem_kept {reads : List Str} {b : UInt8} (h : b ∈ kept reads) :
    b ∈ reads.flatten ∧ b ≠ 0 := by
  obtain ⟨buf, hbuf, hb⟩ := List.mem_flatMap.mp h
  refine ⟨List.mem_flatten.mpr ⟨buf, hbuf, (List.takeWhile_prefix _).subset hb⟩, ?_⟩
  simpa using List.mem_takeWhile_imp hb

/-- An output with a NUL, cut at the first one. -/
theorem exists_first_nul {output : Str} (h : ¬ NulFree output) :
    ∃ text rest, output = text ++ 0 :: rest ∧ NulFree text := by
  have hmem : (0 : UInt8) ∈ output := by
    by_contra hnot
    exact h fun b hb hzero => hnot (hzero ▸ hb)
  obtain ⟨text, rest, rfl, hfirst⟩ := List.eq_append_cons_of_mem hmem
  exact ⟨text, rest, rfl, fun b hb hzero => hfirst (hzero ▸ hb)⟩

theorem front_append_nul {text : Str} (h : NulFree text) (rest : Str) :
    front (text ++ 0 :: rest) = text := by
  rw [front, List.takeWhile_append_of_pos fun b hb => by simpa using h b hb]
  simp

theorem nothingBehindNul_append {text : Str} (h : NulFree text) (rest : Str) :
    NothingBehindNul (text ++ 0 :: rest) ↔ ∀ b ∈ rest, b = 0 ∨ b = chr '\n' := by
  rw [NothingBehindNul, List.dropWhile_append_of_pos fun b hb => by simpa using h b hb]
  simp

/-! ## The newlines at the end -/

theorem dropNewlines_append (text rest : Str) : dropNewlines (text ++ rest) =
    if dropNewlines rest = [] then dropNewlines text else text ++ dropNewlines rest := by
  simp only [dropNewlines, List.reverse_append, List.dropWhile_append, List.reverse_eq_nil_iff]
  by_cases h : rest.reverse.dropWhile (· == chr '\n') = []
  · simp [h]
  · simp [h]

theorem dropNewlines_eq_nil_iff {text : Str} :
    dropNewlines text = [] ↔ ∀ b ∈ text, b = chr '\n' := by
  simp [dropNewlines, List.dropWhile_eq_nil_iff]

theorem dropNewlines_singleton (c : UInt8) :
    dropNewlines [c] = if c = chr '\n' then [] else [c] := by
  by_cases h : c = chr '\n'
  · simp [dropNewlines, h]
  · simp [dropNewlines, h]

theorem dropNewlines_trimmed (text : Str) : Trimmed text (dropNewlines text) := by
  induction text using List.reverseRecOn with
  | nil => exact ⟨⟨0, rfl⟩, by simp [dropNewlines]⟩
  | append_singleton text c ih =>
    rw [dropNewlines_append, dropNewlines_singleton]
    by_cases h : c = chr '\n'
    · obtain ⟨⟨n, hn⟩, hlast⟩ := ih
      rw [if_pos h, if_pos rfl]
      refine ⟨⟨n + 1, ?_⟩, hlast⟩
      rw [List.replicate_succ', ← List.append_assoc, ← hn, h]
    · rw [if_neg h, if_neg (List.cons_ne_nil c [])]
      exact ⟨⟨0, by simp⟩, by simpa using h⟩

/-- A byte that only one of two texts has makes a difference if it is no newline or
a byte behind it is none. -/
theorem dropNewlines_ne {text rest : Str} {d : UInt8}
    (h : d ≠ chr '\n' ∨ ∃ b ∈ rest, b ≠ chr '\n') :
    dropNewlines (text ++ d :: rest) ≠ dropNewlines (text ++ rest) := by
  have hcons : dropNewlines (d :: rest) = d :: dropNewlines rest := by
    rw [← List.singleton_append, dropNewlines_append, dropNewlines_singleton]
    split
    · rename_i hnil
      rw [dropNewlines_eq_nil_iff] at hnil
      obtain hd | ⟨b, hb, hne⟩ := h
      · rw [if_neg hd, dropNewlines_eq_nil_iff.mpr hnil]
      · exact absurd (hnil b hb) hne
    · rfl
  have hlen : (dropNewlines (text ++ rest)).length ≤ text.length + (dropNewlines rest).length := by
    rw [dropNewlines_append]
    split
    · obtain ⟨⟨n, hn⟩, -⟩ := dropNewlines_trimmed text
      have htext := congrArg List.length hn
      rw [List.length_append] at htext
      omega
    · exact List.length_append.le
  intro heq
  have hlong := congrArg List.length heq
  rw [dropNewlines_append, hcons, if_neg (List.cons_ne_nil _ _), List.length_append,
    List.length_cons] at hlong
  omega

/-! ## Outputs that every cut reads alike -/

theorem kept_newlines {reads : List Str} (h : ∀ b ∈ reads.flatten, b = 0 ∨ b = chr '\n') :
    ∀ b ∈ kept reads, b = chr '\n' := by
  intro b hb
  obtain ⟨hmem, hne⟩ := mem_of_mem_kept hb
  exact (h b hmem).resolve_left hne

/-- The reads keep the front of the output, and newlines behind it. -/
theorem kept_of_nothingBehindNul {reads : List Str} (h : NothingBehindNul reads.flatten) :
    ∃ rest, kept reads = front reads.flatten ++ rest ∧ ∀ b ∈ rest, b = chr '\n' := by
  induction reads with
  | nil => exact ⟨[], rfl, fun b hb => absurd hb List.not_mem_nil⟩
  | cons buf reads ih =>
    rw [List.flatten_cons] at h ⊢
    rw [kept, List.flatMap_cons, ← kept]
    by_cases hbuf : NulFree buf
    · have hall : ∀ b ∈ buf, (decide (b ≠ 0)) = true := fun b hb => by simpa using hbuf b hb
      rw [NothingBehindNul, List.dropWhile_append_of_pos hall] at h
      obtain ⟨rest, hrest, hnew⟩ := ih h
      refine ⟨rest, ?_, hnew⟩
      rw [front_of_nulFree hbuf, hrest, front, front, List.takeWhile_append_of_pos hall,
        List.append_assoc]
    · -- the first NUL is in this piece, so all that follows is NULs and newlines
      obtain ⟨text, tail, rfl, htext⟩ := exists_first_nul hbuf
      rw [List.append_assoc, List.cons_append] at h ⊢
      rw [nothingBehindNul_append htext] at h
      rw [front_append_nul htext, front_append_nul htext]
      exact ⟨kept reads, rfl, kept_newlines fun b hb => h b (List.mem_append_right _ hb)⟩

theorem dropNewlines_kept {reads : List Str} (h : NothingBehindNul reads.flatten) :
    dropNewlines (kept reads) = dropNewlines (front reads.flatten) := by
  obtain ⟨rest, hrest, hnew⟩ := kept_of_nothingBehindNul h
  rw [hrest, dropNewlines_append, if_pos (dropNewlines_eq_nil_iff.mpr hnew)]

/-! ## Outputs that two cuts read differently -/

/-- A read for every byte. -/
def bytewise (output : Str) : List Str := output.map fun b => [b]

theorem flatten_bytewise (output : Str) : (bytewise output).flatten = output := by
  induction output with
  | nil => rfl
  | cons b output ih => simpa [bytewise] using ih

theorem sizes_bytewise {output buf : Str} (h : buf ∈ bytewise output) :
    1 ≤ buf.length ∧ buf.length ≤ 4095 := by
  obtain ⟨b, -, rfl⟩ := List.mem_map.mp h
  simp

theorem mem_kept_bytewise {output : Str} {b : UInt8} (hb : b ∈ output) (hne : b ≠ 0) :
    b ∈ kept (bytewise output) :=
  List.mem_flatMap.mpr ⟨[b], List.mem_map.mpr ⟨b, hb, rfl⟩, by simp [front, hne]⟩

def bytewiseCut (output : Str) : Cut output where
  reads := bytewise output
  whole := flatten_bytewise output
  sizes := fun _ h => sizes_bytewise h

/-- The same but for one read, that returns a NUL and the byte behind it. -/
def pairCut (text : Str) (d : UInt8) (rest : Str) : Cut (text ++ 0 :: d :: rest) where
  reads := bytewise text ++ [0, d] :: bytewise rest
  whole := by simp [flatten_bytewise]
  sizes := by
    intro buf h
    rcases List.mem_append.mp h with h | h
    · exact sizes_bytewise h
    · rcases List.mem_cons.mp h with rfl | h
      · simp
      · exact sizes_bytewise h

/-- A byte that should not be behind a NUL: the first one behind the last NUL in
front of it is lost or not. -/
theorem exists_pair {output : Str} (h : ¬ NothingBehindNul output) :
    ∃ text d rest, output = text ++ 0 :: d :: rest ∧ d ≠ 0 ∧
      (d ≠ chr '\n' ∨ ∃ b ∈ rest, b ≠ 0 ∧ b ≠ chr '\n') := by
  have hnul : ¬ NulFree output := by
    intro hfree
    refine h fun b hb => ?_
    have hall : output.dropWhile (· ≠ 0) = [] :=
      List.dropWhile_eq_nil_iff.mpr fun c hc => by simpa using hfree c hc
    rw [hall] at hb
    exact absurd hb List.not_mem_nil
  obtain ⟨text, rest, rfl, htext⟩ := exists_first_nul hnul
  rw [nothingBehindNul_append htext] at h
  obtain ⟨b, hb, hne⟩ : ∃ b ∈ rest, ¬ (b = 0 ∨ b = chr '\n') := by
    by_contra hall
    exact h fun b hb => by
      by_contra hne
      exact hall ⟨b, hb, hne⟩
  rw [not_or] at hne
  clear h htext hnul
  induction rest generalizing text with
  | nil => exact absurd hb List.not_mem_nil
  | cons d rest ih =>
    by_cases hd : d = 0
    · obtain hbd | hrest := List.mem_cons.mp hb
      · exact absurd (hbd.trans hd) hne.1
      · obtain ⟨text', d', rest', heq, hpair⟩ := ih (text ++ [0]) hrest
        refine ⟨text', d', rest', ?_, hpair⟩
        rw [← heq, hd]
        simp
    · refine ⟨text, d, rest, rfl, hd, ?_⟩
      obtain rfl | hrest := List.mem_cons.mp hb
      · exact .inl hne.2
      · exact .inr ⟨b, hrest, hne⟩

theorem kept_cuts_ne {text rest : Str} {d : UInt8} (hd : d ≠ 0)
    (h : d ≠ chr '\n' ∨ ∃ b ∈ rest, b ≠ 0 ∧ b ≠ chr '\n') :
    dropNewlines (kept (bytewiseCut (text ++ 0 :: d :: rest)).reads) ≠
      dropNewlines (kept (pairCut text d rest).reads) := by
  have hbytes : kept (bytewiseCut (text ++ 0 :: d :: rest)).reads =
      kept (bytewise text) ++ d :: kept (bytewise rest) := by
    simp [bytewiseCut, bytewise, kept, front, hd]
  have hpair : kept (pairCut text d rest).reads =
      kept (bytewise text) ++ kept (bytewise rest) := by
    simp [pairCut, bytewise, kept, front]
  rw [hbytes, hpair]
  refine dropNewlines_ne (h.imp_right fun hlater => ?_)
  obtain ⟨b, hb, hne, hnew⟩ := hlater
  exact ⟨b, mem_kept_bytewise hb hne, hnew⟩

/-! ## The whole call -/

/-- **When the pieces do not matter.** Every cut of the output gives the same text
exactly when nothing but NULs and newlines is behind its first NUL. -/
theorem cutProof_iff (host : Host σ) (run : Run σ) (s : σ) (output : Str) :
    CutProof host run s output ↔ NothingBehindNul output := by
  constructor
  · intro h
    by_contra hbehind
    obtain ⟨text, d, rest, rfl, hd, hlater⟩ := exists_pair hbehind
    have halike := h.alike (bytewiseCut _) (pairCut text d rest)
    rw [captured_eq, captured_eq, Option.some.injEq, Prod.mk.injEq] at halike
    exact kept_cuts_ne hd hlater halike.1
  · intro h
    refine ⟨fun cut cut' => ?_, fun hfree cut => ?_⟩
    · rw [captured_eq, captured_eq, dropNewlines_kept (cut.whole.symm ▸ h),
        dropNewlines_kept (cut'.whole.symm ▸ h), cut.whole, cut'.whole]
    · refine ⟨dropNewlines output, ?_, dropNewlines_trimmed output⟩
      rw [captured_eq, kept_of_nulFree (cut.whole.symm ▸ hfree), cut.whole]

/-- A host where nothing runs. -/
def idleHost : Host Unit where
  varLookup _ _ := none
  varLookupn _ _ _ := none
  varAssign s _ _ := s
  fresh _ := (fun _ => 0, fun _ => 0)
  isBuiltin _ := false
  executeBuiltin _ s := some (0, s)
  executeCommand _ s := some (0, s)
  executePipes _ s := some (0, s)
  executeAndorBg _ s := some (0, s)
  captured _ _ := none
  beyond _ _ := 0

/-- `a`, NUL, `b` in one read gives `a`; a read for every byte gives `ab`. -/
theorem not_cutProof_nul : ¬ CutProof idleHost (fun s => some (0, s)) () [97, 0, 98] := by
  intro h
  have halike := h.alike (bytewiseCut _) ⟨[[97, 0, 98]], rfl, by simp⟩
  rw [captured_eq, captured_eq] at halike
  simp [kept, bytewiseCut, bytewise, front, dropNewlines, chr] at halike

end Shell.CaptureOutput
