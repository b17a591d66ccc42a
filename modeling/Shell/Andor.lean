import Shell.ParserReference

/-! # And-or chains (parse_and_or in parser.c, execute_andor in exec.c)

The executor is generic in what a pipeline is and in what running one does to
the state. `leftAssoc` is what an and-or chain means in a shell. The parser
records an operator on the pipeline before it and the executor reads it as the
operator in front of a pipeline, so the two agree on few chains:
`executeAndor_eq_leftAssoc_iff` says on which. -/
namespace Shell.Andor
open Shell.CTypes Shell.Tokenlist Shell.Parsetypes Shell.Parser Shell.Lib.Separated

variable {π σ : Type}

/-- The `while` loop of `execute_andor`. -/
def executeAndorLoop (executePipeline : π → σ → Int × σ) :
    Int → List (AndOrElement π) → σ → Int × σ
  | status, [], s => (status, s)
  | status, iter :: rest, s =>
    match iter.op with
    | .none =>
      let (status, s) := executePipeline iter.pipeline s
      executeAndorLoop executePipeline status rest s
    | .and =>
      if status ≠ 0 then (status, s)
      else
        let (status, s) := executePipeline iter.pipeline s
        executeAndorLoop executePipeline status rest s
    | .or =>
      if status = 0 then (status, s)
      else
        let (status, s) := executePipeline iter.pipeline s
        executeAndorLoop executePipeline status rest s

def executeAndor (executePipeline : π → σ → Int × σ) (andor : AndOr π) (s : σ) : Int × σ :=
  executeAndorLoop executePipeline 0 andor.elements s

/-- The status in front is one that the operator asks for. -/
def Admits : AndOrOp → Int → Prop
  | .none, _ => True
  | .and, status => status = 0
  | .or, status => status ≠ 0

instance (op : AndOrOp) (status : Int) : Decidable (Admits op status) := by
  cases op <;> unfold Admits <;> infer_instance

section Loop
variable (run : π → σ → Int × σ) {e : AndOrElement π} {status : Int}

theorem executeAndorLoop_admits (h : Admits e.op status) (rest : List (AndOrElement π)) (s : σ) :
    executeAndorLoop run status (e :: rest) s =
      executeAndorLoop run (run e.pipeline s).1 rest (run e.pipeline s).2 := by
  rw [executeAndorLoop]
  cases hop : e.op with
  | none => rfl
  | and =>
    rw [hop] at h
    exact if_neg (not_not.mpr h)
  | or =>
    rw [hop] at h
    exact if_neg h

theorem executeAndorLoop_stops (h : ¬ Admits e.op status) (rest : List (AndOrElement π)) (s : σ) :
    executeAndorLoop run status (e :: rest) s = (status, s) := by
  rw [executeAndorLoop]
  cases hop : e.op with
  | none => exact absurd (by rw [hop]; exact trivial) h
  | and =>
    rw [hop] at h
    exact if_pos h
  | or =>
    rw [hop] at h
    exact if_pos (not_not.mp h)

end Loop

/-! ## What a chain means -/

inductive Connective
  | and
  | or
  deriving DecidableEq, Repr

/-- Whether the pipeline behind the connective runs after `status`. -/
def Connective.runs : Connective → Int → Bool
  | .and, status => status == 0
  | .or, status => status != 0

def Connective.toOp : Connective → AndOrOp
  | .and => .and
  | .or => .or

def chainFrom (run : π → σ → Int × σ) : Int → List (Connective × π) → σ → Int × σ
  | status, [], s => (status, s)
  | status, (op, p) :: rest, s =>
    if op.runs status then chainFrom run (run p s).1 rest (run p s).2
    else chainFrom run status rest s

def leftAssoc (run : π → σ → Int × σ) (p : π) (rest : List (Connective × π)) (s : σ) : Int × σ :=
  chainFrom run (run p s).1 rest (run p s).2

/-! ## Runs that are recorded

To tell which pipelines have run, each is paired with its position in the chain
and a run appends it to the trace. `st` chooses the exit statuses. -/

def runAt (st : Nat → Int) (p : π × Nat) (trace : List (π × Nat)) : Int × List (π × Nat) :=
  (st p.2, trace ++ [p])

def numberFrom (i : Nat) : List (Connective × π) → List (Connective × (π × Nat))
  | [] => []
  | (op, p) :: rest => (op, (p, i)) :: numberFrom (i + 1) rest

def numberAndOr (andor : AndOr π) : AndOr (π × Nat) :=
  { count := andor.count,
    elements := andor.elements.zipIdx.map fun e => ⟨(e.1.pipeline, e.2), e.1.op⟩ }

/-- The elements `parse_and_or` builds: each operator on the pipeline before it. -/
def marked : π → List (Connective × π) → List (AndOrElement π)
  | p, [] => [⟨p, .none⟩]
  | p, (op, q) :: rest => ⟨p, op.toOp⟩ :: marked q rest

theorem number_marked (p : π) (rest : List (Connective × π)) (i : Nat) :
    ((marked p rest).zipIdx i).map
        (fun e => (⟨(e.1.pipeline, e.2), e.1.op⟩ : AndOrElement (π × Nat))) =
      marked (p, i) (numberFrom (i + 1) rest) := by
  induction rest generalizing p i with
  | nil => rfl
  | cons q rest ih =>
    rw [marked, List.zipIdx_cons, List.map_cons, ih]
    rfl

theorem chainFrom_trace (st : Nat → Int) (status : Int) (rest : List (Connective × π)) (i : Nat)
    (trace : List (π × Nat)) :
    ∃ t, (chainFrom (runAt st) status (numberFrom i rest) trace).2 = trace ++ t ∧
      ∀ x ∈ t, i ≤ x.2 := by
  induction rest generalizing status i trace with
  | nil => exact ⟨[], by simp [numberFrom, chainFrom], by simp⟩
  | cons q rest ih =>
    obtain ⟨op, p⟩ := q
    simp only [numberFrom, chainFrom]
    split
    · obtain ⟨t, ht, hpos⟩ := ih (st i) (i + 1) (trace ++ [(p, i)])
      refine ⟨(p, i) :: t, ?_, ?_⟩
      · simpa [runAt] using ht
      · intro x hx
        rcases List.mem_cons.mp hx with rfl | hx
        · exact Nat.le_refl _
        · exact Nat.le_of_succ_le (hpos x hx)
    · obtain ⟨t, ht, hpos⟩ := ih status (i + 1) trace
      exact ⟨t, ht, fun x hx => Nat.le_of_succ_le (hpos x hx)⟩

theorem executeAndorLoop_trace (st : Nat → Int) (status : Int)
    (elements : List (AndOrElement (π × Nat))) (trace : List (π × Nat)) :
    ∃ t, (executeAndorLoop (runAt st) status elements trace).2 = trace ++ t := by
  induction elements generalizing status trace with
  | nil => exact ⟨[], by simp [executeAndorLoop]⟩
  | cons e elements ih =>
    obtain ⟨t, ht⟩ := ih (st e.pipeline.2) (trace ++ [e.pipeline])
    simp only [executeAndorLoop, runAt]
    split
    · exact ⟨e.pipeline :: t, by simpa using ht⟩
    · split
      · exact ⟨[], by simp⟩
      · exact ⟨e.pipeline :: t, by simpa using ht⟩
    · split
      · exact ⟨[], by simp⟩
      · exact ⟨e.pipeline :: t, by simpa using ht⟩

/-- The rest of a chain runs nothing just when none of its operators calls for it. -/
theorem chainFrom_skips_iff (st : Nat → Int) (status : Int) (rest : List (Connective × π))
    (i : Nat) (trace : List (π × Nat)) :
    chainFrom (runAt st) status (numberFrom i rest) trace = (status, trace) ↔
      ∀ q ∈ rest, q.1.runs status = false := by
  induction rest generalizing i with
  | nil => simp [numberFrom, chainFrom]
  | cons q rest ih =>
    obtain ⟨op, p⟩ := q
    simp only [numberFrom, chainFrom, List.mem_cons, forall_eq_or_imp]
    cases hop : op.runs status with
    | false => simp only [Bool.false_eq_true, if_false, ih, true_and]
    | true =>
      simp only [if_true, reduceCtorEq, false_and, iff_false]
      intro heq
      obtain ⟨t, ht, -⟩ := chainFrom_trace st (st i) rest (i + 1) (trace ++ [(p, i)])
      have hlen := congrArg (fun r => r.2.length) heq
      simp only [runAt, ht] at hlen
      simp at hlen

/-- Once an operator does not call for its pipeline, only operators of its kind do not either. -/
theorem Connective.runs_eq_false_iff {op : Connective} {status : Int} (h : op.runs status = false)
    (op' : Connective) : op'.runs status = false ↔ op' = op := by
  cases op <;> cases op' <;> simp_all [Connective.runs]

theorem Connective.and_runs_of_ne {status : Int} (h : status ≠ 0) :
    Connective.and.runs status = false := by
  simp [Connective.runs, h]

/-- Every connective is `&&`, and when all pipelines but the last two exit 0,
so does the last but one. -/
def AgreeOn (st : Nat → Int) (ops : List Connective) : Prop :=
  (∀ op ∈ ops, op = .and) ∧ ∀ k, ops.length = k + 1 → (∀ j < k, st j = 0) → st k = 0

theorem agreeOn_and_succeeded {st : Nat → Int} (h : st 0 = 0) (ops : List Connective) :
    AgreeOn st (.and :: ops) ↔ AgreeOn (fun j => st (j + 1)) ops := by
  simp only [AgreeOn, List.mem_cons, forall_eq_or_imp, true_and, List.length_cons]
  refine and_congr_right fun _ => ⟨fun H k hk hall => ?_, fun H k hk hall => ?_⟩
  · refine H (k + 1) (by omega) fun j hj => ?_
    cases j with
    | zero => exact h
    | succ j => exact hall j (by omega)
  · cases k with
    | zero => exact h
    | succ k => exact H k (by omega) fun j hj => hall (j + 1) (by omega)

theorem agreeOn_and_failed {st : Nat → Int} (h : st 0 ≠ 0) (ops : List Connective) :
    AgreeOn st (.and :: ops) ↔ ops ≠ [] ∧ ∀ op ∈ ops, op = .and := by
  simp only [AgreeOn, List.mem_cons, forall_eq_or_imp, true_and, List.length_cons]
  constructor
  · intro hcond
    obtain ⟨hand, H⟩ := hcond
    refine ⟨?_, hand⟩
    rintro rfl
    exact h (H 0 rfl (by simp))
  · intro hcond
    obtain ⟨hne, hand⟩ := hcond
    refine ⟨hand, fun k hk hall => ?_⟩
    have hk0 : 0 < k := by
      have := List.length_pos_iff.mpr hne
      omega
    exact absurd (hall 0 hk0) h

/-- Behind a failure the code runs `q` of `q || r`, whose own operator it looks at; a
shell does not. -/
theorem executeAndorLoop_ne_of_skipped {st : Nat → Int} {i : Nat} (hs : st i ≠ 0) (q r : π)
    (rest : List (Connective × π)) (trace : List (π × Nat)) :
    executeAndorLoop (runAt st) (st i)
        (marked (q, i + 1) (numberFrom (i + 1 + 1) ((.or, r) :: rest))) trace ≠
      chainFrom (runAt st) (st i) (numberFrom (i + 1) ((.and, q) :: (.or, r) :: rest)) trace := by
  intro heq
  obtain ⟨t, ht⟩ := executeAndorLoop_trace st (st (i + 1))
    (marked (r, i + 1 + 1) (numberFrom (i + 1 + 1 + 1) rest)) (trace ++ [(q, i + 1)])
  obtain ⟨u, hu, hpos⟩ := chainFrom_trace st (st i) ((.or, r) :: rest) (i + 1 + 1) trace
  have hcode : (executeAndorLoop (runAt st) (st i)
      (marked (q, i + 1) (numberFrom (i + 1 + 1) ((.or, r) :: rest))) trace).2 =
      trace ++ [(q, i + 1)] ++ t := by
    rw [← ht]
    simp [numberFrom, marked, executeAndorLoop, Connective.toOp, hs, runAt]
  have hspec : (chainFrom (runAt st) (st i)
      (numberFrom (i + 1) ((.and, q) :: (.or, r) :: rest)) trace).2 = trace ++ u := by
    rw [← hu, numberFrom, chainFrom, Connective.and_runs_of_ne hs]
    rfl
  have htrace := congrArg Prod.snd heq
  rw [hcode, hspec, List.append_assoc] at htrace
  have hmem : (q, i + 1) ∈ u := by
    rw [← List.append_cancel_left htrace]
    simp
  have := hpos _ hmem
  omega

/-- One chain from position `i` on, the status so far being 0. -/
theorem executeAndorLoop_eq_iff (st : Nat → Int) (p : π) (rest : List (Connective × π)) (i : Nat)
    (trace : List (π × Nat)) :
    executeAndorLoop (runAt st) 0 (marked (p, i) (numberFrom (i + 1) rest)) trace =
        leftAssoc (runAt st) (p, i) (numberFrom (i + 1) rest) trace ↔
      AgreeOn (fun j => st (i + j)) (rest.map Prod.fst) := by
  induction rest generalizing p i trace with
  | nil => simp [numberFrom, marked, executeAndorLoop, leftAssoc, chainFrom, AgreeOn, runAt]
  | cons head rest ih =>
    obtain ⟨op, q⟩ := head
    cases op with
    | or =>
      -- the first pipeline is not even run
      have hnot : ¬ AgreeOn (fun j => st (i + j)) (.or :: rest.map Prod.fst) := fun h => by
        have := h.1 .or (by simp)
        cases this
      simp only [List.map_cons, hnot, iff_false]
      intro heq
      obtain ⟨t, ht, -⟩ := chainFrom_trace st (st i) ((.or, q) :: rest) (i + 1)
        (trace ++ [(p, i)])
      have hlen := congrArg (fun r => r.2.length) heq
      simp only [leftAssoc, runAt] at hlen
      rw [ht] at hlen
      simp [numberFrom, marked, executeAndorLoop, Connective.toOp] at hlen
    | and =>
      have hcode : executeAndorLoop (runAt st) 0
          (marked (p, i) (numberFrom (i + 1) ((.and, q) :: rest))) trace =
          executeAndorLoop (runAt st) (st i) (marked (q, i + 1) (numberFrom (i + 1 + 1) rest))
            (trace ++ [(p, i)]) := by
        simp [numberFrom, marked, executeAndorLoop, Connective.toOp, runAt]
      have hspec : leftAssoc (runAt st) (p, i) (numberFrom (i + 1) ((.and, q) :: rest)) trace =
          chainFrom (runAt st) (st i) (numberFrom (i + 1) ((.and, q) :: rest))
            (trace ++ [(p, i)]) := rfl
      rw [hcode, hspec, List.map_cons]
      by_cases hs : st i = 0
      · rw [agreeOn_and_succeeded (by simpa using hs)]
        have hrun : Connective.and.runs (st i) = true := by simp [Connective.runs, hs]
        have hstep : chainFrom (runAt st) (st i) (numberFrom (i + 1) ((.and, q) :: rest))
            (trace ++ [(p, i)]) =
            leftAssoc (runAt st) (q, i + 1) (numberFrom (i + 1 + 1) rest)
              (trace ++ [(p, i)]) := by
          simp only [numberFrom, chainFrom, hrun, if_true, leftAssoc]
        rw [hstep, hs, ih q (i + 1)]
        simp only [Nat.add_assoc, Nat.add_comm 1]
      · rw [agreeOn_and_failed (by simpa using hs)]
        cases rest with
        | nil =>
          -- the last pipeline carries no operator and is run regardless
          simp [numberFrom, marked, executeAndorLoop, chainFrom, Connective.runs, hs, runAt]
        | cons head rest =>
          obtain ⟨op, r⟩ := head
          cases op with
          | and =>
            have hstop : executeAndorLoop (runAt st) (st i)
                (marked (q, i + 1) (numberFrom (i + 1 + 1) ((.and, r) :: rest)))
                (trace ++ [(p, i)]) = (st i, trace ++ [(p, i)]) := by
              simp [numberFrom, marked, executeAndorLoop, Connective.toOp, hs]
            rw [hstop, eq_comm, chainFrom_skips_iff]
            simp [Connective.runs_eq_false_iff (Connective.and_runs_of_ne hs)]
          | or =>
            -- `q` runs in the code and is skipped in a shell
            simp only [List.map_cons, List.mem_cons, forall_eq_or_imp, reduceCtorEq, false_and,
              and_false, iff_false]
            exact executeAndorLoop_ne_of_skipped hs q r rest (trace ++ [(p, i)])

/-! ## From the tokens on -/

/-- What an operator token connects with. -/
def connective (t : Token) : Connective := if t.type == .and then .and else .or

/-- The tokens of a chain: a pipeline, then operators with a pipeline behind each. -/
def chainTokens (p : List Token) (rest : List (Token × List Token)) : List Token :=
  p ++ rest.flatMap fun q => q.1 :: q.2

/-- The tokens of a pipeline: every redirection has its target. -/
structure PipelineTokens (l : List Token) : Prop where
  allowed : ∀ t ∈ l, isPipelineTok t.type = true
  targeted : Targeted l

def chainPipelines (rest : List (Token × List Token)) : List (Connective × Pipeline) :=
  rest.map fun q => (connective q.1, refPipeline q.2)

theorem chainTokens_cons (p : List Token) (s : Token) (q : List Token)
    (rest : List (Token × List Token)) :
    chainTokens p ((s, q) :: rest) = p ++ s :: chainTokens q rest := by
  simp [chainTokens]

theorem andOrOp_eq_toOp (t : Token) : andOrOp t.type = (connective t).toOp := by
  unfold andOrOp connective
  split <;> rfl

theorem PipelineTokens.not_op {p : List Token} (h : PipelineTokens p) :
    ∀ x ∈ p, isAndOrOp x.type = false := fun x hx => by
  cases hop : isAndOrOp x.type with
  | false => rfl
  | true => rw [← h.allowed x hx, isPipelineTok_of_isAndOrOp hop]

theorem refAndOr_elements (l : List Token) :
    (refAndOr l).elements =
      (separated (fun t => isAndOrOp t.type) (fun t => andOrOp t.type) .none l).map
        fun e => ⟨refPipeline e.1, e.2⟩ := rfl

theorem refAndOr_chainTokens {p : List Token} {rest : List (Token × List Token)}
    (hp : PipelineTokens p)
    (hrest : ∀ q ∈ rest, isAndOrOp q.1.type = true ∧ PipelineTokens q.2) :
    (refAndOr (chainTokens p rest)).elements = marked (refPipeline p) (chainPipelines rest) := by
  induction rest generalizing p with
  | nil =>
    rw [chainTokens, List.flatMap_nil, List.append_nil, refAndOr_elements,
      separated_single hp.not_op]
    rfl
  | cons q rest ih =>
    obtain ⟨s, q⟩ := q
    obtain ⟨hs, hq⟩ := hrest (s, q) (by simp)
    have htail := ih hq fun q' hq' => hrest q' (by simp [hq'])
    rw [chainTokens_cons, refAndOr_elements,
      separated_append_cons (p := fun t : Token => isAndOrOp t.type) hp.not_op hs, List.map_cons,
      ← refAndOr_elements, htail, andOrOp_eq_toOp]
    rfl

theorem chainTokens_run {p : List Token} {rest : List (Token × List Token)}
    (hp : PipelineTokens p)
    (hrest : ∀ q ∈ rest, isAndOrOp q.1.type = true ∧ PipelineTokens q.2) :
    (∀ x ∈ chainTokens p rest, isAndOrTok x.type = true) ∧ Targeted (chainTokens p rest) := by
  induction rest generalizing p with
  | nil =>
    rw [chainTokens, List.flatMap_nil, List.append_nil]
    exact ⟨fun x hx => by simp [isAndOrTok, hp.allowed x hx], hp.targeted⟩
  | cons q rest ih =>
    obtain ⟨s, q⟩ := q
    obtain ⟨hs, hq⟩ := hrest (s, q) (by simp)
    obtain ⟨hall, htargeted⟩ := ih hq fun q' hq' => hrest q' (by simp [hq'])
    rw [chainTokens_cons]
    constructor
    · intro x hx
      rcases List.mem_append.mp hx with hx | hx
      · simp [isAndOrTok, hp.allowed x hx]
      · rcases List.mem_cons.mp hx with rfl | hx
        · simp [isAndOrTok, hs]
        · exact hall x hx
    · have hplain : isRedirect s.type = false := by
        have hnot := isPipelineTok_of_isAndOrOp hs
        simp only [isPipelineTok, isCommandTok, Bool.or_eq_false_iff] at hnot
        exact hnot.1.2
      exact Targeted.append hp.targeted (.plain hplain htargeted)

/-- The chain on the stream, and what `parse_and_or` makes of it. -/
theorem parseAndOr_chainTokens {p : List Token} {rest : List (Token × List Token)} {eof : Token}
    (hp : PipelineTokens p)
    (hrest : ∀ q ∈ rest, isAndOrOp q.1.type = true ∧ PipelineTokens q.2)
    (heof : eof.type = .eof) {ts : TokenStream} (hpos : ts.pos = 0)
    (htokens : ts.tokens = chainTokens p rest ++ [eof]) {fuel : Nat}
    (hfuel : ts.tokens.length ≤ fuel) :
    ∃ ao ts', parseAndOr fuel ts = .ok (ao, ts') ∧
      ao.elements = marked (refPipeline p) (chainPipelines rest) := by
  obtain ⟨hall, htargeted⟩ := chainTokens_run hp hrest
  have hlen : (chainTokens p rest).length < fuel := by
    rw [htokens, List.length_append] at hfuel
    exact hfuel
  have htsrest : ts.rest = chainTokens p rest ++ eof :: [] := by
    rw [TokenStream.rest, hpos, List.drop_zero, htokens]
  have hstops : isAndOrTok eof.type = false := by rw [heof]; rfl
  obtain ⟨ts', hrun, -⟩ := parseAndOr_spec fuel _ hall htargeted hlen ts eof [] htsrest hstops
  exact ⟨_, ts', hrun, refAndOr_chainTokens hp hrest⟩

/-- **Executor and shell agree on a parsed chain exactly on these exit statuses.**
Same pipelines run, in the same order, and same status returned, if and only if
every operator is `&&` and the last pipeline but one exits 0 whenever all
before it do (or there is no operator). -/
theorem executeAndor_eq_leftAssoc_iff {p : List Token} {rest : List (Token × List Token)}
    {eof : Token} (hp : PipelineTokens p)
    (hrest : ∀ q ∈ rest, isAndOrOp q.1.type = true ∧ PipelineTokens q.2)
    (heof : eof.type = .eof) {ts : TokenStream} (hpos : ts.pos = 0)
    (htokens : ts.tokens = chainTokens p rest ++ [eof]) {fuel : Nat}
    (hfuel : ts.tokens.length ≤ fuel) (st : Nat → Int) :
    ∃ ao ts', parseAndOr fuel ts = .ok (ao, ts') ∧
      (executeAndor (runAt st) (numberAndOr ao) [] =
          leftAssoc (runAt st) (refPipeline p, 0) (numberFrom 1 (chainPipelines rest)) [] ↔
        AgreeOn st (rest.map fun q => connective q.1)) := by
  obtain ⟨ao, ts', hrun, helements⟩ := parseAndOr_chainTokens hp hrest heof hpos htokens hfuel
  refine ⟨ao, ts', hrun, ?_⟩
  have hiff := executeAndorLoop_eq_iff st (refPipeline p) (chainPipelines rest) 0 []
  rw [executeAndor, numberAndOr, helements, number_marked, hiff]
  simp [chainPipelines, Function.comp_def]

/-- `a && b` with `a` exiting 0 is run as in a shell. -/
theorem executeAndor_eq_leftAssoc_iff_and :
    let word (b : UInt8) : Token := { type := .word, value := [b], fd := 0 }
    let mark (type : TokenType) : Token := { type := type, value := [], fd := 0 }
    let ts : TokenStream := ⟨[word 97, mark .and, word 98, mark .eof], 0, by decide⟩
    ∃ ao ts', parseAndOr 4 ts = .ok (ao, ts') ∧
      executeAndor (runAt fun _ => 0) (numberAndOr ao) [] =
        leftAssoc (runAt fun _ => 0) (refPipeline [word 97], 0)
          (numberFrom 1 (chainPipelines [(mark .and, [word 98])])) [] := by
  intro word mark ts
  have hword : ∀ b, PipelineTokens [word b] := fun b =>
    ⟨by simp [word, isPipelineTok, isCommandTok], .plain rfl .nil⟩
  obtain ⟨ao, ts', hrun, hiff⟩ := @executeAndor_eq_leftAssoc_iff [word 97]
    [(mark .and, [word 98])] (mark .eof) (hword 97) (by simpa using ⟨rfl, hword 98⟩) rfl ts rfl rfl
    4 (Nat.le_refl _) (fun _ => 0)
  exact ⟨ao, ts', hrun, hiff.mpr ⟨by simp [connective, mark], fun _ _ _ => rfl⟩⟩

/-- `a || b` runs nothing at all and returns 0, where a shell runs `a` first. -/
theorem executeAndor_or_runs_nothing :
    let word (b : UInt8) : Token := { type := .word, value := [b], fd := 0 }
    let mark (type : TokenType) : Token := { type := type, value := [], fd := 0 }
    let ts : TokenStream := ⟨[word 97, mark .or, word 98, mark .eof], 0, by decide⟩
    let ao : AndOr Pipeline := { count := 2, elements :=
      [⟨refPipeline [word 97], .or⟩, ⟨refPipeline [word 98], .none⟩] }
    (parseAndOr 4 ts).map Prod.fst = .ok ao ∧
      ∀ st, executeAndor (runAt st) (numberAndOr ao) [] = (0, []) ∧
        executeAndor (runAt st) (numberAndOr ao) [] ≠
          leftAssoc (runAt st) (refPipeline [word 97], 0)
            (numberFrom 1 (chainPipelines [(mark .or, [word 98])])) [] := by
  intro word mark ts ao
  refine ⟨by decide, fun st => ⟨rfl, fun heq => ?_⟩⟩
  obtain ⟨t, ht, -⟩ := chainFrom_trace st (st 0) (chainPipelines [(mark .or, [word 98])]) 1
    [(refPipeline [word 97], 0)]
  have hspec : (leftAssoc (runAt st) (refPipeline [word 97], 0)
      (numberFrom 1 (chainPipelines [(mark .or, [word 98])])) []).2 =
      [(refPipeline [word 97], 0)] ++ t := ht
  rw [← heq] at hspec
  cases hspec

end Shell.Andor
