import Shell.ExpandQuoting
import Shell.Lib.Refine

/-! # Expansion over any builder

`Texts` says what a builder needs so that its blocks stand for texts, as far as it
gets. Over one, `expand_word` can only have the result that it has over the exact
texts, in environments that answer alike. The builder of stringbuilder.c is one as
long as no object is larger than `PTRDIFF_MAX`. -/
namespace Shell.Expand
open Shell.CTypes Shell.Lib Shell.Stringbuilder Shell.Lib.Refine
open Shell.Lexer (QuoteFlag)

variable {β σ σ' : Type}

theorem nulFree_append {s t : Str} (hs : NulFree s) (ht : NulFree t) : NulFree (s ++ t) := by
  intro c hc
  rcases List.mem_append.mp hc with hc | hc
  · exact hs c hc
  · exact ht c hc

theorem nulFree_singleton {c : UInt8} (hc : c ≠ 0) : NulFree [c] := by
  intro d hd
  rwa [List.mem_singleton.mp hd]

theorem nulFree_nil : NulFree [] := List.forall_mem_nil _

theorem nulFree_cons {c : UInt8} {s : Str} : NulFree (c :: s) ↔ c ≠ 0 ∧ NulFree s :=
  List.forall_mem_cons

/-! ## Builders whose blocks stand for texts -/

structure Texts (b : Builder β) (Rep : β → Str → Prop) : Prop where
  nulFree : ∀ {sb text}, Rep sb text → NulFree text
  newSized : ∀ n, Rep (b.newSized n) []
  appends : ∀ {sb text s sb'}, Rep sb text → NulFree s → b.appends sb s = some sb' →
    Rep sb' (text ++ s)
  appendc : ∀ {sb text c sb'}, Rep sb text → c ≠ 0 → b.appendc sb c = some sb' →
    Rep sb' (text ++ [c])
  firstn : ∀ {sb text}, Rep sb text → b.firstn sb text.length = text
  takestring : ∀ {sb text result}, Rep sb text → b.takestring sb = some result → result = text

theorem texts_exact : Texts exact fun sb text => sb = text ∧ NulFree text where
  nulFree h := h.2
  newSized n := ⟨rfl, nulFree_nil⟩
  appends := by
    rintro sb text s sb' ⟨rfl, htext⟩ hs h
    obtain rfl := Option.some.inj h
    exact ⟨rfl, nulFree_append htext hs⟩
  appendc := by
    rintro sb text c sb' ⟨rfl, htext⟩ hc h
    obtain rfl := Option.some.inj h
    exact ⟨rfl, nulFree_append htext (nulFree_singleton hc)⟩
  firstn := by
    rintro sb text ⟨rfl, -⟩
    exact List.take_length
  takestring := by
    rintro sb text result ⟨rfl, -⟩ h
    exact (Option.some.inj h).symm

/-! ## The builder of stringbuilder.c -/

/-- No object is larger than `PTRDIFF_MAX`, and neither is a text that is to be one. -/
def allocatable (sb : StringBuilder) (needed : Nat) : Bool :=
  sb.capacity < 2 ^ 63 && sb.size + needed < 2 ^ 63

/-- The builder of the heap, where a larger allocation ends the run. -/
def allocated (garbage : Cells) : Builder StringBuilder :=
  { heap garbage with
    appends := fun sb s =>
      if allocatable sb s.length then (heap garbage).appends sb s else none
    appendc := fun sb c => if allocatable sb 1 then (heap garbage).appendc sb c else none }

/-- The block starts with the text and is clear behind it, though the text may fill it
to its last byte, as `sb_appendc` lets it. -/
structure Tracks (sb : StringBuilder) (text : Str) : Prop where
  size : sb.size = text.length
  room : text.length ≤ sb.capacity
  pos : 0 < sb.capacity
  bound : sb.capacity < 2 ^ 64 - 1
  chars : ∀ i, i < text.length → text[i]? = some (sb.str i)
  zeros : ∀ i, text.length ≤ i → i < sb.capacity → sb.str i = 0

theorem tracks_of_holds {sb : StringBuilder} {text : Str} (h : Holds sb text) : Tracks sb text :=
  ⟨h.size, Nat.le_of_lt h.room, Nat.lt_of_le_of_lt (Nat.zero_le _) h.room, h.bound, h.chars,
    h.zeros⟩

theorem Tracks.holds {sb : StringBuilder} {text : Str} (h : Tracks sb text)
    (hroom : text.length < sb.capacity) : Holds sb text :=
  ⟨h.size, hroom, h.bound, h.chars, h.zeros⟩

/-- A byte that stays inside of the block. -/
theorem tracks_appendc {sb sb' : StringBuilder} {text : Str} {garbage : Cells} {c : UInt8}
    (h : Tracks sb text) (hin : (heap garbage).appendc sb c = some sb') : Tracks sb' (text ++ [c]) := by
  have hsize := h.size
  have hroom := h.room
  have hbound := h.bound
  have hnogrow : sizeSub sb.size 1 ≠ sb.capacity := by unfold sizeSub; omega
  rw [heap_appendc, inBlock, Option.ite_none_right_eq_some] at hin
  obtain ⟨hwrites, hin⟩ := hin
  simp only [sbAppendc, hnogrow, if_false, List.mem_singleton, forall_eq] at hwrites hin
  obtain rfl := Option.some.inj hin
  refine ⟨?_, ?_, h.pos, hbound, ?_, ?_⟩
  · simp only [List.length_append, List.length_singleton]
    omega
  · simp only [List.length_append, List.length_singleton]
    omega
  · intro i hi
    simp only [List.length_append, List.length_singleton] at hi
    rcases Nat.lt_succ_iff_lt_or_eq.mp hi with hlt | rfl
    · rw [List.getElem?_append_left hlt, h.chars i hlt]
      simp only [storeBytes, show ¬ sb.size ≤ i by omega, if_false]
    · simp [storeBytes, hsize]
  · intro i hi hlt
    simp only [List.length_append, List.length_singleton] at hi
    have hout : ([c] : Str)[i - sb.size]? = none := by
      rw [List.getElem?_eq_none_iff, List.length_singleton]
      omega
    simp only [storeBytes, hout, Option.getD_none, ite_self]
    exact h.zeros i (by omega) hlt

/-- The growth test of `sb_appends`, in a block that may be full. -/
theorem Tracks.growthTest_iff {sb : StringBuilder} {text : Str} (h : Tracks sb text)
    (needed : Nat) :
    sizeSub sb.capacity (sizeSub sb.size 1) ≤ needed ↔ sb.capacity < sb.size + needed := by
  have hsize := h.size
  have hroom := h.room
  have hpos := h.pos
  have hbound := h.bound
  unfold sizeSub
  omega

/-- Growing clears everything behind the text, so a block that was full is none any more. -/
theorem tracks_grow {sb : StringBuilder} {text : Str} {needed : Nat} (garbage : Cells)
    (h : Tracks sb text) (hfull : sb.capacity < sb.size + needed)
    (hfit : sb.size + needed < 2 ^ 63) :
    ∃ o, sbGrow garbage sb needed = some o ∧ Holds o.sb text ∧
      sb.size + needed < o.sb.capacity := by
  have hroom := h.room
  have hsize := h.size
  have hpos := h.pos
  obtain ⟨g, hg, hgrow, hlt⟩ : ∃ g, growthFactor sb.capacity sb.size needed = some g ∧
      Growing sb.capacity sb.size needed g ∧ sb.size + needed < sb.capacity * 2 ^ g :=
    growthFactor_spec hpos (by omega) (by omega) hfit
  have hexact := hgrow.exact
  have hcap : sb.capacity ≤ sb.capacity * 2 ^ g := Nat.le_mul_of_pos_right _ (Nat.two_pow_pos g)
  have hcount : sizeSub (sb.capacity * 2 ^ g) sb.size = sb.capacity * 2 ^ g - sb.size :=
    sizeSub_eq (by omega) hexact
  have heven : sb.capacity * 2 ^ g ≠ 2 ^ 64 - 1 := by
    obtain ⟨k, rfl⟩ : ∃ k, g = k + 1 := ⟨g - 1, by have := hgrow.one_le; omega⟩
    rw [pow_succ, ← Nat.mul_assoc]
    omega
  have hzero : ¬ sb.capacity = 0 := by omega
  have heq : sbGrow garbage sb needed = some
      { sb := { capacity := sb.capacity * 2 ^ g, size := sb.size,
                str := memsetZero (realloc sb.str sb.capacity garbage) sb.size
                  (sb.capacity * 2 ^ g - sb.size) },
        writes := List.range' sb.size (sb.capacity * 2 ^ g - sb.size) } := by
    simp only [sbGrow, hzero, if_false, hg, Option.map_some, sizeShl_eq hexact, hcount]
  refine ⟨_, heq, ⟨hsize, by simp only; omega, by simp only; omega, ?_, ?_⟩, hlt⟩
  · intro i hi
    rw [h.chars i hi]
    simp only [memsetZero, realloc, show ¬ sb.size ≤ i by omega, show i < sb.capacity by omega,
      false_and, if_false, if_true]
  · intro i hi hlt
    simp only at hlt
    have hin : sb.size ≤ i ∧ i < sb.size + (sb.capacity * 2 ^ g - sb.size) := by omega
    simp only [memsetZero, hin, and_self, if_true]

theorem heap_appends (garbage : Cells) (sb : StringBuilder) (s : Str) :
    (heap garbage).appends sb s = (sbAppends garbage sb s).bind inBlock := by
  simp only [heap]

/-- A string that stays inside of the block, grown or not. -/
theorem holds_appends {sb sb' : StringBuilder} {text s : Str} {garbage : Cells}
    (h : Tracks sb text) (hfit : sb.size + s.length < 2 ^ 63)
    (hin : (heap garbage).appends sb s = some sb') : Holds sb' (text ++ s) := by
  have hsize := h.size
  have hroom := h.room
  have hlen : (text ++ s).length < 2 ^ 63 := by
    rw [List.length_append]
    omega
  rw [heap_appends] at hin
  obtain ⟨o, ho, hin⟩ := Option.bind_eq_some_iff.mp hin
  rw [inBlock, Option.ite_none_right_eq_some] at hin
  obtain ⟨hwrites, hin⟩ := hin
  obtain rfl := Option.some.inj hin
  by_cases hfull : sb.capacity < sb.size + s.length
  · obtain ⟨grown, hgrow, hold, hcap⟩ := tracks_grow garbage h hfull hfit
    have hgrown := hold.size
    rw [sbAppends, if_pos ((h.growthTest_iff _).mpr hfull), hgrow, Option.bind_some] at ho
    rw [sbCat_eq grown.writes s hold hlen] at ho
    obtain rfl := Option.some.inj ho
    exact holds_cat s hold (by omega)
  · have htest := mt (h.growthTest_iff s.length).mp hfull
    rw [sbAppends, if_neg htest] at ho
    by_cases hlt : text.length < sb.capacity
    · have hold := h.holds hlt
      rw [sbCat_eq [] s hold hlen] at ho
      obtain rfl := Option.some.inj ho
      have hlast := hwrites (sb.size + s.length) (by simp)
      exact holds_cat s hold hlast
    · -- the search for the NUL leaves a full block
      have hnone : firstNul sb.str sb.size sb.capacity = none :=
        firstNul_none fun i h1 h2 => by omega
      rw [sbCat, hnone] at ho
      cases ho

theorem cstr_new (n : Nat) (garbage : Cells) : cstr (sbNewSized n garbage) = some [] := by
  have hpos : 0 < (sbNewSized n garbage).capacity := by
    show 0 < if n = 0 then 16 else n
    split <;> omega
  refine cstr_of_chars (fun i hi => absurd hi (Nat.not_lt_zero i)) ?_ hpos nulFree_nil
  show calloc _ garbage 0 = 0
  exact if_pos hpos

/-- A text in a block; a new block may be of any size. -/
def Blocks (garbage : Cells) (sb : StringBuilder) (text : Str) : Prop :=
  NulFree text ∧ (Tracks sb text ∨ text = [] ∧ ∃ n, sb = sbNewSized n garbage)

theorem Blocks.tracks {garbage : Cells} {sb : StringBuilder} {text : Str} {needed : Nat}
    (h : Blocks garbage sb text) (hfit : allocatable sb needed = true) :
    Tracks sb text ∧ sb.size + needed < 2 ^ 63 := by
  simp only [allocatable, Bool.and_eq_true, decide_eq_true_eq] at hfit
  refine ⟨?_, hfit.2⟩
  rcases h.2 with h | ⟨rfl, n, rfl⟩
  · exact h
  · have hn : n < 2 ^ 63 := by
      have hcap : (if n = 0 then 16 else n) < 2 ^ 63 := hfit.1
      split at hcap <;> omega
    exact tracks_of_holds (holds_new garbage hn)

theorem texts_allocated (garbage : Cells) : Texts (allocated garbage) (Blocks garbage) where
  nulFree h := h.1
  newSized n := ⟨nulFree_nil, .inr ⟨rfl, n, rfl⟩⟩
  appends := by
    intro sb text s sb' h hs hin
    obtain ⟨hfit, hin⟩ := Option.ite_none_right_eq_some.mp hin
    obtain ⟨htracks, hlen⟩ := h.tracks hfit
    exact ⟨nulFree_append h.1 hs, .inl (tracks_of_holds (holds_appends htracks hlen hin))⟩
  appendc := by
    intro sb text c sb' h hc hin
    obtain ⟨hfit, hin⟩ := Option.ite_none_right_eq_some.mp hin
    exact ⟨nulFree_append h.1 (nulFree_singleton hc),
      .inl (tracks_appendc (h.tracks hfit).1 hin)⟩
  firstn := by
    intro sb text h
    rcases h.2 with h | ⟨rfl, -⟩
    · refine List.ext_getElem? fun i => ?_
      by_cases hi : i < text.length
      · rw [h.chars i hi]
        simp [allocated, heap, hi]
      · simp [allocated, heap, hi]
    · rfl
  takestring := by
    intro sb text result h hin
    change cstr sb = some result at hin
    rcases h.2 with ht | ⟨rfl, n, rfl⟩
    · by_cases hroom : text.length < sb.capacity
      · rw [(ht.holds hroom).cstr h.1] at hin
        exact (Option.some.inj hin).symm
      · have hfull : text.length = sb.capacity := Nat.le_antisymm ht.room (Nat.not_lt.mp hroom)
        have hnone : firstNul sb.str 0 sb.capacity = none :=
          firstNul_none fun i _ hi => h.1 _ (List.mem_of_getElem? (ht.chars i (hfull ▸ hi)))
        rw [cstr, hnone] at hin
        cases hin
    · rw [cstr_new] at hin
      exact (Option.some.inj hin).symm

/-! ## Environments that answer alike -/

/-- The variables are the same in related states, and every value is a C string. -/
structure SameVars (vars : Vars σ) (vars' : Vars σ') (R : σ → σ' → Prop) : Prop where
  varLookup : ∀ {s s'}, R s s' → ∀ name, vars.varLookup s name = vars'.varLookup s' name
  varLookupn : ∀ {s s'}, R s s' → ∀ name count,
    vars.varLookupn s name count = vars'.varLookupn s' name count
  value : ∀ {s s'}, R s s' → ∀ {name val}, vars.varLookup s name = some val → NulFree val
  valuen : ∀ {s s'}, R s s' → ∀ {name count val},
    vars.varLookupn s name count = some val → NulFree val
  varAssign : ∀ {s s'}, R s s' → ∀ {name val}, NulFree name → NulFree val →
    R (vars.varAssign s name val) (vars'.varAssign s' name val)
  fresh : ∀ {s s'}, R s s' → vars.fresh s = vars'.fresh s'

structure SameEnv (env : Env σ) (env' : Env σ') (R : σ → σ' → Prop) : Prop
    extends SameVars env.toVars env'.toVars R where
  cmdsub : ∀ {body}, NulFree body →
    Simulates (Agree NulFree) R (env.cmdsub body) (env'.cmdsub body)

section Words
variable {b : Builder β} {Rep : β → Str → Prop} {env : Env σ} {env' : Env σ'}
  {R : σ → σ' → Prop} {s : σ} {s' : σ'} {sb : β} {text : Str}

theorem Texts.refines_appends (hb : Texts b Rep) (h : Rep sb text) {t : Str} (ht : NulFree t) :
    Refines Rep (b.appends sb t) (exact.appends text t) :=
  fun _ hin => ⟨text ++ t, rfl, hb.appends h ht hin⟩

theorem Texts.refines_appendc (hb : Texts b Rep) (h : Rep sb text) {c : UInt8} (hc : c ≠ 0) :
    Refines Rep (b.appendc sb c) (exact.appendc text c) :=
  fun _ hin => ⟨text ++ [c], rfl, hb.appendc h hc hin⟩

theorem Texts.refines_takestring (hb : Texts b Rep) (h : Rep sb text) :
    Refines (Agree NulFree) (b.takestring sb) (exact.takestring text) := by
  intro result hin
  obtain rfl := hb.takestring h hin
  exact ⟨result, rfl, rfl, hb.nulFree h⟩

theorem nulFree_scanTo {stop : UInt8} {i : Str} (hi : NulFree i) :
    NulFree (scanTo stop i).1 ∧ ∀ rest, (scanTo stop i).2 = some rest → NulFree rest := by
  induction i with
  | nil => exact ⟨nulFree_nil, fun rest h => by cases h⟩
  | cons c i ih =>
    obtain ⟨hc, hi⟩ := nulFree_cons.mp hi
    obtain ⟨hname, hrest⟩ := ih hi
    rw [scanTo]
    split
    · refine ⟨nulFree_nil, fun rest h => ?_⟩
      obtain rfl := Option.some.inj h
      exact hi
    · exact ⟨nulFree_cons.mpr ⟨hc, hname⟩, hrest⟩

theorem refines_expandTilde (hb : Texts b Rep) (henv : SameEnv env env' R) (hs : R s s')
    (h : Rep sb text) :
    Refines Rep (expandTilde b env s sb) (expandTilde exact env' s' text) := by
  rw [expandTilde, expandTilde, ← henv.varLookup hs]
  cases hval : env.varLookup s (str "HOME") with
  | none => exact refines_some h
  | some val => exact hb.refines_appends h (henv.value hs hval)

theorem refines_expandBracedVariable (hb : Texts b Rep) (henv : SameEnv env env' R) (hs : R s s')
    (h : Rep sb text) {i : Str} (hi : NulFree i) :
    Refines (Both (Agree NulFree) Rep) (expandBracedVariable b env i s sb)
      (expandBracedVariable exact env' i s' text) := by
  obtain ⟨hname, hrest⟩ := @nulFree_scanTo (chr '\x7d') _ hi
  have hbehind : NulFree ((scanTo (chr '\x7d') i).2.getD []) := by
    cases hscan : (scanTo (chr '\x7d') i).2 with
    | none => exact nulFree_nil
    | some rest => exact hrest rest hscan
  have htmp : Refines Rep ((scanTo (chr '\x7d') i).1.foldlM b.appendc (b.newSized 16))
      ((scanTo (chr '\x7d') i).1.foldlM exact.appendc (exact.newSized 16)) := by
    refine refines_foldlM (p := fun c => c ≠ 0) ?_ hname (hb.newSized 16)
    intro sb text c hc hrep
    exact hb.refines_appendc hrep hc
  refine htmp.bind fun tmp tmp' htmp => (hb.refines_takestring htmp).bind fun name name' hname => ?_
  obtain ⟨rfl, -⟩ := hname
  rw [← henv.varLookup hs]
  cases hval : env.varLookup s name with
  | none => exact refines_some ⟨⟨rfl, hbehind⟩, h⟩
  | some val =>
    exact (hb.refines_appends h (henv.value hs hval)).bind fun sb' text' h' =>
      refines_some ⟨⟨rfl, hbehind⟩, h'⟩

/-- By induction on the text: the name so far is what the second builder holds. -/
theorem refines_expandLooseLoop (hb : Texts b Rep) (henv : SameEnv env env' R) (hs : R s s')
    (h : Rep sb text) {i : Str} (hi : NulFree i) {tmp : β} {name : Str} (htmp : Rep tmp name) :
    Refines (Both (Agree NulFree) Rep) (expandLooseLoop b env s sb i tmp name.length)
      (expandLooseLoop exact env' s' text i name name.length) := by
  induction i generalizing tmp name with
  | nil => exact refines_some ⟨⟨rfl, nulFree_nil⟩, h⟩
  | cons c i ih =>
    obtain ⟨hc, hrest⟩ := nulFree_cons.mp hi
    by_cases hblank : c = chr ' '
    · rw [expandLooseLoop, expandLooseLoop, if_pos hblank, if_pos hblank]
      exact refines_some ⟨⟨rfl, hi⟩, h⟩
    · rw [expandLooseLoop, expandLooseLoop, if_neg hblank, if_neg hblank]
      have happend : Refines (fun tmp' name' => Rep tmp' name' ∧ name' = name ++ [c])
          (b.appendc tmp c) (exact.appendc name c) :=
        fun _ h => ⟨name ++ [c], rfl, hb.appendc htmp hc h, rfl⟩
      refine happend.bind fun tmp' name' hname => ?_
      obtain ⟨hname, rfl⟩ := hname
      have hlen : name.length + 1 = (name ++ [c]).length := by simp
      rw [hlen, hb.firstn hname, texts_exact.firstn ⟨rfl, hb.nulFree hname⟩, henv.varLookupn hs]
      cases hval : env'.varLookupn s' (name ++ [c]) (name ++ [c]).length with
      | none => exact ih hrest hname
      | some val =>
        rw [← henv.varLookupn hs] at hval
        exact (hb.refines_appends h (henv.valuen hs hval)).bind fun _ _ h' =>
          refines_some ⟨⟨rfl, hrest⟩, h'⟩

theorem refines_expandVariable (hb : Texts b Rep) (henv : SameEnv env env' R) (hs : R s s')
    (h : Rep sb text) {i : Str} (hi : NulFree i) :
    Refines (Both (Agree NulFree) Rep) (expandVariable b env i s sb)
      (expandVariable exact env' i s' text) := by
  have hloose : Refines (Both (Agree NulFree) Rep) (expandLooseVariable b env i s sb)
      (expandLooseVariable exact env' i s' text) :=
    refines_expandLooseLoop hb henv hs h hi (hb.newSized 16)
  cases i with
  | nil => exact hloose
  | cons c i =>
    rw [expandVariable, expandVariable]
    split
    · exact refines_expandBracedVariable hb henv hs h (nulFree_cons.mp hi).2
    · exact hloose

theorem refines_expandCmdsub (hb : Texts b Rep) (henv : SameEnv env env' R) (hs : R s s')
    (h : Rep sb text) {i : Str} (hi : NulFree i) :
    Refines (Both (Agree NulFree) (Both Rep R)) (expandCmdsub b env i s sb)
      (expandCmdsub exact env' i s' text) := by
  obtain ⟨hbody, hrest⟩ := @nulFree_scanTo (chr ')') _ hi
  rw [expandCmdsub, expandCmdsub]
  generalize scanTo (chr ')') i = scanned at hbody hrest
  obtain ⟨body, _ | rest⟩ := scanned
  · exact refines_some ⟨⟨rfl, nulFree_nil⟩, h, hs⟩
  · refine (henv.cmdsub hbody s s' hs).bind fun r r' hr => ?_
    obtain ⟨⟨hresult, hnul⟩, ht⟩ := hr
    simp only
    rw [← hresult]
    exact (hb.refines_appends h hnul).bind fun sb' text' h' =>
      refines_some ⟨⟨rfl, hrest rest rfl⟩, h', ht⟩

theorem refines_expandDollarsign (hb : Texts b Rep) (henv : SameEnv env env' R) (hs : R s s')
    (h : Rep sb text) {i : Str} (hi : NulFree i) :
    Refines (Both (Agree NulFree) (Both Rep R)) (expandDollarsign b env i s sb)
      (expandDollarsign exact env' i s' text) := by
  have hvar : Refines (Both (Agree NulFree) (Both Rep R))
      ((expandVariable b env i s sb).map fun r => (r.1, r.2, s))
      ((expandVariable exact env' i s' text).map fun r => (r.1, r.2, s')) :=
    (refines_expandVariable hb henv hs h hi).map fun r r' hr => ⟨hr.1, hr.2, hs⟩
  cases i with
  | nil => exact hvar
  | cons c i =>
    rw [expandDollarsign, expandDollarsign]
    split
    · exact refines_expandCmdsub hb henv hs h (nulFree_cons.mp hi).2
    · exact hvar

/-! ## Words -/

/-- Two expansions of one word that have got equally far. -/
structure SameWord (Rep : β → Str → Prop) (R : σ → σ' → Prop) (w : WordState β σ)
    (w' : WordState Str σ') : Prop where
  i : w.i = w'.i
  nulFree : NulFree w.i
  flag : w.flag = w'.flag
  sb : Rep w.sb w'.sb
  s : R w.s w'.s

theorem follows_goOn {x : Option (WordState β σ)} {y : Option (WordState Str σ')}
    (h : Refines (SameWord Rep R) x y) :
    Follows (SameWord Rep R) (Both (Agree NulFree) R) (goOn x) (goOn y) := by
  cases x with
  | none => cases y with
    | none => exact refines_none _
    | some w' => exact rfl
  | some w =>
    obtain ⟨w', rfl, hw⟩ := h w rfl
    exact hw

variable {w : WordState β σ} {w' : WordState Str σ'}

theorem refines_appendOne (hb : Texts b Rep) (h : SameWord Rep R w w') {c : UInt8} {i : Str}
    (hc : c ≠ 0) (hi : NulFree i) :
    Refines (SameWord Rep R) (appendOne b w c i) (appendOne exact w' c i) :=
  (hb.refines_appendc h.sb hc).map fun _ _ hsb => ⟨rfl, hi, h.flag, hsb, h.s⟩

theorem refines_escapeOne (hb : Texts b Rep) (h : SameWord Rep R w w') {i : Str}
    (hi : NulFree i) : Refines (SameWord Rep R) (escapeOne b w i) (escapeOne exact w' i) := by
  cases i with
  | nil => exact refines_none _
  | cons c i =>
    obtain ⟨hc, hi⟩ := nulFree_cons.mp hi
    exact refines_appendOne hb h hc hi

theorem refines_dollarOne (hb : Texts b Rep) (henv : SameEnv env env' R) (h : SameWord Rep R w w')
    {i : Str} (hi : NulFree i) :
    Refines (SameWord Rep R) (dollarOne b env w i) (dollarOne exact env' w' i) :=
  (refines_expandDollarsign hb henv h.s h.sb hi).map fun _ _ hr =>
    ⟨hr.1.1, hr.1.2, h.flag, hr.2.1, hr.2.2⟩

theorem refines_tildeOne (hb : Texts b Rep) (henv : SameEnv env env' R) (h : SameWord Rep R w w')
    {i : Str} (hi : NulFree i) :
    Refines (SameWord Rep R) (tildeOne b env w i) (tildeOne exact env' w' i) :=
  (refines_expandTilde hb henv h.s h.sb).map fun _ _ hsb => ⟨rfl, hi, h.flag, hsb, h.s⟩

/-- One round, by the quotes around it and the byte ahead. -/
theorem follows_expandBody (hb : Texts b Rep) (henv : SameEnv env env' R) (len : Nat)
    (h : SameWord Rep R w w') :
    Follows (SameWord Rep R) (Both (Agree NulFree) R) (expandBody b env len w)
      (expandBody exact env' len w') := by
  have hnul := h.nulFree
  rw [expandBody, expandBody, ← h.i, ← h.flag]
  cases hi : w.i with
  | nil =>
    exact (hb.refines_takestring h.sb).map fun _ _ hr => ⟨hr, h.s⟩
  | cons c i =>
    rw [hi] at hnul
    obtain ⟨hc, hrest⟩ := nulFree_cons.mp hnul
    have append := follows_goOn (refines_appendOne hb h hc hrest)
    have escape := follows_goOn (refines_escapeOne hb h hrest)
    have dollar := follows_goOn (refines_dollarOne hb henv h hrest)
    have tilde := follows_goOn (refines_tildeOne hb henv h hrest)
    have quote : ∀ flag, SameWord Rep R { w with i := i, flag := flag }
        { w' with i := i, flag := flag } := fun flag => ⟨rfl, hrest, rfl, h.sb, h.s⟩
    cases w.flag with
    | unquoted =>
      simp only
      split
      · split
        · exact tilde
        · exact append
      split
      · exact dollar
      split
      · exact escape
      split
      · exact quote _
      split
      · exact quote _
      · exact append
    | singleQuoted =>
      simp only
      split
      · exact quote _
      · exact append
    | doubleQuoted =>
      simp only
      split
      · exact quote _
      split
      · exact escape
      split
      · exact dollar
      · exact append

/-- **Expansion can only have the exact result**, whatever the builder. -/
theorem simulates_expandWord (hb : Texts b Rep) (henv : SameEnv env env' R) {word : Str}
    (hword : NulFree word) :
    Simulates (Agree NulFree) R (expandWord b env word) (expandWord exact env' word) :=
  fun _ _ hs => exec_refines _ _ (fun _ _ h => follows_expandBody hb henv word.length h)
    ⟨rfl, hword, rfl, hb.newSized word.length, hs⟩

end Words

end Shell.Expand
