import Mathlib.Tactic.Ring
import Shell.Stringbuilder

/-! # When the buffer holds what was appended

`Holds sb text` is the state the operations are written for: the block starts
with `text`, is cleared from there on and has room for the terminating NUL.
A call keeps it exactly when `Call.Fits` does: `sb_appends` must not fill the
block to the last byte, and `sb_appendc` must leave a byte free, because
neither growth test counts the NUL. -/
namespace Shell.Stringbuilder
open Shell.CTypes Shell.Lib

/-! ## The C library on cells -/

theorem firstNul_eq {cells : Cells} {start bound n : Nat} (hle : start ≤ n) (hlt : n < bound)
    (hz : cells n = 0) (hnz : ∀ i, start ≤ i → i < n → cells i ≠ 0) :
    firstNul cells start bound = some n := by
  unfold firstNul
  rw [List.find?_range'_eq_some]
  refine ⟨by simp [hz], by simp only [List.mem_range'_1]; omega, ?_⟩
  intro i hi hin
  simpa using hnz i hi hin

theorem firstNul_none {cells : Cells} {start bound : Nat}
    (h : ∀ i, start ≤ i → i < bound → cells i ≠ 0) : firstNul cells start bound = none := by
  unfold firstNul
  rw [List.find?_range'_eq_none]
  intro i hi hlt
  simpa using h i hi (by omega)

/-- A block that starts with `text` and its NUL reads as `text`. -/
theorem cstr_of_chars {sb : StringBuilder} {text : Str}
    (hchars : ∀ i, i < text.length → text[i]? = some (sb.str i)) (hnul : sb.str text.length = 0)
    (hroom : text.length < sb.capacity) (hnf : NulFree text) : cstr sb = some text := by
  have hfind : firstNul sb.str 0 sb.capacity = some text.length := by
    refine firstNul_eq (by omega) hroom hnul ?_
    intro i _ hi
    exact hnf _ (List.mem_of_getElem? (hchars i hi))
  have hlist : (List.range text.length).map sb.str = text := by
    apply List.ext_getElem?
    intro i
    by_cases hi : i < text.length
    · rw [hchars i hi]; simp [hi]
    · simp [hi]
  simp only [cstr, hfind, Option.map_some, hlist]

/-! ## Growth -/

theorem growthStep_decreasing (capacity size needed : Nat) :
    Loop.Decreasing (growthStep capacity size needed) (64 - ·) := by
  intro g g' h
  unfold growthStep at h
  split at h
  · cases h
  · split at h
    · obtain rfl := Sum.inl.inj h
      change 64 - (g + 1) < 64 - g
      omega
    · cases h

/-- What the growth loop keeps: every shift tried so far was exact and too small. -/
structure Growing (capacity size needed g : Nat) : Prop where
  one_le : 1 ≤ g
  exact : capacity * 2 ^ g < 2 ^ 64
  short : ∀ j, 1 ≤ j → j < g → capacity * 2 ^ j ≤ size + needed

/-- No size that fits in an object makes the growth loop wrap: it ends with the
least power of two whose product exceeds the text, and the product is exact. -/
theorem growthFactor_spec {capacity size needed : Nat} (hcap : 1 ≤ capacity)
    (hlt : capacity < 2 ^ 63) (hsize : size ≤ 2 * capacity) (hfit : size + needed < 2 ^ 63) :
    ∃ g, growthFactor capacity size needed = some g ∧ Growing capacity size needed g ∧
      size + needed < capacity * 2 ^ g := by
  have hdec := growthStep_decreasing capacity size needed
  obtain ⟨r, hr⟩ := Loop.run_isSome hdec 1
  have hstart : Growing capacity size needed 1 :=
    ⟨le_rfl, by omega, fun j h1 h2 => by omega⟩
  -- below 64 both the shift and the subtraction are the exact ones
  have hbound : ∀ g, Growing capacity size needed g → g < 64 ∧ size ≤ capacity * 2 ^ g := by
    intro g hg
    refine ⟨?_, ?_⟩
    · by_contra hge
      have hpow : 2 ^ 64 ≤ 2 ^ g := Nat.pow_le_pow_right (by omega) (by omega)
      have hmul : 2 ^ g ≤ capacity * 2 ^ g := Nat.le_mul_of_pos_left _ hcap
      have hexact := hg.exact
      omega
    · have hpow : 2 ^ 1 ≤ 2 ^ g := Nat.pow_le_pow_right (by omega) hg.one_le
      calc size ≤ capacity * 2 ^ 1 := by omega
        _ ≤ capacity * 2 ^ g := Nat.mul_le_mul_left _ hpow
  have htest : ∀ g, Growing capacity size needed g →
      growthStep capacity size needed g =
        if capacity * 2 ^ g ≤ size + needed then .inl (g + 1) else .inr (some g) := by
    intro g hg
    obtain ⟨h64, hle⟩ := hbound g hg
    have hexact := hg.exact
    unfold growthStep
    rw [if_neg (by omega), sizeShl_eq hexact, sizeSub_eq hle hexact]
    congr 1
    exact propext (by omega)
  obtain ⟨g, hg, hb⟩ := Loop.run_invariant (Growing capacity size needed) hdec (by
    intro g g' hg hb
    rw [htest g hg] at hb
    split at hb
    · rename_i hle
      obtain rfl := Sum.inl.inj hb
      refine ⟨by omega, ?_, ?_⟩
      · rw [pow_succ, ← Nat.mul_assoc]; omega
      · intro j h1 h2
        rcases Nat.lt_succ_iff_lt_or_eq.mp h2 with hj | rfl
        · exact hg.short j h1 hj
        · exact hle
    · cases hb) hstart hr
  rw [htest g hg] at hb
  split at hb
  · cases hb
  · rename_i hgt
    refine ⟨g, ?_, hg, by omega⟩
    obtain rfl := Sum.inr.inj hb
    simp only [growthFactor, hr, Option.join_some]

/-! ## The state the operations keep -/

structure Holds (sb : StringBuilder) (text : Str) : Prop where
  size : sb.size = text.length
  room : text.length < sb.capacity
  bound : sb.capacity < 2 ^ 64 - 1
  chars : ∀ i, i < text.length → text[i]? = some (sb.str i)
  zeros : ∀ i, text.length ≤ i → i < sb.capacity → sb.str i = 0

theorem Holds.cstr {sb : StringBuilder} {text : Str} (h : Holds sb text) (hnf : NulFree text) :
    cstr sb = some text :=
  cstr_of_chars h.chars (h.zeros _ le_rfl h.room) h.room hnf

theorem holds_new {n : Nat} (garbage : Cells) (hn : n < 2 ^ 63) :
    Holds (sbNewSized n garbage) [] := by
  have hcap : (sbNewSized n garbage).capacity = if n = 0 then 16 else n := rfl
  refine ⟨rfl, ?_, ?_, fun i hi => by simp at hi, ?_⟩
  · rw [hcap, List.length_nil]; split <;> omega
  · rw [hcap]; split <;> omega
  · intro i _ hi
    rw [hcap] at hi
    simp only [sbNewSized, calloc, hi, if_true]

theorem holds_take {sb : StringBuilder} {text : Str} (garbage : Cells) (h : Holds sb text) :
    Holds (sbTakestring garbage sb).2 [] := by
  have hroom := h.room
  refine ⟨rfl, ?_, h.bound, fun i hi => by simp at hi, ?_⟩
  · simp only [sbTakestring, List.length_nil]; omega
  · intro i _ hi
    simp only [sbTakestring] at hi ⊢
    simp only [calloc, hi, if_true]

theorem holds_appendc {sb : StringBuilder} {text : Str} (garbage : Cells) (c : UInt8)
    (h : Holds sb text) (hroom : sb.size + 1 < sb.capacity) :
    Holds (sbAppendc garbage sb c).sb (text ++ [c]) ∧
      (sbAppendc garbage sb c).writes = [sb.size] ∧
      (sbAppendc garbage sb c).sb.capacity = sb.capacity := by
  have hsize := h.size
  have hbound := h.bound
  have hnogrow : sizeSub sb.size 1 ≠ sb.capacity := by unfold sizeSub; omega
  simp only [sbAppendc, hnogrow, if_false]
  refine ⟨⟨?_, ?_, hbound, ?_, ?_⟩, trivial, trivial⟩
  · simp only [List.length_append, List.length_singleton]; omega
  · simp only [List.length_append, List.length_singleton]; omega
  · intro i hi
    simp only [List.length_append, List.length_singleton] at hi
    rcases Nat.lt_succ_iff_lt_or_eq.mp hi with hlt | rfl
    · rw [List.getElem?_append_left hlt, h.chars i hlt]
      simp only [storeBytes, show ¬ sb.size ≤ i by omega, if_false]
    · simp [storeBytes, hsize]
  · intro i hi hlt
    simp only [List.length_append, List.length_singleton] at hi
    have hout : ([c] : Str)[i - sb.size]? = none := by
      rw [List.getElem?_eq_none_iff, List.length_singleton]; omega
    simp only [storeBytes, hout, Option.getD_none, ite_self]
    exact h.zeros i (by omega) hlt

/-- `strcat` onto a builder that holds `text`, with room for all but perhaps
the NUL. -/
theorem sbCat_eq {sb : StringBuilder} {text : Str} (writes : List Nat) (s : Str)
    (h : Holds sb text) (hfit : (text ++ s).length < 2 ^ 63) :
    sbCat ⟨sb, writes⟩ s = some
      { sb := { sb with str := storeBytes sb.str sb.size (s ++ [0]), size := sb.size + s.length },
        writes := writes ++ List.range' sb.size (s.length + 1) } := by
  have hsize := h.size
  have hroom := h.room
  have hfind : firstNul sb.str sb.size sb.capacity = some sb.size :=
    firstNul_eq le_rfl (by omega) (h.zeros _ (by omega) (by omega)) (fun i h1 h2 => by omega)
  have hmod : (sb.size + s.length) % 2 ^ 64 = sb.size + s.length := by
    rw [List.length_append] at hfit
    exact Nat.mod_eq_of_lt (by omega)
  simp only [sbCat, hfind, Option.map_some, hmod]

theorem holds_cat {sb : StringBuilder} {text : Str} (s : Str) (h : Holds sb text)
    (hroom : sb.size + s.length < sb.capacity) :
    Holds { sb with str := storeBytes sb.str sb.size (s ++ [0]), size := sb.size + s.length }
      (text ++ s) := by
  have hsize := h.size
  refine ⟨?_, ?_, h.bound, ?_, ?_⟩
  · simp only [List.length_append]; omega
  · simp only [List.length_append]; omega
  · intro i hi
    rw [List.length_append] at hi
    by_cases hlt : i < text.length
    · rw [List.getElem?_append_left hlt, h.chars i hlt]
      simp only [storeBytes, show ¬ sb.size ≤ i by omega, if_false]
    · have hin : i - text.length < s.length := by omega
      rw [List.getElem?_append_right (by omega)]
      simp [storeBytes, hsize, show text.length ≤ i by omega, List.getElem?_append_left hin, hin]
  · intro i hi hlt
    rw [List.length_append] at hi
    have hge : sb.size ≤ i := by omega
    simp only [storeBytes, hge, if_true]
    by_cases heq : i = sb.size + s.length
    · subst heq; simp
    · have hout : (s ++ [0] : Str)[i - sb.size]? = none := by
        rw [List.getElem?_eq_none_iff, List.length_append, List.length_singleton]; omega
      rw [hout, Option.getD_none]
      exact h.zeros i (by omega) hlt

theorem holds_grow {sb : StringBuilder} {text : Str} {needed : Nat} (garbage : Cells)
    (h : Holds sb text) (hfull : sb.capacity < sb.size + needed)
    (hfit : sb.size + needed < 2 ^ 63) :
    ∃ o, sbGrow garbage sb needed = some o ∧ Holds o.sb text ∧
      sb.size + needed < o.sb.capacity ∧ ∀ i ∈ o.writes, i < o.sb.capacity := by
  have hroom := h.room
  have hsize := h.size
  obtain ⟨g, hg, hgrow, hlt⟩ : ∃ g, growthFactor sb.capacity sb.size needed = some g ∧
      Growing sb.capacity sb.size needed g ∧ sb.size + needed < sb.capacity * 2 ^ g :=
    growthFactor_spec (by omega) (by omega) (by omega) hfit
  have hexact := hgrow.exact
  have hcap : sb.capacity ≤ sb.capacity * 2 ^ g := Nat.le_mul_of_pos_right _ (Nat.two_pow_pos g)
  have hcount : sizeSub (sb.capacity * 2 ^ g) sb.size = sb.capacity * 2 ^ g - sb.size :=
    sizeSub_eq (by omega) hexact
  have heven : sb.capacity * 2 ^ g ≠ 2 ^ 64 - 1 := by
    obtain ⟨k, rfl⟩ : ∃ k, g = k + 1 := ⟨g - 1, by have := hgrow.one_le; omega⟩
    rw [pow_succ, ← Nat.mul_assoc]
    omega
  have heq : sbGrow garbage sb needed = some
      { sb := { capacity := sb.capacity * 2 ^ g, size := sb.size,
                str := memsetZero (realloc sb.str sb.capacity garbage) sb.size
                  (sb.capacity * 2 ^ g - sb.size) },
        writes := List.range' sb.size (sb.capacity * 2 ^ g - sb.size) } := by
    have hzero : ¬ sb.capacity = 0 := by omega
    simp only [sbGrow, hzero, if_false, hg, Option.map_some, sizeShl_eq hexact, hcount]
  refine ⟨_, heq, ⟨hsize, by simp only; omega, by simp only; omega, ?_, ?_⟩, hlt, ?_⟩
  · intro i hi
    rw [h.chars i hi]
    simp only [memsetZero, realloc, show ¬ sb.size ≤ i by omega, show i < sb.capacity by omega,
      false_and, if_false, if_true]
  · intro i hi hlt
    simp only at hlt
    have hin : sb.size ≤ i ∧ i < sb.size + (sb.capacity * 2 ^ g - sb.size) := by omega
    simp only [memsetZero, hin, and_self, if_true]
  · intro i hi
    simp only [List.mem_range'_1] at hi
    simp only
    omega

/-! ## Calls and runs -/

inductive Call where
  | appends (s : Str)
  | appendc (c : UInt8)
  | takestring

def Call.NulFree : Call → Prop
  | .appends s => CTypes.NulFree s
  | .appendc c => c ≠ 0
  | .takestring => True

/-- The text after a call: everything appended since the last `sb_takestring`. -/
def Call.after (text : Str) : Call → Str
  | .appends s => text ++ s
  | .appendc c => text ++ [c]
  | .takestring => []

def runCall (garbage : Cells) (sb : StringBuilder) : Call → Option Outcome
  | .appends s => sbAppends garbage sb s
  | .appendc c => some (sbAppendc garbage sb c)
  | .takestring => some { sb := (sbTakestring garbage sb).2, writes := [] }

/-- Neither append may fill the block to its last byte: the NUL needs it. -/
def Call.Fits (sb : StringBuilder) : Call → Prop
  | .appends s => sb.size + s.length ≠ sb.capacity
  | .appendc _ => sb.size + 1 < sb.capacity
  | .takestring => True

instance (sb : StringBuilder) (call : Call) : Decidable (call.Fits sb) := by
  cases call <;> unfold Call.Fits <;> infer_instance

/-- What a call has to do: write inside the block only, and leave `str` and
`size` as the text and its length. -/
def Exact (sb : StringBuilder) (garbage : Cells) (call : Call) (text : Str) : Prop :=
  ∃ o, runCall garbage sb call = some o ∧ (∀ i ∈ o.writes, i < o.sb.capacity) ∧
    cstr o.sb = some (call.after text) ∧ o.sb.size = (call.after text).length

/-- The growth test of `sb_appends` without the wrapping: it does not count the NUL. -/
theorem growthTest_iff {sb : StringBuilder} {needed : Nat} (hlt : sb.size < sb.capacity)
    (hbound : sb.capacity < 2 ^ 64 - 1) :
    sizeSub sb.capacity (sizeSub sb.size 1) ≤ needed ↔ sb.capacity < sb.size + needed := by
  unfold sizeSub; omega

theorem Call.after_nulFree {call : Call} {text : Str} (hc : call.NulFree)
    (ht : CTypes.NulFree text) : CTypes.NulFree (call.after text) := by
  cases call with
  | appends s =>
    intro b hb
    rcases List.mem_append.mp hb with hb | hb
    · exact ht b hb
    · exact hc b hb
  | appendc c =>
    intro b hb
    rcases List.mem_append.mp hb with hb | hb
    · exact ht b hb
    · rw [List.mem_singleton.mp hb]; exact hc
  | takestring => intro b hb; simp [Call.after] at hb

/-- A call that fits keeps the state and stays inside the block. -/
theorem holds_call {sb : StringBuilder} {text : Str} {call : Call} (garbage : Cells)
    (h : Holds sb text) (hfit : call.Fits sb) (haddr : (call.after text).length < 2 ^ 63) :
    ∃ o, runCall garbage sb call = some o ∧ Holds o.sb (call.after text) ∧
      ∀ i ∈ o.writes, i < o.sb.capacity := by
  have hsize := h.size
  have hroom := h.room
  have hbound := h.bound
  cases call with
  | appends s =>
    have hne : sb.size + s.length ≠ sb.capacity := hfit
    have hlen : sb.size + s.length < 2 ^ 63 := by
      simp only [Call.after, List.length_append] at haddr; omega
    by_cases hfull : sb.capacity < sb.size + s.length
    · obtain ⟨o, hgrow, hold, hcap, hwrites⟩ := holds_grow garbage h hfull hlen
      have hosize := hold.size
      have hrun : runCall garbage sb (.appends s) = sbCat o s := by
        simp only [runCall, sbAppends, (growthTest_iff (by omega) hbound).mpr hfull, if_true, hgrow,
          Option.bind_some]
      refine ⟨_, hrun.trans (sbCat_eq o.writes s hold haddr), holds_cat s hold (by omega), ?_⟩
      intro i hi
      simp only at hi ⊢
      rcases List.mem_append.mp hi with hi | hi
      · exact hwrites i hi
      · simp only [List.mem_range'_1] at hi; omega
    · have htest := mt (growthTest_iff (by omega) hbound).mp hfull
      have hrun : runCall garbage sb (.appends s) = sbCat ⟨sb, []⟩ s := by
        simp only [runCall, sbAppends, htest, if_false]
      refine ⟨_, hrun.trans (sbCat_eq [] s h haddr), holds_cat s h (by omega), ?_⟩
      intro i hi
      simp only [List.nil_append, List.mem_range'_1] at hi
      simp only
      omega
  | appendc c =>
    obtain ⟨hold, hwrites, hcap⟩ := holds_appendc garbage c h hfit
    refine ⟨_, rfl, hold, ?_⟩
    intro i hi
    rw [hwrites, List.mem_singleton] at hi
    rw [hcap]
    omega
  | takestring => exact ⟨_, rfl, holds_take garbage h, fun i hi => by simp at hi⟩

/-- A call that does not fit writes past the block or leaves no NUL in it. -/
theorem not_exact_of_not_fits {sb : StringBuilder} {text : Str} {call : Call} (garbage : Cells)
    (h : Holds sb text) (ht : CTypes.NulFree text) (hc : call.NulFree) (hfit : ¬ call.Fits sb)
    (haddr : (call.after text).length < 2 ^ 63) : ¬ Exact sb garbage call text := by
  have hsize := h.size
  have hroom := h.room
  have hbound := h.bound
  intro hcond
  obtain ⟨o, ho, hwrites, hcstr, -⟩ := hcond
  cases call with
  | appends s =>
    -- no growth, and the NUL goes to the first byte after the block
    have heq : sb.size + s.length = sb.capacity := Decidable.not_not.mp hfit
    have hfull : ¬ sb.capacity < sb.size + s.length := by omega
    have htest := mt (growthTest_iff (by omega) hbound).mp hfull
    simp only [runCall, sbAppends, htest, if_false, sbCat_eq [] s h haddr] at ho
    obtain rfl := Option.some.inj ho
    have hmem := hwrites sb.capacity (by simp only [List.nil_append, List.mem_range'_1]; omega)
    simp only at hmem
    omega
  | appendc c =>
    -- the byte fills the block, so no cell of it is NUL
    have hfull : sb.size + 1 = sb.capacity := by
      have : ¬ sb.size + 1 < sb.capacity := hfit
      omega
    have hnogrow : sizeSub sb.size 1 ≠ sb.capacity := by unfold sizeSub; omega
    simp only [runCall, sbAppendc, hnogrow, if_false] at ho
    obtain rfl := Option.some.inj ho
    have hnone : firstNul (storeBytes sb.str sb.size [c]) 0 sb.capacity = none := by
      refine firstNul_none fun i _ hi => ?_
      by_cases hlt : i < sb.size
      · simp only [storeBytes, show ¬ sb.size ≤ i by omega, if_false]
        exact ht _ (List.mem_of_getElem? (h.chars i (by omega)))
      · have hi : i = sb.size := by omega
        have hne : c ≠ 0 := hc
        simpa [hi, storeBytes] using hne
    simp only [cstr, hnone, Option.map_none] at hcstr
    cases hcstr
  | takestring => exact hfit trivial

theorem exact_iff_fits {sb : StringBuilder} {text : Str} {call : Call} (garbage : Cells)
    (h : Holds sb text) (ht : CTypes.NulFree text) (hc : call.NulFree)
    (haddr : (call.after text).length < 2 ^ 63) : Exact sb garbage call text ↔ call.Fits sb := by
  constructor
  · intro hex
    by_contra hfit
    exact not_exact_of_not_fits garbage h ht hc hfit haddr hex
  · intro hfit
    obtain ⟨o, ho, hold, hwrites⟩ := holds_call garbage h hfit haddr
    exact ⟨o, ho, hwrites, hold.cstr (Call.after_nulFree hc ht), hold.size⟩

/-- A run: each call with what `realloc` and `calloc` would leave beyond what
they set. -/
abbrev Calls := List (Call × Cells)

/-- Every call of the run does what it has to. -/
def Faithful : StringBuilder → Calls → Str → Prop
  | _, [], _ => True
  | sb, (call, garbage) :: rest, text => Exact sb garbage call text ∧
      ∀ o, runCall garbage sb call = some o → Faithful o.sb rest (call.after text)

/-- Every call of the run fits the builder it is made on. -/
def FitsAll : StringBuilder → Calls → Prop
  | _, [] => True
  | sb, (call, garbage) :: rest => call.Fits sb ∧
      ∀ o, runCall garbage sb call = some o → FitsAll o.sb rest

theorem fitsAll_cons_iff {sb : StringBuilder} {call : Call} {garbage : Cells} {rest : Calls}
    {o : Outcome} (ho : runCall garbage sb call = some o) :
    FitsAll sb ((call, garbage) :: rest) ↔ call.Fits sb ∧ FitsAll o.sb rest := by
  rw [FitsAll, ho]
  simp

instance decidableFitsAll : ∀ (calls : Calls) (sb : StringBuilder), Decidable (FitsAll sb calls)
  | [], _ => isTrue trivial
  | (call, garbage) :: rest, sb =>
    match ho : runCall garbage sb call with
    | none => decidable_of_iff (call.Fits sb) (by simp [FitsAll, ho])
    | some o =>
      have := decidableFitsAll rest o.sb
      decidable_of_iff _ (fitsAll_cons_iff ho).symm

/-- Allocation succeeded for every text of the run: no object exceeds `PTRDIFF_MAX` bytes. -/
def Allocated : Calls → Str → Prop
  | [], _ => True
  | (call, _) :: rest, text =>
      (call.after text).length < 2 ^ 63 - 1 ∧ Allocated rest (call.after text)

theorem faithful_iff_of_holds : ∀ (calls : Calls) (sb : StringBuilder) (text : Str),
    Holds sb text → CTypes.NulFree text → (∀ c ∈ calls, c.1.NulFree) → Allocated calls text →
    (Faithful sb calls text ↔ FitsAll sb calls)
  | [], _, _, _, _, _, _ => Iff.rfl
  | (call, garbage) :: rest, sb, text, h, ht, hnf, haddr => by
    have hc : call.NulFree := hnf _ (List.mem_cons_self ..)
    have hlt : (call.after text).length < 2 ^ 63 := by have := haddr.1; omega
    have hhead := exact_iff_fits garbage h ht hc hlt
    have htail : call.Fits sb → ((∀ o, runCall garbage sb call = some o →
        Faithful o.sb rest (call.after text)) ↔
        ∀ o, runCall garbage sb call = some o → FitsAll o.sb rest) := by
      intro hfit
      obtain ⟨o, ho, hold, -⟩ := holds_call garbage h hfit hlt
      have ih := faithful_iff_of_holds rest o.sb _ hold (Call.after_nulFree hc ht)
        (fun c hm => hnf c (List.mem_cons_of_mem _ hm)) haddr.2
      constructor
      · intro hall o' ho'
        obtain rfl := Option.some.inj (ho.symm.trans ho')
        exact ih.mp (hall _ ho)
      · intro hall o' ho'
        obtain rfl := Option.some.inj (ho.symm.trans ho')
        exact ih.mpr (hall _ ho)
    constructor
    · intro hcond
      obtain ⟨hex, hall⟩ := hcond
      exact ⟨hhead.mp hex, (htail (hhead.mp hex)).mp hall⟩
    · intro hcond
      obtain ⟨hfit, hall⟩ := hcond
      exact ⟨hhead.mpr hfit, (htail hfit).mpr hall⟩

/-- **When a run of the builder is exact.** From `sb_new_sized(n)`, whatever the
allocator leaves behind, every call stays inside the block and leaves the
appended text exactly when no call fills the block to its last byte. -/
theorem faithful_iff_fitsAll (n : Nat) (garbage : Cells) (calls : Calls) (hn : n ≤ 2 ^ 63 - 1)
    (hnf : ∀ c ∈ calls, c.1.NulFree) (haddr : Allocated calls []) :
    Faithful (sbNewSized n garbage) calls [] ↔ FitsAll (sbNewSized n garbage) calls :=
  faithful_iff_of_holds calls _ [] (holds_new garbage (by omega)) (fun b hb => by simp at hb)
    hnf haddr

/-- A run that grows its block of four, hands it out and starts again. -/
theorem faithful_iff_fitsAll_grown :
    Faithful (sbNewSized 4 fun _ => 7)
      [(.appends (str "ab"), fun _ => 7), (.appendc (chr 'c'), fun _ => 7),
        (.appends (str "defg"), fun _ => 7), (.takestring, fun _ => 9),
        (.appends (str "h"), fun _ => 7)] [] := by
  refine (faithful_iff_fitsAll 4 (fun _ => 7) _ (by omega) ?_ ?_).mpr ?_
  · simp [Call.NulFree, NulFree, str, chr]
  · simp [Allocated, Call.after, str]
  · decide +kernel

/-- Sixteen letters into a default builder: the NUL is written at index 16 of 16. -/
theorem not_faithful_full_block :
    ¬ Faithful (sbNewSized 16 fun _ => 0) [(.appends (List.replicate 16 97), fun _ => 0)] [] := by
  intro hcond
  obtain ⟨⟨o, ho, hwrites, -⟩, -⟩ := hcond
  have hnul : (runCall (fun _ => 0) (sbNewSized 16 fun _ => 0)
      (.appends (List.replicate 16 97))).map
        (fun o => decide (16 ∈ o.writes) && o.sb.capacity == 16) = some true := by decide
  rw [ho, Option.map_some] at hnul
  have hboth := Option.some.inj hnul
  simp only [Bool.and_eq_true, decide_eq_true_eq, beq_iff_eq] at hboth
  have hlt := hwrites 16 hboth.1
  omega

end Shell.Stringbuilder
