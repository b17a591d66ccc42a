import Shell.HashtableFrame
import Shell.Variables

/-! # The hash table as the map of the variables

For the commands vars.c is a map from names to values and flags. Along a run of puts
and removals the table stands for that map as long as every put is clean, and no longer. -/
namespace Shell.Hashtable
open Shell.CTypes Shell.Lib

/-- What the lookups find is what the map holds. -/
def Represents (t : HashTable) (m : Variables.Table) : Prop :=
  ∀ k, htFind t k = (m k).map fun v => ⟨k, v.1, v.2⟩

def mapRemove (m : Variables.Table) (key : Str) : Variables.Table := fun k =>
  if k = key then none else m k

/-- The call on the map. -/
def Op.apply (m : Variables.Table) : Op → Variables.Table
  | .put key value exported => Variables.htPut m key value exported
  | .remove key => mapRemove m key

/-- A call on the table and on the map. -/
def BothStep (s : HashTable × Variables.Table) (op : Op) (s' : HashTable × Variables.Table) :
    Prop :=
  Step s.1 op s'.1 ∧ s'.2 = op.apply s.2

/-- A put leaves its key where the lookups search for it, and cuts no other one off. -/
def Clean (t : HashTable) : Op → Prop
  | .put key _ _ => InPlace t key ∧ ∀ k', key ≠ k' → ¬ Hides t key k'
  | .remove _ => True

/-- Only what the chain of the key holds can be cut off. -/
theorem clean_put_iff {t : HashTable} {key value : Str} {exported : Bool} :
    Clean t (.put key value exported) ↔ InPlace t key ∧
      ∀ n ∈ t.chain (slot key t.capacity), key ≠ n.key → ¬ Hides t key n.key := by
  refine and_congr_right fun _ => ⟨fun h n _ hne => h n.key hne, ?_⟩
  intro h k' hne hhides
  obtain ⟨n, hn, rfl⟩ := hhides.1.bound
  exact h n hn hne hhides

instance (t : HashTable) : ∀ op, Decidable (Clean t op)
  | .put _ _ _ => decidable_of_iff _ clean_put_iff.symm
  | .remove _ => isTrue trivial

/-- The table stands for the map, with each node where the lookups search for its key. -/
structure Faithful (s : HashTable × Variables.Table) : Prop where
  sized : ∃ j, Sized j s.1
  ordered : Ordered s.1
  represents : Represents s.1 s.2

theorem faithful_new : Faithful (htNew, Variables.htNew) := by
  refine ⟨⟨0, sized_new⟩, ordered_new, fun k => ?_⟩
  rw [htFind, chain_new]
  rfl

/-! ## One call -/

variable {s s' : HashTable × Variables.Table} {op : Op}

theorem mem_chainPut_self (new : BucketNode) (nodes : List BucketNode) :
    new ∈ chainPut new nodes :=
  List.mem_of_find?_eq_some (chainGet_chainPut_self new nodes)

/-- Of a put that moves its index, a node is out of place. -/
theorem inPlace_of_ordered {j : Nat} {t : HashTable} (hz : Sized j t) (hroom : Room t)
    {key value : Str} {exported : Bool} (h : Ordered (htPut t key value exported)) :
    InPlace t key := by
  intro hl
  obtain ⟨hcap, hlen, -, -⟩ := rehash_bounds t
  have hlt := slot_lt hz key
  rw [hz.length] at hlt
  rw [htPut_eq hz hroom, if_pos hl] at h
  have hplaced := h.placed (slot key t.capacity) ⟨key, value, exported⟩ (by
    rw [chain_putAt _ _ (by omega), if_pos rfl]
    exact mem_chainPut_self _ _)
  rwa [putAt_capacity, hcap] at hplaced

theorem represents_put_iff {j : Nat} {t : HashTable} {m : Variables.Table} (hz : Sized j t)
    (hord : Ordered t) (h : Represents t m) (hroom : Room t) {key : Str} (hin : InPlace t key)
    (value : Str) (exported : Bool) :
    Represents (htPut t key value exported) (Variables.htPut m key value exported) ↔
      ∀ k', key ≠ k' → ¬ Hides t key k' := by
  have hother : ∀ k', key ≠ k' →
      (Variables.htPut m key value exported k').map (fun v => (⟨k', v.1, v.2⟩ : BucketNode)) =
        htFind t k' := by
    intro k' hne
    rw [h k', Variables.htPut, if_neg (Ne.symm hne)]
  constructor
  · intro hput k' hne
    rw [← htFind_htPut_iff hz hord hroom hne value exported, hput k', hother k' hne]
  · intro hclean k'
    by_cases hk : key = k'
    · rw [← hk, htFind_put_of_inPlace hz hroom hin, Variables.htPut, if_pos rfl]
      rfl
    · rw [hother k' hk]
      exact (htFind_htPut_iff hz hord hroom hk value exported).mpr (hclean k' hk)

theorem represents_remove {j : Nat} {t t' : HashTable} {m : Variables.Table} {key : Str}
    (hz : Sized j t) (h : Represents t m) (hr : htRemove t key = some t') :
    Represents t' (mapRemove m key) := by
  intro k
  rw [htFind_remove (slot_lt hz key) hr, mapRemove]
  by_cases hk : k = key
  · rw [if_pos hk, if_pos hk]
    rfl
  · rw [if_neg hk, if_neg hk]
    exact h k

theorem faithful_step_iff (h : Faithful s) (hs : BothStep s op s') :
    Faithful s' ↔ Clean s.1 op := by
  obtain ⟨t, m⟩ := s
  obtain ⟨t', m'⟩ := s'
  obtain ⟨hstep, rfl : m' = op.apply m⟩ := hs
  obtain ⟨j, hz⟩ := h.sized
  cases op with
  | put key value exported =>
    obtain ⟨hroom, rfl : t' = htPut t key value exported⟩ := hstep
    constructor
    · intro h'
      have hin := inPlace_of_ordered hz hroom h'.ordered
      exact ⟨hin, (represents_put_iff hz h.ordered h.represents hroom hin value exported).mp
        h'.represents⟩
    · intro hclean
      obtain ⟨hin, hshown⟩ := hclean
      have hplaced : StepInPlace t (.put key value exported) (htPut t key value exported) :=
        ⟨⟨hroom, rfl⟩, hin⟩
      refine ⟨⟨_, hz.put hroom key value exported⟩, ordered_step hz h.ordered hplaced, ?_⟩
      exact (represents_put_iff hz h.ordered h.represents hroom hin value exported).mpr hshown
  | remove key =>
    have hplaced : StepInPlace t (.remove key) t' := ⟨hstep, trivial⟩
    refine iff_of_true ⟨⟨j, hz.remove hstep.2⟩, ordered_step hz h.ordered hplaced, ?_⟩ trivial
    exact represents_remove hz h.represents hstep.2

/-! ## Runs -/

/-- **As long as what is a map.** Along a run from the new table, every state stands for
the map of the calls so far exactly when every put of the run is clean. -/
theorem faithful_iff {steps : List ((HashTable × Variables.Table) × Op)}
    (h : Runs.Path BothStep (htNew, Variables.htNew) steps s) :
    ((∀ p ∈ steps, Faithful p.1) ∧ Faithful s) ↔ ∀ p ∈ steps, Clean p.1.1 p.2 :=
  @Runs.Path.invariant_iff _ _ BothStep Faithful (fun s op => Clean s.1 op)
    (fun _ _ _ => faithful_step_iff) _ _ _ h faithful_new

/-- A put of the entry on the table and on the map. -/
def bothPut (s : HashTable × Variables.Table) (n : BucketNode) : HashTable × Variables.Table :=
  (htPut s.1 n.key n.value n.exported, Variables.htPut s.2 n.key n.value n.exported)

/-- The steps of a run of puts. -/
def putSteps (s : HashTable × Variables.Table) :
    List BucketNode → List ((HashTable × Variables.Table) × Op)
  | [] => []
  | n :: rest => (s, .put n.key n.value n.exported) :: putSteps (bothPut s n) rest

theorem path_putSteps {s : HashTable × Variables.Table} {entries : List BucketNode}
    (h : ∀ p ∈ putSteps s entries, Room p.1.1) :
    Runs.Path BothStep s (putSteps s entries) (entries.foldl bothPut s) := by
  induction entries generalizing s with
  | nil => exact .done
  | cons n rest ih =>
    obtain ⟨hroom, hrest⟩ := List.forall_mem_cons.mp h
    exact .next ⟨⟨hroom, rfl⟩, rfl⟩ (ih hrest)

/-- Thirteen letters, the last of which doubles the table, and ba behind a. -/
def sharing : List BucketNode :=
  letters (str "aqbcdeijklmnx") ++ [{ key := str "ba", value := str "2", exported := false }]

/-- The a in front of ba is assigned again. -/
def overwriting : List BucketNode :=
  sharing ++ [{ key := str "a", value := str "2", exported := true }]

theorem faithful_iff_resized :
    Faithful (sharing.foldl bothPut (htNew, Variables.htNew)) ∧
      ¬ ((∀ p ∈ putSteps (htNew, Variables.htNew) overwriting, Faithful p.1) ∧
        Faithful (overwriting.foldl bothPut (htNew, Variables.htNew))) := by
  have hshared : ∀ p ∈ putSteps (htNew, Variables.htNew) sharing,
      Room p.1.1 ∧ Clean p.1.1 p.2 := by
    decide +kernel
  have hover : (∀ p ∈ putSteps (htNew, Variables.htNew) overwriting, Room p.1.1) ∧
      ¬ ∀ p ∈ putSteps (htNew, Variables.htNew) overwriting, Clean p.1.1 p.2 := by
    decide +kernel
  constructor
  · have hpath := path_putSteps fun p hp => (hshared p hp).1
    exact ((faithful_iff hpath).mpr fun p hp => (hshared p hp).2).2
  · have hpath := path_putSteps hover.1
    rw [faithful_iff hpath]
    exact hover.2

end Shell.Hashtable
