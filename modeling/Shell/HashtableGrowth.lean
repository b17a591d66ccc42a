import Shell.HashtableRuns

/-! # How a table grows (ht_put in hashtable.c)

The size field counts every node again when a resize reinserts it. Half of the new
threshold and more is left for that, so that no reinsertion resizes in its turn. -/
namespace Shell.Hashtable
open Shell.CTypes Shell.Lib Shell.Lib.Binary32

/-- The table of twice the capacity that `hashtable_resize` has made behind `i` of its
calls of `ht_put`. -/
def reinserted (t : HashTable) (i : Nat) : HashTable :=
  (t.nodes.take i).foldl (htPutDepth 30) (emptied t (t.capacity * 2))

/-- The size field is at most one above three quarters of the capacity. -/
def WithinLoad (t : HashTable) : Prop := 4 * t.size ≤ 3 * t.capacity + 4

/-- `hashtable_resize` of `t`, whose calls of `ht_put` find no loaded table. -/
structure DoublesOnce (t : HashTable) : Prop where
  quiet : ∀ i < t.nodes.length, ¬ loaded (reinserted t i) = true
  within : ∀ i ≤ t.nodes.length, WithinLoad (reinserted t i)
  resize : hashtableResize (htPutDepth 30) t (t.capacity * 2) = some (reinserted t t.nodes.length)
  capacity : (reinserted t t.nodes.length).capacity = t.capacity * 2

/-! ## One put -/

variable {t : HashTable} {j : Nat}

theorem Sized.withinLoad (h : Sized j t) : WithinLoad t := by
  rw [WithinLoad, h.capacity, two_pow_quarter]
  rcases h.bound with ⟨rfl, h12⟩ | ⟨-, hsize, -⟩
  · simp only [Nat.zero_add]
    omega
  · omega

/-- The reinsertions are mere insertions, as far as they have got. -/
theorem Sized.reinserted_eq (h : Sized j t) (i : Nat) :
    reinserted t i = (t.nodes.take i).foldl place (emptied t (t.capacity * 2)) := by
  refine foldl_htPutDepth (t.nodes.take i) _ fun k hk => ?_
  rw [List.length_take] at hk
  exact not_loaded_of_lt (j := j + 1) (by simp only [emptied, h.capacity, pow_succ])
    (h.rehash_quiet (Nat.lt_of_lt_of_le hk (Nat.min_le_right _ _)))

theorem Sized.reinserted_size (h : Sized j t) {i : Nat} (hi : i ≤ t.nodes.length) :
    (reinserted t i).size = t.size + i ∧ (reinserted t i).capacity = 2 ^ (j + 1 + 4) := by
  rw [h.reinserted_eq, foldl_place_size, foldl_place_capacity, List.length_take,
    Nat.min_eq_left hi]
  simp only [emptied, h.capacity, pow_succ, and_self]

theorem Sized.doublesOnce (h : Sized j t) (hroom : t.capacity * 2 < maxCapacity) :
    DoublesOnce t where
  quiet i hi := by
    obtain ⟨hsize, hcap⟩ := h.reinserted_size (Nat.le_of_lt hi)
    refine not_loaded_of_lt hcap ?_
    rw [hsize]
    exact h.rehash_quiet hi
  within i hi := by
    obtain ⟨hsize, hcap⟩ := h.reinserted_size hi
    rw [WithinLoad, hsize, hcap, two_pow_quarter]
    cases i with
    | zero =>
      have hload := h.withinLoad
      rw [WithinLoad, h.capacity, two_pow_quarter] at hload
      have hdouble := two_pow_double j
      omega
    | succ i =>
      have hquiet := h.rehash_quiet hi
      omega
  resize := by
    unfold hashtableResize
    rw [if_neg (Nat.not_le.mpr hroom), reinserted, List.take_length]
    rfl
  capacity := by
    rw [(h.reinserted_size (Nat.le_refl _)).2, h.capacity, ← pow_succ]

/-! ## Every run -/

/-- **Each resize doubles once.** In every table of a run the nodes are at most as many
as the size field says; a put leaves that field at most one above three quarters of
the capacity; and where it resizes, the capacity doubles, no reinsertion resizing again. -/
theorem htPut_doublesOnce (h : Runs.Reach htNew Step t) :
    t.nodes.length ≤ t.size ∧ ∀ key value exported, Room t →
      WithinLoad (htPut t key value exported) ∧
      if loaded t = true then
        DoublesOnce t ∧ (htPut t key value exported).capacity = t.capacity * 2
      else (htPut t key value exported).capacity = t.capacity := by
  obtain ⟨j, h⟩ := sized_reach h
  refine ⟨h.nodes_le, fun key value exported hroom => ?_⟩
  have hput := h.put hroom key value exported
  refine ⟨hput.withinLoad, ?_⟩
  split
  · rename_i hl
    rw [if_pos hl] at hput
    refine ⟨h.doublesOnce (hroom hl), ?_⟩
    rw [hput.capacity, h.capacity, ← pow_succ]
  · rename_i hl
    rw [if_neg hl] at hput
    rw [hput.capacity, h.capacity]

/-- The thirteenth variable. -/
theorem htPut_doublesOnce_thirteenth :
    ∃ t, loaded t = true ∧ DoublesOnce t ∧ (htPut t (str "c") (str "v") false).capacity = 32 := by
  obtain ⟨t, hreach, hroom, hl, hcapacity⟩ :
      ∃ t, Runs.Reach htNew Step t ∧ Room t ∧ loaded t = true ∧ t.capacity = 16 := by
    have hroom : ∀ i < 12, Room (putAll htNew ((letters (str "ABCDEFGHIJKL")).take i)) := by
      decide +kernel
    refine ⟨putAll htNew (letters (str "ABCDEFGHIJKL")),
      reach_putAll _ fun i hi => ⟨hroom i hi, rfl⟩, ?_, ?_, ?_⟩
    · decide +kernel
    · decide +kernel
    · decide +kernel
  have hput := ((htPut_doublesOnce hreach).2 (str "c") (str "v") false hroom).2
  rw [if_pos hl, hcapacity] at hput
  exact ⟨t, hl, hput.1, hput.2⟩

end Shell.Hashtable
