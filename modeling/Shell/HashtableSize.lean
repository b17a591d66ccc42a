import Mathlib.Data.Finset.Card
import Mathlib.Data.Finset.Dedup
import Shell.HashtableFrame

/-! # The size of a table against its keys (ht_size in hashtable.c)

Every insertion counts, also one that replaces a node, and a resize counts every
node again. The size field is never behind the number of bound keys, and no call
takes back what it is ahead. -/
namespace Shell.Hashtable
open Shell.CTypes Shell.Lib

def htSize (t : HashTable) : Nat := t.size

/-- The keys `ht_contains` answers yes for. -/
def boundKeys (t : HashTable) : Finset Str :=
  (t.nodes.map BucketNode.key).toFinset.filter fun k => htContains t k = true

/-- A call that returns: any put, or a removal. -/
def Call (t : HashTable) : Op → HashTable → Prop
  | .put key value exported, t' => t' = htPut t key value exported
  | .remove key, t' => htRemove t key = some t'

/-- A put counts one key when it adds one and does not resize, and none when its resize
is refused. -/
def Counted (t : HashTable) : Op → Prop
  | .put key _ _ =>
    if loaded t = true then maxCapacity ≤ t.capacity * 2 else htContains t key = false
  | .remove _ => True

instance (t : HashTable) (op : Op) : Decidable (Counted t op) := by
  cases op <;> unfold Counted <;> infer_instance

def CountedCall (t : HashTable) (op : Op) (t' : HashTable) : Prop := Call t op t' ∧ Counted t op

/-! ## Bound keys -/

theorem htContains_iff {t : HashTable} {k : Str} :
    htContains t k = true ↔ ∃ n ∈ t.chain (slot k t.capacity), n.key = k := by
  rw [htContains, htGet, Option.isSome_map, htFind, chainGet, List.find?_isSome]
  simp only [decide_eq_true_eq]

theorem mem_boundKeys {t : HashTable} {k : Str} : k ∈ boundKeys t ↔ htContains t k = true := by
  rw [boundKeys, Finset.mem_filter, List.mem_toFinset]
  refine and_iff_right_of_imp fun h => ?_
  obtain ⟨n, hn, hk⟩ := htContains_iff.mp h
  exact List.mem_map.mpr ⟨n, (chain_sublist_nodes t _).subset hn, hk⟩

theorem card_boundKeys_le (t : HashTable) : (boundKeys t).card ≤ t.nodes.length := by
  calc (boundKeys t).card ≤ (t.nodes.map BucketNode.key).toFinset.card := Finset.card_filter_le _ _
    _ ≤ (t.nodes.map BucketNode.key).length := List.toFinset_card_le _
    _ = t.nodes.length := List.length_map _

theorem boundKeys_new : boundKeys htNew = ∅ := by
  refine Finset.eq_empty_of_forall_notMem fun k hk => ?_
  obtain ⟨n, hn, -⟩ := htContains_iff.mp (mem_boundKeys.mp hk)
  rw [chain_new] at hn
  cases hn

/-! ## One call -/

theorem htPut_refused {t : HashTable} (hl : loaded t = true) (hmax : maxCapacity ≤ t.capacity * 2)
    (key value : Str) (exported : Bool) : htPut t key value exported = t := by
  rw [htPut, htPutDepth, if_pos hl, hashtableResize, if_pos hmax]

theorem sized_call {t t' : HashTable} {op : Op} (h : ∃ j, Sized j t) (hcall : Call t op t') :
    ∃ j, Sized j t' := by
  obtain ⟨j, h⟩ := h
  cases op with
  | put key value exported =>
    obtain rfl := hcall
    by_cases hroom : Room t
    · exact ⟨_, h.put hroom key value exported⟩
    · obtain ⟨hl, hmax⟩ := Classical.not_imp.mp hroom
      rw [htPut_refused hl (Nat.le_of_not_lt hmax)]
      exact ⟨j, h⟩
  | remove key => exact ⟨j, h.remove hcall⟩

theorem sized_calls {t : HashTable} (h : Runs.Reach htNew Call t) : ∃ j, Sized j t :=
  h.invariant (I := fun t => ∃ j, Sized j t) ⟨0, sized_new⟩ fun _ _ _ => sized_call

theorem htContains_of_place {t : HashTable} {new : BucketNode} {k : Str}
    (hlt : slot new.key t.capacity < t.buckets.length)
    (h : htContains (place t new) k = true) : k = new.key ∨ htContains t k = true := by
  obtain ⟨n, hn, rfl⟩ := htContains_iff.mp h
  rw [place, putAt_capacity, chain_putAt t new hlt] at hn
  split at hn
  · rcases mem_chainPut hn with rfl | hn
    · exact .inl rfl
    · exact .inr (htContains_iff.mpr ⟨n, hn, rfl⟩)
  · exact .inr (htContains_iff.mpr ⟨n, hn, rfl⟩)

theorem boundKeys_place_of_unbound {t : HashTable} {new : BucketNode}
    (hlt : slot new.key t.capacity < t.buckets.length) (h : htContains t new.key = false) :
    boundKeys (place t new) = insert new.key (boundKeys t) := by
  have hunbound : ∀ n ∈ t.chain (slot new.key t.capacity), n.key ≠ new.key := by
    intro n hn hkey
    rw [htContains_iff.mpr ⟨n, hn, hkey⟩] at h
    cases h
  -- the new node is linked behind its chain
  have hchain : ∀ i, (place t new).chain i =
      if i = slot new.key t.capacity then t.chain i ++ [new] else t.chain i := by
    intro i
    rw [place, chain_putAt t new hlt]
    split
    · rename_i hi
      rw [hi, chainPut_of_unbound hunbound]
    · rfl
  ext k
  rw [Finset.mem_insert, mem_boundKeys, mem_boundKeys]
  refine ⟨htContains_of_place hlt, fun hk => htContains_iff.mpr ?_⟩
  rw [hchain]
  rcases hk with rfl | hk
  · exact ⟨new, by simp [place], rfl⟩
  · obtain ⟨n, hn, hkey⟩ := htContains_iff.mp hk
    refine ⟨n, ?_, hkey⟩
    split
    · exact List.mem_append_left _ hn
    · exact hn

theorem boundKeys_place_of_bound {t : HashTable} {new : BucketNode}
    (hlt : slot new.key t.capacity < t.buckets.length) (h : htContains t new.key = true) :
    boundKeys (place t new) ⊆ boundKeys t := by
  intro k hk
  rw [mem_boundKeys] at hk ⊢
  rcases htContains_of_place hlt hk with rfl | hk
  · exact h
  · exact hk

theorem boundKeys_remove {j : Nat} {t t' : HashTable} {key : Str} (h : Sized j t)
    (hr : htRemove t key = some t') : boundKeys t' = (boundKeys t).erase key := by
  ext k
  rw [Finset.mem_erase, mem_boundKeys, mem_boundKeys, htContains, htGet,
    htFind_remove (slot_lt h key) hr]
  by_cases hk : k = key
  · rw [if_pos hk]
    exact iff_of_false Bool.false_ne_true fun hne => hne.1 hk
  · rw [if_neg hk]
    exact (and_iff_right hk).symm

theorem htPut_of_not_loaded {t : HashTable} (hl : ¬ loaded t = true) (key value : Str)
    (exported : Bool) : htPut t key value exported = place t ⟨key, value, exported⟩ := by
  rw [htPut, htPutDepth, if_neg hl]
  rfl

/-- A counted call keeps how far the size field is ahead. -/
theorem size_of_counted {j : Nat} {t t' : HashTable} {op : Op} (h : Sized j t)
    (hcall : CountedCall t op t') :
    htSize t' + (boundKeys t).card = htSize t + (boundKeys t').card := by
  cases op with
  | put key value exported =>
    obtain ⟨rfl, hcounted⟩ := hcall
    by_cases hl : loaded t = true
    · rw [Counted, if_pos hl] at hcounted
      rw [htPut_refused hl hcounted]
    · rw [Counted, if_neg hl] at hcounted
      have hnew : key ∉ boundKeys t := by
        rw [mem_boundKeys, hcounted]
        exact Bool.false_ne_true
      have hbound : boundKeys (place t ⟨key, value, exported⟩) = insert key (boundKeys t) :=
        boundKeys_place_of_unbound (slot_lt h key) hcounted
      rw [htPut_of_not_loaded hl, hbound, Finset.card_insert_of_notMem hnew, htSize, htSize, place,
        putAt_size]
      omega
  | remove key =>
    have hr : htRemove t key = some t' := hcall.1
    have hsize := h.size_remove hr
    obtain ⟨n, before, after, hsplit, hkey, -⟩ := htRemove_eq (slot_lt h key) hr
    have hmem : key ∈ boundKeys t := by
      rw [mem_boundKeys, htContains_iff, hsplit]
      exact ⟨n, by simp, hkey⟩
    have hcard := Finset.card_erase_add_one hmem
    rw [boundKeys_remove h hr, htSize, htSize]
    omega

/-- After any other call the size field is ahead. -/
theorem size_of_not_counted {j : Nat} {t t' : HashTable} {op : Op} (h : Sized j t)
    (hcall : Call t op t') (hnot : ¬ Counted t op) : (boundKeys t').card < htSize t' := by
  cases op with
  | put key value exported =>
    obtain rfl := hcall
    by_cases hl : loaded t = true
    · -- the resize counts every node again
      rw [Counted, if_pos hl] at hnot
      have hroom : Room t := fun _ => Nat.lt_of_not_le hnot
      obtain ⟨-, -, hnodes, hsize⟩ := rehash_bounds t
      have hput : htPut t key value exported =
          putAt (rehash t) (slot key t.capacity) ⟨key, value, exported⟩ := by
        rw [htPut_eq h hroom, if_pos hl]
      have hcard := card_boundKeys_le (htPut t key value exported)
      have hadd := length_nodes_putAt_le (rehash t) (slot key t.capacity) ⟨key, value, exported⟩
      have hload := le_of_loaded h.capacity hl
      have hpos := Nat.two_pow_pos (j + 2)
      rw [hput] at hcard ⊢
      rw [htSize, putAt_size, hsize]
      omega
    · -- an overwrite adds no key
      rw [Counted, if_neg hl, Bool.not_eq_false] at hnot
      have hsub : boundKeys (place t ⟨key, value, exported⟩) ⊆ boundKeys t :=
        boundKeys_place_of_bound (slot_lt h key) hnot
      have hsize : htSize (place t ⟨key, value, exported⟩) = t.size + 1 := rfl
      have hcard := Finset.card_le_card hsub
      have hnodes := card_boundKeys_le t
      have hle := h.nodes_le
      rw [htPut_of_not_loaded hl, hsize]
      omega
  | remove key => exact absurd trivial hnot

/-! ## Runs -/

theorem CountedCall.run {t : HashTable} (h : Runs.Reach htNew CountedCall t) :
    (∃ j, Sized j t) ∧ htSize t = (boundKeys t).card := by
  refine h.invariant (I := fun t => (∃ j, Sized j t) ∧ htSize t = (boundKeys t).card)
    ⟨⟨0, sized_new⟩, by rw [boundKeys_new]; rfl⟩ fun s op s' hI hcall => ?_
  obtain ⟨⟨j, hz⟩, heq⟩ := hI
  have hdiff := size_of_counted hz hcall
  exact ⟨sized_call ⟨j, hz⟩ hcall.1, by omega⟩

/-- Once ahead, the size field stays ahead, so that no other call was in the run. -/
theorem countedCalls_of_size_eq {t : HashTable} (h : Runs.Reach htNew Call t)
    (heq : htSize t = (boundKeys t).card) : Runs.Reach htNew CountedCall t := by
  induction h with
  | start => exact .start
  | @next s t op hs hcall ih =>
    obtain ⟨j, hz⟩ := sized_calls hs
    have hcounted : Counted s op := by
      by_contra hnot
      exact absurd heq (size_of_not_counted hz hcall hnot).ne'
    have hdiff := size_of_counted hz ⟨hcall, hcounted⟩
    exact .next (ih (by omega)) ⟨hcall, hcounted⟩

/-- **When the size is the number of bound keys.** In a table reached by puts and
removals it is exactly when counted calls alone reach the table. -/
theorem htSize_eq_card_iff {t : HashTable} (h : Runs.Reach htNew Call t) :
    htSize t = (boundKeys t).card ↔ Runs.Reach htNew CountedCall t :=
  ⟨countedCalls_of_size_eq h, fun hcounted => (CountedCall.run hcounted).2⟩

/-- Twelve letters of which one is removed from in front of another; the thirteenth
letter resizes, so that no counted calls reach its table. -/
theorem htSize_eq_card_removed :
    (∃ t, htRemove (putAll htNew (letters (str "aqbcdeijklmn"))) (str "a") = some t ∧
      htSize t = (boundKeys t).card) ∧
    ¬ Runs.Reach htNew CountedCall (putAll htNew (letters (str "aqbcdeijklmnx"))) := by
  constructor
  · have hcounted : ∀ i (hi : i < 12), Counted
        (putAll htNew ((letters (str "aqbcdeijklmn")).take i))
        (.put (letters (str "aqbcdeijklmn"))[i].key (str "1") true) := by
      decide +kernel
    have hputs : Runs.Reach htNew CountedCall (putAll htNew (letters (str "aqbcdeijklmn"))) :=
      reach_putAll _ fun i hi => ⟨rfl, hcounted i hi⟩
    have hcalls : Runs.Reach htNew Call (putAll htNew (letters (str "aqbcdeijklmn"))) :=
      reach_putAll _ fun _ _ => rfl
    obtain ⟨t, ht⟩ := Option.isSome_iff_exists.mp (show
      (htRemove (putAll htNew (letters (str "aqbcdeijklmn"))) (str "a")).isSome = true by
        decide +kernel)
    refine ⟨t, ht, (htSize_eq_card_iff (.next hcalls (a := .remove (str "a")) ht)).mpr ?_⟩
    exact .next hputs (a := .remove (str "a")) ⟨ht, trivial⟩
  · exact mt (htSize_eq_card_iff (reach_putAll _ fun _ _ => rfl)).mpr (by decide +kernel)

/-- The key `a` put twice counts as two. -/
theorem htSize_overwrite :
    ∃ t, Runs.Reach htNew Call t ∧ htSize t = 2 ∧ (boundKeys t).card = 1 := by
  let once := htPut htNew (str "a") (str "1") false
  let twice := htPut once (str "a") (str "2") false
  have honce : Runs.Reach htNew Call once :=
    .next .start (a := .put (str "a") (str "1") false) rfl
  have htwice : Runs.Reach htNew Call twice := .next honce (a := .put (str "a") (str "2") false) rfl
  exact ⟨twice, htwice, by decide +kernel, by decide +kernel⟩

end Shell.Hashtable
