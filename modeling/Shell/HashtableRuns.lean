import Mathlib.Data.List.Induction
import Shell.Hashtable
import Shell.Lib.Runs

/-! # Runs of the hash table

The size field counts every insertion and every reinsertion, so it runs ahead
of the number of nodes. `Sized` bounds both against the load threshold; it keeps
`hashtable_resize` from resizing again while it reinserts, which turns `ht_put`
into one equation (`htPut_eq`). -/
namespace Shell.Hashtable
open Shell.CTypes Shell.Lib Shell.Lib.Binary32

def HashTable.nodes (t : HashTable) : List BucketNode := t.buckets.flatMap BucketList.nodes

/-! ## One insertion -/

theorem chain_putAt (t : HashTable) {hash i : Nat} (new : BucketNode)
    (hlt : hash < t.buckets.length) :
    (putAt t hash new).chain i = if i = hash then chainPut new (t.chain i) else t.chain i := by
  unfold HashTable.chain putAt
  simp only [List.getElem?_modify]
  split
  · rename_i heq
    subst heq
    have hget := List.getElem?_eq_getElem hlt
    simp [hget]
  · rename_i hne
    have hne' : ¬ i = hash := fun h => hne h.symm
    simp [hne']

theorem length_chainPut_le (new : BucketNode) :
    ∀ nodes, (chainPut new nodes).length ≤ nodes.length + 1
  | [] => le_rfl
  | n :: rest => by
    have ih := length_chainPut_le new rest
    simp only [chainPut]
    split <;> simp only [List.length_cons, List.length_nil] <;> omega

theorem length_flatMap_modify_le (new : BucketNode) :
    ∀ (buckets : List BucketList) (i : Nat),
      ((buckets.modify i fun b => { b with nodes := chainPut new b.nodes }).flatMap
        BucketList.nodes).length ≤ (buckets.flatMap BucketList.nodes).length + 1
  | [], i => by simp
  | b :: rest, 0 => by
    have h := length_chainPut_le new b.nodes
    simp only [List.modify_zero_cons, List.flatMap_cons, List.length_append]
    omega
  | b :: rest, i + 1 => by
    have ih := length_flatMap_modify_le new rest i
    simp only [List.modify_succ_cons, List.flatMap_cons, List.length_append]
    omega

theorem length_nodes_putAt_le (t : HashTable) (hash : Nat) (new : BucketNode) :
    (putAt t hash new).nodes.length ≤ t.nodes.length + 1 :=
  length_flatMap_modify_le new t.buckets hash

@[simp] theorem putAt_size (t : HashTable) (hash : Nat) (new : BucketNode) :
    (putAt t hash new).size = t.size + 1 := rfl

@[simp] theorem putAt_capacity (t : HashTable) (hash : Nat) (new : BucketNode) :
    (putAt t hash new).capacity = t.capacity := rfl

@[simp] theorem putAt_length (t : HashTable) (hash : Nat) (new : BucketNode) :
    (putAt t hash new).buckets.length = t.buckets.length := List.length_modify ..

theorem chainGet_cons_self {n : BucketNode} {rest : List BucketNode} {k : Str} (h : n.key = k) :
    chainGet (n :: rest) k = some n :=
  List.find?_cons_of_pos (by simpa using h)

theorem chainGet_cons_ne {n : BucketNode} {rest : List BucketNode} {k : Str} (h : n.key ≠ k) :
    chainGet (n :: rest) k = chainGet rest k :=
  List.find?_cons_of_neg (by simpa using h)

theorem chainGet_chainPut_self (new : BucketNode) :
    ∀ nodes, chainGet (chainPut new nodes) new.key = some new
  | [] => chainGet_cons_self rfl
  | n :: rest => by
    rw [chainPut]
    split
    · exact chainGet_cons_self rfl
    · rename_i hne
      rw [chainGet_cons_ne hne, chainGet_chainPut_self new rest]

/-! ## Redistribution -/

/-- `ht_put` without the resize test. -/
def place (t : HashTable) (new : BucketNode) : HashTable :=
  putAt t (slot new.key t.capacity) new

def emptied (t : HashTable) (capacity : Nat) : HashTable :=
  { t with capacity := capacity, buckets := List.replicate capacity blistNew }

/-- The table after `hashtable_resize` to twice the capacity. -/
def rehash (t : HashTable) : HashTable := t.nodes.foldl place (emptied t (t.capacity * 2))

theorem foldl_place_capacity (ns : List BucketNode) (t : HashTable) :
    (ns.foldl place t).capacity = t.capacity := by
  induction ns generalizing t with
  | nil => rfl
  | cons n rest ih => rw [List.foldl_cons, ih]; rfl

theorem foldl_place_length (ns : List BucketNode) (t : HashTable) :
    (ns.foldl place t).buckets.length = t.buckets.length := by
  induction ns generalizing t with
  | nil => rfl
  | cons n rest ih => rw [List.foldl_cons, ih]; exact putAt_length ..

theorem foldl_place_size (ns : List BucketNode) (t : HashTable) :
    (ns.foldl place t).size = t.size + ns.length := by
  induction ns generalizing t with
  | nil => rfl
  | cons n rest ih =>
    rw [List.foldl_cons, ih]
    simp only [place, putAt_size, List.length_cons]
    omega

theorem foldl_place_nodes_le (ns : List BucketNode) (t : HashTable) :
    (ns.foldl place t).nodes.length ≤ t.nodes.length + ns.length := by
  induction ns generalizing t with
  | nil => exact le_rfl
  | cons n rest ih =>
    have hstep := length_nodes_putAt_le t (slot n.key t.capacity) n
    have hrest := ih (place t n)
    simp only [List.foldl_cons, List.length_cons, place] at hrest ⊢
    omega

theorem emptied_nodes (t : HashTable) (capacity : Nat) : (emptied t capacity).nodes = [] := by
  simp [HashTable.nodes, emptied, blistNew]

/-! ## The load test -/

/-- The threshold of a table of capacity `2 ^ (j + 4)` is three times `2 ^ (j + 2)`. -/
theorem two_pow_quarter (j : Nat) : 2 ^ (j + 4) = 4 * 2 ^ (j + 2) := by
  rw [pow_add, pow_add]
  ring

theorem two_pow_double (j : Nat) : 2 ^ (j + 1 + 2) = 2 * 2 ^ (j + 2) := by
  rw [pow_add, pow_add, pow_add]
  ring

theorem loaded_iff {t : HashTable} {j : Nat} (hcap : t.capacity = 2 ^ (j + 4)) :
    loaded t = true ↔ 3 * 2 ^ (j + 2) ≤ f32 t.size := by
  have hone : f32 (2 ^ (j + 4)) = 2 ^ (j + 4) := by
    simpa using f32_exact (t := 1) (j + 4) (by omega)
  have hthree : f32 (3 * 2 ^ (j + 4)) = 3 * 2 ^ (j + 4) := f32_exact (j + 4) (by omega)
  have hpow := two_pow_quarter j
  unfold loaded
  rw [hcap, hone, hthree, decide_eq_true_eq]
  omega

theorem lt_of_not_loaded {t : HashTable} {j : Nat} (hcap : t.capacity = 2 ^ (j + 4))
    (h : ¬ loaded t = true) : t.size < 3 * 2 ^ (j + 2) := by
  by_contra hge
  exact h ((loaded_iff hcap).mpr (le_f32_of_le (by omega) (by omega)))

theorem not_loaded_of_lt {t : HashTable} {j : Nat} (hcap : t.capacity = 2 ^ (j + 4))
    (h : t.size + t.size / 2 ^ 24 < 3 * 2 ^ (j + 2)) : ¬ loaded t = true := by
  rw [loaded_iff hcap]
  have := f32_le t.size
  omega

theorem le_of_loaded {t : HashTable} {j : Nat} (hcap : t.capacity = 2 ^ (j + 4))
    (h : loaded t = true) : 3 * 2 ^ (j + 2) ≤ t.size + t.size / 2 ^ 24 :=
  ((loaded_iff hcap).mp h).trans (f32_le t.size)

/-! ## Sizes over a run -/

/-- The bounds of a table that has doubled `j` times, `3 * 2 ^ (j + 2)` being its
load threshold. From the first resize on, the size field is ahead of the nodes
by three eighths of the threshold at least. -/
structure Sized (j : Nat) (t : HashTable) : Prop where
  capacity : t.capacity = 2 ^ (j + 4)
  small : t.capacity < maxCapacity
  length : t.buckets.length = t.capacity
  nodes_le : t.nodes.length ≤ t.size
  bound : (j = 0 ∧ t.size ≤ 12) ∨ (1 ≤ j ∧ t.size ≤ 3 * 2 ^ (j + 2) + 1 ∧
    8 * t.nodes.length + 3 * (3 * 2 ^ (j + 2)) ≤ 8 * t.size)

theorem sized_new : Sized 0 htNew := by
  refine ⟨rfl, by decide, rfl, by decide, .inl ⟨rfl, by decide⟩⟩

theorem slot_lt {j : Nat} {t : HashTable} (h : Sized j t) (key : Str) :
    slot key t.capacity < t.buckets.length := by
  rw [h.length, h.capacity]
  exact Nat.mod_lt _ (Nat.two_pow_pos _)

/-- While a resize reinserts, the doubled table never reaches its threshold. -/
theorem Sized.rehash_quiet {j : Nat} {t : HashTable} (h : Sized j t) {i : Nat}
    (hi : i < t.nodes.length) :
    t.size + i + (t.size + i) / 2 ^ 24 < 3 * 2 ^ (j + 1 + 2) := by
  have hpow := two_pow_double j
  have hle := h.nodes_le
  rw [hpow]
  rcases h.bound with ⟨rfl, h12⟩ | ⟨hj, hsize, hslack⟩
  · simp only [Nat.zero_add]; omega
  · have hbig : 2 ^ (1 + 2) ≤ 2 ^ (j + 2) := Nat.pow_le_pow_right (by omega) (by omega)
    omega

/-- As long as no put finds the table loaded, they only insert. -/
theorem foldl_htPutDepth {d : Nat} (ns : List BucketNode) (t : HashTable)
    (hquiet : ∀ i, i < ns.length → ¬ loaded { t with size := t.size + i } = true) :
    ns.foldl (htPutDepth (d + 1)) t = ns.foldl place t := by
  induction ns generalizing t with
  | nil => rfl
  | cons n rest ih =>
    have hnot : ¬ loaded t = true := hquiet 0 (Nat.succ_pos _)
    have hstep : htPutDepth (d + 1) t n = place t n := by
      rw [htPutDepth, if_neg hnot]; rfl
    rw [List.foldl_cons, List.foldl_cons, hstep]
    refine ih (place t n) ?_
    intro i hi
    have h := hquiet (i + 1) (Nat.succ_lt_succ hi)
    have hsize : t.size + (i + 1) = t.size + 1 + i := by omega
    rw [hsize] at h
    exact h

/-- The capacity a put may ask for stays below `MAX_CAPACITY`. -/
def Room (t : HashTable) : Prop := loaded t = true → t.capacity * 2 < maxCapacity

instance (t : HashTable) : Decidable (Room t) := inferInstanceAs (Decidable (_ → _))

theorem htPut_eq {j : Nat} {t : HashTable} (h : Sized j t) (hroom : Room t) (key value : Str)
    (exported : Bool) :
    htPut t key value exported =
      putAt (if loaded t then rehash t else t) (slot key t.capacity) ⟨key, value, exported⟩ := by
  by_cases hl : loaded t = true
  · have hmax : ¬ maxCapacity ≤ t.capacity * 2 := Nat.not_le.mpr (hroom hl)
    have hfold : t.nodes.foldl (htPutDepth 30) (emptied t (t.capacity * 2)) = rehash t :=
      foldl_htPutDepth t.nodes _ fun i hi =>
        not_loaded_of_lt (j := j + 1) (by simp only [emptied, h.capacity, pow_succ])
          (h.rehash_quiet hi)
    have hresize : hashtableResize (htPutDepth 30) t (t.capacity * 2) = some (rehash t) := by
      unfold hashtableResize
      rw [if_neg hmax]
      exact congrArg some hfold
    rw [htPut, htPutDepth, if_pos hl, hresize, if_pos hl]
  · rw [htPut, htPutDepth, if_neg hl, if_neg hl]

theorem rehash_bounds (t : HashTable) :
    (rehash t).capacity = t.capacity * 2 ∧ (rehash t).buckets.length = (rehash t).capacity ∧
      (rehash t).nodes.length ≤ t.nodes.length ∧
      (rehash t).size = t.size + t.nodes.length := by
  have hcap : (rehash t).capacity = t.capacity * 2 := foldl_place_capacity ..
  refine ⟨hcap, ?_, ?_, foldl_place_size ..⟩
  · rw [hcap]
    exact (foldl_place_length ..).trans (by simp [emptied])
  · have hle := foldl_place_nodes_le t.nodes (emptied t (t.capacity * 2))
    rw [emptied_nodes, List.length_nil, Nat.zero_add] at hle
    exact hle

theorem Sized.put {j : Nat} {t : HashTable} (h : Sized j t) (hroom : Room t) (key value : Str)
    (exported : Bool) :
    Sized (if loaded t then j + 1 else j) (htPut t key value exported) := by
  rw [htPut_eq h hroom]
  have hle := h.nodes_le
  by_cases hl : loaded t = true
  · obtain ⟨hcap, hlen, hnodes, hsize⟩ := rehash_bounds t
    have hput := length_nodes_putAt_le (rehash t) (slot key t.capacity)
      ⟨key, value, exported⟩
    have hpow := two_pow_double j
    have hload := le_of_loaded h.capacity hl
    rw [if_pos hl, if_pos hl]
    refine ⟨by rw [putAt_capacity, hcap, h.capacity, ← pow_succ], ?_,
      by rw [putAt_length, hlen, putAt_capacity], ?_, .inr ⟨by omega, ?_, ?_⟩⟩
    · rw [putAt_capacity, hcap]; exact hroom hl
    · rw [putAt_size]; omega
    · rw [putAt_size, hpow]
      rcases h.bound with ⟨rfl, h12⟩ | ⟨hj, hsz, hslack⟩
      · simp only [Nat.zero_add]; omega
      · have hbig : 2 ^ (1 + 2) ≤ 2 ^ (j + 2) := Nat.pow_le_pow_right (by omega) (by omega)
        omega
    · rw [putAt_size, hpow]
      rcases h.bound with ⟨rfl, h12⟩ | ⟨hj, hsz, hslack⟩
      · simp only [Nat.zero_add] at hload ⊢; omega
      · have hbig : 2 ^ (1 + 2) ≤ 2 ^ (j + 2) := Nat.pow_le_pow_right (by omega) (by omega)
        omega
  · have hput := length_nodes_putAt_le t (slot key t.capacity) ⟨key, value, exported⟩
    have hlt := lt_of_not_loaded h.capacity hl
    rw [if_neg hl, if_neg hl]
    refine ⟨h.capacity, h.small, by rw [putAt_length, h.length, putAt_capacity], ?_, ?_⟩
    · rw [putAt_size]; omega
    · rcases h.bound with ⟨rfl, h12⟩ | ⟨hj, hsz, hslack⟩
      · left; simp only [Nat.zero_add] at hlt; exact ⟨rfl, by rw [putAt_size]; omega⟩
      · right; exact ⟨hj, by rw [putAt_size]; omega, by rw [putAt_size]; omega⟩

/-! ## Removal -/

/-- Unlinking a bound key takes out its one node and keeps the order of the rest. -/
theorem unlink_eq {key : Str} {n : BucketNode} : ∀ {nodes nodes' : List BucketNode},
    chainGet nodes key = some n → unlink key nodes = some nodes' →
    ∃ before after, nodes = before ++ n :: after ∧ nodes' = before ++ after ∧ n.key = key ∧
      ∀ m ∈ before ++ after, m.key ≠ key
  | [], _, hn, _ => by simp [chainGet] at hn
  | m :: rest, nodes', hn, h => by
    rw [unlink] at h
    by_cases hm : m.key = key
    · rw [chainGet_cons_self hm] at hn
      rw [if_pos hm] at h
      split at h
      · cases h
      · rename_i hany
        obtain rfl := Option.some.inj hn
        obtain rfl := Option.some.inj h
        refine ⟨[], rest, rfl, rfl, hm, ?_⟩
        intro m' hmem hkey
        exact hany (List.any_eq_true.mpr ⟨m', by simpa using hmem, by simpa using hkey⟩)
    · rw [chainGet_cons_ne hm] at hn
      rw [if_neg hm] at h
      obtain ⟨nodes'', h', rfl⟩ := Option.map_eq_some_iff.mp h
      obtain ⟨before, after, rfl, rfl, hkey, hne⟩ := unlink_eq hn h'
      refine ⟨m :: before, after, rfl, rfl, hkey, ?_⟩
      intro m' hmem
      rcases List.mem_cons.mp hmem with rfl | hmem
      · exact hm
      · exact hne m' hmem

/-- What a removal that returns does to a table whose buckets are in range. -/
theorem htRemove_eq {t t' : HashTable} {key : Str}
    (hlt : slot key t.capacity < t.buckets.length) (h : htRemove t key = some t') :
    ∃ n before after, t.chain (slot key t.capacity) = before ++ n :: after ∧ n.key = key ∧
      (∀ m ∈ before ++ after, m.key ≠ key) ∧ t'.capacity = t.capacity ∧
      t'.size = sizeSub t.size 1 ∧ t'.buckets.length = t.buckets.length ∧
      (∀ i, t'.chain i = if i = slot key t.capacity then before ++ after else t.chain i) ∧
      t'.nodes.length + 1 = t.nodes.length := by
  have hget := List.getElem?_eq_getElem hlt
  unfold htRemove at h
  simp only [hget, Option.getD_some] at h
  obtain ⟨n, hn, h⟩ := Option.bind_eq_some_iff.mp h
  obtain ⟨b, hb, rfl⟩ := Option.map_eq_some_iff.mp h
  have hchain : t.chain (slot key t.capacity) = t.buckets[slot key t.capacity].nodes := by
    simp only [HashTable.chain, hget, Option.getD_some]
  rw [htFind, hchain] at hn
  rw [blistRemove, hn] at hb
  obtain ⟨nodes, hu, rfl⟩ := Option.map_eq_some_iff.mp hb
  obtain ⟨before, after, hsplit, rfl, hkey, hne⟩ := unlink_eq hn hu
  refine ⟨n, before, after, hchain.trans hsplit, hkey, hne, rfl, rfl, List.length_set .., ?_, ?_⟩
  · intro i
    simp only [HashTable.chain, List.getElem?_set]
    by_cases hi : slot key t.capacity = i
    · subst hi; simp [hlt]
    · simp [hi, Ne.symm hi]
  · have hsum : ∀ (buckets : List BucketList) (i : Nat) (hi : i < buckets.length),
        (((buckets.set i ⟨sizeSub buckets[i].size 1, before ++ after⟩).flatMap
          BucketList.nodes).length + buckets[i].nodes.length =
        (buckets.flatMap BucketList.nodes).length + (before ++ after).length) := by
      intro buckets
      induction buckets with
      | nil => intro i hi; simp at hi
      | cons b rest ih =>
        intro i hi
        cases i with
        | zero => simp only [List.set_cons_zero, List.flatMap_cons, List.length_append,
            List.getElem_cons_zero]; omega
        | succ i =>
          have := ih i (by simpa using hi)
          simp only [List.set_cons_succ, List.flatMap_cons, List.length_append,
            List.getElem_cons_succ] at this ⊢
          omega
    have hall := hsum t.buckets _ hlt
    rw [hsplit] at hall
    simp only [HashTable.nodes, List.length_append, List.length_cons] at hall ⊢
    omega

/-- A removal shows: its key is unbound, and the other keys find what they found. -/
theorem htFind_remove {t t' : HashTable} {key : Str}
    (hlt : slot key t.capacity < t.buckets.length) (h : htRemove t key = some t') (k : Str) :
    htFind t' k = if k = key then none else htFind t k := by
  obtain ⟨n, before, after, hsplit, hkey, hne, hcap, -, -, hchain, -⟩ := htRemove_eq hlt h
  rw [htFind, hcap, hchain]
  by_cases hk : k = key
  · subst hk
    rw [if_pos rfl, if_pos rfl]
    exact List.find?_eq_none.mpr fun m hm => by simpa using hne m hm
  · rw [if_neg hk, htFind]
    split
    · rename_i hs
      have hcons : chainGet (n :: after) k = chainGet after k :=
        chainGet_cons_ne (hkey ▸ Ne.symm hk)
      unfold chainGet at hcons ⊢
      rw [hs, hsplit, List.find?_append, List.find?_append, hcons]
    · rfl

theorem Sized.size_remove {j : Nat} {t t' : HashTable} {key : Str} (h : Sized j t)
    (hr : htRemove t key = some t') : t.size = t'.size + 1 := by
  obtain ⟨n, before, after, -, -, -, -, hsize, -, -, hnodes⟩ := htRemove_eq (slot_lt h key) hr
  have hle := h.nodes_le
  have hsmall := h.small
  have hpow := two_pow_quarter j
  rw [h.capacity, hpow, maxCapacity] at hsmall
  have hsub : t'.size = t.size - 1 := by
    rw [hsize, sizeSub_eq (by omega)]
    rcases h.bound with ⟨rfl, h12⟩ | ⟨hj, hsz, hslack⟩ <;> omega
  omega

theorem Sized.remove {j : Nat} {t t' : HashTable} {key : Str} (h : Sized j t)
    (hr : htRemove t key = some t') : Sized j t' := by
  obtain ⟨n, before, after, -, -, -, hcap, -, hlen, -, hnodes⟩ := htRemove_eq (slot_lt h key) hr
  have hle := h.nodes_le
  have hsize := h.size_remove hr
  refine ⟨hcap.trans h.capacity, hcap ▸ h.small, by rw [hlen, hcap, h.length], by omega, ?_⟩
  rcases h.bound with ⟨rfl, h12⟩ | ⟨hj, hsz, hslack⟩
  · exact .inl ⟨rfl, by omega⟩
  · exact .inr ⟨hj, by omega, by omega⟩

/-! ## Runs -/

inductive Op where
  | put (key value : Str) (exported : Bool)
  | remove (key : Str)

/-- A call on a table: a put that need not reach `MAX_CAPACITY`, or the removal of a
contained key. -/
def Step (t : HashTable) : Op → HashTable → Prop
  | .put key value exported, t' => Room t ∧ t' = htPut t key value exported
  | .remove key, t' => htContains t key = true ∧ htRemove t key = some t'

theorem sized_step {t t' : HashTable} {op : Op} (h : ∃ j, Sized j t) (hs : Step t op t') :
    ∃ j, Sized j t' := by
  obtain ⟨j, h⟩ := h
  cases op with
  | put key value exported =>
    obtain ⟨hroom, rfl⟩ := hs
    exact ⟨_, h.put hroom key value exported⟩
  | remove key => exact ⟨j, h.remove hs.2⟩

theorem sized_reach {t : HashTable} (h : Runs.Reach htNew Step t) : ∃ j, Sized j t :=
  h.invariant (I := fun t => ∃ j, Sized j t) ⟨0, sized_new⟩ fun _ _ _ => sized_step

/-- Puts of the given entries, in order. -/
def putAll (t : HashTable) (entries : List BucketNode) : HashTable :=
  entries.foldl (fun t n => htPut t n.key n.value n.exported) t

theorem reach_putAll {step : HashTable → Op → HashTable → Prop} (entries : List BucketNode)
    (h : ∀ i (hi : i < entries.length), step (putAll htNew (entries.take i))
      (.put entries[i].key entries[i].value entries[i].exported)
      (htPut (putAll htNew (entries.take i)) entries[i].key entries[i].value entries[i].exported)) :
    Runs.Reach htNew step (putAll htNew entries) := by
  induction entries using List.reverseRecOn with
  | nil => exact .start
  | append_singleton entries n ih =>
    have hreach : Runs.Reach htNew step (putAll htNew entries) := by
      refine ih fun i hi => ?_
      have hstep := h i (by rw [List.length_append]; omega)
      rwa [List.take_append_of_le_length hi.le, List.getElem_append_left hi] at hstep
    have hlast := h entries.length (by simp)
    rw [List.take_left, List.getElem_concat_length rfl] at hlast
    rw [putAll, List.foldl_append]
    exact .next hreach hlast

/-- One exported variable for each letter. -/
def letters (s : Str) : List BucketNode := s.map fun c => ⟨[c], str "1", true⟩

/-! ## What a put shows -/

/-- The bucket index `ht_put` computed is still the one the lookups use afterwards. -/
def InPlace (t : HashTable) (key : Str) : Prop :=
  loaded t = true → slot key (t.capacity * 2) = slot key t.capacity

instance (t : HashTable) (key : Str) : Decidable (InPlace t key) :=
  inferInstanceAs (Decidable (_ → _))

theorem htFind_put_of_inPlace {j : Nat} {t : HashTable} (h : Sized j t) (hroom : Room t)
    {key : Str} (hin : InPlace t key) (value : Str) (exported : Bool) :
    htFind (htPut t key value exported) key = some ⟨key, value, exported⟩ := by
  rw [htPut_eq h hroom]
  by_cases hl : loaded t = true
  · obtain ⟨hcap, hlen, -, -⟩ := rehash_bounds t
    rw [if_pos hl, htFind, putAt_capacity, hcap, hin hl, chain_putAt, if_pos rfl]
    · exact chainGet_chainPut_self ⟨key, value, exported⟩ _
    · have := slot_lt h key; rw [hlen, hcap]; rw [h.length] at this; omega
  · rw [if_neg hl, htFind, putAt_capacity, chain_putAt t _ (slot_lt h key), if_pos rfl]
    exact chainGet_chainPut_self ⟨key, value, exported⟩ _

/-- When the index moved, the new node is out of the lookups' sight. -/
theorem htFind_put_of_not_inPlace {j : Nat} {t : HashTable} (h : Sized j t) (hroom : Room t)
    {key : Str} (hin : ¬ InPlace t key) (value : Str) (exported : Bool) :
    htFind (htPut t key value exported) key = htFind (rehash t) key := by
  obtain ⟨hl, hne⟩ := Classical.not_imp.mp hin
  obtain ⟨hcap, hlen, -, -⟩ := rehash_bounds t
  have hlt := slot_lt h key
  rw [h.length] at hlt
  rw [htPut_eq h hroom, if_pos hl, htFind, htFind, putAt_capacity, chain_putAt, if_neg]
  · rw [hcap]; exact hne
  · rw [hlen, hcap]; omega

/-- **When a put is read back.** In every table a run reaches, a put of a key is
read back for every value and flag exactly when the resize it may cause leaves
the key's bucket index alone; otherwise what is read back does not depend on
what was put. -/
theorem htGet_htPut_iff {t : HashTable} (h : Runs.Reach htNew Step t) (hroom : Room t)
    (key : Str) :
    ((∀ value exported, htGet (htPut t key value exported) key = some value ∧
      htGetExported (htPut t key value exported) key = some exported) ↔ InPlace t key) ∧
    (¬ InPlace t key → ∀ value exported value' exported',
      htFind (htPut t key value exported) key = htFind (htPut t key value' exported') key) := by
  obtain ⟨j, h⟩ := sized_reach h
  refine ⟨⟨?_, ?_⟩, ?_⟩
  · intro hall
    by_contra hin
    -- one lookup result cannot be both flags
    have h1 := (hall [] true).2
    have h2 := (hall [] false).2
    rw [htGetExported, htFind_put_of_not_inPlace h hroom hin] at h1 h2
    rw [h1] at h2
    cases h2
  · intro hin value exported
    have hfind := htFind_put_of_inPlace h hroom hin value exported
    simp only [htGet, htGetExported, hfind, Option.map_some, and_self]
  · intro hin value exported value' exported'
    rw [htFind_put_of_not_inPlace h hroom hin, htFind_put_of_not_inPlace h hroom hin]

/-- Twelve letters, a and q in one chain: the put of a further one doubles the
table, and x is read back while f is not. -/
theorem htGet_htPut_iff_resizing :
    (∀ value exported,
      htGet (htPut (putAll htNew (letters (str "aqbcdeijklmn"))) (str "x") value exported) (str "x") =
        some value ∧
      htGetExported (htPut (putAll htNew (letters (str "aqbcdeijklmn"))) (str "x") value exported)
        (str "x") = some exported) ∧
    ¬ ∀ value exported,
      htGet (htPut (putAll htNew (letters (str "aqbcdeijklmn"))) (str "f") value exported) (str "f") =
        some value ∧
      htGetExported (htPut (putAll htNew (letters (str "aqbcdeijklmn"))) (str "f") value exported)
        (str "f") = some exported := by
  have hroom : ∀ i < 12, Room (putAll htNew ((letters (str "aqbcdeijklmn")).take i)) := by
    decide +kernel
  have hlast : Room (putAll htNew (letters (str "aqbcdeijklmn"))) := by decide +kernel
  have hreach : Runs.Reach htNew Step (putAll htNew (letters (str "aqbcdeijklmn"))) :=
    reach_putAll _ fun i hi => ⟨hroom i hi, rfl⟩
  refine ⟨(htGet_htPut_iff hreach hlast (str "x")).1.mpr (by decide +kernel), ?_⟩
  exact mt (htGet_htPut_iff hreach hlast (str "f")).1.mp (by decide +kernel)

/-- Twelve variables A to L, then c: the thirteenth put doubles 16 buckets, stores
c in bucket 2, and the lookups search bucket 18. -/
theorem not_read_back_after_resize :
    ∃ t, Runs.Reach htNew Step t ∧ Room t ∧
      htGet (htPut t [99] [118] false) [99] ≠ some [118] := by
  have hroom : ∀ i < 12, Room (putAll htNew ((letters (str "ABCDEFGHIJKL")).take i)) := by
    decide +kernel
  refine ⟨putAll htNew (letters (str "ABCDEFGHIJKL")),
    reach_putAll _ fun i hi => ⟨hroom i hi, rfl⟩, ?_, ?_⟩
  · decide +kernel
  · decide +kernel

end Shell.Hashtable
