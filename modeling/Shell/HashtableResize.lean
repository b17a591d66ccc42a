import Shell.HashtableFrame

/-! # One resize (hashtable_resize in hashtable.c)

`hashtable_resize` moves the nodes with `ht_put`, whose load test sees the size
field grow from where it stood. When a reinsertion finds the doubled table
loaded, it resizes once more, or loses its node where that is refused. The test
is in binary32, so it can fire just below the threshold. -/
namespace Shell.Hashtable
open Shell.CTypes Shell.Lib Shell.Lib.Binary32

/-- `ht_put` of the fields of a node. -/
def htPutNode (t : HashTable) (iter : BucketNode) : HashTable :=
  htPut t iter.key iter.value iter.exported

theorem htPutNode_eq : htPutNode = htPutDepth 31 := rfl

/-- A well placed table with room for its nodes once more, below the threshold of
the doubled capacity. -/
structure Resizable (t : HashTable) : Prop where
  length : t.buckets.length = t.capacity
  distinct : (t.nodes.map BucketNode.key).Nodup
  placed : ∀ i, ∀ n ∈ t.chain i, slot n.key t.capacity = i
  fits : 4 * (t.size + t.nodes.length) ≤ 3 * (t.capacity * 2)
  small : t.capacity * 2 < maxCapacity

/-- `t'` is `t` over twice the buckets. -/
structure Doubled (t t' : HashTable) : Prop where
  capacity : t'.capacity = t.capacity * 2
  placed : ∀ i, ∀ n ∈ t'.chain i, slot n.key t'.capacity = i
  distinct : (t'.nodes.map BucketNode.key).Nodup
  bindings : ∀ k, htGet t' k = htGet t k ∧ htGetExported t' k = htGetExported t k

/-- The doubled table with the first `i` nodes moved, as the load test sees it. -/
def moving (t : HashTable) (i : Nat) : HashTable :=
  { t with size := t.size + i, capacity := t.capacity * 2 }

theorem loaded_congr {t t' : HashTable} (hsize : t.size = t'.size)
    (hcapacity : t.capacity = t'.capacity) : loaded t = loaded t' := by
  rw [loaded, loaded, hsize, hcapacity]

/-- No reinsertion finds the doubled table loaded. -/
def Quiet (t : HashTable) : Prop := ∀ i < t.nodes.length, ¬ loaded (moving t i) = true

instance (t : HashTable) : Decidable (Quiet t) := Nat.decidableBallLT _ _

/-- The load test is exact while three times the capacity fits 24 bits. -/
theorem quiet_of_small {t : HashTable} (h : Resizable t) (hcap : 3 * t.capacity < 2 ^ 24) :
    Quiet t := by
  intro i hi
  have hfits := h.fits
  have hcapacity : f32 (t.capacity * 2) = t.capacity * 2 := by
    simpa using f32_exact (t := t.capacity * 2) 0 (by omega)
  have hthree : f32 (3 * (t.capacity * 2)) = 3 * (t.capacity * 2) := by
    have hexact := f32_exact (t := 3 * t.capacity) 1 hcap
    rw [pow_one, Nat.mul_assoc] at hexact
    exact hexact
  have hsize : f32 (t.size + i) = t.size + i := by
    simpa using f32_exact (t := t.size + i) 0 (by omega)
  unfold loaded moving
  rw [decide_eq_true_iff]
  simp only [hcapacity, hthree, hsize]
  omega

/-! ## Quiet tables are doubled -/

theorem Resizable.ordered {t : HashTable} (h : Resizable t) : Ordered t :=
  ⟨h.placed, fun i => h.distinct.sublist ((chain_sublist_nodes t i).map _)⟩

theorem nodes_of_capacity_zero {t : HashTable} (h : Resizable t) (hzero : t.capacity = 0) :
    t.nodes = [] := by
  have hbuckets : t.buckets = [] := List.eq_nil_of_length_eq_zero (h.length.trans hzero)
  rw [HashTable.nodes, hbuckets, List.flatMap_nil]

theorem chain_of_nodes_nil {t : HashTable} (h : t.nodes = []) (i : Nat) : t.chain i = [] :=
  List.sublist_nil.mp (h ▸ chain_sublist_nodes t i)

theorem doubled_rehash {t : HashTable} (h : Resizable t) : Doubled t (rehash t) := by
  obtain ⟨hcap, -, hnodes, -⟩ := rehash_bounds t
  rcases Nat.eq_zero_or_pos t.capacity with hzero | hpos
  · -- there are no buckets, before and after
    have hnil := nodes_of_capacity_zero h hzero
    have hnil' : (rehash t).nodes = [] := List.eq_nil_of_length_eq_zero (by
      rw [hnil] at hnodes
      exact Nat.le_zero.mp hnodes)
    refine ⟨hcap, ?_, ?_, ?_⟩
    · intro i n hn
      rw [chain_of_nodes_nil hnil'] at hn
      cases hn
    · rw [hnil']
      exact List.nodup_nil
    · intro k
      rw [lookups_eq_iff, htFind, htFind, chain_of_nodes_nil hnil, chain_of_nodes_nil hnil']
  · have hord := h.ordered
    refine ⟨hcap, (hord.rehash hpos).placed, nodup_nodes (hord.rehash hpos), ?_⟩
    intro k
    rw [lookups_eq_iff]
    exact htFind_rehash hord hpos k

theorem hashtableResize_eq {t : HashTable} (hsmall : t.capacity * 2 < maxCapacity) :
    hashtableResize htPutNode t (t.capacity * 2) =
      some (t.nodes.foldl (htPutDepth 31) (emptied t (t.capacity * 2))) := by
  unfold hashtableResize
  rw [if_neg (Nat.not_le.mpr hsmall), htPutNode_eq]
  rfl

theorem hashtableResize_of_quiet {t : HashTable} (h : Resizable t) (hquiet : Quiet t) :
    hashtableResize htPutNode t (t.capacity * 2) = some (rehash t) := by
  rw [hashtableResize_eq h.small, foldl_htPutDepth t.nodes (emptied t (t.capacity * 2)) hquiet,
    rehash]

/-! ## A loaded reinsertion -/

theorem le_capacity_foldl {f : HashTable → BucketNode → HashTable}
    (hf : ∀ t n, t.capacity ≤ (f t n).capacity) (ns : List BucketNode) (t : HashTable) :
    t.capacity ≤ (ns.foldl f t).capacity := by
  induction ns generalizing t with
  | nil => exact Nat.le_refl _
  | cons n rest ih => exact (hf t n).trans (ih (f t n))

theorem le_capacity_hashtableResize {f : HashTable → BucketNode → HashTable}
    (hf : ∀ t n, t.capacity ≤ (f t n).capacity) {t t' : HashTable} {newCapacity : Nat}
    (h : hashtableResize f t newCapacity = some t') : newCapacity ≤ t'.capacity := by
  unfold hashtableResize at h
  split at h
  · cases h
  · obtain rfl := Option.some.inj h
    exact le_capacity_foldl hf (t.buckets.flatMap BucketList.nodes)
      { t with capacity := newCapacity, buckets := List.replicate newCapacity blistNew }

theorem le_capacity_htPutDepth (d : Nat) (t : HashTable) (n : BucketNode) :
    t.capacity ≤ (htPutDepth d t n).capacity := by
  induction d generalizing t n with
  | zero => exact Nat.le_refl _
  | succ d ih =>
    rw [htPutDepth]
    split
    · split
      · exact Nat.le_refl _
      · rename_i t' hresize
        have hle := le_capacity_hashtableResize ih hresize
        rw [putAt_capacity]
        omega
    · exact Nat.le_refl _

/-- A refused resize leaves the table loaded, so that no later put gets in either. -/
theorem foldl_htPutDepth_refused {d : Nat} {t : HashTable} (hl : loaded t = true)
    (hmax : maxCapacity ≤ t.capacity * 2) (ns : List BucketNode) :
    ns.foldl (htPutDepth (d + 1)) t = t := by
  have hput : ∀ n, htPutDepth (d + 1) t n = t := by
    intro n
    rw [htPutDepth, if_pos hl, hashtableResize, if_pos hmax]
  induction ns with
  | nil => rfl
  | cons n rest ih => rw [List.foldl_cons, hput, ih]

/-- Otherwise the capacity doubles again. -/
theorem capacity_foldl_htPutDepth {d : Nat} {t : HashTable} (hl : loaded t = true)
    (hmax : ¬ maxCapacity ≤ t.capacity * 2) (n : BucketNode) (ns : List BucketNode) :
    t.capacity * 2 ≤ ((n :: ns).foldl (htPutDepth (d + 1)) t).capacity := by
  refine Nat.le_trans ?_ (le_capacity_foldl (le_capacity_htPutDepth (d + 1)) ns _)
  obtain ⟨t', hresize⟩ : ∃ t', hashtableResize (htPutDepth d) t (t.capacity * 2) = some t' := by
    rw [hashtableResize, if_neg hmax]
    exact ⟨_, rfl⟩
  have hput : htPutDepth (d + 1) t n = putAt t' (slot n.key t.capacity) n := by
    rw [htPutDepth, if_pos hl, hresize]
  rw [hput, putAt_capacity]
  exact le_capacity_hashtableResize (le_capacity_htPutDepth d) hresize

theorem htFind_of_mem {t : HashTable} (h : Ordered t) {n : BucketNode} (hn : n ∈ t.nodes) :
    (htFind t n.key).isSome := by
  rw [htFind_eq_find? h, List.find?_isSome]
  exact ⟨n, hn, decide_eq_true rfl⟩

/-- The first loaded reinsertion: the nodes before it are in place. -/
theorem exists_first_loaded {t : HashTable} (h : ¬ Quiet t) :
    ∃ before n after, t.nodes = before ++ n :: after ∧
      before.foldl (htPutDepth 31) (emptied t (t.capacity * 2)) =
        before.foldl place (emptied t (t.capacity * 2)) ∧
      loaded (before.foldl place (emptied t (t.capacity * 2))) = true := by
  have hex : ∃ i, i < t.nodes.length ∧ loaded (moving t i) = true := by
    simpa [Quiet] using h
  obtain ⟨i, ⟨hi, hl⟩, hmin⟩ : ∃ i, (i < t.nodes.length ∧ loaded (moving t i) = true) ∧
      ∀ j < i, ¬ (j < t.nodes.length ∧ loaded (moving t j) = true) :=
    ⟨Nat.find hex, Nat.find_spec hex, fun _ => Nat.find_min hex⟩
  have hlength : (t.nodes.take i).length = i := by
    rw [List.length_take, Nat.min_eq_left hi.le]
  refine ⟨t.nodes.take i, t.nodes[i], t.nodes.drop (i + 1), ?_, ?_, ?_⟩
  · rw [List.getElem_cons_drop, List.take_append_drop]
  · refine foldl_htPutDepth _ _ fun j hj hl' => ?_
    rw [hlength] at hj
    exact hmin j hj ⟨hj.trans hi, hl'⟩
  · rw [← hl]
    refine loaded_congr ?_ (foldl_place_capacity ..)
    rw [foldl_place_size, hlength]
    rfl

/-- The nodes in front, put in place, leave the key of a node behind them unbound. -/
theorem htFind_foldl_place_of_behind {t : HashTable} (h : Resizable t) (hpos : 0 < t.capacity)
    {before after : List BucketNode} {n : BucketNode} (hsplit : t.nodes = before ++ n :: after) :
    htFind (before.foldl place (emptied t (t.capacity * 2))) n.key = none := by
  have hkeys := h.distinct
  rw [hsplit, List.map_append, List.map_cons] at hkeys
  obtain ⟨hbefore, -, hdisjoint⟩ := List.nodup_append.mp hkeys
  rw [htFind, chain_foldl_emptied hbefore t (Nat.mul_pos hpos Nat.two_pos), chainGet_eq_none_iff]
  intro m hm
  have hmem : m.key ∈ before.map BucketNode.key :=
    List.mem_map_of_mem (List.mem_filter.mp hm).1
  exact hdisjoint _ hmem _ List.mem_cons_self

theorem not_doubled_of_loaded {t t' : HashTable} (h : Resizable t) (hloaded : ¬ Quiet t)
    (hresize : hashtableResize htPutNode t (t.capacity * 2) = some t') : ¬ Doubled t t' := by
  obtain ⟨before, n, after, hsplit, hfold, hl⟩ := exists_first_loaded hloaded
  have hpos : 0 < t.capacity := by
    refine Nat.pos_of_ne_zero fun hzero => ?_
    have hnil := nodes_of_capacity_zero h hzero
    rw [hsplit] at hnil
    exact absurd hnil (by simp)
  have hcap := foldl_place_capacity before (emptied t (t.capacity * 2))
  rw [hashtableResize_eq h.small, hsplit, List.foldl_append, hfold] at hresize
  obtain rfl := Option.some.inj hresize
  intro hdoubled
  by_cases hmax : maxCapacity ≤ (before.foldl place (emptied t (t.capacity * 2))).capacity * 2
  · -- refused: the node is lost
    have hget := (hdoubled.bindings n.key)
    rw [foldl_htPutDepth_refused hl hmax, lookups_eq_iff,
      htFind_foldl_place_of_behind h hpos hsplit] at hget
    have hsome := htFind_of_mem h.ordered (n := n) (by rw [hsplit]; simp)
    rw [← hget] at hsome
    cases hsome
  · -- granted: the capacity is four times that of `t`
    have hle := capacity_foldl_htPutDepth (d := 30) hl hmax n after
    rw [hdoubled.capacity, hcap] at hle
    simp only [emptied] at hle
    omega

/-- **When a resize is only a resize.** It returns 0, with the capacity doubled,
the nodes in place, the keys distinct and both lookups of every key as before,
exactly when no reinsertion finds the doubled table loaded. -/
theorem hashtableResize_doubles_iff {t : HashTable} (h : Resizable t) :
    (∃ t', hashtableResize htPutNode t (t.capacity * 2) = some t' ∧ Doubled t t') ↔ Quiet t := by
  constructor
  · intro hcond
    obtain ⟨t', hresize, hdoubled⟩ := hcond
    by_contra hloaded
    exact not_doubled_of_loaded h hloaded hresize hdoubled
  · intro hquiet
    exact ⟨rehash t, hashtableResize_of_quiet h hquiet, doubled_rehash h⟩

/-! ## Tables of one node -/

/-- A table whose size field is one ahead of `size`, with the node `n`. -/
def oneNode (size capacity : Nat) (n : BucketNode) : HashTable :=
  place (emptied { htNew with size := size } capacity) n

theorem chain_oneNode (size : Nat) {capacity : Nat} (hpos : 0 < capacity) (n : BucketNode) (i : Nat) :
    (oneNode size capacity n).chain i = [n].filter fun n => slot n.key capacity = i :=
  have hkeys : ([n].map BucketNode.key).Nodup := List.pairwise_singleton _ _
  chain_foldl_emptied hkeys { htNew with size := size } hpos i

theorem nodes_oneNode (size : Nat) {capacity : Nat} (hpos : 0 < capacity) (n : BucketNode) :
    (oneNode size capacity n).nodes = [n] := by
  have hlength : (oneNode size capacity n).buckets.length = capacity := by
    rw [oneNode, place, putAt_length]
    exact List.length_replicate ..
  have hother : ∀ i, i ≠ slot n.key capacity → (oneNode size capacity n).chain i = [] := by
    intro i hi
    rw [chain_oneNode size hpos, List.filter_cons_of_neg (by simpa using hi.symm), List.filter_nil]
  rw [nodes_eq_chains, flatMap_range_of_single hother, hlength,
    if_pos (show slot n.key capacity < capacity from Nat.mod_lt _ hpos), chain_oneNode size hpos,
    List.filter_cons_of_pos (by simp), List.filter_nil]

theorem resizable_oneNode {size capacity : Nat} (hpos : 0 < capacity)
    (hfits : 4 * (size + 2) ≤ 3 * (capacity * 2)) (hsmall : capacity * 2 < maxCapacity)
    (n : BucketNode) : Resizable (oneNode size capacity n) := by
  refine ⟨?_, ?_, ?_, ?_, hsmall⟩
  · rw [oneNode, place, putAt_length]
    exact List.length_replicate ..
  · rw [nodes_oneNode size hpos]
    exact List.pairwise_singleton _ _
  · intro i m hm
    rw [chain_oneNode size hpos] at hm
    exact of_decide_eq_true (List.mem_filter.mp hm).2
  · rw [nodes_oneNode size hpos]
    exact hfits

/-- Twelve nodes, two of them in one chain, over 32 buckets. -/
theorem hashtableResize_doubles_letters :
    ∃ t', hashtableResize htPutNode (putAll htNew (letters (str "aqbcdeijklmn"))) 32 = some t' ∧
      Doubled (putAll htNew (letters (str "aqbcdeijklmn"))) t' := by
  have hplaced := (ordered_reach (reach_putAll_inPlace (letters (str "aqbcdeijklmn"))
    (by decide +kernel))).2.placed
  have h : Resizable (putAll htNew (letters (str "aqbcdeijklmn"))) :=
    ⟨by decide +kernel, by decide +kernel, hplaced, by decide +kernel, by decide +kernel⟩
  have hcap : (putAll htNew (letters (str "aqbcdeijklmn"))).capacity * 2 = 32 := by decide +kernel
  have hdoubles := hashtableResize_doubles_iff h
  rw [hcap] at hdoubles
  exact hdoubles.mpr (quiet_of_small h (by decide +kernel))

/-- The size field 3 * 2 ^ 27 - 1 is rounded to the threshold of 2 ^ 29 buckets: the
resize returns 0 and the node is gone. -/
theorem hashtableResize_loses_node :
    ∃ t t', Resizable t ∧ hashtableResize htPutNode t (t.capacity * 2) = some t' ∧
      htGet t (str "a") = some (str "x") ∧ htGet t' (str "a") = none := by
  let n : BucketNode := ⟨str "a", str "x", false⟩
  let t := oneNode (3 * 2 ^ 27 - 2) (2 ^ 28) n
  have h : Resizable t :=
    resizable_oneNode (Nat.two_pow_pos 28) (by omega) (Nat.lt_of_sub_eq_succ rfl) n
  have hnodes : t.nodes = [n] := nodes_oneNode _ (Nat.two_pow_pos 28) n
  have hl : loaded (emptied t (2 ^ 29)) = true := by
    have hsize : (emptied t (2 ^ 29)).size = 3 * 2 ^ 27 - 1 := rfl
    have hround : 3 * 2 ^ (25 + 2) ≤ f32 (3 * 2 ^ 27 - 1) := by decide +kernel
    rw [loaded_iff (j := 25) rfl, hsize]
    exact hround
  have hresize : hashtableResize htPutNode t (t.capacity * 2) = some (emptied t (2 ^ 29)) := by
    have hcapacity : t.capacity = 2 ^ 28 := rfl
    have hmax : maxCapacity ≤ (emptied t (2 ^ 29)).capacity * 2 := by
      show 2 ^ 30 ≤ 2 ^ 29 * 2
      omega
    rw [hashtableResize_eq h.small, hnodes, hcapacity, ← pow_succ,
      foldl_htPutDepth_refused hl hmax]
  have hfind : htFind t (str "a") = some n := by
    rw [htFind_eq_find? h.ordered, hnodes]
    rfl
  refine ⟨t, emptied t (2 ^ 29), h, hresize, ?_, ?_⟩
  · rw [htGet, hfind]
    rfl
  · rw [htGet, htFind, chain_emptied]
    rfl

end Shell.Hashtable
