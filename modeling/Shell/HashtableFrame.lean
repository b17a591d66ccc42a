import Shell.HashtableRuns

/-! # What a put does to the other keys

As long as no put has left a node in a bucket its key does not hash to, every
chain holds exactly the keys of its bucket, each once (`Ordered`). In such a
table a resize shows the same bindings, and a put hides another key exactly
when that key stands behind it in the chain that the put cuts. -/
namespace Shell.Hashtable
open Shell.CTypes Shell.Lib

/-! ## Chains -/

/-- `k'` has a node after the first node of `k`. -/
def Behind (nodes : List BucketNode) (k k' : Str) : Prop :=
  ∃ n ∈ nodes.dropWhile (fun n => n.key ≠ k), n.key = k'

instance (nodes : List BucketNode) (k k' : Str) : Decidable (Behind nodes k k') :=
  inferInstanceAs (Decidable (∃ n ∈ _, _))

theorem behind_cons_self {n : BucketNode} {rest : List BucketNode} {k' : Str} (hne : n.key ≠ k') :
    Behind (n :: rest) n.key k' ↔ ∃ m ∈ rest, m.key = k' := by
  unfold Behind
  simp [hne]

theorem behind_cons_ne {n : BucketNode} {rest : List BucketNode} {k k' : Str} (h : n.key ≠ k) :
    Behind (n :: rest) k k' ↔ Behind rest k k' := by
  unfold Behind
  simp [h]

theorem Behind.bound {nodes : List BucketNode} {k k' : Str} (h : Behind nodes k k') :
    ∃ n ∈ nodes, n.key = k' := by
  obtain ⟨n, hn, hk⟩ := h
  exact ⟨n, List.dropWhile_sublist _ |>.subset hn, hk⟩

theorem chainGet_eq_none_iff {nodes : List BucketNode} {k : Str} :
    chainGet nodes k = none ↔ ∀ n ∈ nodes, n.key ≠ k := by
  simp [chainGet]

theorem chainGet_put_of_not_behind {new : BucketNode} {k' : Str} (hne : new.key ≠ k') :
    ∀ {nodes : List BucketNode}, ¬ Behind nodes new.key k' →
      chainGet (chainPut new nodes) k' = chainGet nodes k'
  | [], _ => by simp [chainPut, chainGet, hne]
  | n :: rest, hb => by
    rw [chainPut]
    by_cases hn : n.key = new.key
    · have hnone : ∀ m ∈ n :: rest, m.key ≠ k' := by
        intro m hm hk
        rw [← hn, behind_cons_self (hn ▸ hne)] at hb
        rcases List.mem_cons.mp hm with rfl | hm
        · exact hne (hn.symm.trans hk)
        · exact hb ⟨m, hm, hk⟩
      rw [if_pos hn, chainGet_eq_none_iff.mpr hnone]
      exact chainGet_cons_ne hne
    · rw [behind_cons_ne hn] at hb
      have ih := chainGet_put_of_not_behind hne hb
      rw [if_neg hn]
      by_cases hk : n.key = k'
      · rw [chainGet_cons_self hk, chainGet_cons_self hk]
      · rw [chainGet_cons_ne hk, chainGet_cons_ne hk, ih]

theorem chainGet_put_of_behind {new : BucketNode} {k' : Str} (hne : new.key ≠ k') :
    ∀ {nodes : List BucketNode}, (nodes.map BucketNode.key).Nodup → Behind nodes new.key k' →
      chainGet (chainPut new nodes) k' = none
  | [], _, hb => by obtain ⟨n, hn, -⟩ := hb; simp at hn
  | n :: rest, hnd, hb => by
    rw [chainPut]
    by_cases hn : n.key = new.key
    · rw [if_pos hn]
      exact chainGet_cons_ne hne
    · rw [behind_cons_ne hn] at hb
      obtain ⟨hnot, hrest⟩ := List.nodup_cons.mp hnd
      have ih := chainGet_put_of_behind hne hrest hb
      have hnk : n.key ≠ k' := by
        obtain ⟨m, hm, hk⟩ := hb.bound
        intro h
        exact hnot (List.mem_map.mpr ⟨m, hm, hk.trans h.symm⟩)
      rw [if_neg hn, chainGet_cons_ne hnk, ih]

theorem mem_chainPut {new m : BucketNode} : ∀ {nodes : List BucketNode},
    m ∈ chainPut new nodes → m = new ∨ m ∈ nodes
  | [], h => .inl (List.mem_singleton.mp h)
  | n :: rest, h => by
    rw [chainPut] at h
    split at h
    · exact .inl (List.mem_singleton.mp h)
    · rcases List.mem_cons.mp h with rfl | h
      · exact .inr (List.mem_cons_self ..)
      · exact (mem_chainPut h).imp id (List.mem_cons_of_mem _)

theorem nodup_chainPut (new : BucketNode) : ∀ {nodes : List BucketNode},
    (nodes.map BucketNode.key).Nodup → ((chainPut new nodes).map BucketNode.key).Nodup
  | [], _ => by simp [chainPut]
  | n :: rest, h => by
    obtain ⟨hnot, hrest⟩ := List.nodup_cons.mp h
    rw [chainPut]
    split
    · simp
    · rename_i hne
      refine List.nodup_cons.mpr ⟨?_, nodup_chainPut new hrest⟩
      intro hmem
      obtain ⟨m, hm, hk⟩ := List.mem_map.mp hmem
      rcases mem_chainPut hm with rfl | hm
      · exact hne hk.symm
      · exact hnot (List.mem_map.mpr ⟨m, hm, hk⟩)

theorem chainPut_of_unbound {new : BucketNode} : ∀ {nodes : List BucketNode},
    (∀ n ∈ nodes, n.key ≠ new.key) → chainPut new nodes = nodes ++ [new]
  | [], _ => rfl
  | n :: rest, h => by
    rw [chainPut, if_neg (h n (List.mem_cons_self ..)),
      chainPut_of_unbound fun m hm => h m (List.mem_cons_of_mem _ hm)]
    rfl

/-- Filtering by key keeps who stands behind whom, among the keys it keeps. -/
theorem behind_filter {p : Str → Bool} {k k' : Str} (hne : k ≠ k') : ∀ {nodes : List BucketNode},
    Behind (nodes.filter fun n => p n.key) k k' ↔
      Behind nodes k k' ∧ p k = true ∧ p k' = true
  | [] => by simp [Behind]
  | n :: rest => by
    have ih := @behind_filter p k k' hne rest
    by_cases hp : p n.key = true
    · rw [List.filter_cons_of_pos (p := fun n : BucketNode => p n.key) hp]
      by_cases hn : n.key = k
      · subst hn
        rw [behind_cons_self hne, behind_cons_self hne]
        constructor
        · intro hcond
          obtain ⟨m, hm, hk⟩ := hcond
          obtain ⟨hm, hpm⟩ := List.mem_filter.mp hm
          exact ⟨⟨m, hm, hk⟩, hp, hk ▸ hpm⟩
        · intro hcond
          obtain ⟨⟨m, hm, hk⟩, -, hpk⟩ := hcond
          exact ⟨m, List.mem_filter.mpr ⟨hm, by rw [hk]; exact hpk⟩, hk⟩
      · rw [behind_cons_ne hn, behind_cons_ne hn, ih]
    · rw [List.filter_cons_of_neg (p := fun n : BucketNode => p n.key) hp, ih]
      by_cases hn : n.key = k
      · subst hn; simp [hp]
      · rw [behind_cons_ne hn]

/-! ## Tables whose keys are where they hash to -/

structure Ordered (t : HashTable) : Prop where
  placed : ∀ i, ∀ n ∈ t.chain i, slot n.key t.capacity = i
  distinct : ∀ i, ((t.chain i).map BucketNode.key).Nodup

theorem chain_new (i : Nat) : htNew.chain i = [] := by
  simp only [HashTable.chain, htNew, List.getElem?_replicate]
  split <;> rfl

theorem ordered_new : Ordered htNew :=
  ⟨fun i n hn => by simp [chain_new] at hn, fun i => by simp [chain_new]⟩

theorem nodes_eq_chains (t : HashTable) :
    t.nodes = (List.range t.buckets.length).flatMap t.chain := by
  have hbuckets : t.buckets =
      (List.range t.buckets.length).map fun i => (t.buckets[i]?).getD blistNew := by
    refine List.ext_getElem (by simp) fun i h1 h2 => ?_
    simp [h1]
  unfold HashTable.nodes
  rw [hbuckets, List.flatMap_map]
  simp only [List.length_map, List.length_range]
  rfl

theorem flatMap_range_of_single {g : Nat → List BucketNode} {i : Nat} (h : ∀ j, j ≠ i → g j = [])
    (n : Nat) : (List.range n).flatMap g = if i < n then g i else [] := by
  induction n with
  | zero => rfl
  | succ n ih =>
    rw [List.range_succ, List.flatMap_append, ih, List.flatMap_singleton]
    by_cases hi : i = n
    · subst hi; simp
    · rw [h n (Ne.symm hi), List.append_nil]
      by_cases hlt : i < n
      · rw [if_pos hlt, if_pos (by omega)]
      · rw [if_neg hlt, if_neg (by omega)]

theorem chain_of_length_le {t : HashTable} {i : Nat} (h : t.buckets.length ≤ i) :
    t.chain i = [] := by
  simp [HashTable.chain, List.getElem?_eq_none_iff.mpr h, blistNew]

theorem chain_sublist_nodes (t : HashTable) (i : Nat) : (t.chain i).Sublist t.nodes := by
  by_cases hi : i < t.buckets.length
  · have hchain : t.chain i = t.buckets[i].nodes := by
      simp only [HashTable.chain, List.getElem?_eq_getElem hi, Option.getD_some]
    rw [hchain, HashTable.nodes]
    exact List.sublist_flatten_of_mem (List.mem_map_of_mem (List.getElem_mem hi))
  · rw [chain_of_length_le (Nat.le_of_not_lt hi)]
    exact List.nil_sublist _

/-- A property that only nodes of bucket `i` have filters the table down to that bucket. -/
theorem filter_nodes {t : HashTable} (h : Ordered t) {p : BucketNode → Bool} {i : Nat}
    (hp : ∀ n, p n = true → slot n.key t.capacity = i) :
    t.nodes.filter p = (t.chain i).filter p := by
  have hother : ∀ j, j ≠ i → (t.chain j).filter p = [] := by
    intro j hji
    refine List.filter_eq_nil_iff.mpr fun n hn hpn => hji ?_
    rw [← h.placed j n hn, hp n hpn]
  rw [nodes_eq_chains, List.filter_flatMap, flatMap_range_of_single hother]
  split
  · rfl
  · rename_i hge
    rw [chain_of_length_le (Nat.le_of_not_lt hge)]
    rfl

theorem nodup_nodes {t : HashTable} (h : Ordered t) : (t.nodes.map BucketNode.key).Nodup := by
  -- filtered to one key, the nodes are part of one chain
  rw [List.nodup_iff_count]
  intro k
  have hfilter := filter_nodes h (p := fun n => n.key = k) (i := slot k t.capacity)
    fun n hn => by rw [of_decide_eq_true hn]
  have hcount : ∀ nodes : List BucketNode,
      (nodes.map BucketNode.key).count k = (nodes.filter fun n => n.key = k).length := by
    intro nodes
    rw [List.count, List.countP_map, List.countP_eq_length_filter]
    congr 2
    funext n
    exact Bool.eq_iff_iff.mpr (by simp)
  rw [hcount, hfilter, ← hcount]
  exact List.nodup_iff_count.mp (h.distinct _) k

/-- Over the whole table, a lookup is a search through all nodes. -/
theorem htFind_eq_find? {t : HashTable} (h : Ordered t) (k : Str) :
    htFind t k = t.nodes.find? fun n => n.key = k := by
  have hfilter := filter_nodes h (p := fun n => n.key = k) (i := slot k t.capacity)
    fun n hn => by rw [of_decide_eq_true hn]
  rw [← List.head?_filter, hfilter, List.head?_filter]
  rfl

/-! ## Redistribution keeps the bindings -/

/-- Nodes of distinct unbound keys go to the ends of their chains. -/
theorem chain_foldl_place : ∀ (ns : List BucketNode) (t : HashTable),
    t.buckets.length = t.capacity → 0 < t.capacity → (ns.map BucketNode.key).Nodup →
    (∀ n ∈ ns, ∀ i, ∀ m ∈ t.chain i, m.key ≠ n.key) → ∀ i,
    (ns.foldl place t).chain i =
      t.chain i ++ ns.filter fun n => slot n.key t.capacity = i
  | [], _, _, _, _, _, i => by simp
  | n :: rest, t, hlen, hpos, hnd, hnew, i => by
    obtain ⟨hnot, hrest⟩ := List.nodup_cons.mp hnd
    have hlt : slot n.key t.capacity < t.buckets.length := by
      rw [hlen]; exact Nat.mod_lt _ hpos
    have hchain : ∀ i, (place t n).chain i =
        t.chain i ++ if slot n.key t.capacity = i then [n] else [] := by
      intro i
      rw [place, chain_putAt t n hlt]
      by_cases hi : i = slot n.key t.capacity
      · subst hi
        rw [if_pos rfl, if_pos rfl]
        exact chainPut_of_unbound fun m hm => hnew n (List.mem_cons_self ..) _ m hm
      · rw [if_neg hi, if_neg (Ne.symm hi), List.append_nil]
    have ih := chain_foldl_place rest (place t n) (by rw [place, putAt_length, hlen]; rfl) hpos hrest
      (by
        intro m hm i' m' hm'
        rw [hchain] at hm'
        rcases List.mem_append.mp hm' with hm' | hm'
        · exact hnew m (List.mem_cons_of_mem _ hm) i' m' hm'
        · split at hm'
          · rw [List.mem_singleton.mp hm']
            exact fun h => hnot (List.mem_map.mpr ⟨m, hm, h.symm⟩)
          · simp at hm') i
    rw [List.foldl_cons, ih, hchain, List.append_assoc]
    congr 1
    by_cases hi : slot n.key t.capacity = i
    · rw [if_pos hi, List.filter_cons_of_pos (by simpa using hi)]
      rfl
    · rw [if_neg hi, List.filter_cons_of_neg (by simpa using hi)]
      rfl

theorem chain_emptied (t : HashTable) (capacity i : Nat) : (emptied t capacity).chain i = [] := by
  simp only [HashTable.chain, emptied, List.getElem?_replicate]
  split <;> rfl

/-- Put into empty buckets, nodes of distinct keys keep their order in each. -/
theorem chain_foldl_emptied {ns : List BucketNode} (hkeys : (ns.map BucketNode.key).Nodup)
    (t : HashTable) {capacity : Nat} (hpos : 0 < capacity) (i : Nat) :
    (ns.foldl place (emptied t capacity)).chain i =
      ns.filter fun n => slot n.key capacity = i := by
  rw [chain_foldl_place ns (emptied t capacity) (List.length_replicate ..) hpos hkeys
    (by simp [chain_emptied]), chain_emptied, List.nil_append]
  rfl

theorem chain_rehash {t : HashTable} (h : Ordered t) (hpos : 0 < t.capacity) (i : Nat) :
    (rehash t).chain i = t.nodes.filter fun n => slot n.key (t.capacity * 2) = i :=
  chain_foldl_emptied (nodup_nodes h) t (Nat.mul_pos hpos Nat.two_pos) i

theorem Ordered.rehash {t : HashTable} (h : Ordered t) (hpos : 0 < t.capacity) :
    Ordered (rehash t) := by
  constructor
  · intro i n hn
    rw [chain_rehash h hpos] at hn
    rw [(rehash_bounds t).1]
    exact of_decide_eq_true (List.mem_filter.mp hn).2
  · intro i
    rw [chain_rehash h hpos]
    exact (nodup_nodes h).sublist (List.filter_sublist.map _)

theorem htFind_rehash {t : HashTable} (h : Ordered t) (hpos : 0 < t.capacity) (k : Str) :
    htFind (rehash t) k = htFind t k := by
  rw [htFind, chain_rehash h hpos, (rehash_bounds t).1, htFind_eq_find? h, chainGet,
    List.find?_filter]
  congr 1
  funext n
  by_cases hk : n.key = k
  · simp [hk]
  · simp [hk]

/-! ## The frame of a put -/

theorem Ordered.putAt {t : HashTable} (h : Ordered t) (new : BucketNode)
    (hlt : slot new.key t.capacity < t.buckets.length) :
    Ordered (putAt t (slot new.key t.capacity) new) := by
  constructor
  · intro i n hn
    rw [chain_putAt t new hlt] at hn
    split at hn
    · rename_i hi
      rcases mem_chainPut hn with rfl | hn
      · exact hi.symm
      · exact h.placed i n hn
    · exact h.placed i n hn
  · intro i
    rw [chain_putAt t new hlt]
    split
    · exact nodup_chainPut new (h.distinct i)
    · exact h.distinct i

theorem htFind_putAt_iff {t : HashTable} (h : Ordered t) (new : BucketNode) {hash : Nat} {k' : Str}
    (hne : new.key ≠ k') (hlt : hash < t.buckets.length) :
    htFind (Hashtable.putAt t hash new) k' = htFind t k' ↔
      ¬ (slot k' t.capacity = hash ∧ Behind (t.chain hash) new.key k') := by
  rw [htFind, htFind, putAt_capacity, chain_putAt t new hlt]
  by_cases hs : slot k' t.capacity = hash
  · subst hs
    rw [if_pos rfl]
    by_cases hb : Behind (t.chain (slot k' t.capacity)) new.key k'
    · -- the put cuts the node of `k'` off
      rw [chainGet_put_of_behind hne (h.distinct _) hb]
      obtain ⟨n, hn, hk⟩ := hb.bound
      constructor
      · intro hnone
        exact absurd hk (chainGet_eq_none_iff.mp hnone.symm n hn)
      · intro hno
        exact absurd ⟨rfl, hb⟩ hno
    · rw [chainGet_put_of_not_behind hne hb]
      exact ⟨fun _ hno => hb hno.2, fun _ => rfl⟩
  · rw [if_neg hs]
    exact ⟨fun _ hno => hs hno.1, fun _ => rfl⟩

/-- The put of `k` cuts `k'` off: `k'` stands behind `k` in its chain, and both
are still in that chain after the resize, if there is one. -/
def Hides (t : HashTable) (k k' : Str) : Prop :=
  Behind (t.chain (slot k t.capacity)) k k' ∧
    (loaded t = true → slot k (t.capacity * 2) = slot k t.capacity ∧
      slot k' (t.capacity * 2) = slot k t.capacity)

instance (t : HashTable) (k k' : Str) : Decidable (Hides t k k') :=
  inferInstanceAs (Decidable (_ ∧ (_ → _)))

/-- A call that leaves no node out of place. -/
def StepInPlace (t : HashTable) (op : Op) (t' : HashTable) : Prop :=
  Step t op t' ∧ match op with
    | .put key _ _ => InPlace t key
    | .remove _ => True

theorem slot_of_double (k : Str) {c b : Nat} (hb : b < c) (h : slot k (c * 2) = b) :
    slot k c = b := by
  calc slot k c = slot k (c * 2) % c := (Nat.mod_mul_right_mod _ c 2).symm
    _ = b := by rw [h, Nat.mod_eq_of_lt hb]

theorem Sized.capacity_pos {j : Nat} {t : HashTable} (h : Sized j t) : 0 < t.capacity := by
  rw [h.capacity]; exact Nat.two_pow_pos _

theorem ordered_step {j : Nat} {t t' : HashTable} {op : Op} (hz : Sized j t) (h : Ordered t)
    (hs : StepInPlace t op t') : Ordered t' := by
  have hpos := hz.capacity_pos
  cases op with
  | put key value exported =>
    obtain ⟨⟨hroom, rfl⟩, hin⟩ := hs
    rw [htPut_eq hz hroom]
    by_cases hl : loaded t = true
    · obtain ⟨hcap, hlen, -, -⟩ := rehash_bounds t
      have hslot : slot key t.capacity = slot key (rehash t).capacity := by rw [hcap, hin hl]
      rw [if_pos hl, hslot]
      exact (h.rehash hpos).putAt ⟨key, value, exported⟩
        (by rw [hlen]; exact Nat.mod_lt _ (by omega))
    · rw [if_neg hl]
      exact h.putAt ⟨key, value, exported⟩ (slot_lt hz key)
  | remove key =>
    obtain ⟨n, before, after, hsplit, -, -, hcap, -, -, hchain, -⟩ :=
      htRemove_eq (slot_lt hz key) hs.1.2
    have hsub : ∀ i, (t'.chain i).Sublist (t.chain i) := by
      intro i
      rw [hchain]
      split
      · rename_i hi
        rw [hi, hsplit]
        exact (List.sublist_cons_self n after).append_left before
      · exact List.Sublist.refl _
    constructor
    · intro i m hm
      rw [hcap]
      exact h.placed i m ((hsub i).subset hm)
    · intro i
      exact (h.distinct i).sublist ((hsub i).map _)

theorem ordered_reach {t : HashTable} (h : Runs.Reach htNew StepInPlace t) :
    (∃ j, Sized j t) ∧ Ordered t :=
  h.invariant (I := fun t => (∃ j, Sized j t) ∧ Ordered t) ⟨⟨0, sized_new⟩, ordered_new⟩
    fun _ _ _ hI hs => ⟨sized_step hI.1 hs.1, by
      obtain ⟨⟨_, hz⟩, hord⟩ := hI
      exact ordered_step hz hord hs⟩

theorem htFind_htPut_iff {j : Nat} {t : HashTable} (hz : Sized j t) (h : Ordered t)
    (hroom : Room t) {k k' : Str} (hne : k ≠ k') (value : Str) (exported : Bool) :
    htFind (htPut t k value exported) k' = htFind t k' ↔ ¬ Hides t k k' := by
  have hpos := hz.capacity_pos
  have hlt := slot_lt hz k
  rw [htPut_eq hz hroom]
  by_cases hl : loaded t = true
  · obtain ⟨hcap, hlen, -, -⟩ := rehash_bounds t
    rw [hz.length] at hlt
    rw [if_pos hl, ← htFind_rehash h hpos k',
      htFind_putAt_iff (h.rehash hpos) ⟨k, value, exported⟩ hne (by omega), hcap]
    refine not_congr ?_
    -- the chain after the resize is the old one, filtered
    have hchain : (rehash t).chain (slot k t.capacity) = (t.chain (slot k t.capacity)).filter
        fun n => slot n.key (t.capacity * 2) = slot k t.capacity := by
      rw [chain_rehash h hpos]
      exact filter_nodes h fun n hn => slot_of_double n.key hlt (of_decide_eq_true hn)
    have hbehind : Behind ((rehash t).chain (slot k t.capacity)) k k' ↔
        Behind (t.chain (slot k t.capacity)) k k' ∧
          slot k (t.capacity * 2) = slot k t.capacity ∧
          slot k' (t.capacity * 2) = slot k t.capacity := by
      rw [hchain, behind_filter (p := fun key => slot key (t.capacity * 2) = slot k t.capacity) hne]
      simp only [decide_eq_true_eq]
    rw [hbehind]
    constructor
    · rintro ⟨-, hb, hs⟩; exact ⟨hb, fun _ => hs⟩
    · rintro ⟨hb, hs⟩; exact ⟨(hs hl).2, hb, hs hl⟩
  · rw [if_neg hl, htFind_putAt_iff h ⟨k, value, exported⟩ hne hlt]
    refine not_congr ⟨fun ⟨_, hb⟩ => ⟨hb, fun hl' => absurd hl' hl⟩, fun ⟨hb, _⟩ => ⟨?_, hb⟩⟩
    obtain ⟨n, hn, rfl⟩ := hb.bound
    exact h.placed _ n hn

/-- Both lookups of a key agree exactly when they stop at the same node. -/
theorem lookups_eq_iff (t t' : HashTable) (k : Str) :
    (htGet t' k = htGet t k ∧ htGetExported t' k = htGetExported t k) ↔
      htFind t' k = htFind t k := by
  have hkey : ∀ (t : HashTable) (n : BucketNode), htFind t k = some n → n.key = k := by
    intro t n hn
    simpa using List.find?_some hn
  constructor
  · intro hcond
    obtain ⟨hv, he⟩ := hcond
    unfold htGet at hv
    unfold htGetExported at he
    cases h' : htFind t' k with
    | none => rw [h'] at hv; cases h : htFind t k with
      | none => rfl
      | some n => rw [h] at hv; cases hv
    | some n' => rw [h'] at hv he; cases h : htFind t k with
      | none => rw [h] at hv; cases hv
      | some n =>
        rw [h] at hv he
        obtain ⟨key, value, exported⟩ := n
        obtain ⟨key', value', exported'⟩ := n'
        have hk : key' = key := (hkey t' _ h').trans (hkey t _ h).symm
        have hv' : value' = value := Option.some.inj hv
        have he' : exported' = exported := Option.some.inj he
        rw [hk, hv', he']
  · intro h
    rw [htGet, htGet, htGetExported, htGetExported, h]
    exact ⟨rfl, rfl⟩

/-- **When a put leaves another key alone.** In every table reached by calls that
leave no node out of place, a put keeps both lookups of another key exactly when
it does not cut that key off. -/
theorem htPut_frame_iff {t : HashTable} (h : Runs.Reach htNew StepInPlace t) (hroom : Room t)
    {k k' : Str} (hne : k ≠ k') (value : Str) (exported : Bool) :
    (htGet (htPut t k value exported) k' = htGet t k' ∧
      htGetExported (htPut t k value exported) k' = htGetExported t k') ↔ ¬ Hides t k k' := by
  obtain ⟨⟨j, hz⟩, hord⟩ := ordered_reach h
  rw [lookups_eq_iff]
  exact htFind_htPut_iff hz hord hroom hne value exported

theorem reach_putAll_inPlace (entries : List BucketNode)
    (h : ∀ i (hi : i < entries.length), Room (putAll htNew (entries.take i)) ∧
      InPlace (putAll htNew (entries.take i)) entries[i].key) :
    Runs.Reach htNew StepInPlace (putAll htNew entries) :=
  reach_putAll entries fun i hi => ⟨⟨(h i hi).1, rfl⟩, (h i hi).2⟩

/-- Thirteen letters, the last of which doubles the table, then ba behind a: a put
of a keeps q, which was its neighbour before, and cuts ba off. -/
theorem htPut_frame_iff_resized :
    ∃ t, t = putAll htNew (letters (str "aqbcdeijklmnx") ++ [⟨str "ba", str "1", true⟩]) ∧
      (htGet (htPut t (str "a") (str "2") false) (str "q") = htGet t (str "q") ∧
        htGetExported (htPut t (str "a") (str "2") false) (str "q") = htGetExported t (str "q")) ∧
      ¬ (htGet (htPut t (str "a") (str "2") false) (str "ba") = htGet t (str "ba") ∧
        htGetExported (htPut t (str "a") (str "2") false) (str "ba") =
          htGetExported t (str "ba")) := by
  have hreach : Runs.Reach htNew StepInPlace
      (putAll htNew (letters (str "aqbcdeijklmnx") ++ [⟨str "ba", str "1", true⟩])) :=
    reach_putAll_inPlace _ (by decide +kernel)
  have hroom : Room (putAll htNew (letters (str "aqbcdeijklmnx") ++ [⟨str "ba", str "1", true⟩])) := by
    decide +kernel
  refine ⟨_, rfl, ?_, ?_⟩
  · exact (htPut_frame_iff hreach hroom (by decide) (str "2") false).mpr (by decide +kernel)
  · exact mt (htPut_frame_iff hreach hroom (by decide) (str "2") false).mp (by decide +kernel)

/-- Keys a and q share bucket 12: assigning a, q and a again loses q. -/
theorem overwrite_drops_neighbour :
    ∃ t, Runs.Reach htNew StepInPlace t ∧ Room t ∧ htGet t [113] = some [50] ∧
      htGet (htPut t [97] [51] false) [113] = none := by
  refine ⟨htPut (htPut htNew [97] [49] false) [113] [50] false, ?_, ?_, ?_, ?_⟩
  · have h1 : Runs.Reach htNew StepInPlace (htPut htNew [97] [49] false) :=
      .next .start (a := .put [97] [49] false) ⟨⟨by decide, rfl⟩, by decide⟩
    exact .next h1 (a := .put [113] [50] false) ⟨⟨by decide +kernel, rfl⟩, by decide +kernel⟩
  · decide +kernel
  · decide +kernel
  · decide +kernel

end Shell.Hashtable
