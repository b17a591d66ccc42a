import Shell.HashtableEntryset
import Shell.HashtableRemove
import Shell.HashtableResize

/-! # The exported variables of a child (fork_exported in vars.c)

`fork_exported` puts the exported entries into a new table, one by one. Which put
resizes depends on their number alone. No node is lost on the way, but the put that
makes the last resize may leave its own node in a bucket that no lookup searches. -/
namespace Shell.Hashtable
open Shell.CTypes Shell.Lib Shell.Lib.LinkedList

/-! ## vars.c -/

def varAssign (t : HashTable) (name value : Str) : HashTable := htPut t name value false

def varExport (t : HashTable) (name value : Str) : HashTable := htPut t name value true

def varUnassign (t : HashTable) (name : Str) : Option (Bool × HashTable) :=
  if htContains t name then (htRemove t name).map fun t' => (true, t') else some (false, t)

inductive VarOp where
  | varAssign (name value : Str)
  | varExport (name value : Str)
  | varUnassign (name : Str)

/-- A call on the variable table that returns. -/
def VarCall (t : HashTable) : VarOp → HashTable → Prop
  | .varAssign name value, t' => t' = varAssign t name value
  | .varExport name value, t' => t' = varExport t name value
  | .varUnassign name, t' => ∃ result, varUnassign t name = some (result, t')

/-- One entry of the old table. -/
def forkPut (varCopy : HashTable) (node : Item) : HashTable :=
  if node.exported then htPut varCopy node.key node.value node.exported else varCopy

/-- The loop of `fork_exported`; `none` on a null node, or when the fuel runs out. -/
def forkLoop (items : Heap Item) : Nat → ItemList → HashTable → Option HashTable
  | 0, _, _ => none
  | fuel + 1, oldSet, varCopy => match oldSet.head with
    | none => some varCopy
    | some _ => do
      let (node, oldSet) ← ilPull items oldSet
      let cell ← items[← node]?
      forkLoop items fuel oldSet (forkPut varCopy cell.item)

def forkExported (m : Memory) : Option Memory := do
  let (m, oldSet) ← htEntryset m
  let varCopy ← forkLoop m.items (oldSet.size + 1) oldSet htNew
  return { m with table := varCopy }

/-- The exported names have their values and are exported, and no other is bound. -/
def ForkKeeps (t t' : HashTable) : Prop :=
  ∀ name, if htGetExported t name = some true
    then htGet t' name = htGet t name ∧ htGetExported t' name = some true
    else htContains t' name = false

/-! ## What a refill does, by the number of its puts -/

/-- The load test on the two numbers that it looks at. -/
def full (size capacity : Nat) : Bool := loaded { size := size, capacity := capacity, buckets := [] }

/-- Size and capacity of a new table after `n` puts of different names. -/
def growth : Nat → Nat × Nat
  | 0 => (0, defaultInitialCapacity)
  | n + 1 => match growth n with
    | (size, capacity) =>
      if full size capacity then (size + n + 1, capacity * 2) else (size + 1, capacity)

/-- The put behind `n` others resizes. -/
def resizes (n : Nat) : Bool := full (growth n).1 (growth n).2

/-- Which of `n` puts makes the last resize. -/
def lastResize : Nat → Option Nat
  | 0 => none
  | n + 1 => if resizes n then some n else lastResize n

/-- The key that is left in the bucket of its index before the last resize. -/
def displaced (ns : List BucketNode) : Option Str := do
  let i ← lastResize ns.length
  let n ← ns[i]?
  if slot n.key ((growth i).2 * 2) = slot n.key (growth i).2 then none else some n.key

/-- Every resize of the refill is granted, and the last one displaces no key. -/
def Refills (ns : List BucketNode) : Prop :=
  (∀ i < ns.length, resizes i = true → (growth i).2 * 2 < maxCapacity) ∧ displaced ns = none

instance (ns : List BucketNode) : Decidable (Refills ns) :=
  have : Decidable (∀ i < ns.length, resizes i = true → (growth i).2 * 2 < maxCapacity) :=
    Nat.decidableBallLT _ _
  inferInstanceAs (Decidable (_ ∧ _))

/-- The exported nodes, in the order of the entry set. -/
def exportedNodes (t : HashTable) : List BucketNode := t.nodes.filter BucketNode.exported

/-- Every exported node is in the bucket that its key hashes to. -/
def ExportedPlaced (t : HashTable) : Prop :=
  ∀ i, ∀ n ∈ t.chain i, n.exported = true → slot n.key t.capacity = i

/-! ## Nodes of different keys -/

theorem flatMap_modify_perm {new : BucketNode} :
    ∀ {buckets : List BucketList} {i : Nat} {b : BucketList}, buckets[i]? = some b →
      (∀ n ∈ b.nodes, n.key ≠ new.key) →
      ((buckets.modify i fun b => { b with nodes := chainPut new b.nodes }).flatMap
        BucketList.nodes).Perm (new :: buckets.flatMap BucketList.nodes)
  | b' :: rest, 0, b, hb, hnew => by
    obtain rfl := Option.some.inj hb
    simp only [List.modify_zero_cons, List.flatMap_cons, chainPut_of_unbound hnew, List.append_assoc]
    exact List.perm_middle
  | b' :: rest, i + 1, b, hb, hnew => by
    have ih := @flatMap_modify_perm new rest i b hb hnew
    simp only [List.modify_succ_cons, List.flatMap_cons]
    exact (ih.append_left b'.nodes).trans List.perm_middle

theorem nodes_putAt_perm {t : HashTable} {new : BucketNode} {hash : Nat}
    (hlt : hash < t.buckets.length) (hnew : new.key ∉ t.nodes.map BucketNode.key) :
    (putAt t hash new).nodes.Perm (new :: t.nodes) := by
  refine flatMap_modify_perm (List.getElem?_eq_getElem hlt) fun n hn hkey => hnew ?_
  have hmem : n ∈ t.nodes := List.mem_flatMap.mpr ⟨_, List.getElem_mem hlt, hn⟩
  exact hkey ▸ List.mem_map_of_mem hmem

theorem nodes_foldl_place_perm : ∀ (ns : List BucketNode) {t : HashTable},
    t.buckets.length = t.capacity → 0 < t.capacity →
    ((t.nodes ++ ns).map BucketNode.key).Nodup → (ns.foldl place t).nodes.Perm (t.nodes ++ ns)
  | [], t, _, _, _ => by rw [List.foldl_nil, List.append_nil]
  | n :: rest, t, hlen, hpos, hkeys => by
    have hlt : slot n.key t.capacity < t.buckets.length := by rw [hlen]; exact Nat.mod_lt _ hpos
    have hmiddle : (t.nodes ++ n :: rest).Perm (n :: t.nodes ++ rest) := List.perm_middle
    have hkeys' := (hmiddle.map BucketNode.key).nodup_iff.mp hkeys
    have hnew : n.key ∉ t.nodes.map BucketNode.key := by
      intro hmem
      obtain ⟨m, hm, hkey⟩ := List.mem_map.mp hmem
      have hfront : m ∈ t.nodes ++ rest := List.mem_append_left _ hm
      exact (List.nodup_cons.mp hkeys').1 (hkey ▸ List.mem_map_of_mem hfront)
    have hput := nodes_putAt_perm hlt hnew
    have ih := nodes_foldl_place_perm rest (t := place t n) (by rw [place, putAt_length, hlen]; rfl)
      hpos ((((hput.append_right rest).map BucketNode.key).nodup_iff).mpr hkeys')
    exact ih.trans ((hput.append_right rest).trans hmiddle.symm)

theorem nodes_rehash_perm {t : HashTable} (hpos : 0 < t.capacity)
    (hkeys : (t.nodes.map BucketNode.key).Nodup) : (rehash t).nodes.Perm t.nodes := by
  have hnil := emptied_nodes t (t.capacity * 2)
  have hperm := nodes_foldl_place_perm t.nodes (t := emptied t (t.capacity * 2))
    (List.length_replicate ..) (Nat.mul_pos hpos Nat.two_pos) (by rwa [hnil, List.nil_append])
  rwa [hnil, List.nil_append] at hperm

theorem mem_nodes_iff {t : HashTable} {n : BucketNode} : n ∈ t.nodes ↔ ∃ i, n ∈ t.chain i := by
  constructor
  · intro hn
    rw [nodes_eq_chains] at hn
    obtain ⟨i, -, hi⟩ := List.mem_flatMap.mp hn
    exact ⟨i, hi⟩
  · intro hn
    obtain ⟨i, hi⟩ := hn
    exact (chain_sublist_nodes t i).subset hi

/-! ## Counting -/

theorem full_eq (t : HashTable) : full t.size t.capacity = loaded t := loaded_congr rfl rfl

theorem growth_succ (n : Nat) :
    growth (n + 1) = if resizes n = true then ((growth n).1 + n + 1, (growth n).2 * 2)
      else ((growth n).1 + 1, (growth n).2) := rfl

theorem lastResize_lt {n i : Nat} (h : lastResize n = some i) : i < n := by
  induction n with
  | zero => cases h
  | succ n ih =>
    rw [lastResize] at h
    split at h
    · obtain rfl := Option.some.inj h
      exact Nat.lt_succ_self _
    · exact (ih h).trans (Nat.lt_succ_self n)

theorem displaced_append (ns : List BucketNode) (n : BucketNode) :
    displaced (ns ++ [n]) = if resizes ns.length = true then
      if slot n.key ((growth ns.length).2 * 2) = slot n.key (growth ns.length).2 then none
      else some n.key
    else displaced ns := by
  unfold displaced
  rw [List.length_append, List.length_singleton, lastResize]
  by_cases hresize : resizes ns.length = true
  · rw [if_pos hresize, if_pos hresize]
    simp
  · rw [if_neg hresize, if_neg hresize]
    cases hlast : lastResize ns.length with
    | none => rfl
    | some i =>
      simp only [Option.bind_eq_bind, Option.bind_some, List.getElem?_append_left (lastResize_lt hlast)]

theorem displaced_mem {ns : List BucketNode} {k : Str} (h : displaced ns = some k) :
    k ∈ ns.map BucketNode.key := by
  obtain ⟨i, -, h⟩ := Option.bind_eq_some_iff.mp h
  obtain ⟨n, hn, h⟩ := Option.bind_eq_some_iff.mp h
  split at h
  · cases h
  · obtain rfl := Option.some.inj h
    exact List.mem_map_of_mem (List.mem_of_getElem? hn)

/-! ## The refill -/

/-- The table holds the nodes, each in the bucket of its key but for a displaced one. -/
structure Filled (t : HashTable) (ns : List BucketNode) : Prop where
  sized : ∃ j, Sized j t
  grown : (t.size, t.capacity) = growth ns.length
  nodes : t.nodes.Perm ns
  placed : ∀ i, ∀ n ∈ t.chain i, slot n.key t.capacity = i ↔ displaced ns ≠ some n.key

theorem filled_new : Filled htNew [] :=
  ⟨⟨0, sized_new⟩, rfl, by rfl, fun i n hn => by rw [chain_new] at hn; cases hn⟩

variable {t : HashTable} {ns : List BucketNode} {n : BucketNode}

theorem Filled.size_eq (h : Filled t ns) : t.size = (growth ns.length).1 := congrArg Prod.fst h.grown

theorem Filled.capacity_eq (h : Filled t ns) : t.capacity = (growth ns.length).2 :=
  congrArg Prod.snd h.grown

theorem Filled.loaded_iff (h : Filled t ns) : loaded t = resizes ns.length := by
  rw [← full_eq, h.size_eq, h.capacity_eq, resizes]

theorem Filled.unbound (h : Filled t ns) (hnew : n.key ∉ ns.map BucketNode.key) (i : Nat) :
    ∀ m ∈ t.chain i, m.key ≠ n.key := by
  intro m hm hkey
  have hmem : m ∈ ns := h.nodes.subset ((chain_sublist_nodes t i).subset hm)
  exact hnew (hkey ▸ List.mem_map_of_mem hmem)

/-- A put that does not resize puts its node in place. -/
theorem Filled.place (h : Filled t ns) (hresize : ¬ resizes ns.length = true)
    (hnew : n.key ∉ ns.map BucketNode.key) :
    Filled (htPut t n.key n.value n.exported) (ns ++ [n]) := by
  obtain ⟨j, hz⟩ := h.sized
  have hl : ¬ loaded t = true := h.loaded_iff ▸ hresize
  have hlt := slot_lt hz n.key
  have hput : htPut t n.key n.value n.exported = Hashtable.place t n := htPut_of_not_loaded hl ..
  have hperm : (Hashtable.place t n).nodes.Perm (n :: t.nodes) :=
    nodes_putAt_perm hlt fun hmem => hnew ((h.nodes.map BucketNode.key).subset hmem)
  rw [hput]
  refine ⟨⟨_, hput ▸ hz.put (fun hload => absurd hload hl) n.key n.value n.exported⟩, ?_, ?_, ?_⟩
  · rw [List.length_append, List.length_singleton, growth_succ, if_neg hresize, ← h.size_eq,
      ← h.capacity_eq]
    rfl
  · exact hperm.trans ((h.nodes.cons n).trans (List.perm_append_singleton n ns).symm)
  · intro i m hm
    rw [displaced_append, if_neg hresize]
    rw [Hashtable.place, chain_putAt t n hlt, chainPut_of_unbound (h.unbound hnew i)] at hm
    split at hm
    · rename_i hi
      rcases List.mem_append.mp hm with hold | hadded
      · exact h.placed i m hold
      · obtain rfl := List.mem_singleton.mp hadded
        exact iff_of_true hi.symm fun hdisplaced => hnew (displaced_mem hdisplaced)
    · exact h.placed i m hm

/-- A put that resizes puts the others in place, and its own node where its key hashed to. -/
theorem Filled.resize (h : Filled t ns) (hresize : resizes ns.length = true)
    (hroom : (growth ns.length).2 * 2 < maxCapacity) (hkeys : (ns.map BucketNode.key).Nodup)
    (hnew : n.key ∉ ns.map BucketNode.key) :
    Filled (htPut t n.key n.value n.exported) (ns ++ [n]) := by
  obtain ⟨j, hz⟩ := h.sized
  have hl : loaded t = true := h.loaded_iff.trans hresize
  have hgranted : Room t := fun _ => by rw [h.capacity_eq]; exact hroom
  have hpos := hz.capacity_pos
  have hkeys' := (h.nodes.map BucketNode.key).nodup_iff.mpr hkeys
  have hrehash := nodes_rehash_perm hpos hkeys'
  obtain ⟨hcap, hlen, -, hsize⟩ := rehash_bounds t
  have hlt : slot n.key t.capacity < (rehash t).buckets.length := by
    have := slot_lt hz n.key
    rw [hz.length] at this
    omega
  have hput : htPut t n.key n.value n.exported = putAt (rehash t) (slot n.key t.capacity) n := by
    rw [htPut_eq hz hgranted, if_pos hl]
  have hunbound : ∀ i, ∀ m ∈ (rehash t).chain i, m.key ≠ n.key := by
    intro i m hm hkey
    have hmem := (hrehash.trans h.nodes).subset ((chain_sublist_nodes _ i).subset hm)
    exact hnew (hkey ▸ List.mem_map_of_mem hmem)
  rw [hput]
  refine ⟨⟨_, hput ▸ hz.put hgranted n.key n.value n.exported⟩, ?_, ?_, ?_⟩
  · rw [List.length_append, List.length_singleton, growth_succ, if_pos hresize, ← h.size_eq,
      ← h.capacity_eq, putAt_size, putAt_capacity, hsize, hcap, h.nodes.length_eq]
  · have hperm : (putAt (rehash t) (slot n.key t.capacity) n).nodes.Perm (n :: (rehash t).nodes) :=
      nodes_putAt_perm hlt fun hmem =>
        hnew (((hrehash.trans h.nodes).map BucketNode.key).subset hmem)
    exact hperm.trans (((hrehash.trans h.nodes).cons n).trans (List.perm_append_singleton n ns).symm)
  · intro i m hm
    rw [displaced_append, if_pos hresize, putAt_capacity, hcap, ← h.capacity_eq]
    rw [chain_putAt _ n hlt, chainPut_of_unbound (hunbound i)] at hm
    have hold : m ∈ (rehash t).chain i → (slot m.key (t.capacity * 2) = i ↔
        (if slot n.key (t.capacity * 2) = slot n.key t.capacity then none else some n.key) ≠
          some m.key) := by
      intro hmem
      have hplace : slot m.key (t.capacity * 2) = i := by
        rw [rehash, chain_foldl_emptied hkeys' t (Nat.mul_pos hpos Nat.two_pos)] at hmem
        exact of_decide_eq_true (List.mem_filter.mp hmem).2
      refine iff_of_true hplace ?_
      split
      · exact Option.some_ne_none _ |>.symm
      · exact fun hkey => hunbound i m hmem (Option.some.inj hkey).symm
    split at hm
    · rename_i hi
      rcases List.mem_append.mp hm with hmem | hadded
      · exact hold hmem
      · obtain rfl := List.mem_singleton.mp hadded
        rw [hi]
        by_cases hsame : slot m.key (t.capacity * 2) = slot m.key t.capacity
        · rw [if_pos hsame]
          exact iff_of_true hsame (Option.some_ne_none _).symm
        · rw [if_neg hsame]
          exact iff_of_false hsame fun hne => hne rfl
    · exact hold hm

theorem putAll_append (t : HashTable) (front back : List BucketNode) :
    putAll t (front ++ back) = putAll (putAll t front) back := List.foldl_append

theorem nodup_front {n : BucketNode} {ns : List BucketNode}
    (hkeys : ((ns ++ [n]).map BucketNode.key).Nodup) :
    (ns.map BucketNode.key).Nodup ∧ n.key ∉ ns.map BucketNode.key := by
  rw [List.map_append, List.map_singleton, ← List.concat_eq_append] at hkeys
  obtain ⟨hnew, hfront⟩ := (List.nodup_concat _ _).mp hkeys
  exact ⟨hfront, hnew⟩

/-- While every resize is granted, nodes of different keys are all there. -/
theorem filled_putAll (ns : List BucketNode) (hkeys : (ns.map BucketNode.key).Nodup)
    (hroom : ∀ i < ns.length, resizes i = true → (growth i).2 * 2 < maxCapacity) :
    Filled (putAll htNew ns) ns := by
  induction ns using List.reverseRecOn with
  | nil => exact filled_new
  | append_singleton ns n ih =>
    obtain ⟨hfront, hnew⟩ := nodup_front hkeys
    rw [List.length_append, List.length_singleton] at hroom
    have hfilled := ih hfront fun i hi => hroom i (Nat.lt_succ_of_lt hi)
    rw [putAll_append]
    by_cases hresize : resizes ns.length = true
    · exact hfilled.resize hresize (hroom _ (Nat.lt_succ_self _) hresize) hfront hnew
    · exact hfilled.place hresize hnew

/-- Once a resize is refused, every put is. -/
theorem putAll_refused (ns : List BucketNode) {t : HashTable} (hl : loaded t = true)
    (hmax : maxCapacity ≤ t.capacity * 2) : putAll t ns = t := by
  induction ns with
  | nil => rfl
  | cons n rest ih =>
    have hput : putAll t (n :: rest) = putAll (htPut t n.key n.value n.exported) rest := rfl
    rw [hput, htPut_refused hl hmax, ih]

/-! ## Lookups -/

theorem chainGet_of_mem : ∀ {nodes : List BucketNode}, (nodes.map BucketNode.key).Nodup →
    n ∈ nodes → chainGet nodes n.key = some n
  | m :: rest, hkeys, hn => by
    obtain ⟨hnot, hrest⟩ := List.nodup_cons.mp hkeys
    rcases List.mem_cons.mp hn with rfl | hn
    · exact chainGet_cons_self rfl
    · have hne : m.key ≠ n.key := fun hkey => hnot (hkey ▸ List.mem_map_of_mem hn)
      rw [chainGet_cons_ne hne, chainGet_of_mem hrest hn]

theorem Filled.htFind_of_mem (h : Filled t ns) (hkeys : (ns.map BucketNode.key).Nodup)
    (hn : n ∈ ns) :
    htFind t n.key = if displaced ns = some n.key then none else some n := by
  obtain ⟨i, hi⟩ := mem_nodes_iff.mp (h.nodes.symm.subset hn)
  by_cases hdisplaced : displaced ns = some n.key
  · rw [if_pos hdisplaced, htFind, chainGet_eq_none_iff]
    intro m hm hkey
    exact (h.placed _ m hm).mp (by rw [hkey]) (by rw [hkey, hdisplaced])
  · have hslot := (h.placed i n hi).mpr hdisplaced
    have hchain : ((t.chain i).map BucketNode.key).Nodup :=
      ((h.nodes.map BucketNode.key).nodup_iff.mpr hkeys).sublist ((chain_sublist_nodes t i).map _)
    rw [if_neg hdisplaced, htFind, hslot]
    exact chainGet_of_mem hchain hi

theorem Filled.htFind_of_not_mem (h : Filled t ns) {name : Str}
    (hname : name ∉ ns.map BucketNode.key) : htFind t name = none := by
  rw [htFind, chainGet_eq_none_iff]
  exact h.unbound (n := ⟨name, [], false⟩) hname _

/-- The first put whose resize is refused loses its node. -/
theorem exists_lost (hkeys : (ns.map BucketNode.key).Nodup)
    (hroom : ¬ ∀ i < ns.length, resizes i = true → (growth i).2 * 2 < maxCapacity) :
    ∃ n ∈ ns, htFind (putAll htNew ns) n.key = none := by
  have hex : ∃ i, i < ns.length ∧ resizes i = true ∧ maxCapacity ≤ (growth i).2 * 2 := by
    push Not at hroom
    exact hroom
  obtain ⟨hlt, hresize, hmax⟩ := Nat.find_spec hex
  have hfirst := fun i' => Nat.find_min (H := hex) (m := i')
  generalize Nat.find hex = i at hlt hresize hmax hfirst
  have hlength : (ns.take i).length = i := List.length_take_of_le hlt.le
  have hsplit : ns.take i ++ ns[i] :: ns.drop (i + 1) = ns := by
    rw [List.getElem_cons_drop, List.take_append_drop]
  have hfilled := filled_putAll (ns.take i) (hkeys.sublist ((List.take_sublist i _).map _)) (by
    intro i' hi' hresize'
    rw [hlength] at hi'
    exact Nat.lt_of_not_le fun hge => hfirst i' hi' ⟨hi'.trans hlt, hresize', hge⟩)
  have hend : putAll htNew ns = putAll htNew (ns.take i) := by
    have hl : loaded (putAll htNew (ns.take i)) = true := by
      rw [hfilled.loaded_iff, hlength, hresize]
    have hfull : maxCapacity ≤ (putAll htNew (ns.take i)).capacity * 2 := by
      rwa [hfilled.capacity_eq, hlength]
    calc putAll htNew ns = putAll htNew (ns.take i ++ ns[i] :: ns.drop (i + 1)) := by rw [hsplit]
      _ = putAll htNew (ns.take i) := by rw [putAll_append, putAll_refused _ hl hfull]
  refine ⟨ns[i], List.getElem_mem hlt, ?_⟩
  rw [hend]
  refine hfilled.htFind_of_not_mem fun hmem => ?_
  rw [← hsplit, List.map_append, List.map_cons] at hkeys
  exact (List.nodup_append.mp hkeys).2.2 _ hmem _ List.mem_cons_self rfl

/-! ## The old table -/

theorem reach_call (h : Runs.Reach htNew VarCall t) : Runs.Reach htNew Call t := by
  induction h with
  | start => exact .start
  | @next s t op _ hcall ih =>
    cases op with
    | varAssign name value => exact .next ih (a := .put name value false) hcall
    | varExport name value => exact .next ih (a := .put name value true) hcall
    | varUnassign name =>
      obtain ⟨result, hcall⟩ := hcall
      unfold varUnassign at hcall
      split at hcall
      · obtain ⟨t', hremove, heq⟩ := Option.map_eq_some_iff.mp hcall
        obtain rfl := congrArg Prod.snd heq
        exact .next ih (a := .remove name) hremove
      · obtain rfl := congrArg Prod.snd (Option.some.inj hcall)
        exact ih

/-- The table without the nodes that are not exported. -/
def exportedPart (t : HashTable) : HashTable :=
  { t with buckets := t.buckets.map fun b => { b with nodes := b.nodes.filter BucketNode.exported } }

theorem nodes_exportedPart (t : HashTable) : (exportedPart t).nodes = exportedNodes t := by
  rw [HashTable.nodes, exportedPart, List.flatMap_map, exportedNodes, HashTable.nodes,
    List.filter_flatMap]

theorem chain_exportedPart (t : HashTable) (i : Nat) :
    (exportedPart t).chain i = (t.chain i).filter BucketNode.exported := by
  simp only [HashTable.chain, exportedPart, List.getElem?_map]
  cases t.buckets[i]? with
  | none => rfl
  | some b => rfl

theorem ordered_exportedPart (hchains : ∀ i, ((t.chain i).map BucketNode.key).Nodup)
    (hplaced : ExportedPlaced t) : Ordered (exportedPart t) := by
  constructor
  · intro i n hn
    rw [chain_exportedPart] at hn
    obtain ⟨hmem, hexported⟩ := List.mem_filter.mp hn
    exact hplaced i n hmem hexported
  · intro i
    rw [chain_exportedPart]
    exact (hchains i).sublist (List.filter_sublist.map _)

theorem htFind_of_exported (hchains : ∀ i, ((t.chain i).map BucketNode.key).Nodup)
    (hplaced : ExportedPlaced t) (hn : n ∈ exportedNodes t) : htFind t n.key = some n := by
  obtain ⟨hmem, hexported⟩ := List.mem_filter.mp hn
  obtain ⟨i, hi⟩ := mem_nodes_iff.mp hmem
  rw [htFind, hplaced i n hi hexported]
  exact chainGet_of_mem (hchains i) hi

theorem htGetExported_of_exported (hchains : ∀ i, ((t.chain i).map BucketNode.key).Nodup)
    (hplaced : ExportedPlaced t) (hn : n ∈ exportedNodes t) :
    htGetExported t n.key = some true := by
  rw [htGetExported, htFind_of_exported hchains hplaced hn]
  exact congrArg some (List.mem_filter.mp hn).2

theorem exists_of_htGetExported {name : Str} (h : htGetExported t name = some true) :
    ∃ n ∈ exportedNodes t, n.key = name := by
  obtain ⟨n, hn, hexported⟩ := Option.map_eq_some_iff.mp h
  have hmem : n ∈ t.chain (slot name t.capacity) := List.mem_of_find?_eq_some hn
  have hkey : n.key = name := by simpa using List.find?_some hn
  exact ⟨n, List.mem_filter.mpr ⟨(chain_sublist_nodes t _).subset hmem, hexported⟩, hkey⟩

/-! ## The new table -/

theorem ForkKeeps.found {t' : HashTable} {name : Str} (h : ForkKeeps t t')
    (hexported : htGetExported t name = some true) : htFind t' name ≠ none := by
  intro hnone
  have hname := h name
  rw [if_pos hexported, htGetExported, hnone] at hname
  cases hname.2

theorem forkKeeps_of_found {t' : HashTable} (hchains : ∀ i, ((t.chain i).map BucketNode.key).Nodup)
    (hplaced : ExportedPlaced t) (hfound : ∀ n ∈ exportedNodes t, htFind t' n.key = some n)
    (hother : ∀ name, name ∉ (exportedNodes t).map BucketNode.key → htFind t' name = none) :
    ForkKeeps t t' := by
  intro name
  split
  · rename_i hexported
    obtain ⟨n, hn, rfl⟩ := exists_of_htGetExported hexported
    have hold := htFind_of_exported hchains hplaced hn
    rw [((lookups_eq_iff t t' n.key).mpr ((hfound n hn).trans hold.symm)).1,
      htGetExported, hfound n hn]
    exact ⟨rfl, congrArg some (List.mem_filter.mp hn).2⟩
  · rename_i hnot
    have hname : name ∉ (exportedNodes t).map BucketNode.key := by
      intro hmem
      obtain ⟨n, hn, rfl⟩ := List.mem_map.mp hmem
      exact hnot (htGetExported_of_exported hchains hplaced hn)
    rw [htContains, htGet, hother name hname]
    rfl

theorem forkKeeps_putAll_iff (hchains : ∀ i, ((t.chain i).map BucketNode.key).Nodup)
    (hplaced : ExportedPlaced t) :
    ForkKeeps t (putAll htNew (exportedNodes t)) ↔ Refills (exportedNodes t) := by
  have hkeys : ((exportedNodes t).map BucketNode.key).Nodup := by
    rw [← nodes_exportedPart]
    exact nodup_nodes (ordered_exportedPart hchains hplaced)
  constructor
  · intro hkeeps
    have hroom : ∀ i < (exportedNodes t).length,
        resizes i = true → (growth i).2 * 2 < maxCapacity := by
      by_contra hrefused
      obtain ⟨n, hn, hlost⟩ := exists_lost hkeys hrefused
      exact hkeeps.found (htGetExported_of_exported hchains hplaced hn) hlost
    refine ⟨hroom, ?_⟩
    cases hdisplaced : displaced (exportedNodes t) with
    | none => rfl
    | some k =>
      obtain ⟨n, hn, rfl⟩ := List.mem_map.mp (displaced_mem hdisplaced)
      have hlost := (filled_putAll _ hkeys hroom).htFind_of_mem hkeys hn
      rw [if_pos hdisplaced] at hlost
      exact absurd hlost (hkeeps.found (htGetExported_of_exported hchains hplaced hn))
  · intro hrefills
    have hfilled := filled_putAll _ hkeys hrefills.1
    refine forkKeeps_of_found hchains hplaced ?_ fun name => hfilled.htFind_of_not_mem
    intro n hn
    rw [hfilled.htFind_of_mem hkeys hn, hrefills.2, if_neg (Option.some_ne_none _).symm]

/-! ## The fork -/

/-- The loop puts what the list holds, first to last. -/
theorem forkLoop_holds {items : Heap Item} {fuel : Nat} {list : ItemList}
    {cells : List (Nat × Item)} (h : Holds items list cells) (hfuel : cells.length < fuel)
    (varCopy : HashTable) :
    forkLoop items fuel list varCopy = some ((cells.map Prod.snd).foldl forkPut varCopy) := by
  induction fuel generalizing list cells varCopy with
  | zero => cases hfuel
  | succ fuel ih =>
    cases cells with
    | nil =>
      have hhead : list.head = none := h.chain
      rw [forkLoop, hhead]
      rfl
    | cons cell rest =>
      obtain ⟨next, hpull, hnext, hitem⟩ := ilPull_cons h
      obtain ⟨c, hc, hcell⟩ := Option.map_eq_some_iff.mp hitem
      have hhead : list.head = some cell.1 := h.chain.1
      rw [forkLoop, hhead]
      simp only [hpull, Option.bind_eq_bind, Option.bind_some, hc, hcell]
      exact ih hnext (Nat.lt_of_succ_lt_succ hfuel) _

theorem foldl_forkPut (ns : List BucketNode) (varCopy : HashTable) :
    (ns.map fromNode).foldl forkPut varCopy = putAll varCopy (ns.filter BucketNode.exported) := by
  induction ns generalizing varCopy with
  | nil => rfl
  | cons n rest ih =>
    rw [List.map_cons, List.foldl_cons, ih, forkPut]
    by_cases hexported : n.exported = true
    · rw [List.filter_cons_of_pos hexported]
      exact congrArg (putAll · _) (if_pos hexported)
    · rw [List.filter_cons_of_neg hexported]
      exact congrArg (putAll · _) (if_neg hexported)

theorem forkExported_eq (items : Heap Item) (hlen : t.buckets.length = t.capacity) :
    ∃ items', forkExported { table := t, items := items } =
      some { table := putAll htNew (exportedNodes t), items := items' } := by
  obtain ⟨items', list, cells, hset, hbuilt, hcells⟩ :=
    htEntryset_built { table := t, items := items }
  have hnodes : cells.map Prod.snd = t.nodes.map fromNode := by
    rw [hcells, entries, nodes_eq_chains, hlen, List.map_flatMap]
  have hsize := hbuilt.holds.size
  have hfuel : cells.length < list.size + 1 := by omega
  have hloop := forkLoop_holds hbuilt.holds hfuel htNew
  rw [hnodes, foldl_forkPut] at hloop
  refine ⟨items', ?_⟩
  simp only [forkExported, hset, Option.bind_eq_bind, Option.bind_some, hloop]
  rfl

/-- **When a fork keeps the exported variables.** In a table reached by assignments,
exports and removals that has its exported nodes in place, it does exactly when the
refill of the new table is granted its resizes and its last one displaces no key. -/
theorem forkExported_keeps_iff (h : Runs.Reach htNew VarCall t) (hplaced : ExportedPlaced t)
    (items : Heap Item) :
    ∃ m, forkExported { table := t, items := items } = some m ∧
      (ForkKeeps t m.table ↔ Refills (exportedNodes t)) := by
  obtain ⟨⟨j, hz⟩, hlinked⟩ := linked_calls (reach_call h)
  have hchains : ∀ i, ((t.chain i).map BucketNode.key).Nodup := fun i => (linked_bucket hlinked i).1
  obtain ⟨items', hfork⟩ := forkExported_eq items hz.length
  exact ⟨_, hfork, forkKeeps_putAll_iff hchains hplaced⟩

/-- The first twelve puts do not resize. -/
theorem refills_of_length_le (h : ns.length ≤ 12) : Refills ns := by
  have hquiet : ∀ i < 12, ¬ resizes i = true := by decide +kernel
  have hlast : lastResize ns.length = none := by
    have hall : ∀ n ≤ 12, lastResize n = none := by decide +kernel
    exact hall _ h
  refine ⟨fun i hi hresize => absurd hresize (hquiet i (by omega)), ?_⟩
  rw [displaced, hlast]
  rfl

/-- Assignments and exports reach every table of puts. -/
theorem reach_varCalls (entries : List BucketNode) :
    Runs.Reach htNew VarCall (putAll htNew entries) := by
  induction entries using List.reverseRecOn with
  | nil => exact .start
  | append_singleton entries n ih =>
    obtain ⟨key, value, exported⟩ := n
    rw [putAll, List.foldl_append]
    cases exported with
    | false => exact .next ih (a := .varAssign key value) rfl
    | true => exact .next ih (a := .varExport key value) rfl

/-- Thirteen exported variables and q, which stands behind a until the thirteenth
put: the refill resizes too, and its last put stays in place. -/
theorem forkExported_keeps_thirteen :
    ∃ t m, t = putAll htNew (⟨str "a", str "1", true⟩ :: ⟨str "q", str "1", false⟩ ::
        letters (str "begiklpstzvx")) ∧
      forkExported { table := t, items := [] } = some m ∧ ForkKeeps t m.table := by
  have hplaced := (ordered_reach (reach_putAll_inPlace (⟨str "a", str "1", true⟩ ::
    ⟨str "q", str "1", false⟩ :: letters (str "begiklpstzvx")) (by decide +kernel))).2.placed
  have hrefills : Refills (exportedNodes (putAll htNew (⟨str "a", str "1", true⟩ ::
    ⟨str "q", str "1", false⟩ :: letters (str "begiklpstzvx")))) := by decide +kernel
  have hreach := reach_varCalls (⟨str "a", str "1", true⟩ :: ⟨str "q", str "1", false⟩ ::
    letters (str "begiklpstzvx"))
  obtain ⟨m, hfork, hkeeps⟩ := forkExported_keeps_iff hreach (fun i n hn _ => hplaced i n hn) []
  refine ⟨_, m, rfl, hfork, ?_⟩
  rw [hkeeps]
  exact hrefills

/-- Thirteen exported variables, a to l and p: the child does not find `j`. -/
theorem forkExported_loses_thirteenth :
    ∃ t m, Runs.Reach htNew VarCall t ∧ forkExported { table := t, items := [] } = some m ∧
      htGet t (str "j") = some (str "1") ∧ htGetExported t (str "j") = some true ∧
      htContains m.table (str "j") = false ∧ ¬ ForkKeeps t m.table := by
  let t := putAll htNew (letters (str "abcdefghijklp"))
  obtain ⟨m, hfork, hlost⟩ : ∃ m, forkExported { table := t, items := [] } = some m ∧
      htFind m.table (str "j") = none :=
    ⟨(forkExported { table := t, items := [] }).getD ⟨t, []⟩, by decide +kernel⟩
  have hexported : htGetExported t (str "j") = some true := by decide +kernel
  refine ⟨t, m, reach_varCalls _, hfork, by decide +kernel, hexported, ?_, ?_⟩
  · rw [htContains, htGet, hlost]
    rfl
  · exact fun hkeeps => hkeeps.found hexported hlost

end Shell.Hashtable
