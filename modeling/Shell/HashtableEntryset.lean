import Shell.HashtableFrame
import Shell.Lib.LinkedList

/-! # The entries of a table (ht_entryset and il_pull in hashtable.c)

An item list is a head and a hand-kept size over nodes in memory. The lists of the
buckets are spliced into one, without a write to the table. `none` stands for a null
or bad address being followed. -/
namespace Shell.Hashtable
open Shell.CTypes Shell.Lib.LinkedList

/-- An `ItemNode` but for its link. -/
structure Item where
  key : Str
  value : Str
  exported : Bool
deriving DecidableEq, Repr

structure ItemList where
  size : Nat
  head : Option Nat
deriving DecidableEq, Repr

def ilNew : ItemList := { size := 0, head := none }

/-- The table, and the item nodes that are allocated. -/
structure Memory where
  table : HashTable
  items : Heap Item
deriving DecidableEq, Repr

/-- `in_new` on copies of the two strings. -/
def fromNode (node : BucketNode) : Item :=
  { key := node.key, value := node.value, exported := node.exported }

def ilAppendNode (items : Heap Item) (list : ItemList) (node : Nat) :
    Option (Heap Item × ItemList) :=
  match list.head with
  | none => some (items, { list with head := some node, size := list.size + 1 })
  | some iter => (lastFrom items items.length iter).map fun last =>
      (setNext items last (some node), { list with size := list.size + 1 })

/-- The loop of `il_from_blist`, with the tail that it keeps. -/
def fromBlistLoop : List BucketNode → Heap Item → ItemList → Option Nat →
    Option (Heap Item × ItemList)
  | [], items, result, _ => some (items, result)
  | iter :: rest, items, result, tail => do
    let node := items.length
    let items := alloc items (fromNode iter)
    let (items, result) ← match tail with
      | some tail => some (setNext items tail (some node), { result with size := result.size + 1 })
      | none => ilAppendNode items result node
    fromBlistLoop rest items result (some node)

def ilFromBlist (list : BucketList) (items : Heap Item) : Option (Heap Item × ItemList) :=
  fromBlistLoop list.nodes items ilNew ilNew.head

/-- An empty `dest` takes over the head and the size, and `source` is freed. -/
def ilMergeLists (items : Heap Item) (dest source : ItemList) : Option (Heap Item × ItemList) :=
  match dest.head with
  | none => some (items, { head := source.head, size := source.size })
  | some tail => (lastFrom items items.length tail).map fun tail =>
      (setNext items tail source.head, { dest with size := dest.size + source.size })

def entrysetRound (t : HashTable) (items : Heap Item) (result : ItemList) (i : Nat) :
    Option (Heap Item × ItemList) :=
  match t.buckets[i]? with
  | none => some (items, result)
  | some spot => do
    let (items, tmp) ← ilFromBlist spot items
    ilMergeLists items result tmp

def htEntryset (m : Memory) : Option (Memory × ItemList) :=
  ((List.range m.table.capacity).foldlM (fun s i => entrysetRound m.table s.1 s.2 i)
    (m.items, ilNew)).map fun s => ({ m with items := s.1 }, s.2)

/-- The node that is returned, null at size 0, and the list afterwards. -/
def ilPull (items : Heap Item) (list : ItemList) : Option (Option Nat × ItemList) :=
  if list.size = 0 then some (none, list)
  else do
    let item ← list.head
    let c ← items[item]?
    return (some item, { head := c.next, size := list.size - 1 })

/-- Calls of `il_pull` in a row, with what the returned nodes hold. -/
def pulls (items : Heap Item) : Nat → ItemList → Option (List (Option Item) × ItemList)
  | 0, list => some ([], list)
  | n + 1, list => do
    let (item, list) ← ilPull items list
    let (rest, list) ← pulls items n list
    match item with
    | none => return (none :: rest, list)
    | some p => return (some (← items[p]?).item :: rest, list)

/-! ## Lists in memory -/

/-- The list holds the cells, and its size says how many. -/
structure Holds (items : Heap Item) (list : ItemList) (cells : List (Nat × Item)) : Prop where
  chain : Chain items list.head cells
  size : list.size = cells.length

/-- What a list holds, in nodes that were allocated behind `base`; the nodes of `base`
are as they were. -/
structure Built (base items : Heap Item) (list : ItemList) (cells : List (Nat × Item)) : Prop where
  holds : Holds items list cells
  before : base <+: items
  behind : ∀ p ∈ cells.map Prod.fst, base.length ≤ p

theorem built_new (items : Heap Item) : Built items items ilNew [] :=
  ⟨⟨rfl, rfl⟩, List.prefix_refl items, by simp⟩

variable {base items items' : Heap Item} {list source : ItemList}
  {cells cells' : List (Nat × Item)}

theorem Built.length_le (h : Built base items list cells) : base.length ≤ items.length :=
  h.before.length_le

theorem prefix_alloc (items : Heap Item) (x : Item) : items <+: alloc items x :=
  List.prefix_append ..

theorem chain_alloc (items : Heap Item) (x : Item) :
    Chain (alloc items x) (some items.length) [(items.length, x)] := by
  refine ⟨rfl, none, ?_, rfl⟩
  rw [alloc, List.getElem?_append_right (Nat.le_refl _), Nat.sub_self]
  rfl

/-- A node or a chain behind the last node. -/
theorem Built.link {p : Nat} {x : Item} {next : Option Nat}
    (h : Built base items list (cells ++ [(p, x)])) (hnext : Chain items next cells')
    (hbehind : ∀ q ∈ cells'.map Prod.fst, base.length ≤ q)
    (hp : p ∉ cells'.map Prod.fst) :
    Built base (setNext items p next)
      { list with size := list.size + cells'.length } (cells ++ (p, x) :: cells') := by
  have hsize := h.holds.size
  have hold := h.behind
  rw [List.map_append, List.forall_mem_append, List.map_singleton, List.forall_mem_singleton] at hold
  refine ⟨⟨h.holds.chain.link hnext hp, ?_⟩, prefix_setNext h.before hold.2, ?_⟩
  · simp only [List.length_append, List.length_cons, List.length_nil] at hsize ⊢
    omega
  · rw [List.map_append, List.forall_mem_append, List.map_cons, List.forall_mem_cons]
    exact ⟨hold.1, hold.2, hbehind⟩

theorem Built.of_prefix (h : Built base items list cells) (hle : items <+: items') :
    Built base items' list cells :=
  ⟨⟨h.holds.chain.of_prefix hle, h.holds.size⟩, h.before.trans hle, h.behind⟩

/-! ## One bucket -/

/-- A round of the loop puts its node behind the others. The tail is the last node,
and null while there is none. -/
theorem fromBlistLoop_built : ∀ (nodes : List BucketNode) {items : Heap Item} {list : ItemList}
    {cells : List (Nat × Item)}, Built base items list cells →
    ∃ items' list' cells', fromBlistLoop nodes items list (cells.getLast?.map Prod.fst) =
        some (items', list') ∧ Built base items' list' cells' ∧
      cells'.map Prod.snd = cells.map Prod.snd ++ nodes.map fromNode
  | [], items, list, cells, h => ⟨items, list, cells, rfl, h, by simp⟩
  | iter :: rest, items, list, cells, h => by
    have hgrown := h.of_prefix (prefix_alloc items (fromNode iter))
    have hnew := chain_alloc items (fromNode iter)
    have hle := h.length_le
    rcases List.eq_nil_or_concat' cells with rfl | ⟨front, ⟨p, x⟩, rfl⟩
    · -- the first node, through `il_append_node`
      have hhead : list.head = none := h.holds.chain
      have hfirst : Built base (alloc items (fromNode iter))
          { list with head := some items.length, size := list.size + 1 }
          [(items.length, fromNode iter)] := by
        refine ⟨⟨hnew, ?_⟩, hgrown.before, by simpa using hle⟩
        rw [h.holds.size]
        rfl
      obtain ⟨items', list', cells', hloop, hbuilt, hcells⟩ := fromBlistLoop_built rest hfirst
      refine ⟨items', list', cells', ?_, hbuilt, hcells⟩
      simpa [fromBlistLoop, ilAppendNode, hhead] using hloop
    · have hfresh : p ∉ [(items.length, fromNode iter)].map Prod.fst := by
        have hlt := h.holds.chain.lt p (by simp)
        simpa using hlt.ne
      have hlinked := hgrown.link hnew (by simpa using hle) hfresh
      obtain ⟨items', list', cells', hloop, hbuilt, hcells⟩ := fromBlistLoop_built rest hlinked
      refine ⟨items', list', cells', ?_, hbuilt, ?_⟩
      · simpa [fromBlistLoop] using hloop
      · simpa using hcells

theorem ilFromBlist_built (b : BucketList) (items : Heap Item) :
    ∃ items' list cells, ilFromBlist b items = some (items', list) ∧
      Built items items' list cells ∧ cells.map Prod.snd = b.nodes.map fromNode :=
  fromBlistLoop_built b.nodes (built_new items)

/-! ## The splice -/

/-- Nodes that were allocated later hang behind those of `dest`. -/
theorem ilMergeLists_built {dest : ItemList} (hdest : Built base items dest cells)
    (hsource : Built items items' source cells') :
    ∃ merged list, ilMergeLists items' dest source = some (merged, list) ∧
      Built base merged list (cells ++ cells') := by
  have hgrown := hdest.of_prefix hsource.before
  have hle := hdest.length_le
  have hbehind : ∀ q ∈ cells'.map Prod.fst, base.length ≤ q :=
    fun q hq => hle.trans (hsource.behind q hq)
  rcases List.eq_nil_or_concat' cells with rfl | ⟨front, ⟨p, x⟩, rfl⟩
  · have hhead : dest.head = none := hdest.holds.chain
    refine ⟨items', { head := source.head, size := source.size }, by rw [ilMergeLists, hhead], ?_⟩
    exact ⟨⟨hsource.holds.chain, hsource.holds.size⟩, hgrown.before, hbehind⟩
  · have hfresh : p ∉ cells'.map Prod.fst := by
      intro hp
      have hlt := hdest.holds.chain.lt p (by simp)
      exact absurd (hsource.behind p hp) (Nat.not_le.mpr hlt)
    obtain ⟨q, hhead⟩ : ∃ q, dest.head = some q := by
      have hchain := hdest.holds.chain
      cases front with
      | nil => exact ⟨_, hchain.1⟩
      | cons cell rest => exact ⟨_, hchain.1⟩
    have hwalk : lastFrom items' items'.length q = some p :=
      lastFrom_length (hhead ▸ hgrown.holds.chain)
    have hlinked := hgrown.link hsource.holds.chain hbehind hfresh
    refine ⟨setNext items' p source.head, { dest with size := dest.size + source.size }, ?_, ?_⟩
    · rw [ilMergeLists, hhead]
      simp only [hwalk, Option.map_some]
    · rw [hsource.holds.size]
      simpa using hlinked

/-- The entries of the first `n` buckets. -/
def entries (t : HashTable) (n : Nat) : List Item :=
  (List.range n).flatMap fun i => (t.chain i).map fromNode

theorem entrysetRound_built (t : HashTable) {i : Nat} (h : Built base items list cells)
    (hcells : cells.map Prod.snd = entries t i) :
    ∃ items' list' cells', entrysetRound t items list i = some (items', list') ∧
      Built base items' list' cells' ∧ cells'.map Prod.snd = entries t (i + 1) := by
  have hnext : entries t (i + 1) = entries t i ++ (t.chain i).map fromNode := by
    simp only [entries, List.range_succ, List.flatMap_append, List.flatMap_singleton]
  unfold entrysetRound
  rw [hnext]
  cases hspot : t.buckets[i]? with
  | none =>
    refine ⟨items, list, cells, rfl, h, ?_⟩
    rw [hcells, HashTable.chain, hspot]
    exact (List.append_nil _).symm
  | some spot =>
    obtain ⟨items', tmp, cells', hfrom, hbuilt, htmp⟩ := ilFromBlist_built spot items
    obtain ⟨merged, list', hmerge, hmerged⟩ := ilMergeLists_built h hbuilt
    refine ⟨merged, list', cells ++ cells', ?_, hmerged, ?_⟩
    · simp only [hfrom, Option.bind_eq_bind, Option.bind_some, hmerge]
    · rw [List.map_append, hcells, htmp, HashTable.chain, hspot]
      rfl

theorem foldlM_entrysetRound (t : HashTable) (items : Heap Item) (n : Nat) :
    ∃ items' list cells, (List.range n).foldlM (fun s i => entrysetRound t s.1 s.2 i)
        (items, ilNew) = some (items', list) ∧
      Built items items' list cells ∧ cells.map Prod.snd = entries t n := by
  induction n with
  | zero => exact ⟨items, ilNew, [], rfl, built_new items, rfl⟩
  | succ n ih =>
    obtain ⟨items', list, cells, hfold, hbuilt, hcells⟩ := ih
    obtain ⟨items'', list', cells', hround, hbuilt', hcells'⟩ := entrysetRound_built t hbuilt hcells
    refine ⟨items'', list', cells', ?_, hbuilt', hcells'⟩
    rw [List.range_succ, List.foldlM_append, hfold]
    simpa using hround

/-! ## The pulls -/

/-- A pull takes the first cell off, and the size with it. -/
theorem ilPull_cons {cell : Nat × Item} (h : Holds items list (cell :: cells)) :
    ∃ list', ilPull items list = some (some cell.1, list') ∧ Holds items list' cells ∧
      (items[cell.1]?).map Cell.item = some cell.2 := by
  obtain ⟨hhead, next, hcell, hrest⟩ := h.chain
  have hsize : list.size = cells.length + 1 := h.size
  refine ⟨{ head := next, size := list.size - 1 }, ?_, ⟨hrest, by simp only; omega⟩, ?_⟩
  · rw [ilPull, if_neg (by omega), hhead]
    simp only [Option.bind_eq_bind, Option.bind_some, hcell]
    rfl
  · rw [hcell]
    rfl

theorem ilPull_nil (h : Holds items list []) : ilPull items list = some (none, list) := by
  have hzero : list.size = 0 := h.size
  rw [ilPull, if_pos hzero]

/-- Any number of pulls hand out the cells in order, and null when there are no more. -/
theorem pulls_holds (n : Nat) (h : Holds items list cells) :
    ∃ list', pulls items n list =
        some (((cells.take n).map fun cell => some cell.2) ++ List.replicate (n - cells.length) none,
          list') ∧
      list'.size = cells.length - n := by
  induction n generalizing list cells with
  | zero => exact ⟨list, by simp [pulls], h.size⟩
  | succ n ih =>
    cases cells with
    | nil =>
      obtain ⟨list', hpulls, hsize⟩ := ih h
      refine ⟨list', ?_, by simpa using hsize⟩
      rw [pulls, ilPull_nil h]
      simp only [Option.bind_eq_bind, Option.bind_some, hpulls]
      simp [List.replicate_succ]
    | cons cell rest =>
      obtain ⟨next, hpull, hholds, hitem⟩ := ilPull_cons h
      obtain ⟨list', hpulls, hsize⟩ := ih hholds
      obtain ⟨c, hc, hcell⟩ := Option.map_eq_some_iff.mp hitem
      refine ⟨list', ?_, ?_⟩
      · rw [pulls, hpull]
        simp only [Option.bind_eq_bind, Option.bind_some, hpulls, hc]
        simp [hcell, Nat.add_sub_add_right]
      · rw [hsize, List.length_cons, Nat.add_sub_add_right]

/-- The rounds of `ht_entryset`, from the bucket 0 to the last one. -/
theorem htEntryset_built (m : Memory) :
    ∃ items' list cells, htEntryset m = some ({ m with items := items' }, list) ∧
      Built m.items items' list cells ∧ cells.map Prod.snd = entries m.table m.table.capacity := by
  obtain ⟨items', list, cells, hfold, hbuilt, hcells⟩ :=
    foldlM_entrysetRound m.table m.items m.table.capacity
  refine ⟨items', list, cells, ?_, hbuilt, hcells⟩
  rw [htEntryset, hfold]
  rfl

/-- **The entry set of a table.** It lists the nodes of the buckets in chain order, each
once, with their number as its size. The table and the item nodes that were there stay
as they were, and pulls hand out the entries in that order and then null. -/
theorem htEntryset_spec (m : Memory) :
    ∃ m' list cells, htEntryset m = some (m', list) ∧ m'.table = m.table ∧ m.items <+: m'.items ∧
      Chain m'.items list.head cells ∧
      cells.map Prod.snd =
        (List.range m.table.capacity).flatMap (fun i => (m.table.chain i).map fromNode) ∧
      list.size = cells.length ∧
      ∀ n, ∃ list', pulls m'.items n list =
          some (((cells.take n).map fun cell => some cell.2) ++
            List.replicate (n - cells.length) none, list') ∧
        list'.size = cells.length - n := by
  obtain ⟨items', list, cells, hset, hbuilt, hcells⟩ := htEntryset_built m
  exact ⟨{ m with items := items' }, list, cells, hset, rfl, hbuilt.before, hbuilt.holds.chain,
    hcells, hbuilt.holds.size, fun n => pulls_holds n hbuilt.holds⟩

end Shell.Hashtable
