import Shell.HashtableRemove

/-! # Clearing a table (ht_clear in hashtable.c)

`ht_clear` goes by the size fields of the buckets, which no put raises and every
removal lowers. It passes over a chain whose bucket says 0, frees any other, and
writes to no head. -/
namespace Shell.Hashtable
open Shell.CTypes Shell.Lib

/-- What the head of a bucket points at: its chain, or a node that was freed. -/
inductive Head where
  | live (nodes : List BucketNode)
  | freed
deriving DecidableEq, Repr

structure ClearedBucket where
  size : Nat
  head : Head
deriving DecidableEq, Repr

/-- A table some of whose heads may be dangling. -/
structure ClearedTable where
  size : Nat
  capacity : Nat
  buckets : List ClearedBucket
deriving DecidableEq, Repr

/-- One round of the loop. A head that was null is still null. -/
def clearBucket (b : BucketList) : ClearedBucket :=
  if 0 < b.size then { size := 0, head := if b.nodes = [] then .live [] else .freed }
  else { size := b.size, head := .live b.nodes }

/-- The size field of the table over the rounds. -/
def clearSizes : Nat → List BucketList → Nat
  | size, [] => size
  | size, b :: rest => clearSizes (if 0 < b.size then sizeSub size b.size else size) rest

def htClear (t : HashTable) : ClearedTable :=
  { size := clearSizes t.size t.buckets, capacity := t.capacity,
    buckets := t.buckets.map clearBucket }

/-- `ht_get` on the table; `none` when it reads a freed node. -/
def clearedGet (t : ClearedTable) (key : Str) : Option (Option Str) :=
  match t.buckets[slot key t.capacity]? with
  | some { head := .live nodes, .. } => some ((chainGet nodes key).map BucketNode.value)
  | _ => none

def ClearedBucket.list (b : ClearedBucket) : Option BucketList :=
  match b.head with
  | .live nodes => some { size := b.size, nodes := nodes }
  | .freed => none

/-- The table that the next calls work on; `none` while a head dangles. -/
def usable (t : ClearedTable) : Option HashTable :=
  (t.buckets.mapM ClearedBucket.list).map fun buckets =>
    { size := t.size, capacity := t.capacity, buckets := buckets }

/-- The chains are empty, no key is bound, the size is 0, and the table is that of
`ht_new` but for its capacity. -/
structure AsNew (t : ClearedTable) : Prop where
  chains : ∀ b ∈ t.buckets, b.head = .live []
  unbound : ∀ key, clearedGet t key = some none
  size : t.size = 0
  reusable : usable t = some (emptied htNew t.capacity)

/-- What the buckets say they hold. -/
def saidSize : List BucketList → Nat
  | [] => 0
  | b :: rest => b.size + saidSize rest

/-! ## One round -/

theorem clearBucket_of_nil {b : BucketList} (h : b.nodes = []) :
    clearBucket b = { size := 0, head := .live [] } := by
  unfold clearBucket
  by_cases hsize : 0 < b.size
  · rw [if_pos hsize, if_pos h]
  · rw [if_neg hsize, h, Nat.eq_zero_of_not_pos hsize]

/-- A chain is either passed over or left dangling. -/
theorem head_clearBucket_iff (b : BucketList) :
    (clearBucket b).head = .live [] ↔ b.nodes = [] := by
  constructor
  · intro h
    unfold clearBucket at h
    split at h
    · by_contra hne
      rw [if_neg hne] at h
      cases h
    · exact Head.live.inj h
  · intro h
    rw [clearBucket_of_nil h]

theorem nodes_eq_nil_iff (t : HashTable) : t.nodes = [] ↔ ∀ b ∈ t.buckets, b.nodes = [] :=
  List.flatMap_eq_nil_iff

/-- The rounds take from the size field what the buckets say. -/
theorem clearSizes_eq : ∀ (buckets : List BucketList) (size : Nat), size < 2 ^ 64 →
    (∀ b ∈ buckets, b.size < 2 ^ 64) →
    clearSizes size buckets < 2 ^ 64 ∧
      (clearSizes size buckets + saidSize buckets) % 2 ^ 64 = size
  | [], size, hsize, _ => ⟨hsize, Nat.mod_eq_of_lt hsize⟩
  | b :: rest, size, hsize, hsmall => by
    have hb := hsmall b List.mem_cons_self
    have hnext : (if 0 < b.size then sizeSub size b.size else size) = sizeSub size b.size := by
      split
      · rfl
      · rename_i hzero
        rw [Nat.eq_zero_of_not_pos hzero, sizeSub_eq (Nat.zero_le _) hsize, Nat.sub_zero]
    have hlt : sizeSub size b.size < 2 ^ 64 := Nat.mod_lt _ (Nat.two_pow_pos 64)
    obtain ⟨hend, hsum⟩ := clearSizes_eq rest (sizeSub size b.size) hlt
      fun b' hb' => hsmall b' (List.mem_cons_of_mem _ hb')
    rw [clearSizes, hnext, saidSize]
    unfold sizeSub at hend hsum ⊢
    exact ⟨hend, by omega⟩

theorem clearSizes_eq_zero_iff {buckets : List BucketList} {size : Nat} (hsize : size < 2 ^ 64)
    (hsmall : ∀ b ∈ buckets, b.size < 2 ^ 64) :
    clearSizes size buckets = 0 ↔ saidSize buckets % 2 ^ 64 = size := by
  obtain ⟨hend, hsum⟩ := clearSizes_eq buckets size hsize hsmall
  omega

/-! ## The cleared table -/

theorem htClear_of_nodes_nil {t : HashTable} (hlen : t.buckets.length = t.capacity)
    (h : t.nodes = []) :
    htClear t = { size := clearSizes t.size t.buckets, capacity := t.capacity,
                  buckets := List.replicate t.capacity { size := 0, head := .live [] } } := by
  have hbuckets : t.buckets.map clearBucket =
      List.replicate (t.buckets.map clearBucket).length { size := 0, head := .live [] } := by
    refine List.eq_replicate_of_mem fun b hb => ?_
    obtain ⟨b', hb', rfl⟩ := List.mem_map.mp hb
    exact clearBucket_of_nil ((nodes_eq_nil_iff t).mp h b' hb')
  rw [List.length_map, hlen] at hbuckets
  rw [htClear, hbuckets]

theorem usable_replicate (size capacity : Nat) :
    usable ⟨size, capacity, List.replicate capacity ⟨0, .live []⟩⟩ =
      some { emptied htNew capacity with size := size } := by
  have hbuckets : ∀ n, (List.replicate n (⟨0, .live []⟩ : ClearedBucket)).mapM
      ClearedBucket.list = some (List.replicate n blistNew) := by
    intro n
    induction n with
    | zero => rfl
    | succ n ih => simp only [List.replicate_succ, List.mapM_cons, ih]; rfl
  rw [usable, hbuckets]
  rfl

/-- **When a table is cleared.** In a table reached by puts and removals it is exactly
when the table had no nodes and its buckets say together what its size field says. -/
theorem htClear_asNew_iff {t : HashTable} (h : Runs.Reach htNew Call t) :
    AsNew (htClear t) ↔ t.nodes = [] ∧ saidSize t.buckets % 2 ^ 64 = t.size := by
  obtain ⟨⟨j, hz⟩, hlinked⟩ := linked_calls h
  have hsize : t.size < 2 ^ 64 := by
    have hsmall := hz.small
    have hpow := two_pow_quarter j
    rw [hz.capacity, hpow, maxCapacity] at hsmall
    rcases hz.bound with ⟨rfl, h12⟩ | ⟨-, hle, -⟩ <;> omega
  have hzero := clearSizes_eq_zero_iff hsize fun b hb => (hlinked b hb).2
  constructor
  · intro hnew
    refine ⟨(nodes_eq_nil_iff t).mpr fun b hb => ?_, hzero.mp hnew.size⟩
    exact (head_clearBucket_iff b).mp (hnew.chains _ (List.mem_map_of_mem hb))
  · intro hcond
    obtain ⟨hnodes, hsaid⟩ := hcond
    rw [htClear_of_nodes_nil hz.length hnodes, hzero.mpr hsaid]
    refine ⟨?_, ?_, rfl, usable_replicate 0 t.capacity⟩
    · intro b hb
      rw [List.eq_of_mem_replicate hb]
    · intro key
      have hlt := slot_lt hz key
      rw [hz.length] at hlt
      simp only [clearedGet, List.getElem?_replicate, if_pos hlt]
      rfl

theorem htClear_asNew_new : AsNew (htClear htNew) :=
  (htClear_asNew_iff .start).mpr ⟨rfl, rfl⟩

/-- The key `a`, put alone, is still bound after the table is cleared. With `q` put in
front of it and removed, its node is freed, the head dangles and the size is 2. -/
theorem htClear_keeps :
    (∃ t, Runs.Reach htNew Call t ∧ ¬ AsNew (htClear t) ∧
      clearedGet (htClear t) (str "a") = some (some (str "1")) ∧ (htClear t).size = 1) ∧
    ∃ t, Runs.Reach htNew Call t ∧ clearedGet (htClear t) (str "a") = none ∧
      (htClear t).size = 2 := by
  let single := htPut htNew (str "a") (str "1") false
  let first := htPut htNew (str "q") (str "2") false
  let both := htPut first (str "a") (str "1") false
  have hsingle : Runs.Reach htNew Call single :=
    .next .start (a := .put (str "a") (str "1") false) rfl
  have hfirst : Runs.Reach htNew Call first :=
    .next .start (a := .put (str "q") (str "2") false) rfl
  have hboth : Runs.Reach htNew Call both :=
    .next hfirst (a := .put (str "a") (str "1") false) rfl
  obtain ⟨t, hremove, hget, hsize⟩ : ∃ t, htRemove both (str "q") = some t ∧
      clearedGet (htClear t) (str "a") = none ∧ (htClear t).size = 2 :=
    ⟨(htRemove both (str "q")).getD both, by decide +kernel⟩
  have hkept : clearedGet (htClear single) (str "a") = some (some (str "1")) := by decide +kernel
  refine ⟨⟨single, hsingle, ?_, hkept, by decide +kernel⟩,
    t, .next hboth (a := .remove (str "q")) hremove, hget, hsize⟩
  intro hnew
  rw [hnew.unbound] at hkept
  cases hkept

end Shell.Hashtable
