import Shell.HashtableSize

/-! # Removing a key (ht_remove in hashtable.c)

`ht_remove` finds the key with `blist_get_value`, which follows the null pointer
of a key that is not there. `blist_remove` takes one off the bucket's own size
field, which no put has ever raised. -/
namespace Shell.Hashtable
open Shell.CTypes Shell.Lib

/-- `none` when the null pointer of `blist_get` is followed. -/
def blistGetValue (b : BucketList) (name : Str) : Option Str :=
  (chainGet b.nodes name).map BucketNode.value

/-- `ht_remove` with its return value. The value of a node is not null, so that no
call gets to the return -1. -/
def htRemoveReturn (t : HashTable) (key : Str) : Option (Int × HashTable) :=
  let hash := slot key t.capacity
  let bucket := (t.buckets[hash]?).getD blistNew
  (blistGetValue bucket key).bind fun _ =>
    (blistRemove bucket key).map fun b =>
      (0, { t with size := sizeSub t.size 1, buckets := t.buckets.set hash b })

/-- The size field of the bucket of a key. -/
def bucketSize (t : HashTable) (key : Str) : Nat :=
  ((t.buckets[slot key t.capacity]?).getD blistNew).size

/-- A bound key is unbound, with both size fields one down; for any other key the
return is -1. -/
def Removes (t : HashTable) (key : Str) : Prop :=
  if htContains t key = true then
    ∃ t', htRemoveReturn t key = some (0, t') ∧ htContains t' key = false ∧
      (∀ k, k ≠ key → htGet t' k = htGet t k) ∧ t.size = t'.size + 1 ∧
      bucketSize t key = bucketSize t' key + 1
  else htRemoveReturn t key = some (-1, t)

theorem htRemoveReturn_eq (t : HashTable) (key : Str) :
    htRemoveReturn t key = (htRemove t key).map fun t' => (0, t') := by
  simp only [htRemoveReturn, htRemove, blistGetValue, htFind, HashTable.chain, Option.bind_map,
    Option.map_bind, Option.map_map, Function.comp_def]

/-! ## Buckets over a run -/

/-- No bucket holds a key twice, and its size field is a `size_t`. -/
def Linked (b : BucketList) : Prop := (b.nodes.map BucketNode.key).Nodup ∧ b.size < 2 ^ 64

theorem linked_blistNew : Linked blistNew := ⟨List.nodup_nil, Nat.two_pow_pos 64⟩

theorem linked_emptied (t : HashTable) (capacity : Nat) :
    ∀ b ∈ (emptied t capacity).buckets, Linked b := by
  intro b hb
  rw [List.eq_of_mem_replicate hb]
  exact linked_blistNew

theorem linked_putAt {t : HashTable} (h : ∀ b ∈ t.buckets, Linked b) (hash : Nat)
    (new : BucketNode) : ∀ b ∈ (putAt t hash new).buckets, Linked b := by
  intro b hb
  obtain ⟨i, hi⟩ := List.mem_iff_getElem?.mp hb
  rw [putAt, List.getElem?_modify] at hi
  obtain ⟨b', hb', rfl⟩ := Option.map_eq_some_iff.mp hi
  have hlinked := h b' (List.mem_of_getElem? hb')
  split
  · exact ⟨nodup_chainPut new hlinked.1, hlinked.2⟩
  · exact hlinked

theorem linked_foldl_place (ns : List BucketNode) {t : HashTable} (h : ∀ b ∈ t.buckets, Linked b) :
    ∀ b ∈ (ns.foldl place t).buckets, Linked b := by
  induction ns generalizing t with
  | nil => exact h
  | cons n rest ih => exact ih (linked_putAt h _ n)

theorem unlink_of_nodup (key : Str) {nodes : List BucketNode}
    (h : (nodes.map BucketNode.key).Nodup) : ∃ nodes', unlink key nodes = some nodes' := by
  induction nodes with
  | nil => exact ⟨[], rfl⟩
  | cons n rest ih =>
    obtain ⟨hnot, hrest⟩ := List.nodup_cons.mp h
    rw [unlink]
    by_cases hn : n.key = key
    · have hany : ¬ (rest.any fun m => m.key = key) = true := by
        intro hany
        obtain ⟨m, hm, hkey⟩ := List.any_eq_true.mp hany
        exact hnot (List.mem_map.mpr ⟨m, hm, (of_decide_eq_true hkey).trans hn.symm⟩)
      rw [if_pos hn, if_neg hany]
      exact ⟨rest, rfl⟩
    · obtain ⟨nodes', hnodes⟩ := ih hrest
      rw [if_neg hn, hnodes]
      exact ⟨n :: nodes', rfl⟩

theorem linked_blistRemove {b b' : BucketList} {key : Str} (h : Linked b)
    (hr : blistRemove b key = some b') : Linked b' := by
  unfold blistRemove at hr
  split at hr
  · obtain rfl := Option.some.inj hr
    exact h
  · rename_i n hn
    obtain ⟨nodes, hu, rfl⟩ := Option.map_eq_some_iff.mp hr
    obtain ⟨before, after, hsplit, rfl, -⟩ := unlink_eq hn hu
    have hsub : (before ++ after).Sublist b.nodes := by
      rw [hsplit]
      exact (List.sublist_cons_self n after).append_left before
    exact ⟨h.1.sublist (hsub.map _), Nat.mod_lt _ (Nat.two_pow_pos 64)⟩

theorem linked_bucket {t : HashTable} (h : ∀ b ∈ t.buckets, Linked b) (i : Nat) :
    Linked ((t.buckets[i]?).getD blistNew) := by
  cases hi : t.buckets[i]? with
  | none => exact linked_blistNew
  | some b => exact h b (List.mem_of_getElem? hi)

theorem linked_call {t t' : HashTable} {op : Op} (hz : ∃ j, Sized j t)
    (h : ∀ b ∈ t.buckets, Linked b) (hcall : Call t op t') : ∀ b ∈ t'.buckets, Linked b := by
  obtain ⟨j, hz⟩ := hz
  cases op with
  | put key value exported =>
    obtain rfl := hcall
    by_cases hroom : Room t
    · rw [htPut_eq hz hroom]
      refine linked_putAt ?_ _ _
      split
      · exact linked_foldl_place _ (linked_emptied t _)
      · exact h
    · obtain ⟨hl, hmax⟩ := Classical.not_imp.mp hroom
      rw [htPut_refused hl (Nat.le_of_not_lt hmax)]
      exact h
  | remove key =>
    obtain ⟨n, -, hr⟩ := Option.bind_eq_some_iff.mp hcall
    obtain ⟨b, hb, rfl⟩ := Option.map_eq_some_iff.mp hr
    intro b' hb'
    rcases List.mem_or_eq_of_mem_set hb' with hb' | rfl
    · exact h b' hb'
    · exact linked_blistRemove (linked_bucket h _) hb

theorem linked_calls {t : HashTable} (h : Runs.Reach htNew Call t) :
    (∃ j, Sized j t) ∧ ∀ b ∈ t.buckets, Linked b :=
  h.invariant (I := fun t => (∃ j, Sized j t) ∧ ∀ b ∈ t.buckets, Linked b)
    ⟨⟨0, sized_new⟩, linked_emptied htNew defaultInitialCapacity⟩
    fun _ _ _ hI hcall => ⟨sized_call hI.1 hcall, linked_call hI.1 hI.2 hcall⟩

/-! ## One removal -/

theorem htRemove_of_not_contains {t : HashTable} {key : Str} (h : ¬ htContains t key = true) :
    htRemove t key = none := by
  have hfind : htFind t key = none := by simpa [htContains, htGet] using h
  rw [htRemove, hfind]
  rfl

/-- `blist_remove` finds one node of the key and takes one off the size field. -/
theorem htRemove_of_contains {t : HashTable} {key : Str} (hlinked : ∀ b ∈ t.buckets, Linked b)
    (h : htContains t key = true) :
    ∃ nodes, htRemove t key = some { t with
      size := sizeSub t.size 1
      buckets := t.buckets.set (slot key t.capacity) ⟨sizeSub (bucketSize t key) 1, nodes⟩ } := by
  obtain ⟨n, hn⟩ : ∃ n, htFind t key = some n := by
    simpa [htContains, htGet, Option.isSome_iff_exists] using h
  have hget : chainGet ((t.buckets[slot key t.capacity]?).getD blistNew).nodes key = some n := hn
  obtain ⟨nodes, hnodes⟩ := unlink_of_nodup key (linked_bucket hlinked (slot key t.capacity)).1
  refine ⟨nodes, ?_⟩
  simp only [htRemove, hn, Option.bind_some, blistRemove, hget, hnodes, Option.map_some, bucketSize]

theorem bucketSize_set {t : HashTable} {key : Str} (hlt : slot key t.capacity < t.buckets.length)
    (size : Nat) (b : BucketList) :
    bucketSize { t with size := size, buckets := t.buckets.set (slot key t.capacity) b } key =
      b.size := by
  simp only [bucketSize, List.getElem?_set_self hlt, Option.getD_some]

theorem removes_of_size_ne {j : Nat} {t : HashTable} {key : Str} (hz : Sized j t)
    (hlinked : ∀ b ∈ t.buckets, Linked b) (h : htContains t key = true)
    (hsize : bucketSize t key ≠ 0) : Removes t key := by
  have hlt := slot_lt hz key
  obtain ⟨nodes, hr⟩ := htRemove_of_contains hlinked h
  have hsmall : bucketSize t key < 2 ^ 64 := (linked_bucket hlinked (slot key t.capacity)).2
  have hfind := htFind_remove hlt hr
  rw [Removes, if_pos h]
  refine ⟨_, by rw [htRemoveReturn_eq, hr]; rfl, ?_, ?_, hz.size_remove hr, ?_⟩
  · rw [htContains, htGet, hfind, if_pos rfl]
    rfl
  · intro k hk
    rw [htGet, htGet, hfind, if_neg hk]
  · rw [bucketSize_set hlt, sizeSub_eq (Nat.one_le_iff_ne_zero.mpr hsize) hsmall]
    exact (Nat.sub_add_cancel (Nat.one_le_iff_ne_zero.mpr hsize)).symm

/-- **When a removal removes.** In a table reached by puts and removals it does what it
is for exactly when the key is bound and the size field of its bucket is not 0. -/
theorem htRemove_removes_iff {t : HashTable} (h : Runs.Reach htNew Call t) (key : Str) :
    Removes t key ↔ htContains t key = true ∧ bucketSize t key ≠ 0 := by
  obtain ⟨⟨j, hz⟩, hlinked⟩ := linked_calls h
  constructor
  · intro hremoves
    by_cases hbound : htContains t key = true
    · rw [Removes, if_pos hbound] at hremoves
      obtain ⟨t', -, -, -, -, hsize⟩ := hremoves
      exact ⟨hbound, by omega⟩
    · -- the null pointer is followed
      rw [Removes, if_neg hbound, htRemoveReturn_eq, htRemove_of_not_contains hbound] at hremoves
      cases hremoves
  · intro hcond
    exact removes_of_size_ne hz hlinked hcond.1 hcond.2

/-- The keys `a` and `q` share bucket 12: the removal of `q` leaves its size field at
2 ^ 64 - 1, from where that of `a` can go down by one. -/
theorem htRemove_removes_second : ∃ t, Runs.Reach htNew Call t ∧ Removes t (str "a") := by
  let first := htPut htNew (str "a") (str "1") false
  let both := htPut first (str "q") (str "2") false
  have hfirst : Runs.Reach htNew Call first :=
    .next .start (a := .put (str "a") (str "1") false) rfl
  have hboth : Runs.Reach htNew Call both :=
    .next hfirst (a := .put (str "q") (str "2") false) rfl
  obtain ⟨t, hremove, hcond⟩ : ∃ t, htRemove both (str "q") = some t ∧
      htContains t (str "a") = true ∧ bucketSize t (str "a") ≠ 0 :=
    ⟨(htRemove both (str "q")).getD both, by decide +kernel⟩
  have hreach : Runs.Reach htNew Call t := .next hboth (a := .remove (str "q")) hremove
  exact ⟨t, hreach, (htRemove_removes_iff hreach (str "a")).mpr hcond⟩

/-- The first removal from a bucket takes its size field from 0 to 2 ^ 64 - 1, and the
removal of a key that is not there follows a null pointer. -/
theorem htRemove_wraps :
    (∃ t t', Runs.Reach htNew Call t ∧ htContains t (str "a") = true ∧
      htRemoveReturn t (str "a") = some (0, t') ∧ bucketSize t (str "a") = 0 ∧
      bucketSize t' (str "a") = 2 ^ 64 - 1) ∧
    htContains htNew (str "a") = false ∧ htRemoveReturn htNew (str "a") = none := by
  let t := htPut htNew (str "a") (str "1") false
  let t' := (htRemove t (str "a")).getD t
  have hreach : Runs.Reach htNew Call t :=
    .next .start (a := .put (str "a") (str "1") false) rfl
  have hremove : htRemoveReturn t (str "a") = some (0, t') := by decide +kernel
  have hsizes : bucketSize t (str "a") = 0 ∧ bucketSize t' (str "a") = 2 ^ 64 - 1 := by
    decide +kernel
  exact ⟨⟨t, t', hreach, by decide +kernel, hremove, hsizes⟩, by decide +kernel⟩

end Shell.Hashtable
