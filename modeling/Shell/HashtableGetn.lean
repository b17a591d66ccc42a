import Shell.HashtableRuns

/-! # Lookups of the first bytes of a string (ht_getn in hashtable.c)

`ht_getn` hashes the first `count` bytes as `ht_get` hashes a key, but compares
no more than these bytes with the keys in the bucket, so that a longer key that
starts with them is taken for theirs. -/
namespace Shell.Hashtable
open Shell.CTypes Shell.Lib

/-- The loop of `fnv_1a_sized`. -/
def fnv1aSizedLoop (n : Nat) : Str → Nat → UInt64 → UInt64
  | [], _, hash => hash
  | c :: str, i, hash =>
    if i < n then fnv1aSizedLoop n str (i + 1) ((hash ^^^ c.toUInt64) * fnvPrime) else hash

def fnv1aSized (str : Str) (n : Nat) : UInt64 := fnv1aSizedLoop n str 0 fnvOffsetBasis

theorem fnv1aSizedLoop_eq (n : Nat) (str : Str) (i : Nat) (hash : UInt64) :
    fnv1aSizedLoop n str i hash =
      (str.take (n - i)).foldl (fun hash c => (hash ^^^ c.toUInt64) * fnvPrime) hash := by
  induction str generalizing i hash with
  | nil => rw [List.take_nil, List.foldl_nil, fnv1aSizedLoop]
  | cons c str ih =>
    rw [fnv1aSizedLoop]
    split
    · rename_i hi
      have hsub : n - i = n - (i + 1) + 1 := by omega
      rw [ih, hsub, List.take_succ_cons, List.foldl_cons]
    · rename_i hi
      rw [Nat.sub_eq_zero_of_le (Nat.le_of_not_lt hi), List.take_zero, List.foldl_nil]

theorem fnv1aSized_eq (str : Str) (n : Nat) : fnv1aSized str n = fnv1a (str.take n) := by
  rw [fnv1aSized, fnv1aSizedLoop_eq, Nat.sub_zero, fnv1a]

/-- `strncmp(a, b, count) == 0`. -/
def strncmpEq (a b : Str) (count : Nat) : Bool := a.take count = b.take count

/-- The node `ht_getn` stops at. -/
def htFindn (t : HashTable) (key : Str) (count : Nat) : Option BucketNode :=
  (t.chain ((fnv1aSized key count).toNat % t.capacity)).find? fun iter =>
    strncmpEq iter.key key count

def htGetn (t : HashTable) (key : Str) (count : Nat) : Option Str :=
  (htFindn t key count).map BucketNode.value

theorem strncmpEq_iff_prefix {key s : Str} {n : Nat} (hn : n ≤ s.length) :
    strncmpEq key s n = true ↔ s.take n <+: key := by
  rw [strncmpEq, decide_eq_true_iff, List.prefix_iff_eq_take, List.length_take,
    Nat.min_eq_left hn, eq_comm]

/-- No longer key that starts with `p` stands in front of `p` in its bucket. -/
def NoneLonger (t : HashTable) (p : Str) : Prop :=
  ∀ node ∈ (t.chain (slot p t.capacity)).takeWhile (fun node => node.key ≠ p), ¬ p <+: node.key

instance (t : HashTable) (p : Str) : Decidable (NoneLonger t p) :=
  inferInstanceAs (Decidable (∀ node ∈ _, _))

/-- In one chain: `starts` is how `ht_getn` compares, `=` how `ht_get` does. -/
theorem find?_starts_iff {p : Str} {starts : BucketNode → Bool}
    (hstarts : ∀ node, starts node = true ↔ p <+: node.key) (nodes : List BucketNode) :
    (nodes.find? starts).map BucketNode.value = (chainGet nodes p).map BucketNode.value ∧
        (∀ node, nodes.find? starts = some node → node.key = p) ↔
      ∀ node ∈ nodes.takeWhile (fun node => node.key ≠ p), ¬ p <+: node.key := by
  induction nodes with
  | nil => simp [chainGet]
  | cons node nodes ih =>
    by_cases hkey : node.key = p
    · have hstart : starts node = true := (hstarts node).mpr (hkey ▸ List.prefix_rfl)
      rw [List.find?_cons_of_pos hstart, chainGet_cons_self hkey,
        List.takeWhile_cons_of_neg (by simpa using hkey)]
      simp [hkey]
    · rw [chainGet_cons_ne hkey, List.takeWhile_cons_of_pos (by simpa using hkey)]
      by_cases hstart : starts node = true
      · -- the longer key is found
        rw [List.find?_cons_of_pos hstart]
        refine iff_of_false (fun h => hkey (h.2 node rfl)) fun h => ?_
        exact h node List.mem_cons_self ((hstarts node).mp hstart)
      · rw [List.find?_cons_of_neg hstart, ih]
        have hnot : ¬ p <+: node.key := fun h => hstart ((hstarts node).mpr h)
        simp [hnot]

/-- **`ht_getn` is `ht_get` of the first bytes exactly when no longer key is in front.**
Then, and only then, is the result that of `ht_get` and not one of a longer key. -/
theorem htGetn_eq_htGet_iff (t : HashTable) {s : Str} {n : Nat} (hn : n ≤ s.length) :
    htGetn t s n = htGet t (s.take n) ∧
        (∀ node, htFindn t s n = some node → node.key = s.take n) ↔
      NoneLonger t (s.take n) := by
  have hslot : (fnv1aSized s n).toNat % t.capacity = slot (s.take n) t.capacity := by
    rw [fnv1aSized_eq, slot]
  rw [htGetn, htGet, htFind, htFindn, hslot]
  exact find?_starts_iff (fun node => strncmpEq_iff_prefix hn) _

/-- Two bytes of `abc`, with nothing else in the table. -/
theorem htGetn_eq_htGet_short :
    htGetn (htPut htNew (str "ab") (str "x") false) (str "abc") 2 =
      htGet (htPut htNew (str "ab") (str "x") false) (str "ab") :=
  ((htGetn_eq_htGet_iff _ (s := str "abc") (n := 2) (by decide)).mpr (by decide +kernel)).1

/-- The keys `a` and `a8` share bucket 12: with only `a8` put, `a` is found. -/
theorem htGetn_finds_longer :
    ∃ t, Runs.Reach htNew Step t ∧ htGetn t (str "a") 1 = some (str "x") ∧
      htGet t (str "a") = none := by
  refine ⟨htPut htNew (str "a8") (str "x") false, ?_, ?_, ?_⟩
  · exact .next .start (a := .put (str "a8") (str "x") false) ⟨by decide, rfl⟩
  · decide +kernel
  · decide +kernel

end Shell.Hashtable
