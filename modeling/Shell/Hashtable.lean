import Shell.CTypes
import Shell.Lib.Binary32

/-! # The chained hash table (hashtable.c)

A bucket is a chain of nodes with a size field of its own. Allocations succeed
throughout. `none` stands for a null or dangling pointer being followed. -/
namespace Shell.Hashtable
open Shell.CTypes Shell.Lib.Binary32

def fnvOffsetBasis : UInt64 := 0xcbf29ce484222325
def fnvPrime : UInt64 := 0x100000001b3

def defaultInitialCapacity : Nat := 16
def maxCapacity : Nat := 2 ^ 30

structure BucketNode where
  key : Str
  value : Str
  exported : Bool
deriving DecidableEq, Repr

structure BucketList where
  size : Nat
  nodes : List BucketNode
deriving DecidableEq, Repr

def blistNew : BucketList := { size := 0, nodes := [] }

structure HashTable where
  size : Nat
  capacity : Nat
  buckets : List BucketList
deriving DecidableEq, Repr

def fnv1a (key : Str) : UInt64 :=
  key.foldl (fun hash c => (hash ^^^ c.toUInt64) * fnvPrime) fnvOffsetBasis

/-- `fnv_1a(key) % capacity`. -/
def slot (key : Str) (capacity : Nat) : Nat := (fnv1a key).toNat % capacity

def HashTable.chain (t : HashTable) (i : Nat) : List BucketNode :=
  ((t.buckets[i]?).getD blistNew).nodes

def htNew : HashTable :=
  { size := 0, capacity := defaultInitialCapacity,
    buckets := List.replicate defaultInitialCapacity blistNew }

/-- `size >= capacity * load_factor`, in binary32 with both sides scaled by 4:
the load factor is 0.75 and scaling by a power of two commutes with rounding. -/
def loaded (t : HashTable) : Bool := f32 (3 * f32 t.capacity) ≤ 4 * f32 t.size

/-- The walk of `ht_put`. `is_unique` stays true after a match, so a new node is
linked after `prev` either way: a match is dropped with everything behind it. -/
def chainPut (new : BucketNode) : List BucketNode → List BucketNode
  | [] => [new]
  | n :: rest => if n.key = new.key then [new] else n :: chainPut new rest

/-- `ht_put` from the bucket walk on: the bucket index is the caller's. -/
def putAt (t : HashTable) (hash : Nat) (new : BucketNode) : HashTable :=
  { t with size := t.size + 1,
           buckets := t.buckets.modify hash fun b => { b with nodes := chainPut new b.nodes } }

/-- `hashtable_resize`, which re-enters `ht_put` for every node of the old
buckets; `none` is the nonzero return. The size field is not reset. -/
def hashtableResize (htPut : HashTable → BucketNode → HashTable) (t : HashTable)
    (newCapacity : Nat) : Option HashTable :=
  if maxCapacity ≤ newCapacity then none
  else some <| (t.buckets.flatMap BucketList.nodes).foldl htPut
    { t with capacity := newCapacity, buckets := List.replicate newCapacity blistNew }

/-- `ht_put` with a bound on how deeply `hashtable_resize` may re-enter it. The
bucket index is taken before the resize. Every path of the source returns -1. -/
def htPutDepth : Nat → HashTable → BucketNode → HashTable
  | 0, t, _ => t
  | depth + 1, t, new =>
    let hash := slot new.key t.capacity
    if loaded t then
      match hashtableResize (htPutDepth depth) t (t.capacity * 2) with
      | none => t
      | some t' => putAt t' hash new
    else putAt t hash new

/-- Each nested resize doubles a capacity that stays below `MAX_CAPACITY`, so
the re-entry is at most 30 deep. -/
def htPut (t : HashTable) (key value : Str) (exported : Bool) : HashTable :=
  htPutDepth 31 t { key := key, value := value, exported := exported }

def chainGet (nodes : List BucketNode) (key : Str) : Option BucketNode :=
  nodes.find? fun n => n.key = key

/-- The node both lookups stop at. -/
def htFind (t : HashTable) (key : Str) : Option BucketNode :=
  chainGet (t.chain (slot key t.capacity)) key

def htGet (t : HashTable) (key : Str) : Option Str := (htFind t key).map BucketNode.value

/-- `ht_get_exported`: the flag it stores in `dst`; `none` is the return -1. -/
def htGetExported (t : HashTable) (key : Str) : Option Bool :=
  (htFind t key).map BucketNode.exported

def htContains (t : HashTable) (key : Str) : Bool := (htGet t key).isSome

/-- The walk of `blist_remove`. It reads the link of the node it has just freed,
and would unlink a second match through it; `none` when there is one. -/
def unlink (key : Str) : List BucketNode → Option (List BucketNode)
  | [] => some []
  | n :: rest =>
    if n.key = key then if rest.any fun m => m.key = key then none else some rest
    else (unlink key rest).map (n :: ·)

def blistRemove (b : BucketList) (key : Str) : Option BucketList :=
  match chainGet b.nodes key with
  | none => some b
  | some _ => (unlink key b.nodes).map fun nodes => { size := sizeSub b.size 1, nodes := nodes }

/-- `ht_remove` on a key that is bound returns 0; on one that is not,
`blist_get_value` follows a null pointer. -/
def htRemove (t : HashTable) (key : Str) : Option HashTable :=
  let hash := slot key t.capacity
  (htFind t key).bind fun _ =>
    (blistRemove ((t.buckets[hash]?).getD blistNew) key).map fun b =>
      { t with size := sizeSub t.size 1, buckets := t.buckets.set hash b }

end Shell.Hashtable
