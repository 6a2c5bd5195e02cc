import LockBench.HashIndex
import LockBench.SeqObject
import LockBench.LinkedChain

/-!
# `hash_index` used by one thread

The table of `hash_index` for any number of buckets and any `InlineSlots`, function by
function.  With one thread every lock is free when it is asked for, so only the versions
that `get_optimistic` reads are kept of the locks.

Array indices are checked against the size of the array, and loops run on fuel: 256
rounds for the byte that counts inline slots, one more than the number of nodes for a
chain.  Nodes are numbered as they are allocated; `deleted` lists those that were
deleted since.
-/

namespace HashTable

open HashIndex (Word Addr Node Link bucketFor)
open LinkedChain (Linked)

/-- `bucket`, less its lock. -/
structure Bucket where
  count : UInt8
  keys : Nat → Word
  vals : Nat → Word
  chain : Option Addr

/-- The nodes, how many were allocated, and which were deleted. -/
structure Heap where
  node : Addr → Node
  alloc : Nat
  deleted : List Addr

/-- `mask_`, the array behind `buckets_` with its length, and the nodes. -/
structure Table where
  mask : Word
  size : Nat
  bucket : Nat → Bucket
  heap : Heap

/-- The constructor. -/
def construct (numBuckets : Word) : Table where
  mask := numBuckets - 1
  size := numBuckets.toNat
  bucket := fun _ => ⟨0, fun _ => 0, fun _ => 0, none⟩
  heap := ⟨fun _ => ⟨0, 0, none⟩, 0, []⟩

/-- `a[i]` of an array of `InlineSlots` elements. -/
def read (slots : Nat) (a : Nat → Word) (i : UInt8) : Option Word :=
  if i.toNat < slots then some (a i.toNat) else none

/-- `a[i] = w`. -/
def write (slots : Nat) (a : Nat → Word) (i : UInt8) (w : Word) : Option (Nat → Word) :=
  if i.toNat < slots then some (Function.update a i.toNat w) else none

/-- The loop over the inline slots: the first that holds the key. -/
def slotLoop (slots : Nat) (b : Bucket) (key : Word) : Nat → UInt8 → Option (Option UInt8)
  | 0, _ => none
  | fuel + 1, i =>
      if i < b.count then
        (read slots b.keys i).bind fun k =>
          if k = key then some (some i) else slotLoop slots b key fuel (i + 1)
      else some none

/-- The loop over a chain: the first node that holds the key. -/
def chainLoop (node : Addr → Node) (key : Word) : Nat → Option Addr → Option (Option Addr)
  | 0, _ => none
  | _ + 1, none => some none
  | fuel + 1, some c =>
      if (node c).key = key then some (some c) else chainLoop node key fuel (node c).next

/-- `find_in_bucket`. -/
def findInBucket (slots : Nat) (h : Heap) (b : Bucket) (key : Word) : Option (Option Word) :=
  (slotLoop slots b key 256 0).bind fun
    | some i => (read slots b.vals i).map some
    | none => (chainLoop h.node key (h.alloc + 1) b.chain).map fun c =>
        c.map fun c => (h.node c).val

/-- The end of `upsert_in_bucket`, for a key that is not there. -/
def insertNew (slots : Nat) (h : Heap) (b : Bucket) (key val : Word) : Option (Heap × Bucket) :=
  if b.count.toNat < slots then
    (write slots b.keys b.count key).bind fun keys =>
      (write slots b.vals b.count val).map fun vals =>
        (h, { b with keys := keys, vals := vals, count := b.count + 1 })
  else
    some ({ h with node := Function.update h.node h.alloc ⟨key, val, b.chain⟩, alloc := h.alloc + 1 },
      { b with chain := some h.alloc })

/-- `upsert_in_bucket`. -/
def upsertInBucket (slots : Nat) (h : Heap) (b : Bucket) (key val : Word) :
    Option (Heap × Bucket × Bool) :=
  (slotLoop slots b key 256 0).bind fun
    | some i => (write slots b.vals i val).map fun vals => (h, { b with vals := vals }, false)
    | none => (chainLoop h.node key (h.alloc + 1) b.chain).bind fun
      | some c => some ({ h with node := Function.update h.node c { h.node c with val := val } }, b,
          false)
      | none => (insertNew slots h b key val).map fun r => (r.1, r.2, true)

/-- Load `*pp`. -/
def loadLink (h : Heap) (b : Bucket) : Link → Option Addr
  | .head => b.chain
  | .next c => (h.node c).next

/-- Store `*pp`. -/
def storeLink (h : Heap) (b : Bucket) (x : Option Addr) : Link → Heap × Bucket
  | .head => (h, { b with chain := x })
  | .next c => ({ h with node := Function.update h.node c { h.node c with next := x } }, b)

/-- The loop of `remove_from_bucket` over the chain; it unlinks and deletes its victim. -/
def unlinkLoop (h : Heap) (b : Bucket) (key : Word) : Nat → Link → Option (Heap × Bucket × Bool)
  | 0, _ => none
  | fuel + 1, pp =>
      match loadLink h b pp with
      | none => some (h, b, false)
      | some c =>
          if (h.node c).key = key then
            let r := storeLink h b (h.node c).next pp
            some ({ r.1 with deleted := r.1.deleted ++ [c] }, r.2, true)
          else unlinkLoop h b key fuel (.next c)

/-- `remove_from_bucket`; an inline slot is filled with the last one. -/
def removeFromBucket (slots : Nat) (h : Heap) (b : Bucket) (key : Word) :
    Option (Heap × Bucket × Bool) :=
  (slotLoop slots b key 256 0).bind fun
    | some i =>
        let count := b.count - 1
        (read slots b.keys count).bind fun k => (write slots b.keys i k).bind fun keys =>
          (read slots b.vals count).bind fun v => (write slots b.vals i v).map fun vals =>
            (h, { b with count := count, keys := keys, vals := vals }, true)
    | none => unlinkLoop h b key (h.alloc + 1) .head

/-! ## The public functions -/

/-- `bucket_for`. -/
def Table.bucketOf (t : Table) (key : Word) : Nat :=
  (bucketFor t.mask key).toNat

/-- `buckets_[i]`. -/
def Table.at (t : Table) (i : Nat) : Option Bucket :=
  if i < t.size then some (t.bucket i) else none

/-- `get`. -/
def get (slots : Nat) (t : Table) (key : Word) : Option (Option Word) :=
  (t.at (t.bucketOf key)).bind fun b => findInBucket slots t.heap b key

/-- `get_shared`: the same with the lock in shared mode. -/
def getShared (slots : Nat) (t : Table) (key : Word) : Option (Option Word) :=
  get slots t key

/-- The loop of `get_optimistic`; a failed validation starts over. -/
def optimisticLoop (slots : Nat) (t : Table) (version : Nat → Nat) (key : Word) :
    Nat → Option (Option Word)
  | 0 => none
  | fuel + 1 =>
      let v := version (t.bucketOf key)
      if OccLock.odd v then none
      else (get slots t key).bind fun result =>
        if OccLock.word (version (t.bucketOf key)) = OccLock.word v then some result
        else optimisticLoop slots t version key fuel

/-- `get_optimistic`. -/
def getOptimistic (slots : Nat) (t : Table) (version : Nat → Nat) (key : Word) :
    Option (Option Word) :=
  optimisticLoop slots t version key 1

/-- Put a bucket and the heap back. -/
def Table.set (t : Table) (i : Nat) (h : Heap) (b : Bucket) : Table :=
  { t with heap := h, bucket := Function.update t.bucket i b }

/-- `put`. -/
def put (slots : Nat) (t : Table) (key val : Word) : Option (Table × Bool) :=
  (t.at (t.bucketOf key)).bind fun b =>
    (upsertInBucket slots t.heap b key val).map fun r => (t.set (t.bucketOf key) r.1 r.2.1, r.2.2)

/-- `remove`. -/
def remove (slots : Nat) (t : Table) (key : Word) : Option (Table × Bool) :=
  (t.at (t.bucketOf key)).bind fun b =>
    (removeFromBucket slots t.heap b key).map fun r => (t.set (t.bucketOf key) r.1 r.2.1, r.2.2)

/-- The inner loop of the destructor: the nodes in the order in which they are deleted. -/
def deleteChain (node : Addr → Node) : Nat → Option Addr → Option (List Addr)
  | 0, _ => none
  | _ + 1, none => some []
  | fuel + 1, some c => (deleteChain node fuel (node c).next).map (c :: ·)

/-- The destructor. -/
def destroy (t : Table) : Option (List Addr) :=
  ((List.range (t.mask + 1).toNat).mapM fun i =>
    (t.at i).bind fun b => deleteChain t.heap.node (t.heap.alloc + 1) b.chain).map List.flatten

/-- The calls of one thread; a `get_optimistic` meets versions of locks that are all
free. -/
inductive Call
  | get (key : Word)
  | getShared (key : Word)
  | getOptimistic (key : Word) (version : {v : Nat → Nat // ∀ b, v b % 2 = 0})
  | put (key val : Word)
  | remove (key : Word)

/-- The operation that a call is meant to be. -/
def Call.op : Call → MapOp Word Word
  | .get key | .getShared key | .getOptimistic key _ => .get key
  | .put key val => .put key val
  | .remove key => .remove key

/-- One call; `none` if it does not return as the language defines it. -/
def Call.run (slots : Nat) (t : Table) : Call → Option (Table × MapRes Word)
  | .get key => (HashTable.get slots t key).map fun r => (t, .value r)
  | .getShared key => (HashTable.getShared slots t key).map fun r => (t, .value r)
  | .getOptimistic key version =>
      (HashTable.getOptimistic slots t version.1 key).map fun r => (t, .value r)
  | .put key val => (HashTable.put slots t key val).map fun r => (r.1, .flag r.2)
  | .remove key => (HashTable.remove slots t key).map fun r => (r.1, .flag r.2)

/-- A sequence of calls: the table behind it and the results. -/
def runCalls (slots : Nat) : Table → List Call → Option (Table × List (MapRes Word))
  | t, [] => some (t, [])
  | t, c :: cs =>
      (c.run slots t).bind fun r => (runCalls slots r.1 cs).map fun rs => (rs.1, r.2 :: rs.2)

end HashTable
