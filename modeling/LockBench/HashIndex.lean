import LockBench.OccLock

/-!
# The hash index

`hash_index<occ_lock>`: an array of buckets, each with an `occ_lock`, a few inline
slots and an overflow chain of heap nodes.  `get`, `put` and `remove` run under
the bucket's lock, `get_optimistic` walks the bucket without it and validates the
version afterwards.

The text is given one access at a time: each of `findStep`, `upsertStep` and
`removeStep` makes the single field access, allocation or deallocation of its
program point and says where the function goes next.  A deleted node keeps its
last contents, so a late access to it can be seen; `new` takes any address that
is not live, in particular one that was deleted before.
-/

namespace HashIndex

/-- `key_type` and `value_type`. -/
abbrev Word := UInt64

/-- Addresses of overflow nodes. -/
abbrev Addr := Nat

/-- `chain_node`. -/
structure Node where
  key : Word
  val : Word
  next : Option Addr

/-- `bucket`; `version` counts the bumps of its lock's version word. -/
structure Bucket where
  version : Nat
  count : Nat
  keys : Nat → Word
  vals : Nat → Word
  chain : Option Addr

/-- The table and the heap. -/
structure Mem where
  bucket : Word → Bucket
  node : Addr → Node
  live : Addr → Bool

/-- `bucket_for`: fibonacci hashing. -/
def bucketFor (mask key : Word) : Word :=
  key * 11400714819323198485 &&& mask

/-- Points of `find_in_bucket`, named after the field that is read there. -/
inductive Find
  | count (i : Nat)
  | key (i : Nat)
  | val (i : Nat)
  | chain
  | nodeKey (c : Addr)
  | nodeVal (c : Addr)
  | nodeNext (c : Addr)
  deriving DecidableEq

/-- Points of `upsert_in_bucket`. -/
inductive Upsert
  | count (i : Nat)
  | key (i : Nat)
  | storeVal (i : Nat)
  | chain
  | nodeKey (c : Addr)
  | storeNodeVal (c : Addr)
  | nodeNext (c : Addr)
  | room
  | keyIndex
  | storeKey (i : Nat)
  | valIndex
  | storeNewVal (i : Nat)
  | loadCount
  | storeCount (n : Nat)
  | loadChain
  | new (head : Option Addr)
  | link (node : Addr)
  deriving DecidableEq

/-- What `pp` of `remove_from_bucket` points at. -/
inductive Link
  | head
  | next (c : Addr)
  deriving DecidableEq

/-- Points of `remove_from_bucket`. -/
inductive Remove
  | count (i : Nat)
  | key (i : Nat)
  | loadCount (i : Nat)
  | storeCount (i n : Nat)
  | keyIndex (i : Nat)
  | lastKey (i last : Nat)
  | storeKey (i : Nat) (w : Word)
  | valIndex (i : Nat)
  | lastVal (i last : Nat)
  | storeVal (i : Nat) (w : Word)
  | test (pp : Link)
  | load (pp : Link)
  | nodeKey (pp : Link) (c : Addr)
  | victim (pp : Link)
  | victimNext (pp : Link) (v : Addr)
  | unlink (pp : Link) (v : Addr) (next : Option Addr)
  | delete (v : Addr)
  | advance (pp : Link)
  deriving DecidableEq

/-- The operations under the lock. -/
inductive Call
  | get (key : Word)
  | put (key val : Word)
  | remove (key : Word)
  deriving DecidableEq

/-- What an operation returns. -/
inductive Res
  | value (r : Option Word)
  | flag (b : Bool)
  deriving DecidableEq

/-- Program points of a thread.  `start` is the version its `read_begin` returned. -/
inductive Pc
  | idle
  | readBegin (key : Word)
  | readFind (key : Word) (start : Nat) (f : Find)
  | readValidate (key : Word) (start : Nat) (r : Option Word)
  | readReturned (key : Word) (r : Option Word)
  | lockLoad (c : Call)
  | lockCas (c : Call) (expected : Nat)
  | getFind (key : Word) (f : Find)
  | putIn (key val : Word) (u : Upsert)
  | removeIn (key : Word) (r : Remove)
  | unlock (c : Call) (r : Res)
  | returned (c : Call) (r : Res)
  deriving DecidableEq

/-- How a thread's nondeterminism is resolved: the operation it starts, the
address `new` returns, a spurious failure of `compare_exchange_weak`, or nothing. -/
inductive Choice
  | getOptimistic (key : Word)
  | call (c : Call)
  | new (a : Addr)
  | spurious
  | go
  deriving DecidableEq

namespace Call

def key : Call → Word
  | .get k | .put k _ | .remove k => k

/-- Where the operation goes once it has the lock. -/
def enter : Call → Pc
  | .get k => .getFind k (.count 0)
  | .put k v => .putIn k v (.count 0)
  | .remove k => .removeIn k (.count 0)

end Call

namespace Mem

/-- Change one bucket. -/
def setBucket (m : Mem) (b : Word) (x : Bucket) : Mem :=
  { m with bucket := Function.update m.bucket b x }

/-- Change one node. -/
def setNode (m : Mem) (a : Addr) (x : Node) : Mem :=
  { m with node := Function.update m.node a x }

/-- Load `*pp`. -/
def loadLink (m : Mem) (b : Word) : Link → Option Addr
  | .head => (m.bucket b).chain
  | .next c => (m.node c).next

/-- Store `*pp`. -/
def storeLink (m : Mem) (b : Word) (x : Option Addr) : Link → Mem
  | .head => m.setBucket b { m.bucket b with chain := x }
  | .next c => m.setNode c { m.node c with next := x }

/-- One bump of a bucket's version. -/
def bump (m : Mem) (b : Word) : Mem :=
  m.setBucket b { m.bucket b with version := (m.bucket b).version + 1 }

end Mem

/-- The chain loop of `find_in_bucket` at the pointer it has loaded. -/
def findNode : Option Addr → Find ⊕ Option Word
  | none => .inr none
  | some c => .inl (.nodeKey c)

/-- One access of `find_in_bucket`: the next point or the result. -/
def findStep (m : Mem) (b key : Word) : Find → Find ⊕ Option Word
  | .count i => .inl (if i < (m.bucket b).count then .key i else .chain)
  | .key i => .inl (if (m.bucket b).keys i = key then .val i else .count (i + 1))
  | .val i => .inr (some ((m.bucket b).vals i))
  | .chain => findNode (m.bucket b).chain
  | .nodeKey c => .inl (if (m.node c).key = key then .nodeVal c else .nodeNext c)
  | .nodeVal c => .inr (some (m.node c).val)
  | .nodeNext c => findNode (m.node c).next

/-- The chain loop of `upsert_in_bucket` at the pointer it has loaded. -/
def upsertNode : Option Addr → Upsert
  | none => .room
  | some c => .nodeKey c

/-- One access of `upsert_in_bucket`: the memory after it, and the next point or
the result. -/
def upsertStep (slots : Nat) (m : Mem) (b key val : Word) (c : Choice) :
    Upsert → Option (Mem × (Upsert ⊕ Bool))
  | .count i => some (m, .inl (if i < (m.bucket b).count then .key i else .chain))
  | .key i => some (m, .inl (if (m.bucket b).keys i = key then .storeVal i else .count (i + 1)))
  | .storeVal i => some (m.setBucket b
      { m.bucket b with vals := Function.update (m.bucket b).vals i val }, .inr false)
  | .chain => some (m, .inl (upsertNode (m.bucket b).chain))
  | .nodeKey a => some (m, .inl (if (m.node a).key = key then .storeNodeVal a else .nodeNext a))
  | .storeNodeVal a => some (m.setNode a { m.node a with val := val }, .inr false)
  | .nodeNext a => some (m, .inl (upsertNode (m.node a).next))
  | .room => some (m, .inl (if (m.bucket b).count < slots then .keyIndex else .loadChain))
  | .keyIndex => some (m, .inl (.storeKey (m.bucket b).count))
  | .storeKey i => some (m.setBucket b
      { m.bucket b with keys := Function.update (m.bucket b).keys i key }, .inl .valIndex)
  | .valIndex => some (m, .inl (.storeNewVal (m.bucket b).count))
  | .storeNewVal i => some (m.setBucket b
      { m.bucket b with vals := Function.update (m.bucket b).vals i val }, .inl .loadCount)
  | .loadCount => some (m, .inl (.storeCount (((m.bucket b).count + 1) % 256)))
  | .storeCount n => some (m.setBucket b { m.bucket b with count := n }, .inr true)
  | .loadChain => some (m, .inl (.new (m.bucket b).chain))
  | .new head =>
      match c with
      | .new a =>
          if m.live a then none
          else some ({ m.setNode a ⟨key, val, head⟩ with
            live := Function.update m.live a true }, .inl (.link a))
      | _ => none
  | .link a => some (m.setBucket b { m.bucket b with chain := some a }, .inr true)

/-- One access of `remove_from_bucket`.  A null pointer is never dereferenced: the
points that would do so have no step. -/
def removeStep (m : Mem) (b key : Word) : Remove → Option (Mem × (Remove ⊕ Bool))
  | .count i => some (m, .inl (if i < (m.bucket b).count then .key i else .test .head))
  | .key i => some (m, .inl (if (m.bucket b).keys i = key then .loadCount i else .count (i + 1)))
  | .loadCount i => some (m, .inl (.storeCount i (((m.bucket b).count + 255) % 256)))
  | .storeCount i n => some (m.setBucket b { m.bucket b with count := n }, .inl (.keyIndex i))
  | .keyIndex i => some (m, .inl (.lastKey i (m.bucket b).count))
  | .lastKey i last => some (m, .inl (.storeKey i ((m.bucket b).keys last)))
  | .storeKey i w => some (m.setBucket b
      { m.bucket b with keys := Function.update (m.bucket b).keys i w }, .inl (.valIndex i))
  | .valIndex i => some (m, .inl (.lastVal i (m.bucket b).count))
  | .lastVal i last => some (m, .inl (.storeVal i ((m.bucket b).vals last)))
  | .storeVal i w => some (m.setBucket b
      { m.bucket b with vals := Function.update (m.bucket b).vals i w }, .inr true)
  | .test pp =>
      match m.loadLink b pp with
      | none => some (m, .inr false)
      | some _ => some (m, .inl (.load pp))
  | .load pp => (m.loadLink b pp).map fun c => (m, .inl (.nodeKey pp c))
  | .nodeKey pp c => some (m, .inl (if (m.node c).key = key then .victim pp else .advance pp))
  | .victim pp => (m.loadLink b pp).map fun v => (m, .inl (.victimNext pp v))
  | .victimNext pp v => some (m, .inl (.unlink pp v (m.node v).next))
  | .unlink pp v next => some (m.storeLink b next pp, .inl (.delete v))
  | .delete v => some ({ m with live := Function.update m.live v false }, .inr true)
  | .advance pp => (m.loadLink b pp).map fun c => (m, .inl (.test (.next c)))

/-- Leave `find_in_bucket` or go on in it. -/
def findGo {P : Type} (next : Find → P) (done : Option Word → P) : Find ⊕ Option Word → P
  | .inl f => next f
  | .inr r => done r

/-- One access of a thread. -/
def next (slots : Nat) (mask : Word) (m : Mem) (p : Pc) (c : Choice) : Option (Mem × Pc) :=
  match p with
  | .idle =>
      match c with
      | .getOptimistic k => some (m, .readBegin k)
      | .call c => some (m, .lockLoad c)
      | _ => none
  | .readBegin k =>
      let v := (m.bucket (bucketFor mask k)).version
      some (m, if OccLock.odd v then .readBegin k else .readFind k v (.count 0))
  | .readFind k v f =>
      some (m, findGo (.readFind k v) (.readValidate k v) (findStep m (bucketFor mask k) k f))
  | .readValidate k v r =>
      some (m, if OccLock.word (m.bucket (bucketFor mask k)).version = OccLock.word v
        then .readReturned k r else .readBegin k)
  | .readReturned _ _ => some (m, .idle)
  | .lockLoad c =>
      let v := (m.bucket (bucketFor mask c.key)).version
      some (m, if OccLock.odd v then .lockLoad c else .lockCas c v)
  | .lockCas call v =>
      if c ≠ .spurious ∧
          OccLock.word (m.bucket (bucketFor mask call.key)).version = OccLock.word v then
        some (m.bump (bucketFor mask call.key), call.enter)
      else some (m, .lockLoad call)
  | .getFind k f =>
      some (m, findGo (.getFind k) (fun r => .unlock (.get k) (.value r))
        (findStep m (bucketFor mask k) k f))
  | .putIn k v u =>
      (upsertStep slots m (bucketFor mask k) k v c u).map fun r =>
        (r.1, r.2.elim (.putIn k v) fun b => .unlock (.put k v) (.flag b))
  | .removeIn k r =>
      (removeStep m (bucketFor mask k) k r).map fun r =>
        (r.1, r.2.elim (.removeIn k) fun b => .unlock (.remove k) (.flag b))
  | .unlock call r => some (m.bump (bucketFor mask call.key), .returned call r)
  | .returned _ _ => some (m, .idle)

/-- The empty table over an empty heap. -/
def initMem : Mem where
  bucket := fun _ => ⟨0, 0, fun _ => 0, fun _ => 0, none⟩
  node := fun _ => ⟨0, 0, none⟩
  live := fun _ => false

/-- Any number of threads on one index. -/
def machine (T : Type) [DecidableEq T] (slots : Nat) (mask : Word) :
    Machine (ScState T Mem Pc) (T × Choice) :=
  interleave (fun _ => next slots mask) initMem .idle

/-! ## The lookup of a key at an instant -/

/-- `find_in_bucket`, run from a point to its end on one unchanging memory. -/
inductive FindsFrom (m : Mem) (b key : Word) : Find → Option Word → Prop
  | done {f : Find} {r : Option Word} (h : findStep m b key f = .inr r) : FindsFrom m b key f r
  | more {f f' : Find} {r : Option Word} (h : findStep m b key f = .inl f')
      (rest : FindsFrom m b key f' r) : FindsFrom m b key f r

/-- The lookup of `key` in its bucket is `r`. -/
def Lookup (mask : Word) (m : Mem) (key : Word) (r : Option Word) : Prop :=
  FindsFrom m (bucketFor mask key) key (.count 0) r

end HashIndex
