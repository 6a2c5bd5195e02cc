import LockBench.BptreeNode
import LockBench.OccLock
import LockBench.SeqObject

/-!
# `bptree_index` used by one thread

The nodes allocated so far are the numbers below `alloc`; `heap` holds their
contents.  With one thread every lock is free when it is asked for, so only the
versions that `get_optimistic` reads are kept of the locks.  The loops run on fuel,
which the number of nodes is enough for: a path down the tree meets no node twice.

`put` collects in `held` the nodes from the last one that a split below cannot reach
past; the list is the source's array, last element first, and a push behind the end
of the array is a failure of the call.
-/

namespace BptreeIndex

/-- `MAX_HEIGHT`. -/
def maxHeight : Nat := 32

/-- The nodes, how many were allocated, and `root_`. -/
structure Tree (K V : Type) where
  heap : Ptr → Node K V
  alloc : Nat
  root : Ptr

/-- What a step on the way up leaves to do: nothing, or to insert a separator and the
node behind it one level higher. -/
inductive Outcome (K : Type)
  | done (inserted : Bool)
  | push (sep : K) (right : Ptr)

section

variable {K V : Type}

namespace Tree

/-- Store a node. -/
def set (t : Tree K V) (p : Ptr) (x : Node K V) : Tree K V :=
  { t with heap := Function.update t.heap p x }

/-- `new node()` with its contents; its address is the old `alloc`. -/
def new (t : Tree K V) (x : Node K V) : Tree K V :=
  { t with heap := Function.update t.heap t.alloc x, alloc := t.alloc + 1 }

/-- The constructor: one empty leaf. -/
def empty : Tree K V where
  heap := fun _ => .leaf [] none
  alloc := 1
  root := 0

end Tree

/-- `free_subtree`: the nodes in the order in which they are deleted. -/
def freeSubtree (heap : Ptr → Node K V) : Nat → Ptr → Option (List Ptr)
  | 0, _ => none
  | fuel + 1, p =>
      match heap p with
      | .leaf _ _ => some [p]
      | .internal _ cs => (cs.mapM (freeSubtree heap fuel)).map fun ds => ds.flatten ++ [p]

variable [LinearOrder K]

/-! ## The lookups -/

/-- The descent that `get`, `get_shared` and `remove` share. -/
def findLeaf (heap : Ptr → Node K V) (key : K) : Nat → Ptr → Option Ptr
  | 0, _ => none
  | fuel + 1, cur =>
      match heap cur with
      | .leaf _ _ => some cur
      | .internal ks cs => cs[upperSlot ks key]?.bind (findLeaf heap key fuel)

/-- `get`. -/
def get (t : Tree K V) (key : K) : Option (Option V) :=
  (findLeaf t.heap key t.alloc t.root).map fun cur => findInLeaf (t.heap cur).entries key

/-- `get_shared`: the same with the locks in shared mode. -/
def getShared (t : Tree K V) (key : K) : Option (Option V) :=
  get t key

/-- `read_begin`; it does not return while a writer is inside. -/
def readBegin (version : Ptr → Nat) (p : Ptr) : Option Nat :=
  if OccLock.odd (version p) then none else some (OccLock.word (version p))

/-- `read_validate`. -/
def readValidate (version : Ptr → Nat) (p : Ptr) (v : Nat) : Bool :=
  OccLock.word (version p) == v

/-- The loop of `get_optimistic` from a node on; a failed validation starts over. -/
def optimisticFrom (t : Tree K V) (version : Ptr → Nat) (key : K) : Nat → Ptr → Option (Option V)
  | 0, _ => none
  | fuel + 1, cur =>
      (readBegin version cur).bind fun v =>
        match t.heap cur with
        | .leaf es _ =>
            if readValidate version cur v then some (findInLeaf es key)
            else optimisticFrom t version key fuel t.root
        | .internal ks cs =>
            cs[upperSlot ks key]?.bind fun child =>
              if readValidate version cur v then optimisticFrom t version key fuel child
              else optimisticFrom t version key fuel t.root

/-- `get_optimistic`. -/
def getOptimistic (t : Tree K V) (version : Ptr → Nat) (key : K) : Option (Option V) :=
  optimisticFrom t version key t.alloc t.root

/-! ## The updates -/

/-- `remove`. -/
def remove (t : Tree K V) (key : K) : Option (Tree K V × Bool) :=
  (findLeaf t.heap key t.alloc t.root).bind fun cur =>
    match t.heap cur with
    | .leaf es next => some (t.set cur (.leaf (leafRemove es key).1 next), (leafRemove es key).2)
    | .internal _ _ => none

/-- `held[held_n++] = p`. -/
def hold (held : List Ptr) (p : Ptr) : Option (List Ptr) :=
  if held.length < maxHeight + 1 then some (p :: held) else none

/-- The descent of `put`. -/
def descend (F : Nat) (heap : Ptr → Node K V) (key : K) : Nat → List Ptr → Ptr → Option (List Ptr)
  | 0, _, _ => none
  | fuel + 1, held, cur =>
      match heap cur with
      | .leaf _ _ => some held
      | .internal ks cs =>
          cs[upperSlot ks key]?.bind fun child =>
            (hold (if (heap child).n < F then [] else held) child).bind fun held =>
              descend F heap key fuel held child

/-- What `put` does to the leaf. -/
def leafPut (F : Nat) (t : Tree K V) (cur : Ptr) (key : K) (val : V) :
    Option (Tree K V × Outcome K) :=
  match t.heap cur with
  | .internal _ _ => none
  | .leaf es next =>
      if es.length < F then
        some (t.set cur (.leaf (leafInsertOrUpdate es key val).1 next),
          .done (leafInsertOrUpdate es key val).2)
      else
        match leafFindExact es key with
        | some i => some (t.set cur (.leaf (setVal es i val) next), .done false)
        | none =>
            match splitLeaf es key val with
            | (_, _, none) => none
            | (left, right, some sep) =>
                some ((t.new (.leaf right next)).set cur (.leaf left (some t.alloc)),
                  .push sep t.alloc)

/-- The body of the loop on the way up. -/
def pushUp (F : Nat) (t : Tree K V) (parent : Ptr) (sep : K) (right : Ptr) :
    Option (Tree K V × Outcome K) :=
  match t.heap parent with
  | .leaf _ _ => none
  | .internal ks cs =>
      if ks.length < F then
        some (t.set parent (.internal (internalInsert ks cs sep right).1
          (internalInsert ks cs sep right).2), .done true)
      else
        match splitInternal ks cs sep right with
        | (_, _, none) => none
        | (l, r, some k) =>
            some ((t.new (.internal r.1 r.2)).set parent (.internal l.1 l.2), .push k t.alloc)

/-- The root split. -/
def newRoot (t : Tree K V) (oldRoot : Ptr) (sep : K) (right : Ptr) : Tree K V :=
  { t.new (.internal [sep] [oldRoot, right]) with root := t.alloc }

/-- The loop on the way up over the held ancestors; `child` has just been split, and
is `held[0]` when no ancestor is left. -/
def propagate (F : Nat) : Tree K V → Outcome K → Ptr → List Ptr → Option (Tree K V × Bool)
  | t, .done inserted, _, _ => some (t, inserted)
  | t, .push sep right, child, [] => some (newRoot t child sep right, true)
  | t, .push sep right, _, parent :: rest =>
      (pushUp F t parent sep right).bind fun r => propagate F r.1 r.2 parent rest

/-- `put` from the end of the descent on. -/
def putHeld (F : Nat) (t : Tree K V) (key : K) (val : V) : List Ptr → Option (Tree K V × Bool)
  | [] => none
  | cur :: ancestors =>
      (leafPut F t cur key val).bind fun r => propagate F r.1 r.2 cur ancestors

/-- `put`. -/
def put (F : Nat) (t : Tree K V) (key : K) (val : V) : Option (Tree K V × Bool) :=
  (descend F t.heap key t.alloc [t.root] t.root).bind (putHeld F t key val)

/-! ## Sequences of calls -/

/-- The calls of one thread; a `get_optimistic` meets versions of locks that are all
free. -/
inductive Call (K V : Type)
  | get (key : K)
  | getShared (key : K)
  | getOptimistic (key : K) (version : {v : Ptr → Nat // ∀ p, v p % 2 = 0})
  | put (key : K) (val : V)
  | remove (key : K)

/-- The operation that a call is meant to be. -/
def Call.op : Call K V → MapOp K V
  | .get key | .getShared key | .getOptimistic key _ => .get key
  | .put key val => .put key val
  | .remove key => .remove key

/-- One call; `none` if it does not return as the language defines it. -/
def Call.run (F : Nat) (t : Tree K V) : Call K V → Option (Tree K V × MapRes V)
  | .get key => (BptreeIndex.get t key).map fun r => (t, .value r)
  | .getShared key => (BptreeIndex.getShared t key).map fun r => (t, .value r)
  | .getOptimistic key version =>
      (BptreeIndex.getOptimistic t version.1 key).map fun r => (t, .value r)
  | .put key val => (BptreeIndex.put F t key val).map fun r => (r.1, .flag r.2)
  | .remove key => (BptreeIndex.remove t key).map fun r => (r.1, .flag r.2)

/-- A sequence of calls from the empty tree on: the tree behind it and the results. -/
def runCalls (F : Nat) : Tree K V → List (Call K V) → Option (Tree K V × List (MapRes V))
  | t, [] => some (t, [])
  | t, c :: cs =>
      (c.run F t).bind fun r => (runCalls F r.1 cs).map fun rs => (rs.1, r.2 :: rs.2)

/-- The number of levels below a node, along the first children. -/
def levelsBelow (heap : Ptr → Node K V) : Nat → Ptr → Nat
  | 0, _ => 0
  | fuel + 1, p =>
      match heap p with
      | .leaf _ _ => 0
      | .internal _ cs => (cs.head?.map (levelsBelow heap fuel)).getD 0 + 1

/-- The height of the tree. -/
def Tree.height (t : Tree K V) : Nat :=
  levelsBelow t.heap t.alloc t.root

end

end BptreeIndex
