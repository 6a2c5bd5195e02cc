import LockBench.SkipList
import LockBench.SeqObject

/-!
# `skiplist_index` used by one thread

The functions of `skiplist_index` with their loops, over the nodes as the source declares
them: sentinels are told by their flags, a null pointer is `none`.  With one thread a
lock is free unless the thread holds it itself; locking one of these is a deadlock, and
the versions that `get_optimistic` reads are those of free locks.

The level that `random_level` draws is part of a call.  Walks along a level run on fuel
that the number of nodes is enough for; `put`, `remove` and `get_optimistic` have fuel
for one round, so a call that would retry does not return.
-/

namespace SkipListSeq

open SkipList (Addr maxLevel head tail Found)

/-- `node`, less its lock. -/
structure Node (K V : Type) where
  key : K
  val : V
  topLevel : Nat
  marked : Bool
  fullyLinked : Bool
  isNegInf : Bool
  isPosInf : Bool
  next : Nat → Option Addr

/-- The nodes allocated so far are the numbers below `alloc`. -/
structure Index (K V : Type) where
  node : Addr → Node K V
  alloc : Nat

/-- How a round of a function ends. -/
inductive Round (R : Type)
  | retry
  | done (r : R)

section

variable {K V : Type}

/-- A sentinel as the constructor of `node` leaves it. -/
def sentinel [Inhabited K] [Inhabited V] : Node K V where
  key := default
  val := default
  topLevel := maxLevel - 1
  marked := false
  fullyLinked := true
  isNegInf := false
  isPosInf := false
  next := fun _ => none

/-- The constructor: two sentinels, linked at all levels. -/
def construct [Inhabited K] [Inhabited V] : Index K V where
  node a :=
    if a = head then
      { sentinel with isNegInf := true, next := fun l => if l < maxLevel then some tail else none }
    else { sentinel with isPosInf := true }
  alloc := 2

namespace Index

/-- `a->next[lvl]`. -/
def next (t : Index K V) (a : Addr) (lvl : Nat) : Option Addr :=
  (t.node a).next lvl

/-- Change one node. -/
def set (t : Index K V) (a : Addr) (n : Node K V) : Index K V :=
  { t with node := Function.update t.node a n }

/-- `a->next[lvl].store(p)`. -/
def setNext (t : Index K V) (a : Addr) (lvl : Nat) (p : Option Addr) : Index K V :=
  t.set a { t.node a with next := Function.update (t.node a).next lvl p }

end Index

/-- Take a lock on top of those held; one that is held already is never obtained. -/
def lock (held : List Addr) (a : Addr) : Option (List Addr) :=
  if a ∈ held then none else some (a :: held)

variable [LinearOrder K]

/-- `node_lt`. -/
def nodeLt (n : Node K V) (key : K) : Bool :=
  if n.isNegInf then true else if n.isPosInf then false else n.key < key

/-- The test for the key at the end of a search. -/
def isKey (n : Node K V) (key : K) : Bool :=
  !n.isPosInf && !n.isNegInf && n.key == key

/-! ## The search -/

/-- The walk of `find` along a level: the last node before the key and the one after it. -/
def walk (t : Index K V) (key : K) (lvl : Nat) : Nat → Addr → Option (Addr × Addr)
  | 0, _ => none
  | fuel + 1, pred =>
      (t.next pred lvl).bind fun curr =>
        if nodeLt (t.node curr) key then walk t key lvl fuel curr else some (pred, curr)

/-- The loop of `find` over the levels below `lvl`. -/
def findFrom (t : Index K V) (key : K) : Nat → Addr → Found → Option Found
  | 0, _, f => some f
  | lvl + 1, pred, f =>
      (walk t key lvl t.alloc pred).bind fun r =>
        findFrom t key lvl r.1
          { preds := Function.update f.preds lvl r.1
            succs := Function.update f.succs lvl r.2
            lfound := if f.lfound = none ∧ isKey (t.node r.2) key then some lvl else f.lfound }

/-- `find`. -/
def find (t : Index K V) (key : K) : Option Found :=
  findFrom t key maxLevel head ⟨fun _ => head, fun _ => head, none⟩

/-! ## The lookups -/

/-- The walk of `get` along a level, hand over hand. -/
def lockedWalk (t : Index K V) (key : K) (lvl : Nat) : Nat → Addr → Option Addr
  | 0, _ => none
  | fuel + 1, pred =>
      (t.next pred lvl).bind fun x =>
        if nodeLt (t.node x) key then
          (lock [pred] x).bind fun _ => lockedWalk t key lvl fuel x
        else some pred

/-- The loops of `get` over the levels below `lvl`. -/
def lockedFrom (t : Index K V) (key : K) : Nat → Addr → Option Addr
  | 0, pred => some pred
  | lvl + 1, pred => (lockedWalk t key lvl t.alloc pred).bind (lockedFrom t key lvl)

/-- What `curr` holds for the key. -/
def hit (n : Node K V) (key : K) : Option V :=
  if isKey n key && !n.marked then some n.val else none

/-- `get`. -/
def get (t : Index K V) (key : K) : Option (Option V) :=
  (lockedFrom t key maxLevel head).bind fun pred =>
    (t.next pred 0).bind fun curr => (lock [pred] curr).map fun _ => hit (t.node curr) key

/-- `get_shared`: the same with the locks in shared mode. -/
def getShared (t : Index K V) (key : K) : Option (Option V) :=
  get t key

/-- `read_begin`; it does not return while a writer is inside. -/
def readBegin (version : Addr → Nat) (a : Addr) : Option Nat :=
  if OccLock.odd (version a) then none else some (OccLock.word (version a))

/-- `read_validate`. -/
def readValidate (version : Addr → Nat) (a : Addr) (v : Nat) : Bool :=
  OccLock.word (version a) == v

/-- The walk of `get_optimistic` along a level; it may have to restart. -/
def optimisticWalk (t : Index K V) (version : Addr → Nat) (key : K) (lvl : Nat) :
    Nat → Addr → Nat → Option (Round (Addr × Nat))
  | 0, _, _ => none
  | fuel + 1, pred, v =>
      (t.next pred lvl).bind fun next =>
        if !readValidate version pred v then some .retry
        else if !nodeLt (t.node next) key then some (.done (pred, v))
        else (readBegin version next).bind fun v => optimisticWalk t version key lvl fuel next v

/-- The loop of `get_optimistic` over the levels below `lvl`. -/
def optimisticFrom (t : Index K V) (version : Addr → Nat) (key : K) :
    Nat → Addr → Nat → Option (Round (Addr × Nat))
  | 0, pred, v => some (.done (pred, v))
  | lvl + 1, pred, v =>
      (optimisticWalk t version key lvl t.alloc pred v).bind fun
        | .retry => some .retry
        | .done r => optimisticFrom t version key lvl r.1 r.2

/-- One round of `get_optimistic`. -/
def optimisticRound (t : Index K V) (version : Addr → Nat) (key : K) :
    Option (Round (Option V)) :=
  (readBegin version head).bind fun v =>
    (optimisticFrom t version key maxLevel head v).bind fun
      | .retry => some .retry
      | .done (pred, v) =>
          (t.next pred 0).bind fun curr => (readBegin version curr).bind fun vc =>
            if !readValidate version pred v then some .retry
            else if !readValidate version curr vc then some .retry
            else if !readValidate version pred v then some .retry
            else some (.done (hit (t.node curr) key))

/-! ## The updates -/

/-- The loop of `put` and `remove` that locks the predecessors from the level below `lvl`
down and stops at the first that is not as found. -/
def lockPreds (preds : Nat → Addr) (bad : Nat → Bool) : Nat → List Addr → Bool × List Addr
  | 0, locked => (true, locked)
  | lvl + 1, locked =>
      let locked := if preds lvl ∈ locked then locked else preds lvl :: locked
      if bad lvl then (false, locked) else lockPreds preds bad lvl locked

/-- The test of `put` at a level. -/
def putBad (t : Index K V) (f : Found) (lvl : Nat) : Bool :=
  (t.node (f.preds lvl)).marked || (t.node (f.succs lvl)).marked ||
    t.next (f.preds lvl) lvl != some (f.succs lvl)

/-- `new node(new_level - 1, key, val, false)`; its address is the old `alloc`. -/
def newNode (t : Index K V) (key : K) (val : V) (newLevel : Nat) : Index K V :=
  { t.set t.alloc ⟨key, val, newLevel - 1, false, false, false, false, fun _ => none⟩ with
    alloc := t.alloc + 1 }

/-- The loop that fills the pointers of the new node at the levels below `k`. -/
def fillNext (t : Index K V) (n : Addr) (succs : Nat → Addr) : Nat → Index K V
  | 0 => t
  | k + 1 => (fillNext t n succs k).setNext n k (some (succs k))

/-- The loop that links the new node at the levels below `k`. -/
def linkPreds (t : Index K V) (n : Addr) (preds : Nat → Addr) : Nat → Index K V
  | 0 => t
  | k + 1 => (linkPreds t n preds k).setNext (preds k) k (some n)

/-- `put` once the predecessors are locked. -/
def insertNode (t : Index K V) (f : Found) (key : K) (val : V) (newLevel : Nat) : Index K V :=
  let n := t.alloc
  let t := newNode t key val newLevel
  let t := fillNext t n f.succs newLevel
  let t := linkPreds t n f.preds newLevel
  t.set n { t.node n with fullyLinked := true }

/-- One round of `put`. -/
def putRound (t : Index K V) (key : K) (val : V) (newLevel : Nat) :
    Option (Round (Index K V × Bool)) :=
  (find t key).bind fun f =>
    match f.lfound with
    | some l =>
        let found := f.succs l
        if (t.node found).marked then some .retry
        else if !(t.node found).fullyLinked then none
        else some (.done (t.set found { t.node found with val := val }, false))
    | none =>
        if (lockPreds f.preds (putBad t f) newLevel []).1 then
          some (.done (insertNode t f key val newLevel, true))
        else some .retry

/-- The test of `remove` at a level. -/
def removeBad (t : Index K V) (f : Found) (victim : Addr) (lvl : Nat) : Bool :=
  (t.node (f.preds lvl)).marked || t.next (f.preds lvl) lvl != some victim

/-- The loop that unlinks the victim from the level below `lvl` down. -/
def unlinkVictim (victim : Addr) (preds : Nat → Addr) : Nat → Index K V → Index K V
  | 0, t => t
  | lvl + 1, t => unlinkVictim victim preds lvl (t.setNext (preds lvl) lvl (t.next victim lvl))

/-- One round of `remove`. -/
def removeRound (t : Index K V) (key : K) : Option (Round (Index K V × Bool)) :=
  (find t key).bind fun f =>
    match f.lfound with
    | none => some (.done (t, false))
    | some l =>
        let victim := f.succs l
        let victimTop := (t.node victim).topLevel
        if !(t.node victim).fullyLinked || victimTop != l || (t.node victim).marked then
          some (.done (t, false))
        else
          let r := lockPreds f.preds (removeBad t f victim) (victimTop + 1) []
          if !r.1 then some .retry
          else (lock r.2 victim).map fun _ =>
            if (t.node victim).marked then .done (t, false)
            else .done (unlinkVictim victim f.preds (victimTop + 1)
              (t.set victim { t.node victim with marked := true }), true)

/-! ## Sequences of calls -/

/-- A function that needs no second round. -/
def once {R : Type} (r : Option (Round R)) : Option R :=
  r.bind fun
    | .retry => none
    | .done x => some x

/-- The calls of one thread: `put` with the level that `random_level` draws,
`get_optimistic` with versions of locks that are all free. -/
inductive Call (K V : Type)
  | get (key : K)
  | getShared (key : K)
  | getOptimistic (key : K) (version : {v : Addr → Nat // ∀ a, v a % 2 = 0})
  | put (key : K) (val : V) (newLevel : {n : Nat // 1 ≤ n ∧ n ≤ maxLevel})
  | remove (key : K)

/-- The operation that a call is meant to be. -/
def Call.op : Call K V → MapOp K V
  | .get key | .getShared key | .getOptimistic key _ => .get key
  | .put key val _ => .put key val
  | .remove key => .remove key

/-- One call; `none` if it does not return in its first round. -/
def Call.run (t : Index K V) : Call K V → Option (Index K V × MapRes V)
  | .get key => (SkipListSeq.get t key).map fun r => (t, .value r)
  | .getShared key => (SkipListSeq.getShared t key).map fun r => (t, .value r)
  | .getOptimistic key version =>
      (once (optimisticRound t version.1 key)).map fun r => (t, .value r)
  | .put key val newLevel => (once (putRound t key val newLevel.1)).map fun r => (r.1, .flag r.2)
  | .remove key => (once (removeRound t key)).map fun r => (r.1, .flag r.2)

/-- A sequence of calls: the index behind it and the results. -/
def runCalls : Index K V → List (Call K V) → Option (Index K V × List (MapRes V))
  | t, [] => some (t, [])
  | t, c :: cs => (c.run t).bind fun r => (runCalls r.1 cs).map fun rs => (rs.1, r.2 :: rs.2)

end

end SkipListSeq
