import LockBench.OccLock
import LockBench.KeyValue

/-!
# The skip list index

`skiplist_index`: sixteen sorted lists over shared nodes, between two sentinels.
`put` and `remove` search without locks, lock the predecessors they found,
validate and then link or unlink; `get` and `get_shared` walk hand over hand under
locks; `get_optimistic` walks without locks and validates versions.  Nodes are
never freed while the index is in use.

The text is given one access at a time: each step function makes the single
atomic load or store, lock operation or allocation of its program point.  Fields
that never change (`key`, `top_level` and the sentinel flags) are read where they
are needed.  A node's key is an element of `WithBot (WithTop K)`: `⊥` is the head's
`is_neg_inf` and `⊤` the tail's `is_pos_inf`.

A lock is ideal mutual exclusion with a shared mode.  It also carries the version
of `occ_lock`, which both ends of an exclusive section bump; `LockKind` says which
of `get_shared` and `get_optimistic` the lock type offers.
-/

namespace SkipList

/-- Addresses of nodes. -/
abbrev Addr := Nat

/-- `MAX_LEVEL`. -/
def maxLevel : Nat := 16

/-- `head_`. -/
def head : Addr := 0

/-- `tail_`. -/
def tail : Addr := 1

/-- Which lookups besides `get` the lock type offers. -/
structure LockKind where
  shared : Bool
  optimistic : Bool

/-- The fields of all nodes, and the next free address. -/
structure Mem (T K V : Type) where
  rank : Addr → WithBot (WithTop K)
  top : Addr → Nat
  val : Addr → V
  marked : Addr → Bool
  fullyLinked : Addr → Bool
  next : Addr → Nat → Addr
  owner : Addr → Option T
  readers : Addr → Finset T
  version : Addr → Nat
  fresh : Addr

/-- How a lookup locks. -/
inductive Mode
  | exclusive
  | shared
  deriving DecidableEq

/-- The public operations. -/
inductive Call (K V : Type)
  | get (mode : Mode) (k : K)
  | getOptimistic (k : K)
  | put (k : K) (v : V)
  | remove (k : K)
  deriving DecidableEq

/-- The operation as a user of the map sees it. -/
def Call.op {K V : Type} : Call K V → MapOp K V
  | .get _ k | .getOptimistic k => .get k
  | .put k v => .put k v
  | .remove k => .remove k

/-- The lock type offers the operation. -/
def LockKind.offers {K V : Type} (kind : LockKind) : Call K V → Bool
  | .get .shared _ => kind.shared
  | .getOptimistic _ => kind.optimistic
  | _ => true

/-- The operations that search without locks. -/
inductive Upd (K V : Type)
  | put (k : K) (v : V)
  | remove (k : K)
  deriving DecidableEq

/-- `preds`, `succs` and the result of `find` (`none` for -1). -/
structure Found where
  preds : Nat → Addr
  succs : Nat → Addr
  lfound : Option Nat

/-- Points of the update of an existing node by `put`. -/
inductive UpdatePc
  | lock
  | marked
  | unlockRetry
  | wait
  | store
  | unlock
  deriving DecidableEq

/-- Points of the insertion of a node by `put`. -/
inductive PutPc
  | level
  | lock (lvl : Nat)
  | predMarked (lvl : Nat)
  | succMarked (lvl : Nat)
  | checkNext (lvl : Nat)
  | new
  | fill (n : Addr) (lvl : Nat)
  | link (n : Addr) (lvl : Nat)
  | full (n : Addr)
  deriving DecidableEq

/-- The local variables of an insertion. -/
structure PutCtx (K V : Type) where
  key : K
  val : V
  preds : Nat → Addr
  succs : Nat → Addr
  height : Nat
  locked : List Addr

/-- Points of `remove`, after its search. -/
inductive RemovePc
  | fullyLinked (lfound : Nat)
  | marked
  | lock (lvl : Nat)
  | predMarked (lvl : Nat)
  | checkNext (lvl : Nat)
  | lockVictim
  | victimMarked
  | mark
  | loadNext (lvl : Nat)
  | unlink (lvl : Nat) (succ : Addr)
  | unlockVictim (r : Bool)
  deriving DecidableEq

/-- The local variables of `remove`. -/
structure RemoveCtx (K : Type) where
  key : K
  preds : Nat → Addr
  victim : Addr
  locked : List Addr

/-- Points of `get` and `get_shared`. -/
inductive GetPc (V : Type)
  | lockHead
  | test (lvl : Nat) (pred : Addr)
  | step (lvl : Nat) (pred : Addr)
  | lockNext (lvl : Nat) (pred x : Addr)
  | unlockPred (lvl : Nat) (pred x : Addr)
  | curr (pred : Addr)
  | lockCurr (pred curr : Addr)
  | marked (pred curr : Addr)
  | val (pred curr : Addr)
  | unlockCurr (pred curr : Addr) (r : Option V)
  | unlockLast (pred : Addr) (r : Option V)
  deriving DecidableEq

/-- Points of `get_optimistic`; `v` and `vc` are versions from `read_begin`. -/
inductive OptPc (V : Type)
  | beginHead
  | next (lvl : Nat) (pred : Addr) (v : Nat)
  | check (lvl : Nat) (pred : Addr) (v : Nat) (next : Addr)
  | begin (lvl : Nat) (next : Addr)
  | curr (pred : Addr) (v : Nat)
  | beginCurr (pred : Addr) (v : Nat) (curr : Addr)
  | checkPred (pred : Addr) (v : Nat) (curr : Addr) (vc : Nat)
  | marked (pred : Addr) (v : Nat) (curr : Addr) (vc : Nat)
  | val (pred : Addr) (v : Nat) (curr : Addr) (vc : Nat)
  | checkCurr (pred : Addr) (v : Nat) (curr : Addr) (vc : Nat) (r : Option V)
  | recheck (pred : Addr) (v : Nat) (r : Option V)
  deriving DecidableEq

/-- Program points of a thread. -/
inductive Pc (K V : Type)
  | idle
  | find (u : Upd K V) (lvl : Nat) (pred : Addr) (f : Found)
  | update (k : K) (v : V) (n : Addr) (p : UpdatePc)
  | put (c : PutCtx K V) (p : PutPc)
  | remove (c : RemoveCtx K) (p : RemovePc)
  | release (u : Upd K V) (locked : List Addr) (r : Option Bool)
  | get (mode : Mode) (k : K) (p : GetPc V)
  | optimistic (k : K) (p : OptPc V)
  | returned (r : MapRes V)

/-- How a thread's nondeterminism is resolved: the operation it starts, the level
`random_level` draws, or nothing. -/
inductive Choice (K V : Type)
  | call (c : Call K V)
  | level (height : Nat)
  | go

section Program

variable {T K V : Type} [DecidableEq T] [LinearOrder K]

namespace Mem

variable (m : Mem T K V)

/-- `lock`, when the lock is free. -/
def lock (t : T) (a : Addr) : Option (Mem T K V) :=
  if m.owner a = none ∧ m.readers a = ∅ then
    some { m with
      owner := Function.update m.owner a (some t)
      version := Function.update m.version a (m.version a + 1) }
  else none

/-- `unlock`. -/
def unlock (a : Addr) : Mem T K V :=
  { m with
    owner := Function.update m.owner a none
    version := Function.update m.version a (m.version a + 1) }

/-- `read_lock`, when no writer is inside. -/
def readLock (t : T) (a : Addr) : Option (Mem T K V) :=
  if m.owner a = none then
    some { m with readers := Function.update m.readers a (insert t (m.readers a)) }
  else none

/-- `read_unlock`. -/
def readUnlock (t : T) (a : Addr) : Mem T K V :=
  { m with readers := Function.update m.readers a ((m.readers a).erase t) }

/-- The lock operation of a lookup. -/
def acquire (mode : Mode) (t : T) (a : Addr) : Option (Mem T K V) :=
  match mode with
  | .exclusive => m.lock t a
  | .shared => m.readLock t a

/-- The unlock operation of a lookup. -/
def releaseAs (mode : Mode) (t : T) (a : Addr) : Mem T K V :=
  match mode with
  | .exclusive => m.unlock a
  | .shared => m.readUnlock t a

/-- Store one `next` pointer. -/
def setNext (a : Addr) (lvl : Nat) (b : Addr) : Mem T K V :=
  { m with next := Function.update m.next a (Function.update (m.next a) lvl b) }

/-- `new node(...)` for a key. -/
def alloc (k : K) (v : V) (top : Nat) : Mem T K V :=
  { rank := Function.update m.rank m.fresh ((k : WithTop K) : WithBot (WithTop K))
    top := Function.update m.top m.fresh top
    val := Function.update m.val m.fresh v
    marked := Function.update m.marked m.fresh false
    fullyLinked := Function.update m.fullyLinked m.fresh false
    next := Function.update m.next m.fresh fun _ => 0
    owner := Function.update m.owner m.fresh none
    readers := Function.update m.readers m.fresh ∅
    version := Function.update m.version m.fresh 0
    fresh := m.fresh + 1 }

end Mem

/-- A key as the rank of its nodes. -/
def rankOf (k : K) : WithBot (WithTop K) := ((k : WithTop K) : WithBot (WithTop K))

/-- `node_lt`. -/
def nodeLt (m : Mem T K V) (n : Addr) (k : K) : Bool := m.rank n < rankOf k

/-- The key of an operation that searches. -/
def Upd.key : Upd K V → K
  | .put k _ | .remove k => k

/-- Where a search starts. -/
def startFind (u : Upd K V) : Pc K V :=
  .find u (maxLevel - 1) head ⟨fun _ => 0, fun _ => 0, none⟩

/-- Where an operation goes with the result of its search. -/
def foundAt (u : Upd K V) (f : Found) : Pc K V :=
  match u, f.lfound with
  | .put k v, some l => .update k v (f.succs l) .lock
  | .put k v, none => .put ⟨k, v, f.preds, f.succs, 0, []⟩ .level
  | .remove k, some l => .remove ⟨k, f.preds, f.succs l, []⟩ (.fullyLinked l)
  | .remove _, none => .returned (.flag false)

/-- One access of `find`: the load of `pred->next[lvl]`, and what follows from it. -/
def findStep (m : Mem T K V) (u : Upd K V) (lvl : Nat) (pred : Addr) (f : Found) : Pc K V :=
  let curr := m.next pred lvl
  if nodeLt m curr u.key then .find u lvl curr f
  else
    let f' : Found := ⟨Function.update f.preds lvl pred, Function.update f.succs lvl curr,
      if f.lfound = none ∧ m.rank curr = rankOf u.key then some lvl else f.lfound⟩
    match lvl with
    | 0 => foundAt u f'
    | lvl + 1 => .find u lvl pred f'

/-- One access of the update of an existing node. -/
def updateStep (t : T) (m : Mem T K V) (k : K) (v : V) (n : Addr) :
    UpdatePc → Option (Mem T K V × Pc K V)
  | .lock => (m.lock t n).map fun m' => (m', .update k v n .marked)
  | .marked => some (m, .update k v n (if m.marked n then .unlockRetry else .wait))
  | .unlockRetry => some (m.unlock n, startFind (.put k v))
  | .wait => some (m, .update k v n (if m.fullyLinked n then .store else .wait))
  | .store => some ({ m with val := Function.update m.val n v }, .update k v n .unlock)
  | .unlock => some (m.unlock n, .returned (.flag false))

/-- Give up the locks of an insertion and search again. -/
def PutCtx.retry (c : PutCtx K V) : Pc K V := .release (.put c.key c.val) c.locked none

/-- One access of an insertion. -/
def putStep (t : T) (m : Mem T K V) (c : PutCtx K V) (choice : Choice K V) :
    PutPc → Option (Mem T K V × Pc K V)
  | .level =>
      match choice with
      | .level h =>
          if 1 ≤ h ∧ h ≤ maxLevel then
            some (m, .put { c with height := h, locked := [] } (.lock (h - 1)))
          else none
      | _ => none
  | .lock lvl =>
      if c.preds lvl ∈ c.locked then some (m, .put c (.predMarked lvl))
      else (m.lock t (c.preds lvl)).map fun m' =>
        (m', .put { c with locked := c.locked ++ [c.preds lvl] } (.predMarked lvl))
  | .predMarked lvl =>
      some (m, if m.marked (c.preds lvl) then c.retry else .put c (.succMarked lvl))
  | .succMarked lvl =>
      some (m, if m.marked (c.succs lvl) then c.retry else .put c (.checkNext lvl))
  | .checkNext lvl =>
      some (m, if m.next (c.preds lvl) lvl ≠ c.succs lvl then c.retry
        else match lvl with
          | 0 => .put c .new
          | lvl + 1 => .put c (.lock lvl))
  | .new => some (m.alloc c.key c.val (c.height - 1), .put c (.fill m.fresh 0))
  | .fill n lvl => some (m.setNext n lvl (c.succs lvl),
      .put c (if lvl + 1 < c.height then .fill n (lvl + 1) else .link n 0))
  | .link n lvl => some (m.setNext (c.preds lvl) lvl n,
      .put c (if lvl + 1 < c.height then .link n (lvl + 1) else .full n))
  | .full n => some ({ m with fullyLinked := Function.update m.fullyLinked n true },
      .release (.put c.key c.val) c.locked (some true))

/-- Give up the locks of a removal and search again. -/
def RemoveCtx.retry (c : RemoveCtx K) : Pc K V := .release (.remove c.key) c.locked none

/-- One access of `remove`, after its search. -/
def removeStep (t : T) (m : Mem T K V) (c : RemoveCtx K) :
    RemovePc → Option (Mem T K V × Pc K V)
  | .fullyLinked lfound =>
      some (m, if ¬ m.fullyLinked c.victim then .returned (.flag false)
        else if m.top c.victim ≠ lfound then .returned (.flag false)
        else .remove c .marked)
  | .marked => some (m, if m.marked c.victim then .returned (.flag false)
      else .remove c (.lock (m.top c.victim)))
  | .lock lvl =>
      if c.preds lvl ∈ c.locked then some (m, .remove c (.predMarked lvl))
      else (m.lock t (c.preds lvl)).map fun m' =>
        (m', .remove { c with locked := c.locked ++ [c.preds lvl] } (.predMarked lvl))
  | .predMarked lvl =>
      some (m, if m.marked (c.preds lvl) then c.retry else .remove c (.checkNext lvl))
  | .checkNext lvl =>
      some (m, if m.next (c.preds lvl) lvl ≠ c.victim then c.retry
        else match lvl with
          | 0 => .remove c .lockVictim
          | lvl + 1 => .remove c (.lock lvl))
  | .lockVictim => (m.lock t c.victim).map fun m' => (m', .remove c .victimMarked)
  | .victimMarked =>
      some (m, .remove c (if m.marked c.victim then .unlockVictim false else .mark))
  | .mark => some ({ m with marked := Function.update m.marked c.victim true },
      .remove c (.loadNext (m.top c.victim)))
  | .loadNext lvl => some (m, .remove c (.unlink lvl (m.next c.victim lvl)))
  | .unlink lvl succ => some (m.setNext (c.preds lvl) lvl succ,
      match lvl with
      | 0 => .remove c (.unlockVictim true)
      | lvl + 1 => .remove c (.loadNext lvl))
  | .unlockVictim r => some (m.unlock c.victim, .release (.remove c.key) c.locked (some r))

/-- Unlock what is left of `locked`, then search again or return. -/
def releaseStep (m : Mem T K V) (u : Upd K V) (locked : List Addr) (r : Option Bool) :
    Mem T K V × Pc K V :=
  match locked with
  | a :: rest => (m.unlock a, .release u rest r)
  | [] => (m, match r with
      | some b => .returned (.flag b)
      | none => startFind u)

/-- One access of `get` (exclusive) or `get_shared`. -/
def getStep (t : T) (m : Mem T K V) (mode : Mode) (k : K) :
    GetPc V → Option (Mem T K V × Pc K V)
  | .lockHead => (m.acquire mode t head).map fun m' =>
      (m', .get mode k (.test (maxLevel - 1) head))
  | .test lvl pred => some (m, .get mode k (
      if nodeLt m (m.next pred lvl) k then .step lvl pred
      else match lvl with
        | 0 => .curr pred
        | lvl + 1 => .test lvl pred))
  | .step lvl pred => some (m, .get mode k (.lockNext lvl pred (m.next pred lvl)))
  | .lockNext lvl pred x => (m.acquire mode t x).map fun m' =>
      (m', .get mode k (.unlockPred lvl pred x))
  | .unlockPred lvl pred x => some (m.releaseAs mode t pred, .get mode k (.test lvl x))
  | .curr pred => some (m, .get mode k (.lockCurr pred (m.next pred 0)))
  | .lockCurr pred c => (m.acquire mode t c).map fun m' =>
      (m', .get mode k (if m.rank c = rankOf k then .marked pred c
        else .unlockCurr pred c none))
  | .marked pred c => some (m, .get mode k (
      if m.marked c then .unlockCurr pred c none else .val pred c))
  | .val pred c => some (m, .get mode k (.unlockCurr pred c (some (m.val c))))
  | .unlockCurr pred c r => some (m.releaseAs mode t c, .get mode k (.unlockLast pred r))
  | .unlockLast pred r => some (m.releaseAs mode t pred, .returned (.value r))

/-- One access of `get_optimistic`. -/
def optimisticStep (m : Mem T K V) (k : K) : OptPc V → Pc K V
  | .beginHead => .optimistic k (
      if OccLock.odd (m.version head) then .beginHead
      else .next (maxLevel - 1) head (m.version head))
  | .next lvl pred v => .optimistic k (.check lvl pred v (m.next pred lvl))
  | .check lvl pred v nx => .optimistic k (
      if OccLock.word (m.version pred) ≠ OccLock.word v then .beginHead
      else if nodeLt m nx k then .begin lvl nx
      else match lvl with
        | 0 => .curr pred v
        | lvl + 1 => .next lvl pred v)
  | .begin lvl nx => .optimistic k (
      if OccLock.odd (m.version nx) then .begin lvl nx else .next lvl nx (m.version nx))
  | .curr pred v => .optimistic k (.beginCurr pred v (m.next pred 0))
  | .beginCurr pred v c => .optimistic k (
      if OccLock.odd (m.version c) then .beginCurr pred v c
      else .checkPred pred v c (m.version c))
  | .checkPred pred v c vc => .optimistic k (
      if OccLock.word (m.version pred) ≠ OccLock.word v then .beginHead
      else if m.rank c = rankOf k then .marked pred v c vc
      else .checkCurr pred v c vc none)
  | .marked pred v c vc => .optimistic k (
      if m.marked c then .checkCurr pred v c vc none else .val pred v c vc)
  | .val pred v c vc => .optimistic k (.checkCurr pred v c vc (some (m.val c)))
  | .checkCurr pred v c vc r => .optimistic k (
      if OccLock.word (m.version c) ≠ OccLock.word vc then .beginHead else .recheck pred v r)
  | .recheck pred v r =>
      if OccLock.word (m.version pred) ≠ OccLock.word v then .optimistic k .beginHead
      else .returned (.value r)

/-- The first point of an operation. -/
def Call.enter : Call K V → Pc K V
  | .get mode k => .get mode k .lockHead
  | .getOptimistic k => .optimistic k .beginHead
  | .put k v => startFind (.put k v)
  | .remove k => startFind (.remove k)

/-- One access of a thread. -/
def next (kind : LockKind) (t : T) (m : Mem T K V) (p : Pc K V) (c : Choice K V) :
    Option (Mem T K V × Pc K V) :=
  match p with
  | .idle =>
      match c with
      | .call c => if kind.offers c then some (m, c.enter) else none
      | _ => none
  | .find u lvl pred f => some (m, findStep m u lvl pred f)
  | .update k v n p => updateStep t m k v n p
  | .put ctx p => putStep t m ctx c p
  | .remove ctx p => removeStep t m ctx p
  | .release u locked r => some (releaseStep m u locked r)
  | .get mode k p => getStep t m mode k p
  | .optimistic k p => some (m, optimisticStep m k p)
  | .returned _ => some (m, .idle)

/-- Two sentinels, linked at every level. -/
def initMem [Inhabited V] : Mem T K V where
  rank := fun a => if a = head then ⊥ else ⊤
  top := fun _ => maxLevel - 1
  val := fun _ => default
  marked := fun _ => false
  fullyLinked := fun a => a = head ∨ a = tail
  next := fun a _ => if a = head then tail else 0
  owner := fun _ => none
  readers := fun _ => ∅
  version := fun _ => 0
  fresh := 2

/-- Any number of threads on one index. -/
def machine (T K V : Type) [DecidableEq T] [LinearOrder K] [Inhabited V] (kind : LockKind) :
    Machine (ScState T (Mem T K V) (Pc K V)) (T × Choice K V) :=
  interleave (next kind) initMem .idle

/-- The thread of a step commits its operation: the last store of an insertion,
the store of an update, and the mark of a removal. -/
def Pc.commits : Pc K V → Bool
  | .put _ (.full _) | .update _ _ _ .store | .remove _ .mark => true
  | _ => false

/-- The index as its users see it. -/
def index (T K V : Type) [DecidableEq T] [LinearOrder K] [Inhabited V] (kind : LockKind) :
    Observed (ScState T (Mem T K V) (Pc K V)) (T × Choice K V) T (MapOp K V) (MapRes V) where
  machine := machine T K V kind
  event s a :=
    match s.pc a.1, a.2 with
    | .idle, .call c => some (.call a.1 c.op)
    | .returned r, _ => some (.ret a.1 r)
    | _, _ => none
  commit s a := if (s.pc a.1).commits then some a.1 else none

end Program

/-! ## The abstract map -/

section Abstract

variable {T K V : Type}

/-- The nodes of the list at level `l`, as they are reached from the head. -/
inductive InList (m : Mem T K V) (l : Nat) : Addr → Prop
  | head : InList m l head
  | next {a : Addr} (ha : InList m l a) (hne : a ≠ tail) : InList m l (m.next a l)

/-- Node `a` holds key `k`: it is an unmarked, fully linked node of the level-0 list. -/
structure Holds (m : Mem T K V) (k : K) (a : Addr) : Prop where
  inList : InList m 0 a
  full : m.fullyLinked a = true
  unmarked : m.marked a = false
  rank : m.rank a = rankOf k

open Classical in
/-- The map at an instant. -/
noncomputable def mapOf (m : Mem T K V) (k : K) : Option V :=
  if h : ∃ a, Holds m k a then some (m.val h.choose) else none

end Abstract

end SkipList
