import LockBench.Interleave
import LockBench.KeyValue
import LockBench.IdealLocks
import LockBench.BptreeRanges

/-!
# Lock coupling in `bptree_index`

Any number of threads on one tree, with `get`, `get_shared`, `put` and `remove`.  Every lock and
unlock is a step of its own, and so is what a thread does with one node, or with `root_`, between
two of them.  A lookup and a removal hold one lock, and on the way down the one below it too.  `put`
keeps in `held` the nodes from the last one that a split below cannot reach past, and the latch as
long as the root may be split; the list is the source's array, last element first.

The locks are ideal: exclusive, and shared for `get_shared`.
-/

namespace BptreeCoupling

open BptreeIndex IdealLocks

/-- The tree and its locks. -/
structure Mem (T K V : Type) where
  tree : Tree K V
  locks : Locks T Lock

/-- The public operations. -/
inductive Call (K V : Type)
  | get (mode : Mode) (key : K)
  | put (key : K) (val : V)
  | remove (key : K)
  deriving DecidableEq

/-- The operation as a user of the map sees it. -/
def Call.op {K V : Type} : Call K V → MapOp K V
  | .get _ key => .get key
  | .put key val => .put key val
  | .remove key => .remove key

/-- The operations that go down hand over hand. -/
inductive Walk (K : Type)
  | get (mode : Mode) (key : K)
  | remove (key : K)
  deriving DecidableEq

namespace Walk

variable {K V : Type}

def key : Walk K → K
  | get _ key | remove key => key

/-- How the operation locks. -/
def mode : Walk K → Mode
  | get mode _ => mode
  | remove _ => .exclusive

def op : Walk K → MapOp K V
  | get _ key => .get key
  | remove key => .remove key

end Walk

/-- The local variables of `put`; `latch` is `root_latch_held`. -/
structure PutCtx (K V : Type) where
  key : K
  val : V
  held : List Ptr
  latch : Bool

namespace PutCtx

variable {K V : Type} (c : PutCtx K V)

def latchLocks : List Lock :=
  if c.latch then [.latch] else []

/-- The locks that are held, from the last node upwards. -/
def locks : List Lock :=
  c.held.map .node ++ c.latchLocks

/-- The same in the order in which they are released. -/
def todo : List Lock :=
  c.held.reverse.map .node ++ c.latchLocks

end PutCtx

/-- What follows when locks have been released: `put` goes on from a safe child, or returns. -/
inductive After (K V : Type)
  | descend (key : K) (val : V) (child : Ptr)
  | ret (b : Bool)

/-- Program points of a thread. -/
inductive Pc (K V : Type)
  | idle
  | enter (w : Walk K)
  | visit (w : Walk K) (l : Lock)
  | lockChild (w : Walk K) (l : Lock) (child : Ptr)
  | unlockParent (w : Walk K) (l : Lock) (child : Ptr)
  | leaf (w : Walk K) (cur : Ptr)
  | unlockLeaf (w : Walk K) (cur : Ptr) (r : MapRes V)
  | putEnter (key : K) (val : V)
  | putRoot (key : K) (val : V)
  | putLockRoot (key : K) (val : V) (cur : Ptr)
  | putVisit (c : PutCtx K V)
  | putLockChild (c : PutCtx K V) (child : Ptr)
  | putTest (c : PutCtx K V) (child : Ptr)
  | putLeaf (c : PutCtx K V)
  | putUp (c : PutCtx K V) (above : List Ptr) (sep : K) (right : Ptr)
  | unlockAll (todo : List Lock) (after : After K V)
  | returned (r : MapRes V)

/-- A thread with nothing to do starts an operation, the others go on. -/
inductive Choice (K V : Type)
  | call (c : Call K V)
  | go

section Program

variable {T K V : Type} [DecidableEq T] [LinearOrder K]

/-- The first point of an operation. -/
def Call.enter : Call K V → Pc K V
  | .get mode key => .enter (.get mode key)
  | .put key val => .putEnter key val
  | .remove key => .enter (.remove key)

/-- Take a lock, when it is free. -/
def Mem.lock (m : Mem T K V) (mode : Mode) (t : T) (l : Lock) : Option (Mem T K V) :=
  (m.locks.acquire mode t l).map fun locks => { m with locks := locks }

/-- Give up a lock. -/
def Mem.unlock (m : Mem T K V) (mode : Mode) (t : T) (l : Lock) : Mem T K V :=
  { m with locks := m.locks.release mode t l }

/-- What a lookup or a removal does behind a lock: it picks the child to go to, or finds itself at
the leaf. -/
def visitStep (m : Mem T K V) (w : Walk K) : Lock → Option (Pc K V)
  | .latch => some (.lockChild w .latch m.tree.root)
  | .node cur =>
      match m.tree.heap cur with
      | .leaf _ _ => some (.leaf w cur)
      | .internal ks cs => (cs[upperSlot ks w.key]?).map (.lockChild w (.node cur))

/-- `find_in_leaf` and `leaf_remove`. -/
def leafStep (m : Mem T K V) (w : Walk K) (cur : Ptr) : Option (Mem T K V × Pc K V) :=
  match m.tree.heap cur with
  | .internal _ _ => none
  | .leaf es next =>
      match w with
      | .get _ key => some (m, .unlockLeaf w cur (.value (findInLeaf es key)))
      | .remove key => some ({ m with tree := m.tree.set cur (.leaf (leafRemove es key).1 next) },
          .unlockLeaf w cur (.flag (leafRemove es key).2))

/-- The head of the descent loop of `put`. -/
def putVisitStep (m : Mem T K V) (c : PutCtx K V) : Option (Pc K V) :=
  c.held.head?.bind fun cur =>
    match m.tree.heap cur with
    | .leaf _ _ => some (.putLeaf c)
    | .internal ks cs => (cs[upperSlot ks c.key]?).map (.putLockChild c)

/-- The test `child->n < FANOUT`; a safe child is reached with all other locks released. -/
def putTestStep (F : Nat) (m : Mem T K V) (c : PutCtx K V) (child : Ptr) : Option (Pc K V) :=
  if (m.tree.heap child).n < F then some (.unlockAll c.todo (.descend c.key c.val child))
  else (hold c.held child).map fun held => .putVisit { c with held := held }

/-- Where `put` goes with what a step on the way up leaves to do. -/
def PutCtx.goOn (c : PutCtx K V) (above : List Ptr) : Outcome K → Pc K V
  | .done b => .unlockAll c.todo (.ret b)
  | .push sep right => .putUp c above sep right

/-- What `put` does to the leaf. -/
def putLeafStep (F : Nat) (m : Mem T K V) (c : PutCtx K V) : Option (Mem T K V × Pc K V) :=
  match c.held with
  | [] => none
  | cur :: above =>
      (leafPut F m.tree cur c.key c.val).map fun r => ({ m with tree := r.1 }, c.goOn above r.2)

/-- One round of the loop on the way up, or the root split, for which `held[0]` is the old root. -/
def putUpStep (F : Nat) (m : Mem T K V) (c : PutCtx K V) (above : List Ptr) (sep : K)
    (right : Ptr) : Option (Mem T K V × Pc K V) :=
  match above with
  | parent :: rest =>
      (pushUp F m.tree parent sep right).map fun r => ({ m with tree := r.1 }, c.goOn rest r.2)
  | [] =>
      c.held.getLast?.map fun oldRoot =>
        ({ m with tree := newRoot m.tree oldRoot sep right }, .unlockAll c.todo (.ret true))

/-- The loops that release locks. -/
def unlockStep (t : T) (m : Mem T K V) (todo : List Lock) (after : After K V) :
    Mem T K V × Pc K V :=
  match todo with
  | l :: rest => (m.unlock .exclusive t l, .unlockAll rest after)
  | [] => (m, match after with
      | .descend key val child => .putVisit ⟨key, val, [child], false⟩
      | .ret b => .returned (.flag b))

/-- One step of a thread. -/
def next (F : Nat) (t : T) (m : Mem T K V) (p : Pc K V) (c : Choice K V) :
    Option (Mem T K V × Pc K V) :=
  match p with
  | .idle =>
      match c with
      | .call c => some (m, c.enter)
      | .go => none
  | .enter w => (m.lock w.mode t .latch).map fun m => (m, .visit w .latch)
  | .visit w l => (visitStep m w l).map fun p => (m, p)
  | .lockChild w l child =>
      (m.lock w.mode t (.node child)).map fun m => (m, .unlockParent w l child)
  | .unlockParent w l child => some (m.unlock w.mode t l, .visit w (.node child))
  | .leaf w cur => leafStep m w cur
  | .unlockLeaf w cur r => some (m.unlock w.mode t (.node cur), .returned r)
  | .putEnter key val => (m.lock .exclusive t .latch).map fun m => (m, .putRoot key val)
  | .putRoot key val => some (m, .putLockRoot key val m.tree.root)
  | .putLockRoot key val cur =>
      (m.lock .exclusive t (.node cur)).map fun m => (m, .putVisit ⟨key, val, [cur], true⟩)
  | .putVisit c => (putVisitStep m c).map fun p => (m, p)
  | .putLockChild c child =>
      (m.lock .exclusive t (.node child)).map fun m => (m, .putTest c child)
  | .putTest c child => (putTestStep F m c child).map fun p => (m, p)
  | .putLeaf c => putLeafStep F m c
  | .putUp c above sep right => putUpStep F m c above sep right
  | .unlockAll todo after => some (unlockStep t m todo after)
  | .returned _ => some (m, .idle)

/-- Any number of threads on one tree, from the empty one on. -/
def machine (T K V : Type) [DecidableEq T] [LinearOrder K] (F : Nat) :
    Machine (ScState T (Mem T K V) (Pc K V)) (T × Choice K V) :=
  interleave (next F) ⟨.empty, .free⟩ .idle

/-- An operation takes effect, or finds its result, at the leaf. -/
def Pc.commits : Pc K V → Bool
  | .leaf _ _ | .putLeaf _ => true
  | _ => false

/-- The index as its users see it. -/
def index (T K V : Type) [DecidableEq T] [LinearOrder K] (F : Nat) :
    Observed (ScState T (Mem T K V) (Pc K V)) (T × Choice K V) T (MapOp K V) (MapRes V) where
  machine := machine T K V F
  event s a :=
    match s.pc a.1, a.2 with
    | .idle, .call c => some (.call a.1 c.op)
    | .returned r, _ => some (.ret a.1 r)
    | _, _ => none
  commit s a := if (s.pc a.1).commits then some a.1 else none

end Program

/-! ## The locks of a program point -/

section

variable {K V : Type}

/-- The locks that a thread holds. -/
def Pc.claims : Pc K V → List (Lock × Mode)
  | .visit w l | .lockChild w l _ => [(l, w.mode)]
  | .unlockParent w l child => [(.node child, w.mode), (l, w.mode)]
  | .leaf w cur | .unlockLeaf w cur _ => [(.node cur, w.mode)]
  | .putRoot _ _ | .putLockRoot _ _ _ => [(.latch, .exclusive)]
  | .putVisit c | .putLockChild c _ | .putLeaf c | .putUp c _ _ _ =>
      c.locks.map fun l => (l, .exclusive)
  | .putTest c child => (.node child :: c.locks).map fun l => (l, .exclusive)
  | .unlockAll todo (.descend _ _ child) => (.node child :: todo).map fun l => (l, .exclusive)
  | .unlockAll todo (.ret _) => todo.map fun l => (l, .exclusive)
  | _ => []

/-- The lock that a thread asks for. -/
def Pc.wants : Pc K V → Option (Lock × Mode)
  | .enter w => some (.latch, w.mode)
  | .lockChild w _ child => some (.node child, w.mode)
  | .putEnter _ _ => some (.latch, .exclusive)
  | .putLockRoot _ _ cur => some (.node cur, .exclusive)
  | .putLockChild _ child => some (.node child, .exclusive)
  | _ => none

/-- Where the new node of a split is to be inserted: the next held ancestor, or `root_`. -/
def target : List Ptr → Lock
  | [] => .latch
  | parent :: _ => .node parent

/-- What a thread has yet to insert at a lock. -/
def Pc.pendingAt (l : Lock) : Pc K V → List (K × Ptr)
  | .putUp _ above sep right => if l = target above then [(sep, right)] else []
  | _ => []

/-- What is pending at a lock: only who owns it can have left something. -/
def pendingAt {T : Type} (s : ScState T (Mem T K V) (Pc K V)) (l : Lock) : List (K × Ptr) :=
  match s.mem.locks.owner l with
  | some t => (s.pc t).pendingAt l
  | none => []

end

/-! ## The abstract map -/

section

variable {K V : Type}

/-- A leaf has the entry; leaves are never freed, and one that was split off is a leaf already
before its parent knows of it. -/
def Stored (m : Tree K V) (k : K) (v : V) : Prop :=
  ∃ p < m.alloc, (k, v) ∈ (m.heap p).entries

open Classical in
/-- The map at an instant. -/
noncomputable def mapOf (m : Tree K V) (k : K) : Option V :=
  if h : ∃ v, Stored m k v then some h.choose else none

end

end BptreeCoupling
