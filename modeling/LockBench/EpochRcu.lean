import LockBench.StoreBuffer
import LockBench.ReaderSlots
import LockBench.SpinFlag

/-!
# Epoch-based RCU and its benchmark client

`epoch_rcu` lets a reader announce the epoch it entered in, and lets a writer
bump the global epoch and wait until every slot is inactive or shows the new
epoch.  The client is the `do_op` of `bench_rcu`: a read dereferences `data_ptr`
inside a read section; a write takes the `cas_lock`, publishes a fresh block,
calls `synchronize`, deletes the old block and drops the lock.

The text below is `read_lock`, `read_unlock`, `synchronize`, the `cas_lock` and
`do_op`, one shared-memory access per program point.  A thread may also call
`synchronize` on its own, outside `do_op`, so any number of grace periods can be
in progress at once.  Blocks are numbered in the order of allocation, and the
heap counts how often each was deleted.
-/

namespace EpochRcu

open ReaderSlots

/-- `INACTIVE`, that is `UINT64_MAX`. -/
def inactive : Nat := 2 ^ 64 - 1

/-- The shared words: the epoch, the reader slots, the client's pointer and
writer lock, the contents of the blocks and the allocator's books. -/
structure Mem (n : Nat) where
  globalEpoch : Nat
  slot : Fin n → Nat
  dataPtr : Nat
  writerLock : Bool
  value : Nat → Nat
  nextBlock : Nat
  frees : Nat → Nat

/-- The plain stores of the program. -/
inductive Store (n : Nat)
  | slot (i : Fin n) (e : Nat)
  | dataPtr (p : Nat)
  | writerLock (b : Bool)
  | value (p v : Nat)
  deriving DecidableEq

/-- Program points, named after the access made there, with the local variables
that are live.  `k` holds the client's `old` and `fresh` while `synchronize` runs
inside a write, and is `none` for a call of its own. -/
inductive Pc (n : Nat)
  | idle
  | rdEpoch (i : Fin n)
  | rdPublish (i : Fin n) (e : Nat)
  | rdPtr (i : Fin n) (e : Nat)
  | rdDeref (i : Fin n) (e p : Nat)
  | rdRetire (i : Fin n) (e p : Nat)
  | wrCas
  | wrSpin
  | wrOld
  | wrRead (old : Nat)
  | wrNew (old v : Nat)
  | wrInit (old fresh v : Nat)
  | wrSwap (old fresh : Nat)
  | syncBump (k : Option (Nat × Nat))
  | syncScan (k : Option (Nat × Nat)) (newEpoch : Nat) (i : Fin n)
  | syncReturned
  | wrDelete (old : Nat)
  | wrUnlock
  deriving DecidableEq

/-- A thread: its program point and the reads and writes it has completed. -/
structure Local (n : Nat) where
  pc : Pc n
  reads : Nat
  writes : Nat
  deriving DecidableEq

/-- How a thread's nondeterminism is resolved: the operation it starts (a read in
slot `i`, a write, a `synchronize` of its own), the ordinary next access, or a
spurious failure of `compare_exchange_weak`. -/
inductive Choice (n : Nat)
  | read (i : Fin n)
  | write
  | synchronize
  | go
  | spurious
  deriving DecidableEq

section Program

variable {T : Type} [DecidableEq T] {n : Nat} (owner : Fin n → T)

/-- Where `synchronize` returns to. -/
def syncReturn : Option (Nat × Nat) → Pc n
  | none => .syncReturned
  | some (old, _) => .wrDelete old

/-- The first slot a scan looks at, if there is any. -/
def scanStart (next : Fin n → Pc n) (last : Pc n) : Pc n :=
  if h : 0 < n then next ⟨0, h⟩ else last

/-- The access made at a program point by the ordinary choice. -/
def access (l : Local n) : Option (Access (Mem n) (Store n) (Local n)) :=
  let goto (p : Pc n) : Local n := { l with pc := p }
  match l.pc with
  | .idle => none
  | .rdEpoch i => some (.load fun m => goto (.rdPublish i m.globalEpoch))
  | .rdPublish i e => some (.store (.slot i e) (goto (.rdPtr i e)))
  | .rdPtr i e => some (.load fun m => goto (.rdDeref i e m.dataPtr))
  | .rdDeref i e p => some (.load fun _ => goto (.rdRetire i e p))
  | .rdRetire i _ _ => some (.store (.slot i inactive) ⟨.idle, l.reads + 1, l.writes⟩)
  | .wrCas => some (.rmw fun m =>
      if m.writerLock then some (m, goto .wrSpin)
      else some ({ m with writerLock := true }, goto .wrOld))
  | .wrSpin => some (.load fun m => goto (if m.writerLock then .wrSpin else .wrCas))
  | .wrOld => some (.load fun m => goto (.wrRead m.dataPtr))
  | .wrRead old => some (.load fun m => goto (.wrNew old (m.value old)))
  | .wrNew old v => some (.rmw fun m =>
      some ({ m with nextBlock := m.nextBlock + 1 }, goto (.wrInit old m.nextBlock v)))
  | .wrInit old fresh v =>
      some (.store (.value fresh ((v + 1) % 2 ^ 64)) (goto (.wrSwap old fresh)))
  | .wrSwap old fresh => some (.store (.dataPtr fresh) (goto (.syncBump (some (old, fresh)))))
  | .syncBump k => some (.rmw fun m =>
      let newEpoch := (m.globalEpoch + 1) % 2 ^ 64
      some ({ m with globalEpoch := newEpoch },
        goto (scanStart (.syncScan k newEpoch) (syncReturn k))))
  | .syncScan k newEpoch i => some (.load fun m =>
      if m.slot i = inactive ∨ newEpoch ≤ m.slot i then
        goto (scanNext i (.syncScan k newEpoch) (syncReturn k))
      else l)
  | .syncReturned => some (.jump (goto .idle))
  | .wrDelete old => some (.rmw fun m =>
      some ({ m with frees := Function.update m.frees old (m.frees old + 1) }, goto .wrUnlock))
  | .wrUnlock => some (.store (.writerLock false) ⟨.idle, l.reads, l.writes + 1⟩)

/-- The program.  A slot is used by one thread only; an idle thread may start a
read in a slot of its own, a write, or a `synchronize`. -/
def code : Code T (Mem n) (Store n) (Local n) (Choice n) where
  apply
    | .slot i e, m => { m with slot := Function.update m.slot i e }
    | .dataPtr p, m => { m with dataPtr := p }
    | .writerLock b, m => { m with writerLock := b }
    | .value p v, m => { m with value := Function.update m.value p v }
  access t l c :=
    match l.pc, c with
    | .idle, .read i => if owner i = t then some (.jump { l with pc := .rdEpoch i }) else none
    | .idle, .write => some (.jump { l with pc := .wrCas })
    | .idle, .synchronize => some (.jump { l with pc := .syncBump none })
    | .wrCas, .spurious => some (.rmw fun m => some (m, { l with pc := .wrSpin }))
    | _, .go => access l
    | _, _ => none

/-- A fresh `epoch_rcu` and `data_ptr` at a first block that holds zero. -/
def initMem : Mem n where
  globalEpoch := 0
  slot := fun _ => inactive
  dataPtr := 0
  writerLock := false
  value := fun _ => 0
  nextBlock := 1
  frees := fun _ => 0

/-- The end of `bench_rcu`, after all threads have joined: `delete data_ptr.load()`. -/
def finish (m : Mem n) : Mem n :=
  { m with frees := Function.update m.frees m.dataPtr (m.frees m.dataPtr + 1) }

/-- The benchmark under sequential consistency. -/
def sc : Machine (ScState T (Mem n) (Local n)) (T × Choice n) :=
  (code owner).sc initMem fun _ => ⟨.idle, 0, 0⟩

/-- The benchmark on the store-buffer machine. -/
def tso : Machine (TsoState T (Mem n) (Store n) (Local n)) (TsoAct T (Choice n)) :=
  (code owner).tso initMem fun _ => ⟨.idle, 0, 0⟩

end Program

end EpochRcu
