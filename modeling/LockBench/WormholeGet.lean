import LockBench.Interleave

/-!
# The optimistic `wormhole_get`

`wormhole_get` of the `WH_OCC_OPTIMISTIC` build walks the hash-ordered entries of a
leaf without the leaf's lock.  Two counters guard the walk: the leaf's `occ_seq`,
which every write section bumps when it begins and when it ends, and its version
`lv`, which a split or a merge raises above the version of every older `hmap`.

The reader and the lock paths are given access by access: `wormhole_jump_leaf_write`,
`wormleaf_lock_write`, `wormleaf_unlock_write`, the lock that `wormhole_split_insert`
takes by hand, and the order of stores of `wormhole_split_meta` and
`wormhole_meta_merge`.  What upstream does inside a write section is left open: a
section may store any entries to the leaves it has locked and change what the map
holds for the keys these leaves cover.  `Assumed` is what is relied on: when a
section ends, the entries of the leaf are a well-formed table of what the map holds
for the keys the leaf covers.

An `hmap` is its number: QSBR lets no one change an `hmap` that a reader has loaded,
and `wormhole_jump_leaf` finds in it the leaf that covers the key.  Leaves are not
reused either, so a new leaf is a new one.  The counters are the numbers of bumps
and of structural changes; the code sees them modulo `2 ^ 64`.  A reader keeps the
number of bumps behind the word that it has loaded, so that the write sections between
its two loads can be spoken of.
-/

namespace WormholeGet

/-- `WH_KPN`. -/
def kpn : Nat := 128

/-- `WH_HDIV`. -/
def hdiv : Nat := 65536 / kpn

/-- What a load of a 64-bit counter gives. -/
def u64 (n : Nat) : Nat :=
  n % 2 ^ 64

/-- `struct entry13`: a partial hash and a pointer. -/
structure Entry (V : Type) where
  e1 : Nat
  e3 : Option V

/-- `v64 == 0`. -/
def Entry.empty {V : Type} : Entry V :=
  ⟨0, none⟩

/-- Keys, kv objects with the key each holds, and `wormhole_pkey`. -/
structure Params (K V : Type) where
  pkey : K → Nat
  keyOf : V → K
  pkey_pos : ∀ k, 0 < pkey k
  pkey_lt : ∀ k, pkey k < 65536

/-- Leaves. -/
abbrev Leaf := Nat

/-- `metalock`, the current `hmap` with what each `hmap` covers, the leaves, and
what the map holds. -/
structure Mem (T K V : Type) where
  metalock : Option T
  hmap : Nat
  cover : Nat → K → Leaf
  used : Leaf → Bool
  lv : Leaf → Nat
  seq : Leaf → Nat
  lock : Leaf → Option T
  hs : Leaf → Nat → Entry V
  content : K → Option V

/-- What follows the last unlock of a series. -/
inductive After (K : Type)
  | retry (k : K)
  | done
  | metaUnlock (keep : Option Leaf)

/-- A structural change; a merge may keep the left leaf locked. -/
inductive Change
  | split
  | merge (keep : Bool)

/-- Program points: of `wormhole_get`, of `wormhole_jump_leaf_write`, of a write
section and its end, of a split, of a merge, and of the change of the `hmap`. -/
inductive Pc (K V : Type)
  | idle
  | getLoad (k : K)
  | getJump (k : K) (h : Nat)
  | getLv (k : K) (h : Nat) (l : Leaf)
  | getSeq (k : K) (h : Nat) (l : Leaf)
  | probe (k : K) (h : Nat) (l : Leaf) (q : Nat)
  | left (k : K) (h : Nat) (l : Leaf) (q i : Nat)
  | right (k : K) (h : Nat) (l : Leaf) (q i : Nat)
  | getSeqEnd (k : K) (h : Nat) (l : Leaf) (q : Nat) (r : Option V)
  | getLvEnd (k : K) (h : Nat) (l : Leaf) (r : Option V)
  | returned (k : K) (r : Option V)
  | jumpLoad (k : K)
  | jumpLeaf (k : K) (h : Nat)
  | tryLock (k : K) (h : Nat) (l : Leaf)
  | retest (k : K) (h : Nat) (l : Leaf)
  | jumpBump (k : K) (h : Nat) (l : Leaf)
  | jumpCheck (k : K) (h : Nat) (l : Leaf)
  | inSection (l : Leaf)
  | unlock (l : Leaf) (ls : List Leaf) (next : After K)
  | release (l : Leaf) (ls : List Leaf) (next : After K)
  | splitFill (l₁ l₂ : Leaf)
  | splitLock (l₁ l₂ : Leaf)
  | splitBump (l₁ l₂ : Leaf)
  | mergeLock (l₁ l₂ : Leaf)
  | mergeBump (l₁ l₂ : Leaf)
  | mergeFill (l₁ l₂ : Leaf)
  | metaLock (c : Change) (l₁ l₂ : Leaf)
  | metaLv₁ (c : Change) (l₁ l₂ : Leaf)
  | metaLv₂ (c : Change) (l₁ l₂ : Leaf)
  | metaSwitch (c : Change) (l₁ l₂ : Leaf)
  | metaUnlock (keep : Option Leaf)

/-- How a thread's nondeterminism is resolved: the operation it starts, what a write
section does next, where a split cuts, and failed allocations. -/
inductive Choice (K V : Type)
  | get (k : K)
  | write (k : K)
  | store (i : Nat) (e : Entry V)
  | storeNext (i : Nat) (e : Entry V)
  | commit (k : K) (r : Option V)
  | unlock
  | alloc (l : Leaf)
  | lockNext (l : Leaf)
  | merge (keep : Bool)
  | split (right : K → Bool)
  | fail
  | go

section

variable {T K V : Type} [DecidableEq T] [DecidableEq K]

namespace Mem

/-- One bump of `occ_seq`. -/
def bump (m : Mem T K V) (l : Leaf) : Mem T K V :=
  { m with seq := Function.update m.seq l (m.seq l + 1) }

/-- Take or drop a leaf's lock. -/
def setLock (m : Mem T K V) (l : Leaf) (o : Option T) : Mem T K V :=
  { m with lock := Function.update m.lock l o }

/-- Store an entry of a leaf. -/
def setEntry (m : Mem T K V) (l : Leaf) (i : Nat) (e : Entry V) : Mem T K V :=
  { m with hs := Function.update m.hs l (Function.update (m.hs l) i e) }

/-- Store a leaf's version. -/
def setLv (m : Mem T K V) (l : Leaf) (n : Nat) : Mem T K V :=
  { m with lv := Function.update m.lv l n }

/-- Change what the map holds for a key. -/
def setContent (m : Mem T K V) (k : K) (r : Option V) : Mem T K V :=
  { m with content := Function.update m.content k r }

/-- `wormleaf_alloc`: `occ_seq` and `hs` are zeroed, `lv` is kept. -/
def alloc (m : Mem T K V) (l : Leaf) : Mem T K V :=
  { m with
    used := Function.update m.used l true
    seq := Function.update m.seq l 0
    hs := Function.update m.hs l fun _ => .empty }

/-- Switch to the next `hmap`. -/
def switch (m : Mem T K V) (c : K → Leaf) : Mem T K V :=
  { m with hmap := m.hmap + 1, cover := Function.update m.cover (m.hmap + 1) c }

end Mem

/-- The kv of an entry, if the entry is one for the key. -/
def hit (P : Params K V) (k : K) (e : Entry V) : Option V :=
  if e.e1 = P.pkey k then e.e3.filter fun v => P.keyOf v = k else none

/-- The entry at which the walk for a key begins. -/
def home (P : Params K V) (k : K) : Nat :=
  P.pkey k / hdiv

/-- `i - 1` of a `u32`. -/
def pred32 (i : Nat) : Nat :=
  if i = 0 then 2 ^ 32 - 1 else i - 1

/-- The loop to the right, from its test. -/
def goRight (k : K) (h : Nat) (l : Leaf) (q i : Nat) : Pc K V :=
  if i < kpn then .right k h l q i else .getSeqEnd k h l q none

/-- The loop to the left, from its test. -/
def goLeft (P : Params K V) (k : K) (h : Nat) (l : Leaf) (q i : Nat) : Pc K V :=
  if i < kpn then .left k h l q i else goRight k h l q (home P k + 1)

/-- The probe of the first entry. -/
def probeNext (P : Params K V) (k : K) (h : Nat) (l : Leaf) (q : Nat) (e : Entry V) : Pc K V :=
  match hit P k e with
  | some v => .getSeqEnd k h l q (some v)
  | none =>
      if e.e1 = 0 then .getSeqEnd k h l q none else goLeft P k h l q (pred32 (home P k))

/-- The body of the loop to the left. -/
def leftNext (P : Params K V) (k : K) (h : Nat) (l : Leaf) (q i : Nat) (e : Entry V) : Pc K V :=
  match hit P k e with
  | some v => .getSeqEnd k h l q (some v)
  | none =>
      if e.e1 < P.pkey k then goRight k h l q (home P k + 1) else goLeft P k h l q (pred32 i)

/-- The body of the loop to the right. -/
def rightNext (P : Params K V) (k : K) (h : Nat) (l : Leaf) (q i : Nat) (e : Entry V) : Pc K V :=
  match hit P k e with
  | some v => .getSeqEnd k h l q (some v)
  | none =>
      if P.pkey k < e.e1 ∨ e.e1 = 0 then .getSeqEnd k h l q none else goRight k h l q (i + 1)

/-- Where a thread goes after a series of unlocks. -/
def After.pc : After K → Pc K V
  | .retry k => .jumpLoad k
  | .done => .idle
  | .metaUnlock keep => .metaUnlock keep

/-- One access of a thread. -/
def next (P : Params K V) (t : T) (m : Mem T K V) (p : Pc K V) (c : Choice K V) :
    Option (Mem T K V × Pc K V) :=
  match p with
  | .idle =>
      match c with
      | .get k => some (m, .getLoad k)
      | .write k => some (m, .jumpLoad k)
      | _ => none
  | .getLoad k => some (m, .getJump k m.hmap)
  | .getJump k h => some (m, .getLv k h (m.cover h k))
  | .getLv k h l => some (m, if u64 h < u64 (m.lv l) then .getLoad k else .getSeq k h l)
  | .getSeq k h l =>
      some (m, if u64 (m.seq l) % 2 = 1 then .getLoad k else .probe k h l (m.seq l))
  | .probe k h l q => some (m, probeNext P k h l q (m.hs l (home P k)))
  | .left k h l q i => some (m, leftNext P k h l q i (m.hs l i))
  | .right k h l q i => some (m, rightNext P k h l q i (m.hs l i))
  | .getSeqEnd k h l q r =>
      some (m, if u64 q = u64 (m.seq l) then .getLvEnd k h l r else .getLoad k)
  | .getLvEnd k h l r => some (m, if u64 (m.lv l) ≤ u64 h then .returned k r else .getLoad k)
  | .returned _ _ => some (m, .idle)
  | .jumpLoad k => some (m, .jumpLeaf k m.hmap)
  | .jumpLeaf k h => some (m, .tryLock k h (m.cover h k))
  | .tryLock k h l =>
      match m.lock l with
      | none => some (m.setLock l (some t), .jumpBump k h l)
      | some _ => some (m, .retest k h l)
  | .retest k h l => some (m, if u64 h < u64 (m.lv l) then .jumpLoad k else .tryLock k h l)
  | .jumpBump k h l => some (m.bump l, .jumpCheck k h l)
  | .jumpCheck k h l =>
      some (m, if u64 (m.lv l) ≤ u64 h then .inSection l else .unlock l [] (.retry k))
  | .inSection l =>
      match c with
      | .store i e => some (m.setEntry l i e, .inSection l)
      | .commit k r => if m.cover m.hmap k = l then some (m.setContent k r, .inSection l) else none
      | .unlock => some (m, .unlock l [] .done)
      | .alloc l₂ => if m.used l₂ then none else some (m.alloc l₂, .splitFill l l₂)
      | .lockNext l₂ => if m.used l₂ then some (m, .mergeLock l l₂) else none
      | _ => none
  | .unlock l ls n => some (m.bump l, .release l ls n)
  | .release l ls n =>
      some (m.setLock l none,
        match ls with
        | [] => n.pc
        | l' :: ls' => .unlock l' ls' n)
  | .splitFill l₁ l₂ =>
      match c with
      | .store i e => some (m.setEntry l₁ i e, .splitFill l₁ l₂)
      | .storeNext i e => some (m.setEntry l₂ i e, .splitFill l₁ l₂)
      | .commit k r =>
          if m.cover m.hmap k = l₁ then some (m.setContent k r, .splitFill l₁ l₂) else none
      | .fail => some (m, .unlock l₁ [] .done)
      | .go => some (m, .splitLock l₁ l₂)
      | _ => none
  | .splitLock l₁ l₂ =>
      match m.lock l₂ with
      | none => some (m.setLock l₂ (some t), .splitBump l₁ l₂)
      | some _ => none
  | .splitBump l₁ l₂ => some (m.bump l₂, .metaLock .split l₁ l₂)
  | .mergeLock l₁ l₂ =>
      match m.lock l₂ with
      | none => some (m.setLock l₂ (some t), .mergeBump l₁ l₂)
      | some _ => none
  | .mergeBump l₁ l₂ => some (m.bump l₂, .mergeFill l₁ l₂)
  | .mergeFill l₁ l₂ =>
      match c with
      | .store i e => some (m.setEntry l₁ i e, .mergeFill l₁ l₂)
      | .storeNext i e => some (m.setEntry l₂ i e, .mergeFill l₁ l₂)
      | .commit k r =>
          if m.cover m.hmap k = l₁ ∨ m.cover m.hmap k = l₂ then
            some (m.setContent k r, .mergeFill l₁ l₂)
          else none
      | .merge keep => some (m, .metaLock (.merge keep) l₁ l₂)
      | .unlock => some (m, .unlock l₁ [l₂] .done)
      | _ => none
  | .metaLock x l₁ l₂ =>
      match x, c with
      -- `wormhole_alloc_mkey` failed: the split is undone under the lock of the left leaf.
      | .split, .fail => some (m, .inSection l₁)
      | _, _ =>
          match m.metalock with
          | none => some ({ m with metalock := some t }, .metaLv₁ x l₁ l₂)
          | some _ => none
  | .metaLv₁ x l₁ l₂ =>
      match x, c with
      -- `wormhole_slab_reserve` failed.
      | .split, .fail => some ({ m with metalock := none }, .inSection l₁)
      | _, _ => some (m.setLv l₁ (m.hmap + 1), .metaLv₂ x l₁ l₂)
  | .metaLv₂ x l₁ l₂ => some (m.setLv l₂ (m.hmap + 1), .metaSwitch x l₁ l₂)
  | .metaSwitch x l₁ l₂ =>
      match x, c with
      | .split, .split right =>
          some (m.switch fun k =>
            if m.cover m.hmap k = l₁ ∧ right k = true then l₂ else m.cover m.hmap k,
            .unlock l₁ [l₂] (.metaUnlock none))
      | .merge keep, _ =>
          some (m.switch fun k => if m.cover m.hmap k = l₂ then l₁ else m.cover m.hmap k,
            if keep then .unlock l₂ [] (.metaUnlock (some l₁)) else .unlock l₁ [l₂] (.metaUnlock none))
      | _, _ => none
  | .metaUnlock keep =>
      some ({ m with metalock := none },
        match keep with
        | some l => .inSection l
        | none => .idle)

variable (T) in
/-- Any number of threads on an empty map with one leaf. -/
def machine (P : Params K V) : Machine (ScState T (Mem T K V) (Pc K V)) (T × Choice K V) :=
  interleave (next P)
    { metalock := none
      hmap := 0
      cover := fun _ _ => 0
      used := fun l => l = 0
      lv := fun _ => 0
      seq := fun _ => 0
      lock := fun _ => none
      hs := fun _ _ => .empty
      content := fun _ => none } .idle

/-! ## What is relied on -/

/-- The entries of a leaf as upstream keeps them: in the order of their partial
hashes, and with no gap between an entry and where the walk for it begins. -/
structure HsOk (hs : Nat → Entry V) : Prop where
  sorted : ∀ i j, i < j → j < kpn → (hs i).e1 ≠ 0 → (hs j).e1 ≠ 0 → (hs i).e1 ≤ (hs j).e1
  leftward : ∀ i j, i < kpn → (hs i).e1 ≠ 0 → i ≤ j → j ≤ (hs i).e1 / hdiv → (hs j).e1 ≠ 0
  rightward : ∀ i j, i < kpn → (hs i).e1 ≠ 0 → (hs i).e1 / hdiv ≤ j → j ≤ i → (hs j).e1 ≠ 0

/-- The leaf has an entry for the key. -/
def Holds (P : Params K V) (hs : Nat → Entry V) (k : K) (v : V) : Prop :=
  ∃ i < kpn, hit P k (hs i) = some v

/-- The leaf that covers a key has its entries in order, and one for the key exactly
if the map holds it. -/
def RightAt (P : Params K V) (m : Mem T K V) (k : K) : Prop :=
  HsOk (m.hs (m.cover m.hmap k)) ∧
    ∀ v, Holds P (m.hs (m.cover m.hmap k)) k v ↔ m.content k = some v

/-- When a write section ends, the leaf is right for the keys that it covers. -/
def Assumed (P : Params K V) (s : ScState T (Mem T K V) (Pc K V)) (a : T × Choice K V) : Prop :=
  ∀ l ls n, s.pc a.1 = .unlock l ls n → ∀ k, s.mem.cover s.mem.hmap k = l → RightAt P s.mem k

/-- The step is the return of the operation of `t`. -/
def Returns (t : T) (s : ScState T (Mem T K V) (Pc K V)) (a : T × Choice K V) : Prop :=
  a.1 = t ∧ ∃ k r, s.pc t = .returned k r

/-- A step between the call of a `get` of `t` and its return. -/
def During (P : Params K V) (t : T) (s : ScState T (Mem T K V) (Pc K V)) (a : T × Choice K V) :
    Prop :=
  Assumed P s a ∧ ¬Returns t s a

/-- When the step is the second load of `occ_seq` in a `get` of `t`, fewer than `2 ^ 63` write
sections of the leaf have come since the first. -/
def FewSections (t : T) (s : ScState T (Mem T K V) (Pc K V)) (a : T × Choice K V) : Prop :=
  a.1 = t → ∀ k h l q r, s.pc t = .getSeqEnd k h l q r → s.mem.seq l < q + 2 ^ 64

/-- When the step is the last load of `lv` in a `get` of `t`, no split or merge has given the
leaf the next version that is `0` to the code, or a later one: the bits of `lv` that the code
does not have are not above those of the version of the `hmap` that the `get` has loaded. -/
def SameEra (t : T) (s : ScState T (Mem T K V) (Pc K V)) (a : T × Choice K V) : Prop :=
  a.1 = t → ∀ k h l r, s.pc t = .getLvEnd k h l r → s.mem.lv l / 2 ^ 64 ≤ h / 2 ^ 64

end

end WormholeGet
