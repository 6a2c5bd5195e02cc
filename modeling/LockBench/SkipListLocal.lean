import LockBench.SkipListShape

/-!
# What the threads of the skip list know

For each program point, what a thread may rely on there about the shape of the
list and about the locks it holds, and that it survives the steps of others.  What
a step leaves alone is said once, in `Frame`.
-/

namespace SkipList

section Local

variable {T K V : Type} [LinearOrder K]

/-- What `find` has recorded for level `j`. -/
structure Recorded (m : Mem T K V) (h : Addr → Nat) (k : K) (preds succs : Nat → Addr)
    (j : Nat) : Prop where
  pred : Was m h (preds j) j
  left : m.rank (preds j) < rankOf k
  succ : Was m h (succs j) j
  right : rankOf k ≤ m.rank (succs j)

/-- A search at level `lvl`, with the levels above it recorded. -/
structure FindOk (m : Mem T K V) (h : Addr → Nat) (k : K) (lvl : Nat) (pred : Addr)
    (f : Found) : Prop where
  level : lvl < maxLevel
  was : Was m h pred lvl
  left : m.rank pred < rankOf k
  above : ∀ j, lvl < j → j < maxLevel → Recorded m h k f.preds f.succs j
  missed : f.lfound = none → ∀ j, lvl < j → j < maxLevel → m.rank (f.succs j) ≠ rankOf k
  found : ∀ l, f.lfound = some l → lvl < l ∧ l < maxLevel ∧ m.rank (f.succs l) = rankOf k

/-- The update of node `n`. -/
def updateOk (m : Mem T K V) (h : Addr → Nat) (t : T) (k : K) (n : Addr) (p : UpdatePc) : Prop :=
  (m.rank n = rankOf k ∧ Was m h n 0) ∧
    match p with
    | .lock => True
    | .marked | .unlockRetry | .unlock => m.owner n = some t
    | .wait => m.owner n = some t ∧ m.marked n = false
    | .store => m.owner n = some t ∧ m.marked n = false ∧ m.fullyLinked n = true

/-- The locks an operation has taken. -/
structure LockedOk (m : Mem T K V) (h : Addr → Nat) (t : T) (k : K) (locked : List Addr) :
    Prop where
  nodup : locked.Nodup
  was : ∀ a ∈ locked, Was m h a 0
  owner : ∀ a ∈ locked, m.owner a = some t
  left : ∀ a ∈ locked, m.rank a < rankOf k

/-- Node `p` is locked and validated: unmarked, and its pointer at level `l` is `b`. -/
structure Valid (m : Mem T K V) (locked : List Addr) (p : Addr) (l : Nat) (b : Addr) : Prop where
  mem : p ∈ locked
  unmarked : m.marked p = false
  next : m.next p l = b

/-- The node of an insertion, linked at `lvl` levels. -/
structure NewNode (m : Mem T K V) (h : Addr → Nat) (c : PutCtx K V) (n : Addr) (lvl : Nat) :
    Prop where
  born : n < m.fresh
  rank : m.rank n = rankOf c.key
  top : m.top n = c.height - 1
  val : m.val n = c.val
  notFull : m.fullyLinked n = false
  unmarked : m.marked n = false
  height : h n = lvl

/-- What an insertion knows of its predecessors and successors. -/
structure Between (m : Mem T K V) (h : Addr → Nat) (k : K) (preds succs : Nat → Addr)
    (j : Nat) : Prop where
  pred : Was m h (preds j) j
  left : m.rank (preds j) < rankOf k
  succ : Was m h (succs j) j
  right : rankOf k < m.rank (succs j)

/-- An insertion. -/
def putOk (m : Mem T K V) (h : Addr → Nat) (t : T) (c : PutCtx K V) (p : PutPc) : Prop :=
  (∀ j, j < maxLevel → Between m h c.key c.preds c.succs j) ∧
    match p with
    | .level => True
    | .lock lvl => (lvl < c.height ∧ c.height ≤ maxLevel ∧ LockedOk m h t c.key c.locked) ∧
        ∀ j, lvl < j → j < c.height → Valid m c.locked (c.preds j) j (c.succs j)
    | .predMarked lvl => (lvl < c.height ∧ c.height ≤ maxLevel ∧ LockedOk m h t c.key c.locked) ∧
        (∀ j, lvl < j → j < c.height → Valid m c.locked (c.preds j) j (c.succs j)) ∧
        c.preds lvl ∈ c.locked
    | .succMarked lvl | .checkNext lvl =>
        (lvl < c.height ∧ c.height ≤ maxLevel ∧ LockedOk m h t c.key c.locked) ∧
        (∀ j, lvl < j → j < c.height → Valid m c.locked (c.preds j) j (c.succs j)) ∧
        c.preds lvl ∈ c.locked ∧ m.marked (c.preds lvl) = false
    | .new => (0 < c.height ∧ c.height ≤ maxLevel ∧ LockedOk m h t c.key c.locked) ∧
        ∀ j, j < c.height → Valid m c.locked (c.preds j) j (c.succs j)
    | .fill n lvl => (lvl < c.height ∧ c.height ≤ maxLevel ∧ LockedOk m h t c.key c.locked) ∧
        (∀ j, j < c.height → Valid m c.locked (c.preds j) j (c.succs j)) ∧
        NewNode m h c n 0 ∧ ∀ j, j < lvl → m.next n j = c.succs j
    | .link n lvl => (lvl < c.height ∧ c.height ≤ maxLevel ∧ LockedOk m h t c.key c.locked) ∧
        (∀ j, lvl ≤ j → j < c.height → Valid m c.locked (c.preds j) j (c.succs j)) ∧
        (∀ j, j < lvl → Valid m c.locked (c.preds j) j n) ∧
        NewNode m h c n lvl ∧ ∀ j, lvl ≤ j → j < c.height → m.next n j = c.succs j
    | .full n => (0 < c.height ∧ c.height ≤ maxLevel ∧ LockedOk m h t c.key c.locked) ∧
        (∀ j, j < c.height → Valid m c.locked (c.preds j) j n) ∧ NewNode m h c n c.height

/-- A removal, after its search. -/
def removeOk (m : Mem T K V) (h : Addr → Nat) (t : T) (c : RemoveCtx K) (p : RemovePc) : Prop :=
  ((m.rank c.victim = rankOf c.key ∧ Was m h c.victim 0) ∧
    ∀ j, j < maxLevel → Was m h (c.preds j) j ∧ m.rank (c.preds j) < rankOf c.key) ∧
    match p with
    | .fullyLinked _ => c.locked = []
    | .marked => m.fullyLinked c.victim = true ∧ c.locked = []
    | .lock lvl => (m.fullyLinked c.victim = true ∧ lvl ≤ m.top c.victim ∧
        LockedOk m h t c.key c.locked) ∧
        ∀ j, lvl < j → j ≤ m.top c.victim → Valid m c.locked (c.preds j) j c.victim
    | .predMarked lvl => (m.fullyLinked c.victim = true ∧ lvl ≤ m.top c.victim ∧
        LockedOk m h t c.key c.locked) ∧
        (∀ j, lvl < j → j ≤ m.top c.victim → Valid m c.locked (c.preds j) j c.victim) ∧
        c.preds lvl ∈ c.locked
    | .checkNext lvl => (m.fullyLinked c.victim = true ∧ lvl ≤ m.top c.victim ∧
        LockedOk m h t c.key c.locked) ∧
        (∀ j, lvl < j → j ≤ m.top c.victim → Valid m c.locked (c.preds j) j c.victim) ∧
        c.preds lvl ∈ c.locked ∧ m.marked (c.preds lvl) = false
    | .lockVictim => (m.fullyLinked c.victim = true ∧ LockedOk m h t c.key c.locked) ∧
        ∀ j, j ≤ m.top c.victim → Valid m c.locked (c.preds j) j c.victim
    | .victimMarked => (m.fullyLinked c.victim = true ∧ LockedOk m h t c.key c.locked) ∧
        (∀ j, j ≤ m.top c.victim → Valid m c.locked (c.preds j) j c.victim) ∧
        m.owner c.victim = some t
    | .mark => (m.fullyLinked c.victim = true ∧ LockedOk m h t c.key c.locked) ∧
        (∀ j, j ≤ m.top c.victim → Valid m c.locked (c.preds j) j c.victim) ∧
        m.owner c.victim = some t ∧ m.marked c.victim = false
    | .loadNext lvl => (lvl ≤ m.top c.victim ∧ LockedOk m h t c.key c.locked) ∧
        (∀ j, j ≤ lvl → Valid m c.locked (c.preds j) j c.victim) ∧
        m.owner c.victim = some t ∧ m.marked c.victim = true ∧ h c.victim = lvl + 1
    | .unlink lvl succ => (lvl ≤ m.top c.victim ∧ LockedOk m h t c.key c.locked) ∧
        (∀ j, j ≤ lvl → Valid m c.locked (c.preds j) j c.victim) ∧
        m.owner c.victim = some t ∧ m.marked c.victim = true ∧ h c.victim = lvl + 1 ∧
        m.next c.victim lvl = succ
    | .unlockVictim _ => LockedOk m h t c.key c.locked ∧ m.owner c.victim = some t

/-- A lookup holds the lock of a node. -/
def HeldAs (m : Mem T K V) (t : T) (a : Addr) : Mode → Prop
  | .exclusive => m.owner a = some t
  | .shared => t ∈ m.readers a

/-- A lookup stands on a linked node to the left of its key. -/
structure GetAt (m : Mem T K V) (h : Addr → Nat) (t : T) (mode : Mode) (k : K) (lvl : Nat)
    (pred : Addr) : Prop where
  held : HeldAs m t pred mode
  unmarked : m.marked pred = false
  linked : lvl < h pred
  left : m.rank pred < rankOf k

/-- A lookup under locks. -/
def getOk (m : Mem T K V) (h : Addr → Nat) (t : T) (mode : Mode) (k : K) : GetPc V → Prop
  | .lockHead => True
  | .test lvl pred => lvl < maxLevel ∧ GetAt m h t mode k lvl pred
  | .step lvl pred => lvl < maxLevel ∧ GetAt m h t mode k lvl pred ∧
      m.rank (m.next pred lvl) < rankOf k
  | .lockNext lvl pred x => lvl < maxLevel ∧ GetAt m h t mode k lvl pred ∧
      m.next pred lvl = x ∧ m.rank x < rankOf k
  | .unlockPred lvl pred x => lvl < maxLevel ∧ HeldAs m t pred mode ∧ pred ≠ x ∧
      GetAt m h t mode k lvl x
  | .curr pred => GetAt m h t mode k 0 pred ∧ rankOf k ≤ m.rank (m.next pred 0)
  | .lockCurr pred c => GetAt m h t mode k 0 pred ∧ m.next pred 0 = c ∧ rankOf k ≤ m.rank c
  | .marked pred c | .val pred c => HeldAs m t pred mode ∧ pred ≠ c ∧ HeldAs m t c mode ∧
      m.marked c = false ∧ 0 < h c ∧ m.fullyLinked c = true ∧ m.rank c = rankOf k
  | .unlockCurr pred c _ => HeldAs m t pred mode ∧ pred ≠ c ∧ HeldAs m t c mode
  | .unlockLast pred _ => HeldAs m t pred mode

/-- A version that `read_begin` returned, with what holds as long as it is current. -/
structure Version (m : Mem T K V) (a : Addr) (v : Nat) (Q : Prop) : Prop where
  even : v % 2 = 0
  le : v ≤ m.version a
  current : m.version a = v → Q

/-- An optimistic lookup. -/
def optimisticOk (m : Mem T K V) (h : Addr → Nat) (k : K) : OptPc V → Prop
  | .beginHead => True
  | .next lvl pred v => lvl < maxLevel ∧ (Was m h pred lvl ∧ m.rank pred < rankOf k) ∧
      Version m pred v True
  | .check lvl pred v nx => lvl < maxLevel ∧ (Was m h pred lvl ∧ m.rank pred < rankOf k) ∧
      Was m h nx lvl ∧ Version m pred v (m.next pred lvl = nx)
  | .begin lvl nx => lvl < maxLevel ∧ Was m h nx lvl ∧ m.rank nx < rankOf k
  | .curr pred v => (Was m h pred 0 ∧ m.rank pred < rankOf k) ∧
      Version m pred v (rankOf k ≤ m.rank (m.next pred 0))
  | .beginCurr pred v c | .checkPred pred v c _ =>
      (Was m h pred 0 ∧ m.rank pred < rankOf k) ∧ Was m h c 0 ∧
      Version m pred v (rankOf k ≤ m.rank c)
  | .marked _ _ c _ | .val _ _ c _ =>
      Was m h c 0 ∧ m.fullyLinked c = true ∧ m.rank c = rankOf k
  | .checkCurr _ _ _ _ _ | .recheck _ _ _ => True

/-- What a thread knows at a program point. -/
def LocalOk (m : Mem T K V) (h : Addr → Nat) (t : T) : Pc K V → Prop
  | .idle | .returned _ => True
  | .find u lvl pred f => FindOk m h u.key lvl pred f
  | .update k _ n p => updateOk m h t k n p
  | .put c p => putOk m h t c p
  | .remove c p => removeOk m h t c p
  | .release _ locked _ => locked.Nodup ∧ ∀ a ∈ locked, m.owner a = some t
  | .get mode k p => getOk m h t mode k p
  | .optimistic k p => optimisticOk m h k p

/-- The node of an insertion that is not fully linked yet. -/
def Pc.newNode : Pc K V → Option Addr
  | .put _ (.fill n _) | .put _ (.link n _) | .put _ (.full n) => some n
  | _ => none

/-- The node an insertion is linking, and its predecessor at level 0. -/
def Pc.linking : Pc K V → Option (Addr × Addr)
  | .put c (.link n _) | .put c (.full n) => some (n, c.preds 0)
  | _ => none

/-- The marked node a removal is unlinking. -/
def Pc.unlinking : Pc K V → Option Addr
  | .remove c (.loadNext _) | .remove c (.unlink _ _) => some c.victim
  | _ => none

omit [LinearOrder K] in
/-- The lock of a node that a lookup holds is not held by another thread. -/
theorem HeldAs.owner_ne {m : Mem T K V} {t u : T} {a : Addr} {mode : Mode} (htu : t ≠ u)
    (hexcl : ∀ a, m.owner a ≠ none → m.readers a = ∅) (hh : HeldAs m t a mode) :
    m.owner a ≠ some u := by
  cases mode with
  | exclusive =>
      rw [show m.owner a = some t from hh]
      exact fun he => htu (Option.some.inj he)
  | shared =>
      intro he
      have hempty := hexcl a (by simp [he])
      have hmem : t ∈ m.readers a := hh
      simp [hempty] at hmem

/-- **What a step of thread `u` leaves alone.**  `mine` is the new node of `u`, if
it has one. -/
structure Frame (u : T) (mine : Option Addr) (m : Mem T K V) (h : Addr → Nat) (m' : Mem T K V)
    (h' : Addr → Nat) : Prop where
  fresh : m.fresh ≤ m'.fresh
  rank : ∀ a, a < m.fresh → m'.rank a = m.rank a
  top : ∀ a, a < m.fresh → m'.top a = m.top a
  was : ∀ a l, Was m h a l → Was m' h' a l
  owner : ∀ a t, t ≠ u → m.owner a = some t → m'.owner a = some t
  readers : ∀ a t, t ≠ u → t ∈ m.readers a → t ∈ m'.readers a
  next : ∀ a, Was m h a 0 → m.owner a ≠ some u → m'.next a = m.next a
  marked : ∀ a, Was m h a 0 → m.owner a ≠ some u → m'.marked a = m.marked a
  full : ∀ a, a < m.fresh → m.fullyLinked a = true → m'.fullyLinked a = true
  linked : ∀ a l, l < h a → m'.marked a = false → l < h' a
  victim : ∀ a, m.marked a = true → m.owner a ≠ some u → h' a = h a
  others : ∀ n, n < m.fresh → m.fullyLinked n = false → mine ≠ some n →
    m'.fullyLinked n = false ∧ m'.marked n = m.marked n ∧ m'.val n = m.val n ∧ h' n = h n ∧
      ∀ j, h n ≤ j → m'.next n j = m.next n j
  version : ∀ a, a < m.fresh → m.version a ≤ m'.version a
  val : ∀ a, a < m.fresh → m'.marked a = true → m'.val a = m.val a
  frozen : ∀ a l, Was m h a l → ¬ l < h' a → m'.next a l = m.next a l
  stays : ∀ a, a < m.fresh → m.marked a = true → m'.marked a = true
  newMarked : ∀ a, m'.marked a = true → m.marked a = true ∨ 0 < h' a
  newFull : ∀ a, a < m.fresh → m'.fullyLinked a = true → m.fullyLinked a = true ∨ 0 < h a
  newborn : ∀ a, m.fresh ≤ a → h' a = 0

namespace Frame

variable {u t : T} {mine : Option Addr} {m m' : Mem T K V} {h h' : Addr → Nat}

/-- What a search has recorded stays true: a node that was linked remains one that was. -/
theorem recorded (hf : Frame u mine m h m' h') (hs : Shape m h) {k : K} {preds succs : Nat → Addr}
    {j : Nat} (hr : Recorded m h k preds succs j) : Recorded m' h' k preds succs j where
  pred := hf.was _ _ hr.pred
  left := by rw [hf.rank _ (hs.lt_fresh hr.pred)]; exact hr.left
  succ := hf.was _ _ hr.succ
  right := by rw [hf.rank _ (hs.lt_fresh hr.succ)]; exact hr.right

/-- What an insertion knows of its neighbours stays true. -/
theorem between (hf : Frame u mine m h m' h') (hs : Shape m h) {k : K} {preds succs : Nat → Addr}
    {j : Nat} (hr : Between m h k preds succs j) : Between m' h' k preds succs j where
  pred := hf.was _ _ hr.pred
  left := by rw [hf.rank _ (hs.lt_fresh hr.pred)]; exact hr.left
  succ := hf.was _ _ hr.succ
  right := by rw [hf.rank _ (hs.lt_fresh hr.succ)]; exact hr.right

/-- A search goes on from where it stands. -/
theorem findOk (hf : Frame u mine m h m' h') (hs : Shape m h) {k : K} {lvl : Nat} {pred : Addr}
    {f : Found} (hr : FindOk m h k lvl pred f) : FindOk m' h' k lvl pred f where
  level := hr.level
  was := hf.was _ _ hr.was
  left := by rw [hf.rank _ (hs.lt_fresh hr.was)]; exact hr.left
  above j hj hj' := hf.recorded hs (hr.above j hj hj')
  missed hl j hj hj' := by
    rw [hf.rank _ (hs.lt_fresh (hr.above j hj hj').succ)]
    exact hr.missed hl j hj hj'
  found l hl := by
    obtain ⟨h1, h2, h3⟩ := hr.found l hl
    refine ⟨h1, h2, ?_⟩
    rw [hf.rank _ (hs.lt_fresh (hr.above l h1 h2).succ)]
    exact h3

/-- Locks taken are kept. -/
theorem lockedOk (hf : Frame u mine m h m' h') (hs : Shape m h) (htu : t ≠ u) {k : K}
    {locked : List Addr} (hl : LockedOk m h t k locked) : LockedOk m' h' t k locked where
  nodup := hl.nodup
  was a ha := hf.was a 0 (hl.was a ha)
  owner a ha := hf.owner a t htu (hl.owner a ha)
  left a ha := by rw [hf.rank a (hs.lt_fresh (hl.was a ha))]; exact hl.left a ha

/-- A validated predecessor stays valid, for its lock is held. -/
theorem valid (hf : Frame u mine m h m' h') (htu : t ≠ u) {k : K} {locked : List Addr}
    (hl : LockedOk m h t k locked) {p b : Addr} {l : Nat} (hv : Valid m locked p l b) :
    Valid m' locked p l b := by
  have hw := hl.was p hv.mem
  have hne : m.owner p ≠ some u := by
    rw [hl.owner p hv.mem]
    exact fun he => htu (Option.some.inj he)
  exact ⟨hv.mem, by rw [hf.marked p hw hne]; exact hv.unmarked,
    by rw [hf.next p hw hne]; exact hv.next⟩

omit [LinearOrder K] in
/-- A node is marked by the holder of its lock only. -/
theorem marked_owned (hf : Frame u mine m h m' h') (htu : t ≠ u) {a : Addr} (hw : Was m h a 0)
    (ho : m.owner a = some t) : m'.marked a = m.marked a := by
  refine hf.marked a hw ?_
  rw [ho]
  exact fun he => htu (Option.some.inj he)

omit [LinearOrder K] in
/-- The unpublished node of an insertion is written by its own thread only. -/
theorem newNode (hf : Frame u mine m h m' h') {c : PutCtx K V} {n : Addr} {lvl : Nat}
    (hmine : mine ≠ some n) (hn : NewNode m h c n lvl) : NewNode m' h' c n lvl := by
  obtain ⟨h1, h2, h3, h4, -⟩ := hf.others n hn.born hn.notFull hmine
  exact ⟨lt_of_lt_of_le hn.born hf.fresh, by rw [hf.rank n hn.born]; exact hn.rank,
    by rw [hf.top n hn.born]; exact hn.top, h3.trans hn.val, h1, h2.trans hn.unmarked,
    h4.trans hn.height⟩

/-- An update keeps the node it has found. -/
theorem updateOk (hf : Frame u mine m h m' h') (hs : Shape m h) (htu : t ≠ u) {k : K} {n : Addr}
    {p : UpdatePc} (hp : updateOk m h t k n p) : updateOk m' h' t k n p := by
  obtain ⟨⟨hr, hw⟩, hp⟩ := hp
  have hborn := hs.lt_fresh hw
  refine ⟨⟨by rw [hf.rank n hborn]; exact hr, hf.was _ _ hw⟩, ?_⟩
  cases p with
  | lock => trivial
  | marked | unlockRetry | unlock => exact hf.owner n t htu hp
  | wait => exact ⟨hf.owner n t htu hp.1, (hf.marked_owned htu hw hp.1).trans hp.2⟩
  | store =>
      exact ⟨hf.owner n t htu hp.1, (hf.marked_owned htu hw hp.1).trans hp.2.1,
        hf.full n hborn hp.2.2⟩

/-- **An insertion** survives the steps of the others. -/
theorem putOk (hf : Frame u mine m h m' h') (hs : Shape m h) (htu : t ≠ u) {c : PutCtx K V}
    {p : PutPc} (hmine : ∀ n, (Pc.put c p).newNode = some n → mine ≠ some n)
    (hp : putOk m h t c p) : putOk m' h' t c p := by
  obtain ⟨hb, hp⟩ := hp
  refine ⟨fun j hj => hf.between hs (hb j hj), ?_⟩
  cases p with
  | level => trivial
  | lock lvl =>
      obtain ⟨⟨h1, h2, h3⟩, h4⟩ := hp
      exact ⟨⟨h1, h2, hf.lockedOk hs htu h3⟩, fun j hj hj' => hf.valid htu h3 (h4 j hj hj')⟩
  | predMarked lvl =>
      obtain ⟨⟨h1, h2, h3⟩, h4, h5⟩ := hp
      exact ⟨⟨h1, h2, hf.lockedOk hs htu h3⟩, fun j hj hj' => hf.valid htu h3 (h4 j hj hj'), h5⟩
  | succMarked lvl | checkNext lvl =>
      obtain ⟨⟨h1, h2, h3⟩, h4, h5, h6⟩ := hp
      exact ⟨⟨h1, h2, hf.lockedOk hs htu h3⟩, fun j hj hj' => hf.valid htu h3 (h4 j hj hj'), h5,
        (hf.marked_owned htu (h3.was _ h5) (h3.owner _ h5)).trans h6⟩
  | new =>
      obtain ⟨⟨h1, h2, h3⟩, h4⟩ := hp
      exact ⟨⟨h1, h2, hf.lockedOk hs htu h3⟩, fun j hj => hf.valid htu h3 (h4 j hj)⟩
  | fill n lvl =>
      obtain ⟨⟨h1, h2, h3⟩, h4, h5, h6⟩ := hp
      have hn := hmine n rfl
      obtain ⟨-, -, -, -, hnext⟩ := hf.others n h5.born h5.notFull hn
      refine ⟨⟨h1, h2, hf.lockedOk hs htu h3⟩, fun j hj => hf.valid htu h3 (h4 j hj),
        hf.newNode hn h5, fun j hj => ?_⟩
      rw [hnext j (by rw [h5.height]; exact Nat.zero_le j)]
      exact h6 j hj
  | link n lvl =>
      obtain ⟨⟨h1, h2, h3⟩, h4, h5, h6, h7⟩ := hp
      have hn := hmine n rfl
      obtain ⟨-, -, -, -, hnext⟩ := hf.others n h6.born h6.notFull hn
      refine ⟨⟨h1, h2, hf.lockedOk hs htu h3⟩, fun j hj hj' => hf.valid htu h3 (h4 j hj hj'),
        fun j hj => hf.valid htu h3 (h5 j hj), hf.newNode hn h6, fun j hj hj' => ?_⟩
      rw [hnext j (by rw [h6.height]; exact hj)]
      exact h7 j hj hj'
  | full n =>
      obtain ⟨⟨h1, h2, h3⟩, h4, h5⟩ := hp
      exact ⟨⟨h1, h2, hf.lockedOk hs htu h3⟩, fun j hj => hf.valid htu h3 (h4 j hj),
        hf.newNode (hmine n rfl) h5⟩

/-- **A removal** survives the steps of the others. -/
theorem removeOk (hf : Frame u mine m h m' h') (hs : Shape m h) (htu : t ≠ u) {c : RemoveCtx K}
    {p : RemovePc} (hp : removeOk m h t c p) : removeOk m' h' t c p := by
  obtain ⟨⟨⟨hr, hw⟩, hb⟩, hp⟩ := hp
  have hborn := hs.lt_fresh hw
  have htop := hf.top c.victim hborn
  refine ⟨⟨⟨by rw [hf.rank _ hborn]; exact hr, hf.was _ _ hw⟩, fun j hj => ?_⟩, ?_⟩
  · obtain ⟨h1, h2⟩ := hb j hj
    exact ⟨hf.was _ _ h1, by rw [hf.rank _ (hs.lt_fresh h1)]; exact h2⟩
  cases p with
  | fullyLinked l => exact hp
  | marked => exact ⟨hf.full _ hborn hp.1, hp.2⟩
  | lock lvl =>
      obtain ⟨⟨h1, h2, h3⟩, h4⟩ := hp
      simp only [htop]
      exact ⟨⟨hf.full _ hborn h1, h2, hf.lockedOk hs htu h3⟩,
        fun j hj hj' => hf.valid htu h3 (h4 j hj hj')⟩
  | predMarked lvl =>
      obtain ⟨⟨h1, h2, h3⟩, h4, h5⟩ := hp
      simp only [htop]
      exact ⟨⟨hf.full _ hborn h1, h2, hf.lockedOk hs htu h3⟩,
        fun j hj hj' => hf.valid htu h3 (h4 j hj hj'), h5⟩
  | checkNext lvl =>
      obtain ⟨⟨h1, h2, h3⟩, h4, h5, h6⟩ := hp
      simp only [htop]
      exact ⟨⟨hf.full _ hborn h1, h2, hf.lockedOk hs htu h3⟩,
        fun j hj hj' => hf.valid htu h3 (h4 j hj hj'), h5,
        (hf.marked_owned htu (h3.was _ h5) (h3.owner _ h5)).trans h6⟩
  | lockVictim =>
      obtain ⟨⟨h1, h3⟩, h4⟩ := hp
      simp only [htop]
      exact ⟨⟨hf.full _ hborn h1, hf.lockedOk hs htu h3⟩, fun j hj => hf.valid htu h3 (h4 j hj)⟩
  | victimMarked =>
      obtain ⟨⟨h1, h3⟩, h4, h5⟩ := hp
      simp only [htop]
      exact ⟨⟨hf.full _ hborn h1, hf.lockedOk hs htu h3⟩, fun j hj => hf.valid htu h3 (h4 j hj),
        hf.owner _ t htu h5⟩
  | mark =>
      obtain ⟨⟨h1, h3⟩, h4, h5, h6⟩ := hp
      simp only [htop]
      exact ⟨⟨hf.full _ hborn h1, hf.lockedOk hs htu h3⟩, fun j hj => hf.valid htu h3 (h4 j hj),
        hf.owner _ t htu h5, (hf.marked_owned htu hw h5).trans h6⟩
  | loadNext lvl =>
      obtain ⟨⟨h2, h3⟩, h4, h5, h6, h7⟩ := hp
      have hne : m.owner c.victim ≠ some u := by
        rw [h5]
        exact fun he => htu (Option.some.inj he)
      simp only [htop]
      exact ⟨⟨h2, hf.lockedOk hs htu h3⟩, fun j hj => hf.valid htu h3 (h4 j hj),
        hf.owner _ t htu h5, (hf.marked_owned htu hw h5).trans h6,
        (hf.victim _ h6 hne).trans h7⟩
  | unlink lvl succ =>
      obtain ⟨⟨h2, h3⟩, h4, h5, h6, h7, h8⟩ := hp
      have hne : m.owner c.victim ≠ some u := by
        rw [h5]
        exact fun he => htu (Option.some.inj he)
      simp only [htop]
      refine ⟨⟨h2, hf.lockedOk hs htu h3⟩, fun j hj => hf.valid htu h3 (h4 j hj),
        hf.owner _ t htu h5, (hf.marked_owned htu hw h5).trans h6,
        (hf.victim _ h6 hne).trans h7, ?_⟩
      rw [hf.next _ hw hne]
      exact h8
  | unlockVictim r => exact ⟨hf.lockedOk hs htu hp.1, hf.owner _ t htu hp.2⟩

omit [LinearOrder K] in
/-- A lookup keeps its lock. -/
theorem heldAs (hf : Frame u mine m h m' h') (htu : t ≠ u) {a : Addr} {mode : Mode}
    (hh : HeldAs m t a mode) : HeldAs m' t a mode := by
  cases mode with
  | exclusive => exact hf.owner a t htu hh
  | shared => exact hf.readers a t htu hh

/-- A lookup stays on a linked node: under its lock the node is not unlinked. -/
theorem getAt (hf : Frame u mine m h m' h') (hs : Shape m h) (htu : t ≠ u)
    (hexcl : ∀ a, m.owner a ≠ none → m.readers a = ∅) {mode : Mode} {k : K} {lvl : Nat}
    {pred : Addr} (hg : GetAt m h t mode k lvl pred) : GetAt m' h' t mode k lvl pred := by
  have hw : Was m h pred 0 := Shape.was_mono (.inl hg.linked) (Nat.zero_le lvl)
  have hm := (hf.marked pred hw (hg.held.owner_ne htu hexcl)).trans hg.unmarked
  exact ⟨hf.heldAs htu hg.held, hm, hf.linked pred lvl hg.linked hm,
    by rw [hf.rank pred (hs.lt_fresh hw)]; exact hg.left⟩

/-- The pointers under a lookup's lock do not change. -/
theorem getNext (hf : Frame u mine m h m' h') (htu : t ≠ u)
    (hexcl : ∀ a, m.owner a ≠ none → m.readers a = ∅) {mode : Mode} {k : K} {lvl : Nat}
    {pred : Addr} (hg : GetAt m h t mode k lvl pred) : m'.next pred = m.next pred :=
  hf.next pred (Shape.was_mono (.inl hg.linked) (Nat.zero_le lvl)) (hg.held.owner_ne htu hexcl)

/-- **A lookup under locks** survives the steps of the others. -/
theorem getOk (hf : Frame u mine m h m' h') (hs : Shape m h) (htu : t ≠ u)
    (hexcl : ∀ a, m.owner a ≠ none → m.readers a = ∅) {mode : Mode} {k : K} {p : GetPc V}
    (hp : getOk m h t mode k p) : getOk m' h' t mode k p := by
  have hborn : ∀ {lvl pred}, GetAt m h t mode k lvl pred → m.next pred lvl < m.fresh := by
    intro lvl pred hg
    exact hs.lt_fresh (hs.next_was (.inl hg.linked) (hs.ne_tail hg.left)).1
  cases p with
  | lockHead => trivial
  | test lvl pred => exact ⟨hp.1, hf.getAt hs htu hexcl hp.2⟩
  | step lvl pred =>
      obtain ⟨h1, h2, h3⟩ := hp
      refine ⟨h1, hf.getAt hs htu hexcl h2, ?_⟩
      rw [hf.getNext htu hexcl h2, hf.rank _ (hborn h2)]
      exact h3
  | lockNext lvl pred x =>
      obtain ⟨h1, h2, rfl, h3⟩ := hp
      refine ⟨h1, hf.getAt hs htu hexcl h2, by rw [hf.getNext htu hexcl h2], ?_⟩
      rw [hf.rank _ (hborn h2)]
      exact h3
  | unlockPred lvl pred x =>
      obtain ⟨h1, h2, h3, h4⟩ := hp
      exact ⟨h1, hf.heldAs htu h2, h3, hf.getAt hs htu hexcl h4⟩
  | curr pred =>
      refine ⟨hf.getAt hs htu hexcl hp.1, ?_⟩
      rw [hf.getNext htu hexcl hp.1, hf.rank _ (hborn hp.1)]
      exact hp.2
  | lockCurr pred c =>
      obtain ⟨h2, rfl, h3⟩ := hp
      refine ⟨hf.getAt hs htu hexcl h2, by rw [hf.getNext htu hexcl h2], ?_⟩
      rw [hf.rank _ (hborn h2)]
      exact h3
  | marked pred c | val pred c =>
      obtain ⟨h1, h2, h3, h4, h5, h6, h7⟩ := hp
      have hw : Was m h c 0 := .inl h5
      have hm := (hf.marked c hw (h3.owner_ne htu hexcl)).trans h4
      exact ⟨hf.heldAs htu h1, h2, hf.heldAs htu h3, hm, hf.linked c 0 h5 hm,
        hf.full c (hs.lt_fresh hw) h6, by rw [hf.rank c (hs.lt_fresh hw)]; exact h7⟩
  | unlockCurr pred c r => exact ⟨hf.heldAs htu hp.1, hp.2.1, hf.heldAs htu hp.2.2⟩
  | unlockLast pred r => exact hf.heldAs htu hp

/-- As long as the version a reader has seen is current, the node's pointers stay. -/
theorem versionOk (hf : Frame u mine m h m' h') (hs : Shape m h)
    (hpar : ∀ a, m.version a % 2 = 1 ↔ m.owner a ≠ none) {a : Addr} {v : Nat} {Q Q' : Prop}
    (hw : Was m h a 0) (hv : Version m a v Q) (hQ : m'.next a = m.next a → Q → Q') :
    Version m' a v Q' := by
  have hle := hf.version a (hs.lt_fresh hw)
  refine ⟨hv.even, le_trans hv.le hle, fun heq => ?_⟩
  have hcur : m.version a = v := le_antisymm (heq ▸ hle) hv.le
  refine hQ (hf.next a hw fun ho => ?_) (hv.current hcur)
  have := (hpar a).mpr (by simp [ho])
  have := hv.even
  omega

/-- **An optimistic lookup** survives them too: what it knows holds as long as the version does. -/
theorem optimisticOk (hf : Frame u mine m h m' h') (hs : Shape m h)
    (hpar : ∀ a, m.version a % 2 = 1 ↔ m.owner a ≠ none) {k : K} {p : OptPc V}
    (hp : optimisticOk m h k p) : optimisticOk m' h' k p := by
  have hat : ∀ {a l}, Was m h a l → m.rank a < rankOf k →
      Was m' h' a l ∧ m'.rank a < rankOf k := fun {a l} hw hr =>
    ⟨hf.was a l hw, by rw [hf.rank a (hs.lt_fresh hw)]; exact hr⟩
  cases p with
  | beginHead => trivial
  | next lvl pred v =>
      obtain ⟨h1, ⟨h2, h3⟩, h4⟩ := hp
      exact ⟨h1, hat h2 h3,
        hf.versionOk hs hpar (Shape.was_mono h2 (Nat.zero_le lvl)) h4 fun _ hq => hq⟩
  | check lvl pred v nx =>
      obtain ⟨h1, ⟨h2, h3⟩, h4, h5⟩ := hp
      refine ⟨h1, hat h2 h3, hf.was _ _ h4,
        hf.versionOk hs hpar (Shape.was_mono h2 (Nat.zero_le lvl)) h5 fun hn hq => ?_⟩
      rw [hn, hq]
  | begin lvl nx => exact ⟨hp.1, hat hp.2.1 hp.2.2⟩
  | curr pred v =>
      obtain ⟨⟨h2, h3⟩, h4⟩ := hp
      refine ⟨hat h2 h3, hf.versionOk hs hpar h2 h4 fun hn hq => ?_⟩
      rw [hn, hf.rank _ (hs.lt_fresh (hs.next_was h2 (hs.ne_tail h3)).1)]
      exact hq
  | beginCurr pred v c | checkPred pred v c vc =>
      obtain ⟨⟨h2, h3⟩, h4, h5⟩ := hp
      refine ⟨hat h2 h3, hf.was _ _ h4, hf.versionOk hs hpar h2 h5 fun _ hq => ?_⟩
      rw [hf.rank _ (hs.lt_fresh h4)]
      exact hq
  | marked pred v c vc | val pred v c vc =>
      obtain ⟨h1, h2, h3⟩ := hp
      exact ⟨hf.was _ _ h1, hf.full _ (hs.lt_fresh h1) h2,
        by rw [hf.rank _ (hs.lt_fresh h1)]; exact h3⟩
  | checkCurr pred v c vc r | recheck pred v r => trivial

/-- **What a thread knows survives the steps of others.** -/
theorem localOk (hf : Frame u mine m h m' h') (hs : Shape m h)
    (hexcl : ∀ a, m.owner a ≠ none → m.readers a = ∅)
    (hpar : ∀ a, m.version a % 2 = 1 ↔ m.owner a ≠ none) (htu : t ≠ u) {p : Pc K V}
    (hmine : ∀ n, p.newNode = some n → mine ≠ some n) (hp : LocalOk m h t p) :
    LocalOk m' h' t p := by
  cases p with
  | idle | returned r => trivial
  | find u lvl pred f => exact hf.findOk hs hp
  | update k v n p => exact hf.updateOk hs htu hp
  | put c p => exact hf.putOk hs htu hmine hp
  | remove c p => exact hf.removeOk hs htu hp
  | release u locked r => exact ⟨hp.1, fun a ha => hf.owner a t htu (hp.2 a ha)⟩
  | get mode k p => exact hf.getOk hs htu hexcl hp
  | optimistic k p => exact hf.optimisticOk hs hpar hp

end Frame

end Local
end SkipList
