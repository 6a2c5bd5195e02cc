import LockBench.BptreeCouplingSafety

/-!
# No data races under lock coupling

What a step of `get`, `get_shared`, `put` and `remove` reads and writes of the tree is told apart by
the locks that guard it: `root_` by the latch, the fields of a node by its lock.  A step depends on
nothing else, and changes nothing else of the nodes that are there; a node that it allocates is
nobody's yet.  What a thread is about to read it has locked, and what it is about to write it has
locked exclusively, so no two threads ever are about to access the same thing and one of them to
write it.
-/

namespace BptreeCoupling

open BptreeIndex IdealLocks

section

variable {T K V : Type} [DecidableEq T] [LinearOrder K] {F : Nat} {t u : T} {m m' : Mem T K V}
  {p p' : Pc K V} {c : Choice K V} {s : State T K V} {l : Lock}

/-- The guards of what the next step reads. -/
def Pc.reads : Pc K V → List Lock
  | .visit _ l => [l]
  | .leaf _ cur => [.node cur]
  | .putRoot _ _ => [.latch]
  | .putVisit x | .putLeaf x => x.held.head?.toList.map .node
  | .putTest _ child => [.node child]
  | .putUp _ above _ _ => [target above]
  | _ => []

/-- The guards of what the next step writes. -/
def Pc.writes : Pc K V → List Lock
  | .leaf (.remove _) cur => [.node cur]
  | .putLeaf x => x.held.head?.toList.map .node
  | .putUp _ above _ _ => [target above]
  | _ => []

/-- Two trees agree on what a lock guards. -/
def AgreeAt (m₁ m₂ : Tree K V) : Lock → Prop
  | .latch => m₁.root = m₂.root
  | .node p => m₁.heap p = m₂.heap p

/-- The tree `m₂` with what a step from `m` to `m'` has written, and the nodes it has allocated. -/
def carry (writes : List Lock) (m m' m₂ : Tree K V) : Tree K V where
  heap := fun q =>
    if .node q ∈ writes ∨ m.alloc ≤ q ∧ q < m'.alloc then m'.heap q else m₂.heap q
  alloc := m'.alloc
  root := if .latch ∈ writes then m'.root else m₂.root

omit [DecidableEq T] [LinearOrder K] in
/-- The lowest node that a `put` holds is one of its locks. -/
theorem PutCtx.head_mem_locks {x : PutCtx K V} (h : l ∈ x.held.head?.toList.map Lock.node) :
    l ∈ x.locks := by
  cases hheld : x.held with
  | nil => simp [hheld] at h
  | cons cur rest =>
      obtain rfl : l = .node cur := by simpa [hheld] using h
      simp [PutCtx.locks, hheld]

omit [DecidableEq T] in
/-- A split is pushed up to a node that the `put` has locked. -/
theorem target_mem_locks {g : Ranges K} {tree : Tree K V} {x : PutCtx K V} {above : List Ptr}
    {sep : K} {right : Ptr} (h : Local F g tree (.putUp x above sep right)) :
    target above ∈ x.locks := by
  obtain ⟨hsuffix, -, -, htop⟩ := h
  obtain ⟨ls, hls⟩ := htop.target_mem
  exact PutCtx.mem_locks_of_above hsuffix (by simp [hls])

omit [DecidableEq T] in
/-- What is read is locked. -/
theorem reads_claimed {g : Ranges K} {tree : Tree K V} (h : Local F g tree p) (hl : l ∈ p.reads) :
    ∃ mode, (l, mode) ∈ p.claims := by
  have hput : ∀ {x : PutCtx K V}, l ∈ x.locks →
      (l, Mode.exclusive) ∈ x.locks.map fun l => (l, Mode.exclusive) :=
    fun hl => List.mem_map_of_mem hl
  cases p with
  | visit w l' =>
      obtain rfl := List.mem_singleton.mp hl
      exact ⟨w.mode, .head _⟩
  | leaf w cur =>
      obtain rfl := List.mem_singleton.mp hl
      exact ⟨w.mode, .head _⟩
  | putRoot key val =>
      obtain rfl := List.mem_singleton.mp hl
      exact ⟨.exclusive, .head _⟩
  | putVisit x | putLeaf x => exact ⟨.exclusive, hput (PutCtx.head_mem_locks hl)⟩
  | putTest x child =>
      obtain rfl := List.mem_singleton.mp hl
      exact ⟨.exclusive, .head _⟩
  | putUp x above sep right =>
      obtain rfl := List.mem_singleton.mp hl
      exact ⟨.exclusive, hput (target_mem_locks h)⟩
  | _ => cases hl

omit [DecidableEq T] in
/-- What is written is locked exclusively. -/
theorem writes_claimed {g : Ranges K} {tree : Tree K V} (h : Local F g tree p) (hl : l ∈ p.writes) :
    (l, .exclusive) ∈ p.claims := by
  cases p with
  | leaf w cur =>
      cases w with
      | get mode key => cases hl
      | remove key =>
          obtain rfl := List.mem_singleton.mp hl
          exact .head _
  | putLeaf x => exact List.mem_map_of_mem (PutCtx.head_mem_locks hl)
  | putUp x above sep right =>
      obtain rfl := List.mem_singleton.mp hl
      exact List.mem_map_of_mem (target_mem_locks h)
  | _ => cases hl

/-! ## The footprint of a step -/

section Footprint

variable {tree tree₂ : Tree K V} {cur : Ptr} {x y : Node K V}

omit [LinearOrder K] in
/-- With nothing written nothing is carried over. -/
theorem carry_self (halloc : tree₂.alloc = tree.alloc) : carry [] tree tree tree₂ = tree₂ := by
  have hno : ∀ q, ¬(tree.alloc ≤ q ∧ q < tree.alloc) := fun q h => absurd h.2 h.1.not_gt
  obtain ⟨heap, alloc, root⟩ := tree₂
  simp only [carry, List.not_mem_nil, hno, or_self, if_false]
  exact congrArg (fun a => (⟨heap, a, root⟩ : Tree K V)) halloc.symm

omit [LinearOrder K] in
/-- A node written in one tree, written in the other. -/
theorem carry_set (halloc : tree₂.alloc = tree.alloc) :
    carry [.node cur] tree (tree.set cur x) tree₂ = tree₂.set cur x := by
  have hno : ∀ q, ¬(tree.alloc ≤ q ∧ q < tree.alloc) := fun q h => absurd h.2 h.1.not_gt
  have hheap : (fun q => if q = cur then Function.update tree.heap cur x q else tree₂.heap q) =
      Function.update tree₂.heap cur x := by
    funext q
    by_cases hq : q = cur
    · simp [hq]
    · simp [hq]
  simp only [carry, Tree.set, List.mem_singleton, Lock.node.injEq, hno, or_false, reduceCtorEq,
    if_false, hheap, halloc]

omit [LinearOrder K] in
/-- A split in one tree, carried over to the other. -/
theorem carry_split (halloc : tree₂.alloc = tree.alloc) :
    carry [.node cur] tree ((tree.new y).set cur x) tree₂ = (tree₂.new y).set cur x := by
  have hheap : (fun q => if q = cur ∨ tree.alloc ≤ q ∧ q < tree.alloc + 1 then
      Function.update (Function.update tree.heap tree.alloc y) cur x q else tree₂.heap q) =
      Function.update (Function.update tree₂.heap tree.alloc y) cur x := by
    funext q
    by_cases hq : q = cur
    · simp [hq]
    · by_cases hqa : q = tree.alloc
      · rw [hqa] at hq ⊢
        simp [hq]
      · have hno : ¬(tree.alloc ≤ q ∧ q < tree.alloc + 1) := fun h =>
          hqa (le_antisymm (Nat.lt_succ_iff.mp h.2) h.1)
        simp only [hq, hno, or_self, if_false, Function.update_of_ne hq, Function.update_of_ne hqa]
  simp only [carry, Tree.set, Tree.new, List.mem_singleton, Lock.node.injEq, reduceCtorEq,
    if_false, hheap, halloc]

omit [LinearOrder K] in
/-- A root split in one tree, carried over to the other. -/
theorem carry_newRoot (halloc : tree₂.alloc = tree.alloc) {oldRoot right : Ptr} {sep : K} :
    carry [.latch] tree (newRoot tree oldRoot sep right) tree₂ =
      newRoot tree₂ oldRoot sep right := by
  have hheap : (fun q => if tree.alloc ≤ q ∧ q < tree.alloc + 1 then
      Function.update tree.heap tree.alloc (.internal [sep] [oldRoot, right]) q else tree₂.heap q) =
      Function.update tree₂.heap tree.alloc (.internal [sep] [oldRoot, right]) := by
    funext q
    by_cases hqa : q = tree.alloc
    · simp [hqa]
    · have hno : ¬(tree.alloc ≤ q ∧ q < tree.alloc + 1) := fun h =>
        hqa (le_antisymm (Nat.lt_succ_iff.mp h.2) h.1)
      simp only [hno, if_false, Function.update_of_ne hqa]
  simp only [carry, newRoot, Tree.new, List.mem_singleton, reduceCtorEq, false_or, if_true, hheap,
    halloc]

/-- **The leaf step of `put` reads and writes its leaf only.** -/
theorem leafPut_footprint (halloc : tree₂.alloc = tree.alloc)
    (hcur : tree₂.heap cur = tree.heap cur) (key : K) (val : V) :
    leafPut F tree₂ cur key val =
      (leafPut F tree cur key val).map fun r => (carry [.node cur] tree r.1 tree₂, r.2) := by
  simp only [leafPut, hcur, halloc]
  split
  · rfl
  · split
    · simp only [Option.map_some, carry_set halloc]
    · split
      · simp only [Option.map_some, carry_set halloc]
      · split
        · rfl
        · simp only [Option.map_some, carry_split halloc]

/-- **The push-up reads and writes its node only.** -/
theorem pushUp_footprint (halloc : tree₂.alloc = tree.alloc)
    (hcur : tree₂.heap cur = tree.heap cur) (sep : K) (right : Ptr) :
    pushUp F tree₂ cur sep right =
      (pushUp F tree cur sep right).map fun r => (carry [.node cur] tree r.1 tree₂, r.2) := by
  simp only [pushUp, hcur, halloc]
  split
  · rfl
  · split
    · simp only [Option.map_some, carry_set halloc]
    · split
      · rfl
      · simp only [Option.map_some, carry_split halloc]

end Footprint

/-- **What a step does is decided by what it reads**, and all that it changes is what it writes and
what it allocates: from another memory with the same locks and the same things to read, the same is
done. -/
theorem next_footprint {m₂ : Mem T K V} (hlocks : m₂.locks = m.locks)
    (halloc : m₂.tree.alloc = m.tree.alloc) (hreads : ∀ l ∈ p.reads, AgreeAt m₂.tree m.tree l) :
    next F t m₂ p c =
      (next F t m p c).map fun r => (⟨carry p.writes m.tree r.1.tree m₂.tree, r.1.locks⟩, r.2) := by
  obtain ⟨tree₂, locks₂⟩ := m₂
  obtain ⟨tree, locks⟩ := m
  simp only at hlocks halloc
  subst hlocks
  have hself := carry_self halloc
  cases p with
  | idle => cases c <;> simp [next, Pc.writes, hself]
  | enter | lockChild | putEnter | putLockRoot | putLockChild =>
      simp [next, Mem.lock, Pc.writes, hself, Function.comp_def]
  | unlockParent | unlockLeaf => simp [next, Mem.unlock, Pc.writes, hself]
  | returned r => simp [next, Pc.writes, hself]
  | putRoot key val =>
      have hroot : tree₂.root = tree.root := hreads .latch (.head _)
      simp [next, Pc.writes, hself, hroot]
  | visit w l =>
      have hl := hreads l (.head _)
      have hvisit : visitStep ⟨tree₂, locks₂⟩ w l = visitStep ⟨tree, locks₂⟩ w l := by
        cases l with
        | latch =>
            have hroot : tree₂.root = tree.root := hl
            simp [visitStep, hroot]
        | node cur =>
            have hheap : tree₂.heap cur = tree.heap cur := hl
            simp [visitStep, hheap]
      simp [next, hvisit, Pc.writes, hself, Function.comp_def]
  | leaf w cur =>
      have hheap : tree₂.heap cur = tree.heap cur := hreads (.node cur) (.head _)
      cases hcur : tree.heap cur with
      | internal ks cs => simp [next, leafStep, hheap, hcur]
      | leaf es nx =>
          cases w with
          | get mode key => simp [next, leafStep, hheap, hcur, Pc.writes, hself]
          | remove key => simp [next, leafStep, hheap, hcur, Pc.writes, carry_set halloc]
  | putVisit x =>
      have hvisit : putVisitStep ⟨tree₂, locks₂⟩ x = putVisitStep ⟨tree, locks₂⟩ x := by
        cases hheld : x.held with
        | nil => simp [putVisitStep, hheld]
        | cons cur rest =>
            have hheap : tree₂.heap cur = tree.heap cur :=
              hreads (.node cur) (by simp [Pc.reads, hheld])
            simp [putVisitStep, hheld, hheap]
      simp [next, hvisit, Pc.writes, hself, Function.comp_def]
  | putTest x child =>
      have hheap : tree₂.heap child = tree.heap child := hreads (.node child) (.head _)
      simp [next, putTestStep, hheap, Pc.writes, hself, Function.comp_def]
  | putLeaf x =>
      cases hheld : x.held with
      | nil => simp [next, putLeafStep, hheld]
      | cons cur rest =>
          have hheap : tree₂.heap cur = tree.heap cur :=
            hreads (.node cur) (by simp [Pc.reads, hheld])
          simp [next, putLeafStep, hheld, leafPut_footprint halloc hheap, Pc.writes,
            Function.comp_def]
  | putUp x above sep right =>
      cases above with
      | nil => simp [next, putUpStep, Pc.writes, target, carry_newRoot halloc, Function.comp_def]
      | cons parent rest =>
          have hheap : tree₂.heap parent = tree.heap parent := hreads (.node parent) (.head _)
          simp [next, putUpStep, pushUp_footprint halloc hheap, Pc.writes, target,
            Function.comp_def]
  | unlockAll todo after =>
      cases todo with
      | nil => simp [next, unlockStep, Pc.writes, hself]
      | cons l rest => simp [next, unlockStep, Mem.unlock, Pc.writes, hself]

/-! ## Race freedom -/

/-- The locks guard the nodes: what a thread is about to write no other thread is about to read or
write, and a thread's next step neither depends on nor changes what its locks do not guard. -/
structure RaceFree (F : Nat) (s : State T K V) : Prop where
  apart : ∀ t u, t ≠ u → ∀ l ∈ (s.pc t).writes, l ∉ (s.pc u).reads ∧ l ∉ (s.pc u).writes
  reads : ∀ t, ∀ l ∈ (s.pc t).reads, ∃ mode, s.mem.locks.Holds t l mode
  writes : ∀ t, ∀ l ∈ (s.pc t).writes, s.mem.locks.Holds t l .exclusive
  footprint : ∀ t c (m : Mem T K V), m.locks = s.mem.locks → m.tree.alloc = s.mem.tree.alloc →
    (∀ l mode, s.mem.locks.Holds t l mode → AgreeAt m.tree s.mem.tree l) →
    next F t m (s.pc t) c = (next F t s.mem (s.pc t) c).map fun r =>
      (⟨carry (s.pc t).writes s.mem.tree r.1.tree m.tree, r.1.locks⟩, r.2)

/-- **The B+ tree has no data races** in any reachable state. -/
theorem coupling_raceFree (hF : F ≤ 65535) (hpos : 1 ≤ F)
    (hreach : (machine T K V F).Reachable s) : RaceFree F s := by
  obtain ⟨g, h⟩ := safe_of_reachable hF hpos hreach
  have hreads : ∀ t, ∀ l ∈ (s.pc t).reads, ∃ mode, s.mem.locks.Holds t l mode := by
    intro t l hl
    obtain ⟨mode, hmem⟩ := reads_claimed (h.here t) hl
    exact ⟨mode, (h.kept.holds t l mode).mpr hmem⟩
  refine ⟨fun t u hne l hl => ⟨fun hl' => ?_, fun hl' => ?_⟩, hreads, fun t l hl => ?_,
    fun t c m hlocks halloc hagree => ?_⟩
  · obtain ⟨mode, hmem⟩ := reads_claimed (h.here u) hl'
    exact hne (h.kept.eq_of_exclusive (writes_claimed (h.here t) hl) hmem).symm
  · exact hne (h.kept.eq_of_exclusive (writes_claimed (h.here t) hl)
      (writes_claimed (h.here u) hl')).symm
  · exact (h.kept.holds t l .exclusive).mpr (writes_claimed (h.here t) hl)
  · refine next_footprint hlocks halloc fun l hl => ?_
    obtain ⟨mode, hheld⟩ := hreads t l hl
    exact hagree l mode hheld

/-- One thread is at the leaf to insert, the other waits for the latch. -/
def insertingRun : List (Fin 2 × Choice Nat Nat) :=
  (0, .call (.put 7 70)) :: List.replicate 4 (0, .go) ++ [(1, .call (.get .shared 7))]

/-- The root leaf is about to be written, by its exclusive holder alone. -/
theorem coupling_raceFree_inserting : ∃ s : State (Fin 2) Nat Nat,
    (s.pc 0).writes = [.node 0] ∧ RaceFree 16 s := by
  have hrun : (((machine (Fin 2) Nat Nat 16).run insertingRun).map fun s => (s.pc 0).writes) =
      some [.node 0] := by
    decide +kernel
  obtain ⟨s, hs, hwrites⟩ := Option.map_eq_some_iff.mp hrun
  exact ⟨s, hwrites, coupling_raceFree (by decide) (by decide) (Machine.reachable_of_run hs)⟩

end

end BptreeCoupling
