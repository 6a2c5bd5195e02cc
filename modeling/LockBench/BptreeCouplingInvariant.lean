import LockBench.BptreeContents

/-!
# The invariant of lock coupling in `bptree_index`

A thread on its way down stands on a path: each lock it holds, and the child it is about to lock, is
that of a child of the next one up, and all have the key in their ranges.  `put` has the latch, or
has passed a node that is not full; so a split that goes up through all held nodes ends at the
latch.  What a thread relies on is not changed by the others, since the range of a node changes only
in the hands of one who holds its parent too.
-/

namespace BptreeCoupling

open BptreeIndex IdealLocks

section

variable {T K V : Type} [DecidableEq T] [LinearOrder K]

/-- The locks of a path, from the lowest upwards. -/
structure OnPath (g : Ranges K) (m : Tree K V) (key : K) (path : List Lock) : Prop where
  alloc : ∀ l ∈ path, Allocated m l
  has : ∀ l ∈ path, g.Has l key
  chain : path.IsChain g.Under

/-- How far up a split can go: below the latch there is a node that is not full among those left,
and with the latch the topmost held node is the root. -/
structure Topped (F : Nat) (m : Tree K V) (held above : List Ptr) (latch : Bool) : Prop where
  safe : latch = false → ∃ p, above.getLast? = some p ∧ (m.heap p).n < F
  root : latch = true → held.getLast? = some m.root

/-- `put` on its way down. -/
structure PutCtx.Ok (F : Nat) (g : Ranges K) (m : Tree K V) (c : PutCtx K V) : Prop where
  onPath : OnPath g m c.key c.locks
  topped : Topped F m c.held c.held c.latch

/-- What a thread relies on. -/
def Local (F : Nat) (g : Ranges K) (m : Tree K V) : Pc K V → Prop
  | .visit w l => OnPath g m w.key [l]
  | .lockChild w l child | .unlockParent w l child => OnPath g m w.key [.node child, l]
  | .leaf w cur => OnPath g m w.key [.node cur] ∧ (m.heap cur).isLeaf = true
  | .putLockRoot key _ cur => OnPath g m key [.node cur, .latch] ∧ cur = m.root
  | .putVisit c => c.Ok F g m
  | .putLockChild c child | .putTest c child =>
      c.Ok F g m ∧ OnPath g m c.key (.node child :: c.locks)
  | .putLeaf c => c.Ok F g m ∧ ∃ cur, c.held.head? = some cur ∧ (m.heap cur).isLeaf = true
  | .putUp c above _ _ => above <:+ c.held ∧ 0 < g.level (target above) ∧
      OnPath g m c.key (above.map .node ++ c.latchLocks) ∧ Topped F m c.held above c.latch
  | .unlockAll _ (.descend key _ child) =>
      OnPath g m key [.node child] ∧ (m.heap child).n < F
  | _ => True

/-- What the others may rely on while a thread takes a step; the locks that it does not own are
`free`. -/
structure Frame (free : Lock → Prop) (g : Ranges K) (m : Tree K V) (g' : Ranges K)
    (m' : Tree K V) : Prop where
  alloc : m.alloc ≤ m'.alloc
  same : ∀ l, Allocated m l → free l → g.SameAt g' l
  heap : ∀ p < m.alloc, free (.node p) → m'.heap p = m.heap p
  root : free .latch → m'.root = m.root
  child : ∀ l d, Allocated m l → free l → d < m.alloc → g.Under (.node d) l →
    g.SameAt g' (.node d)

variable {F : Nat} {g g' : Ranges K} {m m' : Tree K V} {key : K} {path : List Lock}
  {free : Lock → Prop} {l : Lock} {child cur : Ptr} {held above : List Ptr} {latch : Bool}

/-! ## Paths -/

/-- A path stays a path when its ranges stay. -/
theorem OnPath.congr (h : OnPath g m key path) (halloc : m.alloc ≤ m'.alloc)
    (hsame : ∀ l ∈ path, g.SameAt g' l) : OnPath g' m' key path where
  alloc l hl := by
    have := h.alloc l hl
    cases l with
    | latch => trivial
    | node p => exact lt_of_lt_of_le this halloc
  has l hl := (hsame l hl).has.mpr (h.has l hl)
  chain := h.chain.imp_of_mem_imp fun a b ha hb hab =>
    ((hsame a ha).under (hsame b hb)).mpr hab

/-- The upper part of a path is a path. -/
theorem OnPath.suffix {path' : List Lock} (h : OnPath g m key path) (hs : path' <:+ path) :
    OnPath g m key path' :=
  ⟨fun l hl => h.alloc l (hs.subset hl), fun l hl => h.has l (hs.subset hl), h.chain.suffix hs⟩

/-- Levels ascend along a path. -/
theorem OnPath.level_lt {ls : List Lock} (h : OnPath g m key (l :: ls)) :
    ∀ l' ∈ ls, g.level l < g.level l' := by
  have hchain : (l :: ls).IsChain fun a b => g.level a < g.level b :=
    h.chain.imp fun a b hab => by
      have := hab.level
      omega
  rw [List.isChain_iff_pairwise] at hchain
  exact (List.pairwise_cons.mp hchain).1

/-- A path goes down to a child. -/
theorem OnPath.cons {ls : List Lock} (h : OnPath g m key (l :: ls)) (hlt : child < m.alloc)
    (hhas : g.Has (.node child) key) (hunder : g.Under (.node child) l) :
    OnPath g m key (.node child :: l :: ls) where
  alloc := List.forall_mem_cons.mpr ⟨hlt, h.alloc⟩
  has := List.forall_mem_cons.mpr ⟨hhas, h.has⟩
  chain := List.isChain_cons_cons.mpr ⟨hunder, h.chain⟩

/-- **The descent**, at a lock with nothing pending. -/
theorem Grid.descend {pending : Lock → List (K × Ptr)} (h : Grid F g m pending) {ls : List Lock}
    (hpath : OnPath g m key (l :: ls)) {ks : List K} {cs : List Ptr}
    (hrow : rowOf m l = some (ks, cs)) (hfree : pending l = []) :
    ∃ child, cs[upperSlot ks key]? = some child ∧ OnPath g m key (.node child :: l :: ls) := by
  have hok := h.rowOk (hpath.alloc l (.head _)) hrow
  rw [hfree] at hok
  obtain ⟨child, hchild, hlt, hhas, hunder⟩ := hok.search (hpath.has l (.head _))
  exact ⟨child, hchild, hpath.cons hlt hhas hunder⟩

namespace Frame

variable (h : Frame free g m g' m')

include h

/-- A path of free locks, and the child below it. -/
theorem onPath (hpath : OnPath g m key path) (hfree : ∀ l ∈ path, free l) :
    OnPath g' m' key path :=
  hpath.congr h.alloc fun l hl => h.same l (hpath.alloc l hl) (hfree l hl)

/-- A path stays a path while others work elsewhere. -/
theorem onPath_child (hpath : OnPath g m key (.node child :: path)) (hne : path ≠ [])
    (hfree : ∀ l ∈ path, free l) : OnPath g' m' key (.node child :: path) := by
  refine hpath.congr h.alloc fun l hl => ?_
  rcases List.mem_cons.mp hl with rfl | hl
  · cases path with
    | nil => exact absurd rfl hne
    | cons l' ls =>
        exact h.child l' child (hpath.alloc l' (by simp)) (hfree l' (.head _))
          (hpath.alloc _ (.head _)) (List.isChain_cons_cons.mp hpath.chain).1
  · exact h.same l (hpath.alloc l (.tail _ hl)) (hfree l hl)

/-- The top of the locks of a `put` is safe while others work elsewhere. -/
theorem topped (htop : Topped F m held above latch)
    (hsafe : ∀ p ∈ above, p < m.alloc ∧ free (.node p)) (hlatch : latch = true → free .latch) :
    Topped F m' held above latch where
  safe hf := by
    obtain ⟨p, hp, hn⟩ := htop.safe hf
    obtain ⟨hlt, hfree⟩ := hsafe p (List.mem_of_getLast? hp)
    exact ⟨p, hp, by rwa [h.heap p hlt hfree]⟩
  root ht := by rw [htop.root ht, h.root (hlatch ht)]

end Frame

omit [LinearOrder K] in
/-- The locks of a `put`: the nodes of `held`, and the latch. -/
theorem PutCtx.mem_locks {c : PutCtx K V} :
    l ∈ c.locks ↔ (∃ p ∈ c.held, .node p = l) ∨ (c.latch = true ∧ l = .latch) := by
  simp only [locks, latchLocks, List.mem_append, List.mem_map]
  by_cases hlatch : c.latch <;> simp [hlatch]

omit [LinearOrder K] in
/-- What is unlocked in the end is what was locked. -/
theorem PutCtx.todo_perm (c : PutCtx K V) : c.todo.Perm c.locks :=
  ((List.reverse_perm c.held).map _).append_right _

omit [LinearOrder K] in
/-- The locks of the ancestors that are left are held. -/
theorem PutCtx.mem_locks_of_above {c : PutCtx K V} (hsuffix : above <:+ c.held)
    (hl : l ∈ above.map .node ++ c.latchLocks) : l ∈ c.locks := by
  rcases List.mem_append.mp hl with hl | hl
  · obtain ⟨p, hp, rfl⟩ := List.mem_map.mp hl
    exact mem_locks.mpr (.inl ⟨p, hsuffix.subset hp, rfl⟩)
  · exact List.mem_append_right _ hl

omit [LinearOrder K] in
/-- A split that is still to be inserted has somewhere to go. -/
theorem Topped.target_mem {c : PutCtx K V} (h : Topped F m held above c.latch) :
    ∃ ls, above.map .node ++ c.latchLocks = target above :: ls := by
  cases above with
  | cons parent rest => exact ⟨rest.map .node ++ c.latchLocks, rfl⟩
  | nil =>
      cases hlatch : c.latch with
      | true => exact ⟨[], by simp [PutCtx.latchLocks, hlatch, target]⟩
      | false =>
          obtain ⟨p, hp, -⟩ := h.safe hlatch
          cases hp

/-- A `put` holds something. -/
theorem PutCtx.Ok.held_ne_nil {c : PutCtx K V} (h : c.Ok F g m) : c.held ≠ [] := by
  intro hnil
  have htop := h.topped
  rw [hnil] at htop
  cases hlatch : c.latch with
  | false =>
      obtain ⟨p, hp, -⟩ := htop.safe hlatch
      cases hp
  | true => cases htop.root hlatch

/-- **Frame.**  What a `put` knows survives the steps of the others. -/
theorem PutCtx.Ok.frame {c : PutCtx K V} (h : c.Ok F g m) (hframe : Frame free g m g' m')
    (hfree : ∀ l ∈ c.locks, free l) : c.Ok F g' m' where
  onPath := hframe.onPath h.onPath hfree
  topped := by
    refine hframe.topped h.topped (fun p hp => ?_) fun hlatch => hfree _ ?_
    · have hmem : Lock.node p ∈ c.locks := PutCtx.mem_locks.mpr (.inl ⟨p, hp, rfl⟩)
      exact ⟨h.onPath.alloc _ hmem, hfree _ hmem⟩
    · exact PutCtx.mem_locks.mpr (.inr ⟨hlatch, rfl⟩)

/-- **What a thread relies on stays true while the others work.** -/
theorem Local.frame {p : Pc K V} (h : Local F g m p) (hframe : Frame free g m g' m')
    (hfree : ∀ e ∈ p.claims, free e.1) : Local F g' m' p := by
  have hlocks : ∀ (ls : List Lock), (∀ e ∈ ls.map fun l => (l, Mode.exclusive), free e.1) →
      ∀ l ∈ ls, free l := fun ls hall l hl => hall _ (List.mem_map_of_mem hl)
  cases p with
  | idle | enter | unlockLeaf | putEnter | putRoot | returned => trivial
  | visit w l => exact hframe.onPath h (by simpa [Pc.claims] using hfree)
  | lockChild w l child =>
      exact hframe.onPath_child h (by simp) (by simpa [Pc.claims] using hfree)
  | unlockParent w l child =>
      have hf : free l := hfree (l, w.mode) (by simp [Pc.claims])
      exact hframe.onPath_child h (by simp) (by simpa using hf)
  | leaf w cur =>
      have hf : free (.node cur) := by simpa [Pc.claims] using hfree
      refine ⟨hframe.onPath h.1 (by simpa using hf), ?_⟩
      rw [hframe.heap cur (h.1.alloc _ (.head _)) hf]
      exact h.2
  | putLockRoot key val cur =>
      have hf : free .latch := by simpa [Pc.claims] using hfree
      exact ⟨hframe.onPath_child h.1 (by simp) (by simpa using hf), h.2.trans (hframe.root hf).symm⟩
  | putVisit c => exact PutCtx.Ok.frame h hframe (hlocks _ hfree)
  | putLockChild c child =>
      have hne : c.locks ≠ [] := by simp [PutCtx.locks, h.1.held_ne_nil]
      exact ⟨h.1.frame hframe (hlocks _ hfree), hframe.onPath_child h.2 hne (hlocks _ hfree)⟩
  | putTest c child =>
      have hall := hlocks (.node child :: c.locks) hfree
      exact ⟨h.1.frame hframe fun l hl => hall l (.tail _ hl), hframe.onPath h.2 hall⟩
  | putLeaf c =>
      obtain ⟨hok, cur, hcur, hleaf⟩ := h
      refine ⟨hok.frame hframe (hlocks _ hfree), cur, hcur, ?_⟩
      have hmem : Lock.node cur ∈ c.locks :=
        PutCtx.mem_locks.mpr (.inl ⟨cur, List.mem_of_head? hcur, rfl⟩)
      rwa [hframe.heap cur (hok.onPath.alloc _ hmem) (hlocks _ hfree _ hmem)]
  | putUp c above sep right =>
      obtain ⟨hsuffix, hlevel, hpath, htop⟩ := h
      have hsub : ∀ l ∈ above.map Lock.node ++ c.latchLocks, l ∈ c.locks := fun l hl =>
        PutCtx.mem_locks_of_above hsuffix hl
      obtain ⟨ls, hls⟩ := htop.target_mem
      have htarget : target above ∈ above.map Lock.node ++ c.latchLocks := by simp [hls]
      refine ⟨hsuffix, ?_, hframe.onPath hpath fun l hl => hlocks _ hfree l (hsub l hl),
        hframe.topped htop (fun p hp => ?_) fun hlatch => ?_⟩
      · rwa [(hframe.same _ (hpath.alloc _ htarget) (hlocks _ hfree _ (hsub _ htarget))).level]
      · have hmem : Lock.node p ∈ above.map Lock.node ++ c.latchLocks :=
          List.mem_append_left _ (List.mem_map_of_mem hp)
        exact ⟨hpath.alloc _ hmem, hlocks _ hfree _ (hsub _ hmem)⟩
      · exact hlocks _ hfree _ (PutCtx.mem_locks.mpr (.inr ⟨hlatch, rfl⟩))
  | unlockAll todo after =>
      cases after with
      | ret b => trivial
      | descend key val child =>
          have hf : free (.node child) :=
            hlocks (.node child :: todo) hfree _ (.head _)
          refine ⟨hframe.onPath h.1 (by simpa using hf), ?_⟩
          rw [hframe.heap child (h.1.alloc _ (.head _)) hf]
          exact h.2

end

end BptreeCoupling
