import LockBench.BptreeCouplingSafety

/-!
# Lock coupling in `bptree_index` does not get stuck

Threads ask for locks downwards: the latch first, then a node one level below those they hold.  So
no threads wait for one another in a circle, and somebody can always go on.  The one other way to
get stuck is a `put` whose `held` is full; that takes more levels than a tree with few enough nodes
can have, since below the root every internal node is half full.
-/

namespace BptreeCoupling

open BptreeIndex IdealLocks

section

variable {T K V : Type} [DecidableEq T] [LinearOrder K] {F : Nat} {g : Ranges K} {t u : T}
  {m : Tree K V} {pending : Lock → List (K × Ptr)} {s : State T K V} {l : Lock} {p c : Ptr}
  {key : K} {n : Nat} {mode : Mode}

/-! ## The height of the tree -/

/-- The nodes of a level. -/
def levelNodes (g : Ranges K) (m : Tree K V) (n : Nat) : Finset Ptr :=
  (Finset.range m.alloc).filter fun p => g.level (.node p) = n

omit [DecidableEq T] [LinearOrder K] in
theorem mem_levelNodes : p ∈ levelNodes g m n ↔ p < m.alloc ∧ g.level (.node p) = n := by
  simp [levelNodes]

/-- A node above the leaves has one child more than it has keys, or two. -/
theorem Grid.exists_children [Nonempty K] (h : Grid F g m pending)
    (hp : p ∈ levelNodes g m (n + 1)) : ∃ C ⊆ levelNodes g m n,
      (∀ c ∈ C, g.Under (.node c) (.node p)) ∧ 0 < C.card ∧
        (n + 1 + 1 < g.level .latch → F / 2 + 1 ≤ C.card) := by
  obtain ⟨hlt, hlevel⟩ := mem_levelNodes.mp hp
  obtain ⟨ks, cs, hrow⟩ := h.exists_row (l := .node p) hlt (by omega)
  have hok := h.rowOk (l := .node p) hlt hrow
  have hheap := heap_of_rowOf hrow
  clear hrow
  obtain ⟨c, as, bs, rfl, rfl, hrow⟩ := hok
  have hnodup := hrow.nodup
  refine ⟨(c :: (as ++ (pending (.node p) ++ bs)).map Prod.snd).toFinset, fun c' hc' => ?_,
    fun c' hc' => (hrow.child (List.mem_toFinset.mp hc')).2, ?_, fun hlow => ?_⟩
  · obtain ⟨hlt', hunder⟩ := hrow.child (List.mem_toFinset.mp hc')
    have := hunder.level
    exact mem_levelNodes.mpr ⟨hlt', by omega⟩
  · rw [List.toFinset_card_of_nodup hnodup]
    simp
  · have hhalf := h.full p hlt _ _ hheap (.inl (by omega))
    rw [List.toFinset_card_of_nodup hnodup]
    simp only [List.length_map, List.length_append, List.length_cons] at hhalf ⊢
    omega

/-- A level has at least half the fanout times the nodes of the one above it. -/
theorem Grid.card_levelNodes [Nonempty K] (h : Grid F g m pending)
    (hlow : n + 1 + 1 < g.level .latch) :
    (F / 2 + 1) * (levelNodes g m (n + 1)).card ≤ (levelNodes g m n).card := by
  choose! C hsub hunder _ hcard using fun p hp => h.exists_children (p := p) (n := n) hp
  have hdisjoint : ((levelNodes g m (n + 1) : Finset Ptr) : Set Ptr).PairwiseDisjoint C := by
    intro p hp q hq hne
    refine Finset.disjoint_left.mpr fun c hc hc' => hne ?_
    obtain ⟨hlt, -⟩ := mem_levelNodes.mp (hsub p hp hc)
    obtain ⟨k, hk⟩ := h.inhabited inferInstance c hlt
    exact Lock.node.inj (h.parent_eq (mem_levelNodes.mp hp).1 (mem_levelNodes.mp hq).1 hk
      (hunder p hp c hc) (hunder q hq c hc'))
  calc (F / 2 + 1) * (levelNodes g m (n + 1)).card
      = ∑ _p ∈ levelNodes g m (n + 1), (F / 2 + 1) := by
        rw [Finset.sum_const, smul_eq_mul, mul_comm]
    _ ≤ ∑ p ∈ levelNodes g m (n + 1), (C p).card :=
        Finset.sum_le_sum fun p hp => hcard p hp hlow
    _ = ((levelNodes g m (n + 1)).biUnion C).card := (Finset.card_biUnion hdisjoint).symm
    _ ≤ (levelNodes g m n).card :=
        Finset.card_le_card (Finset.biUnion_subset.mpr fun p hp => hsub p hp)

/-- **Levels cost nodes.**  The latch is one level above the root. -/
theorem Grid.pow_le_alloc [Nonempty K] (h : Grid F g m pending) (hn : n + 2 ≤ g.level .latch) :
    (F / 2 + 1) ^ n ≤ m.alloc := by
  have hpow : ∀ i ≤ g.level .latch - 2,
      (F / 2 + 1) ^ i ≤ (levelNodes g m (g.level .latch - 2 - i)).card := by
    intro i
    induction i with
    | zero =>
        intro _
        obtain ⟨c, as, bs, -, -, hrow⟩ := h.root
        obtain ⟨hlt, hunder⟩ := hrow.child (.head _)
        have hlevel := hunder.level
        obtain ⟨C, hsub, -, hpos, -⟩ := h.exists_children (p := c) (n := g.level .latch - 2)
          (mem_levelNodes.mpr ⟨hlt, by omega⟩)
        exact hpos.trans_le (Finset.card_le_card hsub)
    | succ i ih =>
        intro hi
        have hcard := h.card_levelNodes (n := g.level .latch - 2 - (i + 1)) (by omega)
        rw [show g.level .latch - 2 - (i + 1) + 1 = g.level .latch - 2 - i by omega] at hcard
        calc (F / 2 + 1) ^ (i + 1) = (F / 2 + 1) * (F / 2 + 1) ^ i := pow_succ' _ _
          _ ≤ (F / 2 + 1) * (levelNodes g m (g.level .latch - 2 - i)).card :=
              Nat.mul_le_mul_left _ (ih (by omega))
          _ ≤ _ := hcard
  calc (F / 2 + 1) ^ n ≤ (F / 2 + 1) ^ (g.level .latch - 2) :=
        Nat.pow_le_pow_right (Nat.succ_pos _) (by omega)
    _ ≤ (levelNodes g m (g.level .latch - 2 - (g.level .latch - 2))).card := hpow _ le_rfl
    _ ≤ (Finset.range m.alloc).card := Finset.card_filter_le _ _
    _ = m.alloc := Finset.card_range _

omit [DecidableEq T] in
/-- A path is not longer than the tree is high. -/
theorem OnPath.length_le {ls : List Lock} (h : OnPath g m key (l :: ls))
    (hmax : ∀ x ∈ l :: ls, g.level x ≤ n) : g.level l + ls.length ≤ n := by
  induction ls generalizing l with
  | nil => exact hmax l (.head _)
  | cons l' ls ih =>
      have hlevel := (List.isChain_cons_cons.mp h.chain).1.level
      have := ih (h.suffix (List.suffix_cons _ _)) fun x hx => hmax x (.tail _ hx)
      simp only [List.length_cons]
      omega

omit [DecidableEq T] in
/-- There is at most one node of each level on a path. -/
theorem OnPath.nodes_length_le {ps : List Ptr} {ls : List Lock}
    (h : OnPath g m key (ps.map .node ++ ls))
    (hbelow : ∀ p < m.alloc, g.level (.node p) < g.level .latch) : ps.length ≤ g.level .latch := by
  cases ps with
  | nil => exact Nat.zero_le _
  | cons p ps =>
      have hpath : OnPath g m key (.node p :: ps.map .node) :=
        ⟨fun l hl => h.alloc l (List.mem_append_left _ hl),
          fun l hl => h.has l (List.mem_append_left _ hl), h.chain.left_of_append⟩
      have hlevels : ∀ l ∈ Lock.node p :: ps.map .node, g.level l ≤ g.level .latch - 1 := by
        intro l hl
        obtain ⟨q, hq, rfl⟩ := List.mem_map.mp (show l ∈ (p :: ps).map .node from hl)
        have := hbelow q (hpath.alloc _ hl)
        omega
      have hlen := hpath.length_le hlevels
      have := hbelow p (hpath.alloc _ (.head _))
      simp only [List.length_map, List.length_cons] at hlen ⊢
      omega

omit [DecidableEq T] in
/-- A tree of few enough nodes is low enough. -/
theorem Safe.latch_le [Nonempty K] (h : Safe F g s)
    (halloc : s.mem.tree.alloc < (F / 2 + 1) ^ maxHeight) : g.level .latch ≤ maxHeight + 1 := by
  by_contra hhigh
  exact absurd (h.grid.pow_le_alloc (by omega)) halloc.not_ge

omit [DecidableEq T] in
/-- **`held` has room for one more node.** -/
theorem Safe.held_lt (h : Safe F g s) {x : PutCtx K V} {child : Ptr}
    (hpc : s.pc t = .putTest x child) (halloc : s.mem.tree.alloc < (F / 2 + 1) ^ maxHeight) :
    x.held.length < maxHeight + 1 := by
  have hhere := h.here t
  rw [hpc] at hhere
  have hne : Nonempty K := ⟨x.key⟩
  have hpath : OnPath g s.mem.tree x.key ((child :: x.held).map .node ++ x.latchLocks) := hhere.2
  exact (hpath.nodes_length_le h.grid.below).trans (h.latch_le halloc)

/-- The local variables of a `put` on its way down. -/
def Pc.descends : Pc K V → Option (PutCtx K V)
  | .putVisit c | .putLockChild c _ | .putTest c _ | .putLeaf c => some c
  | _ => none

/-- **`held` does not overflow**, whatever the other threads insert meanwhile: in every state that
can be reached, as long as there are fewer nodes than that, each `put` on its way down holds no more
than the array has room for, and one fewer when it is about to test a child.  With `FANOUT` 16 the
bound on the nodes is 9 to the 32nd, which is more than there are addresses. -/
theorem coupling_heldInBounds (hF : F ≤ 65535) (hpos : 1 ≤ F)
    (hreach : (machine T K V F).Reachable s)
    (halloc : s.mem.tree.alloc < (F / 2 + 1) ^ maxHeight) :
    (∀ t x, (s.pc t).descends = some x → x.held.length ≤ maxHeight + 1) ∧
      ∀ t x child, s.pc t = .putTest x child → x.held.length < maxHeight + 1 := by
  obtain ⟨g, h⟩ := safe_of_reachable hF hpos hreach
  refine ⟨fun t x hx => ?_, fun t x child hpc => h.held_lt hpc halloc⟩
  have hne : Nonempty K := ⟨x.key⟩
  have hhere := h.here t
  have hok : x.Ok F g s.mem.tree := by
    cases hpc : s.pc t with
    | putVisit y =>
        rw [hpc] at hx hhere
        obtain rfl := Option.some.inj hx
        exact hhere
    | putLockChild y child | putTest y child | putLeaf y =>
        rw [hpc] at hx hhere
        obtain rfl := Option.some.inj hx
        exact hhere.1
    | _ =>
        rw [hpc] at hx
        cases hx
  exact (hok.onPath.nodes_length_le h.grid.below).trans (h.latch_le halloc)

/-- Three insertions at fan-out 2, which split the root, and a fourth on its way down. -/
def descendingRun : List (Fin 2 × Choice Nat Nat) :=
  List.flatten [(0, .call (.put 1 10)) :: List.replicate 9 (0, .go),
    (0, .call (.put 2 20)) :: List.replicate 9 (0, .go),
    (0, .call (.put 3 30)) :: List.replicate 10 (0, .go),
    (0, .call (.put 4 40)) :: List.replicate 5 (0, .go)]

theorem coupling_heldInBounds_descending : ∃ s : State (Fin 2) Nat Nat,
    (s.pc 0).descends.map PutCtx.held = some [2] ∧
      (∀ t x, (s.pc t).descends = some x → x.held.length ≤ maxHeight + 1) ∧
      ∀ t x child, s.pc t = .putTest x child → x.held.length < maxHeight + 1 := by
  have hrun : (((machine (Fin 2) Nat Nat 2).run descendingRun).map fun s =>
      ((s.pc 0).descends.map PutCtx.held, s.mem.tree.alloc)) = some (some [2], 3) := by
    decide +kernel
  obtain ⟨s, hs, heq⟩ := Option.map_eq_some_iff.mp hrun
  obtain ⟨hheld, halloc⟩ := Prod.mk.inj heq
  have hfew : s.mem.tree.alloc < (2 / 2 + 1) ^ maxHeight := by
    rw [halloc]
    decide
  exact ⟨s, hheld,
    coupling_heldInBounds (by decide) (by decide) (Machine.reachable_of_run hs) hfew⟩

/-! ## Who can go on -/

omit [DecidableEq T] in
/-- A thread asks for a lock below all those it holds. -/
theorem wants_below {p' : Pc K V} (h : Local F g m p') (hwants : p'.wants = some (l, mode)) :
    ∀ e ∈ p'.claims, g.level l < g.level e.1 := by
  cases p' with
  | enter w | putEnter key val => simp [Pc.claims]
  | lockChild w l' child =>
      obtain ⟨rfl, rfl⟩ := Prod.mk.inj (Option.some.inj hwants)
      simpa [Pc.claims] using OnPath.level_lt h l' (.head _)
  | putLockRoot key val cur =>
      obtain ⟨rfl, rfl⟩ := Prod.mk.inj (Option.some.inj hwants)
      simpa [Pc.claims] using h.1.level_lt .latch (.head _)
  | putLockChild x child =>
      obtain ⟨rfl, rfl⟩ := Prod.mk.inj (Option.some.inj hwants)
      intro e he
      obtain ⟨l', hl', rfl⟩ := List.mem_map.mp he
      exact h.2.level_lt l' hl'
  | _ => cases hwants

omit [DecidableEq T] in
theorem leafPut_isSome (hF : F ≤ 65535) (hpos : 1 ≤ F) {cur : Ptr} {es : List (K × V)}
    {next : Option Ptr} (hleaf : LeafOk F g l es) (hheap : m.heap cur = .leaf es next) (key : K)
    (val : V) : ∃ r, leafPut F m cur key val = some r := by
  simp only [leafPut, hheap]
  split
  · exact ⟨_, rfl⟩
  · rename_i hfull
    split
    · exact ⟨_, rfl⟩
    · rename_i hfind
      obtain ⟨lefts, rights, sep, hsplit, -⟩ := splitLeaf_spec hF hpos hleaf.sorted
        (le_antisymm hleaf.length (not_lt.mp hfull)) (leafFindExact_eq_none.mp hfind) val
      rw [hsplit]
      exact ⟨_, rfl⟩

omit [DecidableEq T] in
theorem lowerSlot_le (ks : List K) (key : K) : lowerSlot ks key ≤ ks.length := by
  induction ks with
  | nil => exact le_rfl
  | cons k ks ih =>
      simp only [lowerSlot, List.length_cons]
      split <;> omega

omit [DecidableEq T] in
/-- `split_internal` has a key to promote. -/
theorem splitInternal_promotes {ks : List K} (hpos : 1 ≤ ks.length) (cs : List Ptr) (sep : K)
    (right : Ptr) : ∃ k, (splitInternal ks cs sep right).2.2 = some k := by
  have hlen := List.length_insertIdx_of_le_length (lowerSlot_le ks sep) sep
  exact ⟨_, List.getElem?_eq_getElem (by omega : (ks.length + 1) / 2 < _)⟩

/-- The thread is about to write behind the end of `held`. -/
def Overflows (F : Nat) (m : Tree K V) : Pc K V → Prop
  | .putTest x child => ¬(m.heap child).n < F ∧ maxHeight + 1 ≤ x.held.length
  | _ => False

/-- **A thread inside an operation has a step** unless it waits for a lock. -/
theorem Safe.next_enabled (hF : F ≤ 65535) (hpos : 1 ≤ F) (h : Safe F g s) (hp : s.pc t ≠ .idle)
    (hfree : ∀ u, ¬Waits s.mem.locks (fun t => (s.pc t).wants) t u)
    (hover : ¬Overflows F s.mem.tree (s.pc t)) :
    ∃ r, next F t s.mem (s.pc t) .go = some r := by
  have hhere := h.here t
  have hpend : ∀ e ∈ (s.pc t).claims, (s.pc t).works = false → pendingAt s e.1 = [] :=
    fun e he hw => pendingAt_of_claim h.kept he (Pc.pendingAt_of_not_works hw)
  have hlock : ∀ l mode, (s.pc t).wants = some (l, mode) → ∃ m', s.mem.lock mode t l = some m' := by
    intro l mode hwants
    obtain ⟨locks, hlocks⟩ := exists_acquire hfree hwants
    exact ⟨_, congrArg (Option.map _) hlocks⟩
  rw [← Option.isSome_iff_exists]
  cases hpc : s.pc t with
  | idle => exact absurd hpc hp
  | enter | lockChild | putEnter | putLockRoot | putLockChild =>
      obtain ⟨m', hm'⟩ := hlock _ _ (by rw [hpc]; rfl)
      simp [next, hm']
  | unlockParent | unlockLeaf | putRoot | unlockAll | returned => rfl
  | visit w l =>
      rw [hpc] at hhere hpend
      cases l with
      | latch => rfl
      | node cur =>
          cases hheap : s.mem.tree.heap cur with
          | leaf es nx => simp [next, visitStep, hheap]
          | internal ks cs =>
              obtain ⟨child, hchild, -⟩ := h.grid.descend hhere (rowOf_of_heap hheap)
                (hpend (.node cur, w.mode) (.head _) rfl)
              simp [next, visitStep, hheap, hchild]
  | leaf w cur =>
      rw [hpc] at hhere
      have hleaf := hhere.2
      cases hheap : s.mem.tree.heap cur with
      | internal ks cs => simp [hheap, Node.isLeaf] at hleaf
      | leaf es nx => cases w <;> simp [next, leafStep, hheap]
  | putVisit x =>
      rw [hpc] at hhere hpend
      cases hheld : x.held with
      | nil => exact absurd hheld hhere.held_ne_nil
      | cons cur rest =>
          cases hheap : s.mem.tree.heap cur with
          | leaf es nx => simp [next, putVisitStep, hheld, hheap]
          | internal ks cs =>
              have hlocks : x.locks = .node cur :: (rest.map .node ++ x.latchLocks) := by
                simp [PutCtx.locks, hheld]
              have hpath := hhere.onPath
              rw [hlocks] at hpath
              obtain ⟨child, hchild, -⟩ := h.grid.descend hpath (rowOf_of_heap hheap)
                (hpend (.node cur, .exclusive) (by simp [Pc.claims, hlocks]) rfl)
              simp [next, putVisitStep, hheld, hheap, hchild]
  | putTest x child =>
      rw [hpc] at hover
      by_cases hsafe : (s.mem.tree.heap child).n < F
      · simp [next, putTestStep, hsafe]
      · have hlen : x.held.length < maxHeight + 1 := by
          by_contra hlen
          exact hover ⟨hsafe, not_lt.mp hlen⟩
        simp [next, putTestStep, hsafe, hold, hlen]
  | putLeaf x =>
      rw [hpc] at hhere
      obtain ⟨hok, cur, hcur, hisLeaf⟩ := hhere
      obtain ⟨above, hheld⟩ := List.head?_eq_some_iff.mp hcur
      have hmem : Lock.node cur ∈ x.locks := by simp [PutCtx.locks, hheld]
      cases hheap : s.mem.tree.heap cur with
      | internal ks cs => simp [hheap, Node.isLeaf] at hisLeaf
      | leaf es nx =>
          obtain ⟨r, hr⟩ := leafPut_isSome hF hpos
            (h.grid.leafOk (hok.onPath.alloc _ hmem) hheap) hheap x.key x.val
          simp [next, putLeafStep, hheld, hr]
  | putUp x above sep right =>
      rw [hpc] at hhere
      obtain ⟨hsuffix, hlevel, hpath, htop⟩ := hhere
      cases above with
      | nil =>
          cases hlatch : x.latch with
          | true => simp [next, putUpStep, htop.root hlatch]
          | false =>
              obtain ⟨q, hq, -⟩ := htop.safe hlatch
              cases hq
      | cons parent rest =>
          have hlt : parent < s.mem.tree.alloc := hpath.alloc (.node parent) (.head _)
          obtain ⟨ks, cs, hrow⟩ := h.grid.exists_row (l := .node parent) hlt hlevel
          have hheap := heap_of_rowOf hrow
          by_cases hlen : ks.length < F
          · simp [next, putUpStep, pushUp, hheap, hlen]
          · obtain ⟨k, hk⟩ := splitInternal_promotes (hpos.trans (not_lt.mp hlen)) cs sep right
            cases hsplit : splitInternal ks cs sep right with
            | mk lefts rest' =>
                rw [hsplit] at hk
                obtain ⟨rights, promoted⟩ := rest'
                obtain rfl : promoted = some k := hk
                simp [next, putUpStep, pushUp, hheap, hlen, hsplit]

/-! ## Deadlock freedom -/

/-- The lock that a thread is about to give up. -/
def Pc.unlocks : Pc K V → Option (Lock × Mode)
  | .unlockParent w l _ => some (l, w.mode)
  | .unlockLeaf w cur _ => some (.node cur, w.mode)
  | .unlockAll (l :: _) _ => some (l, .exclusive)
  | _ => none

omit [DecidableEq T] [LinearOrder K] in
theorem unlocks_claimed {p' : Pc K V} {e : Lock × Mode} (h : p'.unlocks = some e) :
    e ∈ p'.claims := by
  cases p' with
  | unlockParent w l child =>
      obtain rfl := Option.some.inj h
      simp [Pc.claims]
  | unlockLeaf w cur r =>
      obtain rfl := Option.some.inj h
      simp [Pc.claims]
  | unlockAll todo after =>
      cases todo with
      | nil => cases h
      | cons l rest =>
          obtain rfl := Option.some.inj h
          cases after <;> simp [Pc.claims]
  | _ => cases h

/-- Lock coupling cannot get stuck: no threads wait for one another in a circle; as long as an
operation is open and the tree has few enough nodes, some thread that is inside one has a step; a
thread holds exactly the locks that its program point names, each once; it unlocks only what it
holds, and holds nothing when it returns. -/
structure DeadlockFree (F : Nat) (s : State T K V) : Prop where
  circle : ∀ S, ¬Deadlocked (Waits s.mem.locks fun t => (s.pc t).wants) S
  goesOn : s.mem.tree.alloc < (F / 2 + 1) ^ maxHeight → (∃ t, s.pc t ≠ .idle) →
    ∃ t s', s.pc t ≠ .idle ∧ (machine T K V F).step s (t, .go) = some s'
  held : ∀ t l mode, s.mem.locks.Holds t l mode ↔ (l, mode) ∈ (s.pc t).claims
  once : ∀ t, ((s.pc t).claims.map Prod.fst).Nodup
  unlocks : ∀ t l mode, (s.pc t).unlocks = some (l, mode) → s.mem.locks.Holds t l mode
  released : ∀ t r, s.pc t = .returned r → ∀ l mode, ¬s.mem.locks.Holds t l mode

/-- **Deadlock freedom of the B+ tree.**  In every state that any number of threads running `get`,
`get_shared`, `put` and `remove` can reach.  With `FANOUT` 16 the bound on the nodes is 9 to the
32nd, which is more than there are addresses. -/
theorem coupling_deadlockFree (hF : F ≤ 65535) (hpos : 1 ≤ F)
    (hreach : (machine T K V F).Reachable s) : DeadlockFree F s := by
  obtain ⟨g, h⟩ := safe_of_reachable hF hpos hreach
  have hno : ∀ S, ¬Deadlocked (Waits s.mem.locks fun t => (s.pc t).wants) S :=
    not_deadlocked_of_rank h.kept g.level fun t l mode hwants => wants_below (h.here t) hwants
  refine ⟨hno, fun halloc hopen => ?_, h.kept.holds, h.kept.nodup, fun t l mode hu => ?_,
    fun t r hpc l mode hheld => ?_⟩
  · -- whom an open operation waits for is inside an operation too
    have hclosed : ∀ t ∈ {t | s.pc t ≠ .idle}, ∀ u,
        Waits s.mem.locks (fun t => (s.pc t).wants) t u → u ∈ {t | s.pc t ≠ .idle} := by
      intro t _ u hw hidle
      obtain ⟨l, mode, mode', -, hmem⟩ := hw.claimed h.kept
      rw [hidle] at hmem
      cases hmem
    obtain ⟨t, ht, hfree⟩ := exists_not_waiting (hno _) hopen hclosed
    have hover : ¬Overflows F s.mem.tree (s.pc t) := by
      cases hpc : s.pc t with
      | putTest x child => exact fun hover => (h.held_lt hpc halloc).not_ge hover.2
      | _ => exact id
    obtain ⟨r, hr⟩ := h.next_enabled hF hpos ht hfree hover
    exact ⟨t, _, ht, congrArg (Option.map _) hr⟩
  · exact (h.kept.holds t l mode).mpr (unlocks_claimed hu)
  · have hmem := (h.kept.holds t l mode).mp hheld
    rw [hpc] at hmem
    cases hmem

/-- An insertion holds the latch when a lookup arrives. -/
def waitingRun : List (Fin 2 × Choice Nat Nat) :=
  [(0, .call (.put 7 70)), (0, .go), (0, .go), (1, .call (.get .shared 7))]

/-- The lookup waits, and the insertion can go on. -/
theorem coupling_deadlockFree_waiting : ∃ s : State (Fin 2) Nat Nat,
    s.mem.locks.owner .latch = some 0 ∧ (s.pc 1).wants = some (.latch, .shared) ∧
      DeadlockFree 16 s := by
  have hrun : (((machine (Fin 2) Nat Nat 16).run waitingRun).map fun s =>
      (s.mem.locks.owner .latch, (s.pc 1).wants)) = some (some 0, some (.latch, .shared)) := by
    decide +kernel
  obtain ⟨s, hs, heq⟩ := Option.map_eq_some_iff.mp hrun
  obtain ⟨howner, hwants⟩ := Prod.mk.inj heq
  exact ⟨s, howner, hwants,
    coupling_deadlockFree (by decide) (by decide) (Machine.reachable_of_run hs)⟩

end

end BptreeCoupling
