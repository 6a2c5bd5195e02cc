import LockBench.BptreeInvariant

/-!
# The height of the tree

`put` writes the nodes of its path to `held`, which has room for `MAX_HEIGHT + 1`, and does
not look at the height of the tree.  It need not with the default `FANOUT`: an internal node
other than the root has at least nine children, so the nodes of a tree grow by a factor of
nine with every level, while a `put` allocates a bounded number of them.
-/

namespace BptreeIndex

section

variable {K V : Type} [LinearOrder K] {F h m : Nat} {lo : WithBot K} {hi : WithTop K} {p : Ptr}
  {heap : Ptr → Node K V} {t t' : Tree K V}

/-! ## Many nodes in a high tree -/

omit [LinearOrder K] in
theorem mul_le_length_flatMap {α β : Type} {f : α → List β} {l : List α} {n : Nat}
    (h : ∀ a ∈ l, n ≤ (f a).length) : l.length * n ≤ (l.flatMap f).length := by
  induction l with
  | nil => simp
  | cons a l ih =>
      have hhead := h a (.head _)
      have htail := ih fun b hb => h b (.tail _ hb)
      rw [List.flatMap_cons, List.length_append, List.length_cons, Nat.succ_mul]
      omega

/-- A node with children that are filled. -/
theorem Shape.pow_le_of_children (hshape : Shape F heap (h + 1) m lo hi p)
    (hchild : ∀ {lo hi p}, Shape F heap h (F / 2) lo hi p →
      (F / 2 + 1) ^ h ≤ (nodes heap h p).length) :
    (m + 1) * (F / 2 + 1) ^ h ≤ (nodes heap (h + 1) p).length := by
  obtain ⟨c, ps, hp, -, -, hm, -⟩ := id hshape
  have hsum := mul_le_length_flatMap (f := nodes heap h) (l := (heap p).children)
    (n := (F / 2 + 1) ^ h) fun c hc => by
      obtain ⟨lo₁, hi₁, hc, -⟩ := hshape.cell hc
      exact hchild hc
  have hcount : m + 1 ≤ (heap p).children.length := by
    rw [hp]
    simpa [Node.children] using hm
  rw [nodes, List.length_cons]
  exact (Nat.mul_le_mul_right _ hcount).trans (hsum.trans (Nat.le_succ _))

/-- **The nodes grow by a factor with every level.** -/
theorem Shape.pow_le_length_nodes (hshape : Shape F heap h (F / 2) lo hi p) :
    (F / 2 + 1) ^ h ≤ (nodes heap h p).length := by
  induction h generalizing lo hi p with
  | zero => exact Nat.le_refl 1
  | succ h ih =>
      rw [pow_succ, Nat.mul_comm]
      exact hshape.pow_le_of_children ih

/-- The root may have few children. -/
theorem TreeOk.pow_le_alloc (ok : TreeOk F t (h + 1)) : (F / 2 + 1) ^ h ≤ t.alloc := by
  have hle := ok.shape.pow_le_of_children Shape.pow_le_length_nodes
  rwa [ok.perm.length_eq, List.length_range, Nat.zero_add, Nat.one_mul] at hle

/-! ## Few allocations -/

theorem leafPut_alloc {cur : Ptr} {key : K} {val : V} {out : Outcome K}
    (h : leafPut F t cur key val = some (t', out)) : t'.alloc ≤ t.alloc + 1 := by
  unfold leafPut at h
  split at h
  · cases h
  · split at h
    · cases h
      exact Nat.le_succ _
    · split at h
      · cases h
        exact Nat.le_succ _
      · split at h
        · cases h
        · cases h
          exact Nat.le_refl _

theorem pushUp_alloc {parent right : Ptr} {sep : K} {out : Outcome K}
    (h : pushUp F t parent sep right = some (t', out)) : t'.alloc ≤ t.alloc + 1 := by
  unfold pushUp at h
  split at h
  · cases h
  · split at h
    · cases h
      exact Nat.le_succ _
    · split at h
      · cases h
      · cases h
        exact Nat.le_refl _

theorem propagate_alloc {out : Outcome K} {child : Ptr} {anc : List Ptr} {b : Bool}
    (h : propagate F t out child anc = some (t', b)) : t'.alloc ≤ t.alloc + anc.length + 1 := by
  induction anc generalizing t out child with
  | nil =>
      cases out with
      | done inserted =>
          cases h
          exact Nat.le_succ _
      | push sep right =>
          cases h
          exact Nat.le_refl _
  | cons parent rest ih =>
      cases out with
      | done inserted =>
          cases h
          omega
      | push sep right =>
          obtain ⟨⟨t₁, out₁⟩, hpush, hrest⟩ := Option.bind_eq_some_iff.mp h
          have h₁ := pushUp_alloc hpush
          have h₂ : t'.alloc ≤ t₁.alloc + rest.length + 1 := ih hrest
          rw [List.length_cons]
          omega

theorem hold_length {held held' : List Ptr} (h : hold held p = some held') :
    held'.length ≤ maxHeight + 1 := by
  unfold hold at h
  split at h
  · cases h
    rwa [List.length_cons]
  · cases h

/-- `held` keeps within its bounds. -/
theorem descend_length {key : K} {fuel : Nat} {held held' : List Ptr} {cur : Ptr}
    (hlen : held.length ≤ maxHeight + 1) (h : descend F heap key fuel held cur = some held') :
    held'.length ≤ maxHeight + 1 := by
  induction fuel generalizing held cur with
  | zero => cases h
  | succ fuel ih =>
      rw [descend] at h
      split at h
      · cases h
        exact hlen
      · obtain ⟨child, -, h⟩ := Option.bind_eq_some_iff.mp h
        obtain ⟨held₁, hhold, h⟩ := Option.bind_eq_some_iff.mp h
        exact ih (hold_length hhold) h

/-- **A `put` allocates at most one node for each that it holds, and a root.** -/
theorem put_alloc {key : K} {val : V} {b : Bool} (h : put F t key val = some (t', b)) :
    t'.alloc ≤ t.alloc + (maxHeight + 2) := by
  obtain ⟨held, hdescend, hheld⟩ := Option.bind_eq_some_iff.mp h
  have hlen := descend_length (show [t.root].length ≤ maxHeight + 1 from Nat.le_add_left 1 _) hdescend
  cases held with
  | nil => cases hheld
  | cons cur anc =>
      obtain ⟨⟨t₁, out⟩, hleaf, hprop⟩ := Option.bind_eq_some_iff.mp hheld
      have h₁ := leafPut_alloc hleaf
      have h₂ : t'.alloc ≤ t₁.alloc + anc.length + 1 := propagate_alloc hprop
      rw [List.length_cons] at hlen
      omega

/-- The number of `put`s in a sequence of calls. -/
def puts (cs : List (Call K V)) : Nat :=
  cs.countP fun c => c matches .put _ _

omit [LinearOrder K] in
theorem puts_cons (c : Call K V) (cs : List (Call K V)) : puts (c :: cs) = puts [c] + puts cs := by
  rw [puts, puts, puts, List.countP_cons, List.countP_cons, List.countP_nil]
  omega

/-- Only a `put` allocates. -/
theorem run_alloc {c : Call K V} {r : MapRes V} (h : c.run F t = some (t', r)) :
    t'.alloc ≤ t.alloc + (maxHeight + 2) * puts [c] := by
  cases c with
  | put key val =>
      obtain ⟨⟨t₁, b⟩, hput, heq⟩ := Option.map_eq_some_iff.mp h
      cases heq
      exact put_alloc hput
  | remove key =>
      obtain ⟨⟨t₁, b⟩, hrem, heq⟩ := Option.map_eq_some_iff.mp h
      cases heq
      obtain ⟨cur, -, hcur⟩ := Option.bind_eq_some_iff.mp hrem
      split at hcur
      · cases hcur
        exact Nat.le_refl _
      · cases hcur
  | get key =>
      obtain ⟨v, -, heq⟩ := Option.map_eq_some_iff.mp h
      cases heq
      exact Nat.le_refl _
  | getShared key =>
      obtain ⟨v, -, heq⟩ := Option.map_eq_some_iff.mp h
      cases heq
      exact Nat.le_refl _
  | getOptimistic key version =>
      obtain ⟨v, -, heq⟩ := Option.map_eq_some_iff.mp h
      cases heq
      exact Nat.le_refl _

/-! ## The height with the default `FANOUT` -/

/-- The default of the template parameter `FANOUT`. -/
def fanout : Nat := 16

/-- A tree of fewer than `9 ^ 23` nodes is low. -/
theorem TreeOk.height_le (ok : TreeOk fanout t h) (halloc : t.alloc < 9 ^ 23) : h ≤ 23 := by
  cases h with
  | zero => omega
  | succ h =>
      have hpow : 9 ^ h < 9 ^ 23 := ok.pow_le_alloc.trans_lt halloc
      exact (Nat.pow_lt_pow_iff_right (by decide)).mp hpow

/-- **The calls of a run keep the tree low**, as long as there is room for the nodes of all
`put`s to come. -/
theorem runCalls_low (cs : List (Call K V)) {f : K → Option V} (holds : Holds fanout t h f)
    (hroom : t.alloc + (maxHeight + 2) * puts cs < 9 ^ 23) :
    ∃ t' h' rs f', runCalls fanout t cs = some (t', rs) ∧ Holds fanout t' h' f' ∧ h' ≤ 23 := by
  induction cs generalizing t h f with
  | nil => exact ⟨t, h, [], f, rfl, holds, holds.height_le (by omega)⟩
  | cons c cs ih =>
      have hlow : h ≤ maxHeight := (holds.height_le (by omega)).trans (by decide)
      obtain ⟨t₁, h₁, hrun, holds₁⟩ := run_holds_low (by decide) (by decide) holds hlow c
      have hnext : t₁.alloc + (maxHeight + 2) * puts cs < 9 ^ 23 := by
        have halloc := run_alloc hrun
        rw [puts_cons, Nat.mul_add] at hroom
        omega
      obtain ⟨t', h', rs, f', hrest, holds', hlow'⟩ := ih holds₁ hnext
      refine ⟨t', h', (c.op.apply f).2 :: rs, f', ?_, holds', hlow'⟩
      simp only [runCalls, hrun, Option.bind_some, hrest, Option.map_some]

/-- **`held` does not overflow with the default `FANOUT`.**  After any calls with fewer than
`2 ^ 64` `put`s among them, every path from the root to a leaf has at most `MAX_HEIGHT + 1`
nodes, and the descent of a further `put` stays within `held`. -/
theorem held_in_bounds (cs : List (Call K V)) (hputs : puts cs < 2 ^ 64) :
    ∃ t rs, runCalls fanout Tree.empty cs = some (t, rs) ∧
      (∀ d q, AtDepth t.heap t.root d q → (t.heap q).isLeaf = true → d + 1 ≤ maxHeight + 1) ∧
      ∀ key val, ∃ held r, descend fanout t.heap key t.alloc [t.root] t.root = some held ∧
        held.length ≤ maxHeight + 1 ∧ putHeld fanout t key val held = some r := by
  have hroom : (Tree.empty : Tree K V).alloc + (maxHeight + 2) * puts cs < 9 ^ 23 := by
    change 1 + 34 * puts cs < 9 ^ 23
    omega
  obtain ⟨t, h, rs, f, hrun, holds, hlow⟩ := runCalls_low cs holds_empty hroom
  have hlow : h ≤ maxHeight := hlow.trans (by decide)
  refine ⟨t, rs, hrun, fun d q hq hleaf => ?_, fun key val => ?_⟩
  · rw [holds.shape.depth hq hleaf]
    exact Nat.succ_le_succ hlow
  · obtain ⟨t', b, -, hput, -⟩ :=
      (put_spec (by decide) (by decide) holds.toTreeOk key val).resolve_right fun hfail =>
        absurd hfail.2 (Nat.not_lt.mpr hlow)
    obtain ⟨held, hdescend, hheld⟩ := Option.bind_eq_some_iff.mp hput
    exact ⟨held, (t', b), hdescend,
      descend_length (show [t.root].length ≤ maxHeight + 1 from Nat.le_add_left 1 _) hdescend, hheld⟩

end

/-- Seventeen `put`s, which split the root. -/
theorem held_in_bounds_split :
    puts ((List.range 17).map fun i => (.put i i : Call Nat Nat)) < 2 ^ 64 ∧
      ∃ t rs, runCalls fanout (Tree.empty : Tree Nat Nat)
          ((List.range 17).map fun i => .put i i) = some (t, rs) ∧
        (∀ d q, AtDepth t.heap t.root d q → (t.heap q).isLeaf = true → d + 1 ≤ maxHeight + 1) ∧
        ∀ key val, ∃ held r, descend fanout t.heap key t.alloc [t.root] t.root = some held ∧
          held.length ≤ maxHeight + 1 ∧ putHeld fanout t key val held = some r :=
  ⟨by decide, held_in_bounds _ (by decide)⟩

end BptreeIndex
