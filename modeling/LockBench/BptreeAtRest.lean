import LockBench.BptreeCouplingSafety
import LockBench.BptreeInvariant

/-!
# `bptree_index` between two splits

When no new node waits to be put into its parent, nothing is pending at any lock, and the ranges
that threads kept apart while they changed the tree fit together: the tree is in order as a whole,
as it is in a run of one thread.  Nodes of one level have disjoint ranges, so no node is below two
others; a search for a key of a node comes to that node, so none is lost; and the leaf behind each
leaf begins where that one ends.
-/

namespace BptreeCoupling

open BptreeIndex IdealLocks

section

variable {K V : Type} [LinearOrder K] {F h : Nat} {g : Ranges K} {m : Tree K V} {c p q : Ptr}
  {key : K} {fin : Option Ptr} {lo : WithBot K} {hi : WithTop K} {ps : List (K × Ptr)}

omit [LinearOrder K] in
theorem NextOk.of_hi {alloc : Nat} (hnext : NextOk g alloc p fin)
    (hhi : g.hi (.node q) = g.hi (.node p)) : NextOk g alloc q fin := by
  cases fin with
  | none => exact hhi.trans hnext
  | some r =>
      obtain ⟨hr, hlevel, sep, hsep, hlo⟩ := hnext
      exact ⟨hr, hlevel, sep, hhi.trans hsep, hlo⟩

namespace Grid

variable (hgrid : Grid F g m fun _ => [])

include hgrid

/-! ## The shape -/

theorem leaf_of_level (hp : p < m.alloc) (hlevel : g.level (.node p) = 0) :
    ∃ es next, m.heap p = .leaf es next := by
  cases hheap : m.heap p with
  | leaf es next => exact ⟨es, next, rfl⟩
  | internal ks cs =>
      have hnode := hgrid.node p hp
      rw [hheap] at hnode
      exact absurd hlevel hnode.2.level_pos.ne'

theorem row_of_level (hp : p < m.alloc) (hlevel : g.level (.node p) = h + 1) :
    ∃ c ps, m.heap p = .internal (ps.map Prod.fst) (c :: ps.map Prod.snd) ∧ ps.length ≤ F ∧
      Row g m.alloc (.node p) c ps := by
  obtain ⟨ks, cs, hrow⟩ := hgrid.exists_row (l := .node p) hp (by omega)
  have hheap := heap_of_rowOf hrow
  have hnode := hgrid.node p hp
  rw [hheap] at hnode
  obtain ⟨hlen, c, as, bs, rfl, rfl, hcells⟩ := hnode
  exact ⟨c, as ++ bs, hheap, by simpa using hlen, hcells⟩

/-- **Below a node there is a tree of its level, with the keys of its range.** -/
theorem shape (hp : p < m.alloc) (hlevel : g.level (.node p) = h) {n : Nat}
    (hn : ∀ ks cs, m.heap p = .internal ks cs → n ≤ ks.length) :
    Shape F m.heap h n (g.lo (.node p)) (g.hi (.node p)) p := by
  induction h generalizing p n with
  | zero =>
      obtain ⟨es, next, hheap⟩ := hgrid.leaf_of_level hp hlevel
      have hleaf := hgrid.leafOk hp hheap
      exact ⟨es, next, hheap, hleaf.sorted, hleaf.inRange, hleaf.length⟩
  | succ h ih =>
      obtain ⟨c, ps, hheap, hlen, hrow⟩ := hgrid.row_of_level hp hlevel
      refine ⟨c, ps, hheap, hrow.sorted, hrow.inRange, by simpa using hn _ _ hheap, hlen, ?_⟩
      refine hrow.cells.mono fun d _ lo hi hd => ?_
      rw [← hd.lo, ← hd.hi]
      refine ih hd.alloc (by have := hd.level; omega) fun ks cs hheap' => ?_
      refine hgrid.full d hd.alloc ks cs hheap' (.inl ?_)
      rw [hd.level]
      exact hgrid.below p hp

/-- The children of a node. -/
theorem child (hp : p < m.alloc) (hlevel : g.level (.node p) = h + 1)
    (hc : c ∈ (m.heap p).children) :
    c < m.alloc ∧ g.level (.node c) = h ∧ ∀ k, g.Has (.node c) k → g.Has (.node p) k := by
  obtain ⟨c₀, ps, hheap, -, hrow⟩ := hgrid.row_of_level hp hlevel
  rw [hheap] at hc
  obtain ⟨hlt, hunder⟩ := hrow.child hc
  exact ⟨hlt, by have := hunder.level; omega, fun k hk => hunder.has hk⟩

/-! ## The nodes -/

theorem of_mem_nodes (hp : p < m.alloc) (hlevel : g.level (.node p) = h)
    (hq : q ∈ nodes m.heap h p) :
    q < m.alloc ∧ g.level (.node q) ≤ h ∧ ∀ k, g.Has (.node q) k → g.Has (.node p) k := by
  induction h generalizing p with
  | zero =>
      obtain rfl := List.mem_singleton.mp hq
      exact ⟨hp, hlevel.le, fun k hk => hk⟩
  | succ h ih =>
      rcases List.mem_cons.mp hq with rfl | hq
      · exact ⟨hp, hlevel.le, fun k hk => hk⟩
      · obtain ⟨c, hc, hq⟩ := List.mem_flatMap.mp hq
        obtain ⟨hclt, hclevel, hcp⟩ := hgrid.child hp hlevel hc
        obtain ⟨hqlt, hqlevel, hqc⟩ := ih hclt hclevel hq
        exact ⟨hqlt, hqlevel.trans (Nat.le_succ h), fun k hk => hcp k (hqc k hk)⟩

/-- **No node is lost.**  A search for one of its keys comes to it. -/
theorem mem_nodes (hp : p < m.alloc) (hlevel : g.level (.node p) = h) (hq : q < m.alloc)
    (hqlevel : g.level (.node q) ≤ h) (hqk : g.Has (.node q) key) (hpk : g.Has (.node p) key) :
    q ∈ nodes m.heap h p := by
  rcases hqlevel.eq_or_lt with heq | hlt
  · obtain rfl := hgrid.eq_of_has hq hp (heq.trans hlevel.symm) hqk hpk
    exact self_mem_nodes
  · induction h generalizing p with
    | zero => exact absurd hlt (Nat.not_lt_zero _)
    | succ h ih =>
        obtain ⟨ks, cs, hrow⟩ := hgrid.exists_row (l := .node p) hp (by omega)
        obtain ⟨c, hc, hclt, hck, hunder⟩ := (hgrid.rowOk (l := .node p) hp hrow).search hpk
        have hclevel : g.level (.node c) = h := by
          have := hunder.level
          omega
        have hmem : c ∈ (m.heap p).children := by
          rw [heap_of_rowOf hrow]
          exact List.mem_of_getElem? hc
        refine mem_nodes_child hmem ?_
        rcases (Nat.lt_succ_iff.mp hlt).eq_or_lt with heq | hlt
        · obtain rfl := hgrid.eq_of_has hq hclt (heq.trans hclevel.symm) hqk hck
          exact self_mem_nodes
        · exact ih hclt hclevel hlt.le hck hlt

/-- **No node is below two others.** -/
theorem nodes_nodup [Nonempty K] (hp : p < m.alloc) (hlevel : g.level (.node p) = h) :
    (nodes m.heap h p).Nodup := by
  induction h generalizing p with
  | zero => exact List.nodup_singleton p
  | succ h ih =>
      obtain ⟨c, ps, hheap, -, hrow⟩ := hgrid.row_of_level hp hlevel
      have hchild := fun d hd => hgrid.child (c := d) hp hlevel hd
      rw [nodes, List.nodup_cons, List.nodup_flatMap]
      refine ⟨fun hmem => ?_, fun d hd => ih (hchild d hd).1 (hchild d hd).2.1, ?_⟩
      · obtain ⟨d, hd, hmem⟩ := List.mem_flatMap.mp hmem
        have hle := (hgrid.of_mem_nodes (hchild d hd).1 (hchild d hd).2.1 hmem).2.1
        omega
      · have hnodup : (m.heap p).children.Nodup := by
          rw [hheap]
          exact hrow.nodup
        refine hnodup.imp_of_mem fun {d e} hd he hne q hqd hqe => hne ?_
        have hqd := hgrid.of_mem_nodes (hchild d hd).1 (hchild d hd).2.1 hqd
        have hqe := hgrid.of_mem_nodes (hchild e he).1 (hchild e he).2.1 hqe
        obtain ⟨k, hk⟩ := hgrid.inhabited ‹_› q hqd.1
        exact hgrid.eq_of_has (hchild d hd).1 (hchild e he).1
          ((hchild d hd).2.1.trans (hchild e he).2.1.symm) (hqd.2.2 k hk) (hqe.2.2 k hk)

/-! ## The chain of the leaves -/

/-- The leaves below a node begin where the node does. -/
theorem leaves_head (hp : p < m.alloc) (hlevel : g.level (.node p) = h) :
    ∃ l ls, leaves m.heap h p = l :: ls ∧ l < m.alloc ∧ g.level (.node l) = 0 ∧
      g.lo (.node l) = g.lo (.node p) := by
  induction h generalizing p with
  | zero => exact ⟨p, [], rfl, hp, hlevel, rfl⟩
  | succ h ih =>
      obtain ⟨c, ps, hheap, -, hrow⟩ := hgrid.row_of_level hp hlevel
      obtain ⟨lo, hi, hc, hlo, -⟩ := hrow.cells.getElem_cell (i := 0) rfl
      obtain rfl := hlo rfl
      obtain ⟨l, ls, hleaves, hl, hllevel, hllo⟩ := ih hc.alloc (by have := hc.level; omega)
      refine ⟨l, ls ++ (ps.map Prod.snd).flatMap (leaves m.heap h), ?_, hl, hllevel, ?_⟩
      · rw [leaves, hheap, Node.children, List.flatMap_cons, hleaves, List.cons_append]
      · rw [hllo, hc.lo]

/-- A leaf has one successor: the range behind its own begins in one leaf only. -/
theorem next_unique [Nonempty K] (hnext : NextOk g m.alloc p fin) {fin' : Option Ptr}
    (hnext' : NextOk g m.alloc p fin') : fin = fin' := by
  have hself : ∀ q < m.alloc, ∀ sep : K, g.lo (.node q) = sep → g.Has (.node q) sep := by
    intro q hq sep hlo
    obtain ⟨k, hk⟩ := hgrid.inhabited ‹_› q hq
    refine ⟨hlo.le, ?_⟩
    rw [Ranges.Has, hlo] at hk
    exact (WithTop.coe_le_coe.mpr (WithBot.coe_le_coe.mp hk.1)).trans_lt hk.2
  cases fin with
  | none =>
      cases fin' with
      | none => rfl
      | some q =>
          obtain ⟨-, -, sep, hsep, -⟩ := hnext'
          exact absurd (hnext.symm.trans hsep) (WithTop.coe_ne_top).symm
  | some q =>
      obtain ⟨hq, hqlevel, sep, hsep, hqlo⟩ := hnext
      cases fin' with
      | none => exact absurd (hnext'.symm.trans hsep) (WithTop.coe_ne_top).symm
      | some r =>
          obtain ⟨hr, hrlevel, sep', hsep', hrlo⟩ := hnext'
          obtain rfl := WithTop.coe_injective (hsep.symm.trans hsep')
          exact congrArg some (hgrid.eq_of_has hq hr (hqlevel.trans hrlevel.symm)
            (hself q hq _ hqlo) (hself r hr _ hrlo))

/-- The leaves below the children of a node, if those below each child are chained. -/
theorem chain_row (ih : ∀ d < m.alloc, g.level (.node d) = h → ∀ fin, NextOk g m.alloc d fin →
      Chain m.heap (leaves m.heap h d) fin)
    (hcells : Cells (ChildOk g m.alloc (h + 1)) hi lo c ps)
    (hfin : ∀ d, g.hi (.node d) = hi → NextOk g m.alloc d fin) :
    Chain m.heap ((c :: ps.map Prod.snd).flatMap (leaves m.heap h)) fin := by
  induction ps generalizing lo c with
  | nil =>
      have hc : ChildOk g m.alloc (h + 1) lo hi c := hcells
      rw [List.map_nil, List.flatMap_singleton]
      exact ih c hc.alloc (Nat.succ_injective hc.level) fin (hfin c hc.hi)
  | cons e ps ihps =>
      obtain ⟨k, d⟩ := e
      obtain ⟨hc, hrest⟩ := hcells
      obtain ⟨lo', hi', hd, hlo', -⟩ := hrest.getElem_cell (i := 0) rfl
      obtain rfl := hlo' rfl
      obtain ⟨l, ls, hleaves, hl, hllevel, hllo⟩ :=
        hgrid.leaves_head hd.alloc (Nat.succ_injective hd.level)
      rw [List.flatMap_cons, chain_append]
      refine ⟨ih c hc.alloc (Nat.succ_injective hc.level) _ ?_, ihps hrest⟩
      simp only [List.map_cons, List.flatMap_cons, hleaves, List.cons_append, List.head?_cons,
        Option.some_or]
      exact ⟨hl, hllevel, k, hc.hi, hllo.trans hd.lo⟩

/-- **The leaves form one chain, from left to right.** -/
theorem chain [Nonempty K] (hp : p < m.alloc) (hlevel : g.level (.node p) = h)
    (hfin : NextOk g m.alloc p fin) : Chain m.heap (leaves m.heap h p) fin := by
  induction h generalizing p fin with
  | zero =>
      obtain ⟨es, next, hheap⟩ := hgrid.leaf_of_level hp hlevel
      refine ⟨?_, trivial⟩
      rw [hheap]
      exact hgrid.next_unique (hgrid.next p hp es next hheap) hfin
  | succ h ih =>
      obtain ⟨c, ps, hheap, -, hrow⟩ := hgrid.row_of_level hp hlevel
      rw [leaves, hheap]
      refine hgrid.chain_row (fun d hd hdlevel fin => ih hd hdlevel) (hlevel ▸ hrow.cells) ?_
      exact fun d hd => hfin.of_hi hd

/-! ## The tree -/

/-- **The tree is in order.** -/
theorem treeOk [Nonempty K] : TreeOk F m (g.level (.node m.root)) := by
  obtain ⟨c, as, bs, hks, hcs, hrow⟩ := hgrid.root
  obtain ⟨rfl, rfl⟩ := List.append_eq_nil_iff.mp (List.map_eq_nil_iff.mp hks.symm)
  obtain rfl : m.root = c := by simpa using hcs
  have hroot : ChildOk g m.alloc (g.level .latch) (g.lo .latch) (g.hi .latch) m.root := hrow.cells
  obtain ⟨hlo, hhi⟩ := hgrid.whole
  have hall : ∀ k, g.Has (.node m.root) k := fun k => by
    rw [Ranges.Has, hroot.lo, hroot.hi, hlo, hhi]
    exact inRange_univ k
  refine ⟨?_, ?_, hgrid.chain hroot.alloc rfl (hroot.hi.trans hhi)⟩
  · have hshape := hgrid.shape hroot.alloc rfl (n := 0) fun ks cs _ => Nat.zero_le _
    rwa [hroot.lo, hroot.hi, hlo, hhi] at hshape
  · refine (List.perm_ext_iff_of_nodup (hgrid.nodes_nodup hroot.alloc rfl)
      List.nodup_range).mpr fun q => ?_
    rw [List.mem_range]
    constructor
    · exact fun hq => (hgrid.of_mem_nodes hroot.alloc rfl hq).1
    · intro hq
      obtain ⟨k, hk⟩ := hgrid.inhabited ‹_› q hq
      have hbelow := hgrid.below q hq
      exact hgrid.mem_nodes hroot.alloc rfl hq (by have := hroot.level; omega) hk (hall k)

/-- A lookup by one thread returns what the map has. -/
theorem get_eq [Nonempty K] : get m key = some (mapOf m key) := by
  have ok := hgrid.treeOk
  obtain ⟨r, hget, hr⟩ := get_spec ok key
  rw [hget, Option.some.injEq]
  refine Option.ext fun v => ?_
  rw [hr v, hgrid.mapOf_eq_some]
  constructor
  · intro he
    obtain ⟨l, hl, he⟩ := List.mem_flatMap.mp he
    exact ⟨l, ok.lt_alloc l (leaves_subset l hl), he⟩
  · rintro ⟨p, hp, he⟩
    refine List.mem_flatMap.mpr ⟨p, ok.shape.mem_leaves.mpr ⟨?_, ?_⟩, he⟩
    · exact ok.perm.mem_iff.mpr (List.mem_range.mpr hp)
    · cases hheap : m.heap p with
      | leaf es next => rfl
      | internal ks cs =>
          rw [hheap] at he
          cases he

end Grid

/-! ## Every run -/

variable {T : Type} [DecidableEq T] {s : State T K V}

/-- The thread has split a node and has yet to put the new one into the parent. -/
def Pc.pushes : Pc K V → Bool
  | .putUp _ _ _ _ => true
  | _ => false

omit [LinearOrder K] [DecidableEq T] in
theorem pendingAt_rest (hrest : ∀ t, (s.pc t).pushes = false) : pendingAt s = fun _ => [] := by
  funext l
  simp only [pendingAt]
  split
  · rename_i t _
    have ht := hrest t
    cases hpc : s.pc t with
    | putUp x above sep right =>
        rw [hpc] at ht
        cases ht
    | _ => rfl
  · rfl

/-- **Between two splits the tree is in order.**  In every state of every run in which no thread
has a new node yet to put into its parent, whatever else the threads are doing, the tree has the
representation invariant of one that a single thread has built, and a lookup in it returns what the
map has. -/
theorem coupling_atRest [Nonempty K] (hF : F ≤ 65535) (hpos : 1 ≤ F)
    (hreach : (machine T K V F).Reachable s) (hrest : ∀ t, (s.pc t).pushes = false) :
    RepInv F s.mem.tree ∧ ∀ key, get s.mem.tree key = some (mapOf s.mem.tree key) := by
  obtain ⟨g, hsafe⟩ := safe_of_reachable hF hpos hreach
  have hgrid := hsafe.grid
  rw [pendingAt_rest hrest] at hgrid
  exact ⟨hgrid.treeOk.repInv, fun key => hgrid.get_eq⟩

/-- The third insertion has split the root and still holds it, while a lookup waits for the
latch. -/
def splitRun : List (Fin 2 × Choice Nat Nat) :=
  List.flatten [(0, .call (.put 1 10)) :: List.replicate 9 (0, .go),
    (0, .call (.put 2 20)) :: List.replicate 9 (0, .go),
    (0, .call (.put 3 30)) :: (1, .call (.get .shared 3)) :: List.replicate 6 (0, .go)]

theorem coupling_atRest_split : ∃ s : State (Fin 2) Nat Nat,
    s.mem.tree.root = 2 ∧ s.mem.locks.owner .latch = some 0 ∧ RepInv 2 s.mem.tree ∧
      ∀ key, get s.mem.tree key = some (mapOf s.mem.tree key) := by
  have hrun : (((machine (Fin 2) Nat Nat 2).run splitRun).map fun s =>
      (s.mem.tree.root, s.mem.locks.owner .latch, (s.pc 0).pushes, (s.pc 1).pushes)) =
      some (2, some 0, false, false) := by
    decide +kernel
  obtain ⟨s, hs, heq⟩ := Option.map_eq_some_iff.mp hrun
  simp only [Prod.mk.injEq] at heq
  obtain ⟨hroot, howner, h0, h1⟩ := heq
  exact ⟨s, hroot, howner, coupling_atRest (by decide) (by decide) (Machine.reachable_of_run hs)
    (Fin.forall_fin_two.mpr ⟨h0, h1⟩)⟩

end

end BptreeCoupling
