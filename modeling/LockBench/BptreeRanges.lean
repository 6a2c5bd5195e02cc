import LockBench.BptreeIndex

/-!
# Key ranges of the nodes of a changing `bptree_index`

Between the split of a node and the insertion of the new one into the parent, other threads may
work elsewhere in the tree, so the tree is described node by node and not as a whole.  Every node
has a level and a range of keys.  The children of an internal node share out its range in the cells
between its separators, except that one separator and the node behind it may still be missing: they
are pending at the node.  `root_` is treated as one more node without separators, above the root.
Nodes of one level have disjoint ranges.

The levels and ranges are no part of the tree, they are kept beside it: a split cuts the range of
the node in two, a new root takes the place of `root_` and moves that one level up.
-/

namespace BptreeCoupling

open BptreeIndex

/-- `root_latch_`, or the lock of a node.  The former guards `root_`, the latter its node. -/
inductive Lock
  | latch
  | node (p : Ptr)
  deriving DecidableEq

/-- The level and the range of keys of what each lock guards. -/
structure Ranges (K : Type) where
  level : Lock → Nat
  lo : Lock → WithBot K
  hi : Lock → WithTop K

section

variable {K V : Type} [LinearOrder K]

namespace Ranges

variable (g g' : Ranges K)

/-- The key lies in the range. -/
def Has (l : Lock) (k : K) : Prop :=
  InRange (g.lo l) (g.hi l) k

/-- One level below, and within the range. -/
structure Under (l l' : Lock) : Prop where
  level : g.level l + 1 = g.level l'
  lo : g.lo l' ≤ g.lo l
  hi : g.hi l ≤ g.hi l'

/-- Level and range are the same before and after. -/
structure SameAt (l : Lock) : Prop where
  level : g'.level l = g.level l
  lo : g'.lo l = g.lo l
  hi : g'.hi l = g.hi l

/-- Node `c` gives the part of its range from `sep` on to the new node `q`. -/
def split (c : Ptr) (sep : K) (q : Ptr) : Ranges K where
  level := Function.update g.level (.node q) (g.level (.node c))
  lo := Function.update g.lo (.node q) sep
  hi := Function.update (Function.update g.hi (.node q) (g.hi (.node c))) (.node c) sep

/-- The new node `q` takes the place of `root_`, which moves up. -/
def grow (q : Ptr) : Ranges K where
  level := Function.update (Function.update g.level (.node q) (g.level .latch)) .latch
    (g.level .latch + 1)
  lo := Function.update g.lo (.node q) (g.lo .latch)
  hi := Function.update g.hi (.node q) (g.hi .latch)

variable {g g'} {l l' : Lock} {k : K}

/-- The range of what is below is part of the range above. -/
theorem Under.has (h : g.Under l l') (hk : g.Has l k) : g.Has l' k :=
  hk.mono h.lo h.hi

omit [LinearOrder K] in
/-- A node keeps its range when nothing changes. -/
theorem SameAt.refl : g.SameAt g l :=
  ⟨rfl, rfl, rfl⟩

/-- The same range holds the same keys. -/
theorem SameAt.has (h : g.SameAt g' l) : g'.Has l k ↔ g.Has l k := by
  simp only [Has, h.lo, h.hi]

/-- What is below what depends on the two ranges only. -/
theorem SameAt.under (h : g.SameAt g' l) (h' : g.SameAt g' l') : g'.Under l l' ↔ g.Under l l' := by
  constructor
  · rintro ⟨h1, h2, h3⟩
    exact ⟨by rw [← h.level, ← h'.level, h1], by rwa [← h.lo, ← h'.lo], by rwa [← h.hi, ← h'.hi]⟩
  · rintro ⟨h1, h2, h3⟩
    exact ⟨by rw [h.level, h'.level, h1], by rwa [h.lo, h'.lo], by rwa [h.hi, h'.hi]⟩

section Split

variable {c q : Ptr}

omit [LinearOrder K] in
/-- A split changes the range of the split node and of the new one only. -/
theorem split_same (hc : l ≠ .node c) (hq : l ≠ .node q) : g.SameAt (g.split c k q) l :=
  ⟨by simp [split, hq], by simp [split, hq], by simp [split, hc, hq]⟩

omit [LinearOrder K] in
/-- The split node keeps the lower part. -/
theorem split_left (hne : c ≠ q) : (g.split c k q).level (.node c) = g.level (.node c) ∧
    (g.split c k q).lo (.node c) = g.lo (.node c) ∧ (g.split c k q).hi (.node c) = k :=
  ⟨by simp [split, hne], by simp [split, hne], by simp [split]⟩

omit [LinearOrder K] in
/-- The new node gets the upper part, on the same level. -/
theorem split_right (hne : c ≠ q) : (g.split c k q).level (.node q) = g.level (.node c) ∧
    (g.split c k q).lo (.node q) = k ∧ (g.split c k q).hi (.node q) = g.hi (.node c) :=
  ⟨by simp [split], by simp [split], by simp [split, hne.symm]⟩

end Split

section Grow

variable {q : Ptr}

omit [LinearOrder K] in
/-- A new root changes no range below it. -/
theorem grow_same (hl : l ≠ .latch) (hq : l ≠ .node q) : g.SameAt (g.grow q) l :=
  ⟨by simp [grow, hl, hq], by simp [grow, hq], by simp [grow, hq]⟩

omit [LinearOrder K] in
/-- The new root takes the place of the latch. -/
theorem grow_new : (g.grow q).level (.node q) = g.level .latch ∧
    (g.grow q).lo (.node q) = g.lo .latch ∧ (g.grow q).hi (.node q) = g.hi .latch :=
  ⟨by simp [grow], by simp [grow], by simp [grow]⟩

omit [LinearOrder K] in
/-- The latch moves up one level. -/
theorem grow_latch : (g.grow q).level .latch = g.level .latch + 1 ∧
    (g.grow q).lo .latch = g.lo .latch ∧ (g.grow q).hi .latch = g.hi .latch :=
  ⟨by simp [grow], by simp [grow], by simp [grow]⟩

end Grow

end Ranges

/-- The lock is there. -/
def Allocated (m : Tree K V) : Lock → Prop
  | .latch => True
  | .node p => p < m.alloc

/-- The separators and the children behind a lock. -/
def rowOf (m : Tree K V) : Lock → Option (List K × List Ptr)
  | .latch => some ([], [m.root])
  | .node p =>
      match m.heap p with
      | .leaf _ _ => none
      | .internal ks cs => some (ks, cs)

omit [LinearOrder K] in
/-- The row of an internal node is what it contains. -/
theorem heap_of_rowOf {m : Tree K V} {p : Ptr} {ks : List K} {cs : List Ptr}
    (h : rowOf m (.node p) = some (ks, cs)) : m.heap p = .internal ks cs := by
  simp only [rowOf] at h
  split at h
  · cases h
  · rename_i hheap
    obtain ⟨rfl, rfl⟩ := Prod.mk.inj (Option.some.inj h)
    exact hheap

omit [LinearOrder K] in
/-- An internal node has a row. -/
theorem rowOf_of_heap {m : Tree K V} {p : Ptr} {ks : List K} {cs : List Ptr}
    (h : m.heap p = .internal ks cs) : rowOf m (.node p) = some (ks, cs) := by
  simp only [rowOf, h]

omit [LinearOrder K] in
/-- The row of the latch is the root alone. -/
theorem rowOf_latch {m : Tree K V} : rowOf m .latch = some ([], [m.root]) :=
  rfl

/-- A child at its cell. -/
structure ChildOk (g : Ranges K) (alloc level : Nat) (lo : WithBot K) (hi : WithTop K) (p : Ptr) :
    Prop where
  alloc : p < alloc
  level : g.level (.node p) + 1 = level
  lo : g.lo (.node p) = lo
  hi : g.hi (.node p) = hi

/-- The children share out the range. -/
structure Row (g : Ranges K) (alloc : Nat) (l : Lock) (c : Ptr) (ps : List (K × Ptr)) : Prop where
  sorted : (ps.map Prod.fst).Pairwise (· < ·)
  inRange : ∀ p ∈ ps, g.Has l p.1
  cells : Cells (ChildOk g alloc (g.level l)) (g.hi l) (g.lo l) c ps

/-- They do once the separators and nodes that are pending have been put in. -/
def RowOk (g : Ranges K) (alloc : Nat) (l : Lock) (pending : List (K × Ptr)) (ks : List K)
    (cs : List Ptr) : Prop :=
  ∃ c as bs, ks = (as ++ bs).map Prod.fst ∧ cs = c :: (as ++ bs).map Prod.snd ∧
    Row g alloc l c (as ++ (pending ++ bs))

/-- The entries of a leaf. -/
structure LeafOk (F : Nat) (g : Ranges K) (l : Lock) (es : List (K × V)) : Prop where
  level : g.level l = 0
  sorted : (es.map Prod.fst).Pairwise (· < ·)
  inRange : ∀ e ∈ es, g.Has l e.1
  length : es.length ≤ F

/-- A node. -/
def NodeOk (F : Nat) (g : Ranges K) (alloc : Nat) (l : Lock) (pending : List (K × Ptr)) :
    Node K V → Prop
  | .leaf es _ => LeafOk F g l es
  | .internal ks cs => ks.length ≤ F ∧ RowOk g alloc l pending ks cs

/-- The next leaf begins where a leaf ends. -/
def NextOk (g : Ranges K) (alloc : Nat) (p : Ptr) : Option Ptr → Prop
  | none => g.hi (.node p) = ⊤
  | some q => q < alloc ∧ g.level (.node q) = 0 ∧
      ∃ sep : K, g.hi (.node p) = sep ∧ g.lo (.node q) = sep

/-- The tree, with what is pending at each lock.  Below the root, and once the root has been split,
the internal nodes are half full. -/
structure Grid (F : Nat) (g : Ranges K) (m : Tree K V) (pending : Lock → List (K × Ptr)) :
    Prop where
  node : ∀ p < m.alloc, NodeOk F g m.alloc (.node p) (pending (.node p)) (m.heap p)
  root : RowOk g m.alloc .latch (pending .latch) [] [m.root]
  apart : ∀ l l' k, Allocated m l → Allocated m l' → g.level l = g.level l' → g.Has l k →
    g.Has l' k → l = l'
  below : ∀ p < m.alloc, g.level (.node p) < g.level .latch
  whole : g.lo .latch = ⊥ ∧ g.hi .latch = ⊤
  top : ∀ p < m.alloc, g.level (.node p) + 1 = g.level .latch →
    p = m.root ∨ ∃ sep, pending .latch = [(sep, p)]
  full : ∀ p < m.alloc, ∀ ks cs, m.heap p = .internal ks cs →
    g.level (.node p) + 1 < g.level .latch ∨ pending .latch ≠ [] → F / 2 ≤ ks.length
  inhabited : Nonempty K → ∀ p < m.alloc, ∃ k, g.Has (.node p) k
  next : ∀ p < m.alloc, ∀ es nx, m.heap p = .leaf es nx → NextOk g m.alloc p nx

variable {F : Nat} {g g' : Ranges K} {m : Tree K V} {pending pending' : Lock → List (K × Ptr)}
  {l l' : Lock} {c p q : Ptr} {key sep : K} {alloc alloc' : Nat} {ps ex : List (K × Ptr)}
  {ks : List K} {cs : List Ptr} {es : List (K × V)} {next : Option Ptr}

/-! ## Rows -/

/-- The children in a row are allocated and lie below its lock. -/
theorem Row.child (h : Row g alloc l c ps) (hmem : q ∈ c :: ps.map Prod.snd) :
    q < alloc ∧ g.Under (.node q) l := by
  obtain ⟨lo, hi, hok, hlo, hhi⟩ := h.cells.exists_cell h.sorted h.inRange hmem
  exact ⟨hok.alloc, hok.level, by rwa [hok.lo], by rwa [hok.hi]⟩

omit [LinearOrder K] in
/-- The children end one behind the other. -/
theorem his_eq {lo : WithBot K} {hi : WithTop K} {level : Nat} (h : Cells (ChildOk g alloc level) hi lo c ps) :
    (c :: ps.map Prod.snd).map (fun d => g.hi (.node d)) =
      ps.map (fun e => (e.1 : WithTop K)) ++ [hi] := by
  induction ps generalizing lo c with
  | nil =>
      have hc : ChildOk g alloc level lo hi c := h
      simp [hc.hi]
  | cons e ps ih =>
      obtain ⟨hc, hrest⟩ := h
      simp only [List.map_cons, List.cons_append, hc.hi] at ih ⊢
      rw [ih hrest]

/-- The children in a row are different nodes. -/
theorem Row.nodup (h : Row g alloc l c ps) : (c :: ps.map Prod.snd).Nodup := by
  refine List.Nodup.of_map (fun d => g.hi (.node d)) ?_
  rw [his_eq h.cells]
  refine List.Pairwise.imp ne_of_lt (List.pairwise_append.mpr ⟨?_, List.pairwise_singleton _ _, ?_⟩)
  · have hsorted := List.pairwise_map.mp h.sorted
    exact List.pairwise_map.mpr (hsorted.imp fun hlt => WithTop.coe_lt_coe.mpr hlt)
  · intro a ha b hb
    obtain ⟨e, he, rfl⟩ := List.mem_map.mp ha
    rw [List.mem_singleton.mp hb]
    exact (h.inRange e he).2

/-- A row of children that stay as they are. -/
theorem Row.congr (h : Row g alloc l c ps) (hl : g.SameAt g' l) (halloc : alloc ≤ alloc')
    (hchild : ∀ d < alloc, g.Under (.node d) l → g.SameAt g' (.node d)) :
    Row g' alloc' l c ps where
  sorted := h.sorted
  inRange p hp := hl.has.mpr (h.inRange p hp)
  cells := by
    rw [hl.level, hl.lo, hl.hi]
    refine h.cells.mono fun q hq lo hi hok => ?_
    obtain ⟨hlt, hunder⟩ := h.child hq
    have hsame := hchild q hlt hunder
    exact ⟨hlt.trans_le halloc, by rw [hsame.level, hok.level], by rw [hsame.lo, hok.lo],
      by rw [hsame.hi, hok.hi]⟩

/-- **Frame.**  A row depends on the ranges of its lock and of the children. -/
theorem RowOk.congr (h : RowOk g alloc l ex ks cs) (hl : g.SameAt g' l) (halloc : alloc ≤ alloc')
    (hchild : ∀ d < alloc, g.Under (.node d) l → g.SameAt g' (.node d)) :
    RowOk g' alloc' l ex ks cs := by
  obtain ⟨c, as, bs, hks, hcs, hrow⟩ := h
  exact ⟨c, as, bs, hks, hcs, hrow.congr hl halloc hchild⟩

/-- Whatever has a row is not on the lowest level. -/
theorem RowOk.level_pos (h : RowOk g alloc l ex ks cs) : 0 < g.level l := by
  obtain ⟨c, as, bs, -, -, hrow⟩ := h
  have := (hrow.child (.head _)).2.level
  omega

/-- The row opened at the cell of a key. -/
theorem Row.focus (h : Row g alloc l c ps) (hkey : g.Has l key) :
    ∃ as bs lo hi d xs ys, ps = as ++ bs ∧ upperSlot (ps.map Prod.fst) key = as.length ∧
      Cells.Focus (ChildOk g alloc (g.level l)) (g.lo l) (g.hi l) c as bs key lo hi d xs ys := by
  obtain ⟨as, bs, rfl, hslot, has, hbs⟩ := upperSlot_split h.sorted key
  obtain ⟨lo, hi, d, xs, ys, hfocus⟩ := Cells.focus h.cells h.sorted hkey has hbs h.inRange
  exact ⟨as, bs, lo, hi, d, xs, ys, rfl, hslot, hfocus⟩

/-- **The descent.**  With nothing pending, the child that a search picks has the key in its
range. -/
theorem RowOk.search (h : RowOk g alloc l [] ks cs) (hkey : g.Has l key) :
    ∃ child, cs[upperSlot ks key]? = some child ∧ child < alloc ∧ g.Has (.node child) key ∧
      g.Under (.node child) l := by
  obtain ⟨c, as, bs, rfl, rfl, hrow⟩ := h
  obtain ⟨as', bs', lo, hi, d, xs, ys, hps, hslot, hfocus⟩ := hrow.focus hkey
  simp only [List.nil_append] at hps hslot hrow
  have hmem : d ∈ c :: (as ++ bs).map Prod.snd := by
    rw [hps, hfocus.parts]
    simp
  obtain ⟨hlt, hunder⟩ := hrow.child hmem
  refine ⟨d, ?_, hlt, ?_, hunder⟩
  · rw [hslot, hps, hfocus.parts, ← hfocus.length]
    simp
  · rw [Ranges.Has, hfocus.part.lo, hfocus.part.hi]
    exact hfocus.inRange

/-! ## What the tree gives -/

/-- A leaf depends on its own range only. -/
theorem LeafOk.congr (h : LeafOk F g l es) (hl : g.SameAt g' l) : LeafOk F g' l es where
  level := hl.level.trans h.level
  sorted := h.sorted
  inRange e he := hl.has.mpr (h.inRange e he)
  length := h.length

namespace Grid

variable (h : Grid F g m pending)

include h

/-- Every lock with children behind it has a row. -/
theorem rowOk (hl : Allocated m l) (hrow : rowOf m l = some (ks, cs)) :
    RowOk g m.alloc l (pending l) ks cs := by
  cases l with
  | latch =>
      obtain ⟨rfl, rfl⟩ := Prod.mk.inj (Option.some.inj hrow)
      exact h.root
  | node p =>
      have hnode := h.node p hl
      rw [heap_of_rowOf hrow] at hnode
      exact hnode.2

/-- The grid says so of every leaf. -/
theorem leafOk (hp : p < m.alloc) (hheap : m.heap p = .leaf es next) : LeafOk F g (.node p) es := by
  have hnode := h.node p hp
  rwa [hheap] at hnode

/-- Above the leaves there are children. -/
theorem exists_row (hl : Allocated m l) (hlevel : 0 < g.level l) :
    ∃ ks cs, rowOf m l = some (ks, cs) := by
  cases l with
  | latch => exact ⟨[], [m.root], rfl⟩
  | node p =>
      cases hheap : m.heap p with
      | leaf es next =>
          rw [(h.leafOk hl hheap).level] at hlevel
          exact absurd hlevel (lt_irrefl 0)
      | internal ks cs => exact ⟨ks, cs, by simp [rowOf, hheap]⟩

/-- Two nodes below one level that share a key are the same. -/
theorem eq_of_has {p q : Ptr} (hp : p < m.alloc) (hq : q < m.alloc)
    (hlevel : g.level (.node p) = g.level (.node q)) (hkp : g.Has (.node p) key)
    (hkq : g.Has (.node q) key) : p = q :=
  Lock.node.inj (h.apart _ _ key hp hq hlevel hkp hkq)

/-- **The parent is unique.** -/
theorem parent_eq (hl : Allocated m l) (hl' : Allocated m l') (hkey : g.Has (.node c) key)
    (hunder : g.Under (.node c) l) (hunder' : g.Under (.node c) l') : l = l' :=
  h.apart l l' key hl hl' (by rw [← hunder.level, ← hunder'.level]) (hunder.has hkey)
    (hunder'.has hkey)

end Grid

end

end BptreeCoupling
