import LockBench.BptreeIndex

/-!
# The shape of the tree

`Shape F heap h m lo hi p` says that below `p` there is a tree of height `h` with
all keys from `lo` on and before `hi`: keys in order in every node, the children of a
node in the cells between its keys, at most `F` keys in a node, at least `F / 2` in
an internal one and at least `m` in `p` itself.  `nodes` lists the nodes of the tree,
`leaves` its leaves from left to right.

Everything said here of a tree depends on the nodes of the tree only; that is how a
change below one child leaves the other children as they are.
-/

namespace BptreeIndex

section

variable {K V : Type}

/-- The nodes of the tree of height `h` at `p`. -/
def nodes (heap : Ptr → Node K V) : Nat → Ptr → List Ptr
  | 0, p => [p]
  | h + 1, p => p :: (heap p).children.flatMap (nodes heap h)

/-- Its leaves, from left to right. -/
def leaves (heap : Ptr → Node K V) : Nat → Ptr → List Ptr
  | 0, p => [p]
  | h + 1, p => (heap p).children.flatMap (leaves heap h)

/-- The entries of a row of leaves. -/
def entriesOf (heap : Ptr → Node K V) (ls : List Ptr) : List (K × V) :=
  ls.flatMap fun l => (heap l).entries

/-- Each leaf of the row points to the next one, and the last to `fin`. -/
def Chain (heap : Ptr → Node K V) : List Ptr → Option Ptr → Prop
  | [], _ => True
  | l :: ls, fin => (heap l).nextLeaf = ls.head?.or fin ∧ Chain heap ls fin

/-- The tree at `p`. -/
def Shape [LinearOrder K] (F : Nat) (heap : Ptr → Node K V) :
    Nat → Nat → WithBot K → WithTop K → Ptr → Prop
  | 0, _, lo, hi, p => ∃ es next, heap p = .leaf es next ∧
      (es.map Prod.fst).Pairwise (· < ·) ∧ (∀ e ∈ es, InRange lo hi e.1) ∧ es.length ≤ F
  | h + 1, m, lo, hi, p => ∃ c ps, heap p = .internal (ps.map Prod.fst) (c :: ps.map Prod.snd) ∧
      (ps.map Prod.fst).Pairwise (· < ·) ∧ (∀ q ∈ ps, InRange lo hi q.1) ∧ m ≤ ps.length ∧
      ps.length ≤ F ∧ Cells (Shape F heap h (F / 2)) hi lo c ps

/-! ## Trees that are not touched -/

variable {heap heap' : Ptr → Node K V} {h : Nat} {p : Ptr}

/-- A tree contains its root. -/
theorem self_mem_nodes : p ∈ nodes heap h p := by
  cases h <;> exact .head _

/-- The nodes under a child are nodes of the tree. -/
theorem mem_nodes_child {c q : Ptr} (hc : c ∈ (heap p).children) (hq : q ∈ nodes heap h c) :
    q ∈ nodes heap (h + 1) p :=
  .tail _ (List.mem_flatMap.mpr ⟨c, hc, hq⟩)

/-- The leaves are nodes. -/
theorem leaves_subset : ∀ q ∈ leaves heap h p, q ∈ nodes heap h p := by
  induction h generalizing p with
  | zero => exact fun q hq => hq
  | succ h ih =>
      intro q hq
      obtain ⟨c, hc, hq⟩ := List.mem_flatMap.mp hq
      exact mem_nodes_child hc (ih q hq)

/-- The nodes are found by reading the nodes. -/
theorem nodes_congr (hsame : ∀ q ∈ nodes heap h p, heap' q = heap q) :
    nodes heap' h p = nodes heap h p := by
  induction h generalizing p with
  | zero => rfl
  | succ h ih =>
      simp only [nodes, hsame p self_mem_nodes]
      refine congrArg _ (List.flatMap_congr fun c hc => ih fun q hq => ?_)
      exact hsame q (mem_nodes_child hc hq)

/-- The leaves are found by reading the nodes. -/
theorem leaves_congr (hsame : ∀ q ∈ nodes heap h p, heap' q = heap q) :
    leaves heap' h p = leaves heap h p := by
  induction h generalizing p with
  | zero => rfl
  | succ h ih =>
      simp only [leaves, hsame p self_mem_nodes]
      refine List.flatMap_congr fun c hc => ih fun q hq => ?_
      exact hsame q (mem_nodes_child hc hq)

/-- The entries are read off the leaves. -/
theorem entriesOf_congr {ls : List Ptr} (hsame : ∀ l ∈ ls, heap' l = heap l) :
    entriesOf heap' ls = entriesOf heap ls :=
  List.flatMap_congr fun l hl => by rw [hsame l hl]

/-- The chain is read off the leaves. -/
theorem Chain.congr {ls : List Ptr} {fin : Option Ptr} (hsame : ∀ l ∈ ls, heap' l = heap l)
    (hc : Chain heap ls fin) : Chain heap' ls fin := by
  induction ls with
  | nil => trivial
  | cons l ls ih =>
      refine ⟨?_, ih (fun q hq => hsame q (.tail _ hq)) hc.2⟩
      rw [hsame l (.head _)]
      exact hc.1

/-- Two chains are one when the first ends at the head of the second. -/
theorem chain_append {ls ls' : List Ptr} {fin : Option Ptr} :
    Chain heap (ls ++ ls') fin ↔ Chain heap ls (ls'.head?.or fin) ∧ Chain heap ls' fin := by
  induction ls with
  | nil => simp [Chain]
  | cons l ls ih =>
      simp only [List.cons_append, Chain, ih, List.head?_append, Option.or_assoc, and_assoc]

/-- Entries of adjacent leaves. -/
theorem entriesOf_append {ls ls' : List Ptr} :
    entriesOf heap (ls ++ ls') = entriesOf heap ls ++ entriesOf heap ls' :=
  List.flatMap_append

variable [LinearOrder K] {F m : Nat} {lo : WithBot K} {hi : WithTop K}

/-- **Frame.**  The shape of a tree depends on its nodes only. -/
theorem Shape.congr (hshape : Shape F heap h m lo hi p)
    (hsame : ∀ q ∈ nodes heap h p, heap' q = heap q) : Shape F heap' h m lo hi p := by
  induction h generalizing p m lo hi with
  | zero =>
      obtain ⟨es, next, hp, hrest⟩ := hshape
      exact ⟨es, next, (hsame p self_mem_nodes).trans hp, hrest⟩
  | succ h ih =>
      obtain ⟨c, ps, hp, hsorted, hin, hm, hF, hcells⟩ := hshape
      refine ⟨c, ps, (hsame p self_mem_nodes).trans hp, hsorted, hin, hm, hF, ?_⟩
      refine hcells.mono fun q hq lo hi hq' => ih hq' fun r hr => hsame r (mem_nodes_child ?_ hr)
      rw [hp]
      exact hq

/-- A child is a tree within the bounds of its parent, and at least half full. -/
theorem Shape.cell (hshape : Shape F heap (h + 1) m lo hi p) {c : Ptr}
    (hc : c ∈ (heap p).children) :
    ∃ lo₁ hi₁, Shape F heap h (F / 2) lo₁ hi₁ c ∧ lo ≤ lo₁ ∧ hi₁ ≤ hi := by
  obtain ⟨c₀, ps, hp, hsorted, hin, -, -, hcells⟩ := hshape
  rw [hp] at hc
  exact hcells.exists_cell hsorted hin hc

/-- The keys of a tree are within its bounds. -/
theorem Shape.keys_inRange (hshape : Shape F heap h m lo hi p) {q : Ptr}
    (hq : q ∈ nodes heap h p) : ∀ k ∈ (heap q).keys, InRange lo hi k := by
  induction h generalizing p m lo hi with
  | zero =>
      obtain ⟨es, next, hp, -, hin, -⟩ := hshape
      obtain rfl := List.mem_singleton.mp hq
      rw [hp]
      intro k hk
      obtain ⟨e, he, rfl⟩ := List.mem_map.mp hk
      exact hin e he
  | succ h ih =>
      rcases List.mem_cons.mp hq with rfl | hq
      · obtain ⟨c, ps, hp, -, hin, -⟩ := hshape
        rw [hp]
        intro k hk
        obtain ⟨e, he, rfl⟩ := List.mem_map.mp hk
        exact hin e he
      · obtain ⟨c, hc, hq⟩ := List.mem_flatMap.mp hq
        obtain ⟨lo₁, hi₁, hc', hlo, hhi⟩ := hshape.cell hc
        exact fun k hk => (ih hc' hq k hk).mono hlo hhi

/-- The entries of a tree are within its bounds. -/
theorem Shape.entries_inRange (hshape : Shape F heap h m lo hi p) {e : K × V}
    (he : e ∈ entriesOf heap (leaves heap h p)) : InRange lo hi e.1 := by
  obtain ⟨l, hl, he⟩ := List.mem_flatMap.mp he
  refine hshape.keys_inRange (leaves_subset l hl) e.1 ?_
  cases hx : heap l with
  | leaf es next =>
      rw [hx] at he
      exact List.mem_map_of_mem he
  | internal ks cs =>
      rw [hx] at he
      cases he

end

end BptreeIndex
