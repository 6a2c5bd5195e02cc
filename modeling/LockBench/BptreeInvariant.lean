import LockBench.BptreeRefines

/-!
# The representation invariant of `bptree_index`

What a reader of the source expects of the tree, said of the nodes that can be
reached from `root_`: order within and between nodes, equal depth of the leaves, fill,
no sharing and no lost node, and the chain of the leaves.  `TreeOk` implies all of it.
-/

namespace BptreeIndex

section

variable {K V : Type}

/-- `q` can be reached from `p` through children. -/
inductive Below (heap : Ptr → Node K V) : Ptr → Ptr → Prop
  | refl (p : Ptr) : Below heap p p
  | child {p c q : Ptr} (hc : c ∈ (heap p).children) (hq : Below heap c q) : Below heap p q

/-- `q` is reached from `p` through `d` children. -/
inductive AtDepth (heap : Ptr → Node K V) : Ptr → Nat → Ptr → Prop
  | here (p : Ptr) : AtDepth heap p 0 p
  | child {p c q : Ptr} {d : Nat} (hc : c ∈ (heap p).children) (hq : AtDepth heap c d q) :
      AtDepth heap p (d + 1) q

/-- The leftmost leaf. -/
def leftmost (heap : Ptr → Node K V) : Nat → Ptr → Option Ptr
  | 0, _ => none
  | fuel + 1, p =>
      match heap p with
      | .leaf _ _ => some p
      | .internal _ cs => cs.head?.bind (leftmost heap fuel)

/-- The nodes met by following `next_leaf` to its end. -/
def followNext (heap : Ptr → Node K V) : Nat → Ptr → Option (List Ptr)
  | 0, _ => none
  | fuel + 1, p =>
      match (heap p).nextLeaf with
      | none => some [p]
      | some q => (followNext heap fuel q).map (p :: ·)

/-- The representation invariant. -/
structure RepInv [LinearOrder K] (F : Nat) (t : Tree K V) : Prop where
  sorted : ∀ q, Below t.heap t.root q → (t.heap q).keys.Pairwise (· < ·)
  children : ∀ q, Below t.heap t.root q → (t.heap q).isLeaf = false →
    (t.heap q).children.length = (t.heap q).n + 1
  bounds : ∀ p, Below t.heap t.root p → ∀ i c, (t.heap p).children[i]? = some c →
    ∀ q, Below t.heap c q → ∀ k ∈ (t.heap q).keys,
      (∀ a, 0 < i → (t.heap p).keys[i - 1]? = some a → a ≤ k) ∧
        ∀ b, (t.heap p).keys[i]? = some b → k < b
  depth : ∃ h, ∀ d q, AtDepth t.heap t.root d q → (t.heap q).isLeaf = true → d = h
  size : ∀ q, Below t.heap t.root q → (t.heap q).n ≤ F
  filled : ∀ q, Below t.heap t.root q → q ≠ t.root → (t.heap q).isLeaf = false →
    F / 2 ≤ (t.heap q).n
  reachable : ∀ q, Below t.heap t.root q ↔ q < t.alloc
  freed : ∃ ds, freeSubtree t.heap t.alloc t.root = some ds ∧ ds.Perm (List.range t.alloc)
  chain : ∃ l ls, leftmost t.heap t.alloc t.root = some l ∧
    followNext t.heap t.alloc l = some ls ∧ ls.Nodup ∧
    (∀ q, q ∈ ls ↔ Below t.heap t.root q ∧ (t.heap q).isLeaf = true) ∧
    (ls.flatMap fun q => (t.heap q).keys).Pairwise (· < ·)

variable [LinearOrder K] {F h m : Nat} {lo : WithBot K} {hi : WithTop K} {p q : Ptr}
  {heap : Ptr → Node K V} {t : Tree K V}

/-! ## The nodes of the tree -/

/-- The listed nodes are those that can be reached. -/
theorem Shape.below_iff (hshape : Shape F heap h m lo hi p) : Below heap p q ↔ q ∈ nodes heap h p := by
  induction h generalizing p m lo hi with
  | zero =>
      obtain ⟨es, next, hp, -⟩ := hshape
      constructor
      · intro hq
        cases hq with
        | refl => exact .head _
        | child hc _ =>
            rw [hp] at hc
            cases hc
      · intro hq
        obtain rfl := List.mem_singleton.mp hq
        exact .refl q
  | succ h ih =>
      constructor
      · intro hq
        cases hq with
        | refl => exact .head _
        | child hc hq =>
            obtain ⟨lo₁, hi₁, hc', -⟩ := hshape.cell hc
            exact mem_nodes_child hc ((ih hc').mp hq)
      · intro hq
        rcases List.mem_cons.mp hq with rfl | hq
        · exact .refl q
        · obtain ⟨c, hc, hq⟩ := List.mem_flatMap.mp hq
          obtain ⟨lo₁, hi₁, hc', -⟩ := hshape.cell hc
          exact .child hc ((ih hc').mpr hq)

/-- Every node has a tree of its own; below the top it is half full. -/
theorem Shape.sub (hshape : Shape F heap h m lo hi p) (hq : q ∈ nodes heap h p) :
    ∃ h' m' lo' hi', Shape F heap h' m' lo' hi' q ∧ (q ≠ p → m' = F / 2) := by
  induction h generalizing p m lo hi with
  | zero =>
      obtain rfl := List.mem_singleton.mp hq
      exact ⟨0, m, lo, hi, hshape, fun hne => absurd rfl hne⟩
  | succ h ih =>
      rcases List.mem_cons.mp hq with rfl | hq
      · exact ⟨h + 1, m, lo, hi, hshape, fun hne => absurd rfl hne⟩
      · obtain ⟨c, hc, hq⟩ := List.mem_flatMap.mp hq
        obtain ⟨lo₁, hi₁, hc', -⟩ := hshape.cell hc
        by_cases hqc : q = c
        · subst hqc
          exact ⟨h, F / 2, lo₁, hi₁, hc', fun _ => rfl⟩
        · obtain ⟨h', m', lo', hi', hsub, hm'⟩ := ih hc' hq
          exact ⟨h', m', lo', hi', hsub, fun _ => hm' hqc⟩

/-- What the shape says of the node itself. -/
theorem Shape.node (hshape : Shape F heap h m lo hi p) :
    (heap p).keys.Pairwise (· < ·) ∧ (heap p).n ≤ F ∧
      ((heap p).isLeaf = false → (heap p).children.length = (heap p).n + 1 ∧ m ≤ (heap p).n) := by
  cases h with
  | zero =>
      obtain ⟨es, next, hp, hsorted, -, hlen⟩ := hshape
      rw [hp]
      exact ⟨hsorted, by simpa [Node.n, Node.keys] using hlen, nofun⟩
  | succ h =>
      obtain ⟨c, ps, hp, hsorted, -, hm, hlen, -⟩ := hshape
      rw [hp]
      refine ⟨hsorted, by simpa [Node.n, Node.keys] using hlen, fun _ => ⟨?_, ?_⟩⟩
      · simp [Node.n, Node.keys, Node.children]
      · simpa [Node.n, Node.keys] using hm

/-- The keys below a child lie between the keys around it. -/
theorem Shape.bounds (hshape : Shape F heap h m lo hi p) {i : Nat} {c : Ptr}
    (hc : (heap p).children[i]? = some c) (hq : Below heap c q) {k : K} (hk : k ∈ (heap q).keys) :
    (∀ a, 0 < i → (heap p).keys[i - 1]? = some a → a ≤ k) ∧
      ∀ b, (heap p).keys[i]? = some b → k < b := by
  cases h with
  | zero =>
      obtain ⟨es, next, hp, -⟩ := hshape
      simp [hp, Node.children] at hc
  | succ h =>
      obtain ⟨c₀, ps, hp, -, -, -, -, hcells⟩ := hshape
      simp only [hp, Node.children, Node.keys] at hc ⊢
      obtain ⟨lo₁, hi₁, hS, -, hlo, hhi⟩ := hcells.getElem_cell hc
      have hin := hS.keys_inRange (hS.below_iff.mp hq) k hk
      constructor
      · intro a hi ha
        rw [hlo a hi ha] at hin
        exact WithBot.coe_le_coe.mp hin.1
      · intro b hb
        rw [hhi b hb] at hin
        exact WithTop.coe_lt_coe.mp hin.2

theorem Shape.depth (hshape : Shape F heap h m lo hi p) {d : Nat} (hq : AtDepth heap p d q)
    (hleaf : (heap q).isLeaf = true) : d = h := by
  induction h generalizing p m lo hi d with
  | zero =>
      obtain ⟨es, next, hp, -⟩ := hshape
      cases hq with
      | here => rfl
      | child hc _ =>
          rw [hp] at hc
          cases hc
  | succ h ih =>
      cases hq with
      | here =>
          obtain ⟨c, ps, hp, -⟩ := hshape
          rw [hp] at hleaf
          cases hleaf
      | child hc hq =>
          obtain ⟨lo₁, hi₁, hc', -⟩ := hshape.cell hc
          rw [ih hc' hq]

/-! ## `free_subtree` -/

/-- A map over a list that succeeds at every element. -/
theorem mapM_perm {f : Ptr → Option (List Ptr)} {g : Ptr → List Ptr} (cs : List Ptr)
    (hf : ∀ c ∈ cs, ∃ ds, f c = some ds ∧ ds.Perm (g c)) :
    ∃ dss, cs.mapM f = some dss ∧ dss.flatten.Perm (cs.flatMap g) := by
  induction cs with
  | nil => exact ⟨[], rfl, .refl _⟩
  | cons c cs ih =>
      obtain ⟨ds, hds, hperm⟩ := hf c (.head _)
      obtain ⟨dss, hdss, hperms⟩ := ih fun q hq => hf q (.tail _ hq)
      refine ⟨ds :: dss, ?_, ?_⟩
      · simp [List.mapM_cons, hds, hdss]
      · simpa using hperm.append hperms

/-- **`free_subtree` deletes every node of the tree once.** -/
theorem freeSubtree_perm (hshape : Shape F heap h m lo hi p) {fuel : Nat} (hfuel : h < fuel) :
    ∃ ds, freeSubtree heap fuel p = some ds ∧ ds.Perm (nodes heap h p) := by
  induction h generalizing p m lo hi fuel with
  | zero =>
      obtain ⟨fuel, rfl⟩ := Nat.exists_eq_succ_of_ne_zero (Nat.ne_zero_of_lt hfuel)
      obtain ⟨es, next, hp, -⟩ := hshape
      exact ⟨[p], by simp only [freeSubtree, hp], .refl _⟩
  | succ h ih =>
      obtain ⟨fuel, rfl⟩ := Nat.exists_eq_succ_of_ne_zero (Nat.ne_zero_of_lt hfuel)
      obtain ⟨c, ps, hp, -⟩ := id hshape
      obtain ⟨dss, hdss, hperm⟩ := mapM_perm (f := freeSubtree heap fuel) (g := nodes heap h)
        (c :: ps.map Prod.snd) fun d hd => by
          obtain ⟨lo₁, hi₁, hd', -⟩ := hshape.cell (c := d) (by rw [hp]; exact hd)
          exact ih hd' (by omega)
      refine ⟨dss.flatten ++ [p], ?_, ?_⟩
      · simp only [freeSubtree, hp, hdss, Option.map_some]
      · rw [nodes, hp]
        exact (List.perm_append_singleton _ _).trans (hperm.cons p)

/-! ## The chain of the leaves -/

omit [LinearOrder K] in
theorem leaves_sublist : (leaves heap h p).Sublist (nodes heap h p) := by
  induction h generalizing p with
  | zero => exact .refl _
  | succ h ih =>
      rw [leaves, nodes]
      refine .cons _ ?_
      induction (heap p).children with
      | nil => exact .refl _
      | cons c cs ihc =>
          simp only [List.flatMap_cons]
          exact ih.append ihc

theorem Shape.mem_leaves (hshape : Shape F heap h m lo hi p) :
    q ∈ leaves heap h p ↔ q ∈ nodes heap h p ∧ (heap q).isLeaf = true := by
  induction h generalizing p m lo hi with
  | zero =>
      obtain ⟨es, next, hp, -⟩ := hshape
      simp only [leaves, nodes, List.mem_singleton]
      constructor
      · rintro rfl
        exact ⟨rfl, by rw [hp]; rfl⟩
      · exact fun hq => hq.1
  | succ h ih =>
      obtain ⟨c, ps, hp, -⟩ := id hshape
      simp only [leaves, nodes, List.mem_cons, List.mem_flatMap]
      constructor
      · rintro ⟨d, hd, hq⟩
        obtain ⟨lo₁, hi₁, hd', -⟩ := hshape.cell hd
        obtain ⟨hq, hleaf⟩ := (ih hd').mp hq
        exact ⟨.inr ⟨d, hd, hq⟩, hleaf⟩
      · rintro ⟨rfl | ⟨d, hd, hq⟩, hleaf⟩
        · rw [hp] at hleaf
          cases hleaf
        · obtain ⟨lo₁, hi₁, hd', -⟩ := hshape.cell hd
          exact ⟨d, hd, (ih hd').mpr ⟨hq, hleaf⟩⟩

theorem leftmost_eq (hshape : Shape F heap h m lo hi p) {fuel : Nat} (hfuel : h < fuel) :
    ∃ l, leftmost heap fuel p = some l ∧ (leaves heap h p).head? = some l := by
  induction h generalizing p m lo hi fuel with
  | zero =>
      obtain ⟨fuel, rfl⟩ := Nat.exists_eq_succ_of_ne_zero (Nat.ne_zero_of_lt hfuel)
      obtain ⟨es, next, hp, -⟩ := hshape
      exact ⟨p, by simp only [leftmost, hp], rfl⟩
  | succ h ih =>
      obtain ⟨fuel, rfl⟩ := Nat.exists_eq_succ_of_ne_zero (Nat.ne_zero_of_lt hfuel)
      obtain ⟨c, ps, hp, -⟩ := id hshape
      obtain ⟨lo₁, hi₁, hc, -⟩ := hshape.cell (c := c) (by rw [hp]; exact .head _)
      obtain ⟨l, hl, hhead⟩ := ih hc (by omega : h < fuel)
      refine ⟨l, ?_, ?_⟩
      · simp only [leftmost, hp, List.head?_cons, Option.bind_some, hl]
      · simp only [leaves, hp, Node.children, List.flatMap_cons, List.head?_append, hhead,
          Option.some_or]

omit [LinearOrder K] in
theorem followNext_eq {l : Ptr} {ls : List Ptr} (hchain : Chain heap (l :: ls) none) {fuel : Nat}
    (hfuel : ls.length < fuel) : followNext heap fuel l = some (l :: ls) := by
  induction ls generalizing l fuel with
  | nil =>
      obtain ⟨fuel, rfl⟩ := Nat.exists_eq_succ_of_ne_zero (Nat.ne_zero_of_lt hfuel)
      simp only [followNext, hchain.1, List.head?_nil, Option.or_none]
  | cons l' ls ih =>
      obtain ⟨fuel, rfl⟩ := Nat.exists_eq_succ_of_ne_zero (Nat.ne_zero_of_lt hfuel)
      have hrest : followNext heap fuel l' = some (l' :: ls) :=
        ih hchain.2 (by simpa using hfuel)
      simp only [followNext, hchain.1, List.head?_cons, Option.some_or, hrest, Option.map_some]

/-- The keys of the leaves, from left to right, are in order. -/
theorem Shape.keys_sorted (hshape : Shape F heap h m lo hi p) :
    ((leaves heap h p).flatMap fun q => (heap q).keys).Pairwise (· < ·) := by
  induction h generalizing p m lo hi with
  | zero =>
      obtain ⟨es, next, hp, hsorted, -⟩ := hshape
      simpa [leaves, hp, Node.keys] using hsorted
  | succ h ih =>
      obtain ⟨c, ps, hp, hsorted, hin, -, -, hcells⟩ := hshape
      rw [leaves, hp, Node.children, List.flatMap_assoc]
      refine hcells.flatMap_sorted (fun q lo hi hq => ⟨ih hq, fun k hk => ?_⟩) hsorted hin
      obtain ⟨l, hl, hk⟩ := List.mem_flatMap.mp hk
      exact hq.keys_inRange (leaves_subset l hl) k hk

/-! ## Reachable trees -/

/-- **The tree in order has the representation invariant.** -/
theorem TreeOk.repInv (ok : TreeOk F t h) : RepInv F t := by
  have hshape := ok.shape
  have hbelow : ∀ q, Below t.heap t.root q ↔ q ∈ nodes t.heap h t.root := fun q => hshape.below_iff
  refine ⟨?_, ?_, ?_, ⟨h, fun d q hq => hshape.depth hq⟩, ?_, ?_, ?_, ?_, ?_⟩
  · intro q hq
    obtain ⟨h', m', lo', hi', hsub, -⟩ := hshape.sub ((hbelow q).mp hq)
    exact hsub.node.1
  · intro q hq hleaf
    obtain ⟨h', m', lo', hi', hsub, -⟩ := hshape.sub ((hbelow q).mp hq)
    exact (hsub.node.2.2 hleaf).1
  · intro p hp i c hc q hq k hk
    obtain ⟨h', m', lo', hi', hsub, -⟩ := hshape.sub ((hbelow p).mp hp)
    exact hsub.bounds hc hq hk
  · intro q hq
    obtain ⟨h', m', lo', hi', hsub, -⟩ := hshape.sub ((hbelow q).mp hq)
    exact hsub.node.2.1
  · intro q hq hne hleaf
    obtain ⟨h', m', lo', hi', hsub, hm'⟩ := hshape.sub ((hbelow q).mp hq)
    rw [← hm' hne]
    exact (hsub.node.2.2 hleaf).2
  · intro q
    rw [hbelow, ok.perm.mem_iff, List.mem_range]
  · obtain ⟨ds, hds, hperm⟩ := freeSubtree_perm hshape ok.height_lt
    exact ⟨ds, hds, hperm.trans ok.perm⟩
  · obtain ⟨l, hl, hhead⟩ := leftmost_eq hshape ok.height_lt
    obtain ⟨ls, hls⟩ : ∃ ls, leaves t.heap h t.root = l :: ls := List.head?_eq_some_iff.mp hhead
    have hsub : (l :: ls).Sublist (nodes t.heap h t.root) := hls ▸ leaves_sublist
    have hlen : ls.length < t.alloc := by
      have hle := hsub.length_le
      rwa [ok.perm.length_eq, List.length_range] at hle
    refine ⟨l, l :: ls, hl, followNext_eq (hls ▸ ok.chain) hlen, ok.nodup.sublist hsub, ?_, ?_⟩
    · intro q
      rw [hbelow, ← hls]
      exact hshape.mem_leaves
    · rw [← hls]
      exact hshape.keys_sorted

/-- **Every tree that calls make has the representation invariant.**  The calls are any that
return; a `put` fails only where its path does not fit into `held`. -/
theorem repInv_of_runCalls (hF : F ≤ 65535) (hpos : 1 ≤ F) (cs : List (Call K V)) {t : Tree K V}
    {rs : List (MapRes V)} (hrun : runCalls F Tree.empty cs = some (t, rs)) : RepInv F t := by
  obtain ⟨h, holds⟩ := holds_of_runCalls hF hpos holds_empty hrun
  exact holds.repInv

end

/-- Puts of smaller and smaller keys. -/
def descending (n : Nat) : List (Call Nat Nat) :=
  (List.range n).map fun i => .put (100 - i) i

/-- With fan-out 1 each put of a key below all others splits every node of its path.  After 34
of them the tree is higher than `MAX_HEIGHT`, and puts of large keys still return. -/
theorem repInv_of_descending :
    ∃ t rs, runCalls 1 Tree.empty (descending 34 ++ [.put 200 0, .remove 99, .put 99 1]) =
      some (t, rs) ∧ RepInv 1 t ∧ maxHeight < t.height := by
  have hsome : ((runCalls 1 Tree.empty (descending 34 ++
      [.put 200 0, .remove 99, .put 99 1])).any fun r => maxHeight < r.1.height) = true := by
    decide +kernel
  obtain ⟨⟨t, rs⟩, hrun, hhigh⟩ := (Option.any_eq_true _ _).mp hsome
  exact ⟨t, rs, hrun, repInv_of_runCalls (by decide) le_rfl _ hrun, of_decide_eq_true hhigh⟩

end BptreeIndex
