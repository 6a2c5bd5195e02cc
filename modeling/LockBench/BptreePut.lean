import LockBench.BptreeShape

/-!
# `put` as a recursion over the tree

`put` goes down with a stack of held ancestors and comes back up along the stack.
`insertBelow` is the same insertion as a recursion: into the child that the key
belongs to, and then, if that child was split, into the node itself.  `Grown` says
what an insertion does to a row of trees, whatever their height: new nodes are added,
the key has its new value and every other key its old one, and the leaves still form
one chain.
-/

namespace BptreeIndex

section

variable {K V : Type}

/-- The trees in the place of the one at `p`. -/
def Outcome.parts (p : Ptr) : Outcome K → List Ptr
  | .done _ => [p]
  | .push _ right => [p, right]

/-- Whether the key was new. -/
def Outcome.inserted : Outcome K → Bool
  | .done inserted => inserted
  | .push _ _ => true

/-- What an insertion makes of a row of trees of height `h`. -/
structure Grown (h : Nat) (key : K) (val : V) (t : Tree K V) (ps : List Ptr) (t' : Tree K V)
    (ps' : List Ptr) : Prop where
  root : t'.root = t.root
  perm : ∃ k, t'.alloc = t.alloc + k ∧ (ps'.flatMap (nodes t'.heap h)).Perm
    (ps.flatMap (nodes t.heap h) ++ List.range' t.alloc k)
  frame : ∀ q < t.alloc, q ∉ ps.flatMap (nodes t.heap h) → t'.heap q = t.heap q
  mem : ∀ e, e ∈ entriesOf t'.heap (ps'.flatMap (leaves t'.heap h)) ↔
    e = (key, val) ∨ (e ∈ entriesOf t.heap (ps.flatMap (leaves t.heap h)) ∧ e.1 ≠ key)
  chain : ∀ fin, Chain t.heap (ps.flatMap (leaves t.heap h)) fin →
    Chain t'.heap (ps'.flatMap (leaves t'.heap h)) fin
  head : (ps'.flatMap (leaves t'.heap h)).head? = (ps.flatMap (leaves t.heap h)).head?

variable {h : Nat} {key : K} {val : V} {t t₁ t₂ : Tree K V}

theorem Grown.alloc_le {ps ps' : List Ptr} (g : Grown h key val t ps t₁ ps') :
    t.alloc ≤ t₁.alloc := by
  obtain ⟨k, hk, -⟩ := g.perm
  omega

/-- The nodes after an insertion are allocated and pairwise distinct, if they were. -/
theorem Grown.fresh {ps ps' : List Ptr} (g : Grown h key val t ps t₁ ps')
    (hnodup : (ps.flatMap (nodes t.heap h)).Nodup)
    (hlt : ∀ q ∈ ps.flatMap (nodes t.heap h), q < t.alloc) :
    (ps'.flatMap (nodes t₁.heap h)).Nodup ∧
      (∀ q ∈ ps'.flatMap (nodes t₁.heap h), q < t₁.alloc) ∧
      ∀ q ∈ ps'.flatMap (nodes t₁.heap h), q < t.alloc → q ∈ ps.flatMap (nodes t.heap h) := by
  obtain ⟨k, hk, hperm⟩ := g.perm
  refine ⟨hperm.nodup_iff.mpr ?_, fun q hq => ?_, fun q hq hqlt => ?_⟩
  · refine List.nodup_append.mpr ⟨hnodup, List.nodup_range', fun a ha b hb => ?_⟩
    exact ((hlt a ha).trans_le (List.mem_range'_1.mp hb).1).ne
  · rcases List.mem_append.mp (hperm.mem_iff.mp hq) with hq | hq
    · exact (hlt q hq).trans_le g.alloc_le
    · exact (List.mem_range'_1.mp hq).2.trans_eq hk.symm
  · rcases List.mem_append.mp (hperm.mem_iff.mp hq) with hq | hq
    · exact hq
    · exact absurd hqlt (List.mem_range'_1.mp hq).1.not_gt

/-- An insertion into one tree of a row. -/
theorem Grown.context {c : Ptr} {cs xs ys : List Ptr} (g : Grown h key val t [c] t₁ cs)
    (hsame : ∀ q ∈ xs ++ ys, ∀ r ∈ nodes t.heap h q, t₁.heap r = t.heap r)
    (hkey : ∀ q ∈ xs ++ ys, ∀ e ∈ entriesOf t.heap (leaves t.heap h q), e.1 ≠ key) :
    Grown h key val t (xs ++ c :: ys) t₁ (xs ++ (cs ++ ys)) := by
  have hleaves : ∀ zs : List Ptr, (∀ q ∈ zs, q ∈ xs ++ ys) →
      zs.flatMap (leaves t₁.heap h) = zs.flatMap (leaves t.heap h) := fun zs hzs =>
    List.flatMap_congr fun q hq => leaves_congr (hsame q (hzs q hq))
  have hnodes : ∀ zs : List Ptr, (∀ q ∈ zs, q ∈ xs ++ ys) →
      zs.flatMap (nodes t₁.heap h) = zs.flatMap (nodes t.heap h) := fun zs hzs =>
    List.flatMap_congr fun q hq => nodes_congr (hsame q (hzs q hq))
  have hheap : ∀ zs : List Ptr, (∀ q ∈ zs, q ∈ xs ++ ys) →
      ∀ l ∈ zs.flatMap (leaves t.heap h), t₁.heap l = t.heap l := by
    intro zs hzs l hl
    obtain ⟨q, hq, hl⟩ := List.mem_flatMap.mp hl
    exact hsame q (hzs q hq) l (leaves_subset l hl)
  have hx : ∀ q ∈ xs, q ∈ xs ++ ys := fun q => List.mem_append_left ys
  have hy : ∀ q ∈ ys, q ∈ xs ++ ys := fun q => List.mem_append_right xs
  refine ⟨g.root, ?_, ?_, ?_, ?_, ?_⟩
  · obtain ⟨k, hk, hperm⟩ := g.perm
    refine ⟨k, hk, ?_⟩
    simp only [List.flatMap_append, List.flatMap_cons, List.flatMap_nil, List.append_nil,
      hnodes xs hx, hnodes ys hy] at hperm ⊢
    rw [List.append_assoc, List.append_assoc]
    refine List.Perm.append_left _ ((hperm.append_right _).trans ?_)
    rw [List.append_assoc]
    exact List.perm_append_comm.append_left _
  · intro q hq hnot
    refine g.frame q hq fun hc => hnot ?_
    simp only [List.flatMap_append, List.flatMap_cons, List.flatMap_nil, List.append_nil,
      List.mem_append] at hc ⊢
    exact .inr (.inl hc)
  · intro e
    have hne : ∀ zs : List Ptr, (∀ q ∈ zs, q ∈ xs ++ ys) →
        e ∈ entriesOf t.heap (zs.flatMap (leaves t.heap h)) → e.1 ≠ key := by
      intro zs hzs he
      obtain ⟨l, hl, he⟩ := List.mem_flatMap.mp he
      obtain ⟨q, hq, hl⟩ := List.mem_flatMap.mp hl
      exact hkey q (hzs q hq) e (List.mem_flatMap.mpr ⟨l, hl, he⟩)
    have hmem := g.mem e
    simp only [List.flatMap_append, List.flatMap_cons, List.flatMap_nil, List.append_nil,
      entriesOf_append, List.mem_append, hleaves xs hx, hleaves ys hy, entriesOf_congr (hheap xs hx),
      entriesOf_congr (hheap ys hy)] at hmem ⊢
    rw [hmem]
    have hnx := hne xs hx
    have hny := hne ys hy
    tauto
  · intro fin hchain
    simp only [List.flatMap_append, List.flatMap_cons, chain_append, hleaves xs hx,
      hleaves ys hy] at hchain ⊢
    obtain ⟨hcx, hcc, hcy⟩ := hchain
    have hg := g.chain (((ys.flatMap (leaves t.heap h)).head?).or fin)
    have hhead := g.head
    simp only [List.flatMap_cons, List.flatMap_nil, List.append_nil] at hg hhead
    refine ⟨?_, hg hcc, hcy.congr (hheap ys hy)⟩
    rw [List.head?_append, hhead, ← List.head?_append]
    exact hcx.congr (hheap xs hx)
  · have hhead := g.head
    simp only [List.flatMap_append, List.flatMap_cons, List.flatMap_nil, List.append_nil,
      List.head?_append, hleaves xs hx, hleaves ys hy] at hhead ⊢
    rw [hhead]

/-- An insertion below a node, seen at the node: what happens to the node itself
changes no leaf. -/
theorem Grown.lift {p : Ptr} {cs ps : List Ptr} {k : Nat}
    (g : Grown h key val t (t.heap p).children t₁ cs) (hroot : t₂.root = t₁.root)
    (halloc : t₂.alloc = t₁.alloc + k)
    (hheap : ∀ q < t₁.alloc, q ≠ p → t₂.heap q = t₁.heap q)
    (hcs : ∀ q ∈ cs.flatMap (nodes t₁.heap h), q ≠ p ∧ q < t₁.alloc)
    (hnodes : (ps.flatMap (nodes t₂.heap (h + 1))).Perm
      (p :: cs.flatMap (nodes t₁.heap h) ++ List.range' t₁.alloc k))
    (hleaves : ps.flatMap (leaves t₂.heap (h + 1)) = cs.flatMap (leaves t₁.heap h)) :
    Grown (h + 1) key val t [p] t₂ ps := by
  have hsame : ∀ l ∈ cs.flatMap (leaves t₁.heap h), t₂.heap l = t₁.heap l := by
    intro l hl
    obtain ⟨q, hq, hl⟩ := List.mem_flatMap.mp hl
    obtain ⟨hne, hlt⟩ := hcs l (List.mem_flatMap.mpr ⟨q, hq, leaves_subset l hl⟩)
    exact hheap l hlt hne
  have hp : ([p] : List Ptr).flatMap (leaves t.heap (h + 1)) =
      (t.heap p).children.flatMap (leaves t.heap h) := by
    simp [leaves]
  refine ⟨hroot.trans g.root, ?_, ?_, ?_, ?_, ?_⟩
  · obtain ⟨k₁, hk₁, hperm⟩ := g.perm
    refine ⟨k₁ + k, by omega, hnodes.trans ?_⟩
    simp only [List.flatMap_cons, List.flatMap_nil, List.append_nil, nodes, List.cons_append]
    refine .cons p ((hperm.append_right _).trans ?_)
    rw [hk₁, List.append_assoc, List.range'_append_1]
  · intro q hq hnot
    simp only [List.flatMap_cons, List.flatMap_nil, List.append_nil, nodes, List.mem_cons,
      not_or] at hnot
    rw [hheap q (hq.trans_le g.alloc_le) hnot.1]
    exact g.frame q hq hnot.2
  · rw [hleaves, hp, entriesOf_congr hsame]
    exact g.mem
  · rw [hleaves, hp]
    exact fun fin hchain => (g.chain fin hchain).congr hsame
  · rw [hleaves, hp]
    exact g.head

variable [LinearOrder K] {F m : Nat} {lo : WithBot K} {hi : WithTop K} {p : Ptr}

/-- The shape after an insertion: one tree, or two with a separator between them. -/
def ShapeAfter (F : Nat) (heap : Ptr → Node K V) (h m : Nat) (lo : WithBot K) (hi : WithTop K)
    (p : Ptr) : Outcome K → Prop
  | .done _ => Shape F heap h m lo hi p
  | .push sep right => lo < sep ∧ (sep : WithTop K) < hi ∧ Shape F heap h (F / 2) lo sep p ∧
      Shape F heap h (F / 2) sep hi right

/-- What an insertion at `p` does, all together. -/
structure Inserted (F h m : Nat) (lo : WithBot K) (hi : WithTop K) (key : K) (val : V)
    (t : Tree K V) (p : Ptr) (t' : Tree K V) (out : Outcome K) : Prop where
  grown : Grown h key val t [p] t' (out.parts p)
  shape : ShapeAfter F t'.heap h m lo hi p out
  inserted : out.inserted = true ↔ ∀ e ∈ entriesOf t.heap (leaves t.heap h p), e.1 ≠ key
  safe : (t.heap p).n < F → ∃ b, out = .done b

/-- A leaf stored in the place of another with the same successor. -/
theorem Grown.of_leaf {es es' : List (K × V)} {next : Option Ptr} (hp : t.heap p = .leaf es next)
    (hput : PutOk es key val es') : Grown 0 key val t [p] (t.set p (.leaf es' next)) [p] := by
  have hself : (t.set p (.leaf es' next)).heap p = .leaf es' next := Function.update_self ..
  refine ⟨rfl, ⟨0, rfl, by simp [nodes]⟩, ?_, ?_, ?_, rfl⟩
  · intro q _ hnot
    simp only [List.flatMap_cons, List.flatMap_nil, List.append_nil, nodes, List.mem_singleton] at hnot
    exact Function.update_of_ne hnot ..
  · intro e
    simpa [leaves, entriesOf, hself, hp, Node.entries] using hput.mem e
  · intro fin hchain
    simpa [leaves, Chain, hself, hp, Node.nextLeaf] using hchain

/-- A leaf cut in two. -/
theorem Grown.of_split {es l r : List (K × V)} {next : Option Ptr} (hp : t.heap p = .leaf es next)
    (hlt : p < t.alloc) (hput : PutOk es key val (l ++ r)) :
    Grown 0 key val t [p] ((t.new (.leaf r next)).set p (.leaf l (some t.alloc))) [p, t.alloc] := by
  have hself : ((t.new (.leaf r next)).set p (.leaf l (some t.alloc))).heap p =
      .leaf l (some t.alloc) := Function.update_self ..
  have hnew : ((t.new (.leaf r next)).set p (.leaf l (some t.alloc))).heap t.alloc =
      .leaf r next := by
    simp [Tree.set, Tree.new, Function.update_of_ne hlt.ne']
  refine ⟨rfl, ⟨1, rfl, by simp [nodes]⟩, ?_, ?_, ?_, rfl⟩
  · intro q hq hnot
    simp only [List.flatMap_cons, List.flatMap_nil, List.append_nil, nodes, List.mem_singleton] at hnot
    simp only [Tree.set, Tree.new, Function.update_of_ne hnot, Function.update_of_ne hq.ne]
  · intro e
    simpa [leaves, entriesOf, hself, hnew, hp, Node.entries] using hput.mem e
  · intro fin hchain
    simpa [leaves, Chain, hself, hnew, hp, Node.nextLeaf] using hchain

/-- **The leaf's part of a `put`.** -/
theorem leafPut_spec (hF : F ≤ 65535) (hpos : 1 ≤ F) (hshape : Shape F t.heap 0 m lo hi p)
    (hkey : InRange lo hi key) (hlt : p < t.alloc) (val : V) :
    ∃ t' out, leafPut F t p key val = some (t', out) ∧ Inserted F 0 m lo hi key val t p t' out := by
  obtain ⟨es, next, hp, hsorted, hin, hlen⟩ := hshape
  have hentries : entriesOf t.heap (leaves t.heap 0 p) = es := by
    simp [leaves, entriesOf, hp, Node.entries]
  have hn : (t.heap p).n = es.length := by simp [Node.n, Node.keys, hp]
  have hrange : ∀ es', PutOk es key val es' → ∀ e ∈ es', InRange lo hi e.1 := by
    intro es' hput e he
    rcases (hput.mem e).mp he with rfl | ⟨he, -⟩
    · exact hkey
    · exact hin e he
  have hstore : ∀ es' b, PutOk es key val es' → es'.length ≤ F →
      (b = true ↔ ∀ e ∈ es, e.1 ≠ key) →
      Inserted F 0 m lo hi key val t p (t.set p (.leaf es' next)) (.done b) := by
    intro es' b hput hlen' hb
    refine ⟨.of_leaf hp hput, ?_, by rw [hentries]; exact hb, fun _ => ⟨b, rfl⟩⟩
    exact ⟨es', next, Function.update_self .., hput.sorted, hrange es' hput, hlen'⟩
  unfold leafPut
  simp only [hp]
  by_cases hfull : es.length < F
  · obtain ⟨hput, hlen', hb⟩ := leafInsertOrUpdate_spec hF hsorted hfull key val
    simp only [if_pos hfull]
    exact ⟨_, _, rfl, hstore _ _ hput hlen' hb⟩
  · simp only [if_neg hfull]
    cases hfind : leafFindExact es key with
    | some i =>
        obtain ⟨xs, v, ys, rfl, rfl⟩ := leafFindExact_eq_some hfind
        refine ⟨_, _, rfl, hstore _ _ ?_ ?_ ?_⟩
        · rw [setVal_append]
          exact .of_update hsorted
        · rw [setVal_append]
          simpa using hlen
        · simp only [Bool.false_eq_true, false_iff]
          exact fun hne => hne (key, v) (by simp) rfl
    | none =>
        have hne := leafFindExact_eq_none.mp hfind
        obtain ⟨l, r, sep, hsplit, hput, hllen, hrlen, ⟨a, ha, hasep⟩, ⟨b, hb, rfl⟩, hl, hr⟩ :=
          splitLeaf_spec hF hpos hsorted (by omega) hne val
        have hleft : ∀ e ∈ l, InRange lo hi e.1 := fun e he =>
          hrange _ hput e (List.mem_append_left r he)
        have hright : ∀ e ∈ r, InRange lo hi e.1 := fun e he =>
          hrange _ hput e (List.mem_append_right l he)
        have hsort := hput.sorted
        rw [List.map_append, List.pairwise_append] at hsort
        simp only [hsplit]
        refine ⟨_, _, rfl, .of_split hp hlt hput, ⟨?_, (hright b hb).2, ?_, ?_⟩, ?_, ?_⟩
        · exact (hleft a ha).1.trans_lt (WithBot.coe_lt_coe.mpr hasep)
        · exact ⟨l, some t.alloc, Function.update_self .., hsort.1, fun e he =>
            ⟨(hleft e he).1, WithTop.coe_lt_coe.mpr (hl e he)⟩, hllen⟩
        · refine ⟨r, next, ?_, hsort.2.1, fun e he =>
            ⟨WithBot.coe_le_coe.mpr (hr e he), (hright e he).2⟩, hrlen⟩
          simp [Tree.set, Tree.new, Function.update_of_ne hlt.ne']
        · rw [hentries]
          exact ⟨fun _ => hne, fun _ => rfl⟩
        · exact fun hlt => absurd (hn ▸ hlt) hfull

/-- What a push into a node does to its row of children. -/
structure Pushed (F h m : Nat) (lo : WithBot K) (hi : WithTop K) (t : Tree K V) (p : Ptr)
    (cs : List Ptr) (t' : Tree K V) (out : Outcome K) (k : Nat) : Prop where
  root : t'.root = t.root
  alloc : t'.alloc = t.alloc + k
  frame : ∀ q < t.alloc, q ≠ p → t'.heap q = t.heap q
  perm : ((out.parts p).flatMap (nodes t'.heap (h + 1))).Perm
    (p :: cs.flatMap (nodes t.heap h) ++ List.range' t.alloc k)
  leaves : (out.parts p).flatMap (leaves t'.heap (h + 1)) = cs.flatMap (leaves t.heap h)
  shape : ShapeAfter F t'.heap (h + 1) m lo hi p out
  inserted : out.inserted = true
  safe : (t.heap p).n < F → ∃ b, out = .done b

/-- **One turn of the loop on the way up.** -/
theorem pushUp_spec (hF : F ≤ 65535) (hpos : 1 ≤ F) {c right : Ptr} {as bs : List (K × Ptr)}
    {sep : K} (hp : t.heap p = .internal ((as ++ bs).map Prod.fst) (c :: (as ++ bs).map Prod.snd))
    (hsorted : ((as ++ bs).map Prod.fst).Pairwise (· < ·)) (hlen : (as ++ bs).length ≤ F)
    (hm : m ≤ (as ++ bs).length) (has : ∀ a ∈ as, a.1 < sep) (hbs : ∀ b ∈ bs, sep < b.1)
    (hin : ∀ q ∈ as ++ (sep, right) :: bs, InRange lo hi q.1) (hplt : p < t.alloc)
    (hcs : ∀ q ∈ (c :: (as ++ (sep, right) :: bs).map Prod.snd).flatMap (nodes t.heap h),
      q ≠ p ∧ q < t.alloc)
    (hcells : Cells (Shape F t.heap h (F / 2)) hi lo c (as ++ (sep, right) :: bs)) :
    ∃ t' out k, pushUp F t p sep right = some (t', out) ∧
      Pushed F h m lo hi t p (c :: (as ++ (sep, right) :: bs).map Prod.snd) t' out k := by
  have hrow := (PutOk.of_insert right hsorted has hbs).sorted
  have hn : (t.heap p).n = (as ++ bs).length := by simp [Node.n, Node.keys, hp]
  -- A tree in which the children's own trees are as they were.
  have hkeep : ∀ t' : Tree K V, (∀ q < t.alloc, q ≠ p → t'.heap q = t.heap q) →
      ∀ q ∈ c :: (as ++ (sep, right) :: bs).map Prod.snd, ∀ r ∈ nodes t.heap h q,
        t'.heap r = t.heap r := by
    intro t' hframe q hq r hr
    obtain ⟨hne, hlt⟩ := hcs r (List.mem_flatMap.mpr ⟨q, hq, hr⟩)
    exact hframe r hlt hne
  unfold pushUp
  simp only [hp, List.length_map]
  by_cases hfull : (as ++ bs).length < F
  · simp only [if_pos hfull, internalInsert_spec hF c hfull has hbs right]
    generalize hrow' : as ++ (sep, right) :: bs = row at *
    have hframe : ∀ q < t.alloc, q ≠ p →
        (t.set p (.internal (row.map Prod.fst) (c :: row.map Prod.snd))).heap q = t.heap q :=
      fun q _ hq => Function.update_of_ne hq ..
    have hself : (t.set p (.internal (row.map Prod.fst) (c :: row.map Prod.snd))).heap p =
        .internal (row.map Prod.fst) (c :: row.map Prod.snd) := Function.update_self ..
    have hsame := hkeep _ hframe
    have hrowlen : row.length = (as ++ bs).length + 1 := by
      rw [← hrow']
      simp
      omega
    refine ⟨_, _, 0, rfl, rfl, rfl, hframe, ?_, ?_, ?_, rfl, fun _ => ⟨true, rfl⟩⟩
    · simp only [Outcome.parts, List.flatMap_cons, List.flatMap_nil, List.append_nil, nodes, hself,
        Node.children, List.range'_zero]
      rw [← List.flatMap_cons, ← List.flatMap_cons,
        List.flatMap_congr fun q hq => nodes_congr (hsame q hq)]
    · simp only [Outcome.parts, List.flatMap_cons, List.flatMap_nil, List.append_nil, leaves, hself,
        Node.children]
      rw [← List.flatMap_cons, ← List.flatMap_cons,
        List.flatMap_congr fun q hq => leaves_congr (hsame q hq)]
    · exact ⟨c, row, hself, hrow, hin, by omega, by omega,
        hcells.mono fun q hq lo hi hS => hS.congr (hsame q hq)⟩
  · obtain ⟨l, k, d, r, hcut, hlne, hlmin, hlmax, hrmin, hrmax, hsplit⟩ :=
      splitInternal_spec hF hpos c (by omega) has hbs right
    simp only [if_neg hfull, hsplit]
    rw [hcut] at hrow hin hkeep hcells ⊢
    have hframe : ∀ q < t.alloc, q ≠ p →
        ((t.new (.internal (r.map Prod.fst) (d :: r.map Prod.snd))).set p
          (.internal (l.map Prod.fst) (c :: l.map Prod.snd))).heap q = t.heap q := by
      intro q hq hne
      simp only [Tree.set, Tree.new, Function.update_of_ne hne, Function.update_of_ne hq.ne]
    have hself : ((t.new (.internal (r.map Prod.fst) (d :: r.map Prod.snd))).set p
        (.internal (l.map Prod.fst) (c :: l.map Prod.snd))).heap p =
        .internal (l.map Prod.fst) (c :: l.map Prod.snd) := Function.update_self ..
    have hnew : ((t.new (.internal (r.map Prod.fst) (d :: r.map Prod.snd))).set p
        (.internal (l.map Prod.fst) (c :: l.map Prod.snd))).heap t.alloc =
        .internal (r.map Prod.fst) (d :: r.map Prod.snd) := by
      simp [Tree.set, Tree.new, Function.update_of_ne hplt.ne']
    have hsame := hkeep _ hframe
    have hkids : c :: (l ++ (k, d) :: r).map Prod.snd = (c :: l.map Prod.snd) ++ (d :: r.map Prod.snd) := by
      simp
    have hleft : ∀ q ∈ c :: l.map Prod.snd, q ∈ c :: (l ++ (k, d) :: r).map Prod.snd := fun q hq =>
      hkids ▸ List.mem_append_left _ hq
    have hright : ∀ q ∈ d :: r.map Prod.snd, q ∈ c :: (l ++ (k, d) :: r).map Prod.snd := fun q hq =>
      hkids ▸ List.mem_append_right _ hq
    obtain ⟨hcl, hcr⟩ := Cells.append_iff.mp hcells
    simp only [List.map_append, List.map_cons, List.pairwise_append, List.pairwise_cons] at hrow
    obtain ⟨hlsorted, ⟨hkr, hrsorted⟩, hlk⟩ := hrow
    have hlt : ∀ q ∈ l, q.1 < k := fun q hq => hlk q.1 (List.mem_map_of_mem hq) k (.head _)
    have hk : InRange lo hi k := hin (k, d) (by simp)
    refine ⟨_, _, 1, rfl, rfl, rfl, hframe, ?_, ?_, ⟨?_, hk.2, ?_, ?_⟩, rfl, ?_⟩
    · rw [hkids, List.flatMap_append, Outcome.parts, List.flatMap_cons, List.flatMap_cons,
        List.flatMap_nil, List.append_nil]
      simp only [nodes, hself, hnew, Node.children]
      rw [List.flatMap_congr fun q hq => nodes_congr (hsame q (hleft q hq)),
        List.flatMap_congr fun q hq => nodes_congr (hsame q (hright q hq)), List.range'_one,
        List.cons_append, List.cons_append, List.append_assoc]
      exact .cons p (List.Perm.append_left _ (List.perm_append_singleton _ _).symm)
    · rw [hkids, List.flatMap_append, Outcome.parts, List.flatMap_cons, List.flatMap_cons,
        List.flatMap_nil, List.append_nil]
      simp only [leaves, hself, hnew, Node.children]
      rw [List.flatMap_congr fun q hq => leaves_congr (hsame q (hleft q hq)),
        List.flatMap_congr fun q hq => leaves_congr (hsame q (hright q hq))]
    · obtain ⟨q, hq⟩ := List.exists_mem_of_ne_nil l hlne
      exact (hin q (by simp [hq])).1.trans_lt (WithBot.coe_lt_coe.mpr (hlt q hq))
    · exact ⟨c, l, hself, hlsorted, fun q hq => ⟨(hin q (by simp [hq])).1,
        WithTop.coe_lt_coe.mpr (hlt q hq)⟩, hlmin, hlmax,
        hcl.mono fun q hq lo hi hS => hS.congr (hsame q (hleft q hq))⟩
    · exact ⟨d, r, hnew, hrsorted, fun q hq => ⟨WithBot.coe_le_coe.mpr
        (hkr q.1 (List.mem_map_of_mem hq)).le, (hin q (by simp [hq])).2⟩, hrmin, hrmax,
        hcr.mono fun q hq lo hi hS => hS.congr (hsame q (hright q hq))⟩
    · exact fun hlt => absurd (hn ▸ hlt) hfull

/-- The insertion as a recursion. -/
def insertBelow (F : Nat) (key : K) (val : V) : Nat → Tree K V → Ptr → Option (Tree K V × Outcome K)
  | 0, t, p => leafPut F t p key val
  | h + 1, t, p =>
      match t.heap p with
      | .leaf _ _ => none
      | .internal ks cs =>
          cs[upperSlot ks key]?.bind fun child =>
            (insertBelow F key val h t child).bind fun r =>
              match r.2 with
              | .done inserted => some (r.1, .done inserted)
              | .push sep right => pushUp F r.1 p sep right

section Row

variable {c c₀ : Ptr} {xs ys : List Ptr}

omit [LinearOrder K] in
/-- The trees of a row share no node. -/
theorem nodup_row (hnodup : ((xs ++ c :: ys).flatMap (nodes t.heap h)).Nodup) :
    (nodes t.heap h c).Nodup ∧ ∀ q ∈ xs ++ ys, ∀ r ∈ nodes t.heap h q, r ∉ nodes t.heap h c := by
  simp only [List.flatMap_append, List.flatMap_cons, List.nodup_append, List.mem_append,
    List.mem_flatMap] at hnodup
  obtain ⟨-, ⟨hc, -, hcy⟩, hxc⟩ := hnodup
  refine ⟨hc, fun q hq r hr hrc => ?_⟩
  rcases List.mem_append.mp hq with hq | hq
  · exact hxc r ⟨q, hq, hr⟩ r (.inl hrc) rfl
  · exact hcy r hrc r ⟨q, hq, hr⟩ rfl

omit [LinearOrder K] in
/-- A key that only one tree of a row can hold. -/
theorem absent_row_iff
    (hother : ∀ q ∈ xs ++ ys, ∀ e ∈ entriesOf t.heap (leaves t.heap h q), e.1 ≠ key) :
    (∀ e ∈ entriesOf t.heap ((xs ++ c :: ys).flatMap (leaves t.heap h)), e.1 ≠ key) ↔
      ∀ e ∈ entriesOf t.heap (leaves t.heap h c), e.1 ≠ key := by
  constructor
  · intro hall e he
    obtain ⟨l, hl, he⟩ := List.mem_flatMap.mp he
    exact hall e (List.mem_flatMap.mpr ⟨l, List.mem_flatMap.mpr ⟨c, by simp, hl⟩, he⟩)
  · intro hall e he
    obtain ⟨l, hl, he⟩ := List.mem_flatMap.mp he
    obtain ⟨q, hq, hl⟩ := List.mem_flatMap.mp hl
    have hq' : e ∈ entriesOf t.heap (leaves t.heap h q) := List.mem_flatMap.mpr ⟨l, hl, he⟩
    rcases List.mem_append.mp hq with hq | hq
    · exact hother q (List.mem_append_left ys hq) e hq'
    · rcases List.mem_cons.mp hq with rfl | hq
      · exact hall e hq'
      · exact hother q (List.mem_append_right xs hq) e hq'

omit [LinearOrder K] in
/-- The children when the split of one has pushed its right half up. -/
theorem row_push {as bs : List (K × Ptr)} (sep : K) (right : Ptr)
    (hparts : c₀ :: (as ++ bs).map Prod.snd = xs ++ c :: ys) (hlength : xs.length = as.length) :
    c₀ :: (as ++ (sep, right) :: bs).map Prod.snd =
      xs ++ (Outcome.parts c (.push sep right) ++ ys) := by
  have hparts : (c₀ :: as.map Prod.snd) ++ bs.map Prod.snd = (xs ++ [c]) ++ ys := by
    simpa using hparts
  obtain ⟨hleft, hright⟩ := List.append_inj hparts (by simp [hlength])
  calc c₀ :: (as ++ (sep, right) :: bs).map Prod.snd
      = (c₀ :: as.map Prod.snd) ++ right :: bs.map Prod.snd := by simp
    _ = xs ++ (Outcome.parts c (.push sep right) ++ ys) := by
      rw [hleft, hright]
      simp [Outcome.parts]

/-- The recursion at an internal node: what the child pushes up is inserted here. -/
theorem insertBelow_succ {ks : List K} {cs : List Ptr} (hp : t.heap p = .internal ks cs)
    (hget : cs[upperSlot ks key]? = some c) {val : V} {out : Outcome K}
    (hrun : insertBelow F key val h t c = some (t₁, out)) :
    (∀ b, out = .done b → insertBelow F key val (h + 1) t p = some (t₁, .done b)) ∧
      ∀ sep right, out = .push sep right →
        insertBelow F key val (h + 1) t p = pushUp F t₁ p sep right := by
  constructor
  · rintro b rfl
    simp only [insertBelow, hp, hget, Option.bind_some, hrun]
  · rintro sep right rfl
    simp only [insertBelow, hp, hget, Option.bind_some, hrun]

end Row

/-- **The insertion keeps the shape and changes the one entry.** -/
theorem insertBelow_spec (hF : F ≤ 65535) (hpos : 1 ≤ F) (hshape : Shape F t.heap h m lo hi p)
    (hkey : InRange lo hi key) (hnodup : (nodes t.heap h p).Nodup)
    (hlt : ∀ q ∈ nodes t.heap h p, q < t.alloc) (val : V) :
    ∃ t' out, insertBelow F key val h t p = some (t', out) ∧
      Inserted F h m lo hi key val t p t' out := by
  induction h generalizing p m lo hi with
  | zero => exact leafPut_spec hF hpos hshape hkey (hlt p (.head _)) val
  | succ h ih =>
      obtain ⟨c₀, ps, hp, hsorted, hin, hm, hlen, hcells⟩ := hshape
      obtain ⟨as, bs, rfl, hslot, has, hbs⟩ := upperSlot_split hsorted key
      obtain ⟨lo', hi', c, xs, ys, f⟩ := hcells.focus hsorted hkey has hbs hin
      have hchildren : (t.heap p).children = xs ++ c :: ys := by rw [hp, ← f.parts]; rfl
      have hget : (c₀ :: (as ++ bs).map Prod.snd)[as.length]? = some c := by
        rw [f.parts, ← f.length]
        simp
      -- The nodes of the tree: `p`, and those below its children.
      simp only [nodes, hchildren, List.nodup_cons] at hnodup
      have hbelow : ∀ q ∈ (xs ++ c :: ys).flatMap (nodes t.heap h), q < t.alloc := fun q hq =>
        hlt q (.tail _ (hchildren ▸ hq))
      have hplt : p < t.alloc := hlt p (.head _)
      have hmem : ∀ q ∈ xs ++ ys, ∀ r ∈ nodes t.heap h q, r ∈ (xs ++ c :: ys).flatMap (nodes t.heap h) :=
        fun q hq r hr => List.mem_flatMap.mpr ⟨q, by
          simp only [List.mem_append, List.mem_cons] at hq ⊢; tauto, hr⟩
      have hcmem : ∀ r ∈ nodes t.heap h c, r ∈ (xs ++ c :: ys).flatMap (nodes t.heap h) := fun r hr =>
        List.mem_flatMap.mpr ⟨c, by simp, hr⟩
      obtain ⟨hcnodup, hdisj⟩ := nodup_row hnodup.2
      obtain ⟨t₁, out, hrun, ins⟩ := ih f.part f.inRange hcnodup fun q hq => hbelow q (hcmem q hq)
      obtain ⟨hdone, hpushed⟩ := insertBelow_succ hp (hslot ▸ hget) hrun
      have hframe : ∀ r < t.alloc, r ∉ nodes t.heap h c → t₁.heap r = t.heap r := by
        intro r hr hnot
        refine ins.grown.frame r hr ?_
        simpa using hnot
      have hsame : ∀ q ∈ xs ++ ys, ∀ r ∈ nodes t.heap h q, t₁.heap r = t.heap r := fun q hq r hr =>
        hframe r (hbelow r (hmem q hq r hr)) (hdisj q hq r hr)
      have hother : ∀ q ∈ xs ++ ys, ∀ e ∈ entriesOf t.heap (leaves t.heap h q), e.1 ≠ key := by
        rintro q hq e he rfl
        obtain ⟨lo₁, hi₁, hS, hnot⟩ := f.others q hq
        exact hnot (hS.entries_inRange he)
      have g := ins.grown.context hsame hother
      have hp₁ : t₁.heap p = t.heap p := hframe p hplt fun hpc => hnodup.1 (hcmem p hpc)
      obtain ⟨-, hlt₁, hold⟩ := g.fresh hnodup.2 hbelow
      have hcs : ∀ q ∈ (xs ++ (out.parts c ++ ys)).flatMap (nodes t₁.heap h),
          q ≠ p ∧ q < t₁.alloc := by
        refine fun q hq => ⟨?_, hlt₁ q hq⟩
        rintro rfl
        exact hnodup.1 (hold q hq hplt)
      rw [← hchildren] at g
      have hnew : (∀ e ∈ entriesOf t.heap (leaves t.heap (h + 1) p), e.1 ≠ key) ↔
          ∀ e ∈ entriesOf t.heap (leaves t.heap h c), e.1 ≠ key := by
        rw [leaves, hchildren]
        exact absent_row_iff hother
      cases out with
      | done b =>
          refine ⟨t₁, .done b, hdone b rfl, ?_, ?_, ins.inserted.trans hnew.symm, fun _ => ⟨b, rfl⟩⟩
          · refine g.lift (k := 0) rfl rfl (fun _ _ _ => rfl) hcs ?_ ?_
            · simp [Outcome.parts, nodes, hp₁, hchildren]
            · simp [Outcome.parts, leaves, hp₁, hchildren]
          · exact ⟨c₀, as ++ bs, hp₁.trans hp, hsorted, hin, hm, hlen,
              f.keep _ (fun q hq lo hi hS => hS.congr (hsame q hq)) ins.shape⟩
      | push sep right =>
          obtain ⟨hlo, hhi, hleft, hright⟩ := ins.shape
          have hrow := row_push sep right f.parts f.length
          have hin' : ∀ q ∈ as ++ (sep, right) :: bs, InRange lo hi q.1 := by
            intro q hq
            simp only [List.mem_append, List.mem_cons] at hq
            rcases hq with hq | rfl | hq
            · exact hin q (List.mem_append_left _ hq)
            · exact ⟨f.lo_le.trans hlo.le, hhi.trans_le f.le_hi⟩
            · exact hin q (List.mem_append_right _ hq)
          obtain ⟨t₂, out, k, hpush, pushed⟩ := pushUp_spec hF hpos (hp₁.trans hp) hsorted hlen hm
            (fun a ha => WithBot.coe_lt_coe.mp ((f.above a ha).trans_lt hlo))
            (fun b hb => WithTop.coe_lt_coe.mp (hhi.trans_le (f.below b hb))) hin'
            (hplt.trans_le g.alloc_le) (hrow ▸ hcs)
            (f.cut _ sep right (fun q hq lo hi hS => hS.congr (hsame q hq)) hleft hright)
          refine ⟨t₂, out, (hpushed sep right rfl).trans hpush, ?_, pushed.shape, ?_, ?_⟩
          · refine g.lift pushed.root pushed.alloc pushed.frame hcs ?_ ?_
            · rw [← hrow]
              exact pushed.perm
            · rw [← hrow]
              exact pushed.leaves
          · rw [pushed.inserted, hnew, ← ins.inserted]
            rfl
          · rw [← hp₁]
            exact pushed.safe

/-! ## The stack of held nodes -/

/-- **The descent and the way back up are the recursion**, unless the path does not fit
into `held`.  The ancestors that were released at a node that is not full are not missed:
no split below it reaches them. -/
theorem putHeld_descend (hF : F ≤ 65535) (hpos : 1 ≤ F) (hshape : Shape F t.heap h m lo hi p)
    (hkey : InRange lo hi key) (hnodup : (nodes t.heap h p).Nodup)
    (hlt : ∀ q ∈ nodes t.heap h p, q < t.alloc) (val : V) {fuel : Nat} (hfuel : h < fuel)
    (anc : List Ptr) :
    (descend F t.heap key fuel (p :: anc) p).bind (putHeld F t key val) =
        (insertBelow F key val h t p).bind (fun r => propagate F r.1 r.2 p anc) ∨
      (descend F t.heap key fuel (p :: anc) p).bind (putHeld F t key val) = none ∧
        maxHeight < anc.length + h := by
  induction h generalizing p m lo hi fuel anc with
  | zero =>
      obtain ⟨es, next, hp, -⟩ := hshape
      obtain ⟨fuel, rfl⟩ := Nat.exists_eq_succ_of_ne_zero (Nat.ne_zero_of_lt hfuel)
      left
      simp only [descend, hp, Option.bind_some]
      rfl
  | succ h ih =>
      obtain ⟨fuel, rfl⟩ := Nat.exists_eq_succ_of_ne_zero (Nat.ne_zero_of_lt hfuel)
      obtain ⟨c₀, ps, hp, hsorted, hin, hm, hlen, hcells⟩ := hshape
      obtain ⟨as, bs, rfl, hslot, has, hbs⟩ := upperSlot_split hsorted key
      obtain ⟨lo', hi', c, xs, ys, f⟩ := hcells.focus hsorted hkey has hbs hin
      have hget : (c₀ :: (as ++ bs).map Prod.snd)[as.length]? = some c := by
        rw [f.parts, ← f.length]
        simp
      have hc : c ∈ (t.heap p).children := by
        rw [hp]
        exact List.mem_of_getElem? hget
      have hcnodup : (nodes t.heap h c).Nodup :=
        (List.nodup_flatMap.mp (List.nodup_cons.mp hnodup).2).1 c hc
      have hclt : ∀ q ∈ nodes t.heap h c, q < t.alloc := fun q hq => hlt q (mem_nodes_child hc hq)
      have hih := fun anc => ih f.part f.inRange hcnodup hclt (by omega : h < fuel) anc
      simp only [descend, insertBelow, hp, hslot, hget, Option.bind_some, hold]
      by_cases hsafe : (t.heap c).n < F
      · obtain ⟨t₁, out, hrun, ins⟩ :=
          insertBelow_spec hF hpos f.part f.inRange hcnodup hclt val
        obtain ⟨b, rfl⟩ := ins.safe hsafe
        simp only [hsafe, if_true, List.length_nil, Nat.zero_lt_succ, Option.bind_some, hrun,
          propagate]
        rcases hih [] with hstep | ⟨hnone, hlong⟩
        · left
          simpa only [hrun, Option.bind_some, propagate] using hstep
        · exact .inr ⟨hnone, by simp only [List.length_nil] at hlong; omega⟩
      · simp only [hsafe, if_false, List.length_cons]
        -- Either the child still fits into `held`, or the write is behind its end.
        by_cases hroom : anc.length + 1 < maxHeight + 1
        · rw [if_pos hroom, Option.bind_some]
          rcases hih (p :: anc) with hstep | ⟨hnone, hlong⟩
          · left
            rw [hstep, Option.bind_assoc]
            congr 1
            funext r
            obtain ⟨t₁, out⟩ := r
            cases out <;> simp only [propagate, Option.bind_some]
          · exact .inr ⟨hnone, by simp only [List.length_cons] at hlong; omega⟩
        · rw [if_neg hroom, Option.bind_none, Option.bind_none]
          exact .inr ⟨rfl, by omega⟩

/-! ## Whole trees -/

/-- The tree of height `h` that an index holds. -/
structure TreeOk (F : Nat) (t : Tree K V) (h : Nat) : Prop where
  shape : Shape F t.heap h 0 ⊥ ⊤ t.root
  perm : (nodes t.heap h t.root).Perm (List.range t.alloc)
  chain : Chain t.heap (leaves t.heap h t.root) none

/-- The entries of the tree. -/
def Tree.entries (t : Tree K V) (h : Nat) : List (K × V) :=
  entriesOf t.heap (leaves t.heap h t.root)

theorem TreeOk.nodup (ok : TreeOk F t h) : (nodes t.heap h t.root).Nodup :=
  ok.perm.nodup_iff.mpr List.nodup_range

theorem TreeOk.lt_alloc (ok : TreeOk F t h) : ∀ q ∈ nodes t.heap h t.root, q < t.alloc :=
  fun _ hq => List.mem_range.mp (ok.perm.mem_iff.mp hq)

theorem Shape.lt_length_nodes (hshape : Shape F t.heap h m lo hi p) :
    h < (nodes t.heap h p).length := by
  induction h generalizing m lo hi p with
  | zero => exact Nat.zero_lt_one
  | succ h ih =>
      obtain ⟨c, ps, hp, -⟩ := id hshape
      obtain ⟨lo₁, hi₁, hc, -⟩ := hshape.cell (c := c) (by rw [hp]; exact .head _)
      have := ih hc
      simp only [nodes, hp, Node.children, List.flatMap_cons, List.length_cons, List.length_append]
      omega

/-- The number of nodes is enough fuel for a path. -/
theorem TreeOk.height_lt (ok : TreeOk F t h) : h < t.alloc := by
  have hlen := ok.shape.lt_length_nodes
  rwa [ok.perm.length_eq, List.length_range] at hlen

omit [LinearOrder K] in
/-- The nodes behind a `put` are again all that were allocated. -/
theorem Grown.perm_range {ps : List Ptr} (g : Grown h key val t [p] t₁ ps)
    (hperm : (nodes t.heap h p).Perm (List.range t.alloc)) :
    (ps.flatMap (nodes t₁.heap h)).Perm (List.range t₁.alloc) := by
  obtain ⟨k, hk, hg⟩ := g.perm
  refine hg.trans ?_
  simp only [List.flatMap_cons, List.flatMap_nil, List.append_nil]
  refine (hperm.append_right _).trans ?_
  rw [hk, List.range_eq_range', List.range_eq_range']
  have := List.range'_append_1 (s := 0) (m := t.alloc) (n := k)
  rw [Nat.zero_add] at this
  rw [this]

/-- **The insertion and the root split** keep the tree in order and store the value under
the key. -/
theorem insertBelow_root_spec (hF : F ≤ 65535) (hpos : 1 ≤ F) (ok : TreeOk F t h) (key : K)
    (val : V) :
    ∃ t' b h', (insertBelow F key val h t t.root).bind
        (fun r => propagate F r.1 r.2 t.root []) = some (t', b) ∧ TreeOk F t' h' ∧
      (∀ e, e ∈ t'.entries h' ↔ e = (key, val) ∨ (e ∈ t.entries h ∧ e.1 ≠ key)) ∧
      (b = true ↔ ∀ e ∈ t.entries h, e.1 ≠ key) := by
  obtain ⟨t₁, out, hrun, ins⟩ :=
    insertBelow_spec hF hpos ok.shape (inRange_univ key) ok.nodup ok.lt_alloc val
  simp only [hrun, Option.bind_some]
  have hroot := ins.grown.root
  have hperm := ins.grown.perm_range ok.perm
  have hmem := ins.grown.mem
  have hchain := ins.grown.chain none
  have hinserted := ins.inserted
  have hshape := ins.shape
  cases out with
  | done b =>
      simp only [Outcome.parts, List.flatMap_cons, List.flatMap_nil, List.append_nil, ← hroot]
        at hperm hmem hchain
      refine ⟨t₁, b, h, by rw [propagate], ⟨?_, hperm, hchain ?_⟩, ?_, hinserted⟩
      · rw [hroot]
        exact hshape
      · rw [hroot]
        exact ok.chain
      · rw [Tree.entries, Tree.entries, ← hroot]
        exact hmem
  | push sep right =>
      obtain ⟨-, -, hleft, hright⟩ := hshape
      simp only [Outcome.parts] at hperm hmem hchain
      have hnew : (newRoot t₁ t.root sep right).heap t₁.alloc = .internal [sep] [t.root, right] :=
        Function.update_self ..
      -- The new root is above the two trees and changes nothing in them.
      have hsame : ∀ q ∈ [t.root, right], ∀ r ∈ nodes t₁.heap h q,
          (newRoot t₁ t.root sep right).heap r = t₁.heap r := by
        intro q hq r hr
        have hr : r < t₁.alloc :=
          List.mem_range.mp (hperm.mem_iff.mp (List.mem_flatMap.mpr ⟨q, hq, hr⟩))
        exact Function.update_of_ne hr.ne ..
      have hleaves : leaves (newRoot t₁ t.root sep right).heap (h + 1) t₁.alloc =
          [t.root, right].flatMap (leaves t₁.heap h) := by
        rw [leaves, hnew]
        exact List.flatMap_congr fun q hq => leaves_congr (hsame q hq)
      have hsameLeaf : ∀ l ∈ [t.root, right].flatMap (leaves t₁.heap h),
          (newRoot t₁ t.root sep right).heap l = t₁.heap l := by
        intro l hl
        obtain ⟨q, hq, hl⟩ := List.mem_flatMap.mp hl
        exact hsame q hq l (leaves_subset l hl)
      refine ⟨newRoot t₁ t.root sep right, true, h + 1, by rw [propagate], ⟨?_, ?_, ?_⟩, ?_,
        hinserted⟩
      · refine ⟨t.root, [(sep, right)], hnew, by simp, fun q _ => inRange_univ q.1, Nat.zero_le _,
          hpos, ?_⟩
        exact ⟨hleft.congr (hsame _ (.head _)), hright.congr (hsame _ (.tail _ (.head _)))⟩
      · change (nodes (newRoot t₁ t.root sep right).heap (h + 1) t₁.alloc).Perm
          (List.range (t₁.alloc + 1))
        rw [nodes, hnew, List.range_succ]
        change (t₁.alloc :: [t.root, right].flatMap _).Perm _
        rw [List.flatMap_congr fun q hq => nodes_congr (hsame q hq)]
        exact (hperm.cons _).trans (List.perm_append_singleton _ _).symm
      · change Chain (newRoot t₁ t.root sep right).heap
          (leaves (newRoot t₁ t.root sep right).heap (h + 1) t₁.alloc) none
        rw [hleaves]
        refine (hchain ?_).congr hsameLeaf
        simpa using ok.chain
      · change ∀ e, e ∈ entriesOf (newRoot t₁ t.root sep right).heap
          (leaves (newRoot t₁ t.root sep right).heap (h + 1) t₁.alloc) ↔ _
        rw [hleaves, entriesOf_congr hsameLeaf]
        simpa [Tree.entries] using hmem

/-- **`put`** returns, keeps the tree in order and stores the value under the key, unless the
path to the leaf does not fit into `held`. -/
theorem put_spec (hF : F ≤ 65535) (hpos : 1 ≤ F) (ok : TreeOk F t h) (key : K) (val : V) :
    (∃ t' b h', put F t key val = some (t', b) ∧ TreeOk F t' h' ∧
      (∀ e, e ∈ t'.entries h' ↔ e = (key, val) ∨ (e ∈ t.entries h ∧ e.1 ≠ key)) ∧
      (b = true ↔ ∀ e ∈ t.entries h, e.1 ≠ key)) ∨
    (put F t key val = none ∧ maxHeight < h) := by
  have hput := putHeld_descend hF hpos ok.shape (inRange_univ key) ok.nodup ok.lt_alloc val
    ok.height_lt []
  rw [List.length_nil, Nat.zero_add] at hput
  rcases hput with hput | hfail
  · left
    rw [put, hput]
    exact insertBelow_root_spec hF hpos ok key val
  · exact .inr hfail

end

end BptreeIndex
