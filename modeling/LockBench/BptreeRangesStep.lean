import LockBench.BptreeRanges

/-!
# The changes of a `bptree_index`, range by range

What `leaf_remove`, `leaf_insert_or_update`, `split_leaf`, `internal_insert`, `split_internal` and
the root split do to the levels and ranges.  A split leaves the new node pending at the parent, an
insertion puts it in its place.
-/

namespace BptreeCoupling

open BptreeIndex

section

variable {K V : Type} [LinearOrder K] {F : Nat} {g : Ranges K} {m : Tree K V}
  {pending pending' : Lock → List (K × Ptr)} {l parent : Lock} {c p q right : Ptr} {key sep : K}
  {ks : List K} {cs : List Ptr} {es es' : List (K × V)} {next : Option Ptr}

/-- **Frame.**  A node depends on its own range and on those of its children. -/
theorem NodeOk.congr {g' : Ranges K} {alloc alloc' : Nat} {ex : List (K × Ptr)} {x : Node K V}
    (h : NodeOk F g alloc l ex x) (hl : g.SameAt g' l) (halloc : alloc ≤ alloc')
    (hchild : ∀ d < alloc, g.Under (.node d) l → g.SameAt g' (.node d)) :
    NodeOk F g' alloc' l ex x := by
  cases x with
  | leaf es next => exact LeafOk.congr h hl
  | internal ks cs => exact ⟨h.1, h.2.congr hl halloc hchild⟩

namespace Grid

variable (h : Grid F g m pending)

include h

/-- One node gets other contents that suit its range. -/
theorem set {x : Node K V} (hx : NodeOk F g m.alloc (.node p) (pending' (.node p)) x)
    (hfull : ∀ ks cs, x = .internal ks cs →
      g.level (.node p) + 1 < g.level .latch ∨ pending .latch ≠ [] → F / 2 ≤ ks.length)
    (hnext : ∀ es nx, x = .leaf es nx → NextOk g m.alloc p nx)
    (hpending : ∀ l, l ≠ .node p → pending' l = pending l) :
    Grid F g (m.set p x) pending' where
  node q hq := by
    by_cases hqp : q = p
    · subst hqp
      simpa [Tree.set] using hx
    · have hne : Lock.node q ≠ .node p := fun heq => hqp (Lock.node.inj heq)
      rw [hpending _ hne]
      simpa [Tree.set, hqp] using h.node q hq
  root := by
    rw [hpending .latch (by simp)]
    exact h.root
  apart := h.apart
  below := h.below
  whole := h.whole
  top q hq hlevel := by
    rw [hpending .latch (by simp)]
    exact h.top q hq hlevel
  full q hq ks cs hheap hcond := by
    rw [hpending .latch (by simp)] at hcond
    by_cases hqp : q = p
    · subst hqp
      exact hfull ks cs (by simpa [Tree.set] using hheap) hcond
    · exact h.full q hq ks cs (by simpa [Tree.set, hqp] using hheap) hcond
  inhabited := h.inhabited
  next q hq es nx hheap := by
    by_cases hqp : q = p
    · subst hqp
      exact hnext es nx (by simpa [Tree.set] using hheap)
    · exact h.next q hq es nx (by simpa [Tree.set, hqp] using hheap)

/-- **A leaf gets other entries in its range.** -/
theorem setLeaf (hp : p < m.alloc) (hheap : m.heap p = .leaf es next)
    (hsorted : (es'.map Prod.fst).Pairwise (· < ·)) (hrange : ∀ e ∈ es', g.Has (.node p) e.1)
    (hlength : es'.length ≤ F) : Grid F g (m.set p (.leaf es' next)) pending := by
  refine h.set ⟨(h.leafOk hp hheap).level, hsorted, hrange, hlength⟩ (by simp) ?_ fun _ _ => rfl
  intro es₁ nx heq
  obtain ⟨-, rfl⟩ := Node.leaf.inj heq
  exact h.next p hp es next hheap

/-- **`internal_insert`.**  What was pending at the node is there now. -/
theorem insert (hF : F ≤ 65535) (hp : p < m.alloc) (hheap : m.heap p = .internal ks cs)
    (hpend : pending (.node p) = [(sep, right)]) (hlen : ks.length < F)
    (hdone : pending' (.node p) = []) (hpending : ∀ l, l ≠ .node p → pending' l = pending l) :
    Grid F g (m.set p (.internal (internalInsert ks cs sep right).1
      (internalInsert ks cs sep right).2)) pending' := by
  have hnode := h.node p hp
  rw [hheap, hpend] at hnode
  obtain ⟨-, c, as, bs, rfl, rfl, hrow⟩ := hnode
  have hsorted := hrow.sorted
  simp only [List.singleton_append, List.map_append, List.map_cons, List.pairwise_append,
    List.pairwise_cons] at hsorted
  have has : ∀ a ∈ as, a.1 < sep := fun a ha =>
    hsorted.2.2 a.1 (List.mem_map_of_mem ha) sep (.head _)
  have hbs : ∀ b ∈ bs, sep < b.1 := fun b hb => hsorted.2.1.1 b.1 (List.mem_map_of_mem hb)
  rw [List.length_map] at hlen
  rw [internalInsert_spec hF c hlen has hbs right]
  have hhalf := h.full p hp _ _ hheap
  have hgrown : ∀ ks' cs', Node.internal ((as ++ (sep, right) :: bs).map Prod.fst)
      (c :: (as ++ (sep, right) :: bs).map Prod.snd) = (.internal ks' cs' : Node K V) →
      g.level (.node p) + 1 < g.level .latch ∨ pending .latch ≠ [] → F / 2 ≤ ks'.length := by
    rintro ks' cs' heq hcond
    obtain ⟨rfl, -⟩ := Node.internal.inj heq
    have := hhalf hcond
    simp only [List.length_map, List.length_append, List.length_cons] at this ⊢
    omega
  refine h.set ⟨?_, c, as ++ (sep, right) :: bs, [], by simp, by simp, ?_⟩ hgrown (by simp) hpending
  · simp only [List.length_map, List.length_append, List.length_cons] at hlen ⊢
    omega
  · rw [hdone]
    simpa using hrow

/-- Another row when `c` is split under `parent`: only the parent has `c` in its row. -/
theorem rowOk_split (hc : c < m.alloc) (hparent : Allocated m parent)
    (hunder : g.Under (.node c) parent) (hkey : g.Has (.node c) key) {ex : List (K × Ptr)}
    (hl : Allocated m l) (hlc : l ≠ .node c) (hlp : l ≠ parent)
    (hrow : RowOk g m.alloc l ex ks cs) :
    RowOk (g.split c sep m.alloc) (m.alloc + 1) l ex ks cs := by
  have hfresh : ∀ l, Allocated m l → l ≠ .node m.alloc := by
    rintro l hl rfl
    exact absurd hl (lt_irrefl _)
  refine hrow.congr (Ranges.split_same hlc (hfresh l hl)) (Nat.le_succ _) fun d hd hunder' => ?_
  refine Ranges.split_same (fun heq => hlp ?_) (hfresh _ hd)
  obtain rfl := Lock.node.inj heq
  exact h.parent_eq hl hparent hkey hunder' hunder

/-- The row of the parent when `c` is split: the new node is pending. -/
theorem rowOk_parent (hc : c < m.alloc) (hparent : Allocated m parent)
    (hunder : g.Under (.node c) parent) (hkey : g.Has (.node c) key)
    (hlo : g.lo (.node c) < sep) (hhi : sep < g.hi (.node c))
    (hrow : RowOk g m.alloc parent [] ks cs) :
    RowOk (g.split c sep m.alloc) (m.alloc + 1) parent [(sep, m.alloc)] ks cs := by
  have hne : c ≠ m.alloc := hc.ne
  have hlevel := hunder.level
  obtain ⟨c₀, as, bs, rfl, rfl, hrow⟩ := hrow
  obtain ⟨as', bs', lo, hi, d, xs, ys, hps, -, hfocus⟩ := hrow.focus (hunder.has hkey)
  simp only [List.nil_append] at hps hrow
  have hmem : ∀ z ∈ xs ++ d :: ys, z < m.alloc ∧ g.Under (.node z) parent := fun z hz =>
    hrow.child (by rwa [hps, hfocus.parts])
  -- the child at the key's cell is `c`
  obtain rfl : d = c := by
    have hd : g.Has (.node d) key := by
      rw [Ranges.Has, hfocus.part.lo, hfocus.part.hi]
      exact hfocus.inRange
    refine h.eq_of_has (hmem d (by simp)).1 hc ?_ hd hkey
    have := hfocus.part.level
    omega
  have hpne : parent ≠ .node d ∧ parent ≠ .node m.alloc := by
    constructor
    · rintro rfl
      omega
    · rintro rfl
      exact absurd hparent (lt_irrefl _)
  have hsame := Ranges.split_same (g := g) (k := sep) hpne.1 hpne.2
  obtain ⟨hl1, hl2, hl3⟩ := Ranges.split_left (g := g) (k := sep) hne
  obtain ⟨hr1, hr2, hr3⟩ := Ranges.split_right (g := g) (k := sep) hne
  obtain ⟨rfl, rfl⟩ : lo = g.lo (.node d) ∧ hi = g.hi (.node d) :=
    ⟨hfocus.part.lo.symm, hfocus.part.hi.symm⟩
  have hsorted := hrow.sorted
  rw [hps, List.map_append, List.pairwise_append] at hsorted
  refine ⟨c₀, as', bs', by rw [hps], by rw [hps], ?_, ?_, ?_⟩
  · have has : ∀ a ∈ as', a.1 < sep := fun a ha =>
      WithBot.coe_lt_coe.mp ((hfocus.above a ha).trans_lt hlo)
    have hbs : ∀ b ∈ bs', sep < b.1 := fun b hb =>
      WithTop.coe_lt_coe.mp (hhi.trans_le (hfocus.below b hb))
    simp only [List.singleton_append, List.map_append, List.map_cons, List.pairwise_append,
      List.pairwise_cons]
    refine ⟨hsorted.1, ⟨fun k hk => ?_, hsorted.2.1⟩, fun k hk k' hk' => ?_⟩
    · obtain ⟨b, hb, rfl⟩ := List.mem_map.mp hk
      exact hbs b hb
    · rcases List.mem_cons.mp hk' with rfl | hk'
      · obtain ⟨a, ha, rfl⟩ := List.mem_map.mp hk
        exact has a ha
      · exact hsorted.2.2 k hk k' hk'
  · intro r hr
    rw [hsame.has]
    simp only [List.singleton_append, List.mem_append, List.mem_cons] at hr
    rcases hr with hr | rfl | hr
    · exact hrow.inRange r (by rw [hps]; simp [hr])
    · exact ⟨hunder.lo.trans hlo.le, hhi.trans_le hunder.hi⟩
    · exact hrow.inRange r (by rw [hps]; simp [hr])
  · rw [hsame.level, hsame.lo, hsame.hi]
    refine hfocus.cut _ sep m.alloc (fun z hz lo hi hok => ?_) ?_ ?_
    · have hzd : z ≠ d := by
        rintro rfl
        obtain ⟨lo₁, hi₁, hok₁, hout⟩ := hfocus.others z hz
        rw [← hok₁.lo, ← hok₁.hi] at hout
        exact hout hkey
      have hza := (hmem z (by simp only [List.mem_append, List.mem_cons] at hz ⊢; tauto)).1
      have hz' := Ranges.split_same (g := g) (c := d) (q := m.alloc) (k := sep) (l := .node z)
        (by simpa using hzd) (by simpa using hza.ne)
      exact ⟨hok.alloc.trans (Nat.lt_succ_self _), by rw [hz'.level, hok.level],
        by rw [hz'.lo, hok.lo], by rw [hz'.hi, hok.hi]⟩
    · exact ⟨hc.trans (Nat.lt_succ_self _), by rw [hl1, hlevel], hl2, hl3⟩
    · exact ⟨Nat.lt_succ_self _, by rw [hr1, hlevel], hr2, hr3⟩

end Grid

/-! ## A split -/

/-- Node `c` under `parent` is about to be cut at `sep`; the new node becomes pending there. -/
structure Cut (g : Ranges K) (m : Tree K V) (pending pending' : Lock → List (K × Ptr))
    (parent : Lock) (c : Ptr) (key sep : K) : Prop where
  old : c < m.alloc
  placed : Allocated m parent
  under : g.Under (.node c) parent
  covers : g.Has (.node c) key
  low : ∃ k < sep, g.Has (.node c) k
  high : sep < g.hi (.node c)
  free : pending parent = []
  above : pending' parent = [(sep, m.alloc)]
  other : ∀ l, l ≠ .node c → l ≠ .node m.alloc → l ≠ parent → pending' l = pending l

namespace Cut

omit [LinearOrder K] in
/-- What was allocated is not the new node. -/
theorem ne_new (hl : Allocated m l) : l ≠ .node m.alloc := by
  intro heq
  rw [heq] at hl
  exact absurd hl (lt_irrefl _)

omit [LinearOrder K] in
/-- The latch is not split. -/
theorem latch_same : g.SameAt (g.split c sep m.alloc) .latch :=
  Ranges.split_same (by simp) (by simp)

omit [LinearOrder K] in
/-- The other nodes keep what is in them. -/
theorem heap_old {xl xr : Node K V} (hp : p < m.alloc) (hpc : p ≠ c) :
    ((m.new xr).set c xl).heap p = m.heap p := by
  simp [Tree.set, Tree.new, hpc, hp.ne]

variable (hcut : Cut g m pending pending' parent c key sep)

include hcut

/-- The new node is another one. -/
theorem ne : c ≠ m.alloc :=
  hcut.old.ne

/-- The separator lies inside the range of `c`. -/
theorem lo_lt : g.lo (.node c) < sep := by
  obtain ⟨k, hk, hhas⟩ := hcut.low
  exact hhas.1.trans_lt (WithBot.coe_lt_coe.mpr hk)

/-- The nodes that were there stay on their levels. -/
theorem level_old (hp : p < m.alloc) :
    (g.split c sep m.alloc).level (.node p) = g.level (.node p) := by
  by_cases hpc : p = c
  · rw [hpc, (Ranges.split_left hcut.ne).1]
  · exact (Ranges.split_same (by simpa using hpc) (by simpa using hp.ne)).level

/-- A split below the latch leaves the latch alone. -/
theorem pending_latch (hlatch : parent ≠ .latch) : pending' .latch = pending .latch :=
  hcut.other .latch (by simp) (by simp) hlatch.symm

variable (h : Grid F g m pending)

include h

/-- With nothing pending at the latch the root alone is right below it. -/
theorem eq_root (hlatch : parent = .latch) (hp : p < m.alloc)
    (hlevel : g.level (.node p) + 1 = g.level .latch) : p = m.root := by
  rcases h.top p hp hlevel with hroot | ⟨s, hs⟩
  · exact hroot
  · rw [← hlatch, hcut.free] at hs
    cases hs

/-- A node right below the latch is split as the root. -/
theorem root (hlevel : g.level (.node c) + 1 = g.level .latch) :
    parent = .latch ∧ c = m.root := by
  have hparent : parent = .latch := by
    refine h.apart _ _ key hcut.placed trivial (by rw [← hlevel, hcut.under.level])
      (hcut.under.has hcut.covers) ?_
    rw [Ranges.Has, h.whole.1, h.whole.2]
    exact inRange_univ key
  exact ⟨hparent, hcut.eq_root h hparent hcut.old hlevel⟩

/-- **Every row but that of `c`.**  The parent's has the new node pending, the others have not
changed. -/
theorem row (hl : Allocated m l) (hlc : l ≠ .node c) (hrow : RowOk g m.alloc l (pending l) ks cs) :
    RowOk (g.split c sep m.alloc) (m.alloc + 1) l (pending' l) ks cs := by
  by_cases hlp : l = parent
  · subst hlp
    rw [hcut.free] at hrow
    rw [hcut.above]
    exact h.rowOk_parent hcut.old hl hcut.under hcut.covers hcut.lo_lt hcut.high hrow
  · rw [hcut.other l hlc (ne_new hl) hlp]
    exact h.rowOk_split hcut.old hcut.placed hcut.under hcut.covers hl hlc hlp hrow

/-- The nodes that are not split are as they should be. -/
theorem node_old (hp : p < m.alloc) (hpc : p ≠ c) :
    NodeOk F (g.split c sep m.alloc) (m.alloc + 1) (.node p) (pending' (.node p)) (m.heap p) := by
  have hnode := h.node p hp
  have hpne : Lock.node p ≠ .node c := fun heq => hpc (Lock.node.inj heq)
  cases hx : m.heap p with
  | leaf es next =>
      rw [hx] at hnode
      exact LeafOk.congr hnode (Ranges.split_same hpne (ne_new hp))
  | internal ks cs =>
      rw [hx] at hnode
      exact ⟨hnode.1, hcut.row h hp hpne hnode.2⟩

omit h in
/-- A key of the new node was one of `c`. -/
theorem has_old {xl xr : Node K V} {k : K} (hl : Allocated ((m.new xr).set c xl) l)
    (hk : (g.split c sep m.alloc).Has l k) :
    ∃ l₀, Allocated m l₀ ∧ (g.split c sep m.alloc).level l = g.level l₀ ∧ g.Has l₀ k ∧
      (l = l₀ ∧ (l = .node c → (k : WithTop K) < sep) ∨
        l = .node m.alloc ∧ l₀ = .node c ∧ (sep : WithBot K) ≤ k) := by
  obtain ⟨hl1, hl2, hl3⟩ := Ranges.split_left (g := g) (k := sep) hcut.ne
  obtain ⟨hr1, hr2, hr3⟩ := Ranges.split_right (g := g) (k := sep) hcut.ne
  by_cases hlq : l = .node m.alloc
  · subst hlq
    refine ⟨.node c, hcut.old, hr1, ?_, .inr ⟨rfl, rfl, ?_⟩⟩
    · rw [Ranges.Has, hr2, hr3] at hk
      exact hk.mono hcut.lo_lt.le le_rfl
    · rw [Ranges.Has, hr2] at hk
      exact hk.1
  · have hal : Allocated m l := by
      cases l with
      | latch => trivial
      | node p =>
          exact lt_of_le_of_ne (Nat.lt_succ_iff.mp hl) fun heq => hlq (congrArg _ heq)
    by_cases hlc : l = .node c
    · subst hlc
      rw [Ranges.Has, hl2, hl3] at hk
      exact ⟨.node c, hcut.old, hl1, hk.mono le_rfl hcut.high.le, .inl ⟨rfl, fun _ => hk.2⟩⟩
    · have hsame := Ranges.split_same (g := g) (k := sep) hlc hlq
      exact ⟨l, hal, hsame.level, hsame.has.mp hk, .inl ⟨rfl, fun h => absurd h hlc⟩⟩

/-- The ranges of one level stay apart. -/
theorem apart {xl xr : Node K V} {l' : Lock} {k : K} (hl : Allocated ((m.new xr).set c xl) l)
    (hl' : Allocated ((m.new xr).set c xl) l')
    (hlevel : (g.split c sep m.alloc).level l = (g.split c sep m.alloc).level l')
    (hk : (g.split c sep m.alloc).Has l k) (hk' : (g.split c sep m.alloc).Has l' k) : l = l' := by
  obtain ⟨l₀, ha, hlev, hhas, hcase⟩ := hcut.has_old hl hk
  obtain ⟨l₁, ha', hlev', hhas', hcase'⟩ := hcut.has_old hl' hk'
  have heq : l₀ = l₁ := h.apart l₀ l₁ k ha ha' (by rw [← hlev, ← hlev', hlevel]) hhas hhas'
  rcases hcase with ⟨rfl, hlt⟩ | ⟨rfl, rfl, hle⟩ <;>
    rcases hcase' with ⟨rfl, hlt'⟩ | ⟨rfl, rfl, hle'⟩
  · exact heq
  · exact absurd (WithTop.coe_lt_coe.mp (hlt heq)) (WithBot.coe_le_coe.mp hle').not_gt
  · exact absurd (WithTop.coe_lt_coe.mp (hlt' heq.symm)) (WithBot.coe_le_coe.mp hle).not_gt
  · rfl

/-- Every node stays below the latch. -/
theorem below (hp : p < m.alloc + 1) :
    (g.split c sep m.alloc).level (.node p) < (g.split c sep m.alloc).level .latch := by
  rw [latch_same.level]
  rcases Nat.lt_succ_iff_lt_or_eq.mp hp with hp | rfl
  · rw [hcut.level_old hp]
    exact h.below p hp
  · rw [(Ranges.split_right hcut.ne).1]
    exact h.below c hcut.old

/-- Right below the latch are the root and what a split of the root leaves pending. -/
theorem top (hp : p < m.alloc + 1)
    (hlevel : (g.split c sep m.alloc).level (.node p) + 1 = (g.split c sep m.alloc).level .latch) :
    p = m.root ∨ ∃ s, pending' .latch = [(s, p)] := by
  rw [latch_same.level] at hlevel
  rcases Nat.lt_succ_iff_lt_or_eq.mp hp with hp | rfl
  · rw [hcut.level_old hp] at hlevel
    by_cases hlatch : parent = .latch
    · exact .inl (hcut.eq_root h hlatch hp hlevel)
    · rw [hcut.pending_latch hlatch]
      exact h.top p hp hlevel
  · rw [(Ranges.split_right hcut.ne).1] at hlevel
    exact .inr ⟨sep, (hcut.root h hlevel).1 ▸ hcut.above⟩

/-- The other internal nodes stay half full. -/
theorem full_old (hp : p < m.alloc) (hpc : p ≠ c) (hheap : m.heap p = .internal ks cs)
    (hcond : (g.split c sep m.alloc).level (.node p) + 1 < (g.split c sep m.alloc).level .latch ∨
      pending' .latch ≠ []) : F / 2 ≤ ks.length := by
  rw [latch_same.level, hcut.level_old hp] at hcond
  refine h.full p hp ks cs hheap ?_
  by_cases hlatch : parent = .latch
  · refine .inl (lt_of_le_of_ne (h.below p hp) fun hlevel => hpc ?_)
    have hunder : g.level (.node c) + 1 = g.level .latch := by
      rw [← hlatch, hcut.under.level]
    rw [hcut.eq_root h hlatch hp hlevel, (hcut.root h hunder).2]
  · rwa [hcut.pending_latch hlatch] at hcond

/-- Every range still has a key. -/
theorem inhabited (hK : Nonempty K) (hp : p < m.alloc + 1) :
    ∃ k, (g.split c sep m.alloc).Has (.node p) k := by
  obtain ⟨-, hl2, hl3⟩ := Ranges.split_left (g := g) (k := sep) hcut.ne
  obtain ⟨-, hr2, hr3⟩ := Ranges.split_right (g := g) (k := sep) hcut.ne
  rcases Nat.lt_succ_iff_lt_or_eq.mp hp with hp | rfl
  · by_cases hpc : p = c
    · subst hpc
      obtain ⟨k, hk, hhas⟩ := hcut.low
      refine ⟨k, ?_⟩
      rw [Ranges.Has, hl2, hl3]
      exact ⟨hhas.1, WithTop.coe_lt_coe.mpr hk⟩
    · obtain ⟨k, hk⟩ := h.inhabited hK p hp
      exact ⟨k, (Ranges.split_same (by simpa using hpc) (by simpa using hp.ne)).has.mpr hk⟩
  · refine ⟨sep, ?_⟩
    rw [Ranges.Has, hr2, hr3]
    exact ⟨le_rfl, hcut.high⟩

omit h in
/-- A leaf's successor still begins where the leaf ends. -/
theorem next_old {p' : Ptr} {nx : Option Ptr} (hok : NextOk g m.alloc p nx)
    (hhi : (g.split c sep m.alloc).hi (.node p') = g.hi (.node p)) :
    NextOk (g.split c sep m.alloc) (m.alloc + 1) p' nx := by
  cases nx with
  | none => exact hhi.trans hok
  | some q =>
      obtain ⟨hq, hlevel, sep', hsep, hsep'⟩ := hok
      refine ⟨hq.trans (Nat.lt_succ_self _), (hcut.level_old hq).trans hlevel, sep',
        hhi.trans hsep, ?_⟩
      simpa [Ranges.split, hq.ne] using hsep'

end Cut

namespace Grid

variable (h : Grid F g m pending)

include h

/-- **A split.**  The new node takes the upper part of the range of `c` and is pending at the
parent. -/
theorem split {xl xr : Node K V} (hcut : Cut g m pending pending' parent c key sep)
    (hfull : ∀ ks cs, xl = .internal ks cs ∨ xr = .internal ks cs → F / 2 ≤ ks.length)
    (hnext : ∀ es nx, xl = .leaf es nx → nx = some m.alloc)
    (hnext' : ∀ es nx, xr = .leaf es nx → ∃ es', m.heap c = .leaf es' nx)
    (hl : NodeOk F (g.split c sep m.alloc) (m.alloc + 1) (.node c) [] xl)
    (hr : NodeOk F (g.split c sep m.alloc) (m.alloc + 1) (.node m.alloc) [] xr)
    (hleft : pending' (.node c) = []) (hright : pending' (.node m.alloc) = []) :
    Grid F (g.split c sep m.alloc) ((m.new xr).set c xl) pending' := by
  obtain ⟨hl1, -, hl3⟩ := Ranges.split_left (g := g) (k := sep) hcut.ne
  obtain ⟨hr1, hr2, hr3⟩ := Ranges.split_right (g := g) (k := sep) hcut.ne
  have hheapc : ((m.new xr).set c xl).heap c = xl := by simp [Tree.set, Tree.new]
  have hheapq : ((m.new xr).set c xl).heap m.alloc = xr := by
    simp [Tree.set, Tree.new, hcut.ne.symm]
  refine ⟨fun p hp => ?_, hcut.row h trivial (by simp) h.root,
    fun l l' k ha ha' => hcut.apart h ha ha', fun p hp => hcut.below h hp, ?_,
    fun p hp => hcut.top h hp, fun p hp ks cs hheap hcond => ?_,
    fun hK p hp => hcut.inhabited h hK hp, fun p hp es nx hheap => ?_⟩
  · rcases Nat.lt_succ_iff_lt_or_eq.mp hp with hp | rfl
    · by_cases hpc : p = c
      · subst hpc
        rwa [hleft, hheapc]
      · rw [Cut.heap_old hp hpc]
        exact hcut.node_old h hp hpc
    · rwa [hright, hheapq]
  · rw [Cut.latch_same.lo, Cut.latch_same.hi]
    exact h.whole
  · rcases Nat.lt_succ_iff_lt_or_eq.mp hp with hp | rfl
    · by_cases hpc : p = c
      · subst hpc
        exact hfull ks cs (.inl (hheapc.symm.trans hheap))
      · exact hcut.full_old h hp hpc ((Cut.heap_old hp hpc).symm.trans hheap) hcond
    · exact hfull ks cs (.inr (hheapq.symm.trans hheap))
  · rcases Nat.lt_succ_iff_lt_or_eq.mp hp with hp | rfl
    · by_cases hpc : p = c
      · subst hpc
        have hxl : xl = .leaf es nx := hheapc.symm.trans hheap
        obtain rfl := hnext es nx hxl
        rw [hxl] at hl
        exact ⟨Nat.lt_succ_self _, by rw [hr1, ← hl1]; exact LeafOk.level hl, sep, hl3, hr2⟩
      · refine hcut.next_old (h.next p hp es nx ((Cut.heap_old hp hpc).symm.trans hheap)) ?_
        exact (Ranges.split_same (by simpa using hpc) (by simpa using hp.ne)).hi
    · obtain ⟨es', hes'⟩ := hnext' es nx (hheapq.symm.trans hheap)
      exact hcut.next_old (h.next c hcut.old es' nx hes') hr3

/-- **`split_leaf`.** -/
theorem splitLeaf {lefts rights : List (K × V)} (hc : c < m.alloc)
    (hheap : m.heap c = .leaf es next) (hparent : Allocated m parent) (hunder : g.Under (.node c) parent)
    (hkey : g.Has (.node c) key) (hfree : pending parent = [])
    (hsorted : ((lefts ++ rights).map Prod.fst).Pairwise (· < ·))
    (hrange : ∀ e ∈ lefts ++ rights, g.Has (.node c) e.1)
    (hlen : lefts.length ≤ F) (hlen' : rights.length ≤ F) (hlow : ∃ e ∈ lefts, e.1 < sep)
    (hhigh : ∃ e ∈ rights, e.1 = sep) (hlefts : ∀ e ∈ lefts, e.1 < sep)
    (hrights : ∀ e ∈ rights, sep ≤ e.1)
    (hleft : pending' (.node c) = []) (hright : pending' (.node m.alloc) = [])
    (habove : pending' parent = [(sep, m.alloc)])
    (hother : ∀ l, l ≠ .node c → l ≠ .node m.alloc → l ≠ parent → pending' l = pending l) :
    Grid F (g.split c sep m.alloc)
      ((m.new (.leaf rights next)).set c (.leaf lefts (some m.alloc))) pending' := by
  have hne : c ≠ m.alloc := hc.ne
  obtain ⟨hl1, hl2, hl3⟩ := Ranges.split_left (g := g) (k := sep) hne
  obtain ⟨hr1, hr2, hr3⟩ := Ranges.split_right (g := g) (k := sep) hne
  have hleaf := h.leafOk hc hheap
  rw [List.map_append, List.pairwise_append] at hsorted
  have hlow' : ∃ k < sep, g.Has (.node c) k := by
    obtain ⟨e, he, hlt⟩ := hlow
    exact ⟨e.1, hlt, hrange e (List.mem_append_left _ he)⟩
  have hhi : sep < g.hi (.node c) := by
    obtain ⟨e, he, rfl⟩ := hhigh
    exact (hrange e (List.mem_append_right _ he)).2
  have hcut : Cut g m pending pending' parent c key sep :=
    ⟨hc, hparent, hunder, hkey, hlow', hhi, hfree, habove, hother⟩
  refine h.split hcut (by simp) ?_ ?_ ?_ ?_ hleft hright
  · intro es₁ nx heq
    exact (Node.leaf.inj heq).2.symm
  · intro es₁ nx heq
    obtain ⟨-, rfl⟩ := Node.leaf.inj heq
    exact ⟨es, hheap⟩
  · refine ⟨hl1.trans hleaf.level, hsorted.1, fun e he => ?_, hlen⟩
    rw [Ranges.Has, hl2, hl3]
    exact ⟨(hrange e (List.mem_append_left _ he)).1, WithTop.coe_lt_coe.mpr (hlefts e he)⟩
  · refine ⟨hr1.trans hleaf.level, hsorted.2.1, fun e he => ?_, hlen'⟩
    rw [Ranges.Has, hr2, hr3]
    exact ⟨WithBot.coe_le_coe.mpr (hrights e he), (hrange e (List.mem_append_right _ he)).2⟩

/-- **`split_internal`.**  What was pending at the node is in one of the halves, and the new half
is pending one level higher. -/
theorem splitInternal (hF : F ≤ 65535) (hpos : 1 ≤ F) (hc : c < m.alloc)
    (hheap : m.heap c = .internal ks cs) (hpend : pending (.node c) = [(sep, right)])
    (hfull : ¬ks.length < F) (hparent : Allocated m parent) (hunder : g.Under (.node c) parent)
    (hkey : g.Has (.node c) key) (hfree : pending parent = []) :
    ∃ lks lcs rks rcs k,
      BptreeIndex.splitInternal ks cs sep right = ((lks, lcs), (rks, rcs), some k) ∧
      ∀ pending' : Lock → List (K × Ptr), pending' (.node c) = [] →
        pending' (.node m.alloc) = [] → pending' parent = [(k, m.alloc)] →
        (∀ l, l ≠ .node c → l ≠ .node m.alloc → l ≠ parent → pending' l = pending l) →
        Grid F (g.split c k m.alloc)
          ((m.new (.internal rks rcs)).set c (.internal lks lcs)) pending' := by
  have hne : c ≠ m.alloc := hc.ne
  have hnode := h.node c hc
  rw [hheap, hpend] at hnode
  obtain ⟨hlen, c₀, as, bs, rfl, rfl, hrow⟩ := hnode
  have hsorted := hrow.sorted
  simp only [List.singleton_append, List.map_append, List.map_cons, List.pairwise_append,
    List.pairwise_cons] at hsorted
  have has : ∀ a ∈ as, a.1 < sep := fun a ha =>
    hsorted.2.2 a.1 (List.mem_map_of_mem ha) sep (.head _)
  have hbs : ∀ b ∈ bs, sep < b.1 := fun b hb => hsorted.2.1.1 b.1 (List.mem_map_of_mem hb)
  rw [List.length_map] at hlen hfull
  obtain ⟨lrow, k, d, rrow, hcut, hlne, hlhalf, hlF, hrhalf, hrF, hsplit⟩ :=
    splitInternal_spec hF hpos c₀ (le_antisymm hlen (not_lt.mp hfull)) has hbs right
  refine ⟨_, _, _, _, k, hsplit, fun pending' hleft hright habove hother => ?_⟩
  obtain ⟨hl1, hl2, hl3⟩ := Ranges.split_left (g := g) (k := k) hne
  obtain ⟨hr1, hr2, hr3⟩ := Ranges.split_right (g := g) (k := k) hne
  rw [List.singleton_append, hcut] at hrow
  have hord := hrow.sorted
  simp only [List.map_append, List.map_cons, List.pairwise_append, List.pairwise_cons] at hord
  obtain ⟨hlsorted, ⟨hkr, hrsorted⟩, hlk⟩ := hord
  have hlt : ∀ e ∈ lrow, e.1 < k := fun e he => hlk e.1 (List.mem_map_of_mem he) k (.head _)
  have hkin : g.Has (.node c) k := hrow.inRange (k, d) (by simp)
  obtain ⟨hlcells, hrcells⟩ := Cells.append_iff.mp hrow.cells
  have hlow : ∃ k' < k, g.Has (.node c) k' := by
    obtain ⟨e, he⟩ := List.exists_mem_of_ne_nil lrow hlne
    exact ⟨e.1, hlt e he, hrow.inRange e (by simp [he])⟩
  -- the children stay as they are
  have hchild : ∀ z lo hi, ChildOk g m.alloc (g.level (.node c)) lo hi z →
      ChildOk (g.split c k m.alloc) (m.alloc + 1) (g.level (.node c)) lo hi z := by
    intro z lo hi hok
    have hz : z ≠ c := by
      rintro rfl
      have := hok.level
      omega
    have hz' := Ranges.split_same (g := g) (c := c) (q := m.alloc) (k := k) (l := .node z)
      (by simpa using hz) (by simpa using hok.alloc.ne)
    exact ⟨hok.alloc.trans (Nat.lt_succ_self _), by rw [hz'.level, hok.level],
      by rw [hz'.lo, hok.lo], by rw [hz'.hi, hok.hi]⟩
  have hcut : Cut g m pending pending' parent c key k :=
    ⟨hc, hparent, hunder, hkey, hlow, hkin.2, hfree, habove, hother⟩
  refine h.split hcut ?_ (by simp) (by simp) ?_ ?_ hleft hright
  · rintro ks' cs' (heq | heq)
    · obtain ⟨rfl, -⟩ := Node.internal.inj heq
      simpa using hlhalf
    · obtain ⟨rfl, -⟩ := Node.internal.inj heq
      simpa using hrhalf
  · refine ⟨by simpa using hlF, c₀, lrow, [], by simp, by simp, ?_, fun e he => ?_, ?_⟩
    · simpa using hlsorted
    · have he : e ∈ lrow := by simpa using he
      rw [Ranges.Has, hl2, hl3]
      exact ⟨(hrow.inRange e (by simp [he])).1, WithTop.coe_lt_coe.mpr (hlt e he)⟩
    · rw [hl1, hl2, hl3]
      simpa using hlcells.mono fun z _ lo hi => hchild z lo hi
  · refine ⟨by simpa using hrF, d, rrow, [], by simp, by simp, ?_, fun e he => ?_, ?_⟩
    · simpa using hrsorted
    · have he : e ∈ rrow := by simpa using he
      rw [Ranges.Has, hr2, hr3]
      exact ⟨WithBot.coe_le_coe.mpr (hkr e.1 (List.mem_map_of_mem he)).le,
        (hrow.inRange e (by simp [he])).2⟩
    · rw [hr1, hr2, hr3]
      simpa using hrcells.mono fun z _ lo hi => hchild z lo hi

/-- **The root split.** -/
theorem newRoot (hpos : 1 ≤ F) (hpend : pending .latch = [(sep, right)])
    (hlatch : pending' .latch = []) (hnew : pending' (.node m.alloc) = [])
    (hother : ∀ l, l ≠ .latch → l ≠ .node m.alloc → pending' l = pending l) :
    Grid F (g.grow m.alloc) (newRoot m m.root sep right) pending' := by
  obtain ⟨hn1, hn2, hn3⟩ := Ranges.grow_new (g := g) (q := m.alloc)
  obtain ⟨ht1, ht2, ht3⟩ := Ranges.grow_latch (g := g) (q := m.alloc)
  have hsame : ∀ p < m.alloc, g.SameAt (g.grow m.alloc) (.node p) := fun p hp =>
    Ranges.grow_same (by simp) (by simpa using hp.ne)
  have hroot := h.root
  rw [hpend] at hroot
  obtain ⟨c₀, as, bs, hks, hcs, hrow⟩ := hroot
  obtain ⟨rfl, rfl⟩ : as = [] ∧ bs = [] := by
    rw [← List.append_eq_nil_iff, ← List.map_eq_nil_iff, ← hks]
  obtain rfl : c₀ = m.root := by simpa using hcs.symm
  have halloc : (BptreeIndex.newRoot m m.root sep right).alloc = m.alloc + 1 := rfl
  refine ⟨fun p hp => ?_, ?_, fun l l' k hl hl' hlevel hk hk' => ?_, fun p hp => ?_, ?_,
    fun p hp hlevel => ?_, fun p hp ks cs hheap hcond => ?_, fun hK p hp => ?_,
    fun p hp es nx hheap => ?_⟩
  · rw [halloc] at hp
    rcases Nat.lt_succ_iff_lt_or_eq.mp hp with hp | rfl
    · have hheap : (BptreeIndex.newRoot m m.root sep right).heap p = m.heap p := by
        simp [BptreeIndex.newRoot, Tree.new, hp.ne]
      rw [hheap, hother _ (by simp) (by simpa using hp.ne)]
      exact (h.node p hp).congr (hsame p hp) (Nat.le_succ _) fun d hd _ => hsame d hd
    · have hheap : (BptreeIndex.newRoot m m.root sep right).heap m.alloc =
          .internal [sep] [m.root, right] := by
        simp [BptreeIndex.newRoot, Tree.new]
      rw [hheap, hnew]
      refine ⟨hpos, m.root, [(sep, right)], [], rfl, rfl, ?_⟩
      -- the new root takes over the row of `root_`
      refine ⟨by simp, fun r hr => ?_, ?_⟩
      · rw [Ranges.Has, hn2, hn3]
        exact hrow.inRange r (by simpa using hr)
      · rw [hn1, hn2, hn3]
        refine Cells.mono (fun z _ lo hi hok => ?_) hrow.cells
        have hz := hsame z hok.alloc
        exact ⟨hok.alloc.trans (Nat.lt_succ_self _), by rw [hz.level, hok.level],
          by rw [hz.lo, hok.lo], by rw [hz.hi, hok.hi]⟩
  · rw [hlatch]
    refine ⟨m.alloc, [], [], rfl, rfl, List.Pairwise.nil, by simp, ?_⟩
    exact ⟨Nat.lt_succ_self _, by rw [hn1, ht1], by rw [hn2, ht2], by rw [hn3, ht3]⟩
  · -- the levels of the latch and of the new root are free otherwise
    have hcase : ∀ l k, Allocated (BptreeIndex.newRoot m m.root sep right) l →
        (g.grow m.alloc).Has l k →
        (∃ p < m.alloc, l = .node p ∧ (g.grow m.alloc).level l = g.level l ∧ g.Has l k) ∨
        (l = .node m.alloc ∧ (g.grow m.alloc).level l = g.level .latch) ∨
        (l = .latch ∧ (g.grow m.alloc).level l = g.level .latch + 1) := by
      intro l k hl hk
      cases l with
      | latch => exact .inr (.inr ⟨rfl, ht1⟩)
      | node p =>
          rcases Nat.lt_succ_iff_lt_or_eq.mp hl with hp | rfl
          · exact .inl ⟨p, hp, rfl, (hsame p hp).level, (hsame p hp).has.mp hk⟩
          · exact .inr (.inl ⟨rfl, hn1⟩)
    rcases hcase l k hl hk with ⟨p, hp, rfl, hlev, hhas⟩ | ⟨rfl, hlev⟩ | ⟨rfl, hlev⟩ <;>
      rcases hcase l' k hl' hk' with ⟨p', hp', rfl, hlev', hhas'⟩ | ⟨rfl, hlev'⟩ | ⟨rfl, hlev'⟩
    · exact h.apart _ _ k hp hp' (by rw [← hlev, ← hlev', hlevel]) hhas hhas'
    · have := h.below p hp
      omega
    · have := h.below p hp
      omega
    · have := h.below p' hp'
      omega
    · rfl
    · omega
    · have := h.below p' hp'
      omega
    · omega
    · rfl
  · rw [halloc] at hp
    rw [ht1]
    rcases Nat.lt_succ_iff_lt_or_eq.mp hp with hp | rfl
    · rw [(hsame p hp).level]
      have := h.below p hp
      omega
    · rw [hn1]
      omega
  · rw [ht2, ht3]
    exact h.whole
  · rw [halloc] at hp
    rcases Nat.lt_succ_iff_lt_or_eq.mp hp with hp | rfl
    · rw [(hsame p hp).level, ht1] at hlevel
      have := h.below p hp
      omega
    · exact .inl rfl
  · -- the split root was half full, and so are its halves
    rw [halloc] at hp
    rcases Nat.lt_succ_iff_lt_or_eq.mp hp with hp | rfl
    · refine h.full p hp ks cs ?_ (.inr (by simp [hpend]))
      simpa [BptreeIndex.newRoot, Tree.new, hp.ne] using hheap
    · rw [hn1, ht1, hlatch] at hcond
      simp at hcond
  · rw [halloc] at hp
    rcases Nat.lt_succ_iff_lt_or_eq.mp hp with hp | rfl
    · obtain ⟨k, hk⟩ := h.inhabited hK p hp
      exact ⟨k, (hsame p hp).has.mpr hk⟩
    · obtain ⟨k⟩ := hK
      refine ⟨k, ?_⟩
      rw [Ranges.Has, hn2, hn3, h.whole.1, h.whole.2]
      exact inRange_univ k
  · rw [halloc] at hp
    rcases Nat.lt_succ_iff_lt_or_eq.mp hp with hp | rfl
    · have hok := h.next p hp es nx (by simpa [BptreeIndex.newRoot, Tree.new, hp.ne] using hheap)
      cases nx with
      | none => exact (hsame p hp).hi.trans hok
      | some q =>
          obtain ⟨hq, hlevel, sep', hsep, hsep'⟩ := hok
          exact ⟨hq.trans (Nat.lt_succ_self _), (hsame q hq).level.trans hlevel, sep',
            (hsame p hp).hi.trans hsep, (hsame q hq).lo.trans hsep'⟩
    · simp [BptreeIndex.newRoot, Tree.new] at hheap

end Grid

end

end BptreeCoupling
