import LockBench.BptreeCouplingStep

/-!
# Work on the nodes under their locks

The steps that change the tree: at the leaf, on the way up, and at the root.  The thread has
exclusively what it changes, and the parent of a node whose range it cuts.
-/

namespace BptreeCoupling

open BptreeIndex IdealLocks

section

variable {K V : Type} [LinearOrder K]

/-- The operation that a thread has not yet carried out. -/
def Pc.openOp : Pc K V → Option (MapOp K V)
  | .enter w | .visit w _ | .lockChild w _ _ | .unlockParent w _ _ | .leaf w _ => some w.op
  | .putEnter key val | .putRoot key val | .putLockRoot key val _ => some (.put key val)
  | .putVisit c | .putLockChild c _ | .putTest c _ | .putLeaf c => some (.put c.key c.val)
  | .unlockAll _ (.descend key val _) => some (.put key val)
  | _ => none

/-- The result of the operation that a thread has carried out. -/
def Pc.result : Pc K V → Option (MapRes V)
  | .unlockLeaf _ _ r | .returned r => some r
  | .putUp _ _ _ _ => some (.flag true)
  | .unlockAll _ (.ret b) => some (.flag b)
  | _ => none

/-- The step at the leaf is the operation, the others leave the map as it is. -/
def Effect (p p' : Pc K V) (m m' : Tree K V) : Prop :=
  if p.commits then
    ∃ op, p.openOp = some op ∧ mapOf m' = (op.apply (mapOf m)).1 ∧
      p'.result = some (op.apply (mapOf m)).2
  else mapOf m' = mapOf m

variable {F : Nat} {g : Ranges K} {m : Tree K V} {free : Lock → Prop} {key sep : K} {val : V}
  {c cur q : Ptr} {parent l : Lock} {pending : Lock → List (K × Ptr)} {es : List (K × V)}
  {next : Option Ptr} {x xl xr : Node K V}

/-! ## What the others see -/

theorem Frame.refl : Frame free g m g m :=
  ⟨le_rfl, fun _ _ _ => .refl, fun _ _ _ => rfl, fun _ => rfl, fun _ _ _ _ _ _ => .refl⟩

theorem Frame.of_set (hc : ¬free (.node c)) : Frame free g m g (m.set c x) where
  alloc := le_rfl
  same _ _ _ := .refl
  heap p _ hp := by
    have hpc : p ≠ c := by
      rintro rfl
      exact hc hp
    simp [Tree.set, hpc]
  root _ := rfl
  child _ _ _ _ _ _ := .refl

theorem Frame.of_split (h : Grid F g m pending) (hparent : Allocated m parent)
    (hunder : g.Under (.node c) parent) (hkey : g.Has (.node c) key) (hc : ¬free (.node c))
    (hp : ¬free parent) : Frame free g m (g.split c sep m.alloc) ((m.new xr).set c xl) where
  alloc := Nat.le_succ _
  same l hl hf := by
    refine Ranges.split_same ?_ ?_
    · rintro rfl
      exact hc hf
    · rintro rfl
      exact absurd hl (lt_irrefl _)
  heap p hlt hf := by
    have hpc : p ≠ c := by
      rintro rfl
      exact hc hf
    simp [Tree.set, Tree.new, hpc, hlt.ne]
  root _ := rfl
  child l d hl hf hd hunder' := by
    refine Ranges.split_same ?_ ?_
    · intro heq
      obtain rfl := Lock.node.inj heq
      rw [h.parent_eq hl hparent hkey hunder' hunder] at hf
      exact hp hf
    · intro heq
      exact hd.ne (Lock.node.inj heq)

theorem Frame.of_newRoot {oldRoot right : Ptr} (hlatch : ¬free .latch) :
    Frame free g m (g.grow m.alloc) (newRoot m oldRoot sep right) where
  alloc := Nat.le_succ _
  same l hl hf := by
    refine Ranges.grow_same ?_ ?_
    · rintro rfl
      exact hlatch hf
    · rintro rfl
      exact absurd hl (lt_irrefl _)
  heap p hlt _ := by simp [newRoot, Tree.new, hlt.ne]
  root hf := absurd hf hlatch
  child l d _ _ hd _ := Ranges.grow_same (by simp) (by simpa using hd.ne)

/-- **Where a split leaves `put`.**  The node that was cut is below the path that is left. -/
theorem local_putUp {y : PutCtx K V} {above : List Ptr}
    (hpath : OnPath g m y.key (.node c :: (above.map .node ++ y.latchLocks)))
    (hsuffix : above <:+ y.held) (htop : Topped F m y.held above y.latch) :
    Local F (g.split c sep m.alloc) ((m.new xr).set c xl) (.putUp y above sep m.alloc) := by
  obtain ⟨ls, hls⟩ := htop.target_mem
  rw [hls] at hpath
  have hunder : g.Under (.node c) (target above) := (List.isChain_cons_cons.mp hpath.chain).1
  have htail := hpath.suffix (List.suffix_cons _ _)
  have hsame : ∀ l ∈ target above :: ls, g.SameAt (g.split c sep m.alloc) l := by
    intro l hl
    refine Ranges.split_same ?_ ?_
    · rintro rfl
      exact lt_irrefl _ (hpath.level_lt _ hl)
    · rintro rfl
      exact lt_irrefl _ (htail.alloc _ hl)
  refine ⟨hsuffix, ?_, ?_, fun hf => ?_, htop.root⟩
  · rw [(hsame _ (.head _)).level]
    have := hunder.level
    omega
  · rw [hls]
    exact htail.congr (Nat.le_succ _) hsame
  · obtain ⟨q, hq, hn⟩ := htop.safe hf
    have hmem : Lock.node q ∈ target above :: ls := by
      rw [← hls]
      exact List.mem_append_left _ (List.mem_map_of_mem (List.mem_of_getLast? hq))
    have hqc : q ≠ c := by
      rintro rfl
      exact lt_irrefl _ (hpath.level_lt _ hmem)
    have hqa : q ≠ m.alloc := by
      have hq : q < m.alloc := hpath.alloc _ (.tail _ hmem)
      exact hq.ne
    exact ⟨q, hq, by simpa [Tree.set, Tree.new, hqc, hqa] using hn⟩

/-! ## What happens at a leaf -/

/-- What `put` does to a leaf: it changes the entries, or splits them. -/
theorem leafPut_cases (hF : F ≤ 65535) (hpos : 1 ≤ F) (hleaf : LeafOk F g l es)
    (hheap : m.heap cur = .leaf es next) {m' : Tree K V} {out : Outcome K}
    (hput : leafPut F m cur key val = some (m', out)) :
    (∃ es' b, m' = m.set cur (.leaf es' next) ∧ out = .done b ∧ PutOk es key val es' ∧
      es'.length ≤ F ∧ (b = true ↔ ∀ e ∈ es, e.1 ≠ key)) ∨
    (es.length = F ∧ (∀ e ∈ es, e.1 ≠ key) ∧ ∃ lefts rights sep,
      m' = (m.new (.leaf rights next)).set cur (.leaf lefts (some m.alloc)) ∧
      out = .push sep m.alloc ∧ PutOk es key val (lefts ++ rights) ∧ lefts.length ≤ F ∧
      rights.length ≤ F ∧ (∃ e ∈ lefts, e.1 < sep) ∧ (∃ e ∈ rights, e.1 = sep) ∧
      (∀ e ∈ lefts, e.1 < sep) ∧ ∀ e ∈ rights, sep ≤ e.1) := by
  simp only [leafPut, hheap] at hput
  split at hput
  · rename_i hlt
    obtain ⟨rfl, rfl⟩ := Prod.mk.inj (Option.some.inj hput)
    obtain ⟨hok, hlen, hnew⟩ := leafInsertOrUpdate_spec hF hleaf.sorted hlt key val
    exact .inl ⟨_, _, rfl, rfl, hok, hlen, hnew⟩
  · rename_i hfull
    split at hput
    · rename_i i hfind
      obtain ⟨rfl, rfl⟩ := Prod.mk.inj (Option.some.inj hput)
      obtain ⟨xs, v, ys, rfl, rfl⟩ := leafFindExact_eq_some hfind
      refine .inl ⟨_, false, rfl, rfl, ?_, ?_, ?_⟩
      · rw [setVal_append]
        exact .of_update hleaf.sorted
      · rw [setVal_append]
        simpa using hleaf.length
      · simp only [Bool.false_eq_true, false_iff]
        exact fun hne => hne (key, v) (by simp) rfl
    · rename_i hfind
      have hne := leafFindExact_eq_none.mp hfind
      have hlen : es.length = F := le_antisymm hleaf.length (not_lt.mp hfull)
      obtain ⟨lefts, rights, sep, hsplit, hrest⟩ := splitLeaf_spec hF hpos hleaf.sorted hlen hne val
      rw [hsplit] at hput
      obtain ⟨rfl, rfl⟩ := Prod.mk.inj (Option.some.inj hput)
      exact .inr ⟨hlen, hne, lefts, rights, sep, rfl, rfl, hrest⟩

/-- `put` on the map, from what it did to the entries. -/
theorem Grid.put_apply {g' : Ranges K} {m' : Tree K V} {pending' : Lock → List (K × Ptr)}
    {es' : List (K × V)} {b : Bool} (h : Grid F g m pending) (h' : Grid F g' m' pending')
    (hcur : cur < m.alloc) (hheap : m.heap cur = .leaf es next) (hkey : g.Has (.node cur) key)
    (hput : PutOk es key val es') (hb : b = true ↔ ∀ e ∈ es, e.1 ≠ key)
    (hst : ∀ k v, Stored m' k v ↔ (k = key ∧ (k, v) ∈ es') ∨ (Stored m k v ∧ k ≠ key)) :
    (MapOp.put key val).apply (mapOf m) = (mapOf m', .flag b) := by
  have hmap : mapOf m' = Function.update (mapOf m) key (some val) := by
    refine h.mapOf_put h' fun k v => ?_
    rw [hst]
    refine or_congr_left (and_congr_right fun hk => ?_)
    subst hk
    rw [hput.mem]
    simp
  have hflag : (mapOf m key).isNone = b := by
    rw [Bool.eq_iff_iff, Option.isNone_iff_eq_none, h.mapOf_eq_none hcur hheap hkey, hb]
  rw [MapOp.apply, hmap, hflag]

theorem putOk_same {es' : List (K × V)} (hput : PutOk es key val es') {e : K × V}
    (hne : e.1 ≠ key) : e ∈ es' ↔ e ∈ es := by
  rw [hput.mem]
  constructor
  · rintro (rfl | h)
    · exact absurd rfl hne
    · exact h.1
  · exact fun h => .inr ⟨h, hne⟩

theorem putOk_inRange {es' : List (K × V)} (hput : PutOk es key val es')
    (hes : ∀ e ∈ es, g.Has l e.1) (hkey : g.Has l key) : ∀ e ∈ es', g.Has l e.1 := by
  intro e he
  rcases (hput.mem e).mp he with rfl | h
  · exact hkey
  · exact hes e h.1

/-- **`leaf_remove`** on the map. -/
theorem Grid.remove_leaf (h : Grid F g m pending) (hcur : cur < m.alloc)
    (hheap : m.heap cur = .leaf es next) (hkey : g.Has (.node cur) key) :
    Grid F g (m.set cur (.leaf (leafRemove es key).1 next)) pending ∧
      (MapOp.remove key).apply (mapOf m) =
        (mapOf (m.set cur (.leaf (leafRemove es key).1 next)), .flag (leafRemove es key).2) := by
  have hleaf := h.leafOk hcur hheap
  obtain ⟨hsub, hmem, hfound⟩ := leafRemove_spec hleaf.sorted key
  have hgrid : Grid F g (m.set cur (.leaf (leafRemove es key).1 next)) pending :=
    h.setLeaf hcur hheap (hleaf.sorted.sublist (hsub.map _))
      (fun e he => hleaf.inRange e (hsub.subset he)) (hsub.length_le.trans hleaf.length)
  refine ⟨hgrid, ?_⟩
  have hmap : mapOf (m.set cur (.leaf (leafRemove es key).1 next)) =
      Function.update (mapOf m) key none := by
    refine h.mapOf_remove hgrid fun k v => ?_
    rw [h.stored_set hcur hheap hkey fun e hne => (hmem e).trans (and_iff_left hne)]
    refine or_iff_right fun hk => ?_
    exact ((hmem (k, v)).mp hk.2).2 hk.1
  have hflag : (mapOf m key).isSome = (leafRemove es key).2 := by
    rw [Bool.eq_iff_iff, hfound, Option.isSome_iff_exists]
    exact exists_congr fun v => (h.mapOf_eq_some).trans (h.stored_iff hcur hheap hkey)
  rw [MapOp.apply, hmap, hflag]

end

end BptreeCoupling
