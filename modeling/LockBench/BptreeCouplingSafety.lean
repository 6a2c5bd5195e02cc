import LockBench.BptreeCouplingWork

/-!
# Every reachable state of lock coupling

The invariant holds from the empty tree on, whatever the threads do.
-/

namespace BptreeCoupling

open BptreeIndex IdealLocks

section

variable {T K V : Type} [DecidableEq T] [LinearOrder K] {F : Nat} {g g' : Ranges K} {t u : T}
  {m' : Mem T K V} {p' : Pc K V} {c : Choice K V} {s s' : State T K V} {l : Lock} {mode : Mode}

/-- The invariant: the tree with what is pending, the locks as the threads name them, and what each
thread relies on. -/
structure Safe (F : Nat) (g : Ranges K) (s : State T K V) : Prop where
  grid : Grid F g s.mem.tree (pendingAt s)
  kept : Kept s.mem.locks fun t => (s.pc t).claims
  here : ∀ t, Local F g s.mem.tree (s.pc t)
  alloc : ∀ t, ∀ e ∈ (s.pc t).claims, Allocated s.mem.tree e.1

/-- A step of a thread and what it leaves to the others. -/
structure Stepped (F : Nat) (g g' : Ranges K) (t : T) (s : State T K V) (m' : Mem T K V)
    (p' : Pc K V) : Prop where
  grid : Grid F g' m'.tree (pendingAt (after s t m' p'))
  frame : Frame (fun l => s.mem.locks.owner l ≠ some t) g s.mem.tree g' m'.tree
  here : Local F g' m'.tree p'
  effect : Effect (s.pc t) p' s.mem.tree m'.tree

omit [DecidableEq T] [LinearOrder K] in
theorem fresh_ne {m : Tree K V} (hl : Allocated m l) : Lock.node m.alloc ≠ l := by
  rintro rfl
  exact lt_irrefl _ hl

namespace Safe

variable (h : Safe F g s)

include h

omit [DecidableEq T] in
theorem owner (hmem : (l, .exclusive) ∈ (s.pc t).claims) : s.mem.locks.owner l = some t :=
  (h.kept.holds t l .exclusive).mpr hmem

omit [DecidableEq T] in
/-- Nobody owns a node that is not there yet. -/
theorem owner_fresh : s.mem.locks.owner (.node s.mem.tree.alloc) = none := by
  refine Option.eq_none_iff_forall_ne_some.mpr fun t ht => ?_
  exact lt_irrefl _ (h.alloc t _ ((h.kept.holds t _ .exclusive).mp ht))

omit [DecidableEq T] in
theorem pendingAt_fresh : pendingAt s (.node s.mem.tree.alloc) = [] := by
  simp only [pendingAt, h.owner_fresh]

/-- A step that does not touch the tree, between points at which nothing is pending. -/
theorem stepped_quiet (hmoves : Moves t s.mem (s.pc t) m' p') (htree : m'.tree = s.mem.tree)
    (hp : ∀ l, (s.pc t).pendingAt l = []) (hp' : ∀ l, p'.pendingAt l = [])
    (hhere : Local F g s.mem.tree p') (heffect : Effect (s.pc t) p' s.mem.tree m'.tree) :
    Stepped F g g t s m' p' where
  grid := by
    rw [pendingAt_quiet h.kept hmoves hp hp', htree]
    exact h.grid
  frame := by
    rw [htree]
    exact .refl
  here := by rwa [htree]
  effect := heffect

/-- **The leaf of a lookup or a removal.** -/
theorem stepped_leaf {w : Walk K} {cur : Ptr} (hpc : s.pc t = .leaf w cur)
    (hmoves : Moves t s.mem (s.pc t) m' p') (hstep : leafStep s.mem w cur = some (m', p')) :
    Stepped F g g t s m' p' := by
  have hhere := h.here t
  rw [hpc] at hhere
  have hkey := hhere.1.has _ (.head _)
  have hcur : cur < s.mem.tree.alloc := hhere.1.alloc _ (.head _)
  have hp : ∀ l, (s.pc t).pendingAt l = [] := fun l => by rw [hpc]; rfl
  simp only [leafStep] at hstep
  split at hstep
  · cases hstep
  · rename_i es next hheap
    cases w with
    | get mode key =>
        obtain ⟨rfl, rfl⟩ := Prod.mk.inj (Option.some.inj hstep)
        refine h.stepped_quiet hmoves rfl hp (fun _ => rfl) trivial ?_
        have hfind : mapOf s.mem.tree key = findInLeaf es key :=
          h.grid.mapOf_leaf hcur hheap hkey
        simp only [Effect, hpc, Pc.commits, if_true]
        exact ⟨.get key, rfl, rfl, by rw [MapOp.apply_get_eq hfind]; rfl⟩
    | remove key =>
        obtain ⟨rfl, rfl⟩ := Prod.mk.inj (Option.some.inj hstep)
        have hkey : g.Has (.node cur) key := hkey
        obtain ⟨hgrid, happly⟩ := h.grid.remove_leaf hcur hheap hkey
        refine ⟨?_, .of_set fun hfree => hfree (h.owner ?_), trivial, ?_⟩
        · rw [pendingAt_quiet h.kept hmoves hp fun _ => rfl]
          exact hgrid
        · rw [hpc]
          exact .head _
        · simp only [Effect, hpc, Pc.commits, if_true]
          exact ⟨.remove key, rfl, by rw [happly], by rw [happly]; rfl⟩

/-- **The leaf of `put`.** -/
theorem stepped_putLeaf (hF : F ≤ 65535) (hpos : 1 ≤ F) {x : PutCtx K V}
    (hpc : s.pc t = .putLeaf x) (hmoves : Moves t s.mem (s.pc t) m' p')
    (hstep : putLeafStep F s.mem x = some (m', p')) : ∃ g', Stepped F g g' t s m' p' := by
  have hhere := h.here t
  rw [hpc] at hhere
  obtain ⟨hok, cur, hcur, hisLeaf⟩ := hhere
  obtain ⟨above, hheld⟩ := List.head?_eq_some_iff.mp hcur
  have hp : ∀ l, (s.pc t).pendingAt l = [] := fun l => by rw [hpc]; rfl
  have hlocks : x.locks = .node cur :: (above.map .node ++ x.latchLocks) := by
    simp [PutCtx.locks, hheld]
  have hpath := hok.onPath
  rw [hlocks] at hpath
  have hlt : cur < s.mem.tree.alloc := hpath.alloc _ (.head _)
  have hkey := hpath.has _ (.head _)
  have howns : ∀ l ∈ x.locks, s.mem.locks.owner l = some t := fun l hl => h.owner (by
    rw [hpc]
    exact List.mem_map_of_mem hl)
  cases hheap : s.mem.tree.heap cur with
  | internal ks cs =>
      rw [hheap] at hisLeaf
      cases hisLeaf
  | leaf es next =>
      have hleaf := h.grid.leafOk hlt hheap
      simp only [putLeafStep, hheld] at hstep
      obtain ⟨⟨tree, out⟩, hput, heq⟩ := Option.map_eq_some_iff.mp hstep
      obtain ⟨rfl, rfl⟩ := Prod.mk.inj heq
      rcases leafPut_cases hF hpos hleaf hheap hput with
        ⟨es', b, rfl, rfl, hes, hlen, hb⟩ |
        ⟨hfull, hne, lefts, rights, sep, rfl, rfl, hes, hl, hr, hlow, hhigh, hlefts, hrights⟩
      · -- the entries fit into the leaf
        have hgrid := h.grid.setLeaf hlt hheap hes.sorted
          (putOk_inRange hes hleaf.inRange hkey) hlen
        have happly := h.grid.put_apply hgrid hlt hheap hkey hes hb
          (h.grid.stored_set hlt hheap hkey fun e => putOk_same hes)
        refine ⟨g, ?_, .of_set fun hfree => hfree (howns _ (by simp [hlocks])), trivial, ?_⟩
        · rw [pendingAt_quiet h.kept hmoves hp fun _ => rfl]
          exact hgrid
        · simp only [Effect, hpc, Pc.commits, if_true]
          exact ⟨.put x.key x.val, rfl, by rw [happly], by rw [happly]; rfl⟩
      · -- the leaf is split, and the new one is pending above
        have htop : Topped F s.mem.tree x.held above x.latch := by
          refine ⟨fun hf => ?_, hok.topped.root⟩
          obtain ⟨q, hq, hn⟩ := hok.topped.safe hf
          rw [hheld] at hq
          cases habove : above with
          | nil =>
              rw [habove] at hq
              obtain rfl : cur = q := by simpa using hq
              rw [hheap] at hn
              simp only [Node.n, Node.keys, List.length_map] at hn
              omega
          | cons a as =>
              rw [habove, List.getLast?_cons_cons] at hq
              exact ⟨q, hq, hn⟩
        obtain ⟨ls, hls⟩ := htop.target_mem
        have htarget := hpath
        rw [hls] at htarget
        have hunder : g.Under (.node cur) (target above) :=
          (List.isChain_cons_cons.mp htarget.chain).1
        have hparent : Allocated s.mem.tree (target above) := htarget.alloc _ (by simp)
        have hne' : Lock.node cur ≠ target above := by
          intro heq
          have := hunder.level
          rw [heq] at this
          omega
        have hown : s.mem.locks.owner (.node cur) = some t := howns _ (by simp [hlocks])
        have hownp : s.mem.locks.owner (target above) = some t := howns _ (by simp [hlocks, hls])
        have hnone : ∀ l, s.mem.locks.owner l = some t → pendingAt s l = [] := fun l howner => by
          simp only [pendingAt, howner, hp]
        have hkeep : (⟨(s.mem.tree.new (.leaf rights next)).set cur
            (.leaf lefts (some s.mem.tree.alloc)), s.mem.locks⟩ : Mem T K V).locks =
            s.mem.locks := rfl
        obtain ⟨hleft, habove, hother⟩ := pendingAt_pushed hkeep hown hownp hne' fun l _ => hnone l
        have hgrid := h.grid.splitLeaf hlt hheap hparent hunder hkey (hnone _ hownp) hes.sorted
          (putOk_inRange hes hleaf.inRange hkey) hl hr hlow hhigh hlefts hrights hleft
          ((hother _ (fresh_ne (l := .node cur) hlt) (fresh_ne hparent)).trans h.pendingAt_fresh)
          habove fun l hlc _ hlp => hother l hlc hlp
        have hnew : true = true ↔ ∀ e ∈ es, e.1 ≠ x.key := iff_of_true rfl hne
        have happly := h.grid.put_apply hgrid hlt hheap hkey hes hnew
          (h.grid.stored_split hlt hheap hkey fun e => putOk_same hes)
        refine ⟨_, hgrid, .of_split h.grid hparent hunder hkey (fun hfree => hfree hown)
          fun hfree => hfree hownp, local_putUp hpath ⟨[cur], by rw [hheld]; rfl⟩ htop, ?_⟩
        simp only [Effect, hpc, Pc.commits, if_true]
        exact ⟨.put x.key x.val, rfl, by rw [happly], by rw [happly]; rfl⟩

/-- **The way up of `put`.** -/
theorem stepped_putUp (hF : F ≤ 65535) (hpos : 1 ≤ F) {x : PutCtx K V} {above : List Ptr} {sep : K}
    {right : Ptr} (hpc : s.pc t = .putUp x above sep right)
    (hstep : putUpStep F s.mem x above sep right = some (m', p')) :
    ∃ g', Stepped F g g' t s m' p' := by
  have hhere := h.here t
  rw [hpc] at hhere
  obtain ⟨hsuffix, hlevel, hpath, htop⟩ := hhere
  obtain ⟨ls, hls⟩ := htop.target_mem
  rw [hls] at hpath
  have hsub : ∀ l ∈ target above :: ls, l ∈ x.locks := by
    rw [← hls]
    exact fun l hl => PutCtx.mem_locks_of_above hsuffix hl
  have howns : ∀ l ∈ target above :: ls, s.mem.locks.owner l = some t := fun l hl => h.owner (by
    rw [hpc]
    exact List.mem_map_of_mem (hsub l hl))
  have hp : ∀ l, (s.pc t).pendingAt l = if l = target above then [(sep, right)] else [] :=
    fun l => by rw [hpc]; rfl
  have hown := howns _ (.head _)
  have hhas : pendingAt s (target above) = [(sep, right)] := by
    simp only [pendingAt, hown, hp, if_true]
  have hnone : ∀ l ≠ target above, s.mem.locks.owner l = some t → pendingAt s l = [] := by
    intro l hl howner
    simp only [pendingAt, howner, hp, hl, if_false]
  have hquiet : ∀ l, Pc.pendingAt l (.unlockAll x.todo (.ret true) : Pc K V) = [] :=
    fun _ => rfl
  cases above with
  | nil =>
      -- the root split
      have hlatch : x.latch = true := by
        cases hlatch : x.latch with
        | true => rfl
        | false =>
            obtain ⟨q, hq, -⟩ := htop.safe hlatch
            cases hq
      simp only [target] at hown hhas hnone
      simp only [putUpStep, htop.root hlatch, Option.map_some] at hstep
      obtain ⟨rfl, rfl⟩ := Prod.mk.inj (Option.some.inj hstep)
      have hkeep : (⟨newRoot s.mem.tree s.mem.tree.root sep right, s.mem.locks⟩ :
          Mem T K V).locks = s.mem.locks := rfl
      obtain ⟨hdone, hother⟩ := pendingAt_done hkeep hown hnone hquiet
      have hgrid := h.grid.newRoot hpos hhas hdone
        ((hother _ (fresh_ne (l := .latch) trivial)).trans h.pendingAt_fresh)
        fun l hl _ => hother l hl
      refine ⟨_, hgrid, .of_newRoot fun hfree => hfree hown, trivial, ?_⟩
      simp only [Effect, hpc, Pc.commits, Bool.false_eq_true, if_false]
      refine h.grid.mapOf_same hgrid (stored_congr (Nat.le_succ _) (fun q hq => ?_)
        fun q hq hge => ?_)
      · simp [newRoot, Tree.new, hq.ne]
      · obtain rfl : q = s.mem.tree.alloc := le_antisymm (Nat.lt_succ_iff.mp hq) hge
        simp [newRoot, Tree.new, Node.entries]
  | cons parent rest =>
      simp only [target] at hls hlevel hpath howns hown hhas hnone
      have hplt : parent < s.mem.tree.alloc := hpath.alloc _ (.head _)
      obtain ⟨ks, cs, hrow⟩ := h.grid.exists_row (l := .node parent) hplt hlevel
      have hheap := heap_of_rowOf hrow
      simp only [putUpStep, pushUp, hheap] at hstep
      by_cases hlen : ks.length < F
      · -- the new node fits into the parent
        rw [if_pos hlen] at hstep
        obtain ⟨rfl, rfl⟩ := Prod.mk.inj (Option.some.inj hstep)
        have hkeep : (⟨s.mem.tree.set parent (.internal (internalInsert ks cs sep right).1
            (internalInsert ks cs sep right).2), s.mem.locks⟩ : Mem T K V).locks =
            s.mem.locks := rfl
        obtain ⟨hdone, hother⟩ := pendingAt_done hkeep hown hnone hquiet
        have hgrid := h.grid.insert hF hplt hheap hhas hlen hdone fun l hl => hother l hl
        refine ⟨g, hgrid, .of_set fun hfree => hfree hown, trivial, ?_⟩
        simp only [Effect, hpc, Pc.commits, Bool.false_eq_true, if_false]
        refine h.grid.mapOf_same hgrid (stored_congr le_rfl (fun q hq => ?_)
          fun q hq hge => absurd hq hge.not_gt)
        by_cases hqp : q = parent
        · subst hqp
          simp [Tree.set, hheap, Node.entries]
        · simp [Tree.set, hqp]
      · -- the parent is split in its turn
        rw [if_neg hlen] at hstep
        have htop' : Topped F s.mem.tree x.held rest x.latch := by
          refine ⟨fun hf => ?_, htop.root⟩
          obtain ⟨q, hq, hn⟩ := htop.safe hf
          cases rest with
          | nil =>
              obtain rfl : parent = q := by simpa using hq
              rw [hheap] at hn
              exact absurd hn hlen
          | cons a as =>
              rw [List.getLast?_cons_cons] at hq
              exact ⟨q, hq, hn⟩
        obtain ⟨ls', hls'⟩ := htop'.target_mem
        obtain rfl : ls = target rest :: ls' := by
          rw [List.map_cons, List.cons_append, hls'] at hls
          exact (List.cons.inj hls).2.symm
        have hunder : g.Under (.node parent) (target rest) :=
          (List.isChain_cons_cons.mp hpath.chain).1
        have hgrand : Allocated s.mem.tree (target rest) := hpath.alloc _ (by simp)
        have hne : Lock.node parent ≠ target rest := by
          intro heq
          have := hunder.level
          rw [heq] at this
          omega
        have hownp := howns (target rest) (by simp)
        have hkey := hpath.has _ (.head _)
        obtain ⟨lks, lcs, rks, rcs, k, hsplit, hgrid⟩ := h.grid.splitInternal hF hpos hplt hheap
          hhas hlen hgrand hunder hkey (hnone _ hne.symm hownp)
        rw [hsplit] at hstep
        obtain ⟨rfl, rfl⟩ := Prod.mk.inj (Option.some.inj hstep)
        have hkeep : (⟨(s.mem.tree.new (.internal rks rcs)).set parent (.internal lks lcs),
            s.mem.locks⟩ : Mem T K V).locks = s.mem.locks := rfl
        obtain ⟨hleft, habove, hother⟩ := pendingAt_pushed hkeep hown hownp hne hnone
        have hgrid' := hgrid _ hleft
          ((hother _ (fresh_ne (l := .node parent) hplt) (fresh_ne hgrand)).trans h.pendingAt_fresh)
          habove fun l hlp _ hlg => hother l hlp hlg
        refine ⟨_, hgrid', .of_split h.grid hgrand hunder hkey (fun hfree => hfree hown)
          fun hfree => hfree hownp,
          local_putUp (by rwa [hls']) ((List.suffix_cons _ _).trans hsuffix) htop', ?_⟩
        simp only [Effect, hpc, Pc.commits, Bool.false_eq_true, if_false]
        refine h.grid.mapOf_same hgrid' (stored_congr (Nat.le_succ _) (fun q hq => ?_)
          fun q hq hge => ?_)
        · by_cases hqp : q = parent
          · subst hqp
            simp [Tree.set, hheap, Node.entries]
          · simp [Tree.set, Tree.new, hqp, hq.ne]
        · obtain rfl : q = s.mem.tree.alloc := le_antisymm (Nat.lt_succ_iff.mp hq) hge
          simp [Tree.set, Tree.new, Node.entries, hplt.ne']

/-! ## Every step -/

/-- **A step of a thread.** -/
theorem stepped (hF : F ≤ 65535) (hpos : 1 ≤ F)
    (hstep : next F t s.mem (s.pc t) c = some (m', p')) :
    ∃ g', Stepped F g g' t s m' p' := by
  have hmoves := next_moves (h.here t) hstep
  cases hw : (s.pc t).works with
  | false =>
      have hp : ∀ l, (s.pc t).pendingAt l = [] := fun l => Pc.pendingAt_of_not_works hw
      obtain ⟨htree, hp', hhere⟩ := next_quiet h.grid (h.here t)
        (fun e he => pendingAt_of_claim h.kept he (hp e.1)) hw hstep
      refine ⟨g, h.stepped_quiet hmoves htree hp (fun l => congrFun hp' l) hhere ?_⟩
      have hcommits : (s.pc t).commits = false := by
        cases hpc : s.pc t <;> rw [hpc] at hw <;> first | rfl | cases hw
      simp only [Effect, hcommits, Bool.false_eq_true, if_false, htree]
  | true =>
      cases hpc : s.pc t with
      | leaf w cur =>
          rw [hpc] at hstep
          exact ⟨g, h.stepped_leaf hpc hmoves hstep⟩
      | putLeaf x =>
          rw [hpc] at hstep
          exact h.stepped_putLeaf hF hpos hpc hmoves hstep
      | putUp x above sep right =>
          rw [hpc] at hstep
          exact h.stepped_putUp hF hpos hpc hstep
      | _ =>
          rw [hpc] at hw
          cases hw

end Safe

omit [DecidableEq T] in
/-- A lock that is asked for is there. -/
theorem wants_allocated {m : Tree K V} {p : Pc K V} (h : Local F g m p)
    (hwants : p.wants = some (l, mode)) : Allocated m l := by
  cases p with
  | enter | putEnter =>
      obtain ⟨rfl, rfl⟩ := Prod.mk.inj (Option.some.inj hwants)
      trivial
  | lockChild w l child =>
      obtain ⟨rfl, rfl⟩ := Prod.mk.inj (Option.some.inj hwants)
      exact OnPath.alloc h _ (.head _)
  | putLockRoot key val cur =>
      obtain ⟨rfl, rfl⟩ := Prod.mk.inj (Option.some.inj hwants)
      exact h.1.alloc _ (.head _)
  | putLockChild x child =>
      obtain ⟨rfl, rfl⟩ := Prod.mk.inj (Option.some.inj hwants)
      exact h.2.alloc _ (.head _)
  | _ => cases hwants

/-- **Step rule.** -/
theorem Safe.step (hF : F ≤ 65535) (hpos : 1 ≤ F) (h : Safe F g s) {a : T × Choice K V}
    (hstep : (machine T K V F).step s a = some s') :
    ∃ g', Safe F g' s' ∧ Effect (s.pc a.1) (s'.pc a.1) s.mem.tree s'.mem.tree := by
  obtain ⟨m', p', hnext, rfl⟩ := interleave_step_cases hstep
  have hmoves := next_moves (h.here a.1) hnext
  obtain ⟨g', hs⟩ := h.stepped hF hpos hnext
  have hkept := kept_after h.kept hmoves
  have hself : (after s a.1 m' p').pc a.1 = p' := Function.update_self ..
  have hother : ∀ u ≠ a.1, (after s a.1 m' p').pc u = s.pc u := fun u hu =>
    Function.update_of_ne hu ..
  refine ⟨g', ⟨hs.grid, hkept, fun u => ?_, fun u e he => ?_⟩, ?_⟩
  · by_cases hu : u = a.1
    · subst hu
      exact hself.symm ▸ hs.here
    · exact (hother u hu).symm ▸
        (h.here u).frame hs.frame fun e he => h.kept.owner_ne he hu
  · have hold : Allocated s.mem.tree e.1 := by
      by_cases hu : u = a.1
      · subst hu
        rcases hmoves.claims e (hself ▸ he) with he | he
        · exact h.alloc _ e he
        · exact wants_allocated (h.here a.1) he
      · exact h.alloc u e (hother u hu ▸ he)
    cases hl : e.1 with
    | latch => trivial
    | node p =>
        rw [hl] at hold
        exact lt_of_lt_of_le hold hs.frame.alloc
  · simpa using hs.effect

/-- The empty tree: one leaf for all keys. -/
def emptyRanges : Ranges K where
  level
    | .latch => 1
    | .node _ => 0
  lo := fun _ => ⊥
  hi := fun _ => ⊤

theorem safe_init : Safe F emptyRanges (machine T K V F).init where
  grid := by
    have hpend : pendingAt (machine T K V F).init = fun _ => [] := rfl
    rw [hpend]
    refine ⟨fun p hp => ⟨rfl, List.Pairwise.nil, by simp, Nat.zero_le F⟩, ?_, ?_, ?_, ⟨rfl, rfl⟩,
      fun p hp _ => .inl (Nat.lt_one_iff.mp hp), fun p hp ks cs hheap => (by cases hheap),
      fun hK p _ => hK.elim fun k => ⟨k, inRange_univ k⟩, fun p _ es nx hheap => ?_⟩
    · refine ⟨0, [], [], rfl, rfl, List.Pairwise.nil, by simp, ?_⟩
      exact ⟨Nat.zero_lt_one, rfl, rfl, rfl⟩
    · intro l l' k hl hl' hlevel _ _
      cases l with
      | latch =>
          cases l' with
          | latch => rfl
          | node q => cases hlevel
      | node p =>
          cases l' with
          | latch => cases hlevel
          | node q =>
              obtain rfl : p = 0 := Nat.lt_one_iff.mp hl
              obtain rfl : q = 0 := Nat.lt_one_iff.mp hl'
              rfl
    · exact fun p _ => Nat.zero_lt_one
    · obtain ⟨-, rfl⟩ := Node.leaf.inj hheap
      rfl
  kept := kept_free
  here _ := trivial
  alloc _ _ he := by cases he

/-- **Every reachable state is safe.** -/
theorem safe_of_reachable (hF : F ≤ 65535) (hpos : 1 ≤ F)
    (hreach : (machine T K V F).Reachable s) : ∃ g, Safe F g s := by
  induction hreach with
  | init => exact ⟨emptyRanges, safe_init⟩
  | step _ _ hstep ih =>
      obtain ⟨g, h⟩ := ih
      obtain ⟨g', h', -⟩ := h.step hF hpos hstep
      exact ⟨g', h'⟩

end

end BptreeCoupling
