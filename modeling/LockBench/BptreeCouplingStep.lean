import LockBench.BptreeCouplingInvariant

/-!
# One step of lock coupling

Every step changes the locks as the program points name them, keeps the ranges of the tree with what
is pending, and acts on the map as its operation does when it is the step at the leaf.
-/

namespace BptreeCoupling

open BptreeIndex IdealLocks

/-- The states of the machine. -/
abbrev State (T K V : Type) := ScState T (Mem T K V) (Pc K V)

section

variable {T K V : Type} [DecidableEq T] [LinearOrder K] {F : Nat} {g : Ranges K} {t u : T}
  {m m' : Mem T K V} {p p' : Pc K V} {c : Choice K V} {s s' : State T K V} {l : Lock} {mode : Mode}

/-! ## The locks -/

/-- The locks move with the program point, and a thread gets no lock but the one it asks for. -/
structure Moves (t : T) (m : Mem T K V) (p : Pc K V) (m' : Mem T K V) (p' : Pc K V) : Prop where
  move : Move t m.locks p.claims m'.locks p'.claims
  claims : ∀ e ∈ p'.claims, e ∈ p.claims ∨ p.wants = some e

omit [LinearOrder K] in
theorem Moves.of_keep (hlocks : m'.locks = m.locks) (hclaims : p'.claims.Perm p.claims) :
    Moves t m p m' p' where
  move := by
    rw [hlocks]
    exact .keep hclaims
  claims _ he := .inl (hclaims.mem_iff.mp he)

omit [LinearOrder K] in
theorem Moves.of_lock (hwants : p.wants = some (l, mode)) (hnew : l ∉ p.claims.map Prod.fst)
    (hlock : m.lock mode t l = some m') (hclaims : p'.claims.Perm ((l, mode) :: p.claims)) :
    Moves t m p m' p' where
  move := by
    obtain ⟨locks, hlocks, rfl⟩ := Option.map_eq_some_iff.mp hlock
    exact .acquire hnew hlocks hclaims
  claims e he := by
    rcases List.mem_cons.mp (hclaims.mem_iff.mp he) with rfl | he
    · exact .inr hwants
    · exact .inl he

omit [LinearOrder K] in
theorem Moves.of_unlock (hclaims : p.claims.Perm ((l, mode) :: p'.claims)) :
    Moves t m p (m.unlock mode t l) p' where
  move := .release hclaims
  claims _ he := .inl (hclaims.mem_iff.mpr (.tail _ he))

omit [LinearOrder K] in
theorem lock_tree (hlock : m.lock mode t l = some m') : m'.tree = m.tree := by
  obtain ⟨locks, -, rfl⟩ := Option.map_eq_some_iff.mp hlock
  rfl

omit [LinearOrder K] in
theorem PutCtx.goOn_claims (x : PutCtx K V) (above : List Ptr) (out : Outcome K) :
    (x.goOn above out).claims.Perm (x.locks.map fun l => (l, Mode.exclusive)) := by
  cases out with
  | done b => exact x.todo_perm.map _
  | push sep right => exact .refl _

/-- **The locks of one step.** -/
theorem next_moves (hp : Local F g m.tree p) (hstep : next F t m p c = some (m', p')) :
    Moves t m p m' p' := by
  cases p with
  | idle =>
      simp only [next] at hstep
      split at hstep
      · rename_i call
        obtain ⟨rfl, rfl⟩ := Prod.mk.inj (Option.some.inj hstep)
        refine .of_keep rfl ?_
        cases call <;> exact .refl _
      · cases hstep
  | enter w =>
      obtain ⟨m₁, hlock, heq⟩ := Option.map_eq_some_iff.mp hstep
      obtain ⟨rfl, rfl⟩ := Prod.mk.inj heq
      exact .of_lock rfl (by simp [Pc.claims]) hlock (.refl _)
  | visit w l =>
      obtain ⟨q, hq, heq⟩ := Option.map_eq_some_iff.mp hstep
      obtain ⟨rfl, rfl⟩ := Prod.mk.inj heq
      refine .of_keep rfl ?_
      cases l with
      | latch =>
          obtain rfl := Option.some.inj hq
          exact .refl _
      | node cur =>
          simp only [visitStep] at hq
          split at hq
          · obtain rfl := Option.some.inj hq
            exact .refl _
          · obtain ⟨child, -, rfl⟩ := Option.map_eq_some_iff.mp hq
            exact .refl _
  | lockChild w l child =>
      obtain ⟨m₁, hlock, heq⟩ := Option.map_eq_some_iff.mp hstep
      obtain ⟨rfl, rfl⟩ := Prod.mk.inj heq
      refine .of_lock rfl ?_ hlock (.refl _)
      have hlt := OnPath.level_lt hp l (.head _)
      simp only [Pc.claims, List.map_cons, List.map_nil, List.mem_singleton]
      rintro rfl
      exact lt_irrefl _ hlt
  | unlockParent w l child =>
      obtain ⟨rfl, rfl⟩ := Prod.mk.inj (Option.some.inj hstep)
      exact .of_unlock (.swap _ _ _)
  | leaf w cur =>
      simp only [next, leafStep] at hstep
      split at hstep
      · cases hstep
      · split at hstep <;>
          (obtain ⟨rfl, rfl⟩ := Prod.mk.inj (Option.some.inj hstep); exact .of_keep rfl (.refl _))
  | unlockLeaf w cur r =>
      obtain ⟨rfl, rfl⟩ := Prod.mk.inj (Option.some.inj hstep)
      exact .of_unlock (.refl _)
  | putEnter key val =>
      obtain ⟨m₁, hlock, heq⟩ := Option.map_eq_some_iff.mp hstep
      obtain ⟨rfl, rfl⟩ := Prod.mk.inj heq
      exact .of_lock rfl (by simp [Pc.claims]) hlock (.refl _)
  | putRoot key val =>
      obtain ⟨rfl, rfl⟩ := Prod.mk.inj (Option.some.inj hstep)
      exact .of_keep rfl (.refl _)
  | putLockRoot key val cur =>
      obtain ⟨m₁, hlock, heq⟩ := Option.map_eq_some_iff.mp hstep
      obtain ⟨rfl, rfl⟩ := Prod.mk.inj heq
      exact .of_lock rfl (by simp [Pc.claims]) hlock (.refl _)
  | putVisit x =>
      obtain ⟨q, hq, heq⟩ := Option.map_eq_some_iff.mp hstep
      obtain ⟨rfl, rfl⟩ := Prod.mk.inj heq
      refine .of_keep rfl ?_
      obtain ⟨cur, -, hq⟩ := Option.bind_eq_some_iff.mp hq
      split at hq
      · obtain rfl := Option.some.inj hq
        exact .refl _
      · obtain ⟨child, -, rfl⟩ := Option.map_eq_some_iff.mp hq
        exact .refl _
  | putLockChild x child =>
      obtain ⟨m₁, hlock, heq⟩ := Option.map_eq_some_iff.mp hstep
      obtain ⟨rfl, rfl⟩ := Prod.mk.inj heq
      refine .of_lock rfl ?_ hlock (.refl _)
      intro hmem
      simp only [Pc.claims, List.map_map, List.mem_map, Function.comp_apply] at hmem
      obtain ⟨l, hl, rfl⟩ := hmem
      exact lt_irrefl _ (hp.2.level_lt _ hl)
  | putTest x child =>
      obtain ⟨q, hq, heq⟩ := Option.map_eq_some_iff.mp hstep
      obtain ⟨rfl, rfl⟩ := Prod.mk.inj heq
      refine .of_keep rfl ?_
      simp only [putTestStep] at hq
      split at hq
      · obtain rfl := Option.some.inj hq
        exact (x.todo_perm.cons (Lock.node child)).map fun l => (l, Mode.exclusive)
      · obtain ⟨held, hheld, rfl⟩ := Option.map_eq_some_iff.mp hq
        simp only [hold] at hheld
        split at hheld
        · obtain rfl := Option.some.inj hheld
          exact .refl _
        · cases hheld
  | putLeaf x =>
      simp only [next, putLeafStep] at hstep
      split at hstep
      · cases hstep
      · obtain ⟨r, -, heq⟩ := Option.map_eq_some_iff.mp hstep
        obtain ⟨rfl, rfl⟩ := Prod.mk.inj heq
        exact .of_keep rfl (x.goOn_claims _ _)
  | putUp x above sep right =>
      simp only [next, putUpStep] at hstep
      split at hstep
      · obtain ⟨r, -, heq⟩ := Option.map_eq_some_iff.mp hstep
        obtain ⟨rfl, rfl⟩ := Prod.mk.inj heq
        exact .of_keep rfl (x.goOn_claims _ _)
      · obtain ⟨root, -, heq⟩ := Option.map_eq_some_iff.mp hstep
        obtain ⟨rfl, rfl⟩ := Prod.mk.inj heq
        exact .of_keep rfl (x.todo_perm.map _)
  | unlockAll todo after =>
      simp only [next, unlockStep] at hstep
      split at hstep
      · obtain ⟨rfl, rfl⟩ := Prod.mk.inj (Option.some.inj hstep)
        refine .of_unlock ?_
        cases after with
        | descend key val child => exact .swap _ _ _
        | ret b => exact .refl _
      · obtain ⟨rfl, rfl⟩ := Prod.mk.inj (Option.some.inj hstep)
        refine .of_keep rfl ?_
        cases after with
        | descend key val child => exact .refl _
        | ret b => exact .refl _
  | returned r =>
      obtain ⟨rfl, rfl⟩ := Prod.mk.inj (Option.some.inj hstep)
      exact .of_keep rfl (.refl _)

/-! ## What is pending -/

/-- The state after a step of a thread. -/
def after (s : State T K V) (t : T) (m' : Mem T K V) (p' : Pc K V) : State T K V :=
  ⟨m', Function.update s.pc t p'⟩

omit [DecidableEq T] [LinearOrder K] in
/-- Nothing is pending at a lock whose holder has left nothing. -/
theorem pendingAt_of_claim (hk : Kept s.mem.locks fun u => (s.pc u).claims)
    (hmem : (l, mode) ∈ (s.pc t).claims) (hquiet : (s.pc t).pendingAt l = []) :
    pendingAt s l = [] := by
  unfold pendingAt
  split
  · rename_i u hu
    obtain rfl := hk.eq_of_exclusive ((hk.holds u l .exclusive).mp hu) hmem
    exact hquiet
  · rfl

omit [LinearOrder K] in
/-- A step that leaves the locks as they are. -/
theorem pendingAt_same (hlocks : m'.locks = s.mem.locks) :
    pendingAt (after s t m' p') l =
      if s.mem.locks.owner l = some t then p'.pendingAt l else pendingAt s l := by
  simp only [pendingAt, after, hlocks]
  cases howner : s.mem.locks.owner l with
  | none => simp
  | some u =>
      by_cases hu : u = t
      · simp [hu]
      · simp [hu]

omit [LinearOrder K] in
/-- A thread has put in what it had left at `l`, if anything, and leaves nothing. -/
theorem pendingAt_done (hlocks : m'.locks = s.mem.locks) (hown : s.mem.locks.owner l = some t)
    (hnone : ∀ l' ≠ l, s.mem.locks.owner l' = some t → pendingAt s l' = [])
    (hp' : ∀ l', p'.pendingAt l' = []) :
    pendingAt (after s t m' p') l = [] ∧
      ∀ l' ≠ l, pendingAt (after s t m' p') l' = pendingAt s l' := by
  refine ⟨by rw [pendingAt_same hlocks, if_pos hown, hp'], fun l' hl' => ?_⟩
  rw [pendingAt_same hlocks]
  split
  · rename_i howner
    rw [hp', hnone l' hl' howner]
  · rfl

omit [LinearOrder K] in
/-- A thread has split a node and has the new one to put in above. -/
theorem pendingAt_pushed (hlocks : m'.locks = s.mem.locks) {x : PutCtx K V} {above : List Ptr}
    {sep : K} {q : Ptr} (hown : s.mem.locks.owner l = some t)
    (htarget : s.mem.locks.owner (target above) = some t) (hne : l ≠ target above)
    (hnone : ∀ l' ≠ l, s.mem.locks.owner l' = some t → pendingAt s l' = []) :
    pendingAt (after s t m' (.putUp x above sep q)) l = [] ∧
      pendingAt (after s t m' (.putUp x above sep q)) (target above) = [(sep, q)] ∧
      ∀ l', l' ≠ l → l' ≠ target above →
        pendingAt (after s t m' (.putUp x above sep q)) l' = pendingAt s l' := by
  refine ⟨?_, ?_, fun l' hl' htarget' => ?_⟩
  · rw [pendingAt_same hlocks, if_pos hown, Pc.pendingAt, if_neg hne]
  · rw [pendingAt_same hlocks, if_pos htarget, Pc.pendingAt, if_pos rfl]
  · rw [pendingAt_same hlocks]
    split
    · rename_i howner
      rw [Pc.pendingAt, if_neg htarget', hnone l' hl' howner]
    · rfl

omit [LinearOrder K] in
theorem kept_after (hk : Kept s.mem.locks fun u => (s.pc u).claims)
    (hmoves : Moves t s.mem (s.pc t) m' p') :
    Kept m'.locks fun u => ((after s t m' p').pc u).claims := by
  have hclaims : (fun u => ((after s t m' p').pc u).claims) =
      Function.update (fun u => (s.pc u).claims) t p'.claims :=
    Function.comp_update Pc.claims s.pc t p'
  rw [hclaims]
  exact hk.move hmoves.move

omit [LinearOrder K] in
/-- A step between two points at which a thread has left nothing. -/
theorem pendingAt_quiet (hk : Kept s.mem.locks fun u => (s.pc u).claims)
    (hmoves : Moves t s.mem (s.pc t) m' p') (hp : ∀ l, (s.pc t).pendingAt l = [])
    (hp' : ∀ l, p'.pendingAt l = []) : pendingAt (after s t m' p') = pendingAt s := by
  have hk' := kept_after hk hmoves
  funext l
  cases howner : m'.locks.owner l with
  | none =>
      have hbefore : pendingAt s l = [] := by
        unfold pendingAt
        split
        · rename_i u hu
          by_cases hut : u = t
          · rw [hut]
            exact hp l
          · have hmem : (l, Mode.exclusive) ∈ ((after s t m' p').pc u).claims := by
              simpa [after, hut] using (hk.holds u l .exclusive).mp hu
            have hstill : m'.locks.owner l = some u := (hk'.holds u l .exclusive).mpr hmem
            rw [howner] at hstill
            cases hstill
        · rfl
      simp only [pendingAt, after, howner] at hbefore ⊢
      exact hbefore.symm
  | some u =>
      have hmem : (l, Mode.exclusive) ∈ ((after s t m' p').pc u).claims :=
        (hk'.holds u l .exclusive).mp howner
      by_cases hut : u = t
      · subst hut
        have hbefore : pendingAt s l = [] := by
          unfold pendingAt
          split
          · rename_i v hv
            by_cases hvu : v = u
            · rw [hvu]
              exact hp l
            · have hmem' : (l, Mode.exclusive) ∈ ((after s u m' p').pc v).claims := by
                simpa [after, hvu] using (hk.holds v l .exclusive).mp hv
              exact absurd (hk'.eq_of_exclusive hmem hmem') hvu
          · rfl
        rw [hbefore]
        simp [pendingAt, after, howner, hp' l]
      · have hbefore : s.mem.locks.owner l = some u :=
          (hk.holds u l .exclusive).mpr (by simpa [after, hut] using hmem)
        simp [pendingAt, after, howner, hbefore, hut]

/-! ## The steps that leave the tree as it is -/

/-- The points at which a thread works on a leaf, or on its way up. -/
def Pc.works : Pc K V → Bool
  | .leaf _ _ | .putLeaf _ | .putUp _ _ _ _ => true
  | _ => false

omit [LinearOrder K] in
theorem Pc.pendingAt_of_not_works (hp : p.works = false) : p.pendingAt l = [] := by
  cases p <;> first | rfl | cases hp

omit [DecidableEq T] in
/-- **The other steps.**  They take a thread from what it relied on to what it relies on next. -/
theorem next_quiet [DecidableEq T] {pending : Lock → List (K × Ptr)}
    (hgrid : Grid F g m.tree pending)
    (hp : Local F g m.tree p) (hpend : ∀ e ∈ p.claims, pending e.1 = []) (hw : p.works = false)
    (hstep : next F t m p c = some (m', p')) :
    m'.tree = m.tree ∧ p'.pendingAt = (fun _ => []) ∧ Local F g m.tree p' := by
  cases p with
  | idle =>
      simp only [next] at hstep
      split at hstep
      · rename_i call
        obtain ⟨rfl, rfl⟩ := Prod.mk.inj (Option.some.inj hstep)
        cases call <;> exact ⟨rfl, rfl, trivial⟩
      · cases hstep
  | enter w =>
      obtain ⟨m₁, hlock, heq⟩ := Option.map_eq_some_iff.mp hstep
      obtain ⟨rfl, rfl⟩ := Prod.mk.inj heq
      refine ⟨lock_tree hlock, rfl, ⟨by simp [Allocated], ?_, by simp⟩⟩
      simp only [List.mem_singleton, forall_eq, Ranges.Has, hgrid.whole]
      exact inRange_univ w.key
  | visit w l =>
      obtain ⟨q, hq, heq⟩ := Option.map_eq_some_iff.mp hstep
      obtain ⟨rfl, rfl⟩ := Prod.mk.inj heq
      have hfree : pending l = [] := hpend (l, w.mode) (.head _)
      cases l with
      | latch =>
          obtain rfl := Option.some.inj hq
          obtain ⟨child, hchild, hpath⟩ := hgrid.descend hp rowOf_latch hfree
          obtain rfl : m.tree.root = child := by simpa [upperSlot] using hchild
          exact ⟨rfl, rfl, hpath⟩
      | node cur =>
          simp only [visitStep] at hq
          split at hq
          · rename_i hheap
            obtain rfl := Option.some.inj hq
            exact ⟨rfl, rfl, hp, by rw [hheap]; rfl⟩
          · rename_i ks cs hheap
            obtain ⟨child', hget, rfl⟩ := Option.map_eq_some_iff.mp hq
            obtain ⟨child, hchild, hpath⟩ := hgrid.descend hp (rowOf_of_heap hheap) hfree
            rw [hchild] at hget
            obtain rfl := Option.some.inj hget
            exact ⟨rfl, rfl, hpath⟩
  | lockChild w l child =>
      obtain ⟨m₁, hlock, heq⟩ := Option.map_eq_some_iff.mp hstep
      obtain ⟨rfl, rfl⟩ := Prod.mk.inj heq
      exact ⟨lock_tree hlock, rfl, hp⟩
  | unlockParent w l child =>
      obtain ⟨rfl, rfl⟩ := Prod.mk.inj (Option.some.inj hstep)
      refine ⟨rfl, rfl, ?_, ?_, by simp⟩
      · exact fun l' hl' => hp.alloc l' (by simp only [List.mem_singleton] at hl'; simp [hl'])
      · exact fun l' hl' => hp.has l' (by simp only [List.mem_singleton] at hl'; simp [hl'])
  | leaf w cur => cases hw
  | unlockLeaf w cur r =>
      obtain ⟨rfl, rfl⟩ := Prod.mk.inj (Option.some.inj hstep)
      exact ⟨rfl, rfl, trivial⟩
  | putEnter key val =>
      obtain ⟨m₁, hlock, heq⟩ := Option.map_eq_some_iff.mp hstep
      obtain ⟨rfl, rfl⟩ := Prod.mk.inj heq
      exact ⟨lock_tree hlock, rfl, trivial⟩
  | putRoot key val =>
      obtain ⟨rfl, rfl⟩ := Prod.mk.inj (Option.some.inj hstep)
      have hlatch : OnPath g m.tree key [.latch] := by
        refine ⟨by simp [Allocated], ?_, by simp⟩
        simp only [List.mem_singleton, forall_eq, Ranges.Has, hgrid.whole]
        exact inRange_univ key
      obtain ⟨child, hchild, hpath⟩ := hgrid.descend hlatch rowOf_latch
        (hpend (.latch, .exclusive) (.head _))
      obtain rfl : m.tree.root = child := by simpa [upperSlot] using hchild
      exact ⟨rfl, rfl, hpath, rfl⟩
  | putLockRoot key val cur =>
      obtain ⟨m₁, hlock, heq⟩ := Option.map_eq_some_iff.mp hstep
      obtain ⟨rfl, rfl⟩ := Prod.mk.inj heq
      exact ⟨lock_tree hlock, rfl, hp.1, by simp, fun _ => by rw [← hp.2]; rfl⟩
  | putVisit x =>
      obtain ⟨q, hq, heq⟩ := Option.map_eq_some_iff.mp hstep
      obtain ⟨rfl, rfl⟩ := Prod.mk.inj heq
      obtain ⟨cur, hcur, hq⟩ := Option.bind_eq_some_iff.mp hq
      split at hq
      · rename_i hheap
        obtain rfl := Option.some.inj hq
        exact ⟨rfl, rfl, hp, cur, hcur, by rw [hheap]; rfl⟩
      · rename_i ks cs hheap
        obtain ⟨child', hget, rfl⟩ := Option.map_eq_some_iff.mp hq
        obtain ⟨rest, hheld⟩ := List.head?_eq_some_iff.mp hcur
        have hlocks : x.locks = .node cur :: (rest.map .node ++ x.latchLocks) := by
          simp [PutCtx.locks, hheld]
        have hpath := hp.onPath
        rw [hlocks] at hpath
        obtain ⟨child, hchild, hpath'⟩ := hgrid.descend hpath (rowOf_of_heap hheap)
          (hpend (.node cur, .exclusive) (by simp [Pc.claims, hlocks]))
        rw [hchild] at hget
        obtain rfl := Option.some.inj hget
        exact ⟨rfl, rfl, hp, by rwa [hlocks]⟩
  | putLockChild x child =>
      obtain ⟨m₁, hlock, heq⟩ := Option.map_eq_some_iff.mp hstep
      obtain ⟨rfl, rfl⟩ := Prod.mk.inj heq
      exact ⟨lock_tree hlock, rfl, hp⟩
  | putTest x child =>
      obtain ⟨q, hq, heq⟩ := Option.map_eq_some_iff.mp hstep
      obtain ⟨rfl, rfl⟩ := Prod.mk.inj heq
      simp only [putTestStep] at hq
      split at hq
      · rename_i hsafe
        obtain rfl := Option.some.inj hq
        refine ⟨rfl, rfl, ⟨?_, ?_, by simp⟩, hsafe⟩
        · exact fun l' hl' => hp.2.alloc l' (by simp only [List.mem_singleton] at hl'; simp [hl'])
        · exact fun l' hl' => hp.2.has l' (by simp only [List.mem_singleton] at hl'; simp [hl'])
      · obtain ⟨held, hheld, rfl⟩ := Option.map_eq_some_iff.mp hq
        simp only [hold] at hheld
        split at hheld
        · obtain rfl := Option.some.inj hheld
          refine ⟨rfl, rfl, hp.2, fun hf => ?_, fun ht => ?_⟩
          · obtain ⟨top, htop, hn⟩ := hp.1.topped.safe hf
            exact ⟨top, by simp [List.getLast?_cons, htop], hn⟩
          · simp [List.getLast?_cons, hp.1.topped.root ht]
        · cases hheld
  | putLeaf x => cases hw
  | putUp x above sep right => cases hw
  | unlockAll todo after =>
      simp only [next, unlockStep] at hstep
      split at hstep
      · obtain ⟨rfl, rfl⟩ := Prod.mk.inj (Option.some.inj hstep)
        cases after with
        | descend key val child => exact ⟨rfl, rfl, hp⟩
        | ret b => exact ⟨rfl, rfl, trivial⟩
      · obtain ⟨rfl, rfl⟩ := Prod.mk.inj (Option.some.inj hstep)
        cases after with
        | descend key val child =>
            exact ⟨rfl, rfl, hp.1, fun _ => ⟨child, rfl, hp.2⟩, by simp⟩
        | ret b => exact ⟨rfl, rfl, trivial⟩
  | returned r =>
      obtain ⟨rfl, rfl⟩ := Prod.mk.inj (Option.some.inj hstep)
      exact ⟨rfl, rfl, trivial⟩

end

end BptreeCoupling
