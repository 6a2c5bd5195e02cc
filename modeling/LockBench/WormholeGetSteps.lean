import LockBench.WormholeGetWalk

/-!
# The steps of `wormhole_get` and of the lock paths

`Step` lists the transitions of a thread with their guards; `next` takes no others
(`step_of_next`).  What is needed of a transition is said three times over: what it does to
the memory and to the thread's locks (`Effect`), what it does to the thread's part in a
structural change (`RoleStep`), and that only the two last loads of a `get` lead to its result
(`Step.late`).
-/

namespace WormholeGet

section

variable {T K V : Type} [DecidableEq T] [DecidableEq K]

/-- The transitions of thread `t` on the memory `m`. -/
inductive Step (P : Params K V) (t : T) (m : Mem T K V) : Pc K V → Mem T K V → Pc K V → Prop
  | callGet (k : K) : Step P t m .idle m (.getLoad k)
  | callWrite (k : K) : Step P t m .idle m (.jumpLoad k)
  | getLoad (k : K) : Step P t m (.getLoad k) m (.getJump k m.hmap)
  | getJump (k : K) (h : Nat) : Step P t m (.getJump k h) m (.getLv k h (m.cover h k))
  | getLv (k : K) (h : Nat) (l : Leaf) : Step P t m (.getLv k h l) m (.getSeq k h l)
  | getLvRetry (k : K) (h : Nat) (l : Leaf) : Step P t m (.getLv k h l) m (.getLoad k)
  | getSeq (k : K) (h : Nat) (l : Leaf) (even : m.seq l % 2 = 0) :
      Step P t m (.getSeq k h l) m (.probe k h l (m.seq l))
  | getSeqRetry (k : K) (h : Nat) (l : Leaf) : Step P t m (.getSeq k h l) m (.getLoad k)
  | probe (k : K) (h : Nat) (l : Leaf) (q : Nat) :
      Step P t m (.probe k h l q) m (probeNext P k h l q (m.hs l (home P k)))
  | left (k : K) (h : Nat) (l : Leaf) (q i : Nat) :
      Step P t m (.left k h l q i) m (leftNext P k h l q i (m.hs l i))
  | right (k : K) (h : Nat) (l : Leaf) (q i : Nat) :
      Step P t m (.right k h l q i) m (rightNext P k h l q i (m.hs l i))
  | getSeqEnd (k : K) (h : Nat) (l : Leaf) (q : Nat) (r : Option V)
      (same : u64 q = u64 (m.seq l)) : Step P t m (.getSeqEnd k h l q r) m (.getLvEnd k h l r)
  | getSeqEndRetry (k : K) (h : Nat) (l : Leaf) (q : Nat) (r : Option V) :
      Step P t m (.getSeqEnd k h l q r) m (.getLoad k)
  | getLvEnd (k : K) (h : Nat) (l : Leaf) (r : Option V) (le : u64 (m.lv l) ≤ u64 h) :
      Step P t m (.getLvEnd k h l r) m (.returned k r)
  | getLvEndRetry (k : K) (h : Nat) (l : Leaf) (r : Option V) :
      Step P t m (.getLvEnd k h l r) m (.getLoad k)
  | returned (k : K) (r : Option V) : Step P t m (.returned k r) m .idle
  | jumpLoad (k : K) : Step P t m (.jumpLoad k) m (.jumpLeaf k m.hmap)
  | jumpLeaf (k : K) (h : Nat) : Step P t m (.jumpLeaf k h) m (.tryLock k h (m.cover h k))
  | tryLock (k : K) (h : Nat) (l : Leaf) (free : m.lock l = none) :
      Step P t m (.tryLock k h l) (m.setLock l (some t)) (.jumpBump k h l)
  | tryLockFail (k : K) (h : Nat) (l : Leaf) : Step P t m (.tryLock k h l) m (.retest k h l)
  | retest (k : K) (h : Nat) (l : Leaf) : Step P t m (.retest k h l) m (.tryLock k h l)
  | retestRetry (k : K) (h : Nat) (l : Leaf) : Step P t m (.retest k h l) m (.jumpLoad k)
  | jumpBump (k : K) (h : Nat) (l : Leaf) :
      Step P t m (.jumpBump k h l) (m.bump l) (.jumpCheck k h l)
  | jumpCheck (k : K) (h : Nat) (l : Leaf) : Step P t m (.jumpCheck k h l) m (.inSection l)
  | jumpCheckRetry (k : K) (h : Nat) (l : Leaf) :
      Step P t m (.jumpCheck k h l) m (.unlock l [] (.retry k))
  | store (l i : Nat) (e : Entry V) : Step P t m (.inSection l) (m.setEntry l i e) (.inSection l)
  | commit (l : Leaf) (k : K) (r : Option V) (covered : m.cover m.hmap k = l) :
      Step P t m (.inSection l) (m.setContent k r) (.inSection l)
  | sectionEnd (l : Leaf) : Step P t m (.inSection l) m (.unlock l [] .done)
  | alloc (l l₂ : Leaf) (free : m.used l₂ = false) :
      Step P t m (.inSection l) (m.alloc l₂) (.splitFill l l₂)
  | lockNext (l l₂ : Leaf) (used : m.used l₂ = true) :
      Step P t m (.inSection l) m (.mergeLock l l₂)
  | unlock (l : Leaf) (ls : List Leaf) (n : After K) :
      Step P t m (.unlock l ls n) (m.bump l) (.release l ls n)
  | release (l : Leaf) (n : After K) : Step P t m (.release l [] n) (m.setLock l none) n.pc
  | releaseNext (l l' : Leaf) (ls : List Leaf) (n : After K) :
      Step P t m (.release l (l' :: ls) n) (m.setLock l none) (.unlock l' ls n)
  | splitStore (l₁ l₂ i : Nat) (e : Entry V) :
      Step P t m (.splitFill l₁ l₂) (m.setEntry l₁ i e) (.splitFill l₁ l₂)
  | splitStoreNext (l₁ l₂ i : Nat) (e : Entry V) :
      Step P t m (.splitFill l₁ l₂) (m.setEntry l₂ i e) (.splitFill l₁ l₂)
  | splitCommit (l₁ l₂ : Leaf) (k : K) (r : Option V) (covered : m.cover m.hmap k = l₁) :
      Step P t m (.splitFill l₁ l₂) (m.setContent k r) (.splitFill l₁ l₂)
  | splitFail (l₁ l₂ : Leaf) : Step P t m (.splitFill l₁ l₂) m (.unlock l₁ [] .done)
  | splitGo (l₁ l₂ : Leaf) : Step P t m (.splitFill l₁ l₂) m (.splitLock l₁ l₂)
  | splitLock (l₁ l₂ : Leaf) (free : m.lock l₂ = none) :
      Step P t m (.splitLock l₁ l₂) (m.setLock l₂ (some t)) (.splitBump l₁ l₂)
  | splitBump (l₁ l₂ : Leaf) :
      Step P t m (.splitBump l₁ l₂) (m.bump l₂) (.metaLock .split l₁ l₂)
  | mergeLock (l₁ l₂ : Leaf) (free : m.lock l₂ = none) :
      Step P t m (.mergeLock l₁ l₂) (m.setLock l₂ (some t)) (.mergeBump l₁ l₂)
  | mergeBump (l₁ l₂ : Leaf) : Step P t m (.mergeBump l₁ l₂) (m.bump l₂) (.mergeFill l₁ l₂)
  | mergeStore (l₁ l₂ i : Nat) (e : Entry V) :
      Step P t m (.mergeFill l₁ l₂) (m.setEntry l₁ i e) (.mergeFill l₁ l₂)
  | mergeStoreNext (l₁ l₂ i : Nat) (e : Entry V) :
      Step P t m (.mergeFill l₁ l₂) (m.setEntry l₂ i e) (.mergeFill l₁ l₂)
  | mergeCommit (l₁ l₂ : Leaf) (k : K) (r : Option V)
      (covered : m.cover m.hmap k = l₁ ∨ m.cover m.hmap k = l₂) :
      Step P t m (.mergeFill l₁ l₂) (m.setContent k r) (.mergeFill l₁ l₂)
  | mergeGo (l₁ l₂ : Leaf) (keep : Bool) :
      Step P t m (.mergeFill l₁ l₂) m (.metaLock (.merge keep) l₁ l₂)
  | mergeEnd (l₁ l₂ : Leaf) : Step P t m (.mergeFill l₁ l₂) m (.unlock l₁ [l₂] .done)
  | metaLock (x : Change) (l₁ l₂ : Leaf) (free : m.metalock = none) :
      Step P t m (.metaLock x l₁ l₂) { m with metalock := some t } (.metaLv₁ x l₁ l₂)
  | metaLockFail (l₁ l₂ : Leaf) : Step P t m (.metaLock .split l₁ l₂) m (.inSection l₁)
  | metaLv₁ (x : Change) (l₁ l₂ : Leaf) :
      Step P t m (.metaLv₁ x l₁ l₂) (m.setLv l₁ (m.hmap + 1)) (.metaLv₂ x l₁ l₂)
  | metaLv₁Fail (l₁ l₂ : Leaf) :
      Step P t m (.metaLv₁ .split l₁ l₂) { m with metalock := none } (.inSection l₁)
  | metaLv₂ (x : Change) (l₁ l₂ : Leaf) :
      Step P t m (.metaLv₂ x l₁ l₂) (m.setLv l₂ (m.hmap + 1)) (.metaSwitch x l₁ l₂)
  | switchSplit (l₁ l₂ : Leaf) (right : K → Bool) :
      Step P t m (.metaSwitch .split l₁ l₂) (m.switch fun k =>
        if m.cover m.hmap k = l₁ ∧ right k = true then l₂ else m.cover m.hmap k)
        (.unlock l₁ [l₂] (.metaUnlock none))
  | switchMerge (l₁ l₂ : Leaf) (keep : Bool) :
      Step P t m (.metaSwitch (.merge keep) l₁ l₂) (m.switch fun k =>
        if m.cover m.hmap k = l₂ then l₁ else m.cover m.hmap k)
        (if keep then .unlock l₂ [] (.metaUnlock (some l₁)) else .unlock l₁ [l₂] (.metaUnlock none))
  | metaUnlock : Step P t m (.metaUnlock none) { m with metalock := none } .idle
  | metaUnlockKeep (l : Leaf) :
      Step P t m (.metaUnlock (some l)) { m with metalock := none } (.inSection l)

/-- The parity is that of the word. -/
theorem u64_mod_two (n : Nat) : u64 n % 2 = n % 2 := by
  rw [u64]
  omega

omit [DecidableEq T] in
/-- **The transitions are those of `next`.** -/
theorem step_of_next {P : Params K V} {t : T} {m m' : Mem T K V} {p p' : Pc K V} {c : Choice K V}
    (h : next P t m p c = some (m', p')) : Step P t m p m' p' := by
  cases p with
  | getLoad | getJump | probe | left | right | returned | jumpLoad | jumpLeaf | jumpBump | unlock
  | splitBump | mergeBump | metaLv₂ =>
      obtain ⟨rfl, rfl⟩ := Prod.mk.inj (Option.some.inj h)
      constructor
  | getLv | retest | jumpCheck =>
      obtain ⟨rfl, rfl⟩ := Prod.mk.inj (Option.some.inj h)
      split <;> constructor
  | getLvEnd k h' l r =>
      obtain ⟨rfl, rfl⟩ := Prod.mk.inj (Option.some.inj h)
      split
      next le => exact .getLvEnd k h' l r le
      next => constructor
  | getSeq k h' l =>
      obtain ⟨rfl, rfl⟩ := Prod.mk.inj (Option.some.inj h)
      rw [u64_mod_two]
      split
      · constructor
      · exact .getSeq k h' l (by omega)
  | getSeqEnd k h' l q r =>
      obtain ⟨rfl, rfl⟩ := Prod.mk.inj (Option.some.inj h)
      split
      next same => exact .getSeqEnd k h' l q r same
      · constructor
  | release l ls n =>
      obtain ⟨rfl, rfl⟩ := Prod.mk.inj (Option.some.inj h)
      cases ls <;> constructor
  | metaUnlock keep =>
      obtain ⟨rfl, rfl⟩ := Prod.mk.inj (Option.some.inj h)
      cases keep <;> constructor
  | metaSwitch x l₁ l₂ =>
      cases x with
      | merge keep =>
          obtain ⟨rfl, rfl⟩ := Prod.mk.inj (Option.some.inj h)
          exact .switchMerge l₁ l₂ keep
      | split =>
          cases c with
          | split right =>
              obtain ⟨rfl, rfl⟩ := Prod.mk.inj (Option.some.inj h)
              exact .switchSplit l₁ l₂ right
          | _ => contradiction
  | _ =>
      simp only [next] at h
      repeat' split at h
      all_goals first
        | contradiction
        | (obtain ⟨rfl, rfl⟩ := Prod.mk.inj (Option.some.inj h)
           constructor <;> simp_all)

/-! ## What a step does to the memory and to the locks -/

/-- The leaf that stays locked after a series of unlocks. -/
def After.kept : After K → List Leaf
  | .metaUnlock (some l) => [l]
  | _ => []

namespace Pc

/-- The leaves whose locks the thread has. -/
def holds : Pc K V → List Leaf
  | .jumpBump _ _ l | .jumpCheck _ _ l | .inSection l | .metaUnlock (some l) => [l]
  | .unlock l ls n | .release l ls n => l :: (ls ++ n.kept)
  | .splitFill l₁ _ | .splitLock l₁ _ | .mergeLock l₁ _ => [l₁]
  | .splitBump l₁ l₂ | .mergeBump l₁ l₂ | .mergeFill l₁ l₂ | .metaLock _ l₁ l₂
  | .metaLv₁ _ l₁ l₂ | .metaLv₂ _ l₁ l₂ | .metaSwitch _ l₁ l₂ => [l₁, l₂]
  | _ => []

/-- The leaves in whose write sections the thread is. -/
def writes : Pc K V → List Leaf
  | .jumpCheck _ _ l | .inSection l | .metaUnlock (some l) => [l]
  | .unlock l ls n => l :: (ls ++ n.kept)
  | .release _ ls n => ls ++ n.kept
  | .splitFill l₁ _ | .splitLock l₁ _ | .splitBump l₁ _ | .mergeLock l₁ _ | .mergeBump l₁ _ => [l₁]
  | .mergeFill l₁ l₂ | .metaLock _ l₁ l₂ | .metaLv₁ _ l₁ l₂ | .metaLv₂ _ l₁ l₂
  | .metaSwitch _ l₁ l₂ => [l₁, l₂]
  | _ => []

/-- The thread has `metalock`. -/
def inMeta : Pc K V → Bool
  | .metaLv₁ _ _ _ | .metaLv₂ _ _ _ | .metaSwitch _ _ _ | .metaUnlock _
  | .unlock _ _ (.metaUnlock _) | .release _ _ (.metaUnlock _) => true
  | _ => false

/-- The thread is behind the last load of `occ_seq` in a `get`. -/
def late : Pc K V → Bool
  | .getLvEnd _ _ _ _ | .returned _ _ => true
  | _ => false

/-- The leaf that a jump led to. -/
def prim : Pc K V → Option Leaf
  | .inSection l | .splitFill l _ | .splitLock l _ | .splitBump l _ | .mergeLock l _
  | .mergeBump l _ | .mergeFill l _ | .metaLock _ l _ | .metaLv₁ _ l _ | .metaLv₂ _ l _
  | .metaSwitch _ l _ | .unlock _ _ (.metaUnlock (some l)) | .release _ _ (.metaUnlock (some l))
  | .metaUnlock (some l) => some l
  | _ => none

/-- The leaf that the thread is going to lock. -/
def wants : Pc K V → Option Leaf
  | .tryLock _ _ l | .retest _ _ l | .splitFill _ l | .splitLock _ l | .mergeLock _ l => some l
  | _ => none

/-- The new leaf of a split that is not in any `hmap` yet. -/
def priv : Pc K V → Option Leaf
  | .splitFill _ l | .splitLock _ l | .splitBump _ l | .metaLock .split _ l | .metaLv₁ .split _ l
  | .metaLv₂ .split _ l | .metaSwitch .split _ l => some l
  | _ => none

end Pc

/-- The locks and sections of the thread are the same, or fewer. -/
structure SameLocks (p p' : Pc K V) : Prop where
  holds : ∀ l ∈ p'.holds, l ∈ p.holds
  nodup : p.holds.Nodup → p'.holds.Nodup
  writes : ∀ l ∈ p'.holds, l ∈ p'.writes ↔ l ∈ p.writes

/-- **What one step does to the memory.** -/
inductive Effect (t : T) (m : Mem T K V) (p p' : Pc K V) : Mem T K V → Prop
  | none (same : SameLocks p p') : Effect t m p p' m
  | acquire (l : Leaf) (free : m.lock l = .none) (wants : p.wants = some l)
      (holds : p'.holds.Perm (l :: p.holds)) (writes : p'.writes = p.writes) : Effect t m p p' (m.setLock l (some t))
  | release (l : Leaf) (holds : p.holds = l :: p'.holds) (writes : p.writes = p'.writes)
      (sub : ∀ l ∈ p.writes, l ∈ p'.holds) : Effect t m p p' (m.setLock l .none)
  | bump (l : Leaf) (mem : l ∈ p.holds) (holds : p'.holds = p.holds)
      (ends : p.holds.Nodup → l ∈ p.writes → ∃ ls n, p = .unlock l ls n)
      (writes : p.holds.Nodup → ∀ l' ∈ p.holds,
        (l' ∈ p'.writes ↔ if l' = l then l ∉ p.writes else l' ∈ p.writes)) :
      Effect t m p p' (m.bump l)
  | store (l i : Nat) (e : Entry V) (same : p' = p)
      (mem : l ∈ p.writes ∨ p.priv = some l) : Effect t m p p' (m.setEntry l i e)
  | commit (k : K) (r : Option V) (same : p' = p) (mem : m.cover m.hmap k ∈ p.writes) :
      Effect t m p p' (m.setContent k r)
  | alloc (l : Leaf) (free : m.used l = false) (same : SameLocks p p') : Effect t m p p' (m.alloc l)
  | metaLock (free : m.metalock = .none) (same : SameLocks p p') :
      Effect t m p p' { m with metalock := some t }
  | metaUnlock (own : p.inMeta = true) (same : SameLocks p p') :
      Effect t m p p' { m with metalock := .none }
  | setLv (l : Leaf) (own : p.inMeta = true) (same : SameLocks p p') :
      Effect t m p p' (m.setLv l (m.hmap + 1))
  | switch (x : Change) (l₁ l₂ : Leaf) (c : K → Leaf) (at_ : p = .metaSwitch x l₁ l₂)
      (moved : ∀ k, c k ≠ m.cover m.hmap k →
        (m.cover m.hmap k = l₁ ∨ m.cover m.hmap k = l₂) ∧ (c k = l₁ ∨ c k = l₂ ∧ x = .split))
      (same : SameLocks p p') : Effect t m p p' (m.switch c)

omit [DecidableEq K] in
/-- The same locks and the same sections. -/
theorem SameLocks.of_eq {p p' : Pc K V} (hh : p'.holds = p.holds) (hw : p'.writes = p.writes) :
    SameLocks p p' :=
  ⟨fun l hl => hh ▸ hl, fun h => hh ▸ h, fun l _ => by rw [hw]⟩

omit [DecidableEq K] in
/-- No locks behind the step. -/
theorem SameLocks.of_nil {p p' : Pc K V} (hh : p'.holds = []) : SameLocks p p' := by
  refine ⟨?_, ?_, ?_⟩ <;> rw [hh] <;> simp

omit [DecidableEq K] in
/-- The walk has no locks, no part in a structural change and no result. -/
theorem InWindow.plain {k : K} {h : Nat} {l : Leaf} {q : Nat} {p : Pc K V}
    (hp : InWindow k h l q p) :
    p.holds = [] ∧ p.inMeta = false ∧ p.priv = none ∧ p.late = false := by
  rcases hp with ⟨i, rfl⟩ | ⟨i, rfl⟩ | ⟨r, rfl⟩ <;> exact ⟨rfl, rfl, rfl, rfl⟩

omit [DecidableEq K] in
/-- Behind the last unlock the thread has the leaf that it keeps. -/
theorem After.pc_locks (n : After K) :
    (n.pc : Pc K V).holds = n.kept ∧ (n.pc : Pc K V).writes = n.kept := by
  rcases n with k | _ | _ | l <;> exact ⟨rfl, rfl⟩

omit [DecidableEq T] in
/-- The bump at the end of a section. -/
theorem Effect.unlock {t : T} {m : Mem T K V} (l : Leaf) (ls : List Leaf) (n : After K) :
    Effect t m (.unlock l ls n) (.release l ls n) (m.bump l) := by
  refine .bump l (.head _) rfl (fun _ _ => ⟨ls, n, rfl⟩) fun hnodup l' hl' => ?_
  have hnot : l ∉ ls ++ n.kept := (List.nodup_cons.mp hnodup).1
  by_cases heq : l' = l
  · subst heq
    simp only [Pc.writes, if_true, List.mem_cons, true_or, not_true, iff_false]
    exact hnot
  · simp only [Pc.writes, List.mem_cons, heq, false_or, if_false]

omit [DecidableEq T] in
/-- The bump at the beginning of the section of a second leaf. -/
theorem Effect.second {t : T} {m : Mem T K V} {l₁ l₂ : Leaf} {p p' : Pc K V}
    (hp : p.holds = [l₁, l₂]) (hp' : p'.holds = [l₁, l₂]) (hw : p.writes = [l₁])
    (hw' : p'.writes = [l₁, l₂]) : Effect t m p p' (m.bump l₂) := by
  refine .bump l₂ (by simp [hp]) (hp'.trans hp.symm) (fun hnodup hmem => ?_) fun hnodup l' _ => ?_
  · rw [hp] at hnodup
    rw [hw] at hmem
    simp [List.mem_singleton.mp hmem] at hnodup
  · rw [hp] at hnodup
    have hne : l₂ ≠ l₁ := fun heq => by simp [heq] at hnodup
    by_cases heq : l' = l₂ <;> simp [hw, hw', heq, hne]

omit [DecidableEq T] in
/-- **Every transition has an effect of the list.** -/
theorem Step.effect {P : Params K V} {t : T} {m m' : Mem T K V} {p p' : Pc K V}
    (h : Step P t m p m' p') : Effect t m p p' m' := by
  cases h with
  -- A reader, or a writer that has no lock yet.
  | callGet | callWrite | getLoad | getJump | getLv | getLvRetry | getSeq | getSeqRetry | getSeqEnd
  | getSeqEndRetry | getLvEnd | getLvEndRetry | returned | jumpLoad | jumpLeaf | tryLockFail | retest
  | retestRetry => exact .none (.of_nil rfl)
  | probe k h l q => exact .none (.of_nil (inWindow_walk P k h l q 0 _).1.plain.1)
  | left k h l q i => exact .none (.of_nil (inWindow_walk P k h l q i _).2.1.plain.1)
  | right k h l q i => exact .none (.of_nil (inWindow_walk P k h l q i _).2.2.plain.1)
  -- Locks and counters.
  | tryLock k h l free => exact .acquire l free rfl (.refl _) rfl
  | splitLock l₁ l₂ free => exact .acquire l₂ free rfl (.swap l₂ l₁ []) rfl
  | mergeLock l₁ l₂ free => exact .acquire l₂ free rfl (.swap l₂ l₁ []) rfl
  | jumpBump k h l =>
      exact .bump l (.head _) rfl (fun _ => nofun) fun _ l' hl' => by simp_all [Pc.holds, Pc.writes]
  | splitBump l₁ l₂ => exact .second rfl rfl rfl rfl
  | mergeBump l₁ l₂ => exact .second rfl rfl rfl rfl
  | unlock l ls n => exact .unlock l ls n
  | release l n =>
      obtain ⟨hholds, hwrites⟩ := After.pc_locks (V := V) n
      refine .release l ?_ hwrites.symm ?_
      · rw [hholds]
        rfl
      · rw [hholds]
        exact fun _ hl => hl
  | releaseNext l l' ls n => exact .release l rfl rfl fun _ hl => hl
  -- Inside a section.
  | jumpCheck | jumpCheckRetry | sectionEnd | lockNext | splitFail | splitGo | mergeGo | mergeEnd =>
      exact .none (.of_eq rfl rfl)
  | store l i e => exact .store l i e rfl (.inl (.head _))
  | splitStore l₁ l₂ i e => exact .store l₁ i e rfl (.inl (.head _))
  | splitStoreNext l₁ l₂ i e => exact .store l₂ i e rfl (.inr rfl)
  | mergeStore l₁ l₂ i e => exact .store l₁ i e rfl (.inl (.head _))
  | mergeStoreNext l₁ l₂ i e => exact .store l₂ i e rfl (.inl (.tail _ (.head _)))
  | commit l k r covered => exact .commit k r rfl (covered ▸ .head _)
  | splitCommit l₁ l₂ k r covered => exact .commit k r rfl (covered ▸ .head _)
  | mergeCommit l₁ l₂ k r covered =>
      refine .commit k r rfl ?_
      rcases covered with hk | hk <;> simp [Pc.writes, hk]
  | alloc l l₂ free => exact .alloc l₂ free (.of_eq rfl rfl)
  -- The change of the `hmap`.
  | metaLock x l₁ l₂ free => exact .metaLock free (.of_eq rfl rfl)
  | metaLockFail => refine .none ⟨?_, ?_, ?_⟩ <;> simp [Pc.holds, Pc.writes]
  | metaLv₁ x l₁ l₂ => exact .setLv l₁ rfl (.of_eq rfl rfl)
  | metaLv₁Fail => refine .metaUnlock rfl ⟨?_, ?_, ?_⟩ <;> simp [Pc.holds, Pc.writes]
  | metaLv₂ x l₁ l₂ => exact .setLv l₂ rfl (.of_eq rfl rfl)
  | metaUnlock => exact .metaUnlock rfl (.of_eq rfl rfl)
  | metaUnlockKeep => exact .metaUnlock rfl (.of_eq rfl rfl)
  | switchSplit l₁ l₂ right =>
      refine .switch .split l₁ l₂ _ rfl (fun k hk => ?_) (.of_eq rfl rfl)
      split at hk
      next hcond => exact ⟨.inl hcond.1, by simp [hcond]⟩
      next => exact absurd rfl hk
  | switchMerge l₁ l₂ keep =>
      refine .switch (.merge keep) l₁ l₂ _ rfl (fun k hk => ?_) ?_
      · split at hk
        next hcond => exact ⟨.inr hcond, by simp [hcond]⟩
        next => exact absurd rfl hk
      · cases keep with
        | false => exact .of_eq rfl rfl
        | true =>
            refine ⟨?_, ?_, ?_⟩ <;> simp [Pc.holds, Pc.writes, After.kept]
            exact fun hne => Ne.symm hne

/-! ## The thread's part in a structural change -/

/-- How a step changes the thread's part in a structural change: it gets `metalock`
by taking it, and a new leaf by allocating it. -/
structure RoleStep (t : T) (m m' : Mem T K V) (p p' : Pc K V) : Prop where
  enter : p'.inMeta = true →
    p.inMeta = true ∧ m'.metalock = m.metalock ∨ m.metalock = none ∧ m'.metalock = some t
  metalock : m'.metalock = m.metalock ∨ m.metalock = none ∨ p.inMeta = true
  priv : ∀ l, p'.priv = some l → p.priv = some l ∨ m.used l = false

omit [DecidableEq T] [DecidableEq K] in
/-- A step to a point without a part in one. -/
theorem RoleStep.plain {t : T} {m m' : Mem T K V} {p p' : Pc K V} (hin : p'.inMeta = false)
    (hpriv : p'.priv = none) (hmeta : m'.metalock = m.metalock) : RoleStep t m m' p p' := by
  refine ⟨fun h => ?_, .inl hmeta, fun l h => ?_⟩
  · cases hin.symm.trans h
  · cases hpriv.symm.trans h

omit [DecidableEq T] [DecidableEq K] in
/-- A step that keeps the thread's part. -/
theorem RoleStep.keep {t : T} {m m' : Mem T K V} {p p' : Pc K V}
    (hin : p'.inMeta = true → p.inMeta = true)
    (hpriv : ∀ l, p'.priv = some l → p.priv = some l) (hmeta : m'.metalock = m.metalock) :
    RoleStep t m m' p p' :=
  ⟨fun h => .inl ⟨hin h, hmeta⟩, .inl hmeta, fun l h => .inl (hpriv l h)⟩

omit [DecidableEq T] in
/-- **A thread's part in a structural change begins with `metalock` or a new leaf.** -/
theorem Step.roles {P : Params K V} {t : T} {m m' : Mem T K V} {p p' : Pc K V}
    (h : Step P t m p m' p') : RoleStep t m m' p p' := by
  cases h with
  | probe k h l q =>
      obtain ⟨-, hin, hpriv, -⟩ := (inWindow_walk P k h l q 0 (m.hs l (home P k))).1.plain
      exact .plain hin hpriv rfl
  | left k h l q i =>
      obtain ⟨-, hin, hpriv, -⟩ := (inWindow_walk P k h l q i (m.hs l i)).2.1.plain
      exact .plain hin hpriv rfl
  | right k h l q i =>
      obtain ⟨-, hin, hpriv, -⟩ := (inWindow_walk P k h l q i (m.hs l i)).2.2.plain
      exact .plain hin hpriv rfl
  | alloc l l₂ free =>
      refine ⟨nofun, .inl rfl, fun l' hl' => .inr ?_⟩
      rwa [← Option.some.inj hl']
  | unlock l ls n => exact .keep (by cases n <;> exact id) nofun rfl
  | release l n =>
      exact .keep (by rcases n with _ | _ | _ | _ <;> exact id)
        (by rcases n with _ | _ | _ | _ <;> exact nofun) rfl
  | releaseNext l l' ls n => exact .keep (by cases n <;> exact id) nofun rfl
  | splitStore | splitStoreNext | splitCommit | splitGo | splitLock | splitBump =>
      exact .keep nofun (fun _ hl => hl) rfl
  | metaLock x l₁ l₂ free =>
      exact ⟨fun _ => .inr ⟨free, rfl⟩, .inr (.inl free), fun _ hl => .inl (by cases x <;> exact hl)⟩
  | metaLv₁ x | metaLv₂ x => exact .keep id (fun _ hl => by cases x <;> exact hl) rfl
  | metaLv₁Fail => exact ⟨nofun, .inr (.inr rfl), nofun⟩
  | switchSplit => exact .keep (fun _ => rfl) nofun rfl
  | switchMerge l₁ l₂ keep => cases keep <;> exact .keep (fun _ => rfl) nofun rfl
  | metaUnlock => exact ⟨nofun, .inr (.inr rfl), nofun⟩
  | metaUnlockKeep => exact ⟨nofun, .inr (.inr rfl), nofun⟩
  | _ => exact .plain rfl rfl rfl

/-! ## The result and the contents -/

omit [DecidableEq T] in
/-- The points behind the last load of `occ_seq` are reached only by the two last loads of a
`get`. -/
theorem Step.late {P : Params K V} {t : T} {m m' : Mem T K V} {p p' : Pc K V}
    (h : Step P t m p m' p') (hlate : p'.late = true) :
    (∃ k n l q r, p = .getSeqEnd k n l q r ∧ u64 q = u64 (m.seq l) ∧ m' = m ∧
      p' = .getLvEnd k n l r) ∨
      ∃ k n l r, p = .getLvEnd k n l r ∧ u64 (m.lv l) ≤ u64 n ∧ m' = m ∧ p' = .returned k r := by
  have hno : p'.late = false → False := fun hfalse => by cases hfalse.symm.trans hlate
  cases h with
  | getSeqEnd k n l q r same => exact .inl ⟨k, n, l, q, r, rfl, same, rfl, rfl⟩
  | getLvEnd k n l r le => exact .inr ⟨k, n, l, r, rfl, le, rfl, rfl⟩
  | probe k n l q => exact (hno (inWindow_walk P k n l q 0 _).1.plain.2.2.2).elim
  | left k n l q i => exact (hno (inWindow_walk P k n l q i _).2.1.plain.2.2.2).elim
  | right k n l q i => exact (hno (inWindow_walk P k n l q i _).2.2.plain.2.2.2).elim
  | release l n => exact (hno (by rcases n with _ | _ | _ | _ <;> rfl)).elim
  | switchMerge l₁ l₂ keep => exact (hno (by cases keep <;> rfl)).elim
  | _ => exact (hno rfl).elim

omit [DecidableEq T] in
/-- Only a section's `commit` changes what the map holds. -/
theorem next_content {P : Params K V} {t : T} {m m' : Mem T K V} {p p' : Pc K V} {c : Choice K V}
    (h : next P t m p c = some (m', p')) {k : K} (hc : ∀ r, c ≠ .commit k r) :
    m'.content k = m.content k := by
  have hset : ∀ k' r, c = .commit k' r → (m.setContent k' r).content k = m.content k := by
    intro k' r hc'
    have hne : k ≠ k' := fun heq => hc r (heq ▸ hc')
    exact Function.update_of_ne hne ..
  cases p
  all_goals
    simp only [next] at h
    repeat' split at h
    all_goals first
      | contradiction
      | (obtain ⟨rfl, rfl⟩ := Prod.mk.inj (Option.some.inj h)
         first | rfl | exact hset _ _ rfl)

end

end WormholeGet
