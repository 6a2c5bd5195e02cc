import LockBench.SkipListOptimistic
import LockBench.WaitsFor

/-!
# Deadlock freedom of the skip list

A writer locks the predecessors of its search from the top level down, which is from left to
right, and `remove` locks its victim last; a lookup locks hand over hand in the same direction.
So whoever waits for a lock holds only locks of nodes further left.  The nodes a search has
found were linked at different instants, and some of them are marked by now; but a search moves
only to the right, so they ascend all the same.

`put` also waits for `fully_linked` of the node it has locked.  The insertion that will set the
flag has all its locks.
-/

namespace SkipList

section Deadlock

variable {T K V : Type}

/-! ## Locks held and awaited -/

/-- The locks a lookup holds. -/
def GetPc.locks : GetPc V → List Addr
  | .lockHead => []
  | .test _ pred | .step _ pred | .lockNext _ pred _ | .curr pred | .lockCurr pred _
  | .unlockLast pred _ => [pred]
  | .unlockPred _ pred x => [pred, x]
  | .marked pred c | .val pred c | .unlockCurr pred c _ => [pred, c]

/-- A removal holds the lock of its victim. -/
def RemovePc.holdsVictim : RemovePc → Bool
  | .victimMarked | .mark | .loadNext _ | .unlink _ _ | .unlockVictim _ => true
  | _ => false

/-- The locks a thread holds. -/
def Pc.locks : Pc K V → List Addr
  | .update _ _ n p => if p = .lock then [] else [n]
  | .put c _ => c.locked
  | .remove c p => if p.holdsVictim then c.victim :: c.locked else c.locked
  | .release _ locked _ => locked
  | .get _ _ p => p.locks
  | _ => []

/-- The mode in which a thread locks. -/
def Pc.mode : Pc K V → Mode
  | .get mode _ _ => mode
  | _ => .exclusive

/-- The lock that the next step of a thread takes, or whose version it takes. -/
def Pc.wants : Pc K V → Option Addr
  | .update _ _ n .lock => some n
  | .put c (.lock lvl) => if c.preds lvl ∈ c.locked then none else some (c.preds lvl)
  | .remove c (.lock lvl) => if c.preds lvl ∈ c.locked then none else some (c.preds lvl)
  | .remove c .lockVictim => some c.victim
  | .get _ _ .lockHead | .optimistic _ .beginHead => some head
  | .get _ _ (.lockNext _ _ x) => some x
  | .get _ _ (.lockCurr _ c) => some c
  | .optimistic _ (.begin _ nx) => some nx
  | .optimistic _ (.beginCurr _ _ c) => some c
  | _ => none

/-- Readers inside keep the thread from going on. -/
def Pc.excludes : Pc K V → Bool
  | .get .shared _ _ | .optimistic _ _ => false
  | _ => true

/-- Thread `t` cannot go on before thread `u` gives up a lock. -/
def WaitsForLock (s : State T K V) (t u : T) : Prop :=
  ∃ a, (s.pc t).wants = some a ∧
    (s.mem.owner a = some u ∨ (s.pc t).excludes = true ∧ u ∈ s.mem.readers a)

/-- Thread `t` checks `fully_linked` of a node that thread `u` is linking. -/
def WaitsForFlag (s : State T K V) (t u : T) : Prop :=
  ∃ k v n p, s.pc t = .update k v n .wait ∧ s.mem.fullyLinked n = false ∧
    (s.pc u).linking = some (n, p)

/-- Thread `t` cannot go on before thread `u` does something. -/
def WaitsFor (s : State T K V) (t u : T) : Prop :=
  WaitsForLock s t u ∨ WaitsForFlag s t u

/-! ## The order of the locks -/

/-- The nodes found from level `l` up ascend as the levels go down. -/
def Ladder (rank : Addr → WithBot (WithTop K)) [LT K] (preds : Nat → Addr) (l : Nat) : Prop :=
  ∀ i j, l ≤ i → i ≤ j → j < maxLevel → preds j = preds i ∨ rank (preds j) < rank (preds i)

/-- All locks taken are of nodes found at level `l` or above. -/
def LockedFrom (preds : Nat → Addr) (l : Nat) (locked : List Addr) : Prop :=
  ∀ a ∈ locked, ∃ j, l ≤ j ∧ j < maxLevel ∧ a = preds j

/-- The order in which an insertion takes its locks. -/
def putAscends (c : PutCtx K V) : PutPc → Prop
  | .level => c.locked = []
  | .lock lvl => LockedFrom c.preds (lvl + 1) c.locked
  | .predMarked lvl | .succMarked lvl | .checkNext lvl => LockedFrom c.preds lvl c.locked
  | _ => True

/-- The order in which a removal takes the locks of the predecessors. -/
def removeAscends (c : RemoveCtx K) : RemovePc → Prop
  | .lock lvl => LockedFrom c.preds (lvl + 1) c.locked
  | .predMarked lvl | .checkNext lvl => LockedFrom c.preds lvl c.locked
  | _ => True

/-- A search moves to the right, and its locks are taken in that order. -/
def Pc.ascends [LT K] (rank : Addr → WithBot (WithTop K)) : Pc K V → Prop
  | .find _ lvl pred f => Ladder rank (Function.update f.preds lvl pred) lvl
  | .put c p => Ladder rank c.preds 0 ∧ putAscends c p
  | .remove c p => Ladder rank c.preds 0 ∧ removeAscends c p
  | _ => True

/-! ## What a step does to the locks -/

section Steps

variable [DecidableEq T] [LinearOrder K]

/-- **What a step does to the locks**: it leaves them, takes the one that is wanted, or gives one
up. -/
inductive LockStep (t : T) (m m' : Mem T K V) (p p' : Pc K V) : Prop
  | keep (rank : m'.rank = m.rank ∨ ∃ c, p = .put c .new) (owner : m'.owner = m.owner)
      (readers : m'.readers = m.readers) (locks : p'.locks = p.locks)
      (mode : p.locks = [] ∨ p'.mode = p.mode)
  | take (a : Addr) (wants : p.wants = some a) (acquired : m.acquire p'.mode t a = some m')
      (locks : ∀ b, b ∈ p'.locks ↔ b = a ∨ b ∈ p.locks) (mode : p.locks = [] ∨ p'.mode = p.mode)
  | drop (a : Addr) (held : a ∈ p.locks) (released : m' = m.releaseAs p.mode t a)
      (locks : ∀ b, b ∈ p.locks ↔ b = a ∨ b ∈ p'.locks) (mode : p'.locks = [] ∨ p'.mode = p.mode)

omit [LinearOrder K] in
/-- Steps of an update in place. -/
theorem updateStep_lockStep {t : T} {m m' : Mem T K V} {k : K} {v : V} {n : Addr} {p : UpdatePc}
    {p' : Pc K V} (h : updateStep t m k v n p = some (m', p')) :
    LockStep t m m' (.update k v n p) p' := by
  cases p with
  | lock =>
      obtain ⟨m'', hlock, heq⟩ := Option.map_eq_some_iff.mp h
      obtain ⟨rfl, rfl⟩ := Prod.mk.inj heq
      exact .take n rfl hlock (fun b => by simp [Pc.locks]) (.inl rfl)
  | unlockRetry | unlock =>
      obtain ⟨rfl, rfl⟩ := Prod.mk.inj (Option.some.inj h)
      exact .drop n (.head _) rfl (fun b => by simp [Pc.locks, startFind]) (.inl rfl)
  | marked =>
      obtain ⟨rfl, rfl⟩ := Prod.mk.inj (Option.some.inj h)
      split <;> exact .keep (.inl rfl) rfl rfl rfl (.inr rfl)
  | wait =>
      obtain ⟨rfl, rfl⟩ := Prod.mk.inj (Option.some.inj h)
      split <;> exact .keep (.inl rfl) rfl rfl rfl (.inr rfl)
  | store =>
      obtain ⟨rfl, rfl⟩ := Prod.mk.inj (Option.some.inj h)
      exact .keep (.inl rfl) rfl rfl rfl (.inr rfl)

omit [LinearOrder K] in
/-- Steps of `put` under locks. -/
theorem putStep_lockStep {t : T} {m m' : Mem T K V} {c : PutCtx K V} {p : PutPc}
    {choice : Choice K V} {p' : Pc K V} (hfresh : m.owner m.fresh = none ∧ m.readers m.fresh = ∅)
    (hlevel : p = .level → c.locked = []) (h : putStep t m c choice p = some (m', p')) :
    LockStep t m m' (.put c p) p' := by
  cases p with
  | level =>
      simp only [putStep] at h
      split at h
      · split at h
        · obtain ⟨rfl, rfl⟩ := Prod.mk.inj (Option.some.inj h)
          exact .keep (.inl rfl) rfl rfl (hlevel rfl).symm (.inr rfl)
        · cases h
      · cases h
  | lock lvl =>
      simp only [putStep] at h
      split at h
      · obtain ⟨rfl, rfl⟩ := Prod.mk.inj (Option.some.inj h)
        exact .keep (.inl rfl) rfl rfl rfl (.inr rfl)
      · rename_i hnot
        obtain ⟨m'', hlock, heq⟩ := Option.map_eq_some_iff.mp h
        obtain ⟨rfl, rfl⟩ := Prod.mk.inj heq
        refine .take (c.preds lvl) (if_neg hnot) hlock (fun b => ?_) (.inr rfl)
        simp only [Pc.locks, List.mem_append, List.mem_singleton]
        exact or_comm
  | predMarked lvl | succMarked lvl =>
      obtain ⟨rfl, rfl⟩ := Prod.mk.inj (Option.some.inj h)
      split <;> exact .keep (.inl rfl) rfl rfl rfl (.inr rfl)
  | checkNext lvl =>
      obtain ⟨rfl, rfl⟩ := Prod.mk.inj (Option.some.inj h)
      split
      · exact .keep (.inl rfl) rfl rfl rfl (.inr rfl)
      · split <;> exact .keep (.inl rfl) rfl rfl rfl (.inr rfl)
  | new =>
      obtain ⟨rfl, rfl⟩ := Prod.mk.inj (Option.some.inj h)
      have howner : Function.update m.owner m.fresh none = m.owner := by
        rw [← hfresh.1, Function.update_eq_self]
      have hreaders : Function.update m.readers m.fresh ∅ = m.readers := by
        rw [← hfresh.2, Function.update_eq_self]
      exact .keep (.inr ⟨c, rfl⟩) howner hreaders rfl (.inr rfl)
  | fill n lvl | link n lvl =>
      obtain ⟨rfl, rfl⟩ := Prod.mk.inj (Option.some.inj h)
      split <;> exact .keep (.inl rfl) rfl rfl rfl (.inr rfl)
  | full n =>
      obtain ⟨rfl, rfl⟩ := Prod.mk.inj (Option.some.inj h)
      exact .keep (.inl rfl) rfl rfl rfl (.inr rfl)

omit [LinearOrder K] in
/-- Steps of `remove` under locks. -/
theorem removeStep_lockStep {t : T} {m m' : Mem T K V} {c : RemoveCtx K} {p : RemovePc}
    {p' : Pc K V} (hearly : (∃ l, p = .fullyLinked l) ∨ p = .marked → c.locked = [])
    (h : removeStep t m c p = some (m', p')) : LockStep t m m' (.remove c p) p' := by
  cases p with
  | fullyLinked l =>
      obtain ⟨rfl, rfl⟩ := Prod.mk.inj (Option.some.inj h)
      have hnil : (Pc.remove (V := V) c (.fullyLinked l)).locks = [] := hearly (.inl ⟨l, rfl⟩)
      split
      · exact .keep (.inl rfl) rfl rfl hnil.symm (.inl hnil)
      · split
        · exact .keep (.inl rfl) rfl rfl hnil.symm (.inl hnil)
        · exact .keep (.inl rfl) rfl rfl rfl (.inr rfl)
  | marked =>
      obtain ⟨rfl, rfl⟩ := Prod.mk.inj (Option.some.inj h)
      have hnil : (Pc.remove (V := V) c .marked).locks = [] := hearly (.inr rfl)
      split
      · exact .keep (.inl rfl) rfl rfl hnil.symm (.inl hnil)
      · exact .keep (.inl rfl) rfl rfl rfl (.inr rfl)
  | lock lvl =>
      simp only [removeStep] at h
      split at h
      · obtain ⟨rfl, rfl⟩ := Prod.mk.inj (Option.some.inj h)
        exact .keep (.inl rfl) rfl rfl rfl (.inr rfl)
      · rename_i hnot
        obtain ⟨m'', hlock, heq⟩ := Option.map_eq_some_iff.mp h
        obtain ⟨rfl, rfl⟩ := Prod.mk.inj heq
        refine .take (c.preds lvl) (if_neg hnot) hlock (fun b => ?_) (.inr rfl)
        simp only [Pc.locks, RemovePc.holdsVictim, Bool.false_eq_true, if_false, List.mem_append,
          List.mem_singleton]
        exact or_comm
  | predMarked lvl =>
      obtain ⟨rfl, rfl⟩ := Prod.mk.inj (Option.some.inj h)
      split <;> exact .keep (.inl rfl) rfl rfl rfl (.inr rfl)
  | checkNext lvl =>
      obtain ⟨rfl, rfl⟩ := Prod.mk.inj (Option.some.inj h)
      split
      · exact .keep (.inl rfl) rfl rfl rfl (.inr rfl)
      · split <;> exact .keep (.inl rfl) rfl rfl rfl (.inr rfl)
  | lockVictim =>
      obtain ⟨m'', hlock, heq⟩ := Option.map_eq_some_iff.mp h
      obtain ⟨rfl, rfl⟩ := Prod.mk.inj heq
      exact .take c.victim rfl hlock (fun b => List.mem_cons) (.inr rfl)
  | victimMarked =>
      obtain ⟨rfl, rfl⟩ := Prod.mk.inj (Option.some.inj h)
      split <;> exact .keep (.inl rfl) rfl rfl rfl (.inr rfl)
  | mark | loadNext lvl =>
      obtain ⟨rfl, rfl⟩ := Prod.mk.inj (Option.some.inj h)
      exact .keep (.inl rfl) rfl rfl rfl (.inr rfl)
  | unlink lvl succ =>
      obtain ⟨rfl, rfl⟩ := Prod.mk.inj (Option.some.inj h)
      split <;> exact .keep (.inl rfl) rfl rfl rfl (.inr rfl)
  | unlockVictim r =>
      obtain ⟨rfl, rfl⟩ := Prod.mk.inj (Option.some.inj h)
      exact .drop c.victim (.head _) rfl (fun b => List.mem_cons) (.inr rfl)

/-- Steps of `get` under locks. -/
theorem getStep_lockStep {t : T} {m m' : Mem T K V} {mode : Mode} {k : K} {p : GetPc V}
    {p' : Pc K V} (h : getStep t m mode k p = some (m', p')) :
    LockStep t m m' (.get mode k p) p' := by
  cases p with
  | lockHead =>
      obtain ⟨m'', hlock, heq⟩ := Option.map_eq_some_iff.mp h
      obtain ⟨rfl, rfl⟩ := Prod.mk.inj heq
      exact .take head rfl hlock (fun b => List.mem_cons) (.inr rfl)
  | test lvl pred =>
      obtain ⟨rfl, rfl⟩ := Prod.mk.inj (Option.some.inj h)
      split
      · exact .keep (.inl rfl) rfl rfl rfl (.inr rfl)
      · split <;> exact .keep (.inl rfl) rfl rfl rfl (.inr rfl)
  | step lvl pred | curr pred | val pred c =>
      obtain ⟨rfl, rfl⟩ := Prod.mk.inj (Option.some.inj h)
      exact .keep (.inl rfl) rfl rfl rfl (.inr rfl)
  | lockNext lvl pred x =>
      obtain ⟨m'', hlock, heq⟩ := Option.map_eq_some_iff.mp h
      obtain ⟨rfl, rfl⟩ := Prod.mk.inj heq
      refine .take x rfl hlock (fun b => ?_) (.inr rfl)
      simp [Pc.locks, GetPc.locks, or_comm]
  | lockCurr pred c =>
      obtain ⟨m'', hlock, heq⟩ := Option.map_eq_some_iff.mp h
      obtain ⟨rfl, rfl⟩ := Prod.mk.inj heq
      split <;>
        exact .take c rfl hlock (fun b => by simp [Pc.locks, GetPc.locks, or_comm]) (.inr rfl)
  | unlockPred lvl pred x =>
      obtain ⟨rfl, rfl⟩ := Prod.mk.inj (Option.some.inj h)
      exact .drop pred (.head _) rfl (fun b => List.mem_cons) (.inr rfl)
  | marked pred c =>
      obtain ⟨rfl, rfl⟩ := Prod.mk.inj (Option.some.inj h)
      split <;> exact .keep (.inl rfl) rfl rfl rfl (.inr rfl)
  | unlockCurr pred c r =>
      obtain ⟨rfl, rfl⟩ := Prod.mk.inj (Option.some.inj h)
      refine .drop c (.tail _ (.head _)) rfl (fun b => ?_) (.inr rfl)
      simp [Pc.locks, GetPc.locks, or_comm]
  | unlockLast pred r =>
      obtain ⟨rfl, rfl⟩ := Prod.mk.inj (Option.some.inj h)
      exact .drop pred (.head _) rfl (fun b => List.mem_cons) (.inl rfl)

omit [DecidableEq T] in
/-- A search holds no lock. -/
theorem findStep_locks (m : Mem T K V) (u : Upd K V) (lvl : Nat) (pred : Addr) (f : Found) :
    (findStep m u lvl pred f).locks = [] := by
  have hat : ∀ f, (foundAt u f).locks = [] := by
    intro f
    unfold foundAt
    split <;> rfl
  simp only [findStep]
  split
  · rfl
  · split
    · exact hat _
    · rfl

omit [DecidableEq T] in
/-- An optimistic lookup holds no lock. -/
theorem optimisticStep_locks (m : Mem T K V) (k : K) (p : OptPc V) :
    (optimisticStep m k p).locks = [] := by
  rcases optimisticStep_cases m k p with ⟨p', hp⟩ | ⟨r, hp⟩
  · rw [hp]
    rfl
  · rw [hp]
    rfl

/-- **Every step** leaves the locks, takes the one that is wanted, or gives one up. -/
theorem next_lockStep {kind : LockKind} {t : T} {m m' : Mem T K V} {p p' : Pc K V}
    {choice : Choice K V} {h : Addr → Nat} (hlocks : LocksOk m) (hl : LocalOk m h t p)
    (ha : p.ascends m.rank) (hnext : next kind t m p choice = some (m', p')) :
    LockStep t m m' p p' := by
  cases p with
  | idle =>
      simp only [next] at hnext
      split at hnext
      · split at hnext
        · rename_i c _
          obtain ⟨rfl, rfl⟩ := Prod.mk.inj (Option.some.inj hnext)
          cases c <;> exact .keep (.inl rfl) rfl rfl rfl (.inl rfl)
        · cases hnext
      · cases hnext
  | find u lvl pred f =>
      obtain ⟨rfl, rfl⟩ := Prod.mk.inj (Option.some.inj hnext)
      exact .keep (.inl rfl) rfl rfl (findStep_locks ..) (.inl rfl)
  | update k v n p => exact updateStep_lockStep hnext
  | put c p =>
      refine putStep_lockStep (hlocks.free _ le_rfl) ?_ hnext
      rintro rfl
      exact ha.2
  | remove c p =>
      refine removeStep_lockStep ?_ hnext
      rintro (⟨l, rfl⟩ | rfl)
      · exact hl.2
      · exact hl.2.2
  | release u locked r =>
      obtain ⟨hm, hp⟩ := Prod.mk.inj (Option.some.inj hnext)
      cases locked with
      | cons a rest =>
          subst hm hp
          exact .drop a (.head _) rfl (fun b => List.mem_cons) (.inr rfl)
      | nil =>
          subst hm hp
          cases r <;> exact .keep (.inl rfl) rfl rfl rfl (.inl rfl)
  | get mode k p => exact getStep_lockStep hnext
  | optimistic k p =>
      obtain ⟨rfl, rfl⟩ := Prod.mk.inj (Option.some.inj hnext)
      exact .keep (.inl rfl) rfl rfl (optimisticStep_locks ..) (.inl rfl)
  | returned r =>
      obtain ⟨rfl, rfl⟩ := Prod.mk.inj (Option.some.inj hnext)
      exact .keep (.inl rfl) rfl rfl rfl (.inl rfl)

end Steps

/-! ## Locks are taken in ascending order -/

section Order

variable [LinearOrder K] {rank rank' : Addr → WithBot (WithTop K)} {preds : Nat → Addr} {l : Nat}

/-- The ladder depends on the ranks of the predecessors only. -/
theorem Ladder.congr (h : Ladder rank preds l)
    (hrank : ∀ j, l ≤ j → j < maxLevel → rank' (preds j) = rank (preds j)) :
    Ladder rank' preds l := by
  intro i j hli hij hj
  rw [hrank i hli (by omega), hrank j (by omega) hj]
  exact h i j hli hij hj

/-- A search moves to the right. -/
theorem Ladder.move {f : Nat → Addr} {pred curr : Addr}
    (h : Ladder rank (Function.update f l pred) l) (hlt : rank pred < rank curr) :
    Ladder rank (Function.update f l curr) l := by
  intro i j hli hij hj
  by_cases hjl : j = l
  · obtain rfl : i = l := by omega
    exact .inl (by rw [hjl])
  · have hold := h i j hli hij hj
    by_cases hil : i = l
    · subst hil
      simp only [Function.update_self, Function.update_of_ne hjl] at hold ⊢
      rcases hold with heq | hlt'
      · exact .inr (heq ▸ hlt)
      · exact .inr (hlt'.trans hlt)
    · simpa only [Function.update_of_ne hjl, Function.update_of_ne hil] using hold

/-- A search goes on one level below. -/
theorem Ladder.down {f : Nat → Addr} {pred : Addr}
    (h : Ladder rank (Function.update f (l + 1) pred) (l + 1)) :
    Ladder rank (Function.update (Function.update f (l + 1) pred) l pred) l := by
  intro i j hli hij hj
  by_cases hil : i = l
  · subst hil
    by_cases hji : j = i
    · exact .inl (by rw [hji])
    · have hold := h (i + 1) j le_rfl (by omega) hj
      simpa only [Function.update_self, Function.update_of_ne hji] using hold
  · have hjl : j ≠ l := by omega
    simpa only [Function.update_of_ne hil, Function.update_of_ne hjl] using h i j (by omega) hij hj

/-- What is locked from a level on is among what is locked from a lower one. -/
theorem LockedFrom.mono {locked : List Addr} {l' : Nat} (h : LockedFrom preds l locked)
    (hl : l' ≤ l) : LockedFrom preds l' locked := by
  intro a ha
  obtain ⟨j, hj, hj', rfl⟩ := h a ha
  exact ⟨j, hl.trans hj, hj', rfl⟩

/-- One more lock, of the node found one level below. -/
theorem LockedFrom.snoc {locked : List Addr} (h : LockedFrom preds (l + 1) locked)
    (hl : l < maxLevel) : LockedFrom preds l (locked ++ [preds l]) := by
  intro a ha
  rcases List.mem_append.mp ha with ha | ha
  · exact h.mono (Nat.le_succ l) a ha
  · exact ⟨l, le_rfl, hl, List.mem_singleton.mp ha⟩

/-- A search begins with an empty ladder. -/
theorem startFind_ascends (u : Upd K V) : (startFind u).ascends rank := by
  intro i j hi hij hj
  simp only [maxLevel] at hi hj
  obtain rfl : i = j := by omega
  exact .inl rfl

/-- The order does not depend on nodes that are not born yet. -/
theorem Pc.ascends_congr {m : Mem T K V} {h : Addr → Nat} {t : T} {p : Pc K V} (hs : Shape m h)
    (hl : LocalOk m h t p) (hrank : ∀ a < m.fresh, rank a = m.rank a) (ha : p.ascends m.rank) :
    p.ascends rank := by
  cases p with
  | find u lvl pred f =>
      refine Ladder.congr ha fun j hj hj' => hrank _ ?_
      by_cases hjl : j = lvl
      · rw [hjl, Function.update_self]
        exact hs.lt_fresh hl.was
      · rw [Function.update_of_ne hjl]
        exact hs.lt_fresh (hl.above j (by omega) hj').pred
  | put c p =>
      exact ⟨ha.1.congr fun j _ hj => hrank _ (hs.lt_fresh (hl.1 j hj).pred), ha.2⟩
  | remove c p =>
      exact ⟨ha.1.congr fun j _ hj => hrank _ (hs.lt_fresh (hl.1.2 j hj).1), ha.2⟩
  | _ => trivial

/-- Each level of a search adds a rung: its predecessor is not left of the one above. -/
theorem findStep_ascends {m : Mem T K V} {h : Addr → Nat} (hs : Shape m h) {u : Upd K V}
    {lvl : Nat} {pred : Addr} {f : Found} (hl : FindOk m h u.key lvl pred f)
    (ha : Ladder m.rank (Function.update f.preds lvl pred) lvl) :
    (findStep m u lvl pred f).ascends m.rank := by
  simp only [findStep]
  split
  · exact ha.move (hs.next_was hl.was (hs.ne_tail hl.left)).2
  · split
    · unfold foundAt
      split
      · trivial
      · exact ⟨ha, rfl⟩
      · exact ⟨ha, trivial⟩
      · trivial
    · exact ha.down

variable [DecidableEq T] {t : T} {m m' : Mem T K V} {h : Addr → Nat} {p' : Pc K V}

/-- `put` locks its predecessors from the bottom up, so to the left. -/
theorem putStep_ascends {c : PutCtx K V} {p : PutPc} {choice : Choice K V}
    (hl : putOk m h t c p) (ha : Ladder rank c.preds 0 ∧ putAscends c p)
    (hstep : putStep t m c choice p = some (m', p')) : p'.ascends rank := by
  obtain ⟨hladder, ha⟩ := ha
  cases p with
  | level =>
      simp only [putStep] at hstep
      split at hstep
      · split at hstep
        · obtain ⟨-, rfl⟩ := Prod.mk.inj (Option.some.inj hstep)
          exact ⟨hladder, by simp [putAscends, LockedFrom]⟩
        · cases hstep
      · cases hstep
  | lock lvl =>
      simp only [putStep] at hstep
      split at hstep
      · obtain ⟨-, rfl⟩ := Prod.mk.inj (Option.some.inj hstep)
        exact ⟨hladder, ha.mono (Nat.le_succ lvl)⟩
      · obtain ⟨m'', -, heq⟩ := Option.map_eq_some_iff.mp hstep
        obtain ⟨-, rfl⟩ := Prod.mk.inj heq
        obtain ⟨-, ⟨hlvl, hheight, -⟩, -⟩ := hl
        exact ⟨hladder, LockedFrom.snoc ha (hlvl.trans_le hheight)⟩
  | predMarked lvl | succMarked lvl =>
      obtain ⟨-, rfl⟩ := Prod.mk.inj (Option.some.inj hstep)
      split
      · trivial
      · exact ⟨hladder, ha⟩
  | checkNext lvl =>
      obtain ⟨-, rfl⟩ := Prod.mk.inj (Option.some.inj hstep)
      split
      · trivial
      · split
        · exact ⟨hladder, trivial⟩
        · exact ⟨hladder, ha⟩
  | new =>
      obtain ⟨-, rfl⟩ := Prod.mk.inj (Option.some.inj hstep)
      exact ⟨hladder, trivial⟩
  | fill n lvl | link n lvl =>
      obtain ⟨-, rfl⟩ := Prod.mk.inj (Option.some.inj hstep)
      split <;> exact ⟨hladder, trivial⟩
  | full n =>
      obtain ⟨-, rfl⟩ := Prod.mk.inj (Option.some.inj hstep)
      trivial

/-- `remove` locks its predecessors from the bottom up, after the victim. -/
theorem removeStep_ascends (hs : Shape m h) {c : RemoveCtx K} {p : RemovePc}
    (hl : removeOk m h t c p) (ha : Ladder rank c.preds 0 ∧ removeAscends c p)
    (hstep : removeStep t m c p = some (m', p')) : p'.ascends rank := by
  obtain ⟨hladder, ha⟩ := ha
  cases p with
  | fullyLinked l =>
      obtain ⟨-, rfl⟩ := Prod.mk.inj (Option.some.inj hstep)
      split
      · trivial
      · split
        · trivial
        · exact ⟨hladder, trivial⟩
  | marked =>
      obtain ⟨-, rfl⟩ := Prod.mk.inj (Option.some.inj hstep)
      obtain ⟨-, -, hnil⟩ := hl
      split
      · trivial
      · refine ⟨hladder, fun a hmem => ?_⟩
        rw [hnil] at hmem
        cases hmem
  | lock lvl =>
      simp only [removeStep] at hstep
      split at hstep
      · obtain ⟨-, rfl⟩ := Prod.mk.inj (Option.some.inj hstep)
        exact ⟨hladder, ha.mono (Nat.le_succ lvl)⟩
      · obtain ⟨m'', -, heq⟩ := Option.map_eq_some_iff.mp hstep
        obtain ⟨-, rfl⟩ := Prod.mk.inj heq
        obtain ⟨-, ⟨-, hlvl, -⟩, -⟩ := hl
        exact ⟨hladder, LockedFrom.snoc ha (hlvl.trans_lt (hs.top _))⟩
  | predMarked lvl =>
      obtain ⟨-, rfl⟩ := Prod.mk.inj (Option.some.inj hstep)
      split
      · trivial
      · exact ⟨hladder, ha⟩
  | checkNext lvl =>
      obtain ⟨-, rfl⟩ := Prod.mk.inj (Option.some.inj hstep)
      split
      · trivial
      · split
        · exact ⟨hladder, trivial⟩
        · exact ⟨hladder, ha⟩
  | lockVictim =>
      obtain ⟨m'', -, heq⟩ := Option.map_eq_some_iff.mp hstep
      obtain ⟨-, rfl⟩ := Prod.mk.inj heq
      exact ⟨hladder, trivial⟩
  | victimMarked =>
      obtain ⟨-, rfl⟩ := Prod.mk.inj (Option.some.inj hstep)
      split <;> exact ⟨hladder, trivial⟩
  | mark | loadNext lvl =>
      obtain ⟨-, rfl⟩ := Prod.mk.inj (Option.some.inj hstep)
      exact ⟨hladder, trivial⟩
  | unlink lvl succ =>
      obtain ⟨-, rfl⟩ := Prod.mk.inj (Option.some.inj hstep)
      split <;> exact ⟨hladder, trivial⟩
  | unlockVictim r =>
      obtain ⟨-, rfl⟩ := Prod.mk.inj (Option.some.inj hstep)
      trivial

/-- **The moving thread keeps the order.** -/
theorem next_ascends {kind : LockKind} {choice : Choice K V} {p : Pc K V} (hs : Shape m h)
    (hl : LocalOk m h t p) (ha : p.ascends m.rank)
    (hnext : next kind t m p choice = some (m', p')) : p'.ascends m.rank := by
  cases p with
  | idle =>
      simp only [next] at hnext
      split at hnext
      · split at hnext
        · rename_i c _
          obtain ⟨-, rfl⟩ := Prod.mk.inj (Option.some.inj hnext)
          cases c with
          | put k v => exact startFind_ascends (.put k v)
          | remove k => exact startFind_ascends (.remove k)
          | _ => trivial
        · cases hnext
      · cases hnext
  | find u lvl pred f =>
      obtain ⟨-, rfl⟩ := Prod.mk.inj (Option.some.inj hnext)
      exact findStep_ascends hs hl ha
  | update k v n p =>
      cases p with
      | lock =>
          obtain ⟨m'', -, heq⟩ := Option.map_eq_some_iff.mp hnext
          obtain ⟨-, rfl⟩ := Prod.mk.inj heq
          trivial
      | unlockRetry =>
          obtain ⟨-, rfl⟩ := Prod.mk.inj (Option.some.inj hnext)
          exact startFind_ascends (.put k v)
      | _ =>
          obtain ⟨-, rfl⟩ := Prod.mk.inj (Option.some.inj hnext)
          trivial
  | put c p => exact putStep_ascends hl ha hnext
  | remove c p => exact removeStep_ascends hs hl ha hnext
  | release u locked r =>
      obtain ⟨-, hp⟩ := Prod.mk.inj (Option.some.inj hnext)
      cases locked with
      | cons a rest =>
          subst hp
          trivial
      | nil =>
          subst hp
          cases r with
          | none => exact startFind_ascends u
          | some b => trivial
  | get mode k p =>
      cases p with
      | lockHead | lockNext lvl pred x | lockCurr pred c =>
          obtain ⟨m'', -, heq⟩ := Option.map_eq_some_iff.mp hnext
          obtain ⟨-, rfl⟩ := Prod.mk.inj heq
          trivial
      | _ =>
          obtain ⟨-, rfl⟩ := Prod.mk.inj (Option.some.inj hnext)
          trivial
  | optimistic k p =>
      obtain ⟨-, rfl⟩ := Prod.mk.inj (Option.some.inj hnext)
      rcases optimisticStep_cases m k p with ⟨q, hq⟩ | ⟨r, hr⟩
      · rw [hq]
        trivial
      · rw [hr]
        trivial
  | returned r =>
      obtain ⟨-, rfl⟩ := Prod.mk.inj (Option.some.inj hnext)
      trivial

omit [DecidableEq T] in
/-- **Who waits for a lock holds only locks of nodes further left.** -/
theorem lt_of_wants {p : Pc K V} (hs : Shape m h) (hl : LocalOk m h t p) (ha : p.ascends m.rank)
    {a b : Addr} (hwants : p.wants = some a) (hb : b ∈ p.locks) : m.rank b < m.rank a := by
  cases p with
  | update k v n p =>
      cases p with
      | lock => cases hb
      | _ => cases hwants
  | put c p =>
      cases p with
      | lock lvl =>
          obtain ⟨hladder, hfrom⟩ := ha
          simp only [Pc.wants] at hwants
          split at hwants
          · cases hwants
          · rename_i hnot
            obtain rfl := Option.some.inj hwants
            obtain ⟨j, hlj, hj, rfl⟩ := hfrom b hb
            rcases hladder lvl j (Nat.zero_le _) (by omega) hj with heq | hlt
            · exact absurd (heq ▸ hb) hnot
            · exact hlt
      | _ => cases hwants
  | remove c p =>
      cases p with
      | lock lvl =>
          obtain ⟨hladder, hfrom⟩ := ha
          simp only [Pc.wants] at hwants
          split at hwants
          · cases hwants
          · rename_i hnot
            obtain rfl := Option.some.inj hwants
            obtain ⟨j, hlj, hj, rfl⟩ := hfrom b hb
            rcases hladder lvl j (Nat.zero_le _) (by omega) hj with heq | hlt
            · exact absurd (heq ▸ hb) hnot
            · exact hlt
      | lockVictim =>
          obtain rfl := Option.some.inj hwants
          obtain ⟨⟨⟨hrank, -⟩, -⟩, ⟨-, hlocked⟩, -⟩ := hl
          rw [hrank]
          exact hlocked.left b hb
      | _ => cases hwants
  | get mode k p =>
      cases p with
      | lockHead => cases hb
      | lockNext lvl pred x =>
          obtain rfl := Option.some.inj hwants
          obtain ⟨-, hat, rfl, -⟩ := hl
          obtain rfl := List.mem_singleton.mp hb
          exact (hs.succ _ lvl hat.linked (hs.ne_tail hat.left)).2.1
      | lockCurr pred c =>
          obtain rfl := Option.some.inj hwants
          obtain ⟨hat, rfl, -⟩ := hl
          obtain rfl := List.mem_singleton.mp hb
          exact (hs.succ _ 0 hat.linked (hs.ne_tail hat.left)).2.1
      | _ => cases hwants
  | optimistic k p => cases hb
  | _ => cases hwants

omit [DecidableEq T] in
/-- A lock that is waited for is one of a node that exists. -/
theorem lt_fresh_of_wants {p : Pc K V} (hs : Shape m h) (hl : LocalOk m h t p) {a : Addr}
    (hwants : p.wants = some a) : a < m.fresh := by
  have hhead : head < m.fresh := lt_of_lt_of_le (by decide) hs.fresh
  cases p with
  | update k v n p =>
      cases p with
      | lock =>
          obtain rfl := Option.some.inj hwants
          exact hs.lt_fresh hl.1.2
      | _ => cases hwants
  | put c p =>
      cases p with
      | lock lvl =>
          simp only [Pc.wants] at hwants
          split at hwants
          · cases hwants
          · obtain rfl := Option.some.inj hwants
            obtain ⟨hb, ⟨hlvl, hheight, -⟩, -⟩ := hl
            exact hs.lt_fresh (hb lvl (hlvl.trans_le hheight)).pred
      | _ => cases hwants
  | remove c p =>
      cases p with
      | lock lvl =>
          simp only [Pc.wants] at hwants
          split at hwants
          · cases hwants
          · obtain rfl := Option.some.inj hwants
            obtain ⟨⟨-, hb⟩, ⟨-, hlvl, -⟩, -⟩ := hl
            exact hs.lt_fresh (hb lvl (hlvl.trans_lt (hs.top _))).1
      | lockVictim =>
          obtain rfl := Option.some.inj hwants
          exact hs.lt_fresh hl.1.1.2
      | _ => cases hwants
  | get mode k p =>
      cases p with
      | lockHead =>
          obtain rfl := Option.some.inj hwants
          exact hhead
      | lockNext lvl pred x =>
          obtain rfl := Option.some.inj hwants
          obtain ⟨-, hat, rfl, -⟩ := hl
          exact hs.lt_fresh (.inl (hs.succ _ lvl hat.linked (hs.ne_tail hat.left)).1)
      | lockCurr pred c =>
          obtain rfl := Option.some.inj hwants
          obtain ⟨hat, rfl, -⟩ := hl
          exact hs.lt_fresh (.inl (hs.succ _ 0 hat.linked (hs.ne_tail hat.left)).1)
      | _ => cases hwants
  | optimistic k p =>
      cases p with
      | beginHead =>
          obtain rfl := Option.some.inj hwants
          exact hhead
      | «begin» lvl nx =>
          obtain rfl := Option.some.inj hwants
          exact hs.lt_fresh hl.2.1
      | beginCurr pred v c =>
          obtain rfl := Option.some.inj hwants
          exact hs.lt_fresh hl.2.1
      | _ => cases hwants
  | _ => cases hwants

end Order

/-! ## The locks of a thread are those of its program point -/

section Held

variable [DecidableEq T] {t u : T} {m m' : Mem T K V} {a b : Addr} {mode md : Mode}

/-- Who holds a lock after an acquisition held it before, or is the acquirer. -/
theorem heldAs_acquire (hacq : m.acquire mode t a = some m') (hh : HeldAs m' u b md) :
    HeldAs m u b md ∨ u = t ∧ b = a ∧ md = mode := by
  cases mode with
  | exclusive =>
      simp only [Mem.acquire, Mem.lock] at hacq
      split at hacq
      · obtain rfl := Option.some.inj hacq
        cases md with
        | shared => exact .inl hh
        | exclusive =>
            by_cases hba : b = a
            · subst hba
              have hh : some t = some u := by simpa [HeldAs] using hh
              exact .inr ⟨(Option.some.inj hh).symm, rfl, rfl⟩
            · exact .inl (by simpa [HeldAs, hba] using hh)
      · cases hacq
  | shared =>
      simp only [Mem.acquire, Mem.readLock] at hacq
      split at hacq
      · obtain rfl := Option.some.inj hacq
        cases md with
        | exclusive => exact .inl hh
        | shared =>
            by_cases hba : b = a
            · subst hba
              have hh : u = t ∨ u ∈ m.readers b := by simpa [HeldAs] using hh
              rcases hh with rfl | hh
              · exact .inr ⟨rfl, rfl, rfl⟩
              · exact .inl hh
            · exact .inl (by simpa [HeldAs, hba] using hh)
      · cases hacq

/-- Who holds a lock after a release held it before, and is not the releaser. -/
theorem heldAs_release (hh : HeldAs (m.releaseAs mode t a) u b md) :
    HeldAs m u b md ∧ ¬(u = t ∧ b = a ∧ md = mode) := by
  cases mode with
  | exclusive =>
      cases md with
      | shared => exact ⟨hh, fun h => by cases h.2.2⟩
      | exclusive =>
          by_cases hba : b = a
          · subst hba
            simp [HeldAs, Mem.releaseAs, Mem.unlock] at hh
          · exact ⟨by simpa [HeldAs, Mem.releaseAs, Mem.unlock, hba] using hh, fun h => hba h.2.1⟩
  | shared =>
      cases md with
      | exclusive => exact ⟨hh, fun h => by cases h.2.2⟩
      | shared =>
          by_cases hba : b = a
          · subst hba
            have hh : u ≠ t ∧ u ∈ m.readers b := by
              simpa [HeldAs, Mem.releaseAs, Mem.readUnlock] using hh
            exact ⟨hh.2, fun h => hh.1 h.1⟩
          · exact ⟨by simpa [HeldAs, Mem.releaseAs, Mem.readUnlock, hba] using hh,
              fun h => hba h.2.1⟩

omit [DecidableEq T] in
/-- Without a change of owners and readers nobody comes to hold a lock. -/
theorem heldAs_keep (howner : m'.owner = m.owner) (hreaders : m'.readers = m.readers)
    (hh : HeldAs m' u b md) : HeldAs m u b md := by
  cases md with
  | exclusive => rwa [HeldAs, howner] at hh
  | shared => rwa [HeldAs, hreaders] at hh

/-- A thread at this point has no other locks than those the point names, in the mode the point
names. -/
def HoldsOnly (m : Mem T K V) (t : T) (p : Pc K V) : Prop :=
  ∀ a mode, HeldAs m t a mode → a ∈ p.locks ∧ mode = p.mode

/-- A step keeps track of the locks of the thread. -/
theorem LockStep.holdsOnly {p p' : Pc K V} (hstep : LockStep t m m' p p')
    (h : HoldsOnly m t p) : HoldsOnly m' t p' := by
  intro b md hh
  cases hstep with
  | keep _ howner hreaders hlocks hmode =>
      obtain ⟨hmem, rfl⟩ := h b md (heldAs_keep howner hreaders hh)
      refine ⟨hlocks ▸ hmem, ?_⟩
      rcases hmode with hnil | hmode
      · rw [hnil] at hmem
        cases hmem
      · exact hmode.symm
  | take a _ hacq hlocks hmode =>
      rcases heldAs_acquire hacq hh with hold | ⟨-, rfl, rfl⟩
      · obtain ⟨hmem, rfl⟩ := h b md hold
        refine ⟨(hlocks b).mpr (.inr hmem), ?_⟩
        rcases hmode with hnil | hmode
        · rw [hnil] at hmem
          cases hmem
        · exact hmode.symm
      · exact ⟨(hlocks b).mpr (.inl rfl), rfl⟩
  | drop a _ hrel hlocks hmode =>
      subst hrel
      obtain ⟨hold, hne⟩ := heldAs_release hh
      obtain ⟨hmem, rfl⟩ := h b md hold
      have hmem' : b ∈ p'.locks := ((hlocks b).mp hmem).resolve_left fun hba => hne ⟨rfl, hba, rfl⟩
      refine ⟨hmem', ?_⟩
      rcases hmode with hnil | hmode
      · rw [hnil] at hmem'
        cases hmem'
      · exact hmode.symm

/-- A step gives no locks to others. -/
theorem LockStep.others {p p' q : Pc K V} (hstep : LockStep t m m' p p') (hut : u ≠ t)
    (h : HoldsOnly m u q) : HoldsOnly m' u q := by
  intro b md hh
  refine h b md ?_
  cases hstep with
  | keep _ howner hreaders _ _ => exact heldAs_keep howner hreaders hh
  | take a _ hacq _ _ => exact (heldAs_acquire hacq hh).resolve_right fun h => hut h.1
  | drop a _ hrel _ _ =>
      subst hrel
      exact (heldAs_release hh).1

/-- A step leaves the keys of the nodes that exist. -/
theorem LockStep.rank_eq {p p' : Pc K V} (hstep : LockStep t m m' p p') :
    m'.rank = m.rank ∨ ∃ c, p = .put c .new := by
  cases hstep with
  | keep hrank _ _ _ _ => exact hrank
  | take a _ hacq _ _ =>
      refine .inl ?_
      generalize p'.mode = mode at hacq
      cases mode with
      | exclusive =>
          simp only [Mem.acquire, Mem.lock] at hacq
          split at hacq
          · rw [← Option.some.inj hacq]
          · cases hacq
      | shared =>
          simp only [Mem.acquire, Mem.readLock] at hacq
          split at hacq
          · rw [← Option.some.inj hacq]
          · cases hacq
  | drop a _ hrel _ _ =>
      subst hrel
      generalize p.mode = mode
      cases mode <;> exact .inl rfl

end Held

/-! ## The invariant -/

section Invariant

variable [DecidableEq T] [LinearOrder K]

/-- The order of the locks, and who holds them. -/
structure Ordered (s : State T K V) : Prop where
  ascends : ∀ t, (s.pc t).ascends s.mem.rank
  held : ∀ t, HoldsOnly s.mem t (s.pc t)

variable {s : State T K V} {σ : Statuses T K V} {h : Addr → Nat} {kind : LockKind} {t : T}
  {choice : Choice K V} {m' : Mem T K V} {p' : Pc K V}

/-- **A step keeps the order of the locks.** -/
theorem Ordered.step (ho : Ordered s) (hi : Inv h s σ)
    (hnext : next kind t s.mem (s.pc t) choice = some (m', p')) : Ordered (after s t m' p') := by
  have hstep := next_lockStep hi.locks (hi.locals t) (ho.ascends t) hnext
  have hrank : ∀ a < s.mem.fresh, m'.rank a = s.mem.rank a := by
    intro a ha
    rcases hstep.rank_eq with heq | ⟨c, hpc⟩
    · rw [heq]
    · rw [hpc] at hnext
      obtain ⟨rfl, -⟩ := Prod.mk.inj (Option.some.inj hnext)
      exact Function.update_of_ne (ne_of_lt ha) ..
  have hself : p'.ascends m'.rank := by
    rcases hstep.rank_eq with heq | ⟨c, hpc⟩
    · rw [heq]
      exact next_ascends hi.shape (hi.locals t) (ho.ascends t) hnext
    · have hnew := Pc.ascends_congr hi.shape (hi.locals t) hrank (ho.ascends t)
      rw [hpc] at hnext hnew
      obtain ⟨-, rfl⟩ := Prod.mk.inj (Option.some.inj hnext)
      exact ⟨hnew.1, trivial⟩
  refine ⟨fun u => ?_, fun u => ?_⟩
  · by_cases hut : u = t
    · subst hut
      simpa [after] using hself
    · simpa [after, hut] using
        Pc.ascends_congr hi.shape (hi.locals u) hrank (ho.ascends u)
  · by_cases hut : u = t
    · subst hut
      simpa [after] using hstep.holdsOnly (ho.held u)
    · simpa [after, hut] using hstep.others hut (ho.held u)

variable [Inhabited V]

/-- The locks are ordered in every state reached without a wrap. -/
theorem ordered_of_reachable (hreach : (machine T K V kind).ReachableUnder NoWrap s) :
    (∃ h σ, Inv h s σ) ∧ Ordered s := by
  induction hreach with
  | init =>
      refine ⟨inv_of_reachable .init, fun t => trivial, fun t a mode hh => ?_⟩
      cases mode with
      | exclusive => cases hh
      | shared => cases hh
  | step hreach hwrap hstep ih =>
      obtain ⟨⟨h, σ, hi⟩, ho⟩ := ih
      refine ⟨inv_of_reachable (.step hreach hwrap hstep), ?_⟩
      obtain ⟨m', p', hnext, rfl⟩ := interleave_step_cases hstep
      exact ho.step hi hnext

/-! ## No deadlock -/

/-- The nodes not to the left of the one whose lock a thread wants. -/
def aheadOf (s : State T K V) (t : T) : Nat :=
  match (s.pc t).wants with
  | some a => ((Finset.range s.mem.fresh).filter fun b => s.mem.rank a ≤ s.mem.rank b).card
  | none => 0

omit [DecidableEq T] [LinearOrder K] [Inhabited V] in
/-- Who links a node waits for nothing. -/
theorem not_waits_of_linking {u v : T} {x : Addr × Addr} (hlink : (s.pc u).linking = some x) :
    ¬WaitsFor s u v := by
  rintro (⟨a, hwants, -⟩ | ⟨k, w, n, p, hpc, -⟩)
  · cases hpc : s.pc u with
    | put c p =>
        rw [hpc] at hlink hwants
        cases p with
        | link n lvl | full n => cases hwants
        | _ => cases hlink
    | _ =>
        rw [hpc] at hlink
        cases hlink
  · rw [hpc] at hlink
    cases hlink

omit [DecidableEq T] [Inhabited V] in
/-- Along a chain of waiting threads the wanted locks go to the right. -/
theorem aheadOf_lt (hi : Inv h s σ) (ho : Ordered s) {t u v : T} (htu : WaitsFor s t u)
    (huv : WaitsFor s u v) : aheadOf s u < aheadOf s t := by
  have htu : WaitsForLock s t u := by
    refine htu.resolve_right fun hflag => ?_
    obtain ⟨k, w, n, p, -, -, hlink⟩ := hflag
    exact not_waits_of_linking hlink huv
  obtain ⟨a, hwa, hheld⟩ := htu
  have hmem : a ∈ (s.pc u).locks := by
    rcases hheld with hown | ⟨-, hread⟩
    · exact (ho.held u a .exclusive hown).1
    · exact (ho.held u a .shared hread).1
  have hfresh := Finset.mem_range.mpr (lt_fresh_of_wants hi.shape (hi.locals t) hwa)
  simp only [aheadOf, hwa]
  cases hwu : (s.pc u).wants with
  | none => exact Finset.card_pos.mpr ⟨a, Finset.mem_filter.mpr ⟨hfresh, le_rfl⟩⟩
  | some b =>
      -- what `u` wants lies to the right of what `u` holds
      have hlt := lt_of_wants hi.shape (hi.locals u) (ho.ascends u) hwu hmem
      refine Finset.card_lt_card (Finset.ssubset_iff_subset_ne.mpr ⟨fun c hc => ?_, fun heq => ?_⟩)
      · obtain ⟨hc, hbc⟩ := Finset.mem_filter.mp hc
        exact Finset.mem_filter.mpr ⟨hc, hlt.le.trans hbc⟩
      · have ha : a ∈ (Finset.range s.mem.fresh).filter fun c => s.mem.rank a ≤ s.mem.rank c :=
          Finset.mem_filter.mpr ⟨hfresh, le_rfl⟩
        rw [← heq] at ha
        exact absurd (Finset.mem_filter.mp ha).2 hlt.not_ge

omit [DecidableEq T] [Inhabited V] in
/-- A thread holds the locks that its program point names. -/
theorem heldAs_of_mem_locks {m : Mem T K V} {t : T} {p : Pc K V} (hl : LocalOk m h t p)
    (ho : p.ascends m.rank) {a : Addr} (ha : a ∈ p.locks) : HeldAs m t a p.mode := by
  cases p with
  | update k v n p =>
      cases p with
      | lock => cases ha
      | wait | store =>
          obtain rfl := List.mem_singleton.mp ha
          exact hl.2.1
      | _ =>
          obtain rfl := List.mem_singleton.mp ha
          exact hl.2
  | put c p =>
      cases p with
      | level =>
          have hnil : c.locked = [] := ho.2
          simp [Pc.locks, hnil] at ha
      | _ => exact hl.2.1.2.2.owner a ha
  | remove c p =>
      have hpreds : LockedOk m h t c.key c.locked → a ∈ c.locked → m.owner a = some t :=
        fun hlocked ha => hlocked.owner a ha
      have hboth : LockedOk m h t c.key c.locked → m.owner c.victim = some t →
          a ∈ c.victim :: c.locked → m.owner a = some t := by
        intro hlocked hvictim ha
        rcases List.mem_cons.mp ha with rfl | ha
        · exact hvictim
        · exact hpreds hlocked ha
      cases p with
      | fullyLinked l =>
          have hnil : c.locked = [] := hl.2
          simp [Pc.locks, RemovePc.holdsVictim, hnil] at ha
      | marked =>
          have hnil : c.locked = [] := hl.2.2
          simp [Pc.locks, RemovePc.holdsVictim, hnil] at ha
      | lock lvl | predMarked lvl | checkNext lvl => exact hpreds hl.2.1.2.2 ha
      | lockVictim => exact hpreds hl.2.1.2 ha
      | victimMarked => exact hboth hl.2.1.2 hl.2.2.2 ha
      | mark | loadNext lvl | unlink lvl succ => exact hboth hl.2.1.2 hl.2.2.2.1 ha
      | unlockVictim r => exact hboth hl.2.1 hl.2.2 ha
  | release u locked r => exact hl.2 a ha
  | get mode k p =>
      cases p with
      | lockHead => cases ha
      | test lvl pred | step lvl pred | lockNext lvl pred x =>
          obtain rfl := List.mem_singleton.mp ha
          first | exact hl.2.held | exact hl.2.1.held
      | curr pred | lockCurr pred c =>
          obtain rfl := List.mem_singleton.mp ha
          exact hl.1.held
      | unlockPred lvl pred x =>
          rcases List.mem_cons.mp ha with rfl | ha
          · exact hl.2.1
          · obtain rfl := List.mem_singleton.mp ha
            exact hl.2.2.2.held
      | marked pred c | val pred c =>
          rcases List.mem_cons.mp ha with rfl | ha
          · exact hl.1
          · obtain rfl := List.mem_singleton.mp ha
            exact hl.2.2.1
      | unlockCurr pred c r =>
          rcases List.mem_cons.mp ha with rfl | ha
          · exact hl.1
          · obtain rfl := List.mem_singleton.mp ha
            exact hl.2.2
      | unlockLast pred r =>
          obtain rfl := List.mem_singleton.mp ha
          exact hl
  | _ => cases ha

omit [Inhabited V] in
/-- A thread that finds the lock it wants free has a step. -/
theorem next_enabled (kind : LockKind) (t : T) (m : Mem T K V) {p : Pc K V} (hidle : p ≠ .idle)
    (hfree : ∀ a, p.wants = some a →
      m.owner a = none ∧ (p.excludes = true → m.readers a = ∅)) :
    ∃ choice r, next kind t m p choice = some r := by
  have hlock : ∀ a, p.wants = some a → p.excludes = true → ∃ m', m.lock t a = some m' :=
    fun a hw he => ⟨_, if_pos ⟨(hfree a hw).1, (hfree a hw).2 he⟩⟩
  have hmap : ∀ {a} (f : Mem T K V → Mem T K V × Pc K V), (∃ m', m.lock t a = some m') →
      ∃ r, (m.lock t a).map f = some r := by
    rintro a f ⟨m', hm'⟩
    exact ⟨f m', by rw [hm']; rfl⟩
  cases p with
  | idle => exact absurd rfl hidle
  | update k v n p =>
      cases p with
      | lock =>
          obtain ⟨r, hr⟩ := hmap _ (hlock n rfl rfl)
          exact ⟨.go, r, hr⟩
      | _ => exact ⟨.go, _, rfl⟩
  | put c p =>
      cases p with
      | level =>
          have hrange : 1 ≤ 1 ∧ 1 ≤ maxLevel := by decide
          refine ⟨.level 1, (m, .put { c with height := 1, locked := [] } (.lock 0)), ?_⟩
          simp only [next, putStep]
          exact if_pos hrange
      | lock lvl =>
          by_cases hdup : c.preds lvl ∈ c.locked
          · exact ⟨.go, _, if_pos hdup⟩
          · obtain ⟨r, hr⟩ := hmap _ (hlock (c.preds lvl) (if_neg hdup) rfl)
            exact ⟨.go, r, (if_neg hdup).trans hr⟩
      | _ => exact ⟨.go, _, rfl⟩
  | remove c p =>
      cases p with
      | lock lvl =>
          by_cases hdup : c.preds lvl ∈ c.locked
          · exact ⟨.go, _, if_pos hdup⟩
          · obtain ⟨r, hr⟩ := hmap _ (hlock (c.preds lvl) (if_neg hdup) rfl)
            exact ⟨.go, r, (if_neg hdup).trans hr⟩
      | lockVictim =>
          obtain ⟨r, hr⟩ := hmap _ (hlock c.victim rfl rfl)
          exact ⟨.go, r, hr⟩
      | _ => exact ⟨.go, _, rfl⟩
  | get mode k p =>
      have hacq : ∀ a, (Pc.get mode k p).wants = some a → ∃ m', m.acquire mode t a = some m' := by
        intro a hw
        cases mode with
        | exclusive => exact hlock a hw rfl
        | shared => exact ⟨_, if_pos (hfree a hw).1⟩
      cases p with
      | lockHead | lockNext lvl pred x | lockCurr pred c =>
          obtain ⟨m', hm'⟩ := hacq _ rfl
          exact ⟨.go, _, congrArg (Option.map _) hm'⟩
      | _ => exact ⟨.go, _, rfl⟩
  | _ => exact ⟨.go, _, rfl⟩

/-- The next step of the thread looks again at what it has looked at in vain. -/
def Rechecks (s : State T K V) (t : T) : Prop :=
  match s.pc t with
  | .update _ _ n .wait => s.mem.fullyLinked n = false
  | .optimistic _ .beginHead => OccLock.odd (s.mem.version head) = true
  | .optimistic _ (.begin _ nx) => OccLock.odd (s.mem.version nx) = true
  | .optimistic _ (.beginCurr _ _ c) => OccLock.odd (s.mem.version c) = true
  | _ => False

omit [DecidableEq T] [Inhabited V] in
/-- Who waits for nobody finds what it looks for. -/
theorem not_rechecks (hi : Inv h s σ) {t : T} (hfree : ∀ u, ¬WaitsFor s t u) : ¬Rechecks s t := by
  have hodd : ∀ a, (s.pc t).wants = some a → OccLock.odd (s.mem.version a) ≠ true := by
    intro a hwants ho
    have hown := (hi.locks.parity a).mp ((OccLock.odd_iff _).mp ho)
    obtain ⟨u, hu⟩ := Option.ne_none_iff_exists'.mp hown
    exact hfree u (.inl ⟨a, hwants, .inl hu⟩)
  intro hre
  have hl := hi.locals t
  unfold Rechecks at hre
  split at hre
  · rename_i k v n hpc
    rw [hpc] at hl
    obtain ⟨⟨-, hwas⟩, -, hmarked⟩ := hl
    obtain ⟨u, p, hu⟩ := hi.linking n (Shape.linked_of_unmarked hwas hmarked) hre
    exact hfree u (.inr ⟨k, v, n, p, hpc, hre, hu⟩)
  · rename_i hpc
    exact hodd _ (by rw [hpc]; rfl) hre
  · rename_i hpc
    exact hodd _ (by rw [hpc]; rfl) hre
  · rename_i hpc
    exact hodd _ (by rw [hpc]; rfl) hre
  · exact hre

/-- The node locks cannot get stuck: no threads wait for one another in a circle; as long as an
operation is open, some thread has a step that is no mere re-check; a thread holds exactly the
locks that its program point names, and none when it returns. -/
structure DeadlockFree (kind : LockKind) (s : State T K V) : Prop where
  circle : ∀ S, ¬Deadlocked (WaitsFor s) S
  goesOn : (∃ t, s.pc t ≠ .idle) → ∃ t choice s', s.pc t ≠ .idle ∧ ¬Rechecks s t ∧
    (machine T K V kind).step s (t, choice) = some s'
  held : ∀ t a mode, HeldAs s.mem t a mode ↔ a ∈ (s.pc t).locks ∧ mode = (s.pc t).mode
  released : ∀ t r, s.pc t = .returned r → ∀ a mode, ¬HeldAs s.mem t a mode

/-- **The skip list has no deadlock, and leaves no lock behind.** -/
theorem deadlockFree_of_noWrap (hreach : (machine T K V kind).ReachableUnder NoWrap s) :
    DeadlockFree kind s := by
  obtain ⟨⟨h, σ, hi⟩, ho⟩ := ordered_of_reachable hreach
  have hno : ∀ S, ¬Deadlocked (WaitsFor s) S := fun S =>
    not_deadlocked (aheadOf s) fun t u v => aheadOf_lt hi ho
  refine ⟨hno, fun hopen => ?_, fun t a mode => ⟨ho.held t a mode, ?_⟩, fun t r hpc a mode hh => ?_⟩
  · -- whom an open operation waits for is inside an operation too
    have hclosed : ∀ t ∈ {t | s.pc t ≠ .idle}, ∀ u, WaitsFor s t u → u ∈ {t | s.pc t ≠ .idle} := by
      rintro t - u (⟨a, -, hheld⟩ | ⟨k, v, n, p, -, -, hlink⟩) hidle
      · have hmem : a ∈ (s.pc u).locks := by
          rcases hheld with hown | ⟨-, hread⟩
          · exact (ho.held u a .exclusive hown).1
          · exact (ho.held u a .shared hread).1
        rw [hidle] at hmem
        cases hmem
      · rw [hidle] at hlink
        cases hlink
    obtain ⟨t, ht, hfree⟩ := exists_not_waiting (hno _) hopen hclosed
    obtain ⟨choice, r, hr⟩ := next_enabled kind t s.mem ht fun a hwants => by
      refine ⟨Option.eq_none_iff_forall_ne_some.mpr fun u hu => ?_, fun hexcl => ?_⟩
      · exact hfree u (.inl ⟨a, hwants, .inl hu⟩)
      · exact Finset.eq_empty_of_forall_notMem fun u hu =>
          hfree u (.inl ⟨a, hwants, .inr ⟨hexcl, hu⟩⟩)
    exact ⟨t, choice, _, ht, not_rechecks hi hfree, congrArg (Option.map _) hr⟩
  · rintro ⟨hmem, rfl⟩
    exact heldAs_of_mem_locks (hi.locals t) (ho.ascends t) hmem
  · have hmem := (ho.held t a mode hh).1
    rw [hpc] at hmem
    cases hmem

/-- Without optimistic lookups no version is ever validated. -/
theorem reachable_noWrap (hkind : kind.optimistic = false)
    (hreach : (machine T K V kind).Reachable s) :
    (machine T K V kind).ReachableUnder NoWrap s ∧ ∀ t, (s.pc t).inOptimistic = false := by
  induction hreach with
  | init => exact ⟨.init, fun _ => rfl⟩
  | @step s s' a _ _ hstep ih =>
      obtain ⟨hreach, hpcs⟩ := ih
      obtain ⟨m', p', hnext, rfl⟩ := interleave_step_cases hstep
      refine ⟨hreach.step (fun k pred v c vc hpc => ?_) hstep, fun t => ?_⟩
      · have := hpcs a.1
        rw [hpc] at this
        cases this
      · by_cases ht : t = a.1
        · subst ht
          simpa using next_inOptimistic hkind (hpcs a.1) hnext
        · simpa [ht] using hpcs t

/-- **Deadlock freedom.**  With any mutex or reader-writer lock, in every state that any number of
threads running `get`, `get_shared`, `put` and `remove` can reach. -/
theorem deadlockFree_of_reachable (shared : Bool)
    (hreach : (machine T K V ⟨shared, false⟩).Reachable s) : DeadlockFree ⟨shared, false⟩ s :=
  deadlockFree_of_noWrap (reachable_noWrap rfl hreach).1

/-- An insertion has locked the head when a lookup arrives. -/
def waitingRun : List (Fin 2 × Choice Nat Nat) :=
  (0, .call (.put 7 70)) :: List.replicate 16 (0, .go) ++
    [(0, .level 1), (0, .go), (1, .call (.get .shared 7))]

/-- The lookup waits, and the insertion can go on. -/
theorem deadlockFree_waitingRun : ∃ s : State (Fin 2) Nat Nat,
    s.mem.owner head = some 0 ∧ (s.pc 1).wants = some head ∧ DeadlockFree ⟨true, false⟩ s := by
  have hrun : (((machine (Fin 2) Nat Nat ⟨true, false⟩).run waitingRun).map fun s =>
      (s.mem.owner head, (s.pc 1).wants)) = some (some 0, some head) := by
    decide +kernel
  obtain ⟨s, hs, heq⟩ := Option.map_eq_some_iff.mp hrun
  obtain ⟨howner, hwants⟩ := Prod.mk.inj heq
  exact ⟨s, howner, hwants, deadlockFree_of_reachable true (Machine.reachable_of_run hs)⟩

end Invariant

end Deadlock

end SkipList
