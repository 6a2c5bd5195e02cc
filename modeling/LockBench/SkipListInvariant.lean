import LockBench.SkipListInstants

/-!
# The invariant of the skip list

The shape of the lists, what every thread knows and has seen, and the few facts
that tie threads to nodes: a linked node that is not fully linked has an insertion
at work on it, a marked node that is still linked has a removal at work on it, and
the version of a lock is odd exactly while the lock is held.

`Inv.move` reduces the preservation of the invariant to what concerns the thread
that moves; `Inv.quiet` is the case of the steps that touch no data, only locks.
-/

namespace SkipList

section Invariant

variable {T K V : Type} [DecidableEq T] [LinearOrder K]

/-- How the operations of all threads stand. -/
abbrev Statuses (T K V : Type) := T → Status (State T K V) (MapOp K V) (MapRes V)

/-- What holds of the locks: the version is odd exactly while the lock is held, a held
lock has no readers, and the lock of a node that does not exist yet is free. -/
structure LocksOk (m : Mem T K V) : Prop where
  parity : ∀ a, m.version a % 2 = 1 ↔ m.owner a ≠ none
  excl : ∀ a, m.owner a ≠ none → m.readers a = ∅
  free : ∀ a, m.fresh ≤ a → m.owner a = none ∧ m.readers a = ∅

/-- The invariant, for linked heights `h`. -/
structure Inv (h : Addr → Nat) (s : State T K V) (σ : Statuses T K V) : Prop where
  shape : Shape s.mem h
  locals : ∀ t, LocalOk s.mem h t (s.pc t)
  linking : ∀ n, 0 < h n → s.mem.fullyLinked n = false → ∃ u p, (s.pc u).linking = some (n, p)
  unlinking : ∀ a, s.mem.marked a = true → 0 < h a → ∃ u, (s.pc u).unlinking = some a
  newNode : ∀ t u n, (s.pc t).newNode = some n → (s.pc u).newNode = some n → t = u
  candidate : ∀ t c p, (s.pc t).candidate = some (c, p) →
    s.mem.fullyLinked c = true ∨ ∃ u, (s.pc u).linking = some (c, p)
  locks : LocksOk s.mem
  status : ∀ t, statusOk s h (s.pc t) (σ t)

/-- The state after a step of thread `t`. -/
def after (s : State T K V) (t : T) (m : Mem T K V) (p : Pc K V) : State T K V :=
  ⟨m, Function.update s.pc t p⟩

/-- What a step of thread `t` does to the facts that tie threads to nodes. -/
structure Tied (s : State T K V) (h : Addr → Nat) (t : T) (m' : Mem T K V) (h' : Addr → Nat)
    (p' : Pc K V) : Prop where
  linking : ∀ n, 0 < h' n → m'.fullyLinked n = false →
    (∃ p, p'.linking = some (n, p)) ∨ (0 < h n ∧ s.mem.fullyLinked n = false ∧
      ∀ p, (s.pc t).linking ≠ some (n, p))
  unlinking : ∀ a, m'.marked a = true → 0 < h' a →
    p'.unlinking = some a ∨ (s.mem.marked a = true ∧ 0 < h a ∧ (s.pc t).unlinking ≠ some a)
  newNode : ∀ n, p'.newNode = some n → (s.pc t).newNode = some n ∨ s.mem.fresh ≤ n
  kept : ∀ n p, (s.pc t).linking = some (n, p) →
    p'.linking = some (n, p) ∨ m'.fullyLinked n = true
  candidate : ∀ c p, p'.candidate = some (c, p) → c < s.mem.fresh ∧
    (s.mem.fullyLinked c = true ∨ ∃ u, (s.pc u).linking = some (c, p))

variable {h h' : Addr → Nat} {s : State T K V} {σ : Statuses T K V}

omit [DecidableEq T] in
/-- The new node of an insertion is born and not fully linked. -/
theorem Inv.newNode_born (hi : Inv h s σ) {t : T} {n : Addr} (hn : (s.pc t).newNode = some n) :
    n < s.mem.fresh ∧ s.mem.fullyLinked n = false := by
  have hl := hi.locals t
  cases hpc : s.pc t with
  | put c p =>
      rw [hpc] at hn hl
      cases p with
      | fill n' lvl =>
          obtain rfl := Option.some.inj hn
          obtain ⟨-, -, -, hnew, -⟩ := hl
          exact ⟨hnew.born, hnew.notFull⟩
      | link n' lvl =>
          obtain rfl := Option.some.inj hn
          obtain ⟨-, -, -, -, hnew, -⟩ := hl
          exact ⟨hnew.born, hnew.notFull⟩
      | full n' =>
          obtain rfl := Option.some.inj hn
          obtain ⟨-, -, -, hnew⟩ := hl
          exact ⟨hnew.born, hnew.notFull⟩
      | _ => exact nomatch hn
  | _ => rw [hpc] at hn; exact nomatch hn

omit [DecidableEq T] in
/-- The candidate of an optimistic lookup is or was linked. -/
theorem Inv.candidate_was (hi : Inv h s σ) {t : T} {c p : Addr}
    (hc : (s.pc t).candidate = some (c, p)) : Was s.mem h c 0 := by
  have hl := hi.locals t
  cases hpc : s.pc t with
  | optimistic k q =>
      rw [hpc] at hc hl
      cases q with
      | beginCurr pred v c' | checkPred pred v c' vc =>
          obtain ⟨rfl, rfl⟩ := Prod.mk.inj (Option.some.inj hc)
          exact hl.2.1
      | _ => exact nomatch hc
  | _ => rw [hpc] at hc; exact nomatch hc

/-- **One step.**  What concerns the other threads follows from the frame. -/
theorem Inv.move (hi : Inv h s σ) {t : T} {m' : Mem T K V} {p' : Pc K V} {σ' : Statuses T K V}
    (hf : Frame t (s.pc t).newNode s.mem h m' h') (hs' : Shape m' h')
    (hlocal : LocalOk m' h' t p') (htied : Tied s h t m' h' p')
    (hlocks : LocksOk m')
    (hothers : ∀ u, u ≠ t → σ' u = Observed.observe (after s t m' p') σ u)
    (hstatus : statusOk (after s t m' p') h' p' (σ' t)) : Inv h' (after s t m' p') σ' := by
  have hmine : ∀ u, u ≠ t → ∀ n, (s.pc u).newNode = some n → (s.pc t).newNode ≠ some n :=
    fun u hu n hn hn' => hu (hi.newNode u t n hn hn')
  refine ⟨hs', fun u => ?_, fun n h0 hfull => ?_, fun a hm h0 => ?_, fun u w n hu hw => ?_,
    fun u c p hc => ?_, hlocks, fun u => ?_⟩
  · by_cases hu : u = t
    · subst hu
      simpa [after] using hlocal
    · simpa [after, hu] using hf.localOk hi.shape hi.locks.excl hi.locks.parity hu
        (hmine u hu) (hi.locals u)
  · rcases htied.linking n h0 hfull with ⟨p, hp⟩ | ⟨h0, hfull, hne⟩
    · exact ⟨t, p, by simpa [after] using hp⟩
    · obtain ⟨u, p, hp⟩ := hi.linking n h0 hfull
      have hu : u ≠ t := by
        rintro rfl
        exact hne p hp
      exact ⟨u, p, by simpa [after, hu] using hp⟩
  · rcases htied.unlinking a hm h0 with hp | ⟨hm, h0, hne⟩
    · exact ⟨t, by simpa [after] using hp⟩
    · obtain ⟨u, hp⟩ := hi.unlinking a hm h0
      have hu : u ≠ t := by
        rintro rfl
        exact hne hp
      exact ⟨u, by simpa [after, hu] using hp⟩
  · -- a new node that two threads have was theirs before, or is being allocated now
    have hown : ∀ u, u ≠ t → p'.newNode = some n → (s.pc u).newNode = some n → False := by
      intro u hu hp hn
      rcases htied.newNode n hp with hp | hp
      · exact hmine u hu n hn hp
      · exact absurd (hi.newNode_born hn).1 (not_lt.mpr hp)
    by_cases hut : u = t
    · by_cases hwt : w = t
      · rw [hut, hwt]
      · exact (hown w hwt (by simpa [after, hut] using hu) (by simpa [after, hwt] using hw)).elim
    · by_cases hwt : w = t
      · exact (hown u hut (by simpa [after, hwt] using hw) (by simpa [after, hut] using hu)).elim
      · exact hi.newNode u w n (by simpa [after, hut] using hu) (by simpa [after, hwt] using hw)
  · -- the candidate was fully linked or being linked before, by this thread or another
    have hkeep : ∀ c p, (c < s.mem.fresh) →
        (s.mem.fullyLinked c = true ∨ ∃ u, (s.pc u).linking = some (c, p)) →
        m'.fullyLinked c = true ∨ ∃ u, ((after s t m' p').pc u).linking = some (c, p) := by
      rintro c p hborn (hfull | ⟨w, hw⟩)
      · exact .inl (hf.full c hborn hfull)
      · by_cases hwt : w = t
        · subst hwt
          rcases htied.kept c p hw with hw | hw
          · exact .inr ⟨w, by simpa [after] using hw⟩
          · exact .inl hw
        · exact .inr ⟨w, by simpa [after, hwt] using hw⟩
    by_cases hu : u = t
    · obtain ⟨hborn, hor⟩ := htied.candidate c p (by simpa [after, hu] using hc)
      exact hkeep c p hborn hor
    · have hc' : (s.pc u).candidate = some (c, p) := by simpa [after, hu] using hc
      exact hkeep c p (hi.shape.lt_fresh (hi.candidate_was hc')) (hi.candidate u c p hc')
  · by_cases hu : u = t
    · subst hu
      simpa [after] using hstatus
    · have hst : statusOk (after s t m' p') h' (s.pc u) (Observed.observe (after s t m' p') σ u) :=
        hf.statusOk hi.shape hs' (hi.locals u) (hi.status u)
      rw [hothers u hu]
      simpa [after, hu] using hst

/-! ## Steps that touch no data -/

/-- A step of thread `t` that changes nothing but locks. -/
structure LockOnly (t : T) (m m' : Mem T K V) : Prop where
  fresh : m'.fresh = m.fresh
  rank : m'.rank = m.rank
  top : m'.top = m.top
  val : m'.val = m.val
  marked : m'.marked = m.marked
  fullyLinked : m'.fullyLinked = m.fullyLinked
  next : m'.next = m.next
  owner : ∀ a u, u ≠ t → m.owner a = some u → m'.owner a = some u
  readers : ∀ a u, u ≠ t → u ∈ m.readers a → u ∈ m'.readers a
  version : ∀ a, m.version a ≤ m'.version a
  locks : LocksOk m → LocksOk m'

namespace LockOnly

variable {t : T} {m m' : Mem T K V} {a : Addr}

omit [DecidableEq T] [LinearOrder K] in
/-- No step at all. -/
theorem refl (t : T) (m : Mem T K V) : LockOnly t m m :=
  ⟨rfl, rfl, rfl, rfl, rfl, rfl, rfl, fun _ _ _ ho => ho, fun _ _ _ hr => hr, fun _ => le_refl _,
    fun hl => hl⟩

omit [LinearOrder K] in
/-- `lock` of a node. -/
theorem lock (hl : m.lock t a = some m') (ha : a < m.fresh) : LockOnly t m m' := by
  unfold Mem.lock at hl
  split at hl
  · rename_i hfree
    obtain rfl := Option.some.inj hl
    refine ⟨rfl, rfl, rfl, rfl, rfl, rfl, rfl, fun b u hu ho => ?_, fun _ _ _ hr => hr,
      fun b => ?_, fun hk => ⟨fun b => ?_, fun b hb => ?_, fun b hb => ?_⟩⟩
    · have hb : b ≠ a := by
        rintro rfl
        simp [hfree.1] at ho
      simpa [hb] using ho
    · by_cases hb : b = a
      · subst hb
        simp
      · simp [hb]
    · by_cases hb : b = a
      · subst hb
        have := (hk.parity b).not.mpr (by simp [hfree.1])
        simp only [Function.update_self]
        constructor
        · intro _
          simp
        · intro _
          omega
      · simpa [hb] using hk.parity b
    · by_cases hba : b = a
      · subst hba
        exact hfree.2
      · exact hk.excl b (by simpa [hba] using hb)
    · have hba : b ≠ a := fun he => absurd ha (not_lt.mpr (he ▸ hb))
      simpa [hba] using hk.free b hb
  · cases hl

omit [DecidableEq T] [LinearOrder K] in
/-- `unlock` of a node; an `occ_lock` becomes even again. -/
theorem unlock (hown : m.owner a = some t) (hpar : m.version a % 2 = 1) :
    LockOnly t m (m.unlock a) := by
  refine ⟨rfl, rfl, rfl, rfl, rfl, rfl, rfl, fun b u hu ho => ?_, fun _ _ _ hr => hr,
    fun b => ?_, fun hk => ⟨fun b => ?_, fun b hb => ?_, fun b hb => ?_⟩⟩
  · have hb : b ≠ a := by
      rintro rfl
      exact hu (Option.some.inj (ho.symm.trans hown))
    simpa [Mem.unlock, hb] using ho
  · by_cases hb : b = a
    · subst hb
      simp [Mem.unlock]
    · simp [Mem.unlock, hb]
  · by_cases hb : b = a
    · subst hb
      simp only [Mem.unlock, Function.update_self]
      simp only [ne_eq, not_true_eq_false, iff_false]
      omega
    · simpa [Mem.unlock, hb] using hk.parity b
  · have hba : b ≠ a := by
      rintro rfl
      simp [Mem.unlock] at hb
    exact hk.excl b (by simpa [Mem.unlock, hba] using hb)
  · by_cases hba : b = a
    · subst hba
      exact ⟨by simp [Mem.unlock], (hk.free b hb).2⟩
    · simpa [Mem.unlock, hba] using hk.free b hb

omit [LinearOrder K] in
/-- `read_lock` of a node. -/
theorem readLock (hl : m.readLock t a = some m') (ha : a < m.fresh) : LockOnly t m m' := by
  unfold Mem.readLock at hl
  split at hl
  · rename_i hfree
    obtain rfl := Option.some.inj hl
    refine ⟨rfl, rfl, rfl, rfl, rfl, rfl, rfl, fun _ _ _ ho => ho, fun b u hu hr => ?_,
      fun _ => le_refl _, fun hk => ⟨hk.parity, fun b hb => ?_, fun b hb => ?_⟩⟩
    · by_cases hb : b = a
      · subst hb
        simp [hr]
      · simpa [hb] using hr
    · have hba : b ≠ a := by
        rintro rfl
        exact hb hfree
      simpa [hba] using hk.excl b hb
    · have hba : b ≠ a := fun he => absurd ha (not_lt.mpr (he ▸ hb))
      simpa [hba] using hk.free b hb
  · cases hl

omit [LinearOrder K] in
/-- `read_unlock` of a node. -/
theorem readUnlock (t : T) (m : Mem T K V) (a : Addr) : LockOnly t m (m.readUnlock t a) := by
  refine ⟨rfl, rfl, rfl, rfl, rfl, rfl, rfl, fun _ _ _ ho => ho, fun b u hu hr => ?_,
    fun _ => le_refl _, fun hk => ⟨hk.parity, fun b hb => ?_, fun b hb => ⟨(hk.free b hb).1, ?_⟩⟩⟩
  · by_cases hb : b = a
    · subst hb
      simpa [Mem.readUnlock, hu] using hr
    · simpa [Mem.readUnlock, hb] using hr
  · by_cases hba : b = a
    · subst hba
      simp [Mem.readUnlock, hk.excl b hb]
    · simpa [Mem.readUnlock, hba] using hk.excl b hb
  · by_cases hba : b = a
    · subst hba
      simp [Mem.readUnlock, (hk.free b hb).2]
    · simpa [Mem.readUnlock, hba] using (hk.free b hb).2

omit [LinearOrder K] in
/-- A lock taken by a lookup, in its mode. -/
theorem acquire {mode : Mode} (hl : m.acquire mode t a = some m') (ha : a < m.fresh) :
    LockOnly t m m' := by
  cases mode with
  | exclusive => exact lock hl ha
  | shared => exact readLock hl ha

omit [LinearOrder K] in
/-- A lock given back by a lookup, in its mode. -/
theorem releaseAs {mode : Mode} (hheld : HeldAs m t a mode) (hk : LocksOk m) :
    LockOnly t m (m.releaseAs mode t a) := by
  cases mode with
  | exclusive =>
      have hown : m.owner a = some t := hheld
      exact unlock hown ((hk.parity a).mpr (by simp [hown]))
  | shared => exact readUnlock t m a

omit [DecidableEq T] [LinearOrder K] in
/-- Membership in the lists, past or present, does not depend on locks. -/
theorem was_iff (hlo : LockOnly t m m') {b : Addr} {l : Nat} : Was m' h b l ↔ Was m h b l := by
  unfold Was
  rw [hlo.marked, hlo.top]

omit [DecidableEq T] in
/-- Locks are no part of the shape. -/
theorem shape (hlo : LockOnly t m m') (hs : Shape m h) : Shape m' h where
  fresh := hlo.fresh ▸ hs.fresh
  headHeight := hs.headHeight
  tailHeight := hs.tailHeight
  headRank := hlo.rank ▸ hs.headRank
  tailRank := hlo.rank ▸ hs.tailRank
  headUnmarked := hlo.marked ▸ hs.headUnmarked
  tailUnmarked := hlo.marked ▸ hs.tailUnmarked
  tailFull := hlo.fullyLinked ▸ hs.tailFull
  inj := hlo.rank ▸ hs.inj
  succ := by
    rw [hlo.rank, hlo.next]
    exact hs.succ
  frozen := fun a l hw hl => by
    rw [hlo.was_iff, hlo.rank, hlo.next]
    exact hs.frozen a l (hlo.was_iff.mp hw) hl
  frozenFull := by
    rw [hlo.marked, hlo.fullyLinked, hlo.next]
    exact hs.frozenFull
  height := hlo.top ▸ hs.height
  top := hlo.top ▸ hs.top
  full := by
    rw [hlo.marked, hlo.fullyLinked, hlo.fresh, hlo.top]
    exact hs.full
  markedFull := by
    rw [hlo.marked, hlo.fullyLinked]
    exact hs.markedFull
  unborn := by
    rw [hlo.marked, hlo.fresh]
    exact hs.unborn

omit [DecidableEq T] in
/-- **To every other thread a lock step is invisible**, apart from the lock. -/
theorem frame (hlo : LockOnly t m m') (hs : Shape m h) (mine : Option Addr) :
    Frame t mine m h m' h where
  fresh := hlo.fresh.ge
  rank a _ := by rw [hlo.rank]
  top a _ := by rw [hlo.top]
  was a l hw := hlo.was_iff.mpr hw
  owner := hlo.owner
  readers := hlo.readers
  next a _ _ := by rw [hlo.next]
  marked a _ _ := by rw [hlo.marked]
  full a _ hf := by rw [hlo.fullyLinked]; exact hf
  linked a l hl _ := hl
  victim a _ _ := rfl
  others n _ hf _ := ⟨by rw [hlo.fullyLinked]; exact hf, by rw [hlo.marked], by rw [hlo.val], rfl,
    fun j _ => by rw [hlo.next]⟩
  version a _ := hlo.version a
  val a _ _ := by rw [hlo.val]
  frozen a l _ _ := by rw [hlo.next]
  stays a _ hm := by rw [hlo.marked]; exact hm
  newMarked a hm := .inl (by rwa [hlo.marked] at hm)
  newFull a _ hf := .inl (by rwa [hlo.fullyLinked] at hf)
  newborn a ha := (hs.unborn a ha).1

omit [DecidableEq T] in
/-- The map does not depend on locks. -/
theorem mapOf_eq (hlo : LockOnly t m m') (hs : Shape m h) : mapOf m' = mapOf m := by
  refine mapOf_congr hs (hlo.shape hs) (fun a => ?_) fun a _ => ?_
  · rw [hlo.marked, hlo.fullyLinked]
  · exact ⟨by rw [hlo.rank], by rw [hlo.val]⟩

end LockOnly

/-- **A step that touches no data.** -/
theorem Inv.quiet (hi : Inv h s σ) {t : T} {m' : Mem T K V} {p' : Pc K V}
    (hlo : LockOnly t s.mem m') (hlocal : LocalOk m' h t p')
    (hlink : p'.linking = (s.pc t).linking) (hunlink : p'.unlinking = (s.pc t).unlinking)
    (hnew : p'.newNode = (s.pc t).newNode)
    (hcand : ∀ c p, p'.candidate = some (c, p) → c < s.mem.fresh ∧
      (s.mem.fullyLinked c = true ∨ ∃ u, (s.pc u).linking = some (c, p)))
    {σ' : Statuses T K V}
    (hothers : ∀ u, u ≠ t → σ' u = Observed.observe (after s t m' p') σ u)
    (hstatus : statusOk (after s t m' p') h p' (σ' t)) : Inv h (after s t m' p') σ' := by
  refine hi.move (hlo.frame hi.shape _) (hlo.shape hi.shape) hlocal ⟨fun n h0 hfull => ?_,
    fun a hm h0 => ?_, fun n hn => ?_, fun n p hp => ?_, hcand⟩ (hlo.locks hi.locks)
    hothers hstatus
  · rw [hlo.fullyLinked] at hfull
    by_cases hex : ∃ p, p'.linking = some (n, p)
    · exact .inl hex
    · exact .inr ⟨h0, hfull, fun p hp => hex ⟨p, hlink.trans hp⟩⟩
  · rw [hlo.marked] at hm
    by_cases hp : p'.unlinking = some a
    · exact .inl hp
    · exact .inr ⟨hm, h0, fun hp' => hp (hunlink.trans hp')⟩
  · exact .inl (hnew ▸ hn)
  · exact .inl (hlink.trans hp)

end Invariant
end SkipList
