import LockBench.WormholeGetSteps

/-!
# The leaf locks and `occ_seq`

A leaf's `occ_seq` is odd exactly while the thread that has the leaf's lock is in a write
section of the leaf.  Every lock path bumps it: `wormhole_jump_leaf_write`, the second lock of a
split and that of a merge, and all unlocks.  The invariant is kept effect by effect; for the
other threads it is enough that no leaf they have locked is touched.
-/

namespace WormholeGet

section

variable {T K V : Type}

/-- The locks of one thread, and the counters of the leaves that it has locked. -/
structure ThreadLocks (m : Mem T K V) (t : T) (p : Pc K V) : Prop where
  locked : ∀ l ∈ p.holds, m.lock l = some t
  nodup : p.holds.Nodup
  parity : ∀ l ∈ p.holds, (m.seq l % 2 = 1 ↔ l ∈ p.writes)

/-- A leaf's counter is odd exactly while a thread is in its write section, and
one thread at most has its lock. -/
structure LockInv (s : ScState T (Mem T K V) (Pc K V)) : Prop where
  thread : ∀ t, ThreadLocks s.mem t (s.pc t)
  even : ∀ l, s.mem.lock l = none → s.mem.seq l % 2 = 0
  free : ∀ l, s.mem.used l = false → s.mem.lock l = none

/-- The thread does not see a change of other leaves. -/
theorem ThreadLocks.frame {m m' : Mem T K V} {t : T} {p : Pc K V} (h : ThreadLocks m t p)
    (hframe : ∀ l ∈ p.holds, m'.lock l = m.lock l ∧ m'.seq l = m.seq l) : ThreadLocks m' t p where
  locked l hl := (hframe l hl).1.trans (h.locked l hl)
  nodup := h.nodup
  parity l hl := by
    rw [(hframe l hl).2]
    exact h.parity l hl

/-- The thread gives up some of its locks, or none. -/
theorem ThreadLocks.same {m : Mem T K V} {t : T} {p p' : Pc K V} (h : ThreadLocks m t p)
    (same : SameLocks p p') : ThreadLocks m t p' where
  locked l hl := h.locked l (same.holds l hl)
  nodup := same.nodup h.nodup
  parity l hl := (h.parity l (same.holds l hl)).trans (same.writes l hl).symm

/-- A thread in a write section has the leaf's lock. -/
theorem Pc.holds_of_writes {p : Pc K V} {l : Leaf} (hl : l ∈ p.writes) : l ∈ p.holds := by
  cases p with
  | jumpBump => cases hl
  | metaUnlock keep => cases keep <;> exact hl
  | release l' ls n => exact .tail _ hl
  | splitBump l₁ l₂ | mergeBump l₁ l₂ => exact List.mem_cons.mpr (.inl (List.mem_singleton.mp hl))
  | _ => exact hl

/-- A thread in a write section has the leaf's lock, and the counter is odd. -/
theorem LockInv.odd {s : ScState T (Mem T K V) (Pc K V)} (h : LockInv s) {t : T} {l : Leaf}
    (hl : l ∈ (s.pc t).writes) : s.mem.seq l % 2 = 1 :=
  ((h.thread t).parity l (Pc.holds_of_writes hl)).mpr hl

/-- No thread has a leaf locked that is free. -/
theorem LockInv.not_held {s : ScState T (Mem T K V) (Pc K V)} (h : LockInv s) {l : Leaf}
    (hfree : s.mem.lock l = none) (u : T) : l ∉ (s.pc u).holds := fun hl => by
  cases hfree.symm.trans ((h.thread u).locked l hl)

/-- What a thread has locked, no other has. -/
theorem LockInv.ne_of_held {s : ScState T (Mem T K V) (Pc K V)} (h : LockInv s) {t u : T}
    (hu : u ≠ t) {l l' : Leaf} (hl : l ∈ (s.pc t).holds) (hl' : l' ∈ (s.pc u).holds) : l' ≠ l := by
  intro heq
  subst heq
  exact hu (Option.some.inj (((h.thread u).locked l' hl').symm.trans ((h.thread t).locked l' hl)))

variable [DecidableEq T] [DecidableEq K]

omit [DecidableEq K] in
/-- A step keeps the invariant if the thread that moves is right about its locks and no leaf
that another thread has locked is touched. -/
theorem LockInv.of_mover {s : ScState T (Mem T K V) (Pc K V)} (h : LockInv s) {t : T} {p' : Pc K V}
    {m' : Mem T K V} (mover : ThreadLocks m' t p')
    (other : ∀ u, u ≠ t → ∀ l ∈ (s.pc u).holds,
      m'.lock l = s.mem.lock l ∧ m'.seq l = s.mem.seq l)
    (even : ∀ l, m'.lock l = none → m'.seq l % 2 = 0)
    (free : ∀ l, m'.used l = false → m'.lock l = none) :
    LockInv ⟨m', Function.update s.pc t p'⟩ := by
  refine ⟨fun u => ?_, even, free⟩
  by_cases hu : u = t
  · subst hu
    simp only [Function.update_self]
    exact mover
  · simp only [Function.update_of_ne hu]
    exact (h.thread u).frame (other u hu)

omit [DecidableEq K] in
/-- A step that leaves the locks and the counters alone. -/
theorem LockInv.same {s : ScState T (Mem T K V) (Pc K V)} (h : LockInv s) {t : T} {p' : Pc K V}
    {m' : Mem T K V} (same : SameLocks (s.pc t) p') (hlock : m'.lock = s.mem.lock)
    (hseq : m'.seq = s.mem.seq) (hused : m'.used = s.mem.used) :
    LockInv ⟨m', Function.update s.pc t p'⟩ := by
  have hframe : ∀ l, m'.lock l = s.mem.lock l ∧ m'.seq l = s.mem.seq l :=
    fun l => ⟨congrFun hlock l, congrFun hseq l⟩
  refine h.of_mover (((h.thread t).same same).frame fun l _ => hframe l) (fun _ _ l _ => hframe l)
    ?_ ?_
  · rw [hlock, hseq]
    exact h.even
  · rw [hused, hlock]
    exact h.free

omit [DecidableEq K] in
/-- A leaf is locked. -/
theorem LockInv.acquire {s : ScState T (Mem T K V) (Pc K V)} (h : LockInv s) {t : T} {p' : Pc K V}
    {l : Leaf} (hfree : s.mem.lock l = none) (hused : s.mem.used l = true)
    (holds : p'.holds.Perm (l :: (s.pc t).holds)) (writes : p'.writes = (s.pc t).writes) :
    LockInv ⟨s.mem.setLock l (some t), Function.update s.pc t p'⟩ := by
  have hnot := h.not_held hfree
  have hlock : ∀ l', l' ≠ l → (s.mem.setLock l (some t)).lock l' = s.mem.lock l' :=
    fun l' hl' => Function.update_of_ne hl' ..
  refine h.of_mover ⟨fun l' hl' => ?_, ?_, fun l' hl' => ?_⟩ (fun u _ l' hl' => ⟨hlock l' ?_, rfl⟩)
    (fun l' hl' => ?_) fun l' hl' => ?_
  · rcases List.mem_cons.mp (holds.mem_iff.mp hl') with rfl | hmem
    · exact Function.update_self ..
    · exact (hlock l' fun heq => hnot t (heq ▸ hmem)).trans ((h.thread t).locked l' hmem)
  · exact holds.nodup_iff.mpr (List.nodup_cons.mpr ⟨hnot t, (h.thread t).nodup⟩)
  · rw [writes]
    rcases List.mem_cons.mp (holds.mem_iff.mp hl') with rfl | hmem
    · -- The section begins with the bump that follows.
      have heven : s.mem.seq l' % 2 = 0 := h.even l' hfree
      have hseq : (s.mem.setLock l' (some t)).seq l' = s.mem.seq l' := rfl
      exact iff_of_false (by omega) fun hw => hnot t (Pc.holds_of_writes hw)
    · exact (h.thread t).parity l' hmem
  · exact fun heq => hnot u (heq ▸ hl')
  · by_cases heq : l' = l
    · exact heq ▸ h.even l hfree
    · exact h.even l' ((hlock l' heq).symm.trans hl')
  · have hne : l' ≠ l := by
      intro heq
      subst heq
      cases hused.symm.trans hl'
    exact (hlock l' hne).trans (h.free l' hl')

omit [DecidableEq K] in
/-- A leaf is unlocked, behind the bump that ends its section. -/
theorem LockInv.release {s : ScState T (Mem T K V) (Pc K V)} (h : LockInv s) {t : T} {p' : Pc K V}
    {l : Leaf} (holds : (s.pc t).holds = l :: p'.holds) (writes : (s.pc t).writes = p'.writes)
    (sub : ∀ l ∈ (s.pc t).writes, l ∈ p'.holds) :
    LockInv ⟨s.mem.setLock l none, Function.update s.pc t p'⟩ := by
  have hnodup := (h.thread t).nodup
  rw [holds] at hnodup
  obtain ⟨hnot, hnodup'⟩ := List.nodup_cons.mp hnodup
  have hmem : l ∈ (s.pc t).holds := holds ▸ .head _
  have hlock : ∀ l', l' ≠ l → (s.mem.setLock l none).lock l' = s.mem.lock l' :=
    fun l' hl' => Function.update_of_ne hl' ..
  refine h.of_mover ⟨fun l' hl' => ?_, hnodup', fun l' hl' => ?_⟩
    (fun u hu l' hl' => ⟨hlock l' (h.ne_of_held hu hmem hl'), rfl⟩)
    (fun l' hl' => ?_) fun l' hl' => ?_
  · exact (hlock l' fun heq => hnot (heq ▸ hl')).trans
      ((h.thread t).locked l' (holds ▸ .tail _ hl'))
  · rw [← writes]
    exact (h.thread t).parity l' (holds ▸ .tail _ hl')
  · by_cases heq : l' = l
    · have hpar := ((h.thread t).parity l hmem).not.mpr fun hw => hnot (sub l hw)
      have hseq : (s.mem.setLock l none).seq l' = s.mem.seq l := congrArg s.mem.seq heq
      omega
    · exact h.even l' ((hlock l' heq).symm.trans hl')
  · by_cases heq : l' = l
    · rw [heq]
      exact Function.update_self ..
    · exact (hlock l' heq).trans (h.free l' hl')

omit [DecidableEq K] in
/-- A section begins or ends. -/
theorem LockInv.bump {s : ScState T (Mem T K V) (Pc K V)} (h : LockInv s) {t : T} {p' : Pc K V}
    {l : Leaf} (mem : l ∈ (s.pc t).holds) (holds : p'.holds = (s.pc t).holds)
    (writes : ∀ l' ∈ (s.pc t).holds,
      (l' ∈ p'.writes ↔ if l' = l then l ∉ (s.pc t).writes else l' ∈ (s.pc t).writes)) :
    LockInv ⟨s.mem.bump l, Function.update s.pc t p'⟩ := by
  have hown := h.thread t
  have hseq : ∀ l', l' ≠ l → (s.mem.bump l).seq l' = s.mem.seq l' :=
    fun l' hl' => Function.update_of_ne hl' ..
  have hself : (s.mem.bump l).seq l = s.mem.seq l + 1 := Function.update_self ..
  refine h.of_mover ⟨fun l' hl' => hown.locked l' (holds ▸ hl'), holds ▸ hown.nodup,
    fun l' hl' => ?_⟩ (fun u hu l' hl' => ⟨rfl, hseq l' (h.ne_of_held hu mem hl')⟩)
    (fun l' hl' => ?_) h.free
  · rw [holds] at hl'
    rw [writes l' hl']
    have hpar := hown.parity l' hl'
    by_cases heq : l' = l
    · subst heq
      rw [hself, if_pos rfl, ← hpar]
      omega
    · rw [hseq l' heq, if_neg heq]
      exact hpar
  · have hne : l' ≠ l := by
      intro heq
      subst heq
      cases (hown.locked l' mem).symm.trans hl'
    rw [hseq l' hne]
    exact h.even l' hl'

omit [DecidableEq K] in
/-- A new leaf is allocated. -/
theorem LockInv.alloc {s : ScState T (Mem T K V) (Pc K V)} (h : LockInv s) {t : T} {p' : Pc K V}
    {l : Leaf} (hfree : s.mem.used l = false) (same : SameLocks (s.pc t) p') :
    LockInv ⟨s.mem.alloc l, Function.update s.pc t p'⟩ := by
  have hnone := h.free l hfree
  have hseq : ∀ l', l' ≠ l → (s.mem.alloc l).seq l' = s.mem.seq l' :=
    fun l' hl' => Function.update_of_ne hl' ..
  have hframe : ∀ u, ∀ l' ∈ (s.pc u).holds, (s.mem.alloc l).lock l' = s.mem.lock l' ∧
      (s.mem.alloc l).seq l' = s.mem.seq l' :=
    fun u l' hl' => ⟨rfl, hseq l' fun heq => h.not_held hnone u (heq ▸ hl')⟩
  refine h.of_mover (((h.thread t).frame (hframe t)).same same) (fun u _ => hframe u)
    (fun l' hl' => ?_) fun l' hl' => ?_
  · by_cases heq : l' = l
    · have hzero : (s.mem.alloc l).seq l = 0 := Function.update_self ..
      rw [heq, hzero]
    · rw [hseq l' heq]
      exact h.even l' hl'
  · by_cases heq : l' = l
    · rw [heq]
      exact hnone
    · exact h.free l' ((Function.update_of_ne heq ..).symm.trans hl')

/-- **Every effect keeps the locks and counters in step.** -/
theorem LockInv.step {s : ScState T (Mem T K V) (Pc K V)} (h : LockInv s) {t : T} {p' : Pc K V}
    {m' : Mem T K V} (hwants : ∀ l, (s.pc t).wants = some l → s.mem.used l = true)
    (e : Effect t s.mem (s.pc t) p' m') : LockInv ⟨m', Function.update s.pc t p'⟩ := by
  cases e with
  | none same => exact h.same same rfl rfl rfl
  | store l i e same => exact h.same (.of_eq (by rw [same]) (by rw [same])) rfl rfl rfl
  | commit k r same => exact h.same (.of_eq (by rw [same]) (by rw [same])) rfl rfl rfl
  | metaLock free same => exact h.same same rfl rfl rfl
  | metaUnlock own same => exact h.same same rfl rfl rfl
  | setLv l own same => exact h.same same rfl rfl rfl
  | switch x l₁ l₂ c at_ moved same => exact h.same same rfl rfl rfl
  | acquire l free wants holds writes => exact h.acquire free (hwants l wants) holds writes
  | release l holds writes sub => exact h.release holds writes sub
  | bump l mem holds ends writes => exact h.bump mem holds (writes (h.thread t).nodup)
  | alloc l free same => exact h.alloc free same

end

end WormholeGet
