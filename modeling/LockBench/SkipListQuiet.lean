import LockBench.SkipListInvariant

/-!
# Searching, locking and validating

The steps of the skip list that store no data: every load, every lock operation and
every return.  For each of them, what the thread knows and has seen at its next
program point follows from what it knew and had seen before (`Quiet`).
-/

namespace SkipList

section Quiet

variable {T K V : Type} [LinearOrder K] {h : Addr → Nat} {s : State T K V}
  {σ : Statuses T K V} {t : T} {m' : Mem T K V} {p' : Pc K V}

/-- What a step that stores no data has to establish. -/
structure Quiet (h : Addr → Nat) (s : State T K V) (σ : Statuses T K V) (t : T)
    (m' : Mem T K V) (p' : Pc K V) : Prop where
  locks : LockOnly t s.mem m'
  locals : LocalOk m' h t p'
  linking : p'.linking = (s.pc t).linking
  unlinking : p'.unlinking = (s.pc t).unlinking
  newNode : p'.newNode = (s.pc t).newNode
  candidate : ∀ c p, p'.candidate = some (c, p) → c < s.mem.fresh ∧
    (s.mem.fullyLinked c = true ∨ ∃ u, (s.pc u).linking = some (c, p))
  status : statusOk s h p' (σ t)

/-- What has been seen does not depend on locks. -/
theorem LockOnly.seenOk {m : Mem T K V} (hlo : LockOnly t m m') {Z : Set (State T K V)}
    (s' : State T K V) {p : Pc K V} (hp : seenOk m Z p) :
    SkipList.seenOk m' (insert s' Z) p := by
  refine seenOk_insert s' (fun c q _ _ => by rw [hlo.rank]) ?_ hp
  rintro k q v c vc rfl hp
  rw [hlo.marked, hlo.val]
  exact hp

open Observed in
/-- **A quiet step keeps the invariant.** -/
theorem Quiet.inv [DecidableEq T] (hq : Quiet h s σ t m' p') (hi : Inv h s σ) :
    Inv h (after s t m' p') (observe (after s t m' p') σ) := by
  refine hi.quiet hq.locks hq.locals hq.linking hq.unlinking hq.newNode hq.candidate
    (fun _ _ => rfl) ?_
  have hstep : ∀ {k Z}, Hist s h k Z →
      Hist (after s t m' p') h k (insert (after s t m' p') Z) := fun hh =>
    hh.step (u := t) (hq.locks.frame hi.shape none) hi.shape (hq.locks.shape hi.shape)
  have hst := hq.status
  unfold statusOk at *
  cases hph : p'.phase with
  | idle =>
      rw [hph] at hst
      simp only [observe, hst]
  | running op =>
      rw [hph] at hst
      obtain ⟨Z, hst, hh, hseen⟩ := hst
      simp only [observe, hst]
      exact ⟨_, rfl, hstep hh, hq.locks.seenOk _ hseen⟩
  | done op r =>
      rw [hph] at hst
      simp only [observe, hst]
  | returned r =>
      rw [hph] at hst
      obtain ⟨op, hst | ⟨Z, hst, s₀, hs₀, hr⟩⟩ := hst
      · simp only [observe, hst]
        exact ⟨op, .inl rfl⟩
      · simp only [observe, hst]
        exact ⟨op, .inr ⟨_, rfl, s₀, Set.mem_insert_of_mem _ hs₀, hr⟩⟩

/-- What ties a program point to nodes. -/
def Pc.ties (p : Pc K V) : Option (Addr × Addr) × Option Addr × Option Addr :=
  (p.linking, p.unlinking, p.newNode)

/-- A step that takes or gives back a lock at most, and keeps what ties the operation, is quiet. -/
theorem Quiet.of_ties {p : Pc K V} (hpc : s.pc t = p) (hlo : LockOnly t s.mem m')
    (hlocal : LocalOk m' h t p') (hties : p'.ties = p.ties) (hcand : p'.candidate = none)
    (hst : statusOk s h p' (σ t)) : Quiet h s σ t m' p' := by
  obtain ⟨h1, h2⟩ := Prod.mk.inj hties
  obtain ⟨h2, h3⟩ := Prod.mk.inj h2
  refine ⟨hlo, hlocal, hpc ▸ h1, hpc ▸ h2, hpc ▸ h3, fun c p hc => ?_, hst⟩
  rw [hcand] at hc
  cases hc

/-! ## The search -/

/-- What a search knows of the levels it has recorded, from `lvl` up. -/
structure Searched (m : Mem T K V) (h : Addr → Nat) (Z : Set (State T K V)) (k : K) (lvl : Nat)
    (f : Found) : Prop where
  recorded : ∀ j, lvl ≤ j → j < maxLevel → Recorded m h k f.preds f.succs j
  missed : f.lfound = none → ∀ j, lvl ≤ j → j < maxLevel → m.rank (f.succs j) ≠ rankOf k
  found : ∀ l, f.lfound = some l → lvl ≤ l ∧ l < maxLevel ∧ m.rank (f.succs l) = rankOf k
  succs : ∀ j, lvl ≤ j → j < maxLevel → SeenIn Z (f.succs j) j
  above : ∀ j, lvl ≤ j → j < maxLevel → (∀ l, f.lfound = some l → l < j) → NoKeyIn Z k j

/-- The record of one more level. -/
def Found.record (m : Mem T K V) (k : K) (lvl : Nat) (pred : Addr) (f : Found) : Found :=
  ⟨Function.update f.preds lvl pred, Function.update f.succs lvl (m.next pred lvl),
    if f.lfound = none ∧ m.rank (m.next pred lvl) = rankOf k then some lvl else f.lfound⟩

/-- One more level is searched. -/
theorem Searched.record {k : K} {lvl : Nat} {pred : Addr} {f : Found} {Z : Set (State T K V)}
    (hs : Shape s.mem h) (hh : Hist s h k Z) (hf : FindOk s.mem h k lvl pred f)
    (hz : FindSeen Z k lvl pred f) (hge : rankOf k ≤ s.mem.rank (s.mem.next pred lvl)) :
    Searched s.mem h Z k lvl (f.record s.mem k lvl pred) := by
  have hnext := hs.next_was hf.was (hs.ne_tail hf.left)
  have hseen := hh.next pred lvl hf.level hz.pred (hs.ne_tail hf.left)
  have hsplit : ∀ j, lvl ≤ j → j = lvl ∨ (j ≠ lvl ∧ lvl < j) := fun j hj => by omega
  have hfound : ∀ l, (f.record s.mem k lvl pred).lfound = some l →
      (l = lvl ∧ f.lfound = none ∧ s.mem.rank (s.mem.next pred lvl) = rankOf k) ∨
      f.lfound = some l := by
    intro l hl
    simp only [Found.record] at hl
    split at hl
    · rename_i hif
      exact .inl ⟨(Option.some.inj hl).symm, hif⟩
    · exact .inr hl
  refine ⟨fun j hj hj' => ?_, fun hnone j hj hj' => ?_, fun l hl => ?_, fun j hj hj' => ?_,
    fun j hj hj' hlow => ?_⟩
  · rcases hsplit j hj with rfl | ⟨hne, hlt⟩
    · exact ⟨by simpa [Found.record] using hf.was, by simpa [Found.record] using hf.left,
        by simpa [Found.record] using hnext.1, by simpa [Found.record] using hge⟩
    · obtain ⟨h1, h2, h3, h4⟩ := hf.above j hlt hj'
      exact ⟨by simpa [Found.record, hne] using h1, by simpa [Found.record, hne] using h2,
        by simpa [Found.record, hne] using h3, by simpa [Found.record, hne] using h4⟩
  · simp only [Found.record] at hnone
    split at hnone
    · cases hnone
    · rename_i hif
      rcases hsplit j hj with rfl | ⟨hne, hlt⟩
      · simpa [Found.record] using fun hr => hif ⟨hnone, hr⟩
      · simpa [Found.record, hne] using hf.missed hnone j hlt hj'
  · rcases hfound l hl with ⟨rfl, -, hr⟩ | hl
    · exact ⟨le_refl _, hf.level, by simpa [Found.record] using hr⟩
    · obtain ⟨h1, h2, h3⟩ := hf.found l hl
      have hne : l ≠ lvl := by omega
      exact ⟨by omega, h2, by simpa [Found.record, hne] using h3⟩
  · rcases hsplit j hj with rfl | ⟨hne, hlt⟩
    · simpa [Found.record] using hseen
    · simpa [Found.record, hne] using hz.succs j hlt hj'
  · rcases hsplit j hj with rfl | ⟨hne, hlt⟩
    · -- nothing was found above, and the key is not here either
      have hnone : f.lfound = none := by
        rw [Option.eq_none_iff_forall_ne_some]
        intro l hl
        have hl' : (f.record s.mem k j pred).lfound = some l := by simp [Found.record, hl]
        have := hlow l hl'
        have := (hf.found l hl).1
        omega
      refine hh.gap pred j hf.level hz.pred hf.left (lt_of_le_of_ne hge fun heq => ?_)
      have hl' : (f.record s.mem k j pred).lfound = some j := by
        simp [Found.record, hnone, ← heq]
      exact absurd (hlow j hl') (lt_irrefl j)
    · refine hz.above j hlt hj' fun l hl => hlow l ?_
      simp [Found.record, hl]

/-- A search that goes on one level down. -/
theorem Searched.down {k : K} {lvl : Nat} {pred : Addr} {f : Found} {Z : Set (State T K V)}
    (hh : Hist s h k Z) (hsr : Searched s.mem h Z k (lvl + 1) f) (hl : lvl + 1 < maxLevel)
    (hw : Was s.mem h pred (lvl + 1)) (hleft : s.mem.rank pred < rankOf k)
    (hseen : SeenIn Z pred (lvl + 1)) :
    FindOk s.mem h k lvl pred f ∧ FindSeen Z k lvl pred f :=
  ⟨⟨by omega, Shape.was_mono hw (by omega), hleft, fun j hj => hsr.recorded j hj,
    fun hn j hj => hsr.missed hn j hj, fun l hf => hsr.found l hf⟩,
    ⟨hh.below pred lvl hl hseen, fun j hj => hsr.succs j hj, fun j hj => hsr.above j hj⟩⟩

/-- A search that starts. -/
theorem startFind_ok (hs : Shape s.mem h) {u : Upd K V} {Z : Set (State T K V)} (hnow : s ∈ Z) :
    LocalOk s.mem h t (startFind u) ∧ seenOk s.mem Z (startFind u) := by
  have hnone : ∀ j, maxLevel - 1 < j → ¬ j < maxLevel := fun j hj => by
    simp only [maxLevel] at *
    omega
  refine ⟨⟨by decide, .inl (by rw [hs.headHeight]; decide), ?_, fun j hj hj' => absurd hj' (hnone j hj),
    fun _ j hj hj' => absurd hj' (hnone j hj), fun l hl => nomatch hl⟩,
    ⟨Hist.seen_now hs hnow (by decide) (by rw [hs.headHeight]; decide),
      fun j hj hj' => absurd hj' (hnone j hj), fun j hj hj' => absurd hj' (hnone j hj)⟩⟩
  rw [hs.headRank]
  exact WithBot.bot_lt_coe _

/-- A status at a program point of an open operation. -/
theorem statusOk_running {p : Pc K V} {op : MapOp K V} (hop : p.phase = .running op)
    {st : Status (State T K V) (MapOp K V) (MapRes V)} :
    statusOk s h p st ↔ ∃ Z, st = .pending op Z ∧ Hist s h op.key Z ∧ seenOk s.mem Z p := by
  unfold statusOk
  rw [hop]

/-- An operation that returns what it observed at an instant since its call. -/
theorem statusOk_returned {op : MapOp K V} {r : MapRes V} {Z : Set (State T K V)}
    {st : Status (State T K V) (MapOp K V) (MapRes V)} (hst : st = .pending op Z)
    (hobs : ∃ s₀ ∈ Z, op.apply (mapOf s₀.mem) = (mapOf s₀.mem, r)) :
    statusOk s h (.returned r) st :=
  ⟨op, .inr ⟨Z, hst, hobs⟩⟩

/-- A `remove` that has seen the key absent may return `false`. -/
theorem ObsIn.remove {k : K} {Z : Set (State T K V)} (hobs : ObsIn Z k none) :
    ∃ s₀ ∈ Z, (MapOp.remove k : MapOp K V).apply (mapOf s₀.mem) = (mapOf s₀.mem, .flag false) := by
  obtain ⟨s₀, hs₀, hk⟩ := hobs
  exact ⟨s₀, hs₀, MapOp.apply_remove_absent hk⟩

/-- Where an operation goes with the result of its search. -/
theorem foundAt_quiet {u : Upd K V} {p : Pc K V} {f : Found} {Z : Set (State T K V)}
    (hpc : s.pc t = p) (hties : p.ties = (none, none, none))
    (hsr : Searched s.mem h Z u.key 0 f) (hσ : σ t = .pending u.op Z)
    (hh : Hist s h u.op.key Z) : Quiet h s σ t s.mem (foundAt u f) := by
  have hrec := fun j (hj : j < maxLevel) => hsr.recorded j (Nat.zero_le j) hj
  unfold foundAt
  split
  · -- an existing node is updated
    rename_i k v l hl
    obtain ⟨-, hlt, hr⟩ := hsr.found l hl
    refine .of_ties hpc (.refl t s.mem) ⟨⟨hr, ?_⟩, trivial⟩ hties.symm rfl
      ((statusOk_running rfl).mpr ⟨Z, hσ, hh, trivial⟩)
    exact Shape.was_mono (hrec l hlt).succ (Nat.zero_le l)
  · -- the key is new
    rename_i k v hl
    refine .of_ties hpc (.refl t s.mem) ⟨fun j hj => ?_, trivial⟩ hties.symm rfl
      ((statusOk_running rfl).mpr ⟨Z, hσ, hh, trivial⟩)
    obtain ⟨h1, h2, h3, h4⟩ := hrec j hj
    exact ⟨h1, h2, h3, lt_of_le_of_ne h4 (hsr.missed hl j (Nat.zero_le j) hj).symm⟩
  · -- a victim is found
    rename_i k l hl
    obtain ⟨-, hlt, hr⟩ := hsr.found l hl
    refine .of_ties hpc (.refl t s.mem) ⟨⟨⟨hr, ?_⟩, fun j hj => ?_⟩, rfl⟩ hties.symm rfl
      ((statusOk_running rfl).mpr ⟨Z, hσ, hh, hlt, hsr.succs l (Nat.zero_le l) hlt, ?_⟩)
    · exact Shape.was_mono (hrec l hlt).succ (Nat.zero_le l)
    · exact ⟨(hrec j hj).pred, (hrec j hj).left⟩
    · intro j hj hj'
      refine hsr.above j (Nat.zero_le j) hj' fun l' hl' => ?_
      obtain rfl := Option.some.inj (hl.symm.trans hl')
      exact hj
  · -- the key of a removal was absent from level 0
    rename_i k hl
    refine .of_ties hpc (.refl t s.mem) trivial hties.symm rfl (statusOk_returned hσ ?_)
    refine (hsr.above 0 (le_refl 0) (by decide) fun l hl' => ?_).obs.remove
    rw [hl] at hl'
    cases hl'

omit [LinearOrder K] in
/-- The operation of an update is on its key. -/
theorem Upd.op_key (u : Upd K V) : u.op.key = u.key := by
  cases u <;> rfl

/-- One access of `find`. -/
theorem find_quiet (hi : Inv h s σ) {u : Upd K V} {lvl : Nat} {pred : Addr} {f : Found}
    (hpc : s.pc t = .find u lvl pred f) :
    Quiet h s σ t s.mem (findStep s.mem u lvl pred f) := by
  have hf : FindOk s.mem h u.key lvl pred f := by
    have := hi.locals t
    rwa [hpc] at this
  obtain ⟨Z, hσ, hh, hz⟩ := (statusOk_running rfl).mp (hpc ▸ hi.status t)
  have hh' : Hist s h u.key Z := Upd.op_key u ▸ hh
  have hnt := hi.shape.ne_tail hf.left
  by_cases hlt : s.mem.rank (s.mem.next pred lvl) < rankOf u.key
  · -- one node further
    rw [show findStep s.mem u lvl pred f = .find u lvl (s.mem.next pred lvl) f by
      simp [findStep, nodeLt, hlt]]
    refine .of_ties hpc (.refl t s.mem) ⟨hf.level, (hi.shape.next_was hf.was hnt).1, hlt, hf.above,
      hf.missed, hf.found⟩ rfl rfl ((statusOk_running rfl).mpr ⟨Z, hσ, hh, ?_, hz.succs, hz.above⟩)
    exact hh.next pred lvl hf.level hz.pred hnt
  · have hsr := Searched.record hi.shape hh' hf hz (not_lt.mp hlt)
    cases lvl with
    | zero =>
        rw [show findStep s.mem u 0 pred f = foundAt u (f.record s.mem u.key 0 pred) by
          simp [findStep, nodeLt, hlt, Found.record]]
        exact foundAt_quiet hpc rfl hsr hσ hh
    | succ lvl =>
        rw [show findStep s.mem u (lvl + 1) pred f =
            .find u lvl pred (f.record s.mem u.key (lvl + 1) pred) by
          simp [findStep, nodeLt, hlt, Found.record]]
        obtain ⟨h1, h2⟩ := hsr.down hh' hf.level hf.was hf.left hz.pred
        exact .of_ties hpc (.refl t s.mem) h1 rfl rfl ((statusOk_running rfl).mpr ⟨Z, hσ, hh, h2⟩)

/-! ## Locks -/

variable [DecidableEq T]

omit [LinearOrder K] in
/-- What `lock` changes: the owner of its node. -/
theorem Mem.lock_cases {m : Mem T K V} {a : Addr} (hl : m.lock t a = some m') :
    m.owner a = none ∧ m'.owner a = some t ∧ ∀ b, b ≠ a → m'.owner b = m.owner b := by
  unfold Mem.lock at hl
  split at hl
  · rename_i hfree
    obtain rfl := Option.some.inj hl
    exact ⟨hfree.1, by simp, fun b hb => by simp [hb]⟩
  · cases hl

omit [LinearOrder K] in
/-- Locks held are kept when another is taken. -/
theorem Mem.lock_owner {m : Mem T K V} {a b : Addr} (hl : m.lock t a = some m')
    (hb : m.owner b = some t) : m'.owner b = some t := by
  obtain ⟨h1, h2, h3⟩ := Mem.lock_cases hl
  by_cases hba : b = a
  · rw [hba]
    exact h2
  · rw [h3 b hba]
    exact hb

omit [DecidableEq T] [LinearOrder K] in
/-- Locks held are kept when another is given back. -/
theorem Mem.unlock_owner {m : Mem T K V} {a b : Addr} (hba : b ≠ a) (hb : m.owner b = some t) :
    (m.unlock a).owner b = some t := by
  simpa [Mem.unlock, hba] using hb

omit [DecidableEq T] in
/-- To unlock a held node changes nothing but locks. -/
theorem Inv.unlockOnly (hi : Inv h s σ) {a : Addr} (hown : s.mem.owner a = some t) :
    LockOnly t s.mem (s.mem.unlock a) :=
  .unlock hown ((hi.locks.parity a).mpr (by simp [hown]))

namespace LockOnly

variable {m : Mem T K V} {k : K} {locked locked' : List Addr}

omit [DecidableEq T] in
/-- Recorded neighbours do not depend on locks. -/
theorem between (hlo : LockOnly t m m') {preds succs : Nat → Addr} {j : Nat}
    (hb : Between m h k preds succs j) : Between m' h k preds succs j :=
  ⟨hlo.was_iff.mpr hb.pred, by rw [hlo.rank]; exact hb.left, hlo.was_iff.mpr hb.succ,
    by rw [hlo.rank]; exact hb.right⟩

omit [DecidableEq T] in
/-- The locks taken stay taken as long as they have their owner. -/
theorem lockedOk (hlo : LockOnly t m m') (hl : LockedOk m h t k locked)
    (hown : ∀ a ∈ locked, m'.owner a = some t) : LockedOk m' h t k locked :=
  ⟨hl.nodup, fun a ha => hlo.was_iff.mpr (hl.was a ha), hown,
    fun a ha => by rw [hlo.rank]; exact hl.left a ha⟩

omit [DecidableEq T] [LinearOrder K] in
/-- A validated predecessor stays so while more is locked. -/
theorem valid (hlo : LockOnly t m m') (hsub : ∀ a ∈ locked, a ∈ locked') {p b : Addr} {l : Nat}
    (hv : Valid m locked p l b) : Valid m' locked' p l b :=
  ⟨hsub p hv.mem, by rw [hlo.marked]; exact hv.unmarked, by rw [hlo.next]; exact hv.next⟩

end LockOnly

/-- One more predecessor is locked. -/
theorem LockedOk.snoc {k : K} {locked : List Addr} {a : Addr} (hl : LockedOk s.mem h t k locked)
    (hlo : LockOnly t s.mem m') (hlock : s.mem.lock t a = some m') (hnot : a ∉ locked) (hw : Was s.mem h a 0)
    (hleft : s.mem.rank a < rankOf k) : LockedOk m' h t k (locked ++ [a]) := by
  have hmem : ∀ b ∈ locked ++ [a], b ∈ locked ∨ b = a := by simp
  refine ⟨?_, fun b hb => hlo.was_iff.mpr ?_, fun b hb => ?_, fun b hb => ?_⟩
  · refine List.nodup_append.mpr ⟨hl.nodup, List.nodup_singleton a, fun b hb c hc => ?_⟩
    rintro rfl
    obtain rfl := List.mem_singleton.mp hc
    exact hnot hb
  · rcases hmem b hb with hb | rfl
    · exact hl.was b hb
    · exact hw
  · rcases hmem b hb with hb | rfl
    · exact Mem.lock_owner hlock (hl.owner b hb)
    · exact (Mem.lock_cases hlock).2.1
  · rw [hlo.rank]
    rcases hmem b hb with hb | rfl
    · exact hl.left b hb
    · exact hleft

omit [DecidableEq T] in
/-- Locks given up before a new search, or before a return. -/
theorem release_quiet (hi : Inv h s σ) {u : Upd K V} {locked : List Addr} {r : Option Bool}
    (hpc : s.pc t = .release u locked r) (hnext : releaseStep s.mem u locked r = (m', p')) :
    Quiet h s σ t m' p' := by
  have hl : locked.Nodup ∧ ∀ a ∈ locked, s.mem.owner a = some t := by
    have := hi.locals t
    rwa [hpc] at this
  have hst := hpc ▸ hi.status t
  cases locked with
  | cons a rest =>
      obtain ⟨rfl, rfl⟩ := Prod.mk.inj hnext
      have hnd := List.nodup_cons.mp hl.1
      refine .of_ties hpc (hi.unlockOnly (hl.2 a List.mem_cons_self)) ⟨hnd.2, fun b hb => ?_⟩ rfl rfl ?_
      · refine Mem.unlock_owner ?_ (hl.2 b (List.mem_cons_of_mem a hb))
        rintro rfl
        exact hnd.1 hb
      · match u, r, hst with
        | .put k v, some b, hst => exact hst
        | .put k v, none, hst => exact hst
        | .remove k, some true, hst => exact hst
        | .remove k, some false, hst => exact hst
        | .remove k, none, hst => exact hst
  | nil =>
      match u, r, hst, hpc, hnext with
      | .put k v, some b, hst, hpc, hnext =>
          obtain ⟨rfl, rfl⟩ := Prod.mk.inj hnext
          exact .of_ties hpc (.refl t s.mem) trivial rfl rfl ⟨_, .inl hst⟩
      | .remove k, some true, hst, hpc, hnext =>
          obtain ⟨rfl, rfl⟩ := Prod.mk.inj hnext
          exact .of_ties hpc (.refl t s.mem) trivial rfl rfl ⟨_, .inl hst⟩
      | .remove k, some false, hst, hpc, hnext =>
          obtain ⟨rfl, rfl⟩ := Prod.mk.inj hnext
          obtain ⟨Z, hσ, hh, hobs⟩ := hst
          exact .of_ties hpc (.refl t s.mem) trivial rfl rfl
            (statusOk_returned hσ (ObsIn.remove hobs))
      | .put k v, none, hst, hpc, hnext =>
          obtain ⟨rfl, rfl⟩ := Prod.mk.inj hnext
          obtain ⟨Z, hσ, hh, -⟩ := hst
          obtain ⟨h1, h2⟩ := startFind_ok (t := t) (u := .put k v) hi.shape hh.now
          exact .of_ties hpc (.refl t s.mem) h1 rfl rfl ⟨Z, hσ, hh, h2⟩
      | .remove k, none, hst, hpc, hnext =>
          obtain ⟨rfl, rfl⟩ := Prod.mk.inj hnext
          obtain ⟨Z, hσ, hh, -⟩ := hst
          obtain ⟨h1, h2⟩ := startFind_ok (t := t) (u := .remove k) hi.shape hh.now
          exact .of_ties hpc (.refl t s.mem) h1 rfl rfl ⟨Z, hσ, hh, h2⟩

/-- The update of an existing node, except for its store. -/
theorem update_quiet (hi : Inv h s σ) {k : K} {v : V} {n : Addr} {p : UpdatePc}
    (hpc : s.pc t = .update k v n p) (hne : p ≠ .store)
    (hnext : updateStep t s.mem k v n p = some (m', p')) : Quiet h s σ t m' p' := by
  have hl : updateOk s.mem h t k n p := by
    have := hi.locals t
    rwa [hpc] at this
  obtain ⟨⟨hr, hw⟩, hl⟩ := hl
  have hst := hpc ▸ hi.status t
  cases p with
  | store => exact absurd rfl hne
  | lock =>
      obtain ⟨m', hlock, heq⟩ := Option.map_eq_some_iff.mp hnext
      obtain ⟨rfl, rfl⟩ := Prod.mk.inj heq
      have hlo := LockOnly.lock hlock (hi.shape.lt_fresh hw)
      exact .of_ties hpc hlo ⟨⟨by rw [hlo.rank]; exact hr, hlo.was_iff.mpr hw⟩,
        (Mem.lock_cases hlock).2.1⟩ rfl rfl hst
  | marked =>
      obtain ⟨rfl, rfl⟩ := Prod.mk.inj (Option.some.inj hnext)
      split
      · exact .of_ties hpc (.refl t _) ⟨⟨hr, hw⟩, hl⟩ rfl rfl hst
      · rename_i hm
        exact .of_ties hpc (.refl t _) ⟨⟨hr, hw⟩, hl, by simpa using hm⟩ rfl rfl hst
  | unlockRetry =>
      obtain ⟨rfl, rfl⟩ := Prod.mk.inj (Option.some.inj hnext)
      obtain ⟨Z, hσ, hh, -⟩ := hst
      obtain ⟨h1, h2⟩ := startFind_ok (t := t) (u := .put k v) hi.shape hh.now
      have hlo := hi.unlockOnly hl
      exact .of_ties hpc hlo ((hlo.frame hi.shape none).findOk hi.shape h1) rfl rfl ⟨Z, hσ, hh, h2⟩
  | wait =>
      obtain ⟨rfl, rfl⟩ := Prod.mk.inj (Option.some.inj hnext)
      split
      · rename_i hf
        exact .of_ties hpc (.refl t _) ⟨⟨hr, hw⟩, hl.1, hl.2, hf⟩ rfl rfl hst
      · exact .of_ties hpc (.refl t _) ⟨⟨hr, hw⟩, hl⟩ rfl rfl hst
  | unlock =>
      obtain ⟨rfl, rfl⟩ := Prod.mk.inj (Option.some.inj hnext)
      exact .of_ties hpc (hi.unlockOnly hl) trivial rfl rfl ⟨_, .inl hst⟩

variable {c : PutCtx K V} {q : PutPc}

omit [DecidableEq T] in
/-- An insertion gives up its locks. -/
theorem put_retry (hpc : s.pc t = .put c q) (hq : (Pc.put c q).ties = (none, none, none))
    (hl : LockedOk s.mem h t c.key c.locked) (hst : statusOk s h (.put c q) (σ t)) :
    Quiet h s σ t s.mem c.retry :=
  .of_ties hpc (.refl t _) ⟨hl.nodup, hl.owner⟩ hq.symm rfl hst

/-- Locking and validating the predecessors of an insertion. -/
theorem put_quiet (hi : Inv h s σ) (hpc : s.pc t = .put c q) {choice : Choice K V}
    (hties : (Pc.put c q).newNode = none) (hnew : q ≠ .new)
    (hnext : putStep t s.mem c choice q = some (m', p')) : Quiet h s σ t m' p' := by
  have hl : putOk s.mem h t c q := by
    have := hi.locals t
    rwa [hpc] at this
  obtain ⟨hb, hl⟩ := hl
  have hst := hpc ▸ hi.status t
  cases q with
  | level =>
      simp only [putStep] at hnext
      split at hnext
      · split at hnext
        · rename_i height hlevel
          obtain ⟨rfl, rfl⟩ := Prod.mk.inj (Option.some.inj hnext)
          refine .of_ties hpc (.refl t _) ⟨hb, ⟨?_, hlevel.2, ⟨List.nodup_nil, by simp, by simp,
            by simp⟩⟩, fun j hj hj' => ?_⟩ rfl rfl hst
          · have := hlevel.1
            simp only
            omega
          · simp only at hj'
            omega
        · cases hnext
      · cases hnext
  | lock lvl =>
      obtain ⟨⟨h1, h2, h3⟩, h4⟩ := hl
      have hpred := hb lvl (by omega)
      simp only [putStep] at hnext
      split at hnext
      · rename_i hmem
        obtain ⟨rfl, rfl⟩ := Prod.mk.inj (Option.some.inj hnext)
        exact .of_ties hpc (.refl t _) ⟨hb, ⟨h1, h2, h3⟩, h4, hmem⟩ rfl rfl hst
      · rename_i hmem
        obtain ⟨m', hlock, heq⟩ := Option.map_eq_some_iff.mp hnext
        obtain ⟨rfl, rfl⟩ := Prod.mk.inj heq
        have hlo := LockOnly.lock hlock (hi.shape.lt_fresh hpred.pred)
        refine .of_ties hpc hlo ⟨fun j hj => hlo.between (hb j hj), ⟨h1, h2, ?_⟩,
          fun j hj hj' => hlo.valid (fun a ha => List.mem_append_left _ ha) (h4 j hj hj'),
          List.mem_append_right _ List.mem_cons_self⟩ rfl rfl hst
        exact h3.snoc hlo hlock hmem (Shape.was_mono hpred.pred (Nat.zero_le lvl)) hpred.left
  | predMarked lvl =>
      obtain ⟨⟨h1, h2, h3⟩, h4, h5⟩ := hl
      obtain ⟨rfl, rfl⟩ := Prod.mk.inj (Option.some.inj hnext)
      split
      · exact put_retry hpc rfl h3 hst
      · rename_i hm
        exact .of_ties hpc (.refl t _) ⟨hb, ⟨h1, h2, h3⟩, h4, h5, by simpa using hm⟩ rfl rfl hst
  | succMarked lvl =>
      obtain ⟨⟨h1, h2, h3⟩, h4⟩ := hl
      obtain ⟨rfl, rfl⟩ := Prod.mk.inj (Option.some.inj hnext)
      split
      · exact put_retry hpc rfl h3 hst
      · exact .of_ties hpc (.refl t _) ⟨hb, ⟨h1, h2, h3⟩, h4⟩ rfl rfl hst
  | checkNext lvl =>
      obtain ⟨⟨h1, h2, h3⟩, h4, h5, h6⟩ := hl
      obtain ⟨rfl, rfl⟩ := Prod.mk.inj (Option.some.inj hnext)
      split
      · exact put_retry hpc rfl h3 hst
      · rename_i hn
        have hn : s.mem.next (c.preds lvl) lvl = c.succs lvl := by simpa using hn
        -- the level is validated
        have hall : ∀ j, lvl ≤ j → j < c.height →
            Valid s.mem c.locked (c.preds j) j (c.succs j) := by
          intro j hj hj'
          rcases Nat.eq_or_lt_of_le hj with rfl | hj
          · exact ⟨h5, h6, hn⟩
          · exact h4 j hj hj'
        cases lvl with
        | zero =>
            exact .of_ties hpc (.refl t _) ⟨hb, ⟨h1, h2, h3⟩, fun j hj => hall j (Nat.zero_le j) hj⟩
              rfl rfl hst
        | succ lvl =>
            exact .of_ties hpc (.refl t _) ⟨hb, ⟨by omega, h2, h3⟩, fun j hj hj' => hall j hj hj'⟩
              rfl rfl hst
  | new => exact absurd rfl hnew
  | fill n lvl | link n lvl | full n => cases hties

omit [DecidableEq T] in
/-- A removal gives up its locks. -/
theorem remove_retry {c : RemoveCtx K} {q : RemovePc} (hpc : s.pc t = .remove c q)
    (hq : (Pc.remove c q : Pc K V).ties = (none, none, none))
    (hl : LockedOk s.mem h t c.key c.locked) {Z : Set (State T K V)}
    (hσ : σ t = .pending (.remove c.key) Z) (hh : Hist s h c.key Z) :
    Quiet h s σ t s.mem c.retry :=
  .of_ties hpc (.refl t _) ⟨hl.nodup, hl.owner⟩ hq.symm rfl ⟨Z, hσ, hh, trivial⟩

/-- Locking and validating the predecessors and the victim of a removal. -/
theorem remove_quiet (hi : Inv h s σ) {c : RemoveCtx K} {q : RemovePc}
    (hpc : s.pc t = .remove c q) (hmark : q ≠ .mark) (hunlink : ∀ lvl succ, q ≠ .unlink lvl succ)
    (hnext : removeStep t s.mem c q = some (m', p')) : Quiet h s σ t m' p' := by
  have hl : removeOk s.mem h t c q := by
    have := hi.locals t
    rwa [hpc] at this
  obtain ⟨⟨⟨hr, hw⟩, hb⟩, hl⟩ := hl
  have hst := hpc ▸ hi.status t
  have htop := hi.shape.top c.victim
  cases q with
  | fullyLinked l =>
      obtain ⟨Z, hσ, hh, hlt, hseen, habove⟩ := hst
      have hseen0 := hh.seen_zero hlt hseen
      obtain ⟨rfl, rfl⟩ := Prod.mk.inj (Option.some.inj hnext)
      split
      · -- the node was being linked
        rename_i hf
        exact .of_ties hpc (.refl t _) trivial rfl rfl (statusOk_returned hσ
          (hh.obs_of_notFull hi.shape hseen0 hr (by simpa using hf)).remove)
      · rename_i hf
        have hf : s.mem.fullyLinked c.victim = true := by simpa using hf
        split
        · -- the node was found below its top level
          rename_i hne
          have hle : l ≤ s.mem.top c.victim := by
            have hheight := hi.shape.height c.victim
            rcases hh.was c.victim l hlt hseen with hw | hw
            · omega
            · exact hw.2
          refine .of_ties hpc (.refl t _) trivial rfl rfl (statusOk_returned hσ (ObsIn.remove ?_))
          exact hh.full c.victim (l + 1) (by omega) (habove (l + 1) (by omega) (by omega)) hseen0 hr
            (by omega) hf
        · exact .of_ties hpc (.refl t _) ⟨⟨⟨hr, hw⟩, hb⟩, hf, hl⟩ rfl rfl ⟨Z, hσ, hh, hseen0⟩
  | marked =>
      obtain ⟨Z, hσ, hh, hseen⟩ := hst
      obtain ⟨rfl, rfl⟩ := Prod.mk.inj (Option.some.inj hnext)
      split
      · rename_i hm
        exact .of_ties hpc (.refl t _) trivial rfl rfl (statusOk_returned hσ
          (ObsIn.remove (hh.marked c.victim hseen hr hm)))
      · refine .of_ties hpc (.refl t _) ⟨⟨⟨hr, hw⟩, hb⟩, ⟨hl.1, le_refl _, ?_⟩, fun j hj hj' => ?_⟩
          rfl rfl ⟨Z, hσ, hh, hseen⟩
        · rw [hl.2]
          exact ⟨List.nodup_nil, by simp, by simp, by simp⟩
        · omega
  | lock lvl =>
      obtain ⟨⟨h1, h2, h3⟩, h4⟩ := hl
      have hpred := hb lvl (by omega)
      simp only [removeStep] at hnext
      split at hnext
      · rename_i hmem
        obtain ⟨rfl, rfl⟩ := Prod.mk.inj (Option.some.inj hnext)
        exact .of_ties hpc (.refl t _) ⟨⟨⟨hr, hw⟩, hb⟩, ⟨h1, h2, h3⟩, h4, hmem⟩ rfl rfl hst
      · rename_i hmem
        obtain ⟨m', hlock, heq⟩ := Option.map_eq_some_iff.mp hnext
        obtain ⟨rfl, rfl⟩ := Prod.mk.inj heq
        have hlo := LockOnly.lock hlock (hi.shape.lt_fresh hpred.1)
        have hb' := fun j hj => (⟨hlo.was_iff.mpr (hb j hj).1, by rw [hlo.rank]; exact (hb j hj).2⟩ :
          Was m' h (c.preds j) j ∧ m'.rank (c.preds j) < rankOf c.key)
        refine .of_ties hpc hlo ⟨⟨⟨by rw [hlo.rank]; exact hr, hlo.was_iff.mpr hw⟩, hb'⟩,
          ⟨by rw [hlo.fullyLinked]; exact h1, by rw [hlo.top]; exact h2, ?_⟩, fun j hj hj' => ?_,
          List.mem_append_right _ List.mem_cons_self⟩ rfl rfl hst
        · exact h3.snoc hlo hlock hmem (Shape.was_mono hpred.1 (Nat.zero_le lvl)) hpred.2
        · rw [hlo.top] at hj'
          exact hlo.valid (fun a ha => List.mem_append_left _ ha) (h4 j hj hj')
  | predMarked lvl =>
      obtain ⟨⟨h1, h2, h3⟩, h4, h5⟩ := hl
      obtain ⟨rfl, rfl⟩ := Prod.mk.inj (Option.some.inj hnext)
      split
      · obtain ⟨Z, hσ, hh, -⟩ := hst
        exact remove_retry hpc rfl h3 hσ hh
      · rename_i hm
        exact .of_ties hpc (.refl t _) ⟨⟨⟨hr, hw⟩, hb⟩, ⟨h1, h2, h3⟩, h4, h5, by simpa using hm⟩
          rfl rfl hst
  | checkNext lvl =>
      obtain ⟨⟨h1, h2, h3⟩, h4, h5, h6⟩ := hl
      obtain ⟨rfl, rfl⟩ := Prod.mk.inj (Option.some.inj hnext)
      split
      · obtain ⟨Z, hσ, hh, -⟩ := hst
        exact remove_retry hpc rfl h3 hσ hh
      · rename_i hn
        have hn : s.mem.next (c.preds lvl) lvl = c.victim := by simpa using hn
        -- the level is validated
        have hall : ∀ j, lvl ≤ j → j ≤ s.mem.top c.victim →
            Valid s.mem c.locked (c.preds j) j c.victim := by
          intro j hj hj'
          rcases Nat.eq_or_lt_of_le hj with rfl | hj
          · exact ⟨h5, h6, hn⟩
          · exact h4 j hj hj'
        cases lvl with
        | zero =>
            exact .of_ties hpc (.refl t _) ⟨⟨⟨hr, hw⟩, hb⟩, ⟨h1, h3⟩,
              fun j hj => hall j (Nat.zero_le j) hj⟩ rfl rfl hst
        | succ lvl =>
            exact .of_ties hpc (.refl t _) ⟨⟨⟨hr, hw⟩, hb⟩, ⟨h1, by omega, h3⟩,
              fun j hj hj' => hall j hj hj'⟩ rfl rfl hst
  | lockVictim =>
      obtain ⟨⟨h1, h3⟩, h4⟩ := hl
      obtain ⟨m', hlock, heq⟩ := Option.map_eq_some_iff.mp hnext
      obtain ⟨rfl, rfl⟩ := Prod.mk.inj heq
      have hlo := LockOnly.lock hlock (hi.shape.lt_fresh hw)
      have hb' := fun j hj => (⟨hlo.was_iff.mpr (hb j hj).1, by rw [hlo.rank]; exact (hb j hj).2⟩ :
        Was m' h (c.preds j) j ∧ m'.rank (c.preds j) < rankOf c.key)
      refine .of_ties hpc hlo ⟨⟨⟨by rw [hlo.rank]; exact hr, hlo.was_iff.mpr hw⟩, hb'⟩,
        ⟨by rw [hlo.fullyLinked]; exact h1, hlo.lockedOk h3 fun a ha => ?_⟩, fun j hj => ?_,
        (Mem.lock_cases hlock).2.1⟩ rfl rfl hst
      · exact Mem.lock_owner hlock (h3.owner a ha)
      · rw [hlo.top] at hj
        exact hlo.valid (fun a ha => ha) (h4 j hj)
  | victimMarked =>
      obtain ⟨⟨h1, h3⟩, h4, h5⟩ := hl
      obtain ⟨rfl, rfl⟩ := Prod.mk.inj (Option.some.inj hnext)
      split
      · rename_i hm
        obtain ⟨Z, hσ, hh, hseen⟩ := hst
        exact .of_ties hpc (.refl t _) ⟨⟨⟨hr, hw⟩, hb⟩, h3, h5⟩ rfl rfl
          ⟨Z, hσ, hh, hh.marked c.victim hseen hr hm⟩
      · rename_i hm
        exact .of_ties hpc (.refl t _) ⟨⟨⟨hr, hw⟩, hb⟩, ⟨h1, h3⟩, h4, h5, by simpa using hm⟩
          rfl rfl hst
  | mark => exact absurd rfl hmark
  | loadNext lvl =>
      obtain ⟨h1, h4, h5, h6, h7⟩ := hl
      obtain ⟨rfl, rfl⟩ := Prod.mk.inj (Option.some.inj hnext)
      exact .of_ties hpc (.refl t _) ⟨⟨⟨hr, hw⟩, hb⟩, h1, h4, h5, h6, h7, rfl⟩ rfl rfl hst
  | unlink lvl succ => exact absurd rfl (hunlink lvl succ)
  | unlockVictim r =>
      obtain ⟨rfl, rfl⟩ := Prod.mk.inj (Option.some.inj hnext)
      refine .of_ties hpc (hi.unlockOnly hl.2) ⟨hl.1.nodup, fun a ha => ?_⟩ rfl rfl ?_
      · refine Mem.unlock_owner ?_ (hl.1.owner a ha)
        rintro rfl
        exact absurd (hl.1.left _ ha) (by rw [hr]; exact lt_irrefl _)
      · cases r with
        | true => exact hst
        | false => exact hst

/-! ## Lookups under locks -/

variable {mode : Mode} {k : K}

omit [LinearOrder K] in
/-- A lookup holds what it has acquired. -/
theorem Mem.acquire_held {m : Mem T K V} {a : Addr} (hl : m.acquire mode t a = some m') :
    HeldAs m' t a mode := by
  cases mode with
  | exclusive => exact (Mem.lock_cases hl).2.1
  | shared =>
      simp only [Mem.acquire, Mem.readLock] at hl
      split at hl
      · obtain rfl := Option.some.inj hl
        simp [HeldAs]
      · cases hl

omit [LinearOrder K] in
/-- It keeps its other locks meanwhile. -/
theorem Mem.acquire_keeps {m : Mem T K V} {a b : Addr} (hl : m.acquire mode t a = some m')
    (hb : HeldAs m t b mode) : HeldAs m' t b mode := by
  cases mode with
  | exclusive => exact Mem.lock_owner hl hb
  | shared =>
      have hb : t ∈ m.readers b := hb
      simp only [Mem.acquire, Mem.readLock] at hl
      split at hl
      · obtain rfl := Option.some.inj hl
        by_cases hba : b = a
        · subst hba
          simp [HeldAs]
        · simpa [HeldAs, hba] using hb
      · cases hl

omit [LinearOrder K] in
/-- It keeps its other locks when it gives one back. -/
theorem Mem.releaseAs_keeps {m : Mem T K V} {a b : Addr} (hba : b ≠ a)
    (hb : HeldAs m t b mode) : HeldAs (m.releaseAs mode t a) t b mode := by
  cases mode with
  | exclusive => exact Mem.unlock_owner hba hb
  | shared =>
      have hb : t ∈ m.readers b := hb
      simpa [HeldAs, Mem.releaseAs, Mem.readUnlock, hba] using hb

omit [DecidableEq T] in
/-- A node held by a lookup is not the predecessor that a removal works on. -/
theorem Inv.next_unmarked (hi : Inv h s σ) {lvl : Nat} {pred : Addr}
    (hg : GetAt s.mem h t mode k lvl pred) (ht : (s.pc t).unlinking = none) :
    s.mem.marked (s.mem.next pred lvl) = false := by
  by_contra hm
  have hm : s.mem.marked (s.mem.next pred lvl) = true := by simpa using hm
  have hpt := hi.shape.ne_tail hg.left
  have hlink := (hi.shape.succ pred lvl hg.linked hpt).1
  obtain ⟨u, hu⟩ := hi.unlinking _ hm (by omega)
  have htu : t ≠ u := by
    rintro rfl
    simp [ht] at hu
  -- the removal holds the predecessor at every level that is still linked
  have hclash : ∀ (c : RemoveCtx K) l, s.mem.next pred lvl = c.victim → h c.victim = l + 1 →
      LockedOk s.mem h u c.key c.locked →
      (∀ j, j < maxLevel → Was s.mem h (c.preds j) j ∧ s.mem.rank (c.preds j) < rankOf c.key) →
      (∀ j, j ≤ l → Valid s.mem c.locked (c.preds j) j c.victim) → False := by
    intro c l hv hh hlocked hb hvalid
    have hle : lvl ≤ l := by
      rw [hv] at hlink
      omega
    have hmax : lvl < maxLevel := by
      have h1 := hi.shape.height pred
      have h2 := hi.shape.top pred
      have h3 := hg.linked
      omega
    have hval := hvalid lvl hle
    have hbl := hb lvl hmax
    have hlinked := Shape.linked_of_unmarked hbl.1 hval.unmarked
    have heq := hi.shape.pred_unique hg.linked hlinked hpt (hi.shape.ne_tail hbl.2)
      (hv.trans hval.next.symm)
    have howner := hlocked.owner _ hval.mem
    rw [← heq] at howner
    exact hg.held.owner_ne htu hi.locks.excl howner
  have hloc := hi.locals u
  cases hpc : s.pc u with
  | remove c q =>
      rw [hpc] at hu hloc
      cases q with
      | loadNext l =>
          obtain ⟨⟨-, hb⟩, ⟨-, h3⟩, h4, -, -, h7⟩ := hloc
          exact hclash c l (Option.some.inj hu).symm h7 h3 hb h4
      | unlink l succ =>
          obtain ⟨⟨-, hb⟩, ⟨-, h3⟩, h4, -, -, h7, -⟩ := hloc
          exact hclash c l (Option.some.inj hu).symm h7 h3 hb h4
      | _ => exact nomatch hu
  | _ => rw [hpc] at hu; exact nomatch hu

omit [DecidableEq T] in
/-- The thread that links a node holds its predecessor at level 0. -/
theorem Inv.linking_pred (hi : Inv h s σ) {u : T} {n p : Addr}
    (hu : (s.pc u).linking = some (n, p)) (h0 : 0 < h n) :
    s.mem.owner p = some u ∧ 0 < h p ∧ s.mem.next p 0 = n ∧ p ≠ tail := by
  have hloc := hi.locals u
  cases hpc : s.pc u with
  | put c q =>
      rw [hpc] at hu hloc
      have hclash : 0 < maxLevel → (∀ j, j < maxLevel → Between s.mem h c.key c.preds c.succs j) →
          LockedOk s.mem h u c.key c.locked → Valid s.mem c.locked (c.preds 0) 0 n →
          p = c.preds 0 → s.mem.owner p = some u ∧ 0 < h p ∧ s.mem.next p 0 = n ∧ p ≠ tail := by
        rintro hmax hb hlocked hval rfl
        exact ⟨hlocked.owner _ hval.mem,
          Shape.linked_of_unmarked (hb 0 hmax).pred hval.unmarked, hval.next,
          hi.shape.ne_tail (hb 0 hmax).left⟩
      cases q with
      | link n' lvl =>
          obtain ⟨rfl, rfl⟩ := Prod.mk.inj (Option.some.inj hu)
          obtain ⟨hb, ⟨-, -, h3⟩, -, h5, h6, -⟩ := hloc
          exact hclash (by decide) hb h3 (h5 0 (by rw [← h6.height]; exact h0)) rfl
      | full n' =>
          obtain ⟨rfl, rfl⟩ := Prod.mk.inj (Option.some.inj hu)
          obtain ⟨hb, ⟨h1, -, h3⟩, h5, -⟩ := hloc
          exact hclash (by decide) hb h3 (h5 0 h1) rfl
      | _ => exact nomatch hu
  | _ => rw [hpc] at hu; exact nomatch hu

omit [DecidableEq T] in
/-- A node held by a lookup is not the predecessor that an insertion works on. -/
theorem Inv.next_full (hi : Inv h s σ) {pred : Addr} (hg : GetAt s.mem h t mode k 0 pred)
    (ht : (s.pc t).linking = none) : s.mem.fullyLinked (s.mem.next pred 0) = true := by
  by_contra hf
  have hf : s.mem.fullyLinked (s.mem.next pred 0) = false := by simpa using hf
  have hpt := hi.shape.ne_tail hg.left
  have hlink := (hi.shape.succ pred 0 hg.linked hpt).1
  obtain ⟨u, p, hu⟩ := hi.linking _ hlink hf
  have htu : t ≠ u := by
    rintro rfl
    simp [ht] at hu
  obtain ⟨howner, hp, hnext, hpt'⟩ := hi.linking_pred hu hlink
  obtain rfl := hi.shape.pred_unique hg.linked hp hpt hpt' hnext.symm
  exact hg.held.owner_ne htu hi.locks.excl howner

omit [DecidableEq T] in
/-- A lookup stands on the node it has locked. -/
theorem LockOnly.getAt {m : Mem T K V} (hlo : LockOnly t m m') {lvl : Nat} {a : Addr}
    (hheld : HeldAs m' t a mode) (hm : m.marked a = false) (hl : lvl < h a)
    (hleft : m.rank a < rankOf k) : GetAt m' h t mode k lvl a :=
  ⟨hheld, by rw [hlo.marked]; exact hm, hl, by rw [hlo.rank]; exact hleft⟩

/-- One access of `get` or `get_shared`. -/
theorem get_quiet (hi : Inv h s σ) {q : GetPc V} (hpc : s.pc t = .get mode k q)
    (hnext : getStep t s.mem mode k q = some (m', p')) : Quiet h s σ t m' p' := by
  have hl : getOk s.mem h t mode k q := by
    have := hi.locals t
    rwa [hpc] at this
  have hst := hpc ▸ hi.status t
  have hnolink : (s.pc t).linking = none := by rw [hpc]; rfl
  have hnounlink : (s.pc t).unlinking = none := by rw [hpc]; rfl
  cases q with
  | lockHead =>
      obtain ⟨m', hlock, heq⟩ := Option.map_eq_some_iff.mp hnext
      obtain ⟨rfl, rfl⟩ := Prod.mk.inj heq
      have hlo := LockOnly.acquire hlock (lt_of_lt_of_le (by decide) hi.shape.fresh)
      refine .of_ties hpc hlo ⟨by decide, hlo.getAt (Mem.acquire_held hlock)
        hi.shape.headUnmarked ?_ ?_⟩ rfl rfl hst
      · rw [hi.shape.headHeight]
        decide
      · rw [hi.shape.headRank]
        exact WithBot.bot_lt_coe _
  | test lvl pred =>
      obtain ⟨rfl, rfl⟩ := Prod.mk.inj (Option.some.inj hnext)
      obtain ⟨h1, h2⟩ := hl
      split
      · rename_i hlt
        exact .of_ties hpc (.refl t _) ⟨h1, h2, by simpa [nodeLt] using hlt⟩ rfl rfl hst
      · rename_i hge
        have hge : rankOf k ≤ s.mem.rank (s.mem.next pred lvl) := by simpa [nodeLt] using hge
        cases lvl with
        | zero => exact .of_ties hpc (.refl t _) ⟨h2, hge⟩ rfl rfl hst
        | succ lvl =>
            exact .of_ties hpc (.refl t _) ⟨by omega, h2.held, h2.unmarked,
              Nat.lt_of_succ_lt h2.linked, h2.left⟩ rfl rfl hst
  | step lvl pred =>
      obtain ⟨rfl, rfl⟩ := Prod.mk.inj (Option.some.inj hnext)
      exact .of_ties hpc (.refl t _) ⟨hl.1, hl.2.1, rfl, hl.2.2⟩ rfl rfl hst
  | lockNext lvl pred x =>
      obtain ⟨m', hlock, heq⟩ := Option.map_eq_some_iff.mp hnext
      obtain ⟨rfl, rfl⟩ := Prod.mk.inj heq
      obtain ⟨h1, h2, rfl, h3⟩ := hl
      obtain ⟨hlink, hrank, -⟩ := hi.shape.succ pred lvl h2.linked (hi.shape.ne_tail h2.left)
      have hlo := LockOnly.acquire hlock (hi.shape.lt_fresh (.inl hlink))
      refine .of_ties hpc hlo ⟨h1, Mem.acquire_keeps hlock h2.held, fun he => ?_,
        hlo.getAt (Mem.acquire_held hlock) (hi.next_unmarked h2 hnounlink) hlink h3⟩ rfl rfl hst
      rw [← he] at hrank
      exact lt_irrefl _ hrank
  | unlockPred lvl pred x =>
      obtain ⟨rfl, rfl⟩ := Prod.mk.inj (Option.some.inj hnext)
      obtain ⟨h1, h2, h3, h4⟩ := hl
      have hlo := LockOnly.releaseAs h2 hi.locks
      exact .of_ties hpc hlo ⟨h1, hlo.getAt (Mem.releaseAs_keeps (Ne.symm h3) h4.held) h4.unmarked
        h4.linked h4.left⟩ rfl rfl hst
  | curr pred =>
      obtain ⟨rfl, rfl⟩ := Prod.mk.inj (Option.some.inj hnext)
      exact .of_ties hpc (.refl t _) ⟨hl.1, rfl, hl.2⟩ rfl rfl hst
  | lockCurr pred c =>
      obtain ⟨m', hlock, heq⟩ := Option.map_eq_some_iff.mp hnext
      obtain ⟨rfl, rfl⟩ := Prod.mk.inj heq
      obtain ⟨h2, rfl, h3⟩ := hl
      obtain ⟨hlink, hrank, -⟩ := hi.shape.succ pred 0 h2.linked (hi.shape.ne_tail h2.left)
      have hlo := LockOnly.acquire hlock (hi.shape.lt_fresh (.inl hlink))
      have hne : pred ≠ s.mem.next pred 0 := by
        intro he
        rw [← he] at hrank
        exact lt_irrefl _ hrank
      split
      · rename_i hr
        exact .of_ties hpc hlo ⟨Mem.acquire_keeps hlock h2.held, hne, Mem.acquire_held hlock,
          by rw [hlo.marked]; exact hi.next_unmarked h2 hnounlink, hlink,
          by rw [hlo.fullyLinked]; exact hi.next_full h2 hnolink, by rw [hlo.rank]; exact hr⟩
          rfl rfl hst
      · rename_i hr
        obtain ⟨Z, hσ, hh, -⟩ := hst
        refine .of_ties hpc hlo ⟨Mem.acquire_keeps hlock h2.held, hne, Mem.acquire_held hlock⟩ rfl rfl
          ⟨Z, hσ, hh, NoKeyIn.obs ?_⟩
        exact Hist.noKey_now hi.shape hh.now (by decide) h2.linked h2.left
          (lt_of_le_of_ne h3 fun he => hr he.symm)
  | marked pred c =>
      obtain ⟨rfl, rfl⟩ := Prod.mk.inj (Option.some.inj hnext)
      rw [if_neg (by simp [hl.2.2.2.1])]
      exact .of_ties hpc (.refl t _) hl rfl rfl hst
  | val pred c =>
      obtain ⟨rfl, rfl⟩ := Prod.mk.inj (Option.some.inj hnext)
      obtain ⟨h1, h2, h3, h4, h5, h6, h7⟩ := hl
      obtain ⟨Z, hσ, hh, -⟩ := hst
      exact .of_ties hpc (.refl t _) ⟨h1, h2, h3⟩ rfl rfl
        ⟨Z, hσ, hh, hh.obs_val hi.shape (.inl h5) h7 h6 h4⟩
  | unlockCurr pred c r =>
      obtain ⟨rfl, rfl⟩ := Prod.mk.inj (Option.some.inj hnext)
      obtain ⟨h1, h2, h3⟩ := hl
      exact .of_ties hpc (LockOnly.releaseAs h3 hi.locks) (Mem.releaseAs_keeps h2 h1) rfl rfl hst
  | unlockLast pred r =>
      obtain ⟨rfl, rfl⟩ := Prod.mk.inj (Option.some.inj hnext)
      obtain ⟨Z, hσ, hh, s₀, hs₀, hr⟩ := hst
      exact .of_ties hpc (LockOnly.releaseAs hl hi.locks) trivial rfl rfl
        (statusOk_returned hσ ⟨s₀, hs₀, MapOp.apply_get_eq hr⟩)

/-! ## Optimistic lookups -/

omit [DecidableEq T] in
/-- The successor that an optimistic lookup loads is fully linked, or its
predecessor is held by the thread that links it. -/
theorem Inv.next_candidate (hi : Inv h s σ) {pred : Addr} (hw : Was s.mem h pred 0)
    (hleft : s.mem.rank pred < rankOf k) :
    s.mem.fullyLinked (s.mem.next pred 0) = true ∨
      ∃ u, (s.pc u).linking = some (s.mem.next pred 0, pred) := by
  have hpt := hi.shape.ne_tail hleft
  by_cases hf : s.mem.fullyLinked (s.mem.next pred 0) = true
  · exact .inl hf
  by_cases h0 : 0 < h pred
  · have hlink := (hi.shape.succ pred 0 h0 hpt).1
    obtain ⟨u, p, hu⟩ := hi.linking _ hlink (by simpa using hf)
    obtain ⟨-, hp, hnext, hpt'⟩ := hi.linking_pred hu hlink
    obtain rfl := hi.shape.pred_unique h0 hp hpt hpt' hnext.symm
    exact .inr ⟨u, hu⟩
  · have hm : s.mem.marked pred = true := (hw.resolve_left h0).1
    exact .inl (hi.shape.frozenFull pred hm h0)

omit [DecidableEq T] in
/-- A candidate whose predecessor is not being written to is fully linked. -/
theorem Inv.candidate_full (hi : Inv h s σ) {c pred : Addr}
    (hc : (s.pc t).candidate = some (c, pred)) (heven : s.mem.version pred % 2 = 0) :
    s.mem.fullyLinked c = true := by
  by_contra hf
  have hm : s.mem.marked c = false := by
    by_contra hm
    exact hf (hi.shape.markedFull c (by simpa using hm))
  obtain ⟨u, hu⟩ := (hi.candidate t c pred hc).resolve_left hf
  have h0 := Shape.linked_of_unmarked (hi.candidate_was hc) hm
  have hodd := (hi.locks.parity pred).mpr (by simp [(hi.linking_pred hu h0).1])
  omega

omit [DecidableEq T] in
/-- An optimistic lookup starts over. -/
theorem optimistic_restart (hi : Inv h s σ) {q : OptPc V} (hpc : s.pc t = .optimistic k q) :
    Quiet h s σ t s.mem (.optimistic k .beginHead) := by
  obtain ⟨Z, hσ, hh, -⟩ := (statusOk_running rfl).mp (hpc ▸ hi.status t)
  exact .of_ties hpc (.refl t _) trivial rfl rfl ⟨Z, hσ, hh, trivial⟩

omit [DecidableEq T] in
/-- One access of `get_optimistic`; the version of the predecessor must not have
wrapped around when it is validated. -/
theorem optimistic_quiet (hi : Inv h s σ) {q : OptPc V} (hpc : s.pc t = .optimistic k q)
    (hwrap : ∀ pred v c vc, q = .checkPred pred v c vc → s.mem.version pred < v + 2 ^ 64) :
    Quiet h s σ t s.mem (optimisticStep s.mem k q) := by
  have hl : optimisticOk s.mem h k q := by
    have := hi.locals t
    rwa [hpc] at this
  obtain ⟨Z, hσ, hh, hseen⟩ := (statusOk_running rfl).mp (hpc ▸ hi.status t)
  have hs := hi.shape
  cases q with
  | beginHead =>
      simp only [optimisticStep]
      split
      · exact optimistic_restart hi hpc
      · rename_i hodd
        refine .of_ties hpc (.refl t _) ⟨by decide, ⟨.inl ?_, ?_⟩, ?_, le_refl _, fun _ => trivial⟩
          rfl rfl ⟨Z, hσ, hh, Hist.seen_now hs hh.now (by decide) ?_⟩
        · rw [hs.headHeight]
          decide
        · rw [hs.headRank]
          exact WithBot.bot_lt_coe _
        · exact (OccLock.odd_eq_false_iff _).mp (by simpa using hodd)
        · rw [hs.headHeight]
          decide
  | next lvl pred v =>
      obtain ⟨h1, ⟨h2, h3⟩, h4⟩ := hl
      have hnt := hs.ne_tail h3
      exact .of_ties hpc (.refl t _) ⟨h1, ⟨h2, h3⟩, (hs.next_was h2 hnt).1, h4.even, h4.le,
        fun _ => rfl⟩ rfl rfl ⟨Z, hσ, hh, hseen, hh.next pred lvl h1 hseen hnt⟩
  | check lvl pred v nx =>
      obtain ⟨h1, ⟨h2, h3⟩, h4, h5⟩ := hl
      simp only [optimisticStep]
      split
      · exact optimistic_restart hi hpc
      · split
        · rename_i hlt
          exact .of_ties hpc (.refl t _) ⟨h1, h4, by simpa [nodeLt] using hlt⟩ rfl rfl
            ⟨Z, hσ, hh, hseen.2⟩
        · rename_i hge
          have hge : rankOf k ≤ s.mem.rank nx := by simpa [nodeLt] using hge
          cases lvl with
          | zero =>
              refine .of_ties hpc (.refl t _) ⟨⟨h2, h3⟩, h5.even, h5.le, fun heq => ?_⟩ rfl rfl
                ⟨Z, hσ, hh, hseen.1⟩
              rw [h5.current heq]
              exact hge
          | succ lvl =>
              exact .of_ties hpc (.refl t _) ⟨by omega, ⟨Shape.was_mono h2 (by omega), h3⟩, h5.even,
                h5.le, fun _ => trivial⟩ rfl rfl ⟨Z, hσ, hh, hh.below pred lvl h1 hseen.1⟩
  | begin lvl nx =>
      simp only [optimisticStep]
      split
      · exact .of_ties hpc (.refl t _) hl rfl rfl ⟨Z, hσ, hh, hseen⟩
      · rename_i hodd
        exact .of_ties hpc (.refl t _) ⟨hl.1, hl.2,
          (OccLock.odd_eq_false_iff _).mp (by simpa using hodd), le_refl _, fun _ => trivial⟩
          rfl rfl ⟨Z, hσ, hh, hseen⟩
  | curr pred v =>
      obtain ⟨⟨h2, h3⟩, h4⟩ := hl
      have hnt := hs.ne_tail h3
      have hwas := (hs.next_was h2 hnt).1
      refine ⟨.refl t _, ⟨⟨h2, h3⟩, hwas, h4⟩, by rw [hpc]; rfl, by rw [hpc]; rfl,
        by rw [hpc]; rfl, fun c p hc => ?_, ⟨Z, hσ, hh, hh.next pred 0 (by decide) hseen hnt,
          fun hgt => (hh.gap pred 0 (by decide) hseen h3 hgt).obs⟩⟩
      obtain ⟨rfl, rfl⟩ := Prod.mk.inj (Option.some.inj hc)
      exact ⟨hs.lt_fresh hwas, hi.next_candidate h2 h3⟩
  | beginCurr pred v c =>
      have hcand : ∀ c' p', some (c, pred) = some (c', p') → c' < s.mem.fresh ∧
          (s.mem.fullyLinked c' = true ∨ ∃ u, (s.pc u).linking = some (c', p')) := by
        intro c' p' hc
        obtain ⟨rfl, rfl⟩ := Prod.mk.inj (Option.some.inj hc)
        exact ⟨hs.lt_fresh hl.2.1, hi.candidate t c pred (by rw [hpc]; rfl)⟩
      simp only [optimisticStep]
      split
      · exact ⟨.refl t _, hl, by rw [hpc], by rw [hpc], by rw [hpc], hcand, ⟨Z, hσ, hh, hseen⟩⟩
      · exact ⟨.refl t _, hl, by rw [hpc]; rfl, by rw [hpc]; rfl, by rw [hpc]; rfl, hcand,
          ⟨Z, hσ, hh, hseen⟩⟩
  | checkPred pred v c vc =>
      obtain ⟨⟨h2, h3⟩, h4, h5⟩ := hl
      simp only [optimisticStep]
      split
      · exact optimistic_restart hi hpc
      · rename_i hword
        have heq : s.mem.version pred = v :=
          OccLock.bumps_eq_of_word h5.le (hwrap pred v c vc rfl) (by simpa using hword)
        split
        · rename_i hr
          refine .of_ties hpc (.refl t _) ⟨h4, ?_, hr⟩ rfl rfl ⟨Z, hσ, hh, hseen.1⟩
          refine hi.candidate_full (t := t) (by rw [hpc]; rfl) ?_
          rw [heq]
          exact h5.even
        · rename_i hr
          exact .of_ties hpc (.refl t _) trivial rfl rfl ⟨Z, hσ, hh,
            hseen.2 (lt_of_le_of_ne (h5.current heq) fun he => hr he.symm)⟩
  | marked pred v c vc =>
      simp only [optimisticStep]
      split
      · rename_i hm
        exact .of_ties hpc (.refl t _) trivial rfl rfl
          ⟨Z, hσ, hh, hh.marked c hseen hl.2.2 hm⟩
      · rename_i hm
        exact .of_ties hpc (.refl t _) hl rfl rfl ⟨Z, hσ, hh, .inl (by simpa using hm)⟩
  | val pred v c vc =>
      obtain ⟨h1, h2, h3⟩ := hl
      refine .of_ties hpc (.refl t _) trivial rfl rfl ⟨Z, hσ, hh, ?_⟩
      rcases hseen with hm | hobs
      · exact hh.obs_val hs h1 h3 h2 hm
      · exact hobs
  | checkCurr pred v c vc r =>
      simp only [optimisticStep]
      split
      · exact optimistic_restart hi hpc
      · exact .of_ties hpc (.refl t _) trivial rfl rfl ⟨Z, hσ, hh, hseen⟩
  | recheck pred v r =>
      simp only [optimisticStep]
      split
      · exact optimistic_restart hi hpc
      · obtain ⟨s₀, hs₀, hr⟩ := hseen
        exact .of_ties hpc (.refl t _) trivial rfl rfl
          (statusOk_returned hσ ⟨s₀, hs₀, MapOp.apply_get_eq hr⟩)

end Quiet
end SkipList
