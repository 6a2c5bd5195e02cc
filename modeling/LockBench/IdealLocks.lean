import LockBench.WaitsFor

/-!
# Ideal locks and the locks a program point names

A family of locks with an exclusive and a shared mode.  What a thread holds can be read off its
program point when every step of a thread changes the two together: it takes one lock that it did
not hold, gives up one that it held, or leaves all as they are (`Move`).  Then the locks are held by
exactly those who name them (`Kept`), an unlock is only ever made by a holder, and nobody holds a
lock besides one who has it exclusively.

Where every thread asks for a lock below all those it holds, in some order of the locks, no threads
wait for one another in a circle.
-/

namespace IdealLocks

/-- How a lock is held. -/
inductive Mode
  | exclusive
  | shared
  deriving DecidableEq

/-- Who is inside each lock. -/
structure Locks (T L : Type) where
  owner : L → Option T
  readers : L → Finset T

variable {T L : Type} [DecidableEq T] [DecidableEq L]

namespace Locks

/-- All locks free. -/
def free : Locks T L where
  owner := fun _ => none
  readers := fun _ => ∅

/-- `lock` when the lock is free, and `read_lock` when no writer is inside. -/
def acquire (s : Locks T L) (mode : Mode) (t : T) (l : L) : Option (Locks T L) :=
  match mode with
  | .exclusive =>
      if s.owner l = none ∧ s.readers l = ∅ then
        some { s with owner := Function.update s.owner l (some t) }
      else none
  | .shared =>
      if s.owner l = none then
        some { s with readers := Function.update s.readers l (insert t (s.readers l)) }
      else none

/-- `unlock` and `read_unlock`. -/
def release (s : Locks T L) (mode : Mode) (t : T) (l : L) : Locks T L :=
  match mode with
  | .exclusive => { s with owner := Function.update s.owner l none }
  | .shared => { s with readers := Function.update s.readers l ((s.readers l).erase t) }

/-- The thread is inside the lock. -/
def Holds (s : Locks T L) (t : T) (l : L) : Mode → Prop
  | .exclusive => s.owner l = some t
  | .shared => t ∈ s.readers l

end Locks

/-- The locks are held as the threads name them, and an exclusive holder is alone. -/
structure Kept (s : Locks T L) (claims : T → List (L × Mode)) : Prop where
  nodup : ∀ t, ((claims t).map Prod.fst).Nodup
  holds : ∀ t l mode, s.Holds t l mode ↔ (l, mode) ∈ claims t
  alone : ∀ l, s.owner l ≠ none → s.readers l = ∅

/-- What one step of a thread does to the locks and to those it names. -/
inductive Move (t : T) (s : Locks T L) (held : List (L × Mode)) :
    Locks T L → List (L × Mode) → Prop
  | keep {held' : List (L × Mode)} (hheld : held'.Perm held) : Move t s held s held'
  | acquire {s' : Locks T L} {held' : List (L × Mode)} {l : L} {mode : Mode}
      (hnew : l ∉ held.map Prod.fst) (hfree : s.acquire mode t l = some s')
      (hheld : held'.Perm ((l, mode) :: held)) : Move t s held s' held'
  | release {held' : List (L × Mode)} {l : L} {mode : Mode}
      (hheld : held.Perm ((l, mode) :: held')) : Move t s held (s.release mode t l) held'

variable {s s' : Locks T L} {claims : T → List (L × Mode)} {t u : T} {l : L} {mode : Mode}

omit [DecidableEq T] [DecidableEq L] in
theorem kept_free : Kept (Locks.free : Locks T L) fun _ => [] where
  nodup _ := List.nodup_nil
  holds t l mode := by cases mode <;> simp [Locks.Holds, Locks.free]
  alone l h := absurd rfl h

namespace Kept

omit [DecidableEq T] [DecidableEq L] in
/-- **Exclusion.**  Who holds a lock exclusively is the only one inside. -/
theorem eq_of_exclusive (h : Kept s claims) (ht : (l, .exclusive) ∈ claims t)
    (hu : (l, mode) ∈ claims u) : u = t := by
  have howner : s.owner l = some t := (h.holds t l .exclusive).mpr ht
  cases mode with
  | exclusive =>
      have hother : s.owner l = some u := (h.holds u l .exclusive).mpr hu
      exact Option.some.inj (hother.symm.trans howner)
  | shared =>
      have hread : u ∈ s.readers l := (h.holds u l .shared).mpr hu
      rw [h.alone l (by rw [howner]; simp)] at hread
      simp at hread

omit [DecidableEq T] [DecidableEq L] in
/-- Nobody else owns a lock that a thread holds. -/
theorem owner_ne (h : Kept s claims) (hu : (l, mode) ∈ claims u) (hne : u ≠ t) :
    s.owner l ≠ some t := fun howner =>
  hne (h.eq_of_exclusive ((h.holds t l .exclusive).mp howner) hu)

/-- Taking a lock changes nothing else. -/
theorem acquire_holds (hfree : s.acquire mode t l = some s') (hnot : ∀ m, ¬s.Holds t l m) (u : T)
    (l' : L) (mode' : Mode) :
    s'.Holds u l' mode' ↔ (u = t ∧ l' = l ∧ mode' = mode) ∨ s.Holds u l' mode' := by
  cases mode with
  | exclusive =>
      simp only [Locks.acquire] at hfree
      split at hfree
      · rename_i hf
        obtain rfl := Option.some.inj hfree
        cases mode' with
        | exclusive =>
            by_cases hl : l' = l
            · subst hl
              simp [Locks.Holds, hf.1, eq_comm]
            · simp [Locks.Holds, hl]
        | shared => simp [Locks.Holds]
      · cases hfree
  | shared =>
      simp only [Locks.acquire] at hfree
      split at hfree
      · obtain rfl := Option.some.inj hfree
        cases mode' with
        | exclusive => simp [Locks.Holds]
        | shared =>
            by_cases hl : l' = l
            · subst hl
              simp [Locks.Holds]
            · simp [Locks.Holds, hl]
      · cases hfree

theorem acquire_alone (h : Kept s claims) (hfree : s.acquire mode t l = some s') (l' : L)
    (howner : s'.owner l' ≠ none) : s'.readers l' = ∅ := by
  cases mode with
  | exclusive =>
      simp only [Locks.acquire] at hfree
      split at hfree
      · rename_i hf
        obtain rfl := Option.some.inj hfree
        by_cases hl : l' = l
        · rw [hl]
          exact hf.2
        · exact h.alone l' (by simpa [hl] using howner)
      · cases hfree
  | shared =>
      simp only [Locks.acquire] at hfree
      split at hfree
      · rename_i hf
        obtain rfl := Option.some.inj hfree
        by_cases hl : l' = l
        · exact absurd (hl ▸ hf) howner
        · simpa [hl] using h.alone l' howner
      · cases hfree

/-- Giving up a lock that is held changes nothing else. -/
theorem release_holds (h : Kept s claims) (hmem : (l, mode) ∈ claims t) (u : T) (l' : L)
    (mode' : Mode) : (s.release mode t l).Holds u l' mode' ↔
      ¬(u = t ∧ l' = l ∧ mode' = mode) ∧ s.Holds u l' mode' := by
  cases mode with
  | exclusive =>
      have howner : s.owner l = some t := (h.holds t l .exclusive).mpr hmem
      cases mode' with
      | exclusive =>
          by_cases hl : l' = l
          · subst hl
            simp [Locks.Holds, Locks.release, howner, eq_comm]
          · simp [Locks.Holds, Locks.release, hl]
      | shared => simp [Locks.Holds, Locks.release]
  | shared =>
      cases mode' with
      | exclusive => simp [Locks.Holds, Locks.release]
      | shared =>
          by_cases hl : l' = l
          · subst hl
            simp [Locks.Holds, Locks.release]
          · simp [Locks.Holds, Locks.release, hl]

theorem release_alone (h : Kept s claims) (l' : L) (howner : (s.release mode t l).owner l' ≠ none) :
    (s.release mode t l).readers l' = ∅ := by
  cases mode with
  | exclusive =>
      by_cases hl : l' = l
      · subst hl
        simp [Locks.release] at howner
      · exact h.alone l' (by simpa [Locks.release, hl] using howner)
  | shared =>
      have hempty := h.alone l' howner
      by_cases hl : l' = l
      · subst hl
        simp [Locks.release, hempty]
      · simpa [Locks.release, hl] using hempty

/-- **Step rule.**  The locks stay held as they are named. -/
theorem move {held' : List (L × Mode)} (h : Kept s claims) (hmove : Move t s (claims t) s' held') :
    Kept s' (Function.update claims t held') := by
  have hother : ∀ {P : List (L × Mode) → Prop} {u}, P held' → (u ≠ t → P (claims u)) →
      P (Function.update claims t held' u) := by
    intro P u hself hne
    by_cases hu : u = t
    · subst hu
      simpa using hself
    · simpa [hu] using hne hu
  cases hmove with
  | keep hheld =>
      refine ⟨fun u => ?_, fun u l mode => ?_, h.alone⟩
      · exact hother (P := fun c => (c.map Prod.fst).Nodup)
          ((hheld.map Prod.fst).nodup_iff.mpr (h.nodup t)) fun _ => h.nodup u
      · rw [h.holds]
        by_cases hu : u = t
        · subst hu
          rw [Function.update_self, hheld.mem_iff]
        · rw [Function.update_of_ne hu]
  | @acquire _ _ l₀ mode₀ hnew hfree hheld =>
      have hnot : ∀ m, ¬s.Holds t l₀ m := fun m hm =>
        hnew (List.mem_map_of_mem (f := Prod.fst) ((h.holds t l₀ m).mp hm))
      refine ⟨fun u => ?_, fun u l mode => ?_, h.acquire_alone hfree⟩
      · refine hother (P := fun c => (c.map Prod.fst).Nodup) ?_ fun _ => h.nodup u
        rw [(hheld.map Prod.fst).nodup_iff]
        exact List.nodup_cons.mpr ⟨hnew, h.nodup t⟩
      · rw [acquire_holds hfree hnot, h.holds]
        by_cases hu : u = t
        · subst hu
          simp [hheld.mem_iff]
        · simp [hu]
  | @release _ l₀ mode₀ hheld =>
      have hmem : (l₀, mode₀) ∈ claims t := hheld.mem_iff.mpr (.head _)
      have hnodup := (hheld.map Prod.fst).nodup_iff.mp (h.nodup t)
      rw [List.map_cons, List.nodup_cons] at hnodup
      refine ⟨fun u => ?_, fun u l mode => ?_, h.release_alone⟩
      · exact hother (P := fun c => (c.map Prod.fst).Nodup) hnodup.2 fun _ => h.nodup u
      · rw [h.release_holds hmem, h.holds]
        by_cases hu : u = t
        · subst hu
          rw [Function.update_self, hheld.mem_iff, List.mem_cons, Prod.mk.injEq]
          constructor
          · rintro ⟨hne, heq | hin⟩
            · exact absurd ⟨rfl, heq⟩ hne
            · exact hin
          · refine fun hin => ⟨?_, .inr hin⟩
            rintro ⟨-, rfl, rfl⟩
            exact hnodup.1 (List.mem_map_of_mem (f := Prod.fst) hin)
        · simp [hu]

end Kept

/-! ## Waiting for locks -/

/-- One thread wants a lock that another one keeps it from. -/
def Waits (s : Locks T L) (wants : T → Option (L × Mode)) (t u : T) : Prop :=
  ∃ l mode, wants t = some (l, mode) ∧ (s.owner l = some u ∨ mode = .exclusive ∧ u ∈ s.readers l)

variable {wants : T → Option (L × Mode)}

omit [DecidableEq T] [DecidableEq L] in
/-- The one who is waited for holds the lock. -/
theorem Waits.claimed (h : Kept s claims) (hw : Waits s wants t u) :
    ∃ l mode mode', wants t = some (l, mode) ∧ (l, mode') ∈ claims u := by
  obtain ⟨l, mode, hwants, howner | ⟨-, hread⟩⟩ := hw
  · exact ⟨l, mode, .exclusive, hwants, (h.holds u l .exclusive).mp howner⟩
  · exact ⟨l, mode, .shared, hwants, (h.holds u l .shared).mp hread⟩

omit [DecidableEq T] [DecidableEq L] in
/-- **Lock order.**  Where every thread wants a lock below all those it holds, there is no
deadlock. -/
theorem not_deadlocked_of_rank (h : Kept s claims) (rank : L → Nat)
    (hrank : ∀ t l mode, wants t = some (l, mode) → ∀ e ∈ claims t, rank l < rank e.1) (S : Set T) :
    ¬Deadlocked (Waits s wants) S := by
  refine not_deadlocked (fun t => ((wants t).map fun e => rank e.1).getD 0) fun t u v htu huv => ?_
  obtain ⟨l, mode, mode', hl, hmem⟩ := htu.claimed h
  obtain ⟨l', m, -, hl', -⟩ := huv.claimed h
  simpa [hl, hl'] using hrank u l' m hl' _ hmem

omit [DecidableEq T] in
/-- Who waits for nobody gets the lock. -/
theorem exists_acquire (hfree : ∀ u, ¬Waits s wants t u) {l : L} {mode : Mode}
    (hwants : wants t = some (l, mode)) [DecidableEq T] : ∃ s', s.acquire mode t l = some s' := by
  have howner : s.owner l = none := Option.eq_none_iff_forall_ne_some.mpr fun u hu =>
    hfree u ⟨l, mode, hwants, .inl hu⟩
  cases mode with
  | exclusive =>
      have hread : s.readers l = ∅ := Finset.eq_empty_of_forall_notMem fun u hu =>
        hfree u ⟨l, .exclusive, hwants, .inr ⟨rfl, hu⟩⟩
      exact ⟨_, if_pos ⟨howner, hread⟩⟩
  | shared => exact ⟨_, if_pos howner⟩

end IdealLocks
