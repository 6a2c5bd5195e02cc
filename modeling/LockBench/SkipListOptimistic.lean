import LockBench.SkipListLinearizable

/-!
# Optimistic lookups of the skip list

`get_optimistic` takes no lock.  The invariant of the skip list keeps, for every open
operation, the states it has passed since its call; what is left to say is that a lookup stays
open until it returns, so that the instant its result belongs to lies within the call.

Versions are 64-bit words.  A lookup that sleeps while a lock is taken `2 ^ 63` times sees the
version it had seen before; the last part runs one into that.
-/

namespace SkipList

section Optimistic

variable {T K V : Type} [DecidableEq T] [LinearOrder K] [Inhabited V] {kind : LockKind}
  {s s' : State T K V} {t : T} {k : K}

/-- Thread `t` returns from its operation. -/
def Returns (t : T) (s : State T K V) (a : T × Choice K V) : Prop :=
  a.1 = t ∧ ∃ r, s.pc t = .returned r

/-- Steps while an operation of thread `t` is open. -/
def During (t : T) (s : State T K V) (a : T × Choice K V) : Prop :=
  NoWrap s a ∧ ¬Returns t s a

/-- A lookup of `k` by thread `t` is open, and has passed only states of `Z`. -/
structure LooksUp (t : T) (k : K) (Z : Set (State T K V)) (s : State T K V) (h : Addr → Nat)
    (σ : Statuses T K V) : Prop where
  inv : Inv h s σ
  pending : ∃ since ⊆ Z, σ t = .pending (.get k) since
  point : (∃ p, s.pc t = .optimistic k p) ∨ ∃ r, s.pc t = .returned r

/-- The invariant holds in every state reached without a wrap. -/
theorem inv_of_reachable (hreach : (machine T K V kind).ReachableUnder NoWrap s) :
    ∃ h σ, Inv h s σ := by
  refine hreach.invariant (I := fun s => ∃ h σ, Inv h s σ) ?_ fun s a s' hinv hwrap hstep => ?_
  · obtain ⟨h, hinv⟩ := (sound (T := T) (K := K) (V := V) kind).init
    exact ⟨h, _, hinv⟩
  · obtain ⟨h, σ, hinv⟩ := hinv
    obtain ⟨⟨h', hinv'⟩, -⟩ := (sound kind).step s σ a s' ⟨h, hinv⟩ hwrap hstep
    exact ⟨h', _, hinv'⟩

omit [DecidableEq T] [Inhabited V] in
/-- A lookup stays at its key until it returns. -/
theorem optimisticStep_cases (m : Mem T K V) (k : K) (p : OptPc V) :
    (∃ p', optimisticStep m k p = .optimistic k p') ∨ ∃ r, optimisticStep m k p = .returned r := by
  cases p with
  | recheck pred v r =>
      rw [optimisticStep]
      split
      · exact .inl ⟨_, rfl⟩
      · exact .inr ⟨_, rfl⟩
  | _ => exact .inl ⟨_, rfl⟩

/-- Calls and returns are of the thread that moves. -/
theorem event_thread {a : T × Choice K V} {e : Event T (MapOp K V) (MapRes V)}
    (he : (index T K V kind).event s a = some e) :
    (∃ op, e = .call a.1 op) ∨ ∃ r, e = .ret a.1 r := by
  simp only [index] at he
  split at he
  · exact .inl ⟨_, (Option.some.inj he).symm⟩
  · exact .inr ⟨_, (Option.some.inj he).symm⟩
  · cases he

/-- Commits are of the thread that moves. -/
theorem commit_thread {a : T × Choice K V} {u : T}
    (hc : (index T K V kind).commit s a = some u) : u = a.1 := by
  simp only [index] at hc
  split at hc
  · exact (Option.some.inj hc).symm
  · cases hc

/-- The operation of a thread that does not move only sees one more state. -/
theorem track_other {a : T × Choice K V} (hta : t ≠ a.1) (m : K → Option V)
    (σ : Statuses T K V) :
    (index T K V kind).track MapOp.apply m σ s a s' t = Observed.observe s' σ t := by
  have hsame : ∀ σ' : Statuses T K V, σ' t = σ t →
      Observed.observe s' σ' t = Observed.observe s' σ t := by
    intro σ' hσ'
    simp only [Observed.observe, hσ']
  refine hsame _ ?_
  have hne : ∀ x, Function.update σ a.1 x t = σ t := fun x => Function.update_of_ne hta ..
  cases hev : (index T K V kind).event s a with
  | some e =>
      obtain ⟨op, rfl⟩ | ⟨r, rfl⟩ := event_thread hev
      · exact hne _
      · exact hne _
  | none =>
      cases hcm : (index T K V kind).commit s a with
      | some u =>
          obtain rfl := commit_thread hcm
          exact hne _
      | none => rfl

/-- **A step during a lookup.** -/
theorem LooksUp.step {Z : Set (State T K V)} {h : Addr → Nat} {σ : Statuses T K V}
    {a : T × Choice K V} (hl : LooksUp t k Z s h σ) (hduring : During t s a)
    (hstep : (machine T K V kind).step s a = some s') :
    ∃ h' σ', LooksUp t k (insert s' Z) s' h' σ' := by
  obtain ⟨⟨h', hinv'⟩, -⟩ := (sound kind).step s σ a s' ⟨h, hl.inv⟩ hduring.1 hstep
  obtain ⟨since, hsub, hσ⟩ := hl.pending
  have hsub' : insert s' since ⊆ insert s' Z := Set.insert_subset_insert hsub
  by_cases hta : t = a.1
  · subst hta
    obtain ⟨p, hp⟩ := hl.point.resolve_right fun hr => hduring.2 ⟨rfl, hr⟩
    refine ⟨h', _, hinv', ⟨insert s' since, hsub', ?_⟩, ?_⟩
    · simp [Observed.track, index, hp, Pc.commits, Observed.observe, hσ]
    · obtain ⟨m', p', hnext, rfl⟩ := interleave_step_cases hstep
      rw [hp] at hnext
      obtain ⟨-, rfl⟩ := Prod.mk.inj (Option.some.inj hnext)
      simpa using optimisticStep_cases s.mem k p
  · refine ⟨h', _, hinv', ⟨insert s' since, hsub', ?_⟩, ?_⟩
    · rw [track_other hta]
      simp [Observed.observe, hσ]
    · obtain ⟨m', p', -, rfl⟩ := interleave_step_cases hstep
      simpa [hta] using hl.point

/-- **Every optimistic lookup returns what the map held at an instant of the call.**  The states
between its call and its return are those of a path on which the thread does not return; in one
of them the map has the result under the key. -/
theorem getOptimistic_returns_value {s₀ s₁ s₂ : State T K V} {r : MapRes V}
    {as : List (T × Choice K V)}
    (hreach : (machine T K V kind).ReachableUnder NoWrap s₀) (hidle : s₀.pc t = .idle)
    (hcall : (machine T K V kind).step s₀ (t, .call (.getOptimistic k)) = some s₁)
    (hpath : (machine T K V kind).Path (During t) s₁ as s₂) (hret : s₂.pc t = .returned r) :
    ∃ z ∈ (machine T K V kind).onPath (During t) s₁ as s₂, r = .value (mapOf z.mem k) := by
  have hwrap : NoWrap s₀ (t, .call (.getOptimistic k)) := by
    intro k' pred v c vc hpc
    rw [hidle] at hpc
    cases hpc
  obtain ⟨h, σ, hinv⟩ := inv_of_reachable hreach
  obtain ⟨⟨h₁, hinv₁⟩, -⟩ := (sound kind).step _ σ _ s₁ ⟨h, hinv⟩ hwrap hcall
  obtain ⟨m', p', hnext, rfl⟩ := interleave_step_cases hcall
  simp only [hidle, next] at hnext
  split at hnext
  · obtain ⟨rfl, rfl⟩ := Prod.mk.inj (Option.some.inj hnext)
    have hopen : ∃ h σ, LooksUp t k {after s₀ t s₀.mem (.optimistic k .beginHead)}
        (after s₀ t s₀.mem (.optimistic k .beginHead)) h σ := by
      refine ⟨h₁, _, hinv₁, ⟨_, subset_rfl, ?_⟩, .inl ⟨.beginHead, by simp [after]⟩⟩
      simp [Observed.track, index, hidle, Observed.observe, Call.op, Call.enter, after]
    -- the states seen grow along the path, and the lookup stays open among them
    have hgrow : ∀ (Z Z' : Set (State T K V)) s, Z ⊆ Z' → (∃ h σ, LooksUp t k Z s h σ) →
        ∃ h σ, LooksUp t k Z' s h σ := by
      rintro Z Z' s hZ ⟨h, σ, hl⟩
      obtain ⟨since, hsub, hσ⟩ := hl.pending
      exact ⟨h, σ, hl.inv, ⟨since, hsub.trans hZ, hσ⟩, hl.point⟩
    have hkeep : ∀ (Z : Set (State T K V)) s a s', (∃ h σ, LooksUp t k Z s h σ) → During t s a →
        (machine T K V kind).step s a = some s' → ∃ h σ, LooksUp t k (insert s' Z) s' h σ := by
      rintro Z s a s' ⟨h, σ, hl⟩ hduring hstep
      exact hl.step hduring hstep
    obtain ⟨h₂, σ₂, hend⟩ := hpath.window hgrow hkeep hopen
    have hst := hend.inv.status t
    rw [hret] at hst
    obtain ⟨since, hsub, hσ⟩ := hend.pending
    obtain ⟨op, hdone | ⟨since', hpend, z, hz, hr⟩⟩ := hst
    · rw [hσ] at hdone
      cases hdone
    · rw [hσ] at hpend
      cases hpend
      exact ⟨z, hsub hz, (Prod.mk.inj hr).2.symm⟩
  · cases hnext

/-- **Linearizability with optimistic lookups.**  Every history of the index over `occ_lock` in
which no version wraps around has a linearization that runs the map from the empty one to the one
the index holds. -/
theorem optimistic_linearizable {H : List (Event T (MapOp K V) (MapRes V))}
    (hrun : (index T K V kind).Run NoWrap s H) :
    Linearizable MapOp.apply (fun _ => none) H (mapOf s.mem) := by
  have hlin := (sound kind).linearizable hrun
  rwa [show (index T K V kind).machine.init.mem = initMem from rfl, mapOf_init] at hlin

/-- The steps of the sample run pass this test. -/
def duringTest (t : Fin 2) (s : State (Fin 2) Nat Nat) (a : Fin 2 × Choice Nat Nat) : Bool :=
  match s.pc a.1 with
  | .optimistic _ (.checkPred pred v _ _) => s.mem.version pred < v + 2 ^ 64
  | .returned _ => a.1 ≠ t
  | _ => true

theorem during_of_test {t : Fin 2} {s : State (Fin 2) Nat Nat} {a : Fin 2 × Choice Nat Nat}
    (h : duringTest t s a = true) : During t s a := by
  constructor
  · intro k pred v c vc hpc
    simpa [duringTest, hpc] using h
  · rintro ⟨rfl, r, hpc⟩
    simp [duringTest, hpc] at h

/-- An insertion by thread 1. -/
def insertRun : List (Fin 2 × Choice Nat Nat) :=
  (1, .call (.put 7 70)) :: List.replicate 16 (1, .go) ++ (1, .level 1) ::
    List.replicate 11 (1, .go)

/-- A lookup by thread 0 that has to start over, since thread 1 removes the key in between. -/
def lookupRun : List (Fin 2 × Choice Nat Nat) :=
  List.replicate 34 (0, .go) ++ (1, .call (.remove 7)) :: List.replicate 29 (1, .go) ++
    List.replicate 40 (0, .go)

/-- The result of a lookup between two points of a thread. -/
def lookupEnds (p q : Pc Nat Nat) : Option (MapRes Nat) :=
  match p, q with
  | .idle, .returned r => some r
  | _, _ => none

theorem lookupEnds_eq_some {p q : Pc Nat Nat} {r : MapRes Nat} (h : lookupEnds p q = some r) :
    p = .idle ∧ q = .returned r := by
  unfold lookupEnds at h
  split at h
  · obtain rfl := Option.some.inj h
    exact ⟨rfl, rfl⟩
  · cases h

/-- The lookup returns nothing, as at the instants after the removal. -/
theorem getOptimistic_returns_value_sample : ∃ s₁ s₂ : State (Fin 2) Nat Nat,
    s₂.pc 0 = .returned (.value none) ∧
      ∃ z ∈ (machine (Fin 2) Nat Nat ⟨false, true⟩).onPath (During 0) s₁ lookupRun s₂,
        MapRes.value none = .value (mapOf z.mem 7) := by
  let m := machine (Fin 2) Nat Nat ⟨false, true⟩
  have hrun : ((m.runChecked (duringTest 0) m.init insertRun).bind fun s₀ =>
      (m.step s₀ (0, .call (.getOptimistic 7))).bind fun s₁ =>
        (m.runChecked (duringTest 0) s₁ lookupRun).bind fun s₂ =>
          lookupEnds (s₀.pc 0) (s₂.pc 0)) = some (.value none) := by
    decide +kernel
  obtain ⟨s₀, h₀, hrun⟩ := Option.bind_eq_some_iff.mp hrun
  obtain ⟨s₁, hcall, hrun⟩ := Option.bind_eq_some_iff.mp hrun
  obtain ⟨s₂, h₂, hends⟩ := Option.bind_eq_some_iff.mp hrun
  have hpcs := lookupEnds_eq_some hends
  have hreach := Machine.reachableUnder_of_runChecked (fun _ _ h => (during_of_test h).1) h₀
  have hpath := Machine.path_of_runChecked (fun _ _ h => during_of_test h) h₂
  exact ⟨s₁, s₂, hpcs.2, getOptimistic_returns_value hreach hpcs.1 hcall hpath hpcs.2⟩

/-- The history of that run is linearizable. -/
theorem optimistic_linearizable_sample : ∃ (s : State (Fin 2) Nat Nat)
    (H : List (Event (Fin 2) (MapOp Nat Nat) (MapRes Nat))),
    (index (Fin 2) Nat Nat ⟨false, true⟩).Run NoWrap s H ∧
      s.pc 0 = .returned (.value none) ∧ Linearizable MapOp.apply (fun _ => none) H (mapOf s.mem) := by
  let m := (index (Fin 2) Nat Nat ⟨false, true⟩).machine
  have hrun : ((m.runChecked (duringTest 0) m.init
      (insertRun ++ (0, .call (.getOptimistic 7)) :: lookupRun)).bind fun s =>
        lookupEnds .idle (s.pc 0)) = some (.value none) := by
    decide +kernel
  obtain ⟨s, hs, hends⟩ := Option.bind_eq_some_iff.mp hrun
  have hinit : (index (Fin 2) Nat Nat ⟨false, true⟩).Run NoWrap m.init [] := .init
  obtain ⟨H, hH⟩ := hinit.checked (fun _ _ h => (during_of_test h).1) hs
  exact ⟨s, _, hH, (lookupEnds_eq_some hends).2, optimistic_linearizable hH⟩

end Optimistic

end SkipList
