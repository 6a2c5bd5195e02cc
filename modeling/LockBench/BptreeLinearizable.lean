import LockBench.BptreeCouplingSafety

/-!
# Linearizability of `bptree_index`

Every operation takes effect, or finds its result, in its one step at a leaf.  The entries of a leaf
that has been split are in the map all the time, though the new leaf is not yet reached from the
root: no thread can look for it meanwhile, since the parent is locked.
-/

namespace BptreeCoupling

open BptreeIndex IdealLocks

section

variable {T K V : Type} [DecidableEq T] [LinearOrder K] {F : Nat} {t : T} {m m' : Mem T K V}
  {p p' : Pc K V} {c : Choice K V} {s s' : State T K V}

/-- Where the operation of a thread stands, by its program point. -/
structure StatusOk (p : Pc K V) (x : Status (State T K V) (MapOp K V) (MapRes V)) : Prop where
  idle : p = .idle → x = .idle
  pending : ∀ op, p.openOp = some op → ∃ since, x = .pending op since
  done : ∀ r, p.result = some r → ∃ op, x = .done op r

omit [DecidableEq T] [LinearOrder K] in
theorem StatusOk.observe {σ : T → Status (State T K V) (MapOp K V) (MapRes V)}
    (h : StatusOk p (σ t)) : StatusOk p (Observed.observe s σ t) where
  idle hp := Observed.Kept.observe_idle.mpr (h.idle hp)
  pending op hp := by
    obtain ⟨since, hσ⟩ := h.pending op hp
    exact ⟨insert s since, by simp only [Observed.observe, hσ]⟩
  done r hp := by
    obtain ⟨op, hσ⟩ := h.done r hp
    exact ⟨op, Observed.Kept.observe_done.mpr hσ⟩

omit [DecidableEq T] [LinearOrder K] in
theorem statusOk_idle : StatusOk (.idle : Pc K V) (.idle : Status (State T K V) _ _) where
  idle _ := rfl
  pending op h := by cases h
  done r h := by cases h

/-- A step that is no call, no return and not at a leaf keeps the operation as it stands. -/
theorem next_stands (hidle : p ≠ .idle) (hret : ∀ r, p ≠ .returned r) (hc : p.commits = false)
    (hstep : next F t m p c = some (m', p')) :
    p' ≠ .idle ∧ p'.openOp = p.openOp ∧ p'.result = p.result := by
  cases p with
  | idle => exact absurd rfl hidle
  | returned r => exact absurd rfl (hret r)
  | leaf | putLeaf => cases hc
  | enter | lockChild | putEnter | putLockRoot | putLockChild =>
      obtain ⟨m₁, -, heq⟩ := Option.map_eq_some_iff.mp hstep
      obtain ⟨-, rfl⟩ := Prod.mk.inj heq
      exact ⟨by simp, rfl, rfl⟩
  | unlockParent | unlockLeaf | putRoot =>
      obtain ⟨-, rfl⟩ := Prod.mk.inj (Option.some.inj hstep)
      exact ⟨by simp, rfl, rfl⟩
  | visit w l =>
      obtain ⟨q, hq, heq⟩ := Option.map_eq_some_iff.mp hstep
      obtain ⟨-, rfl⟩ := Prod.mk.inj heq
      cases l with
      | latch =>
          obtain rfl := Option.some.inj hq
          exact ⟨by simp, rfl, rfl⟩
      | node cur =>
          simp only [visitStep] at hq
          split at hq
          · obtain rfl := Option.some.inj hq
            exact ⟨by simp, rfl, rfl⟩
          · obtain ⟨child, -, rfl⟩ := Option.map_eq_some_iff.mp hq
            exact ⟨by simp, rfl, rfl⟩
  | putVisit x =>
      obtain ⟨q, hq, heq⟩ := Option.map_eq_some_iff.mp hstep
      obtain ⟨-, rfl⟩ := Prod.mk.inj heq
      obtain ⟨cur, -, hq⟩ := Option.bind_eq_some_iff.mp hq
      split at hq
      · obtain rfl := Option.some.inj hq
        exact ⟨by simp, rfl, rfl⟩
      · obtain ⟨child, -, rfl⟩ := Option.map_eq_some_iff.mp hq
        exact ⟨by simp, rfl, rfl⟩
  | putTest x child =>
      obtain ⟨q, hq, heq⟩ := Option.map_eq_some_iff.mp hstep
      obtain ⟨-, rfl⟩ := Prod.mk.inj heq
      simp only [putTestStep] at hq
      split at hq
      · obtain rfl := Option.some.inj hq
        exact ⟨by simp, rfl, rfl⟩
      · obtain ⟨held, -, rfl⟩ := Option.map_eq_some_iff.mp hq
        exact ⟨by simp, rfl, rfl⟩
  | putUp x above sep right =>
      simp only [next, putUpStep] at hstep
      split at hstep
      · rename_i parent rest
        obtain ⟨⟨tree, out⟩, hpush, heq⟩ := Option.map_eq_some_iff.mp hstep
        obtain ⟨-, rfl⟩ := Prod.mk.inj heq
        simp only [pushUp] at hpush
        split at hpush
        · cases hpush
        · split at hpush
          · obtain ⟨-, rfl⟩ := Prod.mk.inj (Option.some.inj hpush)
            exact ⟨by simp [PutCtx.goOn], rfl, rfl⟩
          · split at hpush
            · cases hpush
            · obtain ⟨-, rfl⟩ := Prod.mk.inj (Option.some.inj hpush)
              exact ⟨by simp [PutCtx.goOn], rfl, rfl⟩
      · obtain ⟨root, -, heq⟩ := Option.map_eq_some_iff.mp hstep
        obtain ⟨-, rfl⟩ := Prod.mk.inj heq
        exact ⟨by simp, rfl, rfl⟩
  | unlockAll todo after =>
      simp only [next, unlockStep] at hstep
      split at hstep
      · obtain ⟨-, rfl⟩ := Prod.mk.inj (Option.some.inj hstep)
        cases after <;> exact ⟨by simp, rfl, rfl⟩
      · obtain ⟨-, rfl⟩ := Prod.mk.inj (Option.some.inj hstep)
        cases after <;> exact ⟨by simp, rfl, rfl⟩

omit [DecidableEq T] [LinearOrder K] in
/-- An operation is open until its step at the leaf, and has a result from then on. -/
theorem Pc.openOp_of_result {r : MapRes V} (h : p.result = some r) : p.openOp = none := by
  cases p with
  | unlockAll todo after => cases after <;> first | rfl | cases h
  | _ => first | rfl | cases h

omit [LinearOrder K] in
theorem mapOf_empty : mapOf (Tree.empty : Tree K V) = fun _ => none := by
  funext k
  refine dif_neg ?_
  rintro ⟨v, p, -, hmem⟩
  cases hmem

/-- **The proof rule applies.** -/
theorem sound (hF : F ≤ 65535) (hpos : 1 ≤ F) :
    (index T K V F).Sound (fun _ _ => True) MapOp.apply (fun s => mapOf s.mem.tree)
      (fun s σ => (∃ g, Safe F g s) ∧ ∀ t, StatusOk (s.pc t) (σ t)) where
  init := ⟨⟨emptyRanges, safe_init⟩, fun _ => statusOk_idle⟩
  step := by
    rintro s σ ⟨t, choice⟩ s' ⟨⟨g, h⟩, hσ⟩ - hstep
    obtain ⟨g', h', heffect⟩ := h.step hF hpos hstep
    obtain ⟨m', p', hnext, rfl⟩ := interleave_step_cases hstep
    simp only [Function.update_self] at heffect hnext
    -- the status of the others stays, whatever is put down for this thread
    have hall : ∀ x, StatusOk p' x → ∀ u, StatusOk (Function.update s.pc t p' u)
        (Observed.observe ⟨m', Function.update s.pc t p'⟩ (Function.update σ t x) u) := by
      intro x hx u
      refine StatusOk.observe ?_
      by_cases hu : u = t
      · subst hu
        simpa using hx
      · simpa [hu] using hσ u
    have hsame : Function.update σ t (σ t) = σ := Function.update_eq_self t σ
    cases hpc : s.pc t with
    | idle =>
        rw [hpc] at hnext heffect
        simp only [next] at hnext
        split at hnext
        · rename_i call
          obtain ⟨rfl, rfl⟩ := Prod.mk.inj (Option.some.inj hnext)
          refine ⟨⟨⟨g', h'⟩, ?_⟩, ?_⟩
          · simp only [Observed.track, index, hpc]
            refine hall _ ⟨fun hidle => ?_, fun op hop => ⟨∅, ?_⟩, fun r hr => ?_⟩
            · cases call <;> cases hidle
            · cases call <;> (obtain rfl := Option.some.inj hop; rfl)
            · cases call <;> cases hr
          · simp only [Observed.Owes, index, hpc]
            exact ⟨(hσ t).idle hpc, trivial⟩
        · cases hnext
    | returned r =>
        rw [hpc] at hnext heffect
        obtain ⟨rfl, rfl⟩ := Prod.mk.inj (Option.some.inj hnext)
        refine ⟨⟨⟨g', h'⟩, ?_⟩, ?_⟩
        · simp only [Observed.track, index, hpc]
          exact hall _ statusOk_idle
        · obtain ⟨op, hdone⟩ := (hσ t).done r (by rw [hpc]; rfl)
          simp only [Observed.Owes, index, hpc]
          exact ⟨trivial, op, .inl hdone⟩
    | _ =>
        have hidle : s.pc t ≠ .idle := by simp [hpc]
        have hret : ∀ r, s.pc t ≠ .returned r := by simp [hpc]
        have hevent : (index T K V F).event s (t, choice) = none := by simp [index, hpc]
        cases hc : (s.pc t).commits with
        | false =>
            obtain ⟨hidle', hopen, hresult⟩ := next_stands hidle hret hc hnext
            have hcommit : (index T K V F).commit s (t, choice) = none := by simp [index, hc]
            refine ⟨⟨⟨g', h'⟩, ?_⟩, ?_⟩
            · simp only [Observed.track, hevent, hcommit]
              rw [← hsame]
              exact hall _ ⟨fun hp => absurd hp hidle', fun op hop =>
                (hσ t).pending op (hopen ▸ hop),
                fun r hr => (hσ t).done r (hresult ▸ hr)⟩
            · simp only [Observed.Owes, hevent, hcommit]
              simpa [Effect, hc] using heffect
        | true =>
            simp only [Effect, hc, if_true] at heffect
            obtain ⟨op, hop, hmap, hresult⟩ := heffect
            obtain ⟨since, hpending⟩ := (hσ t).pending op hop
            have hcommit : (index T K V F).commit s (t, choice) = some t := by simp [index, hc]
            refine ⟨⟨⟨g', h'⟩, ?_⟩, ?_⟩
            · simp only [Observed.track, hevent, hcommit, hpending, Observed.close]
              refine hall _ ⟨fun hp => ?_, fun op' hop' => ?_, fun r hr => ⟨op, ?_⟩⟩
              · rw [hp] at hresult
                cases hresult
              · rw [Pc.openOp_of_result hresult] at hop'
                cases hop'
              · rw [hresult] at hr
                rw [Option.some.inj hr]
            · simp only [Observed.Owes, hevent, hcommit]
              exact ⟨op, since, hpending, hmap⟩

/-- **Linearizability of the B+ tree.**  With any mutex or reader-writer lock, every history of
`get`, `get_shared`, `put` and `remove` has a linearization that runs the map from the empty one to
the one the leaves hold. -/
theorem coupling_linearizable (hF : F ≤ 65535) (hpos : 1 ≤ F)
    {H : List (Event T (MapOp K V) (MapRes V))}
    (hrun : (index T K V F).Run (fun _ _ => True) s H) :
    Linearizable MapOp.apply (fun _ => none) H (mapOf s.mem.tree) := by
  have hlin := (sound hF hpos).linearizable hrun
  rwa [show (index T K V F).machine.init.mem.tree = Tree.empty from rfl, mapOf_empty] at hlin

/-- Three insertions, the third of which splits the root, and a removal that overtakes a shared
lookup. -/
def sampleRun : List (Fin 2 × Choice Nat Nat) :=
  List.flatten [(0, .call (.put 1 10)) :: List.replicate 9 (0, .go),
    (0, .call (.put 2 20)) :: List.replicate 9 (0, .go),
    (0, .call (.put 3 30)) :: (1, .call (.get .shared 3)) :: List.replicate 10 (0, .go),
    (0, .call (.remove 1)) :: List.replicate 8 (1, .go), List.replicate 11 (0, .go),
    List.replicate 3 (1, .go)]

/-- What the sample run leaves. -/
def sampleHistory : List (Event (Fin 2) (MapOp Nat Nat) (MapRes Nat)) :=
  [.call 0 (.put 1 10), .ret 0 (.flag true), .call 0 (.put 2 20), .ret 0 (.flag true),
    .call 0 (.put 3 30), .call 1 (.get 3), .ret 0 (.flag true), .call 0 (.remove 1),
    .ret 0 (.flag true), .ret 1 (.value (some 30))]

theorem coupling_linearizable_sample : ∃ s : State (Fin 2) Nat Nat,
    (index (Fin 2) Nat Nat 2).Run (fun _ _ => True) s sampleHistory ∧
      Linearizable MapOp.apply (fun _ => none) sampleHistory (mapOf s.mem.tree) := by
  have hexec : ((index (Fin 2) Nat Nat 2).exec (index (Fin 2) Nat Nat 2).machine.init []
      sampleRun).map (·.2) = some sampleHistory := by
    decide +kernel
  have hinit : (index (Fin 2) Nat Nat 2).Run (fun _ _ => True)
      (index (Fin 2) Nat Nat 2).machine.init [] := .init
  obtain ⟨⟨s, H⟩, hrun, rfl⟩ := Option.map_eq_some_iff.mp hexec
  have hrun := hinit.exec hrun
  exact ⟨s, hrun, coupling_linearizable (by decide) (by decide) hrun⟩

end

end BptreeCoupling
