import Mathlib

/-!
# Waiting for one another

A deadlock is a set of threads each of which waits for one of the set.  Where what is waited for
comes in an order that every thread respects, a measure goes down along the waiting, and there
is no such set.
-/

/-- Each thread of the set waits for one of the set. -/
structure Deadlocked {T : Type} (waits : T → T → Prop) (S : Set T) : Prop where
  nonempty : S.Nonempty
  waits : ∀ t ∈ S, ∃ u ∈ S, waits t u

variable {T : Type} {waits : T → T → Prop} {S : Set T}

/-- **A measure that goes down from a waiting thread to a waiting thread it waits for excludes
deadlock.** -/
theorem not_deadlocked (ahead : T → Nat)
    (hdown : ∀ t u v, waits t u → waits u v → ahead u < ahead t) : ¬Deadlocked waits S := by
  intro h
  obtain ⟨t, ht, hmin⟩ := (InvImage.wf ahead wellFounded_lt).has_min S h.nonempty
  obtain ⟨u, hu, htu⟩ := h.waits t ht
  obtain ⟨v, -, huv⟩ := h.waits u hu
  exact hmin u hu (hdown t u v htu huv)

/-- Without a deadlock, someone of a set that waits for nobody outside waits for nobody. -/
theorem exists_not_waiting (h : ¬Deadlocked waits S) (hne : S.Nonempty)
    (hclosed : ∀ t ∈ S, ∀ u, waits t u → u ∈ S) : ∃ t ∈ S, ∀ u, ¬waits t u := by
  by_contra hall
  push Not at hall
  refine h ⟨hne, fun t ht => ?_⟩
  obtain ⟨u, htu⟩ := hall t ht
  exact ⟨u, hclosed t ht u htu, htu⟩
