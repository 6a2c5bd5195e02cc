import LockBench.Machine

/-!
# A flag and the claims on it

A boolean lock word that a thread takes by a read-modify-write and drops by a
store that may reach memory late.  What makes it a lock is the same in every
such program: at most one thread has a claim on the word, where a claim lasts
from the winning read-modify-write until the drop is in memory, and memory shows
the word up exactly while there is a claim.
-/

/-- Claims exclude each other, and the flag is up exactly while there is one. -/
structure FlagInv {T : Type} (flag : Bool) (claims : T → Prop) : Prop where
  unique : ∀ t u, claims t → claims u → t = u
  up : flag = true ↔ ∃ t, claims t

namespace FlagInv

variable {T : Type} {flag : Bool} {claims claims' : T → Prop}

/-- Moves that change nobody's claim. -/
theorem congr (h : FlagInv flag claims) (hc : ∀ u, claims' u ↔ claims u) :
    FlagInv flag claims' := by
  obtain rfl : claims' = claims := funext fun u => propext (hc u)
  exact h

/-- Taking the flag while nobody else has a claim. -/
theorem take {t : T} (hc : ∀ u, claims' u ↔ u = t) : FlagInv true claims' := by
  refine ⟨fun u v hu hv => ?_, ?_⟩
  · rw [(hc u).mp hu, (hc v).mp hv]
  · simpa using ⟨t, (hc t).mpr rfl⟩

/-- The drop of the only claim reaches memory. -/
theorem drop (hc : ∀ u, ¬ claims' u) : FlagInv false claims' := by
  refine ⟨fun u _ hu => absurd hu (hc u), ?_⟩
  simpa using hc

/-- A flag that is down shows that there is no claim. -/
theorem none_of_down (h : FlagInv false claims) (u : T) : ¬ claims u := fun hu => by
  simpa using h.up.mpr ⟨u, hu⟩

end FlagInv
