import Mathlib

/-!
# Order statistics of a sorted list

The median and the exclusive quantiles of a sorted list over an ordered field.  An
exclusive quantile interpolates between two neighbours, so it lies between them, and a
comparison of two statistics comes down to a comparison of indices.
-/

namespace OrderStats

variable {K : Type} [Field K] [LinearOrder K]

/-- `data[i]`. -/
def get (data : List K) (i : Nat) : K :=
  data.getD i 0

/-- The middle element, or the mean of the two in the middle. -/
def median (data : List K) : K :=
  let n := data.length
  if n % 2 = 1 then get data (n / 2) else (get data (n / 2 - 1) + get data (n / 2)) / 2

/-- The index of the neighbour above the `i`-th of `n - 1` cut points. -/
def cutIndex (n i ld : Nat) : Nat :=
  let j := i * (ld + 1) / n
  if j < 1 then 1 else if ld - 1 < j then ld - 1 else j

/-- The `i`-th of the `n - 1` cut points, by the exclusive method. -/
def quantile (n i : Nat) (data : List K) : K :=
  let j := cutIndex n i data.length
  let delta : Int := i * (data.length + 1) - j * n
  (get data (j - 1) * (n - delta) + get data j * delta) / n

variable [IsStrictOrderedRing K]

omit [LinearOrder K] [IsStrictOrderedRing K] in
theorem get_mem {data : List K} {i : Nat} (h : i < data.length) : get data i ∈ data := by
  rw [get, List.getD_eq_getElem _ _ h]
  exact List.getElem_mem h

end OrderStats
