import LockBench.AggregateRows

/-!
# Summaries of complete rows

What `aggregate` writes when every row of the file is as wide as the header and numbers are
exact rationals.  What Python's `float` makes of a text, the square root in `statistics.stdev`
and the `.6g` format stay open: nothing here depends on them.  `float` has no value for a text
that is not a number, and every other text that reaches it is a finite decimal.
-/

namespace Aggregate

open AggregateRows

/-- What `csv.DictReader` gives of a complete file: rows of the width of the header. -/
structure Csv extends AggregateRows.Csv where
  width : ∀ row ∈ rows, row.length = fieldnames.length

/-- The statistics of one metric in one group. -/
structure Summary where
  median : ℚ
  mean : ℚ
  p25 : ℚ
  p75 : ℚ
  min : ℚ
  max : ℚ
  cov : Option ℚ

/-- The coefficient of variation as a percentage, if it is defined. -/
def variation (sqrt : ℚ → ℚ) (vals : List ℚ) : Option ℚ :=
  if vals.length < 2 ∨ fmean vals = 0 then none
  else some (100 * stdev sqrt vals / fmean vals)

/-- The statistics of sorted values. -/
def summarize (sqrt : ℚ → ℚ) (valsSorted : List ℚ) : Summary where
  median := OrderStats.median valsSorted
  mean := fmean valsSorted
  p25 := if 4 ≤ valsSorted.length then OrderStats.quantile 4 1 valsSorted
    else OrderStats.get valsSorted 0
  p75 := if 4 ≤ valsSorted.length then OrderStats.quantile 4 3 valsSorted
    else OrderStats.get valsSorted (valsSorted.length - 1)
  min := OrderStats.get valsSorted 0
  max := OrderStats.get valsSorted (valsSorted.length - 1)
  cov := variation sqrt valsSorted

/-- The statistics of values in any order, if there are any. -/
def summary (sqrt : ℚ → ℚ) (vals : List ℚ) : Option Summary :=
  if vals = [] then none else some (summarize sqrt (vals.insertionSort (· ≤ ·)))

/-- The seven fields of a metric. -/
def fields (E : Exact) : Option Summary → List String
  | none => List.replicate 7 ""
  | some s => [some s.median, some s.mean, some s.p25, some s.p75, some s.min, some s.max,
      s.cov].map (fmtNum E.numbers)

/-- The statistics in the order in which they have to stand. -/
structure Summary.Ordered (s : Summary) (vals : List ℚ) : Prop where
  min_le_p25 : s.min ≤ s.p25
  p25_le_median : s.p25 ≤ s.median
  median_le_p75 : s.median ≤ s.p75
  p75_le_max : s.p75 ≤ s.max
  min_mem : s.min ∈ vals
  max_mem : s.max ∈ vals
  range : ∀ v ∈ vals, s.min ≤ v ∧ v ≤ s.max

namespace Csv

variable {csv csv' : Csv} {E : Exact}

/-- A complete row has every column. -/
theorem get_ne_none {row : List String} (hrow : row ∈ csv.rows) {c : String}
    (hc : c ∈ csv.fieldnames) : csv.get c row ≠ none := by
  rw [AggregateRows.Csv.get, ne_eq, List.getElem?_eq_none_iff, csv.width row hrow, not_le]
  exact List.idxOf_lt_length_iff.mpr hc

/-- No two complete rows clash. -/
theorem even (csv : Csv) : csv.Even := by
  intro r hr s _ hclash
  obtain ⟨pre, c, post, hcols, -, hnone, -⟩ := hclash
  have hc : c ∈ csv.keyCols := by
    rw [hcols]
    simp
  exact get_ne_none (List.mem_filter.mp hr).1 (List.mem_filter.mp hc).1 hnone

/-- The output row of a group. -/
def line (csv : Csv) (E : Exact) (k : Key) : List String :=
  AggregateRows.Csv.label k (csv.groupOf k).2.length ++ csv.metricCols.flatMap fun m =>
    fields E (summary E.sqrt (csv.vals E.numbers m (csv.groupOf k).2))

end Csv

end Aggregate
