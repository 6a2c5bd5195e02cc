import LockBench.FallibleSort
import LockBench.Grouping
import LockBench.OrderStats

/-!
# Summaries of trial rows

`aggregate` of `scripts/aggregate.py` groups the rows of a CSV file by all columns that are
neither metrics nor labels, and writes one row per group with the number of trials and, for each
metric, median, mean, quartiles, extremes and coefficient of variation.

The rows may be short.  `csv.DictReader` gives `None` for the fields that a row lacks, and since
the field is there, `row.get(c, "")` returns it.  The keys of the groups are then tuples of
strings and `None`s.  Tuples are compared at the first place where they differ, and there `<`
raises for `None` and a string.  The comparison is part of the sort that follows the opening of
the output file, which is empty by then but for the line of columns.

Python's `float` and `statistics` are an argument: what `float` makes of a text, and statistics
that may raise.  The lines that `csv.writer` has got are what the file holds when an exception
closes it; `None` is written as an empty field.
-/

namespace AggregateRows

/-! ## The program -/

/-- `NON_KEY_COLUMNS`. -/
def nonKeyColumns : List String :=
  ["total_ops", "read_ops", "write_ops", "ops_s", "ns_op", "fairness_min", "fairness_max",
    "fairness_ratio", "gets", "puts", "removes", "hostname", "seconds"]

/-- `METRICS`. -/
def metrics : List String :=
  ["ops_s", "ns_op", "fairness_ratio"]

/-- A file with a header of distinct names, and rows of any length. -/
structure Csv where
  fieldnames : List String
  rows : List (List String)
  distinct : fieldnames.Nodup

/-- Python's `float` and `statistics`; `none` where they raise.  `exceeds` is the comparison with
`cov_warn`. -/
structure Numbers where
  Float : Type
  float : String → Option Float
  sorted : List Float → List Float
  sorted_perm : ∀ l, (sorted l).Perm l
  median : List Float → Option Float
  fmean : List Float → Option Float
  quartile : List Float → Nat → Option Float
  stdev : List Float → Option Float
  isZero : Float → Bool
  isNan : Float → Bool
  percent : Float → Float → Float
  exceeds : Float → Bool
  format6g : Float → String

/-- A key: a field that the row lacks is `None`. -/
abbrev Key := List (Option String)

/-- How a call ends, what has become of the output file (the lines in it if it was opened), and
the groups that it warns of. -/
structure Run (N : Numbers) where
  returns : Option Nat
  file : Option (List (List String))
  highCov : List (Key × N.Float × Nat)

/-- `statistics.fmean` of exact numbers. -/
def fmean (values : List ℚ) : ℚ :=
  values.sum / values.length

/-- `statistics.stdev` of exact numbers, with a square root. -/
def stdev (sqrt : ℚ → ℚ) (values : List ℚ) : ℚ :=
  sqrt ((values.map fun v => (v - fmean values) ^ 2).sum / (values.length - 1))

/-- What is open of Python when its numbers are taken to be exact. -/
structure Exact where
  float : String → Option ℚ
  sqrt : ℚ → ℚ
  covWarn : ℚ
  format6g : ℚ → String

/-- Exact numbers, on which no statistics raise. -/
abbrev Exact.numbers (E : Exact) : Numbers where
  Float := ℚ
  float := E.float
  sorted := List.insertionSort (· ≤ ·)
  sorted_perm := List.perm_insertionSort (· ≤ ·)
  median values := some (OrderStats.median values)
  fmean values := some (fmean values)
  quartile values i := some (OrderStats.quantile 4 (i + 1) values)
  stdev values := some (stdev E.sqrt values)
  isZero v := v = 0
  isNan _ := false
  percent sd m := 100 * sd / m
  exceeds cov := E.covWarn < cov
  format6g := E.format6g

/-- Digits, with at most one point. -/
def plainDecimal (s : String) : Option ℚ :=
  match s.toList.splitOn '.' with
  | [whole] => if whole.all Char.isDigit then some (Nat.ofDigitChars 10 whole 0) else none
  | [whole, frac] =>
      if (whole ++ frac).all Char.isDigit then
        some (Nat.ofDigitChars 10 (whole ++ frac) 0 / 10 ^ frac.length) else none
  | _ => none

/-- The root of the square of a fraction. -/
def squareRoot (q : ℚ) : ℚ :=
  Nat.sqrt q.num.toNat / Nat.sqrt q.den

/-- Exact numbers with these, and the default of `--cov-warn`. -/
def rationals : Exact :=
  ⟨plainDecimal, squareRoot, 10, toString⟩

/-- `<` of two fields; `none` where it raises. -/
def fieldLt : Option String → Option String → Option Bool
  | some x, some y => some (decide (x < y))
  | _, _ => none

/-- `<` of two tuples, decided at the first place where they differ. -/
def keyLt : Key → Key → Option Bool
  | [], [] => some false
  | [], _ :: _ => some true
  | _ :: _, [] => some false
  | a :: as, b :: bs => if a = b then keyLt as bs else fieldLt a b

section

variable (N : Numbers)

/-- `parse_num`. -/
def parseNum : Option String → Option N.Float
  | none => none
  | some s => if s = "" then none else N.float (s.replace "," ".")

/-- `fmt_num`. -/
def fmtNum (v : Option N.Float) : String :=
  match v with
  | none => ""
  | some v => if N.isNan v then "" else (N.format6g v).replace "." ","

/-- `cov_pct`. -/
def covPct (values : List N.Float) : Option (Option N.Float) :=
  if values.length < 2 then some none
  else (N.fmean values).bind fun m =>
    if N.isZero m then some none
    else (N.stdev values).map fun sd => some (N.percent sd m)

/-- `statistics.quantiles(vals_sorted, n=4)[i]` of four values or more. -/
def quantile (values : List N.Float) (i : Nat) (fewer : Option N.Float) : Option N.Float :=
  if 4 ≤ values.length then N.quartile values i else fewer

/-- The seven fields of a metric. -/
def cells (vals : List N.Float) : Option (List String) :=
  if vals.isEmpty then some (List.replicate 7 "")
  else do
    let valsSorted := N.sorted vals
    let med ← N.median valsSorted
    let mean ← N.fmean valsSorted
    let p25 ← quantile N valsSorted 0 valsSorted.head?
    let p75 ← quantile N valsSorted 2 valsSorted.getLast?
    let cov ← covPct N valsSorted
    let low ← valsSorted.head?
    let high ← valsSorted.getLast?
    return [some med, some mean, some p25, some p75, some low, some high, cov].map (fmtNum N)

namespace Csv

variable (csv : Csv)

/-- The rows that `csv.DictReader` delivers: it skips those without a field. -/
def read : List (List String) :=
  csv.rows.filter fun row => row ≠ []

/-- `key_cols`. -/
def keyCols : List String :=
  csv.fieldnames.filter fun c => c ∉ nonKeyColumns

/-- `metric_cols`. -/
def metricCols : List String :=
  metrics.filter fun c => c ∈ csv.fieldnames

/-- `row.get(c, "")` of a column: `None` if the row is too short. -/
def get (c : String) (row : List String) : Option String :=
  row[csv.fieldnames.idxOf c]?

/-- The key of a row. -/
def keyOf (row : List String) : Key :=
  csv.keyCols.map fun c => csv.get c row

/-- `groups`. -/
def groups : List (Key × List (List String)) :=
  Grouping.groupBy csv.keyOf csv.read

/-- `sorted(groups.items())`: the keys are distinct, so only they are compared. -/
def sortedGroups : Option (List (Key × List (List String))) :=
  FallibleSort.sort keyLt Prod.fst csv.groups

/-- `vals`. -/
def vals (m : String) (rows : List (List String)) : List N.Float :=
  rows.filterMap fun row => parseNum N (csv.get m row)

/-- `out_cols`. -/
def outCols : List String :=
  csv.keyCols ++ ["n"] ++ csv.metricCols.flatMap fun m =>
    [m ++ "_median", m ++ "_mean", m ++ "_p25", m ++ "_p75", m ++ "_min", m ++ "_max",
      m ++ "_cov_pct"]

/-- What `csv.writer` makes of `list(key) + [str(len(group_rows))]`. -/
def label (key : Key) (n : Nat) : List String :=
  key.map (·.getD "") ++ [toString n]

/-- The output row of a group. -/
def outRow (g : Key × List (List String)) : Option (List String) :=
  (csv.metricCols.mapM fun m => cells N (csv.vals N m g.2)).map fun fields =>
    label g.1 g.2.length ++ fields.flatten

/-- What a group adds to `high_cov`. -/
def warning (g : Key × List (List String)) : Option (Key × N.Float × Nat) := do
  guard ("ops_s" ∈ csv.metricCols)
  let valsSorted := N.sorted (csv.vals N "ops_s" g.2)
  let cov ← (covPct N valsSorted).join
  guard (N.exceeds cov)
  return (g.1, cov, valsSorted.length)

/-- The loop that writes the groups behind the lines that are there. -/
def emit : List (Key × List (List String)) → List (List String) → List (Key × N.Float × Nat) →
    Run N
  | [], lines, highCov => ⟨some 0, some lines, highCov⟩
  | g :: gs, lines, highCov =>
      match csv.outRow N g with
      | none => ⟨none, some lines, []⟩
      | some row => emit gs (lines ++ [row]) (highCov ++ (csv.warning N g).toList)

/-- `aggregate`, of a file with a header line. -/
def aggregate : Run N :=
  if csv.read = [] then ⟨some 2, none, []⟩
  else if csv.metricCols = [] then ⟨some 2, none, []⟩
  else
    match csv.sortedGroups with
    | none => ⟨none, some [csv.outCols], []⟩
    | some gs => csv.emit N gs [csv.outCols] []

end Csv

/-- `aggregate`; an empty file has no header line. -/
def aggregate : Option Csv → Run N
  | none => ⟨some 2, none, []⟩
  | some csv => csv.aggregate N

end

/-! ## When the call copes -/

/-- Python's `statistics` raise on the values: the median or the mean of one or more, the
quartiles of four or more, the deviation of two or more with a mean other than zero. -/
def StatisticsRaise (N : Numbers) (values : List N.Float) : Prop :=
  values ≠ [] ∧ (N.median values = none ∨ N.fmean values = none) ∨
    4 ≤ values.length ∧ (N.quartile values 0 = none ∨ N.quartile values 2 = none) ∨
    2 ≤ values.length ∧ N.stdev values = none ∧ ∃ m, N.fmean values = some m ∧ ¬N.isZero m

namespace Csv

variable (csv : Csv)

/-- The key of a row with the empty string for what it lacks. -/
def fullKey (row : List String) : List String :=
  csv.keyCols.map fun c => (csv.get c row).getD ""

/-- The rows with a key. -/
def rowsOf (key : List String) : List (List String) :=
  csv.read.filter fun row => csv.fullKey row = key

/-- The call copes with the rows: it does not raise, it opens the output file only if there is
something to write, and then the file has one row for each key, in order, with the number of
its rows. -/
structure Copes {N : Numbers} (run : Run N) : Prop where
  returns : run.returns ≠ none
  file : (csv.read = [] ∨ csv.metricCols = []) ∧ run.file = none ∨
    ∃ lines, run.file = some (csv.outCols :: lines) ∧
      ∃ keys : List (List String), keys.Pairwise (· < ·) ∧
        (∀ key, key ∈ keys ↔ ∃ row ∈ csv.read, csv.fullKey row = key) ∧
        List.Forall₂ (fun key line => (key ++ [toString (csv.rowsOf key).length]) <+: line) keys lines

/-- Two rows whose keys differ first in a column that one of them lacks. -/
def Clash (r s : List String) : Prop :=
  ∃ pre c post, csv.keyCols = pre ++ c :: post ∧ (∀ c' ∈ pre, csv.get c' r = csv.get c' s) ∧
    csv.get c r = none ∧ csv.get c s ≠ none

/-- No statistics of a group raise. -/
def Computable (N : Numbers) : Prop :=
  ∀ row ∈ csv.read, ∀ m ∈ csv.metricCols,
    ¬StatisticsRaise N (N.sorted (csv.vals N m (csv.rowsOf (csv.fullKey row))))

end Csv

/-! ## Comparing keys -/

/-- Two fields cannot be compared when one of them is missing. -/
theorem fieldLt_eq_none_iff {a b : Option String} : fieldLt a b = none ↔ a = none ∨ b = none := by
  cases a <;> cases b <;> simp [fieldLt]

/-- Strings are compared as strings. -/
theorem fieldLt_eq_some_iff {a b : Option String} {less : Bool} :
    fieldLt a b = some less ↔ ∃ x y, a = some x ∧ b = some y ∧ decide (x < y) = less := by
  cases a <;> cases b <;> simp [fieldLt]

/-- Where the comparison raises. -/
theorem keyLt_map_eq_none_iff {γ : Type} (f g : γ → Option String) (cols : List γ) :
    keyLt (cols.map f) (cols.map g) = none ↔
      ∃ pre c post, cols = pre ++ c :: post ∧ (∀ c' ∈ pre, f c' = g c') ∧ f c ≠ g c ∧
        (f c = none ∨ g c = none) := by
  induction cols with
  | nil => exact iff_of_false nofun (by rintro ⟨pre, c, post, h, -⟩; cases pre <;> cases h)
  | cons d cols ih =>
      rw [List.map_cons, List.map_cons, keyLt]
      by_cases heq : f d = g d
      · rw [if_pos heq, ih]
        constructor
        · intro hdiffer
          obtain ⟨pre, c, post, rfl, hpre, hc⟩ := hdiffer
          refine ⟨d :: pre, c, post, rfl, fun c' hc' => ?_, hc⟩
          rcases List.mem_cons.mp hc' with rfl | hc'
          · exact heq
          · exact hpre c' hc'
        · intro hdiffer
          obtain ⟨pre, c, post, h, hpre, hc⟩ := hdiffer
          cases pre with
          | nil =>
              cases h
              exact absurd heq hc.1
          | cons d' pre =>
              cases h
              exact ⟨pre, c, post, rfl, fun c' hc' => hpre c' (.tail _ hc'), hc⟩
      · rw [if_neg heq, fieldLt_eq_none_iff]
        constructor
        · exact fun h => ⟨[], d, cols, rfl, nofun, heq, h⟩
        · intro hdiffer
          obtain ⟨pre, c, post, h, hpre, hc⟩ := hdiffer
          cases pre with
          | nil =>
              cases h
              exact hc.2
          | cons d' pre =>
              cases h
              exact absurd (hpre d (.head _)) heq

/-- If two keys cannot be compared, neither can they the other way round. -/
theorem keyLt_symm : ∀ {a b : Key}, keyLt a b = none → keyLt b a = none
  | [], [], h | [], _ :: _, h | _ :: _, [], h => nomatch h
  | x :: a, y :: b, h => by
      rw [keyLt] at h ⊢
      by_cases hxy : x = y
      · rw [if_pos hxy] at h
        rw [if_pos hxy.symm]
        exact keyLt_symm h
      · rw [if_neg hxy] at h
        rw [if_neg (Ne.symm hxy)]
        exact fieldLt_eq_none_iff.mpr (fieldLt_eq_none_iff.mp h).symm

/-- Of two different keys that can be compared one is below the other. -/
theorem keyLt_flip : ∀ {a b : Key}, keyLt a b = some false → a ≠ b → keyLt b a = some true
  | [], [], _, hne => absurd rfl hne
  | _ :: _, [], _, _ => rfl
  | x :: a, y :: b, h, hne => by
      rw [keyLt] at h ⊢
      by_cases hxy : x = y
      · rw [if_pos hxy] at h
        rw [if_pos hxy.symm]
        exact keyLt_flip h fun hab => hne (by rw [hxy, hab])
      · rw [if_neg hxy] at h
        rw [if_neg (Ne.symm hxy)]
        obtain ⟨v, w, rfl, rfl, hless⟩ := fieldLt_eq_some_iff.mp h
        have hle : w ≤ v := not_lt.mp (of_decide_eq_false hless)
        have hlt : w < v := lt_of_le_of_ne hle fun heq => hxy (by rw [heq])
        exact congrArg some (decide_eq_true hlt)

/-- The order of the keys is transitive. -/
theorem keyLt_trans : ∀ {a b c : Key}, keyLt a b = some true → keyLt b c = some true →
    keyLt a c = some true
  | [], _ :: _, _ :: _, _, _ => rfl
  | x :: a, y :: b, z :: c, hab, hbc => by
      rw [keyLt] at hab hbc ⊢
      by_cases hxy : x = y
      · subst hxy
        rw [if_pos rfl] at hab
        by_cases hxz : x = z
        · rw [if_pos hxz] at hbc ⊢
          exact keyLt_trans hab hbc
        · rw [if_neg hxz] at hbc ⊢
          exact hbc
      · rw [if_neg hxy] at hab
        by_cases hyz : y = z
        · subst hyz
          rw [if_neg hxy]
          exact hab
        · rw [if_neg hyz] at hbc
          obtain ⟨u, v, rfl, rfl, huv⟩ := fieldLt_eq_some_iff.mp hab
          obtain ⟨v', w, hv, rfl, hvw⟩ := fieldLt_eq_some_iff.mp hbc
          cases hv
          have hlt : u < w := (of_decide_eq_true huv).trans (of_decide_eq_true hvw)
          rw [if_neg fun h => hlt.ne (Option.some.inj h)]
          exact congrArg some (decide_eq_true hlt)

/-- **The comparisons that do not raise make a linear order.** -/
theorem keyLt_lawful : FallibleSort.Lawful keyLt :=
  ⟨keyLt_symm, keyLt_flip, keyLt_trans⟩

/-- With empty strings for what is missing, the order is the same. -/
theorem lt_of_keyLt : ∀ {a b : Key}, keyLt a b = some true →
    a.map (·.getD "") < b.map (·.getD "")
  | [], _ :: _, _ => List.nil_lt_cons ..
  | x :: a, y :: b, h => by
      rw [keyLt] at h
      rw [List.map_cons, List.map_cons, List.cons_lt_cons_iff]
      by_cases hxy : x = y
      · rw [if_pos hxy] at h
        exact .inr ⟨by rw [hxy], lt_of_keyLt h⟩
      · rw [if_neg hxy] at h
        obtain ⟨v, w, rfl, rfl, hless⟩ := fieldLt_eq_some_iff.mp h
        exact .inl (of_decide_eq_true hless)

/-- Keys that can be compared are told apart with empty strings for what is missing. -/
theorem eq_of_full_eq {a b : Key} (h : keyLt a b ≠ none)
    (hfull : a.map (·.getD "") = b.map (·.getD "")) : a = b := by
  by_contra hne
  obtain ⟨less, hless⟩ := Option.ne_none_iff_exists'.mp h
  cases less with
  | true => exact (lt_of_keyLt hless).ne hfull
  | false => exact (lt_of_keyLt (keyLt_lawful.flip hless hne)).ne hfull.symm

/-! ## Groups -/

namespace Csv

variable {csv : Csv} {N : Numbers}

/-- The key of a row with nothing missing. -/
theorem fullKey_eq (row : List String) : csv.fullKey row = (csv.keyOf row).map (·.getD "") := by
  rw [fullKey, keyOf, List.map_map]
  rfl

/-- The keys of two rows can be compared unless the rows clash. -/
theorem keyLt_keyOf {r s : List String} :
    keyLt (csv.keyOf r) (csv.keyOf s) ≠ none ↔ ¬csv.Clash r s ∧ ¬csv.Clash s r := by
  rw [keyOf, keyOf, ne_eq, keyLt_map_eq_none_iff, ← not_or, not_iff_not]
  constructor
  · intro hclash
    obtain ⟨pre, c, post, hcols, hpre, hne, hc | hc⟩ := hclash
    · exact .inl ⟨pre, c, post, hcols, hpre, hc, fun h => hne (hc.trans h.symm)⟩
    · exact .inr ⟨pre, c, post, hcols, fun c' hc' => (hpre c' hc').symm, hc,
        fun h => hne (h.trans hc.symm)⟩
  · intro hclash
    obtain ⟨pre, c, post, hcols, hpre, hc, hne⟩ | ⟨pre, c, post, hcols, hpre, hc, hne⟩ := hclash
    · exact ⟨pre, c, post, hcols, hpre, fun h => hne (h ▸ hc), .inl hc⟩
    · exact ⟨pre, c, post, hcols, fun c' hc' => (hpre c' hc').symm, fun h => hne (h.trans hc), .inr hc⟩

/-- No two rows clash. -/
def Even (csv : Csv) : Prop :=
  ∀ r ∈ csv.read, ∀ s ∈ csv.read, ¬csv.Clash r s

/-- **The sort comes to an end iff no two rows clash.** -/
theorem sortedGroups_isSome_iff : (∃ gs, csv.sortedGroups = some gs) ↔ csv.Even := by
  obtain ⟨ks, hnodup, hmem, heq⟩ := Grouping.groupBy_eq csv.keyOf csv.read
  have hkeys : csv.groups.map Prod.fst = ks := by
    rw [groups, heq, List.map_map]
    exact List.map_id ks
  constructor
  · intro hsorted r hr s hs hclash
    obtain ⟨gs, hgs⟩ := hsorted
    obtain ⟨-, -, hcomp⟩ := FallibleSort.sort_eq_some keyLt_lawful (by rw [hkeys]; exact hnodup) hgs
    rw [← List.pairwise_map (f := Prod.fst) (R := fun a b => keyLt a b ≠ none), hkeys] at hcomp
    have hne : csv.keyOf r ≠ csv.keyOf s := by
      obtain ⟨pre, c, post, hcols, -, hnone, hsome⟩ := hclash
      intro h
      have hc := List.map_inj_left.mp h c (by rw [hcols]; simp)
      exact hsome (hc ▸ hnone)
    have hsymm : Std.Symm fun a b : Key => keyLt a b ≠ none := ⟨fun _ _ h h' => h (keyLt_symm h')⟩
    have hboth := hcomp.forall ((hmem _).mpr ⟨r, hr, rfl⟩) ((hmem _).mpr ⟨s, hs, rfl⟩) hne
    exact (keyLt_keyOf.mp hboth).1 hclash
  · intro heven
    refine FallibleSort.sort_isSome keyLt_lawful (by rw [hkeys]; exact hnodup) ?_
    rw [← List.pairwise_map (f := Prod.fst) (R := fun a b => keyLt a b ≠ none), hkeys]
    refine hnodup.pairwise_of_forall_ne fun a ha b hb _ => ?_
    obtain ⟨r, hr, rfl⟩ := (hmem a).mp ha
    obtain ⟨s, hs, rfl⟩ := (hmem b).mp hb
    exact keyLt_keyOf.mpr ⟨heven r hr s hs, heven s hs r hr⟩

/-- The group of a key. -/
def groupOf (csv : Csv) (k : Key) : Key × List (List String) :=
  (k, csv.read.filter fun row => csv.keyOf row = k)

/-- The sorted groups: the keys ascend, and each has its rows. -/
theorem sortedGroups_eq_some {gs : List (Key × List (List String))}
    (h : csv.sortedGroups = some gs) :
    ∃ ks : List Key, (ks.Pairwise fun a b => keyLt a b = some true) ∧
      (∀ k, k ∈ ks ↔ ∃ row ∈ csv.read, csv.keyOf row = k) ∧ gs = ks.map csv.groupOf := by
  obtain ⟨ks, hnodup, hmem, heq⟩ := Grouping.groupBy_eq csv.keyOf csv.read
  have hkeys : csv.groups.map Prod.fst = ks := by
    rw [groups, heq, List.map_map]
    exact List.map_id ks
  obtain ⟨hperm, hsorted, -⟩ :=
    FallibleSort.sort_eq_some keyLt_lawful (by rw [hkeys]; exact hnodup) h
  refine ⟨gs.map Prod.fst, List.pairwise_map.mpr hsorted, fun k => ?_, ?_⟩
  · rw [(hperm.map Prod.fst).mem_iff, hkeys, hmem]
  · rw [List.map_map]
    refine (List.map_id gs).symm.trans (List.map_congr_left fun g hg => ?_)
    have hg := hperm.mem_iff.mp hg
    rw [groups, heq] at hg
    obtain ⟨k, -, rfl⟩ := List.mem_map.mp hg
    rfl

/-- Without a clash the rows of a key are those of the completed key. -/
theorem rowsOf_fullKey (heven : csv.Even) {row : List String} (hrow : row ∈ csv.read) :
    csv.rowsOf (csv.fullKey row) = (csv.groupOf (csv.keyOf row)).2 := by
  refine List.filter_congr fun r hr => ?_
  rw [fullKey_eq, fullKey_eq, decide_eq_decide]
  refine ⟨eq_of_full_eq ?_, fun h => by rw [h]⟩
  exact keyLt_keyOf.mpr ⟨heven r hr row hrow, heven row hrow r hr⟩

/-! ## Writing the groups -/

/-- When `cov_pct` raises. -/
theorem covPct_eq_none_iff {values : List N.Float} :
    covPct N values = none ↔ 2 ≤ values.length ∧
      (N.fmean values = none ∨
        N.stdev values = none ∧ ∃ m, N.fmean values = some m ∧ ¬N.isZero m) := by
  rw [covPct]
  by_cases hlen : values.length < 2
  · simp only [hlen, if_true, reduceCtorEq, false_iff]
    omega
  · rw [if_neg hlen]
    have hlen : 2 ≤ values.length := by omega
    cases hm : N.fmean values with
    | none => simp [hlen]
    | some m =>
        by_cases hzero : N.isZero m
        · simp [hzero]
        · simp [hzero, hlen]

/-- When a quartile raises. -/
theorem quantile_eq_none_iff {values : List N.Float} {i : Nat} {fewer : Option N.Float}
    (hfewer : fewer ≠ none) :
    quantile N values i fewer = none ↔ 4 ≤ values.length ∧ N.quartile values i = none := by
  rw [quantile]
  by_cases hlen : 4 ≤ values.length
  · simp only [hlen, if_true, true_and]
  · simp only [hlen, if_false, false_and, hfewer]

/-- A computation raises in its first part or in its second. -/
theorem bind_eq_none_iff_or {α β : Type} {o : Option α} {f : α → Option β} {p : Prop}
    (h : ∀ a, f a = none ↔ p) : o.bind f = none ↔ o = none ∨ p := by
  cases o with
  | none => exact iff_of_true rfl (.inl rfl)
  | some a => simpa using h a

/-- The fields of a metric are there unless the statistics raise. -/
theorem cells_eq_none_iff {vals : List N.Float} :
    cells N vals = none ↔ StatisticsRaise N (N.sorted vals) := by
  rw [cells, StatisticsRaise]
  cases vals with
  | nil => simp [List.perm_nil.mp (N.sorted_perm [])]
  | cons v vals =>
      have hne : N.sorted (v :: vals) ≠ [] := fun h => by
        have := h ▸ N.sorted_perm (v :: vals)
        exact nomatch List.nil_perm.mp this
      generalize N.sorted (v :: vals) = vs at hne
      have hhead : vs.head? ≠ none := mt List.head?_eq_none_iff.mp hne
      have hlast : vs.getLast? ≠ none := mt List.getLast?_eq_none_iff.mp hne
      rw [if_neg (by simp)]
      dsimp only [Option.bind_eq_bind, Option.pure_def]
      refine Iff.trans (bind_eq_none_iff_or fun _ => bind_eq_none_iff_or fun _ =>
        bind_eq_none_iff_or fun _ => bind_eq_none_iff_or fun _ => bind_eq_none_iff_or fun _ =>
        bind_eq_none_iff_or fun _ => bind_eq_none_iff_or fun _ =>
        iff_of_false (Option.some_ne_none _) not_false) ?_
      rw [quantile_eq_none_iff hhead, quantile_eq_none_iff hlast, covPct_eq_none_iff]
      simp only [hne, hhead, hlast, not_false_eq_true, ne_eq, true_and, or_false]
      tauto

/-- **What the loop writes**: all groups, or it raises at one of them. -/
theorem emit_cases (gs : List (Key × List (List String))) (lines : List (List String))
    (highCov : List (Key × N.Float × Nat)) :
    (∃ rows, List.Forall₂ (fun g row => csv.outRow N g = some row) gs rows ∧
        csv.emit N gs lines highCov =
          ⟨some 0, some (lines ++ rows), highCov ++ gs.filterMap (csv.warning N)⟩) ∨
      (∃ g ∈ gs, csv.outRow N g = none) ∧ (csv.emit N gs lines highCov).returns = none := by
  induction gs generalizing lines highCov with
  | nil => exact .inl ⟨[], .nil, by rw [emit, List.append_nil, List.filterMap_nil, List.append_nil]⟩
  | cons g gs ih =>
      rw [emit]
      cases hg : csv.outRow N g with
      | none => exact .inr ⟨⟨g, .head _, hg⟩, rfl⟩
      | some row =>
          rcases ih (lines ++ [row]) (highCov ++ (csv.warning N g).toList) with
            ⟨rows, hrows, hemit⟩ | ⟨⟨g', hg', hnone⟩, hemit⟩
          · refine .inl ⟨row :: rows, .cons hg hrows, ?_⟩
            simp only [hemit, List.append_assoc, List.singleton_append, Run.mk.injEq, true_and]
            cases hw : csv.warning N g <;> simp [hw]
          · exact .inr ⟨⟨g', .tail _ hg', hnone⟩, hemit⟩

/-- The output row of a group begins with its key and its size, or some statistics raise. -/
theorem outRow_spec (g : Key × List (List String)) :
    (∀ row, csv.outRow N g = some row → label g.1 g.2.length <+: row) ∧
      (csv.outRow N g = none ↔ ∃ m ∈ csv.metricCols, cells N (csv.vals N m g.2) = none) := by
  constructor
  · intro row hrow
    obtain ⟨fields, -, rfl⟩ := Option.map_eq_some_iff.mp hrow
    exact List.prefix_append ..
  · rw [outRow, Option.map_eq_none_iff]
    generalize csv.metricCols = ms
    induction ms with
    | nil => simp
    | cons m ms ih =>
        rw [List.mapM_cons]
        cases hm : cells N (csv.vals N m g.2) with
        | none => simp [hm]
        | some x =>
            simp only [Option.bind_eq_bind, Option.bind_some, List.mem_cons, exists_eq_or_imp, hm,
              reduceCtorEq, false_or, ← ih]
            cases ms.mapM fun m => cells N (csv.vals N m g.2) <;> simp

/-- A group raises iff some statistics of its rows do. -/
theorem exists_outRow_none_iff (heven : csv.Even) {ks : List Key}
    (hmem : ∀ k, k ∈ ks ↔ ∃ row ∈ csv.read, csv.keyOf row = k) :
    (∃ g ∈ ks.map csv.groupOf, csv.outRow N g = none) ↔ ¬csv.Computable N := by
  have hgroup : ∀ row ∈ csv.read, (csv.outRow N (csv.groupOf (csv.keyOf row)) = none ↔
      ∃ m ∈ csv.metricCols,
        StatisticsRaise N (N.sorted (csv.vals N m (csv.rowsOf (csv.fullKey row))))) := by
    intro row hrow
    rw [(outRow_spec _).2, rowsOf_fullKey heven hrow]
    simp only [cells_eq_none_iff]
  constructor
  · intro hraise hcomp
    obtain ⟨g, hg, hnone⟩ := hraise
    obtain ⟨k, hk, rfl⟩ := List.mem_map.mp hg
    obtain ⟨row, hrow, rfl⟩ := (hmem k).mp hk
    obtain ⟨m, hm, hcells⟩ := (hgroup row hrow).mp hnone
    exact hcomp row hrow m hm hcells
  · intro hcomp
    simp only [Computable, not_forall, not_not] at hcomp
    obtain ⟨row, hrow, m, hm, hcells⟩ := hcomp
    exact ⟨_, List.mem_map_of_mem ((hmem _).mpr ⟨row, hrow, rfl⟩),
      (hgroup row hrow).mpr ⟨m, hm, hcells⟩⟩

/-- The lines of all groups are one for each completed key. -/
theorem lines_spec (heven : csv.Even) {ks : List Key} {lines : List (List String)}
    (hks : ks.Pairwise fun a b => keyLt a b = some true)
    (hmem : ∀ k, k ∈ ks ↔ ∃ row ∈ csv.read, csv.keyOf row = k)
    (hlines : List.Forall₂ (fun g row => csv.outRow N g = some row) (ks.map csv.groupOf) lines) :
    ∃ keys : List (List String), keys.Pairwise (· < ·) ∧
      (∀ key, key ∈ keys ↔ ∃ row ∈ csv.read, csv.fullKey row = key) ∧
      List.Forall₂ (fun key line => (key ++ [toString (csv.rowsOf key).length]) <+: line) keys
        lines := by
  refine ⟨ks.map fun k => k.map (·.getD ""), ?_, fun key => ?_, ?_⟩
  · exact List.pairwise_map.mpr (hks.imp lt_of_keyLt)
  · rw [List.mem_map]
    constructor
    · intro hgroup
      obtain ⟨k, hk, rfl⟩ := hgroup
      obtain ⟨row, hrow, rfl⟩ := (hmem k).mp hk
      exact ⟨row, hrow, fullKey_eq row⟩
    · intro hrow
      obtain ⟨row, hrow, rfl⟩ := hrow
      exact ⟨csv.keyOf row, (hmem _).mpr ⟨row, hrow, rfl⟩, (fullKey_eq row).symm⟩
  · rw [List.forall₂_map_left_iff] at hlines ⊢
    have hall : ∀ k ∈ ks, ∀ line, csv.outRow N (csv.groupOf k) = some line →
        (k.map (·.getD "") ++ [toString (csv.rowsOf (k.map (·.getD ""))).length]) <+: line := by
      intro k hk line hline
      obtain ⟨row, hrow, rfl⟩ := (hmem k).mp hk
      rw [← fullKey_eq, rowsOf_fullKey heven hrow, fullKey_eq]
      exact (outRow_spec _).1 line hline
    have hboth := (List.forall₂_and_left _ _).mpr ⟨fun k (hk : k ∈ ks) => hk, hlines⟩
    exact hboth.imp fun k line h => hall k h.1 line h.2

/-- **`aggregate` copes with the rows of a file iff there is nothing to write, or no two rows
clash and no statistics raise.** -/
theorem copes_iff (csv : Csv) (N : Numbers) :
    csv.Copes (csv.aggregate N) ↔
      csv.read = [] ∨ csv.metricCols = [] ∨ csv.Even ∧ csv.Computable N := by
  by_cases hread : csv.read = []
  · refine iff_of_true ?_ (.inl hread)
    rw [aggregate, if_pos hread]
    exact ⟨nofun, .inl ⟨.inl hread, rfl⟩⟩
  by_cases hcols : csv.metricCols = []
  · refine iff_of_true ?_ (.inr (.inl hcols))
    rw [aggregate, if_neg hread, if_pos hcols]
    exact ⟨nofun, .inl ⟨.inr hcols, rfl⟩⟩
  simp only [hread, hcols, false_or]
  rw [aggregate, if_neg hread, if_neg hcols]
  cases hsort : csv.sortedGroups with
  | none =>
      refine iff_of_false (fun h => h.returns rfl) fun h => ?_
      obtain ⟨gs, hgs⟩ := sortedGroups_isSome_iff.mpr h.1
      rw [hsort] at hgs
      cases hgs
  | some gs =>
      have heven := sortedGroups_isSome_iff.mp ⟨gs, hsort⟩
      obtain ⟨ks, hks, hmem, rfl⟩ := sortedGroups_eq_some hsort
      have hraise := exists_outRow_none_iff (N := N) heven hmem
      rcases emit_cases (N := N) (ks.map csv.groupOf) [csv.outCols] [] with
        ⟨lines, hlines, hemit⟩ | ⟨hnone, hemit⟩
      · refine iff_of_true ?_ ⟨heven, ?_⟩
        · change csv.Copes (csv.emit N (ks.map csv.groupOf) [csv.outCols] [])
          rw [hemit]
          exact ⟨nofun, .inr ⟨lines, rfl, lines_spec heven hks hmem hlines⟩⟩
        · by_contra hcomp
          obtain ⟨g, hg, hnone⟩ := hraise.mpr hcomp
          have hsome := (List.forall₂_and_left (p := fun g => csv.outRow N g ≠ none) _ _).mp
            (hlines.imp fun g row hrow => ⟨by rw [hrow]; exact nofun, hrow⟩)
          exact hsome.1 g hg hnone
      · exact iff_of_false (fun h => h.returns hemit) fun h => hraise.mp hnone h.2

/-- A trial that was cut short, and a complete one of the same lock. -/
def cutShort : Csv where
  fieldnames := ["lock", "dist", "ops_s"]
  rows := [["tas"], ["tas", "uniform", "10"]]
  distinct := by decide

/-- The call raises on `("tas", None) < ("tas", "uniform")`, and what the output file held is
gone but for the line of columns. -/
theorem not_copes_cutShort :
    (cutShort.aggregate rationals.numbers).returns = none ∧
      (cutShort.aggregate rationals.numbers).file = some [cutShort.outCols] ∧
      ¬∀ (csv : Csv) (N : Numbers), csv.Copes (csv.aggregate N) := by
  have hraise : cutShort.aggregate rationals.numbers = ⟨none, some [cutShort.outCols], []⟩ := by
    have hsort : cutShort.sortedGroups = none := by decide
    rw [aggregate, if_neg (by decide), if_neg (by decide), hsort]
  refine ⟨by rw [hraise], by rw [hraise], fun h => ?_⟩
  exact (h cutShort rationals.numbers).returns (by rw [hraise])

end Csv

end AggregateRows
