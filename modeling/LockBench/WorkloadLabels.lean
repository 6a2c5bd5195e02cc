import Mathlib

/-!
# Workloads by name

Three scripts name the workload of a result row: `workload` of `plot_cross_arch.py` and of
`plot_wormhole.py`, and `workload_tag` of `build_index_lock_evaluation.py`.  Each has special
cases in front of a formatted text.  The text determines the row, so the tags of the
evaluation tell all workloads apart; the special cases of the plotting scripts go by the
percentages alone and name a distribution all the same.
-/

namespace WorkloadLabels

/-- The columns that a label is made of. -/
structure Row where
  dist : String
  readPct : Int
  insertPct : Int
  deriving DecidableEq

/-- The formatted text, `f"{dist} {rd}/{ins}/{100-rd-ins}"` with two separators. -/
def Row.text (sep₁ sep₂ : Char) (row : Row) : String :=
  (((row.dist.push sep₁ ++ toString row.readPct).push sep₂ ++ toString row.insertPct).push sep₂) ++
    toString (100 - row.readPct - row.insertPct)

/-- `workload` of the two plotting scripts, which differ in their texts only. -/
def workload (sep₁ sep₂ : Char) (balanced readHeavy writeHeavy : String) (row : Row) : String :=
  if row.readPct = 80 ∧ row.insertPct = 10 then row.dist ++ balanced
  else if row.readPct = 90 ∧ row.insertPct = 5 then readHeavy
  else if row.readPct = 20 ∧ row.insertPct = 40 then writeHeavy
  else row.text sep₁ sep₂

/-- `plot_cross_arch.workload`. -/
def plotCrossArchWorkload : Row → String :=
  workload '_' '_' "_80_10_10" "uniform_90_5_5_read_heavy" "zipfian_20_40_40_write_heavy"

/-- `plot_wormhole.workload`. -/
def plotWormholeWorkload : Row → String :=
  workload ' ' '/' " 80/10/10" "uniform 90/5/5 read-heavy" "zipfian 20/40/40 write-heavy"

/-- `WORKLOAD_TAGS`. -/
def workloadTags : List (Row × String) :=
  [(⟨"uniform", 80, 10⟩, "uniform 80/10/10"), (⟨"uniform", 90, 5⟩, "uniform 90/5/5 read heavy"),
    (⟨"zipfian", 80, 10⟩, "zipfian 80/10/10"),
    (⟨"zipfian", 20, 40⟩, "zipfian 20/40/40 write heavy")]

/-- `build_index_lock_evaluation.workload_tag`. -/
def workloadTag (row : Row) : String :=
  (workloadTags.lookup row).getD (row.text ' ' '/')

/-! ## The text determines the row -/

/-- What follows the last separator, and what comes before it. -/
theorem append_cons_inj {α : Type} {c : α} {a b x y : List α} (hx : c ∉ x) (hy : c ∉ y)
    (h : a ++ c :: x = b ++ c :: y) : a = b ∧ x = y := by
  rcases List.append_eq_append_iff.mp h with ⟨t, rfl, ht⟩ | ⟨t, rfl, ht⟩
  · cases t with
    | nil => exact ⟨(List.append_nil a).symm, (List.cons.inj ht).2⟩
    | cons d t =>
        have hmem : x = t ++ c :: y := (List.cons.inj ht).2
        exact absurd (hmem ▸ List.mem_append_right t (List.mem_cons_self ..)) hx
  · cases t with
    | nil => exact ⟨List.append_nil b, (List.cons.inj ht).2.symm⟩
    | cons d t =>
        have hmem : y = t ++ c :: x := (List.cons.inj ht).2
        exact absurd (hmem ▸ List.mem_append_right t (List.mem_cons_self ..)) hy

/-- A number is written with digits and a sign. -/
theorem mem_toString {i : Int} {c : Char} (h : c ∈ (toString i).toList) : c.isDigit ∨ c = '-' := by
  have hdigits : ∀ {n : Nat}, c ∈ n.repr.toList → c.isDigit := by
    intro n hn
    rw [Nat.repr_eq_ofList_toDigits, String.toList_ofList] at hn
    exact Nat.isDigit_of_mem_toDigits (by decide) (by decide) hn
  rw [Int.toString_eq_repr, Int.repr_eq_if] at h
  split at h
  · exact .inl (hdigits h)
  · rw [String.toList_append, List.mem_append] at h
    rcases h with h | h
    · exact .inr (List.mem_singleton.mp h)
    · exact .inl (hdigits h)

/-- A character that no number is written with. -/
def Apart (c : Char) : Prop :=
  c.isDigit = false ∧ c ≠ '-'

instance (c : Char) : Decidable (Apart c) :=
  inferInstanceAs (Decidable (c.isDigit = false ∧ c ≠ '-'))

theorem Apart.not_mem {c : Char} (h : Apart c) (i : Int) : c ∉ (toString i).toList := by
  intro hmem
  rcases mem_toString hmem with hd | hd
  · rw [h.1] at hd
    cases hd
  · exact h.2 hd

theorem toList_text (sep₁ sep₂ : Char) (row : Row) :
    (row.text sep₁ sep₂).toList = (((row.dist.toList ++ sep₁ :: (toString row.readPct).toList) ++
      sep₂ :: (toString row.insertPct).toList) ++
      sep₂ :: (toString (100 - row.readPct - row.insertPct)).toList) := by
  simp only [Row.text, String.toList_append, String.toList_push, List.append_assoc,
    List.singleton_append]

theorem toString_inj {i j : Int} (h : (toString i).toList = (toString j).toList) : i = j :=
  Int.repr_injective (String.toList_inj.mp h)

/-- **The text determines the row.** -/
theorem text_inj {sep₁ sep₂ : Char} (h₁ : Apart sep₁) (h₂ : Apart sep₂) {r s : Row}
    (h : r.text sep₁ sep₂ = s.text sep₁ sep₂) : r = s := by
  have hlist := congrArg String.toList h
  rw [toList_text, toList_text] at hlist
  obtain ⟨hlist, -⟩ := append_cons_inj (h₂.not_mem _) (h₂.not_mem _) hlist
  obtain ⟨hlist, hins⟩ := append_cons_inj (h₂.not_mem _) (h₂.not_mem _) hlist
  obtain ⟨hdist, hread⟩ := append_cons_inj (h₁.not_mem _) (h₁.not_mem _) hlist
  obtain ⟨_, _, _⟩ := r
  obtain ⟨_, _, _⟩ := s
  cases String.toList_inj.mp hdist
  cases toString_inj hread
  cases toString_inj hins
  rfl

/-- A label whose last part is not a number is no text. -/
theorem text_ne {sep₁ sep₂ : Char} (h₂ : Apart sep₂) {label : String} {a x : List Char}
    (hlabel : label.toList = a ++ sep₂ :: x) (hx : sep₂ ∉ x) {c : Char} (hc : Apart c) (hmem : c ∈ x)
    (row : Row) : row.text sep₁ sep₂ ≠ label := by
  intro h
  have hlist := congrArg String.toList h
  rw [toList_text, hlabel] at hlist
  obtain ⟨-, hlast⟩ := append_cons_inj (h₂.not_mem _) hx hlist
  exact hc.not_mem _ (hlast ▸ hmem)

/-! ## Which rows share a label -/

/-- The mixes that the plotting scripts name by their percentages alone. -/
def Row.Special (row : Row) : Prop :=
  (row.readPct = 90 ∧ row.insertPct = 5) ∨ (row.readPct = 20 ∧ row.insertPct = 40)

/-- The rows have the same percentages. -/
def Row.SameMix (r s : Row) : Prop :=
  r.readPct = s.readPct ∧ r.insertPct = s.insertPct

theorem Row.eq_iff {r s : Row} : r = s ↔ r.SameMix s ∧ r.dist = s.dist := by
  obtain ⟨_, _, _⟩ := r
  obtain ⟨_, _, _⟩ := s
  simp only [Row.mk.injEq, Row.SameMix]
  tauto

section

variable {sep₁ sep₂ : Char} {balanced readHeavy writeHeavy : String}

/-- The first special case is the text. -/
theorem workload_eq (hbalanced : balanced.toList = sep₁ :: '8' :: '0' :: sep₂ :: '1' :: '0' :: sep₂ ::
      '1' :: '0' :: []) (row : Row) :
    workload sep₁ sep₂ balanced readHeavy writeHeavy row =
      if row.readPct = 90 ∧ row.insertPct = 5 then readHeavy
      else if row.readPct = 20 ∧ row.insertPct = 40 then writeHeavy else row.text sep₁ sep₂ := by
  unfold workload
  split
  next h =>
    rw [if_neg (by omega), if_neg (by omega), ← String.toList_inj, toList_text, String.toList_append,
      hbalanced, h.1, h.2]
    simp only [List.append_assoc, List.cons_append]
    rfl
  next => rfl

/-- **Rows with a label in common**: the same mix, and the same distribution unless the mix
has a name of its own. -/
theorem workload_eq_iff (h₁ : Apart sep₁) (h₂ : Apart sep₂)
    (hbalanced : balanced.toList = sep₁ :: '8' :: '0' :: sep₂ :: '1' :: '0' :: sep₂ :: '1' :: '0' :: [])
    (hread : ∀ row : Row, row.text sep₁ sep₂ ≠ readHeavy)
    (hwrite : ∀ row : Row, row.text sep₁ sep₂ ≠ writeHeavy) (hne : readHeavy ≠ writeHeavy) (r s : Row) :
    workload sep₁ sep₂ balanced readHeavy writeHeavy r =
        workload sep₁ sep₂ balanced readHeavy writeHeavy s ↔
      r.SameMix s ∧ (r.Special ∨ r.dist = s.dist) := by
  rw [workload_eq hbalanced, workload_eq hbalanced]
  unfold Row.SameMix Row.Special
  by_cases hr : r.readPct = 90 ∧ r.insertPct = 5
  · by_cases hs : s.readPct = 90 ∧ s.insertPct = 5
    · rw [if_pos hr, if_pos hs]
      exact iff_of_true rfl ⟨⟨hr.1.trans hs.1.symm, hr.2.trans hs.2.symm⟩, .inl (.inl hr)⟩
    · rw [if_pos hr, if_neg hs]
      refine iff_of_false ?_ (by omega)
      split
      · exact hne
      · exact (hread s).symm
  · by_cases hr' : r.readPct = 20 ∧ r.insertPct = 40
    · by_cases hs : s.readPct = 90 ∧ s.insertPct = 5
      · rw [if_neg hr, if_pos hr', if_pos hs]
        exact iff_of_false hne.symm (by omega)
      · by_cases hs' : s.readPct = 20 ∧ s.insertPct = 40
        · rw [if_neg hr, if_neg hs, if_pos hr', if_pos hs']
          exact iff_of_true rfl
            ⟨⟨hr'.1.trans hs'.1.symm, hr'.2.trans hs'.2.symm⟩, .inl (.inr hr')⟩
        · rw [if_neg hr, if_pos hr', if_neg hs, if_neg hs']
          exact iff_of_false (hwrite s).symm (by omega)
    · rw [if_neg hr, if_neg hr']
      constructor
      · intro h
        split at h
        · exact absurd h (hread r)
        · split at h
          · exact absurd h (hwrite r)
          · obtain ⟨hmix, hdist⟩ := Row.eq_iff.mp (text_inj h₁ h₂ h)
            exact ⟨hmix, .inr hdist⟩
      · rintro ⟨hmix, hspecial⟩
        have hdist : r.dist = s.dist := hspecial.resolve_left (by tauto)
        cases Row.eq_iff.mpr ⟨hmix, hdist⟩
        rw [if_neg hr, if_neg hr']

end

theorem plotCrossArchWorkload_eq_iff (r s : Row) :
    plotCrossArchWorkload r = plotCrossArchWorkload s ↔
      r.SameMix s ∧ (r.Special ∨ r.dist = s.dist) :=
  workload_eq_iff (by decide) (by decide) (by decide)
    (text_ne (by decide) (a := "uniform_90_5_5_read".toList) (x := "heavy".toList) (by decide)
      (by decide) (c := 'h') (by decide) (by decide))
    (text_ne (by decide) (a := "zipfian_20_40_40_write".toList) (x := "heavy".toList) (by decide)
      (by decide) (c := 'h') (by decide) (by decide))
    (by decide) r s

theorem plotWormholeWorkload_eq_iff (r s : Row) :
    plotWormholeWorkload r = plotWormholeWorkload s ↔
      r.SameMix s ∧ (r.Special ∨ r.dist = s.dist) :=
  workload_eq_iff (by decide) (by decide) (by decide)
    (text_ne (by decide) (a := "uniform 90/5".toList) (x := "5 read-heavy".toList) (by decide)
      (by decide) (c := 'h') (by decide) (by decide))
    (text_ne (by decide) (a := "zipfian 20/40".toList) (x := "40 write-heavy".toList) (by decide)
      (by decide) (c := 'h') (by decide) (by decide))
    (by decide) r s

/-! ## The tags of the evaluation -/

/-- Two of the tags are the text. -/
theorem workloadTag_eq (row : Row) :
    workloadTag row = if row = ⟨"uniform", 90, 5⟩ then "uniform 90/5/5 read heavy"
      else if row = ⟨"zipfian", 20, 40⟩ then "zipfian 20/40/40 write heavy" else row.text ' ' '/' := by
  unfold workloadTag workloadTags
  by_cases h₁ : row = ⟨"uniform", 80, 10⟩
  · subst h₁
    decide
  · by_cases h₂ : row = ⟨"uniform", 90, 5⟩
    · subst h₂
      decide
    · by_cases h₃ : row = ⟨"zipfian", 80, 10⟩
      · subst h₃
        decide
      · by_cases h₄ : row = ⟨"zipfian", 20, 40⟩
        · subst h₄
          decide
        · simp only [List.lookup, beq_false_of_ne h₁, beq_false_of_ne h₂, beq_false_of_ne h₃,
            beq_false_of_ne h₄, Option.getD_none, if_neg h₂, if_neg h₄]

/-- **The tags tell all workloads apart.** -/
theorem workloadTag_injective : Function.Injective workloadTag := by
  have hread : ∀ row : Row, row.text ' ' '/' ≠ "uniform 90/5/5 read heavy" :=
    text_ne (by decide) (a := "uniform 90/5".toList) (x := "5 read heavy".toList) (by decide)
      (by decide) (c := 'h') (by decide) (by decide)
  have hwrite : ∀ row : Row, row.text ' ' '/' ≠ "zipfian 20/40/40 write heavy" :=
    text_ne (by decide) (a := "zipfian 20/40".toList) (x := "40 write heavy".toList) (by decide)
      (by decide) (c := 'h') (by decide) (by decide)
  intro r s h
  rw [workloadTag_eq, workloadTag_eq] at h
  split at h
  next hr =>
    split at h
    next hs => exact hr.trans hs.symm
    next =>
      split at h
      · exact absurd h (by decide)
      · exact absurd h.symm (hread s)
  next =>
    split at h
    next hr =>
      split at h
      · exact absurd h (by decide)
      · split at h
        next hs => exact hr.trans hs.symm
        next => exact absurd h.symm (hwrite s)
    next =>
      split at h
      · exact absurd h (hread r)
      · split at h
        · exact absurd h (hwrite r)
        · exact text_inj (by decide) (by decide) h

/-! ## One partition -/

/-- The three scripts put two rows together or keep them apart alike, and none puts
together two distributions. -/
structure SamePartition (r s : Row) : Prop where
  plots : plotCrossArchWorkload r = plotCrossArchWorkload s ↔
    plotWormholeWorkload r = plotWormholeWorkload s
  evaluation : plotWormholeWorkload r = plotWormholeWorkload s ↔ workloadTag r = workloadTag s
  dist : plotCrossArchWorkload r = plotCrossArchWorkload s ∨
    plotWormholeWorkload r = plotWormholeWorkload s ∨ workloadTag r = workloadTag s → r.dist = s.dist

/-- **The scripts agree on two rows unless these differ only in the distribution and have a
mix that the plotting scripts name.** -/
theorem samePartition_iff (r s : Row) :
    SamePartition r s ↔ ¬(r.SameMix s ∧ r.Special ∧ r.dist ≠ s.dist) := by
  have htag : workloadTag r = workloadTag s ↔ r.SameMix s ∧ r.dist = s.dist :=
    workloadTag_injective.eq_iff.trans Row.eq_iff
  constructor
  · rintro ⟨-, heval, -⟩ ⟨hmix, hspecial, hdist⟩
    rw [plotWormholeWorkload_eq_iff, htag] at heval
    exact hdist (heval.mp ⟨hmix, .inl hspecial⟩).2
  · intro h
    have hplot : r.SameMix s ∧ (r.Special ∨ r.dist = s.dist) ↔ r.SameMix s ∧ r.dist = s.dist :=
      ⟨fun ⟨hmix, hor⟩ => ⟨hmix, hor.elim (fun hsp => by_contra fun hne => h ⟨hmix, hsp, hne⟩) id⟩,
        fun ⟨hmix, hdist⟩ => ⟨hmix, .inr hdist⟩⟩
    refine ⟨?_, ?_, ?_⟩
    · rw [plotCrossArchWorkload_eq_iff, plotWormholeWorkload_eq_iff]
    · rw [plotWormholeWorkload_eq_iff, htag, hplot]
    · rw [plotCrossArchWorkload_eq_iff, plotWormholeWorkload_eq_iff, htag, hplot, or_self, or_self]
      exact And.right

/-- The sweep runs the mix 90/5 with both distributions. -/
theorem read_heavy_merged : ¬∀ r s : Row, SamePartition r s := by
  intro h
  have hsame : plotCrossArchWorkload ⟨"uniform", 90, 5⟩ = plotCrossArchWorkload ⟨"zipfian", 90, 5⟩ := by
    decide
  exact absurd ((h _ _).dist (.inl hsame)) (by decide)

end WorkloadLabels
