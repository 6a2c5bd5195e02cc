import Mathlib

/-!
# Grouping rows by a key

The dictionary that `groups.setdefault(key, []).append(row)` builds: the keys in the order in
which they come up, each with its rows in their order.
-/

namespace Grouping

variable {κ ρ : Type} [DecidableEq κ]

/-- Append a row to the group of its key. -/
def addToGroup (key : κ) (row : ρ) : List (κ × List ρ) → List (κ × List ρ)
  | [] => [(key, [row])]
  | (k, rows) :: groups =>
      if k = key then (k, rows ++ [row]) :: groups else (k, rows) :: addToGroup key row groups

/-- The groups of some rows. -/
def groupBy (key : ρ → κ) (rows : List ρ) : List (κ × List ρ) :=
  rows.foldl (fun groups row => addToGroup (key row) row groups) []

theorem groupBy_concat (key : ρ → κ) (rows : List ρ) (row : ρ) :
    groupBy key (rows ++ [row]) = addToGroup (key row) row (groupBy key rows) := by
  simp [groupBy]

/-- Adding a row to groups that are given by a function of the key. -/
theorem addToGroup_map {ks : List κ} (hnodup : ks.Nodup) (f : κ → List ρ) (k : κ) (row : ρ) :
    addToGroup k row (ks.map fun k' => (k', f k')) =
      if k ∈ ks then ks.map fun k' => (k', if k' = k then f k' ++ [row] else f k')
      else ks.map (fun k' => (k', f k')) ++ [(k, [row])] := by
  induction ks with
  | nil => rfl
  | cons k' ks ih =>
      obtain ⟨hnot, hks⟩ := List.nodup_cons.mp hnodup
      by_cases hk : k' = k
      · subst hk
        have hrest : ks.map (fun k => (k, if k = k' then f k ++ [row] else f k)) =
            ks.map fun k => (k, f k) := by
          refine List.map_congr_left fun k hmem => ?_
          rw [if_neg (by rintro rfl; exact hnot hmem)]
        simp only [List.map_cons, addToGroup, if_true, List.mem_cons, true_or, hrest]
      · simp only [List.map_cons, addToGroup, if_neg hk, ih hks, List.mem_cons, Ne.symm hk, false_or]
        split <;> rfl

/-- **The groups are the keys that occur, each with its rows in their order.** -/
theorem groupBy_eq (key : ρ → κ) (rows : List ρ) :
    ∃ ks : List κ, ks.Nodup ∧ (∀ k, k ∈ ks ↔ ∃ row ∈ rows, key row = k) ∧
      groupBy key rows = ks.map fun k => (k, rows.filter fun row => key row = k) := by
  induction rows using List.reverseRecOn with
  | nil => exact ⟨[], .nil, by simp, rfl⟩
  | append_singleton rows row ih =>
      obtain ⟨ks, hnodup, hmem, heq⟩ := ih
      have hfilter : ∀ k, (rows ++ [row]).filter (fun row => key row = k) =
          rows.filter (fun row => key row = k) ++ if key row = k then [row] else [] := fun k => by
        simp [List.filter_append, List.filter_singleton]
      have hocc : ∀ k, (∃ r ∈ rows ++ [row], key r = k) ↔ k ∈ ks ∨ key row = k := fun k => by
        simp only [List.mem_append, List.mem_singleton, or_and_right, exists_or, hmem,
          exists_eq_left]
      rw [groupBy_concat, heq, addToGroup_map hnodup]
      by_cases hk : key row ∈ ks
      · refine ⟨ks, hnodup, fun k => ?_, ?_⟩
        · rw [hocc]
          exact ⟨.inl, fun h => h.elim id fun h => h ▸ hk⟩
        · rw [if_pos hk]
          refine List.map_congr_left fun k _ => ?_
          rw [hfilter]
          by_cases heq : k = key row
          · rw [if_pos heq, if_pos heq.symm]
          · rw [if_neg heq, if_neg (Ne.symm heq), List.append_nil]
      · refine ⟨ks ++ [key row], ?_, fun k => ?_, ?_⟩
        · exact List.nodup_append.mpr ⟨hnodup, List.nodup_singleton _, fun a ha b hb hab =>
            hk (List.mem_singleton.mp hb ▸ hab ▸ ha)⟩
        · rw [hocc, List.mem_append, List.mem_singleton, eq_comm (a := k)]
        · have hnone : rows.filter (fun r => key r = key row) = [] :=
            List.filter_eq_nil_iff.mpr fun r hr h =>
              hk ((hmem _).mpr ⟨r, hr, of_decide_eq_true h⟩)
          rw [if_neg hk, List.map_append, List.map_singleton, hfilter, hnone, if_pos rfl]
          congr 1
          refine List.map_congr_left fun k hmem => ?_
          rw [hfilter, if_neg (by rintro rfl; exact hk hmem), List.append_nil]

end Grouping
