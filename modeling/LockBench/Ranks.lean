import Mathlib

/-!
# Ranks within a class

The elements of a strictly increasing list fall into classes by a monotone key.  The
rank of an element is the number of smaller elements of its class, and level `k` of the
list is what has rank `k`.  Putting the levels one after the other is a permutation of
the list, ordered by rank first and by key second.
-/

namespace Ranks

variable {α κ : Type} [LinearOrder α] [LinearOrder κ] (key : α → κ)

/-- The number of smaller elements of the same class. -/
def rank (l : List α) (x : α) : Nat :=
  l.countP fun y => key y = key x ∧ y < x

/-- The elements of rank `k`. -/
def level (l : List α) (k : Nat) : List α :=
  l.filter fun x => rank key l x = k

/-- The first `n` levels in turn. -/
def levels (l : List α) (n : Nat) : List α :=
  (List.range n).flatMap (level key l)

variable {key}

theorem mem_level {l : List α} {k : Nat} {x : α} :
    x ∈ level key l k ↔ x ∈ l ∧ rank key l x = k := by
  simp [level]

theorem mem_levels {l : List α} {n : Nat} {x : α} :
    x ∈ levels key l n ↔ x ∈ l ∧ rank key l x < n := by
  simp only [levels, List.mem_flatMap, List.mem_range, mem_level]
  exact ⟨fun ⟨k, hk, hx, hr⟩ => ⟨hx, hr ▸ hk⟩, fun ⟨hx, hr⟩ => ⟨_, hr, hx, rfl⟩⟩

theorem rank_perm {l l' : List α} (h : l.Perm l') (x : α) : rank key l x = rank key l' x :=
  h.countP_eq _

/-- A larger element at the end does not change the ranks of the others. -/
theorem rank_concat_of_lt {l : List α} {x y : α} (h : y < x) :
    rank key (l ++ [x]) y = rank key l y := by
  simp [rank, h.not_gt]

/-- The rank of the last element is the size of its class so far. -/
theorem rank_concat_self {l : List α} {x : α} (h : ∀ y ∈ l, y < x) :
    rank key (l ++ [x]) x = l.countP fun y => key y = key x := by
  simp only [rank, List.countP_append, List.countP_singleton, lt_irrefl, and_false, decide_false,
    Bool.false_eq_true, if_false, Nat.add_zero]
  refine List.countP_congr fun y hy => ?_
  simp [h y hy]

/-- One more element goes to the end of one level. -/
theorem level_concat {l : List α} {x : α} (h : ∀ y ∈ l, y < x) (k : Nat) :
    level key (l ++ [x]) k =
      level key l k ++ if (l.countP fun y => key y = key x) = k then [x] else [] := by
  simp only [level, List.filter_append]
  congr 1
  · refine List.filter_congr fun y hy => ?_
    rw [rank_concat_of_lt (h y hy)]
  · rw [List.filter_singleton, rank_concat_self h]
    simp

/-- Of two elements of one class the smaller one has the smaller rank. -/
theorem rank_lt_rank {l : List α} {x y : α} (hx : x ∈ l) (hkey : key x = key y) (hlt : x < y) :
    rank key l x < rank key l y := by
  have hsub : ∀ l' : List α, rank key l' x ≤ rank key l' y := by
    refine fun l' => List.countP_mono_left fun z _ hz => ?_
    obtain ⟨hk, hz⟩ := of_decide_eq_true hz
    exact decide_eq_true ⟨hk.trans hkey, hz.trans hlt⟩
  obtain ⟨s, t, rfl⟩ := List.append_of_mem hx
  have hs := hsub s
  have ht := hsub t
  simp only [rank, List.countP_append, List.countP_cons, lt_irrefl, hkey, hlt] at hs ht ⊢
  simp only [and_false, and_true, decide_false, decide_true, Bool.false_eq_true, if_false, if_true]
  omega

/-- A rank is smaller than the size of the class. -/
theorem rank_lt_countP {l : List α} {x : α} (hx : x ∈ l) :
    rank key l x < l.countP fun y => key y = key x := by
  have hsub : ∀ l' : List α, rank key l' x ≤ l'.countP fun y => key y = key x := by
    refine fun l' => List.countP_mono_left fun z _ hz => ?_
    exact decide_eq_true (of_decide_eq_true hz).1
  obtain ⟨s, t, rfl⟩ := List.append_of_mem hx
  have hs := hsub s
  have ht := hsub t
  simp only [rank, List.countP_append, List.countP_cons, lt_irrefl] at hs ht ⊢
  simp only [and_false, decide_false, decide_true, Bool.false_eq_true, if_false, if_true]
  omega

theorem eq_of_rank_eq {l : List α} {x y : α} (hx : x ∈ l) (hy : y ∈ l) (hkey : key x = key y)
    (hrank : rank key l x = rank key l y) : x = y := by
  rcases lt_trichotomy x y with hlt | heq | hgt
  · exact absurd hrank (rank_lt_rank hx hkey hlt).ne
  · exact heq
  · exact absurd hrank.symm (rank_lt_rank hy hkey.symm hgt).ne

/-- **The levels are the list in another order.** -/
theorem levels_perm {l : List α} (hnodup : l.Nodup) {n : Nat} (hn : ∀ x ∈ l, rank key l x < n) :
    (levels key l n).Perm l := by
  refine (List.perm_ext_iff_of_nodup ?_ hnodup).mpr fun x => ?_
  · refine List.nodup_flatMap.mpr ⟨fun k _ => hnodup.filter _, ?_⟩
    refine List.nodup_range.imp fun {j k} hjk x hj hk => ?_
    exact hjk ((mem_level.mp hj).2.symm.trans (mem_level.mp hk).2)
  · rw [mem_levels]
    exact ⟨fun h => h.1, fun h => ⟨h, hn x h⟩⟩

/-- Within a level the classes ascend. -/
theorem level_pairwise (hmono : Monotone key) {l : List α} (hsorted : l.Pairwise (· < ·)) (k : Nat) :
    (level key l k).Pairwise fun x y => key x < key y := by
  refine ((List.pairwise_filter.mpr ?_))
  refine hsorted.imp_of_mem fun {x y} hx hy hlt hrx hry => ?_
  refine lt_of_le_of_ne (hmono hlt.le) fun hkey => hlt.ne ?_
  exact eq_of_rank_eq hx hy hkey ((of_decide_eq_true hrx).trans (of_decide_eq_true hry).symm)

/-- **The levels are ordered by rank, and by class within a rank.** -/
theorem levels_pairwise (hmono : Monotone key) {l : List α} (hsorted : l.Pairwise (· < ·)) (n : Nat) :
    (levels key l n).Pairwise fun x y =>
      rank key l x < rank key l y ∨ rank key l x = rank key l y ∧ key x < key y := by
  refine List.pairwise_flatMap.mpr ⟨fun k _ => ?_, ?_⟩
  · refine (level_pairwise hmono hsorted k).imp_of_mem fun {x y} hx hy hlt => .inr ⟨?_, hlt⟩
    rw [(mem_level.mp hx).2, (mem_level.mp hy).2]
  · refine List.pairwise_lt_range.imp fun {j k} hjk x hx y hy => .inl ?_
    rwa [(mem_level.mp hx).2, (mem_level.mp hy).2]

/-- Every class has an element of rank 0. -/
theorem exists_rank_zero {l : List α} {x : α} (hx : x ∈ l) :
    ∃ y ∈ level key l 0, key y = key x := by
  obtain ⟨y, hy, hmin⟩ := (l.toFinset.filter fun y => key y = key x).exists_min_image id
    ⟨x, by simp [hx]⟩
  simp only [Finset.mem_filter, List.mem_toFinset, id_eq] at hy hmin
  refine ⟨y, mem_level.mpr ⟨hy.1, List.countP_eq_zero.mpr fun z hz hlt => ?_⟩, hy.2⟩
  obtain ⟨hkey, hlt⟩ := of_decide_eq_true hlt
  exact absurd (hmin z ⟨hz, hkey.trans hy.2⟩) hlt.not_ge

end Ranks
