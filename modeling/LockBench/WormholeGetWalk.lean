import LockBench.WormholeGet

/-!
# The walk of the optimistic `wormhole_get`

The walk probes the entry at which the key's partial hash would stand, and from there goes left
and right as far as the order of the entries lets it.  Over entries that are in order and stay
as they are it finds the key's entry, or rules all entries out.
-/

namespace WormholeGet

section

variable {K V : Type} [DecidableEq K]

/-! ## Entries in order -/

omit [DecidableEq K] in
/-- The first probe is of an entry of the leaf. -/
theorem home_lt (P : Params K V) (k : K) : home P k < kpn := by
  have hlt := P.pkey_lt k
  simp only [home, hdiv, kpn]
  omega

/-- An entry for the key has its partial hash. -/
theorem hit_e1 {P : Params K V} {k : K} {e : Entry V} {v : V} (h : hit P k e = some v) :
    e.e1 = P.pkey k := by
  by_contra hne
  simp [hit, hne] at h

/-- The partial hash of the key is not zero, and the walk begins at it. -/
theorem e1_of_hit {P : Params K V} {k : K} {hs : Nat → Entry V} {j : Nat}
    (h : hit P k (hs j) ≠ none) :
    (hs j).e1 = P.pkey k ∧ (hs j).e1 ≠ 0 ∧ (hs j).e1 / hdiv = home P k := by
  obtain ⟨v, hv⟩ := Option.ne_none_iff_exists'.mp h
  have he := hit_e1 hv
  have hpos := P.pkey_pos k
  exact ⟨he, by omega, by rw [he]; rfl⟩

/-- An empty first entry: the key is nowhere. -/
theorem HsOk.none_of_empty {P : Params K V} {k : K} {hs : Nat → Entry V} (h : HsOk hs)
    (hempty : (hs (home P k)).e1 = 0) : ∀ j < kpn, hit P k (hs j) = none := by
  intro j hj
  by_contra hne
  obtain ⟨-, hpos, hhome⟩ := e1_of_hit hne
  rcases le_total j (home P k) with hle | hle
  · exact h.leftward j _ hj hpos hle (by rw [hhome]) hempty
  · exact h.rightward j _ hj hpos (by rw [hhome]) hle hempty

/-- Where the loop to the left breaks off, there is nothing further left. -/
theorem HsOk.none_left {P : Params K V} {k : K} {hs : Nat → Entry V} (h : HsOk hs) {i : Nat}
    (hi : i < home P k) (hlt : (hs i).e1 < P.pkey k) : ∀ j ≤ i, hit P k (hs j) = none := by
  intro j hj
  by_contra hne
  obtain ⟨he, hpos, hhome⟩ := e1_of_hit hne
  have hik := hi.trans (home_lt P k)
  rcases Nat.lt_or_eq_of_le hj with hji | rfl
  · have hocc := h.leftward j i (hji.trans hik) hpos hj (by rw [hhome]; exact hi.le)
    have hsorted := h.sorted j i hji hik hpos hocc
    omega
  · omega

/-- Where the loop to the right breaks off, there is nothing further right. -/
theorem HsOk.none_right {P : Params K V} {k : K} {hs : Nat → Entry V} (h : HsOk hs) {i : Nat}
    (hi : home P k < i) (hgt : P.pkey k < (hs i).e1 ∨ (hs i).e1 = 0) :
    ∀ j < kpn, i ≤ j → hit P k (hs j) = none := by
  intro j hj hij
  by_contra hne
  obtain ⟨he, hpos, hhome⟩ := e1_of_hit hne
  have hocc := h.rightward j i hj hpos (by rw [hhome]; exact hi.le) hij
  rcases Nat.lt_or_eq_of_le hij with hlt | rfl
  · have hsorted := h.sorted i j hlt hj hocc hpos
    omega
  · omega

/-! ## What the walk has found out -/

/-- What the walk knows at each of its points. -/
def WalkOk (P : Params K V) (hs : Nat → Entry V) : Pc K V → Prop
  | .left k _ _ _ i => i < home P k ∧ ∀ j, i < j → j ≤ home P k → hit P k (hs j) = none
  | .right k _ _ _ i => home P k < i ∧ i < kpn ∧ ∀ j < i, hit P k (hs j) = none
  | .getSeqEnd k _ _ _ r =>
      (∀ v, r = some v → Holds P hs k v) ∧ (r = none → ∀ j < kpn, hit P k (hs j) = none)
  | _ => True

/-- An entry for the key has been found. -/
theorem walkOk_found {P : Params K V} {hs : Nat → Entry V} {k : K} {h : Nat} {l : Leaf} {q i : Nat}
    {v : V} (hi : i < kpn) (hv : hit P k (hs i) = some v) :
    WalkOk P hs (.getSeqEnd k h l q (some v)) :=
  ⟨fun _ hw => Option.some.inj hw ▸ ⟨i, hi, hv⟩, nofun⟩

/-- No entry is one for the key. -/
theorem walkOk_none {P : Params K V} {hs : Nat → Entry V} {k : K} {h : Nat} {l : Leaf} {q : Nat}
    (hnone : ∀ j < kpn, hit P k (hs j) = none) : WalkOk P hs (.getSeqEnd k h l q none) :=
  ⟨nofun, fun _ => hnone⟩

/-- The loop to the right, when all entries before its index are ruled out. -/
theorem walkOk_goRight {P : Params K V} {hs : Nat → Entry V} {k : K} {h : Nat} {l : Leaf}
    {q i : Nat} (hi : home P k < i) (hnone : ∀ j < i, hit P k (hs j) = none) :
    WalkOk P hs (goRight k h l q i) := by
  unfold goRight
  split
  next hlt => exact ⟨hi, hlt, hnone⟩
  next hge => exact walkOk_none fun j hj => hnone j (hj.trans_le (not_lt.mp hge))

/-- The loop to the left, when all entries from `n` to the first probe are ruled out; its index
wraps around at the end of the leaf. -/
theorem walkOk_goLeft {P : Params K V} {hs : Nat → Entry V} {k : K} {h : Nat} {l : Leaf}
    {q n : Nat} (hn : n ≤ home P k) (hnone : ∀ j, n ≤ j → j ≤ home P k → hit P k (hs j) = none) :
    WalkOk P hs (goLeft P k h l q (pred32 n)) := by
  have hhome := home_lt P k
  unfold goLeft
  cases n with
  | zero =>
      rw [if_neg (by simp [pred32, kpn])]
      exact walkOk_goRight (Nat.lt_succ_self _) fun j hj =>
        hnone j (Nat.zero_le j) (Nat.lt_succ_iff.mp hj)
  | succ n =>
      have hpred : pred32 (n + 1) = n := rfl
      rw [hpred, if_pos (by omega)]
      exact ⟨hn, fun j hj => hnone j hj⟩

/-- The first probe. -/
theorem walkOk_probeNext {P : Params K V} {hs : Nat → Entry V} (hok : HsOk hs) (k : K) (h : Nat)
    (l : Leaf) (q : Nat) : WalkOk P hs (probeNext P k h l q (hs (home P k))) := by
  unfold probeNext
  split
  next v hv => exact walkOk_found (home_lt P k) hv
  next hmiss =>
    split
    next hempty => exact walkOk_none (hok.none_of_empty hempty)
    next =>
      refine walkOk_goLeft (n := home P k) le_rfl fun j hj hj' => ?_
      rw [le_antisymm hj' hj]
      exact hmiss

/-- The body of the loop to the left. -/
theorem walkOk_leftNext {P : Params K V} {hs : Nat → Entry V} (hok : HsOk hs) {k : K} {h : Nat}
    {l : Leaf} {q i : Nat} (hw : WalkOk P hs (.left k h l q i)) :
    WalkOk P hs (leftNext P k h l q i (hs i)) := by
  obtain ⟨hi, hnone⟩ := hw
  unfold leftNext
  split
  next v hv => exact walkOk_found (hi.trans (home_lt P k)) hv
  next hmiss =>
    split
    next hlt =>
      refine walkOk_goRight (Nat.lt_succ_self _) fun j hj => ?_
      rcases Nat.lt_or_ge i j with hij | hij
      · exact hnone j hij (Nat.lt_succ_iff.mp hj)
      · exact hok.none_left hi hlt j hij
    next =>
      refine walkOk_goLeft (n := i) hi.le fun j hj hj' => ?_
      rcases Nat.lt_or_eq_of_le hj with hij | rfl
      · exact hnone j hij hj'
      · exact hmiss

/-- The body of the loop to the right. -/
theorem walkOk_rightNext {P : Params K V} {hs : Nat → Entry V} (hok : HsOk hs) {k : K} {h : Nat}
    {l : Leaf} {q i : Nat} (hw : WalkOk P hs (.right k h l q i)) :
    WalkOk P hs (rightNext P k h l q i (hs i)) := by
  obtain ⟨hi, hlt, hnone⟩ := hw
  unfold rightNext
  split
  next v hv => exact walkOk_found hlt hv
  next hmiss =>
    split
    next hstop =>
      refine walkOk_none fun j hj => ?_
      rcases Nat.lt_or_ge j i with hji | hij
      · exact hnone j hji
      · exact hok.none_right hi hstop j hj hij
    next =>
      refine walkOk_goRight (Nat.lt_succ_of_lt hi) fun j hj => ?_
      rcases Nat.lt_succ_iff_lt_or_eq.mp hj with hji | rfl
      · exact hnone j hji
      · exact hmiss

/-! ## The points of the walk -/

/-- The point is one between the two loads of `occ_seq`. -/
def InWindow (k : K) (h : Nat) (l : Leaf) (q : Nat) (p : Pc K V) : Prop :=
  (∃ i, p = .left k h l q i) ∨ (∃ i, p = .right k h l q i) ∨ ∃ r, p = .getSeqEnd k h l q r

omit [DecidableEq K] in
/-- The loop to the right stays in the window, or ends the walk. -/
theorem inWindow_goRight (k : K) (h : Nat) (l : Leaf) (q i : Nat) :
    InWindow k h l q (goRight k h l q i : Pc K V) := by
  unfold goRight
  split
  · exact .inr (.inl ⟨i, rfl⟩)
  · exact .inr (.inr ⟨none, rfl⟩)

omit [DecidableEq K] in
/-- So does the loop to the left. -/
theorem inWindow_goLeft (P : Params K V) (k : K) (h : Nat) (l : Leaf) (q i : Nat) :
    InWindow k h l q (goLeft P k h l q i) := by
  unfold goLeft
  split
  · exact .inl ⟨i, rfl⟩
  · exact inWindow_goRight ..

/-- **Every step of the walk stays in the window.** -/
theorem inWindow_walk (P : Params K V) (k : K) (h : Nat) (l : Leaf) (q i : Nat) (e : Entry V) :
    InWindow k h l q (probeNext P k h l q e) ∧ InWindow k h l q (leftNext P k h l q i e) ∧
      InWindow k h l q (rightNext P k h l q i e) := by
  refine ⟨?_, ?_, ?_⟩
  · unfold probeNext
    split
    next v hv => exact .inr (.inr ⟨some v, rfl⟩)
    next =>
      split
      · exact .inr (.inr ⟨none, rfl⟩)
      · exact inWindow_goLeft ..
  · unfold leftNext
    split
    next v hv => exact .inr (.inr ⟨some v, rfl⟩)
    next =>
      split
      · exact inWindow_goRight ..
      · exact inWindow_goLeft ..
  · unfold rightNext
    split
    next v hv => exact .inr (.inr ⟨some v, rfl⟩)
    next =>
      split
      · exact .inr (.inr ⟨none, rfl⟩)
      · exact inWindow_goRight ..

end

end WormholeGet
