import LockBench.SkipList

/-!
# The shape of the skip list

The structural invariant.  A ghost height `h a` says at how many levels node `a` is
linked: levels `0 .. h a - 1`, since insertions link bottom-up and removals unlink
top-down.  At each level the linked nodes form a list sorted by key, and `next` of
a linked node is its successor there.  A marked node that has been unlinked keeps
the pointers it had, and they lead to nodes that were linked too.

`Frame` says once what a step of a thread leaves alone: `next` and `marked` of a
linked node change only under that node's lock, and the rest follows.
-/

namespace SkipList

section Shape

variable {T K V : Type} [LinearOrder K]

/-- Node `a` is or was linked at level `l`. -/
def Was (m : Mem T K V) (h : Addr → Nat) (a : Addr) (l : Nat) : Prop :=
  l < h a ∨ (m.marked a = true ∧ l ≤ m.top a)

/-- The lists at all levels, for linked heights `h`. -/
structure Shape (m : Mem T K V) (h : Addr → Nat) : Prop where
  fresh : 2 ≤ m.fresh
  headHeight : h head = maxLevel
  tailHeight : h tail = maxLevel
  headRank : m.rank head = ⊥
  tailRank : m.rank tail = ⊤
  headUnmarked : m.marked head = false
  tailUnmarked : m.marked tail = false
  tailFull : m.fullyLinked tail = true
  inj : ∀ a b, 0 < h a → 0 < h b → m.rank a = m.rank b → a = b
  succ : ∀ a l, l < h a → a ≠ tail → l < h (m.next a l) ∧ m.rank a < m.rank (m.next a l) ∧
    ∀ b, l < h b → m.rank a < m.rank b → m.rank (m.next a l) ≤ m.rank b
  frozen : ∀ a l, Was m h a l → ¬ l < h a →
    Was m h (m.next a l) l ∧ m.rank a < m.rank (m.next a l)
  frozenFull : ∀ a, m.marked a = true → ¬ 0 < h a → m.fullyLinked (m.next a 0) = true
  height : ∀ a, h a ≤ m.top a + 1
  top : ∀ a, m.top a < maxLevel
  full : ∀ a, m.fullyLinked a = true → a < m.fresh → m.marked a = false → h a = m.top a + 1
  markedFull : ∀ a, m.marked a = true → m.fullyLinked a = true
  unborn : ∀ a, m.fresh ≤ a → h a = 0 ∧ m.marked a = false

namespace Shape

variable {m : Mem T K V} {h : Addr → Nat}

theorem lt_fresh (hs : Shape m h) {a : Addr} {l : Nat} (ha : Was m h a l) : a < m.fresh := by
  by_contra hno
  obtain ⟨h0, hm⟩ := hs.unborn a (not_lt.mp hno)
  rcases ha with ha | ha
  · omega
  · simp [hm] at ha

omit [LinearOrder K] in
theorem linked_of_unmarked {a : Addr} {l : Nat} (ha : Was m h a l) (hm : m.marked a = false) :
    l < h a := by
  rcases ha with ha | ha
  · exact ha
  · simp [hm] at ha

omit [LinearOrder K] in
theorem was_mono {a : Addr} {l l' : Nat} (ha : Was m h a l) (hl : l' ≤ l) : Was m h a l' := by
  rcases ha with ha | ha
  · exact .inl (by omega)
  · exact .inr ⟨ha.1, by omega⟩

/-- A pointer of a node that is or was linked leads further right, to a node that
is or was linked. -/
theorem next_was (hs : Shape m h) {a : Addr} {l : Nat} (ha : Was m h a l) (hne : a ≠ tail) :
    Was m h (m.next a l) l ∧ m.rank a < m.rank (m.next a l) := by
  by_cases hl : l < h a
  · obtain ⟨h1, h2, -⟩ := hs.succ a l hl hne
    exact ⟨.inl h1, h2⟩
  · exact hs.frozen a l ha hl

theorem ne_tail (hs : Shape m h) {a : Addr} {k : K} (ha : m.rank a < rankOf k) : a ≠ tail := by
  rintro rfl
  rw [hs.tailRank] at ha
  exact not_top_lt ha

theorem ne_tail_of_rank (hs : Shape m h) {a : Addr} {k : K} (ha : m.rank a = rankOf k) :
    a ≠ tail := by
  rintro rfl
  rw [hs.tailRank] at ha
  simp [rankOf] at ha

theorem ne_head_of_rank (hs : Shape m h) {a : Addr} {k : K} (ha : m.rank a = rankOf k) :
    a ≠ head := by
  rintro rfl
  rw [hs.headRank] at ha
  simp [rankOf] at ha

/-- Two linked nodes with the same successor are the same node. -/
theorem pred_unique (hs : Shape m h) {a b : Addr} {l : Nat} (ha : l < h a) (hb : l < h b)
    (hat : a ≠ tail) (hbt : b ≠ tail) (hnext : m.next a l = m.next b l) : a = b := by
  obtain ⟨-, ha2, ha3⟩ := hs.succ a l ha hat
  obtain ⟨-, hb2, hb3⟩ := hs.succ b l hb hbt
  refine hs.inj a b (by omega) (by omega) ?_
  rcases lt_trichotomy (m.rank a) (m.rank b) with hlt | heq | hlt
  · have := ha3 b hb hlt
    rw [hnext] at this
    exact absurd hb2 (not_lt.mpr this)
  · exact heq
  · have := hb3 a ha hlt
    rw [← hnext] at this
    exact absurd ha2 (not_lt.mpr this)

/-- No linked node has a key strictly between a linked node and its successor. -/
theorem gap (hs : Shape m h) {a : Addr} {l : Nat} {k : K} (ha : l < h a)
    (hlt : m.rank a < rankOf k) (hgt : rankOf k < m.rank (m.next a l)) {b : Addr}
    (hb : l < h b) : m.rank b ≠ rankOf k := by
  intro hk
  have := (hs.succ a l ha (hs.ne_tail hlt)).2.2 b hb (by rwa [hk])
  rw [hk] at this
  exact absurd hgt (not_lt.mpr this)

/-- **Reachability.**  The list at a level holds exactly the nodes linked there. -/
theorem inList_iff (hs : Shape m h) {l : Nat} (hl : l < maxLevel) {a : Addr} :
    InList m l a ↔ l < h a := by
  constructor
  · intro ha
    induction ha with
    | head => rw [hs.headHeight]; exact hl
    | next _ hne ih => exact (hs.succ _ l ih hne).1
  · -- walk back from `a`: its predecessor is the linked node of greatest smaller rank
    have hback : ∀ n a, ((Finset.range m.fresh).filter fun b => m.rank b < m.rank a).card = n →
        l < h a → InList m l a := by
      intro n
      induction n using Nat.strong_induction_on with
      | _ n ih =>
        intro a hcard ha
        by_cases hah : a = head
        · rw [hah]
          exact .head
        have hpos : m.rank head < m.rank a := by
          rw [hs.headRank, bot_lt_iff_ne_bot]
          intro hbot
          refine hah (hs.inj a head (by omega) ?_ (hbot.trans hs.headRank.symm))
          rw [hs.headHeight]
          decide
        -- the linked nodes to the left of `a`
        let left := (Finset.range m.fresh).filter fun b => l < h b ∧ m.rank b < m.rank a
        have hne : left.Nonempty := by
          refine ⟨head, Finset.mem_filter.mpr ⟨Finset.mem_range.mpr ?_, ?_, hpos⟩⟩
          · exact lt_of_lt_of_le (by decide) hs.fresh
          · rw [hs.headHeight]
            exact hl
        obtain ⟨p, hp, hmax⟩ := Finset.exists_max_image left m.rank hne
        obtain ⟨hpf, hpl, hpa⟩ := Finset.mem_filter.mp hp
        have hpt : p ≠ tail := by
          rintro rfl
          rw [hs.tailRank] at hpa
          exact not_top_lt hpa
        obtain ⟨hs1, hs2, hs3⟩ := hs.succ p l hpl hpt
        have hnext : m.next p l = a := by
          have hle := hs3 a ha hpa
          refine hs.inj _ _ (by omega) (by omega) (le_antisymm hle ?_)
          by_contra hlt
          push Not at hlt
          have hmem : m.next p l ∈ left := by
            refine Finset.mem_filter.mpr ⟨Finset.mem_range.mpr ?_, hs1, hlt⟩
            exact hs.lt_fresh (.inl hs1)
          exact absurd (hmax _ hmem) (not_le.mpr hs2)
        rw [← hnext]
        refine .next (ih _ ?_ p rfl hpl) hpt
        -- fewer nodes are to the left of the predecessor
        have hsub : ((Finset.range m.fresh).filter fun b => m.rank b < m.rank p) ⊂
            (Finset.range m.fresh).filter fun b => m.rank b < m.rank a := by
          refine Finset.ssubset_iff_subset_ne.mpr ⟨fun b hb => ?_, fun heq => ?_⟩
          · obtain ⟨h1, h2⟩ := Finset.mem_filter.mp hb
            exact Finset.mem_filter.mpr ⟨h1, h2.trans hpa⟩
          · have : p ∈ (Finset.range m.fresh).filter fun b => m.rank b < m.rank p := by
              rw [heq]
              exact Finset.mem_filter.mpr ⟨hpf, hpa⟩
            exact absurd (Finset.mem_filter.mp this).2 (lt_irrefl _)
        exact hcard ▸ Finset.card_lt_card hsub
    exact hback _ a rfl

/-- The map at an instant, in terms of the linked nodes. -/
theorem mapOf_eq_some_iff (hs : Shape m h) {k : K} {v : V} :
    mapOf m k = some v ↔ ∃ a, 0 < h a ∧ m.fullyLinked a = true ∧ m.marked a = false ∧
      m.rank a = rankOf k ∧ m.val a = v := by
  have hlist : ∀ a, InList m 0 a ↔ 0 < h a := fun a => hs.inList_iff (by decide)
  have huniq : ∀ a b, Holds m k a → Holds m k b → a = b := fun a b ha hb =>
    hs.inj a b ((hlist a).mp ha.inList) ((hlist b).mp hb.inList) (ha.rank.trans hb.rank.symm)
  unfold mapOf
  constructor
  · intro hm
    split at hm
    · rename_i hex
      have hh := hex.choose_spec
      exact ⟨_, (hlist _).mp hh.inList, hh.full, hh.unmarked, hh.rank, Option.some.inj hm⟩
    · cases hm
  · rintro ⟨a, h0, hf, hu, hr, rfl⟩
    have ha : Holds m k a := ⟨(hlist a).mpr h0, hf, hu, hr⟩
    have hex : ∃ a, Holds m k a := ⟨a, ha⟩
    rw [dif_pos hex, huniq _ _ hex.choose_spec ha]

/-- A key is absent when its node is not fully linked or is marked. -/
theorem mapOf_eq_none (hs : Shape m h) {k : K}
    (hno : ∀ a, 0 < h a → m.rank a = rankOf k → m.fullyLinked a = true → m.marked a = true) :
    mapOf m k = none := by
  rw [Option.eq_none_iff_forall_ne_some]
  intro v hv
  obtain ⟨a, h0, hf, hu, hr, -⟩ := hs.mapOf_eq_some_iff.mp hv
  simp [hno a h0 hr hf] at hu

end Shape

/-- Equal maps, when the linked, fully linked and unmarked nodes and their values agree. -/
theorem mapOf_congr {m m' : Mem T K V} {h h' : Addr → Nat} (hs : Shape m h) (hs' : Shape m' h')
    (hiff : ∀ a, (0 < h' a ∧ m'.fullyLinked a = true ∧ m'.marked a = false) ↔
      (0 < h a ∧ m.fullyLinked a = true ∧ m.marked a = false))
    (hsame : ∀ a, 0 < h a → m'.rank a = m.rank a ∧ m'.val a = m.val a) :
    mapOf m' = mapOf m := by
  funext k
  refine Option.ext fun v => ?_
  rw [hs'.mapOf_eq_some_iff, hs.mapOf_eq_some_iff]
  constructor
  · rintro ⟨a, h0, hf, hu, hr, hv⟩
    obtain ⟨h0', hf', hu'⟩ := (hiff a).mp ⟨h0, hf, hu⟩
    obtain ⟨h1, h2⟩ := hsame a h0'
    exact ⟨a, h0', hf', hu', h1 ▸ hr, h2 ▸ hv⟩
  · rintro ⟨a, h0, hf, hu, hr, hv⟩
    obtain ⟨h0', hf', hu'⟩ := (hiff a).mpr ⟨h0, hf, hu⟩
    obtain ⟨h1, h2⟩ := hsame a h0
    exact ⟨a, h0', hf', hu', h1 ▸ hr, h2 ▸ hv⟩

end Shape
end SkipList
