import LockBench.BptreeCoupling
import LockBench.BptreeRangesStep

/-!
# What a changing `bptree_index` contains

The map is what the leaves hold, whether their parents know of them or not.  A key is in the range
of one leaf only, so a search that ends at that leaf sees all that the map has for it, and a change
of that leaf is the change of the map.
-/

namespace BptreeCoupling

open BptreeIndex

section

variable {K V : Type} [LinearOrder K] {F : Nat} {g g' : Ranges K} {m m' : Tree K V}
  {pending pending' : Lock → List (K × Ptr)} {p : Ptr} {key : K} {v val : V}
  {es es' : List (K × V)} {next : Option Ptr}

/-- A key is stored in the leaf that has it in its range. -/
theorem Grid.stored_iff (h : Grid F g m pending) (hp : p < m.alloc)
    (hheap : m.heap p = .leaf es next) (hkey : g.Has (.node p) key) :
    Stored m key v ↔ (key, v) ∈ es := by
  constructor
  · rintro ⟨q, hq, hmem⟩
    cases hq' : m.heap q with
    | leaf es' next' =>
        rw [hq'] at hmem
        have hleaf := h.leafOk hq hq'
        obtain rfl := h.eq_of_has hq hp (hleaf.level.trans (h.leafOk hp hheap).level.symm)
          (hleaf.inRange _ hmem) hkey
        rw [hheap] at hq'
        cases hq'
        exact hmem
    | internal ks cs =>
        rw [hq'] at hmem
        simp [Node.entries] at hmem
  · intro hmem
    exact ⟨p, hp, by rw [hheap]; exact hmem⟩

/-- A key has one value. -/
theorem Grid.stored_unique (h : Grid F g m pending) {v v' : V} (hv : Stored m key v)
    (hv' : Stored m key v') : v = v' := by
  obtain ⟨p, hp, hmem⟩ := hv
  cases hheap : m.heap p with
  | leaf es next =>
      rw [hheap] at hmem
      have hleaf := h.leafOk hp hheap
      have hmem' := (h.stored_iff hp hheap (hleaf.inRange _ hmem)).mp hv'
      have hfind := (findInLeaf_eq_some hleaf.sorted).mpr hmem
      rw [(findInLeaf_eq_some hleaf.sorted).mpr hmem'] at hfind
      exact (Option.some.inj hfind).symm
  | internal ks cs =>
      rw [hheap] at hmem
      simp [Node.entries] at hmem

theorem Grid.mapOf_eq_some (h : Grid F g m pending) : mapOf m key = some v ↔ Stored m key v := by
  unfold mapOf
  split
  · rename_i hex
    rw [Option.some.injEq]
    constructor
    · rintro rfl
      exact hex.choose_spec
    · exact fun hv => h.stored_unique hex.choose_spec hv
  · rename_i hno
    simp only [reduceCtorEq, false_iff]
    exact fun hv => hno ⟨v, hv⟩

/-- **A search that ends at the leaf of its key finds what the map has.** -/
theorem Grid.mapOf_leaf (h : Grid F g m pending) (hp : p < m.alloc)
    (hheap : m.heap p = .leaf es next) (hkey : g.Has (.node p) key) :
    mapOf m key = findInLeaf es key := by
  refine Option.ext fun v => ?_
  rw [h.mapOf_eq_some, h.stored_iff hp hheap hkey,
    findInLeaf_eq_some (h.leafOk hp hheap).sorted]

theorem Grid.mapOf_eq_none (h : Grid F g m pending) (hp : p < m.alloc)
    (hheap : m.heap p = .leaf es next) (hkey : g.Has (.node p) key) :
    mapOf m key = none ↔ ∀ e ∈ es, e.1 ≠ key := by
  rw [Option.eq_none_iff_forall_ne_some]
  constructor
  · rintro hno e he rfl
    exact hno e.2 (h.mapOf_eq_some.mpr ((h.stored_iff hp hheap hkey).mpr he))
  · intro hno v hv
    exact hno _ ((h.stored_iff hp hheap hkey).mp (h.mapOf_eq_some.mp hv)) rfl

theorem Grid.mapOf_put (h : Grid F g m pending) (h' : Grid F g' m' pending')
    (hst : ∀ k v, Stored m' k v ↔ (k = key ∧ v = val) ∨ (Stored m k v ∧ k ≠ key)) :
    mapOf m' = Function.update (mapOf m) key (some val) := by
  funext k
  refine Option.ext fun v => ?_
  rw [h'.mapOf_eq_some, hst]
  by_cases hk : k = key
  · subst hk
    simp [eq_comm]
  · simp [hk, h.mapOf_eq_some]

theorem Grid.mapOf_remove (h : Grid F g m pending) (h' : Grid F g' m' pending')
    (hst : ∀ k v, Stored m' k v ↔ Stored m k v ∧ k ≠ key) :
    mapOf m' = Function.update (mapOf m) key none := by
  funext k
  refine Option.ext fun v => ?_
  rw [h'.mapOf_eq_some, hst]
  by_cases hk : k = key
  · subst hk
    simp
  · simp [hk, h.mapOf_eq_some]

theorem Grid.mapOf_same (h : Grid F g m pending) (h' : Grid F g' m' pending')
    (hst : ∀ k v, Stored m' k v ↔ Stored m k v) : mapOf m' = mapOf m := by
  funext k
  refine Option.ext fun v => ?_
  rw [h'.mapOf_eq_some, hst, h.mapOf_eq_some]

/-! ## Changes of the leaves -/

omit [LinearOrder K] in
/-- What is stored after one leaf has been changed and perhaps others have been added. -/
theorem stored_change (hp : p < m.alloc) (hheap : m.heap p = .leaf es next)
    (hkeep : ∀ q < m.alloc, q ≠ p → m'.heap q = m.heap q) (halloc : m.alloc ≤ m'.alloc)
    (hnew : ∀ e, (∃ q < m'.alloc, (q = p ∨ m.alloc ≤ q) ∧ e ∈ (m'.heap q).entries) ↔ e ∈ es')
    (hes : ∀ q < m.alloc, q ≠ p → ∀ e ∈ (m.heap q).entries, e.1 ≠ key)
    (hsame : ∀ e : K × V, e.1 ≠ key → (e ∈ es' ↔ e ∈ es)) (k : K) (v : V) :
    Stored m' k v ↔ (k = key ∧ (k, v) ∈ es') ∨ (Stored m k v ∧ k ≠ key) := by
  by_cases hk : k = key
  · subst hk
    simp only [true_and, ne_eq, not_true_eq_false, and_false, or_false]
    rw [← hnew]
    constructor
    · rintro ⟨q, hq, hmem⟩
      by_cases hqp : q = p
      · exact ⟨q, hq, .inl hqp, hmem⟩
      · refine ⟨q, hq, .inr (not_lt.mp fun hlt => ?_), hmem⟩
        rw [hkeep q hlt hqp] at hmem
        exact hes q hlt hqp _ hmem rfl
    · rintro ⟨q, hq, -, hmem⟩
      exact ⟨q, hq, hmem⟩
  · simp only [hk, false_and, false_or, ne_eq, not_false_eq_true, and_true]
    constructor
    · rintro ⟨q, hq, hmem⟩
      by_cases hqp : q = p ∨ m.alloc ≤ q
      · have hin := (hsame _ hk).mp ((hnew (k, v)).mp ⟨q, hq, hqp, hmem⟩)
        exact ⟨p, hp, by rw [hheap]; exact hin⟩
      · simp only [not_or, not_le] at hqp
        exact ⟨q, hqp.2, by rwa [hkeep q hqp.2 hqp.1] at hmem⟩
    · rintro ⟨q, hq, hmem⟩
      by_cases hqp : q = p
      · subst hqp
        rw [hheap] at hmem
        obtain ⟨q', hq', -, hmem'⟩ := (hnew (k, v)).mpr ((hsame (k, v) hk).mpr hmem)
        exact ⟨q', hq', hmem'⟩
      · exact ⟨q, hq.trans_le halloc, by rwa [hkeep q hq hqp]⟩

/-- The other nodes have no entry for a key in the range of a leaf. -/
theorem Grid.key_ne (h : Grid F g m pending) (hp : p < m.alloc) (hheap : m.heap p = .leaf es next)
    (hkey : g.Has (.node p) key) : ∀ q < m.alloc, q ≠ p → ∀ e ∈ (m.heap q).entries, e.1 ≠ key := by
  rintro q hq hqp e he rfl
  cases hq' : m.heap q with
  | leaf es' next' =>
      rw [hq'] at he
      have hleaf := h.leafOk hq hq'
      exact hqp (h.eq_of_has hq hp (hleaf.level.trans (h.leafOk hp hheap).level.symm)
        (hleaf.inRange _ he) hkey)
  | internal ks cs =>
      rw [hq'] at he
      simp [Node.entries] at he

/-- What is stored after a leaf has got other entries. -/
theorem Grid.stored_set (h : Grid F g m pending) (hp : p < m.alloc)
    (hheap : m.heap p = .leaf es next) (hkey : g.Has (.node p) key)
    (hsame : ∀ e : K × V, e.1 ≠ key → (e ∈ es' ↔ e ∈ es)) {next' : Option Ptr} (k : K) (v : V) :
    Stored (m.set p (.leaf es' next')) k v ↔
      (k = key ∧ (k, v) ∈ es') ∨ (Stored m k v ∧ k ≠ key) := by
  have hkeep : ∀ q < m.alloc, q ≠ p → (m.set p (.leaf es' next')).heap q = m.heap q :=
    fun q _ hqp => by simp [Tree.set, hqp]
  refine stored_change hp hheap hkeep le_rfl (fun e => ?_) (h.key_ne hp hheap hkey) hsame k v
  constructor
  · rintro ⟨q, hq, rfl | hle, hmem⟩
    · simpa [Tree.set, Node.entries] using hmem
    · exact absurd hq hle.not_gt
  · intro hmem
    exact ⟨p, hp, .inl rfl, by simpa [Tree.set, Node.entries] using hmem⟩

/-- What is stored after a leaf has been split. -/
theorem Grid.stored_split (h : Grid F g m pending) (hp : p < m.alloc)
    (hheap : m.heap p = .leaf es next) (hkey : g.Has (.node p) key) {lefts rights : List (K × V)}
    (hsame : ∀ e : K × V, e.1 ≠ key → (e ∈ lefts ++ rights ↔ e ∈ es)) {next' next'' : Option Ptr}
    (k : K) (v : V) :
    Stored ((m.new (.leaf rights next'')).set p (.leaf lefts next')) k v ↔
      (k = key ∧ (k, v) ∈ lefts ++ rights) ∨ (Stored m k v ∧ k ≠ key) := by
  have hkeep : ∀ q < m.alloc, q ≠ p →
      ((m.new (.leaf rights next'')).set p (.leaf lefts next')).heap q = m.heap q :=
    fun q hq hqp => by simp [Tree.set, Tree.new, hqp, hq.ne]
  refine stored_change hp hheap hkeep (Nat.le_succ _) (fun e => ?_) (h.key_ne hp hheap hkey) hsame
    k v
  rw [List.mem_append]
  constructor
  · rintro ⟨q, hq, rfl | hle, hmem⟩
    · exact .inl (by simpa [Tree.set, Node.entries] using hmem)
    · obtain rfl : q = m.alloc := le_antisymm (Nat.lt_succ_iff.mp hq) hle
      exact .inr (by simpa [Tree.set, Tree.new, Node.entries, hp.ne'] using hmem)
  · rintro (hmem | hmem)
    · exact ⟨p, hp.trans (Nat.lt_succ_self _), .inl rfl,
        by simpa [Tree.set, Node.entries] using hmem⟩
    · exact ⟨m.alloc, Nat.lt_succ_self _, .inr le_rfl,
        by simpa [Tree.set, Tree.new, Node.entries, hp.ne'] using hmem⟩

omit [LinearOrder K] in
/-- What is stored does not depend on the internal nodes. -/
theorem stored_congr (halloc : m.alloc ≤ m'.alloc)
    (hkeep : ∀ q < m.alloc, (m'.heap q).entries = (m.heap q).entries)
    (hnew : ∀ q < m'.alloc, m.alloc ≤ q → (m'.heap q).entries = []) (k : K) (v : V) :
    Stored m' k v ↔ Stored m k v := by
  constructor
  · rintro ⟨q, hq, hmem⟩
    rcases lt_or_ge q m.alloc with hlt | hge
    · exact ⟨q, hlt, by rwa [hkeep q hlt] at hmem⟩
    · rw [hnew q hq hge] at hmem
      cases hmem
  · rintro ⟨q, hq, hmem⟩
    exact ⟨q, hq.trans_le halloc, by rwa [hkeep q hq]⟩

end

end BptreeCoupling
