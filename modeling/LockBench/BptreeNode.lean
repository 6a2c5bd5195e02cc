import LockBench.Cells

/-!
# The nodes of `bptree_index`

A node keeps `n` keys in order; a leaf has a value for each of them, an internal node
a child before each key and one behind the last.  The model keeps what a node shows
of its arrays, the first `n` elements, so that `n` is the length of the key list; a
store to `n` keeps only its low 16 bits, and shows the elements below it.

The functions are those of the source that work on one node, in its words; the loops
are recursions over the part of the arrays that is still to be visited.
-/

namespace BptreeIndex

/-- `node*`. -/
abbrev Ptr := Nat

/-- `static_cast<std::uint16_t>`. -/
def u16 (n : Nat) : Nat :=
  n % 65536

/-- `struct node`, with the part of its arrays that is in use. -/
inductive Node (K V : Type)
  | leaf (entries : List (K × V)) (nextLeaf : Option Ptr)
  | internal (keys : List K) (children : List Ptr)
  deriving DecidableEq

section

variable {K V : Type}

namespace Node

/-- `is_leaf`. -/
def isLeaf : Node K V → Bool
  | leaf _ _ => true
  | internal _ _ => false

/-- `keys[0]` to `keys[n - 1]`. -/
def keys : Node K V → List K
  | leaf es _ => es.map Prod.fst
  | internal ks _ => ks

/-- `n`. -/
def n (x : Node K V) : Nat :=
  x.keys.length

/-- The keys and values of a leaf. -/
def entries : Node K V → List (K × V)
  | leaf es _ => es
  | internal _ _ => []

/-- `children[0]` to `children[n]`. -/
def children : Node K V → List Ptr
  | leaf _ _ => []
  | internal _ cs => cs

/-- `next_leaf`. -/
def nextLeaf : Node K V → Option Ptr
  | leaf _ next => next
  | internal _ _ => none

end Node

variable [LinearOrder K]

/-- `upper_slot`: the number of keys before the first one above `key`. -/
def upperSlot : List K → K → Nat
  | [], _ => 0
  | k :: ks, key => if k ≤ key then upperSlot ks key + 1 else 0

/-- `leaf_find_exact`. -/
def leafFindExact : List (K × V) → K → Option Nat
  | [], _ => none
  | e :: es, key => if e.1 = key then some 0 else (leafFindExact es key).map (· + 1)

/-- `find_in_leaf`. -/
def findInLeaf : List (K × V) → K → Option V
  | [], _ => none
  | e :: es, key => if e.1 = key then some e.2 else findInLeaf es key

/-- `n->vals[i] = val`. -/
def setVal (es : List (K × V)) (i : Nat) (val : V) : List (K × V) :=
  es.modify i fun e => (e.1, val)

/-- The position in front of the first key that is not below `key`. -/
def lowerSlot : List K → K → Nat
  | [], _ => 0
  | k :: ks, key => if k < key then lowerSlot ks key + 1 else 0

/-- `leaf_insert_or_update`. -/
def leafInsertOrUpdate (es : List (K × V)) (key : K) (val : V) : List (K × V) × Bool :=
  match leafFindExact es key with
  | some i => (setVal es i val, false)
  | none =>
      ((es.insertIdx (lowerSlot (es.map Prod.fst) key) (key, val)).take (u16 (es.length + 1)), true)

/-- `leaf_remove`. -/
def leafRemove (es : List (K × V)) (key : K) : List (K × V) × Bool :=
  match leafFindExact es key with
  | some i => (es.eraseIdx i, true)
  | none => (es, false)

/-- The entries gathered by `split_leaf`: the new one in front of the first that is
above it. -/
def gather : List (K × V) → K → V → List (K × V)
  | [], key, val => [(key, val)]
  | e :: es, key, val => if key < e.1 then (key, val) :: e :: es else e :: gather es key val

/-- `split_leaf`: what the left and the right leaf hold, and the separator. -/
def splitLeaf (es : List (K × V)) (key : K) (val : V) :
    List (K × V) × List (K × V) × Option K :=
  let all := gather es key val
  let mid := all.length / 2
  let right := (all.drop mid).take (u16 (all.length - mid))
  (all.take (u16 mid), right, right.head?.map Prod.fst)

/-- `internal_insert`. -/
def internalInsert (ks : List K) (cs : List Ptr) (sep : K) (right : Ptr) : List K × List Ptr :=
  let pos := lowerSlot ks sep
  ((ks.insertIdx pos sep).take (u16 (ks.length + 1)),
    (cs.insertIdx (pos + 1) right).take (u16 (ks.length + 1) + 1))

/-- `split_internal`: the left node, the right node, and the promoted key. -/
def splitInternal (ks : List K) (cs : List Ptr) (sep : K) (right : Ptr) :
    (List K × List Ptr) × (List K × List Ptr) × Option K :=
  let pos := lowerSlot ks sep
  let ks' := ks.insertIdx pos sep
  let cs' := cs.insertIdx (pos + 1) right
  let total := ks.length + 1
  let mid := total / 2
  let n := u16 (total - mid - 1)
  ((ks'.take (u16 mid), cs'.take (u16 mid + 1)),
    ((ks'.drop (mid + 1)).take n, (cs'.drop (mid + 1)).take (n + 1)), ks'[mid]?)

/-! ## The searches -/

/-- `upper_slot` cuts the separators behind the last one that is not above the key. -/
theorem upperSlot_split {P : Type} {ps : List (K × P)}
    (hsorted : (ps.map Prod.fst).Pairwise (· < ·)) (key : K) :
    ∃ as bs, ps = as ++ bs ∧ upperSlot (ps.map Prod.fst) key = as.length ∧
      (∀ a ∈ as, a.1 ≤ key) ∧ ∀ b ∈ bs, key < b.1 := by
  induction ps with
  | nil => exact ⟨[], [], rfl, rfl, nofun, nofun⟩
  | cons p ps ih =>
      simp only [List.map_cons, List.pairwise_cons] at hsorted
      by_cases hp : p.1 ≤ key
      · obtain ⟨as, bs, rfl, hslot, has, hbs⟩ := ih hsorted.2
        refine ⟨p :: as, bs, rfl, ?_, ?_, hbs⟩
        · simp only [List.map_cons, upperSlot, if_pos hp, hslot, List.length_cons]
        · exact List.forall_mem_cons.mpr ⟨hp, has⟩
      · refine ⟨[], p :: ps, rfl, ?_, nofun, ?_⟩
        · simp only [List.map_cons, upperSlot, if_neg hp, List.length_nil]
        · refine List.forall_mem_cons.mpr ⟨lt_of_not_ge hp, fun b hb => ?_⟩
          exact (lt_of_not_ge hp).trans (hsorted.1 b.1 (List.mem_map_of_mem hb))

/-- The sorted position of a key that is not there. -/
theorem lowerSlot_split {P : Type} {ps : List (K × P)}
    (hsorted : (ps.map Prod.fst).Pairwise (· < ·)) {key : K} (hne : ∀ p ∈ ps, p.1 ≠ key) :
    ∃ as bs, ps = as ++ bs ∧ lowerSlot (ps.map Prod.fst) key = as.length ∧
      (∀ a ∈ as, a.1 < key) ∧ ∀ b ∈ bs, key < b.1 := by
  induction ps with
  | nil => exact ⟨[], [], rfl, rfl, nofun, nofun⟩
  | cons p ps ih =>
      simp only [List.map_cons, List.pairwise_cons] at hsorted
      by_cases hp : p.1 < key
      · obtain ⟨as, bs, rfl, hslot, has, hbs⟩ := ih hsorted.2 fun q hq => hne q (.tail _ hq)
        refine ⟨p :: as, bs, rfl, ?_, ?_, hbs⟩
        · simp only [List.map_cons, lowerSlot, if_pos hp, hslot, List.length_cons]
        · exact List.forall_mem_cons.mpr ⟨hp, has⟩
      · have hlt : key < p.1 := lt_of_le_of_ne (le_of_not_gt hp) (hne p (.head _)).symm
        refine ⟨[], p :: ps, rfl, ?_, nofun, ?_⟩
        · simp only [List.map_cons, lowerSlot, if_neg hp, List.length_nil]
        · refine List.forall_mem_cons.mpr ⟨hlt, fun b hb => ?_⟩
          exact hlt.trans (hsorted.1 b.1 (List.mem_map_of_mem hb))

theorem leafFindExact_eq_none {es : List (K × V)} {key : K} :
    leafFindExact es key = none ↔ ∀ e ∈ es, e.1 ≠ key := by
  induction es with
  | nil => simp [leafFindExact]
  | cons e es ih =>
      by_cases he : e.1 = key
      · simp [leafFindExact, he]
      · simp [leafFindExact, he, ih]

theorem leafFindExact_eq_some {es : List (K × V)} {key : K} {i : Nat}
    (h : leafFindExact es key = some i) :
    ∃ xs v ys, es = xs ++ (key, v) :: ys ∧ xs.length = i := by
  induction es generalizing i with
  | nil => cases h
  | cons e es ih =>
      by_cases he : e.1 = key
      · simp only [leafFindExact, if_pos he, Option.some.injEq] at h
        subst he h
        exact ⟨[], e.2, es, rfl, rfl⟩
      · simp only [leafFindExact, if_neg he, Option.map_eq_some_iff] at h
        obtain ⟨j, hj, rfl⟩ := h
        obtain ⟨xs, v, ys, rfl, rfl⟩ := ih hj
        exact ⟨e :: xs, v, ys, rfl, rfl⟩

/-- `find_in_leaf` finds the value of the key. -/
theorem findInLeaf_eq_some {es : List (K × V)} (hsorted : (es.map Prod.fst).Pairwise (· < ·))
    {key : K} {v : V} : findInLeaf es key = some v ↔ (key, v) ∈ es := by
  induction es with
  | nil => simp [findInLeaf]
  | cons e es ih =>
      simp only [List.map_cons, List.pairwise_cons] at hsorted
      by_cases he : e.1 = key
      · subst he
        simp only [findInLeaf, if_true, Option.some.injEq, List.mem_cons]
        constructor
        · rintro rfl
          exact .inl rfl
        · rintro (h | h)
          · exact (congrArg Prod.snd h).symm
          · exact absurd (hsorted.1 e.1 (List.mem_map.mpr ⟨_, h, rfl⟩)) (lt_irrefl _)
      · simp only [findInLeaf, if_neg he, ih hsorted.2, List.mem_cons]
        constructor
        · exact .inr
        · rintro (rfl | h)
          · exact absurd rfl he
          · exact h

/-! ## The changes of a leaf -/

/-- The entries of a leaf, or of several in a row, after a `put`. -/
structure PutOk (es : List (K × V)) (key : K) (val : V) (es' : List (K × V)) : Prop where
  sorted : (es'.map Prod.fst).Pairwise (· < ·)
  mem : ∀ e, e ∈ es' ↔ e = (key, val) ∨ (e ∈ es ∧ e.1 ≠ key)

omit [LinearOrder K] in
theorem u16_of_le {n : Nat} (h : n ≤ 65535) : u16 n = n :=
  Nat.mod_eq_of_lt (by omega)

theorem insertIdx_append {α : Type} (as bs : List α) (x : α) :
    (as ++ bs).insertIdx as.length x = as ++ x :: bs := by
  induction as with
  | nil => rfl
  | cons a as ih => simp only [List.cons_append, List.length_cons, List.insertIdx_succ_cons, ih]

/-- A new entry at its sorted position. -/
theorem PutOk.of_insert {as bs : List (K × V)} {key : K} (val : V)
    (hsorted : ((as ++ bs).map Prod.fst).Pairwise (· < ·)) (has : ∀ a ∈ as, a.1 < key)
    (hbs : ∀ b ∈ bs, key < b.1) : PutOk (as ++ bs) key val (as ++ (key, val) :: bs) where
  sorted := by
    simp only [List.map_append, List.map_cons, List.pairwise_append, List.pairwise_cons] at hsorted ⊢
    obtain ⟨hl, hr, hlr⟩ := hsorted
    refine ⟨hl, ⟨?_, hr⟩, ?_⟩
    · intro k hk
      obtain ⟨b, hb, rfl⟩ := List.mem_map.mp hk
      exact hbs b hb
    · intro k hk k' hk'
      rcases List.mem_cons.mp hk' with rfl | hk'
      · obtain ⟨a, ha, rfl⟩ := List.mem_map.mp hk
        exact has a ha
      · exact hlr k hk k' hk'
  mem e := by
    have hne : e ∈ as ++ bs → e.1 ≠ key := fun he =>
      (List.mem_append.mp he).elim (fun h => (has e h).ne) fun h => (hbs e h).ne'
    simp only [List.mem_append, List.mem_cons] at hne ⊢
    constructor
    · rintro (h | rfl | h)
      · exact .inr ⟨.inl h, hne (.inl h)⟩
      · exact .inl rfl
      · exact .inr ⟨.inr h, hne (.inr h)⟩
    · rintro (rfl | ⟨h | h, -⟩)
      · exact .inr (.inl rfl)
      · exact .inl h
      · exact .inr (.inr h)

/-- A value stored over another. -/
theorem PutOk.of_update {xs ys : List (K × V)} {key : K} {v val : V}
    (hsorted : ((xs ++ (key, v) :: ys).map Prod.fst).Pairwise (· < ·)) :
    PutOk (xs ++ (key, v) :: ys) key val (xs ++ (key, val) :: ys) where
  sorted := by simpa using hsorted
  mem e := by
    simp only [List.map_append, List.map_cons, List.pairwise_append, List.pairwise_cons] at hsorted
    obtain ⟨-, ⟨hys, -⟩, hxs⟩ := hsorted
    have hx : e ∈ xs → e.1 ≠ key := fun h => (hxs e.1 (List.mem_map_of_mem h) key (.head _)).ne
    have hy : e ∈ ys → e.1 ≠ key := fun h => (hys e.1 (List.mem_map_of_mem h)).ne'
    simp only [List.mem_append, List.mem_cons]
    constructor
    · rintro (h | rfl | h)
      · exact .inr ⟨.inl h, hx h⟩
      · exact .inl rfl
      · exact .inr ⟨.inr (.inr h), hy h⟩
    · rintro (rfl | ⟨h | rfl | h, hne⟩)
      · exact .inr (.inl rfl)
      · exact .inl h
      · exact absurd rfl hne
      · exact .inr (.inr h)

omit [LinearOrder K] in
theorem setVal_append {xs ys : List (K × V)} {key : K} {v val : V} :
    setVal (xs ++ (key, v) :: ys) xs.length val = xs ++ (key, val) :: ys := by
  unfold setVal
  induction xs with
  | nil => rfl
  | cons x xs ih => simp only [List.cons_append, List.length_cons, List.modify_succ_cons, ih]

/-- **`leaf_insert_or_update` on a leaf that is not full.** -/
theorem leafInsertOrUpdate_spec {F : Nat} (hF : F ≤ 65535) {es : List (K × V)}
    (hsorted : (es.map Prod.fst).Pairwise (· < ·)) (hlen : es.length < F) (key : K) (val : V) :
    PutOk es key val (leafInsertOrUpdate es key val).1 ∧
      (leafInsertOrUpdate es key val).1.length ≤ F ∧
      ((leafInsertOrUpdate es key val).2 = true ↔ ∀ e ∈ es, e.1 ≠ key) := by
  cases hfind : leafFindExact es key with
  | some i =>
      obtain ⟨xs, v, ys, rfl, rfl⟩ := leafFindExact_eq_some hfind
      simp only [leafInsertOrUpdate, hfind, setVal_append]
      refine ⟨.of_update hsorted, by simpa using hlen.le, ?_⟩
      simp only [Bool.false_eq_true, false_iff]
      exact fun hne => hne (key, v) (by simp) rfl
  | none =>
      have hne := leafFindExact_eq_none.mp hfind
      obtain ⟨as, bs, rfl, hslot, has, hbs⟩ := lowerSlot_split hsorted hne
      have hins : leafInsertOrUpdate (as ++ bs) key val = (as ++ (key, val) :: bs, true) := by
        simp only [leafInsertOrUpdate, hfind, hslot, insertIdx_append, Prod.mk.injEq, and_true]
        rw [u16_of_le (by omega)]
        exact List.take_of_length_le (by simp; omega)
      rw [hins]
      refine ⟨.of_insert val hsorted has hbs, ?_, by simpa using hne⟩
      simp only [List.length_append, List.length_cons] at hlen ⊢
      omega

/-- **`leaf_remove`.** -/
theorem leafRemove_spec {es : List (K × V)} (hsorted : (es.map Prod.fst).Pairwise (· < ·))
    (key : K) :
    (leafRemove es key).1.Sublist es ∧
      (∀ e, e ∈ (leafRemove es key).1 ↔ e ∈ es ∧ e.1 ≠ key) ∧
      ((leafRemove es key).2 = true ↔ ∃ v, (key, v) ∈ es) := by
  cases hfind : leafFindExact es key with
  | some i =>
      obtain ⟨xs, v, ys, rfl, rfl⟩ := leafFindExact_eq_some hfind
      have hrem : leafRemove (xs ++ (key, v) :: ys) key = (xs ++ ys, true) := by
        simp [leafRemove, hfind, List.eraseIdx_append_of_length_le]
      rw [hrem]
      refine ⟨List.sublist_append_iff.mpr ⟨xs, ys, rfl, .refl xs, .cons _ (.refl ys)⟩, ?_,
        fun _ => ⟨v, by simp⟩, fun _ => rfl⟩
      intro e
      simp only [List.map_append, List.map_cons, List.pairwise_append, List.pairwise_cons] at hsorted
      obtain ⟨-, ⟨hys, -⟩, hxs⟩ := hsorted
      have hx : e ∈ xs → e.1 ≠ key := fun h => (hxs e.1 (List.mem_map_of_mem h) key (.head _)).ne
      have hy : e ∈ ys → e.1 ≠ key := fun h => (hys e.1 (List.mem_map_of_mem h)).ne'
      simp only [List.mem_append, List.mem_cons]
      constructor
      · rintro (h | h)
        · exact ⟨.inl h, hx h⟩
        · exact ⟨.inr (.inr h), hy h⟩
      · rintro ⟨h | rfl | h, hne⟩
        · exact .inl h
        · exact absurd rfl hne
        · exact .inr h
  | none =>
      have hne := leafFindExact_eq_none.mp hfind
      simp only [leafRemove, hfind]
      refine ⟨.refl es, fun e => ⟨fun h => ⟨h, hne e h⟩, fun h => h.1⟩, ?_⟩
      simp only [Bool.false_eq_true, false_iff]
      rintro ⟨v, hv⟩
      exact hne _ hv rfl

/-! ## The splits -/

theorem gather_split {es : List (K × V)} (hsorted : (es.map Prod.fst).Pairwise (· < ·)) {key : K}
    (hne : ∀ e ∈ es, e.1 ≠ key) (val : V) :
    ∃ as bs, es = as ++ bs ∧ gather es key val = as ++ (key, val) :: bs ∧
      (∀ a ∈ as, a.1 < key) ∧ ∀ b ∈ bs, key < b.1 := by
  induction es with
  | nil => exact ⟨[], [], rfl, rfl, nofun, nofun⟩
  | cons e es ih =>
      simp only [List.map_cons, List.pairwise_cons] at hsorted
      by_cases he : key < e.1
      · refine ⟨[], e :: es, rfl, ?_, nofun, List.forall_mem_cons.mpr ⟨he, fun b hb => ?_⟩⟩
        · simp only [gather, if_pos he, List.nil_append]
        · exact he.trans (hsorted.1 b.1 (List.mem_map_of_mem hb))
      · have hlt : e.1 < key := lt_of_le_of_ne (le_of_not_gt he) (hne e (.head _))
        obtain ⟨as, bs, rfl, hgather, has, hbs⟩ := ih hsorted.2 fun q hq => hne q (.tail _ hq)
        refine ⟨e :: as, bs, rfl, ?_, List.forall_mem_cons.mpr ⟨hlt, has⟩, hbs⟩
        simp only [gather, if_neg he, hgather, List.cons_append]

/-- **`split_leaf` on a full leaf without the key.**  Both halves fit, neither is
empty, and the separator is the first key of the right one. -/
theorem splitLeaf_spec {F : Nat} (hF : F ≤ 65535) (hpos : 1 ≤ F) {es : List (K × V)}
    (hsorted : (es.map Prod.fst).Pairwise (· < ·)) (hlen : es.length = F) {key : K}
    (hne : ∀ e ∈ es, e.1 ≠ key) (val : V) :
    ∃ l r sep, splitLeaf es key val = (l, r, some sep) ∧ PutOk es key val (l ++ r) ∧
      l.length ≤ F ∧ r.length ≤ F ∧ (∃ e ∈ l, e.1 < sep) ∧ (∃ e ∈ r, e.1 = sep) ∧
      (∀ e ∈ l, e.1 < sep) ∧ ∀ e ∈ r, sep ≤ e.1 := by
  obtain ⟨as, bs, rfl, hgather, has, hbs⟩ := gather_split hsorted hne val
  have hput := PutOk.of_insert val hsorted has hbs
  generalize hall : as ++ (key, val) :: bs = all at hgather hput
  have hlength : all.length = F + 1 := by
    rw [← hall, ← hlen]
    simp only [List.length_append, List.length_cons]
    omega
  -- Cut where the code does; the first entry on the right gives the separator.
  have hmid : (F + 1) / 2 < all.length := by omega
  have hcut : all = all.take ((F + 1) / 2) ++ all[(F + 1) / 2] :: all.drop ((F + 1) / 2 + 1) := by
    rw [List.cons_getElem_drop_succ, List.take_append_drop]
  generalize hl : all.take ((F + 1) / 2) = l at hcut
  generalize hx : all[(F + 1) / 2] = x at hcut
  generalize hr : all.drop ((F + 1) / 2 + 1) = r at hcut
  have hsplit : splitLeaf (as ++ bs) key val = (l, x :: r, some x.1) := by
    have hdrop : (all.drop ((F + 1) / 2)).take (F + 1 - (F + 1) / 2) = x :: r := by
      rw [List.take_of_length_le (by rw [List.length_drop, hlength]), List.drop_eq_getElem_cons hmid,
        hx, hr]
    simp only [splitLeaf, hgather, hlength]
    rw [u16_of_le (by omega), u16_of_le (by omega), hdrop, hl]
    rfl
  have hllen : l.length = (F + 1) / 2 := by
    rw [← hl, List.length_take]
    omega
  have hrlen : l.length + (r.length + 1) = F + 1 := by
    rw [← hlength, hcut]
    simp
  have hord := hput.sorted
  rw [hcut] at hord hput
  simp only [List.map_append, List.map_cons, List.pairwise_append, List.pairwise_cons] at hord
  obtain ⟨-, ⟨hxr, -⟩, hlx⟩ := hord
  have hlt : ∀ e ∈ l, e.1 < x.1 := fun e he => hlx e.1 (List.mem_map_of_mem he) x.1 (.head _)
  have hlpos : 0 < l.length := by omega
  refine ⟨l, x :: r, x.1, hsplit, hput, by omega, by simp; omega, ?_, ⟨x, .head _, rfl⟩, hlt, ?_⟩
  · exact ⟨l.get ⟨0, hlpos⟩, List.get_mem .., hlt _ (List.get_mem ..)⟩
  · exact List.forall_mem_cons.mpr ⟨le_rfl, fun e he => (hxr e.1 (List.mem_map_of_mem he)).le⟩

theorem lowerSlot_append {P : Type} {as bs : List (K × P)} {key : K} (has : ∀ a ∈ as, a.1 < key)
    (hbs : ∀ b ∈ bs, key < b.1) : lowerSlot ((as ++ bs).map Prod.fst) key = as.length := by
  induction as with
  | nil =>
      cases bs with
      | nil => rfl
      | cons b bs => exact if_neg (hbs b (.head _)).not_gt
  | cons a as ih =>
      obtain ⟨ha, has⟩ := List.forall_mem_cons.mp has
      simp only [List.cons_append, List.map_cons, lowerSlot, if_pos ha, ih has, List.length_cons]

/-- The keys and the children of an internal node after a new separator and the node
behind it have been put in their place. -/
theorem insertIdx_row {as bs : List (K × Ptr)} (c : Ptr) {sep : K} (has : ∀ a ∈ as, a.1 < sep)
    (hbs : ∀ b ∈ bs, sep < b.1) (right : Ptr) :
    ((as ++ bs).map Prod.fst).insertIdx (lowerSlot ((as ++ bs).map Prod.fst) sep) sep =
        (as ++ (sep, right) :: bs).map Prod.fst ∧
      (c :: (as ++ bs).map Prod.snd).insertIdx (lowerSlot ((as ++ bs).map Prod.fst) sep + 1) right =
        c :: (as ++ (sep, right) :: bs).map Prod.snd := by
  rw [lowerSlot_append has hbs]
  constructor
  · rw [List.map_append, ← List.length_map Prod.fst, insertIdx_append]
    simp
  · rw [List.insertIdx_succ_cons, List.map_append, ← List.length_map Prod.snd,
      insertIdx_append]
    simp

/-- **`internal_insert` on a node that is not full.** -/
theorem internalInsert_spec {F : Nat} (hF : F ≤ 65535) {as bs : List (K × Ptr)} (c : Ptr)
    (hlen : (as ++ bs).length < F) {sep : K} (has : ∀ a ∈ as, a.1 < sep)
    (hbs : ∀ b ∈ bs, sep < b.1) (right : Ptr) :
    internalInsert ((as ++ bs).map Prod.fst) (c :: (as ++ bs).map Prod.snd) sep right =
      ((as ++ (sep, right) :: bs).map Prod.fst, c :: (as ++ (sep, right) :: bs).map Prod.snd) := by
  obtain ⟨hkeys, hchildren⟩ := insertIdx_row c has hbs right
  have hn : ((as ++ bs).map Prod.fst).length + 1 = (as ++ (sep, right) :: bs).length := by
    simp
    omega
  simp only [internalInsert, hkeys, hchildren]
  rw [hn, u16_of_le (by simp at hlen ⊢; omega), List.take_of_length_le (by simp),
    List.take_of_length_le (by simp)]

/-- **`split_internal` on a full node.**  The row with the new separator is cut at the
promoted key. -/
theorem splitInternal_spec {F : Nat} (hF : F ≤ 65535) (hpos : 1 ≤ F) {as bs : List (K × Ptr)}
    (c : Ptr) (hlen : (as ++ bs).length = F) {sep : K} (has : ∀ a ∈ as, a.1 < sep)
    (hbs : ∀ b ∈ bs, sep < b.1) (right : Ptr) :
    ∃ l k d r, as ++ (sep, right) :: bs = l ++ (k, d) :: r ∧ l ≠ [] ∧
      F / 2 ≤ l.length ∧ l.length ≤ F ∧ F / 2 ≤ r.length ∧ r.length ≤ F ∧
      splitInternal ((as ++ bs).map Prod.fst) (c :: (as ++ bs).map Prod.snd) sep right =
        ((l.map Prod.fst, c :: l.map Prod.snd), (r.map Prod.fst, d :: r.map Prod.snd), some k) := by
  obtain ⟨hkeys, hchildren⟩ := insertIdx_row c has hbs right
  generalize hall : as ++ (sep, right) :: bs = all at hkeys hchildren
  have hlength : all.length = F + 1 := by
    rw [← hall, ← hlen]
    simp only [List.length_append, List.length_cons]
    omega
  have hmid : (F + 1) / 2 < all.length := by omega
  have hcut : all = all.take ((F + 1) / 2) ++ all[(F + 1) / 2] :: all.drop ((F + 1) / 2 + 1) := by
    rw [List.cons_getElem_drop_succ, List.take_append_drop]
  have hn : ((as ++ bs).map Prod.fst).length + 1 = F + 1 := by rw [List.length_map, hlen]
  refine ⟨all.take ((F + 1) / 2), all[(F + 1) / 2].1, all[(F + 1) / 2].2,
    all.drop ((F + 1) / 2 + 1), hcut, ?_, ?_, ?_, ?_, ?_, ?_⟩
  · rw [ne_eq, ← List.length_eq_zero_iff, List.length_take]
    omega
  · rw [List.length_take]
    omega
  · rw [List.length_take]
    omega
  · rw [List.length_drop]
    omega
  · rw [List.length_drop]
    omega
  · simp only [splitInternal, hkeys, hchildren, hn]
    rw [u16_of_le (by omega), u16_of_le (by omega)]
    simp only [List.map_take, List.map_drop, List.take_succ_cons, List.drop_succ_cons,
      Prod.mk.injEq, true_and]
    refine ⟨⟨?_, ?_⟩, ?_⟩
    · exact List.take_of_length_le (by simp; omega)
    · rw [List.take_of_length_le (by simp; omega), List.drop_eq_getElem_cons (by simpa using hmid)]
      simp
    · rw [List.getElem?_eq_getElem (by simpa using hmid)]
      simp

end

end BptreeIndex
