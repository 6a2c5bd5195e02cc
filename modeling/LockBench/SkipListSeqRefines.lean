import LockBench.SkipListSeq
import LockBench.SortedLinks

/-!
# `skiplist_index` is a map for one thread

Between two calls every level is a sorted list between the sentinels, and a node is a
member of the levels up to its own `top_level`.  A search therefore finds at each level
the member before the key and the one after it, and finds the key at exactly the levels
of its node: what `put` and `remove` test is as they found it, and they need no second
round.
-/

namespace SkipListSeq

open SkipList (Addr maxLevel head tail Found rankOf)
open SortedLinks (Links Follows Path)

section

variable {K V : Type} [LinearOrder K]

/-! ## Ranks -/

/-- Where a node stands: before all keys, after all keys, or at its key. -/
def rank (n : Node K V) : WithBot (WithTop K) :=
  if n.isNegInf then ⊥ else if n.isPosInf then ⊤ else rankOf n.key

omit [LinearOrder K] in
/-- No key ranks with the head. -/
theorem rankOf_ne_bot (k : K) : rankOf k ≠ ⊥ :=
  WithBot.coe_ne_bot

omit [LinearOrder K] in
/-- No key ranks with the tail. -/
theorem rankOf_ne_top (k : K) : rankOf k ≠ ⊤ :=
  fun h => WithTop.coe_ne_top (WithBot.coe_injective h)

/-- Keys rank in their own order. -/
theorem rankOf_lt {a b : K} : rankOf a < rankOf b ↔ a < b := by
  simp [rankOf]

omit [LinearOrder K] in
/-- Keys are told apart by their ranks. -/
theorem rankOf_inj {a b : K} : rankOf a = rankOf b ↔ a = b := by
  simp [rankOf]

/-- `node_lt` compares ranks. -/
theorem nodeLt_iff (n : Node K V) (key : K) : nodeLt n key = true ↔ rank n < rankOf key := by
  unfold nodeLt rank
  split
  · exact iff_of_true rfl (bot_lt_iff_ne_bot.mpr (rankOf_ne_bot key))
  · split
    · exact iff_of_false Bool.false_ne_true not_top_lt
    · rw [decide_eq_true_iff, rankOf_lt]

/-- The equality test of the walks compares ranks. -/
theorem isKey_iff (n : Node K V) (key : K) : isKey n key = true ↔ rank n = rankOf key := by
  unfold isKey rank
  cases n.isNegInf
  · cases n.isPosInf
    · simp [rankOf_inj]
    · simpa using (rankOf_ne_top key).symm
  · simpa using (rankOf_ne_bot key).symm

/-! ## The invariant -/

/-- The rank of an address. -/
def Index.rank (t : Index K V) (a : Addr) : WithBot (WithTop K) :=
  SkipListSeq.rank (t.node a)

/-- The members of a level: the sentinels, and the nodes that are high enough. -/
def Index.At (t : Index K V) (S : Finset Addr) (l : Nat) (a : Addr) : Prop :=
  a = head ∨ a = tail ∨ a ∈ S ∧ l ≤ (t.node a).topLevel

/-- A node with a key, in the list. -/
structure Node.Real (n : Node K V) : Prop where
  notNegInf : n.isNegInf = false
  notPosInf : n.isPosInf = false
  unmarked : n.marked = false
  linked : n.fullyLinked = true
  top : n.topLevel < maxLevel

/-- The index between two calls, with the nodes of `S` between the sentinels. -/
structure Ok (t : Index K V) (S : Finset Addr) : Prop where
  alloc : 2 ≤ t.alloc
  headRank : t.rank head = ⊥
  tailRank : t.rank tail = ⊤
  headUnmarked : (t.node head).marked = false
  tailUnmarked : (t.node tail).marked = false
  fresh : ∀ a ∈ S, 2 ≤ a ∧ a < t.alloc
  real : ∀ a ∈ S, (t.node a).Real
  levels : ∀ l < maxLevel, Links t.rank (t.At S l) (fun a => t.next a l) tail

section Basic

variable {t : Index K V} {S : Finset Addr}

omit [LinearOrder K] in
/-- A node linked at a level is linked at all lower ones. -/
theorem Index.At.mono {l l' : Nat} {a : Addr} (h : t.At S l a) (hl : l' ≤ l) : t.At S l' a := by
  rcases h with rfl | rfl | ⟨ha, htop⟩
  · exact .inl rfl
  · exact .inr (.inl rfl)
  · exact .inr (.inr ⟨ha, hl.trans htop⟩)

/-- A node of the set has the rank of its key. -/
theorem Ok.rank_real (ok : Ok t S) {a : Addr} (ha : a ∈ S) : t.rank a = rankOf (t.node a).key := by
  have h := ok.real a ha
  simp [Index.rank, rank, h.notNegInf, h.notPosInf]

/-- Linked nodes have been allocated. -/
theorem Ok.lt_alloc (ok : Ok t S) {l : Nat} {a : Addr} (h : t.At S l a) : a < t.alloc := by
  have h2 := ok.alloc
  rcases h with rfl | rfl | ⟨ha, -⟩
  · exact Nat.lt_of_lt_of_le (by decide) h2
  · exact Nat.lt_of_lt_of_le (by decide) h2
  · exact (ok.fresh a ha).2

/-- Finitely many nodes are linked at a level. -/
theorem Ok.finite (ok : Ok t S) (l : Nat) : {a | t.At S l a}.Finite :=
  (Set.finite_lt_nat t.alloc).subset fun _ ha => ok.lt_alloc ha

/-- Without other threads no linked node is marked. -/
theorem Ok.unmarked (ok : Ok t S) {l : Nat} {a : Addr} (h : t.At S l a) :
    (t.node a).marked = false := by
  rcases h with rfl | rfl | ⟨ha, -⟩
  · exact ok.headUnmarked
  · exact ok.tailUnmarked
  · exact (ok.real a ha).unmarked

/-- A node left of a key is not the tail. -/
theorem Ok.ne_tail (ok : Ok t S) {a : Addr} {key : K} (h : t.rank a < rankOf key) : a ≠ tail := by
  rintro rfl
  rw [ok.tailRank] at h
  exact not_top_lt h

/-- A member with the rank of a key is a node. -/
theorem Ok.mem_of_rank (ok : Ok t S) {l : Nat} {a : Addr} {key : K} (h : t.At S l a)
    (hr : t.rank a = rankOf key) : a ∈ S ∧ l ≤ (t.node a).topLevel ∧ (t.node a).key = key := by
  rcases h with rfl | rfl | ⟨ha, htop⟩
  · exact absurd (hr.symm.trans ok.headRank) (rankOf_ne_bot key)
  · exact absurd (hr.symm.trans ok.tailRank) (rankOf_ne_top key)
  · exact ⟨ha, htop, rankOf_inj.mp ((ok.rank_real ha).symm.trans hr)⟩

/-- A key has at most one node. -/
theorem Ok.key_inj (ok : Ok t S) {a b : Addr} (ha : a ∈ S) (hb : b ∈ S)
    (hkey : (t.node a).key = (t.node b).key) : a = b := by
  refine (ok.levels 0 (by decide)).inj a b (.inr (.inr ⟨ha, Nat.zero_le _⟩))
    (.inr (.inr ⟨hb, Nat.zero_le _⟩)) ?_
  rw [ok.rank_real ha, ok.rank_real hb, hkey]

end Basic

/-! ## The search -/

/-- The places before and after a key at a level. -/
structure Around (t : Index K V) (S : Finset Addr) (key : K) (l : Nat) (p c : Addr) : Prop where
  pred : t.At S l p
  lt : t.rank p < rankOf key
  next : t.next p l = some c
  follows : Follows t.rank (t.At S l) p c
  le : rankOf key ≤ t.rank c

section Search

variable {t : Index K V} {S : Finset Addr} {key : K}

/-- What a walk along a level meets behind a member: at most as many nodes as there are. -/
theorem Ok.path (ok : Ok t S) {l : Nat} (hl : l < maxLevel) {a : Addr} (ha : t.At S l a)
    (hlt : t.rank a < rankOf key) :
    ∃ as, Path (fun a => t.next a l) tail a as ∧ as.length < t.alloc := by
  obtain ⟨as, hpath, hsorted, hmem⟩ := (ok.levels l hl).exists_path (ok.finite l) ha (ok.ne_tail hlt)
  refine ⟨as, hpath, ?_⟩
  have hnodup : (a :: as).Nodup := hsorted.imp fun h heq => h.ne (congrArg t.rank heq)
  have hsub : (a :: as) ⊆ List.range t.alloc := fun b hb => by
    rw [List.mem_range]
    rcases List.mem_cons.mp hb with rfl | hb
    · exact ok.lt_alloc ha
    · exact ok.lt_alloc ((hmem b).mp hb).1
  have hle := (List.subperm_of_subset hnodup hsub).length_le
  rwa [List.length_range] at hle

/-- The pointer of a member leads to the one that follows. -/
theorem Ok.follows (ok : Ok t S) {l : Nat} (hl : l < maxLevel) {a b : Addr} (ha : t.At S l a)
    (hne : a ≠ tail) (hb : t.next a l = some b) : Follows t.rank (t.At S l) a b := by
  obtain ⟨b', hb', hf⟩ := (ok.levels l hl).succ a ha hne
  obtain rfl := Option.some.inj (hb.symm.trans hb')
  exact hf

/-- The optimistic walk from `a` ends at `p` without a restart, if no lock is taken. -/
def OptimisticTo (t : Index K V) (key : K) (l fuel : Nat) (a p : Addr) : Prop :=
  ∀ version : Addr → Nat, (∀ a, version a % 2 = 0) →
    optimisticWalk t version key l fuel a (OccLock.word (version a)) =
      some (.done (p, OccLock.word (version p)))

omit [LinearOrder K] in
/-- Without writers every version is even, so `read_begin` does not wait. -/
theorem readBegin_even {version : Addr → Nat} (heven : ∀ a, version a % 2 = 0) (a : Addr) :
    readBegin version a = some (OccLock.word (version a)) := by
  have hfree : OccLock.odd (version a) = false := by
    simp [OccLock.odd, OccLock.word, heven]
  simp [readBegin, hfree]

/-- Without writers every validation succeeds. -/
theorem readValidate_same (version : Addr → Nat) (a : Addr) :
    readValidate version a (OccLock.word (version a)) = true := by
  simp [readValidate]

/-- An optimistic walk stops in front of the key. -/
theorem optimisticTo_stop {l fuel : Nat} {a b : Addr} (hnext : t.next a l = some b)
    (hb : ¬ nodeLt (t.node b) key = true) : OptimisticTo t key l (fuel + 1) a a := by
  intro version _
  simp [optimisticWalk, hnext, readValidate_same, hb]

/-- An optimistic walk moves on. -/
theorem optimisticTo_go {l fuel : Nat} {a b p : Addr} (hnext : t.next a l = some b)
    (hb : nodeLt (t.node b) key = true) (h : OptimisticTo t key l fuel b p) :
    OptimisticTo t key l (fuel + 1) a p := by
  intro version heven
  simp [optimisticWalk, hnext, readValidate_same, hb, readBegin_even heven, h version heven]

/-- **The walk of a level**, with and without locks, ends around the key. -/
theorem walk_from (ok : Ok t S) {l : Nat} (hl : l < maxLevel) {as : List Addr} {fuel : Nat}
    {a : Addr} (ha : t.At S l a) (hlt : t.rank a < rankOf key)
    (hpath : Path (fun a => t.next a l) tail a as) (hfuel : as.length < fuel) :
    ∃ p c, walk t key l fuel a = some (p, c) ∧ lockedWalk t key l fuel a = some p ∧
      OptimisticTo t key l fuel a p ∧ Around t S key l p c := by
  induction as generalizing a fuel with
  | nil =>
      obtain ⟨fuel, rfl⟩ := Nat.exists_eq_succ_of_ne_zero (Nat.ne_zero_of_lt hfuel)
      have hnext : t.next a l = some tail := hpath
      have hno : ¬ nodeLt (t.node tail) key = true := by
        rw [nodeLt_iff]
        change ¬ t.rank tail < _
        rw [ok.tailRank]
        exact not_top_lt
      refine ⟨a, tail, ?_, ?_, optimisticTo_stop hnext hno, ha, hlt, hnext,
        ok.follows hl ha (ok.ne_tail hlt) hnext, ?_⟩
      · simp only [walk, hnext, Option.bind_some, if_neg hno]
      · simp only [lockedWalk, hnext, Option.bind_some, if_neg hno]
      · rw [ok.tailRank]
        exact le_top
  | cons b as ih =>
      obtain ⟨fuel, rfl⟩ := Nat.exists_eq_succ_of_ne_zero (Nat.ne_zero_of_lt hfuel)
      obtain ⟨hnext, hrest⟩ := hpath
      replace hnext : t.next a l = some b := hnext
      have hf := ok.follows hl ha (ok.ne_tail hlt) hnext
      by_cases hb : nodeLt (t.node b) key = true
      · obtain ⟨p, c, hwalk, hlocked, hopt, haround⟩ := ih hf.mem ((nodeLt_iff _ _).mp hb) hrest
          (Nat.lt_of_succ_lt_succ hfuel)
        have hba : b ∉ [a] := fun hmem => hf.lt.ne (congrArg t.rank (List.mem_singleton.mp hmem)).symm
        refine ⟨p, c, ?_, ?_, optimisticTo_go hnext hb hopt, haround⟩
        · simp only [walk, hnext, Option.bind_some, if_pos hb, hwalk]
        · simp only [lockedWalk, hnext, Option.bind_some, if_pos hb, lock, if_neg hba, hlocked]
      · refine ⟨a, b, ?_, ?_, optimisticTo_stop hnext hb, ha, hlt, hnext, hf, ?_⟩
        · simp only [walk, hnext, Option.bind_some, if_neg hb]
        · simp only [lockedWalk, hnext, Option.bind_some, if_neg hb]
        · rw [nodeLt_iff] at hb
          exact not_lt.mp hb

/-- **A walk along a level** ends at the places around the key. -/
theorem walk_spec (ok : Ok t S) {l : Nat} (hl : l < maxLevel) {a : Addr} (ha : t.At S l a)
    (hlt : t.rank a < rankOf key) :
    ∃ p c, walk t key l t.alloc a = some (p, c) ∧ lockedWalk t key l t.alloc a = some p ∧
      OptimisticTo t key l t.alloc a p ∧ Around t S key l p c := by
  obtain ⟨as, hpath, hlen⟩ := ok.path hl ha hlt
  exact walk_from ok hl ha hlt hpath hlen

/-- What `find` has filled in down to a level. -/
structure FoundOk (t : Index K V) (S : Finset Addr) (key : K) (lvl : Nat) (f : Found) : Prop where
  around : ∀ l, lvl ≤ l → l < maxLevel → Around t S key l (f.preds l) (f.succs l)
  absent : f.lfound = none → ∀ l, lvl ≤ l → l < maxLevel → t.rank (f.succs l) ≠ rankOf key
  found : ∀ l, f.lfound = some l → lvl ≤ l ∧ l < maxLevel ∧ t.rank (f.succs l) = rankOf key ∧
    ∀ l', l < l' → l' < maxLevel → t.rank (f.succs l') ≠ rankOf key

/-- **`find`** records at every level the nodes around the key. -/
theorem findFrom_spec (ok : Ok t S) {lvl : Nat} (hlvl : lvl ≤ maxLevel) {pred : Addr} {f : Found}
    (hpred : t.At S lvl pred) (hlt : t.rank pred < rankOf key) (hf : FoundOk t S key lvl f) :
    ∃ f', findFrom t key lvl pred f = some f' ∧ FoundOk t S key 0 f' := by
  induction lvl generalizing pred f with
  | zero => exact ⟨f, rfl, hf⟩
  | succ lvl ih =>
      obtain ⟨p, c, hwalk, -, -, haround⟩ := walk_spec ok (Nat.lt_of_succ_le hlvl)
        (hpred.mono (Nat.le_succ lvl)) hlt
      simp only [findFrom, hwalk, Option.bind_some]
      refine ih (Nat.le_of_succ_le hlvl) haround.pred haround.lt ⟨fun l hl hlm => ?_, ?_, ?_⟩
      · by_cases heq : l = lvl
        · subst heq
          simp only [Function.update_self]
          exact haround
        · simp only [Function.update_of_ne heq]
          exact hf.around l (by omega) hlm
      · intro hnone l hl hlm
        dsimp only at hnone
        split at hnone
        next => cases hnone
        next hno =>
          by_cases heq : l = lvl
          · subst heq
            simp only [Function.update_self]
            exact fun hr => hno ⟨hnone, (isKey_iff _ _).mpr hr⟩
          · simp only [Function.update_of_ne heq]
            exact hf.absent hnone l (by omega) hlm
      · intro l hsome
        dsimp only at hsome
        split at hsome
        next hyes =>
          obtain rfl := Option.some.inj hsome
          simp only [Function.update_self]
          refine ⟨le_rfl, Nat.lt_of_succ_le hlvl, (isKey_iff _ _).mp hyes.2, fun l' hl' hlm => ?_⟩
          rw [Function.update_of_ne hl'.ne']
          exact hf.absent hyes.1 l' hl' hlm
        next =>
          obtain ⟨hle, hlm, hr, hall⟩ := hf.found l hsome
          have hne : l ≠ lvl := by omega
          refine ⟨by omega, hlm, ?_, fun l' hl' hlm' => ?_⟩
          · simp only [Function.update_of_ne hne]
            exact hr
          · have hne' : l' ≠ lvl := by omega
            simp only [Function.update_of_ne hne']
            exact hall l' hl' hlm'

/-- **`find`** returns with the places around the key at every level. -/
theorem find_spec (ok : Ok t S) (key : K) : ∃ f, find t key = some f ∧ FoundOk t S key 0 f := by
  refine findFrom_spec ok le_rfl (.inl rfl) ?_ ⟨fun l hl hlm => ?_, fun _ l hl hlm => ?_, fun l h => ?_⟩
  · rw [ok.headRank]
    exact bot_lt_iff_ne_bot.mpr (rankOf_ne_bot key)
  · omega
  · omega
  · cases h

/-- At the levels of its node a key is found, and nowhere else. -/
theorem FoundOk.succs_eq (ok : Ok t S) {f : Found} (hf : FoundOk t S key 0 f) {a : Addr} (ha : a ∈ S)
    (hkey : (t.node a).key = key) {l : Nat} (hl : l ≤ (t.node a).topLevel) : f.succs l = a := by
  have hlm : l < maxLevel := hl.trans_lt (ok.real a ha).top
  have haround := hf.around l (Nat.zero_le l) hlm
  have hat : t.At S l a := .inr (.inr ⟨ha, hl⟩)
  have hrank : t.rank a = rankOf key := by rw [ok.rank_real ha, hkey]
  refine (ok.levels l hlm).inj _ _ haround.follows.mem hat (le_antisymm ?_ ?_)
  · exact haround.follows.least a hat (hrank ▸ haround.lt)
  · rw [hrank]
    exact haround.le

/-- **`find` finds a key that is there at the top level of its node.** -/
theorem FoundOk.lfound_eq (ok : Ok t S) {f : Found} (hf : FoundOk t S key 0 f) {a : Addr} (ha : a ∈ S)
    (hkey : (t.node a).key = key) : f.lfound = some (t.node a).topLevel := by
  have hrank : t.rank a = rankOf key := by rw [ok.rank_real ha, hkey]
  have htop := (ok.real a ha).top
  have hsucc : t.rank (f.succs (t.node a).topLevel) = rankOf key := by
    rw [hf.succs_eq ok ha hkey le_rfl, hrank]
  cases hl : f.lfound with
  | none => exact absurd hsucc (hf.absent hl _ (Nat.zero_le _) htop)
  | some l =>
      obtain ⟨-, hlm, hr, hall⟩ := hf.found l hl
      obtain ⟨hmem, hle, hk⟩ := ok.mem_of_rank (hf.around l (Nat.zero_le l) hlm).follows.mem hr
      have hsame := ok.key_inj hmem ha (hk.trans hkey.symm)
      rw [hsame] at hle
      rcases hle.eq_or_lt with heq | hlt
      · rw [heq]
      · exact absurd hsucc (hall _ hlt htop)

/-- A key that `find` finds is there. -/
theorem FoundOk.mem_of_lfound (ok : Ok t S) {f : Found} (hf : FoundOk t S key 0 f) {l : Nat}
    (hl : f.lfound = some l) : f.succs l ∈ S ∧ (t.node (f.succs l)).key = key := by
  obtain ⟨-, hlm, hr, -⟩ := hf.found l hl
  obtain ⟨hmem, -, hk⟩ := ok.mem_of_rank (hf.around l (Nat.zero_le l) hlm).follows.mem hr
  exact ⟨hmem, hk⟩

end Search

/-! ## The lookups -/

/-- The index stores `v` under `k`. -/
def Stores (t : Index K V) (S : Finset Addr) (k : K) (v : V) : Prop :=
  ∃ a ∈ S, (t.node a).key = k ∧ (t.node a).val = v

section Lookup

variable {t : Index K V} {S : Finset Addr} {key : K}

/-- The descents of `get` and `get_optimistic` end before the key at level 0. -/
theorem lockedFrom_spec (ok : Ok t S) (lvl : Nat) (hlvl : lvl < maxLevel) {pred : Addr}
    (hpred : t.At S lvl pred) (hlt : t.rank pred < rankOf key) :
    ∃ p c, lockedFrom t key (lvl + 1) pred = some p ∧
      (∀ version : Addr → Nat, (∀ a, version a % 2 = 0) →
        optimisticFrom t version key (lvl + 1) pred (OccLock.word (version pred)) =
          some (.done (p, OccLock.word (version p)))) ∧
      Around t S key 0 p c := by
  induction lvl generalizing pred with
  | zero =>
      obtain ⟨p, c, -, hlocked, hopt, haround⟩ := walk_spec ok hlvl hpred hlt
      refine ⟨p, c, by simp only [lockedFrom, hlocked, Option.bind_some], fun version heven => ?_,
        haround⟩
      simp only [optimisticFrom, hopt version heven, Option.bind_some]
  | succ lvl ih =>
      obtain ⟨p, c, -, hlocked, hopt, haround⟩ := walk_spec ok hlvl hpred hlt
      obtain ⟨q, d, hrest, hoptRest, haround'⟩ := ih (Nat.lt_of_succ_lt hlvl)
        (haround.pred.mono (Nat.le_succ lvl)) haround.lt
      refine ⟨q, d, ?_, fun version heven => ?_, haround'⟩
      · rw [lockedFrom, hlocked, Option.bind_some, hrest]
      · rw [optimisticFrom, hopt version heven, Option.bind_some]
        exact hoptRest version heven

/-- The node after a key holds what is stored under it. -/
theorem hit_eq_some (ok : Ok t S) {p c : Addr} (h : Around t S key 0 p c) (v : V) :
    hit (t.node c) key = some v ↔ Stores t S key v := by
  unfold hit
  constructor
  · intro hh
    split at hh
    next hyes =>
      obtain ⟨hkey, -⟩ := Bool.and_eq_true_iff.mp hyes
      obtain ⟨hc, -, hk⟩ := ok.mem_of_rank h.follows.mem ((isKey_iff _ _).mp hkey)
      exact ⟨c, hc, hk, Option.some.inj hh⟩
    next => cases hh
  · rintro ⟨a, ha, hk, rfl⟩
    have hrank : t.rank a = rankOf key := by rw [ok.rank_real ha, hk]
    have hat : t.At S 0 a := .inr (.inr ⟨ha, Nat.zero_le _⟩)
    have hca : c = a := by
      refine (ok.levels 0 (by decide)).inj c a h.follows.mem hat (le_antisymm ?_ (hrank ▸ h.le))
      exact h.follows.least a hat (hrank ▸ h.lt)
    subst hca
    have hyes : isKey (t.node c) key = true := (isKey_iff _ _).mpr hrank
    simp [hyes, (ok.real c ha).unmarked]

/-- **`get` and `get_optimistic`** return what is stored. -/
theorem lookup_spec (ok : Ok t S) (key : K) :
    ∃ r, get t key = some r ∧
      (∀ version : Addr → Nat, (∀ a, version a % 2 = 0) →
        optimisticRound t version key = some (.done r)) ∧
      ∀ v, r = some v ↔ Stores t S key v := by
  have hhead : t.rank head < rankOf key := by
    rw [ok.headRank]
    exact bot_lt_iff_ne_bot.mpr (rankOf_ne_bot key)
  obtain ⟨p, c, hlocked, hopt, haround⟩ := lockedFrom_spec ok (maxLevel - 1) (by decide) (.inl rfl)
    hhead
  have hcp : c ∉ [p] := fun hmem =>
    haround.follows.lt.ne (congrArg t.rank (List.mem_singleton.mp hmem)).symm
  refine ⟨hit (t.node c) key, ?_, fun version heven => ?_, hit_eq_some ok haround⟩
  · rw [get, show maxLevel = maxLevel - 1 + 1 from rfl, hlocked]
    simp only [Option.bind_some, haround.next, lock, if_neg hcp, Option.map_some]
  · rw [optimisticRound, readBegin_even heven, Option.bind_some,
      show maxLevel = maxLevel - 1 + 1 from rfl, hopt version heven]
    simp [haround.next, readBegin_even heven, readValidate_same]

end Lookup

/-! ## Stores -/

/-- Nodes that differ in `next` at most. -/
structure Node.Same (n n' : Node K V) : Prop where
  key : n'.key = n.key
  val : n'.val = n.val
  topLevel : n'.topLevel = n.topLevel
  marked : n'.marked = n.marked
  fullyLinked : n'.fullyLinked = n.fullyLinked
  isNegInf : n'.isNegInf = n.isNegInf
  isPosInf : n'.isPosInf = n.isPosInf

section Stores

variable {t : Index K V}

omit [LinearOrder K] in
/-- Nothing has changed in the node but pointers. -/
theorem Node.Same.refl (n : Node K V) : n.Same n :=
  ⟨rfl, rfl, rfl, rfl, rfl, rfl, rfl⟩

omit [LinearOrder K] in
/-- One change of pointers after the other. -/
theorem Node.Same.trans {n n' n'' : Node K V} (h : n.Same n') (h' : n'.Same n'') : n.Same n'' :=
  ⟨h'.1.trans h.1, h'.2.trans h.2, h'.3.trans h.3, h'.4.trans h.4, h'.5.trans h.5, h'.6.trans h.6,
    h'.7.trans h.7⟩

omit [LinearOrder K] in
/-- A store to a pointer changes no key, value or flag. -/
theorem setNext_same (t : Index K V) (a : Addr) (l : Nat) (p : Option Addr) (b : Addr) :
    (t.node b).Same ((t.setNext a l p).node b) := by
  by_cases hba : b = a
  · subst hba
    simp only [Index.setNext, Index.set, Function.update_self]
    exact ⟨rfl, rfl, rfl, rfl, rfl, rfl, rfl⟩
  · simp only [Index.setNext, Index.set, Function.update_of_ne hba]
    exact .refl _

omit [LinearOrder K] in
/-- What a store to a pointer leaves. -/
theorem setNext_next (t : Index K V) (a : Addr) (l : Nat) (p : Option Addr) (b : Addr) (l' : Nat) :
    (t.setNext a l p).next b l' = if b = a ∧ l' = l then p else t.next b l' := by
  by_cases hba : b = a
  · subst hba
    by_cases hl : l' = l
    · simp [Index.next, Index.setNext, Index.set, hl]
    · simp [Index.next, Index.setNext, Index.set, hl]
  · simp [Index.next, Index.setNext, Index.set, hba]

omit [LinearOrder K] in
/-- The new node gets its successors, level by level. -/
theorem fillNext_spec (t : Index K V) (n : Addr) (succs : Nat → Addr) (k : Nat) :
    (∀ b, (t.node b).Same ((fillNext t n succs k).node b)) ∧ (fillNext t n succs k).alloc = t.alloc ∧
      ∀ b l, (fillNext t n succs k).next b l =
        if b = n ∧ l < k then some (succs l) else t.next b l := by
  induction k with
  | zero => exact ⟨fun b => .refl _, rfl, fun b l => by simp [fillNext]⟩
  | succ k ih =>
      obtain ⟨hsame, halloc, hnext⟩ := ih
      refine ⟨fun b => (hsame b).trans (setNext_same ..), halloc, fun b l => ?_⟩
      rw [fillNext, setNext_next, hnext]
      rcases Nat.lt_trichotomy l k with hlt | rfl | hgt
      · simp [hlt.ne, hlt, Nat.lt_succ_of_lt hlt]
      · simp
      · simp [hgt.ne', hgt.not_gt, show ¬ l < k + 1 by omega]

omit [LinearOrder K] in
/-- The predecessors get the new node, level by level. -/
theorem linkPreds_spec (t : Index K V) (n : Addr) (preds : Nat → Addr) (k : Nat) :
    (∀ b, (t.node b).Same ((linkPreds t n preds k).node b)) ∧
      (linkPreds t n preds k).alloc = t.alloc ∧
      ∀ b l, (linkPreds t n preds k).next b l =
        if b = preds l ∧ l < k then some n else t.next b l := by
  induction k with
  | zero => exact ⟨fun b => .refl _, rfl, fun b l => by simp [linkPreds]⟩
  | succ k ih =>
      obtain ⟨hsame, halloc, hnext⟩ := ih
      refine ⟨fun b => (hsame b).trans (setNext_same ..), halloc, fun b l => ?_⟩
      rw [linkPreds, setNext_next, hnext]
      rcases Nat.lt_trichotomy l k with hlt | rfl | hgt
      · simp [hlt.ne, hlt, Nat.lt_succ_of_lt hlt]
      · simp
      · simp [hgt.ne', hgt.not_gt, show ¬ l < k + 1 by omega]

omit [LinearOrder K] in
/-- The predecessors get the victim's successors, from the top level down. -/
theorem unlinkVictim_spec (v : Addr) (preds : Nat → Addr) (k : Nat) (hv : ∀ l < k, v ≠ preds l)
    (t : Index K V) :
    (∀ b, (t.node b).Same ((unlinkVictim v preds k t).node b)) ∧
      (unlinkVictim v preds k t).alloc = t.alloc ∧
      ∀ b l, (unlinkVictim v preds k t).next b l =
        if b = preds l ∧ l < k then t.next v l else t.next b l := by
  induction k generalizing t with
  | zero => exact ⟨fun b => .refl _, rfl, fun b l => by simp [unlinkVictim]⟩
  | succ k ih =>
      obtain ⟨hsame, halloc, hnext⟩ := ih (fun l hl => hv l (Nat.lt_succ_of_lt hl))
        (t.setNext (preds k) k (t.next v k))
      refine ⟨fun b => (setNext_same ..).trans (hsame b), halloc, fun b l => ?_⟩
      have hvk := hv k (Nat.lt_succ_self k)
      rw [unlinkVictim, hnext, setNext_next, setNext_next]
      rcases Nat.lt_trichotomy l k with hlt | rfl | hgt
      · simp [hlt.ne, hlt, Nat.lt_succ_of_lt hlt]
      · simp
      · simp [hgt.ne', hgt.not_gt, show ¬ l < k + 1 by omega]

/-- Predecessors that are as found are all locked. -/
theorem lockPreds_all {preds : Nat → Addr} {bad : Nat → Bool} {k : Nat} {locked : List Addr}
    (hok : ∀ l < k, bad l = false) : (lockPreds preds bad k locked).1 = true := by
  induction k generalizing locked with
  | zero => rfl
  | succ k ih =>
      simp only [lockPreds, hok k (Nat.lt_succ_self k), Bool.false_eq_true, if_false]
      exact ih fun l hl => hok l (Nat.lt_succ_of_lt hl)

/-- What `lock_preds` has locked was locked before or is a predecessor. -/
theorem mem_lockPreds_or {preds : Nat → Addr} {bad : Nat → Bool} {k : Nat} {locked : List Addr}
    {a : Addr} (ha : a ∈ (lockPreds preds bad k locked).2) :
    a ∈ locked ∨ ∃ l < k, a = preds l := by
  induction k generalizing locked with
  | zero => exact .inl ha
  | succ k ih =>
      have hstep : ∀ {l : List Addr}, l = (if preds k ∈ locked then locked else preds k :: locked) →
          a ∈ l → a ∈ locked ∨ ∃ l < k + 1, a = preds l := by
        rintro l rfl hin
        split at hin
        · exact .inl hin
        · rcases List.mem_cons.mp hin with rfl | hin
          · exact .inr ⟨k, Nat.lt_succ_self k, rfl⟩
          · exact .inl hin
      simp only [lockPreds] at ha
      split at ha
      · exact hstep rfl ha
      · rcases ih ha with hin | ⟨l, hl, rfl⟩
        · exact hstep rfl hin
        · exact .inr ⟨l, Nat.lt_succ_of_lt hl, rfl⟩

/-- Nothing but predecessors is locked. -/
theorem mem_lockPreds {preds : Nat → Addr} {bad : Nat → Bool} {k : Nat} {a : Addr}
    (ha : a ∈ (lockPreds preds bad k []).2) : ∃ l < k, a = preds l :=
  (mem_lockPreds_or ha).resolve_left List.not_mem_nil

omit [LinearOrder K] in
/-- Its rank is the same. -/
theorem Node.Same.rank_eq {n n' : Node K V} (h : n.Same n') : rank n' = rank n := by
  simp only [rank, h.key, h.isNegInf, h.isPosInf]

omit [LinearOrder K] in
/-- It is still a node with a key, in the list. -/
theorem Node.Same.real {n n' : Node K V} (h : n.Same n') (hn : n.Real) : n'.Real :=
  ⟨h.isNegInf.trans hn.notNegInf, h.isPosInf.trans hn.notPosInf, h.marked.trans hn.unmarked,
    h.fullyLinked.trans hn.linked, h.topLevel ▸ hn.top⟩

omit [LinearOrder K] in
/-- **What an insertion leaves behind**: one node more, and pointers to it. -/
theorem insertNode_spec (t : Index K V) (f : Found) (key : K) (val : V) {k : Nat}
    (hpreds : ∀ l < k, f.preds l ≠ t.alloc) :
    (insertNode t f key val k).alloc = t.alloc + 1 ∧
      (∀ b, b ≠ t.alloc → (t.node b).Same ((insertNode t f key val k).node b) ∧
        ∀ l, (insertNode t f key val k).next b l =
          if b = f.preds l ∧ l < k then some t.alloc else t.next b l) ∧
      ((insertNode t f key val k).node t.alloc).key = key ∧
      ((insertNode t f key val k).node t.alloc).val = val ∧
      ((insertNode t f key val k).node t.alloc).topLevel = k - 1 ∧
      (k - 1 < maxLevel → ((insertNode t f key val k).node t.alloc).Real) ∧
      ∀ l < k, (insertNode t f key val k).next t.alloc l = some (f.succs l) := by
  let t₁ := newNode t key val k
  obtain ⟨hsame₂, halloc₂, hnext₂⟩ := fillNext_spec t₁ t.alloc f.succs k
  obtain ⟨hsame₃, halloc₃, hnext₃⟩ :=
    linkPreds_spec (fillNext t₁ t.alloc f.succs k) t.alloc f.preds k
  let t₃ := linkPreds (fillNext t₁ t.alloc f.succs k) t.alloc f.preds k
  have hsame : ∀ b, (t₁.node b).Same (t₃.node b) := fun b => (hsame₂ b).trans (hsame₃ b)
  have hnew : t₁.node t.alloc = ⟨key, val, k - 1, false, false, false, false, fun _ => none⟩ :=
    Function.update_self ..
  have hold : ∀ b, b ≠ t.alloc → t₁.node b = t.node b := fun b hb => Function.update_of_ne hb _ _
  have hn := hsame t.alloc
  rw [hnew] at hn
  have heq : insertNode t f key val k =
      t₃.set t.alloc { t₃.node t.alloc with fullyLinked := true } := rfl
  have hself : (insertNode t f key val k).node t.alloc =
      { t₃.node t.alloc with fullyLinked := true } := by
    rw [heq]
    exact Function.update_self ..
  have hother : ∀ b, b ≠ t.alloc → (insertNode t f key val k).node b = t₃.node b := fun b hb => by
    rw [heq]
    exact Function.update_of_ne hb _ _
  refine ⟨halloc₃.trans halloc₂, fun b hb => ⟨?_, fun l => ?_⟩, ?_, ?_, ?_, fun hk => ?_,
    fun l hl => ?_⟩
  · rw [hother b hb, ← hold b hb]
    exact hsame b
  · rw [Index.next, hother b hb]
    have hsame₁ : (fillNext t₁ t.alloc f.succs k).next b l = t.next b l := by
      rw [hnext₂, if_neg fun h => hb h.1]
      exact congrArg (fun n => Node.next n l) (hold b hb)
    refine (hnext₃ b l).trans ?_
    rw [hsame₁]
  · rw [hself]
    exact hn.key
  · rw [hself]
    exact hn.val
  · rw [hself]
    exact hn.topLevel
  · rw [hself]
    exact ⟨hn.isNegInf, hn.isPosInf, hn.marked, rfl, by rw [show _ = k - 1 from hn.topLevel]; exact hk⟩
  · rw [Index.next, hself]
    refine (hnext₃ t.alloc l).trans ?_
    rw [if_neg fun h => hpreds l hl h.1.symm, hnext₂, if_pos ⟨rfl, hl⟩]

end Stores

/-! ## The updates -/

section Update

variable {t : Index K V} {S : Finset Addr} {key : K}

/-- Links carry over to an index with the same members, ranks and pointers at a level. -/
theorem Ok.links_congr (ok : Ok t S) {t' : Index K V} {S' : Finset Addr} {l : Nat}
    (hl : l < maxLevel) (hat : ∀ a, t'.At S' l a ↔ t.At S l a)
    (hrank : ∀ a, t.At S l a → t'.rank a = t.rank a)
    (hnext : ∀ a, t.At S l a → t'.next a l = t.next a l) :
    Links t'.rank (t'.At S' l) (fun a => t'.next a l) tail :=
  (ok.levels l hl).congr hat hrank hnext

/-- A new value for a key that is there. -/
theorem Ok.setVal (ok : Ok t S) {a : Addr} (ha : a ∈ S) (val : V) :
    Ok (t.set a { t.node a with val := val }) S ∧
      ∀ k v, Stores (t.set a { t.node a with val := val }) S k v ↔
        k = (t.node a).key ∧ v = val ∨ k ≠ (t.node a).key ∧ Stores t S k v := by
  have hself : (t.set a { t.node a with val := val }).node a = { t.node a with val := val } :=
    Function.update_self ..
  have hother : ∀ b, b ≠ a → (t.set a { t.node a with val := val }).node b = t.node b :=
    fun b hb => Function.update_of_ne hb _ _
  have hrank : ∀ b, (t.set a { t.node a with val := val }).rank b = t.rank b := fun b => by
    by_cases hb : b = a
    · subst hb
      rw [Index.rank, hself]
      rfl
    · rw [Index.rank, hother b hb, Index.rank]
  have htop : ∀ b, ((t.set a { t.node a with val := val }).node b).topLevel =
      (t.node b).topLevel := fun b => by
    by_cases hb : b = a
    · rw [hb, hself]
    · rw [hother b hb]
  have hnext : ∀ b l, (t.set a { t.node a with val := val }).next b l = t.next b l := fun b l => by
    by_cases hb : b = a
    · rw [Index.next, hb, hself, Index.next]
    · rw [Index.next, hother b hb, Index.next]
  obtain ⟨ha2, -⟩ := ok.fresh a ha
  have hhead : head ≠ a := fun h => absurd (h ▸ ha2) (by decide)
  have htail : tail ≠ a := fun h => absurd (h ▸ ha2) (by decide)
  refine ⟨⟨ok.alloc, (hrank _).trans ok.headRank, (hrank _).trans ok.tailRank, ?_, ?_, ok.fresh,
    fun b hb => ?_, fun l hl => ok.links_congr hl (fun b => ?_) (fun b _ => hrank b)
      fun b _ => hnext b l⟩, fun k v => ?_⟩
  · rw [hother _ hhead]
    exact ok.headUnmarked
  · rw [hother _ htail]
    exact ok.tailUnmarked
  · by_cases hba : b = a
    · have hr := ok.real a ha
      rw [hba, hself]
      exact ⟨hr.1, hr.2, hr.3, hr.4, hr.5⟩
    · rw [hother b hba]
      exact ok.real b hb
  · simp only [Index.At, htop]
  · constructor
    · rintro ⟨b, hb, rfl, rfl⟩
      by_cases hba : b = a
      · rw [hba, hself]
        exact .inl ⟨rfl, rfl⟩
      · rw [hother b hba]
        exact .inr ⟨fun hk => hba (ok.key_inj hb ha hk), b, hb, rfl, rfl⟩
    · rintro (⟨rfl, rfl⟩ | ⟨hne, b, hb, rfl, rfl⟩)
      · exact ⟨a, ha, by rw [hself], by rw [hself]⟩
      · have hba : b ≠ a := fun h => hne (h ▸ rfl)
        exact ⟨b, hb, by rw [hother b hba], by rw [hother b hba]⟩

/-- **Insertion keeps every level a sorted list.** -/
theorem Ok.insert (ok : Ok t S) {f : Found} (hf : FoundOk t S key 0 f) (hnone : f.lfound = none)
    {k : Nat} (hk : 1 ≤ k ∧ k ≤ maxLevel) (val : V) :
    Ok (insertNode t f key val k) (insert t.alloc S) ∧
      ∀ k' v, Stores (insertNode t f key val k) (insert t.alloc S) k' v ↔
        k' = key ∧ v = val ∨ k' ≠ key ∧ Stores t S k' v := by
  have hat_ne : ∀ {l a}, t.At S l a → a ≠ t.alloc := fun h => (ok.lt_alloc h).ne
  obtain ⟨halloc, hold, hkey, hval, htop, hreal, hnew⟩ := insertNode_spec t f key val (k := k)
    fun l hl => hat_ne (hf.around l (Nat.zero_le l) (hl.trans_le hk.2)).pred
  generalize insertNode t f key val k = t' at *
  have hrank : ∀ {l a}, t.At S l a → t'.rank a = t.rank a := fun h =>
    (hold _ (hat_ne h)).1.rank_eq
  have hnReal := hreal (by omega)
  have hnRank : t'.rank t.alloc = rankOf key := by
    rw [Index.rank, rank, hnReal.notNegInf, hnReal.notPosInf, hkey]
    rfl
  have hS : ∀ a ∈ S, a ≠ t.alloc := fun a ha => (ok.fresh a ha).2.ne
  have htopS : ∀ a ∈ S, (t'.node a).topLevel = (t.node a).topLevel := fun a ha =>
    (hold a (hS a ha)).1.topLevel
  have hmem : ∀ l a, t'.At (Insert.insert t.alloc S) l a ↔
      (a = t.alloc ∧ l < k) ∨ t.At S l a := by
    intro l a
    simp only [Index.At, Finset.mem_insert]
    constructor
    · rintro (rfl | rfl | ⟨rfl | ha, hl⟩)
      · exact .inr (.inl rfl)
      · exact .inr (.inr (.inl rfl))
      · rw [htop] at hl
        exact .inl ⟨rfl, by omega⟩
      · rw [htopS a ha] at hl
        exact .inr (.inr (.inr ⟨ha, hl⟩))
    · rintro (⟨rfl, hl⟩ | rfl | rfl | ⟨ha, hl⟩)
      · exact .inr (.inr ⟨.inl rfl, by rw [htop]; omega⟩)
      · exact .inl rfl
      · exact .inr (.inl rfl)
      · exact .inr (.inr ⟨.inr ha, by rwa [htopS a ha]⟩)
  have hhead : t.At S 0 head := .inl rfl
  have htail : t.At S 0 tail := .inr (.inl rfl)
  refine ⟨⟨halloc ▸ Nat.le_succ_of_le ok.alloc, (hrank hhead).trans ok.headRank, (hrank htail).trans ok.tailRank,
    ?_, ?_, fun a ha => ?_, fun a ha => ?_, fun l hl => ?_⟩, fun k' v => ?_⟩
  · exact (hold _ (hat_ne hhead)).1.marked.trans ok.headUnmarked
  · exact (hold _ (hat_ne htail)).1.marked.trans ok.tailUnmarked
  · rcases Finset.mem_insert.mp ha with rfl | ha
    · rw [halloc]
      exact ⟨ok.alloc, Nat.lt_succ_self _⟩
    · rw [halloc]
      exact ⟨(ok.fresh a ha).1, Nat.lt_succ_of_lt (ok.fresh a ha).2⟩
  · rcases Finset.mem_insert.mp ha with rfl | ha
    · exact hnReal
    · exact (hold a (hS a ha)).1.real (ok.real a ha)
  · by_cases hlk : l < k
    · have haround := hf.around l (Nat.zero_le l) hl
      have hps := haround.follows
      have hlt : rankOf key < t.rank (f.succs l) :=
        lt_of_le_of_ne haround.le (hf.absent hnone l (Nat.zero_le l) hl).symm
      have hlinks : Links t'.rank (t.At S l) (fun a => t.next a l) tail :=
        (ok.levels l hl).congr (fun _ => Iff.rfl) (fun a ha => hrank ha) fun _ _ => rfl
      have hps' : Follows t'.rank (t.At S l) (f.preds l) (f.succs l) := by
        refine ⟨hps.mem, ?_, fun c hc hlt => ?_⟩
        · rw [hrank haround.pred, hrank hps.mem]
          exact hps.lt
        · rw [hrank haround.pred, hrank hc] at hlt
          rw [hrank hps.mem, hrank hc]
          exact hps.least c hc hlt
      have hins := hlinks.insert haround.pred hps' (fun h => hat_ne h rfl)
        (by rw [hrank haround.pred, hnRank]; exact haround.lt)
        (by rw [hrank hps.mem, hnRank]; exact hlt)
      refine hins.congr (fun a => ?_) (fun _ _ => rfl) fun a ha => ?_
      · rw [hmem]
        simp only [hlk, and_true]
      · by_cases hap : a = f.preds l
        · rw [(hold a (hap ▸ hat_ne haround.pred)).2, if_pos ⟨hap, hlk⟩, hap, Function.update_self]
        · rw [Function.update_of_ne hap]
          rcases ha with rfl | ha
          · rw [Function.update_self]
            exact hnew l hlk
          · rw [Function.update_of_ne (hat_ne ha), (hold a (hat_ne ha)).2, if_neg fun h => hap h.1]
    · refine ok.links_congr hl (fun a => ?_) (fun a ha => hrank ha) fun a ha => ?_
      · rw [hmem]
        simp only [hlk, and_false, false_or]
      · rw [(hold a (hat_ne ha)).2, if_neg fun h => hlk h.2]
  · have habsent : ∀ a ∈ S, (t.node a).key ≠ key := fun a ha hka => by
      have := hf.lfound_eq ok ha hka
      rw [hnone] at this
      cases this
    constructor
    · rintro ⟨a, ha, rfl, rfl⟩
      rcases Finset.mem_insert.mp ha with rfl | ha
      · exact .inl ⟨hkey, hval⟩
      · have hsame := (hold a (hS a ha)).1
        refine .inr ⟨?_, a, ha, hsame.key.symm, hsame.val.symm⟩
        rw [hsame.key]
        exact habsent a ha
    · rintro (⟨rfl, rfl⟩ | ⟨-, a, ha, rfl, rfl⟩)
      · exact ⟨t.alloc, Finset.mem_insert_self _ _, hkey, hval⟩
      · have hsame := (hold a (hS a ha)).1
        exact ⟨a, Finset.mem_insert_of_mem ha, hsame.key, hsame.val⟩

/-- **Removal keeps every level a sorted list.** -/
theorem Ok.erase (ok : Ok t S) {f : Found} (hf : FoundOk t S key 0 f) {v : Addr} (hv : v ∈ S)
    (hkey : (t.node v).key = key) {t' : Index K V}
    (ht' : t' = unlinkVictim v f.preds ((t.node v).topLevel + 1)
      (t.set v { t.node v with marked := true })) :
    Ok t' (S.erase v) ∧ ∀ k' w, Stores t' (S.erase v) k' w ↔ k' ≠ key ∧ Stores t S k' w := by
  have htopv := (ok.real v hv).top
  have haround : ∀ l ≤ (t.node v).topLevel, Around t S key l (f.preds l) v := fun l hl => by
    have h := hf.around l (Nat.zero_le l) (hl.trans_lt htopv)
    rwa [hf.succs_eq ok hv hkey hl] at h
  have hpred_ne : ∀ l ≤ (t.node v).topLevel, f.preds l ≠ v := fun l hl heq =>
    (haround l hl).follows.lt.ne (congrArg t.rank heq)
  obtain ⟨hsame, halloc, hnext⟩ := unlinkVictim_spec v f.preds ((t.node v).topLevel + 1)
    (fun l hl => (hpred_ne l (Nat.le_of_lt_succ hl)).symm) (t.set v { t.node v with marked := true })
  rw [← ht'] at hsame halloc hnext
  have hmark : ∀ b, b ≠ v → (t.set v { t.node v with marked := true }).node b = t.node b :=
    fun b hb => Function.update_of_ne hb _ _
  have hmarkNext : ∀ b l, (t.set v { t.node v with marked := true }).next b l = t.next b l :=
    fun b l => by
      by_cases hb : b = v
      · subst hb
        rw [Index.next, show (t.set b { t.node b with marked := true }).node b =
          { t.node b with marked := true } from Function.update_self .., Index.next]
      · rw [Index.next, hmark b hb, Index.next]
  have hold : ∀ b, b ≠ v → (t.node b).Same (t'.node b) := fun b hb => hmark b hb ▸ hsame b
  have hnext' : ∀ b l, t'.next b l =
      if b = f.preds l ∧ l < (t.node v).topLevel + 1 then t.next v l else t.next b l :=
    fun b l => by rw [hnext, hmarkNext, hmarkNext]
  clear hsame hnext hmark hmarkNext
  have hrank : ∀ b, b ≠ v → t'.rank b = t.rank b := fun b hb => (hold b hb).rank_eq
  have hhead : head ≠ v := fun h => absurd (h ▸ (ok.fresh v hv).1) (by decide)
  have htail : tail ≠ v := fun h => absurd (h ▸ (ok.fresh v hv).1) (by decide)
  have hat : ∀ l b, t'.At (S.erase v) l b ↔ b ≠ v ∧ t.At S l b := by
    intro l b
    by_cases hb : b = v
    · subst hb
      simp [Index.At, hhead.symm, htail.symm]
    · simp only [Index.At, Finset.mem_erase, (hold b hb).topLevel, hb, ne_eq, not_false_eq_true,
        true_and]
  refine ⟨⟨?_, (hrank _ hhead).trans ok.headRank, (hrank _ htail).trans ok.tailRank,
    (hold _ hhead).marked.trans ok.headUnmarked, (hold _ htail).marked.trans ok.tailUnmarked,
    fun b hb => ?_, fun b hb => ?_, fun l hl => ?_⟩, fun k' w => ?_⟩
  · rw [halloc]
    exact ok.alloc
  · rw [halloc]
    exact ok.fresh b (Finset.mem_of_mem_erase hb)
  · exact (hold b (Finset.ne_of_mem_erase hb)).real (ok.real b (Finset.mem_of_mem_erase hb))
  · by_cases hlv : l ≤ (t.node v).topLevel
    · have hv' : t.At S l v := .inr (.inr ⟨hv, hlv⟩)
      obtain ⟨w, hw, hvw⟩ := (ok.levels l hl).succ v hv' htail.symm
      have ha := haround l hlv
      have hera := (ok.levels l hl).erase ha.pred ha.follows hvw htail.symm
      refine hera.congr (hat l) (fun b hb => hrank b hb.1) fun b _ => ?_
      rw [hnext']
      by_cases hbp : b = f.preds l
      · rw [if_pos ⟨hbp, Nat.lt_succ_of_le hlv⟩, hbp, Function.update_self]
        exact hw
      · rw [if_neg fun h => hbp h.1, Function.update_of_ne hbp]
    · have hnot : ¬ t.At S l v := by
        rintro (h | h | h)
        · exact hhead h.symm
        · exact htail h.symm
        · exact hlv h.2
      refine ok.links_congr hl (fun b => ?_) (fun b hb => hrank b fun h => hnot (h ▸ hb)) fun b _ => ?_
      · rw [hat, and_iff_right_iff_imp]
        exact fun hb h => hnot (h ▸ hb)
      · rw [hnext', if_neg fun h => hlv (Nat.le_of_lt_succ h.2)]
  · constructor
    · rintro ⟨b, hb, rfl, rfl⟩
      obtain ⟨hbv, hb⟩ := Finset.mem_erase.mp hb
      rw [(hold b hbv).key, (hold b hbv).val]
      exact ⟨fun hk => hbv (ok.key_inj hb hv (hk.trans hkey.symm)), b, hb, rfl, rfl⟩
    · rintro ⟨hne, b, hb, rfl, rfl⟩
      have hbv : b ≠ v := by
        rintro rfl
        exact hne hkey
      exact ⟨b, Finset.mem_erase.mpr ⟨hbv, hb⟩, (hold b hbv).key, (hold b hbv).val⟩

/-- **`put`** needs one round. -/
theorem putRound_spec (ok : Ok t S) (key : K) (val : V) {k : Nat} (hk : 1 ≤ k ∧ k ≤ maxLevel) :
    ∃ t' S' new, putRound t key val k = some (.done (t', new)) ∧ Ok t' S' ∧
      (∀ k' v, Stores t' S' k' v ↔ k' = key ∧ v = val ∨ k' ≠ key ∧ Stores t S k' v) ∧
      (new = true ↔ ∀ v, ¬ Stores t S key v) := by
  obtain ⟨f, hfind, hf⟩ := find_spec ok key
  simp only [putRound, hfind, Option.bind_some]
  cases hl : f.lfound with
  | some l =>
      obtain ⟨hmem, rfl⟩ := hf.mem_of_lfound ok hl
      have hreal := ok.real _ hmem
      obtain ⟨hok, hstores⟩ := ok.setVal hmem val
      refine ⟨_, S, false, ?_, hok, hstores, ?_⟩
      · simp [hreal.unmarked, hreal.linked]
      · exact iff_of_false Bool.false_ne_true fun h => h _ ⟨_, hmem, rfl, rfl⟩
  | none =>
      obtain ⟨hok, hstores⟩ := ok.insert hf hl hk val
      have hgood : ∀ l < k, putBad t f l = false := fun l hlk => by
        have h := hf.around l (Nat.zero_le l) (hlk.trans_le hk.2)
        simp [putBad, ok.unmarked h.pred, ok.unmarked h.follows.mem, h.next]
      refine ⟨_, _, true, ?_, hok, hstores, iff_of_true rfl fun v ⟨a, ha, hka, _⟩ => ?_⟩
      · simp only [lockPreds_all hgood, if_true]
      · have := hf.lfound_eq ok ha hka
        rw [hl] at this
        cases this

/-- **`remove`** needs one round, and does not give up on a key that is there. -/
theorem removeRound_spec (ok : Ok t S) (key : K) :
    ∃ t' S' found, removeRound t key = some (.done (t', found)) ∧ Ok t' S' ∧
      (∀ k' v, Stores t' S' k' v ↔ k' ≠ key ∧ Stores t S k' v) ∧
      (found = true ↔ ∃ v, Stores t S key v) := by
  obtain ⟨f, hfind, hf⟩ := find_spec ok key
  simp only [removeRound, hfind, Option.bind_some]
  cases hl : f.lfound with
  | none =>
      have habsent : ∀ v, ¬ Stores t S key v := fun v ⟨a, ha, hka, _⟩ => by
        have := hf.lfound_eq ok ha hka
        rw [hl] at this
        cases this
      refine ⟨t, S, false, rfl, ok, fun k' v => ?_, iff_of_false Bool.false_ne_true fun ⟨v, h⟩ =>
        habsent v h⟩
      refine ⟨fun h => ⟨?_, h⟩, fun h => h.2⟩
      rintro rfl
      exact habsent v h
  | some l =>
      obtain ⟨hmem, hkey⟩ := hf.mem_of_lfound ok hl
      obtain ⟨hok, hstores⟩ := ok.erase hf hmem hkey rfl
      have hreal := ok.real _ hmem
      have htop : (t.node (f.succs l)).topLevel = l :=
        Option.some.inj ((hf.lfound_eq ok hmem hkey).symm.trans hl)
      have haround : ∀ l' < l + 1, Around t S key l' (f.preds l') (f.succs l) := fun l' hl' => by
        have hle : l' ≤ (t.node (f.succs l)).topLevel := htop.symm ▸ Nat.le_of_lt_succ hl'
        have h := hf.around l' (Nat.zero_le l') (hle.trans_lt hreal.top)
        rwa [hf.succs_eq ok hmem hkey hle] at h
      have hgood : ∀ l' < l + 1, removeBad t f (f.succs l) l' = false := fun l' hl' => by
        have h := haround l' hl'
        simp [removeBad, ok.unmarked h.pred, h.next]
      have hfree : f.succs l ∉ (lockPreds f.preds (removeBad t f (f.succs l)) (l + 1) []).2 := by
        intro hin
        obtain ⟨l', hl', heq⟩ := mem_lockPreds hin
        exact (haround l' hl').follows.lt.ne (congrArg t.rank heq.symm)
      refine ⟨_, _, true, ?_, hok, hstores, iff_of_true rfl ⟨_, _, hmem, hkey, rfl⟩⟩
      simp [hreal.unmarked, hreal.linked, htop, lockPreds_all hgood, lock, hfree]

end Update

/-! ## Sequences of calls -/

section Calls

variable {t : Index K V} {S : Finset Addr} {g : K → Option V}

/-- The index is in order and stores the map. -/
structure Refines (t : Index K V) (S : Finset Addr) (g : K → Option V) : Prop extends Ok t S where
  mem : ∀ k v, Stores t S k v ↔ g k = some v

/-- **The constructor** leaves an empty map. -/
theorem refines_construct [Inhabited K] [Inhabited V] :
    Refines (construct : Index K V) ∅ fun _ => none := by
  have hhead : (construct : Index K V).rank head = ⊥ := by
    simp [Index.rank, construct, rank]
  have htail : (construct : Index K V).rank tail = ⊤ := by
    simp [Index.rank, construct, rank, head, tail, sentinel]
  have hat : ∀ l a, (construct : Index K V).At ∅ l a → a = head ∨ a = tail := by
    rintro l a (rfl | rfl | h)
    · exact .inl rfl
    · exact .inr rfl
    · exact absurd h.1 (Finset.notMem_empty a)
  have hlt : (construct : Index K V).rank head < (construct : Index K V).rank tail := by
    rw [hhead, htail]
    exact bot_lt_top
  refine ⟨⟨le_rfl, hhead, htail, rfl, rfl, fun a ha => absurd ha (Finset.notMem_empty a),
    fun a ha => absurd ha (Finset.notMem_empty a), fun l hl => ⟨fun a b ha hb heq => ?_,
      .inr (.inl rfl), fun a _ => ?_, fun a ha hne => ⟨tail, ?_, .inr (.inl rfl), ?_, ?_⟩⟩⟩,
    fun k v => ?_⟩
  · rcases hat l a ha with rfl | rfl
    · rcases hat l b hb with rfl | rfl
      · rfl
      · exact absurd heq hlt.ne
    · rcases hat l b hb with rfl | rfl
      · exact absurd heq hlt.ne'
      · rfl
  · rw [htail]
    exact le_top
  · obtain rfl := (hat l a ha).resolve_right hne
    simp [Index.next, construct, hl]
  · obtain rfl := (hat l a ha).resolve_right hne
    exact hlt
  · intro c hc hltc
    rcases hat l c hc with rfl | rfl
    · rw [hhead] at hltc
      exact absurd hltc not_lt_bot
    · exact le_rfl
  · simp [Stores]

/-- **A call is a step of the map.** -/
theorem run_refines (href : Refines t S g) (c : Call K V) :
    ∃ t' S', c.run t = some (t', (c.op.apply g).2) ∧ Refines t' S' (c.op.apply g).1 := by
  have hlookup : ∀ key, get t key = some (g key) ∧ ∀ version : Addr → Nat,
      (∀ a, version a % 2 = 0) → optimisticRound t version key = some (.done (g key)) := by
    intro key
    obtain ⟨r, hr, hopt, hspec⟩ := lookup_spec href.toOk key
    obtain rfl : r = g key := Option.ext fun v => (hspec v).trans (href.mem key v)
    exact ⟨hr, hopt⟩
  cases c with
  | get key => exact ⟨t, S, by simp only [Call.run, (hlookup key).1]; rfl, href⟩
  | getShared key => exact ⟨t, S, by simp only [Call.run, getShared, (hlookup key).1]; rfl, href⟩
  | getOptimistic key version =>
      refine ⟨t, S, ?_, href⟩
      simp only [Call.run, (hlookup key).2 version.1 version.2]
      rfl
  | put key val newLevel =>
      obtain ⟨t', S', new, hput, hok, hstores, hnew⟩ := putRound_spec href.toOk key val newLevel.2
      refine ⟨t', S', ?_, hok, fun k v => ?_⟩
      · simp only [Call.run, hput, once, Option.bind_some, Option.map_some, Call.op, MapOp.apply]
        congr 3
        rw [Bool.eq_iff_iff, hnew, Option.isNone_iff_eq_none, Option.eq_none_iff_forall_ne_some]
        exact forall_congr' fun v => not_congr (href.mem key v)
      · rw [hstores]
        by_cases hk : k = key
        · subst hk
          simp [Call.op, MapOp.apply, eq_comm]
        · simp [Call.op, MapOp.apply, hk, href.mem]
  | remove key =>
      obtain ⟨t', S', found, hrem, hok, hstores, hfound⟩ := removeRound_spec href.toOk key
      refine ⟨t', S', ?_, hok, fun k v => ?_⟩
      · simp only [Call.run, hrem, once, Option.bind_some, Option.map_some, Call.op, MapOp.apply]
        congr 3
        rw [Bool.eq_iff_iff, hfound, Option.isSome_iff_exists]
        exact exists_congr fun v => href.mem key v
      · rw [hstores]
        by_cases hk : k = key
        · subst hk
          simp [Call.op, MapOp.apply]
        · simp [Call.op, MapOp.apply, hk, href.mem]

/-- **A sequence of calls returns what the map returns**, from any index that stands for it. -/
theorem runCalls_refines (cs : List (Call K V)) (href : Refines t S g) :
    ∃ t' S', runCalls t cs = some (t', (mapObject K V).results g (cs.map Call.op)) ∧ Ok t' S' := by
  induction cs generalizing t S g with
  | nil => exact ⟨t, S, rfl, href.toOk⟩
  | cons c cs ih =>
      obtain ⟨t₁, S₁, hrun, href₁⟩ := run_refines href c
      obtain ⟨t', S', hrest, hok⟩ := ih href₁
      refine ⟨t', S', ?_, hok⟩
      simp only [runCalls, hrun, Option.bind_some, hrest, Option.map_some, List.map_cons,
        SeqObject.results]
      rfl

/-! ## The shape -/

/-- The lists of the levels, from `head_` to `tail_`: strictly increasing keys of unmarked,
fully linked nodes, each node at the levels up to its `top_level` and no others. -/
structure Shape (t : Index K V) (level : Nat → List Addr) : Prop where
  path : ∀ l < maxLevel, Path (fun a => t.next a l) tail head (level l)
  sorted : ∀ l < maxLevel, (level l).Pairwise fun a b => (t.node a).key < (t.node b).key
  real : ∀ l < maxLevel, ∀ a ∈ level l, (t.node a).Real
  sublist : ∀ l, l + 1 < maxLevel → (level (l + 1)).Sublist (level l)
  mem : ∀ a ∈ level 0, ∀ l < maxLevel, a ∈ level l ↔ l ≤ (t.node a).topLevel

/-- The list of a level. -/
theorem Ok.exists_level (ok : Ok t S) {l : Nat} (hl : l < maxLevel) :
    ∃ as, Path (fun a => t.next a l) tail head as ∧
      as.Pairwise (fun a b => (t.node a).key < (t.node b).key) ∧
      ∀ a, a ∈ as ↔ a ∈ S ∧ l ≤ (t.node a).topLevel := by
  obtain ⟨as, hpath, hsorted, hmem⟩ :=
    (ok.levels l hl).exists_path (ok.finite l) (.inl rfl) (show head ≠ tail by decide)
  have hmem' : ∀ a, a ∈ as ↔ a ∈ S ∧ l ≤ (t.node a).topLevel := by
    intro a
    rw [hmem]
    constructor
    · rintro ⟨rfl | rfl | ha, hlt, hne⟩
      · exact absurd hlt (lt_irrefl _)
      · exact absurd rfl hne
      · exact ha
    · intro ha
      refine ⟨.inr (.inr ha), ?_, ?_⟩
      · rw [ok.headRank, ok.rank_real ha.1]
        exact bot_lt_iff_ne_bot.mpr (rankOf_ne_bot _)
      · rintro rfl
        exact absurd (ok.fresh _ ha.1).1 (by decide)
  refine ⟨as, hpath, ?_, hmem'⟩
  refine (List.pairwise_cons.mp hsorted).2.imp_of_mem fun {a b} ha hb hlt => ?_
  rwa [ok.rank_real ((hmem' a).mp ha).1, ok.rank_real ((hmem' b).mp hb).1, rankOf_lt] at hlt

/-- **An index in order has the shape of a skip list.** -/
theorem Ok.exists_shape (ok : Ok t S) : ∃ level, Shape t level := by
  have hlevel : ∀ l, ∃ as, l < maxLevel → Path (fun a => t.next a l) tail head as ∧
      as.Pairwise (fun a b => (t.node a).key < (t.node b).key) ∧
      ∀ a, a ∈ as ↔ a ∈ S ∧ l ≤ (t.node a).topLevel := fun l => by
    by_cases hl : l < maxLevel
    · obtain ⟨as, h⟩ := ok.exists_level hl
      exact ⟨as, fun _ => h⟩
    · exact ⟨[], fun h => absurd h hl⟩
  choose level hlevel using hlevel
  refine ⟨level, fun l hl => (hlevel l hl).1, fun l hl => (hlevel l hl).2.1,
    fun l hl a ha => ok.real a (((hlevel l hl).2.2 a).mp ha).1, fun l hl => ?_, fun a ha l hl => ?_⟩
  · obtain ⟨-, hs, hm⟩ := hlevel l (Nat.lt_of_succ_lt hl)
    obtain ⟨-, hs', hm'⟩ := hlevel (l + 1) hl
    refine List.sublist_of_subperm_of_pairwise ?_ hs' hs
    refine List.subperm_of_subset (hs'.imp fun h heq => h.ne (congrArg (fun a => (t.node a).key) heq))
      fun a ha => ?_
    exact (hm a).mpr ⟨((hm' a).mp ha).1, Nat.le_of_succ_le ((hm' a).mp ha).2⟩
  · rw [(hlevel l hl).2.2]
    exact and_iff_right (((hlevel 0 (by decide)).2.2 a).mp ha).1

/-- **`skiplist_index` is a map for one thread and keeps its shape**, for every choice of
the levels.  Every sequence of calls returns, call by call and each in its first round,
what the calls return on a map, and the index behind it has the shape of a skip list. -/
theorem runCalls_refines_map_skiplist [Inhabited K] [Inhabited V] (cs : List (Call K V)) :
    ∃ t level, runCalls construct cs =
        some (t, (mapObject K V).results (mapObject K V).init (cs.map Call.op)) ∧
      Shape t level := by
  obtain ⟨t, S, hrun, hok⟩ := runCalls_refines cs refines_construct
  obtain ⟨level, hshape⟩ := hok.exists_shape
  exact ⟨t, level, hrun, hshape⟩

end Calls

end

end SkipListSeq
