import LockBench.BptreePut

/-!
# `bptree_index` is a map

For one thread the index behaves as a map from keys to values: the entries of its
leaves are the map, whatever has been split and however many leaves have run empty.
-/

namespace BptreeIndex

section

variable {K V : Type} [LinearOrder K] {F h m : Nat} {lo : WithBot K} {hi : WithTop K} {p : Ptr}
  {key : K} {t : Tree K V}

/-! ## The descent -/

/-- The child that a search for the key goes to; no leaf below another child has the
key. -/
theorem Shape.child (hshape : Shape F t.heap (h + 1) m lo hi p) (hkey : InRange lo hi key) :
    ∃ ks cs c lo' hi', t.heap p = .internal ks cs ∧ cs[upperSlot ks key]? = some c ∧
      Shape F t.heap h (F / 2) lo' hi' c ∧ InRange lo' hi' key ∧
      (∀ q ∈ leaves t.heap h c, q ∈ leaves t.heap (h + 1) p) ∧
      ∀ q ∈ leaves t.heap (h + 1) p, ∀ v, (key, v) ∈ (t.heap q).entries → q ∈ leaves t.heap h c := by
  obtain ⟨c₀, ps, hp, hsorted, hin, hm, hlen, hcells⟩ := hshape
  obtain ⟨as, bs, rfl, hslot, has, hbs⟩ := upperSlot_split hsorted key
  obtain ⟨lo', hi', c, xs, ys, f⟩ := hcells.focus hsorted hkey has hbs hin
  refine ⟨_, _, c, lo', hi', hp, ?_, f.part, f.inRange, ?_, ?_⟩
  · rw [hslot, f.parts, ← f.length]
    simp
  · intro q hq
    rw [leaves, hp, Node.children, f.parts]
    exact List.mem_flatMap.mpr ⟨c, by simp, hq⟩
  · intro q hq v he
    rw [leaves, hp, Node.children, f.parts] at hq
    obtain ⟨d, hd, hqd⟩ := List.mem_flatMap.mp hq
    have hother : d ∉ xs ++ ys := by
      intro hd
      obtain ⟨lo₁, hi₁, hS, hnot⟩ := f.others d hd
      exact hnot (hS.entries_inRange (e := (key, v)) (List.mem_flatMap.mpr ⟨q, hqd, he⟩))
    obtain rfl : d = c := by
      simp only [List.mem_append, List.mem_cons, not_or] at hd hother
      tauto
    exact hqd

/-- **The descent ends at the only leaf that can have the key.** -/
theorem findLeaf_spec (hshape : Shape F t.heap h m lo hi p) (hkey : InRange lo hi key) {fuel : Nat}
    (hfuel : h < fuel) :
    ∃ l es next, findLeaf t.heap key fuel p = some l ∧ t.heap l = .leaf es next ∧
      (es.map Prod.fst).Pairwise (· < ·) ∧ l ∈ leaves t.heap h p ∧
      ∀ q ∈ leaves t.heap h p, ∀ v, (key, v) ∈ (t.heap q).entries → q = l := by
  induction h generalizing p m lo hi fuel with
  | zero =>
      obtain ⟨fuel, rfl⟩ := Nat.exists_eq_succ_of_ne_zero (Nat.ne_zero_of_lt hfuel)
      obtain ⟨es, next, hp, hsorted, -⟩ := hshape
      refine ⟨p, es, next, ?_, hp, hsorted, .head _, fun q hq _ _ => List.mem_singleton.mp hq⟩
      simp only [findLeaf, hp]
  | succ h ih =>
      obtain ⟨fuel, rfl⟩ := Nat.exists_eq_succ_of_ne_zero (Nat.ne_zero_of_lt hfuel)
      obtain ⟨ks, cs, c, lo', hi', hp, hget, hc, hkey', hsub, honly⟩ := hshape.child hkey
      obtain ⟨l, es, next, hfind, hl, hsorted, hmem, huniq⟩ := ih hc hkey' (by omega : h < fuel)
      refine ⟨l, es, next, ?_, hl, hsorted, hsub l hmem,
        fun q hq v he => huniq q (honly q hq v he) v he⟩
      simp only [findLeaf, hp, hget, Option.bind_some, hfind]

/-- The value of the key among the entries of the tree. -/
theorem get_spec (ok : TreeOk F t h) (key : K) :
    ∃ r, get t key = some r ∧ ∀ v, r = some v ↔ (key, v) ∈ t.entries h := by
  obtain ⟨l, es, next, hfind, hl, hsorted, hmem, huniq⟩ :=
    findLeaf_spec ok.shape (inRange_univ key) ok.height_lt
  refine ⟨findInLeaf es key, ?_, fun v => ?_⟩
  · simp only [get, hfind, Option.map_some, hl, Node.entries]
  · rw [findInLeaf_eq_some hsorted]
    constructor
    · intro he
      exact List.mem_flatMap.mpr ⟨l, hmem, by rw [hl]; exact he⟩
    · intro he
      obtain ⟨q, hq, he⟩ := List.mem_flatMap.mp he
      obtain rfl := huniq q hq v he
      rwa [hl] at he

/-- With all locks free every validation succeeds, and `get_optimistic` is `get`. -/
theorem optimisticFrom_eq {version : Ptr → Nat} (hfree : ∀ p, version p % 2 = 0) (fuel : Nat)
    (p : Ptr) : optimisticFrom t version key fuel p =
      (findLeaf t.heap key fuel p).map fun cur => findInLeaf (t.heap cur).entries key := by
  induction fuel generalizing p with
  | zero => rfl
  | succ fuel ih =>
      have hbegin : readBegin version p = some (OccLock.word (version p)) := by
        simp [readBegin, (OccLock.odd_eq_false_iff _).mpr (hfree p)]
      have hvalid : readValidate version p (OccLock.word (version p)) = true := by
        simp [readValidate]
      simp only [optimisticFrom, findLeaf, hbegin, Option.bind_some, hvalid, if_true]
      cases hp : t.heap p with
      | leaf es next => simp [hp, Node.entries]
      | internal ks cs =>
          cases hget : cs[upperSlot ks key]? with
          | none => simp only [hget, Option.bind_none, Option.map_none]
          | some c => simp only [hget, Option.bind_some, ih c]

theorem getOptimistic_eq {version : Ptr → Nat} (hfree : ∀ p, version p % 2 = 0) :
    getOptimistic t version key = get t key :=
  optimisticFrom_eq hfree _ _

/-! ## `remove` -/

/-- A leaf that lost entries. -/
theorem Shape.set_leaf {l : Ptr} {es es' : List (K × V)} {next : Option Ptr}
    (hl : t.heap l = .leaf es next) (hsub : es'.Sublist es) (hshape : Shape F t.heap h m lo hi p) :
    Shape F (t.set l (.leaf es' next)).heap h m lo hi p := by
  induction h generalizing p m lo hi with
  | zero =>
      obtain ⟨es₀, next₀, hp, hsorted, hin, hlen⟩ := hshape
      by_cases hpl : p = l
      · subst hpl
        obtain ⟨rfl, rfl⟩ := Node.leaf.inj (hp.symm.trans hl)
        exact ⟨es', next₀, Function.update_self .., hsorted.sublist (hsub.map _),
          fun e he => hin e (hsub.subset he), hsub.length_le.trans hlen⟩
      · exact ⟨es₀, next₀, (Function.update_of_ne hpl ..).trans hp, hsorted, hin, hlen⟩
  | succ h ih =>
      obtain ⟨c, ps, hp, hsorted, hin, hm, hlen, hcells⟩ := hshape
      have hpl : p ≠ l := by
        rintro rfl
        cases hp.symm.trans hl
      exact ⟨c, ps, (Function.update_of_ne hpl ..).trans hp, hsorted, hin, hm, hlen,
        hcells.mono fun q _ _ _ hq => ih hq⟩

omit [LinearOrder K] in
theorem children_set_leaf {l : Ptr} {es es' : List (K × V)} {next : Option Ptr}
    (hl : t.heap l = .leaf es next) (q : Ptr) :
    ((t.set l (.leaf es' next)).heap q).children = (t.heap q).children := by
  by_cases hq : q = l
  · subst hq
    simp [Tree.set, hl, Node.children]
  · simp [Tree.set, hq]

omit [LinearOrder K] in
theorem nodes_set_leaf {l : Ptr} {es es' : List (K × V)} {next : Option Ptr}
    (hl : t.heap l = .leaf es next) :
    nodes (t.set l (.leaf es' next)).heap h p = nodes t.heap h p := by
  induction h generalizing p with
  | zero => rfl
  | succ h ih =>
      simp only [nodes, children_set_leaf hl]
      exact congrArg _ (List.flatMap_congr fun q _ => ih)

omit [LinearOrder K] in
theorem leaves_set_leaf {l : Ptr} {es es' : List (K × V)} {next : Option Ptr}
    (hl : t.heap l = .leaf es next) :
    leaves (t.set l (.leaf es' next)).heap h p = leaves t.heap h p := by
  induction h generalizing p with
  | zero => rfl
  | succ h ih =>
      simp only [leaves, children_set_leaf hl]
      exact List.flatMap_congr fun q _ => ih

omit [LinearOrder K] in
theorem Chain.set_leaf {l : Ptr} {es es' : List (K × V)} {next fin : Option Ptr} {ls : List Ptr}
    (hl : t.heap l = .leaf es next) (hc : Chain t.heap ls fin) :
    Chain (t.set l (.leaf es' next)).heap ls fin := by
  induction ls with
  | nil => trivial
  | cons q ls ih =>
      refine ⟨?_, ih hc.2⟩
      rw [← hc.1]
      by_cases hq : q = l
      · subst hq
        simp [Tree.set, hl, Node.nextLeaf]
      · simp [Tree.set, hq]

/-- **`remove`** returns, keeps the tree in order and takes the key out. -/
theorem remove_spec (ok : TreeOk F t h) (key : K) :
    ∃ t' b, remove t key = some (t', b) ∧ TreeOk F t' h ∧
      (∀ e, e ∈ t'.entries h ↔ e ∈ t.entries h ∧ e.1 ≠ key) ∧
      (b = true ↔ ∃ v, (key, v) ∈ t.entries h) := by
  obtain ⟨l, es, next, hfind, hl, hsorted, hmem, huniq⟩ :=
    findLeaf_spec ok.shape (inRange_univ key) ok.height_lt
  obtain ⟨hsub, hrest, hfound⟩ := leafRemove_spec hsorted key
  refine ⟨t.set l (.leaf (leafRemove es key).1 next), (leafRemove es key).2, ?_, ⟨?_, ?_, ?_⟩, ?_, ?_⟩
  · simp only [remove, hfind, Option.bind_some, hl]
  · exact ok.shape.set_leaf hl hsub
  · rw [nodes_set_leaf hl]
    exact ok.perm
  · rw [leaves_set_leaf hl]
    exact ok.chain.set_leaf hl
  · intro e
    change e ∈ entriesOf _ (leaves _ h t.root) ↔ _
    rw [leaves_set_leaf hl]
    have hq : ∀ q ∈ leaves t.heap h t.root,
        (e ∈ ((t.set l (.leaf (leafRemove es key).1 next)).heap q).entries ↔
          e ∈ (t.heap q).entries ∧ e.1 ≠ key) := by
      intro q hq
      by_cases hql : q = l
      · subst hql
        simp only [Tree.set, Function.update_self, hl, Node.entries]
        exact hrest e
      · simp only [Tree.set, Function.update_of_ne hql]
        refine ⟨fun he => ⟨he, ?_⟩, fun he => he.1⟩
        rintro rfl
        exact hql (huniq q hq e.2 he)
    constructor
    · intro he
      obtain ⟨q, hmem, he⟩ := List.mem_flatMap.mp he
      obtain ⟨he, hne⟩ := (hq q hmem).mp he
      exact ⟨List.mem_flatMap.mpr ⟨q, hmem, he⟩, hne⟩
    · rintro ⟨he, hne⟩
      obtain ⟨q, hmem, he⟩ := List.mem_flatMap.mp he
      exact List.mem_flatMap.mpr ⟨q, hmem, (hq q hmem).mpr ⟨he, hne⟩⟩
  · rw [hfound]
    constructor
    · rintro ⟨v, hv⟩
      exact ⟨v, List.mem_flatMap.mpr ⟨l, hmem, by rw [hl]; exact hv⟩⟩
    · rintro ⟨v, hv⟩
      obtain ⟨q, hq, hv⟩ := List.mem_flatMap.mp hv
      obtain rfl := huniq q hq v hv
      rw [hl] at hv
      exact ⟨v, hv⟩

/-! ## Sequences of calls -/

/-- The tree holds the map. -/
structure Holds (F : Nat) (t : Tree K V) (h : Nat) (f : K → Option V) : Prop extends TreeOk F t h where
  mem : ∀ k v, (k, v) ∈ t.entries h ↔ f k = some v

theorem holds_empty : Holds F (Tree.empty : Tree K V) 0 fun _ => none where
  shape := ⟨[], none, rfl, List.Pairwise.nil, nofun, Nat.zero_le _⟩
  perm := .refl _
  chain := ⟨rfl, trivial⟩
  mem k v := by simp [Tree.entries, entriesOf, leaves, Tree.empty, Node.entries]

/-- **One call** on a tree that holds a map returns what the map returns, and leaves a tree
that holds the map behind it, unless it is a `put` whose path does not fit into `held`. -/
theorem run_holds (hF : F ≤ 65535) (hpos : 1 ≤ F) {f : K → Option V} (holds : Holds F t h f)
    (c : Call K V) :
    (∃ t' h', c.run F t = some (t', (c.op.apply f).2) ∧ Holds F t' h' (c.op.apply f).1) ∨
      (c.run F t = none ∧ maxHeight < h) := by
  have hget : ∀ key, get t key = some (f key) := by
    intro key
    obtain ⟨r, hr, hmem⟩ := get_spec holds.toTreeOk key
    rw [hr, Option.some.injEq]
    refine Option.ext fun v => ?_
    exact (hmem v).trans (holds.mem key v)
  cases c with
  | get key => exact .inl ⟨t, h, by simp only [Call.run, hget]; rfl, holds⟩
  | getShared key => exact .inl ⟨t, h, by simp only [Call.run, getShared, hget]; rfl, holds⟩
  | getOptimistic key version =>
      refine .inl ⟨t, h, ?_, holds⟩
      simp only [Call.run, getOptimistic_eq version.2, hget]
      rfl
  | put key val =>
      rcases put_spec hF hpos holds.toTreeOk key val with
        ⟨t', b, h', hput, ok, hmem, hb⟩ | ⟨hnone, hlong⟩
      · refine .inl ⟨t', h', ?_, ok, fun k v => ?_⟩
        · simp only [Call.run, hput, Option.map_some, Call.op, MapOp.apply]
          congr 3
          rw [Bool.eq_iff_iff, hb, Option.isNone_iff_eq_none, Option.eq_none_iff_forall_ne_some]
          constructor
          · exact fun hall v hv => hall (key, v) ((holds.mem key v).mpr hv) rfl
          · rintro hnone ⟨k, v⟩ he rfl
            exact hnone v ((holds.mem k v).mp he)
        · rw [hmem]
          by_cases hk : k = key
          · subst hk
            simp [Call.op, MapOp.apply, eq_comm]
          · simp [Call.op, MapOp.apply, hk, holds.mem]
      · exact .inr ⟨by rw [Call.run, hnone, Option.map_none], hlong⟩
  | remove key =>
      obtain ⟨t', b, hrem, ok, hmem, hb⟩ := remove_spec holds.toTreeOk key
      refine .inl ⟨t', h, ?_, ok, fun k v => ?_⟩
      · simp only [Call.run, hrem, Option.map_some, Call.op, MapOp.apply]
        congr 3
        rw [Bool.eq_iff_iff, hb, Option.isSome_iff_exists]
        exact exists_congr fun v => holds.mem key v
      · rw [hmem]
        by_cases hk : k = key
        · subst hk
          simp [Call.op, MapOp.apply]
        · simp [Call.op, MapOp.apply, hk, holds.mem]

-- With fan-out 1 a put of a key below all others splits every node of its path; the 35th needs
-- one place more than `held` has.
example : (runCalls 1 Tree.empty ((List.range 35).map fun i =>
    (.put (100 - i) i : Call Nat Nat))).isNone = true := by decide +kernel

/-- On a tree no higher than `MAX_HEIGHT` every call returns. -/
theorem run_holds_low (hF : F ≤ 65535) (hpos : 1 ≤ F) {f : K → Option V} (holds : Holds F t h f)
    (hheight : h ≤ maxHeight) (c : Call K V) :
    ∃ t' h', c.run F t = some (t', (c.op.apply f).2) ∧ Holds F t' h' (c.op.apply f).1 :=
  (run_holds hF hpos holds c).resolve_right fun hfail => absurd hfail.2 (Nat.not_lt.mpr hheight)

/-- The height is that of the shape. -/
theorem levelsBelow_eq (hshape : Shape F t.heap h m lo hi p) {fuel : Nat} (hfuel : h < fuel) :
    levelsBelow t.heap fuel p = h := by
  induction h generalizing p m lo hi fuel with
  | zero =>
      obtain ⟨fuel, rfl⟩ := Nat.exists_eq_succ_of_ne_zero (Nat.ne_zero_of_lt hfuel)
      obtain ⟨es, next, hp, -⟩ := hshape
      simp only [levelsBelow, hp]
  | succ h ih =>
      obtain ⟨fuel, rfl⟩ := Nat.exists_eq_succ_of_ne_zero (Nat.ne_zero_of_lt hfuel)
      obtain ⟨c, ps, hp, -⟩ := id hshape
      obtain ⟨lo₁, hi₁, hc, -⟩ := hshape.cell (c := c) (by rw [hp]; exact .head _)
      simp only [levelsBelow, hp, List.head?_cons, Option.map_some, Option.getD_some,
        ih hc (by omega : h < fuel)]

theorem TreeOk.height_eq (ok : TreeOk F t h) : t.height = h :=
  levelsBelow_eq ok.shape ok.height_lt

/-- The trees that a sequence of calls goes through are no higher than `MAX_HEIGHT`. -/
def WithinHeight (F : Nat) (cs : List (Call K V)) : Prop :=
  ∀ cs' t rs, cs' <+: cs → runCalls F Tree.empty cs' = some (t, rs) → t.height ≤ maxHeight

/-- Calls from a tree that holds a map. -/
theorem runCalls_holds (hF : F ≤ 65535) (hpos : 1 ≤ F) (cs : List (Call K V)) {f : K → Option V}
    (holds : Holds F t h f)
    (hheight : ∀ cs' t' rs, cs' <+: cs → runCalls F t cs' = some (t', rs) → t'.height ≤ maxHeight) :
    ∃ t' h', runCalls F t cs = some (t', (mapObject K V).results f (cs.map Call.op)) ∧
      Holds F t' h' ((mapObject K V).after f (cs.map Call.op)) := by
  induction cs generalizing t h f with
  | nil => exact ⟨t, h, rfl, holds⟩
  | cons c cs ih =>
      have hle : h ≤ maxHeight := by
        rw [← holds.height_eq]
        exact hheight [] t [] (List.nil_prefix) rfl
      obtain ⟨t₁, h₁, hrun, holds₁⟩ := run_holds_low hF hpos holds hle c
      obtain ⟨t', h', hrest, holds'⟩ := ih holds₁ fun cs' t' rs hpre hcs' =>
        hheight (c :: cs') t' ((c.op.apply f).2 :: rs) ((List.prefix_cons_inj c).mpr hpre) (by
          simp only [runCalls, hrun, Option.bind_some, hcs', Option.map_some])
      refine ⟨t', h', ?_, holds'⟩
      simp only [runCalls, hrun, Option.bind_some, hrest, Option.map_some, List.map_cons,
        SeqObject.results]
      rfl

/-- **Calls that return**, from a tree that holds a map, leave a tree that holds the map
behind them. -/
theorem holds_of_runCalls (hF : F ≤ 65535) (hpos : 1 ≤ F) {cs : List (Call K V)}
    {f : K → Option V} (holds : Holds F t h f) {t' : Tree K V} {rs : List (MapRes V)}
    (hrun : runCalls F t cs = some (t', rs)) :
    ∃ h', Holds F t' h' ((mapObject K V).after f (cs.map Call.op)) := by
  induction cs generalizing t h f rs with
  | nil =>
      cases hrun
      exact ⟨h, holds⟩
  | cons c cs ih =>
      obtain ⟨⟨t₁, r⟩, hcall, hreturn⟩ := Option.bind_eq_some_iff.mp hrun
      obtain ⟨⟨t₂, rs'⟩, hrest, heq⟩ := Option.map_eq_some_iff.mp hreturn
      cases heq
      rcases run_holds hF hpos holds c with ⟨t₁', h₁, hrun₁, holds₁⟩ | ⟨hnone, -⟩
      · cases hcall.symm.trans hrun₁
        exact ih holds₁ hrest
      · cases hcall.symm.trans hnone

/-- **`bptree_index` is a map for one thread.**  Every sequence of calls returns, call
by call, what the calls return on a map, as long as the tree is no higher than
`MAX_HEIGHT`. -/
theorem runCalls_refines_map (hF : F ≤ 65535) (hpos : 1 ≤ F) (cs : List (Call K V))
    (hheight : WithinHeight F cs) :
    ∃ t, runCalls F Tree.empty cs =
      some (t, (mapObject K V).results (mapObject K V).init (cs.map Call.op)) := by
  obtain ⟨t, -, hrun, -⟩ := runCalls_holds hF hpos cs holds_empty hheight
  exact ⟨t, hrun⟩

/-- The height condition, tested. -/
theorem withinHeight_of_all {cs : List (Call K V)}
    (hall : (cs.inits.all fun cs' => (runCalls F Tree.empty cs').all fun r =>
      r.1.height ≤ maxHeight) = true) : WithinHeight F cs := by
  intro cs' t rs hpre hrun
  have hcs' := List.all_eq_true.mp hall cs' ((List.mem_inits _ _).mpr hpre)
  simpa [hrun] using hcs'

/-- Two splits at the smallest fan-out, an overwrite and a removal. -/
theorem runCalls_refines_map_at_one :
    WithinHeight 1 [.put 2 20, .put (1 : Fin (2 ^ 64)) (10 : Fin (2 ^ 64)), .put 3 30, .get 2,
      .put 2 21, .remove 1, .getShared 1, .getOptimistic 2 ⟨fun _ => 0, fun _ => rfl⟩] ∧
    ∃ t, runCalls 1 Tree.empty [.put 2 20, .put (1 : Fin (2 ^ 64)) (10 : Fin (2 ^ 64)), .put 3 30,
      .get 2, .put 2 21, .remove 1, .getShared 1, .getOptimistic 2 ⟨fun _ => 0, fun _ => rfl⟩] =
      some (t, [.flag true, .flag true, .flag true, .value (some 20), .flag false, .flag true,
        .value none, .value (some 21)]) := by
  have hheight : WithinHeight 1 [.put 2 20, .put (1 : Fin (2 ^ 64)) (10 : Fin (2 ^ 64)), .put 3 30,
      .get 2, .put 2 21, .remove 1, .getShared 1, .getOptimistic 2 ⟨fun _ => 0, fun _ => rfl⟩] :=
    withinHeight_of_all (by decide +kernel)
  exact ⟨hheight, runCalls_refines_map (by decide) le_rfl _ hheight⟩

end

end BptreeIndex
