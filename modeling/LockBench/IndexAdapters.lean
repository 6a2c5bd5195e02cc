import LockBench.HashTableRefines

/-!
# Four indexes behind one interface

`hash_index` and the adapters `striped_map_index`, `avl_tree_index` and
`wormhole_index`, each used by one thread.  `hash_index` is its table with the
calls of one thread, which always return.  An adapter is given by its own `get`,
`put` and `remove` over a library map that is a parameter: the structure says what
the adapter relies on, in terms of the map from keys to values that the library's
state stands for.

`hash_index` and `avl_tree_index` behave as the key-value map.
`striped_map_index::put` is `StripedMap::insert`, which leaves an existing value
alone, and `wormhole_index::put` returns the success of `wormhole_put`, which is
`true` for an existing key as well.  So the four agree on exactly those call
sequences in which no `put` meets its key already there.
-/

namespace IndexAdapters

open HashIndex (Word)

/-- The calls of the harness. -/
abbrev Op := MapOp Word Word

/-- Their results. -/
abbrev Res := MapRes Word

/-! ## `hash_index` -/

/-- The default of the template parameter `InlineSlots`. -/
def inlineSlots : Nat := 4

/-- The function that the harness calls. -/
def callOf : Op → HashTable.Call
  | .get k => .get k
  | .put k v => .put k v
  | .remove k => .remove k

/-- A table in order, which holds some map: from there every call returns. -/
abbrev OkTable : Type :=
  {t : HashTable.Table // ∃ chains f, HashTable.Refines inlineSlots t chains f}

/-- One call from a table that holds the map `f`. -/
theorem run_callOf {t : HashTable.Table} {chains : Nat → List HashIndex.Addr}
    {f : Word → Option Word} (h : HashTable.Refines inlineSlots t chains f) (op : Op) :
    ∃ t' chains', (callOf op).run inlineSlots t = some (t', (op.apply f).2) ∧
      HashTable.Refines inlineSlots t' chains' (op.apply f).1 := by
  have hop : (callOf op).op = op := by cases op <;> rfl
  have hrun := HashTable.run_refines (by decide) h (callOf op)
  rwa [hop] at hrun

/-- The call returns. -/
theorem OkTable.run_isSome (t : OkTable) (op : Op) :
    ((callOf op).run inlineSlots t.1).isSome = true := by
  obtain ⟨t, chains, f, href⟩ := t
  obtain ⟨t', -, hrun, -⟩ := run_callOf href op
  rw [hrun]
  rfl

/-- And leaves a table in order. -/
theorem OkTable.run_ok (t : OkTable) (op : Op) {r : HashTable.Table × Res}
    (h : (callOf op).run inlineSlots t.1 = some r) :
    ∃ chains f, HashTable.Refines inlineSlots r.1 chains f := by
  obtain ⟨t, chains, f, href⟩ := t
  obtain ⟨t', chains', hrun, href'⟩ := run_callOf href op
  obtain rfl := Option.some.inj (hrun.symm.trans h)
  exact ⟨chains', _, href'⟩

/-- `hash_index` on `mask + 1` buckets. -/
def hashIndex (mask : Word) : SeqObject Op Res where
  State := OkTable
  init := ⟨HashTable.emptyTable mask, _, _, HashTable.refines_emptyTable mask⟩
  step op t :=
    let r := ((callOf op).run inlineSlots t.1).get (t.run_isSome op)
    (⟨r.1, t.run_ok op (Option.some_get _).symm⟩, r.2)

/-- A step is what the call returns. -/
theorem run_eq_step (mask : Word) (op : Op) (t : OkTable) :
    (callOf op).run inlineSlots t.1 =
      some (((hashIndex mask).step op t).1.1, ((hashIndex mask).step op t).2) :=
  (Option.some_get (t.run_isSome op)).symm

/-- **It is the table that the constructor leaves, with the calls of one thread.** -/
theorem runCalls_eq_hashIndex {numBuckets : Word} (hn : 1 ≤ numBuckets) (ops : List Op) :
    ∃ t, HashTable.runCalls inlineSlots (HashTable.construct numBuckets) (ops.map callOf) =
      some (t, (hashIndex (numBuckets - 1)).results (hashIndex (numBuckets - 1)).init ops) := by
  have hrun : ∀ t : OkTable, ∃ t', HashTable.runCalls inlineSlots t.1 (ops.map callOf) =
      some (t', (hashIndex (numBuckets - 1)).results t ops) := by
    induction ops with
    | nil => exact fun t => ⟨t.1, rfl⟩
    | cons op ops ih =>
        intro t
        obtain ⟨t', ht'⟩ := ih ((hashIndex (numBuckets - 1)).step op t).1
        refine ⟨t', ?_⟩
        rw [List.map_cons, HashTable.runCalls, run_eq_step (numBuckets - 1), Option.bind_some, ht']
        rfl
  rw [HashTable.construct_eq hn]
  exact hrun (hashIndex (numBuckets - 1)).init

/-- **`hash_index` is the key-value map.** -/
theorem hashIndex_results (mask : Word) (ops : List Op) :
    (hashIndex mask).results (hashIndex mask).init ops =
      (mapObject Word Word).results (mapObject Word Word).init ops := by
  refine (SeqObject.results_eq_of_sim
    (R := fun (t : OkTable) m => ∃ chains, HashTable.Refines inlineSlots t.1 chains m) ?_ ops
    ⟨_, HashTable.refines_emptyTable mask⟩).1
  intro op t m hrel
  obtain ⟨chains, href⟩ := hrel
  obtain ⟨t', chains', hrun, href'⟩ := run_callOf href op
  obtain ⟨htable, hres⟩ := Prod.mk.inj
    (Option.some.inj ((run_eq_step mask op t).symm.trans hrun))
  exact ⟨⟨chains', htable ▸ href'⟩, hres⟩

/-! ## `striped_map_index` -/

/-- libcds `StripedMap`.  `find` gives the value its functor is called with. -/
structure StripedMap where
  State : Type
  empty : State
  find : Word → State → Option Word
  insert : Word → Word → State → State × Bool
  erase : Word → State → State × Bool
  contents : State → Word → Option Word
  contents_empty : contents empty = fun _ => none
  find_eq : ∀ k s, find k s = contents s k
  insert_contents : ∀ k v s, contents (insert k v s).1 =
    if (contents s k).isNone then Function.update (contents s) k (some v) else contents s
  insert_flag : ∀ k v s, (insert k v s).2 = (contents s k).isNone
  erase_contents : ∀ k s, contents (erase k s).1 = Function.update (contents s) k none
  erase_flag : ∀ k s, (erase k s).2 = (contents s k).isSome

/-- `striped_map_index`: `put` is `insert`. -/
def stripedMapIndex (S : StripedMap) : SeqObject Op Res where
  State := S.State
  init := S.empty
  step
    | .get k, s => (s, .value (S.find k s))
    | .put k v, s => let r := S.insert k v s; (r.1, .flag r.2)
    | .remove k, s => let r := S.erase k s; (r.1, .flag r.2)

/-! ## `avl_tree_index` -/

/-- libcds `BronsonAVLTreeMap`.  The functor of `update` gets whether the node is
new, the key and the value to change; `fresh` is the value of a new node. -/
structure BronsonAVLTreeMap where
  State : Type
  empty : State
  find : Word → State → Option Word
  update : Word → (Bool → Word → Word → Word) → Bool → State → State × Bool × Bool
  erase : Word → State → State × Bool
  fresh : Word
  contents : State → Word → Option Word
  contents_empty : contents empty = fun _ => none
  find_eq : ∀ k s, find k s = contents s k
  update_contents : ∀ k f s, contents (update k f true s).1 =
    Function.update (contents s) k
      (some (f (contents s k).isNone k ((contents s k).getD fresh)))
  update_result : ∀ k f s, (update k f true s).2 = (true, (contents s k).isNone)
  erase_contents : ∀ k s, contents (erase k s).1 = Function.update (contents s) k none
  erase_flag : ∀ k s, (erase k s).2 = (contents s k).isSome

/-- `avl_tree_index`: `put` returns the second flag of `update`. -/
def avlTreeIndex (A : BronsonAVLTreeMap) : SeqObject Op Res where
  State := A.State
  init := A.empty
  step
    | .get k, s => (s, .value (A.find k s))
    | .put k v, s => let r := A.update k (fun _ _ _ => v) true s; (r.1, .flag r.2.2)
    | .remove k, s => let r := A.erase k s; (r.1, .flag r.2)

/-- **`avl_tree_index` is the key-value map.** -/
theorem avlTreeIndex_results (A : BronsonAVLTreeMap) (ops : List Op) :
    (avlTreeIndex A).results (avlTreeIndex A).init ops =
      (mapObject Word Word).results (mapObject Word Word).init ops := by
  refine (SeqObject.results_eq_of_sim (R := fun s m => A.contents s = m) ?_ ops
    A.contents_empty).1
  intro op s _ heq
  subst heq
  cases op with
  | get k => exact ⟨rfl, congrArg MapRes.value (A.find_eq k s)⟩
  | put k v =>
      have hflag := congrArg Prod.snd (A.update_result k (fun _ _ _ => v) s)
      exact ⟨A.update_contents k _ s, congrArg MapRes.flag hflag⟩
  | remove k => exact ⟨A.erase_contents k s, congrArg MapRes.flag (A.erase_flag k s)⟩

/-! ## `wormhole_index` -/

/-- The loop of `encode_be`: the low byte goes in front of those written before. -/
def encodeLoop : Nat → Word → List UInt8 → List UInt8
  | 0, _, out => out
  | n + 1, k, out => encodeLoop n (k >>> 8) (k.toUInt8 :: out)

/-- `encode_be`. -/
def encodeBe (k : Word) : List UInt8 :=
  encodeLoop 8 k []

/-- The first bytes of a word in memory, lowest first. -/
def bytesFrom : Nat → Word → List UInt8
  | 0, _ => []
  | n + 1, v => v.toUInt8 :: bytesFrom n (v >>> 8)

/-- The eight bytes of a word in memory. -/
def bytesOf (v : Word) : List UInt8 :=
  bytesFrom 8 v

/-- The word that eight bytes of memory make. -/
def wordOf (bytes : List UInt8) : Word :=
  bytes.foldr (fun b w => w * 256 + b.toUInt64) 0

/-- `struct kv`: `klen` and `vlen` are the lengths of its two parts. -/
structure Kv where
  key : List UInt8
  value : List UInt8

/-- `wormhole_put`, `wormhole_get` and `wormhole_del` through a reference. -/
structure Wormhole where
  State : Type
  create : State
  put : Kv → State → State × Bool
  get : List UInt8 → State → Option Kv
  del : List UInt8 → State → State × Bool
  contents : State → List UInt8 → Option (List UInt8)
  contents_create : contents create = fun _ => none
  put_contents : ∀ kv s, contents (put kv s).1 =
    Function.update (contents s) kv.key (some kv.value)
  put_flag : ∀ kv s, (put kv s).2 = true
  get_eq : ∀ k s, get k s = (contents s k).map fun v => ⟨k, v⟩
  del_contents : ∀ k s, contents (del k s).1 = Function.update (contents s) k none
  del_flag : ∀ k s, (del k s).2 = (contents s k).isSome

/-- The value in what `wormhole_get` returned, if it is eight bytes long. -/
def valueOf : Option Kv → Option Word
  | some res => if res.value.length = 8 then some (wordOf res.value) else none
  | none => none

/-- `wormhole_index`: `put` returns the success of `wormhole_put`. -/
def wormholeIndex (W : Wormhole) : SeqObject Op Res where
  State := W.State
  init := W.create
  step
    | .get k, s => (s, .value (valueOf (W.get (encodeBe k) s)))
    | .put k v, s => let r := W.put ⟨encodeBe k, bytesOf v⟩ s; (r.1, .flag r.2)
    | .remove k, s => let r := W.del (encodeBe k) s; (r.1, .flag r.2)

theorem wordOf_bytesFrom {n : Nat} (hn : n ≤ 8) (v : Word) :
    (wordOf (bytesFrom n v)).toNat = v.toNat % 256 ^ n := by
  induction n generalizing v with
  | zero => simp [wordOf, bytesFrom, Nat.mod_one]
  | succ n ih =>
      have hrest := ih (Nat.le_of_succ_le hn) (v >>> 8)
      have hpow : 256 ^ n ≤ 256 ^ 7 := Nat.pow_le_pow_right (by decide) (by omega)
      have hlt : v.toNat / 256 % 256 ^ n < 256 ^ 7 :=
        (Nat.mod_lt _ (by positivity)).trans_le hpow
      have hshift : (v >>> 8).toNat = v.toNat / 256 := by
        simp [Nat.shiftRight_eq_div_pow]
      have hcons : wordOf (bytesFrom (n + 1) v) =
          wordOf (bytesFrom n (v >>> 8)) * 256 + v.toUInt8.toUInt64 := rfl
      rw [hshift] at hrest
      have hmod : v.toNat % 256 ^ (n + 1) = v.toNat % 256 + 256 * (v.toNat / 256 % 256 ^ n) := by
        rw [pow_succ', Nat.mod_mul]
      rw [hcons, UInt64.toNat_add, UInt64.toNat_mul, hrest, hmod]
      simp only [UInt64.reduceToNat, UInt8.toNat_toUInt64, UInt64.toNat_toUInt8]
      generalize v.toNat / 256 % 256 ^ n = rest at hlt ⊢
      omega

theorem wordOf_bytesOf (v : Word) : wordOf (bytesOf v) = v := by
  apply UInt64.toNat_inj.mp
  rw [bytesOf, wordOf_bytesFrom le_rfl]
  exact Nat.mod_eq_of_lt v.toNat_lt

/-- Different keys have different encodings: read backwards, the bytes of
`encode_be` are those of the word. -/
theorem encodeBe_injective : Function.Injective encodeBe := by
  intro k k' h
  have hbytes : ∀ w, (encodeBe w).reverse = bytesOf w := fun w => rfl
  rw [← wordOf_bytesOf k, ← wordOf_bytesOf k', ← hbytes, ← hbytes, h]

/-- The library's map holds the words of `m` as byte strings. -/
def Encodes (contents : List UInt8 → Option (List UInt8)) (m : Word → Option Word) : Prop :=
  ∀ k, contents (encodeBe k) = (m k).map bytesOf

theorem Encodes.update {c : List UInt8 → Option (List UInt8)} {m : Word → Option Word}
    (h : Encodes c m) (k : Word) (r : Option Word) :
    Encodes (Function.update c (encodeBe k) (r.map bytesOf)) (Function.update m k r) := by
  intro k'
  by_cases hk : k' = k
  · rw [hk, Function.update_self, Function.update_self]
  · rw [Function.update_of_ne (encodeBe_injective.ne hk), Function.update_of_ne hk]
    exact h k'

theorem Encodes.valueOf_get {W : Wormhole} {s : W.State} {m : Word → Option Word}
    (h : Encodes (W.contents s) m) (k : Word) : valueOf (W.get (encodeBe k) s) = m k := by
  rw [W.get_eq, h k]
  cases m k with
  | none => rfl
  | some v =>
      have hlength : (bytesOf v).length = 8 := rfl
      simp [valueOf, hlength, wordOf_bytesOf]

/-! ## Where they agree -/

/-- No `put` of the sequence meets its key already there: `held` are the keys put
and not removed so far. -/
def Fresh : (Word → Bool) → List Op → Prop
  | _, [] => True
  | held, .get _ :: ops => Fresh held ops
  | held, .put k _ :: ops => held k = false ∧ Fresh (Function.update held k true) ops
  | held, .remove k :: ops => Fresh (Function.update held k false) ops

/-- The keys of a map. -/
def held (m : Word → Option Word) (k : Word) : Bool :=
  (m k).isSome

theorem held_update (m : Word → Option Word) (k : Word) (r : Option Word) :
    held (Function.update m k r) = Function.update (held m) k r.isSome := by
  funext k'
  by_cases hk : k' = k
  · rw [hk, held, Function.update_self, Function.update_self]
  · rw [held, Function.update_of_ne hk, Function.update_of_ne hk, held]

/-- On a fresh sequence `insert` is as good as an upsert. -/
theorem stripedMapIndex_results (S : StripedMap) {ops : List Op} {s : S.State}
    (h : Fresh (held (S.contents s)) ops) :
    (stripedMapIndex S).results s ops = (mapObject Word Word).results (S.contents s) ops := by
  induction ops generalizing s with
  | nil => rfl
  | cons op ops ih =>
      cases op with
      | get k =>
          show MapRes.value (S.find k s) :: _ = MapRes.value (S.contents s k) :: _
          rw [S.find_eq]
          exact congrArg _ (ih h)
      | put k v =>
          obtain ⟨hnew, hrest⟩ := h
          have hnone : (S.contents s k).isNone = true := by
            rw [← Option.not_isSome, ← held, hnew]
            rfl
          have hc : S.contents (S.insert k v s).1 =
              Function.update (S.contents s) k (some v) := by
            rw [S.insert_contents, if_pos hnone]
          have htail := ih (s := (S.insert k v s).1) (by rwa [hc, held_update])
          rw [hc] at htail
          show MapRes.flag (S.insert k v s).2 :: _ = MapRes.flag (S.contents s k).isNone :: _
          rw [S.insert_flag]
          exact congrArg _ htail
      | remove k =>
          have htail := ih (s := (S.erase k s).1) (by
            rw [S.erase_contents, held_update]
            exact h)
          rw [S.erase_contents] at htail
          show MapRes.flag (S.erase k s).2 :: _ = MapRes.flag (S.contents s k).isSome :: _
          rw [S.erase_flag]
          exact congrArg _ htail

/-- `wormhole_index` keeps the right map and differs in what `put` of a present
key returns. -/
theorem wormholeIndex_results (W : Wormhole) {ops : List Op} {s : W.State}
    {m : Word → Option Word} (h : Encodes (W.contents s) m) :
    (wormholeIndex W).results s ops = (mapObject Word Word).results m ops ↔
      Fresh (held m) ops := by
  induction ops generalizing s m with
  | nil => simp [SeqObject.results, Fresh]
  | cons op ops ih =>
      cases op with
      | get k =>
          show MapRes.value (valueOf (W.get (encodeBe k) s)) :: _ =
            MapRes.value (m k) :: _ ↔ _
          rw [h.valueOf_get, List.cons.injEq]
          exact (and_iff_right rfl).trans (ih h)
      | put k v =>
          have hnext := h.update k (some v)
          rw [Option.map_some, ← W.put_contents ⟨encodeBe k, bytesOf v⟩] at hnext
          show MapRes.flag (W.put ⟨encodeBe k, bytesOf v⟩ s).2 :: _ =
            MapRes.flag (m k).isNone :: _ ↔ _
          rw [W.put_flag, List.cons.injEq]
          refine and_congr ?_ ((ih hnext).trans ?_)
          · cases hk : m k <;> simp [held, hk]
          · rw [held_update]
            rfl
      | remove k =>
          have hnext := h.update k none
          rw [Option.map_none, ← W.del_contents] at hnext
          show MapRes.flag (W.del (encodeBe k) s).2 :: _ = MapRes.flag (m k).isSome :: _ ↔ _
          rw [W.del_flag, h k, Option.isSome_map, List.cons.injEq]
          refine (and_iff_right rfl).trans ((ih hnext).trans ?_)
          rw [held_update]
          rfl

/-- The adapters return, call by call, what `hash_index` returns, and that is what
the map returns. -/
structure Agree (S : StripedMap) (A : BronsonAVLTreeMap) (W : Wormhole) (mask : Word)
    (ops : List Op) : Prop where
  striped : (stripedMapIndex S).results (stripedMapIndex S).init ops =
    (hashIndex mask).results (hashIndex mask).init ops
  avl : (avlTreeIndex A).results (avlTreeIndex A).init ops =
    (hashIndex mask).results (hashIndex mask).init ops
  wormhole : (wormholeIndex W).results (wormholeIndex W).init ops =
    (hashIndex mask).results (hashIndex mask).init ops
  overwrites : (hashIndex mask).results (hashIndex mask).init ops =
    (mapObject Word Word).results (mapObject Word Word).init ops

/-- **The adapters are interchangeable on fresh sequences only.** -/
theorem agree_iff_fresh (S : StripedMap) (A : BronsonAVLTreeMap) (W : Wormhole) (mask : Word)
    (ops : List Op) : Agree S A W mask ops ↔ Fresh (fun _ => false) ops := by
  have hwh : (wormholeIndex W).results W.create ops =
      (mapObject Word Word).results (fun _ => none) ops ↔ Fresh (fun _ => false) ops :=
    wormholeIndex_results W fun k => by rw [W.contents_create]; rfl
  constructor
  · intro h
    exact hwh.mp (h.wormhole.trans h.overwrites)
  · intro h
    have hhash := hashIndex_results mask ops
    have hstriped := stripedMapIndex_results S (s := S.empty) (by rwa [S.contents_empty])
    rw [S.contents_empty] at hstriped
    exact ⟨hstriped.trans hhash.symm, (avlTreeIndex_results A ops).trans hhash.symm,
      (hwh.mpr h).trans hhash.symm, hhash⟩

/-- A `StripedMap` that is the map it stands for. -/
def StripedMap.model : StripedMap where
  State := Word → Option Word
  empty := fun _ => none
  find k s := s k
  insert k v s := (if (s k).isNone then Function.update s k (some v) else s, (s k).isNone)
  erase k s := (Function.update s k none, (s k).isSome)
  contents := id
  contents_empty := rfl
  find_eq _ _ := rfl
  insert_contents _ _ _ := rfl
  insert_flag _ _ _ := rfl
  erase_contents _ _ := rfl
  erase_flag _ _ := rfl

/-- A `BronsonAVLTreeMap` that is the map it stands for. -/
def BronsonAVLTreeMap.model : BronsonAVLTreeMap where
  State := Word → Option Word
  empty := fun _ => none
  find k s := s k
  update k f allow s :=
    match s k with
    | some v => (Function.update s k (some (f false k v)), true, false)
    | none =>
        if allow then (Function.update s k (some (f true k 0)), true, true)
        else (s, false, false)
  erase k s := (Function.update s k none, (s k).isSome)
  fresh := 0
  contents := id
  contents_empty := rfl
  find_eq _ _ := rfl
  update_contents k f s := by cases hk : s k <;> simp [hk]
  update_result k f s := by cases hk : s k <;> simp [hk]
  erase_contents _ _ := rfl
  erase_flag _ _ := rfl

/-- A wormhole that is the map it stands for. -/
def Wormhole.model : Wormhole where
  State := List UInt8 → Option (List UInt8)
  create := fun _ => none
  put kv s := (Function.update s kv.key (some kv.value), true)
  get k s := (s k).map fun v => ⟨k, v⟩
  del k s := (Function.update s k none, (s k).isSome)
  contents := id
  contents_create := rfl
  put_contents _ _ := rfl
  put_flag _ _ := rfl
  get_eq _ _ := rfl
  del_contents _ _ := rfl
  del_flag _ _ := rfl

/-- Two `put`s of one key and a `get`: `striped_map_index` returns the first value,
and the second `put` of `wormhole_index` returns `true`. -/
theorem overwrite_disagrees :
    ¬Agree .model .model .model 65535 [.put 1 10, .put 1 20, .get 1] := by
  intro h
  have hstriped : (stripedMapIndex .model).results (stripedMapIndex .model).init
      [.put 1 10, .put 1 20, .get 1] = [.flag true, .flag false, .value (some 10)] := by rfl
  have hmap : (mapObject Word Word).results (mapObject Word Word).init
      [.put 1 10, .put 1 20, .get 1] = [.flag true, .flag false, .value (some 20)] := by rfl
  have heq := hstriped.symm.trans (h.striped.trans (h.overwrites.trans hmap))
  revert heq
  decide

end IndexAdapters
