import LockBench.HashTable

/-!
# `hash_index` is a map for one thread

A bucket stores a key once, in an inline slot or in a node of its chain, and every node
that is allocated and not deleted is in exactly one chain.  Each of the three functions
on a bucket is described by what it stores, by what it returns and by the nodes it takes
and gives back; the table follows bucket by bucket.
-/

namespace HashTable

open HashIndex (Word Addr Node Link bucketFor)
open LinkedChain (Linked)

/-! ## One bucket -/

/-- The nodes of `as` are the chain, and a key is stored once: in one inline slot or in
one node. -/
structure BucketOk (slots : Nat) (node : Addr → Node) (b : Bucket) (as : List Addr) : Prop where
  room : b.count.toNat ≤ slots
  linked : Linked (fun a => (node a).next) b.chain as
  slots : ∀ i < b.count.toNat, ∀ j < b.count.toNat, b.keys i = b.keys j → i = j
  nodes : (as.map fun a => (node a).key).Nodup
  apart : ∀ i < b.count.toNat, ∀ a ∈ as, b.keys i ≠ (node a).key

/-- The bucket stores `v` under `k`. -/
def Holds (node : Addr → Node) (b : Bucket) (as : List Addr) (k v : Word) : Prop :=
  (∃ i < b.count.toNat, b.keys i = k ∧ b.vals i = v) ∨
    ∃ a ∈ as, (node a).key = k ∧ (node a).val = v

section Bucket

variable {slots : Nat} {h : Heap} {b : Bucket} {as : List Addr} {key : Word}

/-- The loop over the inline slots ends before its byte wraps. -/
theorem slotLoop_from (hslots : slots ≤ 255) (hroom : b.count.toNat ≤ slots) {fuel : Nat}
    {i : UInt8} (hi : i.toNat ≤ b.count.toNat) (hfuel : b.count.toNat - i.toNat < fuel)
    (hbefore : ∀ j < i.toNat, b.keys j ≠ key) :
    (∃ j, slotLoop slots b key fuel i = some (some j) ∧ j.toNat < b.count.toNat ∧
        b.keys j.toNat = key) ∨
      slotLoop slots b key fuel i = some none ∧ ∀ j < b.count.toNat, b.keys j ≠ key := by
  induction fuel generalizing i with
  | zero => exact absurd hfuel (Nat.not_lt_zero _)
  | succ fuel ih =>
      by_cases hlt : i.toNat < b.count.toNat
      · have hread : read slots b.keys i = some (b.keys i.toNat) := if_pos (hlt.trans_le hroom)
        simp only [slotLoop, UInt8.lt_iff_toNat_lt, if_pos hlt, hread, Option.bind_some]
        by_cases hkey : b.keys i.toNat = key
        · exact .inl ⟨i, if_pos hkey, hlt, hkey⟩
        · have hnext : (i + 1).toNat = i.toNat + 1 := by
            rw [UInt8.toNat_add]
            exact Nat.mod_eq_of_lt (by change i.toNat + 1 < 256; omega)
          rw [if_neg hkey]
          refine ih (by omega) (by omega) fun j hj => ?_
          rcases Nat.lt_succ_iff_lt_or_eq.mp (hnext ▸ hj) with hj | rfl
          · exact hbefore j hj
          · exact hkey
      · refine .inr ⟨?_, fun j hj => hbefore j (by omega)⟩
        simp only [slotLoop, UInt8.lt_iff_toNat_lt, if_neg hlt]

/-- **The loop over the inline slots** finds the slot of the key or that there is none. -/
theorem slotLoop_spec (hslots : slots ≤ 255) (hroom : b.count.toNat ≤ slots) (key : Word) :
    (∃ j, slotLoop slots b key 256 0 = some (some j) ∧ j.toNat < b.count.toNat ∧
        b.keys j.toNat = key) ∨
      slotLoop slots b key 256 0 = some none ∧ ∀ j < b.count.toNat, b.keys j ≠ key :=
  slotLoop_from hslots hroom (Nat.zero_le _) (by change b.count.toNat - 0 < 256; omega)
    fun j hj => absurd hj (Nat.not_lt_zero j)

/-- **The loop over the chain** finds the node of the key or that there is none. -/
theorem chainLoop_spec {node : Addr → Node} {p : Option Addr} {fuel : Nat}
    (hl : Linked (fun a => (node a).next) p as) (hfuel : as.length < fuel) (key : Word) :
    (∃ a ∈ as, chainLoop node key fuel p = some (some a) ∧ (node a).key = key) ∨
      chainLoop node key fuel p = some none ∧ ∀ a ∈ as, (node a).key ≠ key := by
  induction as generalizing p fuel with
  | nil =>
      obtain rfl : p = none := hl
      obtain ⟨fuel, rfl⟩ := Nat.exists_eq_succ_of_ne_zero (Nat.ne_zero_of_lt hfuel)
      exact .inr ⟨rfl, fun a ha => absurd ha List.not_mem_nil⟩
  | cons c as ih =>
      obtain ⟨rfl, hrest⟩ := hl
      obtain ⟨fuel, rfl⟩ := Nat.exists_eq_succ_of_ne_zero (Nat.ne_zero_of_lt hfuel)
      by_cases hkey : (node c).key = key
      · exact .inl ⟨c, .head _, if_pos hkey, hkey⟩
      · simp only [chainLoop, if_neg hkey]
        rcases ih hrest (Nat.lt_of_succ_lt_succ hfuel) with ⟨a, ha, hres⟩ | ⟨hres, hno⟩
        · exact .inl ⟨a, .tail _ ha, hres⟩
        · refine .inr ⟨hres, fun a ha => ?_⟩
          rcases List.mem_cons.mp ha with rfl | ha
          · exact hkey
          · exact hno a ha

/-- Two nodes of a chain with one key are one node. -/
theorem BucketOk.node_inj {node : Addr → Node} (ok : BucketOk slots node b as) {a c : Addr}
    (ha : a ∈ as) (hc : c ∈ as) (hkey : (node a).key = (node c).key) : a = c :=
  List.inj_on_of_nodup_map ok.nodes ha hc hkey

/-- **`find_in_bucket`** returns what the bucket stores. -/
theorem findInBucket_spec (hslots : slots ≤ 255) (ok : BucketOk slots h.node b as)
    (hfuel : as.length ≤ h.alloc) (key : Word) :
    ∃ r, findInBucket slots h b key = some r ∧ ∀ v, r = some v ↔ Holds h.node b as key v := by
  rcases slotLoop_spec hslots ok.room key with ⟨i, hloop, hi, hkey⟩ | ⟨hloop, hno⟩
  · have hread : read slots b.vals i = some (b.vals i.toNat) := if_pos (hi.trans_le ok.room)
    refine ⟨some (b.vals i.toNat), by simp [findInBucket, hloop, hread], fun v => ?_⟩
    rw [Option.some.injEq]
    constructor
    · exact fun hv => .inl ⟨i.toNat, hi, hkey, hv⟩
    · rintro (⟨j, hj, hjkey, hv⟩ | ⟨a, ha, hakey, -⟩)
      · rwa [ok.slots i.toNat hi j hj (hkey.trans hjkey.symm)]
      · exact absurd (hkey.trans hakey.symm) (ok.apart i.toNat hi a ha)
  · have hslot : ∀ v, Holds h.node b as key v ↔
        ∃ a ∈ as, (h.node a).key = key ∧ (h.node a).val = v := fun v =>
      ⟨fun hh => hh.resolve_left fun ⟨i, hi, hk, _⟩ => hno i hi hk, .inr⟩
    rcases chainLoop_spec ok.linked (Nat.lt_succ_of_le hfuel) key with
      ⟨c, hc, hchain, hkey⟩ | ⟨hchain, hnone⟩
    · refine ⟨some (h.node c).val, by simp [findInBucket, hloop, hchain], fun v => ?_⟩
      rw [Option.some.injEq, hslot]
      constructor
      · exact fun hv => ⟨c, hc, hkey, hv⟩
      · rintro ⟨a, ha, hakey, hv⟩
        rwa [ok.node_inj hc ha (hkey.trans hakey.symm)]
    · refine ⟨none, by simp [findInBucket, hloop, hchain], fun v => ?_⟩
      rw [hslot]
      exact iff_of_false nofun fun ⟨a, ha, hk, _⟩ => hnone a ha hk

/-- What a change of a bucket leaves: the bucket in order, the nodes of other chains as
they were, and every node accounted for. -/
structure BucketStep (slots : Nat) (h : Heap) (as : List Addr) (h' : Heap) (b' : Bucket)
    (as' : List Addr) : Prop where
  ok : BucketOk slots h'.node b' as'
  frame : ∀ a, a ∉ as → a < h.alloc → h'.node a = h.node a
  owned : ∀ rest, (h.deleted ++ (as ++ rest)).Perm (List.range h.alloc) →
    (h'.deleted ++ (as' ++ rest)).Perm (List.range h'.alloc)

/-- What is stored after a key has been put or taken out. -/
theorem holds_of_inline {node : Addr → Node} {b : Bucket} (b' : Bucket) {k : Word}
    (hchain : ∀ a ∈ as, (node a).key ≠ k) {p : Word → Word → Prop}
    (hinline : ∀ k' v', (∃ i < b'.count.toNat, b'.keys i = k' ∧ b'.vals i = v') ↔
      p k' v' ∨ k' ≠ k ∧ ∃ i < b.count.toNat, b.keys i = k' ∧ b.vals i = v') (k' v' : Word) :
    Holds node b' as k' v' ↔ p k' v' ∨ k' ≠ k ∧ Holds node b as k' v' := by
  rw [Holds, hinline, Holds]
  constructor
  · rintro ((hp | ⟨hne, hin⟩) | ⟨a, ha, rfl, rfl⟩)
    · exact .inl hp
    · exact .inr ⟨hne, .inl hin⟩
    · exact .inr ⟨hchain a ha, .inr ⟨a, ha, rfl, rfl⟩⟩
  · rintro (hp | ⟨hne, hin | hnode⟩)
    · exact .inl (.inl hp)
    · exact .inl (.inr ⟨hne, hin⟩)
    · exact .inr hnode

/-- A new key in the next inline slot. -/
theorem insert_inline (hslots : slots ≤ 255) (ok : BucketOk slots h.node b as)
    (hno : ∀ v, ¬ Holds h.node b as key v) (hroom : b.count.toNat < slots) (val : Word) :
    BucketStep slots h as h
        { b with
          keys := Function.update b.keys b.count.toNat key
          vals := Function.update b.vals b.count.toNat val
          count := b.count + 1 } as ∧
      ∀ k v, Holds h.node
        { b with
          keys := Function.update b.keys b.count.toNat key
          vals := Function.update b.vals b.count.toNat val
          count := b.count + 1 } as k v ↔
        k = key ∧ v = val ∨ k ≠ key ∧ Holds h.node b as k v := by
  have hcount : (b.count + 1).toNat = b.count.toNat + 1 := by
    rw [UInt8.toNat_add]
    exact Nat.mod_eq_of_lt (by change b.count.toNat + 1 < 256; omega)
  have hslot : ∀ i < b.count.toNat, b.keys i ≠ key := fun i hi hk => hno _ (.inl ⟨i, hi, hk, rfl⟩)
  have hnode : ∀ a ∈ as, (h.node a).key ≠ key := fun a ha hk => hno _ (.inr ⟨a, ha, hk, rfl⟩)
  have hold : ∀ {f : Nat → Word} {w : Word} {i : Nat}, i < b.count.toNat →
      Function.update f b.count.toNat w i = f i := fun hi => Function.update_of_ne hi.ne _ _
  refine ⟨⟨⟨?_, ok.linked, fun i hi j hj hkey => ?_, ok.nodes, fun i hi a ha => ?_⟩,
    fun _ _ _ => rfl, fun _ hrest => hrest⟩, holds_of_inline _ hnode fun k v => ?_⟩
  · rw [hcount]
    exact hroom
  · rw [hcount] at hi hj
    dsimp only at hkey
    rcases Nat.lt_succ_iff_lt_or_eq.mp hi with hi | rfl <;>
      rcases Nat.lt_succ_iff_lt_or_eq.mp hj with hj | rfl
    · rw [hold hi, hold hj] at hkey
      exact ok.slots i hi j hj hkey
    · rw [hold hi, Function.update_self] at hkey
      exact absurd hkey (hslot i hi)
    · rw [Function.update_self, hold hj] at hkey
      exact absurd hkey.symm (hslot j hj)
    · rfl
  · rw [hcount] at hi
    dsimp only
    rcases Nat.lt_succ_iff_lt_or_eq.mp hi with hi | rfl
    · rw [hold hi]
      exact ok.apart i hi a ha
    · rw [Function.update_self]
      exact (hnode a ha).symm
  · simp only [hcount]
    constructor
    · rintro ⟨i, hi, rfl, rfl⟩
      rcases Nat.lt_succ_iff_lt_or_eq.mp hi with hi | rfl
      · rw [hold hi, hold hi]
        exact .inr ⟨hslot i hi, i, hi, rfl, rfl⟩
      · rw [Function.update_self, Function.update_self]
        exact .inl ⟨rfl, rfl⟩
    · rintro (⟨rfl, rfl⟩ | ⟨-, i, hi, rfl, rfl⟩)
      · exact ⟨_, Nat.lt_succ_self _, Function.update_self .., Function.update_self ..⟩
      · exact ⟨i, Nat.lt_succ_of_lt hi, hold hi, hold hi⟩

/-- A new key in a new node at the head of the chain. -/
theorem insert_node (ok : BucketOk slots h.node b as) (hlt : ∀ a ∈ as, a < h.alloc)
    (hno : ∀ v, ¬ Holds h.node b as key v) (val : Word) :
    BucketStep slots h as
        { h with
          node := Function.update h.node h.alloc ⟨key, val, b.chain⟩
          alloc := h.alloc + 1 }
        { b with chain := some h.alloc } (h.alloc :: as) ∧
      ∀ k v, Holds (Function.update h.node h.alloc ⟨key, val, b.chain⟩)
        { b with chain := some h.alloc } (h.alloc :: as) k v ↔
        k = key ∧ v = val ∨ k ≠ key ∧ Holds h.node b as k v := by
  have hslot : ∀ i < b.count.toNat, b.keys i ≠ key := fun i hi hk => hno _ (.inl ⟨i, hi, hk, rfl⟩)
  have hnode : ∀ a ∈ as, (h.node a).key ≠ key := fun a ha hk => hno _ (.inr ⟨a, ha, hk, rfl⟩)
  have hold : ∀ {x : Node} {a : Addr}, a ∈ as → Function.update h.node h.alloc x a = h.node a :=
    fun ha => Function.update_of_ne (hlt _ ha).ne _ _
  have hkeys : (as.map fun a => (Function.update h.node h.alloc ⟨key, val, b.chain⟩ a).key) =
      as.map fun a => (h.node a).key :=
    List.map_congr_left fun a ha => by rw [hold ha]
  refine ⟨⟨⟨ok.room, ⟨rfl, ?_⟩, ok.slots, ?_, fun i hi a ha => ?_⟩, fun a _ ha => ?_,
    fun rest hrest => ?_⟩, fun k v => ?_⟩
  · simp only [Function.update_self]
    exact ok.linked.congr fun a ha => by rw [hold ha]
  · dsimp only
    rw [List.map_cons, hkeys, Function.update_self]
    refine List.nodup_cons.mpr ⟨fun hmem => ?_, ok.nodes⟩
    obtain ⟨a, ha, hk⟩ := List.mem_map.mp hmem
    exact hnode a ha hk
  · dsimp only
    rcases List.mem_cons.mp ha with rfl | ha
    · rw [Function.update_self]
      exact hslot i hi
    · rw [hold ha]
      exact ok.apart i hi a ha
  · exact Function.update_of_ne ha.ne _ _
  · rw [List.range_succ]
    exact (List.perm_middle.trans (hrest.cons _)).trans
      (List.perm_append_singleton h.alloc (List.range h.alloc)).symm
  · simp only [Holds, List.mem_cons, exists_eq_or_imp, Function.update_self]
    constructor
    · rintro (⟨i, hi, rfl, rfl⟩ | ⟨rfl, rfl⟩ | ⟨a, ha, rfl, rfl⟩)
      · exact .inr ⟨hslot i hi, .inl ⟨i, hi, rfl, rfl⟩⟩
      · exact .inl ⟨rfl, rfl⟩
      · rw [hold ha]
        exact .inr ⟨hnode a ha, .inr ⟨a, ha, rfl, rfl⟩⟩
    · rintro (⟨rfl, rfl⟩ | ⟨-, hin | ⟨a, ha, rfl, rfl⟩⟩)
      · exact .inr (.inl ⟨rfl, rfl⟩)
      · exact .inl hin
      · exact .inr (.inr ⟨a, ha, by rw [hold ha], by rw [hold ha]⟩)

/-- A key that is not there goes to the next inline slot, or to a new node. -/
theorem insertNew_spec (hslots : slots ≤ 255) (ok : BucketOk slots h.node b as)
    (hlt : ∀ a ∈ as, a < h.alloc) (hno : ∀ v, ¬ Holds h.node b as key v) (val : Word) :
    ∃ h' b' as', insertNew slots h b key val = some (h', b') ∧ BucketStep slots h as h' b' as' ∧
      ∀ k v, Holds h'.node b' as' k v ↔ k = key ∧ v = val ∨ k ≠ key ∧ Holds h.node b as k v := by
  by_cases hroom : b.count.toNat < slots
  · obtain ⟨hstep, hholds⟩ := insert_inline hslots ok hno hroom val
    refine ⟨_, _, _, ?_, hstep, hholds⟩
    simp only [insertNew, write, if_pos hroom, Option.bind_some, Option.map_some]
  · obtain ⟨hstep, hholds⟩ := insert_node ok hlt hno val
    exact ⟨_, _, _, if_neg hroom, hstep, hholds⟩

/-- A new value in an inline slot. -/
theorem update_inline (ok : BucketOk slots h.node b as) {i : Nat} (hi : i < b.count.toNat)
    (hkey : b.keys i = key) (val : Word) :
    BucketStep slots h as h { b with vals := Function.update b.vals i val } as ∧
      ∀ k v, Holds h.node { b with vals := Function.update b.vals i val } as k v ↔
        k = key ∧ v = val ∨ k ≠ key ∧ Holds h.node b as k v := by
  have hnode : ∀ a ∈ as, (h.node a).key ≠ key := fun a ha hk =>
    ok.apart i hi a ha (hkey.trans hk.symm)
  refine ⟨⟨⟨ok.room, ok.linked, ok.slots, ok.nodes, ok.apart⟩, fun _ _ _ => rfl,
    fun _ hrest => hrest⟩, holds_of_inline _ hnode fun k v => ?_⟩
  constructor
  · rintro ⟨j, hj, rfl, rfl⟩
    by_cases hji : j = i
    · subst hji
      exact .inl ⟨hkey, Function.update_self ..⟩
    · refine .inr ⟨fun hk => hji (ok.slots j hj i hi (hk.trans hkey.symm)), j, hj, rfl, ?_⟩
      exact (Function.update_of_ne hji _ _).symm
  · rintro (⟨rfl, rfl⟩ | ⟨hne, j, hj, rfl, rfl⟩)
    · exact ⟨i, hi, hkey, Function.update_self ..⟩
    · have hji : j ≠ i := fun heq => hne (heq ▸ hkey)
      exact ⟨j, hj, rfl, Function.update_of_ne hji _ _⟩

/-- A new value in a node. -/
theorem update_node (ok : BucketOk slots h.node b as) {c : Addr} (hc : c ∈ as)
    (hkey : (h.node c).key = key) (val : Word) :
    BucketStep slots h as
        { h with node := Function.update h.node c { h.node c with val := val } } b as ∧
      ∀ k v, Holds (Function.update h.node c { h.node c with val := val }) b as k v ↔
        k = key ∧ v = val ∨ k ≠ key ∧ Holds h.node b as k v := by
  have hkeys : ∀ a, (Function.update h.node c { h.node c with val := val } a).key = (h.node a).key :=
    fun a => by
      by_cases hac : a = c
      · rw [hac, Function.update_self]
      · rw [Function.update_of_ne hac]
  have hnext : ∀ a, (Function.update h.node c { h.node c with val := val } a).next =
      (h.node a).next := fun a => by
    by_cases hac : a = c
    · rw [hac, Function.update_self]
    · rw [Function.update_of_ne hac]
  refine ⟨⟨⟨ok.room, ok.linked.congr fun a _ => hnext a, ok.slots, ?_, fun i hi a ha => ?_⟩,
    fun a ha _ => Function.update_of_ne (by rintro rfl; exact ha hc) _ _, fun _ hrest => hrest⟩,
    fun k v => ?_⟩
  · simp only [hkeys]
    exact ok.nodes
  · rw [hkeys]
    exact ok.apart i hi a ha
  · have hslot : ∀ i < b.count.toNat, b.keys i ≠ key := fun i hi hk =>
      ok.apart i hi c hc (hk.trans hkey.symm)
    simp only [Holds, hkeys]
    constructor
    · rintro (⟨i, hi, rfl, rfl⟩ | ⟨a, ha, rfl, rfl⟩)
      · exact .inr ⟨hslot i hi, .inl ⟨i, hi, rfl, rfl⟩⟩
      · by_cases hac : a = c
        · rw [hac, Function.update_self]
          exact .inl ⟨hkey, rfl⟩
        · rw [Function.update_of_ne hac]
          exact .inr ⟨fun hk => hac (ok.node_inj ha hc (hk.trans hkey.symm)),
            .inr ⟨a, ha, rfl, rfl⟩⟩
    · rintro (⟨rfl, rfl⟩ | ⟨hne, hin | ⟨a, ha, rfl, rfl⟩⟩)
      · exact .inr ⟨c, hc, hkey, by rw [Function.update_self]⟩
      · exact .inl hin
      · have hac : a ≠ c := fun heq => hne (heq ▸ hkey)
        exact .inr ⟨a, ha, rfl, by rw [Function.update_of_ne hac]⟩

/-- **`upsert_in_bucket`** stores the value under the key and tells whether the key is new. -/
theorem upsertInBucket_spec (hslots : slots ≤ 255) (ok : BucketOk slots h.node b as)
    (hlt : ∀ a ∈ as, a < h.alloc) (hfuel : as.length ≤ h.alloc) (key val : Word) :
    ∃ h' b' as' new, upsertInBucket slots h b key val = some (h', b', new) ∧
      BucketStep slots h as h' b' as' ∧
      (∀ k v, Holds h'.node b' as' k v ↔ k = key ∧ v = val ∨ k ≠ key ∧ Holds h.node b as k v) ∧
      (new = true ↔ ∀ v, ¬ Holds h.node b as key v) := by
  rcases slotLoop_spec hslots ok.room key with ⟨i, hloop, hi, hkey⟩ | ⟨hloop, hno⟩
  · obtain ⟨hstep, hholds⟩ := update_inline ok hi hkey val
    have hwrite : write slots b.vals i val = some (Function.update b.vals i.toNat val) :=
      if_pos (hi.trans_le ok.room)
    refine ⟨_, _, _, false, by simp only [upsertInBucket, hloop, Option.bind_some, hwrite,
      Option.map_some], hstep, hholds, ?_⟩
    exact iff_of_false Bool.false_ne_true fun hall => hall _ (.inl ⟨_, hi, hkey, rfl⟩)
  · rcases chainLoop_spec ok.linked (Nat.lt_succ_of_le hfuel) key with
      ⟨c, hc, hchain, hkey⟩ | ⟨hchain, hnone⟩
    · obtain ⟨hstep, hholds⟩ := update_node ok hc hkey val
      refine ⟨_, _, _, false, by simp only [upsertInBucket, hloop, hchain, Option.bind_some], hstep,
        hholds, ?_⟩
      exact iff_of_false Bool.false_ne_true fun hall => hall _ (.inr ⟨c, hc, hkey, rfl⟩)
    · have habsent : ∀ v, ¬ Holds h.node b as key v := by
        rintro v (⟨i, hi, hk, -⟩ | ⟨a, ha, hk, -⟩)
        · exact hno i hi hk
        · exact hnone a ha hk
      obtain ⟨h', b', as', hnew, hstep, hholds⟩ := insertNew_spec hslots ok hlt habsent val
      exact ⟨h', b', as', true, by simp only [upsertInBucket, hloop, hchain, Option.bind_some, hnew,
        Option.map_some], hstep, hholds, iff_of_true rfl habsent⟩

/-- An inline slot is filled with the last one. -/
theorem remove_inline (ok : BucketOk slots h.node b as) {i : Nat} (hi : i < b.count.toNat)
    (hkey : b.keys i = key) {count : UInt8} (hcount : count.toNat + 1 = b.count.toNat) :
    BucketStep slots h as h
        { b with
          count := count
          keys := Function.update b.keys i (b.keys count.toNat)
          vals := Function.update b.vals i (b.vals count.toNat) } as ∧
      ∀ k v, Holds h.node
        { b with
          count := count
          keys := Function.update b.keys i (b.keys count.toNat)
          vals := Function.update b.vals i (b.vals count.toNat) } as k v ↔
        k ≠ key ∧ Holds h.node b as k v := by
  have hnode : ∀ a ∈ as, (h.node a).key ≠ key := fun a ha hk =>
    ok.apart i hi a ha (hkey.trans hk.symm)
  -- slot `j` of the new bucket is slot `src j` of the old one, and `i` is left out
  let src : Nat → Nat := fun j => if j = i then count.toNat else j
  have hsrc : ∀ j, Function.update b.keys i (b.keys count.toNat) j = b.keys (src j) ∧
      Function.update b.vals i (b.vals count.toNat) j = b.vals (src j) := fun j => by
    by_cases hj : j = i
    · simp [src, hj]
    · simp [src, hj]
  have hlt : ∀ j < count.toNat, src j < b.count.toNat ∧ src j ≠ i := fun j hj => by
    by_cases hji : j = i
    · simp only [src, if_pos hji]
      omega
    · simp only [src, if_neg hji]
      omega
  have hinj : ∀ j < count.toNat, ∀ j' < count.toNat, src j = src j' → j = j' := by
    intro j hj j' hj' heq
    by_cases hji : j = i <;> by_cases hji' : j' = i <;> simp only [src, hji, hji', if_true,
      if_false] at heq <;> omega
  refine ⟨⟨⟨?_, ok.linked, fun j hj j' hj' heq => ?_, ok.nodes, fun j hj a ha => ?_⟩,
    fun _ _ _ => rfl, fun _ hrest => hrest⟩, fun k v => ?_⟩
  · change count.toNat ≤ slots
    exact (Nat.le_of_lt (by omega)).trans ok.room
  · dsimp only at heq
    rw [(hsrc j).1, (hsrc j').1] at heq
    exact hinj j hj j' hj' (ok.slots _ (hlt j hj).1 _ (hlt j' hj').1 heq)
  · dsimp only
    rw [(hsrc j).1]
    exact ok.apart _ (hlt j hj).1 a ha
  · have hiff := holds_of_inline (b := b) { b with
        count := count
        keys := Function.update b.keys i (b.keys count.toNat)
        vals := Function.update b.vals i (b.vals count.toNat) } (k := key) hnode
      (p := fun _ _ => False) (fun k v => ?_) k v
    · rwa [false_or] at hiff
    · rw [false_or]
      constructor
      · rintro ⟨j, hj, rfl, rfl⟩
        dsimp only
        rw [(hsrc j).1, (hsrc j).2]
        refine ⟨fun hk => (hlt j hj).2 ?_, src j, (hlt j hj).1, rfl, rfl⟩
        exact ok.slots _ (hlt j hj).1 i hi (hk.trans hkey.symm)
      · rintro ⟨hne, j, hj, rfl, rfl⟩
        have hji : j ≠ i := fun heq => hne (heq ▸ hkey)
        by_cases hlast : j = count.toNat
        · refine ⟨i, by dsimp only; omega, ?_, ?_⟩ <;> dsimp only <;>
            rw [Function.update_self, hlast]
        · exact ⟨j, by dsimp only; omega, Function.update_of_ne hji _ _,
            Function.update_of_ne hji _ _⟩

/-- What the loop over the chain does from a link on: nothing, or it takes the first node
with the key out of the chain. -/
theorem unlinkLoop_spec {fuel : Nat} (pp : Link)
    (hl : Linked (fun a => (h.node a).next) (loadLink h b pp) as)
    (hpp : ∀ c, pp = .next c → c ∉ as) (hfuel : as.length < fuel) (key : Word) :
    (unlinkLoop h b key fuel pp = some (h, b, false) ∧ ∀ a ∈ as, (h.node a).key ≠ key) ∨
      ∃ pre v post h' b', as = pre ++ v :: post ∧ (h.node v).key = key ∧
        unlinkLoop h b key fuel pp = some (h', b', true) ∧
        Linked (fun a => (h'.node a).next) (loadLink h' b' pp) (pre ++ post) ∧
        (∀ a, (h'.node a).key = (h.node a).key ∧ (h'.node a).val = (h.node a).val) ∧
        (∀ a, a ∉ as → pp ≠ .next a → h'.node a = h.node a) ∧
        h'.alloc = h.alloc ∧ h'.deleted = h.deleted ++ [v] ∧
        b' = { b with chain := b'.chain } ∧ (pp ≠ .head → b'.chain = b.chain) := by
  induction as generalizing pp fuel with
  | nil =>
      obtain ⟨fuel, rfl⟩ := Nat.exists_eq_succ_of_ne_zero (Nat.ne_zero_of_lt hfuel)
      have hnone : loadLink h b pp = none := hl
      exact .inl ⟨by simp only [unlinkLoop, hnone], fun a ha => absurd ha List.not_mem_nil⟩
  | cons c as ih =>
      obtain ⟨fuel, rfl⟩ := Nat.exists_eq_succ_of_ne_zero (Nat.ne_zero_of_lt hfuel)
      obtain ⟨hload, hrest⟩ := hl
      obtain ⟨hc, -⟩ := List.nodup_cons.mp (Linked.nodup (p := some c) ⟨rfl, hrest⟩)
      by_cases hkey : (h.node c).key = key
      · have hres : unlinkLoop h b key (fuel + 1) pp =
            some ({ (storeLink h b (h.node c).next pp).1 with
              deleted := (storeLink h b (h.node c).next pp).1.deleted ++ [c] },
              (storeLink h b (h.node c).next pp).2, true) := by
          simp only [unlinkLoop, hload, if_pos hkey]
        refine .inr ⟨[], c, as, _, _, rfl, hkey, hres, ?_⟩
        cases pp with
        | head =>
            exact ⟨hrest, fun a => ⟨rfl, rfl⟩, fun a _ _ => rfl, rfl, rfl, rfl,
              fun hne => absurd rfl hne⟩
        | next u =>
            have hu := hpp u rfl
            refine ⟨?_, fun a => ?_, fun a _ ha => ?_, rfl, rfl, rfl, fun _ => rfl⟩
            · simp only [loadLink, storeLink, Function.update_self, List.nil_append]
              refine hrest.congr fun a ha => ?_
              rw [Function.update_of_ne (by rintro rfl; exact hu (.tail _ ha))]
            · simp only [storeLink]
              by_cases hau : a = u
              · rw [hau, Function.update_self]
                exact ⟨rfl, rfl⟩
              · rw [Function.update_of_ne hau]
                exact ⟨rfl, rfl⟩
            · exact Function.update_of_ne (by rintro rfl; exact ha rfl) _ _
      · have hloop : unlinkLoop h b key (fuel + 1) pp = unlinkLoop h b key fuel (.next c) := by
          simp only [unlinkLoop, hload, if_neg hkey]
        rw [hloop]
        rcases ih (.next c) hrest (fun d hd => Link.next.inj hd ▸ hc)
          (Nat.lt_of_succ_lt_succ hfuel) with
          ⟨hres, hno⟩ | ⟨pre, v, post, h', b', rfl, hv, hres, hlinked, hsame, hframe, halloc, hdel,
            hb, hchain⟩
        · refine .inl ⟨hres, fun a ha => ?_⟩
          rcases List.mem_cons.mp ha with rfl | ha
          · exact hkey
          · exact hno a ha
        · have hload' : loadLink h' b' pp = some c := by
            rw [← hload]
            cases pp with
            | head => exact hchain (fun heq => by cases heq)
            | next u =>
                have hu := hpp u rfl
                have hne : Link.next c ≠ Link.next u := fun heq =>
                  hu (Link.next.inj heq ▸ .head _)
                simp only [loadLink, hframe u (fun hmem => hu (.tail _ hmem)) hne]
          refine .inr ⟨c :: pre, v, post, h', b', rfl, hv, hres, ⟨hload', hlinked⟩, hsame,
            fun a ha hpa => hframe a (fun hmem => ha (.tail _ hmem)) fun heq => ?_, halloc, hdel, hb,
            fun _ => hchain fun heq => by cases heq⟩
          exact ha (Link.next.inj heq ▸ .head _)

/-- A key is taken out of the chain. -/
theorem remove_node (ok : BucketOk slots h.node b as) (hfuel : as.length ≤ h.alloc) (key : Word)
    (hslot : ∀ i < b.count.toNat, b.keys i ≠ key) :
    ∃ h' b' as' found, unlinkLoop h b key (h.alloc + 1) .head = some (h', b', found) ∧
      BucketStep slots h as h' b' as' ∧
      (∀ k v, Holds h'.node b' as' k v ↔ k ≠ key ∧ Holds h.node b as k v) ∧
      (found = true ↔ ∃ v, Holds h.node b as key v) := by
  rcases unlinkLoop_spec .head ok.linked (fun c hc => by cases hc)
    (Nat.lt_succ_of_le hfuel) key with
    ⟨hres, hno⟩ | ⟨pre, v, post, h', b', rfl, hv, hres, hlinked, hsame, hframe, halloc, hdel, hb, -⟩
  · refine ⟨h, b, as, false, hres, ⟨ok, fun _ _ _ => rfl, fun _ hrest => hrest⟩, fun k v => ?_, ?_⟩
    · refine ⟨fun hh => ⟨?_, hh⟩, fun hh => hh.2⟩
      rintro rfl
      rcases hh with ⟨i, hi, hk, -⟩ | ⟨a, ha, hk, -⟩
      · exact hslot i hi hk
      · exact hno a ha hk
    · refine iff_of_false Bool.false_ne_true ?_
      rintro ⟨v, ⟨i, hi, hk, -⟩ | ⟨a, ha, hk, -⟩⟩
      · exact hslot i hi hk
      · exact hno a ha hk
  · have hsub : (pre ++ post).Sublist (pre ++ v :: post) :=
      (List.sublist_cons_self v post).append_left pre
    have hcount : b'.count = b.count := by rw [hb]
    have hkeys : b'.keys = b.keys := by rw [hb]
    have hvals : b'.vals = b.vals := by rw [hb]
    have hmem : ∀ a, a ∈ pre ++ v :: post ↔ a = v ∨ a ∈ pre ++ post := fun a => by
      simp only [List.mem_append, List.mem_cons]
      tauto
    have hother : ∀ a ∈ pre ++ post, (h.node a).key ≠ key := fun a ha hk => by
      obtain rfl := ok.node_inj ((hmem a).mpr (.inr ha)) ((hmem v).mpr (.inl rfl)) (hk.trans hv.symm)
      have hnodup := ok.linked.nodup
      rw [List.nodup_middle] at hnodup
      exact (List.nodup_cons.mp hnodup).1 ha
    refine ⟨h', b', pre ++ post, true, hres, ⟨⟨?_, hlinked, ?_, ?_, fun i hi a ha => ?_⟩,
      fun a ha _ => hframe a ha (fun heq => by cases heq), fun rest hrest => ?_⟩, fun k w => ?_, ?_⟩
    · rw [hcount]
      exact ok.room
    · rw [hcount, hkeys]
      exact ok.slots
    · simp only [(hsame _).1]
      exact ok.nodes.sublist (hsub.map _)
    · rw [hcount] at hi
      rw [hkeys, (hsame a).1]
      exact ok.apart i hi a (hsub.mem ha)
    · rw [halloc, hdel]
      refine List.Perm.trans ?_ hrest
      simp only [List.append_assoc, List.cons_append, List.nil_append]
      exact List.Perm.append_left h.deleted (List.perm_middle).symm
    · simp only [Holds, hcount, hkeys, hvals, (hsame _).1, (hsame _).2, hmem]
      constructor
      · rintro (⟨i, hi, rfl, rfl⟩ | ⟨a, ha, rfl, rfl⟩)
        · exact ⟨hslot i hi, .inl ⟨i, hi, rfl, rfl⟩⟩
        · exact ⟨hother a ha, .inr ⟨a, .inr ha, rfl, rfl⟩⟩
      · rintro ⟨hne, hin | ⟨a, rfl | ha, rfl, rfl⟩⟩
        · exact .inl hin
        · exact absurd hv hne
        · exact .inr ⟨a, ha, rfl, rfl⟩
    · exact iff_of_true rfl ⟨_, .inr ⟨v, (hmem v).mpr (.inl rfl), hv, rfl⟩⟩

/-- **`remove_from_bucket`** takes the key out and tells whether it was there. -/
theorem removeFromBucket_spec (hslots : slots ≤ 255) (ok : BucketOk slots h.node b as)
    (hfuel : as.length ≤ h.alloc) (key : Word) :
    ∃ h' b' as' found, removeFromBucket slots h b key = some (h', b', found) ∧
      BucketStep slots h as h' b' as' ∧
      (∀ k v, Holds h'.node b' as' k v ↔ k ≠ key ∧ Holds h.node b as k v) ∧
      (found = true ↔ ∃ v, Holds h.node b as key v) := by
  rcases slotLoop_spec hslots ok.room key with ⟨i, hloop, hi, hkey⟩ | ⟨hloop, hno⟩
  · have hcount : (b.count - 1).toNat + 1 = b.count.toNat := by
      have hone : (1 : UInt8) ≤ b.count := by
        rw [UInt8.le_iff_toNat_le]
        change 1 ≤ b.count.toNat
        omega
      rw [UInt8.toNat_sub_of_le _ _ hone]
      change b.count.toNat - 1 + 1 = _
      omega
    have hlast : (b.count - 1).toNat < slots := by
      have := ok.room
      omega
    have hin : i.toNat < slots := hi.trans_le ok.room
    obtain ⟨hstep, hholds⟩ := remove_inline ok hi hkey hcount
    refine ⟨_, _, _, true, ?_, hstep, hholds, iff_of_true rfl ⟨_, .inl ⟨_, hi, hkey, rfl⟩⟩⟩
    simp only [removeFromBucket, hloop, Option.bind_some, read, write, if_pos hlast, if_pos hin,
      Option.map_some]
  · obtain ⟨h', b', as', found, hres, hrest⟩ := remove_node ok hfuel key hno
    exact ⟨h', b', as', found, by simp only [removeFromBucket, hloop, Option.bind_some, hres], hrest⟩

end Bucket

/-! ## The table -/

/-- The chains of all buckets, one after the other. -/
def allNodes (t : Table) (chains : Nat → List Addr) : List Addr :=
  (List.range t.size).flatMap chains

/-- Every bucket is in order, its keys belong there, and every node is deleted or in
exactly one place of one chain. -/
structure TableOk (slots : Nat) (t : Table) (chains : Nat → List Addr) : Prop where
  size_pos : 0 < t.size
  mask : t.mask.toNat + 1 = t.size
  bucket : ∀ i < t.size, BucketOk slots t.heap.node (t.bucket i) (chains i)
  home : ∀ i < t.size, ∀ k v, Holds t.heap.node (t.bucket i) (chains i) k v → t.bucketOf k = i
  owned : (t.heap.deleted ++ allNodes t chains).Perm (List.range t.heap.alloc)

section Table

variable {slots : Nat} {t : Table} {chains : Nat → List Addr}

/-- No node is in two places, or freed and in use. -/
theorem TableOk.nodup (ok : TableOk slots t chains) :
    (t.heap.deleted ++ allNodes t chains).Nodup :=
  ok.owned.nodup_iff.mpr List.nodup_range

/-- The nodes of the table have been allocated. -/
theorem TableOk.lt_alloc (ok : TableOk slots t chains) {i : Nat} (hi : i < t.size) {a : Addr}
    (ha : a ∈ chains i) : a < t.heap.alloc := by
  have hmem : a ∈ t.heap.deleted ++ allNodes t chains :=
    List.mem_append_right _ (List.mem_flatMap.mpr ⟨i, List.mem_range.mpr hi, ha⟩)
  exact List.mem_range.mp (ok.owned.mem_iff.mp hmem)

/-- The chains of different buckets have no node in common. -/
theorem TableOk.disjoint (ok : TableOk slots t chains) {i j : Nat} (hi : i < t.size)
    (hj : j < t.size) (hij : i ≠ j) {a : Addr} (ha : a ∈ chains i) : a ∉ chains j := by
  have hnodup := (List.nodup_append.mp ok.nodup).2.1
  have hpair := (List.nodup_flatMap.mp hnodup).2
  intro hb
  have hdisj : ∀ {i j : Nat}, i < t.size → j < t.size → i < j → (chains i).Disjoint (chains j) := by
    intro i j hi hj hlt
    have h := List.pairwise_iff_getElem.mp hpair i j (by simpa using hi) (by simpa using hj) hlt
    simpa using h
  rcases Nat.lt_or_gt_of_ne hij with hlt | hgt
  · exact hdisj hi hj hlt ha hb
  · exact hdisj hj hi hgt hb ha

/-- A chain is no longer than the number of nodes. -/
theorem TableOk.length_le (ok : TableOk slots t chains) {i : Nat} (hi : i < t.size) :
    (chains i).length ≤ t.heap.alloc := by
  have hsub : (chains i) ⊆ List.range t.heap.alloc := fun a ha =>
    List.mem_range.mpr (ok.lt_alloc hi ha)
  have hle := (List.subperm_of_subset (ok.bucket i hi).linked.nodup hsub).length_le
  rwa [List.length_range] at hle

/-- The mask picks a bucket of the table. -/
theorem TableOk.bucketOf_lt (ok : TableOk slots t chains) (k : Word) : t.bucketOf k < t.size := by
  have hle : (bucketFor t.mask k).toNat ≤ t.mask.toNat := by
    rw [bucketFor, UInt64.toNat_and]
    exact Nat.and_le_right
  rw [← ok.mask]
  exact Nat.lt_succ_of_le hle

/-- All nodes, with those of one bucket first. -/
theorem allNodes_perm {i : Nat} (hi : i < t.size) (chains : Nat → List Addr) :
    (allNodes t chains).Perm (chains i ++ ((List.range t.size).erase i).flatMap chains) := by
  have hperm := List.perm_cons_erase (List.mem_range.mpr hi)
  exact (hperm.flatMap_right chains).trans (by rw [List.flatMap_cons])

/-- **A change of one bucket keeps the table in order.** -/
theorem TableOk.set (ok : TableOk slots t chains) {i : Nat} (hi : i < t.size) {h' : Heap}
    {b' : Bucket} {as' : List Addr} (hstep : BucketStep slots t.heap (chains i) h' b' as')
    (hhome : ∀ k v, Holds h'.node b' as' k v → t.bucketOf k = i) :
    TableOk slots (t.set i h' b') (Function.update chains i as') ∧
      ∀ j < t.size, j ≠ i → ∀ k v,
        (Holds h'.node (t.bucket j) (chains j) k v ↔ Holds t.heap.node (t.bucket j) (chains j) k v) := by
  have hframe : ∀ j < t.size, j ≠ i → ∀ a ∈ chains j, h'.node a = t.heap.node a :=
    fun j hj hji a ha => hstep.frame a (ok.disjoint hj hi hji ha) (ok.lt_alloc hj ha)
  have hother : ∀ j < t.size, j ≠ i → ∀ k v,
      (Holds h'.node (t.bucket j) (chains j) k v ↔
        Holds t.heap.node (t.bucket j) (chains j) k v) := by
    intro j hj hji k v
    refine or_congr_right (exists_congr fun a => and_congr_right fun ha => ?_)
    rw [hframe j hj hji a ha]
  refine ⟨⟨ok.size_pos, ok.mask, fun j hj => ?_, fun j hj k v hh => ?_, ?_⟩, hother⟩
  · by_cases hji : j = i
    · subst hji
      simpa [Table.set] using hstep.ok
    · have hj' := ok.bucket j hj
      simp only [Table.set, Function.update_of_ne hji]
      have hkeys : ((chains j).map fun a => (h'.node a).key) =
          (chains j).map fun a => (t.heap.node a).key :=
        List.map_congr_left fun a ha => by rw [hframe j hj hji a ha]
      refine ⟨hj'.room, hj'.linked.congr fun a ha => by rw [hframe j hj hji a ha], hj'.slots,
        hkeys ▸ hj'.nodes, fun n hn a ha => ?_⟩
      rw [hframe j hj hji a ha]
      exact hj'.apart n hn a ha
  · by_cases hji : j = i
    · subst hji
      simp only [Table.set, Function.update_self] at hh
      exact hhome k v hh
    · simp only [Table.set, Function.update_of_ne hji] at hh
      exact ok.home j hj k v ((hother j hj hji k v).mp hh)
  · have hold := (((allNodes_perm hi chains).append_left t.heap.deleted).symm.trans ok.owned)
    have hnew := hstep.owned _ hold
    refine List.Perm.trans ?_ hnew
    refine List.Perm.append_left _ ((allNodes_perm (t := t.set i h' b') hi _).trans ?_)
    rw [Function.update_self]
    refine List.Perm.append_left _ (List.Perm.of_eq ?_)
    refine List.flatMap_congr fun j hj => ?_
    have hji : j ≠ i := fun heq => by
      subst heq
      exact (List.Nodup.not_mem_erase List.nodup_range) hj
    rw [Function.update_of_ne hji]

/-- The table stores `v` under `k`, in the bucket of `k`. -/
def Table.Stores (t : Table) (chains : Nat → List Addr) (k v : Word) : Prop :=
  Holds t.heap.node (t.bucket (t.bucketOf k)) (chains (t.bucketOf k)) k v

/-- What a change of the bucket of a key means for the table. -/
theorem TableOk.set_bucketOf (ok : TableOk slots t chains) (key : Word) {h' : Heap} {b' : Bucket}
    {as' : List Addr} (hstep : BucketStep slots t.heap (chains (t.bucketOf key)) h' b' as')
    {p : Word → Word → Prop} (hp : ∀ k v, p k v → k = key)
    (hholds : ∀ k v, Holds h'.node b' as' k v ↔
      p k v ∨ k ≠ key ∧ Holds t.heap.node (t.bucket (t.bucketOf key)) (chains (t.bucketOf key)) k v) :
    TableOk slots (t.set (t.bucketOf key) h' b') (Function.update chains (t.bucketOf key) as') ∧
      ∀ k v, (t.set (t.bucketOf key) h' b').Stores (Function.update chains (t.bucketOf key) as') k v ↔
        p k v ∨ k ≠ key ∧ t.Stores chains k v := by
  have hlt := ok.bucketOf_lt
  obtain ⟨hok, hother⟩ := ok.set (hlt key) hstep fun k v hh => by
    rcases (hholds k v).mp hh with hpk | ⟨-, hh⟩
    · rw [hp k v hpk]
    · exact ok.home _ (hlt key) k v hh
  refine ⟨hok, fun k v => ?_⟩
  have hset : (t.set (t.bucketOf key) h' b').bucketOf k = t.bucketOf k := rfl
  rw [Table.Stores, Table.Stores, hset]
  simp only [Table.set]
  by_cases hk : t.bucketOf k = t.bucketOf key
  · rw [hk, Function.update_self, Function.update_self]
    exact hholds k v
  · rw [Function.update_of_ne hk, Function.update_of_ne hk, hother _ (hlt k) hk]
    have hne : k ≠ key := fun heq => hk (heq ▸ rfl)
    exact ⟨fun hh => .inr ⟨hne, hh⟩, fun hh => hh.elim (fun hpk => absurd (hp k v hpk) hne) And.right⟩

/-- The bucket of a key is there. -/
theorem TableOk.at_eq (ok : TableOk slots t chains) (key : Word) :
    t.at (t.bucketOf key) = some (t.bucket (t.bucketOf key)) :=
  if_pos (ok.bucketOf_lt key)

/-- **`get`** returns what the table stores. -/
theorem get_spec (hslots : slots ≤ 255) (ok : TableOk slots t chains) (key : Word) :
    ∃ r, get slots t key = some r ∧ ∀ v, r = some v ↔ t.Stores chains key v := by
  have hlt := ok.bucketOf_lt key
  obtain ⟨r, hr, hspec⟩ := findInBucket_spec hslots (ok.bucket _ hlt) (ok.length_le hlt) key
  exact ⟨r, by simp only [get, ok.at_eq, Option.bind_some, hr], hspec⟩

/-- A validated read of a free bucket is a locked one. -/
theorem getOptimistic_eq {version : Nat → Nat} (heven : ∀ b, version b % 2 = 0) (key : Word) :
    getOptimistic slots t version key = get slots t key := by
  have hfree : OccLock.odd (version (t.bucketOf key)) = false := by
    simp [OccLock.odd, OccLock.word, heven]
  simp only [getOptimistic, optimisticLoop, hfree, if_true]
  cases get slots t key <;> rfl

/-- **`put`** stores the value and tells whether the key is new. -/
theorem put_spec (hslots : slots ≤ 255) (ok : TableOk slots t chains) (key val : Word) :
    ∃ t' chains' new, put slots t key val = some (t', new) ∧ TableOk slots t' chains' ∧
      (∀ k v, t'.Stores chains' k v ↔ k = key ∧ v = val ∨ k ≠ key ∧ t.Stores chains k v) ∧
      (new = true ↔ ∀ v, ¬ t.Stores chains key v) := by
  have hlt := ok.bucketOf_lt key
  obtain ⟨h', b', as', new, hup, hstep, hholds, hnew⟩ := upsertInBucket_spec hslots
    (ok.bucket _ hlt) (fun a ha => ok.lt_alloc hlt ha) (ok.length_le hlt) key val
  obtain ⟨hok, hstores⟩ := ok.set_bucketOf key hstep (p := fun k v => k = key ∧ v = val)
    (fun _ _ h => h.1) hholds
  exact ⟨_, _, new, by simp only [put, ok.at_eq, Option.bind_some, hup, Option.map_some], hok,
    hstores, hnew⟩

/-- **`remove`** takes the key out and tells whether it was there. -/
theorem remove_spec (hslots : slots ≤ 255) (ok : TableOk slots t chains) (key : Word) :
    ∃ t' chains' found, remove slots t key = some (t', found) ∧ TableOk slots t' chains' ∧
      (∀ k v, t'.Stores chains' k v ↔ k ≠ key ∧ t.Stores chains k v) ∧
      (found = true ↔ ∃ v, t.Stores chains key v) := by
  have hlt := ok.bucketOf_lt key
  obtain ⟨h', b', as', found, hrem, hstep, hholds, hfound⟩ := removeFromBucket_spec hslots
    (ok.bucket _ hlt) (ok.length_le hlt) key
  obtain ⟨hok, hstores⟩ := ok.set_bucketOf key hstep (p := fun _ _ => False)
    (fun _ _ h => h.elim) fun k v => by rw [hholds, false_or]
  refine ⟨_, _, found, by simp only [remove, ok.at_eq, Option.bind_some, hrem, Option.map_some], hok,
    fun k v => ?_, hfound⟩
  rw [hstores, false_or]

/-- `delete` is called on every node of the chain. -/
theorem deleteChain_eq {node : Addr → Node} {p : Option Addr} {as : List Addr} {fuel : Nat}
    (hl : Linked (fun a => (node a).next) p as) (hfuel : as.length < fuel) :
    deleteChain node fuel p = some as := by
  induction as generalizing p fuel with
  | nil =>
      obtain rfl : p = none := hl
      obtain ⟨fuel, rfl⟩ := Nat.exists_eq_succ_of_ne_zero (Nat.ne_zero_of_lt hfuel)
      rfl
  | cons c as ih =>
      obtain ⟨rfl, hrest⟩ := hl
      obtain ⟨fuel, rfl⟩ := Nat.exists_eq_succ_of_ne_zero (Nat.ne_zero_of_lt hfuel)
      simp only [deleteChain, ih hrest (Nat.lt_of_succ_lt_succ hfuel), Option.map_some]

/-- **The destructor** deletes the nodes of all chains. -/
theorem destroy_eq (hmask : (t.mask + 1).toNat = t.size) (ok : TableOk slots t chains) :
    destroy t = some (allNodes t chains) := by
  have hmapM : ∀ l : List Nat, (∀ i ∈ l, i < t.size) → (l.mapM fun i =>
      (t.at i).bind fun b => deleteChain t.heap.node (t.heap.alloc + 1) b.chain) =
        some (l.map chains) := by
    intro l hl
    induction l with
    | nil => rfl
    | cons i l ih =>
        have hi := hl i (.head _)
        have hat : t.at i = some (t.bucket i) := if_pos hi
        have hdel := deleteChain_eq (ok.bucket i hi).linked (Nat.lt_succ_of_le (ok.length_le hi))
        rw [List.mapM_cons, hat, Option.bind_some, hdel, ih fun j hj => hl j (.tail _ hj)]
        rfl
  rw [destroy, hmask, hmapM _ fun i hi => List.mem_range.mp hi]
  rfl

end Table

/-! ## Sequences of calls -/

/-- The table holds the map. -/
structure Refines (slots : Nat) (t : Table) (chains : Nat → List Addr) (f : Word → Option Word) :
    Prop extends TableOk slots t chains where
  mem : ∀ k v, t.Stores chains k v ↔ f k = some v

section Calls

variable {slots : Nat} {t : Table} {chains : Nat → List Addr} {f : Word → Option Word}

/-- A decrement that does not wrap. -/
theorem toNat_pred {n : Word} (hn : 1 ≤ n) : (n - 1).toNat + 1 = n.toNat := by
  have hle : 1 ≤ n.toNat := UInt64.le_iff_toNat_le.mp hn
  rw [UInt64.toNat_sub_of_le _ _ hn]
  change n.toNat - 1 + 1 = n.toNat
  omega

/-- A table of `mask + 1` empty buckets. -/
def emptyTable (mask : Word) : Table where
  mask := mask
  size := mask.toNat + 1
  bucket := fun _ => ⟨0, fun _ => 0, fun _ => 0, none⟩
  heap := ⟨fun _ => ⟨0, 0, none⟩, 0, []⟩

/-- The constructor leaves such a table. -/
theorem construct_eq {numBuckets : Word} (hn : 1 ≤ numBuckets) :
    construct numBuckets = emptyTable (numBuckets - 1) := by
  rw [construct, emptyTable, toNat_pred hn]

/-- It holds the empty map. -/
theorem refines_emptyTable (mask : Word) :
    Refines slots (emptyTable mask) (fun _ => []) fun _ => none := by
  have hno : ∀ i k v, ¬ Holds (emptyTable mask).heap.node ((emptyTable mask).bucket i) [] k v := by
    rintro i k v (⟨j, hj, -⟩ | ⟨a, ha, -⟩)
    · exact absurd hj (Nat.not_lt_zero j)
    · exact absurd ha List.not_mem_nil
  refine ⟨⟨Nat.succ_pos _, rfl, fun i _ => ?_, fun i _ k v hh => absurd hh (hno i k v), ?_⟩,
    fun k v => iff_of_false (hno _ k v) nofun⟩
  · exact ⟨Nat.zero_le _, rfl, fun j hj => absurd hj (Nat.not_lt_zero j), .nil,
      fun j hj => absurd hj (Nat.not_lt_zero j)⟩
  · simp [allNodes, emptyTable]

/-- **One call** returns what the map returns. -/
theorem run_refines (hslots : slots ≤ 255) (href : Refines slots t chains f) (c : Call) :
    ∃ t' chains', c.run slots t = some (t', (c.op.apply f).2) ∧
      Refines slots t' chains' (c.op.apply f).1 := by
  have hget : ∀ key, get slots t key = some (f key) := by
    intro key
    obtain ⟨r, hr, hspec⟩ := get_spec hslots href.toTableOk key
    rw [hr, Option.some.injEq]
    exact Option.ext fun v => (hspec v).trans (href.mem key v)
  cases c with
  | get key => exact ⟨t, chains, by simp only [Call.run, hget]; rfl, href⟩
  | getShared key => exact ⟨t, chains, by simp only [Call.run, getShared, hget]; rfl, href⟩
  | getOptimistic key version =>
      refine ⟨t, chains, ?_, href⟩
      simp only [Call.run, getOptimistic_eq version.2, hget]
      rfl
  | put key val =>
      obtain ⟨t', chains', new, hput, hok, hstores, hnew⟩ := put_spec hslots href.toTableOk key val
      refine ⟨t', chains', ?_, hok, fun k v => ?_⟩
      · simp only [Call.run, hput, Option.map_some, Call.op, MapOp.apply]
        congr 3
        rw [Bool.eq_iff_iff, hnew, Option.isNone_iff_eq_none, Option.eq_none_iff_forall_ne_some]
        exact forall_congr' fun v => not_congr (href.mem key v)
      · rw [hstores]
        by_cases hk : k = key
        · subst hk
          simp [Call.op, MapOp.apply, eq_comm]
        · simp [Call.op, MapOp.apply, hk, href.mem]
  | remove key =>
      obtain ⟨t', chains', found, hrem, hok, hstores, hfound⟩ :=
        remove_spec hslots href.toTableOk key
      refine ⟨t', chains', ?_, hok, fun k v => ?_⟩
      · simp only [Call.run, hrem, Option.map_some, Call.op, MapOp.apply]
        congr 3
        rw [Bool.eq_iff_iff, hfound, Option.isSome_iff_exists]
        exact exists_congr fun v => href.mem key v
      · rw [hstores]
        by_cases hk : k = key
        · subst hk
          simp [Call.op, MapOp.apply]
        · simp [Call.op, MapOp.apply, hk, href.mem]

/-- Calls keep the mask and the array. -/
theorem run_mask {t' : Table} {r : MapRes Word} {c : Call} (h : c.run slots t = some (t', r)) :
    t'.mask = t.mask ∧ t'.size = t.size := by
  cases c with
  | get key =>
      obtain ⟨x, -, hx⟩ := Option.map_eq_some_iff.mp h
      obtain ⟨rfl, -⟩ := Prod.mk.inj hx
      exact ⟨rfl, rfl⟩
  | getShared key =>
      obtain ⟨x, -, hx⟩ := Option.map_eq_some_iff.mp h
      obtain ⟨rfl, -⟩ := Prod.mk.inj hx
      exact ⟨rfl, rfl⟩
  | getOptimistic key version =>
      obtain ⟨x, -, hx⟩ := Option.map_eq_some_iff.mp h
      obtain ⟨rfl, -⟩ := Prod.mk.inj hx
      exact ⟨rfl, rfl⟩
  | put key val =>
      obtain ⟨x, hx, heq⟩ := Option.map_eq_some_iff.mp h
      obtain ⟨b, -, hb⟩ := Option.bind_eq_some_iff.mp hx
      obtain ⟨y, -, rfl⟩ := Option.map_eq_some_iff.mp hb
      obtain ⟨rfl, -⟩ := Prod.mk.inj heq
      exact ⟨rfl, rfl⟩
  | remove key =>
      obtain ⟨x, hx, heq⟩ := Option.map_eq_some_iff.mp h
      obtain ⟨b, -, hb⟩ := Option.bind_eq_some_iff.mp hx
      obtain ⟨y, -, rfl⟩ := Option.map_eq_some_iff.mp hb
      obtain ⟨rfl, -⟩ := Prod.mk.inj heq
      exact ⟨rfl, rfl⟩

/-- Calls from a table that holds a map. -/
theorem runCalls_refines (hslots : slots ≤ 255) (cs : List Call) (href : Refines slots t chains f) :
    ∃ t' chains', runCalls slots t cs =
        some (t', (mapObject Word Word).results f (cs.map Call.op)) ∧
      Refines slots t' chains' ((mapObject Word Word).after f (cs.map Call.op)) ∧
      t'.mask = t.mask ∧ t'.size = t.size := by
  induction cs generalizing t chains f with
  | nil => exact ⟨t, chains, rfl, href, rfl, rfl⟩
  | cons c cs ih =>
      obtain ⟨t₁, chains₁, hrun, href₁⟩ := run_refines hslots href c
      obtain ⟨hm₁, hs₁⟩ := run_mask hrun
      obtain ⟨t', chains', hrest, href', hm, hs⟩ := ih href₁
      refine ⟨t', chains', ?_, href', hm.trans hm₁, hs.trans hs₁⟩
      simp only [runCalls, hrun, Option.bind_some, hrest, Option.map_some, List.map_cons,
        SeqObject.results]
      rfl

/-- **`hash_index` is a map for one thread**, for every number of buckets and every number
of inline slots that a byte can count.  Every sequence of calls returns, call by call,
what the calls return on a map; the table behind it is in order; and its destructor
deletes exactly the nodes that were allocated and not deleted before, each once. -/
theorem runCalls_refines_map_table (numBuckets : Word) (hn : 1 ≤ numBuckets) (hslots : slots ≤ 255)
    (cs : List Call) :
    ∃ t chains ds, runCalls slots (construct numBuckets) cs =
        some (t, (mapObject Word Word).results (mapObject Word Word).init (cs.map Call.op)) ∧
      TableOk slots t chains ∧ destroy t = some ds ∧
      (t.heap.deleted ++ ds).Perm (List.range t.heap.alloc) := by
  rw [construct_eq hn]
  obtain ⟨t, chains, hrun, href, hmask, hsize⟩ := runCalls_refines hslots cs
    (refines_emptyTable (numBuckets - 1))
  have hdestroy := destroy_eq (by
    rw [hmask, hsize, emptyTable, sub_add_cancel, toNat_pred hn]) href.toTableOk
  exact ⟨t, chains, _, hrun, href.toTableOk, hdestroy, href.owned⟩

/-- Three buckets and one inline slot: keys share a bucket, go to the chain, and are
overwritten and removed there. -/
theorem runCalls_refines_map_table_three :
    ∃ t chains ds, runCalls 1 (construct 3) [.put 0 10, .put 4 40, .put 8 80, .remove 0, .put 12 1,
        .put 4 41, .get 4, .remove 8, .getShared 8, .getOptimistic 12 ⟨fun _ => 0, fun _ => rfl⟩] =
        some (t, [.flag true, .flag true, .flag true, .flag true, .flag true, .flag false,
          .value (some 41), .flag true, .value none, .value (some 1)]) ∧
      TableOk 1 t chains ∧ destroy t = some ds ∧
      (t.heap.deleted ++ ds).Perm (List.range t.heap.alloc) :=
  runCalls_refines_map_table 3 (by decide) (by decide) [.put 0 10, .put 4 40, .put 8 80, .remove 0,
    .put 12 1, .put 4 41, .get 4, .remove 8, .getShared 8,
    .getOptimistic 12 ⟨fun _ => 0, fun _ => rfl⟩]

end Calls

end HashTable
