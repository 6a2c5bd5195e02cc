import LockBench.IndexAdapters
import LockBench.PlaceValue

/-!
# Keys of `wormhole_index`

`encode_be` turns a 64-bit key into eight bytes, the most significant first, so that the
byte order of the library is the order of the keys.  The map that `wormhole_index` keeps on
byte strings is then a map on 64-bit keys under another name, order included.
-/

namespace IndexAdapters

open HashIndex (Word)
open PlaceValue (value)

/-- The bytes folded back, the most significant first. -/
def decodeBe (bytes : List UInt8) : Word :=
  bytes.foldl (fun w b => w * 256 + b.toUInt64) 0

/-- The value of what the loop of `encode_be` has written. -/
theorem value_encodeLoop (n : Nat) (k : Word) (out : List UInt8) :
    value UInt8.toNat 256 (encodeLoop n k out) =
      k.toNat % 256 ^ n * 256 ^ out.length + value UInt8.toNat 256 out := by
  induction n generalizing k out with
  | zero => simp [encodeLoop, Nat.mod_one]
  | succ n ih =>
      have hshift : (k >>> 8).toNat = k.toNat / 256 := by
        simp [Nat.shiftRight_eq_div_pow]
      have hmod : k.toNat % 256 ^ (n + 1) = k.toNat % 256 + 256 * (k.toNat / 256 % 256 ^ n) := by
        rw [pow_succ', Nat.mod_mul]
      rw [encodeLoop, ih, hshift, hmod, PlaceValue.value_cons, UInt64.toNat_toUInt8,
        List.length_cons]
      ring

/-- `encode_be` writes the key in base 256. -/
theorem value_encodeBe (k : Word) : value UInt8.toNat 256 (encodeBe k) = k.toNat := by
  have hlt : k.toNat < 256 ^ 8 := k.toNat_lt
  rw [encodeBe, value_encodeLoop, Nat.mod_eq_of_lt hlt]
  simp [value]

/-- Byte order is key order. -/
theorem encodeBe_lt_iff (a b : Word) : encodeBe a < encodeBe b ↔ a < b := by
  have hlen : (encodeBe a).length = (encodeBe b).length := rfl
  rw [PlaceValue.lt_iff_value_lt (by decide) UInt8.toNat_lt (fun _ _ => UInt8.lt_iff_toNat_lt)
    (fun _ _ => UInt8.toNat_inj.mp) hlen]
  change value UInt8.toNat 256 (encodeBe a) < value UInt8.toNat 256 (encodeBe b) ↔ _
  rw [value_encodeBe, value_encodeBe, UInt64.lt_iff_toNat_lt]

theorem decodeBe_encodeBe (k : Word) : decodeBe (encodeBe k) = k := by
  have hbytes : (encodeBe k).reverse = bytesOf k := rfl
  have hfold : decodeBe (encodeBe k) = wordOf (encodeBe k).reverse := by
    rw [decodeBe, wordOf, List.foldr_reverse]
  rw [hfold, hbytes, wordOf_bytesOf]

/-! ## The map on byte strings and the map on words -/

/-- A map on words with the results of `wormhole_index`: `put` says that it succeeded. -/
def wordMap : SeqObject Op Res where
  State := Word → Option Word
  init := fun _ => none
  step
    | .get k, m => (m, .value (m k))
    | .put k v, m => (Function.update m k (some v), .flag true)
    | .remove k, m => (Function.update m k none, .flag (m k).isSome)

/-- The byte strings of `contents` are the words of `m`, in the same order. -/
def Isomorphic (contents : List UInt8 → Option (List UInt8)) (m : Word → Option Word) : Prop :=
  ∃ e : {k // m k ≠ none} ≃ {key // contents key ≠ none},
    (∀ k, (e k).val = encodeBe k.val ∧ contents (e k).val = (m k.val).map bytesOf) ∧
    ∀ a b, (e a).val < (e b).val ↔ a.val < b.val

/-- The library's map holds the words of `m` and nothing else. -/
structure Represents (contents : List UInt8 → Option (List UInt8)) (m : Word → Option Word) :
    Prop where
  encodes : Encodes contents m
  only : ∀ key, contents key ≠ none → ∃ k, encodeBe k = key

namespace Represents

variable {contents : List UInt8 → Option (List UInt8)} {m : Word → Option Word}

/-- A store of one key. -/
theorem update (h : Represents contents m) (k : Word) (r : Option Word) :
    Represents (Function.update contents (encodeBe k) (r.map bytesOf)) (Function.update m k r) where
  encodes := h.encodes.update k r
  only := by
    intro key hkey
    by_cases heq : key = encodeBe k
    · exact ⟨k, heq.symm⟩
    · rw [Function.update_of_ne heq] at hkey
      exact h.only key hkey

theorem isSome (h : Represents contents m) (k : Word) :
    (contents (encodeBe k)).isSome = (m k).isSome := by
  rw [h.encodes k, Option.isSome_map]

theorem ne_none_iff (h : Represents contents m) (k : Word) :
    contents (encodeBe k) ≠ none ↔ m k ≠ none := by
  rw [h.encodes k, ne_eq, Option.map_eq_none_iff]

/-- **`encode_be` is an isomorphism of the two maps.** -/
theorem isomorphic (h : Represents contents m) : Isomorphic contents m := by
  let f : {k // m k ≠ none} → {key // contents key ≠ none} := fun k =>
    ⟨encodeBe k.val, (h.ne_none_iff k.val).mpr k.property⟩
  have hinj : Function.Injective f := fun a b hab =>
    Subtype.ext (encodeBe_injective (congrArg Subtype.val hab))
  have hsurj : Function.Surjective f := by
    rintro ⟨key, hkey⟩
    obtain ⟨k, rfl⟩ := h.only key hkey
    exact ⟨⟨k, (h.ne_none_iff k).mp hkey⟩, rfl⟩
  exact ⟨Equiv.ofBijective f ⟨hinj, hsurj⟩, fun k => ⟨rfl, h.encodes k.val⟩,
    fun a b => encodeBe_lt_iff a.val b.val⟩

end Represents

/-- One call keeps the two maps in line and returns the same. -/
theorem wormholeIndex_step (W : Wormhole) (op : Op) {s : W.State} {m : Word → Option Word}
    (h : Represents (W.contents s) m) :
    Represents (W.contents ((wormholeIndex W).step op s).1) (wordMap.step op m).1 ∧
      ((wormholeIndex W).step op s).2 = (wordMap.step op m).2 := by
  cases op with
  | get k =>
      refine ⟨h, ?_⟩
      change MapRes.value (valueOf (W.get (encodeBe k) s)) = .value (m k)
      rw [h.encodes.valueOf_get]
  | put k v =>
      constructor
      · change Represents (W.contents (W.put ⟨encodeBe k, bytesOf v⟩ s).1)
          (Function.update m k (some v))
        rw [W.put_contents]
        exact h.update k (some v)
      · change MapRes.flag (W.put ⟨encodeBe k, bytesOf v⟩ s).2 = .flag true
        rw [W.put_flag]
  | remove k =>
      constructor
      · change Represents (W.contents (W.del (encodeBe k) s).1) (Function.update m k none)
        rw [W.del_contents]
        exact h.update k none
      · change MapRes.flag (W.del (encodeBe k) s).2 = .flag (m k).isSome
        rw [W.del_flag, h.isSome]

/-- **`encode_be` is an order embedding**, and `wormhole_index` is a map on 64-bit keys: any
calls return what they return there, and the byte strings that are stored are the keys in
their order. -/
theorem encodeBe_embeds (W : Wormhole) :
    (∀ a b, encodeBe a < encodeBe b ↔ a < b) ∧ Function.Injective encodeBe ∧
      (∀ k, decodeBe (encodeBe k) = k) ∧
      ∀ ops : List Op,
        (wormholeIndex W).results W.create ops = wordMap.results wordMap.init ops ∧
          Isomorphic (W.contents ((wormholeIndex W).after W.create ops))
            (wordMap.after wordMap.init ops) := by
  have hinit : Represents (W.contents W.create) wordMap.init := by
    rw [W.contents_create]
    exact ⟨fun _ => rfl, fun _ h => absurd rfl h⟩
  refine ⟨encodeBe_lt_iff, encodeBe_injective, decodeBe_encodeBe, fun ops => ?_⟩
  obtain ⟨hres, hend⟩ := SeqObject.results_eq_of_sim (A := wormholeIndex W) (B := wordMap)
    (R := fun s m => Represents (W.contents s) m) (fun op s m h => wormholeIndex_step W op h) ops
    hinit
  exact ⟨hres, hend.isomorphic⟩

/-- Four calls on the library's map as a function. -/
theorem encodeBe_embeds_model :
    (wormholeIndex Wormhole.model).results Wormhole.model.create
        [.put 258 7, .put 1 9, .remove 1, .get 258] =
      [.flag true, .flag true, .flag true, .value (some 7)] :=
  ((encodeBe_embeds Wormhole.model).2.2.2 _).1.trans (by decide)

example : encodeBe 0x0102030405060708 = [1, 2, 3, 4, 5, 6, 7, 8] := by
  decide

end IndexAdapters
