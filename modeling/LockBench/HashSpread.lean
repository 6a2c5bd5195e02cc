import LockBench.HashTable
import Mathlib.Data.Nat.ModEq
import Mathlib.Data.Fintype.EquivFin

/-!
# How `bucket_for` spreads keys

`bucket_for` multiplies the key by an odd constant modulo `2 ^ 64` and keeps the low bits.
For a power of two of buckets this permutes residues: the low bits of a product depend on
the low bits of its factors only, and an odd factor can be cancelled.
-/

namespace HashTable

open HashIndex (Word bucketFor)

/-- Keys go to `n` buckets by their residue. -/
structure Spreads (t : Table) (n : Nat) : Prop where
  same_iff : ∀ a b : Word, t.bucketOf a = t.bucketOf b ↔ a.toNat ≡ b.toNat [MOD n]
  consecutive : ∀ (a : Word) (i : Nat), i < n → ∃! j, j < n ∧ t.bucketOf (a + .ofNat j) = i
  stride : ∀ a s : Word, n ∣ s.toNat → ∀ j : Word, t.bucketOf (a + j * s) = t.bucketOf a

/-- The mask of `2 ^ k` buckets. -/
theorem toNat_mask (k : Fin 64) : (construct (.ofNat (2 ^ k.val))).mask.toNat = 2 ^ k.val - 1 := by
  have hlt : 2 ^ k.val < 2 ^ 64 := Nat.pow_lt_pow_right (by decide) k.isLt
  have hpos : 0 < 2 ^ k.val := Nat.two_pow_pos _
  have hval : (UInt64.ofNat (2 ^ k.val)).toNat = 2 ^ k.val := UInt64.toNat_ofNat_of_lt hlt
  have hle : (1 : UInt64) ≤ .ofNat (2 ^ k.val) := by
    change 1 ≤ (UInt64.ofNat (2 ^ k.val)).toNat
    omega
  change (UInt64.ofNat (2 ^ k.val) - 1).toNat = _
  rw [UInt64.toNat_sub_of_le _ _ hle, hval]
  rfl

/-- The bucket is the low bits of a product. -/
theorem bucketOf_eq (k : Fin 64) (a : Word) :
    (construct (.ofNat (2 ^ k.val))).bucketOf a =
      a.toNat * 11400714819323198485 % 2 ^ k.val := by
  have hdvd : 2 ^ k.val ∣ 2 ^ 64 := Nat.pow_dvd_pow 2 k.isLt.le
  change (a * 11400714819323198485 &&& (construct _).mask).toNat = _
  rw [UInt64.toNat_and, toNat_mask, Nat.and_two_pow_sub_one_eq_mod, UInt64.toNat_mul]
  exact Nat.mod_mod_of_dvd _ hdvd

/-- The low bits of a sum, which wraps around. -/
theorem toNat_add_modEq (k : Fin 64) (a b : Word) :
    (a + b).toNat ≡ a.toNat + b.toNat [MOD 2 ^ k.val] := by
  rw [UInt64.toNat_add]
  exact (Nat.mod_modEq _ _).of_dvd (Nat.pow_dvd_pow 2 k.isLt.le)

theorem toNat_mul_modEq (k : Fin 64) (a b : Word) :
    (a * b).toNat ≡ a.toNat * b.toNat [MOD 2 ^ k.val] := by
  rw [UInt64.toNat_mul]
  exact (Nat.mod_modEq _ _).of_dvd (Nat.pow_dvd_pow 2 k.isLt.le)

theorem toNat_ofNat_modEq (k : Fin 64) (j : Nat) : (UInt64.ofNat j).toNat ≡ j [MOD 2 ^ k.val] := by
  rw [UInt64.toNat_ofNat']
  exact (Nat.mod_modEq _ _).of_dvd (Nat.pow_dvd_pow 2 k.isLt.le)

/-- **Two keys share a bucket iff they agree modulo the number of buckets.** -/
theorem bucketOf_same_iff (k : Fin 64) (a b : Word) :
    (construct (.ofNat (2 ^ k.val))).bucketOf a = (construct (.ofNat (2 ^ k.val))).bucketOf b ↔
      a.toNat ≡ b.toNat [MOD 2 ^ k.val] := by
  have hcoprime : Nat.gcd (2 ^ k.val) 11400714819323198485 = 1 :=
    Nat.Coprime.pow_left _ (by decide)
  rw [bucketOf_eq, bucketOf_eq]
  exact ⟨Nat.ModEq.cancel_right_of_coprime hcoprime, fun h => h.mul_right _⟩

/-- The bucket of the `j`-th key from `a` on. -/
def bucketFrom (k : Fin 64) (a : Word) (j : Fin (2 ^ k.val)) : Fin (2 ^ k.val) :=
  ⟨(construct (.ofNat (2 ^ k.val))).bucketOf (a + .ofNat j), by
    rw [bucketOf_eq]
    exact Nat.mod_lt _ (Nat.two_pow_pos _)⟩

theorem bucketFrom_val (k : Fin 64) (a : Word) (j : Fin (2 ^ k.val)) :
    (bucketFrom k a j).val = (construct (.ofNat (2 ^ k.val))).bucketOf (a + .ofNat j) :=
  rfl

theorem bucketFrom_injective (k : Fin 64) (a : Word) : Function.Injective (bucketFrom k a) := by
  intro i j h
  have hval : (bucketFrom k a i).val = (bucketFrom k a j).val := by rw [h]
  rw [bucketFrom_val, bucketFrom_val] at hval
  have hsame := (bucketOf_same_iff k _ _).mp hval
  have hsum : a.toNat + i ≡ a.toNat + j [MOD 2 ^ k.val] :=
    calc a.toNat + i
        ≡ a.toNat + (UInt64.ofNat i).toNat [MOD 2 ^ k.val] :=
          (toNat_ofNat_modEq k i).symm.add_left _
      _ ≡ (a + .ofNat i).toNat [MOD 2 ^ k.val] := (toNat_add_modEq k _ _).symm
      _ ≡ (a + .ofNat j).toNat [MOD 2 ^ k.val] := hsame
      _ ≡ a.toNat + (UInt64.ofNat j).toNat [MOD 2 ^ k.val] := toNat_add_modEq k _ _
      _ ≡ a.toNat + j [MOD 2 ^ k.val] := (toNat_ofNat_modEq k j).add_left _
  have hmod := Nat.ModEq.add_left_cancel' _ hsum
  exact Fin.ext (Nat.ModEq.eq_of_lt_of_lt hmod i.isLt j.isLt)

/-- **`bucket_for` distributes keys by residue**, for every power of two of buckets. -/
theorem construct_spreads (k : Fin 64) : Spreads (construct (.ofNat (2 ^ k.val))) (2 ^ k.val) where
  same_iff := bucketOf_same_iff k
  consecutive := by
    intro a i hi
    obtain ⟨j, hj⟩ := Finite.surjective_of_injective (bucketFrom_injective k a) ⟨i, hi⟩
    refine ⟨j, ⟨j.isLt, congrArg Fin.val hj⟩, fun j' hj' => ?_⟩
    have hsame : bucketFrom k a ⟨j', hj'.1⟩ = bucketFrom k a j :=
      (Fin.ext hj'.2).trans hj.symm
    exact congrArg Fin.val (bucketFrom_injective k a hsame)
  stride := by
    intro a s hs j
    rw [bucketOf_same_iff]
    have hzero : (j * s).toNat ≡ 0 [MOD 2 ^ k.val] :=
      (toNat_mul_modEq k j s).trans (Nat.modEq_zero_iff_dvd.mpr (hs.mul_left _))
    exact (toNat_add_modEq k a _).trans (hzero.add_left _)

/-- Eight buckets, the keys 6 to 13. -/
example : ((List.range 8).map fun j =>
    (construct 8).bucketOf (6 + .ofNat j)) = [6, 3, 0, 5, 2, 7, 4, 1] := by
  decide

end HashTable
