import Mathlib

/-!
# Rounding up to a power of two

`round_up_pow2` of `op_stream.hpp` and `lb_round_up_pow2` of `bench/main.cpp` double a
64-bit number until it reaches the argument.  The doubling is modulo `2 ^ 64`: past
`2 ^ 63` it gives zero, which stays zero and is below every argument that is left.
-/

namespace RoundUp

/-- `while (p < n) p <<= 1;`, a round for each unit of fuel. -/
def shiftLoop (n : UInt64) : Nat → UInt64 → Option UInt64
  | 0, _ => none
  | fuel + 1, p => if p < n then shiftLoop n fuel (p <<< 1) else some p

/-- `if (n < 64) n = 64;` -/
def atLeast64 (n : UInt64) : UInt64 :=
  if n < 64 then 64 else n

/-- `round_up_pow2`, within so many tests of the loop. -/
def roundUpPow2 (fuel : Nat) (n : UInt64) : Option UInt64 :=
  shiftLoop (atLeast64 n) fuel 1

/-- `lb_round_up_pow2`, within so many tests of the loop. -/
def lbRoundUpPow2 (fuel : Nat) (n : UInt64) : Option UInt64 :=
  shiftLoop (atLeast64 n) fuel 1

/-- The function returns the least power of two that is at least `max n 64`. -/
def RoundsUp (f : Nat → UInt64 → Option UInt64) (n : UInt64) : Prop :=
  ∃ fuel p, f fuel n = some p ∧
    IsLeast {q : Nat | (∃ k, q = 2 ^ k) ∧ max n.toNat 64 ≤ q} p.toNat

theorem toNat_atLeast64 (n : UInt64) : (atLeast64 n).toNat = max n.toNat 64 := by
  unfold atLeast64
  split
  next h =>
    have h : n.toNat < 64 := h
    rw [max_eq_right h.le]
    rfl
  next h =>
    have h : ¬n.toNat < 64 := h
    rw [max_eq_left (Nat.le_of_not_lt h)]

/-- Doubling below the top bit. -/
theorem toNat_shift {p : UInt64} {i : Nat} (hi : i < 63) (hp : p.toNat = 2 ^ i) :
    (p <<< 1).toNat = 2 ^ (i + 1) := by
  have hlt : 2 ^ (i + 1) < 2 ^ 64 := Nat.pow_lt_pow_right (by decide) (by omega)
  rw [UInt64.toNat_shiftLeft, hp]
  change 2 ^ i <<< 1 % 2 ^ 64 = _
  rw [Nat.shiftLeft_eq, ← Nat.pow_add, Nat.mod_eq_of_lt hlt]

/-- Doubling the top bit, or zero, gives zero. -/
theorem toNat_shift_top {p : UInt64} (hp : p.toNat = 2 ^ 63 ∨ p.toNat = 0) :
    (p <<< 1).toNat = 0 := by
  rw [UInt64.toNat_shiftLeft]
  rcases hp with hp | hp <;> rw [hp] <;> rfl

/-- The values of `p` in the loop. -/
theorem shift_pow {p : UInt64} (hp : (∃ i ≤ 63, p.toNat = 2 ^ i) ∨ p.toNat = 0) :
    (∃ i ≤ 63, (p <<< 1).toNat = 2 ^ i) ∨ (p <<< 1).toNat = 0 := by
  rcases hp with ⟨i, hi, hp⟩ | hp
  · rcases Nat.lt_or_eq_of_le hi with hi | rfl
    · exact .inl ⟨i + 1, hi, toNat_shift hi hp⟩
    · exact .inr (toNat_shift_top (.inl hp))
  · exact .inr (toNat_shift_top (.inr hp))

/-- **The loop stops at the first power of two that is not below `n`.** -/
theorem shiftLoop_returns {n : UInt64} (d : Nat) :
    ∀ {i : Nat} {p : UInt64}, i + d ≤ 63 → n.toNat ≤ 2 ^ (i + d) →
      (∀ j < i + d, 2 ^ j < n.toNat) → p.toNat = 2 ^ i →
      ∃ r, shiftLoop n (d + 1) p = some r ∧ r.toNat = 2 ^ (i + d) := by
  induction d with
  | zero =>
      intro i p _ hn _ hp
      have hstop : ¬p < n := fun h => Nat.not_lt_of_le hn (hp ▸ show p.toNat < n.toNat from h)
      exact ⟨p, if_neg hstop, hp⟩
  | succ d ih =>
      intro i p he hn hlow hp
      have hgo : p < n := show p.toNat < n.toNat from hp ▸ hlow i (by omega)
      have harith : i + (d + 1) = i + 1 + d := by omega
      rw [harith] at he hn hlow ⊢
      obtain ⟨r, hr, hval⟩ := ih he hn hlow (toNat_shift (by omega) hp)
      exact ⟨r, (if_pos hgo).trans hr, hval⟩

/-- **Above `2 ^ 63` the loop does not stop.** -/
theorem shiftLoop_diverges {n : UInt64} (hn : 2 ^ 63 < n.toNat) (fuel : Nat) :
    ∀ {p : UInt64}, (∃ i ≤ 63, p.toNat = 2 ^ i) ∨ p.toNat = 0 → shiftLoop n fuel p = none := by
  induction fuel with
  | zero => exact fun _ => rfl
  | succ fuel ih =>
      intro p hp
      have hgo : p < n := by
        change p.toNat < n.toNat
        rcases hp with ⟨i, hi, hp⟩ | hp
        · have : 2 ^ i ≤ 2 ^ 63 := Nat.pow_le_pow_right (by decide) hi
          omega
        · omega
      exact (if_pos hgo).trans (ih (shift_pow hp))

/-- Both functions are this one. -/
theorem shiftLoop_roundsUp (n : UInt64) :
    RoundsUp (fun fuel n => shiftLoop (atLeast64 n) fuel 1) n ↔ n.toNat ≤ 2 ^ 63 := by
  constructor
  · rintro ⟨fuel, p, hp, -⟩
    by_contra hn
    have htop : 2 ^ 63 < (atLeast64 n).toNat := by
      rw [toNat_atLeast64]
      exact Nat.lt_of_lt_of_le (Nat.lt_of_not_le hn) (Nat.le_max_left ..)
    have hnone := shiftLoop_diverges htop fuel (p := 1) (.inl ⟨0, by omega, rfl⟩)
    cases hnone.symm.trans hp
  · intro hn
    have hmax : max n.toNat 64 ≤ 2 ^ 63 := max_le hn (by decide)
    have hlog : Nat.clog 2 (max n.toNat 64) ≤ 63 := Nat.clog_le_of_le_pow hmax
    have hle : max n.toNat 64 ≤ 2 ^ Nat.clog 2 (max n.toNat 64) := Nat.le_pow_clog (by decide) _
    have hlow : ∀ j < Nat.clog 2 (max n.toNat 64), 2 ^ j < max n.toNat 64 := fun j hj =>
      Nat.lt_of_not_le fun h => absurd (Nat.clog_le_of_le_pow h) (Nat.not_le_of_lt hj)
    rw [← toNat_atLeast64] at hlog hle hlow
    obtain ⟨p, hp, hval⟩ := shiftLoop_returns (Nat.clog 2 (atLeast64 n).toNat) (i := 0) (p := 1)
      (by omega) (by rw [Nat.zero_add]; exact hle) (by rw [Nat.zero_add]; exact hlow) rfl
    rw [Nat.zero_add] at hval
    rw [toNat_atLeast64] at hle hval
    refine ⟨_, p, hp, ⟨⟨_, hval⟩, hval ▸ hle⟩, ?_⟩
    rintro q ⟨⟨k, rfl⟩, hk⟩
    rw [hval]
    exact Nat.pow_le_pow_right (by decide) (Nat.clog_le_of_le_pow hk)

/-- **The functions round up, for arguments up to `2 ^ 63` and for no others.** -/
theorem roundUpPow2_iff (n : UInt64) :
    (RoundsUp roundUpPow2 n ∧ RoundsUp lbRoundUpPow2 n) ↔ n.toNat ≤ 2 ^ 63 := by
  have h := shiftLoop_roundsUp n
  exact ⟨fun hr => h.mp hr.1, fun hn => ⟨h.mpr hn, h.mpr hn⟩⟩

/-- With `--stream_len -1` the loop goes on for ever. -/
theorem roundUpPow2_stuck :
    ¬∀ n : UInt64, RoundsUp roundUpPow2 n ∧ RoundsUp lbRoundUpPow2 n := by
  intro h
  have hle := (shiftLoop_roundsUp 18446744073709551615).mp (h 18446744073709551615).1
  exact absurd hle (by decide)

/-! ## Lengths of streams -/

/-- **What the loop returns is a power of two that is not below `n`**, or zero. -/
theorem shiftLoop_eq_some {n r : UInt64} (fuel : Nat) :
    ∀ {p : UInt64}, (∃ i ≤ 63, p.toNat = 2 ^ i) ∨ p.toNat = 0 → shiftLoop n fuel p = some r →
      ((∃ i ≤ 63, r.toNat = 2 ^ i) ∨ r.toNat = 0) ∧ n.toNat ≤ r.toNat := by
  induction fuel with
  | zero => exact fun _ h => nomatch h
  | succ fuel ih =>
      intro p hp h
      rw [shiftLoop] at h
      split at h
      · exact ih (shift_pow hp) h
      next hstop =>
        cases h
        exact ⟨hp, Nat.le_of_not_lt hstop⟩

/-- A length that the functions return. -/
structure PowLen (len : UInt64) (m : Nat) : Prop where
  low : 6 ≤ m
  high : m < 64
  eq : len.toNat = 2 ^ m

namespace PowLen

variable {len : UInt64} {m : Nat}

theorem pos (h : PowLen len m) : 0 < len.toNat := by
  rw [h.eq]
  exact Nat.two_pow_pos m

theorem toNat_sub_one (h : PowLen len m) : (len - 1).toNat = 2 ^ m - 1 := by
  have hle : (1 : UInt64) ≤ len := show 1 ≤ len.toNat from h.pos
  rw [UInt64.toNat_sub_of_le _ _ hle, h.eq]
  rfl

/-- The mask is a remainder. -/
theorem toNat_and (h : PowLen len m) (i : UInt64) : (i &&& (len - 1)).toNat = i.toNat % len.toNat := by
  rw [UInt64.toNat_and, h.toNat_sub_one, Nat.and_two_pow_sub_one_eq_mod, h.eq]

end PowLen

/-- What `round_up_pow2` returns is such a length. -/
theorem powLen_of_roundUpPow2 {fuel : Nat} {n p : UInt64} (h : roundUpPow2 fuel n = some p) :
    ∃ m, PowLen p m := by
  obtain ⟨hp, hle⟩ := shiftLoop_eq_some fuel (.inl ⟨0, by omega, rfl⟩) h
  have h64 : 2 ^ 6 ≤ p.toNat := by
    rw [toNat_atLeast64] at hle
    exact (Nat.le_max_right ..).trans hle
  rcases hp with ⟨i, hi, hp⟩ | hp
  · refine ⟨i, ?_, by omega, hp⟩
    rw [hp] at h64
    exact (Nat.pow_le_pow_iff_right (by decide)).mp h64
  · omega

end RoundUp
