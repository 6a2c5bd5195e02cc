import LockBench.Interleave

/-!
# The version word of an optimistic lock

`occ_lock` keeps one 64-bit version: even means free, odd means that a writer is
inside, and both ends of a write section bump it.  The models keep the number of
bumps and let every load see its low 64 bits, so that a wrap-around is visible in
the program and the number of write sections between two loads can be spoken of.
A model that does not count keeps the word itself.
-/

namespace OccLock

/-- What a load of `version` returns after so many bumps. -/
def word (bumps : Nat) : Nat := bumps % 2 ^ 64

/-- `v & 1`: a writer is inside. -/
def odd (bumps : Nat) : Bool := word bumps % 2 == 1

/-- The parity of the word is that of the bumps. -/
theorem odd_iff (bumps : Nat) : odd bumps = true ↔ bumps % 2 = 1 := by
  rw [odd, word, beq_iff_eq]
  omega

/-- No writer is inside. -/
theorem odd_eq_false_iff (bumps : Nat) : odd bumps = false ↔ bumps % 2 = 0 := by
  rw [← Bool.not_eq_true, odd_iff]
  omega

/-- **Validation.**  Equal words with fewer than `2^64` bumps in between (that is,
fewer than `2^63` write sections) mean that there was no bump at all. -/
theorem bumps_eq_of_word {start now : Nat} (hle : start ≤ now) (hlt : now < start + 2 ^ 64)
    (hword : word now = word start) : now = start := by
  simp only [word] at hword
  omega

/-! ## The word itself -/

/-- `v & 1`. -/
def oddWord (v : BitVec 64) : Bool := v &&& 1#64 == 1#64

/-- The bit is the parity of the number. -/
theorem oddWord_iff (v : BitVec 64) : oddWord v = true ↔ v.toNat % 2 = 1 := by
  rw [oddWord, beq_iff_eq, BitVec.toNat_eq, BitVec.toNat_and]
  simp [Nat.and_one_is_mod]

/-- One bump changes it. -/
theorem oddWord_succ (v : BitVec 64) : oddWord (v + 1) = !oddWord v := by
  rw [Bool.eq_iff_iff, Bool.not_eq_true', ← Bool.not_eq_true, oddWord_iff, oddWord_iff,
    BitVec.toNat_add]
  change (v.toNat + 1) % 2 ^ 64 % 2 = 1 ↔ ¬ v.toNat % 2 = 1
  omega

end OccLock
