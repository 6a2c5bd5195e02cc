import Mathlib

/-!
# Numbers from text

`std::stoi` and `std::stoull`: white space, a sign, and the longest run of digits; what
follows is not looked at.  Without a digit, or when the number does not fit, they throw.
`std::stoull` takes a minus sign too and negates modulo `2 ^ 64`.
-/

namespace NumberText

/-- `std::isspace`. -/
def isSpace (c : Char) : Bool :=
  c ∈ [' ', '\t', '\n', '\x0b', '\x0c', '\r']

/-- An optional sign: whether it is a minus, and the rest. -/
def readSign : List Char → Bool × List Char
  | '-' :: s => (true, s)
  | '+' :: s => (false, s)
  | s => (false, s)

/-- The sign and the digits behind leading white space; nothing without a digit. -/
def readInteger (s : List Char) : Option (Bool × Nat) :=
  let (neg, rest) := readSign (s.dropWhile isSpace)
  let digits := rest.takeWhile Char.isDigit
  if digits = [] then none else some (neg, Nat.ofDigitChars 10 digits 0)

/-- `std::stoi`; `none` where it throws. -/
def stoi (s : List Char) : Option Int :=
  (readInteger s).bind fun (neg, n) =>
    let i : Int := if neg then -n else n
    if -2 ^ 31 ≤ i ∧ i < 2 ^ 31 then some i else none

/-- `std::stoull`; `none` where it throws. -/
def stoull (s : List Char) : Option UInt64 :=
  (readInteger s).bind fun (neg, n) =>
    if n < 2 ^ 64 then some (if neg then -.ofNat n else .ofNat n) else none

/-! ## Decimal digits -/

theorem isDigit_of_mem {n : Nat} {c : Char} (h : c ∈ Nat.toDigits 10 n) : c.isDigit :=
  Nat.isDigit_of_mem_toDigits (by decide) (by decide) h

/-- A character that is not a digit does not stand in a number. -/
theorem not_mem_toDigits {c : Char} (hc : c.isDigit = false) (n : Nat) : c ∉ Nat.toDigits 10 n := by
  intro h
  rw [isDigit_of_mem h] at hc
  cases hc

/-- A digit is no white space and no sign. -/
theorem isDigit_ne {c : Char} (h : c.isDigit) : isSpace c = false ∧ c ≠ '-' ∧ c ≠ '+' := by
  have hne : ∀ d : Char, d.isDigit = false → c ≠ d := by
    rintro d hd rfl
    rw [hd] at h
    cases h
  refine ⟨?_, hne _ (by decide), hne _ (by decide)⟩
  rw [isSpace, decide_eq_false_iff_not]
  simp only [List.mem_cons, List.not_mem_nil, or_false, not_or]
  exact ⟨hne _ (by decide), hne _ (by decide), hne _ (by decide), hne _ (by decide),
    hne _ (by decide), hne _ (by decide)⟩

/-- Digits are read back. -/
theorem readInteger_toDigits (n : Nat) : readInteger (Nat.toDigits 10 n) = some (false, n) := by
  have hall : ∀ c ∈ Nat.toDigits 10 n, c.isDigit := fun c hc => isDigit_of_mem hc
  have hne : Nat.toDigits 10 n ≠ [] := Nat.toDigits_ne_nil
  have hvalue : Nat.ofDigitChars 10 (Nat.toDigits 10 n) 0 = n :=
    Nat.ofDigitChars_toDigits (by decide) (by decide)
  have hread : readSign ((Nat.toDigits 10 n).dropWhile isSpace) = (false, Nat.toDigits 10 n) := by
    cases hd : Nat.toDigits 10 n with
    | nil => exact absurd hd hne
    | cons c s =>
        obtain ⟨hspace, hminus, hplus⟩ := isDigit_ne (hall c (hd ▸ List.mem_cons_self ..))
        rw [List.dropWhile_cons_of_neg (by rw [hspace]; decide)]
        simp [readSign, hminus, hplus]
  have hdigits : (Nat.toDigits 10 n).takeWhile Char.isDigit = Nat.toDigits 10 n :=
    List.takeWhile_eq_self_iff.mpr hall
  simp only [readInteger, hread, hdigits, if_neg hne, hvalue]

/-- **`std::stoi` reads a decimal number that fits.** -/
theorem stoi_toDigits {n : Nat} (h : n < 2 ^ 31) : stoi (Nat.toDigits 10 n) = some (n : Int) := by
  have hfits : -2 ^ 31 ≤ (n : Int) ∧ (n : Int) < 2 ^ 31 := by omega
  rw [stoi, readInteger_toDigits, Option.bind_some]
  exact if_pos hfits

end NumberText
