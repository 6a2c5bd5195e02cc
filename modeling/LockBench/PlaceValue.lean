import Mathlib

/-!
# Place value and lexicographic order

Strings of digits read with the most significant digit first; `Nat.ofDigits` reads them with the
least significant first.  For strings of one length the lexicographic order is the order of the
numbers they stand for.
-/

namespace PlaceValue

variable {α : Type} (digit : α → Nat) (base : Nat)

/-- The number that a string of digits stands for. -/
def value (l : List α) : Nat :=
  Nat.ofDigits base (l.reverse.map digit)

/-- The first digit counts most. -/
theorem value_cons (x : α) (l : List α) :
    value digit base (x :: l) = digit x * base ^ l.length + value digit base l := by
  rw [value, List.reverse_cons, List.map_append, Nat.ofDigits_append, List.length_map,
    List.length_reverse, List.map_singleton, Nat.ofDigits_singleton, Nat.add_comm, Nat.mul_comm]
  rfl

variable {digit base}

/-- The value is below the power of the base. -/
theorem value_lt (hone : 1 < base) (hbase : ∀ x, digit x < base) (l : List α) :
    value digit base l < base ^ l.length := by
  have hdigits : ∀ d ∈ l.reverse.map digit, d < base := by
    intro d hd
    obtain ⟨x, -, rfl⟩ := List.mem_map.mp hd
    exact hbase x
  have hlt := Nat.ofDigits_lt_base_pow_length hone hdigits
  rwa [List.length_map, List.length_reverse] at hlt

/-- **Lexicographic order is the order of the values**, for strings of one length. -/
theorem lt_iff_value_lt [LT α] (hone : 1 < base) (hbase : ∀ x, digit x < base)
    (hdigit : ∀ x y, x < y ↔ digit x < digit y) (hinj : Function.Injective digit) :
    ∀ {l m : List α}, l.length = m.length → (l < m ↔ value digit base l < value digit base m)
  | [], [], _ => by simp [value]
  | x :: l, y :: m, hlen => by
      have hlen : l.length = m.length := Nat.succ.inj hlen
      have hl := value_lt hone hbase l
      have hm := value_lt hone hbase m
      rw [List.cons_lt_cons_iff, lt_iff_value_lt hone hbase hdigit hinj hlen, value_cons, value_cons,
        hdigit]
      rw [hlen] at hl ⊢
      rcases Nat.lt_trichotomy (digit x) (digit y) with hxy | hxy | hxy
      · have hle : (digit x + 1) * base ^ m.length ≤ digit y * base ^ m.length :=
          Nat.mul_le_mul_right _ hxy
        rw [Nat.succ_mul] at hle
        exact ⟨fun _ => by omega, fun _ => .inl hxy⟩
      · have hx : x = y := hinj hxy
        subst hx
        exact ⟨fun h => by rcases h with h | ⟨-, h⟩ <;> omega, fun h => .inr ⟨rfl, by omega⟩⟩
      · have hle : (digit y + 1) * base ^ m.length ≤ digit x * base ^ m.length :=
          Nat.mul_le_mul_right _ hxy
        rw [Nat.succ_mul] at hle
        refine ⟨fun h => ?_, fun h => by omega⟩
        rcases h with h | ⟨rfl, -⟩ <;> omega

end PlaceValue
