import Mathlib.Data.List.Basic
import Mathlib.Data.List.Pairwise
import Mathlib.Data.List.Nodup

/-!
# Sorting with a comparison that may fail

A sort whose comparison has no answer for some pairs ends with an answer only if it never
meets such a pair.  When the answers that there are make an order, this does not depend on
what is compared with what: in the result each element is known to be below the next, so any
two can be compared.
-/

namespace FallibleSort

variable {α κ : Type} (lt : κ → κ → Option Bool) (key : α → κ)

/-- Insert into a sorted list. -/
def insert (x : α) : List α → Option (List α)
  | [] => some [x]
  | y :: ys => (lt (key x) (key y)).bind fun less =>
      if less then some (x :: y :: ys) else (insert x ys).map (y :: ·)

/-- Sort by a key. -/
def sort : List α → Option (List α)
  | [] => some []
  | x :: xs => (sort xs).bind (insert lt key x)

/-- The answers that there are make a linear order. -/
structure Lawful : Prop where
  symm : ∀ {a b}, lt a b = none → lt b a = none
  flip : ∀ {a b}, lt a b = some false → a ≠ b → lt b a = some true
  trans : ∀ {a b c}, lt a b = some true → lt b c = some true → lt a c = some true

variable {lt key}

/-- **What an insertion does**, if it comes to an end. -/
theorem insert_eq_some (hlt : Lawful lt) {x : α} {l l' : List α}
    (hl : l.Pairwise fun a b => lt (key a) (key b) = some true)
    (hx : ∀ y ∈ l, key x ≠ key y) (h : insert lt key x l = some l') :
    l'.Perm (x :: l) ∧ (l'.Pairwise fun a b => lt (key a) (key b) = some true) ∧
      ∀ y ∈ l, lt (key x) (key y) ≠ none := by
  induction l generalizing l' with
  | nil =>
      cases h
      exact ⟨.refl _, List.pairwise_singleton _ _, nofun⟩
  | cons y ys ih =>
      obtain ⟨hy, hys⟩ := List.pairwise_cons.mp hl
      obtain ⟨less, hless, h⟩ := Option.bind_eq_some_iff.mp h
      cases less with
      | true =>
          cases h
          have hall : ∀ z ∈ y :: ys, lt (key x) (key z) = some true := by
            intro z hz
            rcases List.mem_cons.mp hz with rfl | hz
            · exact hless
            · exact hlt.trans hless (hy z hz)
          exact ⟨.refl _, List.pairwise_cons.mpr ⟨hall, hl⟩, fun z hz => by rw [hall z hz]; nofun⟩
      | false =>
          obtain ⟨zs, hzs, rfl⟩ := Option.map_eq_some_iff.mp h
          obtain ⟨hperm, hsorted, hcomp⟩ := ih hys (fun z hz => hx z (.tail _ hz)) hzs
          refine ⟨(hperm.cons y).trans (.swap ..), List.pairwise_cons.mpr ⟨fun z hz => ?_, hsorted⟩,
            fun z hz => ?_⟩
          · rcases List.mem_cons.mp (hperm.mem_iff.mp hz) with rfl | hz
            · exact hlt.flip hless (hx y (.head _))
            · exact hy z hz
          · rcases List.mem_cons.mp hz with rfl | hz
            · rw [hless]
              nofun
            · exact hcomp z hz

theorem insert_isSome {x : α} {l : List α} (h : ∀ y ∈ l, lt (key x) (key y) ≠ none) :
    ∃ l', insert lt key x l = some l' := by
  induction l with
  | nil => exact ⟨[x], rfl⟩
  | cons y ys ih =>
      obtain ⟨less, hless⟩ := Option.ne_none_iff_exists'.mp (h y (.head _))
      obtain ⟨zs, hzs⟩ := ih fun z hz => h z (.tail _ hz)
      rw [insert, hless, Option.bind_some, hzs]
      cases less
      · exact ⟨y :: zs, rfl⟩
      · exact ⟨x :: y :: ys, rfl⟩

/-- **What the sort does**, if it comes to an end: then any two elements can be compared. -/
theorem sort_eq_some (hlt : Lawful lt) {l l' : List α} (hnodup : (l.map key).Nodup)
    (h : sort lt key l = some l') :
    l'.Perm l ∧ (l'.Pairwise fun a b => lt (key a) (key b) = some true) ∧
      l.Pairwise fun a b => lt (key a) (key b) ≠ none := by
  induction l generalizing l' with
  | nil =>
      cases h
      exact ⟨.refl _, .nil, .nil⟩
  | cons x xs ih =>
      obtain ⟨hx, hxs⟩ := List.nodup_cons.mp hnodup
      obtain ⟨ys, hys, h⟩ := Option.bind_eq_some_iff.mp h
      obtain ⟨hperm, hsorted, hcomp⟩ := ih hxs hys
      have hkey : ∀ y ∈ ys, key x ≠ key y := fun y hy heq =>
        hx (heq ▸ List.mem_map_of_mem (hperm.mem_iff.mp hy))
      obtain ⟨hperm', hsorted', hcomp'⟩ := insert_eq_some hlt hsorted hkey h
      exact ⟨hperm'.trans (hperm.cons x), hsorted', List.pairwise_cons.mpr
        ⟨fun y hy => hcomp' y (hperm.mem_iff.mpr hy), hcomp⟩⟩

/-- The sort comes to an end if any two elements can be compared. -/
theorem sort_isSome (hlt : Lawful lt) {l : List α} (hnodup : (l.map key).Nodup)
    (h : l.Pairwise fun a b => lt (key a) (key b) ≠ none) : ∃ l', sort lt key l = some l' := by
  induction l with
  | nil => exact ⟨[], rfl⟩
  | cons x xs ih =>
      obtain ⟨hx, hxs⟩ := List.pairwise_cons.mp h
      obtain ⟨ys, hys⟩ := ih (List.nodup_cons.mp hnodup).2 hxs
      obtain ⟨hperm, -⟩ := sort_eq_some hlt (List.nodup_cons.mp hnodup).2 hys
      obtain ⟨zs, hzs⟩ := insert_isSome (x := x) fun y hy => hx y (hperm.mem_iff.mp hy)
      exact ⟨zs, by rw [sort, hys, Option.bind_some, hzs]⟩

end FallibleSort
