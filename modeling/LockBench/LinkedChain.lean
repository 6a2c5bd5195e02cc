import Mathlib

/-!
# Singly linked chains

`Linked next p l`: following `next` from the pointer `p` visits the nodes of `l` and
ends.  A pointer has at most one such list, so a chain that ends meets no node twice.
What a chain depends on are the `next` pointers of its own nodes.
-/

namespace LinkedChain

variable {A : Type}

/-- The nodes behind a pointer. -/
def Linked (next : A → Option A) : Option A → List A → Prop
  | p, [] => p = none
  | p, a :: l => p = some a ∧ Linked next (next a) l

variable {next next' : A → Option A}

theorem Linked.congr {p : Option A} {l : List A} (h : Linked next p l)
    (hnext : ∀ a ∈ l, next' a = next a) : Linked next' p l := by
  induction l generalizing p with
  | nil => exact h
  | cons a l ih =>
      refine ⟨h.1, ?_⟩
      rw [hnext a (.head _)]
      exact ih h.2 fun b hb => hnext b (.tail _ hb)

theorem Linked.unique {p : Option A} {l l' : List A} (h : Linked next p l)
    (h' : Linked next p l') : l = l' := by
  induction l generalizing p l' with
  | nil =>
      cases l' with
      | nil => rfl
      | cons a l' => cases h.symm.trans h'.1
  | cons a l ih =>
      cases l' with
      | nil => cases h'.symm.trans h.1
      | cons b l' =>
          obtain rfl := Option.some.inj (h.1.symm.trans h'.1)
          rw [ih h.2 h'.2]

/-- The rest of a chain is the chain of its pointer. -/
theorem Linked.drop {p : Option A} {l₁ l₂ : List A} {a : A} (h : Linked next p (l₁ ++ a :: l₂)) :
    Linked next (next a) l₂ := by
  induction l₁ generalizing p with
  | nil => exact h.2
  | cons b l₁ ih => exact ih h.2

/-- **A chain that ends has no cycle.** -/
theorem Linked.nodup {p : Option A} {l : List A} (h : Linked next p l) : l.Nodup := by
  induction l generalizing p with
  | nil => exact .nil
  | cons a l ih =>
      refine List.nodup_cons.mpr ⟨fun ha => ?_, ih h.2⟩
      obtain ⟨l₁, l₂, rfl⟩ := List.append_of_mem ha
      have hlen := congrArg List.length (h.2.unique h.2.drop)
      simp only [List.length_append, List.length_cons] at hlen
      omega

theorem Linked.head_mem {l : List A} {a : A} (h : Linked next (some a) l) : a ∈ l := by
  cases l with
  | nil => cases h
  | cons b l =>
      obtain rfl := Option.some.inj h.1
      exact .head _

/-- A chain is closed under `next`. -/
theorem Linked.next_mem {p : Option A} {l : List A} (h : Linked next p l) {a d : A} (ha : a ∈ l)
    (hd : next a = some d) : d ∈ l := by
  obtain ⟨l₁, l₂, rfl⟩ := List.append_of_mem ha
  have hrest : Linked next (some d) l₂ := hd ▸ h.drop
  exact List.mem_append_right l₁ (.tail _ hrest.head_mem)

/-- No node of a chain points to itself. -/
theorem Linked.next_ne {p : Option A} {l : List A} (h : Linked next p l) {a d : A} (ha : a ∈ l)
    (hd : next a = some d) : d ≠ a := by
  obtain ⟨l₁, l₂, rfl⟩ := List.append_of_mem ha
  have hrest : Linked next (some d) l₂ := hd ▸ h.drop
  have hnodup : (a :: l₂).Nodup := (List.nodup_append.mp h.nodup).2.1
  rintro rfl
  exact (List.nodup_cons.mp hnodup).1 hrest.head_mem

/-- Unlinking the node `v` behind `q`. -/
theorem Linked.unlink [DecidableEq A] {p : Option A} {l : List A} (h : Linked next p l) {q v : A}
    (hq : q ∈ l) (hv : next q = some v) (hnew : next' q = next v)
    (hother : ∀ a ∈ l, a ≠ q → next' a = next a) : Linked next' p (l.erase v) := by
  induction l generalizing p with
  | nil => cases hq
  | cons a l ih =>
      obtain ⟨rfl, hrest⟩ := h
      have hne : ∀ b ∈ l, b ≠ a := by
        rintro b hb rfl
        exact (List.nodup_cons.mp (Linked.nodup (p := some b) ⟨rfl, hrest⟩)).1 hb
      by_cases haq : a = q
      · subst haq
        cases l with
        | nil => cases hv.symm.trans hrest
        | cons b l =>
            obtain rfl := Option.some.inj (hv.symm.trans hrest.1)
            rw [List.erase_cons_tail (by simpa using (hne v (.head _)).symm), List.erase_cons_head]
            refine ⟨rfl, ?_⟩
            rw [hnew]
            exact hrest.2.congr fun c hc => hother c (.tail _ (.tail _ hc)) (hne c (.tail _ hc))
      · have hq : q ∈ l := (List.mem_cons.mp hq).resolve_left (Ne.symm haq)
        rw [List.erase_cons_tail (by simpa using (hne v (hrest.next_mem hq hv)).symm)]
        refine ⟨rfl, ?_⟩
        rw [hother a (.head _) haq]
        exact ih hrest hq fun c hc => hother c (.tail _ hc)

end LinkedChain
