import Mathlib

/-!
# Cells between separators

A row of parts with separators between them cuts an interval into cells, one for
each part.  `Cells S hi lo c ps` says that `S` holds of every part with the bounds
of its cell; `c` is the first part and `ps` lists each later part behind its
separator.  A search for a key goes to the cell that the key lies in, and
`Cells.focus` opens the row there: the part found may be changed, or replaced by two
parts with a new separator, while the others stay as they are.
-/

variable {K P : Type} [LinearOrder K]

/-- The key lies in the interval from `lo` on and before `hi`. -/
def InRange (lo : WithBot K) (hi : WithTop K) (k : K) : Prop :=
  lo ≤ k ∧ (k : WithTop K) < hi

theorem InRange.mono {lo lo' : WithBot K} {hi hi' : WithTop K} {k : K} (h : InRange lo hi k)
    (hlo : lo' ≤ lo) (hhi : hi ≤ hi') : InRange lo' hi' k :=
  ⟨hlo.trans h.1, h.2.trans_le hhi⟩

theorem inRange_univ (k : K) : InRange ⊥ ⊤ k :=
  ⟨bot_le, WithTop.coe_lt_top k⟩

/-- Every part satisfies `S` with the bounds of its cell. -/
def Cells (S : WithBot K → WithTop K → P → Prop) (hi : WithTop K) :
    WithBot K → P → List (K × P) → Prop
  | lo, c, [] => S lo hi c
  | lo, c, (k, d) :: ps => S lo k c ∧ Cells S hi k d ps

namespace Cells

variable {S S' : WithBot K → WithTop K → P → Prop} {lo : WithBot K} {hi : WithTop K} {c d : P}
  {k : K} {ps qs : List (K × P)}

omit [LinearOrder K] in
/-- A row is cut at any of its separators. -/
theorem append_iff :
    Cells S hi lo c (ps ++ (k, d) :: qs) ↔ Cells S k lo c ps ∧ Cells S hi k d qs := by
  induction ps generalizing lo c with
  | nil => exact Iff.rfl
  | cons p ps ih =>
      simp only [List.cons_append, Cells, ih, and_assoc]

omit [LinearOrder K] in
theorem mono (hS : ∀ q ∈ c :: ps.map Prod.snd, ∀ lo hi, S lo hi q → S' lo hi q)
    (h : Cells S hi lo c ps) : Cells S' hi lo c ps := by
  induction ps generalizing lo c with
  | nil => exact hS c (.head _) _ _ h
  | cons p ps ih =>
      exact ⟨hS c (.head _) _ _ h.1, ih (fun q hq => hS q (.tail _ hq)) h.2⟩

/-- Every part has a cell within the bounds of the row. -/
theorem exists_cell (h : Cells S hi lo c ps) (hsorted : (ps.map Prod.fst).Pairwise (· < ·))
    (hin : ∀ p ∈ ps, InRange lo hi p.1) {q : P} (hq : q ∈ c :: ps.map Prod.snd) :
    ∃ lo₁ hi₁, S lo₁ hi₁ q ∧ lo ≤ lo₁ ∧ hi₁ ≤ hi := by
  induction ps generalizing lo c with
  | nil =>
      obtain rfl : q = c := by simpa using hq
      exact ⟨lo, hi, h, le_rfl, le_rfl⟩
  | cons p ps ih =>
      simp only [List.map_cons, List.pairwise_cons] at hsorted
      have hp := hin p (.head _)
      rcases List.mem_cons.mp hq with rfl | hq
      · exact ⟨lo, p.1, h.1, le_rfl, hp.2.le⟩
      · obtain ⟨lo₁, hi₁, hS, hlo, hhi⟩ := ih h.2 hsorted.2 (fun r hr => ⟨WithBot.coe_le_coe.mpr
          (hsorted.1 r.1 (List.mem_map_of_mem hr)).le, (hin r (.tail _ hr)).2⟩) hq
        exact ⟨lo₁, hi₁, hS, hp.1.trans hlo, hhi⟩

omit [LinearOrder K] in
/-- The bounds of a cell are the separators around it. -/
theorem getElem_cell (h : Cells S hi lo c ps) {i : Nat} (hi' : (c :: ps.map Prod.snd)[i]? = some d) :
    ∃ lo₁ hi₁, S lo₁ hi₁ d ∧ (i = 0 → lo₁ = lo) ∧
      (∀ a, 0 < i → (ps.map Prod.fst)[i - 1]? = some a → lo₁ = a) ∧
      ∀ b, (ps.map Prod.fst)[i]? = some b → hi₁ = b := by
  induction ps generalizing lo c i with
  | nil =>
      cases i with
      | zero =>
          obtain rfl : c = d := by simpa using hi'
          exact ⟨lo, hi, h, fun _ => rfl, fun a hpos => absurd hpos (lt_irrefl _), by simp⟩
      | succ i => simp at hi'
  | cons p ps ih =>
      cases i with
      | zero =>
          obtain rfl : c = d := by simpa using hi'
          refine ⟨lo, p.1, h.1, fun _ => rfl, fun a hpos => absurd hpos (lt_irrefl _), fun b hb => ?_⟩
          rw [Option.some.inj (hb.symm.trans rfl : some b = some p.1)]
      | succ i =>
          obtain ⟨lo₁, hi₁, hS, hfirst, hlo, hhi⟩ := ih h.2 (i := i) hi'
          refine ⟨lo₁, hi₁, hS, nofun, fun a _ ha => ?_, fun b hb => hhi b hb⟩
          cases i with
          | zero =>
              rw [hfirst rfl]
              exact congrArg _ (Option.some.inj ha)
          | succ i => exact hlo a (Nat.succ_pos i) ha

/-- Lists of keys in their cells are in order one behind the other. -/
theorem flatMap_sorted {f : P → List K}
    (hf : ∀ q lo hi, S lo hi q → (f q).Pairwise (· < ·) ∧ ∀ k ∈ f q, InRange lo hi k)
    (h : Cells S hi lo c ps) (hsorted : (ps.map Prod.fst).Pairwise (· < ·))
    (hin : ∀ p ∈ ps, InRange lo hi p.1) :
    ((c :: ps.map Prod.snd).flatMap f).Pairwise (· < ·) := by
  induction ps generalizing lo c with
  | nil => simpa using (hf c lo hi h).1
  | cons p ps ih =>
      simp only [List.map_cons, List.pairwise_cons] at hsorted
      have hin' : ∀ r ∈ ps, InRange (p.1 : WithBot K) hi r.1 := fun r hr =>
        ⟨WithBot.coe_le_coe.mpr (hsorted.1 r.1 (List.mem_map_of_mem hr)).le, (hin r (.tail _ hr)).2⟩
      rw [List.flatMap_cons, List.pairwise_append]
      refine ⟨(hf c lo p.1 h.1).1, ih h.2 hsorted.2 hin', fun a ha b hb => ?_⟩
      have hap := ((hf c lo p.1 h.1).2 a ha).2
      obtain ⟨q, hq, hb⟩ := List.mem_flatMap.mp hb
      obtain ⟨lo₁, hi₁, hS, hlo, -⟩ := h.2.exists_cell hsorted.2 hin' hq
      have hpb := hlo.trans ((hf q lo₁ hi₁ hS).2 b hb).1
      exact (WithTop.coe_lt_coe.mp hap).trans_le (WithBot.coe_le_coe.mp hpb)

/-- The row opened at the part that a search finds. -/
structure Focus (S : WithBot K → WithTop K → P → Prop) (lo : WithBot K) (hi : WithTop K) (c : P)
    (as bs : List (K × P)) (key : K) (lo' : WithBot K) (hi' : WithTop K) (d : P)
    (xs ys : List P) : Prop where
  parts : c :: (as ++ bs).map Prod.snd = xs ++ d :: ys
  length : xs.length = as.length
  part : S lo' hi' d
  inRange : InRange lo' hi' key
  others : ∀ q ∈ xs ++ ys, ∃ lo₁ hi₁, S lo₁ hi₁ q ∧ ¬InRange lo₁ hi₁ key
  above : ∀ a ∈ as, (a.1 : WithBot K) ≤ lo'
  below : ∀ b ∈ bs, hi' ≤ (b.1 : WithTop K)
  lo_le : lo ≤ lo'
  le_hi : hi' ≤ hi
  keep : ∀ S' : WithBot K → WithTop K → P → Prop,
    (∀ q ∈ xs ++ ys, ∀ lo hi, S lo hi q → S' lo hi q) → S' lo' hi' d → Cells S' hi lo c (as ++ bs)
  cut : ∀ (S' : WithBot K → WithTop K → P → Prop) (sep : K) (r : P),
    (∀ q ∈ xs ++ ys, ∀ lo hi, S lo hi q → S' lo hi q) → S' lo' sep d → S' sep hi' r →
      Cells S' hi lo c (as ++ (sep, r) :: bs)

/-- The first part of a row whose separators are all behind the key. -/
theorem focus_first {bs : List (K × P)} {key : K} (h : Cells S hi lo c bs)
    (hsorted : (bs.map Prod.fst).Pairwise (· < ·)) (hkey : InRange lo hi key)
    (hbs : ∀ b ∈ bs, key < b.1) (hin : ∀ b ∈ bs, InRange lo hi b.1) :
    ∃ hi' ys, Focus S lo hi c [] bs key lo hi' c [] ys := by
  cases bs with
  | nil =>
      refine ⟨hi, [], rfl, rfl, h, hkey, nofun, nofun, nofun, le_rfl, le_rfl, ?_, ?_⟩
      · exact fun S' _ hd => hd
      · exact fun S' sep r _ hd hr => ⟨hd, hr⟩
  | cons b bs =>
      obtain ⟨k, d⟩ := b
      have hk : key < k := hbs _ (.head _)
      simp only [List.map_cons, List.pairwise_cons] at hsorted
      refine ⟨k, d :: bs.map Prod.snd, rfl, rfl, h.1, ⟨hkey.1, ?_⟩, ?_, nofun, ?_, le_rfl, ?_, ?_, ?_⟩
      · exact WithTop.coe_lt_coe.mpr hk
      · intro q hq
        obtain ⟨lo₁, hi₁, hS, hlo, -⟩ := h.2.exists_cell hsorted.2 (fun r hr =>
          ⟨WithBot.coe_le_coe.mpr (hsorted.1 r.1 (List.mem_map_of_mem hr)).le,
            (hin r (.tail _ hr)).2⟩) hq
        exact ⟨lo₁, hi₁, hS, fun hr => hk.not_ge (WithBot.coe_le_coe.mp (hlo.trans hr.1))⟩
      · intro b hb
        rcases List.mem_cons.mp hb with rfl | hb
        · exact le_rfl
        · exact WithTop.coe_le_coe.mpr (hsorted.1 b.1 (List.mem_map_of_mem hb)).le
      · exact (hin _ (.head _)).2.le
      · exact fun S' hS hd => ⟨hd, h.2.mono hS⟩
      · exact fun S' sep r hS hd hr => ⟨hd, hr, h.2.mono hS⟩

/-- **The row opened at the cell of a key.**  The separators up to the key are
`as`, those behind it `bs`. -/
theorem focus {as bs : List (K × P)} {key : K} (h : Cells S hi lo c (as ++ bs))
    (hsorted : ((as ++ bs).map Prod.fst).Pairwise (· < ·)) (hkey : InRange lo hi key)
    (has : ∀ a ∈ as, a.1 ≤ key) (hbs : ∀ b ∈ bs, key < b.1)
    (hin : ∀ b ∈ as ++ bs, InRange lo hi b.1) :
    ∃ lo' hi' d xs ys, Focus S lo hi c as bs key lo' hi' d xs ys := by
  rcases List.eq_nil_or_concat as with rfl | ⟨as, ⟨k, d⟩, rfl⟩
  · obtain ⟨hi', ys, hf⟩ := focus_first h hsorted hkey hbs hin
    exact ⟨lo, hi', c, [], ys, hf⟩
  · simp only [List.concat_eq_append, List.append_assoc, List.cons_append, List.nil_append] at *
    obtain ⟨hleft, hright⟩ := append_iff.mp h
    rw [List.map_append, List.pairwise_append] at hsorted
    obtain ⟨hasorted, hsorted, hlt⟩ := hsorted
    simp only [List.map_cons, List.pairwise_cons] at hsorted
    have hk : k ≤ key := has (k, d) (by simp)
    have hkin : InRange lo hi k := hin (k, d) (by simp)
    obtain ⟨hi', ys, hf⟩ := focus_first hright hsorted.2 ⟨WithBot.coe_le_coe.mpr hk, hkey.2⟩ hbs
      fun b hb => ⟨WithBot.coe_le_coe.mpr (hsorted.1 b.1 (List.mem_map_of_mem hb)).le,
        (hin b (by simp [hb])).2⟩
    have haslt : ∀ a ∈ as, a.1 < k := fun a ha => hlt _ (List.mem_map_of_mem ha) k (by simp)
    refine ⟨k, hi', d, c :: as.map Prod.snd, ys, ?_, by simp, hf.part, hf.inRange, ?_, ?_, hf.below,
      hkin.1, hf.le_hi, ?_, ?_⟩
    · simpa using hf.parts
    · intro q hq
      rcases List.mem_append.mp hq with hq | hq
      · obtain ⟨lo₁, hi₁, hS, -, hhi⟩ := hleft.exists_cell hasorted (fun r hr =>
          ⟨(hin r (by simp [hr])).1, WithTop.coe_lt_coe.mpr (haslt r hr)⟩) hq
        refine ⟨lo₁, hi₁, hS, fun hr => hk.not_gt ?_⟩
        exact WithTop.coe_lt_coe.mp (hr.2.trans_le hhi)
      · exact hf.others q hq
    · intro a ha
      rcases List.mem_append.mp ha with ha | ha
      · exact WithBot.coe_le_coe.mpr (haslt a ha).le
      · rw [List.mem_singleton.mp ha]
    · intro S' hS hd
      rw [List.append_assoc]
      refine append_iff.mpr ⟨hleft.mono fun q hq => hS q (List.mem_append_left _ hq), ?_⟩
      exact hf.keep S' (fun q hq => hS q (List.mem_append_right _ hq)) hd
    · intro S' sep r hS hd hr
      rw [List.append_assoc]
      refine append_iff.mpr ⟨hleft.mono fun q hq => hS q (List.mem_append_left _ hq), ?_⟩
      exact hf.cut S' sep r (fun q hq => hS q (List.mem_append_right _ hq)) hd hr

end Cells
