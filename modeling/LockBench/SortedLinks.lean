import Mathlib

/-!
# Sorted lists as successor pointers

A sorted list over nodes is given by its members, their ranks and a `next` pointer: every
member but the last points to the member of the next larger rank.  Linking a node in and
unlinking one change one or two pointers and keep this, whatever else the nodes hold; the
list itself comes out as the path from any member to the last.
-/

namespace SortedLinks

variable {A R : Type} [LinearOrder R]

/-- `b` is the member that follows `a`. -/
structure Follows (rank : A → R) (In : A → Prop) (a b : A) : Prop where
  mem : In b
  lt : rank a < rank b
  least : ∀ c, In c → rank a < rank c → rank b ≤ rank c

/-- The members in the order of their ranks, linked up to the last. -/
structure Links (rank : A → R) (In : A → Prop) (next : A → Option A) (last : A) : Prop where
  inj : ∀ a b, In a → In b → rank a = rank b → a = b
  lastMem : In last
  max : ∀ a, In a → rank a ≤ rank last
  succ : ∀ a, In a → a ≠ last → ∃ b, next a = some b ∧ Follows rank In a b

section

variable {rank rank' : A → R} {In In' : A → Prop} {next next' : A → Option A} {last : A}

/-- Only what the members have counts. -/
theorem Links.congr (h : Links rank In next last) (hin : ∀ a, In' a ↔ In a)
    (hrank : ∀ a, In a → rank' a = rank a) (hnext : ∀ a, In a → next' a = next a) :
    Links rank' In' next' last := by
  refine ⟨fun a b ha hb heq => ?_, (hin last).mpr h.lastMem, fun a ha => ?_, fun a ha hne => ?_⟩
  · rw [hrank a ((hin a).mp ha), hrank b ((hin b).mp hb)] at heq
    exact h.inj a b ((hin a).mp ha) ((hin b).mp hb) heq
  · rw [hrank a ((hin a).mp ha), hrank last h.lastMem]
    exact h.max a ((hin a).mp ha)
  · have ha' := (hin a).mp ha
    obtain ⟨b, hb, hf⟩ := h.succ a ha' hne
    refine ⟨b, (hnext a ha').trans hb, (hin b).mpr hf.mem, ?_, fun c hc hlt => ?_⟩
    · rw [hrank a ha', hrank b hf.mem]
      exact hf.lt
    · have hc' := (hin c).mp hc
      rw [hrank a ha', hrank c hc'] at hlt
      rw [hrank b hf.mem, hrank c hc']
      exact hf.least c hc' hlt

/-- A member has one predecessor. -/
theorem Links.pred_unique (h : Links rank In next last) {a b c : A} (ha : In a) (hb : In b)
    (hac : Follows rank In a c) (hbc : Follows rank In b c) : a = b := by
  refine h.inj a b ha hb ?_
  rcases lt_trichotomy (rank a) (rank b) with hlt | heq | hgt
  · exact absurd hbc.lt (hac.least b hb hlt).not_gt
  · exact heq
  · exact absurd hac.lt (hbc.least a ha hgt).not_gt

variable [DecidableEq A]

/-- **Link a node in** behind `p`. -/
theorem Links.insert (h : Links rank In next last) {p s n : A} (hp : In p)
    (hps : Follows rank In p s) (hn : ¬ In n) (hpn : rank p < rank n) (hns : rank n < rank s) :
    Links rank (fun a => a = n ∨ In a)
      (Function.update (Function.update next n (some s)) p (some n)) last := by
  have hpn' : p ≠ n := fun heq => hn (heq ▸ hp)
  -- no member has the rank of the new node
  have hgap : ∀ a, In a → rank a ≠ rank n := fun a ha heq =>
    absurd (hps.least a ha (heq ▸ hpn)) (heq ▸ hns).not_ge
  have hside : ∀ a, In a → rank a < rank n → a ≠ p → rank a < rank p := fun a ha hlt hne => by
    rcases lt_trichotomy (rank a) (rank p) with hap | hap | hap
    · exact hap
    · exact absurd (h.inj a p ha hp hap) hne
    · exact absurd (hlt.trans hns) (hps.least a ha hap).not_gt
  refine ⟨?_, .inr h.lastMem, ?_, ?_⟩
  · rintro a b (rfl | ha) (rfl | hb) heq
    · rfl
    · exact absurd heq.symm (hgap b hb)
    · exact absurd heq (hgap a ha)
    · exact h.inj a b ha hb heq
  · rintro a (rfl | ha)
    · exact (hns.trans_le (h.max s hps.mem)).le
    · exact h.max a ha
  · rintro a (rfl | ha) hne
    · refine ⟨s, ?_, .inr hps.mem, hns, ?_⟩
      · rw [Function.update_of_ne hpn'.symm, Function.update_self]
      · rintro c (rfl | hc) hlt
        · exact absurd hlt (lt_irrefl _)
        · exact hps.least c hc (hpn.trans hlt)
    · have han : a ≠ n := fun heq => hn (heq ▸ ha)
      by_cases hap : a = p
      · subst hap
        refine ⟨n, Function.update_self .., .inl rfl, hpn, ?_⟩
        rintro c (rfl | hc) hlt
        · exact le_rfl
        · exact hns.le.trans (hps.least c hc hlt)
      · obtain ⟨b, hb, hf⟩ := h.succ a ha hne
        refine ⟨b, ?_, .inr hf.mem, hf.lt, ?_⟩
        · rw [Function.update_of_ne hap, Function.update_of_ne han, hb]
        · rintro c (rfl | hc) hlt
          · exact (hf.least p hp (hside a ha hlt hap)).trans hpn.le
          · exact hf.least c hc hlt

/-- **Unlink a node**, by way of its predecessor. -/
theorem Links.erase (h : Links rank In next last) {p v w : A} (hp : In p) (hpv : Follows rank In p v)
    (hvw : Follows rank In v w) (hv : v ≠ last) :
    Links rank (fun a => a ≠ v ∧ In a) (Function.update next p (some w)) last := by
  refine ⟨fun a b ha hb heq => h.inj a b ha.2 hb.2 heq, ⟨hv.symm, h.lastMem⟩,
    fun a ha => h.max a ha.2, ?_⟩
  rintro a ⟨hav, ha⟩ hne
  by_cases hap : a = p
  · subst hap
    refine ⟨w, Function.update_self .., ⟨?_, hvw.mem⟩, hpv.lt.trans hvw.lt, ?_⟩
    · rintro rfl
      exact lt_irrefl _ hvw.lt
    · rintro c ⟨hcv, hc⟩ hlt
      refine hvw.least c hc (lt_of_le_of_ne (hpv.least c hc hlt) fun heq => hcv ?_)
      exact h.inj c v hc hpv.mem heq.symm
  · obtain ⟨b, hb, hf⟩ := h.succ a ha hne
    refine ⟨b, ?_, ⟨?_, hf.mem⟩, hf.lt, fun c hc hlt => hf.least c hc.2 hlt⟩
    · rw [Function.update_of_ne hap, hb]
    · rintro rfl
      exact hap (h.pred_unique ha hp hf hpv)

end

/-! ## The list -/

/-- From `a` the pointers lead through `l` to the last node. -/
def Path (next : A → Option A) (last : A) : A → List A → Prop
  | a, [] => next a = some last
  | a, b :: l => next a = some b ∧ Path next last b l

section

variable {rank : A → R} {In : A → Prop} {next : A → Option A} {last : A}

/-- **The members behind a member, in the order of their ranks.** -/
theorem Links.exists_path (h : Links rank In next last) (hfin : {a | In a}.Finite) {a : A}
    (ha : In a) (hne : a ≠ last) :
    ∃ l, Path next last a l ∧ (a :: l).Pairwise (fun b c => rank b < rank c) ∧
      ∀ c, c ∈ l ↔ In c ∧ rank a < rank c ∧ c ≠ last := by
  have hfin' : ∀ a, {c | In c ∧ rank a < rank c}.Finite := fun a => hfin.subset fun c hc => hc.1
  induction hm : {c | In c ∧ rank a < rank c}.ncard using Nat.strong_induction_on generalizing a with
  | _ m ih =>
      obtain ⟨b, hb, hf⟩ := h.succ a ha hne
      by_cases hlast : b = last
      · subst hlast
        refine ⟨[], hb, List.pairwise_singleton _ _, fun c => ?_⟩
        refine iff_of_false List.not_mem_nil ?_
        rintro ⟨hc, hlt, hcne⟩
        exact hcne (h.inj c b hc hf.mem (le_antisymm (h.max c hc) (hf.least c hc hlt)))
      · have hless : {c | In c ∧ rank b < rank c}.ncard < m := by
          rw [← hm]
          refine Set.ncard_lt_ncard ⟨fun c hc => ⟨hc.1, hf.lt.trans hc.2⟩, fun hsub => ?_⟩ (hfin' a)
          exact lt_irrefl _ (hsub (show b ∈ {c | In c ∧ rank a < rank c} from ⟨hf.mem, hf.lt⟩)).2
        obtain ⟨l, hpath, hsorted, hmem⟩ := ih _ hless hf.mem hlast rfl
        refine ⟨b :: l, ⟨hb, hpath⟩, List.pairwise_cons.mpr ⟨fun c hc => ?_, hsorted⟩, fun c => ?_⟩
        · rcases List.mem_cons.mp hc with rfl | hc
          · exact hf.lt
          · exact hf.lt.trans ((hmem c).mp hc).2.1
        · rw [List.mem_cons, hmem]
          constructor
          · rintro (rfl | ⟨hc, hlt, hcne⟩)
            · exact ⟨hf.mem, hf.lt, hlast⟩
            · exact ⟨hc, hf.lt.trans hlt, hcne⟩
          · rintro ⟨hc, hlt, hcne⟩
            rcases (hf.least c hc hlt).eq_or_lt with heq | hlt'
            · exact .inl (h.inj c b hc hf.mem heq.symm)
            · exact .inr ⟨hc, hlt', hcne⟩

end

end SortedLinks
