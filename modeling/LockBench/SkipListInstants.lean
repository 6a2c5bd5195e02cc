import LockBench.SkipListLocal

/-!
# Instants of an open operation

What an operation that is still open may conclude about the states it has passed
since its call.  A search walks over nodes that may be marked, unlinked or half
linked; every node it stands on was linked at an instant since the call, and the
pointers of a node that has been unlinked are those of an instant since the call.
So a key that a search does not meet at a level was absent from that level at some
instant, and a key whose node turns out marked, half linked or found too low was
absent from the map at some instant.
-/

namespace SkipList

section Instants

variable {T K V : Type} [LinearOrder K]

/-- The states of the index. -/
abbrev State (T K V : Type) := ScState T (Mem T K V) (Pc K V)

/-- Node `a` was linked at level `l` at one of the instants. -/
def SeenIn (Z : Set (State T K V)) (a : Addr) (l : Nat) : Prop :=
  ∃ s ∈ Z, InList s.mem l a

/-- Key `k` was absent from level `l` at one of the instants. -/
def NoKeyIn (Z : Set (State T K V)) (k : K) (l : Nat) : Prop :=
  ∃ s ∈ Z, ∀ a, InList s.mem l a → s.mem.rank a ≠ rankOf k

/-- The lookup of `k` was `r` at one of the instants. -/
def ObsIn (Z : Set (State T K V)) (k : K) (r : Option V) : Prop :=
  ∃ s ∈ Z, mapOf s.mem k = r

omit [LinearOrder K] in
theorem SeenIn.insert {Z : Set (State T K V)} {a : Addr} {l : Nat} (h : SeenIn Z a l)
    (s : State T K V) : SeenIn (insert s Z) a l := by
  obtain ⟨s₀, hs₀, h₀⟩ := h
  exact ⟨s₀, Set.mem_insert_of_mem s hs₀, h₀⟩

omit [LinearOrder K] in
theorem NoKeyIn.insert {Z : Set (State T K V)} {k : K} {l : Nat} (h : NoKeyIn Z k l)
    (s : State T K V) : NoKeyIn (insert s Z) k l := by
  obtain ⟨s₀, hs₀, h₀⟩ := h
  exact ⟨s₀, Set.mem_insert_of_mem s hs₀, h₀⟩

omit [LinearOrder K] in
theorem ObsIn.insert {Z : Set (State T K V)} {k : K} {r : Option V} (h : ObsIn Z k r)
    (s : State T K V) : ObsIn (insert s Z) k r := by
  obtain ⟨s₀, hs₀, h₀⟩ := h
  exact ⟨s₀, Set.mem_insert_of_mem s hs₀, h₀⟩

omit [LinearOrder K] in
/-- A key that is absent from level 0 is absent from the map. -/
theorem NoKeyIn.obs {Z : Set (State T K V)} {k : K} (h : NoKeyIn Z k 0) : ObsIn Z k none := by
  obtain ⟨s₀, hs₀, h₀⟩ := h
  refine ⟨s₀, hs₀, ?_⟩
  unfold mapOf
  rw [dif_neg]
  rintro ⟨a, ha⟩
  exact h₀ a ha.inList ha.rank

/-- What holds of the instants `Z` since the call of an operation on key `k`. -/
structure Hist (s : State T K V) (h : Addr → Nat) (k : K) (Z : Set (State T K V)) : Prop where
  now : s ∈ Z
  was : ∀ a l, l < maxLevel → SeenIn Z a l → Was s.mem h a l
  below : ∀ a l, l + 1 < maxLevel → SeenIn Z a (l + 1) → SeenIn Z a l
  next : ∀ a l, l < maxLevel → SeenIn Z a l → a ≠ tail → SeenIn Z (s.mem.next a l) l
  gap : ∀ a l, l < maxLevel → SeenIn Z a l → s.mem.rank a < rankOf k →
    rankOf k < s.mem.rank (s.mem.next a l) → NoKeyIn Z k l
  marked : ∀ a, SeenIn Z a 0 → s.mem.rank a = rankOf k → s.mem.marked a = true → ObsIn Z k none
  full : ∀ a l, l < maxLevel → NoKeyIn Z k l → SeenIn Z a 0 → s.mem.rank a = rankOf k →
    l ≤ s.mem.top a → s.mem.fullyLinked a = true → ObsIn Z k none

namespace Hist

variable {s s' : State T K V} {h h' : Addr → Nat} {k : K} {Z : Set (State T K V)}

/-- A node linked now is seen now. -/
theorem seen_now (hs : Shape s.mem h) (hnow : s ∈ Z) {a : Addr} {l : Nat} (hl : l < maxLevel)
    (ha : l < h a) : SeenIn Z a l :=
  ⟨s, hnow, (hs.inList_iff hl).mpr ha⟩

/-- A key is absent now when its linked node is marked or not fully linked. -/
theorem obs_now (hs : Shape s.mem h) (hnow : s ∈ Z) {a : Addr} (ha : 0 < h a)
    (hr : s.mem.rank a = rankOf k) (hm : s.mem.fullyLinked a = true → s.mem.marked a = true) :
    ObsIn Z k none := by
  refine ⟨s, hnow, hs.mapOf_eq_none fun b hb hrb hfb => ?_⟩
  obtain rfl := hs.inj a b ha hb (hr.trans hrb.symm)
  exact hm hfb

/-- A key is absent from a level now when it falls between a linked node and its
successor there. -/
theorem noKey_now (hs : Shape s.mem h) (hnow : s ∈ Z) {a : Addr} {l : Nat} (hl : l < maxLevel)
    (ha : l < h a) (hlt : s.mem.rank a < rankOf k)
    (hgt : rankOf k < s.mem.rank (s.mem.next a l)) : NoKeyIn Z k l :=
  ⟨s, hnow, fun _ hb => hs.gap ha hlt hgt ((hs.inList_iff hl).mp hb)⟩

/-- The instants of an operation that has just been called. -/
theorem start (hs : Shape s.mem h) : Hist s h k (insert s ∅) := by
  have hnow : s ∈ (insert s ∅ : Set (State T K V)) := Set.mem_insert s ∅
  have hseen : ∀ a l, l < maxLevel → SeenIn (insert s ∅ : Set (State T K V)) a l → l < h a := by
    rintro a l hl ⟨s₀, hs₀, h₀⟩
    obtain rfl : s₀ = s := by simpa using hs₀
    exact (hs.inList_iff hl).mp h₀
  refine ⟨hnow, fun a l hl ha => .inl (hseen a l hl ha), fun a l hl ha => ?_,
    fun a l hl ha hne => ?_, fun a l hl ha hlt hgt => ?_, fun a ha hr hm => ?_, fun a l hl hno ha hr hle hf => ?_⟩
  · have := hseen a (l + 1) hl ha
    exact seen_now hs hnow (by omega) (by omega)
  · exact seen_now hs hnow hl (hs.succ a l (hseen a l hl ha) hne).1
  · exact noKey_now hs hnow hl (hseen a l hl ha) hlt hgt
  · exact obs_now hs hnow (hseen a 0 (by decide) ha) hr fun _ => hm
  · have h0 := hseen a 0 (by decide) ha
    refine obs_now hs hnow h0 hr fun _ => ?_
    by_contra hm
    have hm : s.mem.marked a = false := by simpa using hm
    have hheight := hs.full a hf (hs.lt_fresh (.inl h0)) hm
    obtain ⟨s₀, hs₀, h₀⟩ := hno
    obtain rfl : s₀ = s := by simpa using hs₀
    exact h₀ a ((hs.inList_iff hl).mpr (by omega)) hr

/-- **One more instant.** -/
theorem step (hh : Hist s h k Z) {u : T} {mine : Option Addr}
    (hf : Frame u mine s.mem h s'.mem h') (hs : Shape s.mem h) (hs' : Shape s'.mem h') :
    Hist s' h' k (insert s' Z) := by
  have hnow : s' ∈ insert s' Z := Set.mem_insert s' Z
  have hseen : ∀ {a l}, l < maxLevel → SeenIn (insert s' Z) a l → l < h' a ∨ SeenIn Z a l := by
    rintro a l hl ⟨s₀, hs₀ | hs₀, h₀⟩
    · subst hs₀
      exact .inl ((hs'.inList_iff hl).mp h₀)
    · exact .inr ⟨s₀, hs₀, h₀⟩
  have hborn : ∀ {a l}, l < maxLevel → SeenIn Z a l → a < s.mem.fresh := fun {a l} hl ha =>
    hs.lt_fresh (hh.was a l hl ha)
  have hmarked : ∀ a, SeenIn (Insert.insert s' Z) a 0 → s'.mem.rank a = rankOf k →
      s'.mem.marked a = true → ObsIn (Insert.insert s' Z) k none := by
    intro a ha hr hm
    by_cases hl : 0 < h' a
    · exact obs_now hs' hnow hl hr fun _ => hm
    · have ha' := (hseen (by decide) ha).resolve_left hl
      rw [hf.rank a (hborn (by decide) ha')] at hr
      exact (hh.marked a ha' hr ((hf.newMarked a hm).resolve_right hl)).insert s'
  refine ⟨hnow, fun a l hl ha => ?_, fun a l hl ha => ?_, fun a l hl ha hne => ?_,
    fun a l hl ha hlt hgt => ?_, hmarked, fun a l hl hno ha hr hle hfull => ?_⟩
  · rcases hseen hl ha with ha | ha
    · exact .inl ha
    · exact hf.was a l (hh.was a l hl ha)
  · rcases hseen hl ha with ha | ha
    · exact seen_now hs' hnow (by omega) (by omega)
    · exact (hh.below a l hl ha).insert s'
  · by_cases hlink : l < h' a
    · exact seen_now hs' hnow hl (hs'.succ a l hlink hne).1
    · have ha' := (hseen hl ha).resolve_left hlink
      rw [hf.frozen a l (hh.was a l hl ha') hlink]
      exact (hh.next a l hl ha' hne).insert s'
  · by_cases hlink : l < h' a
    · exact noKey_now hs' hnow hl hlink hlt hgt
    · have ha' := (hseen hl ha).resolve_left hlink
      have hw := hh.was a l hl ha'
      have hrank := hf.rank a (hborn hl ha')
      rw [hf.frozen a l hw hlink] at hgt
      rw [hrank] at hlt
      have hnext := hs.next_was hw (hs.ne_tail hlt)
      rw [hf.rank _ (hs.lt_fresh hnext.1)] at hgt
      exact (hh.gap a l hl ha' hlt hgt).insert s'
  · by_cases hm : s'.mem.marked a = true
    · exact hmarked a ha hr hm
    -- an unmarked, fully linked node is linked at level `l` now, so the key was
    -- absent from that level before
    have hm : s'.mem.marked a = false := by simpa using hm
    have hborn' : a < s'.mem.fresh := by
      rcases hseen (by decide) ha with ha | ha
      · exact hs'.lt_fresh (.inl ha)
      · exact lt_of_lt_of_le (hborn (by decide) ha) hf.fresh
    have hheight := hs'.full a hfull hborn' hm
    have hno' : NoKeyIn Z k l := by
      obtain ⟨s₀, hs₀ | hs₀, h₀⟩ := hno
      · subst hs₀
        exact absurd hr (h₀ a ((hs'.inList_iff hl).mpr (by omega)))
      · exact ⟨s₀, hs₀, h₀⟩
    have hold : a < s.mem.fresh := by
      by_contra hnew
      have h0 := hf.newborn a (not_lt.mp hnew)
      omega
    have hrank : s.mem.rank a = rankOf k := (hf.rank a hold).symm.trans hr
    refine ObsIn.insert ?_ s'
    by_cases hfull₀ : s.mem.fullyLinked a = true
    · have hm₀ : s.mem.marked a = false := by
        by_contra hm₀
        simp [hf.stays a hold (by simpa using hm₀)] at hm
      have hheight₀ := hs.full a hfull₀ hold hm₀
      have htop := hf.top a hold
      exact hh.full a l hl hno' (seen_now hs hh.now (by decide) (by omega)) hrank (by omega) hfull₀
    · have h0 := (hf.newFull a hold hfull).resolve_left hfull₀
      exact obs_now hs hh.now h0 hrank fun hf' => absurd hf' hfull₀

/-- A key is absent now when a node that holds it is not fully linked. -/
theorem obs_of_notFull (hh : Hist s h k Z) (hs : Shape s.mem h) {a : Addr} (ha : SeenIn Z a 0)
    (hr : s.mem.rank a = rankOf k) (hf : s.mem.fullyLinked a = false) : ObsIn Z k none := by
  have hm : s.mem.marked a = false := by
    by_contra hm
    simp [hs.markedFull a (by simpa using hm)] at hf
  have h0 := Shape.linked_of_unmarked (hh.was a 0 (by decide) ha) hm
  exact obs_now hs hh.now h0 hr fun hf' => by simp [hf] at hf'

theorem lt_fresh (hh : Hist s h k Z) (hs : Shape s.mem h) {a : Addr} {l : Nat} (hl : l < maxLevel)
    (ha : SeenIn Z a l) : a < s.mem.fresh :=
  hs.lt_fresh (hh.was a l hl ha)

/-- What was linked at a level was linked at level 0. -/
theorem seen_zero (hh : Hist s h k Z) {a : Addr} {l : Nat} (hl : l < maxLevel)
    (ha : SeenIn Z a l) : SeenIn Z a 0 := by
  induction l with
  | zero => exact ha
  | succ l ih => exact ih (by omega) (hh.below a l hl ha)

/-- A value is observed now when its node is linked, fully linked and unmarked. -/
theorem obs_val (hh : Hist s h k Z) (hs : Shape s.mem h) {a : Addr} (ha : Was s.mem h a 0)
    (hr : s.mem.rank a = rankOf k) (hf : s.mem.fullyLinked a = true)
    (hm : s.mem.marked a = false) : ObsIn Z k (some (s.mem.val a)) :=
  ⟨s, hh.now, hs.mapOf_eq_some_iff.mpr ⟨a, Shape.linked_of_unmarked ha hm, hf, hm, hr, rfl⟩⟩

end Hist

/-- Where an operation stands: open, committed with its result, or about to return. -/
inductive Phase (K V : Type)
  | idle
  | running (op : MapOp K V)
  | done (op : MapOp K V) (r : MapRes V)
  | returned (r : MapRes V)

/-- The operation of a search. -/
def Upd.op : Upd K V → MapOp K V
  | .put k v => .put k v
  | .remove k => .remove k

/-- Where the operation of a thread stands at a program point. -/
def Pc.phase : Pc K V → Phase K V
  | .idle => .idle
  | .find u _ _ _ => .running u.op
  | .update k v _ .unlock => .done (.put k v) (.flag false)
  | .update k v _ _ => .running (.put k v)
  | .put c _ => .running (.put c.key c.val)
  | .remove c (.loadNext _) | .remove c (.unlink _ _) | .remove c (.unlockVictim true) =>
      .done (.remove c.key) (.flag true)
  | .remove c _ => .running (.remove c.key)
  | .release (.put k v) _ (some b) => .done (.put k v) (.flag b)
  | .release (.remove k) _ (some true) => .done (.remove k) (.flag true)
  | .release u _ _ => .running u.op
  | .get _ k _ | .optimistic k _ => .running (.get k)
  | .returned r => .returned r

/-- A search, with the instants of its operation. -/
structure FindSeen (Z : Set (State T K V)) (k : K) (lvl : Nat) (pred : Addr)
    (f : Found) : Prop where
  pred : SeenIn Z pred lvl
  succs : ∀ j, lvl < j → j < maxLevel → SeenIn Z (f.succs j) j
  above : ∀ j, lvl < j → j < maxLevel → (∀ l, f.lfound = some l → l < j) → NoKeyIn Z k j

/-- What an open operation has seen since its call. -/
def seenOk (m : Mem T K V) (Z : Set (State T K V)) : Pc K V → Prop
  | .find u lvl pred f => FindSeen Z u.key lvl pred f
  | .remove c (.fullyLinked l) => l < maxLevel ∧ SeenIn Z c.victim l ∧
      ∀ j, l < j → j < maxLevel → NoKeyIn Z c.key j
  | .remove c (.unlockVictim false) => ObsIn Z c.key none
  | .remove c _ => SeenIn Z c.victim 0
  | .release (.remove k) _ (some false) => ObsIn Z k none
  | .get _ k (.unlockCurr _ _ r) | .get _ k (.unlockLast _ r) => ObsIn Z k r
  | .optimistic k p =>
      match p with
      | .beginHead => True
      | .next lvl pred _ | .begin lvl pred => SeenIn Z pred lvl
      | .check lvl pred _ nx => SeenIn Z pred lvl ∧ SeenIn Z nx lvl
      | .curr pred _ => SeenIn Z pred 0
      | .beginCurr _ _ c | .checkPred _ _ c _ =>
          SeenIn Z c 0 ∧ (rankOf k < m.rank c → ObsIn Z k none)
      | .marked _ _ c _ => SeenIn Z c 0
      | .val _ _ c _ => m.marked c = false ∨ ObsIn Z k (some (m.val c))
      | .checkCurr _ _ _ _ r | .recheck _ _ r => ObsIn Z k r
  | _ => True

omit [LinearOrder K] in
theorem FindSeen.insert {Z : Set (State T K V)} {k : K} {lvl : Nat} {pred : Addr} {f : Found}
    (h : FindSeen Z k lvl pred f) (s : State T K V) :
    FindSeen (Insert.insert s Z) k lvl pred f where
  pred := h.pred.insert s
  succs j hj hj' := (h.succs j hj hj').insert s
  above j hj hj' hl := (h.above j hj hj' hl).insert s

/-- The node an optimistic lookup is about to validate, and its predecessor. -/
def Pc.candidate : Pc K V → Option (Addr × Addr)
  | .optimistic _ (.beginCurr pred _ c) | .optimistic _ (.checkPred pred _ c _) => some (c, pred)
  | _ => none

/-- What has been seen stays seen at one more instant, if the key of the candidate
and the value about to be read stay. -/
theorem seenOk_insert {m m' : Mem T K V} {Z : Set (State T K V)} (s' : State T K V) {p : Pc K V}
    (hcand : ∀ c q, p.candidate = some (c, q) → seenOk m Z p → m'.rank c = m.rank c)
    (hval : ∀ k q v c vc, p = .optimistic k (.val q v c vc) → seenOk m Z p →
      m'.marked c = false ∨ ObsIn Z k (some (m'.val c)))
    (hp : seenOk m Z p) : seenOk m' (insert s' Z) p := by
  cases p with
  | idle | returned r | update k v n p | put c p => trivial
  | find u lvl pred f => exact FindSeen.insert hp s'
  | remove c p =>
      cases p with
      | fullyLinked l =>
          exact ⟨hp.1, hp.2.1.insert s', fun j hj hj' => (hp.2.2 j hj hj').insert s'⟩
      | unlockVictim r =>
          cases r with
          | true => exact SeenIn.insert hp s'
          | false => exact ObsIn.insert hp s'
      | _ => exact SeenIn.insert hp s'
  | release u locked r =>
      match u, r, hp with
      | .remove k, some false, hp => exact ObsIn.insert hp s'
      | .remove k, some true, _ | .remove k, none, _ | .put k v, _, _ => trivial
  | get mode k p =>
      cases p with
      | unlockCurr pred c r | unlockLast pred r => exact ObsIn.insert hp s'
      | _ => trivial
  | optimistic k p =>
      cases p with
      | beginHead => trivial
      | next lvl pred v | begin lvl nx => exact SeenIn.insert hp s'
      | check lvl pred v nx => exact ⟨hp.1.insert s', hp.2.insert s'⟩
      | curr pred v | marked pred v c vc => exact SeenIn.insert hp s'
      | beginCurr pred v c | checkPred pred v c vc =>
          refine ⟨hp.1.insert s', fun hlt => ?_⟩
          rw [hcand c pred rfl hp] at hlt
          exact (hp.2 hlt).insert s'
      | val pred v c vc =>
          rcases hval k pred v c vc rfl hp with hm | hobs
          · exact .inl hm
          · exact .inr (hobs.insert s')
      | checkCurr pred v c vc r | recheck pred v r => exact ObsIn.insert hp s'

/-- What has been seen survives the steps of others. -/
theorem Frame.seenOk {s s' : State T K V} {h h' : Addr → Nat} {Z : Set (State T K V)} {u t : T}
    {mine : Option Addr} (hf : Frame u mine s.mem h s'.mem h') (hs : Shape s.mem h)
    {op : MapOp K V} {p : Pc K V} (hop : p.phase = .running op) (hh : Hist s h op.key Z)
    (hlocal : LocalOk s.mem h t p) (hp : seenOk s.mem Z p) :
    seenOk s'.mem (insert s' Z) p := by
  refine seenOk_insert s' (fun c q hc hp => hf.rank c ?_) ?_ hp
  · unfold Pc.candidate at hc
    split at hc
    · obtain ⟨rfl, -⟩ := Prod.mk.inj (Option.some.inj hc)
      exact hh.lt_fresh hs (by decide) hp.1
    · obtain ⟨rfl, -⟩ := Prod.mk.inj (Option.some.inj hc)
      exact hh.lt_fresh hs (by decide) hp.1
    · cases hc
  · rintro k q v c vc rfl hp
    obtain rfl : op = .get k := by cases hop; rfl
    obtain ⟨hw, hfull, hr⟩ := hlocal
    by_cases hm' : s'.mem.marked c = false
    · exact .inl hm'
    -- marked in between: the value stays what it was
    · rw [hf.val c (hs.lt_fresh hw) (by simpa using hm')]
      rcases hp with hm | hobs
      · exact .inr (hh.obs_val hs hw hr hfull hm)
      · exact .inr hobs

/-- The operation of a thread, as it stands at its program point. -/
def statusOk (s : State T K V) (h : Addr → Nat) (p : Pc K V)
    (st : Status (State T K V) (MapOp K V) (MapRes V)) : Prop :=
  match p.phase with
  | .idle => st = .idle
  | .running op => ∃ Z, st = .pending op Z ∧ Hist s h op.key Z ∧ seenOk s.mem Z p
  | .done op r => st = .done op r
  | .returned r => ∃ op, st = .done op r ∨ ∃ Z, st = .pending op Z ∧
      ∃ s₀ ∈ Z, op.apply (mapOf s₀.mem) = (mapOf s₀.mem, r)

open Observed in
/-- How an operation stands survives the steps of others. -/
theorem Frame.statusOk {s s' : State T K V} {h h' : Addr → Nat} {u t : T} {mine : Option Addr}
    (hf : Frame u mine s.mem h s'.mem h') (hs : Shape s.mem h) (hs' : Shape s'.mem h')
    {p : Pc K V} (hlocal : LocalOk s.mem h t p)
    {σ : T → Status (State T K V) (MapOp K V) (MapRes V)} (hst : statusOk s h p (σ t)) :
    statusOk s' h' p (observe s' σ t) := by
  unfold SkipList.statusOk at *
  cases hph : p.phase with
  | idle =>
      rw [hph] at hst
      simp only [observe, hst]
  | running op =>
      rw [hph] at hst
      obtain ⟨Z, hst, hh, hseen⟩ := hst
      simp only [observe, hst]
      exact ⟨_, rfl, hh.step hf hs hs', hf.seenOk hs hph hh hlocal hseen⟩
  | done op r =>
      rw [hph] at hst
      simp only [observe, hst]
  | returned r =>
      rw [hph] at hst
      obtain ⟨op, hst | ⟨Z, hst, s₀, hs₀, hr⟩⟩ := hst
      · simp only [observe, hst]
        exact ⟨op, .inl rfl⟩
      · simp only [observe, hst]
        exact ⟨op, .inr ⟨_, rfl, s₀, Set.mem_insert_of_mem s' hs₀, hr⟩⟩

end Instants
end SkipList
