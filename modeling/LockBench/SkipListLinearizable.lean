import LockBench.SkipListStores

/-!
# Linearizability of the skip list

Every step of the index keeps the invariant and pays what it owes to the map
(`sound`), so every history is linearizable.  A `put` takes effect at the store of
`fully_linked` or of the value, a successful `remove` at the mark; a lookup and a
failed `remove` take effect at an instant that the invariant found for them.

The one condition is on optimistic lookups: a version that is validated must not
have wrapped around since it was taken.
-/

namespace SkipList

section Sound

variable {T K V : Type} [DecidableEq T] [LinearOrder K] {h h' : Addr → Nat} {s : State T K V}
  {σ : Statuses T K V} {t : T} {m' : Mem T K V} {p' : Pc K V}

/-! ## The steps of an insertion -/

omit [DecidableEq T] in
/-- The locks of the thread that stores stay its own. -/
theorem LockedOk.store {u : T} {mine : Option Addr} {k : K} {locked : List Addr}
    (hl : LockedOk s.mem h t k locked) (hs : Shape s.mem h) (hf : Frame u mine s.mem h m' h')
    (hown : m'.owner = s.mem.owner) : LockedOk m' h' t k locked :=
  ⟨hl.nodup, fun a ha => hf.was a 0 (hl.was a ha), fun a ha => by rw [hown]; exact hl.owner a ha,
    fun a ha => by rw [hf.rank a (hs.lt_fresh (hl.was a ha))]; exact hl.left a ha⟩

omit [DecidableEq T] [LinearOrder K] in
/-- Locks unchanged. -/
theorem LocksOk.of_same {m : Mem T K V} (hk : LocksOk m) (h1 : m'.owner = m.owner)
    (h2 : m'.readers = m.readers) (h3 : m'.version = m.version) (h4 : m'.fresh = m.fresh) :
    LocksOk m' := by
  refine ⟨fun a => ?_, fun a ha => ?_, fun a ha => ?_⟩
  · rw [h1, h3]
    exact hk.parity a
  · rw [h2]
    exact hk.excl a (h1 ▸ ha)
  · rw [h1, h2]
    exact hk.free a (h4 ▸ ha)

omit [DecidableEq T] [LinearOrder K] in
/-- A new node is unlocked. -/
theorem LocksOk.alloc {m : Mem T K V} (hk : LocksOk m) (k : K) (v : V) (top : Nat) :
    LocksOk (m.alloc k v top) := by
  refine ⟨fun a => ?_, fun a ha => ?_, fun a ha => ?_⟩
  · by_cases han : a = m.fresh
    · simp [Mem.alloc, han]
    · simpa [Mem.alloc, han] using hk.parity a
  · by_cases han : a = m.fresh
    · simp [Mem.alloc, han]
    · have hown : m.owner a ≠ none := by simpa [Mem.alloc, han] using ha
      simpa [Mem.alloc, han] using hk.excl a hown
  · have ha : m.fresh < a := ha
    have han : a ≠ m.fresh := ne_of_gt ha
    simpa [Mem.alloc, han] using hk.free a (le_of_lt ha)

/-- The status of an insertion that goes on. -/
theorem put_status (hi : Inv h s σ) {c : PutCtx K V} {p q : PutPc} (hpc : s.pc t = .put c p)
    {mine : Option Addr} (hf : Frame t mine s.mem h m' h') (hs' : Shape m' h') :
    statusOk (after s t m' (.put c q)) h' (.put c q)
      (Observed.observe (after s t m' (.put c q)) σ t) := by
  obtain ⟨Z, hσ, hh, -⟩ := (statusOk_running rfl).mp (hpc ▸ hi.status t)
  refine (statusOk_running rfl).mpr ⟨insert (after s t m' (.put c q)) Z, ?_, ?_, trivial⟩
  · simp only [Observed.observe, hσ]
  · exact hh.step (u := t) hf hi.shape hs'

/-- The allocation of a node. -/
theorem alloc_inv (hi : Inv h s σ) {c : PutCtx K V} (hpc : s.pc t = .put c .new) :
    let m' := s.mem.alloc c.key c.val (c.height - 1)
    let s' := after s t m' (.put c (.fill s.mem.fresh 0))
    Inv h s' (Observed.observe s' σ) ∧ mapOf m' = mapOf s.mem := by
  intro m' s'
  have hl : putOk s.mem h t c .new := by
    have := hi.locals t
    rwa [hpc] at this
  obtain ⟨hb, ⟨h1, h2, h3⟩, h4⟩ := hl
  obtain ⟨h0, hm⟩ := hi.shape.unborn s.mem.fresh (le_refl _)
  have hn : NodeOnly s.mem.fresh s.mem m' :=
    .alloc hi.shape hi.locks c.key c.val (by omega)
  have hs' := hn.shape hi.shape h0 hm
  have hf : Frame t (s.pc t).newNode s.mem h m' h :=
    hn.frame hi.shape h0 hm fun hlt => absurd hlt (lt_irrefl _)
  refine ⟨hi.move hf hs' ⟨fun j hj => hf.between hi.shape (hb j hj), ⟨h1, h2, ?_⟩, fun j hj => ?_,
    ?_, fun j hj => absurd hj (Nat.not_lt_zero j)⟩ ⟨fun n hn0 hfull => .inr ⟨hn0, ?_, ?_⟩,
      fun a hma ha0 => .inr ⟨?_, ha0, ?_⟩, fun n hnew => .inr ?_, fun n p hp => ?_,
      fun c' p hc => nomatch hc⟩ (hi.locks.alloc _ _ _) (fun _ _ => rfl) (put_status hi hpc hf hs'),
    hn.mapOf_eq hi.shape hs'⟩
  · exact h3.store hi.shape hf hn.owner
  · have hv := h4 j hj
    have hborn := hi.shape.lt_fresh (h3.was _ hv.mem)
    exact ⟨hv.mem, by rw [hn.marked]; exact hv.unmarked,
      by rw [hn.next _ (ne_of_lt hborn)]; exact hv.next⟩
  · exact ⟨Nat.lt_succ_self _, by simp [m', Mem.alloc, rankOf], by simp [m', Mem.alloc],
      by simp [m', Mem.alloc], by simp [m', Mem.alloc], by simp [m', Mem.alloc], h0⟩
  · rw [← hn.full n (hi.shape.lt_fresh (.inl hn0))]
    exact hfull
  · intro p hp
    rw [hpc] at hp
    cases hp
  · rwa [hn.marked] at hma
  · intro hu
    rw [hpc] at hu
    cases hu
  · exact (Option.some.inj hnew).le
  · rw [hpc] at hp
    cases hp

/-- The fill of a pointer of the new node. -/
theorem fill_inv (hi : Inv h s σ) {c : PutCtx K V} {n : Addr} {lvl : Nat}
    (hpc : s.pc t = .put c (.fill n lvl)) :
    let m' := s.mem.setNext n lvl (c.succs lvl)
    let s' := after s t m' (.put c (if lvl + 1 < c.height then .fill n (lvl + 1) else .link n 0))
    Inv h s' (Observed.observe s' σ) ∧ mapOf m' = mapOf s.mem := by
  intro m' s'
  have hl : putOk s.mem h t c (.fill n lvl) := by
    have := hi.locals t
    rwa [hpc] at this
  obtain ⟨hb, ⟨h1, h2, h3⟩, h4, h5, h6⟩ := hl
  have hn : NodeOnly n s.mem m' := .setNext hi.shape n lvl (c.succs lvl)
  have hs' := hn.shape hi.shape h5.height h5.unmarked
  have hf : Frame t (s.pc t).newNode s.mem h m' h :=
    hn.frame hi.shape h5.height h5.unmarked fun _ => by rw [hpc]; rfl
  have hb' := fun j hj => hf.between hi.shape (hb j hj)
  have h3' := h3.store hi.shape hf hn.owner
  have h4' : ∀ j, j < c.height → Valid m' c.locked (c.preds j) j (c.succs j) := by
    intro j hj
    have hv := h4 j hj
    have hne : c.preds j ≠ n := by
      rintro he
      have := h3.left _ hv.mem
      rw [he, h5.rank] at this
      exact lt_irrefl _ this
    exact ⟨hv.mem, hv.unmarked, by rw [hn.next _ hne]; exact hv.next⟩
  have h5' : NewNode m' h c n 0 := ⟨h5.born, h5.rank, h5.top, h5.val, h5.notFull, h5.unmarked, h5.height⟩
  have h6' : ∀ j, j < lvl + 1 → m'.next n j = c.succs j := by
    intro j hj
    by_cases hjl : j = lvl
    · subst hjl
      simp [m', Mem.setNext]
    · simpa [m', Mem.setNext, hjl] using h6 j (by omega)
  have hlocal : LocalOk m' h t
      (.put c (if lvl + 1 < c.height then .fill n (lvl + 1) else .link n 0)) := by
    split
    · exact ⟨hb', ⟨by assumption, h2, h3'⟩, h4', h5', h6'⟩
    · exact ⟨hb', ⟨by omega, h2, h3'⟩, fun j _ => h4' j, fun j hj => absurd hj (Nat.not_lt_zero j),
        h5', fun j _ hj => h6' j (by omega)⟩
  refine ⟨hi.move hf hs' hlocal ⟨fun a ha0 hfull => .inr ⟨ha0, hfull, ?_⟩,
      fun a hma ha0 => .inr ⟨hma, ha0, ?_⟩, fun a hnew => .inl ?_, fun a p hp => ?_, fun c' p hc => ?_⟩
    (hi.locks.of_same rfl rfl rfl rfl) (fun _ _ => rfl) (put_status hi hpc hf hs'),
    hn.mapOf_eq hi.shape hs'⟩
  · intro p hp
    rw [hpc] at hp
    cases hp
  · intro hu
    rw [hpc] at hu
    cases hu
  · rw [hpc]
    split at hnew <;> exact hnew
  · rw [hpc] at hp
    cases hp
  · split at hc <;> cases hc

omit [DecidableEq T] in
/-- An insertion may link the next level of its node. -/
theorem link_can {m : Mem T K V} {c : PutCtx K V} {n : Addr} {lvl : Nat}
    (hl : putOk m h t c (.link n lvl)) : CanLink m h n (c.preds lvl) lvl := by
  obtain ⟨hb, ⟨h1, h2, -⟩, h4, -, h6, h7⟩ := hl
  have hv := h4 lvl (le_refl _) h1
  have hbl := hb lvl (by omega)
  refine ⟨Shape.linked_of_unmarked hbl.pred hv.unmarked, hv.unmarked, ?_, ?_, ?_, h6.height,
    h6.born, ⟨h6.unmarked, h6.notFull⟩, ?_⟩
  · rw [h6.rank]
    exact hbl.left
  · rw [h6.rank, hv.next]
    exact hbl.right
  · rw [h7 lvl (le_refl _) h1, hv.next]
  · rw [h6.top]
    omega

/-- The link of a level. -/
theorem link_inv (hi : Inv h s σ) {c : PutCtx K V} {n : Addr} {lvl : Nat}
    (hpc : s.pc t = .put c (.link n lvl)) :
    let m' := s.mem.setNext (c.preds lvl) lvl n
    let s' := after s t m' (.put c (if lvl + 1 < c.height then .link n (lvl + 1) else .full n))
    Inv (Function.update h n (lvl + 1)) s' (Observed.observe s' σ) ∧ mapOf m' = mapOf s.mem := by
  intro m' s'
  have hl : putOk s.mem h t c (.link n lvl) := by
    have := hi.locals t
    rwa [hpc] at this
  have hcan := link_can hl
  obtain ⟨hb, ⟨h1, h2, h3⟩, h4, h5, h6, h7⟩ := hl
  have hs' := hcan.shape hi.shape
  have hf : Frame t (s.pc t).newNode s.mem h m' (Function.update h n (lvl + 1)) := by
    rw [hpc]
    exact hcan.frame hi.shape (h3.owner _ (h4 lvl (le_refl _) h1).mem)
  have hb' := fun j hj => hf.between hi.shape (hb j hj)
  have h3' : LockedOk m' (Function.update h n (lvl + 1)) t c.key c.locked :=
    h3.store hi.shape hf rfl
  have hkeep : ∀ {j b}, j ≠ lvl → Valid s.mem c.locked (c.preds j) j b →
      Valid m' c.locked (c.preds j) j b := fun {j b} hj hv =>
    ⟨hv.mem, hv.unmarked, by rw [CanLink.setNext_eq fun he => hj he.2]; exact hv.next⟩
  have hdone : ∀ j, j < lvl + 1 → Valid m' c.locked (c.preds j) j n := by
    intro j hj
    by_cases hjl : j = lvl
    · subst hjl
      have hv := h4 j (le_refl _) h1
      exact ⟨hv.mem, hv.unmarked, CanLink.setNext_self⟩
    · exact hkeep hjl (h5 j (by omega))
  have h6' : NewNode m' (Function.update h n (lvl + 1)) c n (lvl + 1) :=
    ⟨h6.born, h6.rank, h6.top, h6.val, h6.notFull, h6.unmarked, by simp⟩
  have hlocal : LocalOk m' (Function.update h n (lvl + 1)) t
      (.put c (if lvl + 1 < c.height then .link n (lvl + 1) else .full n)) := by
    split
    · refine ⟨hb', ⟨by assumption, h2, h3'⟩, fun j hj hj' => hkeep (by omega) (h4 j (by omega) hj'),
        hdone, h6', fun j hj hj' => ?_⟩
      rw [CanLink.setNext_eq fun he => absurd he.2 (by omega)]
      exact h7 j (by omega) hj'
    · have hlast : lvl + 1 = c.height := by omega
      exact ⟨hb', ⟨by omega, h2, h3'⟩, fun j hj => hdone j (by omega), hlast ▸ h6'⟩
  have hlinking : (Pc.put c (if lvl + 1 < c.height then .link n (lvl + 1) else .full n)).linking =
      some (n, c.preds 0) := by
    split <;> rfl
  refine ⟨hi.move hf hs' hlocal ⟨fun a ha0 hfull => ?_, fun a hma ha0 => .inr ⟨hma, ?_, ?_⟩,
      fun a hnew => .inl ?_, fun a p hp => .inl ?_, fun c' p hc => ?_⟩
    (hi.locks.of_same rfl rfl rfl rfl) (fun _ _ => rfl) (put_status hi hpc hf hs'),
    hcan.mapOf_eq hi.shape⟩
  · by_cases han : a = n
    · exact .inl ⟨c.preds 0, by rw [han]; exact hlinking⟩
    · refine .inr ⟨by simpa [han] using ha0, hfull, fun p hp => ?_⟩
      rw [hpc] at hp
      exact han (Prod.mk.inj (Option.some.inj hp)).1.symm
  · have han : a ≠ n := by
      rintro rfl
      have hma : s.mem.marked a = true := hma
      simp [h6.unmarked] at hma
    simpa [han] using ha0
  · rw [hpc]
    exact nofun
  · rw [hpc]
    split at hnew <;> exact hnew
  · rw [hpc] at hp
    exact hlinking.trans hp
  · split at hc <;> cases hc

/-! ## Commits -/

/-- How the operations stand after thread `t` has committed. -/
def committed (σ : Statuses T K V) (t : T) (op : MapOp K V) (r : MapRes V) : Statuses T K V :=
  Function.update σ t (.done op r)

omit [LinearOrder K] in
/-- The effect of one operation is not another's. -/
theorem committed_others {s' : State T K V} {op : MapOp K V} {r : MapRes V} (u : T) (hu : u ≠ t) :
    Observed.observe s' (committed σ t op r) u = Observed.observe s' σ u := by
  simp [Observed.observe, committed, hu]

omit [LinearOrder K] in
/-- An operation that has taken effect has its result. -/
theorem committed_self {s' : State T K V} {op : MapOp K V} {r : MapRes V} :
    Observed.observe s' (committed σ t op r) t = .done op r := by
  simp [Observed.observe, committed]

/-- A commit: the new state, the map after it and the result. -/
structure Commits (h : Addr → Nat) (s : State T K V) (σ : Statuses T K V) (t : T) (op : MapOp K V)
    (r : MapRes V) (m' : Mem T K V) (p' : Pc K V) : Prop where
  pending : ∃ Z, σ t = .pending op Z
  inv : Inv h (after s t m' p') (Observed.observe (after s t m' p') (committed σ t op r))
  apply : op.apply (mapOf s.mem) = (mapOf m', r)

/-- The last store of an insertion. -/
theorem full_commits (hi : Inv h s σ) {c : PutCtx K V} {n : Addr} (hpc : s.pc t = .put c (.full n)) :
    Commits h s σ t (.put c.key c.val) (.flag true) (s.mem.setFull n)
      (.release (.put c.key c.val) c.locked (some true)) := by
  have hl : putOk s.mem h t c (.full n) := by
    have := hi.locals t
    rwa [hpc] at this
  obtain ⟨hb, ⟨h1, h2, h3⟩, h4, h5⟩ := hl
  obtain ⟨Z, hσ, hh, -⟩ := (statusOk_running rfl).mp (hpc ▸ hi.status t)
  have hheight : h n = s.mem.top n + 1 := by
    rw [h5.height, h5.top]
    omega
  have h0 : 0 < h n := by omega
  obtain ⟨hnone, hmap⟩ := hi.shape.mapOf_setFull hheight h5.rank h5.notFull h5.unmarked
  have hf : Frame t (s.pc t).newNode s.mem h (s.mem.setFull n) h := by
    rw [hpc]
    exact Frame.setFull hi.shape h0
  refine ⟨⟨Z, hσ⟩, hi.move hf (hi.shape.setFull hheight) ⟨h3.nodup, h3.owner⟩
    ⟨fun a ha0 hfull => ?_, fun a hma ha0 => .inr ⟨hma, ha0, ?_⟩, fun a hnew => (nomatch hnew),
      fun a p hp => .inr ?_, fun c' p hc => nomatch hc⟩ (hi.locks.of_same rfl rfl rfl rfl)
    committed_others committed_self, ?_⟩
  · have han : a ≠ n := by
      rintro rfl
      simp [Mem.setFull] at hfull
    refine .inr ⟨ha0, by simpa [Mem.setFull, han] using hfull, fun p hp => ?_⟩
    rw [hpc] at hp
    exact han (Prod.mk.inj (Option.some.inj hp)).1.symm
  · intro hu
    rw [hpc] at hu
    cases hu
  · rw [hpc] at hp
    obtain ⟨rfl, -⟩ := Prod.mk.inj (Option.some.inj hp)
    simp [Mem.setFull]
  · rw [hmap, h5.val]
    simp [MapOp.apply, hnone]

/-- The store of a value. -/
theorem store_commits (hi : Inv h s σ) {k : K} {v : V} {n : Addr}
    (hpc : s.pc t = .update k v n .store) :
    Commits h s σ t (.put k v) (.flag false) (s.mem.setVal n v) (.update k v n .unlock) := by
  have hl : updateOk s.mem h t k n .store := by
    have := hi.locals t
    rwa [hpc] at this
  obtain ⟨⟨hr, hw⟩, h1, h2, h3⟩ := hl
  obtain ⟨Z, hσ, hh, -⟩ := (statusOk_running rfl).mp (hpc ▸ hi.status t)
  obtain ⟨hsome, hmap⟩ :=
    hi.shape.mapOf_setVal (v := v) (Shape.linked_of_unmarked hw h2) hr h3 h2
  have hf : Frame t (s.pc t).newNode s.mem h (s.mem.setVal n v) h := by
    rw [hpc]
    exact Frame.setVal hi.shape v h2 h3
  refine ⟨⟨Z, hσ⟩, hi.move hf (hi.shape.setVal n v) ⟨⟨hr, hw⟩, h1⟩
    ⟨fun a ha0 hfull => .inr ⟨ha0, hfull, ?_⟩, fun a hma ha0 => .inr ⟨hma, ha0, ?_⟩,
      fun a hnew => (nomatch hnew), fun a p hp => ?_, fun c' p hc => nomatch hc⟩
    (hi.locks.of_same rfl rfl rfl rfl) committed_others committed_self, ?_⟩
  · intro p hp
    rw [hpc] at hp
    cases hp
  · intro hu
    rw [hpc] at hu
    cases hu
  · rw [hpc] at hp
    cases hp
  · rw [hmap]
    simp [MapOp.apply, hsome]

/-- The mark of a victim. -/
theorem mark_commits (hi : Inv h s σ) {c : RemoveCtx K} (hpc : s.pc t = .remove c .mark) :
    Commits h s σ t (.remove c.key) (.flag true) (s.mem.setMarked c.victim)
      (.remove c (.loadNext (s.mem.top c.victim))) := by
  have hl : removeOk s.mem h t c .mark := by
    have := hi.locals t
    rwa [hpc] at this
  obtain ⟨⟨⟨hr, hw⟩, hb⟩, ⟨h1, h3⟩, h4, h5, h6⟩ := hl
  obtain ⟨Z, hσ, hh, -⟩ := (statusOk_running rfl).mp (hpc ▸ hi.status t)
  have hheight := hi.shape.full c.victim h1 (hi.shape.lt_fresh hw) h6
  have h0 : 0 < h c.victim := by omega
  obtain ⟨hsome, hmap⟩ := hi.shape.mapOf_setMarked hheight hr h1 h6
  have hf : Frame t (s.pc t).newNode s.mem h (s.mem.setMarked c.victim) h := by
    rw [hpc]
    exact Frame.setMarked hi.shape h5 h1 h0
  have hb' : ∀ j, j < maxLevel → Was (s.mem.setMarked c.victim) h (c.preds j) j ∧
      s.mem.rank (c.preds j) < rankOf c.key := fun j hj => ⟨hf.was _ _ (hb j hj).1, (hb j hj).2⟩
  refine ⟨⟨Z, hσ⟩, hi.move hf (hi.shape.setMarked hr h1 hheight)
    ⟨⟨⟨hr, hf.was _ _ hw⟩, hb'⟩, ⟨le_refl _, h3.store hi.shape hf rfl⟩, fun j hj => ?_, h5,
      by simp [Mem.setMarked], hheight⟩
    ⟨fun a ha0 hfull => .inr ⟨ha0, hfull, ?_⟩, fun a hma ha0 => ?_,
      fun a hnew => (nomatch hnew), fun a p hp => ?_, fun c' p hc => nomatch hc⟩
    (hi.locks.of_same rfl rfl rfl rfl) committed_others committed_self, ?_⟩
  · have hv := h4 j hj
    have hne : c.preds j ≠ c.victim := by
      intro he
      have := h3.left _ hv.mem
      rw [he, hr] at this
      exact lt_irrefl _ this
    exact ⟨hv.mem, by simpa [Mem.setMarked, hne] using hv.unmarked, hv.next⟩
  · intro p hp
    rw [hpc] at hp
    cases hp
  · rcases Mem.setMarked_marked hma with rfl | hma
    · exact .inl rfl
    · refine .inr ⟨hma, ha0, ?_⟩
      intro hu
      rw [hpc] at hu
      cases hu
  · rw [hpc] at hp
    cases hp
  · rw [hmap]
    simp [MapOp.apply, hsome]

/-! ## The unlink of a level -/

omit [DecidableEq T] in
/-- A removal may unlink the next level of its victim. -/
theorem unlink_can (hi : Inv h s σ) {c : RemoveCtx K} {lvl : Nat} {succ : Addr}
    (hpc : s.pc t = .remove c (.unlink lvl succ)) :
    CanUnlink s.mem h c.victim (c.preds lvl) lvl := by
  have hl : removeOk s.mem h t c (.unlink lvl succ) := by
    have := hi.locals t
    rwa [hpc] at this
  obtain ⟨⟨⟨hr, hw⟩, hb⟩, ⟨h1, h3⟩, h4, h5, h6, h7, h8⟩ := hl
  have hv := h4 lvl (le_refl _)
  have hbl := hb lvl (lt_of_le_of_lt h1 (hi.shape.top _))
  have hvt := hi.shape.ne_tail_of_rank hr
  refine ⟨Shape.linked_of_unmarked hbl.1 hv.unmarked, hv.unmarked, hv.next, ?_, hvt, h7, h6,
    fun h0 => ?_⟩
  · rw [hr]
    exact hbl.2
  · -- an insertion right behind the victim would hold the victim's lock
    by_contra hf
    have hlink := (hi.shape.succ c.victim 0 (by omega) hvt).1
    obtain ⟨u, p, hu⟩ := hi.linking _ hlink (by simpa using hf)
    obtain ⟨howner, hp, hnext, hpt⟩ := hi.linking_pred hu hlink
    obtain rfl := hi.shape.pred_unique hp (by omega) hpt hvt hnext
    obtain rfl := Option.some.inj (h5.symm.trans howner)
    rw [hpc] at hu
    cases hu

/-- The unlink of a level. -/
theorem unlink_inv (hi : Inv h s σ) {c : RemoveCtx K} {lvl : Nat} {succ : Addr} {p' : Pc K V}
    (hp' : p' = match lvl with
      | 0 => .remove c (.unlockVictim true)
      | lvl + 1 => .remove c (.loadNext lvl))
    (hpc : s.pc t = .remove c (.unlink lvl succ)) :
    let m' := s.mem.setNext (c.preds lvl) lvl succ
    let s' := after s t m' p'
    Inv (Function.update h c.victim lvl) s' (Observed.observe s' σ) ∧ mapOf m' = mapOf s.mem := by
  intro m' s'
  have hl : removeOk s.mem h t c (.unlink lvl succ) := by
    have := hi.locals t
    rwa [hpc] at this
  have hcan := unlink_can hi hpc
  obtain ⟨⟨⟨hr, hw⟩, hb⟩, ⟨h1, h3⟩, h4, h5, h6, h7, rfl⟩ := hl
  have hst : σ t = .done (.remove c.key) (.flag true) := by
    have := hi.status t
    rwa [hpc] at this
  have hs' := hcan.shape hi.shape
  have hf : Frame t (s.pc t).newNode s.mem h m' (Function.update h c.victim lvl) := by
    rw [hpc]
    exact hcan.frame hi.shape (h3.owner _ (h4 lvl (le_refl _)).mem) h5
  have hb' : ∀ j, j < maxLevel → Was m' (Function.update h c.victim lvl) (c.preds j) j ∧
      s.mem.rank (c.preds j) < rankOf c.key := fun j hj => ⟨hf.was _ _ (hb j hj).1, (hb j hj).2⟩
  have h3' : LockedOk m' (Function.update h c.victim lvl) t c.key c.locked :=
    h3.store hi.shape hf rfl
  have hlocal : LocalOk m' (Function.update h c.victim lvl) t p' := by
    subst hp'
    cases lvl with
    | zero => exact ⟨⟨⟨hr, hf.was _ _ hw⟩, hb'⟩, h3', h5⟩
    | succ lvl =>
        refine ⟨⟨⟨hr, hf.was _ _ hw⟩, hb'⟩, ⟨?_, h3'⟩, fun j hj => ?_, h5, h6, by simp⟩
        · exact Nat.le_of_succ_le h1
        · have hv := h4 j (by omega)
          exact ⟨hv.mem, hv.unmarked,
            by rw [CanLink.setNext_eq fun he => absurd he.2 (by omega)]; exact hv.next⟩
  have hties : p'.linking = none ∧ p'.newNode = none ∧ p'.candidate = none := by
    subst hp'
    cases lvl <;> exact ⟨rfl, rfl, rfl⟩
  refine ⟨hi.move hf hs' hlocal ⟨fun a ha0 hfull => .inr ⟨?_, hfull, ?_⟩, fun a hma ha0 => ?_,
      fun a hnew => ?_, fun a p hp => ?_, fun c' p hc => ?_⟩
    (hi.locks.of_same rfl rfl rfl rfl) (fun _ _ => rfl) ?_, hcan.mapOf_eq hi.shape⟩
  · exact lt_of_lt_of_le ha0 (hcan.le a)
  · intro p
    rw [hpc]
    exact nofun
  · by_cases hav : a = c.victim
    · -- the victim is still linked below
      subst hp'
      cases lvl with
      | zero => simp [hav] at ha0
      | succ lvl => exact .inl (by rw [hav]; rfl)
    · refine .inr ⟨hma, by simpa [hav] using ha0, fun hu => ?_⟩
      rw [hpc] at hu
      exact hav (Option.some.inj hu).symm
  · rw [hties.2.1] at hnew
    cases hnew
  · rw [hpc] at hp
    cases hp
  · rw [hties.2.2] at hc
    cases hc
  · subst hp'
    cases lvl <;> simp [statusOk, Pc.phase, Observed.observe, hst]

/-! ## Every step -/

variable [Inhabited V] {kind : LockKind} {choice : Choice K V}

/-- The condition of the proof: the version of a predecessor that an optimistic
lookup is about to validate has not wrapped around since it was taken. -/
def NoWrap (s : State T K V) (a : T × Choice K V) : Prop :=
  ∀ k pred v c vc, s.pc a.1 = .optimistic k (.checkPred pred v c vc) →
    s.mem.version pred < v + 2 ^ 64

/-- A step that keeps the invariant and pays what it owes. -/
def Pays (kind : LockKind) (s : State T K V) (σ : Statuses T K V) (a : T × Choice K V)
    (s' : State T K V) : Prop :=
  (∃ h, Inv h s' ((index T K V kind).track MapOp.apply (mapOf s.mem) σ s a s')) ∧
    (index T K V kind).Owes MapOp.apply (fun s => mapOf s.mem) σ s a s'

/-- A step that is no call, no return and no commit. -/
theorem pays_silent (hev : (index T K V kind).event s (t, choice) = none)
    (hcm : (s.pc t).commits = false) (hmap : mapOf m' = mapOf s.mem)
    (hi : Inv h (after s t m' p') (Observed.observe (after s t m' p') σ)) :
    Pays kind s σ (t, choice) (after s t m' p') := by
  have hcm' : (index T K V kind).commit s (t, choice) = none := by simp [index, hcm]
  refine ⟨⟨h, ?_⟩, ?_⟩
  · simp only [Observed.track, hev, hcm']
    exact hi
  · simp only [Observed.Owes, hev, hcm']
    exact hmap

/-- A step that commits. -/
theorem pays_commit {op : MapOp K V} {r : MapRes V}
    (hev : (index T K V kind).event s (t, choice) = none) (hcm : (s.pc t).commits = true)
    (hc : Commits h s σ t op r m' p') : Pays kind s σ (t, choice) (after s t m' p') := by
  have hcm' : (index T K V kind).commit s (t, choice) = some t := by simp [index, hcm]
  obtain ⟨Z, hσ⟩ := hc.pending
  refine ⟨⟨h, ?_⟩, ?_⟩
  · simp only [Observed.track, hev, hcm', hσ, Observed.close, hc.apply]
    exact hc.inv
  · simp only [Observed.Owes, hev, hcm']
    refine ⟨op, Z, hσ, ?_⟩
    rw [hc.apply]
    rfl

/-- A step that stores no data. -/
theorem Quiet.pays (hq : Quiet h s σ t m' p') (hi : Inv h s σ)
    (hev : (index T K V kind).event s (t, choice) = none) (hcm : (s.pc t).commits = false) :
    Pays kind s σ (t, choice) (after s t m' p') :=
  pays_silent hev hcm (hq.locks.mapOf_eq hi.shape) (hq.inv hi)

omit [DecidableEq T] [Inhabited V] in
/-- The first point of an operation. -/
theorem enter_ok (hs : Shape s.mem h) (c : Call K V) {Z : Set (State T K V)} (hnow : s ∈ Z) :
    LocalOk s.mem h t c.enter ∧ seenOk s.mem Z c.enter ∧ c.enter.phase = .running c.op ∧
      c.enter.ties = (none, none, none) ∧ c.enter.candidate = none := by
  cases c with
  | get mode k => exact ⟨trivial, trivial, rfl, rfl, rfl⟩
  | getOptimistic k => exact ⟨trivial, trivial, rfl, rfl, rfl⟩
  | put k v =>
      obtain ⟨h1, h2⟩ := startFind_ok (t := t) (u := .put k v) hs hnow
      exact ⟨h1, h2, rfl, rfl, rfl⟩
  | remove k =>
      obtain ⟨h1, h2⟩ := startFind_ok (t := t) (u := .remove k) hs hnow
      exact ⟨h1, h2, rfl, rfl, rfl⟩

/-- A call. -/
theorem call_pays (hi : Inv h s σ) {c : Call K V} (hpc : s.pc t = .idle) :
    Pays kind s σ (t, .call c) (after s t s.mem c.enter) := by
  have hev : (index T K V kind).event s (t, .call c) = some (.call t c.op) := by
    simp [index, hpc]
  have hσ : σ t = .idle := by
    have := hi.status t
    rwa [hpc] at this
  have hs : Shape (after s t s.mem c.enter).mem h := hi.shape
  obtain ⟨h1, h2, h3, h4, h5⟩ := enter_ok (t := t) hs c
    (Set.mem_insert (after s t s.mem c.enter) ∅)
  obtain ⟨h4, h6⟩ := Prod.mk.inj h4
  obtain ⟨h6, h7⟩ := Prod.mk.inj h6
  refine ⟨⟨h, ?_⟩, ?_⟩
  · simp only [Observed.track, hev]
    refine hi.quiet (.refl t _) h1 (by rw [h4, hpc]; rfl) (by rw [h6, hpc]; rfl)
      (by rw [h7, hpc]; rfl) (fun c' p hc => ?_) (fun u hu => ?_) ?_
    · rw [h5] at hc
      cases hc
    · simp [Observed.observe, hu]
    · refine (statusOk_running h3).mpr ⟨_, ?_, Hist.start hs, h2⟩
      simp [Observed.observe]
  · simp only [Observed.Owes, hev]
    exact ⟨hσ, rfl⟩

/-- A return. -/
theorem return_pays (hi : Inv h s σ) {r : MapRes V} (hpc : s.pc t = .returned r) :
    Pays kind s σ (t, choice) (after s t s.mem .idle) := by
  have hev : (index T K V kind).event s (t, choice) = some (.ret t r) := by
    simp [index, hpc]
  have hst : statusOk s h (.returned r) (σ t) := by
    have := hi.status t
    rwa [hpc] at this
  refine ⟨⟨h, ?_⟩, ?_⟩
  · simp only [Observed.track, hev]
    have hlocal : LocalOk s.mem h t (.idle : Pc K V) := trivial
    refine hi.quiet (.refl t _) hlocal (by rw [hpc]; rfl) (by rw [hpc]; rfl) (by rw [hpc]; rfl)
      (fun c' p hc => (nomatch hc)) (fun u hu => ?_) ?_
    · simp [Observed.observe, hu]
    · change Observed.observe _ (Function.update σ t .idle) t = .idle
      simp [Observed.observe]
  · simp only [Observed.Owes, hev]
    exact ⟨rfl, hst⟩

/-- **Every step keeps the invariant and pays what it owes to the map.** -/
theorem step_pays (hi : Inv h s σ) (hwrap : NoWrap s (t, choice))
    (hnext : next kind t s.mem (s.pc t) choice = some (m', p')) :
    Pays kind s σ (t, choice) (after s t m' p') := by
  cases hpc : s.pc t with
  | idle =>
      simp only [next, hpc] at hnext
      split at hnext
      · split at hnext
        · obtain ⟨rfl, rfl⟩ := Prod.mk.inj (Option.some.inj hnext)
          exact call_pays hi hpc
        · cases hnext
      · cases hnext
  | find u lvl pred f =>
      simp only [next, hpc] at hnext
      obtain ⟨rfl, rfl⟩ := Prod.mk.inj (Option.some.inj hnext)
      exact (find_quiet hi hpc).pays hi (by simp [index, hpc]) (by rw [hpc]; rfl)
  | update k v n p =>
      simp only [next, hpc] at hnext
      by_cases hp : p = .store
      · subst hp
        obtain ⟨rfl, rfl⟩ := Prod.mk.inj (Option.some.inj hnext)
        exact pays_commit (by simp [index, hpc]) (by rw [hpc]; rfl) (store_commits hi hpc)
      · refine (update_quiet hi hpc hp hnext).pays hi (by simp [index, hpc]) ?_
        rw [hpc]
        cases p <;> first | rfl | exact absurd rfl hp
  | put c p =>
      simp only [next, hpc] at hnext
      have hev : (index T K V kind).event s (t, choice) = none := by simp [index, hpc]
      cases p with
      | new =>
          obtain ⟨rfl, rfl⟩ := Prod.mk.inj (Option.some.inj hnext)
          obtain ⟨h1, h2⟩ := alloc_inv hi hpc
          exact pays_silent hev (by rw [hpc]; rfl) h2 h1
      | fill n lvl =>
          obtain ⟨rfl, rfl⟩ := Prod.mk.inj (Option.some.inj hnext)
          obtain ⟨h1, h2⟩ := fill_inv hi hpc
          exact pays_silent hev (by rw [hpc]; rfl) h2 h1
      | link n lvl =>
          obtain ⟨rfl, rfl⟩ := Prod.mk.inj (Option.some.inj hnext)
          obtain ⟨h1, h2⟩ := link_inv hi hpc
          exact pays_silent hev (by rw [hpc]; rfl) h2 h1
      | full n =>
          obtain ⟨rfl, rfl⟩ := Prod.mk.inj (Option.some.inj hnext)
          exact pays_commit hev (by rw [hpc]; rfl) (full_commits hi hpc)
      | level | lock lvl | predMarked lvl | succMarked lvl | checkNext lvl =>
          exact (put_quiet hi hpc rfl nofun hnext).pays hi hev (by rw [hpc]; rfl)
  | remove c p =>
      simp only [next, hpc] at hnext
      have hev : (index T K V kind).event s (t, choice) = none := by simp [index, hpc]
      cases p with
      | mark =>
          obtain ⟨rfl, rfl⟩ := Prod.mk.inj (Option.some.inj hnext)
          exact pays_commit hev (by rw [hpc]; rfl) (mark_commits hi hpc)
      | unlink lvl succ =>
          obtain ⟨rfl, hp'⟩ := Prod.mk.inj (Option.some.inj hnext)
          obtain ⟨h1, h2⟩ := unlink_inv hi hp'.symm hpc
          exact pays_silent hev (by rw [hpc]; rfl) h2 h1
      | _ => exact (remove_quiet hi hpc nofun nofun hnext).pays hi hev (by rw [hpc]; rfl)
  | release u locked r =>
      simp only [next, hpc] at hnext
      exact (release_quiet hi hpc (Option.some.inj hnext)).pays hi (by simp [index, hpc])
        (by rw [hpc]; rfl)
  | get mode k p =>
      simp only [next, hpc] at hnext
      exact (get_quiet hi hpc hnext).pays hi (by simp [index, hpc]) (by rw [hpc]; rfl)
  | optimistic k p =>
      simp only [next, hpc] at hnext
      obtain ⟨rfl, rfl⟩ := Prod.mk.inj (Option.some.inj hnext)
      refine (optimistic_quiet hi hpc ?_).pays hi (by simp [index, hpc]) (by rw [hpc]; rfl)
      rintro pred v c vc rfl
      exact hwrap k pred v c vc hpc
  | returned r =>
      simp only [next, hpc] at hnext
      obtain ⟨rfl, rfl⟩ := Prod.mk.inj (Option.some.inj hnext)
      exact return_pays hi hpc

/-- The heights of the two sentinels. -/
def initHeight (a : Addr) : Nat := if a = head ∨ a = tail then maxLevel else 0

/-- Head and tail are linked at all levels at the start. -/
theorem initHeight_pos {a : Addr} {l : Nat} (ha : l < initHeight a) :
    l < maxLevel ∧ (a = head ∨ a = tail) := by
  unfold initHeight at ha
  split at ha
  · exact ⟨ha, by assumption⟩
  · exact absurd ha (Nat.not_lt_zero l)

omit [DecidableEq T] in
/-- The lists are empty at the start. -/
theorem init_shape : Shape (initMem : Mem T K V) initHeight := by
  have hrank : ∀ a, (initMem : Mem T K V).rank a = if a = head then ⊥ else ⊤ := fun _ => rfl
  refine ⟨le_refl _, rfl, rfl, rfl, rfl, rfl, rfl, rfl, fun a b ha hb hr => ?_,
    fun a l ha hat => ?_, fun a l ha hl => ?_, fun a ha => (nomatch ha), fun a => ?_, fun a => ?_,
    fun a hf _ _ => ?_, fun a ha => (nomatch ha), fun a ha => ⟨?_, rfl⟩⟩
  · rw [hrank, hrank] at hr
    obtain ⟨-, rfl | rfl⟩ := initHeight_pos ha <;> obtain ⟨-, rfl | rfl⟩ := initHeight_pos hb
    · rfl
    · simp [head, tail] at hr
    · simp [head, tail] at hr
    · rfl
  · obtain ⟨hl, rfl | rfl⟩ := initHeight_pos ha
    · refine ⟨hl, ?_, fun b hb hr => ?_⟩
      · exact bot_lt_top
      · obtain ⟨-, rfl | rfl⟩ := initHeight_pos hb
        · exact absurd hr (lt_irrefl _)
        · exact le_refl _
    · exact absurd rfl hat
  · rcases ha with ha | ha
    · exact absurd ha hl
    · cases ha.1
  · unfold initHeight
    split
    · exact le_refl _
    · exact Nat.zero_le _
  · exact Nat.lt_succ_self _
  · have ha : a = head ∨ a = tail := by simpa [initMem] using hf
    simp [initHeight, ha, initMem, maxLevel]
  · have h2 : 2 ≤ a := ha
    have : ¬ (a = head ∨ a = tail) := by
      rintro (rfl | rfl)
      · exact absurd h2 (by decide)
      · exact absurd h2 (by decide)
    simp [initHeight, this]

/-- **The proof rule applies.** -/
theorem sound (kind : LockKind) :
    (index T K V kind).Sound NoWrap MapOp.apply (fun s => mapOf s.mem)
      (fun s σ => ∃ h, Inv h s σ) where
  init := by
    refine ⟨initHeight, init_shape, fun t => trivial, fun n h0 hf => ?_, fun a hm => (nomatch hm),
      fun t u n hn => (nomatch hn), fun t c p hc => (nomatch hc), ⟨fun a => ?_, fun a ha => rfl,
      fun a ha => ⟨rfl, rfl⟩⟩, fun t => rfl⟩
    · have hf : decide (n = head ∨ n = tail) = false := hf
      exact absurd (initHeight_pos h0).2 (by simpa using hf)
    · change 0 % 2 = 1 ↔ (none : Option T) ≠ none
      simp
  step := by
    rintro s σ ⟨t, choice⟩ s' ⟨h, hi⟩ hwrap hstep
    obtain ⟨m', p', hnext, rfl⟩ := interleave_step_cases hstep
    exact step_pays hi hwrap hnext

end Sound

/-! ## Locks without optimistic lookups -/

section Locked

variable {T K V : Type} [DecidableEq T] [LinearOrder K]

/-- A thread at this point is inside `get_optimistic`. -/
def Pc.inOptimistic : Pc K V → Bool
  | .optimistic _ _ => true
  | _ => false

omit [DecidableEq T] in
/-- A search of an update is no optimistic lookup. -/
theorem findStep_inOptimistic (m : Mem T K V) (u : Upd K V) (lvl : Nat) (pred : Addr) (f : Found) :
    (findStep m u lvl pred f).inOptimistic = false := by
  have hat : ∀ f, (foundAt u f).inOptimistic = false := by
    intro f
    unfold foundAt
    split <;> rfl
  unfold findStep
  simp only
  split
  · rfl
  · split
    · exact hat _
    · rfl

/-- A thread of an index without optimistic lookups is never inside one. -/
theorem next_inOptimistic {kind : LockKind} (hkind : kind.optimistic = false) {t : T}
    {m m' : Mem T K V} {p p' : Pc K V} {c : Choice K V} (hp : p.inOptimistic = false)
    (hnext : next kind t m p c = some (m', p')) : p'.inOptimistic = false := by
  cases p with
  | idle =>
      simp only [next] at hnext
      split at hnext
      · split at hnext
        · rename_i c hoffers
          obtain ⟨-, rfl⟩ := Prod.mk.inj (Option.some.inj hnext)
          cases c with
          | getOptimistic k => simp [LockKind.offers, hkind] at hoffers
          | _ => rfl
        · cases hnext
      · cases hnext
  | find u lvl pred f =>
      obtain ⟨-, rfl⟩ := Prod.mk.inj (Option.some.inj hnext)
      exact findStep_inOptimistic m u lvl pred f
  | update k v n p =>
      cases p with
      | lock =>
          obtain ⟨m'', -, heq⟩ := Option.map_eq_some_iff.mp hnext
          obtain ⟨-, rfl⟩ := Prod.mk.inj heq
          rfl
      | _ =>
          obtain ⟨-, rfl⟩ := Prod.mk.inj (Option.some.inj hnext)
          rfl
  | put ctx p =>
      cases p with
      | level =>
          simp only [next, putStep] at hnext
          grind [Pc.inOptimistic]
      | lock lvl =>
          simp only [next, putStep] at hnext
          split at hnext
          · obtain ⟨-, rfl⟩ := Prod.mk.inj (Option.some.inj hnext)
            rfl
          · obtain ⟨m'', -, heq⟩ := Option.map_eq_some_iff.mp hnext
            obtain ⟨-, rfl⟩ := Prod.mk.inj heq
            rfl
      | predMarked lvl | succMarked lvl | checkNext lvl =>
          obtain ⟨-, rfl⟩ := Prod.mk.inj (Option.some.inj hnext)
          split
          · rfl
          · first | rfl | (split <;> rfl)
      | _ =>
          obtain ⟨-, rfl⟩ := Prod.mk.inj (Option.some.inj hnext)
          rfl
  | remove ctx p =>
      cases p with
      | lock lvl =>
          simp only [next, removeStep] at hnext
          split at hnext
          · obtain ⟨-, rfl⟩ := Prod.mk.inj (Option.some.inj hnext)
            rfl
          · obtain ⟨m'', -, heq⟩ := Option.map_eq_some_iff.mp hnext
            obtain ⟨-, rfl⟩ := Prod.mk.inj heq
            rfl
      | lockVictim =>
          obtain ⟨m'', -, heq⟩ := Option.map_eq_some_iff.mp hnext
          obtain ⟨-, rfl⟩ := Prod.mk.inj heq
          rfl
      | fullyLinked l | marked | predMarked lvl | checkNext lvl | unlink lvl succ =>
          obtain ⟨-, rfl⟩ := Prod.mk.inj (Option.some.inj hnext)
          split
          · rfl
          · first | rfl | (split <;> rfl)
      | _ =>
          obtain ⟨-, rfl⟩ := Prod.mk.inj (Option.some.inj hnext)
          rfl
  | release u locked r =>
      obtain ⟨-, h⟩ := Prod.mk.inj (Option.some.inj hnext)
      cases locked with
      | cons a rest => subst h; rfl
      | nil => cases r <;> subst h <;> rfl
  | get mode k p =>
      cases p with
      | lockHead | lockNext lvl pred x | lockCurr pred c =>
          obtain ⟨m'', -, heq⟩ := Option.map_eq_some_iff.mp hnext
          obtain ⟨-, rfl⟩ := Prod.mk.inj heq
          rfl
      | _ =>
          obtain ⟨-, rfl⟩ := Prod.mk.inj (Option.some.inj hnext)
          rfl
  | optimistic k p => cases hp
  | returned r =>
      obtain ⟨-, rfl⟩ := Prod.mk.inj (Option.some.inj hnext)
      rfl

variable [Inhabited V]

omit [DecidableEq T] in
/-- The empty index is the empty map. -/
theorem mapOf_init : mapOf (initMem : Mem T K V) = fun _ => none := by
  funext k
  refine init_shape.mapOf_eq_none fun a ha hr => ?_
  obtain ⟨-, rfl | rfl⟩ := initHeight_pos ha
  · exact absurd hr.symm WithBot.coe_ne_bot
  · exact absurd (WithBot.coe_injective hr.symm) WithTop.coe_ne_top

/-- Without optimistic lookups no version is ever validated. -/
theorem run_noWrap {kind : LockKind} (hkind : kind.optimistic = false) {s : State T K V}
    {H : List (Event T (MapOp K V) (MapRes V))}
    (hrun : (index T K V kind).Run (fun _ _ => True) s H) :
    (index T K V kind).Run NoWrap s H ∧ ∀ t, (s.pc t).inOptimistic = false := by
  induction hrun with
  | init => exact ⟨.init, fun _ => rfl⟩
  | @step s s' a H _ _ hstep ih =>
      obtain ⟨hrun, hpcs⟩ := ih
      obtain ⟨m', p', hnext, rfl⟩ := interleave_step_cases hstep
      refine ⟨hrun.step (fun k pred v c vc hpc => ?_) hstep, fun t => ?_⟩
      · have := hpcs a.1
        rw [hpc] at this
        cases this
      · by_cases ht : t = a.1
        · subst ht
          simpa using next_inOptimistic hkind (hpcs a.1) hnext
        · simpa [ht] using hpcs t

/-- **Linearizability of the skip list.**  With any mutex or reader-writer lock, every
history of `get`, `get_shared`, `put` and `remove` has a linearization that runs the
map from the empty one to the one the index holds. -/
theorem locked_linearizable (shared : Bool) {s : State T K V}
    {H : List (Event T (MapOp K V) (MapRes V))}
    (hrun : (index T K V ⟨shared, false⟩).Run (fun _ _ => True) s H) :
    Linearizable MapOp.apply (fun _ => none) H (mapOf s.mem) := by
  have hlin := (sound ⟨shared, false⟩).linearizable (run_noWrap rfl hrun).1
  rwa [show (index T K V ⟨shared, false⟩).machine.init.mem = initMem from rfl, mapOf_init] at hlin

/-- Two threads: an insertion that draws height 2, a lookup that waits for it under
read locks, an overwrite and a removal. -/
def sampleRun : List (Fin 2 × Choice Nat Nat) :=
  (0, .call (.put 7 70)) :: (1, .call (.get .shared 7)) ::
    (List.replicate 16 (0, .go) ++ (0, .level 2) :: List.replicate 17 (0, .go) ++
     List.replicate 24 (1, .go) ++
     (1, .call (.put 7 71)) :: List.replicate 22 (1, .go) ++
     (0, .call (.remove 7)) :: List.replicate 35 (0, .go))

/-- What the sample run leaves. -/
def sampleHistory : List (Event (Fin 2) (MapOp Nat Nat) (MapRes Nat)) :=
  [.call 0 (.put 7 70), .call 1 (.get 7), .ret 0 (.flag true), .ret 1 (.value (some 70)),
    .call 1 (.put 7 71), .ret 1 (.flag false), .call 0 (.remove 7), .ret 0 (.flag true)]

/-- A run of two threads. -/
theorem locked_linearizable_sample :
    ∃ s : State (Fin 2) Nat Nat,
      (index (Fin 2) Nat Nat ⟨true, false⟩).Run (fun _ _ => True) s sampleHistory ∧
      Linearizable MapOp.apply (fun _ => none) sampleHistory (mapOf s.mem) := by
  have hexec : ((index (Fin 2) Nat Nat ⟨true, false⟩).exec
      (index (Fin 2) Nat Nat ⟨true, false⟩).machine.init [] sampleRun).map (·.2) =
      some sampleHistory := by
    decide +kernel
  obtain ⟨⟨s, H⟩, hrun, rfl⟩ := Option.map_eq_some_iff.mp hexec
  have hrun := Observed.Run.init.exec hrun
  exact ⟨s, hrun, locked_linearizable true hrun⟩

end Locked
end SkipList
