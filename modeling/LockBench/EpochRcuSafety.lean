import LockBench.EpochRcuInvariant

/-!
# Safety of the RCU benchmark

Two results are read off the invariant.  On x86-TSO a reader never dereferences a
deleted block, provided its slot store is in memory when it loads `data_ptr`; a
delayed slot store lets a whole write pass unseen, and the schedule that shows it
is below.  Under sequential consistency there is no such proviso, and
`synchronize` gives real grace periods also when several calls overlap.
-/

namespace EpochRcu

open ReaderSlots

variable {n : Nat}

section UseAfterFree

variable {T : Type} {owner : Fin n → T} [DecidableEq T] [Fintype T]

/-- A block that a reader holds inside its section has not been deleted. -/
theorem Inv.held_live {s : TsoState T (Mem n) (Store n) (Local n)} (h : Inv owner s) {t : T}
    {i : Fin n} {e p : Nat} (hp : (s.pc t).pc.held = some (i, e, p)) : s.mem.frees p = 0 := by
  refine h.pinned p ((h.held t i e p hp).imp id ?_)
  rintro ⟨w, hw⟩
  refine ⟨w, ?_⟩
  unfold Pc.covers at hw
  split at hw
  · rename_i hpc
    simp [hpc, Pc.pins, hw]
  · rename_i hpc
    simp [hpc, Pc.pins, hw.1]
  · exact hw.elim

/-- **No use after free on x86-TSO.**  In every run of reads and writes whose
readers load `data_ptr` only once their slot store is in memory, with fewer than
`2^64 - 1` `synchronize` calls, a reader that is about to dereference its pointer
finds the block not deleted. -/
theorem tso_deref_live {s : TsoState T (Mem n) (Store n) (Local n)}
    (h : (tso owner).ReachableUnder (fun s a => ReaderFlushed s a ∧ EpochBelow s a) s)
    {t : T} {i : Fin n} {e p : Nat} (hpc : (s.pc t).pc = .rdDeref i e p) :
    s.mem.frees p = 0 :=
  (inv_reachable h).held_live (t := t) (i := i) (e := e) (by simp [hpc, Pc.held])

end UseAfterFree

/-- Two threads, each with a slot of its own. -/
def twoSlots (i : Fin 2) : Fin 2 := i

/-- Thread 1 swaps the pointer, waits out a grace period and deletes the old block. -/
def wholeWrite : List (TsoAct (Fin 2) (Choice 2)) :=
  .exec 1 .write :: List.replicate 10 (.exec 1 .go)

/-- Thread 0 buffers its slot store and loads `data_ptr`; thread 1 then runs a
whole write without seeing it. -/
def delayedSlot : List (TsoAct (Fin 2) (Choice 2)) :=
  .exec 0 (.read 0) :: .exec 0 .go :: .exec 0 .go :: .exec 0 .go :: wholeWrite

/-- The slot store is flushed first, and thread 1 comes as far as its scan. -/
def flushedSlot : List (TsoAct (Fin 2) (Choice 2)) :=
  .exec 0 (.read 0) :: .exec 0 .go :: .exec 0 .go :: .flush 0 :: .exec 0 .go :: wholeWrite

instance (s : TsoState (Fin 2) (Mem 2) (Store 2) (Local 2)) (a : TsoAct (Fin 2) (Choice 2)) :
    Decidable (EpochBelow s a) :=
  match a with
  | .exec _ _ => inferInstanceAs (Decidable (_ → _))
  | .flush _ => inferInstanceAs (Decidable True)

instance (s : TsoState (Fin 2) (Mem 2) (Store 2) (Local 2)) (a : TsoAct (Fin 2) (Choice 2)) :
    Decidable (ReaderFlushed s a) :=
  match a with
  | .exec _ _ => inferInstanceAs (Decidable (_ → _))
  | .flush _ => inferInstanceAs (Decidable True)

/-- A reader on x86-TSO about to dereference a block that is already deleted,
after a single `synchronize` call. -/
theorem tso_deref_deleted :
    ∃ s, (tso twoSlots).ReachableUnder EpochBelow s ∧
      (s.pc 0).pc = .rdDeref 0 0 0 ∧ s.mem.frees 0 = 1 := by
  have hrun : ((tso twoSlots).runChecked (fun s a => decide (EpochBelow s a))
      (tso twoSlots).init delayedSlot).map (fun s => ((s.pc 0).pc, s.mem.frees 0)) =
        some (.rdDeref 0 0 0, 1) := by
    decide +kernel
  obtain ⟨s, hs, hpc⟩ := Option.map_eq_some_iff.mp hrun
  have hreach := Machine.reachableUnder_of_runChecked (fun _ _ => of_decide_eq_true) hs
  exact ⟨s, hreach, congrArg Prod.fst hpc, congrArg Prod.snd hpc⟩

/-- With the slot store flushed, the writer waits for the same reader. -/
theorem tso_deref_flushedSlot :
    ∃ s, (tso twoSlots).ReachableUnder (fun s a => ReaderFlushed s a ∧ EpochBelow s a) s ∧
      (s.pc 0).pc = .rdDeref 0 0 0 ∧ (s.pc 1).pc = .syncScan (some (0, 1)) 1 0 ∧
      s.mem.frees 0 = 0 := by
  have hrun : ((tso twoSlots).runChecked
      (fun s a => decide (ReaderFlushed s a ∧ EpochBelow s a))
      (tso twoSlots).init flushedSlot).map (fun s => ((s.pc 0).pc, (s.pc 1).pc)) =
        some (.rdDeref 0 0 0, .syncScan (some (0, 1)) 1 0) := by
    decide +kernel
  obtain ⟨s, hs, hpc⟩ := Option.map_eq_some_iff.mp hrun
  have hreach := Machine.reachableUnder_of_runChecked (fun _ _ => of_decide_eq_true) hs
  have h0 : (s.pc 0).pc = .rdDeref 0 0 0 := congrArg Prod.fst hpc
  exact ⟨s, hreach, h0, congrArg Prod.snd hpc, tso_deref_live hreach h0⟩

section GracePeriods

variable {T : Type} {owner : Fin n → T} [DecidableEq T] [Fintype T]

/-- Fewer than `2^64 - 1` calls of `synchronize`, under sequential consistency. -/
def ScEpochBelow (s : ScState T (Mem n) (Local n)) (a : T × Choice n) : Prop :=
  belowInactive s.mem (s.pc a.1)

/-- Points of the slot scan of a `synchronize` call. -/
def Pc.scans : Pc n → Bool
  | .syncScan _ _ _ => true
  | _ => false

/-- The invariant, read off a sequentially consistent state. -/
theorem sc_inv {s : ScState T (Mem n) (Local n)} (h : (sc owner).ReachableUnder ScEpochBelow s) :
    Inv owner (Code.flushed s) := by
  refine inv_reachable (Code.sc_reachable_tso (fun _ _ => ⟨trivial, trivial⟩) ?_ h)
  exact fun s a hbelow => ⟨fun _ => rfl, hbelow⟩

/-- A read section that is open under sequential consistency shows in memory. -/
theorem sc_section_slot {s : ScState T (Mem n) (Local n)} (h : Inv owner (Code.flushed s)) {u : T}
    {i : Fin n} {e : Nat} (hu : (s.pc u).pc.sectionOf = some (i, e)) :
    s.mem.slot i = e ∧ e ≤ s.mem.globalEpoch := by
  refine ⟨h.published u i e hu, h.epoch u i e ?_⟩
  cases hp : (s.pc u).pc <;> simp_all [Pc.sectionOf, Pc.epochOf, Code.flushed]

/-- The read section of `u` is still the one that was open when `t` bumped the
epoch, and the scan of `t` has not passed its slot. -/
def Awaited (t u : T) (i : Fin n) (e r : Nat) (s : ScState T (Mem n) (Local n)) : Prop :=
  (s.pc u).pc.sectionOf = some (i, e) ∧ (s.pc u).reads = r ∧
    ∃ k newEpoch j, (s.pc t).pc = .syncScan k newEpoch j ∧ j ≤ i ∧ e < newEpoch

omit [Fintype T] in
/-- A step leaves the other threads where they are. -/
theorem sc_step_other {s s' : ScState T (Mem n) (Local n)} {a : T × Choice n}
    (h : (sc owner).step s a = some s') {u : T} (hu : u ≠ a.1) : s'.pc u = s.pc u := by
  obtain ⟨acc, -, hs'⟩ := Code.sc_step_cases h
  cases acc with
  | load k | store w p | jump p =>
      obtain rfl := Option.some.inj hs'
      simp [hu]
  | rmw f =>
      obtain ⟨r, -, rfl⟩ := Option.map_eq_some_iff.mp hs'
      simp [hu]

omit [Fintype T] in
/-- A step of the program under sequential consistency at a point without a
choice is the access of that point. -/
theorem sc_step_access {s s' : ScState T (Mem n) (Local n)} {a : T × Choice n}
    (h : (sc owner).step s a = some s') (hidle : (s.pc a.1).pc ≠ .idle)
    (hcas : (s.pc a.1).pc ≠ .wrCas) :
    ∃ acc, access (s.pc a.1) = some acc ∧ (code owner).scAccess s a.1 acc = some s' := by
  obtain ⟨acc, hacc, hs'⟩ := Code.sc_step_cases h
  rcases access_cases hacc with ⟨hpc, -⟩ | ⟨hpc, -⟩ | hgo
  · exact absurd hpc hidle
  · exact absurd hpc hcas
  · exact ⟨acc, hgo, hs'⟩

omit [Fintype T] in
/-- A reader leaves its section by the store of `read_unlock` only. -/
theorem sc_step_section {s s' : ScState T (Mem n) (Local n)} {a : T × Choice n}
    (h : (sc owner).step s a = some s') {i : Fin n} {e : Nat}
    (hsec : (s.pc a.1).pc.sectionOf = some (i, e)) :
    ((s'.pc a.1).pc.sectionOf = some (i, e) ∧ (s'.pc a.1).reads = (s.pc a.1).reads) ∨
      (s'.pc a.1).reads = (s.pc a.1).reads + 1 := by
  have hidle : (s.pc a.1).pc ≠ .idle := fun hpc => by simp [hpc, Pc.sectionOf] at hsec
  have hcas : (s.pc a.1).pc ≠ .wrCas := fun hpc => by simp [hpc, Pc.sectionOf] at hsec
  obtain ⟨acc, hacc, hs'⟩ := sc_step_access h hidle hcas
  cases hpc : (s.pc a.1).pc with
  | rdPtr j e' | rdDeref j e' p =>
      rw [access, hpc] at hacc
      obtain rfl := Option.some.inj hacc
      obtain rfl := Option.some.inj hs'
      rw [hpc] at hsec
      exact .inl ⟨by simpa [Pc.sectionOf] using hsec, by simp⟩
  | rdRetire j e' p =>
      rw [access, hpc] at hacc
      obtain rfl := Option.some.inj hacc
      obtain rfl := Option.some.inj hs'
      exact .inr (by simp)
  | _ => simp [hpc, Pc.sectionOf] at hsec

/-- **One step of a grace period.**  An awaited section stays awaited, or its
`read_unlock` store has been executed. -/
theorem Awaited.step {s s' : ScState T (Mem n) (Local n)} (hinv : Inv owner (Code.flushed s))
    {t u : T} {i : Fin n} {e r : Nat} (h : Awaited t u i e r s) {a : T × Choice n}
    (hstep : (sc owner).step s a = some s') :
    Awaited t u i e r s' ∨ r < (s'.pc u).reads := by
  obtain ⟨hsec, hreads, k, newEpoch, j, hscan, hj, he⟩ := h
  have hut : u ≠ t := by
    rintro rfl
    simp [hscan, Pc.sectionOf] at hsec
  by_cases hau : u = a.1
  · subst hau
    rcases sc_step_section hstep hsec with ⟨hsec', hreads'⟩ | hreads'
    · refine .inl ⟨hsec', hreads'.trans hreads, k, newEpoch, j, ?_, hj, he⟩
      rw [sc_step_other hstep (Ne.symm hut), hscan]
    · exact .inr (by omega)
  have hother := sc_step_other hstep hau
  by_cases hat : t = a.1
  · subst hat
    refine .inl ⟨by rw [hother, hsec], by rw [hother, hreads], ?_⟩
    obtain ⟨acc, hacc, hs'⟩ := sc_step_access hstep (by simp [hscan]) (by simp [hscan])
    rw [access, hscan] at hacc
    obtain rfl := Option.some.inj hacc
    obtain rfl := Option.some.inj hs'
    simp only [Function.update_self]
    split
    · rename_i hpass
      -- the slot the scan passes is not the awaited one
      have hslot := sc_section_slot hinv hsec
      have hlt : s.mem.globalEpoch < inactive := hinv.bound.1
      have hne : j ≠ i := by
        rintro rfl
        omega
      have hji : j < i := lt_of_le_of_ne hj hne
      rcases scanNext_cases j (.syncScan k newEpoch) (syncReturn k)
        with ⟨hj', hnext⟩ | ⟨hlast, -⟩
      · exact ⟨k, newEpoch, _, hnext, hji, he⟩
      · exact absurd (hlast i) (not_le.mpr hji)
    · exact ⟨k, newEpoch, j, hscan, hj, he⟩
  · refine .inl ⟨by rw [hother, hsec], by rw [hother, hreads], k, newEpoch, j, ?_, hj, he⟩
    rw [sc_step_other hstep hat, hscan]

omit [DecidableEq T] [Fintype T] in
/-- No access takes completed reads back. -/
theorem access_reads {l : Local n} {acc : Access (Mem n) (Store n) (Local n)}
    (h : access l = some acc) :
    match acc with
    | .load k => ∀ m, l.reads ≤ (k m).reads
    | .store _ p | .jump p => l.reads ≤ p.reads
    | .rmw f => ∀ m r, f m = some r → l.reads ≤ r.2.reads := by
  unfold access at h
  split at h
  · cases h
  all_goals
    obtain rfl := Option.some.inj h
    try intro m
    dsimp only
  all_goals grind

omit [Fintype T] in
/-- Completed reads are not taken back. -/
theorem sc_step_reads {s s' : ScState T (Mem n) (Local n)} {a : T × Choice n}
    (h : (sc owner).step s a = some s') (u : T) : (s.pc u).reads ≤ (s'.pc u).reads := by
  by_cases hu : u = a.1
  · subst hu
    obtain ⟨acc, hacc, hs'⟩ := Code.sc_step_cases h
    rcases access_cases hacc with ⟨-, p, rfl, -⟩ | ⟨-, rfl⟩ | hgo
    · obtain rfl := Option.some.inj hs'
      simp
    · obtain rfl := Option.some.inj hs'
      simp
    · have hle := access_reads hgo
      cases acc with
      | load k =>
          obtain rfl := Option.some.inj hs'
          simpa using hle s.mem
      | store w p | jump p =>
          obtain rfl := Option.some.inj hs'
          simpa using hle
      | rmw f =>
          obtain ⟨r, hr, rfl⟩ := Option.map_eq_some_iff.mp hs'
          simpa using hle s.mem r hr
  · rw [sc_step_other h hu]

/-- A section that is awaited when a scan starts is over when the scan ends. -/
theorem Awaited.path {t u : T} {i : Fin n} {e r : Nat} {s s' : ScState T (Mem n) (Local n)}
    {as : List (T × Choice n)} (hreach : (sc owner).ReachableUnder ScEpochBelow s)
    (h : Awaited t u i e r s ∨ r < (s.pc u).reads)
    (hpath : (sc owner).Path ScEpochBelow s as s') :
    Awaited t u i e r s' ∨ r < (s'.pc u).reads := by
  induction hpath with
  | nil s => exact h
  | cons hstep hcond _ ih =>
      refine ih (.step hreach hcond hstep) ?_
      rcases h with h | h
      · exact h.step (sc_inv hreach) hstep
      · exact .inr (lt_of_lt_of_le h (sc_step_reads hstep u))

/-- The `fetch_add` of a `synchronize` call puts every open section under its wait. -/
theorem awaited_of_bump {s s₁ : ScState T (Mem n) (Local n)}
    (hreach : (sc owner).ReachableUnder ScEpochBelow s) {t u : T} {k : Option (Nat × Nat)}
    (hpc : (s.pc t).pc = .syncBump k) (hbelow : ScEpochBelow s (t, .go))
    (hstep : (sc owner).step s (t, .go) = some s₁) {i : Fin n} {e : Nat}
    (hsec : (s.pc u).pc.sectionOf = some (i, e)) : Awaited t u i e (s.pc u).reads s₁ := by
  have hut : u ≠ t := by
    rintro rfl
    simp [hpc, Pc.sectionOf] at hsec
  have hslot := sc_section_slot (sc_inv hreach) hsec
  have hlt : s.mem.globalEpoch + 1 < inactive := hbelow (by rw [hpc]; rfl)
  have hother := sc_step_other hstep hut
  refine ⟨by rw [hother, hsec], by rw [hother], k, s.mem.globalEpoch + 1, ?_⟩
  obtain ⟨acc, hacc, hs'⟩ := sc_step_access hstep (by simp [hpc]) (by simp [hpc])
  rw [access, hpc] at hacc
  obtain rfl := Option.some.inj hacc
  obtain rfl := Option.some.inj hs'
  have hmod : (s.mem.globalEpoch + 1) % 2 ^ 64 = s.mem.globalEpoch + 1 := by
    refine Nat.mod_eq_of_lt ?_
    simp only [inactive] at hlt
    omega
  simp only [Function.update_self, hmod]
  rcases scanStart_cases (.syncScan k (s.mem.globalEpoch + 1)) (syncReturn k)
    with ⟨j, hj, hstart⟩ | ⟨hn, -⟩
  · exact ⟨j, hstart, hj i, by omega⟩
  · exact absurd i.isLt (by omega)

/-- No block is deleted twice. -/
theorem Inv.frees_le {s : TsoState T (Mem n) (Store n) (Local n)} (h : Inv owner s) (b : Nat) :
    s.mem.frees b ≤ 1 := by
  by_cases hborn : s.mem.nextBlock ≤ b
  · simp [h.unborn b hborn]
  · by_cases hpin : b = s.mem.dataPtr ∨ ∃ w, (s.pc w).pc.pins b
    · simp [h.pinned b hpin]
    · push Not at hpin hborn
      exact (h.dead b hborn hpin.1 hpin.2).le

/-- The last `delete` of `bench_rcu` completes the books: every block that was
ever allocated has been deleted exactly once. -/
theorem Inv.finish_frees {s : TsoState T (Mem n) (Store n) (Local n)} (h : Inv owner s)
    (hquiet : ∀ t, (s.pc t).pc.holdsLock = false) {b : Nat} (hb : b < s.mem.nextBlock) :
    (finish s.mem).frees b = 1 := by
  by_cases hptr : b = s.mem.dataPtr
  · simp [finish, hptr, h.pinned s.mem.dataPtr (.inl rfl)]
  · have hdead := h.dead b hb hptr fun w hw =>
      absurd (pins_holdsLock hw) (by simp [hquiet w])
    simpa [finish, hptr] using hdead

/-- **Grace periods under sequential consistency.**  When a `synchronize` call
returns, every read section open at its `fetch_add` has executed its
`read_unlock` store, whatever other calls and sections run meanwhile.  So no block
is deleted twice, none is deleted that a reader inside its section has loaded,
and once no write is in progress the benchmark's last `delete` leaves every block
deleted exactly once and `*data_ptr` counts the completed writes. -/
theorem sc_grace_periods {s : ScState T (Mem n) (Local n)}
    (h : (sc owner).ReachableUnder ScEpochBelow s) :
    (∀ t k s₁ as s₂, (s.pc t).pc = .syncBump k → ScEpochBelow s (t, .go) →
      (sc owner).step s (t, .go) = some s₁ →
      (sc owner).Path (fun s a => ScEpochBelow s a ∧ (s.pc t).pc.scans = true) s₁ as s₂ →
      (s₂.pc t).pc = syncReturn k →
      ∀ u i e, (s.pc u).pc.sectionOf = some (i, e) → (s.pc u).reads < (s₂.pc u).reads) ∧
    (∀ b, s.mem.frees b ≤ 1) ∧
    (∀ t i e p, (s.pc t).pc.held = some (i, e, p) → s.mem.frees p = 0) ∧
    ((∀ t, (s.pc t).pc.holdsLock = false) →
      (∀ b, b < s.mem.nextBlock → (finish s.mem).frees b = 1) ∧
      s.mem.value s.mem.dataPtr = total s.pc) := by
  have hinv := sc_inv h
  refine ⟨?_, hinv.frees_le, fun t i e p hp => hinv.held_live hp,
    fun hquiet => ⟨fun b hb => hinv.finish_frees hquiet hb, hinv.quiet hquiet⟩⟩
  intro t k s₁ as s₂ hpc hbelow hstep hpath hret u i e hsec
  have hawait := awaited_of_bump h hpc hbelow hstep hsec
  have hend := Awaited.path (.step h hbelow hstep) (.inl hawait)
    (hpath.mono fun _ _ hc => hc.1)
  rcases hend with ⟨-, -, k', e', j, hscan, -⟩ | hlt
  · rw [hscan] at hret
    rcases k with _ | k <;> simp [syncReturn] at hret
  · exact hlt

end GracePeriods

/-- Thread 0 is inside a read section when thread 1 bumps the epoch. -/
def openSection : List (Fin 2 × Choice 2) :=
  (0, .read 0) :: (0, .go) :: (0, .go) :: (0, .go) :: (1, .write) :: List.replicate 6 (1, .go)

/-- Thread 1 waits at slot 0 until thread 0 has retired, then scans on and returns. -/
def waitedOut : List (Fin 2 × Choice 2) :=
  [(1, .go), (0, .go), (0, .go), (1, .go), (1, .go)]

instance (s : ScState (Fin 2) (Mem 2) (Local 2)) (a : Fin 2 × Choice 2) :
    Decidable (ScEpochBelow s a) :=
  inferInstanceAs (Decidable (_ → _))

/-- A grace period that has to wait for a reader, and what it waited for. -/
theorem sc_grace_periods_waitedOut :
    ∃ s s₁ s₂ : ScState (Fin 2) (Mem 2) (Local 2),
      (sc twoSlots).ReachableUnder ScEpochBelow s ∧ (s.pc 0).pc = .rdDeref 0 0 0 ∧
      (sc twoSlots).step s (1, .go) = some s₁ ∧
      (sc twoSlots).Path (fun s a => ScEpochBelow s a ∧ (s.pc 1).pc.scans = true)
        s₁ waitedOut s₂ ∧
      (s₂.pc 1).pc = .wrDelete 0 ∧ (s.pc 0).reads < (s₂.pc 0).reads := by
  have hrun : (((sc twoSlots).runChecked (fun s a => decide (ScEpochBelow s a))
      (sc twoSlots).init openSection).bind fun s =>
        ((sc twoSlots).step s (1, .go)).bind fun s₁ =>
          ((sc twoSlots).runChecked
            (fun s a => decide (ScEpochBelow s a ∧ (s.pc 1).pc.scans = true)) s₁ waitedOut).map
            fun s₂ => ((s.pc 0).pc, (s.pc 1).pc, s.mem.globalEpoch, (s₂.pc 1).pc)) =
      some (.rdDeref 0 0 0, .syncBump (some (0, 1)), 0, .wrDelete 0) := by
    decide +kernel
  obtain ⟨s, hs, hrun⟩ := Option.bind_eq_some_iff.mp hrun
  obtain ⟨s₁, hstep, hrun⟩ := Option.bind_eq_some_iff.mp hrun
  obtain ⟨s₂, hs₂, hpcs⟩ := Option.map_eq_some_iff.mp hrun
  simp only [Prod.mk.injEq] at hpcs
  obtain ⟨h0, h1, hepoch, hret⟩ := hpcs
  have hreach := Machine.reachableUnder_of_runChecked (fun _ _ => of_decide_eq_true) hs
  have hpath := Machine.path_of_runChecked (fun _ _ => of_decide_eq_true) hs₂
  have hbelow : ScEpochBelow s ((1 : Fin 2), Choice.go) := fun _ => by
    rw [hepoch]
    decide
  exact ⟨s, s₁, s₂, hreach, h0, hstep, hpath, hret,
    (sc_grace_periods hreach).1 1 _ s₁ _ s₂ h1 hbelow hstep hpath hret 0 0 0
      (by simp [h0, Pc.sectionOf])⟩

end EpochRcu
