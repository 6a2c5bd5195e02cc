import LockBench.EpochRcu

/-!
# The invariant of the RCU benchmark

What ties the reader slots, the epoch, the published pointer and the heap
together, over the store-buffer machine, and that every access and every flush
keeps it.  A reader that has loaded a pointer either holds the published block or
is covered by the grace period of the writer that is about to delete it: that
writer has not yet scanned the reader's slot, and the slot shows an epoch older
than the one the writer waits for.

Two conditions on steps are used.  `ReaderFlushed` says that a reader loads
`data_ptr` only after its slot store has left its buffer, and `EpochBelow` that
`synchronize` never bumps the epoch up to `INACTIVE`.
-/

namespace EpochRcu

open ReaderSlots

/-! ## What each program point stands for -/

variable {n : Nat}

/-- The thread holds the client's writer lock. -/
def Pc.holdsLock : Pc n → Bool
  | .wrOld | .wrRead _ | .wrNew _ _ | .wrInit _ _ _ | .wrSwap _ _ | .syncBump (some _)
  | .syncScan (some _) _ _ | .wrDelete _ | .wrUnlock => true
  | _ => false

/-- The slot and the epoch of the read section the thread is entering or in. -/
def Pc.epochOf : Pc n → Option (Fin n × Nat)
  | .rdPublish i e | .rdPtr i e | .rdDeref i e _ | .rdRetire i e _ => some (i, e)
  | _ => none

/-- The slot and the epoch of the read section the thread is in: the slot store
was executed and the `read_unlock` store was not. -/
def Pc.sectionOf : Pc n → Option (Fin n × Nat)
  | .rdPtr i e | .rdDeref i e _ | .rdRetire i e _ => some (i, e)
  | _ => none

/-- The pointer a reader has loaded inside its section, with slot and epoch. -/
def Pc.held : Pc n → Option (Fin n × Nat × Nat)
  | .rdDeref i e p | .rdRetire i e p => some (i, e, p)
  | _ => none

/-- The slot the thread reads in, from the call on. -/
def Pc.slotOf : Pc n → Option (Fin n)
  | .rdEpoch i | .rdPublish i _ | .rdPtr i _ | .rdDeref i _ _ | .rdRetire i _ _ => some i
  | _ => none

/-- A grace period in progress at this point covers a reader of slot `i` that
entered at epoch `e` and holds the block `p`. -/
def Pc.covers (i : Fin n) (e p : Nat) : Pc n → Prop
  | .syncBump (some (old, _)) => p = old
  | .syncScan (some (old, _)) newEpoch j => p = old ∧ e < newEpoch ∧ j ≤ i
  | _ => False

/-- The blocks a writer in progress keeps from being free, besides the published one. -/
def Pc.pins (b : Nat) : Pc n → Prop
  | .wrInit _ fresh _ | .wrSwap _ fresh => b = fresh
  | .syncBump (some (old, fresh)) => b = old ∨ b = fresh
  | .syncScan (some (old, _)) _ _ => b = old
  | .wrDelete old => b = old
  | _ => False

section Invariant

variable {T : Type} {owner : Fin n → T}

/-- Buffers of a thread between operations: nothing, the drop of the writer lock,
or the retirement of a slot of its own. -/
def bufIdle (owner : Fin n → T) (t : T) (b : List (Store n)) : Prop :=
  b = [] ∨ b = [.writerLock false] ∨ ∃ i, owner i = t ∧ b = [.slot i inactive]

/-- What may stand in the store buffer of a thread at a program point. -/
def bufOk (owner : Fin n → T) (t : T) (b : List (Store n)) : Pc n → Prop
  | .idle | .rdEpoch _ | .rdPublish _ _ | .wrCas | .syncBump none => bufIdle owner t b
  | .rdPtr i e => b = [] ∨ ∃ b₀, bufIdle owner t b₀ ∧ b = b₀ ++ [.slot i e]
  | .wrSwap _ fresh => b = [] ∨ ∃ v, b = [.value fresh v]
  | .syncBump (some (_, fresh)) =>
      b = [] ∨ b = [.dataPtr fresh] ∨ ∃ v, b = [.value fresh v, .dataPtr fresh]
  | _ => b = []

/-- The thread's claim on the writer lock: held, or its drop still buffered. -/
def claims (s : TsoState T (Mem n) (Store n) (Local n)) (t : T) : Prop :=
  (s.pc t).pc.holdsLock = true ∨ .writerLock false ∈ s.buf t

variable [DecidableEq T]

/-- What holds of memory at a point of a write, where `tot` writes are complete. -/
def writerOk (owner : Fin n → T) (m : Mem n) (b : List (Store n)) (tot : Nat) : Pc n → Prop
  | .wrOld => m.value m.dataPtr = tot
  | .wrRead old => m.dataPtr = old ∧ m.value old = tot
  | .wrNew old v => m.dataPtr = old ∧ m.value old = tot ∧ v = tot
  | .wrInit old fresh v => m.dataPtr = old ∧ m.value old = tot ∧ v = tot ∧ fresh ≠ old ∧
      fresh < m.nextBlock
  | .wrSwap old fresh => m.dataPtr = old ∧ m.value old = tot ∧ fresh ≠ old ∧
      fresh < m.nextBlock ∧ ((code owner).overlay m b).value fresh = tot + 1
  | .syncBump (some (old, fresh)) => (m.dataPtr = old ∨ m.dataPtr = fresh) ∧ fresh ≠ old ∧
      old < m.nextBlock ∧ fresh < m.nextBlock ∧
      ((code owner).overlay m b).dataPtr = fresh ∧
      ((code owner).overlay m b).value fresh = tot + 1
  | .syncScan (some (old, fresh)) newEpoch _ => m.dataPtr = fresh ∧ fresh ≠ old ∧
      old < m.nextBlock ∧ m.value fresh = tot + 1 ∧ newEpoch ≤ m.globalEpoch ∧
      tot + 1 ≤ m.globalEpoch
  | .wrDelete old => m.dataPtr ≠ old ∧ old < m.nextBlock ∧ m.value m.dataPtr = tot + 1 ∧
      tot + 1 ≤ m.globalEpoch
  | .wrUnlock => m.value m.dataPtr = tot + 1 ∧ tot + 1 ≤ m.globalEpoch
  | _ => True

variable [Fintype T]

/-- The number of completed writes. -/
def total (pc : T → Local n) : Nat := ∑ t, (pc t).writes

/-- The inductive invariant, for runs in which a reader loads `data_ptr` only
after its slot store has reached memory and the epoch stays below `INACTIVE`. -/
structure Inv (owner : Fin n → T) (s : TsoState T (Mem n) (Store n) (Local n)) : Prop where
  lock : FlagInv s.mem.writerLock (claims s)
  buf : ∀ t, bufOk owner t (s.buf t) (s.pc t).pc
  own : ∀ t i, (s.pc t).pc.slotOf = some i → owner i = t
  bound : s.mem.globalEpoch < inactive ∧ total s.pc ≤ s.mem.globalEpoch
  epoch : ∀ t i e, (s.pc t).pc.epochOf = some (i, e) → e ≤ s.mem.globalEpoch
  published : ∀ t i e, (s.pc t).pc.sectionOf = some (i, e) →
    ((code owner).overlay s.mem (s.buf t)).slot i = e
  held : ∀ t i e p, (s.pc t).pc.held = some (i, e, p) →
    p = s.mem.dataPtr ∨ ∃ w, (s.pc w).pc.covers i e p
  writer : ∀ w, writerOk owner s.mem (s.buf w) (total s.pc) (s.pc w).pc
  quiet : (∀ w, (s.pc w).pc.holdsLock = false) → s.mem.value s.mem.dataPtr = total s.pc
  ptr : s.mem.dataPtr < s.mem.nextBlock
  unborn : ∀ b, s.mem.nextBlock ≤ b → s.mem.frees b = 0
  pinned : ∀ b, (b = s.mem.dataPtr ∨ ∃ w, (s.pc w).pc.pins b) → s.mem.frees b = 0
  dead : ∀ b, b < s.mem.nextBlock → b ≠ s.mem.dataPtr → (∀ w, ¬ (s.pc w).pc.pins b) →
    s.mem.frees b = 1

/-- Only the writer's scan covers a section. -/
theorem covers_holdsLock {p : Pc n} {i : Fin n} {e q : Nat} (h : p.covers i e q) :
    p.holdsLock = true := by
  unfold Pc.covers at h
  split at h <;> first | rfl | exact h.elim

/-- Only the writer pins a block. -/
theorem pins_holdsLock {p : Pc n} {b : Nat} (h : p.pins b) : p.holdsLock = true := by
  unfold Pc.pins at h
  split at h <;> first | rfl | exact h.elim

/-- An epoch is read for a slot. -/
theorem epochOf_slotOf {p : Pc n} {i : Fin n} {e : Nat} (h : p.epochOf = some (i, e)) :
    p.slotOf = some i := by
  cases p <;> simp_all [Pc.epochOf, Pc.slotOf]

/-- A section is open in a slot. -/
theorem sectionOf_slotOf {p : Pc n} {i : Fin n} {e : Nat} (h : p.sectionOf = some (i, e)) :
    p.slotOf = some i := by
  cases p <;> simp_all [Pc.sectionOf, Pc.slotOf]

/-- A block is held inside a section. -/
theorem held_sectionOf {p : Pc n} {i : Fin n} {e q : Nat} (h : p.held = some (i, e, q)) :
    p.sectionOf = some (i, e) := by
  cases p <;> simp_all [Pc.held, Pc.sectionOf]

/-- A block is held under a slot. -/
theorem held_slotOf {p : Pc n} {i : Fin n} {e q : Nat} (h : p.held = some (i, e, q)) :
    p.slotOf = some i :=
  sectionOf_slotOf (held_sectionOf h)

omit [DecidableEq T] [Fintype T] in
/-- Stores in the buffer are on top of memory: the value. -/
theorem overlay_value (m : Mem n) (b : List (Store n)) {m' : Mem n}
    [DecidableEq T] (h : m'.value = m.value) :
    ((code owner).overlay m' b).value = ((code owner).overlay m b).value := by
  induction b generalizing m m' with
  | nil => exact h
  | cons w b ih =>
      rw [Code.overlay_cons, Code.overlay_cons]
      refine ih _ ?_
      cases w <;> simp [code, h]

omit [DecidableEq T] [Fintype T] in
/-- Stores in the buffer are on top of memory: `data_ptr`. -/
theorem overlay_dataPtr (m : Mem n) (b : List (Store n)) {m' : Mem n}
    [DecidableEq T] (h : m'.dataPtr = m.dataPtr) :
    ((code owner).overlay m' b).dataPtr = ((code owner).overlay m b).dataPtr := by
  induction b generalizing m m' with
  | nil => exact h
  | cons w b ih =>
      rw [Code.overlay_cons, Code.overlay_cons]
      refine ih _ ?_
      cases w <;> simp [code, h]

omit [DecidableEq T] [Fintype T] in
/-- Stores in the buffer are on top of memory: a slot. -/
theorem overlay_slot {m m' : Mem n} {i : Fin n} (b : List (Store n))
    [DecidableEq T] (h : m'.slot i = m.slot i) :
    ((code owner).overlay m' b).slot i = ((code owner).overlay m b).slot i := by
  induction b generalizing m m' with
  | nil => exact h
  | cons w b ih =>
      rw [Code.overlay_cons, Code.overlay_cons]
      refine ih ?_
      cases w with
      | slot j e =>
          by_cases hj : i = j
          · simp [code, hj]
          · simpa [code, hj] using h
      | _ => exact h

omit [Fintype T] in
/-- Without the mutex there is nothing to say of a writer. -/
theorem writerOk_of_not_holdsLock {m : Mem n} {b : List (Store n)} {tot : Nat} {p : Pc n}
    (h : p.holdsLock = false) : writerOk owner m b tot p := by
  unfold writerOk
  split <;> trivial

omit [Fintype T] in
/-- A writer's facts survive steps of others: they read the pointer, the blocks
and the allocator, and the epoch only grows. -/
theorem writerOk_mono {m m' : Mem n} {b : List (Store n)} {tot : Nat} {p : Pc n}
    (hptr : m'.dataPtr = m.dataPtr) (hval : m'.value = m.value)
    (hnext : m'.nextBlock = m.nextBlock) (hep : m.globalEpoch ≤ m'.globalEpoch)
    (h : writerOk owner m b tot p) : writerOk owner m' b tot p := by
  unfold writerOk at h ⊢
  split at h <;>
    simp only [hptr, hval, hnext, overlay_value m b hval, overlay_dataPtr m b hptr] at h ⊢ <;>
    first | exact h | (refine ⟨h.1, h.2.1, ?_⟩; omega) | omega

/-- A step that completes no write keeps the total. -/
theorem total_update {pc : T → Local n} {t : T} {l : Local n} (h : l.writes = (pc t).writes) :
    total (Function.update pc t l) = total pc := by
  refine Finset.sum_congr rfl fun u _ => ?_
  by_cases hu : u = t
  · subst hu
    rw [Function.update_self, h]
  · rw [Function.update_of_ne hu]

/-- **A thread moves outside the writer lock.**  The published pointer, the
blocks and the allocator stay, slots of others stay, the epoch does not shrink;
the rest is about the moving thread. -/
theorem Inv.outside {s : TsoState T (Mem n) (Store n) (Local n)} (h : Inv owner s) {t : T}
    {m : Mem n} {b : List (Store n)} {l : Local n}
    (hout : (s.pc t).pc.holdsLock = false) (hout' : l.pc.holdsLock = false)
    (hwrites : l.writes = (s.pc t).writes)
    (hptr : m.dataPtr = s.mem.dataPtr) (hval : m.value = s.mem.value)
    (hnext : m.nextBlock = s.mem.nextBlock) (hfrees : m.frees = s.mem.frees)
    (hslot : ∀ i, owner i ≠ t → m.slot i = s.mem.slot i)
    (hep : s.mem.globalEpoch ≤ m.globalEpoch) (hlt : m.globalEpoch < inactive)
    (hlock : FlagInv m.writerLock
      (claims ⟨m, Function.update s.buf t b, Function.update s.pc t l⟩))
    (hbuf : bufOk owner t b l.pc) (hown : ∀ i, l.pc.slotOf = some i → owner i = t)
    (hepoch : ∀ i e, l.pc.epochOf = some (i, e) → e ≤ m.globalEpoch)
    (hsection : ∀ i e, l.pc.sectionOf = some (i, e) → ((code owner).overlay m b).slot i = e)
    (hheld : ∀ i e p, l.pc.held = some (i, e, p) →
      p = s.mem.dataPtr ∨ ∃ w, (s.pc w).pc.covers i e p) :
    Inv owner ⟨m, Function.update s.buf t b, Function.update s.pc t l⟩ := by
  have hpc : ∀ u, u ≠ t → Function.update s.pc t l u = s.pc u :=
    fun u hu => Function.update_of_ne hu l s.pc
  have hcov : ∀ w i e p, (s.pc w).pc.covers i e p →
      (Function.update s.pc t l w).pc.covers i e p := by
    intro w i e p hc
    have hw : w ≠ t := fun hw => by
      rw [hw] at hc
      simp [covers_holdsLock hc] at hout
    rwa [hpc w hw]
  have hpins : ∀ w b, (Function.update s.pc t l w).pc.pins b ↔ (s.pc w).pc.pins b := by
    intro w b
    by_cases hw : w = t
    · subst hw
      rw [Function.update_self]
      constructor
      · intro hp
        simp [pins_holdsLock hp] at hout'
      · intro hp
        simp [pins_holdsLock hp] at hout
    · rw [hpc w hw]
  refine ⟨hlock, fun u => ?_, fun u i hu => ?_, ⟨hlt, ?_⟩, fun u i e hu => ?_,
    fun u i e hu => ?_, fun u i e p hu => ?_, fun w => ?_, fun hall => ?_, ?_, ?_, ?_, ?_⟩
  · by_cases hu : u = t
    · subst hu
      simpa using hbuf
    · simpa [hu] using h.buf u
  · by_cases hut : u = t
    · subst hut
      exact hown i (by simpa using hu)
    · exact h.own u i (by simpa [hut] using hu)
  · rw [total_update hwrites]
    exact le_trans h.bound.2 hep
  · by_cases hut : u = t
    · subst hut
      exact hepoch i e (by simpa using hu)
    · exact le_trans (h.epoch u i e (by simpa [hut] using hu)) hep
  · by_cases hut : u = t
    · subst hut
      simpa using hsection i e (by simpa using hu)
    · have hu' : (s.pc u).pc.sectionOf = some (i, e) := by simpa [hut] using hu
      have howner : owner i = u := h.own u i (sectionOf_slotOf hu')
      rw [← h.published u i e hu']
      simpa [hut] using overlay_slot (s.buf u) (hslot i (howner ▸ hut))
  · have hold : p = s.mem.dataPtr ∨ ∃ w, (s.pc w).pc.covers i e p := by
      by_cases hut : u = t
      · subst hut
        exact hheld i e p (by simpa using hu)
      · exact h.held u i e p (by simpa [hut] using hu)
    rcases hold with hp | ⟨w, hw⟩
    · exact .inl (hp.trans hptr.symm)
    · exact .inr ⟨w, hcov w i e p hw⟩
  · rw [total_update hwrites]
    by_cases hw : w = t
    · subst hw
      refine writerOk_of_not_holdsLock ?_
      simpa using hout'
    · have hw' := h.writer w
      simpa [hw] using writerOk_mono hptr hval hnext hep hw'
  · rw [total_update hwrites]
    have hold := h.quiet fun w => by
      by_cases hw : w = t
      · rw [hw, hout]
      · simpa [hw] using hall w
    simpa [hptr, hval] using hold
  · simpa [hptr, hnext] using h.ptr
  · simpa [hnext, hfrees] using h.unborn
  · simpa [hptr, hfrees, hpins] using h.pinned
  · simpa [hptr, hnext, hfrees, hpins] using h.dead

/-- **The thread at the writer lock moves.**  No other thread holds it; slots stay
and the epoch does not shrink.  Readers that hold the published block or one the
grace period covered must stay covered, and the heap is accounted for by the
moving thread alone. -/
theorem Inv.inside {s : TsoState T (Mem n) (Store n) (Local n)} (h : Inv owner s) {t : T}
    {m : Mem n} {b : List (Store n)} {l : Local n}
    (hothers : ∀ u, u ≠ t → (s.pc u).pc.holdsLock = false)
    (hreader : l.pc.slotOf = none)
    (hslot : ∀ i, owner i ≠ t → m.slot i = s.mem.slot i)
    (hep : s.mem.globalEpoch ≤ m.globalEpoch) (hlt : m.globalEpoch < inactive)
    (htot : total (Function.update s.pc t l) ≤ m.globalEpoch)
    (hlock : FlagInv m.writerLock
      (claims ⟨m, Function.update s.buf t b, Function.update s.pc t l⟩))
    (hbuf : bufOk owner t b l.pc)
    (hcover : ∀ u i e p, u ≠ t → (s.pc u).pc.held = some (i, e, p) →
      (p = s.mem.dataPtr ∨ (s.pc t).pc.covers i e p) → (p = m.dataPtr ∨ l.pc.covers i e p))
    (hwriter : writerOk owner m b (total (Function.update s.pc t l)) l.pc)
    (hquiet : l.pc.holdsLock = false →
      m.value m.dataPtr = total (Function.update s.pc t l))
    (hptr : m.dataPtr < m.nextBlock) (hunborn : ∀ b, m.nextBlock ≤ b → m.frees b = 0)
    (hpinned : ∀ b, (b = m.dataPtr ∨ l.pc.pins b) → m.frees b = 0)
    (hdead : ∀ b, b < m.nextBlock → b ≠ m.dataPtr → ¬ l.pc.pins b → m.frees b = 1) :
    Inv owner ⟨m, Function.update s.buf t b, Function.update s.pc t l⟩ := by
  refine ⟨hlock, fun u => ?_, fun u i hu => ?_, ⟨hlt, htot⟩, fun u i e hu => ?_,
    fun u i e hu => ?_, fun u i e p hu => ?_, fun w => ?_, fun hall => ?_, hptr, hunborn,
    fun b hb => hpinned b (hb.imp id ?_), fun b hlt hne hno => hdead b hlt hne ?_⟩
  · by_cases hu : u = t
    · subst hu
      simpa using hbuf
    · simpa [hu] using h.buf u
  · by_cases hut : u = t
    · subst hut
      simp [hreader] at hu
    · exact h.own u i (by simpa [hut] using hu)
  · by_cases hut : u = t
    · subst hut
      simp [epochOf_slotOf (by simpa using hu)] at hreader
    · exact le_trans (h.epoch u i e (by simpa [hut] using hu)) hep
  · by_cases hut : u = t
    · subst hut
      simp [sectionOf_slotOf (by simpa using hu)] at hreader
    · have hu' : (s.pc u).pc.sectionOf = some (i, e) := by simpa [hut] using hu
      have howner : owner i = u := h.own u i (sectionOf_slotOf hu')
      rw [← h.published u i e hu']
      simpa [hut] using overlay_slot (s.buf u) (hslot i (howner ▸ hut))
  · by_cases hut : u = t
    · subst hut
      simp [held_slotOf (by simpa using hu)] at hreader
    · have hu' : (s.pc u).pc.held = some (i, e, p) := by simpa [hut] using hu
      have hold : p = s.mem.dataPtr ∨ (s.pc t).pc.covers i e p := by
        refine (h.held u i e p hu').imp id ?_
        rintro ⟨w, hw⟩
        by_cases hwt : w = t
        · rwa [hwt] at hw
        · exact absurd (covers_holdsLock hw) (by simp [hothers w hwt])
      refine (hcover u i e p hut hu' hold).imp id fun hc => ⟨t, ?_⟩
      simpa using hc
  · by_cases hw : w = t
    · subst hw
      simpa using hwriter
    · refine writerOk_of_not_holdsLock ?_
      simpa [hw] using hothers w hw
  · exact hquiet (by simpa using hall t)
  · rintro ⟨w, hw⟩
    by_cases hwt : w = t
    · subst hwt
      simpa using hw
    · exact absurd (pins_holdsLock hw) (by simp [hwt, hothers w hwt])
  · simpa using hno t

/-- Every thread but the one at the writer lock is outside it. -/
theorem Inv.others {s : TsoState T (Mem n) (Store n) (Local n)} (h : Inv owner s) {t : T}
    (ht : (s.pc t).pc.holdsLock = true) (u : T) (hu : u ≠ t) :
    (s.pc u).pc.holdsLock = false := by
  by_contra hno
  exact hu (h.lock.unique u t (.inl (by simpa using hno)) (.inl ht))

omit [Fintype T] in
/-- Claims after a move of one thread. -/
theorem claims_update {s : TsoState T (Mem n) (Store n) (Local n)} {t : T} {m : Mem n}
    {b : List (Store n)} {l : Local n} (u : T) :
    claims ⟨m, Function.update s.buf t b, Function.update s.pc t l⟩ u ↔
      (u = t ∧ (l.pc.holdsLock = true ∨ .writerLock false ∈ b)) ∨ (u ≠ t ∧ claims s u) := by
  by_cases hu : u = t
  · subst hu
    simp [claims]
  · simp [claims, hu]

/-- The lock after a move that keeps the thread's own claim. -/
theorem Inv.lock_keep {s : TsoState T (Mem n) (Store n) (Local n)} (h : Inv owner s) {t : T}
    {m : Mem n} {b : List (Store n)} {l : Local n}
    (hm : m.writerLock = s.mem.writerLock)
    (hclaim : (l.pc.holdsLock = true ∨ .writerLock false ∈ b) ↔ claims s t) :
    FlagInv m.writerLock (claims ⟨m, Function.update s.buf t b, Function.update s.pc t l⟩) := by
  rw [hm]
  refine h.lock.congr fun u => ?_
  rw [claims_update, hclaim]
  by_cases hu : u = t
  · simp [hu]
  · simp [hu]

/-- The lock after a thread without the lock drained its buffer. -/
theorem Inv.lock_drain {s : TsoState T (Mem n) (Store n) (Local n)} (h : Inv owner s) {t : T}
    {m : Mem n} {l : Local n} (hout : (s.pc t).pc.holdsLock = false)
    (hout' : l.pc.holdsLock = false) (hb : bufIdle owner t (s.buf t))
    (hm : m.writerLock = ((code owner).overlay s.mem (s.buf t)).writerLock) :
    FlagInv m.writerLock (claims ⟨m, Function.update s.buf t [], Function.update s.pc t l⟩) := by
  have hself : ¬ (l.pc.holdsLock = true ∨ Store.writerLock false ∈ ([] : List (Store n))) := by
    simp [hout']
  rcases hb with hb | hb | ⟨i, -, hb⟩
  · exact h.lock_keep (by simpa [hb] using hm) (by simp [hout', claims, hout, hb])
  · have hclaim : claims s t := .inr (by simp [hb])
    rw [hm, hb]
    refine FlagInv.drop fun u hu => ?_
    rcases (claims_update u).mp hu with ⟨-, hc⟩ | ⟨hut, hc⟩
    · exact hself hc
    · exact hut (h.lock.unique u t hc hclaim)
  · refine h.lock_keep ?_ (by simp [hout', claims, hout, hb])
    simpa [hb, code] using hm

/-- A thread without the lock that sees it free is the only one with a claim, if
anyone is. -/
theorem Inv.none_of_view_down {s : TsoState T (Mem n) (Store n) (Local n)} (h : Inv owner s)
    {t : T} (hb : bufIdle owner t (s.buf t))
    (hv : ((code owner).overlay s.mem (s.buf t)).writerLock = false) (u : T) (hu : u ≠ t) :
    ¬ claims s u := by
  intro hc
  rcases hb with hb | hb | ⟨i, -, hb⟩
  · have hdown : s.mem.writerLock = false := by simpa [hb] using hv
    simp [h.lock.up.mpr ⟨u, hc⟩] at hdown
  · exact hu (h.lock.unique u t hc (.inr (by simp [hb])))
  · have hdown : s.mem.writerLock = false := by simpa [hb, code] using hv
    simp [h.lock.up.mpr ⟨u, hc⟩] at hdown

omit [Fintype T] in
/-- Stores never touch the epoch or the allocator. -/
theorem overlay_frame (owner : Fin n → T) (m : Mem n) (b : List (Store n)) :
    ((code owner).overlay m b).globalEpoch = m.globalEpoch ∧
      ((code owner).overlay m b).nextBlock = m.nextBlock ∧
      ((code owner).overlay m b).frees = m.frees := by
  induction b generalizing m with
  | nil => exact ⟨rfl, rfl, rfl⟩
  | cons w b ih =>
      obtain ⟨h1, h2, h3⟩ := ih ((code owner).apply w m)
      rw [Code.overlay_cons]
      refine ⟨h1.trans ?_, h2.trans ?_, h3.trans ?_⟩ <;> cases w <;> rfl

omit [Fintype T] in
/-- The buffer of an idle thread touches only its own slots and the lock. -/
theorem overlay_idle {t : T} {b : List (Store n)} (hb : bufIdle owner t b) (m : Mem n) :
    ((code owner).overlay m b).dataPtr = m.dataPtr ∧
      ((code owner).overlay m b).value = m.value ∧
      ∀ i, owner i ≠ t → ((code owner).overlay m b).slot i = m.slot i := by
  rcases hb with rfl | rfl | ⟨j, hj, rfl⟩
  · exact ⟨rfl, rfl, fun _ _ => rfl⟩
  · exact ⟨rfl, rfl, fun _ _ => rfl⟩
  · refine ⟨rfl, rfl, fun i hi => ?_⟩
    have hij : i ≠ j := fun h => hi (h ▸ hj)
    simp [code, hij]

omit [Fintype T] in
/-- What a thread may do: start an operation, fail its weak compare-exchange
spuriously, or make the access of its program point. -/
theorem access_cases {t : T} {l : Local n} {c : Choice n}
    {acc : Access (Mem n) (Store n) (Local n)}
    (h : (code owner).access t l c = some acc) :
    (l.pc = .idle ∧ ∃ p, acc = .jump { l with pc := p } ∧
      ((∃ i, owner i = t ∧ p = .rdEpoch i) ∨ p = .wrCas ∨ p = .syncBump none)) ∨
    (l.pc = .wrCas ∧ acc = .rmw fun m => some (m, { l with pc := .wrSpin })) ∨
    access l = some acc := by
  simp only [code] at h
  split at h
  · split at h
    · exact .inl ⟨‹_›, _, (Option.some.inj h).symm, .inl ⟨_, ‹_›, rfl⟩⟩
    · cases h
  · exact .inl ⟨‹_›, _, (Option.some.inj h).symm, .inr (.inl rfl)⟩
  · exact .inl ⟨‹_›, _, (Option.some.inj h).symm, .inr (.inr rfl)⟩
  · exact .inr (.inl ⟨‹_›, (Option.some.inj h).symm⟩)
  · exact .inr (.inr h)
  · cases h

/-- A load or a jump outside the writer lock. -/
theorem Inv.quiet_outside {s : TsoState T (Mem n) (Store n) (Local n)} (h : Inv owner s)
    {t : T} {p : Pc n} (hout : (s.pc t).pc.holdsLock = false) (hout' : p.holdsLock = false)
    (hbuf : bufOk owner t (s.buf t) p) (hown : ∀ i, p.slotOf = some i → owner i = t)
    (hepoch : ∀ i e, p.epochOf = some (i, e) → e ≤ s.mem.globalEpoch)
    (hsection : ∀ i e, p.sectionOf = some (i, e) →
      ((code owner).overlay s.mem (s.buf t)).slot i = e)
    (hheld : ∀ i e q, p.held = some (i, e, q) →
      q = s.mem.dataPtr ∨ ∃ w, (s.pc w).pc.covers i e q) :
    Inv owner { s with pc := Function.update s.pc t { s.pc t with pc := p } } := by
  have hmove := h.outside (t := t) (m := s.mem) (b := s.buf t) (l := { s.pc t with pc := p })
    hout hout' rfl rfl rfl rfl rfl (fun _ _ => rfl) (le_refl _) h.bound.1
    (h.lock_keep rfl (by simp [claims, hout, hout'])) hbuf hown hepoch hsection hheld
  rwa [Function.update_eq_self] at hmove

/-- A read-modify-write outside the writer lock, which drains an idle buffer. -/
theorem Inv.drain_outside {s : TsoState T (Mem n) (Store n) (Local n)} (h : Inv owner s)
    {t : T} {p : Pc n} {g : Nat} (hout : (s.pc t).pc.holdsLock = false)
    (hout' : p.holdsLock = false) (hb : bufIdle owner t (s.buf t))
    (hep : s.mem.globalEpoch ≤ g) (hlt : g < inactive)
    (hbuf : bufOk owner t [] p) (hreader : p.slotOf = none) :
    Inv owner ⟨{ (code owner).overlay s.mem (s.buf t) with globalEpoch := g },
      Function.update s.buf t [], Function.update s.pc t { s.pc t with pc := p }⟩ := by
  obtain ⟨h1, h2, h3⟩ := overlay_idle hb s.mem
  obtain ⟨-, h5, h6⟩ := overlay_frame owner s.mem (s.buf t)
  refine h.outside hout hout' rfl h1 h2 h5 h6 h3 hep hlt (h.lock_drain hout hout' hb rfl) hbuf
    ?_ ?_ ?_ ?_
  · simp [hreader]
  · intro i e hi
    simp [epochOf_slotOf hi] at hreader
  · intro i e hi
    simp [sectionOf_slotOf hi] at hreader
  · intro i e q hi
    simp [held_slotOf hi] at hreader

/-- The heap as the thread at the writer lock accounts for it. -/
theorem Inv.heap {s : TsoState T (Mem n) (Store n) (Local n)} (h : Inv owner s) {t : T}
    (hothers : ∀ u, u ≠ t → (s.pc u).pc.holdsLock = false) :
    (∀ b, (b = s.mem.dataPtr ∨ (s.pc t).pc.pins b) → s.mem.frees b = 0) ∧
      ∀ b, b < s.mem.nextBlock → b ≠ s.mem.dataPtr → ¬ (s.pc t).pc.pins b →
        s.mem.frees b = 1 := by
  refine ⟨fun b hb => h.pinned b (hb.imp id fun hp => ⟨t, hp⟩),
    fun b hlt hne hno => h.dead b hlt hne fun w hw => ?_⟩
  by_cases hwt : w = t
  · exact hno (hwt ▸ hw)
  · exact absurd (pins_holdsLock hw) (by simp [hothers w hwt])

/-- A load or a plain store at the writer lock. -/
theorem Inv.quiet_inside {s : TsoState T (Mem n) (Store n) (Local n)} (h : Inv owner s)
    {t : T} {p : Pc n} {b : List (Store n)}
    (hin : (s.pc t).pc.holdsLock = true) (hin' : p.holdsLock = true)
    (hbuf : bufOk owner t b p) (hreader : p.slotOf = none)
    (hcover : ∀ u i e q, u ≠ t → (s.pc u).pc.held = some (i, e, q) →
      (s.pc t).pc.covers i e q → p.covers i e q)
    (hwriter : writerOk owner s.mem b (total s.pc) p)
    (hpins : ∀ b, (b = s.mem.dataPtr ∨ p.pins b) ↔ (b = s.mem.dataPtr ∨ (s.pc t).pc.pins b)) :
    Inv owner ⟨s.mem, Function.update s.buf t b,
      Function.update s.pc t { s.pc t with pc := p }⟩ := by
  have hothers := h.others hin
  obtain ⟨hpin, hdead⟩ := h.heap hothers
  have htot : total (Function.update s.pc t { s.pc t with pc := p }) = total s.pc :=
    total_update rfl
  refine h.inside hothers hreader (fun _ _ => rfl) (le_refl _) h.bound.1
    (by rw [htot]; exact h.bound.2) (h.lock_keep rfl (by simp [claims, hin, hin'])) hbuf
    (fun u i e q hu hheld hq => hq.imp id (hcover u i e q hu hheld))
    (by rw [htot]; exact hwriter) (by simp [hin']) h.ptr h.unborn
    (fun b hb => hpin b ((hpins b).mp hb)) fun b hlt hne hno => hdead b hlt hne fun hp => ?_
  rcases (hpins b).mpr (.inr hp) with hb | hb
  · exact hne hb
  · exact hno hb

/-- A reader that holds a pointer shows its epoch in memory. -/
theorem Inv.held_slot {s : TsoState T (Mem n) (Store n) (Local n)} (h : Inv owner s) {u : T}
    {i : Fin n} {e q : Nat} (hu : (s.pc u).pc.held = some (i, e, q)) :
    s.mem.slot i = e ∧ e ≤ s.mem.globalEpoch := by
  have hb : s.buf u = [] := by
    have hb := h.buf u
    cases hp : (s.pc u).pc <;> simp_all [Pc.held, bufOk]
  have hpub := h.published u i e (held_sectionOf hu)
  have hep := h.epoch u i e (by cases hp : (s.pc u).pc <;> simp_all [Pc.held, Pc.epochOf])
  exact ⟨by simpa [hb] using hpub, hep⟩

/-- A completed write adds one to the total. -/
theorem total_update_succ {pc : T → Local n} {t : T} {l : Local n}
    (h : l.writes = (pc t).writes + 1) : total (Function.update pc t l) = total pc + 1 := by
  unfold total
  rw [← Finset.add_sum_erase _ _ (Finset.mem_univ t),
    ← Finset.add_sum_erase _ (fun u => (pc u).writes) (Finset.mem_univ t)]
  have hrest : ∑ u ∈ Finset.univ.erase t, (Function.update pc t l u).writes =
      ∑ u ∈ Finset.univ.erase t, (pc u).writes := by
    refine Finset.sum_congr rfl fun u hu => ?_
    rw [Function.update_of_ne (Finset.ne_of_mem_erase hu)]
  rw [hrest, Function.update_self, h]
  omega

omit [Fintype T] in
/-- A store is buffered behind the others. -/
theorem overlay_append (m : Mem n) (b : List (Store n)) (w : Store n) :
    (code owner).overlay m (b ++ [w]) = (code owner).apply w ((code owner).overlay m b) := by
  simp [Code.overlay]

/-- Taking the free writer lock. -/
theorem Inv.take {s : TsoState T (Mem n) (Store n) (Local n)} (h : Inv owner s) {t : T}
    (hpc : (s.pc t).pc = .wrCas)
    (hfree : ((code owner).overlay s.mem (s.buf t)).writerLock = false) :
    Inv owner ⟨{ (code owner).overlay s.mem (s.buf t) with writerLock := true },
      Function.update s.buf t [], Function.update s.pc t { s.pc t with pc := .wrOld }⟩ := by
  have hb : bufIdle owner t (s.buf t) := by simpa [hpc, bufOk] using h.buf t
  have hnone := h.none_of_view_down hb hfree
  have hothers : ∀ u, u ≠ t → (s.pc u).pc.holdsLock = false := by
    intro u hu
    by_contra hno
    exact hnone u hu (.inl (by simpa using hno))
  have hall : ∀ u, (s.pc u).pc.holdsLock = false := by
    intro u
    by_cases hu : u = t
    · simp [hu, hpc, Pc.holdsLock]
    · exact hothers u hu
  obtain ⟨h1, h2, h3⟩ := overlay_idle hb s.mem
  obtain ⟨h4, h5, h6⟩ := overlay_frame owner s.mem (s.buf t)
  obtain ⟨hpin, hdead⟩ := h.heap hothers
  have htot : total (Function.update s.pc t { s.pc t with pc := .wrOld }) = total s.pc :=
    total_update rfl
  refine h.inside hothers rfl h3 (by rw [h4]) (by simpa [h4] using h.bound.1)
    (by simpa [h4, htot] using h.bound.2) ?_ rfl ?_ ?_ (by simp [Pc.holdsLock]) ?_ ?_ ?_ ?_
  · refine FlagInv.take (t := t) fun u => ?_
    rw [claims_update]
    by_cases hu : u = t
    · simp [hu, Pc.holdsLock]
    · simp [hu, hnone u hu]
  · intro u i e q _ _ hq
    rcases hq with hq | hq
    · exact .inl (hq.trans h1.symm)
    · simp [hpc, Pc.covers] at hq
  · simpa [writerOk, h1, h2, htot] using h.quiet hall
  · simpa [h1, h5] using h.ptr
  · simpa [h5, h6] using h.unborn
  · simpa [h1, h6, hpc, Pc.pins] using hpin
  · simpa [h1, h5, h6, hpc, Pc.pins] using hdead

/-- Allocating the fresh block. -/
theorem Inv.alloc {s : TsoState T (Mem n) (Store n) (Local n)} (h : Inv owner s) {t : T}
    {old v : Nat} (hpc : (s.pc t).pc = .wrNew old v) :
    Inv owner ⟨{ s.mem with nextBlock := s.mem.nextBlock + 1 }, Function.update s.buf t [],
      Function.update s.pc t { s.pc t with pc := .wrInit old s.mem.nextBlock v }⟩ := by
  have hin : (s.pc t).pc.holdsLock = true := by simp [hpc, Pc.holdsLock]
  have hothers := h.others hin
  obtain ⟨hpin, hdead⟩ := h.heap hothers
  have hb : s.buf t = [] := by simpa [hpc, bufOk] using h.buf t
  have hw := h.writer t
  have htot : total (Function.update s.pc t { s.pc t with pc := .wrInit old s.mem.nextBlock v }) =
      total s.pc := total_update rfl
  have hptr := h.ptr
  simp only [hpc, writerOk] at hw
  refine h.inside hothers rfl (fun _ _ => rfl) (le_refl _) h.bound.1
    (by rw [htot]; exact h.bound.2)
    (h.lock_keep rfl (by simp [claims, hpc, Pc.holdsLock])) rfl ?_ ?_ (by simp [Pc.holdsLock])
    ?_ ?_ ?_ ?_
  · intro u i e q _ _ hq
    exact hq.imp id fun hc => by simp [hpc, Pc.covers] at hc
  · simp only [writerOk, htot]
    refine ⟨hw.1, hw.2.1, hw.2.2, ?_, Nat.lt_succ_self _⟩
    omega
  · exact Nat.lt_succ_of_lt hptr
  · intro b hle
    exact h.unborn b (by simp only at hle; omega)
  · rintro b (hb | hb)
    · exact hpin b (.inl hb)
    · simp only [Pc.pins] at hb
      exact h.unborn b (by omega)
  · intro b hlt hne hno
    simp only [Pc.pins] at hno
    exact hdead b (by simp only at hlt; omega) hne (by simp [hpc, Pc.pins])

/-- Storing the incremented value into the fresh block. -/
theorem Inv.fill {s : TsoState T (Mem n) (Store n) (Local n)} (h : Inv owner s) {t : T}
    {old fresh v : Nat} (hpc : (s.pc t).pc = .wrInit old fresh v) :
    Inv owner ⟨s.mem, Function.update s.buf t (s.buf t ++ [.value fresh ((v + 1) % 2 ^ 64)]),
      Function.update s.pc t { s.pc t with pc := .wrSwap old fresh }⟩ := by
  have hb : s.buf t = [] := by simpa [hpc, bufOk] using h.buf t
  have hw := h.writer t
  have hbound := h.bound
  simp only [hpc, writerOk] at hw
  obtain ⟨h1, h2, rfl, h3, h4⟩ := hw
  have hmod : (total s.pc + 1) % 2 ^ 64 = total s.pc + 1 := by
    refine Nat.mod_eq_of_lt ?_
    simp only [inactive] at hbound
    omega
  refine h.quiet_inside (by simp [hpc, Pc.holdsLock]) rfl ?_ rfl ?_ ?_ ?_
  · exact .inr ⟨_, by rw [hb]; rfl⟩
  · intro u i e q _ _ hq
    simp [hpc, Pc.covers] at hq
  · refine ⟨h1, h2, h3, h4, ?_⟩
    rw [hmod, hb]
    simp [code]
  · simp [hpc, Pc.pins]

/-- Publishing the fresh block. -/
theorem Inv.swap {s : TsoState T (Mem n) (Store n) (Local n)} (h : Inv owner s) {t : T}
    {old fresh : Nat} (hpc : (s.pc t).pc = .wrSwap old fresh) :
    Inv owner ⟨s.mem, Function.update s.buf t (s.buf t ++ [.dataPtr fresh]),
      Function.update s.pc t { s.pc t with pc := .syncBump (some (old, fresh)) }⟩ := by
  have hb := h.buf t
  have hw := h.writer t
  have hptr := h.ptr
  simp only [hpc, writerOk, bufOk] at hw hb
  obtain ⟨h1, h2, h3, h4, h5⟩ := hw
  refine h.quiet_inside (by simp [hpc, Pc.holdsLock]) rfl ?_ rfl ?_ ?_ ?_
  · rcases hb with hb | ⟨v, hb⟩
    · exact .inr (.inl (by rw [hb]; rfl))
    · exact .inr (.inr ⟨v, by rw [hb]; rfl⟩)
  · intro u i e q _ _ hq
    simp [hpc, Pc.covers] at hq
  · refine ⟨.inl h1, h3, by omega, h4, ?_, ?_⟩
    · rw [overlay_append]
      rfl
    · rw [overlay_append]
      exact h5
  · intro b
    simp only [hpc, Pc.pins, h1]
    grind

/-- Where a scan over the slots starts. -/
theorem scanStart_cases (next : Fin n → Pc n) (last : Pc n) :
    (∃ i : Fin n, (∀ j, i ≤ j) ∧ scanStart next last = next i) ∨
      (n = 0 ∧ scanStart next last = last) := by
  unfold scanStart
  split
  · exact .inl ⟨⟨0, ‹_›⟩, fun j => Fin.mk_le_of_le_val (Nat.zero_le _), rfl⟩
  · exact .inr ⟨by omega, rfl⟩

/-- The `fetch_add` of `synchronize` inside a write: the swap has reached memory,
and every reader of the old block entered at an epoch below the new one. -/
theorem Inv.bump {s : TsoState T (Mem n) (Store n) (Local n)} (h : Inv owner s) {t : T}
    {old fresh : Nat} (hpc : (s.pc t).pc = .syncBump (some (old, fresh)))
    (hlt : s.mem.globalEpoch + 1 < inactive) :
    Inv owner ⟨{ (code owner).overlay s.mem (s.buf t) with
        globalEpoch := s.mem.globalEpoch + 1 }, Function.update s.buf t [],
      Function.update s.pc t { s.pc t with
        pc := scanStart (.syncScan (some (old, fresh)) (s.mem.globalEpoch + 1))
          (syncReturn (some (old, fresh))) }⟩ := by
  have hothers := h.others (t := t) (by simp [hpc, Pc.holdsLock])
  obtain ⟨hpin, hdead⟩ := h.heap hothers
  obtain ⟨-, h5, h6⟩ := overlay_frame owner s.mem (s.buf t)
  have hw := h.writer t
  have hbound := h.bound.2
  have hslot : ((code owner).overlay s.mem (s.buf t)).slot = s.mem.slot := by
    have hb := h.buf t
    simp only [hpc, bufOk] at hb
    rcases hb with hb | hb | ⟨v, hb⟩ <;> simp [hb, code]
  have hlock : ((code owner).overlay s.mem (s.buf t)).writerLock = s.mem.writerLock := by
    have hb := h.buf t
    simp only [hpc, bufOk] at hb
    rcases hb with hb | hb | ⟨v, hb⟩ <;> simp [hb, code]
  simp only [hpc, writerOk] at hw
  obtain ⟨h7, h8, h9, h10, h11, h12⟩ := hw
  have hpin' : ∀ b, b = old ∨ b = fresh → s.mem.frees b = 0 := fun b hb =>
    hpin b (.inr (by simpa [hpc, Pc.pins] using hb))
  have hdead' : ∀ b, b < s.mem.nextBlock → b ≠ fresh → b ≠ old → s.mem.frees b = 1 := by
    intro b hb hne hne'
    refine hdead b hb ?_ (by simp [hpc, Pc.pins, hne, hne'])
    rcases h7 with h7 | h7 <;> rwa [h7]
  have hheld : ∀ u i e p, u ≠ t → (s.pc u).pc.held = some (i, e, p) →
      (p = s.mem.dataPtr ∨ (s.pc t).pc.covers i e p) →
      p = fresh ∨ (p = old ∧ e < s.mem.globalEpoch + 1) := by
    intro u i e p _ hu hp
    have he := (h.held_slot hu).2
    simp only [hpc, Pc.covers] at hp
    rcases hp with hp | hp
    · rcases h7 with h7 | h7
      · exact .inr ⟨hp.trans h7, by omega⟩
      · exact .inl (hp.trans h7)
    · exact .inr ⟨hp, by omega⟩
  have hmove : ∀ p : Pc n, p.holdsLock = true → p.slotOf = none → bufOk owner t [] p →
      (∀ b, p.pins b ↔ b = old) →
      (∀ i e, e < s.mem.globalEpoch + 1 → p.covers i e old) →
      writerOk owner { (code owner).overlay s.mem (s.buf t) with
        globalEpoch := s.mem.globalEpoch + 1 } [] (total s.pc) p →
      Inv owner ⟨{ (code owner).overlay s.mem (s.buf t) with
        globalEpoch := s.mem.globalEpoch + 1 }, Function.update s.buf t [],
        Function.update s.pc t { s.pc t with pc := p }⟩ := by
    intro p hin hreader hbuf hpins hcovers hwriter
    have htot : total (Function.update s.pc t { s.pc t with pc := p }) = total s.pc :=
      total_update rfl
    refine h.inside hothers hreader (fun i _ => congrFun hslot i) (Nat.le_succ _) hlt
      (by rw [htot]; exact Nat.le_succ_of_le hbound)
      (h.lock_keep hlock (by rw [hin]; simp [claims, hpc, Pc.holdsLock])) hbuf ?_
      (by rw [htot]; exact hwriter) (by simp [hin])
      (by simpa [h11, h5] using h10) (by simpa [h5, h6] using h.unborn) ?_ ?_
    · intro u i e p' hu hu' hp
      refine (hheld u i e p' hu hu' hp).imp (fun hp => hp.trans h11.symm) fun hp => ?_
      rw [hp.1]
      exact hcovers i e hp.2
    · intro b hb
      rw [h11, hpins] at hb
      simpa [h6] using hpin' b hb.symm
    · intro b hb hne hno
      simp only [h5, h11, h6] at hb hne ⊢
      exact hdead' b hb hne (by rwa [hpins] at hno)
  rcases scanStart_cases (.syncScan (some (old, fresh)) (s.mem.globalEpoch + 1))
    (syncReturn (some (old, fresh))) with ⟨j, hj, hstart⟩ | ⟨hn, hstart⟩ <;> rw [hstart]
  · refine hmove _ rfl rfl rfl (fun b => Iff.rfl) (fun i e he => ⟨rfl, he, hj i⟩) ?_
    simp only [writerOk, h11, h12, h5]
    exact ⟨trivial, h8, h9, trivial, le_refl _, by omega⟩
  · refine hmove _ rfl rfl rfl (fun b => Iff.rfl) (fun i => absurd i.isLt (by omega)) ?_
    simp only [writerOk, syncReturn, h11, h12, h5]
    exact ⟨h8, h9, trivial, by omega⟩

/-- A slot of the grace period's scan that shows nobody from before it. -/
theorem Inv.pass {s : TsoState T (Mem n) (Store n) (Local n)} (h : Inv owner s) {t : T}
    {old fresh newEpoch : Nat} {j : Fin n}
    (hpc : (s.pc t).pc = .syncScan (some (old, fresh)) newEpoch j)
    (hslot : s.mem.slot j = inactive ∨ newEpoch ≤ s.mem.slot j) :
    Inv owner ⟨s.mem, Function.update s.buf t (s.buf t), Function.update s.pc t { s.pc t with
      pc := scanNext j (.syncScan (some (old, fresh)) newEpoch)
        (syncReturn (some (old, fresh))) }⟩ := by
  have hb : s.buf t = [] := by simpa [hpc, bufOk] using h.buf t
  have hw := h.writer t
  have hptr := h.ptr
  have hbound := h.bound.1
  simp only [hpc, writerOk] at hw
  obtain ⟨h1, h2, h3, h4, h5, h6⟩ := hw
  -- the reader of slot `j`, if there is one, entered after the bump
  have hafter : ∀ u i e q, (s.pc u).pc.held = some (i, e, q) →
      (s.pc t).pc.covers i e q → q = old ∧ e < newEpoch ∧ j < i := by
    intro u i e q hu hc
    simp only [hpc, Pc.covers] at hc
    obtain ⟨hq, he, hle⟩ := hc
    refine ⟨hq, he, lt_of_le_of_ne hle ?_⟩
    rintro rfl
    have := h.held_slot hu
    omega
  rcases scanNext_cases j (.syncScan (some (old, fresh)) newEpoch)
    (syncReturn (some (old, fresh))) with ⟨hi', hnext⟩ | ⟨hlast, hnext⟩ <;> rw [hnext]
  · refine h.quiet_inside (by simp [hpc, Pc.holdsLock]) rfl hb rfl ?_ ⟨h1, h2, h3, h4, h5, h6⟩ ?_
    · intro u i e q _ hu hc
      obtain ⟨hq, he, hlt⟩ := hafter u i e q hu hc
      exact ⟨hq, he, hlt⟩
    · simp [hpc, Pc.pins]
  · refine h.quiet_inside (by simp [hpc, Pc.holdsLock]) rfl hb rfl ?_ ?_ ?_
    · intro u i e q _ hu hc
      obtain ⟨-, -, hlt⟩ := hafter u i e q hu hc
      exact absurd (hlast i) (not_le.mpr hlt)
    · refine ⟨by rw [h1]; exact h2, h3, by rw [h1]; exact h4, h6⟩
    · simp [hpc, Pc.pins, syncReturn]

/-- Deleting the old block after the grace period. -/
theorem Inv.delete {s : TsoState T (Mem n) (Store n) (Local n)} (h : Inv owner s) {t : T}
    {old : Nat} (hpc : (s.pc t).pc = .wrDelete old) :
    Inv owner ⟨{ s.mem with frees := Function.update s.mem.frees old (s.mem.frees old + 1) },
      Function.update s.buf t [], Function.update s.pc t { s.pc t with pc := .wrUnlock }⟩ := by
  have hothers := h.others (t := t) (by simp [hpc, Pc.holdsLock])
  obtain ⟨hpin, hdead⟩ := h.heap hothers
  have htot : total (Function.update s.pc t { s.pc t with pc := .wrUnlock }) = total s.pc :=
    total_update rfl
  have hw := h.writer t
  simp only [hpc, writerOk] at hw
  obtain ⟨h1, h2, h3, h4⟩ := hw
  refine h.inside hothers rfl (fun _ _ => rfl) (le_refl _) h.bound.1
    (by rw [htot]; exact h.bound.2) (h.lock_keep rfl (by simp [claims, hpc, Pc.holdsLock]))
    rfl ?_ (by rw [htot]; exact ⟨h3, h4⟩) (by simp [Pc.holdsLock]) h.ptr ?_ ?_ ?_
  · intro u i e q _ _ hq
    exact hq.imp id fun hc => by simp [hpc, Pc.covers] at hc
  · intro b hb
    have hne : b ≠ old := by
      rintro rfl
      exact absurd h2 (not_lt.mpr hb)
    simpa [hne] using h.unborn b hb
  · rintro b (rfl | hb)
    · simpa [h1] using hpin _ (.inl rfl)
    · exact hb.elim
  · intro b hlt hne hno
    by_cases hb : b = old
    · have h0 : s.mem.frees old = 0 := hpin old (.inr (by simp [hpc, Pc.pins]))
      simp [hb, h0]
    · simpa [hb] using hdead b hlt hne (by simpa [hpc, Pc.pins] using hb)

/-- Dropping the writer lock, which completes the write. -/
theorem Inv.unlock {s : TsoState T (Mem n) (Store n) (Local n)} (h : Inv owner s) {t : T}
    (hpc : (s.pc t).pc = .wrUnlock) :
    Inv owner ⟨s.mem, Function.update s.buf t (s.buf t ++ [.writerLock false]),
      Function.update s.pc t ⟨.idle, (s.pc t).reads, (s.pc t).writes + 1⟩⟩ := by
  have hothers := h.others (t := t) (by simp [hpc, Pc.holdsLock])
  obtain ⟨hpin, hdead⟩ := h.heap hothers
  have htot : total (Function.update s.pc t ⟨.idle, (s.pc t).reads, (s.pc t).writes + 1⟩) =
      total s.pc + 1 := total_update_succ rfl
  have hb : s.buf t = [] := by simpa [hpc, bufOk] using h.buf t
  have hw := h.writer t
  simp only [hpc, writerOk] at hw
  refine h.inside hothers rfl (fun _ _ => rfl) (le_refl _) h.bound.1
    (by rw [htot]; exact hw.2)
    (h.lock_keep rfl (by simp [claims, hpc, Pc.holdsLock])) (.inr (.inl (by rw [hb]; rfl)))
    ?_ trivial (fun _ => by rw [htot]; exact hw.1) h.ptr h.unborn ?_ ?_
  · intro u i e q _ _ hq
    exact hq.imp id fun hc => by simp [hpc, Pc.covers] at hc
  · rintro b (rfl | hb)
    · exact hpin _ (.inl rfl)
    · exact hb.elim
  · intro b hlt hne _
    exact hdead b hlt hne (by simp [hpc, Pc.pins])

/-- The slot store of `read_lock`. -/
theorem Inv.publish {s : TsoState T (Mem n) (Store n) (Local n)} (h : Inv owner s) {t : T}
    {i : Fin n} {e : Nat} (hpc : (s.pc t).pc = .rdPublish i e) :
    Inv owner ⟨s.mem, Function.update s.buf t (s.buf t ++ [.slot i e]),
      Function.update s.pc t { s.pc t with pc := .rdPtr i e }⟩ := by
  have hb : bufIdle owner t (s.buf t) := by simpa [hpc, bufOk] using h.buf t
  have hown := h.own t i (by simp [hpc, Pc.slotOf])
  have hep := h.epoch t i e (by simp [hpc, Pc.epochOf])
  refine h.outside (by simp [hpc, Pc.holdsLock]) rfl rfl rfl rfl rfl rfl (fun _ _ => rfl)
    (le_refl _) h.bound.1 (h.lock_keep rfl (by simp [claims, hpc, Pc.holdsLock]))
    (.inr ⟨_, hb, rfl⟩) ?_ ?_ ?_ (by simp [Pc.held])
  · intro j hj
    obtain rfl : i = j := by simpa [Pc.slotOf] using hj
    exact hown
  · intro j e' hj
    obtain ⟨rfl, rfl⟩ : i = j ∧ e = e' := by simpa [Pc.epochOf] using hj
    exact hep
  · intro j e' hj
    obtain ⟨rfl, rfl⟩ : i = j ∧ e = e' := by simpa [Pc.sectionOf] using hj
    rw [overlay_append]
    simp [code]

/-- The slot store of `read_unlock`. -/
theorem Inv.retire {s : TsoState T (Mem n) (Store n) (Local n)} (h : Inv owner s) {t : T}
    {i : Fin n} {e p : Nat} (hpc : (s.pc t).pc = .rdRetire i e p) :
    Inv owner ⟨s.mem, Function.update s.buf t (s.buf t ++ [.slot i inactive]),
      Function.update s.pc t ⟨.idle, (s.pc t).reads + 1, (s.pc t).writes⟩⟩ := by
  have hb : s.buf t = [] := by simpa [hpc, bufOk] using h.buf t
  have hown := h.own t i (by simp [hpc, Pc.slotOf])
  exact h.outside (by simp [hpc, Pc.holdsLock]) rfl rfl rfl rfl rfl rfl (fun _ _ => rfl)
    (le_refl _) h.bound.1 (h.lock_keep rfl (by simp [claims, hpc, Pc.holdsLock]))
    (.inr (.inr ⟨i, hown, by rw [hb]; rfl⟩)) (by simp [Pc.slotOf]) (by simp [Pc.epochOf])
    (by simp [Pc.sectionOf]) (by simp [Pc.held])

/-- A store of a thread outside the writer lock reaches memory. -/
theorem Inv.flush_outside {s : TsoState T (Mem n) (Store n) (Local n)} (h : Inv owner s)
    {t : T} {w : Store n} {ws : List (Store n)} (hout : (s.pc t).pc.holdsLock = false)
    (hbuf : s.buf t = w :: ws)
    (hw : (w = .writerLock false ∧ .writerLock false ∉ ws) ∨
      ∃ i x, owner i = t ∧ w = .slot i x)
    (hrest : bufOk owner t ws (s.pc t).pc) :
    Inv owner { s with mem := (code owner).apply w s.mem, buf := Function.update s.buf t ws } := by
  have hpub := h.published t
  rw [hbuf] at hpub
  have hmove := h.outside (t := t) (m := (code owner).apply w s.mem) (b := ws) (l := s.pc t)
    hout hout rfl
  rw [Function.update_eq_self] at hmove
  rcases hw with ⟨rfl, hno⟩ | ⟨i, x, hi, rfl⟩
  · refine hmove rfl rfl rfl rfl (fun _ _ => rfl) (le_refl _) h.bound.1 ?_ hrest (h.own t)
      (h.epoch t) hpub (h.held t)
    refine FlagInv.drop fun u hu => ?_
    by_cases hut : u = t
    · subst hut
      simp [claims, hout, hno] at hu
    · exact hut (h.lock.unique u t (by simpa [claims, hut] using hu) (.inr (by simp [hbuf])))
  · refine hmove rfl rfl rfl rfl ?_ (le_refl _) h.bound.1 ?_ hrest (h.own t) (h.epoch t) hpub
      (h.held t)
    · intro j hj
      have hji : j ≠ i := by
        rintro rfl
        exact hj hi
      simp [code, hji]
    · refine h.lock.congr fun u => ?_
      by_cases hut : u = t
      · simp [claims, hut, hbuf]
      · simp [claims, hut]

/-- A store of the thread at the writer lock reaches memory. -/
theorem Inv.flush_inside {s : TsoState T (Mem n) (Store n) (Local n)} (h : Inv owner s)
    {t : T} {w : Store n} {ws : List (Store n)} {fresh : Nat}
    (hin : (s.pc t).pc.holdsLock = true) (hreader : (s.pc t).pc.slotOf = none)
    (hbuf : s.buf t = w :: ws)
    (hw : (∃ v, w = .value fresh v) ∨
      w = .dataPtr fresh ∧ ∃ old, (s.pc t).pc = .syncBump (some (old, fresh)))
    (hpin : (s.pc t).pc.pins fresh) (hfresh : fresh < s.mem.nextBlock)
    (hrest : bufOk owner t ws (s.pc t).pc)
    (hwriter : writerOk owner ((code owner).apply w s.mem) ws (total s.pc) (s.pc t).pc) :
    Inv owner { s with mem := (code owner).apply w s.mem, buf := Function.update s.buf t ws } := by
  have hothers := h.others hin
  obtain ⟨hpinned, hdead⟩ := h.heap hothers
  have hmove := h.inside (t := t) (m := (code owner).apply w s.mem) (b := ws) (l := s.pc t)
    hothers hreader
  have hlockclaims : ∀ m : Mem n, m.writerLock = s.mem.writerLock →
      FlagInv m.writerLock (claims ⟨m, Function.update s.buf t ws, s.pc⟩) := by
    intro m hm
    have hkeep := h.lock_keep (t := t) (m := m) (b := ws) (l := s.pc t) hm
      (by simp [claims, hin])
    rwa [Function.update_eq_self] at hkeep
  rw [Function.update_eq_self] at hmove
  rcases hw with ⟨v, rfl⟩ | ⟨rfl, old, hpc⟩
  · exact hmove (fun _ _ => rfl) (le_refl _) h.bound.1 h.bound.2 (hlockclaims _ rfl) hrest
      (fun _ _ _ _ _ _ hq => hq) hwriter (by simp [hin]) h.ptr h.unborn hpinned hdead
  · have hwOld := h.writer t
    simp only [hpc, writerOk] at hwOld
    refine hmove (fun _ _ => rfl) (le_refl _) h.bound.1 h.bound.2 (hlockclaims _ rfl) hrest
      ?_ hwriter (by simp [hin]) hfresh h.unborn ?_ ?_
    · intro u i e q _ _ hq
      simp only [hpc, Pc.covers] at hq ⊢
      rcases hq with hq | hq
      · exact hwOld.1.symm.imp (hq.trans) (hq.trans)
      · exact .inr hq
    · rintro b (rfl | hb)
      · exact hpinned _ (.inr hpin)
      · exact hpinned _ (.inr hb)
    · intro b hlt hne hno
      refine hdead b hlt ?_ hno
      intro hb
      have hne' : b ≠ fresh := hne
      simp only [hpc, Pc.pins] at hno
      rcases hwOld.1 with h1 | h1
      · exact hno (.inl (hb.trans h1))
      · exact hne' (hb.trans h1)

/-- **Flushes.**  A buffered store reaching memory keeps the invariant. -/
theorem Inv.flush {s s' : TsoState T (Mem n) (Store n) (Local n)} (h : Inv owner s) {t : T}
    (hstep : (tso owner).step s (.flush t) = some s') : Inv owner s' := by
  obtain ⟨w, ws, hbuf, rfl⟩ := Code.tso_flush_cases hstep
  have hb := h.buf t
  rw [hbuf] at hb
  have hidle : bufIdle owner t (w :: ws) → (s.pc t).pc.holdsLock = false →
      bufOk owner t [] (s.pc t).pc →
      Inv owner { s with mem := (code owner).apply w s.mem, buf := Function.update s.buf t ws } := by
    intro hb hout hrest
    rcases hb with hb | hb | ⟨i, hi, hb⟩
    · cases hb
    · cases hb
      exact h.flush_outside hout hbuf (.inl ⟨rfl, by simp⟩) hrest
    · cases hb
      exact h.flush_outside hout hbuf (.inr ⟨i, _, hi, rfl⟩) hrest
  have hw := h.writer t
  rw [hbuf] at hw
  cases hpc : (s.pc t).pc with
  | idle | rdEpoch | rdPublish | wrCas =>
      rw [hpc] at hb
      exact hidle hb (by rw [hpc]; rfl) (by rw [hpc]; exact .inl rfl)
  | rdPtr i e =>
      have hi := h.own t i (by simp [hpc, Pc.slotOf])
      have hout : (s.pc t).pc.holdsLock = false := by simp [hpc, Pc.holdsLock]
      rw [hpc] at hb
      rcases hb with hb | ⟨b₀, hb₀, hb⟩
      · cases hb
      rcases hb₀ with rfl | rfl | ⟨j, hj, rfl⟩
      · obtain ⟨rfl, rfl⟩ := List.cons.inj hb
        exact h.flush_outside hout hbuf (.inr ⟨i, e, hi, rfl⟩) (by rw [hpc]; exact .inl rfl)
      · obtain ⟨rfl, rfl⟩ := List.cons.inj hb
        exact h.flush_outside hout hbuf (.inl ⟨rfl, by simp⟩)
          (by rw [hpc]; exact .inr ⟨[], .inl rfl, rfl⟩)
      · obtain ⟨rfl, rfl⟩ := List.cons.inj hb
        exact h.flush_outside hout hbuf (.inr ⟨j, _, hj, rfl⟩)
          (by rw [hpc]; exact .inr ⟨[], .inl rfl, rfl⟩)
  | wrSwap old fresh =>
      rw [hpc] at hb hw
      rcases hb with hb | ⟨v, hb⟩
      · cases hb
      obtain ⟨rfl, rfl⟩ := List.cons.inj hb
      obtain ⟨h1, h2, h3, h4, h5⟩ := hw
      refine h.flush_inside (by simp [hpc, Pc.holdsLock]) (by simp [hpc, Pc.slotOf]) hbuf
        (.inl ⟨v, rfl⟩) (by simp [hpc, Pc.pins]) h4 (by rw [hpc]; exact .inl rfl) ?_
      rw [hpc]
      refine ⟨h1, ?_, h3, h4, h5⟩
      simpa [code, h3.symm] using h2
  | syncBump k =>
      rcases k with _ | ⟨old, fresh⟩
      · rw [hpc] at hb
        exact hidle hb (by rw [hpc]; rfl) (by rw [hpc]; exact .inl rfl)
      rw [hpc] at hb hw
      obtain ⟨h1, h2, h3, h4, h5, h6⟩ := hw
      rcases hb with hb | hb | ⟨v, hb⟩
      · cases hb
      · obtain ⟨rfl, rfl⟩ := List.cons.inj hb
        refine h.flush_inside (by simp [hpc, Pc.holdsLock]) (by simp [hpc, Pc.slotOf]) hbuf
          (.inr ⟨rfl, old, hpc⟩) (by simp [hpc, Pc.pins]) h4 (by rw [hpc]; exact .inl rfl) ?_
        rw [hpc]
        exact ⟨.inr rfl, h2, h3, h4, h5, h6⟩
      · obtain ⟨rfl, rfl⟩ := List.cons.inj hb
        refine h.flush_inside (by simp [hpc, Pc.holdsLock]) (by simp [hpc, Pc.slotOf]) hbuf
          (.inl ⟨v, rfl⟩) (by simp [hpc, Pc.pins]) h4 (by rw [hpc]; exact .inr (.inl rfl)) ?_
        rw [hpc]
        exact ⟨h1, h2, h3, h4, h5, h6⟩
  | _ =>
      rw [hpc] at hb
      cases hb

/-- Points at which the reader loads `data_ptr`. -/
def Pc.loadsPtr : Pc n → Bool
  | .rdPtr _ _ => true
  | _ => false

/-- Points at which `synchronize` bumps the epoch. -/
def Pc.bumps : Pc n → Bool
  | .syncBump _ => true
  | _ => false

/-- The reader's load of `data_ptr` finds its slot store already in memory. -/
def ReaderFlushed (s : TsoState T (Mem n) (Store n) (Local n)) : TsoAct T (Choice n) → Prop
  | .exec t _ => (s.pc t).pc.loadsPtr = true → s.buf t = []
  | .flush _ => True

/-- The `fetch_add` of `synchronize`, if it comes next, leaves the epoch below
`INACTIVE`. -/
def belowInactive (m : Mem n) (l : Local n) : Prop :=
  l.pc.bumps = true → m.globalEpoch + 1 < inactive

/-- Fewer than `2^64 - 1` calls of `synchronize`, on the store-buffer machine. -/
def EpochBelow (s : TsoState T (Mem n) (Store n) (Local n)) : TsoAct T (Choice n) → Prop
  | .exec t _ => belowInactive s.mem (s.pc t)
  | .flush _ => True

/-- A step of a thread outside the lock to a point that is not one of a reader. -/
theorem Inv.stay_outside {s : TsoState T (Mem n) (Store n) (Local n)} (h : Inv owner s) {t : T}
    (hout : (s.pc t).pc.holdsLock = false) (hnil : s.buf t = []) {p : Pc n}
    (hp : p.holdsLock = false) (hbuf : bufOk owner t [] p) (hreader : p.slotOf = none) :
    Inv owner { s with pc := Function.update s.pc t { s.pc t with pc := p } } := by
  refine h.quiet_outside hout hp (by rwa [hnil]) (by simp [hreader]) ?_ ?_ ?_
  · intro i e hi
    simp [epochOf_slotOf hi] at hreader
  · intro i e hi
    simp [sectionOf_slotOf hi] at hreader
  · intro i e q hi
    simp [held_slotOf hi] at hreader

/-- The exchange for the writer's lock fails. -/
theorem Inv.cas_fails {s : TsoState T (Mem n) (Store n) (Local n)} (h : Inv owner s) {t : T}
    (hpc : (s.pc t).pc = .wrCas) :
    Inv owner ⟨(code owner).overlay s.mem (s.buf t), Function.update s.buf t [],
      Function.update s.pc t { s.pc t with pc := .wrSpin }⟩ := by
  have hb := h.buf t
  rw [hpc] at hb
  obtain ⟨hep, -⟩ := overlay_frame owner s.mem (s.buf t)
  exact h.drain_outside (g := ((code owner).overlay s.mem (s.buf t)).globalEpoch)
    (by rw [hpc]; rfl) rfl hb hep.ge (by rw [hep]; exact h.bound.1) rfl rfl

/-- An idle thread begins to read, to write or to wait for readers. -/
theorem Inv.exec_idle {s : TsoState T (Mem n) (Store n) (Local n)} (h : Inv owner s) {t : T}
    (hpc : (s.pc t).pc = .idle) {p : Pc n}
    (hp : (∃ i, owner i = t ∧ p = .rdEpoch i) ∨ p = .wrCas ∨ p = .syncBump none) :
    Inv owner { s with pc := Function.update s.pc t { s.pc t with pc := p } } := by
  have hb := h.buf t
  rw [hpc] at hb
  rcases hp with ⟨i, hi, rfl⟩ | rfl | rfl
  · refine h.quiet_outside (by rw [hpc]; rfl) rfl hb ?_ (by simp [Pc.epochOf])
      (by simp [Pc.sectionOf]) (by simp [Pc.held])
    intro j hj
    obtain rfl : i = j := by simpa [Pc.slotOf] using hj
    exact hi
  · exact h.quiet_outside (by rw [hpc]; rfl) rfl hb (by simp [Pc.slotOf])
      (by simp [Pc.epochOf]) (by simp [Pc.sectionOf]) (by simp [Pc.held])
  · exact h.quiet_outside (by rw [hpc]; rfl) rfl hb (by simp [Pc.slotOf])
      (by simp [Pc.epochOf]) (by simp [Pc.sectionOf]) (by simp [Pc.held])

/-- The points of a reader. -/
def Pc.reads : Pc n → Bool
  | .rdEpoch _ | .rdPublish _ _ | .rdPtr _ _ | .rdDeref _ _ _ | .rdRetire _ _ _ => true
  | _ => false

/-- The points of `synchronize`. -/
def Pc.syncs : Pc n → Bool
  | .syncBump _ | .syncScan _ _ _ | .syncReturned => true
  | _ => false

section

variable {s s' : TsoState T (Mem n) (Store n) (Local n)} {t : T}

/-- The accesses of a reader. -/
theorem Inv.exec_reader (h : Inv owner s) {c : Choice n}
    (hflushed : ReaderFlushed s (.exec t c)) (hreads : (s.pc t).pc.reads = true)
    (hgo' : ∀ a, access (s.pc t) = some a → (code owner).tsoAccess s t a = some s') :
    Inv owner s' := by
  have hb := h.buf t
  obtain ⟨hframe, -, -⟩ := overlay_frame owner s.mem (s.buf t)
  cases hpc : (s.pc t).pc with
  | rdEpoch i =>
      have hmove := hgo' _ (by rw [access, hpc])
      obtain rfl := Option.some.inj hmove
      rw [hpc] at hb
      refine h.quiet_outside (by rw [hpc]; rfl) rfl hb ?_ ?_ (by simp [Pc.sectionOf])
        (by simp [Pc.held])
      · intro j hj
        exact h.own t j (by simpa [hpc, Pc.slotOf] using hj)
      · intro j e hj
        obtain ⟨-, rfl⟩ : i = j ∧ _ = e := by simpa [Pc.epochOf] using hj
        exact hframe.le
  | rdPublish i e =>
      have hmove := hgo' _ (by rw [access, hpc])
      obtain rfl := Option.some.inj hmove
      exact h.publish hpc
  | rdPtr i e =>
      have hmove := hgo' _ (by rw [access, hpc])
      obtain rfl := Option.some.inj hmove
      have hnil := hflushed (by rw [hpc]; rfl)
      have hpub := h.published t i e (by simp [hpc, Pc.sectionOf])
      have hep := h.epoch t i e (by simp [hpc, Pc.epochOf])
      refine h.quiet_outside (by rw [hpc]; rfl) rfl hnil ?_ ?_ ?_ ?_
      · intro j hj
        exact h.own t j (by simpa [hpc, Pc.slotOf] using hj)
      · intro j e' hj
        obtain ⟨-, rfl⟩ : i = j ∧ e = e' := by simpa [Pc.epochOf] using hj
        exact hep
      · intro j e' hj
        obtain ⟨rfl, rfl⟩ : i = j ∧ e = e' := by simpa [Pc.sectionOf] using hj
        exact hpub
      · intro j e' q hj
        obtain ⟨-, -, rfl⟩ : i = j ∧ e = e' ∧ _ = q := by simpa [Pc.held] using hj
        exact .inl (by rw [Code.view_of_buf_nil _ hnil])
  | rdDeref i e p =>
      have hmove := hgo' _ (by rw [access, hpc])
      obtain rfl := Option.some.inj hmove
      rw [hpc] at hb
      refine h.quiet_outside (by rw [hpc]; rfl) rfl hb ?_ ?_ ?_ ?_
      · intro j hj
        exact h.own t j (by simpa [hpc, Pc.slotOf] using hj)
      · intro j e' hj
        exact h.epoch t j e' (by simpa [hpc, Pc.epochOf] using hj)
      · intro j e' hj
        exact h.published t j e' (by simpa [hpc, Pc.sectionOf] using hj)
      · intro j e' q hj
        exact h.held t j e' q (by simpa [hpc, Pc.held] using hj)
  | rdRetire i e p =>
      have hmove := hgo' _ (by rw [access, hpc])
      obtain rfl := Option.some.inj hmove
      exact h.retire hpc
  | _ =>
      rw [hpc] at hreads
      cases hreads

/-- The accesses of `synchronize`. -/
theorem Inv.exec_sync (h : Inv owner s) {c : Choice n} (hbelow : EpochBelow s (.exec t c))
    (hsyncs : (s.pc t).pc.syncs = true)
    (hgo' : ∀ a, access (s.pc t) = some a → (code owner).tsoAccess s t a = some s') :
    Inv owner s' := by
  have hb := h.buf t
  have hself : Function.update s.buf t (s.buf t) = s.buf := Function.update_eq_self t s.buf
  obtain ⟨hframe, -, -⟩ := overlay_frame owner s.mem (s.buf t)
  cases hpc : (s.pc t).pc with
  | syncBump k =>
      have hmove := hgo' _ (by rw [access, hpc])
      obtain rfl := Option.some.inj hmove
      have hlt := hbelow (by rw [hpc]; rfl)
      have hmod : (((code owner).view s t).globalEpoch + 1) % 2 ^ 64 = s.mem.globalEpoch + 1 := by
        rw [Code.view, hframe]
        refine Nat.mod_eq_of_lt ?_
        simp only [inactive] at hlt
        omega
      simp only [hmod]
      rcases k with _ | ⟨old, fresh⟩
      · rw [hpc] at hb
        rcases scanStart_cases (.syncScan none (s.mem.globalEpoch + 1)) (syncReturn (n := n) none)
          with ⟨j, -, hstart⟩ | ⟨-, hstart⟩ <;> rw [hstart]
        · exact h.drain_outside (by rw [hpc]; rfl) rfl hb (Nat.le_succ _) hlt rfl rfl
        · exact h.drain_outside (by rw [hpc]; rfl) rfl hb (Nat.le_succ _) hlt rfl rfl
      · exact h.bump hpc hlt
  | syncScan k newEpoch j =>
      have hmove := hgo' _ (by rw [access, hpc])
      obtain rfl := Option.some.inj hmove
      have hnil : s.buf t = [] := by rcases k with _ | k <;> rw [hpc] at hb <;> exact hb
      rw [Code.view_of_buf_nil _ hnil]
      dsimp only
      split
      · rcases k with _ | ⟨old, fresh⟩
        · rcases scanNext_cases j (.syncScan none newEpoch) (syncReturn (n := n) none)
            with ⟨hj, hnext⟩ | ⟨-, hnext⟩ <;> rw [hnext]
          · exact h.stay_outside (by rw [hpc]; rfl) hnil rfl rfl rfl
          · exact h.stay_outside (by rw [hpc]; rfl) hnil rfl rfl rfl
        · have hnext := h.pass hpc ‹_›
          rwa [hself] at hnext
      · rwa [Function.update_eq_self]
  | syncReturned =>
      have hmove := hgo' _ (by rw [access, hpc])
      obtain rfl := Option.some.inj hmove
      rw [hpc] at hb
      exact h.stay_outside (by rw [hpc]; rfl) hb rfl (.inl rfl) rfl
  | _ =>
      rw [hpc] at hsyncs
      cases hsyncs

/-- The accesses of a writer. -/
theorem Inv.exec_writer (h : Inv owner s) (hreads : (s.pc t).pc.reads = false)
    (hsyncs : (s.pc t).pc.syncs = false) {a : Access (Mem n) (Store n) (Local n)} (hgo : access (s.pc t) = some a)
    (hgo' : ∀ a, access (s.pc t) = some a → (code owner).tsoAccess s t a = some s') :
    Inv owner s' := by
  have hb := h.buf t
  have hw := h.writer t
  have hself : Function.update s.buf t (s.buf t) = s.buf := Function.update_eq_self t s.buf
  cases hpc : (s.pc t).pc with
  | idle => simp [access, hpc] at hgo
  | wrCas =>
      have hrmw := hgo' _ (by rw [access, hpc])
      simp only [Code.tsoAccess] at hrmw
      split at hrmw
      · obtain rfl := Option.some.inj hrmw
        exact h.cas_fails hpc
      · obtain rfl := Option.some.inj hrmw
        refine h.take hpc ?_
        rename_i hfree
        simpa [Code.view] using hfree
  | wrSpin =>
      have hmove := hgo' _ (by rw [access, hpc])
      obtain rfl := Option.some.inj hmove
      rw [hpc] at hb
      dsimp only
      split
      · exact h.stay_outside (by rw [hpc]; rfl) hb rfl rfl rfl
      · exact h.stay_outside (by rw [hpc]; rfl) hb rfl (.inl rfl) rfl
  | wrOld =>
      have hmove := hgo' _ (by rw [access, hpc])
      obtain rfl := Option.some.inj hmove
      rw [hpc] at hb hw
      rw [Code.view_of_buf_nil _ hb]
      have hnext := h.quiet_inside (t := t) (p := .wrRead s.mem.dataPtr) (b := s.buf t)
        (by rw [hpc]; rfl) rfl hb rfl (by simp [hpc, Pc.covers]) ⟨rfl, hw⟩ (by simp [hpc, Pc.pins])
      rwa [hself] at hnext
  | wrRead old =>
      have hmove := hgo' _ (by rw [access, hpc])
      obtain rfl := Option.some.inj hmove
      rw [hpc] at hb hw
      rw [Code.view_of_buf_nil _ hb]
      have hnext := h.quiet_inside (t := t) (p := .wrNew old (s.mem.value old)) (b := s.buf t)
        (by rw [hpc]; rfl) rfl hb rfl (by simp [hpc, Pc.covers]) ⟨hw.1, hw.2, hw.2⟩
        (by simp [hpc, Pc.pins])
      rwa [hself] at hnext
  | wrNew old v =>
      have hmove := hgo' _ (by rw [access, hpc])
      obtain rfl := Option.some.inj hmove
      rw [hpc] at hb
      rw [Code.view_of_buf_nil _ hb]
      exact h.alloc hpc
  | wrInit old fresh v =>
      have hmove := hgo' _ (by rw [access, hpc])
      obtain rfl := Option.some.inj hmove
      exact h.fill hpc
  | wrSwap old fresh =>
      have hmove := hgo' _ (by rw [access, hpc])
      obtain rfl := Option.some.inj hmove
      exact h.swap hpc
  | wrDelete old =>
      have hmove := hgo' _ (by rw [access, hpc])
      obtain rfl := Option.some.inj hmove
      rw [hpc] at hb
      rw [Code.view_of_buf_nil _ hb]
      exact h.delete hpc
  | wrUnlock =>
      have hmove := hgo' _ (by rw [access, hpc])
      obtain rfl := Option.some.inj hmove
      exact h.unlock hpc
  | rdEpoch | rdPublish | rdPtr | rdDeref | rdRetire =>
      rw [hpc] at hreads
      cases hreads
  | syncBump | syncScan | syncReturned =>
      rw [hpc] at hsyncs
      cases hsyncs

end

/-- **Accesses.**  An executed access keeps the invariant. -/
theorem Inv.exec {s s' : TsoState T (Mem n) (Store n) (Local n)} (h : Inv owner s) {t : T}
    {c : Choice n} (hflushed : ReaderFlushed s (.exec t c)) (hbelow : EpochBelow s (.exec t c))
    (hstep : (tso owner).step s (.exec t c) = some s') : Inv owner s' := by
  obtain ⟨acc, hacc, hs'⟩ := Code.tso_exec_cases hstep
  rcases access_cases hacc with ⟨hpc, p, rfl, hp⟩ | ⟨hpc, rfl⟩ | hgo
  · obtain rfl := Option.some.inj hs'
    exact h.exec_idle hpc hp
  · obtain rfl := Option.some.inj hs'
    exact h.cas_fails hpc
  have hgo' : ∀ a, access (s.pc t) = some a → (code owner).tsoAccess s t a = some s' := by
    intro a ha
    rw [← Option.some.inj (hgo.symm.trans ha)]
    exact hs'
  cases hreads : (s.pc t).pc.reads with
  | true => exact h.exec_reader hflushed hreads hgo'
  | false =>
      cases hsyncs : (s.pc t).pc.syncs with
      | true => exact h.exec_sync hbelow hsyncs hgo'
      | false => exact h.exec_writer hreads hsyncs hgo hgo'

omit [DecidableEq T] in
/-- Nothing has been written at the start. -/
theorem total_init : total (fun _ : T => (⟨.idle, 0, 0⟩ : Local n)) = 0 := by
  simp [total]

/-- The invariant holds at the start. -/
theorem inv_init : Inv owner (tso owner).init where
  lock := FlagInv.drop fun u hu => by simp [claims, tso, Code.tso, Pc.holdsLock] at hu
  buf _ := .inl rfl
  own _ _ h := by simp [tso, Code.tso, Pc.slotOf] at h
  bound := ⟨by simp [tso, Code.tso, initMem, inactive], total_init.le⟩
  epoch _ _ _ h := by simp [tso, Code.tso, Pc.epochOf] at h
  published _ _ _ h := by simp [tso, Code.tso, Pc.sectionOf] at h
  held _ _ _ _ h := by simp [tso, Code.tso, Pc.held] at h
  writer _ := trivial
  quiet _ := total_init.symm
  ptr := Nat.zero_lt_one
  unborn _ _ := rfl
  pinned _ _ := rfl
  dead b hlt hne := by
    have h1 : b < 1 := hlt
    have h0 : b ≠ 0 := hne
    omega

/-- The invariant holds throughout runs in which readers load `data_ptr` with
their slot store in memory and the epoch stays below `INACTIVE`. -/
theorem inv_reachable {s : TsoState T (Mem n) (Store n) (Local n)}
    (h : (tso owner).ReachableUnder (fun s a => ReaderFlushed s a ∧ EpochBelow s a) s) :
    Inv owner s := by
  refine h.invariant inv_init fun s a s' hinv hcond hstep => ?_
  cases a with
  | exec t c => exact hinv.exec hcond.1 hcond.2 hstep
  | flush t => exact hinv.flush hstep

end Invariant
end EpochRcu
