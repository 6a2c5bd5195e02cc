import LockBench.ReaderSlots

/-!
# The spinning reader-writer lock

`rw_lock` keeps one signed 32-bit word: the number of readers inside, or -1 while a
writer is.  Readers enter by a compare-exchange from a value they loaded earlier; the
writer leaves by a blind store of 0, and `wh_lock_shim` turns a writer into a reader by
a blind store of 1.

The text is the whole interface with one access to the word per program point.  A
weak compare-exchange may fail for no reason, a strong one may not.
-/

namespace RwLock

open ReaderSlots

/-- Program points, named after the access made there; the value is the one loaded. -/
inductive Pc
  | idle
  | returnedFalse
  | rlLoad
  | rlCas (s : Int)
  | reading
  | wlCas
  | writing
  | twCas
  | trLoad
  | trCas (s : Int)
  deriving DecidableEq

/-- How a thread's nondeterminism is resolved: the function it calls, the ordinary next
access, a spurious failure, or the shim's downgrade in place of the unlock. -/
inductive Choice
  | readLock
  | writeLock
  | tryReadLock
  | tryWriteLock
  | go
  | spurious
  | writeToRead
  deriving DecidableEq

/-- The first access of the function a thread decides to call. -/
def call : Choice → Option Pc
  | .readLock => some .rlLoad
  | .writeLock => some .wlCas
  | .tryReadLock => some .trLoad
  | .tryWriteLock => some .twCas
  | _ => none

/-- `compare_exchange(expected, desired)` of the word. -/
def exchange (m expected desired : Int) (won lost : Pc) : Int × Pc :=
  if m = expected then (desired, won) else (m, lost)

/-- One access of a thread. -/
def next (m : Int) : Pc → Choice → Option (Int × Pc)
  | .idle, c => (call c).map (m, ·)
  | .returnedFalse, c => (call c).map (m, ·)
  | .rlLoad, .go => some (m, if 0 ≤ m then .rlCas m else .rlLoad)
  | .rlCas s, .go => some (exchange m s (int32 (s + 1)) .reading .rlLoad)
  | .rlCas _, .spurious => some (m, .rlLoad)
  | .reading, .go => some (int32 (m - 1), .idle)
  | .wlCas, .go => some (exchange m 0 (-1) .writing .wlCas)
  | .wlCas, .spurious => some (m, .wlCas)
  | .writing, .go => some (0, .idle)
  | .writing, .writeToRead => some (1, .reading)
  | .twCas, .go => some (exchange m 0 (-1) .writing .returnedFalse)
  | .trLoad, .go => some (m, if m < 0 then .returnedFalse else .trCas m)
  | .trCas s, .go => some (exchange m s (int32 (s + 1)) .reading .returnedFalse)
  | _, _ => none

/-- Any number of threads over one lock. -/
def machine (T : Type) [DecidableEq T] : Machine (ScState T Int Pc) (T × Choice) :=
  interleave (fun _ => next) 0 .idle

/-! ## What one access does -/

/-- The thread is inside a `try_` call. -/
def Pc.trying : Pc → Bool
  | .twCas | .trLoad | .trCas _ => true
  | _ => false

/-- The thread holds the lock. -/
def Pc.holds : Pc → Bool
  | .reading | .writing => true
  | _ => false

/-- Who holds the lock reads or writes. -/
theorem holds_iff {p : Pc} : p.holds = true ↔ p = .reading ∨ p = .writing := by
  cases p <;> simp [Pc.holds]

/-- The value that the thread is going to compare with. -/
def Pc.loaded : Pc → Option Int
  | .rlCas s | .trCas s => some s
  | _ => none

/-- What an access does to the word and to the thread's hold on the lock. -/
inductive Move (m : Int) (p : Pc) : Int → Pc → Prop
  | stay {p' : Pc} (hp : p.holds = false) (hp' : p'.holds = false)
      (hs : ∀ s, p'.loaded = some s → s = m ∧ 0 ≤ m) : Move m p m p'
  | enterRead (hp : p.loaded = some m) : Move m p (int32 (m + 1)) .reading
  | leaveRead (hp : p = .reading) : Move m p (int32 (m - 1)) .idle
  | enterWrite (hp : p.holds = false) (hm : m = 0) : Move m p (-1) .writing
  | leaveWrite (hp : p = .writing) : Move m p 0 .idle
  | downgrade (hp : p = .writing) : Move m p 1 .reading

/-- Where the calls begin. -/
theorem call_cases {c : Choice} {p : Pc} (h : call c = some p) :
    p.holds = false ∧ p.loaded = none := by
  cases c <;> simp only [call, Option.some.injEq, reduceCtorEq] at h <;> subst h <;> exact ⟨rfl, rfl⟩

/-- A compare-and-swap moves the word by its difference or not at all. -/
theorem exchange_move {m s d : Int} {p won lost : Pc} {r : Int × Pc} (hlost : lost.holds = false)
    (hload : lost.loaded = none) (hp : p.holds = false) (h : exchange m s d won lost = r)
    (hwon : m = s → Move m p d won) : Move m p r.1 r.2 := by
  subst h
  unfold exchange
  split
  · exact hwon ‹_›
  · exact .stay hp hlost (by simp [hload])

/-- **Every access moves the word** by what the thread's position gains. -/
theorem next_move {m m' : Int} {p p' : Pc} {c : Choice} (h : next m p c = some (m', p')) :
    Move m p m' p' := by
  have hidle : ∀ q : Pc, q.holds = false → (call c).map (m, ·) = some (m', p') → Move m q m' p' := by
    intro q hq hc
    obtain ⟨r, hr, heq⟩ := Option.map_eq_some_iff.mp hc
    obtain ⟨rfl, rfl⟩ := Prod.mk.inj heq
    obtain ⟨hh, hl⟩ := call_cases hr
    exact .stay hq hh (by simp [hl])
  cases p
  case idle => exact hidle _ rfl h
  case returnedFalse => exact hidle _ rfl h
  all_goals cases c <;> simp only [next, Option.some.injEq, reduceCtorEq] at h
  case rlLoad.go =>
    obtain ⟨rfl, rfl⟩ := Prod.mk.inj h
    split
    next hm => exact .stay rfl rfl fun s hs => ⟨(Option.some.inj hs).symm, hm⟩
    next => exact .stay rfl rfl nofun
  case trLoad.go =>
    obtain ⟨rfl, rfl⟩ := Prod.mk.inj h
    split
    next => exact .stay rfl rfl nofun
    next hm => exact .stay rfl rfl fun s hs => ⟨(Option.some.inj hs).symm, by omega⟩
  case rlCas.go s =>
    refine exchange_move rfl rfl rfl h ?_
    rintro rfl
    exact .enterRead rfl
  case trCas.go s =>
    refine exchange_move rfl rfl rfl h ?_
    rintro rfl
    exact .enterRead rfl
  case wlCas.go => exact exchange_move rfl rfl rfl h fun hm => .enterWrite rfl hm
  case twCas.go => exact exchange_move rfl rfl rfl h fun hm => .enterWrite rfl hm
  case rlCas.spurious =>
    obtain ⟨rfl, rfl⟩ := Prod.mk.inj h
    exact .stay rfl rfl nofun
  case wlCas.spurious =>
    obtain ⟨rfl, rfl⟩ := Prod.mk.inj h
    exact .stay rfl rfl nofun
  case reading.go =>
    obtain ⟨rfl, rfl⟩ := Prod.mk.inj h
    exact .leaveRead rfl
  case writing.go =>
    obtain ⟨rfl, rfl⟩ := Prod.mk.inj h
    exact .leaveWrite rfl
  case writing.writeToRead =>
    obtain ⟨rfl, rfl⟩ := Prod.mk.inj h
    exact .downgrade rfl

/-! ## The invariant -/

section Invariant

variable {T : Type} [Fintype T] [DecidableEq T]

/-- The number of threads that hold the read side. -/
def readers (pc : T → Pc) : Nat :=
  (Finset.univ.filter fun u => pc u = .reading).card

/-- The word is -1 beside one writer, or counts the readers; what a thread has loaded
was such a count. -/
structure Inv (s : ScState T Int Pc) : Prop where
  word : (s.mem = -1 ∧ (∃ t, s.pc t = .writing ∧ ∀ u, s.pc u = .writing → u = t) ∧
      ∀ u, s.pc u ≠ .reading) ∨
    (s.mem = readers s.pc ∧ ∀ u, s.pc u ≠ .writing)
  loaded : ∀ t v, (s.pc t).loaded = some v → 0 ≤ v ∧ v < Fintype.card T

/-- The readers after one thread has moved. -/
theorem readers_update (pc : T → Pc) (t : T) (p : Pc) :
    (readers (Function.update pc t p) : Int) =
      readers pc + (if p = .reading then 1 else 0) - (if pc t = .reading then 1 else 0) :=
  card_filter_update (fun _ (p : Pc) => p = .reading) pc t p

omit [DecidableEq T] in
/-- A thread outside is not counted. -/
theorem readers_lt {pc : T → Pc} {t : T} (ht : pc t ≠ .reading) : readers pc < Fintype.card T := by
  refine Finset.card_lt_univ_of_notMem (x := t) ?_
  simp [ht]

omit [DecidableEq T] in
/-- No readers. -/
theorem readers_eq_zero {pc : T → Pc} : readers pc = 0 ↔ ∀ u, pc u ≠ .reading := by
  simp [readers, Finset.filter_eq_empty_iff]

omit [Fintype T] in
/-- Another point than the one the thread moves to is that of another thread. -/
theorem of_update_eq {pc : T → Pc} {t u : T} {p q : Pc} (h : Function.update pc t p u = q)
    (hne : p ≠ q) : u ≠ t ∧ pc u = q := by
  by_cases hu : u = t
  · subst hu
    rw [Function.update_self] at h
    exact absurd h hne
  · rw [Function.update_of_ne hu] at h
    exact ⟨hu, h⟩

/-- The word is zero at the start. -/
theorem inv_init : Inv (machine T).init := by
  have hzero : readers (machine T).init.pc = 0 := readers_eq_zero.mpr fun _ hu => by cases hu
  refine ⟨.inr ⟨?_, fun _ hu => by cases hu⟩, fun _ _ hv => by cases hv⟩
  rw [hzero]
  rfl

/-- The move of one thread, seen by the others. -/
theorem Inv.loaded_update {s : ScState T Int Pc} (h : Inv s) {t : T} {p : Pc}
    (hp : ∀ v, p.loaded = some v → 0 ≤ v ∧ v < Fintype.card T) :
    ∀ u v, (Function.update s.pc t p u).loaded = some v → 0 ≤ v ∧ v < Fintype.card T := by
  intro u v hv
  by_cases hu : u = t
  · subst hu
    rw [Function.update_self] at hv
    exact hp v hv
  · rw [Function.update_of_ne hu] at hv
    exact h.loaded u v hv

/-- **Every access keeps the word exact.** -/
theorem Inv.move (hT : Fintype.card T < 2 ^ 31) {s : ScState T Int Pc} (h : Inv s) {t : T} {m : Int}
    {p : Pc} (hmove : Move s.mem (s.pc t) m p) : Inv ⟨m, Function.update s.pc t p⟩ := by
  have hcount := readers_update s.pc t p
  have hother : ∀ u, u ≠ t → Function.update s.pc t p u = s.pc u := fun u hu =>
    Function.update_of_ne hu ..
  cases hmove with
  | stay hp hp' hload =>
      have hr : s.pc t ≠ .reading := by
        intro heq
        rw [heq] at hp
        cases hp
      have hr' : p ≠ .reading := by
        rintro rfl
        cases hp'
      have hsame : ∀ q : Pc, q.holds = true → ∀ u, Function.update s.pc t p u = q ↔ s.pc u = q := by
        intro q hq u
        by_cases hu : u = t
        · subst hu
          rw [Function.update_self]
          constructor
          · rintro rfl
            rw [hq] at hp'
            cases hp'
          · intro heq
            rw [heq, hq] at hp
            cases hp
        · rw [hother u hu]
      refine ⟨?_, h.loaded_update fun v hv => ?_⟩
      · rcases h.word with ⟨hm, ⟨w, hw, huniq⟩, hnone⟩ | ⟨hm, hnone⟩
        · exact .inl ⟨hm, ⟨w, (hsame _ rfl w).mpr hw, fun u hu => huniq u ((hsame _ rfl u).mp hu)⟩,
            fun u hu => hnone u ((hsame _ rfl u).mp hu)⟩
        · refine .inr ⟨?_, fun u hu => hnone u ((hsame _ rfl u).mp hu)⟩
          simp only [hr, hr', if_false, add_zero, sub_zero] at hcount
          exact hm.trans hcount.symm
      · obtain ⟨rfl, hpos⟩ := hload v hv
        refine ⟨hpos, ?_⟩
        rcases h.word with ⟨hm, -⟩ | ⟨hm, -⟩
        · omega
        · have := readers_lt hr
          omega
  | enterRead hp =>
      obtain ⟨hpos, hlt⟩ := h.loaded t _ hp
      have hr : s.pc t ≠ .reading := by
        intro heq
        rw [heq] at hp
        cases hp
      refine ⟨.inr ?_, h.loaded_update nofun⟩
      rcases h.word with ⟨hm, -⟩ | ⟨hm, hnone⟩
      · omega
      · refine ⟨?_, fun u hu => ?_⟩
        · simp only [hr, if_false, sub_zero, if_true] at hcount
          have hword : s.mem + 1 = ((readers s.pc + 1 : Nat) : Int) := by
            rw [hm]
            rfl
          have hlt' := readers_lt hr
          rw [hcount, hword, int32_of_lt (by omega)]
          rfl
        · exact hnone u (of_update_eq hu nofun).2
  | leaveRead hp =>
      refine ⟨.inr ?_, h.loaded_update nofun⟩
      rcases h.word with ⟨-, -, hnone⟩ | ⟨hm, hnone⟩
      · exact absurd hp (hnone t)
      · simp only [hp, if_true, reduceCtorEq, if_false, add_zero] at hcount
        refine ⟨?_, fun u hu => ?_⟩
        · have hword : s.mem - 1 = (readers (Function.update s.pc t .idle) : Int) := by
            rw [hm, hcount]
          have hle : readers (Function.update s.pc t .idle) ≤ Fintype.card T := Finset.card_le_univ _
          change int32 (s.mem - 1) = _
          rw [hword, int32_of_lt (by omega)]
        · exact hnone u (of_update_eq hu nofun).2
  | enterWrite hp hm =>
      refine ⟨.inl ⟨rfl, ⟨t, Function.update_self .., fun u hu => ?_⟩, fun u hu => ?_⟩,
        h.loaded_update nofun⟩
      · by_contra hut
        have hu' : s.pc u = .writing := (hother u hut).symm.trans hu
        rcases h.word with ⟨hm', -⟩ | ⟨-, hnone⟩
        · omega
        · exact hnone u hu'
      · rcases h.word with ⟨hm', -⟩ | ⟨hm', -⟩
        · omega
        · have hzero := readers_eq_zero.mp (by omega : readers s.pc = 0)
          exact hzero u (of_update_eq hu nofun).2
  | leaveWrite hp =>
      rcases h.word with ⟨-, ⟨w, hw, huniq⟩, hnone⟩ | ⟨-, hnone⟩
      · refine ⟨.inr ⟨?_, fun u hu => ?_⟩, h.loaded_update nofun⟩
        · have hzero : readers (Function.update s.pc t .idle) = 0 := by
            exact readers_eq_zero.mpr fun u hu => hnone u (of_update_eq hu nofun).2
          simp [hzero]
        · obtain ⟨hut, hu⟩ := of_update_eq hu nofun
          exact hut ((huniq u hu).trans (huniq t hp).symm)
      · exact absurd hp (hnone t)
  | downgrade hp =>
      rcases h.word with ⟨-, ⟨w, hw, huniq⟩, hnone⟩ | ⟨-, hnone⟩
      · refine ⟨.inr ⟨?_, fun u hu => ?_⟩, h.loaded_update nofun⟩
        · have hzero := readers_eq_zero.mpr hnone
          simp only [hzero, hp, if_true, reduceCtorEq, if_false, sub_zero, Nat.cast_zero,
            zero_add] at hcount
          exact hcount.symm
        · obtain ⟨hut, hu⟩ := of_update_eq hu nofun
          exact hut ((huniq u hu).trans (huniq t hp).symm)
      · exact absurd hp (hnone t)

/-- **The invariant holds in every reachable state.** -/
theorem inv_reachable (hT : Fintype.card T < 2 ^ 31) {s : ScState T Int Pc}
    (hs : (machine T).Reachable s) : Inv s := by
  refine Machine.ReachableUnder.invariant inv_init ?_ hs
  rintro s ⟨t, c⟩ s' hinv - hstep
  obtain ⟨m, p, hnext, rfl⟩ := interleave_step_cases hstep
  exact hinv.move hT (next_move hnext)

/-- A `try_` call that does not take the lock leaves the word alone. -/
theorem try_lost {m m' : Int} {p p' : Pc} {c : Choice} (h : next m p c = some (m', p'))
    (htry : p.trying = true) (hp' : p'.holds = false) : m' = m := by
  have hmove := next_move h
  cases hmove with
  | stay => rfl
  | enterRead => cases hp'
  | leaveRead hp =>
      rw [hp] at htry
      cases htry
  | enterWrite => cases hp'
  | leaveWrite hp =>
      rw [hp] at htry
      cases htry
  | downgrade => cases hp'

/-- **The state word is exact.**  In every reachable state it is -1 beside exactly one
holder, a writer, or the number of readers beside no writer; no increment or decrement
that a thread is about to make leaves the range of the word; and no access of a `try_`
call that has not taken the lock changes the word. -/
theorem word_exact (hT : Fintype.card T < 2 ^ 31) {s : ScState T Int Pc}
    (hs : (machine T).Reachable s) :
    ((s.mem = -1 ∧ ∃ t, s.pc t = .writing ∧ ∀ u, (s.pc u).holds = true → u = t) ∨
      (s.mem = readers s.pc ∧ ∀ u, s.pc u ≠ .writing)) ∧
    ((∀ t v, (s.pc t).loaded = some v → -2 ^ 31 ≤ v + 1 ∧ v + 1 < 2 ^ 31) ∧
      ∀ t, s.pc t = .reading → -2 ^ 31 ≤ s.mem - 1 ∧ s.mem - 1 < 2 ^ 31) ∧
    ∀ t c s', (machine T).step s (t, c) = some s' → (s.pc t).trying = true →
      (s'.pc t).holds = false → s'.mem = s.mem := by
  have h := inv_reachable hT hs
  refine ⟨?_, ⟨fun t v hv => ?_, fun t ht => ?_⟩, fun t c s' hstep htry hfree => ?_⟩
  · rcases h.word with ⟨hm, ⟨t, ht, huniq⟩, hnone⟩ | hcount
    · refine .inl ⟨hm, t, ht, fun u hu => ?_⟩
      rcases holds_iff.mp hu with hu | hu
      · exact absurd hu (hnone u)
      · exact huniq u hu
    · exact .inr hcount
  · obtain ⟨hpos, hlt⟩ := h.loaded t v hv
    omega
  · rcases h.word with ⟨-, -, hnone⟩ | ⟨hm, -⟩
    · exact absurd ht (hnone t)
    · have hle : readers s.pc ≤ Fintype.card T := Finset.card_le_univ _
      omega
  · obtain ⟨m, p, hnext, rfl⟩ := interleave_step_cases hstep
    simp only [Function.update_self] at hfree
    exact try_lost hnext htry hfree

end Invariant

/-- A writer that becomes a reader, a second reader beside it, and a failed
`try_write_lock` of a third thread. -/
def downgradeRun : List (Fin 3 × Choice) :=
  [(0, .writeLock), (0, .spurious), (0, .go), (0, .writeToRead), (1, .readLock), (1, .go), (1, .go),
    (2, .tryWriteLock), (2, .go)]

/-- Two readers, one of whom wrote before, and a failed `try_write_lock`. -/
theorem word_exact_downgradeRun :
    ∃ s, (machine (Fin 3)).Reachable s ∧ s.mem = 2 ∧ s.pc 2 = .returnedFalse ∧
      s.mem = readers s.pc := by
  have hrun : ((machine (Fin 3)).run downgradeRun).map (fun s => (s.mem, s.pc 2)) =
      some (2, .returnedFalse) := by decide
  obtain ⟨s, hs, heq⟩ := Option.map_eq_some_iff.mp hrun
  obtain ⟨hm, hpc⟩ := Prod.mk.inj heq
  have hreach := Machine.reachable_of_run hs
  refine ⟨s, hreach, hm, hpc, ?_⟩
  rcases (word_exact (by decide) hreach).1 with ⟨hneg, -⟩ | ⟨hcount, -⟩
  · omega
  · exact hcount

end RwLock
