import LockBench.RwLock
import LockBench.TicketLock
import LockBench.ShimLock
import LockBench.PcpuRwLock
import LockBench.PcpuRwLockV2

/-!
# The downgrade of the Wormhole shim

`wh_lock_shim` is compiled for one of eight lock types.  `rwlock_write_to_read` stores 1
to the word of `rw_lock` and does nothing for the other seven.  For the locks that know
only one mode this is enough: what `rwlock_unlock_read` calls is what
`rwlock_unlock_write` calls.  The two per-CPU locks have a read side of their own, and a
writer that leaves through it takes one from a slot it is not counted in and keeps the
flag.

A `Build` is a lock type with what the shim calls of it.  The programs are those of the
lock modules, under sequential consistency, with the downgrade as a further step of a
thread that holds the write side.
-/

namespace ShimDowngrade

/-! ## A thread left alone -/

section Alone

variable {T M P C : Type} {next : T → M → P → C → Option (M × P)} {go : C} {t : T}

/-- A thread that is left alone goes on from one access to the next. -/
def Alone (next : T → M → P → C → Option (M × P)) (go : C) (t : T) : M × P → M × P → Prop :=
  Relation.ReflTransGen fun x y => next t x.1 x.2 go = some y

/-- The call `c`, made by a thread that is left alone, gets the lock. -/
def Gets (next : T → M → P → C → Option (M × P)) (go : C) (m : M) (t : T) (p : P) (c : C)
    (won : P → Bool) : Prop :=
  ∃ x y, next t m p c = some x ∧ Alone next go t x y ∧ won y.2 = true

/-- One more step in front. -/
theorem Alone.step {m : M} {p : P} {y z : M × P} (h : next t m p go = some y)
    (hrest : Alone next go t y z) : Alone next go t (m, p) z :=
  Relation.ReflTransGen.head h hrest

/-- A scan that finds every slot empty goes through. -/
theorem Alone.scan {N : Nat} {m : M} (scan : Fin N → P) (done : P)
    (h : ∀ i, next t m (scan i) go = some (m, ReaderSlots.scanNext i scan done)) (i : Fin N) :
    Alone next go t (m, scan i) (m, done) := by
  induction hk : N - i.val generalizing i with
  | zero => omega
  | succ k ih =>
      refine .step (h i) ?_
      rcases ReaderSlots.scanNext_cases i scan done with ⟨hlt, hnext⟩ | ⟨-, hnext⟩
      · rw [hnext]
        exact ih ⟨i.val + 1, hlt⟩ (by simp only; omega)
      · rw [hnext]
        exact .refl

/-- A try that runs alone and ends with success gets the lock. -/
theorem Gets.of_alone {m : M} {p : P} {c : C} {won : P → Bool} {x : M × P} (y : M × P)
    (h : next t m p c = some x) (hrun : Alone next go t x y) (hwon : won y.2 = true) :
    Gets next go m t p c won :=
  ⟨x, y, h, hrun, hwon⟩

end Alone

/-- A lock type as the shim is compiled for it. -/
structure Build (T : Type) where
  Mem : Type
  Pc : Type
  Choice : Type
  /-- One access of a thread. -/
  next : T → Mem → Pc → Choice → Option (Mem × Pc)
  initMem : Mem
  idle : Pc
  /-- `do_write_to_read`, for a thread that holds the write side. -/
  writeToRead : Mem → Pc → Option (Mem × Pc)
  go : Choice
  trylockRead : Choice
  trylockWrite : Choice
  /-- The thread is in no call and holds nothing. -/
  resting : Pc → Bool
  holdsRead : Pc → Bool
  holdsWrite : Pc → Bool
  /-- The words are those of a free lock. -/
  Free : Mem → Prop

namespace Build

variable {T : Type} (b : Build T)

/-- One access of a thread; `none` is the downgrade. -/
def shimNext (t : T) (m : b.Mem) (p : b.Pc) : Option b.Choice → Option (b.Mem × b.Pc)
  | some c => b.next t m p c
  | none => b.writeToRead m p

/-- Any number of threads over one lock, without the downgrade. -/
def machine [DecidableEq T] : Machine (ScState T b.Mem b.Pc) (T × b.Choice) :=
  interleave b.next b.initMem b.idle

/-- Any number of threads over one lock. -/
def shim [DecidableEq T] : Machine (ScState T b.Mem b.Pc) (T × Option b.Choice) :=
  interleave b.shimNext b.initMem b.idle

/-- The lock is free, and every thread's `trylock` succeeds. -/
structure Released (s : ScState T b.Mem b.Pc) : Prop where
  free : b.Free s.mem
  read : ∀ t, Gets b.next b.go s.mem t (s.pc t) b.trylockRead b.holdsRead
  write : ∀ t, Gets b.next b.go s.mem t (s.pc t) b.trylockWrite b.holdsWrite

variable {b} [DecidableEq T]

/-- Downgrades that change nothing, or that the lock's own program has, add no states. -/
theorem reachable_of_shim {C : ScState T b.Mem b.Pc → T × Option b.Choice → Prop}
    {D : ScState T b.Mem b.Pc → T × b.Choice → Prop} (hsome : ∀ s t c, C s (t, some c) → D s (t, c))
    (hnone : ∀ s t r, C s (t, none) → b.writeToRead s.mem (s.pc t) = some r →
      r = (s.mem, s.pc t) ∨ ∃ c, D s (t, c) ∧ b.next t s.mem (s.pc t) c = some r)
    {s : ScState T b.Mem b.Pc} (h : b.shim.ReachableUnder C s) : b.machine.ReachableUnder D s := by
  induction h with
  | init => exact .init
  | @step s s' a _ hcond hstep ih =>
      obtain ⟨t, c⟩ := a
      obtain ⟨m, p, hnext, rfl⟩ := interleave_step_cases hstep
      cases c with
      | some c =>
          refine ih.step (hsome s t c hcond) ?_
          change (b.next t s.mem (s.pc t) c).map _ = _
          rw [show b.next t s.mem (s.pc t) c = some (m, p) from hnext]
          rfl
      | none =>
          rcases hnone s t (m, p) hcond hnext with heq | ⟨c, hD, hc⟩
          · obtain ⟨rfl, rfl⟩ := Prod.mk.inj heq
            rw [Function.update_eq_self]
            exact ih
          · refine ih.step hD ?_
            change (b.next t s.mem (s.pc t) c).map _ = _
            rw [hc]
            rfl

end Build

/-! ## The lock types -/

section Builds

variable (T : Type)

/-- `rw_lock`: the downgrade stores 1. -/
def rwLock : Build T where
  Mem := Int
  Pc := RwLock.Pc
  Choice := RwLock.Choice
  next _ := RwLock.next
  initMem := 0
  idle := .idle
  writeToRead m p := RwLock.next m p .writeToRead
  go := .go
  trylockRead := .tryReadLock
  trylockWrite := .tryWriteLock
  resting p := p == .idle || p == .returnedFalse
  holdsRead p := p == .reading
  holdsWrite p := p == .writing
  Free m := m = 0

/-- `tas_lock`, `ttas_lock`, `cas_lock` and `occ_lock`: one mode, and a downgrade that does
nothing. -/
def exclusive (kind : ShimLock.Kind) : Build T where
  Mem := ShimLock.Mem
  Pc := ShimLock.Pc
  Choice := ShimLock.Choice
  next := (ShimLock.code T kind).next
  initMem := ⟨false, 0, 0⟩
  idle := ⟨.idle, 0⟩
  writeToRead m p := if p.point.inSection then some (m, p) else none
  go := .go
  trylockRead := .call .rwlockTrylockRead
  trylockWrite := .call .rwlockTrylockWrite
  resting p := p.point == .idle
  holdsRead p := p.point.inSection
  holdsWrite p := p.point.inSection
  Free m := ShimLock.held kind m = false

/-- `ticket_lock`, the same. -/
def ticketLock : Build T where
  Mem := TicketLock.Mem T
  Pc := TicketLock.Pc
  Choice := TicketLock.Choice
  next := TicketLock.next
  initMem := ⟨0, 0, [], [], 0⟩
  idle := .idle
  writeToRead m p := if p = .held then some (m, p) else none
  go := .go
  trylockRead := .tryLock
  trylockWrite := .tryLock
  resting p := p == .idle || p == .returnedFalse
  holdsRead p := p == .held
  holdsWrite p := p == .held
  Free m := m.next = m.owner

variable {T}

/-- `pcpu_rw_lock`: the downgrade does nothing, and the thread goes on to `read_unlock`. -/
def pcpuRwLock (slotOf : T → Fin 64) : Build T where
  Mem := PcpuRwLock.Mem
  Pc := PcpuRwLock.Pc
  Choice := PcpuRwLock.Choice
  next := (PcpuRwLock.code slotOf).next
  initMem := PcpuRwLock.initMem
  idle := .idle
  writeToRead m p := if p = .writing then some (m, .reading) else none
  go := .go
  trylockRead := .tryReadLock
  trylockWrite := .tryWriteLock
  resting p := p == .idle || p == .returnedFalse
  holdsRead p := p == .reading
  holdsWrite p := p == .writing
  Free m := m.writerPresent = false ∧ ∀ i, m.count i = 0

/-- `pcpu_rw_lock_v2`, the same. -/
def pcpuRwLockV2 [DecidableEq T] (slotOf : T → Fin 64) : Build T where
  Mem := PcpuRwLockV2.Mem T
  Pc := PcpuRwLockV2.Pc
  Choice := PcpuRwLockV2.Choice
  next := (PcpuRwLockV2.code slotOf).next
  initMem := PcpuRwLockV2.initMem
  idle := .idle
  writeToRead m p := if p = .writing then some (m, .reading) else none
  go := .go
  trylockRead := .tryReadLock
  trylockWrite := .tryWriteLock
  resting p := p == .idle || p == .returnedFalse
  holdsRead p := p == .reading
  holdsWrite p := p == .writing
  Free m := m.writerPending = false ∧ m.writerMu = none ∧ ∀ i, m.count i = 0

end Builds

/-- `LockT`. -/
inductive LockT
  | rwLock
  | pcpuRwLock
  | pcpuRwLockV2
  | tasLock
  | ttasLock
  | casLock
  | ticketLock
  | occLock
  deriving DecidableEq

/-- The shim compiled for a lock type; `slotOf` is the slot of a thread in the per-CPU locks. -/
def LockT.build {T : Type} [DecidableEq T] (slotOf : T → Fin 64) : LockT → Build T
  | .rwLock => ShimDowngrade.rwLock T
  | .pcpuRwLock => ShimDowngrade.pcpuRwLock slotOf
  | .pcpuRwLockV2 => ShimDowngrade.pcpuRwLockV2 slotOf
  | .tasLock => exclusive T .tas
  | .ttasLock => exclusive T .ttas
  | .casLock => exclusive T .cas
  | .ticketLock => ShimDowngrade.ticketLock T
  | .occLock => exclusive T .occ

/-! ## Free once everybody has left -/

section Released

variable {T : Type} [Fintype T]

/-- `rw_lock`: with nobody inside, the word is zero and both tries succeed. -/
theorem rwLock_released {s : ScState T Int RwLock.Pc} (h : RwLock.Inv s)
    (hrest : ∀ t, (rwLock T).resting (s.pc t) = true) : (rwLock T).Released s := by
  have hidle : ∀ t, s.pc t = .idle ∨ s.pc t = .returnedFalse := fun t => by
    simpa [rwLock] using hrest t
  have hzero : s.mem = 0 := by
    rcases h.word with ⟨-, ⟨t, ht, -⟩, -⟩ | ⟨hm, -⟩
    · rcases hidle t with h' | h' <;> rw [ht] at h' <;> cases h'
    · rw [hm, RwLock.readers_eq_zero.mpr fun t ht => ?_]
      · rfl
      · rcases hidle t with h' | h' <;> rw [ht] at h' <;> cases h'
  have hcall : ∀ t c p, RwLock.call c = some p →
      RwLock.next s.mem (s.pc t) c = some ((0 : Int), p) := fun t c p hc => by
    rw [hzero]
    rcases hidle t with h' | h' <;> simp [h', RwLock.next, hc]
  refine ⟨hzero, fun t => ?_, fun t => ?_⟩
  · refine Gets.of_alone ((1 : Int), RwLock.Pc.reading) (hcall t _ .trLoad rfl) ?_ rfl
    exact .step (y := ((0 : Int), RwLock.Pc.trCas 0)) rfl (.step rfl .refl)
  · refine Gets.of_alone ((-1 : Int), RwLock.Pc.writing) (hcall t _ .twCas rfl) ?_ rfl
    exact .step rfl .refl

omit [Fintype T] in
/-- `ticket_lock`: with nobody inside, `next` is `owner` and a try succeeds. -/
theorem ticketLock_released {s : ScState T (TicketLock.Mem T) TicketLock.Pc} {done queue : List T}
    (h : TicketLock.Inv s done queue) (hrest : ∀ t, (ticketLock T).resting (s.pc t) = true) :
    (ticketLock T).Released s := by
  have hidle : ∀ t, s.pc t = .idle ∨ s.pc t = .returnedFalse := fun t => by
    simpa [ticketLock] using hrest t
  have hempty : queue = [] := List.eq_nil_iff_forall_not_mem.mpr fun t ht => by
    have heng := (h.threads t).engaged.mp ht
    rcases hidle t with h' | h' <;> rw [h'] at heng <;> cases heng
  have hfree : s.mem.next = s.mem.owner := by
    rw [h.next, h.owner, h.draws, hempty, List.append_nil]
  have hgets : ∀ t, Gets TicketLock.next .go s.mem t (s.pc t) .tryLock (· == .held) := fun t => by
    refine Gets.of_alone ((s.mem.take t (s.mem.owner + 1)).enter t, .held) (x := (s.mem, .tryOwner))
      ?_ (.step (y := (s.mem, .tryNext s.mem.owner s.mem.served)) rfl
        (.step (y := (s.mem, .tryExchange s.mem.owner s.mem.next s.mem.served)) ?_
          (.step ?_ .refl))) rfl
    · rcases hidle t with h' | h' <;> rw [h'] <;> rfl
    · change some (s.mem, if s.mem.next ≠ s.mem.owner then _ else _) = _
      rw [if_neg (not_not_intro hfree)]
    · change some (if s.mem.next = s.mem.next then _ else _) = _
      rw [if_pos rfl]
  exact ⟨hfree, hgets, hgets⟩

/-- The other exclusive locks: with nobody inside, the word is free and a try succeeds. -/
theorem exclusive_released {kind : ShimLock.Kind} {s : ScState T ShimLock.Mem ShimLock.Pc}
    (h : ShimLock.Inv kind (Code.flushed s))
    (hrest : ∀ t, (exclusive T kind).resting (s.pc t) = true) : (exclusive T kind).Released s := by
  have hidle : ∀ t, (s.pc t).point = .idle := fun t => by
    simpa [exclusive] using hrest t
  have hfree : ShimLock.held kind s.mem = false := by
    by_contra hheld
    obtain ⟨t, ht⟩ := h.lock.up.mp (Bool.eq_true_of_not_eq_false hheld)
    rcases ht with hin | hbuf
    · have hin' : (s.pc t).point.inSection = true := hin
      rw [hidle t] at hin'
      cases hin'
    · cases hbuf
  have hgets : ∀ t (e : ShimLock.Entry), e.point kind = .try 1 →
      Gets (ShimLock.code T kind).next .go s.mem t (s.pc t) (.call e) fun p => p.point.inSection := by
    intro t e he
    have hpc : s.pc t = ⟨.idle, (s.pc t).sections⟩ := by rw [← hidle t]
    generalize (s.pc t).sections = n at hpc
    have hcall : (ShimLock.code T kind).next t s.mem (s.pc t) (.call e) =
        some (s.mem, ⟨.try 1, n⟩) := by
      rw [hpc, ← he]
      rfl
    cases kind with
    | occ =>
        have hload : (ShimLock.code T .occ).next t s.mem ⟨.try 1, n⟩ .go =
            some (s.mem, ⟨.tryStrong 0 s.mem.version, n⟩) := by
          have hodd : OccLock.oddWord s.mem.version ≠ true := Bool.eq_false_iff.mp hfree
          change some (s.mem, (⟨if OccLock.oddWord s.mem.version then _ else _, n⟩ : ShimLock.Pc)) = _
          rw [if_neg hodd]
        have hswap : (ShimLock.code T .occ).next t s.mem ⟨.tryStrong 0 s.mem.version, n⟩ .go =
            some ({ s.mem with version := s.mem.version + 1 }, ⟨.enter, n⟩) := by
          change (some (ShimLock.takeVersion s.mem s.mem.version .enter (.try 0))).map
            (fun r => (r.1, (⟨r.2, n⟩ : ShimLock.Pc))) = _
          rw [ShimLock.takeVersion, if_pos rfl]
          rfl
        exact Gets.of_alone _ hcall (.step hload (.step hswap .refl)) rfl
    | tas | ttas | cas =>
        refine Gets.of_alone ({ s.mem with flag := true }, ⟨.enter, n⟩) hcall (.step ?_ .refl) rfl
        have hdown : s.mem.flag ≠ true := Bool.eq_false_iff.mp hfree
        change (some (ShimLock.takeFlag s.mem .enter (.try 0))).map
          (fun r => (r.1, (⟨r.2, n⟩ : ShimLock.Pc))) = _
        rw [ShimLock.takeFlag, if_neg hdown]
        rfl
  exact ⟨hfree, fun t => hgets t _ rfl, fun t => hgets t _ rfl⟩

/-- Nobody is counted in a slot once everybody has left. -/
theorem count_eq_zero {P : Type} {N : Nat} {R : ReaderSlots.Roles P N} {slotOf : T → Fin N}
    {pc : T → P} {count : Fin N → Int} (h : R.Inv slotOf pc count)
    (hout : ∀ t, R.published (pc t) = false) (i : Fin N) : count i = 0 := by
  have hzero : ReaderSlots.publishedIn R slotOf pc i = 0 := by
    simp [ReaderSlots.publishedIn, hout]
  rw [h.count i, hzero]
  rfl

/-- `pcpu_rw_lock`: with nobody inside, flag and slots are down and both tries succeed. -/
theorem pcpuRwLock_released {slotOf : T → Fin 64} {s : ScState T PcpuRwLock.Mem PcpuRwLock.Pc}
    (h : PcpuRwLock.Inv slotOf (Code.flushed s))
    (hrest : ∀ t, (pcpuRwLock slotOf).resting (s.pc t) = true) :
    (pcpuRwLock slotOf).Released s := by
  have hidle : ∀ t, s.pc t = .idle ∨ s.pc t = .returnedFalse := fun t => by
    simpa [pcpuRwLock] using hrest t
  have hflag : s.mem.writerPresent = false := by
    by_contra hup
    obtain ⟨t, ht⟩ := h.flag.mp (Bool.eq_true_of_not_eq_false hup)
    rcases ht with hown | hbuf
    · have hown' : (s.pc t).ownsFlag = true := hown
      rcases hidle t with h' | h' <;> rw [h'] at hown' <;> cases hown'
    · exact hbuf rfl
  have hcount : ∀ i, s.mem.count i = 0 := count_eq_zero h.slots fun t => by
    change (s.pc t).published = false
    rcases hidle t with h' | h' <;> rw [h'] <;> rfl
  have hcall : ∀ t c p, PcpuRwLock.call c = some p →
      (PcpuRwLock.code slotOf).next t s.mem (s.pc t) c = some (s.mem, p) := fun t c p hc => by
    rcases hidle t with h' | h' <;> simp [h', Code.next, PcpuRwLock.code, hc]
  refine ⟨⟨hflag, hcount⟩, fun t => ?_, fun t => ?_⟩
  · refine Gets.of_alone (PcpuRwLock.fetchAdd s.mem (slotOf t) 1, PcpuRwLock.Pc.reading)
      (hcall t _ .trPublish rfl) (.step rfl (.step ?_ .refl)) rfl
    change some (_, if s.mem.writerPresent then _ else _) = _
    rw [if_neg (Bool.eq_false_iff.mp hflag)]
    rfl
  · refine Gets.of_alone ({ s.mem with writerPresent := true }, PcpuRwLock.Pc.writing)
      (hcall t _ .twCas rfl)
      (.step (y := ({ s.mem with writerPresent := true }, .twScan ⟨0, by decide⟩)) ?_
        (.scan PcpuRwLock.Pc.twScan _ (fun i => ?_) _)) rfl
    · change some (PcpuRwLock.casPresent s.mem _ _) = _
      rw [PcpuRwLock.casPresent, if_neg (Bool.eq_false_iff.mp hflag)]
      rfl
    · change some (_, if s.mem.count i ≠ 0 then _ else _) = _
      rw [if_neg (not_not_intro (hcount i))]
      rfl

/-- `pcpu_rw_lock_v2`: with nobody inside, flag, mutex and slots are down and both tries succeed. -/
theorem pcpuRwLockV2_released [DecidableEq T] {slotOf : T → Fin 64}
    {s : ScState T (PcpuRwLockV2.Mem T) PcpuRwLockV2.Pc}
    (h : PcpuRwLockV2.Inv slotOf (Code.flushed s))
    (hrest : ∀ t, (pcpuRwLockV2 slotOf).resting (s.pc t) = true) :
    (pcpuRwLockV2 slotOf).Released s := by
  have hidle : ∀ t, s.pc t = .idle ∨ s.pc t = .returnedFalse := fun t => by
    simpa [pcpuRwLockV2] using hrest t
  have hmu : s.mem.writerMu = none := Option.eq_none_iff_forall_ne_some.mpr fun t ht => by
    have hown : (s.pc t).ownsMu = true := (h.mu t).mp ht
    rcases hidle t with h' | h' <;> rw [h'] at hown <;> cases hown
  have hflag : s.mem.writerPending = false := h.free hmu
  have hcount : ∀ i, s.mem.count i = 0 := count_eq_zero h.slots fun t => by
    change (s.pc t).published = false
    rcases hidle t with h' | h' <;> rw [h'] <;> rfl
  have hcall : ∀ t c p, PcpuRwLockV2.call c = some p →
      (PcpuRwLockV2.code slotOf).next t s.mem (s.pc t) c = some (s.mem, p) := fun t c p hc => by
    rcases hidle t with h' | h' <;> simp [h', Code.next, PcpuRwLockV2.code, hc]
  refine ⟨⟨hflag, hmu, hcount⟩, fun t => ?_, fun t => ?_⟩
  · refine Gets.of_alone (PcpuRwLockV2.fetchAdd s.mem (slotOf t) 1, PcpuRwLockV2.Pc.reading)
      (hcall t _ .trPublish rfl) (.step rfl (.step ?_ .refl)) rfl
    change some (_, if s.mem.writerPending then _ else _) = _
    rw [if_neg (Bool.eq_false_iff.mp hflag)]
    rfl
  · refine Gets.of_alone ({ s.mem with writerMu := some t, writerPending := true },
        PcpuRwLockV2.Pc.writing) (hcall t _ .twTryLock rfl)
      (.step (y := ({ s.mem with writerMu := some t }, .twStore)) ?_
        (.step rfl (.scan PcpuRwLockV2.Pc.twScan _ (fun i => ?_) _))) rfl
    · change (PcpuRwLockV2.code slotOf).next t s.mem .twTryLock .go = _
      have hlock : PcpuRwLockV2.lockMu t s.mem = some { s.mem with writerMu := some t } := by
        rw [PcpuRwLockV2.lockMu, if_pos hmu]
      simp only [Code.next, PcpuRwLockV2.code, PcpuRwLockV2.access, Option.bind_some, hlock]
      rfl
    · change some (_, if s.mem.count i ≠ 0 then _ else _) = _
      rw [if_neg (not_not_intro (hcount i))]
      rfl

end Released

/-! ## Runs of the shim -/

section Runs

variable {T : Type} [Fintype T] [DecidableEq T] {slotOf : T → Fin 64}

/-- The steps after which the lock can become free again: the downgrade is not called in a
build for one of the per-CPU locks, and a `try_lock` of `ticket_lock` exchanges before
`2 ^ 32` tickets have been drawn beyond those served when it loaded `owner`. -/
def Admissible (slotOf : T → Fin 64) : (lock : LockT) →
    ScState T (lock.build slotOf).Mem (lock.build slotOf).Pc →
      T × Option (lock.build slotOf).Choice → Prop
  | .pcpuRwLock, _, a => a.2.isSome = true
  | .pcpuRwLockV2, _, a => a.2.isSome = true
  | .ticketLock, s, (t, some c) => TicketLock.Fresh s (t, c)
  | _, _, _ => True

/-- Under the condition the runs of the shim over `rw_lock` keep its invariant. -/
theorem rwLock_inv (hT : Fintype.card T < 2 ^ 31) {s : ScState T Int RwLock.Pc}
    (h : (rwLock T).shim.ReachableUnder (Admissible slotOf .rwLock) s) : RwLock.Inv s := by
  refine RwLock.inv_reachable hT (Build.reachable_of_shim (b := rwLock T) (fun _ _ _ _ => trivial)
    (fun s t r _ hr => .inr ⟨.writeToRead, trivial, hr⟩) h)

/-- Under the condition the runs of the shim over `ticket_lock` keep its queue. -/
theorem ticketLock_inv (hT : Fintype.card T < 2 ^ 31)
    {s : ScState T (TicketLock.Mem T) TicketLock.Pc}
    (h : (ticketLock T).shim.ReachableUnder (Admissible slotOf .ticketLock) s) :
    ∃ done queue, TicketLock.Inv s done queue := by
  refine TicketLock.inv_of_reachable (by omega) (Build.reachable_of_shim (b := ticketLock T)
    (fun _ _ _ hc => hc) (fun s t r _ hr => .inl ?_) h)
  simp only [ticketLock] at hr
  split at hr
  · exact (Option.some.inj hr).symm
  · cases hr

/-- The runs of the shim over the other exclusive locks keep their invariant without a condition. -/
theorem exclusive_inv {kind : ShimLock.Kind} {s : ScState T ShimLock.Mem ShimLock.Pc}
    (h : (exclusive T kind).shim.Reachable s) : ShimLock.Inv kind (Code.flushed s) := by
  have hbase : (exclusive T kind).machine.Reachable s :=
    Build.reachable_of_shim (fun _ _ _ _ => trivial) (fun s t r _ hr => .inl (by
      simp only [exclusive] at hr
      split at hr
      · exact (Option.some.inj hr).symm
      · cases hr)) h
  have hsc : ((ShimLock.code T kind).sc ⟨false, 0, 0⟩ fun _ => ⟨.idle, 0⟩).Reachable s := by
    rw [Code.sc_eq_interleave]
    exact hbase
  exact ShimLock.reachable_inv (Code.sc_reachable_tso (fun _ _ => trivial) (fun _ _ _ => trivial) hsc)

/-- Under the condition the runs of the shim over `pcpu_rw_lock` keep its invariant. -/
theorem pcpuRwLock_inv (hT : Fintype.card T < 2 ^ 31)
    {s : ScState T PcpuRwLock.Mem PcpuRwLock.Pc}
    (h : (pcpuRwLock slotOf).shim.ReachableUnder (Admissible slotOf .pcpuRwLock) s) :
    PcpuRwLock.Inv slotOf (Code.flushed s) := by
  have hbase : (pcpuRwLock slotOf).machine.Reachable s :=
    Build.reachable_of_shim (fun _ _ _ _ => trivial) (fun s t r hc => by cases hc) h
  have hsc : ((PcpuRwLock.code slotOf).sc PcpuRwLock.initMem fun _ => .idle).Reachable s := by
    rw [Code.sc_eq_interleave]
    exact hbase
  exact PcpuRwLock.inv_reachable (by omega)
    (Code.sc_reachable_tso (fun _ _ => trivial) (fun _ _ _ => trivial) hsc)

/-- Under the condition the runs of the shim over `pcpu_rw_lock_v2` keep its invariant. -/
theorem pcpuRwLockV2_inv (hT : Fintype.card T < 2 ^ 31)
    {s : ScState T (PcpuRwLockV2.Mem T) PcpuRwLockV2.Pc}
    (h : (pcpuRwLockV2 slotOf).shim.ReachableUnder (Admissible slotOf .pcpuRwLockV2) s) :
    PcpuRwLockV2.Inv slotOf (Code.flushed s) := by
  have hbase : (pcpuRwLockV2 slotOf).machine.Reachable s :=
    Build.reachable_of_shim (fun _ _ _ _ => trivial) (fun s t r hc => by cases hc) h
  have hsc : ((PcpuRwLockV2.code slotOf).sc PcpuRwLockV2.initMem fun _ => .idle).Reachable s := by
    rw [Code.sc_eq_interleave]
    exact hbase
  exact PcpuRwLockV2.inv_reachable (by omega)
    (Code.sc_reachable_tso (fun _ _ => trivial) (fun _ _ _ _ => rfl) hsc)

/-- **A downgrade leaves nothing behind.**  Whichever lock the shim is compiled for, in every
run whose steps are admissible, with the downgrades of any writers in it, whenever no thread
is in a call or holds the lock, the lock is free and both `trylock`s of every thread
succeed. -/
theorem released_of_resting (slotOf : T → Fin 64) (hT : Fintype.card T < 2 ^ 31) (lock : LockT)
    {s : ScState T (lock.build slotOf).Mem (lock.build slotOf).Pc}
    (hs : (lock.build slotOf).shim.ReachableUnder (Admissible slotOf lock) s)
    (hrest : ∀ t, (lock.build slotOf).resting (s.pc t) = true) : (lock.build slotOf).Released s := by
  cases lock with
  | rwLock => exact rwLock_released (rwLock_inv hT hs) hrest
  | pcpuRwLock => exact pcpuRwLock_released (pcpuRwLock_inv hT hs) hrest
  | pcpuRwLockV2 => exact pcpuRwLockV2_released (pcpuRwLockV2_inv hT hs) hrest
  | ticketLock =>
      obtain ⟨done, queue, hinv⟩ := ticketLock_inv hT hs
      exact ticketLock_released hinv hrest
  | tasLock => exact exclusive_released (exclusive_inv (hs.mono fun _ _ _ => trivial)) hrest
  | ttasLock => exact exclusive_released (exclusive_inv (hs.mono fun _ _ _ => trivial)) hrest
  | casLock => exact exclusive_released (exclusive_inv (hs.mono fun _ _ _ => trivial)) hrest
  | occLock => exact exclusive_released (exclusive_inv (hs.mono fun _ _ _ => trivial)) hrest

/-- A writer that becomes a reader beside a second reader; both leave. -/
def downgradeRun : List (Fin 2 × Option RwLock.Choice) :=
  [(0, some .writeLock), (0, some .go), (0, none), (1, some .readLock), (1, some .go), (1, some .go),
    (0, some .go), (1, some .go)]

/-- The lock is free after it. -/
theorem released_downgradeRun :
    ∃ s, (rwLock (Fin 2)).shim.run downgradeRun = some s ∧ (rwLock (Fin 2)).Released s := by
  have hrun : ((rwLock (Fin 2)).shim.run downgradeRun).map
      (fun s : ScState (Fin 2) Int RwLock.Pc => (s.pc 0, s.pc 1)) = some (.idle, .idle) := by decide
  obtain ⟨s, hs, heq⟩ := Option.map_eq_some_iff.mp hrun
  obtain ⟨h0, h1⟩ := Prod.mk.inj heq
  refine ⟨s, hs, released_of_resting (fun _ => 0) (by decide) .rwLock
    ((Machine.reachable_of_run hs).mono fun _ _ _ => trivial) fun t => ?_⟩
  fin_cases t
  · exact congrArg (rwLock (Fin 2)).resting h0
  · exact congrArg (rwLock (Fin 2)).resting h1

/-- One thread takes the write side of a per-CPU lock with `k` accesses before the scan,
calls the downgrade and leaves through `read_unlock`. -/
def leaveThroughRead {C : Type} (k : Nat) (writeLock go : C) : List (Fin 1 × Option C) :=
  (0, some writeLock) :: (List.replicate (k + 64) (0, some go)).append
    [(0, none), (0, some go), (0, some go)]

/-- **The per-CPU locks are not downgraded.**  The only thread has left, and in either lock its
flag is still up and its slot counts -1; in the first no `try_write_lock` ever succeeds
again. -/
theorem pcpu_downgrade_not_released :
    (∃ s, (pcpuRwLock fun _ : Fin 1 => 0).shim.Reachable s ∧
      (∀ t, (pcpuRwLock fun _ : Fin 1 => 0).resting (s.pc t) = true) ∧
      PcpuRwLock.Mem.writerPresent s.mem = true ∧ PcpuRwLock.Mem.count s.mem ⟨0, by decide⟩ = -1 ∧
      ¬ (pcpuRwLock fun _ : Fin 1 => 0).Released s) ∧
    ∃ s, (pcpuRwLockV2 fun _ : Fin 1 => 0).shim.Reachable s ∧
      (∀ t, (pcpuRwLockV2 fun _ : Fin 1 => 0).resting (s.pc t) = true) ∧
      PcpuRwLockV2.Mem.writerPending s.mem = true ∧
      PcpuRwLockV2.Mem.count s.mem ⟨0, by decide⟩ = -1 ∧
      ¬ (pcpuRwLockV2 fun _ : Fin 1 => 0).Released s := by
  constructor
  · have hrun : ((pcpuRwLock fun _ : Fin 1 => 0).shim.run
        (leaveThroughRead 1 .writeLock .go)).map
        (fun s : ScState (Fin 1) PcpuRwLock.Mem PcpuRwLock.Pc =>
          (s.pc 0, s.mem.writerPresent, s.mem.count ⟨0, by decide⟩)) = some (.idle, true, -1) := by
      decide +kernel
    obtain ⟨s, hs, heq⟩ := Option.map_eq_some_iff.mp hrun
    obtain ⟨hpc, heq'⟩ := Prod.mk.inj heq
    obtain ⟨hflag, hcount⟩ := Prod.mk.inj heq'
    refine ⟨s, Machine.reachable_of_run hs, fun t => ?_, hflag, hcount, fun h => ?_⟩
    · rw [Subsingleton.elim t 0]
      exact congrArg (pcpuRwLock fun _ : Fin 1 => 0).resting hpc
    · exact Bool.false_ne_true (h.free.1.symm.trans hflag)
  · have hrun : ((pcpuRwLockV2 fun _ : Fin 1 => 0).shim.run
        (leaveThroughRead 2 .writeLock .go)).map
        (fun s : ScState (Fin 1) (PcpuRwLockV2.Mem (Fin 1)) PcpuRwLockV2.Pc =>
          (s.pc 0, s.mem.writerPending, s.mem.count ⟨0, by decide⟩)) = some (.idle, true, -1) := by
      decide +kernel
    obtain ⟨s, hs, heq⟩ := Option.map_eq_some_iff.mp hrun
    obtain ⟨hpc, heq'⟩ := Prod.mk.inj heq
    obtain ⟨hflag, hcount⟩ := Prod.mk.inj heq'
    refine ⟨s, Machine.reachable_of_run hs, fun t => ?_, hflag, hcount, fun h => ?_⟩
    · rw [Subsingleton.elim t 0]
      exact congrArg (pcpuRwLockV2 fun _ : Fin 1 => 0).resting hpc
    · exact Bool.false_ne_true (h.free.1.symm.trans hflag)

end Runs

end ShimDowngrade
