import LockBench.ReaderSlots

/-!
# The per-CPU reader-writer lock, percpu_rwsem style

`pcpu_rw_lock_v2` keeps one reader counter per slot, a `writer_pending` flag and
a `std::mutex`.  A reader publishes itself in its slot and then looks at the
flag; a writer takes the mutex, raises the flag and then looks at every slot.

The program text below is the whole interface, one shared-memory access per
program point: `read_lock` with its fast and its slow path, `read_unlock`,
`write_lock`, `write_unlock`, `try_write_lock` and `try_read_lock`.  It is run
under sequential consistency and on the store-buffer machine.
-/

namespace PcpuRwLockV2

open ReaderSlots

/-- Number of reader slots. -/
def nSlots : Nat := 64

/-- Index of a reader slot. -/
abbrev Slot := Fin nSlots

/-- The shared words of the lock.  The mutex remembers who owns it. -/
structure Mem (T : Type) where
  writerPending : Bool
  writerMu : Option T
  count : Slot → Int

/-- The plain stores of the program: only `writer_pending` is ever stored to. -/
inductive Store
  | writerPending (b : Bool)
  deriving DecidableEq

/-- Program points, named after the access made there. -/
inductive Pc
  | idle
  | returnedFalse
  | rlPublish
  | rlCheck
  | rlRetract
  | rlWait
  | rlRepublish
  | rlRelease
  | reading
  | ruRetract
  | wlLock
  | wlStore
  | wlScan (i : Slot)
  | writing
  | wuStore
  | wuUnlock
  | twTryLock
  | twStore
  | twScan (i : Slot)
  | twClear
  | twUnlock
  | trPublish
  | trCheck
  | trRetract
  deriving DecidableEq

/-- How a thread's nondeterminism is resolved: which function it calls next, the
ordinary next access, or a spurious failure (`std::mutex::try_lock` has one). -/
inductive Choice
  | readLock
  | writeLock
  | tryReadLock
  | tryWriteLock
  | go
  | spurious
  deriving DecidableEq

section Program

variable {T : Type} [DecidableEq T] (slotOf : T → Slot)

/-- `slots[s].count.fetch_add(d)`. -/
def fetchAdd (m : Mem T) (s : Slot) (d : Int) : Mem T :=
  { m with count := Function.update m.count s (int32 (m.count s + d)) }

/-- The first access of the function a thread decides to call. -/
def call : Choice → Option Pc
  | .readLock => some .rlPublish
  | .writeLock => some .wlLock
  | .tryReadLock => some .trPublish
  | .tryWriteLock => some .twTryLock
  | .go => none
  | .spurious => none

/-- `writer_mu.lock()` and a successful `writer_mu.try_lock()`. -/
def lockMu (t : T) (m : Mem T) : Option (Mem T) :=
  if m.writerMu = none then some { m with writerMu := some t } else none

/-- The access made at a program point by the ordinary choice. -/
def access (t : T) : Pc → Option (Access (Mem T) Store Pc)
  | .idle => none
  | .returnedFalse => none
  | .rlPublish => some (.rmw fun m => some (fetchAdd m (slotOf t) 1, .rlCheck))
  | .rlCheck => some (.load fun m => if m.writerPending then .rlRetract else .reading)
  | .rlRetract => some (.rmw fun m => some (fetchAdd m (slotOf t) (-1), .rlWait))
  | .rlWait => some (.rmw fun m => (lockMu t m).map (·, .rlRepublish))
  | .rlRepublish => some (.rmw fun m => some (fetchAdd m (slotOf t) 1, .rlRelease))
  | .rlRelease => some (.rmw fun m => some ({ m with writerMu := none }, .reading))
  | .reading => some (.jump .ruRetract)
  | .ruRetract => some (.rmw fun m => some (fetchAdd m (slotOf t) (-1), .idle))
  | .wlLock => some (.rmw fun m => (lockMu t m).map (·, .wlStore))
  | .wlStore => some (.store (.writerPending true) (.wlScan ⟨0, by decide⟩))
  | .wlScan i => some (.load fun m =>
      if m.count i ≠ 0 then .wlScan i else scanNext i .wlScan .writing)
  | .writing => some (.jump .wuStore)
  | .wuStore => some (.store (.writerPending false) .wuUnlock)
  | .wuUnlock => some (.rmw fun m => some ({ m with writerMu := none }, .idle))
  | .twTryLock => some (.rmw fun m =>
      match lockMu t m with
      | some m' => some (m', .twStore)
      | none => some (m, .returnedFalse))
  | .twStore => some (.store (.writerPending true) (.twScan ⟨0, by decide⟩))
  | .twScan i => some (.load fun m =>
      if m.count i ≠ 0 then .twClear else scanNext i .twScan .writing)
  | .twClear => some (.store (.writerPending false) .twUnlock)
  | .twUnlock => some (.rmw fun m => some ({ m with writerMu := none }, .returnedFalse))
  | .trPublish => some (.rmw fun m => some (fetchAdd m (slotOf t) 1, .trCheck))
  | .trCheck => some (.load fun m => if m.writerPending then .trRetract else .reading)
  | .trRetract => some (.rmw fun m => some (fetchAdd m (slotOf t) (-1), .returnedFalse))

/-- The lock as a thread program: a thread outside the lock may call any of its
functions, `try_lock` may fail spuriously, everything else is determined. -/
def code : Code T (Mem T) Store Pc Choice where
  apply
    | .writerPending b, m => { m with writerPending := b }
  access t
    | .idle, c => (call c).map .jump
    | .returnedFalse, c => (call c).map .jump
    | .twTryLock, .spurious => some (.rmw fun m => some (m, .returnedFalse))
    | p, .go => access slotOf t p
    | _, _ => none

/-- The lock as constructed. -/
def initMem : Mem T := ⟨false, none, fun _ => 0⟩

/-- The lock under sequential consistency. -/
def sc : Machine (ScState T (Mem T) Pc) (T × Choice) :=
  (code slotOf).sc initMem fun _ => .idle

/-- The lock on the store-buffer machine. -/
def tso : Machine (TsoState T (Mem T) Store Pc) (TsoAct T Choice) :=
  (code slotOf).tso initMem fun _ => .idle

end Program

/-! ## What each program point stands for -/

/-- The thread has published itself in its slot and not yet retracted. -/
def Pc.published : Pc → Bool
  | .rlCheck | .rlRetract | .rlRelease | .reading | .ruRetract | .trCheck | .trRetract => true
  | _ => false

/-- The thread owns `writer_mu`. -/
def Pc.ownsMu : Pc → Bool
  | .rlRepublish | .rlRelease | .wlStore | .wlScan _ | .writing | .wuStore | .wuUnlock
  | .twStore | .twScan _ | .twClear | .twUnlock => true
  | _ => false

/-- The last `writer_pending` store of the thread's write section set the flag. -/
def Pc.raised : Pc → Bool
  | .wlScan _ | .writing | .wuStore | .twScan _ | .twClear => true
  | _ => false

/-- Between the return of `read_lock` and the retraction of `read_unlock`. -/
def Pc.holdsRead : Pc → Bool
  | .reading | .ruRetract => true
  | _ => false

/-- Between the return of `write_lock` and the flag store of `write_unlock`. -/
def Pc.holdsWrite : Pc → Bool
  | .writing | .wuStore => true
  | _ => false

/-- The thread's scan has passed slot `j`. -/
def Pc.drained (j : Slot) : Pc → Bool
  | .wlScan i | .twScan i => decide (j < i)
  | .writing | .wuStore => true
  | _ => false

/-- A load of a writer's drain scan. -/
def Pc.isScan : Pc → Bool
  | .wlScan _ | .twScan _ => true
  | _ => false

/-- The roles of the program points in the slot protocol. -/
def roles : Roles Pc nSlots where
  published := Pc.published
  inside := Pc.holdsRead
  drained := Pc.drained
  inside_published p := by cases p <;> simp [Pc.holdsRead, Pc.published]

/-- What may stand in the store buffer of a thread at a program point. -/
def bufOk : Pc → List Store → Prop
  | .wlScan i, b => b = [] ∨ (b = [.writerPending true] ∧ i.val = 0)
  | .twScan i, b => b = [] ∨ (b = [.writerPending true] ∧ i.val = 0)
  | .wuUnlock, b => b = [] ∨ b = [.writerPending false]
  | .twUnlock, b => b = [] ∨ b = [.writerPending false]
  | _, b => b = []

section Invariant

variable {T : Type} {slotOf : T → Slot}

/-- The flag as a thread with buffer `b` sees it when memory holds `f`. -/
def seenFlag (b : List Store) (f : Bool) : Bool :=
  b.foldl (fun _ w => match w with | .writerPending x => x) f

/-- Only the flag goes through the store buffer. -/
theorem overlay_eq (m : Mem T) (b : List Store) :
    (code slotOf).overlay m b = { m with writerPending := seenFlag b m.writerPending } := by
  induction b generalizing m with
  | nil => rfl
  | cons w b ih => rw [Code.overlay_cons, ih]; rfl

/-- An empty buffer needs nothing. -/
theorem bufOk_nil {p : Pc} : bufOk p [] := by
  cases p <;> simp [bufOk]

/-- The scan is done under the mutex. -/
theorem drained_ownsMu {p : Pc} {j : Slot} (h : p.drained j = true) : p.ownsMu = true := by
  cases p <;> simp_all [Pc.drained, Pc.ownsMu]

/-- The scan is done after the flag is raised. -/
theorem drained_raised {p : Pc} {j : Slot} (h : p.drained j = true) : p.raised = true := by
  cases p <;> simp_all [Pc.drained, Pc.raised]

/-- What a thread may do: call a function, fail `try_lock` spuriously, or make
the access of its program point. -/
theorem access_cases {t : T} {p : Pc} {c : Choice} {acc : Access (Mem T) Store Pc}
    (h : (code slotOf).access t p c = some acc) :
    ((p = .idle ∨ p = .returnedFalse) ∧ ∃ q, call c = some q ∧ acc = .jump q) ∨
      (p = .twTryLock ∧ acc = .rmw fun m => some (m, .returnedFalse)) ∨
      access slotOf t p = some acc := by
  simp only [code] at h
  split at h
  · obtain ⟨q, hq, rfl⟩ := Option.map_eq_some_iff.mp h
    exact .inl ⟨.inl rfl, q, hq, rfl⟩
  · obtain ⟨q, hq, rfl⟩ := Option.map_eq_some_iff.mp h
    exact .inl ⟨.inr rfl, q, hq, rfl⟩
  · exact .inr (.inl ⟨rfl, (Option.some.inj h).symm⟩)
  · exact .inr (.inr h)
  · cases h

/-- The points `call` leads to: nothing published, owned, scanned or buffered. -/
theorem call_outside {c : Choice} {q : Pc} (h : call c = some q) :
    q.ownsMu = false ∧ q.raised = false ∧ q.published = false ∧ q.holdsRead = false ∧
      (∀ j, q.drained j = false) ∧ bufOk q [] := by
  cases c <;> simp only [call, Option.some.injEq, reduceCtorEq] at h <;> subst h <;>
    exact ⟨rfl, rfl, rfl, rfl, fun _ => rfl, rfl⟩

variable [Fintype T]

/-- The inductive invariant of the store-buffer machine, for runs in which a
writer scans only after its raised flag has reached memory. -/
structure Inv (slotOf : T → Slot) (s : TsoState T (Mem T) Store Pc) : Prop where
  mu : ∀ t, s.mem.writerMu = some t ↔ (s.pc t).ownsMu = true
  free : s.mem.writerMu = none → s.mem.writerPending = false
  flag : ∀ t, (s.pc t).ownsMu = true →
    seenFlag (s.buf t) s.mem.writerPending = (s.pc t).raised
  buf : ∀ t, bufOk (s.pc t) (s.buf t)
  slots : roles.Inv slotOf s.pc s.mem.count

/-- Without the mutex a thread has stored nothing. -/
theorem Inv.buf_nil {s : TsoState T (Mem T) Store Pc} (h : Inv slotOf s) {t : T}
    (hp : (s.pc t).ownsMu = false) : s.buf t = [] := by
  have hb := h.buf t
  cases hpc : s.pc t <;> simp_all [bufOk, Pc.ownsMu]

/-- The mutex has one owner. -/
theorem Inv.owner_unique {s : TsoState T (Mem T) Store Pc} (h : Inv slotOf s) {t u : T}
    (ht : (s.pc t).ownsMu = true) (hu : (s.pc u).ownsMu = true) : t = u := by
  have h1 := (h.mu t).mpr ht
  rw [(h.mu u).mpr hu] at h1
  exact (Option.some.inj h1).symm

/-- Past the first slot of its scan a thread has nothing buffered, so memory
shows its raised flag. -/
theorem Inv.flag_of_drained {s : TsoState T (Mem T) Store Pc} (h : Inv slotOf s) {t : T}
    {j : Slot} (hd : (s.pc t).drained j = true) : s.mem.writerPending = true := by
  have hbuf : s.buf t = [] := by
    have hb := h.buf t
    cases hpc : s.pc t <;> simp_all [bufOk, Pc.drained]
    all_goals
      rcases hb with hb | ⟨-, hb⟩
      · exact hb
      · exact absurd hd (by simp [Fin.lt_def, hb])
  have hf := h.flag t (drained_ownsMu hd)
  rw [hbuf, drained_raised hd] at hf
  exact hf

/-- A move to a point that is neither inside as a reader nor part of a scan. -/
theorem Inv.moveOk {s : TsoState T (Mem T) Store Pc} (h : Inv slotOf s) {t : T} {p : Pc}
    (hin : p.holdsRead = false) (hscan : ∀ j, p.drained j = false) :
    roles.MoveOk slotOf s.pc t p :=
  h.slots.moveOk hin fun j hj => by simp [roles, hscan j] at hj

/-- A reader that saw the flag down enters: no scan has passed its slot, because
a scan past a slot shows its flag in memory. -/
theorem Inv.enter_fast {s : TsoState T (Mem T) Store Pc} (h : Inv slotOf s) {t : T}
    (hflag : s.mem.writerPending = false) : roles.MoveOk slotOf s.pc t .reading := by
  refine Roles.enterOk (fun _ => rfl) fun u _ hd => ?_
  simp [h.flag_of_drained hd] at hflag

/-- A reader that owns the mutex enters: nobody else is scanning. -/
theorem Inv.enter_slow {s : TsoState T (Mem T) Store Pc} (h : Inv slotOf s) {t : T}
    (howned : (s.pc t).ownsMu = true) : roles.MoveOk slotOf s.pc t .reading := by
  refine Roles.enterOk (fun _ => rfl) fun u hu hd => ?_
  exact hu (h.owner_unique (drained_ownsMu hd) howned)

variable [DecidableEq T]

/-- Nothing is up at the start. -/
theorem inv_init : Inv slotOf (tso slotOf).init := by
  refine ⟨?_, ?_, ?_, ?_, ?_, ?_⟩
  · simp [tso, Code.tso, initMem, Pc.ownsMu]
  · simp [tso, Code.tso, initMem]
  · simp [tso, Code.tso, Pc.ownsMu]
  · simp [tso, Code.tso, bufOk]
  · simp [tso, Code.tso, initMem, publishedIn, roles, Pc.published, int32]
  · simp [tso, Code.tso, roles, Pc.holdsRead]

/-- **One thread moves.**  It is enough to look at the thread itself, at what the
others see of the mutex and the flag, and at the slots. -/
theorem Inv.move {s : TsoState T (Mem T) Store Pc} (h : Inv slotOf s) {t : T}
    {m : Mem T} {b : List Store} {p : Pc}
    (hmu : m.writerMu = some t ↔ p.ownsMu = true)
    (hmuOther : ∀ u, u ≠ t → (m.writerMu = some u ↔ s.mem.writerMu = some u))
    (hfree : m.writerMu = none → m.writerPending = false)
    (hflag : p.ownsMu = true → seenFlag b m.writerPending = p.raised)
    (hflagOther : ∀ u, u ≠ t → (s.pc u).ownsMu = true → m.writerPending = s.mem.writerPending)
    (hbuf : bufOk p b)
    (hslots : roles.Inv slotOf (Function.update s.pc t p) m.count) :
    Inv slotOf ⟨m, Function.update s.buf t b, Function.update s.pc t p⟩ := by
  refine ⟨fun u => ?_, hfree, fun u => ?_, fun u => ?_, hslots⟩
  · by_cases hu : u = t
    · subst hu
      simpa using hmu
    · simpa [hu, hmuOther u hu] using h.mu u
  · by_cases hu : u = t
    · subst hu
      simpa using hflag
    · intro howns
      simp only [Function.update_of_ne hu] at howns ⊢
      rw [hflagOther u hu howns]
      exact h.flag u howns
  · by_cases hu : u = t
    · subst hu
      simpa using hbuf
    · simpa [hu] using h.buf u

/-- A load or a jump: memory and buffers stay. -/
theorem Inv.quiet {s : TsoState T (Mem T) Store Pc} (h : Inv slotOf s) {t : T} {p : Pc}
    (howns : p.ownsMu = (s.pc t).ownsMu) (hraised : p.raised = (s.pc t).raised)
    (hpub : p.published = (s.pc t).published) (hbuf : bufOk p (s.buf t))
    (ok : roles.MoveOk slotOf s.pc t p) :
    Inv slotOf { s with pc := Function.update s.pc t p } := by
  have hmove := h.move (t := t) (m := s.mem) (b := s.buf t) (p := p)
    (by rw [howns]; exact h.mu t) (fun _ _ => Iff.rfl) h.free
    (by rw [howns, hraised]; exact h.flag t) (fun _ _ _ => rfl) hbuf (h.slots.stay hpub ok)
  rwa [Function.update_eq_self] at hmove

/-- A `fetch_add` on the thread's own slot, made with nothing buffered. -/
theorem Inv.count {s : TsoState T (Mem T) Store Pc} (h : Inv slotOf s) {t : T} {p : Pc}
    {d : Int} (hbuf : s.buf t = [])
    (howns : p.ownsMu = (s.pc t).ownsMu) (hraised : p.raised = (s.pc t).raised)
    (hd : d = (if p.published = true then 1 else 0) -
      (if (s.pc t).published = true then 1 else 0))
    (ok : roles.MoveOk slotOf s.pc t p) :
    Inv slotOf ⟨fetchAdd s.mem (slotOf t) d, Function.update s.buf t [],
      Function.update s.pc t p⟩ := by
  refine h.move ?_ (fun _ _ => Iff.rfl) h.free ?_ (fun _ _ _ => rfl) bufOk_nil
    (h.slots.count_move hd ok)
  · rw [howns]
    exact h.mu t
  · rw [howns, hraised, ← hbuf]
    exact h.flag t

/-- `writer_mu` is taken while free. -/
theorem Inv.acquire {s : TsoState T (Mem T) Store Pc} (h : Inv slotOf s) {t : T} {p : Pc}
    (hnone : s.mem.writerMu = none) (howns : p.ownsMu = true) (hraised : p.raised = false)
    (hpub : p.published = (s.pc t).published) (ok : roles.MoveOk slotOf s.pc t p) :
    Inv slotOf ⟨{ s.mem with writerMu := some t }, Function.update s.buf t [],
      Function.update s.pc t p⟩ := by
  refine h.move ?_ (fun u hu => ?_) (by simp) (fun _ => ?_) (fun _ _ _ => rfl) bufOk_nil
    (h.slots.stay hpub ok)
  · simp [howns]
  · simp [hnone, Ne.symm hu]
  · rw [hraised]
    exact h.free hnone

/-- `writer_mu` is released by its owner, whose buffer drains first. -/
theorem Inv.release {s : TsoState T (Mem T) Store Pc} (h : Inv slotOf s) {t : T} {p : Pc}
    (howned : (s.pc t).ownsMu = true) (hlow : (s.pc t).raised = false)
    (howns : p.ownsMu = false) (hpub : p.published = (s.pc t).published)
    (ok : roles.MoveOk slotOf s.pc t p) :
    Inv slotOf ⟨{ (code slotOf).overlay s.mem (s.buf t) with writerMu := none },
      Function.update s.buf t [], Function.update s.pc t p⟩ := by
  rw [overlay_eq]
  have hflag : seenFlag (s.buf t) s.mem.writerPending = false := by
    rw [h.flag t howned, hlow]
  refine h.move ?_ (fun u hu => ?_) (fun _ => hflag) ?_ (fun u hu hu' => ?_) bufOk_nil
    (h.slots.stay hpub ok)
  · simp [howns]
  · have hmu := (h.mu t).mpr howned
    simp [hmu, Ne.symm hu]
  · simp [howns]
  · exact absurd (h.owner_unique hu' howned) hu

/-- The owner of `writer_mu` buffers a store to the flag. -/
theorem Inv.store {s : TsoState T (Mem T) Store Pc} (h : Inv slotOf s) {t : T} {p : Pc}
    {x : Bool} (howned : (s.pc t).ownsMu = true) (hbufs : s.buf t = [])
    (howns : p.ownsMu = true) (hraised : p.raised = x)
    (hbuf : bufOk p [.writerPending x]) (hpub : p.published = (s.pc t).published)
    (ok : roles.MoveOk slotOf s.pc t p) :
    Inv slotOf { s with
      buf := Function.update s.buf t (s.buf t ++ [.writerPending x])
      pc := Function.update s.pc t p } := by
  rw [hbufs]
  refine h.move ?_ (fun _ _ => Iff.rfl) h.free (fun _ => ?_) (fun _ _ _ => rfl) hbuf
    (h.slots.stay hpub ok)
  · rw [howns, h.mu t, howned]
  · rw [hraised]
    rfl

/-- A buffered store of the flag reaches memory. -/
theorem Inv.flush {s s' : TsoState T (Mem T) Store Pc} (h : Inv slotOf s) {t : T}
    (hstep : (tso slotOf).step s (.flush t) = some s') : Inv slotOf s' := by
  obtain ⟨⟨x⟩, ws, hbuf, rfl⟩ := Code.tso_flush_cases hstep
  have howned : (s.pc t).ownsMu = true := by
    by_contra hno
    simp [h.buf_nil (by simpa using hno)] at hbuf
  have hmu := (h.mu t).mpr howned
  have hb : ws = [] ∧ bufOk (s.pc t) [] := by
    have hb := h.buf t
    refine ⟨?_, bufOk_nil⟩
    rw [hbuf] at hb
    cases hpc : s.pc t <;> simp_all [bufOk]
  have hflag := h.flag t howned
  rw [hbuf] at hflag
  have hmove := h.move (t := t) (m := (code slotOf).apply (.writerPending x) s.mem) (b := ws)
    (p := s.pc t) (h.mu t) (fun _ _ => Iff.rfl)
    (fun hnone => by simp [code, hmu] at hnone) (fun _ => hflag)
    (fun u hu hu' => absurd (h.owner_unique hu' howned) hu) (by rw [hb.1]; exact hb.2)
    (by rw [Function.update_eq_self]; exact h.slots)
  rwa [Function.update_eq_self] at hmove

/-- The load of a drain scan: stay, give up, or move past an empty slot. -/
theorem Inv.scan {s : TsoState T (Mem T) Store Pc} (h : Inv slotOf s)
    (hT : Fintype.card T < 2 ^ 32) {t : T} {i : Slot} {next : Slot → Pc}
    (hnext : next = .wlScan ∨ next = .twScan) (hpc : s.pc t = next i)
    (hbuf : s.buf t = []) (hz : s.mem.count i = 0) :
    Inv slotOf { s with pc := Function.update s.pc t (scanNext i next .writing) } := by
  have hbefore : ∀ j, j < i → (s.pc t).drained j = true := by
    intro j hj
    rcases hnext with rfl | rfl <;> simpa [hpc, Pc.drained] using hj
  rcases scanNext_cases i next .writing with ⟨hlt, hs⟩ | ⟨hlast, hs⟩
  · rw [hs]
    refine h.quiet ?_ ?_ ?_ ?_ (h.slots.scanOk hT hz ?_ hbefore fun j hj => ?_)
    · rcases hnext with rfl | rfl <;> simp [hpc, Pc.ownsMu]
    · rcases hnext with rfl | rfl <;> simp [hpc, Pc.raised]
    · rcases hnext with rfl | rfl <;> simp [hpc, Pc.published]
    · rcases hnext with rfl | rfl <;> exact .inl hbuf
    · rcases hnext with rfl | rfl <;> rfl
    · have hj' : j.val < i.val + 1 := by
        rcases hnext with rfl | rfl <;> simpa [roles, Pc.drained, Fin.lt_def] using hj
      exact Fin.le_def.mpr (by omega)
  · rw [hs]
    refine h.quiet ?_ ?_ ?_ ?_ (h.slots.scanOk hT hz rfl hbefore fun j _ => hlast j)
    · rcases hnext with rfl | rfl <;> simp [hpc, Pc.ownsMu]
    · rcases hnext with rfl | rfl <;> simp [hpc, Pc.raised]
    · rcases hnext with rfl | rfl <;> simp [hpc, Pc.published]
    · simpa [bufOk] using hbuf

/-- **Every access keeps the invariant**, provided a scan load is made with
nothing buffered. -/
theorem Inv.exec {s s' : TsoState T (Mem T) Store Pc} (h : Inv slotOf s)
    (hT : Fintype.card T < 2 ^ 32) {t : T} {c : Choice}
    (hcond : (s.pc t).isScan = true → s.buf t = [])
    (hstep : (tso slotOf).step s (.exec t c) = some s') : Inv slotOf s' := by
  obtain ⟨acc, hacc, hs'⟩ := Code.tso_exec_cases hstep
  have hok := h.buf t
  have hview : s.buf t = [] → (code slotOf).view s t = s.mem := Code.view_of_buf_nil _
  have hout : ∀ q : Pc, q.holdsRead = false → (∀ j, q.drained j = false) →
      roles.MoveOk slotOf s.pc t q := fun q => h.moveOk
  rcases access_cases hacc with ⟨hp, q, hq, rfl⟩ | ⟨hp, rfl⟩ | hacc
  · -- a call: nothing but the program point changes
    obtain rfl := Option.some.inj hs'
    obtain ⟨h1, h2, h3, h4, h5, h6⟩ := call_outside hq
    have hb : s.buf t = [] := h.buf_nil (by rcases hp with hp | hp <;> simp [hp, Pc.ownsMu])
    refine h.quiet ?_ ?_ ?_ (by rwa [hb]) (hout q h4 h5)
    · rcases hp with hp | hp <;> rw [h1, hp] <;> rfl
    · rcases hp with hp | hp <;> rw [h2, hp] <;> rfl
    · rcases hp with hp | hp <;> rw [h3, hp] <;> rfl
  · -- a spurious failure of try_lock
    have hb : s.buf t = [] := h.buf_nil (by simp [hp, Pc.ownsMu])
    obtain rfl := Option.some.inj hs'
    rw [hview hb, ← hb, Function.update_eq_self]
    exact h.quiet (by simp [hp, Pc.ownsMu]) (by simp [hp, Pc.raised])
      (by simp [hp, Pc.published]) hb (hout _ rfl fun _ => rfl)
  cases hpc : s.pc t with
  | idle | returnedFalse => simp [hpc, access] at hacc
  | rlPublish | rlRetract | ruRetract | trPublish | trRetract | rlRepublish =>
      have hb : s.buf t = [] := by simpa [hpc, bufOk] using hok
      simp only [hpc, access, Option.some.injEq] at hacc
      subst hacc
      obtain rfl := Option.some.inj hs'
      rw [hview hb]
      exact h.count hb (by simp [hpc, Pc.ownsMu]) (by simp [hpc, Pc.raised])
        (by simp [hpc, Pc.published]) (hout _ rfl fun _ => rfl)
  | rlCheck | trCheck =>
      have hb : s.buf t = [] := by simpa [hpc, bufOk] using hok
      simp only [hpc, access, Option.some.injEq] at hacc
      subst hacc
      obtain rfl := Option.some.inj hs'
      rw [hview hb]
      dsimp only
      split
      · exact h.quiet (by simp [hpc, Pc.ownsMu]) (by simp [hpc, Pc.raised])
          (by simp [hpc, Pc.published]) hb (hout _ rfl fun _ => rfl)
      · rename_i hflag
        exact h.quiet (by simp [hpc, Pc.ownsMu]) (by simp [hpc, Pc.raised])
          (by simp [hpc, Pc.published]) hb (h.enter_fast (by simpa using hflag))
  | rlWait | wlLock =>
      have hb : s.buf t = [] := by simpa [hpc, bufOk] using hok
      simp only [hpc, access, Option.some.injEq] at hacc
      subst hacc
      simp only [Code.tsoAccess, hview hb, lockMu] at hs'
      split at hs'
      · obtain rfl := Option.some.inj hs'
        exact h.acquire ‹_› rfl rfl (by simp [hpc, Pc.published]) (hout _ rfl fun _ => rfl)
      · simp at hs'
  | twTryLock =>
      have hb : s.buf t = [] := by simpa [hpc, bufOk] using hok
      simp only [hpc, access, Option.some.injEq] at hacc
      subst hacc
      simp only [Code.tsoAccess, hview hb] at hs'
      by_cases hnone : s.mem.writerMu = none
      · simp only [lockMu, hnone, if_true, Option.map_some, Option.some.injEq] at hs'
        subst hs'
        exact h.acquire hnone rfl rfl (by simp [hpc, Pc.published]) (hout _ rfl fun _ => rfl)
      · simp only [lockMu, hnone, if_false, Option.map_some, Option.some.injEq] at hs'
        subst hs'
        rw [← hb, Function.update_eq_self]
        exact h.quiet (by simp [hpc, Pc.ownsMu]) (by simp [hpc, Pc.raised])
          (by simp [hpc, Pc.published]) hb (hout _ rfl fun _ => rfl)
  | rlRelease =>
      simp only [hpc, access, Option.some.injEq] at hacc
      subst hacc
      obtain rfl := Option.some.inj hs'
      exact h.release (by simp [hpc, Pc.ownsMu]) (by simp [hpc, Pc.raised]) rfl
        (by simp [hpc, Pc.published]) (h.enter_slow (by simp [hpc, Pc.ownsMu]))
  | wuUnlock | twUnlock =>
      simp only [hpc, access, Option.some.injEq] at hacc
      subst hacc
      obtain rfl := Option.some.inj hs'
      exact h.release (by simp [hpc, Pc.ownsMu]) (by simp [hpc, Pc.raised]) rfl
        (by simp [hpc, Pc.published]) (hout _ rfl fun _ => rfl)
  | reading =>
      have hb : s.buf t = [] := by simpa [hpc, bufOk] using hok
      simp only [hpc, access, Option.some.injEq] at hacc
      subst hacc
      obtain rfl := Option.some.inj hs'
      exact h.quiet (by simp [hpc, Pc.ownsMu]) (by simp [hpc, Pc.raised])
        (by simp [hpc, Pc.published]) hb
        (h.slots.stayOk (fun _ => rfl) (by simp [hpc, roles, Pc.holdsRead]))
  | wlStore | twStore =>
      have hb : s.buf t = [] := by simpa [hpc, bufOk] using hok
      simp only [hpc, access, Option.some.injEq] at hacc
      subst hacc
      obtain rfl := Option.some.inj hs'
      refine h.store (by simp [hpc, Pc.ownsMu]) hb rfl rfl (by simp [bufOk])
        (by simp [hpc, Pc.published]) (hout _ rfl fun j => ?_)
      simp [Pc.drained, Fin.lt_def]
  | wuStore | twClear =>
      have hb : s.buf t = [] := by simpa [hpc, bufOk] using hok
      simp only [hpc, access, Option.some.injEq] at hacc
      subst hacc
      obtain rfl := Option.some.inj hs'
      exact h.store (by simp [hpc, Pc.ownsMu]) hb rfl rfl (by simp [bufOk])
        (by simp [hpc, Pc.published]) (hout _ rfl fun _ => rfl)
  | writing =>
      have hb : s.buf t = [] := by simpa [hpc, bufOk] using hok
      simp only [hpc, access, Option.some.injEq] at hacc
      subst hacc
      obtain rfl := Option.some.inj hs'
      exact h.quiet (by simp [hpc, Pc.ownsMu]) (by simp [hpc, Pc.raised])
        (by simp [hpc, Pc.published]) hb
        (h.slots.moveOk rfl fun j _ => by simp [hpc, roles, Pc.drained])
  | wlScan i =>
      have hb : s.buf t = [] := hcond (by simp [hpc, Pc.isScan])
      simp only [hpc, access, Option.some.injEq] at hacc
      subst hacc
      obtain rfl := Option.some.inj hs'
      rw [hview hb]
      dsimp only
      split
      · rw [← hpc, Function.update_eq_self]
        exact h
      · rename_i hz
        exact h.scan hT (.inl rfl) hpc hb (by simpa using hz)
  | twScan i =>
      have hb : s.buf t = [] := hcond (by simp [hpc, Pc.isScan])
      simp only [hpc, access, Option.some.injEq] at hacc
      subst hacc
      obtain rfl := Option.some.inj hs'
      rw [hview hb]
      dsimp only
      split
      · exact h.quiet (by simp [hpc, Pc.ownsMu]) (by simp [hpc, Pc.raised])
          (by simp [hpc, Pc.published]) hb (hout _ rfl fun _ => rfl)
      · rename_i hz
        exact h.scan hT (.inr rfl) hpc hb (by simpa using hz)

/-- The steps a writer has to wait for: a drain-scan load is made only when the
thread's own `writer_pending` store has left its buffer. -/
def ScanFlushed (s : TsoState T (Mem T) Store Pc) : TsoAct T Choice → Prop
  | .exec t _ => (s.pc t).isScan = true → s.buf t = []
  | .flush _ => True

instance (s : TsoState T (Mem T) Store Pc) (a : TsoAct T Choice) :
    Decidable (ScanFlushed s a) := by
  unfold ScanFlushed
  split <;> infer_instance

/-- **The invariant holds in every run** whose scans begin with an empty buffer. -/
theorem inv_reachable (hT : Fintype.card T < 2 ^ 32) {s : TsoState T (Mem T) Store Pc}
    (hs : (tso slotOf).ReachableUnder ScanFlushed s) : Inv slotOf s := by
  refine hs.invariant inv_init fun s a s' h hcond hstep => ?_
  cases a with
  | exec t c => exact h.exec hT hcond hstep
  | flush t => exact h.flush hstep

/-- **Readers and writers stay apart once scans wait for the flag.**  In every
store-buffer run in which no drain-scan load is made while the scanning thread's
own `writer_pending` store is still buffered, no state has one thread between
the return of `write_lock` and the call of `write_unlock` while another is
between the return of `read_lock` and the call of `read_unlock`. -/
theorem tso_exclusion_of_flushed_scans (hT : Fintype.card T < 2 ^ 32)
    {s : TsoState T (Mem T) Store Pc} (hs : (tso slotOf).ReachableUnder ScanFlushed s)
    (t u : T) : ¬ (s.pc t = .writing ∧ s.pc u = .reading) := by
  rintro ⟨ht, hu⟩
  have hin := (inv_reachable hT hs).slots.drain t u (by simp [ht, roles, Pc.drained])
  simp [hu, roles, Pc.holdsRead] at hin

/-- **The whole interface under sequential consistency.**  In every reachable
state at most one thread holds the write side and then none holds the read side;
each slot count is the number of published threads of the slot; the flag is up
only while the mutex is owned, and a slow-path reader about to re-publish owns it
with no writer inside; and a thread whose `try_` call returned false is neither
published nor owner of the mutex nor the one who raised the flag. -/
theorem sc_interface_invariant (hT : Fintype.card T < 2 ^ 31)
    {s : ScState T (Mem T) Pc} (hs : (sc slotOf).Reachable s) :
    ((∀ t u, (s.pc t).holdsWrite = true → (s.pc u).holdsWrite = true → t = u) ∧
      ∀ t u, (s.pc t).holdsWrite = true → (s.pc u).holdsRead = false) ∧
    (∀ i, s.mem.count i = publishedIn roles slotOf s.pc i ∧ 0 ≤ s.mem.count i) ∧
    ((s.mem.writerPending = true → ∃ t, s.mem.writerMu = some t) ∧
      ∀ t, s.pc t = .rlRepublish →
        s.mem.writerMu = some t ∧ ∀ u, (s.pc u).holdsWrite = false) ∧
    (∀ t, s.pc t = .returnedFalse →
      s.mem.writerMu ≠ some t ∧
      (s.mem.writerPending = true → ∃ u, u ≠ t ∧ s.mem.writerMu = some u) ∧
      s.mem.count (slotOf t) = (Finset.univ.filter fun u =>
        u ≠ t ∧ slotOf u = slotOf t ∧ (s.pc u).published = true).card) := by
  have h : Inv slotOf (Code.flushed s) := by
    refine inv_reachable (by omega) (Code.sc_reachable_tso (fun _ _ => trivial) ?_ hs)
    intro s a _ _
    rfl
  have hwrite : ∀ t, (s.pc t).holdsWrite = true →
      (s.pc t).ownsMu = true ∧ ∀ j, (s.pc t).drained j = true := by
    intro t ht
    cases hpc : s.pc t <;> simp_all [Pc.holdsWrite, Pc.ownsMu, Pc.drained]
  have hcount : ∀ i, s.mem.count i = publishedIn roles slotOf s.pc i := by
    intro i
    have hc := h.slots.count i
    rwa [int32_of_lt (lt_of_le_of_lt (publishedIn_le _ _) hT)] at hc
  have hpending : s.mem.writerPending = true → ∃ t, s.mem.writerMu = some t := by
    intro hp
    by_contra hno
    have hnone : s.mem.writerMu = none := by
      cases hmu : s.mem.writerMu with
      | none => rfl
      | some t => exact absurd ⟨t, hmu⟩ hno
    have hlow : s.mem.writerPending = false := h.free hnone
    simp [hlow] at hp
  refine ⟨⟨fun t u ht hu => ?_, fun t u ht => ?_⟩, fun i => ⟨hcount i, ?_⟩,
    ⟨hpending, fun t ht => ⟨?_, fun u => ?_⟩⟩, fun t ht => ⟨fun hmu => ?_, fun hp => ?_, ?_⟩⟩
  · exact h.owner_unique (hwrite t ht).1 (hwrite u hu).1
  · exact h.slots.drain t u ((hwrite t ht).2 _)
  · rw [hcount i]
    exact Int.natCast_nonneg _
  · exact (h.mu t).mpr (by simp [Code.flushed, ht, Pc.ownsMu])
  · by_contra hu
    have howns : (s.pc t).ownsMu = true := by simp [ht, Pc.ownsMu]
    obtain rfl := h.owner_unique (hwrite u (by simpa using hu)).1 howns
    simp [ht, Pc.holdsWrite] at hu
  · have howns := (h.mu t).mp hmu
    simp [Code.flushed, ht, Pc.ownsMu] at howns
  · obtain ⟨u, hu⟩ := hpending hp
    refine ⟨u, fun hut => ?_, hu⟩
    have howns := (h.mu u).mp hu
    simp [Code.flushed, hut, ht, Pc.ownsMu] at howns
  · rw [hcount, publishedIn]
    refine congrArg (fun a : Finset T => (a.card : Int)) (Finset.filter_congr fun u _ => ?_)
    by_cases hu : u = t
    · simp [hu, ht, roles, Pc.published]
    · simp [hu, roles]

end Invariant

section Schedules

/-- Both threads use slot 0. -/
def oneSlot : Bool → Slot := fun _ => ⟨0, by decide⟩

/-- Two threads of one slot: the writer takes the mutex, buffers its raised flag
and scans all slots; then the reader publishes itself and reads the flag from
memory. -/
def delayedFlag : List (TsoAct Bool Choice) :=
  .exec false .writeLock :: .exec false .go :: .exec false .go ::
    (List.replicate nSlots (.exec false .go)).append
      [.exec true .readLock, .exec true .go, .exec true .go]

/-- The same schedule with the flag flushed before the scan. -/
def flushedFlag : List (TsoAct Bool Choice) :=
  .exec false .writeLock :: .exec false .go :: .exec false .go :: .flush false ::
    (List.replicate nSlots (.exec false .go)).append
      [.exec true .readLock, .exec true .go, .exec true .go]

/-- A writer inside and a failed `try_read_lock` beside it. -/
def failedTry : List (Bool × Choice) :=
  (false, .writeLock) :: (false, .go) :: (false, .go) ::
    (List.replicate nSlots (false, .go)).append
      [(true, .tryReadLock), (true, .go), (true, .go), (true, .go)]

/-- **Store buffers break the handshake.**  The writer's flag store is delayed
past its scan, so writer and reader are inside together. -/
theorem tso_reader_beside_writer :
    ∃ s, (tso oneSlot).Reachable s ∧ s.pc false = .writing ∧ s.pc true = .reading := by
  have hrun : ((tso oneSlot).run delayedFlag).map (fun s => (s.pc false, s.pc true)) =
      some (.writing, .reading) := by decide +kernel
  obtain ⟨s, hs, hpc⟩ := Option.map_eq_some_iff.mp hrun
  exact ⟨s, Machine.reachable_of_run hs, congrArg Prod.fst hpc, congrArg Prod.snd hpc⟩

/-- With the flag flushed the same reader is turned away. -/
theorem tso_exclusion_flushedFlag :
    ∃ s, (tso oneSlot).ReachableUnder ScanFlushed s ∧ s.pc false = .writing ∧
      ¬ (s.pc false = .writing ∧ s.pc true = .reading) := by
  have hrun : ((tso oneSlot).runChecked (fun s a => decide (ScanFlushed s a))
      (tso oneSlot).init flushedFlag).map (fun s => s.pc false) = some .writing := by
    decide +kernel
  obtain ⟨s, hs, hpc⟩ := Option.map_eq_some_iff.mp hrun
  have hreach := Machine.reachableUnder_of_runChecked (fun _ _ => of_decide_eq_true) hs
  exact ⟨s, hreach, hpc, tso_exclusion_of_flushed_scans (by decide) hreach false true⟩

/-- The failed `try_read_lock` has left nothing behind. -/
theorem sc_interface_failedTry :
    ∃ s, (sc oneSlot).Reachable s ∧ s.pc false = .writing ∧ s.pc true = .returnedFalse ∧
      s.mem.writerMu ≠ some true ∧ (s.pc true).holdsRead = false := by
  have hrun : ((sc oneSlot).run failedTry).map (fun s => (s.pc false, s.pc true)) =
      some (.writing, .returnedFalse) := by decide +kernel
  obtain ⟨s, hs, hpc⟩ := Option.map_eq_some_iff.mp hrun
  have h1 : s.pc false = .writing := congrArg Prod.fst hpc
  have h2 : s.pc true = .returnedFalse := congrArg Prod.snd hpc
  have hreach := Machine.reachable_of_run hs
  have h := sc_interface_invariant (by decide) hreach
  exact ⟨s, hreach, h1, h2, (h.2.2.2 true h2).1, h.1.2 false true (by simp [h1, Pc.holdsWrite])⟩

end Schedules

end PcpuRwLockV2
