import LockBench.ReaderSlots

/-!
# The per-CPU reader-writer lock, first version

`pcpu_rw_lock` has one reader counter per slot and a `writer_present` flag that
a writer takes by compare-exchange and drops by a plain store.  The text below
is its whole interface, with `try_write_lock` and `try_read_lock`, one
shared-memory access per program point; it is run on the store-buffer machine.

The handshake survives store buffers here because both publications are
read-modify-writes: the flag is in memory before the writer's first scan load,
and a reader's count is in memory before it looks at the flag.  Only dropping
the flag is delayed, and a delayed drop keeps readers out longer than needed.
-/

namespace PcpuRwLock

open ReaderSlots

/-- Number of reader slots. -/
def nSlots : Nat := 64

/-- Index of a reader slot. -/
abbrev Slot := Fin nSlots

/-- The shared words of the lock. -/
structure Mem where
  writerPresent : Bool
  count : Slot → Int

/-- The plain stores of the program: only `writer_present` is ever stored to. -/
inductive Store
  | writerPresent (b : Bool)
  deriving DecidableEq

/-- Program points, named after the access made there. -/
inductive Pc
  | idle
  | returnedFalse
  | rlPublish
  | rlCheck
  | rlRetract
  | rlSpin
  | reading
  | ruRetract
  | wlCas
  | wlScan (i : Slot)
  | writing
  | wuStore
  | twCas
  | twScan (i : Slot)
  | twGiveUp
  | trPublish
  | trCheck
  | trRetract
  deriving DecidableEq

/-- How a thread's nondeterminism is resolved: which function it calls next, the
ordinary next access, or a spurious failure of `compare_exchange_weak`. -/
inductive Choice
  | readLock
  | writeLock
  | tryReadLock
  | tryWriteLock
  | go
  | spurious
  deriving DecidableEq

/-- `slots[s].count.fetch_add(d)`. -/
def fetchAdd (m : Mem) (s : Slot) (d : Int) : Mem :=
  { m with count := Function.update m.count s (int32 (m.count s + d)) }

/-- The first access of the function a thread decides to call. -/
def call : Choice → Option Pc
  | .readLock => some .rlPublish
  | .writeLock => some .wlCas
  | .tryReadLock => some .trPublish
  | .tryWriteLock => some .twCas
  | .go => none
  | .spurious => none

/-- `writer_present.compare_exchange(false, true)`. -/
def casPresent (m : Mem) (won lost : Pc) : Mem × Pc :=
  if m.writerPresent then (m, lost) else ({ m with writerPresent := true }, won)

section Program

variable {T : Type} (slotOf : T → Slot)

/-- The access made at a program point by the ordinary choice. -/
def access (t : T) : Pc → Option (Access Mem Store Pc)
  | .idle => none
  | .returnedFalse => none
  | .rlPublish => some (.rmw fun m => some (fetchAdd m (slotOf t) 1, .rlCheck))
  | .rlCheck => some (.load fun m => if m.writerPresent then .rlRetract else .reading)
  | .rlRetract => some (.rmw fun m => some (fetchAdd m (slotOf t) (-1), .rlSpin))
  | .rlSpin => some (.load fun m => if m.writerPresent then .rlSpin else .rlPublish)
  | .reading => some (.jump .ruRetract)
  | .ruRetract => some (.rmw fun m => some (fetchAdd m (slotOf t) (-1), .idle))
  | .wlCas => some (.rmw fun m => some (casPresent m (.wlScan ⟨0, by decide⟩) .wlCas))
  | .wlScan i => some (.load fun m =>
      if m.count i ≠ 0 then .wlScan i else scanNext i .wlScan .writing)
  | .writing => some (.jump .wuStore)
  | .wuStore => some (.store (.writerPresent false) .idle)
  | .twCas => some (.rmw fun m => some (casPresent m (.twScan ⟨0, by decide⟩) .returnedFalse))
  | .twScan i => some (.load fun m =>
      if m.count i ≠ 0 then .twGiveUp else scanNext i .twScan .writing)
  | .twGiveUp => some (.store (.writerPresent false) .returnedFalse)
  | .trPublish => some (.rmw fun m => some (fetchAdd m (slotOf t) 1, .trCheck))
  | .trCheck => some (.load fun m => if m.writerPresent then .trRetract else .reading)
  | .trRetract => some (.rmw fun m => some (fetchAdd m (slotOf t) (-1), .returnedFalse))

/-- The lock as a thread program: a thread outside the lock may call any of its
functions, `compare_exchange_weak` may fail spuriously, everything else is
determined. -/
def code : Code T Mem Store Pc Choice where
  apply
    | .writerPresent b, m => { m with writerPresent := b }
  access t
    | .idle, c => (call c).map .jump
    | .returnedFalse, c => (call c).map .jump
    | .wlCas, .spurious => some (.rmw fun m => some (m, .wlCas))
    | p, .go => access slotOf t p
    | _, _ => none

/-- The lock as constructed. -/
def initMem : Mem := ⟨false, fun _ => 0⟩

/-- The lock on the store-buffer machine. -/
def tso [DecidableEq T] : Machine (TsoState T Mem Store Pc) (TsoAct T Choice) :=
  (code slotOf).tso initMem fun _ => .idle

end Program

/-! ## What each program point stands for -/

/-- The thread has published itself in its slot and not yet retracted. -/
def Pc.published : Pc → Bool
  | .rlCheck | .rlRetract | .reading | .ruRetract | .trCheck | .trRetract => true
  | _ => false

/-- The thread took `writer_present` and has not yet issued the store that drops it. -/
def Pc.ownsFlag : Pc → Bool
  | .wlScan _ | .writing | .wuStore | .twScan _ | .twGiveUp => true
  | _ => false

/-- Between the return of `read_lock` and the retraction of `read_unlock`. -/
def Pc.holdsRead : Pc → Bool
  | .reading | .ruRetract => true
  | _ => false

/-- Between the return of `write_lock` and the store of `write_unlock`. -/
def Pc.holdsWrite : Pc → Bool
  | .writing | .wuStore => true
  | _ => false

/-- The thread's scan has passed slot `j`. -/
def Pc.drained (j : Slot) : Pc → Bool
  | .wlScan i | .twScan i => decide (j < i)
  | .writing | .wuStore => true
  | _ => false

/-- A point at which a dropped flag may still be in the thread's buffer: outside
the lock, or before the first read-modify-write of a call. -/
def Pc.mayBuffer : Pc → Bool
  | .idle | .returnedFalse | .rlPublish | .wlCas | .twCas | .trPublish => true
  | _ => false

/-- The roles of the program points in the slot protocol. -/
def roles : Roles Pc nSlots where
  published := Pc.published
  inside := Pc.holdsRead
  drained := Pc.drained
  inside_published p := by cases p <;> simp [Pc.holdsRead, Pc.published]

section Invariant

variable {T : Type} {slotOf : T → Slot}

/-- The thread's claim on the flag: taken and not dropped, or dropped with the
store still buffered. -/
def claims (s : TsoState T Mem Store Pc) (t : T) : Prop :=
  (s.pc t).ownsFlag = true ∨ s.buf t ≠ []

theorem drained_ownsFlag {p : Pc} {j : Slot} (h : p.drained j = true) : p.ownsFlag = true := by
  cases p <;> simp_all [Pc.drained, Pc.ownsFlag]

theorem ownsFlag_not_mayBuffer {p : Pc} (h : p.ownsFlag = true) : p.mayBuffer = false := by
  cases p <;> simp_all [Pc.ownsFlag, Pc.mayBuffer]

/-- What a thread may do: call a function, fail its weak compare-exchange
spuriously, or make the access of its program point. -/
theorem access_cases {t : T} {p : Pc} {c : Choice} {acc : Access Mem Store Pc}
    (h : (code slotOf).access t p c = some acc) :
    ((p = .idle ∨ p = .returnedFalse) ∧ ∃ q, call c = some q ∧ acc = .jump q) ∨
      (p = .wlCas ∧ acc = .rmw fun m => some (m, .wlCas)) ∨
      access slotOf t p = some acc := by
  simp only [code] at h
  split at h
  · obtain ⟨q, hq, rfl⟩ := Option.map_eq_some_iff.mp h
    exact .inl ⟨.inl rfl, q, hq, rfl⟩
  · obtain ⟨q, hq, rfl⟩ := Option.map_eq_some_iff.mp h
    exact .inl ⟨.inr rfl, q, hq, rfl⟩
  · exact .inr (.inl ⟨rfl, (Option.some.inj h).symm⟩)
  · exact .inr (.inr h)
  · cases h

/-- The points `call` leads to: nothing published, taken or scanned. -/
theorem call_outside {c : Choice} {q : Pc} (h : call c = some q) :
    q.ownsFlag = false ∧ q.published = false ∧ q.holdsRead = false ∧
      (∀ j, q.drained j = false) ∧ q.mayBuffer = true := by
  cases c <;> simp only [call, Option.some.injEq, reduceCtorEq] at h <;> subst h <;>
    exact ⟨rfl, rfl, rfl, fun _ => rfl, rfl⟩

variable [Fintype T]

/-- The inductive invariant: the flag is up in memory exactly while some thread
has a claim on it, claims exclude each other, and only drops are ever buffered. -/
structure Inv (slotOf : T → Slot) (s : TsoState T Mem Store Pc) : Prop where
  unique : ∀ t u, claims s t → claims s u → t = u
  flag : s.mem.writerPresent = true ↔ ∃ t, claims s t
  buf : ∀ t, s.buf t = [] ∨ s.buf t = [.writerPresent false] ∧ (s.pc t).mayBuffer = true
  slots : roles.Inv slotOf s.pc s.mem.count

theorem Inv.buf_nil {s : TsoState T Mem Store Pc} (h : Inv slotOf s) {t : T}
    (hp : (s.pc t).mayBuffer = false) : s.buf t = [] := by
  rcases h.buf t with hb | ⟨-, hm⟩
  · exact hb
  · simp [hp] at hm

/-- A thread outside the flag sees it up exactly when another thread has a claim:
its own buffered drop hides its own claim. -/
theorem Inv.view_flag {s : TsoState T Mem Store Pc} (h : Inv slotOf s) {t : T}
    (hp : (s.pc t).ownsFlag = false) :
    ((code slotOf).view s t).writerPresent = true ↔ ∃ u, u ≠ t ∧ claims s u := by
  rcases h.buf t with hb | ⟨hb, -⟩
  · rw [Code.view_of_buf_nil _ hb, h.flag]
    have hno : ¬ claims s t := by simp [claims, hp, hb]
    constructor
    · rintro ⟨u, hu⟩
      exact ⟨u, fun hut => hno (hut ▸ hu), hu⟩
    · rintro ⟨u, -, hu⟩
      exact ⟨u, hu⟩
  · have hclaim : claims s t := .inr (by simp [hb])
    constructor
    · intro hview
      simp [Code.view, hb, Code.overlay_cons, code] at hview
    · rintro ⟨u, hu, hc⟩
      exact absurd (h.unique u t hc hclaim) hu

theorem Inv.view_count {s : TsoState T Mem Store Pc} (h : Inv slotOf s) (t : T) :
    ((code slotOf).view s t).count = s.mem.count := by
  rcases h.buf t with hb | ⟨hb, -⟩
  · rw [Code.view_of_buf_nil _ hb]
  · simp [Code.view, hb, Code.overlay_cons, code]

/-- A move to a point that is neither inside as a reader nor part of a scan. -/
theorem Inv.moveOk {s : TsoState T Mem Store Pc} (h : Inv slotOf s) {t : T} {p : Pc}
    (hin : p.holdsRead = false) (hscan : ∀ j, p.drained j = false) :
    roles.MoveOk slotOf s.pc t p :=
  h.slots.moveOk hin fun j hj => by simp [roles, hscan j] at hj

/-- A reader that saw the flag down enters: a thread that has passed its slot has
a claim, and a claim shows in memory. -/
theorem Inv.enter {s : TsoState T Mem Store Pc} (h : Inv slotOf s) {t : T}
    (hflag : s.mem.writerPresent = false) : roles.MoveOk slotOf s.pc t .reading := by
  refine Roles.enterOk (fun _ => rfl) fun u _ hd => ?_
  have hclaim : claims s u := .inl (drained_ownsFlag hd)
  simp [h.flag.mpr ⟨u, hclaim⟩] at hflag

variable [DecidableEq T]

theorem inv_init : Inv slotOf (tso slotOf).init := by
  refine ⟨?_, ?_, ?_, ?_, ?_⟩
  · simp [tso, Code.tso, claims, Pc.ownsFlag]
  · simp [tso, Code.tso, initMem, claims, Pc.ownsFlag]
  · simp [tso, Code.tso]
  · simp [tso, Code.tso, initMem, publishedIn, roles, Pc.published, int32]
  · simp [tso, Code.tso, roles, Pc.holdsRead]

/-- **One thread moves.**  It is enough to compare the thread's own claim, the
claims of the others and the flag. -/
theorem Inv.move {s : TsoState T Mem Store Pc} (h : Inv slotOf s) {t : T}
    {m : Mem} {b : List Store} {p : Pc}
    (huniq : (p.ownsFlag = true ∨ b ≠ []) → ∀ u, u ≠ t → ¬ claims s u)
    (hflag : m.writerPresent = true ↔
      (p.ownsFlag = true ∨ b ≠ []) ∨ ∃ u, u ≠ t ∧ claims s u)
    (hbuf : b = [] ∨ b = [.writerPresent false] ∧ p.mayBuffer = true)
    (hslots : roles.Inv slotOf (Function.update s.pc t p) m.count) :
    Inv slotOf ⟨m, Function.update s.buf t b, Function.update s.pc t p⟩ := by
  let s' : TsoState T Mem Store Pc :=
    ⟨m, Function.update s.buf t b, Function.update s.pc t p⟩
  have hself : claims s' t ↔ (p.ownsFlag = true ∨ b ≠ []) := by simp [claims, s']
  have hother : ∀ u, u ≠ t → (claims s' u ↔ claims s u) := by
    intro u hu
    simp [claims, s', hu]
  refine ⟨fun u v hu hv => ?_, ?_, fun u => ?_, hslots⟩
  · by_cases hut : u = t
    · by_cases hvt : v = t
      · rw [hut, hvt]
      · exact absurd ((hother v hvt).mp hv) (huniq (hself.mp (hut ▸ hu)) v hvt)
    · by_cases hvt : v = t
      · exact absurd ((hother u hut).mp hu) (huniq (hself.mp (hvt ▸ hv)) u hut)
      · exact h.unique u v ((hother u hut).mp hu) ((hother v hvt).mp hv)
  · refine hflag.trans ⟨?_, ?_⟩
    · rintro (hc | ⟨u, hu, hc⟩)
      · exact ⟨t, hself.mpr hc⟩
      · exact ⟨u, (hother u hu).mpr hc⟩
    · rintro ⟨u, hc⟩
      by_cases hu : u = t
      · exact .inl (hself.mp (hu ▸ hc))
      · exact .inr ⟨u, hu, (hother u hu).mp hc⟩
  · by_cases hu : u = t
    · subst hu
      simpa using hbuf
    · simpa [hu] using h.buf u

/-- The flag in terms of the thread's own claim and those of the others. -/
theorem Inv.flag_split {s : TsoState T Mem Store Pc} (h : Inv slotOf s) (t : T) :
    s.mem.writerPresent = true ↔ claims s t ∨ ∃ u, u ≠ t ∧ claims s u := by
  refine h.flag.trans ⟨?_, ?_⟩
  · rintro ⟨u, hc⟩
    by_cases hu : u = t
    · exact .inl (hu ▸ hc)
    · exact .inr ⟨u, hu, hc⟩
  · rintro (hc | ⟨u, -, hc⟩)
    · exact ⟨t, hc⟩
    · exact ⟨u, hc⟩

/-- A load or a jump: memory and buffers stay. -/
theorem Inv.quiet {s : TsoState T Mem Store Pc} (h : Inv slotOf s) {t : T} {p : Pc}
    (howns : p.ownsFlag = (s.pc t).ownsFlag)
    (hmay : (s.pc t).mayBuffer = true → p.mayBuffer = true)
    (hpub : p.published = (s.pc t).published) (ok : roles.MoveOk slotOf s.pc t p) :
    Inv slotOf { s with pc := Function.update s.pc t p } := by
  have hmove := h.move (t := t) (m := s.mem) (b := s.buf t) (p := p) ?_ ?_ ?_
    (h.slots.stay hpub ok)
  · rwa [Function.update_eq_self] at hmove
  · rw [howns]
    exact fun hc u hu hcu => hu (h.unique u t hcu hc)
  · rw [howns]
    exact h.flag_split t
  · rcases h.buf t with hb | ⟨hb, hm⟩
    · exact .inl hb
    · exact .inr ⟨hb, hmay hm⟩

/-- A read-modify-write by a thread outside the flag that leaves the flag as the
thread sees it: its buffered drop, if any, reaches memory. -/
theorem Inv.outside {s : TsoState T Mem Store Pc} (h : Inv slotOf s) {t : T} {p : Pc}
    {m : Mem} (hout : (s.pc t).ownsFlag = false) (howns : p.ownsFlag = false)
    (hm : m.writerPresent = ((code slotOf).view s t).writerPresent)
    (hslots : roles.Inv slotOf (Function.update s.pc t p) m.count) :
    Inv slotOf ⟨m, Function.update s.buf t [], Function.update s.pc t p⟩ := by
  refine h.move ?_ ?_ (.inl rfl) hslots
  · simp [howns]
  · rw [hm, h.view_flag hout]
    simp [howns]

/-- A won compare-exchange: nobody else had a claim. -/
theorem Inv.take {s : TsoState T Mem Store Pc} (h : Inv slotOf s) {t : T} {p : Pc}
    {m : Mem} (hout : (s.pc t).ownsFlag = false) (howns : p.ownsFlag = true)
    (hfree : ((code slotOf).view s t).writerPresent = false)
    (hm : m.writerPresent = true)
    (hslots : roles.Inv slotOf (Function.update s.pc t p) m.count) :
    Inv slotOf ⟨m, Function.update s.buf t [], Function.update s.pc t p⟩ := by
  have hnone : ∀ u, u ≠ t → ¬ claims s u := by
    intro u hu hc
    simp [(h.view_flag hout).mpr ⟨u, hu, hc⟩] at hfree
  exact h.move (fun _ => hnone) (by simp [hm, howns]) (.inl rfl) hslots

/-- The owner of the flag buffers the store that drops it. -/
theorem Inv.drop {s : TsoState T Mem Store Pc} (h : Inv slotOf s) {t : T} {p : Pc}
    (howned : (s.pc t).ownsFlag = true) (hmay : p.mayBuffer = true)
    (hpub : p.published = (s.pc t).published) (ok : roles.MoveOk slotOf s.pc t p) :
    Inv slotOf { s with
      buf := Function.update s.buf t (s.buf t ++ [.writerPresent false])
      pc := Function.update s.pc t p } := by
  have hb : s.buf t = [] := h.buf_nil (ownsFlag_not_mayBuffer howned)
  have hclaim : claims s t := .inl howned
  rw [hb]
  refine h.move (fun _ u hu hc => hu (h.unique u t hc hclaim)) ?_ (.inr ⟨rfl, hmay⟩)
    (h.slots.stay hpub ok)
  simp [h.flag.mpr ⟨t, hclaim⟩]

/-- A buffered drop reaches memory. -/
theorem Inv.flush {s s' : TsoState T Mem Store Pc} (h : Inv slotOf s) {t : T}
    (hstep : (tso slotOf).step s (.flush t) = some s') : Inv slotOf s' := by
  obtain ⟨⟨x⟩, ws, hbuf, rfl⟩ := Code.tso_flush_cases hstep
  have hclaim : claims s t := .inr (by simp [hbuf])
  obtain ⟨hb, hmay⟩ := (h.buf t).resolve_left (by simp [hbuf])
  obtain ⟨rfl, rfl⟩ : x = false ∧ ws = [] := by simpa [hb] using hbuf
  have hnot : (s.pc t).ownsFlag = false := by
    by_contra hown
    simp [ownsFlag_not_mayBuffer (by simpa using hown)] at hmay
  have hnone : ¬ ∃ u, u ≠ t ∧ claims s u := by
    rintro ⟨u, hu, hc⟩
    exact hu (h.unique u t hc hclaim)
  have hmove := h.move (t := t) (m := (code slotOf).apply (.writerPresent false) s.mem)
    (b := []) (p := s.pc t) (by simp [hnot]) (by simp [code, hnot, hnone]) (.inl rfl)
    (by rw [Function.update_eq_self]; exact h.slots)
  rwa [Function.update_eq_self] at hmove

/-- The load of a drain scan that saw slot `i` empty. -/
theorem Inv.scan {s : TsoState T Mem Store Pc} (h : Inv slotOf s)
    (hT : Fintype.card T < 2 ^ 32) {t : T} {i : Slot} {next : Slot → Pc}
    (hnext : next = .wlScan ∨ next = .twScan) (hpc : s.pc t = next i)
    (hz : s.mem.count i = 0) :
    Inv slotOf { s with pc := Function.update s.pc t (scanNext i next .writing) } := by
  have hbefore : ∀ j, j < i → (s.pc t).drained j = true := by
    intro j hj
    rcases hnext with rfl | rfl <;> simpa [hpc, Pc.drained] using hj
  have hmay : (s.pc t).mayBuffer = false := by
    rcases hnext with rfl | rfl <;> simp [hpc, Pc.mayBuffer]
  rcases scanNext_cases i next .writing with ⟨hlt, hs⟩ | ⟨hlast, hs⟩
  · rw [hs]
    refine h.quiet ?_ (by simp [hmay]) ?_ (h.slots.scanOk hT hz ?_ hbefore fun j hj => ?_)
    · rcases hnext with rfl | rfl <;> simp [hpc, Pc.ownsFlag]
    · rcases hnext with rfl | rfl <;> simp [hpc, Pc.published]
    · rcases hnext with rfl | rfl <;> rfl
    · have hj' : j.val < i.val + 1 := by
        rcases hnext with rfl | rfl <;> simpa [roles, Pc.drained, Fin.lt_def] using hj
      exact Fin.le_def.mpr (by omega)
  · rw [hs]
    refine h.quiet ?_ (by simp [hmay]) ?_ (h.slots.scanOk hT hz rfl hbefore fun j _ => hlast j)
    · rcases hnext with rfl | rfl <;> simp [hpc, Pc.ownsFlag]
    · rcases hnext with rfl | rfl <;> simp [hpc, Pc.published]

/-- **Every access keeps the invariant.** -/
theorem Inv.exec {s s' : TsoState T Mem Store Pc} (h : Inv slotOf s)
    (hT : Fintype.card T < 2 ^ 32) {t : T} {c : Choice}
    (hstep : (tso slotOf).step s (.exec t c) = some s') : Inv slotOf s' := by
  obtain ⟨acc, hacc, hs'⟩ := Code.tso_exec_cases hstep
  have hview : (s.pc t).mayBuffer = false → (code slotOf).view s t = s.mem :=
    fun hp => Code.view_of_buf_nil _ (h.buf_nil hp)
  have hout : ∀ q : Pc, q.holdsRead = false → (∀ j, q.drained j = false) →
      roles.MoveOk slotOf s.pc t q := fun q => h.moveOk
  rcases access_cases hacc with ⟨hp, q, hq, rfl⟩ | ⟨hp, rfl⟩ | hacc
  · -- a call: nothing but the program point changes
    obtain rfl := Option.some.inj hs'
    obtain ⟨h1, h2, h3, h4, h5⟩ := call_outside hq
    refine h.quiet ?_ (fun _ => h5) ?_ (hout q h3 h4)
    · rcases hp with hp | hp <;> rw [h1, hp] <;> rfl
    · rcases hp with hp | hp <;> rw [h2, hp] <;> rfl
  · -- a spurious failure of compare_exchange_weak
    obtain rfl := Option.some.inj hs'
    refine h.outside (by simp [hp, Pc.ownsFlag]) rfl rfl ?_
    rw [h.view_count]
    exact h.slots.stay (by simp [hp, roles, Pc.published]) (hout _ rfl fun _ => rfl)
  cases hpc : s.pc t with
  | idle | returnedFalse => simp [hpc, access] at hacc
  | rlPublish | rlRetract | ruRetract | trPublish | trRetract =>
      simp only [hpc, access, Option.some.injEq] at hacc
      subst hacc
      obtain rfl := Option.some.inj hs'
      refine h.outside (by simp [hpc, Pc.ownsFlag]) rfl rfl ?_
      simp only [fetchAdd, h.view_count]
      exact h.slots.count_move (by simp [hpc, roles, Pc.published]) (hout _ rfl fun _ => rfl)
  | rlCheck | trCheck =>
      simp only [hpc, access, Option.some.injEq] at hacc
      subst hacc
      obtain rfl := Option.some.inj hs'
      rw [hview (by simp [hpc, Pc.mayBuffer])]
      dsimp only
      split
      · exact h.quiet (by simp [hpc, Pc.ownsFlag]) (by simp [hpc, Pc.mayBuffer])
          (by simp [hpc, Pc.published]) (hout _ rfl fun _ => rfl)
      · rename_i hflag
        exact h.quiet (by simp [hpc, Pc.ownsFlag]) (by simp [hpc, Pc.mayBuffer])
          (by simp [hpc, Pc.published]) (h.enter (by simpa using hflag))
  | rlSpin =>
      simp only [hpc, access, Option.some.injEq] at hacc
      subst hacc
      obtain rfl := Option.some.inj hs'
      dsimp only
      split
      · exact h.quiet (by simp [hpc, Pc.ownsFlag]) (by simp [hpc, Pc.mayBuffer])
          (by simp [hpc, Pc.published]) (hout _ rfl fun _ => rfl)
      · exact h.quiet (by simp [hpc, Pc.ownsFlag]) (by simp [hpc, Pc.mayBuffer])
          (by simp [hpc, Pc.published]) (hout _ rfl fun _ => rfl)
  | reading =>
      simp only [hpc, access, Option.some.injEq] at hacc
      subst hacc
      obtain rfl := Option.some.inj hs'
      exact h.quiet (by simp [hpc, Pc.ownsFlag]) (by simp [hpc, Pc.mayBuffer])
        (by simp [hpc, Pc.published])
        (h.slots.stayOk (fun _ => rfl) (by simp [hpc, roles, Pc.holdsRead]))
  | wlCas | twCas =>
      simp only [hpc, access, Option.some.injEq] at hacc
      subst hacc
      obtain rfl := Option.some.inj hs'
      simp only [casPresent]
      split
      · refine h.outside (by simp [hpc, Pc.ownsFlag]) rfl rfl ?_
        rw [h.view_count]
        exact h.slots.stay (by simp [hpc, roles, Pc.published]) (hout _ rfl fun _ => rfl)
      · rename_i hfree
        refine h.take (by simp [hpc, Pc.ownsFlag]) rfl (by simpa using hfree) rfl ?_
        simp only [h.view_count]
        exact h.slots.stay (by simp [hpc, roles, Pc.published])
          (hout _ rfl fun j => by simp [Pc.drained, Fin.lt_def])
  | writing =>
      simp only [hpc, access, Option.some.injEq] at hacc
      subst hacc
      obtain rfl := Option.some.inj hs'
      exact h.quiet (by simp [hpc, Pc.ownsFlag]) (by simp [hpc, Pc.mayBuffer])
        (by simp [hpc, Pc.published])
        (h.slots.moveOk rfl fun j _ => by simp [hpc, roles, Pc.drained])
  | wuStore | twGiveUp =>
      simp only [hpc, access, Option.some.injEq] at hacc
      subst hacc
      obtain rfl := Option.some.inj hs'
      exact h.drop (by simp [hpc, Pc.ownsFlag]) rfl (by simp [hpc, Pc.published])
        (hout _ rfl fun _ => rfl)
  | wlScan i =>
      simp only [hpc, access, Option.some.injEq] at hacc
      subst hacc
      obtain rfl := Option.some.inj hs'
      rw [hview (by simp [hpc, Pc.mayBuffer])]
      dsimp only
      split
      · rw [← hpc, Function.update_eq_self]
        exact h
      · rename_i hz
        exact h.scan hT (.inl rfl) hpc (by simpa using hz)
  | twScan i =>
      simp only [hpc, access, Option.some.injEq] at hacc
      subst hacc
      obtain rfl := Option.some.inj hs'
      rw [hview (by simp [hpc, Pc.mayBuffer])]
      dsimp only
      split
      · exact h.quiet (by simp [hpc, Pc.ownsFlag]) (by simp [hpc, Pc.mayBuffer])
          (by simp [hpc, Pc.published]) (hout _ rfl fun _ => rfl)
      · rename_i hz
        exact h.scan hT (.inr rfl) hpc (by simpa using hz)

theorem inv_reachable (hT : Fintype.card T < 2 ^ 32) {s : TsoState T Mem Store Pc}
    (hs : (tso slotOf).Reachable s) : Inv slotOf s := by
  refine hs.invariant inv_init fun s a s' h _ hstep => ?_
  cases a with
  | exec t c => exact h.exec hT hstep
  | flush t => exact h.flush hstep

/-- **Readers and writers stay apart on the store-buffer machine.**  In every
reachable state a thread inside its write section is alone with that and no
thread is inside a read section; each slot count is the number of threads of the
slot that have published and not yet retracted a read; and a thread whose `try_`
call returned false contributes to no count and, once its buffer is flushed, is
not the one whose flag is up. -/
theorem tso_interface_invariant (hT : Fintype.card T < 2 ^ 31)
    {s : TsoState T Mem Store Pc} (hs : (tso slotOf).Reachable s) :
    ((∀ t u, (s.pc t).holdsWrite = true → (s.pc u).holdsWrite = true → t = u) ∧
      ∀ t u, (s.pc t).holdsWrite = true → (s.pc u).holdsRead = false) ∧
    (∀ i, s.mem.count i = publishedIn roles slotOf s.pc i) ∧
    (∀ t, s.pc t = .returnedFalse →
      s.mem.count (slotOf t) = (Finset.univ.filter fun u =>
        u ≠ t ∧ slotOf u = slotOf t ∧ (s.pc u).published = true).card ∧
      (s.buf t = [] → s.mem.writerPresent = true →
        ∃ u, u ≠ t ∧ ((s.pc u).ownsFlag = true ∨ s.buf u = [.writerPresent false]))) := by
  have h : Inv slotOf s := inv_reachable (by omega) hs
  have hwrite : ∀ t, (s.pc t).holdsWrite = true →
      (s.pc t).ownsFlag = true ∧ ∀ j, (s.pc t).drained j = true := by
    intro t ht
    cases hpc : s.pc t <;> simp_all [Pc.holdsWrite, Pc.ownsFlag, Pc.drained]
  have hcount : ∀ i, s.mem.count i = publishedIn roles slotOf s.pc i := by
    intro i
    have hc := h.slots.count i
    rwa [int32_of_lt (lt_of_le_of_lt (publishedIn_le _ _) hT)] at hc
  refine ⟨⟨fun t u ht hu => ?_, fun t u ht => ?_⟩, hcount, fun t ht => ⟨?_, fun hb hflag => ?_⟩⟩
  · exact h.unique t u (.inl (hwrite t ht).1) (.inl (hwrite u hu).1)
  · exact h.slots.drain t u ((hwrite t ht).2 _)
  · rw [hcount, publishedIn]
    refine congrArg (fun a : Finset T => (a.card : Int)) (Finset.filter_congr fun u _ => ?_)
    by_cases hu : u = t
    · simp [hu, ht, roles, Pc.published]
    · simp [hu, roles]
  · have hno : ¬ claims s t := by simp [claims, ht, hb, Pc.ownsFlag]
    obtain ⟨u, hu, hc⟩ := ((h.flag_split t).mp hflag).resolve_left hno
    refine ⟨u, hu, hc.imp id fun hne => ?_⟩
    exact ((h.buf u).resolve_left hne).1

end Invariant

section Schedules

/-- Both threads use slot 0. -/
def oneSlot : Bool → Slot := fun _ => ⟨0, by decide⟩

/-- A reader inside, and a `try_write_lock` beside it that raised the flag, found
the reader, gave up and had its buffer flushed. -/
def failedTry : List (TsoAct Bool Choice) :=
  [.exec true .readLock, .exec true .go, .exec true .go, .exec false .tryWriteLock,
    .exec false .go, .exec false .go, .exec false .go, .flush false]

/-- The failed `try_write_lock` has left nothing behind: the count is the
reader's alone. -/
theorem tso_interface_failedTry :
    ∃ s, (tso oneSlot).Reachable s ∧ s.pc false = .returnedFalse ∧ s.pc true = .reading ∧
      s.mem.count (oneSlot false) = (Finset.univ.filter fun u =>
        u ≠ false ∧ oneSlot u = oneSlot false ∧ (s.pc u).published = true).card := by
  have hrun : ((tso oneSlot).run failedTry).map (fun s => (s.pc false, s.pc true)) =
      some (.returnedFalse, .reading) := by decide +kernel
  obtain ⟨s, hs, hpc⟩ := Option.map_eq_some_iff.mp hrun
  have hreach := Machine.reachable_of_run hs
  have h1 : s.pc false = .returnedFalse := congrArg Prod.fst hpc
  exact ⟨s, hreach, h1, congrArg Prod.snd hpc,
    ((tso_interface_invariant (by decide) hreach).2.2 false h1).1⟩

end Schedules

end PcpuRwLock
