import LockBench.OccLock
import LockBench.StoreBuffer
import LockBench.SpinFlag

/-!
# Exclusive locks behind the Wormhole shim

`tas_lock`, `ttas_lock`, `cas_lock` and `occ_lock` as `wh_lock_shim` drives them:
through their own blocking `lock`, through the shim's `try_excl` on the raw fields,
through the `_nr` loops around it, and through the read-mode calls, which map to
the same code.  Each thread runs sections that load and store a plain counter once.

The text is run on the store-buffer machine.  Three of the four locks are dropped
by a plain store, so a lock is still taken in memory after its holder has left:
the claim of a thread lasts until its drop has been flushed.  The counter's store
is ahead of the drop in the same buffer, so it is in memory by then.
-/

namespace ShimLock

open OccLock (oddWord oddWord_succ)

/-- The lock type that the shim is compiled for. -/
inductive Kind
  | tas
  | ttas
  | cas
  | occ
  deriving DecidableEq

/-- The shared words: `flag` (or `state`) of the boolean locks, `version` of
`occ_lock`, and the counter that the sections protect. -/
structure Mem where
  flag : Bool
  version : BitVec 64
  counter : Nat

/-- The plain stores of the program. -/
inductive Store
  | clear
  | count (x : Nat)
  deriving DecidableEq

/-- The entry points of the shim that acquire. -/
inductive Entry
  | spinlockLock
  | rwlockLockRead
  | rwlockLockWrite
  | rwlockLockWriteHp
  | spinlockTrylock
  | rwlockTrylockRead
  | rwlockTrylockReadLp
  | rwlockTrylockWrite
  | rwlockTrylockWriteHp
  | rwlockTrylockReadNr (nr : BitVec 16)
  | rwlockTrylockWriteNr (nr : BitVec 16)
  | rwlockTrylockWriteHpNr (nr : BitVec 16)
  deriving DecidableEq

/-- Where a thread is.  `try n` is in front of a `try_excl` with `n` attempts left. -/
inductive Point
  | idle
  | tasSet
  | ttasSpin
  | ttasExchange
  | casWeak
  | casSpin
  | occLoad
  | occWeak (v : BitVec 64)
  | try (n : Nat)
  | tryStrong (n : Nat) (v : BitVec 64)
  | enter
  | store (x : Nat)
  | unlock
  deriving DecidableEq

/-- A program point, and the sections the thread has executed. -/
structure Pc where
  point : Point
  sections : Nat
  deriving DecidableEq

/-- How a thread's nondeterminism is resolved. -/
inductive Choice
  | call (e : Entry)
  | go
  | spurious
  deriving DecidableEq

/-- The lock is taken, as memory shows it. -/
def held (kind : Kind) (m : Mem) : Bool :=
  match kind with
  | .occ => oddWord m.version
  | _ => m.flag

/-- The first point of the blocking `lock`. -/
def lockPoint : Kind → Point
  | .tas => .tasSet
  | .ttas => .ttasSpin
  | .cas => .casWeak
  | .occ => .occLoad

/-- Where an entry point of the shim goes: a read-mode call takes the lock
exclusively, and a `try` is one attempt or `nr` of them. -/
def Entry.point (kind : Kind) : Entry → Point
  | .spinlockLock | .rwlockLockRead | .rwlockLockWrite | .rwlockLockWriteHp => lockPoint kind
  | .spinlockTrylock | .rwlockTrylockRead | .rwlockTrylockReadLp | .rwlockTrylockWrite
  | .rwlockTrylockWriteHp => .try 1
  | .rwlockTrylockReadNr nr | .rwlockTrylockWriteNr nr | .rwlockTrylockWriteHpNr nr =>
      .try nr.toNat

/-- `test_and_set`, `exchange(true)` and `compare_exchange(false, true)`: the flag is
set, and the one who found it down has won. -/
def takeFlag (m : Mem) (won lost : Point) : Mem × Point :=
  if m.flag then (m, lost) else ({ m with flag := true }, won)

/-- `compare_exchange(v, v + 1)` of the version. -/
def takeVersion (m : Mem) (v : BitVec 64) (won lost : Point) : Mem × Point :=
  if m.version = v then ({ m with version := v + 1 }, won) else (m, lost)

/-- The access of `try_excl` with `n + 1` attempts left. -/
def tryAccess (kind : Kind) (n : Nat) : Access Mem Store Point :=
  match kind with
  | .occ => .load fun m => if oddWord m.version then .try n else .tryStrong n m.version
  | _ => .rmw fun m => some (takeFlag m .enter (.try n))

/-- The access of `unlock`. -/
def unlockAccess (kind : Kind) : Access Mem Store Point :=
  match kind with
  | .occ => .rmw fun m => some ({ m with version := m.version + 1 }, .idle)
  | _ => .store .clear .idle

/-- The access made at a point. -/
def pointAccess (kind : Kind) : Point → Choice → Option (Access Mem Store Point)
  | .idle, .call e => some (.jump (e.point kind))
  | .tasSet, .go => some (.rmw fun m => some (takeFlag m .enter .tasSet))
  | .ttasSpin, .go => some (.load fun m => if m.flag then .ttasSpin else .ttasExchange)
  | .ttasExchange, .go => some (.rmw fun m => some (takeFlag m .enter .ttasSpin))
  | .casWeak, .go => some (.rmw fun m => some (takeFlag m .enter .casSpin))
  | .casWeak, .spurious => some (.rmw fun m => some (m, .casSpin))
  | .casSpin, .go => some (.load fun m => if m.flag then .casSpin else .casWeak)
  | .occLoad, .go => some (.load fun m => if oddWord m.version then .occLoad else .occWeak m.version)
  | .occWeak v, .go => some (.rmw fun m => some (takeVersion m v .enter .occLoad))
  | .occWeak _, .spurious => some (.rmw fun m => some (m, .occLoad))
  | .try 0, .go => some (.jump .idle)
  | .try (n + 1), .go => some (tryAccess kind n)
  | .tryStrong n v, .go => some (.rmw fun m => some (takeVersion m v .enter (.try n)))
  | .enter, .go => some (.load fun m => .store m.counter)
  | .store x, .go => some (.store (.count (x + 1)) .unlock)
  | .unlock, .go => some (unlockAccess kind)
  | _, _ => none

/-- The thread leaves a section at this point. -/
def leaves : Point → Nat
  | .unlock => 1
  | _ => 0

/-- Carry the number of executed sections along. -/
def Access.withSections (n : Nat) : Access Mem Store Point → Access Mem Store Pc
  | .load k => .load fun m => ⟨k m, n⟩
  | .store w p => .store w ⟨p, n⟩
  | .rmw f => .rmw fun m => (f m).map fun r => (r.1, ⟨r.2, n⟩)
  | .jump p => .jump ⟨p, n⟩

/-- The program of every thread. -/
def code (T : Type) (kind : Kind) : Code T Mem Store Pc Choice where
  apply
    | .clear, m => { m with flag := false }
    | .count x, m => { m with counter := x }
  access _ p c := (pointAccess kind p.point c).map (Access.withSections (p.sections + leaves p.point))

/-- Any number of threads over one lock, on the store-buffer machine. -/
def machine (T : Type) [DecidableEq T] (kind : Kind) :
    Machine (TsoState T Mem Store Pc) (TsoAct T Choice) :=
  (code T kind).tso ⟨false, 0, 0⟩ fun _ => ⟨.idle, 0⟩

/-! ## The invariant -/

/-- The thread is inside a section. -/
def Point.inSection : Point → Bool
  | .enter | .store _ | .unlock => true
  | _ => false

/-- The thread is inside a `try` call. -/
def Point.trying : Point → Bool
  | .try _ | .tryStrong _ _ => true
  | _ => false

section Invariant

variable {T : Type} [DecidableEq T] {kind : Kind} {s s' : TsoState T Mem Store Pc} {t : T}

/-- A thread is inside a section. -/
def Inside (s : TsoState T Mem Store Pc) (t : T) : Prop := (s.pc t).point.inSection = true

/-- A thread has the lock, or its drop of the lock is still in its buffer. -/
def Claims (s : TsoState T Mem Store Pc) (t : T) : Prop := Inside s t ∨ .clear ∈ s.buf t

/-- The sections executed so far. -/
def total [Fintype T] (s : TsoState T Mem Store Pc) : Nat := ∑ t, (s.pc t).sections

/-- What may be in the buffer of a thread. -/
def bufOk (kind : Kind) (buf : List Store) : Point → Prop
  | .enter | .store _ => buf = []
  | .unlock => buf = [] ∨ ∃ x, buf = [.count x]
  | _ => buf = [] ∨ (kind ≠ .occ ∧ (buf = [.clear] ∨ ∃ x, buf = [.count x, .clear]))

/-- What a thread knows at a point when `n` sections have been executed. -/
def pointOk (kind : Kind) (n : Nat) : Point → Prop
  | .tasSet | .ttasSpin | .ttasExchange | .casWeak | .casSpin => kind ≠ .occ
  | .occLoad => kind = .occ
  | .occWeak v | .tryStrong _ v => kind = .occ ∧ oddWord v = false
  | .store x => x = n
  | _ => True

/-- The invariant: the lock word shows the one claim there is, and whoever has it
sees the counter of the sections executed. -/
structure Inv [Fintype T] (kind : Kind) (s : TsoState T Mem Store Pc) : Prop where
  lock : FlagInv (held kind s.mem) (Claims s)
  bufs : ∀ t, bufOk kind (s.buf t) (s.pc t).point
  points : ∀ t, pointOk kind (total s) (s.pc t).point
  claimed : ∀ t, Claims s t →
    ((code T kind).view s t).counter = total s + leaves (s.pc t).point
  free : (∀ t, ¬ Claims s t) → s.mem.counter = total s

omit [DecidableEq T] in
/-- A thread without a claim has an empty buffer. -/
theorem buf_nil_of_not_claims (hb : bufOk kind (s.buf t) (s.pc t).point) (hc : ¬ Claims s t) :
    s.buf t = [] := by
  unfold Claims Inside at hc
  push Not at hc
  obtain ⟨hin, hclear⟩ := hc
  cases hp : (s.pc t).point <;> rw [hp] at hin hb <;> simp only [Point.inSection] at hin
  case enter | store | unlock => exact absurd rfl hin
  all_goals
    rcases hb with hb | ⟨-, hb | ⟨x, hb⟩⟩
    · exact hb
    · simp [hb] at hclear
    · simp [hb] at hclear

omit [DecidableEq T] in
/-- The critical section does not touch the lock. -/
theorem held_count (m : Mem) (x : Nat) :
    held kind ((code T kind).apply (.count x) m) = held kind m := by
  cases kind <;> rfl

omit [DecidableEq T] in
/-- The store of `unlock` frees the lock; the version of an `occ_lock` is bumped instead. -/
theorem held_clear (hkind : kind ≠ .occ) (m : Mem) :
    held kind ((code T kind).apply .clear m) = false := by
  cases kind with
  | occ => exact absurd rfl hkind
  | _ => rfl

variable [Fintype T]

omit [DecidableEq T] [Fintype T] in
/-- A thread outside has nothing to leave. -/
theorem leaves_of_not_inside (h : ¬ Inside s t) : leaves (s.pc t).point = 0 := by
  unfold Inside at h
  cases hp : (s.pc t).point <;> rw [hp] at h
  case unlock => exact absurd rfl h
  all_goals rfl

/-- The oldest store of thread `t` has reached memory. -/
def flushed (s : TsoState T Mem Store Pc) (t : T) (w : Store) (ws : List Store) (kind : Kind) :
    TsoState T Mem Store Pc :=
  { s with mem := (code T kind).apply w s.mem, buf := Function.update s.buf t ws }

/-- **A flush.** -/
theorem Inv.flush (hi : Inv kind s) {w : Store} {ws : List Store} (hbuf : s.buf t = w :: ws) :
    Inv kind (flushed s t w ws kind) := by
  have hothers : ∀ u, u ≠ t → (flushed s t w ws kind).buf u = s.buf u := fun u hu => by
    simp [flushed, hu]
  have hmine : (flushed s t w ws kind).buf t = ws := by simp [flushed]
  have hview : (code T kind).view (flushed s t w ws kind) t = (code T kind).view s t := by
    unfold Code.view
    rw [hmine, hbuf, Code.overlay_cons]
    rfl
  have hclaims : ∀ u, u ≠ t → (Claims (flushed s t w ws kind) u ↔ Claims s u) := fun u hu => by
    unfold Claims
    rw [hothers u hu]
    rfl
  have hown : Claims s t := by
    by_contra hno
    have := buf_nil_of_not_claims (hi.bufs t) hno
    rw [hbuf] at this
    cases this
  have hbufs : bufOk kind ws (s.pc t).point →
      ∀ u, bufOk kind ((flushed s t w ws kind).buf u) (s.pc u).point := fun hb u => by
    by_cases hu : u = t
    · subst hu
      rw [hmine]
      exact hb
    · rw [hothers u hu]
      exact hi.bufs u
  -- the claim of `t` goes on
  have hstays : (Inside s t ∨ .clear ∈ ws) → held kind ((code T kind).apply w s.mem) = held kind s.mem →
      bufOk kind ws (s.pc t).point → Inv kind (flushed s t w ws kind) := by
    intro hin hheld hb
    have hall : ∀ u, Claims (flushed s t w ws kind) u ↔ Claims s u := fun u => by
      by_cases hu : u = t
      · subst hu
        exact iff_of_true (hin.imp id fun hc => by rw [hmine]; exact hc) hown
      · exact hclaims u hu
    refine ⟨?_, hbufs hb, hi.points, fun u hu => ?_, fun hno => absurd ((hall t).mpr hown) (hno t)⟩
    · have hlock := hi.lock.congr hall
      rwa [← hheld] at hlock
    · obtain rfl := hi.lock.unique u t ((hall u).mp hu) hown
      rw [hview]
      exact hi.claimed u hown
  -- the drop of the lock reaches memory
  have hdrops : w = .clear → ws = [] → kind ≠ .occ → ¬ Inside s t →
      bufOk kind ws (s.pc t).point → Inv kind (flushed s t w ws kind) := by
    rintro rfl rfl hkind hout hb
    have hnone : ∀ u, ¬ Claims (flushed s t .clear [] kind) u := fun u hu => by
      by_cases hut : u = t
      · subst hut
        rcases hu with hu | hu
        · exact hout hu
        · rw [hmine] at hu
          cases hu
      · exact hut (hi.lock.unique u t ((hclaims u hut).mp hu) hown)
    refine ⟨?_, hbufs hb, hi.points, fun u hu => absurd hu (hnone u), fun _ => ?_⟩
    · have hdown := held_clear (T := T) hkind s.mem
      exact hdown.symm ▸ FlagInv.drop hnone
    · have hc := hi.claimed t hown
      rw [leaves_of_not_inside hout] at hc
      rw [← hview, Code.view_of_buf_nil _ hmine] at hc
      exact hc
  have hb := hi.bufs t
  rw [hbuf] at hb
  cases hp : (s.pc t).point
  case enter | store =>
    rw [hp] at hb
    cases hb
  case unlock =>
    rw [hp] at hb
    obtain ⟨x, hx⟩ := hb.resolve_left (by simp)
    obtain ⟨rfl, rfl⟩ := List.cons.inj hx
    refine hstays (.inl (by simp [Inside, hp, Point.inSection])) (held_count s.mem x) ?_
    rw [hp]
    exact .inl rfl
  all_goals
    rw [hp] at hb
    obtain ⟨hkind, hb | ⟨x, hb⟩⟩ := hb.resolve_left (by simp)
    · obtain ⟨rfl, rfl⟩ := List.cons.inj hb
      refine hdrops rfl rfl hkind (by simp [Inside, hp, Point.inSection]) ?_
      rw [hp]
      exact .inl rfl
    · obtain ⟨rfl, rfl⟩ := List.cons.inj hb
      refine hstays (.inr (by simp)) (held_count s.mem x) ?_
      rw [hp]
      exact .inr ⟨hkind, .inl rfl⟩

/-- The whole buffer of thread `t` has reached memory. -/
def drained (s : TsoState T Mem Store Pc) (t : T) (kind : Kind) : TsoState T Mem Store Pc :=
  { s with mem := (code T kind).view s t, buf := Function.update s.buf t [] }

/-- **A drain is a series of flushes.** -/
theorem Inv.drain (hi : Inv kind s) : Inv kind (drained s t kind) := by
  generalize hn : (s.buf t).length = n
  induction n generalizing s with
  | zero =>
      have hbuf := List.eq_nil_of_length_eq_zero hn
      have hsame : drained s t kind = s := by
        unfold drained
        rw [Code.view_of_buf_nil _ hbuf, ← hbuf, Function.update_eq_self]
      rwa [hsame]
  | succ n ih =>
      obtain ⟨w, ws, hbuf⟩ := List.exists_cons_of_length_eq_add_one hn
      have hflush := hi.flush hbuf
      have hws : ((flushed s t w ws kind).buf t).length = n := by
        simp only [flushed, Function.update_self]
        rw [hbuf] at hn
        simpa using hn
      have hsame : drained (flushed s t w ws kind) t kind = drained s t kind := by
        unfold drained Code.view
        simp only [flushed, Function.update_self, Function.update_idem, hbuf, Code.overlay_cons]
      rw [← hsame]
      exact ih hflush hws

/-! ## The accesses -/

/-- Thread `t` goes to point `p` with `n` sections executed. -/
def goto (s : TsoState T Mem Store Pc) (t : T) (p : Point) (n : Nat) : TsoState T Mem Store Pc :=
  { s with pc := Function.update s.pc t ⟨p, n⟩ }

/-- A thread moves on after `d` more sections. -/
theorem total_goto (s : TsoState T Mem Store Pc) (t : T) (p : Point) (d : Nat) :
    total (goto s t p ((s.pc t).sections + d)) = total s + d := by
  have hsplit : ∀ f : T → Pc, ∑ u, (f u).sections =
      (f t).sections + ∑ u ∈ Finset.univ.erase t, (f u).sections := fun f =>
    (Finset.add_sum_erase _ _ (Finset.mem_univ t)).symm
  have hrest : ∑ u ∈ Finset.univ.erase t, ((goto s t p ((s.pc t).sections + d)).pc u).sections =
      ∑ u ∈ Finset.univ.erase t, (s.pc u).sections :=
    Finset.sum_congr rfl fun u hu => by simp [goto, Finset.ne_of_mem_erase hu]
  unfold total
  rw [hsplit, hsplit s.pc, hrest]
  simp only [goto, Function.update_self]
  omega

omit [Fintype T] in
/-- The others stay where they are. -/
theorem goto_pc_of_ne {u : T} (hu : u ≠ t) (p : Point) (n : Nat) :
    (goto s t p n).pc u = s.pc u := by
  simp [goto, hu]

omit [Fintype T] in
/-- The thread is where it went. -/
theorem goto_point (p : Point) (n : Nat) : ((goto s t p n).pc t).point = p := by
  simp [goto]

omit [Fintype T] in
/-- Outside of sections all points allow the same buffers. -/
theorem bufOk_outside {buf : List Store} {p q : Point} (hp : p.inSection = false)
    (hq : q.inSection = false) (h : bufOk kind buf p) : bufOk kind buf q := by
  cases p <;> cases q <;> first | exact h | contradiction

/-- Outside of sections a point does not speak about the sections executed. -/
theorem pointOk_outside {n n' : Nat} {p : Point} (hp : p.inSection = false)
    (h : pointOk kind n p) : pointOk kind n' p := by
  cases p <;> first | exact h | contradiction

/-- A step outside of sections that stores nothing. -/
theorem Inv.move (hi : Inv kind s) (hout : ¬ Inside s t) {p : Point} (hp : p.inSection = false)
    (hpoint : pointOk kind (total s) p) : Inv kind (goto s t p (s.pc t).sections) := by
  have htotal : total (goto s t p (s.pc t).sections) = total s := total_goto s t p 0
  have hclaims : ∀ u, Claims (goto s t p (s.pc t).sections) u ↔ Claims s u := fun u => by
    by_cases hu : u = t
    · subst hu
      unfold Claims Inside
      rw [goto_point, hp]
      exact or_congr (by simpa [Inside] using hout) Iff.rfl
    · unfold Claims Inside
      rw [goto_pc_of_ne hu]
      rfl
  refine ⟨hi.lock.congr hclaims, fun u => ?_, fun u => ?_, fun u hu => ?_, fun hno => ?_⟩
  · by_cases hu : u = t
    · subst hu
      rw [goto_point]
      exact bufOk_outside (by simpa [Inside] using hout) hp (hi.bufs u)
    · rw [goto_pc_of_ne hu]
      exact hi.bufs u
  · rw [htotal]
    by_cases hu : u = t
    · subst hu
      rw [goto_point]
      exact hpoint
    · rw [goto_pc_of_ne hu]
      exact hi.points u
  · rw [htotal]
    have hc := hi.claimed u ((hclaims u).mp hu)
    by_cases hut : u = t
    · subst hut
      rw [leaves_of_not_inside hout] at hc
      rw [leaves_of_not_inside (by rw [Inside, goto_point, hp]; exact nofun)]
      exact hc
    · rw [goto_pc_of_ne hut]
      exact hc
  · rw [htotal]
    exact hi.free fun u hu => hno u ((hclaims u).mpr hu)

/-- The read-modify-write that takes the lock. -/
theorem Inv.take (hi : Inv kind s) (hbuf : s.buf t = []) (hdown : held kind s.mem = false)
    {m' : Mem} (hup : held kind m' = true) (hcounter : m'.counter = s.mem.counter) :
    Inv kind (goto { s with mem := m' } t .enter (s.pc t).sections) := by
  have hno : ∀ u, ¬ Claims s u := by
    have hlock := hi.lock
    rw [hdown] at hlock
    exact hlock.none_of_down
  let s₁ := goto { s with mem := m' } t .enter (s.pc t).sections
  have htotal : total s₁ = total s := total_goto { s with mem := m' } t .enter 0
  have hclaims : ∀ u, Claims s₁ u ↔ u = t := fun u => by
    constructor
    · intro hu
      by_contra hut
      refine hno u ?_
      unfold Claims Inside at hu ⊢
      rwa [goto_pc_of_ne hut] at hu
    · rintro rfl
      exact .inl (by rw [Inside, goto_point]; rfl)
  refine ⟨?_, fun u => ?_, fun u => ?_, fun u hu => ?_, fun hno' => absurd ((hclaims t).mpr rfl) (hno' t)⟩
  · change FlagInv (held kind m') _
    rw [hup]
    exact FlagInv.take hclaims
  · by_cases hu : u = t
    · subst hu
      rw [goto_point]
      exact hbuf
    · rw [goto_pc_of_ne hu]
      exact hi.bufs u
  · rw [htotal]
    by_cases hu : u = t
    · subst hu
      rw [goto_point]
      trivial
    · rw [goto_pc_of_ne hu]
      exact hi.points u
  · obtain rfl := (hclaims u).mp hu
    rw [htotal, goto_point]
    have hview : (code T kind).view s₁ u = m' := Code.view_of_buf_nil _ hbuf
    rw [hview, hcounter]
    exact hi.free hno

/-- A step of the thread that has the lock, which keeps it. -/
theorem Inv.keep (hi : Inv kind s) (hin : Inside s t) (hmem : s'.mem = s.mem)
    (hbufs : ∀ u, u ≠ t → s'.buf u = s.buf u) (hpcs : ∀ u, u ≠ t → s'.pc u = s.pc u)
    (hclaims : Claims s' t) (hbuf : bufOk kind (s'.buf t) (s'.pc t).point)
    (hpoint : pointOk kind (total s') (s'.pc t).point)
    (hcounter : ((code T kind).view s' t).counter = total s' + leaves (s'.pc t).point) :
    Inv kind s' := by
  have hother : ∀ u, u ≠ t → (Claims s' u ↔ Claims s u) := fun u hu => by
    unfold Claims Inside
    rw [hbufs u hu, hpcs u hu]
  have hnot : ∀ u, u ≠ t → ¬ Claims s u := fun u hu hc => hu (hi.lock.unique u t hc (.inl hin))
  have hall : ∀ u, Claims s' u ↔ Claims s u := fun u => by
    by_cases hu : u = t
    · subst hu
      exact iff_of_true hclaims (.inl hin)
    · exact hother u hu
  refine ⟨?_, fun u => ?_, fun u => ?_, fun u hu => ?_, fun hno => absurd hclaims (hno t)⟩
  · rw [hmem]
    exact hi.lock.congr hall
  · by_cases hu : u = t
    · subst hu
      exact hbuf
    · rw [hbufs u hu, hpcs u hu]
      exact hi.bufs u
  · by_cases hu : u = t
    · subst hu
      exact hpoint
    · rw [hpcs u hu]
      refine pointOk_outside ?_ (hi.points u)
      have hout : ¬ Inside s u := fun hc => hnot u hu (.inl hc)
      simpa [Inside] using hout
  · obtain rfl := hi.lock.unique u t ((hall u).mp hu) (.inl hin)
    exact hcounter

/-- The load of the counter. -/
theorem Inv.load (hi : Inv kind s) (hp : (s.pc t).point = .enter) :
    Inv kind (goto s t (.store ((code T kind).view s t).counter) (s.pc t).sections) := by
  have hin : Inside s t := by rw [Inside, hp]; rfl
  have hbuf : s.buf t = [] := by
    have := hi.bufs t
    rwa [hp] at this
  have hc := hi.claimed t (.inl hin)
  rw [hp] at hc
  have htotal : total (goto s t (.store ((code T kind).view s t).counter) (s.pc t).sections) =
      total s := total_goto s t _ 0
  refine hi.keep hin rfl (fun u hu => rfl) (fun u hu => goto_pc_of_ne hu _ _) (.inl ?_) ?_ ?_ ?_
  · rw [Inside, goto_point]
    rfl
  · rw [goto_point]
    exact hbuf
  · rw [goto_point, htotal]
    exact hc
  · rw [goto_point, htotal]
    exact hc

/-- The store of the counter. -/
theorem Inv.storeCounter (hi : Inv kind s) {x : Nat} (hp : (s.pc t).point = .store x) :
    Inv kind (goto { s with buf := Function.update s.buf t (s.buf t ++ [.count (x + 1)]) } t .unlock
      (s.pc t).sections) := by
  have hin : Inside s t := by rw [Inside, hp]; rfl
  have hbuf : s.buf t = [] := by
    have := hi.bufs t
    rwa [hp] at this
  have hx : x = total s := by
    have := hi.points t
    rwa [hp] at this
  rw [hbuf, List.nil_append]
  let s₁ := goto { s with buf := Function.update s.buf t [.count (x + 1)] } t .unlock
    (s.pc t).sections
  have htotal : total s₁ = total s := total_goto { s with buf := _ } t .unlock 0
  have hbuf₁ : s₁.buf t = [.count (x + 1)] := by simp [s₁, goto]
  refine hi.keep hin rfl (fun u hu => ?_) (fun u hu => goto_pc_of_ne hu _ _) (.inl ?_) ?_ ?_ ?_
  · simp [goto, hu]
  · rw [Inside, goto_point]
    rfl
  · rw [goto_point]
    exact .inr ⟨x + 1, hbuf₁⟩
  · rw [goto_point]
    trivial
  · rw [goto_point, htotal]
    unfold Code.view
    rw [hbuf₁]
    change x + 1 = total s + 1
    rw [hx]

/-- `unlock` of a boolean lock. -/
theorem Inv.storeClear (hi : Inv kind s) (hkind : kind ≠ .occ) (hp : (s.pc t).point = .unlock) :
    Inv kind (goto { s with buf := Function.update s.buf t (s.buf t ++ [.clear]) } t .idle
      ((s.pc t).sections + 1)) := by
  have hin : Inside s t := by rw [Inside, hp]; rfl
  have hc := hi.claimed t (.inl hin)
  rw [hp] at hc
  let s₁ := goto { s with buf := Function.update s.buf t (s.buf t ++ [.clear]) } t .idle
    ((s.pc t).sections + 1)
  have htotal : total s₁ = total s + 1 := total_goto { s with buf := _ } t .idle 1
  have hbuf₁ : s₁.buf t = s.buf t ++ [.clear] := by simp [s₁, goto]
  refine hi.keep hin rfl (fun u hu => ?_) (fun u hu => goto_pc_of_ne hu _ _) (.inr ?_) ?_ ?_ ?_
  · simp [goto, hu]
  · rw [hbuf₁]
    simp
  · rw [goto_point, hbuf₁]
    have hb := hi.bufs t
    rw [hp] at hb
    rcases hb with hb | ⟨x, hb⟩
    · exact .inr ⟨hkind, .inl (by rw [hb]; rfl)⟩
    · exact .inr ⟨hkind, .inr ⟨x, by rw [hb]; rfl⟩⟩
  · rw [goto_point]
    trivial
  · rw [goto_point, htotal]
    unfold Code.view Code.overlay at hc ⊢
    rw [hbuf₁, List.foldl_append]
    exact hc

/-- `write_unlock` of `occ_lock`, with the buffer drained. -/
theorem Inv.bump (hi : Inv kind s) (hkind : kind = .occ) (hbuf : s.buf t = [])
    (hp : (s.pc t).point = .unlock) :
    Inv kind (goto { s with mem := { s.mem with version := s.mem.version + 1 } } t .idle
      ((s.pc t).sections + 1)) := by
  have hin : Inside s t := by rw [Inside, hp]; rfl
  have hc := hi.claimed t (.inl hin)
  rw [hp, Code.view_of_buf_nil _ hbuf] at hc
  have hup : held kind s.mem = true := hi.lock.up.mpr ⟨t, .inl hin⟩
  let s₁ := goto { s with mem := { s.mem with version := s.mem.version + 1 } } t .idle
    ((s.pc t).sections + 1)
  have htotal : total s₁ = total s + 1 := total_goto { s with mem := _ } t .idle 1
  have hno : ∀ u, ¬ Claims s₁ u := fun u hu => by
    by_cases hut : u = t
    · subst hut
      rcases hu with hu | hu
      · rw [Inside, goto_point] at hu
        cases hu
      · have hnil : s₁.buf u = [] := hbuf
        rw [hnil] at hu
        cases hu
    · refine hut (hi.lock.unique u t ?_ (.inl hin))
      unfold Claims Inside at hu ⊢
      rwa [goto_pc_of_ne hut] at hu
  have hout : ∀ u, u ≠ t → (s.pc u).point.inSection = false := fun u hu => by
    have hnot : ¬ Inside s u := fun hc => hu (hi.lock.unique u t (.inl hc) (.inl hin))
    simpa [Inside] using hnot
  refine ⟨?_, fun u => ?_, fun u => ?_, fun u hu => absurd hu (hno u), fun _ => ?_⟩
  · have hdown : held kind s₁.mem = false := by
      subst hkind
      change oddWord (s.mem.version + 1) = false
      rw [oddWord_succ, show oddWord s.mem.version = true from hup]
      rfl
    rw [hdown]
    exact FlagInv.drop hno
  · by_cases hu : u = t
    · subst hu
      rw [goto_point]
      exact .inl hbuf
    · rw [goto_pc_of_ne hu]
      exact hi.bufs u
  · by_cases hu : u = t
    · subst hu
      rw [goto_point]
      trivial
    · rw [goto_pc_of_ne hu]
      exact pointOk_outside (hout u hu) (hi.points u)
  · rw [htotal]
    exact hc

/-- A read-modify-write on the flag: lost, or won from a lock that was free. -/
theorem takeFlag_cases (hkind : kind ≠ .occ) (m : Mem) (lost : Point) :
    takeFlag m .enter lost = (m, lost) ∨ (held kind m = false ∧ ∃ m', held kind m' = true ∧
      m'.counter = m.counter ∧ takeFlag m .enter lost = (m', .enter)) := by
  have hheld : ∀ m : Mem, held kind m = m.flag := fun m => by
    cases kind with
    | occ => exact absurd rfl hkind
    | _ => rfl
  cases hf : m.flag with
  | true => exact .inl (by simp [takeFlag, hf])
  | false =>
      exact .inr ⟨(hheld m).trans hf, { m with flag := true }, hheld _, rfl, by simp [takeFlag, hf]⟩

/-- A compare exchange on an even version: lost, or won from a lock that was free. -/
theorem takeVersion_cases (hkind : kind = .occ) {v : BitVec 64} (hv : oddWord v = false) (m : Mem)
    (lost : Point) :
    takeVersion m v .enter lost = (m, lost) ∨ (held kind m = false ∧ ∃ m', held kind m' = true ∧
      m'.counter = m.counter ∧ takeVersion m v .enter lost = (m', .enter)) := by
  subst hkind
  by_cases he : m.version = v
  · refine .inr ⟨by rw [← he] at hv; exact hv, { m with version := v + 1 }, ?_, rfl,
      by simp [takeVersion, he]⟩
    change oddWord (v + 1) = true
    rw [oddWord_succ, hv]
    rfl
  · exact .inl (by simp [takeVersion, he])

/-- What an access of thread `t` comes to. -/
inductive Outcome (kind : Kind) (s : TsoState T Mem Store Pc) (t : T) :
    TsoState T Mem Store Pc → Prop
  | move {p : Point} (hout : ¬ Inside s t) (hp : p.inSection = false)
      (hpoint : pointOk kind (total s) p) : Outcome kind s t (goto s t p (s.pc t).sections)
  | drain {p : Point} (hout : ¬ Inside s t) (hp : p.inSection = false)
      (hpoint : pointOk kind (total s) p) :
      Outcome kind s t (goto (drained s t kind) t p (s.pc t).sections)
  | take {m' : Mem} (hout : ¬ Inside s t) (hdown : held kind (drained s t kind).mem = false)
      (hup : held kind m' = true) (hcounter : m'.counter = (drained s t kind).mem.counter) :
      Outcome kind s t (goto { drained s t kind with mem := m' } t .enter (s.pc t).sections)
  | load (hp : (s.pc t).point = .enter) :
      Outcome kind s t (goto s t (.store ((code T kind).view s t).counter) (s.pc t).sections)
  | storeCounter {x : Nat} (hp : (s.pc t).point = .store x) :
      Outcome kind s t (goto { s with
        buf := Function.update s.buf t (s.buf t ++ [.count (x + 1)]) } t .unlock (s.pc t).sections)
  | storeClear (hkind : kind ≠ .occ) (hp : (s.pc t).point = .unlock) :
      Outcome kind s t (goto { s with
        buf := Function.update s.buf t (s.buf t ++ [.clear]) } t .idle ((s.pc t).sections + 1))
  | bump (hkind : kind = .occ) (hp : (s.pc t).point = .unlock) :
      Outcome kind s t (goto { drained s t kind with mem := { (drained s t kind).mem with
        version := (drained s t kind).mem.version + 1 } } t .idle ((s.pc t).sections + 1))

/-- A read-modify-write that is lost or takes the lock. -/
theorem Outcome.of_take (hout : ¬ Inside s t) {f : Mem → Mem × Point} (lost : Point)
    (hlost : lost.inSection = false) (hpoint : pointOk kind (total s) lost)
    (hf : ∀ m, f m = (m, lost) ∨ (held kind m = false ∧ ∃ m', held kind m' = true ∧
      m'.counter = m.counter ∧ f m = (m', .enter)))
    (hs' : (code T kind).tsoAccess s t
      (Access.withSections (s.pc t).sections (.rmw fun m => some (f m))) = some s') :
    Outcome kind s t s' := by
  obtain rfl := Option.some.inj hs'
  rcases hf ((code T kind).view s t) with hf | ⟨hdown, m', hup, hcounter, hf⟩
  · simp only [hf]
    exact .drain hout hlost hpoint
  · simp only [hf]
    exact .take hout hdown hup hcounter

/-- A load outside of sections. -/
theorem Outcome.of_load (hout : ¬ Inside s t) {k : Mem → Point}
    (hk : ∀ m, (k m).inSection = false ∧ pointOk kind (total s) (k m))
    (hs' : (code T kind).tsoAccess s t (Access.withSections (s.pc t).sections (.load k)) = some s') :
    Outcome kind s t s' := by
  obtain rfl := Option.some.inj hs'
  obtain ⟨h1, h2⟩ := hk ((code T kind).view s t)
  exact .move hout h1 h2

/-- **Inversion of an access.** -/
theorem exec_outcome (hi : Inv kind s) {c : Choice}
    (h : (machine T kind).step s (.exec t c) = some s') : Outcome kind s t s' := by
  obtain ⟨acc, hacc, hs'⟩ := Code.tso_exec_cases h
  obtain ⟨pacc, hpa, rfl⟩ := Option.map_eq_some_iff.mp hacc
  have hpt := hi.points t
  have hout : (s.pc t).point.inSection = false → ¬ Inside s t := fun hp hc => by
    rw [Inside, hp] at hc
    cases hc
  cases hp : (s.pc t).point with
  | idle =>
      rw [hp] at hpa hs' hout
      cases c with
      | call e =>
          obtain rfl := Option.some.inj hpa
          obtain rfl := Option.some.inj hs'
          refine .move (hout rfl) ?_ ?_
          · cases e <;> first | rfl | (cases kind <;> rfl)
          · cases e <;> first | trivial | (cases kind <;> first | rfl | exact nofun)
      | _ => cases hpa
  | tasSet =>
      rw [hp] at hpa hs' hout hpt
      cases c with
      | go =>
          obtain rfl := Option.some.inj hpa
          exact .of_take (hout rfl) .tasSet rfl hpt (takeFlag_cases hpt · .tasSet) hs'
      | _ => cases hpa
  | ttasSpin =>
      rw [hp] at hpa hs' hout hpt
      cases c with
      | go =>
          obtain rfl := Option.some.inj hpa
          refine .of_load (hout rfl) (fun m => ?_) hs'
          split <;> exact ⟨rfl, hpt⟩
      | _ => cases hpa
  | ttasExchange =>
      rw [hp] at hpa hs' hout hpt
      cases c with
      | go =>
          obtain rfl := Option.some.inj hpa
          exact .of_take (hout rfl) .ttasSpin rfl hpt (takeFlag_cases hpt · .ttasSpin) hs'
      | _ => cases hpa
  | casWeak =>
      rw [hp] at hpa hs' hout hpt
      cases c with
      | go =>
          obtain rfl := Option.some.inj hpa
          exact .of_take (hout rfl) .casSpin rfl hpt (takeFlag_cases hpt · .casSpin) hs'
      | spurious =>
          obtain rfl := Option.some.inj hpa
          exact .of_take (hout rfl) .casSpin rfl hpt (fun m => .inl rfl) hs'
      | _ => cases hpa
  | casSpin =>
      rw [hp] at hpa hs' hout hpt
      cases c with
      | go =>
          obtain rfl := Option.some.inj hpa
          refine .of_load (hout rfl) (fun m => ?_) hs'
          split <;> exact ⟨rfl, hpt⟩
      | _ => cases hpa
  | occLoad =>
      rw [hp] at hpa hs' hout hpt
      cases c with
      | go =>
          obtain rfl := Option.some.inj hpa
          refine .of_load (hout rfl) (fun m => ?_) hs'
          split
          · exact ⟨rfl, hpt⟩
          · rename_i ho
            exact ⟨rfl, hpt, by simpa using ho⟩
      | _ => cases hpa
  | occWeak v =>
      rw [hp] at hpa hs' hout hpt
      cases c with
      | go =>
          obtain rfl := Option.some.inj hpa
          exact .of_take (hout rfl) .occLoad rfl hpt.1 (takeVersion_cases hpt.1 hpt.2 · .occLoad) hs'
      | spurious =>
          obtain rfl := Option.some.inj hpa
          exact .of_take (hout rfl) .occLoad rfl hpt.1 (fun m => .inl rfl) hs'
      | _ => cases hpa
  | «try» n =>
      rw [hp] at hpa hs' hout
      cases n with
      | zero =>
          cases c with
          | go =>
              obtain rfl := Option.some.inj hpa
              obtain rfl := Option.some.inj hs'
              exact .move (hout rfl) rfl trivial
          | _ => cases hpa
      | succ n =>
          cases c with
          | go =>
              obtain rfl := Option.some.inj hpa
              by_cases hkind : kind = .occ
              · subst hkind
                refine .of_load (hout rfl) (fun m => ?_) hs'
                split
                · exact ⟨rfl, trivial⟩
                · rename_i ho
                  exact ⟨rfl, rfl, by simpa using ho⟩
              · have hflag : tryAccess kind n = .rmw fun m => some (takeFlag m .enter (.try n)) := by
                  cases kind with
                  | occ => exact absurd rfl hkind
                  | _ => rfl
                rw [hflag] at hs'
                exact .of_take (hout rfl) (.try n) rfl trivial (takeFlag_cases hkind · (.try n)) hs'
          | _ => cases hpa
  | tryStrong n v =>
      rw [hp] at hpa hs' hout hpt
      cases c with
      | go =>
          obtain rfl := Option.some.inj hpa
          exact .of_take (hout rfl) (.try n) rfl trivial
            (takeVersion_cases hpt.1 hpt.2 · (.try n)) hs'
      | _ => cases hpa
  | enter =>
      rw [hp] at hpa hs'
      cases c with
      | go =>
          obtain rfl := Option.some.inj hpa
          obtain rfl := Option.some.inj hs'
          exact .load hp
      | _ => cases hpa
  | store x =>
      rw [hp] at hpa hs'
      cases c with
      | go =>
          obtain rfl := Option.some.inj hpa
          obtain rfl := Option.some.inj hs'
          exact .storeCounter hp
      | _ => cases hpa
  | unlock =>
      rw [hp] at hpa hs'
      cases c with
      | go =>
          obtain rfl := Option.some.inj hpa
          by_cases hkind : kind = .occ
          · subst hkind
            obtain rfl := Option.some.inj hs'
            exact .bump rfl hp
          · have hclear : unlockAccess kind = .store .clear .idle := by
              cases kind with
              | occ => exact absurd rfl hkind
              | _ => rfl
            rw [hclear] at hs'
            obtain rfl := Option.some.inj hs'
            exact .storeClear hkind hp
      | _ => cases hpa

/-- An access keeps the invariant. -/
theorem Outcome.inv (ho : Outcome kind s t s') (hi : Inv kind s) : Inv kind s' := by
  have hdrain : Inv kind (drained s t kind) := hi.drain
  have hbuf : (drained s t kind).buf t = [] := by simp [drained]
  cases ho with
  | move hout hp hpoint => exact hi.move hout hp hpoint
  | drain hout hp hpoint => exact hdrain.move hout hp hpoint
  | take hout hdown hup hcounter => exact hdrain.take hbuf hdown hup hcounter
  | load hp => exact hi.load hp
  | storeCounter hp => exact hi.storeCounter hp
  | storeClear hkind hp => exact hi.storeClear hkind hp
  | bump hkind hp => exact hdrain.bump hkind hbuf hp

/-- The lock is free at the start. -/
theorem init_inv : Inv kind (machine T kind).init := by
  have hno : ∀ t, ¬ Claims (machine T kind).init t := by
    rintro t (h | h)
    · cases h
    · cases h
  have htotal : total (machine T kind).init = 0 := Finset.sum_eq_zero fun t _ => rfl
  refine ⟨?_, fun t => .inl rfl, fun t => trivial, fun t h => absurd h (hno t), fun _ => htotal.symm⟩
  have hdown : held kind (machine T kind).init.mem = false := by
    cases kind with
    | occ => exact (by decide : oddWord 0 = false)
    | _ => rfl
  rw [hdown]
  exact FlagInv.drop hno

/-- **Every reachable state.** -/
theorem reachable_inv (h : (machine T kind).Reachable s) : Inv kind s := by
  refine h.invariant init_inv fun s a s' hi _ hstep => ?_
  cases a with
  | exec t c => exact (exec_outcome hi hstep).inv hi
  | flush t =>
      obtain ⟨w, ws, hbuf, rfl⟩ := Code.tso_flush_cases hstep
      exact hi.flush hbuf

/-! ## The contract -/

omit [DecidableEq T] in
/-- Outside of sections a thread that sees the lock taken has nothing in its buffer. -/
theorem Inv.buf_nil_of_held (hi : Inv kind s) (hout : ¬ Inside s t)
    (hheld : held kind ((code T kind).view s t) = true) : s.buf t = [] := by
  refine buf_nil_of_not_claims (hi.bufs t) ?_
  rintro (hin | hclear)
  · exact hout hin
  · have hp : (s.pc t).point.inSection = false := by simpa [Inside] using hout
    have hb : bufOk kind (s.buf t) .idle := bufOk_outside hp rfl (hi.bufs t)
    rcases hb with hb | ⟨hkind, hb | ⟨x, hb⟩⟩
    · rw [hb] at hclear
      cases hclear
    · rw [Code.view, hb, Code.overlay_cons, Code.overlay_nil, held_clear hkind] at hheld
      cases hheld
    · rw [Code.view, hb, Code.overlay_cons, Code.overlay_cons, Code.overlay_nil,
        held_clear hkind] at hheld
      cases hheld

/-- A step of a `try` call that does not take the lock leaves the lock word alone. -/
theorem try_lost (hi : Inv kind s) (htry : (s.pc t).point.trying = true) {c : Choice}
    (h : (machine T kind).step s (.exec t c) = some s') (hlost : ¬ Inside s' t) :
    s'.mem.flag = s.mem.flag ∧ s'.mem.version = s.mem.version := by
  obtain ⟨acc, hacc, hs'⟩ := Code.tso_exec_cases h
  obtain ⟨pacc, hpa, rfl⟩ := Option.map_eq_some_iff.mp hacc
  have hpt := hi.points t
  have hout : ¬ Inside s t := by
    unfold Inside
    cases hp : (s.pc t).point <;> rw [hp] at htry <;> first | contradiction | simp [Point.inSection]
  -- a read-modify-write on memory as the thread sees it
  have hsame : s.buf t = [] → s'.mem = (code T kind).view s t →
      s'.mem.flag = s.mem.flag ∧ s'.mem.version = s.mem.version := by
    intro hbuf hmem
    rw [hmem, Code.view_of_buf_nil _ hbuf]
    exact ⟨rfl, rfl⟩
  cases hp : (s.pc t).point with
  | «try» n =>
      rw [hp] at hpa hs'
      cases n with
      | zero =>
          cases c with
          | go =>
              obtain rfl := Option.some.inj hpa
              obtain rfl := Option.some.inj hs'
              exact ⟨rfl, rfl⟩
          | _ => cases hpa
      | succ n =>
          cases c with
          | go =>
              obtain rfl := Option.some.inj hpa
              cases hkind : kind with
              | occ =>
                  subst hkind
                  obtain rfl := Option.some.inj hs'
                  exact ⟨rfl, rfl⟩
              | tas | ttas | cas =>
                  subst hkind
                  obtain rfl := Option.some.inj hs'
                  rw [Inside] at hlost
                  cases hflag : ((code T _).view s t).flag with
                  | true => exact hsame (hi.buf_nil_of_held hout hflag) (by simp [takeFlag, hflag])
                  | false => simp [takeFlag, hflag, Point.inSection] at hlost
          | _ => cases hpa
  | tryStrong n v =>
      rw [hp] at hpa hs' hpt
      obtain ⟨rfl, hv⟩ := hpt
      cases c with
      | go =>
          obtain rfl := Option.some.inj hpa
          obtain rfl := Option.some.inj hs'
          have hbuf : s.buf t = [] := by
            have hb := hi.bufs t
            rw [hp] at hb
            exact hb.resolve_right fun hne => hne.1 rfl
          rw [Inside] at hlost
          by_cases he : ((code T .occ).view s t).version = v
          · simp [takeVersion, he, Point.inSection] at hlost
          · exact hsame hbuf (by simp [takeVersion, he])
      | _ => cases hpa
  | _ => rw [hp] at htry; cases htry

/-- **Mutual exclusion without lost updates.**  Through all entry points of the shim,
in every reachable state of the store-buffer machine at most one thread is inside a
section; when all threads are done and flushed the counter is the number of sections
executed; and no step of a `try` call changes the lock word unless it takes the lock. -/
theorem exclusive_sections (kind : Kind) {s : TsoState T Mem Store Pc}
    (h : (machine T kind).Reachable s) :
    (∀ t u, Inside s t → Inside s u → t = u) ∧
    ((∀ t, (s.pc t).point = .idle ∧ s.buf t = []) → s.mem.counter = ∑ t, (s.pc t).sections) ∧
    ∀ t c s', (machine T kind).step s (.exec t c) = some s' → (s.pc t).point.trying = true →
      ¬ Inside s' t → s'.mem.flag = s.mem.flag ∧ s'.mem.version = s.mem.version := by
  have hi := reachable_inv h
  refine ⟨fun t u ht hu => hi.lock.unique t u (.inl ht) (.inl hu), fun hdone => hi.free ?_,
    fun t c s' hstep htry hlost => try_lost hi htry hstep hlost⟩
  rintro t (hin | hclear)
  · rw [Inside, (hdone t).1] at hin
    cases hin
  · rw [(hdone t).2] at hclear
    cases hclear

/-- Two threads on a `ttas_lock`: a blocking section whose drop is still buffered when a
`trylock_write_nr(2)` fails twice, then a section through the read-mode call. -/
def sampleRun : List (TsoAct (Fin 2) Choice) :=
  [.exec 0 (.call .spinlockLock), .exec 0 .go, .exec 0 .go, .exec 0 .go, .exec 0 .go, .exec 0 .go,
    .exec 1 (.call (.rwlockTrylockWriteNr 2)), .exec 1 .go, .exec 1 .go, .exec 1 .go,
    .flush 0, .flush 0,
    .exec 1 (.call .rwlockLockRead), .exec 1 .go, .exec 1 .go, .exec 1 .go, .exec 1 .go,
    .exec 1 .go, .flush 1, .flush 1]

/-- Two threads after one section each. -/
theorem exclusive_sections_sample :
    ∃ s : TsoState (Fin 2) Mem Store Pc, (machine (Fin 2) .ttas).Reachable s ∧
      (∀ t, (s.pc t).point = .idle ∧ s.buf t = []) ∧ s.mem.counter = 2 := by
  have hrun : ((machine (Fin 2) .ttas).run sampleRun).map (fun s =>
      decide ((∀ t, (s.pc t).point = .idle ∧ s.buf t = []) ∧ ∑ t, (s.pc t).sections = 2)) =
      some true := by
    decide
  obtain ⟨s, hs, hdone⟩ := Option.map_eq_some_iff.mp hrun
  obtain ⟨hidle, hsum⟩ := of_decide_eq_true hdone
  have hreach := Machine.reachable_of_run hs
  exact ⟨s, hreach, hidle, ((exclusive_sections .ttas hreach).2.1 hidle).trans hsum⟩

end Invariant

end ShimLock
