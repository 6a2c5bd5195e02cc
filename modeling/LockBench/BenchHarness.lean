import LockBench.Machine

/-!
# The two-phase measurement of the benchmark harness

`run_bench_common`: the main thread spawns `N` workers, lets them run an untimed
warm-up between two spin barriers, takes `t0`, releases the second barrier, stops
the workers, joins them, takes `t1` and adds up what they wrote to `stats`.

Every load and store of a flag, of a barrier or of `stats` is one step, and so are
the call and the return of an operation.  A sleep is a step that may come at any
time.  What the operations do to the index plays no part in the accounting and is
left out.  Each worker keeps a log of the operations it executed, which the code
does not have: a record says what was true when the operation was called, and
whether a counter was incremented for it afterwards.

The counters are 64 bits wide.  They are the numbers of operations modulo `2 ^ 64`,
which is the only way in which the reported totals can be off.
-/

namespace BenchHarness

/-- What `do_op` calls, by the `op` of the entry. -/
inductive Kind
  | get
  | put
  | remove
  deriving DecidableEq

/-- `op_entry`. -/
structure OpEntry where
  key : UInt64
  op : UInt8

/-- The switch of `do_op`. -/
def OpEntry.kind (e : OpEntry) : Kind :=
  if e.op = 0 then .get else if e.op = 1 then .put else .remove

/-- The parameters of a run that the accounting depends on: the stream of each
worker and its length. -/
structure Params (N : Nat) where
  stream : Fin N → Nat → OpEntry
  streamLen : Nat

/-- A 64-bit word. -/
def u64 (n : Nat) : Nat :=
  n % 2 ^ 64

/-- `thread_stats`, and the local counters of a worker. -/
structure Counts where
  gets : Nat
  puts : Nat
  removes : Nat
  deriving DecidableEq

namespace Counts

/-- All zero. -/
def zero : Counts :=
  ⟨0, 0, 0⟩

/-- The counter of a kind of operation. -/
def of (c : Counts) : Kind → Nat
  | .get => c.gets
  | .put => c.puts
  | .remove => c.removes

/-- Increment the counter of a kind of operation. -/
def incr (c : Counts) : Kind → Counts
  | .get => { c with gets := u64 (c.gets + 1) }
  | .put => { c with puts := u64 (c.puts + 1) }
  | .remove => { c with removes := u64 (c.removes + 1) }

/-- `gets + puts + removes`. -/
def sum (c : Counts) : Nat :=
  u64 (u64 (c.gets + c.puts) + c.removes)

end Counts

/-- An executed operation: what was true when it was called, and whether it was
counted. -/
structure Record where
  kind : Kind
  passed : Bool
  released : Bool
  t0 : Bool
  t1 : Bool
  counted : Bool
  deriving DecidableEq

/-- Program points of a worker. -/
inductive WorkerPc
  | unborn
  | arriveStart
  | waitStart
  | warmTest
  | warmCall
  | warmOp (r : Kind)
  | arrivePhase
  | waitPhase
  | call (k : Nat)
  | op (k : Nat) (r : Kind)
  | count (k : Nat) (r : Kind)
  | stopTest
  | storeGets
  | storePuts
  | storeRemoves
  | done
  deriving DecidableEq

/-- A worker's locals, and the log of what it executed, newest first. -/
structure Worker where
  pc : WorkerPc
  idx : Nat
  counts : Counts
  log : List Record

/-- Program points of the main thread. -/
inductive MainPc
  | spawn (i : Nat)
  | waitStart
  | releaseStart
  | warmup
  | storeWarmup
  | waitPhase
  | takeT0
  | releasePhase
  | sleep
  | storeStop
  | join (i : Nat)
  | takeT1
  | addGets (i : Nat)
  | addPuts (i : Nat)
  | addRemoves (i : Nat)
  | addThread (i : Nat)
  | finished
  deriving DecidableEq

/-- What the threads share: the two barriers, the flags, `stats`, and whether main
has taken `t0` and `t1`. -/
structure Shared (N : Nat) where
  startArrived : Nat
  startGo : Bool
  phaseArrived : Nat
  phaseGo : Bool
  warmupDone : Bool
  stop : Bool
  stats : Fin N → Counts
  t0 : Bool
  t1 : Bool

/-- The whole run. -/
structure State (N : Nat) where
  shared : Shared N
  worker : Fin N → Worker
  main : MainPc
  total : Counts
  perThread : Fin N → Nat

section

variable {N : Nat}

/-- `do_op` up to the call: read the entry, advance the index. -/
def Worker.doOp (P : Params N) (t : Fin N) (s : Shared N) (passed : Bool) (pc : Kind → WorkerPc)
    (w : Worker) : Worker :=
  let r := (P.stream t w.idx).kind
  { w with
    pc := pc r
    idx := (w.idx + 1) &&& (P.streamLen - 1)
    log := ⟨r, passed, s.phaseGo, s.t0, s.t1, false⟩ :: w.log }

/-- Note that the last operation was counted. -/
def markCounted : List Record → List Record
  | [] => []
  | e :: log => { e with counted := true } :: log

/-- Change what one worker wrote to `stats`. -/
def Shared.setStats (s : Shared N) (t : Fin N) (c : Counts) : Shared N :=
  { s with stats := Function.update s.stats t c }

/-- One step of worker `t`. -/
def Worker.next (P : Params N) (t : Fin N) (s : Shared N) (w : Worker) :
    Option (Shared N × Worker) :=
  match w.pc with
  | .unborn => none
  | .arriveStart => some ({ s with startArrived := s.startArrived + 1 }, { w with pc := .waitStart })
  | .waitStart => some (s, { w with pc := if s.startGo then .warmTest else .waitStart })
  | .warmTest => some (s, { w with pc := if s.warmupDone then .arrivePhase else .warmCall })
  | .warmCall => some (s, w.doOp P t s false .warmOp)
  | .warmOp _ => some (s, { w with pc := .warmTest })
  | .arrivePhase => some ({ s with phaseArrived := s.phaseArrived + 1 }, { w with pc := .waitPhase })
  | .waitPhase => some (s, { w with pc := if s.phaseGo then .call 0 else .waitPhase })
  | .call k => some (s, w.doOp P t s true (.op k))
  | .op k r => some (s, { w with pc := .count k r })
  | .count k r => some (s, { w with
      pc := if k + 1 < 64 then .call (k + 1) else .stopTest
      counts := w.counts.incr r
      log := markCounted w.log })
  | .stopTest => some (s, { w with pc := if s.stop then .storeGets else .call 0 })
  | .storeGets =>
      some (s.setStats t { s.stats t with gets := w.counts.gets }, { w with pc := .storePuts })
  | .storePuts =>
      some (s.setStats t { s.stats t with puts := w.counts.puts }, { w with pc := .storeRemoves })
  | .storeRemoves =>
      some (s.setStats t { s.stats t with removes := w.counts.removes }, { w with pc := .done })
  | .done => none

/-- A worker as it starts: its stream is read from a place of its own. -/
def Worker.born (P : Params N) (t : Fin N) : Worker :=
  ⟨.arriveStart, (t * (P.streamLen / N)) &&& (P.streamLen - 1), .zero, []⟩

/-- Change the main thread's program point. -/
def State.goto (s : State N) (pc : MainPc) : State N :=
  { s with main := pc }

/-- A main loop over the workers: the body at worker `i`, or out of the loop. -/
def forWorkers (i : Nat) (body : Fin N → Option (State N)) (out : State N) : Option (State N) :=
  if h : i < N then body ⟨i, h⟩ else some out

/-- One step of the main thread. -/
def mainNext (P : Params N) (s : State N) : Option (State N) :=
  match s.main with
  | .spawn i =>
      forWorkers i (fun t => some { s with
        worker := Function.update s.worker t (.born P t)
        main := .spawn (i + 1) }) (s.goto .waitStart)
  | .waitStart => some (s.goto (if s.shared.startArrived < N then .waitStart else .releaseStart))
  | .releaseStart => some { s with shared := { s.shared with startGo := true }, main := .warmup }
  | .warmup => some (s.goto .storeWarmup)
  | .storeWarmup =>
      some { s with shared := { s.shared with warmupDone := true }, main := .waitPhase }
  | .waitPhase => some (s.goto (if s.shared.phaseArrived < N then .waitPhase else .takeT0))
  | .takeT0 => some { s with shared := { s.shared with t0 := true }, main := .releasePhase }
  | .releasePhase => some { s with shared := { s.shared with phaseGo := true }, main := .sleep }
  | .sleep => some (s.goto .storeStop)
  | .storeStop => some { s with shared := { s.shared with stop := true }, main := .join 0 }
  | .join i =>
      forWorkers i (fun t => if (s.worker t).pc = .done then some (s.goto (.join (i + 1))) else none)
        (s.goto .takeT1)
  | .takeT1 => some { s with shared := { s.shared with t1 := true }, main := .addGets 0 }
  | .addGets i =>
      forWorkers i (fun t => some { s with
        total := { s.total with gets := u64 (s.total.gets + (s.shared.stats t).gets) }
        main := .addPuts i }) (s.goto .finished)
  | .addPuts i =>
      forWorkers i (fun t => some { s with
        total := { s.total with puts := u64 (s.total.puts + (s.shared.stats t).puts) }
        main := .addRemoves i }) (s.goto .finished)
  | .addRemoves i =>
      forWorkers i (fun t => some { s with
        total := { s.total with removes := u64 (s.total.removes + (s.shared.stats t).removes) }
        main := .addThread i }) (s.goto .finished)
  | .addThread i =>
      forWorkers i (fun t => some { s with
        perThread := Function.update s.perThread t (s.shared.stats t).sum
        main := .addGets (i + 1) }) (s.goto .finished)
  | .finished => none

/-- Which thread moves: main or a worker. -/
inductive Act (N : Nat)
  | main
  | worker (t : Fin N)
  deriving DecidableEq

/-- `run_bench_common`. -/
def machine (P : Params N) : Machine (State N) (Act N) where
  init :=
    { shared := ⟨0, false, 0, false, false, false, fun _ => .zero, false, false⟩
      worker := fun _ => ⟨.unborn, 0, .zero, []⟩
      main := .spawn 0
      total := .zero
      perThread := fun _ => 0 }
  step s
    | .main => mainNext P s
    | .worker t => ((s.worker t).next P t s.shared).map fun r =>
        { s with shared := r.1, worker := Function.update s.worker t r.2 }

/-! ## Where the threads stand -/

/-- How far a worker is. -/
def WorkerPc.stage : WorkerPc → Nat
  | .unborn => 0
  | .arriveStart => 1
  | .waitStart => 2
  | .warmTest | .warmCall | .warmOp _ => 3
  | .arrivePhase => 4
  | .waitPhase => 5
  | .call _ | .op _ _ | .count _ _ | .stopTest => 6
  | .storeGets | .storePuts | .storeRemoves => 7
  | .done => 8

/-- The worker is between the call and the return of an operation. -/
def WorkerPc.executing : WorkerPc → Bool
  | .warmOp _ | .op _ _ => true
  | _ => false

/-- How far main is. -/
def MainPc.stage : MainPc → Nat
  | .spawn _ => 0
  | .waitStart => 1
  | .releaseStart => 2
  | .warmup => 3
  | .storeWarmup => 4
  | .waitPhase => 5
  | .takeT0 => 6
  | .releasePhase => 7
  | .sleep => 8
  | .storeStop => 9
  | .join _ => 10
  | .takeT1 => 11
  | .addGets _ | .addPuts _ | .addRemoves _ | .addThread _ => 12
  | .finished => 13

/-- How many workers main has joined. -/
def MainPc.joined (N : Nat) : MainPc → Nat
  | .join i => i
  | .takeT1 | .addGets _ | .addPuts _ | .addRemoves _ | .addThread _ | .finished => N
  | _ => 0

/-- Of how many workers main has added a counter. -/
def MainPc.added (N : Nat) : MainPc → Kind → Nat
  | .addGets i, _ => i
  | .addPuts i, .get => i + 1
  | .addPuts i, _ => i
  | .addRemoves i, .remove => i
  | .addRemoves i, _ => i + 1
  | .addThread i, _ => i + 1
  | .finished, _ => N
  | _, _ => 0

/-- Of how many workers main has stored the total. -/
def MainPc.listed (N : Nat) : MainPc → Nat
  | .addGets i | .addPuts i | .addRemoves i | .addThread i => i
  | .finished => N
  | _ => 0

/-- The entry of `stats` that main reads in its next step. -/
def MainPc.reads : MainPc → Option Nat
  | .addGets i | .addPuts i | .addRemoves i | .addThread i => some i
  | _ => none

/-! ## What a log says -/

/-- The operations of a kind that were counted. -/
def countedOf (r : Kind) (log : List Record) : Nat :=
  log.countP fun e => e.counted && e.kind = r

/-- The operations that were called after the release of `phase_b`. -/
def releasedIn (log : List Record) : Nat :=
  log.countP fun e => e.released

/-- A record of an operation before `t1`, and after `t0` if it came behind the
second barrier. -/
structure Record.Ok (e : Record) : Prop where
  released : e.released = e.passed
  t0 : e.passed = true → e.t0 = true
  t1 : e.t1 = false
  counted : e.counted = true → e.passed = true

/-- Everything behind the second barrier was counted. -/
def AllCounted (log : List Record) : Prop :=
  ∀ e ∈ log, e.passed = true → e.counted = true

/-- The log at each program point: nothing behind the barrier before it is passed,
then rounds of 64 operations of which at most the last one is not counted yet. -/
def PhaseOk : WorkerPc → List Record → Prop
  | .call k, log => k < 64 ∧ AllCounted log ∧ ∃ m, releasedIn log = 64 * m + k
  | .op k r, log | .count k r, log =>
      k < 64 ∧ ∃ e rest, log = e :: rest ∧ e.passed = true ∧ e.kind = r ∧ e.counted = false ∧
        AllCounted rest ∧ ∃ m, releasedIn rest = 64 * m + k
  | .stopTest, log | .storeGets, log | .storePuts, log | .storeRemoves, log | .done, log =>
      AllCounted log ∧ ∃ m, releasedIn log = 64 * (m + 1)
  | _, log => ∀ e ∈ log, e.passed = false

/-- A worker's counters are what its log says. -/
structure Worker.Ok (w : Worker) : Prop where
  records : ∀ e ∈ w.log, e.Ok
  counts : ∀ r, w.counts.of r = u64 (countedOf r w.log)
  phase : PhaseOk w.pc w.log

/-- What a worker has written to its entry of `stats`. -/
def StatsOk (w : Worker) (c : Counts) : Prop :=
  match w.pc with
  | .storePuts => c.gets = w.counts.gets
  | .storeRemoves => c.gets = w.counts.gets ∧ c.puts = w.counts.puts
  | .done => c = w.counts
  | _ => True

/-- The wrap commutes with addition. -/
theorem u64_add (a b : Nat) : u64 (u64 a + b) = u64 (a + b) :=
  Nat.mod_add_mod a (2 ^ 64) b

/-- One more operation of a kind, and the other counters as they were. -/
theorem Counts.of_incr (c : Counts) (r r' : Kind) :
    (c.incr r).of r' = if r' = r then u64 (c.of r + 1) else c.of r' := by
  cases r <;> cases r' <;> rfl

/-- Without a warm-up operation behind the barrier there is nothing to count. -/
theorem countedOf_eq_zero {log : List Record} (hrec : ∀ e ∈ log, e.Ok)
    (h : ∀ e ∈ log, e.passed = false) : (∀ r, countedOf r log = 0) ∧ releasedIn log = 0 := by
  refine ⟨fun r => List.countP_eq_zero.mpr fun e he => ?_,
    List.countP_eq_zero.mpr fun e he => ?_⟩
  · have hne : e.counted = false := by
      by_contra hcon
      have := (hrec e he).counted (by simpa using hcon)
      simp [h e he] at this
    simp [hne]
  · simp [(hrec e he).released, h e he]

/-- The counted operations are those behind the barrier. -/
theorem releasedIn_eq {log : List Record} (hrec : ∀ e ∈ log, e.Ok) (h : AllCounted log) :
    releasedIn log = countedOf .get log + countedOf .put log + countedOf .remove log := by
  induction log with
  | nil => rfl
  | cons e log ih =>
      have htail := ih (fun e' he' => hrec e' (.tail _ he')) (fun e' he' => h e' (.tail _ he'))
      have hok := hrec e (.head _)
      have hall := h e (.head _)
      have heq : e.released = e.counted := by
        rw [hok.released, Bool.eq_iff_iff]
        exact ⟨hall, hok.counted⟩
      simp only [releasedIn, countedOf, List.countP_cons] at htail ⊢
      rw [htail, heq]
      cases e.counted <;> cases e.kind <;> simp <;> omega

/-- An executed operation goes into the log, not yet counted. -/
theorem Worker.Ok.doOp {P : Params N} {t : Fin N} {s : Shared N} {w : Worker} (h : w.Ok)
    {passed : Bool} {pc : Kind → WorkerPc} (hgo : s.phaseGo = passed)
    (ht0 : passed = true → s.t0 = true) (ht1 : s.t1 = false)
    (hphase : PhaseOk (pc (P.stream t w.idx).kind) (w.doOp P t s passed pc).log) :
    (w.doOp P t s passed pc).Ok where
  records := by
    intro e he
    rcases List.mem_cons.mp he with rfl | he
    · exact ⟨hgo, ht0, ht1, nofun⟩
    · exact h.records e he
  counts := by
    intro r
    have hcons : countedOf r (w.doOp P t s passed pc).log = countedOf r w.log :=
      List.countP_cons_of_neg (by simp)
    rw [hcons]
    exact h.counts r
  phase := hphase

/-- Counting the last operation. -/
theorem Worker.Ok.count {w : Worker} (h : w.Ok) {k : Nat} {r : Kind} (hpc : w.pc = .count k r) :
    ({ w with
        pc := if k + 1 < 64 then .call (k + 1) else .stopTest
        counts := w.counts.incr r
        log := markCounted w.log } : Worker).Ok := by
  have hphase := h.phase
  rw [hpc] at hphase
  obtain ⟨hk, e, rest, hlog, hpassed, hkind, hnot, hall, m, hm⟩ := hphase
  have hok := h.records e (hlog ▸ .head _)
  have hcounted : AllCounted (markCounted w.log) := by
    rw [hlog]
    intro e' he'
    rcases List.mem_cons.mp he' with rfl | he'
    · exact fun _ => rfl
    · exact hall e' he'
  have hreleased : releasedIn (markCounted w.log) = releasedIn rest + 1 := by
    rw [hlog]
    exact List.countP_cons_of_pos (hok.released.trans hpassed)
  refine ⟨?_, fun r' => ?_, ?_⟩
  · intro e' he'
    rw [hlog] at he'
    rcases List.mem_cons.mp he' with rfl | he'
    · exact ⟨hok.released, hok.t0, hok.t1, fun _ => hpassed⟩
    · exact h.records e' (hlog ▸ .tail _ he')
  · have hold : countedOf r' w.log = countedOf r' rest := by
      rw [hlog]
      exact List.countP_cons_of_neg (by simp [hnot])
    have hnew : countedOf r' (markCounted w.log) = countedOf r' rest + if r' = r then 1 else 0 := by
      rw [hlog]
      simp [markCounted, countedOf, List.countP_cons, hkind, eq_comm]
    have hcount := h.counts r'
    rw [hold] at hcount
    show (w.counts.incr r).of r' = _
    rw [Counts.of_incr, hnew]
    split
    next heq => rw [← heq, hcount, u64_add]
    next => rw [hcount, Nat.add_zero]
  · show PhaseOk (if k + 1 < 64 then .call (k + 1) else .stopTest) (markCounted w.log)
    split
    next hlt => exact ⟨hlt, hcounted, m, by omega⟩
    next hlt => exact ⟨hcounted, m, by omega⟩

/-- One step of a worker keeps its counters true to its log. -/
theorem Worker.Ok.next {P : Params N} {t : Fin N} {s s' : Shared N} {w w' : Worker} (h : w.Ok)
    (hearly : w.pc.stage ≤ 4 → s.phaseGo = false)
    (hlate : 6 ≤ w.pc.stage → s.phaseGo = true ∧ s.t0 = true)
    (ht1 : w.pc ≠ .done → s.t1 = false) (hnext : w.next P t s = some (s', w')) : w'.Ok := by
  have hphase := h.phase
  unfold Worker.next at hnext
  cases hpc : w.pc <;> simp only [hpc] at hnext hphase hearly hlate ht1 <;>
    try obtain ⟨rfl, rfl⟩ := Prod.mk.inj (Option.some.inj hnext)
  case unborn | done => cases hnext
  case arriveStart => exact ⟨h.records, h.counts, hphase⟩
  case waitStart =>
    refine ⟨h.records, h.counts, ?_⟩
    dsimp only
    split <;> exact hphase
  case warmTest =>
    refine ⟨h.records, h.counts, ?_⟩
    dsimp only
    split <;> exact hphase
  case warmCall =>
    refine h.doOp (hearly (by decide)) nofun (ht1 nofun) ?_
    intro e he
    rcases List.mem_cons.mp he with rfl | he
    · rfl
    · exact hphase e he
  case warmOp => exact ⟨h.records, h.counts, hphase⟩
  case arrivePhase => exact ⟨h.records, h.counts, hphase⟩
  case waitPhase =>
    refine ⟨h.records, h.counts, ?_⟩
    dsimp only
    split
    · refine ⟨by decide, fun e he hp => ?_, 0, (countedOf_eq_zero h.records hphase).2⟩
      rw [hphase e he] at hp
      cases hp
    · exact hphase
  case call k =>
    obtain ⟨hgo, ht0⟩ := hlate le_rfl
    refine h.doOp hgo (fun _ => ht0) (ht1 nofun) ?_
    exact ⟨hphase.1, _, w.log, rfl, rfl, rfl, rfl, hphase.2.1, hphase.2.2⟩
  case op k r => exact ⟨h.records, h.counts, hphase⟩
  case count k r => exact h.count hpc
  case stopTest =>
    refine ⟨h.records, h.counts, ?_⟩
    obtain ⟨hall, m, hm⟩ := hphase
    dsimp only
    split
    · exact ⟨hall, m, hm⟩
    · exact ⟨by decide, hall, m + 1, hm⟩
  case storeGets => exact ⟨h.records, h.counts, hphase⟩
  case storePuts => exact ⟨h.records, h.counts, hphase⟩
  case storeRemoves => exact ⟨h.records, h.counts, hphase⟩

/-- What one step of a worker does outside its locals. -/
structure WorkerStep (t : Fin N) (s s' : Shared N) (w w' : Worker) : Prop where
  phaseGo : s'.phaseGo = s.phaseGo
  t0 : s'.t0 = s.t0
  t1 : s'.t1 = s.t1
  others : ∀ u, u ≠ t → s'.stats u = s.stats u
  own : StatsOk w' (s'.stats t)
  born : w.pc ≠ .unborn
  running : w.pc ≠ .done
  forward : w.pc.stage ≤ w'.pc.stage
  barrier : 6 ≤ w'.pc.stage → 6 ≤ w.pc.stage ∨ s.phaseGo = true
  arrived : s'.phaseArrived + (if 5 ≤ w.pc.stage then 1 else 0) =
    s.phaseArrived + (if 5 ≤ w'.pc.stage then 1 else 0)

/-- **What a worker's step does**, given that `stats[t]` is its own. -/
theorem Worker.next_step {P : Params N} {t : Fin N} {s s' : Shared N} {w w' : Worker}
    (hown : StatsOk w (s.stats t)) (hnext : w.next P t s = some (s', w')) :
    WorkerStep t s s' w w' := by
  unfold Worker.next at hnext
  cases hpc : w.pc <;> simp only [hpc] at hnext <;>
    try obtain ⟨rfl, rfl⟩ := Prod.mk.inj (Option.some.inj hnext)
  case unborn | done => cases hnext
  case storeGets | storePuts | storeRemoves =>
    simp only [StatsOk, hpc] at hown
    constructor <;> simp_all [Shared.setStats, StatsOk, WorkerPc.stage, Function.update_of_ne]
  case waitStart =>
    cases hgo : s.startGo <;> constructor <;> simp_all [StatsOk, WorkerPc.stage]
  case warmTest =>
    cases hdone : s.warmupDone <;> constructor <;> simp_all [StatsOk, WorkerPc.stage]
  case waitPhase =>
    cases hgo : s.phaseGo <;> constructor <;> simp_all [StatsOk, WorkerPc.stage]
  case stopTest =>
    cases hstop : s.stop <;> constructor <;> simp_all [StatsOk, WorkerPc.stage]
  case count k r =>
    by_cases hk : k + 1 < 64
    · simp only [if_pos hk]
      constructor <;> simp_all [StatsOk, WorkerPc.stage]
    · simp only [if_neg hk]
      constructor <;> simp_all [StatsOk, WorkerPc.stage]
  all_goals constructor <;> simp_all [StatsOk, WorkerPc.stage, Worker.doOp]

/-! ## The invariant of a run -/

/-- A sum over the first `i` workers. -/
def upTo (i : Nat) (f : Fin N → Nat) : Nat :=
  ∑ t : Fin N, if t.val < i then f t else 0

/-- Nothing added up yet. -/
theorem upTo_zero (f : Fin N → Nat) : upTo 0 f = 0 :=
  Finset.sum_eq_zero fun _ _ => rfl

/-- Everything added up. -/
theorem upTo_of_le {i : Nat} (h : N ≤ i) (f : Fin N → Nat) : upTo i f = ∑ t, f t :=
  Finset.sum_congr rfl fun t _ => if_pos (t.isLt.trans_le h)

/-- One more worker added up. -/
theorem upTo_succ {i : Nat} (h : i < N) (f : Fin N → Nat) :
    upTo (i + 1) f = upTo i f + f ⟨i, h⟩ := by
  have hsplit : ∀ t : Fin N, (if t.val < i + 1 then f t else 0) =
      (if t.val < i then f t else 0) + if t = ⟨i, h⟩ then f t else 0 := by
    intro t
    rcases lt_trichotomy t.val i with hlt | heq | hgt
    · have hne : t ≠ ⟨i, h⟩ := fun heq => hlt.ne (congrArg Fin.val heq)
      simp [hlt, hne, Nat.lt_succ_of_lt hlt]
    · obtain rfl : t = ⟨i, h⟩ := Fin.ext heq
      simp
    · have hne : t ≠ ⟨i, h⟩ := fun heq => hgt.ne' (congrArg Fin.val heq)
      simp [hne, hgt.le, Nat.not_lt.mpr (Nat.succ_le_of_lt hgt)]
  simp only [upTo, hsplit, Finset.sum_add_distrib]
  rw [Finset.sum_ite_eq' Finset.univ]
  simp

/-- How many workers have arrived at `phase_b`. -/
def arrivedCount (worker : Fin N → Worker) : Nat :=
  ∑ t, if 5 ≤ (worker t).pc.stage then 1 else 0

/-- One worker moves on; the count of arrivals follows it. -/
theorem arrivedCount_update (worker : Fin N → Worker) (t : Fin N) (w : Worker) :
    arrivedCount (Function.update worker t w) + (if 5 ≤ (worker t).pc.stage then 1 else 0) =
      arrivedCount worker + (if 5 ≤ w.pc.stage then 1 else 0) := by
  have hrest : ∑ u ∈ Finset.univ.erase t,
      (if 5 ≤ (Function.update worker t w u).pc.stage then 1 else 0) =
      ∑ u ∈ Finset.univ.erase t, if 5 ≤ (worker u).pc.stage then 1 else 0 :=
    Finset.sum_congr rfl fun u hu => by rw [Function.update_of_ne (Finset.ne_of_mem_erase hu)]
  have hold := Finset.add_sum_erase Finset.univ
    (fun u => if 5 ≤ (worker u).pc.stage then 1 else 0) (Finset.mem_univ t)
  have hnew := Finset.add_sum_erase Finset.univ
    (fun u => if 5 ≤ (Function.update worker t w u).pc.stage then 1 else 0) (Finset.mem_univ t)
  simp only [Function.update_self] at hnew
  unfold arrivedCount
  omega

/-- When `N` have arrived, all have. -/
theorem all_arrived {worker : Fin N → Worker} (h : N ≤ arrivedCount worker) (t : Fin N) :
    5 ≤ (worker t).pc.stage := by
  by_contra hnot
  have hlt : arrivedCount worker < ∑ _u : Fin N, 1 := by
    refine Finset.sum_lt_sum (fun u _ => ?_) ⟨t, Finset.mem_univ t, ?_⟩
    · split <;> omega
    · simp [hnot]
  simp at hlt
  omega

/-- The flags are what main's program point says, the workers wait for them, and
the sums are over workers that have ended. -/
structure Inv (s : State N) : Prop where
  t0 : s.shared.t0 = decide (7 ≤ s.main.stage)
  phaseGo : s.shared.phaseGo = decide (8 ≤ s.main.stage)
  t1 : s.shared.t1 = decide (12 ≤ s.main.stage)
  unborn : ∀ i, s.main = .spawn i → ∀ t : Fin N, i ≤ t.val → (s.worker t).pc = .unborn
  arrived : s.shared.phaseArrived = arrivedCount s.worker
  allArrived : 6 ≤ s.main.stage → ∀ t, 5 ≤ (s.worker t).pc.stage
  past : ∀ t, 6 ≤ (s.worker t).pc.stage → s.shared.phaseGo = true
  joined : ∀ t : Fin N, t.val < s.main.joined N → (s.worker t).pc = .done
  workers : ∀ t, (s.worker t).Ok
  stats : ∀ t, StatsOk (s.worker t) (s.shared.stats t)
  total : ∀ r, s.total.of r = u64 (upTo (s.main.added N r) fun t => countedOf r (s.worker t).log)
  listed : ∀ t : Fin N, t.val < s.main.listed N →
    s.perThread t = u64 (releasedIn (s.worker t).log)

/-- A worker that has just been spawned. -/
theorem Worker.ok_born (P : Params N) (t : Fin N) : (Worker.born P t).Ok where
  records := nofun
  counts r := by cases r <;> rfl
  phase := nofun

/-- Nothing has happened at the start. -/
theorem inv_init (P : Params N) : Inv (machine P).init where
  t0 := rfl
  phaseGo := rfl
  t1 := rfl
  unborn := fun _ _ _ _ => rfl
  arrived := (Finset.sum_eq_zero fun _ _ => rfl).symm
  allArrived := fun h => absurd h (by decide : ¬6 ≤ 0)
  past := fun _ h => absurd h (by decide : ¬6 ≤ 0)
  joined := fun t h => absurd h (Nat.not_lt_zero _)
  workers := fun _ => ⟨nofun, fun r => by cases r <;> rfl, nofun⟩
  stats := fun _ => trivial
  total := fun r => by
    rw [show MainPc.added N (machine P).init.main r = 0 from rfl, upTo_zero]
    cases r <;> rfl
  listed := fun t h => absurd h (Nat.not_lt_zero _)

/-- Main joins before it adds. -/
theorem MainPc.added_pos {pc : MainPc} {r : Kind} (h : 0 < pc.added N r) : N ≤ pc.joined N := by
  cases pc <;> simp_all [MainPc.added, MainPc.joined]

/-- `per_thread` is filled after the joins. -/
theorem MainPc.listed_pos {pc : MainPc} (h : 0 < pc.listed N) : N ≤ pc.joined N := by
  cases pc <;> simp_all [MainPc.listed, MainPc.joined]

/-- A worker that moves has not ended, so main has neither joined all nor added
anything. -/
theorem Inv.running {s : State N} (h : Inv s) {t : Fin N} (ht : (s.worker t).pc ≠ .done) :
    s.main.joined N ≤ t.val ∧ s.main.stage < 12 ∧ (∀ r, s.main.added N r = 0) ∧
      s.main.listed N = 0 := by
  have hjoined : s.main.joined N ≤ t.val := not_lt.mp fun hlt => ht (h.joined t hlt)
  have hnot : ¬N ≤ s.main.joined N := fun hle => absurd (hle.trans hjoined) (not_le.mpr t.isLt)
  refine ⟨hjoined, ?_, fun r => ?_, ?_⟩
  · by_contra hge
    cases hmain : s.main <;> simp_all [MainPc.stage, MainPc.joined]
  · exact Nat.eq_zero_of_not_pos fun hpos => hnot (MainPc.added_pos hpos)
  · exact Nat.eq_zero_of_not_pos fun hpos => hnot (MainPc.listed_pos hpos)

/-- **A worker's step keeps the invariant.** -/
theorem Inv.worker_next {P : Params N} {s : State N} (h : Inv s) {t : Fin N} {s' : Shared N}
    {w' : Worker} (hnext : (s.worker t).next P t s.shared = some (s', w')) :
    Inv { s with shared := s', worker := Function.update s.worker t w' } := by
  have hstep := Worker.next_step (h.stats t) hnext
  obtain ⟨hjoined, hstage, hadded, hlisted⟩ := h.running hstep.running
  have hok : w'.Ok := by
    refine (h.workers t).next (fun hle => ?_) (fun hge => ?_) (fun _ => ?_) hnext
    · rw [h.phaseGo, decide_eq_false_iff_not]
      intro hgo
      have := h.allArrived (by omega) t
      omega
    · have hgo := h.past t hge
      refine ⟨hgo, ?_⟩
      rw [h.phaseGo, decide_eq_true_iff] at hgo
      rw [h.t0, decide_eq_true_iff]
      omega
    · rw [h.t1, decide_eq_false_iff_not]
      omega
  refine ⟨hstep.t0.trans h.t0, hstep.phaseGo.trans h.phaseGo, hstep.t1.trans h.t1, ?_, ?_, ?_, ?_,
    ?_, ?_, ?_, ?_, ?_⟩
  · intro i hmain u hu
    by_cases hut : u = t
    · subst hut
      exact absurd (h.unborn i hmain u hu) hstep.born
    · show (Function.update s.worker t w' u).pc = _
      rw [Function.update_of_ne hut]
      exact h.unborn i hmain u hu
  · have hup := arrivedCount_update s.worker t w'
    have harr := hstep.arrived
    have hold := h.arrived
    show s'.phaseArrived = arrivedCount (Function.update s.worker t w')
    omega
  · intro hmain u
    show 5 ≤ (Function.update s.worker t w' u).pc.stage
    by_cases hut : u = t
    · subst hut
      rw [Function.update_self]
      exact (h.allArrived hmain u).trans hstep.forward
    · rw [Function.update_of_ne hut]
      exact h.allArrived hmain u
  · intro u hu
    change 6 ≤ (Function.update s.worker t w' u).pc.stage at hu
    rw [hstep.phaseGo]
    by_cases hut : u = t
    · subst hut
      rw [Function.update_self] at hu
      exact (hstep.barrier hu).elim (h.past u) id
    · rw [Function.update_of_ne hut] at hu
      exact h.past u hu
  · intro u hu
    have hut : u ≠ t := by
      rintro rfl
      exact absurd hu (not_lt.mpr hjoined)
    show (Function.update s.worker t w' u).pc = _
    rw [Function.update_of_ne hut]
    exact h.joined u hu
  · intro u
    show (Function.update s.worker t w' u).Ok
    by_cases hut : u = t
    · subst hut
      rw [Function.update_self]
      exact hok
    · rw [Function.update_of_ne hut]
      exact h.workers u
  · intro u
    show StatsOk (Function.update s.worker t w' u) (s'.stats u)
    by_cases hut : u = t
    · subst hut
      rw [Function.update_self]
      exact hstep.own
    · rw [Function.update_of_ne hut, hstep.others u hut]
      exact h.stats u
  · intro r
    have hold := h.total r
    rw [hadded r, upTo_zero] at hold
    show s.total.of r = u64 (upTo (s.main.added N r) _)
    rw [hadded r, upTo_zero]
    exact hold
  · intro u hu
    rw [show MainPc.listed N _ = 0 from hlisted] at hu
    exact absurd hu (Nat.not_lt_zero _)

/-- A step of main that moves on and leaves the workers alone. -/
theorem Inv.advance {s : State N} (h : Inv s) {sh : Shared N} {pc : MainPc} {total : Counts}
    {perThread : Fin N → Nat} (hspawn : ∀ i, pc ≠ .spawn i)
    (ht0 : sh.t0 = decide (7 ≤ pc.stage)) (hgo : sh.phaseGo = decide (8 ≤ pc.stage))
    (ht1 : sh.t1 = decide (12 ≤ pc.stage)) (harr : sh.phaseArrived = s.shared.phaseArrived)
    (hstats : sh.stats = s.shared.stats) (hstage : s.main.stage ≤ pc.stage)
    (hall : 6 ≤ pc.stage → 6 ≤ s.main.stage ∨ N ≤ s.shared.phaseArrived)
    (hjoined : ∀ t : Fin N, t.val < pc.joined N → (s.worker t).pc = .done)
    (htotal : ∀ r, total.of r = u64 (upTo (pc.added N r) fun t => countedOf r (s.worker t).log))
    (hlisted : ∀ t : Fin N, t.val < pc.listed N → perThread t = u64 (releasedIn (s.worker t).log)) :
    Inv { s with shared := sh, main := pc, total := total, perThread := perThread } where
  t0 := ht0
  phaseGo := hgo
  t1 := ht1
  unborn := fun i hi => absurd hi (hspawn i)
  arrived := harr.trans h.arrived
  allArrived := fun hge t =>
    (hall hge).elim (fun hmain => h.allArrived hmain t) fun hle => all_arrived (h.arrived ▸ hle) t
  past := fun t ht => by
    have hold := h.past t ht
    rw [h.phaseGo, decide_eq_true_iff] at hold
    show sh.phaseGo = true
    rw [hgo, decide_eq_true_iff]
    exact hold.trans hstage
  joined := hjoined
  workers := h.workers
  stats := fun t => by
    show StatsOk (s.worker t) (sh.stats t)
    rw [hstats]
    exact h.stats t
  total := htotal
  listed := hlisted

/-- Before main adds, the sums are zero. -/
theorem Inv.total_before {s : State N} (h : Inv s) {pc : MainPc}
    (hold : ∀ r, s.main.added N r = 0) (hnew : ∀ r, pc.added N r = 0) (r : Kind) :
    s.total.of r = u64 (upTo (pc.added N r) fun t => countedOf r (s.worker t).log) := by
  rw [hnew, ← hold r]
  exact h.total r

/-- A worker that has ended wrote what it counted. -/
theorem Inv.stats_done {s : State N} (h : Inv s) {t : Fin N} (ht : (s.worker t).pc = .done)
    (r : Kind) : (s.shared.stats t).of r = u64 (countedOf r (s.worker t).log) := by
  have hstats := h.stats t
  simp only [StatsOk, ht] at hstats
  rw [hstats]
  exact (h.workers t).counts r

/-- One more worker in the sum of a counter. -/
theorem Inv.add_counter {s : State N} (h : Inv s) {i : Nat} (hi : i < N) {r : Kind}
    (hadded : s.main.added N r = i) (hdone : (s.worker ⟨i, hi⟩).pc = .done) :
    u64 (s.total.of r + (s.shared.stats ⟨i, hi⟩).of r) =
      u64 (upTo (i + 1) fun t => countedOf r (s.worker t).log) := by
  rw [h.total r, hadded, h.stats_done hdone, upTo_succ hi, u64_add, Nat.add_comm, u64_add,
    Nat.add_comm]

/-- The total of a worker that has ended is the number of its operations behind
the barrier. -/
theorem Inv.sum_done {s : State N} (h : Inv s) {t : Fin N} (ht : (s.worker t).pc = .done) :
    (s.shared.stats t).sum = u64 (releasedIn (s.worker t).log) ∧
      ∃ m, releasedIn (s.worker t).log = 64 * (m + 1) := by
  have hphase := (h.workers t).phase
  rw [ht] at hphase
  refine ⟨?_, hphase.2⟩
  have hg : (s.shared.stats t).gets = _ := h.stats_done ht .get
  have hp : (s.shared.stats t).puts = _ := h.stats_done ht .put
  have hr : (s.shared.stats t).removes = _ := h.stats_done ht .remove
  rw [releasedIn_eq (h.workers t).records hphase.1, Counts.sum, hg, hp, hr]
  unfold u64
  omega

/-- A loop over the workers runs its body or leaves. -/
theorem forWorkers_cases {i : Nat} {body : Fin N → Option (State N)} {out s' : State N}
    (h : forWorkers i body out = some s') :
    (∃ hi : i < N, body ⟨i, hi⟩ = some s') ∨ N ≤ i ∧ s' = out := by
  unfold forWorkers at h
  split at h
  next hi => exact .inl ⟨hi, h⟩
  next hi => exact .inr ⟨not_lt.mp hi, (Option.some.inj h).symm⟩

/-- A step of main up to `t1`. -/
theorem Inv.early {s : State N} (h : Inv s) {sh : Shared N} {pc : MainPc}
    (hspawn : ∀ i, pc ≠ .spawn i)
    (ht0 : sh.t0 = decide (7 ≤ pc.stage)) (hgo : sh.phaseGo = decide (8 ≤ pc.stage))
    (ht1 : sh.t1 = decide (12 ≤ pc.stage)) (harr : sh.phaseArrived = s.shared.phaseArrived)
    (hstats : sh.stats = s.shared.stats) (hstage : s.main.stage ≤ pc.stage)
    (hall : 6 ≤ pc.stage → 6 ≤ s.main.stage ∨ N ≤ s.shared.phaseArrived)
    (hjoined : ∀ t : Fin N, t.val < pc.joined N → (s.worker t).pc = .done)
    (hold : ∀ r, s.main.added N r = 0) (hnew : ∀ r, pc.added N r = 0)
    (hlisted : pc.listed N = 0) : Inv { s with shared := sh, main := pc } :=
  h.advance hspawn ht0 hgo ht1 harr hstats hstage hall hjoined (h.total_before hold hnew)
    fun t ht => absurd (hlisted ▸ ht) (Nat.not_lt_zero t)

/-- The spawn of a worker. -/
theorem Inv.spawn {P : Params N} {s : State N} (h : Inv s) {i : Nat} (hmain : s.main = .spawn i)
    (hi : i < N) :
    Inv { s with
      worker := Function.update s.worker ⟨i, hi⟩ (.born P ⟨i, hi⟩)
      main := .spawn (i + 1) } := by
  have ht0 := h.t0
  have hgo := h.phaseGo
  have ht1 := h.t1
  rw [hmain] at ht0 hgo ht1
  have hfree := h.unborn i hmain ⟨i, hi⟩ le_rfl
  have hzero : ∀ r, s.total.of r = u64 0 := by
    intro r
    have htotal := h.total r
    rwa [hmain, show MainPc.added N (.spawn i) r = 0 from rfl, upTo_zero] at htotal
  have hupd : ∀ (Q : Worker → Prop) (t : Fin N), Q (.born P ⟨i, hi⟩) → Q (s.worker t) →
      Q (Function.update s.worker ⟨i, hi⟩ (.born P ⟨i, hi⟩) t) := by
    intro Q t hborn hother
    by_cases ht : t = ⟨i, hi⟩
    · rwa [ht, Function.update_self]
    · rwa [Function.update_of_ne ht]
  refine ⟨ht0, hgo, ht1, ?_, ?_, fun hge => absurd hge (by decide : ¬6 ≤ 0), ?_,
    fun t ht => absurd ht (Nat.not_lt_zero _), ?_, ?_, ?_, fun t ht => absurd ht (Nat.not_lt_zero _)⟩
  · intro j hj t ht
    obtain rfl : i + 1 = j := MainPc.spawn.inj hj
    have hne : t ≠ ⟨i, hi⟩ := fun heq => by
      rw [heq] at ht
      exact absurd ht (Nat.not_succ_le_self i)
    show (Function.update s.worker ⟨i, hi⟩ _ t).pc = _
    rw [Function.update_of_ne hne]
    exact h.unborn i hmain t (Nat.le_of_succ_le ht)
  · have hup := arrivedCount_update s.worker ⟨i, hi⟩ (.born P ⟨i, hi⟩)
    rw [hfree] at hup
    simp only [WorkerPc.stage, Worker.born] at hup
    show s.shared.phaseArrived = _
    rw [h.arrived]
    exact hup.symm
  · intro t
    exact hupd (fun w => 6 ≤ w.pc.stage → s.shared.phaseGo = true) t
      (fun hge => absurd hge (by decide : ¬6 ≤ 1)) (h.past t)
  · exact fun t => hupd Worker.Ok t (Worker.ok_born P _) (h.workers t)
  · exact fun t => hupd (fun w => StatsOk w (s.shared.stats t)) t trivial (h.stats t)
  · intro r
    show s.total.of r = u64 (upTo 0 _)
    rw [upTo_zero]
    exact hzero r

/-- Once main adds, all workers have ended. -/
theorem Inv.all_done {s : State N} (h : Inv s) (hmain : s.main.joined N = N) (t : Fin N) :
    (s.worker t).pc = .done :=
  h.joined t (t.isLt.trans_eq hmain.symm)

/-- A step of the loop that adds up. -/
theorem Inv.adding {s : State N} (h : Inv s) {pc : MainPc} {total : Counts}
    {perThread : Fin N → Nat} (hold : s.main.stage = 12) (hold' : s.main.joined N = N)
    (hnew : 12 ≤ pc.stage)
    (htotal : ∀ r, total.of r = u64 (upTo (pc.added N r) fun t => countedOf r (s.worker t).log))
    (hlisted : ∀ t : Fin N, t.val < pc.listed N → perThread t = u64 (releasedIn (s.worker t).log)) :
    Inv { s with main := pc, total := total, perThread := perThread } := by
  have ht0 := h.t0
  have hgo := h.phaseGo
  have ht1 := h.t1
  rw [hold] at ht0 hgo ht1
  have hle : ∀ n, n ≤ 12 → n ≤ pc.stage := fun n hn => hn.trans hnew
  refine h.advance (fun i hi => ?_) (ht0.trans ?_) (hgo.trans ?_) (ht1.trans ?_) rfl rfl
    (hold ▸ hnew) (fun _ => .inl (by omega)) (fun t _ => h.all_done hold' t) htotal hlisted
  · rw [hi] at hnew
    exact absurd hnew (by decide : ¬12 ≤ 0)
  · simp [hle 7 (by decide)]
  · simp [hle 8 (by decide)]
  · simp [hnew]

/-- The end of the loop that adds up. -/
theorem Inv.leave {s : State N} (h : Inv s) (hold : s.main.stage = 12)
    (hold' : s.main.joined N = N) (hadded : ∀ r, N ≤ s.main.added N r)
    (hlisted : N ≤ s.main.listed N) : Inv (s.goto .finished) := by
  refine h.adding hold hold' (by decide) (fun r => ?_) fun t _ => h.listed t (t.isLt.trans_le hlisted)
  rw [h.total r, upTo_of_le (hadded r)]
  exact congrArg u64 (upTo_of_le le_rfl _).symm

/-- **A step of main keeps the invariant.** -/
theorem Inv.main_next {P : Params N} {s s' : State N} (h : Inv s)
    (hnext : mainNext P s = some s') : Inv s' := by
  have ht0 := h.t0
  have hgo := h.phaseGo
  have ht1 := h.t1
  have hjoined := h.joined
  have htotal := h.total
  have hlisted := h.listed
  unfold mainNext at hnext
  cases hmain : s.main with
  | spawn i =>
      simp only [hmain] at hnext ht0 hgo ht1
      rcases forWorkers_cases hnext with ⟨hi, hbody⟩ | ⟨-, rfl⟩
      · obtain rfl := Option.some.inj hbody
        exact h.spawn hmain hi
      · exact h.early nofun ht0 hgo ht1 rfl rfl (by simp [hmain, MainPc.stage]) nofun nofun
          (fun r => by rw [hmain]; rfl) (fun _ => rfl) rfl
  | waitStart =>
      simp only [hmain, Option.some.injEq] at hnext ht0 hgo ht1
      subst hnext
      refine h.early ?_ ?_ ?_ ?_ rfl rfl ?_ ?_ ?_ (fun r => by rw [hmain]; rfl) ?_ ?_
      all_goals split <;> simp_all [MainPc.stage, MainPc.joined, MainPc.added, MainPc.listed]
  | releaseStart =>
      simp only [hmain, Option.some.injEq] at hnext ht0 hgo ht1
      subst hnext
      exact h.early nofun ht0 hgo ht1 rfl rfl (by simp [hmain, MainPc.stage]) nofun nofun
        (fun r => by rw [hmain]; rfl) (fun _ => rfl) rfl
  | warmup =>
      simp only [hmain, Option.some.injEq] at hnext ht0 hgo ht1
      subst hnext
      exact h.early nofun ht0 hgo ht1 rfl rfl (by simp [hmain, MainPc.stage]) nofun nofun
        (fun r => by rw [hmain]; rfl) (fun _ => rfl) rfl
  | storeWarmup =>
      simp only [hmain, Option.some.injEq] at hnext ht0 hgo ht1
      subst hnext
      exact h.early nofun ht0 hgo ht1 rfl rfl (by simp [hmain, MainPc.stage]) nofun nofun
        (fun r => by rw [hmain]; rfl) (fun _ => rfl) rfl
  | waitPhase =>
      simp only [hmain, Option.some.injEq] at hnext ht0 hgo ht1
      subst hnext
      refine h.early ?_ ?_ ?_ ?_ rfl rfl ?_ ?_ ?_ (fun r => by rw [hmain]; rfl) ?_ ?_
      all_goals split <;> simp_all [MainPc.stage, MainPc.joined, MainPc.added, MainPc.listed]
  | takeT0 =>
      simp only [hmain, Option.some.injEq] at hnext ht0 hgo ht1
      subst hnext
      exact h.early nofun rfl hgo ht1 rfl rfl (by simp [hmain, MainPc.stage])
        (fun _ => .inl (by rw [hmain]; decide)) nofun (fun r => by rw [hmain]; rfl) (fun _ => rfl) rfl
  | releasePhase =>
      simp only [hmain, Option.some.injEq] at hnext ht0 hgo ht1
      subst hnext
      exact h.early nofun ht0 rfl ht1 rfl rfl (by simp [hmain, MainPc.stage])
        (fun _ => .inl (by rw [hmain]; decide)) nofun (fun r => by rw [hmain]; rfl) (fun _ => rfl) rfl
  | sleep =>
      simp only [hmain, Option.some.injEq] at hnext ht0 hgo ht1
      subst hnext
      exact h.early nofun ht0 hgo ht1 rfl rfl (by simp [hmain, MainPc.stage])
        (fun _ => .inl (by rw [hmain]; decide)) nofun (fun r => by rw [hmain]; rfl) (fun _ => rfl) rfl
  | storeStop =>
      simp only [hmain, Option.some.injEq] at hnext ht0 hgo ht1
      subst hnext
      exact h.early nofun ht0 hgo ht1 rfl rfl (by simp [hmain, MainPc.stage])
        (fun _ => .inl (by rw [hmain]; decide)) nofun (fun r => by rw [hmain]; rfl) (fun _ => rfl) rfl
  | join i =>
      simp only [hmain] at hnext ht0 hgo ht1 hjoined
      rcases forWorkers_cases hnext with ⟨hi, hbody⟩ | ⟨hi, rfl⟩
      · split at hbody
        next hdone =>
          obtain rfl := Option.some.inj hbody
          refine h.early nofun ht0 hgo ht1 rfl rfl (by simp [hmain, MainPc.stage])
            (fun _ => .inl (by rw [hmain]; exact (by decide : 6 ≤ 10))) (fun t ht => ?_) (fun r => by rw [hmain]; rfl)
            (fun _ => rfl) rfl
          rcases Nat.lt_succ_iff_lt_or_eq.mp ht with hlt | heq
          · exact hjoined t hlt
          · obtain rfl : t = ⟨i, hi⟩ := Fin.ext heq
            exact hdone
        next => cases hbody
      · exact h.early nofun ht0 hgo ht1 rfl rfl (by simp [hmain, MainPc.stage])
          (fun _ => .inl (by rw [hmain]; exact (by decide : 6 ≤ 10))) (fun t _ => hjoined t (t.isLt.trans_le hi))
          (fun r => by rw [hmain]; rfl) (fun _ => rfl) rfl
  | takeT1 =>
      simp only [hmain, Option.some.injEq] at hnext ht0 hgo ht1 hjoined
      subst hnext
      exact h.early nofun ht0 hgo rfl rfl rfl (by simp [hmain, MainPc.stage])
        (fun _ => .inl (by rw [hmain]; decide)) hjoined (fun r => by rw [hmain]; rfl)
        (fun _ => rfl) rfl
  | addGets i =>
      simp only [hmain] at hnext htotal hlisted
      have hdone := h.all_done (by rw [hmain]; rfl)
      rcases forWorkers_cases hnext with ⟨hi, hbody⟩ | ⟨hi, rfl⟩
      · obtain rfl := Option.some.inj hbody
        refine h.adding (by rw [hmain]; rfl) (by rw [hmain]; rfl) le_rfl (fun r => ?_) hlisted
        cases r with
        | get => exact h.add_counter (r := .get) hi (by rw [hmain]; rfl) (hdone _)
        | put => exact htotal .put
        | remove => exact htotal .remove
      · exact h.leave (by rw [hmain]; rfl) (by rw [hmain]; rfl)
          (fun r => by rw [hmain]; cases r <;> simp [MainPc.added] <;> omega) (by rw [hmain]; exact hi)
  | addPuts i =>
      simp only [hmain] at hnext htotal hlisted
      have hdone := h.all_done (by rw [hmain]; rfl)
      rcases forWorkers_cases hnext with ⟨hi, hbody⟩ | ⟨hi, rfl⟩
      · obtain rfl := Option.some.inj hbody
        refine h.adding (by rw [hmain]; rfl) (by rw [hmain]; rfl) le_rfl (fun r => ?_) hlisted
        cases r with
        | get => exact htotal .get
        | put => exact h.add_counter (r := .put) hi (by rw [hmain]; rfl) (hdone _)
        | remove => exact htotal .remove
      · exact h.leave (by rw [hmain]; rfl) (by rw [hmain]; rfl)
          (fun r => by rw [hmain]; cases r <;> simp [MainPc.added] <;> omega) (by rw [hmain]; exact hi)
  | addRemoves i =>
      simp only [hmain] at hnext htotal hlisted
      have hdone := h.all_done (by rw [hmain]; rfl)
      rcases forWorkers_cases hnext with ⟨hi, hbody⟩ | ⟨hi, rfl⟩
      · obtain rfl := Option.some.inj hbody
        refine h.adding (by rw [hmain]; rfl) (by rw [hmain]; rfl) le_rfl (fun r => ?_) hlisted
        cases r with
        | get => exact htotal .get
        | put => exact htotal .put
        | remove => exact h.add_counter (r := .remove) hi (by rw [hmain]; rfl) (hdone _)
      · exact h.leave (by rw [hmain]; rfl) (by rw [hmain]; rfl)
          (fun r => by rw [hmain]; cases r <;> simp [MainPc.added] <;> omega) (by rw [hmain]; exact hi)
  | addThread i =>
      simp only [hmain] at hnext htotal hlisted
      have hdone := h.all_done (by rw [hmain]; rfl)
      rcases forWorkers_cases hnext with ⟨hi, hbody⟩ | ⟨hi, rfl⟩
      · obtain rfl := Option.some.inj hbody
        refine h.adding (by rw [hmain]; rfl) (by rw [hmain]; rfl) le_rfl htotal fun t ht => ?_
        rcases Nat.lt_succ_iff_lt_or_eq.mp ht with hlt | heq
        · have hne : t ≠ ⟨i, hi⟩ := fun heq => hlt.ne (congrArg Fin.val heq)
          rw [Function.update_of_ne hne]
          exact hlisted t hlt
        · obtain rfl : t = ⟨i, hi⟩ := Fin.ext heq
          rw [Function.update_self]
          exact (h.sum_done (hdone _)).1
      · exact h.leave (by rw [hmain]; rfl) (by rw [hmain]; rfl)
          (fun r => by rw [hmain]; cases r <;> simp [MainPc.added] <;> omega) (by rw [hmain]; exact hi)
  | finished =>
      simp only [hmain] at hnext
      cases hnext

/-- The invariant holds in every state of every run. -/
theorem reachable_inv {P : Params N} {s : State N} (h : (machine P).Reachable s) : Inv s := by
  refine Machine.ReachableUnder.invariant (inv_init P) ?_ h
  intro s a s' hinv _ hstep
  cases a with
  | main => exact hinv.main_next hstep
  | worker t =>
      obtain ⟨⟨sh, w⟩, hnext, rfl⟩ := Option.map_eq_some_iff.mp hstep
      exact hinv.worker_next hnext

/-! ## The accounting -/

/-- What the protocol is for.  A counted operation was called after `t0`, by a
worker that had passed `phase_b`; no operation is called or still runs after `t1`;
main reads an entry of `stats` when it is written.  The reported total is the
number of operations called after the release of `phase_b`, and that of one worker
is a positive number of rounds of 64, each modulo `2 ^ 64`. -/
structure Accounted (s : State N) : Prop where
  counted_after_t0 : ∀ t, ∀ e ∈ (s.worker t).log, e.counted = true → e.t0 = true
  counted_passed : ∀ t, ∀ e ∈ (s.worker t).log, e.counted = true → e.passed = true
  called_before_t1 : ∀ t, ∀ e ∈ (s.worker t).log, e.t1 = false
  quiet_after_t1 : s.shared.t1 = true → ∀ t, (s.worker t).pc.executing = false
  read_written : ∀ t : Fin N, s.main.reads = some t.val →
    (s.worker t).pc = .done ∧ s.shared.stats t = (s.worker t).counts
  total : s.main = .finished →
    s.total.sum = (∑ t, releasedIn (s.worker t).log) % 2 ^ 64
  per_thread : s.main = .finished → ∀ t, ∃ m,
    releasedIn (s.worker t).log = 64 * (m + 1) ∧ s.perThread t = 64 * (m + 1) % 2 ^ 64

/-- The three sums together are over the operations behind the barrier. -/
theorem Inv.total_sum {s : State N} (h : Inv s) (hmain : s.main = .finished) :
    s.total.sum = u64 (∑ t, releasedIn (s.worker t).log) := by
  have hdone := h.all_done (by rw [hmain]; rfl)
  have hof : ∀ r, s.total.of r = u64 (∑ t, countedOf r (s.worker t).log) := by
    intro r
    rw [h.total r, hmain]
    exact congrArg u64 (upTo_of_le le_rfl _)
  have hsum : ∑ t, releasedIn (s.worker t).log =
      ∑ t, countedOf .get (s.worker t).log + ∑ t, countedOf .put (s.worker t).log +
        ∑ t, countedOf .remove (s.worker t).log := by
    rw [← Finset.sum_add_distrib, ← Finset.sum_add_distrib]
    refine Finset.sum_congr rfl fun t _ => ?_
    have hphase := (h.workers t).phase
    rw [hdone t] at hphase
    exact releasedIn_eq (h.workers t).records hphase.1
  have hg : s.total.gets = _ := hof .get
  have hp : s.total.puts = _ := hof .put
  have hr : s.total.removes = _ := hof .remove
  rw [hsum, Counts.sum, hg, hp, hr]
  unfold u64
  omega

/-- **The accounting of `run_bench_common`.**  It holds in every state of every
run, for every number of workers and every stream. -/
theorem reachable_accounted {P : Params N} {s : State N} (h : (machine P).Reachable s) :
    Accounted s := by
  have hinv := reachable_inv h
  refine ⟨?_, ?_, ?_, ?_, ?_, ?_, ?_⟩
  · intro t e he hcounted
    have hok := (hinv.workers t).records e he
    exact hok.t0 (hok.counted hcounted)
  · exact fun t e he => ((hinv.workers t).records e he).counted
  · exact fun t e he => ((hinv.workers t).records e he).t1
  · intro ht1 t
    rw [hinv.t1, decide_eq_true_iff] at ht1
    by_cases hdone : (s.worker t).pc = .done
    · rw [hdone]
      rfl
    · exact absurd ht1 (not_le.mpr (hinv.running hdone).2.1)
  · intro t hreads
    have hjoined : s.main.joined N = N := by
      cases hmain : s.main <;> rw [hmain] at hreads <;> first | rfl | cases hreads
    have hdone := hinv.all_done hjoined t
    have hstats := hinv.stats t
    simp only [StatsOk, hdone] at hstats
    exact ⟨hdone, hstats⟩
  · exact hinv.total_sum
  · intro hmain t
    have hdone := hinv.all_done (by rw [hmain]; rfl) t
    obtain ⟨m, hm⟩ := (hinv.sum_done hdone).2
    refine ⟨m, hm, ?_⟩
    rw [← hm]
    exact hinv.listed t (by rw [hmain]; exact t.isLt)

/-! ## Whole runs -/

/-- A worker's step as a step of the run. -/
theorem reachable_worker {P : Params N} {s : State N} {t : Fin N} {r : Shared N × Worker}
    (h : (machine P).Reachable s) (hnext : (s.worker t).next P t s.shared = some r) :
    (machine P).Reachable
      { s with shared := r.1, worker := Function.update s.worker t r.2 } := by
  refine .step (a := .worker t) h trivial ?_
  simp [machine, hnext]

/-- A step of main as a step of the run. -/
theorem reachable_main {P : Params N} {s r : State N} (h : (machine P).Reachable s)
    (hnext : mainNext P s = some r) : (machine P).Reachable r :=
  .step (a := .main) h trivial hnext

/-- Worker `t` has executed `n` operations behind the barrier, and nobody else has moved. -/
structure Measured (t : Fin N) (s s' : State N) (n : Nat) : Prop where
  main : s'.main = s.main
  shared : s'.shared = s.shared
  others : ∀ u, u ≠ t → s'.worker u = s.worker u
  grown : (s.worker t).log ⊆ (s'.worker t).log
  released : releasedIn (s'.worker t).log = releasedIn (s.worker t).log + n

/-- First some operations, then some more. -/
theorem Measured.trans {t : Fin N} {s s' s'' : State N} {n n' : Nat} (h : Measured t s s' n)
    (h' : Measured t s' s'' n') : Measured t s s'' (n + n') where
  main := h'.main.trans h.main
  shared := h'.shared.trans h.shared
  others u hu := (h'.others u hu).trans (h.others u hu)
  grown := List.Subset.trans h.grown h'.grown
  released := by rw [h'.released, h.released, Nat.add_assoc]

/-- One measured operation: call, return, count. -/
theorem reachable_round_step {P : Params N} {s : State N} {t : Fin N} {k : Nat}
    (h : (machine P).Reachable s) (hpc : (s.worker t).pc = .call k)
    (hgo : s.shared.phaseGo = true) :
    ∃ s', (machine P).Reachable s' ∧ Measured t s s' 1 ∧
      (s'.worker t).pc = if k + 1 < 64 then .call (k + 1) else .stopTest := by
  have hcall := reachable_worker (t := t) h
    (r := (s.shared, (s.worker t).doOp P t s.shared true (.op k)))
    (by simp [Worker.next, hpc])
  have hret := reachable_worker (t := t) hcall (by
    simp only [Function.update_self, Worker.next, Worker.doOp]
    rfl)
  have hcount := reachable_worker (t := t) hret (by
    simp only [Function.update_self, Worker.next]
    rfl)
  refine ⟨_, hcount, ⟨rfl, rfl, fun u hu => ?_, ?_, ?_⟩, by simp⟩
  · simp [hu]
  · simp [Worker.doOp, markCounted]
  · simp [Worker.doOp, markCounted, releasedIn, hgo]

/-- The rest of a round of 64. -/
theorem reachable_round {P : Params N} {t : Fin N} (d : Nat) {s : State N} {k : Nat}
    (hd : k + d = 63) (h : (machine P).Reachable s) (hpc : (s.worker t).pc = .call k)
    (hgo : s.shared.phaseGo = true) :
    ∃ s', (machine P).Reachable s' ∧ Measured t s s' (d + 1) ∧ (s'.worker t).pc = .stopTest := by
  induction d generalizing s k with
  | zero =>
      obtain ⟨s', hs', hm, hpc'⟩ := reachable_round_step h hpc hgo
      rw [if_neg (by omega)] at hpc'
      exact ⟨s', hs', hm, hpc'⟩
  | succ d ih =>
      obtain ⟨s', hs', hm, hpc'⟩ := reachable_round_step h hpc hgo
      rw [if_pos (by omega)] at hpc'
      obtain ⟨s'', hs'', hm', hpc''⟩ := ih (by omega) hs' hpc' (hm.shared ▸ hgo)
      exact ⟨s'', hs'', Nat.add_comm 1 (d + 1) ▸ hm.trans hm', hpc''⟩

/-- Any number of rounds while main sleeps. -/
theorem reachable_rounds {P : Params N} {t : Fin N} (n : Nat) {s : State N}
    (h : (machine P).Reachable s) (hpc : (s.worker t).pc = .call 0)
    (hgo : s.shared.phaseGo = true) (hstop : s.shared.stop = false) :
    ∃ s', (machine P).Reachable s' ∧ Measured t s s' (64 * (n + 1)) ∧
      (s'.worker t).pc = .stopTest := by
  induction n generalizing s with
  | zero => exact reachable_round 63 rfl h hpc hgo
  | succ n ih =>
      obtain ⟨s₁, h₁, hm₁, hpc₁⟩ := reachable_round 63 rfl h hpc hgo
      have h₂ := reachable_worker (t := t) (r := (s₁.shared, { s₁.worker t with pc := .call 0 })) h₁
        (by simp [Worker.next, hpc₁, hm₁.shared, hstop])
      have hm₂ : Measured t s₁ { s₁ with
          worker := Function.update s₁.worker t { s₁.worker t with pc := .call 0 } } 0 :=
        ⟨rfl, rfl, fun u hu => by simp [hu], by simp, by simp⟩
      obtain ⟨s₃, h₃, hm₃, hpc₃⟩ := ih h₂ (by simp) (by simp [hm₁.shared, hgo])
        (by simp [hm₁.shared, hstop])
      have hsum : 64 + 0 + 64 * (n + 1) = 64 * (n + 1 + 1) := by ring
      exact ⟨s₃, h₃, hsum ▸ (hm₁.trans hm₂).trans hm₃, hpc₃⟩

/-- A worker that finds `stop` set writes its counters and ends. -/
theorem reachable_stored {P : Params N} {s : State N} {t : Fin N} (h : (machine P).Reachable s)
    (hpc : (s.worker t).pc = .stopTest) (hstop : s.shared.stop = true) :
    ∃ s', (machine P).Reachable s' ∧ s'.main = s.main ∧ s'.shared.stop = true ∧
      (s'.worker t).pc = .done ∧ (s'.worker t).log = (s.worker t).log ∧
      ∀ u, u ≠ t → s'.worker u = s.worker u := by
  have htest := reachable_worker (t := t) (r := (s.shared, { s.worker t with pc := .storeGets })) h
    (by simp [Worker.next, hpc, hstop])
  have hgets := reachable_worker (t := t) htest (by
    simp only [Function.update_self, Worker.next]
    rfl)
  have hputs := reachable_worker (t := t) hgets (by
    simp only [Function.update_self, Worker.next]
    rfl)
  have hremoves := reachable_worker (t := t) hputs (by
    simp only [Function.update_self, Worker.next]
    rfl)
  exact ⟨_, hremoves, rfl, hstop, by simp, by simp, fun u hu => by simp [hu]⟩

/-- The first `i` workers end. -/
theorem reachable_allStored {P : Params N} {s : State N} (h : (machine P).Reachable s)
    (hpc : ∀ t, (s.worker t).pc = .stopTest) (hstop : s.shared.stop = true) (i : Nat)
    (hi : i ≤ N) :
    ∃ s', (machine P).Reachable s' ∧ s'.main = s.main ∧ s'.shared.stop = true ∧
      ∀ t, (s'.worker t).log = (s.worker t).log ∧
        (s'.worker t).pc = if t.val < i then .done else .stopTest := by
  induction i with
  | zero => exact ⟨s, h, rfl, hstop, fun t => ⟨rfl, by simpa using hpc t⟩⟩
  | succ i ih =>
      obtain ⟨s₁, h₁, hmain₁, hstop₁, hw₁⟩ := ih (Nat.le_of_succ_le hi)
      have hpc₁ := (hw₁ ⟨i, hi⟩).2
      rw [if_neg (Nat.lt_irrefl i)] at hpc₁
      obtain ⟨s₂, h₂, hmain₂, hstop₂, hdone, hlog, hothers⟩ := reachable_stored h₁ hpc₁ hstop₁
      refine ⟨s₂, h₂, hmain₂.trans hmain₁, hstop₂, fun t => ?_⟩
      by_cases ht : t = ⟨i, hi⟩
      · rw [ht, hdone, hlog, if_pos (Nat.lt_succ_self i)]
        exact ⟨(hw₁ _).1, rfl⟩
      · have hne : t.val ≠ i := fun heq => ht (Fin.ext heq)
        have hlt : t.val < i + 1 ↔ t.val < i := by omega
        rw [hothers t ht, if_congr hlt rfl rfl]
        exact hw₁ t

/-- Main joins the workers that have ended. -/
theorem reachable_joined {P : Params N} (d : Nat) {s : State N} {i : Nat} (hi : i + d = N)
    (h : (machine P).Reachable s) (hmain : s.main = .join i)
    (hdone : ∀ t, (s.worker t).pc = .done) :
    ∃ s', (machine P).Reachable s' ∧ s'.main = .takeT1 ∧ s'.worker = s.worker := by
  induction d generalizing s i with
  | zero =>
      have hout : ¬i < N := by omega
      refine ⟨s.goto .takeT1, reachable_main h ?_, rfl, rfl⟩
      simp [mainNext, hmain, forWorkers, hout]
  | succ d ih =>
      have hin : i < N := by omega
      have hnext : (machine P).Reachable (s.goto (.join (i + 1))) := by
        refine reachable_main h ?_
        simp [mainNext, hmain, forWorkers, hin, hdone]
      obtain ⟨s', h', hmain', hworker⟩ := ih (i := i + 1) (by omega) hnext rfl hdone
      exact ⟨s', h', hmain', hworker⟩

/-- Main adds up what is in `stats`. -/
theorem reachable_added {P : Params N} (d : Nat) {s : State N} {i : Nat} (hi : i + d = N)
    (h : (machine P).Reachable s) (hmain : s.main = .addGets i) :
    ∃ s', (machine P).Reachable s' ∧ s'.main = .finished ∧ s'.worker = s.worker := by
  induction d generalizing s i with
  | zero =>
      have hout : ¬i < N := by omega
      refine ⟨s.goto .finished, reachable_main h ?_, rfl, rfl⟩
      simp [mainNext, hmain, forWorkers, hout]
  | succ d ih =>
      have hin : i < N := by omega
      have hgets := reachable_main h (r := { s with
        total := { s.total with gets := u64 (s.total.gets + (s.shared.stats ⟨i, hin⟩).gets) }
        main := .addPuts i }) (by simp [mainNext, hmain, forWorkers, hin])
      have hputs := reachable_main hgets (by simp [mainNext, forWorkers, hin]; rfl)
      have hremoves := reachable_main hputs (by simp [mainNext, forWorkers, hin]; rfl)
      have hthread := reachable_main hremoves (by simp [mainNext, forWorkers, hin]; rfl)
      obtain ⟨s', h', hmain', hworker⟩ := ih (i := i + 1) (by omega) hthread rfl
      exact ⟨s', h', hmain', hworker⟩

/-- **With every worker at the end of a round, the run can end** with what was executed so far. -/
theorem reachable_finish {P : Params N} {s : State N} (h : (machine P).Reachable s)
    (hmain : s.main = .sleep) (hpc : ∀ t, (s.worker t).pc = .stopTest) :
    ∃ s', (machine P).Reachable s' ∧ s'.main = .finished ∧
      ∀ t, (s'.worker t).log = (s.worker t).log := by
  have hslept := reachable_main h (r := s.goto .storeStop) (by rw [mainNext, hmain])
  have hstopped := reachable_main hslept rfl
  obtain ⟨s₁, h₁, hmain₁, -, hw₁⟩ := reachable_allStored hstopped hpc rfl N le_rfl
  obtain ⟨s₂, h₂, hmain₂, hw₂⟩ := reachable_joined N (Nat.zero_add N) h₁ hmain₁
    fun t => (hw₁ t).2.trans (if_pos t.isLt)
  have ht1 := reachable_main h₂ (r := { s₂ with
    shared := { s₂.shared with t1 := true }, main := .addGets 0 }) (by rw [mainNext, hmain₂])
  obtain ⟨s₃, h₃, hmain₃, hw₃⟩ := reachable_added N (Nat.zero_add N) ht1 rfl
  refine ⟨s₃, h₃, hmain₃, fun t => ?_⟩
  rw [hw₃]
  show (s₂.worker t).log = (s.worker t).log
  rw [hw₂]
  exact (hw₁ t).1

/-- Two workers, one whose stream is `get`s and one whose stream is `put`s, of key 0. -/
def getsAndPuts : Params 2 :=
  ⟨fun t _ => ⟨0, if t = 0 then 0 else 1⟩, 64⟩

/-- Up to the release of `phase_b`, with a warm-up operation of each worker. -/
def warmThenPhaseTwo : List (Act 2) :=
  List.flatten [[.main, .main, .main], [.worker 0, .worker 1], [.main, .main],
    [.worker 0, .worker 0, .worker 0, .worker 0], [.worker 1, .worker 1, .worker 1, .worker 1],
    [.main, .main], [.worker 0, .worker 0, .worker 1, .worker 1], [.main, .main, .main],
    [.worker 0, .worker 1]]

/-- The accounting of a run of two workers with a warm-up, in which one of them measures one
round and the other two: the operations of the warm-up are not in the total. -/
theorem warm_run_accounted : ∃ s, (machine getsAndPuts).Reachable s ∧ s.main = .finished ∧
    Accounted s ∧ s.total.sum = 192 ∧ ∀ t, ∃ e ∈ (s.worker t).log, e.passed = false := by
  have hstart : ((machine getsAndPuts).run warmThenPhaseTwo).map (fun s =>
      decide (s.main = .sleep ∧ s.shared.phaseGo = true ∧ s.shared.stop = false ∧
        ∀ t, (s.worker t).pc = .call 0 ∧ releasedIn (s.worker t).log = 0 ∧
          (s.worker t).log.any (fun e => e.passed == false) = true)) = some true := by
    decide
  obtain ⟨s, hrun, hs⟩ := Option.map_eq_some_iff.mp hstart
  obtain ⟨hmain, hgo, hstop, hw⟩ := of_decide_eq_true hs
  obtain ⟨s₁, h₁, hm₁, hpc₁⟩ :=
    reachable_rounds 0 (Machine.reachable_of_run hrun) (hw 0).1 hgo hstop
  have hother : s₁.worker 1 = s.worker 1 := hm₁.others 1 (by decide)
  obtain ⟨s₂, h₂, hm₂, hpc₂⟩ := reachable_rounds 1 (t := 1) h₁ (by rw [hother]; exact (hw 1).1)
    (by rw [hm₁.shared]; exact hgo) (by rw [hm₁.shared]; exact hstop)
  have hkept : s₂.worker 0 = s₁.worker 0 := hm₂.others 0 (by decide)
  obtain ⟨s₃, h₃, hmain₃, hlog₃⟩ := reachable_finish h₂ (hm₂.main.trans (hm₁.main.trans hmain))
    (Fin.forall_fin_two.mpr ⟨by rw [hkept]; exact hpc₁, hpc₂⟩)
  refine ⟨s₃, h₃, hmain₃, reachable_accounted h₃, ?_, Fin.forall_fin_two.mpr ⟨?_, ?_⟩⟩
  · rw [(reachable_inv h₃).total_sum hmain₃, Fin.sum_univ_two, hlog₃, hlog₃, hkept, hm₁.released,
      hm₂.released, hother, (hw 0).2.1, (hw 1).2.1]
    rfl
  · obtain ⟨e, he, hpassed⟩ := List.any_eq_true.mp (hw 0).2.2
    rw [hlog₃, hkept]
    exact ⟨e, hm₁.grown he, by simpa using hpassed⟩
  · obtain ⟨e, he, hpassed⟩ := List.any_eq_true.mp (hw 1).2.2
    rw [hlog₃]
    exact ⟨e, hm₂.grown (hother ▸ he), by simpa using hpassed⟩

/-- One worker whose stream is `get`s of key 0. -/
def getsOnly : Params 1 :=
  ⟨fun _ _ => ⟨0, 0⟩, 64⟩

/-- Up to the release of `phase_b`, without a warm-up operation. -/
def toPhaseTwo : List (Act 1) :=
  [.main, .main, .worker 0, .main, .main, .worker 0, .main, .main, .worker 0, .worker 0, .main,
    .main, .main, .worker 0]

/-- A run with any number of measured rounds. -/
theorem exists_run (n : Nat) : ∃ s, (machine getsOnly).Reachable s ∧ s.main = .finished ∧
    releasedIn (s.worker 0).log = 64 * (n + 1) := by
  have hstart : ((machine getsOnly).run toPhaseTwo).map (fun s =>
      decide (s.main = .sleep ∧ (s.worker 0).pc = .call 0 ∧ s.shared.phaseGo = true ∧
        s.shared.stop = false ∧ releasedIn (s.worker 0).log = 0)) = some true := by
    decide
  obtain ⟨s, hrun, hs⟩ := Option.map_eq_some_iff.mp hstart
  obtain ⟨hmain, hpc, hgo, hstop, hzero⟩ := of_decide_eq_true hs
  obtain ⟨s₁, h₁, hm₁, hpc₁⟩ := reachable_rounds n (Machine.reachable_of_run hrun) hpc hgo hstop
  obtain ⟨s₂, h₂, hmain₂, hlog₂⟩ := reachable_finish h₁ (hm₁.main.trans hmain)
    fun t => Subsingleton.elim 0 t ▸ hpc₁
  refine ⟨s₂, h₂, hmain₂, ?_⟩
  rw [hlog₂, hm₁.released, hzero, Nat.zero_add]

/-- After `2 ^ 64` operations the counters are back at zero: the reported total is
not the number of operations, and the worker's own is not positive. -/
theorem counters_wrap : ∃ s, (machine getsOnly).Reachable s ∧ s.main = .finished ∧
    ∑ t, releasedIn (s.worker t).log = 2 ^ 64 ∧ s.total.sum = 0 ∧ s.perThread 0 = 0 := by
  obtain ⟨s, hs, hmain, hn⟩ := exists_run (2 ^ 58 - 1)
  have hinv := reachable_inv hs
  have htotal := hinv.total_sum hmain
  have hlisted := hinv.listed 0 (by rw [hmain]; decide)
  rw [Fin.sum_univ_one, hn] at htotal
  rw [hn] at hlisted
  exact ⟨s, hs, hmain, by rw [Fin.sum_univ_one, hn]; rfl, htotal, hlisted⟩

end

end BenchHarness
