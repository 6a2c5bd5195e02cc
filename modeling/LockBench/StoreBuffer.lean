import LockBench.Interleave

/-!
# One program text, two memory models

A thread program is given as `Code`: for each thread, each program point and
each resolution of its nondeterminism, the one shared-memory access it makes
there.  The same text is then run in two ways.

* `Code.sc` is sequential consistency: every access acts on memory at once.
* `Code.tso` is the store-buffer machine of x86: a plain store enters the
  storing thread's FIFO buffer and reaches memory at a later `flush`; a load
  reads the thread's own newest buffered value or else memory; a
  read-modify-write (and a mutex operation) first drains the caller's buffer.

The buffered value a load must prefer is obtained by laying the thread's buffer
over memory (`TsoState.view`), which for each location leaves exactly the newest
buffered value, or memory where nothing is buffered.

`Code.sc_reachable_tso` embeds the first machine into the second: a sequentially
consistent run is a store-buffer run that flushes every store at once.  So a
safety result of the second machine, under a condition that empty buffers meet,
is one of the first.
-/

/-- A single shared-memory access of a thread, with the program point after it.

`load` reads, `store` is a plain store, `rmw` is a read-modify-write or a mutex
operation (`none` while it has to wait), `jump` touches no shared memory. -/
inductive Access (M W P : Type)
  | load (k : M → P)
  | store (w : W) (p : P)
  | rmw (f : M → Option (M × P))
  | jump (p : P)

/-- A thread program: the effect of a plain store on memory, and the access made
by thread `t` at a program point when its nondeterminism is resolved by `c`. -/
structure Code (T M W P C : Type) where
  apply : W → M → M
  access : T → P → C → Option (Access M W P)

variable {T M W P C : Type} [DecidableEq T]

/-- Shared memory, the store buffer of every thread (oldest first) and the
program point of every thread. -/
structure TsoState (T M W P : Type) where
  mem : M
  buf : T → List W
  pc : T → P

/-- A move of the store-buffer machine: a thread executes its next access, or
the oldest store of its buffer reaches memory. -/
inductive TsoAct (T C : Type)
  | exec (t : T) (c : C)
  | flush (t : T)

namespace Code

variable (code : Code T M W P C)

/-- The sequentially consistent effect of one access. -/
def scAccess (s : ScState T M P) (t : T) : Access M W P → Option (ScState T M P)
  | .load k => some { s with pc := Function.update s.pc t (k s.mem) }
  | .store w p => some ⟨code.apply w s.mem, Function.update s.pc t p⟩
  | .rmw f => (f s.mem).map fun r => ⟨r.1, Function.update s.pc t r.2⟩
  | .jump p => some { s with pc := Function.update s.pc t p }

/-- The program run under sequential consistency. -/
def sc (mem : M) (pc : T → P) : Machine (ScState T M P) (T × C) where
  init := ⟨mem, pc⟩
  step s a := (code.access a.1 (s.pc a.1) a.2).bind (code.scAccess s a.1)

/-- The access made at a program point, as an effect on memory and the program point. -/
def next (t : T) (m : M) (p : P) (c : C) : Option (M × P) :=
  (code.access t p c).bind fun
    | .load k => some (m, k m)
    | .store w p => some (code.apply w m, p)
    | .rmw f => f m
    | .jump p => some (m, p)

/-- Sequential consistency is the interleaving of these effects. -/
theorem sc_eq_interleave (mem : M) (p : P) :
    code.sc mem (fun _ => p) = interleave code.next mem p := by
  refine congrArg (Machine.mk _) (funext fun s => funext fun a => ?_)
  unfold next
  cases hacc : code.access a.1 (s.pc a.1) a.2 with
  | none => rfl
  | some acc => cases acc <;> rfl

/-- Lay a store buffer over memory, oldest store first. -/
def overlay (mem : M) (ws : List W) : M :=
  ws.foldl (fun m w => code.apply w m) mem

/-- Memory as thread `t` sees it: its own buffered stores over shared memory. -/
def view (s : TsoState T M W P) (t : T) : M :=
  code.overlay s.mem (s.buf t)

/-- The effect of one access on the store-buffer machine. -/
def tsoAccess (s : TsoState T M W P) (t : T) :
    Access M W P → Option (TsoState T M W P)
  | .load k => some { s with pc := Function.update s.pc t (k (code.view s t)) }
  | .store w p => some { s with
      buf := Function.update s.buf t (s.buf t ++ [w])
      pc := Function.update s.pc t p }
  | .rmw f => (f (code.view s t)).map fun r =>
      ⟨r.1, Function.update s.buf t [], Function.update s.pc t r.2⟩
  | .jump p => some { s with pc := Function.update s.pc t p }

/-- The oldest buffered store of `t` reaches memory. -/
def tsoFlush (s : TsoState T M W P) (t : T) : Option (TsoState T M W P) :=
  match s.buf t with
  | [] => none
  | w :: ws => some { s with
      mem := code.apply w s.mem
      buf := Function.update s.buf t ws }

/-- The program run on the store-buffer machine. -/
def tso (mem : M) (pc : T → P) : Machine (TsoState T M W P) (TsoAct T C) where
  init := ⟨mem, fun _ => [], pc⟩
  step s
    | .exec t c => (code.access t (s.pc t) c).bind (code.tsoAccess s t)
    | .flush t => code.tsoFlush s t

omit [DecidableEq T] in
@[simp] theorem overlay_nil (mem : M) : code.overlay mem [] = mem := rfl

omit [DecidableEq T] in
@[simp] theorem overlay_cons (mem : M) (w : W) (ws : List W) :
    code.overlay mem (w :: ws) = code.overlay (code.apply w mem) ws := rfl

omit [DecidableEq T] in
theorem view_of_buf_nil {s : TsoState T M W P} {t : T} (h : s.buf t = []) :
    code.view s t = s.mem := by
  rw [view, h, overlay_nil]

variable {code}

/-- **Inversion of a sequentially consistent step.** -/
theorem sc_step_cases {mem : M} {pc : T → P} {s s' : ScState T M P} {a : T × C}
    (h : (code.sc mem pc).step s a = some s') :
    ∃ acc, code.access a.1 (s.pc a.1) a.2 = some acc ∧
      code.scAccess s a.1 acc = some s' :=
  Option.bind_eq_some_iff.mp h

/-- **Inversion of an executed access on the store-buffer machine.** -/
theorem tso_exec_cases {mem : M} {pc : T → P} {s s' : TsoState T M W P} {t : T} {c : C}
    (h : (code.tso mem pc).step s (.exec t c) = some s') :
    ∃ acc, code.access t (s.pc t) c = some acc ∧
      code.tsoAccess s t acc = some s' :=
  Option.bind_eq_some_iff.mp h

/-- **Inversion of a flush.** -/
theorem tso_flush_cases {mem : M} {pc : T → P} {s s' : TsoState T M W P} {t : T}
    (h : (code.tso mem pc).step s (.flush t) = some s') :
    ∃ w ws, s.buf t = w :: ws ∧
      s' = { s with mem := code.apply w s.mem, buf := Function.update s.buf t ws } := by
  simp only [tso, tsoFlush] at h
  split at h
  · cases h
  · rename_i w ws hbuf
    exact ⟨w, ws, hbuf, by simpa using h.symm⟩

/-- The store-buffer state with empty buffers over a sequentially consistent one. -/
def flushed (s : ScState T M P) : TsoState T M W P :=
  ⟨s.mem, fun _ => [], s.pc⟩

/-- One sequentially consistent step is a store-buffer path between states with
empty buffers: the access, followed by the flush of its store if it made one. -/
theorem sc_step_tso {mem : M} {pc : T → P} {C' : TsoState T M W P → TsoAct T C → Prop}
    (hflush : ∀ s t, C' s (.flush t)) {s s' : ScState T M P} {a : T × C}
    (hcond : C' (flushed s) (.exec a.1 a.2))
    (h : (code.sc mem pc).step s a = some s') :
    ∃ as, (code.tso mem pc).Path C' (flushed s) as (flushed s') := by
  obtain ⟨acc, hacc, hs'⟩ := sc_step_cases h
  have hview : code.view (flushed s) a.1 = s.mem := view_of_buf_nil code rfl
  have hexec : ∀ t', code.tsoAccess (flushed s) a.1 acc = some t' →
      (code.tso mem pc).step (flushed s) (.exec a.1 a.2) = some t' := fun t' ht' =>
    Option.bind_eq_some_iff.mpr ⟨acc, hacc, ht'⟩
  cases acc with
  | load k =>
      obtain rfl : _ = s' := Option.some.inj hs'
      refine ⟨_, .cons (hexec _ ?_) hcond (.nil _)⟩
      simp only [tsoAccess, hview]
      rfl
  | store w p =>
      obtain rfl : _ = s' := Option.some.inj hs'
      refine ⟨_, .cons (hexec _ rfl) hcond (.cons (a := .flush a.1) ?_ (hflush _ _) (.nil _))⟩
      simp [tso, tsoFlush, flushed]
  | rmw f =>
      obtain ⟨r, hr, rfl⟩ := Option.map_eq_some_iff.mp hs'
      refine ⟨_, .cons (hexec _ ?_) hcond (.nil _)⟩
      have hbuf : Function.update (fun _ => ([] : List W)) a.1 [] = fun _ => [] :=
        Function.update_eq_self a.1 _
      simp only [tsoAccess, hview, hr, Option.map_some]
      simp only [flushed, hbuf]
  | jump p =>
      obtain rfl : _ = s' := Option.some.inj hs'
      exact ⟨_, .cons (hexec _ rfl) hcond (.nil _)⟩

/-- **Sequential consistency is a special case of store buffers.**  Every state
reached under sequential consistency is, with empty buffers, reached by the
store-buffer machine; a condition on the steps carries over when flushes always
meet it and accesses made with all buffers empty inherit it. -/
theorem sc_reachable_tso {mem : M} {pc : T → P}
    {C₁ : ScState T M P → T × C → Prop} {C₂ : TsoState T M W P → TsoAct T C → Prop}
    (hflush : ∀ s t, C₂ s (.flush t))
    (hexec : ∀ s a, C₁ s a → C₂ (flushed s) (.exec a.1 a.2))
    {s : ScState T M P} (h : (code.sc mem pc).ReachableUnder C₁ s) :
    (code.tso mem pc).ReachableUnder C₂ (flushed s) := by
  induction h with
  | init => exact .init
  | step _ hcond hstep ih =>
      obtain ⟨as, hpath⟩ := sc_step_tso hflush (hexec _ _ hcond) hstep
      exact ih.path hpath

end Code

/-- **Counting threads across one move.**  When only thread `t` changes its
program point, the number of threads satisfying a predicate changes by what `t`
contributes before and after. -/
theorem card_filter_update [Fintype T] (Q : T → P → Prop) [∀ u p, Decidable (Q u p)]
    (pc : T → P) (t : T) (p : P) :
    ((Finset.univ.filter fun u => Q u (Function.update pc t p u)).card : Int) =
      (Finset.univ.filter fun u => Q u (pc u)).card
        + (if Q t p then 1 else 0) - (if Q t (pc t) then 1 else 0) := by
  have hsplit : ∀ f : T → P, ((Finset.univ.filter fun u => Q u (f u)).card : Int) =
      (if Q t (f t) then 1 else 0) +
        ∑ u ∈ Finset.univ.erase t, if Q u (f u) then (1 : Int) else 0 := by
    intro f
    rw [Finset.card_filter, Nat.cast_sum,
      ← Finset.add_sum_erase _ _ (Finset.mem_univ t)]
    push_cast
    rfl
  have hrest : (∑ u ∈ Finset.univ.erase t,
        if Q u (Function.update pc t p u) then (1 : Int) else 0) =
      ∑ u ∈ Finset.univ.erase t, if Q u (pc u) then (1 : Int) else 0 := by
    refine Finset.sum_congr rfl fun u hu => ?_
    rw [Function.update_of_ne (Finset.ne_of_mem_erase hu)]
  rw [hsplit, hsplit, hrest, Function.update_self]
  ring
