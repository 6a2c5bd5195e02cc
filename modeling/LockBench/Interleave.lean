import LockBench.Machine

/-!
# Threads over one memory

The sequentially consistent machine of a thread program: a step picks a thread
and the resolution of its nondeterminism, and performs the one access that the
thread's program point makes.  The program is a partial function `next` from a
thread, the memory and a program point to the memory and the program point after
the access.
-/

/-- Shared memory and the program point of every thread. -/
structure ScState (T M P : Type) where
  mem : M
  pc : T → P

section

variable {T M P C : Type} [DecidableEq T]

/-- Run the same program in every thread, one access at a time. -/
def interleave (next : T → M → P → C → Option (M × P)) (mem : M) (pc : P) :
    Machine (ScState T M P) (T × C) where
  init := ⟨mem, fun _ => pc⟩
  step s a := (next a.1 s.mem (s.pc a.1) a.2).map fun r => ⟨r.1, Function.update s.pc a.1 r.2⟩

/-- **Inversion of a step.** -/
theorem interleave_step_cases {next : T → M → P → C → Option (M × P)} {mem : M} {pc : P}
    {s s' : ScState T M P} {a : T × C} (h : (interleave next mem pc).step s a = some s') :
    ∃ m p, next a.1 s.mem (s.pc a.1) a.2 = some (m, p) ∧
      s' = ⟨m, Function.update s.pc a.1 p⟩ := by
  obtain ⟨r, hr, rfl⟩ := Option.map_eq_some_iff.mp h
  exact ⟨r.1, r.2, hr, rfl⟩

end
