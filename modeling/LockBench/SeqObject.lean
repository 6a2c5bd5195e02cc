import LockBench.KeyValue

/-!
# Objects used by one thread

A sequential object is a state and a total step that takes an operation to the
state after it and a result.  Two objects agree on a sequence of calls when they
return the same results call by call; `results_eq_of_sim` reduces that to a
relation between their states which every call keeps.
-/

/-- An object with its initial state and the effect of one call. -/
structure SeqObject (Op Res : Type) where
  State : Type
  init : State
  step : Op → State → State × Res

namespace SeqObject

variable {Op Res : Type}

/-- What a sequence of calls returns, call by call. -/
def results (A : SeqObject Op Res) : A.State → List Op → List Res
  | _, [] => []
  | s, op :: ops => (A.step op s).2 :: results A (A.step op s).1 ops

/-- The state after a sequence of calls. -/
def after (A : SeqObject Op Res) : A.State → List Op → A.State
  | s, [] => s
  | s, op :: ops => after A (A.step op s).1 ops

variable {A B : SeqObject Op Res}

/-- **Simulation rule.**  If one call from related states returns the same result
and ends in related states, every sequence of calls returns the same results and
ends in related states. -/
theorem results_eq_of_sim {R : A.State → B.State → Prop}
    (hsim : ∀ op s t, R s t →
      R (A.step op s).1 (B.step op t).1 ∧ (A.step op s).2 = (B.step op t).2)
    (ops : List Op) {s : A.State} {t : B.State} (h : R s t) :
    A.results s ops = B.results t ops ∧ R (A.after s ops) (B.after t ops) := by
  induction ops generalizing s t with
  | nil => exact ⟨rfl, h⟩
  | cons op ops ih =>
      obtain ⟨hnext, hres⟩ := hsim op s t h
      obtain ⟨htail, hend⟩ := ih hnext
      exact ⟨by simp only [results, hres, htail], hend⟩

end SeqObject

/-- The key-value map as a sequential object, empty at first. -/
def mapObject (K V : Type) [DecidableEq K] : SeqObject (MapOp K V) (MapRes V) where
  State := K → Option V
  init := fun _ => none
  step := MapOp.apply
