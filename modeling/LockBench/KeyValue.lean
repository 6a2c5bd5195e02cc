import LockBench.Linearize

/-!
# The key-value map an index implements

The sequential object behind every index of the repository: `put` inserts or
overwrites and tells whether the key was new, `remove` tells whether the key was
there, `get` returns the current value.
-/

/-- The operations of an index, as its users call them. -/
inductive MapOp (K V : Type)
  | get (k : K)
  | put (k : K) (v : V)
  | remove (k : K)
  deriving DecidableEq

/-- What an operation of an index returns. -/
inductive MapRes (V : Type)
  | value (r : Option V)
  | flag (b : Bool)
  deriving DecidableEq

namespace MapOp

variable {K V : Type} [DecidableEq K]

/-- The key an operation is about. -/
def key : MapOp K V → K
  | .get k | .put k _ | .remove k => k

/-- One operation on a map: the map after it and the result. -/
def apply : MapOp K V → (K → Option V) → (K → Option V) × MapRes V
  | .get k, m => (m, .value (m k))
  | .put k v, m => (Function.update m k (some v), .flag (m k).isNone)
  | .remove k, m => (Function.update m k none, .flag (m k).isSome)

/-- A `get` has no effect. -/
theorem apply_get_eq {k : K} {m : K → Option V} {r : Option V} (h : m k = r) :
    (MapOp.get k).apply m = (m, .value r) := by
  rw [← h]
  rfl

/-- A `remove` of an absent key has no effect. -/
theorem apply_remove_absent {k : K} {m : K → Option V} (h : m k = none) :
    (MapOp.remove k : MapOp K V).apply m = (m, .flag false) := by
  have hm : Function.update m k none = m := by
    rw [← h]
    exact Function.update_eq_self k m
  simp [apply, h, hm]

end MapOp
