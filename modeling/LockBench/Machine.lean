import Mathlib

/-!
# Interleaving machines

A machine is an initial state and a partial step function; an action says which
thread moves and how its nondeterminism is resolved, and `none` means that the
action is not enabled.  Everything proved about a program is proved of the
states such a machine can reach, or of the paths it can take.

Two forms of reachability are kept apart.  `ReachableUnder C` admits only steps
whose source state and action meet the condition `C`; it is what a theorem about
"every run whose steps all meet the condition" quantifies over.  `Reachable` is
the case without a condition.
-/

/-- The numbers of one thread and of two, as sample runs have them. -/
instance instNeZeroOne : NeZero 1 := ⟨one_ne_zero⟩

instance instNeZeroTwo : NeZero 2 := ⟨two_ne_zero⟩

/-- An initial state together with a partial, action-labelled step function. -/
structure Machine (S A : Type) where
  init : S
  step : S → A → Option S

namespace Machine

variable {S A : Type} (m : Machine S A)

/-- A path through the machine all of whose steps meet `C`. -/
inductive Path (C : S → A → Prop) : S → List A → S → Prop
  | nil (s : S) : Path C s [] s
  | cons {s s' s'' : S} {a : A} {as : List A}
      (hstep : m.step s a = some s') (hcond : C s a)
      (tail : Path C s' as s'') : Path C s (a :: as) s''

/-- States reached from the initial one by steps that all meet `C`. -/
inductive ReachableUnder (C : S → A → Prop) : S → Prop
  | init : ReachableUnder C m.init
  | step {s s' : S} {a : A} (hreach : ReachableUnder C s) (hcond : C s a)
      (hstep : m.step s a = some s') : ReachableUnder C s'

/-- States reached from the initial one by any steps. -/
def Reachable (s : S) : Prop :=
  m.ReachableUnder (fun _ _ => True) s

variable {m}

/-- **Invariant rule.**  A predicate that holds initially and is preserved by
every step that meets `C` holds in every state reached under `C`. -/
theorem ReachableUnder.invariant {C : S → A → Prop} {I : S → Prop}
    (hinit : I m.init)
    (hpres : ∀ s a s', I s → C s a → m.step s a = some s' → I s')
    {s : S} (h : m.ReachableUnder C s) : I s := by
  induction h with
  | init => exact hinit
  | step _ hcond hstep ih => exact hpres _ _ _ ih hcond hstep

/-- Reachability under a stronger condition is reachability under a weaker one. -/
theorem ReachableUnder.mono {C D : S → A → Prop} (hCD : ∀ s a, C s a → D s a)
    {s : S} (h : m.ReachableUnder C s) : m.ReachableUnder D s := by
  induction h with
  | init => exact .init
  | step _ hcond hstep ih => exact .step ih (hCD _ _ hcond) hstep

/-- A path under a stronger condition is a path under a weaker one. -/
theorem Path.mono {C D : S → A → Prop} (hCD : ∀ s a, C s a → D s a) {s s' : S} {as : List A}
    (h : m.Path C s as s') : m.Path D s as s' := by
  induction h with
  | nil s => exact .nil s
  | cons hstep hcond _ ih => exact .cons hstep (hCD _ _ hcond) ih

/-- Paths compose. -/
theorem Path.append {C : S → A → Prop} {s s' s'' : S} {as bs : List A}
    (h : m.Path C s as s') (h' : m.Path C s' bs s'') : m.Path C s (as ++ bs) s'' := by
  induction h with
  | nil s => exact h'
  | cons hstep hcond _ ih => exact .cons hstep hcond (ih h')

/-- A predicate that the steps of a path keep holds in all its states. -/
theorem Path.invariant {C : S → A → Prop} {I : S → Prop} {s s' : S} {as : List A}
    (h : m.Path C s as s')
    (hpres : ∀ s a s', a ∈ as → I s → C s a → m.step s a = some s' → I s') (hs : I s) : I s' := by
  induction h with
  | nil s => exact hs
  | cons hstep hcond _ ih =>
      exact ih (fun s a s' ha => hpres s a s' (.tail _ ha)) (hpres _ _ _ (.head _) hs hcond hstep)

/-- A path from a reachable state ends in a reachable state. -/
theorem ReachableUnder.path {C : S → A → Prop} {s s' : S} {as : List A}
    (h : m.ReachableUnder C s) (hp : m.Path C s as s') :
    m.ReachableUnder C s' := by
  induction hp with
  | nil s => exact h
  | cons hstep hcond _ ih => exact ih (.step h hcond hstep)

/-- The states of a path. -/
def onPath (m : Machine S A) (C : S → A → Prop) (s : S) (as : List A) (s' : S) : Set S :=
  {z | ∃ as₁ as₂, as = as₁ ++ as₂ ∧ m.Path C s as₁ z ∧ m.Path C z as₂ s'}

/-- **Window rule.**  A relation between the states seen so far and the current
one, kept when a step adds its state to those seen, holds at the end of a path of
all its states. -/
theorem Path.window {C : S → A → Prop} {R : Set S → S → Prop}
    (hmono : ∀ Z Z' s, Z ⊆ Z' → R Z s → R Z' s)
    (hpres : ∀ Z s a s', R Z s → C s a → m.step s a = some s' → R (insert s' Z) s')
    {s s' : S} {as : List A} (hp : m.Path C s as s') (h : R {s} s) :
    R (m.onPath C s as s') s' := by
  have hgrow : ∀ Z, R Z s → R (Z ∪ m.onPath C s as s') s' := by
    clear h
    induction hp with
    | nil s => exact fun Z hZ => hmono _ _ _ Set.subset_union_left hZ
    | @cons s₁ s₂ s₃ a as hstep hcond tail ih =>
        intro Z hZ
        refine hmono _ _ _ ?_ (ih _ (hpres Z _ _ _ hZ hcond hstep))
        rintro z ((rfl | hz) | ⟨as₁, as₂, rfl, hl, hr⟩)
        · exact .inr ⟨[a], as, rfl, .cons hstep hcond (.nil _), tail⟩
        · exact .inl hz
        · exact .inr ⟨a :: as₁, as₂, rfl, .cons hstep hcond hl, hr⟩
  refine hmono _ _ _ ?_ (hgrow _ h)
  rintro z (rfl | hz)
  · exact ⟨[], as, rfl, .nil _, hp⟩
  · exact hz

/-- Execute a list of actions, refusing those that fail a test. -/
def runChecked (m : Machine S A) (ok : S → A → Bool) : S → List A → Option S
  | s, [] => some s
  | s, a :: as =>
      if ok s a then (m.step s a).bind fun s' => runChecked m ok s' as else none

/-- An executed action list whose steps all pass the test is a path under it. -/
theorem path_of_runChecked {C : S → A → Prop} {ok : S → A → Bool}
    (hok : ∀ s a, ok s a = true → C s a) {as : List A} {s s' : S}
    (h : m.runChecked ok s as = some s') : m.Path C s as s' := by
  induction as generalizing s with
  | nil =>
      obtain rfl : s = s' := by simpa [runChecked] using h
      exact .nil s
  | cons a as ih =>
      simp only [runChecked] at h
      split at h
      · obtain ⟨mid, hstep, hrest⟩ := Option.bind_eq_some_iff.mp h
        exact .cons hstep (hok _ _ ‹_›) (ih hrest)
      · cases h

/-- The state a tested action list ends in is reachable under the test. -/
theorem reachableUnder_of_runChecked {C : S → A → Prop} {ok : S → A → Bool}
    (hok : ∀ s a, ok s a = true → C s a) {as : List A} {s : S}
    (h : m.runChecked ok m.init as = some s) : m.ReachableUnder C s :=
  ReachableUnder.init.path (path_of_runChecked hok h)

/-- Execute a list of actions; `none` as soon as one of them is not enabled. -/
def run (m : Machine S A) (as : List A) : Option S :=
  m.runChecked (fun _ _ => true) m.init as

/-- The state an executed action list ends in is reachable. -/
theorem reachable_of_run {as : List A} {s : S} (h : m.run as = some s) :
    m.Reachable s :=
  reachableUnder_of_runChecked (fun _ _ _ => trivial) h

end Machine
