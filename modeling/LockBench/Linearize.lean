import LockBench.Machine

/-!
# Linearizability from commit points

A history is a list of calls and returns.  It is linearizable with respect to a
sequential object when its completed operations, and some of the pending ones,
can be put in one order that contradicts no real-time precedence and in which the
object, run one operation at a time, gives exactly the results that were returned.

The second half is a proof rule.  A machine is observed: some of its steps are
calls, some are returns, and some are the commit of the operation of a thread.
An abstraction maps its states to states of the object.  If commits act on the
abstraction as their operation does, no other step changes it, and an operation
that returns without a commit has a result that would have been right, without
effect, at some instant since its call, then every history is linearizable
(`Observed.Sound.linearizable`).  The instants since the call are kept by the
rule, so an invariant may speak about them.
-/

/-- What the outside sees of a run. -/
inductive Event (T Op Res : Type)
  | call (t : T) (op : Op)
  | ret (t : T) (r : Res)
  deriving DecidableEq

/-- A linearized operation: the `index`-th operation of a thread and its result. -/
structure Entry (T Op Res : Type) where
  thread : T
  index : Nat
  op : Op
  res : Res

/-- The thread and the position in it. -/
def Entry.id {T Op Res : Type} (e : Entry T Op Res) : T × Nat := (e.thread, e.index)

section History

variable {T Op Res M : Type} [DecidableEq T]

/-- The operations a thread has called, in order. -/
def calls (H : List (Event T Op Res)) (t : T) : List Op :=
  H.filterMap fun
    | .call u op => if u = t then some op else none
    | .ret _ _ => none

/-- The results that have been returned to a thread, in order. -/
def rets (H : List (Event T Op Res)) (t : T) : List Res :=
  H.filterMap fun
    | .call _ _ => none
    | .ret u r => if u = t then some r else none

/-- Operation `i` returned before operation `j` was called, where `(t, n)` is the
`n`-th operation of thread `t`. -/
def Precedes (H : List (Event T Op Res)) (i j : T × Nat) : Prop :=
  ∃ P, P <+: H ∧ i.2 < (rets P i.1).length ∧ (calls P j.1).length ≤ j.2

/-- The object, run through a list of operations, gives their results. -/
inductive Legal (apply : Op → M → M × Res) : M → List (Entry T Op Res) → M → Prop
  | nil (m : M) : Legal apply m [] m
  | cons {m m' m'' : M} {e : Entry T Op Res} {L : List (Entry T Op Res)}
      (h : apply e.op m = (m', e.res)) (rest : Legal apply m' L m'') :
      Legal apply m (e :: L) m''

/-- `L` is a linearization of `H` that takes the object from `m₀` to `m`. -/
structure Linearization (apply : Op → M → M × Res) (m₀ : M) (H : List (Event T Op Res))
    (L : List (Entry T Op Res)) (m : M) : Prop where
  nodup : (L.map Entry.id).Nodup
  called : ∀ e ∈ L, (calls H e.thread)[e.index]? = some e.op
  returned : ∀ t i r, (rets H t)[i]? = some r →
    ∃ e ∈ L, e.thread = t ∧ e.index = i ∧ e.res = r
  realTime : L.Pairwise fun e f => ¬ Precedes H f.id e.id
  legal : Legal apply m₀ L m

/-- The history has a linearization that leaves the object in state `m`. -/
def Linearizable (apply : Op → M → M × Res) (m₀ : M) (H : List (Event T Op Res)) (m : M) : Prop :=
  ∃ L, Linearization apply m₀ H L m

/-- Calls of a longer history. -/
theorem calls_append (H H' : List (Event T Op Res)) (t : T) :
    calls (H ++ H') t = calls H t ++ calls H' t :=
  List.filterMap_append

/-- Returns of a longer history. -/
theorem rets_append (H H' : List (Event T Op Res)) (t : T) :
    rets (H ++ H') t = rets H t ++ rets H' t :=
  List.filterMap_append

/-- A history has at least the calls of its prefix. -/
theorem calls_length_le_of_prefix {P H : List (Event T Op Res)} (h : P <+: H) (t : T) :
    (calls P t).length ≤ (calls H t).length := by
  obtain ⟨Q, rfl⟩ := h
  rw [calls_append, List.length_append]
  omega

/-- A history has at least the returns of its prefix. -/
theorem rets_length_le_of_prefix {P H : List (Event T Op Res)} (h : P <+: H) (t : T) :
    (rets P t).length ≤ (rets H t).length := by
  obtain ⟨Q, rfl⟩ := h
  rw [rets_append, List.length_append]
  omega

/-- An operation that has not returned precedes nothing. -/
theorem not_precedes_of_open {H : List (Event T Op Res)} {i j : T × Nat}
    (h : (rets H i.1).length ≤ i.2) : ¬ Precedes H i j := by
  rintro ⟨P, hP, hi, -⟩
  have := rets_length_le_of_prefix hP i.1
  omega

/-- Nothing comes to precede an operation that has been called already. -/
theorem Precedes.of_append {H H' : List (Event T Op Res)} {i j : T × Nat}
    (h : Precedes (H ++ H') i j) (hj : j.2 < (calls H j.1).length) : Precedes H i j := by
  obtain ⟨P, hP, hi, hle⟩ := h
  rcases List.prefix_or_prefix_of_prefix hP (List.prefix_append H H') with hPH | hHP
  · exact ⟨P, hPH, hi, hle⟩
  · have := calls_length_le_of_prefix hHP j.1
    omega

namespace Legal

variable {apply : Op → M → M × Res} {m m' m'' : M} {L L' : List (Entry T Op Res)}

omit [DecidableEq T] in
/-- One legal sequence after the other. -/
theorem append (h : Legal apply m L m') (h' : Legal apply m' L' m'') :
    Legal apply m (L ++ L') m'' := by
  induction h with
  | nil m => exact h'
  | cons he _ ih => exact .cons he (ih h')

omit [DecidableEq T] in
/-- A legal sequence, cut in two. -/
theorem split (h : Legal apply m (L ++ L') m'') :
    ∃ m', Legal apply m L m' ∧ Legal apply m' L' m'' := by
  induction L generalizing m with
  | nil => exact ⟨m, .nil m, h⟩
  | cons e L ih =>
      cases h with
      | cons he rest =>
          obtain ⟨m', h1, h2⟩ := ih rest
          exact ⟨m', .cons he h1, h2⟩

omit [DecidableEq T] in
/-- A legal sequence ends in one state. -/
theorem unique (h : Legal apply m L m') (h' : Legal apply m L m'') : m' = m'' := by
  induction h with
  | nil m =>
      cases h'
      rfl
  | cons he _ ih =>
      cases h' with
      | cons he' rest =>
          obtain ⟨rfl, -⟩ := Prod.mk.inj (he.symm.trans he')
          exact ih rest

omit [DecidableEq T] in
/-- The second part of a legal list is legal from where the first part ends. -/
theorem right (h : Legal apply m (L ++ L') m'') (hl : Legal apply m L m') :
    Legal apply m' L' m'' := by
  obtain ⟨x, h1, h2⟩ := h.split
  rwa [hl.unique h1]

end Legal

end History

/-! ## Observed machines -/

/-- Where the operation of a thread stands: not called, called and open (with the
states passed since the call), or committed with its result. -/
inductive Status (S Op Res : Type)
  | idle
  | pending (op : Op) (since : Set S)
  | done (op : Op) (r : Res)

/-- A machine some of whose steps are calls, returns and commits. -/
structure Observed (S A T Op Res : Type) where
  machine : Machine S A
  event : S → A → Option (Event T Op Res)
  commit : S → A → Option T

namespace Observed

variable {S A T Op Res M : Type} [DecidableEq T] (obj : Observed S A T Op Res)

/-- Runs whose steps all meet `C`, with the history they leave. -/
inductive Run (C : S → A → Prop) : S → List (Event T Op Res) → Prop
  | init : Run C obj.machine.init []
  | step {s s' : S} {a : A} {H : List (Event T Op Res)} (run : Run C s H) (hcond : C s a)
      (hstep : obj.machine.step s a = some s') : Run C s' (H ++ (obj.event s a).toList)

/-- Execute a list of actions and keep the history. -/
def exec : S → List (Event T Op Res) → List A → Option (S × List (Event T Op Res))
  | s, H, [] => some (s, H)
  | s, H, a :: as =>
      (obj.machine.step s a).bind fun s' => exec s' (H ++ (obj.event s a).toList) as

omit [DecidableEq T] in
variable {obj} in
/-- An executed action list is a run. -/
theorem Run.exec {s s' : S} {H H' : List (Event T Op Res)} {as : List A}
    (hrun : obj.Run (fun _ _ => True) s H) (h : obj.exec s H as = some (s', H')) :
    obj.Run (fun _ _ => True) s' H' := by
  induction as generalizing s H with
  | nil =>
      obtain ⟨rfl, rfl⟩ := Prod.mk.inj (Option.some.inj h)
      exact hrun
  | cons a as ih =>
      obtain ⟨mid, hstep, hrest⟩ := Option.bind_eq_some_iff.mp h
      exact ih (hrun.step trivial hstep) hrest

omit [DecidableEq T] in
variable {obj} in
/-- A tested action list extends a run. -/
theorem Run.checked {C : S → A → Prop} {ok : S → A → Bool} (hok : ∀ s a, ok s a = true → C s a)
    {s s' : S} {H : List (Event T Op Res)} {as : List A} (hrun : obj.Run C s H)
    (h : obj.machine.runChecked ok s as = some s') : ∃ H', obj.Run C s' (H ++ H') := by
  induction as generalizing s H with
  | nil =>
      obtain rfl : s = s' := by simpa [Machine.runChecked] using h
      exact ⟨[], by rwa [List.append_nil]⟩
  | cons a as ih =>
      simp only [Machine.runChecked] at h
      split at h
      · obtain ⟨mid, hstep, hrest⟩ := Option.bind_eq_some_iff.mp h
        obtain ⟨H', hrun'⟩ := ih (hrun.step (hok _ _ ‹_›) hstep) hrest
        exact ⟨_, by rwa [List.append_assoc] at hrun'⟩
      · cases h

/-- Every open operation sees the state that has been reached. -/
def observe (s : S) (σ : T → Status S Op Res) : T → Status S Op Res := fun t =>
  match σ t with
  | .pending op since => .pending op (insert s since)
  | x => x

/-- The commit of the open operation of a thread. -/
def close (apply : Op → M → M × Res) (m : M) : Status S Op Res → Status S Op Res
  | .pending op _ => .done op (apply op m).2
  | x => x

/-- How the operations stand after a step that starts in abstract state `m`. -/
def track (apply : Op → M → M × Res) (m : M) (σ : T → Status S Op Res) (s : S) (a : A) (s' : S) :
    T → Status S Op Res :=
  observe s' <|
    match obj.event s a with
    | some (.call t op) => Function.update σ t (.pending op ∅)
    | some (.ret t _) => Function.update σ t .idle
    | none =>
        match obj.commit s a with
        | some t => Function.update σ t (close apply m (σ t))
        | none => σ

/-- What a step owes to the object. -/
def Owes (apply : Op → M → M × Res) (abs : S → M) (σ : T → Status S Op Res)
    (s : S) (a : A) (s' : S) : Prop :=
  match obj.event s a with
  | some (.call t _) => σ t = .idle ∧ abs s' = abs s
  | some (.ret t r) => abs s' = abs s ∧ ∃ op, σ t = .done op r ∨
      ∃ since, σ t = .pending op since ∧ ∃ s₀ ∈ since, apply op (abs s₀) = (abs s₀, r)
  | none =>
      match obj.commit s a with
      | some t => ∃ op since, σ t = .pending op since ∧ abs s' = (apply op (abs s)).1
      | none => abs s' = abs s

/-- An invariant of states and open operations under which every step pays what it
owes to the object. -/
structure Sound (C : S → A → Prop) (apply : Op → M → M × Res) (abs : S → M)
    (I : S → (T → Status S Op Res) → Prop) : Prop where
  init : I obj.machine.init fun _ => .idle
  step : ∀ s σ a s', I s σ → C s a → obj.machine.step s a = some s' →
    I s' (obj.track apply (abs s) σ s a s') ∧ obj.Owes apply abs σ s a s'

/-- The linearization kept for a history whose operations stand as `σ` says. -/
structure Kept (apply : Op → M → M × Res) (m₀ : M) (abs : S → M) (s : S)
    (H : List (Event T Op Res)) (σ : T → Status S Op Res) (L : List (Entry T Op Res)) : Prop where
  lin : Linearization apply m₀ H L (abs s)
  idle : ∀ t, σ t = .idle → (calls H t).length = (rets H t).length
  pending : ∀ t op since, σ t = .pending op since →
    (calls H t).length = (rets H t).length + 1 ∧ (calls H t)[(rets H t).length]? = some op
  done : ∀ t op r, σ t = .done op r → (calls H t).length = (rets H t).length + 1 ∧
    ∃ e ∈ L, e.thread = t ∧ e.index = (rets H t).length ∧ e.res = r
  early : ∀ e ∈ L, (∀ op r, σ e.thread ≠ .done op r) → e.index < (rets H e.thread).length
  since : ∀ t op since s₀, σ t = .pending op since → s₀ ∈ since →
    ∃ L₁ L₂, L = L₁ ++ L₂ ∧ Legal apply m₀ L₁ (abs s₀) ∧
      ∀ e ∈ L₂, ¬ Precedes H e.id (t, (rets H t).length)

namespace Kept

variable {apply : Op → M → M × Res} {m₀ : M} {abs : S → M} {s s' : S}
  {H : List (Event T Op Res)} {σ : T → Status S Op Res} {L : List (Entry T Op Res)}

/-- A step that leaves the object alone. -/
theorem move (h : Kept apply m₀ abs s H σ L) (habs : abs s' = abs s) :
    Kept apply m₀ abs s' H σ L :=
  ⟨habs ▸ h.lin, h.idle, h.pending, h.done, h.early, h.since⟩

omit [DecidableEq T] in
/-- A call that is open stays open, and has seen one more state. -/
theorem observe_pending {t : T} {op : Op} {since : Set S}
    (h : observe s σ t = .pending op since) :
    ∃ since₀, σ t = .pending op since₀ ∧ since = insert s since₀ := by
  unfold observe at h
  split at h
  · rename_i op' since₀ hσ
    injection h with h1 h2
    exact ⟨since₀, by rw [hσ, h1], h2.symm⟩
  · rename_i hno
    exact absurd h (hno op since)

omit [DecidableEq T] in
/-- An operation that has taken effect keeps its result. -/
theorem observe_done {t : T} {op : Op} {r : Res} :
    observe s σ t = .done op r ↔ σ t = .done op r := by
  unfold observe
  split
  · rename_i hσ
    simp [hσ]
  · exact Iff.rfl

omit [DecidableEq T] in
/-- Nobody begins an operation by being watched. -/
theorem observe_idle {t : T} : observe s σ t = .idle ↔ σ t = .idle := by
  unfold observe
  split
  · rename_i hσ
    simp [hσ]
  · exact Iff.rfl

/-- The state that has been reached is one more instant of every open operation. -/
theorem observed (h : Kept apply m₀ abs s H σ L) :
    Kept apply m₀ abs s H (observe s σ) L where
  lin := h.lin
  idle t ht := h.idle t (observe_idle.mp ht)
  pending t op since ht := by
    obtain ⟨since₀, hσ, -⟩ := observe_pending ht
    exact h.pending t op since₀ hσ
  done t op r ht := h.done t op r (observe_done.mp ht)
  early e he hno := h.early e he fun op r hσ => hno op r (observe_done.mpr hσ)
  since t op since s₀ ht hs₀ := by
    obtain ⟨since₀, hσ, rfl⟩ := observe_pending ht
    rcases hs₀ with rfl | hs₀
    · exact ⟨L, [], (List.append_nil L).symm, h.lin.legal, by simp⟩
    · exact h.since t op since₀ s₀ hσ hs₀

/-- A call event is a call of its thread. -/
theorem calls_call (t u : T) (op : Op) :
    calls (H ++ [.call t op]) u = calls H u ++ if t = u then [op] else [] := by
  rw [calls_append]
  by_cases h : t = u <;> simp [calls, h]

/-- A call event is no return. -/
theorem rets_call (t u : T) (op : Op) : rets (H ++ [.call t op]) u = rets H u := by
  rw [rets_append]
  simp [rets]

/-- A return event is no call. -/
theorem calls_ret (t u : T) (r : Res) : calls (H ++ [.ret t r]) u = calls H u := by
  rw [calls_append]
  simp [calls]

/-- A return event is a return of its thread. -/
theorem rets_ret (t u : T) (r : Res) :
    rets (H ++ [.ret t r]) u = rets H u ++ if t = u then [r] else [] := by
  rw [rets_append]
  by_cases h : t = u <;> simp [rets, h]

/-- An entry of the linearization has been called. -/
theorem index_lt (h : Kept apply m₀ abs s H σ L) {e : Entry T Op Res} (he : e ∈ L) :
    e.index < (calls H e.thread).length :=
  List.getElem?_eq_some_iff.mp (h.lin.called e he) |>.1

/-- Real time, after one more event. -/
theorem realTime_append (h : Kept apply m₀ abs s H σ L) (H' : List (Event T Op Res)) :
    L.Pairwise fun e f => ¬ Precedes (H ++ H') f.id e.id := by
  refine h.lin.realTime.imp_of_mem fun he _ hno hp => hno ?_
  exact hp.of_append (h.index_lt he)

/-- The places open operations may still take, after one more event. -/
theorem since_append (h : Kept apply m₀ abs s H σ L) (H' : List (Event T Op Res)) {t : T} {op : Op}
    {since : Set S} (hσ : σ t = .pending op since) {s₀ : S} (hs₀ : s₀ ∈ since) :
    ∃ L₁ L₂, L = L₁ ++ L₂ ∧ Legal apply m₀ L₁ (abs s₀) ∧
      ∀ e ∈ L₂, ¬ Precedes (H ++ H') e.id (t, (rets H t).length) := by
  obtain ⟨L₁, L₂, hL, hlegal, hno⟩ := h.since t op since s₀ hσ hs₀
  refine ⟨L₁, L₂, hL, hlegal, fun e he hp => hno e he (hp.of_append ?_)⟩
  have := (h.pending t op since hσ).1
  simp only
  omega

/-- A call. -/
theorem call (h : Kept apply m₀ abs s H σ L) {t : T} (ht : σ t = .idle) (op : Op) :
    Kept apply m₀ abs s (H ++ [.call t op]) (Function.update σ t (.pending op ∅)) L where
  lin := {
    nodup := h.lin.nodup
    called := fun e he => by
      rw [calls_call, List.getElem?_append_left (h.index_lt he)]
      exact h.lin.called e he
    returned := fun u i r hr => h.lin.returned u i r (by rwa [rets_call] at hr)
    realTime := h.realTime_append _
    legal := h.lin.legal }
  idle u hu := by
    have hut : u ≠ t := by
      rintro rfl
      simp at hu
    have := h.idle u (by simpa [hut] using hu)
    simpa [calls_call, rets_call, Ne.symm hut] using this
  pending u op' since hu := by
    by_cases hut : u = t
    · subst hut
      obtain ⟨rfl, -⟩ : op = op' ∧ _ := by simpa using hu
      have := h.idle u ht
      simp [calls_call, rets_call, ← this]
    · have hu' : σ u = .pending op' since := by simpa [hut] using hu
      simpa [calls_call, rets_call, Ne.symm hut] using h.pending u op' since hu'
  done u op' r hu := by
    have hut : u ≠ t := by
      rintro rfl
      simp at hu
    have hu' : σ u = .done op' r := by simpa [hut] using hu
    simpa [calls_call, rets_call, Ne.symm hut] using h.done u op' r hu'
  early e he hno := by
    rw [rets_call]
    by_cases het : e.thread = t
    · refine h.early e he fun op' r hσ => ?_
      rw [het, ht] at hσ
      cases hσ
    · exact h.early e he (by simpa [het] using hno)
  since u op' since s₀ hu hs₀ := by
    by_cases hut : u = t
    · subst hut
      obtain ⟨-, rfl⟩ : op = op' ∧ ∅ = since := by simpa using hu
      exact hs₀.elim
    · rw [rets_call]
      exact h.since_append _ (by simpa [hut] using hu) hs₀

/-- A commit. -/
theorem commit (h : Kept apply m₀ abs s H σ L) {t : T} {op : Op} {since : Set S}
    (ht : σ t = .pending op since) (habs : abs s' = (apply op (abs s)).1) :
    Kept apply m₀ abs s' H (Function.update σ t (.done op (apply op (abs s)).2))
      (L ++ [⟨t, (rets H t).length, op, (apply op (abs s)).2⟩]) := by
  have hopen := h.pending t op since ht
  have hprec : ∀ j, ¬ Precedes H (t, (rets H t).length) j := fun j =>
    not_precedes_of_open (le_refl _)
  have hearly : ∀ e ∈ L, e.thread = t → e.index < (rets H t).length := by
    intro e he het
    rw [← het]
    refine h.early e he fun op' r hσ => ?_
    rw [het, ht] at hσ
    cases hσ
  refine ⟨⟨?_, ?_, ?_, ?_, ?_⟩, ?_, ?_, ?_, ?_, ?_⟩
  · rw [List.map_append, List.nodup_append]
    refine ⟨h.lin.nodup, by simp, fun i hi j hj => ?_⟩
    obtain ⟨e, he, rfl⟩ := List.mem_map.mp hi
    obtain rfl : j = (t, (rets H t).length) := by simpa [Entry.id] using hj
    intro heq
    obtain ⟨h1, h2⟩ := Prod.mk.inj heq
    exact absurd (hearly e he h1) (by omega)
  · intro e he
    rcases List.mem_append.mp he with he | he
    · exact h.lin.called e he
    · obtain rfl := List.mem_singleton.mp he
      exact hopen.2
  · intro u i r hr
    obtain ⟨e, he, hrest⟩ := h.lin.returned u i r hr
    exact ⟨e, List.mem_append_left _ he, hrest⟩
  · rw [List.pairwise_append]
    refine ⟨h.lin.realTime, List.pairwise_singleton _ _, fun e _ f hf => ?_⟩
    obtain rfl := List.mem_singleton.mp hf
    exact hprec _
  · refine h.lin.legal.append (.cons ?_ (.nil _))
    rw [habs]
  · intro u hu
    have hut : u ≠ t := by
      rintro rfl
      simp at hu
    exact h.idle u (by simpa [hut] using hu)
  · intro u op' since' hu
    have hut : u ≠ t := by
      rintro rfl
      simp at hu
    exact h.pending u op' since' (by simpa [hut] using hu)
  · intro u op' r hu
    by_cases hut : u = t
    · subst hut
      obtain ⟨-, rfl⟩ : op = op' ∧ _ = r := by simpa using hu
      exact ⟨hopen.1, _, List.mem_append_right _ (List.mem_singleton_self _), rfl, rfl, rfl⟩
    · obtain ⟨h1, e, he, hrest⟩ := h.done u op' r (by simpa [hut] using hu)
      exact ⟨h1, e, List.mem_append_left _ he, hrest⟩
  · intro e he hno
    have het : e.thread ≠ t := by
      intro het
      simp [het] at hno
    rcases List.mem_append.mp he with he | he
    · exact h.early e he (by simpa [het] using hno)
    · obtain rfl := List.mem_singleton.mp he
      exact absurd rfl het
  · intro u op' since' s₀ hu hs₀
    have hut : u ≠ t := by
      rintro rfl
      simp at hu
    obtain ⟨L₁, L₂, rfl, hlegal, hno⟩ := h.since u op' since' s₀ (by simpa [hut] using hu) hs₀
    refine ⟨L₁, L₂ ++ [_], by rw [List.append_assoc], hlegal, fun e he => ?_⟩
    rcases List.mem_append.mp he with he | he
    · exact hno e he
    · obtain rfl := List.mem_singleton.mp he
      exact hprec _

/-- The results returned so far, after one more return. -/
theorem returned_ret {t : T} {r : Res}
    (h : ∀ u i r, (rets H u)[i]? = some r → ∃ e ∈ L, e.thread = u ∧ e.index = i ∧ e.res = r)
    (ht : ∃ e ∈ L, e.thread = t ∧ e.index = (rets H t).length ∧ e.res = r) (u : T) (i : Nat)
    (r' : Res) (hr : (rets (H ++ [.ret t r]) u)[i]? = some r') :
    ∃ e ∈ L, e.thread = u ∧ e.index = i ∧ e.res = r' := by
  rw [rets_ret] at hr
  by_cases hut : t = u
  · subst hut
    rw [if_pos rfl] at hr
    rcases Nat.lt_trichotomy i (rets H t).length with hi | hi | hi
    · rw [List.getElem?_append_left hi] at hr
      exact h t i r' hr
    · subst hi
      rw [List.getElem?_concat_length] at hr
      obtain rfl := Option.some.inj hr
      exact ht
    · have hlen := (List.getElem?_eq_some_iff.mp hr).1
      simp only [List.length_append, List.length_singleton] at hlen
      omega
  · rw [if_neg hut, List.append_nil] at hr
    exact h u i r' hr

/-- An open operation whose result was right at an earlier instant is put in its
place there. -/
theorem settle (h : Kept apply m₀ abs s H σ L) {t : T} {op : Op} {since : Set S}
    (ht : σ t = .pending op since) {s₀ : S} (hs₀ : s₀ ∈ since) {r : Res}
    (hr : apply op (abs s₀) = (abs s₀, r)) :
    ∃ L', Kept apply m₀ abs s H (Function.update σ t (.done op r)) L' := by
  obtain ⟨L₁, L₂, rfl, hlegal, hno⟩ := h.since t op since s₀ ht hs₀
  have hopen := h.pending t op since ht
  have hprec : ∀ j, ¬ Precedes H (t, (rets H t).length) j := fun j =>
    not_precedes_of_open (le_refl _)
  have hearly : ∀ e ∈ L₁ ++ L₂, e.thread = t → e.index < (rets H t).length := by
    intro e he het
    rw [← het]
    refine h.early e he fun op' r hσ => ?_
    rw [het, ht] at hσ
    cases hσ
  have hmem : ∀ e : Entry T Op Res, e ∈ L₁ ++ ⟨t, (rets H t).length, op, r⟩ :: L₂ ↔
      e = ⟨t, (rets H t).length, op, r⟩ ∨ e ∈ L₁ ++ L₂ := by
    intro e
    simp only [List.mem_append, List.mem_cons]
    tauto
  have hrt := List.pairwise_append.mp h.lin.realTime
  refine ⟨L₁ ++ ⟨t, (rets H t).length, op, r⟩ :: L₂, ⟨⟨?_, ?_, ?_, ?_, ?_⟩, ?_, ?_, ?_, ?_, ?_⟩⟩
  · rw [List.map_append, List.map_cons, List.nodup_middle, ← List.map_append]
    refine List.nodup_cons.mpr ⟨fun hi => ?_, h.lin.nodup⟩
    obtain ⟨e, he, heq⟩ := List.mem_map.mp hi
    obtain ⟨h1, h2⟩ := Prod.mk.inj heq
    exact absurd (hearly e he h1) (by simp only at h2; omega)
  · intro e he
    rcases (hmem e).mp he with rfl | he
    · exact hopen.2
    · exact h.lin.called e he
  · intro u i r' hr'
    obtain ⟨e, he, hrest⟩ := h.lin.returned u i r' hr'
    exact ⟨e, (hmem e).mpr (.inr he), hrest⟩
  · refine List.pairwise_append.mpr ⟨hrt.1, List.pairwise_cons.mpr ⟨hno, hrt.2.1⟩, ?_⟩
    intro e he f hf
    rcases List.mem_cons.mp hf with rfl | hf
    · exact hprec _
    · exact hrt.2.2 e he f hf
  · exact hlegal.append (.cons hr (h.lin.legal.right hlegal))
  · intro u hu
    have hut : u ≠ t := by
      rintro rfl
      simp at hu
    exact h.idle u (by simpa [hut] using hu)
  · intro u op' since' hu
    have hut : u ≠ t := by
      rintro rfl
      simp at hu
    exact h.pending u op' since' (by simpa [hut] using hu)
  · intro u op' r' hu
    by_cases hut : u = t
    · subst hut
      obtain ⟨-, rfl⟩ : op = op' ∧ r = r' := by simpa using hu
      exact ⟨hopen.1, _, (hmem _).mpr (.inl rfl), rfl, rfl, rfl⟩
    · obtain ⟨h1, e, he, hrest⟩ := h.done u op' r' (by simpa [hut] using hu)
      exact ⟨h1, e, (hmem e).mpr (.inr he), hrest⟩
  · intro e he hno'
    have het : e.thread ≠ t := by
      intro het
      simp [het] at hno'
    rcases (hmem e).mp he with rfl | he
    · exact absurd rfl het
    · exact h.early e he (by simpa [het] using hno')
  · intro u op' since' s₁ hu hs₁
    have hut : u ≠ t := by
      rintro rfl
      simp at hu
    -- the place of another open operation is before or after the new entry
    obtain ⟨A, B, hAB, hlegalA, hnoB⟩ := h.since u op' since' s₁ (by simpa [hut] using hu) hs₁
    rcases List.append_eq_append_iff.mp hAB with ⟨D, rfl, rfl⟩ | ⟨D, rfl, rfl⟩
    · refine ⟨L₁ ++ ⟨t, (rets H t).length, op, r⟩ :: D, B, by simp, ?_, hnoB⟩
      exact hlegal.append (.cons hr (hlegalA.right hlegal))
    · refine ⟨A, D ++ ⟨t, (rets H t).length, op, r⟩ :: L₂, by simp, hlegalA, fun e he => ?_⟩
      simp only [List.mem_append, List.mem_cons] at he
      rcases he with he | rfl | he
      · exact hnoB e (List.mem_append_left _ he)
      · exact hprec _
      · exact hnoB e (List.mem_append_right _ he)

/-- The return of a committed operation. -/
theorem ret (h : Kept apply m₀ abs s H σ L) {t : T} {op : Op} {r : Res}
    (ht : σ t = .done op r) :
    Kept apply m₀ abs s (H ++ [.ret t r]) (Function.update σ t .idle) L := by
  obtain ⟨hlen, hentry⟩ := h.done t op r ht
  refine ⟨⟨h.lin.nodup, ?_, returned_ret h.lin.returned hentry, h.realTime_append _,
    h.lin.legal⟩, ?_, ?_, ?_, ?_, ?_⟩
  · intro e he
    rw [calls_ret]
    exact h.lin.called e he
  · intro u hu
    by_cases hut : u = t
    · subst hut
      simp [calls_ret, rets_ret, hlen]
    · simpa [calls_ret, rets_ret, Ne.symm hut] using h.idle u (by simpa [hut] using hu)
  · intro u op' since hu
    have hut : u ≠ t := by
      rintro rfl
      simp at hu
    simpa [calls_ret, rets_ret, Ne.symm hut] using h.pending u op' since (by simpa [hut] using hu)
  · intro u op' r' hu
    have hut : u ≠ t := by
      rintro rfl
      simp at hu
    simpa [calls_ret, rets_ret, Ne.symm hut] using h.done u op' r' (by simpa [hut] using hu)
  · intro e he hno
    by_cases het : e.thread = t
    · have hidx := h.index_lt he
      rw [het] at hidx ⊢
      simp [rets_ret]
      omega
    · simpa [rets_ret, Ne.symm het] using h.early e he (by simpa [het] using hno)
  · intro u op' since s₀ hu hs₀
    have hut : u ≠ t := by
      rintro rfl
      simp at hu
    have hkeep := h.since_append [.ret t r] (t := u) (by simpa [hut] using hu) hs₀
    simpa [rets_ret, Ne.symm hut] using hkeep

end Kept

/-- **Linearizability from commit points.**  When every step pays what it owes to
the object, every history of the machine is linearizable, and the linearization
leaves the object in the state the run abstracts to. -/
theorem Sound.linearizable {obj : Observed S A T Op Res} {C : S → A → Prop}
    {apply : Op → M → M × Res} {abs : S → M} {I : S → (T → Status S Op Res) → Prop}
    (h : obj.Sound C apply abs I) {s : S} {H : List (Event T Op Res)} (hrun : obj.Run C s H) :
    Linearizable apply (abs obj.machine.init) H (abs s) := by
  suffices hkept : ∃ σ L, I s σ ∧ Kept apply (abs obj.machine.init) abs s H σ L by
    obtain ⟨σ, L, -, hkept⟩ := hkept
    exact ⟨L, hkept.lin⟩
  induction hrun with
  | init =>
      refine ⟨_, [], h.init, ⟨⟨List.nodup_nil, by simp, by simp [rets], .nil, .nil _⟩, ?_, ?_, ?_,
        by simp, ?_⟩⟩
      · simp [calls, rets]
      · intro t op since ht
        cases ht
      · intro t op r ht
        cases ht
      · intro t op since s₀ ht
        cases ht
  | @step s s' a H hrun hcond hstep ih =>
      obtain ⟨σ, L, hI, hkept⟩ := ih
      obtain ⟨hI', howes⟩ := h.step s σ a s' hI hcond hstep
      suffices hnext : ∃ L', Kept apply (abs obj.machine.init) abs s'
          (H ++ (obj.event s a).toList) (obj.track apply (abs s) σ s a s') L' by
        obtain ⟨L', hL'⟩ := hnext
        exact ⟨_, L', hI', hL'⟩
      unfold Owes at howes
      unfold track
      split at howes
      · rename_i t op hev
        simp only [hev, Option.toList]
        exact ⟨L, ((hkept.call howes.1 op).move howes.2).observed⟩
      · rename_i t r hev
        simp only [hev, Option.toList]
        obtain ⟨habs, op, hdone | ⟨since, hpending, s₀, hs₀, hr⟩⟩ := howes
        · exact ⟨L, ((hkept.ret hdone).move habs).observed⟩
        · obtain ⟨L', hL'⟩ := hkept.settle hpending hs₀ hr
          have hret := hL'.ret (Function.update_self t (.done op r) σ)
          rw [Function.update_idem] at hret
          exact ⟨L', (hret.move habs).observed⟩
      · rename_i hev
        simp only [hev, Option.toList, List.append_nil]
        split at howes
        · obtain ⟨op, since, hpending, habs⟩ := howes
          simp only [hpending, close]
          exact ⟨_, (hkept.commit hpending habs).observed⟩
        · exact ⟨L, (hkept.move howes).observed⟩

end Observed
