import LockBench.StoreBuffer

/-!
# Published readers and a draining scan

The counting half of a slot-based reader-writer lock, over any program whose
points say whether their thread is published in its slot, whether it is inside
as a reader, and which slots its own scan has already passed.

`Roles.Inv` ties the counters to the program points: each counter is the number
of published threads of its slot (as a 32-bit integer), and no reader is inside
in a slot that a scan has passed.  The rules below say what one move of one
thread has to show to keep it.
-/

namespace ReaderSlots

/-- Arithmetic of a 32-bit signed integer. -/
def int32 (x : Int) : Int := Int.bmod x (2 ^ 32)

theorem int32_add (x d : Int) : int32 (int32 x + d) = int32 (x + d) :=
  Int.bmod_add_bmod ..

/-- Below the signed range a count is represented exactly. -/
theorem int32_of_lt {n : Nat} (h : n < 2 ^ 31) : int32 n = n := by
  unfold int32
  rw [Int.bmod_eq_of_le] <;> omega

/-- Below the full range only the zero count is represented by zero. -/
theorem eq_zero_of_int32 {n : Nat} (h : n < 2 ^ 32) (hz : int32 n = 0) : n = 0 := by
  unfold int32 at hz
  have hdvd := Int.dvd_of_bmod_eq_zero hz
  omega

/-- What the program points of a slot-based lock stand for. -/
structure Roles (P : Type) (N : Nat) where
  published : P → Bool
  inside : P → Bool
  drained : Fin N → P → Bool
  inside_published : ∀ p, inside p = true → published p = true

/-- Where a scan goes from slot `i` once that slot was seen to be zero. -/
def scanNext {P : Type} {N : Nat} (i : Fin N) (next : Fin N → P) (last : P) : P :=
  if h : i.val + 1 < N then next ⟨i.val + 1, h⟩ else last

theorem scanNext_cases {P : Type} {N : Nat} (i : Fin N) (next : Fin N → P) (last : P) :
    (∃ h : i.val + 1 < N, scanNext i next last = next ⟨i.val + 1, h⟩) ∨
      ((∀ j : Fin N, j ≤ i) ∧ scanNext i next last = last) := by
  unfold scanNext
  split
  · exact .inl ⟨‹_›, rfl⟩
  · refine .inr ⟨fun j => Fin.le_def.mpr ?_, rfl⟩
    omega

variable {T P : Type} [Fintype T] {N : Nat} {R : Roles P N} {slotOf : T → Fin N}

/-- The number of threads of slot `i` that are published. -/
def publishedIn (R : Roles P N) (slotOf : T → Fin N) (pc : T → P) (i : Fin N) : Nat :=
  (Finset.univ.filter fun u => slotOf u = i ∧ R.published (pc u) = true).card

theorem publishedIn_le (pc : T → P) (i : Fin N) :
    publishedIn R slotOf pc i ≤ Fintype.card T :=
  Finset.card_le_univ _

/-- Counters count, and scanned slots hold no reader. -/
structure Roles.Inv (R : Roles P N) (slotOf : T → Fin N) (pc : T → P)
    (count : Fin N → Int) : Prop where
  count : ∀ i, count i = int32 (publishedIn R slotOf pc i)
  drain : ∀ t u, R.drained (slotOf u) (pc t) = true → R.inside (pc u) = false

/-- A counter that reads zero shows that nobody is published in its slot. -/
theorem Roles.Inv.not_published {pc : T → P} {count : Fin N → Int}
    (h : R.Inv slotOf pc count) (hT : Fintype.card T < 2 ^ 32) {u : T}
    (hz : count (slotOf u) = 0) : R.published (pc u) = false := by
  have hzero : publishedIn R slotOf pc (slotOf u) = 0 := by
    refine eq_zero_of_int32 (lt_of_le_of_lt (publishedIn_le _ _) hT) ?_
    rw [← h.count, hz]
  by_contra hpub
  have hmem : u ∈ Finset.univ.filter
      fun v => slotOf v = slotOf u ∧ R.published (pc v) = true := by
    simpa using hpub
  rw [publishedIn, Finset.card_eq_zero] at hzero
  simp [hzero] at hmem

/-- A counter that reads zero shows that nobody is inside in its slot. -/
theorem Roles.Inv.not_inside {pc : T → P} {count : Fin N → Int}
    (h : R.Inv slotOf pc count) (hT : Fintype.card T < 2 ^ 32) {u : T}
    (hz : count (slotOf u) = 0) : R.inside (pc u) = false := by
  by_contra hin
  have hpub := R.inside_published _ (by simpa using hin)
  simp [h.not_published hT hz] at hpub

/-- The obligations of a thread that moves to `p`: what its scan has newly
passed holds no reader, and if it is inside then no scan has passed its slot. -/
structure Roles.MoveOk (R : Roles P N) (slotOf : T → Fin N) (pc : T → P) (t : T)
    (p : P) : Prop where
  scan : ∀ u, u ≠ t → R.drained (slotOf u) p = true → R.inside (pc u) = false
  self : R.drained (slotOf t) p = true → R.inside p = false
  enter : R.inside p = true → ∀ u, u ≠ t → R.drained (slotOf t) (pc u) = false

/-- A move that neither enters as a reader nor advances a scan is harmless. -/
theorem Roles.Inv.moveOk {pc : T → P} {count : Fin N → Int}
    (h : R.Inv slotOf pc count) {t : T} {p : P} (hin : R.inside p = false)
    (hscan : ∀ i, R.drained i p = true → R.drained i (pc t) = true) :
    R.MoveOk slotOf pc t p :=
  ⟨fun u _ hd => h.drain t u (hscan _ hd), fun _ => hin, fun hi => by simp [hin] at hi⟩

omit [Fintype T] in
/-- A reader may enter where no scan of another thread has passed its slot. -/
theorem Roles.enterOk {pc : T → P} {t : T} {p : P} (hscan : ∀ i, R.drained i p = false)
    (hfree : ∀ u, u ≠ t → R.drained (slotOf t) (pc u) = true → False) :
    R.MoveOk slotOf pc t p :=
  ⟨fun u _ hd => by simp [hscan] at hd, fun hd => by simp [hscan] at hd,
    fun _ u hu => Bool.eq_false_iff.mpr (hfree u hu)⟩

/-- A reader that is inside may stay inside. -/
theorem Roles.Inv.stayOk {pc : T → P} {count : Fin N → Int}
    (h : R.Inv slotOf pc count) {t : T} {p : P} (hscan : ∀ i, R.drained i p = false)
    (hin : R.inside (pc t) = true) : R.MoveOk slotOf pc t p :=
  Roles.enterOk hscan fun u _ hd => by simp [h.drain u t hd] at hin

/-- A scan that saw slot `i` at zero may pass it. -/
theorem Roles.Inv.scanOk {pc : T → P} {count : Fin N → Int} (h : R.Inv slotOf pc count)
    (hT : Fintype.card T < 2 ^ 32) {t : T} {i : Fin N} {p : P} (hz : count i = 0)
    (hin : R.inside p = false) (hbefore : ∀ j, j < i → R.drained j (pc t) = true)
    (hp : ∀ j, R.drained j p = true → j ≤ i) : R.MoveOk slotOf pc t p := by
  refine ⟨fun u _ hd => ?_, fun _ => hin, fun hi => by simp [hin] at hi⟩
  rcases lt_or_eq_of_le (hp _ hd) with hlt | heq
  · exact h.drain t u (hbefore _ hlt)
  · exact h.not_inside hT (by rw [heq]; exact hz)

variable [DecidableEq T]

/-- Moving one thread changes the published count of a slot by what that thread
contributes before and after. -/
theorem publishedIn_update (R : Roles P N) (slotOf : T → Fin N) (pc : T → P) (t : T) (p : P) (i : Fin N) :
    (publishedIn R slotOf (Function.update pc t p) i : Int) =
      publishedIn R slotOf pc i
        + (if slotOf t = i ∧ R.published p = true then 1 else 0)
        - (if slotOf t = i ∧ R.published (pc t) = true then 1 else 0) :=
  card_filter_update (fun u (p : P) => slotOf u = i ∧ R.published p = true) pc t p

theorem Roles.Inv.drain_update {pc : T → P} {count : Fin N → Int}
    (h : R.Inv slotOf pc count) {t : T} {p : P} (ok : R.MoveOk slotOf pc t p) (u v : T)
    (hd : R.drained (slotOf v) (Function.update pc t p u) = true) :
    R.inside (Function.update pc t p v) = false := by
  by_cases hu : u = t
  · subst hu
    rw [Function.update_self] at hd
    by_cases hv : v = u
    · subst hv
      simpa using ok.self hd
    · simpa [hv] using ok.scan v hv hd
  · rw [Function.update_of_ne hu] at hd
    by_cases hv : v = t
    · subst hv
      by_contra hi
      simp only [Function.update_self, Bool.not_eq_false] at hi
      simp [ok.enter hi u hu] at hd
    · simpa [hv] using h.drain u v hd

/-- **Move without a counter access.** -/
theorem Roles.Inv.stay {pc : T → P} {count : Fin N → Int} (h : R.Inv slotOf pc count)
    {t : T} {p : P} (hpub : R.published p = R.published (pc t))
    (ok : R.MoveOk slotOf pc t p) :
    R.Inv slotOf (Function.update pc t p) count := by
  refine ⟨fun i => ?_, h.drain_update ok⟩
  have hc := publishedIn_update R slotOf pc t p i
  rw [hpub, add_sub_cancel_right] at hc
  rw [hc]
  exact h.count i

/-- **Move through a counter access.**  The counter of the thread's slot changes
by exactly what the thread's publication changes. -/
theorem Roles.Inv.count_move {pc : T → P} {count : Fin N → Int}
    (h : R.Inv slotOf pc count) {t : T} {p : P} {d : Int}
    (hd : d = (if R.published p = true then 1 else 0) -
      (if R.published (pc t) = true then 1 else 0))
    (ok : R.MoveOk slotOf pc t p) :
    R.Inv slotOf (Function.update pc t p)
      (Function.update count (slotOf t) (int32 (count (slotOf t) + d))) := by
  refine ⟨fun i => ?_, h.drain_update ok⟩
  rw [publishedIn_update]
  by_cases hi : slotOf t = i
  · subst hi
    rw [Function.update_self, h.count, int32_add, hd]
    simp only [true_and]
    congr 1
    ring
  · rw [Function.update_of_ne (Ne.symm hi), h.count]
    simp [hi]

end ReaderSlots
