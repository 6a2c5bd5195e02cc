import LockBench.OccLock

/-!
# The seqlock contract of `occ_lock`

`occ_lock` is one 64-bit version word.  A writer makes it odd with a compare
exchange, works on the protected data and makes it even again with a fetch-add; a
reader takes an even version with `read_begin`, loads what it likes, and asks
`read_validate` whether the version is still the same.

The protected data is any family of locations.  Only a thread that is inside a
write section stores to it, any number of times; a reader loads any locations in
any order and keeps what it saw.  `sections` counts the completed write sections.
It is a ghost: no thread reads it, and it is there because the version wraps.
-/

namespace OccSeqlock

open OccLock (oddWord oddWord_iff)

/-- The version word, the protected data, and the completed write sections. -/
structure Mem (L V : Type) where
  version : BitVec 64
  data : L → V
  sections : Nat

/-- Program points of a thread. -/
inductive Pc (L V : Type)
  | idle
  | writeLoad
  | writeCas (v : BitVec 64)
  | inside
  | readBegin
  | reading (v : BitVec 64) (log : List (L × V))
  | validated (ok : Bool) (log : List (L × V))
  deriving DecidableEq

/-- How a thread's nondeterminism is resolved. -/
inductive Choice (L V : Type)
  | write
  | read
  | spurious
  | store (l : L) (x : V)
  | load (l : L)
  | go

section Program

variable {T L V : Type} [DecidableEq L]

/-- One atomic step of a thread. -/
def next (_ : T) (m : Mem L V) (p : Pc L V) (c : Choice L V) : Option (Mem L V × Pc L V) :=
  match p, c with
  | .idle, .write => some (m, .writeLoad)
  | .idle, .read => some (m, .readBegin)
  -- `write_lock`: load, wait while odd, then a compare exchange that may fail spuriously
  | .writeLoad, .go => some (m, if oddWord m.version then .writeLoad else .writeCas m.version)
  | .writeCas _, .spurious => some (m, .writeLoad)
  | .writeCas v, .go =>
      if m.version = v then some ({ m with version := v + 1 }, .inside) else some (m, .writeLoad)
  | .inside, .store l x => some ({ m with data := Function.update m.data l x }, .inside)
  -- `write_unlock`
  | .inside, .go =>
      some ({ m with version := m.version + 1, sections := m.sections + 1 }, .idle)
  | .readBegin, .go => some (m, if oddWord m.version then .readBegin else .reading m.version [])
  | .reading v log, .load l => some (m, .reading v (log ++ [(l, m.data l)]))
  -- `read_validate`
  | .reading v log, .go => some (m, .validated (m.version == v) log)
  | .validated _ _, .go => some (m, .idle)
  | _, _ => none

/-- Any number of threads on one lock, over data that starts as `data`. -/
def machine (T : Type) [DecidableEq T] (data : L → V) :
    Machine (ScState T (Mem L V) (Pc L V)) (T × Choice L V) :=
  interleave next ⟨0, data, 0⟩ .idle

/-- A thread is between its successful compare exchange and its `write_unlock`. -/
def Inside (s : ScState T (Mem L V) (Pc L V)) (t : T) : Prop := s.pc t = .inside

end Program

/-! ## The invariant -/

theorem toNat_succ (v : BitVec 64) : (v + 1).toNat = (v.toNat + 1) % 2 ^ 64 := by
  simp [BitVec.toNat_add]

section Invariant

variable {T L V : Type} [DecidableEq T] [DecidableEq L] {s s' : ScState T (Mem L V) (Pc L V)}
  {t : T} {data : L → V}

open Classical in
/-- How often the version has been bumped: twice for each completed section, and
once for a writer that is inside. -/
noncomputable def bumps (s : ScState T (Mem L V) (Pc L V)) : Nat :=
  2 * s.mem.sections + if ∃ t, Inside s t then 1 else 0

/-- The version counts the bumps, and only versions without a writer are worked with. -/
structure Inv (s : ScState T (Mem L V) (Pc L V)) : Prop where
  unique : ∀ t u, Inside s t → Inside s u → t = u
  count : s.mem.version.toNat = bumps s % 2 ^ 64
  cas : ∀ t v, s.pc t = .writeCas v → oddWord v = false
  reading : ∀ t v log, s.pc t = .reading v log → oddWord v = false

omit [DecidableEq T] [DecidableEq L] in
theorem bumps_of_free (h : ∀ t, ¬ Inside s t) : bumps s = 2 * s.mem.sections := by
  simp [bumps, h]

omit [DecidableEq T] [DecidableEq L] in
theorem bumps_of_inside (h : Inside s t) : bumps s = 2 * s.mem.sections + 1 := by
  have hex : ∃ t, Inside s t := ⟨t, h⟩
  simp [bumps, hex]

omit [DecidableEq T] [DecidableEq L] in
/-- The version is odd exactly while a writer is inside. -/
theorem Inv.odd_iff_inside (hi : Inv s) : oddWord s.mem.version = true ↔ ∃ t, Inside s t := by
  rw [oddWord_iff, hi.count]
  by_cases h : ∃ t, Inside s t
  · obtain ⟨t, ht⟩ := h
    have hb := bumps_of_inside ht
    exact ⟨fun _ => ⟨t, ht⟩, fun _ => by omega⟩
  · have hb := bumps_of_free (fun t ht => h ⟨t, ht⟩)
    exact ⟨fun ho => by omega, fun h' => absurd h' h⟩

omit [DecidableEq T] [DecidableEq L] in
theorem bumps_congr (hsec : s'.mem.sections = s.mem.sections)
    (hin : ∀ t, Inside s' t ↔ Inside s t) : bumps s' = bumps s := by
  by_cases hex : ∃ t, Inside s t
  · obtain ⟨t, ht⟩ := hex
    rw [bumps_of_inside ht, bumps_of_inside ((hin t).mpr ht), hsec]
  · have hfree : ∀ t, ¬ Inside s t := fun t ht => hex ⟨t, ht⟩
    rw [bumps_of_free hfree, bumps_of_free fun t ht => hfree t ((hin t).mp ht), hsec]

/-- What a step of thread `t` does to the version and to the data. -/
inductive Effect (s s' : ScState T (Mem L V) (Pc L V)) (t : T) : Prop
  | quiet (hmem : s'.mem = s.mem) (hin : Inside s' t ↔ Inside s t)
  | acquire (hv : oddWord s.mem.version = false) (hver : s'.mem.version = s.mem.version + 1)
      (hsec : s'.mem.sections = s.mem.sections) (hdata : s'.mem.data = s.mem.data)
      (hin : Inside s' t)
  | store (hsec : s'.mem.sections = s.mem.sections) (hver : s'.mem.version = s.mem.version)
      (hin : Inside s t) (hin' : Inside s' t)
  | release (hver : s'.mem.version = s.mem.version + 1)
      (hsec : s'.mem.sections = s.mem.sections + 1) (hin : Inside s t) (hin' : ¬ Inside s' t)

/-- **Inversion of a step.** -/
theorem step_effect (hi : Inv s) {c : Choice L V} (h : (machine T data).step s (t, c) = some s') :
    Effect s s' t ∧ (∀ u, u ≠ t → s'.pc u = s.pc u) ∧
      (∀ v, s'.pc t = .writeCas v → oddWord v = false) ∧
      ∀ v log, s'.pc t = .reading v log → oddWord v = false := by
  obtain ⟨m', p', hnext, rfl⟩ := interleave_step_cases h
  suffices hown : Effect s ⟨m', Function.update s.pc t p'⟩ t ∧
      (∀ v, p' = .writeCas v → oddWord v = false) ∧ ∀ v log, p' = .reading v log → oddWord v = false by
    exact ⟨hown.1, fun u hu => by simp [hu], by simpa using hown.2.1, by simpa using hown.2.2⟩
  -- a step that leaves the memory alone and neither enters nor leaves a section
  have hquiet : m' = s.mem → s.pc t ≠ .inside → p' ≠ .inside →
      Effect s ⟨m', Function.update s.pc t p'⟩ t := by
    rintro rfl h1 h2
    exact .quiet rfl (by simp [Inside, h1, h2])
  simp only at hnext
  cases hpc : s.pc t with
  | idle =>
      cases c with
      | write | read =>
          simp only [next, hpc] at hnext
          obtain ⟨rfl, rfl⟩ := Prod.mk.inj (Option.some.inj hnext)
          exact ⟨hquiet rfl (by simp [hpc]) nofun, nofun, nofun⟩
      | _ => simp [next, hpc] at hnext
  | writeLoad =>
      cases c with
      | go =>
          simp only [next, hpc] at hnext
          obtain ⟨rfl, rfl⟩ := Prod.mk.inj (Option.some.inj hnext)
          by_cases ho : oddWord s.mem.version = true
          · rw [if_pos ho] at hquiet ⊢
            exact ⟨hquiet rfl (by simp [hpc]) nofun, nofun, nofun⟩
          · rw [if_neg ho] at hquiet ⊢
            refine ⟨hquiet rfl (by simp [hpc]) nofun, fun v hv => ?_, nofun⟩
            obtain rfl := Pc.writeCas.inj hv
            simpa using ho
      | _ => simp [next, hpc] at hnext
  | writeCas v =>
      cases c with
      | spurious =>
          simp only [next, hpc] at hnext
          obtain ⟨rfl, rfl⟩ := Prod.mk.inj (Option.some.inj hnext)
          exact ⟨hquiet rfl (by simp [hpc]) nofun, nofun, nofun⟩
      | go =>
          simp only [next, hpc] at hnext
          split at hnext
          · rename_i hv
            obtain ⟨rfl, rfl⟩ := Prod.mk.inj (Option.some.inj hnext)
            exact ⟨.acquire (hv ▸ hi.cas t v hpc) (by rw [hv]) rfl rfl (by simp [Inside]), nofun, nofun⟩
          · obtain ⟨rfl, rfl⟩ := Prod.mk.inj (Option.some.inj hnext)
            exact ⟨hquiet rfl (by simp [hpc]) nofun, nofun, nofun⟩
      | _ => simp [next, hpc] at hnext
  | inside =>
      cases c with
      | store l x =>
          simp only [next, hpc] at hnext
          obtain ⟨rfl, rfl⟩ := Prod.mk.inj (Option.some.inj hnext)
          exact ⟨.store rfl rfl hpc (by simp [Inside]), nofun, nofun⟩
      | go =>
          simp only [next, hpc] at hnext
          obtain ⟨rfl, rfl⟩ := Prod.mk.inj (Option.some.inj hnext)
          exact ⟨.release rfl rfl hpc (by simp [Inside]), nofun, nofun⟩
      | _ => simp [next, hpc] at hnext
  | readBegin =>
      cases c with
      | go =>
          simp only [next, hpc] at hnext
          obtain ⟨rfl, rfl⟩ := Prod.mk.inj (Option.some.inj hnext)
          by_cases ho : oddWord s.mem.version = true
          · rw [if_pos ho] at hquiet ⊢
            exact ⟨hquiet rfl (by simp [hpc]) nofun, nofun, nofun⟩
          · rw [if_neg ho] at hquiet ⊢
            refine ⟨hquiet rfl (by simp [hpc]) nofun, nofun, fun v log hv => ?_⟩
            obtain ⟨rfl, -⟩ := Pc.reading.inj hv
            simpa using ho
      | _ => simp [next, hpc] at hnext
  | reading v log =>
      cases c with
      | load l =>
          simp only [next, hpc] at hnext
          obtain ⟨rfl, rfl⟩ := Prod.mk.inj (Option.some.inj hnext)
          refine ⟨hquiet rfl (by simp [hpc]) nofun, nofun, fun w log' hv => ?_⟩
          obtain ⟨rfl, -⟩ := Pc.reading.inj hv
          exact hi.reading t v log hpc
      | go =>
          simp only [next, hpc] at hnext
          obtain ⟨rfl, rfl⟩ := Prod.mk.inj (Option.some.inj hnext)
          exact ⟨hquiet rfl (by simp [hpc]) nofun, nofun, nofun⟩
      | _ => simp [next, hpc] at hnext
  | validated ok log =>
      cases c with
      | go =>
          simp only [next, hpc] at hnext
          obtain ⟨rfl, rfl⟩ := Prod.mk.inj (Option.some.inj hnext)
          exact ⟨hquiet rfl (by simp [hpc]) nofun, nofun, nofun⟩
      | _ => simp [next, hpc] at hnext

/-- A step keeps the invariant, never takes a bump back, and leaves the data alone
unless a writer is inside. -/
theorem step_inv (hi : Inv s) {a : T × Choice L V} (h : (machine T data).step s a = some s') :
    Inv s' ∧ bumps s ≤ bumps s' ∧ ((∃ u, Inside s u) ∨ s'.mem.data = s.mem.data) := by
  obtain ⟨t, c⟩ := a
  obtain ⟨heff, hothers, hcas, hreading⟩ := step_effect hi h
  have hin : ∀ u, u ≠ t → (Inside s' u ↔ Inside s u) := fun u hu => by
    unfold Inside
    rw [hothers u hu]
  have hcas' : ∀ u v, s'.pc u = .writeCas v → oddWord v = false := by
    intro u v hu
    by_cases hut : u = t
    · exact hcas v (hut ▸ hu)
    · exact hi.cas u v (by rwa [hothers u hut] at hu)
  have hreading' : ∀ u v log, s'.pc u = .reading v log → oddWord v = false := by
    intro u v log hu
    by_cases hut : u = t
    · exact hreading v log (hut ▸ hu)
    · exact hi.reading u v log (by rwa [hothers u hut] at hu)
  have hcount := hi.count
  cases heff with
  | quiet hmem hin' =>
      have hall : ∀ u, Inside s' u ↔ Inside s u := fun u => by
        by_cases hut : u = t
        · exact hut ▸ hin'
        · exact hin u hut
      have hb : bumps s' = bumps s := bumps_congr (by rw [hmem]) hall
      refine ⟨⟨fun u w hu hw => hi.unique u w ((hall u).mp hu) ((hall w).mp hw), ?_, hcas',
        hreading'⟩, hb.ge, .inr (by rw [hmem])⟩
      rw [hb, hmem]
      exact hcount
  | acquire hv hver hsec hdata hin' =>
      have hfree : ∀ u, ¬ Inside s u := fun u hu => by
        rw [hi.odd_iff_inside.mpr ⟨u, hu⟩] at hv
        cases hv
      have hb := bumps_of_free hfree
      have hb' := bumps_of_inside hin'
      refine ⟨⟨fun u w hu hw => ?_, ?_, hcas', hreading'⟩, ?_, .inr hdata⟩
      · by_cases hut : u = t
        · by_cases hwt : w = t
          · rw [hut, hwt]
          · exact absurd ((hin w hwt).mp hw) (hfree w)
        · exact absurd ((hin u hut).mp hu) (hfree u)
      · rw [hver, toNat_succ, hb', hsec]
        omega
      · omega
  | store hsec hver hins hins' =>
      have hall : ∀ u, Inside s' u ↔ Inside s u := fun u => by
        by_cases hut : u = t
        · exact hut ▸ iff_of_true hins' hins
        · exact hin u hut
      have hb : bumps s' = bumps s := bumps_congr hsec hall
      refine ⟨⟨fun u w hu hw => hi.unique u w ((hall u).mp hu) ((hall w).mp hw), ?_, hcas',
        hreading'⟩, hb.ge, .inl ⟨t, hins⟩⟩
      rw [hb, hver]
      exact hcount
  | release hver hsec hins hnot =>
      have hfree : ∀ u, ¬ Inside s' u := fun u hu => by
        by_cases hut : u = t
        · exact hnot (hut ▸ hu)
        · exact hut (hi.unique u t ((hin u hut).mp hu) hins)
      have hb := bumps_of_inside hins
      have hb' := bumps_of_free hfree
      refine ⟨⟨fun u w hu => absurd hu (hfree u), ?_, hcas', hreading'⟩, ?_, .inl ⟨t, hins⟩⟩
      · rw [hver, toNat_succ, hb', hsec]
        omega
      · omega

theorem init_inv (data : L → V) : Inv (machine T data).init := by
  have hfree : ∀ t, ¬ Inside (machine T data).init t := fun t h => nomatch h
  refine ⟨fun t u h => absurd h (hfree t), ?_, fun t v h => (nomatch h),
    fun t v log h => (nomatch h)⟩
  rw [bumps_of_free hfree]
  rfl

theorem reachable_inv (h : (machine T data).Reachable s) : Inv s :=
  h.invariant (init_inv data) fun _ _ _ hi _ hstep => (step_inv hi hstep).1

omit [DecidableEq T] [DecidableEq L] in
/-- An even number of bumps leaves no writer inside. -/
theorem free_of_bumps {n : Nat} (h : bumps s = 2 * n) (u : T) : ¬ Inside s u := by
  intro hu
  have := bumps_of_inside hu
  omega

end Invariant

/-! ## The window of a validated read -/

section Window

variable {T L V : Type} [DecidableEq T] [DecidableEq L] {t : T} {data : L → V}
  {v : BitVec 64} {log : List (L × V)} {s₁ s₂ : ScState T (Mem L V) (Pc L V)}
  {as : List (T × Choice L V)}

/-- `read_begin` of thread `t` returned `v` in `s₁`, the loads `log` followed, and
`read_validate(v)` returned true in `s₂`; `as` are the steps in between. -/
structure Attempt (data : L → V) (t : T) (v : BitVec 64) (log : List (L × V))
    (s₁ : ScState T (Mem L V) (Pc L V)) (as : List (T × Choice L V))
    (s₂ : ScState T (Mem L V) (Pc L V)) : Prop where
  begin : ∃ s₀, (machine T data).Reachable s₀ ∧ s₀.pc t = .readBegin ∧
    (machine T data).step s₀ (t, .go) = some s₁
  started : s₁.pc t = .reading v []
  path : (machine T data).Path (fun s _ => ∃ log, s.pc t = .reading v log) s₁ as s₂
  loaded : s₂.pc t = .reading v log
  valid : ∃ s₃, (machine T data).step s₂ (t, .go) = some s₃ ∧ s₃.pc t = .validated true log

/-- Along a path the invariant stays and the bumps only grow. -/
theorem path_inv {C : ScState T (Mem L V) (Pc L V) → T × Choice L V → Prop}
    (hp : (machine T data).Path C s₁ as s₂) (hi : Inv s₁) : Inv s₂ ∧ bumps s₁ ≤ bumps s₂ := by
  induction hp with
  | nil s => exact ⟨hi, le_refl _⟩
  | cons hstep _ _ ih =>
      obtain ⟨hi', hle, -⟩ := step_inv hi hstep
      obtain ⟨hi₂, hle₂⟩ := ih hi'
      exact ⟨hi₂, le_trans hle hle₂⟩

/-- Along a path without a bump the data stays as it is. -/
theorem path_data {C : ScState T (Mem L V) (Pc L V) → T × Choice L V → Prop}
    (hp : (machine T data).Path C s₁ as s₂) (hi : Inv s₁) {n : Nat} (h₁ : bumps s₁ = 2 * n)
    (h₂ : bumps s₂ = 2 * n) : s₂.mem.data = s₁.mem.data := by
  induction hp with
  | nil s => rfl
  | cons hstep _ htail ih =>
      obtain ⟨hi', hle, hdata⟩ := step_inv hi hstep
      have hle₂ := (path_inv htail hi').2
      have hdata := hdata.resolve_left fun ⟨u, hu⟩ => free_of_bumps h₁ u hu
      rw [ih hi' (by omega) h₂, hdata]

/-- Along a path without a bump every load sees the same data. -/
theorem path_log {log₀ : List (L × V)}
    (hp : (machine T data).Path (fun s _ => ∃ log, s.pc t = .reading v log) s₁ as s₂)
    (hi : Inv s₁) {n : Nat} (h₁ : bumps s₁ = 2 * n) (h₂ : bumps s₂ = 2 * n)
    (hstart : s₁.pc t = .reading v log₀) (hlog : ∀ e ∈ log₀, e.2 = s₁.mem.data e.1)
    (hend : s₂.pc t = .reading v log) : ∀ e ∈ log, e.2 = s₁.mem.data e.1 := by
  induction hp generalizing log₀ with
  | nil s =>
      obtain ⟨-, rfl⟩ := Pc.reading.inj (hstart.symm.trans hend)
      exact hlog
  | @cons s s' s'' a as hstep hcond htail ih =>
      obtain ⟨hi', hle, hdata⟩ := step_inv hi hstep
      have hle₂ := (path_inv htail hi').2
      have hdata := hdata.resolve_left fun ⟨u, hu⟩ => free_of_bumps h₁ u hu
      -- the reader is still at its loads after the step
      obtain ⟨log', hlog'⟩ : ∃ log', s'.pc t = .reading v log' := by
        cases htail with
        | nil => exact ⟨log, hend⟩
        | cons _ hcond' _ => exact hcond'
      rw [← hdata]
      refine ih hi' (by omega) h₂ hlog' ?_ hend
      rw [hdata]
      obtain ⟨m', p', hnext, rfl⟩ := interleave_step_cases hstep
      by_cases hat : a.1 = t
      · obtain ⟨u, c⟩ := a
        subst hat
        have hp' : p' = .reading v log' := by simpa using hlog'
        subst hp'
        simp only [hstart] at hnext
        cases c with
        | load l =>
            obtain ⟨rfl, hp'⟩ := Prod.mk.inj (Option.some.inj hnext)
            obtain ⟨-, rfl⟩ := Pc.reading.inj hp'
            intro e he
            rcases List.mem_append.mp he with he | he
            · exact hlog e he
            · obtain rfl := List.mem_singleton.mp he
              rfl
        | go => exact nomatch (Prod.mk.inj (Option.some.inj hnext)).2
        | _ => exact nomatch hnext
      · have : s.pc t = .reading v log' := by simpa [Ne.symm hat] using hlog'
        obtain ⟨-, rfl⟩ := Pc.reading.inj (hstart.symm.trans this)
        exact hlog

/-- A validated attempt with fewer than `2^63` sections in between saw no bump at all. -/
theorem Attempt.bumps_eq (h : Attempt data t v log s₁ as s₂)
    (hfew : s₂.mem.sections < s₁.mem.sections + 2 ^ 63) :
    Inv s₁ ∧ bumps s₁ = 2 * s₁.mem.sections ∧ bumps s₂ = 2 * s₁.mem.sections := by
  obtain ⟨s₀, hreach, hpc₀, hbegin⟩ := h.begin
  have hi₁ := (step_inv (reachable_inv hreach) hbegin).1
  obtain ⟨hi₂, hle⟩ := path_inv h.path hi₁
  -- the version that was taken, and the version that was compared
  have hv₁ : s₁.mem.version = v := by
    obtain ⟨m', p', hnext, rfl⟩ := interleave_step_cases hbegin
    have hp' : p' = .reading v [] := by simpa using h.started
    simp only [next, hpc₀] at hnext
    obtain ⟨rfl, rfl⟩ := Prod.mk.inj (Option.some.inj hnext)
    split at hp'
    · cases hp'
    · exact (Pc.reading.inj hp').1
  have hv₂ : s₂.mem.version = v := by
    obtain ⟨s₃, hstep, hpc₃⟩ := h.valid
    obtain ⟨m', p', hnext, rfl⟩ := interleave_step_cases hstep
    have hp' : p' = .validated true log := by simpa using hpc₃
    simp only [next, h.loaded] at hnext
    obtain ⟨rfl, rfl⟩ := Prod.mk.inj (Option.some.inj hnext)
    exact eq_of_beq (Pc.validated.inj hp').1
  have heven : oddWord v = false := hi₁.reading t v [] h.started
  have hfree : ∀ {s : ScState T (Mem L V) (Pc L V)}, Inv s → s.mem.version = v →
      bumps s = 2 * s.mem.sections := by
    intro s hi hv
    refine bumps_of_free fun u hu => ?_
    rw [← hv, hi.odd_iff_inside.mpr ⟨u, hu⟩] at heven
    cases heven
  have hb₁ := hfree hi₁ hv₁
  have hb₂ := hfree hi₂ hv₂
  have hc₁ := hi₁.count
  have hc₂ := hi₂.count
  rw [hv₁] at hc₁
  rw [hv₂] at hc₂
  refine ⟨hi₁, hb₁, ?_⟩
  omega

/-- **The seqlock contract.**  The version is odd exactly while a writer is inside,
at most one is, and between a `read_begin` and a `read_validate` that returns true
with fewer than `2^63` write sections completed no writer is inside at any instant,
so every load in between sees one and the same protected state. -/
theorem seqlock_contract (data : L → V) :
    (∀ s, (machine T data).Reachable s →
      (oddWord s.mem.version = true ↔ ∃ t, Inside s t) ∧ ∀ t u, Inside s t → Inside s u → t = u) ∧
    ∀ t v log s₁ as s₂, Attempt data t v log s₁ as s₂ →
      s₂.mem.sections < s₁.mem.sections + 2 ^ 63 →
      (∀ as₁ as₂ s, as = as₁ ++ as₂ → (machine T data).Path (fun _ _ => True) s₁ as₁ s →
        (machine T data).Path (fun _ _ => True) s as₂ s₂ →
        (∀ u, ¬ Inside s u) ∧ s.mem.data = s₁.mem.data) ∧
      ∀ e ∈ log, e.2 = s₁.mem.data e.1 := by
  refine ⟨fun s hs => ⟨(reachable_inv hs).odd_iff_inside, (reachable_inv hs).unique⟩, ?_⟩
  intro t v log s₁ as s₂ hatt hfew
  obtain ⟨hi₁, hb₁, hb₂⟩ := hatt.bumps_eq hfew
  refine ⟨fun as₁ as₂ s _ hp₁ hp₂ => ?_, ?_⟩
  · obtain ⟨hi, hle⟩ := path_inv hp₁ hi₁
    have hle₂ := (path_inv hp₂ hi).2
    have hb : bumps s = 2 * s₁.mem.sections := by omega
    exact ⟨free_of_bumps hb, path_data hp₁ hi₁ hb₁ hb⟩
  · exact path_log hatt.path hi₁ hb₁ hb₂ hatt.started (by simp) hatt.loaded

end Window

/-- One write section, then a reader that has begun. -/
def sampleStart : List (Fin 2 × Choice (Fin 2) Nat) :=
  [(1, .write), (1, .go), (1, .go), (1, .store 1 5), (1, .go), (0, .read)]

/-- Two loads, and a writer in between that does not get in. -/
def sampleWindow : List (Fin 2 × Choice (Fin 2) Nat) :=
  [(0, .load 0), (1, .write), (1, .go), (1, .spurious), (0, .load 1)]

/-- The reader is at its loads, with version 2. -/
def sampleReading (s : ScState (Fin 2) (Mem (Fin 2) Nat) (Pc (Fin 2) Nat)) : Bool :=
  match s.pc 0 with
  | .reading v _ => v == 2
  | _ => false

theorem seqlock_contract_sample : ∃ s₁ s₂,
    Attempt (fun _ : Fin 2 => 0) (0 : Fin 2) 2 [(0, 0), (1, 5)] s₁ sampleWindow s₂ ∧
      s₂.mem.sections < s₁.mem.sections + 2 ^ 63 ∧
      ∀ e ∈ [((0 : Fin 2), 0), (1, 5)], e.2 = s₁.mem.data e.1 := by
  let M := machine (Fin 2) (fun _ : Fin 2 => 0)
  have hreading : ∀ (s : ScState (Fin 2) (Mem (Fin 2) Nat) (Pc (Fin 2) Nat))
      (_ : Fin 2 × Choice (Fin 2) Nat), sampleReading s = true →
      ∃ log, s.pc 0 = .reading 2 log := by
    intro s _ h
    unfold sampleReading at h
    split at h
    · rename_i v log hpc
      exact ⟨log, by rw [hpc, eq_of_beq h]⟩
    · cases h
  have hrun : ((M.run sampleStart).bind fun s₀ => (M.step s₀ (0, .go)).bind fun s₁ =>
      (M.runChecked (fun s _ => sampleReading s) s₁ sampleWindow).bind fun s₂ =>
        (M.step s₂ (0, .go)).map fun s₃ => decide (s₀.pc 0 = .readBegin ∧ s₁.pc 0 = .reading 2 [] ∧
          s₂.pc 0 = .reading 2 [(0, 0), (1, 5)] ∧ s₃.pc 0 = .validated true [(0, 0), (1, 5)] ∧
          s₁.mem.sections = 1 ∧ s₂.mem.sections = 1)) = some true := by
    decide
  obtain ⟨s₀, h₀, hrun⟩ := Option.bind_eq_some_iff.mp hrun
  obtain ⟨s₁, h₁, hrun⟩ := Option.bind_eq_some_iff.mp hrun
  obtain ⟨s₂, h₂, hrun⟩ := Option.bind_eq_some_iff.mp hrun
  obtain ⟨s₃, h₃, hrun⟩ := Option.map_eq_some_iff.mp hrun
  obtain ⟨hp₀, hp₁, hp₂, hp₃, hn₁, hn₂⟩ := of_decide_eq_true hrun
  have hatt : Attempt (fun _ : Fin 2 => 0) (0 : Fin 2) 2 [(0, 0), (1, 5)] s₁ sampleWindow s₂ :=
    ⟨⟨s₀, Machine.reachable_of_run h₀, hp₀, h₁⟩, hp₁, Machine.path_of_runChecked hreading h₂, hp₂,
      ⟨s₃, h₃, hp₃⟩⟩
  have hfew : s₂.mem.sections < s₁.mem.sections + 2 ^ 63 := by
    rw [hn₁, hn₂]
    decide
  exact ⟨s₁, s₂, hatt, hfew, ((seqlock_contract _).2 _ _ _ _ _ _ hatt hfew).2⟩

end OccSeqlock
