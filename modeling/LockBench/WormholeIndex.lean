import LockBench.Interleave

/-!
# Lifetimes of `wormhole_index` objects

A `wormhole_index` does not use its own `map_` in `get`, `put` and `remove`: the
map is found through one process-wide slot and a reference that each thread caches
in a thread-local guard.  This file follows the slot, the guards and the maps
through constructions, calls, destructions and thread exits, one access at a time.

A map is its address together with the number of its creation, because
`wormhole_create` may return the address of a map that was destroyed.  A reference
is good for one creation; using it when that map is gone is what must not happen.
`wormhole_create` and `wormhole_ref` succeed.

Two objects alive at once share the slot, so a call on the first one acts on the
map of the second; and a thread that outlives an object it used keeps a reference
to a destroyed map, which `ensure_current` hands to `wormhole_unref`.  The harness
does neither: objects follow one another, and workers exit before the object dies.
Under that discipline every call acts on its own object's map.
-/

namespace WormholeIndex

/-- Addresses of maps. -/
abbrev Addr := Nat

/-- `wh_thread_guard`. -/
structure Guard where
  attachedMap : Option Addr
  ref : Option Nat
  deriving DecidableEq

/-- A guard that holds nothing. -/
def Guard.empty : Guard :=
  ⟨none, none⟩

/-- The life of an object, with the address of its `map_` and the number of the
creation that gave it. -/
inductive Life
  | unborn
  | constructing (a : Addr) (i : Nat)
  | alive (a : Addr) (i : Nat)
  | dying (a : Addr) (i : Nat)
  | dead
  deriving DecidableEq

/-- The object exists, in whatever part of its life. -/
def Life.exists : Life → Bool
  | .unborn | .dead => false
  | _ => true

/-- The slot, the maps, the objects and the guards. -/
structure Mem (T O : Type) where
  slot : Option Addr
  live : Addr → Option Nat
  created : Nat
  obj : O → Life
  guard : T → Guard

/-- Program points of a thread: of the constructor, of the destructor, of `get`,
`put` and `remove`, and of the guard's destructor. -/
inductive Pc (O : Type)
  | idle
  | storeSlot (o : O)
  | detach (o : O)
  | detachUnref (o : O) (r : Nat)
  | clearSlot (o : O)
  | destroyMap (o : O)
  | current (o : O)
  | currentUnref (o : O) (cur : Option Addr) (r : Nat)
  | currentRef (o : O) (cur : Addr)
  | testRef (o : O)
  | act (o : O) (r : Nat)
  | noRef (o : O)
  | exitTest
  | exitUnref (r : Nat)
  | exited
  deriving DecidableEq

/-- What an idle thread does next, or a step of what it is doing. -/
inductive Choice (O : Type)
  | construct (o : O) (a : Addr)
  | destroy (o : O)
  | call (o : O)
  | exit
  | go
  deriving DecidableEq

section

variable {T O : Type} [DecidableEq T] [DecidableEq O]

/-- Change the life of an object. -/
def Mem.setObj (m : Mem T O) (o : O) (l : Life) : Mem T O :=
  { m with obj := Function.update m.obj o l }

/-- Change a thread's guard. -/
def Mem.setGuard (m : Mem T O) (t : T) (g : Guard) : Mem T O :=
  { m with guard := Function.update m.guard t g }

/-- `ensure_current` behind `wormhole_unref`: attach to what was in the slot. -/
def attach (m : Mem T O) (t : T) (o : O) : Option Addr → Mem T O × Pc O
  | some a => (m, .currentRef o a)
  | none => (m.setGuard t .empty, .testRef o)

/-- One access of a thread. -/
def next (t : T) (m : Mem T O) (p : Pc O) (c : Choice O) : Option (Mem T O × Pc O) :=
  match p with
  | .idle =>
      match c with
      | .construct o a =>
          if m.obj o = .unborn ∧ m.live a = none then
            some ({ m.setObj o (.constructing a m.created) with
              live := Function.update m.live a (some m.created)
              created := m.created + 1 }, .storeSlot o)
          else none
      | .destroy o =>
          match m.obj o with
          | .alive a i => some (m.setObj o (.dying a i), .detach o)
          | _ => none
      | .call o =>
          match m.obj o with
          | .alive _ _ => some (m, .current o)
          | _ => none
      | .exit => some (m, .exitTest)
      | .go => none
  | .storeSlot o =>
      match m.obj o with
      | .constructing a i => some ({ m.setObj o (.alive a i) with slot := some a }, .idle)
      | _ => none
  | .detach o =>
      match m.obj o, (m.guard t).ref with
      | .dying a _, some r =>
          some (m, if (m.guard t).attachedMap = some a then .detachUnref o r else .clearSlot o)
      | .dying _ _, none => some (m, .clearSlot o)
      | _, _ => none
  | .detachUnref o _ => some (m.setGuard t .empty, .clearSlot o)
  | .clearSlot o => some ({ m with slot := none }, .destroyMap o)
  | .destroyMap o =>
      match m.obj o with
      | .dying a _ => some ({ m.setObj o .dead with live := Function.update m.live a none }, .idle)
      | _ => none
  | .current o =>
      if m.slot = (m.guard t).attachedMap then some (m, .testRef o)
      else
        match (m.guard t).ref, (m.guard t).attachedMap with
        | some r, some _ => some (m, .currentUnref o m.slot r)
        | _, _ => some (attach m t o m.slot)
  | .currentUnref o cur _ => some (attach m t o cur)
  | .currentRef o a =>
      match m.live a with
      | some i => some (m.setGuard t ⟨some a, some i⟩, .testRef o)
      | none => none
  | .testRef o =>
      match (m.guard t).ref with
      | some r => some (m, .act o r)
      | none => some (m, .noRef o)
  | .act _ _ => some (m, .idle)
  | .noRef _ => some (m, .idle)
  | .exitTest =>
      match (m.guard t).ref, (m.guard t).attachedMap with
      | some r, some a =>
          if m.slot = some a then some (m, .exitUnref r)
          else some (m.setGuard t .empty, .exited)
      | _, _ => some (m.setGuard t .empty, .exited)
  | .exitUnref _ => some (m.setGuard t .empty, .exited)
  | .exited => none

variable (T O) in
/-- Any number of threads and objects; nothing exists at first. -/
def machine : Machine (ScState T (Mem T O) (Pc O)) (T × Choice O) :=
  interleave next ⟨none, fun _ => none, 0, fun _ => .unborn, fun _ => .empty⟩ .idle

/-- The thread is in a call on the object. -/
def Pc.uses (o : O) : Pc O → Bool
  | .current o' | .currentUnref o' _ _ | .currentRef o' _ | .testRef o' | .act o' _ | .noRef o' =>
      o' = o
  | _ => false

/-- An object is used only before the start of its destruction.  (That it is used
only after its construction is in the step itself.) -/
def Lawful (s : ScState T (Mem T O) (Pc O)) (a : T × Choice O) : Prop :=
  ∀ o, a.2 = .destroy o → ∀ u, (s.pc u).uses o = false

/-- Objects follow one another, and no other thread is attached to the map of an
object whose destruction starts. -/
structure OneAtATime (s : ScState T (Mem T O) (Pc O)) (a : T × Choice O) : Prop where
  construct : ∀ o b, a.2 = .construct o b → ∀ o', (s.mem.obj o').exists = false
  destroy : ∀ o b i, a.2 = .destroy o → s.mem.obj o = .alive b i →
    ∀ u, u ≠ a.1 → (s.mem.guard u).ref ≠ some i

/-- The map of a creation has not been destroyed. -/
def Mem.Live (m : Mem T O) (r : Nat) : Prop :=
  ∃ a, m.live a = some r

/-- The next access uses only references to maps that exist, and a call uses a
reference to the map of its object. -/
def Legal (m : Mem T O) : Pc O → Prop
  | .detachUnref _ r | .currentUnref _ _ r | .exitUnref r => m.Live r
  | .currentRef _ a => (m.live a).isSome
  | .act o r => m.Live r ∧ ∃ a, m.obj o = .alive a r
  | .noRef _ => False
  | _ => True

/-- Every thread is about to do something legal. -/
def Independent (s : ScState T (Mem T O) (Pc O)) : Prop :=
  ∀ t, Legal s.mem (s.pc t)

/-! ## One object at a time -/

/-- Threads that are in no call, constructor or destructor. -/
def Pc.quiet : Pc O → Bool
  | .idle | .exitTest | .exited => true
  | _ => false

omit [DecidableEq O] in
/-- Where a thread is when it is in no call. -/
theorem Pc.quiet_cases {p : Pc O} (h : p.quiet = true) :
    p = .idle ∨ p = .exitTest ∨ p = .exited := by
  cases p <;> simp_all [Pc.quiet]

/-- Where a thread can be while one object is alive. -/
def UseOk (o : O) (a : Addr) (i : Nat) (g : Guard) : Pc O → Prop
  | .idle | .exitTest | .exited => g = .empty ∨ g = ⟨some a, some i⟩
  | .current o' => o' = o ∧ (g = .empty ∨ g = ⟨some a, some i⟩)
  | .currentRef o' a' => o' = o ∧ a' = a
  | .testRef o' => o' = o ∧ g = ⟨some a, some i⟩
  | .act o' r => o' = o ∧ r = i ∧ g = ⟨some a, some i⟩
  | .exitUnref r => r = i ∧ g = ⟨some a, some i⟩
  | _ => False

/-- Where the destroying thread can be. -/
def DtorOk (o : O) (a : Addr) (i : Nat) (slot : Option Addr) (g : Guard) : Pc O → Prop
  | .detach o' => o' = o ∧ slot = some a ∧ (g = .empty ∨ g = ⟨some a, some i⟩)
  | .detachUnref o' r => o' = o ∧ r = i ∧ slot = some a
  | .clearSlot o' => o' = o ∧ g = .empty
  | .destroyMap o' => o' = o ∧ slot = none ∧ g = .empty
  | _ => False

/-- What there is of the object: nothing, or one object in one part of its life. -/
inductive Stage (T O : Type)
  | empty
  | ctor (t : T) (o : O) (a : Addr) (i : Nat)
  | alive (o : O) (a : Addr) (i : Nat)
  | dtor (t : T) (o : O) (a : Addr) (i : Nat)

/-- The only object that exists is `o`, and its map the only one. -/
structure Only (m : Mem T O) (o : O) (l : Life) (a : Addr) (i : Nat) : Prop where
  self : m.obj o = l
  others : ∀ o', o' ≠ o → (m.obj o').exists = false
  live : m.live = Function.update (fun _ => none) a (some i)

/-- A thread that has nothing to do with any object. -/
def Away (s : ScState T (Mem T O) (Pc O)) (t : T) : Prop :=
  s.mem.guard t = .empty ∧ (s.pc t).quiet = true

/-- The state of the slot, the maps and the guards at each stage. -/
def Stage.Holds (s : ScState T (Mem T O) (Pc O)) : Stage T O → Prop
  | .empty => s.mem.slot = none ∧ (∀ o, (s.mem.obj o).exists = false) ∧
      s.mem.live = (fun _ => none) ∧ ∀ t, Away s t
  | .ctor t o a i => Only s.mem o (.constructing a i) a i ∧ s.mem.slot = none ∧
      s.mem.guard t = .empty ∧ s.pc t = .storeSlot o ∧ ∀ u, u ≠ t → Away s u
  | .alive o a i => Only s.mem o (.alive a i) a i ∧ s.mem.slot = some a ∧
      ∀ u, UseOk o a i (s.mem.guard u) (s.pc u)
  | .dtor t o a i => Only s.mem o (.dying a i) a i ∧
      DtorOk o a i s.mem.slot (s.mem.guard t) (s.pc t) ∧ ∀ u, u ≠ t → Away s u

/-- The invariant of runs with one object at a time. -/
def Inv (s : ScState T (Mem T O) (Pc O)) : Prop :=
  ∃ g : Stage T O, g.Holds s

/-- A thread that is away, while no object can be called, only exits. -/
theorem Away.next {s : ScState T (Mem T O) (Pc O)} {t : T} {c : Choice O} {m : Mem T O} {p : Pc O}
    (h : Away s t) (hnone : ∀ o a i, s.mem.obj o ≠ .alive a i)
    (hc : s.pc t = .idle → ∀ o a, c ≠ .construct o a)
    (hnext : next t s.mem (s.pc t) c = some (m, p)) : m = s.mem ∧ p.quiet = true := by
  obtain ⟨hguard, hquiet⟩ := h
  have hset : s.mem.setGuard t .empty = s.mem := by
    rw [Mem.setGuard, ← hguard, Function.update_eq_self]
  rcases Pc.quiet_cases hquiet with hpc | hpc | hpc <;> rw [hpc] at hnext
  · cases c with
    | construct o a => exact absurd rfl (hc hpc o a)
    | destroy o =>
        simp only [WormholeIndex.next] at hnext
        split at hnext
        next a i hobj => exact absurd hobj (hnone o a i)
        next => cases hnext
    | call o =>
        simp only [WormholeIndex.next] at hnext
        split at hnext
        next a i hobj => exact absurd hobj (hnone o a i)
        next => cases hnext
    | exit =>
        obtain ⟨rfl, rfl⟩ := Prod.mk.inj (Option.some.inj hnext)
        exact ⟨rfl, rfl⟩
    | go => cases hnext
  · simp only [WormholeIndex.next, hguard, Guard.empty] at hnext
    obtain ⟨rfl, rfl⟩ := Prod.mk.inj (Option.some.inj hnext)
    exact ⟨hset, rfl⟩
  · cases hnext

omit [DecidableEq O] in
/-- Moving a thread that stays away. -/
theorem Away.update {s : ScState T (Mem T O) (Pc O)} {t u : T} {p : Pc O} (h : Away s u)
    (hp : u = t → p.quiet = true) : Away ⟨s.mem, Function.update s.pc t p⟩ u := by
  refine ⟨h.1, ?_⟩
  by_cases hut : u = t
  · subst hut
    show (Function.update s.pc u p u).quiet = true
    rw [Function.update_self]
    exact hp rfl
  · show (Function.update s.pc t p u).quiet = true
    rw [Function.update_of_ne hut]
    exact h.2

/-- What does not exist is not alive. -/
theorem Life.not_alive {l : Life} (h : l.exists = false) (a : Addr) (i : Nat) : l ≠ .alive a i := by
  rintro rfl
  cases h

omit [DecidableEq T] in
/-- When the one object is not alive, none is. -/
theorem Only.not_alive {m : Mem T O} {o : O} {l : Life} {a : Addr} {i : Nat} (h : Only m o l a i)
    (hl : ∀ b j, l ≠ .alive b j) (o' : O) (b : Addr) (j : Nat) : m.obj o' ≠ .alive b j := by
  by_cases ho : o' = o
  · rw [ho, h.self]
    exact hl b j
  · exact Life.not_alive (h.others o' ho) b j

omit [DecidableEq T] [DecidableEq O] in
/-- Where there is an object, no other one is constructed. -/
theorem Only.no_construct {s : ScState T (Mem T O) (Pc O)} {o : O} {l : Life} {a : Addr} {i : Nat}
    {act : T × Choice O} (h : Only s.mem o l a i) (hl : l.exists = true)
    (hone : OneAtATime s act) (o' : O) (b : Addr) : act.2 ≠ .construct o' b := by
  intro hc
  have hnone := hone.construct o' b hc o
  rw [h.self, hl] at hnone
  cases hnone

omit [DecidableEq T] in
/-- Passing to the next part of the life of the only object. -/
theorem Only.setObj {m : Mem T O} {o : O} {l : Life} (l' : Life) {a : Addr} {i : Nat}
    (h : Only m o l a i) :
    Only (m.setObj o l') o l' a i where
  self := Function.update_self ..
  others o' ho := by
    show (Function.update m.obj o l' o').exists = false
    rw [Function.update_of_ne ho]
    exact h.others o' ho
  live := h.live

omit [DecidableEq T] [DecidableEq O] in
/-- The map of the one object is at its address. -/
theorem Only.live_self {m : Mem T O} {o : O} {l : Life} {a : Addr} {i : Nat} (h : Only m o l a i) :
    m.live a = some i := by
  rw [h.live, Function.update_self]

/-- A step while there is no object. -/
theorem Stage.empty_step {s : ScState T (Mem T O) (Pc O)} {t : T} {c : Choice O} {m : Mem T O}
    {p : Pc O} (h : Stage.empty.Holds s) (hnext : next t s.mem (s.pc t) c = some (m, p)) :
    Inv ⟨m, Function.update s.pc t p⟩ := by
  obtain ⟨hslot, hobj, hlive, haway⟩ := h
  by_cases hc : s.pc t = .idle ∧ ∃ o a, c = .construct o a
  · obtain ⟨hpc, o, a, rfl⟩ := hc
    rw [hpc] at hnext
    simp only [next] at hnext
    split at hnext
    · obtain ⟨rfl, rfl⟩ := Prod.mk.inj (Option.some.inj hnext)
      refine ⟨.ctor t o a s.mem.created, ⟨Function.update_self .., fun o' ho => ?_, ?_⟩, hslot,
        (haway t).1, Function.update_self .., fun u hu => ⟨(haway u).1, ?_⟩⟩
      · show (Function.update s.mem.obj o _ o').exists = false
        rw [Function.update_of_ne ho]
        exact hobj o'
      · show Function.update s.mem.live a _ = _
        rw [hlive]
      · show (Function.update s.pc t _ u).quiet = true
        rw [Function.update_of_ne hu]
        exact (haway u).2
    · cases hnext
  · obtain ⟨rfl, hp⟩ := (haway t).next (fun o a i => Life.not_alive (hobj o) a i)
      (fun hpc o a heq => hc ⟨hpc, o, a, heq⟩) hnext
    exact ⟨.empty, hslot, hobj, hlive, fun u => (haway u).update fun _ => hp⟩

/-- A step while an object is constructed. -/
theorem Stage.ctor_step {s : ScState T (Mem T O) (Pc O)} {t t₀ : T} {c : Choice O} {m : Mem T O}
    {p : Pc O} {o : O} {a : Addr} {i : Nat} (h : (Stage.ctor t₀ o a i).Holds s)
    (hone : OneAtATime s (t, c)) (hnext : next t s.mem (s.pc t) c = some (m, p)) :
    Inv ⟨m, Function.update s.pc t p⟩ := by
  obtain ⟨honly, hslot, hguard, hpc, haway⟩ := h
  by_cases ht : t = t₀
  · subst ht
    rw [hpc] at hnext
    simp only [next, honly.self] at hnext
    obtain ⟨rfl, rfl⟩ := Prod.mk.inj (Option.some.inj hnext)
    have honly' := honly.setObj (.alive a i)
    refine ⟨.alive o a i, ⟨honly'.self, honly'.others, honly'.live⟩, rfl, fun u => ?_⟩
    show UseOk o a i (s.mem.guard u) (Function.update s.pc t .idle u)
    by_cases hu : u = t
    · rw [hu, Function.update_self]
      exact .inl hguard
    · rw [Function.update_of_ne hu]
      obtain ⟨hg, hq⟩ := haway u hu
      rcases Pc.quiet_cases hq with hpu | hpu | hpu <;> rw [hpu] <;> exact .inl hg
  · obtain ⟨rfl, hp⟩ := (haway t ht).next (honly.not_alive (by rintro b j ⟨⟩))
      (fun _ => honly.no_construct rfl hone) hnext
    refine ⟨.ctor t₀ o a i, honly, hslot, hguard, ?_, fun u hu => (haway u hu).update fun _ => hp⟩
    show Function.update s.pc t p t₀ = _
    rw [Function.update_of_ne (Ne.symm ht)]
    exact hpc

omit [DecidableEq O] in
/-- The threads other than the one that moves keep what they rely on. -/
theorem UseOk.update {s : ScState T (Mem T O) (Pc O)} {t : T} {p : Pc O} {g : Guard} {o : O}
    {a : Addr} {i : Nat} (h : ∀ u, UseOk o a i (s.mem.guard u) (s.pc u)) (hp : UseOk o a i g p)
    (u : T) : UseOk o a i (Function.update s.mem.guard t g u) (Function.update s.pc t p u) := by
  by_cases hu : u = t
  · rw [hu, Function.update_self, Function.update_self]
    exact hp
  · rw [Function.update_of_ne hu, Function.update_of_ne hu]
    exact h u

/-- A step while an object is alive, other than the start of its destruction. -/
theorem Stage.alive_step {s : ScState T (Mem T O) (Pc O)} {t : T} {c : Choice O} {m : Mem T O}
    {p : Pc O} {o : O} {a : Addr} {i : Nat} (h : (Stage.alive o a i).Holds s)
    (hone : OneAtATime s (t, c)) (hc : s.pc t = .idle → ∀ o', c ≠ .destroy o')
    (hnext : next t s.mem (s.pc t) c = some (m, p)) : Inv ⟨m, Function.update s.pc t p⟩ := by
  obtain ⟨honly, hslot, huse⟩ := h
  -- The moving thread may change its guard and nothing else.
  have hmove : ∀ g, m = s.mem.setGuard t g → UseOk o a i g p →
      Inv ⟨m, Function.update s.pc t p⟩ := by
    rintro g rfl hp
    exact ⟨.alive o a i, ⟨honly.self, honly.others, honly.live⟩, hslot, UseOk.update huse hp⟩
  have hstay : m = s.mem → UseOk o a i (s.mem.guard t) p → Inv ⟨m, Function.update s.pc t p⟩ := by
    intro hm hp
    refine hmove (s.mem.guard t) ?_ hp
    rw [hm, Mem.setGuard, Function.update_eq_self]
  have hself := huse t
  have hother : ∀ o' b j, s.mem.obj o' = .alive b j → o' = o := by
    intro o' b j hobj
    by_contra hne
    exact Life.not_alive (honly.others o' hne) b j hobj
  cases hpc : s.pc t <;> rw [hpc] at hnext hself <;> try exact hself.elim
  case idle =>
    cases c with
    | construct o' b => exact absurd rfl (honly.no_construct rfl hone o' b)
    | destroy o' => exact absurd rfl (hc hpc o')
    | call o' =>
        simp only [next] at hnext
        split at hnext
        next b j hobj =>
          obtain ⟨rfl, rfl⟩ := Prod.mk.inj (Option.some.inj hnext)
          exact hstay rfl ⟨hother o' b j hobj, hself⟩
        next => cases hnext
    | exit =>
        obtain ⟨rfl, rfl⟩ := Prod.mk.inj (Option.some.inj hnext)
        exact hstay rfl hself
    | go => cases hnext
  case current o' =>
    obtain ⟨rfl, hg | hg⟩ := hself
    · simp only [next, hslot, hg, Guard.empty, attach] at hnext
      obtain ⟨rfl, rfl⟩ := Prod.mk.inj (Option.some.inj hnext)
      exact hstay rfl ⟨rfl, rfl⟩
    · simp only [next, hslot, hg] at hnext
      obtain ⟨rfl, rfl⟩ := Prod.mk.inj (Option.some.inj hnext)
      exact hstay rfl ⟨rfl, hg⟩
  case currentRef o' a' =>
    obtain ⟨rfl, rfl⟩ := hself
    simp only [next, honly.live_self] at hnext
    obtain ⟨rfl, rfl⟩ := Prod.mk.inj (Option.some.inj hnext)
    exact hmove _ rfl ⟨rfl, rfl⟩
  case testRef o' =>
    obtain ⟨rfl, hg⟩ := hself
    simp only [next, hg] at hnext
    obtain ⟨rfl, rfl⟩ := Prod.mk.inj (Option.some.inj hnext)
    exact hstay rfl ⟨rfl, rfl, hg⟩
  case act o' r =>
    obtain ⟨rfl, rfl⟩ := Prod.mk.inj (Option.some.inj hnext)
    exact hstay rfl (.inr hself.2.2)
  case exitTest =>
    rcases hself with hg | hg
    · simp only [next, hg, Guard.empty] at hnext
      obtain ⟨rfl, rfl⟩ := Prod.mk.inj (Option.some.inj hnext)
      exact hmove _ rfl (.inl rfl)
    · simp only [next, hslot, hg, if_true] at hnext
      obtain ⟨rfl, rfl⟩ := Prod.mk.inj (Option.some.inj hnext)
      exact hstay rfl ⟨rfl, hg⟩
  case exitUnref r =>
    obtain ⟨rfl, rfl⟩ := Prod.mk.inj (Option.some.inj hnext)
    exact hmove _ rfl (.inl rfl)
  case exited => cases hnext

/-- The start of the destruction of the object that is alive. -/
theorem Stage.destroy_step {s : ScState T (Mem T O) (Pc O)} {t : T} {m : Mem T O} {p : Pc O}
    {o o' : O} {a : Addr} {i : Nat} (h : (Stage.alive o a i).Holds s)
    (hlaw : Lawful s (t, .destroy o')) (hone : OneAtATime s (t, .destroy o'))
    (hpc : s.pc t = .idle) (hnext : next t s.mem (s.pc t) (.destroy o') = some (m, p)) :
    Inv ⟨m, Function.update s.pc t p⟩ := by
  obtain ⟨honly, hslot, huse⟩ := h
  rw [hpc] at hnext
  simp only [next] at hnext
  split at hnext
  next b j hobj =>
    obtain ⟨rfl, rfl⟩ := Prod.mk.inj (Option.some.inj hnext)
    obtain rfl : o' = o := by
      by_contra hne
      exact Life.not_alive (honly.others o' hne) b j hobj
    obtain ⟨rfl, rfl⟩ := Life.alive.inj (hobj.symm.trans honly.self)
    refine ⟨.dtor t o' b j, honly.setObj _, ?_, fun u hu => ?_⟩
    · show DtorOk o' b j s.mem.slot (s.mem.guard t) (Function.update s.pc t (.detach o') t)
      have hself := huse t
      rw [hpc] at hself
      rw [Function.update_self]
      exact ⟨rfl, hslot, hself⟩
    · have hfree := hone.destroy o' b j rfl hobj u hu
      have hout := hlaw o' rfl u
      have hu' := huse u
      have hempty : s.mem.guard u = .empty ∨ s.mem.guard u = ⟨some b, some j⟩ →
          s.mem.guard u = .empty := by
        rintro (hg | hg)
        · exact hg
        · exact absurd (by rw [hg]) hfree
      refine ⟨?_, ?_⟩
      · show s.mem.guard u = .empty
        cases hpu : s.pc u <;> rw [hpu] at hu' hout
        case idle | exitTest | exited => exact hempty hu'
        case exitUnref => exact absurd (by rw [hu'.2]) hfree
        case current | testRef | act | currentRef => simp_all [Pc.uses, UseOk]
        all_goals exact hu'.elim
      · show (Function.update s.pc t _ u).quiet = true
        rw [Function.update_of_ne hu]
        cases hpu : s.pc u <;> rw [hpu] at hu' hout
        case idle | exitTest | exited => rfl
        case exitUnref => exact absurd (by rw [hu'.2]) hfree
        case current | testRef | act | currentRef => simp_all [Pc.uses, UseOk]
        all_goals exact hu'.elim
  next => cases hnext

/-- A step while an object is destroyed. -/
theorem Stage.dtor_step {s : ScState T (Mem T O) (Pc O)} {t t₀ : T} {c : Choice O} {m : Mem T O}
    {p : Pc O} {o : O} {a : Addr} {i : Nat} (h : (Stage.dtor t₀ o a i).Holds s)
    (hone : OneAtATime s (t, c)) (hnext : next t s.mem (s.pc t) c = some (m, p)) :
    Inv ⟨m, Function.update s.pc t p⟩ := by
  obtain ⟨honly, hdtor, haway⟩ := h
  by_cases ht : t = t₀
  · subst ht
    have hothers : ∀ (m' : Mem T O), (∀ u, u ≠ t → m'.guard u = s.mem.guard u) →
        ∀ u, u ≠ t → Away ⟨m', Function.update s.pc t p⟩ u := by
      intro m' hg u hu
      refine ⟨(hg u hu).trans (haway u hu).1, ?_⟩
      show (Function.update s.pc t p u).quiet = true
      rw [Function.update_of_ne hu]
      exact (haway u hu).2
    have hpcs : Function.update s.pc t p t = p := Function.update_self ..
    cases hpc : s.pc t <;> rw [hpc] at hnext hdtor <;> try exact hdtor.elim
    case detach o' =>
      obtain ⟨rfl, hslot, hg | hg⟩ := hdtor
      · simp only [next, honly.self, hg, Guard.empty] at hnext
        obtain ⟨rfl, rfl⟩ := Prod.mk.inj (Option.some.inj hnext)
        refine ⟨.dtor t o' a i, honly, ?_, hothers _ fun _ _ => rfl⟩
        show DtorOk o' a i s.mem.slot (s.mem.guard t) (Function.update s.pc t (.clearSlot o') t)
        rw [hpcs]
        exact ⟨rfl, hg⟩
      · simp only [next, honly.self, hg, if_true] at hnext
        obtain ⟨rfl, rfl⟩ := Prod.mk.inj (Option.some.inj hnext)
        refine ⟨.dtor t o' a i, honly, ?_, hothers _ fun _ _ => rfl⟩
        show DtorOk o' a i s.mem.slot _ (Function.update s.pc t (.detachUnref o' i) t)
        rw [hpcs]
        exact ⟨rfl, rfl, hslot⟩
    case detachUnref o' r =>
      obtain ⟨rfl, rfl, hslot⟩ := hdtor
      obtain ⟨rfl, rfl⟩ := Prod.mk.inj (Option.some.inj hnext)
      refine ⟨.dtor t o' a r, ⟨honly.self, honly.others, honly.live⟩, ?_,
        hothers _ fun u hu => Function.update_of_ne hu ..⟩
      show DtorOk o' a r s.mem.slot (Function.update s.mem.guard t .empty t)
        (Function.update s.pc t (.clearSlot o') t)
      rw [hpcs, Function.update_self]
      exact ⟨rfl, rfl⟩
    case clearSlot o' =>
      obtain ⟨rfl, hg⟩ := hdtor
      obtain ⟨rfl, rfl⟩ := Prod.mk.inj (Option.some.inj hnext)
      refine ⟨.dtor t o' a i, ⟨honly.self, honly.others, honly.live⟩, ?_, hothers _ fun _ _ => rfl⟩
      show DtorOk o' a i none (s.mem.guard t) (Function.update s.pc t (.destroyMap o') t)
      rw [hpcs]
      exact ⟨rfl, rfl, hg⟩
    case destroyMap o' =>
      obtain ⟨rfl, hslot, hg⟩ := hdtor
      simp only [next, honly.self] at hnext
      obtain ⟨rfl, rfl⟩ := Prod.mk.inj (Option.some.inj hnext)
      refine ⟨.empty, hslot, fun o'' => ?_, ?_, fun u => ?_⟩
      · show (Function.update s.mem.obj o' .dead o'').exists = false
        by_cases ho : o'' = o'
        · rw [ho, Function.update_self]
          rfl
        · rw [Function.update_of_ne ho]
          exact honly.others o'' ho
      · show Function.update s.mem.live a none = _
        rw [honly.live, Function.update_idem]
        exact Function.update_eq_self (f := fun _ => none) a
      · by_cases hu : u = t
        · subst hu
          exact ⟨hg, by
            show (Function.update s.pc u .idle u).quiet = true
            rw [Function.update_self]
            rfl⟩
        · exact hothers _ (fun _ _ => rfl) u hu
  · obtain ⟨rfl, hp⟩ := (haway t ht).next (honly.not_alive (by rintro b j ⟨⟩))
      (fun _ => honly.no_construct rfl hone) hnext
    refine ⟨.dtor t₀ o a i, honly, ?_, fun u hu => (haway u hu).update fun _ => hp⟩
    show DtorOk o a i s.mem.slot (s.mem.guard t₀) (Function.update s.pc t p t₀)
    rw [Function.update_of_ne (Ne.symm ht)]
    exact hdtor

/-- Callers use an object only while it lives, objects follow one another, and no other thread is
attached to a map whose destruction starts. -/
def Disciplined (s : ScState T (Mem T O) (Pc O)) (a : T × Choice O) : Prop :=
  Lawful s a ∧ OneAtATime s a

/-- The invariant of disciplined runs. -/
theorem inv_of_reachable {s : ScState T (Mem T O) (Pc O)}
    (h : (machine T O).ReachableUnder Disciplined s) : Inv s := by
  refine Machine.ReachableUnder.invariant ?_ ?_ h
  · exact ⟨.empty, rfl, fun _ => rfl, rfl, fun _ => ⟨rfl, rfl⟩⟩
  · rintro s ⟨t, c⟩ s' ⟨g, hg⟩ ⟨hlaw, hone⟩ hstep
    obtain ⟨m, p, hnext, rfl⟩ := interleave_step_cases hstep
    cases g with
    | empty => exact Stage.empty_step hg hnext
    | ctor t₀ o a i => exact Stage.ctor_step hg hone hnext
    | alive o a i =>
        by_cases hc : s.pc t = .idle ∧ ∃ o', c = .destroy o'
        · obtain ⟨hpc, o', rfl⟩ := hc
          exact Stage.destroy_step hg hlaw hone hpc hnext
        · exact Stage.alive_step hg hone (fun hpc o' heq => hc ⟨hpc, o', heq⟩) hnext
    | dtor t₀ o a i => exact Stage.dtor_step hg hone hnext

omit [DecidableEq T] [DecidableEq O] in
/-- A thread that is away from the object may use what it holds. -/
theorem Away.legal {s : ScState T (Mem T O) (Pc O)} {t : T} (h : Away s t) :
    Legal s.mem (s.pc t) := by
  rcases Pc.quiet_cases h.2 with hpc | hpc | hpc <;> rw [hpc] <;> trivial

omit [DecidableEq O] in
/-- **The invariant makes the objects independent.** -/
theorem Inv.independent {s : ScState T (Mem T O) (Pc O)} (h : Inv s) : Independent s := by
  obtain ⟨g, hg⟩ := h
  intro t
  cases g with
  | empty => exact (hg.2.2.2 t).legal
  | ctor t₀ o a i =>
      obtain ⟨-, -, -, hpc, haway⟩ := hg
      by_cases ht : t = t₀
      · rw [ht, hpc]
        trivial
      · exact (haway t ht).legal
  | alive o a i =>
      obtain ⟨honly, -, huse⟩ := hg
      have hlive : s.mem.Live i := ⟨a, honly.live_self⟩
      have hself := huse t
      cases hpc : s.pc t <;> rw [hpc] at hself <;> try exact hself.elim
      case currentRef o' b =>
        obtain ⟨rfl, rfl⟩ := hself
        exact Option.isSome_iff_exists.mpr ⟨i, honly.live_self⟩
      case act o' r =>
        obtain ⟨rfl, rfl, -⟩ := hself
        exact ⟨hlive, a, honly.self⟩
      case exitUnref r =>
        obtain ⟨rfl, -⟩ := hself
        exact hlive
      all_goals trivial
  | dtor t₀ o a i =>
      obtain ⟨honly, hdtor, haway⟩ := hg
      by_cases ht : t = t₀
      · subst ht
        cases hpc : s.pc t <;> rw [hpc] at hdtor <;> try exact hdtor.elim
        case detachUnref o' r =>
          obtain ⟨-, rfl, -⟩ := hdtor
          exact ⟨a, honly.live_self⟩
        all_goals trivial
      · exact (haway t ht).legal

/-- **Objects that follow one another are independent.**  In every run in which an
object is constructed only when no other one exists, and destroyed only when no
other thread is attached to its map, every call acts on the map of its object and
no reference to a destroyed map is used. -/
theorem independent_of_disciplined {s : ScState T (Mem T O) (Pc O)}
    (h : (machine T O).ReachableUnder Disciplined s) : Independent s :=
  (inv_of_reachable h).independent

end

/-! ## Runs -/

section

variable {T O : Type} [DecidableEq T] [DecidableEq O] [Fintype T] [Fintype O]

/-- `Lawful`, as a test. -/
def lawful (s : ScState T (Mem T O) (Pc O)) (a : T × Choice O) : Bool :=
  match a.2 with
  | .destroy o => decide (∀ u, (s.pc u).uses o = false)
  | _ => true

/-- `OneAtATime`, as a test. -/
def oneAtATime (s : ScState T (Mem T O) (Pc O)) (a : T × Choice O) : Bool :=
  match a.2 with
  | .construct _ _ => decide (∀ o, (s.mem.obj o).exists = false)
  | .destroy o =>
      match s.mem.obj o with
      | .alive _ i => decide (∀ u, u ≠ a.1 → (s.mem.guard u).ref ≠ some i)
      | _ => true
  | _ => true

omit [DecidableEq T] [Fintype O] in
/-- The check is sound. -/
theorem lawful_sound (s : ScState T (Mem T O) (Pc O)) (a : T × Choice O)
    (h : lawful s a = true) : Lawful s a := by
  intro o hc
  simpa [lawful, hc] using h

/-- The check is sound for the discipline, too. -/
theorem disciplined_sound (s : ScState T (Mem T O) (Pc O)) (a : T × Choice O)
    (h : (lawful s a && oneAtATime s a) = true) : Disciplined s a := by
  obtain ⟨hlaw, hone⟩ := Bool.and_eq_true_iff.mp h
  refine ⟨lawful_sound s a hlaw, fun o b hc => ?_, fun o b i hc hobj => ?_⟩
  · simpa [oneAtATime, hc] using hone
  · simpa [oneAtATime, hc, hobj] using hone

end

/-- Two threads use an object, the worker exits, main destroys the object and
constructs another one whose map is at the same address. -/
def inTurn : List (Fin 2 × Choice (Fin 2)) :=
  [(0, .construct 0 7), (0, .go), (1, .call 0), (1, .go), (1, .go), (1, .go), (1, .go),
    (0, .call 0), (0, .go), (0, .go), (0, .go), (0, .go), (1, .exit), (1, .go), (1, .go),
    (0, .destroy 0), (0, .go), (0, .go), (0, .go), (0, .go),
    (0, .construct 1 7), (0, .go), (0, .call 1), (0, .go), (0, .go), (0, .go)]

/-- At the end of that run the call acts on the new map. -/
theorem inTurn_independent : ∃ s, (machine (Fin 2) (Fin 2)).ReachableUnder Disciplined s ∧
    Independent s ∧ s.pc 0 = .act 1 1 := by
  have hrun : ((machine (Fin 2) (Fin 2)).runChecked (fun s a => lawful s a && oneAtATime s a)
      (machine (Fin 2) (Fin 2)).init inTurn).map (fun s => s.pc 0) = some (.act 1 1) := by
    decide
  obtain ⟨s, hs, hpc⟩ := Option.map_eq_some_iff.mp hrun
  have hreach := Machine.reachableUnder_of_runChecked disciplined_sound hs
  exact ⟨s, hreach, independent_of_disciplined hreach, hpc⟩

/-- Two objects alive at once: a call on the first acts on the map of the second. -/
theorem overlapping_not_independent :
    ¬∀ s, (machine (Fin 1) (Fin 2)).ReachableUnder Lawful s → Independent s := by
  intro h
  have hrun : ((machine (Fin 1) (Fin 2)).runChecked lawful (machine (Fin 1) (Fin 2)).init
      [(0, .construct 0 7), (0, .go), (0, .construct 1 8), (0, .go), (0, .call 0), (0, .go),
        (0, .go), (0, .go)]).map (fun s => (s.pc 0, s.mem.obj 0)) =
      some (.act 0 1, .alive 7 0) := by
    decide
  obtain ⟨s, hs, heq⟩ := Option.map_eq_some_iff.mp hrun
  obtain ⟨hpc, hobj⟩ := Prod.mk.inj heq
  have hlegal := h s (Machine.reachableUnder_of_runChecked lawful_sound hs) 0
  rw [hpc] at hlegal
  obtain ⟨-, a, ha⟩ := hlegal
  cases hobj.symm.trans ha

/-- One object after the other is not enough: a worker that used the first and is
still there when the second exists hands a reference to the destroyed map to
`wormhole_unref`. -/
theorem outliving_worker_not_independent : ∃ s, (machine (Fin 2) (Fin 2)).ReachableUnder Lawful s ∧
    s.pc 1 = .currentUnref 1 (some 8) 0 ∧ s.mem.live 7 = none := by
  have hrun : ((machine (Fin 2) (Fin 2)).runChecked lawful (machine (Fin 2) (Fin 2)).init
      [(0, .construct 0 7), (0, .go), (1, .call 0), (1, .go), (1, .go), (1, .go), (1, .go),
        (0, .destroy 0), (0, .go), (0, .go), (0, .go), (0, .construct 1 8), (0, .go),
        (1, .call 1), (1, .go)]).map (fun s => (s.pc 1, s.mem.live 7)) =
      some (.currentUnref 1 (some 8) 0, none) := by
    decide
  obtain ⟨s, hs, heq⟩ := Option.map_eq_some_iff.mp hrun
  obtain ⟨hpc, hlive⟩ := Prod.mk.inj heq
  exact ⟨s, Machine.reachableUnder_of_runChecked lawful_sound hs, hpc, hlive⟩

end WormholeIndex
