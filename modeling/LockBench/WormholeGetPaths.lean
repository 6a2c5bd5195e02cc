import LockBench.WormholeGetSteps

/-!
# Write sections and splits as paths

A write section, and a split that a writer makes without being disturbed, as paths: the
sequences of accesses that lead from one memory to another.  Any number of sections that store
nothing moves only a leaf's `occ_seq`; any number of splits that move no key raises only the
version.
-/

namespace WormholeGet

section

variable {T K V : Type} [DecidableEq T] [DecidableEq K]

/-- A step of one thread. -/
theorem step_update {P : Params K V} {t : T} {m n : Mem T K V} {p q : Pc K V} {pc : T → Pc K V}
    {c : Choice K V} (h : next P t m p c = some (n, q)) :
    (machine T P).step ⟨m, Function.update pc t p⟩ (t, c) = some ⟨n, Function.update pc t q⟩ := by
  simp [machine, interleave, h]

/-- A step that ends no section needs no assumption. -/
theorem assumed_of_ne {P : Params K V} {t : T} {m : Mem T K V} {p : Pc K V} {pc : T → Pc K V}
    {c : Choice K V} (h : ∀ l ls n, p ≠ .unlock l ls n) :
    Assumed P ⟨m, Function.update pc t p⟩ (t, c) := by
  intro l ls n hpc
  simp only [Function.update_self] at hpc
  exact absurd hpc (h l ls n)

/-! ## Edits -/

/-- What a write section does to its leaf and to the map. -/
inductive Edit (K V : Type)
  | store (i : Nat) (e : Entry V)
  | commit (k : K) (r : Option V)

/-- The choice that makes the edit. -/
def Edit.choice : Edit K V → Choice K V
  | .store i e => .store i e
  | .commit k r => .commit k r

namespace Mem

/-- The edits of leaf `l`, in their order. -/
def edits (m : Mem T K V) (l : Leaf) : List (Edit K V) → Mem T K V
  | [] => m
  | .store i e :: es => (m.setEntry l i e).edits l es
  | .commit k r :: es => (m.setContent k r).edits l es

/-- Stores to leaf `l`, in their order. -/
def stores (m : Mem T K V) (l : Leaf) (vs : List (Nat × Entry V)) : Mem T K V :=
  vs.foldl (fun m v => m.setEntry l v.1 v.2) m

/-- The memory inside a section of `t`. -/
def opened (m : Mem T K V) (t : T) (l : Leaf) : Mem T K V :=
  (m.setLock l (some t)).bump l

/-- The memory after a section of `t` with the given edits. -/
def sectioned (m : Mem T K V) (t : T) (l : Leaf) (es : List (Edit K V)) : Mem T K V :=
  (((m.opened t l).edits l es).bump l).setLock l none

/-- The memory inside a split of `t`, when the two leaves are filled: the old leaf is edited,
the new one gets the given entries. -/
def filled (m : Mem T K V) (t : T) (l l₂ : Leaf) (es : List (Edit K V))
    (vs : List (Nat × Entry V)) : Mem T K V :=
  (((m.opened t l).alloc l₂).edits l es).stores l₂ vs

/-- The change of the `hmap` by a split, under the locks of both leaves. -/
def changed (m : Mem T K V) (t : T) (l l₂ : Leaf) (right : K → Bool) : Mem T K V :=
  ((({ (m.setLock l₂ (some t)).bump l₂ with metalock := some t }).setLv l (m.hmap + 1)).setLv l₂
    (m.hmap + 1)).switch fun k =>
      if m.cover m.hmap k = l ∧ right k = true then l₂ else m.cover m.hmap k

/-- The unlocks that follow. -/
def settled (m : Mem T K V) (l l₂ : Leaf) : Mem T K V :=
  { ((((m.bump l).setLock l none).bump l₂).setLock l₂ none) with metalock := none }

/-- The memory after a split of leaf `l` by `t` that moves the keys of `right` to leaf `l₂`. -/
def splitted (m : Mem T K V) (t : T) (l l₂ : Leaf) (es : List (Edit K V))
    (vs : List (Nat × Entry V)) (right : K → Bool) : Mem T K V :=
  ((m.filled t l l₂ es vs).changed t l l₂ right).settled l l₂

end Mem

/-- What stores and commits leave alone. -/
structure SameCounters (m m' : Mem T K V) : Prop where
  metalock : m'.metalock = m.metalock
  hmap : m'.hmap = m.hmap
  cover : m'.cover = m.cover
  used : m'.used = m.used
  lv : m'.lv = m.lv
  seq : m'.seq = m.seq
  lock : m'.lock = m.lock

omit [DecidableEq T] in
/-- Edits store entries and change what the map holds, and nothing else. -/
theorem sameCounters_edits (l : Leaf) (es : List (Edit K V)) (m : Mem T K V) :
    SameCounters m (m.edits l es) := by
  induction es generalizing m with
  | nil => exact ⟨rfl, rfl, rfl, rfl, rfl, rfl, rfl⟩
  | cons e es ih =>
      cases e with
      | store i e =>
          obtain ⟨h₁, h₂, h₃, h₄, h₅, h₆, h₇⟩ := ih (m.setEntry l i e)
          exact ⟨h₁, h₂, h₃, h₄, h₅, h₆, h₇⟩
      | commit k r =>
          obtain ⟨h₁, h₂, h₃, h₄, h₅, h₆, h₇⟩ := ih (m.setContent k r)
          exact ⟨h₁, h₂, h₃, h₄, h₅, h₆, h₇⟩

omit [DecidableEq T] [DecidableEq K] in
/-- So do the stores to a new leaf. -/
theorem sameCounters_stores (l : Leaf) (vs : List (Nat × Entry V)) (m : Mem T K V) :
    SameCounters m (m.stores l vs) := by
  induction vs generalizing m with
  | nil => exact ⟨rfl, rfl, rfl, rfl, rfl, rfl, rfl⟩
  | cons v vs ih =>
      obtain ⟨h₁, h₂, h₃, h₄, h₅, h₆, h₇⟩ := ih (m.setEntry l v.1 v.2)
      exact ⟨h₁, h₂, h₃, h₄, h₅, h₆, h₇⟩

omit [DecidableEq T] in
/-- Filling the leaves of a split leaves the counters as they are behind the allocation. -/
theorem sameCounters_filled (m : Mem T K V) (t : T) (l l₂ : Leaf) (es : List (Edit K V))
    (vs : List (Nat × Entry V)) :
    SameCounters ((m.opened t l).alloc l₂) (m.filled t l l₂ es vs) := by
  obtain ⟨h₁, h₂, h₃, h₄, h₅, h₆, h₇⟩ := sameCounters_edits l es ((m.opened t l).alloc l₂)
  obtain ⟨g₁, g₂, g₃, g₄, g₅, g₆, g₇⟩ :=
    sameCounters_stores l₂ vs (((m.opened t l).alloc l₂).edits l es)
  exact ⟨g₁.trans h₁, g₂.trans h₂, g₃.trans h₃, g₄.trans h₄, g₅.trans h₅, g₆.trans h₆, g₇.trans h₇⟩

/-! ## A calm memory -/

/-- All keys are in the leaf `l`, no writer is at work, and the leaves from `b` on are free. -/
structure Calm (m : Mem T K V) (l b : Leaf) : Prop where
  lock : m.lock l = none
  metalock : m.metalock = none
  cover : ∀ k, m.cover m.hmap k = l
  lv : m.lv l = m.hmap
  fresh : ∀ l' ≥ b, m.used l' = false ∧ m.lock l' = none
  below : l < b

omit [DecidableEq T] in
/-- A section leaves a calm memory. -/
theorem Calm.sectioned {m : Mem T K V} {l b : Leaf} (h : Calm m l b) (t : T)
    (es : List (Edit K V)) : Calm (m.sectioned t l es) l b := by
  have hsame := sameCounters_edits l es (m.opened t l)
  refine ⟨Function.update_self .., hsame.metalock.trans h.metalock, fun k => ?_, ?_,
    fun l' hl' => ⟨?_, ?_⟩, h.below⟩
  · show ((m.opened t l).edits l es).cover ((m.opened t l).edits l es).hmap k = l
    rw [hsame.hmap, hsame.cover]
    exact h.cover k
  · show ((m.opened t l).edits l es).lv l = ((m.opened t l).edits l es).hmap
    rw [hsame.hmap, hsame.lv]
    exact h.lv
  · exact (congrFun hsame.used l').trans (h.fresh l' hl').1
  · have hne : l' ≠ l := (h.below.trans_le hl').ne'
    have hlock := congrFun hsame.lock l'
    have hopened : (m.opened t l).lock l' = m.lock l' := Function.update_of_ne hne ..
    show Function.update ((m.opened t l).edits l es).lock l none l' = none
    rw [Function.update_of_ne hne, hlock, hopened]
    exact (h.fresh l' hl').2

omit [DecidableEq T] in
/-- A section bumps the counter twice. -/
theorem seq_sectioned (m : Mem T K V) (t : T) (l : Leaf) (es : List (Edit K V)) :
    (m.sectioned t l es).seq l = m.seq l + 2 := by
  have hseq := congrFun (sameCounters_edits l es (m.opened t l)).seq l
  have hopened : (m.opened t l).seq l = m.seq l + 1 := Function.update_self ..
  show Function.update ((m.opened t l).edits l es).seq l _ l = _
  rw [Function.update_self, hseq, hopened]

/-- The counters after a split of the leaf `l` of a calm memory. -/
structure AfterSplit (m m' : Mem T K V) (l l₂ b : Leaf) (right : K → Bool) : Prop where
  hmap : m'.hmap = m.hmap + 1
  cover : ∀ k, m'.cover m'.hmap k = if right k = true then l₂ else l
  lv : m'.lv l = m.hmap + 1
  lvNext : m'.lv l₂ = m.hmap + 1
  seq : m'.seq l = m.seq l + 2
  seqNext : m'.seq l₂ = 2
  lock : m'.lock l = none
  fresh : ∀ l' ≥ b, l' ≠ l₂ → m'.used l' = false ∧ m'.lock l' = none

omit [DecidableEq T] in
/-- A split raises both versions and bumps both counters twice. -/
theorem Calm.splitted {m : Mem T K V} {l b l₂ : Leaf} (h : Calm m l b) (t : T) (hl₂ : b ≤ l₂)
    (es : List (Edit K V)) (vs : List (Nat × Entry V)) (right : K → Bool) :
    AfterSplit m (m.splitted t l l₂ es vs right) l l₂ b right := by
  have hne : l ≠ l₂ := (h.below.trans_le hl₂).ne
  obtain ⟨-, hhmap, hcover, hused, -, hseq, hlock⟩ := sameCounters_filled m t l l₂ es vs
  have hhmap' : (m.filled t l l₂ es vs).hmap = m.hmap := hhmap
  have hcover' : (m.filled t l l₂ es vs).cover = m.cover := hcover
  have hseq₁ : (m.filled t l l₂ es vs).seq l = m.seq l + 1 := by
    simp [hseq, Mem.alloc, Mem.opened, Mem.bump, Mem.setLock, hne]
  have hseq₂ : (m.filled t l l₂ es vs).seq l₂ = 0 := by simp [hseq, Mem.alloc]
  refine ⟨congrArg (· + 1) hhmap, fun k => ?_, ?_, ?_, ?_, ?_, ?_, fun l' hl' hne' => ?_⟩
  case refine_7 =>
    obtain ⟨hfree, hfree'⟩ := h.fresh l' hl'
    have hnel : l' ≠ l := (h.below.trans_le hl').ne'
    simp [Mem.splitted, Mem.settled, Mem.changed, Mem.switch, Mem.setLv, Mem.setLock, Mem.bump,
      hused, hlock, Mem.alloc, Mem.opened, hne', hnel, hfree, hfree']
  all_goals
    simp [Mem.splitted, Mem.settled, Mem.changed, Mem.switch, Mem.setLv, Mem.setLock, Mem.bump,
      hhmap', hcover', h.cover, hne, hne.symm, hseq₁, hseq₂]

/-! ## The paths -/

section

variable {P : Params K V} {C : ScState T (Mem T K V) (Pc K V) → T × Choice K V → Prop} {t : T}
  {f : T → Pc K V} {m : Mem T K V} {l b : Leaf}

/-- The actions that lead into a section. -/
def enterActs (t : T) (k : K) : List (T × Choice K V) :=
  [(t, .write k), (t, .go), (t, .go), (t, .go), (t, .go), (t, .go)]

/-- The actions that end one. -/
def leaveActs (t : T) : List (T × Choice K V) :=
  [(t, .unlock), (t, .go), (t, .go)]

/-- The actions of a section of `t`. -/
def sectionActs (t : T) (k : K) (es : List (Edit K V)) : List (T × Choice K V) :=
  enterActs t k ++ (es.map fun e => (t, e.choice)) ++ leaveActs t

/-- The actions of a split by `t` under the lock of the old leaf. -/
def fillActs (t : T) (k : K) (l₂ : Leaf) (es : List (Edit K V)) (vs : List (Nat × Entry V)) :
    List (T × Choice K V) :=
  enterActs t k ++ (t, Choice.alloc l₂) :: ((es.map fun e => (t, e.choice)) ++
    vs.map fun v => (t, Choice.storeNext v.1 v.2))

/-- The actions of a split by `t` under both locks, and the unlocks. -/
def changeActs (t : T) (right : K → Bool) : List (T × Choice K V) :=
  [(t, .go), (t, .go), (t, .go), (t, .go), (t, .go), (t, .go), (t, .split right), (t, .go),
    (t, .go), (t, .go), (t, .go), (t, .go)]

/-- The actions of a split by `t`. -/
def splitActs (t : T) (k : K) (l₂ : Leaf) (es : List (Edit K V)) (vs : List (Nat × Entry V))
    (right : K → Bool) : List (T × Choice K V) :=
  fillActs t k l₂ es vs ++ changeActs t right

/-- A step of `t` that ends no section. -/
theorem step_free (hC : ∀ s c, Assumed P s (t, c) → C s (t, c)) {p q : Pc K V} {n : Mem T K V}
    {c : Choice K V} (h : next P t m p c = some (n, q)) (hp : ∀ l ls n, p ≠ .unlock l ls n)
    {as : List (T × Choice K V)} {s : ScState T (Mem T K V) (Pc K V)}
    (tail : (machine T P).Path C ⟨n, Function.update f t q⟩ as s) :
    (machine T P).Path C ⟨m, Function.update f t p⟩ ((t, c) :: as) s :=
  .cons (step_update h) (hC _ _ (assumed_of_ne hp)) tail

/-- The way into a section. -/
theorem enter_path (hC : ∀ s c, Assumed P s (t, c) → C s (t, c)) (h : Calm m l b) (k : K) :
    (machine T P).Path C ⟨m, Function.update f t .idle⟩ (enterActs t k)
      ⟨m.opened t l, Function.update f t (.inSection l)⟩ := by
  refine step_free hC rfl (by simp) ?_
  refine step_free hC (q := .jumpLeaf k m.hmap) rfl (by simp) ?_
  refine step_free hC (n := m) (q := .tryLock k m.hmap l) ?_ (by simp) ?_
  · simp [next, h.cover k]
  refine step_free hC (n := m.setLock l (some t)) (q := .jumpBump k m.hmap l) ?_ (by simp) ?_
  · simp [next, h.lock]
  refine step_free hC (q := .jumpCheck k m.hmap l) rfl (by simp) ?_
  refine step_free hC (n := m.opened t l) (q := .inSection l) ?_ (by simp) (.nil _)
  have hle : u64 ((m.opened t l).lv l) ≤ u64 m.hmap := (congrArg u64 h.lv).le
  exact congrArg some (Prod.ext rfl (if_pos hle))

/-- The edits of a section, or of the old leaf in a split, one by one. -/
theorem edits_path (hC : ∀ s c, Assumed P s (t, c) → C s (t, c)) {p : Pc K V}
    (hp : p = .inSection l ∨ ∃ l₂, p = .splitFill l l₂) (es : List (Edit K V))
    (hm : ∀ k, m.cover m.hmap k = l) :
    (machine T P).Path C ⟨m, Function.update f t p⟩ (es.map fun e => (t, e.choice))
      ⟨m.edits l es, Function.update f t p⟩ := by
  have hne : ∀ l ls n, p ≠ .unlock l ls n := by
    rcases hp with rfl | ⟨l₂, rfl⟩ <;> simp
  induction es generalizing m with
  | nil => exact .nil _
  | cons e es ih =>
      cases e with
      | store i e =>
          refine step_free hC (n := m.setEntry l i e) ?_ hne (ih hm)
          rcases hp with rfl | ⟨l₂, rfl⟩ <;> rfl
      | commit k r =>
          refine step_free hC (n := m.setContent k r) ?_ hne (ih hm)
          rcases hp with rfl | ⟨l₂, rfl⟩ <;> simp [Edit.choice, next, hm k]

/-- The stores to the new leaf of a split, one by one. -/
theorem stores_path (hC : ∀ s c, Assumed P s (t, c) → C s (t, c)) {l₂ : Leaf}
    (vs : List (Nat × Entry V)) :
    (machine T P).Path C ⟨m, Function.update f t (.splitFill l l₂)⟩
      (vs.map fun v => (t, .storeNext v.1 v.2))
      ⟨m.stores l₂ vs, Function.update f t (.splitFill l l₂)⟩ := by
  induction vs generalizing m with
  | nil => exact .nil _
  | cons v vs ih => exact step_free hC rfl (by simp) ih

/-- **A whole write section.** -/
theorem section_path (hC : ∀ s c, Assumed P s (t, c) → C s (t, c)) (hpc : f t = .idle)
    (h : Calm m l b) (k : K) (es : List (Edit K V))
    (hright : ∀ k, RightAt P (m.sectioned t l es) k) :
    (machine T P).Path C ⟨m, f⟩ (sectionActs t k es) ⟨m.sectioned t l es, f⟩ := by
  have hself : Function.update f t .idle = f := by rw [← hpc, Function.update_eq_self]
  rw [← hself]
  refine ((enter_path hC h k).append (edits_path hC (.inl rfl) es h.cover)).append ?_
  refine step_free hC rfl (by simp) ?_
  refine .cons (step_update rfl) (hC _ _ ?_) ?_
  · exact fun _ _ _ _ k _ => hright k
  exact step_free hC rfl (by simp) (.nil _)

/-- The part of a split under the lock of the old leaf. -/
theorem fill_path (hC : ∀ s c, Assumed P s (t, c) → C s (t, c)) (h : Calm m l b) (k : K)
    {l₂ : Leaf} (hl₂ : b ≤ l₂) (es : List (Edit K V)) (vs : List (Nat × Entry V)) :
    (machine T P).Path C ⟨m, Function.update f t .idle⟩ (fillActs t k l₂ es vs)
      ⟨m.filled t l l₂ es vs, Function.update f t (.splitFill l l₂)⟩ := by
  have hused : (m.opened t l).used l₂ = false := (h.fresh l₂ hl₂).1
  refine (enter_path hC h k).append ?_
  refine step_free hC (n := (m.opened t l).alloc l₂) (q := .splitFill l l₂) ?_ (by simp) ?_
  · simp [next, hused]
  have hcover : ∀ k, ((m.opened t l).alloc l₂).cover ((m.opened t l).alloc l₂).hmap k = l := h.cover
  exact (edits_path hC (.inr ⟨l₂, rfl⟩) es hcover).append (stores_path hC vs)

/-- The part of a split under both locks, and the unlocks. -/
theorem change_path (hC : ∀ s c, Assumed P s (t, c) → C s (t, c)) {l₂ : Leaf}
    (hlock : m.lock l₂ = none) (hmeta : m.metalock = none) (right : K → Bool)
    (hright : ∀ k, RightAt P (m.changed t l l₂ right) k) :
    (machine T P).Path C ⟨m, Function.update f t (.splitFill l l₂)⟩ (changeActs t right)
      ⟨(m.changed t l l₂ right).settled l l₂, Function.update f t .idle⟩ := by
  refine step_free hC (q := .splitLock l l₂) rfl (by simp) ?_
  refine step_free hC (n := m.setLock l₂ (some t)) (q := .splitBump l l₂) ?_ (by simp) ?_
  · simp [next, hlock]
  refine step_free hC (q := .metaLock .split l l₂) rfl (by simp) ?_
  refine step_free hC (n := { (m.setLock l₂ (some t)).bump l₂ with metalock := some t })
    (q := .metaLv₁ .split l l₂) ?_ (by simp) ?_
  · simp [next, Mem.setLock, Mem.bump, hmeta]
  refine step_free hC (q := .metaLv₂ .split l l₂) rfl (by simp) ?_
  refine step_free hC (q := .metaSwitch .split l l₂) rfl (by simp) ?_
  refine step_free hC (n := m.changed t l l₂ right) (q := .unlock l [l₂] (.metaUnlock none)) rfl
    (by simp) ?_
  -- Both sections end behind the switch.
  refine .cons (step_update rfl) (hC _ _ fun _ _ _ _ k _ => hright k) ?_
  refine step_free hC (q := .unlock l₂ [] (.metaUnlock none)) rfl (by simp) ?_
  refine .cons (step_update rfl) (hC _ _ fun _ _ _ _ k _ => hright k) ?_
  refine step_free hC (q := .metaUnlock none) rfl (by simp) ?_
  exact step_free hC rfl (by simp) (.nil _)

/-- **A whole split.** -/
theorem split_path (hC : ∀ s c, Assumed P s (t, c) → C s (t, c)) (hpc : f t = .idle)
    (h : Calm m l b) (k : K) {l₂ : Leaf} (hl₂ : b ≤ l₂) (es : List (Edit K V))
    (vs : List (Nat × Entry V)) (right : K → Bool)
    (hright : ∀ k, RightAt P (m.splitted t l l₂ es vs right) k) :
    (machine T P).Path C ⟨m, f⟩ (splitActs t k l₂ es vs right)
      ⟨m.splitted t l l₂ es vs right, f⟩ := by
  have hself : Function.update f t .idle = f := by rw [← hpc, Function.update_eq_self]
  have hsame := sameCounters_filled m t l l₂ es vs
  have hlock : (m.filled t l l₂ es vs).lock l₂ = none := by
    rw [hsame.lock]
    exact (Function.update_of_ne (h.below.trans_le hl₂).ne' ..).trans (h.fresh l₂ hl₂).2
  have hmeta : (m.filled t l l₂ es vs).metalock = none := hsame.metalock.trans h.metalock
  have hchange := change_path (f := f) (l := l) hC hlock hmeta right hright
  have hfill := fill_path (f := f) hC h k hl₂ es vs
  rw [hself] at hchange hfill
  exact hfill.append hchange

/-! ## Many of them -/

/-- **Any number of write sections that change nothing**: only the leaf's counter moves. -/
theorem sections_path (hC : ∀ s c, Assumed P s (t, c) → C s (t, c)) (hpc : f t = .idle) (k : K)
    (n : Nat) (h : Calm m l b) (hright : ∀ k, RightAt P m k) :
    ∃ as m', (machine T P).Path C ⟨m, f⟩ as ⟨m', f⟩ ∧ Calm m' l b ∧
      m'.seq l = m.seq l + 2 * n ∧ m'.hmap = m.hmap ∧ ∀ a ∈ as, ∀ k r, a.2 ≠ .commit k r := by
  induction n generalizing m with
  | zero => exact ⟨[], m, .nil _, h, rfl, rfl, nofun⟩
  | succ n ih =>
      obtain ⟨as, m', hpath, hcalm, hseq, hhmap, has⟩ := ih (h.sectioned t []) hright
      refine ⟨sectionActs t k [] ++ as, m',
        (section_path hC hpc h k [] hright).append hpath, hcalm, ?_, hhmap, ?_⟩
      · rw [hseq, seq_sectioned]
        omega
      · intro a ha
        rcases List.mem_append.mp ha with hsec | hrest
        · simp only [sectionActs, enterActs, leaveActs, List.map_nil, List.append_nil,
            List.cons_append, List.nil_append, List.mem_cons, List.not_mem_nil, or_false] at hsec
          rcases hsec with rfl | rfl | rfl | rfl | rfl | rfl | rfl | rfl | rfl <;> exact nofun
        · exact has a hrest

/-- **Any number of splits that move no key**: the version goes up by as many. -/
theorem splits_path (hC : ∀ s c, Assumed P s (t, c) → C s (t, c)) (hpc : f t = .idle) (k : K)
    (n : Nat) (h : Calm m l b) (hright : ∀ k, RightAt P m k) :
    ∃ as m', ∃ b', (machine T P).Path C ⟨m, f⟩ as ⟨m', f⟩ ∧ Calm m' l b' ∧
      m'.hmap = m.hmap + n ∧ m'.seq l % 2 = m.seq l % 2 ∧ m'.hs l = m.hs l ∧
      m'.content = m.content := by
  induction n generalizing m b with
  | zero => exact ⟨[], m, b, .nil _, h, rfl, rfl, rfl, rfl⟩
  | succ n ih =>
      have hafter := h.splitted t le_rfl [] [] fun _ => false
      have hhs : (m.splitted t l b [] [] fun _ => false).hs l = m.hs l :=
        Function.update_of_ne h.below.ne ..
      have hright' : ∀ k, RightAt P (m.splitted t l b [] [] fun _ => false) k := by
        intro k
        have hold := hright k
        unfold RightAt at hold ⊢
        rw [h.cover k] at hold
        rw [hafter.cover k, if_neg (by decide), hhs]
        exact hold
      have hcalm : Calm (m.splitted t l b [] [] fun _ => false) l (b + 1) := by
        refine ⟨hafter.lock, rfl, fun k => ?_, ?_, fun l' hl' => ?_,
          Nat.lt_succ_of_lt h.below⟩
        · rw [hafter.cover k, if_neg (by decide)]
        · rw [hafter.lv, hafter.hmap]
        · exact hafter.fresh l' (Nat.le_of_succ_le hl') (Nat.lt_of_succ_le hl').ne'
      obtain ⟨as, m', b', hpath, hcalm', hhmap, hseq, hhs', hcontent⟩ := ih hcalm hright'
      refine ⟨splitActs t k b [] [] (fun _ => false) ++ as, m', b',
        (split_path hC hpc h k le_rfl [] [] _ hright').append hpath, hcalm', ?_, ?_,
        hhs'.trans hhs, hcontent⟩
      · rw [hhmap, hafter.hmap]
        omega
      · rw [hseq, hafter.seq]
        omega

end

end

end WormholeGet
