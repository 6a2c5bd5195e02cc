import LockBench.WormholeGetLocks

/-!
# The readers and the structural changes

A reader relies on what an `hmap` covers, which never changes, and between its two loads of
`occ_seq` on the entries of its leaf: they stay as they are until the counter moves.  A leaf
whose version is not above that of an `hmap` covers what it covered there, since a split or a
merge raises the versions of both leaves before it switches the `hmap`, under the locks of both.
The leaf that covers a key is right for it whenever its counter is even.
-/

namespace WormholeGet

section

variable {T K V : Type} [DecidableEq T] [DecidableEq K]

/-! ## The invariant -/

/-- The leaf is in an `hmap`. -/
def Linked (m : Mem T K V) (l : Leaf) : Prop :=
  ∃ h ≤ m.hmap, ∃ k, m.cover h k = l

/-- What a reader relies on between its two loads of `occ_seq`: as long as neither
counter has moved, the walk is right about the entries as they are. -/
structure WindowOk (P : Params K V) (m : Mem T K V) (k : K) (h : Nat) (l : Leaf) (q : Nat)
    (p : Pc K V) : Prop where
  loaded : h ≤ m.hmap
  covered : m.cover h k = l
  even : q % 2 = 0
  le : q ≤ m.seq l
  walk : m.seq l = q → m.lv l ≤ h → WalkOk P (m.hs l) p

/-- What a thread relies on about the `hmap` it has loaded. -/
def ReadOk (P : Params K V) (m : Mem T K V) : Pc K V → Prop
  | .getJump _ h | .jumpLeaf _ h => h ≤ m.hmap
  | .getLv k h l | .getSeq k h l | .getLvEnd k h l _ | .tryLock k h l | .retest k h l
  | .jumpBump k h l | .jumpCheck k h l => h ≤ m.hmap ∧ m.cover h k = l
  | .probe k h l q => WindowOk P m k h l q (.probe k h l q)
  | .left k h l q i => WindowOk P m k h l q (.left k h l q i)
  | .right k h l q i => WindowOk P m k h l q (.right k h l q i)
  | .getSeqEnd k h l q r => WindowOk P m k h l q (.getSeqEnd k h l q r)
  | _ => True

/-- The versions that a structural change has stored so far. -/
def LvOk (m : Mem T K V) : Pc K V → Prop
  | .metaLv₂ _ l₁ _ => m.lv l₁ = m.hmap + 1
  | .metaSwitch _ l₁ l₂ => m.lv l₁ = m.hmap + 1 ∧ m.lv l₂ = m.hmap + 1
  | _ => True

/-- What holds of one thread. -/
structure OwnOk (P : Params K V) (m : Mem T K V) (p : Pc K V) : Prop where
  prim : ∀ l, p.prim = some l → Linked m l
  priv : ∀ l, p.priv = some l → m.used l = true ∧ ¬Linked m l
  wants : ∀ l, p.wants = some l → m.used l = true
  lv : LvOk m p
  read : ReadOk P m p

/-- The invariant of every run that meets `Assumed`. -/
structure Inv (P : Params K V) (s : ScState T (Mem T K V) (Pc K V)) : Prop where
  locks : LockInv s
  metalock : ∀ t, (s.pc t).inMeta = true → s.mem.metalock = some t
  used : ∀ l, Linked s.mem l → s.mem.used l = true
  priv : ∀ t u l, (s.pc t).priv = some l → (s.pc u).priv = some l → t = u
  lvBound : ∀ l, s.mem.lv l ≤ s.mem.hmap + 1
  stable : ∀ h ≤ s.mem.hmap, ∀ k, s.mem.lv (s.mem.cover h k) ≤ h →
    s.mem.cover s.mem.hmap k = s.mem.cover h k
  right : ∀ k, s.mem.seq (s.mem.cover s.mem.hmap k) % 2 = 0 → RightAt P s.mem k
  own : ∀ t, OwnOk P s.mem (s.pc t)

/-- What any step keeps: what an `hmap` covers, and the entries of a linked leaf
while its counter is even. -/
structure Frame (m m' : Mem T K V) : Prop where
  hmap : m.hmap ≤ m'.hmap
  cover : ∀ h ≤ m.hmap, m'.cover h = m.cover h
  used : ∀ l, m.used l = true → m'.used l = true
  lv : ∀ l, m.lv l ≤ m'.lv l
  seq : ∀ l, Linked m l → m.seq l ≤ m'.seq l
  hs : ∀ l, Linked m l → m.seq l % 2 = 0 → m'.hs l = m.hs l

omit [DecidableEq T] [DecidableEq K] in
/-- A step that changes none of it. -/
theorem Frame.refl (m : Mem T K V) : Frame m m :=
  ⟨le_rfl, fun _ _ => rfl, fun _ h => h, fun _ => le_rfl, fun _ _ => le_rfl, fun _ _ _ => rfl⟩

omit [DecidableEq T] [DecidableEq K] in
/-- A leaf stays linked: what an `hmap` covers does not change. -/
theorem Linked.frame {m m' : Mem T K V} (f : Frame m m') {l : Leaf} (h : Linked m l) :
    Linked m' l := by
  obtain ⟨n, hn, k, hk⟩ := h
  exact ⟨n, hn.trans f.hmap, k, by rw [f.cover n hn, hk]⟩

omit [DecidableEq T] in
/-- **Every step stays within the frame.** -/
theorem Inv.frame {P : Params K V} {s : ScState T (Mem T K V) (Pc K V)} (h : Inv P s) {t : T}
    {p' : Pc K V} {m' : Mem T K V} (e : Effect t s.mem (s.pc t) p' m') : Frame s.mem m' := by
  have hrefl := Frame.refl s.mem
  cases e with
  | none | acquire | release | commit | metaLock | metaUnlock =>
      exact ⟨hrefl.hmap, hrefl.cover, hrefl.used, hrefl.lv, hrefl.seq, hrefl.hs⟩
  | bump l mem holds ends writes =>
      refine ⟨hrefl.hmap, hrefl.cover, hrefl.used, hrefl.lv, fun l' _ => ?_, hrefl.hs⟩
      show s.mem.seq l' ≤ Function.update s.mem.seq l _ l'
      by_cases heq : l' = l
      · rw [heq, Function.update_self]
        omega
      · rw [Function.update_of_ne heq]
  | store l i e same mem =>
      refine ⟨hrefl.hmap, hrefl.cover, hrefl.used, hrefl.lv, hrefl.seq, fun l' hlinked heven => ?_⟩
      have hne : l' ≠ l := by
        intro heq
        subst heq
        rcases mem with hw | hp
        · have := h.locks.odd hw
          omega
        · exact ((h.own t).priv l' hp).2 hlinked
      exact Function.update_of_ne hne ..
  | alloc l free same =>
      have hne : ∀ l', Linked s.mem l' → l' ≠ l := by
        intro l' hlinked heq
        subst heq
        cases free.symm.trans (h.used l' hlinked)
      refine ⟨hrefl.hmap, hrefl.cover, fun l' hl' => ?_, hrefl.lv, fun l' hl' => ?_, fun l' hl' _ => ?_⟩
      · show Function.update s.mem.used l true l' = true
        by_cases heq : l' = l
        · rw [heq, Function.update_self]
        · rw [Function.update_of_ne heq]
          exact hl'
      · exact (Function.update_of_ne (hne l' hl') ..).ge
      · exact Function.update_of_ne (hne l' hl') ..
  | setLv l own same =>
      refine ⟨hrefl.hmap, hrefl.cover, hrefl.used, fun l' => ?_, hrefl.seq, hrefl.hs⟩
      show s.mem.lv l' ≤ Function.update s.mem.lv l _ l'
      by_cases heq : l' = l
      · rw [heq, Function.update_self]
        exact h.lvBound l
      · rw [Function.update_of_ne heq]
  | switch x l₁ l₂ c at_ moved same =>
      refine ⟨Nat.le_succ _, fun n hn => ?_, hrefl.used, hrefl.lv, hrefl.seq, hrefl.hs⟩
      exact Function.update_of_ne (Nat.lt_succ_of_le hn).ne ..

omit [DecidableEq T] in
/-- The steps of others keep what a reader relies on: as long as the counter has not moved, the
entries have not either. -/
theorem WindowOk.frame {P : Params K V} {m m' : Mem T K V} {k : K} {h : Nat} {l : Leaf} {q : Nat}
    {p : Pc K V} (w : WindowOk P m k h l q p) (f : Frame m m') : WindowOk P m' k h l q p := by
  have hlinked : Linked m l := ⟨h, w.loaded, k, w.covered⟩
  have hseq := f.seq l hlinked
  refine ⟨w.loaded.trans f.hmap, by rw [f.cover h w.loaded, w.covered], w.even, w.le.trans hseq, ?_⟩
  intro heq hlv
  -- The counter has not moved, so it was even all the time.
  have hq : m.seq l = q := le_antisymm (heq ▸ hseq) w.le
  rw [f.hs l hlinked (hq ▸ w.even)]
  exact w.walk hq ((f.lv l).trans hlv)

omit [DecidableEq T] in
/-- And what a thread relies on about its `hmap`. -/
theorem ReadOk.frame {P : Params K V} {m m' : Mem T K V} {p : Pc K V} (r : ReadOk P m p)
    (f : Frame m m') : ReadOk P m' p := by
  cases p with
  | getJump | jumpLeaf => exact le_trans r f.hmap
  | getLv k h l | getSeq k h l | getLvEnd k h l | tryLock k h l | retest k h l | jumpBump k h l
  | jumpCheck k h l =>
      exact ⟨r.1.trans f.hmap, by rw [f.cover h r.1]; exact r.2⟩
  | probe | left | right | getSeqEnd => exact WindowOk.frame r f
  | _ => trivial

omit [DecidableEq T] in
/-- The thread that moves keeps what it relied on, where its new point relies on the
same. -/
theorem OwnOk.move {P : Params K V} {m m' : Mem T K V} {p p' : Pc K V} (own : OwnOk P m p)
    (f : Frame m m') (hlinked : ∀ l, Linked m' l → Linked m l)
    (hprim : ∀ l, p'.prim = some l → p.prim = some l)
    (hpriv : ∀ l, p'.priv = some l → p.priv = some l)
    (hwants : ∀ l, p'.wants = some l → p.wants = some l ∨ m'.used l = true)
    (hlv : LvOk m' p') (hread : ReadOk P m' p') : OwnOk P m' p' where
  prim l hl := (own.prim l (hprim l hl)).frame f
  priv l hl :=
    have hold := own.priv l (hpriv l hl)
    ⟨f.used l hold.1, fun hlink => hold.2 (hlinked l hlink)⟩
  wants l hl := (hwants l hl).elim (fun hw => f.used l (own.wants l hw)) id
  lv := hlv
  read := hread

omit [DecidableEq T] in
/-- In the window a thread relies on nothing else. -/
theorem OwnOk.of_window {P : Params K V} {m : Mem T K V} {k : K} {h : Nat} {l : Leaf} {q : Nat}
    {p : Pc K V} (hp : InWindow k h l q p) (w : WindowOk P m k h l q p) : OwnOk P m p := by
  rcases hp with ⟨i, rfl⟩ | ⟨i, rfl⟩ | ⟨r, rfl⟩ <;> exact ⟨nofun, nofun, nofun, trivial, w⟩

omit [DecidableEq T] in
/-- While neither counter has moved, the leaf of the reader's `hmap` is the one that
covers the key, and it is right for it. -/
theorem Inv.right_of_window {P : Params K V} {s : ScState T (Mem T K V) (Pc K V)} (h : Inv P s)
    {k : K} {n : Nat} {l : Leaf} {q : Nat} {p : Pc K V} (w : WindowOk P s.mem k n l q p)
    (hseq : s.mem.seq l = q) (hlv : s.mem.lv l ≤ n) :
    s.mem.cover s.mem.hmap k = l ∧ RightAt P s.mem k := by
  have hcover : s.mem.cover s.mem.hmap k = l := by
    have hst := h.stable n w.loaded k
    rw [w.covered] at hst
    exact hst hlv
  refine ⟨hcover, h.right k ?_⟩
  rw [hcover, hseq]
  exact w.even

omit [DecidableEq T] in
/-- A step of the walk. -/
theorem Inv.walk_next {P : Params K V} {s : ScState T (Mem T K V) (Pc K V)} (h : Inv P s)
    {k : K} {n : Nat} {l : Leaf} {q : Nat} {p p' : Pc K V} (w : WindowOk P s.mem k n l q p)
    (hp : InWindow k n l q p')
    (hwalk : HsOk (s.mem.hs l) → WalkOk P (s.mem.hs l) p → WalkOk P (s.mem.hs l) p') :
    OwnOk P s.mem p' := by
  refine .of_window hp ⟨w.loaded, w.covered, w.even, w.le, fun hseq hlv => ?_⟩
  obtain ⟨hcover, hright⟩ := h.right_of_window w hseq hlv
  have hok := hright.1
  rw [hcover] at hok
  exact hwalk hok (w.walk hseq hlv)

/-! ## The thread that moves -/

/-- What the point of a thread belongs to. -/
inductive Phase
  | get
  | jump
  | locked
  | split
  | merge
  | metaLocked

/-- The phase of a point. -/
def Pc.phase : Pc K V → Phase
  | .idle | .jumpLoad _ | .jumpLeaf _ _ | .tryLock _ _ _ | .retest _ _ _ | .jumpBump _ _ _
  | .jumpCheck _ _ _ => .jump
  | .inSection _ | .unlock _ _ _ | .release _ _ _ => .locked
  | .splitFill _ _ | .splitLock _ _ | .splitBump _ _ => .split
  | .mergeLock _ _ | .mergeBump _ _ | .mergeFill _ _ => .merge
  | .metaLock _ _ _ | .metaLv₁ _ _ _ | .metaLv₂ _ _ _ | .metaSwitch _ _ _ | .metaUnlock _ => .metaLocked
  | _ => .get

omit [DecidableEq T] in
/-- The steps of `wormhole_get`. -/
theorem Inv.own_get {P : Params K V} {s : ScState T (Mem T K V) (Pc K V)} (h : Inv P s) {t : T}
    {m' : Mem T K V} {p p' : Pc K V} (own : OwnOk P s.mem p) (hphase : p.phase = .get)
    (hstep : Step P t s.mem p m' p') : OwnOk P m' p' := by
  cases hstep with
  | getLoad => exact ⟨nofun, nofun, nofun, trivial, le_rfl⟩
  | getJump => exact ⟨nofun, nofun, nofun, trivial, own.read, rfl⟩
  | getLv => exact ⟨nofun, nofun, nofun, trivial, own.read⟩
  | getSeq k n l even =>
      exact ⟨nofun, nofun, nofun, trivial, own.read.1, own.read.2, even, le_rfl, fun _ _ => trivial⟩
  | probe k n l q =>
      exact h.walk_next own.read (inWindow_walk P k n l q 0 _).1
        fun hok _ => walkOk_probeNext hok k n l q
  | left k n l q i =>
      exact h.walk_next own.read (inWindow_walk P k n l q i _).2.1
        fun hok hw => walkOk_leftNext hok hw
  | right k n l q i =>
      exact h.walk_next own.read (inWindow_walk P k n l q i _).2.2
        fun hok hw => walkOk_rightNext hok hw
  | getSeqEnd k n l q r =>
      have w : WindowOk P s.mem k n l q _ := own.read
      exact ⟨nofun, nofun, nofun, trivial, w.loaded, w.covered⟩
  | getLvRetry | getSeqRetry | getSeqEndRetry | getLvEnd | getLvEndRetry | returned =>
      exact ⟨nofun, nofun, nofun, trivial, trivial⟩
  | _ => cases hphase

omit [DecidableEq T] in
/-- The steps of `wormhole_jump_leaf_write`. -/
theorem Inv.own_jump {P : Params K V} {s : ScState T (Mem T K V) (Pc K V)} (h : Inv P s) {t : T}
    {m' : Mem T K V} {p p' : Pc K V} (own : OwnOk P s.mem p) (hphase : p.phase = .jump)
    (hstep : Step P t s.mem p m' p') : OwnOk P m' p' := by
  cases hstep with
  | callGet | callWrite | retestRetry | jumpCheckRetry =>
      exact ⟨nofun, nofun, nofun, trivial, trivial⟩
  | jumpLoad => exact ⟨nofun, nofun, nofun, trivial, le_rfl⟩
  | jumpLeaf k n =>
      refine ⟨nofun, nofun, fun l hl => ?_, trivial, own.read, rfl⟩
      obtain rfl := Option.some.inj hl
      exact h.used _ ⟨n, own.read, k, rfl⟩
  | tryLockFail | retest => exact ⟨nofun, nofun, own.wants, trivial, own.read⟩
  | tryLock | jumpBump => exact ⟨nofun, nofun, nofun, trivial, own.read⟩
  | jumpCheck k n l =>
      refine ⟨fun l' hl' => ?_, nofun, nofun, trivial, trivial⟩
      obtain rfl := Option.some.inj hl'
      exact ⟨n, own.read.1, k, own.read.2⟩
  | _ => cases hphase

omit [DecidableEq T] in
/-- The steps of a write section and of the unlocks. -/
theorem Inv.own_section {P : Params K V} {s : ScState T (Mem T K V) (Pc K V)} (h : Inv P s) {t : T}
    {m' : Mem T K V} {p p' : Pc K V} (own : OwnOk P s.mem p) (f : Frame s.mem m')
    (hphase : p.phase = .locked) (hstep : Step P t s.mem p m' p') : OwnOk P m' p' := by
  cases hstep with
  | store | commit =>
      exact own.move f (fun _ hl => hl) (fun _ hl => hl) (fun _ hl => hl) nofun trivial trivial
  | sectionEnd => exact ⟨nofun, nofun, nofun, trivial, trivial⟩
  | alloc l l₂ free =>
      have hused : (s.mem.alloc l₂).used l₂ = true := Function.update_self ..
      refine ⟨own.prim, fun l' hl' => ?_, fun l' hl' => ?_, trivial, trivial⟩
      · obtain rfl := Option.some.inj hl'
        exact ⟨hused, fun hlink => by cases free.symm.trans (h.used _ hlink)⟩
      · obtain rfl := Option.some.inj hl'
        exact hused
  | lockNext l l₂ used =>
      refine ⟨own.prim, nofun, fun l' hl' => ?_, trivial, trivial⟩
      obtain rfl := Option.some.inj hl'
      exact used
  | unlock l ls n | releaseNext l l' ls n =>
      exact own.move f (fun _ hl => hl) (fun _ hl => by rcases n with _ | _ | _ | _ <;> exact hl)
        nofun nofun trivial trivial
  | release l n =>
      exact own.move f (fun _ hl => hl) (fun _ hl => by rcases n with _ | _ | _ | _ <;> exact hl)
        (fun _ hl => by rcases n with _ | _ | _ | _ <;> cases hl)
        (fun _ hl => by rcases n with _ | _ | _ | _ <;> cases hl)
        (by rcases n with _ | _ | _ | _ <;> trivial) (by rcases n with _ | _ | _ | _ <;> trivial)
  | _ => cases hphase

omit [DecidableEq T] in
/-- The steps of a split or a merge before the change of the `hmap`. -/
theorem OwnOk.structural {P : Params K V} {t : T} {m m' : Mem T K V} {p p' : Pc K V}
    (own : OwnOk P m p) (f : Frame m m') (hphase : p.phase = .split ∨ p.phase = .merge)
    (hstep : Step P t m p m' p') : OwnOk P m' p' := by
  cases hstep with
  | splitStore | splitStoreNext | splitCommit | splitGo =>
      exact own.move f (fun _ hl => hl) (fun _ hl => hl) (fun _ hl => hl) (fun _ hl => .inl hl)
        trivial trivial
  | splitLock | splitBump =>
      exact own.move f (fun _ hl => hl) (fun _ hl => hl) (fun _ hl => hl) nofun trivial trivial
  | mergeLock | mergeBump | mergeStore | mergeStoreNext | mergeCommit | mergeGo =>
      exact own.move f (fun _ hl => hl) (fun _ hl => hl) nofun nofun trivial trivial
  | splitFail | mergeEnd => exact ⟨nofun, nofun, nofun, trivial, trivial⟩
  | _ => rcases hphase with h | h <;> cases h

omit [DecidableEq T] in
/-- The steps of the change of the `hmap`: the versions are stored before the switch. -/
theorem OwnOk.change {P : Params K V} {t : T} {m m' : Mem T K V} {p p' : Pc K V}
    (own : OwnOk P m p) (f : Frame m m') (hphase : p.phase = .metaLocked)
    (hstep : Step P t m p m' p') : OwnOk P m' p' := by
  cases hstep with
  | metaLock x l₁ l₂ =>
      exact own.move f (fun _ hl => hl) (fun _ hl => hl) (fun _ hl => by cases x <;> exact hl)
        nofun trivial trivial
  | metaLockFail | metaLv₁Fail | metaUnlockKeep =>
      exact own.move f (fun _ hl => hl) (fun _ hl => hl) nofun nofun trivial trivial
  | metaLv₁ x l₁ l₂ =>
      exact own.move f (fun _ hl => hl) (fun _ hl => hl) (fun _ hl => by cases x <;> exact hl)
        nofun (Function.update_self ..) trivial
  | metaLv₂ x l₁ l₂ =>
      refine own.move f (fun _ hl => hl) (fun _ hl => hl) (fun _ hl => by cases x <;> exact hl)
        nofun ⟨?_, Function.update_self ..⟩ trivial
      show Function.update m.lv l₂ (m.hmap + 1) l₁ = m.hmap + 1
      by_cases heq : l₁ = l₂
      · rw [heq, Function.update_self]
      · rw [Function.update_of_ne heq]
        exact own.lv
  | switchSplit | metaUnlock => exact ⟨nofun, nofun, nofun, trivial, trivial⟩
  | switchMerge l₁ l₂ keep =>
      cases keep with
      | false => exact ⟨nofun, nofun, nofun, trivial, trivial⟩
      | true => exact ⟨fun l hl => (own.prim l hl).frame f, nofun, nofun, trivial, trivial⟩
  | _ => cases hphase

omit [DecidableEq T] in
/-- **The thread that moves relies on what holds.** -/
theorem Inv.own_next {P : Params K V} {s : ScState T (Mem T K V) (Pc K V)} (h : Inv P s) {t : T}
    {m' : Mem T K V} {p' : Pc K V} (hstep : Step P t s.mem (s.pc t) m' p') : OwnOk P m' p' := by
  have f := h.frame hstep.effect
  have own := h.own t
  cases hphase : (s.pc t).phase with
  | get => exact h.own_get own hphase hstep
  | jump => exact h.own_jump own hphase hstep
  | locked => exact h.own_section own f hphase hstep
  | split => exact own.structural f (.inl hphase) hstep
  | merge => exact own.structural f (.inr hphase) hstep
  | metaLocked => exact own.change f hphase hstep

/-! ## The other threads -/

omit [DecidableEq T] in
/-- A leaf that a step links was linked before, or is the new leaf of a split. -/
theorem Inv.linked_step {P : Params K V} {s : ScState T (Mem T K V) (Pc K V)} (h : Inv P s) {t : T}
    {p' : Pc K V} {m' : Mem T K V} (e : Effect t s.mem (s.pc t) p' m') {l : Leaf}
    (hl : Linked m' l) : Linked s.mem l ∨ (s.pc t).priv = some l := by
  cases e with
  | switch x l₁ l₂ c at_ moved same =>
      obtain ⟨n, hn, k, hk⟩ := hl
      change n ≤ s.mem.hmap + 1 at hn
      change Function.update s.mem.cover (s.mem.hmap + 1) c n k = l at hk
      rcases Nat.lt_or_eq_of_le hn with hlt | rfl
      · rw [Function.update_of_ne hlt.ne] at hk
        exact .inl ⟨n, Nat.lt_succ_iff.mp hlt, k, hk⟩
      · rw [Function.update_self] at hk
        by_cases hsame : c k = s.mem.cover s.mem.hmap k
        · exact .inl ⟨s.mem.hmap, le_rfl, k, hsame.symm.trans hk⟩
        · obtain ⟨-, h₁ | ⟨h₂, rfl⟩⟩ := moved k hsame
          · refine .inl ((h.own t).prim l ?_)
            rw [at_, ← hk, h₁]
            rfl
          · right
            rw [at_, ← hk, h₂]
            rfl
  | _ => exact .inl hl

omit [DecidableEq T] in
/-- A step of another thread keeps what a thread relies on. -/
theorem Inv.own_other {P : Params K V} {s : ScState T (Mem T K V) (Pc K V)} (h : Inv P s) {t u : T}
    {p' : Pc K V} {m' : Mem T K V} (hu : u ≠ t) (e : Effect t s.mem (s.pc t) p' m') :
    OwnOk P m' (s.pc u) := by
  have f := h.frame e
  have own := h.own u
  refine ⟨fun l hl => (own.prim l hl).frame f, fun l hl => ?_, fun l hl => f.used l (own.wants l hl),
    ?_, own.read.frame f⟩
  · refine ⟨f.used l (own.priv l hl).1, fun hlink => ?_⟩
    rcases h.linked_step e hlink with hold | hpriv
    · exact (own.priv l hl).2 hold
    · exact hu (h.priv u t l hl hpriv)
  · -- Versions and the `hmap` change only under `metalock`.
    have hexcl : (s.pc t).inMeta = true → (s.pc u).inMeta = true → False := by
      intro ht hu'
      exact hu (Option.some.inj ((h.metalock u hu').symm.trans (h.metalock t ht)))
    have hfree : (s.pc u).inMeta = false → LvOk m' (s.pc u) := by
      intro hno
      cases hpc : s.pc u <;> rw [hpc] at hno <;> trivial
    cases e with
    | setLv l inMeta same =>
        cases hm : (s.pc u).inMeta with
        | false => exact hfree hm
        | true => exact (hexcl inMeta hm).elim
    | switch x l₁ l₂ c at_ moved same =>
        cases hm : (s.pc u).inMeta with
        | false => exact hfree hm
        | true => exact (hexcl (by rw [at_]; rfl) hm).elim
    | _ => exact own.lv

/-! ## Versions, and the entries of the leaves -/

omit [DecidableEq T] in
/-- No version is above that of the next `hmap`. -/
theorem Inv.lvBound_step {P : Params K V} {s : ScState T (Mem T K V) (Pc K V)} (h : Inv P s) {t : T}
    {p' : Pc K V} {m' : Mem T K V} (e : Effect t s.mem (s.pc t) p' m') (l : Leaf) :
    m'.lv l ≤ m'.hmap + 1 := by
  cases e with
  | setLv l' own same =>
      show Function.update s.mem.lv l' _ l ≤ _
      by_cases heq : l = l'
      · rw [heq, Function.update_self]
        exact le_rfl
      · rw [Function.update_of_ne heq]
        exact h.lvBound l
  | switch x l₁ l₂ c at_ moved same => exact (h.lvBound l).trans (Nat.le_succ _)
  | _ => exact h.lvBound l

omit [DecidableEq T] in
/-- A leaf whose version is not above that of an `hmap` covers what it covered
there: a structural change raises the versions of the leaves that it changes. -/
theorem Inv.stable_step {P : Params K V} {s : ScState T (Mem T K V) (Pc K V)} (h : Inv P s) {t : T}
    {p' : Pc K V} {m' : Mem T K V} (e : Effect t s.mem (s.pc t) p' m') (n : Nat) (hn : n ≤ m'.hmap)
    (k : K) (hlv : m'.lv (m'.cover n k) ≤ n) : m'.cover m'.hmap k = m'.cover n k := by
  have f := h.frame e
  cases e with
  | switch x l₁ l₂ c at_ moved same =>
      change n ≤ s.mem.hmap + 1 at hn
      rcases Nat.lt_or_eq_of_le hn with hlt | rfl
      · have hcov := f.cover n (Nat.lt_succ_iff.mp hlt)
        rw [hcov] at hlv ⊢
        change s.mem.lv (s.mem.cover n k) ≤ n at hlv
        have hold := h.stable n (Nat.lt_succ_iff.mp hlt) k hlv
        show Function.update s.mem.cover (s.mem.hmap + 1) c (s.mem.hmap + 1) k = _
        rw [Function.update_self, ← hold]
        by_contra hne
        have hraised := (h.own t).lv
        rw [at_] at hraised
        rw [← hold] at hlv
        rcases (moved k hne).1 with h₁ | h₂
        · rw [h₁, hraised.1] at hlv
          omega
        · rw [h₂, hraised.2] at hlv
          omega
      · rfl
  | setLv l own same =>
      exact h.stable n hn k ((f.lv _).trans hlv)
  | _ => exact h.stable n hn k hlv

omit [DecidableEq T] in
/-- The leaf that covers a key is right for it whenever its counter is even. -/
theorem Inv.right_step {P : Params K V} {s : ScState T (Mem T K V) (Pc K V)} (h : Inv P s) {t : T}
    {c : Choice K V} {p' : Pc K V} {m' : Mem T K V} (ha : Assumed P s (t, c))
    (e : Effect t s.mem (s.pc t) p' m') (k : K)
    (heven : m'.seq (m'.cover m'.hmap k) % 2 = 0) : RightAt P m' k := by
  have hodd : ∀ l ∈ (s.pc t).writes, s.mem.seq l % 2 = 1 := fun l hl => h.locks.odd hl
  cases e with
  | none | acquire | release | metaLock | metaUnlock | setLv => exact h.right k heven
  | bump l mem holds ends writes =>
      by_cases hl : s.mem.cover s.mem.hmap k = l
      · -- The section of this leaf ends here.
        have hseq : (s.mem.seq l + 1) % 2 = 0 := by
          change Function.update s.mem.seq l _ (s.mem.cover s.mem.hmap k) % 2 = 0 at heven
          rwa [hl, Function.update_self] at heven
        have hw := ((h.locks.thread t).parity l mem).mp (by omega)
        obtain ⟨ls, n, hpc⟩ := ends ((h.locks.thread t).nodup) hw
        exact ha l ls n hpc k hl
      · refine h.right k ?_
        change Function.update s.mem.seq l _ (s.mem.cover s.mem.hmap k) % 2 = 0 at heven
        rwa [Function.update_of_ne hl] at heven
  | store l i e same mem =>
      have hne : s.mem.cover s.mem.hmap k ≠ l := by
        intro heq
        subst heq
        rcases mem with hw | hp
        · have := hodd _ hw
          change s.mem.seq (s.mem.cover s.mem.hmap k) % 2 = 0 at heven
          omega
        · exact ((h.own t).priv _ hp).2 ⟨s.mem.hmap, le_rfl, k, rfl⟩
      have hold := h.right k heven
      have hhs : (s.mem.setEntry l i e).hs (s.mem.cover s.mem.hmap k) =
          s.mem.hs (s.mem.cover s.mem.hmap k) := Function.update_of_ne hne ..
      unfold RightAt at hold ⊢
      change HsOk ((s.mem.setEntry l i e).hs (s.mem.cover s.mem.hmap k)) ∧
        ∀ v, Holds P ((s.mem.setEntry l i e).hs (s.mem.cover s.mem.hmap k)) k v ↔
          s.mem.content k = some v
      rw [hhs]
      exact hold
  | commit k' r same mem =>
      have hne : k ≠ k' := by
        intro heq
        subst heq
        have := hodd _ mem
        change s.mem.seq (s.mem.cover s.mem.hmap k) % 2 = 0 at heven
        omega
      have hold := h.right k heven
      refine ⟨hold.1, fun v => ?_⟩
      show _ ↔ Function.update s.mem.content k' r k = some v
      rw [Function.update_of_ne hne]
      exact hold.2 v
  | alloc l free same =>
      have hne : s.mem.cover s.mem.hmap k ≠ l := by
        intro heq
        subst heq
        cases free.symm.trans (h.used _ ⟨s.mem.hmap, le_rfl, k, rfl⟩)
      have hold := h.right k (by
        change Function.update s.mem.seq l 0 (s.mem.cover s.mem.hmap k) % 2 = 0 at heven
        rwa [Function.update_of_ne hne] at heven)
      have hhs : (s.mem.alloc l).hs (s.mem.cover s.mem.hmap k) =
          s.mem.hs (s.mem.cover s.mem.hmap k) := Function.update_of_ne hne ..
      unfold RightAt at hold ⊢
      change HsOk ((s.mem.alloc l).hs (s.mem.cover s.mem.hmap k)) ∧
        ∀ v, Holds P ((s.mem.alloc l).hs (s.mem.cover s.mem.hmap k)) k v ↔ s.mem.content k = some v
      rw [hhs]
      exact hold
  | switch x l₁ l₂ c' at_ moved same =>
      have hnew : (s.mem.switch c').cover (s.mem.switch c').hmap k = c' k := by
        show Function.update s.mem.cover (s.mem.hmap + 1) c' (s.mem.hmap + 1) k = c' k
        rw [Function.update_self]
      rw [hnew] at heven
      change s.mem.seq (c' k) % 2 = 0 at heven
      have hsame : c' k = s.mem.cover s.mem.hmap k := by
        by_contra hne
        have hw : c' k ∈ (s.pc t).writes := by
          rw [at_]
          rcases (moved k hne).2 with h₁ | ⟨h₂, -⟩
          · rw [h₁]
            exact .head _
          · rw [h₂]
            exact .tail _ (.head _)
        have := hodd _ hw
        omega
      have hold := h.right k (hsame ▸ heven)
      unfold RightAt at hold ⊢
      rw [hnew, hsame]
      exact hold

/-- **A step that meets `Assumed` keeps the invariant.** -/
theorem Inv.step {P : Params K V} {s : ScState T (Mem T K V) (Pc K V)} (h : Inv P s) {t : T}
    {c : Choice K V} {m' : Mem T K V} {p' : Pc K V} (ha : Assumed P s (t, c))
    (hstep : Step P t s.mem (s.pc t) m' p') :
    Inv P ⟨m', Function.update s.pc t p'⟩ := by
  have e := hstep.effect
  have f := h.frame e
  have roles := hstep.roles
  refine ⟨h.locks.step (h.own t).wants e, fun u hu => ?_, fun l hl => ?_, fun u u' l hu hu' => ?_,
    h.lvBound_step e, h.stable_step e, h.right_step ha e, fun u => ?_⟩
  · by_cases hut : u = t
    · subst hut
      simp only [Function.update_self] at hu
      rcases roles.enter hu with ⟨hin, hsame⟩ | ⟨-, hset⟩
      · exact hsame.trans (h.metalock u hin)
      · exact hset
    · simp only [Function.update_of_ne hut] at hu
      have hown := h.metalock u hu
      rcases roles.metalock with hsame | hnone | hin
      · exact hsame.trans hown
      · cases hnone.symm.trans hown
      · exact absurd (Option.some.inj (hown.symm.trans (h.metalock t hin))) hut
  · rcases h.linked_step e hl with hold | hpriv
    · exact f.used l (h.used l hold)
    · exact f.used l ((h.own t).priv l hpriv).1
  · -- A new leaf is one that nobody has.
    have hfresh : ∀ w, w ≠ t → (s.pc w).priv = some l → p'.priv = some l → w = t := by
      intro w _ hw hp
      rcases roles.priv l hp with hold | hfree
      · exact h.priv w t l hw hold
      · cases hfree.symm.trans ((h.own w).priv l hw).1
    by_cases hut : u = t <;> by_cases hut' : u' = t
    · rw [hut, hut']
    · subst hut
      simp only [Function.update_self, Function.update_of_ne hut'] at hu hu'
      exact (hfresh u' hut' hu' hu).symm
    · subst hut'
      simp only [Function.update_self, Function.update_of_ne hut] at hu hu'
      exact hfresh u hut hu hu'
    · simp only [Function.update_of_ne hut, Function.update_of_ne hut'] at hu hu'
      exact h.priv u u' l hu hu'
  · by_cases hut : u = t
    · subst hut
      simp only [Function.update_self]
      exact h.own_next hstep
    · simp only [Function.update_of_ne hut]
      exact h.own_other hut e

/-- The empty map is right. -/
theorem inv_init (P : Params K V) : Inv P (machine T P).init where
  locks := ⟨fun _ => ⟨nofun, List.nodup_nil, nofun⟩, fun _ _ => rfl, fun _ _ => rfl⟩
  metalock := nofun
  used := by
    intro l hl
    obtain ⟨n, -, k, rfl⟩ := hl
    rfl
  priv := nofun
  lvBound := fun _ => Nat.zero_le _
  stable := fun _ _ _ _ => rfl
  right := by
    intro k _
    refine ⟨⟨fun i j _ _ h => absurd rfl h, fun i j _ h => absurd rfl h, fun i j _ h => absurd rfl h⟩,
      fun v => iff_of_false ?_ nofun⟩
    intro hholds
    obtain ⟨i, -, hi⟩ := hholds
    exact (P.pkey_pos k).ne (hit_e1 hi)
  own := fun _ => ⟨nofun, nofun, nofun, trivial, trivial⟩

/-- Every state of a run that meets `Assumed` meets the invariant. -/
theorem inv_of_reachable {P : Params K V} {s : ScState T (Mem T K V) (Pc K V)}
    (h : (machine T P).ReachableUnder (Assumed P) s) : Inv P s := by
  refine Machine.ReachableUnder.invariant (inv_init P) ?_ h
  intro s a s' hinv ha hstep
  obtain ⟨t, c⟩ := a
  obtain ⟨m, p, hnext, rfl⟩ := interleave_step_cases hstep
  exact hinv.step ha (step_of_next hnext)

end

end WormholeGet
