import LockBench.WormholeGetInvariant
import LockBench.WormholeGetPaths

/-!
# What an optimistic `get` returns

At the second load of `occ_seq` the map holds what the walk has found, if the leaf's version has
not been raised; that it has not, the load of `lv` behind it tells.  So the second load is an
instant at which the map holds the result.

Both counters are 64 bits wide, and the code compares words.  The result stands as long as, in
this one `get`, the leaf does not come back to the word of `occ_seq` with which the walk began,
and is not given a version that has wrapped around.  `get_misses_after_wrap` shows that a `get`
needs the one and the other.
-/

namespace WormholeGet

/-! ## A reader and a writer

Thread `1` writes and thread `0` has called `get`, on a map whose keys are the two truth values.
-/

/-- Two keys of one partial hash; a kv is its key. -/
def flatParams : Params Bool Bool where
  pkey _ := 1
  keyOf := id
  pkey_pos _ := Nat.one_pos
  pkey_lt _ := by decide

/-- The first entries of a leaf, and none behind them. -/
def entriesOf (vs : List Bool) (i : Nat) : Entry Bool :=
  if h : i < vs.length then ⟨1, some (vs.get ⟨i, h⟩)⟩ else .empty

/-- The entries in use. -/
theorem e1_entriesOf {vs : List Bool} {i : Nat} : (entriesOf vs i).e1 ≠ 0 ↔ i < vs.length := by
  unfold entriesOf
  split
  next h => simpa using h
  next h => simpa [Entry.empty] using h

/-- Such a leaf is in order. -/
theorem hsOk_entriesOf (vs : List Bool) : HsOk (entriesOf vs) where
  sorted i j _ _ hi hj := by
    rw [e1_entriesOf] at hi hj
    simp [entriesOf, hi, hj]
  leftward i j _ hi hij hj := by
    rw [e1_entriesOf] at hi ⊢
    simp only [entriesOf, hi, dif_pos, hdiv, kpn] at hj
    omega
  rightward i j _ hi _ hj := by
    rw [e1_entriesOf] at hi ⊢
    omega

/-- The entries for a key. -/
theorem hit_entriesOf {vs : List Bool} {i : Nat} {k v : Bool} :
    hit flatParams k (entriesOf vs i) = some v ↔
      ∃ h : i < vs.length, vs.get ⟨i, h⟩ = v ∧ v = k := by
  unfold entriesOf
  split
  next h =>
    simp only [hit, flatParams, if_true, Option.filter_eq_some_iff, Option.some.injEq, id_eq, h,
      exists_true_left]
    exact and_congr_right fun _ => decide_eq_true_iff
  next h => simp [hit, flatParams, Entry.empty, h]

/-- Such a leaf is right for a map that holds the same keys. -/
theorem rightAt_entriesOf {T : Type} {m : Mem T Bool Bool} {l : Leaf} {vs : List Bool} {k : Bool}
    (hcover : m.cover m.hmap k = l) (hlen : vs.length ≤ kpn) (hs : m.hs l = entriesOf vs)
    (hcontent : m.content k = if k ∈ vs then some k else none) : RightAt flatParams m k := by
  unfold RightAt
  rw [hcover, hs]
  refine ⟨hsOk_entriesOf vs, fun v => ?_⟩
  rw [hcontent]
  constructor
  · intro hholds
    obtain ⟨i, -, hhit⟩ := hholds
    obtain ⟨hi, rfl, hk⟩ := hit_entriesOf.mp hhit
    rw [← hk, if_pos (List.get_mem vs ⟨i, hi⟩)]
  · intro hv
    split at hv
    next hmem =>
      obtain rfl : k = v := Option.some.inj hv
      obtain ⟨i, hi⟩ := List.get_of_mem hmem
      exact ⟨i, i.isLt.trans_le hlen, hit_entriesOf.mpr ⟨i.isLt, hi, rfl⟩⟩
    next => cases hv

/-- Both keys, in one section. -/
def fillBoth : List (Edit Bool Bool) :=
  [.store 0 ⟨1, some false⟩, .store 1 ⟨1, some true⟩, .commit false (some false),
    .commit true (some true)]

/-- The map with both keys. -/
def full : Mem (Fin 2) Bool Bool :=
  (machine (Fin 2) flatParams).init.mem.sectioned 1 0 fillBoth

/-- The empty map is calm. -/
theorem calm_init : Calm (machine (Fin 2) flatParams).init.mem 0 1 :=
  ⟨rfl, rfl, fun _ => rfl, rfl,
    fun _ hl => ⟨decide_eq_false (Nat.one_le_iff_ne_zero.mp hl), rfl⟩, Nat.one_pos⟩

/-- It is calm. -/
theorem calm_full : Calm full 0 1 :=
  calm_init.sectioned 1 fillBoth

/-- Its leaf has both entries. -/
theorem hs_full : full.hs 0 = entriesOf [false, true] := by
  funext i
  rcases i with _ | _ | i
  · rfl
  · rfl
  · simp [full, fillBoth, Mem.sectioned, Mem.edits, Mem.setEntry, Mem.setContent, entriesOf]
    rfl

/-- And it is right. -/
theorem rightAt_full (k : Bool) : RightAt flatParams full k :=
  rightAt_entriesOf rfl (by decide) hs_full (by cases k <;> rfl)

/-- The map with both keys is reached. -/
theorem full_reached : (machine (Fin 2) flatParams).ReachableUnder (Assumed flatParams)
    ⟨full, fun _ => .idle⟩ :=
  Machine.ReachableUnder.init.path
    (section_path (fun _ _ ha => ha) rfl calm_init true fillBoth rightAt_full)

section

variable
  {C : ScState (Fin 2) (Mem (Fin 2) Bool Bool) (Pc Bool Bool) → Fin 2 × Choice Bool Bool → Prop}
  {m : Mem (Fin 2) Bool Bool} {h : Nat} {l : Leaf}

/-- The state in which thread `0` is at a point, and the other idle. -/
abbrev reading (m : Mem (Fin 2) Bool Bool) (p : Pc Bool Bool) :
    ScState (Fin 2) (Mem (Fin 2) Bool Bool) (Pc Bool Bool) :=
  ⟨m, Function.update (fun _ => .idle) 0 p⟩

/-- The reader's point. -/
theorem pc_reading (m : Mem (Fin 2) Bool Bool) (p : Pc Bool Bool) : (reading m p).pc 0 = p := by
  simp

/-- The step neither ends a section nor returns. -/
theorem during_of {p : Pc Bool Bool} (c : Choice Bool Bool) (hp : ∀ l ls n, p ≠ .unlock l ls n)
    (hret : ∀ k r, p ≠ .returned k r) : During flatParams 0 (reading m p) (0, c) :=
  ⟨assumed_of_ne hp, fun ⟨_, k, r, hpc⟩ => hret k r ((pc_reading m p).symm.trans hpc)⟩

/-- The bound on the write sections, if the step loads `occ_seq` again. -/
theorem fewSections_of {p : Pc Bool Bool} (c : Choice Bool Bool)
    (hfew : ∀ k h l q r, p = .getSeqEnd k h l q r → m.seq l < q + 2 ^ 64) :
    FewSections 0 (reading m p) (0, c) :=
  fun _ k h l q r hpc => hfew k h l q r ((pc_reading m p).symm.trans hpc)

/-- The bound on the version, if the step loads `lv` again. -/
theorem sameEra_of {p : Pc Bool Bool} (c : Choice Bool Bool)
    (hera : ∀ k h l r, p = .getLvEnd k h l r → m.lv l / 2 ^ 64 ≤ h / 2 ^ 64) :
    SameEra 0 (reading m p) (0, c) :=
  fun _ k h l r hpc => hera k h l r ((pc_reading m p).symm.trans hpc)

/-- The points at which nothing is asked of a step of the reader. -/
def Pc.quiet : Pc Bool Bool → Bool
  | .unlock _ _ _ | .returned _ _ | .getSeqEnd _ _ _ _ _ | .getLvEnd _ _ _ _ => false
  | _ => true

/-- A step of the reader at such a point. -/
theorem quiet_step
    (hC : ∀ s a, During flatParams 0 s a ∧ FewSections 0 s a ∧ SameEra 0 s a → C s a)
    {p q : Pc Bool Bool} {as : List (Fin 2 × Choice Bool Bool)}
    {s : ScState (Fin 2) (Mem (Fin 2) Bool Bool) (Pc Bool Bool)}
    (hnext : next flatParams 0 m p .go = some (m, q)) (hp : p.quiet = true)
    (tail : (machine (Fin 2) flatParams).Path C (reading m q) as s) :
    (machine (Fin 2) flatParams).Path C (reading m p) ((0, .go) :: as) s := by
  refine .cons (step_update hnext) (hC _ _ ⟨during_of .go ?_ ?_, fewSections_of .go ?_,
    sameEra_of .go ?_⟩) tail
  all_goals
    intros
    try intro
    subst_vars
    cases hp

/-- The reader loads the `hmap` and looks at the leaf that covers the key. -/
theorem load_path
    (hC : ∀ s a, During flatParams 0 s a ∧ FewSections 0 s a ∧ SameEra 0 s a → C s a) {k : Bool}
    (hcover : m.cover m.hmap k = l) (hlv : m.lv l = m.hmap) :
    (machine (Fin 2) flatParams).Path C (reading m (.getLoad k)) [(0, .go), (0, .go), (0, .go)]
      (reading m (.getSeq k m.hmap l)) := by
  refine quiet_step hC (q := .getJump k m.hmap) rfl rfl ?_
  refine quiet_step hC (q := .getLv k m.hmap l) ?_ rfl ?_
  · rw [← hcover]
    rfl
  refine quiet_step hC (q := .getSeq k m.hmap l) ?_ rfl (.nil _)
  simp [next, hlv]

/-- The reader loads an even `occ_seq` and begins its walk. -/
theorem probe_path
    (hC : ∀ s a, During flatParams 0 s a ∧ FewSections 0 s a ∧ SameEra 0 s a → C s a) {k : Bool}
    (heven : m.seq l % 2 = 0) :
    (machine (Fin 2) flatParams).Path C (reading m (.getSeq k h l)) [(0, .go), (0, .go)]
      (reading m (probeNext flatParams k h l (m.seq l) (m.hs l (home flatParams k)))) := by
  refine quiet_step hC (q := .probe k h l (m.seq l)) ?_ rfl (quiet_step hC rfl rfl (.nil _))
  simp [next, u64_mod_two, heven]

/-- The reader finds `occ_seq` as it was. -/
theorem seqEnd_path
    (hC : ∀ s a, During flatParams 0 s a ∧ FewSections 0 s a ∧ SameEra 0 s a → C s a) {k : Bool}
    {r : Option Bool} :
    (machine (Fin 2) flatParams).Path C (reading m (.getSeqEnd k h l (m.seq l) r)) [(0, .go)]
      (reading m (.getLvEnd k h l r)) := by
  refine .cons (step_update ?_) (hC _ _ ⟨during_of .go (by simp) (by simp), fewSections_of .go ?_,
    sameEra_of .go (by simp)⟩) (.nil _)
  · simp [next]
  · intro k' h' l' q' r' hpc
    obtain ⟨-, -, rfl, rfl, -⟩ := Pc.getSeqEnd.injEq .. ▸ hpc
    exact Nat.lt_add_of_pos_right (Nat.two_pow_pos 64)

/-- The last load of `lv`, with a version that has not wrapped around. -/
theorem lvEnd_path
    (hC : ∀ s a, During flatParams 0 s a ∧ FewSections 0 s a ∧ SameEra 0 s a → C s a) {k : Bool}
    {r : Option Bool} {p : Pc Bool Bool} (hera : m.lv l / 2 ^ 64 ≤ h / 2 ^ 64)
    (hp : (if u64 (m.lv l) ≤ u64 h then .returned k r else .getLoad k) = p) :
    (machine (Fin 2) flatParams).Path C (reading m (.getLvEnd k h l r)) [(0, .go)]
      (reading m p) := by
  refine .cons (step_update ?_) (hC _ _ ⟨during_of .go (by simp) (by simp),
    fewSections_of .go (by simp), sameEra_of .go ?_⟩) (.nil _)
  · rw [← hp]
    rfl
  · intro k' h' l' r' hpc
    obtain ⟨-, rfl, rfl, -⟩ := Pc.getLvEnd.injEq .. ▸ hpc
    exact hera

/-- In a leaf with the other key only, the walk for `true` finds nothing. -/
theorem miss_path
    (hC : ∀ s a, During flatParams 0 s a ∧ FewSections 0 s a ∧ SameEra 0 s a → C s a)
    (heven : m.seq l % 2 = 0) (hs : m.hs l = entriesOf [false]) :
    (machine (Fin 2) flatParams).Path C (reading m (.getSeq true h l))
      [(0, .go), (0, .go), (0, .go), (0, .go)] (reading m (.getLvEnd true h l none)) := by
  have hprobe := probe_path (h := h) hC (k := true) heven
  rw [hs] at hprobe
  refine hprobe.append (quiet_step hC ?_ rfl (seqEnd_path hC))
  show some (m, rightNext flatParams true h l (m.seq l) 1 (m.hs l 1)) = _
  rw [hs]
  rfl

/-- In a leaf with the key only, the first probe finds it. -/
theorem hit_path
    (hC : ∀ s a, During flatParams 0 s a ∧ FewSections 0 s a ∧ SameEra 0 s a → C s a)
    (heven : m.seq l % 2 = 0) (hs : m.hs l = entriesOf [true]) :
    (machine (Fin 2) flatParams).Path C (reading m (.getSeq true h l))
      [(0, .go), (0, .go), (0, .go)] (reading m (.getLvEnd true h l (some true))) := by
  have hprobe := probe_path (h := h) hC (k := true) heven
  rw [hs] at hprobe
  exact hprobe.append (seqEnd_path hC)

end

/-- A split of leaf `0` that moves the key `true` to leaf `l`. -/
def moved (m : Mem (Fin 2) Bool Bool) (l : Leaf) : Mem (Fin 2) Bool Bool :=
  m.splitted 1 0 l [.store 1 .empty] [(0, ⟨1, some true⟩)] id

/-- Each leaf has its key. -/
theorem hs_moved {m : Mem (Fin 2) Bool Bool} {l : Leaf} (hl : 0 < l)
    (hs : m.hs 0 = entriesOf [false, true]) :
    (moved m l).hs 0 = entriesOf [false] ∧ (moved m l).hs l = entriesOf [true] := by
  have hhs : (moved m l).hs = Function.update (Function.update
      (Function.update m.hs l fun _ => .empty) 0 (Function.update (m.hs 0) 1 .empty)) l
        (Function.update (fun _ => .empty) 0 ⟨1, some true⟩) := by
    simp [moved, Mem.splitted, Mem.settled, Mem.changed, Mem.filled, Mem.stores, Mem.edits,
      Mem.setEntry, Mem.switch, Mem.setLv, Mem.setLock, Mem.bump, Mem.alloc, Mem.opened, hl.ne,
      hl.ne']
  rw [hhs]
  constructor <;> funext i
  · rw [Function.update_of_ne hl.ne, Function.update_self, hs]
    rcases i with _ | _ | i <;> rfl
  · rw [Function.update_self]
    rcases i with _ | i <;> rfl

/-- Each leaf is right. -/
theorem rightAt_moved {m : Mem (Fin 2) Bool Bool} {l b : Leaf} (h : Calm m 0 b) (hl : b ≤ l)
    (hs : m.hs 0 = entriesOf [false, true]) (hcontent : ∀ k, m.content k = some k) (k : Bool) :
    RightAt flatParams (moved m l) k := by
  have hafter := h.splitted 1 hl [.store 1 .empty] [(0, ⟨1, some true⟩)] id
  obtain ⟨hold, hnew⟩ := hs_moved (h.below.trans_le hl) hs
  have hkeep : (moved m l).content k = some k := hcontent k
  cases k with
  | false => exact rightAt_entriesOf (hafter.cover false) (by decide) hold hkeep
  | true => exact rightAt_entriesOf (hafter.cover true) (by decide) hnew hkeep

/-- The split as a path. -/
theorem moved_path
    {C : ScState (Fin 2) (Mem (Fin 2) Bool Bool) (Pc Bool Bool) → Fin 2 × Choice Bool Bool → Prop}
    (hC : ∀ s c, Assumed flatParams s (1, c) → C s (1, c)) {m : Mem (Fin 2) Bool Bool} {l b : Leaf}
    (h : Calm m 0 b) (hl : b ≤ l) (hs : m.hs 0 = entriesOf [false, true])
    (hcontent : ∀ k, m.content k = some k) (p : Pc Bool Bool) :
    (machine (Fin 2) flatParams).Path C (reading m p)
      (splitActs 1 true l [.store 1 .empty] [(0, ⟨1, some true⟩)] id) (reading (moved m l) p) :=
  split_path hC (Function.update_of_ne (by decide) ..) h true hl _ _ _
    (rightAt_moved h hl hs hcontent)

/-- Of the steps of the writer only `Assumed` is asked. -/
theorem writer_free (s : ScState (Fin 2) (Mem (Fin 2) Bool Bool) (Pc Bool Bool))
    (c : Choice Bool Bool) (h : Assumed flatParams s (1, c)) :
    During flatParams 0 s (1, c) ∧ FewSections 0 s (1, c) ∧ SameEra 0 s (1, c) :=
  ⟨⟨h, fun hr => one_ne_zero hr.1⟩, fun ht => absurd ht one_ne_zero,
    fun ht => absurd ht one_ne_zero⟩

section

variable {T K V : Type} [DecidableEq T] [DecidableEq K]

/-! ## The instant of a `get` -/

/-- What the thread's result rests on, given the states seen since its call. -/
def Seen (t : T) (Z : Set (ScState T (Mem T K V) (Pc K V)))
    (s : ScState T (Mem T K V) (Pc K V)) : Prop :=
  match s.pc t with
  | .getLvEnd k n l r => s.mem.lv l ≤ n → ∃ z ∈ Z, z.mem.content k = r
  | .returned k r => ∃ z ∈ Z, z.mem.content k = r
  | _ => True

omit [DecidableEq T] [DecidableEq K] in
/-- Before the last two loads there is no result. -/
theorem seen_of_not_late {t : T} {Z : Set (ScState T (Mem T K V) (Pc K V))}
    {s : ScState T (Mem T K V) (Pc K V)} (h : (s.pc t).late = false) : Seen t Z s := by
  unfold Seen
  cases hpc : s.pc t <;> rw [hpc] at h <;> trivial

omit [DecidableEq T] [DecidableEq K] in
/-- More states seen. -/
theorem Seen.mono {t : T} {Z Z' : Set (ScState T (Mem T K V) (Pc K V))}
    {s : ScState T (Mem T K V) (Pc K V)} (hZ : Z ⊆ Z') (h : Seen t Z s) : Seen t Z' s := by
  unfold Seen at h ⊢
  split at h
  · intro hlv
    obtain ⟨z, hz, heq⟩ := h hlv
    exact ⟨z, hZ hz, heq⟩
  · obtain ⟨z, hz, heq⟩ := h
    exact ⟨z, hZ hz, heq⟩
  · trivial

/-- The word of a counter that has been bumped fewer than `2 ^ 64` times is another one, unless
the counter has not moved. -/
theorem eq_of_u64_eq {q n : Nat} (hword : u64 q = u64 n) (hle : q ≤ n) (hlt : n < q + 2 ^ 64) :
    n = q := by
  unfold u64 at hword
  omega

/-- Versions are compared as their words, when the upper bits do not matter. -/
theorem le_of_u64_le {v n : Nat} (hword : u64 v ≤ u64 n) (hera : v / 2 ^ 64 ≤ n / 2 ^ 64) :
    v ≤ n := by
  unfold u64 at hword
  omega

omit [DecidableEq T] in
/-- At the second load of `occ_seq` the map holds what the walk found, unless the
leaf's version has been raised. -/
theorem Inv.content_of_result {P : Params K V} {s : ScState T (Mem T K V) (Pc K V)} (h : Inv P s)
    {t : T} {k : K} {n : Nat} {l : Leaf} {q : Nat} {r : Option V}
    (hpc : s.pc t = .getSeqEnd k n l q r) (hword : u64 q = u64 (s.mem.seq l))
    (hfew : s.mem.seq l < q + 2 ^ 64) (hlv : s.mem.lv l ≤ n) : s.mem.content k = r := by
  have w : WindowOk P s.mem k n l q (.getSeqEnd k n l q r) := by
    have hread := (h.own t).read
    rwa [hpc] at hread
  have hseq : s.mem.seq l = q := eq_of_u64_eq hword w.le hfew
  obtain ⟨hcover, -, hright⟩ := h.right_of_window w hseq hlv
  rw [hcover] at hright
  obtain ⟨hfound, hnone⟩ := w.walk hseq hlv
  cases r with
  | some v => exact (hright v).mp (hfound v rfl)
  | none =>
      rw [Option.eq_none_iff_forall_ne_some]
      intro v hv
      obtain ⟨i, hi, hhit⟩ := (hright v).mpr hv
      cases (hnone rfl i hi).symm.trans hhit

/-- **One step**: the second load of `occ_seq` adds the instant, the last load of `lv` confirms
it, and the steps of others do not take it back. -/
theorem Seen.step {P : Params K V} {t : T} {Z : Set (ScState T (Mem T K V) (Pc K V))}
    {s s' : ScState T (Mem T K V) (Pc K V)} {a : T × Choice K V} (hinv : Inv P s) (hs : s ∈ Z)
    (h : Seen t Z s) (hfew : FewSections t s a) (hera : SameEra t s a)
    (hstep : (machine T P).step s a = some s') : Seen t (insert s' Z) s' := by
  obtain ⟨m, p, hnext, rfl⟩ := interleave_step_cases hstep
  have hst := step_of_next hnext
  by_cases ht : a.1 = t
  · subst ht
    cases hlate : p.late with
    | false => exact seen_of_not_late (by simp only [Function.update_self]; exact hlate)
    | true =>
        rcases hst.late hlate with ⟨k, n, l, q, r, hpc, hword, rfl, rfl⟩ |
          ⟨k, n, l, r, hpc, hle, rfl, rfl⟩
        · unfold Seen
          simp only [Function.update_self]
          intro hlv
          exact ⟨s, .inr hs, hinv.content_of_result hpc hword (hfew rfl k n l q r hpc) hlv⟩
        · unfold Seen at h ⊢
          rw [hpc] at h
          simp only [Function.update_self]
          obtain ⟨z, hz, heq⟩ := h (le_of_u64_le hle (hera rfl k n l r hpc))
          exact ⟨z, .inr hz, heq⟩
  · have hframe := hinv.frame hst.effect
    have hmono := h.mono (Set.subset_insert (⟨m, Function.update s.pc a.1 p⟩ : ScState _ _ _) Z)
    unfold Seen at hmono ⊢
    simp only [Function.update_of_ne (Ne.symm ht)]
    split at hmono
    next k n l r hpc => exact fun hlv => hmono ((hframe.lv l).trans hlv)
    next k r hpc => exact hmono
    next => trivial

/-- **Every optimistic `get` returns what the map held at an instant of the call.**
The states between its call and its return are those of a path on which the thread
does not return; one of them has the result under the key. -/
theorem get_returns_content {P : Params K V} {s₀ s₁ s₂ : ScState T (Mem T K V) (Pc K V)} {t : T}
    {k : K} {r : Option V} {as : List (T × Choice K V)}
    (hreach : (machine T P).ReachableUnder (Assumed P) s₀) (hidle : s₀.pc t = .idle)
    (hcall : (machine T P).step s₀ (t, .get k) = some s₁)
    (hpath : (machine T P).Path
      (fun s a => During P t s a ∧ FewSections t s a ∧ SameEra t s a) s₁ as s₂)
    (hret : s₂.pc t = .returned k r) :
    ∃ z ∈ (machine T P).onPath
      (fun s a => During P t s a ∧ FewSections t s a ∧ SameEra t s a) s₁ as s₂,
      z.mem.content k = r := by
  have hinv₁ : Inv P s₁ := by
    refine inv_of_reachable (.step hreach (fun l ls n hpc => ?_) hcall)
    cases hidle.symm.trans hpc
  have hseen₁ : Seen t {s₁} s₁ := by
    obtain ⟨m, p, hnext, rfl⟩ := interleave_step_cases hcall
    simp only [hidle, next, Option.some.injEq, Prod.mk.injEq] at hnext
    obtain ⟨rfl, rfl⟩ := hnext
    exact seen_of_not_late (by simp only [Function.update_self]; rfl)
  have hwindow := Machine.Path.window
    (R := fun Z s => Inv P s ∧ s ∈ Z ∧ Seen t Z s)
    (fun Z Z' s hZ h => ⟨h.1, hZ h.2.1, h.2.2.mono hZ⟩)
    (fun Z s a s' h hcond hstep => by
      obtain ⟨m, p, hnext, rfl⟩ := interleave_step_cases hstep
      exact ⟨h.1.step hcond.1.1 (step_of_next hnext), Set.mem_insert _ _,
        h.2.2.step h.1 h.2.1 hcond.2.1 hcond.2.2 hstep⟩)
    hpath ⟨hinv₁, rfl, hseen₁⟩
  obtain ⟨-, -, hseen⟩ := hwindow
  unfold Seen at hseen
  rwa [hret] at hseen

/-- Without a `commit` for the key the map holds the same under it all along. -/
theorem content_onPath {P : Params K V} {C : ScState T (Mem T K V) (Pc K V) → T × Choice K V → Prop}
    {s₁ s₂ z : ScState T (Mem T K V) (Pc K V)} {as : List (T × Choice K V)} {k : K}
    (hno : ∀ a ∈ as, ∀ r, a.2 ≠ .commit k r) (hz : z ∈ (machine T P).onPath C s₁ as s₂) :
    z.mem.content k = s₁.mem.content k := by
  obtain ⟨as₁, as₂, rfl, hpre, -⟩ := hz
  refine hpre.invariant (I := fun s => s.mem.content k = s₁.mem.content k) ?_ rfl
  intro s a s' ha hs _ hstep
  obtain ⟨m, p, hnext, rfl⟩ := interleave_step_cases hstep
  exact (next_content hnext (hno a (List.mem_append_left as₂ ha))).trans hs

end

/-- A `get` is called, the whole split of its leaf moves the key away between the first load of
`lv` and that of `occ_seq`, the walk finds nothing, and the `get` begins again. -/
theorem get_across_split_returns_content :
    ∃ z ∈ (machine (Fin 2) flatParams).onPath
      (fun s a => During flatParams 0 s a ∧ FewSections 0 s a ∧ SameEra 0 s a)
      (reading full (.getLoad true))
      (List.flatten [List.replicate 3 (0, .go),
        splitActs 1 true 1 [.store 1 .empty] [(0, ⟨1, some true⟩)] id,
        List.replicate 12 (0, .go)])
      (reading (moved full 1) (.returned true (some true))),
      z.mem.content true = some true := by
  have hafter := calm_full.splitted 1 (le_refl 1) [.store 1 .empty] [(0, ⟨1, some true⟩)] id
  obtain ⟨hold, hnew⟩ := hs_moved (l := 1) Nat.one_pos hs_full
  have hhmap : (moved full 1).hmap = 1 := hafter.hmap
  have hlv : (moved full 1).lv 0 = 1 := hafter.lv
  refine get_returns_content full_reached rfl rfl ?_ (pc_reading _ _)
  have hload := load_path (m := full) (l := 0) (k := true) (fun _ _ h => h) rfl rfl
  have hsplit := moved_path
    (C := fun s a => During flatParams 0 s a ∧ FewSections 0 s a ∧ SameEra 0 s a)
    writer_free calm_full (l := 1) le_rfl hs_full (by decide)
    (.getSeq true 0 0)
  have hmiss := miss_path (m := moved full 1) (h := 0) (l := 0) (fun _ _ h => h)
    (congrArg (· % 2) hafter.seq) hold
  have hretry := lvEnd_path (m := moved full 1) (h := 0) (l := 0) (k := true) (r := none)
    (p := .getLoad true) (fun _ _ h => h) (by rw [hlv]; decide)
    (if_neg (by rw [hlv]; decide))
  have hagain := load_path (m := moved full 1) (l := 1) (k := true) (fun _ _ h => h)
    (hafter.cover true) (hafter.lvNext.trans hafter.hmap.symm)
  have hhit := hit_path (m := moved full 1) (h := (moved full 1).hmap) (l := 1) (fun _ _ h => h)
    (congrArg (· % 2) hafter.seqNext) hnew
  have hsame : (moved full 1).lv 1 = (moved full 1).hmap := hafter.lvNext.trans hafter.hmap.symm
  have hlast := lvEnd_path (m := moved full 1) (h := (moved full 1).hmap) (l := 1) (k := true)
    (r := some true) (p := .returned true (some true)) (fun _ _ h => h) (by rw [hsame])
    (if_pos (by rw [hsame]))
  exact hload.append (hsplit.append (hmiss.append
    (hretry.append (hagain.append (hhit.append hlast)))))

/-- Every `get` returns what the map held at an instant of the call, if the steps meet `C`. -/
def ReturnsContent {T K V : Type} [DecidableEq T] [DecidableEq K] (P : Params K V)
    (C : T → ScState T (Mem T K V) (Pc K V) → T × Choice K V → Prop) : Prop :=
  ∀ (s₀ s₁ s₂ : ScState T (Mem T K V) (Pc K V)) (t : T) (k : K) (r : Option V)
    (as : List (T × Choice K V)),
    (machine T P).ReachableUnder (Assumed P) s₀ → s₀.pc t = .idle →
    (machine T P).step s₀ (t, .get k) = some s₁ →
    (machine T P).Path (fun s a => During P t s a ∧ C t s a) s₁ as s₂ →
    s₂.pc t = .returned k r →
    ∃ z ∈ (machine T P).onPath (During P t) s₁ as s₂, z.mem.content k = r

section

variable {C : Fin 2 → ScState (Fin 2) (Mem (Fin 2) Bool Bool) (Pc Bool Bool) →
  Fin 2 × Choice Bool Bool → Prop}

/-- A weaker condition asks for more. -/
theorem ReturnsContent.mono {C' : Fin 2 → ScState (Fin 2) (Mem (Fin 2) Bool Bool) (Pc Bool Bool) →
      Fin 2 × Choice Bool Bool → Prop} (hC : ∀ t s a, C' t s a → C t s a)
    (h : ReturnsContent flatParams C) : ReturnsContent flatParams C' :=
  fun s₀ s₁ s₂ t k r as hreach hidle hcall hpath hret =>
    h s₀ s₁ s₂ t k r as hreach hidle hcall (hpath.mono fun s a hd => ⟨hd.1, hC t s a hd.2⟩) hret

/-- A key that the map holds all the time is found. -/
theorem ReturnsContent.found (h : ReturnsContent flatParams C) {m m' : Mem (Fin 2) Bool Bool}
    {r : Option Bool} {as : List (Fin 2 × Choice Bool Bool)}
    (hreach : (machine (Fin 2) flatParams).ReachableUnder (Assumed flatParams) ⟨m, fun _ => .idle⟩)
    (hpath : (machine (Fin 2) flatParams).Path (fun s a => During flatParams 0 s a ∧ C 0 s a)
      (reading m (.getLoad true)) as (reading m' (.returned true r)))
    (hno : ∀ a ∈ as, ∀ r, a.2 ≠ .commit true r) : m.content true = r := by
  obtain ⟨z, hz, hr⟩ := h ⟨m, fun _ => .idle⟩ _ _ 0 true r as hreach rfl rfl hpath (pc_reading _ _)
  exact (content_onPath hno hz).symm.trans hr

end

/-- The deletion of the first key: the second takes its place. -/
def deleteFirst : List (Edit Bool Bool) :=
  [.store 0 ⟨1, some true⟩, .store 1 .empty, .commit false none]

/-- The map without it. -/
def half : Mem (Fin 2) Bool Bool :=
  full.sectioned 1 0 deleteFirst

/-- It is right. -/
theorem rightAt_half (k : Bool) : RightAt flatParams half k := by
  have hs : half.hs 0 = entriesOf [true] := by
    funext i
    rcases i with _ | _ | i
    · rfl
    · rfl
    · simp [half, full, fillBoth, deleteFirst, Mem.sectioned, Mem.edits, Mem.setEntry,
        Mem.setContent, entriesOf]
      rfl
  exact rightAt_entriesOf rfl (by decide) hs (by cases k <;> rfl)

/-- With `2 ^ 63` write sections inside one `get` the counter is back where the `get` read it
first. -/
theorem misses_after_sections : ¬ReturnsContent flatParams (SameEra (T := Fin 2)) := by
  intro h
  let C : ScState (Fin 2) (Mem (Fin 2) Bool Bool) (Pc Bool Bool) →
      Fin 2 × Choice Bool Bool → Prop := fun s a => During flatParams 0 s a ∧ SameEra 0 s a
  have hread : ∀ s a, During flatParams 0 s a ∧ FewSections 0 s a ∧ SameEra 0 s a → C s a :=
    fun _ _ hc => ⟨hc.1, hc.2.2⟩
  have hwrite : ∀ s c, Assumed flatParams s (1, c) → C s (1, c) :=
    fun s c ha => hread _ _ (writer_free s c ha)
  have hcalm : Calm half 0 1 := calm_full.sectioned 1 deleteFirst
  have hseq : full.seq 0 = 2 := seq_sectioned _ 1 0 fillBoth
  have hload := load_path (m := full) (l := 0) (k := true) hread rfl rfl
  -- The reader passes the entry that the key is about to be moved to.
  have hprobe := probe_path (m := full) (h := 0) (l := 0) (k := true) hread (by rw [hseq])
  rw [hs_full, hseq] at hprobe
  have hdelete := section_path (C := C) (f := (reading full (.right true 0 0 2 1)).pc) hwrite rfl
    calm_full true deleteFirst rightAt_half
  have hmiss := quiet_step (m := half) (p := .right true 0 0 2 1) (q := .getSeqEnd true 0 0 2 none)
    hread rfl rfl (.nil _)
  obtain ⟨as, m, hsections, hcalm', hseq', hhmap, has⟩ := sections_path (C := C)
    (f := (reading half (.getSeqEnd true 0 0 2 none)).pc) hwrite rfl true (2 ^ 63 - 1) hcalm
    rightAt_half
  have hword : u64 (m.seq 0) = u64 2 := by
    have hhalf : half.seq 0 = full.seq 0 + 2 := seq_sectioned full 1 0 deleteFirst
    rw [hseq', hhalf, hseq, u64, u64]
    omega
  have hvalid : (machine (Fin 2) flatParams).Path C (reading m (.getSeqEnd true 0 0 2 none))
      [(0, .go)] (reading m (.getLvEnd true 0 0 none)) := by
    refine .cons (step_update ?_)
      ⟨during_of .go (by simp) (by simp), sameEra_of .go (by simp)⟩ (.nil _)
    exact congrArg some (Prod.ext rfl (if_pos hword.symm))
  have hlv : m.lv 0 = 0 := hcalm'.lv.trans hhmap
  have hlast := lvEnd_path (m := m) (h := 0) (l := 0) (k := true) (r := none)
    (p := .returned true none) hread (by rw [hlv]) (if_pos (by rw [hlv]))
  have hpath := hload.append (hprobe.append (hdelete.append (hmiss.append
    (hsections.append (hvalid.append hlast)))))
  have hfull : full.content true = some true := rfl
  refine Option.some_ne_none true (hfull.symm.trans (h.found full_reached hpath ?_))
  simp only [List.forall_mem_append]
  refine ⟨?_, ?_, ?_, ?_, fun a ha r => has a ha true r, ?_, ?_⟩
  all_goals simp [sectionActs, enterActs, leaveActs, deleteFirst, Edit.choice]

/-- A version that wraps around inside one `get` is below that of the `hmap` again. -/
theorem misses_after_version : ¬ReturnsContent flatParams (FewSections (T := Fin 2)) := by
  intro h
  let C : ScState (Fin 2) (Mem (Fin 2) Bool Bool) (Pc Bool Bool) →
      Fin 2 × Choice Bool Bool → Prop := fun s a => During flatParams 0 s a ∧ FewSections 0 s a
  have hread : ∀ s a, During flatParams 0 s a ∧ FewSections 0 s a ∧ SameEra 0 s a → C s a :=
    fun _ _ hc => ⟨hc.1, hc.2.1⟩
  have hwrite : ∀ s c, Assumed flatParams s (1, c) → C s (1, c) :=
    fun s c ha => hread _ _ (writer_free s c ha)
  obtain ⟨as, m, b, hsplits, hcalm, hhmap, hseq, hhs, hcontent⟩ := splits_path (P := flatParams)
    (C := Assumed flatParams) (t := 1) (f := fun _ => .idle) (fun _ _ ha => ha) rfl true
    (2 ^ 64 - 1) calm_full rightAt_full
  have hfull : m.content true = some true := by
    rw [hcontent]
    rfl
  have hafter := hcalm.splitted 1 (le_refl b) [.store 1 .empty] [(0, ⟨1, some true⟩)] id
  have hs : m.hs 0 = entriesOf [false, true] := hhs.trans hs_full
  have hload := load_path (k := true) hread (hcalm.cover true) hcalm.lv
  have hsplit := moved_path (C := C) hwrite hcalm (l := b) le_rfl hs
    (fun k => (congrFun hcontent k).trans (by cases k <;> rfl)) (.getSeq true m.hmap 0)
  have heven : (moved m b).seq 0 % 2 = 0 := by
    have hstart : full.seq 0 = 2 := seq_sectioned _ 1 0 fillBoth
    have hmoved : (moved m b).seq 0 = m.seq 0 + 2 := hafter.seq
    rw [hstart] at hseq
    omega
  have hmiss := miss_path (m := moved m b) (h := m.hmap) (l := 0) hread heven
    (hs_moved hcalm.below hs).1
  have hword : u64 ((moved m b).lv 0) ≤ u64 m.hmap := by
    have hlv : (moved m b).lv 0 = m.hmap + 1 := hafter.lv
    have hzero : full.hmap = 0 := rfl
    rw [hlv, hhmap, hzero, u64, u64]
    omega
  have hlast : (machine (Fin 2) flatParams).Path C
      (reading (moved m b) (.getLvEnd true m.hmap 0 none)) [(0, .go)]
      (reading (moved m b) (.returned true none)) := by
    refine .cons (step_update ?_)
      ⟨during_of .go (by simp) (by simp), fewSections_of .go (by simp)⟩ (.nil _)
    exact congrArg some (Prod.ext rfl (if_pos hword))
  have hpath := hload.append (hsplit.append (hmiss.append hlast))
  refine Option.some_ne_none true (hfull.symm.trans (h.found (full_reached.path hsplits) hpath ?_))
  simp only [List.forall_mem_append]
  refine ⟨?_, ?_, ?_, ?_⟩
  all_goals simp [splitActs, fillActs, changeActs, enterActs, Edit.choice]

/-- **Both bounds are needed.**  A key that the map holds all the time is not found if the leaf has
`2 ^ 63` write sections inside the `get`, nor if a split inside the `get` gives it the version
that is `0` to the code. -/
theorem get_misses_after_wrap :
    ¬ReturnsContent flatParams (fun (_ : Fin 2) _ _ => True) ∧
      ¬ReturnsContent flatParams (SameEra (T := Fin 2)) ∧
      ¬ReturnsContent flatParams (FewSections (T := Fin 2)) :=
  ⟨fun h => misses_after_sections (h.mono fun _ _ _ _ => trivial), misses_after_sections,
    misses_after_version⟩

end WormholeGet
