import LockBench.SkipListQuiet

/-!
# The stores of the skip list

The seven steps that write data: the allocation of a node, the fill of its
pointers, the link of a level, the store of `fully_linked`, the update of a value,
the mark of a victim and the unlink of a level.  Each of them keeps the shape, for
the heights it leaves, and writes nothing outside the frame.
-/

namespace SkipList

section Stores

variable {T K V : Type} [LinearOrder K] {m m' : Mem T K V} {h : Addr → Nat} {t : T}

/-! ## The node of an insertion, before it is linked -/

/-- A step that writes nothing but a node `n` that is in no list. -/
structure NodeOnly (n : Addr) (m m' : Mem T K V) : Prop where
  fresh : m.fresh ≤ m'.fresh
  rank : ∀ a, a < m.fresh → m'.rank a = m.rank a
  top : ∀ a, a < m.fresh → m'.top a = m.top a
  topLt : ∀ a, m'.top a < maxLevel
  val : ∀ a, a < m.fresh → m'.val a = m.val a
  next : ∀ a, a ≠ n → m'.next a = m.next a
  marked : m'.marked = m.marked
  full : ∀ a, a < m.fresh → m'.fullyLinked a = m.fullyLinked a
  notFull : ∀ a, m.fresh ≤ a → a < m'.fresh → m'.fullyLinked a = false
  owner : m'.owner = m.owner
  readers : m'.readers = m.readers
  version : ∀ a, a < m.fresh → m'.version a = m.version a

namespace NodeOnly

variable {n : Addr}

/-- Membership in the lists, past or present, is the same before and after. -/
theorem was_iff (hn : NodeOnly n m m') (hs : Shape m h) {a : Addr} {l : Nat} :
    Was m' h a l ↔ Was m h a l := by
  unfold Was
  by_cases ha : a < m.fresh
  · rw [hn.marked, hn.top a ha]
  · obtain ⟨h0, hm⟩ := hs.unborn a (not_lt.mp ha)
    rw [hn.marked]
    simp [h0, hm]

/-- The lists are unchanged, since the written node is in none of them. -/
theorem shape (hn : NodeOnly n m m') (hs : Shape m h) (h0 : h n = 0)
    (hm : m.marked n = false) : Shape m' h := by
  have hne : ∀ {a l}, Was m h a l → a ≠ n := by
    rintro a l ha rfl
    rcases ha with ha | ha
    · omega
    · simp [hm] at ha
  have hhead : Was m h head 0 := .inl (by rw [hs.headHeight]; decide)
  have htail : Was m h tail 0 := .inl (by rw [hs.tailHeight]; decide)
  refine ⟨le_trans hs.fresh hn.fresh, hs.headHeight, hs.tailHeight, ?_, ?_, ?_, ?_, ?_,
    fun a b ha hb hr => ?_, fun a l ha hat => ?_, fun a l ha hl => ?_, fun a ha hl => ?_,
    fun a => ?_, hn.topLt, fun a hf hb hu => ?_, fun a ha => ?_, fun a ha => ?_⟩
  · rw [hn.rank _ (hs.lt_fresh hhead)]
    exact hs.headRank
  · rw [hn.rank _ (hs.lt_fresh htail)]
    exact hs.tailRank
  · rw [hn.marked]
    exact hs.headUnmarked
  · rw [hn.marked]
    exact hs.tailUnmarked
  · rw [hn.full _ (hs.lt_fresh htail)]
    exact hs.tailFull
  · rw [hn.rank a (hs.lt_fresh (l := 0) (.inl ha)), hn.rank b (hs.lt_fresh (l := 0) (.inl hb))] at hr
    exact hs.inj a b ha hb hr
  · obtain ⟨h1, h2, h3⟩ := hs.succ a l ha hat
    rw [hn.next a (hne (.inl ha)), hn.rank a (hs.lt_fresh (.inl ha)),
      hn.rank _ (hs.lt_fresh (.inl h1))]
    refine ⟨h1, h2, fun b hb hr => ?_⟩
    rw [hn.rank b (hs.lt_fresh (.inl hb))] at hr ⊢
    exact h3 b hb hr
  · have ha := (hn.was_iff hs).mp ha
    obtain ⟨h1, h2⟩ := hs.frozen a l ha hl
    rw [hn.next a (hne ha), hn.was_iff hs, hn.rank a (hs.lt_fresh ha), hn.rank _ (hs.lt_fresh h1)]
    exact ⟨h1, h2⟩
  · rw [hn.marked] at ha
    have hw : Was m h a 0 := .inr ⟨ha, Nat.zero_le _⟩
    rw [hn.next a (hne hw), hn.full _ (hs.lt_fresh (hs.frozen a 0 hw hl).1)]
    exact hs.frozenFull a ha hl
  · by_cases ha : a < m.fresh
    · rw [hn.top a ha]
      exact hs.height a
    · rw [(hs.unborn a (not_lt.mp ha)).1]
      exact Nat.zero_le _
  · by_cases ha : a < m.fresh
    · rw [hn.full a ha] at hf
      rw [hn.marked] at hu
      rw [hn.top a ha]
      exact hs.full a hf ha hu
    · rw [hn.notFull a (not_lt.mp ha) hb] at hf
      cases hf
  · rw [hn.marked] at ha
    rw [hn.full a (hs.lt_fresh (l := 0) (.inr ⟨ha, Nat.zero_le _⟩))]
    exact hs.markedFull a ha
  · rw [hn.marked]
    exact hs.unborn a (le_trans hn.fresh ha)

/-- **To every other thread the step is invisible.** -/
theorem frame (hn : NodeOnly n m m') (hs : Shape m h) {mine : Option Addr} (h0 : h n = 0)
    (hm : m.marked n = false) (hmine : n < m.fresh → mine = some n) : Frame t mine m h m' h where
  fresh := hn.fresh
  rank := hn.rank
  top := hn.top
  was a l hw := (hn.was_iff hs).mpr hw
  owner a u _ ho := by rw [hn.owner]; exact ho
  readers a u _ hr := by rw [hn.readers]; exact hr
  next a hw _ := hn.next a (by
    rintro rfl
    rcases hw with hw | hw
    · omega
    · simp [hm] at hw)
  marked a _ _ := by rw [hn.marked]
  full a ha hf := by rw [hn.full a ha]; exact hf
  linked a l hl _ := hl
  victim a _ _ := rfl
  others a ha hf hne := by
    have han : a ≠ n := by
      rintro rfl
      exact hne (hmine ha)
    exact ⟨by rw [hn.full a ha]; exact hf, by rw [hn.marked], hn.val a ha, rfl,
      fun j _ => by rw [hn.next a han]⟩
  version a ha := (hn.version a ha).ge
  val a ha _ := hn.val a ha
  frozen a l hw _ := by
    rw [hn.next a]
    rintro rfl
    rcases hw with hw | hw
    · omega
    · simp [hm] at hw
  stays a _ hma := by rw [hn.marked]; exact hma
  newMarked a hma := .inl (by rwa [hn.marked] at hma)
  newFull a ha hf := .inl (by rwa [hn.full a ha] at hf)
  newborn a ha := (hs.unborn a ha).1

/-- The map does not depend on nodes that are in no list. -/
theorem mapOf_eq (hn : NodeOnly n m m') (hs : Shape m h) (hs' : Shape m' h) :
    mapOf m' = mapOf m := by
  refine mapOf_congr hs hs' (fun a => ?_) fun a ha => ?_
  · by_cases h0 : 0 < h a
    · rw [hn.marked, hn.full a (hs.lt_fresh (.inl h0))]
    · simp [h0]
  · have hb := hs.lt_fresh (l := 0) (.inl ha)
    exact ⟨hn.rank a hb, hn.val a hb⟩

/-- The pointers of a node are its own. -/
theorem setNext (hs : Shape m h) (n : Addr) (l : Nat) (b : Addr) :
    NodeOnly n m (m.setNext n l b) where
  fresh := le_refl _
  rank _ _ := rfl
  top _ _ := rfl
  topLt := hs.top
  val _ _ := rfl
  next a ha := by simp [Mem.setNext, ha]
  marked := rfl
  full _ _ := rfl
  notFull a ha hb := absurd hb (not_lt.mpr ha)
  owner := rfl
  readers := rfl
  version _ _ := rfl

/-- Allocation writes the new node only. -/
theorem alloc (hs : Shape m h) (hk : LocksOk m) (k : K) (v : V) {top : Nat}
    (htop : top < maxLevel) : NodeOnly m.fresh m (m.alloc k v top) where
  fresh := Nat.le_succ _
  rank a ha := by simp [Mem.alloc, ne_of_lt ha]
  top a ha := by simp [Mem.alloc, ne_of_lt ha]
  topLt a := by
    by_cases ha : a = m.fresh
    · simpa [Mem.alloc, ha] using htop
    · simpa [Mem.alloc, ha] using hs.top a
  val a ha := by simp [Mem.alloc, ne_of_lt ha]
  next a ha := by simp [Mem.alloc, ha]
  marked := by
    rw [← Function.update_eq_self m.fresh m.marked, (hs.unborn m.fresh (le_refl _)).2]
    simp [Mem.alloc]
  full a ha := by simp [Mem.alloc, ne_of_lt ha]
  notFull a ha hb := by
    have : a = m.fresh := le_antisymm (Nat.lt_succ_iff.mp hb) ha
    simp [Mem.alloc, this]
  owner := by
    rw [← Function.update_eq_self m.fresh m.owner, (hk.free m.fresh (le_refl _)).1]
    simp [Mem.alloc]
  readers := by
    rw [← Function.update_eq_self m.fresh m.readers, (hk.free m.fresh (le_refl _)).2]
    simp [Mem.alloc]
  version a ha := by simp [Mem.alloc, ne_of_lt ha]

end NodeOnly

/-! ## Linking a level -/

/-- What an insertion knows when it links node `n` behind `p` at level `lvl`. -/
structure CanLink (m : Mem T K V) (h : Addr → Nat) (n p : Addr) (lvl : Nat) : Prop where
  linked : lvl < h p
  unmarked : m.marked p = false
  left : m.rank p < m.rank n
  right : m.rank n < m.rank (m.next p lvl)
  next : m.next n lvl = m.next p lvl
  height : h n = lvl
  born : n < m.fresh
  new : m.marked n = false ∧ m.fullyLinked n = false
  top : lvl ≤ m.top n

namespace CanLink

variable {n p : Addr} {lvl : Nat}

/-- Nothing is linked behind the tail. -/
theorem ne_tail (hc : CanLink m h n p lvl) (hs : Shape m h) : p ≠ tail := by
  rintro rfl
  have := hc.left
  rw [hs.tailRank] at this
  exact not_top_lt this

omit [LinearOrder K] in
/-- Only the inserted node grows. -/
theorem height_of_ne {a : Addr} (ha : a ≠ n) : Function.update h n (lvl + 1) a = h a := by
  simp [ha]

/-- Linking lowers no height. -/
theorem le (hc : CanLink m h n p lvl) (a : Addr) : h a ≤ Function.update h n (lvl + 1) a := by
  by_cases ha : a = n
  · subst ha
    simp [hc.height]
  · simp [ha]

/-- What is linked after the step was linked before, or is the new node at its new level. -/
theorem cases (hc : CanLink m h n p lvl) {a : Addr} {l : Nat}
    (ha : l < Function.update h n (lvl + 1) a) : l < h a ∨ (a = n ∧ l = lvl) := by
  by_cases han : a = n
  · subst han
    rw [Function.update_self] at ha
    rcases Nat.lt_succ_iff_lt_or_eq.mp ha with ha | ha
    · exact .inl (by rw [hc.height]; exact ha)
    · exact .inr ⟨rfl, ha⟩
  · exact .inl (by simpa [han] using ha)

omit [LinearOrder K] in
/-- All other pointers are as before. -/
theorem setNext_eq {a : Addr} {l : Nat} (hne : ¬ (a = p ∧ l = lvl)) :
    (m.setNext p lvl n).next a l = m.next a l := by
  by_cases ha : a = p
  · subst ha
    have hl : l ≠ lvl := fun hl => hne ⟨rfl, hl⟩
    simp [Mem.setNext, hl]
  · simp [Mem.setNext, ha]

omit [LinearOrder K] in
/-- The predecessor now points to the new node. -/
theorem setNext_self : (m.setNext p lvl n).next p lvl = n := by
  simp [Mem.setNext]

/-- **The pointers after the store** lead to the next node of the level, the new node included. -/
theorem succ (hc : CanLink m h n p lvl) (hs : Shape m h) {a : Addr} {l : Nat}
    (ha : l < Function.update h n (lvl + 1) a) (hat : a ≠ tail) :
    l < Function.update h n (lvl + 1) ((m.setNext p lvl n).next a l) ∧
      m.rank a < m.rank ((m.setNext p lvl n).next a l) ∧
      ∀ b, l < Function.update h n (lvl + 1) b → m.rank a < m.rank b →
        m.rank ((m.setNext p lvl n).next a l) ≤ m.rank b := by
  obtain ⟨hp1, hp2, hp3⟩ := hs.succ p lvl hc.linked (hc.ne_tail hs)
  by_cases hpl : a = p ∧ l = lvl
  · -- the predecessor, at the level that is being linked
    obtain ⟨rfl, rfl⟩ := hpl
    rw [setNext_self]
    refine ⟨by simp, hc.left, fun b hb hr => ?_⟩
    rcases hc.cases hb with hb | ⟨rfl, -⟩
    · exact le_trans (le_of_lt hc.right) (hp3 b hb hr)
    · exact le_refl _
  rw [setNext_eq hpl]
  rcases hc.cases ha with ha' | ⟨rfl, rfl⟩
  · -- a node linked before
    obtain ⟨h1, h2, h3⟩ := hs.succ a l ha' hat
    refine ⟨lt_of_lt_of_le h1 (hc.le _), h2, fun b hb hr => ?_⟩
    rcases hc.cases hb with hb | ⟨rfl, rfl⟩
    · exact h3 b hb hr
    · -- it is to the left of the predecessor, or to the right of its successor
      rcases lt_trichotomy (m.rank a) (m.rank p) with hlt | heq | hgt
      · exact le_trans (h3 p hc.linked hlt) (le_of_lt hc.left)
      · have hl := hc.linked
        exact absurd ⟨hs.inj a p (by omega) (by omega) heq, rfl⟩ hpl
      · exact absurd (lt_of_lt_of_le hc.right (hp3 a ha' hgt)) (not_lt.mpr (le_of_lt hr))
  · -- the new node
    rw [hc.next]
    refine ⟨lt_of_lt_of_le hp1 (hc.le _), hc.right, fun b hb hr => ?_⟩
    rcases hc.cases hb with hb | ⟨rfl, -⟩
    · exact hp3 b hb (hc.left.trans hr)
    · exact absurd hr (lt_irrefl _)

/-- **Linking keeps the lists.** -/
theorem shape (hc : CanLink m h n p lvl) (hs : Shape m h) :
    Shape (m.setNext p lvl n) (Function.update h n (lvl + 1)) := by
  have hmarked : ∀ {a}, m.marked a = true → a ≠ n ∧ a ≠ p := by
    rintro a ha
    constructor
    · rintro rfl
      simp [hc.new.1] at ha
    · rintro rfl
      simp [hc.unmarked] at ha
  have hinj : ∀ b, 0 < h b → m.rank n = m.rank b → n = b := by
    intro b hb hr
    by_cases h0 : 0 < h n
    · exact hs.inj n b h0 hb hr
    · obtain rfl : lvl = 0 := by have := hc.height; omega
      have hle := (hs.succ p 0 hc.linked (hc.ne_tail hs)).2.2 b hb (hr ▸ hc.left)
      exact absurd hc.right (not_lt.mpr (hr ▸ hle))
  have hhead : head ≠ n := by
    rintro rfl
    have h1 := hc.left
    rw [hs.headRank] at h1
    exact not_lt_bot h1
  have htail : tail ≠ n := by
    rintro rfl
    have h1 := hc.right
    rw [hs.tailRank] at h1
    exact not_top_lt h1
  have hwas : ∀ {a l}, Was m h a l → Was (m.setNext p lvl n) (Function.update h n (lvl + 1)) a l := by
    rintro a l (ha | ha)
    · exact .inl (lt_of_lt_of_le ha (hc.le a))
    · exact .inr ha
  refine ⟨hs.fresh, by simpa [hhead] using hs.headHeight, by simpa [htail] using hs.tailHeight,
    hs.headRank, hs.tailRank, hs.headUnmarked, hs.tailUnmarked, hs.tailFull,
    fun a b ha hb hr => ?_, fun a l ha hat => hc.succ hs ha hat, fun a l ha hl => ?_,
    fun a ha hl => ?_, fun a => ?_, hs.top, fun a hf hb hu => ?_, hs.markedFull, fun a ha => ?_⟩
  · rcases hc.cases ha with ha' | ⟨rfl, -⟩
    · rcases hc.cases hb with hb | ⟨rfl, -⟩
      · exact hs.inj a b ha' hb hr
      · exact (hinj a ha' hr.symm).symm
    · rcases hc.cases hb with hb | ⟨rfl, -⟩
      · exact hinj b hb hr
      · rfl
  · have hm : m.marked a = true ∧ l ≤ m.top a := ha.resolve_left hl
    have hl' : ¬ l < h a := fun hlt => hl (lt_of_lt_of_le hlt (hc.le a))
    rw [setNext_eq fun he => (hmarked hm.1).2 he.1]
    obtain ⟨h1, h2⟩ := hs.frozen a l (.inr hm) hl'
    exact ⟨hwas h1, h2⟩
  · have ha : m.marked a = true := ha
    have hl' : ¬ 0 < h a := fun hlt => hl (lt_of_lt_of_le hlt (hc.le a))
    rw [setNext_eq fun he => (hmarked ha).2 he.1]
    exact hs.frozenFull a ha hl'
  · by_cases han : a = n
    · subst han
      simpa [Mem.setNext] using hc.top
    · rw [height_of_ne han]
      exact hs.height a
  · have han : a ≠ n := by
      rintro rfl
      have hf : m.fullyLinked a = true := hf
      simp [hc.new.2] at hf
    rw [height_of_ne han]
    exact hs.full a hf hb hu
  · have han : a ≠ n := fun he => absurd hc.born (not_lt.mpr (he ▸ ha))
    rw [height_of_ne han]
    exact hs.unborn a ha

/-- **What linking leaves alone**: the predecessor is locked by the linking thread. -/
theorem frame (hc : CanLink m h n p lvl) (hs : Shape m h) (hown : m.owner p = some t) :
    Frame t (some n) m h (m.setNext p lvl n) (Function.update h n (lvl + 1)) where
  fresh := le_refl _
  rank _ _ := rfl
  top _ _ := rfl
  was a l hw := by
    rcases hw with hw | hw
    · exact .inl (lt_of_lt_of_le hw (hc.le a))
    · exact .inr hw
  owner _ _ _ ho := ho
  readers _ _ _ hr := hr
  next a _ ho := by
    have hap : a ≠ p := by
      rintro rfl
      exact ho hown
    simp [Mem.setNext, hap]
  marked _ _ _ := rfl
  full _ _ hf := hf
  linked a l hl _ := lt_of_lt_of_le hl (hc.le a)
  victim a hm _ := by
    refine height_of_ne ?_
    rintro rfl
    simp [hc.new.1] at hm
  others a ha hf hne := by
    have han : a ≠ n := fun he => hne (by rw [he])
    refine ⟨hf, rfl, rfl, height_of_ne han, fun j hj => setNext_eq ?_⟩
    rintro ⟨rfl, rfl⟩
    exact absurd hc.linked (not_lt.mpr hj)
  version _ _ := le_refl _
  val _ _ _ := rfl
  frozen a l _ hl := by
    refine setNext_eq ?_
    rintro ⟨rfl, rfl⟩
    exact hl (lt_of_lt_of_le hc.linked (hc.le a))
  stays _ _ hm := hm
  newMarked _ hm := .inl hm
  newFull _ _ hf := .inl hf
  newborn a ha := by
    have han : a ≠ n := fun he => absurd hc.born (not_lt.mpr (he ▸ ha))
    rw [height_of_ne han]
    exact (hs.unborn a ha).1

/-- A node that is not fully linked is not in the map. -/
theorem mapOf_eq (hc : CanLink m h n p lvl) (hs : Shape m h) :
    mapOf (m.setNext p lvl n) = mapOf m := by
  refine mapOf_congr hs (hc.shape hs) (fun a => ?_) fun a _ => ⟨rfl, rfl⟩
  by_cases han : a = n
  · subst han
    simp [Mem.setNext, hc.new.2]
  · rw [height_of_ne han]
    rfl

end CanLink

/-! ## The stores that commit -/

/-- A step that writes the fields of one node of key `k` changes the map at `k` only. -/
theorem Shape.mapOf_update (hs : Shape m h) (hs' : Shape m' h) {n : Addr} {k : K} {r : Option V}
    (hr : m.rank n = rankOf k) (hrank : m'.rank = m.rank)
    (hoff : ∀ a, a ≠ n → m'.fullyLinked a = m.fullyLinked a ∧ m'.marked a = m.marked a ∧
      m'.val a = m.val a) (hk : mapOf m' k = r) : mapOf m' = Function.update (mapOf m) k r := by
  refine funext fun k' => ?_
  by_cases hkk : k' = k
  · rw [hkk, Function.update_self]
    exact hk
  · rw [Function.update_of_ne hkk]
    refine Option.ext fun v => ?_
    rw [hs'.mapOf_eq_some_iff, hs.mapOf_eq_some_iff, hrank]
    refine exists_congr fun a => ?_
    by_cases han : a = n
    · have hne : m.rank a ≠ rankOf k' := by
        rw [han, hr]
        exact fun he => hkk (by simpa [rankOf] using he.symm)
      simp [hne]
    · obtain ⟨h1, h2, h3⟩ := hoff a han
      rw [h1, h2, h3]

/-- The store of `fully_linked`. -/
def Mem.setFull (m : Mem T K V) (n : Addr) : Mem T K V :=
  { m with fullyLinked := Function.update m.fullyLinked n true }

/-- A node is published once it is linked at all its levels. -/
theorem Shape.setFull (hs : Shape m h) {n : Addr} (hn : h n = m.top n + 1) :
    Shape (m.setFull n) h := by
  have hfull : ∀ {a}, m.fullyLinked a = true → (m.setFull n).fullyLinked a = true := by
    intro a ha
    by_cases han : a = n
    · simp [Mem.setFull, han]
    · simpa [Mem.setFull, han] using ha
  refine ⟨hs.fresh, hs.headHeight, hs.tailHeight, hs.headRank, hs.tailRank, hs.headUnmarked,
    hs.tailUnmarked, hfull hs.tailFull, hs.inj, hs.succ, hs.frozen,
    fun a ha hl => hfull (hs.frozenFull a ha hl), hs.height, hs.top, fun a hf hb hu => ?_,
    fun a ha => hfull (hs.markedFull a ha), hs.unborn⟩
  by_cases han : a = n
  · rw [han]
    exact hn
  · exact hs.full a (by simpa [Mem.setFull, han] using hf) hb hu

/-- Publishing the new node touches nothing that other threads rely on. -/
theorem Frame.setFull (hs : Shape m h) {n : Addr} (h0 : 0 < h n) :
    Frame t (some n) m h (m.setFull n) h where
  fresh := le_refl _
  rank _ _ := rfl
  top _ _ := rfl
  was _ _ hw := hw
  owner _ _ _ ho := ho
  readers _ _ _ hr := hr
  next _ _ _ := rfl
  marked _ _ _ := rfl
  full a _ hf := by
    by_cases han : a = n
    · simp [Mem.setFull, han]
    · simpa [Mem.setFull, han] using hf
  linked _ _ hl _ := hl
  victim _ _ _ := rfl
  others a _ hf hne := by
    have han : a ≠ n := fun he => hne (by rw [he])
    exact ⟨by simpa [Mem.setFull, han] using hf, rfl, rfl, rfl, fun _ _ => rfl⟩
  version _ _ := le_refl _
  val _ _ _ := rfl
  frozen _ _ _ _ := rfl
  stays _ _ hm := hm
  newMarked _ hm := .inl hm
  newFull a _ hf := by
    by_cases han : a = n
    · exact .inr (han ▸ h0)
    · exact .inl (by simpa [Mem.setFull, han] using hf)
  newborn a ha := (hs.unborn a ha).1

/-- The last store of an insertion puts its key in the map. -/
theorem Shape.mapOf_setFull (hs : Shape m h) {n : Addr} {k : K} (hn : h n = m.top n + 1)
    (hr : m.rank n = rankOf k) (hf : m.fullyLinked n = false) (hm : m.marked n = false) :
    mapOf m k = none ∧ mapOf (m.setFull n) = Function.update (mapOf m) k (some (m.val n)) := by
  have h0 : 0 < h n := by omega
  have hs' := hs.setFull hn
  refine ⟨hs.mapOf_eq_none fun a ha hra hfa => ?_, hs.mapOf_update hs' hr rfl (fun a ha => ?_) ?_⟩
  · obtain rfl := hs.inj n a h0 ha (hr.trans hra.symm)
    simp [hf] at hfa
  · exact ⟨by simp [Mem.setFull, ha], rfl, rfl⟩
  · exact hs'.mapOf_eq_some_iff.mpr ⟨n, h0, by simp [Mem.setFull], hm, hr, rfl⟩

/-- The store of a value. -/
def Mem.setVal (m : Mem T K V) (n : Addr) (v : V) : Mem T K V :=
  { m with val := Function.update m.val n v }

/-- A value is no part of the shape. -/
theorem Shape.setVal (hs : Shape m h) (n : Addr) (v : V) : Shape (m.setVal n v) h :=
  ⟨hs.fresh, hs.headHeight, hs.tailHeight, hs.headRank, hs.tailRank, hs.headUnmarked,
    hs.tailUnmarked, hs.tailFull, hs.inj, hs.succ, hs.frozen, hs.frozenFull, hs.height, hs.top,
    hs.full, hs.markedFull, hs.unborn⟩

/-- A store of a value leaves every list and flag alone. -/
theorem Frame.setVal (hs : Shape m h) {n : Addr} (v : V) (hm : m.marked n = false)
    (hf : m.fullyLinked n = true) : Frame t none m h (m.setVal n v) h where
  fresh := le_refl _
  rank _ _ := rfl
  top _ _ := rfl
  was _ _ hw := hw
  owner _ _ _ ho := ho
  readers _ _ _ hr := hr
  next _ _ _ := rfl
  marked _ _ _ := rfl
  full _ _ hf := hf
  linked _ _ hl _ := hl
  victim _ _ _ := rfl
  others a _ hfa _ := by
    have han : a ≠ n := by
      rintro rfl
      simp [hf] at hfa
    exact ⟨hfa, rfl, by simp [Mem.setVal, han], rfl, fun _ _ => rfl⟩
  version _ _ := le_refl _
  val a _ hma := by
    have han : a ≠ n := by
      rintro rfl
      have hma : m.marked a = true := hma
      simp [hm] at hma
    simp [Mem.setVal, han]
  frozen _ _ _ _ := rfl
  stays _ _ hm := hm
  newMarked _ hm := .inl hm
  newFull _ _ hf := .inl hf
  newborn a ha := (hs.unborn a ha).1

/-- The store of a value overwrites the value of its key. -/
theorem Shape.mapOf_setVal (hs : Shape m h) {n : Addr} {k : K} {v : V} (h0 : 0 < h n)
    (hr : m.rank n = rankOf k) (hf : m.fullyLinked n = true) (hm : m.marked n = false) :
    mapOf m k = some (m.val n) ∧ mapOf (m.setVal n v) = Function.update (mapOf m) k (some v) := by
  have hs' := hs.setVal n v
  refine ⟨hs.mapOf_eq_some_iff.mpr ⟨n, h0, hf, hm, hr, rfl⟩,
    hs.mapOf_update hs' hr rfl (fun a ha => ⟨rfl, rfl, by simp [Mem.setVal, ha]⟩) ?_⟩
  exact hs'.mapOf_eq_some_iff.mpr ⟨n, h0, hf, hm, hr, by simp [Mem.setVal]⟩

/-- The mark of a node. -/
def Mem.setMarked (m : Mem T K V) (a : Addr) : Mem T K V :=
  { m with marked := Function.update m.marked a true }

omit [LinearOrder K] in
/-- Marks come from the store only. -/
theorem Mem.setMarked_marked {a b : Addr} (hb : (m.setMarked a).marked b = true) :
    b = a ∨ m.marked b = true := by
  by_cases hba : b = a
  · exact .inl hba
  · exact .inr (by simpa [Mem.setMarked, hba] using hb)

omit [LinearOrder K] in
/-- Marks stay. -/
theorem Mem.marked_setMarked {a b : Addr} (hb : m.marked b = true) :
    (m.setMarked a).marked b = true := by
  by_cases hba : b = a
  · simp [Mem.setMarked, hba]
  · simpa [Mem.setMarked, hba] using hb

/-- A fully linked node may be marked. -/
theorem Shape.setMarked (hs : Shape m h) {a : Addr} {k : K} (hr : m.rank a = rankOf k)
    (hf : m.fullyLinked a = true) (ha : h a = m.top a + 1) : Shape (m.setMarked a) h := by
  have hwas : ∀ {b l}, Was (m.setMarked a) h b l → ¬ l < h b → Was m h b l := by
    intro b l hw hl
    obtain ⟨hm, htop⟩ := hw.resolve_left hl
    rcases Mem.setMarked_marked hm with rfl | hm
    · have htop : l ≤ m.top b := htop
      omega
    · exact .inr ⟨hm, htop⟩
  have hwas' : ∀ {b l}, Was m h b l → Was (m.setMarked a) h b l := by
    rintro b l (hw | hw)
    · exact .inl hw
    · exact .inr ⟨Mem.marked_setMarked hw.1, hw.2⟩
  refine ⟨hs.fresh, hs.headHeight, hs.tailHeight, hs.headRank, hs.tailRank, ?_, ?_, hs.tailFull,
    hs.inj, hs.succ, fun b l hb hl => ?_, fun b hb hl => ?_, hs.height, hs.top,
    fun b hfb hb hu => ?_, fun b hb => ?_, fun b hb => ⟨(hs.unborn b hb).1, ?_⟩⟩
  · simpa [Mem.setMarked, (hs.ne_head_of_rank hr).symm] using hs.headUnmarked
  · simpa [Mem.setMarked, (hs.ne_tail_of_rank hr).symm] using hs.tailUnmarked
  · obtain ⟨h1, h2⟩ := hs.frozen b l (hwas hb hl) hl
    exact ⟨hwas' h1, h2⟩
  · rcases Mem.setMarked_marked hb with rfl | hm
    · omega
    · exact hs.frozenFull b hm hl
  · have hba : b ≠ a := by
      rintro rfl
      simp [Mem.setMarked] at hu
    exact hs.full b hfb hb (by simpa [Mem.setMarked, hba] using hu)
  · rcases Mem.setMarked_marked hb with rfl | hm
    · exact hf
    · exact hs.markedFull b hm
  · have hba : b ≠ a := by
      rintro rfl
      have := (hs.unborn b hb).1
      omega
    simpa [Mem.setMarked, hba] using (hs.unborn b hb).2

/-- **What marking leaves alone**: the victim is locked by the removing thread. -/
theorem Frame.setMarked (hs : Shape m h) {a : Addr} (hown : m.owner a = some t)
    (hf : m.fullyLinked a = true) (ha : 0 < h a) : Frame t none m h (m.setMarked a) h where
  fresh := le_refl _
  rank _ _ := rfl
  top _ _ := rfl
  was b l hw := by
    rcases hw with hw | hw
    · exact .inl hw
    · exact .inr ⟨Mem.marked_setMarked hw.1, hw.2⟩
  owner _ _ _ ho := ho
  readers _ _ _ hr := hr
  next _ _ _ := rfl
  marked b _ ho := by
    have hba : b ≠ a := by
      rintro rfl
      exact ho hown
    simp [Mem.setMarked, hba]
  full _ _ hf := hf
  linked _ _ hl _ := hl
  victim _ _ _ := rfl
  others b _ hfb _ := by
    have hba : b ≠ a := by
      rintro rfl
      simp [hf] at hfb
    exact ⟨hfb, by simp [Mem.setMarked, hba], rfl, rfl, fun _ _ => rfl⟩
  version _ _ := le_refl _
  val _ _ _ := rfl
  frozen _ _ _ _ := rfl
  stays _ _ hm := Mem.marked_setMarked hm
  newMarked b hm := by
    rcases Mem.setMarked_marked hm with rfl | hm
    · exact .inr ha
    · exact .inl hm
  newFull _ _ hf := .inl hf
  newborn b hb := (hs.unborn b hb).1

/-- The mark of a node takes its key out of the map. -/
theorem Shape.mapOf_setMarked (hs : Shape m h) {a : Addr} {k : K} (h0 : h a = m.top a + 1)
    (hr : m.rank a = rankOf k) (hf : m.fullyLinked a = true) (hm : m.marked a = false) :
    mapOf m k = some (m.val a) ∧ mapOf (m.setMarked a) = Function.update (mapOf m) k none := by
  have hs' := hs.setMarked hr hf h0
  have h0 : 0 < h a := by omega
  refine ⟨hs.mapOf_eq_some_iff.mpr ⟨a, h0, hf, hm, hr, rfl⟩,
    hs.mapOf_update hs' hr rfl (fun b hb => ⟨rfl, by simp [Mem.setMarked, hb], rfl⟩) ?_⟩
  refine hs'.mapOf_eq_none fun b hb hrb hfb => ?_
  obtain rfl := hs.inj a b h0 hb (hr.trans hrb.symm)
  simp [Mem.setMarked]

/-! ## Unlinking a level -/

/-- What a removal knows when it unlinks node `a` from behind `p` at level `lvl`. -/
structure CanUnlink (m : Mem T K V) (h : Addr → Nat) (a p : Addr) (lvl : Nat) : Prop where
  linked : lvl < h p
  unmarked : m.marked p = false
  next : m.next p lvl = a
  left : m.rank p < m.rank a
  ne_tail : a ≠ tail
  height : h a = lvl + 1
  marked : m.marked a = true
  full : lvl = 0 → m.fullyLinked (m.next a 0) = true

namespace CanUnlink

variable {a p : Addr} {lvl : Nat}

/-- The predecessor is another node than the victim. -/
theorem ne (hc : CanUnlink m h a p lvl) : p ≠ a := by
  intro he
  have := hc.left
  rw [he] at this
  exact lt_irrefl _ this

/-- The tail precedes nothing. -/
theorem pred_ne_tail (hc : CanUnlink m h a p lvl) (hs : Shape m h) : p ≠ tail := by
  rintro rfl
  have := hc.left
  rw [hs.tailRank] at this
  exact not_top_lt this

/-- The head is never removed. -/
theorem ne_head (hc : CanUnlink m h a p lvl) (hs : Shape m h) : a ≠ head := by
  rintro rfl
  have := hc.left
  rw [hs.headRank] at this
  exact not_lt_bot this

/-- What is linked before the step stays linked, except the victim at this level. -/
theorem cases (hc : CanUnlink m h a p lvl) {b : Addr} {l : Nat} (hb : l < h b) :
    l < Function.update h a lvl b ∨ (b = a ∧ l = lvl) := by
  by_cases hba : b = a
  · subst hba
    rw [hc.height] at hb
    rcases Nat.lt_succ_iff_lt_or_eq.mp hb with hb | hb
    · exact .inl (by simpa using hb)
    · exact .inr ⟨rfl, hb⟩
  · exact .inl (by simpa [hba] using hb)

/-- Unlinking raises no height. -/
theorem le (hc : CanUnlink m h a p lvl) (b : Addr) : Function.update h a lvl b ≤ h b := by
  by_cases hba : b = a
  · subst hba
    simp [hc.height]
  · simp [hba]

/-- **The pointers after the store** lead to the next node that is still linked. -/
theorem succ (hc : CanUnlink m h a p lvl) (hs : Shape m h) {b : Addr} {l : Nat}
    (hb : l < Function.update h a lvl b) (hbt : b ≠ tail) :
    l < Function.update h a lvl ((m.setNext p lvl (m.next a lvl)).next b l) ∧
      m.rank b < m.rank ((m.setNext p lvl (m.next a lvl)).next b l) ∧
      ∀ c, l < Function.update h a lvl c → m.rank b < m.rank c →
        m.rank ((m.setNext p lvl (m.next a lvl)).next b l) ≤ m.rank c := by
  have hlinked := hc.linked
  have hheight := hc.height
  obtain ⟨-, -, hp3⟩ := hs.succ p lvl hc.linked (hc.pred_ne_tail hs)
  obtain ⟨ha1, ha2, ha3⟩ := hs.succ a lvl (by omega) hc.ne_tail
  by_cases hpl : b = p ∧ l = lvl
  · -- the predecessor, at the level that is being unlinked
    obtain ⟨rfl, rfl⟩ := hpl
    rw [CanLink.setNext_self]
    have hne : m.next a l ≠ a := fun he => absurd ha2 (by rw [he]; exact lt_irrefl _)
    refine ⟨by simpa [hne] using ha1, hc.left.trans ha2, fun c hcl hr => ?_⟩
    have hca : c ≠ a := by
      rintro rfl
      simp at hcl
    have hcl : l < h c := by simpa [hca] using hcl
    have hle := hp3 c hcl hr
    rw [hc.next] at hle
    refine ha3 c hcl (lt_of_le_of_ne hle fun he => hca ?_)
    exact (hs.inj a c (by omega) (by omega) he).symm
  · rw [CanLink.setNext_eq hpl]
    have hb' := lt_of_lt_of_le hb (hc.le b)
    obtain ⟨h1, h2, h3⟩ := hs.succ b l hb' hbt
    refine ⟨(hc.cases h1).resolve_right ?_, h2,
      fun c hcl hr => h3 c (lt_of_lt_of_le hcl (hc.le c)) hr⟩
    rintro ⟨hna, rfl⟩
    exact hpl ⟨hs.pred_unique hb' hc.linked hbt (hc.pred_ne_tail hs) (hna.trans hc.next.symm), rfl⟩

/-- An unlinked node was linked once, which is what searches that stand on it know. -/
theorem was (hc : CanUnlink m h a p lvl) (hs : Shape m h) {b : Addr} {l : Nat} (hb : Was m h b l) :
    Was (m.setNext p lvl (m.next a lvl)) (Function.update h a lvl) b l := by
  rcases hb with hb | hb
  · rcases hc.cases hb with hb | ⟨rfl, rfl⟩
    · exact .inl hb
    · refine .inr ⟨hc.marked, ?_⟩
      have h1 := hs.height b
      have h2 := hc.height
      change l ≤ m.top b
      omega
  · exact .inr hb

/-- A node that has left a level keeps its pointer there, so a search on it finds its way back. -/
theorem setNext_frozen (hc : CanUnlink m h a p lvl) {b : Addr} {l : Nat}
    (hl : ¬ l < Function.update h a lvl b) :
    (m.setNext p lvl (m.next a lvl)).next b l = m.next b l := by
  refine CanLink.setNext_eq ?_
  rintro ⟨rfl, rfl⟩
  exact hl (by simpa [hc.ne] using hc.linked)

/-- **Unlinking keeps the lists.** -/
theorem shape (hc : CanUnlink m h a p lvl) (hs : Shape m h) :
    Shape (m.setNext p lvl (m.next a lvl)) (Function.update h a lvl) := by
  have hheight := hc.height
  have hne : ∀ {b}, b ≠ a → Function.update h a lvl b = h b := fun hb => by simp [hb]
  refine ⟨hs.fresh, (hne (hc.ne_head hs).symm).trans hs.headHeight,
    (hne hc.ne_tail.symm).trans hs.tailHeight, hs.headRank, hs.tailRank, hs.headUnmarked,
    hs.tailUnmarked, hs.tailFull, fun b c hb hcl hr => ?_, fun b l hb hbt => hc.succ hs hb hbt,
    fun b l hb hl => ?_, fun b hb hl => ?_, fun b => ?_, hs.top, fun b hf hb hu => ?_,
    hs.markedFull, fun b hb => ⟨?_, (hs.unborn b hb).2⟩⟩
  · exact hs.inj b c (lt_of_lt_of_le hb (hc.le b)) (lt_of_lt_of_le hcl (hc.le c)) hr
  · rw [hc.setNext_frozen hl]
    have hw : Was m h b l := by
      rcases hb with hb | hb
      · exact absurd hb hl
      · exact .inr hb
    by_cases hlb : l < h b
    · -- the victim, at the level that is being unlinked
      obtain ⟨rfl, rfl⟩ := (hc.cases hlb).resolve_left hl
      obtain ⟨h1, h2, -⟩ := hs.succ b l hlb hc.ne_tail
      exact ⟨hc.was hs (.inl h1), h2⟩
    · obtain ⟨h1, h2⟩ := hs.frozen b l hw hlb
      exact ⟨hc.was hs h1, h2⟩
  · rw [hc.setNext_frozen hl]
    by_cases hlb : 0 < h b
    · obtain ⟨rfl, h0⟩ := (hc.cases hlb).resolve_left hl
      exact hc.full h0.symm
    · exact hs.frozenFull b hb hlb
  · exact le_trans (hc.le b) (hs.height b)
  · have hba : b ≠ a := by
      rintro rfl
      have hu : m.marked b = false := hu
      simp [hc.marked] at hu
    rw [hne hba]
    exact hs.full b hf hb hu
  · have := hc.le b
    have := (hs.unborn b hb).1
    omega

/-- **What unlinking leaves alone**: the predecessor and the victim are locked by the removing
thread. -/
theorem frame (hc : CanUnlink m h a p lvl) (hs : Shape m h) (hown : m.owner p = some t)
    (hvictim : m.owner a = some t) :
    Frame t none m h (m.setNext p lvl (m.next a lvl)) (Function.update h a lvl) where
  fresh := le_refl _
  rank _ _ := rfl
  top _ _ := rfl
  was _ _ hw := hc.was hs hw
  owner _ _ _ ho := ho
  readers _ _ _ hr := hr
  next b _ ho := by
    have hbp : b ≠ p := by
      rintro rfl
      exact ho hown
    simp [Mem.setNext, hbp]
  marked _ _ _ := rfl
  full _ _ hf := hf
  linked b l hl hm := by
    refine (hc.cases hl).resolve_right ?_
    rintro ⟨rfl, -⟩
    have hm : m.marked b = false := hm
    simp [hc.marked] at hm
  victim b _ ho := by
    have hba : b ≠ a := by
      rintro rfl
      exact ho hvictim
    simp [hba]
  others b _ hf _ := by
    have hba : b ≠ a := by
      rintro rfl
      simp [hs.markedFull b hc.marked] at hf
    refine ⟨hf, rfl, rfl, by simp [hba], fun j hj => hc.setNext_frozen ?_⟩
    simpa [hba] using hj
  version _ _ := le_refl _
  val _ _ _ := rfl
  frozen _ _ _ hl := hc.setNext_frozen hl
  stays _ _ hm := hm
  newMarked _ hm := .inl hm
  newFull _ _ hf := .inl hf
  newborn b hb := by
    have h1 := hc.le b
    have h2 := (hs.unborn b hb).1
    omega

/-- A marked node is not in the map. -/
theorem mapOf_eq (hc : CanUnlink m h a p lvl) (hs : Shape m h) :
    mapOf (m.setNext p lvl (m.next a lvl)) = mapOf m := by
  refine mapOf_congr hs (hc.shape hs) (fun b => ?_) fun b _ => ⟨rfl, rfl⟩
  by_cases hba : b = a
  · subst hba
    simp [Mem.setNext, hc.marked]
  · rw [Function.update_of_ne hba]
    rfl

end CanUnlink

end Stores
end SkipList
