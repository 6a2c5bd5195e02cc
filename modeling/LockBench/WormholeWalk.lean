import Mathlib

/-!
# The two walks over the hash entries of a leaf

A leaf keeps its kv pointers in `hs`, ordered by a 16-bit hash, near the place the hash
points at.  `wormleaf_match_hs` looks a key up under the leaf's lock and returns an
index.  `wormhole_get` of the `WH_OCC_OPTIMISTIC` build has the same walk written out
again over packed 64-bit words, and keeps the kv pointer it finds.

Both walks run leftwards with an unsigned index that stops below 0 because it wraps.
Here a load outside the array is an error, and so is a loop that has used up its fuel;
the walks are compared on arrays of any content, ordered or not.
-/

namespace WormholeWalk

/-- `WH_KPN`. -/
def kpn : Nat := 128

/-- `WH_HDIV`. -/
def hdiv : Nat := 2 ^ 16 / kpn

/-- `struct kv *`; 0 is `NULL`. -/
abbrev Ptr := BitVec 64

/-- Why a walk has not returned. -/
inductive Stop
  | outOfBounds
  | running
  deriving DecidableEq

/-- `hs[i]`. -/
def load (hs : Fin kpn → BitVec 64) (i : BitVec 32) : Except Stop (BitVec 64) :=
  if h : i.toNat < kpn then .ok (hs ⟨i.toNat, h⟩) else .error .outOfBounds

/-- `wormhole_pkey`. -/
def wormholePkey (hash32 : BitVec 32) : BitVec 16 :=
  let pkey0 := hash32.setWidth 16 ^^^ (hash32 >>> 16).setWidth 16
  if pkey0 ≠ 0 then pkey0 else 1

/-- `pkey / WH_HDIV`. -/
def home (pkey : BitVec 16) : BitVec 32 :=
  pkey.setWidth 32 / BitVec.ofNat 32 hdiv

/-- The field `e1` of `struct entry13`. -/
def entryE1 (v : BitVec 64) : BitVec 16 :=
  v.extractLsb' 0 16

/-- The field `e3` of `struct entry13`, as a pointer. -/
def entryE3 (v : BitVec 64) : Ptr :=
  (v.extractLsb' 16 48).setWidth 64

section

variable (kvMatch : Ptr → Bool) (pkey : BitVec 16) (hs : Fin kpn → BitVec 64)

/-! ## `wormleaf_match_hs` -/

/-- A loop of `wormleaf_match_hs`; `stop` is the test that breaks it. -/
def matchLoop (stop : BitVec 16 → Bool) (step : BitVec 32 → BitVec 32) :
    Nat → BitVec 32 → Except Stop (Option (BitVec 32))
  | 0, _ => .error .running
  | fuel + 1, i =>
      if i < BitVec.ofNat 32 kpn then do
        let v ← load hs i
        if entryE1 v = pkey then
          if kvMatch (entryE3 v) then return some i
          else matchLoop stop step fuel (step i)
        else if stop (entryE1 v) then return none
        else matchLoop stop step fuel (step i)
      else return none

/-- The search to the left is over at a smaller hash. -/
def stopLeft (e1 : BitVec 16) : Bool :=
  e1 < pkey

/-- The search to the right is over at a larger hash or an empty entry. -/
def stopRight (e1 : BitVec 16) : Bool :=
  e1 > pkey || e1 == 0

/-- `wormleaf_match_hs`, with fuel for each of its loops. -/
def wormleafMatchHs (fuel : Nat) : Except Stop (BitVec 32) := do
  let i0 := home pkey
  let v ← load hs i0
  if entryE1 v = pkey ∧ kvMatch (entryE3 v) then
    return i0
  else if entryE1 v = 0 then
    return BitVec.ofNat 32 kpn
  else
    match ← matchLoop kvMatch pkey hs (stopLeft pkey) (· - 1) fuel (i0 - 1) with
    | some i => return i
    | none =>
        match ← matchLoop kvMatch pkey hs (stopRight pkey) (· + 1) fuel (i0 + 1) with
        | some i => return i
        | none => return BitVec.ofNat 32 kpn

/-! ## The walk of `wormhole_get` -/

/-- `(u16)(ev & 0xFFFFu)`. -/
def wordE1 (ev : BitVec 64) : BitVec 16 :=
  (ev &&& 0xFFFF).setWidth 16

/-- `u64_to_ptr(ev >> 16)`. -/
def wordE3 (ev : BitVec 64) : Ptr :=
  ev >>> 16

/-- `curr && wormhole_kref_kv_match(key, curr)`. -/
def currMatch (curr : Ptr) : Bool :=
  curr != 0 && kvMatch curr

/-- A loop of the walk; what it finds is what `tmp` is made from. -/
def walkLoop (stop : BitVec 16 → Bool) (step : BitVec 32 → BitVec 32) :
    Nat → BitVec 32 → Except Stop (Option Ptr)
  | 0, _ => .error .running
  | fuel + 1, i =>
      if i < BitVec.ofNat 32 kpn then do
        let ev ← load hs i
        if wordE1 ev = pkey then
          if currMatch kvMatch (wordE3 ev) then return some (wordE3 ev)
          else walkLoop stop step fuel (step i)
        else if stop (wordE1 ev) then return none
        else walkLoop stop step fuel (step i)
      else return none

/-- The walk, with fuel for each of its loops; `NULL` if nothing matched. -/
def optimisticWalk (fuel : Nat) : Except Stop Ptr := do
  let i0 := home pkey
  let ev ← load hs i0
  if wordE1 ev = pkey ∧ currMatch kvMatch (wordE3 ev) then
    return wordE3 ev
  else if wordE1 ev = 0 then
    return 0
  else
    match ← walkLoop kvMatch pkey hs (stopLeft pkey) (· - 1) fuel (i0 - 1) with
    | some p => return p
    | none =>
        match ← walkLoop kvMatch pkey hs (stopRight pkey) (· + 1) fuel (i0 + 1) with
        | some p => return p
        | none => return 0

end

/-! ## Words and indices -/

theorem wordE1_eq (v : BitVec 64) : wordE1 v = entryE1 v := by
  have hmask : ∀ j : Fin 16, (65535#16)[j] = true := by decide
  ext i hi
  simp only [wordE1, entryE1, BitVec.setWidth_and]
  simpa using fun _ => hmask ⟨i, hi⟩

theorem wordE3_eq (v : BitVec 64) : wordE3 v = entryE3 v := by
  ext i hi
  simp only [wordE3, entryE3]
  by_cases h48 : i < 48
  · simp [h48, Nat.add_comm]
  · simp [h48]
    exact BitVec.getLsbD_of_ge _ _ (by omega)

theorem wormholePkey_ne_zero (hash32 : BitVec 32) : wormholePkey hash32 ≠ 0 := by
  unfold wormholePkey
  dsimp only
  split
  · assumption
  · decide

/-- Every hash has its home in the array. -/
theorem home_lt (pkey : BitVec 16) : (home pkey).toNat < kpn := by
  have hlt := pkey.isLt
  have hhome : (home pkey).toNat = pkey.toNat % 2 ^ 32 / 512 := by
    rw [home, BitVec.toNat_udiv, BitVec.toNat_setWidth]
    rfl
  rw [hhome, kpn]
  omega

theorem lt_kpn_iff (i : BitVec 32) : i < BitVec.ofNat 32 kpn ↔ i.toNat < kpn := by
  rw [BitVec.lt_def]
  rfl

theorem load_of_lt {hs : Fin kpn → BitVec 64} {i : BitVec 32} (h : i.toNat < kpn) :
    load hs i = .ok (hs ⟨i.toNat, h⟩) :=
  dif_pos h

/-- How many times the loop to the left can still go round. -/
def leftRank (i : BitVec 32) : Nat :=
  if i.toNat < kpn then i.toNat + 1 else 0

/-- How many times the loop to the right can still go round. -/
def rightRank (i : BitVec 32) : Nat :=
  kpn - i.toNat

theorem leftRank_le (i : BitVec 32) : leftRank i ≤ kpn := by
  unfold leftRank
  split <;> omega

/-- At the left edge the index wraps to a value that is outside. -/
theorem leftRank_step {i : BitVec 32} (h : i.toNat < kpn) : leftRank (i - 1) < leftRank i := by
  have hsub : (i - 1).toNat = (2 ^ 32 - 1 + i.toNat) % 2 ^ 32 := by
    rw [BitVec.toNat_sub]
    rfl
  unfold leftRank kpn at *
  rw [if_pos h]
  split <;> omega

theorem rightRank_step {i : BitVec 32} (h : i.toNat < kpn) : rightRank (i + 1) < rightRank i := by
  have hadd : (i + 1).toNat = (i.toNat + 1) % 2 ^ 32 := BitVec.toNat_add _ _
  unfold rightRank kpn at *
  omega

/-! ## The walks agree -/

/-- What the two loops may return: nothing, or an index of the array and its kv. -/
inductive Agree (hs : Fin kpn → BitVec 64) :
    Except Stop (Option (BitVec 32)) → Except Stop (Option Ptr) → Prop
  | nothing : Agree hs (.ok none) (.ok none)
  | found {i : BitVec 32} (h : i.toNat < kpn) (hne : entryE3 (hs ⟨i.toNat, h⟩) ≠ 0) :
      Agree hs (.ok (some i)) (.ok (some (entryE3 (hs ⟨i.toNat, h⟩))))

section

variable {kvMatch : Ptr → Bool} {pkey : BitVec 16} {hs : Fin kpn → BitVec 64}

/-- The null test changes nothing for an entry in use. -/
theorem currMatch_eq (hnull : ∀ i, entryE1 (hs i) ≠ 0 → entryE3 (hs i) ≠ 0) (hpkey : pkey ≠ 0)
    {i : Fin kpn} (h : entryE1 (hs i) = pkey) :
    currMatch kvMatch (entryE3 (hs i)) = kvMatch (entryE3 (hs i)) := by
  have hne : entryE3 (hs i) ≠ 0 := hnull i (by rw [h]; exact hpkey)
  simp only [currMatch, bne_iff_ne.mpr hne, Bool.true_and]

/-- **A loop and its copy agree**, if a rank goes down with each round. -/
theorem loops_agree (hnull : ∀ i, entryE1 (hs i) ≠ 0 → entryE3 (hs i) ≠ 0) (hpkey : pkey ≠ 0)
    {stop : BitVec 16 → Bool} {step : BitVec 32 → BitVec 32} {rank : BitVec 32 → Nat}
    (hrank : ∀ i, i.toNat < kpn → rank (step i) < rank i) {fuel : Nat} {i : BitVec 32}
    (hfuel : rank i < fuel) :
    Agree hs (matchLoop kvMatch pkey hs stop step fuel i)
      (walkLoop kvMatch pkey hs stop step fuel i) := by
  induction fuel generalizing i with
  | zero => exact absurd hfuel (Nat.not_lt_zero _)
  | succ fuel ih =>
      by_cases hi : i.toNat < kpn
      · have hlt : i < BitVec.ofNat 32 kpn := (lt_kpn_iff i).mpr hi
        have hround := ih ((hrank i hi).trans_le (Nat.le_of_lt_succ hfuel))
        simp only [matchLoop, walkLoop, if_pos hlt, load_of_lt hi, wordE1_eq, wordE3_eq]
        change Agree hs (if _ then _ else _) (if _ then _ else _)
        split
        next heq =>
          rw [currMatch_eq hnull hpkey heq]
          split
          next => exact .found hi (hnull _ (by rw [heq]; exact hpkey))
          next => exact hround
        next =>
          split
          next => exact .nothing
          next => exact hround
      · have hge : ¬ i < BitVec.ofNat 32 kpn := fun h => hi ((lt_kpn_iff i).mp h)
        simp only [matchLoop, walkLoop, if_neg hge]
        exact .nothing

/-- Nothing was found. -/
theorem selects_nothing : ((0 : Ptr) = 0 ↔ BitVec.ofNat 32 kpn = BitVec.ofNat 32 kpn) ∧
    (BitVec.ofNat 32 kpn ≠ BitVec.ofNat 32 kpn →
      ∃ h : (BitVec.ofNat 32 kpn).toNat < kpn, 0 = entryE3 (hs ⟨_, h⟩)) :=
  ⟨iff_of_true rfl rfl, fun hne => absurd rfl hne⟩

/-- The kv of an index was found. -/
theorem selects_found {i : BitVec 32} (h : i.toNat < kpn) (hne : entryE3 (hs ⟨i.toNat, h⟩) ≠ 0) :
    (entryE3 (hs ⟨i.toNat, h⟩) = 0 ↔ i = BitVec.ofNat 32 kpn) ∧
      (i ≠ BitVec.ofNat 32 kpn →
        ∃ h' : i.toNat < kpn, entryE3 (hs ⟨i.toNat, h⟩) = entryE3 (hs ⟨i.toNat, h'⟩)) := by
  refine ⟨iff_of_false hne fun heq => ?_, fun _ => ⟨h, rfl⟩⟩
  rw [heq] at h
  exact absurd h (by decide)

/-- **The optimistic walk is the locked one.**  On an array of any content in which an
entry in use has a kv, both walks end without a load outside the array, and the
optimistic one keeps the kv at the index the other returns, or `NULL` for `WH_KPN`. -/
theorem optimisticWalk_agrees (hash32 : BitVec 32)
    (hnull : ∀ i, entryE1 (hs i) ≠ 0 → entryE3 (hs i) ≠ 0) {fuel : Nat} (hfuel : kpn < fuel) :
    ∃ i p, wormleafMatchHs kvMatch (wormholePkey hash32) hs fuel = .ok i ∧
      optimisticWalk kvMatch (wormholePkey hash32) hs fuel = .ok p ∧
      (p = 0 ↔ i = BitVec.ofNat 32 kpn) ∧
      (i ≠ BitVec.ofNat 32 kpn → ∃ h : i.toNat < kpn, p = entryE3 (hs ⟨i.toNat, h⟩)) := by
  have hpkey := wormholePkey_ne_zero hash32
  generalize wormholePkey hash32 = pkey at hpkey ⊢
  have hleft : Agree hs (matchLoop kvMatch pkey hs (stopLeft pkey) (· - 1) fuel (home pkey - 1)) _ :=
    loops_agree hnull hpkey (fun i hi => leftRank_step hi) ((leftRank_le (home pkey - 1)).trans_lt hfuel)
  have hright : Agree hs (matchLoop kvMatch pkey hs (stopRight pkey) (· + 1) fuel (home pkey + 1)) _ :=
    loops_agree hnull hpkey (fun i hi => rightRank_step hi) ((Nat.sub_le kpn (home pkey + 1).toNat).trans_lt hfuel)
  simp only [wormleafMatchHs, optimisticWalk, load_of_lt (home_lt pkey), wordE1_eq, wordE3_eq]
  generalize matchLoop kvMatch pkey hs (stopLeft pkey) (· - 1) fuel (home pkey - 1) = ml at hleft ⊢
  generalize walkLoop kvMatch pkey hs (stopLeft pkey) (· - 1) fuel (home pkey - 1) = wl at hleft ⊢
  generalize matchLoop kvMatch pkey hs (stopRight pkey) (· + 1) fuel (home pkey + 1) = mr
    at hright ⊢
  generalize walkLoop kvMatch pkey hs (stopRight pkey) (· + 1) fuel (home pkey + 1) = wr
    at hright ⊢
  by_cases hprobe : entryE1 (hs ⟨(home pkey).toNat, home_lt pkey⟩) = pkey ∧
      kvMatch (entryE3 (hs ⟨(home pkey).toNat, home_lt pkey⟩)) = true
  · have hcurr : currMatch kvMatch _ = _ := currMatch_eq hnull hpkey hprobe.1
    refine ⟨_, _, if_pos hprobe, if_pos ⟨hprobe.1, hcurr.trans hprobe.2⟩, ?_⟩
    exact selects_found (home_lt pkey) (hnull _ (by rw [hprobe.1]; exact hpkey))
  · have hcurr : ¬ (entryE1 (hs ⟨(home pkey).toNat, home_lt pkey⟩) = pkey ∧
        currMatch kvMatch (entryE3 (hs ⟨(home pkey).toNat, home_lt pkey⟩)) = true) := fun h =>
      hprobe ⟨h.1, (currMatch_eq hnull hpkey h.1).symm.trans h.2⟩
    by_cases hempty : entryE1 (hs ⟨(home pkey).toNat, home_lt pkey⟩) = 0
    · exact ⟨_, _, (if_neg hprobe).trans (if_pos hempty), (if_neg hcurr).trans (if_pos hempty),
        selects_nothing⟩
    · cases hleft with
      | found h hne =>
          exact ⟨_, _, (if_neg hprobe).trans (if_neg hempty), (if_neg hcurr).trans (if_neg hempty),
            selects_found h hne⟩
      | nothing =>
          cases hright with
          | found h hne =>
              exact ⟨_, _, (if_neg hprobe).trans (if_neg hempty),
                (if_neg hcurr).trans (if_neg hempty), selects_found h hne⟩
          | nothing =>
              exact ⟨_, _, (if_neg hprobe).trans (if_neg hempty),
                (if_neg hcurr).trans (if_neg hempty), selects_nothing⟩

end

/-- The key of hash 5 sits to the right of its home, behind an entry of the same hash for
another key. -/
def twoEntries (i : Fin kpn) : BitVec 64 :=
  if i.val = 0 then 0x70005 else if i.val = 1 then 0x90005 else 0

/-- Both walks pass the first entry and find the second. -/
theorem optimisticWalk_agrees_twoEntries :
    wormleafMatchHs (· == 9) (wormholePkey 5) twoEntries 129 = .ok 1 ∧
      ∃ i p, wormleafMatchHs (· == 9) (wormholePkey 5) twoEntries 129 = .ok i ∧
        optimisticWalk (· == 9) (wormholePkey 5) twoEntries 129 = .ok p ∧
        (p = 0 ↔ i = BitVec.ofNat 32 kpn) ∧
        (i ≠ BitVec.ofNat 32 kpn →
          ∃ h : i.toNat < kpn, p = entryE3 (twoEntries ⟨i.toNat, h⟩)) := by
  refine ⟨by decide +kernel, optimisticWalk_agrees 5 (fun i => ?_) (by decide)⟩
  unfold twoEntries
  split
  · decide
  · split <;> decide

end WormholeWalk
