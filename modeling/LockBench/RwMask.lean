import LockBench.RoundUp
import Mathlib

/-!
# Coin flips rolled in advance

`bench_rw` of `bench/main.cpp` decides between reading and writing by a bit of a mask that
`make_rw_mask` filled before the measurement, one bit for each draw.  `is_read` walks the
mask in a circle from a start that depends on the thread, through the warm-up and on through
the measurement.

A draw is a number from 0 to 99, as `uniform_int_distribution` gives it.  Accesses to the
mask are checked against its length.
-/

namespace RwMask

open RoundUp (PowLen)

/-! ## The functions -/

/-- `mask[i >> 6] |= (std::uint64_t{1} << (i & 63))`. -/
def setBit (mask : List UInt64) (i : UInt64) : Option (List UInt64) :=
  mask[(i >>> 6).toNat]?.map fun word => mask.set (i >>> 6).toNat (word ||| 1 <<< (i &&& 63))

/-- The mask after so many rounds of the loop of `make_rw_mask`. -/
def roll (draws : Nat → Fin 100) (readPct : Int) (words : Nat) : Nat → Option (List UInt64)
  | 0 => some (List.replicate words 0)
  | i + 1 => (roll draws readPct words i).bind fun mask =>
      if ((draws i).val : Int) < readPct then setBit mask (.ofNat i) else some mask

/-- `make_rw_mask`. -/
def makeRwMask (draws : Nat → Fin 100) (readPct : Int) (nBits : UInt64) : Option (List UInt64) :=
  roll draws readPct (nBits / 64).toNat nBits.toNat

/-- The start of a thread. -/
def startIdx (streamLen threads t : UInt64) : UInt64 :=
  t * (streamLen / max threads 1) &&& (streamLen - 1)

/-- `is_read`: the decision, and the next index. -/
def isRead (mask : List UInt64) (bitMask idx : UInt64) : Option (Bool × UInt64) :=
  mask[(idx >>> 6).toNat]?.map fun word =>
    ((word >>> (idx &&& 63) &&& 1) != 0, (idx + 1) &&& bitMask)

/-- So many calls of `is_read`: the indices and the decisions, and the next index. -/
def calls (mask : List UInt64) (bitMask : UInt64) :
    Nat → UInt64 → Option (List (UInt64 × Bool) × UInt64)
  | 0, idx => some ([], idx)
  | n + 1, idx => (isRead mask bitMask idx).bind fun r =>
      (calls mask bitMask n r.2).map fun rest => ((idx, r.1) :: rest.1, rest.2)

/-- Phase 2: rounds of 64 calls, until `stop` is seen. -/
def rounds (mask : List UInt64) (bitMask : UInt64) :
    Nat → UInt64 → Option (List (UInt64 × Bool) × UInt64)
  | 0, idx => some ([], idx)
  | n + 1, idx => (calls mask bitMask 64 idx).bind fun r =>
      (rounds mask bitMask n r.2).map fun rest => (r.1 ++ rest.1, rest.2)

/-- The calls of one worker of `bench_rw`: so many in the warm-up, then so many rounds. -/
def worker (draws : Nat → Fin 100) (readPct : Int) (streamLen threads t : UInt64)
    (warmup measured : Nat) : Option (List (UInt64 × Bool) × List (UInt64 × Bool)) := do
  let mask ← makeRwMask draws readPct streamLen
  let (warm, idx) ← calls mask (streamLen - 1) warmup (startIdx streamLen threads t)
  let (timed, _) ← rounds mask (streamLen - 1) measured idx
  return (warm, timed)

/-! ## The bits of the mask -/

/-- The bit of the mask at an index. -/
def bit (mask : List UInt64) (i : Nat) : Bool :=
  (mask.getD (i / 64) 0).toNat.testBit (i % 64)

theorem toNat_shift6 (i : UInt64) : (i >>> 6).toNat = i.toNat / 64 := by
  rw [UInt64.toNat_shiftRight]
  exact Nat.shiftRight_eq_div_pow _ 6

theorem toNat_and63 (i : UInt64) : (i &&& 63).toNat = i.toNat % 64 := by
  rw [UInt64.toNat_and]
  exact Nat.and_two_pow_sub_one_eq_mod _ 6

/-- One bit of a word. -/
theorem testBit_one_shift (i : UInt64) (b : Nat) :
    (1 <<< (i &&& 63) : UInt64).toNat.testBit b = decide (b = i.toNat % 64) := by
  have hlt : i.toNat % 64 < 64 := Nat.mod_lt _ (by decide)
  have hpow : 2 ^ (i.toNat % 64) < 2 ^ 64 := Nat.pow_lt_pow_right (by decide) hlt
  rw [UInt64.toNat_shiftLeft, toNat_and63, Nat.mod_mod]
  change (1 <<< (i.toNat % 64) % 2 ^ 64).testBit b = _
  rw [Nat.one_shiftLeft, Nat.mod_eq_of_lt hpow, Nat.testBit_two_pow]
  exact decide_eq_decide.mpr eq_comm

/-- **What a store of one bit does.** -/
theorem setBit_spec {mask : List UInt64} {i : UInt64} (h : i.toNat < 64 * mask.length) :
    ∃ mask', setBit mask i = some mask' ∧ mask'.length = mask.length ∧
      ∀ k < 64 * mask.length, bit mask' k = (decide (k = i.toNat) || bit mask k) := by
  have hw : (i >>> 6).toNat < mask.length := by
    rw [toNat_shift6]
    omega
  refine ⟨mask.set (i >>> 6).toNat (mask[(i >>> 6).toNat] ||| 1 <<< (i &&& 63)), ?_, ?_, ?_⟩
  · rw [setBit, List.getElem?_eq_getElem hw]
    rfl
  · exact List.length_set
  · intro k hk
    have hkw : k / 64 < mask.length := by omega
    unfold bit
    rw [List.getD_eq_getElem _ _ (by rw [List.length_set]; exact hkw),
      List.getD_eq_getElem _ _ hkw, List.getElem_set]
    split
    next heq =>
      rw [UInt64.toNat_or, Nat.testBit_or, testBit_one_shift, Bool.or_comm]
      rw [toNat_shift6] at heq
      have hbit : decide (k % 64 = i.toNat % 64) = decide (k = i.toNat) :=
        decide_eq_decide.mpr (by omega)
      simp only [hbit, toNat_shift6, heq]
    next hne =>
      rw [toNat_shift6] at hne
      rw [decide_eq_false (by rintro rfl; exact hne rfl), Bool.false_or]

/-- **The rounds of the loop**: the bits below the round are the draws so far. -/
theorem roll_spec (draws : Nat → Fin 100) (readPct : Int) {words : Nat} (hwords : 64 * words < 2 ^ 64) :
    ∀ i ≤ 64 * words, ∃ mask, roll draws readPct words i = some mask ∧ mask.length = words ∧
      ∀ k < 64 * words, bit mask k = (decide (k < i) && decide (((draws k).val : Int) < readPct)) := by
  intro i
  induction i with
  | zero =>
      intro _
      refine ⟨List.replicate words 0, rfl, List.length_replicate, fun k hk => ?_⟩
      have hkw : k / 64 < words := by omega
      rw [bit, List.getD_eq_getElem _ _ (by rw [List.length_replicate]; exact hkw),
        List.getElem_replicate, decide_eq_false (Nat.not_lt_zero k)]
      exact Nat.zero_testBit _
  | succ i ih =>
      intro hi
      obtain ⟨mask, hroll, hlen, hbits⟩ := ih (by omega)
      have hval : (UInt64.ofNat i).toNat = i :=
        UInt64.toNat_ofNat_of_lt (show i < 2 ^ 64 by omega)
      rw [roll, hroll, Option.bind_some]
      split
      next hread =>
        have hin : (UInt64.ofNat i).toNat < 64 * mask.length := by
          rw [hval, hlen]
          omega
        obtain ⟨mask', hset, hlen', hbits'⟩ := setBit_spec hin
        refine ⟨mask', hset, hlen'.trans hlen, fun k hk => ?_⟩
        rw [hbits' k (by rw [hlen]; exact hk), hbits k hk, hval]
        rcases Nat.lt_trichotomy k i with hlt | rfl | hgt
        · simp [hlt, hlt.ne, Nat.lt_succ_of_lt hlt]
        · simp [hread]
        · simp [hgt.ne', Nat.not_lt_of_lt hgt, Nat.not_lt_of_le (Nat.succ_le_of_lt hgt)]
      next hread =>
        refine ⟨mask, rfl, hlen, fun k hk => ?_⟩
        rw [hbits k hk]
        rcases Nat.lt_trichotomy k i with hlt | rfl | hgt
        · simp [hlt, Nat.lt_succ_of_lt hlt]
        · simp [hread]
        · simp [Nat.not_lt_of_lt hgt, Nat.not_lt_of_le (Nat.succ_le_of_lt hgt)]

/-! ## The walk over the mask -/

/-- The words of the mask hold just the bits. -/
theorem words_mul {len : UInt64} {m : Nat} (h : PowLen len m) : 64 * (len / 64).toNat = len.toNat := by
  rw [UInt64.toNat_div]
  change 64 * (len.toNat / 64) = len.toNat
  refine Nat.mul_div_cancel' ?_
  rw [h.eq]
  exact Nat.pow_dvd_pow 2 h.low

theorem startIdx_lt {len : UInt64} {m : Nat} (h : PowLen len m) (threads t : UInt64) :
    (startIdx len threads t).toNat < len.toNat := by
  rw [startIdx, h.toNat_and]
  exact Nat.mod_lt _ h.pos

/-- **One call**: the bit at the index, which then goes round by one. -/
theorem isRead_spec {len : UInt64} {m : Nat} (hlen : PowLen len m) {mask : List UInt64}
    (hmask : 64 * mask.length = len.toNat) {idx : UInt64} (hidx : idx.toNat < len.toNat) :
    ∃ idx', isRead mask (len - 1) idx = some (bit mask idx.toNat, idx') ∧
      idx'.toNat = (idx.toNat + 1) % len.toNat := by
  have hw : (idx >>> 6).toNat < mask.length := by
    rw [toNat_shift6]
    omega
  have hlt : len.toNat < 2 ^ 64 := len.toNat_lt
  refine ⟨(idx + 1) &&& (len - 1), ?_, ?_⟩
  · have hword : mask.getD (idx.toNat / 64) 0 = mask[(idx >>> 6).toNat] := by
      rw [← toNat_shift6, List.getD_eq_getElem _ _ hw]
    rw [isRead, List.getElem?_eq_getElem hw, Option.map_some, bit, hword]
    congr 2
    generalize mask[(idx >>> 6).toNat] = word
    have hand : ((word >>> (idx &&& 63)) &&& 1).toNat = word.toNat >>> (idx.toNat % 64) &&& 1 := by
      rw [UInt64.toNat_and, UInt64.toNat_shiftRight, toNat_and63, Nat.mod_mod]
      rfl
    rw [Nat.testBit, Nat.land_comm, ← hand, Bool.eq_iff_iff, bne_iff_ne, bne_iff_ne, ne_eq, ne_eq,
      ← UInt64.toNat_inj]
    rfl
  · rw [hlen.toNat_and, UInt64.toNat_add]
    change (idx.toNat + 1) % 2 ^ 64 % len.toNat = _
    rw [Nat.mod_eq_of_lt (a := idx.toNat + 1) (by omega)]

/-- **So many calls**: the indices go round, and each decision is the bit at its index. -/
theorem calls_spec {len : UInt64} {m : Nat} (hlen : PowLen len m) {mask : List UInt64}
    (hmask : 64 * mask.length = len.toNat) (n : Nat) :
    ∀ {idx : UInt64}, idx.toNat < len.toNat →
      ∃ out idx', calls mask (len - 1) n idx = some (out, idx') ∧
        idx'.toNat = (idx.toNat + n) % len.toNat ∧
        out.map (fun c => (c.1.toNat, c.2)) = (List.range n).map fun j =>
          ((idx.toNat + j) % len.toNat, bit mask ((idx.toNat + j) % len.toNat)) := by
  induction n with
  | zero => exact fun {idx} hidx => ⟨[], idx, rfl, (Nat.mod_eq_of_lt hidx).symm, rfl⟩
  | succ n ih =>
      intro idx hidx
      obtain ⟨idx₁, hcall, hval⟩ := isRead_spec hlen hmask hidx
      have hlt : idx₁.toNat < len.toNat := hval ▸ Nat.mod_lt _ hlen.pos
      obtain ⟨out, idx', hcalls, hend, hout⟩ := ih hlt
      refine ⟨(idx, bit mask idx.toNat) :: out, idx', ?_, ?_, ?_⟩
      · rw [calls, hcall, Option.bind_some, hcalls]
        rfl
      · rw [hend, hval, Nat.mod_add_mod, Nat.add_assoc, Nat.add_comm 1]
      · rw [List.map_cons, hout, hval, List.range_succ_eq_map, List.map_cons, List.map_map]
        simp only [Nat.mod_add_mod, Nat.add_zero, Nat.mod_eq_of_lt hidx, Function.comp_def,
          Nat.succ_eq_add_one, Nat.add_assoc, Nat.add_comm 1]

/-- Calls in a row are one series. -/
theorem calls_add (mask : List UInt64) (bitMask : UInt64) (n k : Nat) :
    ∀ idx, calls mask bitMask (n + k) idx = (calls mask bitMask n idx).bind fun r =>
      (calls mask bitMask k r.2).map fun rest => (r.1 ++ rest.1, rest.2) := by
  induction n with
  | zero =>
      intro idx
      rw [Nat.zero_add]
      simp [calls]
  | succ n ih =>
      intro idx
      rw [Nat.succ_add, calls, calls]
      cases isRead mask bitMask idx with
      | none => rfl
      | some r =>
          rw [Option.bind_some, Option.bind_some, ih]
          cases calls mask bitMask n r.2 with
          | none => rfl
          | some r' => simp [Function.comp_def]

/-- Phase 2 is one series of calls. -/
theorem rounds_eq (mask : List UInt64) (bitMask : UInt64) (n : Nat) :
    ∀ idx, rounds mask bitMask n idx = calls mask bitMask (64 * n) idx := by
  induction n with
  | zero => exact fun _ => rfl
  | succ n ih =>
      intro idx
      rw [Nat.mul_succ, Nat.add_comm (64 * n), calls_add]
      simp only [rounds, ih]

/-- What the decisions of a worker have to be. -/
structure Replays (draws : Nat → Fin 100) (readPct : Int) (len start : Nat)
    (out : List (UInt64 × Bool)) : Prop where
  decisions : ∀ j (h : j < out.length),
    (out.get ⟨j, h⟩).2 = decide (((draws ((start + j) % len)).val : Int) < readPct)
  indices : ∀ j (h : j < out.length), (out.get ⟨j, h⟩).1.toNat = (start + j) % len
  once : ∀ j, j + len ≤ out.length →
    (((out.drop j).take len).map fun c => c.1.toNat).Perm (List.range len)

/-- A circle is walked once in as many steps as it has places. -/
theorem circle_perm {len : Nat} (hlen : 0 < len) (a : Nat) :
    ((List.range len).map fun j => (a + j) % len).Perm (List.range len) := by
  have hnodup : ((List.range len).map fun j => (a + j) % len).Nodup := by
    refine List.Nodup.map_on (fun i hi j hj hij => ?_) List.nodup_range
    have hmod : i ≡ j [MOD len] := Nat.ModEq.add_left_cancel' a hij
    exact hmod.eq_of_lt_of_lt (List.mem_range.mp hi) (List.mem_range.mp hj)
  refine List.Subperm.perm_of_length_le (List.subperm_of_subset hnodup fun x hx => ?_) (by simp)
  obtain ⟨j, -, rfl⟩ := List.mem_map.mp hx
  exact List.mem_range.mpr (Nat.mod_lt _ hlen)

/-- The decisions of a series of calls on a mask that holds the draws. -/
theorem replays_of_calls {draws : Nat → Fin 100} {readPct : Int} {len : Nat} (hlen : 0 < len)
    {mask : List UInt64}
    (hbits : ∀ k < len, bit mask k = decide (((draws k).val : Int) < readPct)) {start n : Nat}
    {out : List (UInt64 × Bool)}
    (hout : out.map (fun c => (c.1.toNat, c.2)) = (List.range n).map fun j =>
      ((start + j) % len, bit mask ((start + j) % len))) :
    Replays draws readPct len start out := by
  have hn : out.length = n := by simpa using congrArg List.length hout
  have hat : ∀ j (h : j < out.length), ((out.get ⟨j, h⟩).1.toNat, (out.get ⟨j, h⟩).2) =
      ((start + j) % len, bit mask ((start + j) % len)) := by
    intro j h
    have hget := congrArg (·[j]?) hout
    simpa [List.getElem?_eq_getElem h, List.getElem?_range (hn ▸ h)] using hget
  refine ⟨fun j h => ?_, fun j h => congrArg Prod.fst (hat j h), fun j hj => ?_⟩
  · rw [← hbits _ (Nat.mod_lt _ hlen)]
    exact congrArg Prod.snd (hat j h)
  · have hidx : out.map (fun c => c.1.toNat) = (List.range n).map fun j => (start + j) % len := by
      have hfst := congrArg (List.map Prod.fst) hout
      rw [List.map_map, List.map_map] at hfst
      exact hfst
    have hwindow : ((out.drop j).take len).map (fun c => c.1.toNat) =
        (List.range len).map fun i => (start + j + i) % len := by
      rw [List.map_take, List.map_drop, hidx]
      refine List.ext_getElem (by simp; omega) fun i h₁ h₂ => ?_
      simp [Nat.add_assoc]
    rw [hwindow]
    exact circle_perm hlen (start + j)

/-- The start of a thread is where its share begins. -/
theorem toNat_startIdx {len : UInt64} {m : Nat} (hlen : PowLen len m) {threads t : UInt64}
    (ht : t < threads) : (startIdx len threads t).toNat = t.toNat * (len.toNat / threads.toNat) := by
  have ht : t.toNat < threads.toNat := ht
  have hmax : max threads 1 = threads := by
    change (if threads ≤ 1 then 1 else threads) = threads
    split
    next hle =>
      have hle : threads.toNat ≤ 1 := hle
      exact UInt64.toNat_inj.mp (show 1 = threads.toNat by omega)
    next => rfl
  have hlt : t.toNat * (len.toNat / threads.toNat) < len.toNat := by
    have hshare : (t.toNat + 1) * (len.toNat / threads.toNat) ≤ len.toNat :=
      (Nat.mul_le_mul_right _ ht).trans (Nat.mul_div_le _ _)
    rcases Nat.eq_zero_or_pos (len.toNat / threads.toNat) with hzero | hpos
    · rw [hzero, Nat.mul_zero]
      exact hlen.pos
    · rw [Nat.succ_mul] at hshare
      omega
  have hword : len.toNat < 2 ^ 64 := len.toNat_lt
  rw [startIdx, hlen.toNat_and, hmax, UInt64.toNat_mul, UInt64.toNat_div,
    Nat.mod_eq_of_lt (hlt.trans hword), Nat.mod_eq_of_lt hlt]

/-- **The mask replays the coin flips.**  For every thread and any number of calls in both
phases no access is out of bounds, the `j`-th call decides by the draw number
`(start + j) % stream_len`, and so many calls in a row as the mask has bits use each draw
once, also across the two phases. -/
theorem worker_replays (draws : Nat → Fin 100) (readPct : Int) {streamLen : UInt64} {m : Nat}
    (hlen : PowLen streamLen m) {threads t : UInt64} (ht : t < threads) (warmup measured : Nat) :
    ∃ warm timed, worker draws readPct streamLen threads t warmup measured = some (warm, timed) ∧
      warm.length = warmup ∧ timed.length = 64 * measured ∧
      Replays draws readPct streamLen.toNat (t.toNat * (streamLen.toNat / threads.toNat))
        (warm ++ timed) := by
  have hword : streamLen.toNat < 2 ^ 64 := streamLen.toNat_lt
  have hwords : 64 * (streamLen / 64).toNat < 2 ^ 64 := words_mul hlen ▸ hword
  obtain ⟨mask, hroll, hmask, hbits⟩ := roll_spec draws readPct hwords streamLen.toNat (words_mul hlen).ge
  rw [words_mul hlen] at hbits
  have hsize : 64 * mask.length = streamLen.toNat := hmask ▸ words_mul hlen
  have hstart := startIdx_lt hlen threads t
  obtain ⟨warm, idx, hwarm, hidx, hwarmOut⟩ := calls_spec hlen hsize warmup hstart
  have hidx : idx.toNat < streamLen.toNat := hidx ▸ Nat.mod_lt _ hlen.pos
  obtain ⟨timed, idx', htimed, -, htimedOut⟩ := calls_spec hlen hsize (64 * measured) hidx
  obtain ⟨out, idx'', hcalls, -, hout⟩ := calls_spec hlen hsize (warmup + 64 * measured) hstart
  have hsplit : warm ++ timed = out := by
    rw [calls_add, hwarm, Option.bind_some, htimed] at hcalls
    exact congrArg Prod.fst (Option.some.inj hcalls)
  refine ⟨warm, timed, ?_, ?_, ?_, ?_⟩
  · have hmake : makeRwMask draws readPct streamLen = some mask := hroll
    simp only [worker, hmake, hwarm, rounds_eq, htimed, Option.bind_eq_bind, Option.bind_some,
      Option.pure_def]
  · simpa using congrArg List.length hwarmOut
  · simpa using congrArg List.length htimedOut
  · rw [hsplit, ← toNat_startIdx hlen ht]
    refine replays_of_calls hlen.pos (fun k hk => ?_) hout
    rw [hbits k hk, decide_eq_true hk, Bool.true_and]

/-- Three threads on 64 bits, the last of them: it starts at bit 42 and comes round in its
first round of phase 2. -/
theorem worker_replays_last :
    PowLen 64 6 ∧ (2 : UInt64) < 3 ∧
      ∃ warm timed, worker (fun i => .ofNat 100 (i * 37)) 80 64 3 2 10 1 = some (warm, timed) ∧
        warm.length = 10 ∧ timed.length = 64 * 1 ∧
        Replays (fun i => .ofNat 100 (i * 37)) 80 (UInt64.toNat 64)
          (UInt64.toNat 2 * (UInt64.toNat 64 / UInt64.toNat 3)) (warm ++ timed) :=
  ⟨⟨by decide, by decide, rfl⟩, by decide,
    worker_replays (m := 6) _ 80 ⟨by decide, by decide, rfl⟩ (by decide) 10 1⟩

end RwMask
