import LockBench.NumberText

/-!
# The kernel's list of CPUs

`parse_cpu_list` reads what `/sys/devices/system/cpu/online` holds: ranges like `0-3,5,7-11`.
The kernel writes the maximal runs of a set of ids.  Parsing what it writes gives the ids
back.

The inner loop `for (int x = a; x <= b; ++x)` leaves the range of `int` if `b` is the
largest one; this is no result here.
-/

namespace CpuList

open NumberText (stoi)

/-! ## `parse_cpu_list` -/

/-- The strings that `std::getline(ss, range, ',')` delivers: there is none behind a comma at
the end. -/
def getlines (s : List Char) : List (List Char) :=
  let parts := s.splitOn ','
  if parts.getLast? = some [] then parts.dropLast else parts

/-- `for (int x = a; x <= b; ++x) out.push_back(x);` -/
def pushRange (a b : Int) : Option (List Int) :=
  if a ≤ b ∧ b = 2 ^ 31 - 1 then none
  else some ((List.range (b + 1 - a).toNat).map fun i : Nat => a + i)

/-- What one range appends; where `std::stoi` throws, nothing. -/
def parseRange (range : List Char) : Option (List Int) :=
  let dash := range.idxOf '-'
  if dash = range.length then some (stoi range).toList
  else
    match stoi (range.take dash), stoi (range.drop (dash + 1)) with
    | some a, some b => pushRange a b
    | _, _ => some []

/-- `parse_cpu_list`. -/
def parseCpuList (s : List Char) : Option (List Int) :=
  (getlines s).foldl (fun out range => out.bind fun out => (parseRange range).map (out ++ ·)) (some [])

/-! ## The kernel's format -/

/-- The maximal runs of consecutive ids, as first and last. -/
def runs : List Nat → List (Nat × Nat)
  | [] => []
  | x :: xs =>
      match runs xs with
      | [] => [(x, x)]
      | (a, b) :: rs => if x + 1 = a then (x, b) :: rs else (x, x) :: (a, b) :: rs

/-- A run of one id is `a`, a longer one is `a-b`. -/
def printRun (r : Nat × Nat) : List Char :=
  if r.1 = r.2 then Nat.toDigits 10 r.1 else Nat.toDigits 10 r.1 ++ '-' :: Nat.toDigits 10 r.2

/-- The list as the kernel prints it. -/
def printCpuList (ids : List Nat) : List Char :=
  [','].intercalate ((runs ids).map printRun)

/-! ## Runs -/

/-- The ids of a run. -/
def idsOf (r : Nat × Nat) : List Nat :=
  (List.range (r.2 + 1 - r.1)).map (r.1 + ·)

theorem idsOf_self (x : Nat) : idsOf (x, x) = [x] := by
  simp [idsOf]

/-- A run that is longer by one at the front. -/
theorem idsOf_cons {x b : Nat} (h : x + 1 ≤ b) : idsOf (x, b) = x :: idsOf (x + 1, b) := by
  obtain ⟨n, rfl⟩ := Nat.exists_eq_add_of_le h
  have h₁ : x + 1 + n + 1 - x = n + 1 + 1 := by omega
  have h₂ : x + 1 + n + 1 - (x + 1) = n + 1 := by omega
  simp only [idsOf, h₁, h₂]
  rw [List.range_succ_eq_map, List.map_cons, List.map_map]
  refine congrArg₂ _ rfl (List.map_congr_left fun i _ => ?_)
  simp only [Function.comp_apply]
  omega

/-- What the runs of an ascending list are. -/
structure RunsOk (ids : List Nat) (rs : List (Nat × Nat)) : Prop where
  le : ∀ r ∈ rs, r.1 ≤ r.2
  ids : rs.flatMap idsOf = ids
  apart : rs.IsChain fun r r' => r.2 + 1 < r'.1

/-- **The runs of an ascending list are its ids, and no two of them can be joined.** -/
theorem runs_ok {ids : List Nat} (h : ids.Pairwise (· < ·)) : RunsOk ids (runs ids) := by
  induction ids with
  | nil => exact ⟨by simp [runs], rfl, .nil⟩
  | cons x xs ih =>
      obtain ⟨hx, hxs⟩ := List.pairwise_cons.mp h
      obtain ⟨hle, hids, hapart⟩ := ih hxs
      rw [runs]
      cases hr : runs xs with
      | nil =>
          rw [hr] at hids
          refine ⟨by simp, ?_, .singleton _⟩
          rw [← hids]
          simp [idsOf_self]
      | cons r rs =>
          obtain ⟨a, b⟩ := r
          rw [hr] at hle hids hapart
          have hab : a ≤ b := hle (a, b) (List.mem_cons_self ..)
          have hxa : x < a := by
            refine hx a ?_
            rw [← hids]
            exact List.mem_flatMap.mpr ⟨(a, b), List.mem_cons_self .., by simp [idsOf]; omega⟩
          simp only
          split
          next heq =>
            subst heq
            refine ⟨?_, ?_, ?_⟩
            · intro r hr
              rcases List.mem_cons.mp hr with rfl | hr
              · exact Nat.le_of_succ_le hab
              · exact hle r (List.mem_cons_of_mem _ hr)
            · rw [← hids, List.flatMap_cons, List.flatMap_cons, idsOf_cons hab]
              rfl
            · cases rs with
              | nil => exact .singleton _
              | cons r' rs =>
                  obtain ⟨hgap, hrest⟩ := List.isChain_cons_cons.mp hapart
                  exact .cons_cons hgap hrest
          next hne =>
            refine ⟨?_, ?_, ?_⟩
            · intro r hr
              rcases List.mem_cons.mp hr with rfl | hr
              · exact Nat.le_refl x
              · exact hle r hr
            · rw [← hids, List.flatMap_cons, idsOf_self]
              rfl
            · exact .cons_cons (by simp only; omega) hapart

/-! ## Parsing what was printed -/

theorem printRun_ne_nil (r : Nat × Nat) : printRun r ≠ [] := by
  unfold printRun
  split
  · exact Nat.toDigits_ne_nil
  · exact List.append_ne_nil_of_right_ne_nil _ (List.cons_ne_nil _ _)

theorem comma_not_mem_printRun (r : Nat × Nat) : ',' ∉ printRun r := by
  have hcomma : ∀ n, ',' ∉ Nat.toDigits 10 n := NumberText.not_mem_toDigits (by decide)
  unfold printRun
  split
  · exact hcomma _
  · rw [List.mem_append, List.mem_cons, not_or, not_or]
    exact ⟨hcomma _, by decide, hcomma _⟩

/-- `std::getline` delivers the runs. -/
theorem getlines_intercalate (rs : List (Nat × Nat)) :
    getlines ([','].intercalate (rs.map printRun)) = rs.map printRun := by
  cases rs with
  | nil => decide
  | cons r rs =>
      have hsplit : ([','].intercalate ((r :: rs).map printRun)).splitOn ',' =
          (r :: rs).map printRun := by
        refine List.splitOn_intercalate ',' (fun l hl => ?_) (List.cons_ne_nil _ _)
        obtain ⟨r', -, rfl⟩ := List.mem_map.mp hl
        exact comma_not_mem_printRun r'
      have hlast : ((r :: rs).map printRun).getLast? ≠ some [] := by
        intro h
        obtain ⟨r', -, hr'⟩ := List.mem_map.mp (List.mem_of_getLast? h)
        exact printRun_ne_nil r' hr'
      simp only [getlines, hsplit, if_neg hlast]

/-- **One printed run is parsed to its ids.** -/
theorem parseRange_printRun {r : Nat × Nat} (hle : r.1 ≤ r.2) (hmax : r.2 < 2 ^ 31 - 1) :
    parseRange (printRun r) = some ((idsOf r).map Int.ofNat) := by
  obtain ⟨a, b⟩ := r
  have hdash : ∀ n, '-' ∉ Nat.toDigits 10 n := NumberText.not_mem_toDigits (by decide)
  by_cases hab : a = b
  · subst hab
    simp only [printRun, if_true, parseRange, List.idxOf_eq_length (hdash a), idsOf_self]
    rw [NumberText.stoi_toDigits (by omega)]
    rfl
  · have hidx : (Nat.toDigits 10 a ++ '-' :: Nat.toDigits 10 b).idxOf '-' =
        (Nat.toDigits 10 a).length := by
      rw [List.idxOf_append_of_notMem (hdash a), List.idxOf_cons_self, Nat.add_zero]
    have hlen : (Nat.toDigits 10 a).length ≠
        (Nat.toDigits 10 a ++ '-' :: Nat.toDigits 10 b).length := by
      rw [List.length_append, List.length_cons]
      omega
    have hdrop : (Nat.toDigits 10 a ++ '-' :: Nat.toDigits 10 b).drop
        ((Nat.toDigits 10 a).length + 1) = Nat.toDigits 10 b := by
      rw [List.drop_append, Nat.add_sub_cancel_left]
      simp
    have hpush : pushRange a b = some ((idsOf (a, b)).map Int.ofNat) := by
      have hcount : ((b : Int) + 1 - a).toNat = b + 1 - a := by omega
      rw [pushRange, if_neg (by omega), hcount, idsOf, List.map_map]
      rfl
    simp only [printRun, if_neg hab, parseRange, hidx, if_neg hlen, List.take_left, hdrop,
      NumberText.stoi_toDigits (show a < 2 ^ 31 by omega),
      NumberText.stoi_toDigits (show b < 2 ^ 31 by omega), hpush]

/-- Printed runs are parsed one after the other. -/
theorem foldl_printRun (rs : List (Nat × Nat)) (hle : ∀ r ∈ rs, r.1 ≤ r.2)
    (hmax : ∀ r ∈ rs, r.2 < 2 ^ 31 - 1) (out : List Int) :
    (rs.map printRun).foldl
        (fun out range => out.bind fun out => (parseRange range).map (out ++ ·)) (some out) =
      some (out ++ (rs.flatMap idsOf).map Int.ofNat) := by
  induction rs generalizing out with
  | nil => simp
  | cons r rs ih =>
      have hr := parseRange_printRun (hle r (List.mem_cons_self ..)) (hmax r (List.mem_cons_self ..))
      rw [List.map_cons, List.foldl_cons, Option.bind_some, hr, Option.map_some,
        ih (fun r h => hle r (List.mem_cons_of_mem _ h)) fun r h => hmax r (List.mem_cons_of_mem _ h),
        List.flatMap_cons, List.map_append, List.append_assoc]

/-- **`parse_cpu_list` undoes the kernel's format.** -/
theorem parseCpuList_printCpuList {ids : List Nat} (h : ids.Pairwise (· < ·))
    (hmax : ∀ x ∈ ids, x ≤ 2 ^ 31 - 2) :
    parseCpuList (printCpuList ids) = some (ids.map Int.ofNat) := by
  obtain ⟨hle, hids, -⟩ := runs_ok h
  have hlast : ∀ r ∈ runs ids, r.2 < 2 ^ 31 - 1 := by
    intro r hr
    have hmem : r.2 ∈ ids := by
      rw [← hids]
      refine List.mem_flatMap.mpr ⟨r, hr, List.mem_map.mpr ⟨r.2 - r.1, ?_, ?_⟩⟩
      · have := hle r hr
        exact List.mem_range.mpr (by omega)
      · have := hle r hr
        omega
    have := hmax _ hmem
    omega
  rw [parseCpuList, printCpuList, getlines_intercalate, foldl_printRun _ hle hlast, hids,
    List.nil_append]

/-- Twelve CPUs of which some are offline. -/
theorem parseCpuList_some_offline :
    printCpuList [0, 1, 2, 3, 5, 7, 8, 9, 10, 11] = "0-3,5,7-11".toList ∧
      parseCpuList (printCpuList [0, 1, 2, 3, 5, 7, 8, 9, 10, 11]) =
        some ([0, 1, 2, 3, 5, 7, 8, 9, 10, 11].map Int.ofNat) :=
  ⟨by decide, parseCpuList_printCpuList (by decide) (by decide)⟩

end CpuList
