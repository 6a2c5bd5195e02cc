import LockBench.BenchHarness
import LockBench.CpuTopology
import LockBench.HashTable
import LockBench.NumberText
import LockBench.RoundUp

/-!
# The command line of the index benchmarks

`parse_bench_args` reads the arguments, clamps some of the numbers and rounds up the length
of the streams.  What the run then does with them relies on more: `run_bench_common` and
`prefill_index` draw keys between 0 and `key_range - 1`, `next_scrambled` takes a remainder by
`key_range`, and `hash_index` masks by `num_buckets - 1`.  The walk over the arguments, the
streams and the indices are given as the code computes them.

`double` is a type with what `std::stod` makes of a text.  The sequence of random draws is
arbitrary: a draw of a uniform distribution is a number within its bounds, and
`zipfian_generator::next` returns any 64-bit number.
-/

namespace BenchArgs

open BenchHarness (OpEntry)
open CpuTopology (PinPolicy)
open NumberText (stoi stoull)
open RoundUp (roundUpPow2 PowLen)

/-! ## `parse_bench_args` -/

/-- `params`. -/
structure Params (D : Type) where
  lockName : String
  dist : String
  threads : Int
  seconds : Int
  warmupSeconds : Int
  readPct : Int
  insertPct : Int
  zipfTheta : D
  numBuckets : UInt64
  keyRange : UInt64
  prefill : UInt64
  csvFile : String
  pin : PinPolicy
  streamLen : UInt64

/-- How `parse_bench_args` ends without returning. -/
inductive Stop
  | exit (code : Nat) (cerr : String)
  | usage
  | threw
  | looping

/-- `parse_pin_policy`. -/
def parsePinPolicy (s : String) : PinPolicy :=
  if s = "off" ∨ s = "none" then .off
  else if s = "linear" ∨ s = "lin" then .linear
  else if s = "phys" ∨ s = "compact_phys" then .compactPhys
  else if s = "socket" ∨ s = "compact_socket" then .compactSocket
  else .compactPhys

/-- `std::clamp`. -/
def clamp (v lo hi : Int) : Int :=
  if v < lo then lo else if hi < v then hi else v

section

variable {D : Type} (stod : List Char → Option D) (theta : D)

/-- The defaults; `theta` is 0.99. -/
def defaults (hardwareConcurrency : UInt32) : Params D where
  lockName := "ttas"
  dist := "uniform"
  threads := Int.bmod (max 1 hardwareConcurrency.toNat) (2 ^ 32)
  seconds := 5
  warmupSeconds := 2
  readPct := 80
  insertPct := 10
  zipfTheta := theta
  numBuckets := 65536
  keyRange := 1000000
  prefill := 500000
  csvFile := ""
  pin := .off
  streamLen := 4096

/-- The options that take a value, with what they do to the parameters; `none` where the
conversion throws. -/
def valueOptions : List (String × (String → Params D → Option (Params D))) :=
  [("--lock", fun v p => some { p with lockName := v }),
    ("--dist", fun v p => some { p with dist := v }),
    ("--threads", fun v p => (stoi v.toList).map fun i => { p with threads := i }),
    ("--seconds", fun v p => (stoi v.toList).map fun i => { p with seconds := i }),
    ("--warmup", fun v p => (stoi v.toList).map fun i => { p with warmupSeconds := i }),
    ("--read_pct", fun v p => (stoi v.toList).map fun i => { p with readPct := i }),
    ("--insert_pct", fun v p => (stoi v.toList).map fun i => { p with insertPct := i }),
    ("--zipf_theta", fun v p => (stod v.toList).map fun d => { p with zipfTheta := d }),
    ("--buckets", fun v p => (stoull v.toList).map fun n => { p with numBuckets := n }),
    ("--key_range", fun v p => (stoull v.toList).map fun n => { p with keyRange := n }),
    ("--prefill", fun v p => (stoull v.toList).map fun n => { p with prefill := n }),
    ("--csv", fun v p => some { p with csvFile := v }),
    ("--pin_policy", fun v p => some { p with pin := parsePinPolicy v }),
    ("--stream_len", fun v p => (stoull v.toList).map fun n => { p with streamLen := n })]

/-- The loop over the arguments. -/
def parseLoop : List String → Params D → Except Stop (Params D)
  | [], p => .ok p
  | a :: rest, p =>
      match (valueOptions stod).lookup a with
      | some store =>
          match rest with
          | [] => .error (.exit 2 ("Missing value for " ++ a ++ "\n"))
          | v :: rest =>
              match store v p with
              | some p => parseLoop rest p
              | none => .error .threw
      | none =>
          if a = "--pin" then parseLoop rest { p with pin := .compactPhys }
          else if a = "--help" ∨ a = "-h" then .error .usage
          else .error (.exit 2 ("Unknown arg: " ++ a ++ "\n"))

/-- What follows the loop, within so many rounds of `round_up_pow2`. -/
def finish (fuel : Nat) (p : Params D) : Except Stop (Params D) :=
  let readPct := clamp p.readPct 0 100
  match roundUpPow2 fuel p.streamLen with
  | none => .error .looping
  | some streamLen => .ok { p with
      threads := max p.threads 1
      seconds := max p.seconds 1
      warmupSeconds := max p.warmupSeconds 0
      readPct := readPct
      insertPct := clamp p.insertPct 0 (100 - readPct)
      streamLen := streamLen }

/-- `parse_bench_args`, of the arguments behind the program's name. -/
def parseBenchArgs (fuel : Nat) (hardwareConcurrency : UInt32) (argv : List String) :
    Except Stop (Params D) :=
  (parseLoop stod argv (defaults theta hardwareConcurrency)).bind (finish fuel)

/-- The options of a command line with their values, as the loop pairs them. -/
def optionValues : List String → List (String × String)
  | [] => []
  | a :: rest =>
      if ((valueOptions stod).lookup a).isSome then
        match rest with
        | [] => []
        | v :: rest => (a, v) :: optionValues rest
      else optionValues rest

end

/-! ## What a run does with the parameters -/

/-- The loop of `fnv_hash`. -/
def fnvLoop : Nat → UInt64 → UInt64 → UInt64
  | 0, h, _ => h
  | n + 1, h, val => fnvLoop n ((h ^^^ (val &&& 0xFF)) * 1099511628211) (val >>> 8)

/-- `fnv_hash`. -/
def fnvHash (val : UInt64) : UInt64 :=
  fnvLoop 8 14695981039346656037 val

/-- `next_scrambled` of a generator for `n` keys; `none` for a remainder by zero. -/
def nextScrambled (n v : UInt64) : Option UInt64 :=
  if n = 0 then none else some (fnvHash v % n)

/-- `resolve_op`. -/
def resolveOp (draw readPct insertPct : Int) : UInt8 :=
  if draw < readPct then 0 else if draw < readPct + insertPct then 1 else 2

/-- The draws of one thread: of the uniform distribution of keys, of
`zipfian_generator::next`, and of operations. -/
structure Draws where
  key : Nat → UInt64
  zipf : Nat → UInt64
  op : Nat → Fin 100

/-- The keys are drawn from `[0, key_range - 1]`. -/
def Draws.Within (d : Draws) (keyRange : UInt64) : Prop :=
  ∀ i, d.key i ≤ keyRange - 1

section

variable {D : Type}

/-- `make_stream_uniform`. -/
def makeStreamUniform (p : Params D) (d : Draws) : Option (List OpEntry) :=
  some ((List.range p.streamLen.toNat).map fun i =>
    ⟨d.key i, resolveOp (d.op i).val p.readPct p.insertPct⟩)

/-- `make_stream_zipfian`. -/
def makeStreamZipfian (p : Params D) (d : Draws) : Option (List OpEntry) :=
  (List.range p.streamLen.toNat).mapM fun i =>
    (nextScrambled p.keyRange (d.zipf i)).map fun key =>
      ⟨key, resolveOp (d.op i).val p.readPct p.insertPct⟩

/-- The stream of a worker of `run_bench_common`. -/
def stream (p : Params D) (d : Draws) : Option (List OpEntry) :=
  if p.dist = "zipfian" then makeStreamZipfian p d else makeStreamUniform p d

/-- `idx` of a worker before its `n`-th operation. -/
def streamIdx (p : Params D) (t : UInt64) : Nat → UInt64
  | 0 => if 0 < p.threads then t * (p.streamLen / .ofNat p.threads.toNat) &&& (p.streamLen - 1) else 0
  | n + 1 => (streamIdx p t n + 1) &&& (p.streamLen - 1)

/-- The keys that `prefill_index` puts. -/
def prefillKeys (p : Params D) (d : Draws) : List UInt64 :=
  (List.range p.prefill.toNat).map d.key

/-- A well-defined run, whatever is drawn. -/
structure Safe (p : Params D) : Prop where
  bounds : (p.keyRange - 1).toNat = (p.keyRange.toNat : Int) - 1
  streams : ∀ d : Draws, d.Within p.keyRange → ∃ s, stream p d = some s ∧
    s.length = p.streamLen.toNat ∧ ∀ e ∈ s, e.key < p.keyRange
  remainder : ∀ v, (nextScrambled p.keyRange v).isSome
  prefill : ∀ d : Draws, d.Within p.keyRange → ∀ k ∈ prefillKeys p d, k < p.keyRange
  buckets : ∀ key, (HashTable.construct p.numBuckets).bucketOf key <
    (HashTable.construct p.numBuckets).size
  shares : 0 ≤ p.readPct ∧ 0 ≤ p.insertPct ∧ p.readPct + p.insertPct ≤ 100
  index : ∀ t n, streamIdx p t n < p.streamLen

end

/-! ## When a run is safe -/

theorem clamp_bounds {v lo hi : Int} (h : lo ≤ hi) : lo ≤ clamp v lo hi ∧ clamp v lo hi ≤ hi := by
  unfold clamp
  split
  · exact ⟨le_rfl, h⟩
  · split <;> omega

section

variable {D : Type}

/-- Nothing wraps around below a positive number. -/
theorem toNat_sub_one {n : UInt64} (h : n ≠ 0) : (n - 1).toNat = n.toNat - 1 := by
  have hpos : n.toNat ≠ 0 := fun hz => h (UInt64.toNat_inj.mp hz)
  have hle : (1 : UInt64) ≤ n := show 1 ≤ n.toNat by omega
  rw [UInt64.toNat_sub_of_le _ _ hle]
  rfl

/-- A draw within the bounds is a key. -/
theorem lt_of_le_sub_one {n k : UInt64} (h : n ≠ 0) (hk : k ≤ n - 1) : k < n := by
  have hpos : n.toNat ≠ 0 := fun hz => h (UInt64.toNat_inj.mp hz)
  have hle : k.toNat ≤ (n - 1).toNat := hk
  rw [toNat_sub_one h] at hle
  exact show k.toNat < n.toNat by omega

theorem nextScrambled_lt {n v : UInt64} (h : n ≠ 0) :
    ∃ k, nextScrambled n v = some k ∧ k < n := by
  have hpos : 0 < n.toNat := Nat.pos_of_ne_zero fun hz => h (UInt64.toNat_inj.mp hz)
  refine ⟨fnvHash v % n, if_neg h, ?_⟩
  change (fnvHash v % n).toNat < n.toNat
  rw [UInt64.toNat_mod]
  exact Nat.mod_lt _ hpos

/-- Every key of a stream is in range. -/
theorem stream_spec {p : Params D} (h : p.keyRange ≠ 0) {d : Draws} (hd : d.Within p.keyRange) :
    ∃ s, stream p d = some s ∧ s.length = p.streamLen.toNat ∧ ∀ e ∈ s, e.key < p.keyRange := by
  unfold stream
  split
  next =>
    have hentry : ∀ i, ∃ e : OpEntry, (nextScrambled p.keyRange (d.zipf i)).map
        (fun key => (⟨key, resolveOp (d.op i).val p.readPct p.insertPct⟩ : OpEntry)) = some e ∧
        e.key < p.keyRange := by
      intro i
      obtain ⟨k, hk, hlt⟩ := nextScrambled_lt (v := d.zipf i) h
      exact ⟨⟨k, _⟩, by rw [hk, Option.map_some], hlt⟩
    choose f hf hlt using hentry
    refine ⟨(List.range p.streamLen.toNat).map f, ?_, by simp, ?_⟩
    · rw [makeStreamZipfian]
      simp only [hf]
      exact List.mapM_pure
    · intro e he
      obtain ⟨i, -, rfl⟩ := List.mem_map.mp he
      exact hlt i
  next =>
    refine ⟨_, rfl, by simp, ?_⟩
    intro e he
    obtain ⟨i, -, rfl⟩ := List.mem_map.mp he
    exact lt_of_le_sub_one h (hd i)

/-- The index of a stream is below its length. -/
theorem streamIdx_lt {p : Params D} {m : Nat} (h : PowLen p.streamLen m) (t : UInt64) (n : Nat) :
    streamIdx p t n < p.streamLen := by
  have hmask : ∀ i, i &&& (p.streamLen - 1) < p.streamLen := by
    intro i
    change (i &&& (p.streamLen - 1)).toNat < p.streamLen.toNat
    rw [h.toNat_and]
    exact Nat.mod_lt _ h.pos
  cases n with
  | zero =>
      rw [streamIdx]
      split
      · exact hmask _
      · exact show (0 : UInt64).toNat < p.streamLen.toNat from h.pos
  | succ n => exact hmask _

/-- A bucket is masked by the number of buckets less one. -/
theorem bucketOf_lt {n : UInt64} (h : n ≠ 0) (key : UInt64) :
    (HashTable.construct n).bucketOf key < (HashTable.construct n).size := by
  have hpos : n.toNat ≠ 0 := fun hz => h (UInt64.toNat_inj.mp hz)
  change (key * 11400714819323198485 &&& (n - 1)).toNat < n.toNat
  have hle : (key * 11400714819323198485 &&& (n - 1)).toNat ≤ (n - 1).toNat := by
    rw [UInt64.toNat_and]
    exact Nat.and_le_right
  rw [toNat_sub_one h] at hle
  omega

/-- **Clamped parameters make a safe run iff there are keys and buckets.** -/
theorem safe_iff {p : Params D} {m : Nat} (hlen : PowLen p.streamLen m)
    (hshares : 0 ≤ p.readPct ∧ 0 ≤ p.insertPct ∧ p.readPct + p.insertPct ≤ 100) :
    Safe p ↔ p.keyRange ≠ 0 ∧ p.numBuckets ≠ 0 := by
  constructor
  · intro h
    constructor
    · intro hzero
      have hsome := h.remainder 0
      rw [hzero] at hsome
      exact absurd hsome (by decide)
    · intro hzero
      have hlt := h.buckets 0
      rw [hzero] at hlt
      exact absurd hlt (Nat.not_lt_zero _)
  · rintro ⟨hkeys, hbuckets⟩
    refine ⟨?_, fun d hd => stream_spec hkeys hd, fun v => ?_, fun d hd k hk => ?_,
      bucketOf_lt hbuckets, hshares, streamIdx_lt hlen⟩
    · have hpos : p.keyRange.toNat ≠ 0 := fun hz => hkeys (UInt64.toNat_inj.mp hz)
      rw [toNat_sub_one hkeys]
      omega
    · obtain ⟨k, hk, -⟩ := nextScrambled_lt (v := v) hkeys
      rw [hk]
      rfl
    · obtain ⟨i, -, rfl⟩ := List.mem_map.mp hk
      exact lt_of_le_sub_one hkeys (hd i)

/-! ## From the command line -/

/-- The value that counts for an option: the last one. -/
def lastValue (name : String) : List (String × String) → Option String
  | [] => none
  | (a, v) :: rest => (lastValue name rest).or (if a = name then some v else none)

/-- No size that the run divides or masks by is given as zero. -/
def NonzeroSizes (stod : List Char → Option D) (argv : List String) : Prop :=
  ∀ name ∈ ["--key_range", "--buckets"], ∀ v,
    lastValue name (optionValues stod argv) = some v → stoull v.toList ≠ some 0

variable {stod : List Char → Option D}

/-- **A number of the parameters after the loop** is what its last option says, or as before. -/
theorem parseLoop_field (f : Params D → UInt64) (name : String)
    (hstore : ∀ a store, (valueOptions stod).lookup a = some store → ∀ v p p', store v p = some p' →
      if a = name then stoull v.toList = some (f p') else f p' = f p)
    (hpin : ∀ p pin, f { p with pin := pin } = f p) (argv : List String) (p : Params D) :
    ∀ {p'}, parseLoop stod argv p = .ok p' →
      match lastValue name (optionValues stod argv) with
      | some v => stoull v.toList = some (f p')
      | none => f p' = f p := by
  fun_induction parseLoop stod argv p with
  | case1 p =>
      intro p' h
      cases h
      rfl
  | case2 => exact fun h => nomatch h
  | case3 a p store hlookup v rest p₁ hset ih =>
      intro p' h
      have hvalues : optionValues stod (a :: v :: rest) = (a, v) :: optionValues stod rest := by
        rw [optionValues, hlookup]
        rfl
      have hrest := ih h
      have hown := hstore a store hlookup v p p₁ hset
      rw [hvalues, lastValue]
      cases hlast : lastValue name (optionValues stod rest) with
      | some w =>
          rw [hlast] at hrest
          exact hrest
      | none =>
          rw [hlast] at hrest
          split at hown
          next ha =>
            rw [if_pos ha]
            exact hrest ▸ hown
          next ha =>
            rw [if_neg ha]
            exact hrest.trans hown
  | case4 => exact fun h => nomatch h
  | case5 rest p hlookup ih =>
      intro p' h
      have hvalues : optionValues stod ("--pin" :: rest) = optionValues stod rest := by
        rw [optionValues.eq_def]
        simp only [hlookup, Option.isSome_none, Bool.false_eq_true, if_false]
      have hrest := ih h
      rw [hpin p .compactPhys] at hrest
      rw [hvalues]
      exact hrest
  | case6 => exact fun h => nomatch h
  | case7 => exact fun h => nomatch h

/-- What the options do to the two sizes. -/
theorem valueOptions_sizes {a : String} {store : String → Params D → Option (Params D)}
    (h : (valueOptions stod).lookup a = some store) {v : String} {p p' : Params D}
    (hset : store v p = some p') :
    (if a = "--key_range" then stoull v.toList = some p'.keyRange else p'.keyRange = p.keyRange) ∧
      (if a = "--buckets" then stoull v.toList = some p'.numBuckets
        else p'.numBuckets = p.numBuckets) := by
  obtain ⟨l₁, l₂, heq, -⟩ := List.lookup_eq_some_iff.mp h
  have hmem : (a, store) ∈ valueOptions stod :=
    heq ▸ List.mem_append_right l₁ (List.mem_cons_self ..)
  simp only [valueOptions, List.mem_cons, Prod.mk.injEq, List.not_mem_nil, or_false] at hmem
  rcases hmem with ⟨rfl, rfl⟩ | ⟨rfl, rfl⟩ | ⟨rfl, rfl⟩ | ⟨rfl, rfl⟩ | ⟨rfl, rfl⟩ | ⟨rfl, rfl⟩ |
    ⟨rfl, rfl⟩ | ⟨rfl, rfl⟩ | ⟨rfl, rfl⟩ | ⟨rfl, rfl⟩ | ⟨rfl, rfl⟩ | ⟨rfl, rfl⟩ | ⟨rfl, rfl⟩ | ⟨rfl, rfl⟩
  all_goals first | cases hset | obtain ⟨x, hx, rfl⟩ := Option.map_eq_some_iff.mp hset
  all_goals simp_all

/-- A size that is not zero by default is zero iff its last option says so. -/
theorem size_ne_zero_iff {w w₀ : UInt64} (hdefault : w₀ ≠ 0) {value : Option String}
    (h : match value with
      | some v => stoull v.toList = some w
      | none => w = w₀) :
    w ≠ 0 ↔ ∀ v, value = some v → stoull v.toList ≠ some 0 := by
  cases value with
  | none =>
      cases (show w = w₀ from h)
      exact iff_of_true hdefault fun _ hv => nomatch hv
  | some v =>
      have h : stoull v.toList = some w := h
      simp only [Option.some.injEq, forall_eq', h, ne_eq]

/-- What follows the loop leaves the sizes alone and makes the rest safe. -/
theorem finish_spec {fuel : Nat} {q p : Params D} (h : finish fuel q = .ok p) :
    p.keyRange = q.keyRange ∧ p.numBuckets = q.numBuckets ∧ (∃ m, PowLen p.streamLen m) ∧
      0 ≤ p.readPct ∧ 0 ≤ p.insertPct ∧ p.readPct + p.insertPct ≤ 100 := by
  simp only [finish] at h
  split at h
  next => cases h
  next streamLen hlen =>
    cases h
    obtain ⟨hread₀, hread₁⟩ := clamp_bounds (v := q.readPct) (show (0 : Int) ≤ 100 by decide)
    obtain ⟨hins₀, hins₁⟩ := clamp_bounds (v := q.insertPct)
      (show 0 ≤ 100 - clamp q.readPct 0 100 by omega)
    exact ⟨rfl, rfl, RoundUp.powLen_of_roundUpPow2 hlen, hread₀, hins₀, by simp only; omega⟩

/-- **A command line that is accepted makes a well-defined run iff neither the key range nor
the number of buckets is given as zero.** -/
theorem safe_iff_nonzeroSizes {theta : D} {fuel : Nat} {hardwareConcurrency : UInt32}
    {argv : List String} {p : Params D}
    (h : parseBenchArgs stod theta fuel hardwareConcurrency argv = .ok p) :
    Safe p ↔ NonzeroSizes stod argv := by
  rw [parseBenchArgs] at h
  cases hloop : parseLoop stod argv (defaults theta hardwareConcurrency) with
  | error e =>
      rw [hloop] at h
      cases h
  | ok q =>
      rw [hloop] at h
      obtain ⟨hkeys, hbuckets, ⟨m, hlen⟩, hshares⟩ := finish_spec h
      have hkey := parseLoop_field Params.keyRange "--key_range"
        (fun a store hl v p p' hset => (valueOptions_sizes hl hset).1) (fun _ _ => rfl) _ _ hloop
      have hbucket := parseLoop_field Params.numBuckets "--buckets"
        (fun a store hl v p p' hset => (valueOptions_sizes hl hset).2) (fun _ _ => rfl) _ _ hloop
      rw [safe_iff hlen hshares, hkeys, hbuckets,
        size_ne_zero_iff (show (1000000 : UInt64) ≠ 0 by decide) hkey,
        size_ne_zero_iff (show (65536 : UInt64) ≠ 0 by decide) hbucket]
      simp only [NonzeroSizes, List.mem_cons, List.not_mem_nil, or_false, forall_eq_or_imp,
        forall_eq]

end

/-- A command line without a zero. -/
theorem safe_of_small_sizes :
    ∃ p : Params ℚ, parseBenchArgs (fun _ => none) (99 / 100) 64 8
        ["--threads", "4", "--key_range", "1000", "--buckets", "3"] = .ok p ∧ Safe p := by
  have hparse : ∃ p : Params ℚ, parseBenchArgs (fun _ => none) (99 / 100) 64 8
      ["--threads", "4", "--key_range", "1000", "--buckets", "3"] = .ok p := ⟨_, rfl⟩
  obtain ⟨p, hp⟩ := hparse
  refine ⟨p, hp, (safe_iff_nonzeroSizes hp).mpr fun name hname v hv => ?_⟩
  rcases List.mem_pair.mp hname with rfl | rfl
  · cases (show some "1000" = some v from hv)
    decide
  · cases (show some "3" = some v from hv)
    decide

/-- `--key_range 0` is accepted, and `next_scrambled` takes a remainder by zero. -/
theorem zero_key_range_accepted :
    ¬∀ (argv : List String) (p : Params ℚ),
      parseBenchArgs (fun _ => none) (99 / 100) 64 8 argv = .ok p → Safe p := by
  intro h
  have hsome := (h ["--key_range", "0"] _ rfl).remainder 0
  exact absurd hsome (by decide)

end BenchArgs
