import LockBench.Ranks

/-!
# Thread placement

`probe_topology` reads the socket and the core of every online CPU and prepares two
orders in which `resolve_pin_target` hands out CPUs to workers.  `compact_phys` deals the
sorted (socket, core, cpu) triples into rounds, one CPU of each core per round, starting
over whenever the core changes.  `compact_socket` takes one socket after the other.

What sysfs says is an argument: the list of online CPUs and a core for each of them.  A
core is a pair (socket, core id) in the order of `std::pair`, a triple has the order of
`std::tuple`.
-/

namespace CpuTopology

/-- `std::pair<int,int>`: socket and core id. -/
abbrev Core := ℤ ×ₗ ℤ

/-- `std::tuple<int,int,int>`: socket, core id and CPU. -/
abbrev Tri := Core ×ₗ ℤ

def Core.socket (c : Core) : ℤ :=
  (ofLex c).1

def Tri.key (x : Tri) : Core :=
  (ofLex x).1

def Tri.cpu (x : Tri) : ℤ :=
  (ofLex x).2

/-- The triple of a CPU. -/
def triple (coreOf : ℤ → Core) (cpu : ℤ) : Tri :=
  toLex (coreOf cpu, cpu)

/-- `tri`, after `std::sort`. -/
def tri (online : List ℤ) (coreOf : ℤ → Core) : List Tri :=
  (online.map (triple coreOf)).insertionSort (· ≤ ·)

/-! ## `compact_phys` -/

/-- The variables of the loop. -/
structure Rounds where
  rounds : List (List ℤ)
  lastCore : Core
  roundIdx : Nat

/-- The body of the loop. -/
def Rounds.push (r : Rounds) (x : Tri) : Rounds :=
  let lastCore := if x.key ≠ r.lastCore then x.key else r.lastCore
  let roundIdx := if x.key ≠ r.lastCore then 0 else r.roundIdx
  let rounds := if r.rounds.length ≤ roundIdx then r.rounds ++ [[]] else r.rounds
  ⟨rounds.modify roundIdx (· ++ [x.cpu]), lastCore, roundIdx + 1⟩

/-- The rounds of a list of triples. -/
def dealRounds (l : List Tri) : Rounds :=
  l.foldl Rounds.push ⟨[], toLex (-2, -2), 0⟩

/-! ## `compact_socket` -/

/-- `sockets`, sorted and without repetitions. -/
def sockets (l : List Tri) : List ℤ :=
  ((l.map fun x => x.key.socket).insertionSort (· ≤ ·)).destutter (· ≠ ·)

/-- The CPUs socket by socket. -/
def socketOrder (l : List Tri) : List ℤ :=
  (sockets l).flatMap fun sock => (l.filter fun x => x.key.socket = sock).map Tri.cpu

/-! ## The topology and its use -/

/-- `cpu_topology`, as far as the orders need it. -/
structure Topology where
  online : List ℤ
  orderCompactPhys : List ℤ
  orderCompactSocket : List ℤ
  nLogical : Nat
  nPhysical : Nat
  nSockets : Nat

/-- `probe_topology`, given `hardware_concurrency`, the online CPUs and their cores. -/
def probeTopology (hardwareConcurrency : Nat) (online : List ℤ) (coreOf : ℤ → Core) : Topology :=
  let hw := max hardwareConcurrency 1
  let l := tri online coreOf
  let rounds := (dealRounds l).rounds
  { online := online
    orderCompactPhys := rounds.flatten
    orderCompactSocket := socketOrder l
    nLogical := hw
    nPhysical := match rounds with
      | [] => hw
      | round :: _ => round.length
    nSockets := (sockets l).length }

inductive PinPolicy
  | off
  | linear
  | compactPhys
  | compactSocket
  deriving DecidableEq

/-- The order behind a policy. -/
def Topology.order (t : Topology) : PinPolicy → Option (List ℤ)
  | .compactPhys => some t.orderCompactPhys
  | .compactSocket => some t.orderCompactSocket
  | _ => none

/-- `resolve_pin_target`. -/
def resolvePinTarget (t : Topology) (workerIdx : ℤ) (policy : PinPolicy) : ℤ :=
  if policy = .off ∨ workerIdx < 0 then -1
  else match t.order policy with
    | none => workerIdx
    | some order =>
        if order = [] then workerIdx
        else if workerIdx < order.length then order.getD workerIdx.toNat (-1)
        else order.getD (workerIdx.tmod order.length).toNat (-1)

/-! ## The sorted triples -/

section Sorted

/-- A triple names its CPU. -/
theorem triple_injective (coreOf : ℤ → Core) : Function.Injective (triple coreOf) :=
  fun _ _ h => congrArg Tri.cpu h

/-- The triples are sorted by core first. -/
theorem key_monotone : Monotone Tri.key :=
  fun _ _ h => Prod.Lex.monotone_fst _ _ h

/-- Triples of one core are ordered by CPU. -/
theorem triple_lt_iff {coreOf : ℤ → Core} {a b : ℤ} (h : coreOf a = coreOf b) :
    triple coreOf a < triple coreOf b ↔ a < b := by
  simp [triple, Prod.Lex.toLex_lt_toLex, h]

variable {online : List ℤ} {coreOf : ℤ → Core}

/-- The sorted triples are those of the online CPUs. -/
theorem tri_perm : (tri online coreOf).Perm (online.map (triple coreOf)) :=
  List.perm_insertionSort _ _

/-- Every online CPU has its triple. -/
theorem mem_tri {x : Tri} : x ∈ tri online coreOf ↔ ∃ cpu ∈ online, triple coreOf cpu = x := by
  rw [tri_perm.mem_iff, List.mem_map]

/-- No triple occurs twice. -/
theorem tri_nodup (h : online.Nodup) : (tri online coreOf).Nodup :=
  tri_perm.nodup_iff.mpr (h.map (triple_injective coreOf))

/-- The triples are strictly increasing. -/
theorem tri_sorted (h : online.Nodup) : (tri online coreOf).Pairwise (· < ·) := by
  have hle : (tri online coreOf).Pairwise (· ≤ ·) := List.pairwise_insertionSort _ _
  exact (hle.and (tri_nodup h)).imp fun h => lt_of_le_of_ne h.1 h.2

/-- The CPUs of the sorted triples are the online ones. -/
theorem tri_cpus_perm : ((tri online coreOf).map Tri.cpu).Perm online := by
  have h := (tri_perm : (tri online coreOf).Perm _).map Tri.cpu
  rwa [List.map_map, show Tri.cpu ∘ triple coreOf = id from rfl, List.map_id] at h

end Sorted

/-! ## The rounds are the levels -/

section Deal

/-- The round at an index; nothing if there is none. -/
def Rounds.at (r : Rounds) (k : Nat) : List ℤ :=
  r.rounds.getD k []

/-- The round the next triple of a core goes to. -/
def Rounds.idxFor (r : Rounds) (c : Core) : Nat :=
  if c ≠ r.lastCore then 0 else r.roundIdx

/-- The rounds after one more triple. -/
theorem push_rounds (r : Rounds) (x : Tri) :
    (r.push x).rounds =
      (if r.rounds.length ≤ r.idxFor x.key then r.rounds ++ [[]] else r.rounds).modify
        (r.idxFor x.key) (· ++ [x.cpu]) := rfl

/-- One triple goes to the end of one round. -/
theorem at_push {r : Rounds} {x : Tri} (h : r.idxFor x.key ≤ r.rounds.length) (k : Nat) :
    (r.push x).at k = r.at k ++ if r.idxFor x.key = k then [x.cpu] else [] := by
  simp only [Rounds.at, push_rounds, List.getD_eq_getElem?_getD, List.getElem?_modify]
  by_cases hge : r.rounds.length ≤ r.idxFor x.key
  · have heq : r.idxFor x.key = r.rounds.length := le_antisymm h hge
    rw [if_pos hge, heq, List.getElem?_append]
    rcases Nat.lt_trichotomy k r.rounds.length with hlt | rfl | hgt
    · simp [hlt, hlt.ne']
    · simp
    · rw [if_neg hgt.not_gt, if_neg hgt.ne, List.getElem?_eq_none (by simp; omega),
        List.getElem?_eq_none hgt.le]
      rfl
  · rw [if_neg hge]
    split
    next hk =>
      have hin : k < r.rounds.length := by omega
      simp [List.getElem?_eq_getElem hin]
    next => simp

/-- A triple opens the round it goes to. -/
theorem length_push {r : Rounds} {x : Tri} (h : r.idxFor x.key ≤ r.rounds.length) :
    (r.push x).rounds.length = max r.rounds.length (r.idxFor x.key + 1) := by
  rw [push_rounds, List.length_modify]
  split
  · rw [List.length_append, List.length_singleton]
    omega
  · omega

/-- The index goes on within a core and restarts with the next one. -/
theorem idxFor_push (r : Rounds) (x : Tri) (c : Core) :
    (r.push x).idxFor c = if c = x.key then r.idxFor x.key + 1 else 0 := by
  have hlast : (r.push x).lastCore = x.key := by
    change (if x.key ≠ r.lastCore then x.key else r.lastCore) = x.key
    split
    next => rfl
    next hsame => exact (not_not.mp hsame).symm
  simp only [Rounds.idxFor, hlast]
  by_cases hc : c = x.key
  · rw [if_neg (not_not.mpr hc), if_pos hc]
    rfl
  · rw [if_pos hc, if_neg hc]

/-- What the loop has after a sorted list: the levels, the number of triples of the core
it is at, and as many rounds as a core has triples. -/
structure DealOk (l : List Tri) (r : Rounds) : Prop where
  at_eq : ∀ k, r.at k = (Ranks.level Tri.key l k).map Tri.cpu
  idx : ∀ c, (∀ x ∈ l, x.key ≤ c) → r.idxFor c = l.countP fun x => x.key = c
  size : ∀ c, (l.countP fun x => x.key = c) ≤ r.rounds.length

/-- Nothing dealt yet. -/
theorem dealOk_nil : DealOk [] ⟨[], toLex (-2, -2), 0⟩ where
  at_eq _ := rfl
  idx _ _ := ite_self 0
  size _ := Nat.le_refl 0

/-- **One triple more.** -/
theorem DealOk.push {l : List Tri} {r : Rounds} {x : Tri} (h : DealOk l r)
    (hlast : ∀ y ∈ l, y < x) : DealOk (l ++ [x]) (r.push x) := by
  have hidx := h.idx x.key fun y hy => key_monotone (hlast y hy).le
  have hle : r.idxFor x.key ≤ r.rounds.length := hidx ▸ h.size x.key
  have hcount : ∀ c, ((l ++ [x]).countP fun y => y.key = c) =
      (l.countP fun y => y.key = c) + if x.key = c then 1 else 0 := fun c => by
    simp [List.countP_append, List.countP_singleton]
  refine ⟨fun k => ?_, fun c hc => ?_, fun c => ?_⟩
  · rw [at_push hle, h.at_eq, hidx, Ranks.level_concat hlast, List.map_append]
    split <;> rfl
  · rw [idxFor_push, hcount, hidx]
    by_cases hx : c = x.key
    · rw [if_pos hx, hx, if_pos rfl]
    · -- a core after the last one has no triple yet
      have hnone : (l.countP fun y => y.key = c) = 0 := List.countP_eq_zero.mpr fun y hy hyc => by
        have hyx := key_monotone (hlast y hy).le
        rw [of_decide_eq_true hyc] at hyx
        exact hx (le_antisymm hyx (hc x (by simp)))
      rw [if_neg hx, if_neg (Ne.symm hx), hnone]
  · rw [hcount, length_push hle]
    have hc := h.size c
    split
    next heq =>
      rw [← heq, ← hidx]
      omega
    next => omega

/-- **A sorted list is dealt into its levels.** -/
theorem dealOk_dealRounds {l : List Tri} (hsorted : l.Pairwise (· < ·)) :
    DealOk l (dealRounds l) := by
  induction l using List.reverseRecOn with
  | nil => exact dealOk_nil
  | append_singleton l x ih =>
      obtain ⟨hl, -, hlast⟩ := List.pairwise_append.mp hsorted
      rw [dealRounds, List.foldl_append]
      exact (ih hl).push fun y hy => hlast y hy x (by simp)

/-- The rounds one after the other. -/
theorem flatten_rounds {l : List Tri} (hsorted : l.Pairwise (· < ·)) :
    (dealRounds l).rounds.flatten =
      (Ranks.levels Tri.key l (dealRounds l).rounds.length).map Tri.cpu := by
  have hok := dealOk_dealRounds hsorted
  have hat : (dealRounds l).rounds =
      (List.range (dealRounds l).rounds.length).map (dealRounds l).at := by
    refine List.ext_getElem (by simp) fun k hk _ => ?_
    simp [Rounds.at, hk]
  rw [Ranks.levels, List.map_flatMap, List.flatMap_def, ← funext hok.at_eq, ← hat]

end Deal

/-! ## The two orders -/

section Orders

variable {online : List ℤ} {coreOf : ℤ → Core} {hw : Nat}

/-- The number of a CPU among those of its core, in ascending order. -/
def sibling (online : List ℤ) (coreOf : ℤ → Core) (cpu : ℤ) : Nat :=
  online.countP fun c => coreOf c = coreOf cpu ∧ c < cpu

/-- The rank of a triple within its core is the number of smaller siblings that are online. -/
theorem rank_triple (cpu : ℤ) :
    Ranks.rank Tri.key (tri online coreOf) (triple coreOf cpu) = sibling online coreOf cpu := by
  rw [Ranks.rank_perm tri_perm, Ranks.rank, sibling, List.countP_map]
  refine List.countP_congr fun c _ => ?_
  rw [Function.comp_apply, decide_eq_true_iff, decide_eq_true_iff]
  exact and_congr_right fun h => triple_lt_iff h

/-- **`order_compact_phys`** lists the triples level by level. -/
theorem orderCompactPhys_eq (h : online.Nodup) :
    (probeTopology hw online coreOf).orderCompactPhys =
      (Ranks.levels Tri.key (tri online coreOf)
        (dealRounds (tri online coreOf)).rounds.length).map Tri.cpu :=
  flatten_rounds (tri_sorted h)

/-- `compact_phys` is an order of the online CPUs. -/
theorem orderCompactPhys_perm (h : online.Nodup) :
    (probeTopology hw online coreOf).orderCompactPhys.Perm online := by
  have hok : DealOk (tri online coreOf) (dealRounds (tri online coreOf)) :=
    dealOk_dealRounds (tri_sorted h)
  rw [orderCompactPhys_eq h]
  refine ((Ranks.levels_perm (tri_nodup h) fun x hx => ?_).map Tri.cpu).trans tri_cpus_perm
  exact (Ranks.rank_lt_countP hx).trans_le (hok.size x.key)

/-- `compact_phys` goes by number among the siblings, then by core. -/
theorem orderCompactPhys_pairwise (h : online.Nodup) :
    (probeTopology hw online coreOf).orderCompactPhys.Pairwise fun a b =>
      sibling online coreOf a < sibling online coreOf b ∨
        sibling online coreOf a = sibling online coreOf b ∧ coreOf a < coreOf b := by
  rw [orderCompactPhys_eq h, List.pairwise_map]
  refine (Ranks.levels_pairwise key_monotone (tri_sorted h) _).imp_of_mem fun {x y} hx hy hxy => ?_
  obtain ⟨a, -, rfl⟩ := mem_tri.mp (Ranks.mem_levels.mp hx).1
  obtain ⟨b, -, rfl⟩ := mem_tri.mp (Ranks.mem_levels.mp hy).1
  rwa [rank_triple, rank_triple] at hxy

/-- The first `n_physical` CPUs are the first round. -/
theorem take_nPhysical (h : online.Nodup) (hne : online ≠ []) :
    (probeTopology hw online coreOf).orderCompactPhys.take
      (probeTopology hw online coreOf).nPhysical =
        (Ranks.level Tri.key (tri online coreOf) 0).map Tri.cpu := by
  have hok : DealOk (tri online coreOf) (dealRounds (tri online coreOf)) :=
    dealOk_dealRounds (tri_sorted h)
  have hzero := hok.at_eq 0
  simp only [probeTopology]
  cases hrounds : (dealRounds (tri online coreOf)).rounds with
  | nil =>
      obtain ⟨cpu, hcpu⟩ := List.exists_mem_of_ne_nil _ hne
      have hmem : triple coreOf cpu ∈ tri online coreOf := mem_tri.mpr ⟨cpu, hcpu, rfl⟩
      have hrank : Ranks.rank Tri.key (tri online coreOf) (triple coreOf cpu) < _ :=
        Ranks.rank_lt_countP hmem
      have hsize := hrank.trans_le (hok.size _)
      rw [hrounds] at hsize
      exact absurd hsize (Nat.not_lt_zero _)
  | cons round rest =>
      rw [Rounds.at, hrounds] at hzero
      rw [← hzero]
      exact List.take_left

/-- Two CPUs in an order by number stand in the order of their numbers. -/
theorem lt_of_pairwise {l : List ℤ} {f : ℤ → Nat} {r : ℤ → ℤ → Prop}
    (h : l.Pairwise fun a b => f a < f b ∨ f a = f b ∧ r a b) {i j : Nat} {a b : ℤ}
    (ha : l[i]? = some a) (hb : l[j]? = some b) (hlt : f b < f a) : j < i := by
  obtain ⟨hi, rfl⟩ := List.getElem?_eq_some_iff.mp ha
  obtain ⟨hj, rfl⟩ := List.getElem?_eq_some_iff.mp hb
  rcases Nat.lt_trichotomy i j with hij | rfl | hji
  · have := List.pairwise_iff_getElem.mp h i j hi hj hij
    omega
  · exact absurd hlt (lt_irrefl _)
  · exact hji

/-! `compact_socket` -/

/-- Dropping repetitions keeps the elements. -/
theorem mem_destutter_ne {l : List ℤ} {x : ℤ} : x ∈ l.destutter (· ≠ ·) ↔ x ∈ l := by
  cases l with
  | nil => simp
  | cons a l =>
      rw [List.destutter_cons']
      induction l generalizing a with
      | nil => simp
      | cons b l ih =>
          by_cases hab : a = b
          · subst hab
            rw [List.destutter'_cons_neg _ (not_not.mpr rfl), ih]
            simp
          · rw [List.destutter'_cons_pos _ hab, List.mem_cons, ih, ← List.mem_cons]

/-- The sockets in the list. -/
theorem mem_sockets {l : List Tri} {sock : ℤ} :
    sock ∈ sockets l ↔ ∃ x ∈ l, x.key.socket = sock := by
  rw [sockets, mem_destutter_ne, (List.perm_insertionSort _ _).mem_iff, List.mem_map]

/-- The sockets ascend. -/
theorem sockets_sorted (l : List Tri) : (sockets l).Pairwise (· < ·) := by
  have hle : (sockets l).Pairwise (· ≤ ·) :=
    (List.pairwise_insertionSort _ _).sublist (List.destutter_sublist _ _)
  have hne : (sockets l).IsChain (· ≠ ·) := List.isChain_destutter _ _
  refine List.isChain_iff_pairwise.mp (List.isChain_iff_getElem.mpr fun i hi => ?_)
  exact lt_of_le_of_ne (List.isChain_iff_getElem.mp hle.isChain i hi)
    (List.isChain_iff_getElem.mp hne i hi)

/-- **`order_compact_socket`** lists the triples socket by socket. -/
theorem socketOrder_eq (l : List Tri) :
    socketOrder l = ((sockets l).flatMap fun sock => l.filter fun x => x.key.socket = sock).map
      Tri.cpu := by
  rw [socketOrder, List.map_flatMap]

/-- The triples socket by socket are the triples in another order. -/
theorem flatMap_sockets_perm {l : List Tri} (h : l.Nodup) :
    ((sockets l).flatMap fun sock => l.filter fun x => x.key.socket = sock).Perm l := by
  refine (List.perm_ext_iff_of_nodup ?_ h).mpr fun x => ?_
  · refine List.nodup_flatMap.mpr ⟨fun sock _ => h.filter _, ?_⟩
    refine (sockets_sorted l).imp fun {s t} hst x hs ht => hst.ne ?_
    rw [← of_decide_eq_true (List.mem_filter.mp hs).2, ← of_decide_eq_true (List.mem_filter.mp ht).2]
  · rw [List.mem_flatMap]
    constructor
    · rintro ⟨sock, -, hx⟩
      exact (List.mem_filter.mp hx).1
    · exact fun hx => ⟨x.key.socket, mem_sockets.mpr ⟨x, hx, rfl⟩,
        List.mem_filter.mpr ⟨hx, decide_eq_true rfl⟩⟩

/-- `compact_socket` is an order of the online CPUs. -/
theorem orderCompactSocket_perm (h : online.Nodup) :
    (probeTopology hw online coreOf).orderCompactSocket.Perm online := by
  change (socketOrder (tri online coreOf)).Perm online
  rw [socketOrder_eq]
  exact ((flatMap_sockets_perm (tri_nodup h)).map Tri.cpu).trans tri_cpus_perm

/-- `compact_socket` goes by socket. -/
theorem orderCompactSocket_pairwise :
    (probeTopology hw online coreOf).orderCompactSocket.Pairwise fun a b =>
      (coreOf a).socket ≤ (coreOf b).socket := by
  have hmem : ∀ {x : Tri} {sock : ℤ},
      x ∈ (tri online coreOf).filter (fun x => x.key.socket = sock) →
        (coreOf x.cpu).socket = sock := by
    intro x sock hx
    obtain ⟨hx, hs⟩ := List.mem_filter.mp hx
    obtain ⟨cpu, -, rfl⟩ := mem_tri.mp hx
    exact of_decide_eq_true hs
  change (socketOrder (tri online coreOf)).Pairwise _
  rw [socketOrder_eq, List.pairwise_map]
  refine List.pairwise_flatMap.mpr ⟨fun sock _ => ?_, ?_⟩
  · refine List.Pairwise.imp_of_mem (fun hx hy _ => ?_) (List.pairwise_of_forall fun _ _ => trivial)
    rw [hmem hx, hmem hy]
  · refine (sockets_sorted _).imp fun {s t} hst x hx y hy => ?_
    rw [hmem hx, hmem hy]
    exact hst.le

/-! ## Workers -/

/-- A worker gets the CPU at its index in the order, round and round. -/
theorem resolve_eq {t : Topology} {policy : PinPolicy} {order : List ℤ}
    (horder : t.order policy = some order) (hne : order ≠ []) (i : Nat) :
    resolvePinTarget t i policy = order.getD (i % order.length) (-1) := by
  have hpolicy : policy ≠ .off := by
    rintro rfl
    cases horder
  rw [resolvePinTarget, if_neg (by simp [hpolicy]), horder]
  simp only [if_neg hne]
  split
  next hlt =>
    rw [Nat.mod_eq_of_lt (by omega)]
    rfl
  next => rfl

/-- A CPU of the order is the target of the workers congruent to its index. -/
theorem resolve_eq_iff {order : List ℤ} (hnodup : order.Nodup) {v : Nat} (hv : v < order.length)
    (i : Nat) : order.getD (i % order.length) (-1) = order[v] ↔ i ≡ v [MOD order.length] := by
  have hlt : i % order.length < order.length := Nat.mod_lt _ (by omega)
  rw [List.getD_eq_getElem _ _ hlt, hnodup.getElem_inj_iff, Nat.ModEq, Nat.mod_eq_of_lt hv]

/-- The number of workers among the first `n` that go to a CPU. -/
def load (t : Topology) (policy : PinPolicy) (n : Nat) (cpu : ℤ) : Nat :=
  n.count fun i => resolvePinTarget t i policy = cpu

/-- Each CPU of the order gets its share, or one more. -/
theorem load_bounds {t : Topology} {policy : PinPolicy} {order : List ℤ}
    (horder : t.order policy = some order) (hnodup : order.Nodup) (n : Nat) {cpu : ℤ}
    (hcpu : cpu ∈ order) :
    n / order.length ≤ load t policy n cpu ∧ load t policy n cpu ≤ n / order.length + 1 := by
  obtain ⟨v, hv, rfl⟩ := List.getElem_of_mem hcpu
  have hne : order ≠ [] := List.ne_nil_of_length_pos (by omega)
  have hload : load t policy n order[v] = n.count (· ≡ v [MOD order.length]) := by
    simp only [load, resolve_eq horder hne, resolve_eq_iff hnodup hv]
  rw [hload, Nat.count_modEq_card _ (by omega)]
  split <;> omega

/-- What the orders are for. -/
structure Placement (t : Topology) (online : List ℤ) (coreOf : ℤ → Core) : Prop where
  phys_perm : t.orderCompactPhys.Perm online
  phys_size : (t.orderCompactPhys.take t.nPhysical).length = t.nPhysical
  phys_ascending : (t.orderCompactPhys.take t.nPhysical).Pairwise fun a b => coreOf a < coreOf b
  phys_covers : ∀ cpu ∈ online, ∃ c ∈ t.orderCompactPhys.take t.nPhysical, coreOf c = coreOf cpu
  phys_siblings : ∀ (i j : Nat) a b, t.orderCompactPhys[i]? = some a →
    t.orderCompactPhys[j]? = some b → coreOf a = coreOf b → a < b → i < j
  phys_rounds : ∀ (k i j : Nat) a b, t.orderCompactPhys[i]? = some a →
    t.orderCompactPhys[j]? = some b → sibling online coreOf a = k + 1 →
    sibling online coreOf b = k → j < i
  socket_perm : t.orderCompactSocket.Perm online
  socket_ascending : t.orderCompactSocket.Pairwise fun a b => (coreOf a).socket ≤ (coreOf b).socket
  socket_contiguous : ∀ (i j k : Nat) a b c, i < j → j < k → t.orderCompactSocket[i]? = some a →
    t.orderCompactSocket[j]? = some b → t.orderCompactSocket[k]? = some c →
    (coreOf a).socket = (coreOf c).socket → (coreOf b).socket = (coreOf a).socket
  balanced : ∀ policy, policy = .compactPhys ∨ policy = .compactSocket → ∀ n, ∀ a ∈ online,
    ∀ b ∈ online, load t policy n a ≤ load t policy n b + 1

/-- Of two siblings the smaller number comes in an earlier round. -/
theorem sibling_lt {a b : ℤ} (ha : a ∈ online) (hcore : coreOf a = coreOf b) (hlt : a < b) :
    sibling online coreOf a < sibling online coreOf b := by
  rw [← rank_triple, ← rank_triple]
  exact Ranks.rank_lt_rank (mem_tri.mpr ⟨a, ha, rfl⟩) hcore ((triple_lt_iff hcore).mpr hlt)

/-- The first round has a CPU of every core, by ascending core. -/
theorem first_round (h : online.Nodup) :
    ((Ranks.level Tri.key (tri online coreOf) 0).map Tri.cpu).Pairwise
        (fun a b => coreOf a < coreOf b) ∧
      ∀ cpu ∈ online, ∃ c ∈ (Ranks.level Tri.key (tri online coreOf) 0).map Tri.cpu,
        coreOf c = coreOf cpu := by
  have hkey : ∀ {x}, x ∈ Ranks.level Tri.key (tri online coreOf) 0 → coreOf x.cpu = x.key := by
    intro x hx
    obtain ⟨cpu, -, rfl⟩ := mem_tri.mp (Ranks.mem_level.mp hx).1
    rfl
  constructor
  · rw [List.pairwise_map]
    refine (Ranks.level_pairwise key_monotone (tri_sorted h) 0).imp_of_mem fun {x y} hx hy hxy => ?_
    rwa [hkey hx, hkey hy]
  · intro cpu hcpu
    have hmem : triple coreOf cpu ∈ tri online coreOf := mem_tri.mpr ⟨cpu, hcpu, rfl⟩
    obtain ⟨y, hy, hyk⟩ : ∃ y ∈ Ranks.level Tri.key (tri online coreOf) 0, _ :=
      Ranks.exists_rank_zero hmem
    exact ⟨y.cpu, List.mem_map_of_mem hy, (hkey hy).trans hyk⟩

/-- There are at least `n_physical` CPUs. -/
theorem nPhysical_le (h : online.Nodup) (hne : online ≠ []) :
    (probeTopology hw online coreOf).nPhysical ≤
      (probeTopology hw online coreOf).orderCompactPhys.length := by
  have hpos : (probeTopology hw online coreOf).orderCompactPhys ≠ [] := fun hnil => by
    have hperm : (probeTopology hw online coreOf).orderCompactPhys.Perm online :=
      orderCompactPhys_perm h
    rw [hnil] at hperm
    exact hne hperm.nil_eq.symm
  simp only [probeTopology] at hpos ⊢
  cases hrounds : (dealRounds (tri online coreOf)).rounds with
  | nil =>
      rw [hrounds] at hpos
      exact absurd rfl hpos
  | cons round rest => simp

/-- **The placement orders are right on every machine.** -/
theorem probeTopology_placement (hw : Nat) (coreOf : ℤ → Core) (hne : online ≠ [])
    (h : online.Nodup) : Placement (probeTopology hw online coreOf) online coreOf := by
  have hphys : (probeTopology hw online coreOf).orderCompactPhys.Perm online :=
    orderCompactPhys_perm h
  have hsocket : (probeTopology hw online coreOf).orderCompactSocket.Perm online :=
    orderCompactSocket_perm h
  have hpair : (probeTopology hw online coreOf).orderCompactPhys.Pairwise _ :=
    orderCompactPhys_pairwise h
  have hascend : (probeTopology hw online coreOf).orderCompactSocket.Pairwise _ :=
    orderCompactSocket_pairwise
  have htake : (probeTopology hw online coreOf).orderCompactPhys.take _ = _ := take_nPhysical h hne
  obtain ⟨hround, hcover⟩ := first_round h
  rw [← htake] at hround hcover
  refine ⟨hphys, ?_, hround, hcover, ?_, ?_, hsocket, hascend, ?_, ?_⟩
  · exact List.length_take_of_le (nPhysical_le h hne)
  · intro i j a b ha hb hcore hlt
    have hmem := hphys.mem_iff.mp (List.mem_of_getElem? ha)
    exact lt_of_pairwise hpair hb ha (sibling_lt hmem hcore hlt)
  · intro k i j a b ha hb hka hkb
    exact lt_of_pairwise hpair ha hb (by omega)
  · intro i j k a b c hij hjk ha hb hc hac
    obtain ⟨hi, rfl⟩ := List.getElem?_eq_some_iff.mp ha
    obtain ⟨hj, rfl⟩ := List.getElem?_eq_some_iff.mp hb
    obtain ⟨hk, rfl⟩ := List.getElem?_eq_some_iff.mp hc
    have hab := List.pairwise_iff_getElem.mp hascend i j hi hj hij
    have hbc := List.pairwise_iff_getElem.mp hascend j k hj hk hjk
    exact le_antisymm (hbc.trans hac.ge) hab
  · rintro policy hpolicy n a ha b hb
    obtain ⟨order, horder, hperm⟩ : ∃ order,
        (probeTopology hw online coreOf).order policy = some order ∧ order.Perm online := by
      rcases hpolicy with rfl | rfl
      · exact ⟨_, rfl, hphys⟩
      · exact ⟨_, rfl, hsocket⟩
    have hnodup := hperm.nodup_iff.mpr h
    have hla := (load_bounds horder hnodup n (hperm.mem_iff.mpr ha)).2
    have hlb := (load_bounds horder hnodup n (hperm.mem_iff.mpr hb)).1
    omega

/-- A hybrid machine: two CPUs on the first core of socket 0, one on each other core, and
ids that jump between the sockets. -/
def hybridCores (cpu : ℤ) : Core :=
  if cpu = 0 ∨ cpu = 7 then toLex (0, 3) else if cpu = 9 then toLex (0, 4) else toLex (1, cpu)

/-- The second CPU of the first core comes last. -/
theorem probeTopology_placement_hybrid :
    (probeTopology 5 [0, 4, 1, 7, 9] hybridCores).orderCompactPhys = [0, 9, 1, 4, 7] ∧
      Placement (probeTopology 5 [0, 4, 1, 7, 9] hybridCores) [0, 4, 1, 7, 9] hybridCores :=
  ⟨by decide +kernel, probeTopology_placement 5 _ (by decide) (by decide)⟩

end Orders

end CpuTopology
