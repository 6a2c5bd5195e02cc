import LockBench.StoreBuffer

/-!
# The ticket lock

`ticket_lock` hands out tickets from a 32-bit counter `next` and serves them in order
through a second counter `owner`.  `unlock` loads `owner` and stores it plus one in two
accesses.  `try_lock` loads `owner`, then `next`, and takes a ticket by a
compare-exchange on `next` if the two were equal.

Beside the two words the memory keeps what the words are about: who took a ticket and
who entered, in this order, and how many tickets have been served.  No access depends
on these.  A `try_lock` carries the number of tickets served when it loaded `owner`.
-/

namespace TicketLock

/-- The two words, and the history. -/
structure Mem (T : Type) where
  next : BitVec 32
  owner : BitVec 32
  draws : List T
  enters : List T
  served : Nat

/-- Program points, named after the access made there. -/
inductive Pc
  | idle
  | returnedFalse
  | draw
  | wait (ticket : BitVec 32)
  | held
  | unlockStore (cur : BitVec 32)
  | tryOwner
  | tryNext (owner : BitVec 32) (served : Nat)
  | tryExchange (owner next : BitVec 32) (served : Nat)
  deriving DecidableEq

/-- How a thread's nondeterminism is resolved: the function it calls, or the next
access of the one it is in. -/
inductive Choice
  | lock
  | tryLock
  | go
  deriving DecidableEq

section Program

variable {T : Type}

/-- The first access of the function a thread decides to call. -/
def call : Choice → Option Pc
  | .lock => some .draw
  | .tryLock => some .tryOwner
  | .go => none

/-- `next.fetch_add(1)`, or a successful exchange of `next`. -/
def Mem.take (m : Mem T) (t : T) (next : BitVec 32) : Mem T :=
  { m with next := next, draws := m.draws ++ [t] }

/-- The thread is in. -/
def Mem.enter (m : Mem T) (t : T) : Mem T :=
  { m with enters := m.enters ++ [t] }

/-- `owner.store(cur + 1)`. -/
def Mem.leave (m : Mem T) (cur : BitVec 32) : Mem T :=
  { m with owner := cur + 1, served := m.served + 1 }

/-- One access of a thread. -/
def next (t : T) (m : Mem T) : Pc → Choice → Option (Mem T × Pc)
  | .idle, c => (call c).map (m, ·)
  | .returnedFalse, c => (call c).map (m, ·)
  | .draw, .go => some (m.take t (m.next + 1), .wait m.next)
  | .wait ticket, .go =>
      some (if m.owner = ticket then (m.enter t, .held) else (m, .wait ticket))
  | .held, .go => some (m, .unlockStore m.owner)
  | .unlockStore cur, .go => some (m.leave cur, .idle)
  | .tryOwner, .go => some (m, .tryNext m.owner m.served)
  | .tryNext o r, .go => some (m, if m.next ≠ o then .returnedFalse else .tryExchange o m.next r)
  | .tryExchange o n _, .go =>
      some (if m.next = n then ((m.take t (o + 1)).enter t, .held) else (m, .returnedFalse))
  | _, _ => none

/-- Any number of threads over one lock. -/
def machine (T : Type) [DecidableEq T] : Machine (ScState T (Mem T) Pc) (T × Choice) :=
  interleave next ⟨0, 0, [], [], 0⟩ .idle

end Program

/-! ## Who is where -/

/-- The thread is between the return of `lock` or `try_lock` and the store of `unlock`. -/
def Pc.inside : Pc → Bool
  | .held | .unlockStore _ => true
  | _ => false

/-- The thread has a ticket that has not been served to the end. -/
def Pc.engaged : Pc → Bool
  | .wait _ | .held | .unlockStore _ => true
  | _ => false

/-- The thread is in the middle of `try_lock`. -/
def Pc.seen : Pc → Option (BitVec 32 × Nat)
  | .tryNext o r | .tryExchange o _ r => some (o, r)
  | _ => none

/-- Who is inside is engaged. -/
theorem engaged_of_inside {p : Pc} (h : p.inside = true) : p.engaged = true := by
  cases p <;> first | rfl | cases h

section Invariant

variable {T : Type} [DecidableEq T]

/-- What holds of a thread at its point, with the tickets of `done` served and those of
`queue` waited for or held, in the order of their numbers. -/
structure ThreadOk (m : Mem T) (done queue : List T) (t : T) (p : Pc) : Prop where
  engaged : t ∈ queue ↔ p.engaged = true
  ticket : ∀ i k, queue[i]? = some t → p = .wait k → k = BitVec.ofNat 32 (done.length + i)
  inside : p.inside = true → queue.head? = some t ∧ m.enters = done ++ [t]
  cur : ∀ c, p = .unlockStore c → c = m.owner
  seen : ∀ o r, p.seen = some (o, r) → o = BitVec.ofNat 32 r ∧ r ≤ done.length
  equal : ∀ o n r, p = .tryExchange o n r → n = o

/-- The words count the tickets. -/
structure Inv (s : ScState T (Mem T) Pc) (done queue : List T) : Prop where
  draws : s.mem.draws = done ++ queue
  served : s.mem.served = done.length
  next : s.mem.next = BitVec.ofNat 32 s.mem.draws.length
  owner : s.mem.owner = BitVec.ofNat 32 done.length
  nodup : queue.Nodup
  free : (∀ t, (s.pc t).inside = false) → s.mem.enters = done
  threads : ∀ t, ThreadOk s.mem done queue t (s.pc t)

/-- At its compare-exchange a `try_lock` has seen fewer than `2 ^ 32` tickets pass: those
drawn by now, less those served when it loaded `owner`. -/
def Fresh (s : ScState T (Mem T) Pc) (a : T × Choice) : Prop :=
  ∀ o n r, s.pc a.1 = .tryExchange o n r → s.mem.draws.length < r + 2 ^ 32

/-- Nobody is in the queue at the start. -/
theorem inv_init : Inv (machine T).init [] [] where
  draws := rfl
  served := rfl
  next := rfl
  owner := rfl
  nodup := .nil
  free _ := rfl
  threads t := by
    refine ⟨iff_of_false List.not_mem_nil Bool.false_ne_true, fun i k hi => ?_, fun hin => ?_,
      fun c hc => ?_, fun o r hs => ?_, fun o n r he => ?_⟩
    · simp at hi
    · cases hin
    · cases hc
    · cases hs
    · cases he

section Steps

variable {s : ScState T (Mem T) Pc} {done queue : List T} {t : T}

omit [DecidableEq T] in
/-- At most one thread is inside. -/
theorem Inv.unique (h : Inv s done queue) {u : T} (ht : (s.pc t).inside = true)
    (hu : (s.pc u).inside = true) : t = u :=
  Option.some.inj (((h.threads t).inside ht).1.symm.trans ((h.threads u).inside hu).1)

/-- Nobody is inside after a move to a point outside, unless somebody else was. -/
theorem outside_of_update {p : Pc} (hno : ∀ u, (Function.update s.pc t p u).inside = false)
    (ht : (s.pc t).inside = false) (u : T) : (s.pc u).inside = false := by
  by_cases hu : u = t
  · rw [hu, ht]
  · have := hno u
    rwa [Function.update_of_ne hu] at this

/-- A move that changes neither the words nor who is engaged or inside. -/
theorem Inv.stay (h : Inv s done queue) {p : Pc} (hengaged : p.engaged = (s.pc t).engaged)
    (hinside : p.inside = (s.pc t).inside) (hwait : ∀ k, p = .wait k → s.pc t = .wait k)
    (hcur : ∀ c, p = .unlockStore c → c = s.mem.owner)
    (hseen : ∀ o r, p.seen = some (o, r) → o = BitVec.ofNat 32 r ∧ r ≤ done.length)
    (hequal : ∀ o n r, p = .tryExchange o n r → n = o) :
    Inv ⟨s.mem, Function.update s.pc t p⟩ done queue := by
  have ht := h.threads t
  refine ⟨h.draws, h.served, h.next, h.owner, h.nodup, fun hno => h.free fun u => ?_, ?_⟩
  · by_cases hu : u = t
    · subst hu
      rw [← hinside]
      simpa using hno u
    · have := hno u
      simp only [Function.update_of_ne hu] at this
      exact this
  · refine (Function.forall_update_iff s.pc (fun u q => ThreadOk s.mem done queue u q)).mpr
      ⟨⟨?_, fun i k hi hk => ht.ticket i k hi (hwait k hk), ?_, hcur, hseen, hequal⟩,
        fun u _ => h.threads u⟩
    · rw [hengaged]
      exact ht.engaged
    · rw [hinside]
      exact ht.inside

/-- Numbers less than `2 ^ 32` apart that are the same ticket are equal. -/
theorem eq_of_ofNat_eq {a b : Nat} (hab : a ≤ b) (hlt : b < a + 2 ^ 32)
    (h : BitVec.ofNat 32 a = BitVec.ofNat 32 b) : a = b := by
  have hmod := congrArg BitVec.toNat h
  simp only [BitVec.toNat_ofNat] at hmod
  omega

/-- A thread that is not engaged draws a ticket. -/
theorem Inv.draw (h : Inv s done queue) (ht : (s.pc t).engaged = false) :
    Inv ⟨s.mem.take t (s.mem.next + 1), Function.update s.pc t (.wait s.mem.next)⟩ done
      (queue ++ [t]) := by
  have hnot : t ∉ queue := fun hmem => by
    rw [(h.threads t).engaged, ht] at hmem
    cases hmem
  have hout : (s.pc t).inside = false := by
    by_contra hin
    rw [engaged_of_inside (by simpa using hin)] at ht
    cases ht
  refine ⟨?_, h.served, ?_, h.owner, ?_, fun hno => h.free (outside_of_update hno hout), ?_⟩
  · simp [Mem.take, h.draws]
  · simp only [Mem.take, h.next, List.length_append, List.length_singleton, BitVec.ofNat_add]
    rfl
  · refine List.nodup_append.mpr ⟨h.nodup, List.nodup_singleton t, fun a ha b hb hab => ?_⟩
    rw [List.mem_singleton.mp hb] at hab
    exact hnot (hab ▸ ha)
  · refine (Function.forall_update_iff s.pc (fun u q => ThreadOk _ done (queue ++ [t]) u q)).mpr
      ⟨⟨iff_of_true (by simp) rfl, fun i k hi hk => ?_, fun hin => ?_, fun c hc => ?_,
        fun o r hs => ?_, fun o n r he => ?_⟩, fun u hu => ?_⟩
    · have hik : i = queue.length := by
        rcases Nat.lt_trichotomy i queue.length with hlt | heq | hgt
        · rw [List.getElem?_append_left hlt] at hi
          exact absurd (List.mem_of_getElem? hi) hnot
        · exact heq
        · rw [List.getElem?_eq_none (by simp; omega)] at hi
          cases hi
      rw [← Pc.wait.inj hk, h.next, h.draws, List.length_append, hik]
    · cases hin
    · cases hc
    · cases hs
    · cases he
    · have hu' := h.threads u
      refine ⟨?_, fun i k hi hk => ?_, fun hin => ?_, hu'.cur, hu'.seen, hu'.equal⟩
      · simp only [List.mem_append, List.mem_singleton, hu, or_false]
        exact hu'.engaged
      · have hlt : i < queue.length := by
          by_contra hge
          rcases Nat.eq_or_lt_of_not_lt hge with heq | hgt
          · simp [heq] at hi
            exact hu hi.symm
          · rw [List.getElem?_eq_none (by simp; omega)] at hi
            cases hi
        rw [List.getElem?_append_left hlt] at hi
        exact hu'.ticket i k hi hk
      · obtain ⟨hhead, henters⟩ := hu'.inside hin
        refine ⟨?_, henters⟩
        rw [List.head?_append, hhead]
        rfl

omit [DecidableEq T] in
/-- Only the first of the queue finds its own number in `owner`. -/
theorem Inv.head_of_wait [Fintype T] (hT : Fintype.card T < 2 ^ 32) (h : Inv s done queue)
    {k : BitVec 32} (ht : s.pc t = .wait k) (hk : s.mem.owner = k) : queue.head? = some t := by
  have hok := h.threads t
  obtain ⟨i, hi⟩ := List.mem_iff_getElem?.mp (hok.engaged.mpr (by rw [ht]; rfl))
  have hlt : i < queue.length := (List.getElem?_eq_some_iff.mp hi).1
  have hcard : queue.length ≤ Fintype.card T := h.nodup.length_le_card
  have heq : BitVec.ofNat 32 done.length = BitVec.ofNat 32 (done.length + i) := by
    rw [← h.owner, hk]
    exact hok.ticket i k hi ht
  have hzero := eq_of_ofNat_eq (Nat.le_add_right _ _) (by omega) heq
  rw [show i = 0 by omega] at hi
  rw [List.head?_eq_getElem?, hi]

omit [DecidableEq T] in
/-- While the first of the queue waits, nobody is inside. -/
theorem Inv.outside_of_head (h : Inv s done queue) (hhead : queue.head? = some t)
    (ht : (s.pc t).inside = false) (u : T) : (s.pc u).inside = false := by
  by_contra hin
  have hu := ((h.threads u).inside (by simpa using hin)).1
  rw [hhead, Option.some.injEq] at hu
  rw [← hu, ht] at hin
  exact hin rfl

/-- The thread whose number is served enters. -/
theorem Inv.enter (h : Inv s done queue) {k : BitVec 32} (ht : s.pc t = .wait k)
    (hhead : queue.head? = some t) :
    Inv ⟨s.mem.enter t, Function.update s.pc t .held⟩ done queue := by
  have hno := h.outside_of_head hhead (by rw [ht]; rfl)
  have hok := h.threads t
  refine ⟨h.draws, h.served, h.next, h.owner, h.nodup, fun hout => ?_, ?_⟩
  · have hheld := hout t
    simp only [Function.update_self] at hheld
    cases hheld
  · refine (Function.forall_update_iff s.pc (fun u q => ThreadOk _ done queue u q)).mpr
      ⟨⟨iff_of_true (List.mem_of_head? hhead) rfl, fun i k _ hk => ?_, fun _ => ⟨hhead, ?_⟩,
        fun c hc => ?_, fun o r hs => ?_, fun o n r he => ?_⟩, fun u hu => ?_⟩
    · cases hk
    · simp only [Mem.enter, h.free hno]
    · cases hc
    · cases hs
    · cases he
    · have hu' := h.threads u
      refine ⟨hu'.engaged, hu'.ticket, fun hin => ?_, hu'.cur, hu'.seen, hu'.equal⟩
      rw [hno u] at hin
      cases hin

/-- The thread inside moves `owner` on. -/
theorem Inv.leave (h : Inv s done queue) {c : BitVec 32} (ht : s.pc t = .unlockStore c) :
    ∃ queue', queue = t :: queue' ∧
      Inv ⟨s.mem.leave c, Function.update s.pc t .idle⟩ (done ++ [t]) queue' := by
  have hok := h.threads t
  have hin : (s.pc t).inside = true := by rw [ht]; rfl
  obtain ⟨hhead, henters⟩ := hok.inside hin
  obtain ⟨queue', rfl⟩ : ∃ queue', queue = t :: queue' := by
    cases queue with
    | nil => cases hhead
    | cons u q => exact ⟨q, by rw [Option.some.inj hhead]⟩
  obtain ⟨hnot, hnodup⟩ := List.nodup_cons.mp h.nodup
  have hout : ∀ u, u ≠ t → (s.pc u).inside = false := fun u hu => by
    by_contra hu'
    exact hu (h.unique (by simpa using hu') hin)
  refine ⟨queue', rfl, ?_, ?_, h.next, ?_, hnodup, fun _ => henters, ?_⟩
  · simp [Mem.leave, h.draws]
  · simp [Mem.leave, h.served]
  · simp only [Mem.leave, hok.cur c ht, h.owner, List.length_append, List.length_singleton,
      BitVec.ofNat_add]
    rfl
  · refine (Function.forall_update_iff s.pc (fun u q => ThreadOk _ (done ++ [t]) queue' u q)).mpr
      ⟨⟨iff_of_false hnot Bool.false_ne_true, fun i k _ hk => ?_, fun hi => ?_, fun c hc => ?_,
        fun o r hs => ?_, fun o n r he => ?_⟩, fun u hu => ?_⟩
    · cases hk
    · cases hi
    · cases hc
    · cases hs
    · cases he
    · have hu' := h.threads u
      refine ⟨?_, fun i k hi hk => ?_, fun hi => ?_, fun c hc => ?_, fun o r hs => ?_, hu'.equal⟩
      · rw [← hu'.engaged, List.mem_cons]
        exact ⟨.inr, fun hmem => hmem.resolve_left hu⟩
      · have hnum := hu'.ticket (i + 1) k (by simpa using hi) hk
        rw [hnum, List.length_append, List.length_singleton]
        congr 1
        omega
      · rw [hout u hu] at hi
        cases hi
      · have := hout u hu
        rw [hc] at this
        cases this
      · obtain ⟨ho, hr⟩ := hu'.seen o r hs
        exact ⟨ho, by simp only [List.length_append, List.length_singleton]; omega⟩

omit [DecidableEq T] in
/-- **A fresh exchange finds the queue empty.** -/
theorem Inv.empty_of_fresh (h : Inv s done queue) {o n : BitVec 32} {r : Nat}
    (ht : s.pc t = .tryExchange o n r) (hn : s.mem.next = n)
    (hfresh : s.mem.draws.length < r + 2 ^ 32) : queue = [] ∧ s.mem.next = o := by
  have hok := h.threads t
  have hno : n = o := hok.equal o n r ht
  obtain ⟨ho, hr⟩ := hok.seen o r (by rw [ht]; rfl)
  have hlen : s.mem.draws.length = done.length + queue.length := by
    rw [h.draws, List.length_append]
  have heq : BitVec.ofNat 32 r = BitVec.ofNat 32 s.mem.draws.length := by
    rw [← h.next, hn, hno, ho]
  have hsame := eq_of_ofNat_eq (by omega) hfresh heq
  exact ⟨List.eq_nil_of_length_eq_zero (by omega), by rw [hn, hno]⟩

/-- A `try_lock` whose exchange finds the queue empty has drawn and entered at once. -/
theorem Inv.exchange (h : Inv s done queue) (hempty : queue = [])
    (ht : (s.pc t).engaged = false) :
    Inv ⟨(s.mem.take t (s.mem.next + 1)).enter t, Function.update s.pc t .held⟩ done [t] := by
  subst hempty
  have hdraw := h.draw ht
  have henter := hdraw.enter (t := t) (k := s.mem.next) (by simp) rfl
  simpa using henter

end Steps

/-! ## Runs -/

/-- Where the calls begin. -/
theorem call_cases {c : Choice} {p : Pc} (h : call c = some p) :
    p = .draw ∨ c = .tryLock ∧ p = .tryOwner := by
  cases c with
  | lock => exact .inl (Option.some.inj h).symm
  | tryLock => exact .inr ⟨rfl, (Option.some.inj h).symm⟩
  | go => cases h

section

variable {s : ScState T (Mem T) Pc} {done queue : List T} {t : T} {m : Mem T} {p : Pc}

/-- A thread that is not engaged may call a function and may be refused. -/
theorem Inv.outside (h : Inv s done queue) (ht : (s.pc t).engaged = false)
    (hp : p = .draw ∨ p = .tryOwner ∨ p = .returnedFalse) :
    Inv ⟨s.mem, Function.update s.pc t p⟩ done queue := by
  have hin : (s.pc t).inside = false := by
    by_contra hin
    rw [engaged_of_inside (by simpa using hin)] at ht
    cases ht
  rcases hp with rfl | rfl | rfl <;>
    refine h.stay ht.symm hin.symm (fun k hk => ?_) (fun c hc => ?_) (fun o r hs => ?_)
      (fun o n r he => ?_) <;> contradiction

/-- A call moves a thread that is not engaged to a point that is not either. -/
theorem Inv.call {c : Choice} (h : Inv s done queue) (ht : (s.pc t).engaged = false)
    (hc : (TicketLock.call c).map (s.mem, ·) = some (m, p)) :
    Inv ⟨m, Function.update s.pc t p⟩ done queue := by
  obtain ⟨q, hq, heq⟩ := Option.map_eq_some_iff.mp hc
  obtain ⟨rfl, rfl⟩ := Prod.mk.inj heq
  rcases call_cases hq with rfl | ⟨-, rfl⟩
  · exact h.outside ht (.inl rfl)
  · exact h.outside ht (.inr (.inl rfl))

/-- A waiter whose turn it is enters. -/
theorem Inv.waitGo [Fintype T] (hT : Fintype.card T < 2 ^ 32) {k : BitVec 32}
    (h : Inv s done queue) (ht : s.pc t = .wait k)
    (hnext : (if s.mem.owner = k then (s.mem.enter t, Pc.held) else (s.mem, .wait k)) = (m, p)) :
    Inv ⟨m, Function.update s.pc t p⟩ done queue := by
  split at hnext
  next howner =>
    obtain ⟨rfl, rfl⟩ := Prod.mk.inj hnext
    exact h.enter ht (h.head_of_wait hT ht howner)
  next =>
    obtain ⟨rfl, rfl⟩ := Prod.mk.inj hnext
    rw [← ht, Function.update_eq_self]
    exact h

/-- The owner reads `owner` for its `unlock`. -/
theorem Inv.heldGo (h : Inv s done queue) (ht : s.pc t = .held) :
    Inv ⟨s.mem, Function.update s.pc t (.unlockStore s.mem.owner)⟩ done queue := by
  refine h.stay (by rw [ht]; rfl) (by rw [ht]; rfl) (fun k hk => ?_) (fun c hc => ?_)
    (fun o r hs => ?_) (fun o n r he => ?_)
  · cases hk
  · exact (Pc.unlockStore.inj hc).symm
  · cases hs
  · cases he

/-- `try_lock` loads `owner`. -/
theorem Inv.tryOwnerGo (h : Inv s done queue) (ht : s.pc t = .tryOwner) :
    Inv ⟨s.mem, Function.update s.pc t (.tryNext s.mem.owner s.mem.served)⟩ done queue := by
  refine h.stay (by rw [ht]; rfl) (by rw [ht]; rfl) (fun k hk => ?_) (fun c hc => ?_)
    (fun o r hs => ?_) (fun o n r he => ?_)
  · cases hk
  · cases hc
  · obtain ⟨rfl, rfl⟩ := Prod.mk.inj (Option.some.inj hs)
    exact ⟨by rw [h.owner, h.served], h.served.le⟩
  · cases he

/-- `try_lock` loads `next` and compares. -/
theorem Inv.tryNextGo {o : BitVec 32} {r : Nat} (h : Inv s done queue)
    (ht : s.pc t = .tryNext o r) :
    Inv ⟨s.mem, Function.update s.pc t
      (if s.mem.next ≠ o then .returnedFalse else .tryExchange o s.mem.next r)⟩ done queue := by
  split
  next => exact h.outside (by rw [ht]; rfl) (.inr (.inr rfl))
  next heq =>
    refine h.stay (by rw [ht]; rfl) (by rw [ht]; rfl) (fun k hk => ?_) (fun c hc => ?_)
      (fun o' r' hs => (h.threads t).seen o' r' ?_) (fun o' n' r' he => ?_)
    · cases hk
    · cases hc
    · rw [ht]
      exact hs
    · obtain ⟨rfl, rfl, -⟩ := Pc.tryExchange.inj he
      exact not_not.mp heq

/-- `try_lock` exchanges `next`: it enters with a fresh ticket or leaves. -/
theorem Inv.exchangeGo {o n : BitVec 32} {r : Nat} (h : Inv s done queue)
    (ht : s.pc t = .tryExchange o n r) (hfresh : s.mem.draws.length < r + 2 ^ 32)
    (hnext : (if s.mem.next = n then ((s.mem.take t (o + 1)).enter t, Pc.held)
      else (s.mem, .returnedFalse)) = (m, p)) :
    ∃ queue', Inv ⟨m, Function.update s.pc t p⟩ done queue' := by
  split at hnext
  next hn =>
    obtain ⟨rfl, rfl⟩ := Prod.mk.inj hnext
    obtain ⟨hempty, ho⟩ := h.empty_of_fresh ht hn hfresh
    have hin := h.exchange (t := t) hempty (by rw [ht]; rfl)
    rw [ho] at hin
    exact ⟨_, hin⟩
  next =>
    obtain ⟨rfl, rfl⟩ := Prod.mk.inj hnext
    exact ⟨_, h.outside (by rw [ht]; rfl) (.inr (.inr rfl))⟩

/-- **A step whose exchange, if it makes one, is fresh keeps the invariant.** -/
theorem Inv.step [Fintype T] (hT : Fintype.card T < 2 ^ 32) {s' : ScState T (Mem T) Pc}
    {a : T × Choice} (h : Inv s done queue) (hfresh : Fresh s a)
    (hstep : (machine T).step s a = some s') : ∃ done' queue', Inv s' done' queue' := by
  obtain ⟨m, p, hnext, rfl⟩ := interleave_step_cases hstep
  obtain ⟨t, c⟩ := a
  clear hstep
  cases hpc : s.pc t
  case idle => exact ⟨_, _, h.call (by rw [hpc]; rfl) (by rwa [hpc] at hnext)⟩
  case returnedFalse => exact ⟨_, _, h.call (by rw [hpc]; rfl) (by rwa [hpc] at hnext)⟩
  all_goals
    rw [hpc] at hnext
    cases c <;> first | replace hnext := Option.some.inj hnext | cases hnext
  case wait.go k => exact ⟨_, _, h.waitGo hT hpc hnext⟩
  case tryExchange.go o n r => exact ⟨_, h.exchangeGo hpc (hfresh o n r hpc) hnext⟩
  all_goals obtain ⟨rfl, rfl⟩ := Prod.mk.inj hnext
  case draw.go => exact ⟨_, _, h.draw (by rw [hpc]; rfl)⟩
  case held.go => exact ⟨_, _, h.heldGo hpc⟩
  case unlockStore.go k =>
    obtain ⟨queue', -, hleave⟩ := h.leave hpc
    exact ⟨_, _, hleave⟩
  case tryOwner.go => exact ⟨_, _, h.tryOwnerGo hpc⟩
  case tryNext.go o r => exact ⟨_, _, h.tryNextGo hpc⟩

end

/-- **In every run whose exchanges are fresh the words count the tickets.** -/
theorem inv_of_reachable [Fintype T] (hT : Fintype.card T < 2 ^ 32) {s : ScState T (Mem T) Pc}
    (h : (machine T).ReachableUnder Fresh s) : ∃ done queue, Inv s done queue :=
  h.invariant (I := fun s => ∃ done queue, Inv s done queue) ⟨[], [], inv_init⟩
    fun _ _ _ ⟨_, _, hinv⟩ hfresh hstep => hinv.step hT hfresh hstep

/-- **No two threads are between a successful `lock` or `try_lock` and their `unlock`**, in
every run in which each `try_lock` makes its compare-exchange before `2 ^ 32` tickets have
been drawn beyond those served when it loaded `owner`. -/
theorem mutex_of_fresh [Fintype T] (hT : Fintype.card T < 2 ^ 32) {s : ScState T (Mem T) Pc}
    (h : (machine T).ReachableUnder Fresh s) {t u : T} (ht : (s.pc t).inside = true)
    (hu : (s.pc u).inside = true) : t = u := by
  obtain ⟨done, queue, hinv⟩ := inv_of_reachable hT h
  exact hinv.unique ht hu

/-- Two threads take the free lock in turn, the second by `try_lock`. -/
theorem mutex_of_fresh_tryRun :
    ∃ s : ScState (Fin 2) (Mem (Fin 2)) Pc, (machine (Fin 2)).ReachableUnder Fresh s ∧
      (s.pc 1).inside = true ∧ ∀ u, (s.pc u).inside = true → 1 = u := by
  have hok : ∀ (s : ScState (Fin 2) (Mem (Fin 2)) Pc) a,
      decide (s.mem.draws.length < 2 ^ 32) = true → Fresh s a := by
    intro s a hlen o n r _
    have := of_decide_eq_true hlen
    omega
  have hrun : ∃ s, (machine (Fin 2)).runChecked (fun s _ => decide (s.mem.draws.length < 2 ^ 32))
      (machine (Fin 2)).init [(0, .lock), (0, .go), (0, .go), (0, .go), (0, .go), (1, .tryLock),
        (1, .go), (1, .go), (1, .go)] = some s ∧ (s.pc 1).inside = true := ⟨_, rfl, rfl⟩
  obtain ⟨s, hs, hin⟩ := hrun
  have hreach := Machine.reachableUnder_of_runChecked hok hs
  exact ⟨s, hreach, hin, fun u hu => mutex_of_fresh (by decide) hreach hin hu⟩

/-! ## A `try_lock` that sleeps while the counter goes round -/

section Wrap

variable {s : ScState T (Mem T) Pc} {t : T}

/-- What a run of one thread leaves as it was. -/
def Others (t : T) (s s' : ScState T (Mem T) Pc) : Prop :=
  ∀ u, u ≠ t → s'.pc u = s.pc u

/-- One more step of a thread at `p`. -/
theorem step_to (hs : (machine T).Reachable s) {c : Choice} {m : Mem T} {p : Pc}
    (hnext : TicketLock.next t s.mem (s.pc t) c = some (m, p)) :
    ∃ s', (machine T).Reachable s' ∧ s'.mem = m ∧ s'.pc t = p ∧ Others t s s' := by
  refine ⟨⟨m, Function.update s.pc t p⟩, .step hs trivial (a := (t, c)) ?_, rfl,
    Function.update_self t p s.pc, fun u hu => Function.update_of_ne hu _ _⟩
  change Option.map _ _ = _
  rw [hnext]
  rfl

/-- A thread takes the free lock. -/
theorem lock_run (hs : (machine T).Reachable s) (ht : s.pc t = .idle)
    (hfree : s.mem.owner = s.mem.next) :
    ∃ s', (machine T).Reachable s' ∧ s'.pc t = .held ∧ s'.mem.next = s.mem.next + 1 ∧
      s'.mem.owner = s.mem.owner ∧ Others t s s' := by
  obtain ⟨s₁, h₁, hm₁, hp₁, ho₁⟩ := step_to hs (c := .lock) (m := s.mem) (p := .draw)
    (by rw [ht]; rfl)
  obtain ⟨s₂, h₂, hm₂, hp₂, ho₂⟩ := step_to h₁ (c := .go) (m := s₁.mem.take t (s₁.mem.next + 1))
    (p := .wait s₁.mem.next) (by rw [hp₁]; rfl)
  have howner : s₂.mem.owner = s₁.mem.next := by rw [hm₂, hm₁]; exact hfree
  obtain ⟨s₃, h₃, hm₃, hp₃, ho₃⟩ := step_to h₂ (c := .go) (m := s₂.mem.enter t) (p := .held)
    (by rw [hp₂]; exact congrArg some (if_pos howner))
  refine ⟨s₃, h₃, hp₃, ?_, ?_, fun u hu => ?_⟩
  · rw [hm₃, hm₂, hm₁]
    rfl
  · rw [hm₃, hm₂, hm₁]
    rfl
  · rw [ho₃ u hu, ho₂ u hu, ho₁ u hu]

/-- The thread inside leaves. -/
theorem unlock_run (hs : (machine T).Reachable s) (ht : s.pc t = .held) :
    ∃ s', (machine T).Reachable s' ∧ s'.pc t = .idle ∧ s'.mem.next = s.mem.next ∧
      s'.mem.owner = s.mem.owner + 1 ∧ Others t s s' := by
  obtain ⟨s₁, h₁, hm₁, hp₁, ho₁⟩ := step_to hs (c := .go) (m := s.mem)
    (p := .unlockStore s.mem.owner) (by rw [ht]; rfl)
  obtain ⟨s₂, h₂, hm₂, hp₂, ho₂⟩ := step_to h₁ (c := .go) (m := s₁.mem.leave s.mem.owner)
    (p := .idle) (by rw [hp₁]; rfl)
  refine ⟨s₂, h₂, hp₂, ?_, ?_, fun u hu => ?_⟩
  · rw [hm₂, hm₁]
    rfl
  · rw [hm₂]
    rfl
  · rw [ho₂ u hu, ho₁ u hu]

/-- A thread takes and leaves the free lock `n` times, and both words go `n` on. -/
theorem cycles_run (hs : (machine T).Reachable s) (ht : s.pc t = .idle)
    (hfree : s.mem.owner = s.mem.next) (n : Nat) :
    ∃ s', (machine T).Reachable s' ∧ s'.pc t = .idle ∧
      s'.mem.next = s.mem.next + BitVec.ofNat 32 n ∧ s'.mem.owner = s'.mem.next ∧
      Others t s s' := by
  induction n with
  | zero => exact ⟨s, hs, ht, by simp, hfree, fun _ _ => rfl⟩
  | succ n ih =>
      obtain ⟨s₁, h₁, hp₁, hn₁, hf₁, ho₁⟩ := ih
      obtain ⟨s₂, h₂, hp₂, hn₂, hf₂, ho₂⟩ := lock_run h₁ hp₁ hf₁
      obtain ⟨s₃, h₃, hp₃, hn₃, hf₃, ho₃⟩ := unlock_run h₂ hp₂
      refine ⟨s₃, h₃, hp₃, ?_, ?_, fun u hu => ?_⟩
      · rw [hn₃, hn₂, hn₁, BitVec.ofNat_add, BitVec.add_assoc]
        rfl
      · rw [hf₃, hf₂, hf₁, hn₃, hn₂]
      · rw [ho₃ u hu, ho₂ u hu, ho₁ u hu]

end Wrap

/-- Thread 0 finds the lock free in `try_lock` and sleeps before its compare-exchange.
Thread 1 takes and leaves the lock `2 ^ 32 - 1` times and takes it once more, which brings
`next` back to the value thread 0 compares with. -/
theorem try_lock_wrap :
    ∃ s : ScState (Fin 2) (Mem (Fin 2)) Pc, (machine (Fin 2)).Reachable s ∧
      (s.pc 0).inside = true ∧ (s.pc 1).inside = true := by
  have hstart : ∃ s, (machine (Fin 2)).run [(0, .tryLock), (0, .go), (0, .go)] = some s ∧
      s.pc 0 = .tryExchange 0 0 0 ∧ s.pc 1 = .idle ∧ s.mem.next = 0 ∧ s.mem.owner = 0 :=
    ⟨_, rfl, rfl, rfl, rfl, rfl⟩
  obtain ⟨s, hrun, htry, hidle, hnext, howner⟩ := hstart
  obtain ⟨s₁, h₁, hp₁, hn₁, hf₁, ho₁⟩ := cycles_run (Machine.reachable_of_run hrun) hidle
    (howner.trans hnext.symm) (2 ^ 32 - 1)
  obtain ⟨s₂, h₂, hp₂, hn₂, -, ho₂⟩ := lock_run h₁ hp₁ hf₁
  have hback : s₂.mem.next = 0 := by
    rw [hn₂, hn₁, hnext]
    decide
  have hzero : s₂.pc 0 = .tryExchange 0 0 0 := by
    rw [ho₂ 0 (by decide), ho₁ 0 (by decide), htry]
  obtain ⟨s₃, h₃, -, hp₃, ho₃⟩ := step_to h₂ (t := 0) (c := .go)
    (m := (s₂.mem.take 0 (0 + 1)).enter 0) (p := .held)
    (by rw [hzero]; exact congrArg some (if_pos hback))
  refine ⟨s₃, h₃, ?_, ?_⟩
  · rw [hp₃]
    rfl
  · rw [ho₃ 1 (by decide), hp₂]
    rfl

/-! ## The blocking interface -/

/-- No thread calls `try_lock`. -/
def Blocking (_ : ScState T (Mem T) Pc) (a : T × Choice) : Prop :=
  a.2 ≠ .tryLock

/-- The points of `try_lock`. -/
def Pc.trying : Pc → Bool
  | .tryOwner | .tryNext _ _ | .tryExchange _ _ _ => true
  | _ => false

omit [DecidableEq T] in
/-- Where nobody tries and nobody starts to, nobody tries. -/
theorem next_trying {t : T} {m m' : Mem T} {p p' : Pc} {c : Choice} (hp : p.trying = false)
    (hc : c ≠ .tryLock) (h : TicketLock.next t m p c = some (m', p')) : p'.trying = false := by
  have hcall : (call c).map (m, ·) = some (m', p') → p'.trying = false := by
    intro h
    obtain ⟨q, hq, heq⟩ := Option.map_eq_some_iff.mp h
    obtain ⟨-, rfl⟩ := Prod.mk.inj heq
    rcases call_cases hq with rfl | ⟨htry, -⟩
    · rfl
    · exact absurd htry hc
  cases p
  case idle => exact hcall h
  case returnedFalse => exact hcall h
  all_goals cases c <;> first | replace h := Option.some.inj h | cases h
  case wait.go k => split at h <;> obtain ⟨-, rfl⟩ := Prod.mk.inj h <;> rfl
  case tryExchange.go => cases hp
  all_goals obtain ⟨-, rfl⟩ := Prod.mk.inj h
  case tryNext.go => cases hp
  case tryOwner.go => cases hp
  all_goals rfl

/-- Without `try_lock` calls nobody tries. -/
theorem not_trying_of_reachable {s : ScState T (Mem T) Pc}
    (h : (machine T).ReachableUnder Blocking s) : ∀ t, (s.pc t).trying = false := by
  refine h.invariant (I := fun s => ∀ t, (s.pc t).trying = false) (fun _ => rfl) ?_
  intro s a s' hs hb hstep
  obtain ⟨m, p, hnext, rfl⟩ := interleave_step_cases hstep
  exact (Function.forall_update_iff s.pc (fun _ q => q.trying = false)).mpr
    ⟨next_trying (hs a.1) hb hnext, fun u _ => hs u⟩

/-- Without `try_lock` every step is fresh. -/
theorem fresh_of_blocking {s : ScState T (Mem T) Pc}
    (h : (machine T).ReachableUnder Blocking s) : (machine T).ReachableUnder Fresh s := by
  induction h with
  | init => exact .init
  | @step s _ a hreach _ hstep ih =>
      refine .step ih (fun o n r hpc => ?_) hstep
      have htry := not_trying_of_reachable hreach a.1
      rw [hpc] at htry
      cases htry

omit [DecidableEq T] in
/-- The threads that are inside or were are the first that drew. -/
theorem Inv.enters_prefix {s : ScState T (Mem T) Pc} {done queue : List T}
    (h : Inv s done queue) : s.mem.enters <+: s.mem.draws := by
  rw [h.draws]
  by_cases hin : ∃ t, (s.pc t).inside = true
  · obtain ⟨t, ht⟩ := hin
    obtain ⟨hhead, henters⟩ := (h.threads t).inside ht
    cases queue with
    | nil => cases hhead
    | cons u q =>
        rw [henters, Option.some.inj hhead]
        exact ⟨q, by simp⟩
  · have hno : ∀ t, (s.pc t).inside = false := fun t => by
      by_contra ht
      exact hin ⟨t, by simpa using ht⟩
    rw [h.free hno]
    exact List.prefix_append _ _

/-- The two words are as far apart as there are threads with a ticket. -/
theorem Inv.distance [Fintype T] (hT : Fintype.card T < 2 ^ 32) {s : ScState T (Mem T) Pc}
    {done queue : List T} (h : Inv s done queue) :
    (s.mem.next - s.mem.owner).toNat = (Finset.univ.filter fun t => (s.pc t).engaged = true).card := by
  have hset : (Finset.univ.filter fun t => (s.pc t).engaged = true) = queue.toFinset := by
    ext t
    simp [(h.threads t).engaged]
  have hlen : queue.length ≤ Fintype.card T := h.nodup.length_le_card
  have hdiff : s.mem.next - s.mem.owner = BitVec.ofNat 32 queue.length := by
    rw [h.next, h.owner, h.draws, List.length_append, BitVec.ofNat_add]
    exact add_sub_cancel_left _ _
  rw [hset, List.toFinset_card_of_nodup h.nodup, hdiff, BitVec.toNat_ofNat]
  exact Nat.mod_eq_of_lt (by omega)

/-- **First come, first served, however often the counters wrap.**  At most one thread is
between the return of `lock` and the store of `unlock`, the k-th thread to enter is the
k-th to draw, and the distance of the two words is the number of threads with a ticket. -/
theorem blocking_fifo [Fintype T] (hT : Fintype.card T < 2 ^ 32) {s : ScState T (Mem T) Pc}
    (h : (machine T).ReachableUnder Blocking s) :
    (∀ t u, (s.pc t).inside = true → (s.pc u).inside = true → t = u) ∧
    (∀ (k : Nat) t, s.mem.enters[k]? = some t → s.mem.draws[k]? = some t) ∧
    (s.mem.next - s.mem.owner).toNat =
      (Finset.univ.filter fun t => (s.pc t).engaged = true).card := by
  obtain ⟨done, queue, hinv⟩ := inv_of_reachable hT (fresh_of_blocking h)
  refine ⟨fun t u => hinv.unique, fun k t hk => ?_, hinv.distance hT⟩
  obtain ⟨rest, hrest⟩ := hinv.enters_prefix
  rw [← hrest, List.getElem?_append_left (List.getElem?_eq_some_iff.mp hk).1, hk]

/-- Thread 1 draws second and enters second. -/
theorem blocking_fifo_twoRun :
    ∃ s : ScState (Fin 2) (Mem (Fin 2)) Pc, (machine (Fin 2)).ReachableUnder Blocking s ∧
      s.mem.enters[1]? = some 1 ∧ s.mem.draws[1]? = some 1 := by
  have hrun : ∃ s, (machine (Fin 2)).runChecked (fun _ a => decide (a.2 ≠ .tryLock))
      (machine (Fin 2)).init [(0, .lock), (1, .lock), (0, .go), (1, .go), (0, .go), (0, .go),
        (0, .go), (1, .go)] = some s ∧ s.mem.enters[1]? = some 1 := ⟨_, rfl, rfl⟩
  obtain ⟨s, hs, hin⟩ := hrun
  have hreach := Machine.reachableUnder_of_runChecked (C := Blocking)
    (fun _ a h => of_decide_eq_true (p := a.2 ≠ .tryLock) h) hs
  exact ⟨s, hreach, hin, (blocking_fifo (by decide) hreach).2.1 1 1 hin⟩

end Invariant

end TicketLock
