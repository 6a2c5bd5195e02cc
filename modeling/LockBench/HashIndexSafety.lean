import LockBench.HashIndex
import LockBench.LinkedChain

/-!
# Reclamation in the hash index

A node of an overflow chain is deleted by `remove` as soon as it is unlinked,
while an optimistic reader may still stand on it: the version check comes only
after the walk.  The invariant below carries the shape of the heap (every chain a
list of live nodes, chains disjoint, nodes between unlinking and deletion or
between allocation and linking owned by one writer) through every step, and with
it what an optimistic reader may rely on: the node it stands on is in the chain
of its bucket, or owned by the writer that is inside this bucket.

Two conditions on steps are used.  `DeleteClear` says that no `delete` of a
`remove` comes while an optimistic reader of the same bucket is between its
`read_begin` and its `read_validate`, and `NoWrap` that fewer than `2^63` write
sections pass between the two.  Under them every dereference is of a live node
and every result is the lookup of the key at the instant of the validation.  The
schedule that shows what happens without the first is at the end.
-/

namespace HashIndex

open LinkedChain (Linked)

/-! ## What each program point stands for -/

/-- The node a walk of `find_in_bucket` is about to read. -/
def Find.cursor : Find → Option Addr
  | .nodeKey c | .nodeVal c | .nodeNext c => some c
  | _ => none

/-- The node an optimistic reader is about to read. -/
def Pc.cursor : Pc → Option Addr
  | .readFind _ _ f => f.cursor
  | _ => none

/-- The bucket of an optimistic reader's walk, and the node it is about to read. -/
def Pc.walking (mask : Word) : Pc → Option (Word × Addr)
  | .readFind k _ f => f.cursor.map fun c => (bucketFor mask k, c)
  | _ => none

/-- The bucket whose lock the thread holds. -/
def Pc.section (mask : Word) : Pc → Option Word
  | .getFind k _ | .putIn k _ _ | .removeIn k _ => some (bucketFor mask k)
  | .unlock c _ => some (bucketFor mask c.key)
  | _ => none

/-- The node that a writer owns outside all chains: allocated and not yet linked,
or unlinked and not yet deleted. -/
def Pc.pending : Pc → Option Addr
  | .putIn _ _ (.link a) => some a
  | .removeIn _ (.delete v) => some v
  | _ => none

/-- Where `pp` may point in a bucket with chain `l`. -/
def linkOk (l : List Addr) : Link → Prop
  | .head => True
  | .next c => c ∈ l

/-- What a `put` that holds the lock of bucket `b` with chain `l` knows. -/
def upsertOk (m : Mem) (b : Word) (l : List Addr) : Upsert → Prop
  | .nodeKey c | .storeNodeVal c | .nodeNext c => c ∈ l
  | .new head => head = (m.bucket b).chain
  | .link a => (m.node a).next = (m.bucket b).chain
  | _ => True

/-- What a `remove` that holds the lock of bucket `b` with chain `l` knows. -/
def removeOk (m : Mem) (b : Word) (l : List Addr) : Remove → Prop
  | .test pp | .load pp | .victim pp | .advance pp => linkOk l pp
  | .nodeKey pp c => linkOk l pp ∧ m.loadLink b pp = some c
  | .victimNext pp v => linkOk l pp ∧ m.loadLink b pp = some v
  | .unlink pp v next => linkOk l pp ∧ m.loadLink b pp = some v ∧ (m.node v).next = next
  | .delete v => ∀ d, (m.node v).next = some d → d ∈ l
  | _ => True

/-- What the holder of the lock of bucket `b` with chain `l` knows. -/
def ownOk (m : Mem) (b : Word) (l : List Addr) : Pc → Prop
  | .getFind _ f => ∀ c, f.cursor = some c → c ∈ l
  | .putIn _ _ u => upsertOk m b l u
  | .removeIn _ r => removeOk m b l r
  | _ => True

/-- What a thread without a lock knows.  As long as the version has not moved, the
walk of an optimistic reader so far is a walk on the present memory; a writer expects
an even version in its compare-exchange. -/
def unlockedOk (mask : Word) (m : Mem) (L : Word → List Addr) : Pc → Prop
  | .readFind k start f =>
      let b := bucketFor mask k
      start % 2 = 0 ∧ start ≤ (m.bucket b).version ∧
        ((m.bucket b).version = start → (∀ c, f.cursor = some c → c ∈ L b) ∧
          ∀ r, FindsFrom m b k f r → Lookup mask m k r)
  | .readValidate k start r =>
      let b := bucketFor mask k
      start % 2 = 0 ∧ start ≤ (m.bucket b).version ∧
        ((m.bucket b).version = start → Lookup mask m k r)
  | .lockCas _ expected => expected % 2 = 0
  | _ => True

section Invariant

variable {T : Type} [DecidableEq T] {slots : Nat} {mask : Word}

/-- The inductive invariant, for the chains `L` of the buckets. -/
structure Inv (mask : Word) (L : Word → List Addr) (s : ScState T Mem Pc) : Prop where
  chain : ∀ b, Linked (fun a => (s.mem.node a).next) (s.mem.bucket b).chain (L b)
  disjoint : ∀ b b' a, a ∈ L b → a ∈ L b' → b = b'
  live : ∀ b a, a ∈ L b → s.mem.live a = true
  pending : ∀ t a, (s.pc t).pending = some a → s.mem.live a = true ∧ ∀ b, a ∉ L b
  unique : ∀ t u a, (s.pc t).pending = some a → (s.pc u).pending = some a → t = u
  lock : ∀ t u b, (s.pc t).section mask = some b → (s.pc u).section mask = some b → t = u
  held : ∀ t b, (s.pc t).section mask = some b → (s.mem.bucket b).version % 2 = 1
  own : ∀ t b, (s.pc t).section mask = some b → ownOk s.mem b (L b) (s.pc t)
  reader : ∀ t, unlockedOk mask s.mem L (s.pc t)
  walk : ∀ t b c, (s.pc t).walking mask = some (b, c) →
    c ∈ L b ∨ ∃ u, (s.pc u).pending = some c ∧ (s.pc u).section mask = some b

/-- A step of `find_in_bucket` along a chain stays on it. -/
theorem findStep_cursor {m : Mem} {b k : Word} {l : List Addr}
    (hchain : Linked (fun a => (m.node a).next) (m.bucket b).chain l) {f f' : Find}
    (hf : ∀ c, f.cursor = some c → c ∈ l) (hstep : findStep m b k f = .inl f') :
    ∀ c, f'.cursor = some c → c ∈ l := by
  have hnode : ∀ x : Option Addr, (∀ c, x = some c → c ∈ l) → findNode x = .inl f' →
      ∀ c, f'.cursor = some c → c ∈ l := by
    intro x hx hnext c hc
    cases x with
    | none => cases hnext
    | some d =>
        obtain rfl := Sum.inl.inj hnext
        exact hx c (by simpa [Find.cursor] using hc)
  cases f with
  | count i =>
      obtain rfl := Sum.inl.inj hstep
      intro c hc
      split at hc <;> cases hc
  | key i =>
      obtain rfl := Sum.inl.inj hstep
      intro c hc
      split at hc <;> cases hc
  | val i => cases hstep
  | chain =>
      refine hnode _ (fun c hc => ?_) hstep
      rw [hc] at hchain
      exact hchain.head_mem
  | nodeKey d =>
      obtain rfl := Sum.inl.inj hstep
      intro c hc
      have hcd : d = c := by split at hc <;> simpa [Find.cursor] using hc
      exact hf c (by simp [Find.cursor, hcd])
  | nodeVal d => cases hstep
  | nodeNext d => exact hnode _ (fun c hc => hchain.next_mem (hf d rfl) hc) hstep

/-- A step of `find_in_bucket` on a chain sees that bucket and that chain only. -/
theorem findStep_congr {m m' : Mem} {b k : Word} {l : List Addr}
    (hbucket : m'.bucket b = m.bucket b) (hnode : ∀ a ∈ l, m'.node a = m.node a) {f : Find}
    (hf : ∀ c, f.cursor = some c → c ∈ l) : findStep m' b k f = findStep m b k f := by
  cases f with
  | nodeKey d | nodeVal d | nodeNext d => simp only [findStep, hnode d (hf d rfl)]
  | _ => simp only [findStep, hbucket]

/-- Writers elsewhere do not change what a walk on the chain finds. -/
theorem FindsFrom.congr {m m' : Mem} {b k : Word} {l : List Addr}
    (hchain : Linked (fun a => (m.node a).next) (m.bucket b).chain l)
    (hbucket : m'.bucket b = m.bucket b) (hnode : ∀ a ∈ l, m'.node a = m.node a)
    {f : Find} {r : Option Word} (hf : ∀ c, f.cursor = some c → c ∈ l)
    (h : FindsFrom m b k f r) : FindsFrom m' b k f r := by
  induction h with
  | done h => exact .done (by rw [findStep_congr hbucket hnode hf, h])
  | more h _ ih =>
      exact .more (by rw [findStep_congr hbucket hnode hf, h]) (ih (findStep_cursor hchain hf h))

/-- What a reader knows survives steps that leave the bucket and its chain alone,
or that are made under an odd version. -/
theorem unlockedOk.frame {m m' : Mem} {L L' : Word → List Addr} {p : Pc}
    (h : unlockedOk mask m L p)
    (hchain : ∀ b, Linked (fun a => (m.node a).next) (m.bucket b).chain (L b))
    (hver : ∀ b, (m.bucket b).version ≤ (m'.bucket b).version)
    (hsame : ∀ b, (m'.bucket b).version % 2 = 0 → (m'.bucket b).version = (m.bucket b).version →
      m'.bucket b = m.bucket b ∧ L' b = L b ∧ ∀ a ∈ L b, m'.node a = m.node a) :
    unlockedOk mask m' L' p := by
  unfold unlockedOk at h ⊢
  split at h
  · rename_i k start f
    obtain ⟨heven, hle, hwalk⟩ := h
    refine ⟨heven, le_trans hle (hver _), fun hv => ?_⟩
    have hv0 : (m.bucket (bucketFor mask k)).version = start :=
      le_antisymm (hv ▸ hver _) hle
    obtain ⟨hb, hl, hnode⟩ := hsame (bucketFor mask k) (by omega) (by omega)
    obtain ⟨hcur, hfind⟩ := hwalk hv0
    rw [hl]
    refine ⟨hcur, fun r hr => ?_⟩
    have hchain' : Linked (fun a => (m'.node a).next) (m'.bucket (bucketFor mask k)).chain
        (L (bucketFor mask k)) := by
      rw [hb]
      exact (hchain _).congr fun a ha => by rw [hnode a ha]
    have hr' := hr.congr hchain' hb.symm (fun a ha => (hnode a ha).symm) hcur
    exact (hfind r hr').congr (hchain _) hb hnode (by simp [Find.cursor])
  · rename_i k start r
    obtain ⟨heven, hle, hres⟩ := h
    refine ⟨heven, le_trans hle (hver _), fun hv => ?_⟩
    have hv0 : (m.bucket (bucketFor mask k)).version = start :=
      le_antisymm (hv ▸ hver _) hle
    obtain ⟨hb, -, hnode⟩ := hsame (bucketFor mask k) (by omega) (by omega)
    exact (hres hv0).congr (hchain _) hb hnode (by simp [Find.cursor])
  · exact h
  · trivial

theorem loadLink_mem {m : Mem} {b : Word} {l : List Addr} {pp : Link} {c : Addr}
    (hchain : Linked (fun a => (m.node a).next) (m.bucket b).chain l) (hpp : linkOk l pp)
    (hc : m.loadLink b pp = some c) : c ∈ l := by
  cases pp with
  | head =>
      rw [show (m.bucket b).chain = some c from hc] at hchain
      exact hchain.head_mem
  | next d => exact hchain.next_mem hpp hc

theorem loadLink_congr {m m' : Mem} {b : Word} {l : List Addr} {pp : Link}
    (hbucket : m'.bucket b = m.bucket b) (hnode : ∀ a ∈ l, m'.node a = m.node a)
    (hpp : linkOk l pp) : m'.loadLink b pp = m.loadLink b pp := by
  cases pp with
  | head => simp only [Mem.loadLink, hbucket]
  | next d => simp only [Mem.loadLink, hnode d hpp]

/-- What the holder of a lock knows survives steps that leave its bucket, the
bucket's chain and its own pending node alone. -/
theorem ownOk.frame {m m' : Mem} {b : Word} {l : List Addr} {p : Pc} (h : ownOk m b l p)
    (hchain : Linked (fun a => (m.node a).next) (m.bucket b).chain l)
    (hbucket : m'.bucket b = m.bucket b) (hnode : ∀ a ∈ l, m'.node a = m.node a)
    (hpending : ∀ a, p.pending = some a → m'.node a = m.node a) : ownOk m' b l p := by
  cases p with
  | getFind k f => exact h
  | putIn k v u =>
      cases u with
      | new head => exact Eq.trans h (by rw [hbucket])
      | link a =>
          have ha := hpending a rfl
          simp only [ownOk, upsertOk, ha, hbucket] at h ⊢
          exact h
      | _ => exact h
  | removeIn k r =>
      cases r with
      | nodeKey pp c | victimNext pp v =>
          exact ⟨h.1, (loadLink_congr hbucket hnode h.1).trans h.2⟩
      | unlink pp v next =>
          obtain ⟨hpp, hload, hnext⟩ := h
          refine ⟨hpp, (loadLink_congr hbucket hnode hpp).trans hload, ?_⟩
          rw [hnode v (loadLink_mem hchain hpp hload), hnext]
      | delete v =>
          have hv := hpending v rfl
          simp only [ownOk, removeOk, hv] at h ⊢
          exact h
      | _ => exact h
  | _ => trivial

/-! ## The holder of a lock moves -/

/-- A move of `t`, the holder of the lock of bucket `b`: only this bucket, its chain and the node
that `t` owns change; the chain after the move is `l`. -/
structure Moves (mask : Word) (L : Word → List Addr) (s : ScState T Mem Pc) (t : T) (b : Word)
    (m : Mem) (p : Pc) (l : List Addr) : Prop where
  inside : (s.pc t).section mask = some b
  stays : p.section mask = some b
  bucket : ∀ b', b' ≠ b → m.bucket b' = s.mem.bucket b'
  version : (m.bucket b).version = (s.mem.bucket b).version
  node : ∀ a, s.mem.live a = true → a ∉ L b → (s.pc t).pending ≠ some a →
    m.node a = s.mem.node a
  live : ∀ a, s.mem.live a = true → (s.pc t).pending ≠ some a → m.live a = true
  chain : Linked (fun a => (m.node a).next) (m.bucket b).chain l
  mem : ∀ a ∈ l, (a ∈ L b ∨ (s.pc t).pending = some a) ∧ m.live a = true
  walk : ∀ u a, (s.pc u).walking mask = some (b, a) → a ∈ L b ∨ (s.pc t).pending = some a →
    a ∈ l ∨ p.pending = some a
  pending : ∀ a, p.pending = some a → m.live a = true ∧ a ∉ l ∧
    (a ∈ L b ∨ (s.pc t).pending = some a ∨ s.mem.live a = false)
  own : ownOk m b l p

namespace Moves

variable {L : Word → List Addr} {s : ScState T Mem Pc} {t u : T} {b b' : Word} {m : Mem} {p : Pc}
  {l : List Addr} {a : Addr}

section Elsewhere

omit [DecidableEq T]

/-- Nodes of other chains are none of the mover's business. -/
theorem far (h : Inv mask L s) (hb' : b' ≠ b) (ha : a ∈ L b') :
    a ∉ L b ∧ (s.pc t).pending ≠ some a :=
  ⟨fun ha' => hb' (h.disjoint _ _ _ ha ha'), fun ht => (h.pending t a ht).2 b' ha⟩

/-- They stay as they are. -/
theorem node_far (hm : Moves mask L s t b m p l) (h : Inv mask L s) (hb' : b' ≠ b)
    (ha : a ∈ L b') : m.node a = s.mem.node a := by
  obtain ⟨h1, h2⟩ := far (t := t) h hb' ha
  exact hm.node a (h.live b' a ha) h1 h2

/-- So do the nodes of other writers. -/
theorem pending_far (hm : Moves mask L s t b m p l) (h : Inv mask L s) (hu : u ≠ t)
    (ha : (s.pc u).pending = some a) :
    m.node a = s.mem.node a ∧ m.live a = true ∧ a ∉ l ∧ p.pending ≠ some a := by
  obtain ⟨hal, hout⟩ := h.pending u a ha
  have hne : (s.pc t).pending ≠ some a := fun ht => hu (h.unique u t a ha ht)
  refine ⟨hm.node a hal (hout b) hne, hm.live a hal hne, fun hl => ?_, fun hp => ?_⟩
  · rcases (hm.mem a hl).1 with h1 | h1
    · exact hout b h1
    · exact hne h1
  · rcases (hm.pending a hp).2.2 with h1 | h1 | h1
    · exact hout b h1
    · exact hne h1
    · simp [hal] at h1

/-- The node that the mover owns afterwards is in no chain. -/
theorem pending_self (hm : Moves mask L s t b m p l) (h : Inv mask L s)
    (ha : p.pending = some a) (b' : Word) : a ∉ Function.update L b l b' := by
  obtain ⟨-, hout, hfrom⟩ := hm.pending a ha
  by_cases hb' : b' = b
  · subst hb'
    simpa using hout
  · intro hmem
    have hmem' : a ∈ L b' := by simpa [hb'] using hmem
    obtain ⟨h1, h2⟩ := far (t := t) h hb' hmem'
    rcases hfrom with h3 | h3 | h3
    · exact h1 h3
    · exact h2 h3
    · simp [h.live b' a hmem'] at h3

/-- The chains stay chains. -/
theorem chains (hm : Moves mask L s t b m p l) (h : Inv mask L s) (b' : Word) :
    Linked (fun a => (m.node a).next) (m.bucket b').chain (Function.update L b l b') := by
  by_cases hb' : b' = b
  · subst hb'
    simpa using hm.chain
  · simp only [Function.update_of_ne hb', hm.bucket b' hb']
    exact (h.chain b').congr fun a ha => by rw [hm.node_far h hb' ha]

/-- They stay disjoint. -/
theorem disjoint (hm : Moves mask L s t b m p l) (h : Inv mask L s) {b₁ b₂ : Word}
    (h₁ : a ∈ Function.update L b l b₁) (h₂ : a ∈ Function.update L b l b₂) : b₁ = b₂ := by
  have hone : ∀ b', b' ≠ b → a ∈ l → a ∉ L b' := by
    intro b' hb' hal ha
    obtain ⟨h1, h2⟩ := far (t := t) h hb' ha
    exact (hm.mem a hal).1.elim h1 h2
  by_cases hb₁ : b₁ = b
  · subst hb₁
    by_cases hb₂ : b₂ = b₁
    · exact hb₂.symm
    · exact absurd (by simpa [hb₂] using h₂) (hone b₂ hb₂ (by simpa using h₁))
  · by_cases hb₂ : b₂ = b
    · subst hb₂
      exact absurd (by simpa [hb₁] using h₁) (hone b₁ hb₁ (by simpa using h₂))
    · exact h.disjoint b₁ b₂ a (by simpa [hb₁] using h₁) (by simpa [hb₂] using h₂)

/-- They stay live. -/
theorem live_chain (hm : Moves mask L s t b m p l) (h : Inv mask L s)
    (ha : a ∈ Function.update L b l b') : m.live a = true := by
  by_cases hb' : b' = b
  · subst hb'
    exact (hm.mem a (by simpa using ha)).2
  · have ha' : a ∈ L b' := by simpa [hb'] using ha
    exact hm.live a (h.live b' a ha') (far h hb' ha').2

end Elsewhere

/-- What writers own is live and in no chain. -/
theorem owned (hm : Moves mask L s t b m p l) (h : Inv mask L s)
    (ha : (Function.update s.pc t p u).pending = some a) :
    m.live a = true ∧ ∀ b', a ∉ Function.update L b l b' := by
  by_cases hut : u = t
  · subst hut
    have hself : p.pending = some a := by simpa using ha
    exact ⟨(hm.pending a hself).1, hm.pending_self h hself⟩
  · have hother : (s.pc u).pending = some a := by simpa [hut] using ha
    obtain ⟨-, hlive, hout, -⟩ := hm.pending_far h hut hother
    refine ⟨hlive, fun b' => ?_⟩
    by_cases hb' : b' = b
    · subst hb'
      simpa using hout
    · simpa [hb'] using (h.pending u a hother).2 b'

/-- No two writers own one node. -/
theorem unique (hm : Moves mask L s t b m p l) (h : Inv mask L s) {u' : T}
    (hu : (Function.update s.pc t p u).pending = some a)
    (hu' : (Function.update s.pc t p u').pending = some a) : u = u' := by
  by_cases hut : u = t
  · by_cases hut' : u' = t
    · rw [hut, hut']
    · subst hut
      have hother : (s.pc u').pending = some a := by simpa [hut'] using hu'
      exact absurd (by simpa using hu) (hm.pending_far h hut' hother).2.2.2
  · have hother : (s.pc u).pending = some a := by simpa [hut] using hu
    by_cases hut' : u' = t
    · subst hut'
      exact absurd (by simpa using hu') (hm.pending_far h hut hother).2.2.2
    · exact h.unique u u' a hother (by simpa [hut'] using hu')

/-- Nobody enters or leaves a section. -/
theorem section_eq (hm : Moves mask L s t b m p l) (u : T) :
    (Function.update s.pc t p u).section mask = (s.pc u).section mask := by
  by_cases hut : u = t
  · rw [hut, Function.update_self, hm.stays, hm.inside]
  · rw [Function.update_of_ne hut]

/-- The versions of the locked buckets are odd. -/
theorem held (hm : Moves mask L s t b m p l) (h : Inv mask L s)
    (hu : (Function.update s.pc t p u).section mask = some b') :
    (m.bucket b').version % 2 = 1 := by
  rw [hm.section_eq] at hu
  by_cases hb' : b' = b
  · subst hb'
    rw [hm.version]
    exact h.held t b' hm.inside
  · rw [hm.bucket b' hb']
    exact h.held u b' hu

/-- What the holders of locks know stays true. -/
theorem own_frame (hm : Moves mask L s t b m p l) (h : Inv mask L s)
    (hu : (Function.update s.pc t p u).section mask = some b') :
    ownOk m b' (Function.update L b l b') (Function.update s.pc t p u) := by
  rw [hm.section_eq] at hu
  by_cases hut : u = t
  · subst hut
    obtain rfl : b = b' := Option.some.inj (hm.inside.symm.trans hu)
    simpa using hm.own
  · have hb' : b' ≠ b := by
      intro heq
      rw [heq] at hu
      exact hut (h.lock u t b hu hm.inside)
    have hframe := (h.own u b' hu).frame (h.chain b') (hm.bucket b' hb')
      (fun a ha => hm.node_far h hb' ha) (fun a ha => (hm.pending_far h hut ha).1)
    simpa [hut, hb'] using hframe

/-- What the threads outside know stays true: the version of `b` is odd all the while. -/
theorem reader (hm : Moves mask L s t b m p l) (h : Inv mask L s) (u : T) :
    unlockedOk mask m (Function.update L b l) (Function.update s.pc t p u) := by
  by_cases hut : u = t
  · subst hut
    have hstays := hm.stays
    simp only [Function.update_self]
    cases p <;> simp_all [Pc.section, unlockedOk]
  · suffices hframe : unlockedOk mask m (Function.update L b l) (s.pc u) by
      simpa [hut] using hframe
    refine (h.reader u).frame h.chain (fun b' => ?_) (fun b' heven _ => ?_)
    · by_cases hb' : b' = b
      · rw [hb', hm.version]
      · rw [hm.bucket b' hb']
    · have hb' : b' ≠ b := by
        intro heq
        have hodd := h.held t b hm.inside
        rw [heq, hm.version] at heven
        omega
      exact ⟨hm.bucket b' hb', by simp [hb'], fun a ha => hm.node_far h hb' ha⟩

/-- Walks stand in the chain of their bucket, or on a node of the writer inside. -/
theorem walks (hm : Moves mask L s t b m p l) (h : Inv mask L s) {c : Addr}
    (hu : (Function.update s.pc t p u).walking mask = some (b', c)) :
    c ∈ Function.update L b l b' ∨ ∃ w, (Function.update s.pc t p w).pending = some c ∧
      (Function.update s.pc t p w).section mask = some b' := by
  have hut : u ≠ t := by
    intro heq
    have hstays := hm.stays
    have hp : p.walking mask = some (b', c) := by simpa [heq] using hu
    cases p <;> cases hstays <;> cases hp
  have hold : (s.pc u).walking mask = some (b', c) := by simpa [hut] using hu
  rcases h.walk u b' c hold with hc | ⟨w, hw, hwsec⟩
  · by_cases hb' : b' = b
    · subst hb'
      refine (hm.walk u c hold (.inl hc)).imp (by simp) fun hp => ⟨t, ?_⟩
      simpa using And.intro hp hm.stays
    · exact .inl (by simpa [hb'] using hc)
  · by_cases hwt : w = t
    · subst hwt
      obtain rfl : b = b' := Option.some.inj (hm.inside.symm.trans hwsec)
      refine (hm.walk u c hold (.inr hw)).imp (by simp) fun hp => ⟨w, ?_⟩
      simpa using And.intro hp hm.stays
    · exact .inr ⟨w, by simpa [hwt] using And.intro hw hwsec⟩

/-- **The holder of a lock moves.** -/
theorem inv (hm : Moves mask L s t b m p l) (h : Inv mask L s) :
    Inv mask (Function.update L b l) ⟨m, Function.update s.pc t p⟩ where
  chain := hm.chains h
  disjoint _ _ _ h₁ h₂ := hm.disjoint h h₁ h₂
  live _ _ ha := hm.live_chain h ha
  pending _ _ ha := hm.owned h ha
  unique _ _ _ hu hu' := hm.unique h hu hu'
  lock u u' b' hu hu' := by
    rw [hm.section_eq] at hu hu'
    exact h.lock u u' b' hu hu'
  held _ _ hu := hm.held h hu
  own _ _ hu := hm.own_frame h hu
  reader := hm.reader h
  walk _ _ _ hu := hm.walks h hu

end Moves

/-! ## Moves that leave the chains alone -/

omit [DecidableEq T] in
/-- The node of an optimistic reader is live. -/
theorem Inv.cursor_live {L : Word → List Addr} {s : ScState T Mem Pc} (h : Inv mask L s) {t : T}
    {c : Addr} (hc : (s.pc t).cursor = some c) : s.mem.live c = true := by
  cases hp : s.pc t with
  | readFind k start f =>
      have hwalk : (s.pc t).walking mask = some (bucketFor mask k, c) := by
        rw [hp] at hc ⊢
        exact congrArg (Option.map _) hc
      rcases h.walk t _ c hwalk with hmem | ⟨u, hu, -⟩
      · exact h.live _ c hmem
      · exact (h.pending u c hu).1
  | _ =>
      rw [hp] at hc
      cases hc

/-- The holder of a lock moves without touching memory. -/
theorem Inv.quietSection {L : Word → List Addr} {s : ScState T Mem Pc} (h : Inv mask L s) {t : T}
    {b : Word} {p : Pc} (hsec : (s.pc t).section mask = some b)
    (hsec' : p.section mask = some b) (hpend₀ : (s.pc t).pending = none) (hpend : p.pending = none)
    (hown : ownOk s.mem b (L b) p) : Inv mask L ⟨s.mem, Function.update s.pc t p⟩ := by
  have hmove : Moves mask L s t b s.mem p (L b) :=
    { inside := hsec
      stays := hsec'
      bucket := fun _ _ => rfl
      version := rfl
      node := fun _ _ _ _ => rfl
      live := fun _ ha _ => ha
      chain := h.chain b
      mem := fun a ha => ⟨.inl ha, h.live b a ha⟩
      walk := by simp +contextual [hpend₀]
      pending := by simp [hpend]
      own := hown }
  have hinv := hmove.inv h
  rwa [Function.update_eq_self] at hinv

/-- The holder of a lock stores into its bucket's inline slots. -/
theorem Inv.storeSection {L : Word → List Addr} {s : ScState T Mem Pc} (h : Inv mask L s) {t : T}
    {b : Word} {p : Pc} {x : Bucket} (hsec : (s.pc t).section mask = some b)
    (hsec' : p.section mask = some b) (hver : x.version = (s.mem.bucket b).version)
    (hx : x.chain = (s.mem.bucket b).chain) (hpend₀ : (s.pc t).pending = none)
    (hpend : p.pending = none)
    (hown : ∀ m : Mem, ownOk m b (L b) p) :
    Inv mask L ⟨s.mem.setBucket b x, Function.update s.pc t p⟩ := by
  have hmove : Moves mask L s t b (s.mem.setBucket b x) p (L b) :=
    { inside := hsec
      stays := hsec'
      bucket := fun b' hb' => by simp [Mem.setBucket, hb']
      version := by simpa [Mem.setBucket] using hver
      node := fun _ _ _ _ => rfl
      live := fun _ ha _ => ha
      chain := by simpa [Mem.setBucket, hx] using h.chain b
      mem := fun a ha => ⟨.inl ha, h.live b a ha⟩
      walk := by simp +contextual [hpend₀]
      pending := by simp [hpend]
      own := hown _ }
  have hinv := hmove.inv h
  rwa [Function.update_eq_self] at hinv

/-- A writer with a pending node is not the thread that moves without one. -/
theorem pending_update {s : ScState T Mem Pc} {t : T} (hpend₀ : (s.pc t).pending = none) (p : Pc)
    {w : T} {c : Addr} {b : Word} (hw : (s.pc w).pending = some c ∧ (s.pc w).section mask = some b) :
    (Function.update s.pc t p w).pending = some c ∧
      (Function.update s.pc t p w).section mask = some b := by
  have hwt : w ≠ t := by
    intro heq
    subst heq
    cases hpend₀.symm.trans hw.1
  rwa [Function.update_of_ne hwt]

/-- A thread without a lock moves without touching memory. -/
theorem Inv.outside {L : Word → List Addr} {s : ScState T Mem Pc} (h : Inv mask L s) {t : T}
    {p : Pc} (hsec : p.section mask = none) (hpend₀ : (s.pc t).pending = none)
    (hpend : p.pending = none) (hreader : unlockedOk mask s.mem L p)
    (hwalk : ∀ b c, p.walking mask = some (b, c) →
      c ∈ L b ∨ ∃ u, (s.pc u).pending = some c ∧ (s.pc u).section mask = some b) :
    Inv mask L ⟨s.mem, Function.update s.pc t p⟩ := by
  refine ⟨h.chain, h.disjoint, h.live, fun u a hu => ?_, fun u u' a hu hu' => ?_,
    fun u u' b hu hu' => ?_, fun u b hu => ?_, fun u b hu => ?_, fun u => ?_,
    fun u b c hu => ?_⟩
  · by_cases hut : u = t
    · simp [hut, hpend] at hu
    · exact h.pending u a (by simpa [hut] using hu)
  · by_cases hut : u = t
    · simp [hut, hpend] at hu
    · by_cases hut' : u' = t
      · simp [hut', hpend] at hu'
      · exact h.unique u u' a (by simpa [hut] using hu) (by simpa [hut'] using hu')
  · by_cases hut : u = t
    · simp [hut, hsec] at hu
    · by_cases hut' : u' = t
      · simp [hut', hsec] at hu'
      · exact h.lock u u' b (by simpa [hut] using hu) (by simpa [hut'] using hu')
  · by_cases hut : u = t
    · simp [hut, hsec] at hu
    · exact h.held u b (by simpa [hut] using hu)
  · by_cases hut : u = t
    · simp [hut, hsec] at hu
    · simpa [hut] using h.own u b (by simpa [hut] using hu)
  · by_cases hut : u = t
    · subst hut
      simpa using hreader
    · simpa [hut] using h.reader u
  · have hold : c ∈ L b ∨ ∃ w, (s.pc w).pending = some c ∧ (s.pc w).section mask = some b := by
      by_cases hut : u = t
      · subst hut
        exact hwalk b c (by simpa using hu)
      · exact h.walk u b c (by simpa [hut] using hu)
    exact hold.imp_right fun ⟨w, hw⟩ => ⟨w, pending_update hpend₀ p hw⟩

/-- A bump of a bucket's version, by the thread that takes or drops its lock. -/
theorem Inv.bump {L : Word → List Addr} {s : ScState T Mem Pc} (h : Inv mask L s) {t : T}
    {b : Word} {p : Pc} (hothers : ∀ u, u ≠ t → (s.pc u).section mask ≠ some b)
    (hsec : ∀ b', p.section mask = some b' → b' = b ∧ (s.mem.bucket b).version % 2 = 0)
    (hown : ∀ m l, ownOk m b l p) (hpend₀ : (s.pc t).pending = none) (hpend : p.pending = none)
    (hreader : ∀ m, unlockedOk mask m L p) (hwalk : p.walking mask = none) :
    Inv mask L ⟨s.mem.bump b, Function.update s.pc t p⟩ := by
  have hchain : ∀ b', ((s.mem.bump b).bucket b').chain = (s.mem.bucket b').chain := by
    intro b'
    by_cases hb' : b' = b
    · simp [Mem.bump, Mem.setBucket, hb']
    · simp [Mem.bump, Mem.setBucket, hb']
  have hfar : ∀ b', b' ≠ b → (s.mem.bump b).bucket b' = s.mem.bucket b' := by
    intro b' hb'
    simp [Mem.bump, Mem.setBucket, hb']
  have hnear : ((s.mem.bump b).bucket b).version = (s.mem.bucket b).version + 1 := by
    simp [Mem.bump, Mem.setBucket]
  refine ⟨fun b' => by rw [hchain]; exact h.chain b', h.disjoint, h.live, fun u a hu => ?_,
    fun u u' a hu hu' => ?_, fun u u' b' hu hu' => ?_, fun u b' hu => ?_, fun u b' hu => ?_,
    fun u => ?_, fun u b' c hu => ?_⟩
  · by_cases hut : u = t
    · simp [hut, hpend] at hu
    · exact h.pending u a (by simpa [hut] using hu)
  · by_cases hut : u = t
    · simp [hut, hpend] at hu
    · by_cases hut' : u' = t
      · simp [hut', hpend] at hu'
      · exact h.unique u u' a (by simpa [hut] using hu) (by simpa [hut'] using hu')
  · by_cases hut : u = t
    · by_cases hut' : u' = t
      · rw [hut, hut']
      · subst hut
        obtain ⟨rfl, -⟩ := hsec b' (by simpa using hu)
        exact absurd (by simpa [hut'] using hu') (hothers u' hut')
    · by_cases hut' : u' = t
      · subst hut'
        obtain ⟨rfl, -⟩ := hsec b' (by simpa using hu')
        exact absurd (by simpa [hut] using hu) (hothers u hut)
      · exact h.lock u u' b' (by simpa [hut] using hu) (by simpa [hut'] using hu')
  · by_cases hut : u = t
    · subst hut
      obtain ⟨rfl, heven⟩ := hsec b' (by simpa using hu)
      simp only [hnear]
      omega
    · have hu' : (s.pc u).section mask = some b' := by simpa [hut] using hu
      have hb' : b' ≠ b := fun hb' => hothers u hut (hb' ▸ hu')
      simpa [hfar b' hb'] using h.held u b' hu'
  · by_cases hut : u = t
    · subst hut
      obtain ⟨rfl, -⟩ := hsec b' (by simpa using hu)
      simpa using hown _ _
    · have hu' : (s.pc u).section mask = some b' := by simpa [hut] using hu
      have hb' : b' ≠ b := fun hb' => hothers u hut (hb' ▸ hu')
      have hframe := (h.own u b' hu').frame (h.chain b') (hfar b' hb') (fun _ _ => rfl)
        fun _ _ => rfl
      simpa [hut] using hframe
  · by_cases hut : u = t
    · subst hut
      simpa using hreader _
    · suffices hframe : unlockedOk mask (s.mem.bump b) L (s.pc u) by
        simpa [hut] using hframe
      refine (h.reader u).frame h.chain (fun b' => ?_) fun b' _ hver => ?_
      · by_cases hb' : b' = b
        · rw [hb', hnear]
          omega
        · rw [hfar b' hb']
      · have hb' : b' ≠ b := by
          intro heq
          subst heq
          omega
        exact ⟨hfar b' hb', rfl, fun _ _ => rfl⟩
  · have hut : u ≠ t := by
      intro heq
      subst heq
      simp [hwalk] at hu
    exact (h.walk u b' c (by simpa [hut] using hu)).imp_right fun ⟨w, hw⟩ =>
      ⟨w, pending_update hpend₀ p hw⟩

/-! ## Nodes under the lock -/

section Nodes

omit [DecidableEq T]

variable {L : Word → List Addr} {s : ScState T Mem Pc} {t : T} {b k v : Word} {a : Addr}

/-- `put` stores a value into a node of the chain. -/
theorem moves_storeVal (h : Inv mask L s) {p : Pc} (hsec : (s.pc t).section mask = some b)
    (hsec' : p.section mask = some b) (hpend₀ : (s.pc t).pending = none) (hpend : p.pending = none)
    (hown : ∀ m, ownOk m b (L b) p) (ha : a ∈ L b) :
    Moves mask L s t b (s.mem.setNode a { s.mem.node a with val := v }) p (L b) where
  inside := hsec
  stays := hsec'
  bucket _ _ := rfl
  version := rfl
  node a' _ ha' _ := by
    have hne : a' ≠ a := fun he => ha' (he ▸ ha)
    simp [Mem.setNode, hne]
  live _ ha' _ := ha'
  chain := by
    refine (h.chain b).congr fun a' _ => ?_
    by_cases he : a' = a
    · simp [Mem.setNode, he]
    · simp [Mem.setNode, he]
  mem a' ha' := ⟨.inl ha', h.live b a' ha'⟩
  walk := by simp +contextual [hpend₀]
  pending := by simp [hpend]
  own := hown _

/-- `put` allocates a node in front of the chain. -/
theorem moves_new (h : Inv mask L s) {head : Option Addr} (hpc : s.pc t = .putIn k v (.new head))
    (hdead : ¬s.mem.live a = true) :
    Moves mask L s t (bucketFor mask k)
      { s.mem.setNode a ⟨k, v, head⟩ with live := Function.update s.mem.live a true }
      (.putIn k v (.link a)) (L (bucketFor mask k)) := by
  have hsec : (s.pc t).section mask = some (bucketFor mask k) := by rw [hpc]; rfl
  have hhead : head = (s.mem.bucket (bucketFor mask k)).chain := by
    have hown := h.own t _ hsec
    rwa [hpc] at hown
  have hne : ∀ a', s.mem.live a' = true → a' ≠ a := by
    intro a' ha' he
    exact hdead (he ▸ ha')
  exact
    { inside := hsec
      stays := rfl
      bucket := fun _ _ => rfl
      version := rfl
      node := fun a' ha' _ _ => by simp [Mem.setNode, hne a' ha']
      live := fun a' ha' _ => by simp [hne a' ha', ha']
      chain := by
        refine (h.chain _).congr fun a' ha' => ?_
        simp [Mem.setNode, hne a' (h.live _ a' ha')]
      mem := fun a' ha' => by
        have hl := h.live _ a' ha'
        exact ⟨.inl ha', by simp [hne a' hl, hl]⟩
      walk := by simp +contextual [hpc, Pc.pending]
      pending := fun a' hp => by
        obtain rfl : a = a' := by simpa [Pc.pending] using hp
        exact ⟨by simp, fun ha => hne _ (h.live _ _ ha) rfl, .inr (.inr (by simpa using hdead))⟩
      own := by simp [ownOk, upsertOk, Mem.setNode, hhead] }

/-- `put` links the node that it owns. -/
theorem moves_link (h : Inv mask L s) (hpc : s.pc t = .putIn k v (.link a)) :
    Moves mask L s t (bucketFor mask k)
      (s.mem.setBucket (bucketFor mask k)
        { s.mem.bucket (bucketFor mask k) with chain := some a })
      (.unlock (.put k v) (.flag true)) (a :: L (bucketFor mask k)) := by
  have hsec : (s.pc t).section mask = some (bucketFor mask k) := by rw [hpc]; rfl
  have hpend : (s.pc t).pending = some a := by rw [hpc]; rfl
  obtain ⟨hlive, -⟩ := h.pending t a hpend
  have hnext : (s.mem.node a).next = (s.mem.bucket (bucketFor mask k)).chain := by
    have hown := h.own t _ hsec
    rwa [hpc] at hown
  exact
    { inside := hsec
      stays := rfl
      bucket := fun b' hb' => by simp [Mem.setBucket, hb']
      version := by simp [Mem.setBucket]
      node := fun _ _ _ _ => rfl
      live := fun _ ha' _ => ha'
      chain := by
        have hchain := h.chain (bucketFor mask k)
        simp only [Mem.setBucket, Function.update_self]
        rw [← hnext] at hchain
        exact ⟨rfl, hchain⟩
      mem := fun a' ha' => by
        rcases List.mem_cons.mp ha' with rfl | ha'
        · exact ⟨.inr hpend, hlive⟩
        · exact ⟨.inl ha', h.live _ a' ha'⟩
      walk := fun _ a' _ ha' => by
        rw [hpend, Option.some.injEq] at ha'
        exact .inl (List.mem_cons.mpr (ha'.symm.imp Eq.symm id))
      pending := fun _ hp => by cases hp
      own := trivial }

/-- `remove` unlinks the node, which it owns from then on. -/
theorem moves_unlink (h : Inv mask L s) {pp : Link} {next : Option Addr}
    (hpc : s.pc t = .removeIn k (.unlink pp a next)) :
    Moves mask L s t (bucketFor mask k) (s.mem.storeLink (bucketFor mask k) next pp)
      (.removeIn k (.delete a)) ((L (bucketFor mask k)).erase a) := by
  have hsec : (s.pc t).section mask = some (bucketFor mask k) := by rw [hpc]; rfl
  have hchain := h.chain (bucketFor mask k)
  have hown := h.own t _ hsec
  rw [hpc] at hown
  obtain ⟨hpp, hload, rfl⟩ := hown
  have ha : a ∈ L (bucketFor mask k) := loadLink_mem hchain hpp hload
  have hlive := h.live _ a ha
  have hnd := hchain.nodup
  have hout : a ∉ (L (bucketFor mask k)).erase a := fun hmem => (hnd.mem_erase_iff.mp hmem).1 rfl
  exact
    { inside := hsec
      stays := rfl
      bucket := fun b' hb' => by
        cases pp <;> simp [Mem.storeLink, Mem.setBucket, Mem.setNode, hb']
      version := by cases pp <;> simp [Mem.storeLink, Mem.setBucket, Mem.setNode]
      node := fun a' _ ha' _ => by
        cases pp with
        | head => rfl
        | next p =>
            have hne : a' ≠ p := fun he => ha' (he ▸ hpp)
            simp [Mem.storeLink, Mem.setNode, hne]
      live := fun a' ha' _ => by cases pp <;> exact ha'
      chain := by
        cases pp with
        | head =>
            have hhead : (s.mem.bucket (bucketFor mask k)).chain = some a := hload
            rw [hhead] at hchain
            simp only [Mem.storeLink, Mem.setBucket, Function.update_self]
            generalize L (bucketFor mask k) = l at hchain
            cases l with
            | nil => cases hchain
            | cons a' l =>
                obtain rfl := Option.some.inj hchain.1
                simpa using hchain.2
        | next p =>
            refine hchain.unlink hpp hload ?_ fun a' _ hap => ?_
            · simp [Mem.storeLink, Mem.setNode]
            · simp [Mem.storeLink, Mem.setNode, hap]
      mem := fun a' ha' => by
        refine ⟨.inl (List.mem_of_mem_erase ha'), ?_⟩
        cases pp <;> exact h.live _ a' (List.mem_of_mem_erase ha')
      walk := fun _ a' _ ha' => by
        have hmem : a' ∈ L (bucketFor mask k) := ha'.resolve_right (by simp [hpc, Pc.pending])
        by_cases hav : a' = a
        · exact .inr (congrArg some hav.symm)
        · exact .inl (hnd.mem_erase_iff.mpr ⟨hav, hmem⟩)
      pending := fun a' hp => by
        obtain rfl : a = a' := by simpa [Pc.pending] using hp
        exact ⟨by cases pp <;> exact hlive, hout, .inl ha⟩
      own := by
        intro d hd
        have hd' : (s.mem.node a).next = some d := by
          cases pp with
          | head => exact hd
          | next p =>
              have hap : a ≠ p := hchain.next_ne hpp hload
              simpa [Mem.storeLink, Mem.setNode, hap] using hd
        exact hnd.mem_erase_iff.mpr ⟨hchain.next_ne ha hd', hchain.next_mem ha hd'⟩ }

/-- `remove` deletes the node that it owns, while no optimistic reader walks in the bucket. -/
theorem moves_delete (h : Inv mask L s) (hpc : s.pc t = .removeIn k (.delete a))
    (hclear : ∀ u a', (s.pc u).walking mask ≠ some (bucketFor mask k, a')) :
    Moves mask L s t (bucketFor mask k)
      { s.mem with live := Function.update s.mem.live a false }
      (.unlock (.remove k) (.flag true)) (L (bucketFor mask k)) := by
  have hpend : (s.pc t).pending = some a := by rw [hpc]; rfl
  have hout := (h.pending t a hpend).2
  exact
    { inside := by rw [hpc]; rfl
      stays := rfl
      bucket := fun _ _ => rfl
      version := rfl
      node := fun _ _ _ _ => rfl
      live := fun a' ha' hne => by
        have hav : a' ≠ a := fun he => hne (he ▸ hpend)
        simpa [hav] using ha'
      chain := h.chain _
      mem := fun a' ha' => by
        have hav : a' ≠ a := fun he => hout _ (he ▸ ha')
        exact ⟨.inl ha', by simpa [hav] using h.live _ a' ha'⟩
      walk := fun u a' hu _ => absurd hu (hclear u a')
      pending := fun _ hp => by cases hp
      own := trivial }

end Nodes

/-! ## The accesses -/

/-- One access of `put` under the lock. -/
theorem Inv.upsert {L : Word → List Addr} {s : ScState T Mem Pc} (h : Inv mask L s) {t : T}
    {k v : Word} {u : Upsert} (hpc : s.pc t = .putIn k v u) {c : Choice} {m : Mem}
    {x : Upsert ⊕ Bool} (hstep : upsertStep slots s.mem (bucketFor mask k) k v c u = some (m, x)) :
    ∃ L', Inv mask L' ⟨m, Function.update s.pc t
      (x.elim (.putIn k v) fun b => .unlock (.put k v) (.flag b))⟩ := by
  have hsec : (s.pc t).section mask = some (bucketFor mask k) := by rw [hpc]; rfl
  have hown := h.own t _ hsec
  have hchain := h.chain (bucketFor mask k)
  rw [hpc] at hown
  have hquiet : (s.pc t).pending = none → ∀ u' : Upsert, (∀ a, u' ≠ .link a) →
      upsertOk s.mem (bucketFor mask k) (L (bucketFor mask k)) u' →
      ∃ L', Inv mask L' ⟨s.mem, Function.update s.pc t (.putIn k v u')⟩ := by
    intro hpend u' hlink hok
    refine ⟨L, h.quietSection hsec rfl hpend ?_ hok⟩
    cases u' with
    | link a => exact absurd rfl (hlink a)
    | _ => rfl
  have hnode : (s.pc t).pending = none → ∀ y : Option Addr,
      (∀ a, y = some a → a ∈ L (bucketFor mask k)) →
      ∃ L', Inv mask L' ⟨s.mem, Function.update s.pc t (.putIn k v (upsertNode y))⟩ := by
    intro hpend y hy
    cases y with
    | none => exact hquiet hpend .room (fun _ h => nomatch h) trivial
    | some a => exact hquiet hpend (.nodeKey a) (fun _ h => nomatch h) (hy a rfl)
  cases u with
  | count i =>
      obtain ⟨rfl, rfl⟩ := Prod.mk.inj (Option.some.inj hstep)
      exact hquiet (by rw [hpc]; rfl) _ (fun a h => by split at h <;> cases h) (by split <;> trivial)
  | key i =>
      obtain ⟨rfl, rfl⟩ := Prod.mk.inj (Option.some.inj hstep)
      exact hquiet (by rw [hpc]; rfl) _ (fun a h => by split at h <;> cases h) (by split <;> trivial)
  | storeVal i | storeCount n =>
      obtain ⟨rfl, rfl⟩ := Prod.mk.inj (Option.some.inj hstep)
      exact ⟨L, h.storeSection hsec rfl rfl rfl (by rw [hpc]; rfl) rfl fun _ => trivial⟩
  | chain =>
      obtain ⟨rfl, rfl⟩ := Prod.mk.inj (Option.some.inj hstep)
      refine hnode (by rw [hpc]; rfl) _ fun a ha => ?_
      rw [ha] at hchain
      exact hchain.head_mem
  | nodeKey a =>
      obtain ⟨rfl, rfl⟩ := Prod.mk.inj (Option.some.inj hstep)
      exact hquiet (by rw [hpc]; rfl) _ (fun a h => by split at h <;> cases h) (by split <;> exact hown)
  | storeNodeVal a =>
      obtain ⟨rfl, rfl⟩ := Prod.mk.inj (Option.some.inj hstep)
      have hpend : (s.pc t).pending = none := by rw [hpc]; rfl
      have hmove := moves_storeVal (v := v) h (p := .unlock (.put k v) (.flag false)) hsec rfl hpend
        rfl (fun _ => trivial) hown
      exact ⟨_, hmove.inv h⟩
  | nodeNext a =>
      obtain ⟨rfl, rfl⟩ := Prod.mk.inj (Option.some.inj hstep)
      exact hnode (by rw [hpc]; rfl) _ fun d hd => hchain.next_mem hown hd
  | room =>
      obtain ⟨rfl, rfl⟩ := Prod.mk.inj (Option.some.inj hstep)
      exact hquiet (by rw [hpc]; rfl) _ (fun a h => by split at h <;> cases h) (by split <;> trivial)
  | keyIndex | valIndex | loadCount =>
      obtain ⟨rfl, rfl⟩ := Prod.mk.inj (Option.some.inj hstep)
      exact hquiet (by rw [hpc]; rfl) _ (fun a h => nomatch h) trivial
  | loadChain =>
      obtain ⟨rfl, rfl⟩ := Prod.mk.inj (Option.some.inj hstep)
      exact hquiet (by rw [hpc]; rfl) _ (fun a h => nomatch h) rfl
  | storeKey i | storeNewVal i =>
      obtain ⟨rfl, rfl⟩ := Prod.mk.inj (Option.some.inj hstep)
      exact ⟨L, h.storeSection hsec rfl rfl rfl (by rw [hpc]; rfl) rfl fun _ => trivial⟩
  | new head =>
      unfold upsertStep at hstep
      cases c with
      | new a =>
          dsimp only at hstep
          split at hstep
          · cases hstep
          · rename_i hdead
            obtain ⟨rfl, rfl⟩ := Prod.mk.inj (Option.some.inj hstep)
            exact ⟨_, (moves_new h hpc hdead).inv h⟩
      | _ => cases hstep
  | link a =>
      obtain ⟨rfl, rfl⟩ := Prod.mk.inj (Option.some.inj hstep)
      exact ⟨_, (moves_link h hpc).inv h⟩

/-- One access of `remove` under the lock.  It must not delete while an optimistic
reader walks in its bucket. -/
theorem Inv.remove {L : Word → List Addr} {s : ScState T Mem Pc} (h : Inv mask L s) {t : T}
    {k : Word} {r : Remove} (hpc : s.pc t = .removeIn k r) {m : Mem} {x : Remove ⊕ Bool}
    (hclear : ∀ v, r = .delete v → ∀ u a, (s.pc u).walking mask ≠ some (bucketFor mask k, a))
    (hstep : removeStep s.mem (bucketFor mask k) k r = some (m, x)) :
    ∃ L', Inv mask L' ⟨m, Function.update s.pc t
      (x.elim (.removeIn k) fun b => .unlock (.remove k) (.flag b))⟩ := by
  have hsec : (s.pc t).section mask = some (bucketFor mask k) := by rw [hpc]; rfl
  have hown := h.own t _ hsec
  have hchain := h.chain (bucketFor mask k)
  rw [hpc] at hown
  have hquiet : (s.pc t).pending = none → ∀ r' : Remove, (∀ a, r' ≠ .delete a) →
      removeOk s.mem (bucketFor mask k) (L (bucketFor mask k)) r' →
      ∃ L', Inv mask L' ⟨s.mem, Function.update s.pc t (.removeIn k r')⟩ := by
    intro hpend r' hdel hok
    refine ⟨L, h.quietSection hsec rfl hpend ?_ hok⟩
    cases r' with
    | delete a => exact absurd rfl (hdel a)
    | _ => rfl
  cases r with
  | count i =>
      obtain ⟨rfl, rfl⟩ := Prod.mk.inj (Option.some.inj hstep)
      exact hquiet (by rw [hpc]; rfl) _ (fun a h => by split at h <;> cases h) (by split <;> trivial)
  | key i =>
      obtain ⟨rfl, rfl⟩ := Prod.mk.inj (Option.some.inj hstep)
      exact hquiet (by rw [hpc]; rfl) _ (fun a h => by split at h <;> cases h) (by split <;> trivial)
  | loadCount i | keyIndex i | lastKey i last | valIndex i | lastVal i last =>
      obtain ⟨rfl, rfl⟩ := Prod.mk.inj (Option.some.inj hstep)
      exact hquiet (by rw [hpc]; rfl) _ (fun a h => nomatch h) trivial
  | storeCount i n | storeKey i w | storeVal i w =>
      obtain ⟨rfl, rfl⟩ := Prod.mk.inj (Option.some.inj hstep)
      exact ⟨L, h.storeSection hsec rfl rfl rfl (by rw [hpc]; rfl) rfl fun _ => trivial⟩
  | test pp =>
      unfold removeStep at hstep
      dsimp only at hstep
      split at hstep
      · obtain ⟨rfl, rfl⟩ := Prod.mk.inj (Option.some.inj hstep)
        exact ⟨L, h.quietSection hsec rfl (by rw [hpc]; rfl) rfl trivial⟩
      · obtain ⟨rfl, rfl⟩ := Prod.mk.inj (Option.some.inj hstep)
        exact hquiet (by rw [hpc]; rfl) _ (fun a h => nomatch h) hown
  | load pp =>
      obtain ⟨c, hc, heq⟩ := Option.map_eq_some_iff.mp hstep
      obtain ⟨rfl, rfl⟩ := Prod.mk.inj heq
      exact hquiet (by rw [hpc]; rfl) _ (fun a h => nomatch h) ⟨hown, hc⟩
  | nodeKey pp c =>
      obtain ⟨rfl, rfl⟩ := Prod.mk.inj (Option.some.inj hstep)
      exact hquiet (by rw [hpc]; rfl) _ (fun a h => by split at h <;> cases h) (by split <;> exact hown.1)
  | victim pp =>
      obtain ⟨v, hv, heq⟩ := Option.map_eq_some_iff.mp hstep
      obtain ⟨rfl, rfl⟩ := Prod.mk.inj heq
      exact hquiet (by rw [hpc]; rfl) _ (fun a h => nomatch h) ⟨hown, hv⟩
  | victimNext pp v =>
      obtain ⟨rfl, rfl⟩ := Prod.mk.inj (Option.some.inj hstep)
      exact hquiet (by rw [hpc]; rfl) _ (fun a h => nomatch h) ⟨hown.1, hown.2, rfl⟩
  | advance pp =>
      obtain ⟨c, hc, heq⟩ := Option.map_eq_some_iff.mp hstep
      obtain ⟨rfl, rfl⟩ := Prod.mk.inj heq
      exact hquiet (by rw [hpc]; rfl) _ (fun a h => nomatch h) (loadLink_mem hchain hown hc)
  | unlink pp v next =>
      obtain ⟨rfl, rfl⟩ := Prod.mk.inj (Option.some.inj hstep)
      exact ⟨_, (moves_unlink h hpc).inv h⟩
  | delete v =>
      obtain ⟨rfl, rfl⟩ := Prod.mk.inj (Option.some.inj hstep)
      exact ⟨_, (moves_delete h hpc fun u a' => hclear v rfl u a').inv h⟩

omit [DecidableEq T] in
/-- A node that a writer owns outside the chains points into the chain of its bucket. -/
theorem Inv.pending_next {L : Word → List Addr} {s : ScState T Mem Pc} (h : Inv mask L s) {u : T}
    {b : Word} {a d : Addr} (hu : (s.pc u).pending = some a) (hb : (s.pc u).section mask = some b)
    (hd : (s.mem.node a).next = some d) : d ∈ L b := by
  have hown := h.own u b hb
  have hchain := h.chain b
  cases hp : s.pc u with
  | putIn k v w =>
      cases w with
      | link a' =>
          obtain rfl : a' = a := by simpa [hp, Pc.pending] using hu
          rw [hp] at hown
          rw [← show (s.mem.node a').next = (s.mem.bucket b).chain from hown, hd] at hchain
          exact hchain.head_mem
      | _ => simp [hp, Pc.pending] at hu
  | removeIn k r =>
      cases r with
      | delete v =>
          obtain rfl : v = a := by simpa [hp, Pc.pending] using hu
          rw [hp] at hown
          exact hown d hd
      | _ => simp [hp, Pc.pending] at hu
  | _ => simp [hp, Pc.pending] at hu

omit [DecidableEq T] in
/-- **Where a walk goes**, also when it has gone stale: into the chain of its bucket, or it
stays on a node that the writer inside the bucket owns. -/
theorem Inv.findStep_walk {L : Word → List Addr} {s : ScState T Mem Pc} (h : Inv mask L s)
    {b k : Word} {f f' : Find}
    (hf : ∀ c, f.cursor = some c →
      c ∈ L b ∨ ∃ u, (s.pc u).pending = some c ∧ (s.pc u).section mask = some b)
    (hstep : findStep s.mem b k f = .inl f') :
    ∀ c, f'.cursor = some c →
      c ∈ L b ∨ ∃ u, (s.pc u).pending = some c ∧ (s.pc u).section mask = some b := by
  intro c hc
  cases f with
  | nodeNext d =>
      left
      cases hnext : (s.mem.node d).next with
      | none => simp [findStep, hnext, findNode] at hstep
      | some e =>
          obtain rfl : Find.nodeKey e = f' := by simpa [findStep, hnext, findNode] using hstep
          obtain rfl := Option.some.inj hc
          rcases hf d rfl with hd | ⟨u, hu, hb⟩
          · exact (h.chain b).next_mem hd hnext
          · exact h.pending_next hu hb hnext
  | nodeKey d =>
      obtain rfl := Sum.inl.inj hstep
      have hcd : d = c := by split at hc <;> simpa [Find.cursor] using hc
      exact hf c (by simp [Find.cursor, hcd])
  | nodeVal d => cases hstep
  | _ => exact .inl (findStep_cursor (h.chain b) (by simp [Find.cursor]) hstep c hc)

/-- One access of an optimistic walk. -/
theorem Inv.readStep {L : Word → List Addr} {s : ScState T Mem Pc} (h : Inv mask L s) {t : T}
    {k : Word} {start : Nat} {f : Find} (hpc : s.pc t = .readFind k start f) :
    Inv mask L ⟨s.mem, Function.update s.pc t (findGo (.readFind k start)
      (.readValidate k start) (findStep s.mem (bucketFor mask k) k f))⟩ := by
  have hr := h.reader t
  have hchain := h.chain (bucketFor mask k)
  rw [hpc] at hr
  obtain ⟨heven, hle, hwalk⟩ := hr
  cases hstep : findStep s.mem (bucketFor mask k) k f with
  | inr r =>
      exact h.outside rfl (by rw [hpc]; rfl) rfl
        ⟨heven, hle, fun hv => (hwalk hv).2 r (.done hstep)⟩ fun _ _ hc => nomatch hc
  | inl f' =>
      refine h.outside rfl (by rw [hpc]; rfl) rfl ⟨heven, hle, fun hv => ⟨?_, fun r hr => ?_⟩⟩
        fun b c hc => ?_
      · exact findStep_cursor hchain (hwalk hv).1 hstep
      · exact (hwalk hv).2 r (.more hstep hr)
      · obtain ⟨c', hc', heq⟩ := Option.map_eq_some_iff.mp hc
        cases heq
        refine h.findStep_walk (fun d hd => h.walk t _ d ?_) hstep c hc'
        rw [hpc]
        exact congrArg (Option.map _) hd

/-! ## Runs -/

/-- The bucket of an optimistic reader between `read_begin` and `read_validate`. -/
def Pc.reads (mask : Word) : Pc → Option Word
  | .readFind k _ _ | .readValidate k _ _ => some (bucketFor mask k)
  | _ => none

/-- The bucket of a `remove` that is about to delete a node. -/
def Pc.deletesIn (mask : Word) : Pc → Option Word
  | .removeIn k (.delete _) => some (bucketFor mask k)
  | _ => none

/-- When the step is the `delete` of a `remove`, no optimistic reader of the same bucket
is between its `read_begin` and its `read_validate`. -/
def DeleteClear (mask : Word) (s : ScState T Mem Pc) (a : T × Choice) : Prop :=
  ∀ u, (s.pc u).reads mask ≠ none → (s.pc u).reads mask ≠ (s.pc a.1).deletesIn mask

theorem Pc.reads_of_walking {p : Pc} {b : Word} {c : Addr} (h : p.walking mask = some (b, c)) :
    p.reads mask = some b := by
  cases p with
  | readFind k start f =>
      obtain ⟨c', -, heq⟩ := Option.map_eq_some_iff.mp h
      cases heq
      rfl
  | _ => cases h

/-- The key and the expected version of a `read_validate`. -/
def Pc.validates : Pc → Option (Word × Nat)
  | .readValidate k start _ => some (k, start)
  | _ => none

/-- When the step is a `read_validate`, fewer than `2^63` write sections have
passed since the matching `read_begin`. -/
def NoWrap (mask : Word) (s : ScState T Mem Pc) (a : T × Choice) : Prop :=
  ∀ x ∈ (s.pc a.1).validates, (s.mem.bucket (bucketFor mask x.1)).version < x.2 + 2 ^ 64

/-- The invariant holds at the start. -/
theorem inv_init : Inv mask (fun _ => []) (machine T slots mask).init where
  chain _ := rfl
  disjoint _ _ _ ha := nomatch ha
  live _ _ ha := nomatch ha
  pending _ _ ha := nomatch ha
  unique _ _ _ ha := nomatch ha
  lock _ _ _ ha := nomatch ha
  held _ _ ha := nomatch ha
  own _ _ ha := nomatch ha
  reader _ := trivial
  walk _ _ _ ha := nomatch ha

/-- **Every access keeps the invariant.** -/
theorem Inv.step {L : Word → List Addr} {s s' : ScState T Mem Pc} (h : Inv mask L s)
    {a : T × Choice} (hclear : DeleteClear mask s a)
    (hstep : (machine T slots mask).step s a = some s') : ∃ L', Inv mask L' s' := by
  obtain ⟨m, p, hnext, rfl⟩ := interleave_step_cases hstep
  obtain ⟨t, c⟩ := a
  cases hpc : s.pc t with
  | idle =>
      simp only [next, hpc] at hnext
      cases c with
      | getOptimistic k | call c =>
          obtain ⟨rfl, rfl⟩ := Prod.mk.inj (Option.some.inj hnext)
          exact ⟨L, h.outside rfl (by rw [hpc]; rfl) rfl trivial fun _ _ hc => nomatch hc⟩
      | _ => cases hnext
  | readBegin k =>
      simp only [next, hpc] at hnext
      obtain ⟨rfl, rfl⟩ := Prod.mk.inj (Option.some.inj hnext)
      refine ⟨L, ?_⟩
      split
      · exact h.outside rfl (by rw [hpc]; rfl) rfl trivial fun _ _ hc => nomatch hc
      · rename_i hodd
        have heven := (OccLock.odd_eq_false_iff _).mp (by simpa using hodd)
        refine h.outside rfl (by rw [hpc]; rfl) rfl ⟨heven, le_refl _, fun _ => ⟨?_, ?_⟩⟩
          fun _ _ hc => nomatch hc
        · simp [Find.cursor]
        · exact fun _ hr => hr
  | readFind k start f =>
      simp only [next, hpc] at hnext
      obtain ⟨rfl, rfl⟩ := Prod.mk.inj (Option.some.inj hnext)
      exact ⟨L, h.readStep hpc⟩
  | readValidate k start r =>
      simp only [next, hpc] at hnext
      obtain ⟨rfl, rfl⟩ := Prod.mk.inj (Option.some.inj hnext)
      refine ⟨L, ?_⟩
      split
      · exact h.outside rfl (by rw [hpc]; rfl) rfl trivial fun _ _ hc => nomatch hc
      · exact h.outside rfl (by rw [hpc]; rfl) rfl trivial fun _ _ hc => nomatch hc
  | readReturned k r | returned call r =>
      simp only [next, hpc] at hnext
      obtain ⟨rfl, rfl⟩ := Prod.mk.inj (Option.some.inj hnext)
      exact ⟨L, h.outside rfl (by rw [hpc]; rfl) rfl trivial fun _ _ hc => nomatch hc⟩
  | lockLoad call =>
      simp only [next, hpc] at hnext
      obtain ⟨rfl, rfl⟩ := Prod.mk.inj (Option.some.inj hnext)
      refine ⟨L, ?_⟩
      split
      · exact h.outside rfl (by rw [hpc]; rfl) rfl trivial fun _ _ hc => nomatch hc
      · rename_i hodd
        have heven := (OccLock.odd_eq_false_iff _).mp (by simpa using hodd)
        exact h.outside rfl (by rw [hpc]; rfl) rfl heven fun _ _ hc => nomatch hc
  | lockCas call v =>
      simp only [next, hpc] at hnext
      split at hnext
      · rename_i hcas
        obtain ⟨rfl, rfl⟩ := Prod.mk.inj (Option.some.inj hnext)
        have hv : v % 2 = 0 := by simpa [hpc, unlockedOk] using h.reader t
        have heven : (s.mem.bucket (bucketFor mask call.key)).version % 2 = 0 := by
          have hword := hcas.2
          simp only [OccLock.word] at hword
          omega
        refine ⟨L, h.bump (fun u _ hu => ?_) (fun b hb => ⟨?_, heven⟩) (fun m l => ?_)
          (by rw [hpc]; rfl) ?_ (fun m => ?_) ?_⟩
        · have hheld := h.held u _ hu
          omega
        · cases call <;> exact (Option.some.inj hb).symm
        · cases call <;> simp [Call.enter, ownOk, upsertOk, removeOk, Find.cursor]
        · cases call <;> rfl
        · cases call <;> trivial
        · cases call <;> rfl
      · obtain ⟨rfl, rfl⟩ := Prod.mk.inj (Option.some.inj hnext)
        exact ⟨L, h.outside rfl (by rw [hpc]; rfl) rfl trivial fun _ _ hc => nomatch hc⟩
  | getFind k f =>
      simp only [next, hpc] at hnext
      obtain ⟨rfl, rfl⟩ := Prod.mk.inj (Option.some.inj hnext)
      have hsec : (s.pc t).section mask = some (bucketFor mask k) := by rw [hpc]; rfl
      have hown := h.own t _ hsec
      rw [hpc] at hown
      refine ⟨L, ?_⟩
      cases hf : findStep s.mem (bucketFor mask k) k f with
      | inr r => exact h.quietSection hsec rfl (by rw [hpc]; rfl) rfl trivial
      | inl f' =>
          exact h.quietSection hsec rfl (by rw [hpc]; rfl) rfl
            (findStep_cursor (h.chain _) hown hf)
  | putIn k v u =>
      simp only [next, hpc] at hnext
      obtain ⟨r, hr, heq⟩ := Option.map_eq_some_iff.mp hnext
      obtain ⟨rfl, rfl⟩ := Prod.mk.inj heq
      exact h.upsert hpc hr
  | removeIn k r =>
      simp only [next, hpc] at hnext
      obtain ⟨x, hx, heq⟩ := Option.map_eq_some_iff.mp hnext
      obtain ⟨rfl, rfl⟩ := Prod.mk.inj heq
      refine h.remove hpc (fun v hv u c hu => ?_) hx
      have hdel : (s.pc t).deletesIn mask = some (bucketFor mask k) := by
        rw [hpc, hv]
        rfl
      have hreads := Pc.reads_of_walking hu
      exact hclear u (by simp [hreads]) (hreads.trans hdel.symm)
  | unlock call r =>
      simp only [next, hpc] at hnext
      obtain ⟨rfl, rfl⟩ := Prod.mk.inj (Option.some.inj hnext)
      have hsec : (s.pc t).section mask = some (bucketFor mask call.key) := by rw [hpc]; rfl
      refine ⟨L, h.bump (fun u hu hu' => hu (h.lock u t _ hu' hsec)) (fun _ hb => ?_)
        (fun _ _ => trivial) (by rw [hpc]; rfl) rfl (fun _ => trivial) rfl⟩
      cases hb

/-- The invariant holds throughout runs that keep deletions away from readers. -/
theorem inv_reachable {C : ScState T Mem Pc → T × Choice → Prop}
    (hC : ∀ s a, C s a → DeleteClear mask s a) {s : ScState T Mem Pc}
    (h : (machine T slots mask).ReachableUnder C s) : ∃ L, Inv mask L s := by
  refine h.invariant (I := fun s => ∃ L, Inv mask L s) ⟨_, inv_init⟩
    fun s a s' hinv hcond hstep => ?_
  obtain ⟨L, hinv⟩ := hinv
  exact hinv.step (hC s a hcond) hstep

/-- **Optimistic reads are safe as long as deletions stay away from readers.**  In
every run in which no `remove` deletes a node while an optimistic reader of the same
bucket is between its `read_begin` and its `read_validate`, and whose validations come
before the version wraps around, every dereference of `get_optimistic` is of a live
node, and every result it returns is the lookup of its key at the instant of the last
`read_validate`. -/
theorem optimistic_safe_of_clear {s : ScState T Mem Pc}
    (h : (machine T slots mask).ReachableUnder (fun s a => DeleteClear mask s a ∧ NoWrap mask s a) s) :
    (∀ t c, (s.pc t).cursor = some c → s.mem.live c = true) ∧
    ∀ t c k start r s', s.pc t = .readValidate k start r → NoWrap mask s (t, c) →
      (machine T slots mask).step s (t, c) = some s' → s'.pc t = .readReturned k r →
      Lookup mask s.mem k r := by
  obtain ⟨L, hinv⟩ := inv_reachable (fun _ _ hc => hc.1) h
  refine ⟨fun t c hc => hinv.cursor_live hc, ?_⟩
  intro t c k start r s' hpc hwrap hstep hret
  have hr := hinv.reader t
  rw [hpc] at hr
  obtain ⟨-, hle, hres⟩ := hr
  refine hres (OccLock.bumps_eq_of_word hle (hwrap (k, start) ?_) ?_)
  · simp [hpc, Pc.validates]
  obtain ⟨m, p, hnext, rfl⟩ := interleave_step_cases hstep
  simp only [next, hpc] at hnext
  obtain ⟨rfl, rfl⟩ := Prod.mk.inj (Option.some.inj hnext)
  simp only [Function.update_self] at hret
  by_contra hne
  rw [if_neg hne] at hret
  cases hret

end Invariant

section Schedules

/-- Key number `i` of those that fall into bucket 0 of a table of `1 << 16` buckets. -/
def keyAt (i : Nat) : Word := UInt64.ofNat (i * 65536)

/-- Thread 0 puts key number `i` into the bucket, which holds `i` inline keys. -/
def putInline (i : Nat) : List (Fin 2 × Choice) :=
  (0, .call (.put (keyAt i) 1)) :: List.replicate (2 * i + 13) (0, .go)

/-- Thread 0 puts a fifth key, which goes into the overflow chain. -/
def putOverflow : List (Fin 2 × Choice) :=
  (0, .call (.put (keyAt 4) 1)) ::
    (List.replicate 14 ((0, .go) : Fin 2 × Choice)).append
      ((0, .new 7) :: List.replicate 3 (0, .go))

/-- The bucket is filled. -/
def filled : List (Fin 2 × Choice) :=
  (putInline 0).append ((putInline 1).append ((putInline 2).append
    ((putInline 3).append putOverflow)))

/-- Thread 1 looks up the fifth key, as far as the overflow node. -/
def walkToNode : List (Fin 2 × Choice) :=
  (1, .getOptimistic (keyAt 4)) :: List.replicate 11 (1, .go)

/-- Thread 0 removes the fifth key. -/
def removeNode : List (Fin 2 × Choice) :=
  (0, .call (.remove (keyAt 4))) :: List.replicate 18 (0, .go)

/-- **Use after free.**  The reader has loaded the overflow node's address, the
node is unlinked and deleted, and the reader is about to read it. -/
theorem optimistic_reads_deleted :
    ∃ s, (machine (Fin 2) 4 65535).Reachable s ∧ (s.pc 1).cursor = some 7 ∧
      s.mem.live 7 = false := by
  have hrun : ((machine (Fin 2) 4 65535).run (filled.append (walkToNode.append removeNode))).map
      (fun s => ((s.pc 1).cursor, s.mem.live 7)) = some (some 7, false) := by
    decide +kernel
  obtain ⟨s, hs, hpc⟩ := Option.map_eq_some_iff.mp hrun
  exact ⟨s, Machine.reachable_of_run hs, congrArg Prod.fst hpc, congrArg Prod.snd hpc⟩

instance (mask : Word) (s : ScState (Fin 2) Mem Pc) (a : Fin 2 × Choice) :
    Decidable (DeleteClear mask s a) :=
  inferInstanceAs (Decidable (∀ _, _))

instance (mask : Word) (s : ScState (Fin 2) Mem Pc) (a : Fin 2 × Choice) :
    Decidable (NoWrap mask s a) :=
  inferInstanceAs (Decidable (∀ x ∈ (s.pc a.1).validates,
    (s.mem.bucket (bucketFor mask x.1)).version < x.2 + 2 ^ 64))

/-- Thread 1 looks up a key of another bucket; while it is at it, thread 0 removes the fifth
key of bucket 0.  Then thread 1 looks that key up. -/
def removeBetween : List (Fin 2 × Choice) :=
  List.flatten [filled, [(1, .getOptimistic 1), (1, .go), (1, .go)], removeNode, [(0, .go)],
    List.replicate 3 (1, .go), (1, .getOptimistic (keyAt 4)) :: List.replicate 11 (1, .go)]

/-- The deletion meets a reader of another bucket only, and the fifth key is found gone. -/
theorem optimistic_safe_filled :
    ∃ s s', (machine (Fin 2) 4 65535).ReachableUnder
        (fun s a => DeleteClear 65535 s a ∧ NoWrap 65535 s a) s ∧
      s.pc 1 = .readValidate (keyAt 4) 12 none ∧
      (machine (Fin 2) 4 65535).step s (1, .go) = some s' ∧
      s'.pc 1 = .readReturned (keyAt 4) none ∧
      Lookup 65535 s.mem (keyAt 4) none := by
  have hrun : (((machine (Fin 2) 4 65535).runChecked
      (fun s a => decide (DeleteClear 65535 s a ∧ NoWrap 65535 s a)) (machine (Fin 2) 4 65535).init
      removeBetween).bind fun s =>
        ((machine (Fin 2) 4 65535).step s (1, .go)).map fun s' =>
          (s.pc 1, s'.pc 1, decide (NoWrap 65535 s (1, .go)))) =
      some (.readValidate (keyAt 4) 12 none, .readReturned (keyAt 4) none, true) := by
    decide +kernel
  obtain ⟨s, hs, hrun⟩ := Option.bind_eq_some_iff.mp hrun
  obtain ⟨s', hstep, hpcs⟩ := Option.map_eq_some_iff.mp hrun
  simp only [Prod.mk.injEq, decide_eq_true_eq] at hpcs
  obtain ⟨hpc, hret, hwrap⟩ := hpcs
  have hreach := Machine.reachableUnder_of_runChecked (fun _ _ => of_decide_eq_true) hs
  exact ⟨s, s', hreach, hpc, hstep, hret,
    (optimistic_safe_of_clear hreach).2 1 .go _ _ _ s' hpc hwrap hstep hret⟩

end Schedules

end HashIndex
