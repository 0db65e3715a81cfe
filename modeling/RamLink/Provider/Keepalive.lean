import RamLink.Provider.Threads

/-!
# RamLink.Provider.Keepalive

What an acknowledged KEEPALIVE of `RAMProvider` is worth, under any interleaving.

The handler purges, looks the lease up and extends it in three sections. A `Promise` is the ghost
record of an extension: the lease with its range, and the expiry that was set.

* `kept_of_timely`: in a run in which every extension finds its lease still in the table and every
  BORROW inserts a region that is free at that moment, the lease of every acknowledged KEEPALIVE
  stays in the table until the promised expiry, and no region that meets it is granted before.
* `kept_fails`: the lease runs out and is purged between lookup and extension.
-/

namespace RamLink

open Lib

namespace RAMProvider

structure Promise where
  leaseId : Nat
  offset : Nat
  length : Nat
  expiry : Time

structure Promises where
  /-- The lease object the last lookup of a thread has found. -/
  found : Nat → Option Lease
  /-- The last extension of a thread. -/
  made : Nat → Option Promise
  /-- The extensions whose reply has been sent. -/
  acked : List Promise
  released : List Nat

namespace Promises

def start : Promises := ⟨fun _ => none, fun _ => none, [], []⟩

def note (p : Promises) (s : State) : Step → Promises
  | .critical tid =>
    match s.pc tid with
    | .keepaliveLookup leaseId =>
      { p with found := Function.update p.found tid (s.shared.leases.get? leaseId) }
    | .keepaliveUpdate leaseId =>
      { p with made := Function.update p.made tid ((p.found tid).map fun l =>
          ⟨leaseId, l.offset, l.length, s.now + leaseSeconds⟩) }
    | .releasePop leaseId =>
      if (s.shared.leases.get? leaseId).isSome then { p with released := leaseId :: p.released } else p
    | _ => p
  | .send tid =>
    match s.pc tid with
    | .reply r => if r.op = opKeepalive then { p with acked := (p.made tid).toList ++ p.acked } else p
    | _ => p
  | _ => p

/-- An expiry that a KEEPALIVE has set, whether it has been acknowledged yet or not. -/
def Given (p : Promises) (k : Promise) : Prop := k ∈ p.acked ∨ ∃ tid, p.made tid = some k

end Promises

def promised (s : State × Promises) (a : Step) : Option (State × Promises) :=
  (thread.step s.1 a).map fun s' => (s', s.2.note s.1 a)

/-- What is asked of a state: an acknowledged lease that has not been released is in the table until
the expiry that was set. -/
def Kept (s : State × Promises) : Prop :=
  ∀ k ∈ s.2.acked, k.leaseId ∉ s.2.released → s.1.now < k.expiry →
    ∃ l, s.1.shared.leases.get? k.leaseId = some l ∧ l.offset = k.offset ∧ l.length = k.length

/-- What is asked of an action: no BORROW grants a region that meets such a lease. -/
def GrantsApart (s : State × Promises) : Step → Prop
  | .critical tid =>
    match s.1.pc tid with
    | .borrowInsert offset length => ∀ k, s.2.Given k → k.leaseId ∉ s.2.released → s.1.now < k.expiry →
        Apart offset length k.offset k.length
    | _ => True
  | _ => True

/-- An extension finds its lease still in the table, unless it was released; and the region a BORROW
inserts has not been taken since it was found. -/
def Timely (s : State × Promises) : Step → Prop
  | .critical tid =>
    match s.1.pc tid with
    | .keepaliveUpdate leaseId =>
      leaseId ∉ s.2.released → ∃ l, s.1.shared.leases.get? leaseId = some l
    | .borrowInsert offset length => ∀ j m, s.1.shared.leases.get? j = some m → m.Alive s.1.now →
        Apart offset length m.offset m.length
    | _ => True
  | _ => True

/-! ## What a section does to one lease -/

/-- A lease that is alive until `e` at least stays so, unless it is released. -/
theorem kept_effect {now e : Time} {s s' : RamPool} {pc : Pc} (he : Effect now s pc s') (ht : s.Tabled)
    {i : Nat} {l : Lease} (hl : s.leases.get? i = some l) (ha : now < e) (hle : e ≤ l.expiresAt)
    (hmax : e ≤ now + leaseSeconds) (hp : pc ≠ .releasePop i) :
    ∃ l', s'.leases.get? i = some l' ∧ l'.offset = l.offset ∧ l'.length = l.length ∧ e ≤ l'.expiresAt := by
  cases he with
  | same => exact ⟨l, hl, rfl, rfl, hle⟩
  | cleanup => exact ⟨l, RamPool.get?_cleanup.mpr ⟨hl, lt_of_lt_of_le ha hle⟩, rfl, rfl, hle⟩
  | pop j =>
    have hne : i ≠ j := fun h => hp (by rw [h])
    exact ⟨l, by rw [RamPool.get?_popLease, if_neg hne, hl], rfl, rfl, hle⟩
  | insert a n =>
    have hne : i ≠ s.nextLeaseId := Nat.ne_of_lt (ht.fresh i l hl)
    exact ⟨l, by rw [RamPool.get?_insertLease, if_neg hne, hl], rfl, rfl, hle⟩
  | keepalive j =>
    rw [RamPool.get?_keepaliveLease, hl]
    split
    · exact ⟨l.keepalive now, rfl, rfl, rfl, hmax⟩
    · exact ⟨l, rfl, rfl, rfl, hle⟩
  | zero => exact ⟨l, hl, rfl, rfl, hle⟩
  | store => exact ⟨l, hl, rfl, rfl, hle⟩

/-- An id that has been given out keeps its range as long as it is in the table. -/
theorem range_effect {now : Time} {s s' : RamPool} {pc : Pc} (he : Effect now s pc s') {i : Nat}
    (hi : i < s.nextLeaseId) {l' : Lease} (hl' : s'.leases.get? i = some l') :
    ∃ l, s.leases.get? i = some l ∧ l'.offset = l.offset ∧ l'.length = l.length := by
  cases he with
  | same => exact ⟨l', hl', rfl, rfl⟩
  | cleanup => exact ⟨l', (RamPool.get?_cleanup.mp hl').1, rfl, rfl⟩
  | pop j =>
    rw [RamPool.get?_popLease] at hl'
    split at hl'
    · cases hl'
    · exact ⟨l', hl', rfl, rfl⟩
  | insert a n =>
    rw [RamPool.get?_insertLease, if_neg (Nat.ne_of_lt hi)] at hl'
    exact ⟨l', hl', rfl, rfl⟩
  | keepalive j => exact RamPool.get?_keepaliveLease_some hl'
  | zero => exact ⟨l', hl', rfl, rfl⟩
  | store => exact ⟨l', hl', rfl, rfl⟩

theorem nextLeaseId_effect {now : Time} {s s' : RamPool} {pc : Pc} (he : Effect now s pc s') :
    s.nextLeaseId ≤ s'.nextLeaseId := by
  cases he
  case insert => exact Nat.le_succ _
  all_goals exact le_refl _

/-! ## The invariant -/

/-- The range of the lease a thread is about to extend, as far as it is still in the table. -/
def Found (p : RamPool) (found : Option Lease) (i : Nat) : Prop :=
  ∃ l, found = some l ∧ i < p.nextLeaseId ∧
    ∀ l', p.leases.get? i = some l' → l'.offset = l.offset ∧ l'.length = l.length

structure KeepsPromises (s : State × Promises) : Prop where
  wellFormed : WellFormed s.1
  found : ∀ tid i, s.1.pc tid = .keepaliveUpdate i → Found s.1.shared (s.2.found tid) i
  bound : ∀ k, s.2.Given k → k.expiry ≤ s.1.now + leaseSeconds
  held : ∀ k, s.2.Given k → k.leaseId ∉ s.2.released → s.1.now < k.expiry →
    ∃ l, s.1.shared.leases.get? k.leaseId = some l ∧ l.offset = k.offset ∧ l.length = k.length ∧
      k.expiry ≤ l.expiresAt

theorem keepsPromises_start {sizeMb : Int} {pool : RamPool} (h : RamPool.init sizeMb = .ok pool) (now : Time) :
    KeepsPromises (thread.start pool now, .start) := by
  have hnone : ∀ k, ¬ Promises.start.Given k := by
    rintro k (hk | ⟨tid, hk⟩) <;> cases hk
  exact ⟨wellFormed_start h now, fun _ _ hpc => (nomatch hpc), fun k hk => absurd hk (hnone k),
    fun k hk => absurd hk (hnone k)⟩

theorem promised_some {s t : State × Promises} {a : Step} (h : promised s a = some t) :
    thread.step s.1 a = some t.1 ∧ t.2 = s.2.note s.1 a := by
  obtain ⟨s', hs, rfl⟩ := Option.map_eq_some_iff.mp h
  exact ⟨hs, rfl⟩

theorem Found.effect {now : Time} {s s' : RamPool} {pc : Pc} (he : Effect now s pc s')
    {found : Option Lease} {i : Nat} (h : Found s found i) : Found s' found i := by
  obtain ⟨l, hl, hi, hr⟩ := h
  refine ⟨l, hl, Nat.lt_of_lt_of_le hi (nextLeaseId_effect he), fun l' hl' => ?_⟩
  obtain ⟨m, hm, ho, hn⟩ := range_effect he hi hl'
  rw [ho, hn]
  exact hr m hm

/-- A thread comes to an extension only from its lookup. -/
theorem advance_update {now : Time} {s s' : RamPool} {pc : Pc} {i : Nat} (ht : s.Tabled)
    (h : advance now s pc = some (s', .keepaliveUpdate i)) :
    pc = .keepaliveLookup i ∧ s' = s ∧ Found s (s.leases.get? i) i := by
  cases pc
  case keepaliveLookup j =>
    simp only [advance, Option.some.injEq, Prod.mk.injEq] at h
    obtain ⟨rfl, h⟩ := h
    cases hg : s.leases.get? j with
    | none => rw [hg] at h; cases h
    | some l =>
      rw [hg] at h
      cases h
      refine ⟨rfl, rfl, l, hg, ht.fresh _ _ hg, fun l' hl' => ?_⟩
      rw [hg] at hl'
      cases hl'
      exact ⟨rfl, rfl⟩
  case borrowScan n =>
    simp only [advance, Option.some.injEq, Prod.mk.injEq] at h
    obtain ⟨-, h⟩ := h
    cases hf : s.scan n s.leases.values <;> rw [hf] at h <;> cases h
  case borrowZero j a n =>
    simp only [advance, Option.some.injEq, Prod.mk.injEq] at h
    obtain ⟨-, h⟩ := h
    cases hf : packLeaseReply j a n <;> rw [hf] at h <;> cases h
  case releasePop j =>
    simp only [advance] at h
    split at h <;> cases h
  case access op a n =>
    simp only [advance, Option.some.injEq, Prod.mk.injEq] at h
    obtain ⟨-, h⟩ := h
    cases hf : findLease now a n s with
    | none => rw [hf] at h; cases h
    | some e =>
      rw [hf] at h
      simp only [received] at h
      split at h
      · split at h <;> cases h
      · cases h
  all_goals cases h

/-- A move comes to no extension. -/
theorem moves_update {s : RamPool} {pc : Pc} {i : Nat} : ¬ thread.Moves s pc (.keepaliveUpdate i) := by
  rintro (⟨r, h⟩ | ⟨chunk, h⟩ | h | h)
  · cases pc
    case idle =>
      simp only [thread, Option.some.injEq] at h
      refine dispatch_rule (P := fun q => q ≠ .keepaliveUpdate i) s r.1 r.2.1 r.2.2 ?_ ?_ ?_
        (fun _ => ?_) ?_ ?_ (fun _ => ?_) h
      all_goals
        intro hq
        cases hq
    all_goals cases h
  · cases pc
    case receive w got =>
      simp only [thread, received] at h
      split at h
      · simp only [Option.some.injEq] at h
        split at h <;> cases h
      · cases h
    all_goals cases h
  · cases pc <;> cases h
  · cases h

theorem goto_update {s : State} {tid k i : Nat} {pc : Pc} (hm : thread.Moves s.shared (s.pc tid) pc)
    (h : (s.goto tid pc).pc k = .keepaliveUpdate i) : s.pc k = .keepaliveUpdate i := by
  rw [Threads.goto_pc] at h
  split at h
  · rw [h] at hm
    exact absurd hm moves_update
  · exact h

/-- The invariant where the pool is unchanged and the promises say no more. -/
theorem KeepsPromises.move {s : State × Promises} (h : KeepsPromises s) {s' : State} {p : Promises}
    (hw : WellFormed s') (hpool : s'.shared = s.1.shared) (hn : s.1.now ≤ s'.now)
    (hpc : ∀ tid i, s'.pc tid = .keepaliveUpdate i → s.1.pc tid = .keepaliveUpdate i)
    (hfound : p.found = s.2.found) (hrel : p.released = s.2.released)
    (hgiven : ∀ k, p.Given k → s.2.Given k) : KeepsPromises (s', p) := by
  refine ⟨hw, fun tid i hi => ?_, fun k hk => ?_, fun k hk hr ha => ?_⟩
  · rw [hfound, hpool]
    exact h.found tid i (hpc tid i hi)
  · have := h.bound k (hgiven k hk)
    simp only
    linarith
  · rw [hrel] at hr
    simp only [hpool]
    exact h.held k (hgiven k hk) hr (lt_of_le_of_lt hn ha)

/-- A critical section, from what it does to the promises. -/
theorem KeepsPromises.critical {s : State × Promises} (h : KeepsPromises s) {tid : Nat} {pool : RamPool}
    {pc : Pc} {p : Promises} (ha : advance s.1.now s.1.shared (s.1.pc tid) = some (pool, pc))
    (hw : WellFormed ({ s.1 with shared := pool }.goto tid pc))
    (hfound : ∀ k, k ≠ tid → p.found k = s.2.found k)
    (hself : ∀ i, pc = .keepaliveUpdate i → Found pool (p.found tid) i)
    (hrel : ∀ i, i ∉ p.released → i ∉ s.2.released)
    (hpop : ∀ i l, s.1.pc tid = .releasePop i → s.1.shared.leases.get? i = some l → i ∈ p.released)
    (hnew : ∀ k, p.Given k → s.2.Given k ∨ (k.expiry ≤ s.1.now + leaseSeconds ∧
      (k.leaseId ∉ p.released → ∃ l, pool.leases.get? k.leaseId = some l ∧ l.offset = k.offset ∧
        l.length = k.length ∧ k.expiry ≤ l.expiresAt))) :
    KeepsPromises ({ s.1 with shared := pool }.goto tid pc, p) := by
  have he := advance_effect ha
  refine ⟨hw, fun k i hi => ?_, fun k hk => ?_, fun k hk hr hlt => ?_⟩
  · rw [Threads.goto_pc] at hi
    by_cases hk : k = tid
    · rw [if_pos hk] at hi
      rw [hk]
      exact hself i hi
    · rw [if_neg hk] at hi
      show Found pool (p.found k) i
      rw [hfound k hk]
      exact (h.found k i hi).effect he
  · rcases hnew k hk with hold | ⟨hb, -⟩
    · exact h.bound k hold
    · exact hb
  · rcases hnew k hk with hold | ⟨-, hl⟩
    · obtain ⟨l, hl, ho, hn, hx⟩ := h.held k hold (hrel _ hr) hlt
      have hne : s.1.pc tid ≠ .releasePop k.leaseId := fun hpc => hr (hpop _ l hpc hl)
      obtain ⟨l', hl', ho', hn', hx'⟩ :=
        kept_effect he h.wellFormed.1.2 hl hlt hx (h.bound k hold) hne
      exact ⟨l', hl', ho'.trans ho, hn'.trans hn, hx'⟩
    · exact hl hr

/-- A critical section, with the promise it makes or ends. -/
theorem KeepsPromises.noted {s : State × Promises} (h : KeepsPromises s) {tid : Nat} {pool : RamPool} {pc : Pc}
    (ht : Timely s (.critical tid)) (ha : advance s.1.now s.1.shared (s.1.pc tid) = some (pool, pc))
    (hw : WellFormed ({ s.1 with shared := pool }.goto tid pc)) :
    KeepsPromises ({ s.1 with shared := pool }.goto tid pc, s.2.note s.1 (.critical tid)) := by
  have hreach : ∀ i, pc = .keepaliveUpdate i → s.1.pc tid = .keepaliveLookup i ∧
      pool = s.1.shared ∧ Found s.1.shared (s.1.shared.leases.get? i) i := by
    rintro i rfl
    exact advance_update h.wellFormed.1.2 ha
  have hend : (∀ i, s.1.pc tid ≠ .keepaliveLookup i) → ∀ j, pc ≠ .keepaliveUpdate j :=
    fun hno j hj => hno j (hreach j hj).1
  cases hpc : s.1.pc tid
  case keepaliveLookup i =>
    simp only [Promises.note, hpc]
    refine h.critical ha hw (fun k hk => Function.update_of_ne hk _ _) (fun j hj => ?_)
      (fun _ hr => hr) (fun j l hj => by rw [hpc] at hj; cases hj) fun k hk => .inl hk
    obtain ⟨hl, hp, hf⟩ := hreach j hj
    rw [hpc] at hl
    cases hl
    rw [hp]
    show Found s.1.shared (Function.update s.2.found tid _ tid) i
    rw [Function.update_self]
    exact hf
  case keepaliveUpdate i =>
    simp only [Promises.note, hpc]
    refine h.critical ha hw (fun _ _ => rfl) (fun j hj => absurd hj (hend (by simp [hpc]) j)) (fun _ hr => hr)
      (fun j l hj => by rw [hpc] at hj; cases hj) fun k hk => ?_
    rcases hk with hk | ⟨t, hk⟩
    · exact .inl (.inl hk)
    · by_cases hkt : t = tid
      · -- the promise made in this section
        subst hkt
        have hmade : Function.update s.2.made t ((s.2.found t).map fun l =>
          (⟨i, l.offset, l.length, s.1.now + leaseSeconds⟩ : Promise)) t = some k := hk
        rw [Function.update_self] at hmade
        obtain ⟨l0, hl0, -, hr0⟩ := h.found t i hpc
        rw [hl0, Option.map_some, Option.some.injEq] at hmade
        subst hmade
        refine .inr ⟨le_refl _, fun hr => ?_⟩
        simp only [Timely, hpc] at ht
        obtain ⟨l, hl⟩ := ht hr
        obtain ⟨ho, hn⟩ := hr0 l hl
        rw [hpc] at ha
        cases ha
        refine ⟨l.keepalive s.1.now, ?_, ho, hn, le_refl _⟩
        rw [RamPool.get?_keepaliveLease, if_pos rfl, hl, Option.map_some]
      · have hold : Function.update s.2.made tid _ t = some k := hk
        rw [Function.update_of_ne hkt] at hold
        exact .inl (.inr ⟨t, hold⟩)
  case releasePop i =>
    simp only [Promises.note, hpc]
    split
    · refine h.critical ha hw (fun _ _ => rfl) (fun j hj => absurd hj (hend (by simp [hpc]) j))
        (fun j hj hm => hj (List.mem_cons_of_mem i hm)) (fun j l hj _ => ?_) fun k hk => .inl hk
      rw [hpc] at hj
      cases hj
      exact List.mem_cons_self ..
    · rename_i hnone
      refine h.critical ha hw (fun _ _ => rfl) (fun j hj => absurd hj (hend (by simp [hpc]) j)) (fun _ hr => hr)
        (fun j l hj hl => ?_) fun k hk => .inl hk
      rw [hpc] at hj
      cases hj
      rw [hl] at hnone
      exact absurd rfl hnone
  all_goals
    simp only [Promises.note, hpc]
    exact h.critical ha hw (fun _ _ => rfl) (fun j hj => absurd hj (hend (by simp [hpc]) j)) (fun _ hr => hr)
      (fun j l hj => by rw [hpc] at hj; cases hj) fun k hk => .inl hk

theorem keepsPromises_step (s : State × Promises) (a : Step) (t : State × Promises)
    (h : KeepsPromises s) (ht : Timely s a) (hs : promised s a = some t) : KeepsPromises t := by
  obtain ⟨hstep, hnote⟩ := promised_some hs
  have hw := wellFormed_step h.wellFormed hstep
  obtain ⟨t, p⟩ := t
  simp only at hstep hnote hw
  subst hnote
  cases a with
  | tick now =>
    simp only [Machine.step] at hstep
    split at hstep
    · rename_i hn
      cases hstep
      exact h.move hw rfl hn (fun _ _ hi => hi) rfl rfl fun _ hk => hk
    · cases hstep
  | request tid r =>
    obtain ⟨pc, he, rfl⟩ := Option.map_eq_some_iff.mp hstep
    exact h.move hw rfl (le_refl _) (fun _ _ => goto_update (.inl ⟨r, he⟩)) rfl rfl fun _ hk => hk
  | payload tid data =>
    obtain ⟨pc, he, rfl⟩ := Option.map_eq_some_iff.mp hstep
    exact h.move hw rfl (le_refl _) (fun _ _ => goto_update (.inr (.inl ⟨data, he⟩))) rfl rfl
      fun _ hk => hk
  | send tid =>
    obtain ⟨pc, he, rfl⟩ := Option.map_eq_some_iff.mp hstep
    have hpc : ∀ k i, (s.1.goto tid pc).pc k = .keepaliveUpdate i → s.1.pc k = .keepaliveUpdate i :=
      fun _ _ => goto_update (.inr (.inr (.inl he)))
    cases hr : s.1.pc tid
    case reply r =>
      simp only [Promises.note, hr]
      split
      · -- the promise of this thread is acknowledged
        refine h.move hw rfl (le_refl _) hpc rfl rfl ?_
        rintro k (hk | hk)
        · rcases List.mem_append.mp hk with hk | hk
          · rw [Option.mem_toList] at hk
            exact .inr ⟨tid, hk⟩
          · exact .inl hk
        · exact .inr hk
      · exact h.move hw rfl (le_refl _) hpc rfl rfl fun _ hk => hk
    all_goals
      simp only [thread, hr] at he
      cases he
  | abort tid =>
    cases hstep
    exact h.move hw rfl (le_refl _) (fun _ _ => goto_update (.inr (.inr (.inr rfl)))) rfl rfl
      fun _ hk => hk
  | critical tid =>
    obtain ⟨⟨pool, pc⟩, ha, rfl⟩ := Option.map_eq_some_iff.mp hstep
    exact h.noted ht ha hw

theorem kept_of_keepsPromises {s : State × Promises} (h : KeepsPromises s) : Kept s := by
  intro k hk hr hlt
  obtain ⟨l, hl, ho, hn, -⟩ := h.held k (.inl hk) hr hlt
  exact ⟨l, hl, ho, hn⟩

theorem grantsApart_of_keepsPromises {s : State × Promises} (h : KeepsPromises s) {a : Step}
    (ht : Timely s a) : GrantsApart s a := by
  cases a with
  | critical tid =>
    simp only [GrantsApart]
    cases hpc : s.1.pc tid
    case borrowInsert offset length =>
      simp only [Timely, hpc] at ht
      intro k hk hr hlt
      obtain ⟨l, hl, ho, hn, hx⟩ := h.held k hk hr hlt
      rw [← ho, ← hn]
      exact ht _ l hl (lt_of_lt_of_le hlt hx)
    all_goals trivial
  | tick now => trivial
  | request tid r => trivial
  | payload tid data => trivial
  | send tid => trivial
  | abort tid => trivial

/-- **An acknowledged KEEPALIVE protects its lease**, in every run, of any threads in any
interleaving, each of whose extensions finds its lease in the table and each of whose BORROWs
inserts a region that is still free. -/
theorem kept_of_timely {sizeMb : Int} {pool : RamPool} (hinit : RamPool.init sizeMb = .ok pool)
    (now : Time) (as : List Step)
    (ht : Guarded promised Timely (thread.start pool now, .start) as) :
    Always promised Kept (thread.start pool now, .start) as ∧
      Guarded promised GrantsApart (thread.start pool now, .start) as :=
  ⟨(always_of_guarded (fun s a t hi hc hs => keepsPromises_step s a t hi hc hs)
      (keepsPromises_start hinit now) ht).mono fun _ h => kept_of_keepsPromises h,
    Guarded.imp (fun s a t hi hc hs => keepsPromises_step s a t hi hc hs)
      (fun _ _ hi hc => grantsApart_of_keepsPromises hi hc) (keepsPromises_start hinit now) ht⟩

/-- The lookup of a lease that is in the table. -/
theorem promised_lookup {s : State × Promises} {tid i : Nat} {l : Lease}
    (hpc : s.1.pc tid = .keepaliveLookup i) (hl : s.1.shared.leases.get? i = some l) :
    promised s (.critical tid) = some (s.1.goto tid (.keepaliveUpdate i),
      { s.2 with found := Function.update s.2.found tid (some l) }) := by
  simp only [promised, Machine.step, thread, hpc, advance, hl, Promises.note, Option.map_some]

/-- A BORROW, and a KEEPALIVE of its lease up to the lookup. -/
def borrowAndPurge : List Step := borrowBy 0 ++ [.request 0 (opKeepalive, 1, 0), .critical 0]

/-- A BORROW and a KEEPALIVE, nothing in between. -/
theorem kept_of_timely_once :
    Always promised Kept (thread.start RamPool.fresh 0, .start)
        (borrowAndPurge ++ [.critical 0, .critical 0, .send 0]) ∧
      Guarded promised GrantsApart (thread.start RamPool.fresh 0, .start)
        (borrowAndPurge ++ [.critical 0, .critical 0, .send 0]) := by
  refine kept_of_timely RamPool.init_one 0 _ ?_
  have hlive : (Lease.new 0 0 512).Alive 0 := Lease.new_alive 0 0 512
  refine Guarded.cons rfl trivial (Guarded.cons rfl trivial (Guarded.cons rfl trivial ?_))
  refine Guarded.cons rfl ?_ (Guarded.cons rfl trivial (Guarded.cons rfl trivial ?_))
  · intro j m hj
    cases hj
  refine Guarded.cons rfl trivial (Guarded.cons rfl trivial ?_)
  refine Guarded.cons (promised_lookup rfl (RamPool.get?_cleanup.mpr ⟨rfl, hlive⟩)) trivial ?_
  refine Guarded.cons rfl ?_ ?_
  · intro _
    exact ⟨Lease.new 0 0 512, RamPool.get?_cleanup.mpr ⟨rfl, hlive⟩⟩
  · exact Guarded.cons rfl trivial trivial

/-- Before thread 0 extends the lease it has looked up, the lease runs out, and an INFO request of
thread 1 purges it. -/
def lapse : List Step := [.tick 120, .request 1 (opInfo, 0, 0), .critical 1, .critical 0, .send 0]

/-- The KEEPALIVE is acknowledged, with expiry 240, for a lease that is gone. -/
theorem kept_fails : RamPool.init 1 = .ok RamPool.fresh ∧
    ¬ Always promised Kept (thread.start RamPool.fresh 0, .start)
      (borrowAndPurge ++ .critical 0 :: lapse) := by
  refine ⟨RamPool.init_one, fun h => ?_⟩
  have hlive : (Lease.new 0 0 512).Alive 0 := Lease.new_alive 0 0 512
  have hrun : ∃ r s p t, exec promised (thread.start RamPool.fresh 0, .start) borrowAndPurge = some r ∧
      promised r (.critical 0) = some s ∧ exec promised s lapse = some t ∧
      t.1.now = 120 ∧ t.2.acked = [⟨1, 0, 512, 120 + leaseSeconds⟩] ∧ t.2.released = [] ∧
      t.1.shared = (RamPool.cleanup 120 p).keepaliveLease 120 1 ∧
      p.leases.get? 1 = some (Lease.new 0 0 512) :=
    ⟨_, _, _, _, rfl, promised_lookup rfl (RamPool.get?_cleanup.mpr ⟨rfl, hlive⟩), rfl, rfl, rfl, rfl,
      rfl, RamPool.get?_cleanup.mpr ⟨rfl, hlive⟩⟩
  obtain ⟨r, s, p, t, hr, hs, ht, hnow, hacked, hrel, hpool, hold⟩ := hrun
  have hgone : t.1.shared.leases.get? 1 = none := by
    cases hg : t.1.shared.leases.get? 1 with
    | none => rfl
    | some l =>
      rw [hpool] at hg
      obtain ⟨m, hm, -⟩ := RamPool.get?_keepaliveLease_some hg
      obtain ⟨hm, hdead⟩ := RamPool.get?_cleanup.mp hm
      rw [hold] at hm
      cases hm
      simp [Lease.Alive, Lease.new, leaseSeconds] at hdead
  have hex : exec promised (thread.start RamPool.fresh 0, .start)
      (borrowAndPurge ++ .critical 0 :: lapse) = some t :=
    exec_append.mpr ⟨r, hr, exec_cons_some.mpr ⟨s, hs, ht⟩⟩
  rw [← List.append_nil (borrowAndPurge ++ _)] at h
  obtain ⟨l, hl, -⟩ := h.of_exec hex ⟨1, 0, 512, 120 + leaseSeconds⟩
    (by rw [hacked]; exact List.mem_cons_self ..) (by rw [hrel]; exact List.not_mem_nil)
    (by rw [hnow]; exact Lease.now_lt_expiry 120)
  rw [hgone] at hl
  cases hl

end RAMProvider

end RamLink
