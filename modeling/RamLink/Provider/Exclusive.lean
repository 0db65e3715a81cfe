import RamLink.Provider.Threads

/-!
# RamLink.Provider.Exclusive

Exclusive leases of `RAMProvider`, under any interleaving of its handlers.

The scan of a BORROW looks at every lease in the table, alive or not, so a lease that expires and
is then extended by a KEEPALIVE under way has kept its range to itself. The window between the scan
and the insertion is all that is left.

* `leasesApart_iff`: the leases in the table are disjoint in every state of a run exactly if every
  region is still free when it is inserted.
* `exclusive_of_serial`: so they are if no BORROW scans while another has a region to insert,
  whatever the other requests do.
-/

namespace RamLink

open Lib

namespace RAMProvider

/-- The leases in the table are disjoint, whether they are alive or not. -/
def LeasesApart (s : State) : Prop :=
  ∀ i j l m, i ≠ j → s.shared.leases.get? i = some l → s.shared.leases.get? j = some m →
    Apart l.offset l.length m.offset m.length

/-- No lease in the table meets the range. -/
def Unleased (s : RamPool) (offset length : Nat) : Prop :=
  ∀ i l, s.leases.get? i = some l → Apart offset length l.offset l.length

/-- The region a handler inserts is free at that moment. -/
def InsertsUnleased (s : State) : Step → Prop
  | .critical tid =>
    match s.pc tid with
    | .borrowInsert offset length => Unleased s.shared offset length
    | _ => True
  | _ => True

/-! ## One section and the table -/

/-- Only an insertion gives a range to an id. -/
theorem entries_effect {now : Time} {s s' : RamPool} {pc : Pc} (he : Effect now s pc s')
    (hi : ∀ a n, pc ≠ .borrowInsert a n) {i : Nat} {l' : Lease} (hl' : s'.leases.get? i = some l') :
    ∃ l, s.leases.get? i = some l ∧ l'.offset = l.offset ∧ l'.length = l.length := by
  cases he with
  | same => exact ⟨l', hl', rfl, rfl⟩
  | cleanup => exact ⟨l', (RamPool.get?_cleanup.mp hl').1, rfl, rfl⟩
  | pop j => exact (narrows_popLease j s).kept i l' hl'
  | insert a n => exact absurd rfl (hi a n)
  | keepalive j => exact RamPool.get?_keepaliveLease_some hl'
  | zero => exact ⟨l', hl', rfl, rfl⟩
  | store => exact ⟨l', hl', rfl, rfl⟩

theorem LeasesApart.effect {s s' : State} {pc : Pc} (h : LeasesApart s)
    (he : Effect s.now s.shared pc s'.shared) (hi : ∀ a n, pc ≠ .borrowInsert a n) : LeasesApart s' := by
  intro i j l m hij hl hm
  obtain ⟨l0, hl0, hlo, hln⟩ := entries_effect he hi hl
  obtain ⟨m0, hm0, hmo, hmn⟩ := entries_effect he hi hm
  rw [hlo, hln, hmo, hmn]
  exact h i j l0 m0 hij hl0 hm0

theorem Unleased.effect {now : Time} {s s' : RamPool} {pc : Pc} {offset length : Nat}
    (h : Unleased s offset length) (he : Effect now s pc s') (hi : ∀ a n, pc ≠ .borrowInsert a n) :
    Unleased s' offset length := by
  intro i l hl
  obtain ⟨l0, hl0, hlo, hln⟩ := entries_effect he hi hl
  rw [hlo, hln]
  exact h i l0 hl0

/-- The insertion section, which takes an id that is not in the table. -/
theorem leasesApart_insert {s s' : State} {offset length : Nat} (h : LeasesApart s) (ht : s.shared.Tabled)
    (hp : s'.shared = (s.shared.insertLease s.now offset length).2) :
    LeasesApart s' ↔ Unleased s.shared offset length := by
  have hget := RamPool.get?_insertLease s.now offset length s.shared
  have hold : ∀ i l, s.shared.leases.get? i = some l → i ≠ s.shared.nextLeaseId :=
    fun i l hl => Nat.ne_of_lt (ht.fresh i l hl)
  constructor
  · intro h' i l hl
    refine h' s.shared.nextLeaseId i (Lease.new s.now offset length) l (Ne.symm (hold i l hl)) ?_ ?_
    · rw [hp, hget, if_pos rfl]
    · rw [hp, hget, if_neg (hold i l hl), hl]
  · intro hu i j l m hij hl hm
    rw [hp, hget] at hl hm
    split at hl <;> rename_i hi
    · cases hl
      rw [if_neg (fun hj => hij (hi.trans hj.symm))] at hm
      exact hu j m hm
    · split at hm <;> rename_i hj
      · cases hm
        exact (hu i l hl).symm
      · exact h i j l m hij hl hm

/-- Among disjoint leases, a step leads to disjoint ones exactly if its guard holds. -/
theorem leasesApart_step {s s' : State} {a : Step} (hw : WellFormed s) (h : LeasesApart s)
    (hs : thread.step s a = some s') : LeasesApart s' ↔ InsertsUnleased s a := by
  obtain ⟨now, rfl, -, rfl⟩ | ⟨tid, pool, pc, rfl, ha, rfl⟩ | ⟨tid, pc, hne, -, rfl⟩ :=
    Machine.step_cases hs
  · exact iff_of_true h trivial
  · by_cases hi : ∃ b n, s.pc tid = .borrowInsert b n
    · obtain ⟨b, n, hpc⟩ := hi
      rw [hpc] at ha
      cases ha
      simp only [InsertsUnleased, hpc]
      exact leasesApart_insert h hw.1.2 rfl
    · have hno : ∀ b n, s.pc tid ≠ .borrowInsert b n := fun b n hpc => hi ⟨b, n, hpc⟩
      refine iff_of_true (h.effect (advance_effect ha) hno) ?_
      simp only [InsertsUnleased]
  · refine iff_of_true h ?_
    cases a
    case critical k => exact absurd rfl (hne k)
    all_goals trivial

theorem leasesApart_start {sizeMb : Int} {pool : RamPool} (h : RamPool.init sizeMb = .ok pool)
    (now : Time) : LeasesApart (thread.start pool now) := by
  obtain ⟨hp, -, -, -⟩ := RamPool.init_ok h
  intro i j l m _ hl
  rw [Machine.start, hp] at hl
  cases hl

/-- **Exclusivity under concurrency**: a run of any threads in any interleaving has disjoint leases
in every state exactly if every region it inserts is free at that moment. -/
theorem leasesApart_iff {sizeMb : Int} {pool : RamPool} (h : RamPool.init sizeMb = .ok pool)
    (now : Time) (as : List Step) :
    Always thread.step LeasesApart (thread.start pool now) as ↔
      Guarded thread.step InsertsUnleased (thread.start pool now) as :=
  always_iff_guarded (fun _ _ _ hw hs => wellFormed_step hw hs)
    (fun _ _ _ hw hx hs => leasesApart_step hw hx hs) (wellFormed_start h now) (leasesApart_start h now)

/-- One BORROW on a fresh provider of 1 MiB. -/
theorem leasesApart_iff_borrow :
    Always thread.step LeasesApart (thread.start RamPool.fresh 0) (borrowBy 0) ↔
      Guarded thread.step InsertsUnleased (thread.start RamPool.fresh 0) (borrowBy 0) :=
  leasesApart_iff RamPool.init_one 0 _

/-! ## One BORROW at a time -/

/-- A BORROW that has found its region and not inserted it yet. -/
def Pc.Inserting : Pc → Prop
  | .borrowInsert _ _ => True
  | _ => False

/-- No BORROW scans while another has a region to insert. -/
def Serial (s : State) : Step → Prop
  | .critical tid =>
    match s.pc tid with
    | .borrowScan _ => ∀ k, ¬ (s.pc k).Inserting
    | _ => True
  | _ => True

/-- At most one handler has a region to insert, and no lease meets it. -/
structure Reserved (s : State) : Prop where
  wellFormed : WellFormed s
  apart : LeasesApart s
  alone : ∀ j k, (s.pc j).Inserting → (s.pc k).Inserting → j = k
  unleased : ∀ k offset length, s.pc k = .borrowInsert offset length →
    Unleased s.shared offset length

/-- A handler comes to an insertion only from its scan, and no lease meets what the scan found. -/
theorem advance_inserting {now : Time} {s s' : RamPool} {pc : Pc} {offset length : Nat} (ht : s.Tabled)
    (h : advance now s pc = some (s', .borrowInsert offset length)) :
    pc = .borrowScan length ∧ s' = s ∧ Unleased s offset length := by
  cases pc
  case borrowScan n =>
    simp only [advance, Option.some.injEq, Prod.mk.injEq] at h
    obtain ⟨rfl, h⟩ := h
    cases hf : s.scan n s.leases.values with
    | none => rw [hf] at h; cases h
    | some c =>
      rw [hf] at h
      cases h
      refine ⟨rfl, rfl, fun i l hl => ?_⟩
      have hin : ∀ l ∈ s.leases.values, l.offset + l.length ≤ s.size := by
        intro l hm
        obtain ⟨j, hj⟩ := Dict.mem_values.mp hm
        exact (ht.placed j l hj).inside
      exact ((RamPool.scan_spec hin).1 _ hf).1.2 l (Dict.mem_values.mpr ⟨i, hl⟩)
  case borrowZero i a n =>
    simp only [advance, Option.some.injEq, Prod.mk.injEq] at h
    obtain ⟨-, h⟩ := h
    cases hf : packLeaseReply i a n <;> rw [hf] at h <;> cases h
  case releasePop i =>
    simp only [advance] at h
    split at h <;> cases h
  case keepaliveLookup i =>
    simp only [advance, Option.some.injEq, Prod.mk.injEq] at h
    obtain ⟨-, h⟩ := h
    cases hf : s.leases.get? i <;> rw [hf] at h <;> cases h
  case access op a n =>
    simp only [advance, Option.some.injEq, Prod.mk.injEq] at h
    obtain ⟨-, h⟩ := h
    cases hf : findLease now a n s with
    | none => rw [hf] at h; cases h
    | some e =>
      rw [hf] at h
      simp only [received] at h
      split at h
      · split at h <;> cases h
      · cases h
  all_goals cases h

theorem dispatch_inserting (s : RamPool) (op offset length : Nat) : ¬ (dispatch s op offset length).Inserting :=
  dispatch_rule (P := fun pc => ¬ pc.Inserting) s op offset length id id id (fun _ => id) id id fun _ => id

/-- A move comes to no insertion. -/
theorem moves_inserting {s : RamPool} {pc pc' : Pc} (h : thread.Moves s pc pc') : ¬ pc'.Inserting := by
  rcases h with ⟨r, h⟩ | ⟨chunk, h⟩ | h | rfl
  · cases pc <;> cases h
    exact dispatch_inserting s r.1 r.2.1 r.2.2
  · cases pc
    case receive w got =>
      simp only [thread, received] at h
      split at h
      · simp only [Option.some.injEq] at h
        split at h <;> cases h <;> exact id
      · cases h
    all_goals cases h
  · cases pc <;> cases h
    exact id
  · exact id

theorem Pc.Inserting.elim {pc : Pc} (h : pc.Inserting) : ∃ offset length, pc = .borrowInsert offset length := by
  cases pc
  case borrowInsert a n => exact ⟨a, n, rfl⟩
  all_goals cases h

/-- A handler with a region to insert before a step of another has it still afterwards, and has it
to itself. -/
theorem Reserved.critical {s : State} (h : Reserved s) {tid : Nat} {pool : RamPool} {pc : Pc}
    (hserial : Serial s (.critical tid)) (ha : advance s.now s.shared (s.pc tid) = some (pool, pc))
    (hw : WellFormed ({ s with shared := pool }.goto tid pc)) :
    Reserved ({ s with shared := pool }.goto tid pc) := by
  have he := advance_effect ha
  have hguard : InsertsUnleased s (.critical tid) := by
    simp only [InsertsUnleased]
    split
    · exact h.unleased tid _ _ ‹_›
    · trivial
  have hstep : thread.step s (.critical tid) = some ({ s with shared := pool }.goto tid pc) := by
    simp only [Machine.step, thread, ha, Option.map_some]
  have hscan : pc.Inserting → ∀ k, ¬ (s.pc k).Inserting := by
    intro hpc
    obtain ⟨a, n, rfl⟩ := hpc.elim
    have hfrom := (advance_inserting h.wellFormed.1.2 ha).1
    simpa only [Serial, hfrom] using hserial
  refine ⟨hw, (leasesApart_step h.wellFormed h.apart hstep).mpr hguard, fun j k hj hk => ?_,
    fun k a n hk => ?_⟩
  · rw [Threads.goto_pc] at hj hk
    split at hj <;> split at hk
    · exact ‹j = tid›.trans ‹k = tid›.symm
    · exact absurd hk (hscan hj k)
    · exact absurd hj (hscan hk j)
    · exact h.alone j k hj hk
  · rw [Threads.goto_pc] at hk
    rw [Threads.goto_shared]
    split at hk
    · subst hk
      obtain ⟨-, rfl, hu⟩ := advance_inserting h.wellFormed.1.2 ha
      exact hu
    · refine (h.unleased k a n hk).effect he fun b m hb => ?_
      have := h.alone k tid (by rw [hk]; trivial) (by rw [hb]; trivial)
      exact absurd this ‹_›

theorem reserved_step {s s' : State} {a : Step} (h : Reserved s) (hserial : Serial s a)
    (hs : thread.step s a = some s') : Reserved s' := by
  have hw := wellFormed_step h.wellFormed hs
  obtain ⟨now, rfl, -, rfl⟩ | ⟨tid, pool, pc, rfl, ha, rfl⟩ | ⟨tid, pc, -, hm, rfl⟩ :=
    Machine.step_cases hs
  · exact ⟨hw, h.apart, h.alone, h.unleased⟩
  · exact h.critical hserial ha hw
  · have hback : ∀ k, ((s.goto tid pc).pc k).Inserting → (s.goto tid pc).pc k = s.pc k := by
      intro k hk
      rw [Threads.goto_pc] at hk ⊢
      split at hk
      · exact absurd hk (moves_inserting hm)
      · rw [if_neg ‹_›]
    refine ⟨hw, h.apart, fun j k hj hk => ?_, fun k a n hk => ?_⟩
    · rw [hback j hj] at hj
      rw [hback k hk] at hk
      exact h.alone j k hj hk
    · have hins : ((s.goto tid pc).pc k).Inserting := by rw [hk]; trivial
      rw [hback k hins] at hk
      exact h.unleased k a n hk

theorem reserved_start {sizeMb : Int} {pool : RamPool} (h : RamPool.init sizeMb = .ok pool) (now : Time) :
    Reserved (thread.start pool now) :=
  ⟨wellFormed_start h now, leasesApart_start h now, fun _ _ hj => (nomatch hj), fun _ _ _ hk => (nomatch hk)⟩

/-- **One BORROW at a time is enough**: in a run of any threads in which no BORROW scans while another
has a region to insert, the leases are disjoint in every state, however INFO, KEEPALIVE, RELEASE,
READ, WRITE, the clock and lost connections interleave with them. -/
theorem exclusive_of_serial {sizeMb : Int} {pool : RamPool} (h : RamPool.init sizeMb = .ok pool)
    (now : Time) (as : List Step) (hserial : Guarded thread.step Serial (thread.start pool now) as) :
    Always thread.step LeasesApart (thread.start pool now) as :=
  (always_of_guarded (fun _ _ _ hr hc hs => reserved_step hr hc hs) (reserved_start h now) hserial).mono
    fun _ hr => hr.apart

/-- A KEEPALIVE between the sections of a BORROW. -/
theorem exclusive_of_serial_keepalive : Always thread.step LeasesApart (thread.start RamPool.fresh 0)
    [.request 0 (opBorrow, 0, 512), .request 1 (opKeepalive, 1, 0), .critical 0, .critical 1, .critical 0,
      .critical 1, .critical 0] := by
  refine exclusive_of_serial RamPool.init_one 0 _ ?_
  refine Guarded.cons rfl trivial (Guarded.cons rfl trivial (Guarded.cons rfl trivial ?_))
  refine Guarded.cons rfl trivial (Guarded.cons rfl ?_ ?_)
  · rintro (_ | _ | k) hk <;> cases hk
  · exact Guarded.cons rfl trivial (Guarded.cons rfl trivial trivial)

end RAMProvider

end RamLink
