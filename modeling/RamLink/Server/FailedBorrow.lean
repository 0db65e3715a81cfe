import RamLink.Server.Allocator

/-!
# RamLink.Server.FailedBorrow

A BORROW that raises, on any connection.

`borrow` raises at one of its two checks, when only expired leases have left the table, or while it
sends its reply, when the new lease is in the table and its block is zeroed.

* `leavesNothing_iff`: a BORROW that raises leaves memory and live leases as they were exactly if it
  did not get to a region whose reply then failed.
* `leavesNothing_fails`: the connection breaks with the first byte of the reply.
-/

namespace RamLink

open Lib

namespace RAMLinkServer

/-- The same bytes and, at the reading `now`, the same live leases; so a later BORROW finds what it
would have found. -/
structure Untouched (now : Time) (s s' : RamPool) : Prop where
  memory : s'.memory = s.memory
  leases : ∀ i l, l.Alive now → (s'.leases.get? i = some l ↔ s.leases.get? i = some l)
  room : ∀ now', now ≤ now' → ∀ n, findFreeRegion now' n s' = findFreeRegion now' n s

/-- If the request raises, it leaves nothing behind. -/
def LeavesNothing (x : Request) (s : RamPool) : Prop :=
  ∀ e t, (handle x.now x.op x.offset x.length).run (s, x.conn) = .error e t → Untouched x.now s t.1

/-- The BORROW passes its checks and then cannot pack or send its reply. -/
def LosesReply (h : History) (x : Request) : Prop :=
  0 < x.length ∧ (∃ c, h.Vacant x.now (RamPool.roundUp x.length) c) ∧
    (256 ^ 8 ≤ h.pool.nextLeaseId ∨ x.conn.fails 2 = true)

/-- A cleanup is not seen by a scan at its reading or later. -/
theorem findFreeRegion_cleanup {now now' : Time} (hn : now ≤ now') (n : Nat) (s : RamPool) :
    findFreeRegion now' n (s.cleanup now) = findFreeRegion now' n s := by
  have hlive : (s.cleanup now).leases.values.filter (fun l => decide (l.Alive now')) =
      s.leases.values.filter (fun l => decide (l.Alive now')) := by
    simp only [RamPool.cleanup, Dict.values, Dict.filter, List.filter_map, List.filter_filter]
    congr 1
    refine List.filter_congr fun e _ => ?_
    simp only [Function.comp_apply, Bool.and_eq_left_iff_imp, decide_eq_true_eq]
    exact fun hl => hl.mono hn
  unfold findFreeRegion
  rw [hlive]
  rfl

theorem untouched_cleanup (now : Time) (s : RamPool) : Untouched now s (s.cleanup now) := by
  refine ⟨rfl, fun i l hl => ?_, fun now' hn n => findFreeRegion_cleanup hn n s⟩
  rw [RamPool.get?_cleanup, and_iff_left hl]

/-- A grant is no such state: the new lease is live. -/
theorem not_untouched_granted {now : Time} {s : RamPool} (ht : s.Tabled) (a n : Nat) :
    ¬ Untouched now s (granted now a n (s.cleanup now)) := by
  intro h
  have hnew : (granted now a n (s.cleanup now)).leases.get? s.nextLeaseId = some (Lease.new now a n) := by
    rw [granted_leases, RamPool.cleanup_nextLeaseId, if_pos rfl]
  have hold := (h.leases _ _ (Lease.new_alive now a n)).mp hnew
  exact absurd (ht.fresh _ _ hold) (lt_irrefl _)

/-- What a lease reply does on any connection. -/
theorem sendLeaseReply_cases (i a n : Nat) (s : RamPool) (c : Conn) :
    (∃ c', (sendLeaseReply i a n).run (s, c) = .ok () (s, c') ∧ (leaseReply i a n c).isSome) ∨
    (∃ e c', (sendLeaseReply i a n).run (s, c) = .error e (s, c') ∧ ¬ (leaseReply i a n c).isSome) := by
  have ho := outcome_sendLeaseReply i a n s c
  unfold outcome at ho
  cases hr : (sendLeaseReply i a n).run (s, c) with
  | ok u t =>
    rw [hr] at ho
    obtain ⟨p, c'⟩ := t
    obtain ⟨h1, rfl⟩ := Prod.mk.inj ho
    exact .inl ⟨c', rfl, by rw [← h1]; rfl⟩
  | error e t =>
    rw [hr] at ho
    obtain ⟨p, c'⟩ := t
    obtain ⟨h1, rfl⟩ := Prod.mk.inj ho
    exact .inr ⟨e, c', rfl, by rw [← h1]; simp⟩

/-- A BORROW that raises leaves nothing behind unless its reply is lost. -/
theorem leavesNothing_of_inv {h : History} (hi : h.Inv) {x : Request} (hop : x.op = opBorrow)
    (hn : h.now ≤ x.now) : LeavesNothing x h.pool ↔ ¬ LosesReply h x := by
  obtain ⟨hsome, hnone⟩ := findFreeRegion_vacant hi hn (RamPool.roundUp x.length)
  have hrun : (handle x.now x.op x.offset x.length).run (h.pool, x.conn) =
      (borrow x.now x.length).run (h.pool, x.conn) := by rw [hop]; rfl
  unfold LeavesNothing
  rw [hrun, run_borrow]
  by_cases hz : RamPool.roundUp x.length ≤ 0 ∨ (h.pool.cleanup x.now).size < RamPool.roundUp x.length
  · -- the size check
    rw [if_pos hz]
    refine iff_of_true (fun e t he => ?_) fun hl => ?_
    · cases he
      exact untouched_cleanup x.now h.pool
    · obtain ⟨hpos, ⟨c, hc, -⟩, -⟩ := hl
      have := RamPool.roundUp_pos.mpr hpos
      rw [RamPool.cleanup_size] at hz
      omega
  · rw [if_neg hz]
    have hpos : 0 < x.length := RamPool.roundUp_pos.mp (by omega)
    cases hf : findFreeRegion x.now (RamPool.roundUp x.length) (h.pool.cleanup x.now) with
    | none =>
      refine iff_of_true (fun e t he => ?_) fun hl => ?_
      · cases he
        exact untouched_cleanup x.now h.pool
      · obtain ⟨-, ⟨c, hc⟩, -⟩ := hl
        exact hnone.mp hf c hc
    | some c =>
      have hpl := hi.placed hz hf
      have hin := hpl.inside
      have hsmall := hi.small
      -- the offset and the length fit, so the reply fails on the id or on the connection
      have hreply : (leaseReply h.pool.nextLeaseId c (RamPool.roundUp x.length) x.conn).isSome ↔
          h.pool.nextLeaseId < 256 ^ 8 ∧ x.conn.fails 2 = false := by
        rw [leaseReply_isSome]
        constructor
        · rintro ⟨⟨h1, -, -⟩, h2⟩
          exact ⟨h1, h2⟩
        · rintro ⟨h1, h2⟩
          exact ⟨⟨h1, by omega, by omega⟩, h2⟩
      have hlost : LosesReply h x ↔
          ¬ (leaseReply h.pool.nextLeaseId c (RamPool.roundUp x.length) x.conn).isSome := by
        rw [hreply, LosesReply, and_iff_right hpos, and_iff_right ⟨c, (hsome c hf).1⟩, not_and_or,
          Nat.not_lt, Bool.not_eq_false]
      rw [hlost, not_not]
      rcases sendLeaseReply_cases h.pool.nextLeaseId c (RamPool.roundUp x.length)
        (granted x.now c (RamPool.roundUp x.length) (h.pool.cleanup x.now)) x.conn with
        ⟨c', hr, hs⟩ | ⟨e, c', hr, hs⟩
      · refine iff_of_true (fun e t he => ?_) hs
        simp only [hr] at he
        cases he
      · refine iff_of_false (fun hall => ?_) hs
        exact not_untouched_granted hi.tabled c _ (hall e _ hr)

/-- **A failed BORROW leaves nothing behind**, in every reachable state and on every connection,
exactly if it is not the reply of a granted lease that fails. -/
theorem leavesNothing_iff {sizeMb : Int} {pool : RamPool} (hinit : RamPool.init sizeMb = .ok pool)
    (now : Time) {xs : List Request} {h : History}
    (hexec : exec History.next (History.start pool now) xs = some h) {x : Request}
    (hop : x.op = opBorrow) (hn : h.now ≤ x.now) : LeavesNothing x h.pool ↔ ¬ LosesReply h x :=
  leavesNothing_of_inv (exec_inv inv_next (inv_start hinit now) hexec) hop hn

/-- Over an expired and a released lease: on a working connection, and on one that breaks with the first
byte of the reply, after which the lease is in the table. -/
theorem leavesNothing_iff_holed : ∃ h, exec History.next (History.start RamPool.fresh 0) holed = some h ∧
    (LeavesNothing (borrowTwo []) h.pool ↔ ¬ LosesReply h (borrowTwo [])) ∧
    (LeavesNothing (borrowTwo [some 0]) h.pool ↔ ¬ LosesReply h (borrowTwo [some 0])) ∧
    (after (borrowTwo [some 0]) h.pool).leases.get? 4 = some ⟨0, 1024, 240⟩ := by
  have hruns : (exec History.next (History.start RamPool.fresh 0) holed).map
      (fun h => (h.now, (after (borrowTwo [some 0]) h.pool).leases.get? 4)) =
      some (20, some ⟨0, 1024, 240⟩) := by decide +kernel
  obtain ⟨h, hrun, hm⟩ := Option.map_eq_some_iff.mp hruns
  simp only [Prod.mk.injEq] at hm
  obtain ⟨hnow, hafter⟩ := hm
  have hn : ∀ faults, h.now ≤ (borrowTwo faults).now := by
    intro faults
    rw [hnow, borrowTwo]
    norm_num
  exact ⟨h, hrun, leavesNothing_iff RamPool.init_one 0 hrun rfl (hn []),
    leavesNothing_iff RamPool.init_one 0 hrun rfl (hn [some 0]), hafter⟩

/-- A BORROW of one sector, on a connection that breaks with the first byte of the reply. -/
def borrowBroken : Request := ⟨0, opBorrow, 0, 512, { inbox := [], faults := [some 0] }⟩

/-- The lease is recorded although its owner never hears of it. -/
theorem leavesNothing_fails : RamPool.init 1 = .ok RamPool.fresh ∧
    ¬ LeavesNothing borrowBroken RamPool.fresh := by
  have hi := inv_start RamPool.init_one 0
  refine ⟨RamPool.init_one, fun h => (leavesNothing_of_inv hi rfl (le_refl 0)).mp h ?_⟩
  refine ⟨by decide, ⟨0, by decide, fun i l hl => ?_⟩, .inr rfl⟩
  obtain ⟨g, hg, -⟩ := hl
  cases hg

end RAMLinkServer

end RamLink
