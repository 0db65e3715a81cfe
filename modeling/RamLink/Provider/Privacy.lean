import RamLink.Lib.Run
import RamLink.Provider

/-!
# RamLink.Provider.Privacy

A `RAMProvider` lease is private to its own lifetime.

A sequential history is a list of requests with non-decreasing clock readings; it keeps a log of
what was granted and what was stored, the latest event first. `lastByte` reads off the log what a
position of a lease has to hold: the byte of the latest WRITE since the lease was granted, or zero.

* `inv_next`: the leases of the table are pairwise disjoint, and each one's bytes are those of
  the log since its grant. No clock is involved: a scan follows a cleanup and sees every lease left.
* `read_private`: what a READ returns.
-/

namespace RamLink

open Lib

namespace RAMProvider

inductive Event where
  | granted (leaseId offset length : Nat)
  /-- A WRITE whose payload was stored, with the lease its range check found. -/
  | stored (leaseId offset : Nat) (data : Bytes)

namespace Event

def leaseId : Event → Nat
  | granted i _ _ => i
  | stored i _ _ => i

def offset : Event → Nat
  | granted _ a _ => a
  | stored _ a _ => a

def length : Event → Nat
  | granted _ _ n => n
  | stored _ _ data => data.length

def grants (i : Nat) : Event → Bool
  | granted j _ _ => decide (j = i)
  | stored .. => false

/-- The byte a WRITE put at position `p`, if it covered it. -/
def byteAt (p : Nat) : Event → Option UInt8
  | granted .. => none
  | stored _ a data => if a ≤ p then data[p - a]? else none

end Event

/-- The events after the grant of lease `i`. -/
def since (i : Nat) (log : List Event) : List Event := log.takeWhile (fun e => !e.grants i)

def lastByte (i p : Nat) (log : List Event) : UInt8 :=
  ((since i log).findSome? (Event.byteAt p)).getD 0

/-- What a request adds to the log of the history. -/
def record (x : Request) (s : RamPool) : List Event :=
  if Stores x s then
    match findLease x.now x.offset x.length s with
    | some (i, _) => [.stored i x.offset (x.conn.inbox.take x.length)]
    | none => []
  else
    match (after x s).leases.get? s.nextLeaseId with
    | some l => [.granted s.nextLeaseId l.offset l.length]
    | none => []

structure History where
  pool : RamPool
  now : Time
  log : List Event

def History.start (pool : RamPool) (now : Time) : History := ⟨pool, now, []⟩

/-- The next request; its clock reading is not before the last one. -/
def History.next (h : History) (x : Request) : Option History :=
  if h.now ≤ x.now then some ⟨after x h.pool, x.now, record x h.pool ++ h.log⟩ else none

/-! ## Reading the log -/

theorem since_granted (i j a n : Nat) (log : List Event) :
    since i (.granted j a n :: log) = if j = i then [] else .granted j a n :: since i log := by
  by_cases h : j = i <;> simp [since, Event.grants, h]

theorem since_stored (i j a : Nat) (data : Bytes) (log : List Event) :
    since i (.stored j a data :: log) = .stored j a data :: since i log := rfl

theorem lastByte_granted (i j a n p : Nat) (log : List Event) :
    lastByte i p (.granted j a n :: log) = if j = i then 0 else lastByte i p log := by
  unfold lastByte
  rw [since_granted]
  split <;> rfl

theorem lastByte_stored (i j a p : Nat) (data : Bytes) (log : List Event) :
    lastByte i p (.stored j a data :: log) =
      (Event.byteAt p (.stored j a data)).getD (lastByte i p log) := by
  unfold lastByte
  rw [since_stored, List.findSome?_cons]
  cases Event.byteAt p (.stored j a data) <;> rfl

/-- A store changes the bytes of a buffer as its event changes the last bytes. -/
theorem splice_byteAt {memory data : Bytes} {a p : Nat} {b : UInt8} (j : Nat)
    (h : a + data.length ≤ memory.length) (hb : memory[p]? = some b) :
    (splice memory a data)[p]? = some ((Event.byteAt p (.stored j a data)).getD b) := by
  rw [getElem?_splice memory data h, Event.byteAt]
  by_cases hp : a ≤ p
  · rw [if_pos hp]
    by_cases hq : p < a + data.length
    · rw [if_pos ⟨hp, hq⟩, List.getElem?_eq_getElem (by omega), Option.getD_some]
    · rw [if_neg (fun hc => hq hc.2), hb, List.getElem?_eq_none (by omega), Option.getD_none]
  · rw [if_neg (fun hc => hp hc.1), if_neg hp, hb, Option.getD_none]

/-! ## The invariant -/

/-- The bytes `[a, a + n)` are those of lease `i`, and nobody else has touched them since. -/
structure Owned (s : RamPool) (log : List Event) (i a n : Nat) : Prop where
  granted : .granted i a n ∈ log
  bytes : ∀ p, a ≤ p → p < a + n → s.memory[p]? = some (lastByte i p log)
  others : ∀ e ∈ since i log, e.leaseId ≠ i → Apart e.offset e.length a n

structure History.Inv (h : History) : Prop where
  sized : h.pool.Sized
  tabled : h.pool.Tabled
  apart : ∀ i j l m, i ≠ j → h.pool.leases.get? i = some l → h.pool.leases.get? j = some m →
    Apart l.offset l.length m.offset m.length
  owned : ∀ i l, h.pool.leases.get? i = some l → Owned h.pool h.log i l.offset l.length

theorem inv_start {sizeMb : Int} {pool : RamPool} (h : RamPool.init sizeMb = .ok pool) (now : Time) :
    (History.start pool now).Inv := by
  obtain ⟨hp, -, -, -⟩ := RamPool.init_ok h
  have hnone : ∀ i l, pool.leases.get? i ≠ some l := by
    intro i l hl
    rw [hp] at hl
    cases hl
  exact ⟨RamPool.init_sized h, RamPool.init_tabled h, fun i _ l _ _ hl => absurd hl (hnone i l),
    fun i l hl => absurd hl (hnone i l)⟩

/-- A step that narrows the table and logs nothing. -/
theorem History.Inv.narrow {h : History} (hi : h.Inv) {s' : RamPool} (hn : Narrows h.pool s') (now : Time) :
    History.Inv ⟨s', now, h.log⟩ := by
  refine ⟨⟨?_, ?_⟩, ⟨?_, ?_⟩, ?_, ?_⟩
  · show s'.memory.length = s'.size
    rw [hn.memory, hn.size]
    exact hi.sized.length_memory
  · show sectorSize ∣ s'.size
    rw [hn.size]
    exact hi.sized.sector_dvd
  · intro i l' hl'
    obtain ⟨l, hl, ho, hlen⟩ := hn.kept i l' hl'
    rw [ho, hlen]
    show RamPool.Placed s'.size l.offset l.length
    rw [hn.size]
    exact hi.tabled.placed i l hl
  · intro i l' hl'
    obtain ⟨l, hl, -, -⟩ := hn.kept i l' hl'
    show i < s'.nextLeaseId
    rw [hn.nextLeaseId]
    exact hi.tabled.fresh i l hl
  · intro i j l' m' hij hl' hm'
    obtain ⟨l, hl, ho, hlen⟩ := hn.kept i l' hl'
    obtain ⟨m, hm, ho', hlen'⟩ := hn.kept j m' hm'
    rw [ho, hlen, ho', hlen']
    exact hi.apart i j l m hij hl hm
  · intro i l' hl'
    obtain ⟨l, hl, ho, hlen⟩ := hn.kept i l' hl'
    obtain ⟨hg, hb, hothers⟩ := hi.owned i l hl
    rw [ho, hlen]
    refine ⟨hg, fun p h1 h2 => ?_, hothers⟩
    show s'.memory[p]? = _
    rw [hn.memory]
    exact hb p h1 h2

/-- A grant: the new lease starts from zeroed bytes, and the others keep theirs. -/
theorem History.Inv.grant {h : History} (hi : h.Inv) {now : Time} {offset requested : Nat}
    (hr : 0 < requested) (hf : h.pool.scan (RamPool.roundUp requested) h.pool.leases.values = some offset) :
    History.Inv ⟨((h.pool.insertLease now offset (RamPool.roundUp requested)).2).zero offset
      (RamPool.roundUp requested), now,
      .granted h.pool.nextLeaseId offset (RamPool.roundUp requested) :: h.log⟩ := by
  have hvalues : ∀ l ∈ h.pool.leases.values, ∃ i, h.pool.leases.get? i = some l :=
    fun l hl => Dict.mem_values.mp hl
  have hpl := RamPool.scan_placed hi.tabled hvalues hr hf
  have hfree := ((RamPool.scan_spec (fun l hl => by
    obtain ⟨i, hil⟩ := hvalues l hl
    exact (hi.tabled.placed i l hil).inside)).1 offset hf).1
  generalize RamPool.roundUp requested = n at hpl hfree ⊢
  have hnew : ∀ i l, h.pool.leases.get? i = some l → Apart offset n l.offset l.length :=
    fun i l hl => hfree.2 l (Dict.mem_values.mpr ⟨i, hl⟩)
  have hget := RamPool.get?_insertLease now offset n h.pool
  have hmem : (((h.pool.insertLease now offset n).2).zero offset n).memory =
      splice h.pool.memory offset (List.replicate n 0) :=
    RamPool.store_memory hi.sized.length_memory (List.length_replicate ..) hpl.inside
  have hb : offset + (List.replicate n (0 : UInt8)).length ≤ h.pool.memory.length := by
    rw [List.length_replicate, hi.sized.length_memory]
    exact hpl.inside
  refine ⟨?_, ?_, ?_, ?_⟩
  · have hs : (h.pool.insertLease now offset n).2.Sized :=
      ⟨hi.sized.length_memory, hi.sized.sector_dvd⟩
    exact hs.store (List.length_replicate ..) hpl.inside
  · exact (hi.tabled.insertLease now hpl).store _ _ _
  · intro i j l m hij hl hm
    simp only [RamPool.zero_leases, hget] at hl hm
    split at hl <;> rename_i hni
    · cases hl
      rw [if_neg (fun hj => hij (hni.trans hj.symm))] at hm
      exact hnew j m hm
    · split at hm <;> rename_i hnj
      · cases hm
        exact (hnew i l hl).symm
      · exact hi.apart i j l m hij hl hm
  · intro i l hl
    simp only [RamPool.zero_leases, hget] at hl
    split at hl <;> rename_i hni
    · -- the new lease: zeroed, and the log since its grant is empty
      cases hl
      refine ⟨by rw [hni]; exact List.mem_cons_self .., fun p h1 h2 => ?_, ?_⟩
      · rw [Lease.new_offset] at h1 h2
        rw [Lease.new_length] at h2
        rw [hmem, lastByte_granted, if_pos hni.symm, getElem?_splice _ _ hb,
          if_pos ⟨h1, by rw [List.length_replicate]; exact h2⟩, List.getElem?_replicate,
          if_pos (by omega)]
      · rw [since_granted, if_pos hni.symm]
        intro e he
        cases he
    · obtain ⟨hg, hbytes, hothers⟩ := hi.owned i l hl
      have hap := hnew i l hl
      refine ⟨List.mem_cons_of_mem _ hg, fun p h1 h2 => ?_, ?_⟩
      · rw [hmem, lastByte_granted, if_neg (Ne.symm hni), getElem?_splice _ _ hb, if_neg]
        · exact hbytes p h1 h2
        · rw [List.length_replicate]
          simp only [Apart] at hap
          omega
      · rw [since_granted, if_neg (Ne.symm hni)]
        intro e he hne
        rcases List.mem_cons.mp he with rfl | he
        · exact hap
        · exact hothers e he hne

/-- A WRITE under lease `i`: its own bytes follow the log, and no other lease is touched. -/
theorem History.Inv.stored {h : History} (hi : h.Inv) (now : Time) {offset i : Nat} (data : Bytes) {l : Lease}
    (hl : h.pool.leases.get? i = some l) (ho : l.offset ≤ offset)
    (hn : offset + data.length ≤ l.offset + l.length) :
    History.Inv ⟨h.pool.store offset data.length data, now, .stored i offset data :: h.log⟩ := by
  have hin : offset + data.length ≤ h.pool.size := by
    have := (hi.tabled.placed i l hl).inside
    omega
  have hmem := RamPool.store_memory hi.sized.length_memory (rfl : data.length = _) hin
  refine ⟨hi.sized.store rfl hin, hi.tabled.store _ _ _, hi.apart, ?_⟩
  intro j m hm
  obtain ⟨hg, hbytes, hothers⟩ := hi.owned j m hm
  refine ⟨List.mem_cons_of_mem _ hg, fun p h1 h2 => ?_, ?_⟩
  · rw [hmem, lastByte_stored]
    exact splice_byteAt i (by rw [hi.sized.length_memory]; exact hin) (hbytes p h1 h2)
  · rw [since_stored]
    intro e he hne
    rcases List.mem_cons.mp he with rfl | he
    · exact (hi.apart i j l m hne hl hm).mono ho hn
    · exact hothers e he hne

/-- Each request keeps the invariant. -/
theorem inv_next (h : History) (x : Request) (h' : History) (hi : h.Inv) (hs : h.next x = some h') :
    h'.Inv := by
  unfold History.next at hs
  split at hs
  swap
  · cases hs
  cases hs
  have ho := handle_outcome x h.pool
  unfold record
  generalize hafter : after x h.pool = s' at ho ⊢
  cases ho with
  | narrow hn hns =>
    have hnone : s'.leases.get? h.pool.nextLeaseId = none := by
      rw [Option.eq_none_iff_forall_ne_some]
      intro l' hl'
      obtain ⟨l, hl, -, -⟩ := hn.kept _ l' hl'
      exact Nat.lt_irrefl _ (hi.tabled.fresh _ l hl)
    rw [if_neg hns, hnone]
    exact hi.narrow hn x.now
  | grant offset hop hr hf =>
    rw [if_neg (not_stores_of_op hop (by decide))]
    have hnew : (((h.pool.cleanup x.now).insertLease x.now offset
        (RamPool.roundUp x.length)).2.zero offset (RamPool.roundUp x.length)).leases.get?
        h.pool.nextLeaseId = some (Lease.new x.now offset (RamPool.roundUp x.length)) := by
      rw [RamPool.zero_leases, RamPool.get?_insertLease, RamPool.cleanup_nextLeaseId, if_pos rfl]
    rw [hnew]
    exact (hi.narrow (narrows_cleanup x.now h.pool) x.now).grant hr hf
  | store i l hop hfits hf hwhole =>
    have hst : Stores x h.pool := ⟨hop, hfits, by rw [hf]; rfl, hwhole⟩
    obtain ⟨hl, -, ho, hn⟩ := findLease_some hf
    have hlen : (x.conn.inbox.take x.length).length = x.length := by simp [hwhole]
    rw [if_pos hst, hf]
    have := hi.stored x.now (x.conn.inbox.take x.length) hl ho (by rw [hlen]; exact hn)
    rw [hlen] at this
    exact this

/-- **A lease is private to its own lifetime**: in every history from a fresh provider, an answered
READ lies in exactly one live lease, and every byte it returns is the one the latest WRITE since
that lease's grant stored there, or zero. No other lease's grant or WRITE met the lease since. -/
theorem read_private {sizeMb : Int} {pool : RamPool} (hinit : RamPool.init sizeMb = .ok pool)
    (now : Time) {xs : List Request} {h : History}
    (hrun : exec History.next (History.start pool now) xs = some h) {x : Request} (hop : x.op = opRead)
    {t : RamPool × Conn}
    (hok : (handle x.now x.op x.offset x.length).run (h.pool, x.conn) = .ok () t) :
    ∃ data, t.2.sent = x.conn.sent ++ (header opRead x.offset x.length ++ data) ∧
      data.length = x.length ∧
      (0 < x.length →
        ∃! i, ∃ l, h.pool.leases.get? i = some l ∧ Covers x.now x.offset x.length l) ∧
      ∀ i l, h.pool.leases.get? i = some l → Covers x.now x.offset x.length l →
        .granted i l.offset l.length ∈ h.log ∧
        (∀ k, k < x.length → data[k]? = some (lastByte i (x.offset + k) h.log)) ∧
        ∀ e ∈ since i h.log, e.leaseId ≠ i → Apart e.offset e.length l.offset l.length := by
  have hi : h.Inv := exec_inv inv_next (inv_start hinit now) hrun
  obtain ⟨hsent, i, l, hl, hc⟩ := read_ok hop hok
  have hin := (hi.tabled.placed i l hl).inside
  refine ⟨_, hsent, RamPool.length_load hi.sized.length_memory (by have := hc.2.2; omega),
    fun hpos => ⟨i, ⟨l, hl, hc⟩, ?_⟩, ?_⟩
  · rintro j ⟨m, hm, -, ho, hn⟩
    by_contra hne
    have hap := hi.apart j i m l hne hm hl
    have h1 := hc.2.1
    have h2 := hc.2.2
    simp only [Apart] at hap
    omega
  · intro j m hm hcm
    obtain ⟨hg, hbytes, hothers⟩ := hi.owned j m hm
    refine ⟨hg, fun k hk => ?_, hothers⟩
    rw [RamPool.load_eq_sub, getElem?_sub, if_pos hk]
    have h1 := hcm.2.1
    have h2 := hcm.2.2
    exact hbytes _ (by omega) (by omega)

/-- Two leases, a WRITE into each, and a second WRITE over a byte of the first. -/
def twoTenants : List Request :=
  [⟨0, opBorrow, 0, 512, { inbox := [] }⟩, ⟨0, opBorrow, 0, 512, { inbox := [] }⟩,
    ⟨1, opWrite, 0, 2, { inbox := [7, 8] }⟩, ⟨1, opWrite, 512, 2, { inbox := [3, 4] }⟩,
    ⟨2, opWrite, 1, 1, { inbox := [9] }⟩]

def tenantRead : Request := ⟨3, opRead, 0, 3, { inbox := [] }⟩

/-- The first tenant reads its two bytes, and a zero behind them. -/
theorem read_private_tenants :
    ∃ h t, exec History.next (History.start RamPool.fresh 0) twoTenants = some h ∧
      (handle 3 opRead 0 3).run (h.pool, tenantRead.conn) = .ok () t ∧
      t.2.sent = header opRead 0 3 ++ [7, 9, 0] := by
  have hruns : (exec History.next (History.start RamPool.fresh 0) twoTenants).map (fun h =>
      (findLease 3 0 3 h.pool, h.pool.leases.get? 1, (List.range 3).map fun p => lastByte 1 p h.log)) =
      some (some (1, ⟨0, 512, 120⟩), some ⟨0, 512, 120⟩, [7, 9, 0]) := by decide +kernel
  obtain ⟨h, hrun, hm⟩ := Option.map_eq_some_iff.mp hruns
  simp only [Prod.mk.injEq] at hm
  obtain ⟨hfind, hlease, hlast⟩ := hm
  have hread := run_read (x := tenantRead) rfl (by decide) (by decide) rfl hfind
  obtain ⟨data, hsent, hlen, -, hbytes⟩ := read_private RamPool.init_one 0 hrun (x := tenantRead) rfl hread
  have hdata : data = (List.range 3).map fun p => lastByte 1 p h.log := by
    have hzero (k : Nat) : tenantRead.offset + k = k := Nat.zero_add k
    refine List.ext_getElem? fun k => ?_
    by_cases hk : k < 3
    · rw [(hbytes 1 _ hlease (findLease_some hfind).2).2.1 k hk, List.getElem?_map,
        List.getElem?_range hk, Option.map_some, hzero]
    · rw [List.getElem?_eq_none (by rw [hlen]; exact Nat.le_of_not_lt hk),
        List.getElem?_eq_none (by simpa using Nat.le_of_not_lt hk)]
  rw [hlast] at hdata
  rw [hdata] at hsent
  exact ⟨h, _, hrun, hread, hsent⟩

end RAMProvider

end RamLink
