import RamLink.Lib.Run
import RamLink.Server

/-!
# RamLink.Server.Allocator

BORROW as a first-fit allocator over whole histories of `RAMLinkServer`.

The ledger of a history records every grant and never forgets one: a lease is live as long as it
is not released and its time has not run out. The server's own table forgets leases at various
moments; `inv_next` says that at the clock's reading and later the two agree on what is live.

* `firstFit_of_id`: a BORROW is accepted exactly if some offset leaves room apart from the live
  leases, and is then granted the least such offset, as long as the next id fits its 64-bit field.
* `firstFit_fails`: past that id a BORROW that fits is rejected. The lease has been recorded by then.
-/

namespace RamLink

open Lib

namespace RAMLinkServer

/-- One lease ever granted. -/
structure Grant where
  lease : Lease
  released : Bool

def Grant.Live (now : Time) (g : Grant) : Prop := g.released = false ∧ g.lease.Alive now

instance (now : Time) (g : Grant) : Decidable (g.Live now) := inferInstanceAs (Decidable (_ ∧ _))

def Grant.release (g : Grant) : Grant := { g with released := true }

def Grant.keepalive (now : Time) (g : Grant) : Grant := { g with lease := g.lease.keepalive now }

abbrev Ledger := Nat → Option Grant

/-- Lease `i` is unreleased and unexpired, and `l` is its record. -/
def Ledger.Live (ledger : Ledger) (now : Time) (i : Nat) (l : Lease) : Prop :=
  ∃ g, ledger i = some g ∧ g.Live now ∧ g.lease = l

def Ledger.grant (ledger : Ledger) (i : Nat) (l : Lease) : Ledger :=
  Function.update ledger i (some ⟨l, false⟩)

/-- A live lease is changed, any other stays as it is. -/
def Ledger.change (ledger : Ledger) (now : Time) (i : Nat) (f : Grant → Grant) : Ledger :=
  Function.update ledger i ((ledger i).map fun g => if g.Live now then f g else g)

/-- What a request does to the ledger; a BORROW that changes the table is a grant. -/
def Ledger.next (ledger : Ledger) (x : Request) (s s' : RamPool) : Ledger :=
  if x.op = opBorrow then
    match s'.leases.get? s.nextLeaseId with
    | some l => ledger.grant s.nextLeaseId l
    | none => ledger
  else if x.op = opRelease then ledger.change x.now x.offset Grant.release
  else if x.op = opKeepalive then ledger.change x.now x.offset (Grant.keepalive x.now)
  else ledger

structure History where
  pool : RamPool
  now : Time
  ledger : Ledger

def History.start (pool : RamPool) (now : Time) : History := ⟨pool, now, fun _ => none⟩

/-- The next request; its clock reading is not before the last one. -/
def History.next (h : History) (x : Request) : Option History :=
  if h.now ≤ x.now then
    some ⟨after x h.pool, x.now, h.ledger.next x h.pool (after x h.pool)⟩
  else none

/-! ## The table and the ledger agree -/

structure History.Inv (h : History) : Prop where
  sized : h.pool.Sized
  tabled : h.pool.Tabled
  small : h.pool.size < 2 ^ 63
  agree : ∀ now, h.now ≤ now → ∀ i l,
    (h.pool.leases.get? i = some l ∧ l.Alive now) ↔ h.ledger.Live now i l
  granted : ∀ i, h.ledger i ≠ none → i < h.pool.nextLeaseId

theorem inv_start {sizeMb : Int} {pool : RamPool} (h : RamPool.init sizeMb = .ok pool) (now : Time) :
    (History.start pool now).Inv := by
  obtain ⟨hp, -, -, hsmall⟩ := RamPool.init_ok h
  refine ⟨RamPool.init_sized h, RamPool.init_tabled h, hsmall, fun now' _ i l => ?_, fun i hi => ?_⟩
  · constructor
    · rintro ⟨hl, -⟩
      rw [History.start, hp] at hl
      cases hl
    · rintro ⟨g, hg, -⟩
      cases hg
  · exact absurd rfl hi

/-- Dropping expired leases is not seen at this reading or later. -/
theorem cleanup_agree {s : RamPool} {now now' : Time} (hn : now ≤ now') (i : Nat) (l : Lease) :
    ((s.cleanup now).leases.get? i = some l ∧ l.Alive now') ↔
      (s.leases.get? i = some l ∧ l.Alive now') := by
  rw [RamPool.get?_cleanup]
  constructor
  · rintro ⟨⟨h, -⟩, ha⟩
    exact ⟨h, ha⟩
  · rintro ⟨h, ha⟩
    exact ⟨⟨h, ha.mono hn⟩, ha⟩

theorem grant_live {ledger : Ledger} {now : Time} {i j : Nat} {l m : Lease} :
    (ledger.grant i l).Live now j m ↔ if j = i then l = m ∧ l.Alive now else ledger.Live now j m := by
  unfold Ledger.Live Ledger.grant
  by_cases hj : j = i
  · rw [if_pos hj, hj, Function.update_self]
    constructor
    · rintro ⟨g, hg, ⟨-, ha⟩, rfl⟩
      cases hg
      exact ⟨rfl, ha⟩
    · rintro ⟨rfl, ha⟩
      exact ⟨_, rfl, ⟨rfl, ha⟩, rfl⟩
  · rw [if_neg hj, Function.update_of_ne hj]

theorem change_live {ledger : Ledger} {now now' : Time} {i j : Nat} {f : Grant → Grant} {l : Lease} :
    (ledger.change now i f).Live now' j l ↔
      if j = i then ∃ g, ledger i = some g ∧
        (if g.Live now then f g else g).Live now' ∧ (if g.Live now then f g else g).lease = l
      else ledger.Live now' j l := by
  unfold Ledger.Live Ledger.change
  by_cases hj : j = i
  · rw [if_pos hj, hj, Function.update_self]
    constructor
    · rintro ⟨g, hg, h⟩
      obtain ⟨g', hg', rfl⟩ := Option.map_eq_some_iff.mp hg
      exact ⟨g', hg', h⟩
    · rintro ⟨g', hg', h⟩
      exact ⟨_, by rw [hg']; rfl, h⟩
  · rw [if_neg hj, Function.update_of_ne hj]

theorem Grant.Live.mono {now now' : Time} {g : Grant} (h : g.Live now') (hn : now ≤ now') :
    g.Live now := ⟨h.1, h.2.mono hn⟩

/-- A released lease is live never again. -/
theorem release_live {ledger : Ledger} {now now' : Time} (hn : now ≤ now') (i : Nat) (l : Lease) :
    ¬ (ledger.change now i Grant.release).Live now' i l := by
  rw [change_live, if_pos rfl]
  rintro ⟨g, -, hlive, -⟩
  split at hlive
  · exact Bool.noConfusion hlive.1
  · rename_i hdead
    exact hdead (hlive.mono hn)

/-- A lease that is live gets its time extended, any other is live never again. -/
theorem keepalive_live {ledger : Ledger} {now now' : Time} (hn : now ≤ now') (i : Nat) (l : Lease) :
    (ledger.change now i (Grant.keepalive now)).Live now' i l ↔
      ∃ l', ledger.Live now i l' ∧ l = l'.keepalive now ∧ l.Alive now' := by
  rw [change_live, if_pos rfl]
  constructor
  · rintro ⟨g, hg, hlive, hl⟩
    split at hlive <;> rename_i h
    · rw [if_pos h] at hl
      exact ⟨g.lease, ⟨g, hg, h, rfl⟩, hl.symm, hl ▸ hlive.2⟩
    · exact absurd (hlive.mono hn) h
  · rintro ⟨l', ⟨g, hg, h, rfl⟩, rfl, ha⟩
    refine ⟨g, hg, ?_, ?_⟩
    · rw [if_pos h]
      exact ⟨h.1, ha⟩
    · rw [if_pos h]
      rfl

/-- The region a scan of a well-formed state finds. -/
theorem History.Inv.placed {h : History} (hi : h.Inv) {now : Time} {requested offset : Nat}
    (hz : ¬ (RamPool.roundUp requested ≤ 0 ∨ (h.pool.cleanup now).size < RamPool.roundUp requested))
    (hf : findFreeRegion now (RamPool.roundUp requested) (h.pool.cleanup now) = some offset) :
    RamPool.Placed h.pool.size offset (RamPool.roundUp requested) :=
  findFreeRegion_placed (hi.tabled.cleanup now) (RamPool.roundUp_pos.mp (by omega)) hf

/-- A BORROW keeps the agreement, whether it grants a region or not. -/
theorem inv_borrow {h : History} (hi : h.Inv) {x : Request} (hop : x.op = opBorrow)
    (hn : h.now ≤ x.now) :
    History.Inv ⟨after x h.pool, x.now, h.ledger.next x h.pool (after x h.pool)⟩ := by
  have hclean : ∀ now, x.now ≤ now → ∀ i l,
      ((h.pool.cleanup x.now).leases.get? i = some l ∧ l.Alive now) ↔ h.ledger.Live now i l :=
    fun now hle i l => (cleanup_agree hle i l).trans (hi.agree now (hn.trans hle) i l)
  have htab := hi.tabled.cleanup x.now
  have hkeep : History.Inv ⟨h.pool.cleanup x.now, x.now, h.ledger⟩ :=
    ⟨⟨hi.sized.length_memory, hi.sized.sector_dvd⟩, htab, hi.small, hclean, hi.granted⟩
  have hnone : (h.pool.cleanup x.now).leases.get? h.pool.nextLeaseId = none := by
    rw [Option.eq_none_iff_forall_ne_some]
    exact fun l hl => Nat.lt_irrefl _ (htab.fresh _ l hl)
  unfold Ledger.next
  rw [if_pos hop, after_borrow hop]
  by_cases hz : RamPool.roundUp x.length ≤ 0 ∨ (h.pool.cleanup x.now).size < RamPool.roundUp x.length
  · rw [if_pos hz, hnone]
    exact hkeep
  rw [if_neg hz]
  cases hf : findFreeRegion x.now (RamPool.roundUp x.length) (h.pool.cleanup x.now) with
  | none =>
    simp only [hnone]
    exact hkeep
  | some offset =>
    have hpl := hi.placed hz hf
    have hget := granted_leases x.now offset (RamPool.roundUp x.length) (h.pool.cleanup x.now)
    simp only [hget, RamPool.cleanup_nextLeaseId, if_pos]
    refine ⟨?_, (htab.insertLease x.now hpl).store _ _ _, hi.small, fun now hle i l => ?_, fun i hne => ?_⟩
    · have hs : ((h.pool.cleanup x.now).insertLease x.now offset (RamPool.roundUp x.length)).2.Sized :=
        ⟨hi.sized.length_memory, hi.sized.sector_dvd⟩
      exact hs.store (List.length_replicate ..) hpl.inside
    · refine Iff.trans ?_ grant_live.symm
      rw [hget, RamPool.cleanup_nextLeaseId]
      split
      · rw [Option.some.injEq]
        constructor
        · rintro ⟨rfl, ha⟩
          exact ⟨rfl, ha⟩
        · rintro ⟨rfl, ha⟩
          exact ⟨rfl, ha⟩
      · exact hclean now hle i l
    · show i < h.pool.nextLeaseId + 1
      by_cases hid : i = h.pool.nextLeaseId
      · omega
      · have : h.ledger i ≠ none := by simpa [Ledger.grant, hid] using hne
        have := hi.granted i this
        omega

/-- RELEASE and KEEPALIVE change one entry; `ht` and `hl` say how, in the table and the ledger. -/
theorem inv_change {h : History} (hi : h.Inv) {now : Time} (hn : h.now ≤ now) {i : Nat} {s' : RamPool}
    {f : Grant → Grant} (hs : s'.Sized) (ht : s'.Tabled) (hsize : s'.size = h.pool.size)
    (hid : s'.nextLeaseId = h.pool.nextLeaseId)
    (hother : ∀ j, j ≠ i → s'.leases.get? j = h.pool.leases.get? j)
    (hself : ∀ now', now ≤ now' → ∀ l,
      (s'.leases.get? i = some l ∧ l.Alive now') ↔ (h.ledger.change now i f).Live now' i l) :
    History.Inv ⟨s', now, h.ledger.change now i f⟩ := by
  refine ⟨hs, ht, hsize ▸ hi.small, fun now' hle j l => ?_, fun j hj => ?_⟩
  · by_cases hji : j = i
    · subst hji
      exact hself now' hle l
    · refine Iff.trans ?_ change_live.symm
      rw [if_neg hji, hother j hji]
      exact hi.agree now' (hn.trans hle) j l
  · show j < s'.nextLeaseId
    rw [hid]
    refine hi.granted j fun hnone => hj ?_
    show h.ledger.change now i f j = none
    by_cases hji : j = i
    · subst hji
      simp [Ledger.change, hnone]
    · simp [Ledger.change, hji, hnone]

theorem inv_release {h : History} (hi : h.Inv) {x : Request} (hop : x.op = opRelease)
    (hn : h.now ≤ x.now) :
    History.Inv ⟨after x h.pool, x.now, h.ledger.next x h.pool (after x h.pool)⟩ := by
  have hne : x.op ≠ opBorrow := by rw [hop]; decide
  unfold Ledger.next
  rw [if_neg hne, if_pos hop, after_release hop]
  cases hg : h.pool.leases.get? x.offset with
  | none =>
    refine inv_change hi hn hi.sized hi.tabled rfl rfl (fun _ _ => rfl) fun now' hle l => ?_
    exact iff_of_false (fun hc => by rw [hg] at hc; cases hc.1) (release_live hle x.offset l)
  | some l0 =>
    have hget := RamPool.get?_popLease h.pool x.offset
    refine inv_change hi hn ⟨hi.sized.length_memory, hi.sized.sector_dvd⟩ (hi.tabled.popLease x.offset)
      rfl rfl (fun j hj => by rw [hget, if_neg hj]) fun now' hle l => ?_
    refine iff_of_false (fun hc => ?_) (release_live hle x.offset l)
    rw [hget, if_pos rfl] at hc
    cases hc.1

theorem inv_keepalive {h : History} (hi : h.Inv) {x : Request} (hop : x.op = opKeepalive)
    (hn : h.now ≤ x.now) :
    History.Inv ⟨after x h.pool, x.now, h.ledger.next x h.pool (after x h.pool)⟩ := by
  have hne : x.op ≠ opBorrow ∧ x.op ≠ opRelease := by rw [hop]; decide
  have hagree := hi.agree x.now hn x.offset
  unfold Ledger.next
  rw [if_neg hne.1, if_neg hne.2, if_pos hop, after_keepalive hop]
  cases hg : h.pool.leases.get? x.offset with
  | none =>
    refine inv_change hi hn hi.sized hi.tabled rfl rfl (fun _ _ => rfl) fun now' hle l => ?_
    rw [keepalive_live hle, hg]
    refine iff_of_false (fun hc => by cases hc.1) ?_
    rintro ⟨l', hl', -⟩
    rw [← hagree l', hg] at hl'
    cases hl'.1
  | some l0 =>
    simp only
    by_cases ha : l0.Alive x.now
    · rw [if_pos ha]
      have hget := RamPool.get?_keepaliveLease x.now h.pool x.offset
      refine inv_change hi hn ⟨hi.sized.length_memory, hi.sized.sector_dvd⟩
        (hi.tabled.keepaliveLease x.now x.offset) rfl rfl (fun j hj => by rw [hget, if_neg hj])
        fun now' hle l => ?_
      rw [keepalive_live hle, hget, if_pos rfl, hg, Option.map_some, Option.some.injEq]
      constructor
      · rintro ⟨rfl, hl⟩
        exact ⟨l0, (hagree l0).mp ⟨hg, ha⟩, rfl, hl⟩
      · rintro ⟨l', hl', rfl, hl⟩
        rw [← hagree l', hg] at hl'
        cases hl'.1
        exact ⟨rfl, hl⟩
    · rw [if_neg ha]
      have hget := RamPool.get?_popLease h.pool x.offset
      refine inv_change hi hn ⟨hi.sized.length_memory, hi.sized.sector_dvd⟩
        (hi.tabled.popLease x.offset) rfl rfl (fun j hj => by rw [hget, if_neg hj])
        fun now' hle l => ?_
      rw [keepalive_live hle, hget, if_pos rfl]
      refine iff_of_false (fun hc => by cases hc.1) ?_
      rintro ⟨l', hl', -⟩
      rw [← hagree l', hg] at hl'
      cases hl'.1
      exact ha hl'.2

/-- Each request keeps the agreement. -/
theorem inv_next (h : History) (x : Request) (h' : History) (hi : h.Inv) (hs : h.next x = some h') :
    h'.Inv := by
  unfold History.next at hs
  split at hs
  swap
  · cases hs
  rename_i hn
  cases hs
  by_cases hb : x.op = opBorrow
  · exact inv_borrow hi hb hn
  by_cases hr : x.op = opRelease
  · exact inv_release hi hr hn
  by_cases hk : x.op = opKeepalive
  · exact inv_keepalive hi hk hn
  have hsp := after_other hb hr hk h.pool
  unfold Ledger.next
  rw [if_neg hb, if_neg hr, if_neg hk]
  generalize after x h.pool = s' at hsp ⊢
  have hagree : ∀ now, x.now ≤ now → ∀ i l,
      (h.pool.leases.get? i = some l ∧ l.Alive now) ↔ h.ledger.Live now i l :=
    fun now hle => hi.agree now (hn.trans hle)
  cases hsp with
  | same => exact ⟨hi.sized, hi.tabled, hi.small, hagree, hi.granted⟩
  | cleanup =>
    exact ⟨⟨hi.sized.length_memory, hi.sized.sector_dvd⟩, hi.tabled.cleanup x.now, hi.small,
      fun now hle i l => (cleanup_agree hle i l).trans (hagree now hle i l), hi.granted⟩
  | store a n data hd hin =>
    exact ⟨hi.sized.store hd hin, hi.tabled.store a n data, hi.small, hagree, hi.granted⟩

/-! ## First fit -/

/-- `[c, c + length)` lies inside the buffer and meets no live lease. -/
def History.Vacant (h : History) (now : Time) (length c : Nat) : Prop :=
  c + length ≤ h.pool.size ∧ ∀ i l, h.ledger.Live now i l → Apart c length l.offset l.length

/-- The handler returns. -/
def Accepts (x : Request) (s : RamPool) (t : RamPool × Conn) : Prop :=
  (handle x.now x.op x.offset x.length).run (s, x.conn) = .ok () t

/-- What BORROW `x` has done when it has been granted `[c, c + length)`. -/
structure Grants (h : History) (x : Request) (length c : Nat) : Prop where
  least : IsLeast {d | h.Vacant x.now length d} c
  aligned : sectorSize ∣ c
  newId : h.ledger h.pool.nextLeaseId = none
  recorded : (after x h.pool).leases.get? h.pool.nextLeaseId = some (Lease.new x.now c length)
  sent : ∀ t, Accepts x h.pool t → t.2.sent = x.conn.sent ++
    header opBorrow h.pool.nextLeaseId leaseReplySize ++
    (toBE 8 h.pool.nextLeaseId ++ toBE 8 c ++ toBE 8 length)
  zeroed : (after x h.pool).load c length = List.replicate length 0
  others : ∀ i l, h.ledger.Live x.now i l → (after x h.pool).leases.get? i = some l ∧
    (after x h.pool).load l.offset l.length = h.pool.load l.offset l.length

/-- What the next BORROW `x` does after the history `h`. -/
structure FirstFit (h : History) (x : Request) : Prop where
  accepted_iff : (∃ t, Accepts x h.pool t) ↔
    0 < x.length ∧ ∃ c, h.Vacant x.now (RamPool.roundUp x.length) c
  granted : (∃ t, Accepts x h.pool t) → ∃ c, Grants h x (RamPool.roundUp x.length) c
  rejected : ¬ (∃ t, Accepts x h.pool t) → (after x h.pool).memory = h.pool.memory ∧
    (after x h.pool).nextLeaseId = h.pool.nextLeaseId ∧
    ∀ i l, ((after x h.pool).leases.get? i = some l ∧ l.Alive x.now) ↔ h.ledger.Live x.now i l

/-- The leases the scan looks at are the live ones of the ledger. -/
theorem vacant_iff {h : History} (hi : h.Inv) {now : Time} (hn : h.now ≤ now) (length c : Nat) :
    RamPool.Free (h.pool.cleanup now) length
      ((h.pool.cleanup now).leases.values.filter (fun l => decide (l.Alive now))) c ↔
    h.Vacant now length c := by
  have hmem : ∀ l, l ∈ (h.pool.cleanup now).leases.values.filter (fun l => decide (l.Alive now)) ↔
      ∃ i, h.ledger.Live now i l := by
    intro l
    rw [List.mem_filter, Dict.mem_values, decide_eq_true_eq]
    constructor
    · rintro ⟨⟨i, hl⟩, ha⟩
      exact ⟨i, (hi.agree now hn i l).mp ((cleanup_agree (le_refl now) i l).mp ⟨hl, ha⟩)⟩
    · rintro ⟨i, hl⟩
      obtain ⟨hl, ha⟩ := (cleanup_agree (le_refl now) i l).mpr ((hi.agree now hn i l).mpr hl)
      exact ⟨⟨i, hl⟩, ha⟩
  unfold RamPool.Free Fits History.Vacant
  constructor
  · rintro ⟨hin, hap⟩
    exact ⟨hin, fun i l hl => hap l ((hmem l).mpr ⟨i, hl⟩)⟩
  · rintro ⟨hin, hap⟩
    refine ⟨hin, fun l hl => ?_⟩
    obtain ⟨i, hl⟩ := (hmem l).mp hl
    exact hap i l hl

/-- The scan finds the least vacant offset, and nothing only if there is none. -/
theorem findFreeRegion_vacant {h : History} (hi : h.Inv) {now : Time} (hn : h.now ≤ now)
    (length : Nat) :
    (∀ c, findFreeRegion now length (h.pool.cleanup now) = some c →
      IsLeast {d | h.Vacant now length d} c) ∧
    (findFreeRegion now length (h.pool.cleanup now) = none ↔ ∀ c, ¬ h.Vacant now length c) := by
  have htab := hi.tabled.cleanup now
  have hb : ∀ l ∈ (h.pool.cleanup now).leases.values.filter (fun l => decide (l.Alive now)),
      l.offset + l.length ≤ (h.pool.cleanup now).size := by
    intro l hl
    obtain ⟨i, hil⟩ := Dict.mem_values.mp (List.mem_of_mem_filter hl)
    exact (htab.placed i l hil).inside
  unfold findFreeRegion
  simpa only [vacant_iff hi hn] using RamPool.scan_spec hb

/-- What a grant has done, on whatever connection. -/
theorem grants_of_found {h : History} (hi : h.Inv) {x : Request}
    (hn : h.now ≤ x.now) {c : Nat} (hafter : after x h.pool =
      granted x.now c (RamPool.roundUp x.length) (h.pool.cleanup x.now))
    (hpl : RamPool.Placed h.pool.size c (RamPool.roundUp x.length))
    (hleast : IsLeast {d | h.Vacant x.now (RamPool.roundUp x.length) d} c)
    (hsent : ∀ t, Accepts x h.pool t → t.2.sent = x.conn.sent ++
      header opBorrow h.pool.nextLeaseId leaseReplySize ++
      (toBE 8 h.pool.nextLeaseId ++ toBE 8 c ++ toBE 8 (RamPool.roundUp x.length))) :
    Grants h x (RamPool.roundUp x.length) c := by
  generalize RamPool.roundUp x.length = n at *
  have hget := granted_leases x.now c n (h.pool.cleanup x.now)
  have hlen : (List.replicate n (0 : UInt8)).length = n := List.length_replicate ..
  have hb : c + (List.replicate n (0 : UInt8)).length ≤ h.pool.memory.length := by
    rw [hlen, hi.sized.length_memory]
    exact hpl.inside
  have hmem : (granted x.now c n (h.pool.cleanup x.now)).memory =
      splice h.pool.memory c (List.replicate n 0) :=
    RamPool.store_memory hi.sized.length_memory hlen hpl.inside
  refine ⟨hleast, hpl.start_dvd, ?_, ?_, hsent, ?_, fun i l hl => ?_⟩
  · by_contra hne
    exact Nat.lt_irrefl _ (hi.granted _ hne)
  · rw [hafter, hget, RamPool.cleanup_nextLeaseId, if_pos rfl]
  · rw [hafter, RamPool.load_eq_sub, hmem]
    have := sub_splice_self hb
    rwa [hlen] at this
  · have hl' := (cleanup_agree (le_refl x.now) i l).mpr ((hi.agree x.now hn i l).mpr hl)
    have hid := (hi.tabled.cleanup x.now).fresh i l hl'.1
    rw [RamPool.cleanup_nextLeaseId] at hid
    constructor
    · rw [hafter, hget, RamPool.cleanup_nextLeaseId, if_neg (by omega)]
      exact hl'.1
    · rw [hafter, RamPool.load_eq_sub, RamPool.load_eq_sub, hmem]
      refine sub_splice_apart hb ?_
      rw [hlen]
      exact (hleast.1.2 i l hl).symm

/-- A BORROW that leaves nothing but a cleaned-up table is rejected as the ledger says. -/
theorem rejected_of_cleanup {h : History} (hi : h.Inv) {x : Request} (hn : h.now ≤ x.now)
    (hafter : after x h.pool = h.pool.cleanup x.now) :
    (after x h.pool).memory = h.pool.memory ∧ (after x h.pool).nextLeaseId = h.pool.nextLeaseId ∧
      ∀ i l, ((after x h.pool).leases.get? i = some l ∧ l.Alive x.now) ↔ h.ledger.Live x.now i l := by
  rw [hafter]
  exact ⟨rfl, rfl, fun i l => (cleanup_agree (le_refl x.now) i l).trans (hi.agree x.now hn i l)⟩

theorem accepts_borrow_iff {x : Request} (hop : x.op = opBorrow) (s : RamPool) (t : RamPool × Conn) :
    Accepts x s t ↔ (borrow x.now x.length).run (s, x.conn) = .ok () t := by
  unfold Accepts
  rw [hop, handle_borrow]

/-- **First fit**: after any history, on a working connection, as long as the next lease id fits
the reply's 64-bit field. -/
theorem firstFit_of_id {sizeMb : Int} {pool : RamPool} (hinit : RamPool.init sizeMb = .ok pool)
    (start : Time) {xs : List Request} {h : History}
    (hrun : exec History.next (History.start pool start) xs = some h) {x : Request}
    (hop : x.op = opBorrow) (hn : h.now ≤ x.now) (hconn : x.conn.faults = [])
    (hid : h.pool.nextLeaseId < 2 ^ 64) : FirstFit h x := by
  have hi : h.Inv := exec_inv inv_next (inv_start hinit start) hrun
  obtain ⟨hsome, hnone⟩ := findFreeRegion_vacant hi hn (RamPool.roundUp x.length)
  have hacc := accepts_borrow_iff hop h.pool
  have hafter := after_borrow hop h.pool
  simp only [run_borrow] at hacc
  by_cases hz : RamPool.roundUp x.length ≤ 0 ∨ (h.pool.cleanup x.now).size < RamPool.roundUp x.length
  · -- the size check
    rw [if_pos hz] at hacc hafter
    have hno : ¬ ∃ t, Accepts x h.pool t := by
      rintro ⟨t, ht⟩
      rw [hacc t] at ht
      cases ht
    refine ⟨iff_of_false hno ?_, fun ha => absurd ha hno, fun _ => rejected_of_cleanup hi hn hafter⟩
    rintro ⟨hpos, c, hin, -⟩
    have := RamPool.roundUp_pos.mpr hpos
    rw [RamPool.cleanup_size] at hz
    omega
  rw [if_neg hz] at hafter
  simp only [if_neg hz] at hacc
  cases hf : findFreeRegion x.now (RamPool.roundUp x.length) (h.pool.cleanup x.now) with
  | none =>
    rw [hf] at hafter
    simp only [hf] at hacc
    have hno : ¬ ∃ t, Accepts x h.pool t := by
      rintro ⟨t, ht⟩
      rw [hacc t] at ht
      cases ht
    refine ⟨iff_of_false hno ?_, fun ha => absurd ha hno, fun _ => rejected_of_cleanup hi hn hafter⟩
    rintro ⟨-, c, hc⟩
    exact hnone.mp hf c hc
  | some c =>
    rw [hf] at hafter
    simp only [hf] at hacc
    have hpl := hi.placed hz hf
    have hfits : h.pool.nextLeaseId < 256 ^ 8 ∧ c < 256 ^ 8 ∧ RamPool.roundUp x.length < 256 ^ 8 := by
      have h1 := hi.small
      have h2 := hpl.inside
      have h3 : (2 : Nat) ^ 64 = 256 ^ 8 := by norm_num
      have h4 : (2 : Nat) ^ 63 < 256 ^ 8 := by norm_num
      omega
    simp only [run_sendLeaseReply _ hconn, if_pos hfits] at hacc
    have hyes : ∃ t, Accepts x h.pool t := ⟨_, (hacc _).mpr rfl⟩
    refine ⟨iff_of_true hyes ⟨RamPool.roundUp_pos.mp hpl.pos, c, (hsome c hf).1⟩, fun _ => ⟨c, ?_⟩,
      fun hno => absurd hyes hno⟩
    refine grants_of_found hi hn hafter hpl (hsome c hf) fun t ht => ?_
    rw [hacc t] at ht
    cases ht
    rfl

def borrowOne : Request := ⟨0, opBorrow, 0, 512, { inbox := [] }⟩

def releaseOne (leaseId : Nat) : Request := ⟨0, opRelease, leaseId, 0, { inbox := [] }⟩

/-- Three leases, of which the second is released and the third is kept alive. -/
def holed : List Request :=
  [borrowOne, borrowOne, borrowOne, ⟨10, opRelease, 2, 0, { inbox := [] }⟩,
    ⟨20, opKeepalive, 3, 0, { inbox := [] }⟩]

/-- A BORROW of two sectors, as the first lease expires. -/
def borrowTwo (faults : List (Option Nat)) : Request :=
  ⟨120, opBorrow, 0, 1000, { inbox := [], faults := faults }⟩

/-- The least offset is that of the expired lease, and the room reaches over the released one up to the
third. -/
theorem firstFit_of_id_holed : ∃ h, exec History.next (History.start RamPool.fresh 0) holed = some h ∧
    FirstFit h (borrowTwo []) ∧
    h.pool.leases.entries = [(1, ⟨0, 512, 120⟩), (3, ⟨1024, 512, 140⟩)] ∧
    (after (borrowTwo []) h.pool).leases.entries = [(3, ⟨1024, 512, 140⟩), (4, ⟨0, 1024, 240⟩)] := by
  have hruns : (exec History.next (History.start RamPool.fresh 0) holed).map (fun h => (h.now,
      h.pool.nextLeaseId, h.pool.leases.entries, (after (borrowTwo []) h.pool).leases.entries)) =
      some (20, 4, [(1, ⟨0, 512, 120⟩), (3, ⟨1024, 512, 140⟩)],
        [(3, ⟨1024, 512, 140⟩), (4, ⟨0, 1024, 240⟩)]) := by decide +kernel
  obtain ⟨h, hrun, hm⟩ := Option.map_eq_some_iff.mp hruns
  simp only [Prod.mk.injEq] at hm
  obtain ⟨hnow, hid, hbefore, hafter⟩ := hm
  have hn : h.now ≤ (borrowTwo []).now := by
    rw [hnow, borrowTwo]
    norm_num
  exact ⟨h, hrun, firstFit_of_id RamPool.init_one 0 hrun rfl hn rfl (by rw [hid]; norm_num), hbefore, hafter⟩

/-- `n` leases granted and released one after the other. -/
def spend : Nat → List Request
  | 0 => []
  | n + 1 => spend n ++ [borrowOne, releaseOne (n + 1)]

/-- On an empty table of a buffer of 1 MiB a BORROW of one sector is granted `[0, 512)`. -/
theorem after_borrowOne {s : RamPool} (hnone : ∀ i, s.leases.get? i = none)
    (hsize : s.size = 1048576) : after borrowOne s = granted 0 0 512 (s.cleanup 0) := by
  have hround : RamPool.roundUp borrowOne.length = 512 := rfl
  have hnow : borrowOne.now = 0 := rfl
  rw [after_borrow rfl, hround, hnow, if_neg (by rw [RamPool.cleanup_size]; omega),
    findFreeRegion_empty (cleanup_empty hnone 0) (by rw [RamPool.cleanup_size]; omega)]

theorem spend_exec (n : Nat) : ∃ h, exec History.next (History.start RamPool.fresh 0) (spend n) = some h ∧
    h.now = 0 ∧ h.pool.size = 1048576 ∧ h.pool.nextLeaseId = n + 1 ∧
    ∀ i, h.pool.leases.get? i = none := by
  induction n with
  | zero => exact ⟨_, rfl, rfl, rfl, rfl, fun i => rfl⟩
  | succ n ih =>
    obtain ⟨h, hrun, hnow, hsize, hid, hnone⟩ := ih
    have h1 : h.next borrowOne = some _ := if_pos (le_of_eq hnow)
    have h2 : History.next ⟨after borrowOne h.pool, 0, h.ledger.next borrowOne h.pool
        (after borrowOne h.pool)⟩ (releaseOne (n + 1)) = some _ := if_pos (le_refl _)
    refine ⟨_, exec_append.mpr ⟨h, hrun, exec_cons_some.mpr ⟨_, h1, exec_cons_some.mpr ⟨_, h2, rfl⟩⟩⟩,
      rfl, ?_⟩
    have hget := granted_leases 0 0 512 (h.pool.cleanup 0)
    rw [RamPool.cleanup_nextLeaseId, hid] at hget
    show (after (releaseOne (n + 1)) (after borrowOne h.pool)).size = 1048576 ∧
      (after (releaseOne (n + 1)) (after borrowOne h.pool)).nextLeaseId = n + 1 + 1 ∧
      ∀ i, (after (releaseOne (n + 1)) (after borrowOne h.pool)).leases.get? i = none
    have hg : (granted 0 0 512 (h.pool.cleanup 0)).leases.get? (releaseOne (n + 1)).offset =
        some (Lease.new 0 0 512) := by
      rw [hget]
      exact if_pos rfl
    rw [after_borrowOne hnone hsize, after_release rfl, hg]
    refine ⟨hsize, congrArg (· + 1) hid, fun i => ?_⟩
    show ((granted 0 0 512 (h.pool.cleanup 0)).popLease (n + 1)).leases.get? i = none
    rw [RamPool.get?_popLease, hget]
    split
    · rfl
    · exact cleanup_empty hnone 0 i

/-- After `2 ^ 64 - 1` leases the next BORROW is rejected on an empty table: its id no longer fits
the reply. -/
theorem firstFit_fails :
    ¬ ∀ (sizeMb : Int) (pool : RamPool) (start : Time) (xs : List Request) (h : History) (x : Request),
      RamPool.init sizeMb = .ok pool → exec History.next (History.start pool start) xs = some h →
      x.op = opBorrow → h.now ≤ x.now → x.conn.faults = [] → FirstFit h x := by
  intro hall
  obtain ⟨h, hrun, hnow, hsize, hid, hnone⟩ := spend_exec (2 ^ 64 - 1)
  have hi : h.Inv := exec_inv inv_next (inv_start RamPool.init_one 0) hrun
  have hff := hall 1 RamPool.fresh 0 _ h borrowOne RamPool.init_one hrun rfl (le_of_eq hnow) rfl
  have hvacant : h.Vacant 0 512 0 := by
    refine ⟨by omega, fun i l hl => ?_⟩
    have := ((hi.agree 0 (le_of_eq hnow) i l).mpr hl).1
    rw [hnone i] at this
    cases this
  obtain ⟨t, ht⟩ := hff.accepted_iff.mpr ⟨by decide, 0, hvacant⟩
  have hround : RamPool.roundUp borrowOne.length = 512 := rfl
  rw [accepts_borrow_iff rfl, run_borrow, hround, if_neg (by rw [RamPool.cleanup_size]; omega),
    findFreeRegion_empty (cleanup_empty hnone _) (by rw [RamPool.cleanup_size]; omega)] at ht
  simp only at ht
  rw [run_sendLeaseReply _ rfl, if_neg (by norm_num; omega)] at ht
  cases ht

end RAMLinkServer

end RamLink
