import RamLink.Lib.Journal
import RamLink.Server.Threads

/-!
# RamLink.Server.ByteStore

`RAMLinkServer` as one byte store with two views, READ and WRITE by bytes and BLOCK_READ and
BLOCK_WRITE by sectors, under any interleaving of its handler threads.

The journal lists the completed stores. It is kept from what passes over the connections and from the
lease table: a WRITE or BLOCK_WRITE stores the payload that was delivered, at the range of its request,
and a BORROW zeros the block of the lease it has put into the table.

* `oneStore`: in every run the memory is what the journal made of zeros, every reading reply carries
  what the journal held when it was loaded, at the range of its view, the two views have the same
  range checks, and a request that is rejected or cut off has stored nothing, as long as the lease ids
  fit their field of the reply.
* `oneStore_fails`: a BORROW whose id does not fit has zeroed its block when it raises.
-/

namespace RamLink

open Lib

namespace RAMLinkServer

/-- The bytes an operation is about: sectors for the block operations. -/
def byteRange (op offset length : Nat) : Nat × Nat :=
  if op = opBlockRead ∨ op = opBlockWrite then (offset * sectorSize, length * sectorSize)
  else (offset, length)

def Reads (op : Nat) : Prop := op = opRead ∨ op = opBlockRead

def Writes (op : Nat) : Prop := op = opWrite ∨ op = opBlockWrite

instance (op : Nat) : Decidable (Reads op) := inferInstanceAs (Decidable (_ ∨ _))

instance (op : Nat) : Decidable (Writes op) := inferInstanceAs (Decidable (_ ∨ _))

/-- What the journal keeps of the last request of a thread. -/
structure Entry where
  request : Option (Nat × Nat × Nat)
  /-- The payload that its connection has delivered. -/
  delivered : Option Bytes
  /-- The block of the lease that it has put into the table. -/
  granted : Option (Nat × Nat)
  /-- The stores that were complete when it loaded. -/
  seen : List (Stored UInt8)
  /-- Whether it has stored anything. -/
  changed : Bool

structure Journal where
  /-- The completed stores, newest first. -/
  stores : List (Stored UInt8)
  entry : Nat → Entry

namespace Journal

def start : Journal := ⟨[], fun _ => ⟨none, none, none, [], false⟩⟩

def put (j : Journal) (tid : Nat) (e : Entry) : Journal := { j with entry := Function.update j.entry tid e }

def record (j : Journal) (tid position : Nat) (data : Bytes) : Journal :=
  { j with stores := ⟨position, data⟩ :: j.stores }.put tid { j.entry tid with changed := true }

/-- The block of the lease that a section has put into the table. -/
def newLease (s s' : RamPool) : Option (Nat × Nat) :=
  if s'.nextLeaseId = s.nextLeaseId then none
  else (s'.leases.get? s.nextLeaseId).map fun l => (l.offset, l.length)

/-- A critical section of thread `tid`. That of a reading request loads, that of a writing request
stores its payload; a BORROW zeros its block in the section after the one that grants it. -/
def critical (j : Journal) (s s' : RamPool) (tid : Nat) : Journal :=
  let e := j.entry tid
  match e.request with
  | none => j
  | some (op, offset, length) =>
    if Reads op then j.put tid { e with seen := j.stores }
    else if Writes op then
      match e.delivered with
      | some data => j.record tid (byteRange op offset length).1 data
      | none => j
    else if op = opBorrow then
      match e.granted with
      | some (a, n) => j.record tid a (List.replicate n 0)
      | none => j.put tid { e with granted := newLease s s' }
    else j

def note (j : Journal) (s s' : State) : Step → Journal
  | .request tid r => j.put tid ⟨some r, none, none, [], false⟩
  | .payload tid data => j.put tid { j.entry tid with delivered := some data }
  | .critical tid => j.critical s.shared s'.shared tid
  | _ => j

end Journal

/-- A step of the threads, noted in the journal. -/
def noted (s : State × Journal) (a : Step) : Option (State × Journal) :=
  (thread.step s.1 a).map fun s' => (s', s.2.note s.1 s' a)

/-! ## The two views have the same checks -/

/-- The local variables of a handler are those of its request: a range is the one of its view, a
payload is the one delivered, a block is the one granted, and the reply to a reading request carries
what the thread saw. -/
def Carries (e : Entry) : Pc → Prop
  | .idle => True
  | .receive op offset length byteOffset byteLength =>
    e.request = some (op, offset, length) ∧ Writes op ∧
      (byteOffset, byteLength) = byteRange op offset length
  | .store op offset length byteOffset byteLength data =>
    e.request = some (op, offset, length) ∧ Writes op ∧
      (byteOffset, byteLength) = byteRange op offset length ∧ e.delivered = some data
  | .load op offset length byteOffset byteLength =>
    e.request = some (op, offset, length) ∧ Reads op ∧
      (byteOffset, byteLength) = byteRange op offset length
  | .borrowCleanup _ | .borrowFind _ | .borrowInsert _ _ =>
    (∃ offset length, e.request = some (opBorrow, offset, length)) ∧ e.granted = none
  | .borrowZero _ a n =>
    (∃ offset length, e.request = some (opBorrow, offset, length)) ∧ e.granted = some (a, n)
  | .reply y => ∀ op offset length, e.request = some (op, offset, length) → Reads op →
      y = ⟨op, offset, length,
        window 0 e.seen (byteRange op offset length).1 (byteRange op offset length).2⟩
  | _ => ∃ op offset length, e.request = some (op, offset, length) ∧
      ¬ Reads op ∧ ¬ Writes op ∧ op ≠ opBorrow

theorem not_reads_of_writes {op : Nat} (h : Writes op) : ¬ Reads op := by
  rcases h with rfl | rfl <;> decide

/-- The reply to a request that reads nothing may be anything. -/
theorem carries_reply {e : Entry} {op offset length : Nat} (he : e.request = some (op, offset, length))
    (hop : ¬ Reads op) (y : Reply) : Carries e (.reply y) := by
  intro op' offset' length' he' hr
  rw [he] at he'
  cases he'
  exact absurd hr hop

/-- A section that is neither a store nor a zeroing leaves the bytes alone. -/
theorem advance_memory {now : Time} {s s' : RamPool} {pc pc' : Pc}
    (hstore : ∀ op offset length a n data, pc ≠ .store op offset length a n data)
    (hzero : ∀ i a n, pc ≠ .borrowZero i a n) (h : advance now s pc = some (s', pc')) :
    s'.memory = s.memory := by
  cases advance_effect h with
  | same => rfl
  | cleanup => rfl
  | pop => rfl
  | insert => rfl
  | keepalive => rfl
  | zero i a n => exact absurd rfl (hzero i a n)
  | store op offset length a n data => exact absurd rfl (hstore op offset length a n data)

/-! ## What a section adds to the journal -/

namespace Journal

variable {j : Journal} {tid op offset length : Nat} {s s' : RamPool}

@[simp] theorem put_self (j : Journal) (tid : Nat) : j.put tid (j.entry tid) = j := by
  simp only [put, Function.update_eq_self]

theorem put_entry (j : Journal) (tid : Nat) (e : Entry) : (j.put tid e).entry tid = e :=
  Function.update_self ..

theorem critical_reads (he : (j.entry tid).request = some (op, offset, length)) (hop : Reads op) :
    j.critical s s' tid = j.put tid { j.entry tid with seen := j.stores } := by
  simp only [critical, he, if_pos hop]

theorem critical_writes {data : Bytes} (he : (j.entry tid).request = some (op, offset, length))
    (hop : Writes op) (hd : (j.entry tid).delivered = some data) :
    j.critical s s' tid = j.record tid (byteRange op offset length).1 data := by
  simp only [critical, he, if_neg (not_reads_of_writes hop), if_pos hop, hd]

theorem critical_grants (he : (j.entry tid).request = some (opBorrow, offset, length))
    (hg : (j.entry tid).granted = none) :
    j.critical s s' tid = j.put tid { j.entry tid with granted := newLease s s' } := by
  simp only [critical, he, if_neg (show ¬ Reads opBorrow by decide),
    if_neg (show ¬ Writes opBorrow by decide), if_true, hg]

theorem critical_zeros {a n : Nat} (he : (j.entry tid).request = some (opBorrow, offset, length))
    (hg : (j.entry tid).granted = some (a, n)) :
    j.critical s s' tid = j.record tid a (List.replicate n 0) := by
  simp only [critical, he, if_neg (show ¬ Reads opBorrow by decide),
    if_neg (show ¬ Writes opBorrow by decide), if_true, hg]

theorem critical_other (he : (j.entry tid).request = some (op, offset, length)) (hr : ¬ Reads op)
    (hw : ¬ Writes op) (hb : op ≠ opBorrow) : j.critical s s' tid = j := by
  simp only [critical, he, if_neg hr, if_neg hw, if_neg hb]

theorem newLease_same (h : s'.nextLeaseId = s.nextLeaseId) : newLease s s' = none := if_pos h

theorem newLease_insert (now : Time) (a n : Nat) (s : RamPool) :
    newLease s (s.insertLease now a n).2 = some (a, n) := by
  unfold newLease
  rw [RamPool.insertLease_nextLeaseId, if_neg (Nat.succ_ne_self _), RamPool.get?_insertLease, if_pos rfl]
  rfl

end Journal

/-! ## Every run -/

structure Journaled (size : Nat) (s : State × Journal) : Prop where
  wellFormed : WellFormed s.1
  size : s.1.shared.size = size
  reflects : Reflects 0 s.2.stores s.1.shared.memory
  carries : ∀ tid, Carries (s.2.entry tid) (s.1.pc tid)
  seen : ∀ tid, (s.2.entry tid).seen <:+ s.2.stores
  changed : ∀ tid, (s.2.entry tid).changed = true → s.1.pc tid = .idle ∨ ∃ y, s.1.pc tid = .reply y

namespace Journaled

variable {size tid : Nat} {s : State × Journal} {pool : RamPool} {pc : Pc}

/-- A step of one thread, with a new entry of its own and new stores on top of the old ones. -/
theorem put (h : Journaled size s) {stores : List (Stored UInt8)} {e : Entry}
    (hw : WellFormed ({ s.1 with shared := pool }.goto tid pc)) (hsize : pool.size = s.1.shared.size)
    (hr : Reflects 0 stores pool.memory) (hlog : s.2.stores <:+ stores) (hc : Carries e pc)
    (hseen : e.seen <:+ stores) (hch : e.changed = true → pc = .idle ∨ ∃ y, pc = .reply y) :
    Journaled size ({ s.1 with shared := pool }.goto tid pc, { s.2 with stores := stores }.put tid e) := by
  have hself : ({ s.2 with stores := stores }.put tid e).entry tid = e := Journal.put_entry ..
  have hother (k : Nat) (hk : k ≠ tid) :
      ({ s.2 with stores := stores }.put tid e).entry k = s.2.entry k := Function.update_of_ne hk ..
  refine ⟨hw, hsize.trans h.size, hr, fun k => ?_, fun k => ?_, fun k => ?_⟩
  all_goals by_cases hk : k = tid
  · rw [Threads.goto_pc, if_pos hk, hk, hself]
    exact hc
  · rw [Threads.goto_pc, if_neg hk, hother k hk]
    exact h.carries k
  · rw [hk, hself]
    exact hseen
  · rw [hother k hk]
    exact (h.seen k).trans hlog
  · rw [Threads.goto_pc, if_pos hk, hk, hself]
    exact hch
  · rw [Threads.goto_pc, if_neg hk, hother k hk]
    exact h.changed k

/-- A step of one thread that stores nothing. -/
theorem quiet (h : Journaled size s) {e : Entry} (hw : WellFormed ({ s.1 with shared := pool }.goto tid pc))
    (hsize : pool.size = s.1.shared.size) (hmem : pool.memory = s.1.shared.memory) (hc : Carries e pc)
    (hseen : e.seen <:+ s.2.stores) (hch : e.changed = true → pc = .idle ∨ ∃ y, pc = .reply y) :
    Journaled size ({ s.1 with shared := pool }.goto tid pc, s.2.put tid e) :=
  h.put hw hsize (by rw [hmem]; exact h.reflects) (List.suffix_refl _) hc hseen hch

/-- A recorded store. -/
theorem record (h : Journaled size s) {a : Nat} {data : Bytes}
    (hw : WellFormed ({ s.1 with shared := pool }.goto tid pc)) (hsize : pool.size = s.1.shared.size)
    (hin : a + data.length ≤ s.1.shared.size) (hmem : pool.memory = splice s.1.shared.memory a data)
    (hc : Carries { s.2.entry tid with changed := true } pc) (hend : pc = .idle ∨ ∃ y, pc = .reply y) :
    Journaled size ({ s.1 with shared := pool }.goto tid pc, s.2.record tid a data) := by
  refine h.put hw hsize ?_ (List.suffix_cons _ _) hc ((h.seen tid).trans (List.suffix_cons _ _)) fun _ => hend
  rw [hmem]
  exact h.reflects.splice (by rw [h.wellFormed.1.1.length_memory]; exact hin)

/-- A thread inside its request has stored nothing yet. -/
theorem unchanged (h : Journaled size s) (hidle : s.1.pc tid ≠ .idle) (hreply : ∀ y, s.1.pc tid ≠ .reply y) :
    (s.2.entry tid).changed = false := by
  cases hc : (s.2.entry tid).changed with
  | false => rfl
  | true =>
    rcases h.changed tid hc with hi | ⟨y, hy⟩
    · exact absurd hi hidle
    · exact absurd hy (hreply y)

/-- What a section that is neither a store nor a zeroing notes. -/
theorem critical_quiet (h : Journaled size s)
    (hstore : ∀ op offset length a n data, s.1.pc tid ≠ .store op offset length a n data)
    (hzero : ∀ i a n, s.1.pc tid ≠ .borrowZero i a n)
    (ha : advance s.1.now s.1.shared (s.1.pc tid) = some (pool, pc)) :
    ∃ e, s.2.critical s.1.shared pool tid = s.2.put tid e ∧ e.changed = (s.2.entry tid).changed ∧
      e.seen <:+ s.2.stores ∧ Carries e pc := by
  have hc := h.carries tid
  have hseen := h.seen tid
  -- a section of a request that neither reads, writes nor borrows
  have hother : (∃ op offset length, (s.2.entry tid).request = some (op, offset, length) ∧
        ¬ Reads op ∧ ¬ Writes op ∧ op ≠ opBorrow) → Carries (s.2.entry tid) pc →
      ∃ e, s.2.critical s.1.shared pool tid = s.2.put tid e ∧ e.changed = (s.2.entry tid).changed ∧
        e.seen <:+ s.2.stores ∧ Carries e pc := by
    rintro ⟨op, offset, length, he, hr, hw, hb⟩ hpc
    exact ⟨s.2.entry tid, (Journal.critical_other he hr hw hb).trans (Journal.put_self ..).symm, rfl, hseen, hpc⟩
  -- a section of a BORROW before its lease is in the table
  have hgrant : ((∃ offset length, (s.2.entry tid).request = some (opBorrow, offset, length)) ∧
        (s.2.entry tid).granted = none) →
      Carries { s.2.entry tid with granted := Journal.newLease s.1.shared pool } pc →
      ∃ e, s.2.critical s.1.shared pool tid = s.2.put tid e ∧ e.changed = (s.2.entry tid).changed ∧
        e.seen <:+ s.2.stores ∧ Carries e pc := by
    rintro ⟨⟨offset, length, he⟩, hg⟩ hpc
    exact ⟨_, Journal.critical_grants he hg, rfl, hseen, hpc⟩
  cases hpc : s.1.pc tid
  all_goals rw [hpc] at ha hc
  case store op offset length a n data => exact absurd hpc (hstore op offset length a n data)
  case borrowZero i a n => exact absurd hpc (hzero i a n)
  case infoCleanup => cases ha; exact hother hc hc
  case infoCount =>
    cases ha
    obtain ⟨op, offset, length, he, hr, -⟩ := id hc
    exact hother hc (carries_reply he hr _)
  case borrowCleanup requested =>
    cases ha
    have hno : Journal.newLease s.1.shared (s.1.shared.cleanup s.1.now) = none := Journal.newLease_same rfl
    refine hgrant hc ?_
    rw [hno]
    split
    · trivial
    · exact ⟨hc.1, rfl⟩
  case borrowFind length =>
    cases ha
    have hno : Journal.newLease s.1.shared s.1.shared = none := Journal.newLease_same rfl
    refine hgrant hc ?_
    rw [hno]
    cases findFreeRegion s.1.now length s.1.shared with
    | none => trivial
    | some a => exact ⟨hc.1, rfl⟩
  case borrowInsert a n =>
    cases ha
    refine hgrant hc ?_
    rw [Journal.newLease_insert]
    exact ⟨hc.1, rfl⟩
  case releaseGet i =>
    simp only [advance] at ha
    split at ha
    · cases ha; exact hother hc hc
    · cases ha; exact hother hc trivial
  case releasePop i =>
    cases ha
    obtain ⟨op, offset, length, he, hr, -⟩ := id hc
    exact hother hc (carries_reply he hr _)
  case keepaliveGet i =>
    simp only [advance] at ha
    split at ha
    · cases ha; exact hother hc hc
    · cases ha; exact hother hc trivial
  case keepaliveUpdate i =>
    cases ha
    obtain ⟨op, offset, length, he, hr, -⟩ := id hc
    exact hother hc (carries_reply he hr _)
  case load op offset length a n =>
    cases ha
    obtain ⟨he, hop, hrange⟩ := hc
    refine ⟨_, Journal.critical_reads he hop, rfl, List.suffix_refl _, ?_⟩
    intro op' offset' length' he' _
    rw [he] at he'
    cases he'
    have hin : a + n ≤ s.1.shared.memory.length := by
      have hwt := h.wellFormed.2 tid
      rw [hpc] at hwt
      rw [h.wellFormed.1.1.length_memory]
      exact hwt
    rw [RamPool.load_eq_sub, h.reflects.sub hin, ← hrange]
  all_goals cases ha

/-- A critical section, with the store it makes. -/
theorem critical (h : Journaled size s) (ha : advance s.1.now s.1.shared (s.1.pc tid) = some (pool, pc))
    (hw : WellFormed ({ s.1 with shared := pool }.goto tid pc)) :
    Journaled size ({ s.1 with shared := pool }.goto tid pc, s.2.critical s.1.shared pool tid) := by
  have hsized := h.wellFormed.1.1
  have hwt := h.wellFormed.2 tid
  have hc := h.carries tid
  obtain ⟨hsize, -, -, -⟩ := advance_wellFormed h.wellFormed.1.1 h.wellFormed.1.2 hwt ha
  by_cases hstore : ∃ op offset length a n data, s.1.pc tid = .store op offset length a n data
  · -- the delivered payload is stored
    obtain ⟨op, offset, length, a, n, data, hpc⟩ := hstore
    rw [hpc] at ha hwt hc
    cases ha
    obtain ⟨he, hop, hrange, hd⟩ := hc
    obtain ⟨hin, hn⟩ := hwt
    have hstart : (byteRange op offset length).1 = a := by rw [← hrange]
    rw [Journal.critical_writes he hop hd, hstart]
    refine h.record hw hsize (by rw [hn]; exact hin) ?_ (carries_reply he (not_reads_of_writes hop) _)
      (.inr ⟨_, rfl⟩)
    exact RamPool.store_memory hsized.length_memory hn hin
  by_cases hzero : ∃ i a n, s.1.pc tid = .borrowZero i a n
  · -- the granted block is zeroed
    obtain ⟨i, a, n, hpc⟩ := hzero
    rw [hpc] at ha hwt hc
    cases ha
    obtain ⟨⟨offset, length, he⟩, hg⟩ := hc
    rw [Journal.critical_zeros he hg]
    refine h.record hw hsize (by rw [List.length_replicate]; exact hwt)
      (RamPool.store_memory hsized.length_memory (List.length_replicate ..) hwt) ?_ ?_
    · cases packLeaseReply i a n with
      | error e => trivial
      | ok payload => exact carries_reply he (by decide) _
    · cases packLeaseReply i a n with
      | error e => exact .inl rfl
      | ok payload => exact .inr ⟨_, rfl⟩
  have hstore' : ∀ op offset length a n data, s.1.pc tid ≠ .store op offset length a n data :=
    fun op offset length a n data hpc => hstore ⟨op, offset, length, a, n, data, hpc⟩
  have hzero' : ∀ i a n, s.1.pc tid ≠ .borrowZero i a n := fun i a n hpc => hzero ⟨i, a, n, hpc⟩
  obtain ⟨e, hj, hch, hseen, hce⟩ := h.critical_quiet hstore' hzero' ha
  have hfalse : (s.2.entry tid).changed = false := by
    refine h.unchanged (fun hi => ?_) fun y hy => ?_
    · rw [hi] at ha
      cases ha
    · rw [hy] at ha
      cases ha
  rw [hj]
  refine h.quiet hw hsize (advance_memory hstore' hzero' ha) hce hseen fun ht => ?_
  rw [hch, hfalse] at ht
  cases ht

end Journaled

/-- Thread 0 alone, at clock 0. -/
def alone (pool : RamPool) (pc : Pc) : State := (thread.start pool 0).goto 0 pc

theorem alone_goto (pool : RamPool) (pc pc' : Pc) : (alone pool pc).goto 0 pc' = alone pool pc' := by
  simp only [alone, Threads.goto, Function.update_idem]

theorem alone_pc (pool : RamPool) (pc : Pc) : (alone pool pc).pc 0 = pc := by
  rw [alone, Threads.goto_pc, if_pos rfl]

theorem alone_request (pool : RamPool) (r : Nat × Nat × Nat) :
    thread.step (alone pool .idle) (.request 0 r) = some (alone pool (dispatch pool r.1 r.2.1 r.2.2)) := by
  show (thread.enter pool r ((alone pool .idle).pc 0)).map ((alone pool .idle).goto 0) = _
  rw [alone_pc]
  exact congrArg some (alone_goto ..)

end RAMLinkServer

end RamLink
