import RamLink.Lib.Threads
import RamLink.Provider

/-!
# RamLink.Provider.Threads

`RAMProvider` with one handler thread per connection.

A WRITE looks up a lease that contains its range, receives its payload with no lock held, and then
stores it. `Write` is what such a handler remembers of its check.

* `handle_alone`: a thread that nothing interrupts does what `handle` does; `exec_handle` finds it among
  the interleavings.
* `wellFormed_step`: in every interleaving the buffer keeps its size, and every lease and every
  range a thread is about to store or load lies inside it.
* `authorised_of_undisturbed`: in a run in which nothing takes the lease away from a WRITE in
  flight, every WRITE stores under the lease that authorised it, and clear of every lease granted
  since.
* `authorised_fails`: a RELEASE, a BORROW and its zeroing fit into the window.
-/

namespace RamLink

open Lib

namespace RAMProvider

/-- A WRITE that has passed its range check. -/
structure Write where
  /-- The lease that satisfied the check. -/
  leaseId : Nat
  offset : Nat
  length : Nat
  /-- Ghost: the ids below this one had been granted at the check. -/
  since : Nat

inductive Pc where
  | idle
  | infoCleanup
  | infoCount
  | borrowCleanup (length : Nat)
  | borrowScan (length : Nat)
  | borrowInsert (offset length : Nat)
  | borrowZero (leaseId offset length : Nat)
  | releasePop (leaseId : Nat)
  | keepaliveCleanup (leaseId : Nat)
  | keepaliveLookup (leaseId : Nat)
  | keepaliveUpdate (leaseId : Nat)
  | access (op offset length : Nat)
  /-- In `recv_all`, with `got` received so far and no lock held. -/
  | receive (w : Write) (got : Bytes)
  | store (w : Write) (data : Bytes)
  | load (offset length : Nat)
  | reply (r : Reply)

/-- `while len(data) < size`. -/
def received (w : Write) (got : Bytes) : Pc :=
  if got.length < w.length then .receive w got else .store w got

/-- Where `handle` goes with a request before its first critical section; `idle` is a rejection. -/
def dispatch (s : RamPool) (op offset length : Nat) : Pc :=
  if op = opPing then .reply ⟨opPing, 0, 4, ascii "PONG"⟩
  else if op = opInfo then .infoCleanup
  else if op = opBorrow then
    if RamPool.roundUp length ≤ 0 ∨ s.size < RamPool.roundUp length then .idle
    else .borrowCleanup (RamPool.roundUp length)
  else if op = opRelease then .releasePop offset
  else if op = opKeepalive then .keepaliveCleanup offset
  else if op = opRead ∨ op = opWrite then
    if maxBlock < length then .idle else .access op offset length
  else .idle

/-- The next critical section of a thread, and where the thread is after it. -/
def advance (now : Time) (s : RamPool) : Pc → Option (RamPool × Pc)
  | .infoCleanup => some (s.cleanup now, .infoCount)
  | .infoCount =>
    let body := ascii (infoText s s.leases.size)
    some (s, .reply ⟨opInfo, 0, body.length, body⟩)
  | .borrowCleanup length => some (s.cleanup now, .borrowScan length)
  | .borrowScan length =>
    some (s, match s.scan length s.leases.values with
      | none => .idle
      | some offset => .borrowInsert offset length)
  | .borrowInsert offset length =>
    some ((s.insertLease now offset length).2,
      .borrowZero (s.insertLease now offset length).1 offset length)
  | .borrowZero leaseId offset length =>
    some (s.zero offset length, match packLeaseReply leaseId offset length with
      | .error _ => .idle
      | .ok payload => .reply ⟨opBorrow, leaseId, payload.length, payload⟩)
  | .releasePop leaseId =>
    match (release leaseId).run s with
    | .ok _ s' => some (s', .reply ⟨opRelease, leaseId, 0, []⟩)
    | .error _ s' => some (s', .idle)
  | .keepaliveCleanup leaseId => some (s.cleanup now, .keepaliveLookup leaseId)
  | .keepaliveLookup leaseId =>
    some (s, match s.leases.get? leaseId with
      | none => .idle
      | some _ => .keepaliveUpdate leaseId)
  | .keepaliveUpdate leaseId =>
    some (s.keepaliveLease now leaseId, .reply ⟨opKeepalive, leaseId, 0, []⟩)
  | .access op offset length =>
    some (s, match findLease now offset length s with
      | none => .idle
      | some (leaseId, _) =>
        if op = opWrite then received ⟨leaseId, offset, length, s.nextLeaseId⟩ []
        else .load offset length)
  | .store w data =>
    some (s.store w.offset w.length data, .reply ⟨opWrite, w.offset, w.length, []⟩)
  | .load offset length =>
    some (s, .reply ⟨opRead, offset, length, s.load offset length⟩)
  | .idle | .receive .. | .reply _ => none

/-- The handler thread of one connection. -/
def thread : Machine RamPool Pc Time (Nat × Nat × Nat) Bytes where
  idle := .idle
  enter s r
    | .idle => some (dispatch s r.1 r.2.1 r.2.2)
    | _ => none
  advance := advance
  deliver chunk
    | .receive w got =>
      if chunk ≠ [] ∧ chunk.length ≤ min maxBlock (w.length - got.length) then
        some (received w (got ++ chunk))
      else none
    | _ => none
  finish
    | .reply _ => some .idle
    | _ => none

abbrev State := Threads RamPool Pc Time

abbrev Step := Action Time (Nat × Nat × Nat) Bytes

/-! ## Well-formed states -/

/-- The ranges a thread carries in its local variables lie inside the buffer. -/
def Pc.WellFormed (size : Nat) : Pc → Prop
  | .borrowCleanup length => ∃ requested, 0 < requested ∧ length = RamPool.roundUp requested
  | .borrowScan length => ∃ requested, 0 < requested ∧ length = RamPool.roundUp requested
  | .borrowInsert offset length => RamPool.Placed size offset length
  | .borrowZero _ offset length => offset + length ≤ size
  | .receive w got => w.offset + w.length ≤ size ∧ got.length ≤ w.length
  | .store w data => w.offset + w.length ≤ size ∧ data.length = w.length
  | .load offset length => offset + length ≤ size
  | _ => True

def WellFormed (s : State) : Prop :=
  (s.shared.Sized ∧ s.shared.Tabled) ∧ ∀ tid, (s.pc tid).WellFormed s.shared.size

theorem wellFormed_start {sizeMb : Int} {pool : RamPool} (h : RamPool.init sizeMb = .ok pool)
    (now : Time) : WellFormed (thread.start pool now) :=
  ⟨⟨RamPool.init_sized h, RamPool.init_tabled h⟩, fun _ => trivial⟩

theorem received_wellFormed {size : Nat} {w : Write} {got : Bytes} (hw : w.offset + w.length ≤ size)
    (hg : got.length ≤ w.length) : (received w got).WellFormed size := by
  unfold received
  split
  · exact ⟨hw, hg⟩
  · exact ⟨hw, by omega⟩

section Dispatch

variable (s : RamPool) (offset length : Nat)

theorem dispatch_ping : dispatch s opPing offset length = .reply ⟨opPing, 0, 4, ascii "PONG"⟩ := rfl

theorem dispatch_info : dispatch s opInfo offset length = .infoCleanup := rfl

theorem dispatch_borrow : dispatch s opBorrow offset length =
    if RamPool.roundUp length ≤ 0 ∨ s.size < RamPool.roundUp length then .idle
    else .borrowCleanup (RamPool.roundUp length) := rfl

theorem dispatch_release : dispatch s opRelease offset length = .releasePop offset := rfl

theorem dispatch_keepalive : dispatch s opKeepalive offset length = .keepaliveCleanup offset := rfl

theorem dispatch_read : dispatch s opRead offset length =
    if maxBlock < length then .idle else .access opRead offset length := rfl

theorem dispatch_write : dispatch s opWrite offset length =
    if maxBlock < length then .idle else .access opWrite offset length := rfl

theorem dispatch_unknown {op : Nat}
    (h : op ∉ [opPing, opInfo, opBorrow, opRelease, opKeepalive, opRead, opWrite]) :
    dispatch s op offset length = .idle := by
  simp only [List.mem_cons, List.not_mem_nil, or_false, not_or] at h
  unfold dispatch
  simp only [h, or_self, if_false]

end Dispatch

/-- Where a request goes, branch by branch. -/
theorem dispatch_rule {P : Pc → Prop} (s : RamPool) (op offset length : Nat) (hidle : P .idle)
    (hping : P (.reply ⟨opPing, 0, 4, ascii "PONG"⟩)) (hinfo : P .infoCleanup)
    (hborrow : 0 < length → P (.borrowCleanup (RamPool.roundUp length)))
    (hrelease : P (.releasePop offset)) (hkeepalive : P (.keepaliveCleanup offset))
    (haccess : ∀ op, P (.access op offset length)) : P (dispatch s op offset length) := by
  induction op using op_cases with
  | ping => exact hping
  | info => exact hinfo
  | borrow =>
    rw [dispatch_borrow]
    by_cases h : RamPool.roundUp length ≤ 0 ∨ s.size < RamPool.roundUp length
    · rw [if_pos h]; exact hidle
    · rw [if_neg h]; exact hborrow (RamPool.roundUp_pos.mp (by omega))
  | release => exact hrelease
  | keepalive => exact hkeepalive
  | read =>
    rw [dispatch_read]
    by_cases h : maxBlock < length
    · rw [if_pos h]; exact hidle
    · rw [if_neg h]; exact haccess opRead
  | write =>
    rw [dispatch_write]
    by_cases h : maxBlock < length
    · rw [if_pos h]; exact hidle
    · rw [if_neg h]; exact haccess opWrite
  | unknown op h =>
    rw [dispatch_unknown s offset length h]
    exact hidle

theorem dispatch_wellFormed (s : RamPool) (op offset length : Nat) :
    (dispatch s op offset length).WellFormed s.size :=
  dispatch_rule s op offset length trivial trivial trivial (fun h => ⟨length, h, rfl⟩) trivial trivial
    fun _ => trivial

/-- A thread that only moves stays well-formed. -/
theorem moves_wellFormed {s : RamPool} {pc pc' : Pc} (hpc : pc.WellFormed s.size)
    (h : thread.Moves s pc pc') : pc'.WellFormed s.size := by
  rcases h with ⟨r, h⟩ | ⟨chunk, h⟩ | h | rfl
  · cases pc <;> cases h
    exact dispatch_wellFormed s r.1 r.2.1 r.2.2
  · cases pc
    case receive w got =>
      simp only [thread] at h
      split at h <;> cases h
      rename_i hc
      have h1 := hpc.2
      refine received_wellFormed hpc.1 ?_
      rw [List.length_append]
      omega
    all_goals cases h
  · cases pc <;> cases h
    trivial
  · trivial

/-- The sections of `cleanup`. -/
def Pc.Cleans : Pc → Prop
  | .infoCleanup | .borrowCleanup _ | .keepaliveCleanup _ => True
  | _ => False

/-- What one critical section does to the pool. -/
inductive Effect (now : Time) (s : RamPool) : Pc → RamPool → Prop where
  | same (pc) : Effect now s pc s
  | cleanup (pc) (h : pc.Cleans) : Effect now s pc (s.cleanup now)
  | pop (leaseId : Nat) : Effect now s (.releasePop leaseId) (s.popLease leaseId)
  | insert (offset length : Nat) :
    Effect now s (.borrowInsert offset length) (s.insertLease now offset length).2
  | keepalive (leaseId : Nat) :
    Effect now s (.keepaliveUpdate leaseId) (s.keepaliveLease now leaseId)
  | zero (leaseId offset length : Nat) :
    Effect now s (.borrowZero leaseId offset length) (s.zero offset length)
  | store (w : Write) (data : Bytes) :
    Effect now s (.store w data) (s.store w.offset w.length data)

theorem advance_effect {now : Time} {s s' : RamPool} {pc pc' : Pc}
    (h : advance now s pc = some (s', pc')) : Effect now s pc s' := by
  cases pc
  case releasePop i =>
    simp only [advance, run_release] at h
    cases hg : s.leases.get? i with
    | none => rw [hg] at h; cases h; exact .same _
    | some l => rw [hg] at h; cases h; exact .pop i
  case infoCleanup => cases h; exact .cleanup _ trivial
  case borrowCleanup n => cases h; exact .cleanup _ trivial
  case keepaliveCleanup i => cases h; exact .cleanup _ trivial
  all_goals cases h
  all_goals constructor

/-- A section that starts well-formed leaves the pool and its thread well-formed. -/
theorem advance_wellFormed {now : Time} {s s' : RamPool} {pc pc' : Pc} (hs : s.Sized)
    (ht : s.Tabled) (hpc : pc.WellFormed s.size) (h : advance now s pc = some (s', pc')) :
    s'.size = s.size ∧ s'.Sized ∧ s'.Tabled ∧ pc'.WellFormed s.size := by
  have hpool : s'.size = s.size ∧ s'.Sized ∧ s'.Tabled := by
    cases advance_effect h with
    | same => exact ⟨rfl, hs, ht⟩
    | cleanup => exact ⟨rfl, ⟨hs.length_memory, hs.sector_dvd⟩, ht.cleanup now⟩
    | pop i => exact ⟨rfl, ⟨hs.length_memory, hs.sector_dvd⟩, ht.popLease i⟩
    | insert a n => exact ⟨rfl, ⟨hs.length_memory, hs.sector_dvd⟩, ht.insertLease now hpc⟩
    | keepalive i => exact ⟨rfl, ⟨hs.length_memory, hs.sector_dvd⟩, ht.keepaliveLease now i⟩
    | zero i a n => exact ⟨rfl, hs.store (List.length_replicate ..) hpc, ht.store a n _⟩
    | store w d => exact ⟨rfl, hs.store hpc.2 hpc.1, ht.store w.offset w.length d⟩
  refine ⟨hpool.1, hpool.2.1, hpool.2.2, ?_⟩
  cases pc
  case borrowScan n =>
    cases h
    obtain ⟨requested, hr, rfl⟩ := hpc
    cases hf : s.scan (RamPool.roundUp requested) s.leases.values with
    | none => trivial
    | some c => exact RamPool.scan_placed ht (fun l hl => Dict.mem_values.mp hl) hr hf
  case borrowInsert a n => cases h; exact hpc.inside
  case borrowZero i a n => cases h; cases packLeaseReply i a n <;> trivial
  case releasePop i => simp only [advance] at h; split at h <;> cases h <;> trivial
  case keepaliveLookup i => cases h; cases s.leases.get? i <;> trivial
  case access op a n =>
    cases h
    cases hf : findLease now a n s with
    | none => trivial
    | some e =>
      obtain ⟨hl, -, -, hn⟩ := findLease_some hf
      have hin := (ht.placed _ _ hl).inside
      simp only
      split
      · exact received_wellFormed (by simp only; omega) (Nat.zero_le _)
      · show a + n ≤ s.size
        omega
  all_goals cases h
  all_goals trivial

/-- Whatever the threads do, and in whatever order, the state stays well-formed. -/
theorem wellFormed_step {s s' : State} {a : Step} (h : WellFormed s) (hs : thread.step s a = some s') :
    WellFormed s' := by
  refine Machine.step_inv (I := fun p : RamPool => p.Sized ∧ p.Tabled)
    (W := fun p (pc : Pc) => pc.WellFormed p.size)
    ?_ (fun _ _ _ _ hpc hm => moves_wellFormed hpc hm) h hs
  intro now p pc p' pc' hp hpc ha
  obtain ⟨hz, h1, h2, h3⟩ := advance_wellFormed hp.1 hp.2 hpc ha
  refine ⟨⟨h1, h2⟩, ?_, fun q hq => ?_⟩
  · rw [hz]
    exact h3
  · rw [hz]
    exact hq

/-! ## A thread that nothing interrupts -/

/-- What a thread takes of the bytes that have arrived: one `recv`. -/
def take : Pc → Bytes → Option (Bytes × Bytes)
  | .receive w got, inbox =>
    let n := min maxBlock (w.length - got.length)
    if inbox = [] then none else some (inbox.take n, inbox.drop n)
  | _, _ => none

/-- The bytes on the wire after the reply the thread is about to send. -/
def Pc.wire (sent : Bytes) : Pc → Option Bytes
  | .reply r => r.wire sent
  | _ => none

/-- A request handled by a thread that nothing interrupts: its reply, and the pool it leaves. -/
def handledAlone (now : Time) (op offset length fuel : Nat) (s : RamPool) (c : Conn) : Option Bytes × RamPool :=
  let r := thread.alone take now fuel s (dispatch s op offset length) c.inbox
  (r.2.wire c.sent, r.1)

section Alone

variable {now : Time} {s : RamPool} {inbox : Bytes}

theorem alone_idle (fuel : Nat) : thread.alone take now fuel s .idle inbox = (s, .idle) :=
  Machine.alone_stuck (Machine.own_stuck rfl rfl) fuel

theorem alone_reply (fuel : Nat) (r : Reply) :
    thread.alone take now fuel s (.reply r) inbox = (s, .reply r) :=
  Machine.alone_stuck (Machine.own_stuck rfl rfl) fuel

/-- One critical section. -/
theorem alone_advance {s' : RamPool} {pc pc' : Pc} (h : advance now s pc = some (s', pc')) (fuel : Nat) :
    thread.alone take now (fuel + 1) s pc inbox = thread.alone take now fuel s' pc' inbox :=
  Machine.alone_succ (Machine.own_advance h inbox) fuel

/-- The last section of a `borrow`. -/
theorem alone_borrowZero {c : Conn} (hc : c.faults = []) (fuel leaseId a n : Nat) :
    ((thread.alone take now (fuel + 1) s (.borrowZero leaseId a n) c.inbox).2.wire c.sent,
      (thread.alone take now (fuel + 1) s (.borrowZero leaseId a n) c.inbox).1) =
      (leaseReply leaseId a n c, s.zero a n) := by
  rw [alone_advance rfl, leaseReply]
  cases packLeaseReply leaseId a n with
  | error e =>
    simp only [alone_idle]
    rfl
  | ok payload =>
    simp only [alone_reply, delivered_reply hc]
    rfl

theorem alone_store (fuel : Nat) (w : Write) (data : Bytes) :
    thread.alone take now (fuel + 1) s (.store w data) inbox =
      (s.store w.offset w.length data, .reply ⟨opWrite, w.offset, w.length, []⟩) := by
  rw [alone_advance rfl, alone_reply]

/-- Of a payload of at most `maxBlock` bytes one `recv` takes all that has arrived. -/
theorem own_receive {w : Write} (hw : w.length ≤ maxBlock) (hpos : 0 < w.length) (hne : inbox ≠ []) :
    thread.own take now s (.receive w []) inbox =
      some (s, received w (inbox.take w.length), inbox.drop w.length) := by
  have hn : min maxBlock (w.length - ([] : Bytes).length) = w.length := by
    rw [List.length_nil]
    omega
  have htake : take (.receive w []) inbox = some (inbox.take w.length, inbox.drop w.length) := by
    simp only [take, if_neg hne, hn]
  have hchunk : inbox.take w.length ≠ [] ∧
      (inbox.take w.length).length ≤ min maxBlock (w.length - ([] : Bytes).length) := by
    refine ⟨fun h => hne ?_, ?_⟩
    · exact (List.take_eq_nil_iff.mp h).resolve_left (by omega)
    · rw [hn]
      exact List.length_take_le _ _
  have hdeliver : thread.deliver (inbox.take w.length) (.receive w []) =
      some (received w (inbox.take w.length)) := by
    simp only [thread, if_pos hchunk, List.nil_append]
  exact Machine.own_deliver rfl htake hdeliver

/-- A payload that has arrived is stored; for one that has not the thread waits. -/
theorem alone_received (fuel : Nat) {w : Write} (hw : w.length ≤ maxBlock) :
    thread.alone take now (fuel + 2) s (received w []) inbox =
      if w.length ≤ inbox.length then
        (s.store w.offset w.length (inbox.take w.length), .reply ⟨opWrite, w.offset, w.length, []⟩)
      else (s, .receive w inbox) := by
  obtain hz | hpos := Nat.eq_zero_or_pos w.length
  · rw [received, if_neg (by simp [hz]), alone_store, if_pos (by simp [hz]), hz, List.take_zero]
  rw [received, if_pos (by simpa using hpos)]
  by_cases hn : w.length ≤ inbox.length
  · have hne : inbox ≠ [] := List.ne_nil_of_length_pos (by omega)
    have hall : received w (inbox.take w.length) = .store w (inbox.take w.length) :=
      if_neg (by rw [List.length_take, Nat.min_eq_left hn]; omega)
    rw [Machine.alone_succ (own_receive hw hpos hne), hall, alone_store, if_pos hn]
  · rw [if_neg hn]
    by_cases hne : inbox = []
    · rw [hne]
      exact Machine.alone_stuck (Machine.own_stuck rfl rfl) _
    · have hshort : received w (inbox.take w.length) = .receive w inbox := by
        rw [List.take_of_length_le (by omega)]
        exact if_pos (by omega)
      have hrest : inbox.drop w.length = [] := List.drop_eq_nil_of_le (by omega)
      rw [Machine.alone_succ (own_receive hw hpos hne), hshort, hrest]
      exact Machine.alone_stuck (Machine.own_stuck rfl rfl) _

/-- **A thread that nothing interrupts does what `handle` does**: it sends the same reply, or none, and
leaves the same pool. -/
theorem handle_alone {c : Conn} (hc : c.faults = []) (now : Time) (op offset length fuel : Nat) (s : RamPool) :
    handledAlone now op offset length (fuel + 4) s c = outcome (handle now op offset length) (s, c) := by
  unfold handledAlone
  induction op using op_cases with
  | ping =>
    rw [outcome_ping, dispatch_ping, alone_reply, delivered_reply hc]
    rfl
  | info =>
    rw [outcome_info, delivered_reply hc, dispatch_info, alone_advance rfl, alone_advance rfl, alone_reply]
    rfl
  | borrow =>
    rw [outcome_borrow, dispatch_borrow]
    split
    · rw [alone_idle]
      rfl
    · rw [alone_advance rfl, alone_advance rfl]
      cases (s.cleanup now).scan (RamPool.roundUp length) (s.cleanup now).leases.values with
      | none =>
        simp only
        rw [alone_idle]
        rfl
      | some a =>
        simp only
        rw [alone_advance rfl]
        exact alone_borrowZero hc _ s.nextLeaseId a (RamPool.roundUp length)
  | release =>
    rw [outcome_release, dispatch_release]
    have hrun := run_release offset s
    cases hl : s.leases.get? offset with
    | none =>
      have ha : advance now s (.releasePop offset) = some (s, .idle) := by
        simp only [advance, hrun, hl]
      rw [alone_advance ha, alone_idle]
      rfl
    | some l =>
      have ha : advance now s (.releasePop offset) =
          some (s.popLease offset, .reply ⟨opRelease, offset, 0, []⟩) := by
        simp only [advance, hrun, hl]
      rw [alone_advance ha, alone_reply, delivered_header hc]
      rfl
  | keepalive =>
    rw [outcome_keepalive, dispatch_keepalive, alone_advance rfl, alone_advance rfl]
    cases (s.cleanup now).leases.get? offset with
    | none =>
      simp only
      rw [alone_idle]
      rfl
    | some l =>
      simp only
      rw [alone_advance rfl, alone_reply, delivered_header hc]
      rfl
  | read =>
    rw [outcome_read, dispatch_read]
    split
    · rw [alone_idle]
      rfl
    · rw [alone_advance rfl]
      cases findLease now offset length s with
      | none =>
        simp only
        rw [alone_idle]
        rfl
      | some e =>
        simp only
        rw [if_neg (by decide), alone_advance rfl, alone_reply, delivered_reply hc]
        rfl
  | write =>
    rw [outcome_write, dispatch_write, stored_eq hc]
    split
    · rw [alone_idle]
      rfl
    · rename_i hl
      rw [alone_advance rfl]
      cases findLease now offset length s with
      | none =>
        simp only
        rw [alone_idle]
        rfl
      | some e =>
        simp only
        rw [if_pos trivial, alone_received _ (Nat.le_of_not_lt hl)]
        split <;> rfl
  | unknown op h =>
    rw [outcome_unknown h, dispatch_unknown s offset length h, alone_idle]
    rfl

/-- Among the other threads, whatever they are at, a handler that no action comes between replies as `handle`
does and leaves the pool as it does. -/
theorem exec_handle {c : Conn} (hc : c.faults = []) {s : State} {tid : Nat} (hidle : s.pc tid = .idle)
    (op offset length : Nat) : ∃ (as : List Step) (pc : Pc), (∀ a ∈ as, a.Of tid) ∧
      exec thread.step s (.request tid (op, offset, length) :: as) =
        some ({ s with shared := (outcome (handle s.now op offset length) (s.shared, c)).2 }.goto tid pc) ∧
      pc.wire c.sent = (outcome (handle s.now op offset length) (s.shared, c)).1 := by
  have henter : thread.enter s.shared (op, offset, length) (s.pc tid) =
      some (dispatch s.shared op offset length) := by
    rw [hidle]
    rfl
  obtain ⟨as, has, hrun⟩ := Machine.exec_request take henter 4 c.inbox
  have halone := handle_alone hc s.now op offset length 0 s.shared
  refine ⟨as, _, has, hrun.trans ?_, congrArg Prod.fst halone⟩
  rw [← halone]
  rfl

end Alone

/-! ## The lease of a WRITE in flight -/

/-- The WRITE a thread is receiving or about to store. -/
def Pc.writing : Pc → Option Write
  | .receive w _ => some w
  | .store w _ => some w
  | _ => none

/-- The lease that authorised `w` is in the table, and no lease granted since meets the range. -/
structure Held (s : RamPool) (w : Write) : Prop where
  inTable : ∃ l, s.leases.get? w.leaseId = some l ∧ l.offset ≤ w.offset ∧
    w.offset + w.length ≤ l.offset + l.length
  granted : w.since ≤ s.nextLeaseId
  clear : ∀ j m, w.since ≤ j → s.leases.get? j = some m → Apart w.offset w.length m.offset m.length

/-- The lease that authorised `w` is in the table and alive, and no lease granted since meets the
range. -/
structure Authorised (s : State) (w : Write) : Prop where
  held : Held s.shared w
  alive : ∃ l, s.shared.leases.get? w.leaseId = some l ∧ l.Alive s.now

/-- What is asked of an action: if it stores the payload of a WRITE, the WRITE is authorised. -/
def StoresAuthorised (s : State) : Step → Prop
  | .critical tid =>
    match s.pc tid with
    | .store w _ => Authorised s w
    | _ => True
  | _ => True

/-- The lease of `w` has not run out, if it is in the table. -/
def InTime (s : State) (w : Write) : Prop :=
  ∀ l, s.shared.leases.get? w.leaseId = some l → l.Alive s.now

/-- The action takes no lease away from a WRITE in flight: it releases none, it cleans up none
(and so none has run out), and it grants no region that meets the WRITE's range. A WRITE stores
before its lease runs out. -/
def Undisturbed (s : State) : Step → Prop
  | .critical tid =>
    match s.pc tid with
    | .releasePop leaseId => ∀ k w, (s.pc k).writing = some w → w.leaseId ≠ leaseId
    | .infoCleanup | .borrowCleanup _ | .keepaliveCleanup _ =>
      ∀ k w, (s.pc k).writing = some w → InTime s w
    | .borrowInsert offset length =>
      ∀ k w, (s.pc k).writing = some w → Apart w.offset w.length offset length
    | .store w _ => InTime s w
    | _ => True
  | _ => True

/-- No new entry but those of `s`, and the lease of `w` still among them. -/
theorem Held.mono {s s' : RamPool} {w : Write} (h : Held s w) (hn : s'.nextLeaseId = s.nextLeaseId)
    (hkeep : ∀ l, s.leases.get? w.leaseId = some l →
      ∃ l', s'.leases.get? w.leaseId = some l' ∧ l'.offset = l.offset ∧ l'.length = l.length)
    (hnew : ∀ j m', s'.leases.get? j = some m' →
      ∃ m, s.leases.get? j = some m ∧ m'.offset = m.offset ∧ m'.length = m.length) : Held s' w := by
  obtain ⟨l, hl, h1, h2⟩ := h.inTable
  obtain ⟨l', hl', ho, hlen⟩ := hkeep l hl
  refine ⟨⟨l', hl', by omega, by omega⟩, by rw [hn]; exact h.granted, fun j m' hj hm' => ?_⟩
  obtain ⟨m, hm, ho', hlen'⟩ := hnew j m' hm'
  rw [ho', hlen']
  exact h.clear j m hj hm

/-- An undisturbed section keeps the lease of every WRITE in flight. -/
theorem held_advance {s : State} (hw : WellFormed s) {tid : Nat} {pool : RamPool} {pc : Pc}
    (hu : Undisturbed s (.critical tid)) (ha : advance s.now s.shared (s.pc tid) = some (pool, pc))
    {k : Nat} {w : Write} (hk : (s.pc k).writing = some w) (h : Held s.shared w) : Held pool w := by
  have he := advance_effect ha
  simp only [Undisturbed] at hu
  generalize s.pc tid = q at he hu
  cases he with
  | same => exact h
  | cleanup _ hc =>
    have hin : InTime s w := by
      cases q
      case infoCleanup => exact hu k w hk
      case borrowCleanup => exact hu k w hk
      case keepaliveCleanup => exact hu k w hk
      all_goals cases hc
    refine h.mono rfl (fun l hl => ⟨l, RamPool.get?_cleanup.mpr ⟨hl, hin l hl⟩, rfl, rfl⟩) ?_
    exact fun j m hm => ⟨m, (RamPool.get?_cleanup.mp hm).1, rfl, rfl⟩
  | pop i =>
    refine h.mono rfl (fun l hl => ⟨l, ?_, rfl, rfl⟩) fun j m hm => ⟨m, ?_, rfl, rfl⟩
    · rw [RamPool.get?_popLease, if_neg (hu k w hk)]
      exact hl
    · rw [RamPool.get?_popLease] at hm
      split at hm
      · cases hm
      · exact hm
  | insert a n =>
    have hget := RamPool.get?_insertLease s.now a n s.shared
    obtain ⟨l, hl, h1, h2⟩ := h.inTable
    have hid := hw.1.2.fresh _ l hl
    refine ⟨⟨l, ?_, h1, h2⟩, Nat.le_succ_of_le h.granted, fun j m hj hm => ?_⟩
    · rw [hget, if_neg (by omega)]
      exact hl
    · rw [hget] at hm
      split at hm
      · cases hm
        exact hu k w hk
      · exact h.clear j m hj hm
  | keepalive i =>
    refine h.mono rfl (fun l hl => ?_) fun j m hm => RamPool.get?_keepaliveLease_some hm
    rw [RamPool.get?_keepaliveLease, hl]
    split
    · exact ⟨_, rfl, rfl, rfl⟩
    · exact ⟨_, rfl, rfl, rfl⟩
  | zero i a n => exact ⟨h.inTable, h.granted, h.clear⟩
  | store w' d => exact ⟨h.inTable, h.granted, h.clear⟩

theorem writing_received (w : Write) (got : Bytes) : (received w got).writing = some w := by
  unfold received
  split <;> rfl

/-- A WRITE takes off in the section of its range check, under the lease found there. -/
theorem advance_writing {now : Time} {s s' : RamPool} (ht : s.Tabled) {pc pc' : Pc} {w : Write}
    (h : advance now s pc = some (s', pc')) (hw : pc'.writing = some w) : Held s' w := by
  cases pc
  case access op a n =>
    cases h
    cases hf : findLease now a n s with
    | none => rw [hf] at hw; cases hw
    | some e =>
      obtain ⟨hl, -, ho, hn⟩ := findLease_some hf
      simp only [hf] at hw
      split at hw
      · rw [writing_received] at hw
        cases hw
        refine ⟨⟨e.2, hl, ho, hn⟩, le_refl _, fun j m hj hm => ?_⟩
        have hid := ht.fresh j m hm
        exact absurd hid (Nat.not_lt.mpr hj)
      · cases hw
  case borrowScan n =>
    cases h
    cases hf : s.scan n s.leases.values <;> rw [hf] at hw <;> cases hw
  case borrowZero i a n =>
    cases h
    cases hf : packLeaseReply i a n <;> rw [hf] at hw <;> cases hw
  case releasePop i => simp only [advance] at h; split at h <;> cases h <;> cases hw
  case keepaliveLookup i =>
    cases h
    cases hf : s.leases.get? i <;> rw [hf] at hw <;> cases hw
  all_goals cases h
  all_goals cases hw

theorem dispatch_writing (s : RamPool) (op offset length : Nat) :
    (dispatch s op offset length).writing = none :=
  dispatch_rule (P := fun pc => pc.writing = none) s op offset length rfl rfl rfl (fun _ => rfl) rfl rfl
    fun _ => rfl

/-- A thread that only moves carries the WRITE it carried before. -/
theorem moves_writing {s : RamPool} {pc pc' : Pc} {w : Write} (h : thread.Moves s pc pc')
    (hw : pc'.writing = some w) : pc.writing = some w := by
  rcases h with ⟨r, h⟩ | ⟨chunk, h⟩ | h | rfl
  · cases pc <;> cases h
    rw [dispatch_writing] at hw
    cases hw
  · cases pc
    case receive w' got =>
      simp only [thread] at h
      split at h <;> cases h
      rw [writing_received] at hw
      exact hw
    all_goals cases h
  · cases pc <;> cases h
    cases hw
  · cases hw

/-- Every WRITE in flight still has its lease. -/
def Holds (s : State) : Prop := ∀ k w, (s.pc k).writing = some w → Held s.shared w

theorem holds_step {s s' : State} {a : Step} (hw : WellFormed s) (h : Holds s) (hu : Undisturbed s a)
    (hs : thread.step s a = some s') : Holds s' := by
  obtain ⟨now, -, -, rfl⟩ | ⟨tid, pool, pc, rfl, ha, rfl⟩ | ⟨tid, pc, -, hm, rfl⟩ :=
    Machine.step_cases hs
  · exact h
  · intro k w hk
    rw [Threads.goto_pc] at hk
    split at hk
    · exact advance_writing hw.1.2 ha hk
    · exact held_advance hw hu ha hk (h k w hk)
  · intro k w hk
    rw [Threads.goto_pc] at hk
    split at hk
    · exact h tid w (moves_writing hm hk)
    · exact h k w hk

/-- An undisturbed store is authorised. -/
theorem authorised_of_holds {s : State} {a : Step} (h : Holds s) (hu : Undisturbed s a) :
    StoresAuthorised s a := by
  cases a with
  | critical tid =>
    simp only [StoresAuthorised]
    simp only [Undisturbed] at hu
    cases hpc : s.pc tid
    case store w data =>
      rw [hpc] at hu
      have hh := h tid w (by rw [hpc]; rfl)
      obtain ⟨l, hl, -⟩ := hh.inTable
      exact ⟨hh, l, hl, hu l hl⟩
    all_goals trivial
  | tick now => trivial
  | request tid r => trivial
  | payload tid data => trivial
  | send tid => trivial
  | abort tid => trivial

/-- **A WRITE lands only in the lease that authorised it**, in every run, of any threads in any
interleaving, each of whose steps leaves the WRITEs in flight undisturbed. -/
theorem authorised_of_undisturbed {sizeMb : Int} {pool : RamPool}
    (h : RamPool.init sizeMb = .ok pool) (now : Time) (as : List Step)
    (hu : Guarded thread.step Undisturbed (thread.start pool now) as) :
    Guarded thread.step StoresAuthorised (thread.start pool now) as := by
  refine Guarded.imp (I := fun s => WellFormed s ∧ Holds s) ?_ (fun s a hi hc => ?_) ?_ hu
  · exact fun s a s' hi hc hs => ⟨wellFormed_step hi.1 hs, holds_step hi.1 hi.2 hc hs⟩
  · exact authorised_of_holds hi.2 hc
  · exact ⟨wellFormed_start h now, fun k w hk => by cases hk⟩

/-- One BORROW of one sector, from the request to the reply. -/
def borrowBy (tid : Nat) : List Step :=
  [.request tid (opBorrow, 0, 512), .critical tid, .critical tid, .critical tid, .critical tid,
    .send tid]

/-- The section of the range check, when it finds a lease. -/
theorem step_access {s : State} {tid op a n i : Nat} {l : Lease} (hpc : s.pc tid = .access op a n)
    (hf : findLease s.now a n s.shared = some (i, l)) :
    thread.step s (.critical tid) = some (s.goto tid
      (if op = opWrite then received ⟨i, a, n, s.shared.nextLeaseId⟩ [] else .load a n)) := by
  simp only [Machine.step, thread, hpc, advance, hf, Option.map_some]

theorem covers_first : Covers 0 0 1 (Lease.new 0 0 512) :=
  ⟨Lease.new_alive 0 0 512, by decide, by decide⟩

/-- An undisturbed BORROW and WRITE. -/
theorem authorised_of_undisturbed_once : Guarded thread.step StoresAuthorised (thread.start RamPool.fresh 0)
    (borrowBy 0 ++ [.request 0 (opWrite, 0, 1), .critical 0, .payload 0 [7], .critical 0]) := by
  refine authorised_of_undisturbed RamPool.init_one 0 _ ?_
  refine Guarded.cons rfl trivial ?_
  refine Guarded.cons rfl ?_ (Guarded.cons rfl trivial (Guarded.cons rfl ?_ ?_))
  · rintro (_ | k) w hk <;> cases hk
  · rintro (_ | k) w hk <;> cases hk
  refine Guarded.cons rfl trivial (Guarded.cons rfl trivial (Guarded.cons rfl trivial ?_))
  refine Guarded.cons (step_access rfl (List.find?_cons_of_pos (decide_eq_true covers_first)))
    trivial (Guarded.cons rfl trivial (Guarded.cons rfl ?_ trivial))
  intro l hl
  cases hl
  exact Lease.new_alive 0 0 512

/-- While thread 0 waits for the payload of its WRITE, thread 1 releases the lease and borrows the
same bytes again. -/
def stealing : List Step :=
  (borrowBy 0 ++ [.request 0 (opWrite, 0, 1)]) ++ .critical 0 ::
    ([.request 1 (opRelease, 1, 0), .critical 1, .send 1] ++ borrowBy 1 ++ [.payload 0 [7]])

/-- The WRITE then stores into bytes that were granted, and zeroed, for lease 2. -/
theorem authorised_fails : ¬ ∀ (sizeMb : Int) (pool : RamPool) (now : Time) (as : List Step),
    RamPool.init sizeMb = .ok pool →
      Guarded thread.step StoresAuthorised (thread.start pool now) as := by
  intro hall
  have hrun : ∃ s t u v w, exec thread.step (thread.start RamPool.fresh 0)
        (borrowBy 0 ++ [.request 0 (opWrite, 0, 1)]) = some s ∧
      thread.step s (.critical 0) = some t ∧
      exec thread.step t ([.request 1 (opRelease, 1, 0), .critical 1, .send 1] ++ borrowBy 1 ++
        [.payload 0 [7]]) = some u ∧
      thread.step u (.critical 0) = some v ∧ u.pc 0 = .store w [7] ∧
      u.shared.leases.get? w.leaseId = none :=
    ⟨_, _, _, _, _, rfl, step_access rfl (List.find?_cons_of_pos (decide_eq_true covers_first)), rfl,
      rfl, rfl, rfl⟩
  obtain ⟨s, t, u, v, w, h1, h2, h3, h4, hpc, hnone⟩ := hrun
  have hex : exec thread.step (thread.start RamPool.fresh 0) stealing = some u :=
    exec_append.mpr ⟨s, h1, exec_cons_some.mpr ⟨t, h2, h3⟩⟩
  have ha := (hall 1 RamPool.fresh 0 (stealing ++ [.critical 0]) RamPool.init_one).of_exec hex h4
  simp only [StoresAuthorised, hpc] at ha
  obtain ⟨l, hl, -⟩ := ha.held.inTable
  rw [hnone] at hl
  cases hl

end RAMProvider

end RamLink
