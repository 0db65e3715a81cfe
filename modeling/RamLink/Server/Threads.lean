import RamLink.Lib.Threads
import RamLink.Server

/-!
# RamLink.Server.Threads

`RAMLinkServer` with one handler thread per connection.

The threads share the pool and the clock; a thread's program counter says which critical section
it runs next and holds the handler's local variables. An action lets the clock advance, starts a
request on an idle thread, runs one critical section, completes the receipt of a payload, sends a
reply, or ends a handler whose connection failed, so a list of actions is an interleaving. The
sections are those of `RAMLinkServer` itself: `advance` calls the same functions as `handle`.

* `handle_alone`: a thread that nothing interrupts does what `handle` does; `exec_handle` finds it among
  the interleavings.
* `wellFormed_step`: in every interleaving the buffer keeps its size and every lease, granted or on
  its way to the table, is a non-empty range of whole sectors inside it.
* `exclusive_iff`: the live leases are disjoint in every state of a run exactly if `NoOverlap`
  holds at every step of it. Only two steps can break it: the insertion of a region that another
  handler has taken since it was found, and the `keepalive` of a lease that has expired since it
  was looked up and whose range has been granted again.
-/

namespace RamLink

open Lib

namespace RAMLinkServer

inductive Pc where
  | idle
  | infoCleanup
  | infoCount
  | borrowCleanup (requested : Nat)
  | borrowFind (length : Nat)
  | borrowInsert (offset length : Nat)
  | borrowZero (leaseId offset length : Nat)
  | releaseGet (leaseId : Nat)
  | releasePop (leaseId : Nat)
  | keepaliveGet (leaseId : Nat)
  | keepaliveUpdate (leaseId : Nat)
  /-- In `recv_all`, with no lock held. -/
  | receive (op offset length byteOffset byteLength : Nat)
  | store (op offset length byteOffset byteLength : Nat) (data : Bytes)
  | load (op offset length byteOffset byteLength : Nat)
  | reply (r : Reply)

/-- Where `handle` goes with a request before its first critical section; `idle` is a rejection. -/
def dispatch (s : RamPool) (op offset length : Nat) : Pc :=
  if op = opInfo then .infoCleanup
  else if op = opPing then .reply ⟨opPing, 0, 4, ascii "PONG"⟩
  else if op = opBorrow then .borrowCleanup length
  else if op = opRelease then .releaseGet offset
  else if op = opKeepalive then .keepaliveGet offset
  else if op = opRead ∨ op = opWrite then
    if maxBlock < length ∨ ¬ validRange offset length s then .idle
    else if op = opWrite then .receive opWrite offset length offset length
    else .load opRead offset length offset length
  else if op = opBlockInfo then
    .reply ⟨opBlockInfo, 0, 16, toBE 8 sectorSize ++ toBE 8 (sectors s)⟩
  else if op = opBlockRead ∨ op = opBlockWrite then
    if sectors s < offset ∨ sectors s - offset < length then .idle
    else if maxBlock < length * sectorSize then .idle
    else if op = opBlockWrite then
      .receive opBlockWrite offset length (offset * sectorSize) (length * sectorSize)
    else .load opBlockRead offset length (offset * sectorSize) (length * sectorSize)
  else .idle

/-- The next critical section of a thread, and where the thread is after it. -/
def advance (now : Time) (s : RamPool) : Pc → Option (RamPool × Pc)
  | .infoCleanup => some (s.cleanup now, .infoCount)
  | .infoCount =>
    let text := ascii (infoText s s.leases.size)
    some (s, .reply ⟨opInfo, 0, text.length, text⟩)
  | .borrowCleanup requested =>
    let length := RamPool.roundUp requested
    some (s.cleanup now, if length ≤ 0 ∨ s.size < length then .idle else .borrowFind length)
  | .borrowFind length =>
    some (s, match findFreeRegion now length s with
      | none => .idle
      | some offset => .borrowInsert offset length)
  | .borrowInsert offset length =>
    some ((s.insertLease now offset length).2,
      .borrowZero (s.insertLease now offset length).1 offset length)
  | .borrowZero leaseId offset length =>
    some (s.zero offset length, match packLeaseReply leaseId offset length with
      | .error _ => .idle
      | .ok payload => .reply ⟨opBorrow, leaseId, payload.length, payload⟩)
  | .releaseGet leaseId =>
    match (getLease now leaseId).run s with
    | .ok _ s' => some (s', .releasePop leaseId)
    | .error _ s' => some (s', .idle)
  | .releasePop leaseId => some (s.popLease leaseId, .reply ⟨opRelease, leaseId, 0, []⟩)
  | .keepaliveGet leaseId =>
    match (getLease now leaseId).run s with
    | .ok _ s' => some (s', .keepaliveUpdate leaseId)
    | .error _ s' => some (s', .idle)
  | .keepaliveUpdate leaseId =>
    some (s.keepaliveLease now leaseId, .reply ⟨opKeepalive, leaseId, 0, []⟩)
  | .store op offset length byteOffset byteLength data =>
    some (s.store byteOffset byteLength data, .reply ⟨op, offset, length, []⟩)
  | .load op offset length byteOffset byteLength =>
    some (s, .reply ⟨op, offset, length, s.load byteOffset byteLength⟩)
  | .idle | .receive .. | .reply _ => none

/-- The handler thread of one connection. -/
def thread : Machine RamPool Pc Time (Nat × Nat × Nat) Bytes where
  idle := .idle
  enter s r
    | .idle => some (dispatch s r.1 r.2.1 r.2.2)
    | _ => none
  advance := advance
  deliver data
    | .receive op offset length byteOffset byteLength =>
      if data.length = byteLength then some (.store op offset length byteOffset byteLength data)
      else none
    | _ => none
  finish
    | .reply _ => some .idle
    | _ => none

abbrev State := Threads RamPool Pc Time

abbrev Step := Action Time (Nat × Nat × Nat) Bytes

/-! ## Well-formed states -/

/-- The ranges a thread carries in its local variables lie inside the buffer. -/
def Pc.WellFormed (size : Nat) : Pc → Prop
  | .borrowFind length => ∃ requested, 0 < requested ∧ length = RamPool.roundUp requested
  | .borrowInsert offset length => RamPool.Placed size offset length
  | .borrowZero _ offset length => offset + length ≤ size
  | .receive _ _ _ byteOffset byteLength => byteOffset + byteLength ≤ size
  | .store _ _ _ byteOffset byteLength data =>
    byteOffset + byteLength ≤ size ∧ data.length = byteLength
  | .load _ _ _ byteOffset byteLength => byteOffset + byteLength ≤ size
  | _ => True

/-- The shared state and every thread are well-formed. -/
def WellFormed (s : State) : Prop :=
  (s.shared.Sized ∧ s.shared.Tabled) ∧ ∀ tid, (s.pc tid).WellFormed s.shared.size

theorem wellFormed_start {sizeMb : Int} {pool : RamPool} (h : RamPool.init sizeMb = .ok pool)
    (now : Time) : WellFormed (thread.start pool now) :=
  ⟨⟨RamPool.init_sized h, RamPool.init_tabled h⟩, fun _ => trivial⟩

section Dispatch

variable (s : RamPool) (offset length : Nat)

theorem dispatch_info : dispatch s opInfo offset length = .infoCleanup := rfl

theorem dispatch_ping : dispatch s opPing offset length = .reply ⟨opPing, 0, 4, ascii "PONG"⟩ := rfl

theorem dispatch_borrow : dispatch s opBorrow offset length = .borrowCleanup length := rfl

theorem dispatch_release : dispatch s opRelease offset length = .releaseGet offset := rfl

theorem dispatch_keepalive : dispatch s opKeepalive offset length = .keepaliveGet offset := rfl

theorem dispatch_blockInfo : dispatch s opBlockInfo offset length =
    .reply ⟨opBlockInfo, 0, 16, toBE 8 sectorSize ++ toBE 8 (sectors s)⟩ := rfl

theorem dispatch_read : dispatch s opRead offset length =
    if maxBlock < length ∨ ¬ validRange offset length s then .idle
    else .load opRead offset length offset length := rfl

theorem dispatch_write : dispatch s opWrite offset length =
    if maxBlock < length ∨ ¬ validRange offset length s then .idle
    else .receive opWrite offset length offset length := rfl

theorem dispatch_blockRead : dispatch s opBlockRead offset length =
    if sectors s < offset ∨ sectors s - offset < length then .idle
    else if maxBlock < length * sectorSize then .idle
    else .load opBlockRead offset length (offset * sectorSize) (length * sectorSize) := rfl

theorem dispatch_blockWrite : dispatch s opBlockWrite offset length =
    if sectors s < offset ∨ sectors s - offset < length then .idle
    else if maxBlock < length * sectorSize then .idle
    else .receive opBlockWrite offset length (offset * sectorSize) (length * sectorSize) := rfl

theorem dispatch_unknown {op : Nat} (h : op ∉ [opInfo, opPing, opBorrow, opRelease, opKeepalive, opRead,
    opWrite, opBlockInfo, opBlockRead, opBlockWrite]) : dispatch s op offset length = .idle := by
  simp only [List.mem_cons, List.not_mem_nil, or_false, not_or] at h
  unfold dispatch
  simp only [h, or_self, if_false]

end Dispatch

/-- A check that a request may fail. -/
theorem checked_rule {P : Pc → Prop} {p : Prop} [Decidable p] {pc : Pc} (hidle : P .idle)
    (hpc : ¬ p → P pc) : P (if p then .idle else pc) := by
  by_cases h : p
  · rw [if_pos h]
    exact hidle
  · rw [if_neg h]
    exact hpc h

/-- Where `dispatch` can go, and what it has checked then. -/
theorem dispatch_rule {P : Pc → Prop} (s : RamPool) (op offset length : Nat) (hidle : P .idle)
    (hinfo : op = opInfo → P .infoCleanup)
    (hping : op = opPing → P (.reply ⟨opPing, 0, 4, ascii "PONG"⟩))
    (hborrow : op = opBorrow → P (.borrowCleanup length))
    (hrelease : op = opRelease → P (.releaseGet offset))
    (hkeepalive : op = opKeepalive → P (.keepaliveGet offset))
    (hwrite : op = opWrite → ¬ (maxBlock < length ∨ ¬ validRange offset length s) →
      P (.receive opWrite offset length offset length))
    (hread : op = opRead → ¬ (maxBlock < length ∨ ¬ validRange offset length s) →
      P (.load opRead offset length offset length))
    (hblockInfo : op = opBlockInfo →
      P (.reply ⟨opBlockInfo, 0, 16, toBE 8 sectorSize ++ toBE 8 (sectors s)⟩))
    (hblockWrite : op = opBlockWrite → ¬ (sectors s < offset ∨ sectors s - offset < length) →
      P (.receive opBlockWrite offset length (offset * sectorSize) (length * sectorSize)))
    (hblockRead : op = opBlockRead → ¬ (sectors s < offset ∨ sectors s - offset < length) →
      P (.load opBlockRead offset length (offset * sectorSize) (length * sectorSize))) :
    P (dispatch s op offset length) := by
  induction op using op_cases with
  | info => exact hinfo rfl
  | ping => exact hping rfl
  | borrow => exact hborrow rfl
  | release => exact hrelease rfl
  | keepalive => exact hkeepalive rfl
  | read =>
    rw [dispatch_read]
    exact checked_rule hidle (hread rfl)
  | write =>
    rw [dispatch_write]
    exact checked_rule hidle (hwrite rfl)
  | blockInfo => exact hblockInfo rfl
  | blockRead =>
    rw [dispatch_blockRead]
    exact checked_rule hidle fun h => checked_rule hidle fun _ => hblockRead rfl h
  | blockWrite =>
    rw [dispatch_blockWrite]
    exact checked_rule hidle fun h => checked_rule hidle fun _ => hblockWrite rfl h
  | unknown op h =>
    rw [dispatch_unknown s offset length h]
    exact hidle

theorem dispatch_wellFormed (s : RamPool) (op offset length : Nat) :
    (dispatch s op offset length).WellFormed s.size := by
  have hbyte : ∀ {a n : Nat}, ¬ (maxBlock < n ∨ ¬ validRange a n s) → a + n ≤ s.size := by
    intro a n h
    simp only [validRange, decide_eq_true_eq, not_or, Decidable.not_not] at h
    omega
  refine dispatch_rule s op offset length trivial (fun _ => trivial) (fun _ => trivial)
    (fun _ => trivial) (fun _ => trivial) (fun _ => trivial) ?_ ?_ (fun _ => trivial) ?_ ?_
  · exact fun _ h => hbyte h
  · exact fun _ h => hbyte h
  · exact fun _ h => sectors_range h
  · exact fun _ h => sectors_range h

/-- A thread that only moves stays well-formed. -/
theorem moves_wellFormed {s : RamPool} {pc pc' : Pc} (hpc : pc.WellFormed s.size)
    (h : thread.Moves s pc pc') : pc'.WellFormed s.size := by
  rcases h with ⟨r, h⟩ | ⟨data, h⟩ | h | rfl
  · cases pc <;> cases h
    exact dispatch_wellFormed s r.1 r.2.1 r.2.2
  · cases pc
    case receive op offset length a n =>
      simp only [thread] at h
      split at h <;> cases h
      rename_i hl
      exact ⟨hpc, hl⟩
    all_goals cases h
  · cases pc <;> cases h
    trivial
  · trivial

/-- A lookup changes nothing but, when it fails on an expired lease, that lease's entry. -/
theorem getLease_finalState (now : Time) (i : Nat) (s : RamPool) :
    finalState (getLease now i) s = s ∨ finalState (getLease now i) s = s.popLease i := by
  simp only [finalState, run_getLease]
  cases s.leases.get? i with
  | none => exact Or.inl rfl
  | some l =>
    by_cases ha : l.Alive now
    · simp only [if_pos ha]; exact Or.inl trivial
    · simp only [if_neg ha]; exact Or.inr trivial

/-- What one critical section does to the pool. -/
inductive Effect (now : Time) (s : RamPool) : Pc → RamPool → Prop where
  | same (pc) : Effect now s pc s
  | cleanup (pc) : Effect now s pc (s.cleanup now)
  | pop (pc) (leaseId : Nat) : Effect now s pc (s.popLease leaseId)
  | insert (offset length : Nat) :
    Effect now s (.borrowInsert offset length) (s.insertLease now offset length).2
  | keepalive (leaseId : Nat) :
    Effect now s (.keepaliveUpdate leaseId) (s.keepaliveLease now leaseId)
  | zero (leaseId offset length : Nat) :
    Effect now s (.borrowZero leaseId offset length) (s.zero offset length)
  | store (op offset length byteOffset byteLength : Nat) (data : Bytes) :
    Effect now s (.store op offset length byteOffset byteLength data)
      (s.store byteOffset byteLength data)

theorem advance_effect {now : Time} {s s' : RamPool} {pc pc' : Pc}
    (h : advance now s pc = some (s', pc')) : Effect now s pc s' := by
  have hlook : ∀ (i : Nat) (pc : Pc), Effect now s pc (finalState (getLease now i) s) := by
    intro i pc
    obtain he | he := getLease_finalState now i s <;> rw [he]
    · exact .same pc
    · exact .pop pc i
  cases pc <;> simp only [advance, reduceCtorEq, Option.some.injEq, Prod.mk.injEq] at h
  case releaseGet i =>
    have := hlook i (.releaseGet i)
    simp only [finalState] at this
    split at h <;> rename_i he <;> rw [he] at this <;> cases h <;> exact this
  case keepaliveGet i =>
    have := hlook i (.keepaliveGet i)
    simp only [finalState] at this
    split at h <;> rename_i he <;> rw [he] at this <;> cases h <;> exact this
  all_goals obtain ⟨rfl, -⟩ := h
  all_goals constructor

/-- Only the insertion of a lease and the update of a keepalive put a new entry into the table. -/
theorem advance_leases {now : Time} {s s' : RamPool} {pc pc' : Pc}
    (hi : ∀ a n, pc ≠ .borrowInsert a n) (hk : ∀ i, pc ≠ .keepaliveUpdate i)
    (h : advance now s pc = some (s', pc')) {i : Nat} {l : Lease}
    (hl : s'.leases.get? i = some l) : s.leases.get? i = some l := by
  cases advance_effect h with
  | same => exact hl
  | cleanup => exact (RamPool.get?_cleanup.mp hl).1
  | pop _ j =>
    rw [RamPool.get?_popLease] at hl
    split at hl
    · cases hl
    · exact hl
  | insert a n => exact absurd rfl (hi a n)
  | keepalive j => exact absurd rfl (hk j)
  | zero => exact hl
  | store => exact hl

/-- A section that starts well-formed leaves the pool and its thread well-formed. -/
theorem advance_wellFormed {now : Time} {s s' : RamPool} {pc pc' : Pc} (hs : s.Sized)
    (ht : s.Tabled) (hpc : pc.WellFormed s.size) (h : advance now s pc = some (s', pc')) :
    s'.size = s.size ∧ s'.Sized ∧ s'.Tabled ∧ pc'.WellFormed s.size := by
  have hpool : s'.size = s.size ∧ s'.Sized ∧ s'.Tabled := by
    cases advance_effect h with
    | same => exact ⟨rfl, hs, ht⟩
    | cleanup => exact ⟨rfl, ⟨hs.length_memory, hs.sector_dvd⟩, ht.cleanup now⟩
    | pop _ i => exact ⟨rfl, ⟨hs.length_memory, hs.sector_dvd⟩, ht.popLease i⟩
    | insert a n => exact ⟨rfl, ⟨hs.length_memory, hs.sector_dvd⟩, ht.insertLease now hpc⟩
    | keepalive i => exact ⟨rfl, ⟨hs.length_memory, hs.sector_dvd⟩, ht.keepaliveLease now i⟩
    | zero i a n => exact ⟨rfl, hs.store (List.length_replicate ..) hpc, ht.store a n _⟩
    | store _ _ _ a n d => exact ⟨rfl, hs.store hpc.2 hpc.1, ht.store a n d⟩
  refine ⟨hpool.1, hpool.2.1, hpool.2.2, ?_⟩
  cases pc <;> simp only [advance, reduceCtorEq, Option.some.injEq, Prod.mk.injEq] at h
  case borrowCleanup requested =>
    obtain ⟨-, rfl⟩ := h
    split
    · trivial
    · rename_i hn
      exact ⟨requested, RamPool.roundUp_pos.mp (by omega), rfl⟩
  case borrowFind length =>
    obtain ⟨-, rfl⟩ := h
    obtain ⟨requested, hr, rfl⟩ := hpc
    cases hf : findFreeRegion now (RamPool.roundUp requested) s with
    | none => trivial
    | some c => exact findFreeRegion_placed ht hr hf
  case borrowInsert a n => obtain ⟨-, rfl⟩ := h; exact hpc.inside
  case borrowZero i a n => obtain ⟨-, rfl⟩ := h; cases packLeaseReply i a n <;> trivial
  case releaseGet i => split at h <;> cases h <;> trivial
  case keepaliveGet i => split at h <;> cases h <;> trivial
  all_goals obtain ⟨-, rfl⟩ := h; trivial

/-- Whatever the threads do, and in whatever order, the state stays well-formed. -/
theorem wellFormed_step {s s' : State} {a : Step} (h : WellFormed s) (hs : thread.step s a = some s') :
    WellFormed s' := by
  refine Machine.step_inv (I := fun p : RamPool => p.Sized ∧ p.Tabled)
    (W := fun p (pc : Pc) => pc.WellFormed p.size)
    ?_ (fun _ _ _ _ hpc hm => moves_wellFormed hpc hm) h hs
  intro now p pc p' pc' hp hpc ha
  obtain ⟨hz, h1, h2, h3⟩ := advance_wellFormed hp.1 hp.2 hpc ha
  refine ⟨⟨h1, h2⟩, ?_, fun q hq => ?_⟩
  · rw [hz]
    exact h3
  · rw [hz]
    exact hq

/-! ## A thread that nothing interrupts -/

/-- What a thread takes of the bytes that have arrived: all that `recv_all` waits for, or nothing. -/
def take : Pc → Bytes → Option (Bytes × Bytes)
  | .receive _ _ _ _ byteLength, inbox =>
    if byteLength ≤ inbox.length then some (inbox.take byteLength, inbox.drop byteLength) else none
  | _, _ => none

/-- The bytes on the wire after the reply the thread is about to send. -/
def Pc.wire (sent : Bytes) : Pc → Option Bytes
  | .reply r => r.wire sent
  | _ => none

section Alone

variable {now : Time} {s : RamPool} {inbox : Bytes}

/-- A request handled by a thread that nothing interrupts: its reply, and the pool it leaves. -/
def handledAlone (now : Time) (op offset length fuel : Nat) (s : RamPool) (c : Conn) : Option Bytes × RamPool :=
  let r := thread.alone take now fuel s (dispatch s op offset length) c.inbox
  (r.2.wire c.sent, r.1)

theorem alone_idle (fuel : Nat) : thread.alone take now fuel s .idle inbox = (s, .idle) :=
  Machine.alone_stuck (Machine.own_stuck rfl rfl) fuel

theorem alone_reply (fuel : Nat) (r : Reply) :
    thread.alone take now fuel s (.reply r) inbox = (s, .reply r) :=
  Machine.alone_stuck (Machine.own_stuck rfl rfl) fuel

/-- One critical section. -/
theorem alone_advance {s' : RamPool} {pc pc' : Pc} (h : advance now s pc = some (s', pc')) (fuel : Nat) :
    thread.alone take now (fuel + 1) s pc inbox = thread.alone take now fuel s' pc' inbox :=
  Machine.alone_succ (Machine.own_advance h inbox) fuel

/-- The lookup of a lease, and where the thread goes with it. -/
theorem alone_lookup {pc pc' : Pc} {leaseId : Nat}
    (h : advance now s pc = match (getLease now leaseId).run s with
      | .ok _ s' => some (s', pc')
      | .error _ s' => some (s', .idle)) (fuel : Nat) :
    thread.alone take now (fuel + 1) s pc inbox = match s.leases.get? leaseId with
      | none => (s, .idle)
      | some l => if l.Alive now then thread.alone take now fuel s pc' inbox else (s.popLease leaseId, .idle) := by
  rw [run_getLease] at h
  cases hl : s.leases.get? leaseId with
  | none =>
    rw [hl] at h
    rw [alone_advance h, alone_idle]
  | some l =>
    rw [hl] at h
    simp only at h ⊢
    by_cases ha : l.Alive now
    · rw [if_pos ha] at h ⊢
      exact alone_advance h fuel
    · rw [if_neg ha] at h ⊢
      rw [alone_advance h, alone_idle]

/-- The last section of a `borrow`. -/
theorem alone_borrowZero {c : Conn} (hc : c.faults = []) (fuel leaseId a n : Nat) :
    ((thread.alone take now (fuel + 1) s (.borrowZero leaseId a n) c.inbox).2.wire c.sent,
      (thread.alone take now (fuel + 1) s (.borrowZero leaseId a n) c.inbox).1) =
      (leaseReply leaseId a n c, s.zero a n) := by
  rw [alone_advance rfl, leaseReply]
  cases packLeaseReply leaseId a n with
  | error e =>
    simp only [alone_idle]
    rfl
  | ok payload =>
    simp only [alone_reply, delivered_reply hc]
    rfl

theorem alone_load (fuel op offset length a n : Nat) :
    thread.alone take now (fuel + 1) s (.load op offset length a n) inbox =
      (s, .reply ⟨op, offset, length, s.load a n⟩) := by
  rw [alone_advance rfl, alone_reply]

/-- A payload that has arrived is stored; for one that has not the thread waits. -/
theorem alone_receive (fuel op offset length a n : Nat) :
    thread.alone take now (fuel + 2) s (.receive op offset length a n) inbox =
      if n ≤ inbox.length then (s.store a n (inbox.take n), .reply ⟨op, offset, length, []⟩)
      else (s, .receive op offset length a n) := by
  by_cases hn : n ≤ inbox.length
  · have htake : take (.receive op offset length a n) inbox = some (inbox.take n, inbox.drop n) := if_pos hn
    have hdeliver : thread.deliver (inbox.take n) (.receive op offset length a n) =
        some (.store op offset length a n (inbox.take n)) :=
      if_pos (by rw [List.length_take, Nat.min_eq_left hn])
    rw [if_pos hn, Machine.alone_succ (Machine.own_deliver rfl htake hdeliver), alone_advance rfl,
      alone_reply]
  · have htake : take (.receive op offset length a n) inbox = none := if_neg hn
    rw [if_neg hn, Machine.alone_stuck (Machine.own_stuck rfl htake)]

/-- **A thread that nothing interrupts does what `handle` does**: it sends the same reply, or none, and
leaves the same pool. -/
theorem handle_alone {c : Conn} (hc : c.faults = []) (now : Time) (op offset length fuel : Nat) (s : RamPool) :
    handledAlone now op offset length (fuel + 4) s c = outcome (handle now op offset length) (s, c) := by
  unfold handledAlone
  induction op using op_cases with
  | info =>
    rw [outcome_info, delivered_reply hc]
    rw [dispatch_info, alone_advance rfl, alone_advance rfl, alone_reply]
    rfl
  | ping =>
    rw [outcome_ping, delivered_reply hc]
    rw [dispatch_ping, alone_reply]
    rfl
  | borrow =>
    rw [outcome_borrow, dispatch_borrow, alone_advance rfl]
    split
    · rw [alone_idle]
      rfl
    · rw [alone_advance rfl]
      cases findFreeRegion now (RamPool.roundUp length) (s.cleanup now) with
      | none =>
        simp only
        rw [alone_idle]
        rfl
      | some a =>
        simp only
        rw [alone_advance rfl]
        exact alone_borrowZero hc _ s.nextLeaseId a (RamPool.roundUp length)
  | release =>
    rw [outcome_release, dispatch_release, alone_lookup rfl]
    cases s.leases.get? offset with
    | none => rfl
    | some l =>
      simp only
      split
      · rw [alone_advance rfl, alone_reply, delivered_header hc]
        rfl
      · rfl
  | keepalive =>
    rw [outcome_keepalive, dispatch_keepalive, alone_lookup rfl]
    cases s.leases.get? offset with
    | none => rfl
    | some l =>
      simp only
      split
      · rw [alone_advance rfl, alone_reply, delivered_header hc]
        rfl
      · rfl
  | read =>
    rw [outcome_read, dispatch_read]
    split
    · rw [alone_idle]
      rfl
    · rw [alone_load, delivered_reply hc]
      rfl
  | write =>
    rw [outcome_write, dispatch_write, stored_eq hc]
    split
    · rw [alone_idle]
      rfl
    · rw [alone_receive]
      split <;> rfl
  | blockInfo =>
    rw [outcome_blockInfo, dispatch_blockInfo, alone_reply, delivered_reply hc]
    rfl
  | blockRead =>
    rw [outcome_blockRead, dispatch_blockRead]
    split
    · rw [alone_idle]
      rfl
    · split
      · rw [alone_idle]
        rfl
      · rw [alone_load, delivered_reply hc]
        rfl
  | blockWrite =>
    rw [outcome_blockWrite, dispatch_blockWrite, stored_eq hc]
    split
    · rw [alone_idle]
      rfl
    · split
      · rw [alone_idle]
        rfl
      · rw [alone_receive]
        split <;> rfl
  | unknown op h =>
    rw [outcome_unknown h, dispatch_unknown s offset length h, alone_idle]
    rfl

/-- Among the other threads, whatever they are at, a handler that no action comes between replies as `handle`
does and leaves the pool as it does. -/
theorem exec_handle {c : Conn} (hc : c.faults = []) {s : State} {tid : Nat} (hidle : s.pc tid = .idle)
    (op offset length : Nat) : ∃ (as : List Step) (pc : Pc), (∀ a ∈ as, a.Of tid) ∧
      exec thread.step s (.request tid (op, offset, length) :: as) =
        some ({ s with shared := (outcome (handle s.now op offset length) (s.shared, c)).2 }.goto tid pc) ∧
      pc.wire c.sent = (outcome (handle s.now op offset length) (s.shared, c)).1 := by
  have henter : thread.enter s.shared (op, offset, length) (s.pc tid) =
      some (dispatch s.shared op offset length) := by
    rw [hidle]
    rfl
  obtain ⟨as, has, hrun⟩ := Machine.exec_request take henter 4 c.inbox
  have halone := handle_alone hc s.now op offset length 0 s.shared
  refine ⟨as, _, has, hrun.trans ?_, congrArg Prod.fst halone⟩
  rw [← halone]
  rfl

end Alone

/-! ## Exclusive leases -/

/-- What is asked of the lease table: live leases are disjoint, and every lease is a non-empty range of
whole sectors inside the buffer. -/
structure Exclusive (s : State) : Prop where
  apart : ∀ i j l m, i ≠ j → s.shared.leases.get? i = some l → s.shared.leases.get? j = some m →
    l.Alive s.now → m.Alive s.now → Apart l.offset l.length m.offset m.length
  placed : ∀ i l, s.shared.leases.get? i = some l → RamPool.Placed s.shared.size l.offset l.length

/-- No other live lease meets the range. -/
def ApartFromLive (s : State) (leaseId offset length : Nat) : Prop :=
  ∀ j m, j ≠ leaseId → s.shared.leases.get? j = some m → m.Alive s.now →
    Apart offset length m.offset m.length

/-- The region a handler inserts has not been taken since it found it, and a lease that a handler
revives after it expired has not been granted again. -/
def NoOverlap (s : State) : Step → Prop
  | .critical tid =>
    match s.pc tid with
    | .borrowInsert offset length => ApartFromLive s s.shared.nextLeaseId offset length
    | .keepaliveUpdate leaseId => ∀ l, s.shared.leases.get? leaseId = some l → ¬ l.Alive s.now →
        ApartFromLive s leaseId l.offset l.length
    | _ => True
  | _ => True

theorem apartFromLive_iff {s : State} {leaseId offset length : Nat} : ApartFromLive s leaseId offset length ↔
    ∀ e ∈ s.shared.leases.entries, e.1 ≠ leaseId → e.2.Alive s.now →
      Apart offset length e.2.offset e.2.length := by
  constructor
  · exact fun h e he hne => h e.1 e.2 hne (Dict.mem_entries.mp he)
  · exact fun h j m hj hm => h (j, m) (Dict.mem_entries.mpr hm) hj

instance (s : State) (leaseId offset length : Nat) : Decidable (ApartFromLive s leaseId offset length) :=
  decidable_of_iff _ apartFromLive_iff.symm

instance (s : State) (a : Step) : Decidable (NoOverlap s a) := by
  unfold NoOverlap
  split
  · split
    · infer_instance
    · exact Option.decidableForallMem _
    · infer_instance
  · infer_instance

/-- A step that adds no entry to the table and lets the clock only advance. -/
theorem Exclusive.shrink {s s' : State} (h : Exclusive s) (hw : WellFormed s') (hn : s.now ≤ s'.now)
    (ht : ∀ i l, s'.shared.leases.get? i = some l → s.shared.leases.get? i = some l) : Exclusive s' :=
  ⟨fun i j l m hij hl hm al am => h.apart i j l m hij (ht i l hl) (ht j m hm) (al.mono hn) (am.mono hn),
    hw.1.2.placed⟩

/-- The insertion section. -/
theorem exclusive_insert {s s' : State} {offset length : Nat} (h : Exclusive s)
    (hw' : WellFormed s') (hp : s'.shared = (s.shared.insertLease s.now offset length).2)
    (hn : s'.now = s.now) : Exclusive s' ↔ ApartFromLive s s.shared.nextLeaseId offset length := by
  have hget := RamPool.get?_insertLease s.now offset length s.shared
  constructor
  · intro h' j m hj hm am
    refine h'.apart s.shared.nextLeaseId j (Lease.new s.now offset length) m (Ne.symm hj) ?_ ?_ ?_ ?_
    · rw [hp, hget, if_pos rfl]
    · rw [hp, hget, if_neg hj, hm]
    · rw [hn]; exact Lease.new_alive s.now offset length
    · rw [hn]; exact am
  · intro hf
    refine ⟨fun i j l m hij hl hm al am => ?_, hw'.1.2.placed⟩
    rw [hp, hget] at hl hm
    rw [hn] at al am
    split at hl <;> rename_i hi
    · cases hl
      rw [if_neg (fun hj => hij (hi.trans hj.symm))] at hm
      exact hf j m (fun hj => hij (hi.trans hj.symm)) hm am
    · split at hm <;> rename_i hj
      · cases hm
        exact (hf i l hi hl al).symm
      · exact h.apart i j l m hij hl hm al am

/-- The update of `Lease.keepalive`. -/
theorem exclusive_keepalive {s s' : State} {i : Nat} (h : Exclusive s) (hw' : WellFormed s')
    (hp : s'.shared = s.shared.keepaliveLease s.now i) (hn : s'.now = s.now) :
    Exclusive s' ↔ ∀ l, s.shared.leases.get? i = some l → ¬ l.Alive s.now →
      ApartFromLive s i l.offset l.length := by
  have hget := RamPool.get?_keepaliveLease s.now s.shared i
  constructor
  · intro h' l hl _ j m hj hm am
    refine h'.apart i j (l.keepalive s.now) m (Ne.symm hj) ?_ ?_ ?_ ?_
    · rw [hp, hget, if_pos rfl, hl, Option.map_some]
    · rw [hp, hget, if_neg hj, hm]
    · rw [hn]; exact Lease.keepalive_alive s.now l
    · rw [hn]; exact am
  · intro hf
    have hany : ∀ l, s.shared.leases.get? i = some l → ApartFromLive s i l.offset l.length := by
      intro l hl j m hj hm am
      by_cases al : l.Alive s.now
      · exact h.apart i j l m (Ne.symm hj) hl hm al am
      · exact hf l hl al j m hj hm am
    refine ⟨fun j k l m hjk hl hm al am => ?_, hw'.1.2.placed⟩
    rw [hp, hget] at hl hm
    rw [hn] at al am
    split at hl <;> rename_i hj
    · obtain ⟨l', hl', rfl⟩ := Option.map_eq_some_iff.mp hl
      rw [hj] at hl' hjk
      rw [if_neg (Ne.symm hjk)] at hm
      exact hany l' hl' k m (Ne.symm hjk) hm am
    · split at hm <;> rename_i hk
      · obtain ⟨m', hm', rfl⟩ := Option.map_eq_some_iff.mp hm
        rw [hk] at hm' hjk
        exact (hany m' hm' j l hjk hl al).symm
      · exact h.apart j k l m hjk hl hm al am

/-- Inside an exclusive state, a step leads to an exclusive one exactly if its guard holds. -/
theorem exclusive_step {s s' : State} {a : Step} (hw : WellFormed s) (h : Exclusive s)
    (hs : thread.step s a = some s') : Exclusive s' ↔ NoOverlap s a := by
  have hw' := wellFormed_step hw hs
  obtain ⟨now, rfl, hn, rfl⟩ | ⟨tid, pool, pc, rfl, ha, rfl⟩ | ⟨tid, pc, hne, -, rfl⟩ :=
    Machine.step_cases hs
  · exact iff_of_true (h.shrink hw' hn fun _ _ hl => hl) trivial
  · have hother : (∀ b n, s.pc tid ≠ .borrowInsert b n) → (∀ i, s.pc tid ≠ .keepaliveUpdate i) →
        Exclusive ({ s with shared := pool }.goto tid pc) :=
      fun hi hk => h.shrink hw' (le_refl _) (fun _ _ hl => advance_leases hi hk ha hl)
    cases hpc : s.pc tid
    case borrowInsert b n =>
      rw [hpc] at ha
      cases ha
      simp only [NoOverlap, hpc]
      exact exclusive_insert h hw' rfl rfl
    case keepaliveUpdate i =>
      rw [hpc] at ha
      cases ha
      simp only [NoOverlap, hpc]
      exact exclusive_keepalive h hw' rfl rfl
    all_goals
      simp only [NoOverlap, hpc, iff_true]
      exact hother (by simp [hpc]) (by simp [hpc])
  · refine iff_of_true (h.shrink hw' (le_refl _) fun _ _ hl => hl) ?_
    cases a
    case critical k => exact absurd rfl (hne k)
    all_goals trivial

theorem exclusive_start {sizeMb : Int} {pool : RamPool} (h : RamPool.init sizeMb = .ok pool)
    (now : Time) : Exclusive (thread.start pool now) := by
  obtain ⟨hp, -, -, -⟩ := RamPool.init_ok h
  have hnone : ∀ i l, (thread.start pool now).shared.leases.get? i ≠ some l := by
    intro i l hl
    rw [Machine.start, hp] at hl
    cases hl
  exact ⟨fun i j l m _ hl _ _ _ => absurd hl (hnone i l), fun i l hl => absurd hl (hnone i l)⟩

/-- **Exclusivity under concurrency**: a run of any threads in any interleaving has exclusive leases
in every state exactly if each of its steps meets `NoOverlap`. -/
theorem exclusive_iff {sizeMb : Int} {pool : RamPool} (h : RamPool.init sizeMb = .ok pool)
    (now : Time) (as : List Step) :
    Always thread.step Exclusive (thread.start pool now) as ↔
      Guarded thread.step NoOverlap (thread.start pool now) as :=
  always_iff_guarded (fun _ _ _ hw hs => wellFormed_step hw hs)
    (fun _ _ _ hw hx hs => exclusive_step hw hx hs) (wellFormed_start h now) (exclusive_start h now)

/-- Two BORROW requests at once, the first lease kept alive while the second is released, and a BORROW
after the first has expired. -/
def takingTurns : List Step :=
  [.request 0 (opBorrow, 0, 512), .request 1 (opBorrow, 0, 1000), .critical 0, .critical 1, .critical 0,
    .critical 0, .critical 1, .critical 1, .critical 1, .critical 0, .send 0, .send 1, .tick 60,
    .request 0 (opKeepalive, 1, 0), .request 1 (opRelease, 2, 0), .critical 0, .critical 1, .critical 1,
    .critical 0, .send 0, .send 1, .tick 180, .request 1 (opBorrow, 0, 512), .critical 1, .critical 1,
    .critical 1, .critical 1, .send 1]

theorem exclusive_iff_turns :
    RamPool.init 1 = .ok RamPool.fresh ∧
      (exec thread.step (thread.start RamPool.fresh 0) takingTurns).map
        (fun t => t.shared.leases.entries) = some [(3, ⟨0, 512, 300⟩)] ∧
      Guarded thread.step NoOverlap (thread.start RamPool.fresh 0) takingTurns ∧
      Always thread.step Exclusive (thread.start RamPool.fresh 0) takingTurns := by
  have hguarded : Guarded thread.step NoOverlap (thread.start RamPool.fresh 0) takingTurns := by
    decide +kernel
  exact ⟨RamPool.init_one, by decide +kernel, hguarded, (exclusive_iff RamPool.init_one 0 _).mpr hguarded⟩

/-- Two handlers that find the same free region before either inserts its lease. -/
def racingBorrows : List Step :=
  [.request 0 (opBorrow, 0, 512), .request 1 (opBorrow, 0, 512), .critical 0, .critical 1, .critical 0,
    .critical 1, .critical 0, .critical 1]

/-- Two BORROW requests at once are granted the same bytes. -/
theorem exclusive_fails :
    RamPool.init 1 = .ok RamPool.fresh ∧
      ¬ Always thread.step Exclusive (thread.start RamPool.fresh 0) racingBorrows := by
  refine ⟨RamPool.init_one, fun h => ?_⟩
  have hrun : ∃ t, exec thread.step (thread.start RamPool.fresh 0) racingBorrows = some t ∧ t.now = 0 ∧
      t.shared.leases.get? 1 = some (Lease.new 0 0 512) ∧
      t.shared.leases.get? 2 = some (Lease.new 0 0 512) := ⟨_, rfl, rfl, rfl, rfl⟩
  obtain ⟨t, ht, hn, h1, h2⟩ := hrun
  rw [← List.append_nil racingBorrows] at h
  have halive : (Lease.new 0 0 512).Alive t.now := by rw [hn]; exact Lease.new_alive 0 0 512
  have ha := (h.of_exec ht).apart 1 2 _ _ (by decide) h1 h2 halive halive
  simp [Apart] at ha

end RAMLinkServer

end RamLink
