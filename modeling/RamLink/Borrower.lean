import RamLink.Lib.Run
import RamLink.Wire
import Mathlib.Logic.Function.Basic

/-!
# RamLink.Borrower

`android/termux/client.py`: the main thread and the keepalive thread, which call `request` on one
socket.

The steps are the four socket calls of `request`, of either thread, and the provider's answer to the
next request it can decode. The two streams are byte strings, so a header of one thread can land
between the header and the payload of the other, and a reply can be taken by either.

* `Uncorrupted`: the provider has decoded the requests that were issued, in order and each with its own
  payload; every call that is no longer under way has returned the reply to its own request; the calls
  under way can go on, and do so until they return; and none raised.
* `InTurn`: no header is sent while the other thread is between its header and its payload, and reply
  headers are received in the order of the requests, each after the body of the one before.
* `uncorrupted_of_inTurn`: a run in turn is uncorrupted throughout. Nothing in `client.py` keeps the
  two threads in turn.
-/

namespace RamLink

open Lib

namespace Borrower

inductive Thread where
  | main
  | keepalive
deriving DecidableEq, Repr

def Thread.other : Thread → Thread
  | .main => .keepalive
  | .keepalive => .main

/-- A request, as the provider decodes it. -/
structure Message where
  op : Nat
  offset : Nat
  length : Nat
  payload : Bytes
deriving DecidableEq, Repr

/-- The calls of `request`. -/
inductive Call where
  | borrow (length : Nat)
  | write (offset : Nat) (payload : Bytes)
  | read (offset length : Nat)
  | release (leaseId : Nat)
  | keepalive (leaseId : Nat)

def Call.message : Call → Message
  | .borrow length => ⟨opBorrow, 0, length, []⟩
  | .write offset payload => ⟨opWrite, offset, payload.length, payload⟩
  | .read offset length => ⟨opRead, offset, length, []⟩
  | .release leaseId => ⟨opRelease, leaseId, 0, []⟩
  | .keepalive leaseId => ⟨opKeepalive, leaseId, 0, []⟩

/-- The keepalive thread sends KEEPALIVE and the main thread everything else. -/
def Call.thread : Call → Thread
  | .keepalive _ => .keepalive
  | _ => .main

namespace Message

/-- `struct` can pack the header. -/
def Fits (m : Message) : Prop := m.op < 256 ^ 1 ∧ m.offset < 256 ^ 8 ∧ m.length < 256 ^ 4

instance (m : Message) : Decidable m.Fits := inferInstanceAs (Decidable (_ ∧ _))

def header (m : Message) : Bytes := RamLink.header m.op m.offset m.length

def bytes (m : Message) : Bytes := m.header ++ m.payload

end Message

structure Reply where
  op : Nat
  offset : Nat
  body : Bytes
deriving DecidableEq, Repr

namespace Reply

def Fits (r : Reply) : Prop := r.op < 256 ^ 1 ∧ r.offset < 256 ^ 8 ∧ r.body.length < 256 ^ 4

/-- Correctly framed. -/
def bytes (r : Reply) : Bytes := RamLink.header r.op r.offset r.body.length ++ r.body

end Reply

/-- A provider: its reply to the last of the requests it has decoded. -/
structure Provider where
  answer : List Message → Reply
  fits : ∀ ms, (answer ms).Fits

/-- The next request in what the provider has received; a WRITE brings its payload along. A provider
that reads a bad magic closes the connection. -/
def decode (up : Bytes) : Option (Message × Bytes) :=
  if up.length < headerSize then none
  else
    let h := unpackHeader (up.take headerSize)
    if h.magic ≠ magic then none
    else
      let n := if h.op = opWrite then h.length else 0
      let rest := up.drop headerSize
      if rest.length < n then none
      else some (⟨h.op, h.offset, h.length, rest.take n⟩, rest.drop n)

/-- Where a thread is in `request`; a ticket is the position of its request among the issued ones. -/
inductive Pc where
  | idle
  | payload (ticket : Nat) (data : Bytes)
  | header (ticket : Nat)
  | body (ticket : Nat) (h : Header)

structure State where
  pc : Thread → Pc
  /-- Sent by the borrower, not yet taken by the provider. -/
  up : Bytes
  /-- Sent by the provider, not yet taken by the borrower. -/
  down : Bytes
  issued : List Message
  handled : List (Message × Reply)
  returned : List (Nat × Reply)
  raised : List Nat

namespace State

def start : State := ⟨fun _ => .idle, [], [], [], [], [], []⟩

def goto (s : State) (t : Thread) (pc : Pc) : State := { s with pc := Function.update s.pc t pc }

/-- What the provider has decoded. -/
def decoded (s : State) : List Message := s.handled.map Prod.fst

def replies (s : State) : List Reply := s.handled.map Prod.snd

end State

inductive Action where
  /-- `sock.sendall(HEADER.pack(..))`. -/
  | call (c : Call)
  /-- `sock.sendall(payload)`. -/
  | payload (t : Thread)
  /-- `recv_all(sock, HEADER.size)`. -/
  | header (t : Thread)
  /-- `recv_all(sock, rlen)`. -/
  | body (t : Thread)
  /-- The provider decodes and answers a request. -/
  | serve

def step (p : Provider) (s : State) : Action → Option State
  | .call c =>
    let m := c.message
    match s.pc c.thread with
    | .idle =>
      if m.Fits then
        some ({ s with up := s.up ++ m.header, issued := s.issued ++ [m] }.goto c.thread
          (if m.payload ≠ [] then .payload s.issued.length m.payload else .header s.issued.length))
      else none
    | _ => none
  | .payload t =>
    match s.pc t with
    | .payload k data => some ({ s with up := s.up ++ data }.goto t (.header k))
    | _ => none
  | .header t =>
    match s.pc t with
    | .header k =>
      if s.down.length < headerSize then none
      else
        let h := unpackHeader (s.down.take headerSize)
        let s := { s with down := s.down.drop headerSize }
        if h.magic ≠ magic then some ({ s with raised := k :: s.raised }.goto t .idle)
        else if h.length ≠ 0 then some (s.goto t (.body k h))
        else some ({ s with returned := (k, ⟨h.op, h.offset, []⟩) :: s.returned }.goto t .idle)
    | _ => none
  | .body t =>
    match s.pc t with
    | .body k h =>
      if s.down.length < h.length then none
      else
        some ({ s with
          down := s.down.drop h.length
          returned := (k, ⟨h.op, h.offset, s.down.take h.length⟩) :: s.returned }.goto t .idle)
    | _ => none
  | .serve =>
    match decode s.up with
    | none => none
    | some (m, rest) =>
      let r := p.answer (s.decoded ++ [m])
      some { s with up := rest, down := s.down ++ r.bytes, handled := s.handled ++ [(m, r)] }

/-- The two threads do not get between each other's calls. -/
def InTurn (s : State) : Action → Prop
  | .call c => ∀ k data, s.pc c.thread.other ≠ .payload k data
  | .header t => ∀ k, s.pc t = .header k →
      (∀ j, s.pc t.other = .header j → k < j) ∧ ∀ j h, s.pc t.other ≠ .body j h
  | _ => True

/-- No new call. -/
def Action.Continues : Action → Prop
  | .call _ => False
  | _ => True

/-- The call that a thread is in. -/
def Pc.current : Pc → Option Nat
  | .idle => none
  | .payload k _ | .header k | .body k _ => some k

/-- The socket calls that a thread has left. -/
def Pc.left : Pc → Nat
  | .idle => 0
  | .payload .. => 3
  | .header _ => 2
  | .body .. => 1

/-- The steps that the calls under way have left, at most. -/
def State.work (s : State) : Nat :=
  (s.issued.length - s.handled.length) + (s.pc .main).left + (s.pc .keepalive).left

/-- The provider decodes what is issued, and every call returns its own reply. -/
structure Uncorrupted (p : Provider) (s : State) : Prop where
  decoded : s.decoded <+: s.issued
  /-- Once everything sent has been taken, every request has been decoded. -/
  complete : s.up = [] → (∀ t k data, s.pc t ≠ .payload k data) → s.decoded = s.issued
  own : ∀ x ∈ s.returned, s.replies[x.1]? = some x.2
  /-- A call that is no longer under way has returned. -/
  returned : ∀ k < s.issued.length, (∃ r, (k, r) ∈ s.returned) ∨ ∃ t, (s.pc t).current = some k
  /-- Once every request has been decoded and every reply has been taken, no call is under way. -/
  settled : s.up = [] → s.down = [] → s.decoded = s.issued → ∀ t, s.pc t = .idle
  /-- A call under way can go on, or wait for one that can. -/
  progress : ∀ t, s.pc t ≠ .idle → ∃ a s', a.Continues ∧ InTurn s a ∧ step p s a = some s'
  /-- It does not go on for ever. -/
  ends : ∀ as s', (∀ a ∈ as, a.Continues) → Guarded (step p) InTurn s as → exec (step p) s as = some s' →
    as.length ≤ s.work
  unbroken : s.raised = []

/-! ## Decoding a stream of whole requests -/

/-- What `request` sends: a payload goes with a WRITE only, and its length is announced. -/
structure Message.WellFormed (m : Message) : Prop where
  fits : m.Fits
  length : m.op = opWrite → m.length = m.payload.length
  payload : m.op ≠ opWrite → m.payload = []

theorem Call.wellFormed {c : Call} (h : c.message.Fits) : c.message.WellFormed := by
  refine ⟨h, ?_, ?_⟩
  · cases c <;> simp [message, opWrite, opBorrow, opRead, opRelease, opKeepalive]
  · cases c <;> simp [message, opWrite]

theorem length_header (m : Message) : m.header.length = headerSize := RamLink.length_header ..

theorem unpack_header {m : Message} (h : m.Fits) :
    unpackHeader m.header = ⟨magic, m.op, m.offset, m.length⟩ :=
  unpackHeader_header h.1 h.2.1 h.2.2

/-- The length of the payload that the provider waits for. -/
theorem payload_length {m : Message} (h : m.WellFormed) :
    (if m.op = opWrite then m.length else 0) = m.payload.length := by
  split
  · rename_i hw
    exact h.length hw
  · rename_i hw
    rw [h.payload hw, List.length_nil]

theorem decode_bytes {m : Message} (h : m.WellFormed) (rest : Bytes) :
    decode (m.bytes ++ rest) = some (m, rest) := by
  have hlen : (m.bytes ++ rest).length = headerSize + m.payload.length + rest.length := by
    simp only [Message.bytes, List.length_append, length_header]
  have ht : (m.bytes ++ rest).take headerSize = m.header := by
    rw [Message.bytes, List.append_assoc, ← length_header m, List.take_left]
  have hd : (m.bytes ++ rest).drop headerSize = m.payload ++ rest := by
    rw [Message.bytes, List.append_assoc, ← length_header m, List.drop_left]
  unfold decode
  rw [if_neg (by omega), ht, hd, unpack_header h.fits]
  simp only [ne_eq, not_true_eq_false, if_false, payload_length h]
  rw [if_neg (by rw [List.length_append]; omega), List.take_left, List.drop_left]

/-- A header alone is not decoded while its payload is missing. -/
theorem decode_header {m : Message} (h : m.WellFormed) (hp : m.payload ≠ []) :
    decode m.header = none := by
  have hpos : 0 < m.payload.length := List.length_pos_iff.mpr hp
  have ht : m.header.take headerSize = m.header := by rw [← length_header m, List.take_length]
  have hd : m.header.drop headerSize = [] := by rw [← length_header m, List.drop_length]
  unfold decode
  rw [if_neg (by rw [length_header]; omega), ht, hd, unpack_header h.fits]
  simp only [ne_eq, not_true_eq_false, if_false, payload_length h]
  rw [if_pos (by simpa using hpos)]

/-! ## The invariant of a run in turn -/

/-- What is in the two streams. -/
structure Streams where
  /-- Whole requests the provider has not decoded. -/
  queue : List Message
  /-- A request whose header is sent and whose payload is not. -/
  half : Option Message
  /-- The replies whose header has been received. -/
  taken : List Reply
  /-- The replies whose header has not been received. -/
  waiting : List Reply
  /-- The body of the last reply taken, if it has not been received. -/
  rest : Bytes

def Pc.ticket : Pc → Option Nat
  | .payload k _ | .header k => some k
  | _ => none

/-- What a thread knows at each place, when `n` requests have been issued. -/
def Pc.Local (v : Streams) (n : Nat) : Pc → Prop
  | .idle => True
  | .payload k data => v.taken.length ≤ k ∧ k + 1 = n ∧ ∃ m, v.half = some m ∧ m.payload = data
  | .header k => v.taken.length ≤ k ∧ k < n
  | .body k h => ∃ r, v.taken[k]? = some r ∧ h = ⟨magic, r.op, r.offset, r.body.length⟩ ∧
      v.rest = r.body ∧ r.body ≠ []

structure Inv (v : Streams) (s : State) : Prop where
  issued : s.issued = s.decoded ++ v.queue ++ v.half.toList
  wellFormed : ∀ m ∈ v.queue ++ v.half.toList, m.WellFormed
  up : s.up = v.queue.flatMap Message.bytes ++ (v.half.toList.flatMap Message.header)
  replies : s.replies = v.taken ++ v.waiting
  fit : ∀ r ∈ v.waiting, r.Fits
  down : s.down = v.rest ++ v.waiting.flatMap Reply.bytes
  local_ : ∀ t, (s.pc t).Local v s.issued.length
  /-- Every request without a reply is some thread's, and no two threads have the same. -/
  covered : ∀ k, v.taken.length ≤ k → k < s.issued.length → ∃ t, (s.pc t).ticket = some k
  apart : ∀ t k, (s.pc t).ticket = some k → (s.pc t.other).ticket ≠ some k
  half : ∀ m, v.half = some m → m.payload ≠ [] ∧ ∃ t k, s.pc t = .payload k m.payload
  rest : v.rest ≠ [] → ∃ t k h, s.pc t = .body k h
  oneBody : ∀ t k h, s.pc t = .body k h → ∀ j h', s.pc t.other ≠ .body j h'
  own : ∀ x ∈ s.returned, s.replies[x.1]? = some x.2
  /-- A reply that was taken was returned, or its body is about to be. -/
  answered : ∀ k < v.taken.length, (∃ r, (k, r) ∈ s.returned) ∨ ∃ t h, s.pc t = .body k h
  unbroken : s.raised = []

theorem inv_start : Inv ⟨[], none, [], [], []⟩ .start where
  issued := rfl
  wellFormed := by simp
  up := rfl
  replies := rfl
  fit := by simp
  down := rfl
  local_ _ := trivial
  covered k _ hk := absurd hk (Nat.not_lt_zero k)
  apart t k h := by cases h
  half m h := by cases h
  rest h := absurd rfl h
  oneBody t k h h' := by cases h'
  own := by simp [State.start]
  answered k hk := absurd hk (Nat.not_lt_zero k)
  unbroken := rfl

theorem forall_thread {P : Thread → Prop} (t : Thread) : (∀ u, P u) ↔ P t ∧ P t.other := by
  constructor
  · exact fun h => ⟨h t, h t.other⟩
  · rintro ⟨h1, h2⟩ u
    cases t <;> cases u <;> assumption

/-- Where one thread is and `t` is not, the other one is. -/
theorem exists_other {P : Thread → Prop} {t : Thread} (h : ∃ u, P u) (ht : ¬ P t) : P t.other := by
  obtain ⟨u, hu⟩ := h
  revert u
  exact (forall_thread t).mpr ⟨fun hu => absurd hu ht, fun hu => hu⟩

@[simp] theorem other_ne (t : Thread) : t.other ≠ t := by cases t <;> decide

@[simp] theorem other_other (t : Thread) : t.other.other = t := by cases t <;> rfl

@[simp] theorem goto_pc_self (s : State) (t : Thread) (pc : Pc) : (s.goto t pc).pc t = pc :=
  Function.update_self ..

@[simp] theorem goto_pc_other (s : State) (t : Thread) (pc : Pc) :
    (s.goto t pc).pc t.other = s.pc t.other :=
  Function.update_of_ne (other_ne t) ..

/-! ## What one thread's move does to the facts about both -/

section Goto

variable {s : State} {t : Thread} {pc : Pc}

theorem apart_goto (h : ∀ k, pc.ticket = some k → (s.pc t.other).ticket ≠ some k) :
    ∀ u k, ((s.goto t pc).pc u).ticket = some k → ((s.goto t pc).pc u.other).ticket ≠ some k := by
  refine (forall_thread t).mpr ⟨fun k hk => ?_, fun k hk => ?_⟩
  · rw [goto_pc_self] at hk
    rw [goto_pc_other]
    exact h k hk
  · rw [goto_pc_other] at hk
    rw [other_other, goto_pc_self]
    exact fun hk' => h k hk' hk

theorem oneBody_goto (h : ∀ k hd, pc = .body k hd → ∀ j hd', s.pc t.other ≠ .body j hd') :
    ∀ u k hd, (s.goto t pc).pc u = .body k hd → ∀ j hd', (s.goto t pc).pc u.other ≠ .body j hd' := by
  refine (forall_thread t).mpr ⟨fun k hd hk j hd' => ?_, fun k hd hk j hd' => ?_⟩
  · rw [goto_pc_self] at hk
    rw [goto_pc_other]
    exact h k hd hk j hd'
  · rw [goto_pc_other] at hk
    rw [other_other, goto_pc_self]
    exact fun hj => h j hd' hj k hd hk

theorem covered_goto {k : Nat} (h : pc.ticket = some k ∨ (s.pc t.other).ticket = some k) :
    ∃ u, ((s.goto t pc).pc u).ticket = some k := by
  rcases h with h | h
  · exact ⟨t, by rw [goto_pc_self, h]⟩
  · exact ⟨t.other, by rw [goto_pc_other, h]⟩

/-- Some thread stays at a place that `t` did not leave. -/
theorem exists_goto {P : Pc → Prop} (h : ∃ u, P (s.pc u)) (ht : ¬ P (s.pc t)) :
    ∃ u, P ((s.goto t pc).pc u) := by
  refine ⟨t.other, ?_⟩
  rw [goto_pc_other]
  exact exists_other h ht

theorem local_goto {v : Streams} {n : Nat} (h : pc.Local v n) (ho : (s.pc t.other).Local v n) :
    ∀ u, ((s.goto t pc).pc u).Local v n := by
  refine (forall_thread t).mpr ⟨?_, ?_⟩
  · rwa [goto_pc_self]
  · rwa [goto_pc_other]

end Goto

namespace Inv

variable {v : Streams} {s : State} {t : Thread}

/-- A ticket is between the replies taken and the requests issued. -/
theorem ticket_lt (h : Inv v s) {k : Nat} (hk : (s.pc t).ticket = some k) :
    v.taken.length ≤ k ∧ k < s.issued.length := by
  have hl := h.local_ t
  cases hpc : s.pc t with
  | idle => simp [hpc, Pc.ticket] at hk
  | payload j data =>
    simp only [hpc, Pc.ticket, Option.some.injEq] at hk
    simp only [hpc, Pc.Local] at hl
    omega
  | header j =>
    simp only [hpc, Pc.ticket, Option.some.injEq] at hk
    simp only [hpc, Pc.Local] at hl
    omega
  | body j hd => simp [hpc, Pc.ticket] at hk

/-- The other thread has the ticket that `t` does not have. -/
theorem covered_other (h : Inv v s) {k : Nat} (hlo : v.taken.length ≤ k) (hk : k < s.issued.length)
    (hne : (s.pc t).ticket ≠ some k) : (s.pc t.other).ticket = some k :=
  exists_other (h.covered k hlo hk) hne

/-- A header is sent while no other request is half sent. -/
theorem issue (h : Inv v s) {m : Message} {pc : Pc} (queue : List Message) (half : Option Message)
    (hidle : s.pc t = .idle) (hhalf : v.half = none) (hw : m.WellFormed)
    (hq : queue ++ half.toList = v.queue ++ [m])
    (hup : queue.flatMap Message.bytes ++ half.toList.flatMap Message.header =
      v.queue.flatMap Message.bytes ++ m.header)
    (hpc : pc.Local { v with queue := queue, half := half } (s.issued.length + 1))
    (hticket : pc.ticket = some s.issued.length)
    (hnew : ∀ m', half = some m' → m'.payload ≠ [] ∧ ∃ k, pc = .payload k m'.payload) :
    Inv { v with queue := queue, half := half }
      ({ s with up := s.up ++ m.header, issued := s.issued ++ [m] }.goto t pc) where
  issued := by
    have hi := h.issued
    rw [hhalf, Option.toList_none, List.append_nil] at hi
    show s.issued ++ [m] = s.decoded ++ queue ++ half.toList
    rw [hi, List.append_assoc, List.append_assoc, hq]
  wellFormed := by
    intro m' hm'
    rw [hq, List.mem_append, List.mem_singleton] at hm'
    rcases hm' with hm' | rfl
    · exact h.wellFormed m' (List.mem_append_left _ hm')
    · exact hw
  up := by
    have hu := h.up
    rw [hhalf, Option.toList_none, List.flatMap_nil, List.append_nil] at hu
    show s.up ++ m.header = queue.flatMap Message.bytes ++ half.toList.flatMap Message.header
    rw [hup, hu]
  replies := h.replies
  fit := h.fit
  down := h.down
  local_ := by
    show ∀ u, Pc.Local _ (s.issued ++ [m]).length _
    rw [List.length_append, List.length_singleton]
    refine local_goto hpc ?_
    have hl := h.local_ t.other
    cases ho : s.pc t.other with
    | idle => trivial
    | payload k data =>
      simp only [ho, Pc.Local, hhalf] at hl
      obtain ⟨-, -, m', hm', -⟩ := hl
      cases hm'
    | header k =>
      simp only [ho, Pc.Local] at hl
      exact ⟨hl.1, Nat.lt_succ_of_lt hl.2⟩
    | body k hd =>
      simp only [ho, Pc.Local] at hl
      exact hl
  covered := by
    intro k hlo hk
    refine covered_goto ?_
    have hk' : k < (s.issued ++ [m]).length := hk
    rw [List.length_append, List.length_singleton] at hk'
    rcases Nat.lt_succ_iff_lt_or_eq.mp hk' with hlt | rfl
    · exact .inr (h.covered_other hlo hlt (by simp [hidle, Pc.ticket]))
    · exact .inl hticket
  apart := by
    refine apart_goto fun k hk hk' => ?_
    have := (h.ticket_lt hk').2
    rw [hticket] at hk
    cases hk
    exact absurd this (Nat.lt_irrefl _)
  half := by
    intro m' hm'
    obtain ⟨hne, k, hk⟩ := hnew m' hm'
    exact ⟨hne, t, k, by rw [goto_pc_self, hk]⟩
  rest hr := exists_goto (P := fun q => ∃ k hd, q = .body k hd) (h.rest hr) (by rw [hidle]; nofun)
  oneBody := by
    refine oneBody_goto fun k hd hk => ?_
    rw [hk] at hticket
    cases hticket
  own := h.own
  answered k hk := (h.answered k hk).imp_right fun hb =>
    exists_goto (P := fun q => ∃ hd, q = .body k hd) hb (by rw [hidle]; nofun)
  unbroken := h.unbroken

/-- The payload follows its header at once. -/
theorem sendPayload (h : Inv v s) {k : Nat} {data : Bytes} (hpc : s.pc t = .payload k data) :
    ∃ m, Inv { v with queue := v.queue ++ [m], half := none }
      ({ s with up := s.up ++ data }.goto t (.header k)) := by
  have hl := h.local_ t
  simp only [hpc, Pc.Local] at hl
  obtain ⟨hlo, hn, m, hm, rfl⟩ := hl
  have hk : (s.pc t).ticket = some k := by rw [hpc]; rfl
  have hother : ∀ j data', s.pc t.other ≠ .payload j data' := by
    -- a second half-sent request would have the same ticket
    intro j data' ho
    have hl := h.local_ t.other
    simp only [ho, Pc.Local] at hl
    have hj : j = k := by omega
    exact h.apart t k hk (by rw [ho, hj]; rfl)
  refine ⟨m, ?_, ?_, ?_, h.replies, h.fit, h.down, ?_, ?_, ?_, ?_, ?_, ?_, h.own, fun j hj => ?_,
    h.unbroken⟩
  · have hi := h.issued
    rw [hm] at hi
    show s.issued = s.decoded ++ (v.queue ++ [m]) ++ []
    rw [hi, List.append_nil, ← List.append_assoc]
    rfl
  · intro m' hm'
    refine h.wellFormed m' ?_
    rw [hm]
    simpa using hm'
  · have hu := h.up
    rw [hm] at hu
    show s.up ++ m.payload = (v.queue ++ [m]).flatMap Message.bytes ++ []
    rw [hu, List.flatMap_append]
    simp [Message.bytes]
  · refine local_goto ⟨hlo, show k < s.issued.length by omega⟩ ?_
    have hl := h.local_ t.other
    cases ho : s.pc t.other with
    | idle => trivial
    | payload j data' => exact absurd ho (hother j data')
    | header j =>
      rw [ho] at hl
      exact hl
    | body j hd =>
      rw [ho] at hl
      exact hl
  · intro j hlo' hj
    refine covered_goto ?_
    by_cases hjk : j = k
    · exact .inl (by rw [hjk]; rfl)
    · exact .inr (h.covered_other hlo' hj (by rw [hk]; exact fun he => hjk (Option.some.inj he).symm))
  · refine apart_goto fun j hj => ?_
    cases hj
    exact h.apart t k hk
  · intro m' hm'
    cases hm'
  · intro hr
    exact exists_goto (P := fun q => ∃ k hd, q = .body k hd) (h.rest hr) (by rw [hpc]; nofun)
  · refine oneBody_goto fun j hd hj => ?_
    cases hj
  · exact (h.answered j hj).imp_right fun hb =>
      exists_goto (P := fun q => ∃ hd, q = .body j hd) hb (by rw [hpc]; nofun)

/-- The provider decodes the first whole request, and nothing else. -/
theorem serve (h : Inv v s) {m : Message} {rest : Bytes} (hd : decode s.up = some (m, rest)) (r : Reply)
    (hr : r.Fits) :
    ∃ v', Inv v' { s with up := rest, down := s.down ++ r.bytes, handled := s.handled ++ [(m, r)] } := by
  have hup := h.up
  cases hq : v.queue with
  | nil =>
    -- at most a header is there
    exfalso
    rw [hq, List.flatMap_nil, List.nil_append] at hup
    cases hh : v.half with
    | none =>
      rw [hh] at hup
      rw [show s.up = [] from hup] at hd
      cases hd
    | some m' =>
      rw [hh] at hup
      have hm' : s.up = m'.header := by
        rw [hup]
        simp
      have hw := h.wellFormed m' (by rw [hh]; simp)
      rw [hm', decode_header hw (h.half m' hh).1] at hd
      cases hd
  | cons m' q =>
    have hw := h.wellFormed m' (by rw [hq]; simp)
    rw [hq, List.flatMap_cons, List.append_assoc] at hup
    rw [hup, decode_bytes hw] at hd
    obtain ⟨rfl, rfl⟩ := Prod.mk.inj (Option.some.inj hd)
    refine ⟨{ v with queue := q, waiting := v.waiting ++ [r] }, ?_, ?_, rfl, ?_, ?_, ?_, ?_, h.covered,
      h.apart, h.half, h.rest, h.oneBody, ?_, h.answered, h.unbroken⟩
    · show s.issued = (s.handled ++ [(m', r)]).map Prod.fst ++ q ++ v.half.toList
      rw [h.issued, hq, List.map_append]
      simp [State.decoded]
    · intro m'' hm''
      refine h.wellFormed m'' ?_
      rw [hq]
      simp only [List.cons_append, List.mem_cons]
      exact .inr hm''
    · show (s.handled ++ [(m', r)]).map Prod.snd = v.taken ++ (v.waiting ++ [r])
      rw [List.map_append, ← List.append_assoc, ← h.replies]
      rfl
    · intro r' hr'
      rcases List.mem_append.mp hr' with hr' | hr'
      · exact h.fit r' hr'
      · rw [List.mem_singleton.mp hr']
        exact hr
    · show s.down ++ r.bytes = v.rest ++ (v.waiting ++ [r]).flatMap Reply.bytes
      rw [h.down, List.flatMap_append]
      simp
    · intro u
      have hl := h.local_ u
      cases hu : s.pc u with
      | idle => trivial
      | payload j data =>
        rw [hu] at hl
        exact hl
      | header j =>
        rw [hu] at hl
        exact hl
      | body j hd =>
        rw [hu] at hl
        exact hl
    · intro x hx
      have hown := h.own x hx
      show ((s.handled ++ [(m', r)]).map Prod.snd)[x.1]? = some x.2
      rw [List.map_append]
      exact (List.getElem?_append_left (List.getElem?_eq_some_iff.mp hown).1).trans hown

/-- The oldest request's reply is next in the stream. -/
theorem next_reply (h : Inv v s) {k : Nat} (hpc : s.pc t = .header k)
    (hold : ∀ j, s.pc t.other = .header j → k < j) (hbody : ∀ j hd, s.pc t.other ≠ .body j hd)
    (hlen : headerSize ≤ s.down.length) :
    ∃ r w, v.waiting = r :: w ∧ v.taken.length = k ∧
      unpackHeader (s.down.take headerSize) = ⟨magic, r.op, r.offset, r.body.length⟩ ∧
      s.down.drop headerSize = r.body ++ w.flatMap Reply.bytes := by
  have hrest : v.rest = [] := by
    by_contra hr
    obtain ⟨j, hd, ho⟩ := exists_other (P := fun u => ∃ j hd, s.pc u = .body j hd) (h.rest hr)
      (by rw [hpc]; nofun)
    exact hbody j hd ho
  have hdown := h.down
  rw [hrest, List.nil_append] at hdown
  cases hw : v.waiting with
  | nil =>
    rw [hdown, hw] at hlen
    simp [headerSize] at hlen
  | cons r w =>
    have hfit := h.fit r (by rw [hw]; exact List.mem_cons_self ..)
    have hsize : (RamLink.header r.op r.offset r.body.length).length = headerSize :=
      RamLink.length_header ..
    rw [hw, List.flatMap_cons, Reply.bytes, List.append_assoc] at hdown
    refine ⟨r, w, rfl, ?_, ?_, ?_⟩
    · -- the first request without a reply is the other thread's only if it is older
      have hk : (s.pc t).ticket = some k := by rw [hpc]; rfl
      obtain ⟨hlo, hlt⟩ := h.ticket_lt hk
      by_contra hne
      have hother : (s.pc t.other).ticket = some v.taken.length :=
        h.covered_other (Nat.le_refl _) (by omega) (by rw [hk]; exact fun he => hne (Option.some.inj he).symm)
      have hl := h.local_ t.other
      cases ho : s.pc t.other with
      | idle => simp [ho, Pc.ticket] at hother
      | payload j data =>
        simp only [ho, Pc.ticket, Option.some.injEq] at hother
        simp only [ho, Pc.Local] at hl
        omega
      | header j =>
        simp only [ho, Pc.ticket, Option.some.injEq] at hother
        have := hold j ho
        omega
      | body j hd => exact hbody j hd ho
    · rw [hdown, ← hsize, List.take_left]
      exact unpackHeader_header hfit.1 hfit.2.1 hfit.2.2
    · rw [hdown, ← hsize, List.drop_left]

/-- A thread takes the header of its own reply. -/
theorem takeHeader (h : Inv v s) {k : Nat} {r : Reply} {w : List Reply} {pc : Pc}
    {returned : List (Nat × Reply)} (hpc : s.pc t = .header k) (hw : v.waiting = r :: w)
    (hk : v.taken.length = k) (hbody : ∀ j hd, s.pc t.other ≠ .body j hd)
    (hdrop : s.down.drop headerSize = r.body ++ w.flatMap Reply.bytes)
    (hlocal : pc.Local { v with taken := v.taken ++ [r], waiting := w, rest := r.body } s.issued.length)
    (hticket : pc.ticket = none) (hrest : r.body ≠ [] → ∃ hd, pc = .body k hd)
    (hret : ∀ x ∈ returned, x ∈ s.returned ∨ x = (k, r)) (hkeep : ∀ x ∈ s.returned, x ∈ returned)
    (hnow : (k, r) ∈ returned ∨ ∃ hd, pc = .body k hd) :
    Inv { v with taken := v.taken ++ [r], waiting := w, rest := r.body }
      ({ s with down := s.down.drop headerSize, returned := returned }.goto t pc) where
  issued := h.issued
  wellFormed := h.wellFormed
  up := h.up
  replies := by
    show s.replies = v.taken ++ [r] ++ w
    rw [h.replies, hw, List.append_assoc]
    rfl
  fit r' hr' := h.fit r' (by rw [hw]; exact List.mem_cons_of_mem _ hr')
  down := hdrop
  local_ := by
    refine local_goto hlocal ?_
    have hl := h.local_ t.other
    have hne : (s.pc t.other).ticket ≠ some k := h.apart t k (by rw [hpc]; rfl)
    cases ho : s.pc t.other with
    | idle => trivial
    | payload j data =>
      simp only [ho, Pc.Local] at hl
      have hjk : j ≠ k := fun he => hne (by rw [ho, he]; rfl)
      refine ⟨?_, hl.2⟩
      rw [List.length_append, List.length_singleton]
      omega
    | header j =>
      simp only [ho, Pc.Local] at hl
      have hjk : j ≠ k := fun he => hne (by rw [ho, he]; rfl)
      refine ⟨?_, hl.2⟩
      rw [List.length_append, List.length_singleton]
      omega
    | body j hd => exact absurd ho (hbody j hd)
  covered := by
    intro j hlo hj
    rw [List.length_append, List.length_singleton] at hlo
    refine covered_goto (.inr (h.covered_other (by omega) hj ?_))
    rw [hpc]
    exact fun he => absurd (Option.some.inj he) (by omega)
  apart := by
    refine apart_goto fun j hj => ?_
    rw [hticket] at hj
    cases hj
  half m hm := ⟨(h.half m hm).1,
    exists_goto (P := fun q => ∃ j, q = .payload j m.payload) (h.half m hm).2 (by rw [hpc]; nofun)⟩
  rest hr := by
    obtain ⟨hd, hb⟩ := hrest hr
    exact ⟨t, k, hd, by rw [goto_pc_self, hb]⟩
  oneBody := oneBody_goto fun _ _ _ => hbody
  own x hx := by
    rcases hret x hx with hx | rfl
    · exact h.own x hx
    · show s.replies[k]? = some r
      rw [h.replies, hw, List.getElem?_append_right (Nat.le_of_eq hk), hk, Nat.sub_self]
      rfl
  answered j hj := by
    rw [List.length_append, List.length_singleton] at hj
    rcases Nat.lt_succ_iff_lt_or_eq.mp hj with hlt | rfl
    · rcases h.answered j hlt with ⟨r', hr'⟩ | hb
      · exact .inl ⟨r', hkeep _ hr'⟩
      · obtain ⟨hd, ho⟩ := exists_other (P := fun u => ∃ hd, s.pc u = .body j hd) hb (by rw [hpc]; nofun)
        exact absurd ho (hbody j hd)
    · rw [hk]
      rcases hnow with hn | ⟨hd, hb⟩
      · exact .inl ⟨r, hn⟩
      · exact .inr ⟨t, hd, by rw [goto_pc_self, hb]⟩
  unbroken := h.unbroken

/-- The body of a reply goes to the thread that took its header. -/
theorem takeBody (h : Inv v s) {k : Nat} {hd : Header} (hpc : s.pc t = .body k hd) :
    Inv { v with rest := [] } ({ s with
      down := s.down.drop hd.length
      returned := (k, ⟨hd.op, hd.offset, s.down.take hd.length⟩) :: s.returned }.goto t .idle) := by
  have hl := h.local_ t
  simp only [hpc, Pc.Local] at hl
  obtain ⟨r, hr, rfl, hrest, -⟩ := hl
  have hdown := h.down
  rw [hrest] at hdown
  refine ⟨h.issued, h.wellFormed, h.up, h.replies, h.fit, ?_, ?_, ?_, ?_, ?_, ?_, ?_, ?_, ?_, h.unbroken⟩
  · show s.down.drop r.body.length = [] ++ v.waiting.flatMap Reply.bytes
    rw [hdown, List.drop_left, List.nil_append]
  · refine local_goto trivial ?_
    have hl := h.local_ t.other
    cases ho : s.pc t.other with
    | idle => trivial
    | payload j data =>
      rw [ho] at hl
      exact hl
    | header j =>
      rw [ho] at hl
      exact hl
    | body j hd => exact absurd ho (h.oneBody t k _ hpc j hd)
  · intro j hlo hj
    refine covered_goto (.inr (h.covered_other hlo hj ?_))
    rw [hpc]
    exact fun he => by cases he
  · refine apart_goto fun j hj => ?_
    cases hj
  · intro m hm
    obtain ⟨hne, hu⟩ := h.half m hm
    exact ⟨hne, exists_goto (P := fun q => ∃ j, q = .payload j m.payload) hu (by rw [hpc]; nofun)⟩
  · exact fun hne => absurd rfl hne
  · refine oneBody_goto fun j hd hj => ?_
    cases hj
  · intro x hx
    rcases List.mem_cons.mp hx with rfl | hx
    · show s.replies[k]? = some ⟨r.op, r.offset, s.down.take r.body.length⟩
      rw [hdown, List.take_left, h.replies, List.getElem?_append_left (List.getElem?_eq_some_iff.mp hr).1,
        hr]
    · exact h.own x hx
  · intro j hj
    rcases h.answered j hj with ⟨r', hr'⟩ | ⟨u, hd, hu⟩
    · exact .inl ⟨r', List.mem_cons_of_mem _ hr'⟩
    · have hjk : ∀ u, s.pc u = .body j hd → j = k := by
        refine (forall_thread t).mpr ⟨fun ht => ?_, fun ho => absurd ho (h.oneBody t k _ hpc j hd)⟩
        rw [hpc] at ht
        cases ht
        rfl
      rw [hjk u hu]
      exact .inl ⟨_, List.mem_cons_self ..⟩

/-! ## What the invariant says of the calls under way -/

theorem half_eq_none (h : Inv v s) (hno : ∀ t k data, s.pc t ≠ .payload k data) : v.half = none := by
  cases hh : v.half with
  | none => rfl
  | some m =>
    obtain ⟨-, t, k, ht⟩ := h.half m hh
    exact absurd ht (hno t k _)

theorem handled_le (h : Inv v s) : s.handled.length ≤ s.issued.length := by
  have hi := congrArg List.length h.issued
  simp only [State.decoded, List.length_append, List.length_map] at hi
  omega

theorem complete (h : Inv v s) (hup : s.up = []) (hno : ∀ t k data, s.pc t ≠ .payload k data) :
    s.decoded = s.issued := by
  have hq : v.queue = [] := by
    cases hq : v.queue with
    | nil => rfl
    | cons m q =>
      have hlen := congrArg List.length (hup.symm.trans h.up)
      rw [hq] at hlen
      simp only [List.flatMap_cons, List.length_append, Message.bytes, length_header, headerSize,
        List.length_nil] at hlen
      omega
  rw [h.issued, hq, h.half_eq_none hno]
  simp

theorem returned (h : Inv v s) {k : Nat} (hk : k < s.issued.length) :
    (∃ r, (k, r) ∈ s.returned) ∨ ∃ t, (s.pc t).current = some k := by
  by_cases hlo : k < v.taken.length
  · refine (h.answered k hlo).imp_right ?_
    rintro ⟨t, hd, ht⟩
    exact ⟨t, by rw [ht]; rfl⟩
  · obtain ⟨t, ht⟩ := h.covered k (Nat.le_of_not_lt hlo) hk
    refine .inr ⟨t, ?_⟩
    cases hpc : s.pc t with
    | idle => rw [hpc] at ht; cases ht
    | payload j data => rw [hpc] at ht; exact ht
    | header j => rw [hpc] at ht; exact ht
    | body j hd => rw [hpc] at ht; cases ht

/-- Where no reply is waiting and everything has been decoded, no thread waits for a header. -/
theorem taken_of_waiting_nil (h : Inv v s) (hw : v.waiting = []) (hall : s.decoded = s.issued) :
    v.taken.length = s.issued.length := by
  have hr := congrArg List.length h.replies
  have hd := congrArg List.length hall
  simp only [hw, State.replies, State.decoded, List.append_nil, List.length_map] at hr hd
  omega

theorem settled (h : Inv v s) (hdown : s.down = []) (hall : s.decoded = s.issued) (t : Thread) :
    s.pc t = .idle := by
  obtain ⟨hrest, hbytes⟩ := List.append_eq_nil_iff.mp (h.down.symm.trans hdown)
  have hw : v.waiting = [] := by
    cases hw : v.waiting with
    | nil => rfl
    | cons r w =>
      have hlen := congrArg List.length hbytes
      rw [hw] at hlen
      simp only [List.flatMap_cons, List.length_append, Reply.bytes, RamLink.length_header, headerSize,
        List.length_nil] at hlen
      omega
  have hhalf : v.half.toList = [] := by
    have hi := h.issued
    rw [← hall, List.append_assoc] at hi
    exact (List.append_eq_nil_iff.mp (List.self_eq_append_right.mp hi)).2
  have htaken := h.taken_of_waiting_nil hw hall
  have hl := h.local_ t
  cases hpc : s.pc t with
  | idle => rfl
  | payload k data =>
    rw [hpc] at hl
    obtain ⟨-, -, m, hm, -⟩ := hl
    rw [hm] at hhalf
    cases hhalf
  | header k =>
    rw [hpc] at hl
    have := hl.1
    have := hl.2
    omega
  | body k hd =>
    rw [hpc] at hl
    obtain ⟨r, -, -, hr, hne⟩ := hl
    exact absurd (hr.symm.trans hrest) hne

/-- The oldest call without a reply can take the one that is next. -/
theorem header_enabled (h : Inv v s) {r : Reply} {w : List Reply} (hw : v.waiting = r :: w)
    (hrest : v.rest = []) (hpay : ∀ t k data, s.pc t ≠ .payload k data)
    (hbody : ∀ t k hd, s.pc t ≠ .body k hd) (p : Provider) :
    ∃ t s', InTurn s (.header t) ∧ step p s (.header t) = some s' := by
  have hlt : v.taken.length < s.issued.length := by
    have hr := congrArg List.length h.replies
    have := h.handled_le
    simp only [hw, State.replies, List.length_map, List.length_append, List.length_cons] at hr
    omega
  obtain ⟨t, ht⟩ := h.covered v.taken.length (Nat.le_refl _) hlt
  have hpc : s.pc t = .header v.taken.length := by
    cases hpc : s.pc t with
    | idle => rw [hpc] at ht; cases ht
    | payload j data => exact absurd hpc (hpay t j data)
    | header j => rw [hpc] at ht; cases ht; rfl
    | body j hd => rw [hpc] at ht; cases ht
  have hturn : InTurn s (.header t) := by
    intro k hk
    rw [hpc] at hk
    cases hk
    refine ⟨fun j hj => ?_, hbody t.other⟩
    have hl := h.local_ t.other
    have hne := h.apart t _ ht
    rw [hj] at hl hne
    have hjk : j ≠ v.taken.length := fun he => hne (congrArg some he)
    have := hl.1
    omega
  have hlen : headerSize ≤ s.down.length := by
    rw [h.down, hrest, hw]
    simp only [List.flatMap_cons, List.length_append, Reply.bytes, RamLink.length_header]
    omega
  refine ⟨t, ?_⟩
  simp only [step, hpc, if_neg (Nat.not_lt.mpr hlen)]
  split
  · exact ⟨_, hturn, rfl⟩
  · split
    · exact ⟨_, hturn, rfl⟩
    · exact ⟨_, hturn, rfl⟩

/-- While a call is under way, a thread or the provider has something to do. -/
theorem progress (h : Inv v s) (p : Provider) (ht : s.pc t ≠ .idle) :
    ∃ a s', a.Continues ∧ InTurn s a ∧ step p s a = some s' := by
  by_cases hpay : ∃ u k data, s.pc u = .payload k data
  · obtain ⟨u, k, data, hu⟩ := hpay
    refine ⟨.payload u, ?_⟩
    simp only [step, hu]
    exact ⟨_, trivial, trivial, rfl⟩
  have hpay' : ∀ u k data, s.pc u ≠ .payload k data := fun u k data hu => hpay ⟨u, k, data, hu⟩
  have hhalf := h.half_eq_none hpay'
  cases hq : v.queue with
  | cons m q =>
    -- the provider has a whole request
    have hup : s.up = m.bytes ++ q.flatMap Message.bytes := by
      rw [h.up, hq, hhalf]
      simp
    have hd := decode_bytes (h.wellFormed m (by rw [hq]; simp)) (q.flatMap Message.bytes)
    refine ⟨.serve, ?_⟩
    simp only [step, hup, hd]
    exact ⟨_, trivial, trivial, rfl⟩
  | nil =>
    have hall : s.decoded = s.issued := by
      rw [h.issued, hq, hhalf]
      simp
    by_cases hbody : ∃ u k hd, s.pc u = .body k hd
    · obtain ⟨u, k, hd, hu⟩ := hbody
      have hl := h.local_ u
      rw [hu] at hl
      obtain ⟨r, -, rfl, hr, -⟩ := hl
      have hlen : ¬ s.down.length < r.body.length := by
        rw [h.down, hr, List.length_append]
        omega
      refine ⟨.body u, ?_⟩
      simp only [step, hu, if_neg hlen]
      exact ⟨_, trivial, trivial, rfl⟩
    · have hbody' : ∀ u k hd, s.pc u ≠ .body k hd := fun u k hd hu => hbody ⟨u, k, hd, hu⟩
      have hrest : v.rest = [] := by
        by_contra hr
        obtain ⟨u, k, hd, hu⟩ := h.rest hr
        exact hbody' u k hd hu
      cases hw : v.waiting with
      | nil =>
        -- then nothing is under way
        have hdown : s.down = [] := by
          rw [h.down, hrest, hw]
          rfl
        exact absurd (h.settled hdown hall t) ht
      | cons r w =>
        obtain ⟨u, s', hturn, hs⟩ := h.header_enabled hw hrest hpay' hbody' p
        exact ⟨.header u, s', trivial, hturn, hs⟩

end Inv

/-- What one step can do. -/
theorem step_cases {p : Provider} {s s' : State} {a : Action} (h : step p s a = some s') :
    (∃ c, a = .call c ∧ s.pc c.thread = .idle ∧ c.message.Fits ∧
      s' = { s with up := s.up ++ c.message.header, issued := s.issued ++ [c.message] }.goto c.thread
        (if c.message.payload ≠ [] then .payload s.issued.length c.message.payload
          else .header s.issued.length)) ∨
    (∃ t k data, a = .payload t ∧ s.pc t = .payload k data ∧
      s' = { s with up := s.up ++ data }.goto t (.header k)) ∨
    (∃ t k, a = .header t ∧ s.pc t = .header k ∧ headerSize ≤ s.down.length ∧
      let h := unpackHeader (s.down.take headerSize)
      let u := { s with down := s.down.drop headerSize }
      s' = if h.magic ≠ magic then { u with raised := k :: s.raised }.goto t .idle
        else if h.length ≠ 0 then u.goto t (.body k h)
        else { u with returned := (k, ⟨h.op, h.offset, []⟩) :: s.returned }.goto t .idle) ∨
    (∃ t k h, a = .body t ∧ s.pc t = .body k h ∧ s' = { s with
      down := s.down.drop h.length
      returned := (k, ⟨h.op, h.offset, s.down.take h.length⟩) :: s.returned }.goto t .idle) ∨
    (∃ m rest, a = .serve ∧ decode s.up = some (m, rest) ∧ s' = { s with
      up := rest
      down := s.down ++ (p.answer (s.decoded ++ [m])).bytes
      handled := s.handled ++ [(m, p.answer (s.decoded ++ [m]))] }) := by
  cases a with
  | call c =>
    simp only [step] at h
    split at h
    · rename_i hidle
      split at h
      · rename_i hfit
        exact .inl ⟨c, rfl, hidle, hfit, (Option.some.inj h).symm⟩
      · cases h
    · cases h
  | payload t =>
    simp only [step] at h
    split at h
    · rename_i k data hpc
      exact .inr (.inl ⟨t, k, data, rfl, hpc, (Option.some.inj h).symm⟩)
    · cases h
  | header t =>
    simp only [step] at h
    split at h
    · rename_i k hpc
      split at h
      · cases h
      · rename_i hlen
        refine .inr (.inr (.inl ⟨t, k, rfl, hpc, Nat.le_of_not_lt hlen, ?_⟩))
        simp only
        split at h
        · rename_i hm
          rw [if_pos hm]
          exact (Option.some.inj h).symm
        · rename_i hm
          rw [if_neg hm]
          split at h
          · rename_i hn
            rw [if_pos hn]
            exact (Option.some.inj h).symm
          · rename_i hn
            rw [if_neg hn]
            exact (Option.some.inj h).symm
    · cases h
  | body t =>
    simp only [step] at h
    split at h
    · rename_i k hd hpc
      split at h
      · cases h
      · exact .inr (.inr (.inr (.inl ⟨t, k, hd, rfl, hpc, (Option.some.inj h).symm⟩)))
    · cases h
  | serve =>
    simp only [step] at h
    split at h
    · cases h
    · rename_i m rest hd
      exact .inr (.inr (.inr (.inr ⟨m, rest, rfl, hd, (Option.some.inj h).symm⟩)))

theorem inv_call {v : Streams} {s : State} (h : Inv v s) {c : Call} (hidle : s.pc c.thread = .idle)
    (hfit : c.message.Fits) (hturn : ∀ k data, s.pc c.thread.other ≠ .payload k data) :
    ∃ v', Inv v' ({ s with up := s.up ++ c.message.header, issued := s.issued ++ [c.message] }.goto
      c.thread (if c.message.payload ≠ [] then .payload s.issued.length c.message.payload
        else .header s.issued.length)) := by
  have hhalf : v.half = none := by
    cases hh : v.half with
    | none => rfl
    | some m =>
      obtain ⟨k, ho⟩ := exists_other (P := fun u => ∃ k, s.pc u = .payload k m.payload) (h.half m hh).2
        (by rw [hidle]; nofun)
      exact absurd ho (hturn k _)
  have hlen : v.taken.length ≤ s.issued.length := by
    have hrep := congrArg List.length h.replies
    have hiss := congrArg List.length h.issued
    simp only [State.replies, State.decoded, List.length_map, List.length_append] at hrep hiss
    omega
  have hw := Call.wellFormed hfit
  by_cases hp : c.message.payload ≠ []
  · rw [if_pos hp]
    refine ⟨_, h.issue v.queue (some c.message) hidle hhalf hw rfl ?_ ?_ rfl ?_⟩
    · simp
    · exact ⟨hlen, rfl, c.message, rfl, rfl⟩
    · intro m' hm'
      cases hm'
      exact ⟨hp, _, rfl⟩
  · rw [if_neg hp]
    have hnil : c.message.payload = [] := not_not.mp hp
    refine ⟨_, h.issue (v.queue ++ [c.message]) none hidle hhalf hw ?_ ?_ ?_ rfl ?_⟩
    · simp
    · simp [Message.bytes, hnil]
    · exact ⟨hlen, Nat.lt_succ_self _⟩
    · intro m' hm'
      cases hm'

theorem inv_header {v : Streams} {s : State} (h : Inv v s) {t : Thread} {k : Nat}
    (hpc : s.pc t = .header k) (hlen : headerSize ≤ s.down.length) (hturn : InTurn s (.header t)) :
    let hd := unpackHeader (s.down.take headerSize)
    let u := { s with down := s.down.drop headerSize }
    ∃ v', Inv v' (if hd.magic ≠ magic then { u with raised := k :: s.raised }.goto t .idle
      else if hd.length ≠ 0 then u.goto t (.body k hd)
      else { u with returned := (k, ⟨hd.op, hd.offset, []⟩) :: s.returned }.goto t .idle) := by
  obtain ⟨hold, hbody⟩ := hturn k hpc
  obtain ⟨r, w, hw, hk, hunpack, hdrop⟩ := h.next_reply hpc hold hbody hlen
  have hget : (v.taken ++ [r])[k]? = some r := by
    rw [List.getElem?_append_right (Nat.le_of_eq hk), hk, Nat.sub_self]
    rfl
  simp only [hunpack, ne_eq, not_true_eq_false, if_false]
  by_cases hn : r.body.length = 0
  · have hnil : r.body = [] := List.eq_nil_of_length_eq_zero hn
    rw [if_neg (not_not.mpr hn)]
    have hr : (⟨r.op, r.offset, []⟩ : Reply) = r := by rw [← hnil]
    rw [hr]
    refine ⟨_, h.takeHeader hpc hw hk hbody hdrop trivial rfl (fun hne => absurd hnil hne) ?_
      (fun x hx => List.mem_cons_of_mem _ hx) (.inl (List.mem_cons_self ..))⟩
    intro x hx
    exact (List.mem_cons.mp hx).symm
  · rw [if_pos hn]
    have hne : r.body ≠ [] := fun h => hn (by rw [h]; rfl)
    exact ⟨_, h.takeHeader hpc hw hk hbody hdrop ⟨r, hget, rfl, rfl, hne⟩ rfl (fun _ => ⟨_, rfl⟩)
      (fun x hx => .inl hx) (fun x hx => hx) (.inr ⟨_, rfl⟩)⟩

/-- A step in turn keeps the invariant. -/
theorem inv_step (p : Provider) (s : State) (a : Action) (s' : State) (hi : ∃ v, Inv v s)
    (hturn : InTurn s a) (h : step p s a = some s') : ∃ v, Inv v s' := by
  obtain ⟨v, hv⟩ := hi
  rcases step_cases h with ⟨c, rfl, hidle, hfit, rfl⟩ | ⟨t, k, data, rfl, hpc, rfl⟩ |
    ⟨t, k, rfl, hpc, hlen, rfl⟩ | ⟨t, k, hd, rfl, hpc, rfl⟩ | ⟨m, rest, rfl, hd, rfl⟩
  · exact inv_call hv hidle hfit hturn
  · obtain ⟨m, hm⟩ := hv.sendPayload hpc
    exact ⟨_, hm⟩
  · exact inv_header hv hpc hlen hturn
  · exact ⟨_, hv.takeBody hpc⟩
  · exact hv.serve hd _ (p.fits _)

theorem work_goto (s : State) (t : Thread) (pc : Pc) :
    (s.goto t pc).work + (s.pc t).left = s.work + pc.left := by
  have hself := goto_pc_self s t pc
  have hother := goto_pc_other s t pc
  have hissued : (s.goto t pc).issued = s.issued := rfl
  have hhandled : (s.goto t pc).handled = s.handled := rfl
  unfold State.work
  cases t <;> simp only [Thread.other] at hother <;> rw [hself, hother, hissued, hhandled] <;> omega

/-- A thread that gets further has less left. -/
theorem work_goto_lt {s u : State} {t : Thread} {pc : Pc} (hu : u.work = s.work) (hpc : u.pc t = s.pc t)
    (hlt : pc.left < (s.pc t).left) : (u.goto t pc).work < s.work := by
  have := work_goto u t pc
  rw [hpc] at this
  omega

/-- A step without a new call takes from the work that is left. -/
theorem work_step {p : Provider} {s s' : State} {a : Action} {v : Streams} (hv : Inv v s') (ha : a.Continues)
    (h : step p s a = some s') : s'.work < s.work := by
  rcases step_cases h with ⟨c, rfl, -⟩ | ⟨t, k, data, -, hpc, rfl⟩ | ⟨t, k, -, hpc, -, rfl⟩ |
    ⟨t, k, hd, -, hpc, rfl⟩ | ⟨m, rest, -, -, rfl⟩
  · cases ha
  · exact work_goto_lt rfl rfl (by rw [hpc]; exact Nat.lt_succ_self 2)
  · have hlt (pc : Pc) (hle : pc.left ≤ 1) : pc.left < (s.pc t).left := by
      rw [hpc]
      exact Nat.lt_succ_of_le hle
    split
    · exact work_goto_lt rfl rfl (hlt .idle (Nat.zero_le 1))
    · split
      · exact work_goto_lt rfl rfl (hlt (.body k _) (Nat.le_refl 1))
      · exact work_goto_lt rfl rfl (hlt .idle (Nat.zero_le 1))
  · exact work_goto_lt rfl rfl (by rw [hpc]; exact Nat.zero_lt_one)
  · have hle := hv.handled_le
    simp only [List.length_append, List.length_singleton] at hle
    unfold State.work
    simp only [List.length_append, List.length_singleton]
    omega

theorem uncorrupted_of_inv {p : Provider} {v : Streams} {s : State} (h : Inv v s) : Uncorrupted p s where
  decoded := ⟨v.queue ++ v.half.toList, by rw [h.issued, List.append_assoc]⟩
  complete := h.complete
  own := h.own
  returned _ hk := h.returned hk
  settled _ hdown hall := h.settled hdown hall
  progress _ ht := h.progress p ht
  ends as s' := by
    refine length_le_of_guarded (I := fun s => ∃ v, Inv v s) (fun s a s' hi hc ha hs => ?_) ⟨v, h⟩
    obtain ⟨v', hv'⟩ := inv_step p s a s' hi hc hs
    exact ⟨⟨v', hv'⟩, work_step hv' ha hs⟩
  unbroken := h.unbroken

/-- **A run in which the two threads stay out of each other's calls is uncorrupted throughout.** -/
theorem uncorrupted_of_inTurn (p : Provider) (actions : List Action)
    (h : Guarded (step p) InTurn .start actions) : Always (step p) (Uncorrupted p) .start actions :=
  (always_of_guarded (inv_step p) ⟨_, inv_start⟩ h).mono fun _ ⟨_, hv⟩ => uncorrupted_of_inv hv

/-- A provider that answers a READ with one byte and everything else with a bare header. -/
def answering : Provider where
  answer ms := if ms.getLast?.map Message.op = some opRead then ⟨opRead, 0, [5]⟩ else ⟨opWrite, 0, []⟩
  fits ms := by split <;> exact ⟨by decide, by decide, by decide⟩

/-- A KEEPALIVE is sent while the main thread waits for the reply to its WRITE; a READ follows. -/
def overlapped : List Action :=
  [.call (.write 0 [1, 2]), .payload .main, .call (.keepalive 1), .serve, .serve, .header .main,
    .header .keepalive, .call (.read 0 1), .serve, .header .main, .body .main]

theorem uncorrupted_overlapped :
    Always (step answering) (Uncorrupted answering) .start overlapped ∧
    ∃ s, exec (step answering) .start overlapped = some s ∧
      s.returned = [(2, ⟨opRead, 0, [5]⟩), (1, ⟨opWrite, 0, []⟩), (0, ⟨opWrite, 0, []⟩)] := by
  refine ⟨uncorrupted_of_inTurn answering overlapped ?_, _, rfl, rfl⟩
  have quiet {s : State} {t : Thread} (h : s.pc t.other = .idle) : InTurn s (.header t) := by
    refine fun k _ => ⟨fun j hj => ?_, fun j hd hj => ?_⟩
    · rw [h] at hj
      cases hj
    · rw [h] at hj
      cases hj
  refine .cons rfl (fun k data h => ?_) (.cons rfl trivial (.cons rfl (fun k data h => ?_)
    (.cons rfl trivial (.cons rfl trivial (.cons rfl ?_ (.cons rfl (quiet rfl)
      (.cons rfl (fun k data h => ?_) (.cons rfl trivial (.cons rfl (quiet rfl)
        (.cons rfl trivial trivial))))))))))
  · cases h
  · cases h
  · intro k hk
    cases hk
    refine ⟨fun j hj => ?_, fun j hd hj => ?_⟩
    · cases hj
      exact Nat.zero_lt_one
    · cases hj
  · cases h

/-- The header of a KEEPALIVE lands between the header and the payload of a WRITE. -/
def interleaved : List Action :=
  [.call (.write 0 (List.replicate 17 7)), .call (.keepalive 1), .payload .main, .serve]

theorem interleaved_decodes : ∃ s, exec (step answering) .start interleaved = some s ∧
    ¬ s.decoded <+: s.issued :=
  ⟨_, rfl, by decide⟩

/-- The provider stores the header of the KEEPALIVE as payload of the WRITE. -/
theorem uncorrupted_fails : ¬ ∀ (p : Provider) (actions : List Action),
    Always (step p) (Uncorrupted p) .start actions := by
  intro h
  have hall : Always (step answering) (Uncorrupted answering) .start (interleaved ++ []) := h _ _
  obtain ⟨s, hs, hnot⟩ := interleaved_decodes
  exact hnot (hall.of_exec hs).decoded

end Borrower

end RamLink
