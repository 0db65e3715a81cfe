import RamLink.Lib.Outcome
import RamLink.MemoryService.Threads
import RamLink.Server.Replies

/-!
# RamLink.MemoryService.Phone

`RemoteMemory` over the provider it is made for: every socket is a connection to `RAMLinkServer.client`.

A `Phone` is the provider with the connections to it. `Passage` is what the network does to an operation: it
goes through, or the connection breaks after so many bytes of the request and so many of the answer. In
between other clients do to the pool what they like (`Others`).

* `InStep`: nothing is left on a connection that is not broken. Every call keeps it.
* `write_never_returns`: after any calls, a write of some data raises. The acknowledgement of a WRITE
  announces as many bytes as were written and sends none, so the service waits for them until it times out.
* `read_ends`: as long as the network and the other clients leave the region alone, reads return its bytes.
* `fresh_lease_reads`: the bytes of a new lease are zeros.
-/

namespace RamLink

open Lib Lib.Monitor RAMLinkServer
open Borrower (Message)

/-- What other clients of the provider do between two requests of the service. -/
structure Others where
  act : RamPool → RamPool
  sound : ∀ size s, Sound size s → Sound size (act s)

namespace Others

def idle : Others := ⟨id, fun _ _ h => h⟩

/-- Another connection, on which this is sent. -/
def connection (now : Time) (c : Conn) : Others :=
  ⟨fun s => (RAMLinkServer.client now s c).pool, fun _ _ h => client_sound now h c⟩

end Others

inductive Passage where
  /-- It goes through, and what comes back is cut into segments. -/
  | carried (others : Others) (now : Time) (segments : List Nat)
  /-- `up` bytes of it reach the provider, and `down` bytes of the answer come back. -/
  | broken (others : Others) (now : Time) (up down : Nat)

def Passage.others : Passage → Others
  | .carried others _ _ => others
  | .broken others _ _ _ => others

/-- It goes through, and the other clients leave the region alone. -/
def Passage.Spares (base length : Nat) : Passage → Prop
  | .carried others _ _ => ∀ s : RamPool, sub (others.act s).memory base length = sub s.memory base length
  | .broken .. => False

def Passage.Carried : Passage → Prop
  | .carried .. => True
  | .broken .. => False

/-- A connection to the provider. -/
structure Endpoint where
  /-- What the provider has received of a request that is not complete. -/
  pending : Bytes
  /-- The service's end. -/
  conn : Conn
  /-- The connection is broken, or the provider has closed it. -/
  ended : Bool

namespace Endpoint

def fresh : Endpoint := ⟨[], { inbox := [] }, false⟩

/-- Why a `recv_all` gets no more bytes: the connection is gone, or `settimeout(20)`. -/
def lost (e : Endpoint) : Exc :=
  if e.ended then .connectionError "peer disconnected" else .osError "timed out"

/-- The receiving half of `rml_request`. -/
def receive (e : Endpoint) : EStateM Exc Conn (Nat × Nat × Bytes) :=
  receiveReply e.lost fun h => raiseIf (h.magic ≠ magic) (.valueError "Invalid RAM-Link response magic")

/-- Nothing is on its way, in either direction. -/
structure Idle (e : Endpoint) : Prop where
  unread : e.conn.inbox = []
  pending : e.ended = true ∨ e.pending = []

end Endpoint

structure Phone where
  pool : RamPool
  /-- Connections made so far. -/
  opened : Nat
  socks : Nat → Endpoint
  /-- Of the operations on the network, from the next one on. -/
  passages : Nat → Passage

namespace Phone

def start (pool : RamPool) (passages : Nat → Passage) : Phone := ⟨pool, 0, fun _ => .fresh, passages⟩

/-- The bytes of a request go out on a connection, and what the provider sends comes in. -/
def deliver (passage : Passage) (data : Bytes) (pool : RamPool) (e : Endpoint) : RamPool × Endpoint :=
  match passage with
  | .carried others now segments =>
    let l := Link.serve now ⟨others.act pool, e.pending ++ data, { e.conn with cuts := segments }, e.ended⟩
    (l.pool, ⟨l.pending, l.conn, l.ended⟩)
  | .broken others now up down =>
    if e.ended then (others.act pool, e)
    else
      let r := RAMLinkServer.client now (others.act pool) { inbox := e.pending ++ data.take up }
      (r.pool, ⟨[], { e.conn with inbox := e.conn.inbox ++ r.conn.sent.take down }, true⟩)

/-- After an operation. -/
def turn (self : Phone) (pool : RamPool) (sock : Nat) (e : Endpoint) : Phone :=
  { self with pool := pool, socks := Function.update self.socks sock e, passages := fun k => self.passages (k + 1) }

/-- `socket.socket()` and `connect`. -/
def connect : EStateM Exc Phone Nat := fun self =>
  let self' := { self with passages := fun k => self.passages (k + 1) }
  match self.passages 0 with
  | .carried .. => .ok self.opened { self' with opened := self.opened + 1 }
  | .broken .. => .error (.osError "connection refused") self'

/-- `rml_request`. -/
def request (sock : Nat) (m : Sending) : EStateM Exc Phone Borrower.Reply := fun self =>
  if m.message.Fits then
    let (pool, e) := deliver (self.passages 0) m.message.bytes self.pool (self.socks sock)
    match e.receive.run e.conn with
    | .ok (op, offset, body) c => .ok ⟨op, offset, body⟩ (self.turn pool sock { e with conn := c })
    | .error x c => .error x (self.turn pool sock { e with conn := c })
  else .error .structError self

abbrev PhoneM := EStateM Exc (RemoteMemory × Phone)

/-- Runs a method of `RemoteMemory`. -/
def run {α : Type} (p : ServiceProg α) : PhoneM α := p.alone connect request

/-- A call, which may raise. -/
def step (s : RemoteMemory × Phone) (call : Locked.Call) : Option (RemoteMemory × Phone) :=
  some (finalState (run call.body) s)

/-- Every connection is idle, and the provider's pool is sound. -/
structure InStep (size : Nat) (p : Phone) : Prop where
  pool : Sound size p.pool
  idle : ∀ i, (p.socks i).Idle

theorem inStep_start {size : Nat} {pool : RamPool} (h : Sound size pool) (passages : Nat → Passage) :
    InStep size (start pool passages) := ⟨h, fun _ => ⟨rfl, .inr rfl⟩⟩

/-! ## What the service makes of an answer -/

/-- Of an answer that is cut off in its header nothing can be made. -/
theorem receive_short {e : Endpoint} (hi : e.conn.inbox.length < headerSize) :
    ∃ c, e.receive.run e.conn = .error e.lost c ∧ c.inbox = [] := by
  obtain ⟨cuts, hr⟩ := Conn.recvAll_short e.lost (by decide : 0 < maxBlock) hi
  refine ⟨{ e.conn with inbox := [], cuts := cuts }, ?_, rfl⟩
  unfold Endpoint.receive
  simp only [receiveReply, EStateM.run_bind, hr]

/-- A header and some of what it announces: it is received, or what is missing is waited for. -/
theorem receive_part {e : Endpoint} {op offset length : Nat} {body : Bytes} (ho : op < 256 ^ 1)
    (hf : offset < 256 ^ 8) (hl : length < 256 ^ 4) (hb : body.length ≤ length)
    (hi : e.conn.inbox = header op offset length ++ body) :
    (body.length = length ∧ ∃ c, e.receive.run e.conn = .ok (op, offset, body) c ∧ c.inbox = []) ∨
      (body.length < length ∧ ∃ c, e.receive.run e.conn = .error e.lost c ∧ c.inbox = []) := by
  rcases Nat.lt_or_eq_of_le hb with hlt | rfl
  · right
    have hlen : (header op offset length).length = headerSize := length_header ..
    obtain ⟨cuts, hr⟩ := Conn.recvAll_ok (c := e.conn) e.lost (by decide : 0 < maxBlock)
      (show headerSize ≤ e.conn.inbox.length by rw [hi, List.length_append, hlen]; omega)
    rw [hi, ← hlen, List.take_left, List.drop_left, hlen] at hr
    obtain ⟨cuts', hk⟩ := Conn.recvAll_short e.lost (by decide : 0 < maxBlock)
      (c := { e.conn with inbox := body, cuts := cuts }) (show body.length < length from hlt)
    refine ⟨hlt, { e.conn with inbox := [], cuts := cuts' }, ?_, rfl⟩
    unfold Endpoint.receive
    have hpos : length ≠ 0 := by omega
    simp only [receiveReply, EStateM.run_bind, hr, unpackHeader_header ho hf hl, run_raiseIf, ne_eq,
      not_true_eq_false, if_false, receiveBody, if_pos hpos, hk]
  · left
    exact ⟨rfl, receiveReply_framed e.lost ho hf hl hi fun c' => by rw [run_raiseIf, if_neg (by simp)]⟩

/-- Whatever of an answer comes back, nothing is left of it. -/
theorem receive_drains {e : Endpoint} {answer : Bytes} (h : Answers answer) (hi : e.conn.inbox <+: answer) :
    (∃ r c, e.receive.run e.conn = .ok r c ∧ c.inbox = []) ∨
      ∃ c, e.receive.run e.conn = .error e.lost c ∧ c.inbox = [] := by
  obtain ⟨op, offset, length, body, ho, hf, hl, hb, rfl⟩ := h
  rcases Nat.lt_or_ge e.conn.inbox.length headerSize with hlt | hge
  · exact .inr (receive_short hlt)
  · have hlen : (header op offset length).length = headerSize := length_header ..
    obtain ⟨part, hpart⟩ := List.prefix_of_prefix_length_le (List.prefix_append _ body) hi (by rw [hlen]; exact hge)
    rw [← hpart, List.prefix_append_right_inj] at hi
    obtain ⟨-, c, hc⟩ | ⟨-, h⟩ := receive_part ho hf hl (hi.length_le.trans hb) hpart.symm
    · exact .inl ⟨_, c, hc⟩
    · exact .inr h

/-- A part of the acknowledgement of a WRITE, and no more. -/
theorem receive_ack {e : Endpoint} {offset length : Nat} (hf : offset < 256 ^ 8) (hl : length < 256 ^ 4)
    (hpos : 0 < length) (hi : e.conn.inbox <+: header opWrite offset length) :
    ∃ c, e.receive.run e.conn = .error e.lost c ∧ c.inbox = [] := by
  rcases Nat.lt_or_ge e.conn.inbox.length headerSize with hlt | hge
  · exact receive_short hlt
  · have hwhole : e.conn.inbox = header opWrite offset length ++ [] := by
      rw [List.append_nil]
      exact hi.eq_of_length_le (by rw [length_header]; exact hge)
    obtain ⟨h, -⟩ | ⟨-, h⟩ := receive_part (by decide) hf hl (Nat.zero_le _) hwhole
    · rw [List.length_nil] at h
      omega
    · exact h

/-! ## One request -/

section Request

variable {size : Nat} {m : Message} {pool : RamPool} {e : Endpoint}

/-- What comes back is a part of what the provider sends for a part of the request. -/
theorem deliver_inbox (passage : Passage) (data : Bytes) (pool : RamPool) (he : e.Idle) :
    (deliver passage data pool e).2.conn.inbox = [] ∨ ∃ now up down, (deliver passage data pool e).2.conn.inbox =
      (RAMLinkServer.client now (passage.others.act pool) { inbox := data.take up }).conn.sent.take down := by
  obtain ⟨pending, conn, ended⟩ := e
  obtain ⟨hunread, hpending⟩ := he
  simp only at hunread hpending
  cases ended with
  | true =>
    left
    cases passage with
    | carried others now segments => simp [deliver, Link.serve, hunread]
    | broken others now up down => simp [deliver, hunread]
  | false =>
    right
    simp only [Bool.false_eq_true, false_or] at hpending
    subst hpending
    cases passage with
    | carried others now segments =>
      refine ⟨now, data.length,
        (RAMLinkServer.client now (others.act pool) { inbox := data }).conn.sent.length, ?_⟩
      simp only [deliver, Link.serve, Bool.false_eq_true, if_false, List.nil_append, hunread]
      rw [List.take_length, Passage.others, List.take_length]
    | broken others now up down =>
      refine ⟨now, up, down, ?_⟩
      simp only [deliver, Bool.false_eq_true, if_false, List.nil_append, hunread, Passage.others]

/-- What `deliver` leaves: at most a part of one answer, and no part of the request. -/
theorem deliver_idle (passage : Passage) (hs : Sound size pool) (he : e.Idle) (hm : Spoken m) :
    Sound size (deliver passage m.bytes pool e).1 ∧
      ((deliver passage m.bytes pool e).2.ended = true ∨ (deliver passage m.bytes pool e).2.pending = []) ∧
      ∃ answer, Answers answer ∧ (deliver passage m.bytes pool e).2.conn.inbox <+: answer := by
  have hs' := passage.others.sound size pool hs
  have hinbox : ∃ answer, Answers answer ∧ (deliver passage m.bytes pool e).2.conn.inbox <+: answer := by
    have hsome : ∃ answer, Answers answer ∧ ([] : Bytes) <+: answer :=
      ⟨header 0 0 0 ++ [], ⟨0, 0, 0, [], by decide, by decide, by decide, le_rfl, rfl⟩, List.nil_prefix⟩
    rcases deliver_inbox passage m.bytes pool he with h | ⟨now, up, down, h⟩
    · rw [h]
      exact hsome
    · rw [h]
      rcases client_sent now hs'.sized hm up with hsent | ha
      · rw [hsent, List.take_nil]
        exact hsome
      · exact ⟨_, ha, List.take_prefix _ _⟩
  obtain ⟨pending, conn, ended⟩ := e
  obtain ⟨-, hpending⟩ := he
  cases passage with
  | carried others now segments =>
    cases ended with
    | true => exact ⟨hs', .inl rfl, hinbox⟩
    | false =>
      simp only [Bool.false_eq_true, false_or] at hpending
      subst hpending
      have hsound := client_sound now hs' { inbox := m.bytes }
      simp only [deliver, Link.serve, Bool.false_eq_true, if_false, List.nil_append] at hinbox ⊢
      refine ⟨hsound, ?_, hinbox⟩
      obtain ⟨-, -, -, -, -, -, hh, -⟩ | ⟨-, hend⟩ := client_whole now (others.act pool) hm
      · right
        rw [List.drop_eq_nil_iff, Link.answered, hh, Message.bytes, List.length_append]
        exact le_rfl
      · exact .inl (decide_eq_true (hend _))
  | broken others now up down =>
    cases ended with
    | true => exact ⟨hs', .inl rfl, hinbox⟩
    | false => exact ⟨client_sound now hs' _, .inl rfl, hinbox⟩

/-- What comes back for a WRITE. -/
theorem deliver_write (passage : Passage) (pool : RamPool) (he : e.Idle) (hm : m.WellFormed)
    (hop : m.op = opWrite) :
    (deliver passage m.bytes pool e).2.conn.inbox <+: header opWrite m.offset m.length := by
  rcases deliver_inbox passage m.bytes pool he with h | ⟨now, up, down, h⟩
  · rw [h]
    exact List.nil_prefix
  · rw [h]
    refine (List.take_prefix _ _).trans ?_
    rcases client_write_sent now (s := passage.others.act pool) hm hop up with h | h
    · rw [h]
      exact List.nil_prefix
    · rw [h]

variable {p : Phone}

theorem run_request (sock : Nat) {m : Sending} (hm : m.message.Fits) (p : Phone) :
    (request sock m).run p =
      match (deliver (p.passages 0) m.message.bytes p.pool (p.socks sock)).2.receive.run
        (deliver (p.passages 0) m.message.bytes p.pool (p.socks sock)).2.conn with
      | .ok (op, offset, body) c => .ok ⟨op, offset, body⟩
          (p.turn (deliver (p.passages 0) m.message.bytes p.pool (p.socks sock)).1 sock
            { (deliver (p.passages 0) m.message.bytes p.pool (p.socks sock)).2 with conn := c })
      | .error x c => .error x
          (p.turn (deliver (p.passages 0) m.message.bytes p.pool (p.socks sock)).1 sock
            { (deliver (p.passages 0) m.message.bytes p.pool (p.socks sock)).2 with conn := c }) :=
  if_pos hm

theorem InStep.turn (h : InStep size p) (hpool : Sound size pool) {e : Endpoint} (he : e.Idle) (sock : Nat) :
    InStep size (p.turn pool sock e) := by
  refine ⟨hpool, fun i => ?_⟩
  show (Function.update p.socks sock e i).Idle
  by_cases hi : i = sock
  · rw [hi, Function.update_self]
    exact he
  · rw [Function.update_of_ne hi]
    exact h.idle i

/-- A request of the service keeps its connections in step, whatever becomes of it. -/
theorem request_inStep (sock : Nat) {m : Sending} (hm : Spoken m.message) (h : InStep size p) :
    Ends (request sock m) (fun _ => InStep size) (InStep size) p := by
  obtain ⟨hsound, hpending, answer, ha, hi⟩ := deliver_idle (p.passages 0) h.pool (h.idle sock) hm
  unfold Ends
  rw [run_request sock hm.wellFormed.fits]
  obtain ⟨r, c, hr, hc⟩ | ⟨c, hr, hc⟩ := receive_drains ha hi
  · rw [hr]
    refine h.turn hsound ?_ sock
    exact ⟨hc, hpending⟩
  · rw [hr]
    refine h.turn hsound ?_ sock
    exact ⟨hc, hpending⟩

/-- **A WRITE is never answered in full.** -/
theorem request_write {sock : Nat} {m : Sending} (hm : Spoken m.message) (hop : m.message.op = opWrite)
    (hpos : 0 < m.message.length) (h : InStep size p) :
    Ends (request sock m) (fun _ _ => False) (InStep size) p := by
  have hkeep := request_inStep sock hm h
  obtain ⟨-, hf, hl⟩ := hm.wellFormed.fits
  obtain ⟨c, hr, -⟩ := receive_ack hf hl hpos (deliver_write (p.passages 0) p.pool (h.idle sock) hm.wellFormed hop)
  unfold Ends at hkeep ⊢
  rw [run_request sock hm.wellFormed.fits, hr] at hkeep ⊢
  exact hkeep

theorem run_connect (p : Phone) : connect.run p =
    match p.passages 0 with
    | .carried .. => .ok p.opened { p with passages := fun k => p.passages (k + 1), opened := p.opened + 1 }
    | .broken .. => .error (.osError "connection refused") { p with passages := fun k => p.passages (k + 1) } := rfl

theorem connect_inStep (h : InStep size p) : Ends connect (fun _ => InStep size) (InStep size) p := by
  unfold Ends
  rw [run_connect]
  cases p.passages 0 with
  | carried others now segments => exact ⟨h.pool, h.idle⟩
  | broken others now up down => exact ⟨h.pool, h.idle⟩

end Request

/-! ## The methods -/

section Methods

open Locked

/-- What the service sends on a connection. -/
def SpokenSending (m : Sending) : Prop := Spoken m.message

theorem emits_close (sock : Nat) : (close sock).Emits SpokenSending := trivial

theorem emits_rmlRequest (attempt : Attempt) (sock : Option Nat) (op : Nat) (offset length : Int) (payload : Bytes)
    (hop : op = opRead ∨ op = opWrite ∨ op = opBorrow ∨ op = opRelease ∨ op = opKeepalive)
    (hpay : if op = opWrite then length = payload.length else payload = []) :
    (Locked.rmlRequest attempt sock op offset length payload).Emits SpokenSending := by
  cases sock with
  | none => exact .throw _
  | some sock =>
    refine .bind_raiseIf fun hc => .bind (.request sock ⟨⟨⟨?_, ?_, ?_⟩, fun hw => ?_, fun hw => ?_⟩, hop⟩)
      fun _ => .pure _
    · show op < 256
      rcases hop with rfl | rfl | rfl | rfl | rfl <;> decide
    · show offset.toNat < 256 ^ 8
      omega
    · show length.toNat < 256 ^ 4
      omega
    · rw [if_pos hw] at hpay
      show length.toNat = payload.length
      omega
    · rwa [if_neg hw] at hpay

theorem emits_borrowNewSocket : borrowNewSocket.Emits SpokenSending := by
  refine .bind .connect fun sock => .tryCatch (.bind .self fun self => ?_) fun e =>
    .bind (emits_close sock) fun _ => .throw e
  refine .bind (emits_rmlRequest .first (some sock) opBorrow 0 _ [] (by decide) rfl) fun r => ?_
  exact .bind_raiseIf fun _ => .pure _

theorem emits_markDisconnected (e : Exc) : (markDisconnected e).Emits SpokenSending := by
  refine .bind .self fun self => .bind (.assign _) fun _ => ?_
  cases self.sock with
  | none => exact .pure ()
  | some old => exact emits_close old

theorem emits_reconnect : reconnect.Emits SpokenSending :=
  .bind emits_borrowNewSocket fun _ => .bind .self fun _ => .assign _

theorem emits_requestWithReconnect (op : Nat) (offset length : Int) (payload : Bytes)
    (hop : op = opRead ∨ op = opWrite ∨ op = opBorrow ∨ op = opRelease ∨ op = opKeepalive)
    (hpay : if op = opWrite then length = payload.length else payload = []) :
    (requestWithReconnect op offset length payload).Emits SpokenSending := by
  refine .tryCatch (.bind .self fun self => emits_rmlRequest .first self.sock op _ _ _ hop hpay) fun e => ?_
  exact .bind (emits_markDisconnected e) fun _ => .bind emits_reconnect fun _ => .bind .self fun self =>
    emits_rmlRequest .second self.sock op _ _ _ hop hpay

/-- The chunk of a pass has the length that is announced. -/
theorem length_chunk (data : Bytes) {pos n : Int} (hpos : 0 ≤ pos) (hlt : pos < data.length)
    (hn : n = min RemoteMemory.maxTransfer (data.length - pos)) :
    0 < n ∧ n = (slice data pos (pos + n)).length := by
  obtain ⟨k, rfl⟩ := Int.eq_ofNat_of_zero_le hpos
  unfold RemoteMemory.maxTransfer at hn
  obtain ⟨j, rfl⟩ := Int.eq_ofNat_of_zero_le (show 0 ≤ n by omega)
  refine ⟨by omega, ?_⟩
  rw [slice_nat, length_sub_of_le (by omega)]

theorem emits_writeLoop (offset : Int) (data : Bytes) (fuel : Nat) : ∀ pos : Int, 0 ≤ pos →
    (writeLoop offset data fuel pos).Emits SpokenSending := by
  induction fuel with
  | zero =>
    intro pos _
    exact .pure ()
  | succ fuel ih =>
    intro pos hpos
    unfold writeLoop
    split
    · rename_i hlt
      obtain ⟨hn, hlen⟩ := length_chunk data hpos hlt rfl
      refine .bind .self fun self => .bind (emits_requestWithReconnect opWrite _ _ _ (by decide) hlen)
        fun _ => ih _ (by omega)
    · exact .pure ()

theorem emits_body (call : Call) : call.body.Emits SpokenSending := by
  cases call with
  | connectAndBorrow =>
    exact .bind emits_borrowNewSocket fun _ => .withLock (.bind .self fun _ => .assign _)
  | keepalive =>
    refine .withLock (.bind .self fun self => ?_)
    split
    · exact .pure ()
    · exact .tryCatch (.bind (emits_rmlRequest .first _ opKeepalive _ 0 [] (by decide) rfl) fun _ =>
        .bind .self fun _ => .assign _) fun e => .bind (emits_markDisconnected e) fun _ => .throw e
  | read offset length =>
    refine .bind (.bind .self fun self => .bind_raiseIf fun _ => .withLock (.foldlM (fun output pos => ?_) _ _))
      fun _ => .pure ()
    exact .bind .self fun self => .bind (emits_requestWithReconnect opRead _ _ [] (by decide) rfl) fun _ =>
      .bind_raiseIf fun _ => .pure _
  | write offset data =>
    exact .bind .self fun self => .bind_raiseIf fun _ => .withLock (emits_writeLoop offset data _ 0 le_rfl)
  | status => exact .bind (.withLock .self) fun _ => .pure ()
  | release =>
    refine .bind (.withLock (.bind .self fun self => .bind (.assign _) fun _ => .pure _)) fun self => ?_
    cases self.sock with
    | none => exact .pure ()
    | some sock =>
      simp only
      split
      · exact .bind (.tryCatch (.bind (emits_rmlRequest .first (some sock) opRelease _ 0 [] (by decide) rfl)
          fun _ => .pure ()) fun _ => .pure ()) fun _ => emits_close sock
      · exact .pure ()

variable {size : Nat} {α : Type} {s : RemoteMemory × Phone}

theorem run_inStep {p : ServiceProg α} (hp : p.Emits SpokenSending) (h : InStep size s.2) :
    Ends (run p) (fun _ t => InStep size t.2) (fun t => InStep size t.2) s :=
  Prog.alone_ends (P := SpokenSending) (fun _ => connect_inStep) (fun sock _ _ hm => request_inStep sock hm) s hp h

theorem step_inStep {call : Call} {t : RemoteMemory × Phone} (h : InStep size s.2) (hstep : step s call = some t) :
    InStep size t.2 := by
  cases hstep
  exact (run_inStep (emits_body call) h).finalState

/-! ### Writes -/

theorem rmlRequest_write (attempt : Attempt) (sock : Option Nat) (offset : Int) {length : Int} {payload : Bytes}
    (hlen : length = payload.length) (hpos : 0 < length) (h : InStep size s.2) :
    Ends (run (Locked.rmlRequest attempt sock opWrite offset length payload)) (fun _ _ => False)
      (fun t => InStep size t.2) s := by
  cases sock with
  | none => exact .throw h
  | some sock =>
    unfold run Locked.rmlRequest
    rw [Prog.alone_bind, Prog.alone_raiseIf]
    refine .bind_raiseIf (fun _ => h) fun hc => ?_
    rw [Prog.alone_bind]
    unfold Locked.send
    rw [Prog.alone_request]
    refine .bind_never (.onSnd (request_write ⟨⟨⟨?_, ?_, ?_⟩, fun _ => ?_, fun hw => absurd rfl hw⟩, ?_⟩
      rfl ?_ h))
    · show opWrite < 256 ^ 1
      decide
    · show offset.toNat < 256 ^ 8
      omega
    · show length.toNat < 256 ^ 4
      omega
    · show length.toNat = payload.length
      omega
    · exact .inr (.inl rfl)
    · show 0 < length.toNat
      omega

/-- Both attempts raise. -/
theorem requestWithReconnect_write (offset : Int) {length : Int} {payload : Bytes} (hlen : length = payload.length)
    (hpos : 0 < length) (h : InStep size s.2) :
    Ends (run (requestWithReconnect opWrite offset length payload)) (fun _ _ => False)
      (fun t => InStep size t.2) s := by
  unfold run requestWithReconnect
  rw [Prog.alone_tryCatch]
  refine .tryCatch (R := fun t => InStep size t.2) ?_ fun e t ht => ?_
  · rw [Prog.alone_bind, Prog.alone_self]
    exact .bind_get (rmlRequest_write .first _ offset hlen hpos h)
  · rw [Prog.alone_bind]
    refine .bind (run_inStep (emits_markDisconnected e) ht) fun _ t ht => ?_
    rw [Prog.alone_bind]
    refine .bind (run_inStep emits_reconnect ht) fun _ t ht => ?_
    rw [Prog.alone_bind, Prog.alone_self]
    exact .bind_get (rmlRequest_write .second _ offset hlen hpos ht)

/-- The first chunk raises. -/
theorem write_raises (offset : Int) {data : Bytes} (hdata : data ≠ []) (h : InStep size s.2) :
    Ends (run (Locked.write offset data)) (fun _ _ => False) (fun t => InStep size t.2) s := by
  obtain ⟨k, hk⟩ : ∃ k, data.length = k + 1 := ⟨data.length - 1, by
    have := List.length_pos_iff.mpr hdata
    omega⟩
  unfold run Locked.write
  rw [Prog.alone_bind, Prog.alone_self]
  refine .bind_get ?_
  rw [Prog.alone_bind, Prog.alone_raiseIf]
  refine .bind_raiseIf (fun _ => h) fun _ => ?_
  rw [Prog.alone_withLock, hk, writeLoop, if_pos (by omega)]
  obtain ⟨hn, hlen⟩ := length_chunk data le_rfl (by omega) rfl
  rw [Prog.alone_bind, Prog.alone_self]
  refine .bind_get ?_
  rw [Prog.alone_bind]
  exact .bind_never (requestWithReconnect_write _ hlen hn h)

/-- **A write never returns**: whatever calls went before, whatever becomes of the operations on the network
and whatever other clients do, `write` raises unless there is nothing to write. -/
theorem write_never_returns {size : Nat} {pool : RamPool} (hpool : Sound size pool) (megabytes : Int)
    (passages : Nat → Passage) (calls : List Call) {s : RemoteMemory × Phone}
    (hs : exec step (RemoteMemory.init megabytes, start pool passages) calls = some s) (offset : Int) {data : Bytes}
    (hdata : data ≠ []) : ∃ e t, (run (Locked.write offset data)).run s = .error e t := by
  have h : InStep size s.2 := exec_inv (I := fun s => InStep size s.2) (fun _ _ _ h => step_inStep h)
    (inStep_start hpool passages) hs
  have hw := write_raises offset hdata h
  unfold Ends at hw
  cases hr : (run (Locked.write offset data)).run s with
  | ok u t =>
    rw [hr] at hw
    exact hw.elim
  | error e t => exact ⟨e, t, rfl⟩

theorem fresh_sound : Sound 1048576 RamPool.fresh :=
  ⟨RamPool.init_sized RamPool.init_one, RamPool.init_tabled RamPool.init_one, rfl⟩

/-- A service that has borrowed while another client asked for the provider's INFO, and has sent a KEEPALIVE. -/
theorem write_never_returns_borrowed :
    ∃ e t, (run (Locked.write 0 [1])).run
      (finalState (run Locked.keepalive) (finalState (run Locked.connectAndBorrow)
        (RemoteMemory.init 1, start RamPool.fresh fun _ =>
          .carried (.connection 0 { inbox := header opInfo 0 0 }) 0 []))) = .error e t :=
  write_never_returns fresh_sound 1 _ [.connectAndBorrow, .keepalive] rfl 0 (by simp)

end Methods

/-! ## Reads -/

/-- The bytes of the lease. -/
def leased (s : RemoteMemory × Phone) : Bytes := sub s.2.pool.memory s.1.baseOffset s.1.length

/-- A lease of `length` bytes at `base`, and an idle connection. -/
structure Joined (base length sock : Nat) (p : Phone) : Prop where
  sound : Sound p.pool.size p.pool
  small : p.pool.size < 256 ^ 8
  inside : base + length ≤ p.pool.size
  idle : (p.socks sock).Idle
  up : (p.socks sock).ended = false

/-- Nothing happens to either. -/
structure Held (base length sock : Nat) (p : Phone) : Prop extends Joined base length sock p where
  passages : ∀ k, (p.passages k).Spares base length

/-- The service has a lease and the connection for it. -/
def Steady (s : RemoteMemory × Phone) : Prop :=
  ∃ sock, s.1.sock = some sock ∧ Held s.1.baseOffset s.1.length sock s.2

/-- The lease, its bytes and the service itself are as they were. -/
structure Unmoved (s t : RemoteMemory × Phone) : Prop where
  steady : Steady t
  leased : leased t = leased s
  self : t.1 = s.1

theorem Unmoved.refl {s : RemoteMemory × Phone} (h : Steady s) : Unmoved s s := ⟨h, rfl, rfl⟩

theorem Unmoved.trans {s t u : RemoteMemory × Phone} (h : Unmoved s t) (h' : Unmoved t u) : Unmoved s u :=
  ⟨h'.steady, h'.leased.trans h.leased, h'.self.trans h.self⟩

theorem Steady.length_leased {s : RemoteMemory × Phone} (h : Steady s) : (leased s).length = s.1.length := by
  obtain ⟨sock, -, h⟩ := h
  exact length_sub_of_le (by rw [h.sound.sized.length_memory]; exact h.inside)

section Reads

open Locked

/-- A READ of bytes of the pool, as the provider handles it. -/
theorem run_read (now : Time) {pool : RamPool} {offset length : Nat} (hr : offset + length ≤ pool.size)
    (hb : length ≤ maxBlock) (hsmall : pool.size < 256 ^ 8) (cuts : List Nat) :
    (handle now opRead offset length).run (pool, { inbox := [], cuts := cuts }) =
      .ok () (pool, { inbox := [], cuts := cuts,
                      sent := header opRead offset length ++ sub pool.memory offset length }) := by
  have hv : ¬ (maxBlock < length ∨ ¬ validRange offset length pool) := by
    simp only [validRange, decide_eq_true_eq]
    omega
  have hl : length < 256 ^ 4 := by
    unfold maxBlock at hb
    omega
  simp only [handle_read, EStateM.run_bind, run_getHandler, run_raiseIf, if_neg hv]
  rw [run_loadAndSend rfl pool (by decide) (by omega) hl, List.nil_append, RamPool.load_eq_sub]

theorem deliver_read {base len : Nat} {passage : Passage} (hpassage : passage.Spares base len) {pool : RamPool}
    {e : Endpoint} (he : e.Idle) (hopen : e.ended = false) {size : Nat} (hs : Sound size pool) (hsmall : size < 256 ^ 8)
    {offset length : Nat} (hr : offset + length ≤ size) (hb : length ≤ maxBlock) :
    ∃ pool' cuts, Sound size pool' ∧ sub pool'.memory base len = sub pool.memory base len ∧
      deliver passage (Message.bytes ⟨opRead, offset, length, []⟩) pool e =
        (pool', ⟨[], { e.conn with inbox := header opRead offset length ++ sub pool'.memory offset length,
                                   cuts := cuts }, false⟩) := by
  obtain ⟨pending, conn, ended⟩ := e
  obtain ⟨hunread, hpending⟩ := he
  simp only at hunread hpending hopen
  subst hopen
  simp only [Bool.false_eq_true, false_or] at hpending
  subst hpending
  cases passage with
  | broken others now up down => exact hpassage.elim
  | carried others now segments =>
    have hs' := others.sound size pool hs
    have hl : length < 256 ^ 4 := by
      unfold maxBlock at hb
      omega
    refine ⟨others.act pool, segments, hs', hpassage pool, ?_⟩
    have hserve := Link.serve_whole (l := ⟨others.act pool,
        Message.bytes ⟨opRead, offset, length, []⟩, { conn with cuts := segments }, false⟩)
      [] (by decide : opRead < 256 ^ 1) (by omega : offset < 256 ^ 8) hl rfl rfl
      fun cuts => ⟨cuts, run_read now (by rw [hs'.size]; exact hr) hb (by rw [hs'.size]; exact hsmall) cuts⟩
    simp only [deliver, List.nil_append]
    rw [hserve]
    simp only [hunread, List.nil_append]

/-- A READ of a part of the lease gets the bytes that are there. -/
theorem request_read {base len sock : Nat} {p : Phone} (h : Held base len sock p) (attempt : Attempt) {pos n : Nat}
    (hr : pos + n ≤ len) (hb : n ≤ maxBlock) :
    Ends (request sock ⟨attempt, ⟨opRead, base + pos, n, []⟩⟩)
      (fun r t => Held base len sock t ∧ sub t.pool.memory base len = sub p.pool.memory base len ∧
        r.body = sub (sub p.pool.memory base len) pos n) (fun _ => False) p := by
  have hin := h.inside
  have hsmall := h.small
  have hn : n < 256 ^ 4 := by
    unfold maxBlock at hb
    omega
  obtain ⟨pool', cuts, hs', hkept, hd⟩ := deliver_read (h.passages 0) h.idle h.up h.sound hsmall
    (show base + pos + n ≤ p.pool.size by omega) hb
  have hlen : (sub pool'.memory (base + pos) n).length = n :=
    length_sub_of_le (by rw [hs'.sized.length_memory, hs'.size]; omega)
  unfold Ends
  rw [run_request sock (m := ⟨attempt, ⟨opRead, base + pos, n, []⟩⟩)
    ⟨by show opRead < 256 ^ 1; decide, by show base + pos < 256 ^ 8; omega, hn⟩]
  simp only [hd]
  obtain ⟨-, c, hrun, hc⟩ | ⟨hlt, -⟩ := receive_part (e := ⟨[], { (p.socks sock).conn with
      inbox := header opRead (base + pos) n ++ sub pool'.memory (base + pos) n, cuts := cuts }, false⟩)
    (by decide) (by omega) hn hlen.le rfl
  · rw [hrun]
    simp only
    refine ⟨⟨⟨?_, ?_, ?_, ?_, ?_⟩, fun k => h.passages (k + 1)⟩, hkept, ?_⟩
    · show Sound pool'.size pool'
      rw [hs'.size]
      exact hs'
    · show pool'.size < 256 ^ 8
      rw [hs'.size]
      exact hsmall
    · show base + len ≤ pool'.size
      rw [hs'.size]
      exact hin
    · show (Function.update p.socks sock _ sock).Idle
      rw [Function.update_self]
      exact ⟨hc, .inr rfl⟩
    · show (Function.update p.socks sock _ sock).ended = false
      rw [Function.update_self]
    · show sub pool'.memory (base + pos) n = _
      rw [← sub_sub _ _ _ _ _ hr, hkept]
  · omega

variable {s : RemoteMemory × Phone}

theorem requestWithReconnect_read (h : Steady s) (pos : Nat) {n : Nat} (hr : pos + n ≤ s.1.length) (hb : n ≤ maxBlock) :
    Ends (run (requestWithReconnect opRead (s.1.baseOffset + pos) n []))
      (fun r t => Unmoved s t ∧ r.2.2 = sub (leased s) pos n) (fun _ => False) s := by
  obtain ⟨sock, hsock, h⟩ := h
  have hin := h.inside
  have hsmall := h.small
  have hn : n < 256 ^ 4 := by
    unfold maxBlock at hb
    omega
  unfold run requestWithReconnect
  rw [Prog.alone_tryCatch, Prog.alone_bind, Prog.alone_self]
  refine .tryCatch_ok (.bind_get ?_)
  rw [hsock]
  unfold Locked.rmlRequest
  rw [Prog.alone_bind, Prog.alone_raiseIf]
  refine .bind_raiseIf (fun hc => ?_) fun _ => ?_
  · omega
  rw [Prog.alone_bind]
  unfold Locked.send
  rw [Prog.alone_request]
  have ho : ((s.1.baseOffset : Int) + pos).toNat = s.1.baseOffset + pos := by omega
  rw [ho, Int.toNat_natCast]
  refine .bind_onSnd (request_read h .first hr hb) fun r p hp => .pure ?_
  exact ⟨⟨⟨sock, hsock, hp.1⟩, hp.2.1, rfl⟩, hp.2.2⟩

/-- One turn of the loop. -/
theorem readChunk_ends (h : Steady s) {offset length pos : Nat} (hr : offset + length ≤ s.1.length)
    (hpos : offset ≤ pos) {k : Nat}
    (hk : (k : Int) = min RemoteMemory.maxTransfer (offset + length - pos)) :
    Ends (run (Locked.readChunk offset length (sub (leased s) offset (pos - offset)) pos))
      (fun d t => Unmoved s t ∧ d = sub (leased s) offset (pos + k - offset)) (fun _ => False) s := by
  have hmax : (maxBlock : Int) = RemoteMemory.maxTransfer := rfl
  unfold run Locked.readChunk
  rw [← hk, Prog.alone_bind, Prog.alone_self]
  refine .bind_get ?_
  rw [Prog.alone_bind]
  refine (requestWithReconnect_read h pos (n := k) (by omega) (by omega)).bind fun r t ht => ?_
  have hlen : (sub (leased s) pos k).length = k := length_sub_of_le (by rw [h.length_leased]; omega)
  rw [Prog.alone_bind, Prog.alone_raiseIf]
  refine .bind_raiseIf (fun hc => ?_) fun _ => ?_
  · rw [ht.2, hlen] at hc
    exact hc rfl
  refine .pure ⟨ht.1, ?_⟩
  rw [ht.2, show pos + k - offset = (pos - offset) + k by omega, sub_append,
    show offset + (pos - offset) = pos by omega]

/-- **A read** of a part of the lease returns the bytes that are there. -/
theorem read_ends (h : Steady s) {offset length : Nat} (hr : offset + length ≤ s.1.length) :
    Ends (run (Locked.read offset length)) (fun d t => Unmoved s t ∧ d = sub (leased s) offset length)
      (fun _ => False) s := by
  unfold run Locked.read
  rw [Prog.alone_bind, Prog.alone_self]
  refine .bind_get ?_
  rw [Prog.alone_bind, Prog.alone_raiseIf]
  refine .bind_raiseIf (fun hc => ?_) fun _ => ?_
  · omega
  rw [Prog.alone_withLock, Prog.alone_foldlM]
  -- up to `pos`, the output is what the lease has there
  refine (Ends.foldlM_rangeFrom (by decide) (P := fun pos d u => ∃ p : Nat, pos = p ∧ offset ≤ p ∧
    Unmoved s u ∧ d = sub (leased s) offset (p - offset)) ?_ _ _ _ _ le_rfl ?_).mono (fun d u hu => ?_)
    (fun _ hf => hf)
  · rintro i d u hi ⟨p, rfl, hp, hu, rfl⟩
    obtain ⟨k, hk⟩ := Int.eq_ofNat_of_zero_le
      (show 0 ≤ min RemoteMemory.maxTransfer (offset + length - p) by unfold RemoteMemory.maxTransfer; omega)
    rw [← hu.leased]
    refine (readChunk_ends hu.steady (by rw [hu.self]; exact hr) hp hk.symm).mono
      (fun d v hv => ⟨p + k, ?_, by omega, hu.trans hv.1, ?_⟩) (fun _ hf => hf)
    · push_cast
      omega
    · rw [hv.2, hu.leased]
  · exact ⟨offset, by omega, le_rfl, .refl h, by rw [Nat.sub_self, Lib.sub_zero]⟩
  · obtain ⟨p, hp, -, hu, rfl⟩ := hu
    refine ⟨hu, ?_⟩
    rw [show p - offset = length by omega]

/-! ### A new service -/

/-- A request that comes through is handled whole, or nothing comes back for it. -/
theorem deliver_carried {passage : Passage} (hpassage : passage.Carried) {m : Message} (hm : Spoken m)
    (pool : RamPool) {e : Endpoint} (he : e.Idle) (hup : e.ended = false) :
    (∃ now cuts p c segments,
      (handle now m.op m.offset m.length).run (passage.others.act pool, { inbox := m.payload, cuts := cuts }) =
        .ok () (p, c) ∧
      deliver passage m.bytes pool e = (p, ⟨[], { e.conn with inbox := c.sent, cuts := segments }, false⟩)) ∨
    (deliver passage m.bytes pool e).2.conn.inbox = [] := by
  obtain ⟨pending, conn, ended⟩ := e
  obtain ⟨hunread, hpending⟩ := he
  simp only at hunread hpending hup
  subst hup
  simp only [Bool.false_eq_true, false_or] at hpending
  subst hpending
  cases passage with
  | broken others now up down => exact hpassage.elim
  | carried others now segments =>
    simp only [deliver, Link.serve, Bool.false_eq_true, if_false, List.nil_append, hunread, Passage.others]
    obtain ⟨cuts, p, c, hh, hp, hsent, hhandled, hend⟩ | ⟨hsent, -⟩ := client_whole now (others.act pool) hm
    · refine .inl ⟨now, cuts, p, c, segments, hh, ?_⟩
      have hdrop : m.bytes.drop
          (Link.answered (RAMLinkServer.client now (others.act pool) { inbox := m.bytes })) = [] := by
        rw [List.drop_eq_nil_iff, Link.answered, hhandled, Message.bytes, List.length_append]
        exact le_rfl
      rw [hp, hsent, hdrop]
      simp [hend]
    · exact .inr hsent

/-- A BORROW that comes through is refused, or grants a zeroed region. -/
theorem request_borrow {size sock : Nat} {p : Phone} (hs : Sound size p.pool) (hi : (p.socks sock).Idle)
    (hup : (p.socks sock).ended = false) (hc : (p.passages 0).Carried) (attempt : Attempt) {length : Nat}
    (hl : length < 256 ^ 4) :
    Ends (request sock ⟨attempt, ⟨opBorrow, 0, length, []⟩⟩)
      (fun r t => Sound size t.pool ∧ (t.socks sock).Idle ∧ (t.socks sock).ended = false ∧
        (∀ k, t.passages k = p.passages (k + 1)) ∧
        ∃ i a n, (i < 256 ^ 8 ∧ a < 256 ^ 8 ∧ n < 256 ^ 8) ∧ n = RamPool.roundUp length ∧ a + n ≤ size ∧
          sub t.pool.memory a n = List.replicate n 0 ∧ r.body = toBE 8 i ++ toBE 8 a ++ toBE 8 n)
      (fun _ => True) p := by
  have hm : Spoken ⟨opBorrow, 0, length, []⟩ := by
    refine ⟨⟨⟨?_, ?_, hl⟩, fun h => ?_, fun _ => rfl⟩, .inr (.inr (.inl rfl))⟩
    · show opBorrow < 256 ^ 1
      decide
    · show 0 < 256 ^ 8
      decide
    · exact absurd h (show opBorrow ≠ opWrite by decide)
  have hs' := (p.passages 0).others.sound size p.pool hs
  unfold Ends
  rw [run_request sock (m := ⟨attempt, ⟨opBorrow, 0, length, []⟩⟩) hm.wellFormed.fits]
  simp only
  obtain ⟨now, cuts, pool', c, segments, hh, hd⟩ | hnone := deliver_carried hc hm p.pool hi hup
  · -- it is granted
    have hsound : Sound size pool' := by
      have h := hs'.finalState now opBorrow 0 length { inbox := [], cuts := cuts }
      unfold Lib.finalState at h
      rw [hh] at h
      exact h
    obtain ⟨i, a, n, hfits, hn, hin, hzero, hsent⟩ := run_borrow_ok now hs' rfl hh
    have hlen : (toBE 8 i ++ toBE 8 a ++ toBE 8 n).length = leaseReplySize := by simp [leaseReplySize]
    obtain ⟨-, c', hrun, hc'⟩ | ⟨hlt, -⟩ := receive_part (e := ⟨[], { (p.socks sock).conn with
        inbox := c.sent, cuts := segments }, false⟩) (by decide) hfits.1 (by decide) hlen.le hsent
    · rw [hd]
      simp only
      rw [hrun]
      refine ⟨hsound, ?_, ?_, fun k => rfl, i, a, n, hfits, hn, hin, hzero, rfl⟩
      · show (Function.update p.socks sock _ sock).Idle
        rw [Function.update_self]
        exact ⟨hc', .inr rfl⟩
      · show (Function.update p.socks sock _ sock).ended = false
        rw [Function.update_self]
    · rw [hlen] at hlt
      exact absurd hlt (lt_irrefl _)
  · obtain ⟨c', hrun, -⟩ := receive_short (e := (deliver (p.passages 0) (Message.bytes ⟨opBorrow, 0, length, []⟩)
      p.pool (p.socks sock)).2) (by rw [hnone]; decide)
    rw [hrun]
    trivial

theorem borrowNewSocket_ends {size : Nat} (hs : Sound size s.2.pool) (hsmall : size < 256 ^ 8)
    (hfresh : s.2.socks s.2.opened = .fresh) (hborrow : (s.2.passages 1).Carried) :
    Ends (run borrowNewSocket)
      (fun r t => t.1 = s.1 ∧ Joined r.2.base r.2.length r.1 t.2 ∧
        sub t.2.pool.memory r.2.base r.2.length = List.replicate r.2.length 0 ∧
        r.2.length = RamPool.roundUp (s.1.megabytes * 1024 * 1024).toNat ∧
        ∀ k, t.2.passages k = s.2.passages (k + 2))
      (fun _ => True) s := by
  unfold run borrowNewSocket Locked.connect
  rw [Prog.alone_bind, Prog.alone_connect]
  refine .bind_onSnd (Q := fun sock p => p.pool = s.2.pool ∧ p.socks sock = .fresh ∧
    ∀ k, p.passages k = s.2.passages (k + 1)) ?_ fun sock p hp => ?_
  · unfold Ends
    rw [run_connect]
    cases hf : s.2.passages 0 with
    | broken others now up down => trivial
    | carried others now segments => exact ⟨rfl, hfresh, fun k => rfl⟩
  obtain ⟨hpool, hsock, hpassages⟩ := hp
  rw [Prog.alone_tryCatch]
  refine .tryCatch (R := fun _ => True) ?_ fun e u _ => ?_
  · rw [Prog.alone_bind, Prog.alone_self]
    refine .bind_get ?_
    unfold Locked.rmlRequest
    rw [Prog.alone_bind, Prog.alone_bind, Prog.alone_raiseIf, bind_assoc]
    refine .bind_raiseIf (fun _ => trivial) fun hc => ?_
    rw [Prog.alone_bind, bind_assoc]
    unfold Locked.send
    rw [Prog.alone_request]
    have hl : (s.1.megabytes * 1024 * 1024).toNat < 256 ^ 4 := by
      simp only at hc
      omega
    refine .bind_onSnd (request_borrow (hpool ▸ hs) (by rw [hsock]; exact ⟨rfl, .inr rfl⟩) (by rw [hsock]; rfl)
      (by rw [hpassages]; exact hborrow) .first hl) fun r q hq => ?_
    obtain ⟨hs', hidle, hup, hq, i, a, n, ⟨hi, ha, hn⟩, hlen, hin, hzero, hbody⟩ := hq
    rw [Prog.alone_pure, pure_bind]
    simp only [Prog.alone_bind, Prog.alone_raiseIf, hbody]
    refine .bind_raiseIf (fun _ => trivial) fun _ => ?_
    have hg : Grant.ofReply (toBE 8 i ++ toBE 8 a ++ toBE 8 n) = ⟨i, a, n⟩ := by
      unfold Grant.ofReply
      rw [unpackLeaseReply_pack hi ha hn]
    refine .pure ⟨rfl, ?_, ?_, ?_, fun k => by rw [hq, hpassages]⟩
    · rw [hg]
      exact ⟨by rw [hs'.size]; exact hs', by rw [hs'.size]; exact hsmall, by rw [hs'.size]; exact hin, hidle, hup⟩
    · rw [hg]
      exact hzero
    · rw [hg]
      exact hlen
  · exact .throw trivial

theorem connectAndBorrow_ends {size : Nat} {pool : RamPool} (hs : Sound size pool) (hsmall : size < 256 ^ 8)
    (megabytes : Int) {passages : Nat → Passage} (hborrow : (passages 1).Carried) :
    Ends (run Locked.connectAndBorrow)
      (fun _ t => (∃ sock, t.1.sock = some sock ∧ Joined t.1.baseOffset t.1.length sock t.2) ∧
        leased t = List.replicate t.1.length 0 ∧
        t.1.length = RamPool.roundUp (megabytes * 1024 * 1024).toNat ∧ ∀ k, t.2.passages k = passages (k + 2))
      (fun _ => True) (RemoteMemory.init megabytes, start pool passages) := by
  unfold run Locked.connectAndBorrow
  rw [Prog.alone_bind]
  refine (borrowNewSocket_ends (s := (RemoteMemory.init megabytes, start pool passages)) hs hsmall rfl
    hborrow).bind fun r t ht => ?_
  obtain ⟨sock, g⟩ := r
  obtain ⟨hself, hjoined, hzero, hlen, hpassages⟩ := ht
  rw [Prog.alone_withLock, Prog.alone_bind, Prog.alone_self]
  refine .bind_get ?_
  rw [Prog.alone_assign]
  exact .setFst ⟨⟨sock, rfl, hjoined⟩, hzero, hlen, hpassages⟩

/-- A whole number of MiB is not rounded. -/
theorem roundUp_mib (megabytes : Int) :
    RamPool.roundUp (megabytes * 1024 * 1024).toNat = (megabytes * 1024 * 1024).toNat := by
  unfold RamPool.roundUp sectorSize
  omega

/-- **A new service** has the size it asked for, and finds zeros there: the provider may have been through
anything, and has other clients. -/
theorem fresh_lease_reads {sizeMb : Int} {pool : RamPool} (hinit : RamPool.init sizeMb = .ok pool)
    (megabytes : Int) {passages : Nat → Passage} (hborrow : (passages 1).Carried) :
    Ends (run Locked.connectAndBorrow)
      (fun _ t => t.1.length = (megabytes * 1024 * 1024).toNat ∧
        ((∀ k, (passages (k + 2)).Spares t.1.baseOffset t.1.length) →
          ∀ offset length : Nat, offset + length ≤ t.1.length →
            Ends (run (Locked.read offset length)) (fun d u => d = List.replicate length 0 ∧ Unmoved t u)
              (fun _ => False) t))
      (fun _ => True) (RemoteMemory.init megabytes, start pool passages) := by
  obtain ⟨-, -, -, hsmall⟩ := RamPool.init_ok hinit
  have hs : Sound pool.size pool := ⟨RamPool.init_sized hinit, RamPool.init_tabled hinit, rfl⟩
  refine (connectAndBorrow_ends hs (hsmall.trans (by decide)) megabytes hborrow).mono (fun _ t ht => ?_) fun _ h => h
  obtain ⟨⟨sock, hsock, hjoined⟩, hzero, hlen, hpassages⟩ := ht
  refine ⟨hlen.trans (roundUp_mib megabytes), fun hspares offset length hr => ?_⟩
  have hsteady : Steady t := by
    refine ⟨sock, hsock, hjoined, fun k => ?_⟩
    rw [hpassages]
    exact hspares k
  refine (read_ends hsteady hr).mono (fun d u hu => ⟨?_, hu.1⟩) fun _ hf => hf
  rw [hu.2, hzero, sub_replicate _ hr]

/-- Another client borrows a sector just before the service does, and then leaves the phone alone. -/
def precededBy (k : Nat) : Passage :=
  if k = 1 then .carried (.connection 0 { inbox := header opBorrow 0 512 }) 0 [5, 1]
  else .carried .idle 0 []

/-- A provider of 2 MiB. -/
def twoMib : RamPool := ⟨2097152, List.replicate 2097152 0, .empty, 1⟩

theorem init_twoMib : RamPool.init 2 = .ok twoMib := rfl

theorem fresh_lease_reads_preceded : ∃ r t,
    (run Locked.connectAndBorrow).run (RemoteMemory.init 1, start twoMib precededBy) = .ok r t ∧
    t.1.baseOffset = 512 ∧ t.1.length = 1048576 ∧
    ∀ offset length : Nat, offset + length ≤ 1048576 →
      ∃ u, (run (Locked.read offset length)).run t = .ok (List.replicate length 0) u ∧ Unmoved t u := by
  obtain ⟨r, t, hrun⟩ := exists_of_returned (by decide +kernel : returned ((run Locked.connectAndBorrow).run
    (RemoteMemory.init 1, start twoMib precededBy)) = true)
  have hbase : (finalState (run Locked.connectAndBorrow)
    (RemoteMemory.init 1, start twoMib precededBy)).1.baseOffset = 512 := by decide +kernel
  have h := fresh_lease_reads init_twoMib 1 (show (precededBy 1).Carried from trivial)
  unfold Ends at h
  rw [hrun] at h
  rw [finalState_of_ok hrun] at hbase
  obtain ⟨hlen, hreads⟩ := h
  refine ⟨r, t, hrun, hbase, hlen, fun offset length hr => ?_⟩
  have hread := hreads (fun k s => rfl) offset length (hlen ▸ hr)
  cases hm : (run (Locked.read offset length)).run t with
  | ok d u =>
    rw [hm] at hread
    obtain ⟨rfl, hu⟩ := hread
    exact ⟨u, rfl, hu⟩
  | error e u =>
    rw [hm] at hread
    exact hread.elim

end Reads

end Phone

end RamLink
