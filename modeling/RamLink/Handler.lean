import RamLink.Pool

/-!
# RamLink.Handler

What the request handlers of the two providers share: a handler runs on the provider's state and
one connection, reads with `recv_all`, and replies with `send_header` and `sendall`.

`Sends data s t` says that a step put exactly `data` on the wire and changed nothing else that the
peer or another request can see; `Quiet m`, that `m` leaves the pool alone even if it raises; and
`Replies rlen plen s t`, that one header and one payload were sent in between.
-/

namespace RamLink

open Lib

/-- A request handler; an exception leaves the state as it was when it was raised. -/
abbrev Handler := EStateM Exc (RamPool × Conn)

def recvAll (size : Nat) : Handler Bytes :=
  onSnd (Conn.recvAll (.connectionError "peer disconnected") maxBlock size)

def sendall (data : Bytes) : Handler Unit := onSnd (Conn.sendall data)

def sendHeader (op offset length : Nat) : Handler Unit := do
  let h ← fromExcept (packHeader op offset length)
  sendall h

/-- The end of `borrow`: the lease is packed and sent as the payload of the reply. -/
def sendLeaseReply (leaseId offset length : Nat) : Handler Unit := do
  let payload ← fromExcept (packLeaseReply leaseId offset length)
  sendHeader opBorrow leaseId payload.length
  sendall payload

/-- The writing branches after their checks: receive, store, acknowledge. -/
def receiveAndStore (op offset length byteOffset byteLength : Nat) : Handler Unit := do
  let data ← recvAll byteLength
  onFst (modify (RamPool.store byteOffset byteLength data))
  sendHeader op offset length

/-- The reading branches after their checks: load and send. -/
def loadAndSend (op offset length byteOffset byteLength : Nat) : Handler Unit := do
  let data := (← get).1.load byteOffset byteLength
  sendHeader op offset length
  sendall data

/-- `f"{size / 1024 / 1024:.2f}"`: the quotient to two places, ties to even. -/
def mibText (size : Nat) : String :=
  let q := size * 100 / 1048576
  let r := size * 100 % 1048576
  let n := if 524288 < r ∨ (r = 524288 ∧ q % 2 = 1) then q + 1 else q
  s!"{n / 100}.{n % 100 / 10}{n % 10}"

/-- A reply about to be sent. -/
structure Reply where
  op : Nat
  offset : Nat
  length : Nat
  payload : Bytes

/-- One request, the clock reading it is handled at, and the connection it came on. -/
structure Request where
  now : Time
  op : Nat
  offset : Nat
  length : Nat
  conn : Conn

@[simp] theorem run_getHandler (s : RamPool × Conn) : (get : Handler _).run s = .ok s s := rfl

/-- `data` was put on the wire, and nothing else happened to the pool or the peer's bytes. -/
structure Sends (data : Bytes) (s t : RamPool × Conn) : Prop where
  pool : t.1 = s.1
  inbox : t.2.inbox = s.2.inbox
  sent : t.2.sent = s.2.sent ++ data

theorem Sends.trans {d e : Bytes} {s t u : RamPool × Conn} (h : Sends d s t) (k : Sends e t u) :
    Sends (d ++ e) s u :=
  ⟨k.pool.trans h.pool, k.inbox.trans h.inbox, by rw [k.sent, h.sent, List.append_assoc]⟩

theorem sendall_ok {data : Bytes} {s t : RamPool × Conn} {u : Unit}
    (h : (sendall data).run s = .ok u t) : Sends data s t := by
  obtain ⟨p, c⟩ := s
  rcases Conn.sendall_cases data c with ⟨fs, hc⟩ | ⟨k, fs, hc⟩
  · simp only [sendall, run_onSnd, hc] at h
    cases h
    exact ⟨rfl, rfl, rfl⟩
  · simp only [sendall, run_onSnd, hc] at h
    cases h

theorem sendHeader_ok {op offset length : Nat} {s t : RamPool × Conn} {u : Unit}
    (h : (sendHeader op offset length).run s = .ok u t) :
    Sends (header op offset length) s t ∧ op < 256 ^ 1 ∧ offset < 256 ^ 8 ∧ length < 256 ^ 4 := by
  simp only [sendHeader, run_bind_ok, run_fromExcept] at h
  obtain ⟨b, s1, h1, h2⟩ := h
  cases hp : packHeader op offset length with
  | error e => rw [hp] at h1; cases h1
  | ok b' =>
    rw [hp] at h1
    cases h1
    obtain ⟨rfl, hb⟩ := packHeader_ok hp
    exact ⟨sendall_ok h2, hb⟩

theorem length_packLeaseReply {i a n : Nat} {b : Bytes} (h : packLeaseReply i a n = .ok b) :
    b.length = leaseReplySize := by
  simp only [packLeaseReply] at h
  split at h
  · cases h; simp [leaseReplySize]
  · cases h

theorem sendLeaseReply_ok {i a n : Nat} {s t : RamPool × Conn} {u : Unit}
    (h : (sendLeaseReply i a n).run s = .ok u t) :
    ∃ payload, packLeaseReply i a n = .ok payload ∧
      Sends (header opBorrow i payload.length ++ payload) s t ∧ i < 256 ^ 8 := by
  simp only [sendLeaseReply, run_bind_ok, run_fromExcept] at h
  obtain ⟨payload, s1, h1, v, s2, h2, h3⟩ := h
  cases hp : packLeaseReply i a n with
  | error e => rw [hp] at h1; cases h1
  | ok b =>
    rw [hp] at h1
    cases h1
    obtain ⟨k, -, hi, -⟩ := sendHeader_ok h2
    exact ⟨payload, rfl, k.trans (sendall_ok h3), hi⟩

/-! ## On a working connection -/

theorem run_sendall {c : Conn} (hc : c.faults = []) (s : RamPool) (data : Bytes) :
    (sendall data).run (s, c) = .ok () (s, { c with sent := c.sent ++ data }) := by
  simp only [sendall, run_onSnd, Conn.run_sendall_nil data hc]

theorem run_sendHeader {c : Conn} (hc : c.faults = []) (s : RamPool) {op offset length : Nat}
    (ho : op < 256 ^ 1) (hf : offset < 256 ^ 8) (hl : length < 256 ^ 4) :
    (sendHeader op offset length).run (s, c) =
      .ok () (s, { c with sent := c.sent ++ header op offset length }) := by
  have hp : packHeader op offset length = .ok (header op offset length) := if_pos ⟨ho, hf, hl⟩
  simp only [sendHeader, EStateM.run_bind, run_fromExcept, hp, run_sendall hc]

/-- The lease reply is sent if and only if its fields fit. -/
theorem run_sendLeaseReply {i a n : Nat} (s : RamPool) {c : Conn} (hc : c.faults = []) :
    (sendLeaseReply i a n).run (s, c) =
      if i < 256 ^ 8 ∧ a < 256 ^ 8 ∧ n < 256 ^ 8 then
        .ok () (s, { c with sent := c.sent ++ header opBorrow i leaseReplySize ++
          (toBE 8 i ++ toBE 8 a ++ toBE 8 n) })
      else .error .structError (s, c) := by
  by_cases h : i < 256 ^ 8 ∧ a < 256 ^ 8 ∧ n < 256 ^ 8
  · have hp : packLeaseReply i a n = .ok (toBE 8 i ++ toBE 8 a ++ toBE 8 n) := if_pos h
    have hl : (toBE 8 i ++ toBE 8 a ++ toBE 8 n).length = leaseReplySize :=
      length_packLeaseReply hp
    have hh : (sendHeader opBorrow i leaseReplySize).run (s, c) = _ :=
      run_sendHeader hc s (by decide) h.1 (by decide)
    simp only [sendLeaseReply, EStateM.run_bind, run_fromExcept, hp, hl, hh, if_pos h]
    exact run_sendall (c := { c with sent := c.sent ++ header opBorrow i leaseReplySize }) hc s _
  · have hp : packLeaseReply i a n = .error .structError := if_neg h
    simp only [sendLeaseReply, EStateM.run_bind, run_fromExcept, hp, if_neg h]

theorem run_loadAndSend {c : Conn} (hc : c.faults = []) (s : RamPool) {op offset length : Nat}
    (ho : op < 256 ^ 1) (hf : offset < 256 ^ 8) (hl : length < 256 ^ 4) (a n : Nat) :
    (loadAndSend op offset length a n).run (s, c) = .ok ()
      (s, { c with sent := c.sent ++ header op offset length ++ s.load a n }) := by
  simp only [loadAndSend, EStateM.run_bind, run_getHandler, run_sendHeader hc s ho hf hl]
  exact run_sendall (c := { c with sent := c.sent ++ header op offset length }) hc s _

/-! ## Handlers that leave the pool alone -/

/-- Whether it returns or raises, `m` does not change the pool. -/
def Quiet {α : Type} (m : Handler α) : Prop := ∀ s, (finalState m s).1 = s.1

theorem Quiet.bind {α β : Type} {m : Handler α} {f : α → Handler β} (hm : Quiet m)
    (hf : ∀ a, Quiet (f a)) : Quiet (m >>= f) := by
  intro s
  have h := hm s
  rw [finalState_bind]
  unfold finalState at h
  cases hr : m.run s with
  | error e t => rw [hr] at h; exact h
  | ok a t => rw [hr] at h; exact (hf a t).trans h

/-- What follows a change of the pool and is quiet leaves the changed pool. -/
theorem finalState_bind_quiet {α β : Type} (m : Handler α) {f : α → Handler β}
    (hf : ∀ a, Quiet (f a)) (s : RamPool × Conn) :
    (finalState (m >>= f) s).1 = (finalState m s).1 := by
  rw [finalState_bind]
  unfold finalState
  cases m.run s with
  | error e t => rfl
  | ok a t => exact hf a t

theorem Quiet.get {α : Type} {f : RamPool × Conn → Handler α} (hf : ∀ s, Quiet (f s)) :
    Quiet (get >>= f) := fun s => hf s s

theorem quiet_fromExcept {α : Type} (x : Except Exc α) : Quiet (fromExcept x) := by
  intro s
  cases x <;> rfl

theorem quiet_sendall (data : Bytes) : Quiet (sendall data) := by
  intro s
  rcases Conn.sendall_cases data s.2 with ⟨fs, hc⟩ | ⟨k, fs, hc⟩ <;>
    simp only [finalState, sendall, run_onSnd, hc]

theorem quiet_sendHeader (op offset length : Nat) : Quiet (sendHeader op offset length) :=
  (quiet_fromExcept _).bind quiet_sendall

theorem quiet_sendLeaseReply (i a n : Nat) : Quiet (sendLeaseReply i a n) :=
  (quiet_fromExcept _).bind fun payload =>
    (quiet_sendHeader opBorrow i payload.length).bind fun _ => quiet_sendall payload

theorem quiet_loadAndSend (op offset length a n : Nat) : Quiet (loadAndSend op offset length a n) := by
  intro s
  have h : Quiet (do sendHeader op offset length; sendall (s.1.load a n)) :=
    (quiet_sendHeader op offset length).bind fun _ => quiet_sendall _
  exact h s

/-- A writing branch changes the pool exactly if the whole payload arrives. -/
theorem finalState_receiveAndStore (op offset length a n : Nat) (s : RamPool × Conn) :
    (finalState (receiveAndStore op offset length a n) s).1 =
      if n ≤ s.2.inbox.length then s.1.store a n (s.2.inbox.take n) else s.1 := by
  obtain ⟨p, c⟩ := s
  unfold receiveAndStore
  rw [finalState_bind]
  by_cases hn : n ≤ c.inbox.length
  · obtain ⟨cuts, hr⟩ := Conn.recvAll_ok (.connectionError "peer disconnected")
      (by decide : 0 < maxBlock) hn
    simp only [recvAll, run_onSnd, hr, if_pos hn]
    exact quiet_sendHeader op offset length (p.store a n (c.inbox.take n), _)
  · obtain ⟨cuts, hr⟩ := Conn.recvAll_short (.connectionError "peer disconnected")
      (by decide : 0 < maxBlock) (Nat.lt_of_not_le hn)
    simp only [recvAll, run_onSnd, hr, if_neg hn]

/-! ## What the peer sees of a request -/

/-- The bytes on the wire after an accepted request (`none`: it was rejected), and the pool after
it. -/
def outcome (m : Handler Unit) (s : RamPool × Conn) : Option Bytes × RamPool :=
  match m.run s with
  | .ok _ t => (some t.2.sent, t.1)
  | .error _ t => (none, t.1)

/-- The bytes on the wire after a computation on the connection alone. -/
def delivered (n : EStateM Exc Conn Unit) (c : Conn) : Option Bytes :=
  match n.run c with
  | .ok _ c' => some c'.sent
  | .error _ _ => none

theorem outcome_snd (m : Handler Unit) (s : RamPool × Conn) :
    (outcome m s).2 = (finalState m s).1 := by
  unfold outcome finalState
  cases m.run s <;> rfl

theorem outcome_onSnd (n : EStateM Exc Conn Unit) (s : RamPool) (c : Conn) :
    outcome (onSnd n) (s, c) = (delivered n c, s) := by
  unfold outcome delivered
  rw [run_onSnd]
  cases n.run c <;> rfl

theorem outcome_bind_onFst {α : Type} (m : EStateM Exc RamPool α) (f : α → Handler Unit) (s : RamPool)
    (c : Conn) : outcome (onFst m >>= f) (s, c) = match m.run s with
      | .ok a s' => outcome (f a) (s', c)
      | .error _ s' => (none, s') := by
  unfold outcome
  rw [EStateM.run_bind, run_onFst]
  cases m.run s <;> rfl

theorem outcome_bind_onSnd {α : Type} (n : EStateM Exc Conn α) (f : α → Handler Unit) (s : RamPool)
    (c : Conn) : outcome (onSnd n >>= f) (s, c) = match n.run c with
      | .ok a c' => outcome (f a) (s, c')
      | .error _ _ => (none, s) := by
  unfold outcome
  rw [EStateM.run_bind, run_onSnd]
  cases n.run c <;> rfl

theorem outcome_bind_raiseIf (p : Prop) [Decidable p] (e : Exc) (f : Unit → Handler Unit)
    (s : RamPool × Conn) :
    outcome (raiseIf p e >>= f) s = if p then (none, s.1) else outcome (f ()) s := by
  unfold outcome
  rw [EStateM.run_bind, run_raiseIf]
  by_cases hp : p
  · simp only [if_pos hp]
  · simp only [if_neg hp]

theorem outcome_bind_get (f : RamPool × Conn → Handler Unit) (s : RamPool × Conn) :
    outcome (get >>= f) s = outcome (f s) s := rfl

/-- `send_header`, on the connection alone. -/
def wireHeader (op offset length : Nat) : EStateM Exc Conn Unit := do
  let h ← fromExcept (packHeader op offset length)
  Conn.sendall h

/-- A header and a payload, on the connection alone. -/
def wireReply (op offset length : Nat) (payload : Bytes) : EStateM Exc Conn Unit := do
  wireHeader op offset length
  Conn.sendall payload

theorem sendHeader_onSnd (op offset length : Nat) :
    sendHeader op offset length = onSnd (wireHeader op offset length) := by
  funext s
  unfold sendHeader wireHeader
  cases packHeader op offset length <;> rfl

theorem sendReply_onSnd (op offset length : Nat) (payload : Bytes) :
    (do sendHeader op offset length; sendall payload) = onSnd (wireReply op offset length payload) := by
  funext s
  obtain ⟨p, c⟩ := s
  rw [sendHeader_onSnd]
  unfold wireReply
  show EStateM.bind (onSnd (wireHeader op offset length)) (fun _ => sendall payload) (p, c) =
    onSnd (EStateM.bind (wireHeader op offset length) fun _ => Conn.sendall payload) (p, c)
  simp only [EStateM.bind, onSnd, sendall]
  cases wireHeader op offset length c <;> rfl

theorem outcome_sendHeader (op offset length : Nat) (s : RamPool) (c : Conn) :
    outcome (sendHeader op offset length) (s, c) = (delivered (wireHeader op offset length) c, s) := by
  rw [sendHeader_onSnd, outcome_onSnd]

theorem outcome_sendReply (op offset length : Nat) (payload : Bytes) (s : RamPool) (c : Conn) :
    outcome (do sendHeader op offset length; sendall payload) (s, c) =
      (delivered (wireReply op offset length payload) c, s) := by
  rw [sendReply_onSnd, outcome_onSnd]

/-- A header goes out exactly if its fields fit and its send succeeds. -/
theorem delivered_wireHeader {op offset length : Nat} (ho : op < 256 ^ 1) (hl : length < 256 ^ 4)
    (c : Conn) :
    (delivered (wireHeader op offset length) c).isSome ↔ offset < 256 ^ 8 ∧ c.fails 1 = false := by
  unfold delivered wireHeader
  by_cases hf : offset < 256 ^ 8
  · have hp : packHeader op offset length = .ok (header op offset length) := if_pos ⟨ho, hf, hl⟩
    simp only [EStateM.run_bind, run_fromExcept, hp]
    cases hc : c.fails 1 with
    | false =>
      rw [Conn.run_sendall _ hc]
      exact iff_of_true rfl ⟨hf, rfl⟩
    | true =>
      obtain ⟨c', hr⟩ := Conn.run_sendall_fails (header op offset length) hc
      rw [hr]
      exact iff_of_false (by simp) fun h => by cases h.2
  · have hp : packHeader op offset length = .error .structError := if_neg fun h => hf h.2.1
    simp only [EStateM.run_bind, run_fromExcept, hp]
    exact iff_of_false (by simp) fun h => hf h.1

theorem delivered_wireReply {op offset length : Nat} (ho : op < 256 ^ 1) (hl : length < 256 ^ 4)
    (payload : Bytes) (c : Conn) :
    (delivered (wireReply op offset length payload) c).isSome ↔
      offset < 256 ^ 8 ∧ c.fails 2 = false := by
  unfold delivered wireReply wireHeader
  by_cases hf : offset < 256 ^ 8
  · have hp : packHeader op offset length = .ok (header op offset length) := if_pos ⟨ho, hf, hl⟩
    simp only [EStateM.run_bind, run_fromExcept, hp]
    rw [Conn.fails_succ, Bool.or_eq_false_iff]
    cases hc : c.fails 1 with
    | true =>
      obtain ⟨c', hr⟩ := Conn.run_sendall_fails (header op offset length) hc
      rw [hr]
      exact iff_of_false (by simp) fun h => by cases h.2.1
    | false =>
      rw [Conn.run_sendall _ hc]
      simp only
      generalize hd : ({ c with faults := c.faults.tail, sent := c.sent ++ header op offset length } :
        Conn) = d
      have hfd : ({ c with faults := c.faults.tail } : Conn).fails 1 = d.fails 1 := by rw [← hd]; rfl
      rw [hfd]
      cases hd1 : d.fails 1 with
      | true =>
        obtain ⟨d', hr⟩ := Conn.run_sendall_fails payload hd1
        rw [hr]
        exact iff_of_false (by simp) fun h => by cases h.2.2
      | false =>
        rw [Conn.run_sendall _ hd1]
        exact iff_of_true rfl ⟨hf, trivial, rfl⟩
  · have hp : packHeader op offset length = .error .structError := if_neg fun h => hf h.2.1
    simp only [EStateM.run_bind, run_fromExcept, hp]
    exact iff_of_false (by simp) fun h => hf h.1

/-- What a peer sees of the lease reply does not depend on the pool. -/
def leaseReply (leaseId offset length : Nat) (c : Conn) : Option Bytes :=
  match packLeaseReply leaseId offset length with
  | .error _ => none
  | .ok payload => delivered (wireReply opBorrow leaseId payload.length payload) c

theorem outcome_sendLeaseReply (leaseId offset length : Nat) (s : RamPool) (c : Conn) :
    outcome (sendLeaseReply leaseId offset length) (s, c) = (leaseReply leaseId offset length c, s) := by
  unfold sendLeaseReply leaseReply
  cases hp : packLeaseReply leaseId offset length with
  | error e => rfl
  | ok payload => exact outcome_sendReply opBorrow leaseId payload.length payload s c

theorem leaseReply_isSome (leaseId offset length : Nat) (c : Conn) :
    (leaseReply leaseId offset length c).isSome ↔
      (leaseId < 256 ^ 8 ∧ offset < 256 ^ 8 ∧ length < 256 ^ 8) ∧ c.fails 2 = false := by
  unfold leaseReply
  by_cases hf : leaseId < 256 ^ 8 ∧ offset < 256 ^ 8 ∧ length < 256 ^ 8
  · have hp : packLeaseReply leaseId offset length =
        .ok (toBE 8 leaseId ++ toBE 8 offset ++ toBE 8 length) := if_pos hf
    have hl := length_packLeaseReply hp
    rw [hp]
    simp only
    rw [delivered_wireReply (by decide) (by rw [hl]; decide), and_iff_right hf, and_iff_right hf.1]
  · have hp : packLeaseReply leaseId offset length = .error .structError := if_neg hf
    rw [hp]
    exact iff_of_false (by simp) fun h => hf h.1

theorem outcome_loadAndSend (op offset length a n : Nat) (s : RamPool) (c : Conn) :
    outcome (loadAndSend op offset length a n) (s, c) =
      (delivered (wireReply op offset length (s.load a n)) c, s) :=
  outcome_sendReply op offset length (s.load a n) s c

/-- What a peer sees of a writing branch. -/
def stored (op offset length n : Nat) (c : Conn) : Option Bytes :=
  match (Conn.recvAll (.connectionError "peer disconnected") maxBlock n).run c with
  | .ok _ c' => delivered (wireHeader op offset length) c'
  | .error _ _ => none

theorem outcome_receiveAndStore (op offset length a n : Nat) (s : RamPool) (c : Conn) :
    outcome (receiveAndStore op offset length a n) (s, c) = (stored op offset length n c,
      if n ≤ c.inbox.length then s.store a n (c.inbox.take n) else s) := by
  refine Prod.ext ?_ ?_
  · unfold receiveAndStore stored recvAll
    rw [outcome_bind_onSnd]
    cases (Conn.recvAll (.connectionError "peer disconnected") maxBlock n).run c with
    | error e c' => rfl
    | ok data c' =>
      simp only [outcome_bind_onFst, run_modify, outcome_sendHeader]
  · rw [outcome_snd, finalState_receiveAndStore]

/-! ## The replies on a connection that works -/

/-- The bytes on the wire after a reply, if its header can be packed. -/
def Reply.wire (r : Reply) (sent : Bytes) : Option Bytes :=
  match packHeader r.op r.offset r.length with
  | .error _ => none
  | .ok h => some (sent ++ h ++ r.payload)

theorem delivered_reply {c : Conn} (hc : c.faults = []) (op offset length : Nat) (payload : Bytes) :
    delivered (wireReply op offset length payload) c = Reply.wire ⟨op, offset, length, payload⟩ c.sent := by
  unfold delivered wireReply wireHeader Reply.wire
  simp only [EStateM.run_bind, run_fromExcept]
  cases packHeader op offset length with
  | error e => rfl
  | ok h =>
    have hc' : ({ c with sent := c.sent ++ h } : Conn).faults = [] := hc
    simp only [Conn.run_sendall_nil h hc, Conn.run_sendall_nil payload hc']

theorem delivered_header {c : Conn} (hc : c.faults = []) (op offset length : Nat) :
    delivered (wireHeader op offset length) c = Reply.wire ⟨op, offset, length, []⟩ c.sent := by
  unfold delivered wireHeader Reply.wire
  simp only [EStateM.run_bind, run_fromExcept]
  cases packHeader op offset length with
  | error e => rfl
  | ok h => simp only [Conn.run_sendall_nil h hc, List.append_nil]

/-- A writing branch is acknowledged exactly if its whole payload is there. -/
theorem stored_eq {c : Conn} (hc : c.faults = []) (op offset length n : Nat) :
    stored op offset length n c =
      if n ≤ c.inbox.length then Reply.wire ⟨op, offset, length, []⟩ c.sent else none := by
  unfold stored
  by_cases hn : n ≤ c.inbox.length
  · obtain ⟨cuts, hr⟩ := Conn.recvAll_ok (.connectionError "peer disconnected")
      (by decide : 0 < maxBlock) hn
    have hc' : ({ c with inbox := c.inbox.drop n, cuts := cuts } : Conn).faults = [] := hc
    rw [hr, if_pos hn]
    exact delivered_header hc' op offset length
  · obtain ⟨cuts, hr⟩ := Conn.recvAll_short (.connectionError "peer disconnected")
      (by decide : 0 < maxBlock) (Nat.lt_of_not_le hn)
    rw [hr, if_neg hn]

/-! ## What a reply puts on the wire -/

/-- `t` is `s` after one reply: a header with length field `rlen` and a payload of `plen` bytes. -/
def Replies (rlen plen : Nat) (s t : RamPool × Conn) : Prop :=
  ∃ rop roff payload, rop < 256 ^ 1 ∧ roff < 256 ^ 8 ∧ rlen < 256 ^ 4 ∧ payload.length = plen ∧
    t.2.sent = s.2.sent ++ (header rop roff rlen ++ payload)

theorem replies_of_sends {op offset rlen : Nat} {payload : Bytes} {s t u : RamPool × Conn}
    {v w : Unit} (h : (sendHeader op offset rlen).run s = .ok v t)
    (k : (sendall payload).run t = .ok w u) : Replies rlen payload.length s u := by
  obtain ⟨h1, ho, hf, hl⟩ := sendHeader_ok h
  exact ⟨op, offset, payload, ho, hf, hl, rfl, (h1.trans (sendall_ok k)).sent⟩

theorem replies_of_header {op offset rlen : Nat} {s t : RamPool × Conn} {v : Unit}
    (h : (sendHeader op offset rlen).run s = .ok v t) : Replies rlen 0 s t := by
  obtain ⟨h1, ho, hf, hl⟩ := sendHeader_ok h
  exact ⟨op, offset, [], ho, hf, hl, rfl, by rw [h1.sent, List.append_nil]⟩

/-- A change of the pool before the reply is not seen on the wire. -/
theorem Replies.of_sent_eq {rlen plen : Nat} {s s' t : RamPool × Conn} (h : Replies rlen plen s' t)
    (hs : s'.2.sent = s.2.sent) : Replies rlen plen s t := by
  obtain ⟨rop, roff, payload, h1, h2, h3, h4, h5⟩ := h
  exact ⟨rop, roff, payload, h1, h2, h3, h4, by rw [h5, hs]⟩

theorem onFst_ok {α : Type} {m : EStateM Exc RamPool α} {s t : RamPool × Conn} {a : α}
    (h : (onFst m : Handler α).run s = .ok a t) : m.run s.1 = .ok a t.1 ∧ t.2 = s.2 := by
  rw [run_onFst] at h
  cases hm : m.run s.1 with
  | ok b u => rw [hm] at h; cases h; exact ⟨rfl, rfl⟩
  | error e u => rw [hm] at h; cases h

theorem recvAll_ok {n : Nat} {s t : RamPool × Conn} {data : Bytes}
    (h : (recvAll n).run s = .ok data t) :
    data = s.2.inbox.take n ∧ data.length = n ∧ t.1 = s.1 ∧ t.2.inbox = s.2.inbox.drop n ∧
      t.2.sent = s.2.sent := by
  obtain ⟨p, c⟩ := s
  by_cases hn : n ≤ c.inbox.length
  · obtain ⟨cuts, hr⟩ := Conn.recvAll_ok (.connectionError "peer disconnected")
      (by decide : 0 < maxBlock) hn
    simp only [recvAll, run_onSnd, hr] at h
    cases h
    exact ⟨rfl, by simp [hn], rfl, rfl, rfl⟩
  · obtain ⟨cuts, hr⟩ := Conn.recvAll_short (.connectionError "peer disconnected")
      (by decide : 0 < maxBlock) (Nat.lt_of_not_le hn)
    simp only [recvAll, run_onSnd, hr] at h
    cases h

theorem receiveAndStore_ok {op offset length a n : Nat} {s t : RamPool × Conn} {u : Unit}
    (h : (receiveAndStore op offset length a n).run s = .ok u t) :
    t.1 = s.1.store a n (s.2.inbox.take n) ∧ n ≤ s.2.inbox.length ∧
      t.2.inbox = s.2.inbox.drop n ∧ t.2.sent = s.2.sent ++ header op offset length ∧
      Replies length 0 s t := by
  simp only [receiveAndStore, run_bind_ok] at h
  obtain ⟨data, s1, h1, v, s2, h2, h3⟩ := h
  obtain ⟨hd, hlen, hp, hi, hs⟩ := recvAll_ok h1
  rw [run_modifyFst] at h2
  cases h2
  have hr := (replies_of_header h3).of_sent_eq hs
  obtain ⟨hh, -, -, -⟩ := sendHeader_ok h3
  refine ⟨by rw [hh.pool, hp, hd], ?_, hh.inbox.trans hi, by rw [hh.sent, hs], hr⟩
  rw [hd, List.length_take] at hlen
  omega

theorem loadAndSend_ok {op offset length a n : Nat} {s t : RamPool × Conn} {u : Unit}
    (h : (loadAndSend op offset length a n).run s = .ok u t) :
    t.1 = s.1 ∧ t.2.inbox = s.2.inbox ∧
      t.2.sent = s.2.sent ++ (header op offset length ++ s.1.load a n) ∧
      Replies length (s.1.load a n).length s t := by
  simp only [loadAndSend, run_bind_ok] at h
  obtain ⟨s0, s1, h0, v, s2, h2, h3⟩ := h
  cases h0
  obtain ⟨hh, -, -, -⟩ := sendHeader_ok h2
  have hk := hh.trans (sendall_ok h3)
  exact ⟨hk.pool, hk.inbox, hk.sent, replies_of_sends h2 h3⟩

end RamLink
