import RamLink.Client
import RamLink.Server

/-!
# RamLink.Framing

Framing agreement between `RAMLinkServer` and its clients on one connection.

A conversation is a list of exchanges: an accepted request, the bytes the server sent for it, and
how the transport cut them. The server is in any state with a buffer of its own size when a request
arrives, since other connections may have changed it in between.

* `Agreement`: every reply is one header and as many bytes as its length field says, and a client
  that receives once per request returns each time with nothing left over.
* `agreement_iff`: that holds exactly when no WRITE, BLOCK_READ or BLOCK_WRITE of the conversation
  has a non-zero length. These three put the transfer's length into the header where the other
  branches put the payload's: a WRITE or BLOCK_WRITE acknowledges `length` and sends no payload, a
  BLOCK_READ counts sectors and sends bytes.
-/

namespace RamLink

open Lib

namespace RAMLinkServer

structure Exchange where
  pool : RamPool
  sized : pool.memory.length = pool.size
  now : Time
  op : Nat
  offset : Nat
  length : Nat
  /-- The server's end of the connection. -/
  conn : Conn
  /-- How the reply is cut on its way to the client. -/
  cuts : List Nat

namespace Exchange

def result (x : Exchange) : EStateM.Result Exc (RamPool × Conn) Unit :=
  (handle x.now x.op x.offset x.length).run (x.pool, x.conn)

def Accepted (x : Exchange) : Prop := ∃ t, x.result = .ok () t

/-- The bytes the server sends for the request. -/
def reply (x : Exchange) : Bytes :=
  (finalState (handle x.now x.op x.offset x.length) (x.pool, x.conn)).2.sent.drop x.conn.sent.length

/-- The header's length field is a transfer length that is not the payload's length. -/
def Misframed (x : Exchange) : Prop :=
  (x.op = opWrite ∨ x.op = opBlockRead ∨ x.op = opBlockWrite) ∧ x.length ≠ 0

theorem reply_eq {x : Exchange} (h : x.Accepted) :
    ∃ op offset rlen payload, op < 256 ^ 1 ∧ offset < 256 ^ 8 ∧ rlen < 256 ^ 4 ∧
      ReplyLengths x.op x.length rlen payload.length ∧
      x.reply = header op offset rlen ++ payload := by
  obtain ⟨t, ht⟩ := h
  have hr : (handle x.now x.op x.offset x.length).run (x.pool, x.conn) = .ok () t := ht
  obtain ⟨rlen, plen, hl, op, offset, payload, ho, hf, hb, rfl, hs⟩ := handle_reply x.sized hr
  refine ⟨op, offset, rlen, payload, ho, hf, hb, hl, ?_⟩
  simp only [reply, finalState, hr, hs, List.drop_left]

/-- A reply is framed exactly if the request is not one of the three. -/
theorem framed_reply_iff {x : Exchange} (h : x.Accepted) : Framed x.reply ↔ ¬ x.Misframed := by
  obtain ⟨op, offset, rlen, payload, ho, hf, hb, hl, he⟩ := reply_eq h
  rw [he, framed_iff ho hf hb]
  unfold ReplyLengths at hl
  simp only [Misframed, not_and, ne_eq, Decidable.not_not]
  split at hl
  · rename_i hw
    obtain ⟨rfl, hp⟩ := hl
    constructor
    · intro h0 _
      omega
    · intro h0
      rw [hp, h0 (by tauto)]
  split at hl
  · rename_i hr
    obtain ⟨rfl, hp⟩ := hl
    rw [hp]
    simp only [sectorSize]
    constructor
    · intro h0 _
      omega
    · intro h0
      rw [h0 (Or.inr (Or.inl hr))]
  · rename_i h1 h2
    have hne : ¬ (x.op = opWrite ∨ x.op = opBlockRead ∨ x.op = opBlockWrite) := by tauto
    constructor
    · intro _ hc
      exact absurd hc hne
    · intro _
      split at hl
      · omega
      · exact hl.symm

end Exchange

/-- A client that receives once per request consumes each reply and nothing else: it never waits
for bytes that are not there, and nothing is left in front of the next reply. -/
def InStep (receive : Exchange → EStateM Exc Conn (Nat × Nat × Bytes)) : Bytes → List Exchange → Prop
  | _, [] => True
  | unread, x :: xs =>
    ∃ r c, (receive x).run { inbox := unread ++ x.reply, cuts := x.cuts } = .ok r c ∧
      c.inbox = [] ∧ InStep receive c.inbox xs

structure Agreement (xs : List Exchange) : Prop where
  framed : ∀ x ∈ xs, Framed x.reply
  rml : InStep (fun _ => rmlReceive) [] xs
  checked : InStep (fun x => checkedReceive x.op x.length) [] xs

theorem inStep_of_framed {lost : Exc} {check : Exchange → Header → EStateM Exc Conn Unit}
    {xs : List Exchange} (hf : ∀ x ∈ xs, Framed x.reply)
    (hc : ∀ x ∈ xs, ∀ op offset payload, op < 256 ^ 1 → offset < 256 ^ 8 →
      payload.length < 256 ^ 4 → x.reply = header op offset payload.length ++ payload →
      ∀ c, (check x ⟨magic, op, offset, payload.length⟩).run c = .ok () c) :
    InStep (fun x => receiveReply lost (check x)) [] xs := by
  induction xs with
  | nil => trivial
  | cons x xs ih =>
    obtain ⟨op, offset, payload, h1, h2, h3, he⟩ := hf x (List.mem_cons_self ..)
    obtain ⟨c, hr, hi⟩ := receiveReply_framed lost (c := { inbox := [] ++ x.reply, cuts := x.cuts })
      h1 h2 h3 he (hc x (List.mem_cons_self ..) op offset payload h1 h2 h3 he)
    refine ⟨_, c, hr, hi, ?_⟩
    rw [hi]
    exact ih (fun y hy => hf y (List.mem_cons_of_mem x hy))
      (fun y hy => hc y (List.mem_cons_of_mem x hy))

/-- The length a READ reply announces is the length asked for. -/
theorem read_length {x : Exchange} (h : x.Accepted) (hop : x.op = opRead) {op offset : Nat}
    {payload : Bytes} (he : x.reply = header op offset payload.length ++ payload) :
    payload.length = x.length := by
  obtain ⟨op', offset', rlen, payload', -, -, -, hlen, he'⟩ := Exchange.reply_eq h
  obtain ⟨-, rfl⟩ := List.append_inj (he.symm.trans he') (by simp)
  simp [ReplyLengths, hop, opRead, opWrite, opBlockWrite, opBlockRead] at hlen
  exact hlen.2

/-- **Framing agreement**, for every conversation of accepted requests. -/
theorem agreement_iff (xs : List Exchange) (hacc : ∀ x ∈ xs, x.Accepted) :
    Agreement xs ↔ ∀ x ∈ xs, ¬ x.Misframed := by
  have hiff : (∀ x ∈ xs, Framed x.reply) ↔ ∀ x ∈ xs, ¬ x.Misframed :=
    forall₂_congr fun x hx => Exchange.framed_reply_iff (hacc x hx)
  constructor
  · exact fun h => hiff.mp h.framed
  · intro h
    have hf := hiff.mpr h
    refine ⟨hf, inStep_of_framed hf ?_, inStep_of_framed hf ?_⟩
    · intro x _ op offset payload _ _ _ _ c
      simp [run_raiseIf]
    · intro x hx op offset payload _ _ _ he c
      by_cases hop : x.op = opRead
      · have hl := read_length (hacc x hx) hop he
        simp [run_raiseIf, hl]
      · simp [run_raiseIf, hop]

/-- A WRITE of one byte at offset 0 of a fresh provider. -/
def writeOne : Exchange where
  pool := RamPool.fresh
  sized := List.length_replicate
  now := 0
  op := opWrite
  offset := 0
  length := 1
  conn := { inbox := [7] }
  cuts := []

theorem writeOne_accepted : writeOne.Accepted := ⟨_, rfl⟩

/-- The acknowledgement of a one-byte WRITE announces a byte that is never sent. -/
theorem agreement_fails :
    ¬ ∀ xs : List Exchange, (∀ x ∈ xs, x.Accepted) → Agreement xs := by
  intro h
  have ha := h [writeOne] (by simpa using writeOne_accepted)
  have hf := ha.framed writeOne (List.mem_singleton.mpr rfl)
  rw [Exchange.framed_reply_iff writeOne_accepted] at hf
  exact hf ⟨Or.inl rfl, by decide⟩

/-- A BORROW, a READ whose reply arrives in pieces, a PING and an empty WRITE. -/
def framedFour : List Exchange :=
  [{ writeOne with op := opBorrow, length := 700, conn := { inbox := [] } },
    { writeOne with op := opRead, offset := 512, length := 3, conn := { inbox := [] }, cuts := [1, 20, 1, 1] },
    { writeOne with op := opPing, length := 0, conn := { inbox := [] } },
    { writeOne with length := 0, conn := { inbox := [] } }]

theorem framedFour_accepted : ∀ x ∈ framedFour, x.Accepted := by
  simp only [framedFour, List.forall_mem_cons]
  exact ⟨⟨_, rfl⟩, ⟨_, rfl⟩, ⟨_, rfl⟩, ⟨_, rfl⟩, by simp⟩

theorem agreement_iff_four : (Agreement framedFour ∧ ∀ x ∈ framedFour, ¬ x.Misframed) ∧
    ¬ Agreement (framedFour ++ [writeOne]) ∧ ∃ x ∈ framedFour ++ [writeOne], x.Misframed := by
  have hframed : ∀ x ∈ framedFour, ¬ x.Misframed := by
    simp [framedFour, Exchange.Misframed, writeOne, opBorrow, opRead, opPing, opWrite, opBlockRead,
      opBlockWrite]
  have hone : writeOne.Misframed := ⟨.inl rfl, by decide⟩
  have hmem : writeOne ∈ framedFour ++ [writeOne] := by simp
  have hacc : ∀ x ∈ framedFour ++ [writeOne], x.Accepted := by
    intro x hx
    rcases List.mem_append.mp hx with h | h
    · exact framedFour_accepted x h
    · rw [List.mem_singleton.mp h]
      exact writeOne_accepted
  refine ⟨⟨(agreement_iff framedFour framedFour_accepted).mpr hframed, hframed⟩, fun h => ?_,
    writeOne, hmem, hone⟩
  exact (agreement_iff (framedFour ++ [writeOne]) hacc).mp h writeOne hmem hone

end RAMLinkServer

end RamLink
