import RamLink.Lib.Segmentation
import RamLink.Server

/-!
# RamLink.Server.Connection

`RAMLinkServer.client`, the loop that serves one connection: a header, its checks, the handler, and
the end of the connection with the first exception.

`clientLoop` also lists the requests it has handled, each with its header, the payload bytes its
handler took from the connection, and whether it was accepted.

* `client_parses`: requests, payloads, replies and the state left behind depend on the bytes sent
  only, not on how they arrive; the requests lie in the stream one after another; and after a
  request that is rejected, cut off or has a bad magic, nothing more of the stream is parsed.
-/

namespace RamLink

open Lib

namespace RAMLinkServer

structure Handled where
  header : Bytes
  payload : Bytes
  accepted : Bool
deriving DecidableEq, Repr

/-- A served connection, with the exception that ended it. -/
structure Session where
  handled : List Handled
  pool : RamPool
  conn : Conn
  ended : Exc

/-- A session without the cuts that are left. -/
def Session.uncut (r : Session) : Session := { r with conn := r.conn.uncut }

/-- What a handler took from the connection. -/
def taken (c c' : Conn) : Bytes := c.inbox.take (c.inbox.length - c'.inbox.length)

/-- `while True:`. -/
def clientLoop (now : Time) : Nat → RamPool × Conn → Session
  | 0, s => ⟨[], s.1, s.2, .outOfFuel⟩
  | fuel + 1, s =>
    match (recvAll headerSize).run s with
    | .error e t => ⟨[], t.1, t.2, e⟩
    | .ok b t =>
      let h := unpackHeader b
      if h.magic ≠ magic then ⟨[], t.1, t.2, .valueError "Invalid protocol magic"⟩
      else match (handle now h.op h.offset h.length).run t with
        | .error e u => ⟨[⟨b, taken t.2 u.2, false⟩], u.1, u.2, e⟩
        | .ok _ u =>
          let r := clientLoop now fuel u
          { r with handled := ⟨b, taken t.2 u.2, true⟩ :: r.handled }

/-- `client(conn, address)`; every pass takes a header, so the fuel is enough. -/
def client (now : Time) (s : RamPool) (c : Conn) : Session := clientLoop now (c.inbox.length + 1) (s, c)

/-- How the requests lie in a stream, and what of it is left unread. -/
inductive Parsed : Bytes → List Handled → Bytes → Prop where
  /-- Too few bytes for a header: they are taken, and the connection ends. -/
  | short {stream : Bytes} (h : stream.length < headerSize) : Parsed stream [] []
  /-- A header with a bad magic is taken, and the connection ends. -/
  | badMagic {stream b rest : Bytes} (hs : stream = b ++ rest) (hb : b.length = headerSize)
    (hm : (unpackHeader b).magic ≠ magic) : Parsed stream [] rest
  /-- The handler raised: what it has not taken stays unread. -/
  | rejected {stream b payload rest : Bytes} (hs : stream = b ++ (payload ++ rest))
    (hb : b.length = headerSize) (hm : (unpackHeader b).magic = magic) :
    Parsed stream [⟨b, payload, false⟩] rest
  | accepted {stream b payload rest unread : Bytes} {more : List Handled}
    (hs : stream = b ++ (payload ++ rest)) (hb : b.length = headerSize)
    (hm : (unpackHeader b).magic = magic) (h : Parsed rest more unread) :
    Parsed stream (⟨b, payload, true⟩ :: more) unread

/-! ## The handler takes its bytes in order -/

theorem orderly_recvAll (n : Nat) : Orderly (recvAll n) :=
  .recvAll (.connectionError "peer disconnected") (by decide) n

theorem orderly_sendHeader (op offset length : Nat) : Orderly (sendHeader op offset length) :=
  (Orderly.fromExcept _).bind Orderly.sendall

theorem orderly_sendReply (op offset length : Nat) (payload : Bytes) :
    Orderly (do sendHeader op offset length; sendall payload) :=
  (orderly_sendHeader op offset length).bind fun _ => Orderly.sendall payload

theorem orderly_receiveAndStore (op offset length a n : Nat) :
    Orderly (receiveAndStore op offset length a n) :=
  (orderly_recvAll n).bind fun _ => (Orderly.onFst _).bind fun _ => orderly_sendHeader op offset length

theorem orderly_loadAndSend (op offset length a n : Nat) : Orderly (loadAndSend op offset length a n) :=
  Orderly.get (fun p => orderly_sendReply op offset length (p.1.load a n)) fun _ _ => rfl

theorem orderly_lookup (now : Time) (op offset : Nat) (f : RamPool → RamPool) :
    Orderly (do let _ ← onFst (getLease now offset)
                onFst (modify f)
                sendHeader op offset 0) :=
  (Orderly.onFst _).bind fun _ => (Orderly.onFst _).bind fun _ => orderly_sendHeader op offset 0

theorem orderly_borrow (now : Time) (requested : Nat) : Orderly (borrow now requested) := by
  refine (Orderly.onFst _).bind fun _ => Orderly.get (fun p => ?_) fun _ _ => rfl
  refine (Orderly.raiseIf _ _).bind fun _ => ?_
  cases findFreeRegion now (RamPool.roundUp requested) p.1 with
  | none => exact Orderly.throw _
  | some a =>
    refine (Orderly.onFst _).bind fun i => (Orderly.onFst _).bind fun _ => ?_
    exact (Orderly.fromExcept _).bind fun payload => orderly_sendReply opBorrow i payload.length payload

theorem orderly_info (now : Time) : Orderly (info now) :=
  (Orderly.onFst _).bind fun _ =>
    Orderly.get (fun p => orderly_sendReply opInfo 0 _ (ascii (infoText p.1 p.1.leases.size)))
      fun _ _ => rfl

theorem orderly_handle (now : Time) (op offset length : Nat) : Orderly (handle now op offset length) := by
  induction op using op_cases with
  | info => exact orderly_info now
  | ping => exact orderly_sendReply opPing 0 4 _
  | borrow => exact orderly_borrow now length
  | release => exact orderly_lookup now opRelease offset _
  | keepalive => exact orderly_lookup now opKeepalive offset _
  | read =>
    refine Orderly.get (fun p => (Orderly.raiseIf _ _).bind fun _ => ?_) fun _ _ => rfl
    exact orderly_loadAndSend opRead offset length offset length
  | write =>
    refine Orderly.get (fun p => (Orderly.raiseIf _ _).bind fun _ => ?_) fun _ _ => rfl
    exact orderly_receiveAndStore opWrite offset length offset length
  | blockInfo => exact Orderly.get (fun _ => orderly_sendReply opBlockInfo 0 _ _) fun _ _ => rfl
  | blockRead =>
    refine Orderly.get (fun p => (Orderly.raiseIf _ _).bind fun _ => ?_) fun _ _ => rfl
    exact (Orderly.raiseIf _ _).bind fun _ => orderly_loadAndSend opBlockRead offset length _ _
  | blockWrite =>
    refine Orderly.get (fun p => (Orderly.raiseIf _ _).bind fun _ => ?_) fun _ _ => rfl
    exact (Orderly.raiseIf _ _).bind fun _ => orderly_receiveAndStore opBlockWrite offset length _ _
  | unknown op h =>
    rw [handle_unknown _ _ _ h]
    exact Orderly.throw _

/-! ## The loop -/

theorem taken_congr {c c' d d' : Conn} (h : c.uncut = d.uncut) (h' : c'.uncut = d'.uncut) :
    taken c c' = taken d d' := by
  have hi : c.inbox = d.inbox := by rw [← Conn.uncut_inbox c, h, Conn.uncut_inbox]
  have hi' : c'.inbox = d'.inbox := by rw [← Conn.uncut_inbox c', h', Conn.uncut_inbox]
  unfold taken
  rw [hi, hi']

theorem taken_append {c c' : Conn} {k : Nat} (h : c'.inbox = c.inbox.drop k) :
    taken c c' ++ c'.inbox = c.inbox := by
  unfold taken
  rw [h, List.length_drop]
  by_cases hk : k ≤ c.inbox.length
  · rw [Nat.sub_sub_self hk, List.take_append_drop]
  · have hnil : c.inbox.drop k = [] := List.drop_eq_nil_of_le (by omega)
    have hall : c.inbox.length - (c.inbox.length - k) = c.inbox.length := by omega
    rw [hnil, hall, List.take_length, List.append_nil]

/-- The handler takes a part of what is left, from the front. -/
theorem handle_taken {now : Time} {op offset length : Nat} {t u : RamPool × Conn}
    (h : finalState (handle now op offset length) t = u) :
    taken t.2 u.2 ++ u.2.inbox = t.2.inbox := by
  obtain ⟨k, hk⟩ := (orderly_handle now op offset length).takes t
  rw [h] at hk
  exact taken_append hk

/-- One pass: a header and a request, the same however the stream is cut. -/
theorem clientLoop_uncut (now : Time) : ∀ (fuel : Nat) (s : RamPool) {c d : Conn}, c.uncut = d.uncut →
    (clientLoop now fuel (s, c)).uncut = (clientLoop now fuel (s, d)).uncut := by
  intro fuel
  induction fuel with
  | zero =>
    intro s c d h
    simp only [clientLoop, Session.uncut, h]
  | succ fuel ih =>
    intro s c d h
    unfold clientLoop
    cases hb : (recvAll headerSize).run (s, c) with
    | error e t =>
      obtain ⟨t, c'⟩ := t
      obtain ⟨d', hd, hu⟩ := (orderly_recvAll headerSize).error h hb
      rw [hd]
      simp only [Session.uncut, hu]
    | ok b t =>
      obtain ⟨t, c'⟩ := t
      obtain ⟨d', hd, hu⟩ := (orderly_recvAll headerSize).ok h hb
      rw [hd]
      simp only
      by_cases hm : (unpackHeader b).magic ≠ magic
      · rw [if_pos hm, if_pos hm]
        simp only [Session.uncut, hu]
      rw [if_neg hm, if_neg hm]
      have ho := orderly_handle now (unpackHeader b).op (unpackHeader b).offset (unpackHeader b).length
      cases hh : (handle now (unpackHeader b).op (unpackHeader b).offset
          (unpackHeader b).length).run (t, c') with
      | error e u =>
        obtain ⟨u, c''⟩ := u
        obtain ⟨d'', hd', hu'⟩ := ho.error hu hh
        rw [hd']
        simp only [Session.uncut, hu', taken_congr hu hu']
      | ok x u =>
        obtain ⟨u, c''⟩ := u
        obtain ⟨d'', hd', hu'⟩ := ho.ok hu hh
        rw [hd']
        have hi := ih u hu'
        simp only [Session.uncut, Session.mk.injEq] at hi ⊢
        exact ⟨by rw [hi.1, taken_congr hu hu'], hi.2⟩

/-- A pass on a stream that is too short for a header. -/
theorem clientLoop_short (now : Time) (fuel : Nat) (s : RamPool) {c : Conn}
    (h : c.inbox.length < headerSize) :
    ∃ cuts, clientLoop now (fuel + 1) (s, c) =
      ⟨[], s, { c with inbox := [], cuts := cuts }, .connectionError "peer disconnected"⟩ := by
  obtain ⟨cuts, hr⟩ := Conn.recvAll_short (.connectionError "peer disconnected")
    (by decide : 0 < maxBlock) h
  refine ⟨cuts, ?_⟩
  simp only [clientLoop, recvAll, run_onSnd, hr]

/-- The passes from the request that starts with the header `b`. -/
def fromHeader (now : Time) (fuel : Nat) (b : Bytes) (t : RamPool × Conn) : Session :=
  let h := unpackHeader b
  if h.magic ≠ magic then ⟨[], t.1, t.2, .valueError "Invalid protocol magic"⟩
  else match (handle now h.op h.offset h.length).run t with
    | .error e u => ⟨[⟨b, taken t.2 u.2, false⟩], u.1, u.2, e⟩
    | .ok _ u =>
      let r := clientLoop now fuel u
      { r with handled := ⟨b, taken t.2 u.2, true⟩ :: r.handled }

theorem clientLoop_header (now : Time) (fuel : Nat) (s : RamPool) {c : Conn}
    (h : headerSize ≤ c.inbox.length) :
    ∃ cuts, clientLoop now (fuel + 1) (s, c) = fromHeader now fuel (c.inbox.take headerSize)
      (s, { c with inbox := c.inbox.drop headerSize, cuts := cuts }) := by
  obtain ⟨cuts, hr⟩ := Conn.recvAll_ok (.connectionError "peer disconnected")
    (by decide : 0 < maxBlock) h
  refine ⟨cuts, ?_⟩
  simp only [clientLoop, recvAll, run_onSnd, hr]
  rfl

/-- Every pass that goes on has taken a header, so the stream ends before the fuel does. -/
theorem clientLoop_parsed (now : Time) : ∀ (fuel : Nat) (s : RamPool) (c : Conn),
    c.inbox.length < fuel →
    Parsed c.inbox (clientLoop now fuel (s, c)).handled (clientLoop now fuel (s, c)).conn.inbox := by
  intro fuel
  induction fuel with
  | zero =>
    intro s c h
    omega
  | succ fuel ih =>
    intro s c h
    by_cases hn : headerSize ≤ c.inbox.length
    · obtain ⟨cuts, hr⟩ := clientLoop_header now fuel s hn
      have hb : (c.inbox.take headerSize).length = headerSize := List.length_take_of_le hn
      have hsplit : c.inbox.take headerSize ++ c.inbox.drop headerSize = c.inbox :=
        List.take_append_drop headerSize c.inbox
      have hlen : (c.inbox.drop headerSize).length < fuel := by
        have hpos : 0 < headerSize := by decide
        rw [List.length_drop]
        omega
      rw [hr]
      unfold fromHeader
      by_cases hm : (unpackHeader (c.inbox.take headerSize)).magic ≠ magic
      · simp only [if_pos hm]
        exact .badMagic hsplit.symm hb hm
      simp only [if_neg hm]
      have hm' := Decidable.not_not.mp hm
      cases hh : (handle now (unpackHeader (c.inbox.take headerSize)).op
          (unpackHeader (c.inbox.take headerSize)).offset
          (unpackHeader (c.inbox.take headerSize)).length).run
            (s, { c with inbox := c.inbox.drop headerSize, cuts := cuts }) with
      | error e u =>
        have ht := handle_taken (u := u) (by unfold finalState; rw [hh])
        exact .rejected (by rw [ht, hsplit]) hb hm'
      | ok x u =>
        have ht := handle_taken (u := u) (by unfold finalState; rw [hh])
        have hu : u.2.inbox.length < fuel := by
          have hle := congrArg List.length ht
          rw [List.length_append] at hle
          simp only at hle
          omega
        exact .accepted (by rw [ht, hsplit]) hb hm' (ih u.1 u.2 hu)
    · obtain ⟨cuts, hr⟩ := clientLoop_short now fuel s (Nat.lt_of_not_le hn)
      rw [hr]
      exact .short (Nat.lt_of_not_le hn)

/-- **Parsing depends on the bytes only**: however they arrive, the same requests are handled with
the same payloads, the same bytes are sent and the same state is left behind; the requests lie in the
stream one after another, up to the first one that is rejected, cut off or has a bad magic; and
`recv_all` takes exactly the bytes it was asked for, or raises. -/
theorem client_parses (now : Time) (s : RamPool) (c : Conn) :
    (client now s c).uncut = (client now s c.uncut).uncut ∧
    Parsed c.inbox (client now s c).handled (client now s c).conn.inbox ∧
    ∀ size, ∃ cuts, (recvAll size).run (s, c) =
      if size ≤ c.inbox.length then
        .ok (c.inbox.take size) (s, { c with inbox := c.inbox.drop size, cuts := cuts })
      else .error (.connectionError "peer disconnected") (s, { c with inbox := [], cuts := cuts }) := by
  refine ⟨clientLoop_uncut now (c.inbox.length + 1) s rfl,
    clientLoop_parsed now (c.inbox.length + 1) s c (Nat.lt_succ_self _), fun size => ?_⟩
  unfold recvAll
  rw [run_onSnd]
  by_cases hn : size ≤ c.inbox.length
  · obtain ⟨cuts, hr⟩ := Conn.recvAll_ok (.connectionError "peer disconnected")
      (by decide : 0 < maxBlock) hn
    exact ⟨cuts, by rw [hr, if_pos hn]⟩
  · obtain ⟨cuts, hr⟩ := Conn.recvAll_short (.connectionError "peer disconnected")
      (by decide : 0 < maxBlock) (Nat.lt_of_not_le hn)
    exact ⟨cuts, by rw [hr, if_neg hn]⟩

end RAMLinkServer

end RamLink
