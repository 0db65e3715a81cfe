import RamLink.Lib.Monitor
import RamLink.Borrower
import RamLink.MemoryService

/-!
# RamLink.MemoryService.Programs

The methods of `RemoteMemory` as programs, with the lock they take and the sockets they close.

`interp` runs a program alone. `interp_read` and its siblings: run alone, the programs are the
methods of `RamLink.MemoryService`.
-/

namespace RamLink

open Lib Lib.Monitor
open Borrower (Message Reply)

/-- Which of the two `rml_request` calls of `_request_with_reconnect` sends a request; the others
count as first. -/
inductive Attempt where
  | first
  | second
deriving DecidableEq, Repr

structure Sending where
  attempt : Attempt
  message : Message
deriving DecidableEq, Repr

abbrev ServiceProg := Prog RemoteMemory Exc Sending Reply

namespace Locked

def connect : ServiceProg Nat := Prog.connect Prog.done

/-- `sock.close()`, whose `OSError` no method lets out. -/
def close (sock : Nat) : ServiceProg Unit := Prog.close sock (.ret ())

def send (sock : Nat) (m : Sending) : ServiceProg Reply := Prog.request sock m Prog.done

/-- `rml_request(sock, op, offset, length, payload)`; `sock` may be `None`. -/
def rmlRequest (attempt : Attempt) (sock : Option Nat) (op : Nat) (offset length : Int) (payload : Bytes) :
    ServiceProg (Nat × Nat × Bytes) :=
  match sock with
  | none => throw (.attributeError "'NoneType' object has no attribute 'sendall'")
  | some sock => do
    Prog.raiseIf (offset < 0 ∨ 256 ^ 8 ≤ offset ∨ length < 0 ∨ 256 ^ 4 ≤ length) .structError
    let r ← send sock ⟨attempt, op, offset.toNat, length.toNat, payload⟩
    return (r.op, r.offset, r.body)

/-- `_borrow_new_socket`. -/
def borrowNewSocket : ServiceProg (Nat × Grant) := do
  let sock ← connect
  tryCatch
    (do
      let (_, _, body) ← rmlRequest .first (some sock) opBorrow 0 ((← Prog.self).megabytes * 1024 * 1024) []
      Prog.raiseIf (body.length ≠ leaseReplySize) (.valueError "Invalid BORROW reply")
      return (sock, Grant.ofReply body))
    fun e => do
      close sock
      throw e

def connectAndBorrow : ServiceProg Unit := do
  let (sock, g) ← borrowNewSocket
  Prog.withLock do
    let self ← Prog.self
    Prog.assign { self with sock := some sock, leaseId := g.leaseId, baseOffset := g.base,
                            length := g.length, lastError := none }

def markDisconnected (e : Exc) : ServiceProg Unit := do
  let self ← Prog.self
  Prog.assign { self with sock := none, leaseId := 0, baseOffset := 0, lastError := some e }
  match self.sock with
  | none => return
  | some old => close old

def reconnect : ServiceProg Unit := do
  let (sock, g) ← borrowNewSocket
  let self ← Prog.self
  Prog.assign { self with sock := some sock, leaseId := g.leaseId, baseOffset := g.base,
                          length := g.length, reconnects := self.reconnects + 1, lastError := none }

def requestWithReconnect (op : Nat) (offset length : Int) (payload : Bytes) :
    ServiceProg (Nat × Nat × Bytes) :=
  tryCatch (do rmlRequest .first (← Prog.self).sock op offset length payload) fun e => do
    markDisconnected e
    reconnect
    rmlRequest .second (← Prog.self).sock op offset length payload

def keepalive : ServiceProg Unit :=
  Prog.withLock do
    let self ← Prog.self
    if self.sock = none ∨ self.leaseId = 0 then return
    else
      tryCatch
        (do
          let _ ← rmlRequest .first self.sock opKeepalive self.leaseId 0 []
          let self ← Prog.self
          Prog.assign { self with lastError := none })
        fun e => do
          markDisconnected e
          throw e

/-- The body of `read`'s loop. -/
def readChunk (offset length : Int) (output : Bytes) (pos : Int) : ServiceProg Bytes := do
  let n := min RemoteMemory.maxTransfer (offset + length - pos)
  let (_, _, body) ← requestWithReconnect opRead ((← Prog.self).baseOffset + pos) n []
  Prog.raiseIf (body.length ≠ n) (.osError "Short remote read")
  return output ++ body

/-- The range is checked before the lock is taken. -/
def read (offset length : Int) : ServiceProg Bytes := do
  Prog.raiseIf (offset < 0 ∨ length < 0 ∨ (← Prog.self).length < offset + length)
    (.valueError "Read outside borrowed region")
  Prog.withLock
    ((range offset (offset + length) RemoteMemory.maxTransfer).foldlM (readChunk offset length) [])

def writeLoop (offset : Int) (data : Bytes) : Nat → Int → ServiceProg Unit
  | 0, _ => return
  | fuel + 1, pos =>
    if pos < data.length then do
      let n := min RemoteMemory.maxTransfer (data.length - pos)
      let _ ← requestWithReconnect opWrite ((← Prog.self).baseOffset + offset + pos) n
        (slice data pos (pos + n))
      writeLoop offset data fuel (pos + n)
    else return

def write (offset : Int) (data : Bytes) : ServiceProg Unit := do
  Prog.raiseIf (offset < 0 ∨ (← Prog.self).length < offset + data.length)
    (.valueError "Write outside borrowed region")
  Prog.withLock (writeLoop offset data data.length 0)

/-- RELEASE is sent after the lock is given back. -/
def release : ServiceProg Unit := do
  let self ← Prog.withLock do
    let self ← Prog.self
    Prog.assign { self with sock := none, leaseId := 0 }
    return self
  match self.sock with
  | none => return
  | some sock =>
    if self.leaseId ≠ 0 then do
      tryCatch (do let _ ← rmlRequest .first (some sock) opRelease self.leaseId 0 []) fun _ => return
      close sock
    else return

/-! ## A program alone -/

variable {α : Type}

/-- A request on the network of `RamLink.MemoryService`. -/
def netRequest (sock : Nat) (m : Sending) : EStateM Exc Net Reply := do
  let (op, offset, body) ←
    Net.request (some sock) m.message.op m.message.offset m.message.length m.message.payload
  return ⟨op, offset, body⟩

/-- Runs a program where no other thread is. -/
def interp (p : ServiceProg α) : ServiceM α := p.alone Net.connect netRequest

section Interp

variable {β : Type}

@[simp] theorem interp_bind (p : ServiceProg α) (f : α → ServiceProg β) :
    interp (p >>= f) = interp p >>= fun a => interp (f a) := Prog.alone_bind p f

@[simp] theorem interp_tryCatch (p : ServiceProg α) (h : Exc → ServiceProg α) :
    interp (tryCatch p h) = tryCatch (interp p) fun e => interp (h e) := Prog.alone_tryCatch p h

@[simp] theorem interp_withLock (p : ServiceProg α) : interp (Prog.withLock p) = interp p :=
  Prog.alone_withLock p

@[simp] theorem interp_pure (a : α) : interp (pure a) = pure a := rfl

@[simp] theorem interp_throw (e : Exc) : interp (throw e : ServiceProg α) = throw e := rfl

@[simp] theorem interp_self : interp Prog.self = do return (← get).1 := rfl

@[simp] theorem interp_assign (r : RemoteMemory) : interp (Prog.assign r) = onFst (set r) := rfl

@[simp] theorem interp_close (sock : Nat) : interp (close sock) = pure () := rfl

@[simp] theorem interp_raiseIf (c : Prop) [Decidable c] (e : Exc) :
    interp (Prog.raiseIf c e) = raiseIf c e := Prog.alone_raiseIf c e

@[simp] theorem interp_connect : interp connect = onSnd Net.connect := Prog.alone_connect

theorem interp_send (sock : Nat) (m : Sending) : interp (send sock m) = onSnd (netRequest sock m) :=
  Prog.alone_request sock m

end Interp

/-- Past the check that the header can be packed, the numbers on the wire are those of the call. -/
@[simp] theorem interp_rmlRequest (attempt : Attempt) (sock : Option Nat) (op : Nat) (offset length : Int)
    (payload : Bytes) :
    interp (rmlRequest attempt sock op offset length payload) =
      onSnd (Net.request sock op offset length payload) := by
  funext s
  cases sock with
  | none => rfl
  | some sock =>
    simp only [rmlRequest, interp_bind, interp_raiseIf]
    by_cases hc : offset < 0 ∨ 256 ^ 8 ≤ offset ∨ length < 0 ∨ 256 ^ 4 ≤ length
    · simp only [Net.request, raiseIf, if_pos hc]
      rfl
    · have ho : (offset.toNat : Int) = offset := Int.toNat_of_nonneg (by omega)
      have hl : (length.toNat : Int) = length := Int.toNat_of_nonneg (by omega)
      simp only [raiseIf, if_neg hc, pure_bind, interp_pure, interp_send]
      show EStateM.bind (onSnd (EStateM.bind _ _)) _ s = _
      simp only [EStateM.bind, onSnd, ho, hl]
      cases Net.request (some sock) op offset length payload s.2 <;> rfl

/-! ## The programs alone are the methods -/

theorem interp_borrowNewSocket : interp borrowNewSocket = RemoteMemory.borrowNewSocket := by
  have hthrow : ∀ m : ServiceM (Nat × Grant), (tryCatch m fun e => throw e) = m := by
    intro m
    funext s
    show EStateM.tryCatch m _ s = m s
    unfold EStateM.tryCatch
    cases m s <;> rfl
  unfold borrowNewSocket RemoteMemory.borrowNewSocket
  simp only [interp_bind, interp_connect, interp_tryCatch, interp_self, interp_rmlRequest, interp_raiseIf,
    interp_pure, interp_close, interp_throw, bind_assoc, pure_bind, hthrow]

theorem interp_connectAndBorrow : interp connectAndBorrow = RemoteMemory.connectAndBorrow := by
  unfold connectAndBorrow RemoteMemory.connectAndBorrow
  simp only [interp_bind, interp_borrowNewSocket, interp_withLock, interp_self, interp_assign]
  rfl

theorem interp_markDisconnected (e : Exc) : interp (markDisconnected e) = RemoteMemory.markDisconnected e := by
  funext s
  obtain ⟨⟨megabytes, sock, leaseId, baseOffset, length, lastError, reconnects⟩, net⟩ := s
  cases sock <;> rfl

theorem interp_reconnect : interp reconnect = RemoteMemory.reconnect := by
  unfold reconnect RemoteMemory.reconnect
  simp only [interp_bind, interp_borrowNewSocket, interp_self, interp_assign]
  rfl

theorem interp_requestWithReconnect (op : Nat) (offset length : Int) (payload : Bytes) :
    interp (requestWithReconnect op offset length payload) =
      RemoteMemory.requestWithReconnect op offset length payload := by
  unfold requestWithReconnect RemoteMemory.requestWithReconnect RemoteMemory.request
  simp only [interp_tryCatch, interp_bind, interp_self, interp_rmlRequest, interp_markDisconnected,
    interp_reconnect, bind_assoc, pure_bind]

theorem interp_readChunk (offset length : Int) (output : Bytes) (pos : Int) :
    interp (readChunk offset length output pos) = RemoteMemory.readChunk offset length output pos := by
  unfold readChunk RemoteMemory.readChunk
  simp only [interp_bind, interp_self, interp_requestWithReconnect, interp_raiseIf, interp_pure, bind_assoc,
    pure_bind]

theorem interp_read (offset length : Int) : interp (read offset length) = RemoteMemory.read offset length := by
  have hloop : ∀ (ps : List Int) (output : Bytes), interp (ps.foldlM (readChunk offset length) output) =
      ps.foldlM (RemoteMemory.readChunk offset length) output := by
    intro ps
    induction ps with
    | nil => intro output; rfl
    | cons p ps ih =>
      intro output
      simp only [List.foldlM_cons, interp_bind, interp_readChunk, ih]
  unfold read RemoteMemory.read
  simp only [interp_bind, interp_self, interp_raiseIf, interp_withLock, hloop, bind_assoc, pure_bind]

theorem interp_writeLoop (offset : Int) (data : Bytes) (fuel : Nat) (pos : Int) :
    interp (writeLoop offset data fuel pos) = RemoteMemory.writeLoop offset data fuel pos := by
  induction fuel generalizing pos with
  | zero => rfl
  | succ fuel ih =>
    unfold writeLoop RemoteMemory.writeLoop
    split
    · simp only [interp_bind, interp_self, interp_requestWithReconnect, ih, bind_assoc, pure_bind]
    · rfl

theorem interp_write (offset : Int) (data : Bytes) : interp (write offset data) = RemoteMemory.write offset data := by
  unfold write RemoteMemory.write
  simp only [interp_bind, interp_self, interp_raiseIf, interp_withLock, interp_writeLoop, bind_assoc,
    pure_bind]

theorem interp_keepalive : interp keepalive = RemoteMemory.keepalive := by
  funext s
  unfold keepalive RemoteMemory.keepalive RemoteMemory.request
  simp only [interp_withLock, interp_bind, interp_self, bind_assoc, pure_bind, apply_ite interp,
    interp_pure, interp_tryCatch, interp_rmlRequest, interp_assign, interp_markDisconnected, interp_throw]
  have hget : ∀ f : RemoteMemory × Net → ServiceM Unit, (get >>= f) s = f s s := fun _ => rfl
  rw [hget, hget]
  split <;> rfl

theorem interp_release : interp release = RemoteMemory.release := by
  funext s
  obtain ⟨⟨megabytes, sock, leaseId, baseOffset, length, lastError, reconnects⟩, net⟩ := s
  unfold release RemoteMemory.release
  simp only [interp_bind, interp_withLock, interp_self, interp_assign, interp_pure, bind_assoc, pure_bind]
  have hget : ∀ f : RemoteMemory × Net → ServiceM Unit, ∀ s, (get >>= f) s = f s s := fun _ _ => rfl
  rw [hget, hget]
  cases sock with
  | none => rfl
  | some sock =>
    by_cases hl : leaseId = 0
    · subst hl
      rfl
    · have hc : some sock ≠ none ∧ leaseId ≠ 0 := ⟨by simp, hl⟩
      simp only [ne_eq, hl, not_false_eq_true, if_true, hc, and_self, interp_bind, interp_tryCatch,
        interp_rmlRequest, interp_pure, interp_close, bind_pure_unit]
      rfl

end Locked

end RamLink
