import RamLink.Lib.Run
import RamLink.Wire

/-!
# RamLink.MemoryService

`RemoteMemory` of `ramlink_memory_service.py`, over a network that may fail at any point.

`Net` says what each connection attempt and each `rml_request` will do, in order, and keeps what a
request put on the wire and what lease each socket was granted. A closed socket is not modelled: no
method keeps one.
-/

namespace RamLink

open Lib

/-- The lease of a BORROW reply. -/
structure Grant where
  leaseId : Nat
  base : Nat
  length : Nat
deriving DecidableEq, Repr

def Grant.ofReply (body : Bytes) : Grant :=
  let (leaseId, base, length) := unpackLeaseReply body
  ⟨leaseId, base, length⟩

/-- What one `rml_request` does. -/
inductive Outcome where
  | answered (op offset : Nat) (body : Bytes)
  /-- It raised, before or after its request was on the wire. -/
  | raised (e : Exc) (transmitted : Bool)
deriving DecidableEq, Repr

structure Sent where
  sock : Nat
  op : Nat
  offset : Int
  length : Int
  payload : Bytes
deriving DecidableEq, Repr

structure Net where
  /-- What the next connection attempts raise; past the end of the list they succeed. -/
  connects : List (Option Exc)
  /-- What the next requests do; past the end of the list the peer has disconnected. -/
  outcomes : List Outcome
  opened : Nat
  sent : List Sent
  leases : Nat → Option Grant

namespace Net

/-- `socket.socket()` and `connect`. -/
def connect : EStateM Exc Net Nat := do
  let self ← get
  match self.connects.head? with
  | some (some e) => do
    set { self with connects := self.connects.tail }
    throw e
  | _ => do
    set { self with connects := self.connects.tail, opened := self.opened + 1 }
    return self.opened

/-- The lease that a request with this answer grants. -/
def granted (self : Net) (sock op : Nat) (body : Bytes) : Nat → Option Grant :=
  if op = opBorrow ∧ body.length = leaseReplySize then
    fun s => if s = sock then some (Grant.ofReply body) else self.leases s
  else self.leases

/-- `rml_request(sock, op, offset, length, payload)`; `sock` may be `None`. -/
def request (sock : Option Nat) (op : Nat) (offset length : Int) (payload : Bytes) :
    EStateM Exc Net (Nat × Nat × Bytes) :=
  match sock with
  | none => throw (.attributeError "'NoneType' object has no attribute 'sendall'")
  | some sock => do
    raiseIf (offset < 0 ∨ 256 ^ 8 ≤ offset ∨ length < 0 ∨ 256 ^ 4 ≤ length) .structError
    let self ← get
    let sent := ⟨sock, op, offset, length, payload⟩ :: self.sent
    match self.outcomes.headD (.raised (.connectionError "peer disconnected") true) with
    | .answered rop roff body => do
      set { self with outcomes := self.outcomes.tail, sent := sent, leases := self.granted sock op body }
      return (rop, roff, body)
    | .raised e transmitted => do
      set { self with outcomes := self.outcomes.tail, sent := if transmitted then sent else self.sent }
      throw e

end Net

structure RemoteMemory where
  megabytes : Int
  sock : Option Nat
  leaseId : Nat
  baseOffset : Nat
  length : Nat
  lastError : Option Exc
  reconnects : Nat

abbrev ServiceM := EStateM Exc (RemoteMemory × Net)

namespace RemoteMemory

def maxTransfer : Int := 1024 * 1024

/-- `RemoteMemory(host, port, megabytes, keepalive_seconds)`. -/
def init (megabytes : Int) : RemoteMemory := ⟨megabytes, none, 0, 0, 0, none, 0⟩

def request (op : Nat) (offset length : Int) (payload : Bytes) : ServiceM (Nat × Nat × Bytes) := do
  onSnd (Net.request (← get).1.sock op offset length payload)

def borrowNewSocket : ServiceM (Nat × Grant) := do
  let sock ← onSnd Net.connect
  let (_, _, body) ← onSnd (Net.request (some sock) opBorrow 0 ((← get).1.megabytes * 1024 * 1024) [])
  raiseIf (body.length ≠ leaseReplySize) (.valueError "Invalid BORROW reply")
  return (sock, Grant.ofReply body)

def connectAndBorrow : ServiceM Unit := do
  let (sock, g) ← borrowNewSocket
  onFst (modify fun self =>
    { self with sock := some sock, leaseId := g.leaseId, baseOffset := g.base, length := g.length,
                lastError := none })

/-- `length` keeps its value. -/
def markDisconnected (e : Exc) : ServiceM Unit :=
  onFst (modify fun self =>
    { self with sock := none, leaseId := 0, baseOffset := 0, lastError := some e })

def reconnect : ServiceM Unit := do
  let (sock, g) ← borrowNewSocket
  onFst (modify fun self =>
    { self with sock := some sock, leaseId := g.leaseId, baseOffset := g.base, length := g.length,
                reconnects := self.reconnects + 1, lastError := none })

/-- The retry sends the same `offset`. -/
def requestWithReconnect (op : Nat) (offset length : Int) (payload : Bytes) :
    ServiceM (Nat × Nat × Bytes) :=
  tryCatch (request op offset length payload) fun e => do
    markDisconnected e
    reconnect
    request op offset length payload

def keepalive : ServiceM Unit := do
  let self := (← get).1
  if self.sock = none ∨ self.leaseId = 0 then return
  else
    tryCatch
      (do
        let _ ← request opKeepalive self.leaseId 0 []
        onFst (modify fun self => { self with lastError := none }))
      fun e => do
        markDisconnected e
        throw e

/-- The body of `read`'s loop. -/
def readChunk (offset length : Int) (output : Bytes) (pos : Int) : ServiceM Bytes := do
  let n := min maxTransfer (offset + length - pos)
  let (_, _, body) ← requestWithReconnect opRead ((← get).1.baseOffset + pos) n []
  raiseIf (body.length ≠ n) (.osError "Short remote read")
  return output ++ body

def read (offset length : Int) : ServiceM Bytes := do
  raiseIf (offset < 0 ∨ length < 0 ∨ (← get).1.length < offset + length)
    (.valueError "Read outside borrowed region")
  (range offset (offset + length) maxTransfer).foldlM (readChunk offset length) []

/-- `while pos < len(data):`; a pass takes at least one byte, so `len(data)` passes are enough. -/
def writeLoop (offset : Int) (data : Bytes) : Nat → Int → ServiceM Unit
  | 0, _ => return
  | fuel + 1, pos =>
    if pos < data.length then do
      let n := min maxTransfer (data.length - pos)
      let _ ← requestWithReconnect opWrite ((← get).1.baseOffset + offset + pos) n
        (slice data pos (pos + n))
      writeLoop offset data fuel (pos + n)
    else return

def write (offset : Int) (data : Bytes) : ServiceM Unit := do
  raiseIf (offset < 0 ∨ (← get).1.length < offset + data.length)
    (.valueError "Write outside borrowed region")
  writeLoop offset data data.length 0

def release : ServiceM Unit := do
  let self := (← get).1
  onFst (modify fun self => { self with sock := none, leaseId := 0 })
  if self.sock ≠ none ∧ self.leaseId ≠ 0 then
    tryCatch
      (do
        let _ ← onSnd (Net.request self.sock opRelease self.leaseId 0 []))
      fun _ => return

/-! ## Calls -/

inductive Call where
  | connectAndBorrow
  | keepalive
  | read (offset length : Int)
  | write (offset : Int) (data : Bytes)
  | release

def Call.body : Call → ServiceM Unit
  | .connectAndBorrow => RemoteMemory.connectAndBorrow
  | .keepalive => RemoteMemory.keepalive
  | .read offset length => discard (RemoteMemory.read offset length)
  | .write offset data => RemoteMemory.write offset data
  | .release => RemoteMemory.release

/-- A call, which may raise, as a step of the client: every call is enabled in every state. -/
def step (s : RemoteMemory × Net) (call : Call) : Option (RemoteMemory × Net) :=
  some (finalState call.body s)

end RemoteMemory

end RamLink
