import RamLink.Api
import RamLink.Lib.Socket
import RamLink.Lib.Text
import RamLink.MemoryService

/-!
# RamLink.MemoryService.LocalApi

`LocalApi.handle` of `ramlink_memory_service.py`: one command a connection, read with a single
`recv`, over whatever memory the service has.
-/

namespace RamLink

open Lib

/-- What `LocalApi` uses of its `RemoteMemory`. -/
structure Memory (μ : Type) extends Api μ where
  /-- `status()["size_bytes"]`. -/
  sizeBytes : μ → Nat
  /-- The items of `status()`, each as its text `key=value`. -/
  status : μ → List Bytes

/-- The remote memory as a byte array. -/
structure RemoteArray where
  bytes : Bytes
  info : List Bytes
deriving DecidableEq, Repr

def Memory.array : Memory RemoteArray where
  read offset length := do
    let self ← get
    raiseIf (offset < 0 ∨ length < 0 ∨ self.bytes.length < offset + length)
      (.valueError "Read outside borrowed region")
    return slice self.bytes offset (offset + length)
  write offset data := do
    let self ← get
    raiseIf (offset < 0 ∨ self.bytes.length < offset + data.length)
      (.valueError "Write outside borrowed region")
    set { self with bytes := setSlice self.bytes offset (offset + data.length) data }
  sizeBytes self := self.bytes.length
  status self := self.info

namespace LocalApi

variable {μ : Type}

abbrev LocalM (μ : Type) := EStateM Exc (Conn × μ)

def maxTransfer : Int := 1024 * 1024

def sendall (data : Bytes) : LocalM μ Unit := onFst (Conn.sendall data)

/-- `recv_all(conn, length)`; a negative length asks for nothing. -/
def recvAll (length : Int) : LocalM μ Bytes :=
  onFst (Conn.recvAll (.connectionError "peer disconnected") (1024 * 1024) length.toNat)

def handleRead (memory : Memory μ) (parts : List Text) : LocalM μ Unit := do
  let offset ← fromExcept (int (parts.getD 1 []))
  let length ← fromExcept (int (parts.getD 2 []))
  raiseIf (maxTransfer < length) (.valueError "Local READ is limited to 1 MiB")
  let data ← onSnd (memory.read offset length)
  raiseIf (256 ^ 4 ≤ data.length) .structError
  sendall (toBE 4 data.length ++ data)

def handleWrite (memory : Memory μ) (parts : List Text) : LocalM μ Unit := do
  let offset ← fromExcept (int (parts.getD 1 []))
  let length ← fromExcept (int (parts.getD 2 []))
  raiseIf (maxTransfer < length) (.valueError "Local WRITE is limited to 1 MiB")
  let data ← recvAll length
  onSnd (memory.write offset data)
  sendall (ascii "OK\n")

/-- The command of a line that has been stripped. -/
def handleLine (memory : Memory μ) (line : Text) : LocalM μ Unit := do
  let s ← get
  if line = [] then return
  else
    let parts := split line
    let command := upper (parts.headD [])
    if command = "HELLO".toList ∨ command = "PING".toList then
      sendall (ascii "RAM-LINK LOCAL API 2\n")
    else if command = "SIZE".toList then
      sendall (encodeAscii (Nat.toDigits 10 (memory.sizeBytes s.2) ++ ['\n']))
    else if command = "STATUS".toList then
      sendall (((memory.status s.2).intersperse [10]).flatten ++ [10])
    else if command = "READ".toList ∧ parts.length = 3 then handleRead memory parts
    else if command = "WRITE".toList ∧ parts.length = 3 then handleWrite memory parts
    else sendall (ascii "ERROR invalid command\n")

def handle (memory : Memory μ) : LocalM μ Unit := do
  let data ← onFst (Conn.recv 4096)
  handleLine memory (strip (decode data))

/-- What is observed of a connection: what `handle` raised, what it sent, and the memory after it. -/
def observe : EStateM.Result Exc (Conn × μ) Unit → Option Exc × Bytes × μ
  | .ok _ t => (none, t.1.sent, t.2)
  | .error e t => (some e, t.1.sent, t.2)

/-- One connection on which `stream` arrives, cut into segments by `cuts`. -/
def served (memory : Memory μ) (stream : Bytes) (cuts : List Nat) (m : μ) : Option Exc × Bytes × μ :=
  observe ((handle memory).run ({ inbox := stream, cuts := cuts }, m))

end LocalApi

end RamLink
