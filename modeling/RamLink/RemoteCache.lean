import RamLink.Api
import RamLink.Lib.Dict

/-!
# RamLink.RemoteCache

`RemoteCache` of `remote_cache.py`: the write-through page cache of the Android client.

The lease it addresses is the state behind an `Api`; `init` is the constructor after the lease has
been granted. Each `while` loop takes fuel: `outOfFuel` is a loop that has not ended.
-/

namespace RamLink

open Lib

structure RemoteCache where
  base : Int
  remoteSize : Int
  capacity : Int
  pages : Dict Int Bytes
  hits : Nat
  misses : Nat

abbrev RemoteM (σ : Type) := EStateM Exc (RemoteCache × σ)

namespace RemoteCache

variable {σ : Type}

/-- `PAGE`. -/
def page : Int := 64 * 1024

def maxBlock : Int := 1024 * 1024

def init (base remoteSize cacheMb : Int) : RemoteCache :=
  ⟨base, remoteSize, max 1 (cacheMb * 1024 * 1024 / page), .empty, 0, 0⟩

/-- `range(0, length, MAX_BLOCK)`. -/
def blocks (length : Int) : List Int := range 0 length maxBlock

def remoteRead (api : Api σ) (absoluteOffset length : Int) : RemoteM σ Bytes := do
  let base := (← get).1.base
  (blocks length).foldlM (fun out pos => do
    let n := min maxBlock (length - pos)
    return out ++ (← onSnd (api.read (base + absoluteOffset + pos) n))) []

def remoteWrite (api : Api σ) (absoluteOffset : Int) (data : Bytes) : RemoteM σ Unit := do
  let base := (← get).1.base
  forM (blocks data.length) fun pos =>
    onSnd (api.write (base + absoluteOffset + pos) (slice data pos (pos + maxBlock)))

/-- `self.pages[page_no]`. -/
def lookup (pageNo : Int) : RemoteM σ Bytes := do
  match (← get).1.pages.get? pageNo with
  | none => throw .keyError
  | some data => return data

def moveToEnd (pageNo : Int) : RemoteM σ Unit := do
  match (← get).1.pages.moveToEnd pageNo with
  | none => throw .keyError
  | some pages => onFst (modify fun self => { self with pages := pages })

/-- `while len(self.pages) > self.capacity:`. -/
def evictLoop (fuel : Nat) : RemoteM σ Unit := do
  let self := (← get).1
  if self.pages.size ≤ self.capacity then return
  else match fuel with
    | 0 => throw .outOfFuel
    | fuel + 1 =>
      match self.pages.popFirst with
      | none => throw .keyError
      | some (_, rest) => do
        onFst (modify fun self => { self with pages := rest })
        evictLoop fuel

def loadPage (api : Api σ) (pageNo : Int) : RemoteM σ Unit := do
  let data ← remoteRead api (pageNo * page) page
  onFst (modify fun self => { self with pages := self.pages.set pageNo data })
  moveToEnd pageNo
  evictLoop (← get).1.pages.size

/-- The page a read takes its bytes from. -/
def readPage (api : Api σ) (pageNo : Int) : RemoteM σ Bytes := do
  match (← get).1.pages.get? pageNo with
  | some data => do
    onFst (modify fun self => { self with hits := self.hits + 1 })
    moveToEnd pageNo
    return data
  | none => do
    onFst (modify fun self => { self with misses := self.misses + 1 })
    loadPage api pageNo
    lookup pageNo

/-- `while length:`. -/
def readLoop (api : Api σ) (fuel : Nat) (offset length : Int) (out : Bytes) : RemoteM σ Bytes :=
  if length = 0 then return out
  else match fuel with
    | 0 => throw .outOfFuel
    | fuel + 1 => do
      let inside := offset % page
      let n := min length (page - inside)
      let data ← readPage api (offset / page)
      readLoop api fuel (offset + n) (length - n) (out ++ slice data inside (inside + n))

/-- The range check does not look at the sign of `length`. -/
def read (api : Api σ) (fuel : Nat) (offset length : Int) : RemoteM σ Bytes := do
  raiseIf (offset < 0 ∨ (← get).1.remoteSize < offset + length)
    (.valueError "read outside remote allocation")
  readLoop api fuel offset length []

/-- The page is changed in the cache before it is sent. -/
def writePage (api : Api σ) (pageNo inside n : Int) (data : Bytes) : RemoteM σ Unit := do
  match (← get).1.pages.get? pageNo with
  | none => do
    onFst (modify fun self => { self with misses := self.misses + 1 })
    loadPage api pageNo
  | some _ => onFst (modify fun self => { self with hits := self.hits + 1 })
  let bytes := setSlice (← lookup pageNo) inside (inside + n) data
  onFst (modify fun self => { self with pages := self.pages.modify pageNo (fun _ => bytes) })
  remoteWrite api (pageNo * page) bytes
  moveToEnd pageNo

/-- `while pos < len(data):`. -/
def writeLoop (api : Api σ) (offset : Int) (data : Bytes) (fuel : Nat) (pos : Int) :
    RemoteM σ Unit :=
  if data.length ≤ pos then return
  else match fuel with
    | 0 => throw .outOfFuel
    | fuel + 1 => do
      let inside := (offset + pos) % page
      let n := min (data.length - pos) (page - inside)
      writePage api ((offset + pos) / page) inside n (slice data pos (pos + n))
      writeLoop api offset data fuel (pos + n)

def write (api : Api σ) (fuel : Nat) (offset : Int) (data : Bytes) : RemoteM σ Unit := do
  raiseIf (offset < 0 ∨ (← get).1.remoteSize < offset + data.length)
    (.valueError "write outside remote allocation")
  writeLoop api offset data fuel 0

/-! ## Calls -/

inductive Call where
  | read (offset length : Int)
  | write (offset : Int) (data : Bytes)

inductive Answer where
  | data (bytes : Bytes)
  | written
deriving DecidableEq, Repr

def Call.run (api : Api σ) (fuel : Nat) : Call → RemoteM σ Answer
  | .read offset length => do return .data (← RemoteCache.read api fuel offset length)
  | .write offset data => do
    RemoteCache.write api fuel offset data
    return .written

def answers (api : Api σ) (fuel : Nat) : List Call → RemoteM σ (List Answer)
  | [] => return []
  | call :: calls => do
    let answer ← call.run api fuel
    return answer :: (← answers api fuel calls)

end RemoteCache

end RamLink
