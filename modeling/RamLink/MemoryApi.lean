import RamLink.WriteBack

/-!
# RamLink.MemoryApi

`_Cache`, `MemoryRegion` and `RAMLinkMemory` of `ramlink_memory_api.py`, over a service given as an
`Api`.

A region object is an entry of `RAMLinkMemory.regions`, and a caller holds it by its index there.
-/

namespace RamLink

open Lib WriteBack

namespace Cache

variable {σ : Type}

def pageSize : Int := 64 * 1024

def maxTransfer : Int := 1024 * 1024

def kind : Kind := ⟨"memory range is outside the RAM-Link region", false⟩

/-- `_Cache(remote_size, cache_bytes)`. -/
def init (remoteSize cacheBytes : Int) : WriteBack :=
  empty pageSize remoteSize (max 1 (cacheBytes / pageSize))

def read (service : Api σ) (fuel : Nat) (offset length : Int) : CacheM σ Bytes :=
  WriteBack.read kind service fuel offset length

def write (service : Api σ) (fuel : Nat) (offset : Int) (data : Bytes) : CacheM σ Unit :=
  WriteBack.write kind service fuel offset data

def flush (service : Api σ) (order : SetOrder) : CacheM σ Unit := WriteBack.flush service order

end Cache

structure MemoryRegion where
  offset : Int
  size : Int
  closed : Bool
deriving DecidableEq, Repr

structure RAMLinkMemory where
  cache : WriteBack
  nextOffset : Int
  regions : List MemoryRegion

abbrev MemoryM (σ : Type) := EStateM Exc (RAMLinkMemory × σ)

namespace RAMLinkMemory

variable {σ α : Type}

/-- `RAMLinkMemory(remote_mb, cache_mb)`. -/
def init (remoteMb cacheMb : Int) : Except Exc RAMLinkMemory :=
  if remoteMb < 1 ∨ cacheMb < 1 then .error (.valueError "remote_mb and cache_mb must be positive")
  else .ok ⟨Cache.init (remoteMb * 1024 * 1024) (cacheMb * 1024 * 1024), 0, []⟩

def onCache (m : CacheM σ α) : MemoryM σ α := fun s =>
  match m (s.1.cache, s.2) with
  | .ok a t => .ok a ({ s.1 with cache := t.1 }, t.2)
  | .error e t => .error e ({ s.1 with cache := t.1 }, t.2)

/-- The new region is the last of `regions`. -/
def allocate (size : Int) : MemoryM σ Unit := do
  raiseIf (size ≤ 0) (.valueError "allocation size must be positive")
  let self := (← get).1
  raiseIf (self.cache.remoteSize < self.nextOffset + size)
    (.memoryError "RAM-Link remote memory exhausted")
  onFst (modify fun self =>
    { self with nextOffset := self.nextOffset + size,
                regions := self.regions ++ [⟨self.nextOffset, size, false⟩] })

def read (service : Api σ) (fuel : Nat) (offset length : Int) : MemoryM σ Bytes :=
  onCache (Cache.read service fuel offset length)

def write (service : Api σ) (fuel : Nat) (offset : Int) (data : Bytes) : MemoryM σ Unit :=
  onCache (Cache.write service fuel offset data)

def flush (service : Api σ) (order : SetOrder) : MemoryM σ Unit := onCache (Cache.flush service order)

end RAMLinkMemory

namespace MemoryRegion

variable {σ : Type}

def check (self : MemoryRegion) (offset length : Int) : Except Exc Unit :=
  if self.closed then .error (.runtimeError "memory region is closed")
  else if offset < 0 ∨ length < 0 ∨ self.size < offset + length then
    .error (.valueError "operation is outside this memory region")
  else .ok ()

def read (self : MemoryRegion) (service : Api σ) (fuel : Nat) (offset length : Int) :
    MemoryM σ Bytes := do
  fromExcept (self.check offset length)
  RAMLinkMemory.read service fuel (self.offset + offset) length

def write (self : MemoryRegion) (service : Api σ) (fuel : Nat) (offset : Int) (data : Bytes) :
    MemoryM σ Unit := do
  fromExcept (self.check offset data.length)
  RAMLinkMemory.write service fuel (self.offset + offset) data

/-- `while left:`; `steps` is the fuel of this loop, `fuel` that of the writes. -/
def fillLoop (self : MemoryRegion) (service : Api σ) (fuel : Nat) (chunk : Bytes) (steps : Nat)
    (pos left : Int) : MemoryM σ Unit :=
  if left = 0 then return
  else match steps with
    | 0 => throw .outOfFuel
    | steps + 1 => do
      let n := min left Cache.maxTransfer
      self.write service fuel pos (slice chunk 0 n)
      fillLoop self service fuel chunk steps (pos + n) (left - n)

def fill (self : MemoryRegion) (service : Api σ) (fuel : Nat) (value : Int) : MemoryM σ Unit := do
  raiseIf (¬ (0 ≤ value ∧ value ≤ 255)) (.valueError "fill value must be 0..255")
  fillLoop self service fuel (List.replicate Cache.maxTransfer.toNat (UInt8.ofNat value.toNat)) fuel
    0 self.size

def close (self : MemoryRegion) : MemoryRegion := { self with closed := true }

end MemoryRegion

namespace RAMLinkMemory

variable {σ α : Type}

def close (service : Api σ) (order : SetOrder) : MemoryM σ Unit := do
  flush service order
  onFst (modify fun self => { self with regions := self.regions.map MemoryRegion.close })

theorem run_onCache {m : CacheM σ α} {s : RAMLinkMemory × σ} {a : α} {t : WriteBack × σ}
    (h : m.run (s.1.cache, s.2) = .ok a t) :
    (onCache m).run s = .ok a ({ s.1 with cache := t.1 }, t.2) := by
  show (match m.run (s.1.cache, s.2) with
    | .ok a t => EStateM.Result.ok a ({ s.1 with cache := t.1 }, t.2)
    | .error e t => .error e ({ s.1 with cache := t.1 }, t.2)) = _
  rw [h]

end RAMLinkMemory

/-! ## Calls of the application -/

namespace RAMLinkMemory

variable {σ : Type}

inductive Call where
  | allocate (size : Int)
  | read (region : Nat) (offset length : Int)
  | write (region : Nat) (offset : Int) (data : Bytes)
  | fill (region : Nat) (value : Int)
  | close (region : Nat)
  | flush (order : SetOrder)

inductive Answer where
  | done
  | data (bytes : Bytes)
  | raised (e : Exc)
  /-- No call: there is no such region yet. -/
  | noRegion
deriving DecidableEq, Repr

def onRegion (region : Nat) (f : MemoryRegion → MemoryM σ Answer) : MemoryM σ Answer := do
  match (← get).1.regions[region]? with
  | none => return .noRegion
  | some self => f self

namespace Call

def body (service : Api σ) (fuel : Nat) : Call → MemoryM σ Answer
  | .allocate size => do
    RAMLinkMemory.allocate size
    return .done
  | .read region offset length =>
    onRegion region fun self => do return .data (← self.read service fuel offset length)
  | .write region offset data => onRegion region fun self => do
    self.write service fuel offset data
    return .done
  | .fill region value => onRegion region fun self => do
    self.fill service fuel value
    return .done
  | .close region => onRegion region fun self => do
    onFst (modify fun m => { m with regions := m.regions.set region self.close })
    return .done
  | .flush order => do
    RAMLinkMemory.flush service order
    return .done

/-- A call, its exception caught by the application. -/
def run (service : Api σ) (fuel : Nat) (call : Call) (s : RAMLinkMemory × σ) :
    Answer × (RAMLinkMemory × σ) :=
  match (call.body service fuel).run s with
  | .ok answer s' => (answer, s')
  | .error e s' => (.raised e, s')

end Call

def runs (service : Api σ) (fuel : Nat) :
    List Call → RAMLinkMemory × σ → List Answer × (RAMLinkMemory × σ)
  | [], s => ([], s)
  | call :: calls, s =>
    let (answer, s') := call.run service fuel s
    let (answers, s'') := runs service fuel calls s'
    (answer :: answers, s'')

end RAMLinkMemory

end RamLink
