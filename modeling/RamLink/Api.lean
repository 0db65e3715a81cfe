import RamLink.Lib.Outcome
import RamLink.Lib.Python
import RamLink.Lib.Slice

/-!
# RamLink.Api

The remote memory as a cache sees it: two calls, which may return anything, raise, and change the
state behind them.

* `Api.array` is a byte array that nobody else writes and that never fails.
* `Api.region` is a leased region at `base`, reached by absolute addresses; it keeps a log of the
  requests, and its next requests may fail.
* `Api.faulty` is a byte array whose requests may fail, a write also after it has stored its bytes.
* `Api.logged` keeps a log of the reads that another `Api` has answered. `Api.Exact` says that it
  answers them with as many bytes as they ask for, and `Api.ExactOn Inv` that it does so from the states
  of `Inv` on.
* `Api.peer` answers a read with any bytes, whatever was asked for.
* `Api.Serves` is what an `Api` over a memory that keeps a region comes to.
-/

namespace RamLink

open Lib

structure Api (σ : Type) where
  read : Int → Int → EStateM Exc σ Bytes
  write : Int → Bytes → EStateM Exc σ Unit

def Api.array : Api Bytes where
  read offset length := do return slice (← get) offset (offset + length)
  write offset data := modify fun m => setSlice m offset (offset + data.length) data

/-- A request as it was sent. -/
structure Transfer where
  offset : Int
  length : Int
deriving DecidableEq, Repr

structure LeasedRegion where
  base : Nat
  memory : Bytes
  /-- What the next requests raise; past the end of the list they succeed. -/
  faults : List (Option Exc)
  /-- The requests so far, newest first. -/
  log : List Transfer

namespace LeasedRegion

/-- Sends a request. -/
def send (offset length : Int) : EStateM Exc LeasedRegion Unit := do
  let self ← get
  set { self with faults := self.faults.tail, log := ⟨offset, length⟩ :: self.log }
  match self.faults.head? with
  | some (some e) => throw e
  | _ =>
    raiseIf (offset < self.base ∨ length < 0 ∨ self.base + self.memory.length < offset + length)
      (.connectionError "remote provider disconnected")

end LeasedRegion

/-- A request that raises reads and stores nothing. -/
def Api.region : Api LeasedRegion where
  read offset length := do
    LeasedRegion.send offset length
    let self ← get
    return slice self.memory (offset - self.base) (offset - self.base + length)
  write offset data := do
    LeasedRegion.send offset data.length
    modify fun self => { self with
      memory := setSlice self.memory (offset - self.base) (offset - self.base + data.length) data }

/-- The log has the oldest read first. -/
def Api.logged {σ : Type} (api : Api σ) : Api (σ × List Transfer) where
  read offset length := do
    let data ← onFst (api.read offset length)
    modify fun s => (s.1, s.2 ++ [⟨offset, length⟩])
    return data
  write offset data := onFst (api.write offset data)

def Api.Exact {σ : Type} (api : Api σ) : Prop :=
  ∀ (offset length : Int) (s s' : σ) (data : Bytes), 0 ≤ length →
    (api.read offset length).run s = .ok data s' → (data.length : Int) = length

/-- The same of the reads of at most `limit` bytes below `size`, which keep to the states of `Inv`. -/
def Api.ExactOn {σ : Type} (api : Api σ) (Inv : σ → Prop) (limit size : Int) : Prop :=
  ∀ (offset length : Int) (s s' : σ) (data : Bytes), 0 ≤ offset → 0 ≤ length → length ≤ limit →
    offset + length ≤ size → Inv s → (api.read offset length).run s = .ok data s' →
    (data.length : Int) = length ∧ Inv s'

theorem Api.Exact.exactOn {σ : Type} {api : Api σ} (h : api.Exact) (limit size : Int) :
    api.ExactOn (fun _ => True) limit size :=
  fun offset length s s' data _ hl _ _ _ hrun => ⟨h offset length s s' data hl hrun, trivial⟩

theorem Api.run_logged {σ : Type} (api : Api σ) (offset length : Int) (s : σ × List Transfer) :
    (api.logged.read offset length).run s = match (api.read offset length).run s.1 with
      | .ok data t => .ok data (t, s.2 ++ [⟨offset, length⟩])
      | .error e t => .error e (t, s.2) := by
  simp only [Api.logged, EStateM.run_bind, run_onFst]
  cases (api.read offset length).run s.1 <;> rfl

structure FaultyArray where
  memory : Bytes
  /-- What the next reads raise; past the end of the list they succeed. -/
  reads : List (Option Exc)
  /-- What the next writes raise, and whether their bytes are stored all the same. -/
  writes : List (Option (Exc × Bool))

/-- A request for bytes outside the array, or for a negative number of them, raises. -/
def Api.faulty : Api FaultyArray where
  read offset length := do
    let self ← get
    set { self with reads := self.reads.tail }
    match self.reads.head? with
    | some (some e) => throw e
    | _ => do
      raiseIf (offset < 0 ∨ length < 0 ∨ self.memory.length < offset + length)
        (.connectionError "memory service disconnected")
      return slice self.memory offset (offset + length)
  write offset data := do
    let self ← get
    raiseIf (offset < 0 ∨ self.memory.length < offset + data.length)
      (.osError "ERROR Write outside borrowed region")
    let stored := setSlice self.memory offset (offset + data.length) data
    match self.writes.head? with
    | some (some (e, kept)) => do
      set { self with memory := if kept then stored else self.memory, writes := self.writes.tail }
      throw e
    | _ => set { self with memory := stored, writes := self.writes.tail }

structure Peer where
  /-- What the next reads are answered; `none` is one that raises. -/
  answers : Nat → Option Bytes
  /-- Which of the next writes raise. -/
  refuses : Nat → Bool

def Api.peer : Api Peer where
  read _ _ := do
    let self ← get
    set { self with answers := fun i => self.answers (i + 1) }
    match self.answers 0 with
    | none => throw (.connectionError "memory service disconnected")
    | some data => return data
  write _ _ := do
    let self ← get
    set { self with refuses := fun i => self.refuses (i + 1) }
    raiseIf (self.refuses 0) (.osError "")

/-- As long as `Good` holds, of the requests of at most `limit` bytes of the region: a read returns its bytes or
raises, and a write that raises may have stored them. -/
structure Api.Serves {σ : Type} (api : Api σ) (limit : Nat) (Good : σ → Prop) (region : σ → Bytes) : Prop where
  read : ∀ (s : σ) (offset length : Nat), Good s → length ≤ limit → offset + length ≤ (region s).length →
    Ends (api.read offset length)
      (fun d t => (Good t ∧ region t = region s) ∧ d = sub (region s) offset length)
      (fun t => Good t ∧ region t = region s) s
  write : ∀ (s : σ) (offset : Nat) (data : Bytes), Good s → data.length ≤ limit →
    offset + data.length ≤ (region s).length →
    Ends (api.write offset data) (fun _ t => Good t ∧ region t = splice (region s) offset data)
      (fun t => Good t ∧ (region t = region s ∨ region t = splice (region s) offset data)) s

end RamLink
