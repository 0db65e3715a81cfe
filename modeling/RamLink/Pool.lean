import RamLink.Lib.Dict
import RamLink.Lib.Extent
import RamLink.Wire
import Mathlib.Algebra.Order.Ring.Rat
import Mathlib.Tactic.Linarith
import Mathlib.Tactic.NormNum

/-!
# RamLink.Pool

The state of a RAM provider and the atomic sections that change it.

`RAMLinkServer` (Android) and `RAMProvider` (Windows) keep the same state: a byte buffer, a table
of leases and the next lease id. They also share the bodies of their critical sections, which are
the functions of this module; the two classes differ in how they put them together, and that is
in `RamLink.Server` and `RamLink.Provider`. Every section takes the clock reading its `alive()`
and `Lease()` calls see.
-/

namespace RamLink

open Lib

/-- A reading of `time.monotonic()`, in seconds. -/
abbrev Time := ℚ

structure Lease where
  offset : Nat
  length : Nat
  expiresAt : Time
deriving DecidableEq

namespace Lease

def new (now : Time) (offset length : Nat) : Lease := ⟨offset, length, now + leaseSeconds⟩

def Alive (now : Time) (l : Lease) : Prop := now < l.expiresAt

instance (now : Time) (l : Lease) : Decidable (l.Alive now) := inferInstanceAs (Decidable (_ < _))

def keepalive (now : Time) (l : Lease) : Lease := { l with expiresAt := now + leaseSeconds }

@[simp] theorem new_offset (now : Time) (a n : Nat) : (new now a n).offset = a := rfl
@[simp] theorem new_length (now : Time) (a n : Nat) : (new now a n).length = n := rfl
@[simp] theorem keepalive_offset (now : Time) (l : Lease) : (l.keepalive now).offset = l.offset := rfl
@[simp] theorem keepalive_length (now : Time) (l : Lease) : (l.keepalive now).length = l.length := rfl

theorem now_lt_expiry (now : Time) : now < now + (leaseSeconds : Time) := by
  have h : (0 : Time) < (leaseSeconds : Time) := by unfold leaseSeconds; norm_num
  linarith

theorem new_alive (now : Time) (a n : Nat) : (new now a n).Alive now := now_lt_expiry now

theorem keepalive_alive (now : Time) (l : Lease) : (l.keepalive now).Alive now := now_lt_expiry now

/-- A lease that is alive was alive at every earlier reading. -/
theorem Alive.mono {now now' : Time} {l : Lease} (h : l.Alive now') (hn : now ≤ now') : l.Alive now :=
  lt_of_le_of_lt hn h

end Lease

structure RamPool where
  size : Nat
  memory : Bytes
  leases : Dict Nat Lease
  nextLeaseId : Nat

namespace RamPool

/-- The largest length a Python object can have. -/
def ssizeMax : Int := 2 ^ 63 - 1

/-- `__init__(size_mb)`. -/
def init (sizeMb : Int) : Except Exc RamPool :=
  let size : Int := sizeMb * 1024 * 1024 / sectorSize * sectorSize
  if size < sectorSize then .error (.valueError "RAM size must be at least 1 sector")
  else if ssizeMax < size then .error (.overflowError "cannot fit 'int' into an index-sized integer")
  else .ok ⟨size.toNat, List.replicate size.toNat 0, .empty, 1⟩

/-- A fresh provider of 1 MiB. -/
def fresh : RamPool := ⟨1048576, List.replicate 1048576 0, .empty, 1⟩

theorem init_one : init 1 = .ok fresh := rfl

/-- A requested length rounded up to whole sectors. -/
def roundUp (requested : Nat) : Nat := (requested + sectorSize - 1) / sectorSize * sectorSize

/-- `cleanup_expired`, `cleanup`: delete the leases that are no longer alive. -/
def cleanup (now : Time) (s : RamPool) : RamPool :=
  { s with leases := s.leases.filter (fun _ l => decide (l.Alive now)) }

/-- The scan for a free region: the leases by offset, and a cursor past the ones seen. -/
def scan (length : Nat) (leases : List Lease) (s : RamPool) : Option Nat :=
  firstFit Lease.offset Lease.length length s.size 0
    (leases.insertionSort (fun x y => x.offset ≤ y.offset))

/-- The section of `borrow` that records the lease; returns its id. -/
def insertLease (now : Time) (offset length : Nat) (s : RamPool) : Nat × RamPool :=
  (s.nextLeaseId,
    { s with nextLeaseId := s.nextLeaseId + 1,
             leases := s.leases.set s.nextLeaseId (Lease.new now offset length) })

/-- `self.leases.pop(lease_id, None)`. -/
def popLease (leaseId : Nat) (s : RamPool) : RamPool :=
  { s with leases := s.leases.erase leaseId }

/-- `Lease.keepalive` of the lease object with this id. An object that has left the table is never
read again, so only the table entry matters. -/
def keepaliveLease (now : Time) (leaseId : Nat) (s : RamPool) : RamPool :=
  { s with leases := s.leases.modify leaseId (Lease.keepalive now) }

/-- `self.memory[offset:offset + length] = data`. -/
def store (offset length : Nat) (data : Bytes) (s : RamPool) : RamPool :=
  { s with memory := setSlice s.memory offset (offset + length) data }

/-- `self.memory[offset:offset + length]`. -/
def load (offset length : Nat) (s : RamPool) : Bytes := slice s.memory offset (offset + length)

/-- The block of a new lease is zeroed. -/
def zero (offset length : Nat) (s : RamPool) : RamPool :=
  s.store offset length (List.replicate length 0)

/-! ## What each section leaves alone -/

@[simp] theorem cleanup_size (now : Time) (s : RamPool) : (s.cleanup now).size = s.size := rfl
@[simp] theorem cleanup_memory (now : Time) (s : RamPool) : (s.cleanup now).memory = s.memory := rfl
@[simp] theorem cleanup_nextLeaseId (now : Time) (s : RamPool) :
    (s.cleanup now).nextLeaseId = s.nextLeaseId := rfl

@[simp] theorem insertLease_fst (now : Time) (a n : Nat) (s : RamPool) :
    (s.insertLease now a n).1 = s.nextLeaseId := rfl
@[simp] theorem insertLease_size (now : Time) (a n : Nat) (s : RamPool) :
    (s.insertLease now a n).2.size = s.size := rfl
@[simp] theorem insertLease_memory (now : Time) (a n : Nat) (s : RamPool) :
    (s.insertLease now a n).2.memory = s.memory := rfl
@[simp] theorem insertLease_nextLeaseId (now : Time) (a n : Nat) (s : RamPool) :
    (s.insertLease now a n).2.nextLeaseId = s.nextLeaseId + 1 := rfl

@[simp] theorem popLease_size (i : Nat) (s : RamPool) : (s.popLease i).size = s.size := rfl
@[simp] theorem popLease_memory (i : Nat) (s : RamPool) : (s.popLease i).memory = s.memory := rfl
@[simp] theorem popLease_nextLeaseId (i : Nat) (s : RamPool) :
    (s.popLease i).nextLeaseId = s.nextLeaseId := rfl

@[simp] theorem keepaliveLease_size (now : Time) (i : Nat) (s : RamPool) :
    (s.keepaliveLease now i).size = s.size := rfl
@[simp] theorem keepaliveLease_memory (now : Time) (i : Nat) (s : RamPool) :
    (s.keepaliveLease now i).memory = s.memory := rfl
@[simp] theorem keepaliveLease_nextLeaseId (now : Time) (i : Nat) (s : RamPool) :
    (s.keepaliveLease now i).nextLeaseId = s.nextLeaseId := rfl

@[simp] theorem store_size (a n : Nat) (d : Bytes) (s : RamPool) : (s.store a n d).size = s.size := rfl
@[simp] theorem store_leases (a n : Nat) (d : Bytes) (s : RamPool) :
    (s.store a n d).leases = s.leases := rfl
@[simp] theorem store_nextLeaseId (a n : Nat) (d : Bytes) (s : RamPool) :
    (s.store a n d).nextLeaseId = s.nextLeaseId := rfl

@[simp] theorem zero_size (a n : Nat) (s : RamPool) : (s.zero a n).size = s.size := rfl
@[simp] theorem zero_leases (a n : Nat) (s : RamPool) : (s.zero a n).leases = s.leases := rfl
@[simp] theorem zero_nextLeaseId (a n : Nat) (s : RamPool) :
    (s.zero a n).nextLeaseId = s.nextLeaseId := rfl

/-! ## The lease table, entry by entry -/

theorem get?_cleanup {now : Time} {s : RamPool} {i : Nat} {l : Lease} :
    (s.cleanup now).leases.get? i = some l ↔ s.leases.get? i = some l ∧ l.Alive now := by
  simp [cleanup, Dict.get?_filter, Option.filter_eq_some_iff]

theorem get?_insertLease (now : Time) (a n : Nat) (s : RamPool) (i : Nat) :
    (s.insertLease now a n).2.leases.get? i =
      if i = s.nextLeaseId then some (Lease.new now a n) else s.leases.get? i := by
  simp [insertLease]

theorem get?_popLease (s : RamPool) (i j : Nat) :
    (s.popLease i).leases.get? j = if j = i then none else s.leases.get? j := by
  simp [popLease]

theorem get?_keepaliveLease (now : Time) (s : RamPool) (i j : Nat) :
    (s.keepaliveLease now i).leases.get? j =
      if j = i then (s.leases.get? j).map (Lease.keepalive now) else s.leases.get? j := by
  simp [keepaliveLease]

/-! ## Invariants that need no reasoning about time -/

/-- The buffer has the advertised size, which is a whole number of sectors. -/
structure Sized (s : RamPool) : Prop where
  length_memory : s.memory.length = s.size
  sector_dvd : sectorSize ∣ s.size

/-- A range of whole sectors, at least one, inside the buffer. -/
structure Placed (size offset length : Nat) : Prop where
  pos : 0 < length
  inside : offset + length ≤ size
  start_dvd : sectorSize ∣ offset
  end_dvd : sectorSize ∣ offset + length

/-- Every lease has a placed range and an id given out before. -/
structure Tabled (s : RamPool) : Prop where
  placed : ∀ i l, s.leases.get? i = some l → Placed s.size l.offset l.length
  fresh : ∀ i l, s.leases.get? i = some l → i < s.nextLeaseId

theorem roundUp_spec (r : Nat) :
    sectorSize ∣ roundUp r ∧ r ≤ roundUp r ∧ roundUp r < r + sectorSize := by
  refine ⟨Nat.dvd_mul_left _ _, ?_, ?_⟩ <;> simp only [roundUp, sectorSize] <;> omega

theorem roundUp_pos {r : Nat} : 0 < roundUp r ↔ 0 < r := by
  simp only [roundUp, sectorSize]; omega

/-- What `__init__` builds. -/
theorem init_ok {sizeMb : Int} {s : RamPool} (h : init sizeMb = .ok s) :
    s = ⟨s.size, List.replicate s.size 0, .empty, 1⟩ ∧ sectorSize ∣ s.size ∧ 0 < s.size ∧
      s.size < 2 ^ 63 := by
  simp only [init] at h
  split at h
  · cases h
  rename_i h1
  split at h
  · cases h
  rename_i h2
  cases h
  simp only [ssizeMax, sectorSize] at h1 h2 ⊢
  refine ⟨trivial, ?_, ?_, ?_⟩
  · obtain ⟨q, hq⟩ : ∃ q : Nat, sizeMb * 1024 * 1024 / (512 : Nat) = (q : Int) :=
      Int.eq_ofNat_of_zero_le (by omega)
    rw [hq]
    exact ⟨q, by omega⟩
  · omega
  · omega

theorem init_sized {sizeMb : Int} {s : RamPool} (h : init sizeMb = .ok s) : s.Sized := by
  obtain ⟨hs, hd, -, -⟩ := init_ok h
  exact ⟨by rw [hs]; simp, hd⟩

theorem init_tabled {sizeMb : Int} {s : RamPool} (h : init sizeMb = .ok s) : s.Tabled := by
  obtain ⟨hs, -, -, -⟩ := init_ok h
  have hn : ∀ i, s.leases.get? i = none := by rw [hs]; exact fun i => rfl
  constructor <;> intro i l hl <;> rw [hn] at hl <;> cases hl

theorem Tabled.cleanup {s : RamPool} (h : s.Tabled) (now : Time) : (s.cleanup now).Tabled :=
  ⟨fun i l hl => h.placed i l (get?_cleanup.mp hl).1, fun i l hl => h.fresh i l (get?_cleanup.mp hl).1⟩

theorem Tabled.popLease {s : RamPool} (h : s.Tabled) (i : Nat) : (s.popLease i).Tabled := by
  have hg : ∀ j l, (s.popLease i).leases.get? j = some l → s.leases.get? j = some l := by
    intro j l hl
    rw [get?_popLease] at hl
    split at hl
    · cases hl
    · exact hl
  exact ⟨fun j l hl => h.placed j l (hg j l hl), fun j l hl => h.fresh j l (hg j l hl)⟩

/-- Every entry after a keepalive update has the range of the entry it came from. -/
theorem get?_keepaliveLease_some {now : Time} {s : RamPool} {i j : Nat} {l : Lease}
    (h : (s.keepaliveLease now i).leases.get? j = some l) :
    ∃ l', s.leases.get? j = some l' ∧ l.offset = l'.offset ∧ l.length = l'.length := by
  rw [get?_keepaliveLease] at h
  split at h
  · rw [Option.map_eq_some_iff] at h
    obtain ⟨l', hl', rfl⟩ := h
    exact ⟨l', hl', rfl, rfl⟩
  · exact ⟨l, h, rfl, rfl⟩

theorem Tabled.keepaliveLease {s : RamPool} (h : s.Tabled) (now : Time) (i : Nat) :
    (s.keepaliveLease now i).Tabled := by
  constructor
  · intro j l hl
    obtain ⟨l', hl', ho, hn⟩ := get?_keepaliveLease_some hl
    rw [ho, hn]
    exact h.placed j l' hl'
  · intro j l hl
    obtain ⟨l', hl', -, -⟩ := get?_keepaliveLease_some hl
    exact h.fresh j l' hl'

theorem Tabled.insertLease {s : RamPool} (h : s.Tabled) (now : Time) {a n : Nat}
    (hp : Placed s.size a n) : (s.insertLease now a n).2.Tabled := by
  constructor
  · intro i l hl
    rw [get?_insertLease] at hl
    split at hl
    · cases hl; exact hp
    · exact h.placed i l hl
  · intro i l hl
    rw [get?_insertLease] at hl
    split at hl
    · rename_i hi; rw [hi]; exact Nat.lt_succ_self _
    · exact Nat.lt_succ_of_lt (h.fresh i l hl)

theorem Tabled.store {s : RamPool} (h : s.Tabled) (a n : Nat) (d : Bytes) : (s.store a n d).Tabled :=
  ⟨h.placed, h.fresh⟩

/-- An in-range store of the right length is a splice. -/
theorem store_memory {s : RamPool} (h : s.memory.length = s.size) {a n : Nat} {d : Bytes}
    (hd : d.length = n) (hr : a + n ≤ s.size) : (s.store a n d).memory = splice s.memory a d :=
  setSlice_nat s.memory a n d hd (by omega)

theorem load_eq_sub (s : RamPool) (a n : Nat) : s.load a n = sub s.memory a n :=
  slice_nat s.memory a n

theorem length_load {s : RamPool} (h : s.memory.length = s.size) {a n : Nat} (hr : a + n ≤ s.size) :
    (s.load a n).length = n := by
  rw [load_eq_sub, length_sub_of_le (by omega)]

theorem Sized.store {s : RamPool} (h : s.Sized) {a n : Nat} {d : Bytes} (hd : d.length = n)
    (hr : a + n ≤ s.size) : (s.store a n d).Sized := by
  have hm := store_memory h.length_memory hd hr
  refine ⟨?_, h.sector_dvd⟩
  rw [hm, length_splice (by rw [h.length_memory]; omega)]
  exact h.length_memory

/-! ## The scan -/

/-- `c` leaves room for `length` bytes apart from all of `leases`. -/
def Free (s : RamPool) (length : Nat) (leases : List Lease) (c : Nat) : Prop :=
  Fits Lease.offset Lease.length length s.size leases c

theorem sorted_leases (leases : List Lease) :
    (leases.insertionSort (fun x y => x.offset ≤ y.offset)).Pairwise
      (fun x y => x.offset ≤ y.offset) :=
  List.pairwise_insertionSort _ leases

theorem free_insertionSort {s : RamPool} {length c : Nat} {leases : List Lease} :
    Fits Lease.offset Lease.length length s.size
      (leases.insertionSort (fun x y => x.offset ≤ y.offset)) c ↔ Free s length leases c := by
  simp only [Free, Fits, List.mem_insertionSort]

/-- The scan returns the least free position, and `none` only when there is none. -/
theorem scan_spec {s : RamPool} {length : Nat} {leases : List Lease}
    (hb : ∀ l ∈ leases, l.offset + l.length ≤ s.size) :
    (∀ c, s.scan length leases = some c → IsLeast {d | Free s length leases d} c) ∧
    (s.scan length leases = none ↔ ∀ c, ¬ Free s length leases c) := by
  have hb' : ∀ l ∈ leases.insertionSort (fun x y => x.offset ≤ y.offset),
      l.offset + l.length ≤ s.size := fun l hl => hb l ((List.mem_insertionSort _).mp hl)
  constructor
  · intro c h
    have := firstFit_isLeast (sorted_leases leases) hb' h
    simpa only [free_insertionSort] using this
  · have := firstFit_eq_none (n := length) (sorted_leases leases) hb'
    simpa only [scan, free_insertionSort] using this

/-- Among leases of whole sectors the scan finds a sector-aligned region. -/
theorem scan_dvd {s : RamPool} {length c : Nat} {leases : List Lease}
    (hd : ∀ l ∈ leases, sectorSize ∣ l.offset + l.length) (h : s.scan length leases = some c) :
    sectorSize ∣ c :=
  firstFit_dvd (Nat.dvd_zero _) (fun l hl => hd l ((List.mem_insertionSort _).mp hl)) h

/-- What the scan finds for a rounded length is a placed range. -/
theorem scan_placed {s : RamPool} (h : s.Tabled) {requested c : Nat} {leases : List Lease}
    (hl : ∀ l ∈ leases, ∃ i, s.leases.get? i = some l) (hr : 0 < requested)
    (hc : s.scan (roundUp requested) leases = some c) : Placed s.size c (roundUp requested) := by
  have hp : ∀ l ∈ leases, Placed s.size l.offset l.length := by
    intro l hm
    obtain ⟨i, hi⟩ := hl l hm
    exact h.placed i l hi
  have hleast := (scan_spec (fun l hm => (hp l hm).inside)).1 c hc
  have hcd := scan_dvd (fun l hm => (hp l hm).end_dvd) hc
  exact ⟨roundUp_pos.mpr hr, hleast.1.1, hcd, Nat.dvd_add hcd (roundUp_spec requested).1⟩

end RamPool

end RamLink
