import RamLink.Api
import RamLink.Lib.Dict
import RamLink.Lib.Lru
import RamLink.Lib.Paging

/-!
# RamLink.WriteBack

The write-back page cache that `RemoteMemoryCache` and `_Cache` both are.

The two classes have the same bodies; `Kind` holds what differs. The remote memory is reached
through an `Api`, whose calls may return any bytes, raise, and change the remote state. Offsets and
lengths are Python integers, and each `while` loop takes fuel: `outOfFuel` is a loop that has not
ended.
-/

namespace RamLink

open Lib

/-- What the two classes do differently. -/
structure Kind where
  /-- The text of the range error. -/
  outside : String
  countsEvictions : Bool

structure WriteBack where
  pageSize : Int
  remoteSize : Int
  maxPages : Int
  pages : Dict Int Bytes
  /-- A set, in the order its elements were added. -/
  dirty : List Int
  hits : Nat
  misses : Nat
  remoteReads : Nat
  remoteWrites : Nat
  evictions : Nat

/-- The order in which one iteration over a set visits it. -/
abbrev SetOrder := { f : List Int → List Int // ∀ s, (f s).Perm s }

namespace WriteBack

variable {σ : Type}

abbrev CacheM (σ : Type) := EStateM Exc (WriteBack × σ)

def empty (pageSize remoteSize maxPages : Int) : WriteBack :=
  ⟨pageSize, remoteSize, maxPages, .empty, [], 0, 0, 0, 0, 0⟩

/-- `dirty.add(page)`. -/
def addDirty (p : Int) (dirty : List Int) : List Int := if p ∈ dirty then dirty else dirty ++ [p]

def check (k : Kind) (offset length : Int) : CacheM σ Unit := do
  raiseIf (offset < 0 ∨ length < 0 ∨ (← get).1.remoteSize < offset + length) (.valueError k.outside)

/-- A page that is not in the map is not written. -/
def flushPage (api : Api σ) (page : Int) : CacheM σ Unit := do
  let c := (← get).1
  match c.pages.get? page with
  | none => return
  | some data => do
    onSnd (api.write (page * c.pageSize) data)
    onFst (modify fun c => { c with remoteWrites := c.remoteWrites + 1 })

/-- The oldest page leaves the map before it is flushed. -/
def evict (k : Kind) (api : Api σ) : CacheM σ Unit := do
  let c := (← get).1
  match c.pages.popFirst with
  | none => throw .keyError
  | some ((old, _), rest) => do
    onFst (modify fun c => { c with pages := rest })
    if old ∈ c.dirty then do
      flushPage api old
      onFst (modify fun c => { c with dirty := c.dirty.filter (fun q => decide (q ≠ old)) })
    if k.countsEvictions then onFst (modify fun c => { c with evictions := c.evictions + 1 })

def loadPage (k : Kind) (api : Api σ) (page : Int) : CacheM σ Bytes := do
  let c := (← get).1
  match c.pages.get? page with
  | some data => do
    onFst (modify fun c =>
      { c with pages := (c.pages.erase page).set page data, hits := c.hits + 1 })
    return data
  | none => do
    onFst (modify fun c => { c with misses := c.misses + 1 })
    let offset := page * c.pageSize
    let data ← onSnd (api.read offset (min c.pageSize (c.remoteSize - offset)))
    onFst (modify fun c => { c with remoteReads := c.remoteReads + 1 })
    if c.maxPages ≤ c.pages.size then evict k api
    onFst (modify fun c => { c with pages := c.pages.set page data })
    return data

/-- `while length:`. -/
def readLoop (k : Kind) (api : Api σ) (fuel : Nat) (offset length : Int) (output : Bytes) :
    CacheM σ Bytes :=
  if length = 0 then return output
  else match fuel with
    | 0 => throw .outOfFuel
    | fuel + 1 => do
      let pageSize := (← get).1.pageSize
      let inside := offset.fmod pageSize
      let data ← loadPage k api (offset.fdiv pageSize)
      let n := min length (data.length - inside)
      readLoop k api fuel (offset + n) (length - n) (output ++ slice data inside (inside + n))

def read (k : Kind) (api : Api σ) (fuel : Nat) (offset length : Int) : CacheM σ Bytes := do
  check k offset length
  readLoop k api fuel offset length []

/-- The page is changed in place, marked dirty and moved to the end. -/
def storePage (page inside n : Int) (data : Bytes) : CacheM σ Unit := do
  onFst (modify fun c =>
    { c with pages := c.pages.modify page (fun d => setSlice d inside (inside + n) data),
             dirty := addDirty page c.dirty })
  match (← get).1.pages.moveToEnd page with
  | none => throw .keyError
  | some pages => onFst (modify fun c => { c with pages := pages })

/-- `while pos < len(data):`. -/
def writeLoop (k : Kind) (api : Api σ) (data : Bytes) (fuel : Nat) (offset pos : Int) :
    CacheM σ Unit :=
  if data.length ≤ pos then return
  else match fuel with
    | 0 => throw .outOfFuel
    | fuel + 1 => do
      let pageSize := (← get).1.pageSize
      let inside := offset.fmod pageSize
      let pageData ← loadPage k api (offset.fdiv pageSize)
      let n := min (data.length - pos) (pageData.length - inside)
      storePage (offset.fdiv pageSize) inside n (slice data pos (pos + n))
      writeLoop k api data fuel (offset + n) (pos + n)

def write (k : Kind) (api : Api σ) (fuel : Nat) (offset : Int) (data : Bytes) : CacheM σ Unit := do
  check k offset data.length
  writeLoop k api data fuel offset 0

def flushPages (api : Api σ) : List Int → CacheM σ Unit
  | [] => return
  | page :: pages => do
    flushPage api page
    flushPages api pages

def flush (api : Api σ) (order : SetOrder) : CacheM σ Unit := do
  flushPages api (order.1 (← get).1.dirty)
  onFst (modify fun c => { c with dirty := [] })

theorem run_check (k : Kind) {s : WriteBack × σ} {offset length : Int} (h0 : 0 ≤ offset) (h1 : 0 ≤ length)
    (hr : offset + length ≤ s.1.remoteSize) : (check k offset length).run s = .ok () s := by
  unfold check
  simp only [EStateM.run_bind, EStateM.run_get]
  rw [run_raiseIf, if_neg (by omega)]

/-! ## Loading a page, on any `Api` -/

/-- The cache after the oldest page has been dropped. -/
def evicted (k : Kind) (c : WriteBack) : WriteBack :=
  match c.pages.popFirst with
  | none => c
  | some ((old, _), rest) =>
    { c with pages := rest, dirty := c.dirty.filter (fun q => decide (q ≠ old)),
             evictions := if k.countsEvictions then c.evictions + 1 else c.evictions }

/-- The cache after `_load_page` has made room for a page. -/
def makeRoom (k : Kind) (c : WriteBack) : WriteBack :=
  if c.maxPages ≤ c.pages.size then evicted k c else c

theorem flushPage_absent (api : Api σ) {page : Int} {s : WriteBack × σ}
    (h : s.1.pages.get? page = none) : (flushPage api page).run s = .ok () s := by
  unfold flushPage
  simp only [EStateM.run_bind, EStateM.run_get, h]
  rfl

/-- Eviction writes nothing: the page has left the map when it is flushed. -/
theorem run_evict (k : Kind) (api : Api σ) {s : WriteBack × σ} (h : 0 < s.1.pages.size) :
    (evict k api).run s = .ok () (evicted k s.1, s.2) := by
  obtain ⟨c, t⟩ := s
  obtain ⟨old, d, rest, hp⟩ := Dict.popFirst_isSome h
  have hgone : rest.get? old = none := by
    have := (Dict.get?_popFirst hp old).2
    rwa [if_pos rfl] at this
  unfold evict evicted
  simp only [EStateM.run_bind, EStateM.run_get, hp, run_modifyFst]
  by_cases hd : old ∈ c.dirty
  · have hf : (flushPage api old).run ({ c with pages := rest }, t) =
        .ok () ({ c with pages := rest }, t) := flushPage_absent api hgone
    simp only [if_pos hd, EStateM.run_bind, hf, run_modifyFst]
    cases k.countsEvictions <;> rfl
  · have hsame : c.dirty.filter (fun q => decide (q ≠ old)) = c.dirty := by
      rw [List.filter_eq_self]
      intro q hq
      exact decide_eq_true (fun he => hd (he ▸ hq))
    simp only [if_neg hd, hsame]
    cases k.countsEvictions <;> rfl

theorem load_hit (k : Kind) (api : Api σ) {s : WriteBack × σ} {p : Int} {d : Bytes}
    (h : s.1.pages.get? p = some d) : (loadPage k api p).run s =
      .ok d ({ s.1 with pages := (s.1.pages.erase p).set p d, hits := s.1.hits + 1 }, s.2) := by
  unfold loadPage
  simp only [EStateM.run_bind, EStateM.run_get, h]
  rfl

/-- The cache after page `p` has been fetched. -/
def fetched (k : Kind) (c : WriteBack) (p : Int) (d : Bytes) : WriteBack :=
  let c := makeRoom k { c with misses := c.misses + 1, remoteReads := c.remoteReads + 1 }
  { c with pages := c.pages.set p d }

theorem load_miss (k : Kind) (api : Api σ) {s : WriteBack × σ} {t : σ} {p : Int} {d : Bytes}
    (h : s.1.pages.get? p = none) (hk : 0 < s.1.maxPages)
    (hread : (api.read (p * s.1.pageSize) (min s.1.pageSize (s.1.remoteSize - p * s.1.pageSize))).run
      s.2 = .ok d t) : (loadPage k api p).run s = .ok d (fetched k s.1 p d, t) := by
  obtain ⟨c, u⟩ := s
  unfold loadPage fetched makeRoom
  simp only [EStateM.run_bind, EStateM.run_get, h, run_modifyFst, run_onSnd]
  simp only at hread
  rw [hread]
  simp only
  by_cases hfull : c.maxPages ≤ c.pages.size
  · simp only [if_pos hfull]
    rw [EStateM.run_bind, run_evict k api (by simp only at hk ⊢; omega)]
    rfl
  · simp only [if_neg hfull]
    rfl

/-- A page whose read raises. -/
theorem load_raises (k : Kind) (api : Api σ) {s : WriteBack × σ} {t : σ} {p : Int} {e : Exc}
    (h : s.1.pages.get? p = none)
    (hread : (api.read (p * s.1.pageSize) (min s.1.pageSize (s.1.remoteSize - p * s.1.pageSize))).run
      s.2 = .error e t) :
    (loadPage k api p).run s = .error e ({ s.1 with misses := s.1.misses + 1 }, t) := by
  unfold loadPage
  simp only [EStateM.run_bind, EStateM.run_get, h, run_modifyFst, run_onSnd, hread]

/-- What loading a page does to the map and the dirty set, in terms of the page that is evicted. -/
structure Fetched (c c' : WriteBack) (p : Int) (d : Bytes) : Prop where
  pageSize : c'.pageSize = c.pageSize
  remoteSize : c'.remoteSize = c.remoteSize
  maxPages : c'.maxPages = c.maxPages
  order : c'.pages.keys = Lru.touch c.maxPages.toNat c.pages.keys p
  get? : ∀ j, c'.pages.get? j = if j = p then some d
    else if Lru.victim c.maxPages.toNat c.pages.keys p = some j then none else c.pages.get? j
  dirty : c'.dirty = c.dirty.filter
    (fun q => decide (Lru.victim c.maxPages.toNat c.pages.keys p ≠ some q))

theorem fetched_spec (k : Kind) {c : WriteBack} {p : Int} (d : Bytes) (hk : 0 < c.maxPages)
    (hp : p ∉ c.pages.keys) : Fetched c (fetched k c p d) p d := by
  have hsize := Dict.length_keys c.pages
  unfold fetched makeRoom
  by_cases hfull : c.maxPages ≤ c.pages.size
  · obtain ⟨old, v, rest, hpop⟩ := Dict.popFirst_isSome (d := c.pages) (by omega)
    have hkeys := Dict.keys_popFirst hpop
    have hold := Dict.get?_popFirst hpop
    have hrest : p ∉ rest.keys := fun h => hp (by rw [hkeys]; exact List.mem_cons_of_mem old h)
    have hlen : c.maxPages.toNat ≤ c.pages.keys.length := by omega
    have hv : Lru.victim c.maxPages.toNat c.pages.keys p = some old := by
      rw [Lru.victim, if_neg hp, if_pos hlen, hkeys]
      rfl
    simp only [if_pos hfull, evicted, hpop]
    refine ⟨rfl, rfl, rfl, ?_, fun j => ?_, ?_⟩
    · rw [Dict.keys_set_of_not_mem d hrest, Lru.touch_full hp hlen, hkeys]
      rfl
    · rw [Dict.get?_set, (hold j).2, hv]
      simp only [Option.some.injEq, eq_comm]
    · rw [hv]
      simp only [ne_eq, Option.some.injEq, eq_comm]
  · have hlen : ¬ c.maxPages.toNat ≤ c.pages.keys.length := by omega
    have hv : Lru.victim c.maxPages.toNat c.pages.keys p = none := by
      rw [Lru.victim, if_neg hp, if_neg hlen]
    simp only [if_neg hfull]
    refine ⟨rfl, rfl, rfl, ?_, fun j => ?_, ?_⟩
    · rw [Dict.keys_set_of_not_mem d hp, Lru.touch_room hp hlen]
    · rw [Dict.get?_set, hv]
      simp
    · rw [hv]
      simp

/-- A page that is in the map already evicts none. -/
theorem hit_spec {c : WriteBack} {p : Int} {d : Bytes} (h : c.pages.get? p = some d) :
    Fetched c { c with pages := (c.pages.erase p).set p d, hits := c.hits + 1 } p d := by
  have hmem := Dict.mem_keys_of_get? h
  have hv : Lru.victim c.maxPages.toNat c.pages.keys p = none := by rw [Lru.victim, if_pos hmem]
  refine ⟨rfl, rfl, rfl, ?_, fun j => ?_, ?_⟩
  · show ((c.pages.erase p).set p d).keys = _
    rw [Dict.keys_set_of_not_mem _ (by simp), Dict.keys_erase, Lru.touch_hit _ hmem]
  · simp only [Dict.get?_set, Dict.get?_erase, hv]
    split
    · rfl
    · simp
  · rw [hv]
    simp

/-- Changing a page that is in the map: it becomes the last one. -/
theorem run_storePage {s : WriteBack × σ} {p : Int} {d : Bytes} (h : s.1.pages.get? p = some d)
    (inside n : Int) (data : Bytes) :
    ∃ pages, (storePage p inside n data).run s =
        .ok () ({ s.1 with pages := pages, dirty := addDirty p s.1.dirty }, s.2) ∧
      pages.keys = s.1.pages.keys.filter (fun q => decide (q ≠ p)) ++ [p] ∧
      pages.size = s.1.pages.size ∧ ∀ j, pages.get? j = if j = p then some (setSlice d inside (inside + n) data)
        else s.1.pages.get? j := by
  obtain ⟨c, t⟩ := s
  obtain ⟨pages, hmove⟩ := Dict.moveToEnd_isSome (d := c.pages.modify p
    (fun d => setSlice d inside (inside + n) data)) (k := p)
    (by rw [Dict.keys_modify]; exact Dict.mem_keys_of_get? h)
  refine ⟨pages, ?_, ?_, ?_, fun j => ?_⟩
  · unfold storePage
    simp only [EStateM.run_bind, run_modifyFst, EStateM.run_get, hmove]
  · rw [Dict.keys_moveToEnd hmove, Dict.keys_modify]
  · rw [Dict.size_congr (Dict.get?_moveToEnd hmove), ← Dict.length_keys, Dict.keys_modify, Dict.length_keys]
  · rw [Dict.get?_moveToEnd hmove, Dict.get?_modify]
    by_cases hj : j = p
    · rw [if_pos hj, if_pos hj, hj]
      simp only at h
      rw [h, Option.map_some]
    · rw [if_neg hj, if_neg hj]

/-! ## A turn of the loops, on any `Api` -/

section Turn

variable {ps rs : Nat} {s s' : WriteBack × σ} {d : Bytes}

theorem readLoop_done (k : Kind) (api : Api σ) (fuel : Nat) (a : Int) (out : Bytes) :
    (readLoop k api fuel a 0 out).run s = .ok out s := by
  unfold readLoop
  rw [if_pos rfl]
  rfl

theorem writeLoop_done (k : Kind) (api : Api σ) {data : Bytes} {pos : Nat} (h : data.length ≤ pos)
    (fuel : Nat) (a : Int) : (writeLoop k api data fuel a pos).run s = .ok () s := by
  unfold writeLoop
  rw [if_pos (by omega)]
  rfl

/-- One turn of the read loop, on a page of the length its place asks for. -/
theorem readLoop_turn (k : Kind) (api : Api σ) {a n : Nat} (hps : 0 < ps) (hn : 0 < n) (hr : a + n ≤ rs)
    (hsize : s.1.pageSize = ps) (hload : (loadPage k api ((a / ps : Nat) : Int)).run s = .ok d s')
    (hlen : d.length = width ps rs (a / ps)) (fuel : Nat) (out : Bytes) :
    (readLoop k api (fuel + 1) a n out).run s =
      (readLoop k api fuel ((a + min n (ps - a % ps) : Nat) : Int)
        ((n - min n (ps - a % ps) : Nat) : Int) (out ++ sub d (a % ps) (min n (ps - a % ps)))).run s' := by
  obtain ⟨-, -, -, -, hmin⟩ := chunk_arith hps hn hr
  have hz : ¬ ((n : Int) = 0) := by omega
  have hle : min n (ps - a % ps) ≤ n := Nat.min_le_left _ _
  generalize min n (ps - a % ps) = m at *
  have hcast : (a : Int) + (m : Int) = ((a + m : Nat) : Int) ∧
      (n : Int) - (m : Int) = ((n - m : Nat) : Int) := by omega
  rw [readLoop, if_neg hz]
  simp only [EStateM.run_bind, EStateM.run_get, hsize, ← Int.ofNat_fdiv, ← Int.ofNat_fmod, hload,
    hlen, hmin, slice_nat, hcast.1, hcast.2]

/-- One turn of the write loop, on a page of the length its place asks for. -/
theorem writeLoop_turn (k : Kind) (api : Api σ) {data : Bytes} {a pos n : Nat} (hps : 0 < ps) (hn : 0 < n)
    (hd : pos + n = data.length) (hr : a + n ≤ rs) (hsize : s.1.pageSize = ps)
    (hload : (loadPage k api ((a / ps : Nat) : Int)).run s = .ok d s')
    (hlen : d.length = width ps rs (a / ps)) (fuel : Nat) :
    (writeLoop k api data (fuel + 1) a pos).run s = (do
      storePage ((a / ps : Nat) : Int) ((a % ps : Nat) : Int) ((min n (ps - a % ps) : Nat) : Int)
        (sub data pos (min n (ps - a % ps)))
      writeLoop k api data fuel ((a + min n (ps - a % ps) : Nat) : Int)
        ((pos + min n (ps - a % ps) : Nat) : Int)).run s' := by
  obtain ⟨-, -, -, -, hmin⟩ := chunk_arith hps hn hr
  have hz : ¬ ((data.length : Int) ≤ (pos : Int)) := by omega
  have hrest : (data.length : Int) - (pos : Int) = (n : Int) := by omega
  generalize min n (ps - a % ps) = m at *
  have hcast : (a : Int) + (m : Int) = ((a + m : Nat) : Int) ∧
      (pos : Int) + (m : Int) = ((pos + m : Nat) : Int) := by omega
  have hslice : slice data (pos : Int) ((pos + m : Nat) : Int) = sub data pos m := by
    rw [← hcast.2, slice_nat]
  rw [writeLoop, if_neg hz]
  simp only [EStateM.run_bind, EStateM.run_get, hsize, ← Int.ofNat_fdiv, ← Int.ofNat_fmod, hload,
    hlen, hrest, hmin, hcast.1, hcast.2, hslice]

end Turn

end WriteBack

end RamLink
