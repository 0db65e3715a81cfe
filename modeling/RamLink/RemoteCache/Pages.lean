import RamLink.Lib.Lru
import RamLink.Lib.Paging
import RamLink.RemoteCache

/-!
# RamLink.RemoteCache.Pages

The write-through cache over a leased region, one page at a time, with requests that may fail.

`Tied ps rs k order mem s`: the region holds `mem`, every cached page is the page of `mem`, and
`order` are the cached pages from least to most recently used.

* `loadPage_ok`, `readPage_ok`, `writePage_ok`: no request of the page fails.
* `readPage_raises`, `writePage_unread`, `writePage_unsent`: one does.
-/

namespace RamLink

open Lib

/-! ## The region -/

namespace LeasedRegion

/-- The region after a request for one page. -/
def logged (self : LeasedRegion) (ps i : Nat) : LeasedRegion :=
  { self with log := ⟨self.base + (i * ps : Nat), (ps : Nat)⟩ :: self.log }

/-- What the next request raises. -/
def fault (self : LeasedRegion) : Option Exc := self.faults.head?.join

/-- The same, for a request that may have failed. -/
def asked (self : LeasedRegion) (ps i : Nat) : LeasedRegion :=
  { self.logged ps i with faults := self.faults.tail }

/-- The region as the WRITE of page `i` finds it, after the READ of a page that is not in `order`. -/
def reached (self : LeasedRegion) (ps : Nat) (order : List Int) (i : Nat) : LeasedRegion :=
  if (i : Int) ∈ order then self else self.asked ps i

theorem reached_faults (self : LeasedRegion) (ps : Nat) (order : List Int) (i : Nat) :
    (self.reached ps order i).faults = if (i : Int) ∈ order then self.faults else self.faults.tail := by
  unfold reached
  split <;> rfl

theorem run_send {self : LeasedRegion} {ps i : Nat} (h : i * ps + ps ≤ self.memory.length) :
    (send (self.base + (i * ps : Nat)) ps).run self = match self.fault with
      | some e => .error e (self.asked ps i)
      | none => .ok () (self.asked ps i) := by
  obtain ⟨base, memory, faults, log⟩ := self
  have hin : ¬ ((base : Int) + (i * ps : Nat) < base ∨ (ps : Int) < 0 ∨
      (base : Int) + memory.length < (base : Int) + (i * ps : Nat) + ps) := by
    simp only at h
    omega
  have hsent : ∀ faults, (raiseIf ((base : Int) + (i * ps : Nat) < base ∨ (ps : Int) < 0 ∨
        (base : Int) + memory.length < (base : Int) + (i * ps : Nat) + ps)
        (.connectionError "remote provider disconnected") : EStateM Exc LeasedRegion Unit).run
      (LeasedRegion.asked ⟨base, memory, faults, log⟩ ps i) =
        .ok () (LeasedRegion.asked ⟨base, memory, faults, log⟩ ps i) := by
    intro faults
    rw [run_raiseIf, if_neg hin]
  rcases faults with _ | ⟨_ | e, faults⟩
  · exact hsent []
  · exact hsent (none :: faults)
  · rfl

theorem run_read {self : LeasedRegion} {ps i : Nat} (h : i * ps + ps ≤ self.memory.length) :
    (Api.region.read (self.base + (i * ps : Nat)) ps).run self = match self.fault with
      | some e => .error e (self.asked ps i)
      | none => .ok (sub self.memory (i * ps) ps) (self.asked ps i) := by
  simp only [Api.region, EStateM.run_bind, run_send h]
  cases self.fault with
  | some e => rfl
  | none =>
    have hoff : (self.base : Int) + (i * ps : Nat) - self.base = (i * ps : Nat) := by omega
    have hbase : (self.asked ps i).base = self.base := rfl
    simp only [EStateM.run_get, hbase, hoff, slice_nat]
    rfl

theorem run_write {self : LeasedRegion} {ps i : Nat} {data : Bytes} (hd : data.length = ps)
    (h : i * ps + ps ≤ self.memory.length) :
    (Api.region.write (self.base + (i * ps : Nat)) data).run self = match self.fault with
      | some e => .error e (self.asked ps i)
      | none => .ok () { self.asked ps i with memory := splice self.memory (i * ps) data } := by
  simp only [Api.region, EStateM.run_bind, hd, run_send h]
  cases self.fault with
  | some e => rfl
  | none =>
    have hoff : (self.base : Int) + (i * ps : Nat) - self.base = (i * ps : Nat) := by omega
    have hbase : (self.asked ps i).base = self.base := rfl
    have hmem : (self.asked ps i).memory = self.memory := rfl
    simp only [run_modify, hbase, hmem, hoff, setSlice_nat self.memory (i * ps) ps data hd h]

end LeasedRegion

namespace RemoteCache

-- `ps` is the page size, which no proof below computes with
variable {ps rs k : Nat} {order : List Int} {mem : Bytes} {s : RemoteCache × LeasedRegion}

/-- A page is read in one block. -/
theorem run_remoteRead {σ : Type} (api : Api σ) (c : RemoteCache) (t : σ) (p : Int) :
    (remoteRead api (p * page) page).run (c, t) = match (api.read (c.base + p * page) page).run t with
      | .ok d t' => .ok d (c, t')
      | .error e t' => .error e (c, t') := by
  have hblocks : blocks page = [0] := rfl
  have hmin : min maxBlock (page - 0) = page := rfl
  unfold remoteRead
  simp only [EStateM.run_bind, EStateM.run_get, hblocks, List.foldlM_cons, List.foldlM_nil, hmin,
    run_onSnd, Int.add_zero]
  cases (api.read (c.base + p * page) page).run t <;> rfl

/-- A page is written in one block. -/
theorem remoteWrite_page (hps : page = ps) (c : RemoteCache) (t : LeasedRegion) (i : Nat) {d : Bytes}
    (hd : d.length = ps) : (remoteWrite .region (i * page) d).run (c, t) =
      match (Api.region.write (c.base + (i * ps : Nat)) d).run t with
      | .ok () t' => .ok () (c, t')
      | .error e t' => .error e (c, t') := by
  have hblocks : blocks page = [0] := rfl
  have hle : page ≤ maxBlock := by decide
  have hwhole : slice d 0 (0 + maxBlock) = d := by
    obtain ⟨n, hn⟩ : ∃ n : Nat, maxBlock = n := ⟨1048576, rfl⟩
    have := slice_nat d 0 n
    rw [sub_all (by omega)] at this
    rw [hn]
    exact this
  unfold remoteWrite
  simp only [EStateM.run_bind, EStateM.run_get, hd, ← hps, hblocks, List.forM_cons, List.forM_nil,
    run_onSnd, Int.add_zero, hwhole]
  rw [Nat.cast_mul, ← hps]
  cases (Api.region.write (c.base + i * page) d).run t <;> rfl

theorem evictLoop_room {σ : Type} {c : RemoteCache} {t : σ} (fuel : Nat)
    (h : (c.pages.size : Int) ≤ c.capacity) : (evictLoop fuel).run (c, t) = .ok () (c, t) := by
  unfold evictLoop
  simp only [EStateM.run_bind, EStateM.run_get, if_pos h]
  rfl

/-- After one page has been added, the oldest goes if there is one too many. -/
theorem evictLoop_touch {σ : Type} {c : RemoteCache} {t : σ} {p : Int} (hk : 0 < k)
    (hcap : c.capacity = k) (hb : order.length ≤ k) (hnot : p ∉ order)
    (hkeys : c.pages.keys = order ++ [p]) :
    ∃ pages, (evictLoop c.pages.size).run (c, t) = .ok () ({ c with pages := pages }, t) ∧
      pages.keys = Lru.touch k order p ∧
      ∀ j, pages.get? j = if Lru.victim k order p = some j then none else c.pages.get? j := by
  have hsize : c.pages.size = order.length + 1 := by
    rw [← Dict.length_keys, hkeys, List.length_append, List.length_singleton]
  by_cases hfull : k ≤ order.length
  · obtain ⟨old, d, rest, hpop⟩ := Dict.popFirst_isSome (by omega : 0 < c.pages.size)
    have hcons : order ++ [p] = old :: rest.keys := hkeys ▸ Dict.keys_popFirst hpop
    have hold : Lru.victim k order p = some old ∧ rest.keys = order.tail ++ [p] := by
      rw [Lru.victim, if_neg hnot, if_pos hfull]
      cases order with
      | nil => simp only [List.length_nil] at hfull; omega
      | cons q qs =>
        rw [List.cons_append, List.cons.injEq] at hcons
        exact ⟨congrArg some hcons.1, hcons.2.symm⟩
    have hroom : (rest.size : Int) ≤ c.capacity := by
      have hlen := congrArg List.length hold.2
      rw [Dict.length_keys, List.length_append, List.length_tail, List.length_singleton] at hlen
      omega
    refine ⟨rest, ?_, by rw [Lru.touch_full hnot hfull, hold.2], fun j => ?_⟩
    · rw [hsize]
      unfold evictLoop
      simp only [EStateM.run_bind, EStateM.run_get,
        if_neg (by omega : ¬ (c.pages.size : Int) ≤ c.capacity), hpop, run_modifyFst]
      exact evictLoop_room (c := { c with pages := rest }) _ hroom
    · rw [(Dict.get?_popFirst hpop j).2, hold.1]
      simp only [Option.some.injEq, eq_comm]
  · refine ⟨c.pages, evictLoop_room _ (by omega), by rw [Lru.touch_room hnot hfull, hkeys], fun j => ?_⟩
    rw [Lru.victim, if_neg hnot, if_neg hfull]
    simp

theorem run_moveToEnd {σ : Type} {c : RemoteCache} {t : σ} {p : Int} {pages : Dict Int Bytes}
    (h : c.pages.moveToEnd p = some pages) :
    (moveToEnd p).run (c, t) = .ok () ({ c with pages := pages }, t) := by
  unfold moveToEnd
  simp only [EStateM.run_bind, EStateM.run_get, h, run_modifyFst]

theorem run_lookup {σ : Type} {c : RemoteCache} {t : σ} {p : Int} {d : Bytes}
    (h : c.pages.get? p = some d) : (lookup p).run (c, t) = .ok d (c, t) := by
  unfold lookup
  simp only [EStateM.run_bind, EStateM.run_get, h]
  rfl

/-- Loading a page whose READ raises. -/
theorem run_loadPage_raises {σ : Type} (api : Api σ) {c : RemoteCache} {t t' : σ} {p : Int} {e : Exc}
    (hread : (api.read (c.base + p * page) page).run t = .error e t') :
    (loadPage api p).run (c, t) = .error e (c, t') := by
  unfold loadPage
  simp only [EStateM.run_bind, run_remoteRead, hread]

/-- Loading a page that is not cached: it is put at the end, and the least recently used one leaves if
there is one too many. -/
theorem run_loadPage {σ : Type} (api : Api σ) {c : RemoteCache} {t t' : σ} {p : Int} {d : Bytes}
    (hk : 0 < k) (hcap : c.capacity = k) (hb : c.pages.keys.length ≤ k) (hnot : p ∉ c.pages.keys)
    (hread : (api.read (c.base + p * page) page).run t = .ok d t') :
    ∃ pages, (loadPage api p).run (c, t) = .ok () ({ c with pages := pages }, t') ∧
      pages.keys = Lru.touch k c.pages.keys p ∧
      ∀ j, pages.get? j = if Lru.victim k c.pages.keys p = some j then none
        else if j = p then some d else c.pages.get? j := by
  have hkeys : (c.pages.set p d).keys = c.pages.keys ++ [p] := Dict.keys_set_of_not_mem _ hnot
  obtain ⟨pages, hmove⟩ := Dict.moveToEnd_isSome
    (show p ∈ (c.pages.set p d).keys by rw [hkeys]; simp)
  have hkeys' : pages.keys = c.pages.keys ++ [p] := by
    have hself : c.pages.keys.filter (fun q => decide (q ≠ p)) = c.pages.keys :=
      List.filter_eq_self.mpr (fun q hq => decide_eq_true (fun he => hnot (he ▸ hq)))
    rw [Dict.keys_moveToEnd hmove, hkeys, List.filter_append, hself]
    simp
  obtain ⟨kept, hevict, hkept, hget⟩ := evictLoop_touch (c := { c with pages := pages })
    (t := t') hk hcap hb hnot hkeys'
  have hmv := run_moveToEnd (c := { c with pages := c.pages.set p d }) (t := t') hmove
  refine ⟨kept, ?_, hkept, fun j => ?_⟩
  · unfold loadPage
    simp only [EStateM.run_bind, run_remoteRead, hread, run_modifyFst, hmv, EStateM.run_get]
    exact hevict
  · rw [hget]
    simp only [Dict.get?_moveToEnd hmove, Dict.get?_set]

structure Tied (ps rs k : Nat) (order : List Int) (mem : Bytes) (s : RemoteCache × LeasedRegion) :
    Prop where
  base : s.1.base = s.2.base
  remoteSize : s.1.remoteSize = rs
  capacity : s.1.capacity = k
  memory : s.2.memory = mem
  length_mem : mem.length = rs
  keys : s.1.pages.keys = order
  bounded : order.length ≤ k
  resident : ∀ p d, s.1.pages.get? p = some d →
    ∃ i : Nat, p = i ∧ i * ps < rs ∧ d = pageAt ps rs mem i

namespace Tied

/-- Only the counters differ. -/
theorem counters (h : Tied ps rs k order mem s) (hits misses : Nat) :
    Tied ps rs k order mem ({ s.1 with hits := hits, misses := misses }, s.2) :=
  ⟨h.base, h.remoteSize, h.capacity, h.memory, h.length_mem, h.keys, h.bounded, h.resident⟩

/-- A request leaves the pages and the bytes as they are. -/
theorem asked (h : Tied ps rs k order mem s) (i : Nat) :
    Tied ps rs k order mem (s.1, s.2.asked ps i) :=
  ⟨h.base, h.remoteSize, h.capacity, h.memory, h.length_mem, h.keys, h.bounded, h.resident⟩

theorem get? (h : Tied ps rs k order mem s) {i : Nat} (hi : (i : Int) ∈ order) :
    s.1.pages.get? i = some (pageAt ps rs mem i) := by
  obtain ⟨d, hd⟩ := Dict.mem_keys.mp (show (i : Int) ∈ s.1.pages.keys by rw [h.keys]; exact hi)
  obtain ⟨j, hj, -, rfl⟩ := h.resident _ _ hd
  obtain rfl : i = j := by omega
  exact hd

theorem get?_none (h : Tied ps rs k order mem s) {p : Int} (hp : p ∉ order) :
    s.1.pages.get? p = none := by
  rw [Dict.get?_eq_none, h.keys]
  exact hp

theorem page_le (hrs : ps ∣ rs) (h : Tied ps rs k order mem s) {i : Nat} (hi : i * ps < rs) :
    i * ps + ps ≤ s.2.memory.length := by
  have hw := width_le ps rs i (Nat.le_of_lt hi)
  rw [width_of_dvd hrs hi] at hw
  rw [h.memory, h.length_mem]
  exact hw

end Tied

/-- The page size, which divides the length of every lease. -/
theorem page_dvd (remoteMb : Nat) : ∃ ps : Nat, page = ps ∧ 0 < ps ∧ ps ∣ remoteMb * 1048576 :=
  ⟨65536, rfl, by omega, Dvd.dvd.mul_left (by decide) _⟩

theorem init_tied (ps base : Nat) (memory : Bytes) (cacheMb : Int) (faults : List (Option Exc)) :
    ∃ k : Nat, 0 < k ∧ Tied ps memory.length k [] memory
      (init base memory.length cacheMb, ⟨base, memory, faults, []⟩) := by
  obtain ⟨k, hk⟩ := Int.eq_ofNat_of_zero_le
    (by omega : 0 ≤ max 1 (cacheMb * 1024 * 1024 / page))
  exact ⟨k, by omega, rfl, rfl, hk, rfl, rfl, rfl, Nat.zero_le _, by simp [init]⟩

/-! ## A turn of the loops -/

section Turn

variable {σ : Type}

theorem readLoop_done (api : Api σ) (fuel : Nat) (a : Int) (out : Bytes) :
    readLoop api fuel a ((0 : Nat) : Int) out = pure out := by
  unfold readLoop
  exact if_pos rfl

theorem writeLoop_done (api : Api σ) {data : Bytes} {pos : Nat} (h : data.length ≤ pos) (a : Int)
    (fuel : Nat) : writeLoop api a data fuel pos = pure () := by
  unfold writeLoop
  exact if_pos (by omega)

/-- A turn takes the bytes up to the end of the page, or of the range. -/
theorem readLoop_step (api : Api σ) (hps : page = ps) (hpos : 0 < ps) {n : Nat} (hn : 0 < n)
    (fuel a : Nat) (out : Bytes) :
    readLoop api (fuel + 1) a n out = (do
      let data ← readPage api ((a / ps : Nat) : Int)
      readLoop api fuel ((a + min n (ps - a % ps) : Nat) : Int) ((n - min n (ps - a % ps) : Nat) : Int)
        (out ++ sub data (a % ps) (min n (ps - a % ps)))) := by
  have ht := Nat.mod_lt a hpos
  have hmin : min (n : Int) ((ps : Int) - ((a % ps : Nat) : Int)) =
      ((min n (ps - a % ps) : Nat) : Int) := by omega
  have hrest : (n : Int) - ((min n (ps - a % ps) : Nat) : Int) =
      ((n - min n (ps - a % ps) : Nat) : Int) := by omega
  rw [readLoop, if_neg (by omega : ¬ (n : Int) = 0), hps]
  simp only [← Int.natCast_ediv, ← Int.natCast_emod, hmin, hrest, slice_nat, Int.natCast_add]

theorem writeLoop_step (api : Api σ) (hps : page = ps) (hpos : 0 < ps) {data : Bytes} {pos n : Nat}
    (hn : 0 < n) (hd : pos + n = data.length) (fuel a : Nat) :
    writeLoop api a data (fuel + 1) pos = (do
      writePage api (((a + pos) / ps : Nat) : Int) (((a + pos) % ps : Nat) : Int)
        ((min n (ps - (a + pos) % ps) : Nat) : Int) (sub data pos (min n (ps - (a + pos) % ps)))
      writeLoop api a data fuel ((pos + min n (ps - (a + pos) % ps) : Nat) : Int)) := by
  have ht := Nat.mod_lt (a + pos) hpos
  have hmin : min ((data.length : Int) - (pos : Int)) ((ps : Int) - (((a + pos) % ps : Nat) : Int)) =
      ((min n (ps - (a + pos) % ps) : Nat) : Int) := by omega
  rw [writeLoop, if_neg (by omega : ¬ (data.length : Int) ≤ (pos : Int)), hps]
  simp only [← Int.natCast_add, ← Int.natCast_ediv, ← Int.natCast_emod, hmin]
  simp only [Int.natCast_add, slice_nat]

end Turn

/-! ## Loading a page -/

theorem run_fetch (hps : page = ps) (hrs : ps ∣ rs) (h : Tied ps rs k order mem s) {i : Nat}
    (hi : i * ps < rs) : (Api.region.read (s.1.base + i * page) page).run s.2 = match s.2.fault with
      | some e => .error e (s.2.asked ps i)
      | none => .ok (pageAt ps rs mem i) (s.2.asked ps i) := by
  have hbase : s.1.base + i * page = s.2.base + (i * ps : Nat) := by rw [h.base, Nat.cast_mul, hps]
  rw [hbase, hps, LeasedRegion.run_read (h.page_le hrs hi), h.memory, pageAt, width_of_dvd hrs hi]

theorem loadPage_raises (hps : page = ps) (hrs : ps ∣ rs) (h : Tied ps rs k order mem s) {i : Nat}
    (hi : i * ps < rs) {e : Exc} (hf : s.2.fault = some e) :
    (loadPage .region i).run s = .error e (s.1, s.2.asked ps i) := by
  have hfetch := run_fetch hps hrs h hi
  rw [hf] at hfetch
  exact run_loadPage_raises .region hfetch

/-- Loading a page that is not cached. -/
theorem loadPage_ok (hps : page = ps) (hk : 0 < k) (hrs : ps ∣ rs) (h : Tied ps rs k order mem s)
    {i : Nat} (hi : i * ps < rs) (hnot : (i : Int) ∉ order) (hf : s.2.fault = none) :
    ∃ s', (loadPage .region i).run s = .ok () s' ∧ Tied ps rs k (Lru.touch k order i) mem s' ∧
      s'.2 = s.2.asked ps i := by
  have hfetch := run_fetch hps hrs h hi
  rw [hf] at hfetch
  obtain ⟨pages, hrun, hkeys, hget⟩ := run_loadPage .region hk h.capacity
    (by rw [h.keys]; exact h.bounded) (by rw [h.keys]; exact hnot) hfetch
  rw [h.keys] at hkeys hget
  refine ⟨_, hrun, ⟨h.base, h.remoteSize, h.capacity, h.memory, h.length_mem, hkeys,
    Lru.length_touch _ hk (h.keys ▸ Dict.keys_nodup _) h.bounded, fun j e he => ?_⟩, rfl⟩
  simp only [hget] at he
  split at he
  · cases he
  · split at he
    · rename_i hj
      cases he
      exact ⟨i, hj, hi, rfl⟩
    · exact h.resident j e he

/-- Moving a cached page to the end. -/
theorem moveToEnd_ok (h : Tied ps rs k order mem s) {p : Int} (hp : p ∈ order) :
    ∃ s', (moveToEnd p).run s = .ok () s' ∧
      Tied ps rs k (order.filter (fun q => decide (q ≠ p)) ++ [p]) mem s' ∧ s'.2 = s.2 := by
  obtain ⟨c, t⟩ := s
  have hc : c.pages.keys = order := h.keys
  obtain ⟨pages, hmove⟩ := Dict.moveToEnd_isSome (show p ∈ c.pages.keys by rw [hc]; exact hp)
  have hkeys := Dict.keys_moveToEnd hmove
  rw [hc] at hkeys
  have hsame : (order.filter (fun q => decide (q ≠ p)) ++ [p]).length = order.length := by
    rw [← hkeys, Dict.length_keys, Dict.size_congr (Dict.get?_moveToEnd hmove), ← Dict.length_keys, hc]
  refine ⟨_, run_moveToEnd hmove, ⟨h.base, h.remoteSize, h.capacity, h.memory, h.length_mem,
    hkeys, by rw [hsame]; exact h.bounded, fun j e he => ?_⟩, rfl⟩
  simp only [Dict.get?_moveToEnd hmove] at he
  exact h.resident j e he

/-! ## Reading a page -/

theorem readPage_ok (hps : page = ps) (hk : 0 < k) (hrs : ps ∣ rs) (h : Tied ps rs k order mem s)
    {i : Nat} (hi : i * ps < rs) (hf : (i : Int) ∈ order ∨ s.2.fault = none) :
    ∃ s', (readPage .region i).run s = .ok (pageAt ps rs mem i) s' ∧
      Tied ps rs k (Lru.touch k order i) mem s' ∧ (s'.2 = s.2 ∨ s'.2 = s.2.asked ps i) := by
  by_cases hmem : (i : Int) ∈ order
  · have hget := h.get? hmem
    obtain ⟨s', hmove, h', ht⟩ := moveToEnd_ok (h.counters (s.1.hits + 1) s.1.misses) hmem
    refine ⟨s', ?_, by rw [Lru.touch_hit k hmem]; exact h', .inl ht⟩
    unfold readPage
    simp only [EStateM.run_bind, EStateM.run_get, hget, run_modifyFst, hmove]
    rfl
  · have hget := h.get?_none hmem
    obtain ⟨s', hload, h', ht⟩ := loadPage_ok hps hk hrs (h.counters s.1.hits (s.1.misses + 1)) hi hmem
      (hf.resolve_left hmem)
    refine ⟨s', ?_, h', .inr ht⟩
    unfold readPage
    simp only [EStateM.run_bind, EStateM.run_get, hget, run_modifyFst, hload]
    exact run_lookup (h'.get? (Lru.mem_touch_self k order (i : Int)))

theorem readPage_raises (hps : page = ps) (hrs : ps ∣ rs) (h : Tied ps rs k order mem s) {i : Nat}
    (hi : i * ps < rs) (hnot : (i : Int) ∉ order) {e : Exc} (hf : s.2.fault = some e) :
    ∃ s', (readPage .region i).run s = .error e s' ∧ Tied ps rs k order mem s' := by
  have h' := h.counters s.1.hits (s.1.misses + 1)
  refine ⟨_, ?_, h'.asked i⟩
  unfold readPage
  simp only [EStateM.run_bind, EStateM.run_get, h.get?_none hnot, run_modifyFst,
    loadPage_raises hps hrs h' hi hf]

/-! ## Writing a page -/

/-- The state in which a write to page `i` changes the cached page. -/
theorem cached_ok (hps : page = ps) (hk : 0 < k) (hrs : ps ∣ rs) (h : Tied ps rs k order mem s)
    {i : Nat} (hi : i * ps < rs) (hf : (i : Int) ∈ order ∨ s.2.fault = none) :
    ∃ s0 order0, Tied ps rs k order0 mem s0 ∧ (i : Int) ∈ order0 ∧
      order0.filter (fun q => decide (q ≠ (i : Int))) ++ [(i : Int)] = Lru.touch k order i ∧
      s0.2 = s.2.reached ps order i ∧
      ((∃ d, s.1.pages.get? i = some d ∧ s0 = ({ s.1 with hits := s.1.hits + 1 }, s.2)) ∨
        (s.1.pages.get? i = none ∧
          (loadPage .region i).run ({ s.1 with misses := s.1.misses + 1 }, s.2) = .ok () s0)) := by
  by_cases hmem : (i : Int) ∈ order
  · exact ⟨_, order, h.counters (s.1.hits + 1) s.1.misses, hmem, (Lru.touch_hit k hmem).symm,
      (if_pos hmem).symm, .inl ⟨_, h.get? hmem, rfl⟩⟩
  · obtain ⟨s0, hload, h0, ht⟩ := loadPage_ok hps hk hrs (h.counters s.1.hits (s.1.misses + 1)) hi hmem
      (hf.resolve_left hmem)
    exact ⟨s0, _, h0, Lru.mem_touch_self k order (i : Int), Lru.filter_touch k order (i : Int),
      ht.trans (if_neg hmem).symm, .inr ⟨h.get?_none hmem, hload⟩⟩

/-- A write to page `p` whose page is cached, once it has been loaded. -/
theorem run_writePage {σ : Type} {api : Api σ} {s s0 : RemoteCache × σ} {p inside n : Int}
    {d data bytes : Bytes} (hmem : (∃ e, s.1.pages.get? p = some e ∧
        s0 = ({ s.1 with hits := s.1.hits + 1 }, s.2)) ∨
      (s.1.pages.get? p = none ∧
        (loadPage api p).run ({ s.1 with misses := s.1.misses + 1 }, s.2) = .ok () s0))
    (hget : s0.1.pages.get? p = some d) (hbytes : setSlice d inside (inside + n) data = bytes) :
    (writePage api p inside n data).run s =
      match (remoteWrite api (p * page) bytes).run
        ({ s0.1 with pages := s0.1.pages.modify p (fun _ => bytes) }, s0.2) with
      | .ok _ s1 => (moveToEnd p).run s1
      | .error e s1 => .error e s1 := by
  unfold writePage
  rcases hmem with ⟨e, hp, rfl⟩ | ⟨hp, hload⟩
  · simp only [EStateM.run_bind, EStateM.run_get, hp, run_modifyFst, run_lookup hget, hbytes]
    split <;> rename_i hw <;> rw [hw]
  · simp only [EStateM.run_bind, EStateM.run_get, hp, run_modifyFst, hload, run_lookup hget, hbytes]
    split <;> rename_i hw <;> rw [hw]

/-- The READ of the page fails: nothing has changed. -/
theorem writePage_unread (hps : page = ps) (hrs : ps ∣ rs) (h : Tied ps rs k order mem s) {i : Nat}
    (hi : i * ps < rs) (hnot : (i : Int) ∉ order) {e : Exc} (hf : s.2.fault = some e)
    (inside n : Int) (data : Bytes) :
    ∃ s', (writePage .region i inside n data).run s = .error e s' ∧ Tied ps rs k order mem s' := by
  have h' := h.counters s.1.hits (s.1.misses + 1)
  refine ⟨_, ?_, h'.asked i⟩
  unfold writePage
  simp only [EStateM.run_bind, EStateM.run_get, h.get?_none hnot, run_modifyFst,
    loadPage_raises hps hrs h' hi hf]

section Write

variable {i inside : Nat} {data bytes : Bytes}

/-- The new bytes of a page, as the code computes them. -/
theorem setSlice_pageAt (hrs : ps ∣ rs) (hlen : mem.length = rs) (hi : i * ps < rs)
    (hin : inside + data.length ≤ ps) :
    setSlice (pageAt ps rs mem i) (inside : Int) (inside + data.length) data =
      splice (pageAt ps rs mem i) inside data := by
  refine setSlice_nat _ _ _ _ rfl ?_
  rw [length_pageAt hlen.ge (Nat.le_of_lt hi), width_of_dvd hrs hi]
  exact hin

/-- Sending the new bytes of a page. -/
theorem run_sendPage (hps : page = ps) (hrs : ps ∣ rs) (h : Tied ps rs k order mem s) (hi : i * ps < rs)
    (hin : inside + data.length ≤ ps) (hb : splice (pageAt ps rs mem i) inside data = bytes) :
    (remoteWrite .region (i * page) bytes).run
        ({ s.1 with pages := s.1.pages.modify i (fun _ => bytes) }, s.2) =
      match s.2.fault with
      | some e => .error e ({ s.1 with pages := s.1.pages.modify i (fun _ => bytes) }, s.2.asked ps i)
      | none => .ok () ({ s.1 with pages := s.1.pages.modify i (fun _ => bytes) },
          { s.2.asked ps i with memory := splice mem (i * ps + inside) data }) := by
  obtain ⟨c, t⟩ := s
  have hbase : c.base = t.base := h.base
  have hm : t.memory = mem := h.memory
  have hlen := h.length_mem
  have hw := width_le ps rs i (Nat.le_of_lt hi)
  have hfull := width_of_dvd hrs hi
  have hpage : (pageAt ps rs mem i).length = ps := by
    rw [length_pageAt hlen.ge (Nat.le_of_lt hi), hfull]
  have hnew : bytes.length = ps := by rw [← hb, length_splice (by omega), hpage]
  have hall : splice mem (i * ps) bytes = splice mem (i * ps + inside) data := by
    rw [← hb, pageAt, splice_splice_sub (by omega) (by omega)]
  rw [remoteWrite_page hps _ _ i hnew]
  simp only [hbase, LeasedRegion.run_write hnew (h.page_le hrs hi), hm, hall]
  cases t.fault <;> rfl

/-- The page and the region after the new bytes have been stored. -/
theorem Tied.stored (hrs : ps ∣ rs) (h : Tied ps rs k order mem s) (hi : i * ps < rs)
    (hmem : (i : Int) ∈ order) (hin : inside + data.length ≤ ps)
    (hb : splice (pageAt ps rs mem i) inside data = bytes) :
    Tied ps rs k order (splice mem (i * ps + inside) data)
      ({ s.1 with pages := s.1.pages.modify i (fun _ => bytes) },
        { s.2.asked ps i with memory := splice mem (i * ps + inside) data }) := by
  have hlen := h.length_mem
  have hw := width_le ps rs i (Nat.le_of_lt hi)
  have hin' : inside + data.length ≤ width ps rs i := by rw [width_of_dvd hrs hi]; exact hin
  refine ⟨h.base, h.remoteSize, h.capacity, rfl, by rw [length_splice (by omega), hlen],
    by rw [Dict.keys_modify]; exact h.keys, h.bounded, fun p d hd => ?_⟩
  simp only [Dict.get?_modify] at hd
  split at hd
  · -- the changed page
    rename_i hp
    rw [hp, h.get? hmem, Option.map_some, Option.some.injEq] at hd
    refine ⟨i, hp, hi, ?_⟩
    rw [pageAt_splice_self hlen (Nat.le_of_lt hi) hin', hb, hd]
  · rename_i hp
    obtain ⟨j, hj, hjl, rfl⟩ := h.resident p d hd
    exact ⟨j, hj, hjl, (pageAt_splice_other hlen.ge (Nat.le_of_lt hi) hin' (by omega)).symm⟩

theorem writePage_ok (hps : page = ps) (hk : 0 < k) (hrs : ps ∣ rs) (h : Tied ps rs k order mem s)
    {n : Nat} (hi : i * ps < rs) (hn : data.length = n) (hin : inside + n ≤ ps)
    (hread : (i : Int) ∈ order ∨ s.2.fault = none) (hwrite : (s.2.reached ps order i).fault = none) :
    ∃ s', (writePage .region i inside n data).run s = .ok () s' ∧
      Tied ps rs k (Lru.touch k order i) (splice mem (i * ps + inside) data) s' ∧
      s'.2 = { (s.2.reached ps order i).asked ps i with
        memory := splice mem (i * ps + inside) data } := by
  subst hn
  obtain ⟨s0, order0, h0, hmem0, htouch, ht0, hcached⟩ := cached_ok hps hk hrs h hi hread
  have hset := setSlice_pageAt hrs h.length_mem hi hin
  have hsend := run_sendPage hps hrs h0 hi hin rfl
  rw [ht0, hwrite] at hsend
  obtain ⟨s', hmove, h', ht⟩ := moveToEnd_ok (h0.stored hrs hi hmem0 hin rfl) hmem0
  rw [ht0] at hmove ht
  refine ⟨s', ?_, by rw [← htouch]; exact h', ht⟩
  rw [run_writePage hcached (h0.get? hmem0) hset, ht0, hsend]
  exact hmove

/-- The WRITE of the page fails: the cached page has the new bytes, the region the old ones. -/
theorem writePage_unsent (hps : page = ps) (hk : 0 < k) (hrs : ps ∣ rs) (h : Tied ps rs k order mem s)
    {n : Nat} (hi : i * ps < rs) (hn : data.length = n) (hin : inside + n ≤ ps)
    (hread : (i : Int) ∈ order ∨ s.2.fault = none) {e : Exc}
    (hwrite : (s.2.reached ps order i).fault = some e) :
    ∃ s', (writePage .region i inside n data).run s = .error e s' ∧ s'.2.memory = mem ∧
      s'.1.pages.get? i = some (splice (pageAt ps rs mem i) inside data) ∧
      (splice (pageAt ps rs mem i) inside data = pageAt ps rs mem i →
        ∃ order', Tied ps rs k order' mem s') := by
  subst hn
  obtain ⟨s0, order0, h0, hmem0, -, ht0, hcached⟩ := cached_ok hps hk hrs h hi hread
  have hset := setSlice_pageAt hrs h.length_mem hi hin
  have hsend := run_sendPage hps hrs h0 hi hin rfl
  rw [ht0, hwrite] at hsend
  have hget : ∀ p, (s0.1.pages.modify (i : Int) (fun _ => splice (pageAt ps rs mem i) inside data)).get? p =
      if p = i then some (splice (pageAt ps rs mem i) inside data) else s0.1.pages.get? p := by
    intro p
    rw [Dict.get?_modify]
    by_cases hp : p = i
    · rw [if_pos hp, if_pos hp, hp, h0.get? hmem0, Option.map_some]
    · rw [if_neg hp, if_neg hp]
  refine ⟨_, (run_writePage hcached (h0.get? hmem0) hset).trans (by rw [ht0, hsend]), ?_, ?_,
    fun hsame => ⟨order0, ?_⟩⟩
  · rw [← ht0]
    exact h0.memory
  · show Dict.get? _ _ = _
    rw [hget, if_pos rfl]
  · rw [← ht0]
    refine ⟨h0.base, h0.remoteSize, h0.capacity, h0.memory, h0.length_mem,
      by rw [Dict.keys_modify]; exact h0.keys, h0.bounded, fun p d hd => ?_⟩
    simp only [hget] at hd
    split at hd
    · rename_i hp
      rw [hsame] at hd
      cases hd
      exact ⟨i, hp, hi, rfl⟩
    · exact h0.resident p d hd

end Write

end RemoteCache

end RamLink
