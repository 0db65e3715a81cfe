import Mathlib.Data.Finset.Card
import RamLink.CacheManager
import RamLink.MemoryApi
import RamLink.MemoryService.Clients
import RamLink.RemoteCache.Coherence
import RamLink.RemoteCache.Order
import RamLink.WriteBack.Order

/-!
# RamLink.Eviction

What is resident in the three page caches, in terms of the history of calls alone.

`PageCache` is a cache as its user sees it. `LeastRecentUse k request history keys log`: `keys` are the
`k` pages touched last in `history`, and `log` are the requests of the pages that were touched while
they were not among the `k` touched last.

`least_recent_use`: every run of in-range calls that return leaves each of the caches so.
`remoteMemoryCache_serviced` and `cache_serviced` are the two write-back caches over the memory service.
-/

namespace RamLink

open Lib

/-- A cache in the state `κ`. -/
structure PageCache (κ : Type) where
  read : Int → Int → EStateM Exc κ Bytes
  write : Int → Bytes → EStateM Exc κ Unit

namespace PageCache

variable {σ κ : Type}

def remoteMemoryCache (api : Api σ) (fuel : Nat) : PageCache (WriteBack × σ) :=
  ⟨RemoteMemoryCache.read api fuel, RemoteMemoryCache.write api fuel⟩

def cache (service : Api σ) (fuel : Nat) : PageCache (WriteBack × σ) :=
  ⟨Cache.read service fuel, Cache.write service fuel⟩

def remoteCache (api : Api σ) (fuel : Nat) : PageCache (RemoteCache × σ) :=
  ⟨RemoteCache.read api fuel, RemoteCache.write api fuel⟩

open RemoteCache (Call)

def call (self : PageCache κ) : Call → EStateM Exc κ Unit
  | .read offset length => discard (self.read offset length)
  | .write offset data => self.write offset data

/-- The calls in order, as long as they return. -/
def run (self : PageCache κ) : List Call → EStateM Exc κ Unit
  | [] => return
  | call :: calls => do
    self.call call
    self.run calls

/-- The pages that the byte range of a call meets. -/
def touches (ps : Nat) : Call → List Int
  | .read offset length => pagesOf ps offset.toNat length.toNat
  | .write offset data => pagesOf ps offset.toNat data.length

/-- A cache keeps `P`, which says what the history of touched pages is to the state. -/
structure Keeps (c : PageCache κ) (ps rs : Nat) (P : List Int → κ → Prop) : Prop where
  reads : ∀ {history : List Int} {s t : κ} {a n : Nat} {bytes : Bytes}, a + n ≤ rs → P history s →
    (c.read a n).run s = .ok bytes t → P (history ++ pagesOf ps a n) t
  writes : ∀ {history : List Int} {s t : κ} {a : Nat} {data : Bytes} {u : Unit}, a + data.length ≤ rs →
    P history s → (c.write a data).run s = .ok u t → P (history ++ pagesOf ps a data.length) t

variable {c : PageCache κ} {ps rs k : Nat} {P : List Int → κ → Prop} {history : List Int} {s t : κ}
  {u : Unit}

theorem Keeps.call (h : c.Keeps ps rs P) {call : Call} (hin : call.InRange rs) (hs : P history s)
    (hrun : (c.call call).run s = .ok u t) : P (history ++ touches ps call) t := by
  cases call with
  | read offset length =>
    obtain ⟨h1, h2, h3⟩ := hin
    obtain ⟨a, rfl⟩ := Int.eq_ofNat_of_zero_le h1
    obtain ⟨n, rfl⟩ := Int.eq_ofNat_of_zero_le h2
    obtain ⟨bytes, t', hread, hrun⟩ := run_bind_ok.mp hrun
    cases hrun
    exact h.reads (by omega) hs hread
  | write offset data =>
    obtain ⟨h1, h2⟩ := hin
    obtain ⟨a, rfl⟩ := Int.eq_ofNat_of_zero_le h1
    exact h.writes (by omega) hs hrun

theorem Keeps.run (h : c.Keeps ps rs P) (calls : List Call) : ∀ {history : List Int} {s : κ},
    (∀ call ∈ calls, call.InRange rs) → P history s → (c.run calls).run s = .ok u t →
    P (history ++ calls.flatMap (touches ps)) t := by
  induction calls with
  | nil =>
    intro history s _ hs hrun
    cases hrun
    rw [List.flatMap_nil, List.append_nil]
    exact hs
  | cons call calls ih =>
    intro history s hin hs hrun
    obtain ⟨v, s', hcall, hrun⟩ := run_bind_ok.mp hrun
    have hs' := h.call (hin call (List.mem_cons_self ..)) hs hcall
    rw [List.flatMap_cons, ← List.append_assoc]
    exact ih (fun call hc => hin call (List.mem_cons_of_mem _ hc)) hs' hrun

/-! ## The three caches -/

variable {api : Api σ}

theorem writeBack_keeps {Inv : σ → Prop} (kind : Kind) (hapi : api.ExactOn Inv ps rs) (hk : 0 < k)
    (hps : 0 < ps) (fuel : Nat) :
    Keeps ⟨WriteBack.read kind api.logged fuel, WriteBack.write kind api.logged fuel⟩ ps rs
      (WriteBack.Ordered Inv ps rs k) :=
  ⟨fun hr hs hrun => WriteBack.read_ordered kind hapi hk hps hr hs hrun,
    fun hr hs hrun => WriteBack.write_ordered kind hapi hk hps hr hs hrun⟩

theorem remoteMemoryCache_keeps {Inv : σ → Prop} (hapi : api.ExactOn Inv ps rs) (hk : 0 < k) (hps : 0 < ps)
    (fuel : Nat) : (remoteMemoryCache api.logged fuel).Keeps ps rs (WriteBack.Ordered Inv ps rs k) :=
  writeBack_keeps _ hapi hk hps fuel

theorem cache_keeps {Inv : σ → Prop} (hapi : api.ExactOn Inv ps rs) (hk : 0 < k) (hps : 0 < ps)
    (fuel : Nat) : (cache api.logged fuel).Keeps ps rs (WriteBack.Ordered Inv ps rs k) :=
  writeBack_keeps _ hapi hk hps fuel

theorem remoteCache_keeps {b : Int} (hpage : RemoteCache.page = ps) (hk : 0 < k) (hps : 0 < ps)
    (fuel : Nat) : (remoteCache api.logged fuel).Keeps ps rs (RemoteCache.Ordered b rs k) :=
  ⟨fun _ hs hrun => RemoteCache.read_ordered hpage hps hk hs hrun,
    fun _ hs hrun => RemoteCache.write_ordered hpage hps hk hs hrun⟩

/-- What the order of the pages and the requests say of the history. -/
structure LeastRecentUse (k : Nat) (request : Int → Transfer) (history keys : List Int)
    (log : List Transfer) : Prop where
  /-- The pages in the order of their last touch, and of these the last `k`. -/
  order : keys = Lru.recent k history
  size : keys.length = min k history.toFinset.card
  fetched : log = (Lru.fetches k [] history).map request

theorem LeastRecentUse.of {request : Int → Transfer} {keys : List Int} {log : List Transfer}
    (hkeys : keys = Lru.recent k history) (hlog : log = (Lru.fetches k [] history).map request) :
    LeastRecentUse k request history keys log :=
  ⟨hkeys, by rw [hkeys, Lru.length_recent, List.card_toFinset], hlog⟩

/-- The pages of the three caches after any calls in range that return. The two write-back caches take
what a read answers for the page, so they ask the remote for answers of the length asked for, from the
state on that it is in at first. -/
theorem least_recent_use (api : Api σ) (Inv : σ → Prop) (t : σ) (rs k : Nat) (hk : 1 ≤ k) (fuel : Nat)
    (calls : List Call) (hin : ∀ call ∈ calls, call.InRange rs) :
    (∀ ps : Nat, 0 < ps → api.ExactOn Inv ps rs → Inv t → ∀ s,
      ((remoteMemoryCache api.logged fuel).run calls).run (WriteBack.empty ps rs k, (t, [])) = .ok () s →
        LeastRecentUse k (WriteBack.pageRequest ps rs) (calls.flatMap (touches ps)) s.1.pages.keys s.2.2) ∧
    (api.ExactOn Inv 65536 rs → Inv t → ∀ s,
      ((cache api.logged fuel).run calls).run (WriteBack.empty Cache.pageSize rs k, (t, [])) = .ok () s →
        LeastRecentUse k (WriteBack.pageRequest Cache.pageSize rs) (calls.flatMap (touches 65536))
          s.1.pages.keys s.2.2) ∧
    ∀ (base : Int) s,
      ((remoteCache api.logged fuel).run calls).run (⟨base, rs, k, .empty, 0, 0⟩, (t, [])) = .ok () s →
        LeastRecentUse k (RemoteCache.pageRequest base) (calls.flatMap (touches 65536))
          s.1.pages.keys s.2.2 := by
  refine ⟨fun ps hps hapi ht s hrun => ?_, fun hapi ht s hrun => ?_, fun base s hrun => ?_⟩
  · have h := (remoteMemoryCache_keeps hapi hk hps fuel).run calls hin
      (WriteBack.Ordered.start ps rs k ht) hrun
    exact .of h.keys h.log
  · have h := (cache_keeps hapi hk (by decide : 0 < 65536) fuel).run calls hin
      (WriteBack.Ordered.start 65536 rs k ht) hrun
    exact .of h.keys h.log
  · have h := (remoteCache_keeps (by decide : RemoteCache.page = (65536 : Nat)) hk (by decide) fuel).run
      calls hin (RemoteCache.Ordered.start base rs k t) hrun
    exact .of h.keys h.log

/-- With room for two of three pages, each page is fetched when it is touched and not among the last two; a
remote of less than a page has one, fetched once; and with room for one page each touch of another is a
request. -/
theorem least_recent_use_pages :
    (∃ s, ((remoteMemoryCache Api.faulty.logged 4).run [.write 1 [7, 8], .read 0 1, .read 4 2, .read 2 1]).run
        (WriteBack.empty (2 : Nat) (6 : Nat) (2 : Nat), (⟨[1, 2, 3, 4, 5, 6], [], []⟩, [])) = .ok () s ∧
      LeastRecentUse 2 (WriteBack.pageRequest (2 : Nat) (6 : Nat)) [0, 1, 0, 2, 1] s.1.pages.keys s.2.2 ∧
      s.1.pages.keys = [2, 1] ∧ s.2.2 = [⟨0, 2⟩, ⟨2, 2⟩, ⟨4, 2⟩, ⟨2, 2⟩]) ∧
    (∃ s, ((cache Api.faulty.logged 4).run [.write 1 [7, 8], .read 0 1]).run
        (WriteBack.empty Cache.pageSize (4 : Nat) (1 : Nat), (⟨[1, 2, 3, 4], [], []⟩, [])) = .ok () s ∧
      LeastRecentUse 1 (WriteBack.pageRequest Cache.pageSize (4 : Nat)) [0, 0] s.1.pages.keys s.2.2) ∧
    ∃ s, ((remoteCache Api.array.logged 4).run [.read 65535 2, .read 0 1]).run
        (⟨0, (131072 : Nat), (1 : Nat), .empty, 0, 0⟩, (List.replicate 131072 0, [])) = .ok () s ∧
      LeastRecentUse 1 (RemoteCache.pageRequest 0) [0, 1, 0] s.1.pages.keys s.2.2 := by
  obtain ⟨u, s, hrun⟩ := exists_of_returned (by decide +kernel : returned (((remoteMemoryCache
    Api.faulty.logged 4).run [.write 1 [7, 8], .read 0 1, .read 4 2, .read 2 1]).run
      (WriteBack.empty (2 : Nat) (6 : Nat) (2 : Nat), (⟨[1, 2, 3, 4, 5, 6], [], []⟩, []))) = true)
  obtain ⟨v, t, hcache⟩ := exists_of_returned (by decide +kernel : returned (((cache Api.faulty.logged
    4).run [.write 1 [7, 8], .read 0 1]).run
      (WriteBack.empty Cache.pageSize (4 : Nat) (1 : Nat), (⟨[1, 2, 3, 4], [], []⟩, []))) = true)
  obtain ⟨w, r, hremote⟩ := exists_of_returned (by decide +kernel : returned (((remoteCache Api.array.logged
    4).run [.read 65535 2, .read 0 1]).run
      (⟨0, (131072 : Nat), (1 : Nat), .empty, 0, 0⟩, (List.replicate 131072 0, []))) = true)
  have h := (least_recent_use Api.faulty (fun _ => True) ⟨[1, 2, 3, 4, 5, 6], [], []⟩ 6 2 (by decide) 4 _
    (by decide)).1 2 (by decide) (WriteBack.faulty_exact.exactOn 2 6) trivial s hrun
  have hcache' := (least_recent_use Api.faulty (fun _ => True) ⟨[1, 2, 3, 4], [], []⟩ 4 1 (by decide) 4 _
    (by decide)).2.1 (WriteBack.faulty_exact.exactOn 65536 4) trivial t hcache
  have hremote' := (least_recent_use Api.array (fun _ => True) (List.replicate 131072 0) 131072 1 (by decide)
    4 _ (by decide)).2.2 0 r hremote
  have htouched : [Call.write 1 [7, 8], .read 0 1, .read 4 2, .read 2 1].flatMap (touches 2) = [0, 1, 0, 2, 1] := by
    decide
  have htouched' : [Call.write 1 [7, 8], .read 0 1].flatMap (touches 65536) = [0, 0] := by decide +kernel
  have htouched'' : [Call.read 65535 2, .read 0 1].flatMap (touches 65536) = [0, 1, 0] := by
    decide +kernel
  rw [htouched] at h
  rw [htouched'] at hcache'
  rw [htouched''] at hremote'
  exact ⟨⟨s, hrun, h, h.order.trans (by decide), h.fetched.trans (by decide)⟩, ⟨t, hcache, hcache'⟩,
    r, hremote, hremote'⟩

/-- `RemoteMemoryCache` over `RemoteAPI` over the memory service, which gets its commands whole. -/
theorem remoteMemoryCache_serviced (status : RemoteMemory × Net → List Bytes) (text : Exc → Option Bytes)
    (htext : ∀ e message, text e = some message → message.length < 2 ^ 30)
    {service : LocalService (RemoteMemory × Net)} (hwhole : service.Whole rs) (hk : 0 < k) (hps : 0 < ps)
    (hlimit : (ps : Int) ≤ LocalApi.maxTransfer) {fuel : Nat} {calls : List Call}
    (hin : ∀ call ∈ calls, call.InRange rs)
    {s : WriteBack × (LocalService (RemoteMemory × Net) × List Transfer)}
    (hrun : ((remoteMemoryCache (RemoteAPI.api (RemoteMemory.memory status) text).logged fuel).run calls).run
      (WriteBack.empty ps rs k, (service, [])) = .ok () s) :
    LeastRecentUse k (WriteBack.pageRequest ps rs) (calls.flatMap (touches ps)) s.1.pages.keys s.2.2 := by
  have hapi := RemoteAPI.api_exactOn (RemoteMemory.memory status) text
    (fun offset length m m' d h => RemoteMemory.read_length h) htext hlimit rs
  have h := (remoteMemoryCache_keeps hapi hk hps fuel).run calls hin
    (WriteBack.Ordered.start ps rs k hwhole) hrun
  exact .of h.keys h.log

/-- `_Cache` over `_Service`, whatever is on the other side. -/
theorem cache_serviced {μ : Type} (memory : Memory μ) (text : Exc → Option Bytes) {service : LocalService μ}
    (hk : 0 < k) {fuel : Nat} {calls : List Call} (hin : ∀ call ∈ calls, call.InRange rs)
    {s : WriteBack × (LocalService μ × List Transfer)}
    (hrun : ((cache (Service.api memory text).logged fuel).run calls).run
      (WriteBack.empty Cache.pageSize rs k, (service, [])) = .ok () s) :
    LeastRecentUse k (WriteBack.pageRequest Cache.pageSize rs) (calls.flatMap (touches 65536)) s.1.pages.keys
      s.2.2 := by
  have hapi := (Service.api_exact memory text).exactOn 65536 rs
  have h := (cache_keeps hapi hk (by decide : 0 < 65536) fuel).run calls hin
    (WriteBack.Ordered.start 65536 rs k trivial) hrun
  exact .of h.keys h.log

end PageCache

end RamLink
