import RamLink.CacheManager
import RamLink.MemoryService.Apis
import RamLink.WriteBack.Simulation

/-!
# RamLink.CacheManager.Served

`RemoteMemoryCache` down to the memory of the local service: the cache over `RemoteAPI`, over `LocalApi`, over
any memory that keeps a region, however each connection fares.

`served_like_array`: every run of calls is a run over a byte array whose requests fail now and then, so the cache
stays coherent.
-/

namespace RamLink

open Lib WriteBack

namespace RemoteMemoryCache

/-- A call, of any fuel, and the bytes that it returns, if any. -/
def Call.perform {σ : Type} (api : Api σ) : Nat × Call → CacheM σ (Option Bytes)
  | (fuel, .read offset length) => do return some (← RemoteMemoryCache.read api fuel offset length)
  | (fuel, .write offset data) => do
    RemoteMemoryCache.write api fuel offset data
    return none
  | (_, .flush order) => do
    RemoteMemoryCache.flush api order
    return none

variable {σ : Type} {api : Api σ} {limit : Nat} {Good : σ → Prop} {region : σ → Bytes} {ps rs k : Int}

/-- What every call over the array keeps. -/
theorem call_ends (hk : 0 < k) (hps : ps ≠ 0) (call : Nat × Call) {s : WriteBack × FaultyArray}
    (h : Sound ps rs k s) : Ends (Call.perform .faulty call) (fun _ => Sound ps rs k) (Sound ps rs k) s := by
  obtain ⟨fuel, call⟩ := call
  cases call with
  | read offset length => exact .bind (read_ends kind hk hps fuel h offset length) fun _ _ ht => .pure ht
  | write offset data => exact .bind (write_ends kind hk hps fuel h offset data) fun _ _ ht => .pure ht
  | flush order =>
    refine .bind (flush_ends h order) fun _ t ht => .pure ?_
    unfold Sound
    rw [ht.2]
    exact ht.1

theorem call_simulates (hapi : api.Serves limit Good region) (hk : 0 < k) (hps : 0 < ps) (hlimit : ps ≤ limit)
    (call : Nat × Call) {s : WriteBack × σ} (hs : Serving Good region rs s.2) (h : SoundOver region ps rs k s) :
    Follows Good region rs (Call.perform api call) (Call.perform .faulty call) s := by
  obtain ⟨fuel, call⟩ := call
  cases call with
  | read offset length =>
    exact .seq (read_simulates kind hapi hk hps hlimit fuel hs h offset length) fun _ _ ht => .pure ht
  | write offset data =>
    exact .seq (write_simulates kind hapi hk hps hlimit fuel hs h offset data) fun _ _ ht => .pure ht
  | flush order => exact .seq (flush_simulates hapi hlimit hs h order) fun _ _ ht => .pure ht

/-- A run over anything that serves a region is a run over an array. -/
theorem run_like_array (hapi : api.Serves limit Good region) (hk : 0 < k) (hps : 0 < ps) (hlimit : ps ≤ limit)
    {s : WriteBack × σ} (hs : Serving Good region rs s.2) (h : SoundOver region ps rs k s)
    (calls : List (Nat × Call)) :
    (Serving Good region rs (trace (Call.perform api) calls s).2.2 ∧
      SoundOver region ps rs k (trace (Call.perform api) calls s).2) ∧
    ∃ reads writes, trace (Call.perform .faulty) calls (s.1, ⟨region s.2, reads, writes⟩) =
      ((trace (Call.perform api) calls s).1, seen region (trace (Call.perform api) calls s).2) := by
  obtain ⟨hs', hrun⟩ := Simulates.trace (J := Sound ps rs k) (fun call t ht hj =>
    call_simulates hapi hk hps hlimit call ht (.of_beside hj)) (fun call t' hj => call_ends hk hps.ne' call hj)
    calls s hs fun s' hs' => h.beside hs'
  obtain ⟨hj, ⟨c, t⟩, ⟨rfl, ht⟩, hrun⟩ := hrun (seen region _) ⟨rfl, rfl⟩
  refine ⟨⟨hs', hj⟩, t.reads, t.writes, ?_⟩
  rw [← hrun]
  obtain ⟨m, reads, writes⟩ := t
  cases ht
  rfl

/-- **The cache down to the service's memory**: however each connection fares, a run of calls has the results of
a run over a byte array whose requests fail now and then, and leaves the same cache and the same bytes. So the
cache is coherent with the memory, and a flush that returns has made every page the same in it. -/
theorem served_like_array {μ : Type} {memory : Memory μ} {Good : μ → Prop} {kept : μ → Bytes}
    (hmem : memory.Keeps Good kept) {text : Exc → Option Bytes}
    (htext : ∀ e message, text e = some message → message.length < 2 ^ 30)
    {capacityMb remoteSize pageSize : Int} {c : WriteBack} (hinit : init capacityMb remoteSize pageSize = .ok c)
    (hps : 0 < pageSize) (hlimit : pageSize ≤ 2 ^ 20) {s : Loopback μ} (hgood : Good s.memory)
    (hsize : remoteSize ≤ (kept s.memory).length) (hsmall : (kept s.memory).length < 2 ^ 64)
    (calls : List (Nat × Call)) {results : List (Except Exc (Option Bytes))} {t : WriteBack × Loopback μ}
    (hrun : trace (Call.perform (Loopback.api (RemoteAPI.api memory text))) calls (c, s) = (results, t)) :
    (∃ reads writes, trace (Call.perform .faulty) calls (c, ⟨kept s.memory, reads, writes⟩) =
      (results, seen (Loopback.region kept) t)) ∧
    Coherent (seen (Loopback.region kept) t) ∧
    ∀ (order : SetOrder) (u : WriteBack × Loopback μ),
      (flush (Loopback.api (RemoteAPI.api memory text)) order).run t = .ok () u →
      u.1.dirty = [] ∧ ∀ p d, u.1.pages.get? p = some d → Synced (seen (Loopback.region kept) u) p d := by
  obtain ⟨hk, hne, -⟩ := init_sound hinit ⟨kept s.memory, [], []⟩
  have hserves := Loopback.api_serves (RemoteAPI.api_client memory htext) hmem
  obtain ⟨⟨hserving, hsound⟩, hlike⟩ := run_like_array hserves hk hps hlimit (s := (c, s))
    ⟨⟨hgood, hsmall⟩, hsize⟩ (init_sound hinit ⟨kept s.memory, [], []⟩).2.2 calls
  rw [hrun] at hserving hsound hlike
  refine ⟨hlike, coherent_of_sound hsound, fun order u hflush => ?_⟩
  obtain ⟨hu, hdone⟩ := ((flush_simulates hserves hlimit hserving hsound order).of_ends
    fun t' ht' => flush_ends (hsound.beside ht') order).of_ok hflush
  obtain ⟨hkept, hdirty⟩ := hdone (seen (Loopback.region kept) u) ⟨rfl, rfl⟩
  refine ⟨hdirty, fun p d hp => ?_⟩
  unfold Synced
  rw [hkept.pageSize, hkept.remoteSize]
  exact hkept.clean p d hp List.not_mem_nil

/-- A write, a flush and a read. -/
def threeCalls : List (Nat × Call) :=
  [(3, .write 2 [1, 2, 3]), (0, .flush asAdded), (3, .read 0 10)]

/-- Two pages are loaded, one is written back, the data of the other come in with its command. -/
def fourLinks : Loopback RemoteArray :=
  ⟨⟨List.replicate 10 7, []⟩, [.served .apart [], .served .apart [1], .served .apart [], .served .together []]⟩

theorem served_like_array_early : ∃ results t,
    trace (Call.perform (Loopback.api (RemoteAPI.api Memory.array fun _ => none))) threeCalls
      (empty 4 10 262144, fourLinks) = (results, t) ∧
    (∃ reads writes, trace (Call.perform .faulty) threeCalls
        (empty 4 10 262144, ⟨List.replicate 10 7, reads, writes⟩) =
      (results, seen (Loopback.region RemoteArray.bytes) t)) ∧
    Coherent (seen (Loopback.region RemoteArray.bytes) t) ∧
    ∀ (order : SetOrder) (u : WriteBack × Loopback RemoteArray),
      (flush (Loopback.api (RemoteAPI.api Memory.array fun _ => none)) order).run t = .ok () u →
      u.1.dirty = [] ∧
        ∀ p d, u.1.pages.get? p = some d → Synced (seen (Loopback.region RemoteArray.bytes) u) p d := by
  have hinit : init 1 10 4 = .ok (empty 4 10 262144) := rfl
  obtain ⟨results, t, hrun⟩ : ∃ results t,
      trace (Call.perform (Loopback.api (RemoteAPI.api Memory.array fun _ => none))) threeCalls
        (empty 4 10 262144, fourLinks) = (results, t) := ⟨_, _, Prod.mk.eta.symm⟩
  have hsize : (10 : Int) ≤ (RemoteArray.bytes fourLinks.memory).length := by decide
  have hsmall : (RemoteArray.bytes fourLinks.memory).length < 2 ^ 64 := by decide
  exact ⟨results, t, hrun, served_like_array (s := fourLinks) (c := empty 4 10 262144) Memory.array_keeps
    (fun _ _ h => by cases h) hinit (by decide) (by decide) trivial hsize hsmall threeCalls hrun⟩

end RemoteMemoryCache

end RamLink
