import RamLink.WriteBack.Failures
import RamLink.WriteBack.Flat

/-!
# RamLink.CacheManager

`RemoteMemoryCache` of `ramlink_cache_manager.py`, against a plain byte array.

* `Call.run` is one call of `read`, `write` or `flush`, `Call.plain` the same call on a plain array;
  the answer of a flush shows what the remote array holds after it.
* `answers_ok`: as long as no page is evicted while it is dirty, a run of calls has the answers of
  the plain array.
* `Call.next` is one call over an array whose requests may fail, `Coherent` what every run of such
  calls keeps.
-/

namespace RamLink

open Lib WriteBack

namespace RemoteMemoryCache

def kind : Kind := ⟨"range outside remote memory", true⟩

/-- `RemoteMemoryCache(capacity_mb, remote_size, page_size)`. -/
def init (capacityMb remoteSize pageSize : Int) : Except Exc WriteBack :=
  if pageSize = 0 then .error .zeroDivisionError
  else
    let maxPages := (capacityMb * 1024 * 1024).fdiv pageSize
    if maxPages < 1 then .error (.valueError "cache capacity is smaller than one page")
    else .ok (empty pageSize remoteSize maxPages)

def read {σ : Type} (api : Api σ) (fuel : Nat) (offset length : Int) : CacheM σ Bytes :=
  WriteBack.read kind api fuel offset length

def write {σ : Type} (api : Api σ) (fuel : Nat) (offset : Int) (data : Bytes) : CacheM σ Unit :=
  WriteBack.write kind api fuel offset data

def flush {σ : Type} (api : Api σ) (order : SetOrder) : CacheM σ Unit := WriteBack.flush api order

/-! ## Calls -/

inductive Call where
  | read (offset length : Int)
  | write (offset : Int) (data : Bytes)
  | flush (order : SetOrder)

inductive Answer where
  | data (bytes : Bytes)
  | written
  | flushed (remote : Bytes)
deriving DecidableEq, Repr

namespace Call

def run (fuel : Nat) : Call → CacheM Bytes Answer
  | .read offset length => do return .data (← RemoteMemoryCache.read .array fuel offset length)
  | .write offset data => do
    RemoteMemoryCache.write .array fuel offset data
    return .written
  | .flush order => do
    RemoteMemoryCache.flush .array order
    let s ← get
    return .flushed (slice s.2 0 s.1.remoteSize)

def plain (mem : Bytes) : Call → Answer × Bytes
  | .read offset length => (.data (slice mem offset (offset + length)), mem)
  | .write offset data => (.written, setSlice mem offset (offset + data.length) data)
  | .flush _ => (.flushed mem, mem)

def InRange (remoteSize : Nat) : Call → Prop
  | .read offset length => 0 ≤ offset ∧ 0 ≤ length ∧ offset + length ≤ remoteSize
  | .write offset data => 0 ≤ offset ∧ offset + data.length ≤ remoteSize
  | .flush _ => True

/-- The pages a call touches, in order. -/
def accesses (pageSize : Nat) : Call → List (Access Int)
  | .read offset length => (pagesOf pageSize offset.toNat length.toNat).map .use
  | .write offset data => (pagesOf pageSize offset.toNat data.length).map .change
  | .flush _ => [.clean]

end Call

def answers (fuel : Nat) : List Call → CacheM Bytes (List Answer)
  | [] => return []
  | call :: calls => do
    let answer ← call.run fuel
    return answer :: (← answers fuel calls)

def plainAnswers : List Call → Bytes → List Answer
  | [], _ => []
  | call :: calls, mem => (call.plain mem).1 :: plainAnswers calls (call.plain mem).2

theorem Call.run_read {fuel : Nat} {offset length : Int} {bytes : Bytes} {s s' : WriteBack × Bytes}
    (h : (RemoteMemoryCache.read .array fuel offset length).run s = .ok bytes s') :
    ((Call.read offset length).run fuel).run s = .ok (.data bytes) s' := by
  simp only [Call.run, EStateM.run_bind, h, EStateM.run_pure]

theorem Call.run_write {fuel : Nat} {offset : Int} {data : Bytes} {s s' : WriteBack × Bytes}
    (h : (RemoteMemoryCache.write .array fuel offset data).run s = .ok () s') :
    ((Call.write offset data).run fuel).run s = .ok .written s' := by
  simp only [Call.run, EStateM.run_bind, h, EStateM.run_pure]

theorem answers_cons {fuel : Nat} {call : Call} {calls : List Call} {answer : Answer}
    {rest : List Answer} {s s' s'' : WriteBack × Bytes} (h : (call.run fuel).run s = .ok answer s')
    (hrest : (answers fuel calls).run s' = .ok rest s'') :
    (answers fuel (call :: calls)).run s = .ok (answer :: rest) s'' := by
  simp only [answers, EStateM.run_bind, h, hrest, EStateM.run_pure]

variable {ps rs k : Nat} {r r' : Residency Int} {mem : Bytes} {s : WriteBack × Bytes}

/-- One call, as long as it evicts no dirty page. -/
theorem call_ok (hk : 0 < k) (hps : 0 < ps) (h : Flat ps rs k r mem s) {fuel : Nat} (hf : rs ≤ fuel)
    {call : Call} (hin : call.InRange rs)
    (he : exec (Residency.next k) r (call.accesses ps) = some r') :
    ∃ s', (call.run fuel).run s = .ok (call.plain mem).1 s' ∧
      Flat ps rs k r' (call.plain mem).2 s' := by
  have hlen := h.length_mem
  cases call with
  | read offset length =>
    obtain ⟨h1, h2, h3⟩ := hin
    obtain ⟨a, rfl⟩ := Int.eq_ofNat_of_zero_le h1
    obtain ⟨n, rfl⟩ := Int.eq_ofNat_of_zero_le h2
    obtain ⟨s', hrun, h', -⟩ := read_ok kind hk hps h fuel a n hf (by omega) he
    rw [← slice_nat] at hrun
    exact ⟨s', Call.run_read hrun, h'⟩
  | write offset data =>
    obtain ⟨h1, h2⟩ := hin
    obtain ⟨a, rfl⟩ := Int.eq_ofNat_of_zero_le h1
    obtain ⟨s', hrun, h', -⟩ := write_ok kind hk hps h fuel a data hf (by omega) he
    refine ⟨s', Call.run_write hrun, ?_⟩
    show Flat ps rs k r' (setSlice mem a (a + data.length) data) s'
    rw [setSlice_nat mem a data.length data rfl (by omega)]
    exact h'
  | flush order =>
    cases he
    obtain ⟨s', hrun, h', hsub⟩ := flush_ok hps h order
    refine ⟨s', ?_, h'⟩
    have hslice : slice s'.2 0 s'.1.remoteSize = mem := by
      have := slice_nat s'.2 0 rs
      rw [h'.remoteSize, ← hsub]
      simpa using this
    simp only [Call.run, RemoteMemoryCache.flush, EStateM.run_bind, hrun, EStateM.run_get, hslice]
    rfl

theorem answers_ok (hk : 0 < k) (hps : 0 < ps) {fuel : Nat} (hf : rs ≤ fuel) (calls : List Call) :
    ∀ {r r' : Residency Int} {mem : Bytes} {s : WriteBack × Bytes}, Flat ps rs k r mem s →
      (∀ call ∈ calls, call.InRange rs) →
      exec (Residency.next k) r (calls.flatMap (Call.accesses ps)) = some r' →
      ∃ s', (answers fuel calls).run s = .ok (plainAnswers calls mem) s' := by
  induction calls with
  | nil => exact fun _ _ _ => ⟨_, rfl⟩
  | cons call calls ih =>
    intro r r' mem s h hin he
    rw [List.flatMap_cons, exec_append] at he
    obtain ⟨r1, he1, he2⟩ := he
    obtain ⟨s1, hrun1, h1⟩ := call_ok hk hps h hf (hin call (List.mem_cons_self ..)) he1
    obtain ⟨s2, hrun2⟩ := ih h1 (fun c hc => hin c (List.mem_cons_of_mem _ hc)) he2
    exact ⟨s2, answers_cons hrun1 hrun2⟩

theorem init_ok {capacityMb remoteSize pageSize : Int} {c : WriteBack}
    (h : init capacityMb remoteSize pageSize = .ok c) :
    ∃ maxPages, 1 ≤ maxPages ∧ c = empty pageSize remoteSize maxPages := by
  unfold init at h
  split at h
  · cases h
  · simp only at h
    split at h
    · cases h
    · cases h
      exact ⟨_, by omega, rfl⟩

/-- Every run in which no page is evicted while it is dirty: the cache answers as a plain array
does, and after each flush the remote memory is that array. -/
theorem answers_plain (capacityMb : Int) (remoteSize pageSize : Nat) {c : WriteBack}
    (hps : 0 < pageSize) (hinit : init capacityMb remoteSize pageSize = .ok c) {remote : Bytes}
    (hlen : remoteSize ≤ remote.length) {calls : List Call}
    (hin : ∀ call ∈ calls, call.InRange remoteSize)
    (hno : Residency.NoDirtyEviction c.maxPages.toNat (calls.flatMap (Call.accesses pageSize)))
    {fuel : Nat} (hf : remoteSize ≤ fuel) :
    ∃ s, (answers fuel calls).run (c, remote) = .ok (plainAnswers calls (sub remote 0 remoteSize)) s := by
  obtain ⟨maxPages, hmax, rfl⟩ := init_ok hinit
  obtain ⟨k, rfl⟩ := Int.eq_ofNat_of_zero_le (by omega : 0 ≤ maxPages)
  obtain ⟨r, he⟩ := hno
  exact answers_ok (by omega) hps hf calls (Flat.start hlen) hin he

theorem answers_plain_flushed : ∃ s, (answers 2097152 [.write 0 [1], .flush ⟨id, fun _ => .refl _⟩,
      .read 1048576 1, .read 0 1]).run (empty 1048576 2097152 1, List.replicate 2097152 0) =
    .ok (plainAnswers [.write 0 [1], .flush ⟨id, fun _ => .refl _⟩, .read 1048576 1, .read 0 1]
      (sub (List.replicate 2097152 0) 0 2097152)) s := by
  refine answers_plain 1 2097152 1048576 (by omega) rfl (List.length_replicate ..).ge ?_ ⟨_, rfl⟩ le_rfl
  simp [Call.InRange]

/-- With room for one page: a byte is written, a read of the other page evicts it, and the byte
reads as it was before the write. -/
theorem answers_evicted : init 1 2097152 1048576 = .ok (empty 1048576 2097152 1) ∧
    (∃ s, (answers 2097152 [.write 0 [1], .read 1048576 1, .read 0 1]).run
      (empty 1048576 2097152 1, List.replicate 2097152 0) =
        .ok [.written, .data [0], .data [0]] s) ∧
    plainAnswers [.write 0 [1], .read 1048576 1, .read 0 1] (List.replicate 2097152 0) =
      [.written, .data [0], .data [1]] := by
  -- the array before, and with the byte written
  have hlen : (List.replicate 2097152 (0 : UInt8)).length = 2097152 := List.length_replicate ..
  have hzero : sub (List.replicate 2097152 (0 : UInt8)) 0 2097152 = List.replicate 2097152 0 :=
    sub_all hlen.le
  have hlast : sub (splice (List.replicate 2097152 (0 : UInt8)) 0 [1]) 1048576 1 = [0] := by
    rw [sub_splice_apart (by rw [hlen]; simp) (.inr (by simp)), sub_replicate 0 (by omega)]
    rfl
  refine ⟨rfl, ?_, ?_⟩
  · have h0 : Flat 1048576 2097152 1 .empty (sub (List.replicate 2097152 0) 0 2097152)
        (empty 1048576 2097152 1, List.replicate 2097152 0) := Flat.start hlen.ge
    rw [hzero] at h0
    obtain ⟨s1, (hrun1 : (write .array 2097152 0 [1]).run _ = _), h1, hs1⟩ :=
      write_ok kind (by omega) (by omega) h0 2097152 0 [1] le_rfl (by simp) rfl
    obtain ⟨s2, (hrun2 : (read .array 2097152 1048576 1).run _ = _), hs2, h2⟩ :=
      read_loses kind (by omega) (by omega) h1 2097152 1048576 1 0 (by omega) (by omega) (by omega)
        (by omega) rfl
    obtain ⟨s3, (hrun3 : (read .array 2097152 0 1).run _ = _), -⟩ :=
      read_ok kind (by omega) (by omega) h2 2097152 0 1 le_rfl (by omega) rfl
    rw [hlast] at hrun2
    rw [sub_splice_pageAt h1.length_mem h1.length_remote (by omega) (by decide) (by omega), hs1,
      sub_replicate 0 (by omega), List.replicate_one] at hrun3
    exact ⟨s3, answers_cons (Call.run_write hrun1) (answers_cons (Call.run_read hrun2)
      (answers_cons (Call.run_read hrun3) rfl))⟩
  · have hset : setSlice (List.replicate 2097152 (0 : UInt8)) 0 (0 + (([1] : Bytes).length : Int)) [1] =
        splice (List.replicate 2097152 0) 0 [1] := setSlice_nat _ 0 1 [1] rfl (by rw [hlen]; omega)
    have hread := slice_nat (splice (List.replicate 2097152 (0 : UInt8)) 0 [1]) 1048576 1
    have hback := slice_nat (splice (List.replicate 2097152 (0 : UInt8)) 0 [1]) 0 1
    have hself : sub (splice (List.replicate 2097152 (0 : UInt8)) 0 [1]) 0 1 = [1] :=
      sub_splice_self (by rw [hlen]; decide)
    rw [hlast] at hread
    rw [hself] at hback
    simp only [plainAnswers, Call.plain, hset]
    exact congrArg₂ (fun x y => [Answer.written, .data x, .data y]) hread hback

/-! ## Requests that fail -/

/-- One call, of any fuel, whether it returns or raises. -/
def Call.next (s : WriteBack × FaultyArray) : Nat × Call → Option (WriteBack × FaultyArray)
  | (fuel, .read offset length) =>
    some (finalState (RemoteMemoryCache.read .faulty fuel offset length) s)
  | (fuel, .write offset data) => some (finalState (RemoteMemoryCache.write .faulty fuel offset data) s)
  | (_, .flush order) => some (finalState (RemoteMemoryCache.flush .faulty order) s)

/-- Page `p` holds the bytes that the remote memory has in its place. -/
def Synced (s : WriteBack × FaultyArray) (p : Int) (d : Bytes) : Prop :=
  d = slice s.2.memory (p * s.1.pageSize)
    (p * s.1.pageSize + min s.1.pageSize (s.1.remoteSize - p * s.1.pageSize))

structure Coherent (s : WriteBack × FaultyArray) : Prop where
  bounded : (s.1.pages.size : Int) ≤ s.1.maxPages
  dirtyResident : ∀ p ∈ s.1.dirty, p ∈ s.1.pages.keys
  placed : ∀ p d, s.1.pages.get? p = some d →
    0 ≤ p * s.1.pageSize ∧ p * s.1.pageSize < s.1.remoteSize ∧
      (d.length : Int) = min s.1.pageSize (s.1.remoteSize - p * s.1.pageSize)
  clean : ∀ p d, s.1.pages.get? p = some d → p ∉ s.1.dirty → Synced s p d

theorem coherent_of_sound {ps rs k : Int} {s : WriteBack × FaultyArray} (h : Sound ps rs k s) :
    Coherent s := by
  obtain ⟨hps, hrs, hk, hb, hd, hr, hc⟩ := h
  subst hps hrs hk
  exact ⟨hb, hd, hr, hc⟩

theorem next_sound {ps rs k : Int} (hk : 0 < k) (hps : ps ≠ 0) (s : WriteBack × FaultyArray)
    (a : Nat × Call) (s' : WriteBack × FaultyArray) (h : Sound ps rs k s) (hs : Call.next s a = some s') :
    Sound ps rs k s' := by
  obtain ⟨fuel, call⟩ := a
  cases call with
  | read offset length =>
    cases hs
    exact (read_ends kind hk hps fuel h offset length).finalState
  | write offset data =>
    cases hs
    exact (write_ends kind hk hps fuel h offset data).finalState
  | flush order =>
    cases hs
    refine ((flush_ends h order).mono (fun _ t ht => ?_) (fun _ ht => ht)).finalState
    unfold Sound
    rw [ht.2]
    exact ht.1

theorem init_sound {capacityMb remoteSize pageSize : Int} {c : WriteBack}
    (h : init capacityMb remoteSize pageSize = .ok c) (remote : FaultyArray) :
    0 < c.maxPages ∧ pageSize ≠ 0 ∧ Sound pageSize remoteSize c.maxPages (c, remote) := by
  have hps : pageSize ≠ 0 := by
    intro hz
    rw [init, if_pos hz] at h
    cases h
  obtain ⟨maxPages, hmax, rfl⟩ := init_ok h
  exact ⟨by show 0 < maxPages; omega, hps, rfl, rfl, rfl, by show (0 : Int) ≤ maxPages; omega,
    fun q hq => (nomatch hq), fun q d hq => (nomatch hq), fun q d hq => (nomatch hq)⟩

/-- Whatever requests fail, the cache stays coherent, and a flush that returns leaves every page
as it is in the remote memory. -/
theorem coherent_run {capacityMb remoteSize pageSize : Int} {c : WriteBack}
    (hinit : init capacityMb remoteSize pageSize = .ok c) (remote : FaultyArray)
    (calls : List (Nat × Call)) {s : WriteBack × FaultyArray}
    (hrun : exec Call.next (c, remote) calls = some s) :
    Coherent s ∧ ∀ (order : SetOrder) (s' : WriteBack × FaultyArray),
      (RemoteMemoryCache.flush .faulty order).run s = .ok () s' →
      s'.1.dirty = [] ∧ ∀ p d, s'.1.pages.get? p = some d → Synced s' p d := by
  obtain ⟨hk, hps, h0⟩ := init_sound hinit remote
  have h := exec_inv (next_sound hk hps) h0 hrun
  refine ⟨coherent_of_sound h, fun order s' hflush => ?_⟩
  obtain ⟨h', hd⟩ := (flush_ends h order).of_ok hflush
  refine ⟨hd, fun p d hp => ?_⟩
  unfold Synced
  rw [h'.pageSize, h'.remoteSize]
  exact h'.clean p d hp List.not_mem_nil

/-- A flush whose request fails after the page has been stored, and a read of another page. -/
theorem coherent_run_failed_flush : ∃ s, exec Call.next (empty 1048576 2097152 1,
      ⟨List.replicate 2097152 0, [], [some (.connectionError "memory service disconnected", true)]⟩)
      [(2, .write 0 [1]), (0, .flush ⟨id, fun _ => .refl _⟩), (2, .read 1048576 1)] = some s ∧
    Coherent s ∧ ∀ (order : SetOrder) (s' : WriteBack × FaultyArray),
      (RemoteMemoryCache.flush .faulty order).run s = .ok () s' →
      s'.1.dirty = [] ∧ ∀ p d, s'.1.pages.get? p = some d → Synced s' p d := by
  have hinit : init 1 2097152 1048576 = .ok (empty 1048576 2097152 1) := rfl
  obtain ⟨s, hs⟩ : ∃ s, exec Call.next (empty 1048576 2097152 1,
      ⟨List.replicate 2097152 0, [], [some (.connectionError "memory service disconnected", true)]⟩)
      [(2, .write 0 [1]), (0, .flush ⟨id, fun _ => .refl _⟩), (2, .read 1048576 1)] = some s := ⟨_, rfl⟩
  exact ⟨s, hs, coherent_run hinit _ _ hs⟩

end RemoteMemoryCache

end RamLink
