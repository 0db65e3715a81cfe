import RamLink.RemoteCache.Pages

/-!
# RamLink.RemoteCache.Coherence

The write-through cache over a leased region that nobody else writes.

`Coherent ps rs k order mem s`: the region holds `mem`, every cached page is the page of `mem`, `order`
are the cached pages from least to most recently used, and every request so far was inside the lease.

* `Coherent.readPage`, `Coherent.writePage`: one page of a read and of a write.
* `read_ok`, `write_ok`: the operations, by induction on the loops.
-/

namespace RamLink

open Lib

/-- A request inside a lease of `size` bytes at `base`, of a length the protocol allows. -/
def Transfer.Inside (base size : Int) (t : Transfer) : Prop :=
  base ≤ t.offset ∧ t.offset + t.length ≤ base + size ∧ 1 ≤ t.length ∧ t.length ≤ RemoteCache.maxBlock

namespace RemoteCache

structure Coherent (ps rs k : Nat) (order : List Int) (mem : Bytes) (s : RemoteCache × LeasedRegion) :
    Prop where
  base : s.1.base = s.2.base
  remoteSize : s.1.remoteSize = rs
  capacity : s.1.capacity = k
  faults : s.2.faults = []
  memory : s.2.memory = mem
  length_mem : mem.length = rs
  keys : s.1.pages.keys = order
  bounded : order.length ≤ k
  resident : ∀ p d, s.1.pages.get? p = some d →
    ∃ i : Nat, p = i ∧ i * ps < rs ∧ d = pageAt ps rs mem i
  log : ∀ t ∈ s.2.log, t.Inside s.2.base rs

-- `ps` is the page size, which no proof below computes with
variable {ps rs k : Nat} {order : List Int} {mem : Bytes} {s : RemoteCache × LeasedRegion}

theorem Coherent.tied (h : Coherent ps rs k order mem s) : Tied ps rs k order mem s :=
  ⟨h.base, h.remoteSize, h.capacity, h.memory, h.length_mem, h.keys, h.bounded, h.resident⟩

theorem Tied.coherent (h : Tied ps rs k order mem s) (hf : s.2.faults = [])
    (hlog : ∀ r ∈ s.2.log, r.Inside s.2.base rs) : Coherent ps rs k order mem s :=
  ⟨h.base, h.remoteSize, h.capacity, hf, h.memory, h.length_mem, h.keys, h.bounded, h.resident, hlog⟩

/-! ## One page -/

namespace Coherent

theorem fault (h : Coherent ps rs k order mem s) : s.2.fault = none := by
  rw [LeasedRegion.fault, h.faults]
  rfl

/-- A request for a whole page is inside the lease. -/
theorem asked (hps : page = ps) (hrs : ps ∣ rs) (h : Coherent ps rs k order mem s) {i : Nat}
    (hi : i * ps < rs) : Coherent ps rs k order mem (s.1, s.2.asked ps i) := by
  refine (h.tied.asked i).coherent (congrArg List.tail h.faults) (fun r hr => ?_)
  have hw := width_le ps rs i (Nat.le_of_lt hi)
  rw [width_of_dvd hrs hi] at hw
  rcases List.mem_cons.mp hr with rfl | hr
  · have hpos : 1 ≤ page ∧ page ≤ maxBlock := by decide
    rw [hps] at hpos
    have hbase : (s.2.asked ps i).base = s.2.base := rfl
    refine ⟨?_, ?_, hpos.1, hpos.2⟩ <;> simp only [hbase] <;> omega
  · exact h.log r hr

theorem readPage (hps : page = ps) (hk : 0 < k) (hrs : ps ∣ rs) (h : Coherent ps rs k order mem s)
    {i : Nat} (hi : i * ps < rs) : ∃ s', (readPage .region i).run s = .ok (pageAt ps rs mem i) s' ∧
      Coherent ps rs k (Lru.touch k order i) mem s' := by
  obtain ⟨s', hrun, h', ht⟩ := readPage_ok hps hk hrs h.tied hi (.inr h.fault)
  refine ⟨s', hrun, ?_⟩
  rcases ht with ht | ht
  · exact h'.coherent (by rw [ht]; exact h.faults) (by rw [ht]; exact h.log)
  · have ha := h.asked hps hrs hi
    exact h'.coherent (by rw [ht]; exact ha.faults) (by rw [ht]; exact ha.log)

theorem writePage (hps : page = ps) (hk : 0 < k) (hrs : ps ∣ rs) (h : Coherent ps rs k order mem s)
    {i inside n : Nat} {data : Bytes} (hi : i * ps < rs) (hn : data.length = n)
    (hin : inside + n ≤ ps) : ∃ s', (writePage .region i inside n data).run s = .ok () s' ∧
      Coherent ps rs k (Lru.touch k order i) (splice mem (i * ps + inside) data) s' := by
  -- the region after the READ, if there is one
  have hreached : Coherent ps rs k order mem (s.1, s.2.reached ps order i) := by
    unfold LeasedRegion.reached
    split
    · exact h
    · exact h.asked hps hrs hi
  obtain ⟨s', hrun, h', ht⟩ := writePage_ok hps hk hrs h.tied hi hn hin (.inr h.fault) hreached.fault
  have ha := hreached.asked hps hrs hi
  exact ⟨s', hrun, h'.coherent (by rw [ht]; exact ha.faults) (by rw [ht]; exact ha.log)⟩

end Coherent

/-! ## The loops -/

theorem readLoop_ok (hps : page = ps) (hpos : 0 < ps) (hk : 0 < k) (hrs : ps ∣ rs) (fuel : Nat) :
    ∀ (out : Bytes) (a n : Nat) {order : List Int} {s : RemoteCache × LeasedRegion}, n ≤ fuel →
      a + n ≤ rs → Coherent ps rs k order mem s →
      ∃ s', (readLoop .region fuel a n out).run s = .ok (out ++ sub mem a n) s' ∧
        Coherent ps rs k ((pagesOf ps a n).foldl (Lru.touch k) order) mem s' := by
  induction fuel with
  | zero =>
    intro out a n order s hf hr h
    obtain rfl : n = 0 := by omega
    exact ⟨s, by rw [readLoop_done, sub_zero, List.append_nil]; rfl, h⟩
  | succ fuel ih =>
    intro out a n order s hf hr h
    rcases Nat.eq_zero_or_pos n with rfl | hn
    · exact ⟨s, by rw [readLoop_done, sub_zero, List.append_nil]; rfl, h⟩
    -- one page, then the rest of the range
    obtain ⟨hi, hin, -, hm, -⟩ := chunk_arith hpos hn hr
    obtain ⟨s1, hread, h1⟩ := h.readPage hps hk hrs hi
    have hle : min n (ps - a % ps) ≤ n := Nat.min_le_left _ _
    rw [readLoop_step .region hps hpos hn, pagesOf_step hpos hn, List.foldl_cons, sub_split hle,
      ← List.append_assoc]
    generalize min n (ps - a % ps) = m at *
    obtain ⟨s2, hloop, h2⟩ := ih (out ++ sub mem a m) (a + m) (n - m) (by omega) (by omega) h1
    refine ⟨s2, ?_, h2⟩
    rw [EStateM.run_bind, hread]
    simp only [sub_pageAt hin]
    exact hloop

theorem writeLoop_ok (hps : page = ps) (hpos : 0 < ps) (hk : 0 < k) (hrs : ps ∣ rs) (a : Nat)
    (data : Bytes) (fuel : Nat) :
    ∀ (pos n : Nat) {order : List Int} {mem : Bytes} {s : RemoteCache × LeasedRegion},
      pos + n = data.length → n ≤ fuel → a + pos + n ≤ rs → Coherent ps rs k order mem s →
      ∃ s', (writeLoop .region a data fuel pos).run s = .ok () s' ∧
        Coherent ps rs k ((pagesOf ps (a + pos) n).foldl (Lru.touch k) order)
          (splice mem (a + pos) (data.drop pos)) s' := by
  have hdone : ∀ (fuel : Nat) {pos : Nat} {order : List Int} {mem : Bytes}
      {s : RemoteCache × LeasedRegion}, pos = data.length → Coherent ps rs k order mem s →
      ∃ s', (writeLoop .region a data fuel pos).run s = .ok () s' ∧
        Coherent ps rs k order (splice mem (a + pos) (data.drop pos)) s' := by
    intro fuel pos order mem s hp h
    refine ⟨s, by rw [writeLoop_done .region hp.ge]; rfl, ?_⟩
    rw [List.drop_of_length_le hp.ge, splice_nil]
    exact h
  induction fuel with
  | zero =>
    intro pos n order mem s hp hf hr h
    obtain rfl : n = 0 := by omega
    exact hdone 0 hp h
  | succ fuel ih =>
    intro pos n order mem s hp hf hr h
    rcases Nat.eq_zero_or_pos n with rfl | hn
    · exact hdone (fuel + 1) hp h
    -- one page, then the rest of the data
    obtain ⟨hi, hin, ha, hm, -⟩ := chunk_arith hpos hn hr
    have ht := Nat.mod_lt (a + pos) hpos
    have hfit : (a + pos) % ps + min n (ps - (a + pos) % ps) ≤ ps := by omega
    have hle : min n (ps - (a + pos) % ps) ≤ n := Nat.min_le_left _ _
    rw [writeLoop_step .region hps hpos hn hp, pagesOf_step hpos hn, List.foldl_cons]
    generalize min n (ps - (a + pos) % ps) = m at *
    have hchunk : (sub data pos m).length = m := length_sub_of_le (by omega)
    obtain ⟨s1, hwrite, h1⟩ := h.writePage hps hk hrs hi hchunk hfit
    rw [ha] at h1
    obtain ⟨s2, hloop, h2⟩ := ih (pos + m) (n - m) (by omega) (by omega) (by omega) h1
    refine ⟨s2, ?_, ?_⟩
    · rw [EStateM.run_bind, hwrite]
      exact hloop
    · rw [splice_split (by omega : pos + m ≤ data.length) (by rw [h.length_mem]; omega), Nat.add_assoc]
      exact h2

/-! ## The operations -/

theorem read_ok (hps : page = ps) (hpos : 0 < ps) (hk : 0 < k) (hrs : ps ∣ rs)
    (h : Coherent ps rs k order mem s) {fuel a n : Nat} (hf : rs ≤ fuel) (hr : a + n ≤ rs) :
    ∃ s', (read .region fuel a n).run s = .ok (sub mem a n) s' ∧
      Coherent ps rs k ((pagesOf ps a n).foldl (Lru.touch k) order) mem s' := by
  obtain ⟨s', hrun, h'⟩ := readLoop_ok hps hpos hk hrs fuel [] a n (by omega) hr h
  have hin : ¬ ((a : Int) < 0 ∨ s.1.remoteSize < (a : Int) + n) := by
    rw [h.remoteSize]
    omega
  refine ⟨s', ?_, h'⟩
  simp only [read, EStateM.run_bind, EStateM.run_get, run_raiseIf, if_neg hin]
  exact hrun

theorem write_ok (hps : page = ps) (hpos : 0 < ps) (hk : 0 < k) (hrs : ps ∣ rs)
    (h : Coherent ps rs k order mem s) {fuel a : Nat} {data : Bytes} (hf : rs ≤ fuel)
    (hr : a + data.length ≤ rs) : ∃ s', (write .region fuel a data).run s = .ok () s' ∧
      Coherent ps rs k ((pagesOf ps a data.length).foldl (Lru.touch k) order) (splice mem a data) s' := by
  obtain ⟨s', hrun, h'⟩ := writeLoop_ok hps hpos hk hrs a data fuel 0 data.length (by omega) (by omega)
    hr h
  have hin : ¬ ((a : Int) < 0 ∨ s.1.remoteSize < (a : Int) + data.length) := by
    rw [h.remoteSize]
    omega
  refine ⟨s', ?_, h'⟩
  simp only [write, EStateM.run_bind, EStateM.run_get, run_raiseIf, if_neg hin]
  exact hrun

/-! ## Runs of calls -/

namespace Call

def InRange (size : Nat) : Call → Prop
  | .read offset length => 0 ≤ offset ∧ 0 ≤ length ∧ offset + length ≤ size
  | .write offset data => 0 ≤ offset ∧ offset + data.length ≤ size

instance (size : Nat) : (call : Call) → Decidable (call.InRange size)
  | .read _ _ => inferInstanceAs (Decidable (_ ∧ _))
  | .write _ _ => inferInstanceAs (Decidable (_ ∧ _))

/-- The call on a plain array. -/
def plain (mem : Bytes) : Call → Answer × Bytes
  | .read offset length => (.data (slice mem offset (offset + length)), mem)
  | .write offset data => (.written, setSlice mem offset (offset + data.length) data)

end Call

def plain : List Call → Bytes → List Answer × Bytes
  | [], mem => ([], mem)
  | call :: calls, mem =>
    let (answers, mem') := plain calls (call.plain mem).2
    ((call.plain mem).1 :: answers, mem')

/-- What a user of the cache and of the region can see. -/
structure InSync (s : RemoteCache × LeasedRegion) (mem : Bytes) : Prop where
  region : s.2.memory = mem
  cached : ∀ p d, s.1.pages.get? p = some d → d = slice s.2.memory (p * page) (p * page + page)
  bounded : s.1.pages.size ≤ s.1.capacity
  requests : ∀ t ∈ s.2.log, t.Inside s.1.base s.1.remoteSize

theorem Coherent.inSync (hps : page = ps) (hrs : ps ∣ rs) (h : Coherent ps rs k order mem s) :
    InSync s mem := by
  refine ⟨h.memory, fun p d hd => ?_, ?_, ?_⟩
  · obtain ⟨i, rfl, hi, rfl⟩ := h.resident p d hd
    rw [h.memory, hps, ← Nat.cast_mul, slice_nat, pageAt, width_of_dvd hrs hi]
  · have := h.bounded
    rw [h.capacity, ← Dict.length_keys, h.keys]
    omega
  · rw [h.base, h.remoteSize]
    exact h.log

theorem call_ok (hps : page = ps) (hpos : 0 < ps) (hk : 0 < k) (hrs : ps ∣ rs)
    (h : Coherent ps rs k order mem s) {fuel : Nat} (hf : rs ≤ fuel) {call : Call}
    (hin : call.InRange rs) : ∃ s' order', (call.run .region fuel).run s = .ok (call.plain mem).1 s' ∧
      Coherent ps rs k order' (call.plain mem).2 s' := by
  cases call with
  | read offset length =>
    obtain ⟨h1, h2, h3⟩ := hin
    obtain ⟨a, rfl⟩ := Int.eq_ofNat_of_zero_le h1
    obtain ⟨n, rfl⟩ := Int.eq_ofNat_of_zero_le h2
    obtain ⟨s', hrun, h'⟩ := read_ok hps hpos hk hrs h hf (by omega : a + n ≤ rs)
    refine ⟨s', _, ?_, h'⟩
    simp only [Call.run, Call.plain, EStateM.run_bind, hrun, EStateM.run_pure, slice_nat]
  | write offset data =>
    obtain ⟨h1, h2⟩ := hin
    obtain ⟨a, rfl⟩ := Int.eq_ofNat_of_zero_le h1
    have hlen := h.length_mem
    obtain ⟨s', hrun, h'⟩ := write_ok hps hpos hk hrs h hf (by omega : a + data.length ≤ rs)
    rw [← setSlice_nat mem a data.length data rfl (by omega)] at h'
    refine ⟨s', _, ?_, h'⟩
    simp only [Call.run, Call.plain, EStateM.run_bind, hrun, EStateM.run_pure]

theorem answers_ok (hps : page = ps) (hpos : 0 < ps) (hk : 0 < k) (hrs : ps ∣ rs) {fuel : Nat}
    (hf : rs ≤ fuel) (calls : List Call) :
    ∀ {order : List Int} {mem : Bytes} {s : RemoteCache × LeasedRegion}, Coherent ps rs k order mem s →
      (∀ call ∈ calls, call.InRange rs) →
      ∃ s' order', (answers .region fuel calls).run s = .ok (plain calls mem).1 s' ∧
        Coherent ps rs k order' (plain calls mem).2 s' := by
  induction calls with
  | nil => exact fun h _ => ⟨_, _, rfl, h⟩
  | cons call calls ih =>
    intro order mem s h hin
    obtain ⟨s1, order1, hrun1, h1⟩ := call_ok hps hpos hk hrs h hf (hin call (List.mem_cons_self ..))
    obtain ⟨s2, order2, hrun2, h2⟩ := ih h1 (fun c hc => hin c (List.mem_cons_of_mem _ hc))
    refine ⟨s2, order2, ?_, h2⟩
    simp only [answers, plain, EStateM.run_bind, hrun1, hrun2, EStateM.run_pure]

theorem init_coherent (ps base : Nat) (memory : Bytes) (cacheMb : Int) :
    ∃ k : Nat, 0 < k ∧ Coherent ps memory.length k [] memory
      (init base memory.length cacheMb, ⟨base, memory, [], []⟩) := by
  obtain ⟨k, hk, h⟩ := init_tied ps base memory cacheMb []
  exact ⟨k, hk, h.coherent rfl (by simp)⟩

/-- The write-through cache is the plain array, and stays in step with the region. -/
theorem transparent (remoteMb : Nat) (cacheMb : Int) (base : Nat) {memory : Bytes}
    (hlen : memory.length = remoteMb * 1048576) {calls : List Call}
    (hin : ∀ call ∈ calls, call.InRange memory.length) {fuel : Nat} (hf : memory.length ≤ fuel) :
    ∃ s, (answers .region fuel calls).run
        (init base memory.length cacheMb, ⟨base, memory, [], []⟩) = .ok (plain calls memory).1 s ∧
      InSync s (plain calls memory).2 := by
  obtain ⟨ps, hps, hpos, hrs⟩ := page_dvd remoteMb
  rw [← hlen] at hrs
  obtain ⟨k, hk, h⟩ := init_coherent ps base memory cacheMb
  obtain ⟨s, order, hrun, h'⟩ := answers_ok hps hpos hk hrs hf calls h hin
  exact ⟨s, hrun, h'.inSync hps hrs⟩

theorem transparent_straddling : ∃ s,
    (answers .region 1048576 [.write 65535 [1, 2], .read 65534 4]).run
      (init 512 (List.replicate 1048576 (0 : UInt8)).length 1,
        ⟨512, List.replicate 1048576 0, [], []⟩) =
      .ok (plain [.write 65535 [1, 2], .read 65534 4] (List.replicate 1048576 0)).1 s ∧
    InSync s (plain [.write 65535 [1, 2], .read 65534 4] (List.replicate 1048576 0)).2 := by
  refine transparent 1 1 512 List.length_replicate ?_ (List.length_replicate ..).le
  intro call hcall
  rw [List.length_replicate]
  rcases List.mem_cons.mp hcall with rfl | hcall
  · exact ⟨by decide, by decide⟩
  · obtain rfl := List.mem_singleton.mp hcall
    exact ⟨by decide, by decide, by decide⟩

end RemoteCache

end RamLink
