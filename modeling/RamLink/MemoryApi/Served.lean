import RamLink.MemoryApi.Regions
import RamLink.MemoryService.Apis
import RamLink.WriteBack.Served

/-!
# RamLink.MemoryApi.Served

The regions of an application down to the memory of the local service: `MemoryRegion` over `_Cache`, over
`_Service`, over `LocalApi`, over any memory that keeps a region, however each connection fares.

`Plainly initial rs lost calls answers m m'`: so far as their answers tell, the calls make `m'` of the regions
`m`, each a byte array of its own. A write or a fill that raises is done in part, and what is read of the pages
of `lost` is left open.

* `call_plain`: one call.
* `regions_served`: every run is such a run, and a `close` that returns has stored the rest.
-/

namespace RamLink

open Lib WriteBack

namespace RAMLinkMemory

/-! ## What a call may answer -/

/-- The same answer, but for the bytes on the pages of `lost`; `start` is where they lie in the remote memory. -/
def Answer.Like (lost : List Int) (start : Nat) : Answer → Answer → Prop
  | .data bytes, answer => ∃ bytes', answer = .data bytes' ∧ bytes'.length = bytes.length ∧
      ∀ j < bytes.length, (((start + j) / 65536 : Nat) : Int) ∉ lost → bytes'[j]? = bytes[j]?
  | plain, answer => answer = plain

namespace Call

/-- The place in the remote memory of what a call reads. -/
def start (m : Regions) : Call → Nat
  | .read i offset _ =>
    match m.regions[i]? with
    | none => 0
    | some region => region.offset + offset.toNat
  | _ => 0

/-- What a call may have done that passes its checks and raises. -/
def Partly (m : Regions) : Call → Regions → Prop
  | .read i offset length, m' => m' = m ∧ ∃ region, m.regions[i]? = some region ∧
      region.handle.check offset length = .ok ()
  | .write i offset data, m' => ∃ region n, m.regions[i]? = some region ∧
      region.handle.check offset data.length = .ok () ∧ n ≤ data.length ∧
      m' = m.set i { region with contents := splice region.contents offset.toNat (data.take n) }
  | .fill i value, m' => ∃ region n, m.regions[i]? = some region ∧ (0 ≤ value ∧ value ≤ 255) ∧
      n ≤ region.contents.length ∧ (region.closed = true → n = 0) ∧
      m' = m.set i { region with
        contents := splice region.contents 0 (List.replicate n (UInt8.ofNat value.toNat)) }
  | .flush _, m' => m' = m
  | _, _ => False

def Plain (initial : Bytes) (rs : Nat) (lost : List Int) (m : Regions) (call : Call) (answer : Answer)
    (m' : Regions) : Prop :=
  (Answer.Like lost (call.start m) (call.spec initial rs m).1 answer ∧ m' = (call.spec initial rs m).2) ∨
    ((∃ e, answer = .raised e) ∧ call.Partly m m')

end Call

def Plainly (initial : Bytes) (rs : Nat) (lost : List Int) :
    List Call → List Answer → Regions → Regions → Prop
  | [], [], m, m' => m' = m
  | call :: calls, answer :: answers, m, m' =>
    ∃ mid, call.Plain initial rs lost m answer mid ∧ Plainly initial rs lost calls answers mid m'
  | _, _, _, _ => False

section Mono

variable {initial : Bytes} {rs : Nat} {lost lost' : List Int} {m m' : Regions}

theorem Answer.Like.refl (lost : List Int) (start : Nat) (answer : Answer) :
    Answer.Like lost start answer answer := by
  cases answer with
  | data bytes => exact ⟨bytes, rfl, rfl, fun _ _ _ => rfl⟩
  | done => rfl
  | raised e => rfl
  | noRegion => rfl

theorem Answer.Like.mono {start : Nat} {plain answer : Answer} (h : Answer.Like lost start plain answer)
    (hsub : lost ⊆ lost') : Answer.Like lost' start plain answer := by
  cases plain with
  | data bytes =>
    obtain ⟨bytes', rfl, hlen, hbytes⟩ := h
    exact ⟨bytes', rfl, hlen, fun j hj hn => hbytes j hj fun hl => hn (hsub hl)⟩
  | done => exact h
  | raised e => exact h
  | noRegion => exact h

theorem Call.Plain.mono {call : Call} {answer : Answer} (h : call.Plain initial rs lost m answer m')
    (hsub : lost ⊆ lost') : call.Plain initial rs lost' m answer m' :=
  h.imp_left fun h => ⟨h.1.mono hsub, h.2⟩

end Mono

/-! ## Steps of the memory object -/

section

variable {σ α : Type} {service : Api σ} {limit : Nat} {Good : σ → Prop} {region : σ → Bytes} {rs k fuel : Nat}
  {initial mem : Bytes} {lost : List Int} {m : Regions} {s : RAMLinkMemory × σ}

theorem run_onCache_raises {f : CacheM σ α} {e : Exc} {t : WriteBack × σ}
    (h : f.run (s.1.cache, s.2) = .error e t) :
    (onCache f).run s = .error e ({ s.1 with cache := t.1 }, t.2) := by
  have hf : f (s.1.cache, s.2) = .error e t := h
  show onCache f s = _
  unfold onCache
  rw [hf]

theorem onCache_ends {f : CacheM σ α} {Q : α → WriteBack × σ → Prop} {R : WriteBack × σ → Prop}
    (h : Ends f Q R (s.1.cache, s.2)) : Ends (onCache f)
      (fun a t => Q a (t.1.cache, t.2) ∧ t.1 = { s.1 with cache := t.1.cache })
      (fun t => R (t.1.cache, t.2) ∧ t.1 = { s.1 with cache := t.1.cache }) s := by
  unfold Ends at h ⊢
  cases hf : f.run (s.1.cache, s.2) with
  | ok a t =>
    rw [hf] at h
    rw [run_onCache hf]
    exact ⟨h, rfl⟩
  | error e t =>
    rw [hf] at h
    rw [run_onCache_raises hf]
    exact ⟨h, rfl⟩

theorem Call.run_ends {call : Call} {P : Answer → RAMLinkMemory × σ → Prop}
    (h : Ends (call.body service fuel) P (fun t => ∀ e, P (.raised e) t) s) :
    P (call.run service fuel s).1 (call.run service fuel s).2 := by
  unfold Ends at h
  unfold Call.run
  cases hbody : (call.body service fuel).run s with
  | ok answer t =>
    rw [hbody] at h
    exact h
  | error e t =>
    rw [hbody] at h
    exact h e

/-- The memory object and the service, against the regions as their owners see them. -/
structure Upheld (Good : σ → Prop) (region : σ → Bytes) (rs k : Nat) (initial : Bytes) (lost : List Int)
    (mem : Bytes) (m : Regions) (s : RAMLinkMemory × σ) : Prop where
  held : Held Cache.kind Good region 65536 rs k lost mem (s.1.cache, s.2)
  laid : Laid rs initial mem m
  next : s.1.nextOffset = m.next
  regions : s.1.regions = m.regions.map Region.handle

/-- The cache holds `mem` with the service, and nothing else of the memory object has changed. -/
def Recached (Good : σ → Prop) (region : σ → Bytes) (rs k : Nat) (lost : List Int) (mem : Bytes)
    (s t : RAMLinkMemory × σ) (P : List Int → Prop) : Prop :=
  HeldMore Cache.kind Good region 65536 rs k lost mem (t.1.cache, t.2) P ∧ t.1 = { s.1 with cache := t.1.cache }

/-- A read through a region object. -/
theorem readRegion_held (hapi : service.Serves limit Good region) (hk : 0 < k) (hlimit : 65536 ≤ limit)
    (h : Held Cache.kind Good region 65536 rs k lost mem (s.1.cache, s.2)) {r : Region} {o n : Nat}
    (hcheck : r.handle.check o n = .ok ()) : Ends (r.handle.read service fuel o n)
      (fun bytes t => Recached Good region rs k lost mem s t fun lost' =>
        bytes.length = n ∧ WriteBack.Agrees 65536 lost' mem (r.offset + o) bytes)
      (fun t => Recached Good region rs k lost mem s t fun _ => True) s := by
  have hread := read_held hapi hk (by omega) hlimit fuel h ((r.offset + o : Nat) : Int) n
  simp only [Int.toNat_natCast, Int.ofNat_inj] at hread
  unfold MemoryRegion.read
  rw [hcheck]
  exact onCache_ends hread

/-- A write through a region object. -/
theorem writeRegion_held (hapi : service.Serves limit Good region) (hk : 0 < k) (hlimit : 65536 ≤ limit)
    (h : Held Cache.kind Good region 65536 rs k lost mem (s.1.cache, s.2)) {r : Region} {o : Nat} {data : Bytes}
    (hcheck : r.handle.check o data.length = .ok ()) : Ends (r.handle.write service fuel o data)
      (fun _ t => Recached Good region rs k lost (splice mem (r.offset + o) data) s t fun _ => True)
      (fun t => ∃ n ≤ data.length,
        Recached Good region rs k lost (splice mem (r.offset + o) (data.take n)) s t fun _ => True) s := by
  have hwrite := write_held hapi hk (by omega) hlimit fuel h ((r.offset + o : Nat) : Int) data
  simp only [Int.toNat_natCast] at hwrite
  unfold MemoryRegion.write
  rw [hcheck]
  refine (onCache_ends hwrite).mono (fun _ t ht => ht) fun t ht => ?_
  obtain ⟨⟨n, hn, ht⟩, hsame⟩ := ht
  exact ⟨n, hn, ht, hsame⟩

theorem Recached.trans {lost' : List Int} {mem' : Bytes} {t u : RAMLinkMemory × σ} {P : List Int → Prop}
    (hsub : lost ⊆ lost') (hs : t.1 = { s.1 with cache := t.1.cache })
    (h : Recached Good region rs k lost' mem' t u P) : Recached Good region rs k lost mem' s u P := by
  obtain ⟨⟨lost'', hsub', h', hp⟩, hsame⟩ := h
  refine ⟨⟨lost'', List.Subset.trans hsub hsub', h', hp⟩, ?_⟩
  rw [hsame, hs]

/-- The loop of `fill`. -/
theorem fillLoop_held (hapi : service.Serves limit Good region) (hk : 0 < k) (hlimit : 65536 ≤ limit)
    {r : Region} (hopen : r.closed = false) (v : UInt8) (steps : Nat) : ∀ {pos left : Nat} {mem : Bytes}
      {lost : List Int} {s : RAMLinkMemory × σ}, pos + left = r.contents.length →
      r.offset + r.contents.length ≤ mem.length →
      Held Cache.kind Good region 65536 rs k lost mem (s.1.cache, s.2) →
      Ends (r.handle.fillLoop service fuel (List.replicate Cache.maxTransfer.toNat v) steps pos left)
        (fun _ t => Recached Good region rs k lost (splice mem (r.offset + pos) (List.replicate left v)) s t
          fun _ => True)
        (fun t => ∃ n ≤ left,
          Recached Good region rs k lost (splice mem (r.offset + pos) (List.replicate n v)) s t fun _ => True)
        s := by
  have hdone : ∀ {pos : Nat} {mem : Bytes} {lost : List Int} {s : RAMLinkMemory × σ},
      Held Cache.kind Good region 65536 rs k lost mem (s.1.cache, s.2) →
      Recached Good region rs k lost (splice mem (r.offset + pos) (List.replicate 0 v)) s s fun _ => True := by
    intro pos mem lost s h
    rw [List.replicate_zero, splice_nil]
    exact ⟨⟨lost, List.Subset.refl lost, h, trivial⟩, rfl⟩
  induction steps with
  | zero =>
    intro pos left mem lost s hp hr h
    unfold MemoryRegion.fillLoop
    split
    · rename_i hz
      obtain rfl : left = 0 := by omega
      exact .pure (hdone h)
    · exact .throw ⟨0, left.zero_le, hdone h⟩
  | succ steps ih =>
    intro pos left mem lost s hp hr h
    rcases Nat.eq_zero_or_pos left with rfl | hpos
    · unfold MemoryRegion.fillLoop
      rw [if_pos Int.natCast_zero]
      exact .pure (hdone h)
    -- one chunk, then the rest
    obtain ⟨n, hn⟩ : ∃ n, min left 1048576 = n := ⟨_, rfl⟩
    have hmin : min (left : Int) Cache.maxTransfer = (n : Nat) := by
      simp only [Cache.maxTransfer]
      omega
    have hslice : slice (List.replicate Cache.maxTransfer.toNat v) 0 (n : Int) = List.replicate n v := by
      have := slice_natCast (List.replicate Cache.maxTransfer.toNat v) 0 n
      rw [Nat.sub_zero, sub_replicate v (by simp only [Cache.maxTransfer]; omega)] at this
      exact this
    have hcast : (pos : Int) + (n : Nat) = ((pos + n : Nat) : Int) ∧
        (left : Int) - (n : Nat) = ((left - n : Nat) : Int) := by omega
    have hchunk : (List.replicate n v).length = n := List.length_replicate
    have hcheck : r.handle.check pos ((List.replicate n v).length : Nat) = .ok () := by
      unfold MemoryRegion.check Region.handle
      rw [hopen, hchunk, if_neg (by simp), if_neg (by simp only; omega)]
    have hsplice : ∀ l, l ≤ left - n → splice (splice mem (r.offset + pos) (List.replicate n v))
        (r.offset + (pos + n)) (List.replicate l v) = splice mem (r.offset + pos) (List.replicate (n + l) v) := by
      intro l hl
      rw [List.replicate_add, splice_append _ _ (by rw [hchunk, List.length_replicate]; omega), hchunk,
        Nat.add_assoc]
    unfold MemoryRegion.fillLoop
    rw [if_neg (by omega)]
    simp only [hmin, hslice, hcast.1, hcast.2]
    refine .bind ((writeRegion_held hapi hk hlimit h hcheck).mono (fun _ _ h => h) fun t ht => ?_) fun _ t ht => ?_
    · obtain ⟨l, hl, ht⟩ := ht
      rw [hchunk] at hl
      rw [List.take_replicate, Nat.min_eq_left hl] at ht
      exact ⟨l, by omega, ht⟩
    · obtain ⟨⟨lost', hsub, h', -⟩, hsame⟩ := ht
      have hlen : (splice mem (r.offset + pos) (List.replicate n v)).length = mem.length :=
        length_splice (by rw [hchunk]; omega)
      refine (ih (by omega) (by omega) h').mono (fun _ u hu => ?_) fun u hu => ?_
      · rw [hsplice _ le_rfl, Nat.add_sub_cancel' (by omega)] at hu
        exact hu.trans hsub hsame
      · obtain ⟨l, hl, hu⟩ := hu
        rw [hsplice _ hl] at hu
        exact ⟨n + l, by omega, hu.trans hsub hsame⟩

/-! ## Calls -/

/-- What a call has to show of its answer and of the state that it leaves. -/
def Abides (Good : σ → Prop) (region : σ → Bytes) (rs k : Nat) (initial : Bytes) (lost : List Int) (m : Regions)
    (call : Call) (answer : Answer) (t : RAMLinkMemory × σ) : Prop :=
  ∃ lost' mem' m', lost ⊆ lost' ∧ Upheld Good region rs k initial lost' mem' m' t ∧
    call.Plain initial rs lost' m answer m'

theorem Recached.upheld (h : Upheld Good region rs k initial lost mem m s) {t : RAMLinkMemory × σ} {mem' : Bytes}
    {P : List Int → Prop} (ht : Recached Good region rs k lost mem' s t P) {m' : Regions}
    (hlaid : Laid rs initial mem' m') (hnext : m'.next = m.next)
    (hsame : m'.regions.map Region.handle = m.regions.map Region.handle) :
    ∃ lost', lost ⊆ lost' ∧ Upheld Good region rs k initial lost' mem' m' t ∧ P lost' := by
  obtain ⟨⟨lost', hsub, h', hp⟩, hcache⟩ := ht
  refine ⟨lost', hsub, ⟨h', hlaid, ?_, ?_⟩, hp⟩
  · rw [hcache, hnext]
    exact h.next
  · rw [hcache, hsame]
    exact h.regions

theorem Upheld.getElem? (h : Upheld Good region rs k initial lost mem m s) (i : Nat) :
    s.1.regions[i]? = (m.regions[i]?).map Region.handle := by rw [h.regions, List.getElem?_map]

/-- A call that is rejected, or that has no region. -/
theorem Abides.of_same {call : Call} {answer : Answer} (h : Upheld Good region rs k initial lost mem m s)
    (hrun : call.run service fuel s = (answer, s)) (hspec : call.spec initial rs m = (answer, m)) :
    Abides Good region rs k initial lost m call (call.run service fuel s).1 (call.run service fuel s).2 := by
  refine ⟨lost, mem, m, List.Subset.refl lost, by rw [hrun]; exact h, .inl ?_⟩
  rw [hrun, hspec]
  exact ⟨.refl .., rfl⟩

theorem allocate_abides (h : Upheld Good region rs k initial lost mem m s) (hl : rs ≤ initial.length) (size : Int) :
    Abides Good region rs k initial lost m (.allocate size) ((Call.allocate size).run service fuel s).1
      ((Call.allocate size).run service fuel s).2 := by
  have hrs : s.1.cache.remoteSize = rs := h.held.sound.remoteSize
  have hnext := h.next
  by_cases h0 : size ≤ 0
  · refine .of_same h ?_ (if_pos h0)
    simp only [Call.run, Call.body, RAMLinkMemory.allocate, EStateM.run_bind, run_raiseIf, if_pos h0]
  obtain ⟨n, rfl⟩ := Int.eq_ofNat_of_zero_le (by omega : 0 ≤ size)
  by_cases hroom : rs < m.next + n
  · refine .of_same h ?_ (by simp only [Call.spec, if_neg h0, Int.toNat_natCast, if_pos hroom]; rfl)
    have hfull : s.1.cache.remoteSize < s.1.nextOffset + (n : Int) := by omega
    simp only [Call.run, Call.body, RAMLinkMemory.allocate, EStateM.run_bind, run_raiseIf, if_neg h0,
      EStateM.run_get, if_pos hfull]
  · have hfull : ¬ s.1.cache.remoteSize < s.1.nextOffset + (n : Int) := by omega
    have hlen : (sub initial m.next n).length = n := length_sub_of_le (by omega)
    have hspec := spec_allocate initial (by omega : 0 < n) (by omega : m.next + n ≤ rs)
    have hrun : (Call.allocate (n : Int)).run service fuel s = (.done, { s.1 with
        nextOffset := s.1.nextOffset + n, regions := s.1.regions ++ [⟨s.1.nextOffset, n, false⟩] }, s.2) := by
      simp only [Call.run, Call.body, RAMLinkMemory.allocate, EStateM.run_bind, run_raiseIf, if_neg h0,
        EStateM.run_get, if_neg hfull, run_modifyFst, EStateM.run_pure]
    refine ⟨lost, mem, _, List.Subset.refl lost, ?_, .inl ⟨?_, rfl⟩⟩
    · rw [hrun, hspec]
      refine ⟨h.held, h.laid.allocate hl (by omega) (by omega), ?_, ?_⟩
      · show s.1.nextOffset + (n : Int) = _
        rw [hnext]
        rfl
      · show s.1.regions ++ [_] = _
        rw [h.regions, hnext, List.map_append, List.map_singleton, Region.handle_fresh hlen]
    · rw [hrun, hspec]
      exact .refl ..

theorem readCall_abides (hapi : service.Serves limit Good region) (hk : 0 < k) (hlimit : 65536 ≤ limit)
    (h : Upheld Good region rs k initial lost mem m s) (i : Nat) (offset length : Int) :
    Abides Good region rs k initial lost m (.read i offset length) ((Call.read i offset length).run service fuel s).1
      ((Call.read i offset length).run service fuel s).2 := by
  have hget := h.getElem? i
  cases hi : m.regions[i]? with
  | none =>
    rw [hi] at hget
    refine .of_same h ?_ (by simp only [Call.spec, hi]; rfl)
    simp only [Call.run, Call.body, run_noRegion hget]
  | some r =>
    rw [hi, Option.map_some] at hget
    cases hc : r.handle.check offset length with
    | error e =>
      refine .of_same h ?_ (by simp only [Call.spec, hi, hc]; rfl)
      simp only [Call.run, Call.body, run_onRegion hget, MemoryRegion.read, EStateM.run_bind, run_fromExcept, hc]
    | ok =>
      obtain ⟨-, h1, h2, h3⟩ := check_ok hc
      obtain ⟨o, rfl⟩ := Int.eq_ofNat_of_zero_le h1
      obtain ⟨n, rfl⟩ := Int.eq_ofNat_of_zero_le h2
      simp only [Region.handle] at h3
      have hbytes : slice r.contents o (o + n) = sub mem (r.offset + o) n := by
        rw [slice_nat, ← h.laid.held i r hi, sub_sub _ _ _ _ _ (by omega)]
      have hspec := spec_read initial rs hi hc
      rw [hbytes] at hspec
      refine Call.run_ends ?_
      unfold Call.body Ends
      rw [run_onRegion hget]
      show Ends (do return Answer.data (← r.handle.read service fuel o n)) _ _ s
      refine .bind ((readRegion_held hapi hk hlimit h.held hc).mono (fun _ _ h => h) fun t ht => ?_)
        fun bytes t ht => .pure ?_
      · obtain ⟨lost', hsub, h', -⟩ := ht.upheld h h.laid rfl rfl
        exact fun e => ⟨lost', mem, m, hsub, h', .inr ⟨⟨e, rfl⟩, rfl, r, hi, hc⟩⟩
      · obtain ⟨lost', hsub, h', hlen, hagree⟩ := ht.upheld h h.laid rfl rfl
        have hsub' : (sub mem (r.offset + o) n).length = n := length_sub_of_le (by
          have := h.held.shows.length_mem
          have := h.laid.inside i r hi
          have := h.laid.next_le
          omega)
        have hstart : (Call.read i o n).start m = r.offset + o := by
          simp only [Call.start, hi, Int.toNat_natCast]
        refine ⟨lost', mem, m, hsub, h', .inl ?_⟩
        rw [hspec, hstart]
        refine ⟨⟨bytes, rfl, hlen.trans hsub'.symm, fun j hj hn => ?_⟩, rfl⟩
        rw [hsub'] at hj
        rw [hagree j (by omega) hn, getElem?_sub, if_pos hj]

/-- A write inside a region, of which nothing but its bytes changes. -/
theorem Upheld.write (h : Upheld Good region rs k initial lost mem m s) {i o : Nat} {r : Region} {data : Bytes}
    (hi : m.regions[i]? = some r) (hin : o + data.length ≤ r.contents.length) {t : RAMLinkMemory × σ}
    (ht : Recached Good region rs k lost (splice mem (r.offset + o) data) s t fun _ => True) :
    ∃ lost', lost ⊆ lost' ∧ Upheld Good region rs k initial lost' (splice mem (r.offset + o) data)
      (m.set i { r with contents := splice r.contents o data }) t := by
  have hsame : ({ r with contents := splice r.contents o data } : Region).handle = r.handle := by
    simp only [Region.handle, length_splice hin]
  obtain ⟨lost', hsub, h', -⟩ := ht.upheld h (h.laid.write h.held.shows.length_mem hi hin) rfl
    (handles_set hi hsame)
  exact ⟨lost', hsub, h'⟩

theorem writeCall_abides (hapi : service.Serves limit Good region) (hk : 0 < k) (hlimit : 65536 ≤ limit)
    (h : Upheld Good region rs k initial lost mem m s) (i : Nat) (offset : Int) (data : Bytes) :
    Abides Good region rs k initial lost m (.write i offset data) ((Call.write i offset data).run service fuel s).1
      ((Call.write i offset data).run service fuel s).2 := by
  have hget := h.getElem? i
  cases hi : m.regions[i]? with
  | none =>
    rw [hi] at hget
    refine .of_same h ?_ (by simp only [Call.spec, hi]; rfl)
    simp only [Call.run, Call.body, run_noRegion hget]
  | some r =>
    rw [hi, Option.map_some] at hget
    cases hc : r.handle.check offset data.length with
    | error e =>
      refine .of_same h ?_ (by simp only [Call.spec, hi, hc]; rfl)
      simp only [Call.run, Call.body, run_onRegion hget, MemoryRegion.write, EStateM.run_bind, run_fromExcept, hc]
    | ok =>
      obtain ⟨-, h1, h2, h3⟩ := check_ok hc
      obtain ⟨o, rfl⟩ := Int.eq_ofNat_of_zero_le h1
      simp only [Region.handle] at h3
      have hspec := spec_write initial rs hi hc
      have hset : setSlice r.contents (o : Int) (o + data.length) data = splice r.contents o data :=
        setSlice_nat _ o data.length data rfl (by omega)
      rw [hset] at hspec
      refine Call.run_ends ?_
      unfold Call.body Ends
      rw [run_onRegion hget]
      show Ends (do
        r.handle.write service fuel o data
        return Answer.done) _ _ s
      refine .bind ((writeRegion_held hapi hk hlimit h.held hc).mono (fun _ _ h => h) fun t ht => ?_)
        fun _ t ht => .pure ?_
      · obtain ⟨n, hn, ht⟩ := ht
        obtain ⟨lost', hsub, h'⟩ := h.write hi (by rw [List.length_take]; omega) ht
        exact fun e => ⟨lost', _, _, hsub, h', .inr ⟨⟨e, rfl⟩, r, n, hi, hc, hn, rfl⟩⟩
      · obtain ⟨lost', hsub, h'⟩ := h.write hi (by omega) ht
        refine ⟨lost', _, _, hsub, h', .inl ?_⟩
        rw [hspec]
        exact ⟨.refl .., rfl⟩

/-- No byte of the region is written. -/
theorem set_splice_nil {i o : Nat} {r : Region} (hi : m.regions[i]? = some r) :
    m.set i { r with contents := splice r.contents o [] } = m := by
  obtain ⟨hlt, rfl⟩ := List.getElem?_eq_some_iff.mp hi
  rw [splice_nil]
  exact congrArg (Regions.mk m.next) (List.set_getElem_self hlt)

theorem fillCall_abides (hapi : service.Serves limit Good region) (hk : 0 < k) (hlimit : 65536 ≤ limit)
    (h : Upheld Good region rs k initial lost mem m s) (i : Nat) (value : Int) :
    Abides Good region rs k initial lost m (.fill i value) ((Call.fill i value).run service fuel s).1
      ((Call.fill i value).run service fuel s).2 := by
  have hget := h.getElem? i
  cases hi : m.regions[i]? with
  | none =>
    rw [hi] at hget
    refine .of_same h ?_ (by simp only [Call.spec, hi]; rfl)
    simp only [Call.run, Call.body, run_noRegion hget]
  | some r =>
    rw [hi, Option.map_some] at hget
    by_cases hv : 0 ≤ value ∧ value ≤ 255
    · have hno : ¬ ¬ (0 ≤ value ∧ value ≤ 255) := not_not.mpr hv
      by_cases hclosed : r.closed
      · -- the first chunk is refused, unless there is no fuel for it
        have hsize : ¬ r.handle.size = 0 := by
          have := h.laid.nonempty i r hi
          simp only [Region.handle]
          omega
        cases fuel with
        | zero =>
          have hrun : (Call.fill i value).run service 0 s = (.raised .outOfFuel, s) := by
            simp only [Call.run, Call.body, run_onRegion hget, MemoryRegion.fill, EStateM.run_bind, run_raiseIf,
              if_neg hno, MemoryRegion.fillLoop, if_neg hsize, run_throw']
          rw [hrun]
          exact ⟨lost, mem, m, List.Subset.refl lost, h, .inr ⟨⟨_, rfl⟩, r, 0, hi, hv, Nat.zero_le _, fun _ => rfl,
            (set_splice_nil hi).symm⟩⟩
        | succ fuel =>
          have hcheck : ∀ o l, r.handle.check o l = .error (.runtimeError "memory region is closed") :=
            fun o l => if_pos hclosed
          refine .of_same h ?_ (by simp only [Call.spec, hi, if_neg hno, if_pos hclosed]; rfl)
          simp only [Call.run, Call.body, run_onRegion hget, MemoryRegion.fill, EStateM.run_bind, run_raiseIf,
            if_neg hno, MemoryRegion.fillLoop, if_neg hsize, MemoryRegion.write, run_fromExcept, hcheck]
      · have hopen : r.closed = false := by simpa using hclosed
        have hmem := h.held.shows.length_mem
        have hinside := h.laid.inside i r hi
        have hnext := h.laid.next_le
        have hfill : Ends (r.handle.fillLoop service fuel
            (List.replicate Cache.maxTransfer.toNat (UInt8.ofNat value.toNat)) fuel (0 : Nat) r.contents.length)
            _ _ s := fillLoop_held hapi hk hlimit hopen _ fuel (Nat.zero_add _) (by omega) h.held
        refine Call.run_ends ?_
        unfold Call.body Ends
        rw [run_onRegion hget]
        show Ends (do
          r.handle.fill service fuel value
          return Answer.done) _ _ s
        unfold MemoryRegion.fill
        refine .bind (.bind_raiseIf (fun hc => absurd hv hc) fun _ =>
          hfill.mono (fun _ _ h => h) fun t ht => ?_) fun _ t ht => .pure ?_
        · obtain ⟨n, hn, ht⟩ := ht
          obtain ⟨lost', hsub, h'⟩ := h.write hi (by rw [List.length_replicate]; omega) ht
          exact fun e => ⟨lost', _, _, hsub, h', .inr ⟨⟨e, rfl⟩, r, n, hi, hv, hn,
            fun hc => absurd hc hclosed, rfl⟩⟩
        · obtain ⟨lost', hsub, h'⟩ := h.write hi (by rw [List.length_replicate]; omega) ht
          have hwhole : splice r.contents 0 (List.replicate r.contents.length (UInt8.ofNat value.toNat)) =
              List.replicate r.contents.length (UInt8.ofNat value.toNat) := by simp [splice]
          rw [hwhole] at h'
          have hspec : (Call.fill i value).spec initial rs m = (.done, m.set i { r with
              contents := List.replicate r.contents.length (UInt8.ofNat value.toNat) }) := by
            simp only [Call.spec, hi, if_neg hno, hopen, if_false, Bool.false_eq_true]
          refine ⟨lost', _, _, hsub, h', .inl ?_⟩
          rw [hspec]
          exact ⟨.refl .., rfl⟩
    · refine .of_same h ?_ (by simp only [Call.spec, hi, hv, not_false_eq_true, if_true]; rfl)
      simp only [Call.run, Call.body, run_onRegion hget, MemoryRegion.fill, EStateM.run_bind, run_raiseIf,
        if_pos hv]

theorem closeCall_abides (h : Upheld Good region rs k initial lost mem m s) (i : Nat) :
    Abides Good region rs k initial lost m (.close i) ((Call.close i).run service fuel s).1
      ((Call.close i).run service fuel s).2 := by
  have hget := h.getElem? i
  cases hi : m.regions[i]? with
  | none =>
    rw [hi] at hget
    refine .of_same h ?_ (by simp only [Call.spec, hi]; rfl)
    simp only [Call.run, Call.body, run_noRegion hget]
  | some r =>
    rw [hi, Option.map_some] at hget
    have hrun : (Call.close i).run service fuel s =
        (.done, { s.1 with regions := s.1.regions.set i r.handle.close }, s.2) := by
      simp only [Call.run, Call.body, run_onRegion hget, EStateM.run_bind, run_modifyFst, EStateM.run_pure]
    have hspec : (Call.close i).spec initial rs m = (.done, m.set i { r with closed := true }) := by
      simp only [Call.spec, hi]
    refine ⟨lost, mem, _, List.Subset.refl lost, ?_, .inl ⟨?_, rfl⟩⟩
    · rw [hrun, hspec]
      refine ⟨h.held, h.laid.close hi, h.next, ?_⟩
      show s.1.regions.set i r.handle.close = (m.regions.set i _).map Region.handle
      rw [h.regions, List.map_set]
      rfl
    · rw [hrun, hspec]
      exact .refl ..

theorem flush_upheld (hapi : service.Serves limit Good region) (hlimit : 65536 ≤ limit)
    (h : Upheld Good region rs k initial lost mem m s) (order : SetOrder) :
    Ends (RAMLinkMemory.flush service order)
      (fun _ t => Upheld Good region rs k initial lost mem m t ∧
        ∀ i : Nat, (i : Int) ∉ lost → i * 65536 < rs → pageAt 65536 rs (region t.2) i = pageAt 65536 rs mem i)
      (fun t => Upheld Good region rs k initial lost mem m t) s := by
  have hsame : ∀ {t : RAMLinkMemory × σ}, Held Cache.kind Good region 65536 rs k lost mem (t.1.cache, t.2) →
      t.1 = { s.1 with cache := t.1.cache } → Upheld Good region rs k initial lost mem m t := by
    intro t ht hcache
    refine ⟨ht, h.laid, ?_, ?_⟩
    · rw [hcache]
      exact h.next
    · rw [hcache]
      exact h.regions
  refine (onCache_ends (flush_held hapi hlimit h.held order)).mono (fun _ t ht => ?_) fun t ht => ?_
  · exact ⟨hsame ht.1.1 ht.2, ht.1.2⟩
  · exact hsame ht.1 ht.2

/-- **One call** over anything that serves a region. -/
theorem call_abides (hapi : service.Serves limit Good region) (hk : 0 < k) (hlimit : 65536 ≤ limit)
    (hl : rs ≤ initial.length) (fuel : Nat) (h : Upheld Good region rs k initial lost mem m s) (call : Call) :
    Abides Good region rs k initial lost m call (call.run service fuel s).1 (call.run service fuel s).2 := by
  cases call with
  | allocate size => exact allocate_abides h hl size
  | read i offset length => exact readCall_abides hapi hk hlimit h i offset length
  | write i offset data => exact writeCall_abides hapi hk hlimit h i offset data
  | fill i value => exact fillCall_abides hapi hk hlimit h i value
  | close i => exact closeCall_abides h i
  | flush order =>
    refine Call.run_ends ?_
    unfold Call.body
    refine .bind ((flush_upheld hapi hlimit h order).mono (fun _ _ h => h) fun t ht e => ?_) fun _ t ht => .pure ?_
    · exact ⟨lost, mem, m, List.Subset.refl lost, ht, .inr ⟨⟨e, rfl⟩, rfl⟩⟩
    · exact ⟨lost, mem, m, List.Subset.refl lost, ht.1, .inl ⟨.refl .., rfl⟩⟩

/-- A run of calls. -/
theorem runs_plain (hapi : service.Serves limit Good region) (hk : 0 < k) (hlimit : 65536 ≤ limit)
    (hl : rs ≤ initial.length) (fuel : Nat) (calls : List Call) : ∀ {lost : List Int} {mem : Bytes} {m : Regions}
      {s : RAMLinkMemory × σ}, Upheld Good region rs k initial lost mem m s →
    ∃ lost' mem' m', lost ⊆ lost' ∧ Upheld Good region rs k initial lost' mem' m' (runs service fuel calls s).2 ∧
      Plainly initial rs lost' calls (runs service fuel calls s).1 m m' := by
  induction calls with
  | nil => exact fun {lost mem m s} h => ⟨lost, mem, m, List.Subset.refl lost, h, rfl⟩
  | cons call calls ih =>
    intro lost mem m s h
    obtain ⟨lost', mem', mid, hsub, h', hcall⟩ := call_abides hapi hk hlimit hl fuel h call
    obtain ⟨lost'', mem'', m', hsub', h'', hrest⟩ := ih h'
    exact ⟨lost'', mem'', m', List.Subset.trans hsub hsub', h'', mid, hcall.mono hsub', hrest⟩

/-- What `close` leaves of a region in the remote memory. -/
theorem close_upheld (hapi : service.Serves limit Good region) (hlimit : 65536 ≤ limit)
    (h : Upheld Good region rs k initial lost mem m s) (order : SetOrder) :
    Ends (close service order)
      (fun _ t => (∀ r ∈ t.1.regions, r.closed = true) ∧ ∀ r ∈ m.regions, ∀ j < r.contents.length,
        (((r.offset + j) / 65536 : Nat) : Int) ∉ lost → (region t.2)[r.offset + j]? = r.contents[j]?)
      (fun _ => True) s := by
  unfold close
  refine .bind ((flush_upheld hapi hlimit h order).mono (fun _ _ h => h) fun _ _ => trivial) fun _ t ht =>
    .modifyFst ⟨fun r hr => ?_, fun r hr j hj hn => ?_⟩
  · obtain ⟨r', -, rfl⟩ := List.mem_map.mp hr
    rfl
  · obtain ⟨i, hi⟩ := List.mem_iff_getElem?.mp hr
    have hmem := h.held.shows.length_mem
    have hin := h.laid.inside i r hi
    have hle := h.laid.next_le
    have hlt : r.offset + j < rs := by omega
    have hpage := ht.2 _ hn (Nat.lt_of_le_of_lt (Nat.div_mul_le_self _ 65536) hlt)
    show (region t.2)[r.offset + j]? = _
    rw [← getElem?_pageAt (by omega : 0 < 65536) hlt, hpage, getElem?_pageAt (by omega) hlt, ← h.laid.held i r hi,
      getElem?_sub, if_pos hj]

end

/-- **The regions of an application**: however each connection fares, every call has the answer that it has on
regions which are byte arrays of their own, but for a write that raises, which is done in part, and for what is
read of some pages, no more of them than have been read and are no longer in the cache. A `close` that returns
has stored the rest. -/
theorem regions_served {μ : Type} {memory : Memory μ} {Good : μ → Prop} {kept : μ → Bytes}
    (hmem : memory.Keeps Good kept) {text : Exc → Option Bytes}
    (htext : ∀ e message, text e = some message → message.length < 2 ^ 30) {remoteMb cacheMb : Int}
    {self : RAMLinkMemory} (hinit : init remoteMb cacheMb = .ok self) {s : Loopback μ} (hgood : Good s.memory)
    (hsize : self.cache.remoteSize ≤ (kept s.memory).length) (hsmall : (kept s.memory).length < 2 ^ 64)
    (fuel : Nat) (calls : List Call) {answers : List Answer} {t : RAMLinkMemory × Loopback μ}
    (hrun : runs (Loopback.api (Service.api memory text)) fuel calls (self, s) = (answers, t)) :
    ∃ (lost : List Int) (m : Regions), lost.length + t.1.cache.pages.size ≤ t.1.cache.remoteReads ∧
      Plainly (kept s.memory) self.cache.remoteSize.toNat lost calls answers ⟨0, []⟩ m ∧
      ∀ (order : SetOrder) (u : RAMLinkMemory × Loopback μ),
        (close (Loopback.api (Service.api memory text)) order).run t = .ok () u →
        (∀ r ∈ u.1.regions, r.closed = true) ∧ ∀ r ∈ m.regions, ∀ j < r.contents.length,
          (((r.offset + j) / 65536 : Nat) : Int) ∉ lost → (kept u.2.memory)[r.offset + j]? = r.contents[j]? := by
  obtain ⟨rs, k, hk, rfl⟩ := init_ok hinit
  have hserves := Loopback.api_serves (Service.api_client memory htext) hmem
  have hrs : rs ≤ (kept s.memory).length := Int.ofNat_le.mp hsize
  have hstart : Upheld (fun s : Loopback μ => Good s.memory ∧ (kept s.memory).length < 2 ^ 64)
      (Loopback.region kept) rs k (kept s.memory) [] (sub (kept s.memory) 0 rs) ⟨0, []⟩
      (⟨empty 65536 rs k, 0, []⟩, s) :=
    ⟨.start ⟨hgood, hsmall⟩ hrs, .start rs _, rfl, rfl⟩
  obtain ⟨lost, mem, m, -, h, hplain⟩ := runs_plain hserves hk (by decide) hrs fuel calls hstart
  rw [hrun] at h hplain
  exact ⟨lost, m, h.held.shows.few.reads, hplain, fun order u hclose =>
    (close_upheld hserves (by decide) h order).of_ok hclose⟩

/-- Two regions, a write into each, a flush and a read. -/
def sixCalls : List Call :=
  [.allocate 4, .allocate 4, .write 0 1 [1, 2], .fill 1 9, .flush asAdded, .read 0 0 4]

theorem regions_served_two : ∃ answers t,
    runs (Loopback.api (Service.api Memory.array fun _ => none)) 4 sixCalls
      (⟨empty 65536 1048576 16, 0, []⟩, ⟨⟨List.replicate 1048576 7, []⟩, [.served .apart [], .served .together []]⟩) =
        (answers, t) ∧
    ∃ (lost : List Int) (m : Regions), lost.length + t.1.cache.pages.size ≤ t.1.cache.remoteReads ∧
      Plainly (List.replicate 1048576 7) 1048576 lost sixCalls answers ⟨0, []⟩ m ∧
      ∀ (order : SetOrder) (u : RAMLinkMemory × Loopback RemoteArray),
        (close (Loopback.api (Service.api Memory.array fun _ => none)) order).run t = .ok () u →
        (∀ r ∈ u.1.regions, r.closed = true) ∧ ∀ r ∈ m.regions, ∀ j < r.contents.length,
          (((r.offset + j) / 65536 : Nat) : Int) ∉ lost → u.2.memory.bytes[r.offset + j]? = r.contents[j]? := by
  have hinit : init 1 1 = .ok ⟨empty 65536 1048576 16, 0, []⟩ := rfl
  obtain ⟨bytes, hbytes⟩ : ∃ bytes : Bytes, List.replicate 1048576 7 = bytes := ⟨_, rfl⟩
  have hlen : bytes.length = 1048576 := by rw [← hbytes, List.length_replicate]
  rw [hbytes]
  obtain ⟨answers, t, hrun⟩ : ∃ answers t,
      runs (Loopback.api (Service.api Memory.array fun _ => none)) 4 sixCalls
        (⟨empty 65536 1048576 16, 0, []⟩, ⟨⟨bytes, []⟩, [.served .apart [], .served .together []]⟩) = (answers, t) :=
    ⟨_, _, Prod.mk.eta.symm⟩
  exact ⟨answers, t, hrun, regions_served Memory.array_keeps (fun _ _ h => by cases h) hinit trivial
    (by show (1048576 : Int) ≤ bytes.length; omega) (by show bytes.length < 2 ^ 64; omega) 4 sixCalls hrun⟩

end RAMLinkMemory

end RamLink
