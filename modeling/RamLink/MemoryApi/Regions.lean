import RamLink.MemoryApi
import RamLink.WriteBack.Flat

/-!
# RamLink.MemoryApi.Regions

Isolation of memory regions.

`Regions` is what an application is meant to see: every region is a byte array of its own, which
starts with the bytes the remote memory had there. `Call.spec` is a call on it.

* `call_ok`: one call of the implementation is one call of `Regions`, as long as the pages it
  touches evict no dirty page.
* `isolated`: so do all runs of calls, and `close` leaves every region's contents in the remote
  memory.
-/

namespace RamLink

open Lib WriteBack

/-- A region as its owner sees it. -/
structure Region where
  offset : Nat
  contents : Bytes
  closed : Bool
deriving DecidableEq

structure Regions where
  next : Nat
  regions : List Region

namespace Region

/-- A region that nobody has written. -/
def fresh (initial : Bytes) (offset size : Nat) : Region := ⟨offset, sub initial offset size, false⟩

def handle (self : Region) : MemoryRegion := ⟨self.offset, self.contents.length, self.closed⟩

theorem handle_fresh {initial : Bytes} {offset n : Nat} (h : (sub initial offset n).length = n) :
    (fresh initial offset n).handle = ⟨offset, n, false⟩ := by
  simp only [handle, fresh, h]

theorem check_fresh {initial : Bytes} {offset n o l : Nat} (h : (sub initial offset n).length = n)
    (hl : o + l ≤ n) : (fresh initial offset n).handle.check o l = .ok () := by
  rw [handle_fresh h, MemoryRegion.check, if_neg (by simp), if_neg (by simp only; omega)]

/-- The two regions have no byte in common. -/
def Apart (a b : Region) : Prop :=
  a.offset + a.contents.length ≤ b.offset ∨ b.offset + b.contents.length ≤ a.offset

end Region

namespace Regions

def set (m : Regions) (i : Nat) (region : Region) : Regions :=
  { m with regions := m.regions.set i region }

end Regions

namespace RAMLinkMemory

/-- The number of chunks in which `fill` writes `n` bytes. -/
def chunks (n : Nat) : Nat := (n + 1048575) / 1048576

/-- The pages that `c` chunks of `fill` touch. -/
def filled (base : Nat) : Nat → Nat → List (Access Int)
  | 0, _ => []
  | c + 1, left => (pagesOf 65536 base (min left 1048576)).map .change ++
      filled (base + min left 1048576) c (left - min left 1048576)

namespace Call

def spec (initial : Bytes) (remoteSize : Nat) (m : Regions) : Call → Answer × Regions
  | .allocate size =>
    if size ≤ 0 then (.raised (.valueError "allocation size must be positive"), m)
    else if remoteSize < m.next + size.toNat then
      (.raised (.memoryError "RAM-Link remote memory exhausted"), m)
    else (.done, ⟨m.next + size.toNat, m.regions ++ [.fresh initial m.next size.toNat]⟩)
  | .read i offset length =>
    match m.regions[i]? with
    | none => (.noRegion, m)
    | some region => match region.handle.check offset length with
      | .error e => (.raised e, m)
      | .ok _ => (.data (slice region.contents offset (offset + length)), m)
  | .write i offset data =>
    match m.regions[i]? with
    | none => (.noRegion, m)
    | some region => match region.handle.check offset data.length with
      | .error e => (.raised e, m)
      | .ok _ => (.done, m.set i { region with
          contents := setSlice region.contents offset (offset + data.length) data })
  | .fill i value =>
    match m.regions[i]? with
    | none => (.noRegion, m)
    | some region =>
      if ¬ (0 ≤ value ∧ value ≤ 255) then (.raised (.valueError "fill value must be 0..255"), m)
      else if region.closed then (.raised (.runtimeError "memory region is closed"), m)
      else (.done, m.set i { region with
        contents := List.replicate region.contents.length (UInt8.ofNat value.toNat) })
  | .close i =>
    match m.regions[i]? with
    | none => (.noRegion, m)
    | some region => (.done, m.set i { region with closed := true })
  | .flush _ => (.done, m)

/-- The pages a call touches, in order; a rejected call touches none. -/
def accesses (m : Regions) : Call → List (Access Int)
  | .allocate _ => []
  | .read i offset length =>
    match m.regions[i]? with
    | none => []
    | some region => match region.handle.check offset length with
      | .error _ => []
      | .ok _ => (pagesOf 65536 (region.offset + offset.toNat) length.toNat).map .use
  | .write i offset data =>
    match m.regions[i]? with
    | none => []
    | some region => match region.handle.check offset data.length with
      | .error _ => []
      | .ok _ => (pagesOf 65536 (region.offset + offset.toNat) data.length).map .change
  | .fill i value =>
    match m.regions[i]? with
    | none => []
    | some region =>
      if ¬ (0 ≤ value ∧ value ≤ 255) ∨ region.closed then []
      else filled region.offset (chunks region.contents.length) region.contents.length
  | .close _ => []
  | .flush _ => [.clean]

end Call

def specs (initial : Bytes) (remoteSize : Nat) : List Call → Regions → List Answer × Regions
  | [], m => ([], m)
  | call :: calls, m =>
    let (answer, m') := call.spec initial remoteSize m
    let (answers, m'') := specs initial remoteSize calls m'
    (answer :: answers, m'')

/-- The pages that a run of calls touches. -/
def touched (initial : Bytes) (remoteSize : Nat) : List Call → Regions → List (Access Int)
  | [], _ => []
  | call :: calls, m => call.accesses m ++
      touched initial remoteSize calls (call.spec initial remoteSize m).2

/-! ## The regions lie side by side in the flat memory -/

structure Laid (rs : Nat) (initial mem : Bytes) (m : Regions) : Prop where
  next_le : m.next ≤ rs
  tail : sub mem m.next (rs - m.next) = sub initial m.next (rs - m.next)
  inside : ∀ (i : Nat) (region : Region), m.regions[i]? = some region →
    region.offset + region.contents.length ≤ m.next
  nonempty : ∀ (i : Nat) (region : Region), m.regions[i]? = some region →
    0 < region.contents.length
  held : ∀ (i : Nat) (region : Region), m.regions[i]? = some region →
    sub mem region.offset region.contents.length = region.contents
  apart : ∀ (i j : Nat) (a b : Region), i ≠ j → m.regions[i]? = some a → m.regions[j]? = some b → a.Apart b

variable {rs k : Nat} {initial mem : Bytes} {m : Regions}

theorem Laid.start (rs : Nat) (initial : Bytes) : Laid rs initial (sub initial 0 rs) ⟨0, []⟩ where
  next_le := Nat.zero_le _
  tail := by
    show sub (sub initial 0 rs) 0 (rs - 0) = sub initial 0 (rs - 0)
    rw [sub_sub _ _ _ _ _ (by omega), Nat.zero_add]
  inside := by simp
  nonempty := by simp
  held := by simp
  apart := by simp

theorem get_set {m : Regions} {i j : Nat} {a b : Region}
    (hb : (m.set i a).regions[j]? = some b) :
    (j = i ∧ b = a) ∨ (j ≠ i ∧ m.regions[j]? = some b) := by
  unfold Regions.set at hb
  rw [List.getElem?_set] at hb
  split at hb
  · rename_i hij
    split at hb
    · cases hb
      exact .inl ⟨hij.symm, rfl⟩
    · cases hb
  · rename_i hij
    exact .inr ⟨fun h => hij h.symm, hb⟩

/-- A region takes up its place in the memory that no region has taken. -/
theorem Laid.allocate (h : Laid rs initial mem m) (hl : rs ≤ initial.length)
    {n : Nat} (h0 : 0 < n) (hn : m.next + n ≤ rs) :
    Laid rs initial mem ⟨m.next + n, m.regions ++ [Region.fresh initial m.next n]⟩ := by
  have hlen : (sub initial m.next n).length = n := length_sub_of_le (by omega)
  have hnew : ∀ i region, (m.regions ++ [Region.fresh initial m.next n])[i]? = some region →
      (i < m.regions.length ∧ m.regions[i]? = some region) ∨
        (i = m.regions.length ∧ region = Region.fresh initial m.next n) := by
    intro i region hi
    rw [List.getElem?_append] at hi
    split at hi
    · rename_i hlt
      exact .inl ⟨hlt, hi⟩
    · rename_i hge
      obtain ⟨h0, rfl⟩ : i - m.regions.length = 0 ∧ _ = region := by
        rw [List.getElem?_singleton] at hi
        split at hi
        · rename_i h0
          exact ⟨h0, Option.some.inj hi⟩
        · cases hi
      exact .inr ⟨by omega, rfl⟩
  refine ⟨hn, ?_, fun i region hi => ?_, fun i region hi => ?_, fun i region hi => ?_,
    fun i j a b hij ha hb => ?_⟩
  · have := congrArg (fun l => sub l n (rs - (m.next + n))) h.tail
    rwa [sub_sub _ _ _ _ _ (by omega), sub_sub _ _ _ _ _ (by omega)] at this
  · rcases hnew i region hi with ⟨-, hi⟩ | ⟨-, rfl⟩
    · exact Nat.le_trans (h.inside i region hi) (Nat.le_add_right _ _)
    · simp only [Region.fresh, hlen, Nat.le_refl]
  · rcases hnew i region hi with ⟨-, hi⟩ | ⟨-, rfl⟩
    · exact h.nonempty i region hi
    · simp only [Region.fresh, hlen]
      exact h0
  · rcases hnew i region hi with ⟨-, hi⟩ | ⟨-, rfl⟩
    · exact h.held i region hi
    · -- the bytes of the new region are still the initial ones
      have := congrArg (fun l => sub l 0 n) h.tail
      rw [sub_sub _ _ _ _ _ (by omega), sub_sub _ _ _ _ _ (by omega), Nat.add_zero] at this
      simp only [Region.fresh, hlen]
      exact this
  · rcases hnew i a ha with ⟨hi, ha⟩ | ⟨hi, rfl⟩ <;> rcases hnew j b hb with ⟨hj, hb⟩ | ⟨hj, rfl⟩
    · exact h.apart i j a b hij ha hb
    · exact .inl (h.inside i a ha)
    · exact .inr (h.inside j b hb)
    · omega

/-- A write inside one region changes its contents and no other region's. -/
theorem Laid.write (h : Laid rs initial mem m) (hm : mem.length = rs) {i o : Nat} {region : Region}
    {data : Bytes} (hi : m.regions[i]? = some region) (ho : o + data.length ≤ region.contents.length) :
    Laid rs initial (splice mem (region.offset + o) data)
      (m.set i { region with contents := splice region.contents o data }) := by
  have hin := h.inside i region hi
  have hle := h.next_le
  have hlen : (splice region.contents o data).length = region.contents.length := length_splice ho
  have hbase : region.offset + o - region.offset = o := by omega
  refine ⟨hle, ?_, fun j b hj => ?_, fun j b hj => ?_, fun j b hj => ?_,
    fun j j' a b hjj ha hb => ?_⟩
  · show sub _ m.next _ = _
    rw [sub_splice_apart (by omega) (.inr (by omega))]
    exact h.tail
  · rcases get_set hj with ⟨-, rfl⟩ | ⟨-, hj⟩
    · simp only [hlen]
      exact hin
    · exact h.inside j b hj
  · rcases get_set hj with ⟨-, rfl⟩ | ⟨-, hj⟩
    · simp only [hlen]
      exact h.nonempty i region hi
    · exact h.nonempty j b hj
  · rcases get_set hj with ⟨-, rfl⟩ | ⟨hji, hj⟩
    · simp only [hlen]
      rw [sub_splice_inside (by omega) (by omega) (by omega), h.held i region hi, hbase]
    · have hb := h.inside j b hj
      have hap := h.apart i j region b (Ne.symm hji) hi hj
      rw [← h.held j b hj, length_sub_of_le (by omega), h.held j b hj]
      refine (sub_splice_apart (by omega) ?_).trans (h.held j b hj)
      unfold Region.Apart at hap
      omega
  · have hsame : ∀ c : Region, ({ region with contents := splice region.contents o data } : Region).Apart c ↔
        region.Apart c := fun c => by simp only [Region.Apart, hlen]
    have hsame' : ∀ c : Region, c.Apart { region with contents := splice region.contents o data } ↔
        c.Apart region := fun c => by simp only [Region.Apart, hlen]
    rcases get_set ha with ⟨hj, rfl⟩ | ⟨hj, ha⟩ <;> rcases get_set hb with ⟨hj', rfl⟩ | ⟨hj', hb⟩
    · omega
    · exact (hsame b).mpr (h.apart i j' region b (Ne.symm hj') hi hb)
    · exact (hsame' a).mpr (h.apart j i a region hj ha hi)
    · exact h.apart j j' a b hjj ha hb

theorem Laid.close (h : Laid rs initial mem m) {i : Nat} {region : Region}
    (hi : m.regions[i]? = some region) : Laid rs initial mem (m.set i { region with closed := true }) := by
  refine ⟨h.next_le, h.tail, fun j b hj => ?_, fun j b hj => ?_, fun j b hj => ?_,
    fun j j' a b hjj ha hb => ?_⟩
  · rcases get_set hj with ⟨-, rfl⟩ | ⟨-, hj⟩
    · exact h.inside i region hi
    · exact h.inside j b hj
  · rcases get_set hj with ⟨-, rfl⟩ | ⟨-, hj⟩
    · exact h.nonempty i region hi
    · exact h.nonempty j b hj
  · rcases get_set hj with ⟨-, rfl⟩ | ⟨-, hj⟩
    · exact h.held i region hi
    · exact h.held j b hj
  · rcases get_set ha with ⟨hj, rfl⟩ | ⟨hj, ha⟩ <;> rcases get_set hb with ⟨hj', rfl⟩ | ⟨hj', hb⟩
    · omega
    · exact h.apart i j' region b (Ne.symm hj') hi hb
    · exact h.apart j i a region hj ha hi
    · exact h.apart j j' a b hjj ha hb

/-! ## Calls keep the relation -/

/-- The memory object and the service against the regions as their owners see them. -/
structure Holds (rs k : Nat) (initial : Bytes) (r : Residency Int) (mem : Bytes) (m : Regions)
    (s : RAMLinkMemory × Bytes) : Prop where
  flat : Flat 65536 rs k r mem (s.1.cache, s.2)
  laid : Laid rs initial mem m
  next : s.1.nextOffset = m.next
  regions : s.1.regions = m.regions.map Region.handle

variable {r r' : Residency Int} {s : RAMLinkMemory × Bytes}

theorem check_ok {region : MemoryRegion} {offset length : Int}
    (h : region.check offset length = .ok ()) :
    region.closed = false ∧ 0 ≤ offset ∧ 0 ≤ length ∧ offset + length ≤ region.size := by
  unfold MemoryRegion.check at h
  split at h
  · cases h
  · rename_i hclosed
    split at h
    · cases h
    · exact ⟨by simpa using hclosed, by omega, by omega, by omega⟩

/-- A write through a region object is a write to the flat memory. -/
theorem writeRegion_ok (hk : 0 < k) (h : Flat 65536 rs k r mem (s.1.cache, s.2)) {fuel : Nat}
    (hf : rs ≤ fuel) {region : Region} {o : Nat} {data : Bytes}
    (hcheck : region.handle.check o data.length = .ok ())
    (hin : region.offset + region.contents.length ≤ rs)
    (he : exec (Residency.next k) r ((pagesOf 65536 (region.offset + o) data.length).map .change) =
      some r') :
    ∃ c, (region.handle.write .array fuel o data).run s = .ok () ({ s.1 with cache := c }, s.2) ∧
      Flat 65536 rs k r' (splice mem (region.offset + o) data) (c, s.2) := by
  obtain ⟨-, -, -, hlen⟩ := check_ok hcheck
  simp only [Region.handle] at hlen
  obtain ⟨⟨c, t⟩, hrun, h', rfl⟩ := write_ok Cache.kind hk (by omega) h fuel (region.offset + o) data hf
    (by omega) he
  refine ⟨c, ?_, h'⟩
  unfold MemoryRegion.write
  simp only [EStateM.run_bind, run_fromExcept, hcheck]
  exact run_onCache hrun

/-- A read through a region object is a read of the flat memory. -/
theorem readRegion_ok (hk : 0 < k) (h : Flat 65536 rs k r mem (s.1.cache, s.2)) {fuel : Nat}
    (hf : rs ≤ fuel) {region : Region} {o n : Nat} (hcheck : region.handle.check o n = .ok ())
    (hin : region.offset + region.contents.length ≤ rs)
    (he : exec (Residency.next k) r ((pagesOf 65536 (region.offset + o) n).map .use) = some r') :
    ∃ c, (region.handle.read .array fuel o n).run s =
        .ok (sub mem (region.offset + o) n) ({ s.1 with cache := c }, s.2) ∧
      Flat 65536 rs k r' mem (c, s.2) := by
  obtain ⟨-, -, -, hlen⟩ := check_ok hcheck
  simp only [Region.handle] at hlen
  obtain ⟨⟨c, t⟩, hrun, h', rfl⟩ := read_ok Cache.kind hk (by omega) h fuel (region.offset + o) n hf
    (by omega) he
  refine ⟨c, ?_, h'⟩
  unfold MemoryRegion.read
  simp only [EStateM.run_bind, run_fromExcept, hcheck]
  exact run_onCache hrun

theorem filled_zero (base c : Nat) : filled base c 0 = [] := by
  induction c generalizing base with
  | zero => rfl
  | succ c ih => rw [filled, Nat.zero_min, Nat.sub_self, ih]; rfl

/-- The loop of `fill`, `c` chunks from its end. -/
theorem fillLoop_ok (hk : 0 < k) {fuel : Nat} (hf : rs ≤ fuel) {region : Region} (v : UInt8)
    (hopen : region.closed = false) (hin : region.offset + region.contents.length ≤ rs) (c : Nat) :
    ∀ (pos left steps : Nat) {r : Residency Int} {mem : Bytes} {s : RAMLinkMemory × Bytes},
      pos + left = region.contents.length → left ≤ c * 1048576 → left ≤ steps →
      Flat 65536 rs k r mem (s.1.cache, s.2) →
      exec (Residency.next k) r (filled (region.offset + pos) c left) = some r' →
      ∃ d, (region.handle.fillLoop .array fuel (List.replicate Cache.maxTransfer.toNat v) steps pos
          left).run s = .ok () ({ s.1 with cache := d }, s.2) ∧
        Flat 65536 rs k r' (splice mem (region.offset + pos) (List.replicate left v)) (d, s.2) := by
  have hdone : ∀ (pos steps : Nat) {r : Residency Int} {mem : Bytes} {s : RAMLinkMemory × Bytes},
      Flat 65536 rs k r mem (s.1.cache, s.2) →
      ∃ d, (region.handle.fillLoop .array fuel (List.replicate Cache.maxTransfer.toNat v) steps pos
          (0 : Nat)).run s = .ok () ({ s.1 with cache := d }, s.2) ∧
        Flat 65536 rs k r (splice mem (region.offset + pos) (List.replicate 0 v)) (d, s.2) := by
    intro pos steps r mem s h
    refine ⟨s.1.cache, ?_, by rw [List.replicate_zero, splice_nil]; exact h⟩
    unfold MemoryRegion.fillLoop
    rfl
  induction c with
  | zero =>
    intro pos left steps r mem s hp hl hs h he
    obtain rfl : left = 0 := by omega
    cases he
    exact hdone pos steps h
  | succ c ih =>
    intro pos left steps r mem s hp hl hs h he
    by_cases hz : left = 0
    · subst hz
      rw [filled_zero] at he
      cases he
      exact hdone pos steps h
    obtain ⟨steps, rfl⟩ : ∃ n, steps = n + 1 := ⟨steps - 1, by omega⟩
    obtain ⟨r1, he1, he2⟩ := exec_append.mp he
    -- one chunk, then the rest
    generalize hn : min left 1048576 = n at *
    have hchunk : (List.replicate n v).length = n := List.length_replicate ..
    have hcheck : region.handle.check pos ((List.replicate n v).length : Nat) = .ok () := by
      unfold MemoryRegion.check Region.handle
      rw [hopen, hchunk, if_neg (by simp), if_neg (by simp only; omega)]
    obtain ⟨d1, hrun1, h1⟩ := writeRegion_ok hk h hf hcheck hin (by rw [hchunk]; exact he1)
    obtain ⟨d2, hrun2, h2⟩ := ih (pos + n) (left - n) steps (by omega) (by omega) (by omega)
      (s := ({ s.1 with cache := d1 }, s.2)) h1 (by rw [← Nat.add_assoc]; exact he2)
    refine ⟨d2, ?_, ?_⟩
    · have hmin : min (left : Int) Cache.maxTransfer = (n : Nat) := by
        simp only [Cache.maxTransfer]
        omega
      have hslice : slice (List.replicate Cache.maxTransfer.toNat v) 0 ((n : Nat) : Int) =
          List.replicate n v := by
        have := slice_natCast (List.replicate Cache.maxTransfer.toNat v) 0 n
        rw [Nat.sub_zero, sub_replicate v (by simp only [Cache.maxTransfer]; omega)] at this
        exact this
      have hcast : (pos : Int) + (n : Nat) = ((pos + n : Nat) : Int) ∧
          (left : Int) - (n : Nat) = ((left - n : Nat) : Int) := by omega
      unfold MemoryRegion.fillLoop
      rw [if_neg (by omega)]
      simp only [EStateM.run_bind, hmin, hslice, hrun1, hcast.1, hcast.2]
      exact hrun2
    · have happ := splice_append (List.replicate n v) (List.replicate (left - n) v) (l := mem)
        (a := region.offset + pos) (by rw [hchunk, List.length_replicate, h.length_mem]; omega)
      rw [hchunk, List.replicate_append_replicate, Nat.add_sub_cancel' (by omega)] at happ
      rw [happ, Nat.add_assoc]
      exact h2

theorem Holds.getElem? (h : Holds rs k initial r mem m s) (i : Nat) :
    s.1.regions[i]? = (m.regions[i]?).map Region.handle := by rw [h.regions, List.getElem?_map]

/-- A region with another contents of the same length has the same object. -/
theorem handles_set {i : Nat} {region region' : Region} (hi : m.regions[i]? = some region)
    (hsame : region'.handle = region.handle) :
    (m.set i region').regions.map Region.handle = m.regions.map Region.handle := by
  apply List.ext_getElem?
  intro j
  show ((m.regions.set i region').map Region.handle)[j]? = _
  rw [List.getElem?_map, List.getElem?_map, List.getElem?_set]
  split
  · rename_i hij
    subst hij
    rw [if_pos (List.getElem?_eq_some_iff.mp hi).1, hi, Option.map_some, Option.map_some, hsame]
  · rfl

theorem run_noRegion {σ : Type} {i : Nat} {f : MemoryRegion → MemoryM σ Answer}
    {s : RAMLinkMemory × σ} (h : s.1.regions[i]? = none) :
    (onRegion i f).run s = .ok .noRegion s := by
  unfold onRegion
  simp only [EStateM.run_bind, EStateM.run_get, h]
  rfl

theorem run_onRegion {σ : Type} {i : Nat} {f : MemoryRegion → MemoryM σ Answer}
    {s : RAMLinkMemory × σ} {region : MemoryRegion} (h : s.1.regions[i]? = some region) :
    (onRegion i f).run s = (f region).run s := by
  unfold onRegion
  simp only [EStateM.run_bind, EStateM.run_get, h]

theorem run_readCall {i : Nat} {region : MemoryRegion} (hget : s.1.regions[i]? = some region) {fuel : Nat}
    {offset length : Int} {bytes : Bytes} {s' : RAMLinkMemory × Bytes}
    (h : (region.read .array fuel offset length).run s = .ok bytes s') :
    (Call.read i offset length).run .array fuel s = (.data bytes, s') := by
  simp only [Call.run, Call.body, run_onRegion hget, EStateM.run_bind, h, EStateM.run_pure]

theorem run_writeCall {i : Nat} {region : MemoryRegion} (hget : s.1.regions[i]? = some region) {fuel : Nat}
    {offset : Int} {data : Bytes} {s' : RAMLinkMemory × Bytes}
    (h : (region.write .array fuel offset data).run s = .ok () s') :
    (Call.write i offset data).run .array fuel s = (.done, s') := by
  simp only [Call.run, Call.body, run_onRegion hget, EStateM.run_bind, h, EStateM.run_pure]

/-- What one call has to show. -/
def Agrees (rs k : Nat) (initial : Bytes) (r' : Residency Int) (fuel : Nat) (call : Call) (m : Regions)
    (s : RAMLinkMemory × Bytes) : Prop :=
  ∃ mem', (call.run .array fuel s).1 = (call.spec initial rs m).1 ∧
    Holds rs k initial r' mem' (call.spec initial rs m).2 (call.run .array fuel s).2

/-- A call that is rejected, or that has no region. -/
theorem Agrees.of_same {call : Call} {answer : Answer} {fuel : Nat} (h : Holds rs k initial r mem m s)
    (hrun : call.run .array fuel s = (answer, s)) (hspec : call.spec initial rs m = (answer, m)) :
    Agrees rs k initial r fuel call m s := by
  refine ⟨mem, ?_, ?_⟩ <;> rw [hrun, hspec]
  exact h

theorem spec_allocate (initial : Bytes) {n : Nat} (h0 : 0 < n) (hroom : m.next + n ≤ rs) :
    (Call.allocate n).spec initial rs m =
      (.done, ⟨m.next + n, m.regions ++ [.fresh initial m.next n]⟩) := by
  simp only [Call.spec, if_neg (by omega : ¬ (n : Int) ≤ 0), Int.toNat_natCast,
    if_neg (by omega : ¬ rs < m.next + n)]

theorem spec_read (initial : Bytes) (rs : Nat) {i : Nat} {offset length : Int} {region : Region}
    (hi : m.regions[i]? = some region) (hc : region.handle.check offset length = .ok ()) :
    (Call.read i offset length).spec initial rs m =
      (.data (slice region.contents offset (offset + length)), m) := by
  simp only [Call.spec, hi, hc]

theorem spec_write (initial : Bytes) (rs : Nat) {i : Nat} {offset : Int} {data : Bytes}
    {region : Region} (hi : m.regions[i]? = some region)
    (hc : region.handle.check offset data.length = .ok ()) :
    (Call.write i offset data).spec initial rs m = (.done, m.set i { region with
      contents := setSlice region.contents offset (offset + data.length) data }) := by
  simp only [Call.spec, hi, hc]

theorem allocate_ok (h : Holds rs k initial r mem m s) (hl : rs ≤ initial.length) (fuel : Nat)
    (size : Int) : Agrees rs k initial r fuel (.allocate size) m s := by
  have hrs : s.1.cache.remoteSize = rs := h.flat.remoteSize
  by_cases h0 : size ≤ 0
  · refine .of_same h ?_ (if_pos h0)
    simp only [Call.run, Call.body, RAMLinkMemory.allocate, EStateM.run_bind, run_raiseIf, if_pos h0]
  obtain ⟨n, rfl⟩ := Int.eq_ofNat_of_zero_le (by omega : 0 ≤ size)
  have hnext := h.next
  by_cases hroom : rs < m.next + n
  · refine .of_same h ?_ (by simp only [Call.spec, if_neg h0, Int.toNat_natCast, if_pos hroom]; rfl)
    have hfull : s.1.cache.remoteSize < s.1.nextOffset + (n : Int) := by omega
    simp only [Call.run, Call.body, RAMLinkMemory.allocate, EStateM.run_bind, run_raiseIf, if_neg h0,
      EStateM.run_get, if_pos hfull]
  · have hfull : ¬ s.1.cache.remoteSize < s.1.nextOffset + (n : Int) := by omega
    have hlen : (sub initial m.next n).length = n := length_sub_of_le (by omega)
    have hspec := spec_allocate initial (by omega : 0 < n) (by omega : m.next + n ≤ rs)
    have hrun : (Call.allocate (n : Int)).run .array fuel s = (.done, { s.1 with
        nextOffset := s.1.nextOffset + n, regions := s.1.regions ++ [⟨s.1.nextOffset, n, false⟩] }, s.2) := by
      simp only [Call.run, Call.body, RAMLinkMemory.allocate, EStateM.run_bind, run_raiseIf, if_neg h0,
        EStateM.run_get, if_neg hfull, run_modifyFst, EStateM.run_pure]
    refine ⟨mem, ?_, ?_⟩ <;> rw [hrun, hspec]
    refine ⟨h.flat, h.laid.allocate hl (by omega) (by omega), ?_, ?_⟩
    · show s.1.nextOffset + (n : Int) = _
      rw [hnext]
      rfl
    · show s.1.regions ++ [_] = _
      rw [h.regions, hnext, List.map_append, List.map_singleton, Region.handle_fresh hlen]

theorem readCall_ok (hk : 0 < k) (h : Holds rs k initial r mem m s) {fuel : Nat} (hf : rs ≤ fuel)
    {i : Nat} {offset length : Int}
    (he : exec (Residency.next k) r ((Call.read i offset length).accesses m) = some r') :
    Agrees rs k initial r' fuel (.read i offset length) m s := by
  have hget := h.getElem? i
  cases hi : m.regions[i]? with
  | none =>
    simp only [Call.accesses, hi] at he
    cases he
    rw [hi] at hget
    refine .of_same h ?_ (by simp only [Call.spec, hi]; rfl)
    simp only [Call.run, Call.body, run_noRegion hget]
  | some region =>
    rw [hi, Option.map_some] at hget
    cases hc : region.handle.check offset length with
    | error e =>
      simp only [Call.accesses, hi, hc] at he
      cases he
      refine .of_same h ?_ (by simp only [Call.spec, hi, hc]; rfl)
      simp only [Call.run, Call.body, run_onRegion hget, MemoryRegion.read, EStateM.run_bind,
        run_fromExcept, hc]
    | ok =>
      simp only [Call.accesses, hi, hc] at he
      obtain ⟨-, h1, h2, h3⟩ := check_ok hc
      obtain ⟨o, rfl⟩ := Int.eq_ofNat_of_zero_le h1
      obtain ⟨n, rfl⟩ := Int.eq_ofNat_of_zero_le h2
      simp only [Region.handle] at h3
      have hin := h.laid.inside i region hi
      have hle := h.laid.next_le
      obtain ⟨c, hrun, h'⟩ := readRegion_ok hk h.flat hf hc (by omega) he
      have hbytes : slice region.contents o (o + n) = sub mem (region.offset + o) n := by
        rw [slice_nat, ← h.laid.held i region hi, sub_sub _ _ _ _ _ (by omega)]
      have hread := run_readCall hget hrun
      have hspec := spec_read initial rs hi hc
      rw [hbytes] at hspec
      refine ⟨mem, ?_, ?_⟩ <;> rw [hread, hspec]
      exact ⟨h', h.laid, h.next, h.regions⟩

theorem writeCall_ok (hk : 0 < k) (h : Holds rs k initial r mem m s) {fuel : Nat} (hf : rs ≤ fuel)
    {i : Nat} {offset : Int} {data : Bytes}
    (he : exec (Residency.next k) r ((Call.write i offset data).accesses m) = some r') :
    Agrees rs k initial r' fuel (.write i offset data) m s := by
  have hget := h.getElem? i
  cases hi : m.regions[i]? with
  | none =>
    simp only [Call.accesses, hi] at he
    cases he
    rw [hi] at hget
    refine .of_same h ?_ (by simp only [Call.spec, hi]; rfl)
    simp only [Call.run, Call.body, run_noRegion hget]
  | some region =>
    rw [hi, Option.map_some] at hget
    cases hc : region.handle.check offset data.length with
    | error e =>
      simp only [Call.accesses, hi, hc] at he
      cases he
      refine .of_same h ?_ (by simp only [Call.spec, hi, hc]; rfl)
      simp only [Call.run, Call.body, run_onRegion hget, MemoryRegion.write, EStateM.run_bind,
        run_fromExcept, hc]
    | ok =>
      simp only [Call.accesses, hi, hc] at he
      obtain ⟨-, h1, h2, h3⟩ := check_ok hc
      obtain ⟨o, rfl⟩ := Int.eq_ofNat_of_zero_le h1
      simp only [Region.handle] at h3
      have hin := h.laid.inside i region hi
      have hle := h.laid.next_le
      obtain ⟨c, hrun, h'⟩ := writeRegion_ok hk h.flat hf hc (by omega) he
      have hwrite := run_writeCall hget hrun
      have hset : setSlice region.contents (o : Int) (o + data.length) data =
          splice region.contents o data := setSlice_nat _ o data.length data rfl (by omega)
      have hspec := spec_write initial rs hi hc
      rw [hset] at hspec
      have hsame : ({ region with contents := splice region.contents o data } : Region).handle =
          region.handle := by
        simp only [Region.handle, length_splice (by omega : o + data.length ≤ region.contents.length)]
      refine ⟨splice mem (region.offset + o) data, ?_, ?_⟩ <;> rw [hwrite, hspec]
      exact ⟨h', h.laid.write h.flat.length_mem hi (by omega), h.next,
        h.regions.trans (handles_set hi hsame).symm⟩

theorem fillCall_ok (hk : 0 < k) (h : Holds rs k initial r mem m s) {fuel : Nat} (hf : rs ≤ fuel)
    {i : Nat} {value : Int}
    (he : exec (Residency.next k) r ((Call.fill i value).accesses m) = some r') :
    Agrees rs k initial r' fuel (.fill i value) m s := by
  have hget := h.getElem? i
  cases hi : m.regions[i]? with
  | none =>
    simp only [Call.accesses, hi] at he
    cases he
    rw [hi] at hget
    refine .of_same h ?_ (by simp only [Call.spec, hi]; rfl)
    simp only [Call.run, Call.body, run_noRegion hget]
  | some region =>
    rw [hi, Option.map_some] at hget
    by_cases hv : 0 ≤ value ∧ value ≤ 255
    · have hno : ¬ ¬ (0 ≤ value ∧ value ≤ 255) := not_not.mpr hv
      by_cases hclosed : region.closed
      · -- the first chunk is refused
        simp only [Call.accesses, hi, hclosed, or_true, if_true] at he
        cases he
        refine .of_same h ?_ (by simp only [Call.spec, hi, if_neg hno, if_pos hclosed]; rfl)
        have hpos := h.laid.nonempty i region hi
        have hin := h.laid.inside i region hi
        have hle := h.laid.next_le
        obtain ⟨n, rfl⟩ : ∃ n, fuel = n + 1 := ⟨fuel - 1, by omega⟩
        have hcheck : ∀ o l, region.handle.check o l = .error (.runtimeError "memory region is closed") :=
          fun o l => if_pos hclosed
        have hsize : ¬ (region.handle.size = 0) := by
          simp only [Region.handle]
          omega
        simp only [Call.run, Call.body, run_onRegion hget, MemoryRegion.fill, EStateM.run_bind,
          run_raiseIf, if_neg hno, MemoryRegion.fillLoop, if_neg hsize, MemoryRegion.write,
          run_fromExcept, hcheck]
      · have hopen : region.closed = false := by simpa using hclosed
        simp only [Call.accesses, hi, hno, hopen, false_or, Bool.false_eq_true, if_false] at he
        have hin := h.laid.inside i region hi
        have hle := h.laid.next_le
        have hfill := fillLoop_ok hk hf (UInt8.ofNat value.toNat) hopen (by omega)
          (chunks region.contents.length) 0 region.contents.length fuel (by omega)
          (by unfold chunks; omega) (by omega) h.flat he
        obtain ⟨c, hrun, h'⟩ := hfill
        have hrun' : (Call.fill i value).run .array fuel s = (.done, { s.1 with cache := c }, s.2) := by
          have hf : (region.handle.fill .array fuel value).run s =
              .ok () ({ s.1 with cache := c }, s.2) := by
            unfold MemoryRegion.fill
            simp only [EStateM.run_bind, run_raiseIf, if_neg hno]
            exact hrun
          simp only [Call.run, Call.body, run_onRegion hget, EStateM.run_bind, hf, EStateM.run_pure]
        generalize hbs : List.replicate region.contents.length (UInt8.ofNat value.toNat) = bs at h'
        have hlen : bs.length = region.contents.length := by rw [← hbs, List.length_replicate]
        have hwhole : splice region.contents 0 bs = bs := by simp [splice, hlen]
        have hlaid := h.laid.write h.flat.length_mem hi (by omega : 0 + bs.length ≤ _)
        rw [hwhole] at hlaid
        have hspec : (Call.fill i value).spec initial rs m =
            (.done, m.set i { region with contents := bs }) := by
          simp only [Call.spec, hi, if_neg hno, hopen, if_false, Bool.false_eq_true, hbs]
        have hsame : ({ region with contents := bs } : Region).handle = region.handle := by
          simp only [Region.handle, hlen]
        refine ⟨splice mem (region.offset + 0) bs, ?_, ?_⟩ <;> rw [hrun', hspec]
        exact ⟨h', hlaid, h.next, h.regions.trans (handles_set hi hsame).symm⟩
    · simp only [Call.accesses, hi, hv, not_false_eq_true, true_or, if_true] at he
      cases he
      refine .of_same h ?_ (by simp only [Call.spec, hi, hv, not_false_eq_true, if_true]; rfl)
      simp only [Call.run, Call.body, run_onRegion hget, MemoryRegion.fill, EStateM.run_bind,
        run_raiseIf, if_pos hv]

theorem closeCall_ok (h : Holds rs k initial r mem m s) (fuel i : Nat) :
    Agrees rs k initial r fuel (.close i) m s := by
  have hget := h.getElem? i
  cases hi : m.regions[i]? with
  | none =>
    rw [hi] at hget
    refine .of_same h ?_ (by simp only [Call.spec, hi]; rfl)
    simp only [Call.run, Call.body, run_noRegion hget]
  | some region =>
    rw [hi, Option.map_some] at hget
    have hrun : (Call.close i).run .array fuel s =
        (.done, { s.1 with regions := s.1.regions.set i region.handle.close }, s.2) := by
      simp only [Call.run, Call.body, run_onRegion hget, EStateM.run_bind, run_modifyFst,
        EStateM.run_pure]
    have hspec : (Call.close i).spec initial rs m = (.done, m.set i { region with closed := true }) := by
      simp only [Call.spec, hi]
    refine ⟨mem, ?_, ?_⟩ <;> rw [hrun, hspec]
    refine ⟨h.flat, h.laid.close hi, h.next, ?_⟩
    show s.1.regions.set i region.handle.close = (m.regions.set i _).map Region.handle
    rw [h.regions, List.map_set]
    rfl

theorem run_flush (h : Flat 65536 rs k r mem (s.1.cache, s.2)) (order : SetOrder) :
    ∃ c t, (RAMLinkMemory.flush .array order).run s = .ok () ({ s.1 with cache := c }, t) ∧
      Flat 65536 rs k { r with dirty := [] } mem (c, t) ∧ sub t 0 rs = mem := by
  obtain ⟨s', hrun, h', hsub⟩ := flush_ok (by omega) h order
  exact ⟨s'.1, s'.2, run_onCache hrun, h', hsub⟩

/-- One call is a call on the regions as their owners see them, as long as the pages it touches
evict no dirty page. -/
theorem call_ok (hk : 0 < k) (hl : rs ≤ initial.length) (h : Holds rs k initial r mem m s) {fuel : Nat}
    (hf : rs ≤ fuel) (call : Call) (he : exec (Residency.next k) r (call.accesses m) = some r') :
    Agrees rs k initial r' fuel call m s := by
  cases call with
  | allocate size =>
    cases he
    exact allocate_ok h hl fuel size
  | read i offset length => exact readCall_ok hk h hf he
  | write i offset data => exact writeCall_ok hk h hf he
  | fill i value => exact fillCall_ok hk h hf he
  | close i =>
    cases he
    exact closeCall_ok h fuel i
  | flush order =>
    cases he
    obtain ⟨c, t, hrun, h', -⟩ := run_flush h.flat order
    have hflush : (Call.flush order).run .array fuel s = (.done, { s.1 with cache := c }, t) := by
      simp only [Call.run, Call.body, EStateM.run_bind, hrun, EStateM.run_pure]
    have hspec : (Call.flush order).spec initial rs m = (.done, m) := rfl
    refine ⟨mem, ?_, ?_⟩ <;> rw [hflush, hspec]
    exact ⟨h', h.laid, h.next, h.regions⟩

theorem runs_ok (hk : 0 < k) (hl : rs ≤ initial.length) {fuel : Nat} (hf : rs ≤ fuel)
    (calls : List Call) : ∀ {r r' : Residency Int} {mem : Bytes} {m : Regions}
      {s : RAMLinkMemory × Bytes}, Holds rs k initial r mem m s →
      exec (Residency.next k) r (touched initial rs calls m) = some r' →
      ∃ mem', (runs .array fuel calls s).1 = (specs initial rs calls m).1 ∧
        Holds rs k initial r' mem' (specs initial rs calls m).2 (runs .array fuel calls s).2 := by
  induction calls with
  | nil =>
    intro r r' mem m s h he
    cases he
    exact ⟨mem, rfl, h⟩
  | cons call calls ih =>
    intro r r' mem m s h he
    rw [touched, exec_append] at he
    obtain ⟨r1, he1, he2⟩ := he
    obtain ⟨mem1, ha1, h1⟩ := call_ok hk hl h hf call he1
    obtain ⟨mem2, ha2, h2⟩ := ih h1 he2
    refine ⟨mem2, ?_, h2⟩
    simp only [runs, specs, ha1, ha2]

/-- `close` leaves each region's contents in the remote memory. -/
theorem close_ok (h : Holds rs k initial r mem m s) (order : SetOrder) :
    ∃ s', (close .array order).run s = .ok () s' ∧
      ∀ region ∈ m.regions, sub s'.2 region.offset region.contents.length = region.contents := by
  obtain ⟨c, t, hrun, -, hsub⟩ := run_flush h.flat order
  refine ⟨({ s.1 with cache := c, regions := s.1.regions.map MemoryRegion.close }, t), ?_, ?_⟩
  · unfold close
    simp only [EStateM.run_bind, hrun, run_modifyFst]
  · intro region hregion
    obtain ⟨i, hi⟩ := List.mem_iff_getElem?.mp hregion
    have hin := h.laid.inside i region hi
    have hle := h.laid.next_le
    have hheld := h.laid.held i region hi
    rw [← hsub, sub_sub _ _ _ _ _ (by omega), Nat.zero_add] at hheld
    exact hheld

theorem init_ok {remoteMb cacheMb : Int} {self : RAMLinkMemory}
    (h : init remoteMb cacheMb = .ok self) : ∃ rs k : Nat, 0 < k ∧ self = ⟨empty 65536 rs k, 0, []⟩ := by
  unfold init at h
  split at h
  · cases h
  · cases h
    obtain ⟨rs, hrs⟩ := Int.eq_ofNat_of_zero_le (by omega : 0 ≤ remoteMb * 1024 * 1024)
    obtain ⟨k, hk⟩ := Int.eq_ofNat_of_zero_le
      (by omega : 0 ≤ max 1 (cacheMb * 1024 * 1024 / Cache.pageSize))
    refine ⟨rs, k, by omega, ?_⟩
    rw [Cache.init, hrs, hk]
    rfl

/-- Every run of calls that evicts no dirty page: each answer is that of a region with bytes of its
own, and after `close` the remote memory holds each region's contents. -/
theorem isolated (remoteMb cacheMb : Int) {self : RAMLinkMemory}
    (hinit : init remoteMb cacheMb = .ok self) {remote : Bytes}
    (hlen : self.cache.remoteSize ≤ remote.length) {calls : List Call}
    (hno : Residency.NoDirtyEviction self.cache.maxPages.toNat
      (touched remote self.cache.remoteSize.toNat calls ⟨0, []⟩))
    {fuel : Nat} (hf : self.cache.remoteSize ≤ fuel) (order : SetOrder) :
    (runs .array fuel calls (self, remote)).1 =
        (specs remote self.cache.remoteSize.toNat calls ⟨0, []⟩).1 ∧
      ∃ s, (close .array order).run (runs .array fuel calls (self, remote)).2 = .ok () s ∧
        ∀ region ∈ (specs remote self.cache.remoteSize.toNat calls ⟨0, []⟩).2.regions,
          sub s.2 region.offset region.contents.length = region.contents := by
  obtain ⟨rs, k, hk, rfl⟩ := init_ok hinit
  obtain ⟨r, he⟩ := hno
  have hlen : rs ≤ remote.length := by simpa [empty] using hlen
  have hf : rs ≤ fuel := by simpa [empty] using hf
  have hstart : Holds rs k remote .empty (sub remote 0 rs) ⟨0, []⟩ (⟨empty 65536 rs k, 0, []⟩, remote) :=
    ⟨Flat.start hlen, Laid.start rs remote, rfl, rfl⟩
  obtain ⟨mem, hanswers, h⟩ := runs_ok hk hlen hf calls hstart he
  exact ⟨hanswers, close_ok h order⟩

/-- Two regions of four bytes, a WRITE into each, one past the end of the second, and what they read. -/
def twoRegionCalls : List Call :=
  [.allocate 4, .allocate 4, .write 0 1 [1, 2], .write 1 3 [9], .write 1 4 [5], .read 1 0 4, .read 0 0 4]

theorem isolated_two_regions :
    (runs .array 2097152 twoRegionCalls (⟨empty 65536 2097152 16, 0, []⟩, List.replicate 2097152 0)).1 =
        [.done, .done, .done, .done, .raised (.valueError "operation is outside this memory region"),
          .data [0, 0, 0, 9], .data [0, 1, 2, 0]] ∧
      ∃ s, (close .array ⟨id, fun _ => .refl _⟩).run (runs .array 2097152 twoRegionCalls
          (⟨empty 65536 2097152 16, 0, []⟩, List.replicate 2097152 0)).2 = .ok () s ∧
        sub s.2 0 4 = [0, 1, 2, 0] ∧ sub s.2 4 4 = [0, 0, 0, 9] := by
  have hanswers : (specs (List.replicate 2097152 0) 2097152 twoRegionCalls ⟨0, []⟩).1 =
      [.done, .done, .done, .done, .raised (.valueError "operation is outside this memory region"),
        .data [0, 0, 0, 9], .data [0, 1, 2, 0]] := by decide +kernel
  have hregions : (specs (List.replicate 2097152 0) 2097152 twoRegionCalls ⟨0, []⟩).2.regions =
      [⟨0, [0, 1, 2, 0], false⟩, ⟨4, [0, 0, 0, 9], false⟩] := by decide +kernel
  have hlen : (2097152 : Int) ≤ (List.replicate 2097152 (0 : UInt8)).length := by
    rw [List.length_replicate]
    exact le_refl (2097152 : Int)
  have h : (runs .array 2097152 twoRegionCalls (⟨empty 65536 2097152 16, 0, []⟩, List.replicate 2097152 0)).1 =
        (specs (List.replicate 2097152 0) 2097152 twoRegionCalls ⟨0, []⟩).1 ∧
      ∃ s, (close .array ⟨id, fun _ => .refl _⟩).run (runs .array 2097152 twoRegionCalls
          (⟨empty 65536 2097152 16, 0, []⟩, List.replicate 2097152 0)).2 = .ok () s ∧
        ∀ region ∈ (specs (List.replicate 2097152 0) 2097152 twoRegionCalls ⟨0, []⟩).2.regions,
          sub s.2 region.offset region.contents.length = region.contents :=
    isolated 2 1 rfl hlen ⟨_, rfl⟩ (le_refl (2097152 : Int)) ⟨id, fun _ => .refl _⟩
  obtain ⟨hall, s, hclose, hkept⟩ := h
  rw [hregions] at hkept
  exact ⟨hall.trans hanswers, s, hclose, hkept ⟨0, [0, 1, 2, 0], false⟩ (by simp),
    hkept ⟨4, [0, 0, 0, 9], false⟩ (by simp)⟩

theorem runs_cons {fuel : Nat} {call : Call} {calls : List Call} {answer : Answer}
    {answers : List Answer} {s s' : RAMLinkMemory × Bytes} (h : call.run .array fuel s = (answer, s'))
    (hrest : (runs .array fuel calls s').1 = answers) :
    (runs .array fuel (call :: calls) s).1 = answer :: answers := by
  simp only [runs, h, hrest]

theorem specs_cons {call : Call} {calls : List Call} {answer : Answer} {answers : List Answer}
    {m m' : Regions} (h : call.spec initial rs m = (answer, m'))
    (hrest : (specs initial rs calls m').1 = answers) :
    (specs initial rs (call :: calls) m).1 = answer :: answers := by
  simp only [specs, h, hrest]

/-- A memory object with a region of one page and a region of 16 pages. -/
def twoRegions (c : WriteBack) : RAMLinkMemory :=
  ⟨c, 1114112, [⟨0, 65536, false⟩, ⟨65536, 1048576, false⟩]⟩

/-- With room for 16 pages: a byte is written to the first region, reads of the second region touch
16 other pages, and the first region reads as if it had not been written. -/
theorem runs_lost {remote : Bytes} (hlen : 2097152 ≤ remote.length) (b : UInt8) : ∃ x y,
    (runs .array 2097152 [.allocate 65536, .allocate 1048576, .write 0 0 [b], .read 1 0 983040,
      .read 1 983040 1, .read 0 0 1] (⟨empty 65536 2097152 16, 0, []⟩, remote)).1 =
      [.done, .done, .done, .data x, .data y, .data (sub remote 0 1)] := by
  have h0 : Flat 65536 2097152 16 .empty (sub remote 0 2097152) (empty 65536 2097152 16, remote) :=
    Flat.start hlen
  have hA : (sub remote 0 65536).length = 65536 := length_sub_of_le (by omega)
  have hB : (sub remote 65536 1048576).length = 1048576 := length_sub_of_le (by omega)
  have hinA : 0 + (sub remote 0 65536).length ≤ 2097152 := by omega
  have hinB : 65536 + (sub remote 65536 1048576).length ≤ 2097152 := by omega
  have hgetA : ∀ c, (twoRegions c).regions[0]? = some (Region.fresh remote 0 65536).handle := by
    intro c; rw [Region.handle_fresh hA]; rfl
  have hgetB : ∀ c, (twoRegions c).regions[1]? = some (Region.fresh remote 65536 1048576).handle := by
    intro c; rw [Region.handle_fresh hB]; rfl
  -- the write, the reads that fill the cache, and the read that evicts page 0
  have he1 : exec (Residency.next 16) .empty ((pagesOf 65536 0 1).map .change) = some ⟨[0], [0]⟩ := rfl
  have he2 : exec (Residency.next 16) ⟨[0], [0]⟩ ((pagesOf 65536 65536 983040).map .use) =
      some ⟨[0, 1, 2, 3, 4, 5, 6, 7, 8, 9, 10, 11, 12, 13, 14, 15], [0]⟩ := rfl
  have he3 : exec (Residency.next 16) ⟨[1, 2, 3, 4, 5, 6, 7, 8, 9, 10, 11, 12, 13, 14, 15, 16], []⟩
      ((pagesOf 65536 0 1).map .use) =
      some ⟨[2, 3, 4, 5, 6, 7, 8, 9, 10, 11, 12, 13, 14, 15, 16, 0], []⟩ := rfl
  obtain ⟨c1, hrun1, h1⟩ := writeRegion_ok (s := (twoRegions (empty 65536 2097152 16), remote))
    (o := 0) (by omega) h0 (le_refl 2097152)
    (Region.check_fresh hA (by simp : 0 + [b].length ≤ _)) hinA he1
  obtain ⟨c2, hrun2, h2⟩ := readRegion_ok (s := (twoRegions c1, remote)) (o := 0) (n := 983040)
    (by omega) h1 (le_refl 2097152) (Region.check_fresh hB (by omega)) hinB he2
  obtain ⟨⟨c3, t3⟩, hrun3, ht3, h3⟩ := read_loses Cache.kind (by omega) (by omega) h2 2097152 1048576 1 0
    (by omega) (by omega) (by omega) (by omega) rfl
  obtain rfl : t3 = remote := ht3
  have htouch : Lru.touch 16 [0, 1, 2, 3, 4, 5, 6, 7, 8, 9, 10, 11, 12, 13, 14, 15]
      ((1048576 / 65536 : Nat) : Int) = [1, 2, 3, 4, 5, 6, 7, 8, 9, 10, 11, 12, 13, 14, 15, 16] := by
    decide
  rw [htouch] at h3
  have hread3 : ((Region.fresh t3 65536 1048576).handle.read .array 2097152 983040 1).run
      (twoRegions c2, t3) = .ok (sub (splice (sub t3 0 2097152) 0 [b]) 1048576 1) (twoRegions c3, t3) := by
    have hcheck : (Region.fresh t3 65536 1048576).handle.check 983040 1 = .ok () :=
      Region.check_fresh hB (by omega : 983040 + 1 ≤ 1048576)
    have hoffset : (Region.fresh t3 65536 1048576).handle.offset + 983040 = ((1048576 : Nat) : Int) := by
      rw [Region.handle_fresh hB]
      norm_num
    simp only [MemoryRegion.read, EStateM.run_bind, run_fromExcept, hcheck, hoffset]
    exact run_onCache (s := (twoRegions c2, t3)) hrun3
  obtain ⟨c4, hrun4, -⟩ := readRegion_ok (s := (twoRegions c3, t3)) (o := 0) (n := 1)
    (by omega) h3 (le_refl 2097152) (Region.check_fresh hA (by omega)) hinA he3
  have hlost : sub (splice (splice (sub t3 0 2097152) 0 [b]) (0 * 65536)
      (pageAt 65536 2097152 t3 0)) 0 1 = sub t3 0 1 :=
    sub_splice_pageAt h1.length_mem hlen (Nat.le_refl 0) (by decide : 0 + 1 ≤ 0 * 65536 + width 65536 2097152 0)
      (Nat.zero_le _)
  have hrun4' : ((Region.fresh t3 0 65536).handle.read .array 2097152 0 1).run (twoRegions c3, t3) =
      .ok (sub t3 0 1) (twoRegions c4, t3) := by
    rw [← hlost]
    exact hrun4
  have hfirst : (Call.allocate 65536).run .array 2097152 (⟨empty 65536 2097152 16, 0, []⟩, t3) =
      (.done, ⟨empty 65536 2097152 16, 65536, [⟨0, 65536, false⟩]⟩, t3) := rfl
  have hsecond : (Call.allocate 1048576).run .array 2097152
      (⟨empty 65536 2097152 16, 65536, [⟨0, 65536, false⟩]⟩, t3) =
      (.done, twoRegions (empty 65536 2097152 16), t3) := rfl
  exact ⟨_, _, runs_cons hfirst (runs_cons hsecond
    (runs_cons (run_writeCall (hgetA _) hrun1) (runs_cons (run_readCall (hgetB _) hrun2)
    (runs_cons (run_readCall (hgetB _) hread3) (runs_cons (run_readCall (hgetA _) hrun4') rfl)))))⟩

theorem specs_kept {remote : Bytes} (hlen : 2097152 ≤ remote.length) (b : UInt8) : ∃ x y,
    (specs remote 2097152 [.allocate 65536, .allocate 1048576, .write 0 0 [b], .read 1 0 983040,
      .read 1 983040 1, .read 0 0 1] ⟨0, []⟩).1 =
      [.done, .done, .done, .data x, .data y, .data [b]] := by
  have hA : (sub remote 0 65536).length = 65536 := length_sub_of_le (by omega)
  have hB : (sub remote 65536 1048576).length = 1048576 := length_sub_of_le (by omega)
  have hcheckA : (Region.fresh remote 0 65536).handle.check 0 1 = .ok () :=
    Region.check_fresh hA (by omega : 0 + 1 ≤ 65536)
  have hcheckB : (Region.fresh remote 65536 1048576).handle.check 0 983040 = .ok () :=
    Region.check_fresh hB (by omega : 0 + 983040 ≤ 1048576)
  have hcheckB' : (Region.fresh remote 65536 1048576).handle.check 983040 1 = .ok () :=
    Region.check_fresh hB (by omega : 983040 + 1 ≤ 1048576)
  have hset : setSlice (sub remote 0 65536) 0 (0 + ([b].length : Int)) [b] =
      splice (sub remote 0 65536) 0 [b] := setSlice_nat _ 0 1 [b] rfl (by omega)
  have hsame : (⟨0, splice (sub remote 0 65536) 0 [b], false⟩ : Region).handle =
      (Region.fresh remote 0 65536).handle := by
    rw [Region.handle_fresh hA, Region.handle, length_splice (by rw [hA]; simp), hA]
  have hle : 0 + [b].length ≤ (sub remote 0 65536).length := by
    rw [hA, List.length_singleton]
    omega
  have hlast : slice (splice (sub remote 0 65536) 0 [b]) 0 (0 + 1) = [b] :=
    (slice_nat _ 0 1).trans (sub_splice_self hle)
  have hread : ∀ m : Regions, m.regions[0]? = some ⟨0, splice (sub remote 0 65536) 0 [b], false⟩ →
      (Call.read 0 0 1).spec remote 2097152 m = (.data [b], m) := by
    intro m hm
    rw [spec_read remote 2097152 hm (hsame ▸ hcheckA), hlast]
  exact ⟨_, _, specs_cons (spec_allocate remote (by omega : 0 < 65536) (by omega : 0 + 65536 ≤ 2097152))
    (specs_cons (spec_allocate remote (by omega : 0 < 1048576) (by omega : 65536 + 1048576 ≤ 2097152))
    (specs_cons (spec_write remote 2097152 rfl hcheckA)
    (specs_cons (spec_read remote 2097152 rfl hcheckB)
    (specs_cons (spec_read remote 2097152 rfl hcheckB')
    (specs_cons (hread _ (congrArg (fun c => some (⟨0, c, false⟩ : Region)) hset)) rfl)))))⟩

/-- A region does not keep its contents: other regions' traffic evicts its page, and the byte
written to it is gone. -/
theorem not_isolated : init 2 1 = .ok ⟨empty 65536 2097152 16, 0, []⟩ ∧
    (runs .array 2097152 [.allocate 65536, .allocate 1048576, .write 0 0 [1], .read 1 0 983040,
      .read 1 983040 1, .read 0 0 1]
      (⟨empty 65536 2097152 16, 0, []⟩, List.replicate 2097152 0)).1.getLast? = some (.data [0]) ∧
    (specs (List.replicate 2097152 0) 2097152 [.allocate 65536, .allocate 1048576, .write 0 0 [1],
      .read 1 0 983040, .read 1 983040 1, .read 0 0 1] ⟨0, []⟩).1.getLast? = some (.data [1]) := by
  have hlen : (List.replicate 2097152 (0 : UInt8)).length = 2097152 := List.length_replicate ..
  obtain ⟨x, y, hruns⟩ := runs_lost hlen.ge 1
  obtain ⟨x', y', hspecs⟩ := specs_kept hlen.ge 1
  refine ⟨rfl, ?_, ?_⟩
  · rw [hruns, sub_replicate 0 (by omega)]
    rfl
  · rw [hspecs]
    rfl

end RAMLinkMemory

end RamLink
