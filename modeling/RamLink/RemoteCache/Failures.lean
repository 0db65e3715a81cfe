import RamLink.Lib.Outcome
import RamLink.Lib.Run
import RamLink.RemoteCache.Coherence

/-!
# RamLink.RemoteCache.Failures

The write-through cache over a leased region whose requests may fail.

* `unsent`: the page whose WRITE is the first request of a write to fail.
* `Call.Harmless`: the bytes that the write puts on that page are those the region has there.
* `readLoop_ends`, `writeLoop_ends`: the loops; a write that is not harmless leaves a page in the
  cache that is not the region's.
-/

namespace RamLink

open Lib

namespace RemoteCache

/-- The page whose WRITE is the first request to fail, of a write that meets `pages`: each page takes
a READ if it is not cached, and then a WRITE. -/
def unsent (k : Nat) : List Int → List Int → List (Option Exc) → Option Int
  | [], _, _ => none
  | p :: pages, order, faults =>
    if p ∉ order ∧ faults.head?.join.isSome then none
    else
      let faults := if p ∈ order then faults else faults.tail
      if faults.head?.join.isSome then some p else unsent k pages (Lru.touch k order p) faults.tail

def Call.Harmless (s : RemoteCache × LeasedRegion) : Call → Prop
  | .read _ _ => True
  | .write offset data =>
    ∀ p, unsent s.1.capacity.toNat (pagesOf page.toNat offset.toNat data.length) s.1.pages.keys
        s.2.faults = some p →
      ∀ j < data.length, (offset + j) / page = p → data[j]? = s.2.memory[(offset + j).toNat]?

/-- One call over a region whose requests may fail, whether it returns or raises. -/
def Call.next (fuel : Nat) (s : RemoteCache × LeasedRegion) (call : Call) :
    Option (RemoteCache × LeasedRegion) := some (finalState (call.run .region fuel) s)

/-- The cache is what the region is, and so is what a read returns. -/
structure Faithful (s : RemoteCache × LeasedRegion) : Prop where
  cached : ∀ p d, s.1.pages.get? p = some d → d = slice s.2.memory (p * page) (p * page + page)
  reads : ∀ (fuel : Nat) (offset length : Int) (bytes : Bytes) (s' : RemoteCache × LeasedRegion),
    0 ≤ offset → 0 ≤ length → offset + length ≤ s.2.memory.length →
    (read .region fuel offset length).run s = .ok bytes s' →
    bytes = slice s.2.memory offset (offset + length)

variable {ps rs k : Nat} {order : List Int} {mem : Bytes} {s : RemoteCache × LeasedRegion}

/-! ## The pages of a write -/

theorem unsent_mem {p : Int} (pages : List Int) : ∀ {order : List Int} {faults : List (Option Exc)},
    unsent k pages order faults = some p → p ∈ pages := by
  induction pages with
  | nil => intro order faults h; cases h
  | cons q pages ih =>
    intro order faults h
    unfold unsent at h
    simp only at h
    generalize (if q ∈ order then faults else faults.tail) = rest at h
    split at h
    · cases h
    · split at h
      · cases h
        exact List.mem_cons_self ..
      · exact List.mem_cons_of_mem q (ih h)

/-- The pages after the first one are others. -/
theorem ne_of_mem_rest {a n : Nat} {p : Int} (hps : 0 < ps)
    (hp : p ∈ pagesOf ps (a + min n (ps - a % ps)) (n - min n (ps - a % ps))) :
    p ≠ ((a / ps : Nat) : Int) := by
  have ha := Nat.div_add_mod a ps
  have ht := Nat.mod_lt a hps
  unfold pagesOf at hp
  split at hp
  · cases hp
  · obtain ⟨i, hi, rfl⟩ := List.mem_map.mp hp
    have hge := (List.mem_range'_1.mp hi).1
    have hmin : a + min n (ps - a % ps) = ps * (a / ps + 1) := by
      rw [Nat.mul_succ]
      omega
    rw [hmin, Nat.mul_div_cancel_left _ hps] at hge
    omega

/-- `Harmless`, for the bytes `d` that are left to write from address `b` on. -/
def Spares (ps k : Nat) (order : List Int) (faults : List (Option Exc)) (mem : Bytes) (b : Nat)
    (d : Bytes) : Prop :=
  ∀ p, unsent k (pagesOf ps b d.length) order faults = some p →
    ∀ j < d.length, (((b + j) / ps : Nat) : Int) = p → d[j]? = mem[b + j]?

section Spares

variable {faults : List (Option Exc)} {b : Nat} {d : Bytes}

/-- The first page cannot be read. -/
theorem spares_unread (hps : 0 < ps) (hd : 0 < d.length) (hnot : ((b / ps : Nat) : Int) ∉ order)
    {e : Exc} (hf : faults.head?.join = some e) : Spares ps k order faults mem b d := by
  intro p hp
  rw [pagesOf_step hps hd, unsent, if_pos ⟨hnot, by rw [hf]; rfl⟩] at hp
  cases hp

/-- The first page cannot be written. -/
theorem spares_unsent (hps : 0 < ps) (hd : 0 < d.length)
    (hread : ((b / ps : Nat) : Int) ∈ order ∨ faults.head?.join = none) {e : Exc}
    (hf : (if ((b / ps : Nat) : Int) ∈ order then faults else faults.tail).head?.join = some e) :
    Spares ps k order faults mem b d ↔
      ∀ j < min d.length (ps - b % ps), d[j]? = mem[b + j]? := by
  have hfirst : unsent k (pagesOf ps b d.length) order faults = some ((b / ps : Nat) : Int) := by
    have hgo : ¬ (((b / ps : Nat) : Int) ∉ order ∧ faults.head?.join.isSome) := by
      rintro ⟨hnot, hsome⟩
      rw [hread.resolve_left hnot] at hsome
      cases hsome
    rw [pagesOf_step hps hd, unsent, if_neg hgo]
    simp only [hf, Option.isSome_some, if_true]
  have hdiv := add_div_eq_iff hps b
  unfold Spares
  rw [hfirst]
  constructor
  · intro h j hj
    exact h _ rfl j (by omega) (by rw [(hdiv j).mpr (by omega)])
  · intro h p hp j hj hjp
    cases hp
    exact h j (Nat.lt_min.mpr ⟨hj, (hdiv j).mp (by omega)⟩)

/-- The first page goes through. -/
theorem spares_sent (hps : 0 < ps) (hd : 0 < d.length) (hfit : b + d.length ≤ mem.length)
    (hread : ((b / ps : Nat) : Int) ∈ order ∨ faults.head?.join = none)
    (hf : (if ((b / ps : Nat) : Int) ∈ order then faults else faults.tail).head?.join = none) :
    Spares ps k order faults mem b d ↔
      Spares ps k (Lru.touch k order ((b / ps : Nat) : Int))
        (if ((b / ps : Nat) : Int) ∈ order then faults else faults.tail).tail
        (splice mem b (d.take (min d.length (ps - b % ps)))) (b + min d.length (ps - b % ps))
        (d.drop (min d.length (ps - b % ps))) := by
  have hgo : ¬ (((b / ps : Nat) : Int) ∉ order ∧ faults.head?.join.isSome) := by
    rintro ⟨hnot, hsome⟩
    rw [hread.resolve_left hnot] at hsome
    cases hsome
  have hother := fun p => @ne_of_mem_rest ps b d.length p hps
  unfold Spares
  rw [pagesOf_step hps hd, unsent, if_neg hgo]
  simp only [hf, Option.isSome_none, if_false, List.length_drop, Bool.false_eq_true]
  generalize hm : min d.length (ps - b % ps) = m at *
  -- behind the first page, the bytes and the memory are the same
  have hmem : ∀ j, (splice mem b (d.take m))[b + m + j]? = mem[b + (m + j)]? := by
    intro j
    rw [getElem?_splice _ _ (by rw [List.length_take]; omega), if_neg (by rw [List.length_take]; omega),
      Nat.add_assoc]
  constructor
  · intro h p hp j hj hjp
    rw [List.getElem?_drop, hmem]
    exact h p hp (m + j) (by omega) (by rw [← Nat.add_assoc]; exact hjp)
  · intro h p hp j hj hjp
    have hne := hother p (unsent_mem _ hp)
    have hge : m ≤ j := by
      by_contra hlt
      refine hne (hjp.symm.trans ?_)
      rw [(add_div_eq_iff hps b j).mpr (by omega)]
    obtain ⟨i, rfl⟩ := Nat.exists_eq_add_of_le hge
    have := h p hp i (by omega) (by rw [Nat.add_assoc]; exact hjp)
    rw [List.getElem?_drop, hmem] at this
    exact this

end Spares

/-! ## Reads -/

/-- The cache is that of the region, in some order. -/
def Held (ps rs k : Nat) (mem : Bytes) (s : RemoteCache × LeasedRegion) : Prop :=
  ∃ order, Tied ps rs k order mem s

theorem readLoop_ends (hps : page = ps) (hpos : 0 < ps) (hk : 0 < k) (hrs : ps ∣ rs) (fuel : Nat) :
    ∀ {out : Bytes} {a n : Nat} {order : List Int} {s : RemoteCache × LeasedRegion}, a + n ≤ rs →
      Tied ps rs k order mem s → Ends (readLoop .region fuel a n out)
        (fun bytes t => bytes = out ++ sub mem a n ∧ Held ps rs k mem t) (Held ps rs k mem) s := by
  have hdone : ∀ (fuel : Nat) {out : Bytes} {a : Nat} {order : List Int}
      {s : RemoteCache × LeasedRegion}, Tied ps rs k order mem s →
      Ends (readLoop .region fuel a ((0 : Nat) : Int) out)
        (fun bytes t => bytes = out ++ sub mem a 0 ∧ Held ps rs k mem t) (Held ps rs k mem) s := by
    intro fuel out a order s h
    rw [readLoop_done]
    exact .pure ⟨by rw [sub_zero, List.append_nil], order, h⟩
  induction fuel with
  | zero =>
    intro out a n order s hr h
    rcases Nat.eq_zero_or_pos n with rfl | hn
    · exact hdone 0 h
    · rw [readLoop, if_neg (by omega)]
      exact .throw ⟨order, h⟩
  | succ fuel ih =>
    intro out a n order s hr h
    rcases Nat.eq_zero_or_pos n with rfl | hn
    · exact hdone (fuel + 1) h
    -- one page, then the rest of the range
    obtain ⟨hi, hin, -, -, -⟩ := chunk_arith hpos hn hr
    have hle : min n (ps - a % ps) ≤ n := Nat.min_le_left _ _
    rw [readLoop_step .region hps hpos hn]
    by_cases hf : ((a / ps : Nat) : Int) ∈ order ∨ s.2.fault = none
    · obtain ⟨s', hrun, h', -⟩ := readPage_ok hps hk hrs h hi hf
      refine .bind_ok hrun ?_
      rw [sub_pageAt hin, sub_split hle, ← List.append_assoc]
      exact ih (by omega) h'
    · obtain ⟨hnot, hfault⟩ := not_or.mp hf
      obtain ⟨e, he⟩ := Option.ne_none_iff_exists'.mp hfault
      obtain ⟨s', hrun, h'⟩ := readPage_raises hps hrs h hi hnot he
      exact .bind_error hrun ⟨order, h'⟩

theorem read_ends (hps : page = ps) (hpos : 0 < ps) (hk : 0 < k) (hrs : ps ∣ rs) (fuel : Nat)
    {a n : Nat} (hr : a + n ≤ rs) (h : Tied ps rs k order mem s) : Ends (read .region fuel a n)
      (fun bytes t => bytes = sub mem a n ∧ Held ps rs k mem t) (Held ps rs k mem) s := by
  have hin : ¬ ((a : Int) < 0 ∨ s.1.remoteSize < (a : Int) + n) := by
    rw [h.remoteSize]
    omega
  refine .bind_get (.bind_ok (a := ()) (t := s) (by rw [run_raiseIf, if_neg hin]) ?_)
  exact readLoop_ends hps hpos hk hrs fuel hr h

theorem Tied.faithful (hps : page = ps) (hpos : 0 < ps) (hk : 0 < k) (hrs : ps ∣ rs)
    (h : Tied ps rs k order mem s) : Faithful s := by
  have hm := h.memory
  have hlen := h.length_mem
  refine ⟨fun p d hd => ?_, fun fuel offset length bytes s' h1 h2 h3 hrun => ?_⟩
  · obtain ⟨i, rfl, hi, rfl⟩ := h.resident p d hd
    rw [hm, hps, ← Nat.cast_mul, slice_nat, pageAt, width_of_dvd hrs hi]
  · obtain ⟨a, rfl⟩ := Int.eq_ofNat_of_zero_le h1
    obtain ⟨n, rfl⟩ := Int.eq_ofNat_of_zero_le h2
    rw [hm] at h3
    rw [hm, slice_nat]
    exact ((read_ends hps hpos hk hrs fuel (by omega) h).of_ok hrun).1

/-! ## Writes -/

/-- The condition holds and the cache is that of the region, or neither. -/
def Verdict (ps rs k : Nat) (C : Prop) (t : RemoteCache × LeasedRegion) : Prop :=
  (C ∧ ∃ mem, Held ps rs k mem t) ∨ (¬ C ∧ ¬ Faithful t)

theorem not_faithful (hps : page = ps) (hrs : ps ∣ rs) {i : Nat} {d : Bytes} (hi : i * ps < rs)
    (hget : s.1.pages.get? i = some d) (hd : d ≠ pageAt ps rs s.2.memory i) : ¬ Faithful s := by
  intro h
  refine hd ((h.cached _ d hget).trans ?_)
  rw [hps, ← Nat.cast_mul, slice_nat, pageAt, width_of_dvd hrs hi]

/-- Writing a range of `d` into a page changes nothing exactly if the page has it there. -/
theorem splice_pageAt_iff {i inside pos m : Nat} {d : Bytes} (hlen : mem.length = rs) (hi : i * ps ≤ rs)
    (hin : inside + m ≤ width ps rs i) (hd : pos + m ≤ d.length) :
    splice (pageAt ps rs mem i) inside (sub d pos m) = pageAt ps rs mem i ↔
      ∀ j < m, (d.drop pos)[j]? = mem[i * ps + inside + j]? := by
  have hchunk : (sub d pos m).length = m := length_sub_of_le hd
  rw [splice_eq_self_iff (by rw [length_pageAt hlen.ge hi, hchunk]; exact hin), hchunk]
  refine forall₂_congr (fun j hj => ?_)
  rw [getElem?_sub, if_pos hj, pageAt, getElem?_sub, if_pos (by omega), List.getElem?_drop,
    ← Nat.add_assoc]

theorem writeLoop_ends (hps : page = ps) (hpos : 0 < ps) (hk : 0 < k) (hrs : ps ∣ rs) (a : Nat)
    (data : Bytes) (hr : a + data.length ≤ rs) (fuel : Nat) :
    ∀ {pos : Nat} {order : List Int} {mem : Bytes} {s : RemoteCache × LeasedRegion},
      pos ≤ data.length → data.length ≤ pos + fuel → Tied ps rs k order mem s →
      Ends (writeLoop .region a data fuel pos)
        (fun _ => Verdict ps rs k (Spares ps k order s.2.faults mem (a + pos) (data.drop pos)))
        (Verdict ps rs k (Spares ps k order s.2.faults mem (a + pos) (data.drop pos))) s := by
  have hdone : ∀ {pos : Nat} {order : List Int} {mem : Bytes} {s : RemoteCache × LeasedRegion},
      data.length ≤ pos → Tied ps rs k order mem s →
      Verdict ps rs k (Spares ps k order s.2.faults mem (a + pos) (data.drop pos)) s := by
    intro pos order mem s hp h
    refine .inl ⟨?_, mem, order, h⟩
    rw [List.drop_of_length_le hp]
    intro p hp j hj
    cases hj
  induction fuel with
  | zero =>
    intro pos order mem s hp hf h
    rw [writeLoop_done .region (by omega)]
    exact .pure (hdone (by omega) h)
  | succ fuel ih =>
    intro pos order mem s hp hf h
    rcases Nat.eq_zero_or_pos (data.drop pos).length with hn | hn
    · rw [List.length_drop] at hn
      rw [writeLoop_done .region (by omega)]
      exact .pure (hdone (by omega) h)
    -- one page, then the rest of the data
    have hd : (data.drop pos).length = data.length - pos := List.length_drop
    obtain ⟨hi, hin, ha, hm, -⟩ := chunk_arith hpos hn (by omega : a + pos + (data.drop pos).length ≤ rs)
    have ht := Nat.mod_lt (a + pos) hpos
    have hfit : (a + pos) % ps + min (data.drop pos).length (ps - (a + pos) % ps) ≤ ps := by omega
    have hchunk : (sub data pos (min (data.drop pos).length (ps - (a + pos) % ps))).length = _ :=
      length_sub_of_le (by omega)
    have hle : min (data.drop pos).length (ps - (a + pos) % ps) ≤ (data.drop pos).length :=
      Nat.min_le_left _ _
    have hlen := h.length_mem
    have hfaults := LeasedRegion.reached_faults s.2 ps order ((a + pos) / ps)
    rw [writeLoop_step .region hps hpos hn (by omega : pos + (data.drop pos).length = data.length)]
    by_cases hread : (((a + pos) / ps : Nat) : Int) ∈ order ∨ s.2.fault = none
    · cases hwrite : (s.2.reached ps order ((a + pos) / ps)).fault with
      | none =>
        have hiff : Spares ps k order s.2.faults mem (a + pos) (data.drop pos) ↔ _ :=
          spares_sent hpos hn (by omega) hread (by rw [← hfaults]; exact hwrite)
        rw [hiff]
        generalize min (data.drop pos).length (ps - (a + pos) % ps) = m at *
        obtain ⟨s1, hrun, h1, hs1⟩ := writePage_ok hps hk hrs h hi hchunk hfit hread hwrite
        have hrest : s1.2.faults = (if (((a + pos) / ps : Nat) : Int) ∈ order then s.2.faults
            else s.2.faults.tail).tail := by rw [hs1, ← hfaults]; rfl
        rw [ha] at h1
        have hnext := @ih (pos + m) _ _ s1 (by omega) (by omega) h1
        rw [hrest, ← Nat.add_assoc, ← List.drop_drop] at hnext
        exact .bind_ok hrun hnext
      | some e =>
        have hiff : Spares ps k order s.2.faults mem (a + pos) (data.drop pos) ↔ _ :=
          spares_unsent hpos hn hread (by rw [← hfaults]; exact hwrite)
        rw [hiff]
        generalize min (data.drop pos).length (ps - (a + pos) % ps) = m at *
        obtain ⟨s1, hrun, hmem1, hget1, hsame⟩ := writePage_unsent hps hk hrs h hi hchunk hfit hread hwrite
        refine .bind_error hrun ?_
        have hpage : splice (pageAt ps rs mem ((a + pos) / ps)) ((a + pos) % ps) (sub data pos m) = _ ↔ _ :=
          splice_pageAt_iff hlen (Nat.le_of_lt hi) hin (by omega)
        rw [ha] at hpage
        rw [← hpage]
        by_cases hC : splice (pageAt ps rs mem ((a + pos) / ps)) ((a + pos) % ps) (sub data pos m) =
            pageAt ps rs mem ((a + pos) / ps)
        · exact .inl ⟨hC, mem, hsame hC⟩
        · rw [← hmem1] at hC
          exact .inr ⟨by rw [← hmem1]; exact hC, not_faithful hps hrs hi (by rw [hmem1]; exact hget1) hC⟩
    · obtain ⟨hnot, hfault⟩ := not_or.mp hread
      obtain ⟨e, he⟩ := Option.ne_none_iff_exists'.mp hfault
      obtain ⟨s1, hrun, h1⟩ := writePage_unread hps hrs h hi hnot he _ _ _
      exact .bind_error hrun (.inl ⟨spares_unread hpos hn hnot he, mem, order, h1⟩)

/-! ## Runs of calls -/

theorem harmless_write (hps : page = ps) (h : Tied ps rs k order mem s) (a : Nat) (data : Bytes) :
    Call.Harmless s (.write a data) ↔ Spares ps k order s.2.faults mem a data := by
  have hk : s.1.capacity.toNat = k := by rw [h.capacity]; rfl
  simp only [Call.Harmless, Spares, hk, h.keys, h.memory, Int.toNat_natCast, hps,
    ← Int.natCast_add, ← Int.natCast_ediv]

theorem call_verdict (hps : page = ps) (hpos : 0 < ps) (hk : 0 < k) (hrs : ps ∣ rs)
    (h : Tied ps rs k order mem s) {fuel : Nat} (hf : rs ≤ fuel) {call : Call} (hin : call.InRange rs) :
    Verdict ps rs k (call.Harmless s) (finalState (call.run .region fuel) s) := by
  cases call with
  | read offset length =>
    obtain ⟨h1, h2, h3⟩ := hin
    obtain ⟨a, rfl⟩ := Int.eq_ofNat_of_zero_le h1
    obtain ⟨n, rfl⟩ := Int.eq_ofNat_of_zero_le h2
    have hends : Ends ((Call.read a n).run .region fuel) (fun _ => Held ps rs k mem)
        (Held ps rs k mem) s := by
      refine .bind ?_ (fun bytes t ht => .pure ht)
      exact (read_ends hps hpos hk hrs fuel (by omega) h).mono (fun _ _ ht => ht.2) (fun _ ht => ht)
    exact .inl ⟨trivial, mem, hends.finalState⟩
  | write offset data =>
    obtain ⟨h1, h2⟩ := hin
    obtain ⟨a, rfl⟩ := Int.eq_ofNat_of_zero_le h1
    rw [harmless_write hps h]
    have hloop : Ends (writeLoop .region a data fuel ((0 : Nat) : Int)) _ _ s :=
      writeLoop_ends hps hpos hk hrs a data (by omega) fuel (Nat.zero_le _) (by omega) h
    have hends : Ends ((Call.write a data).run .region fuel)
        (fun _ => Verdict ps rs k (Spares ps k order s.2.faults mem a data))
        (Verdict ps rs k (Spares ps k order s.2.faults mem a data)) s := by
      refine .bind (.bind_get (.bind_ok (a := ()) (t := s) ?_ hloop)) (fun _ t ht => .pure ht)
      rw [run_raiseIf, if_neg]
      rw [h.remoteSize]
      omega
    exact hends.finalState

/-- The cache stays that of the region exactly in the runs in which every write is harmless. -/
theorem faithful_iff (remoteMb : Nat) (cacheMb : Int) (base : Nat) {memory : Bytes}
    (hlen : memory.length = remoteMb * 1048576) (faults : List (Option Exc)) {calls : List Call}
    (hin : ∀ call ∈ calls, call.InRange memory.length) {fuel : Nat} (hf : memory.length ≤ fuel) :
    Always (Call.next fuel) Faithful
        (init base memory.length cacheMb, ⟨base, memory, faults, []⟩) calls ↔
      Guarded (Call.next fuel) Call.Harmless
        (init base memory.length cacheMb, ⟨base, memory, faults, []⟩) calls := by
  obtain ⟨ps, hps, hpos, hrs⟩ := page_dvd remoteMb
  rw [← hlen] at hrs
  obtain ⟨k, hk, h⟩ := init_tied ps base memory cacheMb faults
  refine always_iff_guarded_of (J := fun s => ∃ mem, Held ps memory.length k mem s)
    (fun s hs => ?_) (fun s call s' hs hcall hnext hc => ?_) (fun s call s' hs hcall hnext hc => ?_)
    ⟨memory, [], h⟩ hin
  · obtain ⟨mem, order, hs⟩ := hs
    exact hs.faithful hps hpos hk hrs
  · obtain ⟨mem, order, hs⟩ := hs
    cases hnext
    rcases call_verdict hps hpos hk hrs hs hf hcall with hv | hv
    · exact hv.2
    · exact absurd hc hv.1
  · obtain ⟨mem, order, hs⟩ := hs
    cases hnext
    rcases call_verdict hps hpos hk hrs hs hf hcall with hv | hv
    · exact absurd hv.1 hc
    · exact hv.2

/-- A write whose second page cannot be read. -/
theorem faithful_iff_unread :
    Always (Call.next 1048576) Faithful (init 512 (List.replicate 1048576 (0 : UInt8)).length 1,
        ⟨512, List.replicate 1048576 0, [none, none, some (.connectionError "remote provider disconnected")],
          []⟩) [.write 65535 [1, 2], .read 65534 2] ↔
      Guarded (Call.next 1048576) Call.Harmless (init 512 (List.replicate 1048576 (0 : UInt8)).length 1,
        ⟨512, List.replicate 1048576 0, [none, none, some (.connectionError "remote provider disconnected")],
          []⟩) [.write 65535 [1, 2], .read 65534 2] := by
  refine faithful_iff 1 1 512 List.length_replicate _ ?_ (List.length_replicate ..).le
  intro call hcall
  rw [List.length_replicate]
  rcases List.mem_cons.mp hcall with rfl | hcall
  · exact ⟨by decide, by decide⟩
  · obtain rfl := List.mem_singleton.mp hcall
    exact ⟨by decide, by decide, by decide⟩

/-- The WRITE of a byte fails: the cache has the byte, the region has not. -/
theorem faithful_fails : ¬ Always (Call.next 1048576) Faithful
    (init 512 (List.replicate 1048576 (0 : UInt8)).length 1, ⟨512, List.replicate 1048576 0,
      [none, some (.connectionError "remote provider disconnected")], []⟩) [.write 0 [1]] := by
  intro hall
  generalize hmem : List.replicate 1048576 (0 : UInt8) = memory at hall
  have hlen : memory.length = 1 * 1048576 := by rw [← hmem, List.length_replicate]
  have hfaithful := (hall.2 _ rfl).head
  obtain ⟨ps, hps, hpos, hrs⟩ := page_dvd 1
  rw [← hlen] at hrs
  obtain ⟨k, hk, h⟩ := init_tied ps 512 memory 1
    [none, some (.connectionError "remote provider disconnected")]
  have hin : (Call.write 0 [1]).InRange memory.length := ⟨by decide, by rw [hlen]; decide⟩
  rcases call_verdict hps hpos hk hrs h (by omega : memory.length ≤ 1048576) hin with hv | hv
  · -- the harmless byte would be the one the region has
    have hbyte : ([1] : Bytes)[0]? = memory[0]? := hv.1 0 rfl 0 (by decide) rfl
    rw [← hmem, List.getElem?_replicate, if_pos (by omega)] at hbyte
    cases hbyte
  · exact hv.2 hfaithful

end RemoteCache

end RamLink
