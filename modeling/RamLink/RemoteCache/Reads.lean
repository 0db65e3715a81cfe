import RamLink.RemoteCache.Failures

/-!
# RamLink.RemoteCache.Reads

What a read of the write-through cache answers, for every pair of integers, once the provider answers.

The history may hold any calls, with requests that failed, so that a cached page need not be what the
region has.

* `Kept C ps rs k s`: what every call keeps. Under `C`, no request fails and the pages are the region's.
* `readLoop_calm`: the bytes of a read within the region.
* `read_exact_iff`: a read answers what it should unless it is asked for a negative number of bytes,
  or takes bytes from a page that is not what the region has.
-/

namespace RamLink

open Lib

/-- The provider answers every request from now on. -/
def LeasedRegion.answering (self : LeasedRegion) : LeasedRegion := { self with faults := [] }

namespace RemoteCache

/-- The range is one of the region's. -/
def Contained (s : RemoteCache × LeasedRegion) (offset length : Int) : Prop :=
  0 ≤ offset ∧ 0 ≤ length ∧ offset + length ≤ s.1.remoteSize

/-- The read returns the bytes it was asked for, or raises `ValueError` and changes nothing. -/
def ReadsOrRejects (fuel : Nat) (s : RemoteCache × LeasedRegion) (offset length : Int) : Prop :=
  match (read .region fuel offset length).run s with
  | .ok bytes _ => Contained s offset length ∧ (bytes.length : Int) = length ∧
      bytes = slice s.2.memory offset (offset + length)
  | .error e t => ¬ Contained s offset length ∧ (∃ text, e = .valueError text) ∧ t.1 = s.1

/-- The pages of the range that are in the cache when a read comes to them have the region's bytes at
the positions of the range. -/
def Mirrors (s : RemoteCache × LeasedRegion) (offset length : Int) : Prop :=
  Contained s offset length →
  ∀ p ∈ Lru.hits s.1.capacity.toNat s.1.pages.keys (pagesOf page.toNat offset.toNat length.toNat),
    ∀ d, s.1.pages.get? p = some d → ∀ j : Nat, j < length → (offset + j) / page = p →
      d[((offset + j) % page).toNat]? = s.2.memory[(offset + j).toNat]?

/-! ## Requests -/

/-- A request for any range: in a region that answers, only one outside of it raises. -/
theorem send_ends (t : LeasedRegion) (offset length : Int) :
    Ends (LeasedRegion.send offset length)
      (fun _ u => u.base = t.base ∧ u.memory = t.memory ∧ (t.faults = [] → u.faults = []) ∧
        t.base ≤ offset ∧ 0 ≤ length ∧ offset + length ≤ t.base + t.memory.length)
      (fun u => u.base = t.base ∧ u.memory = t.memory ∧ (t.faults = [] → u.faults = [] ∧
        (offset < t.base ∨ length < 0 ∨ t.base + t.memory.length < offset + length))) t := by
  obtain ⟨base, memory, faults, log⟩ := t
  have hanswers : ∀ faults' : List (Option Exc), (faults = [] → faults' = []) →
      Ends (raiseIf (offset < base ∨ length < 0 ∨ (base : Int) + memory.length < offset + length)
          (.connectionError "remote provider disconnected") : EStateM Exc LeasedRegion Unit)
        (fun _ u => u.base = base ∧ u.memory = memory ∧ (faults = [] → u.faults = []) ∧
          base ≤ offset ∧ 0 ≤ length ∧ offset + length ≤ base + memory.length)
        (fun u => u.base = base ∧ u.memory = memory ∧ (faults = [] → u.faults = [] ∧
          (offset < base ∨ length < 0 ∨ (base : Int) + memory.length < offset + length)))
        ⟨base, memory, faults', ⟨offset, length⟩ :: log⟩ := by
    intro faults' hf
    exact .raiseIf (fun hout => ⟨rfl, rfl, fun h => ⟨hf h, hout⟩⟩)
      (fun hin => ⟨rfl, rfl, hf, by omega, by omega, by omega⟩)
  rcases faults with _ | ⟨_ | e, faults⟩
  · exact hanswers [] (fun _ => rfl)
  · exact hanswers faults (fun h => by cases h)
  · exact ⟨rfl, rfl, fun h => by cases h⟩

theorem region_read_ends (t : LeasedRegion) (offset length : Int) :
    Ends (Api.region.read offset length)
      (fun d u => u.base = t.base ∧ u.memory = t.memory ∧ (t.faults = [] → u.faults = []) ∧
        t.base ≤ offset ∧ 0 ≤ length ∧ offset + length ≤ t.base + t.memory.length ∧
        d = slice t.memory (offset - t.base) (offset - t.base + length))
      (fun u => u.base = t.base ∧ u.memory = t.memory ∧ (t.faults = [] → u.faults = [] ∧
        (offset < t.base ∨ length < 0 ∨ t.base + t.memory.length < offset + length))) t := by
  refine (send_ends t offset length).bind (fun _ u hu => .bind_get (.pure ?_))
  obtain ⟨hb, hm, hf, h1, h2, h3⟩ := hu
  exact ⟨hb, hm, hf, h1, h2, h3, by rw [hb, hm]⟩

/-! ## What every call keeps -/

structure Kept (C : Prop) (ps rs k : Nat) (s : RemoteCache × LeasedRegion) : Prop where
  base : s.1.base = s.2.base
  remoteSize : s.1.remoteSize = rs
  capacity : s.1.capacity = k
  length_mem : s.2.memory.length = rs
  bounded : s.1.pages.keys.length ≤ k
  resident : ∀ p d, s.1.pages.get? p = some d → ∃ i : Nat, p = i ∧ i * ps + ps ≤ rs ∧ d.length = ps ∧
    (C → d = pageAt ps rs s.2.memory i)
  calm : C → s.2.faults = []

variable {C : Prop} {ps rs k : Nat} {s s' : RemoteCache × LeasedRegion} {p : Int}

/-- Only the counters differ. -/
theorem Kept.counters (h : Kept C ps rs k s) (hits misses : Nat) :
    Kept C ps rs k ({ s.1 with hits := hits, misses := misses }, s.2) :=
  ⟨h.base, h.remoteSize, h.capacity, h.length_mem, h.bounded, h.resident, h.calm⟩

/-- Only what a request has changed differs. -/
theorem Kept.sent (h : Kept C ps rs k s) {t : LeasedRegion} (hb : t.base = s.2.base)
    (hm : t.memory = s.2.memory) (hf : s.2.faults = [] → t.faults = []) : Kept C ps rs k (s.1, t) :=
  ⟨by rw [hb]; exact h.base, h.remoteSize, h.capacity, by rw [hm]; exact h.length_mem, h.bounded,
    by rw [hm]; exact h.resident, fun hc => hf (h.calm hc)⟩

/-- A page of the region is read at its place. -/
theorem Kept.page_at (h : Kept C ps rs k s) (hps : page = ps) (hpos : 0 < ps)
    (h1 : (s.2.base : Int) ≤ s.1.base + p * page)
    (h2 : s.1.base + p * page + page ≤ s.2.base + s.2.memory.length) :
    ∃ i : Nat, p = i ∧ i * ps + ps ≤ rs ∧ s.1.base + p * page - s.2.base = (i * ps : Nat) := by
  rw [h.base, h.length_mem] at *
  rw [hps] at *
  have hp : 0 ≤ p := by
    by_contra hneg
    have := Int.mul_neg_of_neg_of_pos (Int.not_le.mp hneg) (by omega : (0 : Int) < ps)
    omega
  obtain ⟨i, rfl⟩ := Int.eq_ofNat_of_zero_le hp
  refine ⟨i, rfl, ?_, ?_⟩ <;> push_cast <;> omega

theorem loadPage_keeps (hps : page = ps) (hpos : 0 < ps) (hk : 0 < k) (h : Kept C ps rs k s)
    (hnot : p ∉ s.1.pages.keys) : Ends (loadPage .region p)
      (fun _ t => Kept C ps rs k t ∧ p ∈ t.1.pages.keys) (Kept C ps rs k) s := by
  have hread := region_read_ends s.2 (s.1.base + p * page) page
  unfold Ends at hread ⊢
  cases hrun : (Api.region.read (s.1.base + p * page) page).run s.2 with
  | error e t =>
    rw [hrun] at hread
    obtain ⟨hb, hm, hf⟩ := hread
    rw [run_loadPage_raises .region hrun]
    exact h.sent hb hm (fun h => (hf h).1)
  | ok d t =>
    rw [hrun] at hread
    obtain ⟨hb, hm, hf, h1, h2, h3, rfl⟩ := hread
    obtain ⟨i, rfl, hi, hplace⟩ := h.page_at hps hpos h1 h3
    obtain ⟨pages, hload, hkeys, hget⟩ := run_loadPage .region hk h.capacity h.bounded hnot hrun
    rw [hload]
    have hsent := h.sent hb hm hf
    refine ⟨⟨hsent.base, hsent.remoteSize, hsent.capacity, hsent.length_mem, ?_, fun q e he => ?_,
      hsent.calm⟩, ?_⟩
    · rw [hkeys]
      exact Lru.length_touch _ hk (Dict.keys_nodup _) h.bounded
    · simp only [hget] at he
      split at he
      · cases he
      · split at he
        · -- the page that was read
          rename_i hq
          cases he
          have hlen := h.length_mem
          have hw : width ps rs i = ps := by
            unfold width
            omega
          refine ⟨i, hq, hi, ?_, fun _ => ?_⟩ <;> rw [hplace, hps, slice_nat]
          · exact length_sub_of_le (by omega)
          · rw [hm, pageAt, hw]
        · exact hsent.resident q e he
    · show (i : Int) ∈ pages.keys
      rw [hkeys]
      exact Lru.mem_touch_self k _ _

theorem moveToEnd_keeps (h : Kept C ps rs k s) (hp : p ∈ s.1.pages.keys) :
    ∃ pages, (moveToEnd p).run s = .ok () ({ s.1 with pages := pages }, s.2) ∧
      pages.keys = s.1.pages.keys.filter (fun q => decide (q ≠ p)) ++ [p] ∧
      (∀ q, pages.get? q = s.1.pages.get? q) ∧ Kept C ps rs k ({ s.1 with pages := pages }, s.2) := by
  obtain ⟨pages, hmove⟩ := Dict.moveToEnd_isSome hp
  have hget := Dict.get?_moveToEnd hmove
  have hlen : pages.keys.length = s.1.pages.keys.length := by
    rw [Dict.length_keys, Dict.size_congr hget, ← Dict.length_keys]
  refine ⟨pages, run_moveToEnd hmove, Dict.keys_moveToEnd hmove, hget, h.base, h.remoteSize, h.capacity,
    h.length_mem, by rw [hlen]; exact h.bounded, fun q d hd => ?_, h.calm⟩
  exact h.resident q d (by rw [← hget]; exact hd)

theorem readPage_keeps (hps : page = ps) (hpos : 0 < ps) (hk : 0 < k) (h : Kept C ps rs k s) (p : Int) :
    Ends (readPage .region p) (fun _ => Kept C ps rs k) (Kept C ps rs k) s := by
  unfold readPage
  refine .bind_get ?_
  cases hg : s.1.pages.get? p with
  | some d =>
    obtain ⟨pages, hmove, -, -, h'⟩ := moveToEnd_keeps (h.counters (s.1.hits + 1) s.1.misses)
      (Dict.mem_keys_of_get? hg)
    exact .bind_ok (run_modifyFst ..) (.bind_ok hmove (.pure h'))
  | none =>
    refine .bind_ok (run_modifyFst ..) (.bind (loadPage_keeps hps hpos hk
      (h.counters s.1.hits (s.1.misses + 1)) (Dict.get?_eq_none.mp hg)) (fun _ t ht => ?_))
    obtain ⟨h', hp⟩ := ht
    obtain ⟨d, hd⟩ := Dict.mem_keys.mp hp
    unfold Ends
    rw [run_lookup hd]
    exact h'

theorem readLoop_keeps (hps : page = ps) (hpos : 0 < ps) (hk : 0 < k) (fuel : Nat) :
    ∀ {offset length : Int} {out : Bytes} {s : RemoteCache × LeasedRegion}, Kept C ps rs k s →
      Ends (readLoop .region fuel offset length out) (fun _ => Kept C ps rs k) (Kept C ps rs k) s := by
  induction fuel with
  | zero =>
    intro offset length out s h
    unfold readLoop
    by_cases hl : length = 0
    · rw [if_pos hl]
      exact .pure h
    · rw [if_neg hl]
      exact .throw h
  | succ fuel ih =>
    intro offset length out s h
    unfold readLoop
    by_cases hl : length = 0
    · rw [if_pos hl]
      exact .pure h
    · rw [if_neg hl]
      exact (readPage_keeps hps hpos hk h _).bind (fun _ _ ht => ih ht)

/-- Page `i` has new bytes, and so has the region if the WRITE is answered. -/
theorem sendPage_keeps (hps : page = ps) (h : Kept C ps rs k s) {i inside : Nat} {d data bytes : Bytes}
    (hget : s.1.pages.get? i = some d) (hin : inside + data.length ≤ ps)
    (hb : splice d inside data = bytes) :
    Ends (remoteWrite .region (i * page) bytes)
      (fun _ t => Kept C ps rs k t ∧ (i : Int) ∈ t.1.pages.keys) (Kept C ps rs k)
      ({ s.1 with pages := s.1.pages.modify i (fun _ => bytes) }, s.2) := by
  obtain ⟨j, hj, hi, hd, -⟩ := h.resident _ _ hget
  obtain rfl : i = j := by omega
  have hlen := h.length_mem
  have hbase : s.1.base = s.2.base := h.base
  have hnew : bytes.length = ps := by rw [← hb, length_splice (by omega), hd]
  have hw : width ps rs i = bytes.length := by
    unfold width
    omega
  have hkeys : (i : Int) ∈ (s.1.pages.modify i (fun _ => bytes)).keys := by
    rw [Dict.keys_modify]
    exact Dict.mem_keys_of_get? hget
  have hmod : ∀ q e, (s.1.pages.modify i (fun _ => bytes)).get? q = some e →
      (q = i ∧ e = bytes) ∨ (q ≠ i ∧ s.1.pages.get? q = some e) := by
    intro q e he
    rw [Dict.get?_modify] at he
    by_cases hq : q = i
    · rw [if_pos hq, hq, hget, Option.map_some, Option.some.injEq] at he
      exact .inl ⟨hq, he.symm⟩
    · rw [if_neg hq] at he
      exact .inr ⟨hq, he⟩
  unfold Ends
  rw [remoteWrite_page hps _ _ i hnew]
  simp only [hbase, LeasedRegion.run_write hnew (by omega : i * ps + ps ≤ s.2.memory.length)]
  cases hf : s.2.fault with
  | some e =>
    -- the page is not the region's, but then a request has failed
    refine ⟨rfl, h.remoteSize, h.capacity, h.length_mem, by rw [Dict.keys_modify]; exact h.bounded,
      fun q e he => ?_, fun hc => ?_⟩
    · rcases hmod q e he with ⟨rfl, rfl⟩ | ⟨-, he⟩
      · refine ⟨i, rfl, hi, hnew, fun hc => ?_⟩
        rw [LeasedRegion.fault, h.calm hc] at hf
        cases hf
      · exact h.resident q e he
    · show s.2.faults.tail = []
      rw [h.calm hc]
      rfl
  | none =>
    have hstored : (splice s.2.memory (i * ps) bytes).length = rs := by
      rw [length_splice (by omega), hlen]
    refine ⟨⟨rfl, h.remoteSize, h.capacity, hstored, by rw [Dict.keys_modify]; exact h.bounded,
      fun q e he => ?_, fun hc => ?_⟩, hkeys⟩
    · rcases hmod q e he with ⟨rfl, rfl⟩ | ⟨hq, he⟩
      · refine ⟨i, rfl, hi, hnew, fun _ => ?_⟩
        rw [pageAt, hw, sub_splice_self (by omega)]
      · obtain ⟨j, rfl, hj, hej, hsame⟩ := h.resident q e he
        refine ⟨j, rfl, hj, hej, fun hc => (hsame hc).trans ?_⟩
        exact (pageAt_splice_other hlen.ge (by omega) (by omega : 0 + bytes.length ≤ width ps rs i)
          (by omega)).symm
    · show s.2.faults.tail = []
      rw [h.calm hc]
      rfl

theorem writePage_keeps (hps : page = ps) (hpos : 0 < ps) (hk : 0 < k) (h : Kept C ps rs k s)
    {i inside n : Nat} {data : Bytes} (hn : data.length = n) (hin : inside + n ≤ ps) :
    Ends (writePage .region i inside n data) (fun _ => Kept C ps rs k) (Kept C ps rs k) s := by
  subst hn
  have hsend : ∀ {s : RemoteCache × LeasedRegion} {d : Bytes}, Kept C ps rs k s →
      s.1.pages.get? i = some d →
      Ends (do
        let bytes := setSlice (← lookup i) inside (inside + data.length) data
        onFst (modify fun self => { self with pages := self.pages.modify i (fun _ => bytes) })
        remoteWrite .region (i * page) bytes
        moveToEnd i : RemoteM LeasedRegion Unit) (fun _ => Kept C ps rs k) (Kept C ps rs k) s := by
    intro s d h hget
    obtain ⟨j, hj, -, hd, -⟩ := h.resident _ _ hget
    refine .bind_ok (run_lookup hget) (.bind_ok (run_modifyFst ..) ?_)
    rw [setSlice_nat _ _ _ _ rfl (by omega)]
    refine .bind (sendPage_keeps hps h hget hin rfl) (fun _ t ht => ?_)
    obtain ⟨pages, hmove, -, -, h'⟩ := moveToEnd_keeps ht.1 ht.2
    unfold Ends
    rw [hmove]
    exact h'
  unfold writePage
  refine .bind_get ?_
  cases hg : s.1.pages.get? (i : Int) with
  | some d => exact .bind_ok (run_modifyFst ..) (hsend (h.counters (s.1.hits + 1) s.1.misses) hg)
  | none =>
    refine .bind_ok (run_modifyFst ..) (.bind (loadPage_keeps hps hpos hk
      (h.counters s.1.hits (s.1.misses + 1)) (Dict.get?_eq_none.mp hg)) (fun _ t ht => ?_))
    obtain ⟨d, hd⟩ := Dict.mem_keys.mp ht.2
    exact hsend ht.1 hd

theorem writeLoop_keeps (hps : page = ps) (hpos : 0 < ps) (hk : 0 < k) (a : Nat) (data : Bytes)
    (fuel : Nat) : ∀ {pos : Nat} {s : RemoteCache × LeasedRegion},
      Kept C ps rs k s →
      Ends (writeLoop .region a data fuel pos) (fun _ => Kept C ps rs k) (Kept C ps rs k) s := by
  induction fuel with
  | zero =>
    intro pos s h
    unfold writeLoop
    split
    · exact .pure h
    · exact .throw h
  | succ fuel ih =>
    intro pos s h
    by_cases hp : data.length ≤ pos
    · rw [writeLoop_done .region hp]
      exact .pure h
    obtain ⟨n, hn⟩ := Nat.exists_eq_add_of_le (Nat.le_of_not_le hp)
    have ht := Nat.mod_lt (a + pos) hpos
    have hmin : min n (ps - (a + pos) % ps) ≤ n := Nat.min_le_left _ _
    rw [writeLoop_step .region hps hpos (by omega : 0 < n) hn.symm]
    refine (writePage_keeps hps hpos hk h (length_sub_of_le (by omega)) (by omega)).bind
      (fun _ t ht => ?_)
    exact ih ht

theorem call_keeps (hps : page = ps) (hpos : 0 < ps) (hk : 0 < k) (fuel : Nat) (call : Call)
    (h : Kept C ps rs k s) : Kept C ps rs k (finalState (call.run .region fuel) s) := by
  have hends : Ends (call.run .region fuel) (fun _ => Kept C ps rs k) (Kept C ps rs k) s := by
    cases call with
    | read offset length =>
      have hcheck : Ends (raiseIf (offset < 0 ∨ s.1.remoteSize < offset + length)
          (.valueError "read outside remote allocation") : RemoteM LeasedRegion Unit)
          (fun _ => Kept C ps rs k) (Kept C ps rs k) s := .raiseIf (fun _ => h) (fun _ => h)
      exact .bind (.bind_get (hcheck.bind (fun _ t ht => readLoop_keeps hps hpos hk fuel ht)))
        (fun _ t ht => .pure ht)
    | write offset data =>
      have hwrite : Ends (write .region fuel offset data) (fun _ => Kept C ps rs k) (Kept C ps rs k) s := by
        by_cases hc : offset < 0 ∨ s.1.remoteSize < offset + data.length
        · refine .bind_get (.bind_error (e := .valueError "write outside remote allocation") ?_ h)
          rw [run_raiseIf, if_pos hc]
        · obtain ⟨a, rfl⟩ := Int.eq_ofNat_of_zero_le (by omega : 0 ≤ offset)
          refine .bind_get (.bind_ok (a := ()) (t := s) (by rw [run_raiseIf, if_neg hc]) ?_)
          exact writeLoop_keeps hps hpos hk a data fuel h
      exact .bind hwrite (fun _ t ht => .pure ht)
  exact hends.finalState

theorem init_kept (ps base : Nat) (memory : Bytes) (cacheMb : Int) (faults : List (Option Exc)) :
    ∃ k : Nat, 0 < k ∧ Kept (faults = []) ps memory.length k
      (init base memory.length cacheMb, ⟨base, memory, faults, []⟩) := by
  obtain ⟨k, hk, h⟩ := init_tied ps base memory cacheMb faults
  refine ⟨k, hk, h.base, h.remoteSize, h.capacity, h.length_mem, ?_, fun p d hd => ?_, id⟩
  · rw [h.keys]
    exact h.bounded
  · simp [init] at hd

/-! ## A read within the region -/

/-- What reading page `i` does where the provider answers. -/
structure PageRead (ps k i : Nat) (s : RemoteCache × LeasedRegion) (d : Bytes)
    (t : RemoteCache × LeasedRegion) : Prop where
  calm : t.2.faults = []
  memory : t.2.memory = s.2.memory
  keys : t.1.pages.keys = Lru.touch k s.1.pages.keys i
  others : ∀ (q : Int) (e : Bytes), q ≠ i → t.1.pages.get? q = some e → s.1.pages.get? q = some e
  length : d.length = ps
  /-- A cached page is taken as it is, the others are fetched. -/
  data : if (i : Int) ∈ s.1.pages.keys then s.1.pages.get? i = some d else d = sub s.2.memory (i * ps) ps

theorem readPage_calm (hps : page = ps) (hk : 0 < k) (h : Kept C ps rs k s)
    (hf : s.2.faults = []) {i : Nat} (hi : i * ps + ps ≤ rs) :
    ∃ d t, (readPage .region i).run s = .ok d t ∧ PageRead ps k i s d t := by
  by_cases hmem : (i : Int) ∈ s.1.pages.keys
  · obtain ⟨d, hd⟩ := Dict.mem_keys.mp hmem
    obtain ⟨pages, hmove, hkeys, hget, -⟩ := moveToEnd_keeps (h.counters (s.1.hits + 1) s.1.misses) hmem
    have hrun : (readPage .region i).run s =
        .ok d ({ s.1 with hits := s.1.hits + 1, pages := pages }, s.2) := by
      unfold readPage
      simp only [EStateM.run_bind, EStateM.run_get, hd, run_modifyFst, hmove]
      rfl
    refine ⟨d, _, hrun, hf, rfl, hkeys.trans (Lru.touch_hit k hmem).symm, fun q e _ he => ?_, ?_, ?_⟩
    · rw [← he]
      exact (hget q).symm
    · obtain ⟨-, -, -, hlen, -⟩ := h.resident _ _ hd
      exact hlen
    · rw [if_pos hmem]
      exact hd
  · have hlen := h.length_mem
    have hfault : s.2.fault = none := by rw [LeasedRegion.fault, hf]; rfl
    have hread : (Api.region.read (s.1.base + i * page) page).run s.2 =
        .ok (sub s.2.memory (i * ps) ps) (s.2.asked ps i) := by
      have hplace : s.1.base + i * page = s.2.base + (i * ps : Nat) := by
        rw [h.base, hps, Nat.cast_mul]
      rw [hplace, hps, LeasedRegion.run_read (by omega), hfault]
    obtain ⟨pages, hload, hkeys, hget⟩ := run_loadPage .region hk
      (c := { s.1 with misses := s.1.misses + 1 }) h.capacity h.bounded hmem hread
    have hvictim : Lru.victim k s.1.pages.keys i ≠ some (i : Int) :=
      fun hv => hmem (Lru.victim_some hv).2
    have hself : pages.get? i = some (sub s.2.memory (i * ps) ps) := by
      rw [hget, if_neg hvictim, if_pos rfl]
    have hrun : (readPage .region i).run s = .ok (sub s.2.memory (i * ps) ps)
        ({ s.1 with misses := s.1.misses + 1, pages := pages }, s.2.asked ps i) := by
      unfold readPage
      simp only [EStateM.run_bind, EStateM.run_get, Dict.get?_eq_none.mpr hmem, run_modifyFst, hload]
      exact run_lookup (c := { s.1 with misses := s.1.misses + 1, pages := pages }) hself
    refine ⟨_, _, hrun, ?_, rfl, hkeys, fun q e hq he => ?_, length_sub_of_le (by omega),
      by rw [if_neg hmem]⟩
    · show s.2.faults.tail = []
      rw [hf]
      rfl
    · simp only [hget, if_neg hq] at he
      split at he
      · cases he
      · exact he

/-- `Mirrors`, for a range that starts at `a`. -/
def Mirror (ps k : Nat) (pages : Dict Int Bytes) (mem : Bytes) (a n : Nat) : Prop :=
  ∀ p ∈ Lru.hits k pages.keys (pagesOf ps a n), ∀ d, pages.get? p = some d →
    ∀ j < n, (((a + j) / ps : Nat) : Int) = p → d[(a + j) % ps]? = mem[a + j]?

/-- After its first page, a range finds the pages in the cache that it would have found before. -/
theorem mirror_rest (hpos : 0 < ps) {a n : Nat} {d : Bytes} {t : RemoteCache × LeasedRegion}
    {mem : Bytes} (h : PageRead ps k (a / ps) s d t) :
    Mirror ps k t.1.pages mem (a + min n (ps - a % ps)) (n - min n (ps - a % ps)) ↔
      ∀ p ∈ Lru.hits k (Lru.touch k s.1.pages.keys ((a / ps : Nat) : Int))
        (pagesOf ps (a + min n (ps - a % ps)) (n - min n (ps - a % ps))), ∀ e,
        s.1.pages.get? p = some e → ∀ j < n, (((a + j) / ps : Nat) : Int) = p →
          e[(a + j) % ps]? = mem[a + j]? := by
  have hother := fun p => @ne_of_mem_rest ps a n p hpos
  have hpage := add_div_eq_iff hpos a
  unfold Mirror
  rw [h.keys]
  generalize hm : min n (ps - a % ps) = m at *
  generalize hrest : pagesOf ps (a + m) (n - m) = rest at *
  have hnodup : rest.Nodup := hrest ▸ nodup_pagesOf ps (a + m) (n - m)
  refine forall₂_congr (fun p hp => forall_congr' (fun e => ?_))
  obtain ⟨hprest, hpkeys⟩ := Lru.mem_of_mem_hits rest hnodup hp
  have hne := hother p hprest
  have hget : t.1.pages.get? p = some e ↔ s.1.pages.get? p = some e := by
    refine ⟨h.others p e hne, fun he => ?_⟩
    rw [← h.keys] at hpkeys
    obtain ⟨e', he'⟩ := Dict.mem_keys.mp hpkeys
    have := h.others p e' hne he'
    rw [he] at this
    rw [he', this]
  rw [hget]
  refine imp_congr_right (fun _ => ?_)
  constructor
  · intro hall j hj hjp
    have hge : m ≤ j := by
      by_contra hlt
      refine hne (hjp.symm.trans ?_)
      rw [(hpage j).mpr (by omega)]
    obtain ⟨i, rfl⟩ := Nat.exists_eq_add_of_le hge
    rw [← Nat.add_assoc] at hjp ⊢
    exact hall i (by omega) hjp
  · intro hall j hj hjp
    rw [Nat.add_assoc] at hjp ⊢
    exact hall (m + j) (by omega) hjp

/-- The first page, and the pages after it. -/
theorem mirror_step (hpos : 0 < ps) {a n : Nat} (hn : 0 < n) {d : Bytes} {t : RemoteCache × LeasedRegion}
    (h : PageRead ps k (a / ps) s d t) : Mirror ps k s.1.pages s.2.memory a n ↔
      sub d (a % ps) (min n (ps - a % ps)) = sub s.2.memory a (min n (ps - a % ps)) ∧
        Mirror ps k t.1.pages s.2.memory (a + min n (ps - a % ps)) (n - min n (ps - a % ps)) := by
  have ht := Nat.mod_lt a hpos
  have hdata := h.data
  rw [mirror_rest hpos h, Mirror, pagesOf_step hpos hn, Lru.hits_cons]
  by_cases hmem : ((a / ps : Nat) : Int) ∈ s.1.pages.keys
  · rw [if_pos hmem] at hdata ⊢
    rw [List.forall_mem_cons, sub_page_eq_iff hpos]
    refine and_congr_left (fun _ => ?_)
    constructor
    · intro hall j hj hjp
      exact hall d hdata j hj (by rw [hjp])
    · intro hall e he j hj hjp
      rw [hdata] at he
      cases he
      exact hall j hj (by exact_mod_cast hjp)
  · rw [if_neg hmem] at hdata ⊢
    have hfresh : sub d (a % ps) (min n (ps - a % ps)) = sub s.2.memory a (min n (ps - a % ps)) := by
      rw [hdata, sub_sub _ _ _ _ _ (by omega), Nat.div_add_mod']
    rw [and_iff_right hfresh]

/-- The bytes of a read within the region. -/
theorem readLoop_calm (hps : page = ps) (hpos : 0 < ps) (hk : 0 < k) (hrs : ps ∣ rs) (fuel : Nat) :
    ∀ {a n : Nat} (out : Bytes) {s : RemoteCache × LeasedRegion}, n ≤ fuel → a + n ≤ rs →
      Kept C ps rs k s → s.2.faults = [] →
      ∃ bytes t, (readLoop .region fuel a n out).run s = .ok (out ++ bytes) t ∧ bytes.length = n ∧
        (bytes = sub s.2.memory a n ↔ Mirror ps k s.1.pages s.2.memory a n) := by
  have hdone : ∀ (fuel : Nat) {a : Nat} (out : Bytes) {s : RemoteCache × LeasedRegion},
      ∃ bytes t, (readLoop .region fuel a ((0 : Nat) : Int) out).run s = .ok (out ++ bytes) t ∧
        bytes.length = 0 ∧ (bytes = sub s.2.memory a 0 ↔ Mirror ps k s.1.pages s.2.memory a 0) := by
    intro fuel a out s
    refine ⟨[], s, ?_, rfl, iff_of_true (sub_zero _ _).symm ?_⟩
    · rw [readLoop_done, List.append_nil]
      rfl
    · intro p hp d hd j hj
      omega
  induction fuel with
  | zero =>
    intro a n out s hf hr h hcalm
    obtain rfl : n = 0 := by omega
    exact hdone 0 out
  | succ fuel ih =>
    intro a n out s hf hr h hcalm
    rcases Nat.eq_zero_or_pos n with rfl | hn
    · exact hdone (fuel + 1) out
    -- one page, then the rest of the range
    obtain ⟨hi, -, -, hpos', -⟩ := chunk_arith hpos hn hr
    have hw := width_le ps rs (a / ps) (Nat.le_of_lt hi)
    rw [width_of_dvd hrs hi] at hw
    have hle : min n (ps - a % ps) ≤ n := Nat.min_le_left _ _
    have ht := Nat.mod_lt a hpos
    obtain ⟨d, t, hrun, hread⟩ := readPage_calm hps hk h hcalm hw
    have hkept := (readPage_keeps hps hpos hk h _).of_ok hrun
    have hd := hread.length
    have hfit : min n (ps - a % ps) ≤ ps - a % ps := Nat.min_le_right _ _
    have hmem := h.length_mem
    have hstep := mirror_step (s := s) hpos hn hread
    rw [readLoop_step .region hps hpos hn, hstep]
    generalize min n (ps - a % ps) = m at *
    obtain ⟨bytes, t', hrest, hlen, hiff⟩ := ih (out ++ sub d (a % ps) m) (by omega)
      (by omega : a + m + (n - m) ≤ rs) hkept hread.calm
    have hchunk : (sub d (a % ps) m).length = m := length_sub_of_le (by omega)
    refine ⟨sub d (a % ps) m ++ bytes, t', ?_, ?_, ?_⟩
    · rw [EStateM.run_bind, hrun, ← List.append_assoc]
      exact hrest
    · rw [List.length_append, hchunk, hlen]
      omega
    · rw [hread.memory] at hiff
      rw [sub_split hle, ← hiff]
      constructor
      · intro he
        exact List.append_inj he (by rw [hchunk, length_sub_of_le (by omega)])
      · rintro ⟨h1, h2⟩
        rw [h1, h2]

/-! ## Every pair of integers -/

/-- A page that cannot be read has been counted as a miss. -/
theorem readPage_raises_counted (hk : 0 < k) (h : Kept C ps rs k s) (p : Int) :
    Ends (readPage .region p) (fun _ _ => True) (fun t => t.1.misses = s.1.misses + 1) s := by
  unfold readPage
  refine .bind_get ?_
  cases hg : s.1.pages.get? p with
  | some d =>
    obtain ⟨pages, hmove, -⟩ := moveToEnd_keeps (h.counters (s.1.hits + 1) s.1.misses)
      (Dict.mem_keys_of_get? hg)
    exact .bind_ok (run_modifyFst ..) (.bind_ok hmove (.pure trivial))
  | none =>
    refine .bind_ok (run_modifyFst ..) ?_
    have hnot : p ∉ s.1.pages.keys := Dict.get?_eq_none.mp hg
    cases hrun : (Api.region.read (s.1.base + p * page) page).run s.2 with
    | error e t =>
      exact .bind_error (run_loadPage_raises .region (c := { s.1 with misses := s.1.misses + 1 }) hrun) rfl
    | ok d t =>
      obtain ⟨pages, hload, hkeys, -⟩ := run_loadPage .region hk
        (c := { s.1 with misses := s.1.misses + 1 }) h.capacity h.bounded hnot hrun
      obtain ⟨e, he⟩ := Dict.mem_keys.mp (show p ∈ pages.keys by
        rw [hkeys]
        exact Lru.mem_touch_self k _ p)
      refine .bind_ok hload ?_
      unfold Ends
      rw [run_lookup (c := { s.1 with misses := s.1.misses + 1, pages := pages }) he]
      trivial

/-- A negative number of bytes is read from one page. -/
theorem readLoop_negative {offset length : Int} (hl : length < 0) (fuel : Nat) (out : Bytes) :
    readLoop .region (fuel + 1) offset length out = (do
      let data ← readPage .region (offset / page)
      return out ++ slice data (offset % page) (offset % page + length)) := by
  have ht := Int.emod_lt_of_pos offset (by decide : 0 < page)
  have hmin : min length (page - offset % page) = length := Int.min_eq_left (by omega)
  have hdone : ∀ (a : Int) (out : Bytes), readLoop .region fuel a 0 out = pure out :=
    readLoop_done .region fuel
  rw [readLoop, if_neg (by omega)]
  simp only [hmin, Int.sub_self, hdone]

theorem not_reads_negative (hk : 0 < k) (h : Kept C ps rs k s) {fuel : Nat} (hf : 0 < fuel)
    {offset length : Int} (hl : length < 0) (hin : ¬ (offset < 0 ∨ s.1.remoteSize < offset + length)) :
    ¬ ReadsOrRejects fuel s offset length := by
  obtain ⟨fuel, rfl⟩ : ∃ m, fuel = m + 1 := ⟨fuel - 1, by omega⟩
  have hrun : (read .region (fuel + 1) offset length).run s =
      match (readPage .region (offset / page)).run s with
      | .ok data t => .ok (slice data (offset % page) (offset % page + length)) t
      | .error e t => .error e t := by
    unfold read
    simp only [EStateM.run_bind, EStateM.run_get, run_raiseIf, if_neg hin, readLoop_negative hl]
    cases (readPage .region (offset / page)).run s <;> rfl
  have hmiss := readPage_raises_counted hk h (offset / page)
  unfold Ends at hmiss
  intro hreads
  unfold ReadsOrRejects at hreads
  rw [hrun] at hreads
  cases hpage : (readPage .region (offset / page)).run s with
  | ok data t =>
    rw [hpage] at hreads
    obtain ⟨⟨-, hpos, -⟩, -⟩ := hreads
    omega
  | error e t =>
    rw [hpage] at hreads hmiss
    obtain ⟨-, -, hsame⟩ := hreads
    simp only at hmiss
    rw [hsame] at hmiss
    omega

theorem mirrors_iff (hps : page = ps) (h : Kept C ps rs k s) {a n : Nat} (hr : a + n ≤ rs) :
    Mirrors s a n ↔ Mirror ps k s.1.pages s.2.memory a n := by
  have hk : s.1.capacity.toNat = k := by rw [h.capacity]; rfl
  have hin : Contained s a n := ⟨by omega, by omega, by rw [h.remoteSize]; omega⟩
  simp only [Mirrors, hin, forall_const, Mirror, hk, hps, Int.toNat_natCast, Nat.cast_lt,
    ← Int.natCast_add, ← Int.natCast_ediv, ← Int.natCast_emod]

/-- Where no request has failed, the cached pages are the region's. -/
theorem Kept.mirrors (hps : page = ps) (hpos : 0 < ps) (h : Kept C ps rs k s) (hc : C)
    (offset length : Int) : Mirrors s offset length := by
  intro hin
  obtain ⟨h1, h2, h3⟩ := id hin
  obtain ⟨a, rfl⟩ := Int.eq_ofNat_of_zero_le h1
  obtain ⟨n, rfl⟩ := Int.eq_ofNat_of_zero_le h2
  rw [h.remoteSize] at h3
  refine (mirrors_iff hps h (by omega)).mpr ?_ hin
  rintro p - d hd j hj hjp
  obtain ⟨i, rfl, hi, -, hsame⟩ := h.resident p d hd
  have hlen := h.length_mem
  have ht := Nat.mod_lt (a + j) hpos
  have hw : width ps rs i = ps := by
    unfold width
    omega
  obtain rfl : (a + j) / ps = i := by exact_mod_cast hjp
  rw [hsame hc, pageAt, hw, getElem?_sub, if_pos ht, Nat.div_add_mod']

theorem reads_iff (hps : page = ps) (hpos : 0 < ps) (hk : 0 < k) (hrs : ps ∣ rs) (h : Kept C ps rs k s)
    (hcalm : s.2.faults = []) {fuel : Nat} (hf : rs < fuel) (offset length : Int) :
    ReadsOrRejects fuel s offset length ↔
      (0 ≤ length ∨ offset < 0 ∨ s.1.remoteSize < offset + length) ∧ Mirrors s offset length := by
  by_cases hin : offset < 0 ∨ s.1.remoteSize < offset + length
  · -- it is rejected
    have hout : ¬ Contained s offset length := by
      rintro ⟨h1, h2, h3⟩
      omega
    have hrun : (read .region fuel offset length).run s =
        .error (.valueError "read outside remote allocation") s := by
      unfold read
      simp only [EStateM.run_bind, EStateM.run_get, run_raiseIf, if_pos hin]
    refine iff_of_true ?_ ⟨.inr hin, fun hc => absurd hc hout⟩
    unfold ReadsOrRejects
    rw [hrun]
    exact ⟨hout, ⟨_, rfl⟩, rfl⟩
  · by_cases hl : length < 0
    · refine iff_of_false (not_reads_negative hk h (by omega) hl hin) ?_
      rintro ⟨hc, -⟩
      omega
    · obtain ⟨a, rfl⟩ := Int.eq_ofNat_of_zero_le (by omega : 0 ≤ offset)
      obtain ⟨n, rfl⟩ := Int.eq_ofNat_of_zero_le (by omega : 0 ≤ length)
      have hsize := h.remoteSize
      obtain ⟨bytes, t, hloop, hlen, hiff⟩ := readLoop_calm hps hpos hk hrs fuel []
        (by omega : n ≤ fuel) (by omega : a + n ≤ rs) h hcalm
      have hrun : (read .region fuel a n).run s = .ok bytes t := by
        unfold read
        simp only [EStateM.run_bind, EStateM.run_get, run_raiseIf, if_neg hin, hloop, List.nil_append]
      rw [and_iff_right (Or.inl (by omega)), mirrors_iff hps h (by omega), ← hiff]
      unfold ReadsOrRejects
      rw [hrun]
      simp only [slice_nat, hlen, true_and]
      exact and_iff_right ⟨by omega, by omega, by omega⟩

/-- In every state that any calls lead to, whatever requests have failed on the way: once the provider
answers, a read returns the bytes it is asked for or rejects the range, unless it takes a negative number
of bytes for a range that the check does not reject, or a cached page is not what the region has. The
second does not happen where no request has failed. -/
theorem read_exact_iff (remoteMb : Nat) (cacheMb : Int) (base : Nat) {memory : Bytes}
    (hlen : memory.length = remoteMb * 1048576) (faults : List (Option Exc)) (calls : List Call)
    {fuel : Nat} (hf : memory.length < fuel) {s : RemoteCache × LeasedRegion}
    (hrun : exec (Call.next fuel) (init base memory.length cacheMb, ⟨base, memory, faults, []⟩) calls =
      some s) (offset length : Int) :
    (ReadsOrRejects fuel (s.1, s.2.answering) offset length ↔
      (0 ≤ length ∨ offset < 0 ∨ s.1.remoteSize < offset + length) ∧ Mirrors s offset length) ∧
    (faults = [] → Mirrors s offset length) := by
  obtain ⟨ps, hps, hpos, hrs⟩ := page_dvd remoteMb
  rw [← hlen] at hrs
  obtain ⟨k, hk, h⟩ := init_kept ps base memory cacheMb faults
  have hs : Kept (faults = []) ps memory.length k s := by
    refine exec_inv (fun s call s' hs hnext => ?_) h hrun
    cases hnext
    exact call_keeps hps hpos hk fuel call hs
  refine ⟨?_, fun hc => hs.mirrors hps hpos hc offset length⟩
  exact reads_iff hps hpos hk hrs (hs.sent (t := s.2.answering) rfl rfl (fun _ => rfl)) rfl hf offset length

/-- The WRITE of a byte has failed, and two bytes are read after it. -/
theorem read_exact_iff_unsent : ∃ s, exec (Call.next 1048577)
      (init (512 : Nat) (List.replicate 1048576 (0 : UInt8)).length 1, ⟨512, List.replicate 1048576 0,
        [none, some (.connectionError "remote provider disconnected")], []⟩) [.write 0 [1]] = some s ∧
    (ReadsOrRejects 1048577 (s.1, s.2.answering) 0 2 ↔
      ((0 : Int) ≤ 2 ∨ (0 : Int) < 0 ∨ s.1.remoteSize < 0 + 2) ∧ Mirrors s 0 2) ∧
    ([none, some (.connectionError "remote provider disconnected")] = ([] : List (Option Exc)) →
      Mirrors s 0 2) := by
  generalize hmem : List.replicate 1048576 (0 : UInt8) = memory
  have hlen : memory.length = 1 * 1048576 := by rw [← hmem, List.length_replicate]
  obtain ⟨s, hrun⟩ : ∃ s, exec (Call.next 1048577) (init (512 : Nat) memory.length 1, ⟨512, memory,
      [none, some (.connectionError "remote provider disconnected")], []⟩) [.write 0 [1]] = some s :=
    ⟨_, rfl⟩
  exact ⟨s, hrun, read_exact_iff 1 1 512 hlen _ _ (by omega : memory.length < 1048577) hrun 0 2⟩

/-- Five bytes less than none, of a region of a mebibyte. -/
theorem read_exact_fails : ¬ ReadsOrRejects 1048577
    (init (512 : Nat) (List.replicate 1048576 (0 : UInt8)).length 1,
      ⟨512, List.replicate 1048576 0, [], []⟩) 10 (-5) := by
  generalize hmem : List.replicate 1048576 (0 : UInt8) = memory
  have hlen : memory.length = 1 * 1048576 := by rw [← hmem, List.length_replicate]
  obtain ⟨ps, hps, hpos, hrs⟩ := page_dvd 1
  rw [← hlen] at hrs
  obtain ⟨k, hk, h⟩ := init_kept ps 512 memory 1 []
  rw [reads_iff hps hpos hk hrs h rfl (by omega)]
  rintro ⟨hsign | hsign | hsize, -⟩
  · omega
  · omega
  · simp only [init] at hsize
    omega

end RemoteCache

end RamLink
