import RamLink.Lib.Paging
import RamLink.WriteBack

/-!
# RamLink.WriteBack.Flat

The write-back cache over a byte array, against flat memory.

`Flat ps rs k r mem s` relates the cache and its remote array in `s` to the flat memory `mem` and
to the residency `r`: every resident page holds the bytes of `mem`, every page that is not dirty
is the same in the remote array, and `r` lists the resident and the dirty pages.

* `load_ok`, `store_ok`: one page, as long as no dirty page is evicted.
* `read_ok`, `write_ok`, `flush_ok`: the operations, by induction on the loops.
-/

namespace RamLink

open Lib

namespace WriteBack

structure Flat (ps rs k : Nat) (r : Residency Int) (mem : Bytes) (s : WriteBack × Bytes) : Prop where
  pageSize : s.1.pageSize = ps
  remoteSize : s.1.remoteSize = rs
  maxPages : s.1.maxPages = k
  length_mem : mem.length = rs
  length_remote : rs ≤ s.2.length
  order : s.1.pages.keys = r.order
  dirty : s.1.dirty = r.dirty
  dirtyResident : ∀ p ∈ r.dirty, p ∈ r.order
  resident : ∀ p d, s.1.pages.get? p = some d →
    ∃ i : Nat, p = i ∧ i * ps < rs ∧ d = pageAt ps rs mem i
  clean : ∀ i : Nat, (i : Int) ∉ r.dirty → pageAt ps rs s.2 i = pageAt ps rs mem i

variable {ps rs k : Nat} {r r' : Residency Int} {mem : Bytes} {s : WriteBack × Bytes}

/-- The address arithmetic of `_load_page` on a page inside the remote memory. -/
theorem page_cast {i : Nat} (h : i * ps ≤ rs) : (i : Int) * (ps : Int) = ((i * ps : Nat) : Int) ∧
    min (ps : Int) ((rs : Int) - (i : Int) * (ps : Int)) = ((width ps rs i : Nat) : Int) := by
  have hc : (i : Int) * (ps : Int) = ((i * ps : Nat) : Int) := by push_cast; rfl
  refine ⟨hc, ?_⟩
  rw [hc, width]
  omega

/-! ## One page -/

theorem Flat.mem_keys (h : Flat ps rs k r mem s) {p : Int} :
    p ∈ s.1.pages.keys ↔ p ∈ r.order := by rw [h.order]

/-- Reading a clean page from the remote array. -/
theorem read_page (h : Flat ps rs k r mem s) {i : Nat} (hi : i * ps < rs) (hd : (i : Int) ∉ r.dirty) :
    (Api.array.read (i * s.1.pageSize) (min s.1.pageSize (s.1.remoteSize - i * s.1.pageSize))).run s.2 =
      .ok (pageAt ps rs mem i) s.2 := by
  obtain ⟨hc, hw⟩ := page_cast (Nat.le_of_lt hi)
  rw [h.pageSize, h.remoteSize, hw, hc, ← h.clean i hd]
  show EStateM.Result.ok (slice s.2 _ _) s.2 = _
  rw [slice_nat]
  rfl

/-- A page of the memory that has been loaded, with no dirty page as the victim. -/
theorem Flat.loaded (h : Flat ps rs k r mem s) {i : Nat} (hi : i * ps < rs)
    (hno : ¬ Residency.EvictsDirty k r (i : Int)) {c : WriteBack} (f : Fetched s.1 c i (pageAt ps rs mem i)) :
    Flat ps rs k { r with order := Lru.touch k r.order (i : Int) } mem (c, s.2) := by
  have hkn : s.1.maxPages.toNat = k := by rw [h.maxPages]; rfl
  refine ⟨f.pageSize.trans h.pageSize, f.remoteSize.trans h.remoteSize, f.maxPages.trans h.maxPages,
    h.length_mem, h.length_remote, ?_, ?_, ?_, fun q e hq => ?_, h.clean⟩
  · show c.pages.keys = _
    rw [f.order, hkn, h.order]
  · show c.dirty = r.dirty
    rw [f.dirty, hkn, h.order, h.dirty, List.filter_eq_self]
    exact fun q hq => decide_eq_true (fun hv => hno ⟨q, hq, hv⟩)
  · exact fun q hq => Lru.mem_touch (h.dirtyResident q hq) (fun hv => hno ⟨q, hq, hv⟩)
  · simp only [f.get?] at hq
    split at hq
    · rename_i hqi
      cases hq
      exact ⟨i, hqi, hi, rfl⟩
    · split at hq
      · cases hq
      · exact h.resident q e hq

/-- Loading a page of the remote memory, unless that evicts a dirty page. -/
theorem load_ok (kind : Kind) (hk : 0 < k) (h : Flat ps rs k r mem s) {i : Nat} (hi : i * ps < rs)
    (hu : r.use k (i : Int) = some r') : ∃ s', (loadPage kind .array i).run s =
      .ok (pageAt ps rs mem i) s' ∧ Flat ps rs k r' mem s' ∧ s'.2 = s.2 := by
  obtain ⟨hno, rfl⟩ := Residency.use_some hu
  cases hg : s.1.pages.get? (i : Int) with
  | some d =>
    -- a hit: the page moves to the end
    obtain ⟨j, hj, -, rfl⟩ := h.resident _ _ hg
    obtain rfl : j = i := by omega
    exact ⟨_, load_hit kind .array hg, h.loaded hi hno (hit_spec hg), rfl⟩
  | none =>
    have hnot : (i : Int) ∉ s.1.pages.keys := Dict.get?_eq_none.mp hg
    have hdirty : (i : Int) ∉ r.dirty := fun hd => hnot (h.mem_keys.mpr (h.dirtyResident _ hd))
    have hpos : 0 < s.1.maxPages := by rw [h.maxPages]; omega
    exact ⟨_, load_miss kind .array hg hpos (read_page h hi hdirty),
      h.loaded hi hno (fetched_spec kind _ hpos hnot), rfl⟩

/-- Loading a page in the place of page `j`: what page `j` held is lost, and the cache goes on as
if it held what the remote array has there. -/
theorem load_loses (kind : Kind) (hk : 0 < k) (h : Flat ps rs k r mem s) {i j : Nat} (hi : i * ps < rs)
    (hv : Lru.victim k r.order (i : Int) = some (j : Int)) :
    ∃ s', (loadPage kind .array i).run s = .ok (pageAt ps rs mem i) s' ∧ s'.2 = s.2 ∧
      Flat ps rs k ⟨Lru.touch k r.order i, r.dirty.filter (fun q => decide (q ≠ (j : Int)))⟩
        (splice mem (j * ps) (pageAt ps rs s.2 j)) s' := by
  obtain ⟨hnot, hj⟩ := Lru.victim_some hv
  have hg : s.1.pages.get? (i : Int) = none := Dict.get?_eq_none.mpr (fun h' => hnot (h.mem_keys.mp h'))
  obtain ⟨d, hd⟩ := Dict.mem_keys.mp (h.mem_keys.mpr hj)
  obtain ⟨j', hj', hjl, -⟩ := h.resident _ _ hd
  obtain rfl : j = j' := by omega
  have hij : i ≠ j := fun he => hnot (he ▸ hj)
  have hdirty : (i : Int) ∉ r.dirty := fun hd => hnot (h.dirtyResident _ hd)
  have hjw := width_le ps rs j (by omega)
  have hlen := h.length_remote
  have hjlen : (pageAt ps rs s.2 j).length = width ps rs j := length_pageAt h.length_remote (by omega)
  -- page `j` of the new memory is the remote one, the others are unchanged
  have hself : pageAt ps rs (splice mem (j * ps) (pageAt ps rs s.2 j)) j = pageAt ps rs s.2 j := by
    have := sub_splice_self (l := mem) (d := pageAt ps rs s.2 j) (a := j * ps)
      (by rw [h.length_mem]; omega)
    rwa [hjlen] at this
  have hother : ∀ m : Nat, m ≠ j →
      pageAt ps rs (splice mem (j * ps) (pageAt ps rs s.2 j)) m = pageAt ps rs mem m := by
    intro m hm
    have hin : 0 + (pageAt ps rs s.2 j).length ≤ width ps rs j := by omega
    exact pageAt_splice_other h.length_mem.ge (Nat.le_of_lt hjl) hin hm
  obtain ⟨f1, f2, f3, f4, f5, f6⟩ := fetched_spec kind (pageAt ps rs mem i)
    (by rw [h.maxPages]; omega) (Dict.get?_eq_none.mp hg)
  have hkn : s.1.maxPages.toNat = k := by rw [h.maxPages]; rfl
  rw [hkn, h.order] at f4 f6
  simp only [hkn, h.order, hv, Option.some.injEq] at f5 f6
  refine ⟨_, load_miss kind .array hg (by rw [h.maxPages]; omega) (read_page h hi hdirty), rfl,
    f1.trans h.pageSize, f2.trans h.remoteSize, f3.trans h.maxPages, ?_, hlen, f4, ?_, ?_,
    fun q e hq => ?_, fun m hm => ?_⟩
  · rw [length_splice (by rw [h.length_mem]; omega), h.length_mem]
  · show (fetched kind s.1 i (pageAt ps rs mem i)).dirty = _
    rw [f6, h.dirty]
    simp only [ne_eq, Option.some.injEq, eq_comm]
  · intro q hq
    obtain ⟨hq, hqj⟩ := List.mem_filter.mp hq
    refine Lru.mem_touch (h.dirtyResident q hq) (fun hvq => ?_)
    rw [hv, Option.some.injEq] at hvq
    exact of_decide_eq_true hqj hvq.symm
  · rw [f5] at hq
    split at hq
    · rename_i hqi
      cases hq
      exact ⟨i, hqi, hi, (hother i hij).symm⟩
    · split at hq
      · cases hq
      · rename_i hqj
        obtain ⟨m, rfl, hml, rfl⟩ := h.resident q e hq
        exact ⟨m, rfl, hml, (hother m (fun hm => hqj (by omega))).symm⟩
  · by_cases hmj : m = j
    · rw [hmj, hself]
    · rw [hother m hmj]
      refine h.clean m (fun hd => hm (List.mem_filter.mpr ⟨hd, decide_eq_true ?_⟩))
      omega

/-- Changing the page that was just loaded. -/
theorem store_ok (h : Flat ps rs k r mem s) {i inside n : Nat} {data : Bytes} (hi : i * ps < rs)
    (hmem : (i : Int) ∈ r.order)
    (hlast : r.order.filter (fun q => decide (q ≠ (i : Int))) ++ [(i : Int)] = r.order)
    (hn : data.length = n) (hin : inside + n ≤ width ps rs i) :
    ∃ s', (storePage i inside n data).run s = .ok () s' ∧
      Flat ps rs k (r.mark i) (splice mem (i * ps + inside) data) s' ∧ s'.2 = s.2 := by
  subst hn
  obtain ⟨d, hd⟩ := Dict.mem_keys.mp (h.mem_keys.mpr hmem)
  obtain ⟨j, hj, -, rfl⟩ := h.resident _ d hd
  obtain rfl : j = i := by omega
  obtain ⟨pages, hstore, hkeys, -, hget⟩ := run_storePage hd inside data.length data
  have hw := width_le ps rs j (by omega)
  have hlen := h.length_mem
  have hmark : ∀ q, q ∉ (r.mark (j : Int)).dirty → q ∉ r.dirty ∧ q ≠ j := by
    intro q hq
    unfold Residency.mark at hq
    simp only at hq
    split at hq
    · rename_i hd
      exact ⟨hq, fun he => hq (he ▸ hd)⟩
    · simp only [List.mem_append, List.mem_singleton, not_or] at hq
      exact hq
  refine ⟨_, hstore, ⟨h.pageSize, h.remoteSize, h.maxPages, ?_, h.length_remote, ?_, ?_, ?_,
    fun q e hq => ?_, fun m hm => ?_⟩, rfl⟩
  · rw [length_splice (by omega)]
    exact hlen
  · show pages.keys = r.order
    rw [hkeys, h.order]
    exact hlast
  · show addDirty j s.1.dirty = _
    rw [h.dirty]
    rfl
  · intro q hq
    unfold Residency.mark at hq
    simp only at hq
    split at hq
    · exact h.dirtyResident q hq
    · rcases List.mem_append.mp hq with hq | hq
      · exact h.dirtyResident q hq
      · rw [List.mem_singleton.mp hq]
        exact hmem
  · simp only [hget] at hq
    split at hq
    · -- the changed page
      rename_i hqj
      cases hq
      refine ⟨j, hqj, hi, ?_⟩
      rw [pageAt_splice_self hlen (by omega) hin]
      exact setSlice_nat _ inside data.length data rfl
        (by rw [length_pageAt (by omega) (by omega)]; exact hin)
    · rename_i hqj
      obtain ⟨m, hm, hml, rfl⟩ := h.resident q e hq
      exact ⟨m, hm, hml, (pageAt_splice_other hlen.ge (by omega) hin (by omega)).symm⟩
  · obtain ⟨hdirty, hne⟩ := hmark m hm
    rw [pageAt_splice_other hlen.ge (by omega) hin (by omega)]
    exact h.clean m hdirty

/-! ## The loops -/

/-- One turn of the read loop, where the page it loads is the page of `mem`. -/
theorem readLoop_step (kind : Kind) {a n : Nat} (hps : 0 < ps) (hn : 0 < n) (hr : a + n ≤ rs)
    (hsize : s.1.pageSize = ps) (hm : mem.length = rs) (fuel : Nat) (out : Bytes)
    {s' : WriteBack × Bytes}
    (hload : (loadPage kind .array ((a / ps : Nat) : Int)).run s = .ok (pageAt ps rs mem (a / ps)) s') :
    (readLoop kind .array (fuel + 1) a n out).run s =
      (readLoop kind .array fuel ((a + min n (ps - a % ps) : Nat) : Int)
        ((n - min n (ps - a % ps) : Nat) : Int) (out ++ sub mem a (min n (ps - a % ps)))).run s' := by
  obtain ⟨hi, hin, -, -, -⟩ := chunk_arith hps hn hr
  have hlen : (pageAt ps rs mem (a / ps)).length = width ps rs (a / ps) :=
    length_pageAt hm.ge (by omega)
  rw [readLoop_turn kind .array hps hn hr hsize hload hlen, sub_pageAt hin]

theorem readLoop_ok (kind : Kind) (hk : 0 < k) (hps : 0 < ps) (fuel : Nat) :
    ∀ (out : Bytes) (a n : Nat) {r r' : Residency Int} {s : WriteBack × Bytes}, n ≤ fuel →
      a + n ≤ rs → Flat ps rs k r mem s →
      exec (Residency.next k) r ((pagesOf ps a n).map .use) = some r' →
      ∃ s', (readLoop kind .array fuel a n out).run s = .ok (out ++ sub mem a n) s' ∧
        Flat ps rs k r' mem s' ∧ s'.2 = s.2 := by
  induction fuel with
  | zero =>
    intro out a n r r' s hf hr h he
    obtain rfl : n = 0 := by omega
    cases he
    exact ⟨s, by rw [sub_zero, List.append_nil]; exact readLoop_done kind .array 0 a out, h, rfl⟩
  | succ fuel ih =>
    intro out a n r r' s hf hr h he
    by_cases hn : n = 0
    · subst hn
      cases he
      exact ⟨s, by rw [sub_zero, List.append_nil]; exact readLoop_done kind .array _ a out, h, rfl⟩
    -- one page, then the rest of the range
    obtain ⟨hi, -, -, hpos, -⟩ := chunk_arith hps (Nat.pos_of_ne_zero hn) hr
    rw [pagesOf_step hps (Nat.pos_of_ne_zero hn), List.map_cons, exec_cons_some] at he
    obtain ⟨r1, hu, he⟩ := he
    obtain ⟨s1, hload, h1, hs1⟩ := load_ok kind hk h hi hu
    have hstep := readLoop_step kind hps (Nat.pos_of_ne_zero hn) hr h.pageSize h.length_mem fuel out hload
    have hle : min n (ps - a % ps) ≤ n := Nat.min_le_left _ _
    generalize min n (ps - a % ps) = m at *
    obtain ⟨s2, hloop, h2, hs2⟩ := ih (out ++ sub mem a m) (a + m) (n - m) (by omega)
      (by omega) h1 he
    refine ⟨s2, ?_, h2, hs2.trans hs1⟩
    rw [hstep, hloop, sub_split hle, List.append_assoc]

theorem writeLoop_ok (kind : Kind) (hk : 0 < k) (hps : 0 < ps) (data : Bytes) (fuel : Nat) :
    ∀ (a pos n : Nat) {r r' : Residency Int} {mem : Bytes} {s : WriteBack × Bytes},
      pos + n = data.length → n ≤ fuel → a + n ≤ rs → Flat ps rs k r mem s →
      exec (Residency.next k) r ((pagesOf ps a n).map .change) = some r' →
      ∃ s', (writeLoop kind .array data fuel a pos).run s = .ok () s' ∧
        Flat ps rs k r' (splice mem a (data.drop pos)) s' ∧ s'.2 = s.2 := by
  have hdone : ∀ {a pos : Nat} {r : Residency Int} {mem : Bytes} {s : WriteBack × Bytes} (fuel : Nat),
      pos = data.length → Flat ps rs k r mem s →
      ∃ s', (writeLoop kind .array data fuel a pos).run s = .ok () s' ∧
        Flat ps rs k r (splice mem a (data.drop pos)) s' ∧ s'.2 = s.2 := by
    intro a pos r mem s fuel hp h
    exact ⟨s, writeLoop_done kind .array hp.ge fuel a, by rw [hp, List.drop_length, splice_nil]; exact h, rfl⟩
  induction fuel with
  | zero =>
    intro a pos n r r' mem s hp hf hr h he
    obtain rfl : n = 0 := by omega
    cases he
    exact hdone 0 (by omega) h
  | succ fuel ih =>
    intro a pos n r r' mem s hp hf hr h he
    by_cases hn : n = 0
    · subst hn
      cases he
      exact hdone (fuel + 1) (by omega) h
    obtain ⟨hi, hin, ha, hpos, -⟩ := chunk_arith hps (Nat.pos_of_ne_zero hn) hr
    rw [pagesOf_step hps (Nat.pos_of_ne_zero hn), List.map_cons, exec_cons_some] at he
    obtain ⟨r2, hc, he⟩ := he
    obtain ⟨r1, hu, rfl⟩ := Option.map_eq_some_iff.mp hc
    obtain ⟨s1, hload, h1, hs1⟩ := load_ok kind hk h hi hu
    obtain ⟨-, rfl⟩ := Residency.use_some hu
    have hlen : (pageAt ps rs mem (a / ps)).length = width ps rs (a / ps) :=
      length_pageAt (by rw [h.length_mem]) (by omega)
    have hturn := writeLoop_turn kind .array hps (Nat.pos_of_ne_zero hn) hp hr h.pageSize hload hlen fuel
    generalize hm : min n (ps - a % ps) = m at *
    have hchunk : (sub data pos m).length = m := length_sub_of_le (by omega)
    obtain ⟨s2, hstore, h2, hs2⟩ := store_ok h1 hi (Lru.mem_touch_self k r.order _)
      (Lru.filter_touch k r.order _) hchunk hin
    rw [ha] at h2
    obtain ⟨s3, hloop, h3, hs3⟩ := ih (a + m) (pos + m) (n - m) (by omega) (by omega)
      (by omega) h2 he
    refine ⟨s3, ?_, ?_, hs3.trans (hs2.trans hs1)⟩
    · rw [hturn, EStateM.run_bind, hstore]
      exact hloop
    · rw [splice_split (by omega : pos + m ≤ data.length) (by rw [h.length_mem]; omega)]
      exact h3

/-! ## The operations -/

theorem check_ok (kind : Kind) (h : Flat ps rs k r mem s) {a n : Nat} (hr : a + n ≤ rs) :
    (check kind a n : CacheM Bytes Unit).run s = .ok () s := by
  have hsize := h.remoteSize
  exact run_check kind (by omega) (by omega) (by omega)

/-- An in-range read returns the bytes of the flat memory. -/
theorem read_ok (kind : Kind) (hk : 0 < k) (hps : 0 < ps) (h : Flat ps rs k r mem s) (fuel a n : Nat)
    (hf : rs ≤ fuel) (hr : a + n ≤ rs)
    (he : exec (Residency.next k) r ((pagesOf ps a n).map .use) = some r') :
    ∃ s', (read kind .array fuel a n).run s = .ok (sub mem a n) s' ∧ Flat ps rs k r' mem s' ∧
      s'.2 = s.2 := by
  obtain ⟨s', hrun, h', hs⟩ := readLoop_ok kind hk hps fuel [] a n (by omega) hr h he
  refine ⟨s', ?_, h', hs⟩
  simp only [read, EStateM.run_bind, check_ok kind h hr]
  exact hrun

/-- A read inside one page that takes the place of page `j`. -/
theorem read_loses (kind : Kind) (hk : 0 < k) (hps : 0 < ps) (h : Flat ps rs k r mem s)
    (fuel a n j : Nat) (hf : 0 < fuel) (hn : 0 < n) (hin : a % ps + n ≤ ps) (hr : a + n ≤ rs)
    (hv : Lru.victim k r.order ((a / ps : Nat) : Int) = some (j : Int)) :
    ∃ s', (read kind .array fuel a n).run s = .ok (sub mem a n) s' ∧ s'.2 = s.2 ∧
      Flat ps rs k ⟨Lru.touch k r.order ((a / ps : Nat) : Int),
        r.dirty.filter (fun q => decide (q ≠ (j : Int)))⟩
        (splice mem (j * ps) (pageAt ps rs s.2 j)) s' := by
  obtain ⟨fuel, rfl⟩ : ∃ m, fuel = m + 1 := ⟨fuel - 1, by omega⟩
  obtain ⟨hi, -⟩ := chunk_arith hps hn hr
  obtain ⟨s', hload, hs, h'⟩ := load_loses kind hk h hi hv
  refine ⟨s', ?_, hs, h'⟩
  have hm : min n (ps - a % ps) = n := by omega
  have hstep := readLoop_step kind hps hn hr h.pageSize h.length_mem fuel [] hload
  rw [hm, Nat.sub_self] at hstep
  simp only [read, EStateM.run_bind, check_ok kind h hr]
  rw [hstep]
  exact readLoop_done kind .array fuel _ _

/-- An in-range write is a write to the flat memory. -/
theorem write_ok (kind : Kind) (hk : 0 < k) (hps : 0 < ps) (h : Flat ps rs k r mem s) (fuel a : Nat)
    (data : Bytes) (hf : rs ≤ fuel) (hr : a + data.length ≤ rs)
    (he : exec (Residency.next k) r ((pagesOf ps a data.length).map .change) = some r') :
    ∃ s', (write kind .array fuel a data).run s = .ok () s' ∧
      Flat ps rs k r' (splice mem a data) s' ∧ s'.2 = s.2 := by
  obtain ⟨s', hrun, h', hs⟩ := writeLoop_ok kind hk hps data fuel a 0 data.length
    (by omega) (by omega) hr h he
  refine ⟨s', ?_, h', hs⟩
  simp only [write, EStateM.run_bind, check_ok kind h hr]
  exact hrun

/-- Flushing resident pages makes each of them the same in the remote array. -/
theorem flushPages_ok {c : WriteBack} (hps : c.pageSize = ps) (hm : mem.length = rs)
    (hres : ∀ p d, c.pages.get? p = some d → ∃ i : Nat, p = i ∧ i * ps < rs ∧ d = pageAt ps rs mem i)
    (l : List Int) : ∀ (n : Nat) (remote : Bytes), rs ≤ remote.length →
      (∀ p ∈ l, p ∈ c.pages.keys) →
      (∀ i : Nat, (i : Int) ∉ l → pageAt ps rs remote i = pageAt ps rs mem i) →
      ∃ n' remote', (flushPages .array l).run ({ c with remoteWrites := n }, remote) =
          .ok () ({ c with remoteWrites := n' }, remote') ∧ rs ≤ remote'.length ∧
        ∀ i : Nat, pageAt ps rs remote' i = pageAt ps rs mem i := by
  induction l with
  | nil =>
    intro n remote hlen _ hclean
    exact ⟨n, remote, rfl, hlen, fun i => hclean i (by simp)⟩
  | cons p l ih =>
    intro n remote hlen hkeys hclean
    obtain ⟨d, hd⟩ := Dict.mem_keys.mp (hkeys p (List.mem_cons_self ..))
    obtain ⟨i, rfl, hi, rfl⟩ := hres p d hd
    have hw := width_le ps rs i (by omega)
    have hdl : (pageAt ps rs mem i).length = width ps rs i := length_pageAt (by omega) (by omega)
    have hstore : setSlice remote ((i : Int) * (ps : Int))
        ((i : Int) * (ps : Int) + ((pageAt ps rs mem i).length : Nat)) (pageAt ps rs mem i) =
        splice remote (i * ps) (pageAt ps rs mem i) := by
      rw [(page_cast (by omega : i * ps ≤ rs)).1]
      exact setSlice_nat remote (i * ps) _ _ rfl (by omega)
    -- page `i` is now as in `mem`, and the others are as they were
    have hnext : ∀ j : Nat, (j : Int) ∉ l →
        pageAt ps rs (splice remote (i * ps) (pageAt ps rs mem i)) j = pageAt ps rs mem j := by
      intro j hj
      by_cases hji : j = i
      · subst hji
        have hself := sub_splice_self (l := remote) (d := pageAt ps rs mem j) (a := j * ps) (by omega)
        rw [hdl] at hself
        exact hself
      · rw [← hclean j (by simp [hj]; omega), ← Nat.add_zero (i * ps)]
        exact pageAt_splice_other hlen (by omega) (by omega) hji
    have hlen1 : rs ≤ (splice remote (i * ps) (pageAt ps rs mem i)).length := by
      rw [length_splice (by omega)]
      exact hlen
    obtain ⟨n', remote', hrun, hlen', hclean'⟩ := ih (n + 1) _ hlen1
      (fun q hq => hkeys q (List.mem_cons_of_mem _ hq)) hnext
    refine ⟨n', remote', ?_, hlen', hclean'⟩
    have hflush : (flushPage .array (i : Int)).run ({ c with remoteWrites := n }, remote) = .ok ()
        ({ c with remoteWrites := n + 1 }, splice remote (i * ps) (pageAt ps rs mem i)) := by
      unfold flushPage
      simp only [EStateM.run_bind, EStateM.run_get, hd, run_onSnd, hps]
      rw [← hstore]
      rfl
    simp only [flushPages, EStateM.run_bind, hflush]
    exact hrun

/-- A flush makes the remote array the flat memory, in whatever order it visits the pages. -/
theorem flush_ok (hps : 0 < ps) (h : Flat ps rs k r mem s) (order : SetOrder) :
    ∃ s', (flush .array order).run s = .ok () s' ∧ Flat ps rs k { r with dirty := [] } mem s' ∧
      sub s'.2 0 rs = mem := by
  obtain ⟨c, remote⟩ := s
  have hmem : ∀ p, p ∈ order.1 c.dirty ↔ p ∈ r.dirty := by
    intro p
    rw [(order.2 c.dirty).mem_iff, h.dirty]
  have hkeys : ∀ p ∈ order.1 c.dirty, p ∈ c.pages.keys :=
    fun p hp => h.mem_keys.mpr (h.dirtyResident p ((hmem p).mp hp))
  have hclean : ∀ i : Nat, (i : Int) ∉ order.1 c.dirty → pageAt ps rs remote i = pageAt ps rs mem i :=
    fun i hi => h.clean i (fun hd => hi ((hmem i).mpr hd))
  obtain ⟨n, remote', hrun, hlen, hall⟩ := flushPages_ok h.pageSize h.length_mem h.resident
    (order.1 c.dirty) c.remoteWrites remote h.length_remote hkeys hclean
  refine ⟨({ c with remoteWrites := n, dirty := [] }, remote'), ?_, ⟨h.pageSize, h.remoteSize,
    h.maxPages, h.length_mem, hlen, h.order, rfl, by simp, h.resident, fun i _ => hall i⟩,
    sub_of_pageAt hps h.length_mem hall⟩
  have hrun' : (flushPages .array (order.1 c.dirty)).run (c, remote) =
      .ok () ({ c with remoteWrites := n }, remote') := hrun
  simp only [flush, EStateM.run_bind, EStateM.run_get, hrun', run_modifyFst]

/-- An empty cache over an array. -/
theorem Flat.start {remote : Bytes} (h : rs ≤ remote.length) :
    Flat ps rs k .empty (sub remote 0 rs) (empty ps rs k, remote) where
  pageSize := rfl
  remoteSize := rfl
  maxPages := rfl
  length_mem := length_sub_of_le (by omega)
  length_remote := h
  order := rfl
  dirty := rfl
  dirtyResident := by simp [Residency.empty]
  resident := by simp [empty]
  clean i _ := by
    by_cases hi : i * ps ≤ rs
    · have := width_le ps rs i hi
      rw [pageAt, pageAt, sub_sub _ _ _ _ _ this, Nat.zero_add]
    · have hw : width ps rs i = 0 := by unfold width; omega
      rw [pageAt, pageAt, hw, sub_zero, sub_zero]

end WriteBack

end RamLink
