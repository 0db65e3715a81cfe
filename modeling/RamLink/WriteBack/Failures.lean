import RamLink.Lib.Outcome
import RamLink.WriteBack

/-!
# RamLink.WriteBack.Failures

The write-back cache over a byte array whose requests may fail.

`Kept ps rs k stale s`: the sizes are those the cache was made with, at most `k` pages are resident,
the dirty ones are among them, each has the length its place asks for, and each that is not in
`stale` is what the array has in its place.

* `load_ends`, `store_ends`, `flushPage_ends`: one page.
* `readLoop_ends`, `writeLoop_ends`, `flushPages_ends`: the loops, wherever a request raises.
-/

namespace RamLink

open Lib

namespace WriteBack

/-- The bytes of page `p` in the array. -/
def copyOf (ps rs : Int) (memory : Bytes) (p : Int) : Bytes :=
  slice memory (p * ps) (p * ps + min ps (rs - p * ps))

structure Kept (ps rs k : Int) (stale : List Int) (s : WriteBack × FaultyArray) : Prop where
  pageSize : s.1.pageSize = ps
  remoteSize : s.1.remoteSize = rs
  maxPages : s.1.maxPages = k
  bounded : (s.1.pages.size : Int) ≤ k
  dirty : ∀ p ∈ s.1.dirty, p ∈ s.1.pages.keys
  resident : ∀ p d, s.1.pages.get? p = some d →
    0 ≤ p * ps ∧ p * ps < rs ∧ (d.length : Int) = min ps (rs - p * ps)
  clean : ∀ p d, s.1.pages.get? p = some d → p ∉ stale → d = copyOf ps rs s.2.memory p

/-- What every call keeps. -/
def Sound (ps rs k : Int) (s : WriteBack × FaultyArray) : Prop := Kept ps rs k s.1.dirty s

variable {ps rs k : Int} {stale stale' : List Int} {s : WriteBack × FaultyArray} {p : Int} {d : Bytes}

theorem Kept.mono (h : Kept ps rs k stale s) (hsub : ∀ p ∈ stale, p ∈ stale') :
    Kept ps rs k stale' s :=
  ⟨h.pageSize, h.remoteSize, h.maxPages, h.bounded, h.dirty, h.resident,
    fun p d hp hn => h.clean p d hp (fun hs => hn (hsub p hs))⟩

/-- The array is what it was. -/
theorem Kept.of_memory (h : Kept ps rs k stale s) {t : FaultyArray} (ht : t.memory = s.2.memory) :
    Kept ps rs k stale (s.1, t) :=
  ⟨h.pageSize, h.remoteSize, h.maxPages, h.bounded, h.dirty, h.resident,
    fun p d hp hn => by rw [ht]; exact h.clean p d hp hn⟩

/-! ## The array -/

theorem array_read_ends (t : FaultyArray) (offset length : Int) :
    Ends (Api.faulty.read offset length)
      (fun d u => u.memory = t.memory ∧ 0 ≤ offset ∧ 0 ≤ length ∧
        offset + length ≤ t.memory.length ∧ d = slice t.memory offset (offset + length))
      (fun u => u.memory = t.memory) t := by
  unfold Ends Api.faulty
  simp only [EStateM.run_bind, EStateM.run_get, EStateM.run_set]
  cases t.reads.head? with
  | none =>
    simp only [run_raiseIf, EStateM.run_bind]
    by_cases hc : offset < 0 ∨ length < 0 ∨ (t.memory.length : Int) < offset + length
    · rw [if_pos hc]
    · rw [if_neg hc]
      exact ⟨rfl, by omega, by omega, by omega, rfl⟩
  | some fault =>
    cases fault with
    | some e => rfl
    | none =>
      simp only [run_raiseIf, EStateM.run_bind]
      by_cases hc : offset < 0 ∨ length < 0 ∨ (t.memory.length : Int) < offset + length
      · rw [if_pos hc]
      · rw [if_neg hc]
        exact ⟨rfl, by omega, by omega, by omega, rfl⟩

theorem faulty_exact : Api.faulty.Exact := by
  intro offset length t u d _ hrun
  obtain ⟨-, h1, h2, h3, rfl⟩ := (array_read_ends t offset length).of_ok hrun
  exact length_slice h1 h2 h3

/-- The bytes of a write are in the array. -/
def Stored (t : FaultyArray) (offset : Int) (data : Bytes) (u : FaultyArray) : Prop :=
  0 ≤ offset ∧ offset + data.length ≤ t.memory.length ∧
    u.memory = setSlice t.memory offset (offset + data.length) data

theorem array_write_ends (t : FaultyArray) (offset : Int) (data : Bytes) :
    Ends (Api.faulty.write offset data) (fun _ u => Stored t offset data u)
      (fun u => u.memory = t.memory ∨ Stored t offset data u) t := by
  unfold Ends Api.faulty
  simp only [EStateM.run_bind, EStateM.run_get, run_raiseIf]
  by_cases hc : offset < 0 ∨ (t.memory.length : Int) < offset + data.length
  · rw [if_pos hc]
    exact .inl rfl
  rw [if_neg hc]
  have h1 : 0 ≤ offset := by omega
  have h2 : offset + data.length ≤ t.memory.length := by omega
  cases t.writes.head? with
  | none => exact ⟨h1, h2, rfl⟩
  | some fault =>
    rcases fault with _ | ⟨e, kept⟩
    · exact ⟨h1, h2, rfl⟩
    · cases kept with
      | true => exact .inr ⟨h1, h2, rfl⟩
      | false => exact .inl rfl

/-! ## Pages of the array -/

/-- Different pages do not overlap. -/
theorem pages_apart {p q : Int} (hps : 0 ≤ ps) (h : q ≠ p) :
    q * ps + ps ≤ p * ps ∨ p * ps + ps ≤ q * ps := by
  rcases Int.lt_or_lt_of_ne h with hlt | hlt
  · have := Int.mul_le_mul_of_nonneg_right (Int.add_one_le_of_lt hlt) hps
    rw [Int.add_mul, Int.one_mul] at this
    exact .inl this
  · have := Int.mul_le_mul_of_nonneg_right (Int.add_one_le_of_lt hlt) hps
    rw [Int.add_mul, Int.one_mul] at this
    exact .inr this

/-- Storing a resident page makes it the same in the array, and the other pages stay as they are. -/
theorem Kept.stored (h : Kept ps rs k stale s) (hp : s.1.pages.get? p = some d) {t : FaultyArray}
    (ht : Stored s.2 (p * ps) d t) :
    Kept ps rs k (stale.filter (fun q => decide (q ≠ p))) (s.1, t) := by
  obtain ⟨h1, h2, hm⟩ := ht
  obtain ⟨-, -, hlen⟩ := h.resident p d hp
  refine ⟨h.pageSize, h.remoteSize, h.maxPages, h.bounded, h.dirty, h.resident, fun q e hq hn => ?_⟩
  by_cases hqp : q = p
  · subst hqp
    rw [hq] at hp
    cases hp
    rw [copyOf, hm, ← hlen, slice_setSlice_self h1 h2]
  · have hq' : q ∉ stale := fun hs => hn (List.mem_filter.mpr ⟨hs, decide_eq_true hqp⟩)
    obtain ⟨hq0, -, hqlen⟩ := h.resident q e hq
    have hapart := pages_apart (by omega : 0 ≤ ps) hqp
    rw [h.clean q e hq hq', copyOf, copyOf, hm,
      slice_setSlice_apart h1 h2 hq0 (by omega) (by omega)]

/-! ## One page -/

/-- The turn of a loop that stands at byte `a`, on the page that holds it. -/
theorem Kept.inside (h : Kept ps rs k stale s) (hps : ps ≠ 0) {a : Int} (ha : a < rs)
    (hp : s.1.pages.get? (a.fdiv ps) = some d) : 0 ≤ a.fmod ps ∧ a.fmod ps < d.length := by
  obtain ⟨-, -, hlen⟩ := h.resident _ d hp
  have hpos : 0 < ps := by omega
  have hdiv := Int.mul_fdiv_add_fmod a ps
  rw [Int.mul_comm] at hdiv
  have h1 := Int.fmod_nonneg_of_pos a hpos
  have h2 := Int.fmod_lt_of_pos a hpos
  omega

/-- A page that has been loaded; it is as the array has it, unless it is marked. -/
theorem Kept.loaded (hk : 0 < k) (h : Sound ps rs k s) {c : WriteBack} (f : Fetched s.1 c p d)
    (hplace : 0 ≤ p * ps ∧ p * ps < rs ∧ (d.length : Int) = min ps (rs - p * ps))
    (hd : p ∉ c.dirty → d = copyOf ps rs s.2.memory p) {t : FaultyArray} (ht : t.memory = s.2.memory) :
    Sound ps rs k (c, t) := by
  have hmax := h.maxPages
  have hbound := h.bounded
  have hsize := Dict.length_keys s.1.pages
  refine ⟨f.pageSize.trans h.pageSize, f.remoteSize.trans h.remoteSize, f.maxPages.trans h.maxPages,
    ?_, fun q hq => ?_, fun q e hq => ?_, fun q e hq hn => ?_⟩
  · have hlen := Lru.length_touch (k := s.1.maxPages.toNat) p (by omega) (Dict.keys_nodup s.1.pages) (by omega)
    rw [← f.order, Dict.length_keys] at hlen
    show (c.pages.size : Int) ≤ k
    omega
  · -- a dirty page that is still marked is not the one that left
    simp only [f.dirty, List.mem_filter, decide_eq_true_eq] at hq
    show q ∈ c.pages.keys
    rw [f.order]
    exact Lru.mem_touch (h.dirty q hq.1) hq.2
  · simp only [f.get?] at hq
    split at hq
    · rename_i hqp
      cases hq
      rw [hqp]
      exact hplace
    · split at hq
      · cases hq
      · exact h.resident q e hq
  · simp only [f.get?] at hq
    rw [ht]
    split at hq
    · rename_i hqp
      cases hq
      rw [hqp]
      exact hd (hqp ▸ hn)
    · simp only [f.dirty, List.mem_filter, decide_eq_true_eq, not_and, not_not] at hn
      split at hq
      · cases hq
      · rename_i hv
        exact h.clean q e hq (fun hs => hv (hn hs))

/-- `_load_page` of the page that holds byte `a`. -/
theorem load_ends (kind : Kind) (hk : 0 < k) (hps : ps ≠ 0) (h : Sound ps rs k s) {a : Int}
    (ha : a < rs) : Ends (loadPage kind .faulty (a.fdiv ps))
      (fun d t => Sound ps rs k t ∧ t.1.pages.get? (a.fdiv ps) = some d) (Sound ps rs k) s := by
  cases hg : s.1.pages.get? (a.fdiv ps) with
  | some d =>
    unfold Ends
    rw [load_hit kind .faulty hg]
    exact ⟨Kept.loaded hk h (hit_spec hg) (h.resident _ d hg) (h.clean _ d hg) rfl,
      by simp only [Dict.get?_set, if_true]⟩
  | none =>
    have hread := array_read_ends s.2 (a.fdiv ps * s.1.pageSize)
      (min s.1.pageSize (s.1.remoteSize - a.fdiv ps * s.1.pageSize))
    have hnot := Dict.get?_eq_none.mp hg
    unfold Ends at hread ⊢
    cases hr : (Api.faulty.read (a.fdiv ps * s.1.pageSize)
        (min s.1.pageSize (s.1.remoteSize - a.fdiv ps * s.1.pageSize))).run s.2 with
    | ok d t =>
      rw [hr] at hread
      rw [load_miss kind .faulty hg (by rw [h.maxPages]; exact hk) hr]
      simp only [h.pageSize, h.remoteSize] at hread
      obtain ⟨ht, h1, h2, h3, hd⟩ := hread
      -- the request was for no negative number of bytes, so the page size is positive
      have hdiv := Int.mul_fdiv_add_fmod a ps
      rw [Int.mul_comm] at hdiv
      have hmod := Int.fmod_nonneg_of_pos a (b := ps) (by omega)
      have hlen := length_slice h1 h2 h3
      rw [← hd] at hlen
      have f := fetched_spec kind d (by rw [h.maxPages]; exact hk) hnot
      exact ⟨Kept.loaded hk h f ⟨h1, by omega, hlen⟩ (fun _ => hd) ht, by simp only [f.get?, if_true]⟩
    | error e t =>
      rw [hr] at hread
      rw [load_raises kind .faulty hg hr]
      exact ⟨h.pageSize, h.remoteSize, h.maxPages, h.bounded, h.dirty, h.resident,
        (h.of_memory hread).clean⟩

theorem mem_addDirty {q : Int} {dirty : List Int} : q ∈ addDirty p dirty ↔ q ∈ dirty ∨ q = p := by
  unfold addDirty
  split
  · rename_i hp
    exact ⟨.inl, fun h => h.elim id (fun he => he ▸ hp)⟩
  · rw [List.mem_append, List.mem_singleton]

/-- Changing a resident page, which is dirty from then on. -/
theorem store_ends (h : Sound ps rs k s) (hp : s.1.pages.get? p = some d) {inside : Int} {data : Bytes}
    (hin : 0 ≤ inside) (hfit : inside + data.length ≤ d.length) :
    Ends (storePage p inside data.length data) (fun _ => Sound ps rs k) (Sound ps rs k) s := by
  obtain ⟨pages, hstore, hkeys, hsize, hget⟩ := run_storePage hp inside data.length data
  unfold Ends
  rw [hstore]
  refine ⟨h.pageSize, h.remoteSize, h.maxPages, by simp only [hsize]; exact h.bounded,
    fun q hq => ?_, fun q e hq => ?_, fun q e hq hn => ?_⟩
  · have hmem : q ∈ s.1.pages.keys := by
      rcases mem_addDirty.mp hq with hq | rfl
      · exact h.dirty q hq
      · exact Dict.mem_keys_of_get? hp
    show q ∈ pages.keys
    rw [hkeys, List.mem_append, List.mem_filter, List.mem_singleton]
    by_cases hqp : q = p
    · exact .inr hqp
    · exact .inl ⟨hmem, decide_eq_true hqp⟩
  · simp only [hget] at hq
    split at hq
    · -- the new bytes are as many as the old ones
      rename_i hqp
      cases hq
      rw [hqp, length_setSlice hin hfit]
      exact h.resident p d hp
    · exact h.resident q e hq
  · obtain ⟨hdirty, hqp⟩ := not_or.mp (fun ho => hn (mem_addDirty.mpr ho))
    simp only [hget, if_neg hqp] at hq
    exact h.clean q e hq hdirty

/-- Writing a page back. A page that is not resident is not written. -/
theorem flushPage_ends (h : Kept ps rs k stale s) (p : Int) : Ends (flushPage .faulty p)
    (fun _ t => Kept ps rs k (stale.filter (fun q => decide (q ≠ p))) t ∧ t.1.dirty = s.1.dirty)
    (fun t => Kept ps rs k stale t ∧ t.1.dirty = s.1.dirty) s := by
  obtain ⟨c, t⟩ := s
  cases hg : c.pages.get? p with
  | none =>
    unfold Ends
    rw [flushPage_absent .faulty hg]
    refine ⟨⟨h.pageSize, h.remoteSize, h.maxPages, h.bounded, h.dirty, h.resident,
      fun q e hq hn => h.clean q e hq (fun hs => ?_)⟩, rfl⟩
    refine hn (List.mem_filter.mpr ⟨hs, decide_eq_true (fun hqp => ?_)⟩)
    rw [hqp] at hq
    cases hg.symm.trans hq
  | some d =>
    have hsize : c.pageSize = ps := h.pageSize
    unfold flushPage
    refine .bind_get ?_
    simp only [hg, hsize]
    have hwrite : Ends (onSnd (Api.faulty.write (p * ps) d))
        (fun _ u => Kept ps rs k (stale.filter (fun q => decide (q ≠ p))) u ∧ u.1.dirty = c.dirty)
        (fun u => Kept ps rs k stale u ∧ u.1.dirty = c.dirty) (c, t) := by
      refine .onSnd ((array_write_ends t (p * ps) d).mono (fun _ u hu => ⟨h.stored hg hu, rfl⟩) fun u hu => ?_)
      rcases hu with hu | hu
      · exact ⟨h.of_memory hu, rfl⟩
      · exact ⟨(h.stored hg hu).mono (fun q hq => (List.mem_filter.mp hq).1), rfl⟩
    refine .bind hwrite (fun _ u hu => .modifyFst ?_)
    obtain ⟨h', hd⟩ := hu
    exact ⟨⟨h'.pageSize, h'.remoteSize, h'.maxPages, h'.bounded, h'.dirty, h'.resident, h'.clean⟩, hd⟩

/-! ## The loops -/

theorem readLoop_ends (kind : Kind) (hk : 0 < k) (hps : ps ≠ 0) (fuel : Nat) :
    ∀ {offset length : Int} {output : Bytes} {s : WriteBack × FaultyArray}, Sound ps rs k s →
      0 ≤ length → offset + length ≤ rs →
      Ends (readLoop kind .faulty fuel offset length output) (fun _ => Sound ps rs k) (Sound ps rs k) s := by
  induction fuel with
  | zero =>
    intro offset length output s h hl hr
    unfold readLoop
    split
    · exact .pure h
    · exact .throw h
  | succ fuel ih =>
    intro offset length output s h hl hr
    unfold readLoop
    split
    · exact .pure h
    · rename_i hne
      refine .bind_get ?_
      simp only [h.pageSize]
      refine .bind (load_ends kind hk hps h (by omega)) (fun d t ht => ?_)
      obtain ⟨h1, h2⟩ := ht.1.inside hps (by omega) ht.2
      exact ih ht.1 (by omega) (by omega)

theorem writeLoop_ends (kind : Kind) (hk : 0 < k) (hps : ps ≠ 0) (data : Bytes) (fuel : Nat) :
    ∀ {offset pos : Int} {s : WriteBack × FaultyArray}, Sound ps rs k s → 0 ≤ pos →
      offset + (data.length - pos) ≤ rs →
      Ends (writeLoop kind .faulty data fuel offset pos) (fun _ => Sound ps rs k) (Sound ps rs k) s := by
  induction fuel with
  | zero =>
    intro offset pos s h hp hr
    unfold writeLoop
    split
    · exact .pure h
    · exact .throw h
  | succ fuel ih =>
    intro offset pos s h hp hr
    unfold writeLoop
    split
    · exact .pure h
    · rename_i hlt
      refine .bind_get ?_
      simp only [h.pageSize]
      refine .bind (load_ends kind hk hps h (by omega)) (fun d t ht => ?_)
      obtain ⟨h1, h2⟩ := ht.1.inside hps (by omega) ht.2
      generalize hm : min ((data.length : Int) - pos) (d.length - offset.fmod ps) = m
      have hlen := length_slice (l := data) (a := pos) (n := m) hp (by omega) (by omega)
      have hstore := store_ends ht.1 ht.2 h1 (show _ + ((slice data pos (pos + m)).length : Int) ≤ _ by omega)
      rw [hlen] at hstore
      exact .bind hstore (fun _ u hu => ih hu (by omega) (by omega))

/-- Half-way through, the pages written back so far are the same in the array. -/
theorem flushPages_ends (pages : List Int) : ∀ {stale : List Int} {s : WriteBack × FaultyArray},
    Kept ps rs k stale s → Ends (flushPages .faulty pages)
      (fun _ t => Kept ps rs k (stale.filter (fun q => decide (q ∉ pages))) t ∧ t.1.dirty = s.1.dirty)
      (fun t => Kept ps rs k stale t ∧ t.1.dirty = s.1.dirty) s := by
  induction pages with
  | nil =>
    intro stale s h
    exact .pure ⟨h.mono (fun q hq => List.mem_filter.mpr ⟨hq, by simp⟩), rfl⟩
  | cons page pages ih =>
    intro stale s h
    refine .bind ((flushPage_ends h page)) (fun _ t ht => ?_)
    refine (ih ht.1).mono (fun _ u hu => ⟨hu.1.mono (fun q hq => ?_), hu.2.trans ht.2⟩)
      (fun u hu => ⟨hu.1.mono (fun q hq => (List.mem_filter.mp hq).1), hu.2.trans ht.2⟩)
    simp only [List.mem_filter, decide_eq_true_eq] at hq
    obtain ⟨⟨hs, hne⟩, hnot⟩ := hq
    exact List.mem_filter.mpr ⟨hs, decide_eq_true (List.not_mem_cons_of_ne_of_not_mem hne hnot)⟩

/-! ## The operations -/

theorem check_ends (kind : Kind) (h : Sound ps rs k s) (offset length : Int) :
    Ends (check kind offset length)
      (fun _ t => Sound ps rs k t ∧ 0 ≤ length ∧ offset + length ≤ rs) (Sound ps rs k) s := by
  refine .bind_get (.raiseIf (fun _ => h) (fun hc => ⟨h, ?_⟩))
  rw [h.remoteSize] at hc
  omega

theorem read_ends (kind : Kind) (hk : 0 < k) (hps : ps ≠ 0) (fuel : Nat) (h : Sound ps rs k s)
    (offset length : Int) : Ends (read kind .faulty fuel offset length)
      (fun _ => Sound ps rs k) (Sound ps rs k) s :=
  .bind (check_ends kind h offset length)
    (fun _ _ ht => readLoop_ends kind hk hps fuel ht.1 ht.2.1 ht.2.2)

theorem write_ends (kind : Kind) (hk : 0 < k) (hps : ps ≠ 0) (fuel : Nat) (h : Sound ps rs k s)
    (offset : Int) (data : Bytes) : Ends (write kind .faulty fuel offset data)
      (fun _ => Sound ps rs k) (Sound ps rs k) s :=
  .bind (check_ends kind h offset data.length)
    (fun _ _ ht => writeLoop_ends kind hk hps data fuel ht.1 (Int.le_refl 0) (by rw [Int.sub_zero]; exact ht.2.2))

/-- A flush that returns has made every resident page the same in the array. -/
theorem flush_ends (h : Sound ps rs k s) (order : SetOrder) : Ends (flush .faulty order)
    (fun _ t => Kept ps rs k [] t ∧ t.1.dirty = []) (Sound ps rs k) s := by
  refine .bind_get (.bind ((flushPages_ends (order.1 s.1.dirty) h).mono (fun _ _ ht => ht)
    (fun t ht => ?_)) (fun _ t ht => .modifyFst ?_))
  · unfold Sound
    rw [ht.2]
    exact ht.1
  · obtain ⟨h', -⟩ := ht
    -- the pages written back are all that were dirty
    have hnone : s.1.dirty.filter (fun q => decide (q ∉ order.1 s.1.dirty)) = [] := by
      rw [List.filter_eq_nil_iff]
      intro q hq
      rw [decide_eq_true_eq, not_not]
      exact (order.2 s.1.dirty).mem_iff.mpr hq
    rw [hnone] at h'
    exact ⟨⟨h'.pageSize, h'.remoteSize, h'.maxPages, h'.bounded, fun q hq => (nomatch hq), h'.resident,
      h'.clean⟩, rfl⟩

end WriteBack

end RamLink
