import RamLink.WriteBack.Failures
import RamLink.WriteBack.Flat

/-!
# RamLink.WriteBack.Contents

What the cache and the array that is behind it hold together, whatever requests fail.

`Shows kind ps rs lost mem s`: but for the pages of `lost`, a resident page is the page of `mem`, and so is the
array's page where none is resident. A page is lost when it is evicted while it is dirty, so there are
not more of them than evictions (`Few`).

* `load_shows`, `store_shows`, `flushPage_shows`: one page.
* `read_shows`, `write_shows`, `flush_shows`: the operations.
-/

namespace RamLink

open Lib

namespace WriteBack

/-- A page that was read is in the map or has been evicted. `RemoteMemoryCache` counts evictions as well. -/
structure Few (kind : Kind) (lost : List Int) (c : WriteBack) : Prop where
  reads : lost.length + c.pages.size ≤ c.remoteReads
  evictions : kind.countsEvictions = true → lost.length ≤ c.evictions

structure Shows (kind : Kind) (ps rs : Nat) (lost : List Int) (mem : Bytes) (s : WriteBack × FaultyArray) :
    Prop where
  length_mem : mem.length = rs
  length_remote : rs ≤ s.2.memory.length
  resident : ∀ (i : Nat) d, s.1.pages.get? i = some d → (i : Int) ∉ lost → d = pageAt ps rs mem i
  absent : ∀ i : Nat, s.1.pages.get? i = none → (i : Int) ∉ lost → i * ps < rs →
    pageAt ps rs s.2.memory i = pageAt ps rs mem i
  few : Few kind lost s.1

variable {kind : Kind} {ps rs k : Nat} {lost : List Int} {mem : Bytes} {s : WriteBack × FaultyArray} {i : Nat}
  {d : Bytes}

/-- The array is what it was. -/
theorem Shows.of_memory (h : Shows kind ps rs lost mem s) {t : FaultyArray} (ht : t.memory = s.2.memory) :
    Shows kind ps rs lost mem (s.1, t) :=
  ⟨h.length_mem, by rw [ht]; exact h.length_remote, h.resident, by rw [ht]; exact h.absent, h.few⟩

/-- A new cache shows the array. -/
theorem Shows.start {remote : Bytes} (h : rs ≤ remote.length) (maxPages : Int) :
    Shows kind ps rs [] (sub remote 0 rs) (empty ps rs maxPages, ⟨remote, [], []⟩) where
  length_mem := length_sub_of_le (by omega)
  length_remote := h
  resident i d hi := nomatch hi
  absent i _ _ hi := by
    have := width_le ps rs i hi.le
    rw [pageAt, pageAt, sub_sub _ _ _ _ _ this, Nat.zero_add]
  few := ⟨Nat.zero_le _, fun _ => Nat.zero_le _⟩

/-- What the array has of a page, by the two ways to say it. -/
theorem copyOf_eq (memory : Bytes) (hi : i * ps ≤ rs) : copyOf ps rs memory i = pageAt ps rs memory i := by
  obtain ⟨hc, hw⟩ := page_cast hi
  rw [copyOf, hw, hc, slice_nat]
  rfl

/-! ## One page -/

theorem Few.hit {c : WriteBack} {p : Int} (h : Few kind lost c) (hp : c.pages.get? p = some d) :
    Few kind lost { c with pages := (c.pages.erase p).set p d, hits := c.hits + 1 } := by
  refine ⟨?_, h.evictions⟩
  have hsize : ((c.pages.erase p).set p d).size = c.pages.size := Dict.size_congr fun j => by
    rw [Dict.get?_set]
    split
    · rename_i hj
      rw [hj, hp]
    · rename_i hj
      rw [Dict.get?_erase, if_neg hj]
  show lost.length + ((c.pages.erase p).set p d).size ≤ c.remoteReads
  rw [hsize]
  exact h.reads

/-- A fetch is counted, and may cost the page that it evicts. -/
theorem Few.fetched {c : WriteBack} {p : Int} (h : Few kind lost c) (d : Bytes) (hk : 0 < c.maxPages)
    (hp : p ∉ c.pages.keys) : Few kind lost (fetched kind c p d) ∧
      ∀ v, Lru.victim c.maxPages.toNat c.pages.keys p = some v → Few kind (v :: lost) (fetched kind c p d) := by
  have hsize := Dict.length_keys c.pages
  obtain ⟨hreads, hevictions⟩ := h
  unfold WriteBack.fetched makeRoom
  by_cases hfull : c.maxPages ≤ c.pages.size
  · obtain ⟨old, v, rest, hpop⟩ := Dict.popFirst_isSome (d := c.pages) (by omega)
    have hkeys := Dict.keys_popFirst hpop
    have hrest : p ∉ rest.keys := fun h => hp (by rw [hkeys]; exact List.mem_cons_of_mem old h)
    have hnew : (rest.set p d).size = c.pages.size := by
      rw [← Dict.length_keys, ← Dict.length_keys, Dict.keys_set_of_not_mem _ hrest, hkeys, List.length_append]
      rfl
    simp only [if_pos hfull, evicted, hpop]
    refine ⟨⟨by simp only [hnew]; omega, fun hc => ?_⟩, fun w _ => ⟨?_, fun hc => ?_⟩⟩
    · have := hevictions hc
      simp only [if_pos hc]
      omega
    · simp only [hnew, List.length_cons]
      omega
    · have := hevictions hc
      simp only [if_pos hc, List.length_cons]
      omega
  · have hlen : ¬ c.maxPages.toNat ≤ c.pages.keys.length := by omega
    have hnew : (c.pages.set p d).size = c.pages.size + 1 := by
      rw [← Dict.length_keys, ← Dict.length_keys, Dict.keys_set_of_not_mem _ hp, List.length_append]
      rfl
    simp only [if_neg hfull]
    refine ⟨⟨by simp only [hnew]; omega, hevictions⟩, fun v hv => ?_⟩
    rw [Lru.victim, if_neg hp, if_neg hlen] at hv
    cases hv

/-- A page that has been loaded in the place of another, which is lost if it was dirty. -/
theorem Shows.loaded (hs : Sound ps rs k s) (h : Shows kind ps rs lost mem s) {c : WriteBack}
    (f : Fetched s.1 c i d) (hd : (i : Int) ∉ lost → d = pageAt ps rs mem i)
    (hfew : Few kind lost c)
    (hcost : ∀ v, Lru.victim s.1.maxPages.toNat s.1.pages.keys i = some v → Few kind (v :: lost) c) {t : FaultyArray} (ht : t.memory = s.2.memory) :
    ∃ lost', lost ⊆ lost' ∧ Shows kind ps rs lost' mem (c, t) := by
  have hshows : ∀ lost', lost ⊆ lost' →
      (∀ j, Lru.victim s.1.maxPages.toNat s.1.pages.keys i = some j → j ∉ lost' → j ∉ s.1.dirty) →
      Few kind lost' c → Shows kind ps rs lost' mem (c, t) := by
    intro lost' hsub hvictim hfew
    refine ⟨h.length_mem, by rw [ht]; exact h.length_remote, fun j e hj hn => ?_, fun j hj hn hlt => ?_, hfew⟩
    · have hn' : (j : Int) ∉ lost := fun hl => hn (hsub hl)
      simp only [f.get?] at hj
      split at hj
      · rename_i hji
        obtain rfl : j = i := by omega
        cases hj
        exact hd hn'
      · split at hj
        · cases hj
        · exact h.resident j e hj hn'
    · have hn' : (j : Int) ∉ lost := fun hl => hn (hsub hl)
      rw [ht]
      simp only [f.get?] at hj
      split at hj
      · cases hj
      · split at hj
        · -- the page that left was clean
          rename_i hv
          obtain ⟨e, he⟩ := Dict.mem_keys.mp (Lru.victim_some hv).2
          rw [← copyOf_eq s.2.memory hlt.le, ← hs.clean j e he (hvictim j hv hn)]
          exact h.resident j e he hn'
        · exact h.absent j hj hn' hlt
  by_cases hlost : ∃ v, Lru.victim s.1.maxPages.toNat s.1.pages.keys i = some v ∧ v ∈ s.1.dirty
  · obtain ⟨v, hv, -⟩ := hlost
    have hsub := List.subset_cons_self v lost
    refine ⟨v :: lost, hsub, hshows _ hsub (fun j hj hn => ?_) (hcost v hv)⟩
    rw [hv] at hj
    cases hj
    exact absurd (List.mem_cons_self ..) hn
  · exact ⟨lost, List.Subset.refl lost, hshows lost (List.Subset.refl lost)
      (fun j hj _ hdirty => hlost ⟨j, hj, hdirty⟩) hfew⟩

/-- `_load_page`. -/
theorem load_shows (hk : 0 < k) (hps : 0 < ps) (hs : Sound ps rs k s) (h : Shows kind ps rs lost mem s)
    (hi : i * ps < rs) : Ends (loadPage kind .faulty i)
      (fun d t =>
        (∃ lost', lost ⊆ lost' ∧ Shows kind ps rs lost' mem t ∧ ((i : Int) ∉ lost' → d = pageAt ps rs mem i)) ∧
        Sound ps rs k t ∧ t.1.pages.get? i = some d)
      (fun t => Shows kind ps rs lost mem t ∧ Sound ps rs k t) s := by
  obtain ⟨hc, hw⟩ := page_cast hi.le
  have hdiv : ((i * ps : Nat) : Int).fdiv ps = i := by
    rw [← hc]
    exact Int.mul_fdiv_cancel _ (by omega)
  have hsound := load_ends kind (k := k) (by omega) (by omega) hs (a := (i * ps : Nat)) (by omega)
  rw [hdiv] at hsound
  refine (Ends.and ?_ hsound)
  have hmax : 0 < s.1.maxPages := by
    rw [hs.maxPages]
    omega
  cases hg : s.1.pages.get? (i : Int) with
  | some d =>
    unfold Ends
    rw [load_hit kind .faulty hg]
    have hnone : ∀ v, Lru.victim s.1.maxPages.toNat s.1.pages.keys i ≠ some v := fun v hv =>
      (Lru.victim_some hv).1 (Dict.mem_keys_of_get? hg)
    obtain ⟨lost', hsub, h'⟩ := h.loaded hs (hit_spec hg) (h.resident i d hg) (h.few.hit hg)
      (fun v hv => absurd hv (hnone v)) (t := s.2) rfl
    exact ⟨lost', hsub, h', fun hn => h.resident i d hg fun hl => hn (hsub hl)⟩
  | none =>
    have hnot := Dict.get?_eq_none.mp hg
    have hread := array_read_ends s.2 (i * s.1.pageSize) (min s.1.pageSize (s.1.remoteSize - i * s.1.pageSize))
    unfold Ends at hread ⊢
    cases hr : (Api.faulty.read (i * s.1.pageSize)
        (min s.1.pageSize (s.1.remoteSize - i * s.1.pageSize))).run s.2 with
    | ok d t =>
      rw [hr] at hread
      rw [load_miss kind .faulty hg hmax hr]
      obtain ⟨ht, -, -, -, hd⟩ := hread
      have hpage : (i : Int) ∉ lost → d = pageAt ps rs mem i := fun hn => by
        rw [hd, hs.pageSize, hs.remoteSize, ← h.absent i hg hn hi]
        exact copyOf_eq s.2.memory hi.le
      obtain ⟨hfew, hcost⟩ := h.few.fetched d hmax hnot
      obtain ⟨lost', hsub, h'⟩ := h.loaded hs (fetched_spec kind d hmax hnot) hpage hfew hcost ht
      exact ⟨lost', hsub, h', fun hn => hpage fun hl => hn (hsub hl)⟩
    | error e t =>
      rw [hr] at hread
      rw [load_raises kind .faulty hg hr]
      exact ⟨h.length_mem, by rw [hread]; exact h.length_remote, h.resident, by rw [hread]; exact h.absent,
        h.few.reads, h.few.evictions⟩

/-- Changing a resident page changes the page of `mem`. -/
theorem store_shows (hs : Sound ps rs k s) (h : Shows kind ps rs lost mem s) (hi : i * ps < rs)
    (hg : s.1.pages.get? i = some d) {inside n : Nat} {data : Bytes} (hn : data.length = n)
    (hin : inside + n ≤ width ps rs i) : Ends (storePage i inside n data)
      (fun _ t => Shows kind ps rs lost (splice mem (i * ps + inside) data) t ∧ Sound ps rs k t)
      (fun _ => False) s := by
  subst hn
  have hmem := h.length_mem
  have hwidth := width_le ps rs i hi.le
  obtain ⟨-, hw⟩ := page_cast hi.le
  obtain ⟨-, -, hlen⟩ := hs.resident _ d hg
  rw [hw] at hlen
  have hsound : Ends (storePage i inside data.length data) _ _ s := store_ends hs hg (by omega) (by omega)
  obtain ⟨pages, hstore, -, hsize, hget⟩ := run_storePage hg inside data.length data
  unfold Ends at hsound ⊢
  rw [hstore] at hsound ⊢
  refine ⟨⟨by rw [length_splice (by omega)]; exact hmem, h.length_remote, fun j e hj hn => ?_,
    fun j hj hn hlt => ?_, by simp only [hsize]; exact h.few.reads, h.few.evictions⟩, hsound⟩
  · simp only [hget] at hj
    split at hj
    · rename_i hji
      obtain rfl : j = i := by omega
      cases hj
      rw [pageAt_splice_self hmem hi.le hin, ← h.resident j d hg hn]
      exact setSlice_nat d inside data.length data rfl (by omega)
    · rename_i hji
      rw [pageAt_splice_other hmem.ge hi.le hin (by omega)]
      exact h.resident j e hj hn
  · simp only [hget] at hj
    split at hj
    · cases hj
    · rename_i hji
      rw [pageAt_splice_other hmem.ge hi.le hin (by omega)]
      exact h.absent j hj hn hlt

/-- Writing a page back. -/
theorem flushPage_shows {stale : List Int} (hs : Kept ps rs k stale s) (h : Shows kind ps rs lost mem s) (p : Int) :
    Ends (flushPage .faulty p) (fun _ => Shows kind ps rs lost mem) (Shows kind ps rs lost mem) s := by
  obtain ⟨c, t⟩ := s
  cases hg : c.pages.get? p with
  | none =>
    unfold Ends
    rw [flushPage_absent .faulty hg]
    exact h
  | some d =>
    have hsize : c.pageSize = ps := hs.pageSize
    have hstored : ∀ u, Stored t (p * ps) d u → Shows kind ps rs lost mem (c, u) := by
      intro u hu
      obtain ⟨h0, hfit, hm⟩ := hu
      have hremote : rs ≤ t.memory.length := h.length_remote
      refine ⟨h.length_mem, ?_, h.resident, fun j hj hn hlt => ?_, h.few⟩
      · show rs ≤ u.memory.length
        rw [hm, length_setSlice h0 hfit]
        exact hremote
      · obtain ⟨hc, hw⟩ := page_cast hlt.le
        have hwidth := width_le ps rs j hlt.le
        obtain ⟨-, -, hlen⟩ := hs.resident p d hg
        have hne : (j : Int) ≠ p := by
          rintro rfl
          cases hg.symm.trans hj
        have hapart : (j : Int) * ps + ps ≤ p * ps ∨ p * ps + ps ≤ (j : Int) * ps := pages_apart (by omega) hne
        rw [← h.absent j hj hn hlt, ← copyOf_eq _ hlt.le, ← copyOf_eq _ hlt.le, copyOf, copyOf, hm, hw]
        exact slice_setSlice_apart h0 hfit (by omega) (by omega) (by omega)
    unfold flushPage
    refine .bind_get ?_
    simp only [hg, hsize]
    refine .bind (Q := fun _ => Shows kind ps rs lost mem) ?_ fun _ u hu => .modifyFst
      ⟨hu.length_mem, hu.length_remote, hu.resident, hu.absent, hu.few.reads, hu.few.evictions⟩
    refine .onSnd ((array_write_ends t (p * ps) d).mono (fun _ u hu => hstored u hu) fun u hu => ?_)
    rcases hu with hu | hu
    · exact h.of_memory hu
    · exact hstored u hu

/-! ## Ranges -/

/-- The bytes of `mem` from `a` on, but for those on the pages of `lost`. -/
def Agrees (ps : Nat) (lost : List Int) (mem : Bytes) (a : Nat) (d : Bytes) : Prop :=
  ∀ j < d.length, (((a + j) / ps : Nat) : Int) ∉ lost → d[j]? = mem[a + j]?

theorem Agrees.mono {lost' : List Int} {a : Nat} (h : Agrees ps lost mem a d) (hsub : lost ⊆ lost') :
    Agrees ps lost' mem a d := fun j hj hn => h j hj fun hl => hn (hsub hl)

theorem Agrees.append {a : Nat} {e : Bytes} (h : Agrees ps lost mem a d) (h' : Agrees ps lost mem (a + d.length) e) :
    Agrees ps lost mem a (d ++ e) := by
  intro j hj hn
  by_cases hjd : j < d.length
  · rw [List.getElem?_append_left hjd]
    exact h j hjd hn
  · rw [List.length_append] at hj
    have heq : a + d.length + (j - d.length) = a + j := by omega
    rw [List.getElem?_append_right (Nat.not_lt.mp hjd), h' (j - d.length) (by omega) (by rwa [heq]), heq]

/-- The part of a range on the page of its start. -/
theorem agrees_page (hps : 0 < ps) {a m : Nat} (hin : a % ps + m ≤ width ps rs (a / ps))
    (hlen : d.length = width ps rs (a / ps))
    (hd : ((a / ps : Nat) : Int) ∉ lost → d = pageAt ps rs mem (a / ps)) :
    Agrees ps lost mem a (sub d (a % ps) m) := by
  intro j hj hn
  rw [length_sub_of_le (by omega)] at hj
  have hwidth : width ps rs (a / ps) ≤ ps := Nat.min_le_left _ _
  rw [(add_div_eq_iff hps a j).mpr (by omega)] at hn
  rw [hd hn, sub_pageAt hin, getElem?_sub, if_pos hj]

/-! ## The loops -/

section Turn

variable {σ α : Type} {api : Api σ} {u : WriteBack × σ} {a n : Nat} {Q : Bytes → WriteBack × σ → Prop}
  {R : WriteBack × σ → Prop}

theorem readLoop_turn_ends (hps : 0 < ps) (hn : 0 < n) (hr : a + n ≤ rs) (hsize : u.1.pageSize = ps) (fuel : Nat)
    (out : Bytes) {Q' : Bytes → WriteBack × σ → Prop}
    (hload : Ends (loadPage kind api ((a / ps : Nat) : Int)) Q R u)
    (hrest : ∀ d t, Q d t → d.length = width ps rs (a / ps) ∧
      Ends (readLoop kind api fuel ((a + min n (ps - a % ps) : Nat) : Int) ((n - min n (ps - a % ps) : Nat) : Int)
        (out ++ sub d (a % ps) (min n (ps - a % ps)))) Q' R t) :
    Ends (readLoop kind api (fuel + 1) a n out) Q' R u := by
  obtain ⟨-, -, -, -, hmin⟩ := chunk_arith hps hn hr
  have hz : ¬ ((n : Int) = 0) := by omega
  have hle : min n (ps - a % ps) ≤ n := Nat.min_le_left _ _
  generalize min n (ps - a % ps) = m at *
  have hcast : (a : Int) + (m : Int) = ((a + m : Nat) : Int) ∧
      (n : Int) - (m : Int) = ((n - m : Nat) : Int) := by omega
  rw [readLoop, if_neg hz]
  refine .bind_get ?_
  simp only [hsize, ← Int.ofNat_fdiv, ← Int.ofNat_fmod]
  refine hload.bind fun d t hd => ?_
  obtain ⟨hlen, hrest⟩ := hrest d t hd
  simp only [hlen, hmin, slice_nat, hcast.1, hcast.2]
  exact hrest

theorem writeLoop_turn_ends {data : Bytes} {pos : Nat} (hps : 0 < ps) (hn : 0 < n) (hd : pos + n = data.length)
    (hr : a + n ≤ rs) (hsize : u.1.pageSize = ps) (fuel : Nat) {Q' : Unit → WriteBack × σ → Prop}
    (hload : Ends (loadPage kind api ((a / ps : Nat) : Int)) Q R u)
    (hrest : ∀ d t, Q d t → d.length = width ps rs (a / ps) ∧ Ends (do
      storePage ((a / ps : Nat) : Int) ((a % ps : Nat) : Int) ((min n (ps - a % ps) : Nat) : Int)
        (sub data pos (min n (ps - a % ps)))
      writeLoop kind api data fuel ((a + min n (ps - a % ps) : Nat) : Int)
        ((pos + min n (ps - a % ps) : Nat) : Int)) Q' R t) :
    Ends (writeLoop kind api data (fuel + 1) a pos) Q' R u := by
  obtain ⟨-, -, -, -, hmin⟩ := chunk_arith hps hn hr
  have hz : ¬ ((data.length : Int) ≤ (pos : Int)) := by omega
  have hleft : (data.length : Int) - (pos : Int) = (n : Int) := by omega
  generalize min n (ps - a % ps) = m at *
  have hcast : (a : Int) + (m : Int) = ((a + m : Nat) : Int) ∧
      (pos : Int) + (m : Int) = ((pos + m : Nat) : Int) := by omega
  have hslice : slice data (pos : Int) ((pos + m : Nat) : Int) = sub data pos m := by
    rw [← hcast.2, slice_nat]
  rw [writeLoop, if_neg hz]
  refine .bind_get ?_
  simp only [hsize, ← Int.ofNat_fdiv, ← Int.ofNat_fmod]
  refine hload.bind fun d t hd => ?_
  obtain ⟨hlen, hrest⟩ := hrest d t hd
  simp only [hlen, hleft, hmin, hcast.1, hcast.2, hslice]
  exact hrest

end Turn

/-- The rest shows `mem`, and no page of `lost` has been found again. -/
def ShowsMore (kind : Kind) (ps rs k : Nat) (lost : List Int) (mem : Bytes) (s : WriteBack × FaultyArray)
    (P : List Int → Prop) : Prop :=
  Sound ps rs k s ∧ ∃ lost', lost ⊆ lost' ∧ Shows kind ps rs lost' mem s ∧ P lost'

theorem readLoop_shows (hk : 0 < k) (hps : 0 < ps) (fuel : Nat) : ∀ {a n : Nat} {out : Bytes} {lost : List Int}
    {s : WriteBack × FaultyArray}, a + n ≤ rs → Sound ps rs k s → Shows kind ps rs lost mem s →
    Ends (readLoop kind .faulty fuel a n out)
      (fun bytes t => ShowsMore kind ps rs k lost mem t fun lost' =>
        ∃ d, bytes = out ++ d ∧ d.length = n ∧ Agrees ps lost' mem a d)
      (fun t => ShowsMore kind ps rs k lost mem t fun _ => True) s := by
  induction fuel with
  | zero =>
    intro a n out lost s hr hs h
    unfold readLoop
    split
    · exact .pure ⟨hs, lost, List.Subset.refl lost, h, [], (List.append_nil out).symm, by simp; omega,
        fun _ hj => absurd hj (Nat.not_lt_zero _)⟩
    · exact .throw ⟨hs, lost, List.Subset.refl lost, h, trivial⟩
  | succ fuel ih =>
    intro a n out lost s hr hs h
    rcases Nat.eq_zero_or_pos n with rfl | hn
    · unfold readLoop
      rw [if_pos Int.natCast_zero]
      exact .pure ⟨hs, lost, List.Subset.refl lost, h, [], (List.append_nil out).symm, rfl,
        fun _ hj => absurd hj (Nat.not_lt_zero _)⟩
    obtain ⟨hi, hin, ha, hpos, -⟩ := chunk_arith hps hn hr
    refine readLoop_turn_ends hps hn hr hs.pageSize fuel out ((load_shows hk hps hs h hi).mono (fun _ _ h => h)
      fun t ht => ⟨ht.2, lost, List.Subset.refl lost, ht.1, trivial⟩) fun d t hd => ?_
    obtain ⟨⟨lost', hsub, h', hpage⟩, hs', hget⟩ := hd
    obtain ⟨-, hw⟩ := page_cast hi.le
    have hlen : d.length = width ps rs (a / ps) := by
      have := (hs'.resident _ d hget).2.2
      omega
    refine ⟨hlen, ?_⟩
    have hle : min n (ps - a % ps) ≤ n := Nat.min_le_left _ _
    generalize min n (ps - a % ps) = m at *
    have hchunk : (sub d (a % ps) m).length = m := length_sub_of_le (by omega)
    refine (ih (by omega) hs' h').mono (fun bytes u hu => ?_) fun u hu => ?_
    · obtain ⟨hs'', lost'', hsub', h'', e, rfl, he, hagree⟩ := hu
      refine ⟨hs'', lost'', List.Subset.trans hsub hsub', h'', sub d (a % ps) m ++ e, List.append_assoc ..,
        ?_, ?_⟩
      · rw [List.length_append, hchunk]
        omega
      · refine ((agrees_page hps hin hlen hpage).mono hsub').append ?_
        rwa [hchunk]
    · obtain ⟨hs'', lost'', hsub', h'', -⟩ := hu
      exact ⟨hs'', lost'', List.Subset.trans hsub hsub', h'', trivial⟩

theorem writeLoop_shows (hk : 0 < k) (hps : 0 < ps) (data : Bytes) (fuel : Nat) :
    ∀ {a pos n : Nat} {lost : List Int} {mem : Bytes} {s : WriteBack × FaultyArray}, pos + n = data.length →
    a + n ≤ rs → Sound ps rs k s → Shows kind ps rs lost mem s → Ends (writeLoop kind .faulty data fuel a pos)
      (fun _ t => ShowsMore kind ps rs k lost (splice mem a (data.drop pos)) t fun _ => True)
      (fun t => ∃ m ≤ n, ShowsMore kind ps rs k lost (splice mem a (sub data pos m)) t fun _ => True) s := by
  have hdone : ∀ {a pos : Nat} {lost : List Int} {mem : Bytes} {s : WriteBack × FaultyArray}, pos = data.length →
      Sound ps rs k s → Shows kind ps rs lost mem s →
      ShowsMore kind ps rs k lost (splice mem a (data.drop pos)) s fun _ => True := by
    intro a pos lost mem s hp hs h
    rw [hp, List.drop_length, splice_nil]
    exact ⟨hs, lost, List.Subset.refl lost, h, trivial⟩
  induction fuel with
  | zero =>
    intro a pos n lost mem s hp hr hs h
    unfold writeLoop
    split
    · exact .pure (hdone (by omega) hs h)
    · exact .throw ⟨0, n.zero_le, hs, lost, List.Subset.refl lost, by rw [sub_zero, splice_nil]; exact h,
        trivial⟩
  | succ fuel ih =>
    intro a pos n lost mem s hp hr hs h
    rcases Nat.eq_zero_or_pos n with rfl | hn
    · unfold writeLoop
      rw [if_pos (by omega)]
      exact .pure (hdone (by omega) hs h)
    obtain ⟨hi, hin, ha, hpos, -⟩ := chunk_arith hps hn hr
    refine writeLoop_turn_ends hps hn hp hr hs.pageSize fuel ((load_shows hk hps hs h hi).mono (fun _ _ h => h)
      fun t ht => ⟨0, n.zero_le, ht.2, lost, List.Subset.refl lost, by rw [sub_zero, splice_nil]; exact ht.1,
        trivial⟩) fun d t hd => ?_
    obtain ⟨⟨lost', hsub, h', -⟩, hs', hget⟩ := hd
    obtain ⟨-, hw⟩ := page_cast hi.le
    have hlen : d.length = width ps rs (a / ps) := by
      have := (hs'.resident _ d hget).2.2
      omega
    refine ⟨hlen, ?_⟩
    have hle : min n (ps - a % ps) ≤ n := Nat.min_le_left _ _
    generalize min n (ps - a % ps) = m at *
    have hchunk : (sub data pos m).length = m := length_sub_of_le (by omega)
    have hmem := h'.length_mem
    refine .bind ((store_shows hs' h' hi hget hchunk hin).mono (fun _ _ h => h) fun _ hf => hf.elim) fun _ u hu => ?_
    rw [ha] at hu
    refine (ih (n := n - m) (by omega) (by omega) hu.2 hu.1).mono (fun _ v hv => ?_) fun v hv => ?_
    · obtain ⟨hs'', lost'', hsub', h'', -⟩ := hv
      refine ⟨hs'', lost'', List.Subset.trans hsub hsub', ?_, trivial⟩
      rwa [splice_split (by omega : pos + m ≤ data.length) (by omega)]
    · obtain ⟨m', hm', hs'', lost'', hsub', h'', -⟩ := hv
      refine ⟨m + m', by omega, hs'', lost'', List.Subset.trans hsub hsub', ?_, trivial⟩
      have hlen' : (sub data (pos + m) m').length = m' := length_sub_of_le (by omega)
      rw [sub_append, splice_append _ _ (by omega), hchunk]
      exact h''

theorem flushPages_shows (pages : List Int) : ∀ {stale : List Int} {s : WriteBack × FaultyArray},
    Kept ps rs k stale s → Shows kind ps rs lost mem s →
    Ends (flushPages .faulty pages) (fun _ => Shows kind ps rs lost mem) (Shows kind ps rs lost mem) s := by
  induction pages with
  | nil => exact fun _ h => .pure h
  | cons page pages ih =>
    intro stale s hs h
    exact .bind ((flushPage_ends hs page).and (flushPage_shows hs h page) |>.mono (fun _ _ h => h) fun _ h => h.2)
      fun _ t ht => ih ht.1.1 ht.2

/-! ## The operations -/

theorem check_range {offset length : Int} (hs : Sound ps rs k s) :
    Ends (check kind offset length)
      (fun _ t => t = s ∧ ∃ a n : Nat, offset = a ∧ length = n ∧ a + n ≤ rs) (fun t => t = s) s := by
  refine .bind_get (.raiseIf (fun _ => rfl) fun hc => ⟨rfl, offset.toNat, length.toNat, ?_⟩)
  rw [hs.remoteSize] at hc
  omega

theorem read_shows (hk : 0 < k) (hps : 0 < ps) (fuel : Nat) (hs : Sound ps rs k s) (h : Shows kind ps rs lost mem s)
    (offset length : Int) : Ends (read kind .faulty fuel offset length)
      (fun bytes t => ShowsMore kind ps rs k lost mem t fun lost' =>
        (bytes.length : Int) = length ∧ Agrees ps lost' mem offset.toNat bytes)
      (fun t => ShowsMore kind ps rs k lost mem t fun _ => True) s := by
  refine .bind ((check_range hs).mono (fun _ _ h => h) ?_) fun _ t ht => ?_
  · rintro t rfl
    exact ⟨hs, lost, List.Subset.refl lost, h, trivial⟩
  · obtain ⟨rfl, a, n, rfl, rfl, hr⟩ := ht
    refine (readLoop_shows hk hps fuel hr hs h).mono (fun bytes u hu => ?_) fun _ h => h
    obtain ⟨hs', lost', hsub, h', d, rfl, hd, hagree⟩ := hu
    exact ⟨hs', lost', hsub, h', by omega, hagree⟩

/-- A write that raises has changed a part of its range, from its start on. -/
theorem write_shows (hk : 0 < k) (hps : 0 < ps) (fuel : Nat) (hs : Sound ps rs k s) (h : Shows kind ps rs lost mem s)
    (offset : Int) (data : Bytes) : Ends (write kind .faulty fuel offset data)
      (fun _ t => ShowsMore kind ps rs k lost (splice mem offset.toNat data) t fun _ => True)
      (fun t => ∃ n ≤ data.length,
        ShowsMore kind ps rs k lost (splice mem offset.toNat (data.take n)) t fun _ => True) s := by
  refine .bind ((check_range hs).mono (fun _ _ h => h) ?_) fun _ t ht => ?_
  · rintro t rfl
    exact ⟨0, data.length.zero_le, hs, lost, List.Subset.refl lost, by rw [List.take_zero, splice_nil]; exact h,
      trivial⟩
  · obtain ⟨rfl, a, n, rfl, hn, hr⟩ := ht
    have hloop : Ends (writeLoop kind .faulty data fuel a (0 : Nat)) _ _ t :=
      writeLoop_shows hk hps data fuel (n := n) (by omega) hr hs h
    refine hloop.mono (fun _ _ h => h) fun u hu => ?_
    obtain ⟨m, hm, hu⟩ := hu
    exact ⟨m, by omega, hu⟩

/-- A flush that returns has written back all but what is lost. -/
theorem flush_shows (hs : Sound ps rs k s) (h : Shows kind ps rs lost mem s) (order : SetOrder) :
    Ends (flush .faulty order)
      (fun _ t => (Sound ps rs k t ∧ Shows kind ps rs lost mem t) ∧
        ∀ i : Nat, (i : Int) ∉ lost → i * ps < rs → pageAt ps rs t.2.memory i = pageAt ps rs mem i)
      (fun t => Sound ps rs k t ∧ Shows kind ps rs lost mem t) s := by
  have hshows : Ends (flush .faulty order) (fun _ => Shows kind ps rs lost mem) (Shows kind ps rs lost mem) s :=
    .bind_get (.bind (flushPages_shows _ hs h) fun _ t ht =>
      .modifyFst ⟨ht.length_mem, ht.length_remote, ht.resident, ht.absent, ht.few.reads, ht.few.evictions⟩)
  refine ((flush_ends hs order).and hshows).mono (fun _ t ht => ?_) fun _ ht => ht
  obtain ⟨⟨hkept, hdirty⟩, ht⟩ := ht
  refine ⟨⟨by unfold Sound; rw [hdirty]; exact hkept, ht⟩, fun i hn hi => ?_⟩
  cases hg : t.1.pages.get? (i : Int) with
  | none => exact ht.absent i hg hn hi
  | some d =>
    rw [← copyOf_eq _ hi.le, ← hkept.clean i d hg List.not_mem_nil]
    exact ht.resident i d hg hn

end WriteBack

end RamLink
