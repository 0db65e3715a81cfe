import RamLink.WriteBack

/-!
# RamLink.WriteBack.Order

Which pages the write-back cache holds, over any `Api` that answers the reads of its pages with as many
bytes as they ask for, as long as it is in a state of `Inv`.

`Ordered Inv ps rs k history s`: the map lists the `k` pages touched last in `history`, each page has the
length its place asks for, the pages fetched so far are those that were not among the last `k`, and the
remote is in a state of `Inv`.

* `load_ordered`, `store_ordered`: one page.
* `read_ordered`, `write_ordered`: the operations that return, by induction on the loops.
-/

namespace RamLink

open Lib

namespace WriteBack

/-- The request that fetches a page. -/
def pageRequest (ps rs : Int) (p : Int) : Transfer := ⟨p * ps, min ps (rs - p * ps)⟩

variable {σ : Type}

structure Ordered (Inv : σ → Prop) (ps rs k : Nat) (history : List Int)
    (s : WriteBack × (σ × List Transfer)) : Prop where
  pageSize : s.1.pageSize = ps
  remoteSize : s.1.remoteSize = rs
  maxPages : s.1.maxPages = k
  keys : s.1.pages.keys = Lru.recent k history
  log : s.2.2 = (Lru.fetches k [] history).map (pageRequest ps rs)
  lengths : ∀ (i : Nat) (d : Bytes), s.1.pages.get? i = some d → d.length = width ps rs i
  remote : Inv s.2.1

variable {Inv : σ → Prop} {ps rs k : Nat} {history : List Int} {s s' : WriteBack × (σ × List Transfer)}
  {api : Api σ}

/-! ## One page -/

/-- A page that has been loaded, and the log of it if it has been fetched. -/
theorem Ordered.loaded (hk : 0 < k) (h : Ordered Inv ps rs k history s) {i : Nat} {c : WriteBack} {d : Bytes}
    (f : Fetched s.1 c i d) (hlen : d.length = width ps rs i) {t : σ × List Transfer}
    (hlog : t.2 = (Lru.fetches k [] (history ++ [(i : Int)])).map (pageRequest ps rs)) (ht : Inv t.1) :
    Ordered Inv ps rs k (history ++ [(i : Int)]) (c, t) := by
  have hkn : s.1.maxPages.toNat = k := by rw [h.maxPages]; rfl
  refine ⟨f.pageSize.trans h.pageSize, f.remoteSize.trans h.remoteSize, f.maxPages.trans h.maxPages, ?_, hlog,
    fun j e hj => ?_, ht⟩
  · show c.pages.keys = _
    rw [f.order, hkn, h.keys, Lru.touch_recent hk]
  · simp only [f.get?] at hj
    split at hj
    · rename_i hji
      obtain rfl : j = i := by omega
      cases hj
      exact hlen
    · split at hj
      · cases hj
      · exact h.lengths j e hj

/-- Loading a page touches it, and fetches it if it is not resident. -/
theorem load_ordered (kind : Kind) (hapi : api.ExactOn Inv ps rs) (hk : 0 < k) (h : Ordered Inv ps rs k history s)
    {i : Nat} (hi : i * ps < rs) {d : Bytes} (hrun : (loadPage kind api.logged i).run s = .ok d s') :
    Ordered Inv ps rs k (history ++ [(i : Int)]) s' ∧ s'.1.pages.get? i = some d ∧
      d.length = width ps rs i := by
  cases hg : s.1.pages.get? (i : Int) with
  | some e =>
    have hmem : (i : Int) ∈ Lru.recent k history := h.keys ▸ Dict.mem_keys_of_get? hg
    rw [load_hit kind api.logged hg] at hrun
    cases hrun
    have hlog : s.2.2 = (Lru.fetches k [] (history ++ [(i : Int)])).map (pageRequest ps rs) := by
      rw [Lru.fetches_append, List.nil_append, Lru.fetches_hit hmem]
      simpa [Lru.fetches] using h.log
    exact ⟨h.loaded hk (hit_spec hg) (h.lengths i d hg) hlog h.remote, by simp, h.lengths i d hg⟩
  | none =>
    have hnot : (i : Int) ∉ Lru.recent k history := h.keys ▸ Dict.get?_eq_none.mp hg
    have hmax := h.maxPages
    have hc : (i : Int) * (ps : Int) = ((i * ps : Nat) : Int) := by push_cast; rfl
    have hw : min (ps : Int) ((rs : Int) - (i : Int) * (ps : Int)) = ((width ps rs i : Nat) : Int) := by
      rw [hc, width]
      omega
    have hlogged := Api.run_logged api (i * s.1.pageSize)
      (min s.1.pageSize (s.1.remoteSize - i * s.1.pageSize)) s.2
    cases hread : (api.read (i * s.1.pageSize) (min s.1.pageSize (s.1.remoteSize - i * s.1.pageSize))).run
        s.2.1 with
    | error e t =>
      rw [hread] at hlogged
      rw [load_raises kind api.logged hg hlogged] at hrun
      cases hrun
    | ok e t =>
      rw [hread] at hlogged
      rw [load_miss kind api.logged hg (by omega) hlogged] at hrun
      cases hrun
      obtain ⟨hlen, hremote⟩ : d.length = width ps rs i ∧ Inv t := by
        have hpage : ((i * ps : Nat) : Int) + width ps rs i ≤ rs := by
          unfold width
          omega
        have hle : ((width ps rs i : Nat) : Int) ≤ ps := by
          unfold width
          omega
        rw [h.pageSize, h.remoteSize, hw, hc] at hread
        obtain ⟨hlen, hremote⟩ := hapi _ _ _ _ _ (by omega) (by omega) hle hpage h.remote hread
        exact ⟨by omega, hremote⟩
      have hlog : s.2.2 ++ [⟨i * s.1.pageSize, min s.1.pageSize (s.1.remoteSize - i * s.1.pageSize)⟩] =
          (Lru.fetches k [] (history ++ [(i : Int)])).map (pageRequest ps rs) := by
        rw [Lru.fetches_append, List.nil_append, Lru.fetches_miss hnot, List.map_append, h.log, h.pageSize,
          h.remoteSize]
        rfl
      have f := fetched_spec kind d (by omega) (Dict.get?_eq_none.mp hg)
      exact ⟨h.loaded hk f hlen hlog hremote, by simp only [f.get?, if_true], hlen⟩

/-- Changing the page that was touched last. -/
theorem store_ordered (hk : 0 < k) {i : Nat} (h : Ordered Inv ps rs k (history ++ [(i : Int)]) s)
    {inside n : Nat} {data d : Bytes} (hd : s.1.pages.get? i = some d) (hn : data.length = n)
    (hin : inside + n ≤ d.length) {u : Unit} (hrun : (storePage i inside n data).run s = .ok u s') :
    Ordered Inv ps rs k (history ++ [(i : Int)]) s' := by
  subst hn
  obtain ⟨pages, hstore, hkeys, -, hget⟩ := run_storePage hd inside data.length data
  rw [hstore] at hrun
  cases hrun
  refine ⟨h.pageSize, h.remoteSize, h.maxPages, ?_, h.log, fun j e hj => ?_, h.remote⟩
  · -- the page is the last one already
    show pages.keys = _
    rw [hkeys, h.keys, ← Lru.touch_recent hk, Lru.filter_touch]
  · simp only [hget] at hj
    split at hj
    · rename_i hji
      obtain rfl : j = i := by omega
      cases hj
      rw [length_setSlice (by omega) (by omega)]
      exact h.lengths j d hd
    · exact h.lengths j e hj

/-! ## The loops -/

theorem readLoop_ordered (kind : Kind) (hapi : api.ExactOn Inv ps rs) (hk : 0 < k) (hps : 0 < ps) (fuel : Nat)
    {out bytes : Bytes} {a n : Nat} {history : List Int} {s : WriteBack × (σ × List Transfer)} (hr : a + n ≤ rs)
    (h : Ordered Inv ps rs k history s) (hrun : (readLoop kind api.logged fuel a n out).run s = .ok bytes s') :
    Ordered Inv ps rs k (history ++ pagesOf ps a n) s' := by
  -- by the bytes that are left: a turn takes at least one
  induction n using Nat.strongRecOn generalizing fuel out a history s with
  | ind n ih =>
    rcases Nat.eq_zero_or_pos n with rfl | hn
    · rw [Nat.cast_zero, readLoop_done] at hrun
      cases hrun
      rw [pagesOf, if_pos rfl, List.append_nil]
      exact h
    cases fuel with
    | zero =>
      rw [readLoop, if_neg (by omega)] at hrun
      cases hrun
    | succ fuel =>
      -- one page, then the rest of the range
      obtain ⟨hi, -, -, hpos, -⟩ := chunk_arith hps hn hr
      cases hload : (loadPage kind api.logged ((a / ps : Nat) : Int)).run s with
      | error e t =>
        rw [readLoop, if_neg (by omega)] at hrun
        simp only [EStateM.run_bind, EStateM.run_get, h.pageSize, ← Int.ofNat_fdiv, hload] at hrun
        cases hrun
      | ok d t =>
        obtain ⟨ht, -, hlen⟩ := load_ordered kind hapi hk h hi hload
        rw [readLoop_turn kind api.logged hps hn hr h.pageSize hload hlen] at hrun
        have hle : min n (ps - a % ps) ≤ n := Nat.min_le_left _ _
        rw [pagesOf_step hps hn, ← List.singleton_append, ← List.append_assoc]
        exact ih _ (by omega) fuel (by omega) ht hrun

theorem writeLoop_ordered (kind : Kind) (hapi : api.ExactOn Inv ps rs) (hk : 0 < k) (hps : 0 < ps) (data : Bytes)
    (fuel : Nat) {a pos n : Nat} {history : List Int} {s : WriteBack × (σ × List Transfer)} {u : Unit}
    (hp : pos + n = data.length) (hr : a + n ≤ rs) (h : Ordered Inv ps rs k history s)
    (hrun : (writeLoop kind api.logged data fuel a pos).run s = .ok u s') :
    Ordered Inv ps rs k (history ++ pagesOf ps a n) s' := by
  induction n using Nat.strongRecOn generalizing fuel a pos history s with
  | ind n ih =>
    rcases Nat.eq_zero_or_pos n with rfl | hn
    · rw [writeLoop_done kind api.logged (by omega)] at hrun
      cases hrun
      rw [pagesOf, if_pos rfl, List.append_nil]
      exact h
    cases fuel with
    | zero =>
      rw [writeLoop, if_neg (by omega)] at hrun
      cases hrun
    | succ fuel =>
      -- one page, then the rest of the data
      obtain ⟨hi, hin, -, hpos, -⟩ := chunk_arith hps hn hr
      cases hload : (loadPage kind api.logged ((a / ps : Nat) : Int)).run s with
      | error e t =>
        rw [writeLoop, if_neg (by omega)] at hrun
        simp only [EStateM.run_bind, EStateM.run_get, h.pageSize, ← Int.ofNat_fdiv, hload] at hrun
        cases hrun
      | ok d t =>
        obtain ⟨ht, hget, hlen⟩ := load_ordered kind hapi hk h hi hload
        rw [writeLoop_turn kind api.logged hps hn hp hr h.pageSize hload hlen, run_bind_ok] at hrun
        obtain ⟨v, t', hstore, hrun⟩ := hrun
        have hle : min n (ps - a % ps) ≤ n := Nat.min_le_left _ _
        have hchunk : (sub data pos (min n (ps - a % ps))).length = min n (ps - a % ps) :=
          length_sub_of_le (by omega)
        have ht' := store_ordered hk ht hget hchunk (by rw [hlen]; exact hin) hstore
        rw [pagesOf_step hps hn, ← List.singleton_append, ← List.append_assoc]
        exact ih _ (by omega) fuel (by omega) (by omega) ht' hrun

/-! ## The operations -/

theorem read_ordered (kind : Kind) (hapi : api.ExactOn Inv ps rs) (hk : 0 < k) (hps : 0 < ps) {fuel a n : Nat}
    (hr : a + n ≤ rs) (h : Ordered Inv ps rs k history s) {bytes : Bytes}
    (hrun : (read kind api.logged fuel a n).run s = .ok bytes s') :
    Ordered Inv ps rs k (history ++ pagesOf ps a n) s' := by
  unfold read check at hrun
  obtain ⟨u, t, hcheck, hloop⟩ := run_bind_ok.mp hrun
  simp only [EStateM.run_bind, EStateM.run_get] at hcheck
  obtain ⟨-, rfl⟩ := run_raiseIf_ok.mp hcheck
  exact readLoop_ordered kind hapi hk hps fuel hr h hloop

theorem write_ordered (kind : Kind) (hapi : api.ExactOn Inv ps rs) (hk : 0 < k) (hps : 0 < ps) {fuel a : Nat}
    {data : Bytes} (hr : a + data.length ≤ rs) (h : Ordered Inv ps rs k history s) {u : Unit}
    (hrun : (write kind api.logged fuel a data).run s = .ok u s') :
    Ordered Inv ps rs k (history ++ pagesOf ps a data.length) s' := by
  unfold write check at hrun
  obtain ⟨v, t, hcheck, hloop⟩ := run_bind_ok.mp hrun
  simp only [EStateM.run_bind, EStateM.run_get] at hcheck
  obtain ⟨-, rfl⟩ := run_raiseIf_ok.mp hcheck
  exact writeLoop_ordered kind hapi hk hps data fuel (Nat.zero_add _) hr h hloop

theorem Ordered.start (ps rs k : Nat) {t : σ} (ht : Inv t) :
    Ordered Inv ps rs k [] (empty ps rs k, (t, ([] : List Transfer))) :=
  ⟨rfl, rfl, rfl, by simp [empty], rfl, by simp [empty], ht⟩

end WriteBack

end RamLink
