import RamLink.RemoteCache.Pages

/-!
# RamLink.RemoteCache.Order

Which pages the write-through cache holds, over any `Api`.

`Ordered b rs k history s`: the map lists the `k` pages touched last in `history`, and the pages
fetched so far are those that were not among the last `k`.

* `readPage_ordered`, `writePage_ordered`: one page.
* `read_ordered`, `write_ordered`: the operations that return, by induction on the loops.
-/

namespace RamLink

open Lib

namespace RemoteCache

/-- The request that fetches a page. -/
def pageRequest (base : Int) (p : Int) : Transfer := ⟨base + p * page, page⟩

variable {σ : Type}

structure Ordered (b : Int) (rs k : Nat) (history : List Int) (s : RemoteCache × (σ × List Transfer)) :
    Prop where
  base : s.1.base = b
  remoteSize : s.1.remoteSize = rs
  capacity : s.1.capacity = k
  keys : s.1.pages.keys = Lru.recent k history
  log : s.2.2 = (Lru.fetches k [] history).map (pageRequest b)

variable {b : Int} {ps rs k : Nat} {history : List Int} {s s' : RemoteCache × (σ × List Transfer)}
  {api : Api σ} {p : Int} {u : Unit}

/-! ## One page -/

theorem Ordered.counters (h : Ordered b rs k history s) (hits misses : Nat) :
    Ordered b rs k history ({ s.1 with hits := hits, misses := misses }, s.2) :=
  ⟨h.base, h.remoteSize, h.capacity, h.keys, h.log⟩

/-- Touching a resident page. -/
theorem Ordered.touch (hk : 0 < k) (h : Ordered b rs k history s) (hp : p ∈ s.1.pages.keys)
    (hrun : (moveToEnd p).run s = .ok u s') : Ordered b rs k (history ++ [p]) s' := by
  obtain ⟨c, t⟩ := s
  obtain ⟨pages, hmove⟩ := Dict.moveToEnd_isSome hp
  rw [run_moveToEnd hmove] at hrun
  cases hrun
  have hkeys : c.pages.keys = _ := h.keys
  have hmem : p ∈ Lru.recent k history := hkeys ▸ hp
  refine ⟨h.base, h.remoteSize, h.capacity, ?_, ?_⟩
  · show pages.keys = _
    rw [Dict.keys_moveToEnd hmove, hkeys, ← Lru.touch_recent hk, Lru.touch_hit k hmem]
  · rw [Lru.fetches_append, List.nil_append, Lru.fetches_hit hmem]
    simpa [Lru.fetches] using h.log

/-- Fetching a page that is not resident. -/
theorem loadPage_ordered (hk : 0 < k) (h : Ordered b rs k history s) (hp : p ∉ s.1.pages.keys)
    (hrun : (loadPage api.logged p).run s = .ok u s') :
    Ordered b rs k (history ++ [p]) s' ∧ p ∈ s'.1.pages.keys := by
  obtain ⟨c, t, log⟩ := s
  have hkeys : c.pages.keys = Lru.recent k history := h.keys
  have hbase : c.base = b := h.base
  have hlen : c.pages.keys.length ≤ k := by
    rw [hkeys, Lru.length_recent]
    exact Nat.min_le_left _ _
  have hlogged := Api.run_logged api (c.base + p * page) page (t, log)
  cases hread : (api.read (c.base + p * page) page).run t with
  | error e t' =>
    simp only [hread] at hlogged
    rw [run_loadPage_raises api.logged hlogged] at hrun
    cases hrun
  | ok d t' =>
    simp only [hread] at hlogged
    obtain ⟨pages, hload, htouch, -⟩ := run_loadPage api.logged hk h.capacity hlen hp hlogged
    rw [hload] at hrun
    cases hrun
    rw [hkeys] at htouch
    refine ⟨⟨h.base, h.remoteSize, h.capacity, ?_, ?_⟩, ?_⟩
    · show pages.keys = _
      rw [htouch, Lru.touch_recent hk]
    · have hlog : log = _ := h.log
      rw [Lru.fetches_append, List.nil_append, Lru.fetches_miss (hkeys ▸ hp), List.map_append]
      simp only [hlog, hbase]
      rfl
    · show p ∈ pages.keys
      rw [htouch]
      exact Lru.mem_touch_self k _ p

theorem readPage_ordered (hk : 0 < k) (h : Ordered b rs k history s) {d : Bytes}
    (hrun : (readPage api.logged p).run s = .ok d s') : Ordered b rs k (history ++ [p]) s' := by
  unfold readPage at hrun
  simp only [EStateM.run_bind, EStateM.run_get] at hrun
  cases hg : s.1.pages.get? p with
  | some e =>
    simp only [hg] at hrun
    obtain ⟨v, s1, hhits, hrun⟩ := run_bind_ok.mp hrun
    cases hhits
    obtain ⟨v, s2, hmove, hrun⟩ := run_bind_ok.mp hrun
    cases hrun
    exact (h.counters (s.1.hits + 1) s.1.misses).touch hk (Dict.mem_keys_of_get? hg) hmove
  | none =>
    simp only [hg] at hrun
    obtain ⟨v, s1, hmisses, hrun⟩ := run_bind_ok.mp hrun
    cases hmisses
    obtain ⟨v, s2, hload, hrun⟩ := run_bind_ok.mp hrun
    obtain ⟨h2, hmem⟩ := loadPage_ordered hk (h.counters s.1.hits (s.1.misses + 1))
      (Dict.get?_eq_none.mp hg) hload
    obtain ⟨e, he⟩ := Dict.mem_keys.mp hmem
    rw [run_lookup he] at hrun
    cases hrun
    exact h2

/-- Sending a page touches nothing. -/
theorem remoteWrite_frame {offset : Int} {data : Bytes}
    (hrun : (remoteWrite api.logged offset data).run s = .ok u s') : s'.1 = s.1 ∧ s'.2.2 = s.2.2 := by
  unfold remoteWrite at hrun
  simp only [EStateM.run_bind, EStateM.run_get] at hrun
  generalize s.1.base = base at hrun
  generalize blocks data.length = positions at hrun
  induction positions generalizing s with
  | nil => cases hrun; exact ⟨rfl, rfl⟩
  | cons pos positions ih =>
    rw [List.forM_cons] at hrun
    obtain ⟨v, s1, hwrite, hrun⟩ := run_bind_ok.mp hrun
    obtain ⟨h1, h2⟩ := ih hrun
    simp only [run_onSnd, Api.logged, run_onFst] at hwrite
    cases hapi : (api.write (base + offset + pos) (slice data pos (pos + maxBlock))).run s.2.1 with
    | ok w t =>
      rw [hapi] at hwrite
      cases hwrite
      exact ⟨h1, h2⟩
    | error e t =>
      rw [hapi] at hwrite
      cases hwrite

/-- Sending the changed page and touching it. -/
theorem sendPage_ordered (hk : 0 < k) (h : Ordered b rs k history s) {d bytes : Bytes}
    (hget : s.1.pages.get? p = some d) {s1 : RemoteCache × (σ × List Transfer)}
    (hsend : (remoteWrite api.logged (p * page) bytes).run
      ({ s.1 with pages := s.1.pages.modify p (fun _ => bytes) }, s.2) = .ok u s1)
    (hmove : (moveToEnd p).run s1 = .ok u s') : Ordered b rs k (history ++ [p]) s' := by
  obtain ⟨hfst, hlog⟩ := remoteWrite_frame hsend
  have hkeys : s1.1.pages.keys = s.1.pages.keys := by
    rw [hfst]
    exact Dict.keys_modify ..
  have h1 : Ordered b rs k history s1 :=
    ⟨by rw [hfst]; exact h.base, by rw [hfst]; exact h.remoteSize, by rw [hfst]; exact h.capacity,
      hkeys.trans h.keys, hlog.trans h.log⟩
  exact h1.touch hk (hkeys ▸ Dict.mem_keys_of_get? hget) hmove

theorem writePage_ordered (hk : 0 < k) (h : Ordered b rs k history s) {inside n : Int} {data : Bytes}
    (hrun : (writePage api.logged p inside n data).run s = .ok u s') :
    Ordered b rs k (history ++ [p]) s' := by
  cases hg : s.1.pages.get? p with
  | some d =>
    rw [run_writePage (.inl ⟨d, hg, rfl⟩) hg rfl] at hrun
    split at hrun
    · rename_i hsend
      exact sendPage_ordered hk (h.counters (s.1.hits + 1) s.1.misses) hg hsend hrun
    · cases hrun
  | none =>
    cases hload : (loadPage api.logged p).run ({ s.1 with misses := s.1.misses + 1 }, s.2) with
    | error e t =>
      unfold writePage at hrun
      simp only [EStateM.run_bind, EStateM.run_get, hg, run_modifyFst, hload] at hrun
      cases hrun
    | ok v s0 =>
      obtain ⟨h0, hmem⟩ := loadPage_ordered hk (h.counters s.1.hits (s.1.misses + 1))
        (Dict.get?_eq_none.mp hg) hload
      obtain ⟨d, hd⟩ := Dict.mem_keys.mp hmem
      rw [run_writePage (.inr ⟨hg, hload⟩) hd rfl] at hrun
      split at hrun
      · rename_i hsend
        -- the page has been touched twice
        have h2 := sendPage_ordered hk h0 hd hsend hrun
        exact ⟨h2.base, h2.remoteSize, h2.capacity, by rw [h2.keys, Lru.recent_again hk],
          by rw [h2.log, Lru.fetches_again hk]⟩
      · cases hrun

/-! ## The loops -/

theorem readLoop_ordered (hps : page = ps) (hpos : 0 < ps) (hk : 0 < k) (fuel : Nat) :
    ∀ {out bytes : Bytes} {a n : Nat} {history : List Int} {s : RemoteCache × (σ × List Transfer)},
      Ordered b rs k history s → (readLoop api.logged fuel a n out).run s = .ok bytes s' →
      Ordered b rs k (history ++ pagesOf ps a n) s' := by
  have hdone : ∀ {fuel : Nat} {out bytes : Bytes} {a : Nat} {history : List Int}
      {s : RemoteCache × (σ × List Transfer)}, Ordered b rs k history s →
      (readLoop api.logged fuel a ((0 : Nat) : Int) out).run s = .ok bytes s' →
      Ordered b rs k (history ++ pagesOf ps a 0) s' := by
    intro fuel out bytes a history s h hrun
    rw [readLoop_done] at hrun
    cases hrun
    rw [pagesOf, if_pos rfl, List.append_nil]
    exact h
  induction fuel with
  | zero =>
    intro out bytes a n history s h hrun
    rcases Nat.eq_zero_or_pos n with rfl | hn
    · exact hdone h hrun
    · rw [readLoop, if_neg (by omega)] at hrun
      cases hrun
  | succ fuel ih =>
    intro out bytes a n history s h hrun
    rcases Nat.eq_zero_or_pos n with rfl | hn
    · exact hdone h hrun
    rw [readLoop_step api.logged hps hpos hn] at hrun
    obtain ⟨d, s1, hread, hrun⟩ := run_bind_ok.mp hrun
    rw [pagesOf_step hpos hn, ← List.singleton_append, ← List.append_assoc]
    exact ih (readPage_ordered hk h hread) hrun

theorem writeLoop_ordered (hps : page = ps) (hpos : 0 < ps) (hk : 0 < k) (a : Nat) (data : Bytes)
    (fuel : Nat) : ∀ {pos n : Nat} {history : List Int} {s : RemoteCache × (σ × List Transfer)},
      pos + n = data.length → Ordered b rs k history s →
      (writeLoop api.logged a data fuel pos).run s = .ok u s' →
      Ordered b rs k (history ++ pagesOf ps (a + pos) n) s' := by
  have hdone : ∀ {fuel pos : Nat} {history : List Int} {s : RemoteCache × (σ × List Transfer)},
      data.length ≤ pos → Ordered b rs k history s →
      (writeLoop api.logged a data fuel pos).run s = .ok u s' →
      Ordered b rs k (history ++ pagesOf ps (a + pos) 0) s' := by
    intro fuel pos history s hp h hrun
    rw [writeLoop_done api.logged hp] at hrun
    cases hrun
    rw [pagesOf, if_pos rfl, List.append_nil]
    exact h
  induction fuel with
  | zero =>
    intro pos n history s hp h hrun
    rcases Nat.eq_zero_or_pos n with rfl | hn
    · exact hdone hp.ge h hrun
    · rw [writeLoop, if_neg (by omega)] at hrun
      cases hrun
  | succ fuel ih =>
    intro pos n history s hp h hrun
    rcases Nat.eq_zero_or_pos n with rfl | hn
    · exact hdone hp.ge h hrun
    rw [writeLoop_step api.logged hps hpos hn hp] at hrun
    obtain ⟨v, s1, hwrite, hrun⟩ := run_bind_ok.mp hrun
    have hle : min n (ps - (a + pos) % ps) ≤ n := Nat.min_le_left _ _
    rw [pagesOf_step hpos hn, ← List.singleton_append, ← List.append_assoc, Nat.add_assoc]
    exact ih (by omega) (writePage_ordered hk h hwrite) hrun

/-! ## The operations -/

theorem read_ordered (hps : page = ps) (hpos : 0 < ps) (hk : 0 < k) {fuel a n : Nat}
    (h : Ordered b rs k history s) {bytes : Bytes}
    (hrun : (read api.logged fuel a n).run s = .ok bytes s') :
    Ordered b rs k (history ++ pagesOf ps a n) s' := by
  by_cases hc : (a : Int) < 0 ∨ s.1.remoteSize < (a : Int) + n
  · simp only [read, EStateM.run_bind, EStateM.run_get, run_raiseIf, if_pos hc] at hrun
    cases hrun
  · simp only [read, EStateM.run_bind, EStateM.run_get, run_raiseIf, if_neg hc] at hrun
    exact readLoop_ordered hps hpos hk fuel h hrun

theorem write_ordered (hps : page = ps) (hpos : 0 < ps) (hk : 0 < k) {fuel a : Nat} {data : Bytes}
    (h : Ordered b rs k history s) (hrun : (write api.logged fuel a data).run s = .ok u s') :
    Ordered b rs k (history ++ pagesOf ps a data.length) s' := by
  by_cases hc : (a : Int) < 0 ∨ s.1.remoteSize < (a : Int) + data.length
  · simp only [write, EStateM.run_bind, EStateM.run_get, run_raiseIf, if_pos hc] at hrun
    cases hrun
  · simp only [write, EStateM.run_bind, EStateM.run_get, run_raiseIf, if_neg hc] at hrun
    exact writeLoop_ordered hps hpos hk a data fuel (Nat.zero_add _) h hrun

theorem Ordered.start (b : Int) (rs k : Nat) (t : σ) :
    Ordered b rs k [] (⟨b, rs, k, .empty, 0, 0⟩, (t, ([] : List Transfer))) :=
  ⟨rfl, rfl, rfl, by simp, rfl⟩

end RemoteCache

end RamLink
