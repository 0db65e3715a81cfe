import Mathlib.Logic.Function.Basic
import RamLink.CacheManager
import RamLink.Lib.Outcome

/-!
# RamLink.WriteBack.Progress

When the loops of the write-back cache end, over a peer that answers a read with any bytes.

A turn goes on by what is left of its page, which is as long as the answer was. `ReadMoves` and
`WriteMoves` follow the lengths of the pages a call meets, and say that each turn gets on.

* `readLoop_stuck`, `writeLoop_stuck`: a turn that comes to a page behind its end never leaves it,
  but for a write whose negative slice bounds carry it over the end of the page.
* `readLoop_finishes_iff`, `writeLoop_finishes_iff`: by induction on what is left to move.
* `finishes_iff`: the two calls of `RemoteMemoryCache`, in every state that any calls lead to.
-/

namespace RamLink

open Lib

namespace WriteBack

/-- The length of page `p` once it is loaded, and the answers that are left; `none` if it cannot be
read. -/
def arrive (order : List Int) (lens : Int → Nat) (answers : Nat → Option Bytes) (p : Int) :
    Option (Nat × (Nat → Option Bytes)) :=
  if p ∈ order then some (lens p, answers)
  else (answers 0).map fun d => (d.length, fun i => answers (i + 1))

/-- Every page that a read meets is longer than the position it comes to. `order` and `lens` are the
cached pages and their lengths; a page that cannot be read ends the loop. -/
def ReadMoves (ps : Int) (k : Nat) :
    Nat → List Int → (Int → Nat) → (Nat → Option Bytes) → Int → Nat → Prop
  | 0, _, _, _, _, _ => True
  | turns + 1, order, lens, answers, offset, length =>
    length = 0 ∨
    match arrive order lens answers (offset.fdiv ps) with
    | none => True
    | some (len, answers') =>
      offset.fmod ps < len ∧
        ReadMoves ps k turns (Lru.touch k order (offset.fdiv ps))
          (Function.update lens (offset.fdiv ps) len) answers'
          (offset + min (length : Int) (len - offset.fmod ps))
          (length - (min (length : Int) (len - offset.fmod ps)).toNat)

/-- The length of a page of `len` bytes after `page[x:x + n] = data[pos:pos + n]`, for `size` bytes of
data. -/
def stored (len size : Nat) (x n pos : Int) : Nat :=
  pyIndex len x + (pyIndex size (pos + n) - pyIndex size pos) +
    (len - max (pyIndex len x) (pyIndex len (x + n)))

/-- The same for a write of `size` bytes, which has two ways on: into the page, or, `gap` bytes behind
its end, over it. -/
def WriteMoves (ps : Int) (k size : Nat) :
    Nat → List Int → (Int → Nat) → (Nat → Option Bytes) → Int → Nat → Prop
  | 0, _, _, _, _, _ => True
  | turns + 1, order, lens, answers, offset, pos =>
    size ≤ pos ∨
    match arrive order lens answers (offset.fdiv ps) with
    | none => True
    | some (len, answers') =>
      let x := offset.fmod ps
      let order' := Lru.touch k order (offset.fdiv ps)
      if x < len then
        let n := min ((size : Int) - pos) (len - x)
        WriteMoves ps k size turns order'
          (Function.update lens (offset.fdiv ps) (stored len size x n pos)) answers' (offset + n)
          (pos + n.toNat)
      else
        let gap := (x - len).toNat
        pos < gap ∧ ps + gap ≤ (len : Int) + size ∧
          WriteMoves ps k size turns order' (Function.update lens (offset.fdiv ps) len) answers'
            (offset + (size - 2 * gap)) (pos + (size - 2 * gap))

/-! ## Loading a page -/

structure Sees (ps : Int) (k : Nat) (order : List Int) (lens : Int → Nat) (answers : Nat → Option Bytes)
    (s : WriteBack × Peer) : Prop where
  pageSize : s.1.pageSize = ps
  maxPages : s.1.maxPages = k
  keys : s.1.pages.keys = order
  lengths : ∀ p d, s.1.pages.get? p = some d → d.length = lens p
  answers : s.2.answers = answers

variable {ps : Int} {k : Nat} {order : List Int} {lens : Int → Nat} {answers : Nat → Option Bytes}
  {s : WriteBack × Peer} {p : Int}

theorem run_peer_read (offset length : Int) (t : Peer) : (Api.peer.read offset length).run t =
    match t.answers 0 with
    | none => .error (.connectionError "memory service disconnected")
        { t with answers := fun i => t.answers (i + 1) }
    | some d => .ok d { t with answers := fun i => t.answers (i + 1) } := by
  simp only [Api.peer, EStateM.run_bind, EStateM.run_get, EStateM.run_set]
  cases t.answers 0 <;> rfl

theorem Sees.loaded (h : Sees ps k order lens answers s) {c : WriteBack} {d : Bytes} (f : Fetched s.1 c p d)
    (t : Peer) : Sees ps k (Lru.touch k order p) (Function.update lens p d.length) t.answers (c, t) := by
  have hkn : s.1.maxPages.toNat = k := by rw [h.maxPages]; rfl
  refine ⟨f.pageSize.trans h.pageSize, f.maxPages.trans h.maxPages, ?_, fun j e hj => ?_, rfl⟩
  · show c.pages.keys = _
    rw [f.order, hkn, h.keys]
  · simp only [f.get?] at hj
    split at hj
    · rename_i hjp
      cases hj
      rw [hjp, Function.update_self]
    · rename_i hjp
      rw [Function.update_of_ne hjp]
      split at hj
      · cases hj
      · exact h.lengths j e hj

/-- `_load_page`, as the lengths of the pages tell it. -/
theorem load_sees (kind : Kind) (hk : 0 < k) (h : Sees ps k order lens answers s) (p : Int) :
    match arrive order lens answers p with
    | none => ∃ e t, (loadPage kind .peer p).run s = .error e t ∧ e ≠ .outOfFuel
    | some (len, answers') => ∃ d t, (loadPage kind .peer p).run s = .ok d t ∧ d.length = len ∧
        t.1.pages.get? p = some d ∧
        Sees ps k (Lru.touch k order p) (Function.update lens p len) answers' t := by
  have hkeys := h.keys
  have hanswers := h.answers
  have hmax := h.maxPages
  unfold arrive
  by_cases hmem : p ∈ order
  · obtain ⟨d, hd⟩ := Dict.mem_keys.mp (hkeys ▸ hmem)
    have hlen := h.lengths p d hd
    rw [if_pos hmem]
    refine ⟨d, _, load_hit kind .peer hd, hlen, by simp, ?_⟩
    rw [← hlen, ← hanswers]
    exact h.loaded (hit_spec hd) s.2
  · rw [if_neg hmem]
    have hnot : p ∉ s.1.pages.keys := hkeys ▸ hmem
    have hg := Dict.get?_eq_none.mpr hnot
    have hread := run_peer_read (p * s.1.pageSize)
      (min s.1.pageSize (s.1.remoteSize - p * s.1.pageSize)) s.2
    rw [← hanswers]
    cases ha : s.2.answers 0 with
    | none =>
      rw [ha] at hread
      exact ⟨_, _, load_raises kind .peer hg hread, by simp⟩
    | some d =>
      rw [ha] at hread
      have f := fetched_spec kind d (by omega) hnot
      exact ⟨d, _, load_miss kind .peer hg (by omega) hread, rfl, by simp only [f.get?, if_true],
        h.loaded f ⟨fun i => s.2.answers (i + 1), s.2.refuses⟩⟩

/-! ## Positions in a page -/

theorem pos_of_fmod_pos {a b : Int} (hb : b ≠ 0) (h : 0 < a.fmod b) : 0 < b := by
  by_contra hneg
  have hlt := Int.emod_lt_of_neg a (by omega : b < 0)
  rw [Int.fmod_eq_emod] at h
  split at h
  · rename_i hd
    have := Int.emod_eq_zero_of_dvd (hd.resolve_left (by omega))
    omega
  · omega

/-- A move within a page. -/
theorem fdiv_fmod_move {a b m : Int} (hb : b ≠ 0) (h0 : m = 0 ∨ 0 < b) (h1 : m = 0 ∨ 0 ≤ a.fmod b + m)
    (h2 : m = 0 ∨ a.fmod b + m < b) :
    (a + m).fdiv b = a.fdiv b ∧ (a + m).fmod b = a.fmod b + m := by
  rcases Decidable.em (m = 0) with rfl | hm
  · simp
  · have hmod : (a + m).fmod b = a.fmod b + m := by
      rw [← Int.fmod_add_fmod, Int.fmod_eq_of_lt (h1.resolve_left hm) (h2.resolve_left hm)]
    refine ⟨?_, hmod⟩
    have hdiv := Int.mul_fdiv_add_fmod (a + m) b
    rw [hmod] at hdiv
    have hdiv' := Int.mul_fdiv_add_fmod a b
    exact Int.eq_of_mul_eq_mul_left hb (by omega)

/-- A move back to position `m` of a page. -/
theorem fdiv_fmod_back (offset : Int) {m : Int} (hps : ps ≠ 0) (h0 : 0 ≤ m) (hm : m ≤ offset.fmod ps) :
    (offset + (m - offset.fmod ps)).fdiv ps = offset.fdiv ps ∧
      (offset + (m - offset.fmod ps)).fmod ps = m := by
  have hpos : m - offset.fmod ps = 0 ∨ 0 < ps := by
    by_cases hz : m - offset.fmod ps = 0
    · exact .inl hz
    · exact .inr (pos_of_fmod_pos (a := offset) hps (by omega))
  have hlt : m - offset.fmod ps = 0 ∨ offset.fmod ps + (m - offset.fmod ps) < ps := by
    rcases hpos with hz | hpos
    · exact .inl hz
    · have := Int.fmod_lt_of_pos offset hpos
      omega
  obtain ⟨hdiv, hmod⟩ := fdiv_fmod_move hps hpos (.inr (by omega)) hlt
  exact ⟨hdiv, by omega⟩

/-! ## Reads -/

section Read

variable {σ : Type} {s t : WriteBack × σ} {d : Bytes} {offset length : Int}

theorem readLoop_zero (kind : Kind) (api : Api σ) (hl : length ≠ 0) (out : Bytes) :
    (readLoop kind api 0 offset length out).run s = .error .outOfFuel s := by
  unfold readLoop
  rw [if_neg hl]
  rfl

/-- A turn, whatever the length of its page is. -/
theorem readLoop_next (kind : Kind) (api : Api σ) (hl : length ≠ 0) (hsize : s.1.pageSize = ps)
    (hload : (loadPage kind api (offset.fdiv ps)).run s = .ok d t) (fuel : Nat) (out : Bytes) :
    (readLoop kind api (fuel + 1) offset length out).run s =
      (readLoop kind api fuel (offset + min length (d.length - offset.fmod ps))
        (length - min length (d.length - offset.fmod ps))
        (out ++ slice d (offset.fmod ps)
          (offset.fmod ps + min length (d.length - offset.fmod ps)))).run t := by
  rw [readLoop, if_neg hl]
  simp only [EStateM.run_bind, EStateM.run_get, hsize, hload]

/-- A turn that comes to page `p` finds `d` there, and leaves it there. -/
def Comes (kind : Kind) (api : Api σ) (ps p : Int) (d : Bytes) (s : WriteBack × σ) : Prop :=
  s.1.pageSize = ps ∧ ∃ t, (loadPage kind api p).run s = .ok d t ∧ t.1.pageSize = ps ∧
    t.1.pages.get? p = some d

theorem comes_of_get? (kind : Kind) (api : Api σ) (hsize : s.1.pageSize = ps)
    (hget : s.1.pages.get? p = some d) : Comes kind api ps p d s :=
  ⟨hsize, _, load_hit kind api hget, hsize, by simp⟩

/-- A read that comes to a page behind its end. -/
theorem readLoop_stuck (kind : Kind) (api : Api σ) (hps : ps ≠ 0) (fuel : Nat) :
    ∀ {s : WriteBack × σ} {offset length : Int} {out : Bytes}, Comes kind api ps (offset.fdiv ps) d s →
      (d.length : Int) ≤ offset.fmod ps → 0 < length →
      ∃ t, (readLoop kind api fuel offset length out).run s = .error .outOfFuel t := by
  induction fuel with
  | zero => exact fun _ _ hl => ⟨_, readLoop_zero kind api (by omega) _⟩
  | succ fuel ih =>
    rintro s offset length out ⟨hsize, t, hload, ht, hget⟩ hend hl
    have hn : min length ((d.length : Int) - offset.fmod ps) = d.length - offset.fmod ps := by omega
    rw [readLoop_next kind api (by omega) hsize hload, hn]
    -- the next turn comes to the end of the same page
    obtain ⟨hdiv, hmod⟩ := fdiv_fmod_back offset hps (Int.natCast_nonneg d.length) hend
    refine ih (hdiv ▸ comes_of_get? kind api ht hget) ?_ (by omega)
    rw [hmod]

end Read

theorem readLoop_finishes_iff (kind : Kind) (hk : 0 < k) (hps : ps ≠ 0) (turns : Nat) :
    ∀ {order : List Int} {lens : Int → Nat} {answers : Nat → Option Bytes} {s : WriteBack × Peer}
      {offset : Int} {length : Nat} {out : Bytes}, length ≤ turns → Sees ps k order lens answers s →
      (Finishes (fun fuel => readLoop kind .peer fuel offset length out) s ↔
        ReadMoves ps k turns order lens answers offset length) := by
  have hdone : ∀ {s : WriteBack × Peer} {offset : Int} {out : Bytes},
      Finishes (fun fuel => readLoop kind .peer fuel offset ((0 : Nat) : Int) out) s :=
    Finishes.of_ok 0 (readLoop_done kind .peer 0 _ _)
  induction turns with
  | zero =>
    intro order lens answers s offset length out hl h
    obtain rfl : length = 0 := by omega
    exact iff_of_true hdone trivial
  | succ turns ih =>
    intro order lens answers s offset length out hl h
    rcases Nat.eq_zero_or_pos length with rfl | hpos
    · exact iff_of_true hdone (.inl rfl)
    have hne : (length : Int) ≠ 0 := by omega
    rw [ReadMoves, or_iff_right (by omega)]
    have hload := load_sees kind hk h (offset.fdiv ps)
    cases harrive : arrive order lens answers (offset.fdiv ps) with
    | none =>
      rw [harrive] at hload
      obtain ⟨e, t, hload, he⟩ := hload
      refine iff_of_true (Finishes.of_error 1 (e := e) (t := t) ?_ he) trivial
      rw [readLoop, if_neg hne]
      simp only [EStateM.run_bind, EStateM.run_get, h.pageSize, hload]
    | some a =>
      obtain ⟨len, answers'⟩ := a
      rw [harrive] at hload
      obtain ⟨d, t, hload, rfl, hget, ht⟩ := hload
      by_cases hin : offset.fmod ps < d.length
      · -- the turn takes bytes from the page
        have hcast : (length : Int) - min (length : Int) (d.length - offset.fmod ps) =
            ((length - (min (length : Int) (d.length - offset.fmod ps)).toNat : Nat) : Int) := by omega
        rw [Finishes.turn_iff ⟨s, readLoop_zero kind .peer hne out⟩
          (fun fuel => readLoop_next kind .peer hne h.pageSize hload fuel out), hcast]
        exact (ih (by omega) ht).trans (and_iff_right hin).symm
      · -- it does not, now or ever
        have hcomes : Comes kind .peer ps (offset.fdiv ps) d s := ⟨h.pageSize, t, hload, ht.pageSize, hget⟩
        refine iff_of_false (Finishes.not_of_stuck fun fuel => ?_) (fun hr => hin hr.1)
        exact readLoop_stuck kind .peer hps fuel hcomes (by omega) (by omega)

/-! ## Writes -/

theorem length_stored (d data : Bytes) (x n pos : Int) :
    (setSlice d x (x + n) (slice data pos (pos + n))).length = stored d.length data.length x n pos := by
  rw [length_setSlice_eq, length_slice_eq, stored]

/-- Where a write does not get on: `len` bytes are on the page, `x` is the position it comes to, and `pos`
the one in the data. From `back` the next turn is `still`, and from `grow` it is `cut`, then `still` or
`grow` again. -/
inductive Stuck (ps size len x pos : Int) : Prop where
  | still : x = len → pos < size → Stuck ps size len x pos
  | back : len < x → x < ps → 0 ≤ pos → pos < size → x - len ≤ pos ∨ size ≤ x - len →
      Stuck ps size len x pos
  /-- The bytes from `pos` on, but for the last `x - len - pos` of them, will be put at the page's end. -/
  | grow : len < x → x < ps → 0 ≤ pos → pos < x - len → x - len < size → 2 * len + size < x + ps →
      Stuck ps size len x pos
  /-- The bytes that have just been put there are taken off again, or replaced. -/
  | cut : 0 ≤ x → x < len → len < x + size → x + size - len + pos ≥ 0 → pos < 0 → len < ps →
      2 * x + size < len + ps → Stuck ps size len x pos

/-- Behind the end of the page, with bytes that the negative end of the slice takes. -/
theorem stored_grown (len size : Nat) {x pos : Int} (hx : len ≤ x) (h0 : 0 ≤ pos) (hpos : pos < x - len)
    (hsize : x - len ≤ size) : (stored len size x (len - x) pos : Int) = 2 * len + size - x := by
  have hi := pyIndex_of_nonneg (n := len) (by omega : 0 ≤ x)
  have hj := pyIndex_of_nonneg (n := len) (by omega : 0 ≤ x + (len - x))
  have hp := pyIndex_of_nonneg (n := size) h0
  have hq := pyIndex_of_neg (n := size) (by omega : pos + (len - x) < 0)
  unfold stored
  omega

/-- The rest of the page is replaced by a slice that is empty, as it begins before the data and ends in them. -/
theorem stored_cut (len size : Nat) {x pos : Int} (h0 : 0 ≤ x) (hx : x < len) (hpos : pos < 0)
    (hend : 0 ≤ pos + (len - x)) (hsize : len - x ≤ size) : (stored len size x (len - x) pos : Int) = x := by
  have hi := pyIndex_of_nonneg (n := len) h0
  have hj := pyIndex_of_nonneg (n := len) (by omega : 0 ≤ x + (len - x))
  have hp := pyIndex_of_neg (n := size) hpos
  have hq := pyIndex_of_nonneg (n := size) hend
  unfold stored
  omega

/-- One turn of such a write, which stays on its page. -/
theorem Stuck.next {ps : Int} {len size : Nat} {x pos : Int} (h : Stuck ps size len x pos) :
    pos < size ∧ (min (size - pos) (len - x) = 0 ∨
        0 ≤ x + min (size - pos) (len - x) ∧ x + min (size - pos) (len - x) < ps) ∧
      Stuck ps size (stored len size x (min (size - pos) (len - x)) pos)
      (x + min (size - pos) (len - x)) (pos + min (size - pos) (len - x)) := by
  generalize hn : min ((size : Int) - pos) (len - x) = n
  have hs : stored len size x n pos = pyIndex len x + (pyIndex size (pos + n) - pyIndex size pos) +
      (len - max (pyIndex len x) (pyIndex len (x + n))) := rfl
  cases h with
  | still hx hpos =>
    obtain rfl : n = 0 := by omega
    have hi := pyIndex_of_nonneg (n := len) (by omega : 0 ≤ x)
    rw [Int.add_zero, Int.add_zero] at hs ⊢
    exact ⟨hpos, .inl rfl, .still (by omega) hpos⟩
  | back hx hps h0 hpos hgap =>
    obtain rfl : n = len - x := by omega
    have hi := pyIndex_of_nonneg (n := len) (by omega : 0 ≤ x)
    have hj := pyIndex_of_nonneg (n := len) (by omega : 0 ≤ x + (len - x))
    have hp := pyIndex_of_nonneg (n := size) h0
    refine ⟨hpos, .inr (by omega), .still ?_ (by omega)⟩
    rcases lt_or_ge (pos + (len - x)) 0 with hneg | hnn
    · have hq := pyIndex_of_neg (n := size) hneg
      omega
    · have hq := pyIndex_of_nonneg (n := size) hnn
      omega
  | grow hx hps h0 hgap hsize hfit =>
    obtain rfl : n = len - x := by omega
    have hgrown := stored_grown len size hx.le h0 hgap hsize.le
    clear hs hn
    refine ⟨by omega, .inr (by omega), .cut ?_ ?_ ?_ ?_ ?_ ?_ ?_⟩ <;> omega
  | cut h0 hx hlen hfrom hneg hps hfit =>
    obtain rfl : n = len - x := by omega
    rcases lt_or_ge (pos + (len - x)) 0 with hback | hend
    · have hi := pyIndex_of_nonneg (n := len) h0
      have hj := pyIndex_of_nonneg (n := len) (by omega : 0 ≤ x + (len - x))
      have hp := pyIndex_of_neg (n := size) hneg
      have hq := pyIndex_of_neg (n := size) hback
      have hsame : stored len size x (len - x) pos = len := by
        rw [hs]
        omega
      exact ⟨by omega, .inr (by omega), .still (by omega) (by omega)⟩
    · have hcut := stored_cut len size h0 hx hneg hend (by omega)
      clear hs hn
      refine ⟨by omega, .inr (by omega), .grow ?_ ?_ ?_ ?_ ?_ ?_⟩ <;> omega

section Write

variable {σ : Type} {s t : WriteBack × σ} {d data : Bytes} {offset pos : Int}

theorem writeLoop_zero (kind : Kind) (api : Api σ) (hp : pos < data.length) :
    (writeLoop kind api data 0 offset pos).run s = .error .outOfFuel s := by
  unfold writeLoop
  rw [if_neg (by omega)]
  rfl

/-- A turn, whatever the length of its page is. -/
theorem writeLoop_next (kind : Kind) (api : Api σ) (hp : pos < data.length) (hsize : s.1.pageSize = ps)
    (hload : (loadPage kind api (offset.fdiv ps)).run s = .ok d t)
    (hget : t.1.pages.get? (offset.fdiv ps) = some d) {x n : Int} (hx : offset.fmod ps = x)
    (hn : min (data.length - pos) (d.length - x) = n) :
    ∃ pages, (∀ fuel, (writeLoop kind api data (fuel + 1) offset pos).run s =
        (writeLoop kind api data fuel (offset + n) (pos + n)).run
          ({ t.1 with pages := pages, dirty := addDirty (offset.fdiv ps) t.1.dirty }, t.2)) ∧
      pages.keys = t.1.pages.keys.filter (fun q => decide (q ≠ offset.fdiv ps)) ++ [offset.fdiv ps] ∧
      ∀ j, pages.get? j = if j = offset.fdiv ps
        then some (setSlice d x (x + n) (slice data pos (pos + n))) else t.1.pages.get? j := by
  obtain ⟨pages, hstore, hkeys, -, hpages⟩ := run_storePage hget x n (slice data pos (pos + n))
  refine ⟨pages, fun fuel => ?_, hkeys, hpages⟩
  rw [writeLoop, if_neg (by omega)]
  simp only [EStateM.run_bind, EStateM.run_get, hsize, hload, hx, hn, hstore]

theorem writeLoop_stuck (kind : Kind) (api : Api σ) (hps : ps ≠ 0) (fuel : Nat) :
    ∀ {s : WriteBack × σ} {offset pos : Int} {d : Bytes}, Comes kind api ps (offset.fdiv ps) d s →
      Stuck ps data.length d.length (offset.fmod ps) pos →
      ∃ t, (writeLoop kind api data fuel offset pos).run s = .error .outOfFuel t := by
  induction fuel with
  | zero => exact fun _ h => ⟨_, writeLoop_zero kind api h.next.1⟩
  | succ fuel ih =>
    rintro s offset pos d ⟨hsize, t, hload, ht, hget⟩ h
    obtain ⟨hpos, hwithin, hnext⟩ := h.next
    generalize hn : min ((data.length : Int) - pos) (d.length - offset.fmod ps) = n at hwithin hnext
    obtain ⟨pages, hturn, -, hpages⟩ := writeLoop_next kind api hpos hsize hload hget rfl hn
    -- the next turn comes to the same page
    have hsame : (offset + n).fdiv ps = offset.fdiv ps ∧ (offset + n).fmod ps = offset.fmod ps + n :=
      fdiv_fmod_move hps (by omega) (by omega) (by omega)
    rw [hturn]
    refine ih (d := setSlice d (offset.fmod ps) (offset.fmod ps + n) (slice data pos (pos + n))) ?_ ?_
    · refine comes_of_get? kind api ht ?_
      rw [hsame.1, hpages, if_pos rfl]
    · rw [hsame.2, length_stored]
      exact hnext

end Write

/-- A turn, as the lengths of the pages tell it. -/
theorem writeLoop_sees (kind : Kind) (hk : 0 < k) (h : Sees ps k order lens answers s) {data : Bytes}
    {offset pos : Int} (hp : pos < data.length) {len : Nat} {answers' : Nat → Option Bytes}
    (harrive : arrive order lens answers (offset.fdiv ps) = some (len, answers')) {n : Int}
    (hn : min (data.length - pos) (len - offset.fmod ps) = n) :
    ∃ u, (∀ fuel, (writeLoop kind .peer data (fuel + 1) offset pos).run s =
        (writeLoop kind .peer data fuel (offset + n) (pos + n)).run u) ∧
      Sees ps k (Lru.touch k order (offset.fdiv ps))
        (Function.update lens (offset.fdiv ps) (stored len data.length (offset.fmod ps) n pos)) answers' u := by
  have hload := load_sees kind hk h (offset.fdiv ps)
  rw [harrive] at hload
  obtain ⟨d, t, hload, rfl, hget, ht⟩ := hload
  obtain ⟨pages, hturn, hkeys, hpages⟩ := writeLoop_next kind .peer hp h.pageSize hload hget rfl hn
  refine ⟨_, hturn, ht.pageSize, ht.maxPages, ?_, fun j e hj => ?_, ht.answers⟩
  · show pages.keys = _
    rw [hkeys, ht.keys, Lru.filter_touch]
  · simp only [hpages] at hj
    split at hj
    · rename_i hjp
      cases hj
      rw [hjp, Function.update_self, length_stored]
    · rename_i hjp
      have := ht.lengths j e hj
      rwa [Function.update_of_ne hjp] at this ⊢

/-- Two turns that carry a write over the end of its page: the page grows by the data but for `gap` bytes,
and is cut back. -/
theorem writeLoop_over (kind : Kind) (hk : 0 < k) (hps : ps ≠ 0) (h : Sees ps k order lens answers s)
    {data : Bytes} {offset : Int} {pos len gap : Nat} {answers' : Nat → Option Bytes}
    (harrive : arrive order lens answers (offset.fdiv ps) = some (len, answers'))
    (hgap : offset.fmod ps = len + gap) (hpos : pos < gap) (hover : ps + gap ≤ (len : Int) + data.length) :
    ∃ u, (Finishes (fun fuel => writeLoop kind .peer data fuel offset pos) s ↔
        Finishes (fun fuel => writeLoop kind .peer data fuel (offset + (data.length - 2 * gap))
          ((pos + (data.length - 2 * gap) : Nat) : Int)) u) ∧
      Sees ps k (Lru.touch k order (offset.fdiv ps)) (Function.update lens (offset.fdiv ps) len) answers' u := by
  have hlt := Int.fmod_lt_of_pos offset (pos_of_fmod_pos (a := offset) hps (by omega))
  -- back to the end of the page, which grows
  have hfirst : min ((data.length : Int) - pos) (len - offset.fmod ps) = len - offset.fmod ps := by omega
  obtain ⟨u, hturn, hu⟩ := writeLoop_sees kind hk h (by omega : (pos : Int) < data.length) harrive hfirst
  have hgrown : stored len data.length (offset.fmod ps) (len - offset.fmod ps) pos =
      len + data.length - gap := by
    have := stored_grown len data.length (x := offset.fmod ps) (by omega) (Int.natCast_nonneg pos) (by omega)
      (by omega)
    omega
  rw [hgrown] at hu
  obtain ⟨hdiv, hmod⟩ := fdiv_fmod_back offset hps (Int.natCast_nonneg len) (by omega)
  have harrive' : arrive (Lru.touch k order (offset.fdiv ps))
      (Function.update lens (offset.fdiv ps) (len + data.length - gap)) answers'
      ((offset + (len - offset.fmod ps)).fdiv ps) = some (len + data.length - gap, answers') := by
    rw [hdiv, arrive, if_pos (Lru.mem_touch_self ..), Function.update_self]
  -- on by what has been put there, which is taken off again
  obtain ⟨v, hturn', hv⟩ := writeLoop_sees kind hk hu
    (by omega : (pos : Int) + (len - offset.fmod ps) < data.length) harrive'
    (n := (data.length : Int) - gap) (by rw [hmod]; omega)
  have hcut : stored (len + data.length - gap) data.length len ((data.length : Int) - gap)
      (pos + (len - offset.fmod ps)) = len := by
    have hn : ((len + data.length - gap : Nat) : Int) - len = data.length - gap := by omega
    have := stored_cut (len + data.length - gap) data.length (Int.natCast_nonneg len) (by omega)
      (by omega : (pos : Int) + (len - offset.fmod ps) < 0) (by omega) (by omega)
    rw [hn] at this
    omega
  rw [hmod, hdiv, hcut, Function.update_idem, Lru.touch_hit k (Lru.mem_touch_self ..), Lru.filter_touch]
    at hv
  refine ⟨v, ?_, hv⟩
  have hoffset : offset + (len - offset.fmod ps) + ((data.length : Int) - gap) =
      offset + (data.length - 2 * gap) := by omega
  have hdata : (pos : Int) + (len - offset.fmod ps) + ((data.length : Int) - gap) =
      ((pos + (data.length - 2 * gap) : Nat) : Int) := by omega
  rw [hoffset, hdata] at hturn'
  rw [Finishes.turn_iff ⟨s, writeLoop_zero kind .peer (by omega)⟩ hturn,
    Finishes.turn_iff ⟨u, writeLoop_zero kind .peer (by omega)⟩ hturn']

/-- Behind the end of its page, a write that is not carried over it does not get on. -/
theorem stuck_of_behind {offset ps size len x : Int} {pos : Nat} (hps : ps ≠ 0) (hx : x = offset.fmod ps)
    (hlen : 0 ≤ len) (hend : len ≤ x) (hpos : pos < size)
    (hno : ¬ ((pos : Int) < x - len ∧ ps + (x - len) ≤ len + size)) : Stuck ps size len x pos := by
  rcases Decidable.em (x = len) with heq | hne
  · exact .still heq hpos
  have hlt := Int.fmod_lt_of_pos offset (pos_of_fmod_pos (a := offset) hps (by omega))
  by_cases hback : x - len ≤ pos ∨ size ≤ x - len
  · exact .back (by omega) (by omega) (by omega) hpos hback
  · refine .grow ?_ ?_ ?_ ?_ ?_ ?_ <;> omega

theorem writeLoop_finishes_iff (kind : Kind) (hk : 0 < k) (hps : ps ≠ 0) (data : Bytes) (turns : Nat) :
    ∀ {order : List Int} {lens : Int → Nat} {answers : Nat → Option Bytes} {s : WriteBack × Peer}
      {offset : Int} {pos : Nat}, data.length ≤ pos + turns → Sees ps k order lens answers s →
      (Finishes (fun fuel => writeLoop kind .peer data fuel offset pos) s ↔
        WriteMoves ps k data.length turns order lens answers offset pos) := by
  have hdone : ∀ {s : WriteBack × Peer} {offset : Int} {pos : Nat}, data.length ≤ pos →
      Finishes (fun fuel => writeLoop kind .peer data fuel offset pos) s := fun hp =>
    Finishes.of_ok 0 (writeLoop_done kind .peer hp 0 _)
  induction turns with
  | zero =>
    intro order lens answers s offset pos hl h
    exact iff_of_true (hdone (by omega)) trivial
  | succ turns ih =>
    intro order lens answers s offset pos hl h
    by_cases hpos : data.length ≤ pos
    · exact iff_of_true (hdone hpos) (.inl hpos)
    have hlt : (pos : Int) < data.length := by omega
    rw [WriteMoves, or_iff_right hpos]
    have hload := load_sees kind hk h (offset.fdiv ps)
    cases harrive : arrive order lens answers (offset.fdiv ps) with
    | none =>
      rw [harrive] at hload
      obtain ⟨e, t, hload, he⟩ := hload
      refine iff_of_true (Finishes.of_error 1 (e := e) (t := t) ?_ he) trivial
      rw [writeLoop, if_neg (by omega)]
      simp only [EStateM.run_bind, EStateM.run_get, h.pageSize, hload]
    | some a =>
      obtain ⟨len, answers'⟩ := a
      simp only
      by_cases hin : offset.fmod ps < len
      · -- the turn puts bytes into the page
        rw [if_pos hin]
        obtain ⟨u, hturn, hu⟩ := writeLoop_sees kind hk h hlt harrive rfl
        have hcast : (pos : Int) + min ((data.length : Int) - pos) (len - offset.fmod ps) =
            ((pos + (min ((data.length : Int) - pos) (len - offset.fmod ps)).toNat : Nat) : Int) := by omega
        rw [Finishes.turn_iff ⟨s, writeLoop_zero kind .peer hlt⟩ hturn, hcast]
        exact ih (by omega) hu
      · rw [if_neg hin]
        have hgap : offset.fmod ps = len + ((offset.fmod ps - len).toNat : Nat) := by omega
        generalize (offset.fmod ps - len).toNat = gap at hgap ⊢
        by_cases hover : pos < gap ∧ ps + gap ≤ (len : Int) + data.length
        · -- two turns carry it over the end of the page
          have hlt' := Int.fmod_lt_of_pos offset (pos_of_fmod_pos (a := offset) hps (by omega))
          obtain ⟨u, hiff, hu⟩ := writeLoop_over kind hk hps h harrive hgap hover.1 hover.2
          rw [hiff]
          exact (ih (by omega) hu).trans ⟨fun hm => ⟨hover.1, hover.2, hm⟩, fun hm => hm.2.2⟩
        · refine iff_of_false (Finishes.not_of_stuck fun fuel => ?_) (fun hr => hover ⟨hr.1, hr.2.1⟩)
          rw [harrive] at hload
          obtain ⟨d, t, hload, rfl, hget, ht⟩ := hload
          refine writeLoop_stuck kind .peer hps fuel ⟨h.pageSize, t, hload, ht.pageSize, hget⟩ ?_
          exact stuck_of_behind hps rfl (by omega) (by omega) hlt (by omega)

/-! ## What every call keeps -/

/-- What the constructor has set. -/
def Config {σ : Type} (ps rs k : Int) (s : WriteBack × σ) : Prop :=
  s.1.pageSize = ps ∧ s.1.remoteSize = rs ∧ s.1.maxPages = k

section Config

variable {σ : Type} {ps rs k : Int} {s : WriteBack × σ}

/-- `Config` says nothing of the remote state, nor of the pages. -/
theorem Config.onFst (h : Config ps rs k s) (f : WriteBack → WriteBack)
    (hf : ∀ c, (f c).pageSize = c.pageSize ∧ (f c).remoteSize = c.remoteSize ∧ (f c).maxPages = c.maxPages) :
    Ends (onFst (modify f) : CacheM σ PUnit) (fun _ => Config ps rs k) (Config ps rs k) s :=
  .modifyFst ⟨(hf s.1).1.trans h.1, (hf s.1).2.1.trans h.2.1, (hf s.1).2.2.trans h.2.2⟩

theorem Config.onSnd {α : Type} (h : Config ps rs k s) (m : EStateM Exc σ α) :
    Ends (onSnd m : CacheM σ α) (fun _ => Config ps rs k) (Config ps rs k) s :=
  .onSnd_any (fun _ _ => h) (fun _ => h)

theorem flushPage_config (api : Api σ) (h : Config ps rs k s) (p : Int) :
    Ends (flushPage api p) (fun _ => Config ps rs k) (Config ps rs k) s := by
  unfold flushPage
  refine .bind_get ?_
  simp only
  split
  · exact .pure h
  · exact .bind (h.onSnd _) (fun _ _ ht => ht.onFst _ (fun _ => ⟨rfl, rfl, rfl⟩))

theorem evict_config (kind : Kind) (api : Api σ) (h : Config ps rs k s) :
    Ends (evict kind api) (fun _ => Config ps rs k) (Config ps rs k) s := by
  unfold evict
  refine .bind_get ?_
  simp only
  split
  · exact .throw h
  · refine .bind (h.onFst _ (fun _ => ⟨rfl, rfl, rfl⟩)) (fun _ t ht => ?_)
    have hcount : ∀ (u : PUnit) (t : WriteBack × σ), Config ps rs k t →
        Ends (if kind.countsEvictions then onFst (modify fun c => { c with evictions := c.evictions + 1 })
          else pure () : CacheM σ PUnit) (fun _ => Config ps rs k) (Config ps rs k) t := by
      intro _ t ht
      split
      · exact ht.onFst _ (fun _ => ⟨rfl, rfl, rfl⟩)
      · exact .pure ht
    split
    · exact .bind (flushPage_config api ht _)
        (fun _ _ ht => .bind (ht.onFst _ (fun _ => ⟨rfl, rfl, rfl⟩)) hcount)
    · exact hcount ⟨⟩ t ht

theorem loadPage_config (kind : Kind) (api : Api σ) (h : Config ps rs k s) (p : Int) :
    Ends (loadPage kind api p) (fun _ => Config ps rs k) (Config ps rs k) s := by
  have hlast : ∀ (d : Bytes) (t : WriteBack × σ), Config ps rs k t → Ends (do
      onFst (modify fun c => { c with pages := c.pages.set p d })
      return d : CacheM σ Bytes) (fun _ => Config ps rs k) (Config ps rs k) t := fun d t ht =>
    .bind (ht.onFst _ (fun _ => ⟨rfl, rfl, rfl⟩)) (fun _ _ ht => .pure ht)
  unfold loadPage
  refine .bind_get ?_
  simp only
  split
  · exact .bind (h.onFst _ (fun _ => ⟨rfl, rfl, rfl⟩)) (fun _ _ ht => .pure ht)
  · refine .bind (h.onFst _ (fun _ => ⟨rfl, rfl, rfl⟩)) (fun _ t ht => ?_)
    refine .bind (ht.onSnd _) (fun d t ht => ?_)
    refine .bind (ht.onFst _ (fun _ => ⟨rfl, rfl, rfl⟩)) (fun _ t ht => ?_)
    split
    · exact .bind (evict_config kind api ht) (fun _ t ht => hlast d t ht)
    · exact hlast d t ht

theorem readLoop_config (kind : Kind) (api : Api σ) (fuel : Nat) : ∀ {s : WriteBack × σ}
    {offset length : Int} {out : Bytes}, Config ps rs k s →
    Ends (readLoop kind api fuel offset length out) (fun _ => Config ps rs k) (Config ps rs k) s := by
  induction fuel with
  | zero =>
    intro s offset length out h
    unfold readLoop
    split
    · exact .pure h
    · exact .throw h
  | succ fuel ih =>
    intro s offset length out h
    unfold readLoop
    split
    · exact .pure h
    · exact .bind_get (.bind (loadPage_config kind api h _) (fun _ _ ht => ih ht))

theorem storePage_config (h : Config ps rs k s) (p inside n : Int) (data : Bytes) :
    Ends (storePage p inside n data) (fun _ => Config ps rs k) (Config ps rs k) s := by
  unfold storePage
  refine .bind (.modifyFst (Q := fun _ => Config ps rs k) h) (fun _ t ht => .bind_get ?_)
  cases t.1.pages.moveToEnd p with
  | none => exact .throw ht
  | some pages => exact .modifyFst ht

theorem writeLoop_config (kind : Kind) (api : Api σ) (data : Bytes) (fuel : Nat) : ∀ {s : WriteBack × σ}
    {offset pos : Int}, Config ps rs k s →
    Ends (writeLoop kind api data fuel offset pos) (fun _ => Config ps rs k) (Config ps rs k) s := by
  induction fuel with
  | zero =>
    intro s offset pos h
    unfold writeLoop
    split
    · exact .pure h
    · exact .throw h
  | succ fuel ih =>
    intro s offset pos h
    unfold writeLoop
    split
    · exact .pure h
    · exact .bind_get (.bind (loadPage_config kind api h _)
        (fun _ _ ht => .bind (storePage_config ht _ _ _ _) (fun _ _ ht => ih ht)))

theorem check_config (kind : Kind) (h : Config ps rs k s) (offset length : Int) :
    Ends (check kind offset length) (fun _ => Config ps rs k) (Config ps rs k) s := by
  unfold check
  exact .bind_get (.raiseIf (fun _ => h) (fun _ => h))

theorem flush_config (api : Api σ) (h : Config ps rs k s) (order : SetOrder) :
    Ends (flush api order) (fun _ => Config ps rs k) (Config ps rs k) s := by
  have hpages : ∀ (pages : List Int) {s : WriteBack × σ}, Config ps rs k s →
      Ends (flushPages api pages) (fun _ => Config ps rs k) (Config ps rs k) s := by
    intro pages
    induction pages with
    | nil => exact fun h => .pure h
    | cons p pages ih => exact fun h => .bind (flushPage_config api h p) (fun _ _ ht => ih ht)
  unfold flush
  exact .bind_get (.bind (hpages _ h) (fun _ _ ht => .modifyFst ht))

end Config

/-- The lengths of the cached pages. -/
def lengths (c : WriteBack) (p : Int) : Nat := ((c.pages.get? p).getD []).length

theorem Config.sees {ps rs : Int} {k : Nat} {s : WriteBack × Peer} (h : Config ps rs k s) :
    Sees ps k s.1.pages.keys (lengths s.1) s.2.answers s :=
  ⟨h.1, h.2.2, rfl, fun p d hd => by rw [lengths, hd, Option.getD_some], rfl⟩

end WriteBack

namespace RemoteMemoryCache

open WriteBack

/-- One call, of any fuel, whether it returns or raises. -/
def Call.over {σ : Type} (api : Api σ) (s : WriteBack × σ) : Nat × Call → Option (WriteBack × σ)
  | (fuel, .read offset length) =>
    some (finalState (RemoteMemoryCache.read api fuel offset length) s)
  | (fuel, .write offset data) => some (finalState (RemoteMemoryCache.write api fuel offset data) s)
  | (_, .flush order) => some (finalState (RemoteMemoryCache.flush api order) s)

/-- `ReadMoves`, from a state of the cache and its peer. -/
def ReadGetsOn (s : WriteBack × Peer) (offset length : Int) : Prop :=
  ReadMoves s.1.pageSize s.1.maxPages.toNat length.toNat s.1.pages.keys (lengths s.1) s.2.answers offset
    length.toNat

/-- `WriteMoves`, from a state of the cache and its peer. -/
def WriteGetsOn (s : WriteBack × Peer) (offset : Int) (data : Bytes) : Prop :=
  WriteMoves s.1.pageSize s.1.maxPages.toNat data.length data.length s.1.pages.keys (lengths s.1)
    s.2.answers offset 0

theorem over_config {σ : Type} (api : Api σ) {ps rs k : Int} (s : WriteBack × σ) (a : Nat × Call)
    (s' : WriteBack × σ) (h : Config ps rs k s) (hs : Call.over api s a = some s') : Config ps rs k s' := by
  obtain ⟨fuel, call⟩ := a
  cases call with
  | read offset length =>
    cases hs
    exact Ends.finalState (.bind (check_config kind h _ _)
      (fun _ _ ht => readLoop_config kind api fuel ht))
  | write offset data =>
    cases hs
    exact Ends.finalState (.bind (check_config kind h _ _)
      (fun _ _ ht => writeLoop_config kind api data fuel ht))
  | flush order =>
    cases hs
    exact (flush_config api h order).finalState

/-- A read or a write of bytes of the remote memory ends exactly where each turn gets on. -/
theorem finishes_iff {capacityMb remoteSize pageSize : Int} {c : WriteBack}
    (hinit : init capacityMb remoteSize pageSize = .ok c) (peer : Peer) (calls : List (Nat × Call))
    {s : WriteBack × Peer} (hrun : exec (Call.over .peer) (c, peer) calls = some s) :
    (∀ offset length : Int, 0 ≤ offset → 0 ≤ length → offset + length ≤ remoteSize →
      (Finishes (fun fuel => RemoteMemoryCache.read .peer fuel offset length) s ↔
        ReadGetsOn s offset length)) ∧
    ∀ (offset : Int) (data : Bytes), 0 ≤ offset → offset + data.length ≤ remoteSize →
      (Finishes (fun fuel => RemoteMemoryCache.write .peer fuel offset data) s ↔
        WriteGetsOn s offset data) := by
  have hps : pageSize ≠ 0 := by
    intro hz
    rw [init, if_pos hz] at hinit
    cases hinit
  obtain ⟨maxPages, hmax, rfl⟩ := init_ok hinit
  obtain ⟨k, rfl⟩ := Int.eq_ofNat_of_zero_le (by omega : 0 ≤ maxPages)
  have h : Config pageSize remoteSize k s :=
    exec_inv (over_config .peer) (show Config pageSize remoteSize k (empty pageSize remoteSize k, peer) from
      ⟨rfl, rfl, rfl⟩) hrun
  obtain ⟨hsize, hremote, hk⟩ := id h
  refine ⟨fun offset length h1 h2 h3 => ?_, fun offset data h1 h2 => ?_⟩
  · obtain ⟨n, rfl⟩ := Int.eq_ofNat_of_zero_le h2
    unfold ReadGetsOn
    rw [hsize, hk]
    exact (Finishes.bind_iff (run_check kind h1 h2 (by omega))).trans
      (readLoop_finishes_iff kind (by omega) hps n le_rfl h.sees)
  · unfold WriteGetsOn
    rw [hsize, hk]
    exact (Finishes.bind_iff (run_check kind h1 (by omega) (by omega))).trans
      (writeLoop_finishes_iff kind (by omega) hps data data.length (by omega) h.sees)

theorem finishes_iff_short_pages : ∃ s, exec (Call.over .peer)
      (empty 1048576 2097152 1, ⟨fun _ => some [7], fun _ => false⟩)
      [(1, .write 0 [1]), (1, .read 1048576 1)] = some s ∧
    (∀ offset length : Int, 0 ≤ offset → 0 ≤ length → offset + length ≤ 2097152 →
      (Finishes (fun fuel => RemoteMemoryCache.read .peer fuel offset length) s ↔
        ReadGetsOn s offset length)) ∧
    ∀ (offset : Int) (data : Bytes), 0 ≤ offset → offset + data.length ≤ 2097152 →
      (Finishes (fun fuel => RemoteMemoryCache.write .peer fuel offset data) s ↔
        WriteGetsOn s offset data) := by
  have hinit : init 1 2097152 1048576 = .ok (empty 1048576 2097152 1) := rfl
  obtain ⟨s, hs⟩ : ∃ s, exec (Call.over .peer) (empty 1048576 2097152 1,
      ⟨fun _ => some [7], fun _ => false⟩) [(1, .write 0 [1]), (1, .read 1048576 1)] = some s := ⟨_, rfl⟩
  exact ⟨s, hs, finishes_iff hinit _ _ hs⟩

/-- A peer that answers each read with no bytes. -/
theorem finishes_not : init 1 2097152 1048576 = .ok (empty 1048576 2097152 1) ∧
    ¬ Finishes (fun fuel => RemoteMemoryCache.read .peer fuel 0 1)
      (empty 1048576 2097152 1, ⟨fun _ => some [], fun _ => false⟩) ∧
    ¬ Finishes (fun fuel => RemoteMemoryCache.write .peer fuel 0 [1])
      (empty 1048576 2097152 1, ⟨fun _ => some [], fun _ => false⟩) := by
  have h : Config 1048576 2097152 (1 : Nat) (empty 1048576 2097152 1,
      (⟨fun _ => some [], fun _ => false⟩ : Peer)) := ⟨rfl, rfl, rfl⟩
  refine ⟨rfl, fun hread => ?_, fun hwrite => ?_⟩
  · have hloop := (Finishes.bind_iff (run_check kind (by omega) (by omega) (by decide))).mp hread
    have hmoves := (readLoop_finishes_iff kind (by omega) (by omega) 1 le_rfl h.sees).mp hloop
    simp [ReadMoves, arrive, empty] at hmoves
  · have hloop := (Finishes.bind_iff (run_check kind (by omega) (by simp) (by decide))).mp hwrite
    have hsize : ([1] : Bytes).length ≤ 0 + 1 := le_rfl
    have hmoves := (writeLoop_finishes_iff kind (by omega) (by omega) [1] 1 hsize h.sees).mp hloop
    simp [WriteMoves, arrive, empty] at hmoves

end RemoteMemoryCache

end RamLink
