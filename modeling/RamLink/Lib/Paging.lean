import Mathlib.Data.List.Nodup
import RamLink.Lib.Slice
import Mathlib.Tactic.Ring

/-!
# RamLink.Lib.Paging

A list of length `rs` cut into pages of length `ps`, the last of which may be partial.

* `pageAt` is page `i`; a change inside one page is a change of that page alone
  (`pageAt_splice_self`, `pageAt_splice_other`), and lists that agree on every page agree.
* `pagesOf` are the pages that a range meets; `pagesOf_step` and `chunk_arith` are one turn of a
  loop that goes through a range page by page.
-/

namespace Lib

variable {α : Type*}

/-- The length of page `i`: the last one may be partial. -/
def width (ps rs i : Nat) : Nat := min ps (rs - i * ps)

def pageAt (ps rs : Nat) (mem : List α) (i : Nat) : List α := sub mem (i * ps) (width ps rs i)

/-- The pages that the byte range `[a, a + n)` meets, in ascending order. -/
def pagesOf (ps a n : Nat) : List Int :=
  if n = 0 then []
  else (List.range' (a / ps) ((a + n - 1) / ps + 1 - a / ps)).map (fun i : Nat => (i : Int))

variable {ps rs : Nat} {mem : List α}

/-! ## Pages -/

theorem width_le (ps rs i : Nat) (h : i * ps ≤ rs) : i * ps + width ps rs i ≤ rs := by
  unfold width; omega

theorem length_pageAt {i : Nat} (hm : rs ≤ mem.length) (h : i * ps ≤ rs) :
    (pageAt ps rs mem i).length = width ps rs i := by
  have := width_le ps rs i h
  exact length_sub_of_le (by omega)

/-- In a list of whole pages every page is whole. -/
theorem width_of_dvd {i : Nat} (h : ps ∣ rs) (hi : i * ps < rs) : width ps rs i = ps := by
  obtain ⟨m, rfl⟩ := h
  have hm : i + 1 ≤ m := Nat.lt_of_mul_lt_mul_left (by rw [Nat.mul_comm ps i]; exact hi)
  have := Nat.mul_le_mul_left ps hm
  rw [Nat.mul_add, Nat.mul_one, Nat.mul_comm ps i] at this
  unfold width
  omega

/-- A range that starts at `a` and ends inside its page. -/
theorem sub_pageAt {a m : Nat} (h : a % ps + m ≤ width ps rs (a / ps)) :
    sub (pageAt ps rs mem (a / ps)) (a % ps) m = sub mem a m := by
  rw [pageAt, sub_sub _ _ _ _ _ h, Nat.div_add_mod']

theorem getElem?_pageAt {a : Nat} (hps : 0 < ps) (ha : a < rs) : (pageAt ps rs mem (a / ps))[a % ps]? = mem[a]? := by
  have hmod := Nat.mod_lt a hps
  have hdiv := Nat.div_add_mod' a ps
  rw [pageAt, getElem?_sub, if_pos (by rw [width]; omega), hdiv]

/-- A change inside page `i` is not seen in another page. -/
theorem pageAt_splice_other {i j inside : Nat} {data : List α} (hm : rs ≤ mem.length)
    (hi : i * ps ≤ rs) (hin : inside + data.length ≤ width ps rs i) (hij : j ≠ i) :
    pageAt ps rs (splice mem (i * ps + inside) data) j = pageAt ps rs mem j := by
  have h1 := width_le ps rs i hi
  have h2 : width ps rs i ≤ ps := Nat.min_le_left _ _
  have h3 : width ps rs j ≤ ps := Nat.min_le_left _ _
  refine sub_splice_apart (by omega) ?_
  rcases Nat.lt_or_gt_of_ne hij with hlt | hlt
  · have := Nat.mul_le_mul_right ps (Nat.succ_le_of_lt hlt)
    rw [Nat.succ_mul] at this
    omega
  · have := Nat.mul_le_mul_right ps (Nat.succ_le_of_lt hlt)
    rw [Nat.succ_mul] at this
    omega

theorem pageAt_splice_self {i inside : Nat} {data : List α} (hm : mem.length = rs)
    (hi : i * ps ≤ rs) (hin : inside + data.length ≤ width ps rs i) :
    pageAt ps rs (splice mem (i * ps + inside) data) i = splice (pageAt ps rs mem i) inside data := by
  have h1 := width_le ps rs i hi
  have h2 : i * ps + inside - i * ps = inside := by omega
  unfold pageAt
  rw [sub_splice_inside (by omega) (by omega) (by omega), h2]

/-- Arrays that agree on every page agree. -/
theorem sub_of_pageAt {l : List α} (hps : 0 < ps) (hm : mem.length = rs)
    (h : ∀ i : Nat, pageAt ps rs l i = pageAt ps rs mem i) : sub l 0 rs = mem := by
  apply List.ext_getElem?
  intro j
  rw [getElem?_sub, Nat.zero_add]
  by_cases hj : j < rs
  · -- byte `j` is byte `j % ps` of page `j / ps`
    have ha : j / ps * ps + j % ps = j := by rw [Nat.mul_comm]; exact Nat.div_add_mod j ps
    have hin : j % ps < width ps rs (j / ps) := by
      have ht := Nat.mod_lt j hps
      unfold width
      omega
    have hbyte := congrArg (fun page => page[j % ps]?) (h (j / ps))
    simp only [pageAt, getElem?_sub, if_pos hin, ha] at hbyte
    rw [if_pos hj, hbyte]
  · rw [if_neg hj, List.getElem?_eq_none (by omega)]

/-- A range of a page that was overwritten by another list's page. -/
theorem sub_splice_pageAt {remote : List α} {j a n : Nat} (hm : mem.length = rs) (hlen : rs ≤ remote.length)
    (hj : j * ps ≤ a) (hn : a + n ≤ j * ps + width ps rs j) (hle : j * ps ≤ rs) :
    sub (splice mem (j * ps) (pageAt ps rs remote j)) a n = sub remote a n := by
  have hw := width_le ps rs j hle
  have hpage : (pageAt ps rs remote j).length = width ps rs j := length_pageAt hlen hle
  apply List.ext_getElem?
  intro i
  rw [getElem?_sub, getElem?_sub]
  by_cases hi : i < n
  · have ha : j * ps + (a + i - j * ps) = a + i := by omega
    rw [if_pos hi, if_pos hi, getElem?_splice _ _ (by omega), if_pos (by omega), pageAt,
      getElem?_sub, if_pos (by omega), ha]
  · rw [if_neg hi, if_neg hi]

/-! ## Ranges -/

/-- The positions from `a` on that are on the page of `a`. -/
theorem add_div_eq_iff (hps : 0 < ps) (a j : Nat) : (a + j) / ps = a / ps ↔ j < ps - a % ps := by
  have ha := Nat.div_add_mod a ps
  have ht := Nat.mod_lt a hps
  rw [Nat.div_eq_iff hps, Nat.mul_comm (a / ps)]
  omega

theorem add_mod_eq (hps : 0 < ps) {a j : Nat} (h : j < ps - a % ps) : (a + j) % ps = a % ps + j := by
  have hdiv := (add_div_eq_iff hps a j).mpr h
  have ha := Nat.div_add_mod a ps
  have hj := Nat.div_add_mod (a + j) ps
  rw [hdiv] at hj
  omega

/-- The part of a range on the page of its start, position by position. -/
theorem sub_page_eq_iff (hps : 0 < ps) {a n : Nat} {d : List α} :
    sub d (a % ps) (min n (ps - a % ps)) = sub mem a (min n (ps - a % ps)) ↔
      ∀ j < n, (a + j) / ps = a / ps → d[(a + j) % ps]? = mem[a + j]? := by
  rw [List.ext_getElem?_iff]
  constructor
  · intro hall j hj hjp
    have hlt := (add_div_eq_iff hps a j).mp hjp
    have := hall j
    rwa [getElem?_sub, getElem?_sub, if_pos (by omega), if_pos (by omega), ← add_mod_eq hps hlt] at this
  · intro hall j
    rw [getElem?_sub, getElem?_sub]
    by_cases hj : j < min n (ps - a % ps)
    · rw [if_pos hj, if_pos hj, ← add_mod_eq hps (by omega)]
      exact hall j (by omega) ((add_div_eq_iff hps a j).mpr (by omega))
    · rw [if_neg hj, if_neg hj]

theorem nodup_pagesOf (ps a n : Nat) : (pagesOf ps a n).Nodup := by
  unfold pagesOf
  split
  · exact List.nodup_nil
  · exact List.Nodup.map Int.ofNat_injective List.nodup_range'

/-- The first page of a range, and the rest of the range. -/
theorem pagesOf_step {a n : Nat} (hps : 0 < ps) (hn : 0 < n) :
    pagesOf ps a n = ((a / ps : Nat) : Int) ::
      pagesOf ps (a + min n (ps - a % ps)) (n - min n (ps - a % ps)) := by
  have ha := Nat.div_add_mod a ps
  have ht := Nat.mod_lt a hps
  generalize hq : a / ps = q at ha
  generalize hr : a % ps = t at ha ht
  unfold pagesOf
  rw [if_neg (by omega), hq]
  by_cases hle : n ≤ ps - t
  · have hlast : (a + n - 1) / ps = q := Nat.div_eq_of_lt_le (by rw [Nat.mul_comm]; omega)
      (by rw [Nat.mul_comm, Nat.mul_succ]; omega)
    rw [Nat.min_eq_left hle, if_pos (by omega), hlast]
    simp
  · have hstart : (a + (ps - t)) / ps = q + 1 := Nat.div_eq_of_lt_le
      (by rw [Nat.mul_comm, Nat.mul_succ]; omega) (by rw [Nat.mul_comm, Nat.mul_succ, Nat.mul_succ]; omega)
    have hend : q + 1 ≤ (a + n - 1) / ps := by
      rw [Nat.le_div_iff_mul_le hps, Nat.mul_comm, Nat.mul_succ]
      omega
    have hsum : a + (ps - t) + (n - (ps - t)) - 1 = a + n - 1 := by omega
    rw [Nat.min_eq_right (by omega), if_neg (by omega), hstart, hsum]
    have hcount : (a + n - 1) / ps + 1 - q = ((a + n - 1) / ps + 1 - (q + 1)) + 1 := by omega
    rw [hcount, List.range'_succ, List.map_cons]

/-- Where an in-range loop stands: its page is inside the list, and the number of bytes it
takes from the page is what the page and the range have left. -/
theorem chunk_arith {a n : Nat} (hps : 0 < ps) (hn : 0 < n) (hr : a + n ≤ rs) :
    a / ps * ps < rs ∧ a % ps + min n (ps - a % ps) ≤ width ps rs (a / ps) ∧
      a / ps * ps + a % ps = a ∧ 0 < min n (ps - a % ps) ∧
      min (n : Int) ((width ps rs (a / ps) : Nat) - ((a % ps : Nat) : Int)) =
        ((min n (ps - a % ps) : Nat) : Int) := by
  have ha : a / ps * ps + a % ps = a := by rw [Nat.mul_comm]; exact Nat.div_add_mod a ps
  have ht := Nat.mod_lt a hps
  unfold width
  generalize a / ps * ps = b at ha ⊢
  generalize a % ps = t at ha ht ⊢
  refine ⟨by omega, by omega, ha, by omega, ?_⟩
  omega

end Lib
