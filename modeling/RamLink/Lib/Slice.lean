import Mathlib.Data.List.Basic
import Mathlib.Tactic.Common

/-!
# RamLink.Lib.Slice

Python slices and slice assignment on lists.

* `slice l i j` is `l[i:j]`, `setSlice l i j d` is `l[i:j] = d`, for any integers `i` and `j`:
  a negative index counts from the end, an index past the end is cut back to it, and an
  assignment whose data has another length than the slice resizes the list.
* `sub l a n` is the in-range slice of `n` elements at `a`, `splice l a d` the in-range
  assignment that keeps the length. `slice_nat` and `setSlice_nat` say when Python's operations
  are these two; the rest of the module is their algebra.
-/

namespace Lib

variable {α : Type*}

/-- The position in a list of length `n` that Python's slice index `i` stands for. -/
def pyIndex (n : Nat) (i : Int) : Nat := if i < 0 then (i + n).toNat else min i.toNat n

/-- `l[i:j]`. -/
def slice (l : List α) (i j : Int) : List α :=
  (l.take (pyIndex l.length j)).drop (pyIndex l.length i)

/-- `l[i:j] = d`. -/
def setSlice (l : List α) (i j : Int) (d : List α) : List α :=
  l.take (pyIndex l.length i) ++ d ++ l.drop (max (pyIndex l.length i) (pyIndex l.length j))

/-- The `n` elements from position `a` on (fewer where the list ends earlier). -/
def sub (l : List α) (a n : Nat) : List α := (l.drop a).take n

/-- The list with the elements from position `a` on overwritten by `d`. -/
def splice (l : List α) (a : Nat) (d : List α) : List α :=
  l.take a ++ d ++ l.drop (a + d.length)

/-! ## Element by element -/

theorem getElem?_sub (l : List α) (a n i : Nat) :
    (sub l a n)[i]? = if i < n then l[a + i]? else none := by
  simp [sub, List.getElem?_take, List.getElem?_drop]

theorem getElem?_splice (l d : List α) {a : Nat} (h : a + d.length ≤ l.length) (i : Nat) :
    (splice l a d)[i]? = if a ≤ i ∧ i < a + d.length then d[i - a]? else l[i]? := by
  have ht : (l.take a).length = a := by simp; omega
  rw [splice, List.append_assoc]
  by_cases h1 : i < a
  · rw [List.getElem?_append_left (by omega), List.getElem?_take, if_pos h1, if_neg (by omega)]
  · rw [List.getElem?_append_right (by omega), ht]
    by_cases h2 : i < a + d.length
    · rw [List.getElem?_append_left (by omega), if_pos (by omega)]
    · rw [List.getElem?_append_right (by omega), List.getElem?_drop, if_neg (by omega)]
      congr 1
      omega

@[simp] theorem length_sub (l : List α) (a n : Nat) :
    (sub l a n).length = min n (l.length - a) := by
  simp [sub]

theorem length_sub_of_le {l : List α} {a n : Nat} (h : a + n ≤ l.length) :
    (sub l a n).length = n := by
  rw [length_sub]; omega

theorem length_splice {l d : List α} {a : Nat} (h : a + d.length ≤ l.length) :
    (splice l a d).length = l.length := by
  simp [splice]; omega

/-! ## When Python's operations are the in-range ones -/

theorem pyIndex_natCast (n a : Nat) : pyIndex n (a : Int) = min a n := by
  rw [pyIndex, if_neg (by omega), Int.toNat_natCast]

theorem pyIndex_of_nonneg {n : Nat} {i : Int} (h : 0 ≤ i) : (pyIndex n i : Int) = min i n := by
  rw [pyIndex, if_neg (by omega)]
  omega

theorem pyIndex_of_neg {n : Nat} {i : Int} (h : i < 0) : (pyIndex n i : Int) = max 0 (i + n) := by
  rw [pyIndex, if_pos h]
  omega

theorem pyIndex_le (n : Nat) (i : Int) : pyIndex n i ≤ n := by
  rcases Int.lt_or_le i 0 with h | h
  · have := pyIndex_of_neg (n := n) h
    omega
  · have := pyIndex_of_nonneg (n := n) h
    omega

theorem slice_natCast (l : List α) (a b : Nat) :
    slice l (a : Int) (b : Int) = sub l a (b - a) := by
  apply List.ext_getElem?
  intro i
  rw [getElem?_sub, slice, pyIndex_natCast, pyIndex_natCast, List.getElem?_drop, List.getElem?_take]
  by_cases h : a + i < l.length
  · rw [Nat.min_eq_left (by omega : a ≤ l.length)]
    split <;> split <;> first | rfl | omega
  · rw [List.getElem?_eq_none (by omega : l.length ≤ a + i)]
    split <;> split <;> first | rfl | (apply List.getElem?_eq_none; omega)

theorem slice_nat (l : List α) (a n : Nat) : slice l (a : Int) (a + n : Int) = sub l a n := by
  have h := slice_natCast l a (a + n)
  rwa [Nat.add_sub_cancel_left, Int.natCast_add] at h

theorem setSlice_nat (l : List α) (a n : Nat) (d : List α) (hd : d.length = n)
    (h : a + n ≤ l.length) : setSlice l (a : Int) (a + n : Int) d = splice l a d := by
  have e := pyIndex_natCast l.length (a + n)
  rw [Int.natCast_add] at e
  rw [setSlice, pyIndex_natCast, e, splice, hd, Nat.min_eq_left (by omega), Nat.min_eq_left h,
    Nat.max_eq_right (by omega)]

/-! ## Algebra of `sub` and `splice` -/

@[simp] theorem sub_zero (l : List α) (a : Nat) : sub l a 0 = [] := by simp [sub]

@[simp] theorem splice_nil (l : List α) (a : Nat) : splice l a [] = l := by simp [splice]

theorem sub_all {l : List α} {n : Nat} (h : l.length ≤ n) : sub l 0 n = l := by
  simp [sub, List.take_of_length_le h]

theorem sub_replicate {N a n : Nat} (x : α) (h : a + n ≤ N) :
    sub (List.replicate N x) a n = List.replicate n x := by
  rw [sub, List.drop_replicate, List.take_replicate, Nat.min_eq_left (by omega)]

theorem sub_append (l : List α) (a m n : Nat) : sub l a (m + n) = sub l a m ++ sub l (a + m) n := by
  simp [sub, List.take_add, List.drop_drop]

theorem sub_split {m n : Nat} (h : m ≤ n) (l : List α) (a : Nat) :
    sub l a n = sub l a m ++ sub l (a + m) (n - m) := by
  rw [← sub_append, Nat.add_sub_cancel' h]

theorem sub_sub (l : List α) (a m b n : Nat) (h : b + n ≤ m) :
    sub (sub l a m) b n = sub l (a + b) n := by
  apply List.ext_getElem?
  intro i
  rw [getElem?_sub, getElem?_sub, getElem?_sub]
  split
  · rw [if_pos (by omega), Nat.add_assoc]
  · rfl

/-- What was just written is read back. -/
theorem sub_splice_self {l d : List α} {a : Nat} (h : a + d.length ≤ l.length) :
    sub (splice l a d) a d.length = d := by
  apply List.ext_getElem?
  intro i
  rw [getElem?_sub, getElem?_splice l d h]
  split
  · rw [if_pos (by omega), Nat.add_sub_cancel_left]
  · rw [List.getElem?_eq_none (by omega)]

/-- A write does not touch a range apart from it. -/
theorem sub_splice_apart {l d : List α} {a : Nat} (h : a + d.length ≤ l.length) {b n : Nat}
    (hd : b + n ≤ a ∨ a + d.length ≤ b) : sub (splice l a d) b n = sub l b n := by
  apply List.ext_getElem?
  intro i
  rw [getElem?_sub, getElem?_sub, getElem?_splice l d h]
  split
  · rw [if_neg (by omega)]
  · rfl

/-- A write inside a range, seen from the range. -/
theorem sub_splice_inside {l d : List α} {a b n : Nat} (hl : b + n ≤ l.length) (hb : b ≤ a)
    (hn : a + d.length ≤ b + n) : sub (splice l a d) b n = splice (sub l b n) (a - b) d := by
  apply List.ext_getElem?
  intro i
  rw [getElem?_sub, getElem?_splice l d (by omega),
    getElem?_splice _ d (by rw [length_sub]; omega), getElem?_sub]
  by_cases hi : a ≤ b + i ∧ b + i < a + d.length
  · rw [if_pos hi, if_pos (by omega), if_pos (by omega)]
    congr 1
    omega
  · rw [if_neg hi, if_neg (by omega : ¬ (a - b ≤ i ∧ i < a - b + d.length))]

theorem splice_append {l : List α} {a : Nat} (d e : List α) (h : a + d.length + e.length ≤ l.length) :
    splice l a (d ++ e) = splice (splice l a d) (a + d.length) e := by
  apply List.ext_getElem?
  intro i
  have hd : a + d.length ≤ l.length := by omega
  rw [getElem?_splice l _ (by rw [List.length_append]; omega),
    getElem?_splice _ e (by rw [length_splice hd]; omega), getElem?_splice l d hd,
    List.length_append]
  by_cases h1 : a ≤ i ∧ i < a + d.length
  · rw [if_pos (by omega), if_neg (by omega), if_pos h1, List.getElem?_append_left (by omega)]
  · by_cases h2 : a + d.length ≤ i ∧ i < a + d.length + e.length
    · rw [if_pos (by omega), if_pos h2, List.getElem?_append_right (by omega)]
      congr 1
      omega
    · rw [if_neg (by omega), if_neg h2, if_neg h1]

/-- The rest of `d` from `pos` on, in two steps. -/
theorem splice_split {l d : List α} {a pos m : Nat} (hm : pos + m ≤ d.length)
    (h : a + (d.length - pos) ≤ l.length) :
    splice l a (d.drop pos) = splice (splice l a (sub d pos m)) (a + m) (d.drop (pos + m)) := by
  have hlen : (sub d pos m).length = m := length_sub_of_le hm
  have hdrop : d.drop pos = sub d pos m ++ d.drop (pos + m) := by
    rw [sub, ← List.drop_drop, List.take_append_drop]
  have happ := splice_append (sub d pos m) (d.drop (pos + m)) (l := l) (a := a)
    (by rw [hlen, List.length_drop]; omega)
  rw [hlen] at happ
  rw [hdrop, happ]

/-- Writing back a range after a change inside it is that change. -/
theorem splice_splice_sub {l d : List α} {a b n : Nat} (hl : a + n ≤ l.length)
    (hb : b + d.length ≤ n) : splice l a (splice (sub l a n) b d) = splice l (a + b) d := by
  have hn : (sub l a n).length = n := length_sub_of_le hl
  have hs : (splice (sub l a n) b d).length = n := by rw [length_splice (by omega), hn]
  apply List.ext_getElem?
  intro i
  rw [getElem?_splice l _ (by omega), getElem?_splice l d (by omega), hs]
  by_cases hi : a ≤ i ∧ i < a + n
  · rw [if_pos hi, getElem?_splice _ d (by omega), getElem?_sub]
    by_cases hd : b ≤ i - a ∧ i - a < b + d.length
    · rw [if_pos hd, if_pos (by omega)]
      congr 1
      omega
    · rw [if_neg hd, if_pos (by omega), if_neg (by omega)]
      congr 1
      omega
  · rw [if_neg hi, if_neg (by omega)]

/-- Overwriting changes nothing exactly if it writes what is there. -/
theorem splice_eq_self_iff {l d : List α} {a : Nat} (h : a + d.length ≤ l.length) :
    splice l a d = l ↔ ∀ j < d.length, d[j]? = l[a + j]? := by
  constructor
  · intro he j hj
    have hb := getElem?_splice l d h (a + j)
    rw [he, if_pos (by omega), Nat.add_sub_cancel_left] at hb
    exact hb.symm
  · intro hd
    apply List.ext_getElem?
    intro i
    rw [getElem?_splice l d h]
    split
    · rename_i hi
      have := hd (i - a) (by omega)
      rwa [Nat.add_sub_cancel' hi.1] at this
    · rfl

/-! ## Integer positions -/

theorem length_slice {l : List α} {a n : Int} (ha : 0 ≤ a) (hn : 0 ≤ n) (h : a + n ≤ l.length) :
    ((slice l a (a + n)).length : Int) = n := by
  obtain ⟨a, rfl⟩ := Int.eq_ofNat_of_zero_le ha
  obtain ⟨n, rfl⟩ := Int.eq_ofNat_of_zero_le hn
  rw [slice_nat, length_sub_of_le (by omega)]

/-- The length of any slice. -/
theorem length_slice_eq (l : List α) (i j : Int) :
    (slice l i j).length = pyIndex l.length j - pyIndex l.length i := by
  rw [slice, List.length_drop, List.length_take, Nat.min_eq_left (pyIndex_le ..)]

/-- The length after any slice assignment. -/
theorem length_setSlice_eq (l : List α) (i j : Int) (d : List α) : (setSlice l i j d).length =
    pyIndex l.length i + d.length + (l.length - max (pyIndex l.length i) (pyIndex l.length j)) := by
  rw [setSlice, List.length_append, List.length_append, List.length_take, List.length_drop,
    Nat.min_eq_left (pyIndex_le ..)]

theorem length_setSlice {l data : List α} {a : Int} (ha : 0 ≤ a) (h : a + data.length ≤ l.length) :
    (setSlice l a (a + data.length) data).length = l.length := by
  obtain ⟨a, rfl⟩ := Int.eq_ofNat_of_zero_le ha
  rw [setSlice_nat l a data.length data rfl (by omega), length_splice (by omega)]

/-- A page reads as it was written. -/
theorem slice_setSlice_self {l data : List α} {a : Int} (ha : 0 ≤ a) (h : a + data.length ≤ l.length) :
    slice (setSlice l a (a + data.length) data) a (a + data.length) = data := by
  obtain ⟨a, rfl⟩ := Int.eq_ofNat_of_zero_le ha
  rw [setSlice_nat l a data.length data rfl (by omega), slice_nat, sub_splice_self (by omega)]

theorem slice_setSlice_apart {l data : List α} {a b n : Int} (ha : 0 ≤ a)
    (h : a + data.length ≤ l.length) (hb : 0 ≤ b) (hn : 0 ≤ n) (hd : b + n ≤ a ∨ a + data.length ≤ b) :
    slice (setSlice l a (a + data.length) data) b (b + n) = slice l b (b + n) := by
  obtain ⟨a, rfl⟩ := Int.eq_ofNat_of_zero_le ha
  obtain ⟨b, rfl⟩ := Int.eq_ofNat_of_zero_le hb
  obtain ⟨n, rfl⟩ := Int.eq_ofNat_of_zero_le hn
  rw [setSlice_nat l a data.length data rfl (by omega), slice_nat, slice_nat,
    sub_splice_apart (by omega) (by omega)]

end Lib
