import Mathlib.Data.List.Sort
import Mathlib.Order.Bounds.Basic
import Mathlib.Tactic.Common

/-!
# RamLink.Lib.Extent

Half-open ranges `[a, a + n)` of naturals, and first-fit search among ranges sorted by start.

* `Apart a n b m`: the two ranges share no position.
* `firstFit n size c es`: the scan with a moving cursor `c` over the ranges `es`, in the given
  order, for a gap of `n` positions below `size`.
* `firstFit_isLeast` / `firstFit_eq_none`: on ranges sorted by start that lie below `size`, the
  scan is sound and complete: it finds the least position whose range of `n` is apart from all of
  them, and finds none only if there is none.
-/

namespace Lib

/-- `[a, a + n)` and `[b, b + m)` share no position. -/
def Apart (a n b m : Nat) : Prop := a + n ≤ b ∨ b + m ≤ a

instance (a n b m : Nat) : Decidable (Apart a n b m) := inferInstanceAs (Decidable (_ ∨ _))

theorem Apart.symm {a n b m : Nat} (h : Apart a n b m) : Apart b m a n := Or.symm h

theorem Apart.mono {a n b m a' n' : Nat} (h : Apart a n b m) (ha : a ≤ a') (hn : a' + n' ≤ a + n) :
    Apart a' n' b m := by
  simp only [Apart] at h ⊢; omega

section FirstFit

variable {α : Type} (start len : α → Nat)

/-- The scan: `c` is the least position not yet ruled out. -/
def firstFit (n size : Nat) : Nat → List α → Option Nat
  | c, [] => if c + n ≤ size then some c else none
  | c, e :: es =>
    if c + n ≤ start e then some c
    else firstFit n size (max c (start e + len e)) es

/-- `c` leaves room for a range of `n` below `size`, apart from every range of `es`. -/
def Fits (n size : Nat) (es : List α) (c : Nat) : Prop :=
  c + n ≤ size ∧ ∀ e ∈ es, Apart c n (start e) (len e)

variable {start len} {n size : Nat}

/-- A position the scan passes over is met by the range it is passed over for. -/
theorem meets_of_passed {c d : Nat} {e : α} (hc : ¬ c + n ≤ start e) (h1 : c ≤ d)
    (h2 : d < max c (start e + len e)) : ¬ Apart d n (start e) (len e) := by
  simp only [Apart]; omega

theorem firstFit_spec {es : List α} : ∀ {c : Nat},
    es.Pairwise (fun x y => start x ≤ start y) → (∀ e ∈ es, start e + len e ≤ size) →
    (∀ d, firstFit start len n size c es = some d →
      c ≤ d ∧ Fits start len n size es d ∧ ∀ d', c ≤ d' → Fits start len n size es d' → d ≤ d') ∧
    (firstFit start len n size c es = none → ∀ d, c ≤ d → ¬ Fits start len n size es d) := by
  induction es with
  | nil =>
    intro c _ _
    simp only [firstFit]
    constructor
    · intro d h
      split at h
      · rename_i hc
        cases h
        exact ⟨le_refl c, ⟨hc, by simp⟩, fun d' h1 _ => h1⟩
      · cases h
    · intro h d hd hf
      split at h
      · cases h
      · have := hf.1
        omega
  | cons e es ih =>
    intro c hs hb
    rw [List.pairwise_cons] at hs
    have hbe : start e + len e ≤ size := hb e (List.mem_cons_self ..)
    simp only [firstFit]
    split
    · -- the gap below `e`: every later range starts after it
      rename_i hc
      refine ⟨?_, by intro h; cases h⟩
      intro d h
      cases h
      refine ⟨le_refl c, ⟨by omega, ?_⟩, fun d' h1 _ => h1⟩
      intro x hx
      rcases List.mem_cons.mp hx with rfl | hx
      · exact Or.inl hc
      · exact Or.inl (by have := hs.1 x hx; omega)
    · -- no room before the end of `e`: the positions passed over all meet `e`
      rename_i hc
      obtain ⟨h1, h2⟩ := ih (c := max c (start e + len e)) hs.2
        (fun x hx => hb x (List.mem_cons_of_mem e hx))
      have skip : ∀ d, c ≤ d → Fits start len n size (e :: es) d → max c (start e + len e) ≤ d := by
        intro d hd hf
        by_contra hlt
        exact meets_of_passed hc hd (by omega) (hf.2 e (List.mem_cons_self ..))
      have tail : ∀ d, Fits start len n size (e :: es) d → Fits start len n size es d :=
        fun d hf => ⟨hf.1, fun x hx => hf.2 x (List.mem_cons_of_mem e hx)⟩
      constructor
      · intro d h
        obtain ⟨g1, g2, g3⟩ := h1 d h
        refine ⟨by omega, ⟨g2.1, ?_⟩, fun d' hd' hf => g3 d' (skip d' hd' hf) (tail d' hf)⟩
        intro x hx
        rcases List.mem_cons.mp hx with rfl | hx
        · exact Or.inr (by omega)
        · exact g2.2 x hx
      · intro h d hd hf
        exact h2 h d (skip d hd hf) (tail d hf)

theorem firstFit_isLeast {es : List α} {c : Nat}
    (hs : es.Pairwise (fun x y => start x ≤ start y)) (hb : ∀ e ∈ es, start e + len e ≤ size)
    (h : firstFit start len n size 0 es = some c) :
    IsLeast {d | Fits start len n size es d} c := by
  obtain ⟨-, h2, h3⟩ := (firstFit_spec hs hb).1 c h
  exact ⟨h2, fun d hd => h3 d (Nat.zero_le d) hd⟩

theorem firstFit_eq_none {es : List α}
    (hs : es.Pairwise (fun x y => start x ≤ start y)) (hb : ∀ e ∈ es, start e + len e ≤ size) :
    firstFit start len n size 0 es = none ↔ ∀ c, ¬ Fits start len n size es c := by
  constructor
  · intro h c
    exact (firstFit_spec hs hb).2 h c (Nat.zero_le c)
  · intro h
    cases hf : firstFit start len n size 0 es with
    | none => rfl
    | some c => exact absurd (firstFit_isLeast hs hb hf).1 (h c)

end FirstFit

/-- A first fit above a base that divides every bound divides by it too. -/
theorem firstFit_dvd {α : Type} {start len : α → Nat} {k n size : Nat} {es : List α} :
    ∀ {c d : Nat}, k ∣ c → (∀ e ∈ es, k ∣ start e + len e) →
      firstFit start len n size c es = some d → k ∣ d := by
  induction es with
  | nil =>
    intro c d hc _ h
    simp only [firstFit] at h
    split at h
    · cases h; exact hc
    · cases h
  | cons e es ih =>
    intro c d hc he h
    simp only [firstFit] at h
    split at h
    · cases h; exact hc
    · refine ih ?_ (fun x hx => he x (List.mem_cons_of_mem e hx)) h
      rcases Nat.le_total c (start e + len e) with hle | hle
      · rw [Nat.max_eq_right hle]; exact he e (List.mem_cons_self ..)
      · rw [Nat.max_eq_left hle]; exact hc

end Lib
