import RamLink.Lib.Slice

/-!
# RamLink.Lib.Journal

An array and the journal of the stores made to it.

`latest init log i` is what the newest store of `log` that covers position `i` put there, or `init`.
`Reflects init log l` says that `l` is that, position by position; a `splice` recorded in the journal
keeps it, and a `sub` of such an array is a `window` of the journal.
-/

namespace Lib

variable {α : Type*}

/-- One completed store. -/
structure Stored (α : Type*) where
  position : Nat
  data : List α

/-- What the store put at position `i`, if it covers it. -/
def Stored.at? (i : Nat) (w : Stored α) : Option α :=
  if w.position ≤ i then w.data[i - w.position]? else none

/-- The newest value at position `i`; the newest store comes first in the journal. -/
def latest (init : α) (log : List (Stored α)) (i : Nat) : α := (log.findSome? (Stored.at? i)).getD init

/-- The newest values of the `n` positions from `a` on. -/
def window (init : α) (log : List (Stored α)) (a n : Nat) : List α :=
  (List.range n).map fun i => latest init log (a + i)

def Reflects (init : α) (log : List (Stored α)) (l : List α) : Prop :=
  ∀ i, i < l.length → l[i]? = some (latest init log i)

variable {init : α} {log : List (Stored α)} {l d : List α}

theorem latest_cons (init : α) (w : Stored α) (log : List (Stored α)) (i : Nat) :
    latest init (w :: log) i = (w.at? i).getD (latest init log i) := by
  unfold latest
  rw [List.findSome?_cons]
  cases w.at? i <;> rfl

theorem Reflects.splice (h : Reflects init log l) {a : Nat} (ha : a + d.length ≤ l.length) :
    Reflects init (⟨a, d⟩ :: log) (splice l a d) := by
  intro i hi
  rw [length_splice ha] at hi
  rw [getElem?_splice l d ha, latest_cons, Stored.at?]
  simp only
  by_cases h1 : a ≤ i
  · rw [if_pos h1]
    by_cases h2 : i < a + d.length
    · rw [if_pos ⟨h1, h2⟩, List.getElem?_eq_getElem (by omega), Option.getD_some]
    · rw [if_neg fun hc => h2 hc.2, h i hi, List.getElem?_eq_none (by omega : d.length ≤ i - a),
        Option.getD_none]
  · rw [if_neg fun hc => h1 hc.1, if_neg h1, Option.getD_none, h i hi]

theorem Reflects.sub (h : Reflects init log l) {a n : Nat} (ha : a + n ≤ l.length) :
    sub l a n = window init log a n := by
  apply List.ext_getElem?
  intro i
  rw [getElem?_sub, window, List.getElem?_map]
  by_cases hi : i < n
  · rw [if_pos hi, h (a + i) (by omega), List.getElem?_range hi, Option.map_some]
  · rw [if_neg hi, List.getElem?_eq_none (by simp; omega), Option.map_none]

end Lib
