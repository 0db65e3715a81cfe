import Mathlib.Algebra.Ring.Int.Defs
import Mathlib.Algebra.Ring.Nat
import Mathlib.Data.List.Basic
import Mathlib.Tactic.Common

/-!
# RamLink.Lib.Python

What the models take from Python itself.

* `Exc`: the exceptions, with their texts.
* `EStateM Exc σ` is the monad of the models: an exception leaves the state as it was when it was
  raised, as in Python, and does not roll it back. `onFst` and `onSnd` run a computation on one
  half of a paired state.
* `toBE n v` / `ofBE`: the big-endian integers of `struct`; `ofBE_toBE` is the round trip.
-/

namespace Lib

abbrev Bytes := List UInt8

inductive Exc where
  | valueError (msg : String)
  | runtimeError (msg : String)
  | connectionError (msg : String)
  | osError (msg : String)
  | memoryError (msg : String)
  | overflowError (msg : String)
  | attributeError (msg : String)
  | structError
  | keyError
  | zeroDivisionError
  /-- `ValueError: invalid literal for int() with base 10: repr(word)`. -/
  | invalidLiteral (word : String)
  /-- No Python exception: the fuel of a `while` loop ran out before the loop ended. -/
  | outOfFuel
deriving DecidableEq, Repr

/-- `text.encode()` for a text of ASCII characters. -/
def ascii (text : String) : Bytes := text.toList.map (fun c => UInt8.ofNat c.toNat)

/-- The numbers from `i` on in steps of `step` that are below `stop`, of which there are at most `n`. -/
def rangeFrom (stop step : Int) : Nat → Int → List Int
  | 0, _ => []
  | n + 1, i => if i < stop then i :: rangeFrom stop step n (i + step) else []

/-- `range(start, stop, step)` for a positive step. -/
def range (start stop step : Int) : List Int := rangeFrom stop step (stop - start).toNat start

theorem rangeFrom_nil {stop step i : Int} (h : stop ≤ i) (n : Nat) : rangeFrom stop step n i = [] := by
  cases n with
  | zero => rfl
  | succ n => exact if_neg (by omega)

theorem le_of_mem_rangeFrom {stop step p : Int} (hstep : 0 ≤ step) (n : Nat) {i : Int}
    (h : p ∈ rangeFrom stop step n i) : i ≤ p := by
  induction n generalizing i with
  | zero => cases h
  | succ n ih =>
    unfold rangeFrom at h
    split at h
    · rcases List.mem_cons.mp h with rfl | h
      · exact Int.le_refl _
      · have := ih h
        omega
    · cases h

theorem le_of_mem_range {start stop step p : Int} (hstep : 0 ≤ step) (h : p ∈ range start stop step) :
    start ≤ p := le_of_mem_rangeFrom hstep _ h

/-! ## Running on one half of the state -/

section Lift

variable {ε σ τ α β : Type}

def onFst (m : EStateM ε σ α) : EStateM ε (σ × τ) α := fun s =>
  match m s.1 with
  | .ok a s' => .ok a (s', s.2)
  | .error e s' => .error e (s', s.2)

def onSnd (m : EStateM ε τ α) : EStateM ε (σ × τ) α := fun s =>
  match m s.2 with
  | .ok a t' => .ok a (s.1, t')
  | .error e t' => .error e (s.1, t')

@[simp] theorem run_onFst (m : EStateM ε σ α) (s : σ × τ) :
    (onFst m).run s = match m.run s.1 with
      | .ok a s' => .ok a (s', s.2)
      | .error e s' => .error e (s', s.2) := rfl

@[simp] theorem run_onSnd (m : EStateM ε τ α) (s : σ × τ) :
    (onSnd m).run s = match m.run s.2 with
      | .ok a t' => .ok a (s.1, t')
      | .error e t' => .error e (s.1, t') := rfl

@[simp] theorem run_throw' (e : ε) (s : σ) : (throw e : EStateM ε σ α).run s = .error e s := rfl

@[simp] theorem run_modify (f : σ → σ) (s : σ) :
    (modify f : EStateM ε σ PUnit).run s = .ok () (f s) := rfl

@[simp] theorem run_modifyGet (f : σ → α × σ) (s : σ) :
    (modifyGet f : EStateM ε σ α).run s = .ok (f s).1 (f s).2 := rfl

@[simp] theorem run_modifyFst (f : σ → σ) (s : σ × τ) :
    (onFst (modify f) : EStateM ε (σ × τ) PUnit).run s = .ok () (f s.1, s.2) := rfl

/-- A sequence returns exactly if its parts do. -/
theorem run_bind_ok {m : EStateM ε σ α} {f : α → EStateM ε σ β} {s t : σ} {b : β} :
    (m >>= f).run s = .ok b t ↔ ∃ a u, m.run s = .ok a u ∧ (f a).run u = .ok b t := by
  rw [EStateM.run_bind]
  cases m.run s <;> simp

/-- `x` raised, or returned a value. -/
def fromExcept (x : Except ε α) : EStateM ε σ α := fun s =>
  match x with
  | .ok a => .ok a s
  | .error e => .error e s

@[simp] theorem run_fromExcept (x : Except ε α) (s : σ) :
    (fromExcept x : EStateM ε σ α).run s = match x with
      | .ok a => .ok a s
      | .error e => .error e s := rfl

/-- `if c: raise e`. -/
def raiseIf (c : Prop) [Decidable c] (e : ε) : EStateM ε σ Unit := if c then throw e else pure ()

theorem run_raiseIf (c : Prop) [Decidable c] (e : ε) (s : σ) :
    (raiseIf c e : EStateM ε σ Unit).run s = if c then .error e s else .ok () s := by
  unfold raiseIf
  split <;> rfl

theorem run_raiseIf_ok {c : Prop} [Decidable c] {e : ε} {s t : σ} {u : Unit} :
    (raiseIf c e : EStateM ε σ Unit).run s = .ok u t ↔ ¬ c ∧ t = s := by
  rw [run_raiseIf]
  split <;> simp_all [eq_comm]

/-- The state a computation ends in, whether it returned or raised. -/
def finalState (m : EStateM ε σ α) (s : σ) : σ :=
  match m.run s with
  | .ok _ s' => s'
  | .error _ s' => s'

theorem finalState_of_ok {m : EStateM ε σ α} {a : α} {s t : σ} (h : m.run s = .ok a t) :
    finalState m s = t := by
  unfold finalState
  rw [h]

theorem finalState_of_error {m : EStateM ε σ α} {e : ε} {s t : σ} (h : m.run s = .error e t) :
    finalState m s = t := by
  unfold finalState
  rw [h]

def returned : EStateM.Result ε σ α → Bool
  | .ok _ _ => true
  | .error _ _ => false

theorem exists_of_returned {r : EStateM.Result ε σ α} (h : returned r = true) : ∃ a t, r = .ok a t := by
  cases r with
  | ok a t => exact ⟨a, t, rfl⟩
  | error e t => cases h

theorem finalState_onFst (m : EStateM ε σ α) (s : σ × τ) :
    finalState (onFst m) s = (finalState m s.1, s.2) := by
  unfold finalState
  rw [run_onFst]
  cases m.run s.1 <;> rfl

theorem finalState_bind (m : EStateM ε σ α) (f : α → EStateM ε σ β) (s : σ) :
    finalState (m >>= f) s = match m.run s with
      | .ok a t => finalState (f a) t
      | .error _ t => t := by
  unfold finalState
  rw [EStateM.run_bind]
  cases m.run s <;> rfl

/-- What follows leaves the state alone. -/
theorem finalState_bind_pure (m : EStateM ε σ α) {f : α → EStateM ε σ β}
    (hf : ∀ a t, finalState (f a) t = t) (s : σ) : finalState (m >>= f) s = finalState m s := by
  rw [finalState_bind]
  unfold finalState
  cases m.run s with
  | ok a t => exact hf a t
  | error e t => rfl

theorem run_tryCatch (m : EStateM ε σ α) (f : ε → EStateM ε σ α) (s : σ) :
    (tryCatch m f).run s = match m.run s with
      | .ok a t => .ok a t
      | .error e t => (f e).run t := by
  show EStateM.tryCatch m f s = _
  simp only [EStateM.tryCatch, EStateM.run]
  cases m s <;> rfl

theorem finalState_tryCatch (m : EStateM ε σ α) (f : ε → EStateM ε σ α) (s : σ) :
    finalState (tryCatch m f) s = match m.run s with
      | .ok _ t => t
      | .error e t => finalState (f e) t := by
  unfold finalState
  rw [run_tryCatch]
  cases m.run s <;> rfl

end Lift

/-! ## Big-endian integers -/

/-- The low `n` bytes of `v`, most significant first. -/
def toBE : Nat → Nat → Bytes
  | 0, _ => []
  | n + 1, v => UInt8.ofNat (v / 256 ^ n) :: toBE n v

def ofBE (b : Bytes) : Nat := b.foldl (fun acc x => acc * 256 + x.toNat) 0

@[simp] theorem length_toBE (n v : Nat) : (toBE n v).length = n := by
  induction n with
  | zero => rfl
  | succ n ih => rw [toBE, List.length_cons, ih]

theorem foldl_toBE (n v acc : Nat) :
    (toBE n v).foldl (fun acc x => acc * 256 + x.toNat) acc = acc * 256 ^ n + v % 256 ^ n := by
  induction n generalizing acc with
  | zero => simp [toBE, Nat.mod_one]
  | succ n ih =>
    have hm : v % 256 ^ (n + 1) = v % 256 ^ n + 256 ^ n * (v / 256 ^ n % 256) := Nat.mod_mul
    have hb : (UInt8.ofNat (v / 256 ^ n)).toNat = v / 256 ^ n % 256 := by simp
    rw [toBE, List.foldl_cons, ih, hb, hm, Nat.add_mul, Nat.pow_succ, Nat.mul_assoc,
      Nat.mul_comm 256 (256 ^ n), Nat.mul_comm (v / 256 ^ n % 256) (256 ^ n)]
    omega

/-- The round trip of `struct`'s unsigned integers. -/
theorem ofBE_toBE {n v : Nat} (h : v < 256 ^ n) : ofBE (toBE n v) = v := by
  rw [ofBE, foldl_toBE, Nat.zero_mul, Nat.zero_add, Nat.mod_eq_of_lt h]

end Lib
