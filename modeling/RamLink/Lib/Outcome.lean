import RamLink.Lib.Python

/-!
# RamLink.Lib.Outcome

Postconditions of computations that may raise.

`Ends m Q R s`: from `s`, `m` ends in `Q` if it returns, and in `R` if it raises. The rules follow the
structure of a program; a loop takes an induction on its fuel.

`Finishes m s`: the loop `m`, a program for each amount of fuel, does not run out of it forever.
-/

namespace Lib

variable {ε σ τ α β : Type}

def Ends (m : EStateM ε σ α) (Q : α → σ → Prop) (R : σ → Prop) (s : σ) : Prop :=
  match m.run s with
  | .ok a t => Q a t
  | .error _ t => R t

variable {m : EStateM ε σ α} {Q Q' : α → σ → Prop} {R R' : σ → Prop} {s t : σ}

namespace Ends

theorem mono (h : Ends m Q R s) (hq : ∀ a t, Q a t → Q' a t) (hr : ∀ t, R t → R' t) :
    Ends m Q' R' s := by
  unfold Ends at h ⊢
  cases hm : m.run s with
  | ok a t => rw [hm] at h; exact hq a t h
  | error e t => rw [hm] at h; exact hr t h

/-- Two things that hold at the end. -/
theorem and (h : Ends m Q R s) (h' : Ends m Q' R' s) :
    Ends m (fun a t => Q a t ∧ Q' a t) (fun t => R t ∧ R' t) s := by
  unfold Ends at h h' ⊢
  cases hm : m.run s with
  | ok a t => rw [hm] at h h'; exact ⟨h, h'⟩
  | error e t => rw [hm] at h h'; exact ⟨h, h'⟩

theorem pure {a : α} (h : Q a s) : Ends (Pure.pure a : EStateM ε σ α) Q R s := h

theorem throw {e : ε} (h : R s) : Ends (MonadExcept.throw e : EStateM ε σ α) Q R s := h

theorem bind {f : α → EStateM ε σ β} {Q' : β → σ → Prop} (h : Ends m Q R s)
    (hf : ∀ a t, Q a t → Ends (f a) Q' R t) : Ends (m >>= f) Q' R s := by
  unfold Ends at h ⊢
  rw [EStateM.run_bind]
  cases hm : m.run s with
  | ok a t => rw [hm] at h; exact hf a t h
  | error e t => rw [hm] at h; exact h

/-- What follows a step that never returns is never reached. -/
theorem bind_never {f : α → EStateM ε σ β} {Q' : β → σ → Prop} (h : Ends m (fun _ _ => False) R s) :
    Ends (m >>= f) Q' R s := h.bind fun _ _ hf => hf.elim

/-- The rest of a program that has read its state. -/
theorem bind_get {f : σ → EStateM ε σ β} {Q' : β → σ → Prop} (h : Ends (f s) Q' R s) :
    Ends (MonadState.get >>= f) Q' R s := h

theorem modifyFst {f : σ → σ} {s : σ × τ} {Q : PUnit → σ × τ → Prop} {R : σ × τ → Prop}
    (h : Q () (f s.1, s.2)) : Ends (onFst (modify f) : EStateM ε (σ × τ) PUnit) Q R s := h

theorem setFst {a : σ} {s : σ × τ} {Q : PUnit → σ × τ → Prop} {R : σ × τ → Prop} (h : Q () (a, s.2)) :
    Ends (onFst (MonadState.set a) : EStateM ε (σ × τ) PUnit) Q R s := h

theorem tryCatch {f : ε → EStateM ε σ α} (h : Ends m Q R s) (hf : ∀ e t, R t → Ends (f e) Q R' t) :
    Ends (MonadExcept.tryCatch m f) Q R' s := by
  unfold Ends at h hf ⊢
  have hrun := run_tryCatch m f s
  cases hm : m.run s with
  | ok a t => rw [hm] at h hrun; rw [hrun]; exact h
  | error e t => rw [hm] at h hrun; rw [hrun]; exact hf e t h

theorem raiseIf {c : Prop} [Decidable c] {e : ε} {Q : Unit → σ → Prop} (hr : c → R s)
    (hq : ¬ c → Q () s) : Ends (Lib.raiseIf c e : EStateM ε σ Unit) Q R s := by
  unfold Ends
  rw [run_raiseIf]
  by_cases hc : c
  · rw [if_pos hc]; exact hr hc
  · rw [if_neg hc]; exact hq hc

/-- What follows a check may count on it. -/
theorem bind_raiseIf {c : Prop} [Decidable c] {e : ε} {f : Unit → EStateM ε σ β} {Q' : β → σ → Prop}
    (hr : c → R s) (hf : ¬ c → Ends (f ()) Q' R s) : Ends (Lib.raiseIf c e >>= f) Q' R s := by
  refine bind (Q := fun _ t => ¬ c ∧ t = s) (raiseIf hr fun hc => ⟨hc, rfl⟩) ?_
  rintro _ t ⟨hc, rfl⟩
  exact hf hc

/-- A step on the first component, and the rest of the program. -/
theorem bind_onFst {m : EStateM ε σ α} {f : α → EStateM ε (σ × τ) β} {s : σ × τ} {Q : α → σ → Prop}
    {Q' : β → σ × τ → Prop} {R : σ × τ → Prop} (h : Ends m Q (fun t => R (t, s.2)) s.1)
    (hf : ∀ a t, Q a t → Ends (f a) Q' R (t, s.2)) : Ends (Lib.onFst m >>= f) Q' R s := by
  unfold Ends at h
  refine bind (Q := fun a t => t.2 = s.2 ∧ Q a t.1) ?_ ?_
  · unfold Ends
    rw [run_onFst]
    cases hm : m.run s.1 with
    | ok a t => rw [hm] at h; exact ⟨rfl, h⟩
    | error e t => rw [hm] at h; exact h
  · rintro a ⟨t, u⟩ ⟨rfl, ht⟩
    exact hf a t ht

theorem onSnd {m : EStateM ε τ α} {s : σ × τ} {Q : α → σ × τ → Prop} {R : σ × τ → Prop}
    (h : Ends m (fun a t => Q a (s.1, t)) (fun t => R (s.1, t)) s.2) : Ends (Lib.onSnd m) Q R s := by
  unfold Ends at h ⊢
  rw [run_onSnd]
  cases hm : m.run s.2 with
  | ok a t => rw [hm] at h; exact h
  | error e t => rw [hm] at h; exact h

/-- A step on the second component, and the rest of the program. -/
theorem bind_onSnd {m : EStateM ε τ α} {f : α → EStateM ε (σ × τ) β} {s : σ × τ} {Q : α → τ → Prop}
    {Q' : β → σ × τ → Prop} {R : σ × τ → Prop} (h : Ends m Q (fun t => R (s.1, t)) s.2)
    (hf : ∀ a t, Q a t → Ends (f a) Q' R (s.1, t)) : Ends (Lib.onSnd m >>= f) Q' R s := by
  refine bind (Q := fun a t => t.1 = s.1 ∧ Q a t.2) (onSnd (h.mono (fun a t ht => ⟨rfl, ht⟩) fun t ht => ht)) ?_
  rintro a ⟨u, t⟩ ⟨rfl, ht⟩
  exact hf a t ht

/-- Whatever the second component does. -/
theorem onSnd_any {m : EStateM ε τ α} {s : σ × τ} {Q : α → σ × τ → Prop} {R : σ × τ → Prop}
    (hq : ∀ a t, Q a (s.1, t)) (hr : ∀ t, R (s.1, t)) : Ends (Lib.onSnd m) Q R s := by
  unfold Ends
  rw [run_onSnd]
  cases m.run s.2 with
  | ok a t => exact hq a t
  | error e t => exact hr t

/-- A `for` loop over the numbers below `stop` in steps of `step`; `P` says how far it has come. -/
theorem foldlM_rangeFrom {f : α → Int → EStateM ε σ α} {stop step : Int} (hstep : 0 < step)
    {P : Int → α → σ → Prop}
    (hf : ∀ i a s, i < stop → P i a s → Ends (f a i) (P (min (i + step) stop)) R s) (n : Nat) :
    ∀ i a s, (stop - i).toNat ≤ n → P (min i stop) a s →
      Ends ((rangeFrom stop step n i).foldlM f a) (P stop) R s := by
  induction n with
  | zero =>
    intro i a s hn h
    rw [Int.min_eq_right (by omega)] at h
    exact pure h
  | succ n ih =>
    intro i a s hn h
    unfold rangeFrom
    by_cases hi : i < stop
    · rw [if_pos hi, List.foldlM_cons]
      rw [Int.min_eq_left (by omega)] at h
      exact (hf i a s hi h).bind fun a' t ht => ih (i + step) a' t (by omega) ht
    · rw [if_neg hi]
      rw [Int.min_eq_right (by omega)] at h
      exact pure h

/-- Where nothing is raised, the handler is not reached. -/
theorem tryCatch_ok {f : ε → EStateM ε σ α} (h : Ends m Q (fun _ => False) s) :
    Ends (MonadExcept.tryCatch m f) Q R s := h.tryCatch fun _ _ hf => hf.elim

/-! ## Between postconditions and runs -/

/-- The rest of a program, after a step that returned. -/
theorem bind_ok {a : α} {f : α → EStateM ε σ β} {Q' : β → σ → Prop} (hm : m.run s = .ok a t)
    (hf : Ends (f a) Q' R t) : Ends (m >>= f) Q' R s := by
  unfold Ends at hf ⊢
  rw [EStateM.run_bind, hm]
  exact hf

theorem bind_error {e : ε} {f : α → EStateM ε σ β} {Q' : β → σ → Prop} (hm : m.run s = .error e t)
    (hr : R t) : Ends (m >>= f) Q' R s := by
  unfold Ends
  rw [EStateM.run_bind, hm]
  exact hr

theorem finalState (h : Ends m (fun _ => R) R s) : R (finalState m s) := by
  unfold Ends at h
  unfold Lib.finalState
  cases hm : m.run s with
  | ok a t => rw [hm] at h; exact h
  | error e t => rw [hm] at h; exact h

theorem of_ok {a : α} (h : Ends m Q R s) (hm : m.run s = .ok a t) : Q a t := by
  unfold Ends at h
  rw [hm] at h
  exact h

end Ends

/-! ## Loops that end -/

def Finishes (m : Nat → EStateM Exc σ α) (s : σ) : Prop :=
  ∃ fuel, ∀ t, (m fuel).run s ≠ .error .outOfFuel t

namespace Finishes

variable {m m' : Nat → EStateM Exc σ α} {s s' t : σ}

theorem of_ok (fuel : Nat) {a : α} (h : (m fuel).run s = .ok a t) : Finishes m s :=
  ⟨fuel, fun u hu => by rw [h] at hu; cases hu⟩

theorem of_error (fuel : Nat) {e : Exc} (h : (m fuel).run s = .error e t) (he : e ≠ .outOfFuel) :
    Finishes m s :=
  ⟨fuel, fun u hu => by rw [h] at hu; cases hu; exact he rfl⟩

theorem not_of_stuck (h : ∀ fuel, ∃ t, (m fuel).run s = .error .outOfFuel t) : ¬ Finishes m s := by
  rintro ⟨fuel, hfuel⟩
  obtain ⟨t, ht⟩ := h fuel
  exact hfuel t ht

/-- One turn, which takes one unit of fuel. -/
theorem turn_iff (hzero : ∃ t, (m 0).run s = .error .outOfFuel t)
    (hturn : ∀ fuel, (m (fuel + 1)).run s = (m' fuel).run s') : Finishes m s ↔ Finishes m' s' := by
  constructor
  · rintro ⟨fuel, hfuel⟩
    cases fuel with
    | zero =>
      obtain ⟨t, ht⟩ := hzero
      exact absurd ht (hfuel t)
    | succ fuel => exact ⟨fuel, fun t => by rw [← hturn]; exact hfuel t⟩
  · rintro ⟨fuel, hfuel⟩
    exact ⟨fuel + 1, fun t => by rw [hturn]; exact hfuel t⟩

/-- The rest of a program, after a step that returned. -/
theorem bind_iff {b : β} {n : EStateM Exc σ β} {f : Nat → β → EStateM Exc σ α} (hn : n.run s = .ok b t) :
    Finishes (fun fuel => n >>= f fuel) s ↔ Finishes (fun fuel => f fuel b) t := by
  unfold Finishes
  simp only [EStateM.run_bind, hn]

end Finishes

end Lib
