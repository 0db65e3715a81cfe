import RamLink.Lib.Outcome

/-!
# RamLink.Lib.Simulation

Two programs over different states, one of which does whatever the other does.

`Simulates I R m m' s` is a backward simulation: what `m` does from `s` keeps `I`, and `m'` can end the
same way in every state that `R` relates to the end, from some state that `R` relates to `s`. So a
state of `m'` may say beforehand what goes wrong where `m` leaves that to what it meets.

The rules follow the structure of a program. What is known of `m'` from related states carries over to
`m` (`of_ends`), and may be used in the rest of a program (`bind`). `Simulates.trace` is a whole run.
-/

namespace Lib

variable {ε σ τ υ α β ι : Type}

def Simulates (I : σ → Prop) (R : σ → τ → Prop) (m : EStateM ε σ α) (m' : EStateM ε τ α) (s : σ) : Prop :=
  match m.run s with
  | .ok a t => I t ∧ ∀ t', R t t' → ∃ s', R s s' ∧ m'.run s' = .ok a t'
  | .error e t => I t ∧ ∀ t', R t t' → ∃ s', R s s' ∧ m'.run s' = .error e t'

/-- The first components are the same. -/
def beside (R : τ → υ → Prop) (s : σ × τ) (s' : σ × υ) : Prop := s'.1 = s.1 ∧ R s.2 s'.2

namespace Simulates

section

variable {I : σ → Prop} {R : σ → τ → Prop} {m : EStateM ε σ α} {m' : EStateM ε τ α} {s : σ}

theorem pure {a : α} (h : I s) : Simulates I R (Pure.pure a : EStateM ε σ α) (Pure.pure a) s :=
  ⟨h, fun t' ht => ⟨t', ht, rfl⟩⟩

theorem throw {e : ε} (h : I s) :
    Simulates I R (MonadExcept.throw e : EStateM ε σ α) (MonadExcept.throw e) s :=
  ⟨h, fun t' ht => ⟨t', ht, rfl⟩⟩

theorem raiseIf {c : Prop} [Decidable c] {e : ε} (h : I s) :
    Simulates I R (Lib.raiseIf c e : EStateM ε σ Unit) (Lib.raiseIf c e) s := by
  unfold Lib.raiseIf
  split
  · exact throw h
  · exact pure h

/-- What `m'` ends in, of the states related to the end of `m`. -/
theorem of_ends {Q : α → τ → Prop} {E : τ → Prop} (h : Simulates I R m m' s)
    (he : ∀ s', R s s' → Ends m' Q E s') :
    Ends m (fun a t => I t ∧ ∀ t', R t t' → Q a t') (fun t => I t ∧ ∀ t', R t t' → E t') s := by
  unfold Simulates at h
  unfold Ends at he ⊢
  cases hm : m.run s with
  | ok a t =>
    rw [hm] at h
    refine ⟨h.1, fun t' ht => ?_⟩
    obtain ⟨s', hs, hrun⟩ := h.2 t' ht
    have := he s' hs
    rwa [hrun] at this
  | error e t =>
    rw [hm] at h
    refine ⟨h.1, fun t' ht => ?_⟩
    obtain ⟨s', hs, hrun⟩ := h.2 t' ht
    have := he s' hs
    rwa [hrun] at this

/-- A sequence, whose rest may count on what `m'` has come to. -/
theorem bind {f : α → EStateM ε σ β} {f' : α → EStateM ε τ β} {Q : α → τ → Prop} {E : τ → Prop}
    (h : Simulates I R m m' s) (he : ∀ s', R s s' → Ends m' Q E s')
    (hf : ∀ a t, I t → (∀ t', R t t' → Q a t') → Simulates I R (f a) (f' a) t) :
    Simulates I R (m >>= f) (m' >>= f') s := by
  have hends := h.of_ends he
  unfold Simulates at h ⊢
  unfold Ends at hends
  rw [EStateM.run_bind]
  cases hm : m.run s with
  | ok a t =>
    rw [hm] at h hends
    have hrest := hf a t hends.1 hends.2
    unfold Simulates at hrest
    simp only
    cases hfa : (f a).run t with
    | ok b u =>
      rw [hfa] at hrest
      refine ⟨hrest.1, fun u' hu => ?_⟩
      obtain ⟨t', ht, hrun⟩ := hrest.2 u' hu
      obtain ⟨s', hs, hrun'⟩ := h.2 t' ht
      exact ⟨s', hs, by rw [EStateM.run_bind, hrun', ← hrun]⟩
    | error e u =>
      rw [hfa] at hrest
      refine ⟨hrest.1, fun u' hu => ?_⟩
      obtain ⟨t', ht, hrun⟩ := hrest.2 u' hu
      obtain ⟨s', hs, hrun'⟩ := h.2 t' ht
      exact ⟨s', hs, by rw [EStateM.run_bind, hrun', ← hrun]⟩
  | error e t =>
    rw [hm] at h
    refine ⟨h.1, fun t' ht => ?_⟩
    obtain ⟨s', hs, hrun⟩ := h.2 t' ht
    exact ⟨s', hs, by rw [EStateM.run_bind, hrun]⟩

/-- A sequence of which nothing need be known. -/
theorem seq {f : α → EStateM ε σ β} {f' : α → EStateM ε τ β} (h : Simulates I R m m' s)
    (hf : ∀ a t, I t → Simulates I R (f a) (f' a) t) : Simulates I R (m >>= f) (m' >>= f') s := by
  refine h.bind (Q := fun _ _ => True) (E := fun _ => True) (fun s' _ => ?_) fun a t ht _ => hf a t ht
  unfold Ends
  cases m'.run s' <;> trivial

end

/-! ## Beside a common state -/

section Beside

variable {I : τ → Prop} {R : τ → υ → Prop} {s : σ × τ}

theorem onSnd {m : EStateM ε τ α} {m' : EStateM ε υ α} (h : Simulates I R m m' s.2) :
    Simulates (fun s => I s.2) (beside R) (Lib.onSnd m) (Lib.onSnd m') s := by
  unfold Simulates at h ⊢
  rw [run_onSnd]
  cases hm : m.run s.2 with
  | ok a t =>
    rw [hm] at h
    refine ⟨h.1, ?_⟩
    rintro ⟨c, t'⟩ ⟨rfl, ht⟩
    obtain ⟨s', hs, hrun⟩ := h.2 t' ht
    exact ⟨(s.1, s'), ⟨rfl, hs⟩, by rw [run_onSnd, hrun]⟩
  | error e t =>
    rw [hm] at h
    refine ⟨h.1, ?_⟩
    rintro ⟨c, t'⟩ ⟨rfl, ht⟩
    obtain ⟨s', hs, hrun⟩ := h.2 t' ht
    exact ⟨(s.1, s'), ⟨rfl, hs⟩, by rw [run_onSnd, hrun]⟩

theorem onFst {m : EStateM ε σ α} (h : I s.2) :
    Simulates (fun s => I s.2) (beside R) (Lib.onFst m) (Lib.onFst m) s := by
  unfold Simulates
  rw [run_onFst]
  cases hm : m.run s.1 with
  | ok a c =>
    refine ⟨h, ?_⟩
    rintro ⟨d, t'⟩ ⟨rfl, ht⟩
    exact ⟨(s.1, t'), ⟨rfl, ht⟩, by rw [run_onFst, hm]⟩
  | error e c =>
    refine ⟨h, ?_⟩
    rintro ⟨d, t'⟩ ⟨rfl, ht⟩
    exact ⟨(s.1, t'), ⟨rfl, ht⟩, by rw [run_onFst, hm]⟩

/-- The rest of a program that has read the common state, and no more. -/
theorem bind_get {f : σ × τ → EStateM ε (σ × τ) α} {f' : σ × υ → EStateM ε (σ × υ) α} (u : υ)
    (hf : ∀ t', f' (s.1, t') = f' (s.1, u))
    (h : Simulates (fun s => I s.2) (beside R) (f s) (f' (s.1, u)) s) :
    Simulates (fun s => I s.2) (beside R) (MonadState.get >>= f) (MonadState.get >>= f') s := by
  have hrun : (MonadState.get >>= f).run s = (f s).run s := rfl
  have hrun' : ∀ s', beside R s s' → (MonadState.get >>= f').run s' = (f' (s.1, u)).run s' := by
    rintro ⟨c, t'⟩ ⟨rfl, -⟩
    rw [← hf t']
    rfl
  unfold Simulates at h ⊢
  rw [hrun]
  cases hm : (f s).run s with
  | ok a t =>
    rw [hm] at h
    refine ⟨h.1, fun t' ht => ?_⟩
    obtain ⟨s', hs, hend⟩ := h.2 t' ht
    exact ⟨s', hs, (hrun' s' hs).trans hend⟩
  | error e t =>
    rw [hm] at h
    refine ⟨h.1, fun t' ht => ?_⟩
    obtain ⟨s', hs, hend⟩ := h.2 t' ht
    exact ⟨s', hs, (hrun' s' hs).trans hend⟩

end Beside

end Simulates

/-! ## Runs -/

/-- What comes of these steps one after another, whether each returns or raises, and the state then. -/
def trace (step : ι → EStateM ε σ α) : List ι → σ → List (Except ε α) × σ
  | [], s => ([], s)
  | i :: is, s =>
    match (step i).run s with
    | .ok a t => (.ok a :: (trace step is t).1, (trace step is t).2)
    | .error e t => (.error e :: (trace step is t).1, (trace step is t).2)

/-- A whole run; `J` is what every step of the simulating program keeps. -/
theorem Simulates.trace {I : σ → Prop} {R : σ → τ → Prop} {J : τ → Prop} {step : ι → EStateM ε σ α}
    {step' : ι → EStateM ε τ α}
    (hstep : ∀ i s, I s → (∀ s', R s s' → J s') → Simulates I R (step i) (step' i) s)
    (hJ : ∀ i s', J s' → Ends (step' i) (fun _ => J) J s') (is : List ι) :
    ∀ s, I s → (∀ s', R s s' → J s') →
      I (Lib.trace step is s).2 ∧ (∀ t', R (Lib.trace step is s).2 t' → J t' ∧
        ∃ s', R s s' ∧ Lib.trace step' is s' = ((Lib.trace step is s).1, t')) := by
  induction is with
  | nil => exact fun s hi hj => ⟨hi, fun t' ht => ⟨hj t' ht, t', ht, rfl⟩⟩
  | cons i is ih =>
    intro s hi hj
    have h := hstep i s hi hj
    have hends := h.of_ends fun s' hs => hJ i s' (hj s' hs)
    unfold Simulates at h
    unfold Ends at hends
    unfold Lib.trace
    cases hm : (step i).run s with
    | ok a t =>
      rw [hm] at h hends
      obtain ⟨hi', hrest⟩ := ih t hends.1 hends.2
      refine ⟨hi', fun t' ht => ?_⟩
      obtain ⟨hj', u, hu, hrun⟩ := hrest t' ht
      obtain ⟨s', hs, hrun'⟩ := h.2 u hu
      exact ⟨hj', s', hs, by rw [hrun']; simp only [hrun]⟩
    | error e t =>
      rw [hm] at h hends
      obtain ⟨hi', hrest⟩ := ih t hends.1 hends.2
      refine ⟨hi', fun t' ht => ?_⟩
      obtain ⟨hj', u, hu, hrun⟩ := hrest t' ht
      obtain ⟨s', hs, hrun'⟩ := h.2 u hu
      exact ⟨hj', s', hs, by rw [hrun']; simp only [hrun]⟩

end Lib
