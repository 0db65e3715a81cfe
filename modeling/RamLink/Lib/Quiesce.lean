import RamLink.Lib.Monitor

/-!
# RamLink.Lib.Quiesce

A monitor has no deadlock.

`quiesces`: in every reachable state the calls under way can all come to their end, by steps of their
own threads alone, after which the lock is free. A request that waits for its peer can only fail.
-/

namespace Lib.Monitor

variable {ρ ε μ π φ χ ω ι κ γ : Type} {P : Protocol μ γ} {share : ρ → Holding γ → Prop}
  {S : System ρ ε μ π φ χ ω ι κ} {w w' : World ρ ε μ π φ χ} {own : Owners γ}

/-- A step of a thread that needs no peer: a request can always fail. -/
def Act.Own : Act ε ω ι κ → Prop
  | .go _ | .fail _ _ => True
  | _ => False

/-- `w'` is reached without new calls and without the peers. -/
def Reaches (S : System ρ ε μ π φ χ ω ι κ) (w w' : World ρ ε μ π φ χ) : Prop :=
  ∃ as, (∀ a ∈ as, a.Own) ∧ exec S.step w as = some w'

theorem Reaches.refl (w : World ρ ε μ π φ χ) : Reaches S w w := ⟨[], by simp, rfl⟩

theorem Reaches.step (act : Act ε ω ι κ) {w₁ : World ρ ε μ π φ χ} (ho : act.Own)
    (h : S.step w act = some w₁) (hr : Reaches S w₁ w') : Reaches S w w' := by
  obtain ⟨as, ha, he⟩ := hr
  exact ⟨act :: as, by simpa using ⟨ho, ha⟩, exec_cons_some.mpr ⟨w₁, h, he⟩⟩

theorem Reaches.trans {w₁ : World ρ ε μ π φ χ} (h : Reaches S w w₁) (hr : Reaches S w₁ w') :
    Reaches S w w' := by
  obtain ⟨as, ha, he⟩ := h
  obtain ⟨bs, hb, he'⟩ := hr
  refine ⟨as ++ bs, ?_, exec_append.mpr ⟨w₁, he, he'⟩⟩
  intro a h
  exact (List.mem_append.mp h).elim (ha a) (hb a)

theorem step_fail (f : ω) {t i : Nat} {m : μ} {a : φ} {k : Except ε π → Prog ρ ε μ π Unit}
    (h : w.thread t = .talking i m a k) : ∃ c e, S.step w (.fail t f) =
      some (((w.put i c).note i .raised).goto t (.running (k (.error e)))) := by
  simp only [System.step, h]
  exact ⟨_, _, rfl⟩

/-- The call of `t` has ended, the lock is free, and no other thread has moved. -/
structure Done (t : Nat) (w w' : World ρ ε μ π φ χ) : Prop where
  idle : w'.thread t = .idle
  free : w'.lock = none
  others : ∀ u, u ≠ t → w'.thread u = w.thread u

/-- A thread that has the lock, or finds it free, can run its call to the end alone. -/
theorem run_alone (hS : ∀ c, (S.method c).Safe P share Unlocked none .none) (f : ω) {t : Nat}
    (p : Prog ρ ε μ π Unit) : ∀ {w : World ρ ε μ π φ χ} {own : Owners γ},
    Inv P share w own → w.thread t = .running p → w.lock = none ∨ w.lock = some t →
    ∃ w', Reaches S w w' ∧ (∃ own', Inv P share w' own') ∧ Done t w w' := by
  -- the next step is `act`, and what follows is covered by the induction
  have next : ∀ {w w₁ : World ρ ε μ π φ χ} {own : Owners γ} {act : Act ε ω ι κ} {th},
      Inv P share w own → S.step w act = some w₁ → act.Own → w₁.thread = Function.update w.thread t th →
      (∀ {own'}, Inv P share w₁ own' →
        ∃ w', Reaches S w₁ w' ∧ (∃ own', Inv P share w' own') ∧ Done t w₁ w') →
      ∃ w', Reaches S w w' ∧ (∃ own', Inv P share w' own') ∧ Done t w w' := by
    intro w w₁ own act th hi hs ho ht hk
    obtain ⟨own', hi'⟩ := inv_step hS hi hs
    obtain ⟨w', hr, hw', hd⟩ := hk hi'
    refine ⟨w', .step act ho hs hr, hw', hd.idle, hd.free, fun u hu => ?_⟩
    rw [hd.others u hu, ht, Function.update_of_ne hu]
  have last : ∀ {w : World ρ ε μ π φ χ} {own : Owners γ}, Inv P share w own →
      w.lock = none ∨ w.lock = some t → w.held t = none → S.step w (.go t) = some (w.goto t .idle) →
      ∃ w', Reaches S w w' ∧ (∃ own', Inv P share w' own') ∧ Done t w w' := by
    intro w own hi hl hh hs
    have hfree : w.lock = none := by
      rcases hl with hl | hl
      · exact hl
      · rw [held_of_lock hl] at hh
        cases hh
    exact ⟨_, .step (.go t) trivial hs (.refl _), inv_step hS hi hs, World.goto_self .., hfree,
      fun u hu => World.goto_of_ne _ hu _⟩
  induction p with
  | ret a =>
    intro w own hi ht hl
    have hs := hi.safe t
    rw [ht] at hs
    exact last hi hl hs (by simp only [System.step, ht]; rfl)
  | raise e =>
    intro w own hi ht hl
    have hs := hi.safe t
    rw [ht] at hs
    exact last hi hl hs (by simp only [System.step, ht]; rfl)
  | acquire k ih =>
    intro w own hi ht hl
    have hs := hi.safe t
    rw [ht] at hs
    have hfree : w.lock = none := by
      rcases hl with hl | hl
      · exact hl
      · have := hs.1
        rw [held_of_lock hl] at this
        cases this
    have hstep : S.step w (.go t) = some ({ w with lock := some t }.goto t (.running k)) := by
      simp only [System.step, ht, System.instr, if_pos hfree]
    exact next hi hstep trivial rfl fun hi' => ih hi' (World.goto_self ..) (Or.inr rfl)
  | release k ih =>
    intro w own hi ht hl
    have hs := hi.safe t
    rw [ht] at hs
    obtain ⟨r, -, hr, -⟩ := hs
    have hstep : S.step w (.go t) = some ({ w with lock := none }.goto t (.running k)) := by
      simp only [System.step, ht, System.instr, if_pos (held_eq_some hr).1]
    exact next hi hstep trivial rfl fun hi' => ih hi' (World.goto_self ..) (Or.inl rfl)
  | get k ih =>
    intro w own hi ht hl
    have hstep : S.step w (.go t) = some (w.goto t (.running (k w.self))) := by
      simp only [System.step, ht, System.instr]
    exact next hi hstep trivial rfl fun hi' => ih _ hi' (World.goto_self ..) hl
  | set r k ih =>
    intro w own hi ht hl
    have hstep : S.step w (.go t) = some ({ w with self := r }.goto t (.running k)) := by
      simp only [System.step, ht, System.instr]
    exact next hi hstep trivial rfl fun hi' => ih hi' (World.goto_self ..) hl
  | connect k ih =>
    intro w own hi ht hl
    have hstep : S.step w (.go t) =
        some ({ w with opened := w.opened + 1 }.goto t (.running (k (.ok w.opened)))) := by
      simp only [System.step, ht, System.instr]
    exact next hi hstep trivial rfl fun hi' => ih _ hi' (World.goto_self ..) hl
  | close i k ih =>
    intro w own hi ht hl
    have hstep : S.step w (.go t) = some ((w.note i .closed).goto t (.running k)) := by
      simp only [System.step, ht, System.instr]
    exact next hi hstep trivial rfl fun hi' => ih hi' (World.goto_self ..) hl
  | request i m k ih =>
    intro w own hi ht hl
    have hbegin : S.step w (.go t) = some (((w.put i (S.begin m (w.chan i)).2).note i (.began m)).goto t
        (.talking i m (S.begin m (w.chan i)).1 k)) := by
      simp only [System.step, ht, System.instr]
    refine next hi hbegin trivial rfl fun hi' => ?_
    obtain ⟨c, e, hfail⟩ := step_fail (S := S) f (World.goto_self ((w.put i _).note i _) t _)
    exact next hi' hfail trivial rfl fun hi'' => ih _ hi'' (World.goto_self ..) hl

/-- The same for a thread anywhere in a call. -/
theorem finish_alone (hS : ∀ c, (S.method c).Safe P share Unlocked none .none) (f : ω) {t : Nat}
    (hi : Inv P share w own) (hl : w.lock = none ∨ w.lock = some t) :
    ∃ w', Reaches S w w' ∧ (∃ own', Inv P share w' own') ∧ Done t w w' := by
  cases ht : w.thread t with
  | idle =>
    have hs := hi.safe t
    rw [ht] at hs
    have hfree : w.lock = none := by
      rcases hl with hl | hl
      · exact hl
      · rw [held_of_lock hl] at hs
        cases hs
    exact ⟨w, .refl w, ⟨own, hi⟩, ht, hfree, fun _ _ => rfl⟩
  | running p => exact run_alone hS f p hi ht hl
  | talking i m a k =>
    obtain ⟨c, e, hs⟩ := step_fail (S := S) f ht
    obtain ⟨own', hi'⟩ := inv_step hS hi hs
    obtain ⟨w', hr, hw', hd⟩ := run_alone hS f _ hi' (World.goto_self ..) hl
    refine ⟨w', .step (.fail t f) trivial hs hr, hw', hd.idle, hd.free, fun u hu => ?_⟩
    rw [hd.others u hu, World.goto_of_ne _ hu]
    rfl

/-- The threads of `ts` one after the other, from a state in which no other thread is in a call. -/
theorem quiesce (hS : ∀ c, (S.method c).Safe P share Unlocked none .none) (f : ω) (ts : List Nat) :
    ∀ {w : World ρ ε μ π φ χ} {own : Owners γ}, Inv P share w own → w.lock = none →
    (∀ t, t ∉ ts → w.thread t = .idle) →
    ∃ w', Reaches S w w' ∧ w'.lock = none ∧ ∀ t, w'.thread t = .idle := by
  induction ts with
  | nil => exact fun hi hl hts => ⟨_, .refl _, hl, fun t => hts t (by simp)⟩
  | cons t ts ih =>
    intro w own hi hl hts
    obtain ⟨w₁, hr, ⟨own₁, hi₁⟩, hd⟩ := finish_alone (t := t) hS f hi (Or.inl hl)
    obtain ⟨w', hr', hl', hidle⟩ := ih hi₁ hd.free fun u hu => by
      by_cases h : u = t
      · rw [h]
        exact hd.idle
      · rw [hd.others u h]
        exact hts u (by simp [h, hu])
    exact ⟨w', hr.trans hr', hl', hidle⟩

/-- Only the thread a step is about leaves its place. -/
theorem step_thread {act : Act ε ω ι κ} (h : S.step w act = some w') :
    ∃ t, ∀ u, u ≠ t → w'.thread u = w.thread u := by
  have hgoto : ∀ (v : World ρ ε μ π φ χ) (t : Nat) (th : Thread ρ ε μ π φ), v.thread = w.thread →
      ∃ t', ∀ u, u ≠ t' → (v.goto t th).thread u = w.thread u :=
    fun v t th hv => ⟨t, fun u hu => by rw [World.goto_of_ne _ hu, hv]⟩
  cases act with
  | call t c =>
    simp only [System.step] at h
    split at h
    · cases h
      exact hgoto _ _ _ rfl
    · cases h
  | go t =>
    simp only [System.step] at h
    split at h
    · cases h
    · rename_i p _
      cases p <;> simp only [System.instr] at h <;>
        first
          | (cases h; exact hgoto _ _ _ rfl)
          | (split at h <;> cases h; exact hgoto _ _ _ rfl)
    · split at h
      · cases h
      · cases h
        exact hgoto _ _ _ rfl
      · cases h
        exact hgoto _ _ _ rfl
  | refuse t e =>
    simp only [System.step] at h
    split at h
    · cases h
      exact hgoto _ _ _ rfl
    · cases h
  | fail t f =>
    simp only [System.step] at h
    split at h
    · cases h
      exact hgoto _ _ _ rfl
    · cases h
  | serve i x =>
    obtain ⟨c, -, rfl⟩ := Option.map_eq_some_iff.mp h
    exact ⟨0, fun _ _ => rfl⟩

/-- No reachable state is a deadlock: without any answer of a peer, all calls under way can end, and
then the lock is free. -/
theorem quiesces (hS : ∀ c, (S.method c).Safe P share Unlocked none .none) {r : ρ} (hr : share r .none)
    (f : ω) {as : List (Act ε ω ι κ)} (h : exec S.step (S.start r) as = some w) :
    ∃ w', Reaches S w w' ∧ w'.lock = none ∧ ∀ t, w'.thread t = .idle := by
  have hstep : ∀ w act w', (∃ ts : List Nat, ∀ t, t ∉ ts → w.thread t = .idle) → S.step w act = some w' →
      ∃ ts : List Nat, ∀ t, t ∉ ts → w'.thread t = .idle := by
    rintro w act w' ⟨ts, hts⟩ hs
    obtain ⟨t, ht⟩ := step_thread hs
    refine ⟨t :: ts, fun u hu => ?_⟩
    rw [List.mem_cons, not_or] at hu
    rw [ht u hu.1, hts u hu.2]
  obtain ⟨ts, hts⟩ := exec_inv hstep ⟨[], fun t _ => rfl⟩ h
  obtain ⟨own, hi⟩ := inv_exec hS hr h
  cases hl : w.lock with
  | none => exact quiesce hS f ts hi hl hts
  | some t =>
    -- the holder first
    obtain ⟨w₁, hr₁, ⟨own₁, hi₁⟩, hd⟩ := finish_alone hS f hi (Or.inr hl)
    obtain ⟨w', hr', hl', hidle⟩ := quiesce hS f ts hi₁ hd.free fun u hu => by
      by_cases h : u = t
      · rw [h]
        exact hd.idle
      · rw [hd.others u h]
        exact hts u hu
    exact ⟨w', hr₁.trans hr', hl', hidle⟩

end Lib.Monitor
