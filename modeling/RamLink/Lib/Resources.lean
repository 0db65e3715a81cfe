import RamLink.Lib.Monitor

/-!
# RamLink.Lib.Resources

Invariants of the resources of a monitor.

Where ownership keeps the threads apart, an invariant of one resource and the request in progress on
it (`Link.Keeps`) holds of every resource in every reachable state: `resources_exec`.
-/

namespace Lib.Monitor

variable {ρ ε μ π φ χ ω ι κ γ : Type} {P : Protocol μ γ} {share : ρ → Holding γ → Prop}
  {I : List (Event μ) → Option (μ × φ) → χ → Prop} {w w' : World ρ ε μ π φ χ}

/-- What the steps on one resource keep: `I log at c`, where `at` is the request in progress and how
far it is. -/
structure Link.Keeps (L : Link ε μ π φ χ ω ι) (P : Protocol μ γ)
    (I : List (Event μ) → Option (μ × φ) → χ → Prop) : Prop where
  fresh : I [] none L.fresh
  begin : ∀ {log c g m}, P.life log = some (.ready g) → P.allows g m → I log none c →
    I (log ++ [.began m]) (some (m, (L.begin m c).1)) (L.begin m c).2
  turn : ∀ {log c c' m a a'}, I log (some (m, a)) c → L.turn m a c = some (c', .inl a') →
    I log (some (m, a')) c'
  ended : ∀ {log c c' m a r}, I log (some (m, a)) c → L.turn m a c = some (c', .inr r) →
    I (log ++ [System.ended r]) none c'
  fail : ∀ {log c g m a} (f : ω), P.life log = some (.busy g m) → I log (some (m, a)) c →
    I (log ++ [.raised]) none (L.fail m a f c).1
  close : ∀ {log c}, I log none c → I (log ++ [.closed]) none c
  serve : ∀ {log at' c c' x}, I log at' c → L.serve x c = some c' → I log at' c'

/-- Every resource satisfies `I`. -/
structure Resources (I : List (Event μ) → Option (μ × φ) → χ → Prop) (w : World ρ ε μ π φ χ) : Prop where
  talking : ∀ {t i m a k}, w.thread t = .talking i m a k → I (w.log i) (some (m, a)) (w.chan i)
  rest : ∀ {i}, (∀ t, (w.thread t).Off i) → I (w.log i) none (w.chan i)

/-- Thread `t` moves and does nothing to a resource. -/
theorem Resources.move (hr : Resources I w) {t : Nat} (hoff : ∀ i, (w.thread t).Off i)
    {th : Thread ρ ε μ π φ} (hoff' : ∀ i, th.Off i) {r : ρ} {lock : Option Nat} {opened : Nat} :
    Resources I ({ w with self := r, lock := lock, opened := opened }.goto t th) where
  talking := by
    intro u i m a k hu
    by_cases h : u = t
    · subst h
      simp only [World.goto, Function.update_self] at hu
      exact absurd hu (hoff' i m a k)
    · simp only [World.goto, Function.update_of_ne h] at hu
      exact hr.talking hu
  rest := by
    intro i hq
    refine hr.rest fun u => ?_
    by_cases h : u = t
    · subst h
      exact hoff i
    · simpa [World.goto, h] using hq u

/-- Thread `t` takes a step on resource `i`, where no other thread is in a request. -/
theorem Resources.onResource (hr : Resources I w) {t i : Nat} (halone : ∀ u, u ≠ t → (w.thread u).Off i)
    (hoff : ∀ j, j ≠ i → (w.thread t).Off j) {th : Thread ρ ε μ π φ} (hoff' : ∀ j, j ≠ i → th.Off j)
    {c : χ} {log : List (Event μ)}
    (htalk : ∀ m a k, th = .talking i m a k → I log (some (m, a)) c) (hrest : th.Off i → I log none c) :
    Resources I ({ w with
      chan := Function.update w.chan i c, log := Function.update w.log i log }.goto t th) where
  talking := by
    intro u j m a k hu
    by_cases h : u = t
    · subst h
      simp only [World.goto, Function.update_self] at hu
      by_cases hj : j = i
      · subst hj
        simpa [World.goto] using htalk m a k hu
      · exact absurd hu (hoff' j hj m a k)
    · simp only [World.goto, Function.update_of_ne h] at hu
      have hj : j ≠ i := by
        rintro rfl
        exact halone u h m a k hu
      simpa [World.goto, hj] using hr.talking hu
  rest := by
    intro j hq
    by_cases hj : j = i
    · subst hj
      have := hq t
      simp only [World.goto, Function.update_self] at this
      simpa [World.goto] using hrest this
    · have : I (w.log j) none (w.chan j) := hr.rest fun u => by
        by_cases h : u = t
        · subst h
          exact hoff j hj
        · simpa [World.goto, h] using hq u
      simpa [World.goto, hj] using this

theorem Resources.serve {S : System ρ ε μ π φ χ ω ι κ} (hI : S.toLink.Keeps P I) (hr : Resources I w)
    {i : Nat} {x : ι} {c : χ} (h : S.serve x (w.chan i) = some c) : Resources I (w.put i c) where
  talking := by
    intro t j m a k ht
    by_cases hj : j = i
    · subst hj
      have := hI.serve (hr.talking ht) h
      simpa [World.put] using this
    · simpa [World.put, hj] using hr.talking ht
  rest := by
    intro j hq
    by_cases hj : j = i
    · subst hj
      have := hI.serve (hr.rest hq) h
      simpa [World.put] using this
    · have := hr.rest hq
      simpa [World.put, hj] using this

/-- Ownership lets an invariant of the single resource stand for all of them: every step keeps it. -/
theorem resources_step {S : System ρ ε μ π φ χ ω ι κ} (hI : S.toLink.Keeps P I)
    {own : Owners γ} {act : Act ε ω ι κ} (hi : Inv P share w own) (hr : Resources I w)
    (h : S.step w act = some w') : Resources I w' := by
  -- the owner of a resource is the only thread in a request on it
  have halone : ∀ {t i m a k}, w.thread t = .talking i m a k → ∀ u, u ≠ t → (w.thread u).Off i := by
    intro t i m a k ht u hu
    have hs := hi.safe t
    rw [ht] at hs
    obtain ⟨g, hg, -⟩ := hs
    exact hi.alone hg hu
  cases act with
  | call t c =>
    simp only [System.step] at h
    split at h
    · rename_i ht
      cases h
      exact hr.move (by simp [ht]) (by simp)
    · cases h
  | refuse t e =>
    simp only [System.step] at h
    split at h
    · rename_i k ht
      cases h
      exact hr.move (by simp [ht]) (by simp)
    · cases h
  | fail t f =>
    simp only [System.step] at h
    split at h
    · rename_i i m a k ht
      cases h
      obtain ⟨g, hlife⟩ := hi.busy ht
      exact hr.onResource (halone ht) (fun j hj => by simp [ht, Ne.symm hj]) (fun j _ => by simp)
        (fun m' a' k' he => by cases he) fun _ => hI.fail f hlife (hr.talking ht)
    · cases h
  | serve i x =>
    obtain ⟨c, hc, rfl⟩ := Option.map_eq_some_iff.mp h
    exact hr.serve hI hc
  | go t =>
    simp only [System.step] at h
    split at h
    · cases h
    · rename_i p hp
      have hoff : ∀ j, (w.thread t).Off j := by simp [hp]
      have hs := hi.safe t
      rw [hp] at hs
      have hquiet : ∀ {i g}, own.of (some t) i = some g → ∀ u, (w.thread u).Off i := by
        intro i g hg u
        by_cases hu : u = t
        · subst hu
          exact hoff i
        · exact hi.alone hg hu
      cases p with
      | ret a => cases h; exact hr.move hoff (by simp)
      | raise e => cases h; exact hr.move hoff (by simp)
      | get k => cases h; exact hr.move hoff (by simp)
      | set r k => cases h; exact hr.move hoff (by simp)
      | connect k => cases h; exact hr.move hoff (by simp)
      | acquire k =>
        simp only [System.instr] at h
        split at h
        · cases h; exact hr.move hoff (by simp)
        · cases h
      | release k =>
        simp only [System.instr] at h
        split at h
        · cases h; exact hr.move hoff (by simp)
        · cases h
      | close i k =>
        cases h
        obtain ⟨g, hg⟩ := Option.ne_none_iff_exists'.mp hs.1
        have : Resources I ({ w with
            chan := Function.update w.chan i (w.chan i),
            log := Function.update w.log i (w.log i ++ [Event.closed]) }.goto t (.running k)) :=
          hr.onResource (fun u _ => hquiet hg u) (fun j _ => hoff j) (fun j _ => by simp)
            (fun m' a' k' he => by cases he) fun _ => hI.close (hr.rest (hquiet hg))
        simpa [World.note] using this
      | request i m k =>
        cases h
        obtain ⟨g, hg, ha, -⟩ := hs
        refine hr.onResource (fun u _ => hquiet hg u) (fun j _ => hoff j) (fun j hj => by simp [Ne.symm hj])
          ?_ fun hn => absurd rfl (hn m _ k)
        intro m' a' k' he
        cases he
        exact hI.begin (hi.ready hg (hoff i)) ha (hr.rest (hquiet hg))
    · rename_i i m a k ht
      have hj : ∀ j, j ≠ i → (w.thread t).Off j := fun j hj => by simp [ht, Ne.symm hj]
      split at h
      · cases h
      · rename_i c a' hturn
        cases h
        have : Resources I ({ w with
            chan := Function.update w.chan i c,
            log := Function.update w.log i (w.log i) }.goto t (.talking i m a' k)) :=
          hr.onResource (halone ht) hj (fun j hj => by simp [Ne.symm hj])
            (fun m' a'' k' he => by cases he; exact hI.turn (hr.talking ht) hturn)
            fun hn => absurd rfl (hn m a' k)
        simpa [World.put] using this
      · rename_i c r hturn
        cases h
        exact hr.onResource (halone ht) hj (fun j _ => by simp) (fun m' a' k' he => by cases he)
          fun _ => hI.ended (hr.talking ht) hturn

/-- The rule for an invariant of every resource over a run. -/
theorem resources_exec {S : System ρ ε μ π φ χ ω ι κ} (hS : ∀ c, (S.method c).Safe P share Unlocked none .none)
    (hI : S.toLink.Keeps P I) {r : ρ} (hr : share r .none) {as : List (Act ε ω ι κ)}
    (h : exec S.step (S.start r) as = some w) : Resources I w := by
  have hstep : ∀ w act w', ((∃ own, Inv P share w own) ∧ Resources I w) → S.step w act = some w' →
      (∃ own, Inv P share w' own) ∧ Resources I w' := by
    rintro w act w' ⟨⟨own, hi⟩, hres⟩ hs
    exact ⟨inv_step hS hi hs, resources_step hI hi hres hs⟩
  have hinit : Resources I (S.start r) :=
    { talking := fun h => by cases h
      rest := fun _ => hI.fresh }
  exact (exec_inv hstep ⟨⟨_, inv_start hr⟩, hinit⟩ h).2

end Lib.Monitor
