import Mathlib.Tactic.Common

/-!
# RamLink.Lib.Run

Runs of a transition system given by a step function `step : σ → α → Option σ` (`none`: the action
is not enabled).

* `exec` runs a list of actions; `exec_inv` is the invariant rule for it.
* `Always P s as`: every state the run of `as` from `s` visits, `s` included, satisfies `P`.
* `Guarded C s as`: every action the run takes satisfies `C` in the state it is taken in.
* `always_iff_guarded`: where `C` is exactly what a step needs to keep `P`, a run keeps `P` in
  every state if and only if it is guarded by `C`.
* `tally` replays a run on a record of its state; `guarded_iff_tally`: where the guard is about what
  a step adds to the tally, a run is guarded if and only if all of its tally meets it.
-/

namespace Lib

variable {σ α : Type*} (step : σ → α → Option σ)

def exec : σ → List α → Option σ
  | s, [] => some s
  | s, a :: as =>
    match step s a with
    | none => none
    | some s' => exec s' as

def Always (P : σ → Prop) : σ → List α → Prop
  | s, [] => P s
  | s, a :: as => P s ∧ ∀ s', step s a = some s' → Always P s' as

def Guarded (C : σ → α → Prop) : σ → List α → Prop
  | _, [] => True
  | s, a :: as => ∀ s', step s a = some s' → C s a ∧ Guarded C s' as

/-- What the actions add up to, where `next` says what one of them adds to the tally and what becomes
of the record. -/
def tally {τ η : Type*} (next : τ → α → List η × τ) : τ → List α → List η
  | _, [] => []
  | t, a :: as => (next t a).1 ++ tally next (next t a).2 as

variable {step}

@[simp] theorem exec_nil (s : σ) : exec step s [] = some s := rfl

theorem exec_cons_some {s t : σ} {a : α} {as : List α} :
    exec step s (a :: as) = some t ↔ ∃ s', step s a = some s' ∧ exec step s' as = some t := by
  simp only [exec]
  cases step s a <;> simp

theorem exec_append {as bs : List α} : ∀ {s t : σ},
    exec step s (as ++ bs) = some t ↔ ∃ s', exec step s as = some s' ∧ exec step s' bs = some t := by
  induction as with
  | nil => intro s t; simp
  | cons a as ih =>
    intro s t
    simp only [List.cons_append, exec_cons_some, ih]
    constructor
    · rintro ⟨s1, h1, s2, h2, h3⟩
      exact ⟨s2, ⟨s1, h1, h2⟩, h3⟩
    · rintro ⟨s2, ⟨s1, h1, h2⟩, h3⟩
      exact ⟨s1, h1, s2, h2, h3⟩

theorem guarded_stuck {C : σ → α → Prop} {s : σ} {a : α} (h : step s a = none) (as : List α) :
    Guarded step C s (a :: as) := fun s' hs => by
  rw [h] at hs
  cases hs

theorem guarded_cons {C : σ → α → Prop} {s s' : σ} {a : α} (h : step s a = some s') (as : List α) :
    Guarded step C s (a :: as) ↔ C s a ∧ Guarded step C s' as := by
  constructor
  · exact fun hg => hg s' h
  · intro hg t ht
    rw [h] at ht
    cases ht
    exact hg

instance Guarded.decidable {C : σ → α → Prop} [∀ s a, Decidable (C s a)] :
    ∀ (s : σ) (as : List α), Decidable (Guarded step C s as)
  | _, [] => .isTrue trivial
  | s, a :: as =>
    match h : step s a with
    | none => .isTrue (guarded_stuck h as)
    | some s' =>
      have : Decidable (Guarded step C s' as) := Guarded.decidable s' as
      decidable_of_iff _ (guarded_cons h as).symm

/-- The invariant rule. -/
theorem exec_inv {I : σ → Prop} (hstep : ∀ s a s', I s → step s a = some s' → I s') :
    ∀ {as : List α} {s t : σ}, I s → exec step s as = some t → I t := by
  intro as
  induction as with
  | nil => intro s t hs h; cases h; exact hs
  | cons a as ih =>
    intro s t hs h
    obtain ⟨s', h1, h2⟩ := exec_cons_some.mp h
    exact ih (hstep s a s' hs h1) h2

theorem Always.head {P : σ → Prop} {s : σ} {as : List α} (h : Always step P s as) : P s := by
  cases as with
  | nil => exact h
  | cons a as => exact h.1

/-- `P` holds in the state any part of the run ends in. -/
theorem Always.of_exec {P : σ → Prop} {as bs : List α} : ∀ {s t : σ},
    Always step P s (as ++ bs) → exec step s as = some t → P t := by
  induction as with
  | nil => intro s t h he; cases he; exact h.head
  | cons a as ih =>
    intro s t h he
    obtain ⟨s', h1, h2⟩ := exec_cons_some.mp he
    exact ih (h.2 s' h1) h2

theorem Always.mono {P Q : σ → Prop} (hpq : ∀ s, P s → Q s) {as : List α} : ∀ {s : σ},
    Always step P s as → Always step Q s as := by
  induction as with
  | nil => intro s h; exact hpq s h
  | cons a as ih => intro s h; exact ⟨hpq s h.1, fun s' hs => ih (h.2 s' hs)⟩

/-- A guarded run keeps every invariant that guarded steps keep. -/
theorem always_of_guarded {I : σ → Prop} {C : σ → α → Prop}
    (hstep : ∀ s a s', I s → C s a → step s a = some s' → I s') {as : List α} :
    ∀ {s : σ}, I s → Guarded step C s as → Always step I s as := by
  induction as with
  | nil => intro s hs _; exact hs
  | cons a as ih =>
    intro s hs hg
    exact ⟨hs, fun s' h => ih (hstep s a s' hs (hg s' h).1 h) (hg s' h).2⟩

/-- A guarded run is no longer than a measure that each of its steps takes something from. -/
theorem length_le_of_guarded {I : σ → Prop} {C : σ → α → Prop} {A : α → Prop} {μ : σ → Nat}
    (hstep : ∀ s a s', I s → C s a → A a → step s a = some s' → I s' ∧ μ s' < μ s) {as : List α} :
    ∀ {s t : σ}, I s → (∀ a ∈ as, A a) → Guarded step C s as → exec step s as = some t →
      as.length ≤ μ s := by
  induction as with
  | nil => intro s t _ _ _ _; exact Nat.zero_le _
  | cons a as ih =>
    intro s t hs hA hg he
    obtain ⟨s', h1, h2⟩ := exec_cons_some.mp he
    obtain ⟨hs', hlt⟩ := hstep s a s' hs (hg s' h1).1 (hA a (List.mem_cons_self ..)) h1
    have hrest := ih hs' (fun b hb => hA b (List.mem_cons_of_mem _ hb)) (hg s' h1).2 h2
    rw [List.length_cons]
    omega

theorem Guarded.cons {C : σ → α → Prop} {s s' : σ} {a : α} {as : List α} (h : step s a = some s')
    (hc : C s a) (hr : Guarded step C s' as) : Guarded step C s (a :: as) := by
  intro t ht
  rw [h] at ht
  cases ht
  exact ⟨hc, hr⟩

/-- The guard holds of each action the run takes. -/
theorem Guarded.of_exec {C : σ → α → Prop} {as bs : List α} {a : α} : ∀ {s t t' : σ},
    Guarded step C s (as ++ a :: bs) → exec step s as = some t → step t a = some t' → C t a := by
  induction as with
  | nil => intro s t t' h he ha; cases he; exact (h t' ha).1
  | cons b as ih =>
    intro s t t' h he ha
    obtain ⟨s', h1, h2⟩ := exec_cons_some.mp he
    exact ih (h s' h1).2 h2 ha

/-- A guarded run meets whatever its guard and invariant imply of each action. -/
theorem Guarded.imp {I : σ → Prop} {C D : σ → α → Prop}
    (hstep : ∀ s a s', I s → C s a → step s a = some s' → I s')
    (himp : ∀ s a, I s → C s a → D s a) {as : List α} :
    ∀ {s : σ}, I s → Guarded step C s as → Guarded step D s as := by
  induction as with
  | nil => intro s _ _; trivial
  | cons a as ih =>
    intro s hs hg s' h
    exact ⟨himp s a hs (hg s' h).1, ih (hstep s a s' hs (hg s' h).1 h) (hg s' h).2⟩

/-- Two guards that say the same of every action of a run guard the same runs. -/
theorem guarded_congr {I : σ → Prop} {C D : σ → α → Prop}
    (hstep : ∀ s a s', I s → step s a = some s' → I s')
    (hiff : ∀ s a s', I s → step s a = some s' → (C s a ↔ D s a)) {as : List α} :
    ∀ {s : σ}, I s → (Guarded step C s as ↔ Guarded step D s as) := by
  induction as with
  | nil => intro s _; exact Iff.rfl
  | cons a as ih =>
    intro s hs
    constructor
    · intro h s' hstep'
      obtain ⟨hc, hr⟩ := h s' hstep'
      exact ⟨(hiff s a s' hs hstep').mp hc, (ih (hstep s a s' hs hstep')).mp hr⟩
    · intro h s' hstep'
      obtain ⟨hd, hr⟩ := h s' hstep'
      exact ⟨(hiff s a s' hs hstep').mpr hd, (ih (hstep s a s' hs hstep')).mpr hr⟩

/-- A run of a step that is always enabled, and whose record `record` is kept by `next`. -/
theorem guarded_iff_tally {τ η : Type*} {I : σ → Prop} {record : σ → τ} {next : τ → α → List η × τ}
    {ok : η → Prop} (htotal : ∀ s a, ∃ s', step s a = some s')
    (hI : ∀ s a s', I s → step s a = some s' → I s')
    (hnext : ∀ s a s', I s → step s a = some s' → record s' = (next (record s) a).2) {as : List α} :
    ∀ {s : σ}, I s → (Guarded step (fun s a => ∀ h ∈ (next (record s) a).1, ok h) s as ↔
      ∀ h ∈ tally next (record s) as, ok h) := by
  induction as with
  | nil => intro s _; simp [Guarded, tally]
  | cons a as ih =>
    intro s hs
    obtain ⟨s', hs'⟩ := htotal s a
    have hrest := ih (hI s a s' hs hs')
    rw [hnext s a s' hs hs'] at hrest
    simp only [tally, List.mem_append, or_imp, forall_and, ← hrest]
    constructor
    · intro h
      exact h s' hs'
    · intro h
      exact Guarded.cons hs' h.1 h.2

/-- Where `I` holds in every reachable state and, inside `I` and `P`, a step keeps `P` exactly if
the guard holds, the runs that keep `P` throughout are the guarded ones. -/
theorem always_iff_guarded {I P : σ → Prop} {C : σ → α → Prop}
    (hI : ∀ s a s', I s → step s a = some s' → I s')
    (hP : ∀ s a s', I s → P s → step s a = some s' → (P s' ↔ C s a)) {as : List α} :
    ∀ {s : σ}, I s → P s → (Always step P s as ↔ Guarded step C s as) := by
  induction as with
  | nil => intro s _ hp; exact ⟨fun _ => trivial, fun _ => hp⟩
  | cons a as ih =>
    intro s hi hp
    constructor
    · rintro ⟨-, h⟩ s' hs
      have hp' : P s' := (h s' hs).head
      exact ⟨(hP s a s' hi hp hs).mp hp', (ih (hI s a s' hi hs) hp').mp (h s' hs)⟩
    · intro h
      refine ⟨hp, fun s' hs => ?_⟩
      have hp' : P s' := (hP s a s' hi hp hs).mpr (h s' hs).1
      exact (ih (hI s a s' hi hs) hp').mpr (h s' hs).2

/-- Where the allowed steps keep `J`, which has `P`, if they meet the guard, and lose `P` if they do
not, the allowed runs that keep `P` throughout are the guarded ones. -/
theorem always_iff_guarded_of {J P : σ → Prop} {A : α → Prop} {C : σ → α → Prop}
    (hJ : ∀ s, J s → P s)
    (hkeep : ∀ s a s', J s → A a → step s a = some s' → C s a → J s')
    (hlose : ∀ s a s', J s → A a → step s a = some s' → ¬ C s a → ¬ P s') {as : List α} :
    ∀ {s : σ}, J s → (∀ a ∈ as, A a) → (Always step P s as ↔ Guarded step C s as) := by
  induction as with
  | nil => intro s hj _; exact ⟨fun _ => trivial, fun _ => hJ s hj⟩
  | cons a as ih =>
    intro s hj hA
    have ha : A a := hA a (List.mem_cons_self ..)
    have has : ∀ b ∈ as, A b := fun b hb => hA b (List.mem_cons_of_mem _ hb)
    constructor
    · rintro ⟨-, h⟩ s' hs
      have hc : C s a := Classical.byContradiction (fun hn => hlose s a s' hj ha hs hn (h s' hs).head)
      exact ⟨hc, (ih (hkeep s a s' hj ha hs hc) has).mp (h s' hs)⟩
    · intro h
      refine ⟨hJ s hj, fun s' hs => ?_⟩
      obtain ⟨hc, hr⟩ := h s' hs
      exact (ih (hkeep s a s' hj ha hs hc) has).mpr hr

end Lib
