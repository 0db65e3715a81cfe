import RamLink.Lib.Prog

/-!
# RamLink.Lib.Monitor

Threads that run the methods (`Prog`) of one object, whose requests take many steps.

`System.step` interleaves the threads' steps: one instruction of a method, one step of a request,
which may fail at any point, and the steps of the peers behind the resources.

* `Inv`: an owner for every resource in use, a thread or the lock; `inv_step` is that every step
  keeps it, if every method is `Safe`.
* `life_of_exec`: on every resource the threads keep to the protocol. In particular they take turns.
* `exec_rule`: the rule for an invariant of each resource, in progress or not.
* `quiesces`: from every reachable state the calls under way can all come to their end.
-/

namespace Lib.Monitor

/-- `φ` is how far a request is, `χ` a resource and its peer, `ω` how a step fails, `ι` what a peer
does. -/
structure Link (ε μ π φ χ ω ι : Type) where
  fresh : χ
  begin : μ → χ → φ × χ
  /-- The next step of a request; `none` while it waits for the peer. -/
  turn : μ → φ → χ → Option (χ × (φ ⊕ Except ε π))
  fail : μ → φ → ω → χ → χ × ε
  serve : ι → χ → Option χ

structure System (ρ ε μ π φ χ ω ι κ : Type) extends Link ε μ π φ χ ω ι where
  method : κ → Prog ρ ε μ π Unit

inductive Thread (ρ ε μ π φ : Type) where
  | idle
  | running (p : Prog ρ ε μ π Unit)
  /-- In a request on resource `i`, with what follows it. -/
  | talking (i : Nat) (m : μ) (a : φ) (k : Except ε π → Prog ρ ε μ π Unit)

/-- Not in a request on resource `i`. -/
def Thread.Off {ρ ε μ π φ : Type} (th : Thread ρ ε μ π φ) (i : Nat) : Prop :=
  ∀ m a k, th ≠ .talking i m a k

structure World (ρ ε μ π φ χ : Type) where
  self : ρ
  lock : Option Nat
  thread : Nat → Thread ρ ε μ π φ
  opened : Nat
  chan : Nat → χ
  log : Nat → List (Event μ)

namespace World

variable {ρ ε μ π φ χ : Type}

def goto (w : World ρ ε μ π φ χ) (t : Nat) (th : Thread ρ ε μ π φ) : World ρ ε μ π φ χ :=
  { w with thread := Function.update w.thread t th }

def put (w : World ρ ε μ π φ χ) (i : Nat) (c : χ) : World ρ ε μ π φ χ :=
  { w with chan := Function.update w.chan i c }

def note (w : World ρ ε μ π φ χ) (i : Nat) (e : Event μ) : World ρ ε μ π φ χ :=
  { w with log := Function.update w.log i (w.log i ++ [e]) }

/-- The fields, for a thread that holds the lock. -/
def held (w : World ρ ε μ π φ χ) (t : Nat) : Option ρ := if w.lock = some t then some w.self else none

@[simp] theorem goto_self (w : World ρ ε μ π φ χ) (t : Nat) (th : Thread ρ ε μ π φ) :
    (w.goto t th).thread t = th := Function.update_self ..

theorem goto_of_ne (w : World ρ ε μ π φ χ) {t u : Nat} (h : u ≠ t) (th : Thread ρ ε μ π φ) :
    (w.goto t th).thread u = w.thread u := Function.update_of_ne h ..

end World

inductive Act (ε ω ι κ : Type) where
  /-- An idle thread calls a method. -/
  | call (t : Nat) (c : κ)
  /-- A thread runs its next instruction, or the next step of its request. -/
  | go (t : Nat)
  /-- `connect` raises. -/
  | refuse (t : Nat) (e : ε)
  /-- The next step of a request raises. -/
  | fail (t : Nat) (f : ω)
  | serve (i : Nat) (x : ι)

namespace System

variable {ρ ε μ π φ χ ω ι κ γ : Type} (S : System ρ ε μ π φ χ ω ι κ)

def start (r : ρ) : World ρ ε μ π φ χ := ⟨r, none, fun _ => .idle, 0, fun _ => S.fresh, fun _ => []⟩

def ended (r : Except ε π) : Event μ := if r.isOk then .returned else .raised

def instr (w : World ρ ε μ π φ χ) (t : Nat) : Prog ρ ε μ π Unit → Option (World ρ ε μ π φ χ)
  | .ret _ => some (w.goto t .idle)
  | .raise _ => some (w.goto t .idle)
  | .acquire k => if w.lock = none then some ({ w with lock := some t }.goto t (.running k)) else none
  | .release k => if w.lock = some t then some ({ w with lock := none }.goto t (.running k)) else none
  | .get k => some (w.goto t (.running (k w.self)))
  | .set r k => some ({ w with self := r }.goto t (.running k))
  | .connect k => some ({ w with opened := w.opened + 1 }.goto t (.running (k (.ok w.opened))))
  | .close i k => some ((w.note i .closed).goto t (.running k))
  | .request i m k =>
    let (a, c) := S.begin m (w.chan i)
    some (((w.put i c).note i (.began m)).goto t (.talking i m a k))

def step (w : World ρ ε μ π φ χ) : Act ε ω ι κ → Option (World ρ ε μ π φ χ)
  | .call t c =>
    match w.thread t with
    | .idle => some (w.goto t (.running (S.method c)))
    | _ => none
  | .go t =>
    match w.thread t with
    | .idle => none
    | .running p => S.instr w t p
    | .talking i m a k =>
      match S.turn m a (w.chan i) with
      | none => none
      | some (c, .inl a') => some ((w.put i c).goto t (.talking i m a' k))
      | some (c, .inr r) => some (((w.put i c).note i (ended r)).goto t (.running (k r)))
  | .refuse t e =>
    match w.thread t with
    | .running (.connect k) => some (w.goto t (.running (k (.error e))))
    | _ => none
  | .fail t f =>
    match w.thread t with
    | .talking i m a k =>
      let (c, e) := S.fail m a f (w.chan i)
      some (((w.put i c).note i .raised).goto t (.running (k (.error e))))
    | _ => none
  | .serve i x => (S.serve x (w.chan i)).map (w.put i)

end System

/-! ## Ownership -/

/-- Who owns each resource, and what the owner knows of it; the owner `none` is the lock. -/
abbrev Owners (γ : Type) := Nat → Option (Option Nat × γ)

namespace Owners

variable {γ : Type} (own : Owners γ)

/-- What `o` owns. -/
def of (o : Option Nat) : Holding γ := fun i =>
  match own i with
  | some (o', g) => if o' = o then some g else none
  | none => none

/-- Gives `a` to thread `t` and `b` to the lock, and takes what else they had from them. -/
def deal (t : Nat) (a b : Holding γ) : Owners γ := fun i =>
  match a i, b i, own i with
  | some g, _, _ => some (some t, g)
  | none, some g, _ => some (none, g)
  | none, none, some (some u, g) => if u = t then none else some (some u, g)
  | none, none, _ => none

variable {own}

theorem of_eq_some {o : Option Nat} {i : Nat} {g : γ} : own.of o i = some g ↔ own i = some (o, g) := by
  unfold of
  split
  · rename_i o' g' h
    rw [h]
    split
    · rename_i ho
      simp [ho]
    · rename_i ho
      simp [ho]
  · rename_i h
    simp [h]

/-- A resource has one owner. -/
theorem apart {o o' : Option Nat} {i : Nat} {g : γ} (h : own.of o i = some g) (hne : o ≠ o') :
    own.of o' i = none := by
  cases h' : own.of o' i with
  | none => rfl
  | some g' =>
    rw [of_eq_some] at h h'
    rw [h] at h'
    cases h'
    exact absurd rfl hne

theorem ext {a b : Holding γ} (h : ∀ i g, a i = some g ↔ b i = some g) : a = b := by
  funext i
  exact Option.ext fun g => h i g

theorem deal_eq_some {t : Nat} {a b : Holding γ} {o : Option Nat} {i : Nat} {g : γ} :
    own.deal t a b i = some (o, g) ↔
      o = some t ∧ a i = some g ∨ o = none ∧ a i = none ∧ b i = some g ∨
      ∃ u, u ≠ t ∧ o = some u ∧ a i = none ∧ b i = none ∧ own i = some (some u, g) := by
  unfold deal
  cases ha : a i with
  | some g' => simp [eq_comm]
  | none =>
    cases hb : b i with
    | some g' => simp [eq_comm]
    | none =>
      rcases h : own i with _ | ⟨_ | u, g'⟩
      · simp
      · simp
      · by_cases hu : u = t
        · simp [hu]
        · simp only [hu, if_false, Option.some.injEq, Prod.mk.injEq, reduceCtorEq, and_false, false_or,
            true_and]
          constructor
          · rintro ⟨rfl, rfl⟩
            exact ⟨u, hu, rfl, rfl, rfl⟩
          · rintro ⟨u', -, rfl, rfl, rfl⟩
            exact ⟨rfl, rfl⟩

theorem of_deal_self (own : Owners γ) (t : Nat) (a b : Holding γ) : (own.deal t a b).of (some t) = a := by
  refine ext fun i g => ?_
  rw [of_eq_some, deal_eq_some]
  constructor
  · rintro (⟨-, h⟩ | ⟨h, -⟩ | ⟨u, hu, h, -⟩)
    · exact h
    · cases h
    · cases h
      exact absurd rfl hu
  · exact fun h => Or.inl ⟨rfl, h⟩

theorem of_deal_lock (own : Owners γ) (t : Nat) {a b : Holding γ} (hab : ∀ i, a i ≠ none → b i = none) :
    (own.deal t a b).of none = b := by
  refine ext fun i g => ?_
  rw [of_eq_some, deal_eq_some]
  constructor
  · rintro (⟨h, -⟩ | ⟨-, -, h⟩ | ⟨u, -, h, -⟩)
    · cases h
    · exact h
    · cases h
  · intro h
    refine Or.inr (Or.inl ⟨rfl, ?_, h⟩)
    by_contra ha
    rw [hab i ha] at h
    cases h

theorem of_deal_other (own : Owners γ) {t u : Nat} (hu : u ≠ t) {a b : Holding γ}
    (hfree : ∀ i, a i ≠ none ∨ b i ≠ none → own.of (some u) i = none) :
    (own.deal t a b).of (some u) = own.of (some u) := by
  refine ext fun i g => ?_
  rw [of_eq_some, deal_eq_some, of_eq_some]
  constructor
  · rintro (⟨h, -⟩ | ⟨h, -⟩ | ⟨v, -, h, -, -, ho⟩)
    · cases h
      exact absurd rfl hu
    · cases h
    · cases h
      exact ho
  · intro h
    have hno : ¬ (a i ≠ none ∨ b i ≠ none) := by
      intro hf
      have := hfree i hf
      rw [of_eq_some.mpr h] at this
      cases this
    simp only [not_or, not_not] at hno
    exact Or.inr (Or.inr ⟨u, hu, rfl, hno.1, hno.2, h⟩)

end Owners

section Ownership

variable {ρ ε μ π φ χ ω ι κ γ : Type} (P : Protocol μ γ) (share : ρ → Holding γ → Prop)

/-- Where a resource is in its life whose owner is at `th` and knows `g` of it. -/
def Thread.life (th : Thread ρ ε μ π φ) (i : Nat) (g : γ) : Life μ γ :=
  match th with
  | .talking j m _ _ => if j = i then .busy g m else .ready g
  | _ => .ready g

@[simp] theorem Thread.off_idle (i : Nat) : (idle : Thread ρ ε μ π φ).Off i := by
  simp [Off]

@[simp] theorem Thread.off_running (p : Prog ρ ε μ π Unit) (i : Nat) :
    (running p : Thread ρ ε μ π φ).Off i := by
  simp [Off]

@[simp] theorem Thread.off_talking (i j : Nat) (m : μ) (a : φ) (k : Except ε π → Prog ρ ε μ π Unit) :
    (talking i m a k).Off j ↔ i ≠ j := by
  constructor
  · rintro h rfl
    exact h m a k rfl
  · intro h m' a' k' he
    cases he
    exact h rfl

theorem Thread.life_of_off {th : Thread ρ ε μ π φ} {i : Nat} (h : th.Off i) (g : γ) :
    th.life i g = .ready g := by
  cases th with
  | idle => rfl
  | running p => rfl
  | talking j m a k =>
    have hj : j ≠ i := by
      rintro rfl
      exact h m a k rfl
    exact if_neg hj

/-- What is left of a call ends without the lock. -/
def Unlocked (_ : Except ε Unit) (held : Option ρ) (_ : Holding γ) : Prop := held = none

def Thread.Safe (th : Thread ρ ε μ π φ) (held : Option ρ) (own : Holding γ) : Prop :=
  match th with
  | .idle => held = none
  | .running p => p.Safe P share Unlocked held own
  | .talking i m _ k => ∃ g, own i = some g ∧ ∀ r : Except ε π,
      (k r).Safe P share Unlocked held (Function.update own i (some (P.after g m r.isOk)))

variable {P share} in
@[simp] theorem Thread.safe_running {p : Prog ρ ε μ π Unit} {held : Option ρ} {own : Holding γ} :
    (running p : Thread ρ ε μ π φ).Safe P share held own ↔ p.Safe P share Unlocked held own := Iff.rfl

/-- What runs for an owner: `none` is the lock. -/
def World.runs (w : World ρ ε μ π φ χ) : Option Nat → Thread ρ ε μ π φ
  | none => .idle
  | some t => w.thread t

/-- `own` says who owns what. -/
structure Inv (w : World ρ ε μ π φ χ) (own : Owners γ) : Prop where
  safe : ∀ t, (w.thread t).Safe P share (w.held t) (own.of (some t))
  share : w.lock = none → share w.self (own.of none)
  /-- A thread that holds the lock has the lock's share. -/
  kept : w.lock ≠ none → own.of none = .none
  opened : ∀ {o i g}, own.of o i = some g → i < w.opened
  life : ∀ {o i g}, own.of o i = some g → P.life (w.log i) = some ((w.runs o).life i g)
  unopened : ∀ i, w.opened ≤ i → w.log i = []
  follows : ∀ i, ∃ l, P.life (w.log i) = some l

variable {P share} {w w' : World ρ ε μ π φ χ} {own : Owners γ}

theorem held_eq_some {t : Nat} {r : ρ} (h : w.held t = some r) : w.lock = some t ∧ w.self = r := by
  unfold World.held at h
  split at h
  · exact ⟨‹_›, Option.some.inj h⟩
  · cases h

theorem held_of_lock {t : Nat} (h : w.lock = some t) : w.held t = some w.self := if_pos h

/-- The frame rule. Thread `t` moves, after which it owns `a` and the lock owns `b`: these it owned
before, or the lock did, or they are new; and only the logs of its own resources grow. -/
theorem Inv.move (hi : Inv P share w own) (t : Nat) (a b : Holding γ)
    (hthread : ∀ u, u ≠ t → w'.thread u = w.thread u) (hheld : ∀ u, u ≠ t → w'.held u = w.held u)
    (hsafe : (w'.thread t).Safe P share (w'.held t) a)
    (hshare : w'.lock = none → share w'.self b) (hkept : w'.lock ≠ none → b = .none)
    (hopened : w.opened ≤ w'.opened)
    (hfrom : ∀ i, a i ≠ none ∨ b i ≠ none →
      own.of (some t) i ≠ none ∨ own.of none i ≠ none ∨ w.opened ≤ i ∧ i < w'.opened)
    (hab : ∀ i, a i ≠ none → b i = none)
    (hlog : ∀ i, own.of (some t) i = none → w'.log i = w.log i)
    (ha : ∀ i g, a i = some g → P.life (w'.log i) = some ((w'.thread t).life i g))
    (hb : ∀ i g, b i = some g → P.life (w'.log i) = some (.ready g))
    (hfollows : ∀ i, own.of (some t) i ≠ none → ∃ l, P.life (w'.log i) = some l) :
    Inv P share w' (own.deal t a b) := by
  have hopen : ∀ i, a i ≠ none ∨ b i ≠ none → i < w'.opened := by
    intro i h
    rcases hfrom i h with h | h | h
    · obtain ⟨g, hg⟩ := Option.ne_none_iff_exists'.mp h
      exact Nat.lt_of_lt_of_le (hi.opened hg) hopened
    · obtain ⟨g, hg⟩ := Option.ne_none_iff_exists'.mp h
      exact Nat.lt_of_lt_of_le (hi.opened hg) hopened
    · exact h.2
  have hforeign : ∀ i, a i ≠ none ∨ b i ≠ none → ∀ u, u ≠ t → own.of (some u) i = none := by
    intro i h u hu
    cases hg : own.of (some u) i with
    | none => rfl
    | some g =>
      rcases hfrom i h with h | h | h
      · exact absurd (Owners.apart hg (by simpa using hu)) h
      · exact absurd (Owners.apart hg (by simp)) h
      · have := hi.opened hg
        omega
  have ht : (own.deal t a b).of (some t) = a := own.of_deal_self t a b
  have hl : (own.deal t a b).of none = b := own.of_deal_lock t hab
  have hother : ∀ u, u ≠ t → (own.deal t a b).of (some u) = own.of (some u) :=
    fun u hu => own.of_deal_other hu fun i h => hforeign i h u hu
  refine ⟨?_, ?_, ?_, ?_, ?_, ?_, ?_⟩
  · intro u
    by_cases hu : u = t
    · subst hu
      rw [ht]
      exact hsafe
    · rw [hother u hu, hthread u hu, hheld u hu]
      exact hi.safe u
  · rw [hl]
    exact hshare
  · rw [hl]
    exact hkept
  · intro o i g hg
    cases o with
    | none =>
      rw [hl] at hg
      exact hopen i (Or.inr (by simp [hg]))
    | some u =>
      by_cases hu : u = t
      · subst hu
        rw [ht] at hg
        exact hopen i (Or.inl (by simp [hg]))
      · rw [hother u hu] at hg
        exact Nat.lt_of_lt_of_le (hi.opened hg) hopened
  · intro o i g hg
    cases o with
    | none =>
      rw [hl] at hg
      exact hb i g hg
    | some u =>
      by_cases hu : u = t
      · subst hu
        rw [ht] at hg
        exact ha i g hg
      · rw [hother u hu] at hg
        show P.life (w'.log i) = some ((w'.thread u).life i g)
        rw [hlog i (Owners.apart hg (by simpa using hu)), hthread u hu]
        exact hi.life hg
  · intro i hle
    have hno : own.of (some t) i = none := by
      cases hg : own.of (some t) i with
      | none => rfl
      | some g =>
        have := hi.opened hg
        omega
    rw [hlog i hno]
    exact hi.unopened i (by omega)
  · intro i
    by_cases hno : own.of (some t) i = none
    · rw [hlog i hno]
      exact hi.follows i
    · exact hfollows i hno

/-- A move between two places outside a request, which does nothing to a resource: what `t` and the
lock own after it was theirs before, or is new. -/
theorem Inv.quiet (hi : Inv P share w own) (t : Nat) (a b : Holding γ)
    (hthread : ∀ u, u ≠ t → w'.thread u = w.thread u) (hheld : ∀ u, u ≠ t → w'.held u = w.held u)
    (hsafe : (w'.thread t).Safe P share (w'.held t) a)
    (hshare : w'.lock = none → share w'.self b) (hkept : w'.lock ≠ none → b = .none)
    (hopened : w.opened ≤ w'.opened) (hlog : w'.log = w.log)
    (hoff : ∀ i, (w.thread t).Off i) (hoff' : ∀ i, (w'.thread t).Off i)
    (ha : ∀ i g, a i = some g → own.of (some t) i = some g ∨ own.of none i = some g ∨
      (w.opened ≤ i ∧ i < w'.opened ∧ g = P.start))
    (hb : ∀ i g, b i = some g → own.of (some t) i = some g ∨ own.of none i = some g)
    (hab : ∀ i, a i ≠ none → b i = none) :
    ∃ own', Inv P share w' own' := by
  have hlife : ∀ i g, own.of (some t) i = some g ∨ own.of none i = some g →
      P.life (w'.log i) = some (.ready g) := by
    intro i g h
    rw [hlog]
    rcases h with h | h
    · rw [hi.life h]
      exact congrArg some (Thread.life_of_off (hoff i) g)
    · exact hi.life h
  refine ⟨_, hi.move t a b hthread hheld hsafe hshare hkept hopened ?_ hab (fun i _ => by rw [hlog]) ?_
    (fun i g hg => hlife i g (hb i g hg)) ?_⟩
  · intro i h
    rcases h with h | h
    · obtain ⟨g, hg⟩ := Option.ne_none_iff_exists'.mp h
      rcases ha i g hg with h1 | h1 | h1
      · exact Or.inl (by simp [h1])
      · exact Or.inr (Or.inl (by simp [h1]))
      · exact Or.inr (Or.inr ⟨h1.1, h1.2.1⟩)
    · obtain ⟨g, hg⟩ := Option.ne_none_iff_exists'.mp h
      rcases hb i g hg with h1 | h1
      · exact Or.inl (by simp [h1])
      · exact Or.inr (Or.inl (by simp [h1]))
  · intro i g hg
    rw [Thread.life_of_off (hoff' i) g]
    rcases ha i g hg with h1 | h1 | ⟨h1, -, rfl⟩
    · exact hlife i g (Or.inl h1)
    · exact hlife i g (Or.inr h1)
    · rw [hlog, hi.unopened i h1]
      rfl
  · intro i _
    rw [hlog]
    exact hi.follows i

/-- A step of the request of `t` on resource `i`, or the start or the end of one: only this resource's
log grows, and `g` is what `t` knows of it after. -/
theorem Inv.onResource (hi : Inv P share w own) {t i : Nat} {g : γ} (hg : own.of (some t) i = some g)
    {x : Option γ} {th : Thread ρ ε μ π φ} {log : List (Event μ)} {chan : Nat → χ}
    (hoff : ∀ j, j ≠ i → (w.thread t).Off j) (hoff' : ∀ j, j ≠ i → th.Off j)
    (hsafe : th.Safe P share (w.held t) (Function.update (own.of (some t)) i x))
    (hlife : ∀ g₁, x = some g₁ → P.life log = some (th.life i g₁))
    (hfollows : ∃ l, P.life log = some l) :
    ∃ own', Inv P share
      ({ w with log := Function.update w.log i log, chan := chan }.goto t th) own' := by
  refine ⟨_, hi.move t (Function.update (own.of (some t)) i x) (own.of none) ?_ (fun _ _ => rfl) ?_ hi.share
    hi.kept (Nat.le_refl _) ?_ ?_ ?_ ?_ (fun j g hj => ?_) ?_⟩
  · intro u hu
    simp [World.goto, hu]
  · show (Function.update w.thread t th t).Safe P share (w.held t) _
    rw [Function.update_self]
    exact hsafe
  · intro j h
    by_cases hj : j = i
    · subst hj
      exact Or.inl (by simp [hg])
    · rw [Function.update_of_ne hj] at h
      exact h.elim Or.inl fun h => Or.inr (Or.inl h)
  · intro j h
    by_cases hj : j = i
    · subst hj
      exact Owners.apart hg (by simp)
    · rw [Function.update_of_ne hj] at h
      obtain ⟨g₂, h₂⟩ := Option.ne_none_iff_exists'.mp h
      exact Owners.apart h₂ (by simp)
  · intro j h
    have hj : j ≠ i := by
      rintro rfl
      rw [hg] at h
      cases h
    simp [World.goto, hj]
  · intro j g₂ h
    by_cases hj : j = i
    · subst hj
      rw [Function.update_self] at h
      simpa [World.goto] using hlife g₂ h
    · rw [Function.update_of_ne hj] at h
      have h₂ := hi.life h
      simpa [World.goto, hj, World.runs, Thread.life_of_off (hoff j hj),
        Thread.life_of_off (hoff' j hj)] using h₂
  · have hji : j ≠ i := by
      rintro rfl
      rw [Owners.apart hg (by simp)] at hj
      cases hj
    simpa [World.goto, hji, World.runs, Thread.life] using hi.life hj
  · intro j h
    by_cases hj : j = i
    · subst hj
      simpa [World.goto] using hfollows
    · simpa [World.goto, hj] using hi.follows j

theorem Inv.disjoint (_ : Inv P share w own) (t i : Nat) (h : own.of (some t) i ≠ none) :
    own.of none i = none := by
  obtain ⟨g, hg⟩ := Option.ne_none_iff_exists'.mp h
  exact Owners.apart hg (by simp)

/-- A move that leaves the lock, the fields and the resources as they are. -/
theorem Inv.goto (hi : Inv P share w own) {t : Nat} {th : Thread ρ ε μ π φ}
    (hoff : ∀ i, (w.thread t).Off i) (hoff' : ∀ i, th.Off i)
    (hsafe : th.Safe P share (w.held t) (own.of (some t))) : ∃ own', Inv P share (w.goto t th) own' := by
  refine hi.quiet t (own.of (some t)) (own.of none) (fun u hu => World.goto_of_ne w hu th) (fun _ _ => rfl)
    ?_ hi.share hi.kept (Nat.le_refl _) rfl hoff ?_ (fun i g hg => Or.inl hg) (fun i g hg => Or.inr hg)
    (hi.disjoint t)
  · rw [World.goto_self]
    exact hsafe
  · rw [World.goto_self]
    exact hoff'

section Instructions

variable {t : Nat}

/-- The lock's share goes to the thread that takes it. -/
theorem Inv.acquire {k : Prog ρ ε μ π Unit} (hi : Inv P share w own)
    (ht : w.thread t = .running (.acquire k)) (hfree : w.lock = none) :
    ∃ own', Inv P share ({ w with lock := some t }.goto t (.running k)) own' := by
  have hs := hi.safe t
  rw [ht] at hs
  obtain ⟨-, hk⟩ := hs
  refine hi.quiet t ((own.of none).merge (own.of (some t))) .none (fun u hu => World.goto_of_ne _ hu _)
    ?_ ?_ ?_ ?_ (Nat.le_refl _) rfl (by simp [ht]) ?_ ?_ ?_ (fun _ _ => rfl)
  · intro u hu
    simp [World.held, World.goto, hfree, Ne.symm hu]
  · have := hk w.self (own.of none) (hi.share hfree) fun i h => by
      obtain ⟨g, hg⟩ := Option.ne_none_iff_exists'.mp h
      exact Owners.apart hg (by simp)
    simpa [World.goto, World.held] using this
  · simp [World.goto]
  · simp
  · simp [World.goto]
  · intro i g hg
    rw [Holding.merge_apply, Option.or_eq_some_iff] at hg
    rcases hg with hg | ⟨-, hg⟩
    · exact Or.inr (Or.inl hg)
    · exact Or.inl hg
  · intro i g hg
    cases hg

/-- The thread that gives the lock back gives it its share. -/
theorem Inv.release {k : Prog ρ ε μ π Unit} (hi : Inv P share w own)
    (ht : w.thread t = .running (.release k)) (hl : w.lock = some t) :
    ∃ own', Inv P share ({ w with lock := none }.goto t (.running k)) own' := by
  have hs := hi.safe t
  rw [ht] at hs
  obtain ⟨r, part, hr, hpart, ho, hk⟩ := hs
  obtain ⟨-, rfl⟩ := held_eq_some hr
  refine hi.quiet t ((own.of (some t)).without part) part (fun u hu => World.goto_of_ne _ hu _) ?_ ?_
    (fun _ => hpart) ?_ (Nat.le_refl _) rfl (by simp [ht]) ?_ ?_ (fun i g hg => Or.inl (ho i g hg)) ?_
  · intro u hu
    simp [World.held, World.goto, hl, Ne.symm hu]
  · simpa [World.goto, World.held] using hk
  · simp [World.goto]
  · simp [World.goto]
  · intro i g hg
    unfold Holding.without at hg
    split at hg
    · exact Or.inl hg
    · cases hg
  · intro i h
    unfold Holding.without at h
    split at h
    · assumption
    · exact absurd rfl h

theorem Inv.assign {r : ρ} {k : Prog ρ ε μ π Unit} (hi : Inv P share w own)
    (ht : w.thread t = .running (.set r k)) :
    ∃ own', Inv P share ({ w with self := r }.goto t (.running k)) own' := by
  have hs := hi.safe t
  rw [ht] at hs
  obtain ⟨hl, hk⟩ := hs
  obtain ⟨r', hr'⟩ := Option.ne_none_iff_exists'.mp hl
  obtain ⟨hlock, -⟩ := held_eq_some hr'
  refine hi.quiet t (own.of (some t)) (own.of none) (fun u hu => World.goto_of_ne _ hu _) ?_ ?_ ?_ hi.kept
    (Nat.le_refl _) rfl (by simp [ht]) ?_ (fun i g hg => Or.inl hg) (fun i g hg => Or.inr hg)
    (hi.disjoint t)
  · intro u hu
    simp [World.held, World.goto, hlock, Ne.symm hu]
  · simpa [World.goto, World.held, hlock] using hk
  · simp [World.goto, hlock]
  · simp [World.goto]

/-- A new resource has no owner yet. -/
theorem Inv.connect {k : Except ε Nat → Prog ρ ε μ π Unit} (hi : Inv P share w own)
    (ht : w.thread t = .running (.connect k)) :
    ∃ own', Inv P share
      ({ w with opened := w.opened + 1 }.goto t (.running (k (.ok w.opened)))) own' := by
  have hs := hi.safe t
  rw [ht] at hs
  have hnew : ∀ o, own.of o w.opened = none := by
    intro o
    cases hg : own.of o w.opened with
    | none => rfl
    | some g => exact absurd (hi.opened hg) (Nat.lt_irrefl _)
  refine hi.quiet t (Function.update (own.of (some t)) w.opened (some P.start)) (own.of none)
    (fun u hu => World.goto_of_ne _ hu _) (fun _ _ => rfl) ?_ hi.share hi.kept (Nat.le_succ _) rfl
    (by simp [ht]) ?_ ?_ (fun i g hg => Or.inr hg) ?_
  · rw [World.goto_self]
    exact hs.2 w.opened (hnew _)
  · simp [World.goto]
  · intro i g hg
    by_cases hj : i = w.opened
    · subst hj
      rw [Function.update_self] at hg
      exact Or.inr (Or.inr ⟨Nat.le_refl _, Nat.lt_succ_self _, (Option.some.inj hg).symm⟩)
    · rw [Function.update_of_ne hj] at hg
      exact Or.inl hg
  · intro i h
    by_cases hj : i = w.opened
    · subst hj
      exact hnew none
    · rw [Function.update_of_ne hj] at h
      exact hi.disjoint t i h

/-- Where a resource is that its owner may use. -/
theorem Inv.ready (hi : Inv P share w own) {i : Nat} {g : γ} (hg : own.of (some t) i = some g)
    (hoff : (w.thread t).Off i) : P.life (w.log i) = some (.ready g) := by
  rw [hi.life hg]
  exact congrArg some (Thread.life_of_off hoff g)

theorem Inv.close {i : Nat} {k : Prog ρ ε μ π Unit} (hi : Inv P share w own)
    (ht : w.thread t = .running (.close i k)) :
    ∃ own', Inv P share ((w.note i .closed).goto t (.running k)) own' := by
  have hs := hi.safe t
  rw [ht] at hs
  obtain ⟨g, hg⟩ := Option.ne_none_iff_exists'.mp hs.1
  have hl := hi.ready hg (by simp [ht])
  refine hi.onResource hg (by simp [ht]) (by simp) hs.2 (by simp) ⟨.closed, ?_⟩
  rw [Protocol.life_append hl]
  rfl

theorem Inv.request {i : Nat} {m : μ} {k : Except ε π → Prog ρ ε μ π Unit} {a : φ} {c : χ}
    (hi : Inv P share w own) (ht : w.thread t = .running (.request i m k)) :
    ∃ own', Inv P share (((w.put i c).note i (.began m)).goto t (.talking i m a k)) own' := by
  have hs := hi.safe t
  rw [ht] at hs
  obtain ⟨g, hg, ha, hk⟩ := hs
  have hl := hi.ready hg (by simp [ht])
  have hnext : P.life (w.log i ++ [.began m]) = some (.busy g m) := by
    rw [Protocol.life_append hl]
    simp [Protocol.next, ha]
  refine hi.onResource (x := some g) hg (by simp [ht]) (fun j hj => by simp [Ne.symm hj]) ?_ ?_
    ⟨_, hnext⟩
  · exact ⟨g, Function.update_self .., by simpa using hk⟩
  · rintro g₁ h₁
    cases h₁
    refine hnext.trans ?_
    simp [Thread.life]

end Instructions

/-- An instruction of a method that is safe from there on. -/
theorem inv_instr (S : System ρ ε μ π φ χ ω ι κ) {t : Nat} {p : Prog ρ ε μ π Unit}
    (hi : Inv P share w own) (ht : w.thread t = .running p) (h : S.instr w t p = some w') :
    ∃ own', Inv P share w' own' := by
  have hsafe := hi.safe t
  rw [ht] at hsafe
  cases p with
  | ret a => cases h; exact hi.goto (by simp [ht]) (by simp) hsafe
  | raise e => cases h; exact hi.goto (by simp [ht]) (by simp) hsafe
  | get k => cases h; exact hi.goto (by simp [ht]) (by simp) (hsafe _ fun r hr => (held_eq_some hr).2)
  | acquire k =>
    simp only [System.instr] at h
    split at h
    · cases h; exact hi.acquire ht ‹_›
    · cases h
  | release k =>
    simp only [System.instr] at h
    split at h
    · cases h; exact hi.release ht ‹_›
    · cases h
  | set r k => cases h; exact hi.assign ht
  | connect k => cases h; exact hi.connect ht
  | close i k => cases h; exact hi.close ht
  | request i m k => cases h; exact hi.request ht

/-- Where a resource is that a request is under way on. -/
theorem Inv.busy (hi : Inv P share w own) {t i : Nat} {m : μ} {a : φ}
    {k : Except ε π → Prog ρ ε μ π Unit} (ht : w.thread t = .talking i m a k) :
    ∃ g, P.life (w.log i) = some (.busy g m) := by
  have hs := hi.safe t
  rw [ht] at hs
  obtain ⟨g, hg, -⟩ := hs
  refine ⟨g, ?_⟩
  rw [hi.life hg]
  simp [World.runs, ht, Thread.life]

/-- The end of a request. -/
theorem inv_ended {t i : Nat} {m : μ} {a : φ} {k : Except ε π → Prog ρ ε μ π Unit} {chan : Nat → χ}
    (hi : Inv P share w own) (ht : w.thread t = .talking i m a k) (r : Except ε π) :
    ∃ own', Inv P share
      (({ w with chan := chan }.note i (System.ended r)).goto t (.running (k r))) own' := by
  have hs := hi.safe t
  rw [ht] at hs
  obtain ⟨g, hg, hk⟩ := hs
  have hl : P.life (w.log i) = some (.busy g m) := by
    rw [hi.life hg]
    simp [World.runs, ht, Thread.life]
  have hnext : P.life (w.log i ++ [System.ended r]) = some (.ready (P.after g m r.isOk)) := by
    rw [Protocol.life_append hl]
    cases r <;> rfl
  refine hi.onResource (x := some (P.after g m r.isOk)) hg (fun j hj => by simp [ht, Ne.symm hj])
    (fun j _ => by simp) (hk r) ?_ ⟨_, hnext⟩
  rintro g₁ h₁
  cases h₁
  exact hnext

/-- Every step keeps the invariant, if every method is safe. -/
theorem inv_step {S : System ρ ε μ π φ χ ω ι κ} (hS : ∀ c, (S.method c).Safe P share Unlocked none .none)
    {act : Act ε ω ι κ} (hi : Inv P share w own) (h : S.step w act = some w') :
    ∃ own', Inv P share w' own' := by
  cases act with
  | call t c =>
    simp only [System.step] at h
    split at h
    · rename_i ht
      cases h
      have hfree : w.held t = none := by
        have := hi.safe t
        rwa [ht] at this
      refine hi.quiet t .none (own.of none) (fun u hu => by simp [World.goto, hu]) (fun _ _ => rfl) ?_ hi.share
        hi.kept (Nat.le_refl _) rfl (by simp [ht]) (by simp [World.goto]) (fun i g hg => by cases hg)
        (fun i g hg => Or.inr hg) (fun i h => absurd rfl h)
      show (Function.update w.thread t _ t).Safe P share (w.held t) _
      rw [Function.update_self, hfree]
      exact hS c
    · cases h
  | go t =>
    simp only [System.step] at h
    split at h
    · cases h
    · rename_i p hp
      exact inv_instr S hi hp h
    · rename_i i m a k ht
      split at h
      · cases h
      · rename_i c a' _
        cases h
        have hs := hi.safe t
        rw [ht] at hs
        obtain ⟨g, hg, hk⟩ := hs
        have hl : P.life (w.log i) = some (.busy g m) := by
          rw [hi.life hg]
          simp [World.runs, ht, Thread.life]
        have : ∃ own', Inv P share ({ w with
            log := Function.update w.log i (w.log i), chan := Function.update w.chan i c }.goto t
              (.talking i m a' k)) own' :=
          hi.onResource (x := some g) hg (fun j hj => by simp [ht, Ne.symm hj])
            (fun j hj => by simp [Ne.symm hj]) ⟨g, Function.update_self .., by simpa using hk⟩
            (by rintro g₁ h₁; cases h₁; simp [hl, Thread.life]) ⟨_, hl⟩
        simpa [World.put, World.goto] using this
      · rename_i c r _
        cases h
        exact inv_ended hi ht r
  | refuse t e =>
    simp only [System.step] at h
    split at h
    · rename_i k ht
      cases h
      have hs := hi.safe t
      rw [ht] at hs
      exact hi.goto (by simp [ht]) (by simp) (hs.1 e)
    · cases h
  | fail t f =>
    simp only [System.step] at h
    split at h
    · rename_i i m a k ht
      cases h
      exact inv_ended hi ht (.error (S.fail m a f (w.chan i)).2)
    · cases h
  | serve i x =>
    obtain ⟨c, -, rfl⟩ := Option.map_eq_some_iff.mp h
    exact ⟨own, hi.safe, hi.share, hi.kept, hi.opened, hi.life, hi.unopened, hi.follows⟩

theorem inv_start {S : System ρ ε μ π φ χ ω ι κ} {r : ρ} (hr : share r .none) :
    Inv P share (S.start r) fun _ => none where
  safe _ := rfl
  share _ := hr
  kept _ := rfl
  opened h := by cases h
  life h := by cases h
  unopened _ _ := rfl
  follows _ := ⟨_, rfl⟩

theorem inv_exec {S : System ρ ε μ π φ χ ω ι κ} (hS : ∀ c, (S.method c).Safe P share Unlocked none .none)
    {r : ρ} (hr : share r .none) {as : List (Act ε ω ι κ)} (h : exec S.step (S.start r) as = some w) :
    ∃ own, Inv P share w own :=
  exec_inv (I := fun w => ∃ own, Inv P share w own) (fun _ _ _ ⟨_, hi⟩ hs => inv_step hS hi hs)
    ⟨_, inv_start hr⟩ h

/-- Whatever the threads do, and wherever they fail, the traffic on every resource keeps to the
protocol. -/
theorem life_of_exec {S : System ρ ε μ π φ χ ω ι κ} (hS : ∀ c, (S.method c).Safe P share Unlocked none .none)
    {r : ρ} (hr : share r .none) {as : List (Act ε ω ι κ)} (h : exec S.step (S.start r) as = some w)
    (i : Nat) : ∃ l, P.life (w.log i) = some l := by
  obtain ⟨own, hi⟩ := inv_exec hS hr h
  exact hi.follows i

/-- A request is under way on a resource its thread owns, and no other thread is in one there. -/
theorem Inv.alone (hi : Inv P share w own) {t i : Nat} {g : γ} (hg : own.of (some t) i = some g) {u : Nat}
    (hu : u ≠ t) : (w.thread u).Off i := by
  intro m a k ht
  have hs := hi.safe u
  rw [ht] at hs
  obtain ⟨g', hg', -⟩ := hs
  have hno : own.of (some u) i = none := Owners.apart hg (by simpa using Ne.symm hu)
  rw [hno] at hg'
  cases hg'

end Ownership

end Lib.Monitor
