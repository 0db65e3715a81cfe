import RamLink.Lib.Run
import Mathlib.Logic.Function.Basic
import Mathlib.Order.Defs.PartialOrder

/-!
# RamLink.Lib.Threads

Handler threads over a shared state and a clock.

A `Machine` is the control flow of one handler as partial functions of its program counter: it
takes a request, runs its next critical section, takes bytes from its connection, or sends its
reply. `step` interleaves any number of threads: each action runs one of them, or lets the clock
advance. `step_cases` is what one action can do; `step_inv` is the rule for invariants of the form
"the shared state satisfies `I` and every thread's local variables satisfy `W`". `alone` is one thread
that nothing interrupts, as a function; `exec_request` finds it among the interleavings.
-/

namespace Lib

structure Machine (σ π τ ρ δ : Type) where
  idle : π
  enter : σ → ρ → π → Option π
  /-- The next critical section, and the program counter after it. -/
  advance : τ → σ → π → Option (σ × π)
  deliver : δ → π → Option π
  finish : π → Option π

structure Threads (σ π τ : Type) where
  shared : σ
  now : τ
  pc : Nat → π

inductive Action (τ ρ δ : Type) where
  | tick (now : τ)
  | request (tid : Nat) (r : ρ)
  | critical (tid : Nat)
  | payload (tid : Nat) (data : δ)
  | send (tid : Nat)
  /-- The connection fails and the handler ends. -/
  | abort (tid : Nat)

variable {σ π τ ρ δ : Type}

/-- An action of this thread on the request it is at. -/
def Action.Of (tid : Nat) : Action τ ρ δ → Prop
  | .critical k => k = tid
  | .payload k _ => k = tid
  | _ => False

namespace Threads

def goto (s : Threads σ π τ) (tid : Nat) (pc : π) : Threads σ π τ :=
  { s with pc := Function.update s.pc tid pc }

@[simp] theorem goto_shared (s : Threads σ π τ) (tid : Nat) (pc : π) :
    (s.goto tid pc).shared = s.shared := rfl

@[simp] theorem goto_now (s : Threads σ π τ) (tid : Nat) (pc : π) : (s.goto tid pc).now = s.now := rfl

@[simp] theorem goto_pc (s : Threads σ π τ) (tid : Nat) (pc : π) (k : Nat) :
    (s.goto tid pc).pc k = if k = tid then pc else s.pc k := by
  simp [goto, Function.update_apply]

end Threads

namespace Machine

variable (m : Machine σ π τ ρ δ)

def start (shared : σ) (now : τ) : Threads σ π τ := ⟨shared, now, fun _ => m.idle⟩

def step [LE τ] [DecidableLE τ] (s : Threads σ π τ) : Action τ ρ δ → Option (Threads σ π τ)
  | .tick now => if s.now ≤ now then some { s with now := now } else none
  | .request tid r => (m.enter s.shared r (s.pc tid)).map (s.goto tid)
  | .critical tid =>
    (m.advance s.now s.shared (s.pc tid)).map fun r => { s with shared := r.1 }.goto tid r.2
  | .payload tid data => (m.deliver data (s.pc tid)).map (s.goto tid)
  | .send tid => (m.finish (s.pc tid)).map (s.goto tid)
  | .abort tid => some (s.goto tid m.idle)

/-- A move of one thread that leaves the shared state alone. -/
def Moves (s : σ) (pc pc' : π) : Prop :=
  (∃ r, m.enter s r pc = some pc') ∨ (∃ d, m.deliver d pc = some pc') ∨ m.finish pc = some pc' ∨
    pc' = m.idle

variable {m}

/-- What one action can do: the clock advances, a thread runs a critical section, or it moves. -/
theorem step_cases [LE τ] [DecidableLE τ] {s s' : Threads σ π τ} {a : Action τ ρ δ}
    (h : m.step s a = some s') :
    (∃ now, a = .tick now ∧ s.now ≤ now ∧ s' = { s with now := now }) ∨
    (∃ tid shared pc, a = .critical tid ∧ m.advance s.now s.shared (s.pc tid) = some (shared, pc) ∧
      s' = { s with shared := shared }.goto tid pc) ∨
    (∃ tid pc, (∀ k, a ≠ .critical k) ∧ m.Moves s.shared (s.pc tid) pc ∧ s' = s.goto tid pc) := by
  cases a with
  | tick now =>
    simp only [step] at h
    split at h
    · rename_i hn
      cases h
      exact Or.inl ⟨now, rfl, hn, rfl⟩
    · cases h
  | critical tid =>
    obtain ⟨⟨shared, pc⟩, ha, rfl⟩ := Option.map_eq_some_iff.mp h
    exact Or.inr (Or.inl ⟨tid, shared, pc, rfl, ha, rfl⟩)
  | request tid r =>
    obtain ⟨pc, he, rfl⟩ := Option.map_eq_some_iff.mp h
    exact Or.inr (Or.inr ⟨tid, pc, by simp, Or.inl ⟨r, he⟩, rfl⟩)
  | payload tid data =>
    obtain ⟨pc, he, rfl⟩ := Option.map_eq_some_iff.mp h
    exact Or.inr (Or.inr ⟨tid, pc, by simp, Or.inr (Or.inl ⟨data, he⟩), rfl⟩)
  | send tid =>
    obtain ⟨pc, he, rfl⟩ := Option.map_eq_some_iff.mp h
    exact Or.inr (Or.inr ⟨tid, pc, by simp, Or.inr (Or.inr (Or.inl he)), rfl⟩)
  | abort tid =>
    cases h
    exact Or.inr (Or.inr ⟨tid, m.idle, by simp, Or.inr (Or.inr (Or.inr rfl)), rfl⟩)

/-- The invariant rule for one step: a critical section keeps `I`, its own thread's `W` and the `W`
of the threads it does not run; a move keeps its own thread's `W`. -/
theorem step_inv [LE τ] [DecidableLE τ] {I : σ → Prop} {W : σ → π → Prop}
    (hadv : ∀ now s pc s' pc', I s → W s pc → m.advance now s pc = some (s', pc') →
      I s' ∧ W s' pc' ∧ ∀ q, W s q → W s' q)
    (hmove : ∀ s pc pc', I s → W s pc → m.Moves s pc pc' → W s pc')
    {s s' : Threads σ π τ} {a : Action τ ρ δ} (hi : I s.shared ∧ ∀ k, W s.shared (s.pc k))
    (h : m.step s a = some s') : I s'.shared ∧ ∀ k, W s'.shared (s'.pc k) := by
  obtain ⟨now, -, -, rfl⟩ | ⟨tid, shared, pc, -, ha, rfl⟩ | ⟨tid, pc, -, hm, rfl⟩ := step_cases h
  · exact hi
  · obtain ⟨h1, h2, h3⟩ := hadv s.now s.shared (s.pc tid) shared pc hi.1 (hi.2 tid) ha
    refine ⟨h1, fun k => ?_⟩
    rw [Threads.goto_pc, Threads.goto_shared]
    split
    · exact h2
    · exact h3 _ (hi.2 k)
  · refine ⟨hi.1, fun k => ?_⟩
    rw [Threads.goto_pc, Threads.goto_shared]
    split
    · exact hmove _ _ _ hi.1 (hi.2 tid) hm
    · exact hi.2 k

/-! ## A thread that nothing interrupts -/

variable {ι : Type} (m)

/-- The next move of a thread that nothing interrupts: a critical section, or what it takes of its
input. -/
def own (take : π → ι → Option (δ × ι)) (now : τ) (s : σ) (pc : π) (input : ι) : Option (σ × π × ι) :=
  match m.advance now s pc with
  | some r => some (r.1, r.2, input)
  | none => (take pc input).bind fun r => (m.deliver r.1 pc).map fun pc' => (s, pc', r.2)

/-- The thread moves until it can move no more, `fuel` times at most. -/
def alone (take : π → ι → Option (δ × ι)) (now : τ) : Nat → σ → π → ι → σ × π
  | 0, s, pc, _ => (s, pc)
  | fuel + 1, s, pc, input =>
    match m.own take now s pc input with
    | none => (s, pc)
    | some r => alone take now fuel r.1 r.2.1 r.2.2

variable {m}

theorem own_advance {take : π → ι → Option (δ × ι)} {now : τ} {s s' : σ} {pc pc' : π}
    (h : m.advance now s pc = some (s', pc')) (input : ι) :
    m.own take now s pc input = some (s', pc', input) := by
  rw [own, h]

theorem own_deliver {take : π → ι → Option (δ × ι)} {now : τ} {s : σ} {pc pc' : π} {d : δ} {input rest : ι}
    (h : m.advance now s pc = none) (ht : take pc input = some (d, rest)) (hd : m.deliver d pc = some pc') :
    m.own take now s pc input = some (s, pc', rest) := by
  rw [own, h, ht]
  simp only [Option.bind_some, hd, Option.map_some]

theorem own_stuck {take : π → ι → Option (δ × ι)} {now : τ} {s : σ} {pc : π} {input : ι}
    (h : m.advance now s pc = none) (ht : take pc input = none) : m.own take now s pc input = none := by
  rw [own, h, ht]
  rfl

theorem alone_succ {take : π → ι → Option (δ × ι)} {now : τ} {s s' : σ} {pc pc' : π} {input rest : ι}
    (h : m.own take now s pc input = some (s', pc', rest)) (fuel : Nat) :
    m.alone take now (fuel + 1) s pc input = m.alone take now fuel s' pc' rest := by
  rw [alone, h]

theorem alone_stuck {take : π → ι → Option (δ × ι)} {now : τ} {s : σ} {pc : π} {input : ι}
    (h : m.own take now s pc input = none) (fuel : Nat) : m.alone take now fuel s pc input = (s, pc) := by
  cases fuel with
  | zero => rfl
  | succ fuel => rw [alone, h]

/-- A move of the thread is one of its actions, whatever the other threads are at. -/
theorem step_own [LE τ] [DecidableLE τ] {take : π → ι → Option (δ × ι)} {s : Threads σ π τ} {tid : Nat}
    {input : ι} {r : σ × π × ι} (h : m.own take s.now s.shared (s.pc tid) input = some r) :
    ∃ a : Action τ ρ δ, a.Of tid ∧ m.step s a = some ({ s with shared := r.1 }.goto tid r.2.1) := by
  unfold own at h
  cases ha : m.advance s.now s.shared (s.pc tid) with
  | some q =>
    rw [ha] at h
    cases h
    exact ⟨.critical tid, rfl, by simp only [step, ha, Option.map_some]⟩
  | none =>
    rw [ha] at h
    obtain ⟨⟨d, rest⟩, -, h⟩ := Option.bind_eq_some_iff.mp h
    obtain ⟨pc', hd, rfl⟩ := Option.map_eq_some_iff.mp h
    exact ⟨.payload tid d, rfl, by simp only [step, hd, Option.map_some]⟩

/-- **A thread that nothing interrupts is an interleaving**: one of its own actions only. -/
theorem exec_alone [LE τ] [DecidableLE τ] (take : π → ι → Option (δ × ι)) (tid : Nat) (fuel : Nat) :
    ∀ (s : Threads σ π τ) (input : ι), ∃ as : List (Action τ ρ δ), (∀ a ∈ as, a.Of tid) ∧
      exec m.step s as =
        some ({ s with shared := (m.alone take s.now fuel s.shared (s.pc tid) input).1 }.goto tid
          (m.alone take s.now fuel s.shared (s.pc tid) input).2) := by
  have hstop : ∀ s : Threads σ π τ, { s with shared := s.shared }.goto tid (s.pc tid) = s := by
    intro s
    simp only [Threads.goto, Function.update_eq_self]
  induction fuel with
  | zero => exact fun s input => ⟨[], by simp, by rw [alone, hstop]; rfl⟩
  | succ fuel ih =>
    intro s input
    cases ho : m.own take s.now s.shared (s.pc tid) input with
    | none => exact ⟨[], by simp, by rw [alone_stuck ho, hstop]; rfl⟩
    | some r =>
      obtain ⟨a, ha, hstep⟩ := step_own ho
      obtain ⟨as, has, hrun⟩ := ih ({ s with shared := r.1 }.goto tid r.2.1) r.2.2
      refine ⟨a :: as, fun b hb => ?_, exec_cons_some.mpr ⟨_, hstep, ?_⟩⟩
      · rcases List.mem_cons.mp hb with rfl | hb
        · exact ha
        · exact has b hb
      · rw [hrun, alone_succ ho]
        simp only [Threads.goto, Function.update_self, Function.update_idem]

/-- The same for a request, from its first action on. -/
theorem exec_request [LE τ] [DecidableLE τ] (take : π → ι → Option (δ × ι)) {s : Threads σ π τ} {tid : Nat}
    {r : ρ} {pc : π} (h : m.enter s.shared r (s.pc tid) = some pc) (fuel : Nat) (input : ι) :
    ∃ as : List (Action τ ρ δ), (∀ a ∈ as, a.Of tid) ∧ exec m.step s (.request tid r :: as) =
      some ({ s with shared := (m.alone take s.now fuel s.shared pc input).1 }.goto tid
        (m.alone take s.now fuel s.shared pc input).2) := by
  have hreq : m.step s (.request tid r) = some (s.goto tid pc) := by
    simp only [step, h, Option.map_some]
  obtain ⟨as, has, hrun⟩ := exec_alone (m := m) take tid fuel (s.goto tid pc) input
  refine ⟨as, has, exec_cons_some.mpr ⟨_, hreq, hrun.trans ?_⟩⟩
  simp only [Threads.goto, Function.update_self, Function.update_idem]

end Machine

end Lib
