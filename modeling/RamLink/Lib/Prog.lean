import RamLink.Lib.Run
import RamLink.Lib.Outcome
import Mathlib.Logic.Function.Basic

/-!
# RamLink.Lib.Prog

Methods of an object that has one lock and talks over resources it opens.

`Prog` is the code of a method between two steps that other threads can see: taking and giving back
the lock, reading and writing the object's fields, opening and closing a resource, a request on one.
What follows a request is a function of its reply or its exception.

* `Protocol`: which requests are allowed on a resource, from what its owner knows of it; `life` is
  where the resource is after a log of events, if the log keeps to the protocol.
* `Safe`: the weakest precondition. A method owns resources, sends requests only on these and as the
  protocol allows, and gives the lock its share back before it ends. `safe_attempt` composes.
* `alone`: a program where there are no other threads, over any model of what it talks to; `alone_ends` is
  the rule for what this model keeps.
-/

namespace Lib.Monitor

/-- `ρ` the fields, `ε` the exceptions, `μ` the requests, `π` the replies. -/
inductive Prog (ρ ε μ π α : Type) where
  | ret (a : α)
  | raise (e : ε)
  | acquire (k : Prog ρ ε μ π α)
  | release (k : Prog ρ ε μ π α)
  | get (k : ρ → Prog ρ ε μ π α)
  | set (r : ρ) (k : Prog ρ ε μ π α)
  | connect (k : Except ε Nat → Prog ρ ε μ π α)
  | close (i : Nat) (k : Prog ρ ε μ π α)
  | request (i : Nat) (m : μ) (k : Except ε π → Prog ρ ε μ π α)

namespace Prog

variable {ρ ε μ π α β : Type}

/-- Runs `f` on what a program returned or raised. -/
def attempt : Prog ρ ε μ π α → (Except ε α → Prog ρ ε μ π β) → Prog ρ ε μ π β
  | .ret a, f => f (.ok a)
  | .raise e, f => f (.error e)
  | .acquire k, f => .acquire (k.attempt f)
  | .release k, f => .release (k.attempt f)
  | .get k, f => .get fun r => (k r).attempt f
  | .set r k, f => .set r (k.attempt f)
  | .connect k, f => .connect fun r => (k r).attempt f
  | .close i k, f => .close i (k.attempt f)
  | .request i m k, f => .request i m fun r => (k r).attempt f

/-- `return a` or `raise e`. -/
def done : Except ε α → Prog ρ ε μ π α
  | .ok a => .ret a
  | .error e => .raise e

def bind (p : Prog ρ ε μ π α) (f : α → Prog ρ ε μ π β) : Prog ρ ε μ π β :=
  p.attempt fun
    | .ok a => f a
    | .error e => .raise e

/-- `try: p` with `except Exception as e: h(e)`. -/
def orElse (p : Prog ρ ε μ π α) (h : ε → Prog ρ ε μ π α) : Prog ρ ε μ π α :=
  p.attempt fun
    | .ok a => .ret a
    | .error e => h e

instance : Monad (Prog ρ ε μ π) where
  pure := .ret
  bind := .bind

instance : MonadExceptOf ε (Prog ρ ε μ π) := ⟨.raise, .orElse⟩

/-- `with lock: p`, which gives the lock back however `p` ends. -/
def withLock (p : Prog ρ ε μ π α) : Prog ρ ε μ π α := .acquire (p.attempt fun r => .release (done r))

/-- The fields. -/
def self : Prog ρ ε μ π ρ := .get .ret

def assign (r : ρ) : Prog ρ ε μ π Unit := .set r (.ret ())

def raiseIf (c : Prop) [Decidable c] (e : ε) : Prog ρ ε μ π Unit := if c then .raise e else .ret ()

end Prog

/-! ## The protocol of one resource -/

/-- What the owner of a resource knows of it, and the requests this allows. -/
structure Protocol (μ γ : Type) where
  start : γ
  allows : γ → μ → Bool
  /-- After a request that was answered, or that raised. -/
  after : γ → μ → Bool → γ

inductive Event (μ : Type) where
  | began (m : μ)
  | returned
  | raised
  | closed
deriving DecidableEq, Repr

inductive Life (μ γ : Type) where
  | ready (g : γ)
  | busy (g : γ) (m : μ)
  | closed
deriving DecidableEq, Repr

namespace Protocol

variable {μ γ : Type} (P : Protocol μ γ)

/-- One request at a time, as the protocol allows, and none after the resource is closed. -/
def next : Life μ γ → Event μ → Option (Life μ γ)
  | .ready g, .began m => if P.allows g m then some (.busy g m) else none
  | .busy g m, .returned => some (.ready (P.after g m true))
  | .busy g m, .raised => some (.ready (P.after g m false))
  | .ready _, .closed => some .closed
  | _, _ => none

/-- Where the resource is after `log`; `none` if the log breaks the protocol. -/
def life (log : List (Event μ)) : Option (Life μ γ) := exec P.next (.ready P.start) log

variable {P}

@[simp] theorem life_nil : P.life [] = some (.ready P.start) := rfl

theorem life_append_some {log : List (Event μ)} {e : Event μ} {l : Life μ γ} :
    P.life (log ++ [e]) = some l ↔ ∃ l', P.life log = some l' ∧ P.next l' e = some l := by
  unfold life
  rw [exec_append]
  simp [exec_cons_some]

theorem life_append {log : List (Event μ)} {l : Life μ γ} (h : P.life log = some l) (e : Event μ) :
    P.life (log ++ [e]) = P.next l e := by
  refine Option.ext fun l' => ?_
  rw [life_append_some, h]
  simp

/-- A resource is busy after the start of a request only. -/
theorem life_busy {log : List (Event μ)} {g : γ} {m : μ} (h : P.life log = some (.busy g m)) :
    ∃ log', log = log' ++ [.began m] := by
  rcases List.eq_nil_or_concat log with rfl | ⟨log', e, rfl⟩
  · cases h
  · rw [List.concat_eq_append] at h
    obtain ⟨l, -, hn⟩ := life_append_some.mp h
    refine ⟨log', ?_⟩
    cases l with
    | ready g' =>
      cases e with
      | began m' =>
        simp only [next] at hn
        split at hn
        · cases hn
          rw [List.concat_eq_append]
        · cases hn
      | returned => cases hn
      | raised => cases hn
      | closed => cases hn
    | busy g' m' => cases e <;> cases hn
    | closed => cases e <;> cases hn

end Protocol

/-! ## What a thread owns -/

/-- The resources someone owns, with what they know of each. -/
abbrev Holding (γ : Type) := Nat → Option γ

namespace Holding

variable {γ : Type}

def none : Holding γ := fun _ => Option.none

def single (i : Nat) (g : γ) : Holding γ := Function.update none i (some g)

/-- `a`, and with it the resources of `b` that `a` does not have. -/
def merge (a b : Holding γ) : Holding γ := fun i => (a i).or (b i)

/-- What is left of `a` without the resources of `b`. -/
def without (a b : Holding γ) : Holding γ := fun i => if b i = Option.none then a i else Option.none

@[simp] theorem none_apply (i : Nat) : (none : Holding γ) i = Option.none := rfl

@[simp] theorem single_apply (i j : Nat) (g : γ) :
    single i g j = if j = i then some g else Option.none := by
  simp [single, Function.update_apply]

@[simp] theorem merge_apply (a b : Holding γ) (i : Nat) : merge a b i = (a i).or (b i) := rfl

theorem merge_none (a : Holding γ) : merge a none = a := by
  funext i
  simp

theorem without_self (a : Holding γ) : without a a = none := by
  funext i
  unfold without
  split
  · assumption
  · rfl

theorem without_none (a : Holding γ) : without a none = a := by
  funext i
  simp [without]

@[simp] theorem update_single (i : Nat) (g g' : γ) :
    Function.update (single i g) i (some g') = single i g' := by
  simp [single]

@[simp] theorem update_single_none (i : Nat) (g : γ) :
    Function.update (single i g) i Option.none = none := by
  funext j
  by_cases h : j = i <;> simp [h]

end Holding

/-! ## The weakest precondition -/

namespace Prog

variable {ρ ε μ π α β γ : Type} (P : Protocol μ γ) (share : ρ → Holding γ → Prop)

/-- The program, run by a thread that owns `own` and that holds the lock (`some r`, with the fields
`r`) or does not, keeps to the protocol and ends as `post` says. The fields and the lock's share are
the holder's; without the lock a thread may read the fields, which can be anything. -/
def Safe (post : Except ε α → Option ρ → Holding γ → Prop) :
    Prog ρ ε μ π α → Option ρ → Holding γ → Prop
  | .ret a, held, own => post (.ok a) held own
  | .raise e, held, own => post (.error e) held own
  | .acquire k, held, own =>
    held = none ∧ ∀ r part, share r part → (∀ i, part i ≠ none → own i = none) →
      k.Safe post (some r) (part.merge own)
  | .release k, held, own =>
    ∃ r part, held = some r ∧ share r part ∧ (∀ i g, part i = some g → own i = some g) ∧
      k.Safe post none (own.without part)
  | .get k, held, own => ∀ r, (∀ r', held = some r' → r = r') → (k r).Safe post held own
  | .set r k, held, own => held ≠ none ∧ k.Safe post (some r) own
  | .connect k, held, own =>
    (∀ e, (k (.error e)).Safe post held own) ∧
    ∀ i, own i = none → (k (.ok i)).Safe post held (Function.update own i (some P.start))
  | .close i k, held, own => own i ≠ none ∧ k.Safe post held (Function.update own i none)
  | .request i m k, held, own =>
    ∃ g, own i = some g ∧ P.allows g m ∧
      ∀ r : Except ε π, (k r).Safe post held (Function.update own i (some (P.after g m r.isOk)))

variable {P share}

/-- The rule for what follows a program, be it after a return or an exception. -/
theorem safe_attempt {post : Except ε β → Option ρ → Holding γ → Prop} {f : Except ε α → Prog ρ ε μ π β}
    {p : Prog ρ ε μ π α} : ∀ {held : Option ρ} {own : Holding γ},
    (p.attempt f).Safe P share post held own ↔
      p.Safe P share (fun r held own => (f r).Safe P share post held own) held own := by
  induction p with
  | ret a => intro held own; rfl
  | raise e => intro held own; rfl
  | acquire k ih => intro held own; simp only [attempt, Safe, ih]
  | release k ih => intro held own; simp only [attempt, Safe, ih]
  | get k ih => intro held own; simp only [attempt, Safe, ih]
  | set r k ih => intro held own; simp only [attempt, Safe, ih]
  | connect k ih => intro held own; simp only [attempt, Safe, ih]
  | close i k ih => intro held own; simp only [attempt, Safe, ih]
  | request i m k ih => intro held own; simp only [attempt, Safe, ih]

theorem Safe.mono {post post' : Except ε α → Option ρ → Holding γ → Prop}
    (hp : ∀ r held own, post r held own → post' r held own) {p : Prog ρ ε μ π α} :
    ∀ {held : Option ρ} {own : Holding γ}, p.Safe P share post held own → p.Safe P share post' held own := by
  induction p with
  | ret a => intro held own h; exact hp _ _ _ h
  | raise e => intro held own h; exact hp _ _ _ h
  | acquire k ih =>
    intro held own h
    exact ⟨h.1, fun r part hs hd => ih (h.2 r part hs hd)⟩
  | release k ih =>
    intro held own h
    obtain ⟨r, part, hr, hs, ho, hk⟩ := h
    exact ⟨r, part, hr, hs, ho, ih hk⟩
  | get k ih => intro held own h r hr; exact ih r (h r hr)
  | set r k ih => intro held own h; exact ⟨h.1, ih h.2⟩
  | connect k ih =>
    intro held own h
    exact ⟨fun e => ih _ (h.1 e), fun i hi => ih _ (h.2 i hi)⟩
  | close i k ih => intro held own h; exact ⟨h.1, ih h.2⟩
  | request i m k ih =>
    intro held own h
    obtain ⟨g, hg, ha, hk⟩ := h
    exact ⟨g, hg, ha, fun r => ih r (hk r)⟩

/-- A sequence: the first program's exceptions pass through. -/
theorem safe_bind {post : Except ε β → Option ρ → Holding γ → Prop} {p : Prog ρ ε μ π α}
    {f : α → Prog ρ ε μ π β} {held : Option ρ} {own : Holding γ} :
    (p >>= f).Safe P share post held own ↔
      p.Safe P share (fun r held own => match r with
        | .ok a => (f a).Safe P share post held own
        | .error e => post (.error e) held own) held own := by
  show (p.attempt _).Safe P share post held own ↔ _
  rw [safe_attempt]
  constructor <;> exact fun h => h.mono fun r _ _ hr => by cases r <;> exact hr

theorem safe_tryCatch {post : Except ε α → Option ρ → Holding γ → Prop} {p : Prog ρ ε μ π α}
    {h : ε → Prog ρ ε μ π α} {held : Option ρ} {own : Holding γ} :
    (tryCatch p h).Safe P share post held own ↔
      p.Safe P share (fun r held own => match r with
        | .ok a => post (.ok a) held own
        | .error e => (h e).Safe P share post held own) held own := by
  show (p.attempt _).Safe P share post held own ↔ _
  rw [safe_attempt]
  constructor <;> exact fun h => h.mono fun r _ _ hr => by cases r <;> exact hr

theorem safe_done {post : Except ε α → Option ρ → Holding γ → Prop} (r : Except ε α) {held : Option ρ}
    {own : Holding γ} :
    (done r : Prog ρ ε μ π α).Safe P share post held own ↔ post r held own := by
  cases r <;> exact Iff.rfl

/-- A critical section: its body may use the fields and the lock's share, and has to leave both fit
for the next thread however it ends. -/
theorem safe_withLock {post : Except ε α → Option ρ → Holding γ → Prop} {p : Prog ρ ε μ π α}
    {own : Holding γ}
    (h : ∀ r part, share r part → (∀ i, part i ≠ none → own i = none) →
      p.Safe P share (fun a held own' => ∃ r' part', held = some r' ∧ share r' part' ∧
        (∀ i g, part' i = some g → own' i = some g) ∧ post a none (own'.without part'))
        (some r) (part.merge own)) :
    (withLock p).Safe P share post none own := by
  refine ⟨rfl, fun r part hs hd => ?_⟩
  rw [safe_attempt]
  refine (h r part hs hd).mono ?_
  rintro a held own' ⟨r', part', hr, hs', ho, hp⟩
  exact ⟨r', part', hr, hs', ho, (safe_done a).mpr hp⟩

theorem safe_raiseIf {post : Except ε Unit → Option ρ → Holding γ → Prop} {c : Prop} [Decidable c] {e : ε}
    {held : Option ρ} {own : Holding γ} (ht : c → post (.error e) held own)
    (hf : ¬ c → post (.ok ()) held own) :
    (raiseIf c e : Prog ρ ε μ π Unit).Safe P share post held own := by
  unfold raiseIf
  split
  · exact ht ‹_›
  · exact hf ‹_›

/-! ## What a program sends -/

/-- Every request that the program can send satisfies `P`. -/
def Emits (P : μ → Prop) : Prog ρ ε μ π α → Prop
  | .ret _ => True
  | .raise _ => True
  | .acquire k => k.Emits P
  | .release k => k.Emits P
  | .get k => ∀ r, (k r).Emits P
  | .set _ k => k.Emits P
  | .connect k => ∀ r, (k r).Emits P
  | .close _ k => k.Emits P
  | .request _ m k => P m ∧ ∀ r, (k r).Emits P

section Emits

variable {P : μ → Prop}

theorem Emits.attempt {p : Prog ρ ε μ π α} {f : Except ε α → Prog ρ ε μ π β} (hp : p.Emits P)
    (hf : ∀ r, (f r).Emits P) : (p.attempt f).Emits P := by
  induction p with
  | ret a => exact hf (.ok a)
  | raise e => exact hf (.error e)
  | acquire k ih => exact ih hp
  | release k ih => exact ih hp
  | get k ih => exact fun r => ih r (hp r)
  | set r k ih => exact ih hp
  | connect k ih => exact fun r => ih r (hp r)
  | close i k ih => exact ih hp
  | request i m k ih => exact ⟨hp.1, fun r => ih r (hp.2 r)⟩

theorem Emits.bind {p : Prog ρ ε μ π α} {f : α → Prog ρ ε μ π β} (hp : p.Emits P)
    (hf : ∀ a, (f a).Emits P) : (p >>= f).Emits P := by
  refine hp.attempt fun r => ?_
  cases r with
  | ok a => exact hf a
  | error e => trivial

theorem Emits.tryCatch {p : Prog ρ ε μ π α} {h : ε → Prog ρ ε μ π α} (hp : p.Emits P)
    (hh : ∀ e, (h e).Emits P) : (tryCatch p h).Emits P := by
  refine hp.attempt fun r => ?_
  cases r with
  | ok a => trivial
  | error e => exact hh e

theorem Emits.withLock {p : Prog ρ ε μ π α} (hp : p.Emits P) : (withLock p).Emits P :=
  hp.attempt fun r => by cases r <;> trivial

theorem Emits.pure (a : α) : (Pure.pure a : Prog ρ ε μ π α).Emits P := trivial

theorem Emits.throw (e : ε) : (throw e : Prog ρ ε μ π α).Emits P := trivial

theorem Emits.self : (self : Prog ρ ε μ π ρ).Emits P := fun _ => trivial

theorem Emits.assign (r : ρ) : (assign r : Prog ρ ε μ π Unit).Emits P := trivial

theorem Emits.connect : (Prog.connect done : Prog ρ ε μ π Nat).Emits P := fun r => by cases r <;> trivial

theorem Emits.request (i : Nat) {m : μ} (hm : P m) : (Prog.request i m done : Prog ρ ε μ π π).Emits P :=
  ⟨hm, fun r => by cases r <;> trivial⟩

/-- What follows a check may count on it. -/
theorem Emits.bind_raiseIf {c : Prop} [Decidable c] {e : ε} {f : Unit → Prog ρ ε μ π α}
    (hf : ¬ c → (f ()).Emits P) : (raiseIf c e >>= f).Emits P := by
  unfold Prog.raiseIf
  by_cases hc : c
  · rw [if_pos hc]
    trivial
  · rw [if_neg hc]
    exact hf hc

theorem Emits.foldlM {f : β → α → Prog ρ ε μ π β} (hf : ∀ b a, (f b a).Emits P) (as : List α) :
    ∀ b, (as.foldlM f b).Emits P := by
  induction as with
  | nil =>
    intro b
    trivial
  | cons a as ih =>
    intro b
    rw [List.foldlM_cons]
    exact (hf b a).bind ih

end Emits

/-! ## A program alone -/

section Alone

variable {τ : Type} (connect : EStateM ε τ Nat) (request : Nat → μ → EStateM ε τ π)

/-- Runs a program where no other thread is, so that the lock is always free; `τ` is the state of what the
program talks to. A closed resource is not touched again. -/
def alone : Prog ρ ε μ π α → EStateM ε (ρ × τ) α
  | .ret a => Pure.pure a
  | .raise e => throw e
  | .acquire k => k.alone
  | .release k => k.alone
  | .get k => fun s => (k s.1).alone s
  | .set r k => fun s => k.alone (r, s.2)
  | .connect k => fun s =>
    match connect.run s.2 with
    | .ok i t => (k (.ok i)).alone (s.1, t)
    | .error e t => (k (.error e)).alone (s.1, t)
  | .close _ k => k.alone
  | .request i m k => fun s =>
    match (request i m).run s.2 with
    | .ok r t => (k (.ok r)).alone (s.1, t)
    | .error e t => (k (.error e)).alone (s.1, t)

variable {connect request}

theorem alone_attempt {p : Prog ρ ε μ π α} {f : Except ε α → Prog ρ ε μ π β} : ∀ s : ρ × τ,
    (p.attempt f).alone connect request s = match p.alone connect request s with
      | .ok a t => (f (.ok a)).alone connect request t
      | .error e t => (f (.error e)).alone connect request t := by
  induction p with
  | ret a => intro s; rfl
  | raise e => intro s; rfl
  | acquire k ih => intro s; exact ih s
  | release k ih => intro s; exact ih s
  | get k ih => intro s; exact ih s.1 s
  | set r k ih => intro s; exact ih (r, s.2)
  | connect k ih =>
    intro s
    simp only [attempt, alone]
    cases connect.run s.2 with
    | ok i t => exact ih _ _
    | error e t => exact ih _ _
  | close i k ih => intro s; exact ih s
  | request i m k ih =>
    intro s
    simp only [attempt, alone]
    cases (request i m).run s.2 with
    | ok r t => exact ih _ _
    | error e t => exact ih _ _

@[simp] theorem alone_bind (p : Prog ρ ε μ π α) (f : α → Prog ρ ε μ π β) :
    (p >>= f).alone connect request = p.alone connect request >>= fun a => (f a).alone connect request := by
  funext s
  show (p.attempt _).alone connect request s = EStateM.bind (p.alone connect request) _ s
  rw [alone_attempt]
  unfold EStateM.bind
  cases p.alone connect request s <;> rfl

@[simp] theorem alone_tryCatch (p : Prog ρ ε μ π α) (h : ε → Prog ρ ε μ π α) :
    (tryCatch p h).alone connect request =
      tryCatch (p.alone connect request) fun e => (h e).alone connect request := by
  funext s
  show (p.attempt _).alone connect request s = EStateM.tryCatch (p.alone connect request) _ s
  rw [alone_attempt]
  unfold EStateM.tryCatch
  cases p.alone connect request s <;> rfl

@[simp] theorem alone_withLock (p : Prog ρ ε μ π α) :
    (withLock p).alone connect request = p.alone connect request := by
  funext s
  show (p.attempt _).alone connect request s = _
  rw [alone_attempt]
  cases p.alone connect request s <;> rfl

@[simp] theorem alone_pure (a : α) : (Pure.pure a : Prog ρ ε μ π α).alone connect request = Pure.pure a := rfl

@[simp] theorem alone_throw (e : ε) : (throw e : Prog ρ ε μ π α).alone connect request = throw e := rfl

@[simp] theorem alone_self :
    (self : Prog ρ ε μ π ρ).alone connect request = do return (← MonadState.get).1 := rfl

@[simp] theorem alone_assign (r : ρ) :
    (assign r : Prog ρ ε μ π Unit).alone connect request = onFst (MonadState.set r) := rfl

@[simp] theorem alone_close (i : Nat) (k : Prog ρ ε μ π α) :
    (close i k).alone connect request = k.alone connect request := rfl

@[simp] theorem alone_raiseIf (c : Prop) [Decidable c] (e : ε) :
    (raiseIf c e : Prog ρ ε μ π Unit).alone connect request = Lib.raiseIf c e := by
  unfold raiseIf Lib.raiseIf
  split <;> rfl

@[simp] theorem alone_connect :
    (Prog.connect done : Prog ρ ε μ π Nat).alone connect request = onSnd connect := by
  funext s
  simp only [alone, onSnd, EStateM.run]
  cases connect s.2 <;> rfl

@[simp] theorem alone_request (i : Nat) (m : μ) :
    (Prog.request i m done : Prog ρ ε μ π π).alone connect request = onSnd (request i m) := by
  funext s
  simp only [alone, onSnd, EStateM.run]
  cases request i m s.2 <;> rfl

theorem alone_foldlM {f : β → α → Prog ρ ε μ π β} (as : List α) : ∀ b, (as.foldlM f b).alone connect request =
    as.foldlM (fun b a => (f b a).alone connect request) b := by
  induction as with
  | nil =>
    intro b
    rfl
  | cons a as ih =>
    intro b
    simp only [List.foldlM_cons, alone_bind, ih]

/-- What connections and the program's requests keep, whether they raise or not, the program keeps. -/
theorem alone_ends {I : τ → Prop} {P : μ → Prop} (hconnect : ∀ t, I t → Ends connect (fun _ => I) I t)
    (hrequest : ∀ i m t, P m → I t → Ends (request i m) (fun _ => I) I t) {p : Prog ρ ε μ π α} :
    ∀ s : ρ × τ, p.Emits P → I s.2 →
      Ends (p.alone connect request) (fun _ t => I t.2) (fun t => I t.2) s := by
  induction p with
  | ret a => intro s _ h; exact h
  | raise e => intro s _ h; exact h
  | acquire k ih => intro s hp h; exact ih s hp h
  | release k ih => intro s hp h; exact ih s hp h
  | get k ih => intro s hp h; exact ih s.1 s (hp s.1) h
  | set r k ih => intro s hp h; exact ih (r, s.2) hp h
  | connect k ih =>
    intro s hp h
    have hk := hconnect s.2 h
    unfold Ends at hk ih ⊢
    simp only [alone, EStateM.run] at hk ih ⊢
    cases hc : connect s.2 with
    | ok i t =>
      rw [hc] at hk
      exact ih (.ok i) (s.1, t) (hp (.ok i)) hk
    | error e t =>
      rw [hc] at hk
      exact ih (.error e) (s.1, t) (hp (.error e)) hk
  | close i k ih => intro s hp h; exact ih s hp h
  | request i m k ih =>
    intro s hp h
    have hk := hrequest i m s.2 hp.1 h
    unfold Ends at hk ih ⊢
    simp only [alone, EStateM.run] at hk ih ⊢
    cases hc : request i m s.2 with
    | ok r t =>
      rw [hc] at hk
      exact ih (.ok r) (s.1, t) (hp.2 (.ok r)) hk
    | error e t =>
      rw [hc] at hk
      exact ih (.error e) (s.1, t) (hp.2 (.error e)) hk

end Alone

end Prog

end Lib.Monitor
