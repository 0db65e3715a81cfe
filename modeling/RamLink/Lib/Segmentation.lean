import RamLink.Lib.Socket

/-!
# RamLink.Lib.Segmentation

Computations on a state and a connection that do not depend on how the stream is cut.

`Orderly m`: whatever the cuts, `m` has the result it has on a stream in one piece, and it takes the
bytes of the stream from the front. The rules follow the structure of a program: `recvAll` and
`sendall` are orderly, and so is every sequence of orderly computations.
-/

namespace Lib

variable {σ α β : Type}

/-- The same connection, all of whose bytes come in one piece. -/
def Conn.uncut (c : Conn) : Conn := { c with cuts := [] }

@[simp] theorem Conn.uncut_inbox (c : Conn) : c.uncut.inbox = c.inbox := rfl

/-- A result without the cuts that are left. -/
def forgetCuts : EStateM.Result Exc (σ × Conn) α → EStateM.Result Exc (σ × Conn) α
  | .ok a s => .ok a (s.1, s.2.uncut)
  | .error e s => .error e (s.1, s.2.uncut)

structure Orderly (m : EStateM Exc (σ × Conn) α) : Prop where
  uncut : ∀ s c, forgetCuts (m.run (s, c)) = forgetCuts (m.run (s, c.uncut))
  takes : ∀ s, ∃ k, (finalState m s).2.inbox = s.2.inbox.drop k

namespace Orderly

variable {m : EStateM Exc (σ × Conn) α} {s s' : σ} {c c' d : Conn}

/-- Two connections that differ in their cuts give results that differ in their cuts. -/
theorem congr (h : Orderly m) (hcd : c.uncut = d.uncut) :
    forgetCuts (m.run (s, c)) = forgetCuts (m.run (s, d)) := by
  rw [h.uncut s c, hcd, ← h.uncut s d]

theorem ok {a : α} (h : Orderly m) (hcd : c.uncut = d.uncut) (hm : m.run (s, c) = .ok a (s', c')) :
    ∃ d', m.run (s, d) = .ok a (s', d') ∧ c'.uncut = d'.uncut := by
  have hf := h.congr (s := s) hcd
  rw [hm] at hf
  cases hr : m.run (s, d) with
  | ok b t =>
    rw [hr] at hf
    obtain ⟨rfl, ht⟩ := EStateM.Result.ok.inj hf
    obtain ⟨rfl, hu⟩ := Prod.mk.inj ht
    exact ⟨t.2, rfl, hu⟩
  | error e t =>
    rw [hr] at hf
    cases hf

theorem error {e : Exc} (h : Orderly m) (hcd : c.uncut = d.uncut) (hm : m.run (s, c) = .error e (s', c')) :
    ∃ d', m.run (s, d) = .error e (s', d') ∧ c'.uncut = d'.uncut := by
  have hf := h.congr (s := s) hcd
  rw [hm] at hf
  cases hr : m.run (s, d) with
  | ok b t =>
    rw [hr] at hf
    cases hf
  | error e' t =>
    rw [hr] at hf
    obtain ⟨rfl, ht⟩ := EStateM.Result.error.inj hf
    obtain ⟨rfl, hu⟩ := Prod.mk.inj ht
    exact ⟨t.2, rfl, hu⟩

theorem bind {f : α → EStateM Exc (σ × Conn) β} (hm : Orderly m) (hf : ∀ a, Orderly (f a)) :
    Orderly (m >>= f) := by
  constructor
  · intro s c
    rw [EStateM.run_bind, EStateM.run_bind]
    cases hr : m.run (s, c) with
    | ok a t =>
      obtain ⟨t, c'⟩ := t
      obtain ⟨d', hd, hu⟩ := hm.ok (c := c) (d := c.uncut) rfl hr
      rw [hd]
      exact (hf a).congr hu
    | error e t =>
      obtain ⟨t, c'⟩ := t
      obtain ⟨d', hd, hu⟩ := hm.error (c := c) (d := c.uncut) rfl hr
      rw [hd]
      simp only [forgetCuts, hu]
  · intro s
    obtain ⟨k, hk⟩ := hm.takes s
    rw [finalState_bind]
    unfold finalState at hk
    cases hr : m.run s with
    | ok a t =>
      rw [hr] at hk
      obtain ⟨n, hn⟩ := (hf a).takes t
      exact ⟨k + n, by rw [hn, hk, List.drop_drop]⟩
    | error e t =>
      rw [hr] at hk
      exact ⟨k, hk⟩

theorem pure (a : α) : Orderly (pure a : EStateM Exc (σ × Conn) α) :=
  ⟨fun _ _ => rfl, fun _ => ⟨0, rfl⟩⟩

theorem throw (e : Exc) : Orderly (throw e : EStateM Exc (σ × Conn) α) :=
  ⟨fun _ _ => rfl, fun _ => ⟨0, rfl⟩⟩

/-- A computation may look at the state, but not at the connection. -/
theorem get {f : σ × Conn → EStateM Exc (σ × Conn) β} (hf : ∀ p, Orderly (f p))
    (hs : ∀ s c, f (s, c) = f (s, c.uncut)) : Orderly (get >>= f) := by
  constructor
  · intro s c
    show forgetCuts ((f (s, c)).run (s, c)) = forgetCuts ((f (s, c.uncut)).run (s, c.uncut))
    rw [← hs s c]
    exact (hf (s, c)).uncut s c
  · intro s
    exact (hf s).takes s

theorem onFst (n : EStateM Exc σ α) : Orderly (onFst n : EStateM Exc (σ × Conn) α) := by
  constructor
  · intro s c
    rw [run_onFst, run_onFst]
    cases n.run s <;> rfl
  · intro s
    rw [finalState_onFst]
    exact ⟨0, rfl⟩

theorem raiseIf (p : Prop) [Decidable p] (e : Exc) :
    Orderly (raiseIf p e : EStateM Exc (σ × Conn) Unit) := by
  unfold Lib.raiseIf
  split
  · exact throw e
  · exact pure ()

theorem fromExcept (x : Except Exc α) : Orderly (fromExcept x : EStateM Exc (σ × Conn) α) := by
  cases x with
  | ok a => exact pure a
  | error e => exact throw e

theorem sendall (data : Bytes) : Orderly (onSnd (Conn.sendall data) : EStateM Exc (σ × Conn) Unit) := by
  constructor
  · rintro s ⟨i, u, f, o⟩
    match f with
    | [] => rfl
    | none :: fs => rfl
    | some k :: fs => rfl
  · rintro ⟨s, i, u, f, o⟩
    refine ⟨0, ?_⟩
    match f with
    | [] => rfl
    | none :: fs => rfl
    | some k :: fs => rfl

/-- The loop of `recv_all` takes the same bytes however they are cut. -/
theorem recvAll (lost : Exc) {limit : Nat} (hl : 0 < limit) (n : Nat) :
    Orderly (onSnd (Conn.recvAll lost limit n) : EStateM Exc (σ × Conn) Bytes) := by
  constructor
  · intro s c
    rw [run_onSnd, run_onSnd]
    by_cases hn : n ≤ c.inbox.length
    · obtain ⟨cuts, hr⟩ := Conn.recvAll_ok lost hl hn
      obtain ⟨cuts', hr'⟩ := Conn.recvAll_ok (c := c.uncut) lost hl hn
      rw [hr, hr']
      rfl
    · obtain ⟨cuts, hr⟩ := Conn.recvAll_short lost hl (Nat.lt_of_not_le hn)
      obtain ⟨cuts', hr'⟩ := Conn.recvAll_short (c := c.uncut) lost hl (Nat.lt_of_not_le hn)
      rw [hr, hr']
      rfl
  · intro s
    unfold finalState
    rw [run_onSnd]
    by_cases hn : n ≤ s.2.inbox.length
    · obtain ⟨cuts, hr⟩ := Conn.recvAll_ok lost hl hn
      rw [hr]
      exact ⟨n, rfl⟩
    · obtain ⟨cuts, hr⟩ := Conn.recvAll_short lost hl (Nat.lt_of_not_le hn)
      rw [hr]
      exact ⟨s.2.inbox.length, by rw [List.drop_length]⟩

end Orderly

end Lib
