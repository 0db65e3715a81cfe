import RamLink.MemoryService

/-!
# RamLink.MemoryService.Lease

The requests of `RemoteMemory` on the wire, and the leases of the sockets they are sent on.

`Net.Inside`: every READ and WRITE that got onto the wire addresses bytes of the lease of its socket.
`Goes s C t`: what is sent between `s` and `t` is inside exactly if `C`; `request_goes` says what that
is for one request, and calls are put together with `Goes.trans`.
-/

namespace RamLink

open Lib

/-! ## What is on the wire -/

def Sent.isTransfer (self : Sent) : Bool := self.op = opRead ∨ self.op = opWrite

namespace Net

def transfers (self : Net) : List Sent := self.sent.filter Sent.isTransfer

/-- `r` addresses bytes of the lease granted on its socket. -/
def Covers (self : Net) (r : Sent) : Prop :=
  ∃ g, self.leases r.sock = some g ∧ (g.base : Int) ≤ r.offset ∧ r.offset + r.length ≤ g.base + g.length

def Inside (self : Net) : Prop := ∀ r ∈ self.transfers, self.Covers r

/-- Leases and transfers are only on sockets that were opened. -/
structure Sound (net : Net) : Prop where
  leases : ∀ k g, net.leases k = some g → k < net.opened
  transfers : ∀ r ∈ net.transfers, r.sock < net.opened

/-- `next` comes after `net`, and the transfers sent in between are `new`. -/
structure Extends (net : Net) (new : List Sent) (next : Net) : Prop where
  opened : net.opened ≤ next.opened
  leases : ∀ k < net.opened, next.leases k = net.leases k
  transfers : next.transfers = new ++ net.transfers

theorem Extends.refl (net : Net) : net.Extends [] net := ⟨Nat.le_refl _, fun _ _ => rfl, rfl⟩

theorem Extends.trans {a b c : Net} {new new' : List Sent} (h : a.Extends new b)
    (h' : b.Extends new' c) : a.Extends (new' ++ new) c where
  opened := Nat.le_trans h.opened h'.opened
  leases k hk := (h'.leases k (Nat.lt_of_lt_of_le hk h.opened)).trans (h.leases k hk)
  transfers := by rw [h'.transfers, h.transfers, List.append_assoc]

theorem Extends.covers_iff {a b : Net} {new : List Sent} (h : a.Extends new b) {r : Sent}
    (hr : r.sock < a.opened) : b.Covers r ↔ a.Covers r := by
  unfold Covers
  rw [h.leases _ hr]

/-- What was inside its lease stays so, whatever comes after. -/
theorem Extends.inside_iff {a b : Net} {new : List Sent} (hs : a.Sound) (h : a.Extends new b) :
    b.Inside ↔ (∀ r ∈ new, b.Covers r) ∧ a.Inside := by
  unfold Inside
  rw [h.transfers]
  simp only [List.mem_append, or_imp, forall_and]
  have : (∀ r ∈ a.transfers, b.Covers r) ↔ ∀ r ∈ a.transfers, a.Covers r :=
    forall₂_congr fun r hr => h.covers_iff (hs.transfers r hr)
  rw [this]

/-! ## One request -/

/-- `struct` can pack the header. -/
def Packs (offset length : Int) : Prop :=
  ¬ (offset < 0 ∨ 256 ^ 8 ≤ offset ∨ length < 0 ∨ 256 ^ 4 ≤ length)

instance (offset length : Int) : Decidable (Packs offset length) := inferInstanceAs (Decidable (¬ _))

/-- The next request gets onto the wire. -/
def transmits : List Outcome → Bool
  | .raised _ transmitted :: _ => transmitted
  | _ => true

def answers : List Outcome → Bool
  | .answered .. :: _ => true
  | _ => false

/-- The network after a request on socket `k` that `struct` could pack. -/
def requested (self : Net) (r : Sent) : Net :=
  { self with outcomes := self.outcomes.tail,
              sent := if transmits self.outcomes then r :: self.sent else self.sent }

/-- The transfers among what that request puts on the wire. -/
def emitted (self : Net) (r : Sent) : List Sent :=
  if transmits self.outcomes ∧ r.isTransfer then [r] else []

theorem extends_requested (net : Net) (r : Sent) : net.Extends (net.emitted r) (net.requested r) where
  opened := Nat.le_refl _
  leases _ _ := rfl
  transfers := by
    unfold transfers requested emitted
    cases ht : transmits net.outcomes <;> cases hr : r.isTransfer <;> simp [hr]

theorem Sound.after {net next : Net} {new : List Sent} (hs : net.Sound) (h : net.Extends new next)
    (hl : ∀ k g, next.leases k = some g → k < next.opened) (hn : ∀ r ∈ new, r.sock < next.opened) :
    next.Sound where
  leases := hl
  transfers r hr := by
    rw [h.transfers, List.mem_append] at hr
    rcases hr with hr | hr
    · exact hn r hr
    · exact Nat.lt_of_lt_of_le (hs.transfers r hr) h.opened

theorem Sound.requested {net : Net} (hs : net.Sound) {r : Sent} (hr : r.sock < net.opened) :
    (net.requested r).Sound := by
  refine hs.after (extends_requested net r) hs.leases ?_
  intro r' hr'
  unfold emitted at hr'
  split at hr'
  · rw [List.mem_singleton.mp hr']; exact hr
  · cases hr'

variable {net : Net} {r : Sent} {k op : Nat} {offset length : Int} {payload : Bytes}

theorem run_request_bad (hp : ¬ Packs offset length) :
    (request (some k) op offset length payload).run net = .error .structError net := by
  unfold request
  rw [EStateM.run_bind, run_raiseIf, if_pos (not_not.mp hp)]

/-- A request that asks for no lease: either it is answered or it raises, and the peer's answer does
not change what ends up on the wire. -/
theorem run_request (hop : op ≠ opBorrow) (hp : Packs offset length) :
    (answers net.outcomes = true ∧ ∃ a, (request (some k) op offset length payload).run net =
      .ok a (net.requested ⟨k, op, offset, length, payload⟩)) ∨
    (answers net.outcomes = false ∧ ∃ e, (request (some k) op offset length payload).run net =
      .error e (net.requested ⟨k, op, offset, length, payload⟩)) := by
  obtain ⟨connects, outcomes, opened, sent, leases⟩ := net
  have hok : (raiseIf (offset < 0 ∨ 256 ^ 8 ≤ offset ∨ length < 0 ∨ 256 ^ 4 ≤ length)
      Exc.structError : EStateM Exc Net Unit) = pure () := by
    unfold raiseIf
    rw [if_neg hp]
  have hleases (body : Bytes) :
      granted ⟨connects, outcomes, opened, sent, leases⟩ k op body = leases := by
    unfold granted
    rw [if_neg (fun h => hop h.1)]
  unfold request
  rw [hok]
  cases outcomes with
  | nil => exact .inr ⟨rfl, _, rfl⟩
  | cons o outcomes =>
    cases o with
    | raised e transmitted => exact .inr ⟨rfl, _, rfl⟩
    | answered rop roff body =>
      refine .inl ⟨rfl, (rop, roff, body), ?_⟩
      show EStateM.Result.ok _ (Net.mk connects outcomes opened _ (granted _ k op body)) = _
      rw [hleases]
      rfl

/-! ## BORROW -/

/-- The lease that the next connection and the BORROW on it give; `none` if either of them fails. -/
def grantOf (megabytes : Int) (connects : List (Option Exc)) : List Outcome → Option Grant
  | .answered _ _ body :: _ =>
    if connects.headD none = none ∧ Packs 0 (megabytes * 1024 * 1024) ∧
        body.length = leaseReplySize then
      some (Grant.ofReply body)
    else none
  | _ => none

/-- The network after a connection that was made. -/
def dialled (self : Net) : Net :=
  { self with connects := self.connects.tail, opened := self.opened + 1 }

theorem extends_dialled (net : Net) : net.Extends [] net.dialled where
  opened := Nat.le_succ _
  leases _ _ := rfl
  transfers := rfl

theorem Sound.dialled {net : Net} (hs : net.Sound) : net.dialled.Sound :=
  hs.after (extends_dialled net) (fun k g h => Nat.lt_succ_of_lt (hs.leases k g h)) (by simp)

theorem run_connect (net : Net) :
    (∃ e, net.connects.headD none = some e ∧
      connect.run net = .error e { net with connects := net.connects.tail }) ∨
    (net.connects.headD none = none ∧ connect.run net = .ok net.opened net.dialled) := by
  obtain ⟨connects, outcomes, opened, sent, leases⟩ := net
  rcases connects with _ | ⟨_ | e, connects⟩
  · exact .inr ⟨rfl, rfl⟩
  · exact .inr ⟨rfl, rfl⟩
  · exact .inl ⟨e, rfl, rfl⟩

/-- The network after a BORROW that was answered. -/
def borrowed (self : Net) (r : Sent) (body : Bytes) : Net :=
  { self.requested r with leases := self.granted r.sock opBorrow body }

theorem granted_of_ne {j : Nat} {body : Bytes} (h : j ≠ k) :
    net.granted k op body j = net.leases j := by
  unfold granted
  split
  · exact if_neg h
  · rfl

/-- A BORROW on the socket that was just connected. -/
theorem borrowed_spec (hs : net.Sound) (hr : r.sock = net.opened) (ht : r.isTransfer = false)
    (body : Bytes) :
    net.Extends [] (net.dialled.borrowed r body) ∧ (net.dialled.borrowed r body).Sound := by
  have hreq : net.Extends [] (net.dialled.requested r) := by
    have h := (extends_dialled net).trans (extends_requested net.dialled r)
    rwa [emitted, if_neg (fun h => by simp [ht] at h)] at h
  have hne (j : Nat) (hj : j ≠ net.opened) :
      (net.dialled.borrowed r body).leases j = net.leases j := by
    show net.dialled.granted r.sock opBorrow body j = _
    rw [granted_of_ne (hr ▸ hj)]
    rfl
  have hext : net.Extends [] (net.dialled.borrowed r body) :=
    ⟨hreq.opened, fun j hj => hne j (Nat.ne_of_lt hj), hreq.transfers⟩
  refine ⟨hext, hs.after hext ?_ (by simp)⟩
  intro j g h
  by_cases hj : j = net.opened
  · rw [hj]; exact Nat.lt_succ_self _
  · rw [hne j hj] at h
    exact Nat.lt_succ_of_lt (hs.leases j g h)

theorem run_borrow (hp : Packs offset length) :
    (request (some k) opBorrow offset length payload).run net = match net.outcomes with
      | .answered rop roff body :: _ =>
        .ok (rop, roff, body) (net.borrowed ⟨k, opBorrow, offset, length, payload⟩ body)
      | .raised e _ :: _ => .error e (net.requested ⟨k, opBorrow, offset, length, payload⟩)
      | [] => .error (.connectionError "peer disconnected")
          (net.requested ⟨k, opBorrow, offset, length, payload⟩) := by
  obtain ⟨connects, outcomes, opened, sent, leases⟩ := net
  have hok : (raiseIf (offset < 0 ∨ 256 ^ 8 ≤ offset ∨ length < 0 ∨ 256 ^ 4 ≤ length)
      Exc.structError : EStateM Exc Net Unit) = pure () := by
    unfold raiseIf
    rw [if_neg hp]
  unfold request
  rw [hok]
  rcases outcomes with _ | ⟨_ | ⟨e, transmitted⟩, outcomes⟩
  · rfl
  · rfl
  · rfl

end Net

namespace RemoteMemory

/-- What the next connection and the BORROW on it come to. Either way it takes the next connection, and
the next outcome if a BORROW is sent. -/
theorem run_borrowNewSocket (self : RemoteMemory) (net : Net) :
    ∃ next, (net.Sound → net.Extends [] next ∧ next.Sound) ∧ next.connects = net.connects.tail ∧
      ((∃ g, borrowNewSocket.run (self, net) = .ok (net.opened, g) (self, next) ∧
        Net.grantOf self.megabytes net.connects net.outcomes = some g ∧
        next.leases net.opened = some g ∧ next.opened = net.opened + 1 ∧
        next.outcomes = net.outcomes.tail) ∨
      (∃ e, borrowNewSocket.run (self, net) = .error e (self, next) ∧
        Net.grantOf self.megabytes net.connects net.outcomes = none ∧
        next.outcomes =
          if net.connects.headD none = none ∧ Net.Packs 0 (self.megabytes * 1024 * 1024) then
            net.outcomes.tail else net.outcomes)) := by
  unfold borrowNewSocket
  rw [EStateM.run_bind, run_onSnd]
  rcases Net.run_connect net with ⟨e, he, hr⟩ | ⟨hn, hr⟩
  · -- no connection
    have hno : ¬ (net.connects.headD none = none ∧ Net.Packs 0 (self.megabytes * 1024 * 1024)) := by
      rintro ⟨h, -⟩
      rw [he] at h
      cases h
    refine ⟨{ net with connects := net.connects.tail },
      fun hs => ⟨⟨Nat.le_refl _, fun _ _ => rfl, rfl⟩, ⟨hs.leases, hs.transfers⟩⟩, rfl,
      .inr ⟨e, by rw [hr], ?_, (if_neg hno).symm⟩⟩
    unfold Net.grantOf
    split
    · exact if_neg fun h => hno ⟨h.1, h.2.1⟩
    · rfl
  · let r : Sent := ⟨net.opened, opBorrow, 0, self.megabytes * 1024 * 1024, []⟩
    have hreq (hs : net.Sound) :
        net.Extends [] (net.dialled.requested r) ∧ (net.dialled.requested r).Sound := by
      have hemit : net.dialled.emitted r = [] := by
        unfold Net.emitted
        exact if_neg (fun h => absurd h.2 (by simp [r, Sent.isTransfer, opBorrow, opRead, opWrite]))
      have hext := (Net.extends_dialled net).trans (Net.extends_requested net.dialled r)
      rw [hemit] at hext
      exact ⟨hext, hs.dialled.requested (Nat.lt_succ_self _)⟩
    rw [hr]
    simp only [EStateM.run_bind, run_onSnd, EStateM.run_get]
    by_cases hp : Net.Packs 0 (self.megabytes * 1024 * 1024)
    · have ho : net.dialled.outcomes = net.outcomes := rfl
      rw [Net.run_borrow hp, ho]
      rcases hos : net.outcomes with _ | ⟨⟨rop, roff, body⟩ | ⟨e, transmitted⟩, outcomes⟩
      · refine ⟨net.dialled.requested r, hreq, rfl, .inr ⟨_, rfl, rfl, ?_⟩⟩
        rw [if_pos ⟨hn, hp⟩, ← hos]
        rfl
      · have hout : (net.dialled.borrowed r body).outcomes = outcomes := by
          show net.outcomes.tail = _
          rw [hos]
          rfl
        refine ⟨net.dialled.borrowed r body, fun hs => Net.borrowed_spec (r := r) hs rfl rfl body, rfl, ?_⟩
        by_cases hb : body.length = leaseReplySize
        · have hl : (net.dialled.borrowed r body).leases =
              fun s => if s = net.opened then some (Grant.ofReply body) else net.leases s :=
            if_pos ⟨rfl, hb⟩
          refine .inl ⟨Grant.ofReply body, ?_, if_pos ⟨hn, hp, hb⟩, ?_, rfl, hout⟩
          · simp [run_raiseIf, hb]
            rfl
          · rw [hl]
            exact if_pos rfl
        · refine .inr ⟨.valueError "Invalid BORROW reply", ?_, if_neg (fun h => hb h.2.2), ?_⟩
          · simp [run_raiseIf, hb]
            rfl
          · rw [if_pos ⟨hn, hp⟩]
            exact hout
      · refine ⟨net.dialled.requested r, hreq, rfl, .inr ⟨_, rfl, rfl, ?_⟩⟩
        rw [if_pos ⟨hn, hp⟩, ← hos]
        rfl
    · -- `struct` cannot pack the BORROW
      refine ⟨net.dialled, fun hs => ⟨Net.extends_dialled net, hs.dialled⟩, rfl,
        .inr ⟨.structError, by rw [Net.run_request_bad hp], ?_, (if_neg fun h => hp h.2).symm⟩⟩
      unfold Net.grantOf
      split
      · exact if_neg fun h => hp h.2.1
      · rfl

/-! ## The client's own record -/

/-- The client's record of its lease is the lease of its socket. -/
structure Held (s : RemoteMemory × Net) : Prop where
  sound : s.2.Sound
  lease : ∀ k, s.1.sock = some k →
    ∃ g, s.2.leases k = some g ∧ s.1.baseOffset = g.base ∧ s.1.length = g.length

/-- `s'` comes after `s`, and what was sent in between is in its lease exactly if `C`. -/
structure Goes (s : RemoteMemory × Net) (C : Prop) (s' : RemoteMemory × Net) : Prop where
  held : Held s'
  sent : ∃ new, s.2.Extends new s'.2 ∧ ((∀ r ∈ new, s'.2.Covers r) ↔ C)

variable {s t u : RemoteMemory × Net} {C D : Prop}

theorem Goes.of_quiet (hs : Held t) (h : s.2.Extends [] t.2) : Goes s True t :=
  ⟨hs, [], h, by simp⟩

theorem Goes.refl (hs : Held s) : Goes s True s := .of_quiet hs (Net.Extends.refl s.2)

theorem Goes.congr (h : Goes s C t) (hcd : C ↔ D) : Goes s D t := by
  rwa [propext hcd] at h

theorem Goes.trans (h : Goes s C t) (h' : Goes t D u) : Goes s (C ∧ D) u := by
  obtain ⟨ht, new, he, hc⟩ := h
  obtain ⟨hu, new', he', hd⟩ := h'
  refine ⟨hu, new' ++ new, he.trans he', ?_⟩
  have hold : (∀ r ∈ new, u.2.Covers r) ↔ ∀ r ∈ new, t.2.Covers r := by
    refine forall₂_congr fun r hr => he'.covers_iff (ht.sound.transfers r ?_)
    rw [he.transfers]
    exact List.mem_append_left _ hr
  simp only [List.mem_append, or_imp, forall_and]
  rw [hold, hc, hd, and_comm]

theorem Goes.inside_iff (hs : Held s) (h : Goes s C t) : t.2.Inside ↔ C ∧ s.2.Inside := by
  obtain ⟨-, new, he, hc⟩ := h
  rw [he.inside_iff hs.sound, hc]

/-! ## One request -/

theorem request_cases {op : Nat} (hop : op ≠ opBorrow) (offset n : Int) (payload : Bytes)
    (s : RemoteMemory × Net) :
    ((s.1.sock = none ∨ ¬ Net.Packs offset n) ∧
      ∃ e, (request op offset n payload).run s = .error e s) ∨
    (∃ k, s.1.sock = some k ∧ Net.Packs offset n ∧
      ((Net.answers s.2.outcomes = true ∧ ∃ a, (request op offset n payload).run s =
        .ok a (s.1, s.2.requested ⟨k, op, offset, n, payload⟩)) ∨
      (Net.answers s.2.outcomes = false ∧ ∃ e, (request op offset n payload).run s =
        .error e (s.1, s.2.requested ⟨k, op, offset, n, payload⟩)))) := by
  obtain ⟨self, net⟩ := s
  have hrun : (request op offset n payload).run (self, net) =
      (onSnd (Net.request self.sock op offset n payload)).run (self, net) := rfl
  rw [hrun, run_onSnd]
  cases hk : self.sock with
  | none => exact .inl ⟨.inl rfl, _, rfl⟩
  | some k =>
    by_cases hp : Net.Packs offset n
    · refine .inr ⟨k, rfl, hp, ?_⟩
      rcases Net.run_request (k := k) hop hp with
        ⟨ha, a, hr⟩ | ⟨ha, e, hr⟩
      · exact .inl ⟨ha, a, by rw [hr]⟩
      · exact .inr ⟨ha, e, by rw [hr]⟩
    · exact .inl ⟨.inr hp, .structError, by rw [Net.run_request_bad hp]⟩

theorem Held.requested (hs : Held s) {r : Sent} (hr : s.1.sock = some r.sock) :
    Held (s.1, s.2.requested r) := by
  obtain ⟨g, hg, -⟩ := hs.lease r.sock hr
  exact ⟨hs.sound.requested (hs.sound.leases _ _ hg), hs.lease⟩

/-- The request lies in the lease that is held, where it gets onto the wire at all. -/
def AttemptFits (offset n : Int) (s : RemoteMemory × Net) : Prop :=
  s.1.sock ≠ none → Net.Packs offset n → Net.transmits s.2.outcomes →
    s.1.baseOffset ≤ offset ∧ offset + n ≤ s.1.baseOffset + s.1.length

theorem requested_goes (hs : Held s) {r : Sent} (hr : s.1.sock = some r.sock)
    (ht : r.isTransfer = true) (hp : Net.Packs r.offset r.length) :
    Goes s (AttemptFits r.offset r.length s) (s.1, s.2.requested r) := by
  refine ⟨hs.requested hr, s.2.emitted r, Net.extends_requested s.2 r, ?_⟩
  obtain ⟨g, hg, hb, hl⟩ := hs.lease r.sock hr
  have hcov : (s.2.requested r).Covers r ↔
      s.1.baseOffset ≤ r.offset ∧ r.offset + r.length ≤ s.1.baseOffset + s.1.length := by
    rw [hb, hl]
    constructor
    · rintro ⟨g', hg', h⟩
      have hgg : g' = g := Option.some.inj (hg'.symm.trans hg)
      rwa [hgg] at h
    · intro h
      exact ⟨g, hg, h⟩
  unfold AttemptFits Net.emitted
  cases hw : Net.transmits s.2.outcomes <;> simp [ht, hr, hp, hcov]

theorem request_goes {op : Nat} (hop : op = opRead ∨ op = opWrite) (hs : Held s) (offset n : Int)
    (payload : Bytes) :
    Goes s (AttemptFits offset n s) (finalState (request op offset n payload) s) := by
  have hne : op ≠ opBorrow := by rcases hop with rfl | rfl <;> decide
  unfold finalState
  rcases request_cases hne offset n payload s with
    ⟨hno, e, hr⟩ | ⟨k, hk, hp, ⟨-, a, hr⟩ | ⟨-, e, hr⟩⟩
  · rw [hr]
    refine (Goes.refl hs).congr ⟨fun _ hk hp => ?_, fun _ => trivial⟩
    exact absurd hno (by simp [hk, hp])
  all_goals
    have ht : (Sent.mk k op offset n payload).isTransfer = true := by
      simpa [Sent.isTransfer] using hop
    rw [hr]
    exact requested_goes hs hk ht hp

theorem quiet_goes {op : Nat} (hop : op = opKeepalive ∨ op = opRelease) (hs : Held s)
    (offset n : Int) (payload : Bytes) :
    Goes s True (finalState (request op offset n payload) s) := by
  have hne : op ≠ opBorrow := by rcases hop with rfl | rfl <;> decide
  unfold finalState
  rcases request_cases hne offset n payload s with
    ⟨-, e, hr⟩ | ⟨k, hk, hp, ⟨-, a, hr⟩ | ⟨-, e, hr⟩⟩
  · rw [hr]
    exact Goes.refl hs
  all_goals
    have ht : (Sent.mk k op offset n payload).isTransfer = false := by
      rcases hop with rfl | rfl <;> rfl
    rw [hr]
    refine Goes.of_quiet (hs.requested hk) ?_
    have he := Net.extends_requested s.2 ⟨k, op, offset, n, payload⟩
    rwa [Net.emitted, if_neg (fun h => by simp [ht] at h)] at he

end RemoteMemory

end RamLink
