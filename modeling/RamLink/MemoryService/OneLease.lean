import RamLink.MemoryService.Lease

/-!
# RamLink.MemoryService.OneLease

Which calls of `read` and `write` are answered under one lease.

Every chunk of a call is one `_request_with_reconnect`. `fates` says, from the failures alone, what
becomes of each: it is answered at once, it is repeated under a fresh lease, or it is lost and the
call raises.

* `OneLease`: if the call returns, all its chunks were answered on one socket, and so under the one
  lease that socket was granted.
* `oneLease_iff`: that holds exactly if a chunk is lost or none after the first is repeated. The loops
  go on after a reconnect with what they have from, or have written to, the lost lease.
-/

namespace RamLink

open Lib

/-! ## The fate of a chunk -/

inductive Fate where
  | answered
  | repeated
  | lost
deriving DecidableEq, Repr

/-- What decides the fates of the chunks to come: whether a socket is held, the base offset of its
lease, and what the network is going to do. -/
structure Outlook where
  linked : Bool
  base : Nat
  connects : List (Option Exc)
  outcomes : List Outcome

/-- One chunk: where it is in the lease, its size, and whether its reply must have that size. -/
structure Part where
  pos : Int
  size : Int
  exact : Bool

namespace Outlook

/-- The next request is answered, with a reply that the chunk accepts. -/
def accepts (part : Part) : List Outcome → Bool
  | .answered _ _ body :: _ => !part.exact || decide ((body.length : Int) = part.size)
  | _ => false

/-- The outcomes that are left when the first request of the chunk has failed. -/
def afterFirst (part : Part) (w : Outlook) : List Outcome :=
  if w.linked ∧ Net.Packs (w.base + part.pos) part.size then w.outcomes.tail else w.outcomes

/-- One chunk, for a client that borrows `megabytes`. -/
def chunk (megabytes : Int) (part : Part) (w : Outlook) : Fate × Outlook :=
  if w.linked ∧ Net.Packs (w.base + part.pos) part.size ∧ Net.answers w.outcomes then
    (if accepts part w.outcomes then .answered else .lost, { w with outcomes := w.outcomes.tail })
  else
    match Net.grantOf megabytes w.connects (w.afterFirst part) with
    | none => (.lost, w)
    | some g =>
      if Net.Packs (w.base + part.pos) part.size ∧ accepts part (w.afterFirst part).tail then
        (.repeated, ⟨true, g.base, w.connects.tail, (w.afterFirst part).tail.tail⟩)
      else (.lost, w)

/-- The fates of the chunks of a call, up to the first that is lost. -/
def fates (megabytes : Int) : List Part → Outlook → List Fate
  | [], _ => []
  | part :: parts, w =>
    match w.chunk megabytes part with
    | (.lost, _) => [.lost]
    | (fate, w') => fate :: fates megabytes parts w'

end Outlook

namespace RemoteMemory

def outlook (s : RemoteMemory × Net) : Outlook :=
  ⟨s.1.sock.isSome, s.1.baseOffset, s.2.connects, s.2.outcomes⟩

/-! ## The requests that answered a call -/

/-- The body of `write`'s loop. -/
def writeChunk (offset : Int) (data : Bytes) (pos : Int) : ServiceM Unit := do
  let n := min maxTransfer (data.length - pos)
  let _ ← requestWithReconnect opWrite ((← get).1.baseOffset + offset + pos) n (slice data pos (pos + n))

variable {β : Type}

/-- The requests whose answers completed the chunks: when a chunk is complete, the last request on
the wire is the one that was answered. -/
def answered (f : β → Int → ServiceM β) : List Int → β → RemoteMemory × Net → List Sent
  | [], _, _ => []
  | pos :: ps, b, s =>
    match (f b pos).run s with
    | .ok b' t => t.2.sent.head?.toList ++ answered f ps b' t
    | .error _ _ => []

inductive Transfer where
  | read (offset length : Int)
  | write (offset : Int) (data : Bytes)

namespace Transfer

def InRange (self : RemoteMemory) : Transfer → Prop
  | .read offset length => 0 ≤ offset ∧ 0 ≤ length ∧ offset + length ≤ self.length
  | .write offset data => 0 ≤ offset ∧ offset + data.length ≤ self.length

def Returns (s : RemoteMemory × Net) : Transfer → Prop
  | .read offset length => ∃ out t, (RemoteMemory.read offset length).run s = .ok out t
  | .write offset data => ∃ t, (RemoteMemory.write offset data).run s = .ok () t

def requests (s : RemoteMemory × Net) : Transfer → List Sent
  | .read offset length =>
    answered (readChunk offset length) (range offset (offset + length) maxTransfer) [] s
  | .write offset data =>
    answered (fun _ pos => writeChunk offset data pos) (range 0 data.length maxTransfer) () s

/-- If the call returns, its chunks were all answered on one socket. A request that was transmitted and
raised counts for no lease: only the one that was answered in its place does. -/
def OneLease (s : RemoteMemory × Net) (x : Transfer) : Prop :=
  x.Returns s → ∀ r ∈ x.requests s, ∀ r' ∈ x.requests s, r.sock = r'.sock

def parts : Transfer → List Part
  | .read offset length => (range offset (offset + length) maxTransfer).map fun pos =>
      ⟨pos, min maxTransfer (offset + length - pos), true⟩
  | .write offset data => (range 0 data.length maxTransfer).map fun pos =>
      ⟨offset + pos, min maxTransfer (data.length - pos), false⟩

def fates (s : RemoteMemory × Net) (x : Transfer) : List Fate :=
  (outlook s).fates s.1.megabytes x.parts

end Transfer

/-! ## One chunk -/

/-- The client holds socket `k`, and its outlook is `w`. -/
structure Holds (megabytes : Int) (k : Nat) (w : Outlook) (s : RemoteMemory × Net) : Prop where
  sock : s.1.sock = some k
  opened : k < s.2.opened
  megabytes : s.1.megabytes = megabytes
  outlook : outlook s = w

/-- `_reconnect` succeeds exactly if there is a grant. -/
theorem run_reconnect (self : RemoteMemory) (net : Net) :
    (∃ g t, Net.grantOf self.megabytes net.connects net.outcomes = some g ∧
      reconnect.run (self, net) = .ok () t ∧
      Holds self.megabytes net.opened ⟨true, g.base, net.connects.tail, net.outcomes.tail⟩ t) ∨
    (Net.grantOf self.megabytes net.connects net.outcomes = none ∧
      ∃ e t, reconnect.run (self, net) = .error e t) := by
  obtain ⟨next, -, hc, ⟨g, hr, hg, -, hopened, hout⟩ | ⟨e, hr, hg, -⟩⟩ := run_borrowNewSocket self net
  · let self' : RemoteMemory := { self with
      sock := some net.opened, leaseId := g.leaseId, baseOffset := g.base, length := g.length,
      reconnects := self.reconnects + 1, lastError := none }
    have hrun : reconnect.run (self, net) = .ok () (self', next) := by
      unfold reconnect
      rw [EStateM.run_bind, hr]
      rfl
    refine .inl ⟨g, (self', next), hg, hrun, rfl, ?_, rfl, ?_⟩
    · show net.opened < next.opened
      omega
    · show Outlook.mk true g.base next.connects next.outcomes = _
      rw [hc, hout]
  · refine .inr ⟨hg, e, (self, next), ?_⟩
    unfold reconnect
    rw [EStateM.run_bind, hr]

section Chunk

variable {op : Nat} {part : Part} {offset n : Int} {payload : Bytes} {s t : RemoteMemory × Net}
  {a : Nat × Nat × Bytes}

/-- A reply is the outcome that was next. -/
theorem outcomes_of_reply (h : (request op offset n payload).run s = .ok a t) :
    ∃ rest, s.2.outcomes = .answered a.1 a.2.1 a.2.2 :: rest := by
  obtain ⟨self, connects, outcomes, opened, sent, leases⟩ := s
  have hr : (onSnd (Net.request self.sock op offset n payload)).run
    (self, ⟨connects, outcomes, opened, sent, leases⟩) = .ok a t := h
  rw [run_onSnd] at hr
  cases hk : self.sock with
  | none =>
    rw [hk] at hr
    cases hr
  | some k =>
    rw [hk] at hr
    simp only [Net.request, EStateM.run_bind, run_raiseIf] at hr
    by_cases hp : offset < 0 ∨ 256 ^ 8 ≤ offset ∨ n < 0 ∨ 256 ^ 4 ≤ n
    · rw [if_pos hp] at hr
      cases hr
    · rw [if_neg hp] at hr
      rcases outcomes with _ | ⟨⟨rop, roff, body⟩ | ⟨e, transmitted⟩, rest⟩
      · cases hr
      · cases hr
        exact ⟨rest, rfl⟩
      · cases hr

theorem accepts_iff {rop roff : Nat} {body : Bytes} {rest : List Outcome} :
    Outlook.accepts part (.answered rop roff body :: rest) = true ↔
      (part.exact = true → (body.length : Int) = part.size) := by
  cases h : part.exact <;> simp [Outlook.accepts, h]

theorem not_answers_of {outcomes : List Outcome} (h : Net.answers outcomes = false) :
    Outlook.accepts part outcomes = false := by
  rcases outcomes with _ | ⟨⟨rop, roff, body⟩ | ⟨e, transmitted⟩, rest⟩
  · rfl
  · cases h
  · rfl

/-- The chunk was completed on socket `k`, by the last request on the wire. -/
structure Completes (m : ServiceM (Nat × Nat × Bytes)) (part : Part) (k : Nat) (w : Outlook)
    (s : RemoteMemory × Net) (a : Nat × Nat × Bytes) (t : RemoteMemory × Net) : Prop where
  run : m.run s = .ok a t
  holds : Holds s.1.megabytes k w t
  last : ∃ r, t.2.sent.head? = some r ∧ r.sock = k
  exact_ : part.exact = true → (a.2.2.length : Int) = part.size

/-- No reply that the caller accepts. -/
def Fails (m : ServiceM (Nat × Nat × Bytes)) (part : Part) (s : RemoteMemory × Net) : Prop :=
  ∀ a t, m.run s = .ok a t → part.exact = true ∧ (a.2.2.length : Int) ≠ part.size

/-- A request on the socket that is held: answered, or raised with the outcomes that are left. -/
theorem request_fate (hop : op ≠ opBorrow) (offset n : Int) (payload : Bytes) (s : RemoteMemory × Net) :
    (∃ k a, s.1.sock = some k ∧ Net.Packs offset n ∧ Net.answers s.2.outcomes = true ∧
      (request op offset n payload).run s =
        .ok a (s.1, s.2.requested ⟨k, op, offset, n, payload⟩)) ∨
    (¬ (s.1.sock.isSome = true ∧ Net.Packs offset n ∧ Net.answers s.2.outcomes = true) ∧
      ∃ e net, (request op offset n payload).run s = .error e (s.1, net) ∧
        net.connects = s.2.connects ∧ net.opened = s.2.opened ∧
        net.outcomes = if s.1.sock.isSome = true ∧ Net.Packs offset n then s.2.outcomes.tail
          else s.2.outcomes) := by
  rcases request_cases hop offset n payload s with
    ⟨hno, e, hr⟩ | ⟨k, hk, hp, ⟨ha, a, hr⟩ | ⟨ha, e, hr⟩⟩
  · have hnot : ¬ (s.1.sock.isSome = true ∧ Net.Packs offset n) := by
      rintro ⟨h1, h2⟩
      rcases hno with h | h
      · simp [h] at h1
      · exact h h2
    exact .inr ⟨fun h => hnot ⟨h.1, h.2.1⟩, e, s.2, hr, rfl, rfl, (if_neg hnot).symm⟩
  · exact .inl ⟨k, a, hk, hp, ha, hr⟩
  · refine .inr ⟨fun h => by simp [ha] at h, e, _, hr, rfl, rfl, ?_⟩
    rw [if_pos ⟨by simp [hk], hp⟩]
    rfl

theorem head_requested {net : Net} {r : Sent} (h : Net.answers net.outcomes = true) :
    (net.requested r).sent.head? = some r := by
  have ht : Net.transmits net.outcomes = true := by
    rcases ho : net.outcomes with _ | ⟨⟨rop, roff, body⟩ | ⟨e, transmitted⟩, rest⟩
    · rfl
    · rfl
    · rw [ho] at h
      cases h
  simp [Net.requested, ht]

theorem outlook_requested (s : RemoteMemory × Net) (r : Sent) :
    outlook (s.1, s.2.requested r) =
      { outlook s with outcomes := (outlook s).outcomes.tail } := rfl

/-- The repeated request, on the socket of the fresh lease. -/
theorem repeat_fate (hop : op ≠ opBorrow) (self : RemoteMemory) (net : Net) (e : Exc) (addr : Int)
    (payload : Bytes) :
    let m : ServiceM (Nat × Nat × Bytes) := do
      markDisconnected e
      reconnect
      request op addr part.size payload
    (∃ g a t, Net.grantOf self.megabytes net.connects net.outcomes = some g ∧
      Net.Packs addr part.size ∧ Net.answers net.outcomes.tail = true ∧ m.run (self, net) = .ok a t ∧
      (∃ rest, net.outcomes.tail = .answered a.1 a.2.1 a.2.2 :: rest) ∧
      Holds self.megabytes net.opened ⟨true, g.base, net.connects.tail, net.outcomes.tail.tail⟩ t ∧
      ∃ r, t.2.sent.head? = some r ∧ r.sock = net.opened) ∨
    ((∀ g, Net.grantOf self.megabytes net.connects net.outcomes = some g →
        ¬ (Net.Packs addr part.size ∧ Net.answers net.outcomes.tail = true)) ∧
      ∃ e t, m.run (self, net) = .error e t) := by
  intro m
  have hm : m.run (self, net) = (do reconnect; request op addr part.size payload : ServiceM _).run
      ({ self with sock := none, leaseId := 0, baseOffset := 0, lastError := some e }, net) := rfl
  rw [hm, EStateM.run_bind]
  rcases run_reconnect
    { self with sock := none, leaseId := 0, baseOffset := 0, lastError := some e } net with
    ⟨g, t, hg, hr, ht⟩ | ⟨hg, e', t, hr⟩
  · have hout : t.2.outcomes = net.outcomes.tail := congrArg Outlook.outcomes ht.outlook
    rw [hr]
    rcases request_fate hop addr part.size payload t with
      ⟨k, a, hk, hp, ha, hreq⟩ | ⟨hno, e'', net', hreq, -⟩
    · obtain ⟨rest, ho⟩ := outcomes_of_reply hreq
      rw [hout] at ho
      have hkk : k = net.opened := Option.some.inj (hk.symm.trans ht.sock)
      subst hkk
      refine .inl ⟨g, a, _, hg, hp, hout ▸ ha, hreq, ⟨rest, ho⟩,
        ⟨hk, ht.opened, ht.megabytes, ?_⟩, _, head_requested ha, rfl⟩
      rw [outlook_requested, ht.outlook]
    · refine .inr ⟨fun g' _ h => hno ⟨by simp [ht.sock], h.1, by rw [hout]; exact h.2⟩, e'', _, hreq⟩
  · refine .inr ⟨fun g hg' => ?_, e', t, by rw [hr]⟩
    rw [show Net.grantOf self.megabytes net.connects net.outcomes = none from hg] at hg'
    cases hg'

/-- **What becomes of a chunk**, as `Outlook.chunk` says. -/
theorem requestWithReconnect_fate (hop : op ≠ opBorrow) (part : Part) (payload : Bytes)
    (hs : ∀ k, s.1.sock = some k → k < s.2.opened) :
    let m := requestWithReconnect op (s.1.baseOffset + part.pos) part.size payload
    (∃ k w a t, (outlook s).chunk s.1.megabytes part = (.answered, w) ∧ s.1.sock = some k ∧
      Completes m part k w s a t) ∨
    (∃ w a t, (outlook s).chunk s.1.megabytes part = (.repeated, w) ∧
      Completes m part s.2.opened w s a t) ∨
    (∃ w, (outlook s).chunk s.1.megabytes part = (.lost, w) ∧ Fails m part s) := by
  intro m
  have hrun : m.run s = _ := run_tryCatch _ _ s
  rcases request_fate hop (s.1.baseOffset + part.pos) part.size payload s
    with ⟨k, a, hk, hp, ha, hr⟩ | ⟨hno, e, net, hr, hc, hop', ho⟩
  · -- answered on the socket that is held
    obtain ⟨rest, ho⟩ := outcomes_of_reply hr
    rw [hr] at hrun
    have hchunk : (outlook s).chunk s.1.megabytes part =
        (if Outlook.accepts part s.2.outcomes then .answered else .lost,
          { outlook s with outcomes := s.2.outcomes.tail }) :=
      if_pos ⟨by simp [outlook, hk], hp, ha⟩
    rw [ho] at hchunk
    by_cases hacc : Outlook.accepts part (.answered a.1 a.2.1 a.2.2 :: rest) = true
    · rw [if_pos hacc] at hchunk
      refine .inl ⟨k, _, a, _, hchunk, hk, hrun, ⟨hk, hs k hk, rfl, ?_⟩,
        ⟨_, head_requested ha, rfl⟩, accepts_iff.mp hacc⟩
      rw [outlook_requested, ← ho]
      rfl
    · rw [if_neg hacc] at hchunk
      refine .inr (.inr ⟨_, hchunk, fun a' t' h => ?_⟩)
      obtain ⟨rfl, -⟩ := EStateM.Result.ok.inj (hrun.symm.trans h)
      rw [accepts_iff] at hacc
      exact Classical.not_imp.mp hacc
  · -- the first request fails
    rw [hr] at hrun
    have hafter : (outlook s).afterFirst part = net.outcomes := ho.symm
    have hc' : net.connects = (outlook s).connects := hc
    have hno' : ¬ ((outlook s).linked = true ∧ Net.Packs ((outlook s).base + part.pos) part.size ∧
        Net.answers (outlook s).outcomes = true) := hno
    have hchunk : (outlook s).chunk s.1.megabytes part =
        match Net.grantOf s.1.megabytes net.connects net.outcomes with
        | none => (.lost, outlook s)
        | some g =>
          if Net.Packs (s.1.baseOffset + part.pos) part.size ∧
              Outlook.accepts part net.outcomes.tail then
            (.repeated, ⟨true, g.base, net.connects.tail, net.outcomes.tail.tail⟩)
          else (.lost, outlook s) := by
      unfold Outlook.chunk
      rw [if_neg hno', hafter, hc']
      rfl
    rcases repeat_fate hop s.1 net e (s.1.baseOffset + part.pos) payload with
      ⟨g, a, t, hg, hp, ha, hrep, ⟨rest, hrest⟩, hholds, hlast⟩ | ⟨hnone, e', t, hrep⟩
    · rw [hg] at hchunk
      simp only at hchunk
      by_cases hacc : Outlook.accepts part net.outcomes.tail = true
      · rw [if_pos ⟨hp, hacc⟩] at hchunk
        rw [hrest] at hacc
        exact .inr (.inl ⟨_, a, t, hchunk, hrun.trans hrep, hop' ▸ hholds, hop' ▸ hlast,
          accepts_iff.mp hacc⟩)
      · rw [if_neg fun h => hacc h.2] at hchunk
        refine .inr (.inr ⟨_, hchunk, fun a' t' h => ?_⟩)
        obtain ⟨rfl, -⟩ := EStateM.Result.ok.inj ((hrun.trans hrep).symm.trans h)
        rw [hrest, accepts_iff] at hacc
        exact Classical.not_imp.mp hacc
    · have hlost : (outlook s).chunk s.1.megabytes part = (.lost, outlook s) := by
        rw [hchunk]
        cases hg : Net.grantOf s.1.megabytes net.connects net.outcomes with
        | none => rfl
        | some g =>
          refine if_neg fun h => hnone g hg ⟨h.1, ?_⟩
          cases ha : Net.answers net.outcomes.tail with
          | true => rfl
          | false => exact absurd h.2 (by rw [not_answers_of ha]; decide)
      refine .inr (.inr ⟨_, hlost, fun a' t' h => ?_⟩)
      have := (hrun.trans hrep).symm.trans h
      cases this

end Chunk

/-! ## The chunks of a call -/

/-- The chunk went through on socket `k`. -/
structure Through (m : ServiceM β) (k : Nat) (w : Outlook) (s : RemoteMemory × Net) (b : β)
    (t : RemoteMemory × Net) : Prop where
  run : m.run s = .ok b t
  holds : Holds s.1.megabytes k w t
  last : ∃ r, t.2.sent.head? = some r ∧ r.sock = k

/-- A loop's body goes through or raises as the fate of its chunk says. -/
def Follows (f : β → Int → ServiceM β) (part : Int → Part) : Prop :=
  ∀ b pos s, (∀ k, s.1.sock = some k → k < s.2.opened) →
    (∃ k w b' t, (outlook s).chunk s.1.megabytes (part pos) = (.answered, w) ∧ s.1.sock = some k ∧
      Through (f b pos) k w s b' t) ∨
    (∃ w b' t, (outlook s).chunk s.1.megabytes (part pos) = (.repeated, w) ∧
      Through (f b pos) s.2.opened w s b' t) ∨
    (∃ w e t, (outlook s).chunk s.1.megabytes (part pos) = (.lost, w) ∧ (f b pos).run s = .error e t)

theorem readChunk_follows (offset length : Int) :
    Follows (readChunk offset length)
      (fun pos => ⟨pos, min maxTransfer (offset + length - pos), true⟩) := by
  intro output pos s hs
  let n := min maxTransfer (offset + length - pos)
  have hrun : (readChunk offset length output pos).run s =
      match (requestWithReconnect opRead (s.1.baseOffset + pos) n []).run s with
      | .ok a t => if (a.2.2.length : Int) ≠ n then .error (.osError "Short remote read") t
          else .ok (output ++ a.2.2) t
      | .error e t => .error e t := by
    show ((requestWithReconnect opRead (s.1.baseOffset + pos) n [] >>= fun a => do
      raiseIf ((a.2.2.length : Int) ≠ n) (.osError "Short remote read")
      return output ++ a.2.2 : ServiceM Bytes)).run s = _
    rw [EStateM.run_bind]
    cases (requestWithReconnect opRead (s.1.baseOffset + pos) n []).run s with
    | error e t => rfl
    | ok a t =>
      simp only [EStateM.run_bind, run_raiseIf]
      by_cases hl : (a.2.2.length : Int) ≠ n
      · simp only [if_pos hl]
      · simp only [if_neg hl, EStateM.run_pure]
  rcases requestWithReconnect_fate (by decide : opRead ≠ opBorrow) ⟨pos, n, true⟩ [] hs with
    ⟨k, w, a, t, hc, hk, h⟩ | ⟨w, a, t, hc, h⟩ | ⟨w, hc, hfail⟩
  · rw [h.run] at hrun
    exact .inl ⟨k, w, _, t, hc, hk, hrun.trans (if_neg (not_not.mpr (h.exact_ rfl))), h.holds, h.last⟩
  · rw [h.run] at hrun
    exact .inr (.inl ⟨w, _, t, hc, hrun.trans (if_neg (not_not.mpr (h.exact_ rfl))), h.holds, h.last⟩)
  · refine .inr (.inr ⟨w, ?_⟩)
    cases hm : (requestWithReconnect opRead (s.1.baseOffset + pos) n []).run s with
    | error e t =>
      rw [hm] at hrun
      exact ⟨e, t, hc, hrun⟩
    | ok a t =>
      rw [hm] at hrun
      exact ⟨_, t, hc, hrun.trans (if_pos (hfail a t hm).2)⟩

theorem writeChunk_follows (offset : Int) (data : Bytes) :
    Follows (fun (_ : Unit) pos => writeChunk offset data pos)
      (fun pos => ⟨offset + pos, min maxTransfer (data.length - pos), false⟩) := by
  intro u pos s hs
  let n := min maxTransfer (data.length - pos)
  have hrun : (writeChunk offset data pos).run s =
      match (requestWithReconnect opWrite (s.1.baseOffset + (offset + pos)) n
        (slice data pos (pos + n))).run s with
      | .ok _ t => .ok () t
      | .error e t => .error e t := by
    show ((requestWithReconnect opWrite (s.1.baseOffset + offset + pos) n (slice data pos (pos + n))
      >>= fun _ => pure () : ServiceM Unit)).run s = _
    rw [EStateM.run_bind, Int.add_assoc]
    cases (requestWithReconnect opWrite (s.1.baseOffset + (offset + pos)) n
      (slice data pos (pos + n))).run s <;> rfl
  rcases requestWithReconnect_fate (by decide : opWrite ≠ opBorrow) ⟨offset + pos, n, false⟩
    (slice data pos (pos + n)) hs with
    ⟨k, w, a, t, hc, hk, h⟩ | ⟨w, a, t, hc, h⟩ | ⟨w, hc, hfail⟩
  · rw [h.run] at hrun
    exact .inl ⟨k, w, (), t, hc, hk, hrun, h.holds, h.last⟩
  · rw [h.run] at hrun
    exact .inr (.inl ⟨w, (), t, hc, hrun, h.holds, h.last⟩)
  · refine .inr (.inr ⟨w, ?_⟩)
    cases hm : (requestWithReconnect opWrite (s.1.baseOffset + (offset + pos)) n
      (slice data pos (pos + n))).run s with
    | error e t =>
      rw [hm] at hrun
      exact ⟨e, t, hc, hrun⟩
    | ok a t => cases (hfail a t hm).1

section Loop

variable {f : β → Int → ServiceM β} {part : Int → Part} {s t : RemoteMemory × Net} {k : Nat} {w : Outlook}
  {b b' : β} {pos : Int}

theorem answered_cons (h : Through (f b pos) k w s b' t) (ps : List Int) :
    ∃ r, r.sock = k ∧ answered f (pos :: ps) b s = r :: answered f ps b' t := by
  obtain ⟨r, hr, hk⟩ := h.last
  refine ⟨r, hk, ?_⟩
  simp only [answered, h.run, hr, Option.toList_some, List.singleton_append]

theorem foldlM_cons (h : Through (f b pos) k w s b' t) (ps : List Int) :
    ((pos :: ps).foldlM f b).run s = (ps.foldlM f b').run t := by
  rw [List.foldlM_cons, EStateM.run_bind, h.run]

theorem fates_cons {fate : Fate} {parts : List Part} {m : ServiceM β}
    (hc : (outlook s).chunk s.1.megabytes (part pos) = (fate, w)) (hf : fate ≠ .lost)
    (h : Through m k w s b' t) :
    (outlook s).fates s.1.megabytes (part pos :: parts) =
      fate :: (outlook t).fates t.1.megabytes parts := by
  rw [h.holds.outlook, h.holds.megabytes]
  cases fate with
  | answered => simp only [Outlook.fates, hc]
  | repeated => simp only [Outlook.fates, hc]
  | lost => exact absurd rfl hf

/-- From a held socket on: the loop raises if a chunk is lost; otherwise all its chunks are answered on
that socket exactly if none is repeated. -/
theorem loop_fates (hf : Follows f part) (ps : List Int) : ∀ {b : β} {s : RemoteMemory × Net} {k : Nat},
    s.1.sock = some k → k < s.2.opened →
    (Fate.lost ∈ (outlook s).fates s.1.megabytes (ps.map part) ∧
      ∃ e t, (ps.foldlM f b).run s = .error e t) ∨
    (Fate.lost ∉ (outlook s).fates s.1.megabytes (ps.map part) ∧
      (∃ b' t, (ps.foldlM f b).run s = .ok b' t) ∧
      ((∀ r ∈ answered f ps b s, r.sock = k) ↔
        Fate.repeated ∉ (outlook s).fates s.1.megabytes (ps.map part))) := by
  induction ps with
  | nil =>
    intro b s k _ _
    exact .inr ⟨by simp [Outlook.fates], ⟨b, s, rfl⟩, by simp [answered, Outlook.fates]⟩
  | cons pos ps ih =>
    intro b s k hk hopen
    have hs : ∀ j, s.1.sock = some j → j < s.2.opened := by
      intro j hj
      rwa [← Option.some.inj (hk.symm.trans hj)]
    rw [List.map_cons]
    rcases hf b pos s hs with ⟨j, w, b', t, hc, hj, h⟩ | ⟨w, b', t, hc, h⟩ | ⟨w, e, t, hc, hr⟩
    · -- answered: the same socket is held
      obtain rfl : k = j := Option.some.inj (hk.symm.trans hj)
      obtain ⟨r, hrk, ha⟩ := answered_cons h ps
      rw [fates_cons hc (by decide) h, foldlM_cons h, ha]
      rcases ih h.holds.sock h.holds.opened with ⟨hl, hraise⟩ | ⟨hl, hok, hiff⟩
      · exact .inl ⟨List.mem_cons_of_mem _ hl, hraise⟩
      · refine .inr ⟨by simp [hl], hok, ?_⟩
        simp [hrk, hiff]
    · -- repeated: a new socket is held
      obtain ⟨r, hrk, ha⟩ := answered_cons h ps
      rw [fates_cons hc (by decide) h, foldlM_cons h, ha]
      rcases ih (b := b') h.holds.sock h.holds.opened with ⟨hl, hraise⟩ | ⟨hl, hok, -⟩
      · exact .inl ⟨List.mem_cons_of_mem _ hl, hraise⟩
      · refine .inr ⟨by simp [hl], hok, ?_⟩
        have hne : r.sock ≠ k := by omega
        simp [hne]
    · refine .inl ⟨by simp [Outlook.fates, hc], e, t, ?_⟩
      rw [List.foldlM_cons, EStateM.run_bind, hr]

/-- The chunks after the first one, whichever way that one went through. -/
theorem oneSocket_cons (hf : Follows f part) {fate : Fate}
    (hc : (outlook s).chunk s.1.megabytes (part pos) = (fate, w)) (hne : fate ≠ .lost)
    (h : Through (f b pos) k w s b' t) (ps : List Int) :
    ((∃ c u, ((pos :: ps).foldlM f b).run s = .ok c u) →
      ∀ r ∈ answered f (pos :: ps) b s, ∀ r' ∈ answered f (pos :: ps) b s, r.sock = r'.sock) ↔
    (Fate.lost ∈ (outlook s).fates s.1.megabytes (part pos :: ps.map part) ∨
      Fate.repeated ∉ ((outlook s).fates s.1.megabytes (part pos :: ps.map part)).tail) := by
  obtain ⟨r, hrk, ha⟩ := answered_cons h ps
  rw [fates_cons hc hne h, foldlM_cons h, ha, List.tail_cons]
  rcases loop_fates (b := b') hf ps h.holds.sock h.holds.opened with ⟨hl, e, u, hr⟩ | ⟨hl, hok, hiff⟩
  · refine iff_of_true ?_ (.inl (List.mem_cons_of_mem _ hl))
    rintro ⟨c, v, hv⟩
    rw [hr] at hv
    cases hv
  · constructor
    · intro hone
      refine .inr (hiff.mp fun r' hr' => ?_)
      have := hone hok r' (List.mem_cons_of_mem _ hr') r (List.mem_cons_self ..)
      rw [this, hrk]
    · rintro (hlost | hnone) _
      · rcases List.mem_cons.mp hlost with h0 | h0
        · exact absurd h0.symm hne
        · exact absurd h0 hl
      · have hall : ∀ x ∈ r :: answered f ps b' t, x.sock = k := by
          intro x hx
          rcases List.mem_cons.mp hx with rfl | hx
          · exact hrk
          · exact hiff.mpr hnone x hx
        intro x hx y hy
        rw [hall x hx, hall y hy]

/-- A call that starts with any socket or none. -/
theorem loop_oneSocket (hf : Follows f part) (ps : List Int) (b : β) (s : RemoteMemory × Net)
    (hs : ∀ k, s.1.sock = some k → k < s.2.opened) :
    ((∃ b' t, (ps.foldlM f b).run s = .ok b' t) →
      ∀ r ∈ answered f ps b s, ∀ r' ∈ answered f ps b s, r.sock = r'.sock) ↔
    (Fate.lost ∈ (outlook s).fates s.1.megabytes (ps.map part) ∨
      Fate.repeated ∉ ((outlook s).fates s.1.megabytes (ps.map part)).tail) := by
  cases ps with
  | nil => simp [answered, Outlook.fates]
  | cons pos ps =>
    rcases hf b pos s hs with ⟨k, w, b', t, hc, -, h⟩ | ⟨w, b', t, hc, h⟩ | ⟨w, e, t, hc, hr⟩
    · exact oneSocket_cons hf hc (by decide) h ps
    · exact oneSocket_cons hf hc (by decide) h ps
    · refine iff_of_true ?_ (.inl (by simp [Outlook.fates, hc]))
      rintro ⟨c, v, hv⟩
      rw [List.foldlM_cons, EStateM.run_bind, hr] at hv
      cases hv

end Loop

/-! ## Calls -/

theorem read_inRange {offset length : Int} {s : RemoteMemory × Net}
    (hr : (Transfer.read offset length).InRange s.1) :
    (read offset length).run s =
      ((range offset (offset + length) maxTransfer).foldlM (readChunk offset length) []).run s := by
  obtain ⟨h1, h2, h3⟩ := hr
  have hno : ¬ (offset < 0 ∨ length < 0 ∨ (s.1.length : Int) < offset + length) := by omega
  show (raiseIf (offset < 0 ∨ length < 0 ∨ (s.1.length : Int) < offset + length)
    (Exc.valueError "Read outside borrowed region") >>= fun _ =>
      (range offset (offset + length) maxTransfer).foldlM (readChunk offset length) []).run s = _
  rw [EStateM.run_bind, run_raiseIf, if_neg hno]

/-- The `while` loop of `write` runs over the positions of `range(0, len(data), MAX_TRANSFER)`. -/
theorem writeLoop_eq (offset : Int) (data : Bytes) (fuel : Nat) : ∀ pos : Int,
    writeLoop offset data fuel pos = (rangeFrom data.length maxTransfer fuel pos).foldlM
      (fun (_ : Unit) pos => writeChunk offset data pos) () := by
  induction fuel with
  | zero =>
    intro pos
    rfl
  | succ fuel ih =>
    intro pos
    by_cases hlt : pos < data.length
    · have hnext : writeLoop offset data fuel (pos + min maxTransfer (data.length - pos)) =
          (rangeFrom data.length maxTransfer fuel (pos + maxTransfer)).foldlM
            (fun (_ : Unit) pos => writeChunk offset data pos) () := by
        by_cases hfull : maxTransfer ≤ data.length - pos
        · rw [Int.min_eq_left hfull, ih]
        · -- the last chunk ends the loop
          rw [Int.min_eq_right (by omega), ih, rangeFrom_nil (by omega), rangeFrom_nil (by omega)]
      have hrange : rangeFrom data.length maxTransfer (fuel + 1) pos =
          pos :: rangeFrom data.length maxTransfer fuel (pos + maxTransfer) := if_pos hlt
      have hrest : (fun u : Unit => (rangeFrom data.length maxTransfer fuel (pos + maxTransfer)).foldlM
            (fun (_ : Unit) pos => writeChunk offset data pos) u) =
          fun _ => writeLoop offset data fuel (pos + min maxTransfer (data.length - pos)) := by
        funext u
        exact hnext.symm
      rw [hrange, List.foldlM_cons, hrest, writeLoop, if_pos hlt]
      simp only [writeChunk, bind_assoc, pure_bind]
    · have hrange : rangeFrom data.length maxTransfer (fuel + 1) pos = [] := if_neg hlt
      rw [hrange, writeLoop, if_neg hlt]
      rfl

theorem write_inRange {offset : Int} {data : Bytes} {s : RemoteMemory × Net}
    (hr : (Transfer.write offset data).InRange s.1) :
    (write offset data).run s = ((range 0 data.length maxTransfer).foldlM
      (fun (_ : Unit) pos => writeChunk offset data pos) ()).run s := by
  obtain ⟨h1, h2⟩ := hr
  have hno : ¬ (offset < 0 ∨ (s.1.length : Int) < offset + data.length) := by omega
  have hfuel : ((data.length : Int) - 0).toNat = data.length := by omega
  show (raiseIf (offset < 0 ∨ (s.1.length : Int) < offset + data.length)
    (Exc.valueError "Write outside borrowed region") >>= fun _ =>
      writeLoop offset data data.length 0).run s = _
  rw [EStateM.run_bind, run_raiseIf, if_neg hno, writeLoop_eq, range, hfuel]

theorem read_oneLease {s : RemoteMemory × Net} (hs : ∀ k, s.1.sock = some k → k < s.2.opened)
    {offset length : Int} (hx : (Transfer.read offset length).InRange s.1) :
    (Transfer.read offset length).OneLease s ↔ (Fate.lost ∈ (Transfer.read offset length).fates s ∨
      Fate.repeated ∉ ((Transfer.read offset length).fates s).tail) := by
  have hret : (Transfer.read offset length).Returns s ↔ ∃ out t,
      ((range offset (offset + length) maxTransfer).foldlM (readChunk offset length) []).run s =
        .ok out t := by
    rw [← read_inRange hx]
    rfl
  unfold Transfer.OneLease
  rw [hret]
  exact loop_oneSocket (readChunk_follows offset length) _ [] s hs

theorem write_oneLease {s : RemoteMemory × Net} (hs : ∀ k, s.1.sock = some k → k < s.2.opened)
    {offset : Int} {data : Bytes} (hx : (Transfer.write offset data).InRange s.1) :
    (Transfer.write offset data).OneLease s ↔ (Fate.lost ∈ (Transfer.write offset data).fates s ∨
      Fate.repeated ∉ ((Transfer.write offset data).fates s).tail) := by
  have hret : (Transfer.write offset data).Returns s ↔ ∃ (u : Unit) (t : RemoteMemory × Net),
      ((range 0 data.length maxTransfer).foldlM
        (fun (_ : Unit) pos => writeChunk offset data pos) ()).run s = .ok u t := by
    rw [← write_inRange hx]
    exact ⟨fun h => ⟨(), h⟩, fun ⟨_, h⟩ => h⟩
  unfold Transfer.OneLease
  rw [hret]
  exact loop_oneSocket (writeChunk_follows offset data) _ () s hs

/-- **A call mixes two leases exactly if it returns and a chunk after its first was repeated.** -/
theorem oneLease_iff {s : RemoteMemory × Net} (hs : ∀ k, s.1.sock = some k → k < s.2.opened)
    {x : Transfer} (hx : x.InRange s.1) :
    x.OneLease s ↔ (Fate.lost ∈ x.fates s ∨ Fate.repeated ∉ (x.fates s).tail) := by
  cases x with
  | read offset length => exact read_oneLease hs hx
  | write offset data => exact write_oneLease hs hx

/-- A client with 2 MiB at 0, whose connection is lost after a READ answered with `body`. -/
def lostAfterOne (body : Bytes) : RemoteMemory × Net :=
  (⟨2, some 0, 1, 0, 2097152, none, 0⟩,
    ⟨[], [.answered opRead 0 body, .raised (.osError "connection lost") true,
      .answered opBorrow 0 (toBE 8 2 ++ toBE 8 0 ++ toBE 8 2097152), .answered opRead 0 [0]],
      1, [], fun k => if k = 0 then some ⟨1, 0, 2097152⟩ else none⟩)

theorem lostAfterOne_opened (body : Bytes) :
    ∀ k, (lostAfterOne body).1.sock = some k → k < (lostAfterOne body).2.opened := by
  rintro k ⟨⟩
  exact Nat.zero_lt_one

theorem lostAfterOne_inRange (body : Bytes) :
    (Transfer.read 0 1048577).InRange (lostAfterOne body).1 := by
  simp [Transfer.InRange, lostAfterOne]

/-- The second chunk of a read of 1 MiB and one byte is repeated under a fresh lease. -/
theorem lostAfterOne_fates {body : Bytes} (hb : body.length = 1048576) :
    (Transfer.read 0 1048577).fates (lostAfterOne body) = [.answered, .repeated] := by
  have hparts : (Transfer.read 0 1048577).parts = [⟨0, 1048576, true⟩, ⟨1048576, 1, true⟩] := by
    rfl
  let w : Outlook := ⟨true, 0, [], (lostAfterOne body).2.outcomes.tail⟩
  have h1 : (outlook (lostAfterOne body)).chunk 2 ⟨0, 1048576, true⟩ = (.answered, w) := by
    simp [Outlook.chunk, outlook, lostAfterOne, Outlook.accepts, Net.Packs, Net.answers, w, hb]
  have h2 : (w.chunk 2 ⟨1048576, 1, true⟩).1 = .repeated := by
    simp [Outlook.chunk, Outlook.afterFirst, lostAfterOne, Outlook.accepts, Net.Packs, Net.answers, w,
      Net.grantOf, leaseReplySize]
  unfold Transfer.fates
  rw [hparts]
  show (outlook (lostAfterOne body)).fates 2 _ = _
  simp only [Outlook.fates, h1]
  rcases hc : w.chunk 2 ⟨1048576, 1, true⟩ with ⟨fate, w'⟩
  rw [hc] at h2
  simp only at h2
  rw [h2]

theorem oneLease_iff_lost :
    (Transfer.read 0 1048577).OneLease (lostAfterOne (List.replicate 1048576 7)) ↔
      (Fate.lost ∈ (Transfer.read 0 1048577).fates (lostAfterOne (List.replicate 1048576 7)) ∨
      Fate.repeated ∉
        ((Transfer.read 0 1048577).fates (lostAfterOne (List.replicate 1048576 7))).tail) :=
  oneLease_iff (lostAfterOne_opened _) (lostAfterOne_inRange _)

/-- A read whose bytes come from two leases. -/
theorem oneLease_fails : ¬ ∀ (s : RemoteMemory × Net), (∀ k, s.1.sock = some k → k < s.2.opened) →
    ∀ x : Transfer, x.InRange s.1 → x.OneLease s := by
  intro h
  have ha := h (lostAfterOne (List.replicate 1048576 7)) (lostAfterOne_opened _) (.read 0 1048577)
    (lostAfterOne_inRange _)
  rw [read_oneLease (lostAfterOne_opened _) (lostAfterOne_inRange _),
    lostAfterOne_fates List.length_replicate] at ha
  exact absurd ha (by decide)

end RemoteMemory

end RamLink
