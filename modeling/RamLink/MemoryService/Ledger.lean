import RamLink.MemoryService.OneLease

/-!
# RamLink.MemoryService.Ledger

Which runs of `RemoteMemory` keep every READ and WRITE inside the lease of the socket it is sent on.

`read` and `write` check their range once, against the lease recorded then, and a repeated request
keeps the address it had in the lost lease. The transfers that this leaves unchecked are the hazards
of a run.

* `Ledger.call` keeps the books of a call from the failures and the grants alone: what is recorded of
  the lease afterwards, and the hazards of the call. `call_goes` ties it to the code.
* `always_inside_iff`: a run stays inside its leases exactly if all its hazards are harmless.
-/

namespace RamLink

open Lib

/-- What the client has recorded of its lease, and what the network is going to do. -/
structure Ledger where
  megabytes : Int
  linked : Bool
  leaseId : Nat
  base : Nat
  length : Nat
  connects : List (Option Exc)
  outcomes : List Outcome

/-- A READ or WRITE that is sent under another lease than the one its range was checked against. -/
inductive Hazard where
  /-- A part of the lease at `lost`, requested again at the same address under the lease `fresh`. -/
  | repeated (part : Part) (lost : Nat) (fresh : Grant)
  /-- A later part of the same call, requested under a fresh lease of `length` bytes. -/
  | continued (part : Part) (length : Nat)

def Hazard.Harmless : Hazard → Prop
  | .repeated part lost fresh =>
    fresh.base ≤ lost + part.pos ∧ lost + part.pos + part.size ≤ fresh.base + fresh.length
  | .continued part length => part.pos + part.size ≤ length

instance : DecidablePred Hazard.Harmless := fun hazard =>
  match hazard with
  | .repeated _ _ _ => inferInstanceAs (Decidable (_ ∧ _))
  | .continued _ _ => inferInstanceAs (Decidable (_ ≤ _))

/-- What one part of a call comes to. -/
structure Turn where
  /-- The lease under which its request gets onto the wire a second time. -/
  again : Option Grant
  completed : Bool
  left : Ledger

namespace Ledger

/-- Before the first call. -/
def blank (megabytes : Int) (connects : List (Option Exc)) (outcomes : List Outcome) : Ledger :=
  ⟨megabytes, false, 0, 0, 0, connects, outcomes⟩

/-- One request, and whether it is answered. -/
def request (offset length : Int) (w : Ledger) : Bool × Ledger :=
  if w.linked ∧ Net.Packs offset length then
    (Net.answers w.outcomes, { w with outcomes := w.outcomes.tail })
  else (false, w)

def transmits (part : Part) (w : Ledger) : Bool :=
  w.linked ∧ Net.Packs (w.base + part.pos) part.size ∧ Net.transmits w.outcomes

/-- A connection and a BORROW on it. -/
def borrow (w : Ledger) : Option Grant × Ledger :=
  match Net.grantOf w.megabytes w.connects w.outcomes with
  | some g => (some g, ⟨w.megabytes, true, g.leaseId, g.base, g.length, w.connects.tail, w.outcomes.tail⟩)
  | none => (none, { w with
      connects := w.connects.tail
      outcomes :=
        if w.connects.headD none = none ∧ Net.Packs 0 (w.megabytes * 1024 * 1024) then w.outcomes.tail
        else w.outcomes })

/-- `_mark_disconnected`. -/
def lose (w : Ledger) : Ledger := { w with linked := false, leaseId := 0, base := 0 }

/-- One part of a call: its request, and the one that is sent in its place if it fails. -/
def turn (part : Part) (w : Ledger) : Turn :=
  let addr := w.base + part.pos
  match w.request addr part.size with
  | (true, w') => ⟨none, Outlook.accepts part w.outcomes, w'⟩
  | (false, w') =>
    match w'.lose.borrow with
    | (none, w'') => ⟨none, false, w''⟩
    | (some g, w'') =>
      ⟨if Net.Packs addr part.size ∧ Net.transmits w''.outcomes then some g else none,
        (w''.request addr part.size).1 && Outlook.accepts part w''.outcomes,
        (w''.request addr part.size).2⟩

/-- The hazards of one part of a call; `moved`: the lease is not the one the call's range was checked
against. -/
def partHazards (moved : Bool) (part : Part) (w : Ledger) : List Hazard :=
  (if moved && w.transmits part then [.continued part w.length] else []) ++
    (w.turn part).again.toList.map (.repeated part w.base)

/-- The parts of a call, up to the first that is not completed. -/
def parts : Bool → List Part → Ledger → List Hazard × Ledger
  | _, [], w => ([], w)
  | moved, part :: ps, w =>
    let turn := w.turn part
    if turn.completed then
      let (hazards, w') := parts (moved || turn.again.isSome) ps turn.left
      (w.partHazards moved part ++ hazards, w')
    else (w.partHazards moved part, turn.left)

def keepalive (w : Ledger) : Ledger :=
  if w.linked = false ∨ w.leaseId = 0 then w
  else
    match w.request w.leaseId 0 with
    | (true, w') => w'
    | (false, w') => w'.lose

/-- It keeps what is recorded of the range. -/
def release (w : Ledger) : Ledger :=
  let w' := if w.linked ∧ w.leaseId ≠ 0 then (w.request w.leaseId 0).2 else w
  { w' with linked := false, leaseId := 0 }

open RemoteMemory in
/-- One call: its hazards, and the ledger after it. -/
def call (w : Ledger) : Call → List Hazard × Ledger
  | .connectAndBorrow => ([], w.borrow.2)
  | .keepalive => ([], w.keepalive)
  | .read offset length =>
    if offset < 0 ∨ length < 0 ∨ w.length < offset + length then ([], w)
    else w.parts false (Transfer.read offset length).parts
  | .write offset data =>
    if offset < 0 ∨ w.length < offset + data.length then ([], w)
    else w.parts false (Transfer.write offset data).parts
  | .release => ([], w.release)

/-- The hazards of a run. -/
def hazards (w : Ledger) (calls : List RemoteMemory.Call) : List Hazard := tally call w calls

/-! ## The books -/

variable {w w' : Ledger} {part : Part} {g : Grant} {offset n : Int}

theorem borrow_some (h : w.borrow = (some g, w')) :
    w'.linked = true ∧ w'.base = g.base ∧ w'.length = g.length := by
  unfold borrow at h
  cases hg : Net.grantOf w.megabytes w.connects w.outcomes with
  | none => rw [hg] at h; cases h
  | some g' => rw [hg] at h; cases h; exact ⟨rfl, rfl, rfl⟩

theorem request_true (h : w.request offset n = (true, w')) :
    w.linked = true ∧ Net.Packs offset n ∧ Net.answers w.outcomes = true ∧
      w' = { w with outcomes := w.outcomes.tail } := by
  unfold request at h
  split at h
  · rename_i hc
    obtain ⟨ha, hw⟩ := Prod.mk.inj h
    exact ⟨hc.1, hc.2, ha, hw.symm⟩
  · cases h

theorem turn_answered (h : w.request (w.base + part.pos) part.size = (true, w')) :
    w.turn part = ⟨none, Outlook.accepts part w.outcomes, w'⟩ := by
  unfold turn
  simp only [h]

theorem turn_lost {w'' : Ledger} (h : w.request (w.base + part.pos) part.size = (false, w'))
    (hb : w'.lose.borrow = (none, w'')) : w.turn part = ⟨none, false, w''⟩ := by
  unfold turn
  simp only [h, hb]

theorem turn_again {w'' : Ledger} (h : w.request (w.base + part.pos) part.size = (false, w'))
    (hb : w'.lose.borrow = (some g, w'')) :
    w.turn part = ⟨
      if Net.Packs (w.base + part.pos) part.size ∧ Net.transmits w''.outcomes then some g else none,
      (w''.request (w.base + part.pos) part.size).1 && Outlook.accepts part w''.outcomes,
      (w''.request (w.base + part.pos) part.size).2⟩ := by
  unfold turn
  simp only [h, hb]

theorem transmits_of_answers {outcomes : List Outcome} (h : Net.answers outcomes = true) :
    Net.transmits outcomes = true := by
  rcases outcomes with _ | ⟨_ | ⟨e, transmitted⟩, rest⟩
  · rfl
  · rfl
  · cases h

/-- A part that is completed without a repeated request leaves the lease as it was. -/
theorem turn_length (hc : (w.turn part).completed = true) (ha : (w.turn part).again = none) :
    (w.turn part).left.length = w.length := by
  rcases hr : w.request (w.base + part.pos) part.size with ⟨_ | _, w'⟩
  · -- a part that is completed after all was repeated
    rcases hb : w'.lose.borrow with ⟨_ | g, w''⟩
    · rw [turn_lost hr hb] at hc
      cases hc
    · rw [turn_again hr hb, Bool.and_eq_true] at hc
      obtain ⟨-, hp, hans, -⟩ := request_true (Prod.ext hc.1 rfl : _ = (true, _))
      rw [turn_again hr hb, if_pos ⟨hp, transmits_of_answers hans⟩] at ha
      cases ha
  · obtain ⟨-, -, -, rfl⟩ := request_true hr
    rw [turn_answered hr]

end Ledger

namespace RemoteMemory

def ledger (s : RemoteMemory × Net) : Ledger :=
  ⟨s.1.megabytes, s.1.sock.isSome, s.1.leaseId, s.1.baseOffset, s.1.length, s.2.connects, s.2.outcomes⟩

variable {s t : RemoteMemory × Net}

/-! ## Requests -/

theorem request_ledger {op : Nat} (hop : op ≠ opBorrow) (offset n : Int) (payload : Bytes)
    (s : RemoteMemory × Net) :
    (∃ a t, (request op offset n payload).run s = .ok a t ∧
      (ledger s).request offset n = (true, ledger t)) ∨
    (∃ e t, (request op offset n payload).run s = .error e t ∧
      (ledger s).request offset n = (false, ledger t)) := by
  rcases request_cases hop offset n payload s with ⟨hno, e, hr⟩ | ⟨k, hk, hp, ⟨ha, a, hr⟩ | ⟨ha, e, hr⟩⟩
  · refine .inr ⟨e, s, hr, if_neg ?_⟩
    rintro ⟨hl, hp⟩
    rcases hno with h | h
    · simp [ledger, h] at hl
    · exact h hp
  · refine .inl ⟨a, _, hr, ?_⟩
    unfold Ledger.request
    rw [if_pos ⟨by simp [ledger, hk], hp⟩]
    exact Prod.ext ha rfl
  · refine .inr ⟨e, _, hr, ?_⟩
    unfold Ledger.request
    rw [if_pos ⟨by simp [ledger, hk], hp⟩]
    exact Prod.ext ha rfl

theorem request_left {op : Nat} (hop : op ≠ opBorrow) (offset n : Int) (payload : Bytes)
    (s : RemoteMemory × Net) :
    ledger (finalState (request op offset n payload) s) = ((ledger s).request offset n).2 := by
  rcases request_ledger hop offset n payload s with ⟨a, t, hr, hw⟩ | ⟨e, t, hr, hw⟩
  · rw [finalState_of_ok hr, hw]
  · rw [finalState_of_error hr, hw]

/-- The reply, if there is one, is accepted. -/
theorem request_accepted {op : Nat} (hop : op ≠ opBorrow) (part : Part) (offset n : Int) (payload : Bytes)
    (s : RemoteMemory × Net) :
    (((ledger s).request offset n).1 && Outlook.accepts part (ledger s).outcomes) = true ↔
      ∃ a t, (request op offset n payload).run s = .ok a t ∧
        (part.exact = true → (a.2.2.length : Int) = part.size) := by
  rcases request_ledger hop offset n payload s with ⟨a, t, hr, hw⟩ | ⟨e, t, hr, hw⟩
  · obtain ⟨rest, ho⟩ := outcomes_of_reply hr
    have hout : (ledger s).outcomes = .answered a.1 a.2.1 a.2.2 :: rest := ho
    rw [hr, hw, hout, Bool.true_and, accepts_iff]
    constructor
    · intro h
      exact ⟨a, t, rfl, h⟩
    · rintro ⟨a', t', h, hacc⟩
      cases h
      exact hacc
  · rw [hr, hw]
    simp

/-- `connectAndBorrow` and `reconnect`: what the client records of a lease is `f`. -/
theorem borrow_goes {f : RemoteMemory → Nat → Grant → RemoteMemory}
    (hrec : ∀ self k g net, (f self k g).sock = some k ∧ ledger (f self k g, net) =
      ⟨self.megabytes, true, g.leaseId, g.base, g.length, net.connects, net.outcomes⟩) (hs : Held s) :
    let m : ServiceM Unit := do
      let (sock, g) ← borrowNewSocket
      onFst (modify fun self => f self sock g)
    (∃ g t, m.run s = .ok () t ∧ Goes s True t ∧ (ledger s).borrow = (some g, ledger t)) ∨
    (∃ e t, m.run s = .error e t ∧ Goes s True t ∧ (ledger s).borrow = (none, ledger t)) := by
  intro m
  obtain ⟨self, net⟩ := s
  obtain ⟨next, hsound, hc, ⟨g, hr, hg, hl, -, hout⟩ | ⟨e, hr, hg, hout⟩⟩ := run_borrowNewSocket self net
  all_goals obtain ⟨hext, hsound⟩ := hsound hs.sound
  · obtain ⟨hk, hledger⟩ := hrec self net.opened g next
    have hheld : Held (f self net.opened g, next) := by
      refine ⟨hsound, fun k hk' => ⟨g, ?_, congrArg Ledger.base hledger, congrArg Ledger.length hledger⟩⟩
      rw [← Option.some.inj (hk.symm.trans hk')]
      exact hl
    refine .inl ⟨g, (f self net.opened g, next), ?_, Goes.of_quiet hheld hext, ?_⟩
    · rw [EStateM.run_bind, hr]
      rfl
    · rw [hledger]
      unfold Ledger.borrow ledger
      simp only [hg, hc, hout]
  · refine .inr ⟨e, (self, next), ?_, Goes.of_quiet ⟨hsound, ?_⟩ hext, ?_⟩
    · rw [EStateM.run_bind, hr]
    · intro k hk
      obtain ⟨g, hg', h⟩ := hs.lease k hk
      exact ⟨g, (hext.leases k (hs.sound.leases k g hg')).trans hg', h⟩
    · unfold Ledger.borrow ledger
      simp only [hg, hc, hout]

theorem reconnect_goes (hs : Held s) :
    (∃ g t, reconnect.run s = .ok () t ∧ Goes s True t ∧ (ledger s).borrow = (some g, ledger t)) ∨
    (∃ e t, reconnect.run s = .error e t ∧ Goes s True t ∧ (ledger s).borrow = (none, ledger t)) :=
  borrow_goes (f := fun self k g => { self with
    sock := some k, leaseId := g.leaseId, baseOffset := g.base, length := g.length,
    reconnects := self.reconnects + 1, lastError := none })
    (fun _ _ _ _ => ⟨rfl, rfl⟩) hs

theorem markDisconnected_goes (hs : Held s) (e : Exc) :
    Goes s True ({ s.1 with sock := none, leaseId := 0, baseOffset := 0, lastError := some e }, s.2) := by
  refine Goes.of_quiet ⟨hs.sound, ?_⟩ (Net.Extends.refl s.2)
  intro k hk
  cases hk

/-- The handler of `requestWithReconnect`: without a fresh lease it raises, with one it goes on with
the request. -/
theorem handler_goes {op : Nat} (hs : Held s) (addr n : Int) (payload : Bytes) (e : Exc) :
    let m : ServiceM (Nat × Nat × Bytes) := do markDisconnected e; reconnect; request op addr n payload
    (∃ e' t, m.run s = .error e' t ∧ Goes s True t ∧ (ledger s).lose.borrow = (none, ledger t)) ∨
    (∃ g t, m.run s = (request op addr n payload).run t ∧ Goes s True t ∧
      (ledger s).lose.borrow = (some g, ledger t)) := by
  intro m
  have hm := markDisconnected_goes hs e
  have hrun : m.run s = (do reconnect; request op addr n payload : ServiceM _).run
      ({ s.1 with sock := none, leaseId := 0, baseOffset := 0, lastError := some e }, s.2) := rfl
  rw [hrun, EStateM.run_bind]
  rcases reconnect_goes hm.held with ⟨g, t, hr, ht, hb⟩ | ⟨e', t, hr, ht, hb⟩
  · exact .inr ⟨g, t, by rw [hr], (hm.trans ht).congr (by simp), hb⟩
  · exact .inl ⟨e', t, by rw [hr], (hm.trans ht).congr (by simp), hb⟩

/-! ## One part of a call -/

/-- What the requests of a part need to stay inside their leases. -/
def Contained (part : Part) (w : Ledger) : Prop :=
  (w.transmits part = true → part.pos + part.size ≤ w.length) ∧
    ∀ g, (w.turn part).again = some g → (Hazard.repeated part w.base g).Harmless

/-- `m` does what the ledger says of `part`; it is completed by what `ok` accepts. -/
structure Turned {α : Type} (m : ServiceM α) (part : Part) (ok : α → Prop) (s : RemoteMemory × Net) :
    Prop where
  goes : Goes s (Contained part (ledger s)) (finalState m s)
  left : ledger (finalState m s) = ((ledger s).turn part).left
  completed : ((ledger s).turn part).completed = true ↔ ∃ a t, m.run s = .ok a t ∧ ok a

theorem attemptFits_iff {part : Part} (hpos : 0 ≤ part.pos) :
    AttemptFits (s.1.baseOffset + part.pos) part.size s ↔
      ((ledger s).transmits part = true → part.pos + part.size ≤ (ledger s).length) := by
  have hk : s.1.sock ≠ none ↔ s.1.sock.isSome = true := by cases s.1.sock <;> simp
  unfold AttemptFits Ledger.transmits ledger
  rw [hk]
  simp only [decide_eq_true_eq, and_imp]
  refine forall₃_congr fun _ _ _ => ?_
  constructor
  · rintro ⟨-, h⟩
    omega
  · intro h
    exact ⟨by omega, by omega⟩

/-- The repeated request, under the lease `g`. -/
theorem attemptFits_again {part : Part} {lost : Nat} {g : Grant} {w : Ledger}
    (hb : w.borrow = (some g, ledger t)) :
    AttemptFits (lost + part.pos) part.size t ↔
      (Net.Packs (lost + part.pos) part.size ∧ Net.transmits (ledger t).outcomes →
        (Hazard.repeated part lost g).Harmless) := by
  obtain ⟨hl, hbase, hlen⟩ := Ledger.borrow_some hb
  have hk : t.1.sock ≠ none := by
    intro h
    simp [ledger, h] at hl
  unfold AttemptFits Hazard.Harmless
  rw [show t.1.baseOffset = g.base from hbase, show t.1.length = g.length from hlen]
  exact ⟨fun h hp => h hk hp.1 hp.2, fun h _ hp hw => h ⟨hp, hw⟩⟩

theorem Turned.of_finalState {α : Type} {m : ServiceM α} {part : Part} {ok : α → Prop} (hf : finalState m s = t)
    (hgoes : Goes s (Contained part (ledger s)) t) (hleft : ledger t = ((ledger s).turn part).left)
    (hcompleted : ((ledger s).turn part).completed = true ↔ ∃ a t, m.run s = .ok a t ∧ ok a) :
    Turned m part ok s :=
  ⟨hf.symm ▸ hgoes, hf.symm ▸ hleft, hcompleted⟩

theorem requestWithReconnect_turned {op : Nat} (hop : op = opRead ∨ op = opWrite) (hs : Held s)
    (part : Part) (hpos : 0 ≤ part.pos) (payload : Bytes) :
    Turned (requestWithReconnect op (s.1.baseOffset + part.pos) part.size payload) part
      (fun a => part.exact = true → (a.2.2.length : Int) = part.size) s := by
  have hne : op ≠ opBorrow := by rcases hop with rfl | rfl <;> decide
  let addr : Int := s.1.baseOffset + part.pos
  let m := requestWithReconnect op addr part.size payload
  have hrun : m.run s = _ := run_tryCatch _ _ s
  have hfirst := (request_goes hop hs addr part.size payload).congr (attemptFits_iff hpos)
  have haccepted := request_accepted hne part addr part.size payload s
  rcases request_ledger hne addr part.size payload s with ⟨a, t, hr, hw⟩ | ⟨e, t, hr, hw⟩
  · -- answered at once
    rw [hr] at hrun
    rw [finalState_of_ok hr] at hfirst
    have hturn : (ledger s).turn part = _ := Ledger.turn_answered hw
    refine .of_finalState (finalState_of_ok hrun) (hfirst.congr ?_) (by rw [hturn]) ?_
    · unfold Contained
      rw [hturn]
      simp
    · rw [hw, Bool.true_and, hr] at haccepted
      rw [hturn, hrun]
      exact haccepted
  rw [hr] at hrun
  rw [finalState_of_error hr] at hfirst
  rcases handler_goes hfirst.held addr part.size payload e with
    ⟨e', u, hm, hu, hb⟩ | ⟨g, u, hm, hu, hb⟩
  · -- no fresh lease
    have hend := hrun.trans hm
    have hturn : (ledger s).turn part = _ := Ledger.turn_lost hw hb
    refine .of_finalState (finalState_of_error hend) ((hfirst.trans hu).congr ?_) (by rw [hturn]) ?_
    · unfold Contained
      rw [hturn]
      simp
    · rw [hturn, hend]
      simp
  · -- repeated under the lease `g`
    have hend := hrun.trans hm
    have hturn : (ledger s).turn part = _ := Ledger.turn_again hw hb
    have hsecond := (request_goes hop hu.held addr part.size payload).congr (attemptFits_again hb)
    have hfin : finalState m s = finalState (request op addr part.size payload) u := by
      unfold finalState
      rw [hend]
    refine .of_finalState hfin (((hfirst.trans hu).trans hsecond).congr ?_) ?_ ?_
    · unfold Contained
      rw [hturn, and_true]
      refine and_congr_right fun _ => ?_
      by_cases hgo : Net.Packs addr part.size ∧ Net.transmits (ledger u).outcomes
      · simp only [ledger, addr] at hgo ⊢
        simp [hgo]
      · simp only [ledger, addr] at hgo ⊢
        simp [hgo]
    · rw [hturn]
      exact request_left hne addr part.size payload u
    · rw [hturn, hend]
      exact request_accepted hne part addr part.size payload u

/-! ## The parts of a call -/

section Parts

variable {β : Type} {f : β → Int → ServiceM β} {part : Int → Part}

/-- The body of a loop does what the ledger says of its part. -/
def Tallies (f : β → Int → ServiceM β) (part : Int → Part) : Prop :=
  ∀ b pos s, Held s → 0 ≤ (part pos).pos → Turned (f b pos) (part pos) (fun _ => True) s

/-- The hazards of one part are all that its requests need. -/
theorem contained_iff {moved : Bool} {part : Part} {w : Ledger}
    (hin : moved = false → part.pos + part.size ≤ w.length) :
    Contained part w ↔ ∀ h ∈ w.partHazards moved part, h.Harmless := by
  unfold Contained Ledger.partHazards
  simp only [List.mem_append, or_imp, forall_and, List.mem_map, Option.mem_toList, forall_exists_index,
    and_imp, forall_apply_eq_imp_iff₂]
  refine and_congr ?_ Iff.rfl
  cases moved with
  | false => simp [hin rfl]
  | true => cases w.transmits part <;> simp [Hazard.Harmless]

theorem loop_goes (hf : Tallies f part) (ps : List Int) : ∀ {moved : Bool} {b : β} {s : RemoteMemory × Net},
    Held s → (∀ pos ∈ ps, 0 ≤ (part pos).pos) →
    (moved = false → ∀ pos ∈ ps, (part pos).pos + (part pos).size ≤ (ledger s).length) →
    Goes s (∀ h ∈ ((ledger s).parts moved (ps.map part)).1, h.Harmless) (finalState (ps.foldlM f b) s) ∧
      ledger (finalState (ps.foldlM f b) s) = ((ledger s).parts moved (ps.map part)).2 := by
  induction ps with
  | nil =>
    intro moved b s hs _ _
    exact ⟨(Goes.refl hs).congr (by simp [Ledger.parts]), rfl⟩
  | cons pos ps ih =>
    intro moved b s hs hpos hin
    have hturned := hf b pos s hs (hpos pos (List.mem_cons_self ..))
    have hgoes : Goes s (∀ h ∈ (ledger s).partHazards moved (part pos), h.Harmless)
        (finalState (f b pos) s) :=
      hturned.goes.congr (contained_iff fun hm => hin hm pos (List.mem_cons_self ..))
    have hleft := hturned.left
    rw [List.foldlM_cons, finalState_bind, List.map_cons]
    unfold Ledger.parts
    cases hr : (f b pos).run s with
    | error e t =>
      have hlost : ((ledger s).turn (part pos)).completed = false := by
        rw [Bool.eq_false_iff, Ne, hturned.completed, hr]
        simp
      rw [finalState_of_error hr] at hgoes hleft
      simp only [hlost]
      exact ⟨hgoes, hleft⟩
    | ok b' t =>
      have hdone : ((ledger s).turn (part pos)).completed = true :=
        hturned.completed.mpr ⟨b', t, hr, trivial⟩
      rw [finalState_of_ok hr] at hgoes hleft
      -- where the lease is still the one the range was checked against, it has kept its length
      have hin' : (moved || ((ledger s).turn (part pos)).again.isSome) = false →
          ∀ p ∈ ps, (part p).pos + (part p).size ≤ (ledger t).length := by
        intro hm p hp
        obtain ⟨hm, hagain⟩ := Bool.or_eq_false_iff.mp hm
        rw [hleft, Ledger.turn_length hdone (Option.not_isSome_iff_eq_none.mp (by simp [hagain]))]
        exact hin hm p (List.mem_cons_of_mem _ hp)
      obtain ⟨hrest, hend⟩ := ih (b := b') hgoes.held (fun p hp => hpos p (List.mem_cons_of_mem _ hp)) hin'
      rw [hleft] at hrest hend
      simp only [hdone, if_true]
      refine ⟨(hgoes.trans hrest).congr ?_, hend⟩
      simp only [List.mem_append, or_imp, forall_and]

end Parts

theorem readChunk_tallies (offset length : Int) :
    Tallies (readChunk offset length) (fun pos => ⟨pos, min maxTransfer (offset + length - pos), true⟩) := by
  intro output pos s hs hpos
  let n := min maxTransfer (offset + length - pos)
  have h := requestWithReconnect_turned (.inl rfl) hs ⟨pos, n, true⟩ hpos []
  let rest (a : Nat × Nat × Bytes) : ServiceM Bytes := do
    raiseIf ((a.2.2.length : Int) ≠ n) (Exc.osError "Short remote read")
    return output ++ a.2.2
  have hrest (a : Nat × Nat × Bytes) (t : RemoteMemory × Net) : (rest a).run t =
      if (a.2.2.length : Int) ≠ n then .error (.osError "Short remote read") t
      else .ok (output ++ a.2.2) t := by
    show (raiseIf _ _ >>= fun _ => pure (output ++ a.2.2) : ServiceM Bytes).run t = _
    rw [EStateM.run_bind, run_raiseIf]
    by_cases hb : (a.2.2.length : Int) ≠ n
    · simp only [if_pos hb]
    · simp only [if_neg hb, EStateM.run_pure]
  have hfin : finalState (readChunk offset length output pos) s =
      finalState (requestWithReconnect opRead (s.1.baseOffset + pos) n []) s := by
    refine finalState_bind_pure (f := rest) _ (fun a t => ?_) s
    by_cases hb : (a.2.2.length : Int) ≠ n
    · exact finalState_of_error ((hrest a t).trans (if_pos hb))
    · exact finalState_of_ok ((hrest a t).trans (if_neg hb))
  refine .of_finalState hfin h.goes h.left (h.completed.trans ?_)
  show _ ↔ ∃ out t, (requestWithReconnect opRead (s.1.baseOffset + pos) n [] >>= rest).run s = .ok out t ∧ _
  simp only [run_bind_ok, hrest]
  constructor
  · rintro ⟨a, t, hr, hok⟩
    exact ⟨_, t, ⟨a, t, hr, if_neg (not_not.mpr (hok trivial))⟩, trivial⟩
  · rintro ⟨out, t, ⟨a, u, hr, ha⟩, -⟩
    refine ⟨a, u, hr, fun _ => ?_⟩
    by_contra hb
    rw [if_pos hb] at ha
    cases ha

theorem writeChunk_tallies (offset : Int) (data : Bytes) :
    Tallies (fun (_ : Unit) pos => writeChunk offset data pos)
      (fun pos => ⟨offset + pos, min maxTransfer (data.length - pos), false⟩) := by
  intro _ pos s hs hpos
  let n := min maxTransfer (data.length - pos)
  have h := requestWithReconnect_turned (.inr rfl) hs ⟨offset + pos, n, false⟩ hpos
    (slice data pos (pos + n))
  rw [← Int.add_assoc] at h
  have hfin : finalState (writeChunk offset data pos) s = finalState (requestWithReconnect opWrite
      (s.1.baseOffset + offset + pos) n (slice data pos (pos + n))) s :=
    finalState_bind_pure (requestWithReconnect opWrite (s.1.baseOffset + offset + pos) n
      (slice data pos (pos + n))) (f := fun _ => pure ()) (fun _ _ => rfl) s
  refine .of_finalState hfin h.goes h.left (h.completed.trans ?_)
  show _ ↔ ∃ u t, (requestWithReconnect opWrite (s.1.baseOffset + offset + pos) n
    (slice data pos (pos + n)) >>= fun _ => pure () : ServiceM Unit).run s = .ok u t ∧ _
  simp only [run_bind_ok]
  constructor
  · rintro ⟨a, t, hr, -⟩
    exact ⟨(), t, ⟨a, t, hr, rfl⟩, trivial⟩
  · rintro ⟨_, t, ⟨a, u, hr, ht⟩, -⟩
    exact ⟨a, u, hr, fun h => by cases h⟩

/-! ## Calls -/

theorem keepalive_goes (hs : Held s) : Goes s True (finalState keepalive s) ∧
    ledger (finalState keepalive s) = (ledger s).keepalive := by
  have hoff : (s.1.sock = none ∨ s.1.leaseId = 0) ↔ ((ledger s).linked = false ∨ (ledger s).leaseId = 0) := by
    simp [ledger]
  unfold keepalive
  rw [finalState_bind]
  show Goes s True (finalState (if s.1.sock = none ∨ s.1.leaseId = 0 then pure () else _) s) ∧
    ledger (finalState (if s.1.sock = none ∨ s.1.leaseId = 0 then pure () else _) s) = _
  unfold Ledger.keepalive
  by_cases h : s.1.sock = none ∨ s.1.leaseId = 0
  · simp only [if_pos h, if_pos (hoff.mp h)]
    exact ⟨Goes.refl hs, rfl⟩
  · have hquiet := quiet_goes (.inl rfl) hs s.1.leaseId 0 []
    simp only [if_neg h, if_neg (mt hoff.mpr h)]
    rw [finalState_tryCatch, EStateM.run_bind]
    rcases request_ledger (by decide : opKeepalive ≠ opBorrow) s.1.leaseId 0 [] s with
      ⟨a, t, hr, hw⟩ | ⟨e, t, hr, hw⟩
    · rw [finalState_of_ok hr] at hquiet
      rw [hr, show (ledger s).request (ledger s).leaseId 0 = _ from hw]
      exact ⟨⟨⟨hquiet.held.sound, hquiet.held.lease⟩, hquiet.sent⟩, rfl⟩
    · rw [finalState_of_error hr] at hquiet
      rw [hr, show (ledger s).request (ledger s).leaseId 0 = _ from hw]
      exact ⟨(hquiet.trans (markDisconnected_goes hquiet.held e)).congr (by simp), rfl⟩

theorem release_goes (hs : Held s) : Goes s True (finalState release s) ∧
    ledger (finalState release s) = (ledger s).release := by
  let self' : RemoteMemory := { s.1 with sock := none, leaseId := 0 }
  let m : EStateM Exc Net (Nat × Nat × Bytes) := Net.request s.1.sock opRelease s.1.leaseId 0 []
  have hnone (net : Net) (h : net.Sound) : Held (self', net) := ⟨h, fun k hk => by cases hk⟩
  have hon : (s.1.sock ≠ none ∧ s.1.leaseId ≠ 0) ↔ ((ledger s).linked = true ∧ (ledger s).leaseId ≠ 0) := by
    simp [ledger, Option.isSome_iff_ne_none]
  unfold release
  rw [finalState_bind]
  show Goes s True (finalState (if s.1.sock ≠ none ∧ s.1.leaseId ≠ 0 then
    tryCatch (do let _ ← onSnd m) fun _ => return else pure ()) (self', s.2)) ∧
    ledger (finalState (if s.1.sock ≠ none ∧ s.1.leaseId ≠ 0 then
      tryCatch (do let _ ← onSnd m) fun _ => return else pure ()) (self', s.2)) = _
  unfold Ledger.release
  by_cases h : s.1.sock ≠ none ∧ s.1.leaseId ≠ 0
  · have hquiet := quiet_goes (.inr rfl) hs s.1.leaseId 0 []
    have hleft := request_left (by decide : opRelease ≠ opBorrow) s.1.leaseId 0 [] s
    have hreq : finalState (request opRelease s.1.leaseId 0 []) s = (s.1, finalState m s.2) := by
      show finalState (onSnd m) s = _
      unfold finalState
      rw [run_onSnd]
      cases m.run s.2 <;> rfl
    have hfin : finalState (tryCatch (do let _ ← onSnd m) fun _ => return : ServiceM Unit) (self', s.2) =
        (self', finalState m s.2) := by
      rw [finalState_tryCatch, EStateM.run_bind, run_onSnd]
      unfold finalState
      cases m.run s.2 <;> rfl
    rw [hreq] at hquiet hleft
    simp only [if_pos h, if_pos (hon.mp h), hfin]
    refine ⟨⟨hnone _ hquiet.held.sound, hquiet.sent⟩, ?_⟩
    rw [show (ledger s).request (ledger s).leaseId 0 = (ledger s).request s.1.leaseId 0 from rfl, ← hleft]
    rfl
  · simp only [if_neg h, if_neg (mt hon.mpr h)]
    exact ⟨Goes.of_quiet (hnone s.2 hs.sound) (Net.Extends.refl s.2), rfl⟩

theorem connectAndBorrow_goes (hs : Held s) : Goes s True (finalState connectAndBorrow s) ∧
    ledger (finalState connectAndBorrow s) = (ledger s).borrow.2 := by
  have h := borrow_goes (f := fun self k g => { self with
    sock := some k, leaseId := g.leaseId, baseOffset := g.base, length := g.length, lastError := none })
    (fun _ _ _ _ => ⟨rfl, rfl⟩) hs
  rcases h with ⟨g, t, hr, ht, hb⟩ | ⟨e, t, hr, ht, hb⟩
  · rw [finalState_of_ok (show connectAndBorrow.run s = .ok () t from hr), hb]
    exact ⟨ht, rfl⟩
  · rw [finalState_of_error (show connectAndBorrow.run s = .error e t from hr), hb]
    exact ⟨ht, rfl⟩

theorem read_goes (hs : Held s) (offset length : Int) :
    Goes s (∀ h ∈ ((ledger s).call (.read offset length)).1, h.Harmless) (finalState (read offset length) s) ∧
      ledger (finalState (read offset length) s) = ((ledger s).call (.read offset length)).2 := by
  unfold Ledger.call
  by_cases hbad : offset < 0 ∨ length < 0 ∨ (s.1.length : Int) < offset + length
  · have hrun : finalState (read offset length) s = s := by
      unfold read
      rw [finalState_bind]
      show finalState (raiseIf (offset < 0 ∨ length < 0 ∨ (s.1.length : Int) < offset + length) _ >>= _) s = s
      rw [finalState_bind, run_raiseIf, if_pos hbad]
    rw [hrun]
    simp only [if_pos (show offset < 0 ∨ length < 0 ∨ ((ledger s).length : Int) < offset + length from hbad)]
    exact ⟨(Goes.refl hs).congr (by simp), trivial⟩
  · have hin : (Transfer.read offset length).InRange s.1 := by
      unfold Transfer.InRange
      omega
    have hrun : finalState (read offset length) s = finalState
        ((range offset (offset + length) maxTransfer).foldlM (readChunk offset length) []) s := by
      unfold finalState
      rw [read_inRange hin]
    rw [hrun]
    simp only [if_neg (show ¬ (offset < 0 ∨ length < 0 ∨ ((ledger s).length : Int) < offset + length) from hbad)]
    obtain ⟨h1, h2, h3⟩ := hin
    refine loop_goes (readChunk_tallies offset length) _ hs (fun pos hpos => ?_) (fun _ pos _ => ?_)
    · have := le_of_mem_range (by decide) hpos
      show 0 ≤ pos
      omega
    · show pos + min maxTransfer (offset + length - pos) ≤ (s.1.length : Int)
      omega

theorem write_goes (hs : Held s) (offset : Int) (data : Bytes) :
    Goes s (∀ h ∈ ((ledger s).call (.write offset data)).1, h.Harmless) (finalState (write offset data) s) ∧
      ledger (finalState (write offset data) s) = ((ledger s).call (.write offset data)).2 := by
  unfold Ledger.call
  by_cases hbad : offset < 0 ∨ (s.1.length : Int) < offset + data.length
  · have hrun : finalState (write offset data) s = s := by
      unfold write
      rw [finalState_bind]
      show finalState (raiseIf (offset < 0 ∨ (s.1.length : Int) < offset + data.length) _ >>= _) s = s
      rw [finalState_bind, run_raiseIf, if_pos hbad]
    rw [hrun]
    simp only [if_pos (show offset < 0 ∨ ((ledger s).length : Int) < offset + data.length from hbad)]
    exact ⟨(Goes.refl hs).congr (by simp), trivial⟩
  · have hin : (Transfer.write offset data).InRange s.1 := by
      unfold Transfer.InRange
      omega
    have hrun : finalState (write offset data) s = finalState
        ((range 0 data.length maxTransfer).foldlM (fun (_ : Unit) pos => writeChunk offset data pos) ()) s := by
      unfold finalState
      rw [write_inRange hin]
    rw [hrun]
    simp only [if_neg (show ¬ (offset < 0 ∨ ((ledger s).length : Int) < offset + data.length) from hbad)]
    obtain ⟨h1, h2⟩ := hin
    refine loop_goes (writeChunk_tallies offset data) _ hs (fun pos hpos => ?_) (fun _ pos _ => ?_)
    · have := le_of_mem_range (by decide) hpos
      show 0 ≤ offset + pos
      omega
    · show offset + pos + min maxTransfer (data.length - pos) ≤ (s.1.length : Int)
      omega

/-- **What a call sends, and what it leaves behind**, as the ledger says. -/
theorem call_goes (hs : Held s) (call : Call) :
    Goes s (∀ h ∈ ((ledger s).call call).1, h.Harmless) (finalState call.body s) ∧
      ledger (finalState call.body s) = ((ledger s).call call).2 := by
  cases call with
  | connectAndBorrow =>
    obtain ⟨h, hl⟩ := connectAndBorrow_goes hs
    exact ⟨h.congr (by simp [Ledger.call]), hl⟩
  | keepalive =>
    obtain ⟨h, hl⟩ := keepalive_goes hs
    exact ⟨h.congr (by simp [Ledger.call]), hl⟩
  | read offset length =>
    have hbody : finalState (Call.read offset length).body s = finalState (read offset length) s :=
      finalState_bind_pure (read offset length) (fun _ _ => rfl) s
    rw [hbody]
    exact read_goes hs offset length
  | write offset data => exact write_goes hs offset data
  | release =>
    obtain ⟨h, hl⟩ := release_goes hs
    exact ⟨h.congr (by simp [Ledger.call]), hl⟩

/-! ## Runs -/

theorem held_step (s : RemoteMemory × Net) (call : Call) (t : RemoteMemory × Net) (hs : Held s)
    (h : step s call = some t) : Held t := by
  cases h
  exact (call_goes hs call).1.held

theorem inside_step (s : RemoteMemory × Net) (call : Call) (t : RemoteMemory × Net) (hs : Held s)
    (hi : s.2.Inside) (h : step s call = some t) :
    t.2.Inside ↔ ∀ h ∈ ((ledger s).call call).1, h.Harmless := by
  cases h
  rw [(call_goes hs call).1.inside_iff hs]
  exact and_iff_left hi

theorem ledger_step (s : RemoteMemory × Net) (call : Call) (t : RemoteMemory × Net) (hs : Held s)
    (h : step s call = some t) : ledger t = ((ledger s).call call).2 := by
  cases h
  exact (call_goes hs call).2

/-- A network on which nothing has happened yet. -/
def start (connects : List (Option Exc)) (outcomes : List Outcome) : Net :=
  ⟨connects, outcomes, 0, [], fun _ => none⟩

theorem held_start (megabytes : Int) (connects : List (Option Exc)) (outcomes : List Outcome) :
    Held (init megabytes, start connects outcomes) :=
  ⟨⟨by simp [start], by simp [start, Net.transfers]⟩, by simp [init]⟩

/-- **The runs in which every READ and WRITE that gets onto the wire lies in the lease of its socket
are those without a harmful hazard.** -/
theorem always_inside_iff (megabytes : Int) (connects : List (Option Exc)) (outcomes : List Outcome)
    (calls : List Call) :
    Always step (fun s => s.2.Inside) (init megabytes, start connects outcomes) calls ↔
      ∀ h ∈ (Ledger.blank megabytes connects outcomes).hazards calls, h.Harmless := by
  have hheld := held_start megabytes connects outcomes
  rw [always_iff_guarded held_step inside_step hheld (by simp [Net.Inside, Net.transfers, start])]
  exact guarded_iff_tally (fun s call => ⟨_, rfl⟩) held_step ledger_step hheld

/-- The READ of a lease at 4096 fails, and is repeated at 4096 in a lease that starts at 8192. -/
theorem always_inside_fails : ¬ ∀ (megabytes : Int) (connects : List (Option Exc))
    (outcomes : List Outcome) (calls : List Call),
    Always step (fun s => s.2.Inside) (init megabytes, start connects outcomes) calls := by
  intro h
  let lease (leaseId base : Nat) : Outcome :=
    .answered opBorrow 0 (toBE 8 leaseId ++ toBE 8 base ++ toBE 8 (1024 * 1024))
  let lost : Outcome := .raised (.osError "connection lost") true
  let data : Outcome := .answered opRead 0 (List.replicate 10 0)
  let s : RemoteMemory × Net := (init 1, start [] [lease 1 4096, lost, lease 2 8192, data])
  let t := finalState (Call.read 0 10).body (finalState Call.connectAndBorrow.body s)
  have hrun : Always step (fun s => s.2.Inside) s ([.connectAndBorrow, .read 0 10] ++ []) :=
    h 1 [] _ [.connectAndBorrow, .read 0 10]
  have hin : t.2.Inside := hrun.of_exec (P := fun s => s.2.Inside) (t := t) rfl
  have hmem : (⟨1, opRead, 4096, 10, []⟩ : Sent) ∈ t.2.transfers := by decide
  obtain ⟨g, hg, hlow, -⟩ := hin _ hmem
  have hlease : t.2.leases 1 = some ⟨2, 8192, 1024 * 1024⟩ := by decide
  rw [hlease] at hg
  cases hg
  exact absurd hlow (by decide)

end RemoteMemory

end RamLink
