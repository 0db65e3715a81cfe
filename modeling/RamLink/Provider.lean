import RamLink.Handler

/-!
# RamLink.Provider

`RAMProvider`, the provider that runs on the PC.

Unlike the phone's server it checks every READ and WRITE against the leases, deletes the expired
leases inside `get_lease` and before the scan, and lets RELEASE drop a lease that has expired.
`handle_outcome` says what one request, accepted or not, does to the state.
-/

namespace RamLink

open Lib

namespace RAMProvider

/-- The scan looks at every lease left after the cleanup. -/
def freeRegion (now : Time) (length : Nat) : EStateM Exc RamPool (Option Nat) := do
  modify (RamPool.cleanup now)
  let s ← get
  return s.scan length s.leases.values

def borrow (now : Time) (requested : Nat) : Handler Unit := do
  let length := RamPool.roundUp requested
  raiseIf (length ≤ 0 ∨ (← get).1.size < length) (.valueError "Invalid borrow size")
  match ← onFst (freeRegion now length) with
  | none => throw (.runtimeError "No free provider RAM")
  | some offset => do
    let leaseId ← onFst (modifyGet (RamPool.insertLease now offset length))
    onFst (modify (RamPool.zero offset length))
    sendLeaseReply leaseId offset length

def getLease (now : Time) (leaseId : Nat) : EStateM Exc RamPool Lease := do
  modify (RamPool.cleanup now)
  match (← get).leases.get? leaseId with
  | none => throw (.valueError "Lease missing or expired")
  | some l => return l

/-- `leases.pop(offset, None)`, alive or not; raises if there is none. -/
def release (leaseId : Nat) : EStateM Exc RamPool Unit := do
  match (← get).leases.get? leaseId with
  | none => throw (.valueError "Unknown lease")
  | some _ => modify (RamPool.popLease leaseId)

def Covers (now : Time) (offset length : Nat) (l : Lease) : Prop :=
  l.Alive now ∧ l.offset ≤ offset ∧ offset + length ≤ l.offset + l.length

instance (now : Time) (offset length : Nat) (l : Lease) : Decidable (Covers now offset length l) :=
  inferInstanceAs (Decidable (_ ∧ _))

/-- The first live lease, in table order, that contains the range, with its id. -/
def findLease (now : Time) (offset length : Nat) (s : RamPool) : Option (Nat × Lease) :=
  s.leases.entries.find? (fun x => decide (Covers now offset length x.2))

def infoText (s : RamPool) (active : Nat) : String :=
  "RAM-LINK\nversion=4\nprotocol=RML1\nrole=PROVIDER\n" ++
  s!"platform=WINDOWS\ntransport=TCP\nbuffer_bytes={s.size}\n" ++
  s!"buffer_mib={mibText s.size}\nactive_leases={active}\n" ++
  s!"lease_seconds={leaseSeconds}\n"

def handle (now : Time) (op offset length : Nat) : Handler Unit :=
  if op = opPing then do
    sendHeader opPing 0 4
    sendall (ascii "PONG")
  else if op = opInfo then do
    onFst (modify (RamPool.cleanup now))
    let s := (← get).1
    let body := ascii (infoText s s.leases.size)
    sendHeader opInfo 0 body.length
    sendall body
  else if op = opBorrow then borrow now length
  else if op = opRelease then do
    onFst (release offset)
    sendHeader opRelease offset 0
  else if op = opKeepalive then do
    let _ ← onFst (getLease now offset)
    onFst (modify (RamPool.keepaliveLease now offset))
    sendHeader opKeepalive offset 0
  else if op = opRead ∨ op = opWrite then do
    raiseIf (maxBlock < length) (.valueError "Transfer exceeds maximum")
    match findLease now offset length (← get).1 with
    | none => throw (.valueError "Access is outside an active lease")
    | some _ =>
      if op = opWrite then receiveAndStore opWrite offset length offset length
      else loadAndSend opRead offset length offset length
  else throw (.valueError s!"Unknown operation {op}")

/-! ## The branches of the handler -/

/-- The operations the handler knows, in the order in which it asks for them. -/
@[elab_as_elim]
theorem op_cases {motive : Nat → Prop} (ping : motive opPing) (info : motive opInfo)
    (borrow : motive opBorrow) (release : motive opRelease) (keepalive : motive opKeepalive)
    (read : motive opRead) (write : motive opWrite)
    (unknown : ∀ op, op ∉ [opPing, opInfo, opBorrow, opRelease, opKeepalive, opRead, opWrite] →
      motive op) (op : Nat) : motive op := by
  by_cases h : op ∈ [opPing, opInfo, opBorrow, opRelease, opKeepalive, opRead, opWrite]
  · simp only [List.mem_cons, List.not_mem_nil, or_false] at h
    rcases h with rfl | rfl | rfl | rfl | rfl | rfl | rfl <;> assumption
  · exact unknown op h

section Branches

variable (now : Time) (offset length : Nat)

theorem handle_ping : handle now opPing offset length = (do
    sendHeader opPing 0 4
    sendall (ascii "PONG")) := rfl

theorem handle_info : handle now opInfo offset length = (do
    onFst (modify (RamPool.cleanup now))
    let s := (← get).1
    let body := ascii (infoText s s.leases.size)
    sendHeader opInfo 0 body.length
    sendall body) := rfl

theorem handle_borrow : handle now opBorrow offset length = borrow now length := rfl

theorem handle_release : handle now opRelease offset length = (do
    onFst (release offset)
    sendHeader opRelease offset 0) := rfl

theorem handle_keepalive : handle now opKeepalive offset length = (do
    let _ ← onFst (getLease now offset)
    onFst (modify (RamPool.keepaliveLease now offset))
    sendHeader opKeepalive offset 0) := rfl

theorem handle_read : handle now opRead offset length = (do
    raiseIf (maxBlock < length) (.valueError "Transfer exceeds maximum")
    match findLease now offset length (← get).1 with
    | none => throw (.valueError "Access is outside an active lease")
    | some _ => loadAndSend opRead offset length offset length) := rfl

theorem handle_write : handle now opWrite offset length = (do
    raiseIf (maxBlock < length) (.valueError "Transfer exceeds maximum")
    match findLease now offset length (← get).1 with
    | none => throw (.valueError "Access is outside an active lease")
    | some _ => receiveAndStore opWrite offset length offset length) := rfl

theorem handle_unknown {op : Nat}
    (h : op ∉ [opPing, opInfo, opBorrow, opRelease, opKeepalive, opRead, opWrite]) :
    handle now op offset length = throw (.valueError s!"Unknown operation {op}") := by
  simp only [List.mem_cons, List.not_mem_nil, or_false, not_or] at h
  unfold handle
  simp only [h, or_self, if_false]

end Branches

/-! ## What a request does to the state -/

/-- The state a request leaves behind, whether it was accepted or not. -/
def after (x : Request) (s : RamPool) : RamPool :=
  (finalState (handle x.now x.op x.offset x.length) (s, x.conn)).1

/-- No byte, no new lease: the leases that are left keep their ranges. -/
structure Narrows (s s' : RamPool) : Prop where
  size : s'.size = s.size
  memory : s'.memory = s.memory
  nextLeaseId : s'.nextLeaseId = s.nextLeaseId
  kept : ∀ i l', s'.leases.get? i = some l' →
    ∃ l, s.leases.get? i = some l ∧ l'.offset = l.offset ∧ l'.length = l.length

theorem Narrows.refl (s : RamPool) : Narrows s s := ⟨rfl, rfl, rfl, fun _ l h => ⟨l, h, rfl, rfl⟩⟩

theorem Narrows.trans {s t u : RamPool} (h : Narrows s t) (k : Narrows t u) : Narrows s u := by
  refine ⟨k.size.trans h.size, k.memory.trans h.memory, k.nextLeaseId.trans h.nextLeaseId, ?_⟩
  intro i l'' hl
  obtain ⟨l', hl', ho', hn'⟩ := k.kept i l'' hl
  obtain ⟨l, hl, ho, hn⟩ := h.kept i l' hl'
  exact ⟨l, hl, ho'.trans ho, hn'.trans hn⟩

theorem narrows_cleanup (now : Time) (s : RamPool) : Narrows s (s.cleanup now) :=
  ⟨rfl, rfl, rfl, fun _ l h => ⟨l, (RamPool.get?_cleanup.mp h).1, rfl, rfl⟩⟩

theorem narrows_popLease (i : Nat) (s : RamPool) : Narrows s (s.popLease i) := by
  refine ⟨rfl, rfl, rfl, fun j l h => ⟨l, ?_, rfl, rfl⟩⟩
  rw [RamPool.get?_popLease] at h
  split at h
  · cases h
  · exact h

theorem narrows_keepaliveLease (now : Time) (i : Nat) (s : RamPool) :
    Narrows s (s.keepaliveLease now i) :=
  ⟨rfl, rfl, rfl, fun _ _ h => RamPool.get?_keepaliveLease_some h⟩

/-- A WRITE that passes its checks and whose payload arrives in full. -/
def Stores (x : Request) (s : RamPool) : Prop :=
  x.op = opWrite ∧ x.length ≤ maxBlock ∧ (findLease x.now x.offset x.length s).isSome ∧
    x.length ≤ x.conn.inbox.length

instance (x : Request) (s : RamPool) : Decidable (Stores x s) := inferInstanceAs (Decidable (_ ∧ _))

/-- What one request can do: narrow the table, grant a lease of zeroed bytes, or store a payload. -/
inductive Outcome (x : Request) (s : RamPool) : RamPool → Prop where
  | narrow {s'} (h : Narrows s s') (ns : ¬ Stores x s) : Outcome x s s'
  | grant (offset : Nat) (op : x.op = opBorrow) (pos : 0 < x.length)
    (found : (s.cleanup x.now).scan (RamPool.roundUp x.length) (s.cleanup x.now).leases.values =
      some offset) :
    Outcome x s ((((s.cleanup x.now).insertLease x.now offset (RamPool.roundUp x.length)).2).zero
      offset (RamPool.roundUp x.length))
  | store (leaseId : Nat) (l : Lease) (op : x.op = opWrite) (fits : x.length ≤ maxBlock)
    (found : findLease x.now x.offset x.length s = some (leaseId, l))
    (whole : x.length ≤ x.conn.inbox.length) :
    Outcome x s (s.store x.offset x.length (x.conn.inbox.take x.length))

theorem run_getLease (now : Time) (i : Nat) (s : RamPool) :
    (getLease now i).run s = match (s.cleanup now).leases.get? i with
      | none => .error (.valueError "Lease missing or expired") (s.cleanup now)
      | some l => .ok l (s.cleanup now) := by
  simp only [getLease, EStateM.run_bind, run_modify, EStateM.run_get]
  cases (s.cleanup now).leases.get? i <;> rfl

theorem run_release (i : Nat) (s : RamPool) :
    (release i).run s = match s.leases.get? i with
      | none => .error (.valueError "Unknown lease") s
      | some _ => .ok () (s.popLease i) := by
  simp only [release, EStateM.run_bind, EStateM.run_get]
  cases s.leases.get? i <;> rfl

theorem run_freeRegion (now : Time) (length : Nat) (s : RamPool) :
    (freeRegion now length).run s =
      .ok ((s.cleanup now).scan length (s.cleanup now).leases.values) (s.cleanup now) := rfl

theorem not_stores_of_op {x : Request} {s : RamPool} {op : Nat} (h : x.op = op)
    (hop : op ≠ opWrite) : ¬ Stores x s := fun hs => hop (h.symm.trans hs.1)

theorem borrow_outcome {x : Request} (hop : x.op = opBorrow) (s : RamPool) :
    Outcome x s (finalState (borrow x.now x.length) (s, x.conn)).1 := by
  have hns : ¬ Stores x s := not_stores_of_op hop (by decide)
  unfold borrow
  simp only [finalState_bind, run_getHandler, run_raiseIf]
  by_cases hz : RamPool.roundUp x.length ≤ 0 ∨ s.size < RamPool.roundUp x.length
  · rw [if_pos hz]
    exact .narrow (Narrows.refl s) hns
  rw [if_neg hz]
  simp only [run_onFst, run_freeRegion]
  split
  · exact .narrow (narrows_cleanup x.now s) hns
  · rename_i offset hf
    rw [finalState_bind]
    simp only [run_onFst, run_modifyGet]
    rw [finalState_bind_quiet _ (fun _ => quiet_sendLeaseReply _ _ _), finalState_onFst]
    exact .grant offset hop (RamPool.roundUp_pos.mp (by omega)) hf

/-- **What one request does to the state**, whether it is accepted or not. -/
theorem handle_outcome (x : Request) (s : RamPool) : Outcome x s (after x s) := by
  have hsend : ∀ op offset n (data : Bytes), Quiet (do sendHeader op offset n; sendall data) :=
    fun op offset n data => (quiet_sendHeader op offset n).bind fun _ => quiet_sendall data
  unfold after
  generalize hop : x.op = op
  induction op using op_cases with
  | ping =>
    rw [handle_ping, hsend opPing 0 4]
    exact .narrow (Narrows.refl s) (not_stores_of_op hop (by decide))
  | info =>
    rw [handle_info, finalState_bind_quiet _ (fun _ => Quiet.get fun _ => hsend opInfo 0 _ _),
      finalState_onFst]
    exact .narrow (narrows_cleanup x.now s) (not_stores_of_op hop (by decide))
  | borrow =>
    rw [handle_borrow]
    exact borrow_outcome hop s
  | release =>
    rw [handle_release, finalState_bind_quiet _ (fun _ => quiet_sendHeader _ _ _), finalState_onFst]
    refine .narrow ?_ (not_stores_of_op hop (by decide))
    simp only [finalState, run_release]
    cases s.leases.get? x.offset with
    | none => exact Narrows.refl s
    | some l => exact narrows_popLease x.offset s
  | keepalive =>
    rw [handle_keepalive, finalState_bind]
    simp only [run_onFst, run_getLease]
    refine .narrow ((narrows_cleanup x.now s).trans ?_) (not_stores_of_op hop (by decide))
    cases (s.cleanup x.now).leases.get? x.offset with
    | none => exact Narrows.refl _
    | some l =>
      simp only
      rw [finalState_bind_quiet _ (fun _ => quiet_sendHeader _ _ _), finalState_onFst]
      exact narrows_keepaliveLease x.now x.offset _
  | read =>
    refine .narrow ?_ (not_stores_of_op hop (by decide))
    rw [handle_read, finalState_bind, run_raiseIf]
    by_cases hmax : maxBlock < x.length
    · rw [if_pos hmax]
      exact Narrows.refl s
    rw [if_neg hmax]
    simp only [finalState_bind, run_getHandler]
    cases findLease x.now x.offset x.length s with
    | none => exact Narrows.refl s
    | some e =>
      simp only
      rw [quiet_loadAndSend]
      exact Narrows.refl s
  | write =>
    rw [handle_write, finalState_bind, run_raiseIf]
    by_cases hmax : maxBlock < x.length
    · rw [if_pos hmax]
      exact .narrow (Narrows.refl s) (fun hs => absurd hmax (Nat.not_lt.mpr hs.2.1))
    rw [if_neg hmax]
    simp only [finalState_bind, run_getHandler]
    cases hf : findLease x.now x.offset x.length s with
    | none => exact .narrow (Narrows.refl s) (fun hs => by simp [Stores, hf] at hs)
    | some e =>
      simp only
      rw [finalState_receiveAndStore]
      by_cases hn : x.length ≤ x.conn.inbox.length
      · rw [if_pos hn]
        exact .store e.1 e.2 hop (Nat.le_of_not_lt hmax) hf hn
      · rw [if_neg hn]
        exact .narrow (Narrows.refl s) (fun hs => hn hs.2.2.2)
  | unknown op h =>
    rw [handle_unknown _ _ _ h]
    refine .narrow (Narrows.refl s) (not_stores_of_op hop ?_)
    rintro rfl
    exact h (by decide)

theorem findLease_some {now : Time} {offset length i : Nat} {l : Lease} {s : RamPool}
    (h : findLease now offset length s = some (i, l)) :
    s.leases.get? i = some l ∧ Covers now offset length l := by
  have hp := List.find?_some h
  exact ⟨Dict.mem_entries.mp (List.mem_of_find?_eq_some h), of_decide_eq_true hp⟩

/-- An answered READ: what it sent, and that a live lease contains its range. -/
theorem read_ok {x : Request} (hop : x.op = opRead) {s : RamPool} {t : RamPool × Conn} {u : Unit}
    (h : (handle x.now x.op x.offset x.length).run (s, x.conn) = .ok u t) :
    t.2.sent = x.conn.sent ++ (header opRead x.offset x.length ++ s.load x.offset x.length) ∧
      ∃ i l, s.leases.get? i = some l ∧ Covers x.now x.offset x.length l := by
  rw [hop, handle_read] at h
  simp only [run_bind_ok, run_getHandler, run_raiseIf_ok] at h
  obtain ⟨_, s1, ⟨-, rfl⟩, _, s2, h2, h3⟩ := h
  cases h2
  split at h3
  · cases h3
  · rename_i e hf
    exact ⟨(loadAndSend_ok h3).2.2.1, e.1, e.2, findLease_some hf⟩

theorem run_read {x : Request} (hop : x.op = opRead) (hn : x.length ≤ maxBlock)
    (ho : x.offset < 256 ^ 8) (hc : x.conn.faults = []) {s : RamPool} {e : Nat × Lease}
    (hf : findLease x.now x.offset x.length s = some e) :
    (handle x.now x.op x.offset x.length).run (s, x.conn) = .ok () (s, { x.conn with
      sent := x.conn.sent ++ header opRead x.offset x.length ++ s.load x.offset x.length }) := by
  rw [hop]
  simp only [handle_read, EStateM.run_bind, run_raiseIf, if_neg (Nat.not_lt.mpr hn), run_getHandler, hf]
  exact run_loadAndSend hc s (by decide) ho (Nat.lt_of_le_of_lt hn (by decide)) _ _

/-! ## What a peer sees of each request -/

section Outcome

variable {now : Time} {offset length : Nat} {s : RamPool} {c : Conn}

theorem outcome_ping : outcome (handle now opPing offset length) (s, c) =
    (delivered (wireReply opPing 0 4 (ascii "PONG")) c, s) :=
  outcome_sendReply opPing 0 4 (ascii "PONG") s c

theorem outcome_borrow : outcome (handle now opBorrow offset length) (s, c) =
    if RamPool.roundUp length ≤ 0 ∨ s.size < RamPool.roundUp length then (none, s)
    else match (s.cleanup now).scan (RamPool.roundUp length) (s.cleanup now).leases.values with
      | none => (none, s.cleanup now)
      | some a => (leaseReply s.nextLeaseId a (RamPool.roundUp length) c,
          ((s.cleanup now).insertLease now a (RamPool.roundUp length)).2.zero a
            (RamPool.roundUp length)) := by
  rw [handle_borrow]
  unfold borrow
  rw [outcome_bind_get, outcome_bind_raiseIf]
  split
  · rfl
  · rw [outcome_bind_onFst, run_freeRegion]
    simp only
    cases (s.cleanup now).scan (RamPool.roundUp length) (s.cleanup now).leases.values with
    | none => rfl
    | some a =>
      simp only [outcome_bind_onFst, run_modifyGet, run_modify, outcome_sendLeaseReply]
      rfl

theorem outcome_release : outcome (handle now opRelease offset length) (s, c) =
    match s.leases.get? offset with
    | none => (none, s)
    | some _ => (delivered (wireHeader opRelease offset 0) c, s.popLease offset) := by
  rw [handle_release, outcome_bind_onFst, run_release]
  cases s.leases.get? offset with
  | none => rfl
  | some l => exact outcome_sendHeader opRelease offset 0 _ c

theorem outcome_keepalive : outcome (handle now opKeepalive offset length) (s, c) =
    match (s.cleanup now).leases.get? offset with
    | none => (none, s.cleanup now)
    | some _ => (delivered (wireHeader opKeepalive offset 0) c,
        (s.cleanup now).keepaliveLease now offset) := by
  rw [handle_keepalive, outcome_bind_onFst, run_getLease]
  cases (s.cleanup now).leases.get? offset with
  | none => rfl
  | some l => simp only [outcome_bind_onFst, run_modify, outcome_sendHeader]

theorem outcome_info : outcome (handle now opInfo offset length) (s, c) =
    (delivered (wireReply opInfo 0 (ascii (infoText (s.cleanup now) (s.cleanup now).leases.size)).length
      (ascii (infoText (s.cleanup now) (s.cleanup now).leases.size))) c, s.cleanup now) := by
  rw [handle_info, outcome_bind_onFst, run_modify]
  simp only [outcome_bind_get, outcome_sendReply]

theorem outcome_read : outcome (handle now opRead offset length) (s, c) =
    if maxBlock < length then (none, s)
    else match findLease now offset length s with
      | none => (none, s)
      | some _ => (delivered (wireReply opRead offset length (s.load offset length)) c, s) := by
  rw [handle_read, outcome_bind_raiseIf, outcome_bind_get]
  cases findLease now offset length s with
  | none => rfl
  | some e => simp only [outcome_loadAndSend]

theorem outcome_write : outcome (handle now opWrite offset length) (s, c) =
    if maxBlock < length then (none, s)
    else match findLease now offset length s with
      | none => (none, s)
      | some _ => (stored opWrite offset length length c,
        if length ≤ c.inbox.length then s.store offset length (c.inbox.take length) else s) := by
  rw [handle_write, outcome_bind_raiseIf, outcome_bind_get]
  cases findLease now offset length s with
  | none => rfl
  | some e => simp only [outcome_receiveAndStore]

theorem outcome_unknown {op : Nat}
    (h : op ∉ [opPing, opInfo, opBorrow, opRelease, opKeepalive, opRead, opWrite]) :
    outcome (handle now op offset length) (s, c) = (none, s) := by
  rw [handle_unknown _ _ _ h]
  rfl

/-- The byte requests, inside a live lease. -/
theorem outcome_read_covered (hl : length ≤ maxBlock) {e : Nat × Lease}
    (hf : findLease now offset length s = some e) :
    outcome (handle now opRead offset length) (s, c) =
      (delivered (wireReply opRead offset length (s.load offset length)) c, s) := by
  rw [outcome_read, if_neg (Nat.not_lt.mpr hl), hf]

theorem outcome_write_covered (hl : length ≤ maxBlock) {e : Nat × Lease}
    (hf : findLease now offset length s = some e) :
    outcome (handle now opWrite offset length) (s, c) = (stored opWrite offset length length c,
      if length ≤ c.inbox.length then s.store offset length (c.inbox.take length) else s) := by
  rw [outcome_write, if_neg (Nat.not_lt.mpr hl), hf]

end Outcome

end RAMProvider

end RamLink
