import RamLink.Handler

/-!
# RamLink.Server

`RAMLinkServer`, the provider that runs on the phone: the request handler with its ten branches.

Each request is handled at one clock reading `now` (`RamLink.Server.Threads` lets the readings of
one request differ). `handle_reply` says what an accepted request puts on the wire: one header and
a payload, with the length field and the payload length of each branch.
-/

namespace RamLink

open Lib

namespace RAMLinkServer

def sectors (s : RamPool) : Nat := s.size / sectorSize

def validRange (offset length : Nat) (s : RamPool) : Bool :=
  decide (offset ≤ s.size ∧ length ≤ s.size - offset)

/-- The scan looks at the leases that are alive only. -/
def findFreeRegion (now : Time) (length : Nat) (s : RamPool) : Option Nat :=
  s.scan length (s.leases.values.filter (fun l => decide (l.Alive now)))

def borrow (now : Time) (requestedLength : Nat) : Handler Unit := do
  onFst (modify (RamPool.cleanup now))
  let s := (← get).1
  let length := RamPool.roundUp requestedLength
  raiseIf (length ≤ 0 ∨ s.size < length) (.valueError "Invalid borrow size")
  match findFreeRegion now length s with
  | none => throw (.runtimeError "No free RAM block is currently available")
  | some offset => do
    let leaseId ← onFst (modifyGet (RamPool.insertLease now offset length))
    onFst (modify (RamPool.zero offset length))
    sendLeaseReply leaseId offset length

/-- A lease that has expired is deleted on the way. -/
def getLease (now : Time) (leaseId : Nat) : EStateM Exc RamPool Lease := do
  let s ← get
  match s.leases.get? leaseId with
  | none => throw (.valueError "Lease is missing or expired")
  | some l =>
    if l.Alive now then return l
    else do
      set (s.popLease leaseId)
      throw (.valueError "Lease is missing or expired")

def infoText (s : RamPool) (active : Nat) : String :=
  "RAM-LINK\nversion=3\nprotocol=RML1\ntransport=USB_TETHERING\n" ++
  s!"buffer_bytes={s.size}\nbuffer_mib={mibText s.size}\n" ++
  s!"sector_size={sectorSize}\nsector_count={sectors s}\nmax_transfer={maxBlock}\n" ++
  s!"active_leases={active}\nlease_seconds={leaseSeconds}\n"

def info (now : Time) : Handler Unit := do
  onFst (modify (RamPool.cleanup now))
  let s := (← get).1
  let text := ascii (infoText s s.leases.size)
  sendHeader opInfo 0 text.length
  sendall text

def handle (now : Time) (op offset length : Nat) : Handler Unit :=
  if op = opInfo then info now
  else if op = opPing then do
    sendHeader opPing 0 4
    sendall (ascii "PONG")
  else if op = opBorrow then borrow now length
  else if op = opRelease then do
    let _ ← onFst (getLease now offset)
    onFst (modify (RamPool.popLease offset))
    sendHeader opRelease offset 0
  else if op = opKeepalive then do
    let _ ← onFst (getLease now offset)
    onFst (modify (RamPool.keepaliveLease now offset))
    sendHeader opKeepalive offset 0
  else if op = opRead ∨ op = opWrite then do
    let s := (← get).1
    raiseIf (maxBlock < length ∨ ¬ validRange offset length s) (.valueError "Invalid byte range")
    if op = opWrite then receiveAndStore opWrite offset length offset length
    else loadAndSend opRead offset length offset length
  else if op = opBlockInfo then do
    let payload := toBE 8 sectorSize ++ toBE 8 (sectors (← get).1)
    sendHeader opBlockInfo 0 payload.length
    sendall payload
  else if op = opBlockRead ∨ op = opBlockWrite then do
    let s := (← get).1
    raiseIf (sectors s < offset ∨ sectors s - offset < length)
      (.valueError "Sector range outside RAM")
    raiseIf (maxBlock < length * sectorSize) (.valueError "Transfer exceeds maximum")
    if op = opBlockWrite then
      receiveAndStore opBlockWrite offset length (offset * sectorSize) (length * sectorSize)
    else loadAndSend opBlockRead offset length (offset * sectorSize) (length * sectorSize)
  else throw (.valueError s!"Unknown operation {op}")

/-- What the scan finds for a rounded length is a range of whole sectors inside the buffer. -/
theorem findFreeRegion_placed {s : RamPool} (ht : s.Tabled) {now : Time} {requested c : Nat}
    (hr : 0 < requested) (hc : findFreeRegion now (RamPool.roundUp requested) s = some c) :
    RamPool.Placed s.size c (RamPool.roundUp requested) := by
  refine RamPool.scan_placed ht (fun l hl => ?_) hr hc
  exact Dict.mem_values.mp (List.mem_of_mem_filter hl)

theorem run_getLease (now : Time) (i : Nat) (s : RamPool) :
    (getLease now i).run s = match s.leases.get? i with
      | none => .error (.valueError "Lease is missing or expired") s
      | some l =>
        if l.Alive now then .ok l s
        else .error (.valueError "Lease is missing or expired") (s.popLease i) := by
  simp only [getLease, EStateM.run_bind, EStateM.run_get]
  cases s.leases.get? i with
  | none => rfl
  | some l =>
    simp only
    split <;> rfl

theorem sectors_range {s : RamPool} {sector count : Nat}
    (h : ¬ (sectors s < sector ∨ sectors s - sector < count)) :
    sector * sectorSize + count * sectorSize ≤ s.size := by
  have hm : s.size / sectorSize * sectorSize ≤ s.size := Nat.div_mul_le_self _ _
  have hle : sector + count ≤ s.size / sectorSize := by
    simp only [sectors] at h
    omega
  have := Nat.mul_le_mul_right sectorSize hle
  rw [Nat.add_mul] at this
  omega

/-! ## The branches of the handler -/

/-- The operations the handler knows, in the order in which it asks for them. -/
@[elab_as_elim]
theorem op_cases {motive : Nat → Prop} (info : motive opInfo) (ping : motive opPing)
    (borrow : motive opBorrow) (release : motive opRelease) (keepalive : motive opKeepalive)
    (read : motive opRead) (write : motive opWrite) (blockInfo : motive opBlockInfo)
    (blockRead : motive opBlockRead) (blockWrite : motive opBlockWrite)
    (unknown : ∀ op, op ∉ [opInfo, opPing, opBorrow, opRelease, opKeepalive, opRead, opWrite,
      opBlockInfo, opBlockRead, opBlockWrite] → motive op) (op : Nat) : motive op := by
  by_cases h : op ∈ [opInfo, opPing, opBorrow, opRelease, opKeepalive, opRead, opWrite, opBlockInfo,
    opBlockRead, opBlockWrite]
  · simp only [List.mem_cons, List.not_mem_nil, or_false] at h
    rcases h with rfl | rfl | rfl | rfl | rfl | rfl | rfl | rfl | rfl | rfl <;> assumption
  · exact unknown op h

section Branches

variable (now : Time) (offset length : Nat)

theorem handle_info : handle now opInfo offset length = info now := rfl

theorem handle_ping : handle now opPing offset length = (do
    sendHeader opPing 0 4
    sendall (ascii "PONG")) := rfl

theorem handle_borrow : handle now opBorrow offset length = borrow now length := rfl

theorem handle_release : handle now opRelease offset length = (do
    let _ ← onFst (getLease now offset)
    onFst (modify (RamPool.popLease offset))
    sendHeader opRelease offset 0) := rfl

theorem handle_keepalive : handle now opKeepalive offset length = (do
    let _ ← onFst (getLease now offset)
    onFst (modify (RamPool.keepaliveLease now offset))
    sendHeader opKeepalive offset 0) := rfl

theorem handle_read : handle now opRead offset length = (do
    let s := (← get).1
    raiseIf (maxBlock < length ∨ ¬ validRange offset length s) (.valueError "Invalid byte range")
    loadAndSend opRead offset length offset length) := rfl

theorem handle_write : handle now opWrite offset length = (do
    let s := (← get).1
    raiseIf (maxBlock < length ∨ ¬ validRange offset length s) (.valueError "Invalid byte range")
    receiveAndStore opWrite offset length offset length) := rfl

theorem handle_blockInfo : handle now opBlockInfo offset length = (do
    let payload := toBE 8 sectorSize ++ toBE 8 (sectors (← get).1)
    sendHeader opBlockInfo 0 payload.length
    sendall payload) := rfl

theorem handle_blockRead : handle now opBlockRead offset length = (do
    let s := (← get).1
    raiseIf (sectors s < offset ∨ sectors s - offset < length)
      (.valueError "Sector range outside RAM")
    raiseIf (maxBlock < length * sectorSize) (.valueError "Transfer exceeds maximum")
    loadAndSend opBlockRead offset length (offset * sectorSize) (length * sectorSize)) := rfl

theorem handle_blockWrite : handle now opBlockWrite offset length = (do
    let s := (← get).1
    raiseIf (sectors s < offset ∨ sectors s - offset < length)
      (.valueError "Sector range outside RAM")
    raiseIf (maxBlock < length * sectorSize) (.valueError "Transfer exceeds maximum")
    receiveAndStore opBlockWrite offset length (offset * sectorSize) (length * sectorSize)) := rfl

theorem handle_unknown {op : Nat} (h : op ∉ [opInfo, opPing, opBorrow, opRelease, opKeepalive, opRead,
    opWrite, opBlockInfo, opBlockRead, opBlockWrite]) :
    handle now op offset length = throw (.valueError s!"Unknown operation {op}") := by
  simp only [List.mem_cons, List.not_mem_nil, or_false, not_or] at h
  unfold handle
  simp only [h, or_self, if_false]

end Branches

/-! ## What a request does to the state -/

/-- The state a request leaves behind, whether it was accepted or not. -/
def after (x : Request) (s : RamPool) : RamPool :=
  (finalState (handle x.now x.op x.offset x.length) (s, x.conn)).1

/-- The state after the region at `offset` has been granted. -/
def granted (now : Time) (offset length : Nat) (s : RamPool) : RamPool :=
  (s.insertLease now offset length).2.zero offset length

theorem run_borrow (now : Time) (requested : Nat) (s : RamPool) (c : Conn) :
    (borrow now requested).run (s, c) =
      if RamPool.roundUp requested ≤ 0 ∨ (s.cleanup now).size < RamPool.roundUp requested then
        .error (.valueError "Invalid borrow size") (s.cleanup now, c)
      else match findFreeRegion now (RamPool.roundUp requested) (s.cleanup now) with
        | none => .error (.runtimeError "No free RAM block is currently available") (s.cleanup now, c)
        | some offset =>
          (sendLeaseReply s.nextLeaseId offset (RamPool.roundUp requested)).run
            (granted now offset (RamPool.roundUp requested) (s.cleanup now), c) := by
  unfold borrow
  simp only [EStateM.run_bind, run_modifyFst, run_getHandler, run_raiseIf]
  by_cases hz : RamPool.roundUp requested ≤ 0 ∨ (s.cleanup now).size < RamPool.roundUp requested
  · rw [if_pos hz, if_pos hz]
  rw [if_neg hz, if_neg hz]
  simp only
  cases findFreeRegion now (RamPool.roundUp requested) (s.cleanup now) <;> rfl

theorem after_borrow {x : Request} (hop : x.op = opBorrow) (s : RamPool) :
    after x s =
      if RamPool.roundUp x.length ≤ 0 ∨ (s.cleanup x.now).size < RamPool.roundUp x.length then
        s.cleanup x.now
      else match findFreeRegion x.now (RamPool.roundUp x.length) (s.cleanup x.now) with
        | none => s.cleanup x.now
        | some offset => granted x.now offset (RamPool.roundUp x.length) (s.cleanup x.now) := by
  have hsend := fun offset => quiet_sendLeaseReply s.nextLeaseId offset (RamPool.roundUp x.length)
    (granted x.now offset (RamPool.roundUp x.length) (s.cleanup x.now), x.conn)
  unfold finalState at hsend
  unfold after finalState
  rw [hop, handle_borrow, run_borrow]
  by_cases hz : RamPool.roundUp x.length ≤ 0 ∨ (s.cleanup x.now).size < RamPool.roundUp x.length
  · rw [if_pos hz, if_pos hz]
  · rw [if_neg hz, if_neg hz]
    cases findFreeRegion x.now (RamPool.roundUp x.length) (s.cleanup x.now) with
    | none => rfl
    | some offset => exact hsend offset

theorem granted_leases (now : Time) (a n : Nat) (s : RamPool) (i : Nat) :
    (granted now a n s).leases.get? i =
      if i = s.nextLeaseId then some (Lease.new now a n) else s.leases.get? i := by
  rw [granted, RamPool.zero_leases, RamPool.get?_insertLease]

/-- An empty table has its first free region at 0. -/
theorem findFreeRegion_empty {s : RamPool} (hnone : ∀ i, s.leases.get? i = none) {now : Time}
    {length : Nat} (hl : length ≤ s.size) : findFreeRegion now length s = some 0 := by
  have hnil : s.leases.values = [] := by
    rw [List.eq_nil_iff_forall_not_mem]
    intro l hl
    obtain ⟨i, hi⟩ := Dict.mem_values.mp hl
    rw [hnone i] at hi
    cases hi
  unfold findFreeRegion RamPool.scan
  rw [hnil]
  show (if 0 + length ≤ s.size then some 0 else none) = some 0
  rw [if_pos (by omega)]

theorem cleanup_empty {s : RamPool} (hnone : ∀ i, s.leases.get? i = none) (now : Time) (i : Nat) :
    (s.cleanup now).leases.get? i = none := by
  rw [Option.eq_none_iff_forall_ne_some]
  intro l hl
  have := (RamPool.get?_cleanup.mp hl).1
  rw [hnone i] at this
  cases this

/-- RELEASE drops the lease whether it is alive or not; only the reply differs. -/
theorem after_release {x : Request} (hop : x.op = opRelease) (s : RamPool) :
    after x s = match s.leases.get? x.offset with
      | none => s
      | some _ => s.popLease x.offset := by
  unfold after
  rw [hop, handle_release, finalState_bind]
  simp only [run_onFst, run_getLease]
  cases s.leases.get? x.offset with
  | none => rfl
  | some l =>
    simp only
    by_cases ha : l.Alive x.now
    · rw [if_pos ha]
      simp only
      rw [finalState_bind_quiet _ (fun _ => quiet_sendHeader _ _ _), finalState_onFst]
      rfl
    · rw [if_neg ha]

theorem after_keepalive {x : Request} (hop : x.op = opKeepalive) (s : RamPool) :
    after x s = match s.leases.get? x.offset with
      | none => s
      | some l => if l.Alive x.now then s.keepaliveLease x.now x.offset else s.popLease x.offset := by
  unfold after
  rw [hop, handle_keepalive, finalState_bind]
  simp only [run_onFst, run_getLease]
  cases s.leases.get? x.offset with
  | none => rfl
  | some l =>
    simp only
    by_cases ha : l.Alive x.now
    · rw [if_pos ha, if_pos ha]
      simp only
      rw [finalState_bind_quiet _ (fun _ => quiet_sendHeader _ _ _), finalState_onFst]
      rfl
    · rw [if_neg ha, if_neg ha]

/-- At most expired leases are dropped, or bytes stored inside the buffer. -/
inductive Spares (x : Request) (s : RamPool) : RamPool → Prop where
  | same : Spares x s s
  | cleanup : Spares x s (s.cleanup x.now)
  | store (a n : Nat) (data : Bytes) (hd : data.length = n) (hn : a + n ≤ s.size) :
    Spares x s (s.store a n data)

theorem spares_receiveAndStore (x : Request) {s : RamPool} {a n : Nat} (hn : a + n ≤ s.size)
    (op offset length : Nat) :
    Spares x s (finalState (receiveAndStore op offset length a n) (s, x.conn)).1 := by
  rw [finalState_receiveAndStore]
  split
  · rename_i hl
    exact .store a n _ (by simp [hl]) hn
  · exact .same

theorem spares_raiseIf {x : Request} {s : RamPool} (p : Prop) [Decidable p] (e : Exc)
    {f : Unit → Handler Unit} (hf : ¬ p → Spares x s (finalState (f ()) (s, x.conn)).1) :
    Spares x s (finalState (raiseIf p e >>= f) (s, x.conn)).1 := by
  rw [finalState_bind, run_raiseIf]
  by_cases hp : p
  · rw [if_pos hp]
    exact .same
  · rw [if_neg hp]
    exact hf hp

/-- The requests other than BORROW, RELEASE and KEEPALIVE. -/
theorem after_other {x : Request} (hb : x.op ≠ opBorrow) (hr : x.op ≠ opRelease)
    (hk : x.op ≠ opKeepalive) (s : RamPool) : Spares x s (after x s) := by
  have hsend : ∀ op offset n (data : Bytes), Quiet (do sendHeader op offset n; sendall data) :=
    fun op offset n data => (quiet_sendHeader op offset n).bind fun _ => quiet_sendall data
  unfold after
  generalize x.op = op at hb hr hk ⊢
  induction op using op_cases with
  | borrow => exact absurd rfl hb
  | release => exact absurd rfl hr
  | keepalive => exact absurd rfl hk
  | info =>
    rw [handle_info]
    unfold info
    rw [finalState_bind_quiet _ (fun _ => Quiet.get fun _ => hsend opInfo 0 _ _), finalState_onFst]
    exact .cleanup
  | ping =>
    rw [handle_ping, hsend opPing 0 4]
    exact .same
  | read =>
    rw [handle_read, finalState_bind]
    simp only [run_getHandler]
    refine spares_raiseIf _ _ fun _ => ?_
    rw [quiet_loadAndSend]
    exact .same
  | write =>
    rw [handle_write, finalState_bind]
    simp only [run_getHandler]
    refine spares_raiseIf _ _ fun hv => ?_
    simp only [validRange, decide_eq_true_eq, not_or, Decidable.not_not] at hv
    exact spares_receiveAndStore x (by omega) _ _ _
  | blockInfo =>
    have hq : Quiet (do
        let payload := toBE 8 sectorSize ++ toBE 8 (sectors (← get).1)
        sendHeader opBlockInfo 0 payload.length
        sendall payload) := Quiet.get fun _ => hsend opBlockInfo 0 _ _
    rw [handle_blockInfo, hq]
    exact .same
  | blockRead =>
    rw [handle_blockRead, finalState_bind]
    simp only [run_getHandler]
    refine spares_raiseIf _ _ fun _ => ?_
    refine spares_raiseIf _ _ fun _ => ?_
    rw [quiet_loadAndSend]
    exact .same
  | blockWrite =>
    rw [handle_blockWrite, finalState_bind]
    simp only [run_getHandler]
    refine spares_raiseIf _ _ fun hv => ?_
    refine spares_raiseIf _ _ fun _ => ?_
    exact spares_receiveAndStore x (sectors_range hv) _ _ _
  | unknown op h =>
    rw [handle_unknown _ _ _ h]
    exact .same

/-! ## What an accepted request sends -/

theorem getLease_ok {now : Time} {i : Nat} {s t : RamPool} {l : Lease}
    (h : (getLease now i).run s = .ok l t) : s.leases.get? i = some l ∧ l.Alive now ∧ t = s := by
  rw [run_getLease] at h
  split at h
  · cases h
  · rename_i l' hg
    split at h
    · rename_i ha; cases h; exact ⟨hg, ha, rfl⟩
    · cases h

/-- The length field and the payload length of the reply to an accepted request. -/
def ReplyLengths (op length rlen plen : Nat) : Prop :=
  if op = opWrite ∨ op = opBlockWrite then rlen = length ∧ plen = 0
  else if op = opBlockRead then rlen = length ∧ plen = length * sectorSize
  else if op = opRead then rlen = length ∧ plen = length
  else rlen = plen

/-- The branches without a transfer length: the length field is the payload's length. -/
theorem replyLengths_of {op length n : Nat}
    (h : op ≠ opWrite ∧ op ≠ opBlockWrite ∧ op ≠ opBlockRead ∧ op ≠ opRead) :
    ReplyLengths op length n n := by
  simp [ReplyLengths, h]

theorem info_ok {now : Time} {s t : RamPool × Conn} {u : Unit} (h : (info now).run s = .ok u t) :
    ∃ n, Replies n n s t := by
  simp only [info, run_bind_ok, run_modifyFst, run_getHandler] at h
  obtain ⟨_, s1, h1, _, s2, h2, _, s3, h3, h4⟩ := h
  cases h1
  cases h2
  exact ⟨_, (replies_of_sends h3 h4).of_sent_eq rfl⟩

theorem borrow_ok {now : Time} {requested : Nat} {s t : RamPool × Conn} {u : Unit}
    (h : (borrow now requested).run s = .ok u t) : Replies leaseReplySize leaseReplySize s t := by
  simp only [borrow, run_bind_ok, run_modifyFst, run_getHandler, run_raiseIf_ok] at h
  obtain ⟨_, s1, h1, _, s2, h2, _, s3, ⟨-, rfl⟩, h3⟩ := h
  cases h1
  cases h2
  split at h3
  · cases h3
  simp only [run_bind_ok, run_modifyFst] at h3
  obtain ⟨i, s4, h4, _, s5, h5, h6⟩ := h3
  cases h5
  obtain ⟨-, hc⟩ := onFst_ok h4
  obtain ⟨payload, hp, hsend, hi⟩ := sendLeaseReply_ok h6
  have hl := length_packLeaseReply hp
  refine ⟨opBorrow, i, payload, by decide, hi, by decide, hl, ?_⟩
  rw [hsend.sent, hc, hl]

/-- RELEASE and KEEPALIVE: a lookup, a change of the pool, a bare header. -/
theorem lookup_ok {now : Time} {op offset : Nat} {f : RamPool → RamPool} {s t : RamPool × Conn}
    {u : Unit}
    (h : (do let _ ← onFst (getLease now offset)
             onFst (modify f)
             sendHeader op offset 0 : Handler Unit).run s = .ok u t) :
    ∃ l, s.1.leases.get? offset = some l ∧ l.Alive now ∧ t.1 = f s.1 ∧ Replies 0 0 s t := by
  simp only [run_bind_ok, run_modifyFst] at h
  obtain ⟨l, s1, h1, _, s2, h2, h3⟩ := h
  cases h2
  obtain ⟨hl, hc⟩ := onFst_ok h1
  obtain ⟨hg, ha, he⟩ := getLease_ok hl
  obtain ⟨hh, -⟩ := sendHeader_ok h3
  exact ⟨l, hg, ha, by rw [hh.pool, he], (replies_of_header h3).of_sent_eq (by rw [hc])⟩

/-- **What an accepted request puts on the wire**: one header and one payload. -/
theorem handle_reply {now : Time} {op offset length : Nat} {s t : RamPool × Conn} {u : Unit}
    (hs : s.1.memory.length = s.1.size) (h : (handle now op offset length).run s = .ok u t) :
    ∃ rlen plen, ReplyLengths op length rlen plen ∧ Replies rlen plen s t := by
  induction op using op_cases with
  | info =>
    rw [handle_info] at h
    obtain ⟨n, hr⟩ := info_ok h
    exact ⟨n, n, replyLengths_of (by decide), hr⟩
  | ping =>
    simp only [handle_ping, run_bind_ok] at h
    obtain ⟨_, s1, h1, h2⟩ := h
    exact ⟨4, 4, replyLengths_of (by decide), replies_of_sends h1 h2⟩
  | borrow =>
    rw [handle_borrow] at h
    exact ⟨_, _, replyLengths_of (by decide), borrow_ok h⟩
  | release =>
    rw [handle_release] at h
    obtain ⟨l, -, -, -, hr⟩ := lookup_ok h
    exact ⟨0, 0, replyLengths_of (by decide), hr⟩
  | keepalive =>
    rw [handle_keepalive] at h
    obtain ⟨l, -, -, -, hr⟩ := lookup_ok h
    exact ⟨0, 0, replyLengths_of (by decide), hr⟩
  | read =>
    simp only [handle_read, run_bind_ok, run_getHandler, run_raiseIf_ok] at h
    obtain ⟨_, s1, h1, _, s2, ⟨hv, rfl⟩, h2⟩ := h
    cases h1
    simp only [validRange, decide_eq_true_eq, not_or, Decidable.not_not] at hv
    have hr := (loadAndSend_ok h2).2.2.2
    rw [RamPool.length_load hs (by omega)] at hr
    exact ⟨length, length, ⟨rfl, rfl⟩, hr⟩
  | write =>
    simp only [handle_write, run_bind_ok, run_getHandler, run_raiseIf_ok] at h
    obtain ⟨_, s1, h1, _, s2, ⟨-, rfl⟩, h2⟩ := h
    cases h1
    exact ⟨length, 0, ⟨rfl, rfl⟩, (receiveAndStore_ok h2).2.2.2.2⟩
  | blockInfo =>
    simp only [handle_blockInfo, run_bind_ok, run_getHandler] at h
    obtain ⟨_, s1, h1, _, s2, h2, h3⟩ := h
    cases h1
    exact ⟨_, _, replyLengths_of (by decide), replies_of_sends h2 h3⟩
  | blockRead =>
    simp only [handle_blockRead, run_bind_ok, run_getHandler, run_raiseIf_ok] at h
    obtain ⟨_, s1, h1, _, s2, ⟨hv, rfl⟩, _, s3, ⟨-, rfl⟩, h2⟩ := h
    cases h1
    have hr := (loadAndSend_ok h2).2.2.2
    rw [RamPool.length_load hs (sectors_range hv)] at hr
    exact ⟨length, length * sectorSize, ⟨rfl, rfl⟩, hr⟩
  | blockWrite =>
    simp only [handle_blockWrite, run_bind_ok, run_getHandler, run_raiseIf_ok] at h
    obtain ⟨_, s1, h1, _, s2, ⟨-, rfl⟩, _, s3, ⟨-, rfl⟩, h2⟩ := h
    cases h1
    exact ⟨length, 0, ⟨rfl, rfl⟩, (receiveAndStore_ok h2).2.2.2.2⟩
  | unknown op hop =>
    rw [handle_unknown _ _ _ hop] at h
    cases h

/-! ## What a peer sees of each request -/

section Outcome

variable {now : Time} {offset length : Nat} {s : RamPool} {c : Conn}

/-- A request that stays inside the buffer passes the checks of READ and WRITE. -/
theorem validRange_passes (hl : length ≤ maxBlock) (hr : offset + length ≤ s.size) :
    ¬ (maxBlock < length ∨ ¬ validRange offset length s) := by
  simp only [validRange, decide_eq_true_eq]
  omega

theorem outcome_ping : outcome (handle now opPing offset length) (s, c) =
    (delivered (wireReply opPing 0 4 (ascii "PONG")) c, s) :=
  outcome_sendReply opPing 0 4 (ascii "PONG") s c

theorem outcome_borrow : outcome (handle now opBorrow offset length) (s, c) =
    if RamPool.roundUp length ≤ 0 ∨ s.size < RamPool.roundUp length then (none, s.cleanup now)
    else match findFreeRegion now (RamPool.roundUp length) (s.cleanup now) with
      | none => (none, s.cleanup now)
      | some a => (leaseReply s.nextLeaseId a (RamPool.roundUp length) c,
          granted now a (RamPool.roundUp length) (s.cleanup now)) := by
  unfold outcome
  rw [handle_borrow, run_borrow, RamPool.cleanup_size]
  by_cases hz : RamPool.roundUp length ≤ 0 ∨ s.size < RamPool.roundUp length
  · rw [if_pos hz, if_pos hz]
  · rw [if_neg hz, if_neg hz]
    cases findFreeRegion now (RamPool.roundUp length) (s.cleanup now) with
    | none => rfl
    | some a => exact outcome_sendLeaseReply s.nextLeaseId a (RamPool.roundUp length) _ c

theorem outcome_release : outcome (handle now opRelease offset length) (s, c) =
    match s.leases.get? offset with
    | none => (none, s)
    | some l => (if l.Alive now then delivered (wireHeader opRelease offset 0) c else none,
        s.popLease offset) := by
  rw [handle_release, outcome_bind_onFst, run_getLease]
  cases s.leases.get? offset with
  | none => rfl
  | some l =>
    by_cases hl : l.Alive now
    · simp only [if_pos hl, outcome_bind_onFst, run_modify, outcome_sendHeader]
    · simp only [if_neg hl]

theorem outcome_keepalive : outcome (handle now opKeepalive offset length) (s, c) =
    match s.leases.get? offset with
    | none => (none, s)
    | some l =>
      if l.Alive now then (delivered (wireHeader opKeepalive offset 0) c, s.keepaliveLease now offset)
      else (none, s.popLease offset) := by
  rw [handle_keepalive, outcome_bind_onFst, run_getLease]
  cases s.leases.get? offset with
  | none => rfl
  | some l =>
    by_cases hl : l.Alive now
    · simp only [if_pos hl, outcome_bind_onFst, run_modify, outcome_sendHeader]
    · simp only [if_neg hl]

theorem outcome_info : outcome (handle now opInfo offset length) (s, c) =
    (delivered (wireReply opInfo 0 (ascii (infoText (s.cleanup now) (s.cleanup now).leases.size)).length
      (ascii (infoText (s.cleanup now) (s.cleanup now).leases.size))) c, s.cleanup now) := by
  rw [handle_info, info, outcome_bind_onFst, run_modify]
  simp only [outcome_bind_get, outcome_sendReply]

theorem outcome_read : outcome (handle now opRead offset length) (s, c) =
    if maxBlock < length ∨ ¬ validRange offset length s then (none, s)
    else (delivered (wireReply opRead offset length (s.load offset length)) c, s) := by
  rw [handle_read, outcome_bind_get, outcome_bind_raiseIf, outcome_loadAndSend]

theorem outcome_write : outcome (handle now opWrite offset length) (s, c) =
    if maxBlock < length ∨ ¬ validRange offset length s then (none, s)
    else (stored opWrite offset length length c,
      if length ≤ c.inbox.length then s.store offset length (c.inbox.take length) else s) := by
  rw [handle_write, outcome_bind_get, outcome_bind_raiseIf, outcome_receiveAndStore]

theorem outcome_blockInfo : outcome (handle now opBlockInfo offset length) (s, c) =
    (delivered (wireReply opBlockInfo 0 16 (toBE 8 sectorSize ++ toBE 8 (sectors s))) c, s) := by
  have hlen : (toBE 8 sectorSize ++ toBE 8 (sectors s)).length = 16 := by simp
  rw [handle_blockInfo, outcome_bind_get]
  simp only [hlen, outcome_sendReply]

theorem outcome_blockRead : outcome (handle now opBlockRead offset length) (s, c) =
    if sectors s < offset ∨ sectors s - offset < length then (none, s)
    else if maxBlock < length * sectorSize then (none, s)
    else (delivered (wireReply opBlockRead offset length
      (s.load (offset * sectorSize) (length * sectorSize))) c, s) := by
  rw [handle_blockRead, outcome_bind_get, outcome_bind_raiseIf, outcome_bind_raiseIf, outcome_loadAndSend]

theorem outcome_blockWrite : outcome (handle now opBlockWrite offset length) (s, c) =
    if sectors s < offset ∨ sectors s - offset < length then (none, s)
    else if maxBlock < length * sectorSize then (none, s)
    else (stored opBlockWrite offset length (length * sectorSize) c,
      if length * sectorSize ≤ c.inbox.length then
        s.store (offset * sectorSize) (length * sectorSize) (c.inbox.take (length * sectorSize))
      else s) := by
  rw [handle_blockWrite, outcome_bind_get, outcome_bind_raiseIf, outcome_bind_raiseIf,
    outcome_receiveAndStore]

theorem outcome_unknown {op : Nat} (h : op ∉ [opInfo, opPing, opBorrow, opRelease, opKeepalive, opRead,
    opWrite, opBlockInfo, opBlockRead, opBlockWrite]) :
    outcome (handle now op offset length) (s, c) = (none, s) := by
  rw [handle_unknown _ _ _ h]
  rfl

/-- The byte requests, inside the buffer. -/
theorem outcome_read_inside (hl : length ≤ maxBlock) (hr : offset + length ≤ s.size) :
    outcome (handle now opRead offset length) (s, c) =
      (delivered (wireReply opRead offset length (s.load offset length)) c, s) := by
  rw [outcome_read, if_neg (validRange_passes hl hr)]

theorem outcome_write_inside (hl : length ≤ maxBlock) (hr : offset + length ≤ s.size) :
    outcome (handle now opWrite offset length) (s, c) = (stored opWrite offset length length c,
      if length ≤ c.inbox.length then s.store offset length (c.inbox.take length) else s) := by
  rw [outcome_write, if_neg (validRange_passes hl hr)]

end Outcome

end RAMLinkServer

end RamLink
