import RamLink.Agreement
import RamLink.BlockDevice
import RamLink.Borrower

/-!
# RamLink.Server.Replies

What `RAMLinkServer.client` makes of one request of a borrower: BORROW, READ, WRITE, KEEPALIVE, RELEASE.

* `client_whole`: it is answered, with a header that announces at least the bytes that follow it, or
  refused, which ends the connection.
* `client_write_sent`: for a WRITE no more than a header is ever sent, however much of it arrives.
* `client_sound`: what a connection keeps of the pool, whatever is sent on it.
-/

namespace RamLink

open Lib
open Borrower (Message)

namespace RAMLinkServer

/-! ## What requests keep of the pool -/

theorem after_sized (x : Request) {s : RamPool} (hs : s.Sized) (ht : s.Tabled) :
    (after x s).Sized ∧ (after x s).size = s.size := by
  have hkeep : ∀ s' : RamPool, s'.memory = s.memory → s'.size = s.size → s'.Sized ∧ s'.size = s.size := by
    intro s' hm hz
    exact ⟨⟨by rw [hm, hz]; exact hs.length_memory, by rw [hz]; exact hs.sector_dvd⟩, hz⟩
  by_cases hb : x.op = opBorrow
  · rw [after_borrow hb]
    split
    · exact hkeep _ rfl rfl
    · rename_i hz
      cases hf : findFreeRegion x.now (RamPool.roundUp x.length) (s.cleanup x.now) with
      | none => exact hkeep _ rfl rfl
      | some c =>
        have hp := findFreeRegion_placed (ht.cleanup x.now) (RamPool.roundUp_pos.mp (by omega)) hf
        have hsized : ((s.cleanup x.now).insertLease x.now c (RamPool.roundUp x.length)).2.Sized :=
          (hkeep ((s.cleanup x.now).insertLease x.now c (RamPool.roundUp x.length)).2 rfl rfl).1
        exact ⟨hsized.store List.length_replicate hp.inside, rfl⟩
  by_cases hr : x.op = opRelease
  · rw [after_release hr]
    cases s.leases.get? x.offset <;> exact hkeep _ rfl rfl
  by_cases hk : x.op = opKeepalive
  · rw [after_keepalive hk]
    cases s.leases.get? x.offset with
    | none => exact hkeep _ rfl rfl
    | some l =>
      simp only
      split <;> exact hkeep _ rfl rfl
  have hother := after_other hb hr hk s
  generalize after x s = s' at hother ⊢
  cases hother with
  | same => exact ⟨hs, rfl⟩
  | cleanup => exact hkeep _ rfl rfl
  | store a n data hd hn => exact ⟨hs.store hd hn, rfl⟩

/-- What every connection and every other client keeps. -/
structure Sound (size : Nat) (s : RamPool) : Prop where
  sized : s.Sized
  tabled : s.Tabled
  size : s.size = size

theorem Sound.after {size : Nat} {s : RamPool} (h : Sound size s) (x : Request) : Sound size (after x s) := by
  obtain ⟨hs, hz⟩ := after_sized x h.sized h.tabled
  exact ⟨hs, after_tabled x h.tabled, hz.trans h.size⟩

theorem Sound.finalState {size : Nat} {s : RamPool} (h : Sound size s) (now : Time) (op offset length : Nat)
    (c : Conn) : Sound size (finalState (handle now op offset length) (s, c)).1 :=
  h.after ⟨now, op, offset, length, c⟩

theorem clientLoop_sound (now : Time) {size : Nat} (fuel : Nat) : ∀ (s : RamPool) (c : Conn), Sound size s →
    Sound size (clientLoop now fuel (s, c)).pool := by
  induction fuel with
  | zero =>
    intro s c h
    exact h
  | succ fuel ih =>
    intro s c h
    by_cases hn : headerSize ≤ c.inbox.length
    · obtain ⟨cuts, hr⟩ := clientLoop_header now fuel s hn
      rw [hr]
      unfold fromHeader
      by_cases hm : (unpackHeader (c.inbox.take headerSize)).magic ≠ magic
      · simp only [if_pos hm]
        exact h
      simp only [if_neg hm]
      have hf := h.finalState now (unpackHeader (c.inbox.take headerSize)).op
        (unpackHeader (c.inbox.take headerSize)).offset (unpackHeader (c.inbox.take headerSize)).length
        { c with inbox := c.inbox.drop headerSize, cuts := cuts }
      unfold Lib.finalState at hf
      cases hh : (handle now (unpackHeader (c.inbox.take headerSize)).op
          (unpackHeader (c.inbox.take headerSize)).offset
          (unpackHeader (c.inbox.take headerSize)).length).run
            (s, { c with inbox := c.inbox.drop headerSize, cuts := cuts }) with
      | error e u =>
        rw [hh] at hf
        exact hf
      | ok x u =>
        rw [hh] at hf
        exact ih u.1 u.2 hf
    · obtain ⟨cuts, hr⟩ := clientLoop_short now fuel s (Nat.lt_of_not_le hn)
      rw [hr]
      exact h

theorem client_sound (now : Time) {size : Nat} {s : RamPool} (h : Sound size s) (c : Conn) :
    Sound size (client now s c).pool := clientLoop_sound now _ s c h

/-! ## A WRITE -/

/-- Past its check. -/
theorem run_write_valid (now : Time) {s : RamPool} {offset length : Nat}
    (hv : ¬ (maxBlock < length ∨ ¬ validRange offset length s)) (c : Conn) :
    (handle now opWrite offset length).run (s, c) =
      (receiveAndStore opWrite offset length offset length).run (s, c) := by
  simp only [handle_write, EStateM.run_bind, run_getHandler, run_raiseIf, if_neg hv]

/-- What is sent for a WRITE: nothing, or a header that announces the length again. -/
theorem run_write_sent (now : Time) (s : RamPool) {offset length : Nat} (hf : offset < 256 ^ 8)
    (hl : length < 256 ^ 4) {c : Conn} (hc : c.faults = []) (hs : c.sent = []) :
    (∃ e t, (handle now opWrite offset length).run (s, c) = .error e t ∧ t.2.sent = [] ∧
      (length ≤ c.inbox.length → ∀ text, e ≠ .connectionError text)) ∨
    ∃ t, (handle now opWrite offset length).run (s, c) = .ok () t ∧
      t.2.inbox = c.inbox.drop length ∧ t.2.sent = header opWrite offset length := by
  by_cases hv : maxBlock < length ∨ ¬ validRange offset length s
  · refine .inl ⟨.valueError "Invalid byte range", (s, c), ?_, hs, fun _ text h => by cases h⟩
    simp only [handle_write, EStateM.run_bind, run_getHandler, run_raiseIf, if_pos hv]
  rw [run_write_valid now hv]
  by_cases hn : length ≤ c.inbox.length
  · obtain ⟨cuts, hr⟩ := Conn.recvAll_ok (.connectionError "peer disconnected") (by decide : 0 < maxBlock) hn
    refine .inr ⟨(s.store offset length (c.inbox.take length), { c with
      inbox := c.inbox.drop length, cuts := cuts, sent := header opWrite offset length }), ?_, rfl, rfl⟩
    simp only [receiveAndStore, recvAll, EStateM.run_bind, run_onSnd, hr, run_modifyFst]
    rw [run_sendHeader (c := { c with inbox := c.inbox.drop length, cuts := cuts }) hc _
      (by decide : opWrite < 256 ^ 1) hf hl, hs, List.nil_append]
  · obtain ⟨cuts, hr⟩ := Conn.recvAll_short (.connectionError "peer disconnected")
      (by decide : 0 < maxBlock) (Nat.lt_of_not_le hn)
    refine .inl ⟨.connectionError "peer disconnected", (s, { c with inbox := [], cuts := cuts }), ?_, hs,
      fun h => absurd h hn⟩
    simp only [receiveAndStore, recvAll, EStateM.run_bind, run_onSnd, hr]

/-! ## One request on a connection -/

/-- What a borrower sends. -/
structure Spoken (m : Message) : Prop where
  wellFormed : m.WellFormed
  op : m.op = opRead ∨ m.op = opWrite ∨ m.op = opBorrow ∨ m.op = opRelease ∨ m.op = opKeepalive

theorem lookup_refuses {now : Time} {op offset : Nat} {f : RamPool → RamPool} {s : RamPool} {c : Conn}
    (hc : c.faults = []) (ho : op < 256 ^ 1) (hf : offset < 256 ^ 8) {e : Exc} {t : RamPool × Conn}
    (h : (do let _ ← onFst (getLease now offset)
             onFst (modify f)
             sendHeader op offset 0 : Handler Unit).run (s, c) = .error e t) :
    t.2.sent = c.sent ∧ ∀ text, e ≠ .connectionError text := by
  rw [EStateM.run_bind, run_onFst, run_getLease] at h
  simp only at h
  cases hl : s.leases.get? offset with
  | none =>
    rw [hl] at h
    cases h
    exact ⟨rfl, fun text h => by cases h⟩
  | some l =>
    rw [hl] at h
    by_cases ha : l.Alive now
    · simp only [if_pos ha, EStateM.run_bind, run_modifyFst, run_sendHeader hc _ ho hf (show 0 < 256 ^ 4 by decide)] at h
      cases h
    · simp only [if_neg ha] at h
      cases h
      exact ⟨rfl, fun text h => by cases h⟩

/-- A request that is refused is not answered, and what is raised is not the end of the connection unless
its payload is missing. -/
theorem handle_refuses {now : Time} {s : RamPool} {m : Message} (hm : Spoken m) {c : Conn} (hc : c.faults = [])
    (hs : c.sent = []) {e : Exc} {t : RamPool × Conn}
    (h : (handle now m.op m.offset m.length).run (s, c) = .error e t) :
    t.2.sent = [] ∧ (m.payload.length ≤ c.inbox.length → ∀ text, e ≠ .connectionError text) := by
  obtain ⟨-, hf, hl⟩ := hm.wellFormed.fits
  rcases hm.op with hop | hop | hop | hop | hop
  · rw [hop] at h
    simp only [handle_read, EStateM.run_bind, run_getHandler, run_raiseIf] at h
    by_cases hv : maxBlock < m.length ∨ ¬ validRange m.offset m.length s
    · rw [if_pos hv] at h
      cases h
      exact ⟨hs, fun _ text h => by cases h⟩
    · rw [if_neg hv] at h
      simp only [run_loadAndSend hc s (show opRead < 256 ^ 1 by decide) hf hl] at h
      cases h
  · rw [hop] at h
    obtain ⟨e', u, hr, hsent, he⟩ | ⟨u, hr, -⟩ := run_write_sent now s hf hl hc hs
    · rw [hr] at h
      cases h
      rw [hm.wellFormed.length hop] at he
      exact ⟨hsent, he⟩
    · rw [hr] at h
      cases h
  · rw [hop, handle_borrow, run_borrow] at h
    split at h
    · cases h
      exact ⟨hs, fun _ text h => by cases h⟩
    cases hfree : findFreeRegion now (RamPool.roundUp m.length) (s.cleanup now) with
    | none =>
      rw [hfree] at h
      cases h
      exact ⟨hs, fun _ text h => by cases h⟩
    | some a =>
      rw [hfree] at h
      simp only [run_sendLeaseReply _ hc] at h
      split at h
      · cases h
      · cases h
        exact ⟨hs, fun _ text h => by cases h⟩
  · rw [hop, handle_release] at h
    obtain ⟨hsent, he⟩ := lookup_refuses hc (by decide) hf h
    exact ⟨hsent.trans hs, fun _ => he⟩
  · rw [hop, handle_keepalive] at h
    obtain ⟨hsent, he⟩ := lookup_refuses hc (by decide) hf h
    exact ⟨hsent.trans hs, fun _ => he⟩

/-- A handler that returns has taken the whole payload of its request. -/
theorem handle_takes {now : Time} {s : RamPool} {m : Message} (hm : m.WellFormed) {cuts : List Nat}
    {t : RamPool × Conn}
    (h : (handle now m.op m.offset m.length).run (s, { inbox := m.payload, cuts := cuts }) = .ok () t) :
    t.2.inbox = [] := by
  obtain ⟨k, hk⟩ := (orderly_handle now m.op m.offset m.length).takes (s, { inbox := m.payload, cuts := cuts })
  unfold finalState at hk
  rw [h] at hk
  simp only at hk
  by_cases hw : m.op = opWrite
  · obtain ⟨-, hf, hl⟩ := hm.fits
    rw [hw] at h
    obtain ⟨e, u, hr, -, -⟩ | ⟨u, hr, hi, -⟩ := run_write_sent now s (c := { inbox := m.payload, cuts := cuts })
      hf hl rfl rfl
    · rw [hr] at h
      cases h
    · rw [hr] at h
      cases h
      rw [hi, hm.length hw, List.drop_length]
  · rw [hk, hm.payload hw, List.drop_nil]

/-- The header of an answer announces at least the bytes that follow it. -/
def Answers (reply : Bytes) : Prop :=
  ∃ op offset length body, op < 256 ^ 1 ∧ offset < 256 ^ 8 ∧ length < 256 ^ 4 ∧ body.length ≤ length ∧
    reply = header op offset length ++ body

theorem handle_answer {now : Time} {s : RamPool} (hs : s.Sized) {op offset length : Nat} (hr : op ≠ opBlockRead)
    {c : Conn} {t : RamPool × Conn} (h : (handle now op offset length).run (s, c) = .ok () t)
    (hc : c.sent = []) : Answers t.2.sent := by
  obtain ⟨rlen, plen, hlen, rop, roff, body, ho, hf, hl, rfl, hsent⟩ := handle_reply hs.length_memory h
  rw [hc, List.nil_append] at hsent
  refine ⟨rop, roff, rlen, body, ho, hf, hl, ?_, hsent⟩
  unfold ReplyLengths at hlen
  split at hlen
  · omega
  split at hlen <;> omega

section Whole

variable {now : Time} {s : RamPool} {m : Message}

theorem bytes_split (hm : m.WellFormed) :
    headerSize ≤ m.bytes.length ∧ m.bytes.take headerSize = m.header ∧ m.bytes.drop headerSize = m.payload ∧
      unpackHeader m.header = ⟨magic, m.op, m.offset, m.length⟩ := by
  have hlen : m.header.length = headerSize := length_header ..
  unfold Message.bytes
  refine ⟨?_, ?_, ?_, Borrower.unpack_header hm.fits⟩
  · rw [List.length_append]
    omega
  · rw [← hlen, List.take_left]
  · rw [← hlen, List.drop_left]

/-- **A whole request**: the server handles it and waits for the next, or it refuses it and the connection
ends. -/
theorem client_whole (now : Time) (s : RamPool) (hm : Spoken m) :
    (∃ cuts p c, (handle now m.op m.offset m.length).run (s, { inbox := m.payload, cuts := cuts }) = .ok () (p, c) ∧
      (client now s { inbox := m.bytes }).pool = p ∧ (client now s { inbox := m.bytes }).conn.sent = c.sent ∧
      (client now s { inbox := m.bytes }).handled = [⟨m.header, m.payload, true⟩] ∧
      (client now s { inbox := m.bytes }).ended = .connectionError "peer disconnected") ∨
    ((client now s { inbox := m.bytes }).conn.sent = [] ∧
      ∀ text, (client now s { inbox := m.bytes }).ended ≠ .connectionError text) := by
  obtain ⟨hle, ht, hd, hu⟩ := bytes_split hm.wellFormed
  obtain ⟨cuts, hrun⟩ := clientLoop_header now m.bytes.length s (c := { inbox := m.bytes }) hle
  unfold client
  rw [hrun]
  simp only [fromHeader, ht, hd, hu, ne_eq, not_true_eq_false, if_false]
  cases hh : (handle now m.op m.offset m.length).run (s, { inbox := m.payload, cuts := cuts }) with
  | ok u t =>
    left
    obtain ⟨p, c⟩ := t
    have hi : c.inbox = [] := handle_takes hm.wellFormed hh
    obtain ⟨k, hk⟩ : ∃ k, m.bytes.length = k + 1 := ⟨m.bytes.length - 1, by
      have : 0 < headerSize := by decide
      omega⟩
    obtain ⟨cuts', hshort⟩ := clientLoop_short now k p (c := c) (by rw [hi]; decide)
    refine ⟨cuts, p, c, hh, ?_⟩
    simp only [hk, hshort, taken, hi]
    refine ⟨trivial, trivial, ?_, trivial⟩
    rw [List.length_nil, Nat.sub_zero, List.take_length]
  | error e t =>
    right
    obtain ⟨hsent, he⟩ := handle_refuses hm rfl rfl hh
    exact ⟨hsent, he le_rfl⟩

theorem client_answers (now : Time) (hs : s.Sized) (hm : Spoken m) :
    Answers (client now s { inbox := m.bytes }).conn.sent ∨ (client now s { inbox := m.bytes }).conn.sent = [] := by
  have hr : m.op ≠ opBlockRead := by
    rcases hm.op with h | h | h | h | h <;> rw [h] <;> decide
  obtain ⟨cuts, p, c, hh, -, hsent, -⟩ | ⟨hsent, -⟩ := client_whole now s hm
  · rw [hsent]
    exact .inl (handle_answer hs hr hh rfl)
  · exact .inr hsent

/-- **However much of a WRITE arrives**, at most one header is sent for it. -/
theorem client_write_sent (now : Time) (hm : m.WellFormed) (hop : m.op = opWrite) (up : Nat) :
    (client now s { inbox := m.bytes.take up }).conn.sent = [] ∨
      (client now s { inbox := m.bytes.take up }).conn.sent = header opWrite m.offset m.length := by
  obtain ⟨hle, ht, hd, hu⟩ := bytes_split hm
  unfold client
  by_cases hup : headerSize ≤ (m.bytes.take up).length
  · rw [List.length_take] at hup
    obtain ⟨cuts, hrun⟩ := clientLoop_header now (m.bytes.take up).length s (c := { inbox := m.bytes.take up })
      (by rw [List.length_take]; exact hup)
    have ht' : (m.bytes.take up).take headerSize = m.header := by
      rw [List.take_take, Nat.min_eq_left (by omega), ht]
    obtain ⟨-, hf, hl⟩ := hm.fits
    rw [hrun]
    simp only [fromHeader, ht', hu, ne_eq, not_true_eq_false, if_false, hop]
    obtain ⟨e, t, hh, hsent, -⟩ | ⟨t, hh, hi, hsent⟩ := run_write_sent now s
      (c := { inbox := (m.bytes.take up).drop headerSize, cuts := cuts }) hf hl rfl rfl
    · rw [hh]
      exact .inl hsent
    · rw [hh]
      right
      obtain ⟨p, c⟩ := t
      have hnil : c.inbox = [] := by
        rw [hi, List.drop_drop, List.drop_eq_nil_iff, List.length_take]
        have := hm.length hop
        have hlen : m.bytes.length = headerSize + m.payload.length := by
          rw [Message.bytes, List.length_append, Borrower.length_header]
        omega
      obtain ⟨k, hk⟩ : ∃ k, (m.bytes.take up).length = k + 1 := ⟨(m.bytes.take up).length - 1, by
        have : 0 < headerSize := by decide
        rw [List.length_take]
        omega⟩
      obtain ⟨cuts', hshort⟩ := clientLoop_short now k p (c := c) (by rw [hnil]; decide)
      simp only [hk, hshort]
      exact hsent
  · obtain ⟨cuts, hshort⟩ := clientLoop_short now (m.bytes.take up).length s
      (c := { inbox := m.bytes.take up }) (Nat.lt_of_not_le hup)
    rw [hshort]
    exact .inl rfl

theorem client_sent (now : Time) (hs : s.Sized) (hm : Spoken m) (up : Nat) :
    (client now s { inbox := m.bytes.take up }).conn.sent = [] ∨
      Answers (client now s { inbox := m.bytes.take up }).conn.sent := by
  obtain ⟨hop, hf, hl⟩ := hm.wellFormed.fits
  by_cases hw : m.op = opWrite
  · rcases client_write_sent now (s := s) hm.wellFormed hw up with h | h
    · exact .inl h
    · exact .inr ⟨opWrite, m.offset, m.length, [], by decide, hf, hl, Nat.zero_le _, by rw [h, List.append_nil]⟩
  · have hlen : m.bytes.length = headerSize := by
      rw [Message.bytes, hm.wellFormed.payload hw, List.append_nil, Borrower.length_header]
    by_cases hup : headerSize ≤ up
    · rw [List.take_of_length_le (by omega)]
      exact (client_answers now hs hm).symm
    · obtain ⟨cuts, hshort⟩ := clientLoop_short now (m.bytes.take up).length s
        (c := { inbox := m.bytes.take up }) (show (m.bytes.take up).length < headerSize by
          rw [List.length_take]
          omega)
      unfold client
      rw [hshort]
      exact .inl rfl

end Whole

/-! ## A BORROW -/

/-- The region of a BORROW that is answered: inside the pool, and zeroed. -/
theorem run_borrow_ok (now : Time) {size requested : Nat} {s : RamPool} (h : Sound size s) {c : Conn}
    (hc : c.faults = []) {t : RamPool × Conn} (hrun : (borrow now requested).run (s, c) = .ok () t) :
    ∃ i a n, (i < 256 ^ 8 ∧ a < 256 ^ 8 ∧ n < 256 ^ 8) ∧ n = RamPool.roundUp requested ∧ a + n ≤ size ∧
      sub t.1.memory a n = List.replicate n 0 ∧ t.2.sent =
        c.sent ++ header opBorrow i leaseReplySize ++ (toBE 8 i ++ toBE 8 a ++ toBE 8 n) := by
  rw [run_borrow] at hrun
  by_cases hz : RamPool.roundUp requested ≤ 0 ∨ (s.cleanup now).size < RamPool.roundUp requested
  · rw [if_pos hz] at hrun
    cases hrun
  rw [if_neg hz] at hrun
  cases hfree : findFreeRegion now (RamPool.roundUp requested) (s.cleanup now) with
  | none =>
    rw [hfree] at hrun
    cases hrun
  | some a =>
    rw [hfree] at hrun
    simp only [run_sendLeaseReply _ hc] at hrun
    have hp := findFreeRegion_placed (h.tabled.cleanup now) (RamPool.roundUp_pos.mp (by omega)) hfree
    have hin : a + RamPool.roundUp requested ≤ s.size := hp.inside
    by_cases hfits : s.nextLeaseId < 256 ^ 8 ∧ a < 256 ^ 8 ∧ RamPool.roundUp requested < 256 ^ 8
    · rw [if_pos hfits] at hrun
      cases hrun
      refine ⟨s.nextLeaseId, a, _, hfits, rfl, by rw [← h.size]; exact hin, ?_, rfl⟩
      have hmem : ((s.cleanup now).insertLease now a (RamPool.roundUp requested)).2.memory.length = s.size :=
        h.sized.length_memory
      have hlen : (List.replicate (RamPool.roundUp requested) (0 : UInt8)).length = RamPool.roundUp requested :=
        List.length_replicate
      unfold granted RamPool.zero
      rw [RamPool.store_memory hmem hlen hin]
      have hself := sub_splice_self (l := ((s.cleanup now).insertLease now a (RamPool.roundUp requested)).2.memory)
        (d := List.replicate (RamPool.roundUp requested) 0) (a := a) (by rw [hlen, hmem]; exact hin)
      rwa [hlen] at hself
    · rw [if_neg hfits] at hrun
      cases hrun

theorem unpackLeaseReply_pack {i a n : Nat} (hi : i < 256 ^ 8) (ha : a < 256 ^ 8) (hn : n < 256 ^ 8) :
    unpackLeaseReply (toBE 8 i ++ toBE 8 a ++ toBE 8 n) = (i, a, n) := by
  have h0 := sub_of_append (p := []) (q := toBE 8 i) (r := toBE 8 a ++ toBE 8 n) (a := 0) (n := 8) rfl (by simp)
  have h1 := sub_of_append (p := toBE 8 i) (q := toBE 8 a) (r := toBE 8 n) (a := 8) (n := 8) (by simp) (by simp)
  have h2 := sub_of_append (p := toBE 8 i ++ toBE 8 a) (q := toBE 8 n) (r := []) (a := 16) (n := 8) (by simp)
    (by simp)
  rw [List.nil_append, ← List.append_assoc] at h0
  rw [List.append_nil] at h2
  simp only [unpackLeaseReply, h0, h1, h2, ofBE_toBE hi, ofBE_toBE ha, ofBE_toBE hn]

end RAMLinkServer

end RamLink
