import RamLink.Lib.Outcome
import RamLink.MemoryService.Clients

/-!
# RamLink.MemoryService.Commands

What the service does with each command that its single `recv` takes whole.

The data of a WRITE must not come in with its line: what the first `recv` takes of them are words of the
command, or else missing from the data. `client_write` says that the memory is not written then.
-/

namespace RamLink

open Lib

namespace LocalApi

variable {μ : Type} {memory : Memory μ} {text : Exc → Option Bytes} {offset : Int} {cuts : List Nat}
  {m m' : μ} {payload : Bytes} {e : Exc}

/-! ## READ and SIZE -/

/-- What is sent in answer to a READ, and the memory then. -/
theorem client_read (memory : Memory μ) (m : μ) {length : Int}
    (htext : ∀ e message, text e = some message → message.length < 2 ^ 30)
    (hwhole : (encodeAscii (line "READ".toList offset length) ++ [10]).length ≤ firstLength cuts)
    (hl : length ≤ maxTransfer)
    (hexact : ∀ d m', (memory.read offset length).run m = .ok d m' → (d.length : Int) = length) :
    ∃ c, finalState (client memory text)
        ({ inbox := encodeAscii (line "READ".toList offset length) ++ [10], cuts := cuts }, m) =
      (c, finalState (memory.read offset length) m) ∧
      match (memory.read offset length).run m with
      | .ok d _ => c.sent = toBE 4 d.length ++ d
      | .error _ _ => ErrorReply c.sent := by
  unfold client
  rw [finalState_tryCatch, handle_read hwhole, finalState]
  cases hrun : (memory.read offset length).run m with
  | ok d m' =>
    rw [run_handleRead_ok hl hrun (hexact d m' hrun) _ rfl]
    exact ⟨_, rfl, rfl⟩
  | error e m' =>
    rw [run_handleRead_error hl hrun]
    simp only
    cases ht : text e with
    | none => exact ⟨_, rfl, .inl rfl⟩
    | some message =>
      simp only
      rw [finalState_tryCatch, run_sendall _ rfl]
      exact ⟨_, rfl, .inr ⟨message, htext e message ht, by simp⟩⟩

/-- What is sent in answer to SIZE. -/
theorem client_size (memory : Memory μ) (text : Exc → Option Bytes) (m : μ) (hwhole : 5 ≤ firstLength cuts) :
    ∃ c, finalState (client memory text) ({ inbox := ascii "SIZE\n", cuts := cuts }, m) = (c, m) ∧
      c.sent = encodeAscii (Nat.toDigits 10 (memory.sizeBytes m)) ++ [10] := by
  have hfive : (ascii "SIZE\n").length = 5 := rfl
  have hline : strip (decode (ascii "SIZE\n")) = "SIZE".toList := by decide
  have hh : (handle memory).run ({ inbox := ascii "SIZE\n", cuts := cuts }, m) =
      (sendall (encodeAscii (Nat.toDigits 10 (memory.sizeBytes m) ++ ['\n']))).run
        ({ inbox := [], cuts := cuts.tail }, m) := by
    unfold firstLength at hwhole
    unfold handle
    rw [EStateM.run_bind, run_onFst, Conn.run_recv]
    simp only
    rw [List.take_of_length_le (by omega), List.drop_of_length_le (by omega), hline]
    rfl
  unfold client
  rw [finalState_tryCatch, hh, run_sendall _ rfl]
  refine ⟨_, rfl, ?_⟩
  rw [encodeAscii, List.map_append]
  rfl

/-! ## WRITE -/

/-- The words of a WRITE, with those of the data that came in with it. -/
theorem handleLine_write (memory : Memory μ) (offset length : Int) (early : Bytes) :
    handleLine memory (strip (decode (encodeAscii (line "WRITE".toList offset length) ++ [10] ++ early))) =
      if split (decode early) = [] then handleWrite memory ["WRITE".toList, intText offset, intText length]
      else sendall (ascii "ERROR invalid command\n") := by
  have hsplit := read_words_append (w := "WRITE".toList) (plain_of_all (by decide) (by decide))
    (plain_intText offset) (plain_intText length) early
  unfold line
  generalize strip _ = words at hsplit ⊢
  have hne : words ≠ [] := by
    rintro rfl
    cases hsplit
  unfold handleLine
  simp only [if_neg hne, hsplit]
  cases split (decode early) with
  | nil => rfl
  | cons w ws => rfl

/-- What is left of the data is stored only if it is all of them. -/
theorem handleWrite_ends {Q R : μ → Prop} (hl : (payload.length : Int) ≤ maxTransfer)
    (hwrite : Ends (memory.write offset payload) (fun _ => Q) R m) (hm : R m) (k : Nat) (cuts : List Nat) :
    Ends (handleWrite memory ["WRITE".toList, intText offset, intText payload.length])
      (fun _ u => u.1.sent = ascii "OK\n" ∧ Q u.2) (fun u => (u.1.sent = [] ∧ u.1.faults = []) ∧ R u.2)
      ({ inbox := payload.drop k, cuts := cuts }, m) := by
  unfold Ends at hwrite
  unfold Ends handleWrite recvAll
  simp only [List.getD_cons_succ, List.getD_cons_zero, EStateM.run_bind, run_fromExcept, int_intText,
    run_raiseIf, if_neg (Int.not_lt.mpr hl), run_onFst, Int.toNat_natCast]
  have hlimit : 0 < 1024 * 1024 := by omega
  by_cases hall : payload.length ≤ (payload.drop k).length
  · have hdrop : payload.drop k = payload := (List.drop_suffix k payload).eq_of_length_le hall
    rw [hdrop]
    obtain ⟨cuts', hr⟩ := Conn.recvAll_ok (c := { inbox := payload, cuts := cuts })
      (.connectionError "peer disconnected") hlimit (le_refl payload.length)
    rw [hr]
    simp only [List.take_length, List.drop_length, run_onSnd]
    cases hrun : (memory.write offset payload).run m with
    | ok u t =>
      rw [hrun] at hwrite
      simp only
      rw [run_sendall _ rfl]
      exact ⟨rfl, hwrite⟩
    | error e t =>
      rw [hrun] at hwrite
      exact ⟨⟨rfl, rfl⟩, hwrite⟩
  · obtain ⟨cuts', hr⟩ := Conn.recvAll_short (c := { inbox := payload.drop k, cuts := cuts })
      (.connectionError "peer disconnected") hlimit (Nat.not_le.mp hall)
    rw [hr]
    exact ⟨⟨rfl, rfl⟩, hm⟩

/-- What is sent in answer to a WRITE, and the memory then. Data that came in with the line are taken for
words of it, or are missing. -/
theorem client_write {Q R : μ → Prop} (htext : ∀ e message, text e = some message → message.length < 2 ^ 30)
    (hwhole : (encodeAscii (line "WRITE".toList offset payload.length) ++ [10]).length ≤ firstLength cuts)
    (hl : (payload.length : Int) ≤ maxTransfer)
    (hwrite : Ends (memory.write offset payload) (fun _ => Q) R m) (hm : R m) :
    ∃ c t, finalState (client memory text)
        ({ inbox := encodeAscii (line "WRITE".toList offset payload.length) ++ [10] ++ payload,
           cuts := cuts }, m) = (c, t) ∧
      ((c.sent = ascii "OK\n" ∧ Q t) ∨ (ErrorReply c.sent ∧ R t)) := by
  generalize hcommand : encodeAscii (line "WRITE".toList offset payload.length) ++ [10] = command at hwhole ⊢
  have hhandle : Ends (handle memory)
      (fun _ u => (u.1.sent = ascii "OK\n" ∧ Q u.2) ∨ (ErrorReply u.1.sent ∧ R u.2))
      (fun u => (u.1.sent = [] ∧ u.1.faults = []) ∧ R u.2) ({ inbox := command ++ payload, cuts := cuts }, m) := by
    -- the first `recv`
    refine .bind_ok (by rw [run_onFst, Conn.run_recv]) ?_
    show Ends (handleLine memory (strip (decode ((command ++ payload).take (firstLength cuts))))) _ _
      ({ inbox := (command ++ payload).drop (firstLength cuts), cuts := cuts.tail }, m)
    rw [List.take_append, List.drop_append, List.take_of_length_le hwhole, List.drop_of_length_le hwhole,
      List.nil_append, ← hcommand, handleLine_write]
    split
    · exact (handleWrite_ends hl hwrite hm _ _).mono (fun _ _ h => .inl h) fun _ h => h
    · unfold Ends
      rw [run_sendall _ rfl]
      exact .inr ⟨.inr ⟨ascii "invalid command", by decide, rfl⟩, hm⟩
  have hclient : Ends (client memory text)
      (fun _ u => (u.1.sent = ascii "OK\n" ∧ Q u.2) ∨ (ErrorReply u.1.sent ∧ R u.2)) (fun _ => False)
      ({ inbox := command ++ payload, cuts := cuts }, m) := by
    refine hhandle.tryCatch fun e u hu => ?_
    obtain ⟨⟨hsent, hfaults⟩, hr⟩ := hu
    cases ht : text e with
    | none => exact .pure (.inr ⟨.inl hsent, hr⟩)
    | some message =>
      simp only
      refine .tryCatch_ok ?_
      unfold Ends
      obtain ⟨c, t⟩ := u
      rw [run_sendall _ hfaults]
      refine .inr ⟨.inr ⟨message, htext e message ht, ?_⟩, hr⟩
      simp only at hsent ⊢
      rw [hsent, List.nil_append]
  exact ⟨_, _, rfl, (hclient.mono (fun _ _ h => h) fun _ h => h.elim).finalState⟩

end LocalApi

end RamLink
