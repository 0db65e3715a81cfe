import RamLink.MemoryService.LocalApi

/-!
# RamLink.MemoryService.Segments

When the answer of the local API depends on how its command was cut into segments.

`Request` is what a connection asks for. `Request.of` reads it off the bytes of the first `recv` and
those that follow them, and `Request.perform` says what comes of it.
-/

namespace RamLink

open Lib

namespace LocalApi

inductive Request where
  | nothing
  | hello
  | size
  | status
  | invalid
  | read (offset length : Nat)
  | write (offset : Nat) (data : Bytes)
  /-- It is refused, whatever the memory is. -/
  | fails (e : Exc)
deriving DecidableEq, Repr

namespace Request

def ofRead (parts : List Text) : Request :=
  match int (parts.getD 1 []), int (parts.getD 2 []) with
  | .error e, _ => .fails e
  | .ok _, .error e => .fails e
  | .ok offset, .ok length =>
    if maxTransfer < length then .fails (.valueError "Local READ is limited to 1 MiB")
    else if offset < 0 ∨ length < 0 then .fails (.valueError "Read outside borrowed region")
    else .read offset.toNat length.toNat

def ofWrite (parts : List Text) (rest : Bytes) : Request :=
  match int (parts.getD 1 []), int (parts.getD 2 []) with
  | .error e, _ => .fails e
  | .ok _, .error e => .fails e
  | .ok offset, .ok length =>
    if maxTransfer < length then .fails (.valueError "Local WRITE is limited to 1 MiB")
    else if rest.length < length.toNat then .fails (.connectionError "peer disconnected")
    else if offset < 0 then .fails (.valueError "Write outside borrowed region")
    else .write offset.toNat (rest.take length.toNat)

def ofLine (line : Text) (rest : Bytes) : Request :=
  if line = [] then .nothing
  else
    let parts := split line
    let command := upper (parts.headD [])
    if command = "HELLO".toList ∨ command = "PING".toList then .hello
    else if command = "SIZE".toList then .size
    else if command = "STATUS".toList then .status
    else if command = "READ".toList ∧ parts.length = 3 then ofRead parts
    else if command = "WRITE".toList ∧ parts.length = 3 then ofWrite parts rest
    else .invalid

/-- The request of a connection whose first bytes are `first`, and the next ones `rest`. -/
def of (first rest : Bytes) : Request := ofLine (strip (decode first)) rest

/-- What is raised, what is sent, and the memory afterwards. -/
def perform (m : RemoteArray) : Request → Option Exc × Bytes × RemoteArray
  | nothing => (none, [], m)
  | hello => (none, ascii "RAM-LINK LOCAL API 2\n", m)
  | size => (none, encodeAscii (Nat.toDigits 10 m.bytes.length ++ ['\n']), m)
  | status => (none, (m.info.intersperse [10]).flatten ++ [10], m)
  | invalid => (none, ascii "ERROR invalid command\n", m)
  | read offset length =>
    if m.bytes.length < offset + length then
      (some (.valueError "Read outside borrowed region"), [], m)
    else (none, toBE 4 length ++ sub m.bytes offset length, m)
  | write offset data =>
    if m.bytes.length < offset + data.length then
      (some (.valueError "Write outside borrowed region"), [], m)
    else (none, ascii "OK\n", { m with bytes := splice m.bytes offset data })
  | fails e => (some e, [], m)

end Request

/-- The number of bytes the first `recv` takes where so many are left. -/
def firstLength (cuts : List Nat) : Nat := min (max 1 (cuts.headD 4096)) 4096

variable {c : Conn} {m : RemoteArray}

theorem run_sendall {μ : Type} (data : Bytes) {c : Conn} (hf : c.faults = []) (m : μ) :
    (sendall data).run (c, m) = .ok () ({ c with sent := c.sent ++ data }, m) := by
  unfold sendall
  rw [run_onFst, Conn.run_sendall_nil data hf]

theorem observe_sendall {μ : Type} (data : Bytes) (hf : c.faults = []) (hs : c.sent = []) (m : μ) :
    observe ((sendall data).run (c, m)) = (none, data, m) := by
  rw [run_sendall data hf, observe, hs, List.nil_append]

theorem run_arrayRead (offset length : Nat) (m : RemoteArray) :
    (Memory.array.read offset length).run m =
      if m.bytes.length < offset + length then
        .error (.valueError "Read outside borrowed region") m
      else .ok (sub m.bytes offset length) m := by
  unfold Memory.array
  simp only [EStateM.run_bind, EStateM.run_get, run_raiseIf]
  by_cases h : m.bytes.length < offset + length
  · rw [if_pos h, if_pos (by omega)]
  · rw [if_neg h, if_neg (by omega), slice_nat]
    rfl

theorem run_arrayRead_neg {offset length : Int} (h : offset < 0 ∨ length < 0) (m : RemoteArray) :
    (Memory.array.read offset length).run m =
      .error (.valueError "Read outside borrowed region") m := by
  unfold Memory.array
  simp only [EStateM.run_bind, EStateM.run_get, run_raiseIf]
  rw [if_pos (by omega)]

theorem run_arrayWrite (offset : Nat) (data : Bytes) (m : RemoteArray) :
    (Memory.array.write offset data).run m =
      if m.bytes.length < offset + data.length then
        .error (.valueError "Write outside borrowed region") m
      else .ok () { m with bytes := splice m.bytes offset data } := by
  unfold Memory.array
  simp only [EStateM.run_bind, EStateM.run_get, run_raiseIf]
  by_cases h : m.bytes.length < offset + data.length
  · rw [if_pos h, if_pos (by omega)]
  · rw [if_neg h, if_neg (by omega), setSlice_nat m.bytes offset _ data rfl (Nat.le_of_not_lt h)]
    rfl

theorem run_arrayWrite_neg {offset : Int} (h : offset < 0) (data : Bytes) (m : RemoteArray) :
    (Memory.array.write offset data).run m =
      .error (.valueError "Write outside borrowed region") m := by
  unfold Memory.array
  simp only [EStateM.run_bind, EStateM.run_get, run_raiseIf]
  rw [if_pos (by omega)]

theorem handleRead_eq (parts : List Text) (hf : c.faults = []) (hs : c.sent = []) :
    observe ((handleRead Memory.array parts).run (c, m)) = (Request.ofRead parts).perform m := by
  unfold handleRead Request.ofRead
  rw [EStateM.run_bind, run_fromExcept]
  cases int (parts.getD 1 []) with
  | error e => simp [observe, hs, Request.perform]
  | ok offset =>
    simp only [EStateM.run_bind, run_fromExcept]
    cases int (parts.getD 2 []) with
    | error e => simp [observe, hs, Request.perform]
    | ok length =>
      simp only [run_raiseIf]
      by_cases hmax : maxTransfer < length
      · simp [hmax, observe, hs, Request.perform]
      · simp only [hmax, if_false, run_onSnd]
        by_cases hneg : offset < 0 ∨ length < 0
        · rw [run_arrayRead_neg hneg]
          simp [hneg, observe, hs, Request.perform]
        · obtain ⟨o, rfl⟩ := Int.eq_ofNat_of_zero_le (show 0 ≤ offset by omega)
          obtain ⟨l, rfl⟩ := Int.eq_ofNat_of_zero_le (show 0 ≤ length by omega)
          rw [run_arrayRead, if_neg hneg]
          by_cases hout : m.bytes.length < o + l
          · simp [hout, observe, hs, Request.perform]
          · have hlen : (sub m.bytes o l).length = l := length_sub_of_le (by omega)
            have hsmall : ¬ 256 ^ 4 ≤ l := by
              have : (l : Int) ≤ 1024 * 1024 := by simpa [maxTransfer] using hmax
              omega
            simp only [hout, hlen, hsmall, if_false, observe_sendall _ hf hs]
            simp [hout, Request.perform]

theorem handleWrite_eq (parts : List Text) (hf : c.faults = []) (hs : c.sent = []) :
    observe ((handleWrite Memory.array parts).run (c, m)) =
      (Request.ofWrite parts c.inbox).perform m := by
  unfold handleWrite Request.ofWrite
  rw [EStateM.run_bind, run_fromExcept]
  cases int (parts.getD 1 []) with
  | error e => simp [observe, hs, Request.perform]
  | ok offset =>
    simp only [EStateM.run_bind, run_fromExcept]
    cases int (parts.getD 2 []) with
    | error e => simp [observe, hs, Request.perform]
    | ok length =>
      have hpos : 0 < 1024 * 1024 := by omega
      simp only [run_raiseIf]
      by_cases hmax : maxTransfer < length
      · simp [hmax, observe, hs, Request.perform]
      · simp only [hmax, if_false, recvAll, run_onFst]
        by_cases hshort : c.inbox.length < length.toNat
        · obtain ⟨cuts, hr⟩ := Conn.recvAll_short (.connectionError "peer disconnected") hpos hshort
          rw [hr]
          simp [hshort, observe, hs, Request.perform]
        · obtain ⟨cuts, hr⟩ :=
            Conn.recvAll_ok (.connectionError "peer disconnected") hpos (Nat.le_of_not_lt hshort)
          rw [hr, if_neg hshort]
          simp only [run_onSnd]
          by_cases hneg : offset < 0
          · rw [run_arrayWrite_neg hneg]
            simp [hneg, observe, hs, Request.perform]
          · obtain ⟨o, rfl⟩ := Int.eq_ofNat_of_zero_le (show 0 ≤ offset by omega)
            rw [run_arrayWrite, if_neg hneg, Int.toNat_natCast, Request.perform]
            by_cases hout : m.bytes.length < o + (c.inbox.take length.toNat).length
            · rw [if_pos hout, if_pos hout]
              exact congrArg (fun sent => (_, sent, m)) hs
            · let c' : Conn := { c with inbox := c.inbox.drop length.toNat, cuts := cuts }
              rw [if_neg hout, if_neg hout]
              exact observe_sendall (c := c') _ hf hs _

theorem handleLine_eq (line : Text) (hf : c.faults = []) (hs : c.sent = []) :
    observe ((handleLine Memory.array line).run (c, m)) =
      (Request.ofLine line c.inbox).perform m := by
  unfold handleLine Request.ofLine
  rw [EStateM.run_bind, EStateM.run_get]
  dsimp only
  split
  · simp [observe, hs, Request.perform]
  · split
    · exact observe_sendall _ hf hs m
    · split
      · exact observe_sendall _ hf hs m
      · split
        · exact observe_sendall _ hf hs m
        · split
          · exact handleRead_eq _ hf hs
          · split
            · exact handleWrite_eq _ hf hs
            · exact observe_sendall _ hf hs m

/-- The request of a connection is what the first `recv` and the bytes after it say. -/
theorem served_eq (stream : Bytes) (cuts : List Nat) (m : RemoteArray) :
    served Memory.array stream cuts m =
      (Request.of (stream.take (firstLength cuts)) (stream.drop (firstLength cuts))).perform m := by
  let c : Conn := { inbox := stream.drop (firstLength cuts), cuts := cuts.tail }
  exact handleLine_eq (c := c) (strip (decode (stream.take (firstLength cuts)))) rfl rfl

/-! ## Different requests -/

namespace Request

def emptyArray : RemoteArray := ⟨[], [ascii "connected=True"]⟩

/-- What a request raises on an empty array, and the first byte it sends. -/
def mark : Request → Option Exc × Option UInt8
  | nothing => (none, none)
  | hello => (none, some 82)
  | size => (none, some 48)
  | status => (none, some 99)
  | invalid => (none, some 69)
  | read offset length =>
    if 0 < offset + length then (some (.valueError "Read outside borrowed region"), none)
    else (none, some 0)
  | write offset data =>
    if 0 < offset + data.length then (some (.valueError "Write outside borrowed region"), none)
    else (none, some 79)
  | fails e => (some e, none)

theorem perform_empty (r : Request) :
    ((r.perform emptyArray).1, (r.perform emptyArray).2.1.head?) = r.mark := by
  cases r with
  | read offset length =>
    unfold perform mark
    by_cases h : 0 < offset + length
    · simp [h, emptyArray]
    · obtain ⟨rfl, rfl⟩ : offset = 0 ∧ length = 0 := by omega
      rfl
  | write offset data =>
    unfold perform mark
    by_cases h : 0 < offset + data.length
    · simp [h, emptyArray]
    · simp only [emptyArray, List.length_nil, h, if_false]
      rfl
  | nothing => rfl
  | hello => rfl
  | size => rfl
  | status => rfl
  | invalid => rfl
  | fails e => rfl

def zeros (n : Nat) : RemoteArray := ⟨List.replicate n 0, []⟩

theorem perform_read_fits {offset length : Nat} {m : RemoteArray}
    (h : offset + length ≤ m.bytes.length) :
    (read offset length).perform m = (none, toBE 4 length ++ sub m.bytes offset length, m) :=
  if_neg (Nat.not_lt.mpr h)

theorem perform_write_fits {offset : Nat} {data : Bytes} {m : RemoteArray}
    (h : offset + data.length ≤ m.bytes.length) :
    (write offset data).perform m =
      (none, ascii "OK\n", { m with bytes := splice m.bytes offset data }) :=
  if_neg (Nat.not_lt.mpr h)

theorem read_ne_fails {offset length : Nat} {e : Exc}
    (h : ∀ m, (read offset length).perform m = (fails e).perform m) : False := by
  have hm := h (zeros (offset + length))
  rw [perform_read_fits (by simp [zeros])] at hm
  simp [perform] at hm

theorem write_ne_fails {offset : Nat} {data : Bytes} {e : Exc}
    (h : ∀ m, (write offset data).perform m = (fails e).perform m) : False := by
  have hm := h (zeros (offset + data.length))
  rw [perform_write_fits (by simp [zeros])] at hm
  simp [perform] at hm

theorem read_reaches {offset length offset' length' : Nat}
    (h : ∀ m, (read offset length).perform m = (read offset' length').perform m) :
    offset' + length' ≤ offset + length ∧ length = length' := by
  have hm := h (zeros (offset + length))
  have hfit : offset + length ≤ (zeros (offset + length)).bytes.length := by simp [zeros]
  rw [perform_read_fits hfit] at hm
  by_cases hfit' : offset' + length' ≤ (zeros (offset + length)).bytes.length
  · rw [perform_read_fits hfit', Prod.mk.injEq, Prod.mk.injEq] at hm
    have hlen := congrArg List.length hm.2.1
    rw [List.length_append, List.length_append, length_sub_of_le hfit, length_sub_of_le hfit',
      length_toBE, length_toBE] at hlen
    simp only [zeros, List.length_replicate] at hfit'
    exact ⟨hfit', by omega⟩
  · rw [perform, if_pos (Nat.lt_of_not_le hfit')] at hm
    simp at hm

theorem read_injective {offset length offset' length' : Nat}
    (h : ∀ m, (read offset length).perform m = (read offset' length').perform m) :
    offset = offset' ∧ length = length' := by
  have h1 := read_reaches h
  have h2 := read_reaches (fun m => (h m).symm)
  omega

theorem write_reaches {offset offset' : Nat} {data data' : Bytes}
    (h : ∀ m, (write offset data).perform m = (write offset' data').perform m) :
    offset' + data'.length ≤ offset + data.length := by
  have hm := h (zeros (offset + data.length))
  have hfit : offset + data.length ≤ (zeros (offset + data.length)).bytes.length := by simp [zeros]
  rw [perform_write_fits hfit] at hm
  by_cases hfit' : offset' + data'.length ≤ (zeros (offset + data.length)).bytes.length
  · simpa [zeros] using hfit'
  · rw [perform, if_pos (Nat.lt_of_not_le hfit')] at hm
    simp at hm

/-- Two writes that cannot be told apart leave the same array. -/
theorem write_same {offset offset' : Nat} {data data' : Bytes}
    (h : ∀ m, (write offset data).perform m = (write offset' data').perform m) {m : RemoteArray}
    (hfit : offset + data.length ≤ m.bytes.length) :
    splice m.bytes offset data = splice m.bytes offset' data' := by
  have hm := h m
  have hreach := write_reaches h
  rw [perform_write_fits hfit, perform_write_fits (by omega)] at hm
  simpa using hm

theorem write_starts {offset offset' : Nat} {data data' : Bytes}
    (h : ∀ m, (write offset data).perform m = (write offset' data').perform m) :
    offset' ≤ offset := by
  by_contra hlt
  have h1 := write_reaches h
  have h2 := write_reaches (fun m => (h m).symm)
  cases data with
  | nil =>
    rw [List.length_nil] at h1
    omega
  | cons b data =>
    -- an array that differs from the first write's first byte there
    let m : RemoteArray := ⟨List.replicate (offset + (b :: data).length) (b + 1), []⟩
    have hfit : offset + (b :: data).length ≤ m.bytes.length := by simp [m]
    have hsame : (splice m.bytes offset (b :: data))[offset]? =
        (splice m.bytes offset' data')[offset]? := by rw [write_same h hfit]
    rw [getElem?_splice _ _ hfit, getElem?_splice _ _ (by omega), if_pos (by simp), if_neg (by omega)]
      at hsame
    simp [m] at hsame

theorem write_injective {offset offset' : Nat} {data data' : Bytes}
    (h : ∀ m, (write offset data).perform m = (write offset' data').perform m) :
    offset = offset' ∧ data = data' := by
  have h1 := write_reaches h
  have h2 := write_reaches (fun m => (h m).symm)
  have ho : offset = offset' :=
    Nat.le_antisymm (write_starts (fun m => (h m).symm)) (write_starts h)
  refine ⟨ho, ?_⟩
  have hfit : offset + data.length ≤ (zeros (offset + data.length)).bytes.length := by simp [zeros]
  have hsame := write_same h hfit
  have hlen : data.length = data'.length := by omega
  have hfit' : offset' + data'.length ≤ (zeros (offset + data.length)).bytes.length := by omega
  generalize (zeros (offset + data.length)).bytes = l at hfit hfit' hsame
  rw [← sub_splice_self hfit, hsame, ho, hlen, sub_splice_self hfit']

/-- Requests that no array tells apart are the same. -/
theorem perform_injective {r r' : Request} (h : ∀ m, r.perform m = r'.perform m) : r = r' := by
  have he : r.mark = r'.mark := by rw [← perform_empty, ← perform_empty, h emptyArray]
  cases r with
  | read offset length =>
    cases r' with
    | read offset' length' =>
      obtain ⟨rfl, rfl⟩ := read_injective h
      rfl
    | fails e => exact (read_ne_fails h).elim
    | _ => simp only [mark] at he; split at he <;> (try split at he) <;> simp at he
  | write offset data =>
    cases r' with
    | write offset' data' =>
      obtain ⟨rfl, rfl⟩ := write_injective h
      rfl
    | fails e => exact (write_ne_fails h).elim
    | _ => simp only [mark] at he; split at he <;> (try split at he) <;> simp at he
  | fails e =>
    cases r' with
    | read offset' length' => exact (read_ne_fails (fun m => (h m).symm)).elim
    | write offset' data' => exact (write_ne_fails (fun m => (h m).symm)).elim
    | _ => simp_all [mark]
  | _ => cases r' <;> simp only [mark] at he <;> (try split at he) <;> simp_all

end Request

/-! ## The lines the clients send -/

/-- `f"{command} {offset} {length}"`. -/
def commandLine (command : Text) (offset length : Nat) : Text :=
  command ++ ' ' :: (Nat.toDigits 10 offset ++ ' ' :: Nat.toDigits 10 length)

theorem of_commandLine {command : Text} (hc : Plain command) (offset length : Nat) (rest : Bytes) :
    Request.of (encodeAscii (commandLine command offset length) ++ [10]) rest =
      Request.ofLine (commandLine command offset length) rest ∧
    split (commandLine command offset length) =
      [command, Nat.toDigits 10 offset, Nat.toDigits 10 length] := by
  obtain ⟨hstrip, hsplit⟩ := read_words hc (plain_digits offset) (plain_digits length)
  exact ⟨congrArg (fun line => Request.ofLine line rest) hstrip, hsplit⟩

/-- A READ line, whole. -/
theorem of_read (offset length : Nat) (hl : (length : Int) ≤ maxTransfer) (rest : Bytes) :
    Request.of (encodeAscii (commandLine "READ".toList offset length) ++ [10]) rest =
      .read offset length := by
  have hne : commandLine "READ".toList offset length ≠ [] := List.cons_ne_nil _ _
  have hread : Plain "READ".toList := plain_of_all (by decide) (by decide)
  obtain ⟨hof, hsplit⟩ := of_commandLine hread offset length rest
  rw [hof, Request.ofLine, if_neg hne, hsplit]
  show Request.ofRead _ = _
  simp [Request.ofRead, int_toDigits, Int.not_lt.mpr hl]

/-- A WRITE line, whole, and its payload. -/
theorem of_write (offset : Nat) (data : Bytes) (hl : (data.length : Int) ≤ maxTransfer) :
    Request.of (encodeAscii (commandLine "WRITE".toList offset data.length) ++ [10]) data =
      .write offset data := by
  have hne : commandLine "WRITE".toList offset data.length ≠ [] := List.cons_ne_nil _ _
  have hwrite : Plain "WRITE".toList := plain_of_all (by decide) (by decide)
  obtain ⟨hof, hsplit⟩ := of_commandLine hwrite offset data.length data
  rw [hof, Request.ofLine, if_neg hne, hsplit]
  show Request.ofWrite _ _ = _
  simp [Request.ofWrite, int_toDigits, Int.not_lt.mpr hl]

/-! ## What the cuts decide -/

/-- A first `recv` that takes the line, its newline and nothing else. -/
theorem of_whole {line payload : Bytes} {cuts : List Nat}
    (h : firstLength cuts = (line ++ [10]).length) :
    Request.of ((line ++ [10] ++ payload).take (firstLength cuts))
      ((line ++ [10] ++ payload).drop (firstLength cuts)) = Request.of (line ++ [10]) payload := by
  rw [h, List.take_left, List.drop_left]

/-- A connection gets what its line and payload ask for exactly if the first `recv` and the bytes
after it ask for the same; and what a WRITE or a READ in the range of the array asks for. -/
theorem served_iff (line payload : Bytes) (cuts : List Nat) :
    ((∀ m, served Memory.array (line ++ [10] ++ payload) cuts m =
        (Request.of (line ++ [10]) payload).perform m) ↔
      Request.of ((line ++ [10] ++ payload).take (firstLength cuts))
        ((line ++ [10] ++ payload).drop (firstLength cuts)) = Request.of (line ++ [10]) payload) ∧
    (∀ (offset : Nat) (m : RemoteArray),
      line = encodeAscii (commandLine "WRITE".toList offset payload.length) →
      (payload.length : Int) ≤ maxTransfer → offset + payload.length ≤ m.bytes.length →
      (Request.of (line ++ [10]) payload).perform m =
        (none, ascii "OK\n", { m with bytes := splice m.bytes offset payload })) ∧
    (∀ (offset length : Nat) (m : RemoteArray),
      line = encodeAscii (commandLine "READ".toList offset length) →
      (length : Int) ≤ maxTransfer → offset + length ≤ m.bytes.length →
      (Request.of (line ++ [10]) payload).perform m =
        (none, toBE 4 length ++ sub m.bytes offset length, m)) := by
  refine ⟨?_, fun offset m hline hl hfit => ?_, fun offset length m hline hl hfit => ?_⟩
  · simp only [served_eq]
    constructor
    · exact Request.perform_injective
    · intro h m
      rw [h]
  · rw [hline, of_write offset payload hl, Request.perform_write_fits hfit]
  · rw [hline, of_read offset length hl payload, Request.perform_read_fits hfit]

/-- A WRITE that is cut after its newline, the same in one segment, and a READ in one segment. -/
theorem served_iff_commands :
    (∀ m, served Memory.array (ascii "WRITE 1 2" ++ [10] ++ [7, 8]) [10] m =
      (Request.of (ascii "WRITE 1 2" ++ [10]) [7, 8]).perform m) ∧
    (¬ ∀ m, served Memory.array (ascii "WRITE 1 2" ++ [10] ++ [7, 8]) [] m =
      (Request.of (ascii "WRITE 1 2" ++ [10]) [7, 8]).perform m) ∧
    (Request.of (ascii "WRITE 1 2" ++ [10]) [7, 8]).perform ⟨[0, 0, 0, 0], []⟩ =
      (none, ascii "OK\n", ⟨[0, 7, 8, 0], []⟩) ∧
    (∀ m, served Memory.array (ascii "READ 1 2" ++ [10] ++ []) [] m =
      (Request.of (ascii "READ 1 2" ++ [10]) []).perform m) ∧
    (Request.of (ascii "READ 1 2" ++ [10]) []).perform ⟨[0, 7, 8, 0], []⟩ =
      (none, toBE 4 2 ++ [7, 8], ⟨[0, 7, 8, 0], []⟩) := by
  refine ⟨(served_iff _ [7, 8] [10]).1.mpr (by decide +kernel), fun h => ?_, ?_, ?_, ?_⟩
  · exact absurd ((served_iff _ [7, 8] []).1.mp h) (by decide +kernel)
  · exact (served_iff (ascii "WRITE 1 2") [7, 8] []).2.1 1 ⟨[0, 0, 0, 0], []⟩ (by decide +kernel)
      (by decide) (by decide)
  · exact (served_iff _ [] []).1.mpr (by decide +kernel)
  · exact (served_iff (ascii "READ 1 2") [] []).2.2 1 2 ⟨[0, 7, 8, 0], []⟩ (by decide +kernel) (by decide)
      (by decide)

/-- A WRITE that arrives in one segment is refused; cut after its newline, it is stored. -/
theorem served_differs : ¬ ∀ (line payload : Bytes) (cuts cuts' : List Nat) (m : RemoteArray),
    10 ∉ line → served Memory.array (line ++ [10] ++ payload) cuts m =
      served Memory.array (line ++ [10] ++ payload) cuts' m := by
  intro h
  let m : RemoteArray := ⟨[0, 0, 0, 0], []⟩
  let stream : Bytes := ascii "WRITE 0 4" ++ [10] ++ ascii "abcd"
  have hone : Request.of (stream.take (firstLength [])) (stream.drop (firstLength [])) =
      .invalid := by decide +kernel
  have htwo : Request.of (stream.take (firstLength [10])) (stream.drop (firstLength [10])) =
      .write 0 (ascii "abcd") := by decide +kernel
  have hsame : served Memory.array stream [] m = served Memory.array stream [10] m :=
    h (ascii "WRITE 0 4") (ascii "abcd") [] [10] m (by decide)
  rw [served_eq, served_eq, hone, htwo] at hsame
  exact absurd (congrArg (fun r => r.2.1) hsame) (by decide)

end LocalApi

end RamLink
