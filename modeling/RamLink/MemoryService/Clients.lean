import RamLink.MemoryService.Segments

/-!
# RamLink.MemoryService.Clients

The clients of the local API: `RemoteAPI` of `ramlink_cache_manager.py`, `_Service` of
`ramlink_memory_api.py` and `LocalRamLinkClient` of `ramlink_dokan.cpp`, each over `LocalApi.client`.

An error is sent as text, where a READ is answered by a length and that many bytes.
`read_exact_or_fails`: each of the three decoders takes the second for data, and never the first.
`RemoteAPI.api_exactOn`, `Service.api_exact`: a read that returns has the length asked for.
-/

namespace RamLink

open Lib

namespace LocalApi

variable {μ : Type}

/-- `text` is `str(exc).encode()`, where the text has an encoding. -/
def client (memory : Memory μ) (text : Exc → Option Bytes) : LocalM μ Unit :=
  tryCatch (handle memory) fun e =>
    match text e with
    | none => return
    | some message => tryCatch (sendall (ascii "ERROR " ++ message ++ [10])) fun _ => return

/-- `f"{command} {offset} {length}"`. -/
def line (command : Text) (offset length : Int) : Text :=
  command ++ ' ' :: (intText offset ++ ' ' :: intText length)

end LocalApi

namespace RemoteMemory

/-- The memory that `LocalApi` is given; `status` are the items of `status()`. -/
def memory (status : RemoteMemory × Net → List Bytes) : Memory (RemoteMemory × Net) where
  read := read
  write := write
  sizeBytes s := s.1.length
  status := status

variable {offset length : Int} {s t : RemoteMemory × Net}

theorem readChunk_length {output output' : Bytes} {pos : Int}
    (h : (readChunk offset length output pos).run s = .ok output' t) :
    (output'.length : Int) = output.length + min maxTransfer (offset + length - pos) := by
  unfold readChunk at h
  obtain ⟨s₁, _, -, h⟩ := run_bind_ok.mp h
  obtain ⟨⟨_, _, body⟩, _, -, h⟩ := run_bind_ok.mp h
  obtain ⟨_, _, hcheck, h⟩ := run_bind_ok.mp h
  obtain ⟨hbody, -⟩ := run_raiseIf_ok.mp hcheck
  cases h
  rw [List.length_append]
  push_cast
  omega

theorem readLoop_length (n : Nat) : ∀ {pos : Int} {output output' : Bytes} {s t : RemoteMemory × Net},
    offset + length - pos ≤ n →
    ((rangeFrom (offset + length) maxTransfer n pos).foldlM (readChunk offset length) output).run s =
      .ok output' t →
    (output'.length : Int) = output.length + max 0 (offset + length - pos) := by
  induction n with
  | zero =>
    intro pos output output' s t hn h
    cases h
    omega
  | succ n ih =>
    intro pos output output' s t hn h
    unfold rangeFrom at h
    by_cases hpos : pos < offset + length
    · rw [if_pos hpos, List.foldlM_cons] at h
      obtain ⟨output₁, s₁, hchunk, h⟩ := run_bind_ok.mp h
      have h₁ := readChunk_length hchunk
      have := ih (by unfold maxTransfer; omega) h
      unfold maxTransfer at h₁ this
      omega
    · rw [if_neg hpos] at h
      cases h
      omega

/-- A read that returns has as many bytes as were asked for. -/
theorem read_length {d : Bytes} (h : (read offset length).run s = .ok d t) :
    (d.length : Int) = length := by
  unfold read at h
  obtain ⟨s₁, _, -, h⟩ := run_bind_ok.mp h
  obtain ⟨_, _, hcheck, h⟩ := run_bind_ok.mp h
  obtain ⟨hin, -⟩ := run_raiseIf_ok.mp hcheck
  have := readLoop_length _ (by omega) h
  rw [List.length_nil] at this
  omega

end RemoteMemory

/-- What becomes of a connection to the service. -/
inductive LocalService.Link where
  | refused
  /-- It ends before the service has its command. -/
  | closed
  /-- It ends before the reply. -/
  | unanswered (cuts : List Nat)
  /-- `cuts` are the segments of the command, `segments` those of the reply. -/
  | served (cuts segments : List Nat)

structure LocalService (μ : Type) where
  memory : μ
  /-- The next connections; past the end of the list they are refused. -/
  links : List LocalService.Link

namespace LocalService

variable {μ α : Type}

/-- A connection on which `stream` is sent, as its client finds it then. It has no outcome for a client that times
out while the service still waits for a payload that came with the line and was stripped with it. -/
def connect (memory : Memory μ) (text : Exc → Option Bytes) (stream : Bytes) :
    EStateM Exc (LocalService μ) Conn := do
  let self ← get
  let served := fun cuts =>
    finalState (LocalApi.client memory text) ({ inbox := stream, cuts := cuts }, self.memory)
  match self.links.headD .refused with
  | .refused => do
    set { self with links := self.links.tail }
    throw (.osError "connection refused")
  | .closed => do
    set { self with links := self.links.tail }
    return { inbox := [] }
  | .unanswered cuts => do
    set (LocalService.mk (served cuts).2 self.links.tail)
    return { inbox := [] }
  | .served cuts segments => do
    set (LocalService.mk (served cuts).2 self.links.tail)
    return { inbox := (served cuts).1.sent, cuts := segments }

/-- What a client does with its connection. -/
def receive (reply : EStateM Exc Conn α) (conn : Conn) : EStateM Exc (LocalService μ) α := fun s =>
  match reply.run conn with
  | .ok a _ => .ok a s
  | .error e _ => .error e s

end LocalService

namespace RemoteAPI

variable {μ : Type}

def recvAll (size : Nat) : EStateM Exc Conn Bytes :=
  Conn.recvAll (.connectionError "memory service disconnected") (1024 * 1024) size

/-- What `call` takes for the reply with `expect_bytes`. -/
def reply : EStateM Exc Conn Bytes := do
  let size := ofBE (← recvAll 4)
  recvAll size

/-- `call` with `expect_bytes`. -/
def callBytes (memory : Memory μ) (text : Exc → Option Bytes) (line : Text) (payload : Bytes) :
    EStateM Exc (LocalService μ) Bytes := do
  let conn ← LocalService.connect memory text (encodeAscii line ++ [10] ++ payload)
  LocalService.receive reply conn

/-- `call` without it. -/
def callText (memory : Memory μ) (text : Exc → Option Bytes) (line : Text) (payload : Bytes) :
    EStateM Exc (LocalService μ) Text := do
  let conn ← LocalService.connect memory text (encodeAscii line ++ [10] ++ payload)
  LocalService.receive (do return decode (← Conn.recv (1024 * 1024))) conn

def read (memory : Memory μ) (text : Exc → Option Bytes) (offset length : Int) :
    EStateM Exc (LocalService μ) Bytes :=
  callBytes memory text (LocalApi.line "READ".toList offset length) []

def write (memory : Memory μ) (text : Exc → Option Bytes) (offset : Int) (data : Bytes) :
    EStateM Exc (LocalService μ) Unit := do
  let result ← callText memory text (LocalApi.line "WRITE".toList offset data.length) data
  raiseIf (¬ "OK".toList <+: result) (.osError (String.ofList (strip result)))

def api (memory : Memory μ) (text : Exc → Option Bytes) : Api (LocalService μ) :=
  ⟨read memory text, write memory text⟩

end RemoteAPI

namespace Service

variable {μ : Type}

def recvAll (size : Nat) : EStateM Exc Conn Bytes :=
  Conn.recvAll (.connectionError "RAM-Link memory service disconnected") (1024 * 1024) size

/-- The rest of `read` once its command is sent. -/
def reply (length : Int) : EStateM Exc Conn Bytes := do
  let size := ofBE (← recvAll 4)
  raiseIf ((size : Int) ≠ length) (.osError s!"short RAM-Link read: expected {length}, got {size}")
  recvAll size

def read (memory : Memory μ) (text : Exc → Option Bytes) (offset length : Int) :
    EStateM Exc (LocalService μ) Bytes := do
  raiseIf (LocalApi.maxTransfer < length) (.valueError "service read exceeds 1 MiB")
  let conn ← LocalService.connect memory text
    (encodeAscii (LocalApi.line "READ".toList offset length) ++ [10])
  LocalService.receive (reply length) conn

def write (memory : Memory μ) (text : Exc → Option Bytes) (offset : Int) (data : Bytes) :
    EStateM Exc (LocalService μ) Unit := do
  raiseIf (LocalApi.maxTransfer < data.length) (.valueError "service write exceeds 1 MiB")
  let conn ← LocalService.connect memory text
    (encodeAscii (LocalApi.line "WRITE".toList offset data.length) ++ [10] ++ data)
  let reply ← LocalService.receive (do return strip (decode (← Conn.recv 64))) conn
  raiseIf (reply ≠ "OK".toList) (.osError (String.ofList reply))

def api (memory : Memory μ) (text : Exc → Option Bytes) : Api (LocalService μ) :=
  ⟨read memory text, write memory text⟩

end Service

namespace LocalRamLinkClient

variable {μ : Type}

def maxBlock : UInt32 := 1024 * 1024

/-- `recv_all`; raising stands for `return false`. -/
def recvAll (size : Nat) : EStateM Exc Conn Bytes :=
  Conn.recvAll (.connectionError "") (1024 * 1024) size

/-- The rest of `read` once its command is sent. -/
def reply (length : UInt32) : EStateM Exc Conn (Option Bytes) := do
  let response := ofBE (← recvAll 4)
  if response = length.toNat then
    if length ≠ 0 then return some (← recvAll length.toNat) else return some []
  else return none

/-- The bytes read, or `false`. -/
def read (memory : Memory μ) (text : Exc → Option Bytes) (offset : UInt64) (length : UInt32) :
    EStateM Exc (LocalService μ) (Option Bytes) :=
  if maxBlock < length then return none
  else
    tryCatch
      (do
        let conn ← LocalService.connect memory text
          (encodeAscii (LocalApi.line "READ".toList offset.toNat length.toNat) ++ [10])
        LocalService.receive (reply length) conn)
      fun _ => return none

end LocalRamLinkClient

/-! ## The reply to a READ -/

namespace LocalApi

variable {μ : Type} {memory : Memory μ} {text : Exc → Option Bytes} {offset length : Int} {cuts : List Nat}
  {m m' : μ} {d : Bytes} {e : Exc}

/-- A READ whose line the first `recv` takes whole. -/
theorem handle_read
    (hwhole : (encodeAscii (line "READ".toList offset length) ++ [10]).length ≤ firstLength cuts) :
    (handle memory).run
        ({ inbox := encodeAscii (line "READ".toList offset length) ++ [10], cuts := cuts }, m) =
      (handleRead memory ["READ".toList, intText offset, intText length]).run
        ({ inbox := [], cuts := cuts.tail }, m) := by
  have hread : Plain "READ".toList := plain_of_all (by decide) (by decide)
  obtain ⟨hstrip, hsplit⟩ := read_words hread (plain_intText offset) (plain_intText length)
  have hne : line "READ".toList offset length ≠ [] := List.cons_ne_nil _ _
  unfold firstLength at hwhole
  unfold handle
  rw [EStateM.run_bind, run_onFst, Conn.run_recv]
  simp only
  rw [List.take_of_length_le hwhole, List.drop_of_length_le hwhole]
  unfold line at hne ⊢
  rw [hstrip]
  unfold handleLine
  rw [EStateM.run_bind, EStateM.run_get]
  simp only
  rw [if_neg hne, hsplit]
  rfl

theorem run_handleRead_ok (hl : length ≤ maxTransfer) (hrun : (memory.read offset length).run m = .ok d m')
    (hd : (d.length : Int) = length) (c : Conn) (hf : c.faults = []) :
    (handleRead memory ["READ".toList, intText offset, intText length]).run (c, m) =
      .ok () ({ c with sent := c.sent ++ (toBE 4 d.length ++ d) }, m') := by
  have hsmall : ¬ 256 ^ 4 ≤ d.length := by
    unfold maxTransfer at hl
    omega
  unfold handleRead
  simp only [List.getD_cons_succ, List.getD_cons_zero, EStateM.run_bind, run_fromExcept, int_intText,
    run_raiseIf, if_neg (Int.not_lt.mpr hl), run_onSnd, hrun, if_neg hsmall, run_sendall _ hf]

theorem run_handleRead_error (hl : length ≤ maxTransfer)
    (hrun : (memory.read offset length).run m = .error e m') (c : Conn) :
    (handleRead memory ["READ".toList, intText offset, intText length]).run (c, m) = .error e (c, m') := by
  unfold handleRead
  simp only [List.getD_cons_succ, List.getD_cons_zero, EStateM.run_bind, run_fromExcept, int_intText,
    run_raiseIf, if_neg (Int.not_lt.mpr hl), run_onSnd, hrun]

/-- A reply that stands for no data: none, or an error text. -/
def ErrorReply (reply : Bytes) : Prop :=
  reply = [] ∨ ∃ message : Bytes, message.length < 2 ^ 30 ∧ reply = ascii "ERROR " ++ message ++ [10]

theorem client_data
    (hwhole : (encodeAscii (line "READ".toList offset length) ++ [10]).length ≤ firstLength cuts)
    (hl : length ≤ maxTransfer) (hrun : (memory.read offset length).run m = .ok d m')
    (hd : (d.length : Int) = length) :
    (finalState (client memory text)
      ({ inbox := encodeAscii (line "READ".toList offset length) ++ [10], cuts := cuts }, m)).1.sent =
        toBE 4 d.length ++ d := by
  unfold client
  rw [finalState_tryCatch, handle_read hwhole, run_handleRead_ok hl hrun hd _ rfl]
  rfl

theorem client_error
    (hwhole : (encodeAscii (line "READ".toList offset length) ++ [10]).length ≤ firstLength cuts)
    (hl : length ≤ maxTransfer) (hrun : (memory.read offset length).run m = .error e m')
    (he : ∀ message, text e = some message → message.length < 2 ^ 30) :
    ErrorReply (finalState (client memory text)
      ({ inbox := encodeAscii (line "READ".toList offset length) ++ [10], cuts := cuts }, m)).1.sent := by
  unfold client
  rw [finalState_tryCatch, handle_read hwhole, run_handleRead_error hl hrun]
  cases ht : text e with
  | none =>
    simp only [ht]
    exact .inl rfl
  | some message =>
    refine .inr ⟨message, he message ht, ?_⟩
    simp only [ht]
    rw [finalState_tryCatch, run_sendall _ rfl]
    rfl

end LocalApi

/-! ## The decoders -/

section Decode

open LocalApi

variable {reply d : Bytes}

/-- Bytes that are there are received however they are cut. -/
theorem recv_ok (lost : Exc) (cuts : List Nat) {size : Nat} (h : size ≤ reply.length) :
    ∃ cuts', (Conn.recvAll lost (1024 * 1024) size).run { inbox := reply, cuts := cuts } =
      .ok (reply.take size) { inbox := reply.drop size, cuts := cuts' } :=
  Conn.recvAll_ok (c := { inbox := reply, cuts := cuts }) lost (by omega) h

theorem recv_short (lost : Exc) (cuts : List Nat) {size : Nat} (h : reply.length < size) :
    ∃ c, (Conn.recvAll lost (1024 * 1024) size).run { inbox := reply, cuts := cuts } = .error lost c := by
  obtain ⟨cuts', hrun⟩ := Conn.recvAll_short (c := { inbox := reply, cuts := cuts }) lost
    (by omega : 0 < 1024 * 1024) h
  exact ⟨_, hrun⟩

/-- A length and that many bytes. -/
theorem recv_data (lost : Exc) (cuts : List Nat) (hd : d.length < 256 ^ 4) :
    ∃ cuts', (Conn.recvAll lost (1024 * 1024) 4).run { inbox := toBE 4 d.length ++ d, cuts := cuts } =
      .ok (toBE 4 d.length) { inbox := d, cuts := cuts' } ∧ ofBE (toBE 4 d.length) = d.length := by
  obtain ⟨cuts', hrun⟩ := recv_ok lost cuts (by simp : 4 ≤ (toBE 4 d.length ++ d).length)
  refine ⟨cuts', ?_, ofBE_toBE hd⟩
  rw [hrun, List.take_left' (length_toBE 4 _), List.drop_left' (length_toBE 4 _)]

/-- The bytes that are left are all asked for. -/
theorem recv_rest (lost : Exc) (cuts : List Nat) :
    ∃ c, (Conn.recvAll lost (1024 * 1024) d.length).run { inbox := d, cuts := cuts } = .ok d c := by
  obtain ⟨cuts', hrun⟩ := recv_ok lost cuts (le_refl d.length)
  exact ⟨_, by rw [hrun, List.take_length]⟩

/-- The first four letters of an error, read as a number, ask for more than the error is long. -/
theorem recv_error (lost : Exc) (cuts : List Nat) (h : ErrorReply reply) :
    (∃ c, (Conn.recvAll lost (1024 * 1024) 4).run { inbox := reply, cuts := cuts } = .error lost c) ∨
    ∃ size rest cuts', (Conn.recvAll lost (1024 * 1024) 4).run { inbox := reply, cuts := cuts } =
        .ok size { inbox := rest, cuts := cuts' } ∧
      rest.length < ofBE size ∧ 2 ^ 20 < ofBE size := by
  obtain rfl | ⟨message, hm, rfl⟩ := h
  · exact .inl (recv_short lost cuts (by simp))
  · have hsplit : ascii "ERROR " ++ message ++ [10] = ascii "ERRO" ++ (ascii "R " ++ message ++ [10]) := by
      rw [← List.append_assoc, ← List.append_assoc]
      rfl
    have hsize : ofBE (ascii "ERRO") = 1163022927 := by decide
    obtain ⟨cuts', hrun⟩ := recv_ok lost cuts
      (by simp [ascii] : 4 ≤ (ascii "ERROR " ++ message ++ [10]).length)
    refine .inr ⟨ascii "ERRO", ascii "R " ++ message ++ [10], cuts', ?_, ?_, ?_⟩
    · rw [hrun, hsplit]
      rfl
    · rw [hsize]
      simp only [List.length_append, List.length_singleton]
      have : (ascii "R ").length = 2 := rfl
      omega
    · rw [hsize]
      omega

theorem RemoteAPI.reply_data (segments : List Nat) (hd : d.length < 256 ^ 4) :
    ∃ c, RemoteAPI.reply.run { inbox := toBE 4 d.length ++ d, cuts := segments } = .ok d c := by
  obtain ⟨cuts, hsize, hof⟩ := recv_data (.connectionError "memory service disconnected")
    segments hd
  obtain ⟨c, hrest⟩ := recv_rest (d := d) (.connectionError "memory service disconnected") cuts
  refine ⟨c, ?_⟩
  simp only [RemoteAPI.reply, RemoteAPI.recvAll, EStateM.run_bind, hsize, hof, hrest]

theorem RemoteAPI.reply_error (segments : List Nat) (h : ErrorReply reply) :
    ∃ e c, RemoteAPI.reply.run { inbox := reply, cuts := segments } = .error e c := by
  unfold RemoteAPI.reply RemoteAPI.recvAll
  rw [EStateM.run_bind]
  obtain ⟨c, hsize⟩ | ⟨size, rest, cuts, hsize, hshort, -⟩ := recv_error
    (.connectionError "memory service disconnected") segments h
  · rw [hsize]
    exact ⟨_, _, rfl⟩
  · obtain ⟨c, hrun⟩ := recv_short (.connectionError "memory service disconnected") cuts hshort
    rw [hsize]
    exact ⟨_, _, hrun⟩

theorem Service.reply_data (segments : List Nat) (hd : d.length < 256 ^ 4) :
    ∃ c, (Service.reply d.length).run { inbox := toBE 4 d.length ++ d, cuts := segments } = .ok d c := by
  obtain ⟨cuts, hsize, hof⟩ := recv_data
    (.connectionError "RAM-Link memory service disconnected") segments hd
  obtain ⟨c, hrest⟩ := recv_rest (d := d) (.connectionError "RAM-Link memory service disconnected") cuts
  refine ⟨c, ?_⟩
  simp only [Service.reply, Service.recvAll, EStateM.run_bind, hsize, hof, run_raiseIf, ne_eq,
    not_true_eq_false, if_false, hrest]

theorem Service.reply_error (segments : List Nat) {length : Int} (hl : length ≤ maxTransfer) (h : ErrorReply reply) :
    ∃ e c, (Service.reply length).run { inbox := reply, cuts := segments } = .error e c := by
  unfold Service.reply Service.recvAll
  rw [EStateM.run_bind]
  obtain ⟨c, hsize⟩ | ⟨size, rest, cuts, hsize, -, hbig⟩ := recv_error
    (.connectionError "RAM-Link memory service disconnected") segments h
  · rw [hsize]
    exact ⟨_, _, rfl⟩
  · have hne : (ofBE size : Int) ≠ length := by
      unfold maxTransfer at hl
      omega
    rw [hsize]
    simp only [EStateM.run_bind, run_raiseIf, if_pos hne]
    exact ⟨_, _, rfl⟩

theorem LocalRamLinkClient.reply_data (segments : List Nat) {n : UInt32} (hn : n.toNat = d.length) :
    ∃ c, (LocalRamLinkClient.reply n).run { inbox := toBE 4 d.length ++ d, cuts := segments } =
      .ok (some d) c := by
  obtain ⟨cuts, hsize, hof⟩ := recv_data (.connectionError "") segments
    (hn ▸ n.toNat_lt : d.length < 256 ^ 4)
  obtain ⟨c, hrest⟩ := recv_rest (d := d) (.connectionError "") cuts
  unfold LocalRamLinkClient.reply LocalRamLinkClient.recvAll
  simp only [EStateM.run_bind, hsize, hof, hn, if_true]
  by_cases h0 : n = 0
  · obtain rfl : d = [] := List.length_eq_zero_iff.mp (by rw [← hn, h0]; rfl)
    rw [if_neg (not_not.mpr h0)]
    exact ⟨_, rfl⟩
  · rw [if_pos h0, EStateM.run_bind, hrest]
    exact ⟨_, rfl⟩

theorem LocalRamLinkClient.reply_error (segments : List Nat) {n : UInt32} (hn : n.toNat ≤ 2 ^ 20) (h : ErrorReply reply) :
    (∃ e c, (LocalRamLinkClient.reply n).run { inbox := reply, cuts := segments } = .error e c) ∨
    ∃ c, (LocalRamLinkClient.reply n).run { inbox := reply, cuts := segments } = .ok none c := by
  unfold LocalRamLinkClient.reply LocalRamLinkClient.recvAll
  rw [EStateM.run_bind]
  obtain ⟨c, hsize⟩ | ⟨size, rest, cuts, hsize, -, hbig⟩ := recv_error
    (.connectionError "") segments h
  · rw [hsize]
    exact .inl ⟨_, _, rfl⟩
  · have hne : ofBE size ≠ n.toNat := by omega
    rw [hsize]
    simp only
    rw [if_neg hne]
    exact .inr ⟨_, rfl⟩

end Decode

/-! ## A READ -/

namespace LocalService

open LocalApi

variable {μ : Type} {memory : Memory μ} {text : Exc → Option Bytes} {offset : Int} {length : Nat}
  {s s' : LocalService μ} {conn : Conn} {d : Bytes}

/-- Every client reads `data`. The offset and the length of the C++ client are machine words. -/
def EachReturns (memory : Memory μ) (text : Exc → Option Bytes) (s : LocalService μ) (offset : Int)
    (length : Nat) (data : Bytes) : Prop :=
  (∃ t, (RemoteAPI.read memory text offset length).run s = .ok data t) ∧
  (∃ t, (Service.read memory text offset length).run s = .ok data t) ∧
  ∀ (o : UInt64) (n : UInt32), o.toNat = offset → n.toNat = length →
    ∃ t, (LocalRamLinkClient.read memory text o n).run s = .ok (some data) t

/-- Every client raises or returns `false`. -/
def EachFails (memory : Memory μ) (text : Exc → Option Bytes) (s : LocalService μ) (offset : Int)
    (length : Nat) : Prop :=
  (∃ e t, (RemoteAPI.read memory text offset length).run s = .error e t) ∧
  (∃ e t, (Service.read memory text offset length).run s = .error e t) ∧
  ∀ (o : UInt64) (n : UInt32), o.toNat = offset → n.toNat = length →
    ∃ t, (LocalRamLinkClient.read memory text o n).run s = .ok none t

theorem run_remoteAPI_read (memory : Memory μ) (text : Exc → Option Bytes) (offset length : Int)
    (s : LocalService μ) : (RemoteAPI.read memory text offset length).run s =
      (connect memory text (encodeAscii (line "READ".toList offset length) ++ [10]) >>=
        receive RemoteAPI.reply).run s := by
  unfold RemoteAPI.read RemoteAPI.callBytes
  rw [List.append_nil]

theorem run_service_read (memory : Memory μ) (text : Exc → Option Bytes) {offset length : Int}
    (hl : length ≤ maxTransfer) (s : LocalService μ) : (Service.read memory text offset length).run s =
      (connect memory text (encodeAscii (line "READ".toList offset length) ++ [10]) >>=
        receive (Service.reply length)).run s := by
  unfold Service.read
  rw [EStateM.run_bind, run_raiseIf, if_neg (Int.not_lt.mpr hl)]

theorem run_localRamLinkClient_read (memory : Memory μ) (text : Exc → Option Bytes) (o : UInt64)
    {n : UInt32} (hl : (n.toNat : Int) ≤ maxTransfer) (s : LocalService μ) :
    (LocalRamLinkClient.read memory text o n).run s =
      (tryCatch (connect memory text (encodeAscii (line "READ".toList o.toNat n.toNat) ++ [10]) >>=
        receive (LocalRamLinkClient.reply n)) fun _ => return none).run s := by
  have hn : ¬ LocalRamLinkClient.maxBlock < n := by
    rw [UInt32.lt_iff_toNat_lt]
    have : LocalRamLinkClient.maxBlock.toNat = 1024 * 1024 := rfl
    unfold maxTransfer at hl
    omega
  unfold LocalRamLinkClient.read
  rw [if_neg hn]

theorem run_receive {α : Type} (reply : EStateM Exc Conn α) (conn : Conn) (s : LocalService μ) :
    (receive reply conn).run s = match reply.run conn with
      | .ok a _ => .ok a s
      | .error e _ => .error e s := rfl

theorem each_returns (hl : (length : Int) ≤ maxTransfer) (hd : d.length = length)
    (hconn : (connect memory text (encodeAscii (line "READ".toList offset length) ++ [10])).run s =
      .ok conn s') {cuts : List Nat} (hreply : conn = { inbox := toBE 4 d.length ++ d, cuts := cuts }) :
    EachReturns memory text s offset length d := by
  subst hd hreply
  have hsmall : d.length < 256 ^ 4 := by
    unfold maxTransfer at hl
    omega
  refine ⟨⟨s', ?_⟩, ⟨s', ?_⟩, fun o n ho hn => ⟨s', ?_⟩⟩
  · obtain ⟨c, hc⟩ := RemoteAPI.reply_data cuts hsmall
    rw [run_remoteAPI_read, EStateM.run_bind, hconn]
    simp only [run_receive, hc]
  · obtain ⟨c, hc⟩ := Service.reply_data cuts hsmall
    rw [run_service_read memory text hl, EStateM.run_bind, hconn]
    simp only [run_receive, hc]
  · obtain ⟨c, hc⟩ := LocalRamLinkClient.reply_data cuts hn
    rw [run_localRamLinkClient_read memory text o (by rw [hn]; exact hl), run_tryCatch, ho, hn,
      EStateM.run_bind, hconn]
    simp only [run_receive, hc]

theorem each_fails (hl : (length : Int) ≤ maxTransfer)
    (hconn : (∃ e t, (connect memory text (encodeAscii (line "READ".toList offset length) ++ [10])).run s =
        .error e t) ∨
      ∃ reply cuts t, (connect memory text (encodeAscii (line "READ".toList offset length) ++ [10])).run s =
        .ok { inbox := reply, cuts := cuts } t ∧ ErrorReply reply) :
    EachFails memory text s offset length := by
  unfold EachFails
  simp only [run_remoteAPI_read, run_service_read memory text hl, EStateM.run_bind]
  obtain ⟨e, t, hconn⟩ | ⟨reply, cuts, t, hconn, hreply⟩ := hconn
  · rw [hconn]
    refine ⟨⟨_, _, rfl⟩, ⟨_, _, rfl⟩, fun o n ho hn => ⟨t, ?_⟩⟩
    rw [run_localRamLinkClient_read memory text o (by rw [hn]; exact hl), run_tryCatch, ho, hn,
      EStateM.run_bind, hconn]
    rfl
  · rw [hconn]
    obtain ⟨e₁, c₁, h₁⟩ := RemoteAPI.reply_error cuts hreply
    obtain ⟨e₂, c₂, h₂⟩ := Service.reply_error cuts hl hreply
    simp only [run_receive, h₁, h₂]
    refine ⟨⟨_, _, rfl⟩, ⟨_, _, rfl⟩, fun o n ho hn => ⟨t, ?_⟩⟩
    have hn' : n.toNat ≤ 2 ^ 20 := by
      unfold maxTransfer at hl
      omega
    rw [run_localRamLinkClient_read memory text o (by rw [hn]; exact hl), run_tryCatch, ho, hn,
      EStateM.run_bind, hconn]
    obtain ⟨e, c, hc⟩ | ⟨c, hc⟩ := LocalRamLinkClient.reply_error cuts hn' hreply
    · simp only [run_receive, hc]
      rfl
    · simp only [run_receive, hc]

/-- What a client that has sent a READ finds on its connection: the data, where `memory.read` returned it
and the reply gets through, else an error or nothing. -/
theorem connect_read (memory : Memory μ) (text : Exc → Option Bytes) (m : μ) (links : List Link)
    (offset : Int) (length : Nat) (hl : (length : Int) ≤ maxTransfer)
    (hexact : ∀ d m', (memory.read offset length).run m = .ok d m' → d.length = length)
    (htext : ∀ e m', (memory.read offset length).run m = .error e m' →
      ∀ message, text e = some message → message.length < 2 ^ 30)
    (hwhole : ∀ cuts segments, links.headD .refused = .served cuts segments →
      (encodeAscii (line "READ".toList offset length) ++ [10]).length ≤ firstLength cuts) :
    (∃ cuts segments d m' t, links.headD .refused = .served cuts segments ∧
      (memory.read offset length).run m = .ok d m' ∧
      (connect memory text (encodeAscii (line "READ".toList offset length) ++ [10])).run ⟨m, links⟩ =
        .ok { inbox := toBE 4 d.length ++ d, cuts := segments } t) ∨
    ((∀ cuts segments d m', links.headD .refused = .served cuts segments →
        (memory.read offset length).run m ≠ .ok d m') ∧
      ((∃ e t, (connect memory text (encodeAscii (line "READ".toList offset length) ++ [10])).run ⟨m, links⟩ =
          .error e t) ∨
        ∃ reply cuts t, (connect memory text (encodeAscii (line "READ".toList offset length) ++ [10])).run
            ⟨m, links⟩ = .ok { inbox := reply, cuts := cuts } t ∧ ErrorReply reply)) := by
  simp only [connect, EStateM.run_bind, EStateM.run_get]
  cases hlink : links.headD .refused with
  | refused =>
    refine .inr ⟨fun _ _ _ _ h => ?_, .inl ⟨_, _, rfl⟩⟩
    cases h
  | closed =>
    refine .inr ⟨fun _ _ _ _ h => ?_, .inr ⟨[], [], _, rfl, .inl rfl⟩⟩
    cases h
  | unanswered cuts =>
    refine .inr ⟨fun _ _ _ _ h => ?_, .inr ⟨[], [], _, rfl, .inl rfl⟩⟩
    cases h
  | served cuts segments =>
    cases hrun : (memory.read offset length).run m with
    | ok d m' =>
      have hd := hexact d m' hrun
      simp only
      rw [client_data (hwhole cuts segments hlink) hl hrun (by omega)]
      exact .inl ⟨cuts, segments, d, m', _, rfl, rfl, rfl⟩
    | error e m' =>
      have hreply := client_error (hwhole cuts segments hlink) hl hrun (htext e m' hrun)
      refine .inr ⟨fun _ _ _ _ _ h => ?_, .inr ⟨_, segments, _, rfl, hreply⟩⟩
      cases h

/-- A READ of which the service has the whole line: every client returns what `memory.read` returned,
or fails where it raised or the connection ended without a reply. -/
theorem read_exact_or_fails (memory : Memory μ) (text : Exc → Option Bytes) (m : μ) (links : List Link)
    (offset : Int) (length : Nat) (hl : (length : Int) ≤ maxTransfer)
    (hexact : ∀ d m', (memory.read offset length).run m = .ok d m' → d.length = length)
    (htext : ∀ e m', (memory.read offset length).run m = .error e m' →
      ∀ message, text e = some message → message.length < 2 ^ 30)
    (hwhole : ∀ cuts segments, links.headD .refused = .served cuts segments →
      (encodeAscii (line "READ".toList offset length) ++ [10]).length ≤ firstLength cuts) :
    match links.headD .refused, (memory.read offset length).run m with
    | .served _ _, .ok d _ => EachReturns memory text ⟨m, links⟩ offset length d
    | _, _ => EachFails memory text ⟨m, links⟩ offset length := by
  obtain ⟨cuts, segments, d, m', t, hlink, hrun, hconn⟩ | ⟨hno, hconn⟩ :=
    connect_read memory text m links offset length hl hexact htext hwhole
  · rw [hlink, hrun]
    exact each_returns hl (hexact d m' hrun) hconn rfl
  · have hfails := each_fails hl hconn
    split
    · exact absurd ‹_› (hno _ _ _ _ ‹_›)
    · exact hfails

/-- A service whose `RemoteMemory` holds a lease; the provider has answered with two bytes. -/
def twoBytes : LocalService (RemoteMemory × Net) :=
  ⟨(⟨1, some 0, 1, 0, 1048576, none, 0⟩, ⟨[], [.answered opRead 0 [69, 82]], 1, [], fun _ => none⟩),
    [.served [20] [1, 2]]⟩

theorem read_exact_or_fails_twoBytes :
    EachReturns (RemoteMemory.memory fun _ => []) (fun _ => none) twoBytes 4096 2 [69, 82] := by
  have hdata : (match ((RemoteMemory.memory fun _ => []).read 4096 (2 : Nat)).run twoBytes.memory with
      | .ok d _ => d
      | .error _ _ => []) = [69, 82] := by decide +kernel
  have h := read_exact_or_fails (RemoteMemory.memory fun _ => []) (fun _ => none) twoBytes.memory
    twoBytes.links 4096 2 (by decide) (fun d m' h => by exact_mod_cast RemoteMemory.read_length h)
    (fun _ _ _ _ h => by cases h) (fun cuts segments h => by cases h; decide)
  cases hrun : ((RemoteMemory.memory fun _ => []).read 4096 (2 : Nat)).run twoBytes.memory with
  | error e t =>
    rw [hrun] at hdata
    cases hdata
  | ok d t =>
    rw [hrun] at hdata h
    exact hdata ▸ h

end LocalService

/-! ## The lengths of the answers -/

namespace LocalService

variable {μ : Type} {memory : Memory μ} {text : Exc → Option Bytes} {s t : LocalService μ}

/-- The service gets every READ below `size` whole. -/
def Whole (size : Int) (s : LocalService μ) : Prop :=
  ∀ cuts segments, .served cuts segments ∈ s.links → ∀ offset length : Int, 0 ≤ offset → 0 ≤ length →
    offset + length ≤ size →
    (encodeAscii (LocalApi.line "READ".toList offset length) ++ [10]).length ≤ LocalApi.firstLength cuts

theorem connect_links {stream : Bytes} {conn : Conn} (h : (connect memory text stream).run s = .ok conn t) :
    t.links = s.links.tail := by
  simp only [connect, EStateM.run_bind, EStateM.run_get] at h
  cases hlink : s.links.headD .refused <;> rw [hlink] at h <;> cases h <;> rfl

theorem receive_state {α : Type} {reply : EStateM Exc Conn α} {conn : Conn} {a : α}
    (h : (receive reply conn).run s = .ok a t) : t = s := by
  rw [run_receive] at h
  cases hreply : reply.run conn <;> rw [hreply] at h <;> cases h
  rfl

end LocalService

/-- `RemoteAPI` does not compare the two lengths; here the service is asked whole commands, and errors that
are not as long as their first four letters say. -/
theorem RemoteAPI.api_exactOn {μ : Type} (memory : Memory μ) (text : Exc → Option Bytes)
    (hexact : ∀ (offset length : Int) (m m' : μ) (d : Bytes),
      (memory.read offset length).run m = .ok d m' → (d.length : Int) = length)
    (htext : ∀ e message, text e = some message → message.length < 2 ^ 30)
    {limit : Int} (hlimit : limit ≤ LocalApi.maxTransfer) (size : Int) :
    (RemoteAPI.api memory text).ExactOn (LocalService.Whole size) limit size := by
  intro offset length s s' data h0 hn hle hsize hs hrun
  obtain ⟨n, rfl⟩ := Int.eq_ofNat_of_zero_le hn
  have hl : (n : Int) ≤ LocalApi.maxTransfer := by omega
  obtain ⟨m, links⟩ := s
  refine ⟨?_, ?_⟩
  · have hwhole : ∀ cuts segments, links.headD .refused = .served cuts segments →
        (encodeAscii (LocalApi.line "READ".toList offset n) ++ [10]).length ≤ LocalApi.firstLength cuts := by
      intro cuts segments hlink
      cases links with
      | nil => cases hlink
      | cons link links =>
        rw [List.headD_cons] at hlink
        exact hs cuts segments (hlink ▸ List.mem_cons_self ..) offset n h0 hn hsize
    obtain ⟨cuts, segments, d, m', t, hlink, hread, hconn⟩ | ⟨-, hconn⟩ :=
      LocalService.connect_read memory text m links offset n hl
        (fun d m' h => by exact_mod_cast hexact offset n m m' d h) (fun e _ _ => htext e) hwhole
    · have hd := hexact offset n m m' d hread
      obtain ⟨⟨t', hok⟩, -⟩ := LocalService.each_returns hl (by omega) hconn rfl
      have heq : EStateM.Result.ok data s' = .ok d t' := hrun.symm.trans hok
      cases heq
      exact hd
    · obtain ⟨⟨e, t, herror⟩, -⟩ := LocalService.each_fails hl hconn
      have heq : EStateM.Result.ok data s' = .error e t := hrun.symm.trans herror
      cases heq
  · have hrun' : (RemoteAPI.read memory text offset n).run ⟨m, links⟩ = .ok data s' := hrun
    rw [LocalService.run_remoteAPI_read] at hrun'
    obtain ⟨conn, t, hconn, hreply⟩ := run_bind_ok.mp hrun'
    obtain rfl := LocalService.receive_state hreply
    intro cuts segments hmem
    rw [LocalService.connect_links hconn] at hmem
    exact hs cuts segments (List.mem_of_mem_tail hmem)

/-- `_Service` compares the length it is sent with the one it asked for, so this needs nothing of the
service. -/
theorem Service.api_exact {μ : Type} (memory : Memory μ) (text : Exc → Option Bytes) :
    (Service.api memory text).Exact := by
  intro offset length s s' d _ hrun
  unfold Service.api Service.read at hrun
  obtain ⟨_, _, -, hrun⟩ := run_bind_ok.mp hrun
  obtain ⟨conn, t, -, hrun⟩ := run_bind_ok.mp hrun
  rw [LocalService.run_receive] at hrun
  cases hreply : (Service.reply length).run conn with
  | error e c =>
    rw [hreply] at hrun
    cases hrun
  | ok a c =>
    rw [hreply] at hrun
    cases hrun
    unfold Service.reply at hreply
    obtain ⟨size, _, -, hreply⟩ := run_bind_ok.mp hreply
    obtain ⟨_, _, hcheck, hreply⟩ := run_bind_ok.mp hreply
    obtain ⟨hsize, -⟩ := run_raiseIf_ok.mp hcheck
    have := Conn.length_recvAll (by omega) hreply
    omega

end RamLink
