import RamLink.MemoryService.Commands

/-!
# RamLink.MemoryService.Loopback

The connections between the local service and its clients.

Every command is a connection of its own, which may be refused, end before the service has the
command, end after it but before the reply, or carry the reply in any segments. `Arrival` is what the
service's single `recv` needs of the network.

`Memory.Keeps` says that a memory keeps a region of bytes, `Memory.RefusesWrites` that its writes raise.
-/

namespace RamLink

open Lib

/-! ## What the memory of the service does -/

/-- As long as `Good` holds, a read of bytes of the region returns these or raises. -/
structure Memory.Reads {μ : Type} (memory : Memory μ) (Good : μ → Prop) (region : μ → Bytes) : Prop where
  size : ∀ m, Good m → memory.sizeBytes m = (region m).length
  read : ∀ (m : μ) (offset length : Nat), Good m → offset + length ≤ (region m).length →
    Ends (memory.read offset length)
      (fun d t => (Good t ∧ region t = region m) ∧ d = sub (region m) offset length)
      (fun t => Good t ∧ region t = region m) m

/-- So does a write, but one that raises may have stored its bytes. -/
structure Memory.Keeps {μ : Type} (memory : Memory μ) (Good : μ → Prop) (region : μ → Bytes) : Prop
    extends memory.Reads Good region where
  write : ∀ (m : μ) (offset : Nat) (data : Bytes), Good m → offset + data.length ≤ (region m).length →
    Ends (memory.write offset data) (fun _ t => Good t ∧ region t = splice (region m) offset data)
      (fun t => Good t ∧ (region t = region m ∨ region t = splice (region m) offset data)) m

/-- As long as `Good` holds, every write of some data raises. -/
structure Memory.RefusesWrites {μ : Type} (memory : Memory μ) (Good : μ → Prop) : Prop where
  write : ∀ (m : μ) (offset : Nat) (data : Bytes), Good m → data ≠ [] →
    Ends (memory.write offset data) (fun _ _ => False) Good m

theorem Memory.array_keeps : Memory.array.Keeps (fun _ => True) RemoteArray.bytes := by
  refine ⟨⟨fun m _ => rfl, fun m offset length _ h => ?_⟩, fun m offset data _ h => ?_⟩
  · unfold Ends
    rw [LocalApi.run_arrayRead, if_neg (Nat.not_lt.mpr h)]
    exact ⟨⟨trivial, rfl⟩, rfl⟩
  · unfold Ends
    rw [LocalApi.run_arrayWrite, if_neg (Nat.not_lt.mpr h)]
    exact ⟨trivial, rfl⟩

/-! ## One connection -/

namespace LocalService

variable {μ α : Type} {memory : Memory μ} {text : Exc → Option Bytes} {s : LocalService μ}

/-- The service has the command of this connection, in segments `cuts`. -/
def Link.Gets (cuts : List Nat) : Link → Prop
  | .unanswered c => c = cuts
  | .served c _ => c = cuts
  | _ => False

/-- What a client finds on its connection: `Q reply m` holds of the bytes it gets and of the memory then. -/
theorem connect_ends {stream : Bytes} {Q : Bytes → μ → Prop} (hno : Q [] s.memory)
    (hgets : ∀ cuts, (s.links.headD .refused).Gets cuts → ∃ c m,
      finalState (LocalApi.client memory text) ({ inbox := stream, cuts := cuts }, s.memory) = (c, m) ∧
        Q [] m ∧ Q c.sent m) :
    Ends (connect memory text stream)
      (fun conn t => ∃ reply segments, conn = { inbox := reply, cuts := segments } ∧ Q reply t.memory)
      (fun t => t.memory = s.memory) s := by
  unfold connect
  refine .bind_get ?_
  simp only
  cases hlink : s.links.headD .refused with
  | refused => exact .bind_ok rfl (.throw rfl)
  | closed => exact .bind_ok rfl (.pure ⟨[], [], rfl, hno⟩)
  | unanswered cuts =>
    obtain ⟨c, m, hrun, hq, -⟩ := hgets cuts (hlink ▸ rfl)
    refine .bind_ok rfl (.pure ⟨[], [], rfl, ?_⟩)
    rw [hrun]
    exact hq
  | served cuts segments =>
    obtain ⟨c, m, hrun, -, hq⟩ := hgets cuts (hlink ▸ rfl)
    refine .bind_ok rfl (.pure ⟨c.sent, segments, by rw [hrun], ?_⟩)
    rw [hrun]
    exact hq

section

variable {Good : μ → Prop} {region : μ → Bytes}

/-- After a READ of bytes of the region: these, or an error. -/
theorem connect_read_ends (hmem : memory.Reads Good region) (hgood : Good s.memory)
    (htext : ∀ e message, text e = some message → message.length < 2 ^ 30) {offset length : Nat}
    (hl : (length : Int) ≤ LocalApi.maxTransfer) (hin : offset + length ≤ (region s.memory).length)
    (hgets : ∀ cuts, (s.links.headD .refused).Gets cuts →
      (encodeAscii (LocalApi.line "READ".toList offset length) ++ [10]).length ≤ LocalApi.firstLength cuts) :
    Ends (connect memory text (encodeAscii (LocalApi.line "READ".toList offset length) ++ [10]))
      (fun conn t => ∃ reply segments, conn = { inbox := reply, cuts := segments } ∧
        (Good t.memory ∧ region t.memory = region s.memory) ∧ (LocalApi.ErrorReply reply ∨
          reply = toBE 4 (sub (region s.memory) offset length).length ++ sub (region s.memory) offset length))
      (fun t => t.memory = s.memory) s := by
  have hlen : (sub (region s.memory) offset length).length = length := length_sub_of_le hin
  have hread := hmem.read s.memory offset length hgood hin
  refine connect_ends (Q := fun reply m => (Good m ∧ region m = region s.memory) ∧
    (LocalApi.ErrorReply reply ∨ reply = toBE 4 (sub (region s.memory) offset length).length ++
      sub (region s.memory) offset length)) ⟨⟨hgood, rfl⟩, .inl (.inl rfl)⟩ fun cuts hlink => ?_
  obtain ⟨c, hrun, hsent⟩ := LocalApi.client_read memory s.memory htext (hgets cuts hlink) hl
    (fun d m' h => by rw [(hread.of_ok h).2, hlen])
  have hkept : Good (finalState (memory.read offset length) s.memory) ∧
      region (finalState (memory.read offset length) s.memory) = region s.memory :=
    (hread.mono (fun _ _ h => h.1) (fun _ h => h)).finalState
  refine ⟨c, _, hrun, ⟨hkept, .inl (.inl rfl)⟩, hkept, ?_⟩
  cases hm : (memory.read offset length).run s.memory with
  | ok d m' =>
    rw [hm] at hsent
    obtain ⟨-, rfl⟩ := hread.of_ok hm
    exact .inr hsent
  | error e m' =>
    rw [hm] at hsent
    exact .inl hsent

end

/-- After a WRITE: its confirmation, only if the memory has been written, or an error. -/
theorem connect_write_ends {Q R : μ → Prop} {offset : Nat} {data : Bytes}
    (hwrite : Ends (memory.write offset data) (fun _ => Q) R s.memory) (hs : R s.memory) (hQ : ∀ m, Q m → R m)
    (htext : ∀ e message, text e = some message → message.length < 2 ^ 30)
    (hl : (data.length : Int) ≤ LocalApi.maxTransfer)
    (hgets : ∀ cuts, (s.links.headD .refused).Gets cuts →
      (encodeAscii (LocalApi.line "WRITE".toList offset data.length) ++ [10]).length ≤ LocalApi.firstLength cuts) :
    Ends (connect memory text (encodeAscii (LocalApi.line "WRITE".toList offset data.length) ++ [10] ++ data))
      (fun conn t => ∃ reply segments, conn = { inbox := reply, cuts := segments } ∧
        ((reply = ascii "OK\n" ∧ Q t.memory) ∨ (LocalApi.ErrorReply reply ∧ R t.memory)))
      (fun t => t.memory = s.memory) s := by
  refine connect_ends (Q := fun reply m => (reply = ascii "OK\n" ∧ Q m) ∨ (LocalApi.ErrorReply reply ∧ R m))
    (.inr ⟨.inl rfl, hs⟩) fun cuts hlink => ?_
  obtain ⟨c, m, hrun, hsent⟩ := LocalApi.client_write htext (hgets cuts hlink) hl hwrite hs
  exact ⟨c, m, hrun, .inr ⟨.inl rfl, hsent.elim (fun h => hQ m h.2) fun h => h.2⟩, hsent⟩

theorem receive_ends {reply : EStateM Exc Conn α} {conn : Conn} {Q : α → LocalService μ → Prop}
    {R : LocalService μ → Prop} (h : ∀ a c, reply.run conn = .ok a c → Q a s)
    (hr : ∀ e c, reply.run conn = .error e c → R s) : Ends (receive reply conn) Q R s := by
  unfold Ends
  rw [run_receive]
  cases hrun : reply.run conn with
  | ok a c => exact h a c hrun
  | error e c => exact hr e c hrun

end LocalService

/-! ## The network between the two -/

/-- How the bytes of a connection come in at the service: its first `recv` takes the whole command, and
whatever it takes of the data after it. -/
structure Arrival where
  cuts : Bytes → Bytes → List Nat
  command : ∀ command data, command ≠ [] → command.length ≤ 4096 →
    command.length ≤ LocalApi.firstLength (cuts command data)

inductive Loopback.Link where
  | refused
  /-- It ends before the service has its command. -/
  | closed
  /-- It ends before the reply. -/
  | unanswered (arrival : Arrival)
  | served (arrival : Arrival) (segments : List Nat)

structure Loopback (μ : Type) where
  memory : μ
  /-- The next connections; past the end of the list they are refused. -/
  links : List Loopback.Link

namespace Loopback

open LocalApi

variable {μ α : Type}

/-- The connection on which this is sent. -/
def Link.carry (command data : Bytes) : Link → LocalService.Link
  | .refused => .refused
  | .closed => .closed
  | .unanswered arrival => .unanswered (arrival.cuts command data)
  | .served arrival segments => .served (arrival.cuts command data) segments

/-- A call that sends this on the next connection, if it makes one. -/
def send (command data : Bytes) (call : EStateM Exc (LocalService μ) α) : EStateM Exc (Loopback μ) α := fun s =>
  match call.run ⟨s.memory, [(s.links.headD .refused).carry command data]⟩ with
  | .ok a t => .ok a ⟨t.memory, if t.links = [] then s.links.tail else s.links⟩
  | .error e t => .error e ⟨t.memory, if t.links = [] then s.links.tail else s.links⟩

def region (region : μ → Bytes) (s : Loopback μ) : Bytes := region s.memory

theorem gets_carry {command data : Bytes} (hne : command ≠ []) (hlen : command.length ≤ 4096) {link : Link}
    {cuts : List Nat} (h : (link.carry command data).Gets cuts) : command.length ≤ firstLength cuts := by
  cases link with
  | refused => exact h.elim
  | closed => exact h.elim
  | unanswered arrival => exact h ▸ arrival.command command data hne hlen
  | served arrival segments => exact h ▸ arrival.command command data hne hlen

theorem run_send (command data : Bytes) (call : EStateM Exc (LocalService μ) α) (s : Loopback μ) :
    (send command data call).run s =
      match call.run ⟨s.memory, [(s.links.headD .refused).carry command data]⟩ with
      | .ok a t => .ok a ⟨t.memory, if t.links = [] then s.links.tail else s.links⟩
      | .error e t => .error e ⟨t.memory, if t.links = [] then s.links.tail else s.links⟩ := rfl

theorem send_ends {command data : Bytes} {call : EStateM Exc (LocalService μ) α} {s : Loopback μ}
    {Q : α → μ → Prop} {R : μ → Prop}
    (h : Ends call (fun a t => Q a t.memory) (fun t => R t.memory)
      ⟨s.memory, [(s.links.headD .refused).carry command data]⟩) :
    Ends (send command data call) (fun a t => Q a t.memory) (fun t => R t.memory) s := by
  unfold Ends at h ⊢
  rw [run_send]
  cases hrun : call.run ⟨s.memory, [(s.links.headD .refused).carry command data]⟩ with
  | ok a t => rw [hrun] at h; exact h
  | error e t => rw [hrun] at h; exact h

/-- A command of two numbers below `2 ^ 64` fits the service's first `recv`. -/
theorem length_line (command : Text) (hc : command.length ≤ 5) {offset length : Nat} (ho : offset < 2 ^ 64)
    (hl : length < 2 ^ 64) : (encodeAscii (line command offset length) ++ [10]).length ≤ 4096 := by
  have hdigits : ∀ n < 2 ^ 64, (Nat.toDigits 10 n).length ≤ 20 := fun n hn =>
    (Nat.length_toDigits_le_iff (by omega) (by omega)).mpr (by omega)
  have h1 : (intText (offset : Int)).length ≤ 20 := hdigits offset ho
  have h2 : (intText (length : Int)).length ≤ 20 := hdigits length hl
  rw [List.length_append, encodeAscii, List.length_map, line, List.length_append, List.length_cons,
    List.length_append, List.length_cons, List.length_singleton]
  omega

end Loopback

/-- The command in one segment, and its data after it. -/
def Arrival.apart : Arrival where
  cuts command _ := [command.length]
  command command data hne hlen := by
    have := List.length_pos_iff.mpr hne
    simp only [LocalApi.firstLength, List.headD_cons]
    omega

/-- The command and its data in one segment. -/
def Arrival.together : Arrival where
  cuts _ _ := []
  command _ _ _ hlen := hlen

end RamLink
