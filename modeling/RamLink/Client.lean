import RamLink.Wire

/-!
# RamLink.Client

The borrowers' side of one RML1 exchange: send a header and a payload, receive a header, and, when
its length field is not zero, that many more bytes.

`rml_request` (memory service) and the `request` of `ramlink_client.py`, `client.py`,
`remote_cache.py` and `block_device_test.py` all receive by this rule; `ramlink_client.py` adds two
length checks. `receiveReply_framed` is what the rule needs from the provider.
-/

namespace RamLink

open Lib

/-- The body that follows a reply header. -/
def receiveBody (lost : Exc) (h : Header) : EStateM Exc Conn Bytes :=
  if h.length ≠ 0 then Conn.recvAll lost maxBlock h.length else return []

/-- Reply header, checks on it, body. -/
def receiveReply (lost : Exc) (check : Header → EStateM Exc Conn Unit) :
    EStateM Exc Conn (Nat × Nat × Bytes) := do
  let h := unpackHeader (← Conn.recvAll lost maxBlock headerSize)
  check h
  let body ← receiveBody lost h
  return (h.op, h.offset, body)

def sendRequest (op offset length : Nat) (payload : Bytes) : EStateM Exc Conn Unit := do
  let h ← fromExcept (packHeader op offset length)
  Conn.sendall h
  if payload ≠ [] then Conn.sendall payload

/-- The receiving half of `rml_request`. -/
def rmlReceive : EStateM Exc Conn (Nat × Nat × Bytes) :=
  receiveReply (.connectionError "peer disconnected") fun h =>
    raiseIf (h.magic ≠ magic) (.valueError "Invalid RAM-Link response magic")

/-- `ramlink_memory_service.py`: `rml_request(sock, op, offset, length, payload)`. -/
def rmlRequest (op offset length : Nat) (payload : Bytes) : EStateM Exc Conn (Nat × Nat × Bytes) := do
  sendRequest op offset length payload
  rmlReceive

/-- The receiving half of `ramlink_client.py`'s `request`. -/
def checkedReceive (op length : Nat) : EStateM Exc Conn (Nat × Nat × Bytes) :=
  receiveReply (.connectionError "Server disconnected") fun h => do
    raiseIf (h.magic ≠ magic) (.valueError "Invalid response")
    raiseIf (op = opRead ∧ h.length ≠ length)
      (.valueError s!"Read length mismatch: expected {length}, got {h.length}")

/-- `ramlink_client.py`: `request(sock, op, offset, length, data)`. -/
def clientRequest (op offset length : Nat) (data : Bytes) : EStateM Exc Conn (Nat × Nat × Bytes) := do
  raiseIf (op = opWrite ∧ length ≠ data.length) (.valueError "WRITE length must equal payload length")
  sendRequest op offset length data
  checkedReceive op length

/-- One header, whose length field is the number of bytes that follow it. -/
def Framed (reply : Bytes) : Prop :=
  ∃ op offset payload, op < 256 ^ 1 ∧ offset < 256 ^ 8 ∧ payload.length < 256 ^ 4 ∧
    reply = header op offset payload.length ++ payload

/-- A header followed by a payload is framed exactly if its length field says so. -/
theorem framed_iff {op offset rlen : Nat} {payload : Bytes} (ho : op < 256 ^ 1)
    (hf : offset < 256 ^ 8) (hl : rlen < 256 ^ 4) :
    Framed (header op offset rlen ++ payload) ↔ payload.length = rlen := by
  constructor
  · rintro ⟨op', offset', payload', ho', hf', hl', he⟩
    obtain ⟨hh, rfl⟩ := List.append_inj he (by simp)
    have hu := congrArg (fun b => (unpackHeader b).length) hh
    simp only [unpackHeader_header ho hf hl, unpackHeader_header ho' hf' hl'] at hu
    exact hu.symm
  · rintro rfl
    exact ⟨op, offset, payload, ho, hf, hl, rfl⟩

/-- A body of exactly the announced length is received whole. -/
theorem receiveBody_all (lost : Exc) {h : Header} {c : Conn} (hl : h.length = c.inbox.length) :
    ∃ cuts, (receiveBody lost h).run c = .ok c.inbox { c with inbox := [], cuts := cuts } := by
  obtain ⟨i, u, f, s⟩ := c
  by_cases h0 : h.length = 0
  · have hi : i = [] := List.eq_nil_of_length_eq_zero (hl.symm.trans h0)
    subst hi
    exact ⟨u, by simp [receiveBody, h0]⟩
  · obtain ⟨cuts, hr⟩ := Conn.recvAll_ok lost (by decide : 0 < maxBlock) (Nat.le_of_eq hl)
    refine ⟨cuts, ?_⟩
    rw [receiveBody, if_pos h0, hr, hl, List.take_length, List.drop_length]

/-- From a framed reply, and nothing else, the client returns after the last byte of it. -/
theorem receiveReply_framed (lost : Exc) {check : Header → EStateM Exc Conn Unit} {op offset : Nat}
    {payload : Bytes} {c : Conn} (ho : op < 256 ^ 1) (hf : offset < 256 ^ 8)
    (hl : payload.length < 256 ^ 4) (hi : c.inbox = header op offset payload.length ++ payload)
    (hcheck : ∀ c', (check ⟨magic, op, offset, payload.length⟩).run c' = .ok () c') :
    ∃ c', (receiveReply lost check).run c = .ok (op, offset, payload) c' ∧ c'.inbox = [] := by
  have hh : (header op offset payload.length).length = headerSize := length_header ..
  have hle : headerSize ≤ c.inbox.length := by rw [hi, List.length_append, hh]; omega
  obtain ⟨cuts, hr⟩ := Conn.recvAll_ok lost (by decide : 0 < maxBlock) hle
  have ht : c.inbox.take headerSize = header op offset payload.length := by
    rw [hi, ← hh, List.take_left]
  have hd : c.inbox.drop headerSize = payload := by rw [hi, ← hh, List.drop_left]
  rw [ht, hd] at hr
  have hu : unpackHeader (header op offset payload.length) = ⟨magic, op, offset, payload.length⟩ :=
    unpackHeader_header ho hf hl
  obtain ⟨cuts', hb⟩ := receiveBody_all lost (h := ⟨magic, op, offset, payload.length⟩)
    (c := { c with inbox := payload, cuts := cuts }) rfl
  refine ⟨{ c with inbox := [], cuts := cuts' }, ?_, rfl⟩
  simp only [receiveReply, EStateM.run_bind, hr, hu, hcheck, hb, EStateM.run_pure]

end RamLink
