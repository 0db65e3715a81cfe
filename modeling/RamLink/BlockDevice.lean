import RamLink.Client
import RamLink.Server.Connection

/-!
# RamLink.BlockDevice

`RAMLinkBlockDevice` of `block_device_test.py`, the sector client, over one connection to
`RAMLinkServer.client`.

A `Link` is both ends of that connection. After each send of the device the server runs on what it
has received, and waits in `recv_all` for the rest of a request that is not complete; the device
then reads what has been sent back, and times out if that is too little.

* `SectorsAgree`: a write stores its data in its sectors and returns, a read returns its sectors,
  and neither leaves a byte of a reply on the connection.
* `sectorsAgree_iff`: that holds exactly for no sectors at all. The acknowledgement of a BLOCK_WRITE
  has the number of sectors as its length and no payload, so the device waits for bytes that never
  come; the length of a BLOCK_READ reply counts sectors and its payload has 512 times as many bytes
  (`read_first_bytes`).
-/

namespace RamLink

open Lib RAMLinkServer

namespace RAMLinkServer

/-! ## What the server does with the three block operations -/

section Handle

variable (now : Time) (s : RamPool) {offset length : Nat}

theorem run_blockInfo (offset length : Nat) {c : Conn} (hc : c.faults = []) :
    (handle now opBlockInfo offset length).run (s, c) = .ok () (s, { c with
      sent := c.sent ++ header opBlockInfo 0 16 ++ (toBE 8 sectorSize ++ toBE 8 (sectors s)) }) := by
  have h : (sendHeader opBlockInfo 0 16).run (s, c) = _ :=
    run_sendHeader hc s (by decide) (by decide) (by decide)
  have hl : (toBE 8 sectorSize ++ toBE 8 (sectors s)).length = 16 := by simp
  simp only [handle_blockInfo, EStateM.run_bind, run_getHandler, hl, h]
  exact run_sendall (c := { c with sent := c.sent ++ header opBlockInfo 0 16 }) hc s _

/-- After its two checks, a BLOCK_WRITE receives and stores whole sectors. -/
theorem run_blockWrite_checked (hs : offset + length ≤ sectors s)
    (hm : length * sectorSize ≤ maxBlock) (c : Conn) :
    (handle now opBlockWrite offset length).run (s, c) =
      (receiveAndStore opBlockWrite offset length (offset * sectorSize)
        (length * sectorSize)).run (s, c) := by
  have h1 : ¬ (sectors s < offset ∨ sectors s - offset < length) := by omega
  simp only [handle_blockWrite, EStateM.run_bind, run_getHandler, run_raiseIf, if_neg h1,
    if_neg (Nat.not_lt.mpr hm)]

/-- After its two checks, a BLOCK_READ loads and sends whole sectors. -/
theorem run_blockRead_checked (hs : offset + length ≤ sectors s)
    (hm : length * sectorSize ≤ maxBlock) (c : Conn) :
    (handle now opBlockRead offset length).run (s, c) =
      (loadAndSend opBlockRead offset length (offset * sectorSize)
        (length * sectorSize)).run (s, c) := by
  have h1 : ¬ (sectors s < offset ∨ sectors s - offset < length) := by omega
  simp only [handle_blockRead, EStateM.run_bind, run_getHandler, run_raiseIf, if_neg h1,
    if_neg (Nat.not_lt.mpr hm)]

/-- A whole payload is stored and acknowledged. -/
theorem run_blockWrite {payload : Bytes} (hs : offset + length ≤ sectors s)
    (hm : length * sectorSize ≤ maxBlock) (hf : offset < 256 ^ 8) (hl : length < 256 ^ 4)
    (hp : payload.length = length * sectorSize) (cuts : List Nat) :
    ∃ cuts', (handle now opBlockWrite offset length).run (s, { inbox := payload, cuts := cuts }) =
      .ok () (s.store (offset * sectorSize) (length * sectorSize) payload,
        { inbox := [], cuts := cuts', sent := header opBlockWrite offset length }) := by
  obtain ⟨cuts', hr⟩ := Conn.recvAll_ok (.connectionError "peer disconnected")
    (by decide : 0 < maxBlock) (c := { inbox := payload, cuts := cuts }) (Nat.le_of_eq hp.symm)
  simp only [← hp, List.take_length, List.drop_length] at hr
  refine ⟨cuts', ?_⟩
  rw [run_blockWrite_checked now s hs hm, ← hp]
  simp only [receiveAndStore, recvAll, EStateM.run_bind, run_onSnd, hr, run_modifyFst]
  rw [run_sendHeader rfl _ (by decide) hf hl, List.nil_append]

/-- Without its payload the request changes nothing. -/
theorem run_blockWrite_cut (hs : offset + length ≤ sectors s) (hm : length * sectorSize ≤ maxBlock)
    (hp : 0 < length) (cuts : List Nat) :
    ∃ cuts', (handle now opBlockWrite offset length).run (s, { inbox := [], cuts := cuts }) =
      .error (.connectionError "peer disconnected") (s, { inbox := [], cuts := cuts' }) := by
  obtain ⟨cuts', hr⟩ := Conn.recvAll_short (.connectionError "peer disconnected")
    (by decide : 0 < maxBlock) (c := { inbox := [], cuts := cuts })
    (show _ < length * sectorSize from Nat.mul_pos hp (by decide))
  refine ⟨cuts', ?_⟩
  rw [run_blockWrite_checked now s hs hm]
  simp only [receiveAndStore, recvAll, EStateM.run_bind, run_onSnd, hr]

theorem run_blockRead (hs : offset + length ≤ sectors s) (hm : length * sectorSize ≤ maxBlock)
    (hf : offset < 256 ^ 8) (hl : length < 256 ^ 4) (cuts : List Nat) :
    (handle now opBlockRead offset length).run (s, { inbox := [], cuts := cuts }) =
      .ok () (s, ⟨[], cuts, [], header opBlockRead offset length ++
        s.load (offset * sectorSize) (length * sectorSize)⟩) := by
  rw [run_blockRead_checked now s hs hm]
  rw [run_loadAndSend rfl s (by decide) hf hl, List.nil_append]

end Handle

end RAMLinkServer

/-! ## The connection -/

structure Link where
  pool : RamPool
  /-- What the server has received of a request that is not complete. -/
  pending : Bytes := []
  /-- The device's end. -/
  conn : Conn
  /-- The server has closed the connection. -/
  ended : Bool := false

namespace Link

/-- The bytes of the requests a session has answered. -/
def answered (r : Session) : Nat :=
  ((r.handled.filter Handled.accepted).map fun x => x.header.length + x.payload.length).sum

/-- The server runs on what it has received; a request that is cut off waits for the rest. -/
def serve (now : Time) (l : Link) : Link :=
  if l.ended then l
  else
    let r := client now l.pool { inbox := l.pending }
    { pool := r.pool
      pending := l.pending.drop (answered r)
      conn := { l.conn with inbox := l.conn.inbox ++ r.conn.sent }
      ended := decide (r.ended ≠ .connectionError "peer disconnected") }

/-- Why a `recv_all` of the device gets no more bytes: `settimeout(15)`, or the server is gone. -/
def lost (l : Link) : Exc :=
  if l.ended then .connectionError "RAM-Link server disconnected" else .osError "timed out"

/-- Nothing is on its way, in either direction. -/
structure Idle (l : Link) : Prop where
  pending : l.pending = []
  unread : l.conn.inbox = []
  open_ : l.ended = false

def send (now : Time) (data : Bytes) : EStateM Exc Link Unit :=
  modify fun l => serve now { l with pending := l.pending ++ data }

def receive : EStateM Exc Link (Nat × Nat × Bytes) := fun l =>
  match (receiveReply l.lost fun h =>
      raiseIf (h.magic ≠ magic) (.valueError "Invalid response")).run l.conn with
  | .ok r c => .ok r { l with conn := c }
  | .error e c => .error e { l with conn := c }

/-! ## The server's side of a request -/

section Serve

variable {now : Time} {l : Link} {op offset length : Nat}

theorem taken_all (payload : Bytes) (cuts cuts' : List Nat) (reply : Bytes) :
    taken { inbox := payload, cuts := cuts } { inbox := [], cuts := cuts', sent := reply } = payload := by
  simp [taken]

/-- A request received whole is answered, and the server waits for the next one. -/
theorem serve_whole (payload : Bytes) {reply : Bytes} {s : RamPool} (ho : op < 256 ^ 1) (hf : offset < 256 ^ 8)
    (hl : length < 256 ^ 4) (he : l.ended = false) (hp : l.pending = header op offset length ++ payload)
    (hh : ∀ cuts, ∃ cuts', (handle now op offset length).run (l.pool, { inbox := payload, cuts := cuts }) =
      .ok () (s, { inbox := [], cuts := cuts', sent := reply })) :
    serve now l = ⟨s, [], { l.conn with inbox := l.conn.inbox ++ reply }, false⟩ := by
  have hlen : (header op offset length).length = headerSize := length_header ..
  have hle : headerSize ≤ l.pending.length := by
    rw [hp, List.length_append, hlen]
    omega
  obtain ⟨cuts, hr⟩ := clientLoop_header now l.pending.length l.pool (c := { inbox := l.pending }) hle
  have ht : l.pending.take headerSize = header op offset length := by rw [hp, ← hlen, List.take_left]
  have hd : l.pending.drop headerSize = payload := by rw [hp, ← hlen, List.drop_left]
  obtain ⟨cuts', hk⟩ := hh cuts
  obtain ⟨m, hm⟩ : ∃ m, l.pending.length = m + 1 := ⟨l.pending.length - 1, by
    have : 0 < headerSize := by decide
    omega⟩
  obtain ⟨cuts'', hw⟩ := clientLoop_short now m s (c := { inbox := [], cuts := cuts', sent := reply })
    (show ([] : Bytes).length < headerSize by decide)
  have hc : client now l.pool { inbox := l.pending } =
      ⟨[⟨header op offset length, payload, true⟩], s, { inbox := [], cuts := cuts'', sent := reply },
        .connectionError "peer disconnected"⟩ := by
    unfold client
    rw [hr]
    simp only [fromHeader, ht, hd, unpackHeader_header ho hf hl, ne_eq, not_true_eq_false, if_false, hk,
      hm, hw, taken_all]
  have ha : l.pending.length = headerSize + payload.length := by rw [hp, List.length_append, hlen]
  simp [serve, he, hc, answered, ha.symm]

/-- A header without its payload changes nothing: the server waits. -/
theorem serve_cut (ho : op < 256 ^ 1) (hf : offset < 256 ^ 8) (hl : length < 256 ^ 4)
    (he : l.ended = false) (hp : l.pending = header op offset length)
    (hh : ∀ cuts, ∃ cuts', (handle now op offset length).run (l.pool, { inbox := [], cuts := cuts }) =
      .error (.connectionError "peer disconnected") (l.pool, { inbox := [], cuts := cuts' })) :
    serve now l = l := by
  have hlen : l.pending.length = headerSize := by rw [hp, length_header]
  obtain ⟨cuts, hr⟩ := clientLoop_header now l.pending.length l.pool (c := { inbox := l.pending })
    (Nat.le_of_eq hlen.symm)
  have ht : l.pending.take headerSize = header op offset length := by rw [← hlen, List.take_length, hp]
  have hd : l.pending.drop headerSize = [] := by rw [← hlen, List.drop_length]
  obtain ⟨cuts', hk⟩ := hh cuts
  have hc : client now l.pool { inbox := l.pending } =
      ⟨[⟨header op offset length, [], false⟩], l.pool, { inbox := [], cuts := cuts' },
        .connectionError "peer disconnected"⟩ := by
    unfold client
    rw [hr]
    simp only [fromHeader, ht, hd, unpackHeader_header ho hf hl, ne_eq, not_true_eq_false, if_false, hk]
    rfl
  obtain ⟨pool, pending, conn, ended⟩ := l
  simp only at he
  subst he
  simp [serve, hc, answered]

end Serve

end Link

/-! ## The device -/

structure RAMLinkBlockDevice where
  sectorSize : Nat
  sectorCount : Nat

namespace RAMLinkBlockDevice

open Link

def request (now : Time) (op offset length : Nat) (payload : Bytes) :
    EStateM Exc Link (Nat × Nat × Bytes) := do
  let h ← fromExcept (packHeader op offset length)
  send now h
  if payload ≠ [] then send now payload
  receive

/-- `__init__`: the sizes the server reports. -/
def init (now : Time) : EStateM Exc Link RAMLinkBlockDevice := do
  let r ← request now opBlockInfo 0 0 []
  raiseIf (r.2.2.length ≠ 16) .structError
  return ⟨ofBE (sub r.2.2 0 8), ofBE (sub r.2.2 8 8)⟩

/-- The number of sectors of one transfer. -/
def per (d : RAMLinkBlockDevice) : Nat := maxBlock / d.sectorSize

def readLoop (now : Time) (d : RAMLinkBlockDevice) : Nat → Nat → Nat → Bytes → EStateM Exc Link Bytes
  | 0, _, _, _ => throw .outOfFuel
  | fuel + 1, sector, count, out =>
    if count ≠ 0 then do
      let n := min count d.per
      let r ← request now opBlockRead sector n []
      readLoop now d fuel (sector + n) (count - n) (out ++ r.2.2)
    else return out

def read (now : Time) (d : RAMLinkBlockDevice) (sector count : Nat) : EStateM Exc Link Bytes := do
  raiseIf (d.sectorSize = 0) .zeroDivisionError
  readLoop now d (count + 1) sector count []

def writeLoop (now : Time) (d : RAMLinkBlockDevice) (data : Bytes) :
    Nat → Nat → Nat → Nat → EStateM Exc Link Unit
  | 0, _, _, _ => throw .outOfFuel
  | fuel + 1, sector, count, position =>
    if count ≠ 0 then do
      let n := min count d.per
      let size := n * d.sectorSize
      let _ ← request now opBlockWrite sector n (slice data position (position + size : Nat))
      writeLoop now d data fuel (sector + n) (count - n) (position + size)
    else return ()

def write (now : Time) (d : RAMLinkBlockDevice) (sector : Nat) (data : Bytes) :
    EStateM Exc Link Unit := do
  raiseIf (d.sectorSize = 0) .zeroDivisionError
  raiseIf (data.length % d.sectorSize ≠ 0) (.valueError "Unaligned write")
  let count := data.length / d.sectorSize
  writeLoop now d data (count + 1) sector count 0

/-- One array of sectors: a write changes its sectors and returns, a read returns them, and neither
leaves anything on the connection. -/
structure SectorsAgree (now : Time) (d : RAMLinkBlockDevice) (l : Link) (sector count : Nat)
    (data : Bytes) : Prop where
  write : ∃ t, (d.write now sector data).run l = .ok () t ∧
    t.pool.memory = splice l.pool.memory (sector * 512) data ∧ t.conn.inbox = []
  read : ∃ t, (d.read now sector count).run l =
      .ok (sub l.pool.memory (sector * 512) (count * 512)) t ∧
    t.pool.memory = l.pool.memory ∧ t.conn.inbox = []

/-! ## The requests of the device -/

theorem run_send (now : Time) (data : Bytes) (l : Link) :
    (send now data).run l = .ok () (serve now { l with pending := l.pending ++ data }) := rfl

theorem run_receive (l : Link) : receive.run l =
    match (receiveReply l.lost fun h =>
      raiseIf (h.magic ≠ magic) (.valueError "Invalid response")).run l.conn with
    | .ok r c => .ok r { l with conn := c }
    | .error e c => .error e { l with conn := c } := rfl

/-- A framed reply that is all there is is received whole. -/
theorem receive_framed {l : Link} {op : Nat} (offset : Nat) (payload : Bytes) (ho : op < 256 ^ 1)
    (hf : offset < 256 ^ 8) (hl : payload.length < 256 ^ 4)
    (hi : l.conn.inbox = header op offset payload.length ++ payload) :
    ∃ c, receive.run l = .ok (op, offset, payload) { l with conn := c } ∧ c.inbox = [] := by
  obtain ⟨c, hr, hc⟩ : ∃ c, (receiveReply l.lost fun h =>
      raiseIf (h.magic ≠ magic) (.valueError "Invalid response")).run l.conn =
      .ok (op, offset, payload) c ∧ c.inbox = [] :=
    receiveReply_framed l.lost ho hf hl hi (fun c' => by rw [run_raiseIf, if_neg (by simp)])
  refine ⟨c, ?_, hc⟩
  rw [run_receive, hr]

theorem run_request_bare (now : Time) {op offset length : Nat} (ho : op < 256 ^ 1)
    (hf : offset < 256 ^ 8) (hl : length < 256 ^ 4) {l : Link} (hi : l.Idle) :
    (request now op offset length []).run l =
      receive.run (serve now { l with pending := header op offset length }) := by
  have hp : packHeader op offset length = .ok (header op offset length) := if_pos ⟨ho, hf, hl⟩
  simp only [request, EStateM.run_bind, run_fromExcept, hp, run_send, hi.pending, List.nil_append,
    ne_eq, not_true_eq_false, if_false]

/-- The device is told the sizes, and the connection is idle again. -/
theorem init_ok (now : Time) {l : Link} (hi : l.Idle) :
    ∃ d t, (init now).run l = .ok d t ∧ d.sectorSize = 512 ∧ t.Idle ∧ t.pool = l.pool := by
  let payload := toBE 8 RamLink.sectorSize ++ toBE 8 (sectors l.pool)
  have hlen : payload.length = 16 := by simp [payload]
  have hserve : serve now { l with pending := header opBlockInfo 0 0 } =
      ⟨l.pool, [], { l.conn with inbox := l.conn.inbox ++ (header opBlockInfo 0 16 ++ payload) }, false⟩ :=
    serve_whole [] (by decide) (by decide) (by decide) hi.open_ (List.append_nil _).symm
    fun cuts => ⟨cuts, by rw [run_blockInfo now l.pool 0 0 rfl, List.nil_append]⟩
  obtain ⟨c, hr, hc⟩ := receive_framed 0 payload
    (l := ⟨l.pool, [], { l.conn with inbox := l.conn.inbox ++ (header opBlockInfo 0 16 ++ payload) },
      false⟩) (by decide : opBlockInfo < 256 ^ 1) (by decide) (by rw [hlen]; decide) (by
        simp only [hi.unread, hlen, List.nil_append])
  refine ⟨⟨ofBE (sub payload 0 8), ofBE (sub payload 8 8)⟩, ⟨l.pool, [], c, false⟩, ?_, ?_,
    ⟨rfl, hc, rfl⟩, rfl⟩
  · simp only [init, EStateM.run_bind, run_request_bare now (by decide : opBlockInfo < 256 ^ 1)
      (by decide : 0 < 256 ^ 8) (by decide : 0 < 256 ^ 4) hi, hserve, hr, run_raiseIf, hlen, ne_eq,
      not_true_eq_false, if_false, EStateM.run_pure]
  · show ofBE (sub (toBE 8 RamLink.sectorSize ++ toBE 8 (sectors l.pool)) 0 8) = 512
    have hs := sub_of_append (p := []) (q := toBE 8 RamLink.sectorSize) (r := toBE 8 (sectors l.pool))
      (a := 0) (n := 8) rfl (length_toBE 8 _)
    rw [List.nil_append] at hs
    rw [hs, ofBE_toBE (by decide)]
    rfl

/-- A transfer of `n` sectors is at most as large as the server allows. -/
theorem transfer_le {n : Nat} (hn : n ≤ 2048) :
    n * RamLink.sectorSize ≤ maxBlock ∧ n < 256 ^ 4 := by
  unfold RamLink.sectorSize maxBlock
  omega

/-- The device waits for the payload that the acknowledgement announces. -/
theorem receive_ack {l : Link} {op offset length : Nat} (ho : op < 256 ^ 1) (hf : offset < 256 ^ 8)
    (hl : length < 256 ^ 4) (hn : 0 < length) (he : l.ended = false)
    (hi : l.conn.inbox = header op offset length) :
    ∃ t, receive.run l = .error (.osError "timed out") t := by
  have hlost : l.lost = .osError "timed out" := by simp [lost, he]
  have hlen : l.conn.inbox.length = headerSize := by rw [hi, length_header]
  obtain ⟨cuts, hr⟩ := Conn.recvAll_ok l.lost (by decide : 0 < maxBlock) (Nat.le_of_eq hlen.symm)
  rw [← hlen, List.take_length, List.drop_length, hlen, hi] at hr
  obtain ⟨cuts', hb⟩ := Conn.recvAll_short l.lost (by decide : 0 < maxBlock)
    (c := { l.conn with inbox := [], cuts := cuts }) (show _ < length from hn)
  have hbody : (receiveReply l.lost fun h =>
      raiseIf (h.magic ≠ magic) (.valueError "Invalid response")).run l.conn =
      .error l.lost { l.conn with inbox := [], cuts := cuts' } := by
    simp only [receiveReply, EStateM.run_bind, hr, unpackHeader_header ho hf hl, run_raiseIf, ne_eq,
      not_true_eq_false, if_false, receiveBody, if_pos (Nat.ne_of_gt hn), hb]
  refine ⟨{ l with conn := { l.conn with inbox := [], cuts := cuts' } }, ?_⟩
  rw [← hlost]
  rw [run_receive, hbody]

/-- **A BLOCK_WRITE never returns**: the server stores the data, and the device times out. -/
theorem write_request_raises (now : Time) {l : Link} (hi : l.Idle) {offset n : Nat} {payload : Bytes}
    (hs : offset + n ≤ sectors l.pool) (hn : 0 < n) (hn' : n ≤ 2048)
    (hp : payload.length = n * RamLink.sectorSize) :
    ∃ e t, (request now opBlockWrite offset n payload).run l = .error e t := by
  obtain ⟨hm, hl⟩ := transfer_le hn'
  by_cases hf : offset < 256 ^ 8
  · have hpack : packHeader opBlockWrite offset n = .ok (header opBlockWrite offset n) :=
      if_pos ⟨by decide, hf, hl⟩
    have hne : payload ≠ [] := by
      intro h
      rw [h, List.length_nil] at hp
      unfold RamLink.sectorSize at hp
      omega
    have h1 : serve now { l with pending := header opBlockWrite offset n } = _ :=
      serve_cut (by decide) hf hl hi.open_ rfl (run_blockWrite_cut now l.pool hs hm hn)
    have h2 := serve_whole payload
      (l := { l with pending := header opBlockWrite offset n ++ payload }) (by decide) hf hl hi.open_ rfl
      (run_blockWrite now l.pool hs hm hf hl hp)
    obtain ⟨t, hr⟩ := receive_ack (l := ⟨l.pool.store (offset * RamLink.sectorSize)
        (n * RamLink.sectorSize) payload, [],
        { l.conn with inbox := l.conn.inbox ++ header opBlockWrite offset n }, false⟩)
      (by decide : opBlockWrite < 256 ^ 1) hf hl
      hn rfl (by rw [hi.unread, List.nil_append])
    refine ⟨.osError "timed out", t, ?_⟩
    simp only [request, EStateM.run_bind, run_fromExcept, hpack, run_send, hi.pending, List.nil_append,
      h1, if_pos hne, h2, hr]
  · have hpack : packHeader opBlockWrite offset n = .error .structError := if_neg fun h => hf h.2.1
    exact ⟨.structError, l, by simp only [request, EStateM.run_bind, run_fromExcept, hpack]⟩

section Calls

variable (now : Time) {d : RAMLinkBlockDevice} {l : Link}

theorem read_eq (hd : d.sectorSize = 512) (sector count : Nat) :
    d.read now sector count = readLoop now d (count + 1) sector count [] := by
  have hz : raiseIf (d.sectorSize = 0) .zeroDivisionError = (pure () : EStateM Exc Link Unit) :=
    if_neg (by omega)
  rw [read, hz, pure_bind]

theorem write_eq (hd : d.sectorSize = 512) (sector : Nat) {count : Nat} {data : Bytes}
    (hc : data.length = count * 512) :
    d.write now sector data = writeLoop now d data (count + 1) sector count 0 := by
  have hz : raiseIf (d.sectorSize = 0) .zeroDivisionError = (pure () : EStateM Exc Link Unit) :=
    if_neg (by omega)
  have hu : raiseIf (data.length % d.sectorSize ≠ 0) (.valueError "Unaligned write") =
      (pure () : EStateM Exc Link Unit) := if_neg (by rw [hc, hd]; omega)
  have hdiv : data.length / d.sectorSize = count := by rw [hc, hd, Nat.mul_div_cancel _ (by decide)]
  rw [write, hz, hu, pure_bind, pure_bind, hdiv]

theorem per_eq (hd : d.sectorSize = 512) : d.per = 2048 := by
  rw [per, hd]
  rfl

/-- A write of some sectors raises in its first transfer. -/
theorem write_raises (hd : d.sectorSize = 512) (hi : l.Idle) {sector count : Nat} {data : Bytes}
    (hs : sector + count ≤ sectors l.pool) (hc : data.length = count * 512) (hn : 0 < count) :
    ∃ e t, (d.write now sector data).run l = .error e t := by
  have hfirst : (slice data (0 : Nat) (0 + min count d.per * d.sectorSize : Nat)).length =
      min count d.per * RamLink.sectorSize := by
    rw [slice_natCast, length_sub, per_eq hd, hd, hc]
    unfold RamLink.sectorSize
    omega
  obtain ⟨e, t, hr⟩ := write_request_raises now hi (n := min count d.per)
    (show sector + _ ≤ _ by omega) (by rw [per_eq hd]; omega) (by rw [per_eq hd]; omega) hfirst
  refine ⟨e, t, ?_⟩
  rw [write_eq now hd sector hc, writeLoop, if_pos (Nat.ne_of_gt hn)]
  simp only [EStateM.run_bind, hr]

/-- The length field of a reply decides how much of what follows is read. -/
theorem receive_part {op offset length : Nat} {body : Bytes} (ho : op < 256 ^ 1) (hf : offset < 256 ^ 8)
    (hl : length < 256 ^ 4) (hn : 0 < length) (hb : length ≤ body.length)
    (hi : l.conn.inbox = header op offset length ++ body) :
    ∃ t, receive.run l = .ok (op, offset, body.take length) t ∧ t.conn.inbox = body.drop length := by
  have hlen : (header op offset length).length = headerSize := length_header ..
  obtain ⟨cuts, hr⟩ := Conn.recvAll_ok (c := l.conn) l.lost (by decide : 0 < maxBlock)
    (show headerSize ≤ l.conn.inbox.length by rw [hi, List.length_append, hlen]; omega)
  rw [hi, ← hlen, List.take_left, List.drop_left, hlen] at hr
  obtain ⟨cuts', hk⟩ := Conn.recvAll_ok l.lost (by decide : 0 < maxBlock)
    (c := { l.conn with inbox := body, cuts := cuts }) (show length ≤ _ from hb)
  have hreply : (receiveReply l.lost fun h =>
      raiseIf (h.magic ≠ magic) (.valueError "Invalid response")).run l.conn =
      .ok (op, offset, body.take length) { l.conn with inbox := body.drop length, cuts := cuts' } := by
    simp only [receiveReply, EStateM.run_bind, hr, unpackHeader_header ho hf hl, run_raiseIf, ne_eq,
      not_true_eq_false, if_false, receiveBody, if_pos (Nat.ne_of_gt hn), hk, EStateM.run_pure]
  refine ⟨{ l with conn := { l.conn with inbox := body.drop length, cuts := cuts' } }, ?_, rfl⟩
  rw [run_receive, hreply]

/-- A BLOCK_READ of one transfer returns as many bytes as it has sectors; the rest of the payload
stays on the connection. -/
theorem read_first_bytes (hd : d.sectorSize = 512) (hi : l.Idle)
    (hsz : l.pool.memory.length = l.pool.size) {sector n : Nat} (hs : sector + n ≤ sectors l.pool)
    (hn : 0 < n) (hn' : n ≤ 2048) (hf : sector < 256 ^ 8) :
    ∃ t, (d.read now sector n).run l = .ok (sub l.pool.memory (sector * 512) n) t ∧
      t.conn.inbox = sub l.pool.memory (sector * 512 + n) (n * 511) := by
  obtain ⟨hm, hl⟩ := transfer_le hn'
  have hmin : min n d.per = n := by rw [per_eq hd]; omega
  have hin : sector * 512 + n * 512 ≤ l.pool.size :=
    sectors_range (by omega : ¬ (sectors l.pool < sector ∨ sectors l.pool - sector < n))
  have hload : l.pool.load (sector * RamLink.sectorSize) (n * RamLink.sectorSize) =
      sub l.pool.memory (sector * 512) (n * 512) := RamPool.load_eq_sub ..
  have hserve : serve now { l with pending := header opBlockRead sector n } = _ :=
    serve_whole [] (by decide) hf hl hi.open_ (List.append_nil _).symm
    fun cuts => ⟨cuts, run_blockRead now l.pool hs hm hf hl cuts⟩
  rw [hload] at hserve
  obtain ⟨t, hr, ht⟩ := receive_part (l := ⟨l.pool, [], { l.conn with
      inbox := l.conn.inbox ++ (header opBlockRead sector n ++
        sub l.pool.memory (sector * 512) (n * 512)) }, false⟩) (by decide : opBlockRead < 256 ^ 1) hf hl hn
    (show n ≤ (sub l.pool.memory (sector * 512) (n * 512)).length by
      rw [length_sub_of_le (by omega)]; omega) (by rw [hi.unread, List.nil_append])
  refine ⟨t, ?_, ?_⟩
  · rw [read_eq now hd, readLoop, if_pos (Nat.ne_of_gt hn), hmin]
    simp only [EStateM.run_bind, run_request_bare now (by decide : opBlockRead < 256 ^ 1) hf hl hi,
      hserve, hr, Nat.sub_self, List.nil_append]
    obtain ⟨m, rfl⟩ : ∃ m, n = m + 1 := ⟨n - 1, by omega⟩
    rw [readLoop, if_neg (by decide), sub, List.take_take, Nat.min_eq_left (by omega)]
    rfl
  · rw [ht, sub, List.drop_take, List.drop_drop, sub]
    congr 1
    omega

/-- **The sector client and the block operations agree on no sectors only.** -/
theorem sectorsAgree_iff {l₀ : Link} (hi : l₀.Idle) (hd : (init now).run l₀ = .ok d l)
    (sector count : Nat) (data : Bytes) (hs : sector + count ≤ sectors l.pool)
    (hdata : data.length = count * 512) :
    d.SectorsAgree now l sector count data ↔ count = 0 := by
  obtain ⟨d', l', hr, h512, hi', -⟩ := init_ok now hi
  rw [hd] at hr
  obtain ⟨rfl, rfl⟩ := EStateM.Result.ok.inj hr
  constructor
  · intro h
    by_contra hn
    obtain ⟨t, hw, -⟩ := h.write
    obtain ⟨e, t', he⟩ := write_raises now h512 hi' hs hdata (Nat.pos_of_ne_zero hn)
    rw [hw] at he
    cases he
  · rintro rfl
    have hnil : data = [] := List.eq_nil_of_length_eq_zero (by omega)
    subst hnil
    refine ⟨⟨l, ?_, ?_, hi'.unread⟩, ⟨l, ?_, rfl, hi'.unread⟩⟩
    · rw [write_eq now h512 sector hdata]
      rfl
    · rw [splice_nil]
    · rw [read_eq now h512]
      rfl

end Calls

/-- A connection to a fresh provider. -/
def freshLink : Link := { pool := .fresh, conn := { inbox := [] } }

theorem freshLink_idle : freshLink.Idle := ⟨rfl, rfl, rfl⟩

theorem sectorsAgree_iff_one : ∃ d l, (init 0).run freshLink = .ok d l ∧
    (d.SectorsAgree 0 l 0 1 (List.replicate 512 7) ↔ 1 = 0) := by
  obtain ⟨d, l, hr, -, -, hp⟩ := init_ok 0 freshLink_idle
  exact ⟨d, l, hr, sectorsAgree_iff 0 freshLink_idle hr 0 1 _ (by rw [hp]; decide)
    List.length_replicate⟩

/-- A write of one sector never returns. -/
theorem sectorsAgree_fails :
    ¬ ∀ (now : Time) (l₀ l : Link) (d : RAMLinkBlockDevice), l₀.Idle →
      (init now).run l₀ = .ok d l → ∀ (sector count : Nat) (data : Bytes),
        sector + count ≤ sectors l.pool → data.length = count * 512 →
        d.SectorsAgree now l sector count data := by
  intro h
  obtain ⟨d, l, hr, h512, hi, hp⟩ := init_ok 0 freshLink_idle
  have hs : 0 + 1 ≤ sectors l.pool := by rw [hp]; decide
  have ha := h 0 freshLink l d freshLink_idle hr 0 1 (List.replicate 512 7) hs List.length_replicate
  obtain ⟨t, hw, -⟩ := ha.write
  obtain ⟨e, t', he⟩ := write_raises 0 h512 hi hs
    (List.length_replicate : (List.replicate 512 (7 : UInt8)).length = 1 * 512) (by decide)
  rw [hw] at he
  cases he

end RAMLinkBlockDevice

end RamLink
