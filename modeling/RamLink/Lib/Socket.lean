import RamLink.Lib.Python

/-!
# RamLink.Lib.Socket

One end of a byte-stream connection, and the exact-read loop over it.

`Conn.inbox` is what the peer has sent and will still send before it closes. How the transport
cuts it is left open: each `recv k` takes the next wish from `cuts` and returns some non-empty
part of at most `k` bytes of what is left, so the lists of wishes range over every segmentation
(an exhausted list means "all that was asked for"). `faults` says which sends fail, and after how
many bytes.

`recvAll_ok` and `recvAll_short` are the point: whatever the cuts, `recvAll n` returns exactly the
next `n` bytes, or raises when fewer are left.
-/

namespace Lib

structure Conn where
  inbox : Bytes
  cuts : List Nat := []
  faults : List (Option Nat) := []
  sent : Bytes := []
deriving DecidableEq, Repr

namespace Conn

/-- `conn.recv(k)`; the empty string once the peer has closed. -/
def recv (k : Nat) : EStateM Exc Conn Bytes := do
  let c ← get
  let n := min (max 1 (c.cuts.headD k)) k
  set { c with inbox := c.inbox.drop n, cuts := c.cuts.tail }
  return c.inbox.take n

/-- `conn.sendall(data)`; a failing send has put a part of the data on the wire. -/
def sendall (data : Bytes) : EStateM Exc Conn Unit := do
  let c ← get
  match c.faults with
  | some k :: fs =>
    set { c with faults := fs, sent := c.sent ++ data.take k }
    throw (.osError "connection lost")
  | _ => set { c with faults := c.faults.tail, sent := c.sent ++ data }

/-- The loop of `recv_all`: a pass adds at least one byte, so `size` passes are enough. -/
def recvLoop (lost : Exc) (limit size : Nat) : Nat → Bytes → EStateM Exc Conn Bytes
  | 0, data => return data
  | fuel + 1, data => do
    if data.length < size then
      let chunk ← recv (min limit (size - data.length))
      if chunk = [] then throw lost
      recvLoop lost limit size fuel (data ++ chunk)
    else return data

/-- `recv_all(conn, size)` with reads of at most `limit` bytes. -/
def recvAll (lost : Exc) (limit size : Nat) : EStateM Exc Conn Bytes :=
  recvLoop lost limit size size []

theorem run_recv (k : Nat) (c : Conn) : (recv k).run c =
    .ok (c.inbox.take (min (max 1 (c.cuts.headD k)) k))
      { c with inbox := c.inbox.drop (min (max 1 (c.cuts.headD k)) k), cuts := c.cuts.tail } := rfl

@[simp] theorem run_sendall_nil (data : Bytes) {c : Conn} (h : c.faults = []) :
    (sendall data).run c = .ok () { c with sent := c.sent ++ data } := by
  obtain ⟨i, u, f, s⟩ := c
  subst h
  rfl

/-- What a `sendall` can do: put all of the data on the wire, or a part of it and raise. -/
theorem sendall_cases (data : Bytes) (c : Conn) :
    (∃ fs, (sendall data).run c = .ok () { c with faults := fs, sent := c.sent ++ data }) ∨
    (∃ k fs, (sendall data).run c =
      .error (.osError "connection lost") { c with faults := fs, sent := c.sent ++ data.take k }) := by
  obtain ⟨i, u, f, s⟩ := c
  match f with
  | [] => exact .inl ⟨[], rfl⟩
  | none :: fs => exact .inl ⟨fs, rfl⟩
  | some k :: fs => exact .inr ⟨k, fs, rfl⟩

/-- One of the next `n` sends fails. -/
def fails (n : Nat) (c : Conn) : Bool := (c.faults.take n).any Option.isSome

theorem run_sendall (data : Bytes) {c : Conn} (h : c.fails 1 = false) :
    (sendall data).run c = .ok () { c with faults := c.faults.tail, sent := c.sent ++ data } := by
  obtain ⟨i, u, f, s⟩ := c
  match f with
  | [] => rfl
  | none :: fs => rfl
  | some k :: fs => cases h

theorem run_sendall_fails (data : Bytes) {c : Conn} (h : c.fails 1 = true) :
    ∃ c', (sendall data).run c = .error (.osError "connection lost") c' := by
  obtain ⟨i, u, f, s⟩ := c
  match f with
  | [] => cases h
  | none :: fs => cases h
  | some k :: fs => exact ⟨_, rfl⟩

theorem fails_succ (n : Nat) (c : Conn) : c.fails (n + 1) =
    (c.fails 1 || { c with faults := c.faults.tail }.fails n) := by
  obtain ⟨i, u, f, s⟩ := c
  cases f <;> simp [fails]

variable {limit : Nat}

theorem recvLoop_ok (lost : Exc) (size : Nat) (hl : 0 < limit) : ∀ (fuel : Nat) (data : Bytes) (c : Conn),
    size ≤ data.length + fuel → data.length ≤ size → size ≤ data.length + c.inbox.length →
    ∃ cuts, (recvLoop lost limit size fuel data).run c =
      .ok (data ++ c.inbox.take (size - data.length))
        { c with inbox := c.inbox.drop (size - data.length), cuts := cuts } := by
  intro fuel
  induction fuel with
  | zero =>
    intro data c hf hd _
    have : size - data.length = 0 := by omega
    exact ⟨c.cuts, by simp [recvLoop, this]⟩
  | succ fuel ih =>
    intro data c hf hd hi
    by_cases hlt : data.length < size
    · -- one read of `n` bytes, then the rest of the loop
      let n := min (max 1 (c.cuts.headD (min limit (size - data.length))))
        (min limit (size - data.length))
      have hn : 0 < n ∧ n ≤ size - data.length := by omega
      let c' : Conn := { c with inbox := c.inbox.drop n, cuts := c.cuts.tail }
      have hlen : (c.inbox.take n).length = n := by rw [List.length_take]; omega
      have hne : c.inbox.take n ≠ [] := by
        intro h; rw [h] at hlen; simp at hlen; omega
      have hlen' : (data ++ c.inbox.take n).length = data.length + n := by
        rw [List.length_append, hlen]
      obtain ⟨cuts, hr⟩ := ih (data ++ c.inbox.take n) c' (by omega) (by omega)
        (by rw [hlen', List.length_drop]; omega)
      refine ⟨cuts, ?_⟩
      have hsplit : size - data.length = n + (size - (data.length + n)) := by omega
      have hfst : (recvLoop lost limit size (fuel + 1) data).run c =
          (recvLoop lost limit size fuel (data ++ c.inbox.take n)).run c' := by
        simp only [recvLoop, hlt, if_true, EStateM.run_bind, run_recv]
        rw [if_neg hne]
      rw [hfst, hr, hlen', hsplit, List.take_add, List.append_assoc, List.drop_drop]
    · have : size - data.length = 0 := by omega
      exact ⟨c.cuts, by simp [recvLoop, hlt, this]⟩

theorem recvLoop_short (lost : Exc) (size : Nat) (hl : 0 < limit) : ∀ (fuel : Nat) (data : Bytes) (c : Conn),
    size ≤ data.length + fuel → data.length + c.inbox.length < size →
    ∃ cuts, (recvLoop lost limit size fuel data).run c =
      .error lost { c with inbox := [], cuts := cuts } := by
  intro fuel
  induction fuel with
  | zero => intro data c hf hs; omega
  | succ fuel ih =>
    intro data c hf hs
    have hlt : data.length < size := by omega
    let n := min (max 1 (c.cuts.headD (min limit (size - data.length))))
      (min limit (size - data.length))
    have hn : 0 < n := by omega
    let c' : Conn := { c with inbox := c.inbox.drop n, cuts := c.cuts.tail }
    by_cases hi : c.inbox = []
    · refine ⟨c.cuts.tail, ?_⟩
      simp [recvLoop, hlt, run_recv, hi]
    · have hpos : 0 < c.inbox.length := List.length_pos_iff.mpr hi
      have hlen : (c.inbox.take n).length = min n c.inbox.length := List.length_take
      have hne : c.inbox.take n ≠ [] := by
        intro h; rw [h] at hlen; simp at hlen; omega
      obtain ⟨cuts, hr⟩ := ih (data ++ c.inbox.take n) c'
        (by rw [List.length_append, hlen]; omega)
        (by rw [List.length_append, hlen, List.length_drop]; omega)
      refine ⟨cuts, ?_⟩
      have hfst : (recvLoop lost limit size (fuel + 1) data).run c =
          (recvLoop lost limit size fuel (data ++ c.inbox.take n)).run c' := by
        simp only [recvLoop, hlt, if_true, EStateM.run_bind, run_recv]
        rw [if_neg hne]
      rw [hfst, hr]

/-- However the stream is cut, `recv_all(size)` returns exactly the next `size` bytes. -/
theorem recvAll_ok (lost : Exc) (hl : 0 < limit) {size : Nat} {c : Conn} (h : size ≤ c.inbox.length) :
    ∃ cuts, (recvAll lost limit size).run c =
      .ok (c.inbox.take size) { c with inbox := c.inbox.drop size, cuts := cuts } := by
  obtain ⟨cuts, hr⟩ := recvLoop_ok lost size hl size [] c (by simp) (by simp) (by simpa using h)
  exact ⟨cuts, by simpa [recvAll] using hr⟩

/-- However the stream is cut, `recv_all(size)` raises when fewer than `size` bytes are left. -/
theorem recvAll_short (lost : Exc) (hl : 0 < limit) {size : Nat} {c : Conn}
    (h : c.inbox.length < size) : ∃ cuts, (recvAll lost limit size).run c = .error lost { c with inbox := [], cuts := cuts } :=
  recvLoop_short lost size hl size [] c (by simp) (by simpa using h)

theorem length_recvAll {lost : Exc} (hl : 0 < limit) {size : Nat} {c c' : Conn} {d : Bytes}
    (h : (recvAll lost limit size).run c = .ok d c') : d.length = size := by
  by_cases hsize : size ≤ c.inbox.length
  · obtain ⟨cuts, hrun⟩ := recvAll_ok lost hl hsize
    rw [h] at hrun
    cases hrun
    rw [List.length_take, Nat.min_eq_left hsize]
  · obtain ⟨cuts, hrun⟩ := recvAll_short lost hl (Nat.not_le.mp hsize)
    rw [h] at hrun
    cases hrun

end Conn

end Lib
