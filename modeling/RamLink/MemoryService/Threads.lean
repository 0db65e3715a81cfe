import RamLink.Lib.Resources
import RamLink.Lib.Quiesce
import RamLink.MemoryService.Programs
import Mathlib.Data.List.Infix

/-!
# RamLink.MemoryService.Threads

The threads of `ramlink_memory_service.py`: the main thread, the keepalive thread and one thread for
each client of the local API, all of which call the methods of one `RemoteMemory`.

A socket is two byte streams. `rml_request` sends its header, sends its payload, receives the header
of its reply and receives the body; each of these may raise, after any part of the bytes has gone
through. The provider answers the requests it decodes, each with any reply that is correctly framed.

* `protocol`: on one socket, one request at a time; a BORROW first, then READ, WRITE, KEEPALIVE, and at
  most one RELEASE; nothing after a request that raised, unless it was the retry of
  `_request_with_reconnect`, which leaves its socket in use. `traffic_keeps_to_protocol`.
* `Faithful`: the provider decodes what was asked, and every request that returns has its own reply.
  `own_replies`: so it is on every socket on which no retry raised.
* `calls_can_end`: there is no deadlock.
-/

namespace RamLink

open Lib Lib.Monitor
open Borrower (Message Reply)

namespace Locked

/-! ## The sockets -/

/-- Where a thread is in `rml_request`. -/
inductive Place where
  | header
  | payload
  | reply
  | body (h : Header)
deriving DecidableEq, Repr

instance (r : Reply) : Decidable r.Fits := inferInstanceAs (Decidable (_ ∧ _))

structure Channel where
  /-- Sent by the service, not yet taken by the provider. -/
  up : Bytes
  /-- Sent by the provider, not yet taken by the service. -/
  down : Bytes
  issued : List Message
  handled : List (Message × Reply)
  /-- Each request that returned, with what it returned. -/
  returned : List (Message × Reply)
deriving DecidableEq, Repr

/-- How a socket call fails: how many of its bytes it moved, and what it raises. -/
structure Fault where
  moved : Nat
  exc : Exc
deriving DecidableEq, Repr

def socket : Link Exc Sending Reply Place Channel Fault Reply where
  fresh := ⟨[], [], [], [], []⟩
  begin m c := (.header, { c with issued := c.issued ++ [m.message] })
  turn m a c :=
    match a with
    | .header =>
      some ({ c with up := c.up ++ m.message.header },
        .inl (if m.message.payload ≠ [] then .payload else .reply))
    | .payload => some ({ c with up := c.up ++ m.message.payload }, .inl .reply)
    | .reply =>
      if c.down.length < headerSize then none
      else
        let h := unpackHeader (c.down.take headerSize)
        let c := { c with down := c.down.drop headerSize }
        if h.magic ≠ magic then some (c, .inr (.error (.valueError "Invalid RAM-Link response magic")))
        else if h.length ≠ 0 then some (c, .inl (.body h))
        else
          let r : Reply := ⟨h.op, h.offset, []⟩
          some ({ c with returned := c.returned ++ [(m.message, r)] }, .inr (.ok r))
    | .body h =>
      if c.down.length < h.length then none
      else
        let r : Reply := ⟨h.op, h.offset, c.down.take h.length⟩
        some ({ c with down := c.down.drop h.length, returned := c.returned ++ [(m.message, r)] }, .inr (.ok r))
  fail m a f c :=
    (match a with
      | .header => { c with up := c.up ++ m.message.header.take f.moved }
      | .payload => { c with up := c.up ++ m.message.payload.take f.moved }
      | .reply => { c with down := c.down.drop (min f.moved headerSize) }
      | .body h => { c with down := c.down.drop (min f.moved h.length) },
     f.exc)
  serve r c :=
    match Borrower.decode c.up with
    | none => none
    | some (m, rest) =>
      if r.Fits then
        some { c with up := rest, down := c.down ++ r.bytes, handled := c.handled ++ [(m, r)] }
      else none

/-! ## The calls -/

inductive Call where
  | connectAndBorrow
  | keepalive
  | read (offset length : Int)
  | write (offset : Int) (data : Bytes)
  | status
  | release

def Call.body : Call → ServiceProg Unit
  | .connectAndBorrow => Locked.connectAndBorrow
  | .keepalive => Locked.keepalive
  | .read offset length => do let _ ← Locked.read offset length
  | .write offset data => Locked.write offset data
  | .status => do let _ ← Prog.withLock Prog.self
  | .release => Locked.release

def system : System RemoteMemory Exc Sending Reply Place Channel Fault Reply Call :=
  { socket with method := Call.body }

/-! ## The protocol on one socket -/

inductive Stage where
  | connected
  /-- The BORROW was answered. -/
  | granted
  | leased
  /-- A request raised. -/
  | failed
  | released
deriving DecidableEq, Repr

def ofLease (op : Nat) : Bool := op = opRead ∨ op = opWrite ∨ op = opKeepalive ∨ op = opRelease

instance (m : Message) : Decidable m.WellFormed :=
  decidable_of_iff (m.Fits ∧ (m.op = opWrite → m.length = m.payload.length) ∧
    (m.op ≠ opWrite → m.payload = []))
    ⟨fun ⟨h1, h2, h3⟩ => ⟨h1, h2, h3⟩, fun h => ⟨h.fits, h.length, h.payload⟩⟩

/-- The retry comes right after the BORROW. -/
def protocol : Protocol Sending Stage where
  start := .connected
  allows g m := decide m.message.WellFormed &&
    match g with
    | .connected => m.attempt = .first && m.message.op = opBorrow
    | .granted => ofLease m.message.op
    | .leased => m.attempt = .first && ofLease m.message.op
    | .failed | .released => false
  after g m answered :=
    match g with
    | .connected => if answered then .granted else .failed
    | _ =>
      if m.message.op = opRelease then .released
      else if answered ∨ m.attempt = .second then .leased
      else .failed

/-- What the lock guards: the socket in use, with its lease. -/
def Share (self : RemoteMemory) (own : Holding Stage) : Prop :=
  match self.sock with
  | none => own = .none
  | some sock => ∃ g, (g = .granted ∨ g = .leased) ∧ own = .single sock g

/-! ## The methods keep to it -/

section Safe

variable {α β : Type} {held : Option RemoteMemory} {own : Holding Stage}

theorem safe_self {post : Except Exc RemoteMemory → Option RemoteMemory → Holding Stage → Prop}
    (h : ∀ r, (∀ r', held = some r' → r = r') → post (.ok r) held own) :
    (Prog.self : ServiceProg RemoteMemory).Safe protocol Share post held own := h

theorem safe_assign {post : Except Exc Unit → Option RemoteMemory → Holding Stage → Prop} {r r' : RemoteMemory}
    (hh : held = some r') (h : post (.ok ()) (some r) own) :
    (Prog.assign r : ServiceProg Unit).Safe protocol Share post held own :=
  ⟨by simp [hh], h⟩

/-- `rml_request` on a socket the thread owns: a header that cannot be packed sends nothing. -/
theorem safe_rmlRequest {post : Except Exc (Nat × Nat × Bytes) → Option RemoteMemory → Holding Stage → Prop}
    {attempt : Attempt} {sock op : Nat} {offset length : Int} {payload : Bytes} {g : Stage}
    (hown : own sock = some g) (hop : op < 256)
    (hpay : if op = opWrite then length = payload.length else payload = [])
    (hallow : ∀ m : Sending, m.attempt = attempt → m.message.op = op → m.message.WellFormed →
      protocol.allows g m)
    (hpack : post (.error .structError) held own)
    (hret : ∀ m : Sending, m.attempt = attempt → m.message.op = op → ∀ (r : Except Exc (Nat × Nat × Bytes)),
      post r held (Function.update own sock (some (protocol.after g m r.isOk)))) :
    (rmlRequest attempt (some sock) op offset length payload).Safe protocol Share post held own := by
  unfold rmlRequest
  rw [Prog.safe_bind]
  refine Prog.safe_raiseIf (fun _ => hpack) fun hc => ?_
  set m : Sending := ⟨attempt, op, offset.toNat, length.toNat, payload⟩
  have hwf : m.message.WellFormed := by
    refine ⟨⟨by simpa [m] using hop, ?_, ?_⟩, ?_, ?_⟩
    · show offset.toNat < 256 ^ 8
      omega
    · show length.toNat < 256 ^ 4
      omega
    · intro hw
      rw [if_pos hw] at hpay
      show length.toNat = payload.length
      omega
    · intro hw
      rwa [if_neg hw] at hpay
  show (send sock m >>= fun r => _).Safe protocol Share post held own
  rw [Prog.safe_bind]
  refine ⟨g, hown, hallow m rfl rfl hwf, fun r => ?_⟩
  cases r with
  | ok r => exact hret m rfl rfl (.ok (r.op, r.offset, r.body))
  | error e => exact hret m rfl rfl (.error e)

/-- A BORROW on a new socket, which is closed if it comes to nothing. -/
theorem safe_borrowNewSocket {post : Except Exc (Nat × Grant) → Option RemoteMemory → Holding Stage → Prop}
    (hok : ∀ sock g, post (.ok (sock, g)) held (.single sock .granted))
    (herr : ∀ e, post (.error e) held .none) :
    borrowNewSocket.Safe protocol Share post held .none := by
  unfold borrowNewSocket
  rw [Prog.safe_bind]
  refine ⟨herr, fun sock _ => ?_⟩
  show (tryCatch _ _ : ServiceProg (Nat × Grant)).Safe protocol Share post held (.single sock .connected)
  rw [Prog.safe_tryCatch]
  -- whatever raised, the socket is closed
  have hclose : ∀ (g : Stage) (e : Exc), (close sock >>= fun _ => throw e : ServiceProg (Nat × Grant)).Safe
      protocol Share post held (.single sock g) := by
    intro g e
    rw [Prog.safe_bind]
    refine ⟨by simp, ?_⟩
    rw [Holding.update_single_none]
    exact herr e
  rw [Prog.safe_bind]
  refine safe_self fun r _ => ?_
  show (rmlRequest _ _ _ _ _ _ >>= fun _ => _ : ServiceProg (Nat × Grant)).Safe _ _ _ _ _
  rw [Prog.safe_bind]
  refine safe_rmlRequest (g := .connected) (by simp) (by decide) (by simp [opBorrow, opWrite]) ?_
    (hclose _ _) ?_
  · intro m hm hop hwf
    simp [protocol, hm, hop, hwf]
  · intro m hm hop r
    cases r with
    | error e =>
      rw [Holding.update_single]
      exact hclose _ e
    | ok body =>
      rw [Holding.update_single]
      show (Prog.raiseIf _ _ >>= fun _ => _ : ServiceProg (Nat × Grant)).Safe _ _ _ _ _
      rw [Prog.safe_bind]
      refine Prog.safe_raiseIf (fun _ => hclose _ _) fun _ => ?_
      exact hok sock _

/-- The thread holds the lock and, with it, what the lock guards. -/
def Kept (held : Option RemoteMemory) (own : Holding Stage) : Prop := ∃ self, held = some self ∧ Share self own

/-- A part of a critical section that leaves it whole, however it ends. -/
def Keeps (p : ServiceProg α) : Prop := ∀ held own, Kept held own →
  p.Safe protocol Share (fun _ held own => Kept held own) held own

theorem Keeps.bind {p : ServiceProg α} {f : α → ServiceProg β} (hp : Keeps p) (hf : ∀ a, Keeps (f a)) :
    Keeps (p >>= f) := by
  intro held own hk
  rw [Prog.safe_bind]
  refine (hp held own hk).mono ?_
  intro r held own h
  cases r with
  | ok a => exact hf a held own h
  | error e => exact h

theorem keeps_pure (a : α) : Keeps (pure a : ServiceProg α) := fun _ _ h => h

theorem keeps_self : Keeps Prog.self := fun _ _ h => safe_self fun _ _ => h

theorem keeps_raiseIf (c : Prop) [Decidable c] (e : Exc) : Keeps (Prog.raiseIf c e) :=
  fun _ _ h => Prog.safe_raiseIf (fun _ => h) fun _ => h

theorem share_single {self : RemoteMemory} {sock : Nat} (hs : self.sock = some sock) {g : Stage}
    (hg : g = .granted ∨ g = .leased) : Share self (.single sock g) := by
  rw [Share, hs]
  exact ⟨g, hg, rfl⟩

theorem share_none {self : RemoteMemory} (hs : self.sock = none) : Share self .none := by
  rw [Share, hs]

/-- What the lock guards after a request may have raised. -/
def ShareAny (self : RemoteMemory) (own : Holding Stage) : Prop :=
  match self.sock with
  | none => own = .none
  | some sock => ∃ g, own = .single sock g

theorem Share.any {self : RemoteMemory} {own : Holding Stage} (h : Share self own) : ShareAny self own := by
  unfold Share at h
  unfold ShareAny
  split
  · rename_i hs
    rwa [hs] at h
  · rename_i hs
    rw [hs] at h
    obtain ⟨g, -, ho⟩ := h
    exact ⟨g, ho⟩

theorem shareAny_single {self : RemoteMemory} {sock : Nat} (hs : self.sock = some sock) (g : Stage) :
    ShareAny self (.single sock g) := by
  rw [ShareAny, hs]
  exact ⟨g, rfl⟩

/-- `_mark_disconnected`: the socket is closed, whatever became of it. -/
theorem safe_markDisconnected {post : Except Exc Unit → Option RemoteMemory → Holding Stage → Prop}
    {self : RemoteMemory} (e : Exc)
    (hown : ShareAny self own) (h : ∀ self' : RemoteMemory, self'.sock = none → post (.ok ()) (some self') .none) :
    (markDisconnected e).Safe protocol Share post (some self) own := by
  unfold markDisconnected
  rw [Prog.safe_bind]
  refine safe_self fun r hr => ?_
  cases hr self rfl
  show (Prog.assign _ >>= fun _ => _ : ServiceProg Unit).Safe _ _ _ _ _
  rw [Prog.safe_bind]
  refine safe_assign rfl ?_
  cases hs : self.sock with
  | none =>
    rw [ShareAny, hs] at hown
    cases hown
    exact h _ rfl
  | some sock =>
    rw [ShareAny, hs] at hown
    obtain ⟨g, rfl⟩ := hown
    refine ⟨by simp, ?_⟩
    rw [Holding.update_single_none]
    exact h _ rfl

/-- `_reconnect`, which finds the old socket closed. -/
theorem safe_reconnect {post : Except Exc Unit → Option RemoteMemory → Holding Stage → Prop}
    {self : RemoteMemory}
    (hok : ∀ (self' : RemoteMemory) sock, self'.sock = some sock →
      post (.ok ()) (some self') (.single sock .granted))
    (herr : ∀ e, post (.error e) (some self) .none) :
    reconnect.Safe protocol Share post (some self) .none := by
  unfold reconnect
  rw [Prog.safe_bind]
  refine safe_borrowNewSocket (fun sock g => ?_) herr
  show (Prog.self >>= fun _ => _ : ServiceProg Unit).Safe _ _ _ _ _
  rw [Prog.safe_bind]
  refine safe_self fun r _ => ?_
  exact safe_assign rfl (hok _ sock rfl)

theorem after_leased {g : Stage} {m : Sending} (hg : g = .granted ∨ g = .leased)
    (hop : m.message.op ≠ opRelease) {answered : Bool} (h : answered ∨ m.attempt = .second) :
    protocol.after g m answered = .leased := by
  rcases hg with rfl | rfl <;> simp [protocol, hop, h]

theorem allows_leased {g : Stage} {m : Sending} (hg : g = .granted ∨ g = .leased)
    (ha : m.attempt = .first) (hop : ofLease m.message.op) (hwf : m.message.WellFormed) :
    protocol.allows g m := by
  rcases hg with rfl | rfl <;> simp [protocol, ha, hop, hwf]

/-- A request that the retry protects. If the first one raises, its socket is closed, and the second
one goes out on a socket of its own, which is kept even if that raises too. -/
theorem keeps_requestWithReconnect {op : Nat} {offset length : Int} {payload : Bytes}
    (hop : op = opRead ∨ op = opWrite)
    (hpay : if op = opWrite then length = payload.length else payload = []) :
    Keeps (requestWithReconnect op offset length payload) := by
  rintro held own ⟨self, rfl, hshare⟩
  have h256 : op < 256 := by rcases hop with rfl | rfl <;> decide
  have hof : ofLease op := by rcases hop with rfl | rfl <;> decide
  have hrel : op ≠ opRelease := by rcases hop with rfl | rfl <;> decide
  -- the handler, from any stage of the socket
  have hretry : ∀ (e : Exc) (own : Holding Stage), ShareAny self own →
      (markDisconnected e >>= fun _ => reconnect >>= fun _ => Prog.self >>= fun r =>
        rmlRequest .second r.sock op offset length payload).Safe protocol Share
          (fun _ held own => Kept held own) (some self) own := by
    intro e own hown
    rw [Prog.safe_bind]
    refine safe_markDisconnected e hown fun self₁ hs₁ => ?_
    show (reconnect >>= fun _ => _ : ServiceProg _).Safe _ _ _ _ _
    rw [Prog.safe_bind]
    refine safe_reconnect (fun self₂ sock hs₂ => ?_) fun _ => ⟨self₁, rfl, share_none hs₁⟩
    show (Prog.self >>= fun _ => _ : ServiceProg _).Safe _ _ _ _ _
    rw [Prog.safe_bind]
    refine safe_self fun r hr => ?_
    cases hr self₂ rfl
    show (rmlRequest _ self₂.sock _ _ _ _).Safe _ _ _ _ _
    rw [hs₂]
    refine safe_rmlRequest (g := .granted) (by simp) h256 hpay ?_
      ⟨self₂, rfl, share_single hs₂ (Or.inl rfl)⟩ ?_
    · intro m _ hm hwf
      simp [protocol, hm, hof, hwf]
    · intro m hm hmop r
      rw [Holding.update_single, after_leased (Or.inl rfl) (by rwa [hmop]) (Or.inr hm)]
      exact ⟨self₂, rfl, share_single hs₂ (Or.inr rfl)⟩
  unfold requestWithReconnect
  rw [Prog.safe_tryCatch, Prog.safe_bind]
  refine safe_self fun r hr => ?_
  cases hr self rfl
  show (rmlRequest _ self.sock _ _ _ _).Safe _ _ _ _ _
  cases hs : self.sock with
  | none => exact hretry _ own hshare.any
  | some sock =>
    rw [Share, hs] at hshare
    obtain ⟨g, hg, rfl⟩ := hshare
    refine safe_rmlRequest (g := g) (by simp) h256 hpay ?_ (hretry _ _ (shareAny_single hs g)) ?_
    · intro m ha hm hwf
      exact allows_leased hg ha (by rwa [hm]) hwf
    · intro m ha hm r
      rw [Holding.update_single]
      cases r with
      | ok r =>
        have hafter : protocol.after g m true = .leased := after_leased hg (by rwa [hm]) (Or.inl rfl)
        exact ⟨self, rfl, share_single hs (Or.inr hafter)⟩
      | error e => exact hretry e _ (shareAny_single hs _)

theorem keeps_readChunk (offset length : Int) (output : Bytes) (pos : Int) :
    Keeps (readChunk offset length output pos) := by
  unfold readChunk
  refine keeps_self.bind fun self => ?_
  refine (keeps_requestWithReconnect (Or.inl rfl) rfl).bind fun body => ?_
  exact (keeps_raiseIf _ _).bind fun _ => keeps_pure _

theorem Keeps.foldlM {f : β → α → ServiceProg β} (hf : ∀ b a, Keeps (f b a)) (xs : List α) :
    ∀ b, Keeps (xs.foldlM f b) := by
  induction xs with
  | nil => exact fun b => keeps_pure b
  | cons x xs ih =>
    intro b
    rw [List.foldlM_cons]
    exact (hf b x).bind ih

theorem keeps_writeLoop (offset : Int) (data : Bytes) (fuel : Nat) :
    ∀ pos : Int, 0 ≤ pos → Keeps (writeLoop offset data fuel pos) := by
  induction fuel with
  | zero => exact fun pos _ => keeps_pure ()
  | succ fuel ih =>
    intro pos hpos
    unfold writeLoop
    split
    · rename_i hlt
      refine keeps_self.bind fun self => ?_
      have hn : min RemoteMemory.maxTransfer (data.length - pos) ≤ data.length - pos := by omega
      have hn0 : 0 ≤ min RemoteMemory.maxTransfer (data.length - pos) := by
        have : 0 < RemoteMemory.maxTransfer := by decide
        omega
      refine (keeps_requestWithReconnect (Or.inr rfl) ?_).bind fun _ => ih _ (by omega)
      rw [if_pos rfl, length_slice hpos hn0 (by omega)]
    · exact keeps_pure ()

/-- A critical section whose body leaves it whole. -/
theorem Keeps.withLock {p : ServiceProg α} (hp : Keeps p)
    {post : Except Exc α → Option RemoteMemory → Holding Stage → Prop} (hpost : ∀ r, post r none .none) :
    (Prog.withLock p).Safe protocol Share post none .none := by
  refine Prog.safe_withLock fun r part hs _ => ?_
  rw [Holding.merge_none]
  refine (hp _ _ ⟨r, rfl, hs⟩).mono ?_
  rintro a held own ⟨self, rfl, hshare⟩
  refine ⟨self, own, rfl, hshare, fun _ _ h => h, ?_⟩
  rw [Holding.without_self]
  exact hpost a

theorem safe_keepalive : keepalive.Safe protocol Share Unlocked none .none := by
  refine Keeps.withLock ?_ fun _ => rfl
  rintro held own ⟨self, rfl, hshare⟩
  rw [Prog.safe_bind]
  refine safe_self fun r hr => ?_
  cases hr self rfl
  show (if self.sock = none ∨ self.leaseId = 0 then pure () else _ : ServiceProg Unit).Safe _ _ _ _ _
  split
  · exact ⟨self, rfl, hshare⟩
  · rename_i hc
    -- the handler marks the socket disconnected and raises again
    have hfail : ∀ (e : Exc) (own : Holding Stage), ShareAny self own →
        (markDisconnected e >>= fun _ => throw e : ServiceProg Unit).Safe protocol Share
          (fun _ held own => Kept held own) (some self) own := by
      intro e own hown
      rw [Prog.safe_bind]
      exact safe_markDisconnected e hown fun self' hs' => ⟨self', rfl, share_none hs'⟩
    obtain ⟨sock, hs⟩ := Option.ne_none_iff_exists'.mp fun h => hc (Or.inl h)
    rw [Prog.safe_tryCatch, Prog.safe_bind, hs]
    have hshare' := hshare
    rw [Share, hs] at hshare
    obtain ⟨g, hg, rfl⟩ := hshare
    refine safe_rmlRequest (g := g) (by simp) (by decide) (by simp [opKeepalive, opWrite]) ?_
      (hfail _ _ hshare'.any) ?_
    · intro m ha hm hwf
      exact allows_leased hg ha (by rw [hm]; decide) hwf
    · intro m ha hm r
      rw [Holding.update_single]
      cases r with
      | error e => exact hfail e _ (shareAny_single hs _)
      | ok r =>
        have hafter : protocol.after g m true = .leased :=
          after_leased hg (by rw [hm]; decide) (Or.inl rfl)
        show (Prog.self >>= fun _ => _ : ServiceProg Unit).Safe _ _ _ _ _
        rw [Prog.safe_bind]
        refine safe_self fun r hr => ?_
        cases hr self rfl
        exact safe_assign rfl ⟨_, rfl, share_single hs (Or.inr hafter)⟩

/-- The new socket is the caller's own until the lock is taken, and the lock's from then on. -/
theorem safe_connectAndBorrow : connectAndBorrow.Safe protocol Share Unlocked none .none := by
  unfold connectAndBorrow
  rw [Prog.safe_bind]
  refine safe_borrowNewSocket (fun sock g => ?_) fun _ => rfl
  refine Prog.safe_withLock fun r part _ hdisj => ?_
  rw [Prog.safe_bind]
  refine safe_self fun r _ => safe_assign rfl ?_
  refine ⟨_, .single sock .granted, rfl, share_single rfl (Or.inl rfl), ?_, rfl⟩
  intro i g' hi
  rw [Holding.single_apply] at hi
  split at hi
  · rename_i hisock
    subst hisock
    have hpart : part i = none := by
      by_contra hn
      have := hdisj i hn
      simp at this
    simpa [hpart] using hi
  · cases hi

theorem safe_read (offset length : Int) : (read offset length).Safe protocol Share
    (fun _ held own => held = none ∧ own = .none) none .none := by
  unfold read
  rw [Prog.safe_bind]
  refine safe_self fun r _ => ?_
  show (Prog.raiseIf _ _ >>= fun _ => _ : ServiceProg Bytes).Safe _ _ _ _ _
  rw [Prog.safe_bind]
  refine Prog.safe_raiseIf (fun _ => ⟨rfl, rfl⟩) fun _ => ?_
  exact (Keeps.foldlM (keeps_readChunk offset length) _ _).withLock fun _ => ⟨rfl, rfl⟩

theorem safe_write (offset : Int) (data : Bytes) :
    (write offset data).Safe protocol Share Unlocked none .none := by
  unfold write
  rw [Prog.safe_bind]
  refine safe_self fun r _ => ?_
  show (Prog.raiseIf _ _ >>= fun _ => _ : ServiceProg Unit).Safe _ _ _ _ _
  rw [Prog.safe_bind]
  refine Prog.safe_raiseIf (fun _ => rfl) fun _ => ?_
  exact (keeps_writeLoop offset data _ 0 (by omega)).withLock fun _ => rfl

/-- The socket in use becomes the caller's own, who sends RELEASE on it without the lock. -/
theorem safe_release : release.Safe protocol Share Unlocked none .none := by
  unfold release
  rw [Prog.safe_bind]
  refine Prog.safe_withLock fun self part hshare _ => ?_
  rw [Holding.merge_none, Prog.safe_bind]
  refine safe_self fun r hr => ?_
  cases hr self rfl
  show (Prog.assign _ >>= fun _ => _ : ServiceProg RemoteMemory).Safe _ _ _ _ _
  rw [Prog.safe_bind]
  refine safe_assign rfl ⟨_, .none, rfl, share_none rfl, by simp, ?_⟩
  rw [Holding.without_none]
  show (match self.sock with
    | none => _
    | some sock => _ : ServiceProg Unit).Safe _ _ _ _ _
  cases hs : self.sock with
  | none => rfl
  | some sock =>
    rw [Share, hs] at hshare
    obtain ⟨g, hg, rfl⟩ := hshare
    show (if self.leaseId ≠ 0 then _ else _ : ServiceProg Unit).Safe _ _ _ _ _
    split
    · have hclose : ∀ g : Stage, (close sock : ServiceProg Unit).Safe protocol Share Unlocked none
          (.single sock g) := by
        intro g
        exact ⟨by simp, rfl⟩
      rw [Prog.safe_bind, Prog.safe_tryCatch, Prog.safe_bind]
      refine safe_rmlRequest (g := g) (by simp) (by decide) (by simp [opRelease, opWrite]) ?_ (hclose g) ?_
      · intro m ha hm hwf
        exact allows_leased hg ha (by rw [hm]; decide) hwf
      · intro m _ _ r
        rw [Holding.update_single]
        cases r <;> exact hclose _
    · rfl

theorem safe_status : (Prog.withLock Prog.self : ServiceProg RemoteMemory).Safe protocol Share
    (fun _ held own => held = none ∧ own = .none) none .none :=
  keeps_self.withLock fun _ => ⟨rfl, rfl⟩

theorem safe_call (c : Call) : (system.method c).Safe protocol Share Unlocked none .none := by
  cases c with
  | connectAndBorrow => exact safe_connectAndBorrow
  | keepalive => exact safe_keepalive
  | write offset data => exact safe_write offset data
  | release => exact safe_release
  | read offset length =>
    show (read offset length >>= fun _ => pure ()).Safe _ _ _ _ _
    rw [Prog.safe_bind]
    refine (safe_read offset length).mono ?_
    rintro r held own ⟨rfl, rfl⟩
    cases r <;> rfl
  | status =>
    show (Prog.withLock Prog.self >>= fun _ => pure ()).Safe _ _ _ _ _
    rw [Prog.safe_bind]
    refine safe_status.mono ?_
    rintro r held own ⟨rfl, rfl⟩
    cases r <;> rfl

end Safe

/-! ## What is in the two streams -/

/-- The header of a reply, as it is unpacked. -/
def headerOf (r : Reply) : Header := ⟨magic, r.op, r.offset, r.body.length⟩

/-- Every request before the last has been decoded, answered and returned from. -/
structure Settled (before : List Message) (hs : List (Message × Reply)) (c : Channel) : Prop where
  handled : hs.map Prod.fst = before
  returned : c.returned = hs

/-- The streams of a socket on which no request has raised, by how far the request in progress is. -/
inductive Sound : Option (Sending × Place) → Channel → Prop where
  | rest {c} (hs) (h : Settled c.issued hs c) (hh : c.handled = hs) (up : c.up = []) (down : c.down = []) :
      Sound none c
  | header {c} (m : Sending) (before hs) (hw : m.message.WellFormed) (hi : c.issued = before ++ [m.message])
      (h : Settled before hs c) (hh : c.handled = hs) (up : c.up = []) (down : c.down = []) :
      Sound (some (m, .header)) c
  | payload {c} (m : Sending) (before hs) (hw : m.message.WellFormed)
      (hi : c.issued = before ++ [m.message]) (h : Settled before hs c) (hh : c.handled = hs)
      (hp : m.message.payload ≠ []) (up : c.up = m.message.header) (down : c.down = []) :
      Sound (some (m, .payload)) c
  /-- Sent, not decoded yet. -/
  | asked {c} (m : Sending) (before hs) (hw : m.message.WellFormed) (hi : c.issued = before ++ [m.message])
      (h : Settled before hs c) (hh : c.handled = hs) (up : c.up = m.message.bytes) (down : c.down = []) :
      Sound (some (m, .reply)) c
  | answered {c} (m : Sending) (before hs) (r : Reply) (hi : c.issued = before ++ [m.message])
      (h : Settled before hs c) (hh : c.handled = hs ++ [(m.message, r)]) (hr : r.Fits) (up : c.up = [])
      (down : c.down = r.bytes) : Sound (some (m, .reply)) c
  | body {c} (m : Sending) (before hs) (r : Reply) (hi : c.issued = before ++ [m.message])
      (h : Settled before hs c) (hh : c.handled = hs ++ [(m.message, r)]) (up : c.up = [])
      (down : c.down = r.body) : Sound (some (m, .body (headerOf r))) c

theorem unpack_reply {r : Reply} (h : r.Fits) (rest : Bytes) :
    unpackHeader ((r.bytes ++ rest).take headerSize) = headerOf r ∧
      (r.bytes ++ rest).drop headerSize = r.body ++ rest := by
  have hl : (RamLink.header r.op r.offset r.body.length).length = headerSize := length_header ..
  constructor
  · rw [Reply.bytes, List.append_assoc, ← hl, List.take_left]
    exact unpackHeader_header h.1 h.2.1 h.2.2
  · rw [Reply.bytes, List.append_assoc, ← hl, List.drop_left]

/-- The reply to the request in progress has come in whole. -/
theorem Settled.next {before : List Message} {hs : List (Message × Reply)} {c d : Channel} {m : Message}
    {r : Reply} (h : Settled before hs c) (hi : d.issued = before ++ [m])
    (hret : d.returned = c.returned ++ [(m, r)]) : Settled d.issued (hs ++ [(m, r)]) d := by
  constructor
  · rw [hi, List.map_append, h.handled]
    rfl
  · rw [hret, h.returned]

/-- The provider decodes only what is whole. -/
theorem sound_serve {r : Reply} {at' : Option (Sending × Place)} {c c' : Channel} (h : Sound at' c)
    (hs : socket.serve r c = some c') : Sound at' c' := by
  simp only [socket] at hs
  cases hd : Borrower.decode c.up with
  | none => rw [hd] at hs; cases hs
  | some d =>
    obtain ⟨m', rest⟩ := d
    rw [hd] at hs
    simp only at hs
    split at hs
    · rename_i hfit
      cases hs
      have hnil : Borrower.decode [] = none := rfl
      cases h with
      | rest hs h hh up down => rw [up, hnil] at hd; cases hd
      | header m before hs hw hi h hh up down => rw [up, hnil] at hd; cases hd
      | payload m before hs hw hi h hh hp up down =>
        rw [up, Borrower.decode_header hw hp] at hd
        cases hd
      | asked m before hs hw hi h hh up down =>
        have hdec := Borrower.decode_bytes hw []
        rw [List.append_nil] at hdec
        rw [up, hdec] at hd
        cases hd
        exact .answered m before hs r hi ⟨h.handled, h.returned⟩ (by rw [hh]) hfit rfl (by simp [down])
      | answered m before hs r' hi h hh hr up down => rw [up, hnil] at hd; cases hd
      | body m before hs r' hi h hh up down => rw [up, hnil] at hd; cases hd
    · cases hs

/-- A step of the request in progress: it goes on, or returns the reply to its own message. -/
theorem sound_turn {m : Sending} {a : Place} {c c' : Channel} {x : Place ⊕ Except Exc Reply}
    (h : Sound (some (m, a)) c) (ht : socket.turn m a c = some (c', x)) :
    (∃ a', x = .inl a' ∧ Sound (some (m, a')) c') ∨ ∃ r, x = .inr (.ok r) ∧ Sound none c' := by
  cases h with
  | header m before hs hw hi h hh up down =>
    cases ht
    refine Or.inl ⟨_, rfl, ?_⟩
    by_cases hp : m.message.payload = []
    · rw [if_neg (by simpa using hp)]
      refine .asked m before hs hw hi ⟨h.handled, h.returned⟩ hh ?_ down
      simp [up, Message.bytes, hp]
    · rw [if_pos hp]
      exact .payload m before hs hw hi ⟨h.handled, h.returned⟩ hh hp (by simp [up]) down
  | payload m before hs hw hi h hh hp up down =>
    cases ht
    exact Or.inl ⟨_, rfl, .asked m before hs hw hi ⟨h.handled, h.returned⟩ hh (by simp [up, Message.bytes])
      down⟩
  | asked m before hs hw hi h hh up down =>
    simp [socket, down, headerSize] at ht
  | answered m before hs r hi h hh hr up down =>
    obtain ⟨hu, hd⟩ := unpack_reply hr []
    rw [List.append_nil] at hu hd
    have hlen : ¬ c.down.length < headerSize := by
      rw [down, Reply.bytes, List.length_append, length_header]
      omega
    simp only [socket, if_neg hlen] at ht
    rw [down, hu, hd, List.append_nil] at ht
    rw [if_neg (show ¬ (headerOf r).magic ≠ magic from fun h => h rfl)] at ht
    by_cases hb : (headerOf r).length ≠ 0
    · rw [if_pos hb] at ht
      cases ht
      exact Or.inl ⟨_, rfl, .body m before hs r hi ⟨h.handled, h.returned⟩ hh up rfl⟩
    · rw [if_neg hb] at ht
      cases ht
      have hnil : r.body = [] := List.length_eq_zero_iff.mp (not_not.mp hb)
      have hr' : (⟨(headerOf r).op, (headerOf r).offset, []⟩ : Reply) = r := by
        cases r
        cases hnil
        rfl
      exact Or.inr ⟨_, rfl, .rest _ (h.next (d := _) hi (by rw [hr'])) hh up hnil⟩
  | body m before hs r hi h hh up down =>
    have hlen : ¬ c.down.length < (headerOf r).length := by
      rw [down]
      exact Nat.lt_irrefl _
    simp only [socket, if_neg hlen] at ht
    cases ht
    have hr' : (⟨(headerOf r).op, (headerOf r).offset, c.down.take (headerOf r).length⟩ : Reply) = r := by
      rw [down]
      show (⟨r.op, r.offset, r.body.take r.body.length⟩ : Reply) = r
      rw [List.take_length]
    refine Or.inr ⟨_, rfl, .rest _ (h.next (d := _) hi (by rw [hr'])) hh up ?_⟩
    show c.down.drop r.body.length = []
    rw [down, List.drop_length]

/-- The streams of a socket on which a request raised that no request follows: what has been sent of
the last one may still reach the provider, and its reply is never received. -/
inductive Lost (c : Channel) : Prop where
  | sent (m : Message) (before hs) (hw : m.WellFormed) (hi : c.issued = before ++ [m])
      (h : Settled before hs c) (hh : c.handled = hs) (up : c.up <+: m.bytes)
  | answered (m : Message) (before hs) (r : Reply) (hi : c.issued = before ++ [m])
      (h : Settled before hs c) (hh : c.handled = hs ++ [(m, r)]) (up : c.up = [])

/-- Of a request that is cut off nothing is decoded. -/
theorem decode_prefix {m : Message} (hw : m.WellFormed) {up : Bytes} (h : up <+: m.bytes) :
    Borrower.decode up = none ∨ up = m.bytes := by
  obtain ⟨rest, hrest⟩ := h
  by_cases hr : rest = []
  · rw [hr, List.append_nil] at hrest
    exact Or.inr hrest
  · left
    have hlen : up.length < headerSize + m.payload.length := by
      have h1 := congrArg List.length hrest
      have h2 : 0 < rest.length := List.length_pos_iff.mpr hr
      rw [List.length_append, Message.bytes, List.length_append, Borrower.length_header] at h1
      omega
    unfold Borrower.decode
    split
    · rfl
    · rename_i hge
      have ht : up.take headerSize = m.header := by
        have := congrArg (List.take headerSize) hrest
        rwa [List.take_append_of_le_length (by omega), Message.bytes, ← Borrower.length_header m,
          List.take_left] at this
      rw [ht, Borrower.unpack_header hw.fits]
      simp only [ne_eq, not_true_eq_false, if_false, Borrower.payload_length hw]
      rw [if_pos]
      rw [List.length_drop]
      omega

theorem lost_serve {r : Reply} {c c' : Channel} (h : Lost c) (hs : socket.serve r c = some c') : Lost c' := by
  simp only [socket] at hs
  cases hd : Borrower.decode c.up with
  | none => rw [hd] at hs; cases hs
  | some d =>
    obtain ⟨m', rest⟩ := d
    rw [hd] at hs
    simp only at hs
    split at hs
    · cases hs
      cases h with
      | sent m before hs hw hi h hh up =>
        rcases decode_prefix hw up with hn | he
        · rw [hn] at hd
          cases hd
        · have hdec := Borrower.decode_bytes hw []
          rw [List.append_nil] at hdec
          rw [he, hdec] at hd
          cases hd
          exact .answered _ before hs r hi ⟨h.handled, h.returned⟩ (by rw [hh]) rfl
      | answered m before hs r' hi h hh up => rw [up] at hd; cases hd
    · cases hs

theorem Sound.lost {m : Sending} {a : Place} {c : Channel} (h : Sound (some (m, a)) c) (f : Fault) :
    Lost (socket.fail m a f c).1 := by
  cases h with
  | header m before hs hw hi h hh up down =>
    refine .sent m.message before hs hw hi ⟨h.handled, h.returned⟩ hh ?_
    show c.up ++ m.message.header.take f.moved <+: m.message.bytes
    rw [up, List.nil_append]
    exact (List.take_prefix ..).trans (List.prefix_append ..)
  | payload m before hs hw hi h hh hp up down =>
    refine .sent m.message before hs hw hi ⟨h.handled, h.returned⟩ hh ?_
    show c.up ++ m.message.payload.take f.moved <+: m.message.bytes
    rw [up, Message.bytes]
    exact (List.prefix_append_right_inj _).mpr (List.take_prefix ..)
  | asked m before hs hw hi h hh up down =>
    refine .sent m.message before hs hw hi ⟨h.handled, h.returned⟩ hh ?_
    show c.up <+: m.message.bytes
    rw [up]
  | answered m before hs r hi h hh hr up down =>
    exact .answered m.message before hs r hi ⟨h.handled, h.returned⟩ hh up
  | body m before hs r hi h hh up down =>
    exact .answered m.message before hs r hi ⟨h.handled, h.returned⟩ hh up

/-- A retry of `_request_with_reconnect` raised. -/
def RetryRaised (log : List (Event Sending)) : Prop :=
  ∃ m : Sending, m.attempt = .second ∧ [.began m, .raised] <:+: log

theorem RetryRaised.append {log : List (Event Sending)} (h : RetryRaised log) (e : Event Sending) :
    RetryRaised (log ++ [e]) := by
  obtain ⟨m, hm, hi⟩ := h
  exact ⟨m, hm, hi.trans (List.infix_append' [] log [e])⟩

/-- No request can follow. -/
def Over (log : List (Event Sending)) : Prop :=
  ∀ g m, protocol.life log = some (.ready g) → protocol.allows g m = false

/-- What the steps on one socket keep. -/
inductive SocketInv (log : List (Event Sending)) : Option (Sending × Place) → Channel → Prop where
  | retried {at' c} (h : RetryRaised log) : SocketInv log at' c
  | sound {at' c} (h : Sound at' c) (hr : Event.raised ∉ log) : SocketInv log at' c
  | lost {c} (h : Lost c) (hr : Event.raised ∈ log) (ho : Over log) : SocketInv log none c

theorem keeps_socketInv : socket.Keeps protocol SocketInv where
  fresh := .sound (.rest [] ⟨rfl, rfl⟩ rfl rfl rfl) (by simp)
  begin {log c g m} hl ha h := by
    cases h with
    | retried h => exact .retried (h.append _)
    | sound h hr =>
      have hw : m.message.WellFormed := by
        unfold protocol at ha
        simp only [Bool.and_eq_true, decide_eq_true_eq] at ha
        exact ha.1
      cases h with
      | rest hs h hh up down =>
        exact .sound (.header m c.issued hs hw rfl ⟨h.handled, h.returned⟩ hh up down) (by simpa using hr)
    | lost h hr ho =>
      rw [ho g m hl] at ha
      cases ha
  turn {log c c' m a a'} h ht := by
    cases h with
    | retried h => exact .retried h
    | sound h hr =>
      rcases sound_turn h ht with ⟨a'', he, hs⟩ | ⟨r, he, -⟩
      · cases he
        exact .sound hs hr
      · cases he
  ended {log c c' m a r} h ht := by
    cases h with
    | retried h => exact .retried (h.append _)
    | sound h hr =>
      rcases sound_turn h ht with ⟨a'', he, -⟩ | ⟨r', he, hs⟩
      · cases he
      · cases he
        exact .sound hs (by simpa [System.ended, Except.isOk, Except.toBool] using hr)
  fail {log c g m a} f hl h := by
    obtain ⟨log', rfl⟩ := Protocol.life_busy hl
    cases h with
    | retried h => exact .retried (h.append _)
    | sound h hr =>
      by_cases hm : m.attempt = .second
      · exact .retried ⟨m, hm, ⟨log', [], by simp⟩⟩
      · refine .lost (h.lost f) (by simp) fun g' m' hg' => ?_
        rw [Protocol.life_append hl] at hg'
        cases hg'
        by_cases hop : m.message.op = opRelease <;> cases g <;> simp [protocol, hm, hop]
  close {log c} h := by
    cases h with
    | retried h => exact .retried (h.append _)
    | sound h hr => exact .sound h (by simpa using hr)
    | lost h hr ho =>
      refine .lost h (by simpa using hr) fun g m hg => ?_
      obtain ⟨l, -, hn⟩ := Protocol.life_append_some.mp hg
      cases l <;> cases hn
  serve {log at' c c' x} h hs := by
    cases h with
    | retried h => exact .retried h
    | sound h hr => exact .sound (sound_serve h hs) hr
    | lost h hr ho => exact .lost (lost_serve h hs) hr ho

/-! ## Whatever the threads do -/

abbrev Service := World RemoteMemory Exc Sending Reply Place Channel

/-- A run of the service from its start, whatever its threads call, wherever their socket calls fail,
and whatever the provider answers. -/
def Reachable (megabytes : Int) (w : Service) : Prop :=
  ∃ acts, exec system.step (system.start (RemoteMemory.init megabytes)) acts = some w

theorem share_init (megabytes : Int) : Share (RemoteMemory.init megabytes) .none := share_none rfl

/-- On every socket ever opened, the requests and their ends follow the protocol. In particular no two
threads are ever in a request on one socket, and no socket is used after it is closed. -/
theorem traffic_keeps_to_protocol {megabytes : Int} {w : Service} (h : Reachable megabytes w) (sock : Nat) :
    ∃ l, protocol.life (w.log sock) = some l := by
  obtain ⟨acts, h⟩ := h
  exact life_of_exec safe_call (share_init megabytes) h sock

def grantReply : Reply := ⟨opBorrow, 0, toBE 8 1 ++ toBE 8 0 ++ toBE 8 1048576⟩

/-- `connect_and_borrow` of one MiB, up to where its thread has just taken the lock. -/
def borrowing : List (Act Exc Fault Reply Call) :=
  [.call 0 .connectAndBorrow, .go 0, .go 0, .go 0, .go 0, .serve 0 grantReply, .go 0, .go 0, .go 0]

/-- The rest of it. -/
def borrowed : List (Act Exc Fault Reply Call) := borrowing ++ [.go 0, .go 0, .go 0, .go 0]

/-- Then three threads at once: a write, a read and a keepalive, each of which waits for the lock. -/
def shared : List (Act Exc Fault Reply Call) :=
  borrowed ++ [.call 0 (.write 5 [7, 8]), .call 1 (.read 0 3), .call 2 .keepalive] ++
    List.replicate 7 (.go 0) ++ [.go 1, .serve 0 ⟨opWrite, 5, []⟩] ++ List.replicate 3 (.go 0) ++
    List.replicate 5 (.go 1) ++ [.serve 0 ⟨opRead, 0, [0, 0, 0]⟩] ++ List.replicate 4 (.go 1) ++
    List.replicate 4 (.go 2) ++ [.serve 0 ⟨opKeepalive, 1, []⟩] ++ List.replicate 5 (.go 2)

theorem shared_log : ∃ w, exec system.step (system.start (RemoteMemory.init 1)) shared = some w ∧
    w.log 0 = [.began ⟨.first, opBorrow, 0, 1048576, []⟩, .returned,
      .began ⟨.first, opWrite, 5, 2, [7, 8]⟩, .returned, .began ⟨.first, opRead, 0, 3, []⟩, .returned,
      .began ⟨.first, opKeepalive, 1, 0, []⟩, .returned] ∧
    (w.chan 0).returned = [(⟨opBorrow, 0, 1048576, []⟩, grantReply), (⟨opWrite, 5, 2, [7, 8]⟩, ⟨opWrite, 5, []⟩),
      (⟨opRead, 0, 3, []⟩, ⟨opRead, 0, [0, 0, 0]⟩), (⟨opKeepalive, 1, 0, []⟩, ⟨opKeepalive, 1, []⟩)] :=
  ⟨_, rfl, by decide +kernel, by decide +kernel⟩

theorem traffic_keeps_to_protocol_shared : ∃ w, Reachable 1 w ∧ (w.log 0).length = 8 ∧
    ∃ l, protocol.life (w.log 0) = some l := by
  obtain ⟨w, hw, hl, -⟩ := shared_log
  exact ⟨w, ⟨_, hw⟩, by rw [hl]; rfl, traffic_keeps_to_protocol ⟨_, hw⟩ 0⟩

/-- What a socket carries: the provider has decoded the requests made on it, in order and each with its
own payload, and every request that returned has the reply to itself. -/
structure Faithful (c : Channel) : Prop where
  decoded : c.handled.map Prod.fst <+: c.issued
  own : c.returned <+: c.handled

theorem Settled.faithful {before : List Message} {hs : List (Message × Reply)} {c : Channel} {m : Message}
    (h : Settled before hs c) (hi : c.issued = before ++ [m]) (hh : c.handled = hs) : Faithful c := by
  constructor
  · rw [hh, h.handled, hi]
    exact List.prefix_append ..
  · rw [hh, h.returned]

theorem Settled.faithful_answered {before : List Message} {hs : List (Message × Reply)} {c : Channel}
    {m : Message} {r : Reply} (h : Settled before hs c) (hi : c.issued = before ++ [m])
    (hh : c.handled = hs ++ [(m, r)]) : Faithful c := by
  constructor
  · rw [hh, List.map_append, h.handled, hi]
    exact List.prefix_rfl
  · rw [hh, h.returned]
    exact List.prefix_append ..

theorem Sound.faithful {at' : Option (Sending × Place)} {c : Channel} (h : Sound at' c) : Faithful c := by
  cases h with
  | rest hs h hh =>
    exact ⟨by rw [hh, h.handled], by rw [hh, h.returned]⟩
  | header m before hs _ hi h hh => exact h.faithful hi hh
  | payload m before hs _ hi h hh => exact h.faithful hi hh
  | asked m before hs _ hi h hh => exact h.faithful hi hh
  | answered m before hs r hi h hh => exact h.faithful_answered hi hh
  | body m before hs r hi h hh => exact h.faithful_answered hi hh

theorem Lost.faithful {c : Channel} (h : Lost c) : Faithful c := by
  cases h with
  | sent m before hs _ hi h hh => exact h.faithful hi hh
  | answered m before hs r hi h hh => exact h.faithful_answered hi hh

theorem socketInv_of_reachable {megabytes : Int} {w : Service} (h : Reachable megabytes w) (sock : Nat) :
    ∃ at', SocketInv (w.log sock) at' (w.chan sock) ∧
      ((∀ t, (w.thread t).Off sock) → at' = none) := by
  obtain ⟨acts, h⟩ := h
  have hres := resources_exec safe_call keeps_socketInv (share_init megabytes) h
  by_cases hq : ∀ t, (w.thread t).Off sock
  · exact ⟨none, hres.rest hq, fun _ => rfl⟩
  · have hq' := hq
    simp only [Thread.Off, not_forall, not_not] at hq'
    obtain ⟨t, m, a, k, ht⟩ := hq'
    exact ⟨_, hres.talking ht, fun h => absurd h hq⟩

/-- On every socket on which no retry has raised, and so whatever else has failed on it, the provider
decodes nothing but what the threads asked, and every request that returns has its own reply. -/
theorem own_replies {megabytes : Int} {w : Service} (h : Reachable megabytes w) {sock : Nat}
    (hr : ¬ RetryRaised (w.log sock)) : Faithful (w.chan sock) := by
  obtain ⟨at', hinv, -⟩ := socketInv_of_reachable h sock
  cases hinv with
  | retried h => exact absurd h hr
  | sound h => exact h.faithful
  | lost h => exact h.faithful

theorem own_replies_shared : ∃ w, Reachable 1 w ∧ (w.chan 0).returned.length = 4 ∧
    Faithful (w.chan 0) := by
  obtain ⟨w, hw, hl, hret⟩ := shared_log
  refine ⟨w, ⟨_, hw⟩, by rw [hret]; rfl, own_replies ⟨_, hw⟩ ?_⟩
  rw [hl]
  rintro ⟨m, -, hi⟩
  exact absurd (hi.subset (List.mem_cons_of_mem _ (List.mem_singleton_self _))) (by simp)

/-- A read whose retry times out leaves its socket in use with a reply still to come, which the next
read takes for its own: it asks for byte 1 and returns byte 0. -/
example : ∃ w, exec system.step (system.start (RemoteMemory.init 1)) (borrowed ++
    [.call 0 (.read 0 1), .go 0, .go 0, .go 0, .go 0, .go 0, .go 0, .fail 0 ⟨0, .osError "timed out"⟩,
      .go 0, .go 0, .go 0, .go 0, .go 0, .go 0, .go 0, .serve 1 grantReply, .go 0, .go 0, .go 0, .go 0,
      .go 0, .go 0, .go 0, .fail 0 ⟨0, .osError "timed out"⟩, .go 0, .go 0, .serve 1 ⟨opRead, 0, [7]⟩,
      .call 0 (.read 1 1), .go 0, .go 0, .go 0, .go 0, .go 0, .go 0, .go 0, .go 0]) = some w ∧
    (w.chan 1).returned.getLast? = some (⟨opRead, 1, 1, []⟩, ⟨opRead, 0, [7]⟩) :=
  ⟨_, rfl, by decide +kernel⟩

/-- Between the requests on a socket on which none has raised, no byte is left over in either direction,
and every request has been answered and has returned. -/
theorem settled_between_requests {megabytes : Int} {w : Service} (h : Reachable megabytes w) {sock : Nat}
    (hr : Event.raised ∉ w.log sock) (hq : ∀ t, (w.thread t).Off sock) :
    (w.chan sock).up = [] ∧ (w.chan sock).down = [] ∧
      (w.chan sock).handled.map Prod.fst = (w.chan sock).issued ∧
      (w.chan sock).returned = (w.chan sock).handled := by
  obtain ⟨at', hinv, hnone⟩ := socketInv_of_reachable h sock
  cases hnone hq
  cases hinv with
  | retried h =>
    obtain ⟨m, -, hi⟩ := h
    exact absurd (hi.subset (by simp)) hr
  | sound h =>
    cases h with
    | rest hs h hh up down => exact ⟨up, down, by rw [hh, h.handled], by rw [hh, h.returned]⟩
  | lost _ h => exact absurd h hr

/-- However the threads got where they are, their calls can end, without any answer of the provider,
and the lock is free then. -/
theorem calls_can_end {megabytes : Int} {w : Service} (h : Reachable megabytes w) :
    ∃ w', Reaches system w w' ∧ w'.lock = none ∧ ∀ t, w'.thread t = .idle := by
  obtain ⟨acts, h⟩ := h
  exact quiesces safe_call (share_init megabytes) ⟨0, .osError "timed out"⟩ h

/-- Here a thread holds the lock. -/
theorem calls_can_end_borrowing : ∃ w : Service, Reachable 1 w ∧ w.lock = some 0 ∧
    ∃ w', Reaches system w w' ∧ w'.lock = none ∧ ∀ t, w'.thread t = .idle := by
  obtain ⟨w, hw, hl⟩ : ∃ w, exec system.step (system.start (RemoteMemory.init 1)) borrowing = some w ∧
    w.lock = some 0 := ⟨_, rfl, by decide +kernel⟩
  exact ⟨w, ⟨_, hw⟩, hl, calls_can_end ⟨_, hw⟩⟩

end Locked

end RamLink
