import RamLink.MemoryService.Loopback

/-!
# RamLink.MemoryService.Apis

`RemoteAPI` and `_Service` over the local service, whatever becomes of their connections.

`LocalService.Client` is what both make of the service's replies. `Loopback.api_serves` carries over to them
what the memory of the service does.
-/

namespace RamLink

open Lib

namespace LocalApi

variable {reply : Bytes}

/-- What the first `recv` of an error takes. -/
theorem recv_errorReply (h : ErrorReply reply) (k : Nat) (segments : List Nat) :
    ∃ d c, (Conn.recv k).run { inbox := reply, cuts := segments } = .ok d c ∧
      (decode d = [] ∨ ∃ t, decode d = 'E' :: t) := by
  refine ⟨_, _, Conn.run_recv k _, ?_⟩
  simp only
  generalize min _ k = n
  obtain rfl | ⟨message, -, rfl⟩ := h
  · rw [List.take_nil]
    exact .inl rfl
  · cases n with
    | zero => exact .inl rfl
    | succ n =>
      have hhead : (ascii "ERROR " ++ message ++ [10]).take (n + 1) =
          encodeAscii ['E'] ++ (ascii "RROR " ++ message ++ [10]).take n := rfl
      rw [hhead, decode_ascii_append (by simp)]
      exact .inr ⟨_, rfl⟩

end LocalApi

/-! ## The two clients -/

namespace LocalService

variable {μ α : Type} {memory : Memory μ} {text : Exc → Option Bytes} {s : LocalService μ}

/-- What the requests of a client come to, where the service gets their lines whole. -/
structure Client (memory : Memory μ) (api : Api (LocalService μ)) : Prop where
  read : ∀ {Good : μ → Prop} {region : μ → Bytes} {s : LocalService μ} {offset length : Nat},
    memory.Reads Good region → Good s.memory → (length : Int) ≤ LocalApi.maxTransfer →
    offset + length ≤ (region s.memory).length →
    (∀ cuts, (s.links.headD .refused).Gets cuts →
      (encodeAscii (LocalApi.line "READ".toList offset length) ++ [10]).length ≤ LocalApi.firstLength cuts) →
    Ends (api.read offset length)
      (fun d t => (Good t.memory ∧ region t.memory = region s.memory) ∧ d = sub (region s.memory) offset length)
      (fun t => Good t.memory ∧ region t.memory = region s.memory) s
  write : ∀ {Q R : μ → Prop} {s : LocalService μ} {offset : Nat} {data : Bytes},
    Ends (memory.write offset data) (fun _ => Q) R s.memory → R s.memory → (∀ m, Q m → R m) →
    (data.length : Int) ≤ LocalApi.maxTransfer →
    (∀ cuts, (s.links.headD .refused).Gets cuts →
      (encodeAscii (LocalApi.line "WRITE".toList offset data.length) ++ [10]).length ≤
        LocalApi.firstLength cuts) →
    Ends (api.write offset data) (fun _ t => Q t.memory) (fun t => R t.memory) s

/-- A decoder that takes data for data and errors for errors. -/
theorem read_exchange {Good : μ → Prop} {region : μ → Bytes} {offset length : Nat}
    (reply : EStateM Exc Conn Bytes)
    (hdata : ∀ segments d, d.length = length → d.length < 256 ^ 4 →
      ∃ c, reply.run { inbox := toBE 4 d.length ++ d, cuts := segments } = .ok d c)
    (herror : ∀ segments r, LocalApi.ErrorReply r →
      ∃ e c, reply.run { inbox := r, cuts := segments } = .error e c)
    (hmem : memory.Reads Good region) (hgood : Good s.memory)
    (htext : ∀ e message, text e = some message → message.length < 2 ^ 30)
    (hl : (length : Int) ≤ LocalApi.maxTransfer) (hin : offset + length ≤ (region s.memory).length)
    (hgets : ∀ cuts, (s.links.headD .refused).Gets cuts →
      (encodeAscii (LocalApi.line "READ".toList offset length) ++ [10]).length ≤ LocalApi.firstLength cuts) :
    Ends (connect memory text (encodeAscii (LocalApi.line "READ".toList offset length) ++ [10]) >>= receive reply)
      (fun d t => (Good t.memory ∧ region t.memory = region s.memory) ∧ d = sub (region s.memory) offset length)
      (fun t => Good t.memory ∧ region t.memory = region s.memory) s := by
  refine .bind ((connect_read_ends hmem hgood htext hl hin hgets).mono (fun _ _ h => h)
    (fun t ht => by rw [ht]; exact ⟨hgood, rfl⟩)) fun conn t ht => ?_
  obtain ⟨r, segments, rfl, hkept, hr⟩ := ht
  refine receive_ends (fun d c hd => ⟨hkept, ?_⟩) fun _ _ _ => hkept
  obtain hr | rfl := hr
  · obtain ⟨e, c', hrun⟩ := herror segments r hr
    rw [hrun] at hd
    cases hd
  · have hlen : (sub (region s.memory) offset length).length = length := length_sub_of_le hin
    obtain ⟨c', hrun⟩ := hdata segments _ hlen (by unfold LocalApi.maxTransfer at hl; omega)
    rw [hrun] at hd
    cases hd
    rfl

/-- A decoder that does not take an error for a confirmation. -/
theorem write_exchange {Q R : μ → Prop} {offset : Nat} {data : Bytes} {reply : EStateM Exc Conn α}
    {P : α → Prop} (herror : ∀ segments r a c, LocalApi.ErrorReply r →
      reply.run { inbox := r, cuts := segments } = .ok a c → ¬ P a)
    (hwrite : Ends (memory.write offset data) (fun _ => Q) R s.memory) (hs : R s.memory) (hQ : ∀ m, Q m → R m)
    (htext : ∀ e message, text e = some message → message.length < 2 ^ 30)
    (hl : (data.length : Int) ≤ LocalApi.maxTransfer)
    (hgets : ∀ cuts, (s.links.headD .refused).Gets cuts →
      (encodeAscii (LocalApi.line "WRITE".toList offset data.length) ++ [10]).length ≤ LocalApi.firstLength cuts) :
    Ends (connect memory text (encodeAscii (LocalApi.line "WRITE".toList offset data.length) ++ [10] ++ data) >>=
        receive reply)
      (fun a t => R t.memory ∧ (P a → Q t.memory)) (fun t => R t.memory) s := by
  refine .bind ((connect_write_ends hwrite hs hQ htext hl hgets).mono (fun _ _ h => h)
    (fun t ht => by rw [ht]; exact hs)) fun conn t ht => ?_
  obtain ⟨r, segments, rfl, ⟨-, hq⟩ | ⟨hr, hrest⟩⟩ := ht
  · exact receive_ends (fun _ _ _ => ⟨hQ _ hq, fun _ => hq⟩) fun _ _ _ => hQ _ hq
  · exact receive_ends (fun a c ha => ⟨hrest, fun h => absurd h (herror segments r a c hr ha)⟩) fun _ _ _ => hrest

end LocalService

theorem RemoteAPI.api_client {μ : Type} (memory : Memory μ) {text : Exc → Option Bytes}
    (htext : ∀ e message, text e = some message → message.length < 2 ^ 30) :
    LocalService.Client memory (RemoteAPI.api memory text) := by
  refine ⟨fun {_ _ s offset length} hmem hgood hl hin hgets => ?_,
    fun {_ _ s offset data} hwrite hs hQ hl hgets => ?_⟩
  · have hrun := LocalService.read_exchange RemoteAPI.reply (fun segments d _ => RemoteAPI.reply_data segments)
      (fun segments r => RemoteAPI.reply_error segments) hmem hgood htext hl hin hgets
    unfold Ends at hrun ⊢
    rwa [← LocalService.run_remoteAPI_read] at hrun
  · refine .bind (LocalService.write_exchange (P := fun a => "OK".toList <+: a) ?_ hwrite hs hQ htext hl hgets)
      fun a t ht => .raiseIf (fun _ => ht.1) fun h => ht.2 (not_not.mp h)
    intro segments r a c hr ha
    obtain ⟨d, c', hrecv, hd⟩ := LocalApi.recv_errorReply hr (1024 * 1024) segments
    rw [EStateM.run_bind, hrecv] at ha
    cases ha
    rintro ⟨u, hu⟩
    obtain hd | ⟨t, hd⟩ := hd
    · rw [hd] at hu
      cases hu
    · rw [hd] at hu
      cases hu

theorem Service.api_client {μ : Type} (memory : Memory μ) {text : Exc → Option Bytes}
    (htext : ∀ e message, text e = some message → message.length < 2 ^ 30) :
    LocalService.Client memory (Service.api memory text) := by
  refine ⟨fun {_ _ s offset length} hmem hgood hl hin hgets => ?_,
    fun {_ _ s offset data} hwrite hs hQ hl hgets => ?_⟩
  · have hrun := LocalService.read_exchange (Service.reply length)
      (fun segments d hd hsmall => by rw [← hd]; exact Service.reply_data segments hsmall)
      (fun segments r => Service.reply_error segments hl) hmem hgood htext hl hin hgets
    unfold Ends at hrun ⊢
    rwa [← LocalService.run_service_read memory text hl] at hrun
  · show Ends (Service.write memory text offset data) _ _ s
    unfold Service.write
    refine .bind_raiseIf (fun _ => hs) fun _ => ?_
    rw [← bind_assoc]
    refine .bind (LocalService.write_exchange (P := fun a => a = "OK".toList) ?_ hwrite hs hQ htext hl hgets)
      fun a t ht => .raiseIf (fun _ => ht.1) fun h => ht.2 (not_not.mp h)
    intro segments r a c hr ha
    obtain ⟨d, c', hrecv, hd⟩ := LocalApi.recv_errorReply hr 64 segments
    rw [EStateM.run_bind, hrecv] at ha
    cases ha
    intro hok
    obtain hd | ⟨t, hd⟩ := hd
    · rw [hd] at hok
      cases hok
    · rw [hd] at hok
      obtain ⟨u, hu⟩ := hok ▸ strip_prefix (c := 'E') (by decide) t
      cases hu

/-! ## Over the network -/

namespace Loopback

open LocalApi

variable {μ : Type} {memory : Memory μ} {client : Api (LocalService μ)} {Good : μ → Prop} {kept : μ → Bytes}

/-- A client of the service, each of whose requests is a connection of its own. -/
def api (client : Api (LocalService μ)) : Api (Loopback μ) where
  read offset length :=
    send (encodeAscii (line "READ".toList offset length) ++ [10]) [] (client.read offset length)
  write offset data :=
    send (encodeAscii (line "WRITE".toList offset data.length) ++ [10]) data (client.write offset data)

theorem api_serves (hclient : LocalService.Client memory client) (hmem : memory.Keeps Good kept) :
    (api client).Serves (2 ^ 20) (fun s => Good s.memory ∧ (kept s.memory).length < 2 ^ 64) (region kept) := by
  refine ⟨fun s offset length hgood hl hin => ?_, fun s offset data hgood hl hin => ?_⟩
  · have hline : (encodeAscii (line "READ".toList offset length) ++ [10]).length ≤ 4096 :=
      length_line "READ".toList (by decide) (by unfold region at hin; omega) (by omega)
    have hread := hclient.read (s := ⟨s.memory, [(s.links.headD .refused).carry
        (encodeAscii (line "READ".toList offset length) ++ [10]) []]⟩) hmem.toReads hgood.1
      (by unfold maxTransfer; omega) hin fun cuts h => gets_carry (by simp) hline h
    refine send_ends (Q := fun d m => ((Good m ∧ (kept m).length < 2 ^ 64) ∧ kept m = kept s.memory) ∧
        d = sub (kept s.memory) offset length)
      (R := fun m => (Good m ∧ (kept m).length < 2 ^ 64) ∧ kept m = kept s.memory)
      (hread.mono (fun d t ht => ?_) fun t ht => ?_)
    · rw [ht.1.2]
      exact ⟨⟨⟨ht.1.1, hgood.2⟩, rfl⟩, ht.2⟩
    · rw [ht.2]
      exact ⟨⟨ht.1, hgood.2⟩, rfl⟩
  · have hline : (encodeAscii (line "WRITE".toList offset data.length) ++ [10]).length ≤ 4096 :=
      length_line "WRITE".toList (by decide) (by unfold region at hin; omega) (by omega)
    have hwrite := hclient.write (s := ⟨s.memory, [(s.links.headD .refused).carry
        (encodeAscii (line "WRITE".toList offset data.length) ++ [10]) data]⟩)
      (hmem.write s.memory offset data hgood.1 hin) ⟨hgood.1, .inl rfl⟩ (fun _ h => ⟨h.1, .inr h.2⟩)
      (by unfold maxTransfer; omega) fun cuts h => gets_carry (by simp) hline h
    have hsize : (splice (kept s.memory) offset data).length < 2 ^ 64 := by
      have hfit : offset + data.length ≤ (kept s.memory).length := hin
      rw [length_splice hfit]
      exact hgood.2
    refine send_ends (Q := fun _ m => (Good m ∧ (kept m).length < 2 ^ 64) ∧
        kept m = splice (kept s.memory) offset data)
      (R := fun m => (Good m ∧ (kept m).length < 2 ^ 64) ∧
        (kept m = kept s.memory ∨ kept m = splice (kept s.memory) offset data))
      (hwrite.mono (fun _ t ht => ?_) fun t ht => ?_)
    · rw [ht.2]
      exact ⟨⟨ht.1, hsize⟩, rfl⟩
    · refine ⟨⟨ht.1, ?_⟩, ht.2⟩
      obtain h | h := ht.2
      · rw [h]
        exact hgood.2
      · rw [h]
        exact hsize

end Loopback

end RamLink
