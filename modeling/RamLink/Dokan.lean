import RamLink.Lib.Words
import RamLink.MemoryService.Clients

/-!
# RamLink.Dokan

`rl_read` and `rl_write` of `ramlink_dokan.cpp`: the region of the local service as a file of fixed size.

Offsets are signed and unsigned 64-bit words and lengths are 32-bit words; the callbacks run with a
flag that is set where one of their computations wraps. `g_client` is any `RegionClient`.

* `RegionClient.Serves`: requests of at most `MAX_BLOCK` bytes fail, or act on the region as asked.
* `chunkLoop_ends`: the loop of both callbacks, by induction on the turns that are left.
* `rl_read_write`: what they do to a file of the bytes of the region, wherever a chunk fails.
-/

namespace RamLink

open Lib

namespace Dokan

variable {σ : Type}

/-- `LocalRamLinkClient`, as the callbacks call it. -/
structure RegionClient (σ : Type) where
  size : EStateM Exc σ UInt64
  /-- The bytes read, or `false`. -/
  read : UInt64 → UInt32 → EStateM Exc σ (Option Bytes)
  write : UInt64 → Bytes → UInt32 → EStateM Exc σ Bool

def maxBlock : UInt32 := LocalRamLinkClient.maxBlock

inductive NtStatus where
  | success
  | objectNameNotFound
  | deviceNotConnected
  | diskFull
deriving DecidableEq, Repr

/-! ## The file's name -/

/-- `RAM_FILE`, in UTF-16. -/
def ramFile : List UInt16 := "\\RAMLINK.BIN".toList.map (fun c => UInt16.ofNat c.toNat)

/-- `towlower` of the C locale. -/
def towlower (c : UInt16) : UInt16 := if 65 ≤ c ∧ c ≤ 90 then c + 32 else c

/-- A name may be a null pointer. -/
def isRamFile : Option (List UInt16) → Bool
  | none => false
  | some name => decide (name.map towlower = ramFile.map towlower)

/-! ## The callbacks -/

/-- A call of `read` or `write` of the client. -/
structure Request where
  offset : UInt64
  length : UInt32
deriving DecidableEq, Repr

/-- What a callback works on. -/
structure Callback (σ : Type) where
  client : σ
  buffer : Bytes
  /-- `*ReadLength` or `*NumberOfBytesWritten`. -/
  count : UInt32
  /-- The requests so far, oldest first. -/
  requests : List Request

abbrev DokanM (σ : Type) := EStateM Exc (Callback σ × Bool)

def setCount (count : UInt32) : DokanM σ Unit := onFst (modify fun c => { c with count := count })

def onClient {α : Type} (m : EStateM Exc σ α) : EStateM Exc (Callback σ) α := fun c =>
  match m.run c.client with
  | .ok a t => .ok a { c with client := t }
  | .error e t => .error e { c with client := t }

/-- `g_client->read(offset, p + pos, length)`. -/
def readChunk (client : RegionClient σ) (offset : UInt64) (pos length : UInt32) :
    EStateM Exc (Callback σ) Bool := do
  modify fun c => { c with requests := c.requests ++ [⟨offset, length⟩] }
  match ← onClient (client.read offset length) with
  | none => return false
  | some data => do
    modify fun c => { c with buffer := splice c.buffer pos.toNat data }
    return true

/-- `g_client->write(offset, p + pos, length)`. -/
def writeChunk (client : RegionClient σ) (offset : UInt64) (pos length : UInt32) :
    EStateM Exc (Callback σ) Bool := do
  modify fun c => { c with requests := c.requests ++ [⟨offset, length⟩] }
  onClient (client.write offset (sub (← get).buffer pos.toNat length.toNat) length)

/-- `while (done < total)`, and what follows it. -/
def chunkLoop (transfer : UInt64 → UInt32 → UInt32 → EStateM Exc (Callback σ) Bool) (off : UInt64)
    (total : UInt32) (fuel : Nat) (done : UInt32) : DokanM σ NtStatus :=
  if done < total then
    match fuel with
    | 0 => throw .outOfFuel
    | fuel + 1 => do
      let left ← sub32 total done
      let n := min maxBlock left
      let offset ← add64 off done.toUInt64
      if ← onFst (transfer offset done n) then do
        let done ← add32 done n
        chunkLoop transfer off total fuel done
      else return .deviceNotConnected
  else do
    setCount done
    return .success

/-- How both callbacks begin; `gClient` may be a null pointer. -/
def onRamFile (gClient : Option (RegionClient σ)) (fileName : Option (List UInt16)) (offset : Int64)
    (rest : RegionClient σ → UInt64 → UInt64 → DokanM σ NtStatus) : DokanM σ NtStatus := do
  setCount 0
  match gClient with
  | none => return .objectNameNotFound
  | some client =>
    if isRamFile fileName = false ∨ offset < 0 then return .objectNameNotFound
    else do
      let off ← castU64 offset
      let total64 ← onFst (onClient client.size)
      rest client off total64

def rlRead (gClient : Option (RegionClient σ)) (fuel : Nat) (fileName : Option (List UInt16))
    (bufferLength : UInt32) (offset : Int64) : DokanM σ NtStatus :=
  onRamFile gClient fileName offset fun client off total64 =>
    if total64 ≤ off then return .success
    else do
      let left ← sub64 total64 off
      let total ← castU32 (min bufferLength.toUInt64 left)
      chunkLoop (readChunk client) off total fuel 0

def rlWrite (gClient : Option (RegionClient σ)) (fuel : Nat) (fileName : Option (List UInt16))
    (numberOfBytesToWrite : UInt32) (offset : Int64) : DokanM σ NtStatus :=
  onRamFile gClient fileName offset fun client off total64 =>
    if total64 < off then return .diskFull
    else do
      let left ← sub64 total64 off
      if left < numberOfBytesToWrite.toUInt64 then return .diskFull
      else chunkLoop (writeChunk client) off numberOfBytesToWrite fuel 0

/-! ## One request -/

/-- The request is for at least one and at most `MAX_BLOCK` of `n` bytes. -/
def Request.Within (n : Nat) (r : Request) : Prop :=
  r.offset.toNat + r.length.toNat ≤ n ∧ 1 ≤ r.length ∧ r.length ≤ maxBlock

/-- A request for bytes of the region fails and changes nothing, or does what it is asked to. -/
structure RegionClient.Serves (client : RegionClient σ) (region : σ → Bytes) : Prop where
  size : ∀ s, (region s).length < 2 ^ 64 →
    Ends client.size (fun n t => region t = region s ∧ n.toNat = (region s).length) (fun _ => False) s
  read : ∀ (s : σ) (offset : UInt64) (length : UInt32), (⟨offset, length⟩ : Request).Within (region s).length →
    Ends (client.read offset length) (fun data t => region t = region s ∧
      ∀ d, data = some d → d = sub (region s) offset.toNat length.toNat) (fun _ => False) s
  write : ∀ (s : σ) (offset : UInt64) (data : Bytes) (length : UInt32),
    (⟨offset, length⟩ : Request).Within (region s).length → data.length = length.toNat →
    Ends (client.write offset data length) (fun ok t =>
      region t = if ok then splice (region s) offset.toNat data else region s) (fun _ => False) s

theorem run_onClient {α : Type} (m : EStateM Exc σ α) (c : Callback σ) : (onClient m).run c =
    match m.run c.client with
    | .ok a t => .ok a { c with client := t }
    | .error e t => .error e { c with client := t } := rfl

theorem onClient_ends {α : Type} {m : EStateM Exc σ α} {c : Callback σ} {Q : α → Callback σ → Prop}
    {R : Callback σ → Prop} (h : Ends m (fun a t => Q a { c with client := t })
      (fun t => R { c with client := t }) c.client) : Ends (onClient m) Q R c := by
  unfold Ends at h ⊢
  rw [run_onClient]
  cases hm : m.run c.client with
  | ok a t => rw [hm] at h; exact h
  | error e t => rw [hm] at h; exact h

/-! ## The loop -/

section Loop

variable {transfer : UInt64 → UInt32 → UInt32 → EStateM Exc (Callback σ) Bool} {off : UInt64}
  {total done : UInt32} {P : Nat → Callback σ → Prop} {F : Callback σ → Prop} {s : Callback σ × Bool}

/-- `P k` holds once the first `k` bytes are moved, `F` after a chunk that fails; no computation has
wrapped since. -/
def Moved (total : UInt32) (P : Nat → Callback σ → Prop) (F : Callback σ → Prop) (wrapped : Bool)
    (status : NtStatus) (t : Callback σ × Bool) : Prop :=
  t.2 = wrapped ∧
    ((status = .success ∧ ∃ c, P total.toNat c ∧ t.1 = { c with count := total }) ∨
      (status = .deviceNotConnected ∧ F t.1))

theorem chunkLoop_done (fuel : Nat) (h : P total.toNat s.1) :
    Ends (chunkLoop transfer off total fuel total) (Moved total P F s.2) (fun _ => False) s := by
  have hlt : ¬ total < total := by
    rw [UInt32.lt_iff_toNat_lt]
    omega
  unfold chunkLoop
  rw [if_neg hlt]
  exact .bind_ok rfl (.pure ⟨rfl, .inl ⟨rfl, s.1, h, rfl⟩⟩)

/-- The chunks cover the range in order. -/
theorem chunkLoop_ends (hoff : off.toNat + total.toNat < 2 ^ 64)
    (hchunk : ∀ (offset : UInt64) (done n : UInt32) (c : Callback σ),
      offset.toNat = off.toNat + done.toNat → 1 ≤ n → n ≤ maxBlock → done.toNat + n.toNat ≤ total.toNat →
      P done.toNat c → Ends (transfer offset done n)
        (fun ok t => if ok then P (done.toNat + n.toNat) t else F t) (fun _ => False) c) (fuel : Nat) :
    ∀ {done : UInt32} {s : Callback σ × Bool}, done.toNat ≤ total.toNat →
      total.toNat ≤ done.toNat + fuel * 2 ^ 20 → P done.toNat s.1 →
      Ends (chunkLoop transfer off total fuel done) (Moved total P F s.2) (fun _ => False) s := by
  induction fuel with
  | zero =>
    intro done s hle hfuel h
    obtain rfl : done = total := UInt32.toNat_inj.mp (by omega)
    exact chunkLoop_done 0 h
  | succ fuel ih =>
    intro done s hle hfuel h
    rcases Nat.eq_or_lt_of_le hle with heq | hlt
    · obtain rfl : done = total := UInt32.toNat_inj.mp heq
      exact chunkLoop_done _ h
    have hmax : maxBlock.toNat = 2 ^ 20 := rfl
    unfold chunkLoop
    rw [if_pos (UInt32.lt_iff_toNat_lt.mpr hlt)]
    refine .bind_sub32 (by omega) (fun left hleft => ?_)
    have hn := toNat_min32 maxBlock left
    simp only
    generalize min maxBlock left = n at hn ⊢
    refine .bind_add64 (by rw [UInt32.toNat_toUInt64]; omega) (fun offset hoffset => ?_)
    rw [UInt32.toNat_toUInt64] at hoffset
    have hpos : 1 ≤ n := by
      rw [UInt32.le_iff_toNat_le]
      show 1 ≤ n.toNat
      omega
    have hblock : n ≤ maxBlock := by
      rw [UInt32.le_iff_toNat_le]
      omega
    refine .bind_onFst (hchunk offset done n s.1 hoffset hpos hblock (by omega) h) (fun ok t ht => ?_)
    cases ok with
    | false => exact .pure ⟨rfl, .inr ⟨rfl, ht⟩⟩
    | true =>
      refine .bind_add32 (by have := total.toNat_lt; omega) (fun done' hdone' => ?_)
      exact ih (by omega) (by omega) (hdone' ▸ ht)

theorem chunkLoop_all (hoff : off.toNat + total.toNat < 2 ^ 64)
    (hchunk : ∀ (offset : UInt64) (done n : UInt32) (c : Callback σ),
      offset.toNat = off.toNat + done.toNat → 1 ≤ n → n ≤ maxBlock → done.toNat + n.toNat ≤ total.toNat →
      P done.toNat c → Ends (transfer offset done n)
        (fun ok t => if ok then P (done.toNat + n.toNat) t else F t) (fun _ => False) c) {fuel : Nat}
    (hfuel : 4096 ≤ fuel) (h : P 0 s.1) :
    Ends (chunkLoop transfer off total fuel 0) (Moved total P F s.2) (fun _ => False) s := by
  have hlt := total.toNat_lt
  have hzero : (0 : UInt32).toNat = 0 := rfl
  exact chunkLoop_ends hoff hchunk fuel (by omega) (by omega) (hzero ▸ h)

end Loop

/-! ## A file of fixed size -/

/-- What a read of `length` bytes at `offset` does to the file of the bytes of the region. -/
structure ReadsFile (region : σ → Bytes) (fileName : Option (List UInt16)) (length : UInt32) (offset : Int64)
    (c : Callback σ) (status : NtStatus) (t : Callback σ) : Prop where
  unchanged : region t.client = region c.client
  requests : ∀ r ∈ t.requests, r.Within (region c.client).length
  success : status = .success → isRamFile fileName = true ∧ 0 ≤ offset.toInt ∧
    t.count.toNat = min length.toNat ((region c.client).length - offset.toInt.toNat) ∧
    t.buffer = splice c.buffer 0 (sub (region c.client) offset.toInt.toNat t.count.toNat)
  failure : status ≠ .success → t.count = 0

/-- What a write of the first `length` bytes of the buffer does to it. -/
structure WritesFile (region : σ → Bytes) (fileName : Option (List UInt16)) (length : UInt32) (offset : Int64)
    (c : Callback σ) (status : NtStatus) (t : Callback σ) : Prop where
  requests : ∀ r ∈ t.requests, r.Within (region c.client).length
  success : status = .success → isRamFile fileName = true ∧ 0 ≤ offset.toInt ∧
    offset.toInt + length.toNat ≤ (region c.client).length ∧ t.count = length ∧
    region t.client = splice (region c.client) offset.toInt.toNat (c.buffer.take length.toNat)
  /-- A chunk has failed. -/
  cut : status = .deviceNotConnected → 0 ≤ offset.toInt ∧
    offset.toInt + length.toNat ≤ (region c.client).length ∧
    ∃ k < length.toNat, region t.client = splice (region c.client) offset.toInt.toNat (c.buffer.take k)
  rejected : status = .objectNameNotFound ∨ status = .diskFull → region t.client = region c.client
  failure : status ≠ .success → t.count = 0

section Callbacks

variable {client : RegionClient σ} {region : σ → Bytes} {c : Callback σ} {length : UInt32} {offset : Int64}
  {fileName : Option (List UInt16)} {fuel : Nat}

theorem within_append {n : Nat} {requests : List Request} {r : Request} (h : ∀ r ∈ requests, r.Within n)
    (hr : r.Within n) : ∀ q ∈ requests ++ [r], q.Within n := by
  intro q hq
  rcases List.mem_append.mp hq with hq | hq
  · exact h q hq
  · rw [List.mem_singleton.mp hq]
    exact hr

theorem onRamFile_ends (hclient : client.Serves region) (hsize : (region c.client).length < 2 ^ 64)
    {rest : RegionClient σ → UInt64 → UInt64 → DokanM σ NtStatus}
    {Q : NtStatus → Callback σ × Bool → Prop} {R : Callback σ × Bool → Prop}
    (hnot : Q .objectNameNotFound ({ c with count := 0 }, false))
    (hrest : isRamFile fileName = true → 0 ≤ offset.toInt → ∀ (off total64 : UInt64) (u : σ),
      off.toNat = offset.toInt.toNat → total64.toNat = (region c.client).length →
      region u = region c.client →
      Ends (rest client off total64) Q R ({ c with client := u, count := 0 }, false)) :
    Ends (onRamFile (some client) fileName offset rest) Q R (c, false) := by
  unfold onRamFile
  refine .bind_ok rfl ?_
  simp only
  by_cases hname : isRamFile fileName = false ∨ offset < 0
  · rw [if_pos hname]
    exact .pure hnot
  rw [if_neg hname]
  obtain ⟨hfile, hoffset⟩ := not_or.mp hname
  rw [Bool.not_eq_false] at hfile
  have hpos : 0 ≤ offset.toInt := by
    rw [Int64.lt_iff_toInt_lt] at hoffset
    have hzero : (0 : Int64).toInt = 0 := rfl
    omega
  refine .bind_castU64 hpos (fun off hoff => ?_)
  refine .bind_onFst (Q := fun n t => n.toNat = (region c.client).length ∧
    region t.client = region c.client ∧ t = { c with client := t.client, count := 0 })
    (onClient_ends ((hclient.size c.client hsize).mono (fun n u hu => ⟨hu.2, hu.1, rfl⟩)
      (fun _ hf => hf.elim))) (fun total64 t ht => ?_)
  rw [ht.2.2]
  exact hrest hfile hpos off total64 t.client (by omega) ht.1 ht.2.1

/-! ### Reads -/

/-- The first `k` bytes of the range have been read. -/
structure ReadTo (region : σ → Bytes) (c : Callback σ) (off k : Nat) (t : Callback σ) : Prop where
  unchanged : region t.client = region c.client
  requests : ∀ r ∈ t.requests, r.Within (region c.client).length
  count : t.count = 0
  buffer : t.buffer = splice c.buffer 0 (sub (region c.client) off k)

theorem readChunk_ends (hclient : client.Serves region) {off : Nat} {o : UInt64} {pos n : UInt32}
    {t : Callback σ} (ho : o.toNat = off + pos.toNat) (hpos : 1 ≤ n) (hblock : n ≤ maxBlock)
    (hend : off + (pos.toNat + n.toNat) ≤ (region c.client).length)
    (hbuffer : pos.toNat + n.toNat ≤ c.buffer.length) (h : ReadTo region c off pos.toNat t) :
    Ends (readChunk client o pos n) (fun ok u => if ok then ReadTo region c off (pos.toNat + n.toNat) u
      else region u.client = region c.client ∧ (∀ r ∈ u.requests, r.Within (region c.client).length) ∧
        u.count = 0) (fun _ => False) t := by
  have hwithin : (⟨o, n⟩ : Request).Within (region c.client).length := ⟨by simp only; omega, hpos, hblock⟩
  have hrequests := within_append h.requests hwithin
  have hread := hclient.read t.client o n (h.unchanged ▸ hwithin)
  unfold readChunk
  refine .bind_ok rfl (.bind (onClient_ends (Q := fun data u => region u.client = region c.client ∧
    u.requests = t.requests ++ [⟨o, n⟩] ∧ u.count = 0 ∧ u.buffer = t.buffer ∧
    ∀ d, data = some d → d = sub (region c.client) (off + pos.toNat) n.toNat)
    (hread.mono (fun data u hu => ?_) (fun _ hf => hf))) (fun data u hu => ?_))
  · rw [h.unchanged, ho] at hu
    exact ⟨hu.1, rfl, h.count, rfl, hu.2⟩
  · obtain ⟨h1, h2, h3, h4, h5⟩ := hu
    cases data with
    | none => exact .pure ⟨h1, h2 ▸ hrequests, h3⟩
    | some d =>
      refine .bind_ok rfl (.pure ?_)
      rw [if_pos rfl]
      refine ⟨h1, h2 ▸ hrequests, h3, ?_⟩
      have hk : (sub (region c.client) off pos.toNat).length = pos.toNat := length_sub_of_le (by omega)
      have hn : (sub (region c.client) (off + pos.toNat) n.toNat).length = n.toNat :=
        length_sub_of_le (by omega)
      have happend := splice_append (l := c.buffer) (a := 0) (sub (region c.client) off pos.toNat)
        (sub (region c.client) (off + pos.toNat) n.toNat) (by omega)
      rw [hk, Nat.zero_add] at happend
      show splice u.buffer pos.toNat d = _
      rw [h4, h.buffer, h5 d rfl, sub_append, happend]

theorem rlRead_ends (hclient : client.Serves region) (hfuel : 4096 ≤ fuel)
    (hsize : (region c.client).length < 2 ^ 64) (hbuffer : length.toNat ≤ c.buffer.length)
    (hstart : c.requests = []) : Ends (rlRead (some client) fuel fileName length offset)
      (fun status t => t.2 = false ∧ ReadsFile region fileName length offset c status t.1)
      (fun _ => False) (c, false) := by
  have hnone : ∀ r ∈ c.requests, r.Within (region c.client).length := by
    rw [hstart]
    exact fun r hr => nomatch hr
  refine onRamFile_ends hclient hsize ⟨rfl, rfl, hnone, fun h => (nomatch h), fun _ => rfl⟩ ?_
  intro hfile hpos off total64 u hoff htotal hu
  have h : ReadTo region c off.toNat 0 { c with client := u, count := 0 } :=
    ⟨hu, hnone, rfl, by rw [Lib.sub_zero, splice_nil]⟩
  by_cases hend : total64 ≤ off
  · rw [if_pos hend]
    rw [UInt64.le_iff_toNat_le] at hend
    have hcount : 0 = min length.toNat ((region c.client).length - offset.toInt.toNat) := by omega
    exact .pure ⟨rfl, hu, hnone, fun _ => ⟨hfile, hpos, hcount, hoff ▸ h.buffer⟩, fun hs => absurd rfl hs⟩
  rw [if_neg hend]
  rw [UInt64.le_iff_toNat_le] at hend
  refine .bind_sub64 (by omega) (fun left hleft => ?_)
  have hmin := toNat_min64 length.toUInt64 left
  rw [UInt32.toNat_toUInt64] at hmin
  have hlt := length.toNat_lt
  refine .bind_castU32 (by omega) (fun total hcast => ?_)
  refine (chunkLoop_all (P := ReadTo region c off.toNat) (F := fun u => region u.client = region c.client ∧
    (∀ r ∈ u.requests, r.Within (region c.client).length) ∧ u.count = 0) (by omega) ?_ hfuel h).mono
    (fun status u hu => ?_) (fun _ hf => hf)
  · intro o pos n d ho hn hblock hend hd
    exact readChunk_ends hclient ho hn hblock (by omega) (by omega) hd
  · obtain ⟨hflag, ⟨rfl, d, hd, hu⟩ | ⟨rfl, hu⟩⟩ := hu
    · refine ⟨hflag, ?_⟩
      rw [hu]
      exact ⟨hd.unchanged, hd.requests, fun _ => ⟨hfile, hpos, by simp only; omega, hoff ▸ hd.buffer⟩,
        fun hs => absurd rfl hs⟩
    · exact ⟨hflag, hu.1, hu.2.1, fun hs => (nomatch hs), fun _ => hu.2.2⟩

/-! ### Writes -/

/-- The first `k` bytes have been written. -/
structure WrittenTo (region : σ → Bytes) (c : Callback σ) (off k : Nat) (t : Callback σ) : Prop where
  requests : ∀ r ∈ t.requests, r.Within (region c.client).length
  count : t.count = 0
  buffer : t.buffer = c.buffer
  written : region t.client = splice (region c.client) off (c.buffer.take k)

theorem writeChunk_ends (hclient : client.Serves region) {off : Nat} {o : UInt64} {pos n : UInt32}
    {t : Callback σ} (ho : o.toNat = off + pos.toNat) (hpos : 1 ≤ n) (hblock : n ≤ maxBlock)
    (hend : off + (pos.toNat + n.toNat) ≤ (region c.client).length)
    (hbuffer : pos.toNat + n.toNat ≤ c.buffer.length) (h : WrittenTo region c off pos.toNat t) :
    Ends (writeChunk client o pos n) (fun ok u => WrittenTo region c off
      (if ok then pos.toNat + n.toNat else pos.toNat) u) (fun _ => False) t := by
  have htake : (c.buffer.take pos.toNat).length = pos.toNat := by
    rw [List.length_take]
    omega
  have hlen : (region t.client).length = (region c.client).length := by
    rw [h.written, length_splice (by omega)]
  have hwithin : (⟨o, n⟩ : Request).Within (region c.client).length := ⟨by simp only; omega, hpos, hblock⟩
  have hdata : (sub t.buffer pos.toNat n.toNat).length = n.toNat := by
    rw [h.buffer]
    exact length_sub_of_le hbuffer
  have hwrite := hclient.write t.client o (sub t.buffer pos.toNat n.toNat) n (by rw [hlen]; exact hwithin) hdata
  unfold writeChunk
  refine .bind_ok rfl (.bind_get (onClient_ends (hwrite.mono (fun ok u hu => ?_) (fun _ hf => hf))))
  refine ⟨within_append h.requests hwithin, h.count, h.buffer, ?_⟩
  show region u = _
  rw [hu]
  cases ok with
  | false => exact h.written
  | true =>
    have happend := splice_append (l := region c.client) (a := off) (c.buffer.take pos.toNat)
      (sub c.buffer pos.toNat n.toNat) (by rw [htake, ← h.buffer, hdata]; omega)
    rw [htake] at happend
    rw [if_pos rfl, if_pos rfl, h.written, h.buffer, ho, ← happend, List.take_add]
    rfl

theorem rlWrite_ends (hclient : client.Serves region) (hfuel : 4096 ≤ fuel)
    (hsize : (region c.client).length < 2 ^ 64) (hbuffer : length.toNat ≤ c.buffer.length)
    (hstart : c.requests = []) : Ends (rlWrite (some client) fuel fileName length offset)
      (fun status t => t.2 = false ∧ WritesFile region fileName length offset c status t.1)
      (fun _ => False) (c, false) := by
  have hnone : ∀ r ∈ c.requests, r.Within (region c.client).length := by
    rw [hstart]
    exact fun r hr => nomatch hr
  refine onRamFile_ends hclient hsize
    ⟨rfl, hnone, fun h => (nomatch h), fun h => (nomatch h), fun _ => rfl, fun _ => rfl⟩ ?_
  intro hfile hpos off total64 u hoff htotal hu
  have h : WrittenTo region c off.toNat 0 { c with client := u, count := 0 } :=
    ⟨hnone, rfl, rfl, by rw [List.take_zero, splice_nil]; exact hu⟩
  have hfull : WritesFile region fileName length offset c .diskFull { c with client := u, count := 0 } :=
    ⟨hnone, fun h => (nomatch h), fun h => (nomatch h), fun _ => hu, fun _ => rfl⟩
  by_cases hover : total64 < off
  · rw [if_pos hover]
    exact .pure ⟨rfl, hfull⟩
  rw [if_neg hover]
  rw [UInt64.lt_iff_toNat_lt] at hover
  refine .bind_sub64 (by omega) (fun left hleft => ?_)
  by_cases hlong : left < length.toUInt64
  · rw [if_pos hlong]
    exact .pure ⟨rfl, hfull⟩
  rw [if_neg hlong]
  rw [UInt64.lt_iff_toNat_lt, UInt32.toNat_toUInt64] at hlong
  refine (chunkLoop_all (P := WrittenTo region c off.toNat) (F := fun u =>
    ∃ k < length.toNat, WrittenTo region c off.toNat k u) (by omega) ?_ hfuel h).mono
    (fun status u hu => ?_) (fun _ hf => hf)
  · intro o pos n d ho hn hblock hend hd
    refine (writeChunk_ends hclient ho hn hblock (by omega) (by omega) hd).mono (fun ok u hu => ?_)
      (fun _ hf => hf)
    cases ok with
    | false =>
      have hone : 1 ≤ n.toNat := UInt32.le_iff_toNat_le.mp hn
      exact ⟨pos.toNat, by omega, hu⟩
    | true => exact hu
  · obtain ⟨hflag, ⟨rfl, d, hd, hu⟩ | ⟨rfl, k, hk, hu⟩⟩ := hu
    · refine ⟨hflag, ?_⟩
      rw [hu]
      exact ⟨hd.requests, fun _ => ⟨hfile, hpos, by omega, rfl, hoff ▸ hd.written⟩, fun hs => (nomatch hs),
        fun hs => (by simp at hs), fun hs => absurd rfl hs⟩
    · exact ⟨hflag, hu.requests, fun hs => (nomatch hs),
        fun _ => ⟨hpos, by omega, k, hk, hoff ▸ hu.written⟩, fun hs => (by simp at hs), fun _ => hu.count⟩

end Callbacks

/-- For every region below `2 ^ 64` bytes, every signed offset and every length, no computation of a callback
wraps, its loop ends, its requests are for bytes of the region, and it treats the region as a file of that size. -/
theorem rl_read_write {client : RegionClient σ} {region : σ → Bytes} (hclient : client.Serves region)
    {fuel : Nat} (hfuel : 4096 ≤ fuel) {c : Callback σ} (hsize : (region c.client).length < 2 ^ 64)
    (hstart : c.requests = []) {length : UInt32} (hbuffer : length.toNat ≤ c.buffer.length)
    (fileName : Option (List UInt16)) (offset : Int64) :
    Ends (rlRead (some client) fuel fileName length offset)
      (fun status t => t.2 = false ∧ ReadsFile region fileName length offset c status t.1)
      (fun _ => False) (c, false) ∧
    Ends (rlWrite (some client) fuel fileName length offset)
      (fun status t => t.2 = false ∧ WritesFile region fileName length offset c status t.1)
      (fun _ => False) (c, false) :=
  ⟨rlRead_ends hclient hfuel hsize hbuffer hstart, rlWrite_ends hclient hfuel hsize hbuffer hstart⟩

/-! ## A client of a service in memory -/

structure FlakyRegion where
  memory : Bytes
  /-- Whether each of the next requests fails; past the end of the list they do not. -/
  fails : List Bool

/-- A request that is too long, or for bytes outside of the memory, fails. -/
def FlakyRegion.client : RegionClient FlakyRegion where
  size := do return UInt64.ofNat (← get).memory.length
  read offset length := do
    if maxBlock < length then return none
    else do
      let self ← get
      set { self with fails := self.fails.tail }
      if self.fails.headD false ∨ self.memory.length < offset.toNat + length.toNat then return none
      else return some (sub self.memory offset.toNat length.toNat)
  write offset data length := do
    if maxBlock < length then return false
    else do
      let self ← get
      if self.fails.headD false ∨ self.memory.length < offset.toNat + length.toNat then do
        set { self with fails := self.fails.tail }
        return false
      else do
        set { self with memory := splice self.memory offset.toNat data, fails := self.fails.tail }
        return true

theorem FlakyRegion.client_serves : FlakyRegion.client.Serves FlakyRegion.memory := by
  refine ⟨fun s hs => ?_, fun s offset length hw => ?_, fun s offset data length hw hd => ?_⟩
  · exact .bind_get (.pure ⟨rfl, UInt64.toNat_ofNat_of_lt' hs⟩)
  · unfold FlakyRegion.client
    simp only [if_neg (UInt32.not_lt.mpr hw.2.2)]
    refine .bind_get (.bind_ok rfl ?_)
    split
    · exact .pure ⟨rfl, fun d hd => nomatch hd⟩
    · exact .pure ⟨rfl, fun d hd => (Option.some.inj hd).symm⟩
  · unfold FlakyRegion.client
    simp only [if_neg (UInt32.not_lt.mpr hw.2.2)]
    refine .bind_get ?_
    split
    · exact .bind_ok rfl (.pure rfl)
    · exact .bind_ok rfl (.pure rfl)

/-- Two chunks, the second of which fails. -/
theorem rl_read_write_two_chunks :
    Ends (rlRead (some FlakyRegion.client) 4096 (some ramFile) 2000000 512)
      (fun status t => t.2 = false ∧ ReadsFile FlakyRegion.memory (some ramFile) 2000000 512
        ⟨⟨List.replicate 3000000 7, [false, true]⟩, List.replicate 2000000 0, 0, []⟩ status t.1) (fun _ => False)
      (⟨⟨List.replicate 3000000 7, [false, true]⟩, List.replicate 2000000 0, 0, []⟩, false) ∧
    Ends (rlWrite (some FlakyRegion.client) 4096 (some ramFile) 2000000 512)
      (fun status t => t.2 = false ∧ WritesFile FlakyRegion.memory (some ramFile) 2000000 512
        ⟨⟨List.replicate 3000000 7, [false, true]⟩, List.replicate 2000000 0, 0, []⟩ status t.1) (fun _ => False)
      (⟨⟨List.replicate 3000000 7, [false, true]⟩, List.replicate 2000000 0, 0, []⟩, false) := by
  refine rl_read_write FlakyRegion.client_serves le_rfl ?_ rfl ?_ (some ramFile) 512
  · show (List.replicate 3000000 7).length < 2 ^ 64
    rw [List.length_replicate]
    decide
  · show _ ≤ (List.replicate 2000000 0).length
    rw [List.length_replicate]
    exact le_rfl

end Dokan

end RamLink
