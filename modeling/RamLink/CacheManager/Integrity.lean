import RamLink.CacheManager.Served
import RamLink.WriteBack.Served

/-!
# RamLink.CacheManager.Integrity

What a run of calls on `RemoteMemoryCache` reads and keeps, whatever requests fail.

`Plainly ps lost calls results mem mem'`: so far as their results tell, the calls make `mem'` of the plain byte
array `mem`, where a write that raises is done in part and the pages of `lost` are left open.
`served_contents`: every run is such a run, with no more pages in `lost` than the cache has evicted, and a
flush that returns has stored the rest.
-/

namespace RamLink

open Lib WriteBack

namespace RemoteMemoryCache

/-- What a call does to a plain byte array, so far as its result tells. What it reads of the pages of `lost` may
be anything, and a write that raises has been done in part. -/
def Call.Plain (ps : Nat) (lost : List Int) : Nat × Call → Except Exc (Option Bytes) → Bytes → Bytes → Prop
  | (_, .read offset length), .ok (some bytes), mem, mem' =>
    mem' = mem ∧ (bytes.length : Int) = length ∧ Agrees ps lost mem offset.toNat bytes
  | (_, .read _ _), .ok none, _, _ => False
  | (_, .write offset data), .ok _, mem, mem' => mem' = splice mem offset.toNat data
  | (_, .write offset data), .error _, mem, mem' =>
    ∃ n ≤ data.length, mem' = splice mem offset.toNat (data.take n)
  | _, _, mem, mem' => mem' = mem

/-- A run of calls on a plain byte array. -/
def Plainly (ps : Nat) (lost : List Int) :
    List (Nat × Call) → List (Except Exc (Option Bytes)) → Bytes → Bytes → Prop
  | [], [], mem, mem' => mem' = mem
  | call :: calls, result :: results, mem, mem' =>
    ∃ mid, Call.Plain ps lost call result mem mid ∧ Plainly ps lost calls results mid mem'
  | _, _, _, _ => False

variable {ps rs k : Nat} {lost lost' : List Int} {mem mem' : Bytes}

theorem Call.Plain.mono {call : Nat × Call} {result : Except Exc (Option Bytes)}
    (h : Call.Plain ps lost call result mem mem') (hsub : lost ⊆ lost') :
    Call.Plain ps lost' call result mem mem' := by
  obtain ⟨fuel, call⟩ := call
  cases call with
  | read offset length =>
    cases result with
    | error e => exact h
    | ok answer =>
      cases answer with
      | none => exact h
      | some bytes => exact ⟨h.1, h.2.1, h.2.2.mono hsub⟩
  | write offset data => cases result <;> exact h
  | flush order => exact h

section

variable {σ : Type} {api : Api σ} {limit : Nat} {Good : σ → Prop} {region : σ → Bytes}

theorem call_plain (hapi : api.Serves limit Good region) (hk : 0 < k) (hps : 0 < ps) (hlimit : ps ≤ limit)
    (call : Nat × Call) {s : WriteBack × σ} (h : Held kind Good region ps rs k lost mem s) :
    Ends (Call.perform api call)
      (fun answer t => ∃ mem', HeldMore kind Good region ps rs k lost mem' t fun lost' =>
        Call.Plain ps lost' call (.ok answer) mem mem')
      (fun t => ∃ mem', HeldMore kind Good region ps rs k lost mem' t fun lost' =>
        ∀ e, Call.Plain ps lost' call (.error e) mem mem') s := by
  obtain ⟨fuel, call⟩ := call
  cases call with
  | read offset length =>
    refine .bind ((read_held hapi hk hps hlimit fuel h offset length).mono (fun _ _ h => h) fun t ht => ?_)
      fun bytes t ht => .pure ?_
    · obtain ⟨lost', hsub, h', -⟩ := ht
      exact ⟨mem, lost', hsub, h', fun _ => rfl⟩
    · obtain ⟨lost', hsub, h', hlen, hagree⟩ := ht
      exact ⟨mem, lost', hsub, h', rfl, hlen, hagree⟩
  | write offset data =>
    refine .bind ((write_held hapi hk hps hlimit fuel h offset data).mono (fun _ _ h => h) fun t ht => ?_)
      fun _ t ht => .pure ?_
    · obtain ⟨n, hn, lost', hsub, h', -⟩ := ht
      exact ⟨_, lost', hsub, h', fun _ => ⟨n, hn, rfl⟩⟩
    · obtain ⟨lost', hsub, h', -⟩ := ht
      exact ⟨_, lost', hsub, h', rfl⟩
  | flush order =>
    refine .bind ((flush_held hapi hlimit h order).mono (fun _ _ h => h) fun t ht => ?_) fun _ t ht => .pure ?_
    · exact ⟨mem, lost, List.Subset.refl lost, ht, fun _ => rfl⟩
    · exact ⟨mem, lost, List.Subset.refl lost, ht.1, rfl⟩

theorem run_plain (hapi : api.Serves limit Good region) (hk : 0 < k) (hps : 0 < ps) (hlimit : ps ≤ limit)
    (calls : List (Nat × Call)) : ∀ {lost : List Int} {mem : Bytes} {s : WriteBack × σ},
    Held kind Good region ps rs k lost mem s →
    ∃ mem', HeldMore kind Good region ps rs k lost mem' (trace (Call.perform api) calls s).2 fun lost' =>
      Plainly ps lost' calls (trace (Call.perform api) calls s).1 mem mem' := by
  induction calls with
  | nil => exact fun {lost mem s} h => ⟨mem, lost, List.Subset.refl lost, h, rfl⟩
  | cons call calls ih =>
    intro lost mem s h
    have hcall := call_plain hapi hk hps hlimit call h
    unfold Ends at hcall
    unfold trace
    cases hrun : (Call.perform api call).run s with
    | ok answer t =>
      rw [hrun] at hcall
      obtain ⟨mid, lost', hsub, h', hplain⟩ := hcall
      obtain ⟨mem', lost'', hsub', h'', hrest⟩ := ih h'
      exact ⟨mem', lost'', List.Subset.trans hsub hsub', h'', mid, hplain.mono hsub', hrest⟩
    | error e t =>
      rw [hrun] at hcall
      obtain ⟨mid, lost', hsub, h', hplain⟩ := hcall
      obtain ⟨mem', lost'', hsub', h'', hrest⟩ := ih h'
      exact ⟨mem', lost'', List.Subset.trans hsub hsub', h'', mid, (hplain e).mono hsub', hrest⟩

end

/-- **What the cache keeps**: however each connection fares, every read and every write of a run has the result it
has on a plain byte array, but for what is read of some pages, no more of them than the cache has evicted. A flush
that returns has stored the rest. -/
theorem served_contents {μ : Type} {memory : Memory μ} {Good : μ → Prop} {kept : μ → Bytes}
    (hmem : memory.Keeps Good kept) {text : Exc → Option Bytes}
    (htext : ∀ e message, text e = some message → message.length < 2 ^ 30)
    {capacityMb : Int} {remoteSize pageSize : Nat} {c : WriteBack}
    (hinit : init capacityMb remoteSize pageSize = .ok c) (hps : 0 < pageSize) (hlimit : pageSize ≤ 2 ^ 20)
    {s : Loopback μ} (hgood : Good s.memory) (hsize : remoteSize ≤ (kept s.memory).length)
    (hsmall : (kept s.memory).length < 2 ^ 64) (calls : List (Nat × Call))
    {results : List (Except Exc (Option Bytes))} {t : WriteBack × Loopback μ}
    (hrun : trace (Call.perform (Loopback.api (RemoteAPI.api memory text))) calls (c, s) = (results, t)) :
    ∃ (lost : List Int) (mem : Bytes), lost.length ≤ t.1.evictions ∧
      Plainly pageSize lost calls results (sub (kept s.memory) 0 remoteSize) mem ∧
      ∀ (order : SetOrder) (u : WriteBack × Loopback μ),
        (flush (Loopback.api (RemoteAPI.api memory text)) order).run t = .ok () u →
        ∀ i : Nat, (i : Int) ∉ lost → i * pageSize < remoteSize →
          pageAt pageSize remoteSize (kept u.2.memory) i = pageAt pageSize remoteSize mem i := by
  obtain ⟨maxPages, hmax, rfl⟩ := init_ok hinit
  obtain ⟨k, rfl⟩ := Int.eq_ofNat_of_zero_le (show 0 ≤ maxPages by omega)
  have hserves := Loopback.api_serves (RemoteAPI.api_client memory htext) hmem
  have hstart : Held kind (fun s : Loopback μ => Good s.memory ∧ (kept s.memory).length < 2 ^ 64)
      (Loopback.region kept) pageSize remoteSize k [] (sub (kept s.memory) 0 remoteSize)
      (empty pageSize remoteSize k, s) := .start ⟨hgood, hsmall⟩ hsize
  obtain ⟨mem, lost, -, h, hplain⟩ := run_plain hserves (by omega) hps hlimit calls hstart
  rw [hrun] at h hplain
  refine ⟨lost, mem, h.shows.few.evictions rfl, hplain, fun order u hflush => ?_⟩
  exact ((flush_held hserves hlimit h order).of_ok hflush).2

theorem served_contents_early : ∃ results t,
    trace (Call.perform (Loopback.api (RemoteAPI.api Memory.array fun _ => none))) threeCalls
      (empty 4 10 262144, fourLinks) = (results, t) ∧
    ∃ (lost : List Int) (mem : Bytes), lost.length ≤ t.1.evictions ∧
      Plainly 4 lost threeCalls results (sub (List.replicate 10 7) 0 10) mem ∧
      ∀ (order : SetOrder) (u : WriteBack × Loopback RemoteArray),
        (flush (Loopback.api (RemoteAPI.api Memory.array fun _ => none)) order).run t = .ok () u →
        ∀ i : Nat, (i : Int) ∉ lost → i * 4 < 10 → pageAt 4 10 u.2.memory.bytes i = pageAt 4 10 mem i := by
  have hinit : init 1 (10 : Nat) (4 : Nat) = .ok (empty 4 10 262144) := rfl
  obtain ⟨results, t, hrun⟩ : ∃ results t,
      trace (Call.perform (Loopback.api (RemoteAPI.api Memory.array fun _ => none))) threeCalls
        (empty 4 10 262144, fourLinks) = (results, t) := ⟨_, _, Prod.mk.eta.symm⟩
  have hsize : 10 ≤ (RemoteArray.bytes fourLinks.memory).length := by decide
  have hsmall : (RemoteArray.bytes fourLinks.memory).length < 2 ^ 64 := by decide
  exact ⟨results, t, hrun, served_contents (s := fourLinks) (c := empty 4 10 262144) Memory.array_keeps
    (fun _ _ h => by cases h) hinit (by decide) (by decide) trivial hsize hsmall threeCalls hrun⟩

end RemoteMemoryCache

end RamLink
