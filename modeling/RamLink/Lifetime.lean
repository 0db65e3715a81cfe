import RamLink.Agreement
import RamLink.Server.Allocator

/-!
# RamLink.Lifetime

How long a lease lasts, at either provider, over whole histories of requests from any peers.

The abstract side is one number for each lease: `deadline` replays the history and keeps the time
at which the lease runs out, or forgets it once it is released or has run out between two of its
KEEPALIVEs. `Platform.honours_deadline` says that the tables of both providers implement it.
-/

namespace RamLink

open Lib

/-- The two providers. -/
inductive Platform where
  | android
  | windows

/-- When lease `i` runs out after one more request (`none`: it is gone for good). -/
def deadline (i : Nat) (d : Option Time) (x : Request) : Option Time :=
  if x.offset = i then
    if x.op = opRelease then none
    else if x.op = opKeepalive then
      d.bind fun e => if x.now < e then some (x.now + leaseSeconds) else none
    else d
  else d

namespace Platform

def handle : Platform → Time → Nat → Nat → Nat → Handler Unit
  | .android => RAMLinkServer.handle
  | .windows => RAMProvider.handle

def after : Platform → Request → RamPool → RamPool
  | .android => RAMLinkServer.after
  | .windows => RAMProvider.after

/-- A provider, and the clock reading of the last request. -/
structure Served where
  pool : RamPool
  now : Time

/-- The next request; its clock reading is not before the last one. -/
def next (p : Platform) (s : Served) (x : Request) : Option Served :=
  if s.now ≤ x.now then some ⟨p.after x s.pool, x.now⟩ else none

/-- The handler returns. -/
def Accepts (p : Platform) (x : Request) (s : RamPool) : Prop :=
  ∃ t, (p.handle x.now x.op x.offset x.length).run (s, x.conn) = .ok () t

/-- The leases of `s'` that are live at `x.now` or later, from those of `s`. -/
structure LiveStep (x : Request) (s s' : RamPool) : Prop where
  nextLeaseId : s.nextLeaseId ≤ s'.nextLeaseId
  live : ∀ i, i < s.nextLeaseId → ∀ now, x.now ≤ now → ∀ l',
    (s'.leases.get? i = some l' ∧ l'.Alive now) ↔
      if x.offset = i ∧ x.op = opRelease then False
      else if x.offset = i ∧ x.op = opKeepalive then
        ∃ l, s.leases.get? i = some l ∧ l.Alive x.now ∧ l' = l.keepalive x.now ∧ l'.Alive now
      else s.leases.get? i = some l' ∧ l'.Alive now
  range : ∀ i l', i < s.nextLeaseId → s'.leases.get? i = some l' →
    ∃ l, s.leases.get? i = some l ∧ l'.offset = l.offset ∧ l'.length = l.length
  grant : ∀ l', s'.leases.get? s.nextLeaseId = some l' → l' = Lease.new x.now l'.offset l'.length ∧
    ∀ i l, s.leases.get? i = some l → l.Alive x.now → Apart l'.offset l'.length l.offset l.length

/-! ## The table changes a request makes -/

section Changes

variable {x : Request} {s : RamPool}

/-- A request that leaves the table alone. -/
theorem LiveStep.same (ht : s.Tabled) (hr : x.op ≠ opRelease) (hk : x.op ≠ opKeepalive) {s' : RamPool}
    (hleases : s'.leases = s.leases) (hid : s'.nextLeaseId = s.nextLeaseId) : LiveStep x s s' := by
  refine ⟨le_of_eq hid.symm, fun i _ now _ l' => ?_, fun i l' _ hl' => ⟨l', hleases ▸ hl', rfl, rfl⟩, ?_⟩
  · rw [if_neg (fun h => hr h.2), if_neg (fun h => hk h.2), hleases]
  · intro l' hl'
    rw [hleases] at hl'
    exact absurd (ht.fresh _ _ hl') (Nat.lt_irrefl _)

theorem LiveStep.cleanup (ht : s.Tabled) (hr : x.op ≠ opRelease) (hk : x.op ≠ opKeepalive) :
    LiveStep x s (s.cleanup x.now) := by
  refine ⟨le_refl _, fun i _ now hn l' => ?_, fun i l' _ hl' => ⟨l', (RamPool.get?_cleanup.mp hl').1, rfl, rfl⟩, ?_⟩
  · rw [if_neg (fun h => hr h.2), if_neg (fun h => hk h.2)]
    exact RAMLinkServer.cleanup_agree hn i l'
  · intro l' hl'
    exact absurd (ht.fresh _ _ (RamPool.get?_cleanup.mp hl').1) (Nat.lt_irrefl _)

/-- A grant into a cleaned-up table. -/
theorem LiveStep.insert (hop : x.op = opBorrow) {a n : Nat} {s' : RamPool}
    (hget : ∀ i, s'.leases.get? i =
      if i = s.nextLeaseId then some (Lease.new x.now a n) else (s.cleanup x.now).leases.get? i)
    (hid : s'.nextLeaseId = s.nextLeaseId + 1)
    (hfree : ∀ i l, (s.cleanup x.now).leases.get? i = some l → Apart a n l.offset l.length) :
    LiveStep x s s' := by
  have hr : x.op ≠ opRelease := by rw [hop]; decide
  have hk : x.op ≠ opKeepalive := by rw [hop]; decide
  refine ⟨by omega, fun i hi now hn l' => ?_, fun i l' hi hl' => ?_, fun l' hl' => ?_⟩
  · rw [if_neg (fun h => hr h.2), if_neg (fun h => hk h.2), hget, if_neg (Nat.ne_of_lt hi)]
    exact RAMLinkServer.cleanup_agree hn i l'
  · rw [hget, if_neg (Nat.ne_of_lt hi)] at hl'
    exact ⟨l', (RamPool.get?_cleanup.mp hl').1, rfl, rfl⟩
  · rw [hget, if_pos rfl] at hl'
    cases hl'
    exact ⟨rfl, fun i l hl ha => hfree i l (RamPool.get?_cleanup.mpr ⟨hl, ha⟩)⟩

/-- The table without the named lease, whatever else has been dropped that had expired. -/
theorem LiveStep.pop (hop : x.op = opRelease ∨
      (x.op = opKeepalive ∧ ∀ l, s.leases.get? x.offset = some l → ¬ l.Alive x.now)) (ht : s.Tabled)
    {s' : RamPool} (hid : s'.nextLeaseId = s.nextLeaseId)
    (hsub : ∀ i l', s'.leases.get? i = some l' → s.leases.get? i = some l')
    (hself : ∀ l', s'.leases.get? x.offset ≠ some l')
    (hother : ∀ i l now, i ≠ x.offset → x.now ≤ now → s.leases.get? i = some l → l.Alive now →
      s'.leases.get? i = some l) : LiveStep x s s' := by
  refine ⟨le_of_eq hid.symm, fun i _ now hn l' => ?_, fun i l' _ hl' => ⟨l', hsub i l' hl', rfl, rfl⟩, ?_⟩
  · by_cases hi : x.offset = i
    · subst hi
      rcases hop with hop | ⟨hop, hdead⟩
      · rw [if_pos ⟨rfl, hop⟩]
        exact iff_of_false (fun h => hself l' h.1) id
      · rw [if_neg (fun h => by rw [hop] at h; exact absurd h.2 (by decide)), if_pos ⟨rfl, hop⟩]
        refine iff_of_false (fun h => hself l' h.1) ?_
        rintro ⟨l, hl, ha, -⟩
        exact hdead l hl ha
    · rw [if_neg (fun h => hi h.1), if_neg (fun h => hi h.1)]
      exact ⟨fun h => ⟨hsub i l' h.1, h.2⟩, fun h => ⟨hother i l' now (Ne.symm hi) hn h.1 h.2, h.2⟩⟩
  · intro l' hl'
    exact absurd (ht.fresh _ _ (hsub _ l' hl')) (Nat.lt_irrefl _)

/-- There is no such lease. -/
theorem LiveStep.missing (hop : x.op = opRelease ∨ x.op = opKeepalive) (ht : s.Tabled)
    (hnone : s.leases.get? x.offset = none) : LiveStep x s s := by
  have hno : ∀ l, s.leases.get? x.offset ≠ some l := fun l hl => by
    rw [hnone] at hl
    cases hl
  refine .pop (hop.imp_right fun hk => ⟨hk, fun l hl => absurd hl (hno l)⟩) ht rfl (fun _ _ h => h) hno ?_
  exact fun _ _ _ _ _ hl _ => hl

theorem LiveStep.popLease (hop : x.op = opRelease ∨
      (x.op = opKeepalive ∧ ∀ l, s.leases.get? x.offset = some l → ¬ l.Alive x.now)) (ht : s.Tabled) :
    LiveStep x s (s.popLease x.offset) := by
  have hget := RamPool.get?_popLease s x.offset
  refine .pop hop ht rfl (fun i l' hl' => ?_) (fun l' hl' => ?_) fun i l now hi _ hl _ => ?_
  · rw [hget] at hl'
    split at hl'
    · cases hl'
    · exact hl'
  · rw [hget, if_pos rfl] at hl'
    cases hl'
  · rw [hget, if_neg hi]
    exact hl

/-- An extension of a live lease. -/
theorem LiveStep.keepalive (hop : x.op = opKeepalive) (ht : s.Tabled) {l0 : Lease}
    (hl0 : s.leases.get? x.offset = some l0) (ha0 : l0.Alive x.now) {s' : RamPool}
    (hid : s'.nextLeaseId = s.nextLeaseId) (hself : s'.leases.get? x.offset = some (l0.keepalive x.now))
    (hother : ∀ i, i ≠ x.offset → s'.leases.get? i = s.leases.get? i ∨
      s'.leases.get? i = (s.cleanup x.now).leases.get? i) : LiveStep x s s' := by
  have hsub : ∀ i l', i ≠ x.offset → s'.leases.get? i = some l' → s.leases.get? i = some l' := by
    intro i l' hi hl'
    rcases hother i hi with h | h
    · exact h ▸ hl'
    · exact (RamPool.get?_cleanup.mp (h ▸ hl')).1
  refine ⟨le_of_eq hid.symm, fun i _ now hn l' => ?_, fun i l' _ hl' => ?_, fun l' hl' => ?_⟩
  · by_cases hi : x.offset = i
    · subst hi
      rw [if_neg (fun h => by rw [hop] at h; exact absurd h.2 (by decide)), if_pos ⟨rfl, hop⟩, hself]
      constructor
      · rintro ⟨h, ha⟩
        cases h
        exact ⟨l0, hl0, ha0, rfl, ha⟩
      · rintro ⟨l, hl, -, rfl, ha⟩
        rw [hl0] at hl
        cases hl
        exact ⟨rfl, ha⟩
    · rw [if_neg (fun h => hi h.1), if_neg (fun h => hi h.1)]
      rcases hother i (Ne.symm hi) with h | h
      · rw [h]
      · rw [h]
        exact RAMLinkServer.cleanup_agree hn i l'
  · by_cases hi : x.offset = i
    · subst hi
      rw [hself] at hl'
      cases hl'
      exact ⟨l0, hl0, rfl, rfl⟩
    · exact ⟨l', hsub i l' (Ne.symm hi) hl', rfl, rfl⟩
  · by_cases hi : s.nextLeaseId = x.offset
    · exact absurd (ht.fresh _ _ hl0) (by rw [hi]; exact Nat.lt_irrefl _)
    · exact absurd (ht.fresh _ _ (hsub _ l' hi hl')) (Nat.lt_irrefl _)

theorem cleanup_bounded (ht : s.Tabled) {now : Time} {l : Lease} (hl : l ∈ (s.cleanup now).leases.values) :
    l.offset + l.length ≤ (s.cleanup now).size := by
  obtain ⟨i, hi⟩ := Dict.mem_values.mp hl
  exact ((ht.cleanup now).placed i l hi).inside

end Changes

/-! ## Both providers make them -/

theorem android_liveStep (x : Request) {s : RamPool} (ht : s.Tabled) :
    LiveStep x s (RAMLinkServer.after x s) := by
  by_cases hb : x.op = opBorrow
  · have hr : x.op ≠ opRelease := by rw [hb]; decide
    have hk : x.op ≠ opKeepalive := by rw [hb]; decide
    rw [RAMLinkServer.after_borrow hb]
    split
    · exact .cleanup ht hr hk
    · cases hf : RAMLinkServer.findFreeRegion x.now (RamPool.roundUp x.length) (s.cleanup x.now) with
      | none => exact .cleanup ht hr hk
      | some c =>
        refine .insert hb (RAMLinkServer.granted_leases x.now c _ (s.cleanup x.now)) rfl fun i l hl => ?_
        have hfits := ((RamPool.scan_spec fun l hl => cleanup_bounded ht (List.mem_of_mem_filter hl)).1 c hf).1
        refine hfits.2 l (List.mem_filter.mpr ⟨Dict.mem_values.mpr ⟨i, hl⟩, ?_⟩)
        exact decide_eq_true (RamPool.get?_cleanup.mp hl).2
  by_cases hr : x.op = opRelease
  · rw [RAMLinkServer.after_release hr]
    cases hg : s.leases.get? x.offset with
    | none => exact .missing (.inl hr) ht hg
    | some l => exact .popLease (.inl hr) ht
  by_cases hk : x.op = opKeepalive
  · rw [RAMLinkServer.after_keepalive hk]
    cases hg : s.leases.get? x.offset with
    | none => exact .missing (.inr hk) ht hg
    | some l0 =>
      simp only
      by_cases ha : l0.Alive x.now
      · rw [if_pos ha]
        refine .keepalive hk ht hg ha rfl ?_ fun i hi => .inl ?_
        · rw [RamPool.get?_keepaliveLease, if_pos rfl, hg, Option.map_some]
        · rw [RamPool.get?_keepaliveLease, if_neg hi]
      · rw [if_neg ha]
        refine .popLease (.inr ⟨hk, fun l hl => ?_⟩) ht
        rw [hg] at hl
        cases hl
        exact ha
  have hother := RAMLinkServer.after_other hb hr hk s
  generalize RAMLinkServer.after x s = s' at hother ⊢
  cases hother with
  | same => exact .same ht hr hk rfl rfl
  | cleanup => exact .cleanup ht hr hk
  | store a n data => exact .same ht hr hk rfl rfl

/-- The requests of `RAMProvider` that name no lease and grant none. -/
theorem windows_after_other {x : Request} (hb : x.op ≠ opBorrow) (hr : x.op ≠ opRelease)
    (hk : x.op ≠ opKeepalive) (s : RamPool) : RAMProvider.after x s = s.cleanup x.now ∨
      ((RAMProvider.after x s).leases = s.leases ∧
        (RAMProvider.after x s).nextLeaseId = s.nextLeaseId) := by
  have hsend : ∀ op offset n (data : Bytes), Quiet (do sendHeader op offset n; sendall data) :=
    fun op offset n data => (quiet_sendHeader op offset n).bind fun _ => quiet_sendall data
  unfold RAMProvider.after
  generalize x.op = op at hb hr hk ⊢
  induction op using RAMProvider.op_cases with
  | ping =>
    rw [RAMProvider.handle_ping, hsend opPing 0 4]
    exact .inr ⟨rfl, rfl⟩
  | info =>
    rw [RAMProvider.handle_info, finalState_bind_quiet _ (fun _ => Quiet.get fun _ => hsend opInfo 0 _ _),
      finalState_onFst]
    exact .inl rfl
  | borrow => exact absurd rfl hb
  | release => exact absurd rfl hr
  | keepalive => exact absurd rfl hk
  | read =>
    rw [RAMProvider.handle_read, finalState_bind, run_raiseIf]
    by_cases hmax : maxBlock < x.length
    · rw [if_pos hmax]
      exact .inr ⟨rfl, rfl⟩
    · rw [if_neg hmax]
      simp only [finalState_bind, run_getHandler]
      cases RAMProvider.findLease x.now x.offset x.length s with
      | none => exact .inr ⟨rfl, rfl⟩
      | some e =>
        simp only
        rw [quiet_loadAndSend]
        exact .inr ⟨rfl, rfl⟩
  | write =>
    rw [RAMProvider.handle_write, finalState_bind, run_raiseIf]
    by_cases hmax : maxBlock < x.length
    · rw [if_pos hmax]
      exact .inr ⟨rfl, rfl⟩
    · rw [if_neg hmax]
      simp only [finalState_bind, run_getHandler]
      cases RAMProvider.findLease x.now x.offset x.length s with
      | none => exact .inr ⟨rfl, rfl⟩
      | some e =>
        simp only
        rw [finalState_receiveAndStore]
        split <;> exact .inr ⟨rfl, rfl⟩
  | unknown op h =>
    rw [RAMProvider.handle_unknown _ _ _ h]
    exact .inr ⟨rfl, rfl⟩

/-- What a request leaves behind, from what its peer sees. -/
theorem windows_after (x : Request) (s : RamPool) : RAMProvider.after x s =
    (outcome (RAMProvider.handle x.now x.op x.offset x.length) (s, x.conn)).2 := by
  rw [outcome_snd, RAMProvider.after]

theorem windows_liveStep (x : Request) {s : RamPool} (ht : s.Tabled) :
    LiveStep x s (RAMProvider.after x s) := by
  by_cases hb : x.op = opBorrow
  · have hr : x.op ≠ opRelease := by rw [hb]; decide
    have hk : x.op ≠ opKeepalive := by rw [hb]; decide
    rw [windows_after, hb, RAMProvider.outcome_borrow]
    split
    · exact .same ht hr hk rfl rfl
    · cases hf : (s.cleanup x.now).scan (RamPool.roundUp x.length) (s.cleanup x.now).leases.values with
      | none => exact .cleanup ht hr hk
      | some c =>
        have hget := RamPool.get?_insertLease x.now c (RamPool.roundUp x.length) (s.cleanup x.now)
        refine .insert hb hget rfl fun i l hl => ?_
        have hfits := ((RamPool.scan_spec fun l hl => cleanup_bounded ht hl).1 c hf).1
        exact hfits.2 l (Dict.mem_values.mpr ⟨i, hl⟩)
  by_cases hr : x.op = opRelease
  · rw [windows_after, hr, RAMProvider.outcome_release]
    cases hg : s.leases.get? x.offset with
    | none => exact .missing (.inl hr) ht hg
    | some l => exact .popLease (.inl hr) ht
  by_cases hk : x.op = opKeepalive
  · rw [windows_after, hk, RAMProvider.outcome_keepalive]
    cases hg : (s.cleanup x.now).leases.get? x.offset with
    | none =>
      have hdead : ∀ l, s.leases.get? x.offset = some l → ¬ l.Alive x.now := by
        intro l hl ha
        rw [RamPool.get?_cleanup.mpr ⟨hl, ha⟩] at hg
        cases hg
      refine .pop (.inr ⟨hk, hdead⟩) ht rfl (fun i l' hl' => (RamPool.get?_cleanup.mp hl').1) ?_ ?_
      · exact fun l' hl' => hdead l' (RamPool.get?_cleanup.mp hl').1 (RamPool.get?_cleanup.mp hl').2
      · exact fun i l now _ hn hl ha => RamPool.get?_cleanup.mpr ⟨hl, ha.mono hn⟩
    | some l0 =>
      obtain ⟨hl0, ha0⟩ := RamPool.get?_cleanup.mp hg
      refine .keepalive hk ht hl0 ha0 rfl ?_ fun i hi => .inr ?_
      · rw [RamPool.get?_keepaliveLease, if_pos rfl, hg, Option.map_some]
      · rw [RamPool.get?_keepaliveLease, if_neg hi]
  rcases windows_after_other hb hr hk s with h | ⟨hleases, hid⟩
  · rw [h]
    exact .cleanup ht hr hk
  · exact .same ht hr hk hleases hid

theorem liveStep (p : Platform) (x : Request) {s : RamPool} (ht : s.Tabled) : LiveStep x s (p.after x s) := by
  cases p with
  | android => exact android_liveStep x ht
  | windows => exact windows_liveStep x ht

theorem after_tabled (p : Platform) (x : Request) {s : RamPool} (ht : s.Tabled) : (p.after x s).Tabled := by
  cases p with
  | android => exact RAMLinkServer.after_tabled x ht
  | windows => exact RAMProvider.after_tabled x ht

/-! ## The deadline over a run -/

/-- There is still time on the deadline. -/
def Before (now : Time) (d : Option Time) : Prop := ∃ e, d = some e ∧ now < e

/-- The table has lease `i`, granted `[a, a + n)`, as its deadline says. -/
structure Tracks (s : Served) (i a n : Nat) (d : Option Time) : Prop where
  tabled : s.pool.Tabled
  granted : i < s.pool.nextLeaseId
  live : ∀ now, s.now ≤ now → ((∃ l, s.pool.leases.get? i = some l ∧ l.Alive now) ↔ Before now d)
  range : ∀ l, s.pool.leases.get? i = some l → l.offset = a ∧ l.length = n

variable {p : Platform}

/-- Each request moves the table and the deadline alike. -/
theorem tracks_step {s : Served} {i a n : Nat} {d : Option Time} (h : Tracks s i a n d) {x : Request}
    (hn : s.now ≤ x.now) : Tracks ⟨p.after x s.pool, x.now⟩ i a n (deadline i d x) := by
  have hstep := p.liveStep x h.tabled
  refine ⟨p.after_tabled x h.tabled, Nat.lt_of_lt_of_le h.granted hstep.nextLeaseId, fun now hle => ?_,
    fun l hl => ?_⟩
  · have hlive := hstep.live i h.granted now hle
    simp only [hlive, deadline]
    by_cases hi : x.offset = i
    · by_cases hr : x.op = opRelease
      · rw [if_pos hi, if_pos hr]
        constructor
        · rintro ⟨l', hl'⟩
          rw [if_pos ⟨hi, hr⟩] at hl'
          exact hl'.elim
        · rintro ⟨e, he, -⟩
          cases he
      by_cases hk : x.op = opKeepalive
      · rw [if_pos hi, if_neg hr, if_pos hk]
        simp only [hi, hk, and_true, if_true]
        constructor
        · rintro ⟨l', l, hl, ha, rfl, ha'⟩
          obtain ⟨e, rfl, he⟩ := (h.live x.now hn).mp ⟨l, hl, ha⟩
          exact ⟨x.now + leaseSeconds, by rw [Option.bind_some, if_pos he], ha'⟩
        · rintro ⟨e', he', hlt⟩
          obtain ⟨e, rfl, he⟩ := Option.bind_eq_some_iff.mp he'
          split at he
          · rename_i hb
            cases he
            obtain ⟨l, hl, ha⟩ := (h.live x.now hn).mpr ⟨e, rfl, hb⟩
            exact ⟨l.keepalive x.now, l, hl, ha, rfl, hlt⟩
          · cases he
      · rw [if_pos hi, if_neg hr, if_neg hk]
        simp only [hr, hk, and_false, if_false]
        exact h.live now (hn.trans hle)
    · rw [if_neg hi]
      simp only [hi, false_and, if_false]
      exact h.live now (hn.trans hle)
  · obtain ⟨l0, hl0, ho, hlen⟩ := hstep.range i l h.granted hl
    rw [ho, hlen]
    exact h.range l0 hl0

theorem next_some {s s' : Served} {x : Request} (h : p.next s x = some s') :
    s.now ≤ x.now ∧ s' = ⟨p.after x s.pool, x.now⟩ := by
  unfold next at h
  split at h
  · rename_i hn
    cases h
    exact ⟨hn, rfl⟩
  · cases h

theorem tracks_exec {i a n : Nat} {xs : List Request} : ∀ {s t : Served} {d : Option Time},
    Tracks s i a n d → exec p.next s xs = some t → Tracks t i a n (xs.foldl (deadline i) d) := by
  induction xs with
  | nil =>
    intro s t d h he
    cases he
    exact h
  | cons x xs ih =>
    intro s t d h he
    obtain ⟨s', hs, he⟩ := exec_cons_some.mp he
    obtain ⟨hn, rfl⟩ := next_some hs
    exact ih (tracks_step h hn) he

theorem tabled_exec {xs : List Request} {s t : Served} (hs : s.pool.Tabled)
    (h : exec p.next s xs = some t) : t.pool.Tabled := by
  refine exec_inv (I := fun s : Served => s.pool.Tabled) (fun s x s' ht hx => ?_) hs h
  rw [(next_some hx).2]
  exact p.after_tabled x ht

/-- The table right after the BORROW that grants the lease. -/
theorem tracks_grant {s s' : Served} {y : Request} (hs : s.pool.Tabled) (hy : p.next s y = some s')
    {l : Lease} (hl : s'.pool.leases.get? s.pool.nextLeaseId = some l) :
    Tracks s' s.pool.nextLeaseId l.offset l.length (some (y.now + leaseSeconds)) := by
  obtain ⟨-, rfl⟩ := next_some hy
  have htab := p.after_tabled y hs
  have hnew := ((p.liveStep y hs).grant l hl).1
  refine ⟨htab, htab.fresh _ l hl, fun now _ => ?_, fun m hm => ?_⟩
  · constructor
    · rintro ⟨m, hm, ha⟩
      rw [hl] at hm
      cases hm
      rw [hnew] at ha
      exact ⟨_, rfl, ha⟩
    · rintro ⟨e, he, hlt⟩
      cases he
      refine ⟨l, hl, ?_⟩
      rw [hnew]
      exact hlt
  · rw [hl] at hm
    cases hm
    exact ⟨rfl, rfl⟩

/-! ## What the borrower can rely on -/

theorem accepts_iff (x : Request) (s : RamPool) :
    p.Accepts x s ↔ (outcome (p.handle x.now x.op x.offset x.length) (s, x.conn)).1.isSome := by
  unfold Accepts outcome
  constructor
  · rintro ⟨t, ht⟩
    rw [ht]
    rfl
  · intro h
    cases hr : (p.handle x.now x.op x.offset x.length).run (s, x.conn) with
    | ok u t => exact ⟨t, rfl⟩
    | error e t => rw [hr] at h; cases h

/-- The peer's requests come in and its replies get out. -/
structure Works (x : Request) : Prop where
  conn : x.conn.faults = []
  offset : x.offset < 256 ^ 8

theorem Works.fails {x : Request} (h : Works x) (n : Nat) : x.conn.fails n = false := by
  rw [Conn.fails, h.conn, List.take_nil]
  rfl

/-- A KEEPALIVE on a working connection is accepted exactly if the lease is alive. -/
theorem accepts_keepalive_iff {x : Request} (hop : x.op = opKeepalive) (hw : Works x) (s : RamPool) :
    p.Accepts x s ↔ ∃ l, s.leases.get? x.offset = some l ∧ l.Alive x.now := by
  have hsent : (delivered (wireHeader opKeepalive x.offset 0) x.conn).isSome :=
    (delivered_wireHeader (by decide) (by decide) x.conn).mpr ⟨hw.offset, hw.fails 1⟩
  rw [accepts_iff, hop]
  cases p with
  | android =>
    show (outcome (RAMLinkServer.handle _ _ _ _) _).1.isSome ↔ _
    rw [RAMLinkServer.outcome_keepalive]
    cases s.leases.get? x.offset with
    | none => exact iff_of_false (by simp) (by simp)
    | some l =>
      by_cases ha : l.Alive x.now
      · simp only [if_pos ha]
        exact iff_of_true hsent ⟨l, rfl, ha⟩
      · simp only [if_neg ha]
        refine iff_of_false (by simp) ?_
        rintro ⟨m, hm, hma⟩
        cases hm
        exact ha hma
  | windows =>
    show (outcome (RAMProvider.handle _ _ _ _) _).1.isSome ↔ _
    rw [RAMProvider.outcome_keepalive]
    cases hg : (s.cleanup x.now).leases.get? x.offset with
    | none =>
      refine iff_of_false (by simp) ?_
      rintro ⟨l, hl, ha⟩
      rw [RamPool.get?_cleanup.mpr ⟨hl, ha⟩] at hg
      cases hg
    | some l => exact iff_of_true hsent ⟨l, RamPool.get?_cleanup.mp hg⟩

theorem stored_isSome {x : Request} (hw : Works x) (hin : x.length ≤ x.conn.inbox.length)
    (hn : x.length ≤ maxBlock) : (stored opWrite x.offset x.length x.length x.conn).isSome := by
  obtain ⟨cuts, hr⟩ := Conn.recvAll_ok (.connectionError "peer disconnected") (by decide : 0 < maxBlock) hin
  unfold stored
  rw [hr]
  refine (delivered_wireHeader (by decide) (Nat.lt_of_le_of_lt hn (by decide)) _).mpr ⟨hw.offset, ?_⟩
  exact hw.fails 1

/-- A READ or WRITE inside a live lease, whose payload comes in whole, is accepted. -/
theorem accepts_access {x : Request} (hop : x.op = opRead ∨ (x.op = opWrite ∧ x.length ≤ x.conn.inbox.length))
    (hn : x.length ≤ maxBlock) (hw : Works x) {s : RamPool} (ht : s.Tabled) {i : Nat} {l : Lease}
    (hl : s.leases.get? i = some l) (hc : RAMProvider.Covers x.now x.offset x.length l) : p.Accepts x s := by
  have hin : x.offset + x.length ≤ s.size := by
    have h1 := (ht.placed i l hl).inside
    have h2 := hc.2.2
    omega
  obtain ⟨e, he⟩ := findLease_isSome hl hc
  have hsent : ∀ data, (delivered (wireReply opRead x.offset x.length data) x.conn).isSome := fun data =>
    (delivered_wireReply (by decide) (Nat.lt_of_le_of_lt hn (by decide)) data x.conn).mpr
      ⟨hw.offset, hw.fails 2⟩
  rw [accepts_iff]
  cases p with
  | android =>
    show (outcome (RAMLinkServer.handle _ _ _ _) _).1.isSome
    rcases hop with hop | ⟨hop, hpay⟩ <;> rw [hop]
    · rw [RAMLinkServer.outcome_read_inside hn hin]
      exact hsent _
    · rw [RAMLinkServer.outcome_write_inside hn hin]
      exact stored_isSome hw hpay hn
  | windows =>
    show (outcome (RAMProvider.handle _ _ _ _) _).1.isSome
    rcases hop with hop | ⟨hop, hpay⟩ <;> rw [hop]
    · rw [RAMProvider.outcome_read_covered hn he]
      exact hsent _
    · rw [RAMProvider.outcome_write_covered hn he]
      exact stored_isSome hw hpay hn

/-- What a borrower can rely on who knows when lease `i`, granted as `l`, runs out. -/
structure Honours (p : Platform) (t : Served) (i : Nat) (l : Lease) (d : Option Time) : Prop where
  live : ∀ now, t.now ≤ now → ((∃ m, t.pool.leases.get? i = some m ∧ m.Alive now) ↔ Before now d)
  range : ∀ m, t.pool.leases.get? i = some m → m.offset = l.offset ∧ m.length = l.length
  keepalive : ∀ x : Request, x.op = opKeepalive → x.offset = i → Works x → t.now ≤ x.now →
    (p.Accepts x t.pool ↔ Before x.now d)
  access : ∀ x : Request, (x.op = opRead ∨ (x.op = opWrite ∧ x.length ≤ x.conn.inbox.length)) →
    l.offset ≤ x.offset → x.offset + x.length ≤ l.offset + l.length → x.length ≤ maxBlock → Works x →
    t.now ≤ x.now → Before x.now d → p.Accepts x t.pool
  exclusive : ∀ (x : Request) m, t.now ≤ x.now → Before x.now d →
    (p.after x t.pool).leases.get? t.pool.nextLeaseId = some m → Apart m.offset m.length l.offset l.length

theorem Tracks.honours {t : Served} {i : Nat} {l : Lease} {d : Option Time}
    (h : Tracks t i l.offset l.length d) : Honours p t i l d := by
  refine ⟨h.live, h.range, fun x hop hi hw hn => ?_, fun x hop h1 h2 hn hw hle hb => ?_,
    fun x m hle hb hm => ?_⟩
  · rw [accepts_keepalive_iff hop hw, hi]
    exact h.live x.now hn
  · obtain ⟨m, hm, ha⟩ := (h.live x.now hle).mpr hb
    obtain ⟨ho, hlen⟩ := h.range m hm
    exact accepts_access hop hn hw h.tabled hm ⟨ha, by omega, by omega⟩
  · obtain ⟨m0, hm0, ha⟩ := (h.live x.now hle).mpr hb
    obtain ⟨ho, hlen⟩ := h.range m0 hm0
    have := ((p.liveStep x h.tabled).grant m hm).2 i m0 hm0 ha
    rwa [ho, hlen] at this

/-- **A lease lasts exactly as long as its deadline says**, at either provider: after any history, a
BORROW that is granted `l`, and any later history of requests from any peers. -/
theorem honours_deadline (p : Platform) {sizeMb : Int} {pool : RamPool}
    (hinit : RamPool.init sizeMb = .ok pool) (start : Time) {xs ys : List Request} {s s' t : Served}
    {y : Request} {l : Lease} (hxs : exec p.next ⟨pool, start⟩ xs = some s) (hy : p.next s y = some s')
    (hl : s'.pool.leases.get? s.pool.nextLeaseId = some l) (hys : exec p.next s' ys = some t) :
    Honours p t s.pool.nextLeaseId l
      (ys.foldl (deadline s.pool.nextLeaseId) (some (y.now + leaseSeconds))) :=
  (tracks_exec (tracks_grant (tabled_exec (RamPool.init_tabled hinit) hxs) hy hl) hys).honours

def keepaliveAt (now : Time) : Request := ⟨now, opKeepalive, 1, 0, { inbox := [] }⟩

/-- BORROW at 0 and KEEPALIVE at 100: the lease lasts until 220. -/
theorem honours_deadline_kept : ∃ t, Honours .android t 1 (Lease.new 0 0 512) (some 220) := by
  have hafter : RAMLinkServer.after RAMLinkServer.borrowOne RamPool.fresh =
      RAMLinkServer.granted 0 0 512 (RamPool.fresh.cleanup 0) :=
    RAMLinkServer.after_borrowOne (fun _ => rfl) rfl
  have hl : (RAMLinkServer.after RAMLinkServer.borrowOne RamPool.fresh).leases.get? 1 =
      some (Lease.new 0 0 512) := by
    rw [hafter, RAMLinkServer.granted_leases]
    rfl
  have hd : [keepaliveAt 100].foldl (deadline 1) (some ((0 : Time) + leaseSeconds)) = some 220 := by
    norm_num [deadline, keepaliveAt, leaseSeconds, opRelease, opKeepalive]
  have hxs : exec (next .android) ⟨RamPool.fresh, 0⟩ [] = some ⟨RamPool.fresh, 0⟩ := rfl
  have hy : next .android ⟨RamPool.fresh, 0⟩ RAMLinkServer.borrowOne =
      some ⟨RAMLinkServer.after RAMLinkServer.borrowOne RamPool.fresh, 0⟩ := if_pos (le_refl _)
  have hys : exec (next .android) ⟨RAMLinkServer.after RAMLinkServer.borrowOne RamPool.fresh, 0⟩
      [keepaliveAt 100] = some ⟨_, 100⟩ :=
    exec_cons_some.mpr ⟨_, if_pos (by norm_num [keepaliveAt]), rfl⟩
  exact ⟨_, hd ▸ honours_deadline .android RamPool.init_one 0 hxs hy hl hys⟩

end Platform

end RamLink
