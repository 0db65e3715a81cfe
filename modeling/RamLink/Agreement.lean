import RamLink.Lib.Run
import RamLink.Provider
import RamLink.Server

/-!
# RamLink.Agreement

`RAMLinkServer` and `RAMProvider` side by side, given the same requests.

The two purge expired leases at different moments and look leases up in different ways. `Alike`
absorbs the difference: the two pools are equal but for leases that have expired. Every request
keeps it, and is answered alike, with one exception: `RAMProvider` accepts a RELEASE of an expired
lease that is still in its table.

* `agrees_iff`: in a run, the two agree at every request exactly if none is such a RELEASE.
* `agrees_fails`: BORROW at 0 and RELEASE at 120.
-/

namespace RamLink

open Lib

structure Providers where
  android : RamPool
  windows : RamPool
  now : Time

namespace Providers

def start (pool : RamPool) (now : Time) : Providers := ⟨pool, pool, now⟩

/-- The range lies inside a lease that is live in one of the tables. -/
def InLease (s : Providers) (now : Time) (offset length : Nat) : Prop :=
  ∃ l ∈ s.android.leases.values ++ s.windows.leases.values, RAMProvider.Covers now offset length l

instance (s : Providers) (now : Time) (offset length : Nat) : Decidable (s.InLease now offset length) :=
  inferInstanceAs (Decidable (∃ l ∈ _, _))

/-- The requests of the lease protocol, at a clock reading that is not before the last one. -/
def Admits (s : Providers) (x : Request) : Prop :=
  s.now ≤ x.now ∧ (x.op = opPing ∨ x.op = opBorrow ∨ x.op = opRelease ∨ x.op = opKeepalive ∨
    ((x.op = opRead ∨ x.op = opWrite) ∧ x.length ≤ maxBlock ∧ s.InLease x.now x.offset x.length))

instance (s : Providers) (x : Request) : Decidable (s.Admits x) := inferInstanceAs (Decidable (_ ∧ _))

def next (s : Providers) (x : Request) : Option Providers :=
  if s.Admits x then
    some ⟨RAMLinkServer.after x s.android, RAMProvider.after x s.windows, x.now⟩
  else none

/-- Both reject the request, or both accept it and send the same bytes. -/
def Agrees (s : Providers) (x : Request) : Prop :=
  (outcome (RAMLinkServer.handle x.now x.op x.offset x.length) (s.android, x.conn)).1 =
    (outcome (RAMProvider.handle x.now x.op x.offset x.length) (s.windows, x.conn)).1

/-- A RELEASE of an expired lease that is still in `RAMProvider`'s table, with a reply that fits
its header and gets out. -/
def ReleasesExpired (s : Providers) (x : Request) : Prop :=
  x.op = opRelease ∧ x.offset < 256 ^ 8 ∧ x.conn.fails 1 = false ∧
    ∃ l, s.windows.leases.get? x.offset = some l ∧ ¬ l.Alive x.now

instance (s : Providers) (x : Request) : Decidable (s.ReleasesExpired x) :=
  inferInstanceAs (Decidable (_ ∧ _ ∧ _ ∧ ∃ l ∈ s.windows.leases.get? x.offset, ¬ l.Alive x.now))

end Providers

/-- Equal but for leases that have expired. -/
structure Alike (now : Time) (a w : RamPool) : Prop where
  size : w.size = a.size
  memory : w.memory = a.memory
  nextLeaseId : w.nextLeaseId = a.nextLeaseId
  live : ∀ i l, l.Alive now → (a.leases.get? i = some l ↔ w.leases.get? i = some l)

namespace Alike

variable {now : Time} {a w : RamPool}

theorem refl (now : Time) (s : RamPool) : Alike now s s := ⟨rfl, rfl, rfl, fun _ _ _ => Iff.rfl⟩

theorem later {now' : Time} (h : Alike now a w) (hn : now ≤ now') : Alike now' a w :=
  ⟨h.size, h.memory, h.nextLeaseId, fun i l hl => h.live i l (hl.mono hn)⟩

/-- The two tables may be changed apart from each other, as long as no live entry changes. -/
theorem leases {a' w' : RamPool} (h : Alike now a w) (ha : a'.size = a.size ∧ a'.memory = a.memory ∧
      a'.nextLeaseId = a.nextLeaseId) (hw : w'.size = w.size ∧ w'.memory = w.memory ∧
      w'.nextLeaseId = w.nextLeaseId)
    (hl : ∀ i l, l.Alive now → (a'.leases.get? i = some l ↔ w'.leases.get? i = some l)) :
    Alike now a' w' :=
  ⟨by rw [hw.1, ha.1, h.size], by rw [hw.2.1, ha.2.1, h.memory], by rw [hw.2.2, ha.2.2, h.nextLeaseId],
    hl⟩

theorem get?_cleanup_live {s : RamPool} {i : Nat} {l : Lease} (hl : l.Alive now) :
    (s.cleanup now).leases.get? i = some l ↔ s.leases.get? i = some l := by
  rw [RamPool.get?_cleanup, and_iff_left hl]

theorem cleanup (h : Alike now a w) : Alike now (a.cleanup now) (w.cleanup now) :=
  h.leases ⟨rfl, rfl, rfl⟩ ⟨rfl, rfl, rfl⟩ fun i l hl => by
    rw [get?_cleanup_live hl, get?_cleanup_live hl, h.live i l hl]

theorem cleanup_right (h : Alike now a w) : Alike now a (w.cleanup now) :=
  h.leases ⟨rfl, rfl, rfl⟩ ⟨rfl, rfl, rfl⟩ fun i l hl => by
    rw [get?_cleanup_live hl, h.live i l hl]

theorem insertLease (h : Alike now a w) (offset length : Nat) :
    Alike now (a.insertLease now offset length).2 (w.insertLease now offset length).2 := by
  refine ⟨h.size, h.memory, by simp [h.nextLeaseId], fun i l hl => ?_⟩
  rw [RamPool.get?_insertLease, RamPool.get?_insertLease, h.nextLeaseId]
  split
  · exact Iff.rfl
  · exact h.live i l hl

theorem store (h : Alike now a w) (offset length : Nat) (data : Bytes) :
    Alike now (a.store offset length data) (w.store offset length data) :=
  ⟨h.size, by simp only [RamPool.store, h.memory], h.nextLeaseId, h.live⟩

theorem popLease (h : Alike now a w) (i : Nat) : Alike now (a.popLease i) (w.popLease i) :=
  h.leases ⟨rfl, rfl, rfl⟩ ⟨rfl, rfl, rfl⟩ fun j l hl => by
    rw [RamPool.get?_popLease, RamPool.get?_popLease]
    split
    · exact Iff.rfl
    · exact h.live j l hl

/-- An entry that has expired, or is not there, may be dropped. -/
theorem popLease_left (h : Alike now a w) {i : Nat} (hi : ∀ l, a.leases.get? i = some l → ¬ l.Alive now) :
    Alike now (a.popLease i) w :=
  h.leases ⟨rfl, rfl, rfl⟩ ⟨rfl, rfl, rfl⟩ fun j l hl => by
    rw [RamPool.get?_popLease]
    split
    · rename_i hj
      subst hj
      refine iff_of_false (by simp) fun hw => ?_
      exact hi l ((h.live j l hl).mpr hw) hl
    · exact h.live j l hl

theorem popLease_right (h : Alike now a w) {i : Nat}
    (hi : ∀ l, w.leases.get? i = some l → ¬ l.Alive now) : Alike now a (w.popLease i) :=
  h.leases ⟨rfl, rfl, rfl⟩ ⟨rfl, rfl, rfl⟩ fun j l hl => by
    rw [RamPool.get?_popLease]
    split
    · rename_i hj
      subst hj
      refine iff_of_false (fun ha => ?_) (by simp)
      exact hi l ((h.live j l hl).mp ha) hl
    · exact h.live j l hl

/-- The update of a lease that is in both tables. -/
theorem keepaliveLease (h : Alike now a w) {i : Nat} {l : Lease} (ha : a.leases.get? i = some l)
    (hw : w.leases.get? i = some l) : Alike now (a.keepaliveLease now i) (w.keepaliveLease now i) :=
  h.leases ⟨rfl, rfl, rfl⟩ ⟨rfl, rfl, rfl⟩ fun j m hm => by
    rw [RamPool.get?_keepaliveLease, RamPool.get?_keepaliveLease]
    split
    · rename_i hj
      rw [hj, ha, hw]
    · exact h.live j m hm

end Alike

/-! ## The two scans -/

/-- The scan finds the same region among the same leases. -/
theorem RamPool.scan_congr {a w : RamPool} {length : Nat} {ls ms : List Lease} (hs : w.size = a.size)
    (hm : ∀ l, l ∈ ls ↔ l ∈ ms) (ha : ∀ l ∈ ls, l.offset + l.length ≤ a.size) :
    a.scan length ls = w.scan length ms := by
  have hw : ∀ l ∈ ms, l.offset + l.length ≤ w.size := fun l hl => by
    rw [hs]
    exact ha l ((hm l).mpr hl)
  have hfree : ∀ c, a.Free length ls c ↔ w.Free length ms c := by
    intro c
    simp only [RamPool.Free, Fits, hs, hm]
  obtain ⟨hsome, hnone⟩ := @RamPool.scan_spec a length ls ha
  obtain ⟨hsome', hnone'⟩ := @RamPool.scan_spec w length ms hw
  cases hc : a.scan length ls with
  | none =>
    symm
    rw [hnone']
    intro c hf
    exact hnone.mp hc c ((hfree c).mpr hf)
  | some c =>
    have hleast := hsome c hc
    cases hd : w.scan length ms with
    | none => exact absurd ((hfree c).mp hleast.1) (hnone'.mp hd c)
    | some d =>
      have hleast' := hsome' d hd
      have h1 := hleast.2 ((hfree d).mpr hleast'.1)
      have h2 := hleast'.2 ((hfree c).mp hleast.1)
      rw [le_antisymm h1 h2]

theorem Alike.scan {now : Time} {a w : RamPool} (h : Alike now a w) (ht : a.Tabled) (length : Nat) :
    RAMLinkServer.findFreeRegion now length (a.cleanup now) =
      (w.cleanup now).scan length (w.cleanup now).leases.values := by
  refine RamPool.scan_congr h.size (fun l => ?_) fun l hl => ?_
  · simp only [List.mem_filter, Dict.mem_values, RamPool.get?_cleanup, decide_eq_true_eq]
    constructor
    · rintro ⟨⟨i, hi, -⟩, hl⟩
      exact ⟨i, (h.live i l hl).mp hi, hl⟩
    · rintro ⟨i, hi, hl⟩
      exact ⟨⟨i, (h.live i l hl).mpr hi, hl⟩, hl⟩
  · obtain ⟨i, hi⟩ := Dict.mem_values.mp (List.mem_of_mem_filter hl)
    exact ((ht.cleanup now).placed i l hi).inside

/-! ## One request -/

section Request

variable {now : Time} {offset length : Nat} {a w : RamPool} {c : Conn}

/-- The two answer alike and are left alike. -/
def Matched (now : Time) (op offset length : Nat) (c : Conn) (a w : RamPool) : Prop :=
  (outcome (RAMLinkServer.handle now op offset length) (a, c)).1 =
    (outcome (RAMProvider.handle now op offset length) (w, c)).1 ∧
  Alike now (outcome (RAMLinkServer.handle now op offset length) (a, c)).2
    (outcome (RAMProvider.handle now op offset length) (w, c)).2

theorem matched_ping (h : Alike now a w) : Matched now opPing offset length c a w := by
  unfold Matched
  rw [RAMLinkServer.outcome_ping, RAMProvider.outcome_ping]
  exact ⟨rfl, h⟩

theorem matched_borrow (h : Alike now a w) (ht : a.Tabled) : Matched now opBorrow offset length c a w := by
  unfold Matched
  rw [RAMLinkServer.outcome_borrow, RAMProvider.outcome_borrow, h.size, h.nextLeaseId]
  split
  · exact ⟨rfl, h.cleanup.leases ⟨rfl, rfl, rfl⟩ ⟨rfl, rfl, rfl⟩ fun i l hl =>
      (h.cleanup.live i l hl).trans (Alike.get?_cleanup_live hl)⟩
  · rw [h.scan ht]
    cases (w.cleanup now).scan (RamPool.roundUp length) (w.cleanup now).leases.values with
    | none => exact ⟨rfl, h.cleanup⟩
    | some start => exact ⟨rfl, (h.cleanup.insertLease start (RamPool.roundUp length)).store start _ _⟩

theorem matched_keepalive (h : Alike now a w) : Matched now opKeepalive offset length c a w := by
  unfold Matched
  rw [RAMLinkServer.outcome_keepalive, RAMProvider.outcome_keepalive]
  cases hw : (w.cleanup now).leases.get? offset with
  | some l =>
    -- the lease is live, so it is in both tables
    have hl : l.Alive now := (RamPool.get?_cleanup.mp hw).2
    have ha : a.leases.get? offset = some l :=
      (h.live offset l hl).mpr (RamPool.get?_cleanup.mp hw).1
    simp only [ha, if_pos hl]
    exact ⟨trivial, h.cleanup_right.keepaliveLease ha hw⟩
  | none =>
    have hdead : ∀ l, a.leases.get? offset = some l → ¬ l.Alive now := by
      intro l ha hl
      have := RamPool.get?_cleanup.mpr ⟨(h.live offset l hl).mp ha, hl⟩
      rw [hw] at this
      cases this
    cases ha : a.leases.get? offset with
    | none => exact ⟨rfl, h.cleanup_right⟩
    | some l =>
      simp only [if_neg (hdead l ha)]
      exact ⟨trivial, h.cleanup_right.popLease_left hdead⟩

theorem findLease_isSome {l : Lease} {i : Nat} (hi : w.leases.get? i = some l)
    (hc : RAMProvider.Covers now offset length l) :
    ∃ e, RAMProvider.findLease now offset length w = some e := by
  rw [← Option.isSome_iff_exists, RAMProvider.findLease, List.find?_isSome]
  exact ⟨(i, l), Dict.mem_entries.mpr hi, decide_eq_true hc⟩

/-- READ and WRITE, inside a live lease. -/
theorem matched_access {op i : Nat} {l : Lease} (h : Alike now a w) (ht : a.Tabled)
    (hop : op = opRead ∨ op = opWrite) (hn : length ≤ maxBlock) (hi : a.leases.get? i = some l)
    (hc : RAMProvider.Covers now offset length l) : Matched now op offset length c a w := by
  have hin := (ht.placed i l hi).inside
  have hr : offset + length ≤ a.size := by
    have h1 := hc.2.1
    have h2 := hc.2.2
    omega
  obtain ⟨e, he⟩ := findLease_isSome ((h.live i l hc.1).mp hi) hc
  unfold Matched
  rcases hop with rfl | rfl
  · rw [RAMLinkServer.outcome_read_inside hn hr, RAMProvider.outcome_read_covered hn he]
    refine ⟨?_, h⟩
    simp only [RamPool.load, h.memory]
  · rw [RAMLinkServer.outcome_write_inside hn hr, RAMProvider.outcome_write_covered hn he]
    refine ⟨rfl, ?_⟩
    simp only
    split
    · exact h.store offset length _
    · exact h

theorem release_alike (h : Alike now a w) :
    Alike now (outcome (RAMLinkServer.handle now opRelease offset length) (a, c)).2
      (outcome (RAMProvider.handle now opRelease offset length) (w, c)).2 := by
  rw [RAMLinkServer.outcome_release, RAMProvider.outcome_release]
  cases ha : a.leases.get? offset with
  | none =>
    have hdead : ∀ l, w.leases.get? offset = some l → ¬ l.Alive now := by
      intro l hw hl
      rw [(h.live offset l hl).mpr hw] at ha
      cases ha
    cases w.leases.get? offset with
    | none => exact h
    | some l => exact h.popLease_right hdead
  | some l =>
    cases hw : w.leases.get? offset with
    | none =>
      refine h.popLease_left fun m hm hl => ?_
      rw [(h.live offset m hl).mp hm] at hw
      cases hw
    | some m => exact h.popLease offset

/-- `RAMLinkServer` rejects the RELEASE of a lease that is not there or has expired. -/
theorem release_rejected (hdead : ∀ l, a.leases.get? offset = some l → ¬ l.Alive now) :
    (outcome (RAMLinkServer.handle now opRelease offset length) (a, c)).1 = none := by
  rw [RAMLinkServer.outcome_release]
  cases ha : a.leases.get? offset with
  | none => rfl
  | some l => simp only [if_neg (hdead l ha)]

/-- The answers to a RELEASE differ exactly if `RAMProvider` accepts it for an expired lease. -/
theorem release_agrees (h : Alike now a w) :
    (outcome (RAMLinkServer.handle now opRelease offset length) (a, c)).1 =
      (outcome (RAMProvider.handle now opRelease offset length) (w, c)).1 ↔
    ¬ (offset < 256 ^ 8 ∧ c.fails 1 = false ∧ ∃ l, w.leases.get? offset = some l ∧ ¬ l.Alive now) := by
  have hsent : (delivered (wireHeader opRelease offset 0) c).isSome ↔ _ :=
    delivered_wireHeader (by decide) (by decide) c
  rw [RAMProvider.outcome_release]
  cases hw : w.leases.get? offset with
  | none =>
    -- not there: `RAMLinkServer` has at most an expired entry
    refine iff_of_true (release_rejected fun l ha hl => ?_) fun hc => by
      obtain ⟨-, -, l, hl, -⟩ := hc
      cases hl
    rw [(h.live offset l hl).mp ha] at hw
    cases hw
  | some l =>
    by_cases hl : l.Alive now
    · refine iff_of_true ?_ fun hc => by
        obtain ⟨-, -, m, hm, hd⟩ := hc
        cases hm
        exact hd hl
      rw [RAMLinkServer.outcome_release, (h.live offset l hl).mpr hw]
      simp only [if_pos hl]
    · -- expired: `RAMLinkServer` rejects, `RAMProvider` sends its header
      have hdead : ∀ m, a.leases.get? offset = some m → ¬ m.Alive now := by
        intro m ha hm
        rw [(h.live offset m hm).mp ha] at hw
        cases hw
        exact hl hm
      rw [release_rejected hdead]
      simp only [Option.some.injEq, exists_eq_left', hl, not_false_eq_true, and_true, ← hsent]
      cases delivered (wireHeader opRelease offset 0) c <;> simp

end Request

/-! ## Runs -/

theorem RAMLinkServer.after_tabled (x : Request) {s : RamPool} (h : s.Tabled) : (after x s).Tabled := by
  by_cases hb : x.op = opBorrow
  · rw [after_borrow hb]
    split
    · exact h.cleanup x.now
    · rename_i hz
      cases hf : findFreeRegion x.now (RamPool.roundUp x.length) (s.cleanup x.now) with
      | none => exact h.cleanup x.now
      | some c =>
        have hp := findFreeRegion_placed (h.cleanup x.now) (RamPool.roundUp_pos.mp (by omega)) hf
        exact ((h.cleanup x.now).insertLease x.now hp).store c _ _
  by_cases hr : x.op = opRelease
  · rw [after_release hr]
    cases s.leases.get? x.offset with
    | none => exact h
    | some l => exact h.popLease x.offset
  by_cases hk : x.op = opKeepalive
  · rw [after_keepalive hk]
    cases s.leases.get? x.offset with
    | none => exact h
    | some l =>
      simp only
      split
      · exact h.keepaliveLease x.now x.offset
      · exact h.popLease x.offset
  have hother := after_other hb hr hk s
  generalize after x s = s' at hother ⊢
  cases hother with
  | same => exact h
  | cleanup => exact h.cleanup x.now
  | store a n data hd hn => exact h.store a n data

theorem RAMProvider.after_tabled (x : Request) {s : RamPool} (h : s.Tabled) : (after x s).Tabled := by
  have hout := handle_outcome x s
  generalize after x s = s' at hout ⊢
  cases hout with
  | narrow hn =>
    constructor
    · intro i l' hl'
      obtain ⟨l, hl, ho, hlen⟩ := hn.kept i l' hl'
      rw [ho, hlen, hn.size]
      exact h.placed i l hl
    · intro i l' hl'
      obtain ⟨l, hl, -, -⟩ := hn.kept i l' hl'
      rw [hn.nextLeaseId]
      exact h.fresh i l hl
  | grant offset _ hpos hf =>
    have hp := RamPool.scan_placed (h.cleanup x.now) (fun l hl => Dict.mem_values.mp hl) hpos hf
    exact ((h.cleanup x.now).insertLease x.now hp).store offset _ _
  | store => exact h.store _ _ _

namespace Providers

structure Inv (s : Providers) : Prop where
  alike : Alike s.now s.android s.windows
  android : s.android.Tabled
  windows : s.windows.Tabled

theorem inv_start {sizeMb : Int} {pool : RamPool} (h : RamPool.init sizeMb = .ok pool) (now : Time) :
    (start pool now).Inv :=
  ⟨Alike.refl now pool, RamPool.init_tabled h, RamPool.init_tabled h⟩

/-- One request keeps the pools alike, and is answered alike unless it releases an expired lease. -/
theorem request_spec {s : Providers} (hi : s.Inv) {x : Request} (hx : s.Admits x) :
    Alike x.now (RAMLinkServer.after x s.android) (RAMProvider.after x s.windows) ∧
      (s.Agrees x ↔ ¬ s.ReleasesExpired x) := by
  obtain ⟨hn, hop⟩ := hx
  have h := hi.alike.later hn
  have hmatch : x.op ≠ opRelease → Matched x.now x.op x.offset x.length x.conn s.android s.windows →
      Alike x.now (RAMLinkServer.after x s.android) (RAMProvider.after x s.windows) ∧
        (s.Agrees x ↔ ¬ s.ReleasesExpired x) := by
    intro hne hm
    refine ⟨?_, iff_of_true hm.1 fun hr => hne hr.1⟩
    have h2 := hm.2
    rwa [outcome_snd, outcome_snd] at h2
  rcases hop with hop | hop | hop | hop | ⟨hop, hlen, l, hl, hc⟩
  · exact hmatch (by rw [hop]; decide) (hop ▸ matched_ping h)
  · exact hmatch (by rw [hop]; decide) (hop ▸ matched_borrow h hi.android)
  · -- RELEASE
    have ha : Alike x.now (outcome (RAMLinkServer.handle x.now x.op x.offset x.length) (s.android, x.conn)).2
        (outcome (RAMProvider.handle x.now x.op x.offset x.length) (s.windows, x.conn)).2 := by
      rw [hop]
      exact release_alike h
    rw [outcome_snd, outcome_snd] at ha
    refine ⟨ha, ?_⟩
    unfold Agrees ReleasesExpired
    rw [hop, and_iff_right rfl]
    exact release_agrees h
  · exact hmatch (by rw [hop]; decide) (hop ▸ matched_keepalive h)
  · -- READ and WRITE: the lease is in both tables
    obtain ⟨i, hi'⟩ : ∃ i, s.android.leases.get? i = some l := by
      rcases List.mem_append.mp hl with hl | hl
      · exact Dict.mem_values.mp hl
      · obtain ⟨i, hw⟩ := Dict.mem_values.mp hl
        exact ⟨i, (h.live i l hc.1).mpr hw⟩
    refine hmatch ?_ (matched_access h hi.android hop hlen hi' hc)
    rcases hop with hop | hop <;> rw [hop] <;> decide

theorem next_some {s s' : Providers} {x : Request} (h : s.next x = some s') :
    s.Admits x ∧ s' = ⟨RAMLinkServer.after x s.android, RAMProvider.after x s.windows, x.now⟩ := by
  unfold next at h
  split at h
  · rename_i hx
    cases h
    exact ⟨hx, rfl⟩
  · cases h

theorem inv_next (s : Providers) (x : Request) (s' : Providers) (hi : s.Inv) (h : s.next x = some s') :
    s'.Inv := by
  obtain ⟨hx, rfl⟩ := next_some h
  exact ⟨(request_spec hi hx).1, RAMLinkServer.after_tabled x hi.android,
    RAMProvider.after_tabled x hi.windows⟩

/-- **The two providers speak the same lease protocol**, in every run, exactly if no RELEASE that is
answered names a lease that has expired in `RAMProvider`'s table. -/
theorem agrees_iff {sizeMb : Int} {pool : RamPool} (hinit : RamPool.init sizeMb = .ok pool) (now : Time)
    (xs : List Request) :
    Guarded next Agrees (start pool now) xs ↔
      Guarded next (fun s x => ¬ s.ReleasesExpired x) (start pool now) xs :=
  guarded_congr inv_next (fun _ _ _ hi h => (request_spec hi (next_some h).1).2) (inv_start hinit now)

def borrowAt (now : Time) : Request := ⟨now, opBorrow, 0, 512, { inbox := [] }⟩

def releaseAt (now : Time) : Request := ⟨now, opRelease, 1, 0, { inbox := [] }⟩

/-- Two leases, a WRITE and a READ, a KEEPALIVE, the RELEASE of the second lease, and a BORROW on a
connection that breaks. -/
def sharedTraffic : List Request :=
  [borrowAt 0, borrowAt 0, ⟨1, opWrite, 3, 2, { inbox := [7, 8] }⟩, ⟨1, opRead, 2, 4, { inbox := [] }⟩,
    ⟨60, opKeepalive, 1, 0, { inbox := [] }⟩, ⟨60, opRelease, 2, 0, { inbox := [] }⟩,
    ⟨61, opBorrow, 0, 1000, { inbox := [], faults := [none, some 3] }⟩, ⟨62, opPing, 9, 0, { inbox := [] }⟩]

/-- All of it is admitted and answered alike, up to the RELEASE of the first lease after its time. -/
theorem agrees_iff_traffic :
    (exec next (start RamPool.fresh 0) (sharedTraffic ++ [releaseAt 180])).isSome ∧
      Guarded next Agrees (start RamPool.fresh 0) sharedTraffic ∧
      ¬ Guarded next Agrees (start RamPool.fresh 0) (sharedTraffic ++ [releaseAt 180]) := by
  refine ⟨by decide +kernel, (agrees_iff RamPool.init_one 0 _).mpr (by decide +kernel), fun h => ?_⟩
  exact absurd ((agrees_iff RamPool.init_one 0 _).mp h) (by decide +kernel)

/-- A lease granted at 0 has expired at 120. `RAMLinkServer` rejects its RELEASE, `RAMProvider`,
which has purged nothing in between, accepts it. -/
theorem agrees_fails : RamPool.init 1 = .ok RamPool.fresh ∧
    ¬ Guarded next Agrees (start RamPool.fresh 0) [borrowAt 0, releaseAt 120] := by
  refine ⟨RamPool.init_one, fun hall => ?_⟩
  have hx : (start RamPool.fresh 0).Admits (borrowAt 0) := ⟨le_refl _, .inr (.inl rfl)⟩
  have h1 : (start RamPool.fresh 0).next (borrowAt 0) = some _ := if_pos hx
  generalize hs : (⟨RAMLinkServer.after (borrowAt 0) (start RamPool.fresh 0).android,
    RAMProvider.after (borrowAt 0) (start RamPool.fresh 0).windows, (borrowAt 0).now⟩ : Providers) = s at h1
  have hi := inv_next _ _ _ (inv_start RamPool.init_one 0) h1
  have hw : s.windows.leases.get? 1 = some (Lease.new 0 0 512) := by rw [← hs]; rfl
  have hnow : s.now = 0 := by rw [← hs]; rfl
  have hx2 : s.Admits (releaseAt 120) := by
    refine ⟨?_, .inr (.inr (.inl rfl))⟩
    rw [hnow]
    norm_num [releaseAt]
  have hagree := ((hall s h1).2 _ (if_pos hx2)).1
  refine (request_spec hi hx2).2.mp hagree ⟨rfl, by decide, rfl, _, hw, ?_⟩
  simp [Lease.Alive, Lease.new, releaseAt, leaseSeconds]

end Providers

end RamLink
