import RamLink.WriteBack.Contents
import RamLink.WriteBack.Simulation

/-!
# RamLink.WriteBack.Served

What the cache holds together with a service, by what it holds together with an array.

`read_held`, `write_held` and `flush_held` are `read_shows`, `write_shows` and `flush_shows` of anything that
serves a region.
-/

namespace RamLink

open Lib

namespace WriteBack

variable {σ : Type} {kind : Kind} {api : Api σ} {limit : Nat} {Good : σ → Prop} {region : σ → Bytes}
  {ps rs k : Nat} {lost : List Int} {mem : Bytes} {s : WriteBack × σ}

structure Held (kind : Kind) (Good : σ → Prop) (region : σ → Bytes) (ps rs k : Nat) (lost : List Int) (mem : Bytes)
    (s : WriteBack × σ) : Prop where
  serving : Serving Good region rs s.2
  sound : SoundOver region ps rs k s
  shows : Shows kind ps rs lost mem (seen region s)

/-- The rest holds `mem`, and no page of `lost` has been found again. -/
def HeldMore (kind : Kind) (Good : σ → Prop) (region : σ → Bytes) (ps rs k : Nat) (lost : List Int) (mem : Bytes)
    (s : WriteBack × σ) (P : List Int → Prop) : Prop :=
  ∃ lost', lost ⊆ lost' ∧ Held kind Good region ps rs k lost' mem s ∧ P lost'

theorem SoundOver.start (maxPages : Nat) (remote : σ) :
    SoundOver region ps rs maxPages (empty ps rs maxPages, remote) := by
  refine ⟨rfl, rfl, rfl, Int.natCast_nonneg maxPages, fun p hp => ?_, fun p d hp => ?_, fun p d hp => ?_⟩
  all_goals cases hp

theorem Held.start {remote : σ} {maxPages : Nat} (hgood : Good remote) (hsize : rs ≤ (region remote).length) :
    Held kind Good region ps rs maxPages [] (sub (region remote) 0 rs) (empty ps rs maxPages, remote) :=
  ⟨⟨hgood, Int.ofNat_le.mpr hsize⟩, .start maxPages remote, .start hsize maxPages⟩

theorem HeldMore.of_shows {P : List Int → Prop} (hs : Serving Good region rs s.2)
    (h : ∀ s', beside (Mirrors region) s s' → ShowsMore kind ps rs k lost mem s' P) :
    HeldMore kind Good region ps rs k lost mem s P := by
  obtain ⟨hsound, lost', hsub, hshows, hp⟩ := h (seen region s) ⟨rfl, rfl⟩
  exact ⟨lost', hsub, ⟨hs, hsound, hshows⟩, hp⟩

theorem Held.beside (h : Held kind Good region ps rs k lost mem s) {s' : WriteBack × FaultyArray}
    (hs : Lib.beside (Mirrors region) s s') : Sound ps rs k s' ∧ Shows kind ps rs lost mem s' := by
  refine ⟨h.sound.beside hs, ?_⟩
  obtain ⟨c, t⟩ := s'
  obtain ⟨rfl, ht⟩ := hs
  exact h.shows.of_memory ht

theorem read_held (hapi : api.Serves limit Good region) (hk : 0 < k) (hps : 0 < ps) (hlimit : ps ≤ limit)
    (fuel : Nat) (h : Held kind Good region ps rs k lost mem s) (offset length : Int) :
    Ends (read kind api fuel offset length)
      (fun bytes t => HeldMore kind Good region ps rs k lost mem t fun lost' =>
        (bytes.length : Int) = length ∧ Agrees ps lost' mem offset.toNat bytes)
      (fun t => HeldMore kind Good region ps rs k lost mem t fun _ => True) s := by
  have hrun := read_simulates kind hapi (by omega) (by omega) (Int.ofNat_le.mpr hlimit) fuel h.serving h.sound
    offset length
  exact (hrun.of_ends fun s' hs => read_shows hk hps fuel (h.beside hs).1 (h.beside hs).2 offset length).mono
    (fun _ t ht => .of_shows ht.1 ht.2) fun t ht => .of_shows ht.1 ht.2

theorem write_held (hapi : api.Serves limit Good region) (hk : 0 < k) (hps : 0 < ps) (hlimit : ps ≤ limit)
    (fuel : Nat) (h : Held kind Good region ps rs k lost mem s) (offset : Int) (data : Bytes) :
    Ends (write kind api fuel offset data)
      (fun _ t => HeldMore kind Good region ps rs k lost (splice mem offset.toNat data) t fun _ => True)
      (fun t => ∃ n ≤ data.length,
        HeldMore kind Good region ps rs k lost (splice mem offset.toNat (data.take n)) t fun _ => True) s := by
  have hrun := write_simulates kind hapi (by omega) (by omega) (Int.ofNat_le.mpr hlimit) fuel h.serving h.sound
    offset data
  refine (hrun.of_ends fun s' hs => write_shows hk hps fuel (h.beside hs).1 (h.beside hs).2 offset data).mono
    (fun _ t ht => .of_shows ht.1 ht.2) fun t ht => ?_
  obtain ⟨n, hn, hsound, lost', hsub, hshows, -⟩ := ht.2 (seen region t) ⟨rfl, rfl⟩
  exact ⟨n, hn, lost', hsub, ⟨ht.1, hsound, hshows⟩, trivial⟩

theorem flush_held (hapi : api.Serves limit Good region) (hlimit : ps ≤ limit)
    (h : Held kind Good region ps rs k lost mem s) (order : SetOrder) :
    Ends (flush api order)
      (fun _ t => Held kind Good region ps rs k lost mem t ∧
        ∀ i : Nat, (i : Int) ∉ lost → i * ps < rs → pageAt ps rs (region t.2) i = pageAt ps rs mem i)
      (fun t => Held kind Good region ps rs k lost mem t) s := by
  have hrun := flush_simulates hapi (Int.ofNat_le.mpr hlimit) h.serving h.sound order
  refine (hrun.of_ends fun s' hs => flush_shows (h.beside hs).1 (h.beside hs).2 order).mono
    (fun _ t ht => ?_) fun t ht => ?_
  · obtain ⟨⟨hsound, hshows⟩, hstored⟩ := ht.2 (seen region t) ⟨rfl, rfl⟩
    exact ⟨⟨ht.1, hsound, hshows⟩, hstored⟩
  · obtain ⟨hsound, hshows⟩ := ht.2 (seen region t) ⟨rfl, rfl⟩
    exact ⟨ht.1, hsound, hshows⟩

end WriteBack

end RamLink
