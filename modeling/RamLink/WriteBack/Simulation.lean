import RamLink.Lib.Simulation
import RamLink.WriteBack.Failures

/-!
# RamLink.WriteBack.Simulation

The write-back cache over a service does what it does over a byte array whose requests fail in some
order: what the array is to answer is read off what the service answered.

`read_simulates`, `write_simulates` and `flush_simulates` follow the operations of the cache; what is kept
over the array (`Sound`) says that every request is for bytes of the region.
-/

namespace RamLink

open Lib

/-! ## The array, told what to do -/

namespace FaultyArray

variable {t : FaultyArray} {offset length : Int} {data : Bytes}

theorem run_read (h0 : 0 ≤ offset) (hl : 0 ≤ length) (hin : offset + length ≤ t.memory.length)
    (fault : Option Exc) : (Api.faulty.read offset length).run { t with reads := fault :: t.reads } =
      match fault with
      | none => .ok (slice t.memory offset (offset + length)) t
      | some e => .error e t := by
  cases fault with
  | none =>
    unfold Api.faulty
    simp only [EStateM.run_bind, EStateM.run_get, EStateM.run_set, List.head?_cons, List.tail_cons, run_raiseIf]
    rw [if_neg (by omega)]
    rfl
  | some e => rfl

theorem run_write (m : Bytes) (h0 : 0 ≤ offset) (hin : offset + data.length ≤ m.length)
    (fault : Option (Exc × Bool)) :
    (Api.faulty.write offset data).run { t with memory := m, writes := fault :: t.writes } =
      match fault with
      | none => .ok () { t with memory := setSlice m offset (offset + data.length) data }
      | some (e, kept) =>
        .error e { t with memory := if kept then setSlice m offset (offset + data.length) data else m } := by
  unfold Api.faulty
  simp only [EStateM.run_bind, EStateM.run_get, run_raiseIf, List.head?_cons, List.tail_cons]
  rw [if_neg (by omega)]
  cases fault with
  | none => rfl
  | some fault => rfl

theorem with_memory {m : Bytes} (h : t.memory = m) : { t with memory := m } = t := by
  subst h
  rfl

end FaultyArray

namespace WriteBack

variable {σ : Type} {api : Api σ} {limit : Nat} {Good : σ → Prop} {region : σ → Bytes} {ps rs k : Int}
  {kind : Kind}

/-- The elements of a set in the order they were added. -/
def asAdded : SetOrder := ⟨id, List.Perm.refl⟩

/-- The array is what the service keeps. -/
def Mirrors (region : σ → Bytes) (s : σ) (t : FaultyArray) : Prop := t.memory = region s

/-- The service keeps a region for the cache. -/
def Serving (Good : σ → Prop) (region : σ → Bytes) (rs : Int) (s : σ) : Prop :=
  Good s ∧ rs ≤ (region s).length

theorem api_read_simulates (hapi : api.Serves limit Good region) {s : σ} (hs : Serving Good region rs s)
    {offset length : Int} (h0 : 0 ≤ offset) (hl : 0 ≤ length) (hlimit : length ≤ limit)
    (hin : offset + length ≤ rs) : Simulates (Serving Good region rs) (Mirrors region) (api.read offset length)
      (Api.faulty.read offset length) s := by
  obtain ⟨o, rfl⟩ := Int.eq_ofNat_of_zero_le h0
  obtain ⟨n, rfl⟩ := Int.eq_ofNat_of_zero_le hl
  have hfit : o + n ≤ (region s).length := by
    have := hs.2
    omega
  have hread := hapi.read s o n hs.1 (by omega) hfit
  unfold Ends at hread
  unfold Simulates
  cases hrun : (api.read o n).run s with
  | ok d t =>
    rw [hrun] at hread
    obtain ⟨⟨hgood, hregion⟩, rfl⟩ := hread
    refine ⟨⟨hgood, hregion ▸ hs.2⟩, fun t' ht => ?_⟩
    have hmem : t'.memory = region s := ht.trans hregion
    refine ⟨{ t' with reads := none :: t'.reads }, hmem, ?_⟩
    rw [FaultyArray.run_read h0 hl (by rw [hmem]; omega) none, hmem, slice_nat]
  | error e t =>
    rw [hrun] at hread
    refine ⟨⟨hread.1, hread.2 ▸ hs.2⟩, fun t' ht => ?_⟩
    have hmem : t'.memory = region s := ht.trans hread.2
    refine ⟨{ t' with reads := some e :: t'.reads }, hmem, ?_⟩
    rw [FaultyArray.run_read h0 hl (by rw [hmem]; omega) (some e)]

theorem api_write_simulates (hapi : api.Serves limit Good region) {s : σ} (hs : Serving Good region rs s)
    {offset : Int} {data : Bytes} (h0 : 0 ≤ offset) (hlimit : data.length ≤ limit)
    (hin : offset + data.length ≤ rs) : Simulates (Serving Good region rs) (Mirrors region) (api.write offset data)
      (Api.faulty.write offset data) s := by
  obtain ⟨o, rfl⟩ := Int.eq_ofNat_of_zero_le h0
  have hfit : o + data.length ≤ (region s).length := by
    have := hs.2
    omega
  have hlen := length_splice hfit
  have hset := setSlice_nat (region s) o data.length data rfl hfit
  have hrun' : ∀ (t : FaultyArray) fault, (Api.faulty.write o data).run
      { t with memory := region s, writes := fault :: t.writes } = _ :=
    fun t fault => FaultyArray.run_write (region s) h0 (by omega) fault
  simp only [hset] at hrun'
  have hwrite := hapi.write s o data hs.1 hlimit hfit
  unfold Ends at hwrite
  unfold Simulates
  cases hrun : (api.write o data).run s with
  | ok u t =>
    rw [hrun] at hwrite
    obtain ⟨hgood, hregion⟩ := hwrite
    refine ⟨⟨hgood, by rw [hregion, hlen]; exact hs.2⟩, fun t' ht => ?_⟩
    refine ⟨{ t' with memory := region s, writes := none :: t'.writes }, rfl, ?_⟩
    rw [hrun' t' none, FaultyArray.with_memory (ht.trans hregion)]
  | error e t =>
    rw [hrun] at hwrite
    obtain ⟨hgood, hregion | hregion⟩ := hwrite
    · refine ⟨⟨hgood, by rw [hregion]; exact hs.2⟩, fun t' ht => ?_⟩
      refine ⟨{ t' with memory := region s, writes := some (e, false) :: t'.writes }, rfl, ?_⟩
      rw [hrun' t' (some (e, false))]
      simp only [Bool.false_eq_true, if_false]
      rw [FaultyArray.with_memory (ht.trans hregion)]
    · refine ⟨⟨hgood, by rw [hregion, hlen]; exact hs.2⟩, fun t' ht => ?_⟩
      refine ⟨{ t' with memory := region s, writes := some (e, true) :: t'.writes }, rfl, ?_⟩
      rw [hrun' t' (some (e, true))]
      simp only [if_true]
      rw [FaultyArray.with_memory (ht.trans hregion)]

/-! ## One page -/

section

variable {s : WriteBack × σ}

/-- What the cache does over the service, it can do over the array. -/
abbrev Follows (Good : σ → Prop) (region : σ → Bytes) (rs : Int) {α : Type} (m : CacheM σ α)
    (m' : CacheM FaultyArray α) (s : WriteBack × σ) : Prop :=
  Simulates (fun s => Serving Good region rs s.2) (beside (Mirrors region)) m m' s

/-- The cache with the array that holds what the service keeps. -/
def seen (region : σ → Bytes) (s : WriteBack × σ) : WriteBack × FaultyArray := (s.1, ⟨region s.2, [], []⟩)

/-- What is kept over the array that is as the service has it. -/
def SoundOver (region : σ → Bytes) (ps rs k : Int) (s : WriteBack × σ) : Prop := Sound ps rs k (seen region s)

theorem Kept.beside {stale : List Int} (h : Kept ps rs k stale (seen region s))
    {s' : WriteBack × FaultyArray} (hs : Lib.beside (Mirrors region) s s') : Kept ps rs k stale s' := by
  obtain ⟨c, t⟩ := s'
  obtain ⟨rfl, ht⟩ := hs
  exact Kept.of_memory h ht

theorem SoundOver.beside (h : SoundOver region ps rs k s) {s' : WriteBack × FaultyArray}
    (hs : Lib.beside (Mirrors region) s s') : Sound ps rs k s' := by
  unfold Sound
  rw [hs.1]
  exact Kept.beside h hs

theorem SoundOver.of_beside (h : ∀ s', Lib.beside (Mirrors region) s s' → Sound ps rs k s') :
    SoundOver region ps rs k s :=
  h _ ⟨rfl, rfl⟩

theorem loadPage_simulates (hapi : api.Serves limit Good region) (hk : 0 < k) (hps : 0 < ps) (hlimit : ps ≤ limit)
    (hs : Serving Good region rs s.2) (h : SoundOver region ps rs k s) {a : Int} (h0 : 0 ≤ a) (ha : a < rs) :
    Follows Good region rs (loadPage kind api (a.fdiv ps)) (loadPage kind .faulty (a.fdiv ps)) s := by
  have hmax : 0 < s.1.maxPages := hk.trans_eq h.maxPages.symm
  cases hg : s.1.pages.get? (a.fdiv ps) with
  | some d =>
    unfold Follows Simulates
    rw [load_hit kind api hg]
    refine ⟨hs, ?_⟩
    rintro ⟨c, t⟩ ⟨rfl, ht⟩
    exact ⟨(s.1, t), ⟨rfl, ht⟩, load_hit kind .faulty hg⟩
  | none =>
    have hdiv := Int.mul_fdiv_add_fmod a ps
    rw [Int.mul_comm] at hdiv
    have hmod := Int.fmod_lt_of_pos a hps
    have hpage : 0 ≤ a.fdiv ps := Int.fdiv_nonneg h0 hps.le
    have hplace : 0 ≤ a.fdiv ps * ps := Int.mul_nonneg hpage hps.le
    have hmod0 := Int.fmod_nonneg_of_pos a hps
    have hread : Simulates (Serving Good region rs) (Mirrors region)
        (api.read (a.fdiv ps * ps) (min ps (rs - a.fdiv ps * ps))) _ s.2 :=
      api_read_simulates hapi hs hplace (by omega) (by omega) (by omega)
    have hsize : s.1.pageSize = ps := h.pageSize
    have hremote : s.1.remoteSize = rs := h.remoteSize
    unfold Simulates at hread
    unfold Follows Simulates
    cases hr : (api.read (a.fdiv ps * ps) (min ps (rs - a.fdiv ps * ps))).run s.2 with
    | ok d t =>
      rw [hr] at hread
      rw [load_miss kind api hg hmax (by rw [hsize, hremote]; exact hr)]
      refine ⟨hread.1, ?_⟩
      rintro ⟨c, t'⟩ ⟨rfl, ht⟩
      obtain ⟨u, hu, hrun⟩ := hread.2 t' ht
      exact ⟨(s.1, u), ⟨rfl, hu⟩, load_miss kind .faulty hg hmax (by rw [hsize, hremote]; exact hrun)⟩
    | error e t =>
      rw [hr] at hread
      rw [load_raises kind api hg (by rw [hsize, hremote]; exact hr)]
      refine ⟨hread.1, ?_⟩
      rintro ⟨c, t'⟩ ⟨rfl, ht⟩
      obtain ⟨u, hu, hrun⟩ := hread.2 t' ht
      exact ⟨(s.1, u), ⟨rfl, hu⟩, load_raises kind .faulty hg (by rw [hsize, hremote]; exact hrun)⟩

theorem storePage_simulates (hs : Serving Good region rs s.2) (page inside n : Int) (data : Bytes) :
    Follows Good region rs (storePage page inside n data) (storePage page inside n data) s := by
  unfold storePage
  refine .seq (.onFst hs) fun _ t ht => .bind_get ⟨[], [], []⟩ (fun _ => rfl) ?_
  simp only
  cases t.1.pages.moveToEnd page with
  | none => exact .throw ht
  | some pages => exact .onFst ht

theorem flushPage_simulates (hapi : api.Serves limit Good region) (hlimit : ps ≤ limit)
    (hs : Serving Good region rs s.2) {stale : List Int} (h : Kept ps rs k stale (seen region s))
    (page : Int) : Follows Good region rs (flushPage api page) (flushPage .faulty page) s := by
  unfold flushPage
  refine .bind_get ⟨region s.2, [], []⟩ (fun _ => rfl) ?_
  simp only
  cases hg : s.1.pages.get? page with
  | none => exact .pure hs
  | some data =>
    obtain ⟨h0, hlt, hlen⟩ := h.resident page data hg
    have hsize : s.1.pageSize = ps := h.pageSize
    rw [hsize]
    exact .seq (.onSnd (api_write_simulates hapi hs h0 (by omega) (by omega))) fun _ t ht => .onFst ht

/-! ## The loops -/

theorem readLoop_simulates (hapi : api.Serves limit Good region) (hk : 0 < k) (hps : 0 < ps) (hlimit : ps ≤ limit)
    (fuel : Nat) : ∀ {offset length : Int} {output : Bytes} {s : WriteBack × σ}, Serving Good region rs s.2 →
      SoundOver region ps rs k s → 0 ≤ offset → 0 ≤ length → offset + length ≤ rs →
      Follows Good region rs (readLoop kind api fuel offset length output)
        (readLoop kind .faulty fuel offset length output) s := by
  induction fuel with
  | zero =>
    intro offset length output s hs h h0 hl hr
    unfold readLoop
    split
    · exact .pure hs
    · exact .throw hs
  | succ fuel ih =>
    intro offset length output s hs h h0 hl hr
    unfold readLoop
    split
    · exact .pure hs
    · refine .bind_get ⟨[], [], []⟩ (fun _ => rfl) ?_
      have hsize : s.1.pageSize = ps := h.pageSize
      simp only [hsize]
      refine .bind (loadPage_simulates hapi hk hps hlimit hs h h0 (by omega))
        (fun s' hs' => load_ends kind hk hps.ne' (h.beside hs') (by omega)) fun d t ht hd => ?_
      obtain ⟨h', hget⟩ := hd (seen region t) ⟨rfl, rfl⟩
      obtain ⟨h1, h2⟩ := h'.inside hps.ne' (by omega) hget
      exact ih ht h' (by omega) (by omega) (by omega)

theorem writeLoop_simulates (hapi : api.Serves limit Good region) (hk : 0 < k) (hps : 0 < ps) (hlimit : ps ≤ limit)
    (data : Bytes) (fuel : Nat) : ∀ {offset pos : Int} {s : WriteBack × σ}, Serving Good region rs s.2 →
      SoundOver region ps rs k s → 0 ≤ offset → 0 ≤ pos → offset + (data.length - pos) ≤ rs →
      Follows Good region rs (writeLoop kind api data fuel offset pos)
        (writeLoop kind .faulty data fuel offset pos) s := by
  induction fuel with
  | zero =>
    intro offset pos s hs h h0 hp hr
    unfold writeLoop
    split
    · exact .pure hs
    · exact .throw hs
  | succ fuel ih =>
    intro offset pos s hs h h0 hp hr
    unfold writeLoop
    split
    · exact .pure hs
    · refine .bind_get ⟨[], [], []⟩ (fun _ => rfl) ?_
      have hsize : s.1.pageSize = ps := h.pageSize
      simp only [hsize]
      refine .bind (loadPage_simulates hapi hk hps hlimit hs h h0 (by omega))
        (fun s' hs' => load_ends kind hk hps.ne' (h.beside hs') (by omega)) fun d t ht hd => ?_
      obtain ⟨h', hget⟩ := hd (seen region t) ⟨rfl, rfl⟩
      obtain ⟨h1, h2⟩ := h'.inside hps.ne' (by omega) hget
      generalize hm : min ((data.length : Int) - pos) (d.length - offset.fmod ps) = m
      have hlen := length_slice (l := data) (a := pos) (n := m) hp (by omega) (by omega)
      have hstore : ∀ t', beside (Mirrors region) t t' →
          Ends (storePage (offset.fdiv ps) (offset.fmod ps) m (slice data pos (pos + m))) (fun _ => Sound ps rs k)
            (Sound ps rs k) t' := by
        rintro ⟨c, t'⟩ ⟨rfl, ht'⟩
        have hends := store_ends (SoundOver.beside h' ⟨rfl, ht'⟩) hget h1
          (show _ + ((slice data pos (pos + m)).length : Int) ≤ _ by omega)
        rwa [hlen] at hends
      exact .bind (storePage_simulates ht _ _ _ _) hstore fun _ u hu hstored =>
        ih hu (.of_beside hstored) (by omega) (by omega) (by omega)

theorem flushPages_simulates (hapi : api.Serves limit Good region) (hlimit : ps ≤ limit) (pages : List Int) :
    ∀ {stale : List Int} {s : WriteBack × σ}, Serving Good region rs s.2 →
      Kept ps rs k stale (seen region s) →
      Follows Good region rs (flushPages api pages) (flushPages .faulty pages) s := by
  induction pages with
  | nil => exact fun hs _ => .pure hs
  | cons page pages ih =>
    intro stale s hs h
    refine .bind (flushPage_simulates hapi hlimit hs h page)
      (fun s' hs' => (flushPage_ends (h.beside hs') page).mono (fun _ _ ht => ht.1) fun _ ht => ht.1)
      fun _ t ht hkept => ?_
    exact ih ht (hkept (seen region t) ⟨rfl, rfl⟩)

/-! ## The operations -/

theorem check_simulates (hs : Serving Good region rs s.2) (offset length : Int) :
    Follows Good region rs (check kind offset length) (check kind offset length) s :=
  .bind_get ⟨[], [], []⟩ (fun _ => rfl) (.raiseIf hs)

/-- What a check that returns has found. -/
theorem check_inside {s : WriteBack × FaultyArray} (h : Sound ps rs k s) (offset length : Int) :
    Ends (check kind offset length)
      (fun _ t => Sound ps rs k t ∧ 0 ≤ offset ∧ 0 ≤ length ∧ offset + length ≤ rs) (Sound ps rs k) s := by
  refine .bind_get (.raiseIf (fun _ => h) fun hc => ⟨h, ?_⟩)
  rw [h.remoteSize] at hc
  omega

theorem read_simulates (kind : Kind) (hapi : api.Serves limit Good region) (hk : 0 < k) (hps : 0 < ps)
    (hlimit : ps ≤ limit) (fuel : Nat) (hs : Serving Good region rs s.2) (h : SoundOver region ps rs k s) (offset length : Int) :
    Follows Good region rs (read kind api fuel offset length) (read kind .faulty fuel offset length) s := by
  refine .bind (check_simulates hs offset length) (fun s' hs' => check_inside (h.beside hs') offset length)
    fun _ t ht hin => ?_
  obtain ⟨h', h0, hl, hr⟩ := hin (seen region t) ⟨rfl, rfl⟩
  exact readLoop_simulates hapi hk hps hlimit fuel ht h' h0 hl hr

theorem write_simulates (kind : Kind) (hapi : api.Serves limit Good region) (hk : 0 < k) (hps : 0 < ps)
    (hlimit : ps ≤ limit) (fuel : Nat) (hs : Serving Good region rs s.2) (h : SoundOver region ps rs k s) (offset : Int) (data : Bytes) :
    Follows Good region rs (write kind api fuel offset data) (write kind .faulty fuel offset data) s := by
  refine .bind (check_simulates hs offset data.length)
    (fun s' hs' => check_inside (h.beside hs') offset data.length) fun _ t ht hin => ?_
  obtain ⟨h', h0, hl, hr⟩ := hin (seen region t) ⟨rfl, rfl⟩
  exact writeLoop_simulates hapi hk hps hlimit data fuel ht h' h0 (Int.le_refl 0) (by omega)

theorem flush_simulates (hapi : api.Serves limit Good region) (hlimit : ps ≤ limit)
    (hs : Serving Good region rs s.2) (h : SoundOver region ps rs k s) (order : SetOrder) :
    Follows Good region rs (flush api order) (flush .faulty order) s :=
  .bind_get ⟨[], [], []⟩ (fun _ => rfl)
    (.seq (flushPages_simulates hapi hlimit _ hs h) fun _ _ ht => .onFst ht)

end

end WriteBack

end RamLink
