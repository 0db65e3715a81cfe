import RamLink.Lib.Run
import Mathlib.Data.List.Basic
import Mathlib.Data.List.Dedup
import Mathlib.Data.List.DropRight

/-!
# RamLink.Lib.Lru

Least-recently-used residency, without contents.

`touch k order p` is what touching `p` does to the resident keys of a cache of capacity `k`, listed
from least to most recently used, and `victim k order p` is the key it evicts. `recent k history` are
the `k` keys touched last in a history of touches; `touch_recent` says that `touch` keeps them.
`Residency` adds the set of dirty keys of a write-back cache, and its `next` is disabled exactly where
a dirty key would be evicted.
-/

namespace Lib

variable {α : Type} [DecidableEq α]

namespace Lru

def touch (k : Nat) (order : List α) (p : α) : List α :=
  if p ∈ order then order.filter (fun q => decide (q ≠ p)) ++ [p]
  else if k ≤ order.length then order.tail ++ [p]
  else order ++ [p]

def victim (k : Nat) (order : List α) (p : α) : Option α :=
  if p ∈ order then none else if k ≤ order.length then order.head? else none

theorem touch_hit (k : Nat) {order : List α} {p : α} (h : p ∈ order) :
    touch k order p = order.filter (fun q => decide (q ≠ p)) ++ [p] := if_pos h

theorem touch_full {k : Nat} {order : List α} {p : α} (h : p ∉ order) (hk : k ≤ order.length) :
    touch k order p = order.tail ++ [p] := by rw [touch, if_neg h, if_pos hk]

theorem touch_room {k : Nat} {order : List α} {p : α} (h : p ∉ order) (hk : ¬ k ≤ order.length) :
    touch k order p = order ++ [p] := by rw [touch, if_neg h, if_neg hk]

/-- Removing a key that occurs once. -/
theorem length_filter_ne {l : List α} {p : α} (hl : l.Nodup) (hp : p ∈ l) :
    (l.filter (fun q => decide (q ≠ p))).length + 1 = l.length := by
  have hperm := List.perm_cons_erase hp
  rw [hl.erase_eq_filter] at hperm
  have hlen := hperm.length_eq
  rw [List.length_cons] at hlen
  rw [hlen]
  congr 2
  refine List.filter_congr (fun q _ => ?_)
  by_cases hq : q = p <;> simp [hq]

/-- Touching does not grow the cache beyond its capacity. -/
theorem length_touch {k : Nat} {order : List α} (p : α) (hk : 0 < k) (hl : order.Nodup)
    (hb : order.length ≤ k) : (touch k order p).length ≤ k := by
  by_cases h : p ∈ order
  · have hkeep := length_filter_ne hl h
    rw [touch_hit k h, List.length_append, List.length_singleton]
    omega
  · by_cases hfull : k ≤ order.length
    · rw [touch_full h hfull, List.length_append, List.length_tail, List.length_singleton]
      omega
    · rw [touch_room h hfull, List.length_append, List.length_singleton]
      omega

theorem mem_touch_self (k : Nat) (order : List α) (p : α) : p ∈ touch k order p := by
  unfold touch
  split
  · simp
  · split <;> simp

/-- A key just touched is the last one; moving it to the end changes nothing. -/
theorem filter_touch (k : Nat) (order : List α) (p : α) :
    (touch k order p).filter (fun q => decide (q ≠ p)) ++ [p] = touch k order p := by
  have hself : ∀ l : List α, p ∉ l → l.filter (fun q => decide (q ≠ p)) = l := by
    intro l hl
    rw [List.filter_eq_self]
    intro q hq
    exact decide_eq_true (fun h => hl (h ▸ hq))
  unfold touch
  split
  · rw [List.filter_append, List.filter_filter]
    simp
  · rename_i h
    split
    · rw [List.filter_append, hself _ (fun hm => h (List.mem_of_mem_tail hm))]
      simp
    · rw [List.filter_append, hself _ h]
      simp

theorem victim_some {k : Nat} {order : List α} {p q : α} (h : victim k order p = some q) :
    p ∉ order ∧ q ∈ order := by
  unfold victim at h
  split at h
  · cases h
  · rename_i hp
    split at h
    · exact ⟨hp, List.mem_of_mem_head? h⟩
    · cases h

/-- Touching evicts nothing but the victim. -/
theorem mem_touch {k : Nat} {order : List α} {p q : α} (hq : q ∈ order)
    (hv : victim k order p ≠ some q) : q ∈ touch k order p := by
  unfold touch
  unfold victim at hv
  split
  · by_cases h : q = p
    · rw [h]; simp
    · simp [hq, h]
  · rename_i h
    rw [if_neg h] at hv
    split
    · rename_i hk
      rw [if_pos hk] at hv
      cases order with
      | nil => cases hq
      | cons x xs =>
        rcases List.mem_cons.mp hq with rfl | hq
        · exact absurd rfl hv
        · exact List.mem_append_left _ hq
    · exact List.mem_append_left _ hq

theorem mem_of_mem_touch {k : Nat} {order : List α} {p q : α} (h : q ∈ touch k order p) :
    q = p ∨ q ∈ order := by
  unfold touch at h
  split at h
  · rcases List.mem_append.mp h with h | h
    · exact .inr (List.mem_filter.mp h).1
    · exact .inl (List.mem_singleton.mp h)
  · split at h
    · rcases List.mem_append.mp h with h | h
      · exact .inr (List.mem_of_mem_tail h)
      · exact .inl (List.mem_singleton.mp h)
    · rcases List.mem_append.mp h with h | h
      · exact .inr h
      · exact .inl (List.mem_singleton.mp h)

/-- The keys of `touched` that are resident when they are touched. -/
def hits (k : Nat) : List α → List α → List α
  | _, [] => []
  | order, p :: touched =>
    if p ∈ order then p :: hits k (touch k order p) touched else hits k (touch k order p) touched

theorem hits_cons (k : Nat) (order : List α) (p : α) (touched : List α) : hits k order (p :: touched) =
    if p ∈ order then p :: hits k (touch k order p) touched else hits k (touch k order p) touched := rfl

/-- A key that is touched once is resident from the beginning, or it is not when it is touched. -/
theorem mem_of_mem_hits {k : Nat} {q : α} (touched : List α) : ∀ {order : List α}, touched.Nodup →
    q ∈ hits k order touched → q ∈ touched ∧ q ∈ order := by
  induction touched with
  | nil => intro order _ hq; cases hq
  | cons p touched ih =>
    intro order hnodup hq
    obtain ⟨hp, hnodup⟩ := List.nodup_cons.mp hnodup
    have hrest : q ∈ hits k (touch k order p) touched → q ∈ p :: touched ∧ q ∈ order := by
      intro hq
      obtain ⟨htouched, horder⟩ := ih hnodup hq
      refine ⟨List.mem_cons_of_mem p htouched, (mem_of_mem_touch horder).resolve_left ?_⟩
      exact fun he => hp (he ▸ htouched)
    rw [hits_cons] at hq
    split at hq
    · rename_i hmem
      rcases List.mem_cons.mp hq with rfl | hq
      · exact ⟨List.mem_cons_self .., hmem⟩
      · exact hrest hq
    · exact hrest hq

/-! ## The history of touches -/

/-- The `k` keys touched most recently, the least recent of them first. -/
def recent (k : Nat) (history : List α) : List α := history.dedup.rtake k

/-- The keys of `touched`, which follow on `history`, that are not among the `k` most recent when they
are touched. -/
def fetches (k : Nat) : List α → List α → List α
  | _, [] => []
  | history, p :: touched =>
    if p ∈ recent k history then fetches k (history ++ [p]) touched
    else p :: fetches k (history ++ [p]) touched

@[simp] theorem recent_nil (k : Nat) : recent k ([] : List α) = [] := List.rtake_nil ..

theorem length_recent (k : Nat) (history : List α) :
    (recent k history).length = min k history.dedup.length := by
  rw [recent, List.rtake, List.length_drop]
  omega

theorem fetches_hit {k : Nat} {history touched : List α} {p : α} (h : p ∈ recent k history) :
    fetches k history (p :: touched) = fetches k (history ++ [p]) touched := by
  rw [fetches, if_pos h]

theorem fetches_miss {k : Nat} {history touched : List α} {p : α} (h : p ∉ recent k history) :
    fetches k history (p :: touched) = p :: fetches k (history ++ [p]) touched := by
  rw [fetches, if_neg h]

theorem fetches_append (k : Nat) (xs ys : List α) : ∀ history : List α,
    fetches k history (xs ++ ys) = fetches k history xs ++ fetches k (history ++ xs) ys := by
  induction xs with
  | nil => intro history; rw [List.append_nil]; rfl
  | cons p xs ih =>
    intro history
    have hcons : history ++ p :: xs = history ++ [p] ++ xs := by simp
    rw [List.cons_append, hcons]
    by_cases h : p ∈ recent k history
    · rw [fetches_hit h, fetches_hit h, ih]
    · rw [fetches_miss h, fetches_miss h, ih, List.cons_append]

theorem dedup_concat (history : List α) (p : α) :
    (history ++ [p]).dedup = history.dedup.filter (fun q => decide (q ≠ p)) ++ [p] := by
  induction history with
  | nil => rfl
  | cons x history ih =>
    rw [List.cons_append]
    by_cases hx : x = p
    · subst hx
      rw [List.dedup_cons_of_mem (by simp), ih]
      by_cases hmem : x ∈ history
      · rw [List.dedup_cons_of_mem hmem]
      · rw [List.dedup_cons_of_notMem hmem, List.filter_cons_of_neg (by simp)]
    · by_cases hmem : x ∈ history
      · rw [List.dedup_cons_of_mem (by simp [hmem]), List.dedup_cons_of_mem hmem, ih]
      · rw [List.dedup_cons_of_notMem (by simp [hmem, hx]), List.dedup_cons_of_notMem hmem, ih,
          List.filter_cons_of_pos (by simp [hx]), List.cons_append]

/-- Least recent use is what the history says: the resident keys stay the most recent ones. -/
theorem touch_recent {k : Nat} (hk : 0 < k) (history : List α) (p : α) :
    touch k (recent k history) p = recent k (history ++ [p]) := by
  obtain ⟨k, rfl⟩ := Nat.exists_eq_succ_of_ne_zero (Nat.ne_of_gt hk)
  have hnodup := List.nodup_dedup history
  have hself : ∀ {l : List α}, p ∉ l → l.filter (fun q => decide (q ≠ p)) = l := fun hl =>
    List.filter_eq_self.mpr (fun q hq => decide_eq_true (fun he => hl (he ▸ hq)))
  rw [recent, recent, dedup_concat, List.rtake_concat_succ]
  generalize history.dedup = order at *
  -- `old` are the keys that are no longer resident
  obtain ⟨old, hold⟩ : ∃ old, old ++ order.rtake (k + 1) = order :=
    ⟨_, List.take_append_drop (order.length - (k + 1)) order⟩
  have hlen : (order.rtake (k + 1)).length = min (k + 1) order.length := by
    rw [List.rtake, List.length_drop]
    omega
  have hsum := congrArg List.length hold
  rw [List.length_append] at hsum
  generalize order.rtake (k + 1) = resident at *
  subst hold
  have hres : resident.Nodup := (List.nodup_append.mp hnodup).2.1
  rw [List.filter_append, List.rtake, List.length_append]
  by_cases hp : p ∈ resident
  · have hkeep := length_filter_ne hres hp
    have hout : p ∉ old := fun ho => (List.nodup_append.mp hnodup).2.2 p ho p hp rfl
    have hdrop : old.length + (resident.filter (fun q => decide (q ≠ p))).length - k = old.length := by
      omega
    rw [touch_hit _ hp, hself hout, hdrop, List.drop_left]
  · rw [hself hp]
    by_cases hfull : k + 1 ≤ resident.length
    · generalize old.filter (fun q => decide (q ≠ p)) = kept
      have hdrop : kept.length + resident.length - k = kept.length + 1 := by omega
      rw [touch_full hp hfull, hdrop, ← List.drop_drop, List.drop_left, List.drop_one]
    · obtain rfl : old = [] := List.length_eq_zero_iff.mp (by omega)
      have hdrop : ([] : List α).length + resident.length - k = 0 := by
        rw [List.length_nil]
        omega
      rw [touch_room hp hfull, List.filter_nil, hdrop]
      rfl

/-- Touching the same key again changes nothing. -/
theorem recent_again {k : Nat} (hk : 0 < k) (history : List α) (p : α) :
    recent k (history ++ [p] ++ [p]) = recent k (history ++ [p]) := by
  have hmem : p ∈ recent k (history ++ [p]) := by
    rw [← touch_recent hk]
    exact mem_touch_self k _ p
  rw [← touch_recent hk, touch_hit k hmem, ← touch_recent hk, filter_touch]

theorem fetches_again {k : Nat} (hk : 0 < k) (history : List α) (p : α) :
    fetches k [] (history ++ [p] ++ [p]) = fetches k [] (history ++ [p]) := by
  have hmem : p ∈ recent k (history ++ [p]) := by
    rw [← touch_recent hk]
    exact mem_touch_self k _ p
  rw [fetches_append, List.nil_append, fetches_hit hmem]
  exact List.append_nil _

end Lru

/-- One access to a write-back cache. -/
inductive Access (α : Type) where
  | use (p : α)
  | change (p : α)
  | clean

structure Residency (α : Type) where
  /-- The resident keys, least recently used first. -/
  order : List α
  /-- The keys changed since the last clean, in the order they were first changed. -/
  dirty : List α

namespace Residency

def empty : Residency α := ⟨[], []⟩

def mark (r : Residency α) (p : α) : Residency α :=
  { r with dirty := if p ∈ r.dirty then r.dirty else r.dirty ++ [p] }

/-- Touching `p` evicts a dirty key. -/
def EvictsDirty (k : Nat) (r : Residency α) (p : α) : Prop :=
  ∃ q ∈ r.dirty, Lru.victim k r.order p = some q

instance (k : Nat) (r : Residency α) (p : α) : Decidable (EvictsDirty k r p) :=
  inferInstanceAs (Decidable (∃ q ∈ r.dirty, _))

def use (k : Nat) (r : Residency α) (p : α) : Option (Residency α) :=
  if EvictsDirty k r p then none else some { r with order := Lru.touch k r.order p }

def next (k : Nat) (r : Residency α) : Access α → Option (Residency α)
  | .use p => use k r p
  | .change p => (use k r p).map (fun r' => r'.mark p)
  | .clean => some { r with dirty := [] }

/-- No access of the list evicts a dirty key of a cache of capacity `k` that starts empty. -/
def NoDirtyEviction (k : Nat) (as : List (Access α)) : Prop := ∃ r, exec (next k) empty as = some r

theorem use_some {k : Nat} {r r' : Residency α} {p : α} (h : use k r p = some r') :
    ¬ EvictsDirty k r p ∧ r' = { r with order := Lru.touch k r.order p } := by
  unfold use at h
  split at h
  · cases h
  · rename_i hn
    cases h
    exact ⟨hn, rfl⟩

end Residency

end Lib
