import Mathlib.Data.List.Basic
import Mathlib.Data.List.Nodup
import Mathlib.Tactic.Common

/-!
# RamLink.Lib.Dict

Dictionaries that remember insertion order (Python's `dict` and `OrderedDict`).

The entries are kept in order, oldest first, and no key occurs twice: the second fact is a field,
so an entry list with a repeated key is no dictionary. `get?` is the only observation of contents
and `keys` the only observation of order; every operation has one lemma for each.
-/

namespace Lib

structure Dict (κ ν : Type) where
  entries : List (κ × ν)
  nodup : (entries.map Prod.fst).Nodup

namespace Dict

variable {κ ν : Type}

def empty : Dict κ ν := ⟨[], List.nodup_nil⟩

def keys (d : Dict κ ν) : List κ := d.entries.map Prod.fst

def values (d : Dict κ ν) : List ν := d.entries.map Prod.snd

/-- `len(d)`. -/
def size (d : Dict κ ν) : Nat := d.entries.length

/-- The dictionary with the entries that fail `p` deleted. -/
def filter (d : Dict κ ν) (p : κ → ν → Bool) : Dict κ ν :=
  ⟨d.entries.filter (fun e => p e.1 e.2), d.nodup.sublist (List.filter_sublist.map _)⟩

/-- `d.popitem(last=False)`: the oldest entry and the dictionary without it. -/
def popFirst (d : Dict κ ν) : Option ((κ × ν) × Dict κ ν) :=
  match d with
  | ⟨[], _⟩ => none
  | ⟨e :: es, h⟩ => some (e, ⟨es, (List.nodup_cons.mp h).2⟩)

theorem length_keys (d : Dict κ ν) : d.keys.length = d.size := List.length_map _

theorem keys_nodup (d : Dict κ ν) : d.keys.Nodup := d.nodup

@[simp] theorem keys_empty : (empty : Dict κ ν).keys = [] := rfl

theorem keys_popFirst {d d' : Dict κ ν} {k : κ} {v : ν} (h : d.popFirst = some ((k, v), d')) :
    d.keys = k :: d'.keys := by
  obtain ⟨es, hn⟩ := d
  cases es with
  | nil => cases h
  | cons e es =>
    simp only [popFirst, Option.some.injEq, Prod.mk.injEq] at h
    obtain ⟨rfl, rfl⟩ := h
    rfl

theorem popFirst_isSome {d : Dict κ ν} (h : 0 < d.size) :
    ∃ k v d', d.popFirst = some ((k, v), d') := by
  obtain ⟨es, hn⟩ := d
  cases es with
  | nil => cases h
  | cons e es => exact ⟨e.1, e.2, _, rfl⟩

variable [DecidableEq κ]

/-- `d.get(k)`. -/
def get? (d : Dict κ ν) (k : κ) : Option ν :=
  (d.entries.find? (fun e => decide (e.1 = k))).map Prod.snd

/-- `del d[k]`. -/
def erase (d : Dict κ ν) (k : κ) : Dict κ ν := d.filter (fun j _ => decide (j ≠ k))

/-- The value of `k` changed in place (no change where `k` is no key). -/
def modify (d : Dict κ ν) (k : κ) (f : ν → ν) : Dict κ ν :=
  ⟨d.entries.map (fun e => if e.1 = k then (e.1, f e.2) else e), by
    have h : (fun e : κ × ν => (if e.1 = k then (e.1, f e.2) else e).1) = Prod.fst := by
      funext e; split <;> rfl
    rw [List.map_map, Function.comp_def, h]
    exact d.nodup⟩

/-- The dictionary with a fresh key added at the end. -/
def push (d : Dict κ ν) (k : κ) (v : ν) (h : k ∉ d.keys) : Dict κ ν :=
  ⟨d.entries ++ [(k, v)], by
    rw [List.map_append, List.map_singleton]
    exact List.nodup_append.mpr ⟨d.nodup, List.nodup_singleton k, by
      rintro a ha b hb rfl
      rw [List.mem_singleton.mp hb] at ha
      exact h ha⟩⟩

/-- `d[k] = v`: a key that is there keeps its place, a new one goes to the end. -/
def set (d : Dict κ ν) (k : κ) (v : ν) : Dict κ ν :=
  if h : k ∈ d.keys then d.modify k (fun _ => v) else d.push k v h

/-- `d.move_to_end(k)`; `none` is the `KeyError`. -/
def moveToEnd (d : Dict κ ν) (k : κ) : Option (Dict κ ν) :=
  (d.get? k).map (fun v => (d.erase k).set k v)

/-! ## Contents -/

theorem mem_entries {d : Dict κ ν} {k : κ} {v : ν} : (k, v) ∈ d.entries ↔ d.get? k = some v := by
  obtain ⟨es, h⟩ := d
  simp only [get?]
  induction es with
  | nil => simp
  | cons e es ih =>
    rw [List.map_cons, List.nodup_cons] at h
    rw [List.mem_cons, List.find?_cons]
    by_cases he : e.1 = k
    · have hk : (k, v) ∉ es := fun hm => h.1 (he ▸ List.mem_map_of_mem (f := Prod.fst) hm)
      simp only [hk, or_false, he, decide_true, Option.map_some, Option.some.injEq]
      constructor
      · intro hev; rw [← hev]
      · intro hev; rw [← hev, ← he]
    · have hne : (k, v) ≠ e := fun hev => he (hev ▸ rfl)
      simp only [hne, false_or, he, decide_false]
      exact ih h.2

theorem ext_get? {d : Dict κ ν} {k : κ} {o : Option ν} (h : ∀ v, (k, v) ∈ d.entries ↔ o = some v) :
    d.get? k = o := by
  cases o with
  | some v => exact mem_entries.mp ((h v).mpr rfl)
  | none =>
    cases hg : d.get? k with
    | none => rfl
    | some v => exact absurd ((h v).mp (mem_entries.mpr hg)) (by simp)

theorem mem_keys {d : Dict κ ν} {k : κ} : k ∈ d.keys ↔ ∃ v, d.get? k = some v := by
  simp only [keys, List.mem_map, Prod.exists, exists_and_right, exists_eq_right, mem_entries]

theorem get?_eq_none {d : Dict κ ν} {k : κ} : d.get? k = none ↔ k ∉ d.keys := by
  rw [mem_keys]
  cases d.get? k <;> simp

theorem mem_keys_of_get? {d : Dict κ ν} {k : κ} {v : ν} (h : d.get? k = some v) : k ∈ d.keys :=
  mem_keys.mpr ⟨v, h⟩

/-- Dictionaries with the same items are of one size. -/
theorem size_congr {d d' : Dict κ ν} (h : ∀ k, d'.get? k = d.get? k) : d'.size = d.size := by
  have hperm : d'.keys.Perm d.keys := by
    refine (List.perm_ext_iff_of_nodup d'.keys_nodup d.keys_nodup).mpr (fun k => ?_)
    rw [mem_keys, mem_keys, h]
  rw [← length_keys, ← length_keys, hperm.length_eq]

theorem mem_values {d : Dict κ ν} {v : ν} : v ∈ d.values ↔ ∃ k, d.get? k = some v := by
  simp only [values, List.mem_map, Prod.exists, exists_eq_right, mem_entries]

@[simp] theorem get?_empty (k : κ) : (empty : Dict κ ν).get? k = none := rfl

theorem get?_filter (d : Dict κ ν) (p : κ → ν → Bool) (k : κ) :
    (d.filter p).get? k = (d.get? k).filter (p k) := by
  apply ext_get?
  intro v
  rw [filter, List.mem_filter, mem_entries, Option.filter_eq_some_iff]

@[simp] theorem get?_erase (d : Dict κ ν) (k j : κ) :
    (d.erase k).get? j = if j = k then none else d.get? j := by
  rw [erase, get?_filter]
  split
  · rename_i h; cases d.get? j <;> simp [Option.filter, h]
  · rename_i h; cases d.get? j <;> simp [Option.filter, h]

@[simp] theorem get?_modify (d : Dict κ ν) (k j : κ) (f : ν → ν) :
    (d.modify k f).get? j = if j = k then (d.get? j).map f else d.get? j := by
  apply ext_get?
  intro v
  rw [modify, List.mem_map]
  constructor
  · rintro ⟨⟨i, w⟩, hm, he⟩
    rw [mem_entries] at hm
    by_cases hi : i = k
    · simp only [hi, if_true, Prod.mk.injEq] at he
      obtain ⟨rfl, rfl⟩ := he
      rw [if_pos rfl, ← hi, hm, Option.map_some]
    · simp only [hi, if_false, Prod.mk.injEq] at he
      obtain ⟨rfl, rfl⟩ := he
      rw [if_neg hi, hm]
  · intro h
    by_cases hj : j = k
    · rw [if_pos hj, Option.map_eq_some_iff] at h
      obtain ⟨w, hw, rfl⟩ := h
      exact ⟨(j, w), mem_entries.mpr hw, by simp [hj]⟩
    · rw [if_neg hj] at h
      exact ⟨(j, v), mem_entries.mpr h, by simp [hj]⟩

@[simp] theorem get?_push (d : Dict κ ν) (k : κ) (v : ν) (h : k ∉ d.keys) (j : κ) :
    (d.push k v h).get? j = if j = k then some v else d.get? j := by
  apply ext_get?
  intro w
  rw [push, List.mem_append, mem_entries, List.mem_singleton, Prod.mk.injEq]
  by_cases hj : j = k
  · subst hj
    rw [get?_eq_none.mpr h, if_pos rfl, Option.some.injEq]
    simp [eq_comm]
  · simp [hj]

@[simp] theorem get?_set (d : Dict κ ν) (k : κ) (v : ν) (j : κ) :
    (d.set k v).get? j = if j = k then some v else d.get? j := by
  unfold set
  split
  · rename_i h
    obtain ⟨w, hw⟩ := mem_keys.mp h
    rw [get?_modify]
    split
    · rename_i hj; rw [hj, hw, Option.map_some]
    · rfl
  · exact get?_push d k v _ j

theorem get?_moveToEnd {d d' : Dict κ ν} {k : κ} (h : d.moveToEnd k = some d') (j : κ) :
    d'.get? j = d.get? j := by
  rw [moveToEnd, Option.map_eq_some_iff] at h
  obtain ⟨v, hv, rfl⟩ := h
  rw [get?_set, get?_erase]
  split
  · rename_i hj; rw [hj, hv]
  · rfl

theorem get?_popFirst {d d' : Dict κ ν} {k : κ} {v : ν} (h : d.popFirst = some ((k, v), d')) (j : κ) :
    d.get? k = some v ∧ d'.get? j = if j = k then none else d.get? j := by
  obtain ⟨es, hn⟩ := d
  cases es with
  | nil => cases h
  | cons e es =>
    simp only [popFirst, Option.some.injEq, Prod.mk.injEq] at h
    obtain ⟨rfl, rfl⟩ := h
    rw [List.map_cons, List.nodup_cons] at hn
    refine ⟨mem_entries.mp (List.mem_cons_self ..), ?_⟩
    by_cases hj : j = k
    · rw [if_pos hj, get?_eq_none, hj]
      exact hn.1
    · rw [if_neg hj]
      simp only [get?, List.find?_cons, decide_eq_false (Ne.symm hj)]

/-! ## Order -/

@[simp] theorem keys_erase (d : Dict κ ν) (k : κ) :
    (d.erase k).keys = d.keys.filter (fun j => decide (j ≠ k)) := by
  simp only [erase, filter, keys, List.filter_map, Function.comp_def]

@[simp] theorem keys_modify (d : Dict κ ν) (k : κ) (f : ν → ν) : (d.modify k f).keys = d.keys := by
  simp only [modify, keys, List.map_map]
  congr 1
  funext e
  simp only [Function.comp_apply]
  split <;> rfl

theorem keys_set_of_not_mem {d : Dict κ ν} {k : κ} (v : ν) (h : k ∉ d.keys) :
    (d.set k v).keys = d.keys ++ [k] := by
  rw [set, dif_neg h]
  simp [push, keys]

theorem keys_moveToEnd {d d' : Dict κ ν} {k : κ} (h : d.moveToEnd k = some d') :
    d'.keys = d.keys.filter (fun j => decide (j ≠ k)) ++ [k] := by
  rw [moveToEnd, Option.map_eq_some_iff] at h
  obtain ⟨v, -, rfl⟩ := h
  rw [keys_set_of_not_mem v (by simp), keys_erase]

theorem moveToEnd_isSome {d : Dict κ ν} {k : κ} (h : k ∈ d.keys) : ∃ d', d.moveToEnd k = some d' := by
  obtain ⟨v, hv⟩ := mem_keys.mp h
  exact ⟨_, by rw [moveToEnd, hv, Option.map_some]⟩

end Dict

end Lib
