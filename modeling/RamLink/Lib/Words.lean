import RamLink.Lib.Outcome

/-!
# RamLink.Lib.Words

Arithmetic on machine words that remembers whether a result has wrapped.

A computation runs on a state and a flag. `exactly toInt a value` is one whose result is `a` where
the integers have `value`; it sets the flag if they differ. Each operation has the bound under which
it does not (`bind_add64` and so on).
-/

namespace Lib

variable {ε σ α β : Type}

def exactly (toInt : α → Int) (a : α) (value : Int) : EStateM ε (σ × Bool) α := fun s =>
  .ok a (s.1, s.2 || decide (toInt a ≠ value))

def add32 (a b : UInt32) : EStateM ε (σ × Bool) UInt32 :=
  exactly (fun c => c.toNat) (a + b) (a.toNat + b.toNat)

def sub32 (a b : UInt32) : EStateM ε (σ × Bool) UInt32 :=
  exactly (fun c => c.toNat) (a - b) (a.toNat - b.toNat)

def add64 (a b : UInt64) : EStateM ε (σ × Bool) UInt64 :=
  exactly (fun c => c.toNat) (a + b) (a.toNat + b.toNat)

def sub64 (a b : UInt64) : EStateM ε (σ × Bool) UInt64 :=
  exactly (fun c => c.toNat) (a - b) (a.toNat - b.toNat)

/-- `static_cast<uint32_t>`. -/
def castU32 (a : UInt64) : EStateM ε (σ × Bool) UInt32 := exactly (fun c => c.toNat) a.toUInt32 a.toNat

/-- `static_cast<uint64_t>`. -/
def castU64 (a : Int64) : EStateM ε (σ × Bool) UInt64 := exactly (fun c => c.toNat) a.toUInt64 a.toInt

theorem toNat_min32 (a b : UInt32) : (min a b).toNat = min a.toNat b.toNat := by
  show (if a ≤ b then a else b).toNat = min a.toNat b.toNat
  split
  · rename_i h
    rw [UInt32.le_iff_toNat_le] at h
    omega
  · rename_i h
    rw [UInt32.le_iff_toNat_le] at h
    omega

theorem toNat_min64 (a b : UInt64) : (min a b).toNat = min a.toNat b.toNat := by
  show (if a ≤ b then a else b).toNat = min a.toNat b.toNat
  split
  · rename_i h
    rw [UInt64.le_iff_toNat_le] at h
    omega
  · rename_i h
    rw [UInt64.le_iff_toNat_le] at h
    omega

namespace Ends

variable {Q : β → σ × Bool → Prop} {R : σ × Bool → Prop} {s : σ × Bool}

theorem bind_exactly {toInt : α → Int} {a : α} {value : Int} {f : α → EStateM ε (σ × Bool) β}
    (h : toInt a = value) (hf : Ends (f a) Q R s) : Ends (exactly toInt a value >>= f) Q R s := by
  refine bind_ok (t := s) ?_ hf
  show EStateM.Result.ok a (s.1, s.2 || decide (toInt a ≠ value)) = .ok a s
  rw [decide_eq_false (not_not.mpr h), Bool.or_false]

theorem bind_add32 {a b : UInt32} {f : UInt32 → EStateM ε (σ × Bool) β} (h : a.toNat + b.toNat < 2 ^ 32)
    (hf : ∀ c : UInt32, c.toNat = a.toNat + b.toNat → Ends (f c) Q R s) :
    Ends (add32 a b >>= f) Q R s := by
  have hc : (a + b).toNat = a.toNat + b.toNat := by rw [UInt32.toNat_add, Nat.mod_eq_of_lt h]
  exact bind_exactly (by rw [hc]; rfl) (hf _ hc)

theorem bind_sub32 {a b : UInt32} {f : UInt32 → EStateM ε (σ × Bool) β} (h : b.toNat ≤ a.toNat)
    (hf : ∀ c : UInt32, c.toNat = a.toNat - b.toNat → Ends (f c) Q R s) :
    Ends (sub32 a b >>= f) Q R s := by
  have hc := UInt32.toNat_sub_of_le a b (UInt32.le_iff_toNat_le.mpr h)
  exact bind_exactly (by rw [hc]; omega) (hf _ hc)

theorem bind_add64 {a b : UInt64} {f : UInt64 → EStateM ε (σ × Bool) β} (h : a.toNat + b.toNat < 2 ^ 64)
    (hf : ∀ c : UInt64, c.toNat = a.toNat + b.toNat → Ends (f c) Q R s) :
    Ends (add64 a b >>= f) Q R s := by
  have hc : (a + b).toNat = a.toNat + b.toNat := by rw [UInt64.toNat_add, Nat.mod_eq_of_lt h]
  exact bind_exactly (by rw [hc]; rfl) (hf _ hc)

theorem bind_sub64 {a b : UInt64} {f : UInt64 → EStateM ε (σ × Bool) β} (h : b.toNat ≤ a.toNat)
    (hf : ∀ c : UInt64, c.toNat = a.toNat - b.toNat → Ends (f c) Q R s) :
    Ends (sub64 a b >>= f) Q R s := by
  have hc := UInt64.toNat_sub_of_le a b (UInt64.le_iff_toNat_le.mpr h)
  exact bind_exactly (by rw [hc]; omega) (hf _ hc)

theorem bind_castU32 {a : UInt64} {f : UInt32 → EStateM ε (σ × Bool) β} (h : a.toNat < 2 ^ 32)
    (hf : ∀ c : UInt32, c.toNat = a.toNat → Ends (f c) Q R s) : Ends (castU32 a >>= f) Q R s := by
  have hc : a.toUInt32.toNat = a.toNat := by rw [UInt64.toNat_toUInt32, Nat.mod_eq_of_lt h]
  exact bind_exactly (by rw [hc]) (hf _ hc)

theorem bind_castU64 {a : Int64} {f : UInt64 → EStateM ε (σ × Bool) β} (h : 0 ≤ a.toInt)
    (hf : ∀ c : UInt64, (c.toNat : Int) = a.toInt → Ends (f c) Q R s) :
    Ends (castU64 a >>= f) Q R s := by
  have hc : (a.toUInt64.toNat : Int) = a.toInt := by
    rw [Int64.toNat_toUInt64_of_le (by rw [Int64.le_iff_toInt_le]; exact h)]
    show (a.toInt.toNat : Int) = a.toInt
    exact Int.toNat_of_nonneg h
  exact bind_exactly hc (hf _ hc)

end Ends

end Lib
