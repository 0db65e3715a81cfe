import RamLink.Dokan
import RamLink.MemoryService.Commands
import Mathlib.Data.List.TakeWhile

/-!
# RamLink.Dokan.Client

The rest of `LocalRamLinkClient`: `size` and `write`, over `LocalApi.client`.

Their replies are lines, read byte by byte. `recvLine_line` is what `recv_line` makes of a whole
line, and `recvLine_head` what it can make of any reply; `stoull_digits` is the round trip of a
size through its decimal text.
-/

namespace RamLink

open Lib

namespace LocalRamLinkClient

variable {μ : Type}

/-- The loop of `recv_line`: a pass takes a byte, so one pass more than there are bytes is enough. -/
def recvLineLoop : Nat → Bytes → EStateM Exc Conn (Option Bytes)
  | 0, _ => return none
  | fuel + 1, line => do
    if line.length < 8192 then
      let c ← Conn.recv 1
      if c = [] then return none
      else if c = [10] then return some line
      else recvLineLoop fuel (if c = [13] then line else line ++ c)
    else return none

/-- `recv_line`; `none` stands for `return false`. -/
def recvLine : EStateM Exc Conn (Option Bytes) := do
  recvLineLoop ((← get).inbox.length + 1) []

/-- `isspace` of the C locale. -/
def isSpace (b : UInt8) : Bool := b = 32 ∨ (9 ≤ b ∧ b ≤ 13)

def isDigit (b : UInt8) : Bool := 48 ≤ b ∧ b ≤ 57

/-- The value of decimal digits. -/
def digitsValue (digits : Bytes) : Nat := digits.foldl (fun n b => 10 * n + (b.toNat - 48)) 0

/-- `std::stoull(line)`; `none` where it throws. A minus sign negates modulo `2 ^ 64`. -/
def stoull (line : Bytes) : Option UInt64 :=
  let rest := line.dropWhile isSpace
  let sign := rest.head?
  let digits := (if sign = some 43 ∨ sign = some 45 then rest.tail else rest).takeWhile isDigit
  let value := digitsValue digits
  if digits = [] ∨ 2 ^ 64 ≤ value then none
  else some (if sign = some 45 then 0 - UInt64.ofNat value else UInt64.ofNat value)

/-- The rest of `size` once its command is sent. -/
def sizeReply : EStateM Exc Conn UInt64 := do
  match ← recvLine with
  | none => return 0
  | some line => return (stoull line).getD 0

def size (memory : Memory μ) (text : Exc → Option Bytes) : EStateM Exc (LocalService μ) UInt64 :=
  tryCatch
    (do
      let conn ← LocalService.connect memory text (ascii "SIZE\n")
      LocalService.receive sizeReply conn)
    fun _ => return 0

/-- The rest of `write` once its command and its data are sent. -/
def writeReply : EStateM Exc Conn Bool := do
  return decide ((← recvLine) = some (ascii "OK"))

def write (memory : Memory μ) (text : Exc → Option Bytes) (offset : UInt64) (data : Bytes)
    (length : UInt32) : EStateM Exc (LocalService μ) Bool :=
  if maxBlock < length then return false
  else
    tryCatch
      (do
        let conn ← LocalService.connect memory text
          (encodeAscii (LocalApi.line "WRITE".toList offset.toNat length.toNat) ++ [10] ++
            data.take length.toNat)
        LocalService.receive writeReply conn)
      fun _ => return false

/-! ## Lines -/

/-- One pass, however the stream is cut. -/
theorem recvLineLoop_cons (fuel : Nat) {line : Bytes} (hlen : line.length < 8192) (b : UInt8) (rest : Bytes)
    (cuts : List Nat) : (recvLineLoop (fuel + 1) line).run { inbox := b :: rest, cuts := cuts } =
      if b = 10 then .ok (some line) { inbox := rest, cuts := cuts.tail }
      else (recvLineLoop fuel (if b = 13 then line else line ++ [b])).run
        { inbox := rest, cuts := cuts.tail } := by
  have hone : min (max 1 (cuts.headD 1)) 1 = 1 := by omega
  rw [recvLineLoop, if_pos hlen, EStateM.run_bind, Conn.run_recv]
  simp only [hone, List.take_succ_cons, List.take_zero, List.drop_succ_cons, List.drop_zero,
    List.cons_ne_nil, if_false, List.cons.injEq, and_true]
  split <;> rfl

/-- A line of fewer than 8192 bytes, none of them a line break, is read as it was sent. -/
theorem recvLineLoop_line (rest w : Bytes) : ∀ (fuel : Nat) (line : Bytes) (cuts : List Nat),
    w.length < fuel → (line ++ w).length < 8192 → (∀ b ∈ w, b ≠ 10 ∧ b ≠ 13) →
    ∃ c, (recvLineLoop fuel line).run { inbox := w ++ [10] ++ rest, cuts := cuts } = .ok (some (line ++ w)) c := by
  induction w with
  | nil =>
    intro fuel line cuts hfuel hlen _
    obtain ⟨fuel, rfl⟩ : ∃ f, fuel = f + 1 := ⟨fuel - 1, by simp only [List.length_nil] at hfuel; omega⟩
    rw [List.append_nil] at hlen ⊢
    exact ⟨_, recvLineLoop_cons fuel hlen 10 rest cuts⟩
  | cons b w ih =>
    intro fuel line cuts hfuel hlen hw
    obtain ⟨fuel, rfl⟩ : ∃ f, fuel = f + 1 := ⟨fuel - 1, by simp only [List.length_cons] at hfuel; omega⟩
    obtain ⟨h10, h13⟩ := hw b (List.mem_cons_self ..)
    simp only [List.length_append, List.length_cons] at hlen hfuel
    obtain ⟨c, hc⟩ := ih fuel (line ++ [b]) cuts.tail (by omega)
      (by simp only [List.length_append, List.length_cons, List.length_nil]; omega)
      (fun b' hb' => hw b' (List.mem_cons_of_mem _ hb'))
    refine ⟨c, (recvLineLoop_cons fuel (by omega) b (w ++ [10] ++ rest) cuts).trans ?_⟩
    rw [if_neg h10, if_neg h13, hc, List.append_assoc, List.singleton_append]

theorem recvLine_line {w : Bytes} (rest : Bytes) (cuts : List Nat) (hlen : w.length < 8192)
    (hw : ∀ b ∈ w, b ≠ 10 ∧ b ≠ 13) :
    ∃ c, recvLine.run { inbox := w ++ [10] ++ rest, cuts := cuts } = .ok (some w) c := by
  obtain ⟨c, hc⟩ := recvLineLoop_line rest w ((w ++ [10] ++ rest).length + 1) [] cuts
    (by simp only [List.length_append]; omega) (by simpa using hlen) hw
  exact ⟨c, hc⟩

/-- What has been read of a line stays its beginning. -/
theorem recvLineLoop_prefix (fuel : Nat) : ∀ (line : Bytes) (c : Conn),
    ∃ r c', (recvLineLoop fuel line).run c = .ok r c' ∧ ∀ w, r = some w → line <+: w := by
  induction fuel with
  | zero =>
    intro line c
    exact ⟨none, c, rfl, fun w hw => nomatch hw⟩
  | succ fuel ih =>
    intro line c
    rw [recvLineLoop]
    by_cases hlen : line.length < 8192
    · rw [if_pos hlen, EStateM.run_bind, Conn.run_recv]
      simp only
      generalize c.inbox.take _ = chunk
      by_cases hnil : chunk = []
      · rw [if_pos hnil]
        exact ⟨none, _, rfl, fun w hw => nomatch hw⟩
      rw [if_neg hnil]
      by_cases hend : chunk = [10]
      · rw [if_pos hend]
        exact ⟨some line, _, rfl, fun w hw => by cases hw; exact List.prefix_rfl⟩
      rw [if_neg hend]
      obtain ⟨r, c', hr, hw⟩ := ih (if chunk = [13] then line else line ++ chunk) _
      refine ⟨r, c', hr, fun w h => List.IsPrefix.trans ?_ (hw w h)⟩
      split
      · exact List.prefix_rfl
      · exact List.prefix_append line chunk
    · rw [if_neg hlen]
      exact ⟨none, c, rfl, fun w hw => nomatch hw⟩

/-- No line has come when the peer has closed. -/
theorem recvLine_nil (cuts : List Nat) :
    ∃ c, recvLine.run { inbox := [], cuts := cuts } = .ok none c := by
  refine ⟨{ inbox := [], cuts := cuts.tail }, ?_⟩
  show (recvLineLoop 1 []).run { inbox := [], cuts := cuts } = _
  rw [recvLineLoop, if_pos (by simp), EStateM.run_bind, Conn.run_recv]
  simp only [List.take_nil, List.drop_nil, if_true]
  rfl

/-- The line of a reply begins as the reply does. -/
theorem recvLine_head {b : UInt8} (h10 : b ≠ 10) (h13 : b ≠ 13) (rest : Bytes) (cuts : List Nat) :
    ∃ r c, recvLine.run { inbox := b :: rest, cuts := cuts } = .ok r c ∧ ∀ w, r = some w → [b] <+: w := by
  obtain ⟨r, c, hr, hw⟩ := recvLineLoop_prefix (b :: rest).length [b] { inbox := rest, cuts := cuts.tail }
  refine ⟨r, c, ?_, hw⟩
  show (recvLineLoop ((b :: rest).length + 1) []).run { inbox := b :: rest, cuts := cuts } = _
  rw [recvLineLoop_cons _ (by simp) b rest cuts, if_neg h10, if_neg h13, List.nil_append, hr]

/-! ## Numbers -/

theorem digitsValue_encodeAscii {t : Text} (h : ∀ c ∈ t, c.isDigit = true) :
    ∀ acc, (encodeAscii t).foldl (fun n b => 10 * n + (b.toNat - 48)) acc = Nat.ofDigitChars 10 t acc := by
  induction t with
  | nil => intro acc; rfl
  | cons c t ih =>
    intro acc
    have hc := toNat_digit (h c (List.mem_cons_self ..))
    have hb : (UInt8.ofNat c.toNat).toNat = c.toNat := by
      rw [UInt8.toNat_ofNat']
      omega
    rw [Nat.ofDigitChars_cons, ← ih (fun c' hc' => h c' (List.mem_cons_of_mem _ hc'))]
    show (encodeAscii t).foldl _ (10 * acc + ((UInt8.ofNat c.toNat).toNat - 48)) = _
    rw [hb]
    rfl

theorem isDigit_encodeAscii {t : Text} (h : ∀ c ∈ t, c.isDigit = true) :
    ∀ b ∈ encodeAscii t, 48 ≤ b.toNat ∧ b.toNat ≤ 57 := by
  intro b hb
  obtain ⟨c, hc, rfl⟩ := List.mem_map.mp hb
  have := toNat_digit (h c hc)
  rw [UInt8.toNat_ofNat']
  omega

/-- The round trip of a size through its decimal text. -/
theorem stoull_digits {n : Nat} (hn : n < 2 ^ 64) :
    ∃ m, stoull (encodeAscii (Nat.toDigits 10 n)) = some m ∧ m.toNat = n := by
  have hdigit := isDigit_encodeAscii (t := Nat.toDigits 10 n) isDigit_toDigits
  have hvalue : digitsValue (encodeAscii (Nat.toDigits 10 n)) = n := by
    rw [digitsValue, digitsValue_encodeAscii isDigit_toDigits]
    exact Nat.ofDigitChars_ten_toDigits
  have hne : encodeAscii (Nat.toDigits 10 n) ≠ [] := by
    rw [encodeAscii, ne_eq, List.map_eq_nil_iff]
    exact Nat.toDigits_ne_nil
  generalize encodeAscii (Nat.toDigits 10 n) = ds at hdigit hvalue hne
  have htake : ds.takeWhile isDigit = ds := by
    refine List.takeWhile_eq_self_iff.mpr fun b hb => ?_
    obtain ⟨h1, h2⟩ := hdigit b hb
    exact decide_eq_true ⟨UInt8.le_iff_toNat_le.mpr h1, UInt8.le_iff_toNat_le.mpr h2⟩
  cases ds with
  | nil => exact absurd rfl hne
  | cons b ds =>
    obtain ⟨h1, h2⟩ := hdigit b (List.mem_cons_self ..)
    have hspace : isSpace b = false := by
      refine decide_eq_false ?_
      simp only [UInt8.le_iff_toNat_le, ← UInt8.toNat_inj]
      have h32 : (32 : UInt8).toNat = 32 := rfl
      have h13 : (13 : UInt8).toNat = 13 := rfl
      omega
    have hsign : ∀ k : UInt8, k.toNat < 48 → b ≠ k := by
      rintro k hk rfl
      omega
    have hplus := hsign 43 (by decide)
    have hminus := hsign 45 (by decide)
    refine ⟨UInt64.ofNat n, ?_, UInt64.toNat_ofNat_of_lt' hn⟩
    unfold stoull
    simp only [List.dropWhile_cons, hspace, Bool.false_eq_true, if_false, List.head?_cons,
      Option.some.injEq, hplus, hminus, or_self, htake, hvalue, List.cons_ne_nil,
      Nat.not_le.mpr hn]

end LocalRamLinkClient

end RamLink
