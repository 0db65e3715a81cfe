import RamLink.Lib.Python
import Mathlib.Data.List.DropRight

/-!
# RamLink.Lib.Text

What the models take from Python's `str`, as lists of characters, with the tables of Unicode 14.

* `decode`: `data.decode("utf-8", "replace")`. An ill-formed sequence gives one replacement
  character for its longest part that a well-formed one could begin with.
* `strip`, `split`, `upper`, `int`. `upper` is exact for the characters that it takes to ASCII
  letters and leaves every other non-ASCII character as it is.

`read_words` and `int_intText` read back what the clients write; `read_words_append` is what becomes of a
line that came with some of the data after it.
-/

namespace Lib

abbrev Text := List Char

/-! ## Decoding -/

def replacement : Char := '\uFFFD'

/-- A sequence that is not complete: `left` more bytes, the next of them between `low` and `high`. -/
structure Pending where
  left : Nat
  low : Nat
  high : Nat
  acc : Nat
deriving DecidableEq, Repr

/-- The first byte of a sequence. -/
def decodeLead (b : Nat) : Text × Option Pending :=
  if b < 0x80 then ([Char.ofNat b], none)
  else if b < 0xC2 then ([replacement], none)
  else if b < 0xE0 then ([], some ⟨1, 0x80, 0xBF, b - 0xC0⟩)
  else if b < 0xF0 then
    ([], some ⟨2, if b = 0xE0 then 0xA0 else 0x80, if b = 0xED then 0x9F else 0xBF, b - 0xE0⟩)
  else if b < 0xF5 then
    ([], some ⟨3, if b = 0xF0 then 0x90 else 0x80, if b = 0xF4 then 0x8F else 0xBF, b - 0xF0⟩)
  else ([replacement], none)

def decodeByte (pending : Option Pending) (b : Nat) : Text × Option Pending :=
  match pending with
  | none => decodeLead b
  | some p =>
    if p.low ≤ b ∧ b ≤ p.high then
      if p.left = 1 then ([Char.ofNat (p.acc * 64 + (b - 0x80))], none)
      else ([], some ⟨p.left - 1, 0x80, 0xBF, p.acc * 64 + (b - 0x80)⟩)
    else (replacement :: (decodeLead b).1, (decodeLead b).2)

def decodeFrom (pending : Option Pending) : Bytes → Text
  | [] => if pending.isSome then [replacement] else []
  | b :: data =>
    (decodeByte pending b.toNat).1 ++ decodeFrom (decodeByte pending b.toNat).2 data

def decode (data : Bytes) : Text := decodeFrom none data

/-- `text.encode()` for ASCII characters. -/
def encodeAscii (t : Text) : Bytes := t.map (fun c => UInt8.ofNat c.toNat)

/-- ASCII characters are decoded one by one, whatever comes after them. -/
theorem decode_ascii_append {t : Text} (h : ∀ c ∈ t, c.toNat < 0x80) (rest : Bytes) :
    decode (encodeAscii t ++ rest) = t ++ decode rest := by
  unfold decode
  induction t with
  | nil => rfl
  | cons c t ih =>
    have hc : c.toNat < 0x80 := h c (List.mem_cons_self ..)
    have hb : (UInt8.ofNat c.toNat).toNat = c.toNat := by
      rw [UInt8.toNat_ofNat']
      omega
    have hlead : decodeByte none c.toNat = ([c], none) := by
      show decodeLead c.toNat = _
      unfold decodeLead
      rw [if_pos hc, Char.ofNat_toNat]
    show (decodeByte none (UInt8.ofNat c.toNat).toNat).1 ++ decodeFrom _ (encodeAscii t ++ rest) = _
    rw [hb, hlead, ih (fun c' hc' => h c' (List.mem_cons_of_mem _ hc'))]
    rfl

theorem decode_ascii {t : Text} (h : ∀ c ∈ t, c.toNat < 0x80) : decode (encodeAscii t) = t := by
  have happ := decode_ascii_append h []
  rw [List.append_nil] at happ
  exact happ.trans (List.append_nil t)

/-! ## White space -/

/-- `c.isspace()`. -/
def isSpace (c : Char) : Bool :=
  let n := c.toNat
  (9 ≤ n ∧ n ≤ 13) ∨ (0x1C ≤ n ∧ n ≤ 0x20) ∨ n = 0x85 ∨ n = 0xA0 ∨ n = 0x1680 ∨
    (0x2000 ≤ n ∧ n ≤ 0x200A) ∨ n = 0x2028 ∨ n = 0x2029 ∨ n = 0x202F ∨ n = 0x205F ∨ n = 0x3000

def strip (t : Text) : Text := ((t.dropWhile isSpace).reverse.dropWhile isSpace).reverse

/-- The words of `t`, the first of which goes on from `word`. -/
def splitFrom (word : Text) : Text → List Text
  | [] => if word = [] then [] else [word]
  | c :: t =>
    if isSpace c then if word = [] then splitFrom [] t else word :: splitFrom [] t
    else splitFrom (word ++ [c]) t

/-- `text.split()`. -/
def split (t : Text) : List Text := splitFrom [] t

theorem splitFrom_append {w : Text} (hw : ∀ c ∈ w, isSpace c = false) (t : Text) :
    ∀ word, splitFrom word (w ++ t) = splitFrom (word ++ w) t := by
  induction w with
  | nil => intro word; simp
  | cons c w ih =>
    intro word
    have hc : isSpace c = false := hw c (List.mem_cons_self ..)
    rw [List.cons_append, splitFrom, hc, if_neg (by simp),
      ih (fun c' hc' => hw c' (List.mem_cons_of_mem _ hc')), List.append_assoc, List.singleton_append]

/-- A word, then white space, then the other words. -/
theorem split_cons_space {w : Text} {c : Char} (hne : w ≠ []) (hw : ∀ c ∈ w, isSpace c = false)
    (hc : isSpace c = true) (t : Text) : split (w ++ c :: t) = w :: split t := by
  rw [split, splitFrom_append hw, List.nil_append, splitFrom, if_pos hc, if_neg hne]
  rfl

theorem split_cons {w : Text} (hne : w ≠ []) (hw : ∀ c ∈ w, isSpace c = false) (t : Text) :
    split (w ++ ' ' :: t) = w :: split t := split_cons_space hne hw (by decide) t

theorem split_word {w : Text} (hne : w ≠ []) (hw : ∀ c ∈ w, isSpace c = false) : split w = [w] := by
  have h := splitFrom_append hw [] []
  rw [List.append_nil, List.nil_append] at h
  rw [split, h, splitFrom, if_neg hne]

theorem split_dropWhile (t : Text) : split (t.dropWhile isSpace) = split t := by
  induction t with
  | nil => rfl
  | cons c t ih =>
    by_cases hc : isSpace c = true
    · rw [List.dropWhile_cons_of_pos hc, ih, split, split, splitFrom, if_pos hc, if_pos rfl]
    · rw [List.dropWhile_cons_of_neg hc]

/-- White space at the end of a text makes no word. -/
theorem splitFrom_concat {c : Char} (hc : isSpace c = true) (t : Text) :
    ∀ word, splitFrom word (t ++ [c]) = splitFrom word t := by
  induction t with
  | nil =>
    intro word
    by_cases hw : word = []
    · simp [splitFrom, hc, hw]
    · simp [splitFrom, hc, hw]
  | cons d t ih =>
    intro word
    rw [List.cons_append, splitFrom, splitFrom]
    simp only [ih]

theorem split_rdropWhile (t : Text) : split (t.rdropWhile isSpace) = split t := by
  induction t using List.reverseRecOn with
  | nil => rfl
  | append_singleton t c ih =>
    by_cases hc : isSpace c = true
    · rw [List.rdropWhile_concat_pos _ _ _ hc, ih]
      exact (splitFrom_concat hc t []).symm
    · rw [List.rdropWhile_concat_neg _ _ _ hc]

/-- White space at the ends makes no words. -/
theorem split_strip (t : Text) : split (strip t) = split t :=
  (split_rdropWhile _).trans (split_dropWhile t)

theorem strip_line {t : Text} {c d : Char} (hc : t.head? = some c) (hd : t.getLast? = some d)
    (hcs : isSpace c = false) (hds : isSpace d = false) : strip (t ++ ['\n']) = t := by
  obtain ⟨u, rfl⟩ : ∃ u, t = u ++ [d] := List.getLast?_eq_some_iff.mp hd
  have hfirst : (u ++ [d] ++ ['\n']).dropWhile isSpace = u ++ [d] ++ ['\n'] := by
    cases u with
    | nil =>
      have hdc : d = c := by simpa using hc
      simp [hdc, hcs]
    | cons x u =>
      have hx : x = c := by simpa using hc
      simp [hx, hcs]
  unfold strip
  rw [hfirst, List.reverse_append, List.reverse_append]
  show (List.dropWhile isSpace ('\n' :: d :: u.reverse)).reverse = _
  rw [List.dropWhile_cons_of_pos (by decide), List.dropWhile_cons_of_neg (by simp [hds])]
  simp

/-- Nothing is taken from the front of a text that begins with a word. -/
theorem strip_prefix {c : Char} (hc : isSpace c = false) (t : Text) : strip (c :: t) <+: c :: t := by
  unfold strip
  rw [List.dropWhile_cons_of_neg (by rw [hc]; exact Bool.false_ne_true)]
  exact List.rdropWhile_prefix isSpace (c :: t)

/-! ## Upper case -/

def upperChar (c : Char) : Text :=
  let n := c.toNat
  if 97 ≤ n ∧ n ≤ 122 then [Char.ofNat (n - 32)]
  else if n = 0xDF then ['S', 'S']
  else if n = 0x131 then ['I']
  else if n = 0x17F then ['S']
  else if n = 0xFB00 then ['F', 'F']
  else if n = 0xFB01 then ['F', 'I']
  else if n = 0xFB02 then ['F', 'L']
  else if n = 0xFB03 then ['F', 'F', 'I']
  else if n = 0xFB04 then ['F', 'F', 'L']
  else if n = 0xFB05 ∨ n = 0xFB06 then ['S', 'T']
  else [c]

def upper (t : Text) : Text := t.flatMap upperChar

/-! ## Numbers -/

/-- The zeros of the decimal digits. -/
def decimalZeros : List Nat :=
  [0x30, 0x660, 0x6F0, 0x7C0, 0x966, 0x9E6, 0xA66, 0xAE6, 0xB66, 0xBE6, 0xC66, 0xCE6, 0xD66, 0xDE6,
   0xE50, 0xED0, 0xF20, 0x1040, 0x1090, 0x17E0, 0x1810, 0x1946, 0x19D0, 0x1A80, 0x1A90, 0x1B50,
   0x1BB0, 0x1C40, 0x1C50, 0xA620, 0xA8D0, 0xA900, 0xA9D0, 0xA9F0, 0xAA50, 0xABF0, 0xFF10, 0x104A0,
   0x10D30, 0x11066, 0x110F0, 0x11136, 0x111D0, 0x112F0, 0x11450, 0x114D0, 0x11650, 0x116C0,
   0x11730, 0x118E0, 0x11950, 0x11C50, 0x11D50, 0x11DA0, 0x16A60, 0x16AC0, 0x16B50, 0x1D7CE,
   0x1D7D8, 0x1D7E2, 0x1D7EC, 0x1D7F6, 0x1E140, 0x1E2F0, 0x1E950, 0x1FBF0]

def digit (c : Char) : Option Nat :=
  (decimalZeros.find? (fun z => z ≤ c.toNat ∧ c.toNat < z + 10)).map (fun z => c.toNat - z)

/-- The digits after one digit; a single underscore may stand between two of them. -/
def digitsFrom (acc : Nat) : Text → Option Nat
  | [] => some acc
  | '_' :: c :: t => (digit c).bind fun d => digitsFrom (10 * acc + d) t
  | c :: t => (digit c).bind fun d => digitsFrom (10 * acc + d) t

def digits : Text → Option Nat
  | [] => none
  | c :: t => (digit c).bind fun d => digitsFrom d t

def intValue : Text → Option Int
  | '-' :: t => (digits t).map Int.negOfNat
  | '+' :: t => (digits t).map Int.ofNat
  | t => (digits t).map Int.ofNat

/-- `int(word)` of a word without white space. -/
def int (word : Text) : Except Exc Int :=
  match intValue word with
  | some n => .ok n
  | none => .error (.invalidLiteral (String.ofList word))

theorem toNat_digit {c : Char} (h : c.isDigit = true) : 48 ≤ c.toNat ∧ c.toNat < 58 := by
  simp [Char.isDigit, UInt32.le_iff_toNat_le] at h
  exact ⟨h.1, Nat.lt_succ_of_le h.2⟩

theorem digit_ascii {c : Char} (h : c.isDigit = true) : digit c = some (c.toNat - '0'.toNat) := by
  have hc := toNat_digit h
  unfold digit decimalZeros
  rw [List.find?_cons_of_pos (by simpa using hc)]
  rfl

theorem isSpace_digit {c : Char} (h : c.isDigit = true) : isSpace c = false := by
  have hc := toNat_digit h
  unfold isSpace
  simp
  omega

theorem digitsFrom_ascii {t : Text} (h : ∀ c ∈ t, c.isDigit = true) :
    ∀ acc, digitsFrom acc t = some (Nat.ofDigitChars 10 t acc) := by
  induction t with
  | nil => intro acc; rfl
  | cons c t ih =>
    intro acc
    have hc : c.isDigit = true := h c (List.mem_cons_self ..)
    have hne : c ≠ '_' := by
      rintro rfl
      simp at hc
    rw [digitsFrom, digit_ascii hc, Option.bind_some, Nat.ofDigitChars_cons]
    · exact ih (fun c' hc' => h c' (List.mem_cons_of_mem _ hc')) _
    · intro c' t' hc' _
      exact absurd hc' hne

theorem isDigit_toDigits {n : Nat} : ∀ c ∈ Nat.toDigits 10 n, c.isDigit = true := fun _ hc =>
  Nat.isDigit_of_mem_toDigits (by omega) (by omega) hc

theorem digits_toDigits (n : Nat) : digits (Nat.toDigits 10 n) = some n := by
  have hdig : ∀ c ∈ Nat.toDigits 10 n, c.isDigit = true := isDigit_toDigits
  have hval : Nat.ofDigitChars 10 (Nat.toDigits 10 n) 0 = n := Nat.ofDigitChars_ten_toDigits
  cases hd : Nat.toDigits 10 n with
  | nil => exact absurd hd Nat.toDigits_ne_nil
  | cons c t =>
    rw [hd] at hdig hval
    rw [digits, digit_ascii (hdig c (List.mem_cons_self ..)), Option.bind_some,
      digitsFrom_ascii (fun c' hc' => hdig c' (List.mem_cons_of_mem _ hc'))]
    simpa [Nat.ofDigitChars_cons] using hval

theorem int_toDigits (n : Nat) : int (Nat.toDigits 10 n) = .ok n := by
  have hdig : ∀ c ∈ Nat.toDigits 10 n, c.isDigit = true := isDigit_toDigits
  have hdigits := digits_toDigits n
  cases hd : Nat.toDigits 10 n with
  | nil => exact absurd hd Nat.toDigits_ne_nil
  | cons c t =>
    rw [hd] at hdig hdigits
    have hc : c.isDigit = true := hdig c (List.mem_cons_self ..)
    have hvalue : intValue (c :: t) = some (n : Int) := by
      rw [intValue, hdigits]
      · rfl
      · intro t' heq
        simp_all
      · intro t' heq
        simp_all
    rw [int, hvalue]

/-- `f"{n}"`. -/
def intText : Int → Text
  | .ofNat n => Nat.toDigits 10 n
  | .negSucc n => '-' :: Nat.toDigits 10 (n + 1)

/-- The round trip of `f"{n}"`. -/
theorem int_intText (n : Int) : int (intText n) = .ok n := by
  cases n with
  | ofNat n => exact int_toDigits n
  | negSucc n =>
    have hvalue : intValue (intText (.negSucc n)) = some (.negSucc n) := by
      rw [intText, intValue, digits_toDigits]
      rfl
    rw [int, hvalue]

/-! ## Lines of words -/

/-- A word of ASCII characters. -/
structure Plain (w : Text) : Prop where
  ne_nil : w ≠ []
  ascii : ∀ c ∈ w, c.toNat < 0x80
  word : ∀ c ∈ w, isSpace c = false

theorem plain_of_all {w : Text} (hne : w ≠ [])
    (h : w.all (fun c => decide (c.toNat < 0x80) && !isSpace c) = true) : Plain w := by
  rw [List.all_eq_true] at h
  refine ⟨hne, fun c hc => ?_, fun c hc => ?_⟩
  · have hchar := h c hc
    simp only [Bool.and_eq_true, decide_eq_true_eq] at hchar
    exact hchar.1
  · have hchar := h c hc
    simp only [Bool.and_eq_true, Bool.not_eq_true'] at hchar
    exact hchar.2

theorem plain_digits (n : Nat) : Plain (Nat.toDigits 10 n) := by
  refine ⟨Nat.toDigits_ne_nil, fun c hc => ?_, fun c hc => isSpace_digit (isDigit_toDigits c hc)⟩
  have := toNat_digit (isDigit_toDigits c hc)
  omega

theorem plain_intText (n : Int) : Plain (intText n) := by
  cases n with
  | ofNat n => exact plain_digits n
  | negSucc n =>
    obtain ⟨-, ha, hw⟩ := plain_digits (n + 1)
    refine ⟨List.cons_ne_nil _ _, fun c hc => ?_, fun c hc => ?_⟩
    · rcases List.mem_cons.mp hc with rfl | hc
      · decide
      · exact ha c hc
    · rcases List.mem_cons.mp hc with rfl | hc
      · decide
      · exact hw c hc

/-- A line of three words, as it is sent and as it is read. -/
theorem read_words {w x y : Text} (hw : Plain w) (hx : Plain x) (hy : Plain y) :
    strip (decode (encodeAscii (w ++ ' ' :: (x ++ ' ' :: y)) ++ [10])) = w ++ ' ' :: (x ++ ' ' :: y) ∧
      split (w ++ ' ' :: (x ++ ' ' :: y)) = [w, x, y] := by
  constructor
  · have hall : ∀ c ∈ w ++ ' ' :: (x ++ ' ' :: y) ++ ['\n'], c.toNat < 0x80 := by
      intro c hc
      simp only [List.mem_append, List.mem_cons, List.not_mem_nil, or_false] at hc
      rcases hc with (hc | rfl | hc | rfl | hc) | rfl
      · exact hw.ascii c hc
      · decide
      · exact hx.ascii c hc
      · decide
      · exact hy.ascii c hc
      · decide
    have hdecode := decode_ascii hall
    rw [encodeAscii, List.map_append] at hdecode
    rw [encodeAscii]
    refine (congrArg strip hdecode).trans ?_
    have hlast := List.getLast_mem hy.ne_nil
    refine strip_line (c := w.head hw.ne_nil) (d := y.getLast hy.ne_nil) ?_ ?_
      (hw.word _ (List.head_mem hw.ne_nil)) (hy.word _ hlast)
    · rw [List.head?_append_of_ne_nil _ hw.ne_nil, List.head?_eq_some_head hw.ne_nil]
    · have hline : w ++ ' ' :: (x ++ ' ' :: y) = (w ++ ' ' :: (x ++ [' '])) ++ y := by simp
      rw [hline, List.getLast?_append_of_ne_nil _ hy.ne_nil, List.getLast?_eq_some_getLast hy.ne_nil]
  · rw [split_cons hw.ne_nil hw.word, split_cons hx.ne_nil hx.word, split_word hy.ne_nil hy.word]

/-- The words of a line of three and of what came with it. -/
theorem read_words_append {w x y : Text} (hw : Plain w) (hx : Plain x) (hy : Plain y) (rest : Bytes) :
    split (strip (decode (encodeAscii (w ++ ' ' :: (x ++ ' ' :: y)) ++ [10] ++ rest))) =
      w :: x :: y :: split (decode rest) := by
  have hall : ∀ c ∈ w ++ ' ' :: (x ++ ' ' :: (y ++ ['\n'])), c.toNat < 0x80 := by
    intro c hc
    simp only [List.mem_append, List.mem_cons, List.not_mem_nil, or_false] at hc
    rcases hc with hc | rfl | hc | rfl | hc | rfl
    · exact hw.ascii c hc
    · decide
    · exact hx.ascii c hc
    · decide
    · exact hy.ascii c hc
    · decide
  have hline : encodeAscii (w ++ ' ' :: (x ++ ' ' :: y)) ++ [10] =
      encodeAscii (w ++ ' ' :: (x ++ ' ' :: (y ++ ['\n']))) := by
    simp [encodeAscii]
  rw [split_strip, hline, decode_ascii_append hall]
  simp only [List.append_assoc, List.cons_append, List.nil_append]
  rw [split_cons hw.ne_nil hw.word, split_cons hx.ne_nil hx.word,
    split_cons_space hy.ne_nil hy.word (by decide)]

end Lib
