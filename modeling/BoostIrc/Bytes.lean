import Mathlib.Algebra.Ring.Int.Defs
import Mathlib.Algebra.Ring.Nat
import Mathlib.Data.Int.Order.Basic
import Mathlib.Data.List.TakeWhile

/-!
# Bytes and the Standard Library

The C++ strings of the program are byte strings, modelled as lists of bytes. This module
fixes the bytes and texts the protocol code names, and the three pieces of the standard
library that the IRC client leans on: `std::getline` over the contents of a stream
buffer, `std::stoi`, and the ways in which a call can end abnormally (`Fault`).
-/

namespace BoostIrc

/-- A `char` of the program. -/
abbrev Byte := UInt8

/-- A `std::string`, or the contents of a stream buffer. -/
abbrev Bytes := List Byte

/-- The bytes of a string literal. -/
def ascii (s : String) : Bytes :=
  s.toList.map Char.toUInt8

/-- Line feed. -/
abbrev LF : Byte := 0x0A
/-- Form feed. -/
abbrev FF : Byte := 0x0C
/-- Carriage return. -/
abbrev CR : Byte := 0x0D
/-- Space. -/
abbrev SP : Byte := 0x20
/-- The exclamation mark. -/
abbrev BANG : Byte := 0x21
/-- The comma. -/
abbrev COMMA : Byte := 0x2C
/-- The colon. -/
abbrev COLON : Byte := 0x3A
/-- The semicolon. -/
abbrev SEMICOLON : Byte := 0x3B
/-- The equals sign. -/
abbrev EQUALS : Byte := 0x3D
/-- The at sign. -/
abbrev AT : Byte := 0x40

/-- The line terminator of the protocols. -/
def crlf : Bytes := [CR, LF]

/-- How a call can end other than by returning: one of the two exceptions of `std::stoi`,
or an element access past the end of a vector, which has no defined result. -/
inductive Fault where
  | invalidArgument
  | outOfRange
  | outOfBounds
  deriving DecidableEq, Repr

/-- `v[i]` on a vector. -/
def at? (v : List Bytes) (i : ℕ) : Except Fault Bytes :=
  match v[i]? with
  | some x => .ok x
  | none => .error .outOfBounds

/-- Every byte of a text that does not hold `x` differs from it. -/
theorem bne_of_notMem {x : Byte} {l : Bytes} (h : x ∉ l) : ∀ a ∈ l, (a != x) = true := by
  intro a ha
  simp only [bne_iff_ne, ne_eq]
  rintro rfl
  exact h ha

/-- A byte is not among those before its first occurrence. -/
theorem notMem_takeWhile_bne (x : Byte) (l : Bytes) : x ∉ l.takeWhile (· != x) := by
  intro h
  simpa using List.mem_takeWhile_imp h

/-- What is left from the first occurrence of a byte on starts with that byte. -/
theorem eq_of_dropWhile_bne {x a : Byte} {l r : Bytes} (h : l.dropWhile (· != x) = a :: r) :
    a = x := by
  have hhead := List.head?_dropWhile_not (· != x) l
  rw [h] at hhead
  simpa using hhead

/-- A text, cut at the first occurrence of a byte. -/
theorem eq_append_of_dropWhile_bne {x a : Byte} {l r : Bytes}
    (h : l.dropWhile (· != x) = a :: r) : l = l.takeWhile (· != x) ++ x :: r := by
  obtain rfl := eq_of_dropWhile_bne h
  rw [← h]
  exact List.takeWhile_append_dropWhile.symm

/-- A byte that is neither in the separator nor in the parts is not in the parts joined. -/
theorem notMem_intercalate {x : Byte} {sep : Bytes} {parts : List Bytes} (hsep : x ∉ sep)
    (hparts : ∀ l ∈ parts, x ∉ l) : x ∉ sep.intercalate parts := by
  induction parts with
  | nil => exact List.not_mem_nil
  | cons l parts ih =>
      have hl : x ∉ l := hparts l List.mem_cons_self
      have hrest := ih fun m hm => hparts m (List.mem_cons_of_mem l hm)
      cases parts with
      | nil => simpa using hl
      | cons m parts =>
          rw [List.intercalate_cons_cons, List.mem_append, List.mem_append]
          rintro ((h | h) | h)
          · exact hl h
          · exact hsep h
          · exact hrest h

/-- With the carriage return of its terminator a line still holds no line feed. -/
theorem lf_notMem_concat_cr {line : Bytes} (h : LF ∉ line) : LF ∉ line ++ [CR] := by
  intro hmem
  rcases List.mem_append.mp hmem with hmem | hmem
  · exact h hmem
  · exact absurd (List.mem_singleton.mp hmem) (by decide)

/-- A list of one element has this element only, and only at its beginning. -/
theorem eq_of_getElem?_singleton {α : Type*} {a b : α} {i : ℕ} (h : [a][i]? = some b) :
    i = 0 ∧ a = b := by
  cases i with
  | zero => exact ⟨rfl, Option.some.inj h⟩
  | succ i => exact absurd h (by simp)

/-! ### `std::getline` -/

/-- `getline` on a stream whose buffer holds `buf`: the extracted line, and what stays in
the buffer. The line feed is extracted and dropped; without one the whole buffer is the
line. -/
def getline (buf : Bytes) : Bytes × Bytes :=
  (buf.takeWhile (· != LF), (buf.dropWhile (· != LF)).drop 1)

/-- A line that ends in a line feed is extracted up to it. -/
theorem getline_append_lf {line : Bytes} (h : LF ∉ line) (rest : Bytes) :
    getline (line ++ LF :: rest) = (line, rest) := by
  have hall := bne_of_notMem h
  simp only [getline, List.takeWhile_append_of_pos hall, List.dropWhile_append_of_pos hall]
  simp

/-- Without a line feed the whole buffer is extracted. -/
theorem getline_of_notMem {buf : Bytes} (h : LF ∉ buf) : getline buf = (buf, []) := by
  have hall := bne_of_notMem h
  simp only [getline, List.takeWhile_eq_self_iff.mpr hall, List.dropWhile_eq_nil_iff.mpr hall,
    List.drop_nil]

/-! ### `std::stoi` -/

/-- `isspace` in the C locale. -/
def isSpace (b : Byte) : Bool :=
  b == SP || (0x09 ≤ b && b ≤ 0x0D)

/-- `isdigit` in the C locale. -/
def isDigit (b : Byte) : Bool :=
  0x30 ≤ b && b ≤ 0x39

/-- A letter or a digit. -/
def isAlnum (b : Byte) : Bool :=
  isDigit b || (0x41 ≤ b && b ≤ 0x5A) || (0x61 ≤ b && b ≤ 0x7A)

/-- The digits at the front of a text. -/
def leadingDigits (s : Bytes) : Bytes :=
  s.takeWhile isDigit

/-- The number written by a run of decimal digits. -/
def decimal (ds : Bytes) : ℕ :=
  ds.foldl (fun n d => 10 * n + (d.toNat - 0x30)) 0

/-- The sign that `strtol` accepts before the digits, and the rest. -/
def takeSign : Bytes → Bool × Bytes
  | 0x2D :: s => (true, s)
  | 0x2B :: s => (false, s)
  | s => (false, s)

/-- **`std::stoi`** with base ten: leading white space, an optional sign, and the longest
run of digits; what follows the digits is ignored. `int` has 32 bits. -/
def stoi (s : Bytes) : Except Fault ℤ :=
  let (negative, s) := takeSign (s.dropWhile isSpace)
  let digits := leadingDigits s
  if digits = [] then
    .error .invalidArgument
  else
    let n : ℤ := if negative then -decimal digits else decimal digits
    if -2 ^ 31 ≤ n ∧ n < 2 ^ 31 then .ok n else .error .outOfRange

/-- The three ways in which `stoi` ends: with a number, or with one of its two exceptions. -/
theorem stoi_eq_or (s : Bytes) :
    (∃ n, stoi s = .ok n) ∨ stoi s = .error .invalidArgument ∨ stoi s = .error .outOfRange := by
  rw [stoi]
  obtain ⟨negative, s⟩ := takeSign (s.dropWhile isSpace)
  by_cases hdigits : leadingDigits s = []
  · simp [hdigits]
  · simp only [if_neg hdigits]
    generalize (if negative then -(decimal (leadingDigits s) : ℤ) else _) = n
    by_cases hrange : -2 ^ 31 ≤ n ∧ n < 2 ^ 31
    · exact Or.inl ⟨n, if_pos hrange⟩
    · exact Or.inr (Or.inr (if_neg hrange))

/-- Neither white space nor a sign stands before a letter or a digit. -/
theorem takeSign_of_isAlnum {a : Byte} (ha : isAlnum a = true) (c : Bytes) :
    takeSign ((a :: c).dropWhile isSpace) = (false, a :: c) := by
  have hspace : isSpace a = false := by
    cases hs : isSpace a with
    | false => rfl
    | true =>
        exfalso
        simp only [isSpace, isAlnum, isDigit, Bool.or_eq_true, Bool.and_eq_true, beq_iff_eq,
          decide_eq_true_eq, UInt8.le_iff_toNat_le] at hs ha
        rcases hs with rfl | hs
        · revert ha; decide
        · simp only [UInt8.reduceToNat] at hs ha
          omega
  rw [List.dropWhile_cons_of_neg (by simp [hspace])]
  have hminus : a ≠ 0x2D := by rintro rfl; revert ha; decide
  have hplus : a ≠ 0x2B := by rintro rfl; revert ha; decide
  rw [takeSign]
  · rintro s heq
    exact hminus (List.cons.inj heq).1
  · rintro s heq
    exact hplus (List.cons.inj heq).1

/-- A text that starts with a digit is read as the number its leading digits write. -/
theorem stoi_of_isDigit {a : Byte} (ha : isDigit a = true) (c : Bytes) :
    stoi (a :: c) =
      if decimal (leadingDigits (a :: c)) < 2 ^ 31 then
        .ok (decimal (leadingDigits (a :: c)))
      else
        .error .outOfRange := by
  have hne : leadingDigits (a :: c) ≠ [] := by simp [leadingDigits, ha]
  have halnum : isAlnum a = true := by simp [isAlnum, ha]
  rw [stoi, takeSign_of_isAlnum halnum]
  simp only [Bool.false_eq_true, if_false, if_neg hne]
  by_cases h : decimal (leadingDigits (a :: c)) < 2 ^ 31
  · rw [if_pos h, if_pos (by omega)]
  · rw [if_neg h, if_neg (by omega)]

/-- A text that starts with a letter is no number. -/
theorem stoi_of_letter {a : Byte} (ha : isAlnum a = true) (hd : isDigit a = false) (c : Bytes) :
    stoi (a :: c) = .error .invalidArgument := by
  have hnil : leadingDigits (a :: c) = [] := by simp [leadingDigits, hd]
  rw [stoi, takeSign_of_isAlnum ha]
  simp only [hnil, if_true]

/-- Exactly three decimal digits. -/
def IsNumeric (s : Bytes) : Prop :=
  s.length = 3 ∧ ∀ a ∈ s, isDigit a = true

/-- Three digits write a number below a thousand. -/
theorem IsNumeric.decimal_lt {s : Bytes} (h : IsNumeric s) : decimal s < 1000 := by
  obtain ⟨hlen, hdigit⟩ := h
  match s, hlen with
  | [a, b, c], _ =>
      have hle : ∀ x ∈ [a, b, c], x.toNat - 0x30 ≤ 9 := by
        intro x hx
        have hx := hdigit x hx
        simp only [isDigit, Bool.and_eq_true, decide_eq_true_eq, UInt8.le_iff_toNat_le,
          UInt8.reduceToNat] at hx
        omega
      have h1 := hle a (by simp)
      have h2 := hle b (by simp)
      have h3 := hle c (by simp)
      simp only [decimal, List.foldl_cons, List.foldl_nil]
      omega

/-- A text of three digits is all digits, so that `stoi` reads the whole of it. -/
theorem IsNumeric.leadingDigits_eq {s : Bytes} (h : IsNumeric s) : leadingDigits s = s :=
  List.takeWhile_eq_self_iff.mpr h.2

end BoostIrc
