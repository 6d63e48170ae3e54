import BoostIrc.Bytes
import BoostIrc.Delimiter

/-!
# Input Streams and Strings of the Standard Library

The servers parse the head of a request with a `std::istream` over the buffer of the connection
and with the searching and cutting operations of `std::string`. What these do in the corner cases
matters to the callers: `std::getline` leaves the string alone once the stream has met its end,
and `substr` throws when it is asked to start behind the end of the string.

The `getline` of `BoostIrc.Bytes` is the case of a stream on which nothing has failed yet.

What is parsed are lines (`renderLines`) up to a blank one, which `async_read_until` has looked for
before.

## Main results

* `IStream.getline_append_lf`, `find_eq_some`, `substr_append`, `stoull_of_digits`: the operations
  on texts of a known shape.
* `firstEnd_renderLines`: **where `async_read_until` finds the blank line**.
-/

open Delimiter

namespace BoostIrc

/-- A `std::istream`: what its buffer still holds, and the bits `eofbit` and `failbit`. -/
structure IStream where
  buffer : Bytes
  eof : Bool := false
  fail : Bool := false
  deriving DecidableEq, Repr

/-- `std::getline(stream, line)`, with the string that `line` held before. On a stream that is not
good it fails and the string stays as it is. -/
def IStream.getline (s : IStream) (line : Bytes) : Bytes × IStream :=
  if s.eof || s.fail then
    (line, { s with fail := true })
  else if LF ∈ s.buffer then
    ((BoostIrc.getline s.buffer).1, { s with buffer := (BoostIrc.getline s.buffer).2 })
  else
    (s.buffer, { buffer := [], eof := true, fail := s.buffer.isEmpty })

/-- A line that ends in a line feed is extracted. -/
theorem IStream.getline_append_lf {line : Bytes} (h : LF ∉ line) (rest before : Bytes) :
    IStream.getline ⟨line ++ LF :: rest, false, false⟩ before = (line, ⟨rest, false, false⟩) := by
  simp [IStream.getline, BoostIrc.getline_append_lf h]

/-- `stream >> word`, with the string that `word` held before. -/
def IStream.extractWord (s : IStream) (word : Bytes) : Bytes × IStream :=
  let text := s.buffer.dropWhile isSpace
  if s.eof || s.fail then
    (word, { s with fail := true })
  else if text = [] then
    (word, { buffer := [], eof := true, fail := true })
  else
    let rest := text.dropWhile fun b => !isSpace b
    (text.takeWhile fun b => !isSpace b, { buffer := rest, eof := rest.isEmpty })

/-- `stream >> n` for an `unsigned int`, which has 32 bits, and none where `n` is left as it was. A
number out of range is read as the greatest one, and a negative one wraps around. -/
def IStream.extractUnsigned (s : IStream) : Option ℕ × IStream :=
  let text := s.buffer.dropWhile isSpace
  if s.eof || s.fail then
    (none, { s with fail := true })
  else if text = [] then
    (none, { buffer := [], eof := true, fail := true })
  else
    let (negative, text) := takeSign text
    let n := decimal (leadingDigits text)
    let rest := text.dropWhile isDigit
    if leadingDigits text = [] then
      (some 0, { buffer := rest, eof := rest.isEmpty, fail := true })
    else if 2 ^ 32 ≤ n then
      (some (2 ^ 32 - 1), { buffer := rest, eof := rest.isEmpty, fail := true })
    else
      (some (if negative then (2 ^ 32 - n) % 2 ^ 32 else n),
        { buffer := rest, eof := rest.isEmpty })

/-- `stream.read(buffer, n)`: the bytes that are extracted, as many as `gcount` says. A stream with
less than `n` bytes is read to its end, and is not good any more. -/
def IStream.read (s : IStream) (n : ℕ) : Bytes × IStream :=
  if s.eof || s.fail then
    ([], { s with fail := true })
  else if s.buffer.length < n then
    (s.buffer, { buffer := [], eof := true, fail := true })
  else
    (s.buffer.take n, { s with buffer := s.buffer.drop n })

/-- A word is extracted up to the white space behind it. -/
theorem IStream.extractWord_append {w : Bytes} {b : Byte} (hw : w ≠ [])
    (hspace : ∀ a ∈ w, ¬ isSpace a) (hb : isSpace b) (rest before : Bytes) :
    IStream.extractWord ⟨w ++ b :: rest, false, false⟩ before = (w, ⟨b :: rest, false, false⟩) := by
  obtain ⟨a, w, rfl⟩ := List.exists_cons_of_ne_nil hw
  have hfirst : ¬ isSpace a := hspace a List.mem_cons_self
  have htext : ((a :: w) ++ b :: rest).dropWhile isSpace = (a :: w) ++ b :: rest :=
    List.dropWhile_cons_of_neg hfirst
  have hword : ∀ x ∈ a :: w, (!isSpace x) = true := by
    intro x hx
    simpa using hspace x hx
  rw [IStream.extractWord]
  simp only [htext, List.takeWhile_append_of_pos hword, List.dropWhile_append_of_pos hword]
  simp [hb]

/-- `s.find(c, pos)`. -/
def find (s : Bytes) (c : Byte) (pos : ℕ) : Option ℕ :=
  ((s.drop pos).findIdx? (· == c)).map (pos + ·)

/-- What is found is the first occurrence. -/
theorem find_eq_some {s u v : Bytes} {c : Byte} {pos : ℕ} (h : s.drop pos = u ++ c :: v)
    (hu : c ∉ u) : find s c pos = some (pos + u.length) := by
  have hidx : u.findIdx? (· == c) = none := by
    rw [List.findIdx?_eq_none_iff]
    intro x hx
    simp only [beq_eq_false_iff_ne, ne_eq]
    rintro rfl
    exact hu hx
  rw [find, h, List.findIdx?_append, hidx]
  simp [List.findIdx?_cons]

/-- `s.substr(pos, count)`. The count is unsigned: one that is negative before the conversion
means all the rest. -/
def substr (s : Bytes) (pos : ℕ) (count : ℤ) : Except Fault Bytes :=
  if pos ≤ s.length then
    .ok (if count < 0 then s.drop pos else (s.drop pos).take count.toNat)
  else
    .error .outOfRange

/-- A part of a string is cut out of it by the place where it starts and its length. -/
theorem substr_append {s u v w : Bytes} {pos : ℕ} {count : ℤ} (h : s = u ++ v ++ w)
    (hpos : pos = u.length) (hcount : count = v.length) : substr s pos count = .ok v := by
  subst h hpos hcount
  rw [substr, if_pos (by simp), if_neg (by omega), List.append_assoc, List.drop_left,
    Int.toNat_natCast, List.take_left]

/-- `std::tolower` in the C locale. -/
def toLower (b : Byte) : Byte :=
  if 0x41 ≤ b ∧ b ≤ 0x5A then b + 0x20 else b

/-- `boost::iequals` in the C locale. -/
def iequals (s t : Bytes) : Bool :=
  s.map toLower == t.map toLower

/-! ### Numbers -/

/-- `std::stoull` with base ten: a negative number wraps around. `unsigned long long` has 64
bits. -/
def stoull (s : Bytes) : Except Fault ℕ :=
  let (negative, s) := takeSign (s.dropWhile isSpace)
  let digits := leadingDigits s
  if digits = [] then
    .error .invalidArgument
  else if 2 ^ 64 ≤ decimal digits then
    .error .outOfRange
  else
    .ok (if negative then (2 ^ 64 - decimal digits) % 2 ^ 64 else decimal digits)

/-- A text of digits is read as the number that it writes. -/
theorem stoull_of_digits {s : Bytes} (hne : s ≠ []) (h : ∀ b ∈ s, isDigit b) :
    stoull s = if decimal s < 2 ^ 64 then .ok (decimal s) else .error .outOfRange := by
  obtain ⟨a, t, rfl⟩ := List.exists_cons_of_ne_nil hne
  have halnum : isAlnum a = true := by simp [isAlnum, h a List.mem_cons_self]
  have hdigits : leadingDigits (a :: t) = a :: t := List.takeWhile_eq_self_iff.mpr h
  rw [stoull, takeSign_of_isAlnum halnum]
  simp only [hdigits, Bool.false_eq_true, if_false, if_neg hne]
  by_cases hlt : decimal (a :: t) < 2 ^ 64
  · rw [if_pos hlt, if_neg (not_le.mpr hlt)]
  · rw [if_neg hlt, if_pos (not_lt.mp hlt)]

/-- `isxdigit`. -/
def isHexDigit (b : Byte) : Bool :=
  isDigit b || (0x61 ≤ toLower b && toLower b ≤ 0x66)

/-- The number written by a run of hexadecimal digits. -/
def hexadecimal (ds : Bytes) : ℕ :=
  ds.foldl (fun n d => 16 * n + ((toLower d).toNat - if isDigit d then 0x30 else 0x57)) 0

/-- Digits, with at most one point before, among or behind them: the digits, how many of them are
behind the point, and the rest. -/
def takeMantissa (isDigit : Byte → Bool) (s : Bytes) : Bytes × ℕ × Bytes :=
  let whole := s.takeWhile isDigit
  match s.dropWhile isDigit with
  | 0x2E :: rest =>
      let fraction := rest.takeWhile isDigit
      (whole ++ fraction, fraction.length, rest.dropWhile isDigit)
  | rest => (whole, 0, rest)

/-- The exponent that the letter `letter` introduces, zero if there is none. -/
def takeExponent (letter : Byte) : Bytes → ℤ
  | b :: s =>
      if toLower b = letter then
        let (negative, s) := takeSign s
        if negative then -decimal (leadingDigits s) else decimal (leadingDigits s)
      else
        0
  | [] => 0

/-- `n * base ^ exponent` is rounded to a `float` above `1.05`: it is greater than
`17616077 / 2 ^ 24`, in the middle between two `float`s, and not too great for a `float`. -/
def roundsAbove (n base : ℕ) (exponent : ℤ) : Bool :=
  17616077 * base ^ (-exponent).toNat < n * base ^ exponent.toNat * 2 ^ 24 &&
    n * base ^ exponent.toNat < (2 ^ 128 - 2 ^ 103) * base ^ (-exponent).toNat

/-- `std::stof(s) > 1.05`. A text for which `stof` throws does not count. -/
def stofExceeds (s : Bytes) : Bool :=
  let (negative, s) := takeSign (s.dropWhile isSpace)
  if negative then
    false
  else if (s.take 3).map toLower = ascii "inf" then
    true
  else if (s.take 2).map toLower = ascii "0x" ∧ (takeMantissa isHexDigit (s.drop 2)).1 ≠ [] then
    let (digits, scale, rest) := takeMantissa isHexDigit (s.drop 2)
    roundsAbove (hexadecimal digits) 2 (takeExponent 0x70 rest - 4 * scale)
  else
    let (digits, scale, rest) := takeMantissa isDigit s
    roundsAbove (decimal digits) 10 (takeExponent 0x65 rest - scale)

example : stofExceeds (ascii "1.1") = true ∧ stofExceeds (ascii "1.0") = false := by decide

/-! ### Lines up to a blank one -/

/-- Lines, each with its terminator. -/
def renderLines (lines : List Bytes) : Bytes :=
  lines.flatMap (· ++ crlf)

/-- A line of a head: it is not blank, and no line feed stands in it. -/
def IsLine (l : Bytes) : Prop :=
  l ≠ [] ∧ LF ∉ l

/-- The first terminator ends the first line. -/
theorem firstEnd_crlf {l : Bytes} (h : LF ∉ l) (rest : Bytes) :
    firstEnd crlf (l ++ crlf ++ rest) = some (l.length + 2) := by
  have hskip := firstEnd_append_of_notMem (a := CR) (d := []) h (show LF ≠ CR by decide)
    (LF :: rest)
  have hhere : firstEnd crlf (CR :: LF :: rest) = some 2 :=
    firstEnd_cons_of_isPrefix (List.prefix_append crlf rest)
  rw [List.append_assoc]
  exact hskip.trans (congrArg (Option.map (l.length + ·)) hhere)

/-- A line behind a terminator does not continue it to a blank line. -/
theorem firstEnd_crlf_append {l : Bytes} (h : IsLine l) (rest : Bytes) :
    firstEnd (crlf ++ crlf) (crlf ++ (l ++ crlf ++ rest)) =
      (firstEnd (crlf ++ crlf) (l ++ crlf ++ rest)).map (2 + ·) := by
  obtain ⟨hne, hlf⟩ := h
  obtain ⟨y, l, rfl⟩ := List.exists_cons_of_ne_nil hne
  have hfirst : ¬ crlf ++ crlf <+: CR :: LF :: (y :: l ++ crlf ++ rest) := by
    -- the line would begin with a carriage return, and its second byte would be the line feed
    have hline : ¬ [CR, LF] <+: y :: (l ++ crlf ++ rest) := by
      intro hp
      obtain ⟨-, hp⟩ := List.cons_prefix_cons.mp hp
      cases l with
      | nil => exact absurd (List.cons_prefix_cons.mp hp).1 (by decide)
      | cons z l => exact hlf (by simp [(List.cons_prefix_cons.mp hp).1])
    intro hp
    exact hline (List.cons_prefix_cons.mp (List.cons_prefix_cons.mp hp).2).2
  have hsecond : ¬ crlf ++ crlf <+: LF :: (y :: l ++ crlf ++ rest) := fun hp =>
    absurd (List.cons_prefix_cons.mp hp).1 (by decide)
  rw [show crlf ++ (y :: l ++ crlf ++ rest) = CR :: LF :: (y :: l ++ crlf ++ rest) from rfl,
    firstEnd_cons_of_not_isPrefix hfirst, firstEnd_cons_of_not_isPrefix hsecond, Option.map_map]
  congr 1
  funext k
  simp only [Function.comp_apply]
  omega

/-- **The first blank line** of a text is the one behind its lines. The position found is that of
the end of the delimiter, so what has been read up to there is the whole head. -/
theorem firstEnd_renderLines {lines : List Bytes} (hne : lines ≠ []) (h : ∀ l ∈ lines, IsLine l)
    (rest : Bytes) :
    firstEnd (crlf ++ crlf) (renderLines lines ++ crlf ++ rest) =
      some ((renderLines lines).length + 2) := by
  induction lines with
  | nil => exact absurd rfl hne
  | cons l lines ih =>
      have hl := h l List.mem_cons_self
      have hrender : renderLines (l :: lines) ++ crlf ++ rest =
          l ++ CR :: LF :: (renderLines lines ++ crlf ++ rest) := by
        simp [renderLines, crlf]
      have hlength : (renderLines (l :: lines)).length =
          l.length + 2 + (renderLines lines).length := by
        simp [renderLines, crlf]
        omega
      have hskip := firstEnd_append_of_notMem (a := CR) (d := crlf) hl.2
        (show LF ≠ CR by decide) (LF :: (renderLines lines ++ crlf ++ rest))
      rw [hrender, hlength]
      refine hskip.trans ?_
      cases lines with
      | nil =>
          have hp : crlf ++ crlf <+: crlf ++ (crlf ++ rest) :=
            List.prefix_append (crlf ++ crlf) rest
          have hblank : firstEnd (crlf ++ crlf) (crlf ++ (crlf ++ rest)) = some 4 :=
            firstEnd_cons_of_isPrefix hp
          exact (congrArg (Option.map (l.length + ·)) hblank).trans rfl
      | cons l' lines =>
          have hl' := h l' (by simp)
          have hrest := ih (by simp) fun m hm => h m (List.mem_cons_of_mem l hm)
          have hsplit : renderLines (l' :: lines) ++ crlf ++ rest =
              l' ++ crlf ++ (renderLines lines ++ crlf ++ rest) := by
            simp [renderLines]
          have hcrlf := firstEnd_crlf_append hl' (renderLines lines ++ crlf ++ rest)
          rw [← hsplit, hrest] at hcrlf
          refine (congrArg (Option.map (l.length + ·)) hcrlf).trans ?_
          simp only [Option.map_some, Option.some.injEq]
          omega

end BoostIrc
