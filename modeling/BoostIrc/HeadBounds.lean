import BoostIrc.Handshake
import BoostIrc.HttpServer

/-!
# How far the Parsers of a Head Read

`parse_handshake` and `parse_request` get their stream when `async_read_until` has found a blank
line in it, and nothing else is known of the bytes. Their loop over the header lines looks at the
last line only and not at the stream, so it is the blank line that has to stop it.

Up to the line feed before the blank line, the text is a list of lines (`textLines`). Each
`getline` takes one of them, and the first one behind them takes the blank line, which has no
colon.

## Main results

* `readFields_textLines`: the loop over the header lines ends at the blank line or before it.
* `IStream.good_of_getline`: a stream that is still good has failed nowhere.
* `parse_within_head`: **the parsers of both servers end within the head**, whatever is sent.
-/

open Delimiter

namespace BoostIrc

/-! ### What the operations need -/

/-- A stream is good after a `getline` only if it was good before, and held a line. -/
theorem IStream.good_of_getline {s : IStream} {line : Bytes} (heof : (s.getline line).2.eof = false)
    (hfail : (s.getline line).2.fail = false) :
    s.eof = false ∧ s.fail = false ∧ LF ∈ s.buffer := by
  rw [IStream.getline] at heof hfail
  -- every other way through sets one of the bits
  split_ifs at heof hfail with hbad hlf
  obtain ⟨hgood, hok⟩ := Bool.or_eq_false_iff.mp (Bool.eq_false_iff.mpr hbad)
  exact ⟨hgood, hok, hlf⟩

/-- `substr` throws nothing if it starts within the string. -/
theorem exists_substr_eq {s : Bytes} {pos : ℕ} (h : pos ≤ s.length) (count : ℤ) :
    ∃ t, substr s pos count = .ok t :=
  ⟨_, if_pos h⟩

/-- What is found lies behind the start, and in the string. -/
theorem bounds_of_find {s : Bytes} {c : Byte} {pos i : ℕ} (h : find s c pos = some i) :
    pos ≤ i ∧ i < s.length := by
  obtain ⟨j, hj, rfl⟩ := Option.map_eq_some_iff.mp h
  obtain ⟨hlt, -⟩ := List.findIdx?_eq_some_iff_getElem.mp hj
  rw [List.length_drop] at hlt
  omega

/-- The field behind a colon is cut out without an exception. -/
theorem exists_parseField_eq {line : Bytes} {paramEnd : ℕ}
    (h : find line COLON 0 = some paramEnd) : ∃ field, parseField line paramEnd = .ok field := by
  obtain ⟨-, hlt⟩ := bounds_of_find h
  rw [parseField]
  dsimp only
  by_cases hvalue : paramEnd + 1 < line.length
  · rw [if_pos hvalue]
    generalize (if (line)[paramEnd + 1]? = some SP then paramEnd + 1 + 1 else paramEnd + 1) =
      valueStart
    by_cases hrest : valueStart < line.length
    · obtain ⟨name, hname⟩ := exists_substr_eq (Nat.zero_le line.length) (paramEnd : ℤ)
      obtain ⟨value, hsub⟩ :=
        exists_substr_eq hrest.le ((line.length : ℤ) - valueStart - 1)
      rw [if_pos hrest, hname, hsub]
      exact ⟨some (name, value), rfl⟩
    · rw [if_neg hrest]
      exact ⟨none, rfl⟩
  · rw [if_neg hvalue]
    exact ⟨none, rfl⟩

/-! ### The lines before the blank one -/

/-- Lines, each with a line feed. Carriage returns belong to the lines. -/
def textLines (lines : List Bytes) : Bytes :=
  lines.flatMap (· ++ [LF])

/-- The text of some lines is the first one, a line feed, and the text of the others. -/
theorem textLines_cons (l : Bytes) (lines : List Bytes) (rest : Bytes) :
    textLines (l :: lines) ++ rest = l ++ LF :: (textLines lines ++ rest) := by
  simp [textLines]

/-- There are at least as many bytes as lines. -/
theorem length_le_length_textLines (lines : List Bytes) :
    lines.length ≤ (textLines lines).length := by
  induction lines with
  | nil => simp
  | cons l lines ih =>
      rw [textLines, List.flatMap_cons, ← textLines, List.length_append, List.length_append,
        List.length_cons, List.length_singleton]
      omega

/-- A text that ends in a line feed is a first line, and maybe others. -/
theorem exists_textLines_eq (s : Bytes) :
    ∃ l lines, s ++ [LF] = textLines (l :: lines) ∧ ∀ m ∈ l :: lines, LF ∉ m := by
  induction s with
  | nil => exact ⟨[], [], rfl, by simp⟩
  | cons b s ih =>
      obtain ⟨l, lines, hs, hlf⟩ := ih
      have hlines := List.forall_mem_cons.mp hlf
      by_cases hb : b = LF
      · refine ⟨[], l :: lines, ?_, List.forall_mem_cons.mpr ⟨by simp, hlf⟩⟩
        rw [List.cons_append, hs, hb]
        simp [textLines]
      · refine ⟨b :: l, lines, ?_, List.forall_mem_cons.mpr ⟨?_, hlines.2⟩⟩
        · rw [List.cons_append, hs]
          simp [textLines]
        · simpa [Ne.symm hb] using hlines.1

/-- The loop over the header lines: each turn takes one of the lines, and the blank line ends it.
What it leaves of the stream still has everything behind the blank line. -/
theorem parseFields_textLines {H : Type*} (insert : H → Bytes → Bytes → H) {lines : List Bytes}
    (h : ∀ m ∈ lines, LF ∉ m) (rest before : Bytes) {fuel : ℕ} (hfuel : lines.length < fuel)
    (header : H) :
    let r := IStream.getline ⟨textLines lines ++ crlf ++ rest, false, false⟩ before
    ∃ header' left,
      parseFields insert fuel r.2 r.1 header = some (.ok (header', ⟨left, false, false⟩)) ∧
        left <:+ textLines lines ++ crlf ++ rest ∧ rest <:+ left := by
  induction lines generalizing fuel header before with
  | nil =>
      obtain ⟨k, rfl⟩ : ∃ k, fuel = k + 1 := ⟨fuel - 1, by omega⟩
      have hline : IStream.getline ⟨textLines [] ++ crlf ++ rest, false, false⟩ before =
          ([CR], ⟨rest, false, false⟩) :=
        IStream.getline_append_lf (show LF ∉ [CR] by decide) rest before
      rw [hline]
      exact ⟨header, rest, rfl, List.suffix_append crlf rest, List.suffix_rfl⟩
  | cons l lines ih =>
      obtain ⟨k, rfl⟩ : ∃ k, fuel = k + 1 := ⟨fuel - 1, by omega⟩
      obtain ⟨hl, hlines⟩ := List.forall_mem_cons.mp h
      rw [List.append_assoc, textLines_cons, ← List.append_assoc, IStream.getline_append_lf hl]
      have hafter : textLines lines ++ crlf ++ rest <:+
          l ++ LF :: (textLines lines ++ crlf ++ rest) :=
        ⟨l ++ [LF], by simp⟩
      cases hcolon : find l COLON 0 with
      | none =>
          refine ⟨header, textLines lines ++ crlf ++ rest, ?_, hafter, List.suffix_append _ rest⟩
          rw [parseFields, hcolon]
      | some paramEnd =>
          obtain ⟨field, hfield⟩ := exists_parseField_eq hcolon
          obtain ⟨header', left, hloop, hleft, hrest⟩ :=
            ih hlines l (Nat.lt_of_succ_lt_succ hfuel)
              (field.elim header fun x => insert header x.1 x.2)
          refine ⟨header', left, ?_, hleft.trans hafter, hrest⟩
          rw [parseFields, hcolon]
          dsimp only
          rw [hfield]
          exact hloop

/-- **The loop over the header lines ends**, with fuel to spare, at the blank line or before it. The
lines may be any text without a line feed: one without a colon ends the loop early, and the stream
stays within the head all the same. -/
theorem readFields_textLines {H : Type*} (insert : H → Bytes → Bytes → H) {lines : List Bytes}
    (h : ∀ m ∈ lines, LF ∉ m) (rest before : Bytes) (header : H) :
    ∃ header' left,
      readFields insert ⟨textLines lines ++ crlf ++ rest, false, false⟩ before header =
          some (.ok (header', ⟨left, false, false⟩)) ∧
        left <:+ textLines lines ++ crlf ++ rest ∧ rest <:+ left := by
  refine parseFields_textLines insert h rest before ?_ header
  have hlen := length_le_length_textLines lines
  simp only [List.length_append]
  omega

/-! ### The first line -/

/-- The first line of an upgrade request is cut at its two spaces without an exception. -/
theorem SocketServerBase.exists_parseUpgradeLine_eq {line : Bytes} {methodEnd pathEnd : ℕ}
    (hmethod : find line SP 0 = some methodEnd)
    (hpath : find line SP (methodEnd + 1) = some pathEnd) :
    ∃ c, parseUpgradeLine line methodEnd pathEnd = .ok c := by
  have hm := bounds_of_find hmethod
  have hp := bounds_of_find hpath
  obtain ⟨method, hsub⟩ := exists_substr_eq (Nat.zero_le line.length) (methodEnd : ℤ)
  obtain ⟨path, hsub'⟩ := exists_substr_eq (show methodEnd + 1 ≤ line.length by omega)
    ((pathEnd : ℤ) - methodEnd - 1)
  obtain ⟨httpVersion, hversion⟩ : ∃ v, upgradeVersion line pathEnd = .ok v := by
    rw [upgradeVersion]
    split_ifs with hlen
    · exact exists_substr_eq hlen.le _
    · exact ⟨ascii "1.1", rfl⟩
  rw [parseUpgradeLine, hsub, hsub', hversion]
  exact ⟨{ method, path, httpVersion }, rfl⟩

/-- The first line of a request is cut at its two spaces and its slash, if it has one, without an
exception. -/
theorem HttpRequest.exists_parseRequestLine_eq {line : Bytes} {methodEnd pathEnd : ℕ}
    (hmethod : find line SP 0 = some methodEnd)
    (hpath : find line SP (methodEnd + 1) = some pathEnd) :
    ∃ r, parseRequestLine line methodEnd pathEnd = .ok r := by
  have hm := bounds_of_find hmethod
  have hp := bounds_of_find hpath
  obtain ⟨method, hsub⟩ := exists_substr_eq (Nat.zero_le line.length) (methodEnd : ℤ)
  obtain ⟨path, hsub'⟩ := exists_substr_eq (show methodEnd + 1 ≤ line.length by omega)
    ((pathEnd : ℤ) - methodEnd - 1)
  rw [parseRequestLine, hsub, hsub']
  dsimp only [bind, Except.bind]
  cases hprotocol : find line 0x2F (pathEnd + 1) with
  | none => exact ⟨(false, { method, path }), rfl⟩
  | some protocolEnd =>
      have hs := bounds_of_find hprotocol
      obtain ⟨protocol, hname⟩ := exists_substr_eq (show pathEnd + 1 ≤ line.length by omega)
        ((protocolEnd : ℤ) - pathEnd - 1)
      obtain ⟨httpVersion, hversion⟩ := exists_substr_eq
        (show protocolEnd + 1 ≤ line.length by omega) ((line.length : ℤ) - protocolEnd - 2)
      dsimp only
      rw [hname, hversion]
      by_cases hhttp : protocol ≠ ascii "HTTP"
      · exact ⟨(false, { method, path }), if_pos hhttp⟩
      · exact ⟨(true, { method, path, httpVersion }), if_neg hhttp⟩

/-! ### The whole head -/

/-- A buffer with a blank line: a first line, others, and what is behind the blank line. -/
theorem exists_eq_of_firstEnd {b : Bytes} {n : ℕ} (h : firstEnd (crlf ++ crlf) b = some n) :
    ∃ l lines, b = l ++ LF :: (textLines lines ++ crlf ++ b.drop n) ∧
      ∀ m ∈ l :: lines, LF ∉ m := by
  obtain ⟨a, w, rfl, rfl⟩ := eq_append_of_firstEnd h
  obtain ⟨l, lines, hs, hlf⟩ := exists_textLines_eq (a ++ [CR])
  refine ⟨l, lines, ?_, hlf⟩
  have hlines : a ++ crlf = textLines (l :: lines) := by
    rw [← hs]
    simp [crlf]
  rw [List.drop_left, ← List.append_assoc, hlines, List.append_assoc, textLines_cons,
    List.append_assoc]

/-- What still has everything behind the first `n` bytes lacks at most those. -/
theorem exists_eq_drop_of_suffix {b left : Bytes} {n : ℕ} (hleft : left <:+ b)
    (hn : b.drop n <:+ left) : ∃ k ≤ n, left = b.drop k := by
  by_cases hlen : n ≤ b.length
  · refine ⟨b.length - left.length, ?_, List.suffix_iff_eq_drop.mp hleft⟩
    have := hn.length_le
    rw [List.length_drop] at this
    omega
  · refine ⟨b.length - left.length, by omega, List.suffix_iff_eq_drop.mp hleft⟩

/-- The parser of an upgrade request ends, and leaves at least what is behind the blank line. -/
theorem SocketServerBase.exists_parseHandshake_eq {l : Bytes} {lines : List Bytes}
    (h : ∀ m ∈ l :: lines, LF ∉ m) (rest : Bytes) :
    ∃ c left,
      parseHandshake ⟨l ++ LF :: (textLines lines ++ crlf ++ rest), false, false⟩ =
          some (.ok (c, ⟨left, false, false⟩)) ∧
        left <:+ textLines lines ++ crlf ++ rest ∧ rest <:+ left := by
  obtain ⟨hl, hlines⟩ := List.forall_mem_cons.mp h
  have hrest : rest <:+ textLines lines ++ crlf ++ rest := List.suffix_append _ rest
  rw [parseHandshake, IStream.getline_append_lf hl]
  dsimp only
  cases hmethod : find l SP 0 with
  | none => exact ⟨{}, _, rfl, List.suffix_rfl, hrest⟩
  | some methodEnd =>
      dsimp only
      cases hpath : find l SP (methodEnd + 1) with
      | none => exact ⟨{}, _, rfl, List.suffix_rfl, hrest⟩
      | some pathEnd =>
          obtain ⟨c, hc⟩ := exists_parseUpgradeLine_eq hmethod hpath
          obtain ⟨header, left, hloop, hleft⟩ :=
            readFields_textLines insertNew hlines rest l c.header
          refine ⟨{ c with header }, left, ?_, hleft⟩
          dsimp only
          rw [hc]
          dsimp only
          rw [hloop]
          rfl

/-- The parser of a request ends, whatever it returns, and leaves at least what is behind the
blank line: it returns false behind the first line, and true behind the header lines. -/
theorem HttpRequest.exists_parseRequest_eq {l : Bytes} {lines : List Bytes}
    (h : ∀ m ∈ l :: lines, LF ∉ m) (rest : Bytes) :
    ∃ r left,
      parseRequest ⟨l ++ LF :: (textLines lines ++ crlf ++ rest), false, false⟩ = some (.ok r) ∧
        r.2.content = ⟨left, false, false⟩ ∧
          left <:+ textLines lines ++ crlf ++ rest ∧ rest <:+ left := by
  obtain ⟨hl, hlines⟩ := List.forall_mem_cons.mp h
  have hrest : rest <:+ textLines lines ++ crlf ++ rest := List.suffix_append _ rest
  rw [parseRequest, IStream.getline_append_lf hl]
  dsimp only
  cases hmethod : find l SP 0 with
  | none => exact ⟨(false, _), _, rfl, rfl, List.suffix_rfl, hrest⟩
  | some methodEnd =>
      dsimp only
      cases hpath : find l SP (methodEnd + 1) with
      | none => exact ⟨(false, _), _, rfl, rfl, List.suffix_rfl, hrest⟩
      | some pathEnd =>
          obtain ⟨⟨accepted, request⟩, hr⟩ := exists_parseRequestLine_eq hmethod hpath
          dsimp only
          rw [hr]
          cases accepted with
          | false => exact ⟨(false, _), _, rfl, rfl, List.suffix_rfl, hrest⟩
          | true =>
              obtain ⟨header, left, hloop, hleft⟩ := readFields_textLines
                (fun h name value => h ++ [(name, value)]) hlines rest l request.header
              refine ⟨(true, { request with header, content := ⟨left, false, false⟩ }), left, ?_,
                rfl, hleft⟩
              dsimp only
              rw [hloop]
              rfl

/-- **The parsers of a head stay within it**: they end, no `substr` throws, and what they leave is
a good stream without some of the bytes up to the end of the first blank line, whether the request
is accepted or not. A stream that is good at the end has been good at every `getline`, and each of
them has found its line. -/
theorem parse_within_head {b : Bytes} (h : crlf ++ crlf <:+: b) :
    ∃ n, firstEnd (crlf ++ crlf) b = some n ∧
      (∃ c, ∃ k ≤ n,
        SocketServerBase.parseHandshake ⟨b, false, false⟩ =
          some (.ok (c, ⟨b.drop k, false, false⟩))) ∧
      ∃ r, ∃ k ≤ n,
        HttpRequest.parseRequest ⟨b, false, false⟩ = some (.ok r) ∧
          r.2.content = ⟨b.drop k, false, false⟩ := by
  obtain ⟨n, hn⟩ := Option.isSome_iff_exists.mp (isSome_firstEnd_iff.mpr h)
  obtain ⟨l, lines, hb, hlf⟩ := exists_eq_of_firstEnd hn
  have hbehind : textLines lines ++ crlf ++ b.drop n <:+ b := by
    refine ⟨l ++ [LF], ?_⟩
    rw [List.append_assoc, List.singleton_append, ← hb]
  refine ⟨n, hn, ?_, ?_⟩
  · obtain ⟨c, left, hparse, hleft, hrest⟩ :=
      SocketServerBase.exists_parseHandshake_eq hlf (b.drop n)
    obtain ⟨k, hk, rfl⟩ := exists_eq_drop_of_suffix (hleft.trans hbehind) hrest
    rw [← hb] at hparse
    exact ⟨c, k, hk, hparse⟩
  · obtain ⟨r, left, hparse, hstream, hleft, hrest⟩ :=
      HttpRequest.exists_parseRequest_eq hlf (b.drop n)
    obtain ⟨k, hk, rfl⟩ := exists_eq_drop_of_suffix (hleft.trans hbehind) hrest
    rw [← hb] at hparse
    exact ⟨r, k, hk, hparse, hstream⟩

/-- A head whose only header line has no colon: neither parser reads all of it. -/
theorem parse_within_head_sample :
    crlf ++ crlf <:+: ascii "GET / HTTP/1.1\r\nnothing\r\n\r\nmore" ∧
      (∃ c, ∃ k ≤ 27,
        SocketServerBase.parseHandshake
            ⟨ascii "GET / HTTP/1.1\r\nnothing\r\n\r\nmore", false, false⟩ =
          some (.ok (c,
            ⟨(ascii "GET / HTTP/1.1\r\nnothing\r\n\r\nmore").drop k, false, false⟩))) ∧
      ∃ r, ∃ k ≤ 27,
        HttpRequest.parseRequest
            ⟨ascii "GET / HTTP/1.1\r\nnothing\r\n\r\nmore", false, false⟩ = some (.ok r) ∧
          r.2.content =
            ⟨(ascii "GET / HTTP/1.1\r\nnothing\r\n\r\nmore").drop k, false, false⟩ := by
  have h : crlf ++ crlf <:+: ascii "GET / HTTP/1.1\r\nnothing\r\n\r\nmore" := by decide
  obtain ⟨n, hn, hhandshake, hrequest⟩ := parse_within_head h
  obtain rfl : 27 = n := Option.some.inj hn
  exact ⟨h, hhandshake, hrequest⟩

end BoostIrc
