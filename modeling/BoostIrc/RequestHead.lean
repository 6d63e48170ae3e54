import BoostIrc.Stream

/-!
# The Head of a Request

Both servers take a request apart in the same way: a first line with the method, the target and
the version, then header lines with a colon, until a line without one. This module has the loop
over the header lines (`parseFields`), for any kind of header that a field is put into, and the
requests as clients write them (`RequestHead`).

The stream that is parsed holds at least the head up to the blank line, as `async_read_until`
has found its end (`firstEnd`), and whatever has arrived behind it.

## Main results

* `readFields_render`: the loop reads the fields of a head that was written as it should be.
* `RequestHead.firstEnd_render`: **where `async_read_until` finds the end of a head**.
-/

open Delimiter

namespace BoostIrc

/-- The field in a header line whose first colon is at `paramEnd`, if there is one: one space
before the value is skipped, and the last byte of the line, its carriage return, is dropped. -/
def parseField (line : Bytes) (paramEnd : ℕ) : Except Fault (Option (Bytes × Bytes)) :=
  let valueStart := paramEnd + 1
  if valueStart < line.length then
    let valueStart := if (line)[valueStart]? = some SP then valueStart + 1 else valueStart
    if valueStart < line.length then do
      let name ← substr line 0 paramEnd
      let value ← substr line valueStart ((line.length : ℤ) - valueStart - 1)
      pure (some (name, value))
    else
      pure none
  else
    pure none

/-- The loop over the header lines, with fuel: as long as the line has a colon, its field is put
into the header and the next line is read. -/
def parseFields {H : Type*} (insert : H → Bytes → Bytes → H) :
    ℕ → IStream → Bytes → H → Option (Except Fault (H × IStream))
  | 0, _, _, _ => none
  | fuel + 1, stream, line, header =>
      match find line COLON 0 with
      | none => some (.ok (header, stream))
      | some paramEnd =>
          match parseField line paramEnd with
          | .error e => some (.error e)
          | .ok field =>
              let header := field.elim header fun x => insert header x.1 x.2
              let (line, stream) := stream.getline line
              parseFields insert fuel stream line header

/-- The header lines of a head: the first is read before the loop, and every further one takes at
least a byte from the buffer, unless that is empty. -/
def readFields {H : Type*} (insert : H → Bytes → Bytes → H) (stream : IStream) (line : Bytes)
    (header : H) : Option (Except Fault (H × IStream)) :=
  let (line', stream') := stream.getline line
  parseFields insert (stream.buffer.length + 2) stream' line' header

/-- A header field as a client writes it: the name, and what follows the colon in its line. -/
structure Field where
  name : Bytes
  after : Bytes
  name_legal : COLON ∉ name ∧ LF ∉ name
  after_legal : LF ∉ after

namespace Field

/-- The line of the field, without the terminator. -/
def line (f : Field) : Bytes :=
  f.name ++ COLON :: f.after

/-- The value: what follows the colon, without one leading space. -/
def value (f : Field) : Bytes :=
  if f.after.head? = some SP then f.after.tail else f.after

/-- The name, up to its case. -/
def lowerName (f : Field) : Bytes :=
  f.name.map toLower

/-- The fields, one in a line. -/
def render (fields : List Field) : Bytes :=
  renderLines (fields.map line)

/-- There is no line feed in the line of a field. -/
theorem lf_notMem_line (f : Field) : LF ∉ f.line := by
  rw [line, List.mem_append, List.mem_cons]
  rintro (h | h | h)
  · exact f.name_legal.2 h
  · exact absurd h (by decide)
  · exact f.after_legal h

/-- The first colon of the line ends the name. -/
theorem find_line (f : Field) : find (f.line ++ [CR]) COLON 0 = some f.name.length := by
  have h : (f.line ++ [CR]).drop 0 = f.name ++ COLON :: (f.after ++ [CR]) := by
    simp [line]
  rw [find_eq_some h f.name_legal.1, Nat.zero_add]

/-- The field is read back from its line: its name, and its value without one leading space. -/
theorem parseField_line (f : Field) :
    parseField (f.line ++ [CR]) f.name.length = .ok (some (f.name, f.value)) := by
  have hname : substr (f.line ++ [CR]) 0 f.name.length = .ok f.name :=
    substr_append (u := []) (w := COLON :: f.after ++ [CR]) (by simp [line]) rfl rfl
  have hlen : (f.line ++ [CR]).length = f.name.length + 1 + f.after.length + 1 := by
    simp [line]
    omega
  have hat : (f.line ++ [CR])[f.name.length + 1]? = (f.after ++ [CR])[0]? := by
    rw [line, List.append_assoc, List.getElem?_append_right (by omega)]
    simp
  have hhead : (f.line ++ [CR])[f.name.length + 1]? = some SP ↔ f.after.head? = some SP := by
    rw [hat]
    cases f.after with
    | nil => decide
    | cons a v => simp
  rw [parseField, if_pos (by omega), value]
  by_cases hsp : f.after.head? = some SP
  · obtain ⟨v, hv⟩ := List.head?_eq_some_iff.mp hsp
    have hvalue : substr (f.line ++ [CR]) (f.name.length + 1 + 1)
        (((f.line ++ [CR]).length : ℤ) - (f.name.length + 1 + 1 : ℕ) - 1) = .ok v :=
      substr_append (u := f.name ++ [COLON, SP]) (w := [CR]) (by simp [line, hv]) (by simp)
        (by rw [hlen, hv, List.length_cons]; omega)
    rw [hv, List.length_cons] at hlen
    simp only [if_pos (hhead.mpr hsp), if_pos hsp]
    rw [if_pos (by omega), hname, hvalue, hv]
    rfl
  · have hvalue : substr (f.line ++ [CR]) (f.name.length + 1)
        (((f.line ++ [CR]).length : ℤ) - (f.name.length + 1 : ℕ) - 1) = .ok f.after :=
      substr_append (u := f.name ++ [COLON]) (w := [CR]) (by simp [line]) (by simp)
        (by rw [hlen]; omega)
    simp only [if_neg (mt hhead.mp hsp), if_neg hsp]
    rw [if_pos (by omega), hname, hvalue]
    rfl

end Field

/-- The loop over the header lines reads the fields of a head: it stops at the blank line and
leaves what is behind it. -/
theorem parseFields_render {H : Type*} (insert : H → Bytes → Bytes → H) (fields : List Field)
    (rest before : Bytes) {fuel : ℕ} (hfuel : fields.length < fuel) (header : H) :
    let r := IStream.getline ⟨Field.render fields ++ crlf ++ rest, false, false⟩ before
    parseFields insert fuel r.2 r.1 header =
      some (.ok
        (fields.foldl (fun h f => insert h f.name f.value) header, ⟨rest, false, false⟩)) := by
  induction fields generalizing fuel header before with
  | nil =>
      have hline : IStream.getline ⟨Field.render [] ++ crlf ++ rest, false, false⟩ before =
          ([CR], ⟨rest, false, false⟩) :=
        IStream.getline_append_lf (show LF ∉ [CR] by decide) rest before
      obtain ⟨k, rfl⟩ : ∃ k, fuel = k + 1 := ⟨fuel - 1, by omega⟩
      rw [hline]
      rfl
  | cons f fields ih =>
      obtain ⟨k, rfl⟩ : ∃ k, fuel = k + 1 := ⟨fuel - 1, by simp at hfuel; omega⟩
      have hlf : LF ∉ f.line ++ [CR] := lf_notMem_concat_cr f.lf_notMem_line
      have hrender : Field.render (f :: fields) ++ crlf ++ rest =
          f.line ++ [CR] ++ LF :: (Field.render fields ++ crlf ++ rest) := by
        simp [Field.render, renderLines, crlf]
      rw [hrender, IStream.getline_append_lf hlf]
      simp only [parseFields, f.find_line, f.parseField_line, Option.elim_some]
      exact ih (f.line ++ [CR]) (by simp at hfuel; omega) (insert header f.name f.value)

/-- **The header lines of a head** are read, and there is fuel enough. The fields are inserted in
their order, and the stream is left behind the blank line. -/
theorem readFields_render {H : Type*} (insert : H → Bytes → Bytes → H) (fields : List Field)
    (rest before : Bytes) (header : H) :
    readFields insert ⟨Field.render fields ++ crlf ++ rest, false, false⟩ before header =
      some (.ok
        (fields.foldl (fun h f => insert h f.name f.value) header, ⟨rest, false, false⟩)) := by
  refine parseFields_render insert fields rest before ?_ header
  have hlen : fields.length ≤ (Field.render fields).length := by
    induction fields with
    | nil => simp
    | cons f fields ih =>
        simp only [Field.render, renderLines, List.map_cons, List.flatMap_cons, List.length_append,
          List.length_cons, crlf] at ih ⊢
        omega
  simp only [List.length_append]
  omega

/-! ### The heads that clients write -/

/-- The head of a request. -/
structure RequestHead where
  method : Bytes
  path : Bytes
  version : Bytes
  fields : List Field
  method_legal : SP ∉ method ∧ LF ∉ method
  path_legal : SP ∉ path ∧ LF ∉ path
  version_legal : LF ∉ version

namespace RequestHead

/-- The head has a field of this name, spelled like this. -/
def HasField (h : RequestHead) (name : Bytes) : Prop :=
  ∃ f ∈ h.fields, f.name = name

/-- The fields have distinct names. Names that differ only in their case are the same. -/
def DistinctNames (h : RequestHead) : Prop :=
  (h.fields.map Field.lowerName).Nodup

/-- Two heads differ at most in the case of their field names. -/
structure SameButCase (h h' : RequestHead) : Prop where
  method : h.method = h'.method
  path : h.path = h'.path
  version : h.version = h'.version
  fields : h.fields.map (fun f => (f.lowerName, f.after)) =
    h'.fields.map fun f => (f.lowerName, f.after)

/-- The first line. -/
def requestLine (h : RequestHead) : Bytes :=
  h.method ++ SP :: (h.path ++ SP :: (ascii "HTTP/" ++ h.version))

/-- The head as it is sent, up to and with the blank line. -/
def render (h : RequestHead) : Bytes :=
  h.requestLine ++ crlf ++ Field.render h.fields ++ crlf

/-- There is no line feed in the first line. -/
theorem lf_notMem_requestLine (h : RequestHead) : LF ∉ h.requestLine := by
  have hhttp : LF ∉ ascii "HTTP/" := by decide
  have hsp : LF ≠ SP := by decide
  simp [requestLine, h.method_legal.2, h.path_legal.2, h.version_legal, hhttp, hsp]

/-- The first line is read first, with its carriage return, and what is left are the fields. -/
theorem getline_render (h : RequestHead) (rest before : Bytes) :
    IStream.getline ⟨h.render ++ rest, false, false⟩ before =
      (h.requestLine ++ [CR], ⟨Field.render h.fields ++ crlf ++ rest, false, false⟩) := by
  have hrender : h.render ++ rest =
      h.requestLine ++ [CR] ++ LF :: (Field.render h.fields ++ crlf ++ rest) := by
    simp [render, crlf]
  rw [hrender]
  exact IStream.getline_append_lf (lf_notMem_concat_cr h.lf_notMem_requestLine) _ _

/-- The spaces of the first line are found behind the method and behind the path. -/
theorem find_requestLine (h : RequestHead) :
    find (h.requestLine ++ [CR]) SP 0 = some h.method.length ∧
      find (h.requestLine ++ [CR]) SP (h.method.length + 1) =
        some (h.method.length + 1 + h.path.length) := by
  have hfirst : (h.requestLine ++ [CR]).drop 0 =
      h.method ++ SP :: (h.path ++ SP :: (ascii "HTTP/" ++ h.version) ++ [CR]) := by
    simp [requestLine]
  have hsecond : (h.requestLine ++ [CR]).drop (h.method.length + 1) =
      h.path ++ SP :: (ascii "HTTP/" ++ h.version ++ [CR]) := by
    rw [show h.requestLine ++ [CR] =
      (h.method ++ [SP]) ++ (h.path ++ SP :: (ascii "HTTP/" ++ h.version ++ [CR])) by
        simp [requestLine]]
    exact List.drop_left' (by simp)
  refine ⟨?_, find_eq_some hsecond h.path_legal.1⟩
  rw [find_eq_some hfirst h.method_legal.1, Nat.zero_add]

/-- How long the first line is: two spaces stand between its parts, and `HTTP/` before the
version. -/
theorem length_requestLine (h : RequestHead) : (h.requestLine ++ [CR]).length =
    h.method.length + 1 + h.path.length + 6 + h.version.length + 1 := by
  simp [requestLine, show (ascii "HTTP/").length = 5 from rfl]
  omega

/-- What stands before the first space is the method. -/
theorem substr_method (h : RequestHead) :
    substr (h.requestLine ++ [CR]) 0 h.method.length = .ok h.method :=
  substr_append (u := []) (w := SP :: (h.path ++ SP :: (ascii "HTTP/" ++ h.version)) ++ [CR])
    (by simp [requestLine]) rfl rfl

/-- What stands between the spaces is the path. -/
theorem substr_path (h : RequestHead) : substr (h.requestLine ++ [CR]) (h.method.length + 1)
    (((h.method.length + 1 + h.path.length : ℕ) : ℤ) - h.method.length - 1) = .ok h.path :=
  substr_append (u := h.method ++ [SP]) (w := SP :: (ascii "HTTP/" ++ h.version) ++ [CR])
    (by simp [requestLine]) (by simp) (by omega)

/-- What stands behind `HTTP/` is the version. -/
theorem substr_version (h : RequestHead) {count : ℤ} (hcount : count = h.version.length) :
    substr (h.requestLine ++ [CR]) (h.method.length + 1 + h.path.length + 6) count =
      .ok h.version :=
  substr_append (u := h.method ++ SP :: (h.path ++ SP :: ascii "HTTP/")) (w := [CR])
    (by simp [requestLine]) (by simp [show (ascii "HTTP/").length = 5 from rfl]; omega) hcount

/-- The first line is one, as it is not empty and has no line feed. -/
theorem isLine_requestLine (h : RequestHead) : IsLine h.requestLine :=
  ⟨by simp [requestLine], h.lf_notMem_requestLine⟩

/-- **The end of a head** is found at its blank line, whatever follows. No field has a blank line in
it, so the head is neither cut short nor read on into the content. -/
theorem firstEnd_render (h : RequestHead) (rest : Bytes) :
    firstEnd (crlf ++ crlf) (h.render ++ rest) = some h.render.length := by
  have hlines : ∀ l ∈ h.requestLine :: h.fields.map Field.line, IsLine l := by
    intro l hl
    rcases List.mem_cons.mp hl with rfl | hl
    · exact h.isLine_requestLine
    · obtain ⟨f, -, rfl⟩ := List.mem_map.mp hl
      exact ⟨by simp [Field.line], f.lf_notMem_line⟩
  have hrender : h.render = renderLines (h.requestLine :: h.fields.map Field.line) ++ crlf := by
    simp [render, renderLines, Field.render]
  rw [hrender, firstEnd_renderLines (by simp) hlines, List.length_append]
  rfl

end RequestHead

end BoostIrc
