import BoostIrc.Base64
import BoostIrc.Digest
import BoostIrc.RequestHead

/-!
# The Opening Handshake of a WebSocket Connection

When the head of the upgrade request has arrived, `parse_handshake` takes it apart, and
`write_handshake` looks for the first endpoint whose expression matches the path. If the header
has a `sec-websocket-key`, spelled like this, the answer is written; in all other cases nothing
happens any more on the connection.

The expressions of the endpoints and SHA-1 are parameters: a function that returns the captures,
and one that returns the five words of the digest.

## Main results

* `readHandshake_render`: what becomes of a request.
* `exists_accept_ne`: **the value answered is never the one that is due**.
* `readHandshake_eq_iff`: **when the spelling of the names does not matter**.
-/

namespace BoostIrc

/-- The members of `Connection` that the request fills. The header is a map: its names are
distinct, and it is kept in the order of insertion. -/
structure Upgrade where
  method : Bytes := []
  path : Bytes := []
  httpVersion : Bytes := []
  header : List (Bytes × Bytes) := []
  deriving DecidableEq, Repr

/-- `unordered_map::insert`: a name that is there keeps its value. -/
def insertNew (header : List (Bytes × Bytes)) (name value : Bytes) : List (Bytes × Bytes) :=
  if (header.lookup name).isSome then header else header ++ [(name, value)]

namespace SocketServerBase

/-- The version in the first line of an upgrade request: what is behind `HTTP/`, whatever stands
in the place of that. -/
def upgradeVersion (line : Bytes) (pathEnd : ℕ) : Except Fault Bytes :=
  if pathEnd + 6 < line.length then
    substr line (pathEnd + 6) ((line.length : ℤ) - (pathEnd + 6) - 1)
  else
    .ok (ascii "1.1")

/-- The first line cut at its two spaces. -/
def parseUpgradeLine (line : Bytes) (methodEnd pathEnd : ℕ) : Except Fault Upgrade := do
  let method ← substr line 0 methodEnd
  let path ← substr line (methodEnd + 1) ((pathEnd : ℤ) - methodEnd - 1)
  let httpVersion ← upgradeVersion line pathEnd
  pure { method, path, httpVersion }

/-- `parse_handshake`, on a connection none of whose members are set yet. There is no result if
the loop over the header lines does not end. -/
def parseHandshake (stream : IStream) : Option (Except Fault (Upgrade × IStream)) :=
  let (line, stream) := stream.getline []
  match find line SP 0 with
  | none => some (.ok ({}, stream))
  | some methodEnd =>
      match find line SP (methodEnd + 1) with
      | none => some (.ok ({}, stream))
      | some pathEnd =>
          match parseUpgradeLine line methodEnd pathEnd with
          | .error e => some (.error e)
          | .ok c =>
              (readFields insertNew stream line c.header).map
                (Except.map fun r => ({ c with header := r.1 }, r.2))

/-- `ws_magic_string`. -/
def wsMagicString : Bytes :=
  ascii "258EAFA5-E914-47DA-95CA-C5AB0DC85B11"

/-- The answer up to the value of `Sec-WebSocket-Accept`. -/
def responseHead : Bytes :=
  ascii "HTTP/1.1 101 Web Socket Protocol Handshake\r\n" ++
    ascii "Upgrade: websocket\r\n" ++
    ascii "Connection: Upgrade\r\n" ++
    ascii "Sec-WebSocket-Accept: "

variable {ε : Type*} (sha1 : Bytes → Vector UInt32 5)
  (optEndpoint : List ((Bytes → Option (List Bytes)) × ε))

/-- `generate_handshake`: the answer, unless there is no key. -/
def generateHandshake (header : List (Bytes × Bytes)) : Option Bytes :=
  match header.lookup (ascii "sec-websocket-key") with
  | none => none
  | some key =>
      let buf := key ++ wsMagicString
      let res := digestText (sha1 buf)
      some (responseHead ++ Crypto.Base64.encode res ++ crlf ++ crlf)

/-- `write_handshake`: the answer that is written, the captures of the path, and the endpoint on
which the connection is opened when it has been written. -/
def writeHandshake (c : Upgrade) : Option (Bytes × List Bytes × ε) :=
  match optEndpoint.findSome? fun endp => (endp.1 c.path).map fun m => (m, endp.2) with
  | none => none
  | some (pathMatch, endpoint) =>
      (generateHandshake sha1 c.header).map fun response => (response, pathMatch, endpoint)

/-- The handler of `read_handshake`, when the head of the request has arrived: what
`write_handshake` does, and what is left in the buffer. -/
def readHandshake (buffer : Bytes) :
    Option (Except Fault (Option (Bytes × List Bytes × ε) × Bytes)) :=
  (parseHandshake ⟨buffer, false, false⟩).map
    (Except.map fun r => (writeHandshake sha1 optEndpoint r.1, r.2.buffer))

/-! ### What is parsed of a request -/

/-- What a key stands for after the fields have been inserted: what it stood for before, and
otherwise the first field of the name. -/
theorem lookup_foldl_insertNew (fields : List Field) (header : List (Bytes × Bytes))
    (key : Bytes) :
    (fields.foldl (fun h f => insertNew h f.name f.value) header).lookup key =
      (header.lookup key).or ((fields.map fun f => (f.name, f.value)).lookup key) := by
  induction fields generalizing header with
  | nil => simp
  | cons f fields ih =>
      rw [List.foldl_cons, ih, List.map_cons, List.lookup_cons, insertNew]
      by_cases hname : key = f.name
      · subst hname
        cases hold : header.lookup f.name with
        | some v => simp [hold]
        | none => simp [hold, List.lookup_append]
      · have hne : (key == f.name) = false := by simpa using hname
        split_ifs
        · rw [hne]
        · simp [List.lookup_append, List.lookup_cons, hne]

/-- The first line of a head that was written as it should be is cut into its parts. -/
theorem parseUpgradeLine_requestLine (h : RequestHead) :
    parseUpgradeLine (h.requestLine ++ [CR]) h.method.length
      (h.method.length + 1 + h.path.length) =
        .ok { method := h.method, path := h.path, httpVersion := h.version } := by
  have hversion : upgradeVersion (h.requestLine ++ [CR]) (h.method.length + 1 + h.path.length) =
      .ok h.version := by
    have hlen := h.length_requestLine
    rw [upgradeVersion, if_pos (by omega)]
    exact h.substr_version (by rw [hlen]; omega)
  rw [parseUpgradeLine, h.substr_method, h.substr_path, hversion]
  rfl

/-- **What is parsed of a request**: its parts, and of several fields of one name the first. The
bytes behind the head stay in the stream, and the parser has fuel enough for every head. -/
theorem parseHandshake_render (h : RequestHead) (rest : Bytes) :
    parseHandshake ⟨h.render ++ rest, false, false⟩ =
      some (.ok
        ({ method := h.method
           path := h.path
           httpVersion := h.version
           header := h.fields.foldl (fun m f => insertNew m f.name f.value) [] },
          ⟨rest, false, false⟩)) := by
  obtain ⟨hmethod, hpath⟩ := h.find_requestLine
  rw [parseHandshake, h.getline_render]
  simp only [hmethod, hpath, parseUpgradeLine_requestLine, readFields_render]
  rfl

/-! ### The value of the answer -/

variable {sha1}

/-- **The value answered is never the one that is due**, for any key and any digest. The handshake
is written, with a value made of the digest in hexadecimal; the value due is made of its twenty
bytes, and different bytes are encoded differently. -/
theorem exists_accept_ne {header : List (Bytes × Bytes)} {key : Bytes}
    (hkey : header.lookup (ascii "sec-websocket-key") = some key) :
    ∃ value,
      generateHandshake sha1 header = some (responseHead ++ value ++ crlf ++ crlf) ∧
        value ≠ Crypto.Base64.encode (digestBytes (sha1 (key ++ wsMagicString))) := by
  refine ⟨Crypto.Base64.encode (digestText (sha1 (key ++ wsMagicString))), ?_, ?_⟩
  · rw [generateHandshake, hkey]
  · intro h
    exact digestText_ne_digestBytes _ (Crypto.Base64.encode_injective h)

/-- A key, and SHA-1 as far as it is asked for here. -/
def sampleKey : Bytes :=
  ascii "dGhlIHNhbXBsZSBub25jZQ=="

@[inherit_doc sampleKey]
def sampleSha1 (buf : Bytes) : Vector UInt32 5 :=
  if buf = sampleKey ++ wsMagicString then
    #v[0xb37a4f2c, 0xc0624f16, 0x90f64606, 0xcf385945, 0xb2bec4ea]
  else
    #v[0, 0, 0, 0, 0]

/-- For a sample key and a digest, the value that is answered is not the one that is due. -/
theorem exists_accept_ne_sample :
    ∃ value,
      generateHandshake sampleSha1 [(ascii "sec-websocket-key", sampleKey)] =
          some (responseHead ++ value ++ crlf ++ crlf) ∧
        value ≠ Crypto.Base64.encode (digestBytes (sampleSha1 (sampleKey ++ wsMagicString))) :=
  exists_accept_ne rfl

/-- What is answered to a sample key, and what is due: the text of the digest in Base64, and its
bytes. -/
theorem accept_sample :
    generateHandshake sampleSha1 [(ascii "sec-websocket-key", sampleKey)] =
        some (responseHead ++ ascii "YjM3YTRmMmNjMDYyNGYxNjkwZjY0NjA2Y2YzODU5NDViMmJlYzRlYQ==" ++
          crlf ++ crlf) ∧
      Crypto.Base64.encode (digestBytes (sampleSha1 (sampleKey ++ wsMagicString))) =
        ascii "s3pPLMBiTxaQ9kYGzzhZRbK+xOo=" := by
  decide +kernel

/-! ### The spelling of the names -/

/-- What `write_handshake` does depends on the path and on the key. -/
theorem readHandshake_render (h : RequestHead) (rest : Bytes) :
    readHandshake sha1 optEndpoint (h.render ++ rest) =
      some (.ok (writeHandshake sha1 optEndpoint
        { method := h.method
          path := h.path
          httpVersion := h.version
          header := h.fields.foldl (fun m f => insertNew m f.name f.value) [] }, rest)) := by
  rw [readHandshake, parseHandshake_render]
  rfl

/-- What a key stands for does not depend on the case of the names, if it is there in both
spellings or in neither. -/
theorem lookup_eq_of_sameButCase {fields fields' : List Field} {key : Bytes}
    (hcase : fields.map (fun f => (f.lowerName, f.after)) =
      fields'.map fun f => (f.lowerName, f.after))
    (hdistinct : (fields.map Field.lowerName).Nodup)
    (hkey : (∃ f ∈ fields, f.name = key) ↔ ∃ f ∈ fields', f.name = key) :
    (fields.map fun f => (f.name, f.value)).lookup key =
      (fields'.map fun f => (f.name, f.value)).lookup key := by
  induction fields generalizing fields' with
  | nil =>
      rw [List.map_nil, eq_comm, List.map_eq_nil_iff] at hcase
      rw [hcase]
  | cons f fields ih =>
      obtain ⟨g, gs, rfl, hhead, htail⟩ := List.map_eq_cons_iff.mp hcase.symm
      obtain ⟨hlower, hafter⟩ := Prod.mk.inj hhead
      rw [List.map_cons, List.nodup_cons] at hdistinct
      have hlowers : gs.map Field.lowerName = fields.map Field.lowerName := by
        have h := congrArg (List.map Prod.fst) htail
        rwa [List.map_map, List.map_map] at h
      have hf : f.lowerName ∉ fields.map Field.lowerName := hdistinct.1
      have hg : g.lowerName ∉ gs.map Field.lowerName := by
        rwa [hlower, hlowers]
      by_cases hfkey : f.name = key
      · by_cases hgkey : g.name = key
        · have hvalue : f.value = g.value := by rw [Field.value, Field.value, hafter]
          simp [hfkey, hgkey, hvalue]
        · exfalso
          obtain ⟨g', hg', hname⟩ := hkey.mp ⟨f, List.mem_cons_self, hfkey⟩
          rcases List.mem_cons.mp hg' with rfl | hg'
          · exact hgkey hname
          · refine hf (hlowers ▸ List.mem_map.mpr ⟨g', hg', ?_⟩)
            rw [Field.lowerName, Field.lowerName, hname, hfkey]
      · by_cases hgkey : g.name = key
        · exfalso
          obtain ⟨f', hf', hname⟩ := hkey.mpr ⟨g, List.mem_cons_self, hgkey⟩
          rcases List.mem_cons.mp hf' with rfl | hf'
          · exact hfkey hname
          · refine hg (hlowers ▸ List.mem_map.mpr ⟨f', hf', ?_⟩)
            rw [Field.lowerName, Field.lowerName, hname, hgkey]
        · have hkeyTail : (∃ f ∈ fields, f.name = key) ↔ ∃ f ∈ gs, f.name = key := by
            simpa [hfkey, hgkey] using hkey
          have hf' : (key == f.name) = false := beq_false_of_ne (Ne.symm hfkey)
          have hg' : (key == g.name) = false := beq_false_of_ne (Ne.symm hgkey)
          simp only [List.map_cons, List.lookup_cons, hf', hg']
          exact ih htail.symm hdistinct.2 hkeyTail

/-- There is an answer only if the key is there. -/
theorem isSome_generateHandshake_iff (sha1 : Bytes → Vector UInt32 5) (fields : List Field) :
    (generateHandshake sha1 (fields.foldl (fun m f => insertNew m f.name f.value) [])).isSome ↔
      ∃ f ∈ fields, f.name = ascii "sec-websocket-key" := by
  have hlookup := lookup_foldl_insertNew fields [] (ascii "sec-websocket-key")
  rw [List.lookup_nil, Option.none_or] at hlookup
  have hsome : (generateHandshake sha1
      (fields.foldl (fun m f => insertNew m f.name f.value) [])).isSome =
        ((fields.map fun f => (f.name, f.value)).lookup (ascii "sec-websocket-key")).isSome := by
    rw [generateHandshake, hlookup]
    cases (fields.map fun f => (f.name, f.value)).lookup (ascii "sec-websocket-key") <;> rfl
  rw [hsome, List.lookup_isSome_iff]
  constructor
  · rintro ⟨x, hx, heq⟩
    obtain ⟨f, hf, rfl⟩ := List.mem_map.mp hx
    exact ⟨f, hf, (beq_iff_eq.mp heq).symm⟩
  · rintro ⟨f, hf, hname⟩
    exact ⟨(f.name, f.value), List.mem_map_of_mem hf, beq_iff_eq.mpr hname.symm⟩

/-- **When the spelling of the names does not matter**: if the path is that of no endpoint, or the
name of the key is spelled in lower case in both requests or in neither. -/
theorem readHandshake_eq_iff {h h' : RequestHead} (hcase : h.SameButCase h')
    (hdistinct : h.DistinctNames) (rest : Bytes) :
    readHandshake sha1 optEndpoint (h.render ++ rest) =
        readHandshake sha1 optEndpoint (h'.render ++ rest) ↔
      (∀ endp ∈ optEndpoint, endp.1 h.path = none) ∨
        (h.HasField (ascii "sec-websocket-key") ↔ h'.HasField (ascii "sec-websocket-key")) := by
  rw [readHandshake_render, readHandshake_render]
  simp only [Option.some.injEq, Except.ok.injEq, Prod.mk.injEq, and_true]
  rw [writeHandshake, writeHandshake, ← hcase.path]
  have hhas := isSome_generateHandshake_iff sha1 h.fields
  have hhas' := isSome_generateHandshake_iff sha1 h'.fields
  cases hfind : optEndpoint.findSome? fun endp => (endp.1 h.path).map fun m => (m, endp.2) with
  | none =>
      have hnone : ∀ endp ∈ optEndpoint, endp.1 h.path = none := by
        intro endp hendp
        simpa using List.findSome?_eq_none_iff.mp hfind endp hendp
      exact iff_of_true rfl (Or.inl hnone)
  | some x =>
      have hsome : ¬ ∀ endp ∈ optEndpoint, endp.1 h.path = none := by
        intro hnone
        obtain ⟨endp, hendp, hx⟩ := List.exists_of_findSome?_eq_some hfind
        rw [hnone endp hendp] at hx
        exact absurd hx (by simp)
      rw [or_iff_right hsome]
      constructor
      · intro heq
        have hisSome := congrArg Option.isSome heq
        simp only [Option.isSome_map] at hisSome
        rw [RequestHead.HasField, RequestHead.HasField, ← hhas, ← hhas', hisSome]
      · intro hkey
        have hlookup := lookup_eq_of_sameButCase hcase.fields hdistinct hkey
        rw [generateHandshake, generateHandshake, lookup_foldl_insertNew, lookup_foldl_insertNew,
          hlookup]

/-- An upgrade request with the key in a field of the given name. -/
def upgradeRequest (name : Bytes) (h : COLON ∉ name ∧ LF ∉ name) : RequestHead where
  method := ascii "GET"
  path := ascii "/echo"
  version := ascii "1.1"
  fields := [⟨name, SP :: sampleKey, h, by decide⟩]
  method_legal := by decide
  path_legal := by decide
  version_legal := by decide

/-- The name of the key in lower case, and as browsers write it. -/
def lowerRequest : RequestHead :=
  upgradeRequest (ascii "sec-websocket-key") (by decide)

@[inherit_doc lowerRequest]
def mixedRequest : RequestHead :=
  upgradeRequest (ascii "Sec-WebSocket-Key") (by decide)

/-- The expression of one endpoint, on the paths it is asked for here. -/
def echoEndpoint : List ((Bytes → Option (List Bytes)) × ℕ) :=
  [(fun path => if path = ascii "/echo" then some [path] else none, 0)]

/-- An upgrade request with one field has distinct field names. -/
theorem distinctNames_upgradeRequest (name : Bytes) (h : COLON ∉ name ∧ LF ∉ name) :
    (upgradeRequest name h).DistinctNames := by
  simp [RequestHead.DistinctNames, upgradeRequest]

/-- Two upgrade requests whose field names differ in their case alone differ in nothing else. -/
theorem sameButCase_upgradeRequest {name name' : Bytes} (h : COLON ∉ name ∧ LF ∉ name)
    (h' : COLON ∉ name' ∧ LF ∉ name') (hlower : name.map toLower = name'.map toLower) :
    (upgradeRequest name h).SameButCase (upgradeRequest name' h') where
  method := rfl
  path := rfl
  version := rfl
  fields := by simp [upgradeRequest, Field.lowerName, hlower]

/-- The two sample requests differ in the case of a field name alone. -/
theorem sameButCase_request : lowerRequest.SameButCase mixedRequest :=
  sameButCase_upgradeRequest _ _ (by decide)

/-- The two sample requests get the same answer exactly if both or neither have the key spelled in
small letters, as there is an endpoint for them. -/
theorem readHandshake_eq_iff_request :
    readHandshake sampleSha1 echoEndpoint (lowerRequest.render ++ []) =
        readHandshake sampleSha1 echoEndpoint (mixedRequest.render ++ []) ↔
      (∀ endp ∈ echoEndpoint, endp.1 lowerRequest.path = none) ∨
        (lowerRequest.HasField (ascii "sec-websocket-key") ↔
          mixedRequest.HasField (ascii "sec-websocket-key")) :=
  readHandshake_eq_iff echoEndpoint sameButCase_request (distinctNames_upgradeRequest _ _) []

/-- The one request is answered, the other is not. -/
theorem readHandshake_request_ne :
    lowerRequest.SameButCase mixedRequest ∧
      lowerRequest.DistinctNames ∧ mixedRequest.DistinctNames ∧
      readHandshake sampleSha1 echoEndpoint lowerRequest.render ≠
        readHandshake sampleSha1 echoEndpoint mixedRequest.render := by
  refine ⟨sameButCase_request, distinctNames_upgradeRequest _ _,
    distinctNames_upgradeRequest _ _, ?_⟩
  intro h
  have hanswered := congrArg (Option.map (Except.map fun r => r.1.isSome)) h
  revert hanswered
  decide +kernel

end SocketServerBase

end BoostIrc
