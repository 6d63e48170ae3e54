import BoostIrc.Bytes
import BoostIrc.FileTree

/-!
# The Static Files

The HTTP server answers a `GET` for which there is no other resource with a file below the
directory `web`. The handler makes the path canonical, checks that it is below the root, and opens
the file. If the path is that of a directory, `index.html` is appended to it behind the check.

The paths of Boost.Filesystem are strings, which may hold a zero byte; the operating system sees a
path up to the first one (`cStr`).

## Main results

* `unlinked_of_canonical`: on a canonical path there is no link.
* `prefix_of_unlinked`: **the file that such a path names is where the path says**.
* `Bot.staysBelow_iff`: **when the files opened are below the root**.
-/

open FileTree

namespace BoostIrc

/-- The slash. -/
abbrev SLASH : Byte := 0x2F

/-- A component of a path that is no dot and no pair of dots. -/
structure PathName where
  text : Bytes
  legal : text ≠ [] ∧ text ≠ ascii "." ∧ text ≠ ascii ".."
  deriving DecidableEq, Repr

/-- The name of a file: the operating system does not know names with a zero byte. -/
structure FileName extends PathName where
  zero_notMem : 0 ∉ text
  deriving DecidableEq, Repr

/-- The files of the machine: the tree, the working directory of the program, and how many links
the operating system follows. -/
structure FileSystem where
  entries : List (FileName × Entry FileName Bytes)
  workingDirectory : List FileName
  maxLinks : ℕ

/-- The name of the directory `web`. -/
def webName : FileName where
  text := ascii "web"
  legal := by decide
  zero_notMem := by decide

/-- The name of the file `index.html`. -/
def indexName : FileName where
  text := ascii "index.html"
  legal := by decide
  zero_notMem := by decide

/-- A component of a path from its text. -/
def component (c : Bytes) : Option (Component PathName) :=
  if hempty : c = [] then
    none
  else if hdot : c = ascii "." then
    some .here
  else if hdots : c = ascii ".." then
    some .up
  else
    some (.name ⟨c, hempty, hdot, hdots⟩)

/-- The components of a path, as they are iterated. A slash at the end counts as a dot. -/
def elements (path : Bytes) : List (Component PathName) :=
  (path.splitOn SLASH).filterMap component ++
    if path.getLast? = some SLASH then [.here] else []

/-- In the part before the first zero byte there is none. -/
theorem zero_notMem_takeWhile (c : Bytes) : 0 ∉ c.takeWhile (· != 0) := by
  intro h
  exact absurd (List.mem_takeWhile_imp h) (by decide)

/-- What the operating system makes of a name: the part before the first zero byte. -/
def cStrName (c : PathName) : Component FileName :=
  if hzero : 0 ∈ c.text then
    let part := c.text.takeWhile (· != 0)
    if hhere : part = [] ∨ part = ascii "." then
      .here
    else if hup : part = ascii ".." then
      .up
    else
      .name ⟨⟨part, (not_or.mp hhere).1, (not_or.mp hhere).2, hup⟩, zero_notMem_takeWhile c.text⟩
  else
    .name ⟨c, hzero⟩

/-- What the operating system makes of a path: nothing is seen behind the first zero byte. -/
def cStr : List (Component PathName) → List (Component FileName)
  | [] => []
  | .here :: rest => .here :: cStr rest
  | .up :: rest => .up :: cStr rest
  | .name c :: rest => cStrName c :: if 0 ∈ c.text then [] else cStr rest

namespace FileSystem

/-- The tree of the files. -/
def tree (fs : FileSystem) : Entry FileName Bytes :=
  .dir fs.entries

/-- `status`. -/
def status (fs : FileSystem) (path : List (Component PathName)) :
    Except Errno (Entry FileName Bytes) :=
  stat fs.tree fs.maxLinks (cStr path)

/-- `exists`, which throws if there are too many links. -/
def exist (fs : FileSystem) (path : List (Component PathName)) : Option Bool :=
  match fs.status path with
  | .ok _ => some true
  | .error .noEntry => some false
  | .error .loop => none

/-- `is_directory`. -/
def isDirectory (fs : FileSystem) (path : List (Component PathName)) : Option Bool :=
  match fs.status path with
  | .ok (.dir _) => some true
  | .ok _ => some false
  | .error .noEntry => some false
  | .error .loop => none

/-- `is_regular_file`. -/
def isRegularFile (fs : FileSystem) (path : List (Component PathName)) : Option Bool :=
  match fs.status path with
  | .ok (.file _) => some true
  | .ok _ => some false
  | .error .noEntry => some false
  | .error .loop => none

/-- `symlink_status` and `read_symlink`: the target, if the path is that of a link. -/
def readSymlink (fs : FileSystem) (path : List (Component PathName)) :
    Option (Bool × List (Component PathName)) :=
  match lstat fs.tree fs.maxLinks (cStr path) with
  | .ok (.link isAbsolute target) =>
      some (isAbsolute, target.map (Component.map FileName.toPathName))
  | _ => none

/-- The loop in `canonical` over the components of a path, with the result so far: the result, or
the path from which to start again, if a link has been met. -/
def scan (fs : FileSystem) : List PathName → List (Component PathName) →
    List PathName ⊕ List (Component PathName)
  | result, [] => .inl result
  | result, .here :: rest => scan fs result rest
  | result, .up :: rest => scan fs result.dropLast rest
  | result, .name c :: rest =>
      match fs.readSymlink (names (result ++ [c])) with
      | some (isAbsolute, target) =>
          .inr ((if isAbsolute then [] else names result) ++ target ++ rest)
      | none => scan fs (result ++ [c]) rest

/-- The outer loop in `canonical`, with fuel. -/
def canonicalLoop (fs : FileSystem) : ℕ → List (Component PathName) → Option (List PathName)
  | 0, _ => none
  | fuel + 1, source =>
      match fs.scan [] source with
      | .inl result => some result
      | .inr source => canonicalLoop fs fuel source

/-- `canonical`, which throws if there is nothing. -/
def canonical (fs : FileSystem) (fuel : ℕ) (path : List (Component PathName)) :
    Option (List PathName) :=
  match fs.status path with
  | .ok _ => fs.canonicalLoop fuel path
  | .error _ => none

/-- What is read from a regular file. -/
def read (fs : FileSystem) (path : List (Component PathName)) : Option Bytes :=
  match fs.status path with
  | .ok (.file content) => some content
  | _ => none

end FileSystem

namespace Bot

/-- What the handler does: the file that it opens, if it opens one, and the answer. -/
structure Reply where
  opened : Option (List PathName)
  text : Bytes
  deriving DecidableEq, Repr

/-- The answer with a file. -/
def okReply (path : List PathName) (content : Bytes) : Reply where
  opened := some path
  text := ascii "HTTP/1.1 200 OK\r\nContent-Length: " ++ ascii (toString content.length) ++
    ascii "\r\n\r\n" ++ content

/-- The answer without a file. -/
def badRequestReply (requestPath : Bytes) : Reply where
  opened := none
  text :=
    let content := ascii "Could not open path " ++ requestPath
    ascii "HTTP/1.1 400 Bad Request\r\nContent-Length: " ++ ascii (toString content.length) ++
      ascii "\r\n\r\n" ++ content

/-- `canonical("web")`. -/
def webRootPath (fs : FileSystem) (fuel : ℕ) : Option (List PathName) :=
  fs.canonical fuel
    (names (fs.workingDirectory.map FileName.toPathName ++ [webName.toPathName]))

/-- The path that is opened for a path below the root. -/
def indexPath (path : List PathName) (isDirectory : Bool) : List PathName :=
  if isDirectory then path ++ [indexName.toPathName] else path

/-- The file that the handler opens for a path below the root, if it opens one. -/
def openFile (fs : FileSystem) (path : List PathName) :
    Option (Option (List PathName × Bytes)) := do
  let isDirectory ← fs.isDirectory (names path)
  let path := indexPath path isDirectory
  let there ← fs.exist (names path)
  let isRegularFile ← fs.isRegularFile (names path)
  pure (if there && isRegularFile then
    (fs.read (names path)).map fun content => (path, content) else none)

/-- **The handler of `default_resource`**, none where it throws an exception. -/
def defaultResource (fs : FileSystem) (fuel : ℕ) (requestPath : Bytes) : Option Reply :=
  (webRootPath fs fuel).bind fun root =>
    let path := names root ++ elements requestPath
    (fs.exist path).bind fun there =>
      if there then
        (fs.canonical fuel path).bind fun path =>
          if root <+: path then
            (openFile fs path).map fun file =>
              file.elim (badRequestReply requestPath) fun x => okReply x.1 x.2
          else
            some (badRequestReply requestPath)
      else
        some (badRequestReply requestPath)

/-- **The file that is opened is below the root**: the place that the operating system finds for it
has the components of the root first. -/
def StaysBelow (fs : FileSystem) (fuel : ℕ) (requestPath : Bytes) : Prop :=
  ∀ reply root path place, defaultResource fs fuel requestPath = some reply →
    webRootPath fs fuel = some root → reply.opened = some path →
      resolve fs.tree fs.maxLinks (cStr (names path)) = .ok place →
        root <+: place.map FileName.toPathName

/-- **The index leads out**: the path is that of a directory below the root whose `index.html` is a
link to a regular file that is not. -/
def IndexLeadsOut (fs : FileSystem) (fuel : ℕ) (requestPath : Bytes) : Prop :=
  ∃ root path place content, webRootPath fs fuel = some root ∧
    fs.canonical fuel (names root ++ elements requestPath) = some path ∧ root <+: path ∧
      fs.isDirectory (names path) = some true ∧
        (fs.readSymlink (names (path ++ [indexName.toPathName]))).isSome ∧
          resolve fs.tree fs.maxLinks (cStr (names (path ++ [indexName.toPathName]))) = .ok place ∧
            fs.tree.lookup place = some (.file content) ∧
              ¬ root <+: place.map FileName.toPathName

end Bot

/-! ### Canonical paths -/

namespace FileSystem

variable {fs : FileSystem}

/-- No link stands on the path. -/
def Unlinked (fs : FileSystem) (path : List PathName) : Prop :=
  ∀ q, q <+: path → q ≠ [] → fs.readSymlink (names q) = none

/-- A beginning of a path without links is without links. -/
theorem Unlinked.of_isPrefix {p q : List PathName} (h : fs.Unlinked p) (hq : q <+: p) :
    fs.Unlinked q :=
  fun r hr => h r (hr.trans hq)

/-- One more component that is no link keeps the path without links. -/
theorem Unlinked.concat {p : List PathName} {c : PathName} (h : fs.Unlinked p)
    (hc : fs.readSymlink (names (p ++ [c])) = none) : fs.Unlinked (p ++ [c]) := by
  intro q hq hne
  rcases List.prefix_concat_iff.mp hq with rfl | hq
  · exact hc
  · exact h q hq hne

/-- The loop over the components puts no link on the result. -/
theorem unlinked_of_scan {result r : List PathName} {comps : List (Component PathName)}
    (hresult : fs.Unlinked result) (h : fs.scan result comps = .inl r) : fs.Unlinked r := by
  induction comps generalizing result with
  | nil =>
      obtain rfl : result = r := Sum.inl.inj h
      exact hresult
  | cons c rest ih =>
      cases c with
      | here => exact ih hresult h
      | up => exact ih (hresult.of_isPrefix (List.dropLast_prefix result)) h
      | name c =>
          rw [scan] at h
          cases hlink : fs.readSymlink (names (result ++ [c])) with
          | some x =>
              rw [hlink] at h
              exact absurd h (by simp)
          | none =>
              rw [hlink] at h
              exact ih (hresult.concat hlink) h

/-- There is no link on the path of the root. -/
theorem unlinked_nil : fs.Unlinked [] := by
  intro q hq hne
  exact absurd (List.prefix_nil.mp hq) hne

/-- What the loop of `canonical` returns has no links on it: each of its components has been looked
at. -/
theorem unlinked_of_canonicalLoop {fuel : ℕ} {source : List (Component PathName)}
    {r : List PathName} (h : fs.canonicalLoop fuel source = some r) : fs.Unlinked r := by
  induction fuel generalizing source with
  | zero => exact absurd h (by simp [canonicalLoop])
  | succ fuel ih =>
      rw [canonicalLoop] at h
      split at h
      · next result hscan =>
          obtain rfl := Option.some.inj h
          exact unlinked_of_scan unlinked_nil hscan
      · exact ih h

/-- What `canonical` starts from is there. -/
theorem canonical_eq_some {fuel : ℕ} {path : List (Component PathName)} {r : List PathName}
    (h : fs.canonical fuel path = some r) :
    fs.exist path = some true ∧ fs.canonicalLoop fuel path = some r := by
  rw [canonical] at h
  split at h
  · next e he => exact ⟨by rw [exist, he], h⟩
  · exact absurd h (by simp)

/-- **On a canonical path there is no link.** So it is its own resolution, and the check of the root
compares places, not names. -/
theorem unlinked_of_canonical {fuel : ℕ} {path : List (Component PathName)} {r : List PathName}
    (h : fs.canonical fuel path = some r) : fs.Unlinked r :=
  unlinked_of_canonicalLoop (canonical_eq_some h).2

/-! ### Names without a zero byte -/

/-- No name of the path has a zero byte. -/
def NoZero (comps : List (Component PathName)) : Prop :=
  ∀ c, .name c ∈ comps → 0 ∉ c.text

/-- Paths without zero bytes make up one without zero bytes. -/
theorem NoZero.append {p q : List (Component PathName)} (hp : NoZero p) (hq : NoZero q) :
    NoZero (p ++ q) := by
  intro c hc
  rcases List.mem_append.mp hc with hc | hc
  · exact hp c hc
  · exact hq c hc

/-- The components of a path of names have no zero byte exactly if the names have none. -/
theorem noZero_names {p : List PathName} : NoZero (names p) ↔ ∀ c ∈ p, 0 ∉ c.text := by
  simp [NoZero, names]

/-- The targets of links have no zero bytes, as they are made of file names. -/
theorem noZero_of_readSymlink {path target : List (Component PathName)} {isAbsolute : Bool}
    (h : fs.readSymlink path = some (isAbsolute, target)) : NoZero target := by
  rw [readSymlink] at h
  split at h
  · next target' _ =>
      obtain ⟨-, rfl⟩ := Prod.mk.inj (Option.some.inj h)
      intro c hc
      obtain ⟨x, -, hx⟩ := List.mem_map.mp hc
      cases x with
      | here => exact absurd hx (by simp [Component.map])
      | up => exact absurd hx (by simp [Component.map])
      | name a =>
          obtain rfl := Component.name.inj hx
          exact a.zero_notMem
  · exact absurd h (by simp)

/-- The loop over the components makes none. -/
theorem noZero_of_scan (fs : FileSystem) {result : List PathName}
    {comps : List (Component PathName)} (hresult : NoZero (names result)) (hcomps : NoZero comps) :
    (∀ r, fs.scan result comps = .inl r → NoZero (names r)) ∧
      ∀ source, fs.scan result comps = .inr source → NoZero source := by
  induction comps generalizing result with
  | nil =>
      refine ⟨fun r h => ?_, fun source h => ?_⟩
      · obtain rfl : result = r := Sum.inl.inj h
        exact hresult
      · exact absurd h (by simp [scan])
  | cons c rest ih =>
      have hrest : NoZero rest := fun x hx => hcomps x (List.mem_cons_of_mem c hx)
      cases c with
      | here => exact ih hresult hrest
      | up =>
          refine ih (noZero_names.mpr fun x hx => ?_) hrest
          exact noZero_names.mp hresult x (List.mem_of_mem_dropLast hx)
      | name c =>
          rw [scan]
          cases hlink : fs.readSymlink (names (result ++ [c])) with
          | some x =>
              obtain ⟨isAbsolute, target⟩ := x
              refine ⟨fun r h => absurd h (by simp), fun source h => ?_⟩
              obtain rfl := Sum.inr.inj h
              refine (NoZero.append ?_ (noZero_of_readSymlink hlink)).append hrest
              split_ifs
              · intro x hx
                exact absurd hx (by simp)
              · exact hresult
          | none =>
              refine ih (noZero_names.mpr ?_) hrest
              refine List.forall_mem_append.mpr ⟨noZero_names.mp hresult, ?_⟩
              exact List.forall_mem_singleton.mpr (hcomps c List.mem_cons_self)

/-- **A canonical path has no zero byte**, if the path had none. The text of a link has none either,
so the path is not cut when it is handed to the operating system. -/
theorem noZero_of_canonical {fuel : ℕ} {path : List (Component PathName)} {r : List PathName}
    (hpath : NoZero path) (h : fs.canonical fuel path = some r) : ∀ c ∈ r, 0 ∉ c.text := by
  have hloop := (canonical_eq_some h).2
  clear h
  induction fuel generalizing path with
  | zero => exact absurd hloop (by simp [canonicalLoop])
  | succ fuel ih =>
      have hnone : NoZero (names []) := fun c hc => absurd hc (by simp [names])
      have hscan := noZero_of_scan fs hnone hpath
      rw [canonicalLoop] at hloop
      split at hloop
      · next result hresult =>
          obtain rfl := Option.some.inj hloop
          exact noZero_names.mp (hscan.1 _ hresult)
      · next source hsource => exact ih (hscan.2 _ hsource) hloop

/-! ### What the operating system sees -/

/-- A path without a zero byte, or the part of a path before the first one. -/
theorem exists_fileNames (r : List PathName) :
    ∃ pre : List FileName, r = pre.map FileName.toPathName ∨
      ∃ c post, r = pre.map FileName.toPathName ++ c :: post ∧ 0 ∈ c.text := by
  induction r with
  | nil => exact ⟨[], Or.inl rfl⟩
  | cons c r ih =>
      by_cases hzero : 0 ∈ c.text
      · exact ⟨[], Or.inr ⟨c, r, rfl, hzero⟩⟩
      · obtain ⟨pre, rfl | ⟨d, post, rfl, hd⟩⟩ := ih
        · exact ⟨⟨c, hzero⟩ :: pre, Or.inl rfl⟩
        · exact ⟨⟨c, hzero⟩ :: pre, Or.inr ⟨d, post, rfl, hd⟩⟩

/-- Names without a zero byte are seen as they are. -/
theorem cStr_names_append (pre : List FileName) (comps : List (Component PathName)) :
    cStr (names (pre.map FileName.toPathName) ++ comps) = names pre ++ cStr comps := by
  induction pre with
  | nil => rfl
  | cons a pre ih =>
      have hname : cStrName a.toPathName = .name a := dif_neg a.zero_notMem
      have hsplit : names ((a :: pre).map FileName.toPathName) ++ comps =
          .name a.toPathName :: (names (pre.map FileName.toPathName) ++ comps) := rfl
      rw [hsplit, cStr, hname, if_neg a.zero_notMem, ih]
      rfl

/-- A path of file names is seen as it is, as no file name has a zero byte. -/
theorem cStr_names (pre : List FileName) :
    cStr (names (pre.map FileName.toPathName)) = names pre := by
  have happend := cStr_names_append pre []
  rwa [List.append_nil, cStr, List.append_nil] at happend

/-- Behind a zero byte nothing is seen: the component with the byte ends before it, and it is the
last one. -/
theorem cStr_zero (pre : List FileName) {c : PathName} (hc : 0 ∈ c.text) (post : List PathName) :
    cStr (names (pre.map FileName.toPathName ++ c :: post)) = names pre ++ [cStrName c] := by
  have hsplit : names (pre.map FileName.toPathName ++ c :: post) =
      names (pre.map FileName.toPathName) ++ .name c :: names post := by simp [names]
  rw [hsplit, cStr_names_append, cStr, if_pos hc]

/-- There is no link on the path of the root. -/
theorem plain_nil : Plain fs.tree [] := by
  intro q hq isAbsolute target
  rw [List.prefix_nil.mp hq]
  exact fun h => absurd h (by simp [Entry.lookup_nil, tree])

/-- A path on which `canonical` has met no link has none in the tree. -/
theorem plain_of_unlinked {pre : List FileName}
    (h : fs.Unlinked (pre.map FileName.toPathName)) : Plain fs.tree pre := by
  induction pre using List.reverseRecOn with
  | nil => exact plain_nil
  | append_singleton pre a ih =>
      rw [List.map_append] at h
      have hpre := ih (h.of_isPrefix (List.prefix_append _ _))
      refine hpre.concat fun isAbsolute target hlink => ?_
      have hnone := h _ (List.prefix_refl _) (by simp)
      rw [← List.map_append, readSymlink, cStr_names,
        lstat_names_concat fs.maxLinks hpre a, Entry.find, hlink] at hnone
      exact absurd hnone (by simp)

/-! ### Canonical paths and the operating system -/

/-- A path of the operating system, as a path of the library. -/
def ofFileNames (comps : List (Component FileName)) : List (Component PathName) :=
  comps.map (Component.map FileName.toPathName)

/-- Two paths of file names behind each other are turned into components one by one. -/
theorem ofFileNames_append (p q : List (Component FileName)) :
    ofFileNames (p ++ q) = ofFileNames p ++ ofFileNames q :=
  List.map_append

/-- A path of file names is made of their components. -/
theorem ofFileNames_names (p : List FileName) :
    ofFileNames (names p) = names (p.map FileName.toPathName) := by
  simp [ofFileNames, names, Component.map]

/-- The operating system sees it as it is. -/
theorem cStr_ofFileNames (comps : List (Component FileName)) :
    cStr (ofFileNames comps) = comps := by
  induction comps with
  | nil => rfl
  | cons c comps ih =>
      cases c with
      | here => exact congrArg (.here :: ·) ih
      | up => exact congrArg (.up :: ·) ih
      | name a =>
          have hname : cStrName a.toPathName = .name a := dif_neg a.zero_notMem
          have hsplit : ofFileNames (.name a :: comps) =
              .name a.toPathName :: ofFileNames comps := rfl
          rw [hsplit, cStr, hname, if_neg a.zero_notMem, ih]

/-- A link below a directory is read: its target is that of the tree. -/
theorem readSymlink_of_link {cur : List FileName} (h : Plain fs.tree cur) {a : FileName}
    {isAbsolute : Bool} {target : List (Component FileName)}
    (hlink : fs.tree.lookup (cur ++ [a]) = some (.link isAbsolute target)) :
    fs.readSymlink (names (cur.map FileName.toPathName ++ [a.toPathName])) =
      some (isAbsolute, ofFileNames target) := by
  have hsnoc : cur.map FileName.toPathName ++ [a.toPathName] =
      (cur ++ [a]).map FileName.toPathName := by simp
  rw [hsnoc, readSymlink, cStr_names, lstat_names_concat fs.maxLinks h a, Entry.find, hlink]
  rfl

/-- What is no link is not read as one, whether it is there or not. -/
theorem readSymlink_eq_none {cur : List FileName} (h : Plain fs.tree cur) {a : FileName}
    (hnot : ∀ isAbsolute target,
      fs.tree.lookup (cur ++ [a]) ≠ some (.link isAbsolute target)) :
    fs.readSymlink (names (cur.map FileName.toPathName ++ [a.toPathName])) = none := by
  have hsnoc : cur.map FileName.toPathName ++ [a.toPathName] =
      (cur ++ [a]).map FileName.toPathName := by simp
  rw [hsnoc, readSymlink, cStr_names, lstat_names_concat fs.maxLinks h a, Entry.find]
  cases hlookup : fs.tree.lookup (cur ++ [a]) with
  | none => rfl
  | some e =>
      cases e with
      | link isAbsolute target => exact absurd hlookup (hnot isAbsolute target)
      | file content => rfl
      | dir entries => rfl

/-- At a link the scan starts again, with the target of the link in front of what is left of the
path. -/
theorem scan_of_link {result : List PathName} {c : PathName} {rest : List (Component PathName)}
    {isAbsolute : Bool} {target : List (Component PathName)}
    (h : fs.readSymlink (names (result ++ [c])) = some (isAbsolute, target)) :
    fs.scan result (.name c :: rest) =
      .inr ((if isAbsolute then [] else names result) ++ target ++ rest) := by
  rw [scan, h]

/-- A component that is no link belongs to the result, and the scan goes on behind it. -/
theorem scan_of_none {result : List PathName} {c : PathName} {rest : List (Component PathName)}
    (h : fs.readSymlink (names (result ++ [c])) = none) :
    fs.scan result (.name c :: rest) = fs.scan (result ++ [c]) rest := by
  rw [scan, h]

/-- **One pass of `canonical`** goes as one pass of the operating system goes. Both end at the same
place, or both follow the same link with the same rest of the path. -/
theorem scan_eq_of_walk {cur : List FileName} {comps : List (Component FileName)}
    (h : Plain fs.tree cur) :
    (∀ p, walk fs.tree cur comps = some (.inl p) →
        fs.scan (cur.map FileName.toPathName) (ofFileNames comps) =
          .inl (p.map FileName.toPathName)) ∧
      ∀ p rest, walk fs.tree cur comps = some (.inr (p, rest)) →
        fs.scan (cur.map FileName.toPathName) (ofFileNames comps) =
          .inr (ofFileNames (names p ++ rest)) := by
  induction comps generalizing cur with
  | nil =>
      refine ⟨fun p hp => ?_, fun p rest hp => absurd hp (by simp [walk])⟩
      obtain rfl := Sum.inl.inj (Option.some.inj hp)
      rfl
  | cons c comps ih =>
      cases c with
      | here =>
          rw [walk]
          cases fs.tree.lookup cur with
          | none => simp
          | some e =>
              cases e with
              | dir entries => exact ih h
              | file content => simp
              | link isAbsolute target => simp
      | up =>
          rw [walk]
          cases fs.tree.lookup cur with
          | none => simp
          | some e =>
              cases e with
              | dir entries =>
                  have hup := ih (h.of_isPrefix (List.dropLast_prefix cur))
                  rwa [List.map_dropLast] at hup
              | file content => simp
              | link isAbsolute target => simp
      | name a =>
          have hscan : ofFileNames (.name a :: comps) = .name a.toPathName :: ofFileNames comps :=
            rfl
          rw [walk, hscan]
          cases hdir : fs.tree.lookup cur with
          | none => simp
          | some e =>
              cases e with
              | file content => simp
              | link isAbsolute target => simp
              | dir entries =>
                  cases hlookup : fs.tree.lookup (cur ++ [a]) with
                  | none => simp
                  | some e =>
                      cases e with
                      | link isAbsolute target =>
                          refine ⟨fun p hp => absurd hp (by simp), fun p rest hp => ?_⟩
                          obtain ⟨rfl, rfl⟩ := Prod.mk.inj (Sum.inr.inj (Option.some.inj hp))
                          rw [scan_of_link (readSymlink_of_link h hlookup), ofFileNames_append,
                            ofFileNames_names, ofFileNames_append, ← List.append_assoc]
                          cases isAbsolute <;> rfl
                      | file content =>
                          have hnext := ih (h.concat (a := a) (by simp [hlookup]))
                          rw [scan_of_none (readSymlink_eq_none h (by simp [hlookup]))]
                          rwa [List.map_append] at hnext
                      | dir entries =>
                          have hnext := ih (h.concat (a := a) (by simp [hlookup]))
                          rw [scan_of_none (readSymlink_eq_none h (by simp [hlookup]))]
                          rwa [List.map_append] at hnext

/-- The outer loop makes a pass for each link, and one more. -/
theorem canonicalLoop_of_resolve {n fuel : ℕ} {comps : List (Component FileName)}
    {place : List FileName} (hfuel : n < fuel) (h : resolve fs.tree n comps = .ok place) :
    (fs.tree.lookup place).isSome ∧
      fs.canonicalLoop fuel (ofFileNames comps) = some (place.map FileName.toPathName) := by
  have hroot : (fs.tree.lookup []).isSome := by simp [Entry.lookup_nil]
  induction fuel generalizing n comps with
  | zero => omega
  | succ fuel ih =>
      rw [resolve, resolveFrom.eq_def] at h
      cases hwalk : walk fs.tree [] comps with
      | none => simp [hwalk] at h
      | some x =>
          rw [hwalk] at h
          cases x with
          | inl p =>
              obtain rfl : p = place := Except.ok.inj h
              have hscan := (scan_eq_of_walk plain_nil).1 p hwalk
              rw [List.map_nil] at hscan
              refine ⟨((plain_of_walk plain_nil hroot).1 p hwalk).2, ?_⟩
              rw [canonicalLoop, hscan]
          | inr x =>
              obtain ⟨cur, rest⟩ := x
              cases n with
              | zero => exact absurd h (by simp)
              | succ n =>
                  obtain ⟨hplain, hsome⟩ := (plain_of_walk plain_nil hroot).2 cur rest hwalk
                  have hagain : resolve fs.tree n (names cur ++ rest) = .ok place := by
                    rw [resolve_names_append n hplain, if_pos hsome]
                    exact h
                  have hscan := (scan_eq_of_walk plain_nil).2 cur rest hwalk
                  rw [List.map_nil] at hscan
                  obtain ⟨hplace, hloop⟩ := ih (by omega) hagain
                  refine ⟨hplace, ?_⟩
                  rw [canonicalLoop, hscan]
                  exact hloop

/-- **`canonical` finds the place that the operating system finds.** The operating system bounds the
number of links that it follows, so fuel above this bound is enough. -/
theorem canonical_eq_of_resolve {comps : List (Component FileName)} {place : List FileName}
    {fuel : ℕ} (hfuel : fs.maxLinks < fuel)
    (h : resolve fs.tree fs.maxLinks comps = .ok place) :
    fs.canonical fuel (ofFileNames comps) = some (place.map FileName.toPathName) := by
  obtain ⟨hsome, hloop⟩ := canonicalLoop_of_resolve hfuel h
  obtain ⟨e, he⟩ := Option.isSome_iff_exists.mp hsome
  have hstatus : fs.status (ofFileNames comps) = .ok e := by
    simp [status, stat, cStr_ofFileNames, h, Entry.find, he]
  rw [canonical, hstatus]
  exact hloop

/-- **The file that a path without links names is where the path says**: it has the components
first that the path has before its first zero byte. -/
theorem prefix_of_unlinked {r root : List PathName} (h : fs.Unlinked r) (hroot : root <+: r)
    (hzero : ∀ c ∈ root, 0 ∉ c.text) {place : List FileName} {content : Bytes}
    (hplace : resolve fs.tree fs.maxLinks (cStr (names r)) = .ok place)
    (hfile : fs.tree.lookup place = some (.file content)) :
    root <+: place.map FileName.toPathName := by
  obtain ⟨pre, rfl | ⟨c, post, rfl, hc⟩⟩ := exists_fileNames r
  · rw [cStr_names, resolve_names fs.maxLinks (plain_of_unlinked h)] at hplace
    split_ifs at hplace
    obtain rfl := Except.ok.inj hplace
    exact hroot
  · -- the root ends before the zero byte
    have hpre : root <+: pre.map FileName.toPathName := by
      rcases List.prefix_or_prefix_of_prefix hroot (List.prefix_append _ _) with hpre | ⟨q, rfl⟩
      · exact hpre
      · cases q with
        | nil => simp
        | cons d q =>
            obtain ⟨rfl, -⟩ := List.cons_prefix_cons.mp ((List.prefix_append_right_inj _).mp hroot)
            exact absurd hc (hzero d (by simp))
    have hplain := plain_of_unlinked (h.of_isPrefix (List.prefix_append _ _))
    rw [cStr_zero pre hc] at hplace
    cases hname : cStrName c with
    | here =>
        rw [hname] at hplace
        rw [eq_of_resolve_here hplain hplace]
        exact hpre
    | up =>
        rw [hname] at hplace
        obtain ⟨entries, hdir⟩ := exists_dir_of_resolve_up hplain hplace
        exact absurd (hfile.symm.trans hdir) (by simp)
    | name a =>
        have hlink : fs.readSymlink (names (pre.map FileName.toPathName ++ [c])) = none :=
          h _ ((List.prefix_append_right_inj _).mpr (by simp)) (by simp)
        have hsnoc : names pre ++ [.name a] = names (pre ++ [a]) := by simp [names]
        rw [hname, hsnoc] at hplace
        have hplain' : Plain fs.tree (pre ++ [a]) := by
          refine hplain.concat fun isAbsolute target hlookup => ?_
          rw [readSymlink, cStr_zero pre hc, hname, hsnoc, lstat_names_concat fs.maxLinks hplain a,
            Entry.find, hlookup] at hlink
          exact absurd hlink (by simp)
        rw [resolve_names fs.maxLinks hplain'] at hplace
        split_ifs at hplace
        rw [← Except.ok.inj hplace, List.map_append]
        exact hpre.trans (List.prefix_append _ _)

/-- A regular file is read where it is: its status is that of the place to which the operating
system follows the path. -/
theorem status_eq_file {path : List (Component PathName)} {content : Bytes} :
    fs.status path = .ok (.file content) ↔
      ∃ place, resolve fs.tree fs.maxLinks (cStr path) = .ok place ∧
        fs.tree.lookup place = some (.file content) := by
  rw [status, stat]
  cases resolve fs.tree fs.maxLinks (cStr path) with
  | error e => simp
  | ok place =>
      cases hlookup : fs.tree.lookup place <;> simp [Entry.find, hlookup]

end FileSystem

namespace Bot

variable {fs : FileSystem}

/-- The file that is opened is a regular one. -/
theorem openFile_eq_some {path p : List PathName} {content : Bytes} :
    openFile fs path = some (some (p, content)) ↔
      ∃ isDirectory, fs.isDirectory (names path) = some isDirectory ∧
        p = indexPath path isDirectory ∧ fs.status (names p) = .ok (.file content) := by
  rw [openFile]
  cases fs.isDirectory (names path) with
  | none => simp
  | some isDirectory =>
      have hstatus : (∃ b, some isDirectory = some b ∧ p = indexPath path b ∧
          fs.status (names p) = .ok (.file content)) ↔
            indexPath path isDirectory = p ∧
              fs.status (names (indexPath path isDirectory)) = .ok (.file content) := by
        constructor
        · rintro ⟨b, hb, rfl, h⟩
          obtain rfl := Option.some.inj hb
          exact ⟨rfl, h⟩
        · rintro ⟨rfl, h⟩
          exact ⟨isDirectory, rfl, rfl, h⟩
      rw [hstatus]
      simp only [Option.bind_eq_bind, Option.bind_some, FileSystem.exist,
        FileSystem.isRegularFile, FileSystem.read]
      cases fs.status (names (indexPath path isDirectory)) with
      | error e => cases e <;> simp
      | ok e => cases e <;> simp

/-- **What is opened**: the file of a path that has passed the check, or the index behind it. The
path itself is below the root in both cases. -/
theorem opened_iff {fuel : ℕ} {requestPath : Bytes} {p : List PathName} :
    (∃ reply, defaultResource fs fuel requestPath = some reply ∧ reply.opened = some p) ↔
      ∃ root path content, webRootPath fs fuel = some root ∧
        fs.canonical fuel (names root ++ elements requestPath) = some path ∧ root <+: path ∧
          openFile fs path = some (some (p, content)) := by
  have hbad : (badRequestReply requestPath).opened ≠ some p := by simp [badRequestReply]
  rw [defaultResource]
  constructor
  · rintro ⟨reply, h, hopened⟩
    obtain ⟨root, hroot, h⟩ := Option.bind_eq_some_iff.mp h
    obtain ⟨there, -, h⟩ := Option.bind_eq_some_iff.mp h
    split_ifs at h
    · obtain ⟨path, hpath, h⟩ := Option.bind_eq_some_iff.mp h
      split_ifs at h with hbelow
      · obtain ⟨file, hfile, rfl⟩ := Option.map_eq_some_iff.mp h
        cases file with
        | none => exact absurd hopened hbad
        | some x =>
            obtain ⟨q, content⟩ := x
            obtain rfl : q = p := Option.some.inj hopened
            exact ⟨root, path, content, hroot, hpath, hbelow, hfile⟩
      · obtain rfl := Option.some.inj h
        exact absurd hopened hbad
    · obtain rfl := Option.some.inj h
      exact absurd hopened hbad
  · rintro ⟨root, path, content, hroot, hpath, hbelow, hfile⟩
    refine ⟨okReply p content, ?_, rfl⟩
    have hthere := (FileSystem.canonical_eq_some hpath).1
    simp [hroot, hthere, hpath, hbelow, hfile]

/-- The root of the web pages has no zero byte in its path. -/
theorem zero_notMem_webRootPath {fuel : ℕ} {root : List PathName}
    (h : webRootPath fs fuel = some root) : ∀ c ∈ root, 0 ∉ c.text := by
  refine FileSystem.noZero_of_canonical (FileSystem.noZero_names.mpr ?_) h
  refine List.forall_mem_append.mpr ⟨fun c hc => ?_, ?_⟩
  · obtain ⟨a, -, rfl⟩ := List.mem_map.mp hc
    exact a.zero_notMem
  · exact List.forall_mem_singleton.mpr webName.zero_notMem

/-- **When the files opened are below the root**: unless the index leads out. The equivalence has no
hypothesis: it holds for every tree, every bound on the links and every request, also one with a
zero byte. -/
theorem staysBelow_iff (fs : FileSystem) (fuel : ℕ) (requestPath : Bytes) :
    StaysBelow fs fuel requestPath ↔ ¬ IndexLeadsOut fs fuel requestPath := by
  constructor
  · rintro hstays ⟨root, path, place, content, hroot, hpath, hbelow, hdir, -, hplace, hfile, hout⟩
    have hstatus := FileSystem.status_eq_file.mpr ⟨place, hplace, hfile⟩
    obtain ⟨reply, hreply, hopened⟩ := opened_iff.mpr ⟨root, path, content, hroot, hpath, hbelow,
      openFile_eq_some.mpr ⟨true, hdir, rfl, hstatus⟩⟩
    exact hout (hstays reply root _ place hreply hroot hopened hplace)
  · intro hnot reply root p place hreply hroot hopened hplace
    obtain ⟨root', path, content, hroot', hpath, hbelow, hopen⟩ :=
      opened_iff.mp ⟨reply, hreply, hopened⟩
    obtain rfl := Option.some.inj (hroot.symm.trans hroot')
    obtain ⟨isDirectory, hdir, rfl, hstatus⟩ := openFile_eq_some.mp hopen
    obtain ⟨place', hplace', hfile⟩ := FileSystem.status_eq_file.mp hstatus
    obtain rfl := Except.ok.inj (hplace.symm.trans hplace')
    have hunlinked := FileSystem.unlinked_of_canonical hpath
    have hzero := zero_notMem_webRootPath hroot
    cases isDirectory with
    | false => exact FileSystem.prefix_of_unlinked hunlinked hbelow hzero hplace hfile
    | true =>
        -- the component appended behind the check may be a link
        cases hlink : fs.readSymlink (names (path ++ [indexName.toPathName])) with
        | none =>
            exact FileSystem.prefix_of_unlinked (hunlinked.concat hlink)
              (hbelow.trans (List.prefix_append path _)) hzero hplace hfile
        | some target =>
            by_contra hout
            exact hnot ⟨root, path, place, content, hroot, hpath, hbelow, hdir, by simp [hlink],
              hplace, hfile, hout⟩

/-- A name in the tree below. -/
def sampleName (text : Bytes) (legal : text ≠ [] ∧ text ≠ ascii "." ∧ text ≠ ascii "..")
    (hzero : 0 ∉ text) : FileName :=
  ⟨⟨text, legal⟩, hzero⟩

def srvName : FileName := sampleName (ascii "srv") (by decide) (by decide)

def docsName : FileName := sampleName (ascii "docs") (by decide) (by decide)

def secretName : FileName := sampleName (ascii "secret") (by decide) (by decide)

/-- The index of `/srv/web/docs` is a link to `/srv/secret`. -/
def linkedIndex : FileSystem where
  entries := [(srvName, .dir
    [(webName, .dir [(docsName, .dir [(indexName, .link true [.name srvName, .name secretName])])]),
      (secretName, .file (ascii "key"))])]
  workingDirectory := [srvName]
  maxLinks := 40

/-- **The secret is opened**: the link `index.html` below the root leads to a file that is not, and
the file is sent. -/
theorem not_staysBelow_linkedIndex : ¬ StaysBelow linkedIndex 41 (ascii "/docs") := by
  intro hstays
  have hbelow := hstays _ _ _ [srvName, secretName] rfl rfl rfl rfl
  exact absurd hbelow (by decide)

end Bot

end BoostIrc
