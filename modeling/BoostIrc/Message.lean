import BoostIrc.Bytes
import BoostIrc.Pattern

/-!
# The IRC Message Parser

`Message` is the parsed form of one line from the IRC server. Its constructor
(`Message.ofRaw`) searches the line for one regular expression (`expr`) and reads the
fields off the captures. The expression is written here piece by piece, as the source
writes it, over the backtracking patterns of `BoostIrc.Pattern`.

Two features of the regex engine matter. Without flags, `.` and the negated classes match
every byte, line breaks included; and `^` and `$` match at line breaks as well as at the
ends of the subject (`startLine`, `endLine`).
-/

open Backtrack

namespace BoostIrc

/-- The bytes that the engine takes for line breaks. -/
def isSeparator (b : Byte) : Bool :=
  b == LF || b == CR || b == FF

/-- `^`: the start of the subject, or just after a line break, but not inside CR LF. -/
def startLine : Option Byte → Option Byte → Bool
  | none, _ => true
  | some p, none => isSeparator p
  | some p, some n => isSeparator p && !(p == CR && n == LF)

/-- `$`: the end of the subject, or just before a line break, but not inside CR LF. -/
def endLine : Option Byte → Option Byte → Bool
  | _, none => true
  | p, some n => isSeparator n && !(p == some CR && n == LF)

/-- `(?:@(.*?)\ )?`: the tags, capture 1. -/
def tagsExpr : Pattern Byte :=
  .opt (.all [.lit AT, .group 1 (.lazyStar .any), .lit SP])

/-- `(?:!([^@]*))?`: the user, capture 4. -/
def userExpr : Pattern Byte :=
  .opt (.all [.lit BANG, .group 4 (.star (.noneOf [AT]))])

/-- `@([^\ ]*)`: the host, capture 5. -/
def hostExpr : Pattern Byte :=
  .all [.lit AT, .group 5 (.star (.noneOf [SP]))]

/-- `(?:(?:!([^@]*))?@([^\ ]*))?`: user and host. -/
def userHostExpr : Pattern Byte :=
  .opt (.all [userExpr, hostExpr])

/-- `(?::(([^@!\ ]*) ...)\ )?`: the prefix, capture 2, and in it the nick, capture 3. -/
def prefixExpr : Pattern Byte :=
  .opt (.all [
    .lit COLON,
    .group 2 (.all [.group 3 (.star (.noneOf [AT, BANG, SP])), userHostExpr]),
    .lit SP])

/-- `([^\ ]+)`: the command, capture 6. -/
def commandExpr : Pattern Byte :=
  .group 6 (.plus (.noneOf [SP]))

/-- `\ [^:\ ][^\ ]*`: a space and one middle parameter. -/
def middleExpr : Pattern Byte :=
  .all [.lit SP, .noneOf [COLON, SP], .star (.noneOf [SP])]

/-- `((?: ... ){0,14})`: the middle parameters, capture 7. -/
def paramsExpr : Pattern Byte :=
  .group 7 (.upTo 14 middleExpr)

/-- `(?:\ :?(.*))?`: the rest of the line, capture 8. -/
def restExpr : Pattern Byte :=
  .opt (.all [.lit SP, .opt (.lit COLON), .group 8 (.star .any)])

/-- The whole **message expression**. -/
def expr : Pattern Byte :=
  .all [.look startLine, tagsExpr, prefixExpr, commandExpr, paramsExpr, restExpr, .look endLine]

/-- A parsed message. The map of tags is kept as its entries, in the order in which they
were inserted. A line that the expression rejects leaves every field empty. -/
structure Message where
  raw : Bytes := []
  tags : List (Bytes × Bytes) := []
  pfx : Bytes := []
  nickname : Bytes := []
  user : Bytes := []
  host : Bytes := []
  command : Bytes := []
  params : List Bytes := []
  deriving DecidableEq, Repr

namespace Message

/-- `std::map::insert`: a key that is present keeps its value. -/
def insertTag (tags : List (Bytes × Bytes)) (key value : Bytes) : List (Bytes × Bytes) :=
  if tags.any (·.1 == key) then tags else tags ++ [(key, value)]

/-- One round of the loop over the tags: split at the equals signs, and insert a tag of
one or two parts whose key is not empty. -/
def addTag (tags : List (Bytes × Bytes)) (text : Bytes) : List (Bytes × Bytes) :=
  let tag := text.splitOn EQUALS
  if 0 < (tag.headD []).length then
    match tag with
    | [key, value] => insertTag tags key value
    | [key] => insertTag tags key []
    | _ => tags
  else
    tags

/-- The fields as the constructor reads them off the captures `what`. Every split has at
least one element, so the first can be erased; and the last parameter is pushed whether or
not the rest of the line is empty, for the condition before it ends in a semicolon. -/
def ofCaptures (raw : Bytes) (what : ℕ → Bytes) : Message where
  raw := raw
  tags := ((what 1).splitOn SEMICOLON).foldl addTag []
  pfx := what 2
  nickname := what 3
  user := what 4
  host := what 5
  command := what 6
  params := ((what 7).splitOn SP).drop 1 ++ [what 8]

/-- **The constructor `Message(raw)`.** A capture that took no part in the match converts
to the empty string. -/
def ofRaw (raw : Bytes) : Message :=
  match Pattern.search expr raw with
  | none => {}
  | some captures => ofCaptures raw fun i => (captures i).getD []

end Message

end BoostIrc
