import SchemaWeave.Text.Hex
import SchemaWeave.Yaml.Cursor
import SchemaWeave.Yaml.Fault

/-!
# Anchors, tags and directives

An anchor names a node for later aliases. A tag gives a node a type; it is written out, or abbreviated by a handle that a
directive or the standard defines. Directives stand before a document.
-/

namespace SchemaWeave.Yaml

open Text

/-- Characters that may stand directly behind a name. -/
def mayFollowName (cs : List Char) : Bool :=
  endsWord cs || (cs.head?.map fun c => ['?', ':', ',', ']', '}', '%', '@', '\x60'].contains c).getD false

/-- The name of an anchor or an alias, after its sign. -/
def readName (c : Cursor) : Except Fault (String × Cursor) :=
  let name := c.rest.takeWhile isWordChar
  let rest := c.rest.dropWhile isWordChar
  if name.isEmpty || !mayFollowName rest then .error .name else .ok (String.ofList name, c.after rest)

/-- A character of a tag; `verbatim` says whether punctuation of lists counts. -/
def isTagChar (verbatim : Bool) (c : Char) : Bool :=
  isWordChar c ||
  [';', '/', '?', ':', '@', '&', '=', '+', '$', '.', '%', '!', '~', '*', '\x27', '(', ')'].contains c ||
  (verbatim && [',', '[', ']'].contains c)

/-- A byte in two hexadecimal digits after a percent sign. -/
def readOctet : List Char → Except Fault (Nat × List Char)
  | '%' :: a :: b :: cs =>
    match hexValue? a, hexValue? b with
    | some a, some b => .ok (a * 16 + b, cs)
    | _, _ => .error .tag
  | _ => .error .tag

/-- The number of bytes of a character, by its first byte. -/
def octetCount? (first : Nat) : Option Nat :=
  if first < 0x80 then some 1
  else if 0xC0 ≤ first ∧ first < 0xE0 then some 2
  else if 0xE0 ≤ first ∧ first < 0xF0 then some 3
  else if 0xF0 ≤ first ∧ first < 0xF8 then some 4
  else none

/-- More bytes of a character. -/
def readOctets : (count : Nat) → List Char → Except Fault (List Nat × List Char)
  | 0, cs => .ok ([], cs)
  | count + 1, cs => do
    let (octet, cs) ← readOctet cs
    if octet < 0x80 ∨ 0xC0 ≤ octet then throw .tag
    let (octets, cs) ← readOctets count cs
    return (octet :: octets, cs)

/-- The text of some bytes. -/
def textOfOctets (octets : List Nat) : List Char :=
  ((String.fromUTF8? (octets.map UInt8.ofNat).toByteArray).map String.toList).getD ['\ufffd']

/-- A character of a tag that is written as bytes. -/
def readEscapedTagChar (cs : List Char) : Except Fault (List Char × List Char) := do
  let (first, cs) ← readOctet cs
  match octetCount? first with
  | none => throw .tag
  | some count =>
    let (octets, cs) ← readOctets (count - 1) cs
    return (textOfOctets (first :: octets), cs)

/-- The characters of a tag, at most `bound` of them. -/
def readTagChars (verbatim : Bool) : (bound : Nat) → List Char → Except Fault (List Char × List Char)
  | 0, cs => .ok ([], cs)
  | _ + 1, [] => .ok ([], [])
  | bound + 1, c :: cs =>
    if !isTagChar verbatim c then .ok ([], c :: cs)
    else if c = '%' then do
      let (text, cs) ← readEscapedTagChar (c :: cs)
      let (more, cs) ← readTagChars verbatim bound cs
      return (text ++ more, cs)
    else do
      let (more, cs) ← readTagChars verbatim bound cs
      return (c :: more, cs)

/-- The characters of a tag, of which there has to be one. -/
def readTagText (verbatim : Bool) (cs : List Char) : Except Fault (List Char × List Char) := do
  let (text, rest) ← readTagChars verbatim cs.length cs
  if text.isEmpty then throw .tag
  return (text, rest)

/-- The prefixes that tag handles stand for. -/
abbrev TagHandles := List (String × String)

/-- The handles that need no directive. -/
def standardHandles : TagHandles := [("!", "!"), ("!!", "tag:yaml.org,2002:")]

/-- A tag from its handle and the rest of it. -/
def resolveTag (handles : TagHandles) (handle : String) (text : List Char) : Except Fault String :=
  match (handles ++ standardHandles).lookup handle with
  | some start => .ok (start ++ String.ofList text)
  | none => .error (.undefinedHandle handle)

/-- The tag that only says that there is one. -/
def bareTag : String := "!"

/-- A tag without a handle of its own, after its exclamation mark. -/
def readLocalTag (handles : TagHandles) (cs : List Char) : Except Fault (String × List Char) := do
  let (text, rest) ← readTagChars false cs.length cs
  if text.isEmpty then return (bareTag, rest)
  else return (← resolveTag handles "!" text, rest)

/-- A tag after its exclamation mark, as far as it goes. -/
def readTagParts (handles : TagHandles) : List Char → Except Fault (String × List Char)
  | '<' :: cs => do
    let (text, rest) ← readTagText true cs
    match rest with
    | '>' :: rest => return (String.ofList text, rest)
    | _ => throw .tag
  | cs =>
    match cs.dropWhile isWordChar with
    | '!' :: rest => do
      let (text, rest) ← readTagText false rest
      return (← resolveTag handles (String.ofList ('!' :: cs.takeWhile isWordChar ++ ['!'])) text, rest)
    | _ => readLocalTag handles cs

/-- A tag after its exclamation mark. -/
def readTag (handles : TagHandles) (flow : Bool) (c : Cursor) : Except Fault (String × Cursor) := do
  let (tag, rest) ← readTagParts handles c.rest
  if endsWord rest || (flow && rest.head? == some ',') then return (tag, c.after rest) else throw .tag

/-- What the directives before a document say. -/
structure Directives where
  handles : TagHandles := []
  /-- whether a version was given -/
  hasVersion : Bool := false

/-- Digits, at least one and not more than nine of them. -/
def readVersionNumber (cs : List Char) : Except Fault (Nat × List Char) :=
  let digits := cs.takeWhile Char.isDigit
  if digits.isEmpty || 9 < digits.length then .error .directive
  else .ok (digits.foldl (fun n c => n * 10 + (c.toNat - '0'.toNat)) 0, cs.dropWhile Char.isDigit)

/-- The version in a directive: one of the two that are known. -/
def readVersion (d : Directives) (cs : List Char) : Except Fault (Directives × List Char) := do
  let (major, cs) ← readVersionNumber (cs.dropWhile isBlank)
  match cs with
  | '.' :: cs =>
    let (minor, cs) ← readVersionNumber cs
    if d.hasVersion || major != 1 || !(minor == 1 || minor == 2) then throw .directive
    return ({ d with hasVersion := true }, cs)
  | _ => throw .directive

/-- A handle in a directive. -/
def readHandle : List Char → Except Fault (String × List Char)
  | '!' :: cs =>
    let word := cs.takeWhile isWordChar
    match cs.dropWhile isWordChar with
    | '!' :: rest => .ok (String.ofList ('!' :: word ++ ['!']), rest)
    | rest => if word.isEmpty then .ok ("!", rest) else .error .directive
  | _ => .error .directive

/-- The handle in a directive and what it stands for. -/
def readHandleDirective (d : Directives) (cs : List Char) : Except Fault (Directives × List Char) := do
  let (handle, cs) ← readHandle (cs.dropWhile isBlank)
  if !(cs.head?.any isBlank) then throw .directive
  let (start, cs) ← readTagText true (cs.dropWhile isBlank)
  if !endsWord cs || (d.handles.lookup handle).isSome then throw .directive
  return ({ d with handles := (handle, String.ofList start) :: d.handles }, cs)

/-- A directive after its percent sign, without the end of its line. -/
def readDirective (d : Directives) (cs : List Char) : Except Fault (Directives × List Char) :=
  let rest := cs.dropWhile isWordChar
  if !endsWord rest then .error .directive
  else if cs.takeWhile isWordChar == "YAML".toList then readVersion d rest
  else if cs.takeWhile isWordChar == "TAG".toList then readHandleDirective d rest
  else .error .directive

end SchemaWeave.Yaml
