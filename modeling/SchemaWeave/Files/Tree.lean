import SchemaWeave.Files.Path

/-!
# File trees

A tree of files and directories, and the operations of an operating system on it: a path is followed piece by piece from
the root or the working directory (`locate`), a file is read or written whole. Every operation that fails says why, and
leaves the tree as it was. Writing needs the directory of the file to be there.
-/

namespace SchemaWeave.Files

/-- Why an operation on files fails. -/
inductive OsError
  | notFound
  | notDirectory
  | isDirectory
  | nameTooLong
  | nulByte
  | notUtf8
  /-- any other reason, as the system words it -/
  | other (message : String)
  deriving DecidableEq

def OsError.message : OsError → String
  | notFound => "No such file or directory (os error 2)"
  | notDirectory => "Not a directory (os error 20)"
  | isDirectory => "Is a directory (os error 21)"
  | nameTooLong => "File name too long (os error 36)"
  | nulByte => "file name contained an unexpected NUL byte"
  | notUtf8 => "stream did not contain valid UTF-8"
  | other message => message

/-- A file with its bytes, or a directory with its entries. -/
inductive FileTree
  | file (content : ByteArray)
  | dir (entries : List (String × FileTree))

/-- The names from the root down to a place in a tree. -/
abbrev Place := List String

namespace FileTree

def isDir : FileTree → Bool
  | dir _ => true
  | file _ => false

/-- The tree at a place. -/
def get? : Place → FileTree → Option FileTree
  | [], t => some t
  | _ :: _, file _ => none
  | name :: place, dir entries => (entries.lookup name).bind (get? place)

/-- Entries with a tree under a name, in place of the one there or behind all others. -/
def putEntry (name : String) (t : FileTree) : List (String × FileTree) → List (String × FileTree)
  | [] => [(name, t)]
  | (n, u) :: entries => if n = name then (n, t) :: entries else (n, u) :: putEntry name t entries

/-- The tree with another one at a place; directories on the way are made where nothing is. -/
def put (t : FileTree) : Place → FileTree → FileTree
  | [], _ => t
  | _ :: _, file content => file content
  | name :: place, dir entries => dir (putEntry name (put t place ((entries.lookup name).getD (dir []))) entries)

/-- The longest name of an entry, in bytes. -/
def longestName : Nat := 255

/-- The bytes of a path at which it is too long. -/
def longestPath : Nat := 4096

/-- One piece of a path from a place: an empty piece and a dot stay, two dots lead up, a name leads down. -/
def follow (root : FileTree) (place : Place) (piece : String) : Except OsError Place :=
  match root.get? place with
  | none => .error .notFound
  | some (file _) => .error .notDirectory
  | some (dir entries) =>
    if piece = "" ∨ piece = "." then .ok place
    else if piece = ".." then .ok place.dropLast
    else if longestName < piece.utf8ByteSize then .error .nameTooLong
    else if (entries.lookup piece).isSome then .ok (place ++ [piece])
    else .error .notFound

/-- The pieces of a path, as texts. -/
def pieces (p : Path) : List String := (splitSlashes p.toList).map String.ofList

/-- Where a path starts. -/
def startOf (current : Place) (p : Path) : Place := if p.isAbsolute then [] else current

/-- The faults of a path that show before it is followed. -/
def checkPath (p : Path) : Except OsError Unit :=
  if p.toList.contains '\x00' then .error .nulByte
  else if p.isEmpty then .error .notFound
  else if longestPath ≤ p.utf8ByteSize then .error .nameTooLong
  else .ok ()

/-- The place that a path leads to. -/
def locate (root : FileTree) (current : Place) (p : Path) : Except OsError Place := do
  checkPath p
  (pieces p).foldlM (follow root) (startOf current p)

/-- What a path leads to. -/
def find (root : FileTree) (current : Place) (p : Path) : Except OsError FileTree := do
  let place ← locate root current p
  match root.get? place with
  | some t => return t
  | none => throw .notFound

/-- The bytes of a file. -/
def read (root : FileTree) (current : Place) (p : Path) : Except OsError ByteArray := do
  match ← find root current p with
  | file content => return content
  | dir _ => throw .isDirectory

/-- The place of a file that is to be written: its directory has to be there, and the file may be. -/
def locateForWriting (root : FileTree) (current : Place) (p : Path) : Except OsError Place := do
  checkPath p
  let back := (pieces p).reverse
  let named := back.dropWhile (· = "")
  match named with
  | [] => throw .isDirectory
  | last :: init => do
    let place ← init.reverse.foldlM (follow root) (startOf current p)
    match root.get? place with
    | none => throw .notFound
    | some (file _) => throw .notDirectory
    | some (dir entries) =>
      if last = "." ∨ last = ".." then throw .isDirectory
      else if longestName < last.utf8ByteSize then throw .nameTooLong
      else if named.length < back.length then throw .isDirectory
      else match entries.lookup last with
        | some (dir _) => throw .isDirectory
        | _ => return place ++ [last]

/-- Writes a file, in place of the one that is there. -/
def write (root : FileTree) (current : Place) (p : Path) (content : ByteArray) : Except OsError FileTree := do
  let place ← locateForWriting root current p
  return put (file content) place root

/-- Whether some entries have a directory under a name. -/
def hasDir (entries : List (String × FileTree)) (name : String) : Bool := (entries.lookup name).any isDir

/-- What a directory says of its entries: their names, and whether each is a directory. -/
def listing (entries : List (String × FileTree)) : List (String × Bool) := entries.map fun e => (e.1, hasDir entries e.1)

/-- What the directory that a path leads to says of its entries. -/
def entries (root : FileTree) (current : Place) (p : Path) : Except OsError (List (String × Bool)) := do
  match ← find root current p with
  | dir entries => return listing entries
  | file _ => throw .notDirectory

end FileTree

end SchemaWeave.Files
