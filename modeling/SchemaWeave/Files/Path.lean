/-!
# Paths

A path is a text. Its components are the pieces between slashes, without the empty ones and without dots, except for a dot
at the start of a relative path. `parent?` drops the last component, `join` appends a path, and `popped` is the list of a
path and what is left of it as components are dropped one by one.
-/

namespace SchemaWeave.Files

abbrev Path := String

/-- The pieces of a text between slashes. -/
def splitSlashes : List Char → List (List Char)
  | [] => [[]]
  | c :: cs =>
    if c = '/' then [] :: splitSlashes cs
    else match splitSlashes cs with
      | [] => [[c]]
      | piece :: pieces => (c :: piece) :: pieces

/-- Pieces put together with slashes between them. -/
def joinSlashes : List (List Char) → List Char
  | [] => []
  | [piece] => piece
  | piece :: pieces => piece ++ '/' :: joinSlashes pieces

namespace Path

/-- Whether a path starts at the root. -/
def isAbsolute (p : Path) : Bool := p.toList.head? == some '/'

/-- A path as its head, which is a slash, a dot or nothing, and the pieces behind it. -/
def split (p : Path) : List Char × List (List Char) :=
  match p.toList with
  | '/' :: cs => (['/'], splitSlashes cs)
  | ['.'] => (['.'], splitSlashes [])
  | '.' :: '/' :: cs => (['.'], splitSlashes ('/' :: cs))
  | cs => ([], splitSlashes cs)

/-- A piece that is no component. -/
def isEmptyPiece (piece : List Char) : Bool := piece.isEmpty || piece == ['.']

/-- Whether a relative path stays where it is: it has no component but a dot. -/
def isCurrent (p : Path) : Bool := p.split.1 == ['.'] && p.split.2.all isEmptyPiece

/-- The path without its last component; the root and the empty path have none to drop. -/
def parent? (p : Path) : Option Path :=
  let (head, pieces) := p.split
  match pieces.reverse.dropWhile isEmptyPiece with
  | [] => if head == ['.'] then some "" else none
  | _ :: rest => some (String.ofList (head ++ joinSlashes (rest.dropWhile isEmptyPiece).reverse))

/-- The last component of a path, unless it leads up or nowhere. -/
def fileName? (p : Path) : Option String :=
  match p.split.2.reverse.dropWhile isEmptyPiece with
  | [] => none
  | piece :: _ => if piece == ['.', '.'] then none else some (String.ofList piece)

/-- The extension of a path: what follows the last point of its last component, if anything comes before the point. -/
def extension? (p : Path) : Option String :=
  match p.fileName? with
  | none => none
  | some name =>
    let back := name.toList.reverse
    match back.dropWhile (· != '.') with
    | [] | [_] => none
    | _ :: _ => some (String.ofList (back.takeWhile (· != '.')).reverse)

/-- A path behind another; an absolute path stands alone. -/
def join (p q : Path) : Path :=
  if isAbsolute q then q
  else if p.isEmpty || p.toList.getLast? == some '/' then p ++ q
  else p ++ "/" ++ q

/-- A path and its parents, the nearest first; `bound` limits their number. -/
def poppedUpTo : (bound : Nat) → Path → List Path
  | 0, p => [p]
  | bound + 1, p => p :: (match p.parent? with
    | none => []
    | some parent => poppedUpTo bound parent)

/-- A path and its parents. Each parent is shorter, so no more than the length of the path can come. -/
def popped (p : Path) : List Path := poppedUpTo p.length p

end Path

end SchemaWeave.Files
