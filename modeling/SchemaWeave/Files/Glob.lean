import SchemaWeave.Files.Glob.Pattern
import SchemaWeave.Host

/-!
# Finding files by a pattern

`Glob.paths` lists the paths that a pattern matches. The pattern is taken apart at its slashes; a piece without wildcards is
followed without looking around, any other is compared with the names in a directory. Paths come component by component
in the order of their bytes, and a path that a pattern reaches in several ways comes as often.
-/

namespace SchemaWeave.Files

/-- A directory that could not be read. -/
structure GlobError where
  path : Path
  error : OsError

def GlobError.message (e : GlobError) : String :=
  s!"attempting to read `{e.path}` resulted in an error: {e.error.message}"

namespace Glob

/-- A pattern taken apart: where the search starts, the patterns of its pieces, and whether only directories count. -/
structure Search where
  start : Path
  patterns : List Pattern
  directoriesOnly : Bool

/-- The pieces of a pattern behind its root. A slash at the end makes no piece of its own. -/
def patternPieces (text : List Char) : List (List Char) :=
  match text with
  | [] => []
  | _ =>
    let pieces := splitSlashes text
    if text.getLast? == some '/' then pieces.dropLast else pieces

/-- Takes a pattern apart. -/
def Search.ofText (text : List Char) : Except PatternError Search := do
  let _ ← Pattern.parse text
  let (start, rest) : Path × List Char := match text with
    | '/' :: rest => ("/", rest)
    | text => (".", text)
  let patterns ← (patternPieces rest).mapM Pattern.parse
  let patterns := if rest.isEmpty && !text.isEmpty then [[]] else patterns
  return { start, patterns, directoriesOnly := text.getLast? == some '/' }

variable {m : Type → Type} [Monad m] [Host m]

/-- What a search finds: paths, and directories that could not be read, in order. -/
abbrev Found := List (Except GlobError Path)

/-- The path of an entry; the entries of the working directory have their names alone. -/
def entryPath (directory name : Path) : Path := if directory.isCurrent then name else Path.join directory name

/-- A path that a search has come to, with whether it is a directory. An entry is what its directory says of it, so nothing is
asked of its path, which may be too long; of any other path the system is asked. -/
structure Spot where
  path : Path
  isDir : Bool

def Spot.ofPath (p : Path) : m Spot := do return { path := p, isDir := ← Host.isDir p }

/-- An entry of a directory. -/
def Spot.entry (directory : Path) (e : String × Bool) : Spot := { path := entryPath directory e.1, isDir := e.2 }

/-- What is found where all patterns have led to. -/
def arrived (directoriesOnly : Bool) (s : Spot) : Found := if directoriesOnly && !s.isDir then [] else [.ok s.path]

/-- The patterns behind those for directories at any depth that come first. -/
def dropRecursive (patterns : List Pattern) : List Pattern := patterns.dropWhile Pattern.isRecursive

/-- The deepest path that is looked into: no path of the system has more components. -/
def deepest : Nat := 4096

mutual

/-- What the patterns find from a spot on; `bound` limits the number of steps down. -/
def descend (directoriesOnly : Bool) : (bound : Nat) → List Pattern → Spot → m Found
  | _, [], s => return arrived directoriesOnly s
  | 0, _ :: _, _ => return []
  | bound + 1, pattern :: patterns, s =>
    let onward (next : Path) : m Found := do descend directoriesOnly bound patterns (← Spot.ofPath next)
    match pattern.literal? with
    | some name => do
      let name := String.ofList name
      let next := entryPath s.path name
      let special := name = "." || name = ".."
      if (special && s.isDir) || (!special && (← Host.pathExists next)) then onward next else return []
    | none => do
      if !s.isDir then return []
      match ← Host.entries s.path with
      | .error e => return [.error ⟨s.path, e⟩]
      | .ok entries =>
        let specials := if pattern.head? = some (.char '.') then ["..", "."] else []
        let special ← (specials.filter fun d => pattern.isMatch d.toList).mapM fun d => onward (Path.join s.path d)
        let children ← (entries.mergeSort fun e e' => e.1 ≤ e'.1).mapM fun e =>
          visit directoriesOnly bound (pattern :: patterns) (Spot.entry s.path e) e.1
        return special.flatten ++ children.flatten

/-- What the patterns find at an entry of a directory and below it, the first pattern being for the entry's name. -/
def visit (directoriesOnly : Bool) : (bound : Nat) → List Pattern → Spot → (name : String) → m Found
  | 0, _, _, _ => return []
  | bound + 1, patterns, s, name => do
    let isRecursive := (patterns.head?.map Pattern.isRecursive).getD false
    let further := if isRecursive then dropRecursive patterns else patterns
    let here ← match further with
      | [] => pure (arrived true s)
      | pattern :: rest => if pattern.isMatch name.toList then descend directoriesOnly bound rest s else pure []
    let below ← if isRecursive && s.isDir then descend directoriesOnly bound ([.directories] :: further) s else pure []
    return here ++ below

end

/-- The paths that a pattern matches, or the fault of the pattern. -/
def paths (text : String) : m (Except PatternError Found) := do
  match Search.ofText text.toList with
  | .error e => return .error e
  | .ok search =>
    if search.patterns.isEmpty then return .ok []
    else
      let start ← Spot.ofPath search.start
      return .ok (← descend search.directoriesOnly (2 * (deepest + search.patterns.length)) search.patterns start)

end Glob

end SchemaWeave.Files
