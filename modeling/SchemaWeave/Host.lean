import SchemaWeave.Files.Tree
import SchemaWeave.Http.Library

/-!
# What a run asks of its surroundings

Files, a network and a clock. A run is written once, over any monad that offers them: `World` answers from a value, and the
command line from the operating system.
-/

namespace SchemaWeave

open Files Http

/-- The services that a run uses. -/
class Host (m : Type → Type) where
  /-- the absolute path of the working directory -/
  currentDir : m Path
  /-- whether a path leads to a directory -/
  isDir : Path → m Bool
  /-- whether a path leads to a regular file -/
  isFile : Path → m Bool
  /-- the names of a directory's entries, and whether each entry is a directory -/
  entries : Path → m (Except OsError (List (String × Bool)))
  /-- the bytes of a file -/
  readFile : Path → m (Except OsError ByteArray)
  /-- writes a file, in place of the one that is there -/
  writeFile : Path → ByteArray → m (Except OsError Unit)
  /-- sends a request and waits for the response; an error says why there is none -/
  exchange : Request → m (Except String Response)
  /-- the library that requests are sent with -/
  library : m Library
  /-- hundredths of a second since some moment -/
  clock : m Nat

namespace Host

variable {m : Type → Type} [Monad m] [Host m]

/-- Whether anything is at a path. -/
def pathExists (p : Path) : m Bool := do
  if ← isDir p then return true else isFile p

/-- The text of a file. -/
def readText (p : Path) : m (Except OsError String) := do
  match ← readFile p with
  | .error e => return .error e
  | .ok bytes =>
    match String.fromUTF8? bytes with
    | none => return .error .notUtf8
    | some text => return .ok text

end Host

/-- Files, a working directory, and a network that may answer a request. -/
structure World where
  files : FileTree
  current : Place := []
  /-- the response to a request, or why there is none; it may depend on what led to the request -/
  network : Request → Except String Response
  library : Library := .plain
  /-- the requests that were sent, the last one first -/
  sent : List Request := []

namespace World

/-- The text of a place. -/
def placeText (p : Place) : Path := "/" ++ "/".intercalate p

instance : Host (StateM World) where
  currentDir := do return placeText (← get).current
  isDir p := do
    let w ← get
    match w.files.find w.current p with
    | .ok t => return t.isDir
    | .error _ => return false
  isFile p := do
    let w ← get
    match w.files.find w.current p with
    | .ok t => return !t.isDir
    | .error _ => return false
  entries p := do
    let w ← get
    return w.files.entries w.current p
  readFile p := do
    let w ← get
    return w.files.read w.current p
  writeFile p content := do
    let w ← get
    match w.files.write w.current p content with
    | .ok files =>
      set { w with files }
      return .ok ()
    | .error e => return .error e
  exchange r := do
    let w ← get
    set { w with sent := r :: w.sent }
    return w.network r
  library := do return (← get).library
  clock := return 0

end World

end SchemaWeave
