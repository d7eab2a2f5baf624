import SchemaWeave.Command.Switch
import SchemaWeave.Config.Basic

/-!
# Reading the command line

`Invocation.ofArguments` tells what a command line asks for. Words are read from left to right, so the first of several
reasons to stop counts: a misuse, a call for help, or the question for the version. The value of a switch may stand behind
an equals sign, directly behind the switch's letter, or as the next word, if that starts with no dash.
-/

namespace SchemaWeave.Command

open Files (Path)

/-- Why a command line cannot be read. -/
inductive UsageError
  | unknownSwitch (text : String)
  | unexpectedValue (s : Switch)
  | missingValue (s : Switch)
  | invalidValue (s : Switch) (value : String)
  | repeated (s : Switch)
  | unexpectedWord (text : String)
  | noCommand
  deriving DecidableEq

def UsageError.message : UsageError → String
  | unknownSwitch text => s!"unexpected argument '{text}' found"
  | unexpectedValue s => s!"unexpected value for '--{s.long}' found; no more were expected"
  | missingValue s => s!"a value is required for '--{s.long}' but none was supplied"
  | invalidValue s value => s!"invalid value '{value}' for '--{s.long}'"
  | repeated s => s!"the argument '--{s.long}' cannot be used multiple times"
  | unexpectedWord text => s!"unexpected argument '{text}' found"
  | noCommand => "a subcommand is required"

/-- What is given to the command. -/
structure Arguments where
  config : Option Path := none
  quiet : Bool := false
  noProgress : Bool := false
  settings : Config := {}
  headers : List String := []
  timeout : Option Nat := none

/-- What a command line asks for. -/
inductive Invocation
  | introspect (arguments : Arguments)
  | help (level : Level)
  | version
  | misuse (error : UsageError)

/-- A part of the command line is read, or the whole of it asks for something else. -/
abbrev Parsed (α : Type) := Except Invocation α

/-- Arguments behind the command together with those before it: where both give a value, the one behind counts. -/
def Arguments.layer (behind before : Arguments) : Arguments :=
  { behind with
    config := behind.config <|> before.config
    quiet := behind.quiet || before.quiet
    noProgress := behind.noProgress || before.noProgress }

/-- The number in a text of decimal digits, with a plus sign or without, if it fits a word. -/
def wordOfText? (text : String) : Option Nat :=
  let digits := match text.toList with
    | '+' :: cs => cs
    | cs => cs
  if digits.isEmpty || !digits.all Char.isDigit then none
  else
    let n := digits.foldl (fun n c => n * 10 + (c.toNat - '0'.toNat)) 0
    if n < Nat.pow 2 64 then some n else none

/-- A truth value as a switch takes it. -/
def boolOfText? (text : String) : Option Bool :=
  if text = "true" then some true else if text = "false" then some false else none

/-- A path that is not empty. -/
def pathOfText? (text : String) : Option Path := if text.isEmpty then none else some text

/-- The value of a switch, put into arguments. -/
def Arguments.setValue (a : Arguments) (s : Switch) (value : String) : Option Arguments :=
  match s with
  | .config => (pathOfText? value).map fun p => { a with config := some p }
  | .output => (pathOfText? value).map fun p => { a with settings := { a.settings with output := some p } }
  | .remote => some { a with settings := { a.settings with remote := some value } }
  | .client => some { a with settings := { a.settings with client := some value } }
  | .insecure => (boolOfText? value).map fun b => { a with settings := { a.settings with insecure := some b } }
  | .header => some { a with headers := a.headers ++ [value] }
  | .timeout => (wordOfText? value).map fun n => { a with timeout := some n }
  | .quiet | .noProgress | .help | .version => none

/-- A switch without a value, put into arguments. -/
def Arguments.setBare (a : Arguments) (s : Switch) : Parsed Arguments :=
  match s with
  | .quiet => .ok { a with quiet := true }
  | .noProgress => .ok { a with noProgress := true }
  | .insecure => .ok { a with settings := { a.settings with insecure := some true } }
  | s => .error (.misuse (.missingValue s))

/-- What was read of a level. -/
structure Progress where
  arguments : Arguments := {}
  /-- the switches that came -/
  seen : List Switch := []
  /-- the last switch, if its value is a word of its own, and that word if it has come -/
  pending : Option (Switch × Option String) := none

namespace Progress

/-- Takes a switch with its value. -/
def take (p : Progress) (s : Switch) (value : Option String) : Parsed Progress := do
  let arguments ← match value with
    | none => p.arguments.setBare s
    | some v =>
      match p.arguments.setValue s v with
      | some a => .ok a
      | none => .error (.misuse (.invalidValue s v))
  if p.seen.contains s && !s.isRepeatable then throw (.misuse (.repeated s))
  return { arguments, seen := s :: p.seen, pending := none }

/-- Takes the switch whose value may have been a word of its own. -/
def settle (p : Progress) : Parsed Progress :=
  match p.pending with
  | none => .ok p
  | some (s, value) => p.take s value

/-- Takes a switch that has no value, or stops at one that asks for something else. -/
def takeFlag (level : Level) (s : Switch) (p : Progress) : Parsed Progress := do
  let p ← p.settle
  match s with
  | .help => throw (.help level)
  | .version => throw .version
  | s => p.take s none

/-- Takes a switch whose value is given with it, or keeps it until the next word. -/
def takeValued (s : Switch) (value : Option String) (p : Progress) : Parsed Progress := do
  let p ← p.settle
  match value with
  | some v => p.take s (some v)
  | none => return { p with pending := some (s, none) }

/-- Takes a switch by its name. -/
def takeLong (level : Level) (name : String) (value : Option String) (p : Progress) : Parsed Progress :=
  match Switch.ofLong? level name with
  | none => .error (.misuse (.unknownSwitch s!"--{name}"))
  | some s =>
    if s.arity ≠ .none then p.takeValued s value
    else if value.isSome then .error (.misuse (.unexpectedValue s))
    else p.takeFlag level s

/-- Takes switches by their letters; what follows the letter of one that has a value is the value. -/
def takeLetters (level : Level) : List Char → Progress → Parsed Progress
  | [], p => .ok p
  | c :: cs, p =>
    match Switch.ofLetter? level c with
    | none => .error (.misuse (.unknownSwitch s!"-{c}"))
    | some s =>
      if s.arity = .none then do takeLetters level cs (← p.takeFlag level s)
      else p.takeValued s (match cs with
        | [] => none
        | '=' :: cs => some (String.ofList cs)
        | cs => some (String.ofList cs))

end Progress

/-- A word of the command line. -/
inductive Word
  /-- two dashes: no switch comes any more -/
  | terminator
  | long (name : String) (value : Option String)
  | letters (letters : List Char)
  | plain (text : String)

/-- What a word is, by the dashes that it starts with. -/
def Word.ofText (text : String) : Word :=
  match text.toList with
  | ['-', '-'] => terminator
  | '-' :: '-' :: cs =>
    long (String.ofList (cs.takeWhile (· != '='))) (match cs.dropWhile (· != '=') with
      | [] => none
      | _ :: value => some (String.ofList value))
  | '-' :: c :: cs => letters (c :: cs)
  | _ => plain text

/-- The names of the command. -/
def commandNames : List String := ["introspect-schema", "download-schema"]

/-- The name of the command for help. -/
def helpName : String := "help"

/-- What help is asked for by the words behind the command for it. -/
def helpOn : List String → Invocation
  | [] => .help .program
  | [word] =>
    if commandNames.contains word then .help .introspect
    else if word = helpName then .help .program
    else .misuse (.unexpectedWord word)
  | _ :: word :: _ => .misuse (.unexpectedWord word)

/-- The words of a level, and those behind the command if its name ends the level. -/
def readWords (level : Level) : Progress → List String → Parsed (Progress × Option (List String))
  | p, [] => .ok (p, none)
  | p, arg :: args =>
    match Word.ofText arg with
    | .terminator =>
      match args with
      | [] => .ok (p, none)
      | extra :: _ => .error (.misuse (.unexpectedWord extra))
    | .long name value => do readWords level (← p.takeLong level name value) args
    | .letters cs => do readWords level (← p.takeLetters level cs) args
    | .plain text =>
      match p.pending with
      | some (s, none) => readWords level { p with pending := some (s, some text) } args
      | _ =>
        if level = .program ∧ commandNames.contains text then .ok (p, some args)
        else if level = .program ∧ text = helpName then .error (helpOn args)
        else .error (.misuse (.unexpectedWord text))

/-- The arguments of the command. -/
def readArguments (args : List String) : Parsed Arguments := do
  let (before, rest) ← readWords .program {} args
  match rest with
  | none => throw (.misuse .noCommand)
  | some rest =>
    let (behind, _) ← readWords .introspect {} rest
    let behind ← behind.settle
    let before ← before.settle
    return behind.arguments.layer before.arguments

/-- What a command line asks for. -/
def Invocation.ofArguments (args : List String) : Invocation :=
  match readArguments args with
  | .ok a => introspect a
  | .error invocation => invocation

end SchemaWeave.Command
