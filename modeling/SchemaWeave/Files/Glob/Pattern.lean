/-!
# Patterns for names

A pattern has stars, question marks and ranges in brackets; two stars alone between slashes stand for directories at any
depth. `Pattern.parse` reads a pattern or says where it is at fault, `Pattern.isMatch` compares one with a name.
-/

namespace SchemaWeave.Files

/-- An item of a range: a character, or all from one to another. -/
inductive RangeItem
  | char (c : Char)
  | span (first last : Char)
  deriving DecidableEq, Repr

/-- A token of a pattern. -/
inductive PatternToken
  | char (c : Char)
  | anyChar
  /-- any characters -/
  | star
  /-- any directories -/
  | directories
  | within (items : List RangeItem)
  | except (items : List RangeItem)
  deriving DecidableEq, Repr

/-- What can be wrong with a pattern. -/
inductive PatternProblem
  | wildcards
  | recursiveComponent
  | range
  deriving DecidableEq, Repr

def PatternProblem.message : PatternProblem → String
  | wildcards => "wildcards are either regular `*` or recursive `**`"
  | recursiveComponent => "recursive wildcards must form a single path component"
  | range => "invalid range pattern"

/-- A fault of a pattern and the number of characters in front of it. -/
structure PatternError where
  position : Nat
  problem : PatternProblem
  deriving DecidableEq, Repr

def PatternError.message (e : PatternError) : String :=
  s!"Pattern syntax error near position {e.position}: {e.problem.message}"

abbrev Pattern := List PatternToken

namespace Pattern

/-- The items of a range. -/
def rangeItems : List Char → List RangeItem
  | a :: '-' :: b :: cs => .span a b :: rangeItems cs
  | a :: cs => .char a :: rangeItems cs
  | [] => []

/-- A range after its opening bracket: the token, its length without that bracket, and what follows. Its first character
may be a closing bracket. -/
def readRange : List Char → Option (PatternToken × Nat × List Char)
  | '!' :: c :: cs =>
    match cs.dropWhile (· != ']') with
    | [] => none
    | _ :: rest =>
      let inside := c :: cs.takeWhile (· != ']')
      some (.except (rangeItems inside), inside.length + 2, rest)
  | '!' :: [] => none
  | c :: cs =>
    match cs.dropWhile (· != ']') with
    | [] => none
    | _ :: rest =>
      let inside := c :: cs.takeWhile (· != ']')
      some (.within (rangeItems inside), inside.length + 1, rest)
  | [] => none

/-- Puts a token for directories in front, unless one is there. -/
def consDirectories (tokens : Pattern) : Pattern :=
  match tokens with
  | .directories :: _ :: _ => tokens
  | _ => .directories :: tokens

/-- Reads a pattern from a position on, `before` being the character in front and `done` the tokens so far, the last one
first; `bound` limits the number of steps. -/
def parseFrom : (bound : Nat) → (position : Nat) → (before : Option Char) → (done : Pattern) → List Char →
    Except PatternError Pattern
  | 0, _, _, done, _ => .ok done.reverse
  | _ + 1, _, _, done, [] => .ok done.reverse
  | bound + 1, position, before, done, c :: cs =>
    if c = '?' then parseFrom bound (position + 1) (some c) (.anyChar :: done) cs
    else if c = '*' then
      let stars := 1 + (cs.takeWhile (· == '*')).length
      let rest := cs.dropWhile (· == '*')
      if 2 < stars then .error ⟨position + 2, .wildcards⟩
      else if stars = 1 then parseFrom bound (position + 1) (some '*') (.star :: done) rest
      else if before = none ∨ before = some '/' then
        match rest with
        | [] => parseFrom bound (position + 2) (some '*') (consDirectories done) []
        | '/' :: rest => parseFrom bound (position + 3) (some '/') (consDirectories done) rest
        | _ => .error ⟨position + 2, .recursiveComponent⟩
      else .error ⟨position - 1, .recursiveComponent⟩
    else if c = '[' then
      match readRange cs with
      | none => .error ⟨position, .range⟩
      | some (token, length, rest) => parseFrom bound (position + 1 + length) (some ']') (token :: done) rest
    else parseFrom bound (position + 1) (some c) (.char c :: done) cs

/-- The tokens of a pattern. -/
def parse (text : List Char) : Except PatternError Pattern := parseFrom text.length 0 none [] text

/-- Whether a character is in a range. -/
def inRange (c : Char) (items : List RangeItem) : Bool :=
  items.any fun
    | .char a => a == c
    | .span first last => first ≤ c && c ≤ last

/-- Whether a token stands for a character. -/
def tokenMatches (c : Char) : PatternToken → Bool
  | .char a => a == c
  | .anyChar => true
  | .within items => inRange c items
  | .except items => !inRange c items
  | .star | .directories => false

/-- Whether a pattern stands for a whole name. -/
def isMatch : Pattern → List Char → Bool
  | [], name => name.isEmpty
  | .star :: p, name | .directories :: p, name => suffixes name |>.any (isMatch p)
  | _ :: _, [] => false
  | t :: p, c :: name => tokenMatches c t && isMatch p name
where
  /-- A text and its ends. -/
  suffixes : List Char → List (List Char)
    | [] => [[]]
    | c :: cs => (c :: cs) :: suffixes cs

/-- Whether a pattern is for directories at any depth. -/
def isRecursive (p : Pattern) : Bool := p.contains .directories

/-- The name that a pattern of plain characters stands for. -/
def literal? (p : Pattern) : Option (List Char) :=
  p.mapM fun
    | .char c => some c
    | _ => none

/-- A text as a pattern that stands for it alone. -/
def escape (text : List Char) : List Char :=
  text.flatMap fun c => if ['?', '*', '[', ']'].contains c then ['[', c, ']'] else [c]

end Pattern

end SchemaWeave.Files
