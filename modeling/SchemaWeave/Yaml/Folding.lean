import SchemaWeave.Yaml.Character

/-!
# Folding lines

Between the words of a scalar that goes over several lines stand gaps of blanks and line ends. A gap within a line is kept.
A gap over a line end is a space, or one line feed fewer than it has line ends.
-/

namespace SchemaWeave.Yaml

/-- The blanks and line ends since the last word of a scalar. -/
inductive Gap
  /-- blanks within a line, the last one first -/
  | blanks (backwards : List Char)
  /-- line ends: the first, unless it was escaped, and the later ones, the last one first -/
  | breaks (first : Option Char) (backwards : List Char)
  deriving DecidableEq

namespace Gap

/-- No gap. -/
def none : Gap := blanks []

def isNone : Gap → Bool
  | blanks [] => true
  | _ => false

/-- Whether a gap goes over a line end. -/
def isBroken : Gap → Bool
  | blanks _ => false
  | breaks _ _ => true

/-- A gap with one more blank: only blanks within the first line are kept. -/
def addBlank (c : Char) : Gap → Gap
  | blanks cs => blanks (c :: cs)
  | breaks first cs => breaks first cs

/-- A gap with one more line end: the blanks before the first are dropped. -/
def addBreak (c : Char) : Gap → Gap
  | blanks _ => breaks (some c) []
  | breaks first cs => breaks first (c :: cs)

/-- What a gap stands for. -/
def text : Gap → List Char
  | blanks cs => cs.reverse
  | breaks Option.none cs => cs.reverse
  | breaks (some c) cs =>
    if c = '\n' then (if cs.isEmpty then [' '] else cs.reverse) else c :: cs.reverse

end Gap

end SchemaWeave.Yaml
