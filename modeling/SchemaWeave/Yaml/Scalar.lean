/-!
# Scalars

A scalar is a text with the style in which it is written and a tag, if it has one.
-/

namespace SchemaWeave.Yaml

/-- The ways to write a scalar. -/
inductive Style
  | plain | quoted | literal | folded
  deriving DecidableEq, Repr

/-- A scalar: its text, how it is written, and its tag. -/
structure Scalar where
  text : String
  style : Style
  tag : Option String
  deriving DecidableEq, Repr

/-- The scalar that nothing written stands for. -/
def Scalar.empty : Scalar := { text := "", style := .plain, tag := none }

end SchemaWeave.Yaml
