import SchemaWeave.Yaml.Scalar

/-!
# Anchors and aliases

An anchor gets the number of names that are known before it, and its name stands for that number from then on. An alias
takes the number of its name at once and the node of the number when the whole document is read. A name that comes again
gets a new number without a new name, so the next new name gets the same number, and aliases of both lead to its node.
-/

namespace SchemaWeave.Yaml

/-- A node of a flat mapping: a scalar, or an alias, which holds the number of an anchor. -/
inductive Node
  | scalar (s : Scalar)
  | reference (number : Nat)
  deriving DecidableEq, Repr

/-- The anchors of a document, the latest first: the number of each name, and what each number stands for. The mapping
itself is no scalar. -/
structure Anchors where
  numbers : List (String × Nat) := []
  nodes : List (Nat × Option Scalar) := []

namespace Anchors

/-- The number of a name. -/
def number? (anchors : Anchors) (name : String) : Option Nat := anchors.numbers.lookup name

/-- The scalar that a number stands for. -/
def scalar? (anchors : Anchors) (number : Nat) : Option Scalar := (anchors.nodes.lookup number).join

/-- Anchors with a further one, of a scalar or of the mapping. -/
def define (anchors : Anchors) (name : String) (node : Option Scalar) : Anchors where
  numbers := (name, anchors.numbers.length) :: anchors.numbers.filter (·.1 ≠ name)
  nodes := (anchors.numbers.length, node) :: anchors.nodes

/-- Anchors with that of a node, if it has one. -/
def define? (anchors : Anchors) (name : Option String) (node : Option Scalar) : Anchors :=
  match name with
  | none => anchors
  | some name => anchors.define name node

/-- The scalar of a node. -/
def scalarOf? (anchors : Anchors) : Node → Option Scalar
  | .scalar s => some s
  | .reference number => anchors.scalar? number

end Anchors

end SchemaWeave.Yaml
