import SchemaWeave.Yaml.Anchor
import SchemaWeave.Yaml.Block
import SchemaWeave.Yaml.Plain
import SchemaWeave.Yaml.Property
import SchemaWeave.Yaml.Quoted

/-!
# Nodes

A node of a flat mapping is a scalar in one of its styles, with an anchor and a tag before it or without, or an alias of an
earlier scalar. A node that has nothing but an anchor or a tag is an empty scalar.
-/

namespace SchemaWeave.Yaml

/-- Where a node stands: inside braces, or in a block mapping whose entries start at a column. -/
inductive Context
  | flow
  | block (indent : Nat)
  deriving DecidableEq

namespace Context

def isFlow : Context → Bool
  | flow => true
  | block _ => false

/-- The first column of lines that belong to a node. -/
def indent : Context → Nat
  | flow => 0
  | block indent => indent + 1

/-- Whether the next token belongs to a node and not to the entry after it. A block scalar needs no indentation. -/
def holds (context : Context) (c : Cursor) : Bool :=
  match context with
  | flow => true
  | block indent =>
    indent < c.column || (indent == c.column && (c.rest.head?.any fun ch => ch == '|' || ch == '>'))

end Context

/-- What precedes a node. -/
structure Properties where
  anchor : Option String := none
  tag : Option String := none

namespace Properties

def isEmpty (p : Properties) : Bool := p.anchor.isNone && p.tag.isNone

/-- Two runs of properties together; none of them comes twice. -/
def append (p q : Properties) : Except Fault Properties :=
  if (p.anchor.isSome && q.anchor.isSome) || (p.tag.isSome && q.tag.isSome) then .error .unexpected
  else .ok { anchor := p.anchor <|> q.anchor, tag := p.tag <|> q.tag }

end Properties

/-- Goes on to the next token; inside braces the document does not end. -/
def skipToToken (flow : Bool) (c : Cursor) : Except Fault Cursor :=
  let c := c.skip flow
  if flow && c.isAtMarker then .error .marker else .ok c

/-- Reads a property, if one comes next, and goes on to the token after it. -/
def readProperty? (handles : TagHandles) (flow : Bool) (c : Cursor) : Except Fault (Option (Properties × Cursor)) := do
  match c.rest with
  | '&' :: cs =>
    let (name, c) ← readName (c.next cs)
    return some ({ anchor := some name }, ← skipToToken flow c)
  | '!' :: cs =>
    let (tag, c) ← readTag handles flow (c.next cs)
    return some ({ tag := some tag }, ← skipToToken flow c)
  | _ => return none

/-- Reads properties, at most `bound` of them, up to a place where `stops` holds. -/
def readProperties (handles : TagHandles) (flow : Bool) (stops : Cursor → Bool) :
    (bound : Nat) → Properties → Cursor → Except Fault (Properties × Cursor)
  | 0, p, c => .ok (p, c)
  | bound + 1, p, c => do
    match ← readProperty? handles flow c with
    | none => return (p, c)
    | some (q, c) =>
      let p ← p.append q
      if stops c then return (p, c) else readProperties handles flow stops bound p c

/-- The most properties that a node has. -/
def mostProperties : Nat := 2

/-- Reads the text of a scalar, if one comes next, with its style. -/
def readScalarText? (context : Context) (c : Cursor) : Except Fault (Option ((List Char × Style) × Cursor)) := do
  match c.rest with
  | [] => return none
  | '"' :: cs =>
    let (text, c) ← readDouble (c.next cs)
    return some ((text, .quoted), c)
  | '\x27' :: cs =>
    let (text, c) ← readSingle (c.next cs)
    return some ((text, .quoted), c)
  | ch :: cs =>
    match context with
    | .block indent =>
      if ch = '|' ∨ ch = '>' then
        let (text, c) ← readBlock (ch == '|') indent cs
        return some ((text, if ch = '|' then .literal else .folded), c)
    | .flow => pure ()
    if startsPlain context.isFlow ch cs then
      let (text, c) ← readPlain context.isFlow context.indent c
      return some ((text, .plain), c)
    else return none

/-- The scalar of properties and a text. -/
def scalarOf (p : Properties) : Option (List Char × Style) → Scalar
  | none => { Scalar.empty with tag := p.tag }
  | some (text, style) => { text := String.ofList text, style, tag := p.tag }

/-- An alias, after its sign; its anchor comes before it. -/
def readAlias (anchors : Anchors) (c : Cursor) : Except Fault (Node × Cursor) := do
  let (name, c) ← readName c
  match anchors.number? name with
  | some number => return (.reference number, c)
  | none => throw (.undefinedAlias name)

/-- Reads a scalar with its properties. -/
def readScalar (handles : TagHandles) (context : Context) (stops : Cursor → Bool) (anchors : Anchors) (c : Cursor) :
    Except Fault (Scalar × Anchors × Cursor) := do
  let (p, c) ← readProperties handles context.isFlow stops mostProperties {} c
  let (s, c) ← match ← (if !p.isEmpty && stops c then pure none else readScalarText? context c) with
    | some (text, c) => pure (scalarOf p (some text), c)
    | none => if p.isEmpty then throw .unexpected else pure (scalarOf p none, c)
  return (s, anchors.define? p.anchor (some s), c)

/-- Reads a node; `stops` says where the next token does not belong to it any more. -/
def readNode (handles : TagHandles) (context : Context) (stops : Cursor → Bool) (anchors : Anchors) (c : Cursor) :
    Except Fault (Node × Anchors × Cursor) := do
  match c.rest with
  | '*' :: cs =>
    let (node, c) ← readAlias anchors (c.next cs)
    return (node, anchors, c)
  | _ =>
    let (s, anchors, c) ← readScalar handles context stops anchors c
    return (.scalar s, anchors, c)

end SchemaWeave.Yaml
