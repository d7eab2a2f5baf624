import SchemaWeave.Yaml.Node

/-!
# Flat mappings

`readMapping` reads a text that holds one document, and in it one mapping of scalars, in braces or with an entry a line. Of
nested collections, which have no place in it, none is read. A document that holds nothing counts as an empty mapping.
-/

namespace SchemaWeave.Yaml

/-- A key with its value. -/
abbrev Entry := Scalar × Scalar

/-- A key with its value as they are written, aliases among them. -/
abbrev NodePair := Node × Node

/-- A reader of an entry: it gives the anchors that are known then, and the place of the token after the entry. -/
abbrev EntryReader := Anchors → Cursor → Except Fault (NodePair × Anchors × Cursor)

/-- A reader of all entries, with the anchors that are known in the end. -/
abbrev EntriesReader := Anchors → Cursor → Except Fault (List NodePair × Anchors × Cursor)

/-- The value that nothing written stands for. -/
def Node.empty : Node := .scalar .empty

section Flow

variable (handles : TagHandles)

/-- Whether an entry in braces ends. -/
def endsFlowEntry (c : Cursor) : Bool := c.rest.head?.any fun ch => ch == ',' || ch == '}'

/-- Reads a node in braces, and goes on to the token after it. -/
def readFlowNode (anchors : Anchors) (c : Cursor) : Except Fault (Node × Anchors × Cursor) := do
  let (node, anchors, c) ← readNode handles .flow (fun _ => false) anchors c
  return (node, anchors, ← skipToToken true c)

/-- The value of a key in braces, at the token after the colon. -/
def readFlowValue (key : Node) : EntryReader := fun anchors c => do
  let c ← skipToToken true c
  if endsFlowEntry c then return ((key, .empty), anchors, c)
  else
    let (value, anchors, c) ← readFlowNode handles anchors c
    return ((key, value), anchors, c)

/-- An entry in braces. A key that a question mark does not mark has to be a short one. -/
def readFlowEntry : EntryReader := fun anchors c => do
  let (marked, start) ← match c.rest with
    | '?' :: cs => do
      let c ← skipToToken true (c.next cs)
      pure (true, c)
    | _ => pure (false, c)
  let (key, anchors, c) ← readFlowNode handles anchors start
  match c.rest with
  | ':' :: cs =>
    if marked || isKeyBetween start.rest c.rest then readFlowValue handles key anchors (c.next cs) else throw .key
  | _ => return ((key, .empty), anchors, c)

/-- The entries in braces up to the closing one, at most `bound` of them; a comma may stand behind the last. -/
def readFlowEntries : (bound : Nat) → EntriesReader
  | 0, _, _ => .error .unclosed
  | bound + 1, anchors, c => do
    let c ← skipToToken true c
    match c.rest with
    | '}' :: cs => return ([], anchors, c.next cs)
    | _ =>
      let (entry, anchors, c) ← readFlowEntry handles anchors c
      match c.rest with
      | ',' :: cs =>
        let (entries, anchors, c) ← readFlowEntries bound anchors (c.next cs)
        return (entry :: entries, anchors, c)
      | '}' :: cs => return ([entry], anchors, c.next cs)
      | [] => throw .unclosed
      | _ => throw .unexpected

end Flow

section Block

variable (handles : TagHandles) (indent : Nat)

/-- The value of a key, after the colon, and the token after it. A value that does not come before the next entry is
empty. -/
def readBlockValue (key : Node) : EntryReader := fun anchors c => do
  let c := c.skip false
  if c.rest.isEmpty || !(Context.block indent).holds c then return ((key, .empty), anchors, c)
  else
    let (value, anchors, c) ← readNode handles (.block indent) (fun c => !(Context.block indent).holds c) anchors c
    return ((key, value), anchors, c.skip false)

/-- An entry with a short key. -/
def readShortEntry : EntryReader := fun anchors start => do
  let (key, anchors, c) ← readNode handles (.block indent) Cursor.fresh anchors start
  let c := c.skip false
  match c.rest with
  | ':' :: cs =>
    if endsWord cs && isKeyBetween start.rest c.rest then readBlockValue handles indent key anchors (c.next cs)
    else throw .key
  | _ => throw .key

/-- An entry whose key a question mark marks; its colon stands below the mark, if there is one. -/
def readMarkedEntry : EntryReader := fun anchors c => do
  let c := c.skip false
  if !(Context.block indent).holds c then throw .unexpected
  let (key, anchors, c) ← readNode handles (.block indent) (fun c => !(Context.block indent).holds c) anchors c
  let c := c.skip false
  match c.rest with
  | ':' :: cs =>
    if endsWord cs && c.fresh && c.column == indent then
      readBlockValue handles indent key anchors { c.next cs with fresh := true }
    else throw .unexpected
  | _ => return ((key, .empty), anchors, c)

/-- An entry of a block mapping. -/
def readBlockEntry : EntryReader := fun anchors c =>
  match c.rest with
  | '?' :: cs =>
    if endsWord cs then readMarkedEntry handles indent anchors { c.next cs with fresh := true }
    else readShortEntry handles indent anchors c
  | _ => readShortEntry handles indent anchors c

/-- The entries of a block mapping, at most `bound` of them, and the first token that is not indented as they are. -/
def readBlockEntries : (bound : Nat) → EntriesReader
  | 0, _, _ => .error .unclosed
  | bound + 1, anchors, c => do
    let (entry, anchors, c) ← readBlockEntry handles indent anchors c
    if c.rest.isEmpty || c.column < indent || c.isAtMarker then return ([entry], anchors, c)
    else if c.column == indent && c.fresh then
      let (entries, anchors, c) ← readBlockEntries bound anchors c
      return (entry :: entries, anchors, c)
    else throw .unexpected

end Block

/-- The mapping of a document from some token on, of which the properties before it are known. Properties on the line of
an entry belong to its key. `marked` says whether the document's start was marked. -/
def readRoot (handles : TagHandles) (marked : Bool) : (bound : Nat) → Properties → Cursor →
    Except Fault (List NodePair × Anchors × Cursor)
  | 0, _, _ => .error .unexpected
  | bound + 1, p, c => do
    let anchors := Anchors.define? {} p.anchor none
    match c.rest with
    | [] => return ([], anchors, c)
    | '{' :: cs => readFlowEntries handles (cs.length + 1) anchors (c.next cs)
    | '&' :: _ | '!' :: _ =>
      let (q, behind) ← readProperties handles false Cursor.fresh mostProperties {} c
      if behind.rest.isEmpty || behind.fresh || behind.rest.head? == some '{' then
        readRoot handles marked bound (← p.append q) behind
      else if c.fresh then readBlockEntries handles c.column (c.rest.length + 1) anchors c
      else throw .unexpected
    | _ =>
      if c.isAtMarker then
        if marked || !p.isEmpty then return ([], anchors, c) else throw .unexpected
      else if c.fresh then readBlockEntries handles c.column (c.rest.length + 1) anchors c
      else throw .unexpected

/-- The scalar of a node, when all anchors are known. -/
def resolveNode (anchors : Anchors) (node : Node) : Except Fault Scalar :=
  match anchors.scalarOf? node with
  | some s => .ok s
  | none => .error .unexpected

/-- The entry that is written, when all anchors are known. -/
def resolvePair (anchors : Anchors) (pair : NodePair) : Except Fault Entry := do
  return (← resolveNode anchors pair.1, ← resolveNode anchors pair.2)

/-- The directives of a document, at most `bound` of them, and its start if it is marked. -/
def readStart : (bound : Nat) → Directives → Cursor → Except Fault (Directives × Bool × Cursor)
  | 0, _, _ => .error .directive
  | bound + 1, d, c => do
    let c := c.skip false
    match c.rest with
    | '%' :: cs =>
      if c.column = 0 then
        let (d, cs) ← readDirective d cs
        readStart bound d ⟨← finishLine .directive cs, 0, false⟩
      else throw .unexpected
    | cs => if c.column == 0 && startsMarker '-' cs then return (d, true, ⟨cs.drop 3, 3, false⟩) else return (d, false, c)

/-- Checks that nothing but marks of the document's end is left, at most `bound` of them. -/
def checkDocumentEnd : (bound : Nat) → Cursor → Except Fault Unit
  | 0, _ => .error .unexpected
  | bound + 1, c =>
    let c := c.skip false
    if c.rest.isEmpty then .ok ()
    else if c.column == 0 && startsMarker '.' c.rest then checkDocumentEnd bound ⟨c.rest.drop 3, 3, false⟩
    else .error .unexpected

/-- The entries of the mapping that a text holds, in their order. -/
def readMapping (text : List Char) : Except Fault (List Entry) := do
  match text.find? (!isContent ·) with
  | some c => throw (.control c)
  | none =>
    let bound := text.length + 1
    let (d, marked, c) ← readStart bound {} ⟨text, 0, true⟩
    if !marked && (d.hasVersion || !d.handles.isEmpty) then throw .directive
    let (pairs, anchors, c) ← readRoot d.handles marked (mostProperties + 1) {} (c.skip false)
    checkDocumentEnd bound c
    pairs.mapM (resolvePair anchors)

end SchemaWeave.Yaml
