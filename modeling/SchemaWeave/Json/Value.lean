import SchemaWeave.Floating.Binary64

/-!
# JSON values

An object keeps its members in the order of its text, repeated names included. `Json.ordered` is the view in which
members are sorted by name and only the last of those with one name is kept.
-/

namespace SchemaWeave

open Floating (Binary64)

/-- A number: an integer of 64 bits, signed or unsigned, or a double. -/
inductive Json.Number
  | int (value : Int)
  | float (value : Binary64)
  deriving DecidableEq, Repr

/-- A JSON value. -/
inductive Json
  | null
  | bool (value : Bool)
  | number (value : Json.Number)
  | string (value : String)
  | array (items : List Json)
  | object (members : List (String × Json))

namespace Json

/-- The last member with a name, of an object. -/
def get? (key : String) : Json → Option Json
  | object members => (members.reverse.find? (·.1 == key)).map (·.2)
  | _ => none

def asString? : Json → Option String
  | string s => some s
  | _ => none

def isNull : Json → Bool
  | null => true
  | _ => false

/-- Puts a member into members sorted by name, in place of one with the same name. -/
def insertMember (key : String) (value : Json) : List (String × Json) → List (String × Json)
  | [] => [(key, value)]
  | (k, v) :: members =>
    if key < k then (key, value) :: (k, v) :: members
    else if key = k then (key, value) :: members
    else (k, v) :: insertMember key value members

mutual

/-- The value with the members of every object sorted by name, and the last of those with one name kept. -/
def ordered : Json → Json
  | array items => array (orderedItems items)
  | object members => object (orderedMembers members [])
  | null => null
  | bool b => bool b
  | number n => number n
  | string s => string s

def orderedItems : List Json → List Json
  | [] => []
  | item :: items => item.ordered :: orderedItems items

def orderedMembers : List (String × Json) → List (String × Json) → List (String × Json)
  | [], done => done
  | (key, value) :: members, done => orderedMembers members (insertMember key value.ordered done)

end

end Json

end SchemaWeave
