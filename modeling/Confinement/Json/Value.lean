import Confinement.Json.Token

/-!
# JSON values

A machine with a stack of open arrays and objects puts the tokens of a text together to the one value
that the text must consist of. Members of an object are kept in order, repeated keys included: what
a repeated key means is for the reader of the object to say.
-/

set_option autoImplicit false

namespace Confinement.Json

/-- A JSON value. -/
inductive Value where
  | null
  | bool (b : Bool)
  /-- A number; its value when it is written with digits alone. -/
  | number (natural : Option Nat)
  /-- A string; its text when it stands for one. -/
  | string (text : Option String)
  | array (items : List Value)
  | object (members : List (Option String × Value))
  deriving Inhabited

/-- The members of an object; a key that stands for no text is none. -/
abbrev Members := List (Option String × Value)

/-- An array or object whose next part is a value. Its parts are kept with the last one first. -/
inductive Frame where
  | array (items : List Value)
  | object (members : Members) (key : Option String)
  deriving Inhabited

/-- What the machine is waiting for, innermost frame first. -/
inductive Awaiting where
  /-- A value. -/
  | value (outer : List Frame)
  /-- The first item of an array, or its end. -/
  | firstItem (outer : List Frame)
  /-- A comma after an item, or the end of the array. -/
  | afterItem (outer : List Frame) (items : List Value)
  /-- The first key of an object, or its end. -/
  | firstKey (outer : List Frame)
  /-- A key. -/
  | nextKey (outer : List Frame) (members : Members)
  /-- The colon after a key. -/
  | colon (outer : List Frame) (members : Members) (key : Option String)
  /-- A comma after a member, or the end of the object. -/
  | afterMember (outer : List Frame) (members : Members)
  /-- Nothing more. -/
  | nothing (v : Value)
  deriving Inhabited

namespace Awaiting

/-- A value is complete. -/
def completed (v : Value) : List Frame → Awaiting
  | [] => .nothing v
  | .array items :: outer => .afterItem outer (v :: items)
  | .object members key :: outer => .afterMember outer ((key, v) :: members)

/-- Takes up the first token of a value. -/
def startValue (outer : List Frame) : Token → Option Awaiting
  | .null => some (completed .null outer)
  | .bool b => some (completed (.bool b) outer)
  | .number natural => some (completed (.number natural) outer)
  | .string text => some (completed (.string text) outer)
  | .openBracket => some (.firstItem outer)
  | .openBrace => some (.firstKey outer)
  | _ => none

/-- Takes up a token. -/
def step : Awaiting → Token → Option Awaiting
  | .value outer, token => startValue outer token
  | .firstItem outer, .closeBracket => some (completed (.array []) outer)
  | .firstItem outer, token => startValue (.array [] :: outer) token
  | .afterItem outer items, .comma => some (.value (.array items :: outer))
  | .afterItem outer items, .closeBracket => some (completed (.array items.reverse) outer)
  | .firstKey outer, .closeBrace => some (completed (.object []) outer)
  | .firstKey outer, .string key => some (.colon outer [] key)
  | .nextKey outer members, .string key => some (.colon outer members key)
  | .colon outer members key, .colon => some (.value (.object members key :: outer))
  | .afterMember outer members, .comma => some (.nextKey outer members)
  | .afterMember outer members, .closeBrace => some (completed (.object members.reverse) outer)
  | _, _ => none

/-- The value, once there is nothing to wait for. -/
def finish : Awaiting → Option Value
  | .nothing v => some v
  | _ => none

end Awaiting

/-- The value that a text consists of. -/
def parse? (text : String) : Option Value := do
  let tokens ← tokens? text
  let last ← tokens.foldlM Awaiting.step (.value [])
  last.finish

end Confinement.Json
