import Roaring.Json.Token

/-!
# JSON values

A value is built from the tokens of its text by a machine that keeps the unfinished arrays and
objects on a stack of its own, so values may nest to any depth. Members of an object stay in
order, and a repeated key stays repeated: what that means is for the reader of the value.
-/
namespace Roaring

/-- A JSON value. -/
inductive Json where
  | null
  | bool (value : Bool)
  /-- The number's value when it is written as digits alone. -/
  | number (natural : Option Nat)
  /-- The code points of the string. -/
  | string (points : List Nat)
  | array (items : List Json)
  | object (members : List (List Nat × Json))

namespace Json

/-- An array or object that is not closed yet; its newest part comes first. -/
inductive Frame where
  | array (items : List Json)
  | object (members : List (List Nat × Json))
  /-- An object that waits for the value of `key`. -/
  | member (members : List (List Nat × Json)) (key : List Nat)

/-- What the tokens so far allow to come next. -/
inductive Build where
  | value (stack : List Frame)
  /-- After an opening bracket: an item or the closing bracket. -/
  | item (stack : List Frame)
  /-- After an opening brace: a key or the closing brace. -/
  | firstKey (stack : List Frame)
  /-- After a comma in an object. -/
  | key (members : List (List Nat × Json)) (stack : List Frame)
  | colon (members : List (List Nat × Json)) (key : List Nat) (stack : List Frame)
  /-- After a value inside the top frame: a comma or that frame's end. -/
  | separator (stack : List Frame)
  | done (value : Json)

namespace Build

/-- A finished value goes into the frame that waits for it. -/
def put (v : Json) : List Frame → Build
  | [] => .done v
  | .array items :: stack => .separator (.array (v :: items) :: stack)
  | .member members k :: stack => .separator (.object ((k, v) :: members) :: stack)
  | .object members :: stack => .separator (.object members :: stack)

/-- A token where a value has to begin. -/
def begin? (stack : List Frame) : Token → Option Build
  | .null => some (put .null stack)
  | .bool b => some (put (.bool b) stack)
  | .number n => some (put (.number n) stack)
  | .string s => some (put (.string s) stack)
  | .openArray => some (.item stack)
  | .openObject => some (.firstKey stack)
  | _ => none

/-- One token further. -/
def step? : Build → Token → Option Build
  | .value stack, token => begin? stack token
  | .item stack, .closeArray => some (put (.array []) stack)
  | .item stack, token => begin? (.array [] :: stack) token
  | .firstKey stack, .closeObject => some (put (.object []) stack)
  | .firstKey stack, .string k => some (.colon [] k stack)
  | .key members stack, .string k => some (.colon members k stack)
  | .colon members k stack, .colon => some (.value (.member members k :: stack))
  | .separator (.array items :: stack), .comma => some (.value (.array items :: stack))
  | .separator (.array items :: stack), .closeArray => some (put (.array items.reverse) stack)
  | .separator (.object members :: stack), .comma => some (.key members stack)
  | .separator (.object members :: stack), .closeObject =>
    some (put (.object members.reverse) stack)
  | _, _ => none

end Build

/-- The value that tokens spell, `none` when they spell none or more than one. -/
def ofTokens? (tokens : List Token) : Option Json :=
  match tokens.foldlM Build.step? (.value []) with
  | some (.done v) => some v
  | _ => none

/-- Reads a text that holds one value and blanks around its tokens. -/
def parse? (text : String) : Option Json := (tokens? text).bind ofTokens?

/-- The number that a value denotes when it is a 64 bit count in plain digits. -/
def count? : Json → Option Nat
  | number (some n) => if n < UInt64.size then some n else none
  | _ => none

end Json

end Roaring
