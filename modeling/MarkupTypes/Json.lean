/-!
# JSON values

Parsed JSON, as far as models need it : of numbers, only natural ones can be told
apart. A record is read from an object by the names of its fields, where a missing
field counts as null, or from an array that has all the fields in order
(`Json.fields?`). A choice is read from a string, or from an object with one field
(`Json.variant?`).
-/

namespace MarkupTypes

/-- A JSON value. -/
inductive Json where
  | null
  | bool (value : Bool)
  /-- A natural number that is written without a fraction and an exponent. -/
  | number (value : Nat)
  /-- Any other number. -/
  | otherNumber
  | string (value : String)
  | array (items : List Json)
  /-- Fields with their names, which are all different. -/
  | object (fields : List (String × Json))
  deriving Repr, Inhabited

namespace Json

/-- The least number that has no room in a word of 32 bits. -/
def wordLimit : Nat := Nat.pow 2 32

/-- A natural number below `wordLimit`. -/
def word? : Json → Option Nat
  | number n => if n < wordLimit then some n else none
  | _ => none

/-- A truth value. -/
def bool? : Json → Option Bool
  | bool b => some b
  | _ => none

/-- A string. -/
def string? : Json → Option String
  | string s => some s
  | _ => none

/-- Only null is null. -/
def isNull : Json → Bool
  | null => true
  | _ => false

/-- Null, or what `read` makes of any other value. -/
def option? {α : Type} (read : Json → Option α) : Json → Option (Option α)
  | null => some none
  | v => (read v).map some

/-- An array of what `read` makes of its items. -/
def list? {α : Type} (read : Json → Option α) : Json → Option (List α)
  | array items => items.mapM read
  | _ => none

/-- An object of what `readKey` makes of the names of its fields, and `read` of their
values. -/
def entries? {κ α : Type} (readKey : Json → Option κ) (read : Json → Option α) :
    Json → Option (List (κ × α))
  | object fields => fields.mapM fun field => do
    return (← readKey (string field.1), ← read field.2)
  | _ => none

/-- The values of the named fields of a record. -/
def fields? (names : List String) : Json → Option (List Json)
  | object fields => some (names.map fun name => (fields.lookup name).getD null)
  | array items => if items.length = names.length then some items else none
  | _ => none

/-- The name of a choice, with the value it was made for if there is one. -/
def variant? : Json → Option (String × Option Json)
  | string name => some (name, none)
  | object [(name, v)] => some (name, some v)
  | _ => none

/-- One of several choices that come without a value. -/
def oneOf? {α : Type} (choices : List (String × α)) (v : Json) : Option α :=
  match v.variant? with
  | some (name, none) | some (name, some null) => choices.lookup name
  | _ => none

/-- Null for nothing. -/
def ofOption {α : Type} (write : α → Json) : Option α → Json
  | none => null
  | some x => write x

/-- The name of a field that has a value for its key, which must be a string or a
number. -/
def key? : Json → Option String
  | string s => some s
  | number n => some (toString n)
  | _ => none

/-- The object of entries, unless the key of one cannot name a field. -/
def ofEntries? (entries : List (Json × Json)) : Option Json :=
  (entries.mapM fun (e : Json × Json) => e.1.key?.map fun name => (name, e.2)).map object

end Json

end MarkupTypes
