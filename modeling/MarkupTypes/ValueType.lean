/-!
# Value types

The types of the values that text, attribute values and text-only elements carry. A
list type is written as its item type between angle brackets (`ValueType.text`), and
the plain types come before all lists in the order (`ValueType.compare`).
-/

namespace MarkupTypes

/-- The type of a written value. -/
inductive ValueType where
  /-- Arbitrary text. -/
  | text
  | boolean
  | byte
  | short
  | int
  | long
  | integer
  | decimal
  | float
  | double
  | qname
  | calendar
  | duration
  | bytes
  | uri
  /-- A whitespace separated list of values of one type. -/
  | list (item : ValueType)
  deriving DecidableEq, Repr, Inhabited

namespace ValueType

/-- The name of a value type as it is shown. -/
def name : ValueType → String
  | text => "text"
  | boolean => "boolean"
  | byte => "byte"
  | short => "short"
  | int => "int"
  | long => "long"
  | integer => "integer"
  | decimal => "decimal"
  | float => "float"
  | double => "double"
  | qname => "qname"
  | calendar => "calendar"
  | duration => "duration"
  | bytes => "bytes"
  | uri => "uri"
  | list item => "list<" ++ item.name ++ ">"

/-- Only `text` is the type of arbitrary text. -/
def isText : ValueType → Bool
  | text => true
  | _ => false

/-- The place of a type among the plain types; every list has the last place. -/
def rank : ValueType → Nat
  | text => 0
  | boolean => 1
  | byte => 2
  | short => 3
  | int => 4
  | long => 5
  | integer => 6
  | decimal => 7
  | float => 8
  | double => 9
  | qname => 10
  | calendar => 11
  | duration => 12
  | bytes => 13
  | uri => 14
  | list _ => 15

/-- Plain types compare by rank and precede all lists; lists compare by item. -/
protected def compare : ValueType → ValueType → Ordering
  | list a, list b => ValueType.compare a b
  | a, b => Ord.compare a.rank b.rank

instance : Ord ValueType := ⟨ValueType.compare⟩

end ValueType

end MarkupTypes
